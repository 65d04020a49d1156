import TcAlloc.Blocks

/-!
`ConcurrentFree` by any thread. A call for a live block goes through without a failed
assertion, if the thread has a thread cache or the block is a large one, and leaves
the memory of the block, and of no other one, on a list or in a free span, or
where it is too long for that, with the system.
-/
namespace TcAlloc
namespace World
namespace Program

/-- The threads go on with their calls where what comes next is no misled release. -/
def Usage.quiet (b : Build) : Usage := ⟨fun _ => True,QuietNext b⟩

theorem fair_quiet (b : Build) : (Usage.quiet b).Fair b False := ⟨fun never => never.elim,fun _ _ _ may => may⟩

/-! ### Where freed memory rests -/

/-- The object is on a list of the thread's cache. -/
def OnOwnList (w : World) (t p : Nat) : Prop :=
  w.tlsThreadCache t ≠ 0 ∧ ∃ i objs, Chain w.mem (w.freeLists (w.tlsThreadCache t) i).head objs ∧ p ∈ objs

/-- The object is on the list of its span, a span in a bucket. -/
def OnSpanList (w : World) (p : Nat) : Prop :=
  ∃ i S objs, S ∈ w.spanLists i ∧ (w.pages.InUse S ∧ p ∈ (w.pages.spans S).extent.objects) ∧
    Chain w.mem (w.pages.spans S).freeList objs ∧ p ∈ objs

/-- Where the memory of a block of `n` bytes is after its free by thread `t`. -/
def RestsFor (w : World) (t p n : Nat) : Prop := OnOwnList w t p ∨ OnSpanList w p ∨ Vacated w.pages p n

/-- The assertion of `ConcurrentFree` has failed for a thread without a thread cache. -/
def Cacheless (w : World) (t p : Nat) : Prop :=
  w.tlsThreadCache t = 0 ∧ ∃ S, w.pages.InUse S ∧ p ∈ (w.pages.spans S).extent.objects ∧ (w.pages.spans S).objSize ≤ maxBytes

section
variable {b : Build} {g : Stock} {l : Ledger} {w : World} {live : List (Nat × Nat)} {t p q size n S : Nat} {M : Program}

/-- An object that the stock has in the cache of the thread is on a list of it. -/
theorem onOwnList (books : Books b g l w live) {i : Nat} (here : g.place p = .cached (g.cache t) i) : OnOwnList w t p := by
  obtain ⟨objs,listed⟩ := books.shelved (.cached (g.cache t) i)
  have mem := (listed.shelf.holding.mem p).mpr here
  rcases books.caches.manned (g.cache t) with empty | ⟨u,stored,made⟩
  · have chain := listed.shelf.chain
    rw [empty] at chain
    rw [Chain.nil_iff.mp chain] at mem
    exact (List.not_mem_nil mem).elim
  · have own := (books.caches.own u).resolve_left (by rw [stored]; exact made)
    obtain rfl : t = u := books.caches.apart t u made (stored.symm.trans own)
    exact ⟨by rw [stored]; exact made,i,objs,by rw [stored]; exact listed.shelf.chain,mem⟩

theorem onSpanList (books : Books b g l w live) {i : Nat} (here : g.place p = .free S) (home : g.home S = some (.listed i)) :
    OnSpanList w p := by
  obtain ⟨free,counted⟩ := books.shelved (.free S) i home
  have mem := (books.stock.free_mem here).2
  obtain ⟨s,used,same,extent⟩ := books.span (S := S) (by rw [home]; simp)
  exact ⟨i,S,free,(books.buckets i S).mpr home,⟨(books.settled.inUse_iff S).mpr ⟨s,used⟩,by rw [same,← extent]; exact mem⟩,
    counted.shelf.chain,(counted.shelf.holding.mem p).mpr here⟩

/-- A live block is at none of these places. -/
theorem live_rests_not (books : Books b g l w live) (mem : (q,size) ∈ live) (t : Nat) :
    ¬ RestsFor w t q (SizeClass.roundUp b.midAlignShift size) := by
  obtain ⟨here,S,owns⟩ := books.stock.blocks q size mem
  rintro (⟨_,i,objs,chain,inList⟩ | ⟨i,T,objs,listed,_,chain,inList⟩ | vacated)
  · obtain ⟨objs',shelved⟩ := books.shelved (.cached (w.tlsThreadCache t) i)
    rw [chain.unique shelved.shelf.chain] at inList
    rw [shelved.shelf.holding.at_place inList] at here; cases here
  · obtain ⟨free,counted⟩ := books.shelved (.free T) i ((books.buckets i T).mp listed)
    rw [chain.unique counted.shelf.chain] at inList
    rw [counted.shelf.holding.at_place inList] at here; cases here
  · exact books.not_vacated owns vacated

/-- What has been followed to the end of the call rests. -/
theorem freed_rests (follows : Follows g w t (.freed p) p n) (books : Books b g l w live)
    (holds : Holds b g w t (.freed p)) :
    RestsFor w t p n := by
  obtain ⟨list,_,rfl,carries,_⟩ := holds
  rcases follows with ⟨here | (⟨i,here⟩ | ⟨S,i,here,home⟩) | ⟨S,draining,_⟩,_⟩ | vacated
  · exact absurd here (Holding.nil_iff.mp carries.holding p)
  · exact .inl (onOwnList books here)
  · exact .inr (.inl (onSpanList books here home))
  · cases draining
  · exact .inr (.inr vacated)

/-- The assertion fails for small objects only. -/
theorem failed_small (follows : Follows g w t (.failed p) p n) (books : Books b g l w live)
    (holds : Holds b g w t (.failed p)) :
    w.tlsThreadCache t = 0 ∧ n ≤ maxBytes := by
  obtain ⟨list,size,rfl,carries,none,small⟩ := holds
  obtain ⟨S,owns⟩ := carries.sized p (List.mem_singleton_self p)
  rcases follows with ⟨_,T,owns'⟩ | vacated
  · rw [← owns'.size,books.stock.owner_unique owns'.home owns.home owns'.mem owns.mem,owns.size]
    exact ⟨none,small⟩
  · exact absurd vacated (books.not_vacated owns)

theorem failed_cacheless (books : Books b g l w live) (holds : Holds b g w t (.failed p)) : Cacheless w t p := by
  obtain ⟨list,size,rfl,carries,none,small⟩ := holds
  obtain ⟨S,owns⟩ := carries.sized p (List.mem_singleton_self p)
  obtain ⟨s,used,same,extent⟩ := books.span owns.home
  refine ⟨none,S,(books.settled.inUse_iff S).mpr ⟨s,used⟩,by rw [same,← extent]; exact owns.mem,?_⟩
  rw [show (w.pages.spans S).objSize = (g.extent S).objSize by rw [same,extent]; rfl,owns.size]
  exact small

/-! ### The call -/

/-- The call has come to a point of it, and the block has been followed. -/
structure Serving (b : Build) (t p n : Nat) (live : List (Nat × Nat)) (g : Stock) (l : Ledger)
    (w : World) (pt : Point) : Prop where
  call : pt.call = .free p
  books : Books b g l w live
  holds : Holds b g w t pt
  follows : Follows g w t pt p n
  served : maxBytes < n ∨ w.tlsThreadCache t ≠ 0

theorem Serving.goes {pt pt' : Point} {g' : Stock} {l' : Ledger} {w' : World} (serving : Serving b t p n live g l w pt)
    (goes : Goes b t live g l w pt g' l' w' pt') : Serving b t p n live g' l' w' pt' :=
  ⟨goes.call.trans serving.call,goes.books,goes.holds,goes.follows p n serving.call serving.follows,
  serving.served.imp_right goes.tls⟩

/-- A section of the call. -/
theorem Serving.section {pt : Point} {C : Code World Outcome → World → Prop} {post : Outcome → World → Prop}
    (serving : Serving b t p n live g l w pt) (quiet : QuietNext b (pt.code b t) w)
    (cuts : ∀ g' l' w' pt', Section answers (pt.code b t) w (pt'.code b t) w' → Serving b t p n live g' l'
    w' pt' → C (pt'.code b t) w')
    (ends : RestsFor w t p n →
    (∀ q size, (q,size) ∈ live → ∀ u, ¬ RestsFor w u q (SizeClass.roundUp b.midAlignShift size)) → post .freed w) :
    sec sections C (pt.code b t) [] w (fun o h w' => h = [] ∧ post o w') (fun _ _ => False) := by
  by_cases stops : pt.Stops
  · cases pt with
    | begins call =>
      obtain rfl : call = .free p := serving.call
      exact stops.elim
    | allocated size ptr => cases serving.call
    | freed ptr =>
      obtain rfl : ptr = p := Call.free.inj serving.call
      exact ⟨rfl,ends (freed_rests serving.follows serving.books serving.holds)
        (fun q size mem u => live_rests_not serving.books mem u)⟩
    | failed ptr =>
      obtain rfl : ptr = p := Call.free.inj serving.call
      obtain ⟨none,small⟩ := failed_small serving.follows serving.books serving.holds
      rcases serving.served with large | some
      · omega
      · exact absurd none some
    | _ => exact stops.elim
  · refine sec_mono ?_ (fun _ _ _ ended => ended) (sec_sections (serving.holds.leads serving.books quiet stops))
    rintro code w' ⟨⟨g',l',pt',rfl,goes⟩,run⟩
    exact cuts g' l' w' pt' run (serving.goes goes)

/-- The whole call, with nothing else going on. -/
theorem Serving.runs {post : Outcome → World → Prop} (serving : Serving b t p n live g l w (.begins (.free p)))
    (quiet : ∀ d, Turns ((Call.free p).code b t,w) d → QuietNext b d.1 d.2)
    (ends : ∀ w', RestsFor w' t p n →
    (∀ q size, (q,size) ∈ live → ∀ u, ¬ RestsFor w' u q (SizeClass.roundUp b.midAlignShift size)) →
      post .freed w') :
    wp sections ((Call.free p).code b t) [] w (fun o h w' => h = [] ∧ post o w') (fun _ _ => False) := by
  refine run_of_sections (J := fun code w' => Turns ((Call.free p).code b t,w) (code,w') ∧
    ∃ g' l' pt, code = pt.code b t ∧ Serving b t p n live g' l' w' pt) ?_ ⟨.refl,g,l,_,rfl,serving⟩
  rintro code w' ⟨turns,g',l',pt,rfl,now⟩
  exact now.section (quiet _ turns) (fun g'' l'' w'' pt' run next => ⟨.tail turns run,g'',l'',pt',rfl,next⟩) (ends w')

/-- A thread in the middle of a call has a section before it that goes through on every
    path, if the assertion has not failed for want of a thread cache. -/
theorem Agrees.goes_on {short : Prop} {call : Call} {code : Code World Outcome} (agrees : Agrees b short g l M)
    (running : M.stage t = .within call code) (fits : ∀ size, call = .alloc size → size + 8191 < 2 ^ 64)
    (quiet : QuietNext b code M.world) : (∃ p, call = .free p ∧ code = .fail .assertion ∧ Cacheless M.world t p) ∨
      sec sections (fun code' w' => ∀ why, code' = .fail why → ∃ p, call = .free p ∧ Cacheless w' t p) code [] M.world
      (fun o h _ => h = [] ∧ ∀ p, call = .free p → o = .freed) (fun _ _ => False) := by
  have stands := agrees.stands t
  rw [running] at stands
  obtain ⟨pt,rfl,rfl,holds⟩ := stands
  by_cases stops : pt.Stops
  · cases pt with
    | begins call =>
      cases call with
      | alloc size => exact absurd stops (Nat.not_le.mpr (fits size rfl))
      | free ptr => exact stops.elim
    | allocated size ptr => exact .inr ⟨rfl,fun p same => by cases same⟩
    | freed ptr => exact .inr ⟨rfl,fun _ _ => rfl⟩
    | failed ptr => exact .inl ⟨ptr,rfl,rfl,failed_cacheless agrees.books holds⟩
    | _ => exact stops.elim
  · refine .inr (sec_mono ?_ (fun _ _ _ ended => ended) (holds.leads agrees.books quiet stops))
    rintro code w' ⟨g',l',pt',rfl,goes⟩ why failing
    have still : QuietNext b (pt'.code b t) w' := by
      rw [failing]
      exact fun S k release => nomatch release
    by_cases stops' : pt'.Stops
    · cases pt' with
      | begins call' =>
        cases call' with
        | alloc size => exact absurd stops' (Nat.not_le.mpr (fits size goes.call.symm))
        | free ptr => exact stops'.elim
      | allocated size ptr => cases failing
      | freed ptr => cases failing
      | failed ptr => exact ⟨ptr,goes.call.symm,failed_cacheless goes.books goes.holds⟩
      | _ => exact stops'.elim
    · have impossible : sec sections (Leads b t M.live g' l' w' pt') (pt'.code b t) [] w'
        (fun _ _ _ => False) (fun _ _ => False) :=
        goes.holds.leads goes.books still stops'
      rw [failing] at impossible
      exact impossible.elim

/-- So does a thread in the middle of a call that frees a block. -/
theorem Agrees.frees_on {short : Prop} {code : Code World Outcome} (agrees : Agrees b short g l M)
    (running : M.stage t = .within (.free p) code)
    (quiet : QuietNext b code M.world) : (code = .fail .assertion ∧ Cacheless M.world t p) ∨
      sec sections (fun code' w' => ∀ why, code' = .fail why → Cacheless w' t p) code [] M.world
      (fun o h _ => h = [] ∧ o = .freed)
        (fun _ _ => False) := by
  rcases agrees.goes_on running (fun _ same => by cases same) quiet with ⟨ptr,same,failed⟩ | goes
  · cases same
    exact .inl failed
  · refine .inr (sec_mono (fun code' w' fails why failing => ?_) (fun o h w' ended => ⟨ended.1,ended.2 p rfl⟩) goes)
    obtain ⟨ptr,same,cacheless⟩ := fails why failing
    cases same
    exact cacheless

/-- A call that frees a live block. -/
theorem Agrees.frees {short : Prop} (agrees : Agrees b short g l M)
    (outside : M.stage t = .outside) (mem : (p,size) ∈ M.live)
    (served : maxBytes < size ∨ M.world.tlsThreadCache t ≠ 0) {P : Outcome → World → Prop}
    (quiet : ∀ d, Turns ((Call.free p).code b t,M.world) d → QuietNext b d.1 d.2)
    (ends : ∀ w', RestsFor w' t p (SizeClass.roundUp b.midAlignShift size) →
      (∀ q size', (q,size') ∈ M.live.erase (p,size) → ∀ u,
      ¬ RestsFor w' u q (SizeClass.roundUp b.midAlignShift size')) → P .freed w') :
    wp sections ((Call.free p).code b t) [] M.world (fun o h w' => h = [] ∧ P o w') (fun _ _ => False) := by
  obtain ⟨g',agrees',_,holds,here,owns⟩ := agrees.takes_back outside mem
  refine Serving.runs ⟨rfl,agrees'.books,holds,.inl ⟨.inl here,owns⟩,?_⟩ quiet ends
  exact served.imp_left (fun large => lt_of_lt_of_le large (agrees.size_le mem))

/-- A load of the lookup. -/
theorem lookup_wp {f : PageMap → Nat} {k : Nat → Code PageMap Nat} {post : Outcome → List Mutex → World → Prop}
    {thrown : List Mutex → World → Prop} {h : List Mutex}
    (goes : wp sections (Point.lookup b t p (Prog.read f >>= k)) h w post thrown) :
    wp sections (Point.lookup b t p (k (f w.pages.idSpanMap))) h w post thrown := goes.2

/-- A thread without a thread cache comes no further than to the assertion with a small object. -/
theorem free_stops (books : Books b g l w live) (holds : Holds b g w t (.begins (.free p))) (owns : g.Owns S p n)
    (small : n ≤ maxBytes) (none_ : w.tlsThreadCache t = 0) {post : Outcome → List Mutex → World → Prop}
    {thrown : List Mutex → World → Prop} : ¬ wp sections ((Call.free p).code b t) [] w post thrown := by
  intro goes
  obtain ⟨list,_,rfl,carries,_⟩ := holds
  obtain ⟨T,owns',found,some_⟩ := books.leads_to carries
  obtain rfl := books.stock.owner_unique owns'.home owns.home owns'.mem owns.mem
  obtain ⟨inside,root,mid,leaf⟩ := PageMap.found found some_
  obtain ⟨s,_,same,extent⟩ := books.span owns.home
  have objSize : (w.pages.spans T).objSize = n := by
    rw [same,← owns.size,extent]; rfl
  have whole : (Call.free p).code b t = Point.lookup b t p (PageMap.load Pages.bits (p >>> pageShift)) := rfl
  rw [whole,PageMap.load,if_neg inside] at goes
  have goes := lookup_wp goes
  rw [PageMap.afterRoot,if_neg root] at goes
  have goes := lookup_wp goes
  rw [PageMap.afterMid,if_neg mid] at goes
  have goes := lookup_wp (k := .ret) goes
  have code : Point.lookup b t p (.ret T) = (Point.measures p T).code b t := by
    simp only [Point.lookup,Prog.zoom,Prog.bind_def,Prog.bind,Prog.require,if_pos some_]
    rfl
  rw [leaf,code] at goes
  have measured : wp sections (freeSized b t p T (w.pages.spans T).objSize >>= Point.done) [] w post thrown := goes.2
  rw [objSize,freeSized,if_neg (by omega)] at measured
  simp only [wp_seq,wp_read,wp_require] at measured
  exact measured.2.1 none_

/-- So the thread of a call that goes through has one, if the block is small. -/
theorem Agrees.frees_needs {short : Prop} (agrees : Agrees b short g l M) (outside : M.stage t = .outside)
    (mem : (p,size) ∈ M.live) {post : Outcome → List Mutex → World → Prop} {thrown : List Mutex → World → Prop}
    (goes : wp sections ((Call.free p).code b t) [] M.world post thrown) :
    maxBytes < size ∨ M.world.tlsThreadCache t ≠ 0 := by
  obtain ⟨g',agrees',_,holds,_,S,owns⟩ := agrees.takes_back outside mem
  by_contra neither
  obtain ⟨small,none_⟩ := not_or.mp neither
  have short := (SizeClass.le_roundUp b.coarse (Nat.le_of_not_lt small)).2
  exact free_stops agrees'.books holds owns short (not_not.mp none_) goes

end

/-- A call that frees a live block goes through, whatever thread makes it and whatever
    the others do, unless the thread has no thread cache and the block is a small one;
    then the assertion fails. Made with nothing else going on it leaves the memory of that
    block, and of no other live one, on a list of the thread, on that of its span, or vacated. -/
theorem frees_served (b : Build) {mem : Memory} {M : Program} (reached : Reaches b (.quiet b) (start mem) M) :
    (∀ t p code, M.stage t = .within (.free p) code → QuietNext b code M.world →
    (code = .fail .assertion ∧ Cacheless M.world t p) ∨
        sec sections (fun code' w' => ∀ why, code' = .fail why → Cacheless w' t p) code [] M.world
        (fun o h _ => h = [] ∧ o = .freed)
          (fun _ _ => False)) ∧
      ∀ t p size, M.stage t = .outside → (p,size) ∈ M.live →
        (∀ d, Turns ((Call.free p).code b t,M.world) d → QuietNext b d.1 d.2) →
        (wp sections ((Call.free p).code b t) [] M.world (fun o h w' => h = [] ∧ o = .freed ∧
          RestsFor w' t p (SizeClass.roundUp b.midAlignShift size) ∧
          ∀ q size', (q,size') ∈ M.live.erase (p,size) → ∀ u,
          ¬ RestsFor w' u q (SizeClass.roundUp b.midAlignShift size')) (fun _ _ => False) ↔
          maxBytes < size ∨ M.world.tlsThreadCache t ≠ 0) := by
  obtain ⟨g,l,agrees⟩ := reached.agrees (fair_quiet b)
  refine ⟨fun t p code running quiet => agrees.frees_on running quiet,
    fun t p size outside mem quiet => ⟨agrees.frees_needs outside mem,fun served => ?_⟩⟩
  exact agrees.frees (P := fun o w' => o = .freed ∧ _) outside mem served quiet
    (fun w' rests others => ⟨rfl,rests,others⟩)

/-! ### Short spans -/

section
variable {b : Build} {mem : Memory} {M : Program} {t p size : Nat}

/-- Where no block has more than 128 pages every release is quiet. -/
theorem Reaches.quietly (reached : Reaches b (.upTo spanBytes) (start mem) M) : Reaches b (.quiet b) (start mem) M := by
  induction reached with
  | refl => exact .refl
  | @tail M M' before step ih =>
    have fair := fair_upTo b (le_refl spanBytes)
    obtain ⟨g,l,agrees⟩ := Reaches.agrees before fair
    refine .tail ih ?_
    cases step with
    | write inside => exact .write inside
    | act act =>
      refine .act ?_
      cases act with
      | alloc outside sized may => exact .alloc outside sized trivial
      | free outside live may => exact .free outside live trivial
      | turn running may run => exact .turn running (agrees.quiet fair trivial) run
      | allocated ended => exact .allocated ended
      | freed ended => exact .freed ended

theorem Reaches.turns_quiet (reached : Reaches b (.upTo spanBytes) (start mem) M)
    (outside : M.stage t = .outside) (live : (p,size) ∈ M.live)
    (d : Code World Outcome × World) (turns : Turns ((Call.free p).code b t,M.world) d) : QuietNext b d.1 d.2 := by
  have fair := fair_upTo b (le_refl spanBytes)
  have begun : Act b (.upTo spanBytes) M { M.goOn t (.free p) ((Call.free p).code b t,M.world) with
    live := M.live.erase (p,size) } :=
    .free outside live trivial
  have acts := turns.acts (b := b) (u := .upTo spanBytes) { M with live := M.live.erase (p,size) } t (.free p)
    (fun _ _ => trivial)
  obtain ⟨g,l,agrees⟩ := Reaches.agrees ((reached.tail (.act begun)).trans
    (Relation.ReflTransGen.mono (fun _ _ (step : _ ∧ _) => Step.act step.1) _ _ acts)) fair
  exact agrees.quiet fair (p := d.1) trivial

end

/-- Thread 2, which has a thread cache, frees the block of thread 1. -/
theorem frees_served_first : wp sections ((Call.free (2 ^ 31)).code .standard 2) [] served.world
    (fun o h w' => h = [] ∧ o = .freed ∧
    RestsFor w' 2 (2 ^ 31) (SizeClass.roundUp Build.standard.midAlignShift 262144) ∧
    ∀ q size', (q,size') ∈ served.live.erase (2 ^ 31,262144) →
      ∀ u, ¬ RestsFor w' u q (SizeClass.roundUp Build.standard.midAlignShift size')) (fun _ _ => False) := by
  have reached := served_reached (show 262144 ≤ spanBytes by decide)
  have outside : served.stage 2 = .outside := Stage.of_idle (by decide +kernel)
  have live : (2 ^ 31,262144) ∈ served.live := by rw [served_live]; exact List.mem_cons_of_mem _ (List.mem_singleton_self _)
  exact ((frees_served .standard reached.quietly).2 2 (2 ^ 31) 262144 outside live
    (reached.turns_quiet outside live)).mpr (.inr (by decide +kernel))

/-- Thread 2, which has no thread cache, frees the first block of thread 1. -/
def otherFree : List Cue := firstCall ++ [.call 2 (.free (2 ^ 31)),.turn 2 [],.turn 2 [],.turn 2 [],.turn 2 [],.turn 2 []]
/-- Thread 1 gets a block of 129 pages. -/
def longBlock : List Cue := [.call 1 (.alloc 1056768),.turn 1 [some (2 ^ 31),some (2 ^ 32),some (2 ^ 33),some (2 ^ 34)],
    .turn 1 [],.finish 1]
/-- It frees the block. -/
def longFree : List Cue := [.call 1 (.free (2 ^ 31)),.turn 1 [],.turn 1 [],.turn 1 [],.turn 1 [],.turn 1 [],.finish 1]

theorem plays_later {b : Build} (cues : List Cue) {later : List Cue} {M N N' : Program} (first : plays b cues M = some N)
    (whole : plays b (cues ++ later) M = some N') : plays b later N = some N' := by
  induction cues generalizing M with
  | nil => cases first; exact whole
  | cons cue cues ih =>
    rw [plays] at first
    rw [List.cons_append,plays] at whole
    cases next : cue.play b M with
    | none => rw [next] at first; cases first
    | some M' => rw [next] at first whole; exact ih first whole

def after (cues : List Cue) : Program := (plays .standard cues (start fun _ => 0)).getD (start fun _ => 0)

/-- The free of a live block by a thread without a thread cache fails an assertion, and
    the memory of a block of 129 pages ends up on no list and in no free span. -/
theorem frees_not_served :
    (Reaches .standard (.upTo 262144) (start fun _ => 0) (after otherFree) ∧ ∃ why, (after otherFree).stage 2 = .within
    (.free (2 ^ 31)) (.fail why)) ∧
      Reaches .standard (.upTo 1056768) (start fun _ => 0) (after longBlock) ∧ (after longBlock).live = [(2 ^ 31,1056768)] ∧
      Reaches .standard (.upTo 1056768) (after longBlock) (after (longBlock ++ longFree)) ∧
      (after (longBlock ++ longFree)).stage 1 = .outside ∧ (after (longBlock ++ longFree)).live = [] ∧
      ¬ OnOwnList (after (longBlock ++ longFree)).world 1 (2 ^ 31) ∧
      ¬ OnSpanList (after (longBlock ++ longFree)).world (2 ^ 31) ∧
      ∀ T, ¬ (after (longBlock ++ longFree)).world.pages.FreeSpan T := by
  have none : (after (longBlock ++ longFree)).world.pages.spanPool.live = [] := by decide +kernel
  refine ⟨⟨plays_reaches otherFree (by simp [otherFree,firstCall,Cue.May,Usage.upTo]) (fun _ _ => trivial)
      (plays_getD (by decide +kernel) _),Stage.of_failedFree (by decide +kernel)⟩,
    plays_reaches longBlock (by simp [longBlock,Cue.May,Usage.upTo]) (fun _ _ => trivial) (plays_getD (by decide +kernel) _),
    by decide +kernel,plays_reaches longFree (by simp [longFree,Cue.May,Usage.upTo]) (fun _ _ => trivial) ?_,
    Stage.of_idle (by decide +kernel),
    by decide +kernel,fun own => own.1 (by decide +kernel),fun listed => ?_,fun T free => ?_⟩
  · exact plays_later longBlock (plays_getD (by decide +kernel) _) (plays_getD (by decide +kernel) _)
  · obtain ⟨_,S,_,_,inUse,_⟩ := listed
    have here := inUse.1.1
    rw [none] at here; exact List.not_mem_nil here
  · have here := free.1
    rw [none] at here; exact List.not_mem_nil here

end Program
end World
end TcAlloc
