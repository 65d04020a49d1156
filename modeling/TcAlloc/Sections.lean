import TcAlloc.Carving

/-!
The sections of `ConcurrentAlloc`. From each point of a call, one section leads to
another point of it, with the books in order and the others' things left alone
(`Goes`), or, where the call has returned, is not there.
-/
namespace TcAlloc
namespace World

/-- Nothing was left behind in the page map, and every span can be merged. -/
def Tidy (l : Ledger) : Prop := l.stale = ∅ ∧ ∀ S s, l.used S = some s → s.n < npages

/-- A call for a block of less than `NPAGES` pages, or one that frees a block. -/
def Call.Modest : Call → Prop
  | .alloc size => size ≤ (npages - 1) * 2 ^ pageShift
  | .free _ => True

/-- If what comes next is a release of a span that can be merged, it is quiet. -/
def QuietNext (b : Build) (p : Code World Outcome) (w : World) : Prop :=
  ∀ S k, p = (releaseSpan b S).bind k → (w.pages.spans S).n < npages → w.pages.Quiet S

/-- The span that the thread is about to release with all its objects. -/
def Point.draining : Point → Option Nat
  | .returns _ _ _ S _ => some S
  | _ => none

/-- The object is on the thread's own list, or on the list of its span in a bucket. -/
def OnLists (g : Stock) (t p : Nat) : Prop :=
  (∃ i, g.place p = .cached (g.cache t) i) ∨ ∃ S i, g.place p = .free S ∧ g.home S = some (.listed i)

/-- The `n` bytes from `p` on lie in a free span. -/
def InFreeSpan (w : Pages) (p n : Nat) : Prop := ∃ T, w.FreeSpan T ∧ ∀ y, p ≤ y → y < p + n →
    y >>> pageShift ∈ (w.spans T).pages

/-- They were of a span too long to be kept, and have been given back to the system. -/
def GivenBack (w : Pages) (p n : Nat) : Prop :=
  npages * 2 ^ pageShift ≤ n ∧ ∀ y, p ≤ y → y < p + n → y >>> pageShift ∉ w.os.obtained

def Vacated (w : Pages) (p n : Nat) : Prop := 0 < n ∧ (InFreeSpan w p n ∨ GivenBack w p n)

/-- What has become of the memory of an object of `n` bytes that thread `t` frees: the
    object is in its hands, on a list, or on that of a span that the thread is about
    to release, or its pages are vacated. -/
def Follows (g : Stock) (w : World) (t : Nat) (pt : Point) (p n : Nat) : Prop :=
  ((g.place p = .transit t ∨ OnLists g t p ∨ ∃ S, pt.draining = some S ∧ g.place p = .free S) ∧ ∃ S, g.Owns S p n) ∨
  Vacated w.pages p n

/-- A section of thread `t` has led from the point `pt` to `pt'`. -/
structure Goes (b : Build) (t : Nat) (live : List (Nat × Nat)) (g : Stock) (l : Ledger) (w : World) (pt : Point)
    (g' : Stock) (l' : Ledger) (w' : World) (pt' : Point) : Prop where
  call : pt'.call = pt.call
  holds : Holds b g' w' t pt'
  books : Books b g' l' w' live
  kept : Kept t g w g' w'
  written : Written (Mine t g') w.mem w'.mem
  tls : w.tlsThreadCache t ≠ 0 → w'.tlsThreadCache t ≠ 0
  tidy : pt.call.Modest → Tidy l → Tidy l'
  follows : ∀ p n, pt.call = .free p → Follows g w t pt p n → Follows g' w' t pt' p n

/-- What is left of the code, and the state, are those of a point that the section leads to. -/
def Leads (b : Build) (t : Nat) (live : List (Nat × Nat)) (g : Stock) (l : Ledger) (w : World) (pt : Point)
    (p' : Code World Outcome) (w' : World) : Prop :=
  ∃ g' l' pt', p' = pt'.code b t ∧ Goes b t live g l w pt g' l' w' pt'

/-- A program that only reads is at a section's end after each read. -/
theorem sec_read {σ L Q A M F β : Type} [DecidableEq L] {R : Rules σ L Q A M} {C : Prog σ L Q A M F β → σ → Prop} {s : σ}
    {post : β → List L → σ → Prop} {thrown : List L → σ → Prop} (f : σ → β) :
    sec R C (Prog.read f) [] s post thrown ↔ R.seen none [] s s ∧ C (.ret (f s)) s := by
  simp [Prog.read,sec]

section
variable {b : Build} {t : Nat} {live : List (Nat × Nat)} {g : Stock} {l : Ledger} {w : World} {size tc : Nat}
  {post : Outcome → List Mutex → World → Prop} {thrown : List Mutex → World → Prop}

/-- A section that changes nothing. -/
theorem Books.still (books : Books b g l w live) {x y : Point} (call : y.call = x.call) (settled : x.draining = none)
    (holds : Holds b g w t y) : Leads b t live g l w x (y.code b t) w :=
  ⟨g,l,y,rfl,call,holds,books,.refl t g w,.refl _ _,id,fun _ => id,fun p n _ follows => follows.imp_left (.imp_left
    (.imp_right (.imp_right (fun ⟨S,here,_⟩ => by rw [settled] at here; cases here))))⟩

/-- A section of `ConcurrentAlloc`, where no object is followed. -/
theorem Goes.leads {k : Stock} {m : Ledger} {v : World} {x y : Point} {n : Nat} (alloc : x.call = .alloc n)
    (call : y.call = .alloc n) (holds : Holds b k v t y) (books : Books b k m v live) (kept : Kept t g w k v)
    (written : Written (Mine t k) w.mem v.mem) (tls : w.tlsThreadCache t ≠ 0 → v.tlsThreadCache t ≠ 0)
    (tidy : n ≤ (npages - 1) * 2 ^ pageShift → Tidy l → Tidy m) : Leads b t live g l w x (y.code b t) v :=
  ⟨k,m,y,rfl,call.trans alloc.symm,holds,books,kept,written,tls,by rw [alloc]; exact tidy,
    fun p n free => by rw [alloc] at free; cases free⟩

theorem Books.ownCache (books : Books b g l w live) (some : w.tlsThreadCache t ≠ 0) : OwnCache g w t (w.tlsThreadCache t) :=
  ⟨rfl,((books.caches.own t).resolve_left some).symm,some⟩

theorem carries_nil (none : ∀ x, g.place x ≠ .transit t) (size : Nat) : Carries g t size [] :=
  ⟨Holding.nil_iff.mpr none,fun _ mem => nomatch mem⟩

/-! ### The thread cache -/

theorem begins_small (books : Books b g l w live) (holds : Holds b g w t (.begins (.alloc size))) (small : size ≤ maxBytes) :
    sec sections (Leads b t live g l w (.begins (.alloc size)))
    ((Point.begins (.alloc size)).code b t) [] w post thrown := by
  obtain ⟨list,s,rfl,carries,_⟩ := holds
  have code : (Point.begins (.alloc size)).code b t = (ownCache b t >>= fun tc => allocate b tc size) >>= Point.block := by
    simp only [Point.code,Call.code,concurrentAlloc,if_neg (show ¬ maxBytes < size by omega)]
    rfl
  rw [code]
  simp only [ownCache,sec_seq]
  refine (sec_read (R := sections) _).mpr ⟨trivial,?_⟩
  by_cases none : w.tlsThreadCache t = 0
  · have next := books.still (t := t) (x := .begins (.alloc size)) (y := .makesCache size) rfl rfl
      ⟨[],s,rfl,carries,small,none⟩
    simp only [Prog.bind,if_pos none]
    exact next
  · have next := books.still (t := t) (x := .begins (.alloc size)) (y := .pops size (w.tlsThreadCache t)) rfl rfl
      ⟨[],s,rfl,carries,small,books.ownCache none⟩
    simp only [Prog.bind,if_neg none]
    exact next

theorem makesCache_sec (books : Books b g l w live) (holds : Holds b g w t (.makesCache size)) :
    sec sections (Leads b t live g l w (.makesCache size)) ((Point.makesCache size).code b t) [] w post thrown := by
  obtain ⟨list,s,rfl,carries,small,none⟩ := holds
  simp only [Point.code,newThreadCache,sec_seq]
  refine newCache_sec books (fun tc pool os valid system grown fresh some made => ?_)
  obtain ⟨books',kept⟩ := books.newCache none valid system grown fresh made
  refine Goes.leads (y := .constructs size tc) (n := size) rfl rfl
    ⟨[],s,rfl,?_,small,Function.update_self ..,some,?_⟩ books' kept
    (.refl _ _) id (fun _ tidy => tidy)
  · exact carries_nil (g := { g with cache := Function.update g.cache t tc }) (Holding.nil_iff.mp carries.holding) s
  · exact books.caches.unborn tc fresh

theorem constructs_sec (books : Books b g l w live) (holds : Holds b g w t (.constructs size tc)) :
    sec sections (Leads b t live g l w (.constructs size tc)) ((Point.constructs size tc).code b t) [] w post thrown := by
  obtain ⟨list,s,rfl,carries,small,cache,some,fresh⟩ := holds
  simp only [Point.code,sec_seq]
  refine (sec_act (R := sections) _ _).mpr ⟨trivial,?_⟩
  -- The lists of a thread cache that was not in use are empty as they are.
  have same : ({ w with freeLists := Function.update w.freeLists tc (fun _ => {}) } : World) = w := by
    rw [← fresh,Function.update_eq_self]
  rw [same]
  exact books.still (y := .storesCache size tc) rfl rfl ⟨[],s,rfl,carries,small,cache,some⟩

theorem storesCache_sec (books : Books b g l w live) (holds : Holds b g w t (.storesCache size tc)) :
    sec sections (Leads b t live g l w (.storesCache size tc)) ((Point.storesCache size tc).code b t) [] w post thrown := by
  obtain ⟨list,s,rfl,carries,small,cache,some⟩ := holds
  simp only [Point.code,sec_seq]
  refine (sec_act (R := sections) _ _).mpr ⟨trivial,?_⟩
  obtain ⟨books',kept⟩ := books.storeCache cache
  refine Goes.leads (y := .pops size tc) (n := size) rfl rfl
    ⟨[],s,rfl,carries,small,Function.update_self ..,cache,some⟩ books' kept
    (.refl _ _) (fun _ => ?_) (fun _ tidy => tidy)
  dsimp only
  rw [Function.update_self]; exact some

/-! ### The list of the thread -/

/-- What is at one place is not more than there are addresses. -/
theorem Books.length_lt (books : Books b g l w live) {p : Place} {objs : List Nat} (holding : Holding g.place p objs)
    (somewhere : p ≠ .nowhere) : objs.length < 2 ^ 64 := by
  have short := length_le_of_lt (n := 2 ^ 48) holding.nodup (fun x mem => by
    have here := holding.at_place mem
    obtain ⟨S,h,home,inS,_⟩ := books.stock.placed x (by rw [here]; exact somewhere)
    exact (books.object_bounds (by rw [home]; simp) inS).2.1)
  omega

theorem Carries.single {x : Nat} {place' : Nat → Place} (none : ∀ x, g.place x ≠ .transit t)
    (same : place' = moved g.place [x] (.transit t)) :
    Holding place' (.transit t) [x] := by
  rw [same]
  exact (Holding.nil_iff.mpr none).arrive_all (List.nodup_singleton x)

theorem pops_sec (books : Books b g l w live) (holds : Holds b g w t (.pops size tc)) :
    sec sections (Leads b t live g l w (.pops size tc)) ((Point.pops size tc).code b t) [] w post thrown := by
  obtain ⟨list,s,rfl,carries,small,own⟩ := holds
  have inside := SizeClass.index_lt b.coarse small
  have size_eq := SizeClass.roundUp_eq_classSize b.coarse small
  set i := SizeClass.index b.midAlignShift size with hi
  simp only [Point.code,allocate,sec_seq,sec_require]
  refine ⟨small,?_⟩
  rw [← hi]
  obtain ⟨objs,listed⟩ := books.shelved (.cached tc i)
  by_cases empty : (w.freeLists tc i).head = 0
  · refine (sec_step_ok (R := sections) (b := none) (u := w) ?_).mpr ⟨trivial,?_⟩
    · simp only [popIfAny,if_pos empty,withList_self]
    · exact books.still (y := .counts size tc) rfl rfl ⟨[],s,rfl,carries,small,own⟩
  · obtain ⟨rest,rfl,tail⟩ := listed.shelf.chain.of_ne_zero empty
    set obj := (w.freeLists tc i).head with hobj
    have here := listed.shelf.holding.at_place (List.mem_cons_self (a := obj) (l := rest))
    have bound := books.length_lt listed.shelf.holding (by simp)
    set f : FreeList := { w.freeLists tc i with
      head := w.mem.load obj
      size := minus (w.freeLists tc i).size 1 } with hf
    refine (sec_step_ok (R := sections) (b := some obj) (u := w.withList tc i w.mem f) ?_).mpr ⟨trivial,?_⟩
    · simp only [popIfAny,← hobj,if_neg empty,FreeList.pop,Except.map]
      rfl
    have stock := books.stock.withdraw (A := [obj]) t (fun x mem => ⟨tc,i,by rw [List.mem_singleton.mp mem]; exact here⟩)
    have shelf : Shelf w.mem (g.move [obj] (.transit t)).place (.cached tc i) (w.mem.load obj) rest :=
      ⟨listed.shelf.holding.leave (A := [obj]) (by simp),tail⟩
    obtain ⟨books',kept,written⟩ := books.onList (A := [obj]) (q := .transit t) (m := w.mem) (f := f) (B := rest)
      (i := i) own.tls own.cache own.made
      stock (fun x mem => by rw [List.mem_singleton.mp mem]; exact .inr here) (.inl rfl) (.refl _ _) (by
        have new : (w.withList tc i w.mem f).freeLists tc i = f := by simp [withList]
        refine ⟨by rw [new]; exact shelf,?_,by rw [new]; exact listed.low,by rw [new]; exact listed.high⟩
        rw [new,hf,listed.size,minus_pred (by simp) bound]
        rfl)
    obtain ⟨S,h,home,inS,suits⟩ := books.stock.placed obj (by rw [here]; simp)
    rw [here] at suits
    have at_home : g.home S = Option.some (.listed i) := by rw [home]; exact congrArg Option.some suits
    obtain ⟨_,objSize,_⟩ := books.stock.classed S i at_home
    refine Goes.leads (y := .allocated size obj) (n := size) rfl rfl ⟨[obj],SizeClass.roundUp b.midAlignShift size,rfl,
      ⟨Carries.single (Holding.nil_iff.mp carries.holding) rfl,fun x mem => ?_⟩,rfl,fun _ => ?_⟩ books' kept written id
      (fun _ tidy => tidy)
    · rw [List.mem_singleton.mp mem]
      exact ⟨S,⟨by rw [show (g.move [obj] (.transit t)).home S = g.home S from rfl,home]; simp,inS,
        by rw [size_eq]; exact objSize⟩⟩
    · exact own.tls ▸ own.made

/-- `FetchFromCentralCache` chooses how many objects to ask for. -/
theorem counts_sec (books : Books b g l w live) (holds : Holds b g w t (.counts size tc)) :
    sec sections (Leads b t live g l w (.counts size tc)) ((Point.counts size tc).code b t) [] w post thrown := by
  obtain ⟨list,s,rfl,carries,small,own⟩ := holds
  set i := SizeClass.index b.midAlignShift size with hi
  set batchNum := min (SizeClass.numMoveSize (SizeClass.roundUp b.midAlignShift size)) (w.freeLists tc i).maxSize with hb
  set f : FreeList := if batchNum = (w.freeLists tc i).maxSize then
    { w.freeLists tc i with maxSize := (w.freeLists tc i).maxSize + 1 } else w.freeLists tc i with hf
  obtain ⟨objs,listed⟩ := books.shelved (.cached tc i)
  have asked := SizeClass.numMoveSize_bounds (SizeClass.roundUp b.midAlignShift size)
  have low := listed.low
  have high := listed.high
  have fields : f.head = (w.freeLists tc i).head ∧ f.size = (w.freeLists tc i).size ∧ 1 ≤ f.maxSize ∧ f.maxSize ≤ 513 := by
    rw [hf]
    split_ifs with all
    · exact ⟨rfl,rfl,by dsimp only; omega,by dsimp only; omega⟩
    · exact ⟨rfl,rfl,low,high⟩
  have same : g.move [] (.transit t) = g := by simp [Stock.move]
  have new : (w.withList tc i w.mem f).freeLists tc i = f := by simp [withList]
  obtain ⟨books',kept,written⟩ := books.onList (A := []) (q := .transit t) (m := w.mem) (f := f) (B := objs)
    (i := i) own.tls own.cache own.made
    (by rw [same]; exact books.stock) (by simp) (.inl rfl) (.refl _ _) (by
      rw [same]
      exact ⟨by rw [new,fields.1]; exact listed.shelf,by rw [new,fields.2.1]; exact listed.size,
        by rw [new]; exact fields.2.2.1,
        by rw [new]; exact fields.2.2.2⟩)
  rw [same] at books' kept written
  simp only [Point.code,fetchFromCentralCache,sec_seq,sec_require]
  refine ⟨SizeClass.index_lt b.coarse small,(SizeClass.le_roundUp b.coarse small).2,?_⟩
  refine (sec_step_ok (R := sections) (b := batchNum) (u := w.withList tc i w.mem f) rfl).mpr ⟨trivial,?_⟩
  exact Goes.leads (y := .fetches size tc batchNum) (n := size) rfl rfl
    ⟨[],s,rfl,carries,small,⟨own.tls,own.cache,own.made⟩,by omega,by omega⟩ books' kept written id (fun _ tidy => tidy)

/-! ### A batch from a span -/

/-- Thread `t` has worked on the state within its rights. -/
structure Works (b : Build) (t : Nat) (live : List (Nat × Nat)) (g : Stock) (l : Ledger)
    (w : World) (g' : Stock) (l' : Ledger)
    (w' : World) : Prop where
  books : Books b g' l' w' live
  kept : Kept t g w g' w'
  written : Written (Mine t g') w.mem w'.mem
  tidy : Tidy l → Tidy l'

theorem Tidy.mono {l' : Ledger} (tidy : Tidy l) (stale : l'.stale = l.stale)
    (used : ∀ T s', l'.used T = some s' → ∃ s, l.used T = some s ∧ s'.extent = s.extent) : Tidy l' := by
  refine ⟨stale.trans tidy.1,fun T s' taken => ?_⟩
  obtain ⟨s,old,same⟩ := used T s' taken
  rw [show s'.n = s.n from congrArg Extent.n same]
  exact tidy.2 T s old

/-- The world with the objects up to `last` cut off the list of the span `S`. -/
def cutOff (w : World) (S last n : Nat) (lists : Nat → List Nat) : World :=
  { w with
    pages := w.pages.write S (fun s => { s with
      freeList := w.mem.load last
      useCount := s.useCount + n })
    mem := w.mem.store last 0
    spanLists := lists }

/-- The end of `FetchRangeObj`, on a span of the class whose list has objects. The
    span may be about to join its bucket. -/
theorem takeBatch_sec {C : Code World (Nat × Nat × Nat) → World → Prop} {S i batchNum : Nat} {h : Home} {free : List Nat}
    {L : Nat → List Nat} {post : Nat × Nat × Nat → List Mutex → World → Prop} (books : Books b g l w live)
    (home : g.home S = some h) (before : h = .held t ∨ h = .listed i)
    (stock : (g.rehome S (.listed i)).Valid b live) (idle : ∀ x, g.place x ≠ .transit t)
    (shelf : Shelf w.mem g.place (.free S) (w.pages.spans S).freeList free)
    (count : (w.pages.spans S).useCount + free.length = (g.extent S).count) (stocked : free ≠ [])
    (buckets : ∀ j T, T ∈ L j ↔ (g.rehome S (.listed i)).home T = some (.listed j)) (once : ∀ j, (L j).Nodup)
    (ends : ∀ A last B l', free = A ++ last :: B → A.length = min (minus batchNum 1) (free.length - 1) →
      Works b t live g l w ((g.move (A ++ [last]) (.transit t)).rehome S (.listed i)) l' (w.cutOff S last (1 + A.length) L) →
      Carries ((g.move (A ++ [last]) (.transit t)).rehome S (.listed i)) t (g.extent S).objSize (A ++ [last]) →
      Chain (w.cutOff S last (1 + A.length) L).mem (w.pages.spans S).freeList (A ++ [last]) →
      C (.ret ((w.pages.spans S).freeList,last,1 + A.length)) (w.cutOff S last (1 + A.length) L)) :
    sec sections C (takeBatch i batchNum S) [.bucket i] { w with spanLists := L } post thrown := by
  have used : g.home S ≠ none := by rw [home]; simp
  obtain ⟨s,taken,_,_⟩ := books.span used
  have nonzero : S ≠ 0 := books.settled.live_ne_zero (books.settled.used S s taken).1.1
  have head : (w.pages.spans S).freeList ≠ 0 := fun zero => stocked (shelf.chain.head_eq_zero.mp zero)
  simp only [takeBatch,sec_seq,sec_require]
  refine ⟨nonzero,sec_inside (by simp) (cutBatch_wp (w := { w with spanLists := L }) (by simp) shelf.chain head
    (fun A last B split short => ?_))⟩
  refine (sec_release (R := sections) _).mpr ⟨trivial,?_⟩
  have here : ∀ x ∈ A ++ [last], g.place x = .free S := fun x mem => shelf.holding.at_place
    (by rw [split]; simp at mem ⊢; tauto)
  have inS : ∀ x ∈ A ++ [last], x ∈ (g.extent S).objects := fun x mem => (books.stock.free_mem (here x mem)).2
  have valid : ((g.move (A ++ [last]) (.transit t)).rehome S (.listed i)).Valid b live := by
    refine stock.move (A := A ++ [last]) (q := .transit t) nofun (fun x mem => ?_) (fun x mem => ?_)
    · rw [show (g.rehome S (.listed i)).place x = g.place x from rfl,here x mem]; simp
    · exact ⟨S,.listed i,Function.update_self ..,inS x mem,fun u => nofun⟩
  have apart : Spread (A ++ last :: B) := books.stock.spread (fun x mem => by
    rw [shelf.holding.at_place (by rw [split]; exact mem)]; simp)
  have nodup : (A ++ last :: B).Nodup := by rw [← split]; exact shelf.holding.nodup
  obtain ⟨first,rest⟩ := (show Chain w.mem _ (A ++ last :: B) by rw [← split]; exact shelf.chain).cut nodup apart
  have whole : free = (A ++ [last]) ++ B := by rw [split]; simp
  have moved_last : moved g.place (A ++ [last]) (.transit t) last = .transit t := moved_of_mem (by simp)
  obtain ⟨l',books',kept,written,stale,extents⟩ := books.onSpan (A := A ++ [last]) (q := .transit t) (h := .listed i)
    (m := w.mem.store last 0) (L := L)
    (f := fun s => { s with
      freeList := w.mem.load last
      useCount := s.useCount + (1 + A.length) }) home
    (by rcases before with rfl | rfl; exacts [.inl rfl,.inr ⟨i,rfl⟩]) (.inr ⟨i,rfl⟩) valid
    (fun x mem => .inr (.inr (here x mem)))
    (.inl rfl) (fun _ => ⟨rfl,rfl⟩) (Written.store 0 (.inl moved_last)) buckets once (fun j same => by
      cases same
      refine ⟨B,⟨?_,?_⟩,?_,?_⟩
      · exact Holding.leave (by rw [← whole]; exact shelf.holding) nofun
      · simp only [Pages.write_self]; exact rest
      · simp only [Pages.write_self]
        rw [split,List.length_append,List.length_cons] at count
        rw [show (g.move (A ++ [last]) (.transit t)).rehome S (.listed i) = (g.rehome S (.listed i)).move
          (A ++ [last]) (.transit t) from rfl]
        show (w.pages.spans S).useCount + (1 + A.length) + B.length = (g.extent S).count
        omega
      · simp only [Pages.write_self]
        show 0 < (w.pages.spans S).useCount + (1 + A.length)
        omega)
  refine ends A last B l' split short ⟨books',kept,written,fun tidy => tidy.mono stale extents⟩
    ⟨?_,fun x mem => ⟨S,?_⟩⟩ first
  · exact (Holding.nil_iff.mpr idle).arrive_all
      (List.nodup_append.mpr ⟨(List.nodup_append.mp nodup).1,List.nodup_singleton _,fun x inA y mem same => by
      rw [List.mem_singleton.mp mem] at same
      exact (List.nodup_append.mp nodup).2.2 x inA last (by simp) same⟩)
  · have joined : ((g.move (A ++ [last]) (.transit t)).rehome S (.listed i)).home S = some (.listed i) := Function.update_self ..
    exact ⟨by rw [joined]; simp,
      inS x mem,rfl⟩

/-- With its batch in its hands the thread keeps the first object and lists the others. -/
theorem Works.keeps {g' : Stock} {l' : Ledger} {w' : World} {x : Point} {A : List Nat} {start last : Nat}
    (call : x.call = .alloc size)
    (works : Works b t live g l w g' l' w') (small : size ≤ maxBytes) (own : OwnCache g' w' t tc)
    (carries : Carries g' t (SizeClass.roundUp b.midAlignShift size) (A ++ [last]))
    (chain : Chain w'.mem start (A ++ [last])) :
    Leads b t live g l w x ((keepBatch tc (SizeClass.index b.midAlignShift size) (start,last,1 + A.length)) >>=
    Point.block) w' := by
  cases A with
  | nil =>
    obtain ⟨rfl,nonzero,_⟩ := Chain.cons_iff.mp chain
    have code : (keepBatch tc (SizeClass.index b.midAlignShift size) (start,start,1 + ([] : List Nat).length) : Code
      World Nat) = .ret start := by
      simp [keepBatch,Prog.require,nonzero,Prog.bind_def,Prog.bind,Prog.pure_def]
    rw [code]
    exact Goes.leads (y := .allocated size start) call rfl ⟨[start],_,rfl,carries,rfl,fun _ => own.tls ▸ own.made⟩
      works.books works.kept
      works.written (fun _ => own.tls ▸ own.made) (fun _ => works.tidy)
  | cons x A =>
    exact Goes.leads (y := .keeps size tc start last (1 + (x :: A).length)) call rfl
      ⟨_,_,chain,carries,small,own,rfl,by simp; omega,by simp,_,rfl⟩
      works.books works.kept works.written (fun _ => own.tls ▸ own.made) (fun _ => works.tidy)

/-- `FetchRangeObj` cuts its batch off the list of a listed span, or lets go of the
    mutex to get a new one. -/
theorem fetchRangeObj_sec {C : Code World (Nat × Nat × Nat) → World → Prop} {i batchNum : Nat}
    {post : Nat × Nat × Nat → List Mutex → World → Prop}
    (books : Books b g l w live) (low : 1 ≤ batchNum) (small : size ≤ maxBytes)
    (index : SizeClass.index b.midAlignShift size = i)
    (idle : ∀ x, g.place x ≠ .transit t)
    (more : C ((takeSpan b (SizeClass.numMovePage size) size >>= carveSpan i size) >>= takeBatch i batchNum) w)
    (ends : ∀ S free A last B l', g.home S = some (.listed i) → Counted g w S free → free = A ++ last :: B →
      A.length = min (minus batchNum 1) (free.length - 1) →
      Works b t live g l w (g.move (A ++ [last]) (.transit t)) l' (w.cutOff S last (1 + A.length) w.spanLists) →
      Carries (g.move (A ++ [last]) (.transit t)) t (g.extent S).objSize (A ++ [last]) →
      Chain (w.cutOff S last (1 + A.length) w.spanLists).mem (w.pages.spans S).freeList (A ++ [last]) →
      C (.ret ((w.pages.spans S).freeList,last,1 + A.length)) (w.cutOff S last (1 + A.length) w.spanLists)) :
    sec sections C (fetchRangeObj b batchNum size) [] w post thrown := by
  simp only [fetchRangeObj,getOneSpan,sec_seq,sec_require,sec_acquire]
  rw [index]
  refine ⟨low,small,by simp,trivial,?_⟩
  refine sec_inside (by simp) ((wp_read _).mpr
    ⟨by simp [inside],sec_inside (by simp) (firstFree_wp (by simp) (fun found listed => ?_))⟩)
  cases found with
  | none =>
    simp only [addSpan,sec_seq]
    exact (sec_release (R := sections) _).mpr ⟨trivial,more⟩
  | some S =>
    obtain ⟨mem,stocked⟩ := listed S rfl
    have home := (books.buckets i S).mp mem
    obtain ⟨free,counted⟩ := books.shelved (.free S) i home
    have same := Stock.rehome_self home
    apply (sec_pure (R := sections) S).mpr
    apply takeBatch_sec (L := w.spanLists) books home (.inr rfl) (by rw [same]; exact books.stock)
      idle counted.shelf counted.count
      (fun empty => stocked (counted.shelf.chain.head_eq_zero.mpr empty))
      (fun j T => by rw [same]; exact books.buckets j T) books.once
    intro A last B l' split short works carries chain
    have moved : (g.move (A ++ [last]) (.transit t)).rehome S (.listed i) = g.move (A ++ [last])
      (.transit t) := Stock.rehome_self home
    rw [moved] at works carries
    exact ends S free A last B l' home counted split short works carries chain

theorem fetches_sec {batchNum : Nat} (books : Books b g l w live) (holds : Holds b g w t (.fetches size tc batchNum)) :
    sec sections (Leads b t live g l w (.fetches size tc batchNum))
    ((Point.fetches size tc batchNum).code b t) [] w post thrown := by
  obtain ⟨list,s,rfl,carries,small,own,low,high⟩ := holds
  have idle := Holding.nil_iff.mp carries.holding
  simp only [Point.code,sec_seq]
  apply fetchRangeObj_sec books low (SizeClass.le_roundUp b.coarse small).2 rfl idle
  · exact books.still (y := .takes size tc batchNum) rfl rfl ⟨[],s,rfl,carries,small,own,low,high⟩
  · intro S free A last B l' home _ _ _ works carries' chain
    obtain ⟨_,objSize,_⟩ := books.stock.classed S _ home
    rw [objSize,← SizeClass.roundUp_eq_classSize b.coarse (SizeClass.le_roundUp b.coarse small).2,
      SizeClass.roundUp_roundUp b.coarse small] at carries'
    exact works.keeps (x := .fetches size tc batchNum) rfl small ⟨own.tls,own.cache,own.made⟩ carries' chain

/-- Every size that is rounded is that of a class. -/
theorem isClass_roundUp (b : Build) (small : size ≤ maxBytes) : IsClass b (SizeClass.roundUp b.midAlignShift size) :=
  ⟨_,SizeClass.index_lt b.coarse small,SizeClass.roundUp_eq_classSize b.coarse small⟩

theorem IsClass.bounds (class_ : IsClass b size) : 8 ≤ size ∧ 8 ∣ size ∧ size ≤ maxBytes := by
  obtain ⟨i,inside,rfl⟩ := class_
  obtain ⟨aligned,word⟩ := SizeClass.classSize_aligned b.fine i
  exact ⟨word,aligned,SizeClass.classSize_le b.coarse inside⟩

/-- The span that a thread takes from the page cache is big enough for its objects. -/
theorem class_sound {s : Span} (class_ : IsClass b size) (objSize : s.objSize = size)
    (n : s.n = SizeClass.numMovePage size) : s.extent.Sound := by
  obtain ⟨word,aligned,small⟩ := class_.bounds
  have pages := SizeClass.numMovePage_spec size (by omega) small
  rw [← objSize] at word aligned
  rw [← n,← objSize] at pages
  exact ⟨word,aligned,pages.2.2⟩

/-- The stock with a span that thread `t` has taken, of which no object is carved yet. -/
def taking (g : Stock) (t S : Nat) (s : Span) : Stock := g.add S s.extent (.held t) [] (.transit t)

/-- The span that `GetOneSpan` takes. -/
theorem newSpan_sec {C : Code World Nat → World → Prop} {post : Nat → List Mutex → World → Prop} (books : Books b g l w live)
    (class_ : IsClass b size)
    (ends : ∀ S s pages, l.used S = none → Books b (taking g t S s) (l.take S s) { w with pages := pages } live →
      Kept t g w (taking g t S s) { w with pages := pages } → (Tidy l → Tidy (l.take S s)) →
      HoldsSpan (taking g t S s) { w with pages := pages } t S size →
      (∀ x ∈ ((taking g t S s).extent S).objects, (taking g t S s).place x = .nowhere) → Pages.Drawn w.pages S pages →
      C (.ret S) { w with pages := pages }) :
    sec sections C (takeSpan b (SizeClass.numMovePage size) size) [] w post thrown := by
  obtain ⟨word,_,small⟩ := class_.bounds
  have few := SizeClass.numMovePage_spec size (by omega) small
  have bound : npages = 129 := rfl
  apply takeSpan_sec books.settled (by omega)
  intro S s pages unused settled persists n objSize useCount drawn
  obtain ⟨books',kept⟩ := books.taken (t := t) (h := .held t) (A := []) unused settled persists
    (class_sound class_ objSize n) (.inl ⟨rfl,rfl⟩)
  obtain ⟨closed,facts⟩ := settled.used S s (Ledger.take_self ..)
  have home : (taking g t S s).home S = some (.held t) := Function.update_self ..
  have extent : (taking g t S s).extent S = s.extent := Function.update_self ..
  have place : (taking g t S s).place = g.place := moved_nil (q := .transit t)
  refine ends S s pages unused books' kept (fun tidy => ⟨tidy.1,fun T u taken => ?_⟩)
    ⟨home,by rw [extent]; exact objSize,by rw [extent]; exact n,(congrArg Span.useCount facts.same).trans useCount⟩
    (fun x mem => ?_)
    (drawn (by omega))
  · by_cases same : T = S
    · subst same
      rw [Ledger.take_self] at taken; cases taken
      omega
    · rw [Ledger.take_other l _ same] at taken; exact tidy.2 T u taken
  · by_contra somewhere
    have suits : Suits S (.held t) ((taking g t S s).place x) := books'.stock.suits home mem somewhere
    rw [place] at suits somewhere
    cases here : g.place x with
    | nowhere => exact somewhere here
    | free T =>
      rw [here] at suits
      have used := (books.stock.free_mem here).1
      rw [suits.1] at used
      exact used ((books.used S).mp unused)
    | cached tc i => rw [here] at suits; cases suits
    | transit u => rw [here] at suits; exact suits t rfl
    | live => rw [here] at suits; exact suits t rfl

theorem carveSpan_some {S i : Nat} (nonzero : S ≠ 0) : (carveSpan i size S : Code World Nat) = (carve size S >>=
    fun _ => linkSpan i S) := by
  rw [carveSpan,Prog.require,if_pos nonzero]
  rfl

theorem takes_sec {batchNum : Nat} (books : Books b g l w live) (holds : Holds b g w t (.takes size tc batchNum)) :
    sec sections (Leads b t live g l w (.takes size tc batchNum))
    ((Point.takes size tc batchNum).code b t) [] w post thrown := by
  obtain ⟨list,s,rfl,carries,small,own,low,high⟩ := holds
  have idle := Holding.nil_iff.mp carries.holding
  simp only [Point.code,Point.fetching,sec_seq]
  apply newSpan_sec (t := t) books (isClass_roundUp b small)
  intro S s' pages unused books' kept tidy span empty _
  have nonzero := books'.settled.live_ne_zero (books'.settled.used S s' (Ledger.take_self ..)).1.1
  have place : (taking g t S s').place = g.place := moved_nil (q := .transit t)
  have leads := Goes.leads (k := taking g t S s') (v := { w with pages := pages }) (x := .takes size tc batchNum)
    (y := .carves size tc batchNum S) (n := size) rfl rfl
    ⟨[],s,rfl,carries_nil (by rw [place]; exact idle) s,small,⟨own.tls,own.cache,own.made⟩,⟨low,high⟩,span,
    empty⟩ books' kept (.refl _ _) id
    (fun _ => tidy)
  simp only [Prog.bind]
  rw [carveSpan_some nonzero]
  exact leads

/-- The objects of a new span are carved, and on its list in the order of their addresses. -/
theorem carve_sec {C : Code World Unit → World → Prop} {post : Unit → List Mutex → World → Prop} {S : Nat}
    (books : Books b g l w live)
    (span : HoldsSpan g w t S size) (empty : ∀ x ∈ (g.extent S).objects, g.place x = .nowhere)
    (ends : ∀ m l', Works b t live g l w (g.move (g.extent S).objects (.free S)) l' (w.withCarved S m) →
      HoldsSpan (g.move (g.extent S).objects (.free S)) (w.withCarved S m) t S size →
      Shelf (w.withCarved S m).mem (g.move (g.extent S).objects (.free S)).place (.free S)
      ((w.withCarved S m).pages.spans S).freeList
        (g.extent S).objects → C (.ret ()) (w.withCarved S m)) :
    sec sections C (carve size S) [] w post thrown := by
  have used : g.home S ≠ none := by rw [span.home]; simp
  obtain ⟨s',taken,same,extent⟩ := books.span used
  have sound := books.stock.sound S used
  have extent_eq : Extent.mk (w.pages.spans S).pageId (w.pages.spans S).n size = g.extent S := by
    rw [← span.objSize,extent,same]; rfl
  have pos := (books.settled.used S s' taken).2.pos
  have bound := books.settled.page_bounds (q := s'.pageId) (books.settled.closed_pages (books.settled.used S s' taken).1
    (by rw [same]; exact ⟨le_refl _,by omega⟩))
  have last := books.settled.page_bounds (q := s'.pageId + s'.n - 1)
    (books.settled.closed_pages (books.settled.used S s' taken).1
    (by rw [same]; exact ⟨by omega,by omega⟩))
  have bits : (2 : Nat) ^ Pages.bits = 2 ^ 35 := rfl
  have carved : (Extent.mk (w.pages.spans S).pageId (w.pages.spans S).n size).Sound := by
    rw [extent_eq]; exact sound
  obtain ⟨m,chain,written,result⟩ := carve_links carved (by rw [same]; omega) (by rw [same]; omega)
  rw [extent_eq] at chain written
  refine (sec_step_ok (R := sections) (b := ()) (u := w.withCarved S m) (by simp only [result]; rfl)).mpr ⟨trivial,?_⟩
  have none : ∀ x, g.place x ≠ .free S := fun x here => by
    rw [empty x (books.stock.free_mem here).2] at here; cases here
  set A := (g.extent S).objects with hA
  have rehomed : (g.move A (.free S)).rehome S (.held t) = g.move A (.free S) := Stock.rehome_self span.home
  have stock : (g.move A (.free S)).Valid b live := books.stock.move (by simp) (fun x mem => by rw [empty x mem]; simp)
    (fun x mem => ⟨S,_,span.home,mem,rfl,by simp⟩)
  obtain ⟨l',books',kept,written',stale,extents⟩ := books.onSpan (A := A) (q := .free S)
    (h := .held t) (m := m) (L := w.spanLists)
    (f := fun s => { s with freeList := (w.pages.spans S).pageId <<< pageShift }) span.home (.inl rfl) (.inl rfl)
    (by rw [rehomed]; exact stock)
    (fun x mem => .inl (empty x mem)) (.inr rfl) (fun _ => ⟨rfl,rfl⟩) (written.mono (fun x mem => .inr (moved_of_mem mem)))
    (fun j T => by rw [rehomed]; exact books.buckets j T) books.once (fun i => by simp)
  rw [rehomed] at books' kept written'
  have fields : (w.withCarved S m).pages.spans
    S = { w.pages.spans S with freeList := (w.pages.spans S).pageId <<< pageShift } :=
    Pages.write_self w.pages S (fun s => { s with freeList := (w.pages.spans S).pageId <<< pageShift })
  refine ends m l' ⟨books',kept,written',fun tidy => tidy.mono stale extents⟩ ⟨span.home,span.objSize,span.n,?_⟩ ⟨?_,?_⟩
  · rw [fields]; exact span.unused
  · exact (Holding.nil_iff.mpr none).arrive_all (Extent.objects_nodup sound)
  · rw [fields]; exact chain

theorem carves_sec {batchNum S : Nat} (books : Books b g l w live) (holds : Holds b g w t (.carves size tc batchNum S)) :
    sec sections (Leads b t live g l w (.carves size tc batchNum S))
    ((Point.carves size tc batchNum S).code b t) [] w post thrown := by
  obtain ⟨list,s,rfl,carries,small,own,bounds,span,empty⟩ := holds
  simp only [Point.code,Point.fetching,sec_seq]
  apply carve_sec books span empty
  intro m l' works span' shelf
  refine Goes.leads (k := g.move (g.extent S).objects (.free S)) (y := .links size tc batchNum S) (n := size) rfl rfl
    ⟨[],s,rfl,carries_nil (fun x here => ?_) s,small,
    ⟨own.tls,own.cache,own.made⟩,bounds,span',shelf⟩ works.books works.kept works.written id (fun _ => works.tidy)
  by_cases mem : x ∈ (g.extent S).objects
  · rw [show (g.move (g.extent S).objects (.free S)).place x = .free S from moved_of_mem mem] at here; cases here
  · rw [show (g.move (g.extent S).objects (.free S)).place x = g.place x from moved_of_not_mem mem] at here
    exact Holding.nil_iff.mp carries.holding x here

/-- The new span joins its bucket, and the batch is cut off its list. -/
theorem linkSpan_sec {C : Code World (Nat × Nat × Nat) → World → Prop} {i batchNum S : Nat}
    {post : Nat × Nat × Nat → List Mutex → World → Prop}
    (books : Books b g l w live) (inside : i < SizeClass.nfreelists b.midAlignShift)
    (span : HoldsSpan g w t S (SizeClass.classSize b.midAlignShift i))
    (shelf : Shelf w.mem g.place (.free S) (w.pages.spans S).freeList (g.extent S).objects)
    (idle : ∀ x, g.place x ≠ .transit t)
    (ends : ∀ A last B l', S ∉ w.spanLists i → (g.extent S).objects = A ++ last :: B →
      A.length = min (minus batchNum 1) ((g.extent S).objects.length - 1) →
      Works b t live g l w ((g.move (A ++ [last]) (.transit t)).rehome S (.listed i)) l'
        (w.cutOff S last (1 + A.length) (Function.update w.spanLists i (S :: w.spanLists i))) →
      Carries ((g.move (A ++ [last]) (.transit t)).rehome S (.listed i)) t
      (SizeClass.classSize b.midAlignShift i) (A ++ [last]) →
      Chain (w.cutOff S last (1 + A.length) (Function.update w.spanLists i (S :: w.spanLists i))).mem
      (w.pages.spans S).freeList (A ++ [last]) →
      C (.ret ((w.pages.spans S).freeList,last,1 + A.length))
        (w.cutOff S last (1 + A.length) (Function.update w.spanLists i (S :: w.spanLists i)))) :
    sec sections C (linkSpan i S >>= takeBatch i batchNum) [] w post thrown := by
  have unlisted : ∀ j, S ∉ w.spanLists j := fun j mem => by
    have home := (books.buckets j S).mp mem
    rw [span.home] at home; cases home
  simp only [linkSpan,sec_seq,sec_acquire]
  refine ⟨by simp,trivial,sec_inside (by simp) ((wp_modify _).mpr ⟨by simp [World.inside],?_⟩)⟩
  have stock := books.stock.enlist span.home (.inl rfl) inside span.objSize (by rw [span.n,span.objSize])
    (fun x mem => by rw [shelf.holding.at_place mem]; simp)
  refine (sec_pure (R := sections) S).mpr
    (takeBatch_sec (L := Function.update w.spanLists i (S :: w.spanLists i)) books span.home (.inl rfl)
    stock idle shelf ?_ ?_ ?_ ?_ (fun A last B l' split short works carries chain => ?_))
  · rw [span.unused]; simp [Extent.objects]
  · exact fun none => absurd (none ▸ (g.extent S).base_mem) List.not_mem_nil
  · intro j T
    by_cases here : j = i <;> by_cases same : T = S
    · subst here same; simp [Stock.rehome]
    · subst here
      simp only [Function.update_self,Stock.rehome,Function.update_of_ne same,List.mem_cons,same,false_or]
      exact books.buckets _ T
    · subst same
      simp only [Function.update_of_ne here,Stock.rehome,Function.update_self,Option.some.injEq,Home.listed.injEq]
      exact ⟨fun mem => absurd mem (unlisted j),fun same => absurd same.symm here⟩
    · simp only [Function.update_of_ne here,Stock.rehome,Function.update_of_ne same]
      exact books.buckets j T
  · intro j
    by_cases here : j = i
    · subst here
      rw [Function.update_self]
      exact List.nodup_cons.mpr ⟨unlisted _,books.once _⟩
    · rw [Function.update_of_ne here]; exact books.once j
  · rw [span.objSize] at carries
    exact ends A last B l' (unlisted i) split short works carries chain

theorem links_sec {batchNum S : Nat} (books : Books b g l w live) (holds : Holds b g w t (.links size tc batchNum S)) :
    sec sections (Leads b t live g l w (.links size tc batchNum S))
    ((Point.links size tc batchNum S).code b t) [] w post thrown := by
  obtain ⟨list,s,rfl,carries,small,own,bounds,span,shelf⟩ := holds
  have size_le := (SizeClass.le_roundUp b.coarse small).2
  have size_eq := SizeClass.roundUp_eq_classSize b.coarse size_le
  rw [SizeClass.roundUp_roundUp b.coarse small] at size_eq
  rw [size_eq] at span
  rw [Point.code,Point.fetching,sec_seq,sec_seq]
  apply linkSpan_sec books (SizeClass.index_lt b.coarse size_le) span shelf (Holding.nil_iff.mp carries.holding)
  intro A last B l' _ _ _ works carries' chain
  rw [← size_eq] at carries'
  exact works.keeps (x := .links size tc batchNum S) rfl small ⟨own.tls,own.cache,own.made⟩ carries' chain

theorem keeps_sec {start end_ n : Nat} (books : Books b g l w live) (holds : Holds b g w t (.keeps size tc start end_ n)) :
    sec sections (Leads b t live g l w (.keeps size tc start end_ n))
    ((Point.keeps size tc start end_ n).code b t) [] w post thrown := by
  obtain ⟨list,s,chain,carries,small,own,rfl,length,many,A,split⟩ := holds
  set i := SizeClass.index b.midAlignShift size with hi
  have inside := SizeClass.index_lt b.coarse small
  have size_eq := SizeClass.roundUp_eq_classSize b.coarse small
  rw [← hi] at inside size_eq
  obtain ⟨A,rfl⟩ : ∃ A', A = start :: A' := by
    cases A with
    | nil => rw [length,split] at many; simp at many
    | cons x A =>
      rw [split] at chain
      exact ⟨A,by rw [(Chain.cons_iff.mp chain).1]⟩
  subst split
  obtain ⟨_,nonzero,tail⟩ := Chain.cons_iff.mp chain
  have nodup := carries.holding.nodup
  have sub : ∀ x ∈ A ++ [end_], x ∈ start :: A ++ [end_] := fun x mem => List.mem_cons_of_mem start mem
  have here : ∀ x ∈ start :: A ++ [end_], g.place x = .transit t := fun x mem => carries.holding.at_place mem
  obtain ⟨objs,listed⟩ := books.shelved (.cached tc i)
  have there : ∀ x ∈ objs, g.place x = .cached tc i := fun x mem => listed.shelf.holding.at_place mem
  have ne : start ≠ end_ := fun same => (List.nodup_cons.mp nodup).1 (by simp [same])
  have end_some : end_ ≠ 0 := chain.ne_zero end_ (by simp)
  have load_some : w.mem.load start ≠ 0 := fun zero => by
    have := tail.head_eq_zero.mp zero
    simp at this
  set f : FreeList := { w.freeLists tc i with
    head := w.mem.load start
    size := (w.freeLists tc i).size + (n - 1) } with hf
  set m := w.mem.store end_ (w.freeLists tc i).head with hm
  have moved : (A ++ [end_]).Nodup := (List.nodup_cons.mp nodup).2
  have apart : ∀ x ∈ A ++ [end_], ∀ y ∈ objs, x ≠ y := fun x hx y hy same => by
    have first := here x (sub x hx)
    rw [same,there y hy] at first; cases first
  have whole : (A ++ end_ :: objs).Nodup := by
    rw [show A ++ end_ :: objs = (A ++ [end_]) ++ objs by simp]
    exact List.nodup_append.mpr ⟨moved,listed.shelf.holding.nodup,fun x hx y hy => apart x hx y hy⟩
  have spread : Spread (A ++ end_ :: objs) := books.stock.spread (fun x mem => by
    rw [show A ++ end_ :: objs = (A ++ [end_]) ++ objs by simp,List.mem_append] at mem
    rcases mem with mem | mem
    · rw [here x (sub x mem)]; simp
    · rw [there x mem]; simp)
  have head_small : (w.freeLists tc i).head < 2 ^ 64 :=
    listed.shelf.chain.head_lt (by decide) (fun x mem => (books.ne_zero (by rw [there x mem]; simp)).2)
  have stock := books.stock.deposit (A := A ++ [end_]) (t := t) tc inside (fun x mem => here x (sub x mem))
    (fun x mem => by rw [← size_eq]; exact carries.sized x (sub x mem))
  have shelf : Shelf m (g.move (A ++ [end_]) (.cached tc i)).place (.cached tc i) (w.mem.load start)
    ((A ++ [end_]) ++ objs) := by
    refine ⟨listed.shelf.holding.arrive moved (fun x mem same => ?_),?_⟩
    · rw [here x (sub x mem)] at same; cases same
    · rw [show (A ++ [end_]) ++ objs = A ++ end_ :: objs by simp]
      exact tail.tie listed.shelf.chain head_small whole spread
  have new : (w.withList tc i m f).freeLists tc i = f := by simp [withList]
  obtain ⟨books',kept,written⟩ := books.onList (A := A ++ [end_]) (q := .cached tc i) (m := m) (f := f)
    (B := (A ++ [end_]) ++ objs) (i := i)
    own.tls own.cache own.made stock (fun x mem => .inl (here x (sub x mem))) (.inr rfl)
    (Written.store _ (.inr (moved_of_mem (by simp)))) (by
      refine ⟨by rw [new]; exact shelf,?_,by rw [new]; exact listed.low,by rw [new]; exact listed.high⟩
      rw [new,hf,listed.size,length]
      simp
      omega)
  simp only [Point.code,keepBatch,sec_seq,sec_require]
  refine ⟨nonzero,end_some,by omega,?_⟩
  rw [if_pos many]
  simp only [sec_seq,sec_require]
  refine ⟨ne,(sec_step_ok (R := sections) (b := ()) (u := w.withList tc i m f) ?_).mpr ⟨trivial,?_⟩⟩
  · simp only [FreeList.pushRange,if_neg (not_or.mpr ⟨load_some,end_some⟩)]
    rfl
  refine Goes.leads (y := .allocated size start) (n := size) rfl rfl ⟨[start],_,rfl,⟨?_,fun x mem => ?_⟩,rfl,
    fun _ => own.tls ▸ own.made⟩
    books' kept written id (fun _ tidy => tidy)
  · exact Holding.leave (A := A ++ [end_]) (carries.holding.perm (by
      rw [show start :: A ++ [end_] = [start] ++ (A ++ [end_]) by simp]
      exact List.perm_append_comm)) (by simp)
  · cases List.mem_singleton.mp mem
    obtain ⟨S,owns⟩ := carries.sized start (by simp)
    exact ⟨S,owns.home,owns.mem,owns.size⟩

/-! ### Large blocks -/

theorem begins_large (books : Books b g l w live) (holds : Holds b g w t (.begins (.alloc size))) (large : maxBytes < size)
    (fits : size + 8191 < 2 ^ 64) :
    sec sections (Leads b t live g l w (.begins (.alloc size)))
    ((Point.begins (.alloc size)).code b t) [] w post thrown := by
  obtain ⟨list,s,rfl,carries,_⟩ := holds
  have idle := Holding.nil_iff.mp carries.holding
  have aligned : SizeClass.roundUp b.midAlignShift size = (size + 8191) / 8192 * 8192 := SizeClass.roundUp_page large fits
  have shift : (2 : Nat) ^ pageShift = 8192 := rfl
  have bound : 262144 < size := large
  have npage : SizeClass.roundUp b.midAlignShift size >>> pageShift = (size + 8191) / 8192 := by
    rw [aligned,Nat.shiftRight_eq_div_pow,shift,Nat.mul_div_cancel _ (by decide)]
  have code : (Point.begins (.alloc size)).code b t = (takeSpan b (SizeClass.roundUp b.midAlignShift size >>> pageShift)
      (SizeClass.roundUp b.midAlignShift size) >>= fun span => getSpan span >>= fun s =>
      pure (s.pageId <<< pageShift)) >>= Point.block := by
    simp only [Point.code,Call.code,concurrentAlloc,if_pos large]
    rfl
  rw [code]
  simp only [sec_seq]
  refine takeSpan_sec books.settled (by omega) (fun S s' pages unused settled persists n objSize useCount _ => ?_)
  have bytes : s'.objSize = s'.extent.bytes := by
    rw [objSize,aligned,Extent.bytes,show s'.extent.n = s'.n from rfl,n,npage,shift]
  have sound : s'.extent.Sound := by
    refine ⟨?_,?_,le_of_eq bytes⟩
    · show 8 ≤ s'.objSize
      rw [objSize,aligned]; omega
    · show 8 ∣ s'.objSize
      rw [objSize,aligned]; exact Dvd.dvd.mul_left (by decide) _
  obtain ⟨books',kept⟩ := books.taken (t := t) (h := .large) (A := [s'.extent.base]) unused settled persists sound
    (.inr ⟨rfl,rfl,by rw [objSize,aligned]; show 262144 < _; omega,bytes,useCount⟩)
  obtain ⟨closed,facts⟩ := settled.used S s' (Ledger.take_self ..)
  set g' := g.add S s'.extent .large [s'.extent.base] (.transit t) with hg'
  have home : g'.home S = some .large := Function.update_self ..
  have extent : g'.extent S = s'.extent := Function.update_self ..
  have base : (pages.spans S).pageId <<< pageShift = s'.extent.base := by
    rw [facts.same,Nat.shiftLeft_eq]; rfl
  refine Goes.leads (k := g') (v := { w with pages := pages }) (y := .reads size S) (n := size) rfl rfl
    ⟨[s'.extent.base],SizeClass.roundUp b.midAlignShift size,?_,⟨Carries.single idle rfl,fun x mem => ?_⟩,
    large,rfl,by rw [home]; simp,
      by rw [extent]⟩ books' kept (.refl _ _) id (fun modest tidy => ⟨tidy.1,fun T u taken => ?_⟩)
  · show [s'.extent.base] = [(pages.spans S).pageId <<< pageShift]
    rw [base]
  · cases List.mem_singleton.mp mem
    exact ⟨S,by rw [home]; simp,by rw [extent]; exact s'.extent.base_mem,by rw [extent]; exact objSize⟩
  · by_cases same : T = S
    · subst same
      rw [Ledger.take_self] at taken; cases taken
      rw [n,npage]
      have : npages = 129 := rfl
      have : (npages - 1) * 2 ^ pageShift = 128 * 8192 := rfl
      omega
    · rw [Ledger.take_other l _ same] at taken; exact tidy.2 T u taken

theorem reads_sec {S : Nat} (books : Books b g l w live) (holds : Holds b g w t (.reads size S)) :
    sec sections (Leads b t live g l w (.reads size S)) ((Point.reads size S).code b t) [] w post thrown := by
  obtain ⟨list,s,batch,carries,large,rfl,_,_⟩ := holds
  simp only [Point.code,sec_seq]
  refine (sec_act (R := sections) _ _).mpr ⟨trivial,?_⟩
  exact books.still (x := .reads size S) (y := .allocated size ((w.pages.spans S).pageId <<< pageShift)) rfl rfl
    ⟨list,_,batch,carries,rfl,fun small => by omega⟩

end
end World
end TcAlloc
