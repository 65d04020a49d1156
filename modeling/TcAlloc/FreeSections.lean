import TcAlloc.Flushing

/-!
The sections of `ConcurrentFree`: the loads of the lookup, the release of a large
block, the push on the list of the thread, and the flush of a list that is too long.
What the call frees is followed from the hands of the thread to where it rests.
-/
namespace TcAlloc
namespace World

section
variable {b : Build} {t : Nat} {live : List (Nat × Nat)} {g : Stock} {l : Ledger} {w : World} {ptr size tc S : Nat}
  {post : Outcome → List Mutex → World → Prop} {thrown : List Mutex → World → Prop}

/-- A section of `ConcurrentFree`. -/
theorem Goes.frees {k : Stock} {m : Ledger} {v : World} {x y : Point} (free : x.call = .free ptr) (call : y.call = .free ptr)
    (holds : Holds b k v t y) (books : Books b k m v live) (kept : Kept t g w k v) (written : Written (Mine t k) w.mem v.mem)
    (tls : v.tlsThreadCache t = w.tlsThreadCache t) (tidy : Tidy l → Tidy m)
    (follows : ∀ n, Follows g w t x ptr n → Follows k v t y ptr n) :
    Leads b t live g l w x (y.code b t) v :=
  ⟨k,m,y,rfl,call.trans free.symm,holds,books,kept,written,fun some => by rw [tls]; exact some,fun _ => tidy,
    fun p n freed => by rw [free] at freed; cases freed; exact follows n⟩

/-! ### The lookup -/

/-- A load of the lookup. -/
theorem lookup_sec {C : Code World Outcome → World → Prop} {f : PageMap → Nat} {k : Nat → Code PageMap Nat}
    (next : C (Point.lookup b t ptr (k (f w.pages.idSpanMap))) w) :
    sec sections C (Point.lookup b t ptr (Prog.read f >>= k)) [] w post thrown :=
  (sec_act (R := sections) (s := w) (fun w => w) (fun w => Point.lookup b t ptr (k (f w.pages.idSpanMap)))).mpr
  ⟨trivial,next⟩

/-- What a lookup that finds something has seen. -/
theorem PageMap.found {bits k : Nat} {map : PageMap} (get : PageMap.get bits map k = S) (some : S ≠ 0) : ¬ 0 < k >>> bits ∧
    map.root (PageMap.i1 bits k) ≠ 0 ∧ map.mids (map.root (PageMap.i1 bits k)) (PageMap.i2 bits k) ≠ 0 ∧
    map.leaves (map.mids (map.root (PageMap.i1 bits k)) (PageMap.i2 bits k)) (PageMap.i3 bits k) = S := by
  unfold PageMap.get at get
  dsimp only at get
  split_ifs at get with big root mid
  · exact absurd get.symm some
  · exact absurd get.symm some
  · exact absurd get.symm some
  · exact ⟨big,root,mid,get⟩

/-- The page map leads from the object in the hands of the thread to its span. -/
theorem Books.leads_to (books : Books b g l w live) (carries : Carries g t size [ptr]) :
    ∃ S, g.Owns S ptr size ∧ w.pages.entry (ptr >>> pageShift) = S ∧ S ≠ 0 := by
  have here := carries.holding.at_place (List.mem_singleton_self ptr)
  obtain ⟨S,owns⟩ := carries.sized ptr (List.mem_singleton_self ptr)
  obtain ⟨s,used,_,_⟩ := books.span owns.home
  refine ⟨S,owns,books.found owns.home (fun u held => ?_) owns.mem,books.settled.live_ne_zero
    (books.settled.used S s used).1.1⟩
  have suits := books.stock.suits held owns.mem (by rw [here]; simp)
  rw [here] at suits
  exact suits u rfl

theorem begins_free (books : Books b g l w live) (holds : Holds b g w t (.begins (.free ptr))) :
    sec sections (Leads b t live g l w (.begins (.free ptr))) ((Point.begins (.free ptr)).code b t) [] w post thrown := by
  obtain ⟨list,size,rfl,carries,_⟩ := holds
  obtain ⟨S,owns,found,some⟩ := books.leads_to carries
  obtain ⟨inside,root,_,_⟩ := PageMap.found found some
  have code : (Point.begins (.free ptr)).code b t = Point.lookup b t ptr
      (Prog.read (·.root (PageMap.i1 Pages.bits (ptr >>> pageShift))) >>=
      PageMap.afterRoot Pages.bits (ptr >>> pageShift)) := by
    have whole : (Point.begins (.free ptr)).code b t = Point.lookup b t ptr
      (PageMap.load Pages.bits (ptr >>> pageShift)) := rfl
    rw [whole,PageMap.load,if_neg inside]
  rw [code]
  exact lookup_sec (books.still (y := .looksAtMid ptr _) rfl rfl ⟨[ptr],size,rfl,carries,root,rfl⟩)

theorem looksAtMid_sec {mid : Nat} (books : Books b g l w live) (holds : Holds b g w t (.looksAtMid ptr mid)) :
    sec sections (Leads b t live g l w (.looksAtMid ptr mid)) ((Point.looksAtMid ptr mid).code b t) [] w post thrown := by
  obtain ⟨list,size,rfl,carries,some_mid,root⟩ := holds
  obtain ⟨S,owns,found,some⟩ := books.leads_to carries
  obtain ⟨_,_,leaf,_⟩ := PageMap.found found some
  rw [root] at leaf
  rw [Point.code,PageMap.afterRoot,if_neg some_mid]
  exact lookup_sec (books.still (x := .looksAtMid ptr mid) (y := .looksAtLeaf ptr _) rfl rfl
    ⟨[ptr],size,rfl,carries,leaf,mid,some_mid,root,rfl⟩)

theorem looksAtLeaf_sec {leaf : Nat} (books : Books b g l w live) (holds : Holds b g w t (.looksAtLeaf ptr leaf)) :
    sec sections (Leads b t live g l w (.looksAtLeaf ptr leaf))
    ((Point.looksAtLeaf ptr leaf).code b t) [] w post thrown := by
  obtain ⟨list,size,rfl,carries,some_leaf,mid,some_mid,root,below⟩ := holds
  obtain ⟨S,owns,found,some⟩ := books.leads_to carries
  obtain ⟨_,_,_,entry⟩ := PageMap.found found some
  rw [root,below] at entry
  rw [Point.code,PageMap.afterMid,if_neg some_leaf]
  refine lookup_sec (k := .ret) ?_
  have code : Point.lookup b t ptr (.ret (w.pages.idSpanMap.leaves leaf (PageMap.i3 Pages.bits (ptr >>> pageShift)))) =
      (Point.measures ptr S).code b t := by
    rw [entry]
    simp only [Point.lookup,Prog.zoom,Prog.bind_def,Prog.bind,Prog.require,if_pos some]
    rfl
  rw [code]
  exact books.still (x := .looksAtLeaf ptr leaf) rfl rfl ⟨[ptr],size,rfl,carries,owns⟩

theorem measures_sec (books : Books b g l w live) (holds : Holds b g w t (.measures ptr S)) :
    sec sections (Leads b t live g l w (.measures ptr S)) ((Point.measures ptr S).code b t) [] w post thrown := by
  obtain ⟨list,size,rfl,carries,owns⟩ := holds
  obtain ⟨s,_,same,extent⟩ := books.span owns.home
  have objSize : (w.pages.spans S).objSize = size := by
    rw [same,← owns.size,extent]; rfl
  simp only [Point.code,sec_seq]
  refine (sec_act (R := sections) _ _).mpr ⟨trivial,?_⟩
  have code : (freeSized b t ptr S (w.pages.spans S).objSize >>= Point.done) =
      if maxBytes < size then (Point.returnsLarge ptr S).code b t else (Point.readsCache ptr size).code b t := by
    rw [objSize,freeSized]
    split_ifs <;> rfl
  show Leads b t live g l w _ (freeSized b t ptr S (w.pages.spans S).objSize >>= Point.done) w
  rw [code]
  by_cases large : maxBytes < size
  · rw [if_pos large]
    exact books.still (x := .measures ptr S) (y := .returnsLarge ptr S) rfl rfl ⟨[ptr],size,rfl,carries,owns,large⟩
  · rw [if_neg large]
    exact books.still (x := .measures ptr S) (y := .readsCache ptr size) rfl rfl ⟨[ptr],size,rfl,carries,rfl,by omega⟩

/-! ### The list of the thread -/

theorem readsCache_sec (books : Books b g l w live) (holds : Holds b g w t (.readsCache ptr size)) :
    sec sections (Leads b t live g l w (.readsCache ptr size)) ((Point.readsCache ptr size).code b t) [] w post thrown := by
  obtain ⟨list,s,rfl,carries,rfl,small⟩ := holds
  simp only [Point.code,sec_seq]
  refine (sec_read (R := sections) _).mpr ⟨trivial,?_⟩
  by_cases none : w.tlsThreadCache t = 0
  · have code : ((Prog.ret (w.tlsThreadCache t)).bind (fun tc => Prog.require (tc ≠ 0) .assertion >>= fun _ =>
      deallocate b tc ptr s)).bind
        Point.done = (Point.failed ptr).code b t := by
      simp only [Prog.bind_def,Prog.bind,Prog.require,none,ne_eq,not_true_eq_false,if_false]
      rfl
    rw [code]
    exact books.still (x := .readsCache ptr s) rfl rfl ⟨[ptr],s,rfl,carries,none,small⟩
  · have code : ((Prog.ret (w.tlsThreadCache t)).bind (fun tc => Prog.require (tc ≠ 0) .assertion >>= fun _ =>
      deallocate b tc ptr s)).bind
        Point.done = (Point.pushes ptr s (w.tlsThreadCache t)).code b t := by
      simp only [Prog.bind_def,Prog.bind,Prog.require,ne_eq,none,not_false_eq_true,if_true]
      rfl
    rw [code]
    exact books.still (x := .readsCache ptr s) rfl rfl ⟨[ptr],s,rfl,carries,rfl,small,books.ownCache none⟩

/-- An object of at most `MAX_BYTES` in the hands of a thread is of the class of its size. -/
theorem Books.class_of (books : Books b g l w live) {x : Nat} (here : g.place x = .transit t)
    (owns : g.Owns S x size) (small : size ≤ maxBytes) :
    SizeClass.index b.midAlignShift size < SizeClass.nfreelists b.midAlignShift ∧
      SizeClass.classSize b.midAlignShift (SizeClass.index b.midAlignShift size) = size ∧
      g.home S = some (.listed (SizeClass.index b.midAlignShift size)) := by
  rcases books.stock.transit_home here owns with ⟨_,large⟩ | ⟨i,home,inside,same⟩
  · omega
  · rw [same,SizeClass.index_classSize b.coarse inside]
    exact ⟨inside,rfl,home⟩

/-- One of more than `MAX_BYTES` is a span of its own. -/
theorem Books.large_home (books : Books b g l w live) {x : Nat} (here : g.place x = .transit t) (owns : g.Owns S x size)
    (large : maxBytes < size) : g.home S = some .large := by
  rcases books.stock.transit_home here owns with ⟨home,_⟩ | ⟨i,_,inside,same⟩
  · exact home
  · have small := SizeClass.classSize_le b.coarse inside
    omega

theorem pushes_sec (books : Books b g l w live) (holds : Holds b g w t (.pushes ptr size tc)) :
    sec sections (Leads b t live g l w (.pushes ptr size tc)) ((Point.pushes ptr size tc).code b t) [] w post thrown := by
  obtain ⟨list,s,rfl,carries,rfl,small,own⟩ := holds
  have here := carries.holding.at_place (List.mem_singleton_self ptr)
  obtain ⟨S,owns⟩ := carries.sized ptr (List.mem_singleton_self ptr)
  obtain ⟨inside,size_eq,home⟩ := books.class_of here owns small
  set i := SizeClass.index b.midAlignShift s with hi
  have nonzero := (books.ne_zero (x := ptr) (by rw [here]; simp)).1
  obtain ⟨objs,listed⟩ := books.shelved (.cached tc i)
  have there : ∀ x ∈ objs, g.place x = .cached tc i := fun x mem => listed.shelf.holding.at_place mem
  have out : ∀ x ∈ [ptr], g.place x = .transit t := fun x mem => by rw [List.mem_singleton.mp mem]; exact here
  set f : FreeList := { w.freeLists tc i with
    head := ptr
    size := (w.freeLists tc i).size + 1 } with hf
  set m := w.mem.store ptr (w.freeLists tc i).head with hm
  have head_small : (w.freeLists tc i).head < 2 ^ 64 :=
    listed.shelf.chain.head_lt (by decide) (fun x mem => (books.ne_zero (by rw [there x mem]; simp)).2)
  have stock := books.stock.deposit (A := [ptr]) (t := t) tc inside out (fun x mem => by
    rw [List.mem_singleton.mp mem,size_eq]; exact ⟨S,owns⟩)
  have shelf : Shelf m (g.move [ptr] (.cached tc i)).place (.cached tc i) ptr (ptr :: objs) := by
    refine ⟨listed.shelf.holding.arrive (List.nodup_singleton ptr) (fun x mem same => ?_),listed.shelf.chain.push
      nonzero head_small (fun x mem => ?_)⟩
    · rw [out x mem] at same; cases same
    · refine books.stock.words_apart (by rw [here]; simp) (by rw [there x mem]; simp) (fun same => ?_)
      rw [same,there x mem] at here; cases here
  have new : (w.withList tc i m f).freeLists tc i = f := by simp [withList]
  obtain ⟨books',kept,written⟩ := books.onList (A := [ptr]) (q := .cached tc i) (m := m) (f := f) (B := ptr :: objs) (i := i)
    own.tls own.cache own.made stock (fun x mem => .inl (out x mem)) (.inr rfl)
    (Written.store _ (.inr (moved_of_mem (List.mem_singleton_self ptr)))) (by
      refine ⟨by rw [new]; exact shelf,?_,by rw [new]; exact listed.low,by rw [new]; exact listed.high⟩
      rw [new,hf,listed.size]; rfl)
  have empty : Carries (g.move [ptr] (.cached tc i)) t s [] :=
    carries_nil (Holding.nil_iff.mp (carries.holding.leave_all (q := .cached tc i) (by simp))) s
  have rests : (g.move [ptr] (.cached tc i)).place ptr = .cached (g.cache t) i := by
    rw [own.cache]; exact moved_of_mem (List.mem_singleton_self ptr)
  have pushed : ∀ {pt' : Point} n, Follows g w t (.pushes ptr s tc) ptr n →
      Follows (g.move [ptr] (.cached tc i)) (w.withList tc i m f) t pt' ptr n := fun n follows =>
    follows.imp_left (.imp (fun _ => .inr (.inl (.inl ⟨i,rests⟩))) (.imp (fun S owns => ⟨owns.home,owns.mem,owns.size⟩)))
  simp only [Point.code,deallocate,sec_seq,sec_require]
  refine ⟨small,nonzero,?_⟩
  rw [← hi]
  refine (sec_step_ok (R := sections) (b := decide (f.maxSize ≤ f.size)) (u := w.withList tc i m f) ?_).mpr ⟨trivial,?_⟩
  · simp only [pushAndTest,FreeList.push,if_neg nonzero,Except.map]
    rfl
  by_cases long : f.maxSize ≤ f.size
  · have code : ((Prog.ret (decide (f.maxSize ≤ f.size))).bind
      (fun long => if long then listTooLong b tc i (SizeClass.roundUp b.midAlignShift s)
        else pure ())).bind Point.done = (Point.shortens ptr s tc).code b t := by
      simp only [Prog.bind,long,decide_true,if_true]
      rfl
    rw [code]
    exact Goes.frees (x := .pushes ptr s tc) rfl rfl ⟨[],s,rfl,empty,⟨i,inside,size_eq.symm⟩,
      ⟨own.tls,own.cache,own.made⟩,by rw [← hi,new]; exact long⟩
      books' kept written rfl id pushed
  · have code : ((Prog.ret (decide (f.maxSize ≤ f.size))).bind
      (fun long => if long then listTooLong b tc i (SizeClass.roundUp b.midAlignShift s)
        else pure ())).bind Point.done = (Point.freed ptr).code b t := by
      simp only [Prog.bind,long,decide_false]
      rfl
    rw [code]
    exact Goes.frees (x := .pushes ptr s tc) rfl rfl ⟨[],s,rfl,empty,trivial⟩
      books' kept written rfl id pushed

theorem shortens_sec (books : Books b g l w live) (holds : Holds b g w t (.shortens ptr size tc)) :
    sec sections (Leads b t live g l w (.shortens ptr size tc))
    ((Point.shortens ptr size tc).code b t) [] w post thrown := by
  obtain ⟨list,s,rfl,carries,⟨i,inside,rfl⟩,own,long⟩ := holds
  have small := SizeClass.classSize_le b.coarse inside
  have index_eq := SizeClass.index_classSize b.coarse inside
  have round_eq : SizeClass.roundUp b.midAlignShift (SizeClass.classSize b.midAlignShift i) = SizeClass.classSize
    b.midAlignShift i := by
    rw [SizeClass.roundUp_eq_classSize b.coarse small,index_eq]
  rw [index_eq] at long
  obtain ⟨objs,listed⟩ := books.shelved (.cached tc i)
  have low := listed.low
  have high := listed.high
  have fuel := b.long
  have bound := books.length_lt listed.shelf.holding (by simp)
  obtain ⟨n,hn⟩ : ∃ n, (w.freeLists tc i).maxSize = n := ⟨_,rfl⟩
  rw [hn,listed.size] at long
  rw [hn] at low high
  obtain ⟨A,last,B,rfl,length,result⟩ := follow_spec (n := n - 1) listed.shelf.chain (by omega)
  have there : ∀ x ∈ A ++ last :: B, g.place x = .cached tc i := fun x mem => listed.shelf.holding.at_place mem
  have batch : ∀ x ∈ A ++ [last], g.place x = .cached tc i := fun x mem => there x (by
    simp only [List.mem_append,List.mem_cons,List.not_mem_nil,or_false] at mem ⊢
    exact mem.imp_right .inl)
  obtain ⟨nonzero,_⟩ := listed.shelf.chain.after
  have spread : Spread (A ++ last :: B) := books.stock.spread (fun x mem => by rw [there x mem]; simp)
  obtain ⟨front,back⟩ := listed.shelf.chain.cut listed.shelf.holding.nodup spread
  set head := (w.freeLists tc i).head with hhead
  set f : FreeList := { w.freeLists tc i with
    head := w.mem.load last
    size := minus (w.freeLists tc i).size n } with hf
  set m := w.mem.store last 0 with hm
  have holding : Holding g.place (.cached tc i) ((A ++ [last]) ++ B) := by
    rw [show (A ++ [last]) ++ B = A ++ last :: B by simp]; exact listed.shelf.holding
  have moved_batch : ∀ x ∈ A ++ [last], (g.move (A ++ [last]) (.transit t)).place x = .transit t :=
    fun x mem => moved_of_mem mem
  have stock := books.stock.withdraw (A := A ++ [last]) t (fun x mem => ⟨tc,i,batch x mem⟩)
  have new : (w.withList tc i m f).freeLists tc i = f := by simp [withList]
  obtain ⟨books',kept,written⟩ := books.onList (A := A ++ [last]) (q := .transit t) (m := m) (f := f) (B := B) (i := i)
    own.tls own.cache own.made stock (fun x mem => .inr (batch x mem)) (.inl rfl)
    (Written.store _ (.inl (moved_batch last (by simp)))) (by
      refine ⟨by rw [new]; exact ⟨holding.leave (by simp),back⟩,?_,by rw [new]; exact listed.low,
        by rw [new]; exact listed.high⟩
      rw [new,hf,listed.size,minus_pred long bound]
      simp only [List.length_append,List.length_cons]
      omega)
  have carries' : Carries (g.move (A ++ [last]) (.transit t)) t (SizeClass.classSize b.midAlignShift i) (A ++ [last]) := by
    refine ⟨carries.holding.arrive_all (List.nodup_append.mp holding.nodup).1,fun x mem => ?_⟩
    obtain ⟨S,h,home,inS,suits⟩ := books.stock.placed x (by rw [batch x mem]; simp)
    rw [batch x mem] at suits
    cases (show h = .listed i from suits)
    exact ⟨S,by rw [show (g.move (A ++ [last]) (.transit t)).home = g.home from rfl,home]; simp,inS,
      (books.stock.classed S i home).2.1⟩
  have start : head ≠ 0 := fun zero => by
    have none := listed.shelf.chain.head_eq_zero.mp zero
    simp at none
  simp only [Point.code,listTooLong,index_eq,round_eq,sec_seq,sec_require]
  refine ⟨small,(sec_step_ok (R := sections) (b := (head,last)) (u := w.withList tc i m f) ?_).mpr ⟨trivial,?_⟩⟩
  · have some : ¬ (n = 0 ∨ (w.freeLists tc i).size < n) := by
      rw [listed.size]; omega
    simp only [FreeList.popRange,hn,if_neg some,← hhead,result,if_neg nonzero]
    simp only [hf,hn,hm]
  have code : ((Prog.ret (head,last)).bind
    (fun range => releaseListToSpans b range.1 (SizeClass.classSize b.midAlignShift i))).bind Point.done =
      (Point.flushes ptr (SizeClass.classSize b.midAlignShift i) b.rounds head).code b t := by
    simp only [Prog.bind,releaseListToSpans,Prog.require,Prog.bind_def,if_pos small,ne_eq,start,not_false_eq_true,if_true]
    rfl
  rw [code]
  refine Goes.frees (x := .shortens ptr _ tc) rfl rfl ⟨A ++ [last],_,front,carries',⟨i,inside,rfl⟩,rfl,?_⟩ books' kept
    written rfl id (fun n follows => ?_)
  · simp only [List.length_append,List.length_singleton]
    omega
  · refine follows.imp_left (.imp (fun around => ?_) (.imp (fun S owns => ⟨owns.home,owns.mem,owns.size⟩)))
    by_cases mem : ptr ∈ A ++ [last]
    · exact .inl (moved_batch ptr mem)
    · have same : (g.move (A ++ [last]) (.transit t)).place ptr = g.place ptr := moved_of_not_mem mem
      simp only [OnLists,same]
      exact around

/-! ### The flush -/

theorem PutBack.vacated {g' : Stock} {w' : World} {A : List Nat} {p n : Nat} (back : PutBack g w A g' w')
    (vacated : Vacated w.pages p n) :
    Vacated w'.pages p n := by
  have os : w'.pages.os = w.pages.os := by rw [back.pages]
  have pool : w'.pages.spanPool = w.pages.spanPool := by rw [back.pages]
  refine ⟨vacated.1,?_⟩
  rcases vacated.2 with ⟨T,free,inside⟩ | gone
  · obtain ⟨extent,isUse⟩ := back.spans T
    refine .inl ⟨T,⟨by rw [pool]; exact free.1,isUse.trans free.2⟩,fun y low high => ?_⟩
    rw [Span.pages,show (w'.pages.spans T).pageId = (w.pages.spans T).pageId from congrArg Extent.pageId extent,
      show (w'.pages.spans T).n = (w.pages.spans T).n from congrArg Extent.n extent]
    exact inside y low high
  · exact .inr ⟨gone.1,by rw [os]; exact gone.2⟩

theorem PutBack.tls {g' : Stock} {w' : World} {A : List Nat} (back : PutBack g w A g' w') :
    w'.tlsThreadCache = w.tlsThreadCache := by
  rw [back.rest]

/-- What has been freed is on the list of its span, or was not in the batch. -/
theorem PutBack.follows {g' : Stock} {w' : World} {A : List Nat} {pt pt' : Point} {p n : Nat} (back : PutBack g w A g' w')
    (settled : pt.draining = none)
    (homes : ∀ T i, g.home T = some (.listed i) → g'.home T = some (.listed i) ∨ (pt'.draining = some T ∧ g'.home T ≠ none))
    (used : ∀ T, g.home T ≠ none → g'.home T ≠ none)
    (classed : ∀ x ∈ A, ∀ T, g'.place x = .free T → ∃ i, g.home T = some (.listed i))
    (follows : Follows g w t pt p n) : Follows g' w' t pt' p n := by
  rcases follows with ⟨around,S,owns⟩ | vacated
  · refine .inl ⟨?_,S,used S owns.home,by rw [back.extent]; exact owns.mem,by rw [back.extent]; exact owns.size⟩
    have listed : ∀ T i, g'.place p = .free T → g.home T = some (.listed i) →
        OnLists g' t p ∨ ∃ T, pt'.draining = some T ∧ g'.place p = .free T := fun T i here home => by
      rcases homes T i home with home' | draining
      · exact .inl (.inr ⟨T,i,here,home'⟩)
      · exact .inr ⟨T,draining.1,here⟩
    by_cases mem : p ∈ A
    · obtain ⟨T,_,_,here⟩ := back.back p mem
      obtain ⟨i,home⟩ := classed p mem T here
      exact .inr (listed T i here home)
    · have stays := back.place p mem
      rcases around with here | (⟨i,here⟩ | ⟨T,i,here,home⟩) | ⟨T,draining,_⟩
      · exact .inl (stays.trans here)
      · exact .inr (.inl (.inl ⟨i,by rw [stays,back.cache]; exact here⟩))
      · exact .inr (listed T i (stays.trans here) home)
      · rw [settled] at draining; cases draining
  · exact .inr (back.vacated vacated)

theorem flushes_sec {rounds start : Nat} (books : Books b g l w live)
    (holds : Holds b g w t (.flushes ptr size rounds start)) :
    sec sections (Leads b t live g l w (.flushes ptr size rounds start))
    ((Point.flushes ptr size rounds start).code b t) [] w post thrown := by
  obtain ⟨list,s,chain,carries,⟨i,inside,rfl⟩,rfl,enough⟩ := holds
  have index_eq := SizeClass.index_classSize b.coarse inside
  have classed : ∀ {A : List Nat} {g' : Stock} {w' : World}, (∀ x ∈ A, x ∈ list) → PutBack g w A g' w' →
    ∀ x ∈ A, ∀ T, g'.place x = .free T →
      ∃ i, g.home T = some (.listed i) := fun sub back x mem T there => by
    obtain ⟨T',home,inT,there'⟩ := back.back x mem
    rw [there] at there'
    cases there'
    obtain ⟨T',owns⟩ := carries.sized x (sub x mem)
    rw [books.stock.owner_unique home owns.home inT owns.mem]
    exact ⟨i,books.stock.class_home inside (carries.holding.at_place (sub x mem)) owns⟩
  simp only [Point.code,Point.flushing,index_eq,sec_seq,sec_acquire]
  refine ⟨by simp,trivial,flush_sec inside books carries chain enough (fun g' l' w' works flushed => ?_)
    (fun A x B S next rounds' g' l' w' split fuel works facts => ?_)⟩
  · refine Goes.frees (x := .flushes ptr (SizeClass.classSize b.midAlignShift i) rounds start) (y := .freed ptr) rfl
      rfl ⟨[],0,rfl,carries_nil (fun x here => ?_) 0,trivial⟩ works.books works.kept
      works.written (congrFun flushed.back.tls t) works.tidy
      (fun n => flushed.back.follows rfl (fun T i home => .inl (by rw [flushed.home]; exact home))
      (fun T home => by rw [flushed.home]; exact home)
        (classed (fun _ => id) flushed.back))
    by_cases mem : x ∈ list
    · obtain ⟨T,_,_,there⟩ := flushed.back.back x mem
      rw [there] at here; cases here
    · rw [flushed.back.place x mem] at here
      exact mem ((carries.holding.mem x).mpr here)
  · suffices leads : Leads b t live g l w (.flushes ptr (SizeClass.classSize b.midAlignShift i) rounds start)
        ((Point.returns ptr (SizeClass.classSize b.midAlignShift i) rounds' S next).code b t) w' by
      simp only [Point.code,Point.flushing,index_eq] at leads
      exact leads
    refine Goes.frees (y := .returns ptr (SizeClass.classSize b.midAlignShift i) rounds' S next) rfl rfl
      ⟨B,_,facts.chain,facts.carries,⟨i,inside,rfl⟩,rfl,fuel,facts.span⟩ works.books works.kept works.written
      (congrFun facts.back.tls t) works.tidy
      (fun n => facts.back.follows rfl (fun T j home => ?_) (fun T home => ?_) (classed (fun y mem => ?_) facts.back))
    · by_cases same : T = S
      · exact .inr ⟨by rw [same]; rfl,by rw [same,facts.span.home]; simp⟩
      · exact .inl (by rw [facts.home,Function.update_of_ne same]; exact home)
    · by_cases same : T = S
      · rw [same,facts.span.home]; simp
      · rw [facts.home,Function.update_of_ne same]; exact home
    · rw [split]
      simp only [List.mem_append,List.mem_cons,List.not_mem_nil,or_false] at mem ⊢
      exact mem.imp_right .inl

/-! ### The release of a span -/

theorem Tidy.released {s : Span} (tidy : Tidy l) (used : l.used S = some s) : Tidy (Pages.released l S s) := by
  have short := tidy.2 S s used
  rw [Pages.released,if_neg (by omega)]
  refine ⟨tidy.1,fun T u taken => ?_⟩
  by_cases same : T = S
  · rw [same,Ledger.giveBack_self] at taken; cases taken
  · rw [Ledger.giveBack_other l same] at taken; exact tidy.2 T u taken

/-- The bytes of an object lie on pages of its span. -/
theorem Books.object_pages (books : Books b g l w live) {x : Nat} (owns : g.Owns S x size) {y : Nat}
    (low : x ≤ y) (high : y < x + size) :
    y >>> pageShift ∈ (w.pages.spans S).pages := by
  obtain ⟨s,used,same,extent⟩ := books.span owns.home
  have inside := Extent.object_inside (books.stock.sound S owns.home) owns.mem
  rw [owns.size,extent] at inside
  have shift : (2 : Nat) ^ pageShift = 8192 := rfl
  simp only [Extent.base,Extent.bytes,Span.extent,shift] at inside
  rw [same,Nat.shiftRight_eq_div_pow,shift]
  exact ⟨by omega,by omega⟩

/-- The objects of a released span are vacated. -/
theorem Books.released_vacated (books : Books b g l w live) {pages : Pages} {s : Span} {x : Nat} (used : l.used S = some s)
    (returned : Pages.Returned w.pages S s pages) (settled : Pages.Settled (Pages.released l S s) pages)
    (owns : g.Owns S x size)
    (single : npages ≤ s.n → (g.extent S).objSize = (g.extent S).bytes) : Vacated pages x size := by
  have same := (books.settled.used S s used).2.same
  have word := (books.stock.sound S owns.home).word
  refine ⟨by rw [← owns.size]; omega,?_⟩
  by_cases long : npages ≤ s.n
  · refine .inr ⟨?_,fun y low high => returned.long long _ (by rw [← same]; exact books.object_pages owns low high)⟩
    rw [← owns.size,single long,books.extent S s used]
    exact Nat.mul_le_mul_right _ long
  · rw [Pages.released,if_neg long] at settled
    have frees := (returned.short (by omega)).frees books.settled used settled
    exact .inl ⟨S,frees.result.1,fun y low high => frees.result.2 (books.object_pages owns low high)⟩

/-- An object of a span in use is not vacated. -/
theorem Books.not_vacated (books : Books b g l w live) {x n : Nat} (owns : g.Owns S x size) : ¬ Vacated w.pages x n := by
  obtain ⟨s,used,same,_⟩ := books.span owns.home
  have closed := books.settled.used S s used
  have word := (books.stock.sound S owns.home).word
  have page := books.object_pages owns (le_refl x) (by rw [← owns.size]; omega)
  rintro ⟨some,⟨T,free,inside⟩ | gone⟩
  · have ne : T ≠ S := fun equal => by
      have idle := free.2
      rw [equal,same,closed.2.isUse] at idle; cases idle
    exact books.settled.apart T S ⟨free.1,Set.notMem_empty T⟩ closed.1 ne _ (inside x (le_refl x) (by omega)) page
  · exact gone.2 x (le_refl x) (by omega) (books.settled.closed_pages closed.1 page)

/-- What was vacated stays so when a span is released. -/
theorem vacated_frees {w w' : Pages} {p n : Nat} (inUse : (w.spans S).isUse = true)
    (frees : Pages.Frees w S w') (vacated : Vacated w p n) :
    Vacated w' p n := by
  refine ⟨vacated.1,?_⟩
  rcases vacated.2 with ⟨T,free,inside⟩ | gone
  · have ne : T ≠ S := fun same => by
      have idle := free.2
      rw [same,inUse] at idle; cases idle
    rcases frees.others T free.1 ne with ⟨live,same,_⟩ | ⟨_,_,absorbed⟩
    · exact .inl ⟨T,⟨live,by rw [same]; exact free.2⟩,fun y low high => by rw [same]; exact inside y low high⟩
    · exact .inl ⟨S,frees.result.1,fun y low high => absorbed (inside y low high)⟩
  · exact .inr ⟨gone.1,fun y low high again => gone.2 y low high ((frees.mapped _).mp again)⟩

theorem returnsLarge_sec (books : Books b g l w live) (holds : Holds b g w t (.returnsLarge ptr S))
    (quiet : QuietNext b ((Point.returnsLarge ptr S).code b t) w) :
    sec sections (Leads b t live g l w (.returnsLarge ptr S)) ((Point.returnsLarge ptr S).code b t) [] w post thrown := by
  obtain ⟨list,size,rfl,carries,owns,large⟩ := holds
  have here := carries.holding.at_place (List.mem_singleton_self ptr)
  obtain ⟨s,used,same,extent⟩ := books.span owns.home
  have home := books.large_home here owns large
  have only := Extent.objects_single (books.stock.sound S owns.home) (books.stock.large S home).2
  have unused := books.unused S home
  rw [same] at unused
  simp only [Point.code,sec_seq]
  refine releaseSpan_sec books.settled used unused (fun short => quiet S Point.done rfl (by rw [same]; exact short))
    (fun pages settled persists returned => ?_)
  have mine : ∀ x ∈ (g.extent S).objects, g.place x = .nowhere ∨ Near t (.free S) (g.place x) := fun x mem => by
    have mem' := owns.mem
    rw [only,List.mem_singleton] at mem mem'
    rw [mem,← mem']
    exact .inr (.inl here)
  obtain ⟨books',kept⟩ := books.returned (t := t) home (.inr rfl) mine settled persists
  refine Goes.frees (x := .returnsLarge ptr S) (y := .freed ptr) (v := { w with pages := pages }) rfl rfl
    ⟨[],0,rfl,carries_nil (fun x there => ?_) 0,trivial⟩ books' kept (.refl _ _) rfl (fun tidy => tidy.released used)
    (fun n follows => .inr ?_)
  · by_cases mem : x ∈ (g.extent S).objects
    · rw [show (g.drop S).place x = .nowhere from moved_of_mem mem] at there; cases there
    · rw [show (g.drop S).place x = g.place x from moved_of_not_mem mem] at there
      have equal := (carries.holding.mem x).mpr there
      rw [List.mem_singleton.mp equal] at mem
      exact mem owns.mem
  · rcases follows with ⟨_,T,owns'⟩ | vacated
    · rw [books.stock.owner_unique owns'.home owns.home owns'.mem owns.mem] at owns'
      exact books.released_vacated used returned settled owns' (fun _ => (books.stock.large S home).2)
    · exact absurd vacated (books.not_vacated owns)

theorem returns_sec {rounds next : Nat} (books : Books b g l w live)
    (holds : Holds b g w t (.returns ptr size rounds S next))
    (quiet : QuietNext b ((Point.returns ptr size rounds S next).code b t) w) :
    sec sections (Leads b t live g l w (.returns ptr size rounds S next))
    ((Point.returns ptr size rounds S next).code b t) [] w post thrown := by
  obtain ⟨list,s,chain,carries,class_,rfl,enough,span⟩ := holds
  have home : g.home S ≠ none := by rw [span.home]; simp
  obtain ⟨u,used,same,extent⟩ := books.span home
  have unused := span.unused
  rw [same] at unused
  have mine : ∀ x ∈ (g.extent S).objects, g.place x = .nowhere ∨ g.place x = .free S := fun x mem => by
    by_cases somewhere : g.place x = .nowhere
    · exact .inl somewhere
    have suits := books.stock.suits span.home mem somewhere
    cases there : g.place x with
    | nowhere => exact .inl rfl
    | free T => rw [there] at suits; exact .inr (by rw [suits.1])
    | cached tc i => rw [there] at suits; cases suits
    | transit v => rw [there] at suits; exact absurd rfl (suits t)
    | live => rw [there] at suits; exact absurd rfl (suits t)
  have others : ∀ x, g.place x ≠ .free S → (g.drop S).place x = g.place x := fun x away => by
    by_cases mem : x ∈ (g.extent S).objects
    · rw [show (g.drop S).place x = .nowhere from moved_of_mem mem]
      exact ((mine x mem).resolve_right away).symm
    · exact moved_of_not_mem mem
  have code : (Point.returns ptr s rounds S next).code b t = releaseSpan b S >>= fun _ => Point.flushing b s
    rounds next >>= Point.done :=
    Prog.bind_bind _ _ _
  rw [code] at quiet ⊢
  rw [sec_seq]
  refine releaseSpan_sec books.settled used unused (fun short => quiet S _ rfl (by rw [same]; exact short))
    (fun pages settled persists returned => ?_)
  obtain ⟨books',kept⟩ := books.returned (t := t) span.home (.inl rfl)
    (fun x mem => (mine x mem).imp_right .inr) settled persists
  have here : ∀ x ∈ list, g.place x = .transit t := fun x mem => carries.holding.at_place mem
  obtain ⟨i,inside,rfl⟩ := class_
  have word := (books.stock.sound S home).word
  have pages_bound := SizeClass.numMovePage_spec (SizeClass.classSize b.midAlignShift i) (by rw [← span.objSize]; omega)
    (SizeClass.classSize_le b.coarse inside)
  have short : u.n < npages := by
    have n := span.n
    rw [extent] at n
    have n : u.n = SizeClass.numMovePage (SizeClass.classSize b.midAlignShift i) := n
    have : npages = 129 := rfl
    omega
  have frees : Pages.Frees w.pages S pages := by
    rw [Pages.released,if_neg (by omega)] at settled
    exact (returned.short short).frees books.settled used settled
  refine Goes.frees (k := g.drop S) (v := { w with pages := pages }) (x := .returns ptr _ rounds S next)
    (y := .flushes ptr (SizeClass.classSize b.midAlignShift i) rounds next) rfl rfl
    ⟨list,_,chain,⟨carries.holding.congr (fun x => ?_),fun x mem => ?_⟩,⟨i,inside,rfl⟩,rfl,enough⟩ books' kept
    (.refl _ _) rfl
    (fun tidy => tidy.released used) (fun n follows => ?_)
  · by_cases away : g.place x = .free S
    · have mem := (books.stock.free_mem away).2
      rw [show (g.drop S).place x = .nowhere from moved_of_mem mem,away]
      simp
    · rw [others x away]
  · obtain ⟨T,owns⟩ := carries.sized x mem
    have ne : T ≠ S := fun equal => by
      rcases mine x (equal ▸ owns.mem) with there | there <;> rw [here x mem] at there <;> cases there
    exact ⟨T,by rw [show (g.drop S).home T = g.home T from Function.update_of_ne ne ..]; exact owns.home,owns.mem,owns.size⟩
  · rcases follows with ⟨around,T,owns⟩ | vacated
    · by_cases away : g.place ptr = .free S
      · have mem := (books.stock.free_mem away).2
        rw [books.stock.owner_unique owns.home home owns.mem mem] at owns
        exact .inr (books.released_vacated used returned settled owns (fun long => by omega))
      · have stays := others ptr away
        have ne : T ≠ S := fun equal => by
          rcases mine ptr (equal ▸ owns.mem) with none | there
          · rcases around with there | (⟨j,there⟩ | ⟨T,j,there,_⟩) | ⟨T,_,there⟩ <;> rw [none] at there <;> cases there
          · exact away there
        have owns' : (g.drop S).Owns T ptr n :=
          ⟨by rw [show (g.drop S).home T = g.home T from Function.update_of_ne ne ..]; exact owns.home,owns.mem,owns.size⟩
        refine .inl ⟨?_,T,owns'⟩
        rcases around with there | (⟨j,there⟩ | ⟨U,j,there,listed⟩) | ⟨U,draining,there⟩
        · exact .inl (stays.trans there)
        · exact .inr (.inl (.inl ⟨j,stays.trans there⟩))
        · have other : U ≠ S := fun equal => away (by rw [there,equal])
          exact .inr (.inl (.inr
            ⟨U,j,stays.trans there,(show (g.drop S).home U = g.home U from Function.update_of_ne other ..).trans
            listed⟩))
        · cases draining
          exact absurd there away
    · exact .inr (vacated_frees (by rw [same]; exact (books.settled.used S u used).2.isUse) frees vacated)

end
end World
end TcAlloc
