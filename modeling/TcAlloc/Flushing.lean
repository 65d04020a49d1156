import TcAlloc.Sections

/-!
The loop of `ReleaseListToSpans`. Under the mutex of the bucket it puts objects back
on the lists of their spans (`PutBack`), until the batch is at its end or a span has
all its objects back. That span leaves the bucket, and the loop goes on after it has
been released without the mutex.
-/
namespace TcAlloc
namespace World

/-- The objects of `A` are back on the lists of their spans, and nothing else has
    changed in the page cache. -/
structure PutBack (g : Stock) (w : World) (A : List Nat) (g' : Stock) (w' : World) : Prop where
  place : ∀ x, x ∉ A → g'.place x = g.place x
  back : ∀ x ∈ A, ∃ S, g.home S ≠ none ∧ x ∈ (g.extent S).objects ∧ g'.place x = .free S
  extent : g'.extent = g.extent
  cache : g'.cache = g.cache
  pages : w'.pages = { w.pages with spans := w'.pages.spans }
  spans : ∀ T, (w'.pages.spans T).extent = (w.pages.spans T).extent ∧ (w'.pages.spans T).isUse = (w.pages.spans T).isUse
  others : ∀ T, w'.pages.spans T ≠ w.pages.spans T → ∃ x ∈ A, g'.place x = .free T
  written : Written (· ∈ A) w.mem w'.mem
  rest : w' = { w with
    pages := w'.pages
    mem := w'.mem
    spanLists := w'.spanLists }

section
variable {b : Build} {t : Nat} {live : List (Nat × Nat)} {g g' : Stock} {l l' : Ledger} {w w' : World} {size i S x : Nat}
  {thrown : List Mutex → World → Prop}

theorem PutBack.nil (g : Stock) (w : World) : PutBack g w [] g w :=
  ⟨fun _ _ => rfl,(fun _ mem => nomatch mem),rfl,rfl,rfl,fun _ => ⟨rfl,rfl⟩,fun _ changed =>
  absurd rfl changed,.refl _ _,rfl⟩

/-- One object put back, and then others. -/
theorem PutBack.cons {A : List Nat} {g'' : Stock} {w'' : World} (first : PutBack g w [x] g' w')
    (later : PutBack g' w' A g'' w'')
    (out : x ∉ A) (homes : ∀ T, g'.home T ≠ none → g.home T ≠ none) : PutBack g w (x :: A) g'' w'' := by
  have first_stays : g''.place x = g'.place x := later.place x out
  refine ⟨fun y away => ?_,fun y mem => ?_,later.extent.trans first.extent,later.cache.trans first.cache,?_,
    fun T => ?_,fun T changed => ?_,?_,
    by rw [later.rest,first.rest]⟩
  · rw [List.mem_cons,not_or] at away
    exact (later.place y away.2).trans (first.place y (by simp [away.1]))
  · rcases List.mem_cons.mp mem with rfl | mem
    · rw [first_stays]; exact first.back y (List.mem_singleton_self y)
    · obtain ⟨S,home,inS,there⟩ := later.back y mem
      exact ⟨S,homes S home,first.extent ▸ inS,there⟩
  · rw [later.pages,first.pages]
  · exact ⟨(later.spans T).1.trans (first.spans T).1,(later.spans T).2.trans (first.spans T).2⟩
  · by_cases same : w''.pages.spans T = w'.pages.spans T
    · obtain ⟨y,mem,there⟩ := first.others T (by rw [← same]; exact changed)
      rw [List.mem_singleton.mp mem] at there
      exact ⟨x,List.mem_cons_self,first_stays.trans there⟩
    · obtain ⟨y,mem,there⟩ := later.others T same
      exact ⟨y,List.mem_cons_of_mem _ mem,there⟩
  · exact (first.written.mono (fun y mem => by rw [List.mem_singleton.mp mem]; exact List.mem_cons_self)).trans
      (later.written.mono (fun y mem => List.mem_cons_of_mem _ mem))

/-! ### One object -/

/-- The world with the object `x` back on the list of the span `S`. -/
def returned (w : World) (S x : Nat) : World :=
  { w with
    pages := w.pages.write S (fun s => { s with
      freeList := x
      useCount := minus s.useCount 1 })
    mem := w.mem.store x (w.pages.spans S).freeList }

/-- The world with the span `S` out of its bucket, `x` having been its last object that was out. -/
def drained (w : World) (i S x : Nat) : World :=
  { w with
    pages := w.pages.write S (fun s => { s with
      freeList := 0
      useCount := minus s.useCount 1 })
    mem := w.mem.store x (w.pages.spans S).freeList
    spanLists := Function.update w.spanLists i ((w.spanLists i).erase S) }

/-- The span of an object of a class that a thread has in its hands. -/
theorem Books.owner (books : Books b g l w live) (inside : i < SizeClass.nfreelists b.midAlignShift)
    (here : g.place x = .transit t)
    (sized : ∃ S, g.Owns S x (SizeClass.classSize b.midAlignShift i)) : ∃ S free,
    g.home S = some (.listed i) ∧ x ∈ (g.extent S).objects ∧
      w.pages.entry (x >>> pageShift) = S ∧ S ≠ 0 ∧ Counted g w S free ∧
      (g.extent S).objSize = SizeClass.classSize b.midAlignShift i := by
  obtain ⟨S,owns⟩ := sized
  have home := books.stock.class_home inside here owns
  obtain ⟨free,counted⟩ := books.shelved (.free S) i home
  obtain ⟨s,used,_,_⟩ := books.span owns.home
  exact ⟨S,free,home,owns.mem,books.found owns.home (fun u held => by rw [home] at held; cases held) owns.mem,
    books.settled.live_ne_zero (books.settled.used S s used).1.1,counted,owns.size⟩

theorem Books.count_small (books : Books b g l w live) (home : g.home S ≠ none) : (g.extent S).count < 2 ^ 64 := by
  have short := length_le_of_lt (n := 2 ^ 48) (Extent.objects_nodup (books.stock.sound S home))
    (fun x mem => (books.object_bounds home mem).2.1)
  simp only [List.length_range,Extent.objects,List.length_map] at short
  omega

/-- One object less is out. -/
theorem Counted.pred {free : List Nat} (counted : Counted g w S free) (small : (g.extent S).count < 2 ^ 64) :
    minus (w.pages.spans S).useCount 1 + 1 = (w.pages.spans S).useCount := by
  have total := counted.count
  have out := counted.out
  generalize (w.pages.spans S).useCount = n at total out ⊢
  rw [minus_pred (by omega) (by omega)]
  omega

/-- The object `x`, linked to the list of its span, is the first one of it. -/
theorem Books.pushed_chain (books : Books b g l w live) {free : List Nat} (here : g.place x = .transit t)
    (counted : Counted g w S free) :
    Chain (w.mem.store x (w.pages.spans S).freeList) x (x :: free) := by
  have there : ∀ y ∈ free, g.place y = .free S := fun y mem => counted.shelf.holding.at_place mem
  have small : (w.pages.spans S).freeList < 2 ^ 64 :=
    counted.shelf.chain.head_lt (by decide) (fun x mem => (books.ne_zero (by rw [there x mem]; simp)).2)
  apply counted.shelf.chain.push (books.ne_zero (by rw [here]; simp)).1 small
  intro y mem
  apply books.stock.words_apart (by rw [here]; simp) (by rw [there y mem]; simp)
  rintro rfl
  rw [there x mem] at here; cases here

/-- The object `x` goes from the hands of thread `t` to the list of its span. -/
theorem Books.putBack (books : Books b g l w live) {free : List Nat} {h : Home} (home : g.home S = some (.listed i))
    (mem : x ∈ (g.extent S).objects) (here : g.place x = .transit t) (counted : Counted g w S free) {f : Span → Span}
    {L : Nat → List Nat} (after : h = .listed i ∨ h = .held t) (stock : ((g.move [x] (.free S)).rehome S h).Valid b live)
    (shape : ∀ s, (f s).extent = s.extent ∧ (f s).isUse = s.isUse)
    (buckets : ∀ j T, T ∈ L j ↔ ((g.move [x] (.free S)).rehome S h).home T = some (.listed j)) (once : ∀ j, (L j).Nodup)
    (fields : h = .listed i → (f (w.pages.spans S)).freeList = x ∧
    (f (w.pages.spans S)).useCount + 1 = (w.pages.spans S).useCount ∧
      0 < (f (w.pages.spans S)).useCount) :
    (∃ l', Works b t live g l w ((g.move [x] (.free S)).rehome S h) l'
      { w with pages := w.pages.write S f, mem := w.mem.store x (w.pages.spans S).freeList, spanLists := L }) ∧
    PutBack g w [x] ((g.move [x] (.free S)).rehome S h)
      { w with pages := w.pages.write S f, mem := w.mem.store x (w.pages.spans S).freeList, spanLists := L } := by
  have used : g.home S ≠ none := by rw [home]; simp
  have moved_x : moved g.place [x] (.free S) x = .free S := moved_of_mem (List.mem_singleton_self x)
  have within : Home.Within t h := by rcases after with rfl | rfl; exacts [.inr ⟨i,rfl⟩,.inl rfl]
  have onSpan := books.onSpan (A := [x]) (q := .free S) (h := h)
    (m := w.mem.store x (w.pages.spans S).freeList) (L := L) (f := f) home
    (.inr ⟨i,rfl⟩) within stock (fun y mem => by rw [List.mem_singleton.mp mem]; exact .inr (.inl here)) (.inr rfl) shape
    (Written.store _ (.inr moved_x)) buckets once (fun j same => by
      obtain rfl : i = j := by
        rcases after with rfl | rfl
        · exact Home.listed.inj same
        · cases same
      obtain ⟨head,count,out⟩ := fields same
      have total := counted.count
      have old_out := counted.out
      refine ⟨x :: free,⟨⟨?_,?_⟩,?_,?_⟩⟩
      · exact counted.shelf.holding.arrive (List.nodup_singleton x)
          (fun y mem same => by rw [List.mem_singleton.mp mem,here] at same; cases same)
      · simp only [Pages.write_self,head]
        exact books.pushed_chain here counted
      · simp only [Pages.write_self,List.length_cons]
        show (f (w.pages.spans S)).useCount + (free.length + 1) = (g.extent S).count
        omega
      · simp only [Pages.write_self]; exact out)
  obtain ⟨l',books',kept,written,stale,extents⟩ := onSpan
  refine ⟨⟨l',books',kept,written,fun tidy => tidy.mono stale extents⟩,
    ⟨fun y out => moved_of_not_mem out,fun y mem' => ?_,rfl,rfl,rfl,fun T => ?_,
    fun T changed => ?_,Written.store _ (List.mem_singleton_self x),rfl⟩⟩
  · rw [List.mem_singleton.mp mem']
    exact ⟨S,used,mem,moved_x⟩
  · by_cases same : T = S
    · subst same
      simp only [Pages.write_self]; exact shape _
    · have other := Pages.write_other w.pages f same
      exact ⟨congrArg Span.extent other,congrArg Span.isUse other⟩
  · by_cases same : T = S
    · subst same; exact ⟨x,List.mem_singleton_self x,moved_x⟩
    · exact absurd (Pages.write_other _ _ same) changed

/-- With the last of its objects that was out all objects of a span are on its list. -/
theorem Books.last_back (books : Books b g l w live) {free : List Nat} (mem : x ∈ (g.extent S).objects)
    (here : g.place x = .transit t) (counted : Counted g w S free) (last : (w.pages.spans S).useCount = 1) :
    (x :: free).Perm (g.extent S).objects := by
  have inside : x :: free ⊆ (g.extent S).objects := fun y inFree => by
    rcases List.mem_cons.mp inFree with rfl | inFree
    · exact mem
    · exact (books.stock.free_mem (counted.shelf.holding.at_place inFree)).2
  have away : x ∉ free := fun inFree => by
    rw [counted.shelf.holding.at_place inFree] at here; cases here
  have nodup : (x :: free).Nodup := List.nodup_cons.mpr ⟨away,counted.shelf.holding.nodup⟩
  refine (nodup.subperm inside).perm_of_length_le ?_
  have total := counted.count
  simp only [Extent.objects,List.length_map,List.length_range,List.length_cons]
  omega

theorem Books.all_back (books : Books b g l w live) {free : List Nat} (mem : x ∈ (g.extent S).objects)
    (here : g.place x = .transit t) (counted : Counted g w S free) (last : (w.pages.spans S).useCount = 1) :
    ∀ y ∈ (g.extent S).objects, (g.move [x] (.free S)).place y = .free S := by
  have all := books.last_back mem here counted last
  intro y inS
  rcases List.mem_cons.mp (all.mem_iff.mpr inS) with rfl | inFree
  · exact moved_of_mem (List.mem_singleton_self y)
  · by_cases same : y ∈ [x]
    · exact moved_of_mem same
    · exact (moved_of_not_mem same).trans (counted.shelf.holding.at_place inFree)

/-- An object back on the list of its span, some others being still out. -/
theorem Books.putBack_some (books : Books b g l w live) {free : List Nat} (home : g.home S = some (.listed i))
    (mem : x ∈ (g.extent S).objects) (here : g.place x = .transit t) (counted : Counted g w S free)
    (more : minus (w.pages.spans S).useCount 1 ≠ 0) :
    (∃ l', Works b t live g l w (g.move [x] (.free S)) l' (w.returned S x)) ∧
    PutBack g w [x] (g.move [x] (.free S)) (w.returned S x) := by
  have same : (g.move [x] (.free S)).rehome S (.listed i) = g.move [x] (.free S) := Stock.rehome_self home
  have one := counted.pred (books.count_small (by rw [home]; simp))
  have stock : (g.move [x] (.free S)).Valid b live := books.stock.move (by simp)
    (fun y mem' => by rw [List.mem_singleton.mp mem',here]; simp)
    (fun y mem' => by rw [List.mem_singleton.mp mem']; exact ⟨S,_,home,mem,rfl,by simp⟩)
  have result := books.putBack (L := w.spanLists) (f := fun s => { s with
    freeList := x
    useCount := minus s.useCount 1 }) home mem here counted (.inl rfl) (by rw [same]; exact stock)
    (fun _ => by simp only [Span.extent,and_self])
    (by rw [same]; exact books.buckets) books.once (fun _ => ⟨rfl,one,Nat.pos_of_ne_zero more⟩)
  rw [same] at result
  exact result

/-- The last object back on the list of its span, and the span out of its bucket. -/
theorem Books.putBack_last (books : Books b g l w live) {free : List Nat} (home : g.home S = some (.listed i))
    (mem : x ∈ (g.extent S).objects) (here : g.place x = .transit t) (counted : Counted g w S free)
    (last : minus (w.pages.spans S).useCount 1 = 0) :
    (∃ l', Works b t live g l w ((g.move [x] (.free S)).rehome S (.held t)) l' (w.drained i S x)) ∧
      PutBack g w [x] ((g.move [x] (.free S)).rehome S (.held t)) (w.drained i S x) ∧
      (∀ y ∈ (g.extent S).objects, ((g.move [x] (.free S)).rehome S (.held t)).place y = .free S) ∧
      HoldsSpan ((g.move [x] (.free S)).rehome S (.held t)) (w.drained i S x) t S (g.extent S).objSize := by
  have used : g.home S ≠ none := by rw [home]; simp
  have one := counted.pred (books.count_small used)
  rw [last] at one
  have all := books.all_back mem here counted one.symm
  have stock : (g.move [x] (.free S)).Valid b live := books.stock.move nofun
    (fun y mem' => by rw [List.mem_singleton.mp mem',here]; simp)
    (fun y mem' => by rw [List.mem_singleton.mp mem']; exact ⟨S,_,home,mem,rfl,nofun⟩)
  have stock' : ((g.move [x] (.free S)).rehome S (.held t)).Valid b live :=
    stock.rehome (by rw [show (g.move [x] (.free S)).home = g.home from rfl,home]; simp)
    nofun (fun _ same => nomatch same) (fun _ same => nomatch same) (fun y inS _ => by rw [all y inS]; exact ⟨rfl,nofun⟩)
  have unlisted : ∀ j, S ∈ w.spanLists j ↔ j = i := fun j => by
    rw [books.buckets,home]; simp [eq_comm]
  have result := books.putBack (L := Function.update w.spanLists i ((w.spanLists i).erase S)) (f := fun s => { s with
    freeList := 0
    useCount := minus s.useCount 1 }) home mem here counted (.inr rfl) stock'
    (fun _ => by simp only [Span.extent,and_self]) (fun j T => ?_) (fun j => ?_)
    (fun same => nomatch same)
  · refine ⟨result.1,result.2,all,⟨Function.update_self ..,rfl,(books.stock.classed S i home).2.2,?_⟩⟩
    show (Function.update w.pages.spans S _ S).useCount = 0
    rw [Function.update_self]; exact last
  · by_cases same : T = S
    · subst same
      simp only [Stock.rehome,Function.update_self]
      refine ⟨fun mem' => ?_,fun impossible => by cases impossible⟩
      by_cases at_i : j = i
      · subst at_i
        rw [Function.update_self] at mem'
        exact absurd rfl ((books.once j).mem_erase_iff.mp mem').1
      · rw [Function.update_of_ne at_i] at mem'
        exact absurd ((unlisted j).mp mem') at_i
    · simp only [Stock.rehome,Function.update_of_ne same]
      rw [show (g.move [x] (.free S)).home = g.home from rfl,← books.buckets]
      by_cases at_i : j = i
      · subst at_i
        rw [Function.update_self,(books.once j).mem_erase_iff]
        exact ⟨fun both => both.2,fun mem' => ⟨same,mem'⟩⟩
      · rw [Function.update_of_ne at_i]
  · by_cases at_i : j = i
    · subst at_i
      rw [Function.update_self]; exact (books.once j).erase S
    · rw [Function.update_of_ne at_i]; exact books.once j

/-! ### The loop -/

/-- The rest of a batch, when its first object has gone to the list of its span. -/
theorem Carries.rest {B : List Nat} {start v : Nat} {h : Home} (carries : Carries g t size (x :: B)) (valid : g.Valid b live)
    (used : g.home S ≠ none) (chain : Chain w.mem start (x :: B)) :
    Carries ((g.move [x] (.free S)).rehome S h) t size B ∧ Chain (w.mem.store x v) (w.mem.load x) B := by
  have out : ∀ y ∈ x :: B, g.place y ≠ .nowhere := fun y mem => by rw [carries.holding.at_place mem]; simp
  have away : x ∉ B := (List.nodup_cons.mp carries.holding.nodup).1
  have stays : ∀ T, g.home T ≠ none → ((g.move [x] (.free S)).rehome S h).home T ≠ none := fun T home => by
    by_cases same : T = S
    · subst same
      rw [show ((g.move [x] (.free T)).rehome T h).home T = some h from Function.update_self ..]; simp
    · rw [show ((g.move [x] (.free S)).rehome S h).home T = g.home T from Function.update_of_ne same ..]; exact home
  refine ⟨⟨Holding.leave (A := [x]) carries.holding nofun,fun y mem => ?_⟩,?_⟩
  · obtain ⟨T,owns⟩ := carries.sized y (List.mem_cons_of_mem x mem)
    exact ⟨T,stays T owns.home,owns.mem,owns.size⟩
  · exact (Chain.cons_iff.mp chain).2.2.store_apart v (fun y mem => valid.words_apart (out x List.mem_cons_self)
      (out y (List.mem_cons_of_mem x mem)) (fun same => away (same ▸ mem)))

/-- Works of which the later ones only put objects back. -/
theorem Works.putBack {A : List Nat} {g'' : Stock} {l'' : Ledger} {w'' : World} (first : Works b t live g l w g' l' w')
    (later : Works b t live g' l' w' g'' l'' w'') (back : PutBack g' w' A g'' w'') : Works b t live g l w g'' l'' w'' := by
  refine ⟨later.books,first.kept.trans later.kept,(first.written.mono (fun y mine => ?_)).trans later.written,
    fun tidy => later.tidy (first.tidy tidy)⟩
  obtain ⟨somewhere,notLive,own⟩ := mine
  have own' : ¬ Stock.Foreign t g'' y := fun far => own ((later.kept.leaves.foreign_iff y).mp far)
  by_cases mem : y ∈ A
  · obtain ⟨T,_,_,there⟩ := back.back y mem
    exact ⟨by rw [there]; simp,by rw [there]; simp,own'⟩
  · exact ⟨by rw [back.place y mem]; exact somewhere,by rw [back.place y mem]; exact notLive,own'⟩

/-- What the loop has come to when a span has all its objects back: the objects of `A`
    and `x` are back, those of `B` are still in the hands of the thread, which has the span `S`. -/
structure Drains (g : Stock) (w : World) (t i size : Nat) (A : List Nat) (x : Nat) (B : List Nat) (S next : Nat)
    (g' : Stock) (w' : World) : Prop where
  back : PutBack g w (A ++ [x]) g' w'
  listed : g.home S = some (.listed i)
  home : g'.home = Function.update g.home S (some (.held t))
  lists : w'.spanLists = Function.update w.spanLists i ((w.spanLists i).erase S)
  last : g'.place x = .free S
  all : ∀ y ∈ (g'.extent S).objects, g'.place y = .free S
  complete : ∃ rest, Chain w'.mem x (x :: rest) ∧ (x :: rest).Perm (g.extent S).objects
  span : HoldsSpan g' w' t S size
  carries : Carries g' t size B
  chain : Chain w'.mem next B

/-- What the loop has come to at the end of the batch. -/
structure Flushed (g : Stock) (w : World) (list : List Nat) (g' : Stock) (w' : World) : Prop where
  back : PutBack g w list g' w'
  home : g'.home = g.home
  lists : w'.spanLists = w.spanLists

/-- The loop of `ReleaseListToSpans` under the mutex of the bucket. -/
theorem flush_sec {C : Code World Unit → World → Prop} {post : Unit → List Mutex → World → Prop}
    {rounds start : Nat} {list : List Nat}
    (inside : i < SizeClass.nfreelists b.midAlignShift) (books : Books b g l w live)
    (carries : Carries g t (SizeClass.classSize b.midAlignShift i) list) (chain : Chain w.mem start list)
    (enough : list.length < rounds)
    (done : ∀ g' l' w', Works b t live g l w g' l' w' → Flushed g w list g' w' → C (.ret ()) w')
    (drains : ∀ A x B S next rounds' g' l' w', list = A ++ x :: B → B.length < rounds' → Works b t live g l w g' l' w' →
      Drains g w t i (SizeClass.classSize b.midAlignShift i) A x B S next g' w' →
      C (releaseSpan b S >>= fun _ => .acquire (.bucket i) >>= fun _ => flush b i rounds' next) w') :
    sec sections C (flush b i rounds start) [.bucket i] w post thrown := by
  induction rounds generalizing g l w start list with
  | zero => omega
  | succ rounds ih =>
    rw [flush]
    by_cases ended : start = 0
    · subst ended
      obtain rfl := Chain.nil_iff.mp chain
      rw [if_pos rfl]
      exact (sec_release (R := sections) _).mpr ⟨trivial,done g l w ⟨books,.refl t g w,.refl _ _,id⟩ ⟨.nil g w,rfl,rfl⟩⟩
    rw [if_neg ended]
    obtain ⟨B,rfl,_⟩ := chain.of_ne_zero ended
    have here := carries.holding.at_place (List.mem_cons_self (a := start) (l := B))
    have nodup := carries.holding.nodup
    obtain ⟨S,free,home,mem,found,nonzero,counted,size⟩ := books.owner inside here (carries.sized start List.mem_cons_self)
    have used : g.home S ≠ none := by rw [home]; simp
    obtain ⟨count,left⟩ : ∃ count, minus (w.pages.spans S).useCount 1 = count := ⟨_,rfl⟩
    simp only [sec_seq]
    refine sec_inside (by simp) (returnObject_wp (by simp) found nonzero ?_)
    rw [left]
    by_cases last : count = 0
    · have one : (w.pages.spans S).useCount = 1 := by
        have pred := counted.pred (books.count_small used)
        rw [left.trans last] at pred
        exact pred.symm
      obtain ⟨⟨l',works⟩,back,all,span⟩ := books.putBack_last home mem here counted (left.trans last)
      dsimp only
      rw [if_pos last]
      simp only [sec_seq]
      refine sec_inside (by simp) (unlinkSpan_wp (by simp) ?_ ?_)
      · exact (books.buckets i S).mpr home
      refine (sec_release (R := sections) _).mpr ⟨trivial,?_⟩
      rw [write_write]
      obtain ⟨carries',chain'⟩ := carries.rest (h := .held t) (v := (w.pages.spans S).freeList) books.stock used chain
      exact drains [] start B S (w.mem.load start) rounds _ l' (w.drained i S start) rfl (by simpa using enough) works
        ⟨back,home,rfl,rfl,all start mem,all,⟨free,books.pushed_chain here counted,books.last_back mem here counted one⟩,
          by rw [← size]; exact span,carries',chain'⟩
    · obtain ⟨⟨l',works⟩,back⟩ := books.putBack_some home mem here counted (by rw [left]; exact last)
      dsimp only
      rw [if_neg last]
      have same : (g.move [start] (.free S)).rehome S (.listed i) = g.move [start] (.free S) := Stock.rehome_self home
      obtain ⟨carries',chain'⟩ := carries.rest (h := .listed i) (v := (w.pages.spans S).freeList) books.stock used chain
      rw [same] at carries'
      refine ih (w := w.returned S start) works.books carries' chain' (by simpa using enough)
        (fun g'' l'' w'' works' flushed => ?_)
        (fun A x B' S' next rounds' g'' l'' w'' split fuel works' facts => ?_)
      · exact done g'' l'' w'' (works.putBack works' flushed.back)
          ⟨back.cons flushed.back (List.nodup_cons.mp nodup).1 (fun _ => id),flushed.home,flushed.lists⟩
      · have out : start ∉ A ++ [x] := fun inA => (List.nodup_cons.mp nodup).1 (by
          rw [split]
          simp only [List.mem_append,List.mem_cons,List.not_mem_nil,or_false] at inA ⊢
          exact inA.imp id .inl)
        exact drains (start :: A) x B' S' next rounds' g'' l'' w'' (by rw [split]; rfl) fuel
          (works.putBack works' facts.back)
          ⟨back.cons facts.back out (fun _ => id),facts.listed,facts.home,facts.lists,facts.last,facts.all,
          facts.complete,facts.span,facts.carries,facts.chain⟩

end
end World
end TcAlloc
