import TcAlloc.BatchReturns

/-!
`FetchRangeObj` by a thread that works alone, and `ReleaseListToSpans` right after it
with the batch it has returned. The fetch is followed through its sections
(`Fetching`) to a batch that is cut off the list of a span (`Batched`), which is one
of the bucket or a new one. The release then leaves every span as it was before the
fetch (`Neutral`): a span of the bucket has an object that was out before, so it
stays, and a new one has not, so its pages are free again.
-/
namespace TcAlloc
namespace World

/-! ### The fetch -/

/-- Thread `t` holds the new span `S` for the bucket `i`, and the rest is as it was. -/
structure Fresh (b : Build) (t i : Nat) (live : List (Nat × Nat)) (g : Stock) (w : World)
    (S : Nat) (g' : Stock) (l' : Ledger)
    (w' : World) : Prop where
  books : Books b g' l' w' live
  tidy : Tidy l'
  unused : g.home S = none
  span : HoldsSpan g' w' t S (SizeClass.classSize b.midAlignShift i)
  idle : ∀ x, g'.place x ≠ .transit t
  home : ∀ T, T ≠ S → g'.home T = g.home T
  extent : ∀ T, T ≠ S → g'.extent T = g.extent T
  place : ∀ x, x ∉ (g'.extent S).objects → g'.place x = g.place x
  others : ∀ T, T ≠ S → g.home T ≠ none → w'.pages.spans T = w.pages.spans T
  lists : w'.spanLists = w.spanLists
  drawn : Pages.Drawn w.pages S w'.pages

/-- The list `free` was that of the span `S` in the bucket. -/
structure FromBucket (g : Stock) (w : World) (i S : Nat) (free : List Nat) (w' : World) : Prop where
  home : g.home S = some (.listed i)
  shelf : Shelf w.mem g.place (.free S) (w.pages.spans S).freeList free
  lists : w'.spanLists = w.spanLists
  freePages : ∀ q, w'.pages.FreePage q ↔ w.pages.FreePage q

/-- The list `free` has all objects of the span `S`, which is new in the bucket. -/
structure FromNew (g : Stock) (w : World) (i S : Nat) (free list : List Nat) (g' : Stock) (w' : World) : Prop where
  unused : g.home S = none
  whole : free = (g'.extent S).objects
  rest : ∀ x ∈ free, g'.place x = .free S ∨ x ∈ list
  unlisted : S ∉ w.spanLists i
  lists : w'.spanLists = Function.update w.spanLists i (S :: w.spanLists i)
  drawn : Pages.Drawn w.pages S w'.pages

/-- Thread `t` has cut the batch `list` off the front of the list `free` of the span `S`. -/
structure Batched (b : Build) (t i batchNum : Nat) (live : List (Nat × Nat)) (g : Stock) (w : World)
    (S : Nat) (free list : List Nat)
    (r : Nat × Nat × Nat) (g' : Stock) (l' : Ledger) (w' : World) : Prop where
  books : Books b g' l' w' live
  tidy : Tidy l'
  carries : Carries g' t (SizeClass.classSize b.midAlignShift i) list
  chain : Chain w'.mem r.1 list
  cut : ∃ A B, free = A ++ r.2.1 :: B ∧ list = A ++ [r.2.1] ∧ A.length = min (minus batchNum 1) (free.length - 1)
  number : r.2.2 = list.length
  inside : ∀ x ∈ free, x ∈ (g'.extent S).objects
  nodup : free.Nodup
  listed : g'.home S = some (.listed i)
  home : ∀ T, T ≠ S → g'.home T = g.home T
  extent : ∀ T, g.home T ≠ none → g'.extent T = g.extent T
  place : ∀ T x, g.home T ≠ none → x ∉ list → (g'.place x = .free T ↔ g.place x = .free T)
  others : ∀ T, T ≠ S → g.home T ≠ none → w'.pages.spans T = w.pages.spans T
  source : FromBucket g w i S free w' ∨ FromNew g w i S free list g' w'

/-- Where the call is between two sections. -/
inductive Fetching (b : Build) (t i batchNum : Nat) (live : List (Nat × Nat)) (g : Stock) (w : World) :
    Code World (Nat × Nat × Nat) → World → Prop
  | begins : Fetching b t i batchNum live g w (fetchRangeObj b batchNum (SizeClass.classSize b.midAlignShift i)) w
  | takes : Fetching b t i batchNum live g w ((takeSpan b (SizeClass.numMovePage (SizeClass.classSize b.midAlignShift i))
      (SizeClass.classSize b.midAlignShift i) >>= carveSpan i (SizeClass.classSize b.midAlignShift i)) >>=
      takeBatch i batchNum) w
  | carves {S : Nat} {g' : Stock} {l' : Ledger} {w' : World} (fresh : Fresh b t i live g w S g' l' w')
      (empty : ∀ x ∈ (g'.extent S).objects, g'.place x = .nowhere) :
      Fetching b t i batchNum live g w
      ((carve (SizeClass.classSize b.midAlignShift i) S >>= fun _ => linkSpan i S) >>= takeBatch i batchNum) w'
  | links {S : Nat} {g' : Stock} {l' : Ledger} {w' : World} (fresh : Fresh b t i live g w S g' l' w')
      (shelf : Shelf w'.mem g'.place (.free S) (w'.pages.spans S).freeList (g'.extent S).objects) :
      Fetching b t i batchNum live g w (linkSpan i S >>= takeBatch i batchNum) w'
  | ended {S : Nat} {free list : List Nat} {r : Nat × Nat × Nat} {g' : Stock} {l' : Ledger} {w' : World}
      (fetched : Batched b t i batchNum live g w S free list r g' l' w') : Fetching b t i batchNum live g w (.ret r) w'

section
variable {b : Build} {t i batchNum S : Nat} {live : List (Nat × Nat)} {g g' : Stock} {l l' : Ledger}
  {w w' : World} {free list : List Nat}
  {r : Nat × Nat × Nat} {post : Nat × Nat × Nat → List Mutex → World → Prop} {thrown : List Mutex → World → Prop}

/-- Descriptors with the same pages and marks, one of them written. -/
theorem write_same (pages : Pages) {f : Span → Span} (shape : ∀ s, (f s).extent = s.extent ∧ (f s).isUse = s.isUse)
    (T : Nat) :
    ((pages.write S f).spans T).isUse = (pages.spans T).isUse ∧
    ((pages.write S f).spans T).pages = (pages.spans T).pages := by
  by_cases same : T = S
  · subst same
    rw [Pages.write_self]
    exact ⟨(shape _).2,Span.pages_eq (shape _).1⟩
  · rw [Pages.write_other pages f same]
    exact ⟨rfl,rfl⟩

theorem cutOff_same {last n : Nat} {lists : Nat → List Nat} (T : Nat) :
    ((w.cutOff S last n lists).pages.spans T).isUse = (w.pages.spans T).isUse ∧
      ((w.cutOff S last n lists).pages.spans T).pages = (w.pages.spans T).pages := by
  unfold cutOff
  dsimp only
  apply write_same w.pages
  exact fun _ => ⟨rfl,rfl⟩

theorem withCarved_same {m : Memory} (T : Nat) : ((w.withCarved S m).pages.spans T).isUse = (w.pages.spans T).isUse ∧
    ((w.withCarved S m).pages.spans T).pages = (w.pages.spans T).pages := by
  unfold withCarved
  dsimp only
  apply write_same w.pages
  exact fun _ => ⟨rfl,rfl⟩

theorem cutOff_other {last n T : Nat} {lists : Nat → List Nat} (ne : T ≠ S) :
    (w.cutOff S last n lists).pages.spans T = w.pages.spans T := by
  unfold cutOff
  dsimp only
  apply Pages.write_other
  exact ne

theorem withCarved_other {m : Memory} {T : Nat} (ne : T ≠ S) : (w.withCarved S m).pages.spans T = w.pages.spans T := by
  unfold withCarved
  dsimp only
  apply Pages.write_other
  exact ne

/-- The batch is cut off the list of a span in the bucket. -/
theorem fetched_bucket {A B : List Nat} {last : Nat} (books : Books b g l w live) (tidy : Tidy l)
    (home : g.home S = some (.listed i))
    (counted : Counted g w S free) (split : free = A ++ last :: B)
    (short : A.length = min (minus batchNum 1) (free.length - 1))
    (works : Works b t live g l w (g.move (A ++ [last]) (.transit t)) l' (w.cutOff S last (1 + A.length) w.spanLists))
    (carries : Carries (g.move (A ++ [last]) (.transit t)) t (SizeClass.classSize b.midAlignShift i) (A ++ [last]))
    (chain : Chain (w.cutOff S last (1 + A.length) w.spanLists).mem (w.pages.spans S).freeList (A ++ [last])) :
    Batched b t i batchNum live g w S free (A ++ [last]) ((w.pages.spans S).freeList,last,1 + A.length)
      (g.move (A ++ [last]) (.transit t)) l' (w.cutOff S last (1 + A.length) w.spanLists) := by
  refine ⟨works.books,works.tidy tidy,carries,chain,⟨A,B,split,rfl,short⟩,?_,fun x mem => ?_,
    counted.shelf.holding.nodup,home,fun _ _ => rfl,
    fun _ _ => rfl,fun T x _ away => ?_,fun T ne _ => ?_,.inl ⟨home,counted.shelf,rfl,Pages.freePage_congr rfl cutOff_same⟩⟩
  · simp only [List.length_append,List.length_singleton]; omega
  · exact (books.stock.free_mem (counted.shelf.holding.at_place mem)).2
  · rw [show (g.move (A ++ [last]) (.transit t)).place x = g.place x from moved_of_not_mem away]
  · exact cutOff_other ne

/-- The span that the thread has taken is new to it. -/
theorem fresh_taken {s : Span} {pages : Pages} (books : Books b g l w live) (tidy : Tidy l)
    (idle : ∀ x, g.place x ≠ .transit t)
    (unused : l.used S = none) (books' : Books b (taking g t S s) (l.take S s) { w with pages := pages } live)
    (tidy' : Tidy l → Tidy (l.take S s)) (span : HoldsSpan (taking g t S s) { w with pages := pages } t S
    (SizeClass.classSize b.midAlignShift i))
    (drawn : Pages.Drawn w.pages S pages) : Fresh b t i live g w S (taking g t S s) (l.take S s)
    { w with pages := pages } := by
  have place : (taking g t S s).place = g.place := moved_nil (q := .transit t)
  refine ⟨books',tidy' tidy,(books.used S).mp unused,span,by rw [place]; exact idle,fun T ne => Function.update_of_ne ne ..,
    fun T ne => Function.update_of_ne ne ..,fun x _ => by rw [place],fun T ne home => ?_,rfl,drawn⟩
  exact books.others books'.settled (fun T ne => Ledger.take_other l s ne) home ne

/-- It stays so when its objects are carved. -/
theorem Fresh.carved {m : Memory} (fresh : Fresh b t i live g w S g' l w')
    (works : Works b t live g' l w' (g'.move (g'.extent S).objects (.free S)) l' (w'.withCarved S m))
    (span : HoldsSpan (g'.move (g'.extent S).objects (.free S)) (w'.withCarved S m) t S
    (SizeClass.classSize b.midAlignShift i)) :
    Fresh b t i live g w S (g'.move (g'.extent S).objects (.free S)) l' (w'.withCarved S m) := by
  refine ⟨works.books,works.tidy fresh.tidy,fresh.unused,span,fun x here => ?_,fresh.home,fresh.extent,
    fun x away => ?_,fun T ne home => ?_,
    fresh.lists,fresh.drawn.congr rfl rfl withCarved_same⟩
  · by_cases mem : x ∈ (g'.extent S).objects
    · rw [show (g'.move (g'.extent S).objects (.free S)).place x = .free S from moved_of_mem mem] at here; cases here
    · rw [show (g'.move (g'.extent S).objects (.free S)).place x = g'.place x from moved_of_not_mem mem] at here
      exact fresh.idle x here
  · exact (moved_of_not_mem away).trans (fresh.place x away)
  · exact (withCarved_other ne).trans (fresh.others T ne home)

/-- The batch is cut off the list of the new span. -/
theorem Fresh.fetched {A B : List Nat} {last : Nat} (base : Books b g l w live)
    (fresh : Fresh b t i live g w S g' l' w') {l'' : Ledger}
    (shelf : Shelf w'.mem g'.place (.free S) (w'.pages.spans S).freeList (g'.extent S).objects)
    (unlisted : S ∉ w'.spanLists i)
    (split : (g'.extent S).objects = A ++ last :: B)
    (short : A.length = min (minus batchNum 1) ((g'.extent S).objects.length - 1))
    (works : Works b t live g' l' w' ((g'.move (A ++ [last]) (.transit t)).rehome S (.listed i)) l''
      (w'.cutOff S last (1 + A.length) (Function.update w'.spanLists i (S :: w'.spanLists i))))
    (carries : Carries ((g'.move (A ++ [last]) (.transit t)).rehome S (.listed i)) t
    (SizeClass.classSize b.midAlignShift i) (A ++ [last]))
    (chain : Chain (w'.cutOff S last (1 + A.length) (Function.update w'.spanLists i (S :: w'.spanLists i))).mem
      (w'.pages.spans S).freeList (A ++ [last])) :
    Batched b t i batchNum live g w S (g'.extent S).objects (A ++ [last]) ((w'.pages.spans S).freeList,last,1 + A.length)
      ((g'.move (A ++ [last]) (.transit t)).rehome S (.listed i)) l''
      (w'.cutOff S last (1 + A.length) (Function.update w'.spanLists i (S :: w'.spanLists i))) := by
  have ne_of : ∀ T, g.home T ≠ none → T ≠ S := fun T home same => home (same ▸ fresh.unused)
  have stays : ∀ x, x ∉ A ++ [last] → ((g'.move (A ++ [last]) (.transit t)).rehome S (.listed i)).place x = g'.place x :=
    fun x away => moved_of_not_mem away
  refine ⟨works.books,works.tidy fresh.tidy,carries,chain,⟨A,B,split,rfl,short⟩,?_,fun x mem => mem,shelf.holding.nodup,
    Function.update_self ..,fun T ne => (Function.update_of_ne ne ..).trans (fresh.home T ne),fun T home =>
    fresh.extent T (ne_of T home),
    fun T x home away => ?_,fun T ne home => (cutOff_other ne).trans (fresh.others T ne home),
    .inr ⟨fresh.unused,rfl,fun x mem => ?_,?_,?_,?_⟩⟩
  · simp only [List.length_append,List.length_singleton]; omega
  · rw [stays x away]
    by_cases mem : x ∈ (g'.extent S).objects
    · -- An object of the new span is on its list, and was on none.
      have here := shelf.holding.at_place mem
      constructor
      · intro there
        rw [here] at there
        exact absurd (Place.free.inj there).symm (ne_of T home)
      · intro there
        obtain ⟨_,inT⟩ := base.stock.free_mem there
        rw [← fresh.extent T (ne_of T home)] at inT
        have used : g'.home T ≠ none := by rw [fresh.home T (ne_of T home)]; exact home
        exact absurd (fresh.books.stock.owner_unique used (by rw [fresh.span.home]; simp) inT mem) (ne_of T home)
    · rw [fresh.place x mem]
  · by_cases mem' : x ∈ A ++ [last]
    · exact .inr mem'
    · exact .inl ((stays x mem').trans (shelf.holding.at_place mem))
  · rw [← fresh.lists]; exact unlisted
  · show Function.update w'.spanLists i (S :: w'.spanLists i) = _
    rw [fresh.lists]
  · exact fresh.drawn.congr rfl rfl cutOff_same

/-- Each section of the call leads to the next point of it. -/
theorem Fetching.step {p : Code World (Nat × Nat × Nat)} (base : Books b g l w live) (tidy : Tidy l)
    (idle : ∀ x, g.place x ≠ .transit t)
    (inside : i < SizeClass.nfreelists b.midAlignShift) (low : 1 ≤ batchNum) (now : Fetching b t i batchNum live g w p w') :
    sec sections (Fetching b t i batchNum live g w) p [] w' (fun r h w' => h = [] ∧ ∃ S free list g' l',
    Batched b t i batchNum live g w S free list r g' l' w')
      (fun _ _ => False) := by
  have class_ : IsClass b (SizeClass.classSize b.midAlignShift i) := ⟨i,inside,rfl⟩
  cases now with
  | begins =>
    apply fetchRangeObj_sec base low (SizeClass.classSize_le b.coarse inside)
      (SizeClass.index_classSize b.coarse inside) idle .takes
    intro S free A last B l' home counted split short works carries chain
    rw [(base.stock.classed S i home).2.1] at carries
    exact .ended (fetched_bucket base tidy home counted split short works carries chain)
  | takes =>
    rw [sec_seq,sec_seq]
    apply newSpan_sec (t := t) base class_
    intro S s pages unused books' _ tidy' span empty drawn
    have nonzero := books'.settled.live_ne_zero (books'.settled.used S s (Ledger.take_self ..)).1.1
    have next : Fetching b t i batchNum live g w _ _ :=
      .carves (fresh_taken base tidy idle unused books' tidy' span drawn) empty
    simp only [Prog.bind]
    rw [carveSpan_some nonzero]
    exact next
  | carves fresh empty =>
    rw [sec_seq,sec_seq]
    apply carve_sec fresh.books fresh.span empty
    intro m l' works span shelf
    exact .links (fresh.carved works span) shelf
  | links fresh shelf =>
    apply linkSpan_sec fresh.books inside fresh.span shelf fresh.idle
    intro A last B l' unlisted split short works carries chain
    exact .ended (fresh.fetched base shelf unlisted split short works carries chain)
  | ended fetched => exact ⟨rfl,_,_,_,_,_,fetched⟩

/-- So the call returns with a batch. -/
theorem fetchRangeObj_fetched (base : Books b g l w live) (tidy : Tidy l) (idle : ∀ x, g.place x ≠ .transit t)
    (inside : i < SizeClass.nfreelists b.midAlignShift) (low : 1 ≤ batchNum) :
    wp sections (fetchRangeObj b batchNum (SizeClass.classSize b.midAlignShift i)) [] w
      (fun r h w' => h = [] ∧ ∃ S free list g' l', Batched b t i batchNum live g w S free list r g' l' w')
      (fun _ _ => False) := by
  apply run_of_sections (J := Fetching b t i batchNum live g w)
    (P := fun r w' => ∃ S free list g' l', Batched b t i batchNum live g w S free list r g' l' w')
  · intro p v now
    exact now.step base tidy idle inside low
  · exact .begins

end

/-! ### What it returns -/

/-- `r` has the first objects of the list `free` of the span `S`, at most `batchNum`,
    in a chain of their own. -/
structure FirstOf (w : World) (batchNum S : Nat) (free : List Nat) (r : Nat × Nat × Nat) : Prop where
  nodup : free.Nodup
  inside : ∀ x ∈ free, x ∈ (w.pages.spans S).extent.objects
  number : 1 ≤ r.2.2 ∧ r.2.2 = min batchNum free.length
  chain : Chain w.mem r.1 (free.take r.2.2)
  last : (free.take r.2.2).getLast? = some r.2.1

/-- What `FetchRangeObj` returns from the state `w` in the state `w'`: objects of the
    list of a span in the bucket, or of a new span, whose list has all its objects. -/
def Serves (w : World) (i batchNum : Nat) (r : Nat × Nat × Nat) (w' : World) : Prop :=
  ∃ S free, S ∈ w'.spanLists i ∧ FirstOf w' batchNum S free r ∧
    (S ∈ w.spanLists i ∧ Chain w.mem (w.pages.spans S).freeList free ∨
      ¬ w.pages.InUse S ∧ free = (w'.pages.spans S).extent.objects)

/-- The state `w'` is as `w` was, but for the order of lists of objects, and for the
    pages of a refill between `w` and `v`. Of the spans in no bucket it says that their
    descriptors are the same, and nothing of the memory that their lists go through. -/
structure Neutral (w v w' : World) : Prop where
  lists : w'.spanLists = w.spanLists
  inUse : ∀ S, w'.pages.InUse S ↔ w.pages.InUse S
  spans : ∀ S, w.pages.InUse S →
    (w'.pages.spans S).extent = (w.pages.spans S).extent ∧ (w'.pages.spans S).useCount = (w.pages.spans S).useCount
  objects : ∀ i, ∀ S ∈ w.spanLists i, ∃ free free', Chain w.mem (w.pages.spans S).freeList free ∧
    Chain w'.mem (w'.pages.spans S).freeList free' ∧ free.Nodup ∧ free'.Perm free
  unlisted : ∀ S, w.pages.InUse S → (∀ i, S ∉ w.spanLists i) → w'.pages.spans S = w.pages.spans S
  freePages : (∀ q, w'.pages.FreePage q ↔ w.pages.FreePage q) ∨
    ∃ base, v.pages.os.spanMappings = ⟨base,128 * 2 ^ pageShift,.refill⟩ :: w.pages.os.spanMappings ∧
      ∀ q, w'.pages.FreePage q ↔ w.pages.FreePage q ∨ base >>> pageShift ≤ q ∧ q < base >>> pageShift + 128

section
variable {b : Build} {t i batchNum S T x : Nat} {live : List (Nat × Nat)} {g g' g'' : Stock}
  {l l' l'' : Ledger} {w v w' : World}
  {free list log : List Nat} {r : Nat × Nat × Nat}

theorem Batched.from_free (fetched : Batched b t i batchNum live g w S free list r g' l' v) : ∀ x ∈ list, x ∈ free := by
  obtain ⟨A,B,split,same,_⟩ := fetched.cut
  rw [split,same]
  intro x mem
  rw [List.mem_append,List.mem_singleton] at mem
  rw [List.mem_append,List.mem_cons]
  exact mem.imp_right .inl

theorem Batched.counts (fetched : Batched b t i batchNum live g w S free list r g' l' v) (low : 1 ≤ batchNum)
    (word : batchNum < 2 ^ 64) :
    (1 ≤ r.2.2 ∧ r.2.2 = min batchNum free.length) ∧ free.take r.2.2 = list ∧ list.getLast? = some r.2.1 := by
  obtain ⟨A,B,split,same,short⟩ := fetched.cut
  have number := fetched.number
  have length := congrArg List.length split
  rw [minus_pred low word] at short
  rw [same,List.length_append,List.length_singleton] at number
  rw [List.length_append,List.length_cons] at length
  refine ⟨⟨by omega,by omega⟩,?_,?_⟩
  · rw [split,show A ++ r.2.1 :: B = list ++ B by rw [same]; simp]
    apply List.take_left'
    exact fetched.number.symm
  · rw [same]; simp

/-- A span of a class has no more objects than a round of the loops takes. -/
theorem Batched.few (fetched : Batched b t i batchNum live g w S free list r g' l' v) (low : 1 ≤ batchNum)
    (word : batchNum < 2 ^ 64) :
    list.length ≤ 1023 := by
  obtain ⟨⟨_,count⟩,_⟩ := fetched.counts low word
  have number := fetched.number
  have most := (fetched.nodup.subperm fetched.inside).length_le
  obtain ⟨_,_,pages⟩ := fetched.books.stock.classed S i fetched.listed
  have big := (fetched.books.stock.sound S (by rw [fetched.listed]; simp)).word
  have few := SizeClass.numMovePage_few big
  rw [Extent.objects,List.length_map,List.length_range,Extent.count,Extent.bytes,pages] at most
  have shift : (2 : Nat) ^ pageShift = 8192 := rfl
  rw [shift] at most
  omega

theorem Batched.serves (base : Books b g l w live) (fetched : Batched b t i batchNum live g w S free list r g' l' v)
    (low : 1 ≤ batchNum)
    (word : batchNum < 2 ^ 64) : Serves w i batchNum r v := by
  obtain ⟨number,take,last⟩ := fetched.counts low word
  have extent := fetched.books.extent_eq (S := S) (by rw [fetched.listed]; simp)
  refine ⟨S,free,(fetched.books.buckets i S).mpr fetched.listed,⟨fetched.nodup,?_,number,?_,?_⟩,?_⟩
  · rw [extent]; exact fetched.inside
  · rw [take]; exact fetched.chain
  · rw [take]; exact last
  · apply fetched.source.imp
    · intro bucket
      exact ⟨(base.buckets i S).mpr bucket.home,bucket.shelf.chain⟩
    · intro new
      rw [base.inUse_iff,not_not,extent]
      exact ⟨new.unused,new.whole⟩

/-! ### The release after it -/

/-- What is in the hands of the thread of a span that was there before was on its list. -/
theorem Batched.was_free (base : Books b g l w live) (fetched : Batched b t i batchNum live g w S free list r g' l' v)
    (home : g.home T ≠ none)
    (mem : x ∈ list) (inT : x ∈ (g.extent T).objects) : g.place x = .free T := by
  have inFree := fetched.from_free x mem
  rcases fetched.source with bucket | new
  · have there := bucket.shelf.holding.at_place inFree
    obtain ⟨homeS,inS⟩ := base.stock.free_mem there
    rw [base.stock.owner_unique home homeS inT inS]
    exact there
  · have ne : T ≠ S := fun same => home (same ▸ new.unused)
    rw [← fetched.extent T home] at inT
    have used : g'.home T ≠ none := by rw [fetched.home T ne]; exact home
    exact absurd (fetched.books.stock.owner_unique used (by rw [fetched.listed]; simp) inT (fetched.inside x inFree)) ne

/-- A span that was in the bucket has an object that is out, and is not released. -/
theorem Batched.stays (base : Books b g l w live) (fetched : Batched b t i batchNum live g w S free list r g' l' v)
    (progress : Progress b t i live g' v list [] log log g'' l'' w') (home : g.home T ≠ none) : T ∉ log := by
  intro gone
  obtain ⟨home',all⟩ := progress.emptied T gone
  have listed : g.home T = some (.listed i) := by
    by_cases same : T = S
    · rcases fetched.source with bucket | new
      · rw [same]; exact bucket.home
      · exact absurd (same ▸ new.unused) home
    · rw [← fetched.home T same]; exact home'
  obtain ⟨objs,counted⟩ := base.shelved (.free T) i listed
  have out := counted.out
  rw [counted.out_length base.stock home,List.length_pos_iff_exists_mem] at out
  obtain ⟨y,mem⟩ := out
  simp only [List.mem_filter,decide_eq_true_eq,counted.shelf.holding.mem] at mem
  by_cases held : y ∈ list
  · exact mem.2 (fetched.was_free base home held mem.1)
  · have there := (all y (by rw [fetched.extent T home]; exact mem.1)).resolve_right held
    exact mem.2 ((fetched.place T y home held).mp there)

/-- The span that is released is a new one. -/
theorem Batched.released_iff (base : Books b g l w live) (fetched : Batched b t i batchNum live g w S free list r g' l' v)
    (progress : Progress b t i live g' v list [] log log g'' l'' w') : T ∈ log ↔ T = S ∧ g.home S = none := by
  have hands : ∀ x ∈ list, g'.place x = .transit t := fun x mem => fetched.carries.holding.at_place mem
  constructor
  · intro gone
    have none : g.home T = none := by
      by_contra home
      exact fetched.stays base progress home gone
    have same : T = S := by
      by_contra ne
      have home' := (progress.emptied T gone).1
      rw [fetched.home T ne,none] at home'; cases home'
    exact ⟨same,same ▸ none⟩
  · rintro ⟨rfl,none⟩
    rw [progress.released_iff fetched.books hands]
    refine ⟨(fetched.books.buckets i T).mpr fetched.listed,fun x out => ?_⟩
    obtain ⟨⟨_,inT⟩,_,away⟩ := out.place fetched.books
    rcases fetched.source with bucket | new
    · rw [bucket.home] at none; cases none
    · rw [← new.whole] at inT
      exact (new.rest x inT).resolve_left (away T)

/-- After the release an object is on the list that it was on before the fetch. -/
theorem Batched.free_iff (base : Books b g l w live) (fetched : Batched b t i batchNum live g w S free list r g' l' v)
    (progress : Progress b t i live g' v list [] log log g'' l'' w') (home : g.home T ≠ none) (home' : g'.home T ≠ none) :
    g''.place x = .free T ↔ g.place x = .free T := by
  have hands : ∀ x ∈ list, g'.place x = .transit t := fun x mem => fetched.carries.holding.at_place mem
  rw [progress.free_iff fetched.books hands home' (fetched.stays base progress home),fetched.extent T home]
  by_cases mem : x ∈ list
  · rw [hands x mem]
    constructor
    · rintro (elsewhere | ⟨_,inT⟩)
      · cases elsewhere
      · exact fetched.was_free base home mem inT
    · intro there
      exact .inr ⟨mem,(base.stock.free_mem there).2⟩
  · rw [fetched.place T x home mem]
    simp [mem]

theorem Batched.lists_back (base : Books b g l w live) (fetched : Batched b t i batchNum live g w S free list r g' l' v)
    (progress : Progress b t i live g' v list [] log log g'' l'' w') : w'.spanLists = w.spanLists := by
  have kept : ∀ L : List Nat, (∀ T ∈ L, T = S → g.home S ≠ none) → L.filter (· ∉ log) = L := by
    intro L old
    rw [List.filter_eq_self]
    intro T mem
    simp only [decide_eq_true_eq]
    intro gone
    obtain ⟨same,none⟩ := (fetched.released_iff base progress).mp gone
    exact old T mem same none
  rw [progress.lists]
  rcases fetched.source with bucket | new
  · rw [bucket.lists,kept _ (fun T _ _ => by rw [bucket.home]; simp),Function.update_eq_self]
  · have gone : S ∈ log := (fetched.released_iff base progress).mpr ⟨rfl,new.unused⟩
    have rest : (w.spanLists i).filter (· ∉ log) = w.spanLists i :=
      kept _ (fun T mem same => absurd (same ▸ mem) new.unlisted)
    rw [new.lists,Function.update_self,Function.update_idem,List.filter_cons_of_neg (by simp [gone]),
      rest,Function.update_eq_self]

theorem Batched.freePages_back (base : Books b g l w live) (fetched : Batched b t i batchNum live g w S free list r g' l' v)
    (progress : Progress b t i live g' v list [] log log g'' l'' w') : (∀ q, w'.pages.FreePage q ↔ w.pages.FreePage q) ∨
      ∃ base, v.pages.os.spanMappings = ⟨base,128 * 2 ^ pageShift,.refill⟩ :: w.pages.os.spanMappings ∧
        ∀ q, w'.pages.FreePage q ↔ w.pages.FreePage q ∨ base >>> pageShift ≤ q ∧ q < base >>> pageShift + 128 := by
  rcases fetched.source with bucket | new
  · left
    intro q
    rw [progress.freePages,bucket.freePages]
    simp [fetched.released_iff base progress,bucket.home]
  · have pages : ∀ q, w'.pages.FreePage q ↔ v.pages.FreePage q ∨ q ∈ (v.pages.spans S).pages := by
      intro q
      rw [progress.freePages]
      simp [fetched.released_iff base progress,new.unused]
    rcases new.drawn with ⟨_,same⟩ | ⟨start,mapped,more⟩
    · exact .inl (fun q => (pages q).trans (same q))
    · exact .inr ⟨start,mapped,fun q => (pages q).trans (more q)⟩

/-- A fetch and the release of its batch leave the state as it was. -/
theorem Batched.neutral (base : Books b g l w live) (fetched : Batched b t i batchNum live g w S free list r g' l' v)
    (progress : Progress b t i live g' v list [] log log g'' l'' w') : Neutral w v w' := by
  have home_iff : ∀ T, g''.home T = g.home T := by
    intro T
    by_cases gone : T ∈ log
    · obtain ⟨rfl,none⟩ := (fetched.released_iff base progress).mp gone
      rw [progress.dropped T gone,none]
    · rw [progress.home T gone]
      by_cases same : T = S
      · rcases fetched.source with bucket | new
        · rw [same,fetched.listed,bucket.home]
        · exact absurd ((fetched.released_iff base progress).mpr ⟨same,new.unused⟩) gone
      · exact fetched.home T same
  have home' : ∀ T, g.home T ≠ none → g'.home T ≠ none := by
    intro T home
    rw [← progress.home T (fetched.stays base progress home),home_iff T]
    exact home
  have untouched : ∀ T, T ≠ S → g.home T ≠ none → w'.pages.spans T = w.pages.spans T := by
    intro T ne home
    rw [progress.others T (fetched.stays base progress home) (home' T home),fetched.others T ne home]
    intro x mem inT
    have inS := fetched.inside x (fetched.from_free x mem)
    exact ne (fetched.books.stock.owner_unique (home' T home) (by rw [fetched.listed]; simp) inT inS)
  -- The lists of a span in a bucket have the same objects, so as many are out.
  have shelves : ∀ j T, g.home T = some (.listed j) → ∃ objs objs', Counted g w T objs ∧
    Counted g'' w' T objs' ∧ objs'.Perm objs := by
    intro j T listed
    have home : g.home T ≠ none := by rw [listed]; simp
    obtain ⟨objs,counted⟩ := base.shelved (.free T) j listed
    obtain ⟨objs',counted'⟩ := progress.books.shelved (.free T) j ((home_iff T).trans listed)
    refine ⟨objs,objs',counted,counted',?_⟩
    rw [List.perm_ext_iff_of_nodup counted'.shelf.holding.nodup counted.shelf.holding.nodup]
    intro x
    rw [counted'.shelf.holding.mem,counted.shelf.holding.mem]
    exact fetched.free_iff base progress home (home' T home)
  have extents : ∀ T, g.home T ≠ none → g''.extent T = g.extent T := by
    intro T home
    rw [progress.extent]
    exact fetched.extent T home
  refine ⟨fetched.lists_back base progress,fun T => ?_,fun T inUse => ⟨?_,?_⟩,fun j T mem => ?_,fun T inUse away => ?_,
    fetched.freePages_back base progress⟩
  · rw [progress.books.inUse_iff,base.inUse_iff,home_iff T]
  · have home := base.inUse_iff.mp inUse
    rw [progress.books.extent_eq (by rw [home_iff T]; exact home),base.extent_eq home]
    exact extents T home
  · have home := base.inUse_iff.mp inUse
    by_cases same : T = S
    · have listed : g.home T = some (.listed i) := by
        rw [← home_iff T,progress.home T (fetched.stays base progress home),same]
        exact fetched.listed
      obtain ⟨objs,objs',counted,counted',perm⟩ := shelves i T listed
      have count := counted.count
      have count' := counted'.count
      rw [extents T home,perm.length_eq] at count'
      omega
    · rw [untouched T same home]
  · obtain ⟨objs,objs',counted,counted',perm⟩ := shelves j T ((base.buckets j T).mp mem)
    exact ⟨objs,objs',counted.shelf.chain,counted'.shelf.chain,counted.shelf.holding.nodup,perm⟩
  · have home := base.inUse_iff.mp inUse
    apply untouched T
    · rintro rfl
      rcases fetched.source with bucket | new
      · exact away i ((base.buckets i T).mpr bucket.home)
      · exact home new.unused
    · exact home

end

/-! ### The fetch does not look at thread caches -/

section
variable {b : Build} {pool : ObjectPool} {w v w' : World} {i batchNum size npage S : Nat} {r : Nat × Nat × Nat}

theorem takeSpan_blind : (takeSpan b npage size).Blind (bare pool) := by
  apply Prog.Blind.holding
  refine (pages_blind _).seq (fun span => (pages_blind _).seq (fun _ => (pages_blind _).seq (fun _ => ?_)))
  trivial

theorem firstFree_blind (list : List Nat) : (firstFree list).Blind (bare pool) := by
  induction list with
  | nil => trivial
  | cons it later ih =>
    refine (pages_blind _).seq (fun s => ?_)
    split_ifs
    · trivial
    · exact ih

theorem carve_blind : (carve size S).Blind (bare pool) := by
  apply Prog.blind_step
  intro w
  simp only [show (w.bare pool).pages = w.pages from rfl,show (w.bare pool).mem = w.mem from rfl]
  generalize carveFrom size _ _ w.mem _ _ = result
  cases result with
  | ok m => rfl
  | error why => rfl

theorem carveSpan_blind : (carveSpan i size S).Blind (bare pool) := by
  refine (Prog.blind_require _ _).seq (fun _ => carve_blind.seq (fun _ => Prog.Blind.seq trivial (fun _ => ?_)))
  refine .seq (Prog.blind_modify (fun _ => rfl)) (fun _ => ?_)
  trivial

theorem getOneSpan_blind : (getOneSpan b i size).Blind (bare pool) := by
  unfold getOneSpan
  refine .seq (Prog.blind_read (fun _ => rfl)) (fun list => (firstFree_blind list).seq (fun found => ?_))
  cases found with
  | some it => trivial
  | none =>
    refine Prog.Blind.seq trivial (fun _ => takeSpan_blind.seq (fun newSpan => ?_))
    exact carveSpan_blind

theorem takeBatch_blind : (takeBatch i batchNum S).Blind (bare pool) := by
  refine (Prog.blind_require _ _).seq (fun _ => .seq ?_ (fun batch => Prog.Blind.seq trivial (fun _ => trivial)))
  refine (pages_blind _).seq (fun s => (Prog.blind_require _ _).seq
    (fun _ => .seq (Prog.blind_read (fun _ => rfl)) (fun batch => ?_)))
  refine .seq (Prog.blind_read (fun _ => rfl)) (fun next => (pages_blind _).seq (fun _ => ?_))
  refine .seq (Prog.blind_modify (fun _ => rfl)) (fun _ => (pages_blind _).seq (fun _ => ?_))
  trivial

theorem fetchRangeObj_blind : (fetchRangeObj b batchNum size).Blind (bare pool) := by
  refine (Prog.blind_require _ _).seq (fun _ => (Prog.blind_require _ _).seq (fun _ => Prog.Blind.seq trivial (fun _ => ?_)))
  exact getOneSpan_blind.seq (fun span => takeBatch_blind)

theorem Serves.of_bare (serves : Serves (w.bare pool) i batchNum r (v.bare pool)) : Serves w i batchNum r v := by
  obtain ⟨S,free,listed,first,source⟩ := serves
  exact ⟨S,free,listed,⟨first.nodup,first.inside,first.number,first.chain,first.last⟩,source⟩

theorem Neutral.of_bare (neutral : Neutral (w.bare pool) (v.bare pool) (w'.bare pool)) : Neutral w v w' :=
  ⟨neutral.lists,neutral.inUse,neutral.spans,neutral.objects,neutral.unlisted,neutral.freePages⟩

end

namespace Program

/-- From every state that a run of small blocks reaches, `FetchRangeObj` returns the
    first objects of a span's list, and `ReleaseListToSpans` with them leaves the
    buckets, the counts, the objects on each list and the free pages as they were. The
    system is assumed never to fail, before and in between, and to answer on 8 KB boundaries. -/
theorem fetch_release_neutral (b : Build) {mem : Memory} {M : Program}
    (reached : Reaches b (.upTo maxBytes) (start mem) M) {i batchNum : Nat}
    (inside : i < SizeClass.nfreelists b.midAlignShift) (low : 1 ≤ batchNum) (word : batchNum < 2 ^ 64)
    (enough : 1023 < b.rounds) :
    wp sections (fetchRangeObj b batchNum (SizeClass.classSize b.midAlignShift i)) [] M.world
      (fun r h v => h = [] ∧ Serves M.world i batchNum r v ∧
        wp sections (releaseListToSpans b r.1 (SizeClass.classSize b.midAlignShift i)) [] v
          (fun _ h w' => h = [] ∧ Neutral M.world v w') (fun _ _ => False))
      (fun _ _ => False) := by
  obtain ⟨g,l,agrees⟩ := reached.agrees (fair_upTo b (by decide))
  set pool := M.world.tcPool with hpool
  have base : Books b (g.lent []) l (M.world.bare pool) [] := lent_books agrees.books (Rethreaded.refl M.world) []
  have idle : ∀ x, (g.lent []).place x ≠ .transit 0 := fun x here => by
    have mem := (lent_transit.mp here).1
    cases mem
  have fetch := fetchRangeObj_fetched base (agrees.tidy trivial) idle inside low
  apply wp_post (wp_blind (bare_answers pool) (fun _ _ _ _ seen => seen) fetchRangeObj_blind fetch)
  rintro r h v ⟨none,S,free,list,g',l',fetched⟩
  refine ⟨none,(fetched.serves base low word).of_bare,?_⟩
  have some : r.1 ≠ 0 := by
    intro zero
    have empty := fetched.chain.head_eq_zero.mp zero
    have number := fetched.number
    rw [empty,List.length_nil] at number
    have pos := (fetched.counts low word).1.1
    omega
  have first : Flushes b 0 i [] g' (v.bare pool) list []
    (releaseListToSpans b r.1 (SizeClass.classSize b.midAlignShift i)) (v.bare pool) := by
    have index := SizeClass.index_classSize b.coarse inside
    have few := fetched.few low word
    have begins : Flushes b 0 (SizeClass.index b.midAlignShift (SizeClass.classSize b.midAlignShift i)) [] g'
      (v.bare pool) list []
        (releaseListToSpans b r.1 (SizeClass.classSize b.midAlignShift i)) (v.bare pool) :=
      .first fetched.books fetched.tidy (SizeClass.classSize_le b.coarse inside) some fetched.chain
      (by rw [index]; exact fetched.carries) (by omega)
    rw [index] at begins
    exact begins
  have release := wp_blind (bare_answers pool) (fun _ _ _ _ seen => seen) releaseListToSpans_blind
    (first.ends fetched.books inside)
  apply wp_post release
  intro _ h w' ended
  obtain ⟨none,log,g'',l'',progress⟩ := ended
  have neutral : Neutral (M.world.bare pool) (v.bare pool) (w'.bare pool) := fetched.neutral base progress
  exact ⟨none,neutral.of_bare⟩

/-- Three objects of 8 bytes, of which there are no spans yet. -/
theorem fetch_release_neutral_served : wp sections
    (fetchRangeObj .standard 3 (SizeClass.classSize Build.standard.midAlignShift 0)) [] served.world
    (fun r h v => h = [] ∧ Serves served.world 0 3 r v ∧
      wp sections (releaseListToSpans .standard r.1 (SizeClass.classSize Build.standard.midAlignShift 0)) [] v
        (fun _ h w' => h = [] ∧ Neutral served.world v w') (fun _ _ => False))
    (fun _ _ => False) :=
  fetch_release_neutral .standard (served_reached (show 262144 ≤ maxBytes by decide)) (by decide)
  (by decide) (by decide) (by decide)

end Program
end World
end TcAlloc
