import TcAlloc.Blind
import TcAlloc.Blocks
import TcAlloc.ReleaseLists

/-!
`ReleaseListToSpans` on the states of the central cache. A run has left the spans, the
buckets and the page cache as they are; any objects of a class that are out may then be
threaded to a batch, in any order (`Rethreaded`, `Batch`). The call does not look
at the thread caches, so these are left out (`bare`), and the objects of
the batch are laid to one thread (`Stock.lent`).
-/
namespace TcAlloc

/-- What is out of the central cache, with the objects of `list` in the hands of
    thread 0, and with no thread cache. -/
def Stock.lent (g : Stock) (list : List Nat) : Stock :=
  { g with
    cache := fun _ => 0
    place := fun x => match g.place x with
      | .nowhere => .nowhere
      | .free S => .free S
      | _ => if x ∈ list then .transit 0 else .transit 1 }

namespace World

/-- The object `x` of the span `S` in the bucket `i` is not on the list of the span. -/
def Out (w : World) (i S x : Nat) : Prop := S ∈ w.spanLists i ∧ x ∈ (w.pages.spans S).extent.objects ∧
  ∃ free, Chain w.mem (w.pages.spans S).freeList free ∧ x ∉ free

/-- The same page cache and buckets, with other contents of objects that are out. -/
structure Rethreaded (u w : World) : Prop where
  pages : w.pages = u.pages
  lists : w.spanLists = u.spanLists
  mem : ∀ y, w.mem y ≠ u.mem y → ∃ i S x, u.Out i S x ∧ x ≤ y ∧ y < x + (u.pages.spans S).objSize

theorem Rethreaded.refl (w : World) : Rethreaded w w := ⟨rfl,rfl,fun _ changed => absurd rfl changed⟩

/-- A chain of distinct objects that are out, all of the class `i`. -/
structure Batch (w : World) (i start : Nat) (list : List Nat) : Prop where
  some : start ≠ 0
  chain : Chain w.mem start list
  nodup : list.Nodup
  out : ∀ x ∈ list, ∃ S, w.Out i S x

/-- The world without its thread caches. -/
def bare (pool : ObjectPool) (w : World) : World := { w with
  tcPool := pool
  tlsThreadCache := fun _ => 0
  freeLists := fun _ _ => {} }

section
variable {b : Build} {g : Stock} {l : Ledger} {u w : World} {live : List (Nat × Nat)} {list : List Nat} {S T i x : Nat}

/-! ### The stock without thread caches -/

theorem lent_free : (g.lent list).place x = .free S ↔ g.place x = .free S := by
  simp only [Stock.lent]
  split
  · next here => simp [here]
  · next here => simp [here]
  · next away away' =>
    constructor
    · intro same
      split_ifs at same
    · intro same
      exact absurd same (away' S)

theorem lent_somewhere : (g.lent list).place x ≠ .nowhere ↔ g.place x ≠ .nowhere := by
  simp only [Stock.lent]
  split
  · next here => simp [here]
  · next here => simp [here]
  · next away away' =>
    constructor
    · exact fun _ => away
    · intro _
      split_ifs <;> simp

theorem lent_place (somewhere : g.place x ≠ .nowhere) (away : ∀ S, g.place x ≠ .free S) :
    (g.lent list).place x = if x ∈ list then .transit 0 else .transit 1 := by
  unfold Stock.lent
  dsimp only
  cases here : g.place x with
  | nowhere => exact absurd here somewhere
  | free S => exact absurd here (away S)
  | cached tc i => rfl
  | transit t => rfl
  | live => rfl

theorem lent_transit : (g.lent list).place x = .transit 0 ↔ x ∈ list ∧ g.place x ≠ .nowhere ∧ ∀ S, g.place x ≠ .free S := by
  constructor
  · intro same
    have somewhere : g.place x ≠ .nowhere := lent_somewhere.mp (by rw [same]; simp)
    have away : ∀ S, g.place x ≠ .free S := fun S here => by
      rw [lent_free.mpr here] at same; cases same
    rw [lent_place somewhere away] at same
    by_cases mem : x ∈ list
    · exact ⟨mem,somewhere,away⟩
    · rw [if_neg mem] at same; cases same
  · rintro ⟨mem,somewhere,away⟩
    rw [lent_place somewhere away,if_pos mem]

theorem lent_valid (valid : g.Valid b live) : (g.lent list).Valid b [] := by
  refine ⟨valid.sound,valid.classed,valid.large,valid.apart,fun x somewhere => ?_,fun S i home x mem =>
    lent_somewhere.mpr (valid.whole S i home x mem),
    by simp,List.nodup_nil,fun x served => ?_⟩
  · have somewhere' := lent_somewhere.mp somewhere
    obtain ⟨S,h,home,mem,suits⟩ := valid.placed x somewhere'
    refine ⟨S,h,home,mem,?_⟩
    by_cases free : ∃ T, g.place x = .free T
    · obtain ⟨T,here⟩ := free
      rw [lent_free.mpr here]
      rw [here] at suits; exact suits
    · have apart : ∀ t, h ≠ .held t := fun t => by
        cases here : g.place x with
        | nowhere => exact absurd here somewhere'
        | free T => exact absurd ⟨T,here⟩ free
        | cached tc i =>
          rw [here] at suits
          rw [show h = .listed i from suits]; simp
        | transit v => rw [here] at suits; exact suits t
        | live => rw [here] at suits; exact suits t
      rw [lent_place somewhere' (fun T here => free ⟨T,here⟩)]
      split_ifs
      · exact apart
      · exact apart
  · have somewhere : g.place x ≠ .nowhere := lent_somewhere.mp (by rw [served]; simp)
    have away : ∀ S, g.place x ≠ .free S := fun S here => by
      rw [lent_free.mpr here] at served; cases served
    rw [lent_place somewhere away] at served
    split_ifs at served

/-- An object that is out is somewhere, and not on the list of a span. -/
theorem Out.place (out : w.Out i S x) (books : Books b g l w live) :
    (g.home S = some (.listed i) ∧ x ∈ (g.extent S).objects) ∧ g.place x ≠ .nowhere ∧ ∀ T, g.place x ≠ .free T := by
  obtain ⟨listed,mem,free,chain,away⟩ := out
  have home := (books.buckets i S).mp listed
  obtain ⟨s,_,same,extent⟩ := books.span (S := S) (by rw [home]; simp)
  rw [same,← extent] at mem
  have somewhere := books.stock.whole S i home x mem
  refine ⟨⟨home,mem⟩,somewhere,fun T here => ?_⟩
  have suits := books.stock.suits home mem somewhere
  rw [here] at suits
  obtain ⟨free',counted⟩ := books.shelved (.free S) i home
  rw [chain.unique counted.shelf.chain,counted.shelf.holding.mem] at away
  exact away (here.trans (by rw [suits.1]))

/-- And the other way round. -/
theorem out_of_place (books : Books b g l w live) (home : g.home S = some (.listed i)) (mem : x ∈ (g.extent S).objects)
    (away : g.place x ≠ .free S) :
    w.Out i S x := by
  obtain ⟨s,_,same,extent⟩ := books.span (S := S) (by rw [home]; simp)
  obtain ⟨free,counted⟩ := books.shelved (.free S) i home
  refine ⟨(books.buckets i S).mpr home,by rw [same,← extent]; exact mem,free,counted.shelf.chain,?_⟩
  rw [counted.shelf.holding.mem]
  exact away

/-- What is on the list of a span is threaded as before. -/
theorem Rethreaded.links (rethreaded : Rethreaded u w) (books : Books b g l u live) (here : g.place x = .free S) :
    w.mem.load x = u.mem.load x := by
  apply Memory.load_congr
  intro y low high
  by_contra changed
  obtain ⟨i,T,z,out,first,last⟩ := rethreaded.mem y changed
  obtain ⟨⟨home,mem⟩,_,away⟩ := out.place books
  obtain ⟨U,h,homeU,memU,_⟩ := books.stock.placed x (by rw [here]; simp)
  have used : g.home U ≠ none := by rw [homeU]; simp
  have word := (books.stock.sound U used).word
  have objSize : (g.extent T).objSize = (u.pages.spans T).objSize := by
    obtain ⟨s,_,same,extent⟩ := books.span (S := T) (by rw [home]; simp)
    rw [extent,same]; rfl
  rw [← objSize] at last
  have ne : x ≠ z := fun same => away S (same ▸ here)
  rcases books.stock.objects_apart used (by rw [home]; simp) memU mem ne with left | right <;> omega

/-- The books without the thread caches. -/
theorem lent_books (books : Books b g l u live) (rethreaded : Rethreaded u w) (list : List Nat) :
    Books b (g.lent list) l (w.bare u.tcPool) [] := by
  have pages : (w.bare u.tcPool).pages = u.pages := rethreaded.pages
  refine ⟨lent_valid books.stock,by rw [pages]; exact books.settled,books.used,books.extent,
    fun S large => by rw [pages]; exact books.unused S large,
    fun i S => ?_,fun i => ?_,fun p => ?_,?_⟩
  · rw [show (w.bare u.tcPool).spanLists = u.spanLists from rethreaded.lists]
    exact books.buckets i S
  · rw [show (w.bare u.tcPool).spanLists = u.spanLists from rethreaded.lists]
    exact books.once i
  · cases p with
    | free S =>
      intro i home
      obtain ⟨free,counted⟩ := books.shelved (.free S) i home
      have links : ∀ x ∈ free, (w.bare u.tcPool).mem.load x = u.mem.load x := fun x mem =>
        rethreaded.links books (counted.shelf.holding.at_place mem)
      refine ⟨free,⟨counted.shelf.holding.congr (fun x => lent_free),?_⟩,?_,?_⟩
      · rw [pages]; exact counted.shelf.chain.congr links
      · rw [pages]; exact counted.count
      · rw [pages]; exact counted.out
    | cached tc i =>
      refine ⟨[],Shelf.empty (fun x same => ?_),rfl,le_refl _,by simp [bare]⟩
      have somewhere : g.place x ≠ .nowhere := lent_somewhere.mp (by rw [same]; simp)
      have away : ∀ S, g.place x ≠ .free S := fun S here => by
        rw [lent_free.mpr here] at same; cases same
      rw [lent_place somewhere away] at same
      split_ifs at same
    | nowhere => trivial
    | transit t => trivial
    | live => trivial
  · exact ⟨books.caches.pool,fun _ _ => rfl,fun _ => .inl rfl,fun t some => absurd rfl some,fun t v some =>
      absurd rfl some,fun _ => .inl rfl⟩

end

/-! ### The call does not look at thread caches -/

section
variable {b : Build} {pool : ObjectPool} {w w' : World} {p p' : Code World Unit} {log : List Nat}
  {size start index span : Nat}

theorem pages_blind {α : Type} (p : Code Pages α) : (p.zoom pagesPart).Blind (bare pool) := by
  apply Prog.blind_zoom pagesPart
  · exact fun _ => rfl
  · exact fun _ _ => rfl

theorem releaseSpan_blind : (releaseSpan b span).Blind (bare pool) := (pages_blind _).holding .pageCache

theorem mapObjectToSpan_blind : (mapObjectToSpan start).Blind (bare pool) :=
  (pages_blind _).seq (fun _ => (Prog.blind_require _ _).seq (fun _ => trivial))

theorem returnObject_blind : (returnObject start).Blind (bare pool) := by
  unfold returnObject
  refine mapObjectToSpan_blind.seq (fun span => (Prog.blind_require _ _).seq (fun _ => ?_))
  refine .seq (Prog.blind_read (fun _ => rfl)) (fun next => (pages_blind _).seq (fun s => ?_))
  refine .seq (Prog.blind_modify (fun _ => rfl)) (fun _ => (pages_blind _).seq (fun _ => (pages_blind _).seq (fun _ => ?_)))
  exact (pages_blind _).seq (fun _ => trivial)

theorem unlinkSpan_blind : (unlinkSpan index span).Blind (bare pool) := by
  unfold unlinkSpan eraseSpan
  refine .seq (Prog.blind_step (fun w => ?_)) (fun _ => pages_blind _)
  by_cases linked : span ∈ w.spanLists index
  · rw [if_pos linked,if_pos (show span ∈ (w.bare pool).spanLists index from linked)]
    rfl
  · rw [if_neg linked,if_neg (show span ∉ (w.bare pool).spanLists index from linked)]
    rfl

theorem flush_blind (rounds : Nat) : (flush b index rounds start).Blind (bare pool) := by
  induction rounds generalizing start with
  | zero => trivial
  | succ rounds ih =>
    rw [flush]
    split_ifs
    · trivial
    · refine returnObject_blind.seq (fun result => ?_)
      dsimp only
      split_ifs
      · exact unlinkSpan_blind.seq
          (fun _ => Prog.Blind.seq trivial
          (fun _ => releaseSpan_blind.seq (fun _ => Prog.Blind.seq trivial (fun _ => ih))))
      · exact ih

theorem releaseListToSpans_blind : (releaseListToSpans b start size).Blind (bare pool) := by
  unfold releaseListToSpans
  exact (Prog.blind_require _ _).seq
    (fun _ => (Prog.blind_require _ _).seq (fun _ => Prog.Blind.seq trivial (fun _ => flush_blind _)))

theorem bare_answers (pool : ObjectPool) (w : World) (q : Request) (a : Option Nat) (ok : sections.allowed w q a) :
    sections.allowed (w.bare pool) q a := ok

/-- A run of a call that is blind to the thread caches is one without them. -/
theorem Hands.bare {d : Code World Unit × World} (run : Hands b (p,w) log d) (blind : p.Blind (bare pool)) :
    Hands b (p,w.bare pool) log (d.1,d.2.bare pool) ∧ d.1.Blind (World.bare pool) := by
  induction run with
  | refl => exact ⟨.refl,blind⟩
  | turn before other run ih =>
    obtain ⟨run',blind'⟩ := Section.blind run (bare_answers pool) ih.2
    exact ⟨.turn ih.1 other run',blind'⟩
  | hands before run ih =>
    obtain ⟨run',blind'⟩ := Section.blind run (bare_answers pool) ih.2
    exact ⟨.hands ih.1 run',blind'⟩

end

/-! ### What the call does -/

/-- The span `S` is about to be given to `ReleaseSpanToPageCache`, after those in `log`. -/
structure HandsOver (b : Build) (w : World) (i : Nat) (list log : List Nat) (S : Nat)
    (p : Code World Unit) (w' : World) : Prop where
  listed : S ∈ w.spanLists i ∧ S ∉ w'.spanLists i
  first : S ∉ log
  empty : (w'.pages.spans S).useCount = 0
  /-- Its list had come to be all of its objects. -/
  complete : ∃ head objs, Chain w'.mem head objs ∧ objs.Perm (w.pages.spans S).extent.objects
  /-- No object that is left belongs to a span handed over. -/
  rest : ∃ A B rounds next, list = A ++ B ∧ p = (releaseSpan b S >>= fun _ => .acquire (.bucket i) >>=
    fun _ => flush b i rounds next) ∧
    Chain w'.mem next B ∧ ∀ T ∈ log ++ [S], ∀ x ∈ B, x ∉ (w.pages.spans T).extent.objects

/-- The state between two sections of the call. -/
structure Between (b : Build) (w : World) (i : Nat) (list log : List Nat) (p : Code World Unit) (w' : World) : Prop where
  counts : ∀ S ∈ w'.spanLists i, 0 < (w'.pages.spans S).useCount
  hands : ∀ S k, p = releaseSpan b S >>= k → HandsOver b w i list log S p w'

/-- The state after the call, which has released the spans in `log`. -/
structure BatchBack (w : World) (i : Nat) (list log : List Nat) (w' : World) : Prop where
  once : log.Nodup
  released : ∀ S, S ∈ log ↔ S ∈ w.spanLists i ∧ ∀ x, w.Out i S x → x ∈ list
  lists : w'.spanLists = Function.update w.spanLists i ((w.spanLists i).filter (· ∉ log))
  kept : ∀ S, w.pages.InUse S → S ∉ log → w'.pages.InUse S ∧ (w'.pages.spans S).extent = (w.pages.spans S).extent ∧
    ((∀ x ∈ list, x ∉ (w.pages.spans S).extent.objects) → w'.pages.spans S = w.pages.spans S)
  objects : ∀ j, ∀ S ∈ w.spanLists j, S ∉ log → ∃ free free', Chain w.mem (w.pages.spans S).freeList free ∧
    Chain w'.mem (w'.pages.spans S).freeList free' ∧ free'.Nodup ∧
    (∀ x, x ∈ free' ↔ x ∈ free ∨ x ∈ list ∧ x ∈ (w.pages.spans S).extent.objects) ∧
    (w'.pages.spans S).useCount + free'.length = (w.pages.spans S).useCount + free.length ∧ 0 < (w'.pages.spans S).useCount ∧
    ((∀ x ∈ list, x ∉ (w.pages.spans S).extent.objects) → free' = free)
  freePages : ∀ q, w'.pages.FreePage q ↔ w.pages.FreePage q ∨ ∃ S ∈ log, q ∈ (w.pages.spans S).pages

section
variable {b : Build} {t i S T x : Nat} {live : List (Nat × Nat)} {g g' : Stock} {l l' : Ledger}
  {w w' : World} {A B list log : List Nat}
  {p : Code World Unit}

theorem Books.inUse_iff (books : Books b g l w live) : w.pages.InUse S ↔ g.home S ≠ none := by
  rw [books.settled.inUse_iff]
  constructor
  · rintro ⟨s,used⟩
    exact books.home_of_used used
  · intro home
    obtain ⟨s,used,_⟩ := books.span home
    exact ⟨s,used⟩

/-- What has become of an object of a span that is still there. -/
theorem Progress.free_iff (base : Books b g l w live) (hands : ∀ x ∈ list, g.place x = .transit t)
    (progress : Progress b t i live g w list [] log log g' l' w') (home : g.home S ≠ none) (still : S ∉ log) :
    g'.place x = .free S ↔ g.place x = .free S ∨ x ∈ list ∧ x ∈ (g.extent S).objects := by
  constructor
  · intro here
    have inS := (progress.books.stock.free_mem here).2
    rw [progress.extent] at inS
    by_cases mem : x ∈ list
    · exact .inr ⟨mem,inS⟩
    left
    rcases progress.place x mem with same | ⟨T,gone,there⟩
    · rw [← same]; exact here
    · obtain ⟨homeT,inT⟩ := base.stock.free_mem there
      rw [base.stock.owner_unique home homeT inS inT] at still
      exact absurd gone still
  · rintro (there | ⟨mem,inS⟩)
    · have away : x ∉ list := fun mem => by
        rw [hands x mem] at there; cases there
      rcases progress.place x away with same | ⟨T,gone,there'⟩
      · rw [same]; exact there
      · rw [there] at there'
        cases there'
        exact absurd gone still
    · obtain ⟨T,homeT,inT,there⟩ := progress.back x mem
      have same := base.stock.owner_unique home (by rw [homeT]; simp) inS inT
      rw [same] at still ⊢
      exact there still

/-- The released spans are those whose objects were all in the batch or on the list. -/
theorem Progress.released_iff (base : Books b g l w live) (hands : ∀ x ∈ list, g.place x = .transit t)
    (progress : Progress b t i live g w list [] log log g' l' w') : S ∈ log ↔ S ∈ w.spanLists i ∧ ∀ x,
    w.Out i S x → x ∈ list := by
  constructor
  · intro gone
    obtain ⟨home,all⟩ := progress.emptied S gone
    refine ⟨(base.buckets i S).mpr home,fun x out => ?_⟩
    obtain ⟨⟨_,inS⟩,_,away⟩ := out.place base
    exact (all x inS).resolve_left (away S)
  · rintro ⟨listed,all⟩
    by_contra still
    have home := (base.buckets i S).mp listed
    have home' := (progress.home S still).trans home
    obtain ⟨free,counted⟩ := progress.books.shelved (.free S) i home'
    have some := counted.out
    rw [counted.out_length progress.books.stock (by rw [home']; simp),List.length_pos_iff_exists_mem] at some
    obtain ⟨y,mem⟩ := some
    simp only [List.mem_filter,decide_eq_true_eq,counted.shelf.holding.mem,progress.extent] at mem
    rw [progress.free_iff base hands (by rw [home]; simp) still,not_or] at mem
    have inList := all y (out_of_place base home mem.1 mem.2.1)
    exact mem.2.2 ⟨inList,mem.1⟩

theorem Progress.batchBack (base : Books b g l w live) (hands : ∀ x ∈ list, g.place x = .transit t)
    (progress : Progress b t i live g w list [] log log g' l' w') : BatchBack w i list log w' := by
  refine ⟨progress.once,fun S => progress.released_iff base hands,progress.lists,fun S inUse still => ?_,
    fun j S listed still => ?_,progress.freePages⟩
  · have home := base.inUse_iff.mp inUse
    have home' : g'.home S ≠ none := by rw [progress.home S still]; exact home
    have extent := base.extent_eq home
    refine ⟨progress.books.inUse_iff.mpr home',?_,fun clear => progress.others S still home (fun x mem => ?_)⟩
    · rw [extent,progress.books.extent_eq home',progress.extent]
    · rw [← extent]; exact clear x mem
  · have home := (base.buckets j S).mp listed
    have used : g.home S ≠ none := by rw [home]; simp
    obtain ⟨free,counted⟩ := base.shelved (.free S) j home
    obtain ⟨free',counted'⟩ := progress.books.shelved (.free S) j ((progress.home S still).trans home)
    refine ⟨free,free',counted.shelf.chain,counted'.shelf.chain,counted'.shelf.holding.nodup,fun x => ?_,?_,
      counted'.out,fun clear => ?_⟩
    · rw [counted.shelf.holding.mem,counted'.shelf.holding.mem,base.extent_eq used]
      exact progress.free_iff base hands used still
    · have count' := counted'.count
      rw [progress.extent] at count'
      exact count'.trans counted.count.symm
    · have same := progress.others S still used (fun x mem => by rw [← base.extent_eq used]; exact clear x mem)
      have chain' := counted'.shelf.chain
      rw [same] at chain'
      apply chain'.unique
      apply counted.shelf.chain.congr
      intro x mem
      have there := counted.shelf.holding.at_place mem
      apply progress.written.load
      intro a inList
      apply base.stock.words_apart (by rw [hands a inList]; simp) (by rw [there]; simp)
      rintro rfl
      rw [hands a inList] at there; cases there

theorem Flushes.between (base : Books b g l w live) (nodup : list.Nodup) (hands : ∀ x ∈ list, g.place x = .transit t)
    (now : Flushes b t i live g w list log p w') : Between b w i list log p w' := by
  have counts : ∀ {g' l'}, Books b g' l' w' live → ∀ S ∈ w'.spanLists i,
    0 < (w'.pages.spans S).useCount := fun books S listed => by
    obtain ⟨free,counted⟩ := books.shelved (.free S) i ((books.buckets i S).mp listed)
    exact counted.out
  cases now with
  | takes split enough chain progress =>
    refine ⟨counts progress.books,fun S k same => ?_⟩
    have lock : Mutex.bucket i = .pageCache := (Prog.lock.inj same).1
    cases lock
  | ended progress => exact ⟨counts progress.books,fun S k same => by cases same⟩
  | @hands A B _ T rounds next g' l' _ split enough chain progress ready =>
    refine ⟨counts progress.books,fun S k same => ?_⟩
    obtain rfl := releaseSpan_unique same
    obtain ⟨home,all⟩ := progress.emptied T (List.mem_append_right log (List.mem_singleton_self T))
    have extent : ∀ U ∈ log ++ [T], (w.pages.spans U).extent = g.extent U := fun U mem =>
      base.extent_eq (by rw [(progress.emptied U mem).1]; simp)
    refine ⟨⟨(base.buckets i T).mpr home,fun listed => ?_⟩,fun old => ?_,ready.span.unused,?_,A,B,rounds,next,split,rfl,
      chain,fun U mem x inB inU => ?_⟩
    · have home' := (progress.books.buckets i T).mp listed
      rw [ready.span.home] at home'; cases home'
    · exact (List.nodup_append.mp progress.once).2.2 T old T (List.mem_singleton_self T) rfl
    · obtain ⟨head,objs,links,whole⟩ := ready.complete
      rw [progress.extent] at whole
      exact ⟨head,objs,links,by rw [extent T (by simp)]; exact whole⟩
    · rw [extent U mem] at inU
      rw [split] at nodup hands
      rcases (progress.emptied U mem).2 x inU with there | inA
      · rw [hands x (List.mem_append_right A inB)] at there; cases there
      · exact (List.nodup_append.mp nodup).2.2 x inA x inB rfl

end

/-! ### Any batch, in any order -/

section
variable {b : Build} {i S x start size : Nat} {live : List (Nat × Nat)} {g : Stock} {l : Ledger}
  {u w w' : World} {list log : List Nat}
  {p : Code World Unit} {pool : ObjectPool}

theorem Between.of_bare (between : Between b (w.bare pool) i list log p (w'.bare pool)) : Between b w i list log p w' := by
  refine ⟨between.counts,fun S k same => ?_⟩
  obtain ⟨listed,first,empty,complete,rest⟩ := between.hands S k same
  exact ⟨listed,first,empty,complete,rest⟩

theorem BatchBack.of_bare (back : BatchBack (w.bare pool) i list log (w'.bare pool)) : BatchBack w i list log w' :=
  ⟨back.once,back.released,back.lists,back.kept,back.objects,back.freePages⟩

theorem Rethreaded.out_iff (rethreaded : Rethreaded u w) (books : Books b g l u live) : w.Out i S x ↔ u.Out i S x := by
  have base := lent_books books rethreaded []
  constructor
  · intro out
    have out : (w.bare u.tcPool).Out i S x := out
    obtain ⟨⟨home,mem⟩,_,away⟩ := out.place base
    exact out_of_place books home mem (fun here => away S (lent_free.mpr here))
  · intro out
    obtain ⟨⟨home,mem⟩,_,away⟩ := out.place books
    have out : (w.bare u.tcPool).Out i S x := out_of_place base home mem (fun here => away S (lent_free.mp here))
    exact out

/-- The list of a span in a bucket is the same one. -/
theorem Rethreaded.chain (rethreaded : Rethreaded u w) (books : Books b g l u live) (listed : S ∈ u.spanLists i) :
    ∃ free, Chain u.mem (u.pages.spans S).freeList free ∧ Chain w.mem (w.pages.spans S).freeList free := by
  obtain ⟨free,counted⟩ := books.shelved (.free S) i ((books.buckets i S).mp listed)
  refine ⟨free,counted.shelf.chain,?_⟩
  rw [rethreaded.pages]
  exact counted.shelf.chain.congr (fun x mem => rethreaded.links books (counted.shelf.holding.at_place mem))

/-- The batch is in the hands of thread 0. -/
theorem lent_carries (books : Books b g l u live) (rethreaded : Rethreaded u w) (batch : Batch w i start list) :
    Carries (g.lent list) 0 (SizeClass.classSize b.midAlignShift i) list := by
  have out : ∀ x ∈ list, ∃ S, (g.home S = some (.listed i) ∧ x ∈ (g.extent S).objects) ∧
    g.place x ≠ .nowhere ∧ ∀ T, g.place x ≠ .free T :=
    fun x mem => by
      obtain ⟨S,out⟩ := batch.out x mem
      exact ⟨S,((rethreaded.out_iff books).mp out).place books⟩
  refine ⟨⟨batch.nodup,fun x => ?_⟩,fun x mem => ?_⟩
  · rw [lent_transit]
    constructor
    · intro mem
      obtain ⟨_,_,facts⟩ := out x mem
      exact ⟨mem,facts⟩
    · exact fun facts => facts.1
  · obtain ⟨S,⟨home,inS⟩,_⟩ := out x mem
    exact ⟨S,by rw [show (g.lent list).home = g.home from rfl,home]; simp,inS,(books.stock.classed S i home).2.1⟩

end

namespace Program

/-- What the call does with a batch. -/
structure Returns (b : Build) (w : World) (size start : Nat) (list : List Nat) : Prop where
  ends : wp sections (releaseListToSpans b start size) [] w (fun _ h _ => h = []) (fun _ _ => False)
  between : ∀ log p w', Hands b (releaseListToSpans b start size,w) log (p,w') →
    Between b w (SizeClass.index b.midAlignShift size) list log p w'
  back : ∀ log w', Hands b (releaseListToSpans b start size,w) log (.ret (),w') →
    BatchBack w (SizeClass.index b.midAlignShift size) list log w'

/-- Two states after calls agree, but for the order of lists. -/
structure SameAfter (w : World) (log log' : List Nat) (v v' : World) : Prop where
  released : log.Perm log'
  freePages : ∀ q, v.pages.FreePage q ↔ v'.pages.FreePage q
  spans : ∀ j, ∀ S ∈ w.spanLists j, S ∉ log → (v.pages.spans S).useCount = (v'.pages.spans S).useCount ∧
    ∃ free free', Chain v.mem (v.pages.spans S).freeList free ∧
    Chain v'.mem (v'.pages.spans S).freeList free' ∧ free.Perm free'

section
variable {b : Build} {short : Prop} {g : Stock} {l : Ledger} {M : Program} {w v w' v' : World}
  {size start start' i : Nat} {list list' log log' : List Nat}

theorem Agrees.returns (agrees : Agrees b True g l M) (rethreaded : Rethreaded M.world w) (small : size ≤ maxBytes)
    (batch : Batch w (SizeClass.index b.midAlignShift size) start list) (enough : list.length < b.rounds) :
    Returns b w size start list := by
  have base := lent_books agrees.books rethreaded list
  have inside := SizeClass.index_lt b.coarse small
  have carries := lent_carries agrees.books rethreaded batch
  have hands : ∀ x ∈ list, (g.lent list).place x = .transit 0 := fun x mem => carries.holding.at_place mem
  have first := Flushes.first base (agrees.tidy trivial) small batch.some batch.chain carries enough
  have blind : (releaseListToSpans b start size).Blind (bare M.world.tcPool) := releaseListToSpans_blind
  refine ⟨?_,fun log p w' run => ?_,fun log w' run => ?_⟩
  · exact wp_mono (fun _ _ _ ok => ok) (fun _ _ _ _ ok => ok) (fun _ _ _ ended => ended.1) (fun _ _ impossible => impossible)
      (wp_blind (bare_answers M.world.tcPool) (fun _ _ _ _ seen => seen) blind (first.ends base inside))
  · exact ((run.bare blind).1.flushes base inside first).between base batch.nodup hands |>.of_bare
  · have ended := (run.bare blind).1.flushes base inside first
    generalize code : (Prog.ret () : Code World Unit) = p at ended
    cases ended with
    | takes split enough chain progress => cases code
    | hands split enough chain progress ready => cases code
    | ended progress => exact (progress.batchBack base hands).of_bare

/-- The order of a batch does not matter. -/
theorem same_after (agrees : Agrees b short g l M) (first : Rethreaded M.world w)
    (second : Rethreaded M.world v) (perm : list.Perm list')
    (back : BatchBack w i list log w') (back' : BatchBack v i list' log' v') : SameAfter w log log' w' v' := by
  have lists : w.spanLists = v.spanLists := first.lists.trans second.lists.symm
  have pages : w.pages = v.pages := first.pages.trans second.pages.symm
  have logs : ∀ S, S ∈ log ↔ S ∈ log' := fun S => by
    rw [back.released,back'.released,lists]
    simp only [first.out_iff agrees.books,second.out_iff agrees.books,perm.mem_iff]
  refine ⟨(List.perm_ext_iff_of_nodup back.once back'.once).mpr logs,fun q => ?_,fun j S listed still => ?_⟩
  · rw [back.freePages,back'.freePages,pages]
    simp only [logs]
  · obtain ⟨free,free₁,chain,chain₁,nodup₁,mem₁,count₁,_⟩ := back.objects j S listed still
    obtain ⟨free',free₂,chain',chain₂,nodup₂,mem₂,count₂,_⟩ := back'.objects j S (lists ▸ listed)
      (fun mem => still ((logs S).mpr mem))
    have same : free = free' := by
      obtain ⟨objs,chain₀,here⟩ := first.chain agrees.books (first.lists ▸ listed)
      obtain ⟨objs',chain₀',here'⟩ := second.chain agrees.books (first.lists ▸ listed)
      rw [chain.unique here,chain'.unique here',chain₀.unique chain₀']
    have all : free₁.Perm free₂ := (List.perm_ext_iff_of_nodup nodup₁ nodup₂).mpr (fun x => by
      rw [mem₁,mem₂,same,pages,perm.mem_iff])
    refine ⟨?_,free₁,free₂,chain₁,chain₂,all⟩
    have length := all.length_eq
    rw [same,pages] at count₁
    omega

end

/-- `ReleaseListToSpans` puts every batch of objects that are out back, whatever spans
    they are of, and releases the spans that have all their objects back then; the
    order of the batch makes no difference. The system never fails and answers in whole
    pages. -/
theorem batches_returned (b : Build) {mem : Memory} {M : Program} (reached : Reaches b (.upTo maxBytes) (start mem) M) :
    (∀ w size start list, Rethreaded M.world w → size ≤ maxBytes →
    Batch w (SizeClass.index b.midAlignShift size) start list →
      list.length < b.rounds → Returns b w size start list) ∧
    ∀ w v size start start' list list', Rethreaded M.world w → Rethreaded M.world v → size ≤ maxBytes →
      Batch w (SizeClass.index b.midAlignShift size) start list →
      Batch v (SizeClass.index b.midAlignShift size) start' list' →
      list.Perm list' → list.length < b.rounds → ∀ log w' log' v',
      Hands b (releaseListToSpans b start size,w) log (.ret (),w') →
        Hands b (releaseListToSpans b start' size,v) log' (.ret (),v') → SameAfter w log log' w' v' := by
  obtain ⟨g,l,agrees⟩ := reached.agrees (fair_upTo b (by decide))
  refine ⟨fun w size start list rethreaded small batch enough => agrees.returns rethreaded small batch enough,?_⟩
  intro w v size start start' list list' first second small batch batch' perm enough log w' log' v' run run'
  have back := (agrees.returns first small batch enough).back log w' run
  have back' := (agrees.returns second small batch' (by rw [← perm.length_eq]; exact enough)).back log' v' run'
  exact same_after agrees first second perm back back'

/-- The object is out, and no object of its span is free. -/
abbrev Lone (u : World) (i S x : Nat) : Prop := S ∈ u.spanLists i ∧ x ∈ (u.pages.spans S).extent.objects ∧
  (u.pages.spans S).freeList = 0 ∧ 8 ≤ (u.pages.spans S).objSize

/-- Two objects chained. -/
def chained (u : World) (p q : Nat) : World := { u with mem := (u.mem.store p q).store q 0 }

theorem Lone.out {u : World} {i S x : Nat} (lone : Lone u i S x) (m : Memory) : Out { u with mem := m } i S x := by
  obtain ⟨listed,mem,empty,_⟩ := lone
  refine ⟨listed,mem,[],?_,List.not_mem_nil⟩
  change Chain m (u.pages.spans S).freeList []
  rw [empty]
  exact .nil

theorem chained_batch {u : World} {i S T p q : Nat} (first : Lone u i S p) (second : Lone u i T q) (real : p ≠ 0 ∧ q ≠ 0)
    (small : q < 2 ^ 64) (apart : Memory.Apart q p) : Rethreaded u (chained u p q) ∧ Batch (chained u p q) i p [p,q] := by
  have link : (chained u p q).mem.load p = q := (Memory.load_store_apart _ 0 apart).trans (Memory.load_store _ _ small)
  have last : (chained u p q).mem.load q = 0 := Memory.load_store _ _ (by decide)
  have ne : p ≠ q := by
    unfold Memory.Apart at apart
    omega
  refine ⟨⟨rfl,rfl,fun y changed => ?_⟩,real.1,.cons real.1 ?_,?_,?_⟩
  · by_cases here : p ≤ y ∧ y < p + 8
    · exact ⟨i,S,p,Lone.out first u.mem,here.1,lt_of_lt_of_le here.2 (Nat.add_le_add_left first.2.2.2 p)⟩
    · by_cases there : q ≤ y ∧ y < q + 8
      · exact ⟨i,T,q,Lone.out second u.mem,there.1,lt_of_lt_of_le there.2 (Nat.add_le_add_left second.2.2.2 q)⟩
      · refine absurd ?_ changed
        exact (if_neg there).trans (if_neg here)
  · rw [link]
    exact .cons real.2 (by rw [last]; exact .nil)
  · simpa using ne
  · intro x mem
    rcases List.mem_pair.mp mem with rfl | rfl
    · exact ⟨S,Lone.out first _⟩
    · exact ⟨T,Lone.out second _⟩

/-- The blocks of thread 1 and of thread 2, which are of two spans, in one order and in the other. -/
theorem batches_returned_served : ∃ S T, S ≠ T ∧ 2 ^ 31 ∈ (served.world.pages.spans S).extent.objects ∧
    2 ^ 31 + 2 ^ 19 ∈ (served.world.pages.spans T).extent.objects ∧
    Returns .standard (chained served.world (2 ^ 31) (2 ^ 31 + 2 ^ 19)) 262144 (2 ^ 31) [2 ^ 31,2 ^ 31 + 2 ^ 19] ∧
    ∀ log w' log' v',
      Hands .standard (releaseListToSpans .standard (2 ^ 31) 262144,chained served.world (2 ^ 31) (2 ^ 31 + 2 ^ 19)) log
        (.ret (),w') →
      Hands .standard (releaseListToSpans .standard (2 ^ 31 + 2 ^ 19) 262144,
        chained served.world (2 ^ 31 + 2 ^ 19) (2 ^ 31)) log' (.ret (),v') →
      SameAfter (chained served.world (2 ^ 31) (2 ^ 31 + 2 ^ 19)) log log' w' v' := by
  have reached := served_reached (show 262144 ≤ maxBytes by decide)
  have first : Lone served.world (SizeClass.index Build.standard.midAlignShift 262144) 4294967360 (2 ^ 31) := by
    decide +kernel
  have second : Lone served.world (SizeClass.index Build.standard.midAlignShift 262144) 4294967296 (2 ^ 31 + 2 ^ 19) := by
    decide +kernel
  obtain ⟨rethreaded,batch⟩ := chained_batch first second (by decide) (by decide) (.inr (by decide))
  obtain ⟨rethreaded',batch'⟩ := chained_batch second first (by decide) (by decide) (.inl (by decide))
  obtain ⟨returns,same⟩ := batches_returned .standard reached
  exact ⟨_,_,(by decide),first.2.1,second.2.1,returns _ _ _ _ rethreaded (by decide) batch (by decide),
    same _ _ _ _ _ _ _ rethreaded rethreaded' (by decide) batch batch' (.swap _ _ _) (by decide)⟩

end Program
end World
end TcAlloc
