import TcAlloc.Stock
import TcAlloc.World
import TcAlloc.Release

/-!
The state of the allocator between its critical sections. It agrees with a stock
and a ledger (`Books`): the page cache is settled with the spans that the stock
has homes for, the buckets list the spans whose home they are, and every free
list, of a span or of a thread cache, is a shelf of the objects that are there.
What one thread does leaves to the others what they have (`Kept`).
-/
namespace TcAlloc
/-- An extent has the pages of its span. -/
theorem Span.pages_eq {s s' : Span} (same : s'.extent = s.extent) : s'.pages = s.pages := by
  rw [pages,pages,show s'.pageId = s.pageId from congrArg Extent.pageId same,show s'.n = s.n from congrArg Extent.n same]

namespace World

/-! ### The lists -/

/-- The free list of a span in a bucket, and the count of the objects that are out. -/
structure Counted (g : Stock) (w : World) (S : Nat) (free : List Nat) : Prop where
  shelf : Shelf w.mem g.place (.free S) (w.pages.spans S).freeList free
  count : (w.pages.spans S).useCount + free.length = (g.extent S).count
  out : 0 < (w.pages.spans S).useCount

/-- A list of a thread cache. Its cap is at most one past the largest batch. -/
structure Listed (g : Stock) (w : World) (tc i : Nat) (objs : List Nat) : Prop where
  shelf : Shelf w.mem g.place (.cached tc i) (w.freeLists tc i).head objs
  size : (w.freeLists tc i).size = objs.length
  low : 1 ≤ (w.freeLists tc i).maxSize
  high : (w.freeLists tc i).maxSize ≤ 513

/-- What is at a place is kept as it should be there. -/
def Shelved (g : Stock) (w : World) : Place → Prop
  | .free S => ∀ i, g.home S = some (.listed i) → ∃ free, Counted g w S free
  | .cached tc i => ∃ objs, Listed g w tc i objs
  | _ => True

/-- The thread caches: each thread has at most one, and the pointer to it is null
    until it is stored. -/
structure Caches (b : Build) (g : Stock) (l : Ledger) (w : World) : Prop where
  pool : ∃ os : OS, (∀ m ∈ os.mapped, m.site = .threadCachePool → m ∈ l.aside) ∧
    w.tcPool.Valid .threadCachePool (threadCacheBytes b) os
  unborn : ∀ tc, tc ∉ w.tcPool.live → w.freeLists tc = fun _ => {}
  own : ∀ t, w.tlsThreadCache t = 0 ∨ w.tlsThreadCache t = g.cache t
  born : ∀ t, g.cache t ≠ 0 → g.cache t ∈ w.tcPool.live
  apart : ∀ t u, g.cache t ≠ 0 → g.cache t = g.cache u → t = u
  manned : ∀ tc, w.freeLists tc = (fun _ => {}) ∨ ∃ t, w.tlsThreadCache t = tc ∧ tc ≠ 0

/-- The state agrees with a stock and a ledger. -/
structure Books (b : Build) (g : Stock) (l : Ledger) (w : World) (live : List (Nat × Nat)) : Prop where
  stock : g.Valid b live
  settled : Pages.Settled l w.pages
  used : ∀ S, l.used S = none ↔ g.home S = none
  extent : ∀ S s, l.used S = some s → g.extent S = s.extent
  unused : ∀ S, g.home S = some .large → (w.pages.spans S).useCount = 0
  buckets : ∀ i S, S ∈ w.spanLists i ↔ g.home S = some (.listed i)
  once : ∀ i, (w.spanLists i).Nodup
  shelved : ∀ p, Shelved g w p
  caches : Caches b g l w

theorem books_start (b : Build) (mem : Memory) : Books b .start .start (start mem) [] := by
  have small : SizeClass.nfreelists b.midAlignShift ≤ 1048 := by
    have : SizeClass.nclassMid b.midAlignShift ≤ 896 := by
      rw [SizeClass.nclassMid,Nat.shiftRight_eq_div_pow]
      have least : 2 ^ 3 ≤ 2 ^ b.midAlignShift := Nat.pow_le_pow_right (by decide) b.fine
      exact le_trans (Nat.div_le_div_left least (by decide)) (by decide)
    rw [SizeClass.nfreelists]; omega
  have cacheSize : 0 < threadCacheBytes b ∧ threadCacheBytes b ≤ ObjectPool.chunkBytes := by
    have : ObjectPool.chunkBytes = 131072 := rfl
    rw [threadCacheBytes]
    have : 0 < SizeClass.nfreelists b.midAlignShift := by rw [SizeClass.nfreelists]; omega
    omega
  refine ⟨Stock.valid_start b,Pages.settled_start,fun _ => ⟨fun _ => rfl,fun _ => rfl⟩,fun S s used => ?_,
    fun _ _ => rfl,fun i S => ?_,
    fun i => List.nodup_nil,fun p => ?_,⟨⟨{},by simp,ObjectPool.valid_empty cacheSize.1 cacheSize.2⟩,
    fun _ _ => rfl,fun _ => .inl rfl,
      fun t some => absurd rfl some,fun t u some => absurd rfl some,fun _ => .inl rfl⟩⟩
  · simp [Ledger.start] at used
  · simp [start,Stock.start]
  · cases p with
    | free S => intro i home; simp [Stock.start] at home
    | cached tc i => exact ⟨[],Shelf.empty (fun x => by simp [Stock.start]),rfl,le_refl _,by simp [start]⟩
    | nowhere => trivial
    | transit t => trivial
    | live => trivial

section
variable {b : Build} {g g' : Stock} {l l' : Ledger} {w w' : World} {live : List (Nat × Nat)} {S x size t tc i : Nat}

/-- A place stays as it is kept. -/
theorem Shelved.congr {p : Place} (shelved : Shelved g w p) (same : ∀ x, g'.place x = p ↔ g.place x = p)
    (links : ∀ x, g.place x = p → w'.mem.load x = w.mem.load x)
    (spans : ∀ S i, p = .free S → g'.home S = some (.listed i) →
      g.home S = some (.listed i) ∧ g'.extent S = g.extent S ∧ w'.pages.spans S = w.pages.spans S)
    (lists : ∀ tc i, p = .cached tc i → w'.freeLists tc i = w.freeLists tc i) : Shelved g' w' p := by
  cases p with
  | free S =>
    intro i home
    obtain ⟨home₀,extent,span⟩ := spans S i rfl home
    obtain ⟨free,counted⟩ := shelved i home₀
    exact ⟨free,by rw [span]; exact counted.shelf.congr same links,by rw [span,extent]; exact counted.count,
      by rw [span]; exact counted.out⟩
  | cached tc i =>
    obtain ⟨objs,listed⟩ := shelved
    have list := lists tc i rfl
    exact ⟨objs,by rw [list]; exact listed.shelf.congr same links,by rw [list]; exact listed.size,
      by rw [list]; exact listed.low,
      by rw [list]; exact listed.high⟩
  | nowhere => trivial
  | transit t => trivial
  | live => trivial

/-- The descriptor of a span in use. -/
theorem Books.span (books : Books b g l w live) (home : g.home S ≠ none) :
    ∃ s, l.used S = some s ∧ w.pages.spans S = s ∧ g.extent S = s.extent := by
  cases used : l.used S with
  | none => exact absurd ((books.used S).mp used) home
  | some s => exact ⟨s,rfl,(books.settled.used S s used).2.same,books.extent S s used⟩

theorem Books.home_of_used (books : Books b g l w live) {s : Span} (used : l.used S = some s) :
    g.home S ≠ none := fun none => by
  rw [(books.used S).mpr none] at used; cases used

theorem Books.extent_eq (books : Books b g l w live) (home : g.home S ≠ none) : (w.pages.spans S).extent = g.extent S := by
  obtain ⟨s,_,same,extent⟩ := books.span home
  rw [same,extent]

/-- Objects lie where the system has pages. -/
theorem Books.object_bounds (books : Books b g l w live) (home : g.home S ≠ none) (mem : x ∈ (g.extent S).objects) :
    0 < x ∧ x < 2 ^ 48 ∧ x >>> pageShift ∈ (w.pages.spans S).pages := by
  obtain ⟨s,used,same,extent⟩ := books.span home
  have closed := books.settled.used S s used
  have inside := Extent.object_inside (books.stock.sound S home) mem
  have word := (books.stock.sound S home).word
  rw [extent] at inside word
  have shift : (2 : Nat) ^ pageShift = 8192 := rfl
  simp only [Extent.base,Extent.bytes,Span.extent,shift] at inside word
  have page : x >>> pageShift ∈ (w.pages.spans S).pages := by
    rw [same,Nat.shiftRight_eq_div_pow,shift]
    exact ⟨by omega,by omega⟩
  have bounds := books.settled.page_bounds (books.settled.closed_pages closed.1 page)
  have bits : (2 : Nat) ^ Pages.bits = 2 ^ 35 := rfl
  rw [Nat.shiftRight_eq_div_pow,shift,bits] at bounds
  exact ⟨by omega,by omega,page⟩

theorem Books.ne_zero (books : Books b g l w live) (somewhere : g.place x ≠ .nowhere) : x ≠ 0 ∧ x < 2 ^ 64 := by
  obtain ⟨S,h,home,mem,_⟩ := books.stock.placed x somewhere
  have bounds := books.object_bounds (by rw [home]; simp) mem
  exact ⟨by omega,by omega⟩

/-- The page map leads from every page of a span in a bucket to the span. -/
theorem Books.listed_found (books : Books b g l w live) (home : g.home S = some (.listed i)) {q : Nat}
    (page : q ∈ (w.pages.spans S).pages) :
    w.pages.entry q = S := by
  have used : g.home S ≠ none := by rw [home]; simp
  obtain ⟨s,taken,same,extent⟩ := books.span used
  obtain ⟨inside,size,n⟩ := books.stock.classed S i home
  have word := (books.stock.sound S used).word
  have pages := SizeClass.numMovePage_spec (g.extent S).objSize (by omega)
    (by rw [size]; exact SizeClass.classSize_le b.coarse inside)
  rw [← n,extent] at pages
  rw [same] at page
  have : npages = 129 := rfl
  exact (books.settled.used S s taken).2.found q ⟨page,.inl (by simp only [Span.extent] at pages; omega)⟩

/-- The page map leads from an object that is out to its span. -/
theorem Books.found (books : Books b g l w live) (home : g.home S ≠ none) (out : ∀ t, g.home S ≠ some (.held t))
    (mem : x ∈ (g.extent S).objects) : w.pages.entry (x >>> pageShift) = S := by
  obtain ⟨_,_,page⟩ := books.object_bounds home mem
  cases at_home : g.home S with
  | none => exact absurd at_home home
  | some h =>
    cases h with
    | held t => exact absurd at_home (out t)
    | listed i => exact books.listed_found at_home page
    | large =>
      obtain ⟨s,used,same,extent⟩ := books.span home
      have sound := books.stock.sound S home
      rw [same] at page
      rw [Extent.objects_single sound (books.stock.large S at_home).2,List.mem_singleton] at mem
      refine (books.settled.used S s used).2.found _ ⟨page,.inr ?_⟩
      rw [mem,extent,Extent.base,Nat.shiftRight_eq_div_pow,Nat.mul_div_cancel _ (by positivity)]
      rfl

/-- Two threads do not have one thread cache. -/
theorem Books.cache_unique (books : Books b g l w live) {u : Nat} (made : w.tlsThreadCache t ≠ 0)
    (same : w.tlsThreadCache t = w.tlsThreadCache u) : t = u := by
  have first := (books.caches.own t).resolve_left made
  have second := (books.caches.own u).resolve_left (by rw [← same]; exact made)
  exact books.caches.apart t u (by rw [← first]; exact made) (by rw [← first,← second,same])

/-- The objects that are out are those that are not on the list of their span. -/
theorem Counted.out_length {free : List Nat} (counted : Counted g w S free)
    (valid : g.Valid b live) (used : g.home S ≠ none) :
    (w.pages.spans S).useCount = ((g.extent S).objects.filter (· ∉ free)).length := by
  have inside : ∀ x ∈ free, x ∈ (g.extent S).objects := fun x mem => (valid.free_mem (counted.shelf.holding.at_place mem)).2
  have nodup := Extent.objects_nodup (valid.sound S used)
  have same : ((g.extent S).objects.filter (· ∈ free)).Perm free :=
    (List.perm_ext_iff_of_nodup (nodup.filter _) counted.shelf.holding.nodup).mpr (fun x => by
      simp only [List.mem_filter,decide_eq_true_eq]
      exact ⟨fun both => both.2,fun mem => ⟨inside x mem,mem⟩⟩)
  have split := List.length_eq_length_filter_add (l := (g.extent S).objects) (fun x => decide (x ∈ free))
  have total := counted.count
  have whole : (g.extent S).objects.length = (g.extent S).count := by simp [Extent.objects]
  have both := same.length_eq
  have negated : ((g.extent S).objects.filter (fun x => !decide (x ∈ free))).length = ((g.extent S).objects.filter
    (· ∉ free)).length := by
    simp
  omega

/-! ### What a thread leaves to the others -/

/-- An object that thread `t` may write: it is somewhere, not live, and nobody else's. -/
def Mine (t : Nat) (g : Stock) (x : Nat) : Prop := g.place x ≠ .nowhere ∧ g.place x ≠ .live ∧ ¬ Stock.Foreign t g x

/-- What thread `t` has done to the state leaves to the others what they have. -/
structure Kept (t : Nat) (g : Stock) (w : World) (g' : Stock) (w' : World) : Prop where
  leaves : Stock.Leaves t g g'
  persists : w.pages.idSpanMap.Persists w'.pages.idSpanMap
  tls : ∀ u, u ≠ t → w'.tlsThreadCache u = w.tlsThreadCache u
  lists : ∀ u, u ≠ t → w'.freeLists (g.cache u) = w.freeLists (g.cache u)
  spans : ∀ u S, u ≠ t → g.home S = some (.held u) → w'.pages.spans S = w.pages.spans S
  links : ∀ x, Stock.Foreign t g' x → w'.mem.load x = w.mem.load x

theorem Kept.refl (t : Nat) (g : Stock) (w : World) : Kept t g w g w :=
  ⟨.refl t g,.refl _,fun _ _ => rfl,fun _ _ => rfl,fun _ _ _ _ => rfl,fun _ _ => rfl⟩

theorem Kept.trans {g'' : Stock} {w'' : World} (first : Kept t g w g' w')
    (second : Kept t g' w' g'' w'') : Kept t g w g'' w'' := by
  refine ⟨first.leaves.trans second.leaves,first.persists.trans second.persists,
    fun u ne => (second.tls u ne).trans (first.tls u ne),fun u ne => ?_,fun u S ne home => ?_,fun x far => ?_⟩
  · have next := second.lists u ne
    rw [first.leaves.cache u ne] at next
    exact next.trans (first.lists u ne)
  · exact (second.spans u S ne ((first.leaves.held u S ne).mpr home)).trans (first.spans u S ne home)
  · exact (second.links x far).trans (first.links x ((second.leaves.foreign_iff x).mp far))

/-- The links of things that were not written. -/
theorem links_off {Q : Nat → Prop} (valid : g'.Valid b live) {m m' : Memory} (written : Written Q m m')
    (placed : ∀ a, Q a → g'.place a ≠ .nowhere) (other : ¬ Q x) (somewhere : g'.place x ≠ .nowhere) : m'.load x = m.load x :=
  written.load (fun a meets => valid.words_apart (placed a meets) somewhere (fun same => other (same ▸ meets)))

theorem foreign_somewhere (far : Stock.Foreign t g x) : g.place x ≠ .nowhere := by
  rcases far with ⟨u,_,there⟩ | ⟨u,S,_,_,there⟩ <;> rw [there] <;> simp

/-! ### Operations on lists and spans -/

/-- What the thread has, and the place it works on. -/
def Near (t : Nat) (p q : Place) : Prop := q = .transit t ∨ q = p

/-- An operation of thread `t` on a list of its thread cache. -/
theorem Books.onList (books : Books b g l w live) {A B : List Nat} {q : Place} {m : Memory} {f : FreeList}
    (tls : w.tlsThreadCache t = tc) (cache : g.cache t = tc) (made : tc ≠ 0) (stock : (g.move A q).Valid b live)
    (here : ∀ x ∈ A, Near t (.cached tc i) (g.place x)) (there : Near t (.cached tc i) q)
    (written : Written (fun a => Near t (.cached tc i) ((g.move A q).place a)) w.mem m)
    (listed : Listed (g.move A q) (w.withList tc i m f) tc i B) :
    Books b (g.move A q) l (w.withList tc i m f) live ∧ Kept t g w (g.move A q) (w.withList tc i m f) ∧
      Written (Mine t (g.move A q)) w.mem m := by
  have placed : ∀ a, Near t (.cached tc i) ((g.move A q).place a) → (g.move A q).place a ≠ .nowhere := fun a near => by
    rcases near with same | same <;> rw [same] <;> simp
  have near : ∀ x p, ¬ Near t (.cached tc i) p → ((g.move A q).place x = p ↔ g.place x = p) := by
    intro x p far
    by_cases mem : x ∈ A
    · simp only [Stock.move,moved_of_mem mem]
      exact ⟨fun same => absurd (same ▸ there) far,fun same => absurd (same ▸ here x mem) far⟩
    · simp only [Stock.move,moved_of_not_mem mem]
  have links : ∀ x p, p ≠ .nowhere → ¬ Near t (.cached tc i) p → g.place x = p → m.load x = w.mem.load x := by
    intro x p somewhere far same
    have after := (near x p far).mpr same
    exact links_off stock written placed (fun meets => far (by rw [← after]; exact meets)) (by rw [after]; exact somewhere)
  have mine : ∀ p, Near t (.cached tc i) p → (∀ u, u ≠ t → p ≠ .transit u) ∧ ∀ T, p ≠ .free T := by
    rintro p (rfl | rfl)
    · exact ⟨fun u ne same => ne (Place.transit.inj same).symm,fun T => by simp⟩
    · exact ⟨fun u ne => by simp,fun T => by simp⟩
  have own : ∀ (g₁ : Stock) x, Near t (.cached tc i) (g₁.place x) → ¬ Stock.Foreign t g₁ x := by
    rintro g₁ x close (⟨u,ne,same⟩ | ⟨u,T,_,_,same⟩)
    · exact (mine _ close).1 u ne same
    · exact (mine _ close).2 T same
  refine ⟨⟨stock,books.settled,books.used,books.extent,books.unused,books.buckets,books.once,fun p => ?_,?_⟩,
    ⟨Stock.Leaves.move (fun x mem => own g x (here x mem)) (fun x mem => own _ x ?_),.refl _,fun _ _ => rfl,fun u ne => ?_,
      fun _ _ _ _ => rfl,fun x far => links_off stock written placed
      (fun meets => own _ x meets far) (foreign_somewhere far)⟩,
      written.mono (fun a close => ⟨placed a close,fun same => ?_,own _ a close⟩)⟩
  · by_cases close : Near t (.cached tc i) p
    · rcases close with rfl | rfl
      · trivial
      · exact ⟨B,listed⟩
    · by_cases somewhere : p = .nowhere
      · subst somewhere; trivial
      refine (books.shelved p).congr (fun x => near x p close) (fun x => links x p somewhere close)
        (fun S j _ home => ⟨home,rfl,rfl⟩) (fun tc' j same => ?_)
      subst same
      by_cases same : tc' = tc
      · subst same
        have other : j ≠ i := fun equal => close (.inr (by rw [equal]))
        simp only [withList,Function.update_self,Function.update_of_ne other]
      · simp only [withList,Function.update_of_ne same]
  · have born := books.caches.born t (by rw [cache]; exact made)
    rw [cache] at born
    have manned : ∀ tc', (w.withList tc i m f).freeLists tc' = (fun _ => {}) ∨ ∃ t,
      w.tlsThreadCache t = tc' ∧ tc' ≠ 0 := fun tc' => by
      by_cases same : tc' = tc
      · exact .inr ⟨t,tls.trans same.symm,by rw [same]; exact made⟩
      · have other : (w.withList tc i m f).freeLists tc' = w.freeLists tc' := Function.update_of_ne same ..
        rw [other]; exact books.caches.manned tc'
    exact ⟨books.caches.pool,fun tc' out => (Function.update_of_ne (fun same : tc' = tc => out (same ▸ born)) ..).trans
      (books.caches.unborn tc' out),books.caches.own,books.caches.born,books.caches.apart,manned⟩
  · simp only [Stock.move,moved_of_mem mem]; exact there
  · refine Function.update_of_ne (fun same => ne ?_) ..
    exact (books.caches.apart t u (by rw [cache]; exact made) (cache.trans same.symm)).symm
  · rcases close with near | near <;> rw [near] at same <;> cases same

/-- A home that thread `t` may work on. -/
def Home.Within (t : Nat) (h : Home) : Prop := h = .held t ∨ ∃ i, h = .listed i

/-- An operation of thread `t` on a span that it holds, or on one in a bucket
    whose mutex it holds: the span may change its home. -/
theorem Books.onSpan (books : Books b g l w live) {h₀ h : Home} {A : List Nat} {q : Place} {m : Memory} {f : Span → Span}
    {L : Nat → List Nat} (home : g.home S = some h₀) (before : Home.Within t h₀) (after : Home.Within t h)
    (stock : ((g.move A q).rehome S h).Valid b live) (here : ∀ x ∈ A, g.place x = .nowhere ∨ Near t (.free S) (g.place x))
    (there : Near t (.free S) q) (shape : ∀ s, (f s).extent = s.extent ∧ (f s).isUse = s.isUse)
    (written : Written (fun a => Near t (.free S) ((g.move A q).place a)) w.mem m)
    (buckets : ∀ j T, T ∈ L j ↔ ((g.move A q).rehome S h).home T = some (.listed j)) (once : ∀ j, (L j).Nodup)
    (counted : ∀ i, h = .listed i → ∃ free, Counted ((g.move A q).rehome S h)
      { w with pages := w.pages.write S f, mem := m, spanLists := L } S free) :
    ∃ l', Books b ((g.move A q).rehome S h) l' { w with pages := w.pages.write S f, mem := m, spanLists := L } live ∧
      Kept t g w ((g.move A q).rehome S h) { w with pages := w.pages.write S f, mem := m, spanLists := L } ∧
      Written (Mine t ((g.move A q).rehome S h)) w.mem m ∧ l'.stale = l.stale ∧ ∀ T s', l'.used T = some s' → ∃ s,
      l.used T = some s ∧ s'.extent = s.extent := by
  obtain ⟨s,used,same,extent⟩ := books.span (by rw [home]; simp)
  have some : g.home S ≠ none := by rw [home]; simp
  have notForeign : ∀ h, Home.Within t h → ∀ u, u ≠ t → h ≠ .held u := by
    rintro _ (rfl | ⟨i,rfl⟩) u ne same
    · exact ne (Home.held.inj same).symm
    · cases same
  have placed : ∀ a, Near t (.free S) ((g.move A q).place a) → ((g.move A q).rehome S h).place
    a ≠ .nowhere := fun a near => by
    have same : ((g.move A q).rehome S h).place a = (g.move A q).place a := rfl
    rcases near with near | near <;> rw [same,near] <;> simp
  have near : ∀ x p, p ≠ .nowhere → ¬ Near t (.free S) p → ((g.move A q).place x = p ↔ g.place x = p) := by
    intro x p somewhere far
    by_cases mem : x ∈ A
    · simp only [Stock.move,moved_of_mem mem]
      refine ⟨fun same => absurd (same ▸ there) far,fun same => ?_⟩
      rcases here x mem with none | near
      · exact absurd (same.symm.trans none) somewhere
      · exact absurd (same ▸ near) far
    · simp only [Stock.move,moved_of_not_mem mem]
  have links : ∀ x p, p ≠ .nowhere → ¬ Near t (.free S) p → g.place x = p → m.load x = w.mem.load x := by
    intro x p somewhere far at_place
    have after := (near x p somewhere far).mpr at_place
    exact links_off stock written placed (fun meets => far (by rw [← after]; exact meets))
      (show (g.move A q).place x ≠ .nowhere by rw [after]; exact somewhere)
  have own : ∀ (g₁ : Stock) h₁ x, g₁.home S = Option.some h₁ → Home.Within t h₁ → Near t (.free S) (g₁.place x) →
    ¬ Stock.Foreign t g₁ x := by
    rintro g₁ h₁ x home₁ within close (⟨u,ne,at_place⟩ | ⟨u,T,ne,home',at_place⟩)
    · rcases close with near | near <;> rw [near] at at_place <;> cases at_place
      exact ne rfl
    · rcases close with near | near <;> rw [near] at at_place <;> cases at_place
      rw [home₁] at home'
      exact notForeign h₁ within u ne (Option.some.inj home')
  have newHome : ((g.move A q).rehome S h).home S = Option.some h := Function.update_self ..
  have otherHome : ∀ T, T ≠ S → ((g.move A q).rehome S h).home T = g.home T := fun T ne => Function.update_of_ne ne ..
  have moveLeaves : Stock.Leaves t g (g.move A q) := by
    refine Stock.Leaves.move (fun x mem => ?_) (fun x mem => own _ h₀ x home before ?_)
    · rcases here x mem with none | near
      · rintro (⟨u,_,at_place⟩ | ⟨u,T,_,_,at_place⟩) <;> rw [none] at at_place <;> cases at_place
      · exact own g h₀ x home before near
    · simp only [Stock.move,moved_of_mem mem]; exact there
  have leaves := moveLeaves.trans (Stock.Leaves.rehome (S := S) (h := h) (g := g.move A q) home
    (notForeign h₀ before) (notForeign h after))
  have settled := books.settled.rewrite used (f := f) (congrArg Extent.pageId (shape s).1)
    (congrArg Extent.n (shape s).1) (shape s).2
  refine ⟨l.take S (f s),⟨stock,settled,fun T => ?_,fun T t' taken => ?_,fun T large => ?_,buckets,once,fun p => ?_,
    ⟨books.caches.pool,books.caches.unborn,books.caches.own,books.caches.born,books.caches.apart,books.caches.manned⟩⟩,
    ⟨leaves,.refl _,fun _ _ => rfl,fun _ _ => rfl,fun u T ne held => ?_,
      fun x far => links_off stock written placed (fun meets => own _ h x newHome after meets far) (foreign_somewhere far)⟩,
    written.mono (fun a close => ⟨placed a close,?_,?_⟩),rfl,fun T s' taken => ?_⟩
  · by_cases same' : T = S
    · rw [same',Ledger.take_self,newHome]; simp
    · rw [Ledger.take_other l _ same',otherHome T same']; exact books.used T
  · by_cases same' : T = S
    · subst same'
      rw [Ledger.take_self] at taken; cases taken
      exact extent.trans (shape s).1.symm
    · rw [Ledger.take_other l _ same'] at taken; exact books.extent T t' taken
  · have ne : T ≠ S := fun same' => by
      rw [same',newHome] at large
      rcases after with rfl | ⟨i,rfl⟩ <;> cases large
    rw [otherHome T ne] at large
    exact (congrArg Span.useCount (Pages.write_other w.pages f ne)).trans (books.unused T large)
  · by_cases none : p = .nowhere
    · subst none; trivial
    by_cases close : Near t (.free S) p
    · rcases close with rfl | rfl
      · trivial
      · intro i listed
        exact counted i (Option.some.inj (newHome.symm.trans listed))
    refine (books.shelved p).congr (fun x => near x p none close) (fun x => links x p none close)
      (fun T i same' listed => ?_) (fun _ _ _ => rfl)
    have ne : T ≠ S := fun equal => close (.inr (by rw [same',equal]))
    rw [otherHome T ne] at listed
    exact ⟨listed,rfl,Pages.write_other w.pages f ne⟩
  · refine Pages.write_other w.pages f (fun same' : T = S => ?_)
    rw [same',home] at held
    exact notForeign h₀ before u ne (Option.some.inj held)
  · have same' : ((g.move A q).rehome S h).place a = (g.move A q).place a := rfl
    rcases close with near | near <;> rw [same',near] <;> simp
  · exact own _ h a newHome after close
  · by_cases same' : T = S
    · subst same'
      rw [Ledger.take_self] at taken; cases taken
      exact ⟨s,used,(shape s).1⟩
    · rw [Ledger.take_other l _ same'] at taken
      exact ⟨s',taken,rfl⟩

/-! ### Operations of the page cache -/

/-- The other spans are in use with the fields they had. -/
theorem Books.others (books : Books b g l w live) {pages : Pages} (settled : Pages.Settled l' pages)
    (still : ∀ T, T ≠ S → l'.used T = l.used T)
    {T : Nat} (home : g.home T ≠ none) (ne : T ≠ S) : pages.spans T = w.pages.spans T := by
  obtain ⟨s,used,same,_⟩ := books.span home
  rw [same]
  exact (settled.used T s ((still T ne).trans used)).2.same

/-- The lists stay as they are when the page cache has worked on the span `S`. -/
theorem Books.shelved_off (books : Books b g l w live) {pages : Pages} (settled : Pages.Settled l' pages)
    (still : ∀ T, T ≠ S → l'.used T = l.used T) (extent : ∀ T, T ≠ S → g'.extent T = g.extent T)
    (homes : ∀ T i, g'.home T = some (.listed i) → T ≠ S ∧ g.home T = some (.listed i))
    (places : ∀ x T, T ≠ S → (g'.place x = .free T ↔ g.place x = .free T))
    (cached : ∀ x tc i, g'.place x = .cached tc i ↔ g.place x = .cached tc i) (p : Place) : Shelved g'
    { w with pages := pages } p := by
  cases p with
  | free T =>
    intro i listed
    obtain ⟨ne,home⟩ := homes T i listed
    refine (books.shelved (.free T)).congr (fun x => places x T ne) (fun _ _ => rfl)
      (fun T' j same _ => ?_) (fun _ _ _ => rfl) i listed
    cases same
    obtain ⟨_,home'⟩ := homes T j ‹_›
    exact ⟨home',extent T ne,books.others settled still (by rw [home]; simp) ne⟩
  | cached tc i =>
    exact (books.shelved (.cached tc i)).congr (fun x => cached x tc i) (fun _ _ => rfl)
      (fun T j same => nomatch same) (fun _ _ _ => rfl)
  | nowhere => trivial
  | transit t => trivial
  | live => trivial

/-- A span taken from the page cache, to be carved or as one block. -/
theorem Books.taken (books : Books b g l w live) {s : Span} {h : Home} {A : List Nat}
    {pages : Pages} (unused : l.used S = none)
    (settled : Pages.Settled (l.take S s) pages) (persists : w.pages.idSpanMap.Persists pages.idSpanMap)
    (sound : s.extent.Sound)
    (kind : (h = .held t ∧ A = []) ∨ (h = .large ∧ A = [s.extent.base] ∧ maxBytes < s.objSize ∧
    s.objSize = s.extent.bytes ∧ s.useCount = 0)) :
    Books b (g.add S s.extent h A (.transit t)) (l.take S s) { w with pages := pages } live ∧
      Kept t g w (g.add S s.extent h A (.transit t)) { w with pages := pages } := by
  have none := (books.used S).mp unused
  have ne_of : ∀ T, g.home T ≠ Option.none → T ≠ S := fun T some same => some (same ▸ none)
  have still : ∀ T, T ≠ S → (l.take S s).used T = l.used T := fun T ne => Ledger.take_other l s ne
  have other : ∀ T, T ≠ S → (g.add S s.extent h A (.transit t)).home T = g.home T ∧
    (g.add S s.extent h A (.transit t)).extent T = g.extent T :=
    fun T ne => ⟨Function.update_of_ne ne ..,Function.update_of_ne ne ..⟩
  have here : (g.add S s.extent h A (.transit t)).home S = some h := Function.update_self ..
  have taken := settled.used S s (Ledger.take_self ..)
  have apart : ∀ T, g.home T ≠ Option.none → s.extent.Apart (g.extent T) := by
    intro T home
    obtain ⟨s',used,_,extent⟩ := books.span home
    have closed := settled.used T s' ((still T (ne_of T home)).trans used)
    have disjoint := settled.apart S T taken.1 closed.1 (ne_of T home).symm
    rw [taken.2.same,closed.2.same] at disjoint
    have pos := taken.2.pos
    have pos' := closed.2.pos
    have shift : (2 : Nat) ^ pageShift = 8192 := rfl
    simp only [extent,Extent.Apart,Extent.base,Extent.bytes,Span.extent,shift]
    by_contra meet
    exact disjoint (max s.pageId s'.pageId) ⟨by omega,by omega⟩ ⟨by omega,by omega⟩
  have inA : ∀ x ∈ A, x ∈ s.extent.objects ∧ Suits S h (.transit t) := by
    rcases kind with ⟨rfl,rfl⟩ | ⟨rfl,rfl,_⟩
    · simp
    · intro x mem
      rw [List.mem_singleton.mp mem]
      exact ⟨s.extent.base_mem,fun _ => by simp⟩
  have empty := books.stock.empty sound apart
  have unlisted : ∀ i, h ≠ .listed i := by
    rintro i rfl
    rcases kind with ⟨same,_⟩ | ⟨same,_⟩ <;> cases same
  have stock := books.stock.add none sound apart unlisted (fun large => ?_) (q := .transit t) (by simp) inA
  · refine ⟨⟨stock,settled,fun T => ?_,fun T s' used => ?_,fun T large => ?_,fun i T => ?_,books.once,?_,
        ⟨books.caches.pool,books.caches.unborn,books.caches.own,books.caches.born,books.caches.apart,books.caches.manned⟩⟩,
      ⟨.add none (fun u ne same => ?_) (fun x mem => empty x (inA x mem).1),persists,fun _ _ => rfl,fun _ _ => rfl,
        fun u T ne home => books.others settled still (by rw [home]; simp) (ne_of T (by rw [home]; simp)),fun _ _ => rfl⟩⟩
    · by_cases same : T = S
      · rw [same,Ledger.take_self,here]; simp
      · rw [still T same,(other T same).1]; exact books.used T
    · by_cases same : T = S
      · subst same
        rw [Ledger.take_self] at used; cases used
        exact Function.update_self ..
      · rw [still T same] at used
        rw [(other T same).2]; exact books.extent T s' used
    · by_cases same : T = S
      · subst same
        rw [here] at large; cases large
        rcases kind with ⟨bad,_⟩ | ⟨_,_,_,_,count⟩
        · cases bad
        · exact (congrArg Span.useCount taken.2.same).trans count
      · rw [(other T same).1] at large
        exact (congrArg Span.useCount (books.others settled still (by rw [large]; simp) same)).trans (books.unused T large)
    · by_cases same : T = S
      · rw [same,here]
        refine ⟨fun mem => absurd ((books.buckets i S).mp (same ▸ mem)) (by rw [none]; simp),fun bad =>
          absurd (Option.some.inj bad) (unlisted i)⟩
      · rw [(other T same).1]; exact books.buckets i T
    · have places : ∀ x p, p ≠ .transit t → p ≠ .nowhere →
        ((g.add S s.extent h A (.transit t)).place x = p ↔ g.place x = p) := by
        intro x p ne somewhere
        by_cases mem : x ∈ A
        · simp only [Stock.add,moved_of_mem mem,empty x (inA x mem).1]
          exact ⟨fun same => absurd same.symm ne,fun same => absurd same.symm somewhere⟩
        · simp only [Stock.add,moved_of_not_mem mem]
      refine books.shelved_off settled still (fun T ne => (other T ne).2) (fun T i listed => ?_)
        (fun x T _ => places x _ (by simp) (by simp))
        (fun x tc i => places x _ (by simp) (by simp))
      by_cases same : T = S
      · rw [same,here] at listed; exact absurd (Option.some.inj listed) (unlisted i)
      · exact ⟨same,(other T same).1 ▸ listed⟩
    · rcases kind with ⟨rfl,_⟩ | ⟨rfl,_⟩ <;> cases same
      exact ne rfl
  · rcases kind with ⟨rfl,_⟩ | ⟨_,_,big,all,_⟩
    · cases large
    · exact ⟨big,all⟩

theorem released_used (l : Ledger) (S : Nat) (s : Span) : (Pages.released l S s).used = (l.giveBack S).used := by
  rw [Pages.released]; split_ifs <;> rfl
theorem released_aside (l : Ledger) (S : Nat) (s : Span) : (Pages.released l S s).aside = l.aside := by
  rw [Pages.released]; split_ifs <;> rfl

/-- A span given back to the page cache, with its objects. -/
theorem Books.returned (books : Books b g l w live) {s : Span} {h : Home} {pages : Pages} (home : g.home S = some h)
    (own : h = .held t ∨ h = .large)
    (mine : ∀ x ∈ (g.extent S).objects, g.place x = .nowhere ∨ Near t (.free S) (g.place x))
    (settled : Pages.Settled (Pages.released l S s) pages) (persists : w.pages.idSpanMap.Persists pages.idSpanMap) :
    Books b (g.drop S) (Pages.released l S s) { w with pages := pages } live ∧ Kept t g w (g.drop S)
    { w with pages := pages } := by
  have still : ∀ T, T ≠ S → (Pages.released l S s).used T = l.used T := fun T ne => by
    rw [released_used]; exact Ledger.giveBack_other l ne
  have gone : (Pages.released l S s).used S = none := by rw [released_used]; exact Ledger.giveBack_self l S
  have other : ∀ T, T ≠ S → (g.drop S).home T = g.home T := fun T ne => Function.update_of_ne ne ..
  have here : (g.drop S).home S = none := Function.update_self ..
  have ne_of : ∀ T, (g.drop S).home T ≠ none → T ≠ S := fun T some same => some (same ▸ here)
  have notForeign : ∀ u, u ≠ t → h ≠ .held u := by
    rintro u ne rfl
    rcases own with same | same <;> cases same
    exact ne rfl
  have unserved : ∀ x ∈ (g.extent S).objects, g.place x ≠ .live := by
    intro x mem
    rcases mine x mem with none | near | near
    · rw [none]; simp
    · rw [near]; simp
    · rw [near]; simp
  have unlisted : ∀ i, g.home S ≠ some (.listed i) := by
    intro i same
    rw [home] at same; cases same
    rcases own with same | same <;> cases same
  refine ⟨⟨books.stock.drop (by rw [home]; simp) unserved,settled,fun T => ?_,fun T s' used' => ?_,
    fun T large => ?_,fun i T => ?_,
    books.once,?_,?_⟩,⟨.drop home notForeign (fun x mem => ?_),persists,fun _ _ => rfl,fun _ _ => rfl,
    fun u T ne held => ?_,fun _ _ => rfl⟩⟩
  · by_cases same : T = S
    · simp [same,gone,here]
    · rw [still T same,other T same]; exact books.used T
  · have ne : T ≠ S := fun same => by rw [same,gone] at used'; cases used'
    rw [still T ne] at used'
    exact books.extent T s' used'
  · have ne := ne_of T (by rw [large]; simp)
    rw [other T ne] at large
    exact (congrArg Span.useCount (books.others settled still (by rw [large]; simp) ne)).trans (books.unused T large)
  · by_cases same : T = S
    · rw [same,here]
      exact ⟨fun mem => absurd ((books.buckets i S).mp mem) (unlisted i),by simp⟩
    · rw [other T same]; exact books.buckets i T
  · have places : ∀ x p, p ≠ .transit t → p ≠ .nowhere → p ≠ .free S → ((g.drop S).place x = p ↔ g.place x = p) := by
      intro x p ne somewhere elsewhere
      by_cases mem : x ∈ (g.extent S).objects
      · simp only [Stock.drop,moved_of_mem mem]
        refine ⟨fun same => absurd same.symm somewhere,fun same => ?_⟩
        rcases mine x mem with none | near | near
        · exact absurd (same.symm.trans none) somewhere
        · exact absurd (same.symm.trans near) ne
        · exact absurd (same.symm.trans near) elsewhere
      · simp only [Stock.drop,moved_of_not_mem mem]
    refine books.shelved_off settled still (fun _ _ => rfl) (fun T i listed => ?_)
      (fun x T ne => places x _ (by simp) (by simp) ?_)
      (fun x tc i => places x _ (by simp) (by simp) (by simp))
    · have ne := ne_of T (by rw [listed]; simp)
      exact ⟨ne,other T ne ▸ listed⟩
    · exact fun same => ne (Place.free.inj same)
  · obtain ⟨os,aside,valid⟩ := books.caches.pool
    exact ⟨⟨os,fun m mem site => by rw [released_aside]; exact aside m mem site,valid⟩,books.caches.unborn,books.caches.own,
      books.caches.born,books.caches.apart,books.caches.manned⟩
  · rcases mine x mem with none | near | near
    · rintro (⟨u,_,there⟩ | ⟨u,T,_,_,there⟩) <;> rw [none] at there <;> cases there
    · rintro (⟨u,ne,there⟩ | ⟨u,T,_,_,there⟩) <;> rw [near] at there <;> cases there
      exact ne rfl
    · rintro (⟨u,ne,there⟩ | ⟨u,T,ne,held,there⟩) <;> rw [near] at there <;> cases there
      rw [home] at held
      exact notForeign u ne (Option.some.inj held)
  · refine books.others settled still (by rw [held]; simp) (fun same => ?_)
    rw [same,home] at held
    exact notForeign u ne (Option.some.inj held)

/-! ### Thread caches -/

/-- A thread without a thread cache gets one from the pool. -/
theorem Books.newCache (books : Books b g l w live) {pool : ObjectPool} {os : OS} (none : w.tlsThreadCache t = 0)
    (valid : pool.Valid .threadCachePool (threadCacheBytes b) os) (system : os.Valid)
    (grown : OS.Grown .threadCachePool w.pages.os os)
    (fresh : tc ∉ w.tcPool.live) (made : pool.live = tc :: w.tcPool.live) :
    Books b { g with cache := Function.update g.cache t tc }
    { l with aside := {m | m ∈ os.mapped ∧ m.site = .threadCachePool} }
        { w with tcPool := pool, pages := { w.pages with os := os } } live ∧
      Kept t g w { g with cache := Function.update g.cache t tc }
      { w with tcPool := pool, pages := { w.pages with os := os } } := by
  have other : ∀ u, u ≠ t → Function.update g.cache t tc u = g.cache u := fun u ne => Function.update_of_ne ne ..
  have here : Function.update g.cache t tc t = tc := Function.update_self ..
  have unborn : ∀ u, g.cache u ≠ 0 → g.cache u ≠ tc := fun u some same => fresh (same ▸ books.caches.born u some)
  have settled := (books.settled.grow system grown rfl).setAside (A := {m | m ∈ os.mapped ∧ m.site = .threadCachePool})
    (fun m mem => ⟨mem.1,by rw [mem.2]; rfl⟩)
  refine ⟨⟨⟨books.stock.sound,books.stock.classed,books.stock.large,books.stock.apart,books.stock.placed,books.stock.whole,
      fun p size mem => ⟨(books.stock.blocks p size mem).1,(books.stock.blocks p size mem).2.imp
      (fun S owns => ⟨owns.home,owns.mem,owns.size⟩)⟩,
      books.stock.keys,books.stock.served⟩,settled,books.used,books.extent,books.unused,books.buckets,books.once,fun p => ?_,
      ⟨os,(fun m mem site => ⟨mem,site⟩),valid⟩,fun tc' out => books.caches.unborn tc'
      (fun mem => out (by rw [made]; simp [mem])),
      fun u => ?_,fun u some => ?_,fun u v some same => ?_,books.caches.manned⟩,
    ⟨⟨other,fun _ _ => rfl,fun _ _ _ => Iff.rfl,fun _ _ _ _ => rfl,fun _ _ _ _ _ home _ => ⟨home,rfl⟩⟩,
      .refl _,fun _ _ => rfl,fun _ _ => rfl,fun _ _ _ _ => rfl,fun _ _ => rfl⟩⟩
  · exact (books.shelved p).congr (fun _ => Iff.rfl) (fun _ _ => rfl)
      (fun _ _ _ listed => ⟨listed,rfl,rfl⟩) (fun _ _ _ => rfl)
  · by_cases same : u = t
    · subst same; exact .inl none
    · dsimp only; rw [other u same]; exact books.caches.own u
  · dsimp only at some ⊢
    rw [made]
    by_cases same : u = t
    · subst same; rw [here]; simp
    · rw [other u same] at some ⊢; exact List.mem_cons_of_mem _ (books.caches.born u some)
  · dsimp only at some same
    by_cases first : u = t
    · by_cases second : v = t
      · rw [first,second]
      · rw [first,here] at some same
        rw [other v second] at same
        exact absurd same.symm (unborn v (by rw [← same]; exact some))
    · rw [other u first] at some same
      by_cases second : v = t
      · rw [second,here] at same; exact absurd same (unborn u some)
      · rw [other v second] at same; exact books.caches.apart u v some same

/-- The pointer to a thread's cache is stored. -/
theorem Books.storeCache (books : Books b g l w live) (cache : g.cache t = tc) :
    Books b g l { w with tlsThreadCache := Function.update w.tlsThreadCache t tc } live ∧
      Kept t g w g { w with tlsThreadCache := Function.update w.tlsThreadCache t tc } := by
  refine ⟨⟨books.stock,books.settled,books.used,books.extent,books.unused,books.buckets,books.once,
    fun p => ?_,books.caches.pool,
      books.caches.unborn,fun u => ?_,books.caches.born,books.caches.apart,fun tc' => ?_⟩,
    ⟨.refl t g,.refl _,fun u ne => Function.update_of_ne ne ..,fun _ _ => rfl,fun _ _ _ _ => rfl,fun _ _ => rfl⟩⟩
  · exact (books.shelved p).congr (fun _ => Iff.rfl) (fun _ _ => rfl)
      (fun _ _ _ listed => ⟨listed,rfl,rfl⟩) (fun _ _ _ => rfl)
  · by_cases same : u = t
    · subst same; exact .inr ((Function.update_self ..).trans cache.symm)
    · dsimp only; rw [Function.update_of_ne same]; exact books.caches.own u
  · refine (books.caches.manned tc').imp_right (fun ⟨u,stored,made⟩ => ⟨u,?_,made⟩)
    by_cases same : u = t
    · subst same
      have old := (books.caches.own u).resolve_left (by rw [stored]; exact made)
      exact (Function.update_self ..).trans (cache.symm.trans (old.symm.trans stored))
    · exact (Function.update_of_ne same ..).trans stored

/-! ### Blocks -/

/-- The lists do not see objects go from hand to hand. -/
theorem Books.handed (books : Books b g l w live) {A : List Nat} {q : Place} {live' : List (Nat × Nat)}
    (stock : (g.move A q).Valid b live') (here : ∀ x ∈ A, Near t .live (g.place x)) (there : Near t .live q) :
    Books b (g.move A q) l w live' ∧ Kept t g w (g.move A q) w := by
  have far : ∀ p, Near t .live p → (∀ T, p ≠ .free T) ∧ (∀ tc i, p ≠ .cached tc i) ∧ ∀ u, u ≠ t → p ≠ .transit u := by
    rintro p (rfl | rfl)
    · exact ⟨nofun,nofun,fun u ne same => ne (Place.transit.inj same).symm⟩
    · exact ⟨nofun,nofun,nofun⟩
  have places : ∀ x p, ¬ Near t .live p → ((g.move A q).place x = p ↔ g.place x = p) := by
    intro x p away
    by_cases mem : x ∈ A
    · simp only [Stock.move,moved_of_mem mem]
      exact ⟨fun same => absurd (same ▸ there) away,fun same => absurd (same ▸ here x mem) away⟩
    · simp only [Stock.move,moved_of_not_mem mem]
  have own : ∀ (g₁ : Stock) x, Near t .live (g₁.place x) → ¬ Stock.Foreign t g₁ x := by
    rintro g₁ x near (⟨u,ne,same⟩ | ⟨u,T,_,_,same⟩)
    · exact (far _ near).2.2 u ne same
    · exact (far _ near).1 T same
  refine ⟨⟨stock,books.settled,books.used,books.extent,books.unused,books.buckets,books.once,fun p => ?_,books.caches.pool,
      books.caches.unborn,books.caches.own,books.caches.born,books.caches.apart,books.caches.manned⟩,
    ⟨.move (fun x mem => own g x (here x mem)) (fun x mem => own _ x ?_),.refl _,fun _ _ => rfl,
    fun _ _ => rfl,fun _ _ _ _ => rfl,
      fun _ _ => rfl⟩⟩
  · by_cases near : Near t .live p
    · rcases near with rfl | rfl <;> trivial
    · exact (books.shelved p).congr (fun x => places x p near) (fun _ _ => rfl)
        (fun _ _ _ listed => ⟨listed,rfl,rfl⟩) (fun _ _ _ => rfl)
  · simp only [Stock.move,moved_of_mem mem]; exact there

/-- The program writes into its live blocks. -/
theorem Books.blockWritten (books : Books b g l w live) {m : Memory}
    (inside : ∀ y, m y ≠ w.mem y → ∃ p size, (p,size) ∈ live ∧ p ≤ y ∧ y < p + SizeClass.roundUp b.midAlignShift size) :
    Books b g l { w with mem := m } live ∧ Kept t g w g { w with mem := m } := by
  have links : ∀ x, g.place x ≠ .nowhere → g.place x ≠ .live → m.load x = w.mem.load x := by
    intro x somewhere away
    refine Memory.load_congr (fun y low high => ?_)
    by_contra changed
    obtain ⟨p,size,mem,first,last⟩ := inside y changed
    obtain ⟨here,S,owns⟩ := books.stock.blocks p size mem
    obtain ⟨T,h,home,mem',_⟩ := books.stock.placed x somewhere
    have used : g.home T ≠ none := by rw [home]; simp
    have word := (books.stock.sound T used).word
    have size := owns.size
    rcases books.stock.objects_apart owns.home used owns.mem mem'
      (fun same => away (same ▸ here)) with left | right <;> omega
  refine ⟨⟨books.stock,books.settled,books.used,books.extent,books.unused,books.buckets,books.once,fun p => ?_,
      ⟨books.caches.pool,books.caches.unborn,books.caches.own,books.caches.born,books.caches.apart,books.caches.manned⟩⟩,
    ⟨.refl t g,.refl _,fun _ _ => rfl,fun _ _ => rfl,fun _ _ _ _ => rfl,fun x far => links x (foreign_somewhere far) ?_⟩⟩
  · by_cases somewhere : p = .nowhere
    · subst somewhere; trivial
    by_cases away : p = .live
    · subst away; trivial
    exact (books.shelved p).congr (fun _ => Iff.rfl)
      (fun x here => links x (by rw [here]; exact somewhere) (by rw [here]; exact away))
      (fun _ _ _ listed => ⟨listed,rfl,rfl⟩) (fun _ _ _ => rfl)
  · rcases far with ⟨u,_,there⟩ | ⟨u,S,_,_,there⟩ <;> rw [there] <;> simp

end
end World
end TcAlloc
