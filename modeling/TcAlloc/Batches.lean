import TcAlloc.PageCalls
import TcAlloc.Points

/-!
What the pieces of code between two critical points do: the loops over chains,
the operations under the mutex of a bucket, and the two under the mutex of the
page cache. The observer of a piece only sees the mutexes that are held.
-/
namespace TcAlloc
namespace World

/-! ### Loops over chains -/

section
variable {m : Memory} {a : Nat} {l : List Nat}

/-- The loop of `FetchRangeObj` stops `left` objects further, or where the chain ends. -/
theorem batchEnd_spec {k end_ n : Nat} (chain : Chain m end_ l) (some : end_ ≠ 0) : ∃ A last B, l = A ++ last :: B ∧
    batchEnd m k end_ n = (last,n + A.length) ∧ A.length = min k (l.length - 1) := by
  induction k generalizing end_ n l with
  | zero =>
    obtain ⟨rest,rfl,_⟩ := chain.of_ne_zero some
    exact ⟨[],end_,rest,rfl,rfl,by simp⟩
  | succ k ih =>
    obtain ⟨rest,rfl,tail⟩ := chain.of_ne_zero some
    by_cases more : m.load end_ ≠ 0
    · obtain ⟨A,last,B,rfl,result,short⟩ := ih (n := n + 1) tail more
      refine ⟨end_ :: A,last,B,rfl,?_,?_⟩
      · rw [batchEnd,if_pos more,result,List.length_cons]
        congr 1
        omega
      · simp only [List.length_cons,List.length_append] at short ⊢
        omega
    · rw [not_not] at more
      rw [more,Chain.nil_iff] at tail
      exact ⟨[],end_,rest,rfl,by rw [batchEnd,if_neg (not_not.mpr more)]; rfl,by rw [tail]; simp⟩

/-- The walk of `PopRange`. -/
theorem follow_spec {n : Nat} (chain : Chain m a l) (enough : n < l.length) : ∃ A last B, l = A ++ last :: B ∧ A.length = n ∧
    follow m n a = .ok last := by
  induction n generalizing a l with
  | zero =>
    cases chain with
    | nil => simp at enough
    | @cons _ rest nonzero tail => exact ⟨[],a,rest,rfl,rfl,rfl⟩
  | succ n ih =>
    cases chain with
    | nil => simp at enough
    | @cons _ rest nonzero tail =>
      obtain ⟨A,last,B,rfl,length,result⟩ := ih tail (by simpa using enough)
      exact ⟨a :: A,last,B,rfl,by rw [List.length_cons,length],by rw [follow,if_neg nonzero,result]⟩

/-- The objects that the carving loop links from `tail` on. -/
def carved (size end_ : Nat) : Nat → Nat → List Nat
  | 0, _ => []
  | rounds+1, start => if start + size < end_ then start :: carved size end_ rounds (start + size) else []

theorem carved_lower {size end_ rounds start : Nat} : ∀ x ∈ carved size end_ rounds start, start ≤ x := by
  induction rounds generalizing start with
  | zero => simp [carved]
  | succ rounds ih =>
    intro x mem
    rw [carved] at mem
    split_ifs at mem
    · rcases List.mem_cons.mp mem with rfl | later
      · exact le_refl _
      · exact le_trans (Nat.le_add_right _ _) (ih x later)
    · cases mem

/-- The carving loop ends, and leaves the chain of the objects. -/
theorem carveFrom_spec {size end_ rounds tail start : Nat} (word : 8 ≤ size) (after : tail + size = start) (some : tail ≠ 0)
    (small : end_ < 2 ^ 64) (enough : end_ ≤ start + rounds * size) (pos : 0 < rounds) :
    ∃ m', carveFrom size end_ rounds m tail start = .ok m' ∧ Chain m' tail (tail :: carved size end_ rounds start) ∧
      Written (fun x => x ∈ tail :: carved size end_ rounds start) m m' := by
  induction rounds generalizing m tail start with
  | zero => omega
  | succ rounds ih =>
    by_cases more : start + size < end_
    · have rounds_pos : 0 < rounds := by
        by_contra zero
        have : rounds = 0 := by omega
        subst this
        omega
      obtain ⟨m',result,chain,written⟩ := ih (m := m.store tail start) (rfl : start + size = start + size) (by omega)
        (by rw [Nat.add_mul] at enough; omega) rounds_pos
      refine ⟨m',by rw [carveFrom,if_pos more,result],?_,?_⟩
      · rw [carved,if_pos more]
        refine .cons some ?_
        have same : m'.load tail = (m.store tail start).load tail := written.load (fun x mem => ?_)
        · rw [same,Memory.load_store m tail (by omega)]; exact chain
        · rcases List.mem_cons.mp mem with rfl | later
          · exact .inr (by omega)
          · have := carved_lower x later
            exact .inr (by omega)
      · rw [carved,if_pos more]
        exact (Written.store start (by simp)).trans (written.mono (fun x mem => List.mem_cons_of_mem _ mem))
    · refine ⟨m.store tail 0,by rw [carveFrom,if_neg more],?_,?_⟩
      · rw [carved,if_neg more]
        refine .cons some ?_
        rw [Memory.load_store m tail (by decide)]
        exact .nil
      · rw [carved,if_neg more]
        exact Written.store 0 (by simp)

end

/-- What is carved are the objects of the span. -/
theorem carved_objects {e : Extent} (sound : e.Sound) {rounds : Nat} (enough : e.bytes ≤ rounds) :
    e.base :: carved e.objSize (e.base + e.bytes) rounds (e.base + e.objSize) = e.objects := by
  have word := sound.word
  -- From the object `j` on, the rest of them.
  have general : ∀ rounds j, e.bytes ≤ (j + rounds) * e.objSize →
      carved e.objSize (e.base + e.bytes) rounds (e.base + j * e.objSize) =
        (List.range' j ((e.bytes - 1) / e.objSize - j)).map (fun i => e.base + i * e.objSize) := by
    intro rounds
    induction rounds with
    | zero =>
      intro j enough
      have none : (e.bytes - 1) / e.objSize - j = 0 := by
        have : (e.bytes - 1) / e.objSize ≤ j := by
          rw [Nat.div_le_iff_le_mul_add_pred (by omega)]
          rw [Nat.add_zero,Nat.mul_comm] at enough
          omega
        omega
      rw [none]; rfl
    | succ rounds ih =>
      intro j enough
      have next : e.base + j * e.objSize + e.objSize = e.base + (j + 1) * e.objSize := by rw [Nat.add_mul]; omega
      rw [carved,next]
      by_cases more : e.base + (j + 1) * e.objSize < e.base + e.bytes
      · have some : j + 1 ≤ (e.bytes - 1) / e.objSize := (Nat.le_div_iff_mul_le (by omega)).mpr (by omega)
        rw [if_pos more,ih (j + 1) (by rw [Nat.add_assoc,Nat.add_comm 1]; exact enough)]
        obtain ⟨k,count⟩ := Nat.exists_eq_add_of_le some
        rw [count,show j + 1 + k - j = k + 1 by omega,show j + 1 + k - (j + 1) = k by omega,List.range'_succ]
        rfl
      · have none : (e.bytes - 1) / e.objSize - j = 0 := by
          have : (e.bytes - 1) / e.objSize < j + 1 := (Nat.div_lt_iff_lt_mul (by omega)).mpr (by omega)
          omega
        rw [if_neg more,none]; rfl
  have first := general rounds 1 (le_trans enough (by
    have := Nat.le_mul_of_pos_right (1 + rounds) (show 0 < e.objSize by omega)
    omega))
  rw [Nat.one_mul] at first
  rw [first,Extent.objects,Extent.count]
  by_cases one : (e.bytes - 1) / e.objSize ≤ 1
  · rw [max_eq_left one,show (e.bytes - 1) / e.objSize - 1 = 0 by omega]
    simp
  · rw [max_eq_right (by omega)]
    obtain ⟨k,count⟩ := Nat.exists_eq_add_of_le (show 1 ≤ (e.bytes - 1) / e.objSize by omega)
    rw [count,Nat.add_sub_cancel_left,List.range_eq_range',Nat.add_comm 1 k,List.range'_succ]
    simp

theorem withList_self (w : World) (tc i : Nat) : w.withList tc i w.mem (w.freeLists tc i) = w := by
  simp [withList]

/-! ### Under the mutex of a bucket -/

/-- The observer of a whole section, and that of a piece of it under a mutex: the
    system never fails, and its pages for spans are whole pages of the allocator. -/
def sections : Rules World Mutex Request (Option Nat) Event :=
    ⟨fun w q a => w.pages.os.allows (2 ^ pageShift) q a,fun _ _ _ _ => True⟩
def inside : Rules World Mutex Request (Option Nat) Event :=
    ⟨fun w q a => w.pages.os.allows (2 ^ pageShift) q a,fun _ h _ _ => h ≠ []⟩

section
variable {b : Build} {w : World} {h : List Mutex} {S : Nat} {thrown : List Mutex → World → Prop}

theorem sec_inside {α : Type} {C : Code World α → World → Prop} {post : α → List Mutex → World → Prop} {p : Code World α}
    (held : h ≠ []) (holds : wp inside p h w post thrown) : sec sections C p h w post thrown :=
  sec_of_wp (I := inside) (fun _ _ _ ok => ok) (fun _ _ _ _ seen => ⟨seen,trivial⟩) held holds

@[simp] theorem getSpan_wp {post : Span → List Mutex → World → Prop} :
    wp inside (getSpan S) h w post thrown ↔ h ≠ [] ∧ post (w.pages.spans S) h w := Iff.rfl
@[simp] theorem putSpan_wp {f : Span → Span} {post : Unit → List Mutex → World → Prop} :
    wp inside (putSpan S f) h w post thrown ↔ h ≠ [] ∧ post () h { w with pages := w.pages.write S f } := Iff.rfl
@[simp] theorem setNext_wp {obj next : Nat} {post : Unit → List Mutex → World → Prop} :
    wp inside (setNext obj next) h w post thrown ↔ h ≠ [] ∧ post () h { w with mem := w.mem.store obj next } := Iff.rfl

theorem mapObjectToSpan_wp {obj : Nat} {post : Nat → List Mutex → World → Prop} (held : h ≠ [])
    (found : w.pages.entry (obj >>> pageShift) = S)
    (some : S ≠ 0) (ends : post S h w) : wp inside (mapObjectToSpan obj) h w post thrown := by
  simp only [mapObjectToSpan,Pages.findPage,wp_seq]
  refine wp_zoom pagesPart (I := ⟨fun _ _ _ => True,fun m h' t t' => h' ≠ [] ∧ t = w.pages ∧ t' = t⟩)
    (P := fun v h' t => v = S ∧ h' = h ∧ t = w.pages) (E := fun _ _ => False) (fun _ _ _ _ => trivial)
    (fun m h' t t' seen => seen.1) ?_ (fun _ _ impossible => impossible.elim) ?_
  · rintro v h' t ⟨rfl,rfl,rfl⟩
    refine (wp_require _ _).mpr ⟨some,?_⟩
    exact ends
  · refine wp_zoom Pages.lookupPart (I := ⟨fun _ _ _ => True,fun m h' t t' => h' ≠ [] ∧ t = w.pages.idSpanMap ∧ t' = t⟩)
      (P := fun v h' t => v = S ∧ h' = h ∧ t = w.pages.idSpanMap) (E := fun _ _ => False) (fun _ _ _ _ => trivial)
      ?_ ?_ (fun _ _ impossible => impossible.elim) (PageMap.load_wp ⟨held,rfl,rfl⟩ ⟨found,rfl,rfl⟩)
    · rintro m h' t t' ⟨held',rfl,rfl⟩; exact ⟨held',rfl,rfl⟩
    · rintro v h' t ⟨rfl,rfl,rfl⟩; exact ⟨rfl,rfl,rfl⟩

/-- The search of `GetOneSpan`. -/
theorem firstFree_wp {list : List Nat} {post : Option Nat → List Mutex → World → Prop} (held : h ≠ [])
    (ends : ∀ found, (∀ S, found = some S → S ∈ list ∧ (w.pages.spans S).freeList ≠ 0) → post found h w) :
    wp inside (firstFree list) h w post thrown := by
  induction list with
  | nil => exact ends none (fun _ same => nomatch same)
  | cons it later ih =>
    simp only [firstFree,wp_seq,getSpan_wp]
    refine ⟨held,?_⟩
    by_cases some : (w.pages.spans it).freeList ≠ 0
    · rw [if_pos some]
      exact ends (Option.some it) (fun S same => by cases same; exact ⟨List.mem_cons_self,some⟩)
    · rw [if_neg some]
      exact ih (fun found facts => ends found (fun S same => ⟨List.mem_cons_of_mem _ (facts S same).1,(facts S same).2⟩))

theorem write_write (pages : Pages) (S : Nat) (f f' : Span → Span) : (pages.write S f).write S
    f' = pages.write S (fun s => f' (f s)) := by
  simp [Pages.write]

/-- A batch cut off the front of a span's list. -/
theorem cutBatch_wp {free : List Nat} {batchNum : Nat} (held : h ≠ []) (chain : Chain w.mem (w.pages.spans S).freeList free)
    (some : (w.pages.spans S).freeList ≠ 0) {post : Nat × Nat × Nat → List Mutex → World → Prop}
    (ends : ∀ A last B, free = A ++ last :: B → A.length = min (minus batchNum 1) (free.length - 1) →
      post ((w.pages.spans S).freeList,last,1 + A.length) h { w with
      pages := w.pages.write S (fun s => { s with freeList := w.mem.load last, useCount := s.useCount + (1 + A.length) }),
      mem := w.mem.store last 0 }) :
    wp inside (cutBatch batchNum S) h w post thrown := by
  unfold cutBatch
  obtain ⟨left,rounds⟩ : ∃ left, minus batchNum 1 = left := ⟨_,rfl⟩
  rw [rounds]
  obtain ⟨A,last,B,split,result,short⟩ := batchEnd_spec (k := left) (n := 1) chain some
  have after := ends A last B split (by rw [rounds]; exact short)
  simp only [wp_seq,getSpan_wp,putSpan_wp,setNext_wp,wp_require,wp_read,wp_pure,result]
  refine ⟨held,some,held,held,held,held,held,?_⟩
  rw [write_write]
  exact after

/-- An object back on the list of its span. -/
theorem returnObject_wp {start : Nat} (held : h ≠ []) (found : w.pages.entry (start >>> pageShift) = S) (some : S ≠ 0)
    {post : Nat × Nat × Nat → List Mutex → World → Prop}
    (ends : post (S,w.mem.load start,minus (w.pages.spans S).useCount 1) h { w with
      pages := w.pages.write S (fun s => { s with freeList := start, useCount := minus s.useCount 1 }),
      mem := w.mem.store start (w.pages.spans S).freeList }) :
    wp inside (returnObject start) h w post thrown := by
  simp only [returnObject,wp_seq]
  refine mapObjectToSpan_wp held found some ?_
  simp only [wp_require,wp_read,getSpan_wp,putSpan_wp,setNext_wp,wp_pure]
  refine ⟨some,held,held,held,held,held,held,?_⟩
  rw [write_write,Pages.write_self]
  exact ends

/-- A span out of its bucket. -/
theorem unlinkSpan_wp {index : Nat} (held : h ≠ []) (linked : S ∈ w.spanLists index)
    {post : Unit → List Mutex → World → Prop}
    (ends : post () h { w with
      pages := w.pages.write S (fun s => { s with freeList := 0 }),
      spanLists := Function.update w.spanLists index ((w.spanLists index).erase S) }) :
    wp inside (unlinkSpan index S) h w post thrown := by
  simp only [unlinkSpan,wp_seq]
  refine (wp_step_ok (R := inside) (b := ()) (if_pos linked)).mpr ⟨held,?_⟩
  exact putSpan_wp.mpr ⟨held,ends⟩

end

/-! ### Under the mutex of the page cache -/

section
variable {b : Build} {g : Stock} {l : Ledger} {w : World} {live : List (Nat × Nat)} {S : Nat}
  {post : Nat → List Mutex → World → Prop}
  {thrown : List Mutex → World → Prop}

/-- What an operation of the page cache is watched for. -/
def watching : Pages.PageRules :=
  ⟨fun pages q a => pages.os.allows (2 ^ pageShift) q a,fun _ h pages pages' => h ≠ [] ∧
  pages.idSpanMap.Persists pages'.idSpanMap⟩

theorem watch_watching (l : Ledger) : Pages.Watch watching [.pageCache] l := by
  refine ⟨fun w q a ok => OS.allows_promises ok,by simp,fun h' w w' held _ _ persists => ⟨?_,persists⟩,
    fun w e _ => ⟨by simp,.refl _⟩⟩
  rcases held with rfl | rfl <;> simp

/-- An operation of the page cache as a piece of a section of the whole. -/
theorem wp_watching {α : Type} {p : Code Pages α} {post : α → List Mutex → World → Prop} {Q : α → Pages → Prop}
    (holds : wp watching p [.pageCache] w.pages (fun a h pages => h = [.pageCache] ∧ Q a pages) (fun _ _ => False))
    (ends : ∀ a pages, Q a pages → w.pages.idSpanMap.Persists pages.idSpanMap → post a [.pageCache]
    { w with pages := pages }) :
    wp inside (p.zoom pagesPart) [.pageCache] w post thrown := by
  refine wp_zoom pagesPart (I := watching) (fun _ _ _ ok => ok) (fun _ _ _ _ seen => seen.1) ?_
    (fun _ _ impossible => impossible.elim)
    (wp_trace (R := watching) (T := fun pages pages' => pages.idSpanMap.Persists pages'.idSpanMap)
    (fun _ => .refl _) (fun _ _ _ => .trans)
      (fun _ _ _ _ seen => seen.2) holds)
  rintro a h pages ⟨persists,rfl,result⟩
  exact ends a pages result persists

/-- A span from the page cache, whose pages were free or come with a refill if it is short. -/
theorem takeSpan_sec {C : Code World Nat → World → Prop} {npage size : Nat}
    (settled : Pages.Settled l w.pages) (pos : 0 < npage)
    (ends : ∀ S s pages, l.used S = none → Pages.Settled (l.take S s) pages → w.pages.idSpanMap.Persists
    pages.idSpanMap → s.n = npage →
      s.objSize = size → s.useCount = 0 → (npage < npages → Pages.Drawn w.pages S pages) →
      C (.ret S) { w with pages := pages }) :
    sec sections C (takeSpan b npage size) [] w post thrown := by
  have long := b.long
  refine sec_holding (I := inside) (fun _ _ _ ok => ok) (fun _ _ _ _ seen => seen) (fun _ _ _ _ => trivial) ?_
  rw [wp_seq]
  have taken : wp watching (Pages.newSpan b.rounds npage) [.pageCache] w.pages
      (fun S h pages => h = [.pageCache] ∧ Pages.Ready l npage S pages ∧
      (npage < npages → Pages.Provides w.pages npage S pages))
      (fun _ _ => False) := by
    by_cases short : npage < npages
    · apply Pages.newSpan_short_wp (watch_watching l) settled.guarded settled pos short (by omega)
      intro S pages ready supplied _
      exact ⟨rfl,ready,fun _ => supplied.provides settled ready⟩
    · apply Pages.newSpan_wp (watch_watching l) settled.guarded settled pos (by omega)
      intro S pages ready _
      exact ⟨rfl,ready,fun short' => absurd short' short⟩
  refine wp_watching taken (fun S pages facts persists => ?_)
  obtain ⟨ready,provides⟩ := facts
  simp only [wp_seq,putSpan_wp,wp_pure]
  refine ⟨by simp,by simp,trivial,?_⟩
  rw [write_write]
  have unused := ready.opened.open_unused (Set.mem_singleton S)
  set f : Span → Span := fun s => { { s with isUse := true } with objSize := size } with hf
  refine ends S (f (pages.spans S)) (pages.write S f) unused (ready.handOut pos (f := f) rfl rfl rfl)
    persists ready.n rfl ready.unused ?_
  intro short
  have few : npages = 129 := rfl
  exact (provides short).drawn pos (by omega) rfl rfl rfl

/-- A span given back to the page cache. -/
theorem releaseSpan_sec {C : Code World Unit → World → Prop} {s : Span} {post : Unit → List Mutex → World → Prop}
    (settled : Pages.Settled l w.pages) (used : l.used S = some s) (unused : s.useCount = 0)
    (quiet : s.n < npages → w.pages.Quiet S)
    (ends : ∀ pages, Pages.Settled (Pages.released l S s) pages → w.pages.idSpanMap.Persists pages.idSpanMap →
      Pages.Returned w.pages S s pages → C (.ret ()) { w with pages := pages }) :
    sec sections C (releaseSpan b S) [] w post thrown := by
  have long := b.long
  refine sec_holding (I := inside) (fun _ _ _ ok => ok) (fun _ _ _ _ seen => seen) (fun _ _ _ _ => trivial) ?_
  refine wp_watching (Q := fun _ pages => Pages.Settled (Pages.released l S s) pages ∧ Pages.Returned w.pages S s pages)
    (Pages.release_wp (watch_watching _) (settled.takeBack used).1.guarded settled used unused quiet
    (by have : npages = 129 := rfl; omega)
      (fun pages settled' _ returned => ⟨rfl,settled',returned⟩)) (fun _ pages facts persists => ?_)
  exact ⟨rfl,ends pages facts.1 persists facts.2⟩

/-- A thread cache from the pool. -/
theorem newCache_sec {C : Code World Nat → World → Prop} (books : Books b g l w live)
    (ends : ∀ tc pool os, pool.Valid .threadCachePool (threadCacheBytes b) os → os.Valid →
    OS.Grown .threadCachePool w.pages.os os →
      tc ∉ w.tcPool.live → tc ≠ 0 → pool.live = tc :: w.tcPool.live →
      C (.ret tc) { w with tcPool := pool, pages := { w.pages with os := os } }) :
    sec sections C ((ObjectPool.new .threadCachePool .threadCachePool (threadCacheBytes b)).zoom tcPoolPart) [] w post
    thrown := by
  obtain ⟨os₀,aside,valid₀⟩ := books.caches.pool
  have valid : w.tcPool.Valid .threadCachePool (threadCacheBytes b) w.pages.os :=
    valid₀.mono (fun m mem site => (books.settled.aside m (aside m mem site)).1)
  rw [ObjectPool.new,Prog.zoom_locked]
  refine sec_locked (I := inside) (fun _ _ _ ok => ok) (fun _ _ _ _ seen => seen) (fun _ _ _ _ => trivial) ?_
  refine wp_zoom tcPoolPart (I := ⟨fun t q a => t.2.allows (2 ^ pageShift) q a,fun _ h _ _ => h = [.threadCachePool]⟩)
    (P := fun tc h t => h = [.threadCachePool] ∧ t.1.Valid .threadCachePool (threadCacheBytes b) t.2 ∧ t.2.Valid ∧
      OS.Grown .threadCachePool w.pages.os t.2 ∧ tc ∉ w.tcPool.live ∧ tc ≠ 0 ∧ t.1.live = tc :: w.tcPool.live)
    (E := fun _ _ => False) (fun _ _ _ ok => ok) (fun _ h _ _ seen => ?_) ?_ (fun _ _ impossible => impossible.elim)
    (ObjectPool.handOut_wp valid books.settled.system (fun _ _ _ ok => ok) (fun _ _ _ _ => rfl)
    (fun tc pool os valid' system grown fresh some made =>
      ⟨rfl,valid',system,grown,fresh,some,made⟩))
  · rw [show h = [.threadCachePool] from seen]; exact List.cons_ne_nil _ _
  · rintro tc h ⟨pool,os⟩ ⟨rfl,valid',system,grown,fresh,some,made⟩
    exact ⟨rfl,ends tc pool os valid' system grown fresh some made⟩

end
end World
end TcAlloc
