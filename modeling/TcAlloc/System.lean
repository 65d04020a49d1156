import TcAlloc.Failing
import TcAlloc.SizeClass
import Mathlib.Data.List.Pairwise
import Mathlib.Tactic.Common

/-!
The operating system and what the allocator asks of it. `SystemAlloc` is a
question: the answer is the base of a new mapping, or none when the system has
no memory left and `SystemAlloc` throws. The system's promise about its answers
is `OS.Grants`. `SystemFree` takes a range of bytes out of the mapped memory,
whichever mappings it cuts.
-/
namespace TcAlloc

/-- The mutexes: one for each bucket of the central cache, that of the page
    cache, and those of the two object pools in use while threads run. -/
inductive Mutex where
  | bucket (index : Nat)
  | pageCache
  | spanPool
  | threadCachePool
  deriving DecidableEq

/-- The places `SystemAlloc` is called from. -/
inductive Site where
  /-- A span of at least `NPAGES` pages. -/
  | directSpan
  /-- The span of `NPAGES - 1` pages that a refill takes. -/
  | refill
  /-- A chunk of the pool of descriptors. -/
  | spanPool
  /-- A node of the page map. -/
  | mapNode
  /-- A chunk of the pool of thread caches. -/
  | threadCachePool
  deriving DecidableEq

/-- The pages of a span are asked for, not memory of the allocator's own. -/
def Site.forSpans : Site → Bool
  | .directSpan => true
  | .refill => true
  | _ => false

/-- `SystemAlloc(kpage)` and where it is called. -/
structure Request where
  site : Site
  kpage : Nat
  deriving DecidableEq

/-- Points of the code that the statements below speak about. -/
inductive Event where
  /-- The left loop of `ReleaseSpanToPageCache(span)` is about to absorb `it`. -/
  | absorbLeft (span it : Nat)
  | absorbRight (span it : Nat)
  /-- `SystemFree(ptr, kpage)` is about to be called. -/
  | systemFree (ptr : Nat) (kpage : Nat)
  deriving DecidableEq

/-- How a program goes wrong: a failed assertion, a null pointer that is
    followed, and a loop that runs longer than its bound in the model. -/
inductive Fault where
  | assertion
  | nullPointer
  | outOfFuel
  deriving DecidableEq

/-- Code on the states `σ`. -/
abbrev Code (σ α : Type) := Prog σ Mutex Request (Option Nat) Event Fault α

/-- Bytes that are mapped, with the place that asked for them. -/
structure Mapping where
  base : Nat
  len : Nat
  site : Site
  deriving DecidableEq

/-- What is mapped, and every pair of a base and a page count that `SystemAlloc`
    has returned. -/
structure OS where
  mapped : List Mapping := []
  returned : List (Nat × Nat) := []
  deriving DecidableEq

/-- What is left of a mapping without the bytes from `lo` to `hi`. -/
def Mapping.without (m : Mapping) (lo hi : Nat) : List Mapping :=
  [⟨m.base,min (m.base + m.len) lo - m.base,m.site⟩,
    ⟨max m.base hi,m.base + m.len - max m.base hi,m.site⟩].filter (fun piece => 0 < piece.len)

/-- Two mappings share no byte. -/
def Mapping.Apart (m n : Mapping) : Prop := m.base + m.len ≤ n.base ∨ n.base + n.len ≤ m.base

instance (m n : Mapping) : Decidable (m.Apart n) := inferInstanceAs (Decidable (_ ∨ _))

namespace OS

/-- What the system promises about the base it answers with: the range is inside
    the 48-bit user address space, aligned to the system's pages, and meets
    nothing that is mapped. The length `kpage << PAGE_SHIFT` stands here without its
    wrap, so a request for `2 ^ 51` pages or more is never granted; no caller makes one. -/
def Grants (align : Nat) (os : OS) (kpage base : Nat) : Prop :=
  0 < base ∧ align ∣ base ∧ 0 < kpage ∧ base + kpage * 2 ^ pageShift ≤ 2 ^ 48 ∧
    ∀ m ∈ os.mapped, Mapping.Apart ⟨base,kpage * 2 ^ pageShift,.refill⟩ m

instance (align : Nat) (os : OS) (kpage base : Nat) : Decidable (Grants align os kpage base) :=
  inferInstanceAs (Decidable (_ ∧ _))

/-- The answers to a request, from a system with pages of `align` bytes that
    never fails. -/
def allows (align : Nat) (os : OS) (q : Request) : Option Nat → Prop
  | some base => Grants align os q.kpage base
  | none => False

/-- The answers of a system that may also be out of memory. -/
def mayFail (align : Nat) (os : OS) (q : Request) : Option Nat → Prop
  | some base => Grants align os q.kpage base
  | none => True

/-- The answers of a system that never fails and whose bases for spans are
    multiples of 8 KB. -/
def promises (os : OS) (q : Request) (a : Option Nat) : Prop :=
  os.allows 1 q a ∧ (q.site.forSpans = true → ∀ base, a = some base → 2 ^ pageShift ∣ base)

theorem allows_promises {os : OS} {q : Request} {a : Option Nat} (ok : os.allows (2 ^ pageShift) q a) : os.promises q a := by
  cases a with
  | none => exact ok.elim
  | some base =>
    obtain ⟨pos,aligned,rest⟩ := ok
    exact ⟨⟨pos,Nat.one_dvd _,rest⟩,fun _ base' same => Option.some.inj same ▸ aligned⟩

instance (align : Nat) (os : OS) (q : Request) (a : Option Nat) : Decidable (allows align os q a) :=
  match a with
  | some base => inferInstanceAs (Decidable (Grants align os q.kpage base))
  | none => inferInstanceAs (Decidable False)

instance (align : Nat) (os : OS) (q : Request) (a : Option Nat) : Decidable (mayFail align os q a) :=
  match a with
  | some base => inferInstanceAs (Decidable (Grants align os q.kpage base))
  | none => inferInstanceAs (Decidable True)

end OS

/-- The system after `SystemAlloc(kpage)` has returned `base`. -/
def OS.grant (os : OS) (site : Site) (kpage base : Nat) : OS :=
  ⟨⟨base,kpage * 2 ^ pageShift,site⟩ :: os.mapped,(base,kpage) :: os.returned⟩
/-- The system after `SystemFree(ptr, kpage)`. -/
def OS.unmap (os : OS) (ptr kpage : Nat) : OS :=
  { os with mapped := os.mapped.flatMap (·.without ptr (ptr + kpage * 2 ^ pageShift)) }

/-- `SystemAlloc`. -/
def systemAlloc (site : Site) (kpage : Nat) : Code OS Nat := do
  let ptr ← .answer ⟨site,kpage⟩
  match ptr with
  | none => .raise
  | some base => do
    .modify (·.grant site kpage base)
    return base

/-- `SystemFree`, with the event that a call is about to be made. -/
def systemFree (ptr : Nat) (kpage : Nat) : Code OS Unit := do
  .note (.systemFree ptr kpage)
  .modify (·.unmap ptr kpage)

/-! ### Properties -/

/-- The mappings are nonempty, apart, and inside the address space. -/
structure OS.Valid (os : OS) : Prop where
  nonempty : ∀ m ∈ os.mapped, 0 < m.base ∧ 0 < m.len ∧ m.base + m.len ≤ 2 ^ 48
  apart : os.mapped.Pairwise Mapping.Apart

theorem Mapping.Apart.symm {m n : Mapping} (h : m.Apart n) : n.Apart m := Or.symm h
instance : Std.Symm Mapping.Apart := ⟨fun _ _ => Mapping.Apart.symm⟩

theorem OS.Valid.apart_of_ne {os : OS} (valid : os.Valid) {m n : Mapping} (hm : m ∈ os.mapped) (hn : n ∈ os.mapped)
    (ne : m ≠ n) : m.Apart n :=
  valid.apart.forall hm hn ne

/-- A granted mapping. -/
theorem OS.Valid.grant {os : OS} (valid : os.Valid) {align kpage base : Nat} (site : Site)
    (granted : OS.Grants align os kpage base) :
    (os.grant site kpage base).Valid := by
  obtain ⟨pos,_,some,inside,fresh⟩ := granted
  refine ⟨?_,?_⟩
  · intro m mem
    rcases List.mem_cons.mp mem with rfl | old
    · exact ⟨pos,Nat.mul_pos some (by decide),inside⟩
    · exact valid.nonempty m old
  · exact List.pairwise_cons.mpr ⟨fun m mem => fresh m mem,valid.apart⟩

theorem Mapping.without_apart {m : Mapping} {lo hi : Nat} (pos : 0 < m.len) (ordered : lo ≤ hi)
    (clear : m.base + m.len ≤ lo ∨ hi ≤ m.base) : m.without lo hi = [m] := by
  rcases clear with left | right
  · have first : min (m.base + m.len) lo - m.base = m.len := by omega
    have second : m.base + m.len - max m.base hi = 0 := by omega
    simp [Mapping.without,first,second,pos]
  · have first : min (m.base + m.len) lo - m.base = 0 := by omega
    have second : m.base + m.len - max m.base hi = m.len := by omega
    have start : max m.base hi = m.base := by omega
    simp [Mapping.without,first,start,pos]

theorem Mapping.without_self (m : Mapping) : m.without m.base (m.base + m.len) = [] := by simp [Mapping.without]

/-- Giving back exactly one mapping takes that mapping out and nothing else. -/
theorem OS.Valid.free {os : OS} (valid : os.Valid) {m : Mapping} (mem : m ∈ os.mapped) (n : Mapping) :
    n ∈ os.mapped.flatMap (·.without m.base (m.base + m.len)) ↔ n ∈ os.mapped ∧ n ≠ m := by
  have other : ∀ n ∈ os.mapped, n ≠ m → n.without m.base (m.base + m.len) = [n] := fun n hn ne =>
    Mapping.without_apart (valid.nonempty n hn).2.1 (by omega) (valid.apart_of_ne hn mem ne)
  rw [List.mem_flatMap]
  constructor
  · rintro ⟨n',old,inside⟩
    by_cases same : n' = m
    · subst same
      rw [Mapping.without_self] at inside
      exact absurd inside (by simp)
    · rw [other n' old same,List.mem_singleton] at inside
      exact ⟨inside ▸ old,inside ▸ same⟩
  · rintro ⟨old,ne⟩
    exact ⟨n,old,by rw [other n old ne]; simp⟩

theorem OS.Valid.free_valid {os : OS} (valid : os.Valid) {m : Mapping} (mem : m ∈ os.mapped) :
    OS.Valid { os with mapped := os.mapped.flatMap (·.without m.base (m.base + m.len)) } := by
  refine ⟨fun n hn => valid.nonempty n ((valid.free mem n).mp hn).1,?_⟩
  have pieces : ∀ l : List Mapping, l.Pairwise Mapping.Apart → (∀ n ∈ l, n ∈ os.mapped) →
      (l.flatMap (·.without m.base (m.base + m.len))).Pairwise Mapping.Apart := by
    intro l
    induction l with
    | nil => simp
    | cons n rest ih =>
      intro apart sub
      obtain ⟨first,later⟩ := List.pairwise_cons.mp apart
      have tail := ih later (fun n' hn' => sub n' (by simp [hn']))
      rw [List.flatMap_cons]
      by_cases same : n = m
      · rw [same,Mapping.without_self]; exact tail
      · rw [Mapping.without_apart (valid.nonempty n (sub n (by simp))).2.1 (by omega)
          (valid.apart_of_ne (sub n (by simp)) mem same)]
        refine List.pairwise_cons.mpr ⟨?_,tail⟩
        intro n' hn'
        obtain ⟨src,old,piece⟩ := List.mem_flatMap.mp hn'
        by_cases again : src = m
        · rw [again,Mapping.without_self] at piece; exact absurd piece (by simp)
        · rw [Mapping.without_apart (valid.nonempty src (sub src (by simp [old]))).2.1 (by omega)
            (valid.apart_of_ne (sub src (by simp [old])) mem again),List.mem_singleton] at piece
          exact piece ▸ first src old
  exact pieces os.mapped valid.apart (fun _ h => h)

/-- What calls for one purpose do to the mappings. -/
def OS.Grown (site : Site) (os os' : OS) : Prop :=
  (∃ new : List Mapping, os'.mapped = new ++ os.mapped ∧ ∀ m ∈ new, m.site = site) ∧ ∀ r ∈ os.returned, r ∈ os'.returned

theorem OS.Grown.refl (site : Site) (os : OS) : Grown site os os := ⟨⟨[],rfl,by simp⟩,fun _ h => h⟩
theorem OS.Grown.mem {site : Site} {os os' : OS} (grown : Grown site os os') {m : Mapping} (mem : m ∈ os.mapped) :
    m ∈ os'.mapped := by
  obtain ⟨⟨new,same,_⟩,_⟩ := grown
  rw [same]; exact List.mem_append_right _ mem
theorem OS.Grown.old {site : Site} {os os' : OS} (grown : Grown site os os') {m : Mapping} (mem : m ∈ os'.mapped)
    (other : m.site ≠ site) : m ∈ os.mapped := by
  obtain ⟨⟨new,same,sites⟩,_⟩ := grown
  rw [same] at mem
  rcases List.mem_append.mp mem with fresh | old
  · exact absurd (sites m fresh) other
  · exact old
theorem OS.Grown.grant {site : Site} {os os' : OS} (grown : Grown site os os') (kpage base : Nat) :
    Grown site os (os'.grant site kpage base) := by
  obtain ⟨⟨new,same,sites⟩,returned⟩ := grown
  refine ⟨⟨⟨base,kpage * 2 ^ pageShift,site⟩ :: new,by simp [OS.grant,same],by simpa using sites⟩,?_⟩
  exact fun r mem => List.mem_cons_of_mem _ (returned r mem)

/-- The mappings that pages of spans are in. -/
def OS.spanMappings (os : OS) : List Mapping := os.mapped.filter (·.site.forSpans)

theorem OS.Grown.spanMappings {site : Site} {os os' : OS} (grown : Grown site os os') (other : site.forSpans = false) :
    os'.spanMappings = os.spanMappings := by
  obtain ⟨⟨new,same,sites⟩,_⟩ := grown
  have none : new.filter (·.site.forSpans) = [] :=
    List.filter_eq_nil_iff.mpr (fun m mem => by rw [sites m mem,other]; decide)
  rw [OS.spanMappings,OS.spanMappings,same,List.filter_append,none,List.nil_append]

section
variable {R : Rules OS Mutex Request (Option Nat) Event} {h : List Mutex} {os : OS}

/-- `SystemAlloc` on a system that never fails. -/
theorem systemAlloc_wp {align kpage : Nat} {site : Site} {post : Nat → List Mutex → OS → Prop}
    {thrown : List Mutex → OS → Prop} (answers : ∀ a, R.allowed os ⟨site,kpage⟩ a → os.allows align ⟨site,kpage⟩ a)
    (granted : ∀ base, OS.Grants align os kpage base →
      R.seen none h os (os.grant site kpage base) ∧
      post base h (os.grant site kpage base)) :
    wp R (systemAlloc site kpage) h os post thrown := by
  simp only [systemAlloc,wp_seq,wp_answer]
  intro a ok
  cases a with
  | none => exact (answers none ok).elim
  | some base => exact granted base (answers (some base) ok)

end

/-- `SystemAlloc` throws where the system has no memory. -/
theorem systemAlloc_brittle {h : List Mutex} {D : Request → Prop} {E : List Mutex → Prop} {site : Site}
    {kpage : Nat} (fine : D ⟨site,kpage⟩)
    (may : E h) : (systemAlloc site kpage).Brittle D (· = none) E h (fun _ h' => h' = h) := by
  refine ⟨fine,fun a => ?_⟩
  cases a with
  | none => exact ⟨fun _ => may,fun other => absurd rfl other⟩
  | some base => exact ⟨fun none => (nomatch none),fun _ _ => rfl⟩

/-- The first and the second part of a pair of states. -/
def Lens.first {σ τ : Type} : Lens (σ × τ) σ :=
  ⟨Prod.fst,fun s t => (t,s.2),fun _ _ => rfl,fun _ => rfl,fun _ _ _ => rfl⟩
def Lens.second {σ τ : Type} : Lens (σ × τ) τ :=
  ⟨Prod.snd,fun s t => (s.1,t),fun _ _ => rfl,fun _ => rfl,fun _ _ _ => rfl⟩

end TcAlloc
