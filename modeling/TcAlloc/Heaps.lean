import TcAlloc.Systems
import Mathlib.Data.List.Nodup
import Mathlib.Data.List.Pairwise
import Mathlib.Data.Set.Basic
import Mathlib.Tactic.Common

/-!
What an allocator is for, whatever it does inside. A heap has live blocks with their
cells, and the contents of its cells. A thread asks for a block and gets one that is
fresh, or gives a live block back; the program writes and reads cells of live blocks.
The contents of other cells may change at any time. Addresses and values are of any
types, and a layout says which cells a block has and where blocks may begin.
-/
namespace TcAlloc

/-- What an observer sees of an allocator and the memory that it hands out. Cells that
    are written, or read, are given with their values. -/
inductive Access (ι A V : Type) where
  /-- The thread calls for a block of the size. -/
  | asks (t : ι) (size : Nat)
  /-- The call returns the block at `p`. -/
  | gets (t : ι) (p : A)
  /-- The thread gives the block at `p` back. -/
  | gives (t : ι) (p : A)
  | done (t : ι)
  | writes (cells : A → Option V)
  | reads (cells : A → Option V)

/-- Where a thread is. -/
inductive Pending where
  | idle
  | asking (size : Nat)
  | giving

/-- The cells of a block, and where blocks may begin. -/
structure Layout (A : Type) where
  cells : A → Nat → Set A
  good : A → Prop

/-- The live blocks with their sizes, the contents of all cells, and the threads. -/
structure Heap (ι A V : Type) where
  live : List (A × Nat)
  contents : A → V
  pending : ι → Pending

namespace Heap
variable {ι A V : Type} [DecidableEq ι] [DecidableEq A]

/-- The cell belongs to a live block. -/
def Owned (L : Layout A) (live : List (A × Nat)) (x : A) : Prop := ∃ b ∈ live, x ∈ L.cells b.1 b.2

/-- Two blocks begin at different places and share no cell. -/
def Apart (L : Layout A) (b c : A × Nat) : Prop := b.1 ≠ c.1 ∧ ∀ x ∈ L.cells b.1 b.2, x ∉ L.cells c.1 c.2

omit [DecidableEq A] in
theorem Apart.symm {L : Layout A} {b c : A × Nat} (apart : Apart L b c) : Apart L c b :=
  ⟨apart.1.symm,fun x second first => apart.2 x first second⟩

/-- A block that may be handed out. -/
def Fresh (L : Layout A) (live : List (A × Nat)) (p : A) (size : Nat) : Prop :=
  L.good p ∧ ∀ b ∈ live, Apart L b (p,size)

/-- The contents with some cells written. -/
def overlay (cells : A → Option V) (contents : A → V) : A → V := fun x => (cells x).getD (contents x)

def wait (h : Heap ι A V) (t : ι) (pending : Pending) : Heap ι A V :=
  { h with pending := Function.update h.pending t pending }

inductive Step (L : Layout A) (h : Heap ι A V) : Option (Access ι A V) → Heap ι A V → Prop
  | asks {t : ι} {size : Nat} (idle : h.pending t = .idle) : Step L h (some (.asks t size)) (h.wait t (.asking size))
  | gets {t : ι} {size : Nat} {p : A} (asked : h.pending t = .asking size) (fresh : Fresh L h.live p size) :
      Step L h (some (.gets t p)) { h.wait t .idle with live := (p,size) :: h.live }
  | gives {t : ι} {size : Nat} {p : A} (idle : h.pending t = .idle) (live : (p,size) ∈ h.live) :
      Step L h (some (.gives t p)) { h.wait t .giving with live := h.live.erase (p,size) }
  | done {t : ι} (gave : h.pending t = .giving) : Step L h (some (.done t)) (h.wait t .idle)
  | writes {cells : A → Option V} (inside : ∀ x, cells x ≠ none → Owned L h.live x) :
      Step L h (some (.writes cells)) { h with contents := overlay cells h.contents }
  | reads {cells : A → Option V} (inside : ∀ x, cells x ≠ none → Owned L h.live x)
      (seen : ∀ x v, cells x = some v → h.contents x = v) : Step L h (some (.reads cells)) h
  /-- The allocator is at work on cells of its own. -/
  | stirs {contents : A → V} (kept : ∀ x, Owned L h.live x → contents x = h.contents x) :
      Step L h none { h with contents := contents }

end Heap

/-- The heap as a system, which starts without blocks and with any contents. -/
def heap (ι : Type) {A : Type} (V : Type) [DecidableEq ι] [DecidableEq A] (L : Layout A) :
    System (Access ι A V) (Heap ι A V) where
  init h := h.live = [] ∧ ∀ t, h.pending t = .idle
  step h := Heap.Step L h

namespace Heap
section
variable {ι A V : Type} {L : Layout A} {h h' : Heap ι A V} {p q x : A} {n m : Nat}

/-- The live blocks are apart from each other. -/
structure Sound (L : Layout A) (live : List (A × Nat)) : Prop where
  apart : live.Pairwise (Apart L)
  good : ∀ b ∈ live, L.good b.1

theorem Sound.keys {live : List (A × Nat)} (sound : Sound L live) : (live.map Prod.fst).Nodup :=
  List.pairwise_map.mpr (sound.apart.imp And.left)

/-- A place is that of one block. -/
theorem Sound.unique {live : List (A × Nat)} (sound : Sound L live) (first : (p,n) ∈ live) (second : (p,m) ∈ live) :
    n = m :=
  congrArg Prod.snd (List.inj_on_of_nodup_map sound.keys first second rfl)

/-- A cell is one of one block. -/
theorem Sound.owner {live : List (A × Nat)} (sound : Sound L live) (first : (p,n) ∈ live) (second : (q,m) ∈ live)
    (inFirst : x ∈ L.cells p n) (inSecond : x ∈ L.cells q m) : p = q := by
  by_contra ne
  have symm : Std.Symm (Apart L) := ⟨fun _ _ => Apart.symm⟩
  have apart := sound.apart.forall first second (fun same => ne (congrArg Prod.fst same))
  exact apart.2 x inFirst inSecond

variable [DecidableEq A]

/-- What is left of a block that was given back is not at its place. -/
theorem Sound.erased {live : List (A × Nat)} (sound : Sound L live) (mem : (p,n) ∈ live) :
    (q,m) ∈ live.erase (p,n) ↔ q ≠ p ∧ (q,m) ∈ live := by
  rw [(List.Nodup.of_map _ sound.keys).mem_erase_iff]
  refine ⟨fun both => ⟨fun same => both.1 ?_,both.2⟩,fun both => ⟨fun same => both.1 (congrArg Prod.fst same),both.2⟩⟩
  subst same
  rw [sound.unique both.2 mem]

variable [DecidableEq ι]

theorem Sound.step {a : Option (Access ι A V)} (sound : Sound L h.live) (step : Step L h a h') : Sound L h'.live := by
  cases step with
  | gets asked fresh =>
    refine ⟨List.pairwise_cons.mpr ⟨fun b mem => ?_,sound.apart⟩,fun b mem => ?_⟩
    · exact (fresh.2 b mem).symm
    · rcases List.mem_cons.mp mem with rfl | old
      · exact fresh.1
      · exact sound.good b old
  | gives idle live =>
    exact ⟨sound.apart.sublist List.erase_sublist,fun b mem => sound.good b (List.mem_of_mem_erase mem)⟩
  | asks idle => exact sound
  | done gave => exact sound
  | writes inside => exact sound
  | reads inside seen => exact sound
  | stirs kept => exact sound

/-- In every state that is reached the live blocks are apart. -/
theorem reaches_sound (reached : (heap ι V L).Reaches h) : Sound L h.live :=
  reached.keeps (P := fun h => Sound L h.live) (fun h init => by rw [init.1]; exact ⟨List.Pairwise.nil,by simp⟩)
    (fun _ _ _ sound step => sound.step step)

end
end Heap

/-! ### Some of the threads -/

section
variable {ι κ A V : Type}

/-- What is seen of a thread under another name. -/
def Access.along (f : ι → κ) : Access ι A V → Access κ A V
  | .asks t size => .asks (f t) size
  | .gets t p => .gets (f t) p
  | .gives t p => .gives (f t) p
  | .done t => .done (f t)
  | .writes cells => .writes cells
  | .reads cells => .reads cells

/-- The heap with the threads that have names. -/
def Heap.along (f : ι → κ) (h : Heap κ A V) : Heap ι A V := ⟨h.live,h.contents,fun t => h.pending (f t)⟩

variable [DecidableEq ι] [DecidableEq κ] {f : ι → κ}

theorem Heap.along_wait (injective : Function.Injective f) (h : Heap κ A V) (t : ι) (pending : Pending) :
    (h.wait (f t) pending).along f = (h.along f).wait t pending := by
  have same : Function.update h.pending (f t) pending ∘ f = Function.update (h.pending ∘ f) t pending :=
    Function.update_comp_eq_of_injective _ injective _ _
  exact congrArg (Heap.mk h.live h.contents) same

variable [DecidableEq A] {L : Layout A}

/-- A heap without blocks that goes on with new threads is one that starts with them. -/
theorem heap_later (injective : Function.Injective f) {h : Heap κ A V} (empty : h.live = [])
    (idle : ∀ t, h.pending (f t) = .idle) :
    System.Simulates ((heap κ V L).later (Access.along f) h) (heap ι V L) (fun h k => k = h.along f) where
  start := by
    rintro _ rfl
    exact ⟨_,⟨empty,idle⟩,rfl⟩
  silent := by
    rintro h _ h' rfl step
    cases step with
    | stirs kept => exact ⟨_,.single (.stirs kept),rfl⟩
  shown := by
    rintro h _ a h' rfl step
    refine ⟨h'.along f,?_,rfl⟩
    cases a with
    | asks t size =>
      cases step with
      | asks idle =>
        rw [Heap.along_wait injective]
        exact .asks idle
    | gets t p =>
      cases step with
      | @gets _ size _ asked fresh =>
        have same : Heap.along f { h.wait (f t) .idle with live := (p,size) :: h.live } =
            { (h.along f).wait t .idle with live := (p,size) :: (h.along f).live } := by
          rw [← Heap.along_wait injective]
          rfl
        rw [same]
        exact .gets asked fresh
    | gives t p =>
      cases step with
      | @gives _ size _ idle live =>
        have same : Heap.along f { h.wait (f t) .giving with live := h.live.erase (p,size) } =
            { (h.along f).wait t .giving with live := (h.along f).live.erase (p,size) } := by
          rw [← Heap.along_wait injective]
          rfl
        rw [same]
        exact .gives idle live
    | done t =>
      cases step with
      | done gave =>
        rw [Heap.along_wait injective]
        exact .done gave
    | writes cells =>
      cases step with
      | writes inside => exact .writes inside
    | reads cells =>
      cases step with
      | reads inside seen => exact .reads inside seen

end
end TcAlloc
