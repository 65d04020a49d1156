import TcAlloc.Chains

/-!
Where things are kept. A placing says of every address at which place it is, so
nothing is at two places. What is at a place is listed (`Holding`); a list that is
threaded through the memory of the things themselves is a shelf (`Shelf`). Things
move from place to place a batch at a time (`moved`), and a batch is cut off the
front of a shelf or tied to it by one store in its last thing.
-/
namespace TcAlloc

variable {P : Type} {place place' : Nat → P} {p q : P} {l A B : List Nat}

/-- The things of `A` are moved to `q`. -/
def moved (place : Nat → P) (A : List Nat) (q : P) : Nat → P := fun x => if x ∈ A then q else place x

theorem moved_of_mem {x : Nat} (mem : x ∈ A) : moved place A q x = q := if_pos mem
theorem moved_of_not_mem {x : Nat} (out : x ∉ A) : moved place A q x = place x := if_neg out
@[simp] theorem moved_nil : moved place [] q = place := funext (fun _ => if_neg List.not_mem_nil)

/-- `l` lists what is at the place `p`, each thing once. -/
structure Holding (place : Nat → P) (p : P) (l : List Nat) : Prop where
  nodup : l.Nodup
  mem : ∀ x, x ∈ l ↔ place x = p

namespace Holding

theorem at_place (holding : Holding place p l) {x : Nat} (mem : x ∈ l) : place x = p := (holding.mem x).mp mem

theorem nil_iff : Holding place p [] ↔ ∀ x, place x ≠ p :=
  ⟨fun holding x here => List.not_mem_nil ((holding.mem x).mpr here),fun none => ⟨List.nodup_nil,fun x => by simp [none x]⟩⟩

theorem perm (holding : Holding place p l) (same : l.Perm B) : Holding place p B :=
  ⟨same.nodup_iff.mp holding.nodup,fun x => same.mem_iff.symm.trans (holding.mem x)⟩

theorem congr (holding : Holding place p l) (same : ∀ x, place' x = p ↔ place x = p) : Holding place' p l :=
  ⟨holding.nodup,fun x => (holding.mem x).trans (same x).symm⟩

/-- Things leave a place. -/
theorem leave (holding : Holding place p (A ++ B)) (ne : q ≠ p) : Holding (moved place A q) p B := by
  obtain ⟨_,nodup,apart⟩ := List.nodup_append.mp holding.nodup
  refine ⟨nodup,fun x => ?_⟩
  by_cases mem : x ∈ A
  · rw [moved_of_mem mem]
    exact ⟨fun inB => absurd rfl (apart x mem x inB),fun same => absurd same ne⟩
  · rw [moved_of_not_mem mem,← holding.mem x,List.mem_append]
    simp [mem]

/-- Things come to a place. -/
theorem arrive (holding : Holding place q l) (nodup : A.Nodup) (away : ∀ x ∈ A, place x ≠ q) :
    Holding (moved place A q) q (A ++ l) := by
  refine ⟨List.nodup_append.mpr ⟨nodup,holding.nodup,fun x inA y inL same => ?_⟩,fun x => ?_⟩
  · exact away x inA (holding.at_place (same ▸ inL))
  · by_cases mem : x ∈ A
    · simp [moved_of_mem mem,mem]
    · rw [moved_of_not_mem mem,← holding.mem x,List.mem_append]
      simp [mem]

/-- Everything at a place goes elsewhere. -/
theorem leave_all (holding : Holding place p l) (ne : q ≠ p) : Holding (moved place l q) p [] :=
  leave (by rwa [List.append_nil]) ne

/-- Things come to an empty place. -/
theorem arrive_all (none : Holding place q []) (nodup : A.Nodup) : Holding (moved place A q) q A := by
  have result := none.arrive nodup (fun x _ => nil_iff.mp none x)
  rwa [List.append_nil] at result

end Holding

/-- What is at the place `p`, threaded from `head` on. -/
structure Shelf (m : Memory) (place : Nat → P) (p : P) (head : Nat) (l : List Nat) : Prop where
  holding : Holding place p l
  chain : Chain m head l

namespace Shelf
variable {m m' : Memory} {head : Nat}

/-- A shelf stays as long as the links of its things and what is at its place do. -/
theorem congr (shelf : Shelf m place p head l) (same : ∀ x, place' x = p ↔ place x = p)
    (links : ∀ x, place x = p → m'.load x = m.load x) : Shelf m' place' p head l :=
  ⟨shelf.holding.congr same,shelf.chain.congr (fun x mem => links x (shelf.holding.at_place mem))⟩

theorem empty (none : ∀ x, place x ≠ p) : Shelf m place p 0 [] := ⟨Holding.nil_iff.mpr none,.nil⟩

end Shelf

/-- Memory was changed in the first words of things that meet `Q` only. -/
def Written (Q : Nat → Prop) (m m' : Memory) : Prop := ∀ y, m' y ≠ m y → ∃ a, Q a ∧ a ≤ y ∧ y < a + 8

namespace Written
variable {Q Q' : Nat → Prop} {m m' m'' : Memory}

theorem refl (Q : Nat → Prop) (m : Memory) : Written Q m m := fun _ changed => absurd rfl changed

theorem store {a : Nat} (v : Nat) (meets : Q a) : Written Q m (m.store a v) := by
  intro y changed
  by_cases inside : a ≤ y ∧ y < a + 8
  · exact ⟨a,meets,inside⟩
  · exact absurd (Memory.store_other (by omega)) changed

theorem mono (written : Written Q m m') (sub : ∀ a, Q a → Q' a) : Written Q' m m' := fun y changed =>
  (written y changed).imp (fun a found => ⟨sub a found.1,found.2⟩)

theorem trans (first : Written Q m m') (second : Written Q m' m'') : Written Q m m'' := by
  intro y changed
  by_cases same : m' y = m y
  · exact second y (by rwa [same])
  · exact first y same

/-- Words apart from those that were written are as they were. -/
theorem load (written : Written Q m m') {x : Nat} (apart : ∀ a, Q a → Memory.Apart a x) : m'.load x = m.load x := by
  refine Memory.load_congr (fun y low high => ?_)
  by_contra changed
  obtain ⟨a,meets,inside⟩ := written y changed
  rcases apart a meets with left | right <;> omega

end Written

/-- Any two of the things have words that do not overlap. -/
def Spread (l : List Nat) : Prop := ∀ x ∈ l, ∀ y ∈ l, x ≠ y → Memory.Apart x y

namespace Chain
variable {m : Memory} {a head last : Nat}

/-- The front of a chain up to `last` cut off: it ends there, and the rest stays. -/
theorem cut (chain : Chain m a (A ++ last :: B)) (nodup : (A ++ last :: B).Nodup) (spread : Spread (A ++ last :: B)) :
    Chain (m.store last 0) a (A ++ [last]) ∧ Chain (m.store last 0) (m.load last) B := by
  obtain ⟨_,later,apart⟩ := List.nodup_append.mp nodup
  refine ⟨chain.retie (by decide) (fun x mem => ?_) .nil,chain.after.2.store_apart 0 (fun x mem => ?_)⟩
  · exact spread last (by simp) x (by simp [mem]) (fun same => apart x mem last (by simp) same.symm)
  · exact spread last (by simp) x (by simp [mem]) (fun same => (List.nodup_cons.mp later).1 (same ▸ mem))

/-- A chain with another one tied to its end. -/
theorem tie (chain : Chain m a (A ++ [last])) (rest : Chain m head B) (small : head < 2 ^ 64)
    (nodup : (A ++ last :: B).Nodup) (spread : Spread (A ++ last :: B)) : Chain (m.store last head) a (A ++ last :: B) := by
  obtain ⟨_,later,apart⟩ := List.nodup_append.mp nodup
  refine chain.retie small (fun x mem => ?_) (rest.store_apart head (fun x mem => ?_))
  · exact spread last (by simp) x (by simp [mem]) (fun same => apart x mem last (by simp) same.symm)
  · exact spread last (by simp) x (by simp [mem]) (fun same => (List.nodup_cons.mp later).1 (same ▸ mem))

end Chain
end TcAlloc
