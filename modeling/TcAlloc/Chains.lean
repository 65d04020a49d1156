import Mathlib.Data.List.Nodup
import Mathlib.Data.List.Perm.Subperm
import Mathlib.Tactic.Ring

/-!
Byte-addressed memory and the lists threaded through it. A word is eight bytes,
least significant first (`load`, `store`); a null-terminated chain is a list of
addresses, each holding the next one in its first word (`Chain`). A store changes
no other word that it does not overlap, so it keeps every chain whose nodes it
stays clear of (`Chain.store_apart`).
-/
namespace TcAlloc

/-- There are no more distinct numbers than there are below a bound. -/
theorem length_le_of_lt {l : List Nat} {n : Nat} (nodup : l.Nodup) (bound : ∀ x ∈ l, x < n) : l.length ≤ n := by
  have below : l ⊆ List.range n := fun x mem => List.mem_range.mpr (bound x mem)
  have short := (nodup.subperm below).length_le
  rwa [List.length_range] at short

abbrev Memory := Nat → UInt8

namespace Memory

/-- The word at an address. -/
def load (m : Memory) (a : Nat) : Nat :=
  (m a).toNat + 256 * ((m (a + 1)).toNat + 256 * ((m (a + 2)).toNat + 256 * ((m (a + 3)).toNat +
    256 * ((m (a + 4)).toNat + 256 * ((m (a + 5)).toNat + 256 * ((m (a + 6)).toNat + 256 * (m (a + 7)).toNat))))))

/-- The memory with the word at `a` set to `v`. -/
def store (m : Memory) (a v : Nat) : Memory := fun x =>
  if a ≤ x ∧ x < a + 8 then UInt8.ofNat (v / 256 ^ (x - a)) else m x

theorem store_other {m : Memory} {a v x : Nat} (clear : x < a ∨ a + 8 ≤ x) : m.store a v x = m x :=
  if_neg (by omega)

theorem store_byte (m : Memory) (a v : Nat) {i : Nat} (inside : i < 8) :
    (m.store a v (a + i)).toNat = v / 256 ^ i % 256 := by
  rw [store,if_pos (by omega),Nat.add_sub_cancel_left]
  rfl

theorem load_store (m : Memory) (a : Nat) {v : Nat} (small : v < 2 ^ 64) : (m.store a v).load a = v := by
  have first : ((m.store a v) a).toNat = v / 256 ^ 0 % 256 := store_byte m a v (i := 0) (by decide)
  rw [load,first,store_byte m a v (by decide),store_byte m a v (by decide),store_byte m a v (by decide),
    store_byte m a v (by decide),store_byte m a v (by decide),store_byte m a v (by decide),
    store_byte m a v (by decide)]
  omega

/-- Two words do not overlap. -/
def Apart (a b : Nat) : Prop := a + 8 ≤ b ∨ b + 8 ≤ a

theorem load_congr {m m' : Memory} {a : Nat} (same : ∀ x, a ≤ x → x < a + 8 → m' x = m x) : m'.load a = m.load a := by
  rw [load,load,same a (by omega) (by omega),same (a + 1) (by omega) (by omega),same (a + 2) (by omega) (by omega),
    same (a + 3) (by omega) (by omega),same (a + 4) (by omega) (by omega),same (a + 5) (by omega) (by omega),
    same (a + 6) (by omega) (by omega),same (a + 7) (by omega) (by omega)]

theorem load_store_apart (m : Memory) {a b : Nat} (v : Nat) (apart : Apart a b) : (m.store a v).load b = m.load b :=
  load_congr (fun x low high => store_other (by rcases apart with h | h <;> omega))

end Memory

/-- The null-terminated chain that starts at an address. -/
inductive Chain (m : Memory) : Nat → List Nat → Prop
  | nil : Chain m 0 []
  | cons {a : Nat} {rest : List Nat} (nonzero : a ≠ 0) (tail : Chain m (m.load a) rest) : Chain m a (a :: rest)

namespace Chain
variable {m m' : Memory} {a b : Nat} {l l' : List Nat}

theorem nil_iff : Chain m 0 l ↔ l = [] := by
  constructor
  · intro chain
    cases chain with
    | nil => rfl
    | cons nonzero => exact absurd rfl nonzero
  · rintro rfl; exact .nil

theorem cons_iff : Chain m a (b :: l) ↔ a = b ∧ b ≠ 0 ∧ Chain m (m.load b) l := by
  constructor
  · intro chain
    cases chain with
    | cons nonzero tail => exact ⟨rfl,nonzero,tail⟩
  · rintro ⟨rfl,nonzero,tail⟩; exact .cons nonzero tail

theorem of_ne_zero (chain : Chain m a l) (nonzero : a ≠ 0) : ∃ rest, l = a :: rest ∧ Chain m (m.load a) rest := by
  cases chain with
  | nil => exact absurd rfl nonzero
  | @cons _ rest _ tail => exact ⟨rest,rfl,tail⟩

theorem head_eq_zero (chain : Chain m a l) : a = 0 ↔ l = [] := by
  cases chain with
  | nil => simp
  | cons nonzero => simp [nonzero]

/-- The list of a chain is determined by where it starts. -/
theorem unique (chain : Chain m a l) : ∀ {l'}, Chain m a l' → l = l' := by
  induction chain with
  | nil => intro l' other; exact (nil_iff.mp other).symm
  | cons nonzero _ ih =>
    intro l' other
    obtain ⟨rest,rfl,tail⟩ := other.of_ne_zero nonzero
    rw [ih tail]

theorem ne_zero (chain : Chain m a l) : ∀ x ∈ l, x ≠ 0 := by
  induction chain with
  | nil => simp
  | cons nonzero _ ih => simpa [nonzero] using ih

/-- The start of a chain is below what is above all its objects. -/
theorem head_lt (chain : Chain m a l) {n : Nat} (pos : 0 < n) (bound : ∀ x ∈ l, x < n) : a < n := by
  cases chain with
  | nil => exact pos
  | cons => exact bound a List.mem_cons_self

/-- A chain lives on where its links are unchanged. -/
theorem congr (chain : Chain m a l) (same : ∀ x ∈ l, m'.load x = m.load x) : Chain m' a l := by
  induction chain with
  | nil => exact .nil
  | @cons a rest nonzero _ ih =>
    refine .cons nonzero ?_
    rw [same a (by simp)]
    exact ih (fun x mem => same x (by simp [mem]))

theorem store_apart (chain : Chain m a l) (v : Nat) (apart : ∀ x ∈ l, Memory.Apart b x) : Chain (m.store b v) a l :=
  chain.congr (fun x mem => Memory.load_store_apart m v (apart x mem))

/-- A new node in front of a chain. -/
theorem push (chain : Chain m a l) (nonzero : b ≠ 0) (small : a < 2 ^ 64) (apart : ∀ x ∈ l, Memory.Apart b x) :
    Chain (m.store b a) b (b :: l) := by
  refine .cons nonzero ?_
  rw [Memory.load_store m b small]
  exact chain.store_apart a apart

/-- What follows a node of a chain. -/
theorem after {A B : List Nat} {last : Nat} (chain : Chain m a (A ++ last :: B)) : last ≠ 0 ∧ Chain m (m.load last) B := by
  induction A generalizing a with
  | nil => exact (cons_iff.mp chain).2
  | cons x A ih => exact ih (cons_iff.mp chain).2.2

/-- A node tied to another rest. -/
theorem retie {A B B' : List Nat} {last v : Nat} (chain : Chain m a (A ++ last :: B)) (small : v < 2 ^ 64)
    (apart : ∀ x ∈ A, Memory.Apart last x) (rest : Chain (m.store last v) v B') : Chain
    (m.store last v) a (A ++ last :: B') := by
  induction A generalizing a with
  | nil =>
    obtain ⟨rfl,nonzero,_⟩ := cons_iff.mp chain
    exact .cons nonzero (by rw [Memory.load_store m a small]; exact rest)
  | cons x A ih =>
    obtain ⟨rfl,nonzero,tail⟩ := cons_iff.mp chain
    refine .cons nonzero ?_
    rw [Memory.load_store_apart m v (apart a (by simp))]
    exact ih tail (fun y mem => apart y (by simp [mem]))

end Chain
end TcAlloc
