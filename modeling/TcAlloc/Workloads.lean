import TcAlloc.CrossRuns
import TcAlloc.Systems
import Mathlib.Algebra.BigOperators.Group.Finset.Basic
import Mathlib.Algebra.BigOperators.Intervals
import Mathlib.Algebra.Order.BigOperators.Group.Finset
import Mathlib.Algebra.Order.Group.Multiset
import Mathlib.Data.Fintype.BigOperators
import Mathlib.Data.List.GetD
import Mathlib.Tactic.Abel

/-!
The loops of `RunOnce` and `RunCheck`. They decide which sizes are asked for, and when
the blocks that they keep are given back: each round at once (`bulk`), in a ring of a
fixed length (`interleaved`), or by another thread (`cross`). How a block is had and given
back is left to what the loops call, with which they share labels (`Deal`). Whatever
the calls return and however the threads take turns, such a workload gives what it has
taken, once, and in the end it has given everything (`Workload.frugal`).
-/
namespace TcAlloc
namespace Workload
open CrossThread (Slots State Pc advance run victim blocks frees)

/-! ### Sums over parties -/

section
variable {ι σ M : Type} [Fintype ι] [DecidableEq ι] [AddCommMonoid M]

/-- A sum over parties, of which one has changed. -/
theorem sum_put (f : σ → M) (parties : ι → σ) (k : ι) (s : σ) :
    ∑ k', f (Function.update parties k s k') + f (parties k) = ∑ k', f (parties k') + f s := by
  have rest : ∀ k' ∈ Finset.univ.erase k, f (Function.update parties k s k') = f (parties k') := fun k' other => by
    rw [Function.update_of_ne (Finset.ne_of_mem_erase other)]
  rw [← Finset.add_sum_erase Finset.univ (fun k' => f (Function.update parties k s k')) (Finset.mem_univ k),
    ← Finset.add_sum_erase Finset.univ (fun k' => f (parties k')) (Finset.mem_univ k),Finset.sum_congr rfl rest,
    Function.update_self]
  exact add_right_comm _ _ _ |>.trans (by rw [add_comm (f s),add_right_comm])

/-- A sum over the parties goes on making up a whole if what is put to one side is put to
    the other one too. -/
theorem balanced {M : Type} [AddCancelCommMonoid M] {whole whole' rest rest' sum sum' part part' : M}
    (before : whole = rest + sum) (moved : whole' + (rest + part) = whole + (rest' + part'))
    (sums : sum' + part = sum + part') : whole' = rest' + sum' := by
  refine add_right_cancel (moved.trans ?_)
  calc whole + (rest' + part') = rest + rest' + (sum + part') := by rw [before]; abel
    _ = rest + rest' + (sum' + part) := by rw [sums]
    _ = rest' + sum' + (rest + part) := by abel

theorem erase_add {l : List σ} [BEq σ] [LawfulBEq σ] {x : σ} (mem : x ∈ l) :
    ((l.erase x : List σ) : Multiset σ) + {x} = l := by
  rw [add_comm,Multiset.singleton_add,Multiset.cons_coe]
  exact Multiset.coe_eq_coe.mpr (List.perm_cons_erase mem).symm

theorem le_sum {f : ι → Multiset σ} (k : ι) : f k ≤ ∑ k', f k' := by
  rw [← Finset.add_sum_erase Finset.univ f (Finset.mem_univ k)]
  exact Multiset.le_add_right _ _

/-- Two parties have their parts of a sum both. -/
theorem add_le_sum {f : ι → Multiset σ} {k k' : ι} (other : k' ≠ k) : f k + f k' ≤ ∑ k', f k' := by
  have among : k' ∈ Finset.univ.erase k := Finset.mem_erase.mpr ⟨other,Finset.mem_univ k'⟩
  rw [← Finset.add_sum_erase Finset.univ f (Finset.mem_univ k),← Finset.add_sum_erase _ f among]
  exact Multiset.add_le_add_left (Multiset.le_add_right _ _)

end

/-! ### Sizes -/

inductive SizeMode where
  | fixed16
  | ramp
  | random
  | large
  | classStep

/-- `for (size_t s = first; s <= last; s += by)` -/
def steps (first last by_ : Nat) : List Nat := (List.range ((last - first) / by_ + 1)).map (fun j => first + by_ * j)

/-- `ClassSizes`. -/
def classSizes : List Nat := steps 8 128 8 ++ steps 144 1024 16 ++ steps 1152 8192 128

/-- `SizeFor`, where `rng()` would draw `draw`. `RunCheck` has the same one without `Large`. -/
def sizeFor (mode : SizeMode) (i draw : Nat) : Nat :=
  match mode with
  | .fixed16 => 16
  | .ramp => (16 + i) % 8192 + 1
  | .random => draw % 8192 + 1
  | .large => 256 * 1024 + draw % (64 * 1024) + 1
  | .classStep => classSizes.getD (i % classSizes.length) 16

inductive Pattern where
  | bulkThenFree
  | interleaved
  | crossThread

/-- What of the configuration the loops read. -/
structure Config extends CrossThread.Config where
  sizeMode : SizeMode
  window : Nat

/-! ### What the loops call -/

/-- A call by a thread, and its return. -/
inductive Deal (nworks : Nat) (α : Type) where
  | takes (k : Fin nworks) (n : Nat)
  | took (k : Fin nworks) (v : α)
  | gives (k : Fin nworks) (v : α)
  | gave (k : Fin nworks)

section
variable {nworks : Nat} {α : Type}

/-- What has been taken and not given, where null counts for nothing. -/
inductive PoolStep (slots : Slots α) (held : Multiset α) : Option (Deal nworks α) → Multiset α → Prop
  | takes {k : Fin nworks} {n : Nat} : PoolStep slots held (some (.takes k n)) held
  | took {k : Fin nworks} {v : α} (some_ : slots.ptr v ≠ 0) : PoolStep slots held (some (.took k v)) (v ::ₘ held)
  | tookNull {k : Fin nworks} {v : α} (null : slots.ptr v = 0) : PoolStep slots held (some (.took k v)) held
  | gives {k : Fin nworks} {v : α} {rest : Multiset α} (among : held = v ::ₘ rest) :
      PoolStep slots held (some (.gives k v)) rest
  | givesNull {k : Fin nworks} {v : α} (null : slots.ptr v = 0) : PoolStep slots held (some (.gives k v)) held
  | gave {k : Fin nworks} : PoolStep slots held (some (.gave k)) held

/-- Any workload that gives what was taken, and once. -/
def pool (slots : Slots α) (nworks : Nat) : System (Deal nworks α) (Multiset α) where
  init held := held = 0
  step := PoolStep slots

/-- A value that counts if it is not null. -/
def counted (slots : Slots α) (v : α) : Multiset α := if slots.ptr v = 0 then 0 else {v}

theorem counted_null {slots : Slots α} {v : α} (null : slots.ptr v = 0) : counted slots v = 0 := if_pos null
theorem counted_some {slots : Slots α} {v : α} (some_ : slots.ptr v ≠ 0) : counted slots v = {v} := if_neg some_

theorem pool_took (slots : Slots α) (held : Multiset α) (k : Fin nworks) (v : α) :
    (pool slots nworks).step held (some (.took k v)) (counted slots v + held) := by
  by_cases null : slots.ptr v = 0
  · rw [counted_null null,zero_add]
    exact .tookNull null
  · rw [counted_some null,Multiset.singleton_add]
    exact .took null

theorem pool_gives (slots : Slots α) (held : Multiset α) (k : Fin nworks) (v : α) :
    (pool slots nworks).step (counted slots v + held) (some (.gives k v)) held := by
  by_cases null : slots.ptr v = 0
  · rw [counted_null null,zero_add]
    exact .givesNull null
  · rw [counted_some null]
    exact .gives (Multiset.singleton_add v held)

/-! ### Loops that a thread runs on its own -/

/-- Whether a thread is in a call. -/
inductive Busy where
  | no
  | taking
  | giving

/-- What a thread does next, when it is at `τ`. -/
inductive Move (α τ : Type) where
  | stops
  | goes (next : τ)
  /-- It takes a block of a size that may be drawn. -/
  | takes (size : Nat → Nat) (next : α → τ)
  | gives (v : α) (next : τ)

/-- Each thread is at a place of its own. -/
structure Workers (nworks : Nat) (τ : Type) where
  at_ : Fin nworks → τ
  busy : Fin nworks → Busy

variable {τ : Type}

inductive WorkersStep (next : τ → Move α τ) (w : Workers nworks τ) : Option (Deal nworks α) → Workers nworks τ → Prop
  | goes {k : Fin nworks} {s : τ} (free : w.busy k = .no) (here : next (w.at_ k) = .goes s) :
      WorkersStep next w none { w with at_ := Function.update w.at_ k s }
  | takes {k : Fin nworks} {size : Nat → Nat} {s : α → τ} (draw : Nat) (free : w.busy k = .no)
      (here : next (w.at_ k) = .takes size s) :
      WorkersStep next w (some (.takes k (size draw))) { w with busy := Function.update w.busy k .taking }
  | took {k : Fin nworks} {size : Nat → Nat} {s : α → τ} {v : α} (busy : w.busy k = .taking)
      (here : next (w.at_ k) = .takes size s) :
      WorkersStep next w (some (.took k v)) ⟨Function.update w.at_ k (s v),Function.update w.busy k .no⟩
  | gives {k : Fin nworks} {v : α} {s : τ} (free : w.busy k = .no) (here : next (w.at_ k) = .gives v s) :
      WorkersStep next w (some (.gives k v)) ⟨Function.update w.at_ k s,Function.update w.busy k .giving⟩
  | gave {k : Fin nworks} (busy : w.busy k = .giving) :
      WorkersStep next w (some (.gave k)) { w with busy := Function.update w.busy k .no }

/-- Threads that run the same loops from `start` on. -/
def workers (nworks : Nat) (next : τ → Move α τ) (start : τ) : System (Deal nworks α) (Workers nworks τ) where
  init w := w = ⟨fun _ => start,fun _ => .no⟩
  step := WorkersStep next

/-- What a place keeps: the blocks that it holds, with each move accounting for them. -/
structure Keeps (slots : Slots α) (next : τ → Move α τ) (fits : τ → Prop) (holds : τ → Multiset α) : Prop where
  stops : ∀ s, fits s → next s = .stops → holds s = 0
  goes : ∀ s s', fits s → next s = .goes s' → fits s' ∧ holds s' = holds s
  takes : ∀ s size f v, fits s → next s = .takes size f → fits (f v) ∧ holds (f v) = counted slots v + holds s
  gives : ∀ s v s', fits s → next s = .gives v s' → fits s' ∧ holds s = counted slots v + holds s'

/-- What the threads hold together. -/
def Workers.Holds (fits : τ → Prop) (holds : τ → Multiset α) (w : Workers nworks τ) (held : Multiset α) : Prop :=
  (∀ k, fits (w.at_ k)) ∧ held = ∑ k, holds (w.at_ k)

section
variable {slots : Slots α} {next : τ → Move α τ} {fits : τ → Prop} {holds : τ → Multiset α} {w w' : Workers nworks τ}
  {held : Multiset α}

/-- A thread moves on, and what it holds with it. -/
theorem Workers.Holds.move (holds_ : w.Holds fits holds held) {k : Fin nworks} {s : τ} {busy : Fin nworks → Busy}
    {held' : Multiset α} (given taken : Multiset α) (fits' : fits s) (before : taken + holds (w.at_ k) = given + holds s)
    (after : taken + held = given + held') : Workers.Holds fits holds ⟨Function.update w.at_ k s,busy⟩ held' := by
  obtain ⟨all,sum⟩ := holds_
  refine ⟨fun k' => ?_,?_⟩
  · by_cases here : k' = k
    · subst here
      simpa using fits'
    · simpa [here] using all k'
  · have moved := sum_put holds w.at_ k s
    have same : given + (held' + holds (w.at_ k)) =
        given + (∑ k', holds (Function.update w.at_ k s k') + holds (w.at_ k)) := by
      calc given + (held' + holds (w.at_ k)) = given + held' + holds (w.at_ k) := by abel
        _ = taken + holds (w.at_ k) + held := by rw [← after]; abel
        _ = given + (∑ k', holds (w.at_ k') + holds s) := by rw [before,sum]; abel
        _ = given + (∑ k', holds (Function.update w.at_ k s k') + holds (w.at_ k)) := by rw [moved]
    exact add_right_cancel (add_left_cancel same)

/-- Threads whose moves account for what they hold do what a pool does. -/
theorem Keeps.simulates (keeps : Keeps slots next fits holds) {start : τ} (begins : fits start) (empty : holds start = 0) :
    System.Simulates (workers nworks next start) (pool slots nworks) (Workers.Holds fits holds) where
  start := by
    rintro w rfl
    exact ⟨0,rfl,fun _ => begins,by simp [empty]⟩
  silent := by
    intro w held w' related step
    cases step with
    | @goes k s free here =>
      obtain ⟨fits',same⟩ := keeps.goes _ s (related.1 k) here
      exact ⟨held,.refl,related.move 0 0 fits' (by rw [same]) rfl⟩
  shown := by
    intro w held a w' related step
    cases step with
    | takes draw free here => exact ⟨held,.takes,related⟩
    | @took k size f v busy here =>
      obtain ⟨fits',more⟩ := keeps.takes _ size f v (related.1 k) here
      exact ⟨_,pool_took slots held k v,related.move 0 (counted slots v) fits'
        (by rw [more,zero_add]) (by rw [zero_add])⟩
    | @gives k v s free here =>
      obtain ⟨fits',less⟩ := keeps.gives _ v s (related.1 k) here
      have among : ∃ rest, held = counted slots v + rest := by
        refine ⟨∑ k' ∈ Finset.univ.erase k, holds (w.at_ k') + holds s,?_⟩
        rw [related.2,← Finset.add_sum_erase _ _ (Finset.mem_univ k),less]
        abel
      obtain ⟨rest,rfl⟩ := among
      exact ⟨rest,pool_gives slots rest k v,related.move (counted slots v) 0 fits'
        (by rw [less,zero_add]) (by rw [zero_add])⟩
    | gave busy => exact ⟨held,.gave,related⟩

/-- Threads that have all stopped hold nothing. -/
theorem Keeps.stopped (keeps : Keeps slots next fits holds) (related : w.Holds fits holds held)
    (all : ∀ k, next (w.at_ k) = .stops) : held = 0 := by
  rw [related.2]
  exact Finset.sum_eq_zero (fun k _ => keeps.stops _ (related.1 k) (all k))

end

/-! ### BulkThenFree -/

/-- A thread in round `r`, with the block `i` of the round next. -/
structure Bulk (α : Type) where
  r : Nat := 0
  i : Nat := 0
  /-- The second loop of the round. -/
  giving : Bool := false
  local_ : List α := []

def bulk (slots : Slots α) (c : Config) (s : Bulk α) : Move α (Bulk α) :=
  if s.r < c.rounds then
    if s.giving then
      if s.i < c.ntimes then .gives (s.local_.getD s.i slots.empty) { s with i := s.i + 1 }
      else .goes { r := s.r + 1 }
    else
      if s.i < c.ntimes then
        .takes (sizeFor c.sizeMode s.i) (fun v => { s with i := s.i + 1, local_ := s.local_ ++ [v] })
      else .goes { s with i := 0, giving := true }
  else .stops

namespace Bulk

/-- The blocks that are left to be given in the round. -/
def rest (s : Bulk α) : List α := if s.giving then s.local_.drop s.i else s.local_

def holds (slots : Slots α) (s : Bulk α) : Multiset α := (s.rest.map (counted slots)).sum

structure Fits (c : Config) (s : Bulk α) : Prop where
  length : s.local_.length = if s.giving then c.ntimes else s.i
  few : s.giving = false → s.i ≤ c.ntimes
  ended : ¬ s.r < c.rounds → s.rest = []

theorem keeps (slots : Slots α) (c : Config) : Keeps slots (bulk slots c) (Fits c) (holds slots) where
  stops := by
    intro s fits here
    unfold bulk at here
    split_ifs at here with round
    rw [holds,fits.ended round]
    rfl
  goes := by
    intro s s' fits here
    unfold bulk at here
    split_ifs at here with round giving more more
    · cases here
      have length := fits.length
      rw [if_pos giving] at length
      refine ⟨⟨rfl,fun _ => Nat.zero_le _,fun _ => rfl⟩,?_⟩
      have gone : s.local_.drop s.i = [] := List.drop_eq_nil_of_le (by rw [length]; exact Nat.le_of_not_lt more)
      simp [holds,rest,giving,gone]
    · cases here
      have length := fits.length
      rw [if_neg giving] at length
      have few := fits.few (by simpa using giving)
      refine ⟨⟨by simp only [if_true]; omega,fun _ => Nat.zero_le _,fun past => absurd round past⟩,?_⟩
      simp [holds,rest,giving]
  takes := by
    intro s size f v fits here
    unfold bulk at here
    split_ifs at here with round giving more more
    cases here
    have length := fits.length
    rw [if_neg giving] at length
    refine ⟨⟨by simp [giving,length],fun _ => more,fun past => absurd round past⟩,?_⟩
    simp only [holds,rest,if_neg giving,List.map_append,List.sum_append,List.map_singleton,List.sum_singleton]
    exact add_comm _ _
  gives := by
    intro s v s' fits here
    unfold bulk at here
    split_ifs at here with round giving more more
    cases here
    have length := fits.length
    rw [if_pos giving] at length
    refine ⟨⟨by simp only [if_pos giving]; exact length,fun filling => ?_,fun past => absurd round past⟩,?_⟩
    · simp only [giving] at filling
      cases filling
    have inside : s.i < s.local_.length := by omega
    simp only [holds,rest,if_pos giving]
    rw [List.drop_eq_getElem_cons inside,List.map_cons,List.sum_cons,List.getD_eq_getElem _ _ inside]

end Bulk

/-! ### Interleaved -/

/-- Where a thread is in a round. -/
inductive Turn (α : Type) where
  | takes
  /-- `if (ring[pos])` -/
  | swaps (v : α)
  /-- `ring[pos] = v` -/
  | puts (v : α)
  /-- The loop over the ring at the end. -/
  | drains

structure Ringed (α : Type) where
  r : Nat := 0
  i : Nat := 0
  pos : Nat := 0
  ring : Nat → α
  turn : Turn α := .takes

/-- With a window of no slots `% c.window` is no fault here, as it is in the source, where the
    ring has no place for the block either: what is said of this loop is for `0 < c.window`. -/
def interleaved (slots : Slots α) (c : Config) (s : Ringed α) : Move α (Ringed α) :=
  if s.r < c.rounds then
    match s.turn with
    | .takes =>
      if s.i < c.ntimes then .takes (sizeFor c.sizeMode s.i) (fun v => { s with turn := .swaps v })
      else .goes { s with i := 0, turn := .drains }
    | .swaps v =>
      if slots.ptr (s.ring s.pos) ≠ 0 then .gives (s.ring s.pos) { s with turn := .puts v }
      else .goes { s with turn := .puts v }
    | .puts v =>
      .goes { s with
        i := s.i + 1
        pos := (s.pos + 1) % c.window
        ring := Function.update s.ring s.pos v
        turn := .takes }
    | .drains =>
      if s.i < c.window then
        if slots.ptr (s.ring s.i) ≠ 0 then .gives (s.ring s.i) { s with i := s.i + 1 } else .goes { s with i := s.i + 1 }
      else .goes { r := s.r + 1, ring := fun _ => slots.empty }
  else .stops

namespace Ringed

/-- What is in the ring, and the block that has just been taken. -/
def holds (slots : Slots α) (c : Config) (s : Ringed α) : Multiset α :=
  match s.turn with
  | .takes => ∑ j ∈ Finset.range c.window, counted slots (s.ring j)
  | .swaps v => counted slots v + ∑ j ∈ Finset.range c.window, counted slots (s.ring j)
  | .puts v => counted slots v + ∑ j ∈ (Finset.range c.window).erase s.pos, counted slots (s.ring j)
  | .drains => ∑ j ∈ Finset.Ico s.i c.window, counted slots (s.ring j)

structure Fits (slots : Slots α) (c : Config) (s : Ringed α) : Prop where
  inside : s.pos < c.window
  ended : ¬ s.r < c.rounds → s.holds slots c = 0

theorem empty_ring (slots : Slots α) (c : Config) (r : Nat) :
    Ringed.holds slots c { r := r, ring := fun _ => slots.empty } = 0 :=
  Finset.sum_eq_zero (fun _ _ => counted_null slots.null)

theorem keeps (slots : Slots α) {c : Config} (some_ : 0 < c.window) :
    Keeps slots (interleaved slots c) (Fits slots c) (holds slots c) where
  stops := by
    intro s fits here
    unfold interleaved at here
    by_cases round : s.r < c.rounds
    · rw [if_pos round] at here
      split at here <;> first | cases here | split_ifs at here
    · exact fits.ended round
  goes := by
    intro s s' fits here
    unfold interleaved at here
    by_cases round : s.r < c.rounds
    swap
    · rw [if_neg round] at here
      cases here
    rw [if_pos round] at here
    have pos := Finset.mem_range.mpr fits.inside
    split at here
    · next turn =>
      split_ifs at here
      cases here
      refine ⟨⟨fits.inside,fun past => absurd round past⟩,?_⟩
      simp only [holds,turn,Finset.range_eq_Ico]
    · next v turn =>
      split_ifs at here with null
      cases here
      refine ⟨⟨fits.inside,fun past => absurd round past⟩,?_⟩
      simp only [holds,turn]
      rw [← Finset.add_sum_erase _ _ pos,counted_null (not_not.mp null),zero_add]
    · next v turn =>
      cases here
      refine ⟨⟨Nat.mod_lt _ some_,fun past => absurd round past⟩,?_⟩
      simp only [holds,turn]
      rw [← Finset.add_sum_erase _ _ pos,Function.update_self]
      refine congrArg _ (Finset.sum_congr rfl (fun j other => ?_))
      rw [Function.update_of_ne (Finset.ne_of_mem_erase other)]
    · next turn =>
      split_ifs at here with more null
      · cases here
        refine ⟨⟨fits.inside,fun past => absurd round past⟩,?_⟩
        simp only [holds,turn]
        rw [Finset.sum_eq_sum_Ico_succ_bot more,counted_null (not_not.mp null),zero_add]
      · cases here
        refine ⟨⟨some_,fun _ => empty_ring slots c _⟩,?_⟩
        rw [empty_ring]
        simp only [holds,turn]
        rw [Finset.Ico_eq_empty_of_le (Nat.le_of_not_lt more),Finset.sum_empty]
  takes := by
    intro s size f v fits here
    unfold interleaved at here
    by_cases round : s.r < c.rounds
    swap
    · rw [if_neg round] at here
      cases here
    rw [if_pos round] at here
    split at here
    · next turn =>
      split_ifs at here
      cases here
      refine ⟨⟨fits.inside,fun past => absurd round past⟩,?_⟩
      simp only [holds,turn]
    · split_ifs at here
    · cases here
    · split_ifs at here
  gives := by
    intro s v s' fits here
    unfold interleaved at here
    by_cases round : s.r < c.rounds
    swap
    · rw [if_neg round] at here
      cases here
    rw [if_pos round] at here
    split at here
    · split_ifs at here
    · next w turn =>
      split_ifs at here
      cases here
      refine ⟨⟨fits.inside,fun past => absurd round past⟩,?_⟩
      simp only [holds,turn]
      rw [← Finset.add_sum_erase _ _ (Finset.mem_range.mpr fits.inside)]
      abel
    · cases here
    · next turn =>
      split_ifs at here with more some_
      cases here
      refine ⟨⟨fits.inside,fun past => absurd round past⟩,?_⟩
      simp only [holds,turn]
      rw [Finset.sum_eq_sum_Ico_succ_bot more]

end Ringed

/-! ### CrossThread -/

/-- The slots of a workload that gives in one call. -/
def direct (slots : Slots α) : Slots α := { slots with enters := .free }

structure Cross (c : Config) (α : Type) where
  state : State c.nworks α
  busy : Fin c.nworks → Busy

/-- The thread does not call anything next. -/
def Quiet : Pc α → Prop
  | .fill _ _ => False
  | .give .free _ _ => False
  | _ => True

inductive CrossStep (slots : Slots α) (c : Config) (d : Cross c α) : Option (Deal c.nworks α) → Cross c α → Prop
  | moves {k : Fin c.nworks} (free : d.busy k = .no) (quiet : Quiet (d.state.pcs k)) :
      CrossStep slots c d none { d with state := (advance (direct slots) c.toConfig d.state k slots.empty).1 }
  | takes {k : Fin c.nworks} {r i : Nat} (draw : Nat) (free : d.busy k = .no) (here : d.state.pcs k = .fill r i) :
      CrossStep slots c d (some (.takes k (sizeFor c.sizeMode i draw)))
        { d with busy := Function.update d.busy k .taking }
  | took {k : Fin c.nworks} {r i : Nat} {v : α} (busy : d.busy k = .taking) (here : d.state.pcs k = .fill r i) :
      CrossStep slots c d (some (.took k v))
        ⟨(advance (direct slots) c.toConfig d.state k v).1,Function.update d.busy k .no⟩
  | gives {k : Fin c.nworks} {r i : Nat} (free : d.busy k = .no) (here : d.state.pcs k = .give .free r i) :
      CrossStep slots c d (some (.gives k (d.state.shared (victim k) i)))
        ⟨(advance (direct slots) c.toConfig d.state k slots.empty).1,Function.update d.busy k .giving⟩
  | gave {k : Fin c.nworks} (busy : d.busy k = .giving) :
      CrossStep slots c d (some (.gave k)) { d with busy := Function.update d.busy k .no }

def cross (slots : Slots α) (c : Config) : System (Deal c.nworks α) (Cross c α) where
  init d := d = ⟨CrossThread.start (direct slots) c.toConfig,fun _ => .no⟩
  step := CrossStep slots c

namespace Cross
variable {slots : Slots α} {c : Config} {d d' : Cross c α} {held : Multiset α} {k : Fin c.nworks}

/-- The blocks that have been allocated along a schedule and not freed. -/
def Holds (slots : Slots α) (c : Config) (d : Cross c α) (held : Multiset α) : Prop :=
  ∃ schedule rest, (run (direct slots) c.toConfig schedule).1 = d.state ∧
    (blocks (direct slots) (run (direct slots) c.toConfig schedule).2 : Multiset (Fin c.nworks × Nat × Nat × α)) =
      frees (run (direct slots) c.toConfig schedule).2 + rest ∧ held = rest.map (fun x => x.2.2.2)

theorem blocks_concat (trace : List (CrossThread.Event c.nworks α)) (e : CrossThread.Event c.nworks α) :
    blocks slots (trace ++ [e]) = blocks slots trace ++ (e.block slots).toList := by
  unfold blocks
  rw [List.filterMap_append]
  cases seen : e.block slots <;> simp [seen]

theorem frees_concat (trace : List (CrossThread.Event c.nworks α)) (e : CrossThread.Event c.nworks α) :
    frees (trace ++ [e]) = frees trace ++ e.given.toList := by
  unfold frees
  rw [List.filterMap_append]
  cases seen : e.given <;> simp [seen]

/-- A move that calls nothing allocates and frees nothing. -/
theorem quiet_event {s : State c.nworks α} (quiet : Quiet (s.pcs k)) (v : α) {e : CrossThread.Event c.nworks α}
    (seen : (advance (direct slots) c.toConfig s k v).2 = some e) : e.block (direct slots) = none ∧ e.given = none := by
  cases here : s.pcs k with
  | fill r i => rw [here] at quiet; exact quiet.elim
  | give at_ r i =>
    cases at_ with
    | free => rw [here] at quiet; exact quiet.elim
    | look =>
      simp only [advance,here] at seen
      split_ifs at seen
    | check => simp [advance,here] at seen
    | erase => simp [advance,here] at seen
  | add r second gen =>
    simp only [advance,here] at seen
    split_ifs at seen
    cases seen
    exact ⟨rfl,rfl⟩
  | spin r second gen =>
    simp only [advance,here] at seen
    split_ifs at seen
    cases seen
    exact ⟨rfl,rfl⟩
  | test r i =>
    simp only [advance,here] at seen
    split_ifs at seen
  | done => simp [advance,here] at seen
  | store r i v => simp only [advance,here] at seen; cases seen; exact ⟨rfl,rfl⟩
  | load r second => simp only [advance,here] at seen; cases seen; exact ⟨rfl,rfl⟩
  | clear r i => simp only [advance,here] at seen; cases seen; exact ⟨rfl,rfl⟩

theorem Holds.quiet (holds : d.Holds slots c held) (quiet : Quiet (d.state.pcs k)) (v : α) :
    Holds slots c { d with state := (advance (direct slots) c.toConfig d.state k v).1 } held := by
  obtain ⟨schedule,rest,same,sum,rfl⟩ := holds
  refine ⟨schedule ++ [(k,v)],rest,?_,?_,rfl⟩
  · rw [CrossThread.run_concat,same]
  · rw [CrossThread.run_concat,same]
    cases seen : (advance (direct slots) c.toConfig d.state k v).2 with
    | none => simpa using sum
    | some e =>
      obtain ⟨block,given⟩ := quiet_event quiet v seen
      rw [Option.toList_some,blocks_concat,frees_concat,block,given]
      simpa using sum

/-- What is allocated is held, unless it is null. -/
theorem Holds.took (holds : d.Holds slots c held) {r i : Nat} (here : d.state.pcs k = .fill r i) (v : α)
    (busy : Fin c.nworks → Busy) :
    Holds slots c ⟨(advance (direct slots) c.toConfig d.state k v).1,busy⟩ (counted slots v + held) := by
  obtain ⟨schedule,rest,same,sum,rfl⟩ := holds
  have seen : (advance (direct slots) c.toConfig d.state k v).2 = some (.allocated k r i v) := by simp only [advance,here]
  have given : (CrossThread.Event.allocated k r i v).given = none := rfl
  by_cases null : slots.ptr v = 0
  · have block : (CrossThread.Event.allocated k r i v).block (direct slots) = none := if_pos null
    refine ⟨schedule ++ [(k,v)],rest,by rw [CrossThread.run_concat,same],?_,by rw [counted_null null,zero_add]⟩
    rw [CrossThread.run_concat,same,seen,Option.toList_some,blocks_concat,frees_concat,block,given]
    simpa using sum
  · have block : (CrossThread.Event.allocated k r i v).block (direct slots) = some (k,r,i,v) := if_neg null
    refine ⟨schedule ++ [(k,v)],rest + {(k,r,i,v)},by rw [CrossThread.run_concat,same],?_,?_⟩
    · rw [CrossThread.run_concat,same,seen,Option.toList_some,blocks_concat,frees_concat,block,given,← Multiset.coe_add,
        sum,Option.toList_none,List.append_nil,add_assoc]
      rfl
    · rw [counted_some null,Multiset.map_add,Multiset.map_singleton,add_comm]

/-- What is freed was held: it was allocated, and has not been freed before. -/
theorem Holds.gives (holds : d.Holds slots c held) (room : c.nworks * (2 * c.rounds) < 2 ^ 64) {r i : Nat}
    (here : d.state.pcs k = .give .free r i) (v : α) (busy : Fin c.nworks → Busy) : ∃ rest, held =
      d.state.shared (victim k) i ::ₘ rest ∧
      Holds slots c ⟨(advance (direct slots) c.toConfig d.state k v).1,busy⟩ rest := by
  obtain ⟨schedule,rest,same,sum,rfl⟩ := holds
  have seen : (advance (direct slots) c.toConfig d.state k v).2 = some (.freed k r i (d.state.shared (victim k) i)) := by
    simp only [advance,here]
  have next : run (direct slots) c.toConfig (schedule ++ [(k,v)]) =
      ((advance (direct slots) c.toConfig d.state k v).1,
        (run (direct slots) c.toConfig schedule).2 ++ [.freed k r i (d.state.shared (victim k) i)]) := by
    rw [CrossThread.run_concat,same,seen,Option.toList_some]
  have ledger := CrossThread.run_ledger (direct slots) room (schedule ++ [(k,v)])
  have nodup := CrossThread.run_nodup (direct slots) room (schedule ++ [(k,v)])
  rw [next] at ledger nodup
  have less : frees ((run (direct slots) c.toConfig schedule).2 ++ [.freed k r i (d.state.shared (victim k) i)]) ⊆
      blocks (direct slots) ((run (direct slots) c.toConfig schedule).2 ++ [.freed k r i (d.state.shared (victim k) i)]) := by
    rintro ⟨owner,r',i',v'⟩ mem
    obtain ⟨k',rfl,event⟩ := CrossThread.mem_frees.mp mem
    exact CrossThread.mem_blocks.mpr (ledger.freed_block event)
  obtain ⟨left,whole⟩ := Multiset.le_iff_exists_add.mp ((Multiset.le_iff_subset (Multiset.coe_nodup.mpr nodup.2)).mpr
    (fun x mem => Multiset.mem_coe.mpr (less (Multiset.mem_coe.mp mem))))
  have split : rest = (victim k,r,i,d.state.shared (victim k) i) ::ₘ left := by
    have block : (CrossThread.Event.freed k r i (d.state.shared (victim k) i)).block (direct slots) = none := rfl
    have given : (CrossThread.Event.freed k r i (d.state.shared (victim k) i)).given =
      some (victim k,r,i,d.state.shared (victim k) i) := rfl
    rw [blocks_concat,frees_concat,block,given,Option.toList_none,List.append_nil,← Multiset.coe_add,add_assoc,sum] at whole
    exact add_left_cancel whole
  refine ⟨left.map (fun x => x.2.2.2),by rw [split,Multiset.map_cons],schedule ++ [(k,v)],left,by rw [next],?_,rfl⟩
  rw [next]
  exact whole

theorem simulates (slots : Slots α) {c : Config} (room : c.nworks * (2 * c.rounds) < 2 ^ 64) :
    System.Simulates (cross slots c) (pool slots c.nworks) (Holds slots c) where
  start := by
    rintro d rfl
    exact ⟨0,rfl,[],0,rfl,by simp [run,blocks,frees],rfl⟩
  silent := by
    intro d held d' holds step
    cases step with
    | moves free quiet => exact ⟨held,.refl,holds.quiet quiet slots.empty⟩
  shown := by
    intro d held a d' holds step
    cases step with
    | takes draw free here => exact ⟨held,.takes,holds⟩
    | @took k r i v busy here => exact ⟨_,pool_took slots held k v,holds.took here v _⟩
    | @gives k r i free here =>
      obtain ⟨rest,rfl,next⟩ := holds.gives room here slots.empty (Function.update d.busy k .giving)
      exact ⟨rest,.gives rfl,next⟩
    | gave busy => exact ⟨held,.gave,holds⟩

/-- When all threads are done everything has been freed. -/
theorem ended (room : c.nworks * (2 * c.rounds) < 2 ^ 64) (holds : d.Holds slots c held)
    (all : ∀ k, d.state.pcs k = .done) : held = 0 := by
  obtain ⟨schedule,rest,same,sum,rfl⟩ := holds
  have ledger := CrossThread.run_ledger (direct slots) room schedule
  have nodup := CrossThread.run_nodup (direct slots) room schedule
  rw [same] at ledger
  have less : (blocks (direct slots) (run (direct slots) c.toConfig schedule).2 : Multiset (Fin c.nworks × Nat × Nat × α)) ≤
      frees (run (direct slots) c.toConfig schedule).2 := by
    refine (Multiset.le_iff_subset (Multiset.coe_nodup.mpr nodup.1)).mpr (fun b mem => ?_)
    obtain ⟨owner,r,i,v⟩ := b
    obtain ⟨k,rfl⟩ := CrossThread.exists_victim owner
    obtain ⟨event,nonnull⟩ := CrossThread.mem_blocks.mp (Multiset.mem_coe.mp mem)
    exact Multiset.mem_coe.mpr (CrossThread.mem_frees.mpr ⟨k,rfl,ledger.block_freed all event nonnull⟩)
  rw [sum] at less
  have none : rest = 0 := by
    have card := Multiset.card_le_card less
    rw [Multiset.card_add] at card
    exact Multiset.card_eq_zero.mp (by omega)
  rw [none,Multiset.map_zero]

end Cross

/-! ### The three patterns -/

/-- The loops of a pattern, and when they are over. -/
structure Loops (nworks : Nat) (α : Type) where
  At : Type
  system : System (Deal nworks α) At
  past : At → Prop

def loops (slots : Slots α) (c : Config) : Pattern → Loops c.nworks α
  | .bulkThenFree =>
    ⟨Workers c.nworks (Bulk α),workers c.nworks (bulk slots c) {},fun w => ∀ k, bulk slots c (w.at_ k) = .stops⟩
  | .interleaved =>
    ⟨Workers c.nworks (Ringed α),workers c.nworks (interleaved slots c) { ring := fun _ => slots.empty },
      fun w => ∀ k, interleaved slots c (w.at_ k) = .stops⟩
  | .crossThread => ⟨Cross c α,cross slots c,fun d => ∀ k, d.state.pcs k = .done⟩

/-- A ring is not empty, and the barrier is not called so often that its counter wraps. -/
def Config.Fits (c : Config) : Pattern → Prop
  | .bulkThenFree => True
  | .interleaved => 0 < c.window
  | .crossThread => c.nworks * (2 * c.rounds) < 2 ^ 64

theorem loops_simulate (slots : Slots α) (c : Config) (pattern : Pattern) (fits : c.Fits pattern) :
    ∃ Q, System.Simulates (loops slots c pattern).system (pool slots c.nworks) Q ∧
      ∀ s held, Q s held → (loops slots c pattern).past s → held = 0 := by
  cases pattern with
  | bulkThenFree =>
    have keeps := Bulk.keeps slots c
    have begins : Bulk.Fits c ({} : Bulk α) := ⟨rfl,fun _ => Nat.zero_le _,fun _ => rfl⟩
    exact ⟨_,keeps.simulates begins rfl,fun w held holds past => keeps.stopped holds past⟩
  | interleaved =>
    have keeps := Ringed.keeps slots (c := c) fits
    have empty := Ringed.empty_ring slots c 0
    exact ⟨_,keeps.simulates ⟨fits,fun _ => empty⟩ empty,fun w held holds past => keeps.stopped holds past⟩
  | crossThread => exact ⟨_,Cross.simulates slots fits,fun d held holds past => Cross.ended fits holds past⟩

/-- Whatever the calls return, and however the threads take turns: what is shown of a
    workload a pool shows too, so what it gives it has taken and not given before; and
    when the loops are over everything that was taken has been given. The ring of the
    interleaved pattern has slots, and the counter of the barrier does not wrap (`Fits`). -/
theorem loops_frugal (slots : Slots α) (c : Config) (pattern : Pattern) (fits : c.Fits pattern)
    {s s' : (loops slots c pattern).At} {shown : List (Deal c.nworks α)} (start : (loops slots c pattern).system.init s)
    (run : (loops slots c pattern).system.Runs s shown s') :
    ∃ held, (pool slots c.nworks).Runs 0 shown held ∧ ((loops slots c pattern).past s' → held = 0) := by
  obtain ⟨Q,sim,ended⟩ := loops_simulate slots c pattern fits
  obtain ⟨held,none,related⟩ := sim.start s start
  obtain ⟨held',run',related'⟩ := sim.runs related run
  cases (show held = 0 from none)
  exact ⟨held',run',ended s' held' related'⟩

/-- A thread that takes two blocks. -/
abbrev twoCalls : Config := ⟨⟨1,1,2⟩,.ramp,1⟩
abbrev twoDeals : List (Deal 1 Nat) :=
  [.takes 0 17,.took 0 8192,.takes 0 18,.took 0 16384,.gives 0 8192,.gave 0,.gives 0 16384,.gave 0]

/-- It takes blocks of 17 and of 18 bytes, and gives them back. -/
theorem twoCalls_runs : ∃ s', (loops CrossThread.runOnce twoCalls .bulkThenFree).system.Runs ⟨fun _ => {},fun _ => .no⟩
    twoDeals s' ∧ (loops CrossThread.runOnce twoCalls .bulkThenFree).past s' := by
  let system := (loops CrossThread.runOnce twoCalls .bulkThenFree).system
  have takes : system.Runs ⟨fun _ => {},fun _ => .no⟩ [.takes 0 17] _ :=
    System.Runs.refl.shows (@WorkersStep.takes _ _ _ _ _ 0 (sizeFor .ramp 0) _ 0 rfl rfl)
  have took : system.Runs ⟨fun _ => {},fun _ => .no⟩ [.takes 0 17,.took 0 8192] _ := takes.shows (.took rfl rfl)
  have takes' : system.Runs ⟨fun _ => {},fun _ => .no⟩ [.takes 0 17,.took 0 8192,.takes 0 18] _ :=
    took.shows (@WorkersStep.takes _ _ _ _ _ 0 (sizeFor .ramp 1) _ 0 rfl rfl)
  have took' : system.Runs ⟨fun _ => {},fun _ => .no⟩ [.takes 0 17,.took 0 8192,.takes 0 18,.took 0 16384] _ :=
    takes'.shows (.took rfl rfl)
  have turns := took'.silent (.goes (k := (0 : Fin 1)) rfl rfl)
  have gives : system.Runs ⟨fun _ => {},fun _ => .no⟩ (twoDeals.take 5) _ := turns.shows (.gives rfl rfl)
  have gave : system.Runs ⟨fun _ => {},fun _ => .no⟩ (twoDeals.take 6) _ := gives.shows (.gave rfl)
  have gives' : system.Runs ⟨fun _ => {},fun _ => .no⟩ (twoDeals.take 7) _ := gave.shows (.gives rfl rfl)
  have gave' : system.Runs ⟨fun _ => {},fun _ => .no⟩ twoDeals _ := gives'.shows (.gave rfl)
  exact ⟨_,gave'.silent (.goes (k := (0 : Fin 1)) rfl rfl),Fin.forall_fin_one.mpr rfl⟩

/-- One thread that takes two blocks and gives them back. -/
theorem loops_frugal_two : ∃ held, (pool CrossThread.runOnce 1).Runs 0 twoDeals held ∧ held = 0 := by
  obtain ⟨s',ended,over_⟩ := twoCalls_runs
  obtain ⟨held,run,past⟩ := loops_frugal CrossThread.runOnce twoCalls .bulkThenFree trivial rfl ended
  exact ⟨held,run,past over_⟩

end
end Workload
end TcAlloc
