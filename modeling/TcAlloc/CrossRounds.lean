import TcAlloc.Barriers
import TcAlloc.Stamps

/-!
The cross-thread workload of the two harnesses. Every thread fills its own row of
`shared`, waits for the others, frees what the next thread has filled, and waits
again, round after round. A schedule says which thread moves next and what `Alloc`
would answer it; a move is one access to the counter of the barrier or to a slot, or
one call of `Alloc` or `Free`. The events of a run are kept in order beside the
state, and no code reads them.
-/
namespace TcAlloc
namespace CrossThread

/-- Where a thread is in `Give`, which looks at the slot again before it frees. -/
inductive Giving where
  /-- `if (!b.p) return` -/
  | look
  /-- `CheckBlock(b.p, b.n, b.tag, &off)` -/
  | check
  /-- `reg.Erase(b.p)` -/
  | erase
  /-- `Free(b.p)` -/
  | free
  deriving DecidableEq

/-- What the slots of `shared` hold, and how a harness frees it: through `Give`, or
    by `Free` at once. -/
structure Slots (α : Type) where
  ptr : α → Nat
  empty : α
  null : ptr empty = 0
  enters : Giving

/-- `RunOnce`: a slot holds a pointer. -/
def runOnce : Slots Nat := ⟨id,0,rfl,.free⟩
/-- `RunCheck`: the tag and the size travel with the pointer. -/
def runCheck : Slots Verify.Block := ⟨(·.p),⟨0,0,0⟩,rfl,.look⟩

/-- What of the configuration the workload reads. -/
structure Config where
  nworks : Nat
  rounds : Nat
  ntimes : Nat

/-- What a thread does next, in round `r`; `second` tells the barriers of a round apart. -/
inductive Pc (α : Type) where
  /-- Call `Alloc` for the slot `i`. -/
  | fill (r i : Nat)
  /-- Store the answer. -/
  | store (r i : Nat) (v : α)
  /-- `gen = state.load() / n` -/
  | load (r : Nat) (second : Bool)
  /-- `state.fetch_add(1) + 1 == (gen + 1) * n` -/
  | add (r : Nat) (second : Bool) (gen : Nat)
  /-- `while (state.load() / n == gen)` -/
  | spin (r : Nat) (second : Bool) (gen : Nat)
  /-- `if (shared[victim][i])` -/
  | test (r i : Nat)
  | give (at_ : Giving) (r i : Nat)
  /-- `shared[victim][i] = nullptr` -/
  | clear (r i : Nat)
  | done

/-- What an observer sees of a run over `n` threads. -/
inductive Event (n : Nat) (α : Type) where
  | allocated (k : Fin n) (r i : Nat) (v : α)
  /-- The thread has stored what it allocated into its slot. -/
  | filled (k : Fin n) (r i : Nat) (v : α)
  /-- The thread has called `Free` on what was in the slot of its victim. -/
  | freed (k : Fin n) (r i : Nat) (v : α)
  | cleared (k : Fin n) (r i : Nat)
  /-- The thread has entered its call `j` of the barrier, counted from zero. -/
  | entered (k : Fin n) (j : Nat)
  | returned (k : Fin n) (j : Nat)

structure State (n : Nat) (α : Type) where
  counter : Nat
  shared : Fin n → Nat → α
  pcs : Fin n → Pc α

variable {n : Nat} {α : Type}

def victim (k : Fin n) : Fin n := ⟨(k + 1) % n,Nat.mod_lt _ (Nat.zero_lt_of_lt k.isLt)⟩

namespace State

def goto (s : State n α) (k : Fin n) (pc : Pc α) : State n α := { s with pcs := Function.update s.pcs k pc }
def put (s : State n α) (owner : Fin n) (i : Nat) (v : α) : State n α :=
  { s with shared := Function.update s.shared owner (Function.update (s.shared owner) i v) }

end State

namespace Config

/-- The loop that fills, with the slot `i` next. -/
def fillFrom (c : Config) (r i : Nat) : Pc α := if i < c.ntimes then .fill r i else .load r false
/-- The loop that frees. -/
def testFrom (c : Config) (r i : Nat) : Pc α := if i < c.ntimes then .test r i else .load r true
/-- The loop over the rounds. -/
def roundFrom (c : Config) (r : Nat) : Pc α := if r < c.rounds then c.fillFrom r 0 else .done
/-- What follows a barrier. -/
def after (c : Config) (r : Nat) (second : Bool) : Pc α := if second then c.roundFrom (r + 1) else c.testFrom r 0

end Config

/-- The number of a call of the barrier. -/
def call (r : Nat) (second : Bool) : Nat := if second then 2 * r + 1 else 2 * r

@[simp] theorem call_first (r : Nat) : call r false = 2 * r := rfl
@[simp] theorem call_second (r : Nat) : call r true = 2 * r + 1 := rfl

/-- The next move of the thread `k`, and what an observer sees of it. -/
def advance (slots : Slots α) (c : Config) (s : State c.nworks α) (k : Fin c.nworks) (answer : α) :
    State c.nworks α × Option (Event c.nworks α) :=
  match s.pcs k with
  | .fill r i => (s.goto k (.store r i answer),some (.allocated k r i answer))
  | .store r i v => ((s.put k i v).goto k (c.fillFrom r (i + 1)),some (.filled k r i v))
  | .load r second => (s.goto k (.add r second (s.counter / c.nworks)),some (.entered k (call r second)))
  | .add r second gen =>
    let s' := { s with counter := (s.counter + 1) % 2 ^ 64 }
    if (s.counter + 1) % 2 ^ 64 = (gen + 1) * c.nworks % 2 ^ 64 then
      (s'.goto k (c.after r second),some (.returned k (call r second)))
    else (s'.goto k (.spin r second gen),none)
  | .spin r second gen =>
    if s.counter / c.nworks = gen then (s,none) else (s.goto k (c.after r second),some (.returned k (call r second)))
  | .test r i =>
    if slots.ptr (s.shared (victim k) i) ≠ 0 then (s.goto k (.give slots.enters r i),none) else
      (s.goto k (c.testFrom r (i + 1)),none)
  | .give .look r i =>
    if slots.ptr (s.shared (victim k) i) ≠ 0 then (s.goto k (.give .check r i),none) else (s.goto k (.clear r i),none)
  | .give .check r i => (s.goto k (.give .erase r i),none)
  | .give .erase r i => (s.goto k (.give .free r i),none)
  | .give .free r i => (s.goto k (.clear r i),some (.freed k r i (s.shared (victim k) i)))
  | .clear r i => ((s.put (victim k) i slots.empty).goto k (c.testFrom r (i + 1)),some (.cleared k r i))
  | .done => (s,none)

/-- Before the threads start. -/
def start (slots : Slots α) (c : Config) : State c.nworks α := ⟨0,fun _ _ => slots.empty,fun _ => c.roundFrom 0⟩

/-- The moves of a schedule, one after the other. -/
def run (slots : Slots α) (c : Config) (schedule : List (Fin c.nworks × α)) : State c.nworks α × List (Event c.nworks α) :=
  schedule.foldl (fun now move =>
    let next := advance slots c now.1 move.1 move.2
    (next.1,now.2 ++ next.2.toList)) (start slots c,[])

/-! ### The barrier -/

namespace Pc
variable {c : Config} {pc : Pc α} {r i gen : Nat} {second : Bool} {v : α}

/-- The rounds and slots that there are. -/
def Fits (c : Config) : Pc α → Prop
  | .fill r i => r < c.rounds ∧ i < c.ntimes
  | .store r i _ => r < c.rounds ∧ i < c.ntimes
  | .load r _ => r < c.rounds
  | .add r _ _ => r < c.rounds
  | .spin r _ _ => r < c.rounds
  | .test r i => r < c.rounds ∧ i < c.ntimes
  | .give _ r i => r < c.rounds ∧ i < c.ntimes
  | .clear r i => r < c.rounds ∧ i < c.ntimes
  | .done => True

/-- The thread as a party of the barrier. -/
def phase (c : Config) : Pc α → Phase
  | .fill r _ => .away (2 * r)
  | .store r _ _ => .away (2 * r)
  | .load r second => .away (call r second)
  | .add r second gen => .loaded (call r second) gen
  | .spin r second gen => .waiting (call r second) gen
  | .test r _ => .away (2 * r + 1)
  | .give _ r _ => .away (2 * r + 1)
  | .clear r _ => .away (2 * r + 1)
  | .done => .away (2 * c.rounds)

theorem fits_fillFrom (round : r < c.rounds) : (c.fillFrom r i : Pc α).Fits c := by
  unfold Config.fillFrom
  split_ifs with more
  · exact ⟨round,more⟩
  · exact round

theorem fits_testFrom (round : r < c.rounds) : (c.testFrom r i : Pc α).Fits c := by
  unfold Config.testFrom
  split_ifs with more
  · exact ⟨round,more⟩
  · exact round

theorem fits_roundFrom : (c.roundFrom r : Pc α).Fits c := by
  unfold Config.roundFrom
  split_ifs with more
  · exact fits_fillFrom more
  · trivial

theorem fits_after (round : r < c.rounds) : (c.after r second : Pc α).Fits c := by
  unfold Config.after
  split_ifs
  · exact fits_roundFrom
  · exact fits_testFrom round

@[simp] theorem phase_fillFrom : (c.fillFrom r i : Pc α).phase c = .away (2 * r) := by
  unfold Config.fillFrom
  split_ifs <;> rfl

@[simp] theorem phase_testFrom : (c.testFrom r i : Pc α).phase c = .away (2 * r + 1) := by
  unfold Config.testFrom
  split_ifs <;> rfl

theorem phase_roundFrom (round : r ≤ c.rounds) : (c.roundFrom r : Pc α).phase c = .away (2 * r) := by
  unfold Config.roundFrom
  split_ifs with more
  · exact phase_fillFrom
  · have same : r = c.rounds := by omega
    rw [same]
    rfl

theorem phase_after (round : r < c.rounds) : (c.after r second : Pc α).phase c = .away (call r second + 1) := by
  unfold Config.after
  cases second
  · exact phase_testFrom
  · exact phase_roundFrom round

theorem call_lt (round : r < c.rounds) : call r second < 2 * c.rounds := by
  unfold call
  split_ifs <;> omega

end Pc

/-- The harness as the barrier that it uses. -/
def State.barrier (c : Config) (s : State c.nworks α) : Barrier (Fin c.nworks) := ⟨s.counter,fun k => (s.pcs k).phase c⟩

section
variable {slots : Slots α} {c : Config} {s : State c.nworks α} {k k' : Fin c.nworks} {answer v : α} {pc : Pc α} {r i j : Nat}

theorem barrier_goto {s' : State c.nworks α} (kept : s'.pcs = s.pcs) (pc : Pc α) :
    (s'.goto k pc).barrier c = ⟨s'.counter,Function.update (s.barrier c).phase k (pc.phase c)⟩ := by
  simp only [State.barrier,State.goto,Barrier.mk.injEq,true_and]
  funext k'
  by_cases here : k' = k
  · subst here; simp
  · simp [here,kept]

/-- A thread that stays where it is for the barrier. -/
theorem barrier_still {s' : State c.nworks α} {from_ : Pc α} (here : s.pcs k = from_) (kept : s'.pcs = s.pcs)
    (count : s'.counter = s.counter)
    (same : pc.phase c = from_.phase c) : (s'.goto k pc).barrier c = s.barrier c := by
  rw [barrier_goto kept,count,same,← here]
  exact congrArg (Barrier.mk s.counter) (Function.update_eq_self k _)

theorem advance_fits (slots : Slots α) (k : Fin c.nworks) (answer : α) (fits : ∀ k, (s.pcs k).Fits c) : ∀ k',
    ((advance slots c s k answer).1.pcs k').Fits c := by
  have moved : ∀ (s' : State c.nworks α) pc, s'.pcs = s.pcs → pc.Fits c → ∀ k', ((s'.goto k pc).pcs k').Fits c := by
    intro s' pc same fits' k'
    by_cases here : k' = k
    · subst here; simpa [State.goto] using fits'
    · simpa [State.goto,here,same] using fits k'
  have here := fits k
  unfold advance
  split <;> rename_i at_k <;> rw [at_k] at here
  · exact moved s _ rfl here
  · exact moved _ _ rfl (Pc.fits_fillFrom here.1)
  · exact moved s _ rfl here
  · dsimp only
    split_ifs
    · exact moved _ _ rfl (Pc.fits_after here)
    · exact moved _ _ rfl here
  · split_ifs
    · exact fits
    · exact moved s _ rfl (Pc.fits_after here)
  · split_ifs
    · exact moved s _ rfl here
    · exact moved s _ rfl (Pc.fits_testFrom here.1)
  · split_ifs
    · exact moved s _ rfl here
    · exact moved s _ rfl here
  · exact moved s _ rfl here
  · exact moved s _ rfl here
  · exact moved s _ rfl here
  · exact moved _ _ rfl (Pc.fits_testFrom here.1)
  · exact fits

/-- A move is an access to the barrier, or nothing for it. -/
theorem advance_barrier (slots : Slots α) (answer : α) (fits : (s.pcs k).Fits c) :
    Barrier.Step (2 ^ 64) (2 * c.rounds) k (s.barrier c) ((advance slots c s k answer).1.barrier c) ∨
      (advance slots c s k answer).1.barrier c = s.barrier c := by
  have phase : ∀ {pc : Pc α}, s.pcs k = pc → (s.barrier c).phase k = pc.phase c := fun here => congrArg (Pc.phase c) here
  have workers : Fintype.card (Fin c.nworks) = c.nworks := Fintype.card_fin _
  cases here : s.pcs k with
  | fill r i => exact .inr (by simp only [advance,here]; exact barrier_still here rfl rfl rfl)
  | store r i v => exact .inr (by simp only [advance,here]; exact barrier_still here rfl rfl Pc.phase_fillFrom)
  | load r second =>
    rw [here] at fits
    have step : Barrier.Step (2 ^ 64) (2 * c.rounds) k (s.barrier c) _ := .enter (phase here) (Pc.call_lt fits)
    rw [workers] at step
    refine .inl ?_
    simp only [advance,here]
    rw [barrier_goto rfl]
    exact step
  | add r second gen =>
    rw [here] at fits
    refine .inl ?_
    simp only [advance,here]
    split_ifs with all
    · rw [barrier_goto rfl,Pc.phase_after fits]
      exact .last (phase here) (by rw [workers]; exact all)
    · rw [barrier_goto rfl]
      exact .early (phase here) (by rw [workers]; exact all)
  | spin r second gen =>
    rw [here] at fits
    simp only [advance,here]
    split_ifs with same
    · exact .inr rfl
    · refine .inl ?_
      rw [barrier_goto rfl,Pc.phase_after fits]
      exact .leave (phase here) (by rw [workers]; exact same)
  | test r i =>
    simp only [advance,here]
    split_ifs
    · exact .inr (barrier_still here rfl rfl rfl)
    · exact .inr (barrier_still here rfl rfl Pc.phase_testFrom)
  | give at_ r i =>
    refine .inr ?_
    cases at_ with
    | look =>
      simp only [advance,here]
      split_ifs
      · exact barrier_still here rfl rfl rfl
      · exact barrier_still here rfl rfl rfl
    | check => simp only [advance,here]; exact barrier_still here rfl rfl rfl
    | erase => simp only [advance,here]; exact barrier_still here rfl rfl rfl
    | free => simp only [advance,here]; exact barrier_still here rfl rfl rfl
  | clear r i => exact .inr (by simp only [advance,here]; exact barrier_still here rfl rfl Pc.phase_testFrom)
  | done => exact .inr (by simp only [advance,here])

end

end CrossThread
end TcAlloc
