import TcAlloc.CrossRounds
import Mathlib.Data.Fintype.EquivFin
import Mathlib.Data.List.Perm.Basic

/-!
What happens to a slot of `shared` in a round. Its owner allocates a block and
stores it, and the thread before the owner frees the block and clears the slot. The
program counters of the two say how far this is (`Told`), and the barrier keeps them
together: while one thread frees, its victim's row is full (`Ledger.freeing`), and
while one fills, nobody is at its slots (`Ledger.filling`).
-/
namespace TcAlloc
namespace CrossThread

variable {n : Nat} {α : Type}

/-! ### Program counters and slots -/

namespace Pc
variable {c : Config} {pc : Pc α} {r r' i i' gen : Nat} {second : Bool} {v : α}

/-- The thread has stored into its slot `i` in round `r`. -/
def Stored (c : Config) (r i : Nat) : Pc α → Prop
  | .fill r' i' => r < r' ∨ r = r' ∧ i < i'
  | .store r' i' _ => r < r' ∨ r = r' ∧ i < i'
  | .load r' _ => r ≤ r'
  | .add r' _ _ => r ≤ r'
  | .spin r' _ _ => r ≤ r'
  | .test r' _ => r ≤ r'
  | .give _ r' _ => r ≤ r'
  | .clear r' _ => r ≤ r'
  | .done => r < c.rounds

/-- The thread is through with the slot `i` of its victim in round `r`. -/
def Passed (c : Config) (r i : Nat) : Pc α → Prop
  | .fill r' _ => r < r'
  | .store r' _ _ => r < r'
  | .load r' second => r < r' ∨ r = r' ∧ second
  | .add r' second _ => r < r' ∨ r = r' ∧ second
  | .spin r' second _ => r < r' ∨ r = r' ∧ second
  | .test r' i' => r < r' ∨ r = r' ∧ i < i'
  | .give _ r' i' => r < r' ∨ r = r' ∧ i < i'
  | .clear r' i' => r < r' ∨ r = r' ∧ i < i'
  | .done => r < c.rounds

/-- The object that the thread has allocated for its slot and not stored yet. -/
def carried (r i : Nat) : Pc α → Option α
  | .store r' i' v => if r = r' ∧ i = i' then some v else none
  | _ => none

/-- The thread has freed what is in the slot of its victim. -/
def Cleared (r i : Nat) : Pc α → Prop
  | .clear r' i' => r = r' ∧ i = i'
  | _ => False

/-- The thread has found something in the slot of its victim. -/
def Found (r i : Nat) : Pc α → Prop
  | .give _ r' i' => r = r' ∧ i = i'
  | .clear r' i' => r = r' ∧ i = i'
  | _ => False

/-- A move between these does nothing to the slot `i`, as the thread's own one and as
    its victim's. -/
structure SameAt (c : Config) (pc pc' : Pc α) (r i : Nat) : Prop where
  stored : pc'.Stored c r i ↔ pc.Stored c r i
  passed : pc'.Passed c r i ↔ pc.Passed c r i
  carried : pc'.carried r i = pc.carried r i
  cleared : pc'.Cleared r i ↔ pc.Cleared r i

theorem stored_fillFrom (inside : i < c.ntimes) : (c.fillFrom r' i' : Pc α).Stored c r i ↔ r < r' ∨ r = r' ∧ i < i' := by
  unfold Config.fillFrom
  split_ifs with more
  · rfl
  · simp only [Stored]; omega

theorem stored_testFrom : (c.testFrom r' i' : Pc α).Stored c r i ↔ r ≤ r' := by
  unfold Config.testFrom
  split_ifs <;> rfl

theorem passed_fillFrom : (c.fillFrom r' i' : Pc α).Passed c r i ↔ r < r' := by
  unfold Config.fillFrom
  split_ifs <;> simp [Passed]

theorem passed_testFrom (inside : i < c.ntimes) : (c.testFrom r' i' : Pc α).Passed c r i ↔ r < r' ∨ r = r' ∧ i < i' := by
  unfold Config.testFrom
  split_ifs with more
  · rfl
  · simp only [Passed,and_true]; omega

theorem quiet_fillFrom : (c.fillFrom r' i' : Pc α).carried r i = none ∧ ¬ (c.fillFrom r' i' : Pc α).Found r i := by
  unfold Config.fillFrom
  split_ifs <;> simp [carried,Found]

theorem quiet_testFrom : (c.testFrom r' i' : Pc α).carried r i = none ∧ ¬ (c.testFrom r' i' : Pc α).Found r i := by
  unfold Config.testFrom
  split_ifs <;> simp [carried,Found]

theorem Cleared.found (cleared : pc.Cleared r i) : pc.Found r i := by
  cases pc <;> simp_all [Cleared,Found]

theorem quiet_after : (c.after r' second : Pc α).carried r i = none ∧ ¬ (c.after r' second : Pc α).Found r i := by
  unfold Config.after Config.roundFrom
  split_ifs
  · exact quiet_fillFrom
  · exact ⟨rfl,not_false⟩
  · exact quiet_testFrom

theorem stored_after (round : r' < c.rounds) (inside : i < c.ntimes) : (c.after r' second : Pc α).Stored c r i ↔ r ≤ r' := by
  unfold Config.after Config.roundFrom
  split_ifs with again more
  · rw [stored_fillFrom inside]
    omega
  · simp only [Stored]
    omega
  · exact stored_testFrom

theorem passed_after (round : r' < c.rounds) (inside : i < c.ntimes) :
    (c.after r' second : Pc α).Passed c r i ↔ r < r' ∨ r = r' ∧ second = true := by
  unfold Config.after Config.roundFrom
  split_ifs with again more
  · rw [passed_fillFrom]
    simp only [again,and_true]
    omega
  · simp only [Passed,again,and_true]
    omega
  · rw [passed_testFrom inside]
    simp [again]

/-- Nothing happens to the slots at a barrier. -/
theorem same_add (round : r' < c.rounds) (gen : Nat) (inside : i < c.ntimes) : SameAt c
    (.add r' second gen : Pc α) (c.after r' second) r i :=
  ⟨stored_after round inside,passed_after round inside,quiet_after.1,
  ⟨fun cleared => absurd cleared.found quiet_after.2,False.elim⟩⟩

theorem same_spin (round : r' < c.rounds) (gen : Nat) (inside : i < c.ntimes) : SameAt c
    (.spin r' second gen : Pc α) (c.after r' second) r i :=
  ⟨stored_after round inside,passed_after round inside,quiet_after.1,
  ⟨fun cleared => absurd cleared.found quiet_after.2,False.elim⟩⟩

/-- While a thread frees in round `r`, its victim has filled its whole row in that
    round, and nothing in a later one. -/
theorem stored_iff (fits : pc.Fits c) (arrived : 2 * r + 1 ≤ (pc.phase c).arrived)
    (passed : (pc.phase c).passed ≤ 2 * r + 1) :
    pc.Stored c r' i ↔ r' ≤ r := by
  cases pc with
  | done => simp only [Stored,phase,Phase.arrived,Phase.passed] at *; omega
  | load r₂ second =>
    cases second <;> simp only [Stored,phase,call_first,call_second,Phase.arrived,Phase.passed] at * <;> omega
  | add r₂ second gen =>
    cases second <;> simp only [Stored,phase,call_first,call_second,Phase.arrived,Phase.passed] at * <;> omega
  | spin r₂ second gen =>
    cases second <;> simp only [Stored,phase,call_first,call_second,Phase.arrived,Phase.passed] at * <;> omega
  | fill r₂ i₂ => simp only [phase,Phase.arrived,Phase.passed] at *; omega
  | store r₂ i₂ v => simp only [phase,Phase.arrived,Phase.passed] at *; omega
  | test r₂ i₂ => simp only [Stored,phase,Phase.arrived,Phase.passed] at *; omega
  | give at_ r₂ i₂ => simp only [Stored,phase,Phase.arrived,Phase.passed] at *; omega
  | clear r₂ i₂ => simp only [Stored,phase,Phase.arrived,Phase.passed] at *; omega

/-- While a thread fills in round `r`, what it filled before has been gone through,
    and nothing that it fills in this round. -/
theorem passed_iff (fits : pc.Fits c) (round : r < c.rounds) (arrived : 2 * r ≤ (pc.phase c).arrived)
    (passed : (pc.phase c).passed ≤ 2 * r) :
    (pc.Passed c r' i ↔ r' < r) ∧ ∀ r' i, ¬ pc.Found r' i := by
  cases pc with
  | done => simp only [Passed,Found,phase,Phase.arrived,Phase.passed] at *; omega
  | load r₂ second => cases second <;> simp [Passed,Found,phase,Phase.arrived,Phase.passed] at * <;> omega
  | add r₂ second gen => cases second <;> simp [Passed,Found,phase,Phase.arrived,Phase.passed] at * <;> omega
  | spin r₂ second gen => cases second <;> simp [Passed,Found,phase,Phase.arrived,Phase.passed] at * <;> omega
  | fill r₂ i₂ => simp only [Passed,Found,phase,Phase.arrived,Phase.passed] at *; exact ⟨by omega,by simp⟩
  | store r₂ i₂ v => simp only [Passed,Found,phase,Phase.arrived,Phase.passed] at *; exact ⟨by omega,by simp⟩
  | test r₂ i₂ => simp only [phase,Phase.arrived,Phase.passed] at *; omega
  | give at_ r₂ i₂ => simp only [phase,Phase.arrived,Phase.passed] at *; omega
  | clear r₂ i₂ => simp only [phase,Phase.arrived,Phase.passed] at *; omega

end Pc

/-- The slot that an event is about, and the round. -/
def Event.slot : Event n α → Option (Fin n × Nat × Nat)
  | .allocated k r i _ => some (k,r,i)
  | .filled k r i _ => some (k,r,i)
  | .freed k r i _ => some (victim k,r,i)
  | .cleared k r i => some (victim k,r,i)
  | .entered _ _ => none
  | .returned _ _ => none

/-- What happened to a slot in a round. -/
def history (trace : List (Event n α)) (owner : Fin n) (r i : Nat) : List (Event n α) :=
    trace.filter (fun e => decide (e.slot = some (owner,r,i)))

/-- All that happens to a slot in a round: its owner fills it, and the thread before
    the owner frees and clears it, unless it holds the null pointer. -/
def life (slots : Slots α) (k : Fin n) (r i : Nat) (v : α) : List (Event n α) :=
  if slots.ptr v = 0 then [.allocated (victim k) r i v,.filled (victim k) r i v]
  else [.allocated (victim k) r i v,.filled (victim k) r i v,.freed k r i v,.cleared k r i]

/-- How far the life of the slot `i` of the victim of `k` is, in round `r`. -/
structure Told (slots : Slots α) (c : Config) (s : State c.nworks α) (k : Fin c.nworks) (r i : Nat)
    (told : List (Event c.nworks α)) : Prop where
  before : ¬ (s.pcs (victim k)).Stored c r i → told = ((s.pcs (victim k)).carried r i).toList.map (.allocated (victim k) r i)
  held : (s.pcs (victim k)).Stored c r i → ¬ (s.pcs k).Passed c r i → ¬ (s.pcs k).Cleared r i →
    told = [.allocated (victim k) r i (s.shared (victim k) i),.filled (victim k) r i (s.shared (victim k) i)]
  freed : (s.pcs k).Cleared r i → told = [.allocated (victim k) r i (s.shared (victim k) i),
    .filled (victim k) r i (s.shared (victim k) i),.freed k r i (s.shared (victim k) i)]
  ended : (s.pcs k).Passed c r i → ∃ v, told = life slots k r i v

/-- How the slots and what happened to them fit the threads. -/
structure Accounts (slots : Slots α) (c : Config) (s : State c.nworks α) (trace : List (Event c.nworks α)) : Prop where
  told : ∀ k r i, i < c.ntimes → Told slots c s k r i (history trace (victim k) r i)
  /-- A slot in which nothing waits to be freed is null. -/
  empty : ∀ k i, i < c.ntimes → (∀ r, (s.pcs (victim k)).Stored c r i → (s.pcs k).Passed c r i) →
    slots.ptr (s.shared (victim k) i) = 0
  found : ∀ k r i, (s.pcs k).Found r i → slots.ptr (s.shared (victim k) i) ≠ 0
  inside : ∀ e ∈ trace, ∀ owner r i, e.slot = some (owner,r,i) → i < c.ntimes

/-- What holds along every run. -/
structure Ledger (slots : Slots α) (c : Config) (s : State c.nworks α) (trace : List (Event c.nworks α)) : Prop where
  sound : Barrier.Sound (2 * c.rounds) (s.barrier c)
  fits : ∀ k, (s.pcs k).Fits c
  accounts : Accounts slots c s trace

/-- What a move does to the slots, and to what the thread knows of them. -/
inductive Effect (slots : Slots α) (c : Config) (s : State c.nworks α) (k : Fin c.nworks) : State c.nworks α →
    Option (Event c.nworks α) → Prop
  | rest : Effect slots c s k s none
  | quiet {s' : State c.nworks α} {pc : Pc α} {e : Option (Event c.nworks α)} (kept : s'.pcs = s.pcs)
      (still : s'.shared = s.shared)
      (same : ∀ r i, i < c.ntimes → Pc.SameAt c (s.pcs k) pc r i)
      (found : ∀ r i, pc.Found r i → slots.ptr (s.shared (victim k) i) ≠ 0)
      (silent : ∀ x, e = some x → x.slot = none) : Effect slots c s k (s'.goto k pc) e
  | allocate {r i : Nat} (v : α) (here : s.pcs k = .fill r i) : Effect slots c s k
      (s.goto k (.store r i v)) (some (.allocated k r i v))
  | fill {r i : Nat} {v : α} (here : s.pcs k = .store r i v) :
      Effect slots c s k ((s.put k i v).goto k (c.fillFrom r (i + 1))) (some (.filled k r i v))
  | skip {r i : Nat} (here : s.pcs k = .test r i) (nothing : slots.ptr (s.shared (victim k) i) = 0) :
      Effect slots c s k (s.goto k (c.testFrom r (i + 1))) none
  | free {r i : Nat} (here : s.pcs k = .give .free r i) :
      Effect slots c s k (s.goto k (.clear r i)) (some (.freed k r i (s.shared (victim k) i)))
  | clear {r i : Nat} (here : s.pcs k = .clear r i) :
      Effect slots c s k ((s.put (victim k) i slots.empty).goto k (c.testFrom r (i + 1))) (some (.cleared k r i))

section
variable {slots : Slots α} {c : Config} {s s' : State c.nworks α} {k k' : Fin c.nworks}
  {answer v : α} {pc : Pc α} {r i j : Nat}
  {trace : List (Event c.nworks α)} {e : Event c.nworks α}

theorem advance_effect (answer : α) (fits : (s.pcs k).Fits c)
    (found : ∀ r i, (s.pcs k).Found r i → slots.ptr (s.shared (victim k) i) ≠ 0) :
    Effect slots c s k (advance slots c s k answer).1 (advance slots c s k answer).2 := by
  cases here : s.pcs k with
  | fill r i => simp only [advance,here]; exact .allocate answer here
  | store r i v => simp only [advance,here]; exact .fill here
  | load r second =>
    simp only [advance,here]
    exact .quiet rfl rfl (by rw [here]; exact fun _ _ _ => ⟨Iff.rfl,Iff.rfl,rfl,Iff.rfl⟩)
      (fun _ _ found => found.elim) (by rintro _ ⟨⟩; rfl)
  | add r second gen =>
    rw [here] at fits
    simp only [advance,here]
    split_ifs
    · exact .quiet rfl rfl (by rw [here]; exact fun _ _ => Pc.same_add fits gen)
        (fun _ _ found => absurd found Pc.quiet_after.2) (by rintro _ ⟨⟩; rfl)
    · exact .quiet rfl rfl (by rw [here]; exact fun _ _ _ => ⟨Iff.rfl,Iff.rfl,rfl,Iff.rfl⟩)
        (fun _ _ found => found.elim) (by simp)
  | spin r second gen =>
    rw [here] at fits
    simp only [advance,here]
    split_ifs
    · exact .rest
    · exact .quiet rfl rfl (by rw [here]; exact fun _ _ => Pc.same_spin fits gen)
        (fun _ _ found => absurd found Pc.quiet_after.2) (by rintro _ ⟨⟩; rfl)
  | test r i =>
    simp only [advance,here]
    split_ifs with some
    · exact .quiet rfl rfl (by rw [here]; exact fun _ _ _ => ⟨Iff.rfl,Iff.rfl,rfl,Iff.rfl⟩)
        (by rintro _ _ ⟨rfl,rfl⟩; exact some) (by simp)
    · exact .skip here (not_not.mp some)
  | give at_ r i =>
    rw [here] at found
    have some := found r i ⟨rfl,rfl⟩
    cases at_ with
    | look =>
      simp only [advance,here,if_pos some]
      exact .quiet rfl rfl (by rw [here]; exact fun _ _ _ => ⟨Iff.rfl,Iff.rfl,rfl,Iff.rfl⟩) found (by simp)
    | check =>
      simp only [advance,here]
      exact .quiet rfl rfl (by rw [here]; exact fun _ _ _ => ⟨Iff.rfl,Iff.rfl,rfl,Iff.rfl⟩) found (by simp)
    | erase =>
      simp only [advance,here]
      exact .quiet rfl rfl (by rw [here]; exact fun _ _ _ => ⟨Iff.rfl,Iff.rfl,rfl,Iff.rfl⟩) found (by simp)
    | free => simp only [advance,here]; exact .free here
  | clear r i => simp only [advance,here]; exact .clear here
  | done => simp only [advance,here]; exact .rest

theorem victim_injective {k k' : Fin n} (same : victim k = victim k') : k = k' := by
  have equal : (k.val + 1) % n = (k'.val + 1) % n := congrArg Fin.val same
  have small := k.isLt
  have small' := k'.isLt
  have wraps : ∀ x : Nat, x < n → (x + 1) % n = if x + 1 = n then 0 else x + 1 := by
    intro x less
    split_ifs with full
    · rw [full,Nat.mod_self]
    · exact Nat.mod_eq_of_lt (by omega)
  rw [wraps _ small,wraps _ small'] at equal
  apply Fin.ext
  split_ifs at equal <;> omega

theorem exists_victim (owner : Fin n) : ∃ k, victim k = owner :=
  Finite.surjective_of_injective (fun _ _ => victim_injective) owner

/-- While a thread frees, its victim has filled its row and stores nothing. -/
theorem Ledger.freeing (ledger : Ledger slots c s trace) (here : (s.pcs k).phase c = .away (2 * r + 1)) {r' : Nat} :
    (s.pcs (victim k)).Stored c r' i ↔ r' ≤ r := by
  have low := ledger.sound.together k (victim k)
  have high := ledger.sound.together (victim k) k
  simp only [State.barrier,here,Phase.passed,Phase.arrived] at low high
  exact Pc.stored_iff (ledger.fits (victim k)) low high

/-- While a thread fills, nobody frees what it fills. -/
theorem Ledger.filling (ledger : Ledger slots c s trace) (round : r < c.rounds)
    (here : (s.pcs (victim k)).phase c = .away (2 * r)) (r' : Nat) :
    ((s.pcs k).Passed c r' i ↔ r' < r) ∧ ∀ r' i, ¬ (s.pcs k).Found r' i := by
  have low := ledger.sound.together (victim k) k
  have high := ledger.sound.together k (victim k)
  simp only [State.barrier,here,Phase.passed,Phase.arrived] at low high
  exact Pc.passed_iff (ledger.fits k) round low high

theorem history_append (owner : Fin n) (trace more : List (Event n α)) (r i : Nat) :
    history (trace ++ more) owner r i = history trace owner r i ++ history more owner r i := List.filter_append trace more

theorem history_other {owner : Fin n} {e : Event n α} {r i : Nat} (other : e.slot ≠ some (owner,r,i)) :
    history [e] owner r i = [] := by
  simp [history,other]

theorem history_this {owner : Fin n} {e : Event n α} {r i : Nat} (this : e.slot = some (owner,r,i)) :
    history [e] owner r i = [e] := by
  simp [history,this]

/-! ### What the moves do to the accounts -/

theorem put_self (s : State c.nworks α) (owner : Fin c.nworks) (i : Nat) (v : α) :
    (s.put owner i v).shared owner i = v := by
  simp [State.put]

theorem put_other (s : State c.nworks α) (v : α) {owner o : Fin c.nworks} (other : ¬ (o = owner ∧ j = i)) :
    (s.put owner i v).shared o j = s.shared o j := by
  by_cases same : o = owner
  · subst same
    have ne : j ≠ i := fun equal => other ⟨rfl,equal⟩
    simp [State.put,ne]
  · simp [State.put,same]

theorem goto_self (s : State c.nworks α) (k : Fin c.nworks) (pc : Pc α) : (s.goto k pc).pcs k = pc := by simp [State.goto]

theorem goto_other (s : State c.nworks α) (pc : Pc α) (other : k' ≠ k) : (s.goto k pc).pcs k' = s.pcs k' := by
  simp [State.goto,other]

theorem Pc.Cleared.not_passed (cleared : pc.Cleared r i) : ¬ pc.Passed c r i := by
  cases pc with
  | clear r' i' =>
    obtain ⟨rfl,rfl⟩ := cleared
    simp [Pc.Passed]
  | _ => exact cleared.elim

/-- The life of a slot is where it was. -/
theorem Told.congr {told : List (Event c.nworks α)} (holds : Told slots c s k r i told)
    (stored : (s'.pcs (victim k)).Stored c r i ↔ (s.pcs (victim k)).Stored c r i)
    (passed : (s'.pcs k).Passed c r i ↔ (s.pcs k).Passed c r i)
    (carried : (s'.pcs (victim k)).carried r i = (s.pcs (victim k)).carried r i)
    (cleared : (s'.pcs k).Cleared r i ↔ (s.pcs k).Cleared r i)
    (value : (s.pcs (victim k)).Stored c r i ∨ (s.pcs k).Cleared r i → ¬ (s.pcs k).Passed c r i → s'.shared (victim k)
    i = s.shared (victim k) i) :
    Told slots c s' k r i told := by
  refine ⟨fun not => ?_,fun yes open_ not => ?_,fun yes => ?_,fun yes => holds.ended (passed.mp yes)⟩
  · rw [carried]; exact holds.before (fun yes => not (stored.mpr yes))
  · have still : ¬ (s.pcs k).Passed c r i := fun yes => open_ (passed.mpr yes)
    rw [value (.inl (stored.mp yes)) still]
    exact holds.held (stored.mp yes) still (fun yes => not (cleared.mpr yes))
  · have old := cleared.mp yes
    rw [value (.inr old) old.not_passed]
    exact holds.freed old

/-- A move of `k`, to `pc`, that may touch the slot `i` of `owner` in round `r`, and
    nothing else. -/
structure Touches (slots : Slots α) (c : Config) (s s' : State c.nworks α) (k owner : Fin c.nworks)
    (r i : Nat) (pc : Pc α) : Prop where
  kept : s'.pcs = s.pcs
  stays : ∀ o j, ¬ (o = owner ∧ j = i) → s'.shared o j = s.shared o j
  off : ∀ r' i', i' < c.ntimes → ¬ (r' = r ∧ i' = i) → Pc.SameAt c (s.pcs k) pc r' i'
  asOwner : owner ≠ k → (pc.Stored c r i ↔ (s.pcs k).Stored c r i) ∧ pc.carried r i = (s.pcs k).carried r i
  asFreer : victim k ≠ owner → (pc.Passed c r i ↔ (s.pcs k).Passed c r i) ∧ (pc.Cleared r i ↔ (s.pcs k).Cleared r i)
  found : ∀ r' i', pc.Found r' i' → (s.pcs k).Found r' i'

theorem Touches.owner {owner : Fin c.nworks} (touches : Touches slots c s s' k owner r i pc) (k' : Fin c.nworks)
    {r' i' : Nat} (inside : i' < c.ntimes)
    (other : ¬ (k' = owner ∧ r' = r ∧ i' = i)) : (((s'.goto k pc).pcs k').Stored c r' i' ↔ (s.pcs k').Stored c r' i') ∧
      ((s'.goto k pc).pcs k').carried r' i' = (s.pcs k').carried r' i' := by
  by_cases here : k' = k
  · subst here
    rw [goto_self]
    by_cases spot : r' = r ∧ i' = i
    · obtain ⟨rfl,rfl⟩ := spot
      exact touches.asOwner (fun same => other ⟨same.symm,rfl,rfl⟩)
    · exact ⟨(touches.off r' i' inside spot).stored,(touches.off r' i' inside spot).carried⟩
  · rw [goto_other s' pc here,touches.kept]
    exact ⟨Iff.rfl,rfl⟩

theorem Touches.freer {owner : Fin c.nworks} (touches : Touches slots c s s' k owner r i pc) (k' : Fin c.nworks)
    {r' i' : Nat} (inside : i' < c.ntimes)
    (other : ¬ (victim k' = owner ∧ r' = r ∧ i' = i)) : (((s'.goto k pc).pcs k').Passed c r' i' ↔
    (s.pcs k').Passed c r' i') ∧
      (((s'.goto k pc).pcs k').Cleared r' i' ↔ (s.pcs k').Cleared r' i') := by
  by_cases here : k' = k
  · subst here
    rw [goto_self]
    by_cases spot : r' = r ∧ i' = i
    · obtain ⟨rfl,rfl⟩ := spot
      exact touches.asFreer (fun same => other ⟨same,rfl,rfl⟩)
    · exact ⟨(touches.off r' i' inside spot).passed,(touches.off r' i' inside spot).cleared⟩
  · rw [goto_other s' pc here,touches.kept]
    exact ⟨Iff.rfl,Iff.rfl⟩

/-- The accounts after a move at one slot: what is left to show is about that slot. -/
theorem Accounts.move (accounts : Accounts slots c s trace) {owner : Fin c.nworks}
    (touches : Touches slots c s s' k owner r i pc)
    (inside : i < c.ntimes) {e : Option (Event c.nworks α)}
    (about : ∀ x, e = some x → x.slot = some (owner,r,i) ∨ x.slot = none)
    (spot : ∀ k', victim k' = owner → Told slots c (s'.goto k pc) k' r i (history (trace ++ e.toList) owner r i))
    (closed : ∀ k' r', victim k' = owner → r' ≠ r → (s.pcs (victim k')).Stored c r' i ∨ (s.pcs k').Cleared r' i →
    ¬ (s.pcs k').Passed c r' i →
      s'.shared owner i = s.shared owner i)
    (empty : ∀ k', victim k' = owner →
    (∀ r', ((s'.goto k pc).pcs owner).Stored c r' i → ((s'.goto k pc).pcs k').Passed c r' i) →
      slots.ptr (s'.shared owner i) = 0)
    (some : ∀ k' r', victim k' = owner → ((s'.goto k pc).pcs k').Found r' i → slots.ptr (s'.shared owner i) ≠ 0) :
    Accounts slots c (s'.goto k pc) (trace ++ e.toList) := by
  refine ⟨fun k' r' i' inside' => ?_,fun k' i' inside' none => ?_,fun k' r' i' yes => ?_,fun x mem o r' i' at_ => ?_⟩
  · by_cases here : victim k' = owner ∧ r' = r ∧ i' = i
    · obtain ⟨rfl,rfl,rfl⟩ := here
      exact spot k' rfl
    · have nothing : history e.toList (victim k') r' i' = [] := by
        cases e with
        | none => rfl
        | some x =>
          refine history_other (fun same => ?_)
          rcases about x rfl with this | silent
          · rw [this] at same
            simp only [Option.some.injEq,Prod.mk.injEq] at same
            exact here ⟨same.1.symm,same.2.1.symm,same.2.2.symm⟩
          · rw [silent] at same
            cases same
      rw [history_append,nothing,List.append_nil]
      obtain ⟨stored,carried⟩ := touches.owner (victim k') inside' here
      obtain ⟨passed,cleared⟩ := touches.freer k' inside' here
      refine (accounts.told k' r' i' inside').congr stored passed carried cleared (fun yes open_ => ?_)
      by_cases same : victim k' = owner ∧ i' = i
      · obtain ⟨rfl,rfl⟩ := same
        exact closed k' r' rfl (fun equal => here ⟨rfl,equal,rfl⟩) yes open_
      · exact touches.stays _ _ same
  · by_cases same : victim k' = owner ∧ i' = i
    · obtain ⟨rfl,rfl⟩ := same
      exact empty k' rfl none
    · have other : ∀ r', ¬ (victim k' = owner ∧ r' = r ∧ i' = i) := fun r' here => same ⟨here.1,here.2.2⟩
      have value : (s'.goto k pc).shared (victim k') i' = s.shared (victim k') i' := touches.stays _ _ same
      rw [value]
      exact accounts.empty k' i' inside' (fun r' yes =>
        (touches.freer _ inside' (other r')).1.mp (none r' ((touches.owner _ inside' (other r')).1.mpr yes)))
  · by_cases same : victim k' = owner ∧ i' = i
    · obtain ⟨rfl,rfl⟩ := same
      exact some k' r' rfl yes
    · have value : (s'.goto k pc).shared (victim k') i' = s.shared (victim k') i' := touches.stays _ _ same
      rw [value]
      refine accounts.found k' r' i' ?_
      by_cases here : k' = k
      · subst here
        rw [goto_self] at yes
        exact touches.found r' i' yes
      · rwa [goto_other s' pc here,touches.kept] at yes
  · rcases List.mem_append.mp mem with old | new
    · exact accounts.inside x old o r' i' at_
    · rcases about x (Option.mem_toList.mp new) with this | silent
      · rw [this] at at_
        cases at_
        exact inside
      · rw [silent] at at_
        cases at_

/-- A move that touches no slot. -/
theorem Accounts.quiet (accounts : Accounts slots c s trace) (kept : s'.pcs = s.pcs) (still : s'.shared = s.shared)
    (same : ∀ r i, i < c.ntimes → Pc.SameAt c (s.pcs k) pc r i)
    (found : ∀ r i, pc.Found r i → slots.ptr (s.shared (victim k) i) ≠ 0)
    {e : Option (Event c.nworks α)} (silent : ∀ x, e = some x → x.slot = none) : Accounts slots c
    (s'.goto k pc) (trace ++ e.toList) := by
  have shared : (s'.goto k pc).shared = s.shared := still
  have moved : ∀ r i, i < c.ntimes → ∀ k', Pc.SameAt c (s.pcs k') ((s'.goto k pc).pcs k') r i := by
    intro r i inside k'
    by_cases here : k' = k
    · subst here
      rw [goto_self]
      exact same r i inside
    · rw [goto_other s' pc here,kept]
      exact ⟨Iff.rfl,Iff.rfl,rfl,Iff.rfl⟩
  refine ⟨fun k' r i inside => ?_,fun k' i inside none => ?_,fun k' r i yes => ?_,fun x mem owner r i at_ => ?_⟩
  · have nothing : history e.toList (victim k') r i = [] := by
      cases e with
      | none => rfl
      | some x => exact history_other (by simp [silent x rfl])
    rw [history_append,nothing,List.append_nil]
    have own := moved r i inside (victim k')
    have other := moved r i inside k'
    exact (accounts.told k' r i inside).congr own.stored other.passed own.carried other.cleared (fun _ _ => by rw [shared])
  · rw [shared]
    exact accounts.empty k' i inside
      (fun r yes => (moved r i inside k').passed.mp (none r ((moved r i inside _).stored.mpr yes)))
  · rw [shared]
    by_cases here : k' = k
    · subst here
      rw [goto_self] at yes
      exact found r i yes
    · rw [goto_other s' pc here,kept] at yes
      exact accounts.found k' r i yes
  · rcases List.mem_append.mp mem with old | new
    · exact accounts.inside x old owner r i at_
    · rw [silent x (Option.mem_toList.mp new)] at at_
      cases at_

/-- While a thread fills, the one that will free is not at its slots, also after the move. -/
theorem Ledger.nobody (ledger : Ledger slots c s trace) (pc : Pc α) (round : r < c.rounds)
    (phase : (s.pcs (victim k)).phase c = .away (2 * r))
    (kept : s'.pcs = s.pcs) (passed : ¬ pc.Passed c r i) (found : ∀ r' i', ¬ pc.Found r' i') :
    ¬ ((s'.goto (victim k) pc).pcs k).Passed c r i ∧ ∀ r' i', ¬ ((s'.goto (victim k) pc).pcs k).Found r' i' := by
  by_cases here : k = victim k
  · rw [show (s'.goto (victim k) pc).pcs k = pc by rw [← here]; exact goto_self s' k pc]
    exact ⟨passed,found⟩
  · rw [goto_other s' pc here,kept]
    have filling := ledger.filling (i := i) round phase r
    exact ⟨fun yes => lt_irrefl r (filling.1.mp yes),filling.2⟩

/-- The owner of a slot has allocated what it will store there. -/
theorem Ledger.allocate (ledger : Ledger slots c s trace) (here : s.pcs k = .fill r i) (v : α) :
    Accounts slots c (s.goto k (.store r i v)) (trace ++ [.allocated k r i v]) := by
  have fits := ledger.fits k
  rw [here] at fits
  have phase : (s.pcs k).phase c = .away (2 * r) := by rw [here]; rfl
  have touches : Touches slots c s s k k r i (.store r i v) := by
    refine ⟨rfl,fun _ _ _ => rfl,fun r' i' _ off => ?_,fun other => absurd rfl other,fun _ => ?_,
      fun r' i' found => found.elim⟩
    · rw [here]
      exact ⟨Iff.rfl,Iff.rfl,if_neg off,Iff.rfl⟩
    · rw [here]
      exact ⟨Iff.rfl,Iff.rfl⟩
  refine ledger.accounts.move touches fits.2 (e := some (.allocated k r i v)) (by rintro _ ⟨⟩; exact .inl rfl) ?_
    (fun _ _ _ _ _ _ => rfl) ?_ ?_
  · rintro k' rfl
    have not : ¬ (s.pcs (victim k')).Stored c r i := by rw [here]; simp [Pc.Stored]
    have nobody := ledger.nobody (i := i) (.store r i v) fits.1 phase rfl (lt_irrefl r) (fun _ _ => not_false)
    rw [history_append,(ledger.accounts.told k' r i fits.2).before not,here,Option.toList_some,history_this rfl]
    refine ⟨fun _ => by rw [goto_self]; simp [Pc.carried],fun yes => ?_,fun yes => ?_,fun yes => absurd yes nobody.1⟩
    · rw [goto_self] at yes
      simp [Pc.Stored] at yes
    · exact absurd yes.found (nobody.2 r i)
  · rintro k' rfl none
    refine ledger.accounts.empty k' i fits.2 (fun r' yes => (ledger.filling fits.1 phase r').1.mpr ?_)
    rw [here] at yes
    simpa [Pc.Stored] using yes
  · rintro k' r' rfl found
    exact absurd found ((ledger.nobody (i := i) (.store r i v) fits.1 phase rfl (lt_irrefl r) (fun _ _ => not_false)).2 r' i)

/-- The owner of a slot has stored into it. -/
theorem Ledger.fill (ledger : Ledger slots c s trace) (here : s.pcs k = .store r i v) :
    Accounts slots c ((s.put k i v).goto k (c.fillFrom r (i + 1))) (trace ++ [.filled k r i v]) := by
  have fits := ledger.fits k
  rw [here] at fits
  have phase : (s.pcs k).phase c = .away (2 * r) := by rw [here]; rfl
  have touches : Touches slots c s (s.put k i v) k k r i (c.fillFrom r (i + 1)) := by
    refine ⟨rfl,fun o j other => put_other s v other,fun r' i' inside off => ?_,fun other => absurd rfl other,fun _ => ?_,
      fun r' i' found => absurd found Pc.quiet_fillFrom.2⟩
    · rw [here]
      refine ⟨?_,Pc.passed_fillFrom,?_,⟨fun yes => absurd yes.found Pc.quiet_fillFrom.2,False.elim⟩⟩
      · rw [Pc.stored_fillFrom inside]
        simp only [Pc.Stored]
        omega
      · rw [Pc.quiet_fillFrom.1]
        exact (if_neg off).symm
    · rw [here]
      exact ⟨Pc.passed_fillFrom,⟨fun yes => absurd yes.found Pc.quiet_fillFrom.2,False.elim⟩⟩
  have nobody : ∀ k', victim k' = k → ¬ (((s.put k i v).goto k (c.fillFrom r (i + 1))).pcs k').Passed c r i ∧
      ∀ r' i', ¬ (((s.put k i v).goto k (c.fillFrom r (i + 1))).pcs k').Found r' i' := by
    rintro k' rfl
    exact ledger.nobody _ fits.1 phase rfl (fun yes => lt_irrefl r (Pc.passed_fillFrom.mp yes))
      (fun _ _ => Pc.quiet_fillFrom.2)
  have stored : (c.fillFrom r (i + 1) : Pc α).Stored c r i := (Pc.stored_fillFrom fits.2).mpr (.inr ⟨rfl,Nat.lt_succ_self i⟩)
  refine ledger.accounts.move touches fits.2 (e := some (.filled k r i v)) (by rintro _ ⟨⟩; exact .inl rfl) ?_ ?_ ?_ ?_
  · rintro k' rfl
    have not : ¬ (s.pcs (victim k')).Stored c r i := by rw [here]; simp [Pc.Stored]
    rw [history_append,(ledger.accounts.told k' r i fits.2).before not,here,Option.toList_some,history_this rfl]
    refine ⟨fun no => ?_,fun _ _ _ => ?_,fun yes => ?_,fun yes => absurd yes (nobody k' rfl).1⟩
    · rw [goto_self] at no
      exact absurd stored no
    · rw [show ((s.put (victim k') i v).goto (victim k') (c.fillFrom r (i + 1))).shared (victim k')
        i = v from put_self s _ i v]
      simp [Pc.carried]
    · exact absurd yes.found ((nobody k' rfl).2 r i)
  · rintro k' r' rfl other yes open_
    have filling := ledger.filling (i := i) fits.1 phase r'
    rcases yes with yes | yes
    · rw [here] at yes
      exact absurd (filling.1.mpr (by simpa [Pc.Stored,other] using yes)) open_
    · exact absurd yes.found (filling.2 r' i)
  · rintro k' rfl none
    exact absurd (none r (by rw [goto_self]; exact stored)) (nobody k' rfl).1
  · rintro k' r' rfl found
    exact absurd found ((nobody k' rfl).2 r' i)

/-- While a thread frees, its victim's row is full, also after the move. -/
theorem Ledger.full (ledger : Ledger slots c s trace) (pc : Pc α)
    (phase : (s.pcs k).phase c = .away (2 * r + 1)) (kept : s'.pcs = s.pcs)
    (stored : pc.Stored c r i) : ((s'.goto k pc).pcs (victim k)).Stored c r i := by
  by_cases here : victim k = k
  · rw [here,goto_self]
    exact stored
  · rw [goto_other s' pc here,kept]
    exact (ledger.freeing phase).mpr (le_refl r)

/-- What a thread that frees finds in the history of the slot. -/
theorem Ledger.holds (ledger : Ledger slots c s trace)
    (phase : (s.pcs k).phase c = .away (2 * r + 1)) (inside : i < c.ntimes)
    (open_ : ¬ (s.pcs k).Passed c r i) (uncleared : ¬ (s.pcs k).Cleared r i) :
    history trace (victim k) r i = [.allocated (victim k) r i (s.shared (victim k) i),.filled (victim k) r
    i (s.shared (victim k) i)] :=
  (ledger.accounts.told k r i inside).held ((ledger.freeing phase).mpr (le_refl r)) open_ uncleared

/-- A null pointer is not freed. -/
theorem Ledger.skip (ledger : Ledger slots c s trace) (here : s.pcs k = .test r i)
    (nothing : slots.ptr (s.shared (victim k) i) = 0) :
    Accounts slots c (s.goto k (c.testFrom r (i + 1))) trace := by
  have fits := ledger.fits k
  rw [here] at fits
  have phase : (s.pcs k).phase c = .away (2 * r + 1) := by rw [here]; rfl
  have touches : Touches slots c s s k (victim k) r i (c.testFrom r (i + 1)) := by
    refine ⟨rfl,fun _ _ _ => rfl,fun r' i' inside off => ?_,fun _ => ?_,fun other => absurd rfl other,
      fun r' i' found => absurd found Pc.quiet_testFrom.2⟩
    · rw [here]
      refine ⟨Pc.stored_testFrom,?_,Pc.quiet_testFrom.1,⟨fun yes => absurd yes.found Pc.quiet_testFrom.2,False.elim⟩⟩
      rw [Pc.passed_testFrom inside]
      simp only [Pc.Passed]
      omega
    · rw [here]
      exact ⟨Pc.stored_testFrom,Pc.quiet_testFrom.1⟩
  have passed : (c.testFrom r (i + 1) : Pc α).Passed c r i := (Pc.passed_testFrom fits.2).mpr (.inr ⟨rfl,Nat.lt_succ_self i⟩)
  have full := ledger.full (i := i) (c.testFrom r (i + 1)) phase rfl (Pc.stored_testFrom.mpr (le_refl r))
  have result := ledger.accounts.move touches fits.2 (e := none) (by simp) ?_ (fun _ _ _ _ _ _ => rfl) ?_ ?_
  · simpa using result
  · intro k' same
    obtain rfl := victim_injective same
    rw [Option.toList_none,List.append_nil,ledger.holds phase fits.2 (by rw [here]; simp [Pc.Passed])
      (by rw [here]; exact not_false)]
    refine ⟨fun no => absurd full no,fun _ no => absurd (by rw [goto_self]; exact passed) no,fun yes => ?_,fun _ =>
      ⟨s.shared (victim k') i,?_⟩⟩
    · rw [goto_self] at yes
      exact absurd yes.found Pc.quiet_testFrom.2
    · rw [life,if_pos nothing]
  · intro k' same _
    exact nothing
  · intro k' r' same found
    obtain rfl := victim_injective same
    rw [goto_self] at found
    exact absurd found Pc.quiet_testFrom.2

/-- A thread has freed what it found. -/
theorem Ledger.free (ledger : Ledger slots c s trace) (here : s.pcs k = .give .free r i) :
    Accounts slots c (s.goto k (.clear r i)) (trace ++ [.freed k r i (s.shared (victim k) i)]) := by
  have fits := ledger.fits k
  rw [here] at fits
  have phase : (s.pcs k).phase c = .away (2 * r + 1) := by rw [here]; rfl
  have touches : Touches slots c s s k (victim k) r i (.clear r i) := by
    refine ⟨rfl,fun _ _ _ => rfl,fun r' i' inside off => ?_,fun _ => ?_,fun other => absurd rfl other,
      fun r' i' found => by rw [here]; exact found⟩
    · rw [here]
      exact ⟨Iff.rfl,Iff.rfl,rfl,⟨fun yes => absurd yes off,False.elim⟩⟩
    · rw [here]
      exact ⟨Iff.rfl,rfl⟩
  have full := ledger.full (i := i) (.clear r i) phase rfl (le_refl r)
  have some := ledger.accounts.found k r i (by rw [here]; exact ⟨rfl,rfl⟩)
  refine ledger.accounts.move touches fits.2 (e := Option.some (.freed k r i (s.shared (victim k) i)))
    (by rintro _ ⟨⟩; exact .inl rfl) ?_
    (fun _ _ _ _ _ _ => rfl) ?_ ?_
  · intro k' same
    obtain rfl := victim_injective same
    rw [history_append,ledger.holds phase fits.2 (by rw [here]; simp [Pc.Passed]) (by rw [here]; exact not_false),
      Option.toList_some,history_this rfl]
    refine ⟨fun no => absurd full no,fun _ _ no => ?_,fun _ => rfl,fun yes => ?_⟩
    · rw [goto_self] at no
      exact absurd ⟨rfl,rfl⟩ no
    · rw [goto_self] at yes
      simp [Pc.Passed] at yes
  · intro k' same none
    obtain rfl := victim_injective same
    have yes := none r full
    rw [goto_self] at yes
    simp [Pc.Passed] at yes
  · exact fun k' r' same found => some

/-- A thread has cleared the slot of what it freed. -/
theorem Ledger.clear (ledger : Ledger slots c s trace) (here : s.pcs k = .clear r i) :
    Accounts slots c ((s.put (victim k) i slots.empty).goto k (c.testFrom r (i + 1))) (trace ++ [.cleared k r i]) := by
  have fits := ledger.fits k
  rw [here] at fits
  have phase : (s.pcs k).phase c = .away (2 * r + 1) := by rw [here]; rfl
  have touches : Touches slots c s (s.put (victim k) i slots.empty) k (victim k) r i (c.testFrom r (i + 1)) := by
    refine ⟨rfl,fun o j other => put_other s _ other,fun r' i' inside off => ?_,fun _ => ?_,fun other => absurd rfl other,
      fun r' i' found => absurd found Pc.quiet_testFrom.2⟩
    · rw [here]
      refine ⟨Pc.stored_testFrom,?_,Pc.quiet_testFrom.1,
        ⟨fun yes => absurd yes.found Pc.quiet_testFrom.2,fun yes => absurd yes off⟩⟩
      rw [Pc.passed_testFrom inside]
      simp only [Pc.Passed]
      omega
    · rw [here]
      exact ⟨Pc.stored_testFrom,Pc.quiet_testFrom.1⟩
  have passed : (c.testFrom r (i + 1) : Pc α).Passed c r i := (Pc.passed_testFrom fits.2).mpr (.inr ⟨rfl,Nat.lt_succ_self i⟩)
  have kept : (s.put (victim k) i slots.empty).pcs = s.pcs := rfl
  have full := ledger.full (i := i) (c.testFrom r (i + 1)) phase kept (Pc.stored_testFrom.mpr (le_refl r))
  have some := ledger.accounts.found k r i (by rw [here]; exact ⟨rfl,rfl⟩)
  refine ledger.accounts.move touches fits.2 (e := Option.some (.cleared k r i)) (by rintro _ ⟨⟩; exact .inl rfl) ?_ ?_ ?_ ?_
  · intro k' same
    obtain rfl := victim_injective same
    rw [history_append,(ledger.accounts.told k' r i fits.2).freed (by rw [here]; exact ⟨rfl,rfl⟩),
      Option.toList_some,history_this rfl]
    refine ⟨fun no => absurd full no,fun _ no => absurd (by rw [goto_self]; exact passed) no,fun yes => ?_,fun _ =>
      ⟨s.shared (victim k') i,?_⟩⟩
    · rw [goto_self] at yes
      exact absurd yes.found Pc.quiet_testFrom.2
    · rw [life,if_neg some]
      rfl
  · intro k' r' same other yes open_
    obtain rfl := victim_injective same
    rcases yes with yes | yes
    · have before := (ledger.freeing phase).mp yes
      rw [here] at open_
      simp only [Pc.Passed] at open_
      omega
    · rw [here] at yes
      exact absurd yes.1 other
  · intro k' same _
    rw [put_self]
    exact slots.null
  · intro k' r' same found
    obtain rfl := victim_injective same
    rw [goto_self] at found
    exact absurd found Pc.quiet_testFrom.2

end

end CrossThread
end TcAlloc
