import TcAlloc.SlotLives

/-!
Runs of the cross-thread workload, for any number of threads, rounds and slots and
any schedule. Nobody returns from a call of the barrier before everybody has entered
it; what is freed was filled in the same round, what is refilled was freed and
cleared, and when all threads are done every block has been freed exactly once.
-/
namespace TcAlloc
namespace CrossThread

section
variable {α : Type} {slots : Slots α} {c : Config} {s : State c.nworks α} {k : Fin c.nworks} {answer v : α} {r i j : Nat}
  {trace : List (Event c.nworks α)} {e : Event c.nworks α} {schedule : List (Fin c.nworks × α)}

/-! ### Runs -/

theorem run_concat (slots : Slots α) (c : Config) (schedule : List (Fin c.nworks × α)) (k : Fin c.nworks) (answer : α) :
    run slots c (schedule ++ [(k,answer)]) = ((advance slots c (run slots c schedule).1 k answer).1,
      (run slots c schedule).2 ++ (advance slots c (run slots c schedule).1 k answer).2.toList) := by
  simp [run,List.foldl_append]

/-- An event of a run is that of a move, after what has happened before. -/
theorem run_event {before after : List (Event c.nworks α)} (here : (run slots c schedule).2 = before ++ e :: after) :
    ∃ earlier k answer, (run slots c earlier).2 = before ∧
    (advance slots c (run slots c earlier).1 k answer).2 = some e := by
  induction schedule using List.reverseRecOn generalizing after with
  | nil => simp [run] at here
  | append_singleton schedule move ih =>
    rw [run_concat] at here
    cases seen : (advance slots c (run slots c schedule).1 move.1 move.2).2 with
    | none =>
      rw [seen,Option.toList_none,List.append_nil] at here
      exact ih here
    | some x =>
      rw [seen,Option.toList_some] at here
      rcases List.eq_nil_or_concat after with rfl | ⟨earlier,last,rfl⟩
      · obtain ⟨same,last⟩ := List.append_inj' here rfl
        exact ⟨schedule,move.1,move.2,same,by rw [seen,List.head_eq_of_cons_eq last]⟩
      · rw [List.concat_eq_append,← List.cons_append,← List.append_assoc] at here
        exact ih (List.append_inj' here rfl).1

/-- Nothing has happened to a slot when the threads start. -/
theorem first_round (inside : i < c.ntimes) : ¬ (c.roundFrom 0 : Pc α).Stored c r i ∧ ¬ (c.roundFrom 0 : Pc α).Passed c r i ∧
    (c.roundFrom 0 : Pc α).carried r i = none := by
  unfold Config.roundFrom
  split_ifs with more
  · rw [Pc.stored_fillFrom inside,Pc.passed_fillFrom]
    exact ⟨by omega,by omega,Pc.quiet_fillFrom.1⟩
  · simp only [Pc.Stored,Pc.Passed]
    exact ⟨by omega,by omega,rfl⟩

theorem first_found : ¬ (c.roundFrom 0 : Pc α).Found r i := by
  unfold Config.roundFrom
  split_ifs
  · exact Pc.quiet_fillFrom.2
  · exact not_false

theorem start_ledger (slots : Slots α) (c : Config) : Ledger slots c (start slots c) [] := by
  have phase : ((start slots c).barrier c) = ⟨0,fun _ => .away 0⟩ := by
    simp [State.barrier,start,Pc.phase_roundFrom]
  refine ⟨by rw [phase]; exact .start _,fun _ => Pc.fits_roundFrom,fun k r i inside => ?_,
    fun _ _ _ _ => slots.null,?_,by simp⟩
  · obtain ⟨stored,passed,carried⟩ := first_round (α := α) (r := r) inside
    refine ⟨fun _ => ?_,fun yes => absurd yes stored,fun yes => absurd yes.found first_found,fun yes => absurd yes passed⟩
    rw [show ((start slots c).pcs (victim k)).carried r i = none from carried]
    rfl
  · exact fun k r i yes => absurd yes first_found

/-- What one move does to what holds. -/
theorem Ledger.step (ledger : Ledger slots c s trace) (room : c.nworks * (2 * c.rounds) < 2 ^ 64)
    (k : Fin c.nworks) (answer : α) :
    Ledger slots c (advance slots c s k answer).1 (trace ++ (advance slots c s k answer).2.toList) := by
  refine ⟨?_,advance_fits slots k answer ledger.fits,?_⟩
  · rcases advance_barrier slots answer (ledger.fits k) with step | same
    · exact ledger.sound.step (by rwa [Fintype.card_fin]) step
    · rw [same]; exact ledger.sound
  · have effect := advance_effect answer (ledger.fits k) (ledger.accounts.found k)
    generalize (advance slots c s k answer).1 = s' at effect
    generalize (advance slots c s k answer).2 = e at effect
    cases effect with
    | rest => simpa using ledger.accounts
    | quiet kept still same found silent => exact ledger.accounts.quiet kept still same found silent
    | allocate v here => exact ledger.allocate here v
    | fill here => exact ledger.fill here
    | skip here nothing => simpa using ledger.skip here nothing
    | free here => exact ledger.free here
    | clear here => exact ledger.clear here

theorem run_ledger (slots : Slots α) (room : c.nworks * (2 * c.rounds) < 2 ^ 64) (schedule : List (Fin c.nworks × α)) :
    Ledger slots c (run slots c schedule).1 (run slots c schedule).2 := by
  induction schedule using List.reverseRecOn with
  | nil => exact start_ledger slots c
  | append_singleton schedule move ih =>
    rw [run_concat]
    exact ih.step room move.1 move.2

/-! ### The barrier in a run -/

/-- Every call that a thread has begun is among the events. -/
def Noted (c : Config) (s : State c.nworks α) (trace : List (Event c.nworks α)) : Prop :=
  ∀ k j, j < ((s.pcs k).phase c).entered → .entered k j ∈ trace

/-- A move begins no call but the one that its event names. -/
theorem advance_entered (slots : Slots α) (answer : α) (fits : (s.pcs k).Fits c) :
    (((advance slots c s k answer).1.pcs k).phase c).entered ≤ ((s.pcs k).phase c).entered ∨
      (((advance slots c s k answer).1.pcs k).phase c).entered = ((s.pcs k).phase c).entered + 1 ∧
        (advance slots c s k answer).2 = some (.entered k ((s.pcs k).phase c).entered) := by
  cases here : s.pcs k with
  | fill r i => simp only [advance,here,goto_self]; exact .inl (le_refl _)
  | store r i v => simp only [advance,here,goto_self,Pc.phase_fillFrom]; exact .inl (le_refl _)
  | load r second => simp only [advance,here,goto_self]; exact .inr ⟨rfl,rfl⟩
  | add r second gen =>
    rw [here] at fits
    simp only [advance,here]
    split_ifs
    · rw [goto_self,Pc.phase_after fits]; exact .inl (le_refl _)
    · rw [goto_self]; exact .inl (le_refl _)
  | spin r second gen =>
    rw [here] at fits
    simp only [advance,here]
    split_ifs
    · rw [here]; exact .inl (le_refl _)
    · rw [goto_self,Pc.phase_after fits]; exact .inl (le_refl _)
  | test r i =>
    simp only [advance,here]
    split_ifs
    · rw [goto_self]; exact .inl (le_refl _)
    · rw [goto_self,Pc.phase_testFrom]; exact .inl (le_refl _)
  | give at_ r i =>
    refine .inl (le_of_eq ?_)
    cases at_ with
    | look => simp only [advance,here]; split_ifs <;> rw [goto_self] <;> rfl
    | check => simp only [advance,here,goto_self]; rfl
    | erase => simp only [advance,here,goto_self]; rfl
    | free => simp only [advance,here,goto_self]; rfl
  | clear r i => simp only [advance,here,goto_self,Pc.phase_testFrom]; exact .inl (le_refl _)
  | done => simp only [advance,here]; exact .inl (le_refl _)

theorem advance_others {k' : Fin c.nworks} (other : k' ≠ k) : (advance slots c s k answer).1.pcs k' = s.pcs k' := by
  unfold advance
  split <;> (try split_ifs) <;> first | rfl | exact goto_other _ _ other

/-- A thread returns from its call with the number of calls that it has finished. -/
theorem advance_returned {k' : Fin c.nworks} (fits : (s.pcs k).Fits c)
    (seen : (advance slots c s k answer).2 = some (.returned k' j)) :
    k' = k ∧ (((advance slots c s k answer).1.pcs k).phase c).passed = j + 1 := by
  cases here : s.pcs k with
  | add r second gen =>
    rw [here] at fits
    simp only [advance,here] at seen ⊢
    split_ifs at seen ⊢
    cases seen
    exact ⟨rfl,by rw [goto_self,Pc.phase_after fits]; rfl⟩
  | spin r second gen =>
    rw [here] at fits
    simp only [advance,here] at seen ⊢
    split_ifs at seen ⊢
    cases seen
    exact ⟨rfl,by rw [goto_self,Pc.phase_after fits]; rfl⟩
  | test r i => simp only [advance,here] at seen; split_ifs at seen
  | give at_ r i => cases at_ <;> simp only [advance,here] at seen <;> (try split_ifs at seen) <;> cases seen
  | fill r i => simp only [advance,here] at seen; cases seen
  | store r i v => simp only [advance,here] at seen; cases seen
  | load r second => simp only [advance,here] at seen; cases seen
  | clear r i => simp only [advance,here] at seen; cases seen
  | done => simp only [advance,here] at seen; cases seen

theorem Noted.step (noted : Noted c s trace) (slots : Slots α) (answer : α) (fits : (s.pcs k).Fits c) :
    Noted c (advance slots c s k answer).1 (trace ++ (advance slots c s k answer).2.toList) := by
  intro k' j begun
  by_cases here : k' = k
  · subst here
    rcases advance_entered slots answer fits with less | ⟨one,seen⟩
    · exact List.mem_append_left _ (noted k' j (lt_of_lt_of_le begun less))
    · rcases Nat.lt_succ_iff_lt_or_eq.mp (one ▸ begun) with old | rfl
      · exact List.mem_append_left _ (noted k' j old)
      · rw [seen]
        exact List.mem_append_right _ (by simp)
  · rw [advance_others here] at begun
    exact List.mem_append_left _ (noted k' j begun)

theorem run_noted (slots : Slots α) (room : c.nworks * (2 * c.rounds) < 2 ^ 64) (schedule : List (Fin c.nworks × α)) :
    Noted c (run slots c schedule).1 (run slots c schedule).2 := by
  induction schedule using List.reverseRecOn with
  | nil =>
    intro k j begun
    simp [run,start,Pc.phase_roundFrom,Phase.entered] at begun
  | append_singleton schedule move ih =>
    rw [run_concat]
    exact ih.step slots move.2 ((run_ledger slots room schedule).fits move.1)

end

/-! ### What an observer sees -/

/-- `x` has happened whenever `y` happens. -/
def Precedes {n : Nat} {α : Type} (trace : List (Event n α)) (x y : Event n α) : Prop :=
  ∀ before after, trace = before ++ y :: after → x ∈ before

/-- A block that was allocated, as the owner, the round, the slot and what is stored
    there; a null pointer is none. -/
def Event.block {n : Nat} {α : Type} (slots : Slots α) : Event n α → Option (Fin n × Nat × Nat × α)
  | .allocated k r i v => if slots.ptr v = 0 then none else some (k,r,i,v)
  | _ => none

/-- What was passed to `Free`. -/
def Event.given {n : Nat} {α : Type} : Event n α → Option (Fin n × Nat × Nat × α)
  | .freed k r i v => some (victim k,r,i,v)
  | _ => none

def blocks {n : Nat} {α : Type} (slots : Slots α) (trace : List (Event n α)) : List (Fin n × Nat × Nat × α) :=
    trace.filterMap (Event.block slots)
def frees {n : Nat} {α : Type} (trace : List (Event n α)) : List (Fin n × Nat × Nat × α) := trace.filterMap Event.given

section
variable {α : Type} {slots : Slots α} {c : Config} {s s' : State c.nworks α} {k k' owner : Fin c.nworks}
  {answer v w : α} {r r' i j : Nat}
  {trace : List (Event c.nworks α)} {e : Event c.nworks α} {schedule : List (Fin c.nworks × α)}

theorem Effect.filled (effect : Effect slots c s k s' (some (.filled k' r i v))) : k' = k ∧ s.pcs k = .store r i v := by
  cases effect with
  | quiet kept still same found silent => exact absurd (silent _ rfl) (by simp [Event.slot])
  | fill here => exact ⟨rfl,here⟩

theorem Effect.freed (effect : Effect slots c s k s' (some (.freed k' r i v))) :
    k' = k ∧ s.pcs k = .give .free r i ∧ v = s.shared (victim k) i := by
  cases effect with
  | quiet kept still same found silent => exact absurd (silent _ rfl) (by simp [Event.slot])
  | free here => exact ⟨rfl,here,rfl⟩

theorem Effect.allocated (effect : Effect slots c s k s' (some (.allocated k' r i v))) : k' = k ∧ s.pcs k = .fill r i := by
  cases effect with
  | quiet kept still same found silent => exact absurd (silent _ rfl) (by simp [Event.slot])
  | allocate v here => exact ⟨rfl,here⟩

theorem Ledger.effect (ledger : Ledger slots c s trace) (k : Fin c.nworks) (answer : α) :
    Effect slots c s k (advance slots c s k answer).1 (advance slots c s k answer).2 := advance_effect answer
    (ledger.fits k) (ledger.accounts.found k)

theorem mem_history (at_ : e.slot = some (owner,r,i)) : e ∈ history trace owner r i ↔ e ∈ trace := by simp [history,at_]

/-- The history of a slot in a round is the beginning of a life. -/
theorem Ledger.begins (ledger : Ledger slots c s trace) (inside : i < c.ntimes) : ∃ v, history trace (victim k) r i
    <+: life slots k r i v := by
  have told := ledger.accounts.told k r i inside
  by_cases passed : (s.pcs k).Passed c r i
  · obtain ⟨v,whole⟩ := told.ended passed
    exact ⟨v,by rw [whole]⟩
  by_cases cleared : (s.pcs k).Cleared r i
  · have some := ledger.accounts.found k r i cleared.found
    refine ⟨s.shared (victim k) i,?_⟩
    rw [told.freed cleared,life,if_neg some]
    exact ⟨[.cleared k r i],rfl⟩
  by_cases stored : (s.pcs (victim k)).Stored c r i
  · refine ⟨s.shared (victim k) i,?_⟩
    rw [told.held stored passed cleared,life]
    split_ifs
    · exact List.prefix_rfl
    · exact ⟨[.freed k r i _,.cleared k r i],rfl⟩
  · rw [told.before stored]
    cases (s.pcs (victim k)).carried r i with
    | none => exact ⟨slots.empty,List.nil_prefix⟩
    | some v =>
      refine ⟨v,?_⟩
      rw [life]
      split_ifs
      · exact ⟨[.filled (victim k) r i v],rfl⟩
      · exact ⟨[.filled (victim k) r i v,.freed k r i v,.cleared k r i],rfl⟩

/-- What is freed was allocated, and is not null. -/
theorem Ledger.freed_block (ledger : Ledger slots c s trace) (freed : .freed k r i v ∈ trace) :
    .allocated (victim k) r i v ∈ trace ∧ slots.ptr v ≠ 0 := by
  have inside := ledger.accounts.inside _ freed _ _ _ rfl
  obtain ⟨w,begins⟩ := ledger.begins (k := k) (r := r) inside
  have mem : Event.freed k r i v ∈ history trace (victim k) r i := (mem_history rfl).mpr freed
  have full := begins.subset mem
  rw [life] at full begins
  split_ifs at full begins with null
  · simp at full
  · simp only [List.mem_cons,reduceCtorEq,Event.freed.injEq,true_and,List.not_mem_nil,or_false,false_or] at full
    subst full
    refine ⟨(mem_history rfl).mp ?_,null⟩
    rcases List.prefix_cons_iff.mp begins with nothing | ⟨rest,first,_⟩
    · rw [nothing] at mem
      cases mem
    · rw [first]
      exact List.mem_cons_self

theorem mem_blocks : (owner,r,i,v) ∈ blocks slots trace ↔ .allocated owner r i v ∈ trace ∧ slots.ptr v ≠ 0 := by
  simp only [blocks,List.mem_filterMap]
  constructor
  · rintro ⟨x,mem,same⟩
    cases x with
    | allocated k r i v =>
      simp only [Event.block] at same
      split_ifs at same with null
      cases same
      exact ⟨mem,null⟩
    | _ => cases same
  · rintro ⟨mem,nonnull⟩
    exact ⟨_,mem,if_neg nonnull⟩

theorem mem_frees : (owner,r,i,v) ∈ frees trace ↔ ∃ k, victim k = owner ∧ .freed k r i v ∈ trace := by
  simp only [frees,List.mem_filterMap]
  constructor
  · rintro ⟨x,mem,same⟩
    cases x with
    | freed k r i v => cases same; exact ⟨k,rfl,mem⟩
    | _ => cases same
  · rintro ⟨k,rfl,mem⟩
    exact ⟨_,mem,rfl⟩

/-- A slot's block is allocated before anything else happens to the slot. -/
theorem Ledger.new_block (ledger : Ledger slots c s trace) (effect : Effect slots c s k s' (some e))
    {b : Fin c.nworks × Nat × Nat × α}
    (new : e.block slots = some b) : b ∉ blocks slots trace := by
  cases e with
  | allocated k' r i v =>
    obtain ⟨rfl,here⟩ := effect.allocated
    have fits := ledger.fits k'
    rw [here] at fits
    simp only [Event.block] at new
    split_ifs at new
    cases new
    intro mem
    have old := (mem_blocks.mp mem).1
    obtain ⟨freer,rfl⟩ := exists_victim k'
    have nothing := (ledger.accounts.told freer r i fits.2).before (by rw [here]; simp [Pc.Stored])
    rw [here] at nothing
    have there := (mem_history rfl).mpr old
    rw [nothing] at there
    cases there
  | _ => cases new

/-- A slot's block is freed once it is stored, and not before that. -/
theorem Ledger.new_free (ledger : Ledger slots c s trace) (effect : Effect slots c s k s' (some e))
    {b : Fin c.nworks × Nat × Nat × α}
    (new : e.given = some b) : b ∉ frees trace := by
  cases e with
  | freed k' r i v =>
    obtain ⟨rfl,here,_⟩ := effect.freed
    have fits := ledger.fits k'
    rw [here] at fits
    cases new
    intro mem
    obtain ⟨k,same,old⟩ := mem_frees.mp mem
    obtain rfl := victim_injective same
    have held := ledger.holds (k := k) (r := r) (by rw [here]; rfl) fits.2 (by rw [here]; simp [Pc.Passed])
      (by rw [here]; exact not_false)
    have there := (mem_history rfl).mpr old
    rw [held] at there
    simp at there
  | _ => cases new

theorem nodup_append_event {β γ : Type} {f : β → Option γ} {l : List β} {e : Option β} (nodup : (l.filterMap f).Nodup)
    (new : ∀ x b, e = some x → f x = some b → b ∉ l.filterMap f) : ((l ++ e.toList).filterMap f).Nodup := by
  rw [List.filterMap_append]
  cases e with
  | none => simpa using nodup
  | some x =>
    cases same : f x with
    | none => simpa [same] using nodup
    | some b =>
      have fresh := new x b rfl same
      simpa [same,List.nodup_append,nodup] using fun y mem => ne_of_mem_of_not_mem mem fresh

/-- No block is allocated twice for one slot in one round, and none is freed twice. -/
theorem run_nodup (slots : Slots α) (room : c.nworks * (2 * c.rounds) < 2 ^ 64) (schedule : List (Fin c.nworks × α)) :
    (blocks slots (run slots c schedule).2).Nodup ∧ (frees (run slots c schedule).2).Nodup := by
  induction schedule using List.reverseRecOn with
  | nil => exact ⟨List.nodup_nil,List.nodup_nil⟩
  | append_singleton schedule move ih =>
    have ledger := run_ledger slots room schedule
    have effect := ledger.effect move.1 move.2
    rw [run_concat]
    refine ⟨nodup_append_event ih.1 (fun x b seen new => ?_),nodup_append_event ih.2 (fun x b seen new => ?_)⟩
    · exact ledger.new_block (seen ▸ effect) new
    · exact ledger.new_free (seen ▸ effect) new

/-- In the end every slot has been through its life in every round. -/
theorem Ledger.ended (ledger : Ledger slots c s trace) (done : ∀ k, s.pcs k = .done) (round : r < c.rounds)
    (inside : i < c.ntimes) (k : Fin c.nworks) :
    ∃ v, history trace (victim k) r i = life slots k r i v :=
  (ledger.accounts.told k r i inside).ended (by rw [done]; exact round)

/-- In the end what was allocated has been freed. -/
theorem Ledger.block_freed (ledger : Ledger slots c s trace) (done : ∀ k, s.pcs k = .done)
    (mem : .allocated (victim k) r i v ∈ trace)
    (nonnull : slots.ptr v ≠ 0) : .freed k r i v ∈ trace := by
  have inside := ledger.accounts.inside _ mem _ _ _ rfl
  have there : Event.allocated (victim k) r i v ∈ history trace (victim k) r i := (mem_history rfl).mpr mem
  by_cases round : r < c.rounds
  · obtain ⟨w,whole⟩ := ledger.ended done round inside k
    have life_of : w = v := by
      rw [whole,life] at there
      split_ifs at there <;> simpa [eq_comm] using there
    refine (mem_history rfl).mp ?_
    rw [whole,life_of,life,if_neg nonnull]
    simp
  · have nothing := (ledger.accounts.told k r i inside).before (by rw [done]; exact round)
    rw [nothing,done] at there
    cases there

/-- What was stored before into a slot that is about to be filled is freed and
    cleared, and was stored in an earlier round. -/
theorem Ledger.refilled (ledger : Ledger slots c s trace) (here : s.pcs (victim k) = .store r i v)
    (old : .filled (victim k) r' i w ∈ trace) :
    r' < r ∧ (slots.ptr w ≠ 0 → .freed k r' i w ∈ trace ∧ .cleared k r' i ∈ trace) := by
  have fits := ledger.fits (victim k)
  rw [here] at fits
  have filling := ledger.filling (i := i) fits.1 (by rw [here]; rfl) r'
  have told := ledger.accounts.told k r' i fits.2
  have there : Event.filled (victim k) r' i w ∈ history trace (victim k) r' i := (mem_history rfl).mpr old
  by_cases stored : (s.pcs (victim k)).Stored c r' i
  · have before : r' < r := by
      rw [here] at stored
      simpa [Pc.Stored] using stored
    obtain ⟨w',whole⟩ := told.ended (filling.1.mpr before)
    have same : w' = w := by
      rw [whole,life] at there
      split_ifs at there <;> simpa [eq_comm] using there
    refine ⟨before,fun nonnull => ⟨(mem_history rfl).mp ?_,(mem_history rfl).mp ?_⟩⟩
    · rw [whole,same,life,if_neg nonnull]; simp
    · rw [whole,same,life,if_neg nonnull]; simp
  · rw [told.before stored] at there
    simp at there

/-- The slot that a thread is about to fill is null. -/
theorem Ledger.fills_null (ledger : Ledger slots c s trace) (here : s.pcs k = .store r i v) :
    slots.ptr (s.shared k i) = 0 := by
  have fits := ledger.fits k
  rw [here] at fits
  obtain ⟨freer,rfl⟩ := exists_victim k
  refine ledger.accounts.empty freer i fits.2 (fun r' stored => (ledger.filling fits.1 (by rw [here]; rfl) r').1.mpr ?_)
  rw [here] at stored
  simpa [Pc.Stored] using stored

/-- A thread that does not get on is done, or waits for a generation to end. -/
theorem advance_stuck (stuck : advance slots c s k answer = (s,none)) :
    s.pcs k = .done ∨ ∃ r second gen, s.pcs k = .spin r second gen ∧ s.counter / c.nworks = gen := by
  have stays : ∀ {s' : State c.nworks α} {pc : Pc α}, s'.goto k pc = s → s.pcs k = pc := fun same => by rw [← same,goto_self]
  cases here : s.pcs k with
  | done => exact .inl rfl
  | spin r second gen =>
    simp only [advance,here] at stuck
    split_ifs at stuck with same
    · exact .inr ⟨r,second,gen,rfl,same⟩
    · cases congrArg Prod.snd stuck
  | fill r i => simp only [advance,here] at stuck; cases congrArg Prod.snd stuck
  | store r i v => simp only [advance,here] at stuck; cases congrArg Prod.snd stuck
  | load r second => simp only [advance,here] at stuck; cases congrArg Prod.snd stuck
  | clear r i => simp only [advance,here] at stuck; cases congrArg Prod.snd stuck
  | add r second gen =>
    simp only [advance,here] at stuck
    split_ifs at stuck
    · cases congrArg Prod.snd stuck
    · have moved := stays (congrArg Prod.fst stuck)
      rw [here] at moved
      cases moved
  | test r i =>
    simp only [advance,here] at stuck
    split_ifs at stuck
    · have moved := stays (congrArg Prod.fst stuck)
      rw [here] at moved
      cases moved
    · have moved := stays (congrArg Prod.fst stuck)
      rw [here,Config.testFrom] at moved
      split_ifs at moved
      injection moved with _ index
      omega
  | give at_ r i =>
    cases at_ with
    | free => simp only [advance,here] at stuck; cases congrArg Prod.snd stuck
    | look =>
      simp only [advance,here] at stuck
      split_ifs at stuck
      all_goals
        have moved := stays (congrArg Prod.fst stuck)
        rw [here] at moved
        cases moved
    | check =>
      simp only [advance,here] at stuck
      have moved := stays (congrArg Prod.fst stuck)
      rw [here] at moved
      cases moved
    | erase =>
      simp only [advance,here] at stuck
      have moved := stays (congrArg Prod.fst stuck)
      rw [here] at moved
      cases moved

/-- If no thread gets on, all are done: the workload does not deadlock. -/
theorem stuck_done (room : c.nworks * (2 * c.rounds) < 2 ^ 64) (schedule : List (Fin c.nworks × α))
    (stuck : ∀ k answer, advance slots c (run slots c schedule).1 k answer = ((run slots c schedule).1,none)) :
    ∀ k, (run slots c schedule).1.pcs k = .done := by
  intro k
  have ledger := run_ledger slots room schedule
  rcases advance_stuck (stuck k slots.empty) with done | ⟨r,second,gen,here,same⟩
  · exact done
  exfalso
  have workers : Fintype.card (Fin c.nworks) = c.nworks := Fintype.card_fin _
  have phase : ∀ {k pc}, (run slots c schedule).1.pcs k = pc →
    (((run slots c schedule).1.barrier c).phase k) = pc.phase c := fun at_ => congrArg (Pc.phase c) at_
  have current := ledger.sound.current k
  rw [phase here] at current
  obtain ⟨rfl,more⟩ := current
  obtain ⟨k',arrived⟩ := ledger.sound.behind (phase here) (by rw [workers]; exact same)
  rcases advance_stuck (stuck k' slots.empty) with done | ⟨r',second',gen',waits,same'⟩
  · rw [phase done] at arrived
    exact absurd arrived (ne_of_gt more)
  · have current' := ledger.sound.current k'
    rw [phase waits] at arrived current'
    obtain ⟨rfl,_⟩ := current'
    have equal : call r second = call r' second' := same.symm.trans same'
    simp only [Pc.phase,Phase.arrived] at arrived
    omega

/-- Nobody returns from a call of the barrier that somebody has not entered. What a
    thread frees, its victim has filled in the same round; what is filled again has
    been freed and cleared, and is null; nothing is freed that was not allocated, or
    twice, and when all threads are done every block has been freed. -/
theorem cross_thread_sound (slots : Slots α) (c : Config) (room : c.nworks * (2 * c.rounds) < 2 ^ 64)
    (schedule : List (Fin c.nworks × α)) :
    (∀ k k' j, Precedes (run slots c schedule).2 (.entered k' j) (.returned k j)) ∧
    (∀ k r i v, Precedes (run slots c schedule).2 (.filled (victim k) r i v) (.freed k r i v)) ∧
    (∀ k r i v before after, (run slots c schedule).2 = before ++ .filled (victim k) r i v :: after →
      ∀ r' w, .filled (victim k) r' i w ∈ before → r' < r ∧
      (slots.ptr w ≠ 0 → .freed k r' i w ∈ before ∧ .cleared k r' i ∈ before)) ∧
    (∀ k r i v, (run slots c schedule).1.pcs k = .store r i v → slots.ptr ((run slots c schedule).1.shared k i) = 0) ∧
    (blocks slots (run slots c schedule).2).Nodup ∧ (frees (run slots c schedule).2).Nodup ∧
    frees (run slots c schedule).2 ⊆ blocks slots (run slots c schedule).2 ∧
    ((∀ k, (run slots c schedule).1.pcs k = .done) → (frees (run slots c schedule).2).Perm
    (blocks slots (run slots c schedule).2)) := by
  have ledger := run_ledger slots room schedule
  have nodup := run_nodup slots room schedule
  have freed : frees (run slots c schedule).2 ⊆ blocks slots (run slots c schedule).2 := by
    rintro ⟨owner,r,i,v⟩ mem
    obtain ⟨k,rfl,event⟩ := mem_frees.mp mem
    exact mem_blocks.mpr (ledger.freed_block event)
  refine ⟨fun k k' j before after here => ?_,fun k r i v before after here => ?_,
    fun k r i v before after here r' w old => ?_,
    fun k r i v here => ledger.fills_null here,nodup.1,nodup.2,freed,fun done => ?_⟩
  · obtain ⟨earlier,t,answer,rfl,seen⟩ := run_event here
    have now := run_ledger slots room earlier
    have later := now.step room t answer
    obtain ⟨rfl,passed⟩ := advance_returned (now.fits t) seen
    have arrived : j + 1 ≤ (((advance slots c (run slots c earlier).1 k answer).1.pcs k').phase c).arrived :=
      passed ▸ later.sound.together k k'
    have noted := (run_noted slots room earlier).step slots answer (now.fits k)
    have entered := noted k' j (lt_of_lt_of_le arrived (Phase.arrived_le_entered _))
    rw [seen,Option.toList_some] at entered
    simpa using entered
  · obtain ⟨earlier,t,answer,rfl,seen⟩ := run_event here
    have now := run_ledger slots room earlier
    have effect := now.effect t answer
    rw [seen] at effect
    obtain ⟨rfl,at_,rfl⟩ := effect.freed
    have fits := now.fits k
    rw [at_] at fits
    have held := now.holds (k := k) (r := r) (by rw [at_]; rfl) fits.2 (by rw [at_]; simp [Pc.Passed])
      (by rw [at_]; exact not_false)
    exact (mem_history rfl).mp (by rw [held]; simp)
  · obtain ⟨earlier,t,answer,rfl,seen⟩ := run_event here
    have now := run_ledger slots room earlier
    have effect := now.effect t answer
    rw [seen] at effect
    obtain ⟨rfl,at_⟩ := effect.filled
    exact now.refilled at_ old
  · refine (List.perm_ext_iff_of_nodup nodup.2 nodup.1).mpr (fun b => ⟨fun mem => freed mem,fun mem => ?_⟩)
    obtain ⟨owner,r,i,v⟩ := b
    obtain ⟨k,rfl⟩ := exists_victim owner
    obtain ⟨event,nonnull⟩ := mem_blocks.mp mem
    exact mem_frees.mpr ⟨k,rfl,ledger.block_freed done event nonnull⟩

end

/-- Two threads with a slot each: both blocks are freed, each by the other thread. -/
theorem cross_thread_sound_two : ∃ schedule : List (Fin 2 × Nat),
    (frees (run runOnce ⟨2,1,1⟩ schedule).2).Perm [(0,0,0,8192),(1,0,0,8200)] := by
  refine ⟨[(0,8192),(0,0),(1,8200),(1,0),(0,0),(1,0),(0,0),(1,0),(0,0),(0,0),(0,0),(0,0),(1,0),(1,0),(1,0),(0,0),
    (1,0),(0,0),(1,0),(0,0)],?_⟩
  exact (cross_thread_sound runOnce ⟨2,1,1⟩ (by decide) _).2.2.2.2.2.2.2 (Fin.forall_fin_two.mpr ⟨rfl,rfl⟩)

end CrossThread
end TcAlloc
