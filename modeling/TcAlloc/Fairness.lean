import TcAlloc.Discipline

/-!
Threads that are treated fairly. In an endless run a thread that can go on again and
again gets on again and again (`Endless`): so a mutex that is free time and again is
given at some time to each thread that waits for it. Threads that take mutexes in the
order of their ranks then all get on: a thread that is in a call for ever would come to
wait for one mutex for ever, whose holders are never out of it, and so hold it for ever
themselves, waiting for one of higher rank (`Fair.releases`). So each call ends, and
each mutex is free again and again (`Fair.returns`), as long as no thread fails.
-/
namespace TcAlloc

/-- What is left of the call of a thread. -/
def Thread.left {σ L Q A M F α C : Type} : Thread σ L Q A M F α C → Prog σ L Q A M F α
  | .idle => .raise
  | .running _ p _ => p

namespace Threads

section
variable {σ L Q A M F α C : Type} [DecidableEq L] {code : Nat → C → Prog σ L Q A M F α} {allowed : σ → Q → A → Prop}

/-- A run without end, with any pauses. No thread that can go on again and again stays
    where it is for ever. -/
structure Endless (code : Nat → C → Prog σ L Q A M F α) (allowed : σ → Q → A → Prop)
    (run : Nat → Threads σ L Q A M F α C) : Prop where
  steps : ∀ n, run (n + 1) = run n ∨ Step code allowed (run n) (run (n + 1))
  fair : ∀ t, (∀ n, ∃ m, n ≤ m ∧ Enabled allowed (run m) t) →
    ∀ n, ∃ m, n ≤ m ∧ (run (m + 1)).threads t ≠ (run m).threads t

/-- A thread has failed. -/
def Failing (c : Threads σ L Q A M F α C) : Prop := ∃ t call why h, c.threads t = .running call (.fail why) h

variable {c c' : Threads σ L Q A M F α C} {run : Nat → Threads σ L Q A M F α C} {t u : Nat} {l : L}

/-! ### One step -/

/-- A step changes one thread at most. -/
theorem Step.one (step : Step code allowed c c') : ∃ t, ∀ u, u ≠ t → c'.threads u = c.threads u := by
  cases step with
  | @call t => exact ⟨t,fun u ne => Function.update_of_ne ne ..⟩
  | advance advance =>
    cases advance with
    | @move t => exact ⟨t,fun u ne => Function.update_of_ne ne ..⟩
    | @finish t => exact ⟨t,fun u ne => Function.update_of_ne ne ..⟩
    | stop => exact ⟨0,fun _ _ => rfl⟩

/-- A thread that is in a call before and after a step is where it was, or has less left to do. -/
theorem Step.less (step : Step code allowed c c') (before : c.threads t ≠ .idle) (after : c'.threads t ≠ .idle) :
    c'.threads t = c.threads t ∨ (c'.threads t).left.Next (c.threads t).left := by
  cases step with
  | @call u on idle call =>
    by_cases same : t = u
    · exact absurd (same ▸ idle) before
    · exact .inl (Function.update_of_ne same ..)
  | advance advance =>
    cases advance with
    | @move u call p p' h h' s' on running move free =>
      by_cases same : t = u
      · subst same
        simp only [Function.update_self,running,Thread.left]
        exact .inr move.next
      · exact .inl (Function.update_of_ne same ..)
    | @finish u call a on ended =>
      by_cases same : t = u
      · subst same
        exact absurd (Function.update_self ..) after
      · exact .inl (Function.update_of_ne same ..)
    | stop => exact .inl rfl

/-- As long as no thread fails, the threads are not stopped. -/
theorem Step.goes_on (step : Step code allowed c c') (sound : ¬ Failing c) : c'.stopped = false := by
  cases step with
  | call => rfl
  | advance advance =>
    cases advance with
    | move => rfl
    | finish => rfl
    | stop on failed => exact absurd ⟨_,_,_,_,failed⟩ sound

/-- A thread that has failed stays where it is. -/
theorem Step.failing (step : Step code allowed c c') (failing : Failing c) : Failing c' := by
  obtain ⟨t,call,why,h,failed⟩ := failing
  refine ⟨t,call,why,h,?_⟩
  cases step with
  | @call u on idle =>
    have ne : t ≠ u := fun same => by rw [← same,failed] at idle; cases idle
    exact (Function.update_of_ne ne ..).trans failed
  | advance advance =>
    cases advance with
    | @move u call' p _ h' _ _ on running move =>
      have ne : t ≠ u := fun same => by
        rw [← same,failed] at running
        cases running
        cases move
      exact (Function.update_of_ne ne ..).trans failed
    | @finish u call' a on ended =>
      have ne : t ≠ u := fun same => by rw [← same,failed] at ended; cases ended
      exact (Function.update_of_ne ne ..).trans failed
    | stop => exact failed

/-! ### Endless runs -/

theorem Endless.failing (endless : Endless code allowed run) {n m : Nat} (later : n ≤ m) (failing : Failing (run n)) :
    Failing (run m) := by
  induction m, later using Nat.le_induction with
  | base => exact failing
  | succ m later ih =>
    rcases endless.steps m with same | step
    · rw [same]; exact ih
    · exact step.failing ih

theorem Endless.ordered {D : Discipline σ L Q A} {thrown : List L → Prop} (endless : Endless code allowed run)
    (answers : ∀ s q a, allowed s q a → D.answers q a) (codes : ∀ t call, keeps D (code t call) [] [] thrown)
    (start : Ordered D thrown (run 0)) (n : Nat) : Ordered D thrown (run n) := by
  induction n with
  | zero => exact start
  | succ n ih =>
    rcases endless.steps n with same | step
    · rw [same]; exact ih
    · exact ih.step answers codes step

theorem Endless.goes_on (endless : Endless code allowed run) (start : (run 0).stopped = false)
    (sound : ∀ n, ¬ Failing (run n)) (n : Nat) : (run n).stopped = false := by
  induction n with
  | zero => exact start
  | succ n ih =>
    rcases endless.steps n with same | step
    · rw [same]; exact ih
    · exact step.goes_on (sound n)

omit [DecidableEq L] in
/-- A thread that moves no more stays where it is. -/
theorem stays {n : Nat} (still : ∀ m, n ≤ m → (run (m + 1)).threads t = (run m).threads t) {m : Nat} (later : n ≤ m) :
    (run m).threads t = (run n).threads t := by
  induction m, later using Nat.le_induction with
  | base => rfl
  | succ m later ih => exact (still m later).trans ih

section
variable {D : Discipline σ L Q A} {top : Nat}

/-- Threads that keep a discipline without exceptions, none of which ever fails. -/
structure Fair (D : Discipline σ L Q A) (code : Nat → C → Prog σ L Q A M F α) (allowed : σ → Q → A → Prop)
    (run : Nat → Threads σ L Q A M F α C) : Prop where
  endless : Endless code allowed run
  ordered : ∀ n, Ordered D (fun _ => False) (run n)
  always : ∀ s q, ∃ a, allowed s q a
  on : ∀ n, (run n).stopped = false
  sound : ∀ n, ¬ Failing (run n)

/-- A thread that is in a call for ever waits for one mutex for ever. -/
theorem Fair.waits (fair : Fair D code allowed run) {n : Nat} (busy : ∀ m, n ≤ m → (run m).threads t ≠ .idle) :
    ∃ N call l k h, n ≤ N ∧ (run N).threads t = .running call (.lock l k) h ∧
      ∀ m, N ≤ m → ∃ u, l ∈ ((run m).threads u).held := by
  -- It moves no more from some time on, since each move leaves less of its call.
  have rest : ∃ N, ∀ m, N ≤ m → (run (m + 1)).threads t = (run m).threads t := by
    by_contra moving
    push Not at moving
    obtain ⟨m,later,idle⟩ := done_of_fair (Prog.next_wf (F := F) (M := M)) (fun m => (run m).threads t ≠ .idle)
      (fun m => ((run m).threads t).left)
      (fun m before after => by
        rcases fair.endless.steps m with same | step
        · exact .inl (by rw [same])
        · rcases step.less before after with same | less
          · exact .inl (by rw [same])
          · exact .inr less)
      (fun m => by
        obtain ⟨m',later,moves⟩ := moving m
        refine ⟨m',later,fun before after => ?_⟩
        rcases fair.endless.steps m' with same | step
        · exact absurd (by rw [same]) moves
        · exact (step.less before after).resolve_left moves) n
    exact idle (busy m later)
  obtain ⟨N₁,still⟩ := rest
  -- So it can go on no more from some time on.
  have stuck : ∃ N, ∀ m, N ≤ m → ¬ Enabled allowed (run m) t := by
    by_contra able
    push Not at able
    obtain ⟨m,later,moves⟩ := fair.endless.fair t able N₁
    exact moves (still m later)
  obtain ⟨N₂,stuck⟩ := stuck
  have here : ∀ m, max n (max N₁ N₂) ≤ m → ∃ call p h, (run m).threads t = .running call p h ∧
      ∃ l k u, p = .lock l k ∧ u ≠ t ∧ l ∈ ((run m).threads u).held := by
    intro m later
    cases running : (run m).threads t with
    | idle => exact absurd running (busy m (by omega))
    | running call p h =>
      have sound : ∀ why, p ≠ .fail why := fun why failed => fair.sound m ⟨t,call,why,h,failed ▸ running⟩
      exact ⟨call,p,h,rfl,((fair.ordered m).enabled_or_waits fair.always (fair.on m) running sound).resolve_left
        (stuck m (by omega))⟩
  obtain ⟨call,_,h,running,l,k,_,rfl,_,_⟩ := here _ (le_refl _)
  refine ⟨_,call,l,k,h,le_max_left _ _,running,fun m later => ?_⟩
  obtain ⟨call',p,h',running',l',k',u,is,_,held⟩ := here m later
  have same := stays (fun m later => still m (by omega)) later
  rw [running,running',is] at same
  cases same
  exact ⟨u,held⟩

/-- A mutex that each holder gives back at some time is free at some time. -/
theorem Fair.freed (fair : Fair D code allowed run)
    (released : ∀ n u, l ∈ ((run n).threads u).held → ∃ m, n ≤ m ∧ l ∉ ((run m).threads u).held) (n : Nat) :
    ∃ m, n ≤ m ∧ ∀ u, l ∉ ((run m).threads u).held := by
  by_contra never
  push Not at never
  obtain ⟨u,held⟩ := never n (le_refl n)
  -- The step with which the holder gives it back changes no other thread.
  have stays : ∀ m, n ≤ m → l ∈ ((run m).threads u).held := by
    intro m later
    induction m, later using Nat.le_induction with
    | base => exact held
    | succ m later ih =>
      by_contra gone
      obtain ⟨v,taken⟩ := never (m + 1) (by omega)
      have ne : v ≠ u := fun same => gone (same ▸ taken)
      rcases fair.endless.steps m with same | step
      · rw [same] at gone; exact gone ih
      · obtain ⟨t,others⟩ := step.one
        have changed : u = t := by
          by_contra other
          rw [others u other] at gone
          exact gone ih
        rw [others v (changed ▸ ne)] at taken
        exact ne ((fair.ordered m).apart v u l taken ih)
  obtain ⟨m,later,gone⟩ := released n u held
  exact gone (stays m later)

/-- A mutex that is held is given back at some time: its holder would otherwise wait
    for ever for one of higher rank, which is given back whenever it is held. -/
theorem Fair.releases (fair : Fair D code allowed run) (bounded : ∀ l, D.rank l ≤ top) (k : Nat) :
    ∀ l, top - D.rank l = k → ∀ n u, l ∈ ((run n).threads u).held → ∃ m, n ≤ m ∧ l ∉ ((run m).threads u).held := by
  induction k using Nat.strongRecOn with
  | ind k ih =>
    intro l rank n u held
    by_contra never
    push Not at never
    have busy : ∀ m, n ≤ m → (run m).threads u ≠ .idle := fun m later idle => by
      have here := never m later
      rw [idle] at here
      cases here
    obtain ⟨N,call,l',k',h,later,running,taken⟩ := fair.waits busy
    have here := never N later
    rw [running] at here
    have higher : D.rank l < D.rank l' := ((fair.ordered N).kept u call _ h running).1 l here
    have := bounded l'
    obtain ⟨m,after,free⟩ := fair.freed (ih _ (by omega) l' rfl) N
    obtain ⟨v,held'⟩ := taken m after
    exact free v held'

/-- Every thread is out of its call again and again, and every mutex is free again and again. -/
theorem Fair.returns (fair : Fair D code allowed run) (bounded : ∀ l, D.rank l ≤ top) (n : Nat) :
    (∀ t, ∃ m, n ≤ m ∧ (run m).threads t = .idle) ∧ ∀ l, ∃ m, n ≤ m ∧ ∀ t, l ∉ ((run m).threads t).held := by
  have free : ∀ l N, ∃ m, N ≤ m ∧ ∀ u, l ∉ ((run m).threads u).held :=
    fun l => fair.freed (fair.releases bounded _ l rfl)
  refine ⟨fun t => ?_,fun l => free l n⟩
  by_contra never
  push Not at never
  obtain ⟨N,_,l,_,_,_,_,taken⟩ := fair.waits never
  obtain ⟨m,after,out⟩ := free l N
  obtain ⟨u,held⟩ := taken m after
  exact out u held

end

/-! ### Runs that come to rest -/

/-- A call that runs to its end while the others hold nothing. -/
theorem reaches_of_call (call : C) {d : Prog σ L Q A M F α × List L × σ} {a : α} {s : σ}
    (others : ∀ u, u ≠ t → (c.threads u).held = []) (run : Run allowed d (.ret a,[],s)) :
    Reaches code allowed (c.at_ t call d) ⟨s,Function.update c.threads t .idle,false⟩ := by
  have ends : Advance allowed (c.at_ t call (.ret a,[],s)) ⟨s,Function.update c.threads t .idle,false⟩ := by
    have finish : Advance allowed (c.at_ t call (.ret a,[],s)) _ := .finish rfl (c.at_thread t call _)
    simpa only [at_,Function.update_idem] using finish
  exact .tail (reaches_of_run others run) (.advance ends)

/-- A run that comes to a state where no thread is in a call can go on for ever from there. -/
theorem endless_of_reaches {c d : Threads σ L Q A M F α C} (reached : Reaches code allowed c d)
    (rest : ∀ t, d.threads t = .idle) : ∃ run : Nat → Threads σ L Q A M F α C, run 0 = c ∧ Endless code allowed run ∧
      ∃ N, ∀ n, N ≤ n → run n = d := by
  have steps : ∃ run : Nat → Threads σ L Q A M F α C, run 0 = c ∧
      (∀ n, run (n + 1) = run n ∨ Step code allowed (run n) (run (n + 1))) ∧ ∃ N, ∀ n, N ≤ n → run n = d := by
    induction reached using Relation.ReflTransGen.head_induction_on with
    | refl => exact ⟨fun _ => d,rfl,fun _ => .inl rfl,0,fun _ _ => rfl⟩
    | @head c c' step _ ih =>
      obtain ⟨run,start,steps,N,ends⟩ := ih
      refine ⟨fun n => Nat.casesOn n c run,rfl,fun n => ?_,N + 1,fun n late => ?_⟩
      · cases n with
        | zero =>
          rw [← start] at step
          exact .inr step
        | succ n => exact steps n
      · cases n with
        | zero => exact absurd late (Nat.not_succ_le_zero N)
        | succ n => exact ends n (Nat.le_of_succ_le_succ late)
  obtain ⟨run,start,steps,N,ends⟩ := steps
  refine ⟨run,start,⟨steps,fun t able => ?_⟩,N,ends⟩
  -- A thread that is in no call cannot go on with one.
  obtain ⟨m,late,c',advance,moves⟩ := able N
  rw [ends m late] at advance moves
  refine absurd ?_ moves
  cases advance with
  | move _ running => rw [rest] at running; cases running
  | finish _ ended => rw [rest] at ended; cases ended
  | stop => rfl

end
end Threads
end TcAlloc
