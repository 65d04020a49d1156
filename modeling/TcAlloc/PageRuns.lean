import TcAlloc.Release

/-!
Runs of the page cache alone: calls of `NewSpan`, each marking its span as used
before it lets go of the mutex, and of `ReleaseSpanToPageCache` on spans in use,
in any order. What holds in every state of such runs follows from what one call
does to a settled state (`Call.code_wp`).
-/
namespace TcAlloc
namespace Pages

inductive Call where
  | newSpan (k : Nat)
  | release (span : Nat)
  deriving DecidableEq

def Call.code (b : Build) : Call → Code Pages Unit
  | .newSpan k => do
    .acquire .pageCache
    let span ← Pages.newSpan b.rounds k
    put span (fun s => { s with isUse := true })
    .release .pageCache
  | .release span => do
    .acquire .pageCache
    releaseSpanToPageCache b.rounds span
    .release .pageCache

/-- A span that was handed out and not released since. -/
def InUse (w : Pages) (S : Nat) : Prop := S ∈ w.spanPool.live ∧ (w.spans S).isUse = true

instance (w : Pages) (S : Nat) : Decidable (w.InUse S) := inferInstanceAs (Decidable (_ ∧ _))

def Call.Legal (w : Pages) : Call → Prop
  | .newSpan k => 0 < k
  | .release span => w.InUse span

instance (w : Pages) (c : Call) : Decidable (c.Legal w) :=
  match c with
  | .newSpan k => inferInstanceAs (Decidable (0 < k))
  | .release span => inferInstanceAs (Decidable (w.InUse span))

/-- The answers a system may give, whatever the rest of the state is. -/
abbrev Answers := OS → Request → Option Nat → Prop

/-- A run of one call, from a state where no mutex is held. -/
def Runs (b : Build) (answers : Answers) (w : Pages) (c : Call) :
    Code Pages Unit × List Mutex × Pages → Prop :=
  Run (fun w q a => answers w.os q a) (c.code b,[],w)

/-- The states reached by calls that meet the condition `may`. -/
inductive Reaches (b : Build) (answers : Answers) (may : Pages → Call → Prop) : Pages → Prop
  | start : Reaches b answers may start
  | call {w w' : Pages} {c : Call} {h : List Mutex} (before : Reaches b answers may w) (legal : c.Legal w) (ok : may w c)
      (run : Runs b answers w c (.ret (),h,w')) : Reaches b answers may w'

/-- The event that a call comes to, and the state there. -/
def Passes (b : Build) (answers : Answers) (w : Pages) (c : Call) (e : Event) (w' : Pages) : Prop :=
  ∃ k h, Runs b answers w c (.mark e k,h,w')

/-- A release meets no page that would mislead it. -/
def QuietCall (w : Pages) : Call → Prop
  | .newSpan _ => True
  | .release span => (w.spans span).n < npages → w.Quiet span

/-- Spans too long to be merged are not released. -/
def ShortCall (w : Pages) : Call → Prop
  | .newSpan _ => True
  | .release span => (w.spans span).n < npages

instance (w : Pages) (c : Call) : Decidable (ShortCall w c) :=
  match c with
  | .newSpan _ => inferInstanceAs (Decidable True)
  | .release span => inferInstanceAs (Decidable ((w.spans span).n < npages))

/-- A ledger for a state between calls. No object is carved from the spans. -/
structure Between (g : Ledger) (w : Pages) : Prop where
  settled : Settled g w
  unused : ∀ S s, g.used S = some s → s.useCount = 0

theorem Open.inUse_iff {g : Ledger} {w : Pages} (settled : Settled g w) (S : Nat) :
    w.InUse S ↔ ∃ s, g.used S = some s := by
  constructor
  · rintro ⟨live,isUse⟩
    rcases settled.closed_cases (S := S) ⟨live,Set.notMem_empty S⟩ with ⟨s,used,_⟩ | ⟨_,free⟩
    · exact ⟨s,used⟩
    · rw [free.isUse] at isUse; cases isUse
  · rintro ⟨s,used⟩
    obtain ⟨closed,facts⟩ := settled.used S s used
    exact ⟨closed.1,by rw [facts.same]; exact facts.isUse⟩

/-- The observer of a call: what it passes is sound. -/
def callRules (answers : Answers) : PageRules := ⟨fun w q a => answers w.os q a,fun m _ w _ => ∀ e, m = some e → Sound w e⟩

section
variable {b : Build} {answers : Answers} {w : Pages} {g : Ledger}

theorem unmarked {h : List Mutex} {w' : Pages} : (callRules answers).seen none h w w' := fun _ marked => nomatch marked

theorem watch_call (promised : ∀ os q a, answers os q a → os.promises q a) (g : Ledger) :
    Watch (callRules answers) [.pageCache] g :=
  ⟨fun w q a ok => promised w.os q a ok,by simp,fun _ _ _ _ _ _ _ => unmarked,
    fun w e sound e' same => Option.some.inj same ▸ sound⟩

/-- One call brings a settled state to a settled state. -/
theorem Call.code_wp (promised : ∀ os q a, answers os q a → os.promises q a) (between : Between g w) {c : Call}
    (legal : c.Legal w) (quiet : QuietCall w c) :
    wp (callRules answers) (c.code b) [] w
      (fun _ _ w' => ∃ g', Between g' w' ∧ (ShortCall w c → g'.stale = g.stale)) (fun _ _ => False) := by
  have settled := between.settled
  have long := b.long
  have watch := watch_call promised
  cases c with
  | newSpan k =>
    simp only [Call.code,wp_seq,wp_acquire]
    refine ⟨by simp,unmarked,?_⟩
    refine newSpan_wp (watch g) settled.guarded settled legal (by omega) (fun S w' ready guarded => ?_)
    refine put_wp (watch g) guarded ?_
    rw [wp_release]
    refine ⟨by simp,unmarked,_,⟨ready.handOut legal rfl rfl rfl,fun T t used => ?_⟩,fun _ => rfl⟩
    by_cases same : T = S
    · subst same
      rw [Ledger.take_self] at used; cases used
      exact ready.unused
    · rw [Ledger.take_other g _ same] at used
      exact between.unused T t used
  | release S =>
    obtain ⟨s,used⟩ := (settled.inUse_iff S).mp legal
    have facts := (settled.used S s used).2
    have same : w.spans S = s := facts.same
    simp only [Call.code,wp_seq,wp_acquire]
    refine ⟨by simp,unmarked,?_⟩
    have guarded : Guarded (g.giveBack S) w.idSpanMap := (settled.takeBack used).1.guarded
    refine release_wp (watch _) guarded settled used (between.unused S s used)
      (fun short => quiet (by rw [same]; exact short)) (by have : npages = 129 := rfl; omega) (fun w' settled' _ _ => ?_)
    rw [wp_release]
    refine ⟨by simp,unmarked,_,⟨settled',fun T t used' => ?_⟩,fun short => ?_⟩
    · have taken : (g.giveBack S).used T = some t := by rw [released] at used'; split_ifs at used' <;> exact used'
      have ne : T ≠ S := fun equal => by rw [equal,Ledger.giveBack_self] at taken; cases taken
      rw [Ledger.giveBack_other g ne] at taken
      exact between.unused T t taken
    · have small : s.n < npages := by rw [← same]; exact short
      rw [released,if_neg (by omega)]; rfl

/-- Every state between calls has a ledger. -/
theorem Reaches.between {may : Pages → Call → Prop} (promised : ∀ os q a, answers os q a → os.promises q a)
    (quiet : ∀ w c, may w c → QuietCall w c) (reached : Reaches b answers may w) : ∃ g, Between g w := by
  induction reached with
  | start => exact ⟨.start,⟨settled_start,fun S s used => by simp [Ledger.start] at used⟩⟩
  | @call w w' c h before legal ok run ih =>
    obtain ⟨g,between⟩ := ih
    obtain ⟨g',between',_⟩ := wp_run (R := callRules answers) run (Call.code_wp promised between legal (quiet w c ok))
    exact ⟨g',between'⟩

/-- In runs that release no long span there is a ledger with nothing left behind. -/
theorem Reaches.clean (promised : ∀ os q a, answers os q a → os.promises q a) (reached : Reaches b answers ShortCall w) :
    ∃ g, Between g w ∧ g.stale = ∅ := by
  induction reached with
  | start => exact ⟨.start,⟨settled_start,fun S s used => by simp [Ledger.start] at used⟩,rfl⟩
  | @call w w' c h before legal ok run ih =>
    obtain ⟨g,between,clean⟩ := ih
    have quiet : QuietCall w c := by
      cases c with
      | newSpan k => trivial
      | release S => exact fun _ => between.settled.quiet clean S
    obtain ⟨g',between',stale⟩ := wp_run (R := callRules answers) run (Call.code_wp promised between legal quiet)
    exact ⟨g',between',(stale ok).trans clean⟩

end

/-! ### Runs computed from the answers of the system -/

def answered (align : Nat) (os : OS) (q : Request) (a : Option Nat) : Bool := decide (os.allows align q a)

/-- The state after one call, if the answers let it run to its end. -/
def callOnce (b : Build) (ok : OS → Request → Option Nat → Bool) (may : Pages → Call → Bool) (w : Pages) (c : Call)
    (answers : List (Option Nat)) : Option Pages :=
  if c.Legal w ∧ may w c = true then
    match (exec (fun w => ok w.os) (c.code b) answers [] w).1 with
    | (.ret _,_,w') => some w'
    | _ => none
  else none

/-- The state after a sequence of calls. -/
def callAll (b : Build) (ok : OS → Request → Option Nat → Bool) (may : Pages → Call → Bool) :
    Pages → List (Call × List (Option Nat)) → Option Pages
  | w, [] => some w
  | w, (c,answers) :: rest => (callOnce b ok may w c answers).bind (fun w' => callAll b ok may w' rest)

section
variable {b : Build} {answers : Answers} {may : Pages → Call → Prop} {ok : OS → Request → Option Nat → Bool}
  {mayCall : Pages → Call → Bool} {w w' : Pages}

theorem callAll_reaches (ok : OS → Request → Option Nat → Bool) (mayCall : Pages → Call → Bool)
    (sound : ∀ os q a, ok os q a = true → answers os q a) (allowed : ∀ w c, mayCall w c = true → may w c)
    {calls : List (Call × List (Option Nat))} (before : Reaches b answers may w)
    (result : callAll b ok mayCall w calls = some w') : Reaches b answers may w' := by
  induction calls generalizing w with
  | nil => cases result; exact before
  | cons call rest ih =>
    obtain ⟨w₁,first,later⟩ := Option.bind_eq_some_iff.mp result
    refine ih ?_ later
    simp only [callOnce] at first
    split_ifs at first with legal
    have run := exec_run (P := fun w q a => answers w.os q a) (fun w q a => sound w.os q a) (call.1.code b) call.2 [] w
    generalize (exec (fun w => ok w.os) (call.1.code b) call.2 [] w).1 = ended at first run
    obtain ⟨p,h,w₂⟩ := ended
    cases p with
    | ret u => cases first; exact before.call legal.1 (allowed _ _ legal.2) run
    | _ => cases first

/-- An event that the computed run of a call comes to. -/
theorem exec_passes (answers : Answers) (ok : OS → Request → Option Nat → Bool) (w : Pages)
    (c : Call) (given : List (Option Nat))
    (bad : Event → Pages → Bool) (sound : ∀ os q a, ok os q a = true → answers os q a)
    (some : (exec (fun w => ok w.os) (c.code b) given [] w).2.any (fun m => bad m.1 m.2) = true) :
    ∃ e w', Passes b answers w c e w' ∧ bad e w' = true := by
  obtain ⟨⟨e,w'⟩,mem,is_bad⟩ := List.any_eq_true.mp some
  obtain ⟨k,h,run⟩ := exec_marks (P := fun w q a => answers w.os q a) (fun w q a => sound w.os q a)
    (c.code b) given [] w e w' mem
  exact ⟨e,w',⟨k,h,run⟩,is_bad⟩

end
end Pages
end TcAlloc
