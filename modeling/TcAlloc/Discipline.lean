import TcAlloc.Logic

/-!
Any number of threads that take mutexes in an order. A discipline gives every
mutex a rank, and says which changes a thread may make and which states it may not
tell apart while it holds given mutexes. `keeps` follows a program over all its
branches, whatever the other threads do between two of its operations; a program
that keeps the discipline waits only for mutexes of higher rank than those it
holds. Threads whose programs keep it are never all stuck (`Ordered.advances`).
-/
namespace TcAlloc

structure Discipline (σ L Q A : Type) where
  rank : L → Nat
  answers : Q → A → Prop
  /-- The changes that a thread may make holding the mutexes. -/
  change : List L → σ → σ → Prop
  /-- The states that it may not tell apart. -/
  same : List L → σ → σ → Prop
  change_refl : ∀ h s, change h s s

section
variable {σ τ L Q A M F α β : Type} [DecidableEq L]

/-- An action that keeps the discipline: what it does, and what follows it, is the
    same in states that are not told apart. -/
def Discipline.Allows (D : Discipline σ L Q A) (h : List L) (f : σ → σ) (k : σ → β) : Prop :=
  (∀ s, D.change h s (f s)) ∧ ∀ s s', D.same h s s' → k s = k s' ∧ D.same h (f s) (f s')

/-- Every branch of the program keeps the discipline from where it holds `h`; where
    it returns it holds `ends`, and an exception leaves it in `thrown`. -/
def keeps (D : Discipline σ L Q A) : Prog σ L Q A M F α → List L → List L → (List L → Prop) → Prop
  | .ret _, h, ends, _ => h = ends
  | .raise, h, _, thrown => thrown h
  | .fail _, _, _, _ => True
  | .act f k, h, ends, thrown => D.Allows h f k ∧ ∀ s, keeps D (k s) h ends thrown
  | .ask q k, h, ends, thrown => ∀ a, D.answers q a → keeps D (k a) h ends thrown
  | .lock l k, h, ends, thrown => (∀ m ∈ h, D.rank m < D.rank l) ∧ keeps D k (l :: h) ends thrown
  | .unlock l k, h, ends, thrown => l ∈ h ∧ keeps D k (h.erase l) ends thrown
  | .mark _ k, h, ends, thrown => keeps D k h ends thrown

/-- The discipline of a part that no rule is about but the order of mutexes. -/
def Discipline.plain (rank : L → Nat) (answers : Q → A → Prop) : Discipline σ L Q A :=
  ⟨rank,answers,fun _ _ _ => True,fun _ s s' => s = s',fun _ _ => trivial⟩

/-! ### Rules -/

section
variable {D : Discipline σ L Q A} {h ends mid : List L} {thrown : List L → Prop}

@[simp] theorem keeps_ret (a : α) : keeps D (.ret a : Prog σ L Q A M F α) h ends thrown ↔ h = ends := Iff.rfl
@[simp] theorem keeps_pure (a : α) : keeps D (pure a : Prog σ L Q A M F α) h ends thrown ↔ h = ends := Iff.rfl
@[simp] theorem keeps_fail (why : F) : keeps D (.fail why : Prog σ L Q A M F α) h ends thrown := trivial
@[simp] theorem keeps_acquire (l : L) : keeps D (.acquire l : Prog σ L Q A M F Unit) h ends thrown ↔
    (∀ m ∈ h, D.rank m < D.rank l) ∧ l :: h = ends := Iff.rfl
@[simp] theorem keeps_release (l : L) : keeps D (.release l : Prog σ L Q A M F Unit) h ends thrown ↔
    l ∈ h ∧ h.erase l = ends := Iff.rfl
@[simp] theorem keeps_note (m : M) : keeps D (.note m : Prog σ L Q A M F Unit) h ends thrown ↔ h = ends := Iff.rfl

/-- A mutex taken by a thread that holds none, and given back by one that holds no other. -/
theorem keeps_enter (l : L) : keeps D (.acquire l : Prog σ L Q A M F Unit) [] [l] thrown := ⟨by simp,rfl⟩
theorem keeps_leave (l : L) : keeps D (.release l : Prog σ L Q A M F Unit) [l] [] thrown :=
  ⟨List.mem_singleton_self l,List.erase_cons_head ..⟩

theorem keeps_require (c : Prop) [Decidable c] (why : F) : keeps D (.require c why : Prog σ L Q A M F Unit) h h thrown := by
  by_cases holds : c <;> simp [Prog.require,holds]

theorem keeps_read (g : σ → β) (blind : ∀ s s', D.same h s s' → g s = g s') :
    keeps D (.read g : Prog σ L Q A M F β) h h thrown :=
  ⟨⟨fun s => D.change_refl h s,fun s s' same => ⟨congrArg Prog.ret (blind s s' same),same⟩⟩,fun _ => rfl⟩

theorem keeps_modify {f : σ → σ} (change : ∀ s, D.change h s (f s)) (same : ∀ s s', D.same h s s' → D.same h (f s) (f s')) :
    keeps D (.modify f : Prog σ L Q A M F Unit) h h thrown :=
  ⟨⟨change,fun s s' alike => ⟨rfl,same s s' alike⟩⟩,fun _ => rfl⟩

/-- An action that may fail. -/
theorem keeps_step {g : σ → Except F (β × σ)} (change : ∀ s b s', g s = .ok (b,s') → D.change h s s')
    (same : ∀ s s', D.same h s s' → (∃ why, g s = .error why ∧ g s' = .error why) ∨
      ∃ b t t', g s = .ok (b,t) ∧ g s' = .ok (b,t') ∧ D.same h t t') :
    keeps D (.step g : Prog σ L Q A M F β) h h thrown := by
  refine ⟨⟨fun s => ?_,fun s s' alike => ?_⟩,fun s => ?_⟩
  · dsimp only
    split
    · next r ok => exact change s r.1 r.2 ok
    · exact D.change_refl h s
  · rcases same s s' alike with ⟨why,bad,bad'⟩ | ⟨b,t,t',ok,ok',alike'⟩
    · simp only [bad,bad']; exact ⟨trivial,alike⟩
    · simp only [ok,ok']; exact ⟨trivial,alike'⟩
  · dsimp only
    split
    · exact rfl
    · exact trivial

/-- Where no two states are alike only the changes matter. -/
theorem keeps_change {f : σ → σ} (alike : ∀ h s s', D.same h s s' → s = s') (refl : ∀ h s, D.same h s s)
    (change : ∀ s, D.change h s (f s)) : keeps D (.modify f : Prog σ L Q A M F Unit) h h thrown :=
  keeps_modify change (fun s s' same => by rw [alike h s s' same]; exact refl h _)

theorem keeps_if {c : Prop} [Decidable c] {p q : Prog σ L Q A M F α} (yes : c → keeps D p h ends thrown)
    (no : ¬ c → keeps D q h ends thrown) : keeps D (if c then p else q) h ends thrown := by
  by_cases holds : c
  · rw [if_pos holds]; exact yes holds
  · rw [if_neg holds]; exact no holds

theorem keeps_bind {p : Prog σ L Q A M F α} {next : α → Prog σ L Q A M F β} (first : keeps D p h mid thrown)
    (later : ∀ a, keeps D (next a) mid ends thrown) : keeps D (p.bind next) h ends thrown := by
  induction p generalizing h with
  | ret a =>
    have here : h = mid := first
    rw [here]; exact later a
  | raise => exact first
  | fail why => trivial
  | act f k ih =>
    exact ⟨⟨first.1.1,fun s s' same => ⟨congrArg (·.bind next) (first.1.2 s s' same).1,(first.1.2 s s' same).2⟩⟩,
      fun s => ih s (first.2 s)⟩
  | ask q k ih => exact fun a ok => ih a (first a ok)
  | lock l k ih => exact ⟨first.1,ih first.2⟩
  | unlock l k ih => exact ⟨first.1,ih first.2⟩
  | mark m k ih => exact ih first

theorem keeps_seq {p : Prog σ L Q A M F α} {next : α → Prog σ L Q A M F β} (first : keeps D p h mid thrown)
    (later : ∀ a, keeps D (next a) mid ends thrown) : keeps D (p >>= next) h ends thrown := keeps_bind first later

/-- The first part gives back what it takes. -/
theorem keeps_then {p : Prog σ L Q A M F α} {next : α → Prog σ L Q A M F β} (first : keeps D p h h thrown)
    (later : ∀ a, keeps D (next a) h ends thrown) : keeps D (p >>= next) h ends thrown := keeps_bind first later

theorem keeps_unlocking (l : L) {p : Prog σ L Q A M F α}
    (inner : keeps D p h ends (fun h' => l ∈ h' ∧ thrown (h'.erase l))) : keeps D (p.unlocking l) h ends thrown := by
  induction p generalizing h with
  | ret a => exact inner
  | raise => exact inner
  | fail why => trivial
  | act f k ih =>
    exact ⟨⟨inner.1.1,fun s s' same => ⟨congrArg (·.unlocking l) (inner.1.2 s s' same).1,(inner.1.2 s s' same).2⟩⟩,
      fun s => ih s (inner.2 s)⟩
  | ask q k ih => exact fun a ok => ih a (inner a ok)
  | lock m k ih => exact ⟨inner.1,ih inner.2⟩
  | unlock m k ih => exact ⟨inner.1,ih inner.2⟩
  | mark m k ih => exact ih inner

/-- A block that holds `l` and gives it back however it ends. -/
theorem keeps_locked {l : L} {p : Prog σ L Q A M F α} (above : ∀ m ∈ h, D.rank m < D.rank l)
    (inner : keeps D p (l :: h) (l :: h) (fun h' => l ∈ h' ∧ thrown (h'.erase l))) : keeps D (p.locked l) h h thrown :=
  ⟨above,keeps_bind (keeps_unlocking l inner) (fun _ => ⟨List.mem_cons_self,List.erase_cons_head ..⟩)⟩

/-- A block between a lock and an unlock made by hand. -/
theorem keeps_holding {l : L} {p : Prog σ L Q A M F α} (above : ∀ m ∈ h, D.rank m < D.rank l)
    (inner : keeps D p (l :: h) (l :: h) thrown) : keeps D (p.holding l) h h thrown :=
  ⟨above,keeps_bind inner (fun _ => ⟨List.mem_cons_self,List.erase_cons_head ..⟩)⟩

/-- The program of a part keeps the discipline of the whole, if states that are
    not told apart agree on the part. -/
theorem keeps_zoom (lens : Lens σ τ) {E : Discipline τ L Q A} {p : Prog τ L Q A M F α} (ranks : E.rank = D.rank)
    (answers : ∀ q a, D.answers q a → E.answers q a)
    (change : ∀ h s t, E.change h (lens.get s) t → D.change h s (lens.set s t))
    (same : ∀ h s s', D.same h s s' → lens.get s' = lens.get s ∧ ∀ t, D.same h (lens.set s t) (lens.set s' t))
    (inner : keeps E p h ends thrown) : keeps D (p.zoom lens) h ends thrown := by
  induction p generalizing h with
  | ret a => exact inner
  | raise => exact inner
  | fail why => trivial
  | act f k ih =>
    refine ⟨⟨fun s => change h s _ (inner.1.1 (lens.get s)),fun s s' alike => ?_⟩,fun s => ih _ (inner.2 _)⟩
    obtain ⟨agree,still⟩ := same h s s' alike
    simp only [agree]
    exact ⟨trivial,still _⟩
  | ask q k ih => exact fun a ok => ih a (inner a (answers q a ok))
  | lock l k ih => exact ⟨by rw [← ranks]; exact inner.1,ih inner.2⟩
  | unlock l k ih => exact ⟨inner.1,ih inner.2⟩
  | mark m k ih => exact ih inner

/-- One operation keeps the discipline. -/
theorem keeps_move {allowed : σ → Q → A → Prop}
    (answers : ∀ s q a, allowed s q a → D.answers q a) {p p' : Prog σ L Q A M F α}
    {h' : List L} {s s' : σ} (move : Move allowed (p,h,s) (p',h',s')) (before : keeps D p h ends thrown) :
    keeps D p' h' ends thrown := by
  cases move with
  | act f k => exact before.2 s
  | ask k _ ok => exact before _ (answers _ _ _ ok)
  | lock k _ free => exact before.2
  | unlock k _ held => exact before.2
  | mark m k => exact before

end

/-! ### Threads -/

/-- A thread that makes calls of the kind `C`. -/
inductive Thread (σ L Q A M F α C : Type) where
  | idle
  | running (call : C) (code : Prog σ L Q A M F α) (held : List L)

def Thread.held {C : Type} : Thread σ L Q A M F α C → List L
  | .idle => []
  | .running _ _ held => held

/-- The threads and the state they share; a failed assertion stops them all. -/
structure Threads (σ L Q A M F α C : Type) where
  state : σ
  threads : Nat → Thread σ L Q A M F α C
  stopped : Bool

namespace Threads
variable {C : Type} {code : Nat → C → Prog σ L Q A M F α} {allowed : σ → Q → A → Prop}

def start (s : σ) : Threads σ L Q A M F α C := ⟨s,fun _ => .idle,false⟩

/-- One step of a thread in a call. -/
inductive Advance (allowed : σ → Q → A → Prop) : Threads σ L Q A M F α C → Threads σ L Q A M F α C → Prop
  | move {c : Threads σ L Q A M F α C} {t : Nat} {call : C} {p p' : Prog σ L Q A M F α} {h h' : List L} {s' : σ}
      (on : c.stopped = false) (running : c.threads t = .running call p h) (move : Move allowed (p,h,c.state) (p',h',s'))
      (free : ∀ l ∈ h', l ∉ h → ∀ u, u ≠ t → l ∉ (c.threads u).held) :
      Advance allowed c ⟨s',Function.update c.threads t (.running call p' h'),false⟩
  | finish {c : Threads σ L Q A M F α C} {t : Nat} {call : C} {a : α} (on : c.stopped = false)
      (ended : c.threads t = .running call (.ret a) []) : Advance allowed c ⟨c.state,Function.update c.threads t .idle,false⟩
  | stop {c : Threads σ L Q A M F α C} {t : Nat} {call : C} {why : F} {h : List L} (on : c.stopped = false)
      (failed : c.threads t = .running call (.fail why) h) : Advance allowed c ⟨c.state,c.threads,true⟩

/-- A thread begins a call, or goes on with one. -/
inductive Step (code : Nat → C → Prog σ L Q A M F α) (allowed : σ → Q → A → Prop) :
    Threads σ L Q A M F α C → Threads σ L Q A M F α C → Prop
  | call {c : Threads σ L Q A M F α C} {t : Nat} (on : c.stopped = false) (idle : c.threads t = .idle) (call : C) :
      Step code allowed c ⟨c.state,Function.update c.threads t (.running call (code t call) []),false⟩
  | advance {c c' : Threads σ L Q A M F α C} (advance : Advance allowed c c') : Step code allowed c c'

def Reaches (code : Nat → C → Prog σ L Q A M F α) (allowed : σ → Q → A → Prop) : Threads σ L Q A M F α C →
    Threads σ L Q A M F α C → Prop :=
  Relation.ReflTransGen (Step code allowed)

/-- Some call has neither returned nor ended with an exception. -/
def Unfinished (c : Threads σ L Q A M F α C) : Prop :=
  c.stopped = false ∧ ∃ t call p h, c.threads t = .running call p h ∧ p ≠ .raise

/-- Every thread keeps the discipline from where it is, and no two hold one mutex. -/
structure Ordered (D : Discipline σ L Q A) (thrown : List L → Prop) (c : Threads σ L Q A M F α C) : Prop where
  kept : ∀ t call p h, c.threads t = .running call p h → keeps D p h [] thrown
  ranked : ∀ t, (c.threads t).held.Pairwise (fun l m => D.rank m < D.rank l)
  apart : ∀ t u l, l ∈ (c.threads t).held → l ∈ (c.threads u).held → t = u

section
variable {D : Discipline σ L Q A} {thrown : List L → Prop} {c c' : Threads σ L Q A M F α C}

theorem ordered_start (s : σ) : Ordered D thrown (start s : Threads σ L Q A M F α C) :=
  ⟨fun _ _ _ _ running => (nomatch running),fun _ => .nil,fun _ _ _ held => (nomatch held)⟩

/-- A thread put where it keeps the discipline, with mutexes that no other holds. -/
theorem Ordered.put (ordered : Ordered D thrown c) {t : Nat} {thread : Thread σ L Q A M F α C} (s : σ)
    (kept : ∀ call p h, thread = .running call p h → keeps D p h [] thrown)
    (ranked : thread.held.Pairwise (fun l m => D.rank m < D.rank l))
    (free : ∀ l ∈ thread.held, ∀ u, u ≠ t → l ∉ (c.threads u).held) :
    Ordered D thrown ⟨s,Function.update c.threads t thread,false⟩ := by
  have other : ∀ u, u ≠ t → Function.update c.threads t thread u = c.threads u := fun u ne => Function.update_of_ne ne ..
  refine ⟨fun u call p h running => ?_,fun u => ?_,fun u v l hu hv => ?_⟩
  · by_cases same : u = t
    · rw [same] at running
      simp only [Function.update_self] at running
      exact kept call p h running
    · simp only [other u same] at running
      exact ordered.kept u call p h running
  · by_cases same : u = t
    · rw [same]; simp only [Function.update_self]; exact ranked
    · simp only [other u same]; exact ordered.ranked u
  · by_cases same : u = t <;> by_cases same' : v = t
    · rw [same,same']
    · rw [same] at hu
      simp only [Function.update_self] at hu
      simp only [other v same'] at hv
      exact absurd hv (free l hu v same')
    · rw [same'] at hv
      simp only [Function.update_self] at hv
      simp only [other u same] at hu
      exact absurd hu (free l hv u same)
    · simp only [other u same] at hu
      simp only [other v same'] at hv
      exact ordered.apart u v l hu hv

theorem Ordered.advance (answers : ∀ s q a, allowed s q a → D.answers q a) (ordered : Ordered D thrown c)
    (advance : Advance allowed c c') : Ordered D thrown c' := by
  cases advance with
  | @move t call p p' h h' s' on running move free =>
    have kept := ordered.kept t call p h running
    have ranked : h.Pairwise (fun l m => D.rank m < D.rank l) := by
      have all := ordered.ranked t
      rwa [running] at all
    have others : ∀ l ∈ h, ∀ u, u ≠ t → l ∉ (c.threads u).held := fun l mem u ne held =>
      ne (ordered.apart u t l held (by rw [running]; exact mem))
    refine ordered.put s' (fun call' q g same => ?_) ?_ (fun l mem u ne => ?_)
    · cases same; exact keeps_move answers move kept
    · cases move with
      | act f k => exact ranked
      | ask k _ ok => exact ranked
      | lock k _ _ => exact List.pairwise_cons.mpr ⟨kept.1,ranked⟩
      | unlock k _ _ => exact ranked.sublist List.erase_sublist
      | mark m k => exact ranked
    · by_cases old : l ∈ h
      · exact others l old u ne
      · exact free l mem old u ne
  | @finish t call a on ended => exact ordered.put c.state (fun _ _ _ same => nomatch same) .nil (fun l mem => nomatch mem)
  | stop on failed => exact ⟨ordered.kept,ordered.ranked,ordered.apart⟩

theorem Ordered.step (answers : ∀ s q a, allowed s q a → D.answers q a)
    (codes : ∀ t call, keeps D (code t call) [] [] thrown) (ordered : Ordered D thrown c) (step : Step code allowed c c') :
    Ordered D thrown c' := by
  cases step with
  | @call t on idle call =>
    exact ordered.put c.state (fun call' p h same => by cases same; exact codes t call) .nil (fun l mem => nomatch mem)
  | advance advance => exact ordered.advance answers advance

theorem Reaches.ordered (answers : ∀ s q a, allowed s q a → D.answers q a)
    (codes : ∀ t call, keeps D (code t call) [] [] thrown) {s : σ} (reached : Reaches code allowed (start s) c) :
    Ordered D thrown c := by
  induction reached with
  | refl => exact ordered_start s
  | tail _ step ih => exact ih.step answers codes step

/-- The thread can go on in its call. -/
def Enabled (allowed : σ → Q → A → Prop) (c : Threads σ L Q A M F α C) (t : Nat) : Prop :=
  ∃ c', Advance allowed c c' ∧ c'.threads t ≠ c.threads t

/-- An operation leaves another program than there was, so the thread moves. -/
theorem enabled_of_move (on : c.stopped = false) {t : Nat} {call : C} {p p' : Prog σ L Q A M F α} {h h' : List L} {s' : σ}
    (running : c.threads t = .running call p h) (move : Move allowed (p,h,c.state) (p',h',s'))
    (free : ∀ l ∈ h', l ∉ h → ∀ u, u ≠ t → l ∉ (c.threads u).held) : Enabled allowed c t := by
  refine ⟨_,.move on running move free,fun same => ?_⟩
  rw [running] at same
  simp only [Function.update_self,Thread.running.injEq] at same
  exact move.ne same.2.1

/-- A thread in a call that has not failed can go on, or waits for a mutex that another
    thread holds. -/
theorem Ordered.enabled_or_waits (ordered : Ordered D (fun _ => False) c) (always : ∀ s q, ∃ a, allowed s q a)
    (on : c.stopped = false) {t : Nat} {call : C} {p : Prog σ L Q A M F α} {h : List L}
    (running : c.threads t = .running call p h) (sound : ∀ why, p ≠ .fail why) :
    Enabled allowed c t ∨ ∃ l k u, p = .lock l k ∧ u ≠ t ∧ l ∈ (c.threads u).held := by
  have kept := ordered.kept t call p h running
  have stays : ∀ l ∈ h, l ∉ h → ∀ u, u ≠ t → l ∉ (c.threads u).held := fun l mem new => absurd mem new
  cases p with
  | ret a =>
    have none : h = [] := kept
    rw [none] at running
    refine .inl ⟨_,.finish on running,fun same => ?_⟩
    rw [running] at same
    simp only [Function.update_self] at same
    cases same
  | raise => exact kept.elim
  | fail why => exact absurd rfl (sound why)
  | act f k => exact .inl (enabled_of_move on running (.act f k h c.state) stays)
  | ask q k =>
    obtain ⟨a,ok⟩ := always c.state q
    exact .inl (enabled_of_move on running (.ask k h ok) stays)
  | lock l k =>
    by_cases taken : ∃ u, u ≠ t ∧ l ∈ (c.threads u).held
    · obtain ⟨u,ne,held⟩ := taken
      exact .inr ⟨l,k,u,rfl,ne,held⟩
    · refine .inl (enabled_of_move on running (.lock k c.state (fun held => Nat.lt_irrefl _ (kept.1 l held)))
        (fun m mem new u ne held => ?_))
      rcases List.mem_cons.mp mem with rfl | old
      · exact taken ⟨u,ne,held⟩
      · exact new old
  | unlock l k =>
    exact .inl (enabled_of_move on running (.unlock k c.state kept.1)
      (fun m mem new => absurd (List.mem_of_mem_erase mem) new))
  | mark m k => exact .inl (enabled_of_move on running (.mark m k h c.state) stays)

/-- A thread in a call goes on, or waits for a mutex that another thread holds. -/
theorem Ordered.advances_or_waits (ordered : Ordered D (fun _ => False) c) (always : ∀ s q, ∃ a, allowed s q a)
    (on : c.stopped = false) {t : Nat} {call : C} {p : Prog σ L Q A M F α} {h : List L}
    (running : c.threads t = .running call p h) :
    (∃ c', Advance allowed c c') ∨ ∃ l k u, p = .lock l k ∧ u ≠ t ∧ l ∈ (c.threads u).held := by
  by_cases failed : ∃ why, p = .fail why
  · obtain ⟨why,rfl⟩ := failed
    exact .inl ⟨_,.stop on running⟩
  · rcases ordered.enabled_or_waits always on running (fun why is => failed ⟨why,is⟩) with ⟨c',advance,_⟩ | waits
    · exact .inl ⟨c',advance⟩
    · exact .inr waits

/-- A thread that holds a mutex goes on, or leads to one that holds a mutex of
    higher rank. -/
theorem Ordered.holder_advances (ordered : Ordered D (fun _ => False) c) (always : ∀ s q, ∃ a, allowed s q a) {top : Nat}
    (bounded : ∀ l, D.rank l ≤ top) (on : c.stopped = false) (n : Nat) :
    ∀ l u, l ∈ (c.threads u).held → top - D.rank l = n → ∃ c', Advance allowed c c' := by
  induction n using Nat.strongRecOn with
  | ind n ih =>
    intro l u held below
    cases here : c.threads u with
    | idle => rw [here] at held; cases held
    | running call p h =>
      rcases ordered.advances_or_waits always on here with advance | ⟨m,k,v,rfl,ne,held'⟩
      · exact advance
      · have higher := (ordered.kept u call _ h here).1 l (by rw [here] at held; exact held)
        have := bounded m
        exact ih _ (by omega) m v held' rfl

/-- While some call is unfinished, a thread in a call can go on. -/
theorem Ordered.advances (ordered : Ordered D (fun _ => False) c) (always : ∀ s q, ∃ a, allowed s q a) {top : Nat}
    (bounded : ∀ l, D.rank l ≤ top) (unfinished : c.Unfinished) : ∃ c', Advance allowed c c' := by
  obtain ⟨on,t,call,p,h,running,_⟩ := unfinished
  rcases ordered.advances_or_waits always on running with advance | ⟨l,k,u,rfl,ne,held⟩
  · exact advance
  · exact ordered.holder_advances always bounded on _ l u held rfl

/-- A thread in a call. -/
def at_ (c : Threads σ L Q A M F α C) (t : Nat) (call : C) (d : Prog σ L Q A M F α × List L × σ) : Threads σ L Q A M F α C :=
  ⟨d.2.2,Function.update c.threads t (.running call d.1 d.2.1),false⟩

omit [DecidableEq L] in
theorem at_thread (c : Threads σ L Q A M F α C) (t : Nat) (call : C) (d : Prog σ L Q A M F α × List L × σ) :
    (c.at_ t call d).threads t = .running call d.1 d.2.1 := Function.update_self ..

/-- A run of one thread, the others holding nothing, is a run of them all. -/
theorem reaches_of_run {t : Nat} {call : C} (others : ∀ u, u ≠ t → (c.threads u).held = [])
    {d e : Prog σ L Q A M F α × List L × σ} (run : Run allowed d e) : Reaches code allowed
    (c.at_ t call d) (c.at_ t call e) := by
  induction run with
  | refl => exact .refl
  | @tail d e _ move ih =>
    refine .tail ih (.advance ?_)
    have step := Advance.move (c := c.at_ t call d) (t := t) rfl (c.at_thread t call d) move (fun l _ _ u ne => ?_)
    · simpa only [at_,Function.update_idem] using step
    · simp only [at_,Function.update_of_ne ne,others u ne]
      exact List.not_mem_nil

end
end Threads
end
end TcAlloc
