import Mathlib.Logic.Relation
import Mathlib.Data.List.Induction

/-!
Transition systems whose steps show a label or nothing. One system simulates another
if it can follow each of its steps (`System.Simulates`); it then shows whatever the
other shows. A client runs over a server with which it shares labels (`System.atop`),
and two systems with the same labels run together (`System.beside`). Both ways of
putting systems together keep simulations, so what is proved of a client over an
abstract server holds over every server that the abstract one simulates.
-/
namespace TcAlloc

/-- A system over the states `σ`: how it starts, and its steps. -/
structure System (Λ σ : Type) where
  init : σ → Prop
  step : σ → Option Λ → σ → Prop

namespace System
variable {Λ Μ Ν σ τ κ δ ε : Type} {S : System Λ σ} {T : System Λ τ}

/-- A run, and the labels that it shows. -/
inductive Runs (S : System Λ σ) (s : σ) : List Λ → σ → Prop
  | refl : Runs S s [] s
  | silent {shown : List Λ} {s' s'' : σ} (before : Runs S s shown s') (step : S.step s' none s'') : Runs S s shown s''
  | shows {shown : List Λ} {s' s'' : σ} {a : Λ} (before : Runs S s shown s') (step : S.step s' (some a) s'') :
      Runs S s (shown ++ [a]) s''

/-- The labels of a run from a start. -/
def Shows (S : System Λ σ) (shown : List Λ) : Prop := ∃ s s', S.init s ∧ S.Runs s shown s'
def Reaches (S : System Λ σ) (s' : σ) : Prop := ∃ s shown, S.init s ∧ S.Runs s shown s'

/-- Steps that show nothing. -/
abbrev Silently (S : System Λ σ) : σ → σ → Prop := Relation.ReflTransGen (fun s s' => S.step s none s')

theorem Runs.trans {s s' s'' : σ} {first second : List Λ} (before : S.Runs s first s') (after : S.Runs s' second s'') :
    S.Runs s (first ++ second) s'' := by
  induction after with
  | refl => rw [List.append_nil]; exact before
  | silent _ step ih => exact ih.silent step
  | shows _ step ih => rw [← List.append_assoc]; exact ih.shows step

theorem Runs.of_silently {s s' : σ} (run : S.Silently s s') : S.Runs s [] s' := by
  induction run with
  | refl => exact .refl
  | tail _ step ih => exact ih.silent step

theorem Runs.silently {s s' s'' : σ} {shown : List Λ} (before : S.Runs s shown s') (run : S.Silently s' s'') :
    S.Runs s shown s'' :=
  List.append_nil shown ▸ before.trans (.of_silently run)

/-- A run that shows nothing. -/
theorem Runs.shown_nil {s s' : σ} (run : S.Runs s [] s') : S.Silently s s' := by
  generalize nothing : ([] : List Λ) = shown at run
  induction run with
  | refl => exact .refl
  | silent _ step ih => exact (ih nothing).tail step
  | shows => exact absurd nothing.symm (List.append_ne_nil_of_right_ne_nil _ (List.cons_ne_nil _ _))

/-- In a run that shows `a` last there is a step that shows it, and silent ones after it. -/
theorem Runs.shown_last {s s'' : σ} {shown : List Λ} {a : Λ} (run : S.Runs s (shown ++ [a]) s'') :
    ∃ s₁ s₂, S.Runs s shown s₁ ∧ S.step s₁ (some a) s₂ ∧ S.Silently s₂ s'' := by
  generalize whole : shown ++ [a] = labels at run
  induction run with
  | refl => exact absurd whole (List.append_ne_nil_of_right_ne_nil _ (List.cons_ne_nil _ _))
  | silent _ step ih =>
    obtain ⟨s₁,s₂,before,last,rest⟩ := ih whole
    exact ⟨s₁,s₂,before,last,rest.tail step⟩
  | shows before step =>
    obtain ⟨same,last⟩ := List.append_inj' whole rfl
    cases same
    cases last
    exact ⟨_,_,before,step,.refl⟩

/-- What the starts have and every step keeps. -/
theorem Reaches.keeps {P : σ → Prop} {s : σ} (reached : S.Reaches s) (start : ∀ s, S.init s → P s)
    (kept : ∀ s a s', P s → S.step s a s' → P s') : P s := by
  obtain ⟨s₀,shown,init,run⟩ := reached
  induction run with
  | refl => exact start _ init
  | silent _ step ih => exact kept _ _ _ ih step
  | shows _ step ih => exact kept _ _ _ ih step

/-- The same, of what has been shown too. -/
theorem Runs.keeps {P : List Λ → σ → Prop} {s s' : σ} {shown : List Λ} (run : S.Runs s shown s') (start : P [] s)
    (kept : ∀ shown s a s', P shown s → S.step s a s' → P (shown ++ a.toList) s') : P shown s' := by
  induction run with
  | refl => exact start
  | @silent shown _ _ _ step ih =>
    have next := kept _ _ _ _ ih step
    rwa [Option.toList_none,List.append_nil] at next
  | shows _ step ih => exact kept _ _ _ _ ih step

theorem Reaches.start {s : σ} (init : S.init s) : S.Reaches s := ⟨s,[],init,.refl⟩

theorem Reaches.step {s s' : σ} {a : Option Λ} (reached : S.Reaches s) (step : S.step s a s') : S.Reaches s' := by
  obtain ⟨s₀,shown,init,run⟩ := reached
  cases a with
  | none => exact ⟨s₀,shown,init,run.silent step⟩
  | some a => exact ⟨s₀,_,init,run.shows step⟩

theorem Reaches.silently {s s' : σ} (reached : S.Reaches s) (run : S.Silently s s') : S.Reaches s' := by
  induction run with
  | refl => exact reached
  | tail _ step ih => exact ih.step step

/-! ### Simulations -/

/-- `T` follows `S`, from states related by `R` to such states. -/
structure Simulates (S : System Λ σ) (T : System Λ τ) (R : σ → τ → Prop) : Prop where
  start : ∀ s, S.init s → ∃ t, T.init t ∧ R s t
  silent : ∀ s t s', R s t → S.step s none s' → ∃ t', T.Silently t t' ∧ R s' t'
  shown : ∀ s t a s', R s t → S.step s (some a) s' → ∃ t', T.step t (some a) t' ∧ R s' t'

theorem Simulates.runs {R : σ → τ → Prop} (sim : Simulates S T R) {s s' : σ} {t : τ} {shown : List Λ} (related : R s t)
    (run : S.Runs s shown s') : ∃ t', T.Runs t shown t' ∧ R s' t' := by
  induction run with
  | refl => exact ⟨t,.refl,related⟩
  | @silent shown _ _ _ step ih =>
    obtain ⟨t₁,run₁,related₁⟩ := ih
    obtain ⟨t₂,run₂,related₂⟩ := sim.silent _ _ _ related₁ step
    exact ⟨t₂,run₁.silently run₂,related₂⟩
  | shows _ step ih =>
    obtain ⟨t₁,run₁,related₁⟩ := ih
    obtain ⟨t₂,step₂,related₂⟩ := sim.shown _ _ _ _ related₁ step
    exact ⟨t₂,run₁.shows step₂,related₂⟩

/-- Everything that `S` shows `T` shows too. -/
theorem Simulates.shows {R : σ → τ → Prop} (sim : Simulates S T R) {shown : List Λ} (shows_ : S.Shows shown) :
    T.Shows shown := by
  obtain ⟨s,s',init,run⟩ := shows_
  obtain ⟨t,init',related⟩ := sim.start s init
  obtain ⟨t',run',_⟩ := sim.runs related run
  exact ⟨t,t',init',run'⟩

theorem Simulates.reaches {R : σ → τ → Prop} (sim : Simulates S T R) {s : σ} (reached : S.Reaches s) :
    ∃ t, T.Reaches t ∧ R s t := by
  obtain ⟨s₀,shown,init,run⟩ := reached
  obtain ⟨t₀,init',related⟩ := sim.start s₀ init
  obtain ⟨t,run',related'⟩ := sim.runs related run
  exact ⟨t,⟨t₀,shown,init',run'⟩,related'⟩

theorem Simulates.refl (S : System Λ σ) : Simulates S S Eq where
  start s init := ⟨s,init,rfl⟩
  silent := by rintro s _ s' rfl step; exact ⟨s',.single step,rfl⟩
  shown := by rintro s _ a s' rfl step; exact ⟨s',step,rfl⟩

theorem Simulates.silently {R : σ → τ → Prop} (sim : Simulates S T R) {s s' : σ} {t : τ} (related : R s t)
    (run : S.Silently s s') : ∃ t', T.Silently t t' ∧ R s' t' := by
  induction run with
  | refl => exact ⟨t,.refl,related⟩
  | tail _ step ih =>
    obtain ⟨t₁,run₁,related₁⟩ := ih
    obtain ⟨t₂,run₂,related₂⟩ := sim.silent _ _ _ related₁ step
    exact ⟨t₂,run₁.trans run₂,related₂⟩

theorem Simulates.trans {U : System Λ κ} {R : σ → τ → Prop} {R' : τ → κ → Prop} (first : Simulates S T R)
    (second : Simulates T U R') : Simulates S U (fun s u => ∃ t, R s t ∧ R' t u) where
  start := by
    intro s init
    obtain ⟨t,init',related⟩ := first.start s init
    obtain ⟨u,init'',related'⟩ := second.start t init'
    exact ⟨u,init'',t,related,related'⟩
  silent := by
    rintro s u s' ⟨t,related,related'⟩ step
    obtain ⟨t',run,after⟩ := first.silent _ _ _ related step
    obtain ⟨u',run',after'⟩ := second.silently related' run
    exact ⟨u',run',t',after,after'⟩
  shown := by
    rintro s u a s' ⟨t,related,related'⟩ step
    obtain ⟨t',step',after⟩ := first.shown _ _ _ _ related step
    obtain ⟨u',step'',after'⟩ := second.shown _ _ _ _ related' step'
    exact ⟨u',step'',t',after,after'⟩

/-! ### A system from one of its states on -/

/-- The system goes on from `s`, and what it shows has other names. -/
def later (S : System Λ σ) (name : Μ → Λ) (s : σ) : System Μ σ where
  init s' := s' = s
  step s' a s'' := S.step s' (a.map name) s''

theorem Runs.later {name : Μ → Λ} {shown : List Μ} {s s' s₀ : σ} (run : S.Runs s (shown.map name) s') :
    (S.later name s₀).Runs s shown s' := by
  induction shown using List.reverseRecOn generalizing s' with
  | nil =>
    refine .of_silently (Relation.ReflTransGen.mono (fun _ _ step => ?_) _ _ run.shown_nil)
    exact step
  | append_singleton shown a ih =>
    rw [List.map_append,List.map_singleton] at run
    obtain ⟨s₁,s₂,before,last,rest⟩ := run.shown_last
    have step : (S.later name s₀).step s₁ (some a) s₂ := last
    exact ((ih before).shows step).silently (Relation.ReflTransGen.mono (fun _ _ step => step) _ _ rest)

theorem Simulates.later {R : σ → τ → Prop} (sim : Simulates S T R) {s : σ} {t : τ} (related : R s t) (name : Μ → Λ) :
    Simulates (S.later name s) (T.later name t) R where
  start := by
    rintro _ rfl
    exact ⟨t,rfl,related⟩
  silent s t s' related step := sim.silent s t s' related step
  shown s t a s' related step := sim.shown s t (name a) s' related step

/-! ### Loops -/

/-- A loop is run to its end if each of its rounds can be. -/
theorem silently_loop {P : Nat → σ → Prop} {i n : Nat}
    (body : ∀ j s, j < i + n → P j s → ∃ s', S.Silently s s' ∧ P (j + 1) s') {s : σ} (start : P i s) :
    ∃ s', S.Silently s s' ∧ P (i + n) s' := by
  induction n with
  | zero => exact ⟨s,.refl,start⟩
  | succ n ih =>
    obtain ⟨s₁,rounds,before⟩ := ih (fun j s less => body j s (by omega))
    obtain ⟨s₂,round,last⟩ := body (i + n) s₁ (by omega) before
    exact ⟨s₂,rounds.trans round,last⟩

/-! ### A client over a server -/

/-- A step of the client, or of the server, or one of both that shows the same. -/
inductive AtopStep (C : System (Λ ⊕ Μ) κ) (S : System Λ σ) : κ × σ → Option Μ → κ × σ → Prop
  | client {c c' : κ} {s : σ} (step : C.step c none c') : AtopStep C S (c,s) none (c',s)
  | server {c : κ} {s s' : σ} (step : S.step s none s') : AtopStep C S (c,s) none (c,s')
  | both {c c' : κ} {s s' : σ} {a : Λ} (first : C.step c (some (.inl a)) c') (second : S.step s (some a) s') :
      AtopStep C S (c,s) none (c',s')
  | shows {c c' : κ} {s : σ} {m : Μ} (step : C.step c (some (.inr m)) c') : AtopStep C S (c,s) (some m) (c',s)

/-- The client over the server: the labels they share are not shown any more. -/
def atop (C : System (Λ ⊕ Μ) κ) (S : System Λ σ) : System Μ (κ × σ) where
  init x := C.init x.1 ∧ S.init x.2
  step := AtopStep C S

/-- A step over a server that goes on does not depend on where that has gone on from. -/
theorem atop_later {C : System (Λ ⊕ Μ) κ} {S : System Ν σ} {name : Λ → Ν} {s₀ s₁ : σ} {x y : κ × σ} {a : Option Μ}
    (step : (C.atop (S.later name s₀)).step x a y) : (C.atop (S.later name s₁)).step x a y := by
  cases step with
  | client step => exact .client step
  | server step => exact .server step
  | both first second => exact .both first second
  | shows step => exact .shows step

/-- Under any client the server goes on as it does alone. -/
theorem atop_serves {C : System (Λ ⊕ Μ) κ} {S : System Ν σ} {name : Λ → Ν} {s₀ : σ} {x y : κ × σ} {a : Option Μ}
    (step : (C.atop (S.later name s₀)).step x a y) (reached : S.Reaches x.2) : S.Reaches y.2 := by
  cases step with
  | client step => exact reached
  | server step => exact reached.step step
  | both first second => exact reached.step second
  | shows step => exact reached

/-- A silent run of the server is one of both. -/
theorem over_silently (C : System (Λ ⊕ Μ) κ) (c : κ) {s s' : σ} (run : S.Silently s s') :
    (C.atop S).Silently (c,s) (c,s') := by
  induction run with
  | refl => exact .refl
  | tail _ step ih => exact ih.tail (.server step)

/-- A run of the client, and one of the server in which it shows what the client shares with it. -/
theorem Runs.atop {C : System (Λ ⊕ Μ) κ} {c c' : κ} {s s' : σ} {labels : List (Λ ⊕ Μ)} (client : C.Runs c labels c')
    (server : S.Runs s (labels.filterMap Sum.getLeft?) s') :
    (C.atop S).Runs (c,s) (labels.filterMap Sum.getRight?) (c',s') := by
  induction client generalizing s' with
  | refl => exact .of_silently (over_silently C _ server.shown_nil)
  | silent _ step ih => exact (ih server).silent (.client step)
  | @shows labels _ _ a _ step ih =>
    rw [List.filterMap_append] at server ⊢
    cases a with
    | inl a =>
      obtain ⟨s₁,s₂,before,last,rest⟩ := server.shown_last
      have both : (C.atop S).Runs _ (labels.filterMap Sum.getRight?) _ := (ih before).silent (.both step last)
      rw [show [Sum.inl a].filterMap (Sum.getRight? (α := Λ) (β := Μ)) = [] from rfl,List.append_nil]
      exact both.silently (over_silently C _ rest)
    | inr m =>
      rw [show [Sum.inr m].filterMap (Sum.getLeft? (α := Λ) (β := Μ)) = [] from rfl,List.append_nil] at server
      exact (ih server).shows (.shows step)

/-- Over a server that simulates another one a client does what it does over that one. -/
theorem Simulates.atop {R : σ → τ → Prop} (sim : Simulates S T R) (C : System (Λ ⊕ Μ) κ) :
    Simulates (C.atop S) (C.atop T) (fun x y => x.1 = y.1 ∧ R x.2 y.2) where
  start := by
    rintro ⟨c,s⟩ ⟨init,init'⟩
    obtain ⟨t,start,related⟩ := sim.start s init'
    exact ⟨(c,t),⟨init,start⟩,rfl,related⟩
  silent := by
    rintro _ ⟨_,t⟩ _ ⟨rfl,related⟩ step
    cases step with
    | client step => exact ⟨(_,t),.single (.client step),rfl,related⟩
    | server step =>
      obtain ⟨t',run,related'⟩ := sim.silent _ _ _ related step
      exact ⟨(_,t'),over_silently C _ run,rfl,related'⟩
    | both first second =>
      obtain ⟨t',step',related'⟩ := sim.shown _ _ _ _ related second
      exact ⟨(_,t'),.single (.both first step'),rfl,related'⟩
  shown := by
    rintro _ ⟨_,t⟩ m _ ⟨rfl,related⟩ step
    cases step with
    | shows step => exact ⟨(_,t),.shows step,rfl,related⟩

/-! ### Two systems together -/

/-- A silent step of one of two systems, or one of both that shows the same. -/
inductive BesideStep (D : System Λ δ) (S : System Λ σ) : δ × σ → Option Λ → δ × σ → Prop
  | left {d d' : δ} {s : σ} (step : D.step d none d') : BesideStep D S (d,s) none (d',s)
  | right {d : δ} {s s' : σ} (step : S.step s none s') : BesideStep D S (d,s) none (d,s')
  | both {d d' : δ} {s s' : σ} {a : Λ} (first : D.step d (some a) d') (second : S.step s (some a) s') :
      BesideStep D S (d,s) (some a) (d',s')

/-- The two systems side by side, each showing only what the other one shows too. -/
def beside (D : System Λ δ) (S : System Λ σ) : System Λ (δ × σ) where
  init x := D.init x.1 ∧ S.init x.2
  step := BesideStep D S

theorem beside_later {D : System Μ δ} {C : System (Λ ⊕ Μ) κ} {S : System Ν σ} {name : Λ → Ν} {s₀ s₁ : σ}
    {x y : δ × κ × σ} {a : Option Μ} (step : (D.beside (C.atop (S.later name s₀))).step x a y) :
    (D.beside (C.atop (S.later name s₁))).step x a y := by
  cases step with
  | left step => exact .left step
  | right step => exact .right (atop_later step)
  | both first second => exact .both first (atop_later second)

theorem beside_serves {D : System Μ δ} {C : System (Λ ⊕ Μ) κ} {S : System Ν σ} {name : Λ → Ν} {s₀ : σ}
    {x y : δ × κ × σ} {a : Option Μ} (step : (D.beside (C.atop (S.later name s₀))).step x a y) (reached : S.Reaches x.2.2) :
    S.Reaches y.2.2 := by
  cases step with
  | left step => exact reached
  | right step => exact atop_serves step reached
  | both first second => exact atop_serves second reached

theorem beside_silently {D : System Λ δ} {d d' : δ} {s s' : σ} (left : D.Silently d d') (right : S.Silently s s') :
    (D.beside S).Silently (d,s) (d',s') := by
  have first : (D.beside S).Silently (d,s) (d',s) := by
    induction left with
    | refl => exact .refl
    | tail _ step ih => exact ih.tail (.left step)
  refine first.trans ?_
  clear first left
  induction right with
  | refl => exact .refl
  | tail _ step ih => exact ih.tail (.right step)

/-- Runs of two systems that show the same. -/
theorem Runs.beside {D : System Λ δ} {d d' : δ} {s s' : σ} {shown : List Λ} (left : D.Runs d shown d')
    (right : S.Runs s shown s') : (D.beside S).Runs (d,s) shown (d',s') := by
  induction left generalizing s' with
  | refl => exact .of_silently (beside_silently .refl right.shown_nil)
  | silent _ step ih => exact (ih right).silent (.left step)
  | shows _ step ih =>
    obtain ⟨s₁,s₂,before,last,rest⟩ := right.shown_last
    exact ((ih before).shows (.both step last)).silently (beside_silently .refl rest)

theorem Simulates.beside {D : System Λ δ} {E : System Λ ε} {Q : δ → ε → Prop} {R : σ → τ → Prop} (left : Simulates D E Q)
    (right : Simulates S T R) : Simulates (D.beside S) (E.beside T) (fun x y => Q x.1 y.1 ∧ R x.2 y.2) where
  start := by
    rintro ⟨d,s⟩ ⟨init,init'⟩
    obtain ⟨e,start,related⟩ := left.start d init
    obtain ⟨t,start',related'⟩ := right.start s init'
    exact ⟨(e,t),⟨start,start'⟩,related,related'⟩
  silent := by
    rintro _ ⟨e,t⟩ _ ⟨related,related'⟩ step
    cases step with
    | left step =>
      obtain ⟨e',run,after⟩ := left.silent _ _ _ related step
      exact ⟨(e',t),beside_silently run .refl,after,related'⟩
    | right step =>
      obtain ⟨t',run,after⟩ := right.silent _ _ _ related' step
      exact ⟨(e,t'),beside_silently .refl run,related,after⟩
  shown := by
    rintro _ ⟨e,t⟩ a _ ⟨related,related'⟩ step
    cases step with
    | both first second =>
      obtain ⟨e',first',after⟩ := left.shown _ _ _ _ related first
      obtain ⟨t',second',after'⟩ := right.shown _ _ _ _ related' second
      exact ⟨(e',t'),.both first' second',after,after'⟩

end System
end TcAlloc
