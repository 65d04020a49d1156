import Mathlib.Logic.Relation
import Mathlib.Data.List.Basic

/-!
Programs of threads that share a state. A program is a tree of atomic actions
on the state, questions to the environment, and operations on mutexes, in the
order in which a thread performs them (`Prog`); it is a monad, so code reads as
it is written. The code of a component acts on the component's own part of the
state and is brought to the whole state along a lens (`Prog.zoom`). One thread
running alone moves from one operation to the next (`Move`, `Run`), and `exec`
computes such a run for given answers of the environment.
-/
namespace TcAlloc

/-- A program over the states `σ`, the mutexes `L`, the questions `Q` with
    answers `A`, the marks `M` and the faults `F`, returning an `α`. -/
inductive Prog (σ L Q A M F α : Type) where
  /-- The value the program returns. -/
  | ret (a : α)
  /-- An exception that leaves the program. -/
  | raise
  /-- A failed assertion or an access without meaning: nothing runs on. -/
  | fail (why : F)
  /-- An atomic action; what follows may look at the state before it. -/
  | act (f : σ → σ) (k : σ → Prog σ L Q A M F α)
  /-- A question to the environment. -/
  | ask (q : Q) (k : A → Prog σ L Q A M F α)
  | lock (l : L) (k : Prog σ L Q A M F α)
  | unlock (l : L) (k : Prog σ L Q A M F α)
  /-- A point of the program that an observer can name; it has no effect. -/
  | mark (m : M) (k : Prog σ L Q A M F α)

/-- A part `τ` of the states `σ`. -/
structure Lens (σ τ : Type) where
  get : σ → τ
  set : σ → τ → σ
  get_set : ∀ s t, get (set s t) = t
  set_get : ∀ s, set s (get s) = s
  set_set : ∀ s t u, set (set s t) u = set s u

namespace Prog
variable {σ τ L Q A M F α β γ : Type}

def bind (p : Prog σ L Q A M F α) (next : α → Prog σ L Q A M F β) : Prog σ L Q A M F β :=
  match p with
  | .ret a => next a
  | .raise => .raise
  | .fail why => .fail why
  | .act f k => .act f (fun s => (k s).bind next)
  | .ask q k => .ask q (fun a => (k a).bind next)
  | .lock l k => .lock l (k.bind next)
  | .unlock l k => .unlock l (k.bind next)
  | .mark m k => .mark m (k.bind next)

instance : Monad (Prog σ L Q A M F) where
  pure := .ret
  bind := bind

theorem bind_def (p : Prog σ L Q A M F α) (next : α → Prog σ L Q A M F β) : (p >>= next) = p.bind next := rfl
theorem pure_def (a : α) : (pure a : Prog σ L Q A M F α) = .ret a := rfl

theorem bind_bind (p : Prog σ L Q A M F α) (first : α → Prog σ L Q A M F β) (second : β → Prog σ L Q A M F γ) :
    (p.bind first).bind second = p.bind (fun a => (first a).bind second) := by
  induction p with
  | ret a => rfl
  | raise => rfl
  | fail why => rfl
  | act f k ih => simp only [bind,ih]
  | ask q k ih => simp only [bind,ih]
  | lock l k ih => simp only [bind,ih]
  | unlock l k ih => simp only [bind,ih]
  | mark m k ih => simp only [bind,ih]

/-- What an action changes in the state. -/
def modify (f : σ → σ) : Prog σ L Q A M F Unit := .act f (fun _ => .ret ())
/-- What an action reads from the state. -/
def read (g : σ → β) : Prog σ L Q A M F β := .act id (fun s => .ret (g s))
/-- One atomic action that may fail, in which case it leaves the state alone. -/
def step (g : σ → Except F (β × σ)) : Prog σ L Q A M F β :=
  .act (fun s => match g s with
    | .ok r => r.2
    | .error _ => s) (fun s => match g s with
    | .ok r => .ret r.1
    | .error why => .fail why)
/-- An assertion of the code. -/
def require (c : Prop) [Decidable c] (why : F) : Prog σ L Q A M F Unit := if c then .ret () else .fail why
/-- The environment's answer. -/
def answer (q : Q) : Prog σ L Q A M F A := .ask q .ret
/-- A named point. -/
def note (m : M) : Prog σ L Q A M F Unit := .mark m (.ret ())
def acquire (l : L) : Prog σ L Q A M F Unit := .lock l (.ret ())
def release (l : L) : Prog σ L Q A M F Unit := .unlock l (.ret ())

/-- The program with an exception leaving it only after `l` is unlocked. -/
def unlocking (l : L) : Prog σ L Q A M F α → Prog σ L Q A M F α
  | .ret a => .ret a
  | .raise => .unlock l .raise
  | .fail why => .fail why
  | .act f k => .act f (fun s => (k s).unlocking l)
  | .ask q k => .ask q (fun a => (k a).unlocking l)
  | .lock m k => .lock m (k.unlocking l)
  | .unlock m k => .unlock m (k.unlocking l)
  | .mark m k => .mark m (k.unlocking l)
/-- A block that holds `l` and gives it back however it ends. -/
def locked (l : L) (p : Prog σ L Q A M F α) : Prog σ L Q A M F α :=
  .lock l ((p.unlocking l).bind (fun a => .unlock l (.ret a)))

/-- A block between a lock and an unlock of `l` made by hand: an exception leaves
    the mutex locked. -/
def holding (l : L) (p : Prog σ L Q A M F α) : Prog σ L Q A M F α := .lock l (p.bind (fun a => .unlock l (.ret a)))

/-- The program of a part, on the whole state. -/
def zoom (lens : Lens σ τ) : Prog τ L Q A M F α → Prog σ L Q A M F α
  | .ret a => .ret a
  | .raise => .raise
  | .fail why => .fail why
  | .act f k => .act (fun s => lens.set s (f (lens.get s))) (fun s => (k (lens.get s)).zoom lens)
  | .ask q k => .ask q (fun a => (k a).zoom lens)
  | .lock l k => .lock l (k.zoom lens)
  | .unlock l k => .unlock l (k.zoom lens)
  | .mark m k => .mark m (k.zoom lens)

theorem zoom_bind (lens : Lens σ τ) (p : Prog τ L Q A M F α) (next : α → Prog τ L Q A M F β) :
    (p.bind next).zoom lens = (p.zoom lens).bind (fun a => (next a).zoom lens) := by
  induction p with
  | ret a => rfl
  | raise => rfl
  | fail why => rfl
  | act f k ih => simp only [bind,zoom,ih]
  | ask q k ih => simp only [bind,zoom,ih]
  | lock l k ih => simp only [bind,zoom,ih]
  | unlock l k ih => simp only [bind,zoom,ih]
  | mark m k ih => simp only [bind,zoom,ih]

theorem zoom_unlocking (lens : Lens σ τ) (l : L) (p : Prog τ L Q A M F α) : (p.unlocking l).zoom
    lens = (p.zoom lens).unlocking l := by
  induction p with
  | ret a => rfl
  | raise => rfl
  | fail why => rfl
  | act f k ih => simp only [unlocking,zoom,ih]
  | ask q k ih => simp only [unlocking,zoom,ih]
  | lock m k ih => simp only [unlocking,zoom,ih]
  | unlock m k ih => simp only [unlocking,zoom,ih]
  | mark m k ih => simp only [unlocking,zoom,ih]

/-- What a program that has come to its end returns. -/
def value? : Prog σ L Q A M F α → Option α
  | .ret a => some a
  | _ => none

theorem of_value {p : Prog σ L Q A M F α} {a : α} (returned : p.value? = some a) : p = .ret a := by
  cases p <;> cases returned
  rfl

theorem zoom_locked (lens : Lens σ τ) (l : L) (p : Prog τ L Q A M F α) : (p.locked l).zoom
    lens = (p.zoom lens).locked l := by
  simp only [locked,zoom,zoom_bind,zoom_unlocking]

end Prog

section
variable {σ L Q A M F α β : Type} [DecidableEq L]

/-- One operation of a thread that runs alone, with the mutexes it holds. The
    environment gives an answer that is allowed in the state. -/
inductive Move (allowed : σ → Q → A → Prop) :
    Prog σ L Q A M F α × List L × σ → Prog σ L Q A M F α × List L × σ → Prop
  | act (f : σ → σ) (k : σ → Prog σ L Q A M F α) (h : List L) (s : σ) :
      Move allowed (.act f k,h,s) (k s,h,f s)
  | ask {q : Q} {a : A} {s : σ} (k : A → Prog σ L Q A M F α) (h : List L) (ok : allowed s q a) :
      Move allowed (.ask q k,h,s) (k a,h,s)
  | lock {l : L} {h : List L} (k : Prog σ L Q A M F α) (s : σ) (free : l ∉ h) :
      Move allowed (.lock l k,h,s) (k,l :: h,s)
  | unlock {l : L} {h : List L} (k : Prog σ L Q A M F α) (s : σ) (held : l ∈ h) :
      Move allowed (.unlock l k,h,s) (k,h.erase l,s)
  | mark (m : M) (k : Prog σ L Q A M F α) (h : List L) (s : σ) :
      Move allowed (.mark m k,h,s) (k,h,s)

/-- An operation of a sequence is one of its first part, if that has not returned. -/
theorem Move.of_bind {allowed : σ → Q → A → Prop} {p : Prog σ L Q A M F α} {next : α → Prog σ L Q A M F β} {h h' : List L}
    {s s' : σ} {q : Prog σ L Q A M F β} (move : Move allowed (p.bind next,h,s) (q,h',s')) :
    (∃ a, p = .ret a ∧ Move allowed (next a,h,s) (q,h',s')) ∨
      ∃ p', q = p'.bind next ∧ Move allowed (p,h,s) (p',h',s') := by
  cases p with
  | ret a => exact .inl ⟨a,rfl,move⟩
  | raise => cases move
  | fail why => cases move
  | act f k => cases move; exact .inr ⟨k s,rfl,.act f k h s⟩
  | ask q k =>
    cases move with
    | @ask _ a _ _ _ ok => exact .inr ⟨k a,rfl,.ask k h ok⟩
  | lock l k =>
    cases move with
    | lock _ _ free => exact .inr ⟨k,rfl,.lock k s free⟩
  | unlock l k =>
    cases move with
    | unlock _ _ held => exact .inr ⟨k,rfl,.unlock k s held⟩
  | mark m k => cases move; exact .inr ⟨k,rfl,.mark m k h s⟩

/-- A run of a thread alone. -/
abbrev Run (allowed : σ → Q → A → Prop) :
    Prog σ L Q A M F α × List L × σ → Prog σ L Q A M F α × List L × σ → Prop :=
  Relation.ReflTransGen (Move allowed)

/-- The run that `answers` determine: where it stops, and the marks it passed
    with the states there. It stops at the end of the program, before an
    operation that is not enabled, and when the answers run out. -/
def exec (ok : σ → Q → A → Bool) : Prog σ L Q A M F α → List A → List L → σ →
    (Prog σ L Q A M F α × List L × σ) × List (M × σ)
  | .act f k, answers, h, s => exec ok (k s) answers h (f s)
  | .ask q k, a :: answers, h, s => if ok s q a then exec ok (k a) answers h s else ((.ask q k,h,s),[])
  | .lock l k, answers, h, s => if l ∈ h then ((.lock l k,h,s),[]) else exec ok k answers (l :: h) s
  | .unlock l k, answers, h, s => if l ∈ h then exec ok k answers (h.erase l) s else ((.unlock l k,h,s),[])
  | .mark m k, answers, h, s =>
    let rest := exec ok k answers h s
    (rest.1,(m,s) :: rest.2)
  | p, _, h, s => ((p,h,s),[])

/-- What `exec` computes is a run. -/
theorem exec_run {P : σ → Q → A → Prop} {c : σ → Q → A → Bool}
    (sound : ∀ s q a, c s q a = true → P s q a) (p : Prog σ L Q A M F α) :
    ∀ answers h s, Run P (p,h,s) (exec c p answers h s).1 := by
  induction p with
  | ret a => intro answers h s; exact .refl
  | raise => intro answers h s; exact .refl
  | fail why => intro answers h s; exact .refl
  | act f k ih => intro answers h s; exact .head (.act f k h s) (ih s answers h (f s))
  | ask q k ih =>
    intro answers h s
    cases answers with
    | nil => exact .refl
    | cons a rest =>
      by_cases good : c s q a = true
      · simp only [exec,good,if_true]
        exact .head (.ask k h (sound s q a good)) (ih a rest h s)
      · simp only [exec,good,if_false,Bool.false_eq_true]
        exact .refl
  | lock l k ih =>
    intro answers h s
    by_cases held : l ∈ h
    · simp only [exec,held,if_true]; exact .refl
    · simp only [exec,held,if_false]
      exact .head (.lock k s held) (ih answers (l :: h) s)
  | unlock l k ih =>
    intro answers h s
    by_cases held : l ∈ h
    · simp only [exec,held,if_true]
      exact .head (.unlock k s held) (ih answers (h.erase l) s)
    · simp only [exec,held,if_false]; exact .refl
  | mark m k ih => intro answers h s; exact .head (.mark m k h s) (ih answers h s)

/-- Every mark that `exec` reports is passed by a run. -/
theorem exec_marks {P : σ → Q → A → Prop} {c : σ → Q → A → Bool}
    (sound : ∀ s q a, c s q a = true → P s q a) (p : Prog σ L Q A M F α) :
    ∀ answers h s m t, (m,t) ∈ (exec c p answers h s).2 →
      ∃ k h', Run P (p,h,s) (.mark m k,h',t) := by
  induction p with
  | ret a => intro answers h s m t mem; simp [exec] at mem
  | raise => intro answers h s m t mem; simp [exec] at mem
  | fail why => intro answers h s m t mem; simp [exec] at mem
  | act f k ih =>
    intro answers h s m t mem
    obtain ⟨k',h',run⟩ := ih s answers h (f s) m t mem
    exact ⟨k',h',.head (.act f k h s) run⟩
  | ask q k ih =>
    intro answers h s m t mem
    cases answers with
    | nil => simp [exec] at mem
    | cons a rest =>
      by_cases good : c s q a = true
      · simp only [exec,good,if_true] at mem
        obtain ⟨k',h',run⟩ := ih a rest h s m t mem
        exact ⟨k',h',.head (.ask k h (sound s q a good)) run⟩
      · simp [exec,good] at mem
  | lock l k ih =>
    intro answers h s m t mem
    by_cases held : l ∈ h
    · simp [exec,held] at mem
    · simp only [exec,held,if_false] at mem
      obtain ⟨k',h',run⟩ := ih answers (l :: h) s m t mem
      exact ⟨k',h',.head (.lock k s held) run⟩
  | unlock l k ih =>
    intro answers h s m t mem
    by_cases held : l ∈ h
    · simp only [exec,held,if_true] at mem
      obtain ⟨k',h',run⟩ := ih answers (h.erase l) s m t mem
      exact ⟨k',h',.head (.unlock k s held) run⟩
    · simp [exec,held] at mem
  | mark m' k ih =>
    intro answers h s m t mem
    simp only [exec,List.mem_cons,Prod.mk.injEq] at mem
    rcases mem with ⟨rfl,rfl⟩ | later
    · exact ⟨k,h,.refl⟩
    · obtain ⟨k',h',run⟩ := ih answers h s m t later
      exact ⟨k',h',.head (.mark m' k h s) run⟩

end
end TcAlloc
