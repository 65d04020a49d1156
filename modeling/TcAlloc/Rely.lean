import TcAlloc.Logic

/-!
A thread among others. Between any two of its operations the others may change the
state, in the ways that it relies on (`Others`). `rely` is the weakest condition from
which every such run of a program goes on without a fault and returns as it should. A
program that runs alone comes to a configuration if no run of it misses it (`Comes`).
-/
namespace TcAlloc

/-- What the others may do to the state, once or many times. -/
structure Others (σ : Type) where
  may : σ → σ → Prop
  refl : ∀ s, may s s
  trans : ∀ {s s' s''}, may s s' → may s' s'' → may s s''

/-- There are no others. -/
def Others.none (σ : Type) : Others σ := ⟨Eq,fun _ => rfl,fun first second => first.trans second⟩

section
variable {σ L Q A M F α β : Type} [DecidableEq L]

/-- Every run of the program among the others goes without a fault, and returns in `post`
    whatever the others do until it is looked at. -/
def rely (allowed : σ → Q → A → Prop) (o : Others σ) :
    Prog σ L Q A M F α → List L → σ → (α → List L → σ → Prop) → Prop
  | .ret a, h, s, post => ∀ s', o.may s s' → post a h s'
  | .raise, _, _, _ => False
  | .fail _, _, _, _ => False
  | .act f k, h, s, post => ∀ s', o.may s s' → rely allowed o (k s') h (f s') post
  | .ask q k, h, s, post => ∀ s', o.may s s' → ∀ a, allowed s' q a → rely allowed o (k a) h s' post
  | .lock l k, h, s, post => l ∉ h ∧ rely allowed o k (l :: h) s post
  | .unlock l k, h, s, post => l ∈ h ∧ rely allowed o k (h.erase l) s post
  | .mark _ k, h, s, post => rely allowed o k h s post

variable {allowed : σ → Q → A → Prop} {o : Others σ} {h : List L} {s s' : σ} {post : α → List L → σ → Prop}

/-! ### Rules -/

/-- What the others do keeps the guarantee. -/
theorem rely_others {p : Prog σ L Q A M F α} (holds : rely allowed o p h s post) (may : o.may s s') :
    rely allowed o p h s' post := by
  induction p generalizing h with
  | ret a => exact fun t later => holds t (o.trans may later)
  | raise => exact holds
  | fail why => exact holds
  | act f k => exact fun t later => holds t (o.trans may later)
  | ask q k => exact fun t later => holds t (o.trans may later)
  | lock l k ih => exact ⟨holds.1,ih holds.2⟩
  | unlock l k ih => exact ⟨holds.1,ih holds.2⟩
  | mark m k ih => exact ih holds

/-- One operation of the thread keeps it too. -/
theorem rely_move {p p' : Prog σ L Q A M F α} {h' : List L} (move : Move allowed (p,h,s) (p',h',s'))
    (holds : rely allowed o p h s post) : rely allowed o p' h' s' post := by
  cases move with
  | act f k => exact holds s (o.refl s)
  | ask k _ ok => exact holds s (o.refl s) _ ok
  | lock k _ free => exact holds.2
  | unlock k _ held => exact holds.2
  | mark m k => exact holds

/-- What a program guarantees at its end, the next one begins with. -/
theorem rely_seq {p : Prog σ L Q A M F α} {next : α → Prog σ L Q A M F β} {then_ : β → List L → σ → Prop}
    (first : rely allowed o p h s post)
    (later : ∀ a h s, (∀ s', o.may s s' → post a h s') → rely allowed o (next a) h s then_) :
    rely allowed o (p >>= next) h s then_ := by
  rw [Prog.bind_def]
  induction p generalizing h s with
  | ret a => exact later a h s first
  | raise => exact first.elim
  | fail why => exact first.elim
  | act f k ih => exact fun t may => ih t (first t may)
  | ask q k ih => exact fun t may a ok => ih a (first t may a ok)
  | lock l k ih => exact ⟨first.1,ih first.2⟩
  | unlock l k ih => exact ⟨first.1,ih first.2⟩
  | mark m k ih => exact ih first

theorem rely_require {c : Prop} [Decidable c] {why : F} {next : Unit → Prog σ L Q A M F α} (holds : c)
    (later : rely allowed o (next ()) h s post) : rely allowed o (Prog.require c why >>= next) h s post := by
  rw [Prog.require,if_pos holds]
  exact later

theorem rely_step {g : σ → Except F (β × σ)} {next : β → Prog σ L Q A M F α}
    (later : ∀ s', o.may s s' → ∃ b t, g s' = .ok (b,t) ∧ rely allowed o (next b) h t post) :
    rely allowed o (Prog.step g >>= next) h s post := by
  intro s' may
  obtain ⟨b,t,runs,then_⟩ := later s' may
  simpa only [runs,Prog.bind] using then_

theorem rely_post {post' : α → List L → σ → Prop} {p : Prog σ L Q A M F α} (holds : rely allowed o p h s post)
    (ends : ∀ a h s, post a h s → post' a h s) : rely allowed o p h s post' := by
  induction p generalizing h s with
  | ret a => exact fun t may => ends a h t (holds t may)
  | raise => exact holds
  | fail why => exact holds
  | act f k ih => exact fun t may => ih t (holds t may)
  | ask q k ih => exact fun t may a ok => ih a (holds t may a ok)
  | lock l k ih => exact ⟨holds.1,ih holds.2⟩
  | unlock l k ih => exact ⟨holds.1,ih holds.2⟩
  | mark m k ih => exact ih holds

/-- Every run of the thread alone comes to the configuration `d`. -/
inductive Comes (allowed : σ → Q → A → Prop) (d : Prog σ L Q A M F α × List L × σ) :
    Prog σ L Q A M F α × List L × σ → Prop
  | here : Comes allowed d d
  | on {c : Prog σ L Q A M F α × List L × σ} (some : ∃ c', Move allowed c c')
      (all : ∀ c', Move allowed c c' → Comes allowed d c') : Comes allowed d c

variable {d : Prog σ L Q A M F α × List L × σ}

theorem Comes.act {f : σ → σ} {k : σ → Prog σ L Q A M F α} (comes : Comes allowed d (k s,h,f s)) :
    Comes allowed d (.act f k,h,s) :=
  .on ⟨_,.act f k h s⟩ (fun _ move => by cases move; exact comes)

theorem Comes.require {c : Prop} [Decidable c] {why : F} {next : Unit → Prog σ L Q A M F α} (holds : c)
    (comes : Comes allowed d (next (),h,s)) : Comes allowed d (Prog.require c why >>= next,h,s) := by
  rw [Prog.require,if_pos holds]
  exact comes

theorem Comes.step {g : σ → Except F (β × σ)} {next : β → Prog σ L Q A M F α} {b : β} {t : σ} (runs : g s = .ok (b,t))
    (comes : Comes allowed d (next b,h,t)) : Comes allowed d (Prog.step g >>= next,h,s) := by
  apply Comes.act
  simpa only [runs,Prog.bind] using comes

end
end TcAlloc
