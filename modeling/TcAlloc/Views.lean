import TcAlloc.Logic
import TcAlloc.Discipline

/-!
What a thread does to a part of the state that is its own. The other threads may change
everything else between any two of its operations, so a program is followed on that part
alone, with any rest (`tracks`). Where the thread holds no mutex the state is one of those
that the whole system has between critical sections, and what holds of all of them may be
used there. A program that does not touch the part needs no other proof than that
(`Prog.Spares`).
-/
namespace TcAlloc

/-- A part of the state, what holds of the state between critical sections, and what the
    part is always like. -/
structure View (σ π : Type) where
  part : σ → π
  settled : σ → Prop
  always : π → Prop

section
variable {σ τ π L Q A M F α β : Type} {V : View σ π}

/-! ### Programs that leave the part alone -/

/-- The program leaves the part as it is, and what it returns is in `R`. -/
def Prog.Spares (V : View σ π) (R : α → Prop) : Prog σ L Q A M F α → Prop
  | .ret a => R a
  | .raise => True
  | .fail _ => True
  | .act f k => ∀ s, V.part (f s) = V.part s ∧ (k s).Spares V R
  | .ask _ k => ∀ a, (k a).Spares V R
  | .lock _ k => k.Spares V R
  | .unlock _ k => k.Spares V R
  | .mark _ k => k.Spares V R

namespace Prog
variable {R : α → Prop} {R' : β → Prop}

theorem spares_pure {a : α} (good : R a) : Spares V R (pure a : Prog σ L Q A M F α) := good

theorem spares_require (c : Prop) [Decidable c] (why : F) : Spares V (fun _ => c) (require c why : Prog σ L Q A M F Unit) := by
  by_cases holds : c <;> simp [require,holds,Spares]

theorem spares_read {g : σ → β} (good : ∀ s, R' (g s)) : Spares V R' (read g : Prog σ L Q A M F β) := fun s => ⟨rfl,good s⟩

theorem spares_modify {f : σ → σ} (same : ∀ s, V.part (f s) = V.part s) :
    Spares V (fun _ => True) (modify f : Prog σ L Q A M F Unit) := fun s => ⟨same s,trivial⟩

theorem spares_step {g : σ → Except F (β × σ)} (good : ∀ s b s', g s = .ok (b,s') → V.part s' = V.part s ∧ R' b) :
    Spares V R' (step g : Prog σ L Q A M F β) := by
  intro s
  dsimp only
  split
  · next r runs => exact good s r.1 r.2 runs
  · exact ⟨rfl,trivial⟩

theorem Spares.bind {p : Prog σ L Q A M F α} {next : α → Prog σ L Q A M F β} (first : p.Spares V R)
    (later : ∀ a, R a → (next a).Spares V R') : (p.bind next).Spares V R' := by
  induction p with
  | ret a => exact later a first
  | raise => trivial
  | fail why => trivial
  | act f k ih => exact fun s => ⟨(first s).1,ih s (first s).2⟩
  | ask q k ih => exact fun a => ih a (first a)
  | lock l k ih => exact ih first
  | unlock l k ih => exact ih first
  | mark m k ih => exact ih first

theorem Spares.seq {p : Prog σ L Q A M F α} {next : α → Prog σ L Q A M F β} (first : p.Spares V R)
    (later : ∀ a, R a → (next a).Spares V R') : (p >>= next).Spares V R' := first.bind later

theorem Spares.mono {p : Prog σ L Q A M F α} {R' : α → Prop} (spares : p.Spares V R) (less : ∀ a, R a → R' a) :
    p.Spares V R' := by
  induction p with
  | ret a => exact less a spares
  | raise => trivial
  | fail why => trivial
  | act f k ih => exact fun s => ⟨(spares s).1,ih s (spares s).2⟩
  | ask q k ih => exact fun a => ih a (spares a)
  | lock l k ih => exact ih spares
  | unlock l k ih => exact ih spares
  | mark m k ih => exact ih spares

theorem spares_if {c : Prop} [Decidable c] {p q : Prog σ L Q A M F α} (yes : c → p.Spares V R) (no : ¬ c → q.Spares V R) :
    (if c then p else q).Spares V R := by
  by_cases holds : c
  · rw [if_pos holds]; exact yes holds
  · rw [if_neg holds]; exact no holds

/-- The program of a part that the view does not see. -/
theorem spares_zoom (lens : Lens σ τ) (unseen : ∀ s t, V.part (lens.set s t) = V.part s) (p : Prog τ L Q A M F α) :
    (p.zoom lens).Spares V (fun _ => True) := by
  induction p with
  | ret a => trivial
  | raise => trivial
  | fail why => trivial
  | act f k ih => exact fun s => ⟨unseen s _,ih _⟩
  | ask q k ih => exact fun a => ih a
  | lock l k ih => exact ih
  | unlock l k ih => exact ih
  | mark m k ih => exact ih

end Prog
end

section
variable {σ π L Q A M F α β : Type} [DecidableEq L]

/-- However the rest of the state changes meanwhile, the part is always as it should be,
    and where the program returns the part and the mutexes held are as in `post`. -/
def tracks (V : View σ π) : Prog σ L Q A M F α → List L → π → (α → List L → π → Prop) → Prop
  | .ret a, h, x, post => post a h x
  | .raise, _, _, _ => True
  | .fail _, _, _, _ => True
  | .act f k, h, x, post => ∀ s, V.part s = x → V.always x → (h = [] → V.settled s ∧ V.settled (f s)) →
      V.always (V.part (f s)) ∧ tracks V (k s) h (V.part (f s)) post
  | .ask _ k, h, x, post => ∀ a, tracks V (k a) h x post
  | .lock l k, h, x, post => tracks V k (l :: h) x post
  | .unlock l k, h, x, post => tracks V k (h.erase l) x post
  | .mark _ k, h, x, post => tracks V k h x post

variable {V : View σ π} {h : List L} {x : π} {post post' : α → List L → π → Prop}

/-! ### Rules -/

@[simp] theorem tracks_ret (a : α) : tracks V (.ret a : Prog σ L Q A M F α) h x post ↔ post a h x := Iff.rfl
@[simp] theorem tracks_pure (a : α) : tracks V (pure a : Prog σ L Q A M F α) h x post ↔ post a h x := Iff.rfl

theorem tracks_require {post : Unit → List L → π → Prop} (c : Prop) [Decidable c] (why : F) (then_ : c → post () h x) :
    tracks V (Prog.require c why : Prog σ L Q A M F Unit) h x post := by
  by_cases holds : c
  · simpa [Prog.require,holds] using then_ holds
  · simp [Prog.require,holds,tracks]

theorem tracks_read {g : σ → β} {post : β → List L → π → Prop}
    (then_ : ∀ s, V.part s = x → (h = [] → V.settled s) → post (g s) h x) :
    tracks V (Prog.read g : Prog σ L Q A M F β) h x post := by
  intro s same good settled
  cases same
  exact ⟨good,then_ s rfl (fun none => (settled none).1)⟩

theorem tracks_modify {f : σ → σ} {post : Unit → List L → π → Prop}
    (then_ : ∀ s, V.part s = x → V.always x → (h = [] → V.settled s ∧ V.settled (f s)) →
      V.always (V.part (f s)) ∧ post () h (V.part (f s))) :
    tracks V (Prog.modify f : Prog σ L Q A M F Unit) h x post := then_

theorem tracks_step {g : σ → Except F (β × σ)} {post : β → List L → π → Prop}
    (then_ : ∀ s b s', V.part s = x → V.always x → (h = [] → V.settled s) → g s = .ok (b,s') →
      V.always (V.part s') ∧ post b h (V.part s')) : tracks V (Prog.step g : Prog σ L Q A M F β) h x post := by
  intro s same good settled
  dsimp only
  split
  · next r runs => exact then_ s r.1 r.2 same good (fun none => (settled none).1) runs
  · rw [same]; exact ⟨good,trivial⟩

theorem tracks_bind (p : Prog σ L Q A M F α) (next : α → Prog σ L Q A M F β) {post : β → List L → π → Prop} :
    tracks V (p.bind next) h x post ↔ tracks V p h x (fun a h' y => tracks V (next a) h' y post) := by
  induction p generalizing h x with
  | ret a => rfl
  | raise => rfl
  | fail why => rfl
  | act f k ih => simp only [Prog.bind,tracks,ih]
  | ask q k ih => simp only [Prog.bind,tracks,ih]
  | lock l k ih => simp only [Prog.bind,tracks,ih]
  | unlock l k ih => simp only [Prog.bind,tracks,ih]
  | mark m k ih => simp only [Prog.bind,tracks,ih]

theorem tracks_seq (p : Prog σ L Q A M F α) (next : α → Prog σ L Q A M F β) {post : β → List L → π → Prop} :
    tracks V (p >>= next) h x post ↔ tracks V p h x (fun a h' y => tracks V (next a) h' y post) := tracks_bind p next

theorem tracks_post {p : Prog σ L Q A M F α} (holds : tracks V p h x post) (ends : ∀ a h y, post a h y → post' a h y) :
    tracks V p h x post' := by
  induction p generalizing h x with
  | ret a => exact ends a h x holds
  | raise => trivial
  | fail why => trivial
  | act f k ih => exact fun s same good settled => ⟨(holds s same good settled).1,ih s (holds s same good settled).2⟩
  | ask q k ih => exact fun a => ih a (holds a)
  | lock l k ih => exact ih holds
  | unlock l k ih => exact ih holds
  | mark m k ih => exact ih holds

theorem tracks_if {c : Prop} [Decidable c] {p q : Prog σ L Q A M F α} (yes : c → tracks V p h x post)
    (no : ¬ c → tracks V q h x post) : tracks V (if c then p else q) h x post := by
  by_cases holds : c
  · rw [if_pos holds]; exact yes holds
  · rw [if_neg holds]; exact no holds

/-! ### Programs that leave the part alone, followed -/

theorem Prog.Spares.followed {R : α → Prop} {p : Prog σ L Q A M F α} (spares : p.Spares V R) :
    tracks V p h x (fun a _ y => y = x ∧ R a) := by
  induction p generalizing h with
  | ret a => exact ⟨rfl,spares⟩
  | raise => trivial
  | fail why => trivial
  | act f k ih =>
    intro s same good settled
    obtain ⟨still,after⟩ := spares s
    rw [still,same]
    exact ⟨good,ih s after⟩
  | ask q k ih => exact fun a => ih a (spares a)
  | lock l k ih => exact ih spares
  | unlock l k ih => exact ih spares
  | mark m k ih => exact ih spares

/-- The same, with the mutexes that it holds where it returns. -/
theorem Prog.Spares.followed_held {D : Discipline σ L Q A} {ends : List L} {thrown : List L → Prop} {R : α → Prop}
    {p : Prog σ L Q A M F α}
    (spares : p.Spares V R) (any : ∀ q a, D.answers q a) (keeps : keeps D p h ends thrown) :
    tracks V p h x (fun a h' y => h' = ends ∧ y = x ∧ R a) := by
  induction p generalizing h with
  | ret a => exact ⟨keeps,rfl,spares⟩
  | raise => trivial
  | fail why => trivial
  | act f k ih =>
    intro s same good settled
    obtain ⟨still,after⟩ := spares s
    rw [still,same]
    exact ⟨good,ih s after (keeps.2 s)⟩
  | ask q k ih => exact fun a => ih a (spares a) (keeps a (any q a))
  | lock l k ih => exact ih spares keeps.2
  | unlock l k ih => exact ih spares keeps.2
  | mark m k ih => exact ih spares keeps

/-! ### Sections -/

/-- What is left of a program after one operation of the thread. -/
theorem tracks_move {allowed : σ → Q → A → Prop} {p p' : Prog σ L Q A M F α} {h' : List L} {s s' : σ}
    (move : Move allowed (p,h,s) (p',h',s')) (settled : h = [] → V.settled s ∧ (h' = [] → V.settled s'))
    (good : V.always (V.part s)) (holds : tracks V p h (V.part s) post) :
    V.always (V.part s') ∧ tracks V p' h' (V.part s') post := by
  cases move with
  | act f k => exact holds s rfl good (fun none => ⟨(settled none).1,(settled none).2 none⟩)
  | ask k _ ok => exact ⟨good,holds _⟩
  | lock k _ free => exact ⟨good,holds⟩
  | unlock k _ held => exact ⟨good,holds⟩
  | mark m k => exact ⟨good,holds⟩

/-- A section keeps what the program is followed with. -/
theorem tracks_section {allowed : σ → Q → A → Prop} {p p' : Prog σ L Q A M F α} {s s' : σ}
    (run : Section allowed p s p' s') (settled : V.settled s) (settled' : V.settled s') (good : V.always (V.part s))
    (holds : tracks V p [] (V.part s) post) : V.always (V.part s') ∧ tracks V p' [] (V.part s') post := by
  -- Inside the section the thread holds a mutex, and nothing is asked of the state.
  have general : ∀ d, Within allowed p s d → (d.2.1 = [] → V.settled d.2.2) →
      V.always (V.part d.2.2) ∧ tracks V d.1 d.2.1 (V.part d.2.2) post := by
    intro d run
    induction run with
    | first move => exact fun after => tracks_move move (fun _ => ⟨settled,after⟩) good holds
    | next before held move ih =>
      intro after
      obtain ⟨good,holds⟩ := ih (fun none => absurd none held)
      exact tracks_move move (fun none => absurd none held) good holds
  exact general _ run (fun _ => settled')

end
end TcAlloc
