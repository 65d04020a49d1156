import TcAlloc.Logic

/-!
Programs that leave a part of the state alone. A program is blind to a change `φ` of
the state if each of its actions commutes with the change and goes on as it would
without it (`Blind`). Its runs are then runs from the changed state too, so what
holds of it in one of the two states holds in the other.
-/
namespace TcAlloc
namespace Prog
variable {σ τ L Q A M F α β : Type}

def Blind (φ : σ → σ) : Prog σ L Q A M F α → Prop
  | .ret _ => True
  | .raise => True
  | .fail _ => True
  | .act f k => ∀ s, f (φ s) = φ (f s) ∧ k (φ s) = k s ∧ (k s).Blind φ
  | .ask _ k => ∀ a, (k a).Blind φ
  | .lock _ k => k.Blind φ
  | .unlock _ k => k.Blind φ
  | .mark _ k => k.Blind φ

section
variable {φ : σ → σ}

theorem Blind.bind {p : Prog σ L Q A M F α} {next : α → Prog σ L Q A M F β} (first : p.Blind φ)
    (later : ∀ a, (next a).Blind φ) :
    (p.bind next).Blind φ := by
  induction p with
  | ret a => exact later a
  | raise => trivial
  | fail why => trivial
  | act f k ih =>
    intro s
    obtain ⟨commutes,same,rest⟩ := first s
    exact ⟨commutes,by dsimp only; rw [same],ih s rest⟩
  | ask q k ih => exact fun a => ih a (first a)
  | lock l k ih => exact ih first
  | unlock l k ih => exact ih first
  | mark m k ih => exact ih first

theorem Blind.seq {p : Prog σ L Q A M F α} {next : α → Prog σ L Q A M F β} (first : p.Blind φ)
    (later : ∀ a, (next a).Blind φ) :
    (p >>= next).Blind φ := first.bind later

/-- The code of a component is blind to what is outside it. -/
theorem blind_zoom (lens : Lens σ τ) (get : ∀ s, lens.get (φ s) = lens.get s)
    (set : ∀ s t, lens.set (φ s) t = φ (lens.set s t))
    (p : Prog τ L Q A M F α) : (p.zoom lens).Blind φ := by
  induction p with
  | ret a => trivial
  | raise => trivial
  | fail why => trivial
  | act f k ih =>
    intro s
    refine ⟨?_,?_,ih _⟩
    · dsimp only
      rw [get,set]
    · dsimp only
      rw [get]
  | ask q k ih => exact ih
  | lock l k ih => exact ih
  | unlock l k ih => exact ih
  | mark m k ih => exact ih

theorem Blind.holding {p : Prog σ L Q A M F α} (blind : p.Blind φ) (l : L) : (p.holding l).Blind φ :=
    blind.bind (fun _ => trivial)

theorem blind_read {g : σ → β} (same : ∀ s, g (φ s) = g s) : (Prog.read g : Prog σ L Q A M F β).Blind φ := by
  intro s
  exact ⟨rfl,by dsimp only; rw [same],trivial⟩

theorem blind_modify {f : σ → σ} (commutes : ∀ s, f (φ s) = φ (f s)) : (Prog.modify f : Prog σ L Q A M F Unit).Blind φ :=
  fun s => ⟨commutes s,rfl,trivial⟩

theorem blind_step {g : σ → Except F (β × σ)} (commutes : ∀ s, g (φ s) = (g s).map (fun r => (r.1,φ r.2))) :
    (Prog.step g : Prog σ L Q A M F β).Blind φ := by
  intro s
  dsimp only
  rw [commutes]
  cases g s with
  | ok r => exact ⟨rfl,rfl,trivial⟩
  | error why => exact ⟨rfl,rfl,trivial⟩

theorem blind_require (c : Prop) [Decidable c] (why : F) : (Prog.require c why : Prog σ L Q A M F Unit).Blind φ := by
  unfold Prog.require
  split_ifs
  · trivial
  · trivial

end
end Prog

section
variable {σ L Q A M F α : Type} [DecidableEq L] {φ : σ → σ} {allowed : σ → Q → A → Prop}

theorem Move.blind {c d : Prog σ L Q A M F α × List L × σ} (move : Move allowed c d)
    (answers : ∀ s q a, allowed s q a → allowed (φ s) q a)
    (blind : c.1.Blind φ) : Move allowed (c.1,c.2.1,φ c.2.2) (d.1,d.2.1,φ d.2.2) ∧ d.1.Blind φ := by
  cases move with
  | act f k h s =>
    obtain ⟨commutes,same,rest⟩ := blind s
    have moved : Move allowed (.act f k,h,φ s) _ := .act f k h (φ s)
    rw [commutes,same] at moved
    exact ⟨moved,rest⟩
  | ask k h ok => exact ⟨.ask k h (answers _ _ _ ok),blind _⟩
  | lock k s free => exact ⟨.lock k (φ s) free,blind⟩
  | unlock k s held => exact ⟨.unlock k (φ s) held,blind⟩
  | mark m k h s => exact ⟨.mark m k h (φ s),blind⟩

theorem Within.blind {p : Prog σ L Q A M F α} {s : σ} {d : Prog σ L Q A M F α × List L × σ} (run : Within allowed p s d)
    (answers : ∀ s q a, allowed s q a → allowed (φ s) q a) (blind : p.Blind φ) :
    Within allowed p (φ s) (d.1,d.2.1,φ d.2.2) ∧ d.1.Blind φ := by
  induction run with
  | first move =>
    obtain ⟨moved,rest⟩ := move.blind answers blind
    exact ⟨.first moved,rest⟩
  | next before held move ih =>
    obtain ⟨moved,rest⟩ := move.blind answers ih.2
    exact ⟨.next ih.1 held moved,rest⟩

/-- A section of a blind program is one from the changed state. -/
theorem Section.blind {p p' : Prog σ L Q A M F α} {s s' : σ} (run : Section allowed p s p' s')
    (answers : ∀ s q a, allowed s q a → allowed (φ s) q a) (blind : p.Blind φ) :
    Section allowed p (φ s) p' (φ s') ∧ p'.Blind φ := Within.blind run answers blind

/-- What a blind program guarantees from the changed state it guarantees from the state. -/
theorem wp_blind {R : Rules σ L Q A M} {p : Prog σ L Q A M F α} {h : List L} {s : σ} {post : α → List L → σ → Prop}
    {thrown : List L → σ → Prop} (answers : ∀ s q a, R.allowed s q a → R.allowed (φ s) q a)
    (sees : ∀ m h s s', R.seen m h (φ s) (φ s') → R.seen m h s s') (blind : p.Blind φ) (holds : wp R p h (φ s) post thrown) :
    wp R p h s (fun a h' s' => post a h' (φ s')) (fun h' s' => thrown h' (φ s')) := by
  induction p generalizing h s with
  | ret a => exact holds
  | raise => exact holds
  | fail why => exact holds
  | act f k ih =>
    obtain ⟨commutes,same,rest⟩ := blind s
    obtain ⟨seen,after⟩ := holds
    rw [commutes] at seen
    rw [commutes,same] at after
    exact ⟨sees _ _ _ _ seen,ih s rest after⟩
  | ask q k ih => exact fun a ok => ih a (blind a) (holds a (answers s q a ok))
  | lock l k ih => exact ⟨holds.1,sees _ _ _ _ holds.2.1,ih blind holds.2.2⟩
  | unlock l k ih => exact ⟨holds.1,sees _ _ _ _ holds.2.1,ih blind holds.2.2⟩
  | mark m k ih => exact ⟨sees _ _ _ _ holds.1,ih blind holds.2⟩

end
end TcAlloc
