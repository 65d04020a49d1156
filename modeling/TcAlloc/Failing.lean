import TcAlloc.Logic

/-!
Answers that make a program give up. A program is brittle if, on an answer of the
given kind, it does nothing more than give back mutexes and throw (`Brittle`). What
such a program guarantees when no answer is of that kind it also guarantees when
some are, unless it throws (`wp_brittle`): so a development can follow a program on
an environment that never refuses, and have the result for one that may.
-/
namespace TcAlloc
namespace Prog
variable {σ τ L Q A M F α β : Type} [DecidableEq L]

/-- Giving back mutexes and throwing, with the mutexes still held then in `lost`. -/
def Aborts (lost : List L → Prop) : Prog σ L Q A M F α → List L → Prop
  | .raise, h => lost h
  | .unlock l k, h => l ∈ h ∧ k.Aborts lost (h.erase l)
  | _, _ => False

/-- The program asks what is `fine`, and an answer in `gone` makes it abort; without
    such an answer it returns in `ends`, with the mutexes held then. -/
def Brittle (fine : Q → Prop) (gone : A → Prop) (lost : List L → Prop) : Prog σ L Q A M F α →
    List L → (α → List L → Prop) → Prop
  | .ret a, h, ends => ends a h
  | .raise, _, _ => True
  | .fail _, _, _ => True
  | .act _ k, h, ends => ∀ s, (k s).Brittle fine gone lost h ends
  | .ask q k, h, ends => fine q ∧ ∀ a, (gone a → (k a).Aborts lost h) ∧ (¬ gone a → (k a).Brittle fine gone lost h ends)
  | .lock l k, h, ends => k.Brittle fine gone lost (l :: h) ends
  | .unlock l k, h, ends => k.Brittle fine gone lost (h.erase l) ends
  | .mark _ k, h, ends => k.Brittle fine gone lost h ends

section
variable {fine : Q → Prop} {gone : A → Prop} {lost : List L → Prop} {h : List L}

theorem Aborts.bind {p : Prog σ L Q A M F α} {next : α → Prog σ L Q A M F β} (aborts : p.Aborts lost h) :
    (p.bind next).Aborts lost h := by
  induction p generalizing h with
  | raise => exact aborts
  | unlock l k ih => exact ⟨aborts.1,ih aborts.2⟩
  | ret a => exact aborts.elim
  | fail why => exact aborts.elim
  | act f k ih => exact aborts.elim
  | ask q k ih => exact aborts.elim
  | lock l k ih => exact aborts.elim
  | mark m k ih => exact aborts.elim

theorem Aborts.zoom {p : Prog τ L Q A M F α} (lens : Lens σ τ) (aborts : p.Aborts lost h) : (p.zoom lens).Aborts lost h := by
  induction p generalizing h with
  | raise => exact aborts
  | unlock l k ih => exact ⟨aborts.1,ih aborts.2⟩
  | ret a => exact aborts.elim
  | fail why => exact aborts.elim
  | act f k ih => exact aborts.elim
  | ask q k ih => exact aborts.elim
  | lock l k ih => exact aborts.elim
  | mark m k ih => exact aborts.elim

theorem Aborts.unlocking {p : Prog σ L Q A M F α} {l : L} (aborts : p.Aborts (fun h => l ∈ h ∧ lost (h.erase l)) h) :
    (p.unlocking l).Aborts lost h := by
  induction p generalizing h with
  | raise => exact aborts
  | unlock m k ih => exact ⟨aborts.1,ih aborts.2⟩
  | ret a => exact aborts.elim
  | fail why => exact aborts.elim
  | act f k ih => exact aborts.elim
  | ask q k ih => exact aborts.elim
  | lock m k ih => exact aborts.elim
  | mark m k ih => exact aborts.elim

theorem Brittle.mono {p : Prog σ L Q A M F α} {ends ends' : α → List L → Prop} (brittle : p.Brittle fine gone lost h ends)
    (weaker : ∀ a h, ends a h → ends' a h) : p.Brittle fine gone lost h ends' := by
  induction p generalizing h with
  | ret a => exact weaker a h brittle
  | raise => trivial
  | fail why => trivial
  | act f k ih => exact fun s => ih s (brittle s)
  | ask q k ih => exact ⟨brittle.1,fun a => ⟨(brittle.2 a).1,fun ok => ih a ((brittle.2 a).2 ok)⟩⟩
  | lock l k ih => exact ih brittle
  | unlock l k ih => exact ih brittle
  | mark m k ih => exact ih brittle

theorem Brittle.bind {p : Prog σ L Q A M F α} {next : α → Prog σ L Q A M F β} {ends : β → List L → Prop}
    (brittle : p.Brittle fine gone lost h (fun a h' => (next a).Brittle fine gone lost h' ends)) :
    (p.bind next).Brittle fine gone lost h ends := by
  induction p generalizing h with
  | ret a => exact brittle
  | raise => trivial
  | fail why => trivial
  | act f k ih => exact fun s => ih s (brittle s)
  | ask q k ih => exact ⟨brittle.1,fun a => ⟨fun bad => ((brittle.2 a).1 bad).bind,fun ok => ih a ((brittle.2 a).2 ok)⟩⟩
  | lock l k ih => exact ih brittle
  | unlock l k ih => exact ih brittle
  | mark m k ih => exact ih brittle

/-- A program that gives back what it takes, and another one after it. -/
theorem Brittle.andThen {p : Prog σ L Q A M F α} {next : α → Prog σ L Q A M F β} {ends : β → List L → Prop}
    (first : p.Brittle fine gone lost h (fun _ h' => h' = h)) (then_ : ∀ a, (next a).Brittle fine gone lost h ends) :
    (p >>= next).Brittle fine gone lost h ends := by
  refine .bind (first.mono (fun a h' same => ?_))
  subst same
  exact then_ a

theorem Brittle.zoom {p : Prog τ L Q A M F α} {ends : α → List L → Prop} (lens : Lens σ τ)
    (brittle : p.Brittle fine gone lost h ends) :
    (p.zoom lens).Brittle fine gone lost h ends := by
  induction p generalizing h with
  | ret a => exact brittle
  | raise => trivial
  | fail why => trivial
  | act f k ih => exact fun s => ih _ (brittle _)
  | ask q k ih => exact ⟨brittle.1,fun a => ⟨fun bad => ((brittle.2 a).1 bad).zoom lens,fun ok => ih a ((brittle.2 a).2 ok)⟩⟩
  | lock l k ih => exact ih brittle
  | unlock l k ih => exact ih brittle
  | mark m k ih => exact ih brittle

/-- A block that gives its mutex back however it ends. -/
theorem Brittle.locked {p : Prog σ L Q A M F α} {ends : α → List L → Prop} {l : L}
    (brittle : p.Brittle fine gone (fun h => l ∈ h ∧ lost (h.erase l)) (l :: h) (fun a h' => ends a (h'.erase l))) :
    (p.locked l).Brittle fine gone lost h ends := by
  have caught : ∀ {h' ends'}, p.Brittle fine gone (fun h => l ∈ h ∧ lost (h.erase l)) h' ends' →
      (p.unlocking l).Brittle fine gone lost h' ends' := by
    clear brittle
    intro h' ends' brittle
    induction p generalizing h' with
    | ret a => exact brittle
    | raise => trivial
    | fail why => trivial
    | act f k ih => exact fun s => ih s (brittle s)
    | ask q k ih =>
      exact ⟨brittle.1,fun a => ⟨fun bad => ((brittle.2 a).1 bad).unlocking,fun ok => ih a ((brittle.2 a).2 ok)⟩⟩
    | lock l k ih => exact ih brittle
    | unlock l k ih => exact ih brittle
    | mark m k ih => exact ih brittle
  exact Brittle.bind (caught brittle)

/-- A block that gives its mutex back only where it returns. -/
theorem Brittle.holding {p : Prog σ L Q A M F α} {l : L}
    (brittle : p.Brittle fine gone lost (l :: h) (fun _ h' => h' = l :: h)) :
    (p.holding l).Brittle fine gone lost h (fun _ h' => h' = h) := by
  refine Brittle.bind (brittle.mono (fun a h' same => ?_))
  subst same
  exact List.erase_cons_head (a := l) (l := h)

/-- What a brittle program asks is fine, or it is about to abort. -/
theorem Brittle.run {p : Prog σ L Q A M F α} {s : σ} {allowed : σ → Q → A → Prop} {ends : α → List L → Prop}
    {d : Prog σ L Q A M F α × List L × σ} (brittle : p.Brittle fine gone lost h ends) (run : Run allowed (p,h,s) d) :
    d.1.Brittle fine gone lost d.2.1 ends ∨ d.1.Aborts lost d.2.1 := by
  induction run with
  | refl => exact .inl brittle
  | tail _ move ih =>
    rcases ih with brittle | aborts
    · cases move with
      | act f k => exact .inl (brittle _)
      | @ask q a s k h ok =>
        by_cases bad : gone a
        · exact .inr ((brittle.2 a).1 bad)
        · exact .inl ((brittle.2 a).2 bad)
      | lock k s free => exact .inl brittle
      | unlock k s held => exact .inl brittle
      | mark m k => exact .inl brittle
    · cases move with
      | unlock k s held => exact .inr aborts.2
      | act f k => exact aborts.elim
      | ask k h ok => exact aborts.elim
      | lock k s free => exact aborts.elim
      | mark m k => exact aborts.elim

theorem Brittle.asks {p : Prog σ L Q A M F α} {s s' : σ} {allowed : σ → Q → A → Prop}
    {ends : α → List L → Prop} {q : Q} {h' : List L}
    {k : A → Prog σ L Q A M F α} (brittle : p.Brittle fine gone lost h ends)
    (run : Run allowed (p,h,s) (.ask q k,h',s')) : fine q := by
  rcases brittle.run run with asking | aborts
  · exact asking.1
  · exact aborts.elim

/-! ### Operations -/

variable {ends : β → List L → Prop}

@[simp] theorem brittle_pure (b : β) : (pure b : Prog σ L Q A M F β).Brittle fine gone lost h ends ↔ ends b h := Iff.rfl
@[simp] theorem brittle_raise : (.raise : Prog σ L Q A M F β).Brittle fine gone lost h ends := trivial
@[simp] theorem brittle_fail (why : F) : (.fail why : Prog σ L Q A M F β).Brittle fine gone lost h ends := trivial
theorem brittle_read {g : σ → β} (all : ∀ b, ends b h) : (Prog.read g : Prog σ L Q A M F β).Brittle fine gone
    lost h ends := fun _ => all _
theorem brittle_modify {f : σ → σ} {ends : Unit → List L → Prop} (all : ends () h) :
    (Prog.modify f : Prog σ L Q A M F Unit).Brittle fine gone lost h ends := fun _ => all
theorem brittle_require {c : Prop} [Decidable c] {why : F} {ends : Unit → List L → Prop} (all : ends () h) :
    (Prog.require c why : Prog σ L Q A M F Unit).Brittle fine gone lost h ends := by
  rw [Prog.require]
  split_ifs
  · exact all
  · trivial

end
end Prog

section
variable {σ L Q A M F α : Type} [DecidableEq L] {R R' : Rules σ L Q A M} {h : List L} {s : σ} {J : σ → Prop}
  {post : α → List L → σ → Prop} {thrown : List L → σ → Prop} {p : Prog σ L Q A M F α} {fine : Q → Prop} {gone : A → Prop}
  {lost : List L → Prop}

/-- A program that aborts ends by an exception, in the state it is in. -/
theorem wp_aborts (quiet : ∀ h, R.seen none h s s) (aborts : p.Aborts lost h) (throws : ∀ h, lost h → thrown h s) :
    wp R p h s post thrown := by
  induction p generalizing h with
  | raise => exact throws h aborts
  | unlock l k ih => exact ⟨aborts.1,quiet _,ih aborts.2⟩
  | ret a => exact aborts.elim
  | fail why => exact aborts.elim
  | act f k ih => exact aborts.elim
  | ask q k ih => exact aborts.elim
  | lock l k ih => exact aborts.elim
  | mark m k ih => exact aborts.elim

/-- On an environment that may give answers in `gone`, a brittle program does what
    it does on one that does not, or throws where `J` still holds. -/
theorem wp_brittle {ends : α → List L → Prop} (answers : ∀ s q a, R'.allowed s q a → ¬ gone a → R.allowed s q a)
    (sees : ∀ m h s s', R.seen m h s s' → R'.seen m h s s') (keeps : ∀ m h s s', R.seen m h s s' → J s → J s')
    (quiet : ∀ h s, J s → R'.seen none h s s) (brittle : p.Brittle fine gone lost h ends) (start : J s)
    (holds : wp R p h s post thrown) :
    wp R' p h s post (fun h' s' => thrown h' s' ∨ (lost h' ∧ J s')) := by
  induction p generalizing h s with
  | ret a => exact holds
  | raise => exact .inl holds
  | fail why => exact holds
  | act f k ih => exact ⟨sees _ _ _ _ holds.1,ih s (brittle s) (keeps _ _ _ _ holds.1 start) holds.2⟩
  | ask q k ih =>
    intro a ok
    by_cases bad : gone a
    · exact wp_aborts (fun h => quiet h s start) ((brittle.2 a).1 bad) (fun h lost => .inr ⟨lost,start⟩)
    · exact ih a ((brittle.2 a).2 bad) start (holds a (answers s q a ok bad))
  | lock l k ih => exact ⟨holds.1,sees _ _ _ _ holds.2.1,ih brittle start holds.2.2⟩
  | unlock l k ih => exact ⟨holds.1,sees _ _ _ _ holds.2.1,ih brittle start holds.2.2⟩
  | mark m k ih => exact ⟨sees _ _ _ _ holds.1,ih brittle start holds.2⟩

/-- What every operation that the observer sees keeps, holds all along a run. -/
theorem run_keeps (keeps : ∀ m h s s', R.seen m h s s' → J s → J s') {d : Prog σ L Q A M F α × List L × σ}
    (run : Run R.allowed (p,h,s) d) (start : J s) (holds : wp R p h s post thrown) : J d.2.2 := by
  have general : J d.2.2 ∧ wp R d.1 d.2.1 d.2.2 post thrown := by
    induction run with
    | refl => exact ⟨start,holds⟩
    | @tail c d _ move ih =>
      refine ⟨?_,wp_move move ih.2⟩
      rcases wp_move_seen move ih.2 with ⟨_,same⟩ | seen
      · rw [same]; exact ih.1
      · exact keeps _ _ _ _ seen ih.1
  exact general.1

end
end TcAlloc
