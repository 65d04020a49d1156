import TcAlloc.Prog
import Mathlib.Order.WellFounded

/-!
What a program guarantees. `wp` is the weakest condition from which every run of
a program ends well: no fault, no mutex taken twice or given back unheld, every
state on the way seen by the rules' observer (`Rules.seen`), and the ending in
the given conditions. `sec` is the same for one section of a program: the run is
cut as soon as the thread holds no mutex, and the rest of the program is handed
to the condition `C`. A proof about the sections of a program, each from any
state that the others may have left, gives one about its whole run
(`run_of_sections`).
-/
namespace TcAlloc

/-- The answers the environment may give, and what an observer requires of an
    operation: the mark it is, if any, the mutexes held after it, and the states
    before and after it. -/
structure Rules (σ L Q A M : Type) where
  allowed : σ → Q → A → Prop
  seen : Option M → List L → σ → σ → Prop

section
variable {σ τ L Q A M F α β : Type} [DecidableEq L]

/-- Every run from `s`, holding `h`, ends in `post`, or in `thrown` by an exception. -/
def wp (R : Rules σ L Q A M) : Prog σ L Q A M F α → List L → σ → (α → List L → σ → Prop) → (List L → σ → Prop) → Prop
  | .ret a, h, s, post, _ => post a h s
  | .raise, h, s, _, thrown => thrown h s
  | .fail _, _, _, _, _ => False
  | .act f k, h, s, post, thrown => R.seen none h s (f s) ∧ wp R (k s) h (f s) post thrown
  | .ask q k, h, s, post, thrown => ∀ a, R.allowed s q a → wp R (k a) h s post thrown
  | .lock l k, h, s, post, thrown => l ∉ h ∧ R.seen none (l :: h) s s ∧ wp R k (l :: h) s post thrown
  | .unlock l k, h, s, post, thrown => l ∈ h ∧ R.seen none (h.erase l) s s ∧ wp R k (h.erase l) s post thrown
  | .mark m k, h, s, post, thrown => R.seen (some m) h s s ∧ wp R k h s post thrown

/-- The same for the first section of the program: once no mutex is held, the
    rest of the program and the state satisfy `C`. -/
def sec (R : Rules σ L Q A M) (C : Prog σ L Q A M F α → σ → Prop) :
    Prog σ L Q A M F α → List L → σ → (α → List L → σ → Prop) → (List L → σ → Prop) → Prop
  | .ret a, h, s, post, _ => post a h s
  | .raise, h, s, _, thrown => thrown h s
  | .fail _, _, _, _, _ => False
  | .act f k, h, s, post, thrown =>
    R.seen none h s (f s) ∧ if h = [] then C (k s) (f s) else sec R C (k s) h (f s) post thrown
  | .ask q k, h, s, post, thrown =>
    ∀ a, R.allowed s q a → if h = [] then C (k a) s else sec R C (k a) h s post thrown
  | .lock l k, h, s, post, thrown => l ∉ h ∧ R.seen none (l :: h) s s ∧ sec R C k (l :: h) s post thrown
  | .unlock l k, h, s, post, thrown => l ∈ h ∧ R.seen none (h.erase l) s s ∧
      if h.erase l = [] then C k s else sec R C k (h.erase l) s post thrown
  | .mark m k, h, s, post, thrown =>
    R.seen (some m) h s s ∧ if h = [] then C k s else sec R C k h s post thrown

variable {R : Rules σ L Q A M} {h : List L} {s : σ}

/-! ### Rules for `wp` -/

section
variable {post : β → List L → σ → Prop} {thrown : List L → σ → Prop}

@[simp] theorem wp_ret (b : β) : wp R (.ret b : Prog σ L Q A M F β) h s post thrown ↔ post b h s := Iff.rfl
@[simp] theorem wp_pure (b : β) : wp R (pure b : Prog σ L Q A M F β) h s post thrown ↔ post b h s := Iff.rfl
@[simp] theorem wp_raise : wp R (.raise : Prog σ L Q A M F β) h s post thrown ↔ thrown h s := Iff.rfl
@[simp] theorem wp_fail (why : F) : wp R (.fail why : Prog σ L Q A M F β) h s post thrown ↔ False := Iff.rfl
@[simp] theorem wp_read (g : σ → β) :
    wp R (Prog.read g : Prog σ L Q A M F β) h s post thrown ↔ R.seen none h s s ∧ post (g s) h s := Iff.rfl
@[simp] theorem wp_step_ok {g : σ → Except F (β × σ)} {b : β} {u : σ} (runs : g s = .ok (b,u)) :
    wp R (Prog.step g : Prog σ L Q A M F β) h s post thrown ↔ R.seen none h s u ∧ post b h u := by
  simp only [Prog.step,wp,runs]
@[simp] theorem wp_modify {post : Unit → List L → σ → Prop} (f : σ → σ) :
    wp R (Prog.modify f : Prog σ L Q A M F Unit) h s post thrown ↔ R.seen none h s (f s) ∧ post () h (f s) := Iff.rfl
@[simp] theorem wp_require {post : Unit → List L → σ → Prop} (c : Prop) [Decidable c] (why : F) :
    wp R (Prog.require c why : Prog σ L Q A M F Unit) h s post thrown ↔ c ∧ post () h s := by
  by_cases holds : c <;> simp [Prog.require,holds]
@[simp] theorem wp_acquire {post : Unit → List L → σ → Prop} (l : L) :
    wp R (Prog.acquire l : Prog σ L Q A M F Unit) h s post thrown ↔
      l ∉ h ∧ R.seen none (l :: h) s s ∧ post () (l :: h) s := Iff.rfl
@[simp] theorem wp_release {post : Unit → List L → σ → Prop} (l : L) :
    wp R (Prog.release l : Prog σ L Q A M F Unit) h s post thrown ↔
      l ∈ h ∧ R.seen none (h.erase l) s s ∧ post () (h.erase l) s := Iff.rfl
@[simp] theorem wp_note {post : Unit → List L → σ → Prop} (m : M) :
    wp R (Prog.note m : Prog σ L Q A M F Unit) h s post thrown ↔ R.seen (some m) h s s ∧ post () h s := Iff.rfl
@[simp] theorem wp_answer {post : A → List L → σ → Prop} (q : Q) :
    wp R (Prog.answer q : Prog σ L Q A M F A) h s post thrown ↔ ∀ a, R.allowed s q a → post a h s := Iff.rfl

theorem wp_bind (p : Prog σ L Q A M F α) (next : α → Prog σ L Q A M F β) :
    wp R (p.bind next) h s post thrown ↔
      wp R p h s (fun a h' s' => wp R (next a) h' s' post thrown) thrown := by
  induction p generalizing h s with
  | ret a => rfl
  | raise => rfl
  | fail why => rfl
  | act f k ih => simp only [Prog.bind,wp,ih]
  | ask q k ih => simp only [Prog.bind,wp,ih]
  | lock l k ih => simp only [Prog.bind,wp,ih]
  | unlock l k ih => simp only [Prog.bind,wp,ih]
  | mark m k ih => simp only [Prog.bind,wp,ih]

@[simp] theorem wp_seq (p : Prog σ L Q A M F α) (next : α → Prog σ L Q A M F β) :
    wp R (p >>= next) h s post thrown ↔
      wp R p h s (fun a h' s' => wp R (next a) h' s' post thrown) thrown := wp_bind p next

end

/-- The endings may be weakened, and the observer may ask for less. -/
theorem wp_mono {R' : Rules σ L Q A M} {post post' : α → List L → σ → Prop} {thrown thrown' : List L → σ → Prop}
    {p : Prog σ L Q A M F α} (answers : ∀ s q a, R'.allowed s q a → R.allowed s q a)
    (sees : ∀ m h s s', R.seen m h s s' → R'.seen m h s s') (ends : ∀ a h s, post a h s → post' a h s)
    (throws : ∀ h s, thrown h s → thrown' h s) (holds : wp R p h s post thrown) : wp R' p h s post' thrown' := by
  induction p generalizing h s with
  | ret a => exact ends a h s holds
  | raise => exact throws h s holds
  | fail why => exact holds
  | act f k ih => exact ⟨sees _ _ _ _ holds.1,ih s holds.2⟩
  | ask q k ih => exact fun a ok => ih a (holds a (answers s q a ok))
  | lock l k ih => exact ⟨holds.1,sees _ _ _ _ holds.2.1,ih holds.2.2⟩
  | unlock l k ih => exact ⟨holds.1,sees _ _ _ _ holds.2.1,ih holds.2.2⟩
  | mark m k ih => exact ⟨sees _ _ _ _ holds.1,ih holds.2⟩

theorem wp_post {post post' : α → List L → σ → Prop} {thrown : List L → σ → Prop} {p : Prog σ L Q A M F α}
    (holds : wp R p h s post thrown) (ends : ∀ a h s, post a h s → post' a h s) : wp R p h s post' thrown :=
  wp_mono (fun _ _ _ ok => ok) (fun _ _ _ _ ok => ok) ends (fun _ _ ok => ok) holds

theorem wp_unlocking (l : L) {post : α → List L → σ → Prop} {thrown : List L → σ → Prop} {p : Prog σ L Q A M F α}
    (holds : wp R p h s post (fun h' s' => l ∈ h' ∧ R.seen none (h'.erase l) s' s' ∧ thrown (h'.erase l) s')) :
    wp R (p.unlocking l) h s post thrown := by
  induction p generalizing h s with
  | ret a => exact holds
  | raise => exact holds
  | fail why => exact holds
  | act f k ih => exact ⟨holds.1,ih s holds.2⟩
  | ask q k ih => exact fun a ok => ih a (holds a ok)
  | lock m k ih => exact ⟨holds.1,holds.2.1,ih holds.2.2⟩
  | unlock m k ih => exact ⟨holds.1,holds.2.1,ih holds.2.2⟩
  | mark m k ih => exact ⟨holds.1,ih holds.2⟩

/-- A block that holds a mutex: its own run holds the mutex besides. -/
theorem wp_locked (l : L) {post : α → List L → σ → Prop} {thrown : List L → σ → Prop} {p : Prog σ L Q A M F α}
    (free : l ∉ h) (enter : R.seen none (l :: h) s s)
    (holds : wp R p (l :: h) s (fun a h' s' => l ∈ h' ∧ R.seen none (h'.erase l) s' s' ∧ post a (h'.erase l) s')
      (fun h' s' => l ∈ h' ∧ R.seen none (h'.erase l) s' s' ∧ thrown (h'.erase l) s')) :
    wp R (p.locked l) h s post thrown := by
  refine ⟨free,enter,?_⟩
  rw [wp_bind]
  exact wp_unlocking l holds

/-- The program of a part runs on the whole as it runs on the part. -/
theorem wp_zoom (lens : Lens σ τ) {I : Rules τ L Q A M} {P : α → List L → τ → Prop}
    {E : List L → τ → Prop} {post' : α → List L → σ → Prop} {thrown' : List L → σ → Prop}
    {p : Prog τ L Q A M F α} {s : σ}
    (answers : ∀ t q a, R.allowed (lens.set s t) q a → I.allowed t q a)
    (sees : ∀ m h t t', I.seen m h t t' → R.seen m h (lens.set s t) (lens.set s t'))
    (ends : ∀ a h t, P a h t → post' a h (lens.set s t))
    (throws : ∀ h t, E h t → thrown' h (lens.set s t))
    (holds : wp I p h (lens.get s) P E) : wp R (p.zoom lens) h s post' thrown' := by
  have general : ∀ h t, wp I p h t P E → wp R (p.zoom lens) h (lens.set s t) post' thrown' := by
    clear holds
    induction p with
    | ret a => exact fun h t holds => ends a h t holds
    | raise => exact fun h t holds => throws h t holds
    | fail why => exact fun h t holds => holds
    | act f k ih =>
      intro h t holds
      have step := ih t h (f t) holds.2
      simp only [Prog.zoom,wp,lens.get_set,lens.set_set]
      exact ⟨sees _ _ _ _ holds.1,step⟩
    | ask q k ih => exact fun h t holds a ok => ih a h t (holds a (answers t q a ok))
    | lock l k ih => exact fun h t holds => ⟨holds.1,sees _ _ _ _ holds.2.1,ih (l :: h) t holds.2.2⟩
    | unlock l k ih => exact fun h t holds => ⟨holds.1,sees _ _ _ _ holds.2.1,ih (h.erase l) t holds.2.2⟩
    | mark m k ih => exact fun h t holds => ⟨sees _ _ _ _ holds.1,ih h t holds.2⟩
  have start := general h (lens.get s) holds
  rwa [lens.set_get] at start

/-- One operation keeps the guarantee. -/
theorem wp_move {post : α → List L → σ → Prop} {thrown : List L → σ → Prop}
    {p p' : Prog σ L Q A M F α} {h' : List L} {s' : σ}
    (move : Move R.allowed (p,h,s) (p',h',s')) (holds : wp R p h s post thrown) :
    wp R p' h' s' post thrown := by
  cases move with
  | act f k => exact holds.2
  | ask k _ ok => exact holds _ ok
  | lock k _ free => exact holds.2.2
  | unlock k _ held => exact holds.2.2
  | mark m k => exact holds.2

/-- The observer sees an operation, if it is more than a question. -/
theorem wp_move_seen {post : α → List L → σ → Prop} {thrown : List L → σ → Prop}
    {p p' : Prog σ L Q A M F α} {h' : List L} {s' : σ}
    (move : Move R.allowed (p,h,s) (p',h',s')) (holds : wp R p h s post thrown) :
    (h' = h ∧ s' = s) ∨ R.seen none h' s s' := by
  cases move with
  | act f k => exact .inr holds.1
  | ask k _ ok => exact .inl ⟨rfl,rfl⟩
  | lock k _ free => exact .inr holds.2.1
  | unlock k _ held => exact .inr holds.2.1
  | mark m k => exact .inl ⟨rfl,rfl⟩

theorem wp_run {post : α → List L → σ → Prop} {thrown : List L → σ → Prop}
    {c d : Prog σ L Q A M F α × List L × σ} (run : Run R.allowed c d)
    (holds : wp R c.1 c.2.1 c.2.2 post thrown) : wp R d.1 d.2.1 d.2.2 post thrown := by
  induction run with
  | refl => exact holds
  | tail _ move ih => exact wp_move move ih

/-- What every operation that the observer sees relates, the whole run relates. -/
theorem wp_trace {T : σ → σ → Prop} (refl : ∀ s, T s s) (trans : ∀ s s' s'', T s s' → T s' s'' → T s s'')
    (sees : ∀ m h s s', R.seen m h s s' → T s s') {post : α → List L → σ → Prop} {thrown : List L → σ → Prop}
    {p : Prog σ L Q A M F α} (holds : wp R p h s post thrown) :
    wp R p h s (fun a h' s' => T s s' ∧ post a h' s') thrown := by
  -- The run so far is related to where it began.
  have general : ∀ (p : Prog σ L Q A M F α) h s₀ s, T s₀ s → wp R p h s post thrown →
      wp R p h s (fun a h' s' => T s₀ s' ∧ post a h' s') thrown := by
    intro p
    induction p with
    | ret a => exact fun h s₀ s past now => ⟨past,now⟩
    | raise => exact fun h s₀ s past now => now
    | fail why => exact fun h s₀ s past now => now
    | act f k ih => exact fun h s₀ s past now => ⟨now.1,ih s h s₀ (f s) (trans _ _ _ past (sees _ _ _ _ now.1)) now.2⟩
    | ask q k ih => exact fun h s₀ s past now a ok => ih a h s₀ s past (now a ok)
    | lock l k ih => exact fun h s₀ s past now => ⟨now.1,now.2.1,ih _ s₀ s past now.2.2⟩
    | unlock l k ih => exact fun h s₀ s past now => ⟨now.1,now.2.1,ih _ s₀ s past now.2.2⟩
    | mark m k ih => exact fun h s₀ s past now => ⟨now.1,ih h s₀ s past now.2⟩
  exact general p h s s (refl s) holds

/-! ### Rules for `sec` -/

/-- Inside a section a program is only asked what `wp` asks, if it never lets go
    of the last mutex. -/
theorem sec_of_wp {I : Rules σ L Q A M} {C : Prog σ L Q A M F α → σ → Prop} {post : α → List L → σ → Prop}
    {thrown : List L → σ → Prop} {p : Prog σ L Q A M F α}
    (answers : ∀ s q a, R.allowed s q a → I.allowed s q a)
    (sees : ∀ m h s s', I.seen m h s s' → h ≠ [] ∧ R.seen m h s s')
    (held : h ≠ []) (holds : wp I p h s post thrown) : sec R C p h s post thrown := by
  induction p generalizing h s with
  | ret a => exact holds
  | raise => exact holds
  | fail why => exact holds
  | act f k ih => exact ⟨(sees _ _ _ _ holds.1).2,by rw [if_neg held]; exact ih s held holds.2⟩
  | ask q k ih => exact fun a ok => by rw [if_neg held]; exact ih a held (holds a (answers s q a ok))
  | lock l k ih =>
    have later := sees _ _ _ _ holds.2.1
    exact ⟨holds.1,later.2,ih later.1 holds.2.2⟩
  | unlock l k ih =>
    have later := sees _ _ _ _ holds.2.1
    exact ⟨holds.1,later.2,by rw [if_neg later.1]; exact ih later.1 holds.2.2⟩
  | mark m k ih =>
    have here := sees _ _ _ _ holds.1
    exact ⟨here.2,by rw [if_neg held]; exact ih held holds.2⟩

section
variable {C : Prog σ L Q A M F β → σ → Prop} {post : β → List L → σ → Prop} {thrown : List L → σ → Prop}

@[simp] theorem sec_ret (b : β) : sec R C (.ret b) h s post thrown ↔ post b h s := Iff.rfl
@[simp] theorem sec_pure (b : β) : sec R C (pure b) h s post thrown ↔ post b h s := Iff.rfl
@[simp] theorem sec_require {C : Prog σ L Q A M F Unit → σ → Prop} {post : Unit → List L → σ → Prop}
    (c : Prop) [Decidable c] (why : F) :
    sec R C (Prog.require c why) h s post thrown ↔ c ∧ post () h s := by
  by_cases holds : c <;> simp [Prog.require,holds,sec]
/-- An operation without mutexes is a section of its own. -/
theorem sec_act (f : σ → σ) (k : σ → Prog σ L Q A M F β) :
    sec R C (.act f k) [] s post thrown ↔ R.seen none [] s (f s) ∧ C (k s) (f s) := by simp [sec]
theorem sec_step_ok {g : σ → Except F (β × σ)} {b : β} {u : σ} (runs : g s = .ok (b,u)) :
    sec R C (Prog.step g) [] s post thrown ↔ R.seen none [] s u ∧ C (.ret b) u := by
  simp only [Prog.step,sec,runs,if_true]
@[simp] theorem sec_acquire {C : Prog σ L Q A M F Unit → σ → Prop} {post : Unit → List L → σ → Prop} (l : L) :
    sec R C (Prog.acquire l) h s post thrown ↔ l ∉ h ∧ R.seen none (l :: h) s s ∧ post () (l :: h) s := Iff.rfl
/-- With the last mutex a section ends. -/
theorem sec_release {C : Prog σ L Q A M F Unit → σ → Prop} {post : Unit → List L → σ → Prop} (l : L) :
    sec R C (Prog.release l) [l] s post thrown ↔ R.seen none [] s s ∧ C (.ret ()) s := by
  simp [Prog.release,sec]

end

theorem sec_bind {C : Prog σ L Q A M F β → σ → Prop} {post : β → List L → σ → Prop}
    {thrown : List L → σ → Prop} {p : Prog σ L Q A M F α} {next : α → Prog σ L Q A M F β} :
    sec R C (p.bind next) h s post thrown ↔
      sec R (fun p' s' => C (p'.bind next) s') p h s (fun a h' s' => sec R C (next a) h' s' post thrown) thrown := by
  induction p generalizing h s with
  | ret a => rfl
  | raise => rfl
  | fail why => rfl
  | act f k ih => simp only [Prog.bind,sec,ih]
  | ask q k ih => simp only [Prog.bind,sec,ih]
  | lock l k ih => simp only [Prog.bind,sec,ih]
  | unlock l k ih => simp only [Prog.bind,sec,ih]
  | mark m k ih => simp only [Prog.bind,sec,ih]

@[simp] theorem sec_seq {C : Prog σ L Q A M F β → σ → Prop} {post : β → List L → σ → Prop} {thrown : List L → σ → Prop}
    {p : Prog σ L Q A M F α} {next : α → Prog σ L Q A M F β} :
    sec R C (p >>= next) h s post thrown ↔
      sec R (fun p' s' => C (p'.bind next) s') p h s (fun a h' s' => sec R C (next a) h' s' post thrown) thrown := sec_bind

theorem sec_mono {C C' : Prog σ L Q A M F α → σ → Prop} {post post' : α → List L → σ → Prop}
    {thrown : List L → σ → Prop} {p : Prog σ L Q A M F α}
    (cuts : ∀ p s, C p s → C' p s) (ends : ∀ a h s, post a h s → post' a h s)
    (holds : sec R C p h s post thrown) : sec R C' p h s post' thrown := by
  induction p generalizing h s with
  | ret a => exact ends a h s holds
  | raise => exact holds
  | fail why => exact holds
  | act f k ih =>
    refine ⟨holds.1,?_⟩
    by_cases none : h = []
    · have after := holds.2; rw [if_pos none] at after ⊢; exact cuts _ _ after
    · have after := holds.2; rw [if_neg none] at after ⊢; exact ih s after
  | ask q k ih =>
    intro a ok
    have after := holds a ok
    by_cases none : h = []
    · rw [if_pos none] at after ⊢; exact cuts _ _ after
    · rw [if_neg none] at after ⊢; exact ih a after
  | lock l k ih => exact ⟨holds.1,holds.2.1,ih holds.2.2⟩
  | unlock l k ih =>
    refine ⟨holds.1,holds.2.1,?_⟩
    by_cases none : h.erase l = []
    · have after := holds.2.2; rw [if_pos none] at after ⊢; exact cuts _ _ after
    · have after := holds.2.2; rw [if_neg none] at after ⊢; exact ih after
  | mark m k ih =>
    refine ⟨holds.1,?_⟩
    by_cases none : h = []
    · have after := holds.2; rw [if_pos none] at after ⊢; exact cuts _ _ after
    · have after := holds.2; rw [if_neg none] at after ⊢; exact ih after

/-- A block that holds a mutex is one section, if its own run lets go of no other. -/
theorem sec_holding {I : Rules σ L Q A M} {C : Prog σ L Q A M F α → σ → Prop} {post : α → List L → σ → Prop}
    {thrown : List L → σ → Prop} {l : L} {p : Prog σ L Q A M F α} (answers : ∀ s q a, R.allowed s q a → I.allowed s q a)
    (sees : ∀ m h s s', I.seen m h s s' → h ≠ []) (all : ∀ m h s s', R.seen m h s s')
    (holds : wp I p [l] s (fun a h' s' => h' = [l] ∧ C (.ret a) s') (fun _ _ => False)) :
    sec R C (p.holding l) [] s post thrown := by
  refine ⟨List.not_mem_nil,all _ _ _ _,sec_bind.mpr ?_⟩
  refine sec_of_wp answers (fun m h s s' seen => ⟨sees m h s s' seen,all _ _ _ _⟩) (List.cons_ne_nil _ _)
    (wp_mono (fun _ _ _ ok => ok) (fun _ _ _ _ ok => ok) ?_ (fun _ _ impossible => impossible.elim) holds)
  rintro a _ s' ⟨rfl,here⟩
  refine ⟨List.mem_singleton_self _,all _ _ _ _,?_⟩
  rw [List.erase_cons_head,if_pos rfl]
  exact here

theorem sec_locked {I : Rules σ L Q A M} {C : Prog σ L Q A M F α → σ → Prop} {post : α → List L → σ → Prop}
    {thrown : List L → σ → Prop} {l : L} {p : Prog σ L Q A M F α} (answers : ∀ s q a, R.allowed s q a → I.allowed s q a)
    (sees : ∀ m h s s', I.seen m h s s' → h ≠ []) (all : ∀ m h s s', R.seen m h s s')
    (holds : wp I p [l] s (fun a h' s' => h' = [l] ∧ C (.ret a) s') (fun _ _ => False)) :
    sec R C (p.locked l) [] s post thrown := by
  have caught : wp I (p.unlocking l) [l] s (fun a h' s' => h' = [l] ∧ C (.ret a) s') (fun _ _ => False) := wp_unlocking l
    (wp_mono (fun _ _ _ ok => ok) (fun _ _ _ _ ok => ok) (fun _ _ _ ok => ok) (fun _ _ impossible => impossible.elim) holds)
  exact sec_holding answers sees all caught

/-- A section of a thread that runs alone: the first operation, and the following
    ones as long as mutexes are held. -/
inductive Within (allowed : σ → Q → A → Prop) (p : Prog σ L Q A M F α) (s : σ) : Prog σ L Q A M F α × List L × σ → Prop
  | first {d : Prog σ L Q A M F α × List L × σ} (move : Move allowed (p,[],s) d) : Within allowed p s d
  | next {c d : Prog σ L Q A M F α × List L × σ} (before : Within allowed p s c)
      (held : c.2.1 ≠ []) (move : Move allowed c d) :
      Within allowed p s d

/-- What is left of a program after a whole section, and the state then. -/
def Section (allowed : σ → Q → A → Prop) (p : Prog σ L Q A M F α) (s : σ) (p' : Prog σ L Q A M F α) (s' : σ) : Prop :=
  Within allowed p s (p',[],s')

/-- A further operation of a section that has not ended. -/
theorem Within.extend {allowed : σ → Q → A → Prop} {p : Prog σ L Q A M F α} {c d : Prog σ L Q A M F α × List L × σ}
    (here : c = (p,[],s) ∨ c.2.1 ≠ [] ∧ Within allowed p s c) (move : Move allowed c d) : Within allowed p s d := by
  rcases here with rfl | ⟨held,before⟩
  · exact .first move
  · exact .next before held move

theorem Within.begins {allowed : σ → Q → A → Prop} {p : Prog σ L Q A M F α} {d : Prog σ L Q A M F α × List L × σ}
    (run : Within allowed p s d) : ∃ c, Move allowed (p,[],s) c := by
  induction run with
  | first move => exact ⟨_,move⟩
  | next _ _ _ ih => exact ih

/-- The section that `answers` determine, from where the thread holds `h`. -/
def execSection (ok : σ → Q → A → Bool) : Prog σ L Q A M F α → List A → List L → σ → Option (Prog σ L Q A M F α × σ)
  | .act f k, answers, h, s => if h = [] then some (k s,f s) else execSection ok (k s) answers h (f s)
  | .ask q k, a :: answers, h, s =>
    if ok s q a then if h = [] then some (k a,s) else execSection ok (k a) answers h s else none
  | .lock l k, answers, h, s => if l ∈ h then none else execSection ok k answers (l :: h) s
  | .unlock l k, answers, h, s =>
    if l ∈ h then if h.erase l = [] then some (k,s) else execSection ok k answers (h.erase l) s else none
  | .mark _ k, answers, h, s => if h = [] then some (k,s) else execSection ok k answers h s
  | _, _, _, _ => none

/-- What `execSection` computes is a section. -/
theorem execSection_within {allowed : σ → Q → A → Prop} {ok : σ → Q → A → Bool}
    (sound : ∀ s q a, ok s q a = true → allowed s q a)
    {p₀ p' : Prog σ L Q A M F α} {s₀ s' : σ} (p : Prog σ L Q A M F α) : ∀ answers h s,
      ((p,h,s) = (p₀,[],s₀) ∨ h ≠ [] ∧ Within allowed p₀ s₀ (p,h,s)) → execSection ok p answers h s = some (p',s') →
      Section allowed p₀ s₀ p' s' := by
  induction p with
  | ret a => intro answers h s _ result; cases result
  | raise => intro answers h s _ result; cases result
  | fail why => intro answers h s _ result; cases result
  | act f k ih =>
    intro answers h s at_ result
    have within := Within.extend at_ (.act f k h s)
    by_cases free : h = []
    · rw [execSection,if_pos free] at result
      cases result
      rw [free] at within; exact within
    · rw [execSection,if_neg free] at result
      exact ih s answers h (f s) (.inr ⟨free,within⟩) result
  | ask q k ih =>
    intro answers h s at_ result
    cases answers with
    | nil => cases result
    | cons a rest =>
      by_cases good : ok s q a = true
      · have within := Within.extend at_ (.ask k h (sound s q a good))
        by_cases free : h = []
        · rw [execSection,if_pos good,if_pos free] at result
          cases result
          rw [free] at within; exact within
        · rw [execSection,if_pos good,if_neg free] at result
          exact ih a rest h s (.inr ⟨free,within⟩) result
      · rw [execSection,if_neg good] at result; cases result
  | lock l k ih =>
    intro answers h s at_ result
    by_cases held : l ∈ h
    · rw [execSection,if_pos held] at result; cases result
    · rw [execSection,if_neg held] at result
      exact ih answers (l :: h) s (.inr ⟨List.cons_ne_nil _ _,Within.extend at_ (.lock k s held)⟩) result
  | unlock l k ih =>
    intro answers h s at_ result
    by_cases held : l ∈ h
    · have within := Within.extend at_ (.unlock k s held)
      rw [execSection,if_pos held] at result
      by_cases free : h.erase l = []
      · rw [if_pos free] at result
        cases result
        rw [free] at within; exact within
      · rw [if_neg free] at result
        exact ih answers (h.erase l) s (.inr ⟨free,within⟩) result
    · rw [execSection,if_neg held] at result; cases result
  | mark m k ih =>
    intro answers h s at_ result
    have within := Within.extend at_ (.mark m k h s)
    by_cases free : h = []
    · rw [execSection,if_pos free] at result
      cases result
      rw [free] at within; exact within
    · rw [execSection,if_neg free] at result
      exact ih answers h s (.inr ⟨free,within⟩) result

/-- A program that fails under its first mutex does not come to the end of a section. -/
theorem Within.failing {allowed : σ → Q → A → Prop} {m : L} {why : F} {d : Prog σ L Q A M F α × List L × σ}
    (run : Within allowed (.lock m (.fail why)) s d) : d = (.fail why,[m],s) := by
  induction run with
  | first move =>
    cases move with
    | lock k s free => rfl
  | next before held move ih =>
    subst ih
    cases move

theorem sec_move {C : Prog σ L Q A M F α → σ → Prop} {post : α → List L → σ → Prop} {thrown : List L → σ → Prop}
    {p p' : Prog σ L Q A M F α} {h' : List L} {s' : σ} (move : Move R.allowed (p,h,s) (p',h',s'))
    (holds : sec R C p h s post thrown) : if h' = [] then C p' s' else sec R C p' h' s' post thrown := by
  cases move with
  | act f k => exact holds.2
  | ask k _ ok => exact holds _ ok
  | lock k _ free => rw [if_neg (List.cons_ne_nil _ _)]; exact holds.2.2
  | unlock k _ held => exact holds.2.2
  | mark m k => exact holds.2

/-- Within a section nothing goes wrong, and it ends in the condition of the cut. -/
theorem sec_within {C : Prog σ L Q A M F α → σ → Prop} {post : α → List L → σ → Prop} {thrown : List L → σ → Prop}
    {p : Prog σ L Q A M F α} {d : Prog σ L Q A M F α × List L × σ} (run : Within R.allowed p s d)
    (holds : sec R C p [] s post thrown) : if d.2.1 = [] then C d.1 d.2.2 else sec R C d.1 d.2.1 d.2.2 post thrown := by
  induction run with
  | first move => exact sec_move move holds
  | next before held move ih =>
    rw [if_neg held] at ih
    exact sec_move move ih

theorem sec_section {C : Prog σ L Q A M F α → σ → Prop} {post : α → List L → σ → Prop} {thrown : List L → σ → Prop}
    {p p' : Prog σ L Q A M F α} {s' : σ} (run : Section R.allowed p s p' s')
    (holds : sec R C p [] s post thrown) : C p' s' :=
  sec_within run holds

/-- Where a section ends, it is one. -/
theorem sec_sections {C : Prog σ L Q A M F α → σ → Prop} {post : α → List L → σ → Prop} {thrown : List L → σ → Prop}
    {p₀ : Prog σ L Q A M F α} {s₀ : σ} (start : sec R C p₀ [] s₀ post thrown) :
    sec R (fun p' s' => C p' s' ∧ Section R.allowed p₀ s₀ p' s') p₀ [] s₀ post thrown := by
  have general : ∀ (p : Prog σ L Q A M F α) h s, ((p,h,s) = (p₀,[],s₀) ∨ h ≠ [] ∧ Within R.allowed p₀ s₀ (p,h,s)) →
      sec R C p h s post thrown → sec R (fun p' s' => C p' s' ∧ Section R.allowed p₀ s₀ p' s') p h s post thrown := by
    intro p
    induction p with
    | ret a => exact fun h s _ now => now
    | raise => exact fun h s _ now => now
    | fail why => exact fun h s _ now => now
    | act f k ih =>
      intro h s at_ now
      have within := Within.extend at_ (.act f k h s)
      refine ⟨now.1,?_⟩
      by_cases free : h = []
      · subst free
        exact ⟨by simpa using now.2,within⟩
      · have after := now.2
        rw [if_neg free] at after ⊢
        exact ih s h (f s) (.inr ⟨free,within⟩) after
    | ask q k ih =>
      intro h s at_ now a ok
      have within := Within.extend at_ (.ask k h ok)
      by_cases free : h = []
      · subst free
        exact ⟨by simpa using now a ok,within⟩
      · have after := now a ok
        rw [if_neg free] at after ⊢
        exact ih a h s (.inr ⟨free,within⟩) after
    | lock l k ih =>
      exact fun h s at_ now =>
        ⟨now.1,now.2.1,ih (l :: h) s (.inr ⟨List.cons_ne_nil _ _,Within.extend at_ (.lock k s now.1)⟩) now.2.2⟩
    | unlock l k ih =>
      intro h s at_ now
      have within := Within.extend at_ (.unlock k s now.1)
      refine ⟨now.1,now.2.1,?_⟩
      by_cases free : h.erase l = []
      · have after := now.2.2
        rw [if_pos free] at after ⊢
        rw [free] at within
        exact ⟨after,within⟩
      · have after := now.2.2
        rw [if_neg free] at after ⊢
        exact ih (h.erase l) s (.inr ⟨free,within⟩) after
    | mark m k ih =>
      intro h s at_ now
      have within := Within.extend at_ (.mark m k h s)
      refine ⟨now.1,?_⟩
      by_cases free : h = []
      · subst free
        exact ⟨by simpa using now.2,within⟩
      · have after := now.2
        rw [if_neg free] at after ⊢
        exact ih h s (.inr ⟨free,within⟩) after
  exact general p₀ [] s₀ (.inl rfl) start

/-- A condition that every section of a program brings from any state where no
    mutex is held to the next such state holds along the whole run. -/
theorem run_of_sections {J : Prog σ L Q A M F α → σ → Prop} {P : α → σ → Prop} {E : List L → σ → Prop}
    (sections : ∀ p s, J p s → sec R J p [] s (fun a h' s' => h' = [] ∧ P a s') E)
    {p : Prog σ L Q A M F α} (start : J p s) :
    wp R p [] s (fun a h' s' => h' = [] ∧ P a s') E := by
  -- A section that has begun is followed to its end, where `J` starts the next one.
  have general : ∀ (p : Prog σ L Q A M F α) h s, sec R J p h s (fun a h' s' => h' = [] ∧ P a s') E →
      wp R p h s (fun a h' s' => h' = [] ∧ P a s') E := by
    intro p
    induction p with
    | ret a => exact fun h s now => now
    | raise => exact fun h s now => now
    | fail why => exact fun h s now => now
    | act f k ih =>
      intro h s now
      refine ⟨now.1,?_⟩
      by_cases none : h = []
      · have after := now.2; rw [if_pos none] at after
        subst none; exact ih s [] (f s) (sections _ _ after)
      · have after := now.2; rw [if_neg none] at after
        exact ih s h (f s) after
    | ask q k ih =>
      intro h s now a ok
      have after := now a ok
      by_cases none : h = []
      · rw [if_pos none] at after
        subst none; exact ih a [] s (sections _ _ after)
      · rw [if_neg none] at after; exact ih a h s after
    | lock l k ih => exact fun h s now => ⟨now.1,now.2.1,ih (l :: h) s now.2.2⟩
    | unlock l k ih =>
      intro h s now
      refine ⟨now.1,now.2.1,?_⟩
      by_cases none : h.erase l = []
      · have after := now.2.2; rw [if_pos none] at after
        rw [none]; exact ih [] s (sections _ _ after)
      · have after := now.2.2; rw [if_neg none] at after
        exact ih (h.erase l) s after
    | mark m k ih =>
      intro h s now
      refine ⟨now.1,?_⟩
      by_cases none : h = []
      · have after := now.2; rw [if_pos none] at after
        subst none; exact ih [] s (sections _ _ after)
      · have after := now.2; rw [if_neg none] at after
        exact ih h s after
  exact general p [] s (sections p s start)

end

/-! ### No program comes back to itself -/

section
variable {σ L Q A M F α : Type}

/-- What may be left of a program after one operation. -/
inductive Prog.Next : Prog σ L Q A M F α → Prog σ L Q A M F α → Prop
  | act (f : σ → σ) (k : σ → Prog σ L Q A M F α) (s : σ) : Next (k s) (.act f k)
  | ask (q : Q) (k : A → Prog σ L Q A M F α) (a : A) : Next (k a) (.ask q k)
  | lock (l : L) (k : Prog σ L Q A M F α) : Next k (.lock l k)
  | unlock (l : L) (k : Prog σ L Q A M F α) : Next k (.unlock l k)
  | mark (m : M) (k : Prog σ L Q A M F α) : Next k (.mark m k)

theorem Prog.next_wf : WellFounded (Prog.Next (σ := σ) (L := L) (Q := Q) (A := A) (M := M) (F := F) (α := α)) := by
  refine ⟨fun p => ?_⟩
  induction p with
  | ret a => exact ⟨_,fun _ next => nomatch next⟩
  | raise => exact ⟨_,fun _ next => nomatch next⟩
  | fail why => exact ⟨_,fun _ next => nomatch next⟩
  | act f k ih => exact ⟨_,fun _ next => by cases next with | act _ _ s => exact ih s⟩
  | ask q k ih => exact ⟨_,fun _ next => by cases next with | ask _ _ a => exact ih a⟩
  | lock l k ih => exact ⟨_,fun _ next => by cases next with | lock => exact ih⟩
  | unlock l k ih => exact ⟨_,fun _ next => by cases next with | unlock => exact ih⟩
  | mark m k ih => exact ⟨_,fun _ next => by cases next with | mark => exact ih⟩

end

section
variable {σ L Q A M F α : Type} [DecidableEq L] {s : σ}

theorem Move.next {allowed : σ → Q → A → Prop} {c d : Prog σ L Q A M F α × List L × σ} (move : Move allowed c d) :
    d.1.Next c.1 := by
  cases move with
  | act f k h s => exact .act f k s
  | ask k h ok => exact .ask _ k _
  | lock k s free => exact .lock _ k
  | unlock k s held => exact .unlock _ k
  | mark m k h s => exact .mark m k

theorem Move.ne {allowed : σ → Q → A → Prop} {c d : Prog σ L Q A M F α × List L × σ} (move : Move allowed c d) :
    d.1 ≠ c.1 := fun same => by
  have next := move.next
  rw [same] at next
  exact (Prog.next_wf.irrefl).irrefl c.1 next

theorem Within.later {allowed : σ → Q → A → Prop} {p : Prog σ L Q A M F α} {d : Prog σ L Q A M F α × List L × σ}
    (run : Within allowed p s d) : Relation.TransGen Prog.Next d.1 p := by
  induction run with
  | first move => exact .single move.next
  | next before held move ih => exact .head move.next ih

/-- A section leaves less of the program than there was. -/
theorem Section.ne {allowed : σ → Q → A → Prop} {p p' : Prog σ L Q A M F α} {s' : σ} (run : Section allowed p s p' s') :
    p' ≠ p := by
  rintro rfl
  exact (Prog.next_wf.transGen.irrefl).irrefl p' (Within.later run)

/-- A section that begins with an access to the state is that access. -/
theorem Section.of_act {allowed : σ → Q → A → Prop} {f : σ → σ} {k : σ → Prog σ L Q A M F α} {p' : Prog σ L Q A M F α}
    {s' : σ} (run : Section allowed (.act f k) s p' s') : p' = k s ∧ s' = f s := by
  have general : ∀ d : Prog σ L Q A M F α × List L × σ, Within allowed (.act f k) s d → d = (k s,[],f s) := by
    intro d run
    induction run with
    | first move => cases move; rfl
    | next before held move ih =>
      rw [ih] at held
      exact absurd rfl held
  cases general _ run
  exact ⟨rfl,rfl⟩

end

/-! ### Endless runs -/

/-- Whoever has less left to do with each of its moves, and moves at some time after any
    other as long as it is busy, is not busy at some time. -/
theorem done_of_fair {ρ : Type} {r : ρ → ρ → Prop} (wf : WellFounded r) (busy : Nat → Prop) (left : Nat → ρ)
    (falls : ∀ n, busy n → busy (n + 1) → left (n + 1) = left n ∨ r (left (n + 1)) (left n))
    (often : ∀ n, ∃ m, n ≤ m ∧ (busy m → busy (m + 1) → r (left (m + 1)) (left m))) (n : Nat) : ∃ m, n ≤ m ∧ ¬ busy m := by
  by_contra always
  have busy_ : ∀ m, n ≤ m → busy m := fun m after => by
    by_contra idle
    exact always ⟨m,after,idle⟩
  obtain ⟨_,⟨first,after,rfl⟩,least⟩ := wf.has_min (left '' {m | n ≤ m}) ⟨left n,n,le_refl n,rfl⟩
  have after : n ≤ first := after
  have stays : ∀ d, left (first + d) = left first := by
    intro d
    induction d with
    | zero => rfl
    | succ d ih =>
      rcases falls (first + d) (busy_ _ (by omega)) (busy_ _ (by omega)) with same | less
      · exact same.trans ih
      · rw [ih] at less
        exact absurd less (least _ ⟨first + d + 1,show n ≤ first + d + 1 by omega,rfl⟩)
  obtain ⟨m,later,moves⟩ := often first
  obtain ⟨d,rfl⟩ := Nat.exists_eq_add_of_le later
  have less := moves (busy_ _ (by omega)) (busy_ _ (by omega))
  rw [stays d] at less
  exact least _ ⟨first + d + 1,show n ≤ first + d + 1 by omega,rfl⟩ less

end TcAlloc
