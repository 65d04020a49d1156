import TcAlloc.Workloads

/-!
How many calls a workload makes, and for which sizes. Each thread asks for the sizes of
`SizeFor` for the counters `0`, `1` and so on of a round, in this order and in each round
again, in `RunCheck` as in `RunOnce`, whatever the calls return and however the threads
take turns (`Paced`). So the harness has made as many calls as it prints once its threads
are joined (`loops_counted`).
-/
namespace TcAlloc

/-! ### CrossThread -/

namespace CrossThread
variable {α : Type} {slots : Slots α} {c : Config} {s : State c.nworks α} {k : Fin c.nworks} {answer : α} {r i : Nat}

/-- How many blocks the thread has got. -/
def Pc.made (c : Config) : Pc α → Nat
  | .fill r i => r * c.ntimes + i
  | .store r i _ => r * c.ntimes + i + 1
  | .load r _ | .add r _ _ | .spin r _ _ | .test r _ | .give _ r _ | .clear r _ => (r + 1) * c.ntimes
  | .done => c.rounds * c.ntimes

/-- What the move that is next adds to it. -/
def Pc.gains : Pc α → Nat
  | .fill _ _ => 1
  | _ => 0

theorem Pc.made_fillFrom (few : i ≤ c.ntimes) : (c.fillFrom r i : Pc α).made c = r * c.ntimes + i := by
  unfold Config.fillFrom
  split_ifs with more
  · rfl
  · have all : i = c.ntimes := by omega
    rw [all]
    exact Nat.succ_mul r c.ntimes

theorem Pc.made_testFrom : (c.testFrom r i : Pc α).made c = (r + 1) * c.ntimes := by
  unfold Config.testFrom
  split_ifs <;> rfl

theorem Pc.made_roundFrom (round : r ≤ c.rounds) : (c.roundFrom r : Pc α).made c = r * c.ntimes := by
  unfold Config.roundFrom
  split_ifs with more
  · exact Pc.made_fillFrom (Nat.zero_le _)
  · have last : r = c.rounds := by omega
    rw [last]
    rfl

theorem Pc.made_after (round : r < c.rounds) (second : Bool) : (c.after r second : Pc α).made c = (r + 1) * c.ntimes := by
  unfold Config.after
  cases second
  · exact Pc.made_testFrom
  · exact Pc.made_roundFrom round

/-- A thread has not got more than it is to get, and less where it asks for another block. -/
theorem Pc.made_le {pc : Pc α} (fits : pc.Fits c) : pc.made c + pc.gains ≤ c.rounds * c.ntimes := by
  have rounds : ∀ r, r < c.rounds → (r + 1) * c.ntimes ≤ c.rounds * c.ntimes := fun r less => Nat.mul_le_mul_right _ less
  cases pc with
  | fill r i =>
    have all := rounds r fits.1
    have less := fits.2
    rw [Nat.succ_mul] at all
    simp only [Pc.made,Pc.gains]
    omega
  | store r i v =>
    have all := rounds r fits.1
    have less := fits.2
    rw [Nat.succ_mul] at all
    simp only [Pc.made,Pc.gains]
    omega
  | load r second => exact rounds r fits
  | add r second gen => exact rounds r fits
  | spin r second gen => exact rounds r fits
  | test r i => exact rounds r fits.1
  | give at_ r i => exact rounds r fits.1
  | clear r i => exact rounds r fits.1
  | done => exact le_refl _

/-- Only the return of a call of `Alloc` makes it more. -/
theorem advance_made (slots : Slots α) (answer : α) (fits : (s.pcs k).Fits c) :
    ((advance slots c s k answer).1.pcs k).made c = (s.pcs k).made c + (s.pcs k).gains := by
  cases here : s.pcs k with
  | fill r i =>
    simp only [advance,here,goto_self]
    rfl
  | store r i v =>
    rw [here] at fits
    simp only [advance,here,goto_self]
    exact Pc.made_fillFrom fits.2
  | load r second =>
    simp only [advance,here,goto_self]
    rfl
  | add r second gen =>
    rw [here] at fits
    simp only [advance,here]
    split_ifs
    · rw [goto_self]
      exact Pc.made_after fits second
    · rw [goto_self]
      rfl
  | spin r second gen =>
    rw [here] at fits
    simp only [advance,here]
    split_ifs
    · rw [here]
      rfl
    · rw [goto_self]
      exact Pc.made_after fits second
  | test r i =>
    simp only [advance,here]
    split_ifs
    · rw [goto_self]
      rfl
    · rw [goto_self]
      exact Pc.made_testFrom
  | give at_ r i =>
    cases at_ with
    | look =>
      simp only [advance,here]
      split_ifs <;> rw [goto_self] <;> rfl
    | check =>
      simp only [advance,here,goto_self]
      rfl
    | erase =>
      simp only [advance,here,goto_self]
      rfl
    | free =>
      simp only [advance,here,goto_self]
      rfl
  | clear r i =>
    simp only [advance,here,goto_self]
    exact Pc.made_testFrom
  | done =>
    simp only [advance,here]
    rfl

end CrossThread

namespace Workload
open CrossThread (Slots State Pc advance advance_fits advance_others advance_made)

/-! ### What is shown of the calls -/

section
variable {nworks : Nat} {α : Type}

/-- The size that the thread asks for. -/
def Deal.asked (k : Fin nworks) : Deal nworks α → Option Nat
  | .takes k' n => if k' = k then some n else none
  | _ => none

/-- What the thread gets. -/
def Deal.got (k : Fin nworks) : Deal nworks α → Option α
  | .took k' v => if k' = k then some v else none
  | _ => none

/-- What a thread gets, whichever it is. -/
def Deal.had : Deal nworks α → Option α
  | .took _ v => some v
  | _ => none

/-- A block that a thread gets. -/
def Deal.taken (slots : Slots α) : Deal nworks α → Option α
  | .took _ v => if slots.ptr v = 0 then none else some v
  | _ => none

/-- A block that a thread gives back. -/
def Deal.given (slots : Slots α) : Deal nworks α → Option α
  | .gives _ v => if slots.ptr v = 0 then none else some v
  | _ => none

theorem filterMap_concat {β γ : Type} (f : β → Option γ) (l : List β) (a : β) :
    (l ++ [a]).filterMap f = l.filterMap f ++ (f a).toList := by
  cases seen : f a <;> simp [seen]

/-- A call that is not yet over. -/
def Busy.open_ : Busy → Nat
  | .taking => 1
  | _ => 0

/-- What has been shown of a thread that has got `made` blocks. -/
structure Paced (c : Config) (k : Fin nworks) (shown : List (Deal nworks α)) (made : Nat) (busy : Busy) : Prop where
  asked : (shown.filterMap (Deal.asked k)).length = made + busy.open_
  got : (shown.filterMap (Deal.got k)).length = made
  sizes : ∀ j n, (shown.filterMap (Deal.asked k))[j]? = some n → ∃ draw, n = sizeFor c.sizeMode (j % c.ntimes) draw

section
variable {c : Config} {k : Fin nworks} {shown : List (Deal nworks α)} {made : Nat} {busy busy' : Busy} {m : Deal nworks α}

theorem paced_nil (c : Config) (k : Fin nworks) : Paced c k ([] : List (Deal nworks α)) 0 .no :=
  ⟨rfl,rfl,fun _ _ none_ => by simp at none_⟩

/-- What is shown is no call of `Take` by the thread. -/
theorem Paced.other (paced : Paced c k shown made busy) (asked : m.asked k = none) (got : m.got k = none)
    (same : busy'.open_ = busy.open_) : Paced c k (shown ++ [m]) made busy' := by
  have asks : (shown ++ [m]).filterMap (Deal.asked k) = shown.filterMap (Deal.asked k) := by
    rw [filterMap_concat,asked,Option.toList_none,List.append_nil]
  refine ⟨?_,?_,?_⟩
  · rw [asks,same]
    exact paced.asked
  · rw [filterMap_concat,got,Option.toList_none,List.append_nil]
    exact paced.got
  · rw [asks]
    exact paced.sizes

theorem Paced.takes (paced : Paced c k shown made .no) (draw : Nat) :
    Paced c k (shown ++ [.takes k (sizeFor c.sizeMode (made % c.ntimes) draw)]) made .taking := by
  have length : (shown.filterMap (Deal.asked k)).length = made := paced.asked
  have asked : (Deal.takes k (sizeFor c.sizeMode (made % c.ntimes) draw) : Deal nworks α).asked k =
      some (sizeFor c.sizeMode (made % c.ntimes) draw) := if_pos rfl
  have asks : (shown ++ [Deal.takes k (sizeFor c.sizeMode (made % c.ntimes) draw)]).filterMap (Deal.asked k) =
      shown.filterMap (Deal.asked k) ++ [sizeFor c.sizeMode (made % c.ntimes) draw] := by
    rw [filterMap_concat,asked,Option.toList_some]
  refine ⟨?_,?_,?_⟩
  · rw [asks,List.length_append,length]
    rfl
  · rw [filterMap_concat,show (Deal.takes k _ : Deal nworks α).got k = none from rfl,Option.toList_none,List.append_nil]
    exact paced.got
  · intro j n there
    rw [asks] at there
    by_cases old : j < made
    · rw [List.getElem?_append_left (by rw [length]; exact old)] at there
      exact paced.sizes j n there
    · rw [List.getElem?_append_right (by rw [length]; omega),length] at there
      obtain ⟨first,_⟩ := List.getElem?_eq_some_iff.mp there
      rw [List.length_singleton] at first
      have last : j = made := by omega
      subst last
      rw [Nat.sub_self] at there
      exact ⟨draw,(Option.some.inj there).symm⟩

theorem Paced.took (paced : Paced c k shown made .taking) (v : α) : Paced c k (shown ++ [.took k v]) (made + 1) .no := by
  have got : (Deal.took k v).got k = some v := if_pos rfl
  have asks : (shown ++ [Deal.took k v]).filterMap (Deal.asked k) = shown.filterMap (Deal.asked k) := by
    rw [filterMap_concat,show (Deal.took k v).asked k = none from rfl,Option.toList_none,List.append_nil]
  refine ⟨?_,?_,?_⟩
  · rw [asks]
    exact paced.asked
  · rw [filterMap_concat,got,Option.toList_some,List.length_append,paced.got]
    rfl
  · rw [asks]
    exact paced.sizes

end

/-! ### Loops that a thread runs on its own -/

variable {τ : Type}

/-- What a place knows of the blocks that its thread has got, with each move accounting for them. -/
structure Paces (c : Config) (next : τ → Move α τ) (fits : τ → Prop) (made : τ → Nat) : Prop where
  few : ∀ s, fits s → made s ≤ c.rounds * c.ntimes
  stops : ∀ s, fits s → next s = .stops → made s = c.rounds * c.ntimes
  goes : ∀ s s', fits s → next s = .goes s' → fits s' ∧ made s' = made s
  takes : ∀ s size f, fits s → next s = .takes size f →
    size = sizeFor c.sizeMode (made s % c.ntimes) ∧ ∀ v, fits (f v) ∧ made (f v) = made s + 1
  gives : ∀ s v s', fits s → next s = .gives v s' → fits s' ∧ made s' = made s

/-- A thread, and what has been shown of it. -/
structure Workers.AtPace (c : Config) (next : τ → Move α τ) (fits : τ → Prop) (made : τ → Nat) (w : Workers nworks τ)
    (shown : List (Deal nworks α)) (k : Fin nworks) : Prop where
  fits : fits (w.at_ k)
  paced : Paced c k shown (made (w.at_ k)) (w.busy k)
  taking : w.busy k = .taking → ∃ size f, next (w.at_ k) = .takes size f

section
variable {c : Config} {next : τ → Move α τ} {fits : τ → Prop} {made : τ → Nat} {w w' : Workers nworks τ}
  {shown : List (Deal nworks α)} {a : Option (Deal nworks α)} {k k' : Fin nworks}

/-- The step is one of another thread. -/
theorem Workers.AtPace.aside (pace : w.AtPace c next fits made shown k) (at_ : w'.at_ k = w.at_ k)
    (busy : w'.busy k = w.busy k) {m : Deal nworks α} (asked : m.asked k = none) (got : m.got k = none) :
    w'.AtPace c next fits made (shown ++ [m]) k := by
  refine ⟨?_,?_,?_⟩
  · rw [at_]
    exact pace.fits
  · rw [at_,busy]
    exact pace.paced.other asked got rfl
  · rw [at_,busy]
    exact pace.taking

theorem Paces.step (paces : Paces c next fits made) (pace : ∀ k, w.AtPace c next fits made shown k)
    (step : WorkersStep next w a w') (k : Fin nworks) : w'.AtPace c next fits made (shown ++ a.toList) k := by
  cases step with
  | @goes k' s free here =>
    rw [Option.toList_none,List.append_nil]
    by_cases same : k = k'
    · subst same
      obtain ⟨fits',still⟩ := paces.goes _ _ (pace k).fits here
      refine ⟨?_,?_,fun busy => ?_⟩
      · simpa using fits'
      · simpa [still] using (pace k).paced
      · rw [free] at busy
        cases busy
    · refine ⟨?_,?_,?_⟩
      · simpa [same] using (pace k).fits
      · simpa [same] using (pace k).paced
      · simpa [same] using (pace k).taking
  | @takes k' size f draw free here =>
    by_cases same : k = k'
    · subst same
      obtain ⟨rfl,_⟩ := paces.takes _ _ _ (pace k).fits here
      have paced := (pace k).paced
      rw [free] at paced
      refine ⟨(pace k).fits,?_,fun _ => ⟨_,_,here⟩⟩
      simpa using paced.takes draw
    · refine (pace k).aside ?_ (Function.update_of_ne same ..) (if_neg (Ne.symm same)) rfl
      rfl
  | @took k' size f v busy here =>
    by_cases same : k = k'
    · subst same
      obtain ⟨_,next'⟩ := paces.takes _ _ _ (pace k).fits here
      have paced := (pace k).paced
      rw [busy] at paced
      refine ⟨?_,?_,fun busy => ?_⟩
      · simpa using (next' v).1
      · simpa [(next' v).2] using paced.took v
      · simp at busy
    · exact (pace k).aside (Function.update_of_ne same ..) (Function.update_of_ne same ..) rfl (if_neg (Ne.symm same))
  | @gives k' v s free here =>
    by_cases same : k = k'
    · subst same
      obtain ⟨fits',still⟩ := paces.gives _ _ _ (pace k).fits here
      have paced := (pace k).paced
      rw [free] at paced
      refine ⟨?_,?_,fun busy => ?_⟩
      · simpa using fits'
      · have next' : Paced c k (shown ++ [.gives k v]) (made (w.at_ k)) .giving := paced.other rfl rfl rfl
        simpa [still] using next'
      · simp at busy
    · exact (pace k).aside (Function.update_of_ne same ..) (Function.update_of_ne same ..) rfl rfl
  | @gave k' busy =>
    by_cases same : k = k'
    · subst same
      have paced := (pace k).paced
      rw [busy] at paced
      have next' : Paced c k (shown ++ [.gave k]) (made (w.at_ k)) .no := paced.other rfl rfl rfl
      refine ⟨(pace k).fits,?_,fun busy => ?_⟩
      · simpa using next'
      · simp at busy
    · refine (pace k).aside ?_ (Function.update_of_ne same ..) rfl rfl
      rfl

/-- Threads that start with nothing are at their pace in every run. -/
theorem Paces.run (paces : Paces c next fits made) {start : τ} (begins : fits start) (none_ : made start = 0)
    (init : (workers nworks next start).init w) (run : (workers nworks next start).Runs w shown w') (k : Fin nworks) :
    w'.AtPace c next fits made shown k := by
  refine run.keeps (P := fun shown w => ∀ k, w.AtPace c next fits made shown k) ?_ ?_ k
  · intro k
    cases (show w = _ from init)
    refine ⟨begins,?_,fun busy => ?_⟩
    · rw [none_]
      exact paced_nil c k
    · cases busy
  · intro shown w a w' pace step
    exact paces.step pace step

end

/-- What has been shown of a thread that is to get `made` blocks, and has made no call too many. -/
theorem Paced.asked_le {c : Config} {k : Fin nworks} {shown : List (Deal nworks α)} {made : Nat} {busy : Busy}
    (paced : Paced c k shown made busy) (gains : Nat) (few : made + gains ≤ c.rounds * c.ntimes)
    (taking : busy = .taking → gains = 1) : (shown.filterMap (Deal.asked k)).length ≤ c.rounds * c.ntimes := by
  rw [paced.asked]
  cases busy with
  | no => exact (Nat.le_add_right made gains).trans few
  | giving => exact (Nat.le_add_right made gains).trans few
  | taking =>
    rw [taking rfl] at few
    exact few

/-- A thread at its pace has made no call too many, and all of them when the threads have
    stopped. -/
theorem Paces.counts {c : Config} {next : τ → Move α τ} {fits : τ → Prop} {made : τ → Nat} {w : Workers nworks τ}
    {shown : List (Deal nworks α)} {k : Fin nworks} (paces : Paces c next fits made) (slots : Slots α)
    (pace : w.AtPace c next fits made shown k) :
    ∃ made busy, Paced c k shown made busy ∧ (shown.filterMap (Deal.asked k)).length ≤ c.rounds * c.ntimes ∧
      ((∀ k, next (w.at_ k) = .stops) → made = c.rounds * c.ntimes ∧ busy.open_ = 0) := by
  cases busy : w.busy k with
  | taking =>
    -- That the call may return shows that its thread has not got all.
    obtain ⟨size,f,here⟩ := pace.taking busy
    obtain ⟨_,after⟩ := paces.takes _ _ _ pace.fits here
    obtain ⟨fits',more⟩ := after slots.empty
    have few := paces.few _ fits'
    rw [more] at few
    refine ⟨_,_,pace.paced,pace.paced.asked_le 1 few (fun _ => rfl),fun past => ?_⟩
    rw [past k] at here
    cases here
  | no =>
    have few := pace.paced.asked_le 0 (paces.few _ pace.fits) (fun taking => by rw [busy] at taking; cases taking)
    exact ⟨_,_,pace.paced,few,fun past => ⟨paces.stops _ pace.fits (past k),by rw [busy]; rfl⟩⟩
  | giving =>
    have few := pace.paced.asked_le 0 (paces.few _ pace.fits) (fun taking => by rw [busy] at taking; cases taking)
    exact ⟨_,_,pace.paced,few,fun past => ⟨paces.stops _ pace.fits (past k),by rw [busy]; rfl⟩⟩

/-! ### BulkThenFree -/

namespace Bulk

def made (c : Config) (s : Bulk α) : Nat := if s.giving then (s.r + 1) * c.ntimes else s.r * c.ntimes + s.i

structure Steady (c : Config) (s : Bulk α) : Prop where
  rounds : s.r ≤ c.rounds
  few : s.giving = false → s.i ≤ c.ntimes
  ended : ¬ s.r < c.rounds → s.giving = false ∧ s.i = 0

theorem paces (slots : Slots α) (c : Config) : Paces c (bulk slots c) (Steady c) (made c) where
  few := by
    intro s steady
    by_cases round : s.r < c.rounds
    · have all : (s.r + 1) * c.ntimes ≤ c.rounds * c.ntimes := Nat.mul_le_mul_right _ round
      unfold made
      split_ifs with giving
      · exact all
      · have few := steady.few (by simpa using giving)
        rw [Nat.succ_mul] at all
        omega
    · obtain ⟨giving,none_⟩ := steady.ended round
      rw [made,giving,none_]
      exact Nat.mul_le_mul_right _ steady.rounds
  stops := by
    intro s steady here
    unfold bulk at here
    split_ifs at here with round
    obtain ⟨giving,none_⟩ := steady.ended round
    have last : s.r = c.rounds := Nat.le_antisymm steady.rounds (Nat.le_of_not_lt round)
    rw [made,giving,none_,last]
    rfl
  goes := by
    intro s s' steady here
    unfold bulk at here
    split_ifs at here with round giving more more
    · cases here
      refine ⟨⟨round,fun _ => Nat.zero_le _,fun _ => ⟨rfl,rfl⟩⟩,?_⟩
      simp [made,giving]
    · cases here
      have few := steady.few (by simpa using giving)
      have all : s.i = c.ntimes := by omega
      refine ⟨⟨steady.rounds,fun _ => Nat.zero_le _,fun past => absurd round past⟩,?_⟩
      simp [made,giving,all,Nat.succ_mul]
  takes := by
    intro s size f steady here
    unfold bulk at here
    split_ifs at here with round giving more more
    cases here
    have place : made c s = s.r * c.ntimes + s.i := if_neg giving
    refine ⟨?_,fun v => ⟨⟨steady.rounds,fun _ => more,fun past => absurd round past⟩,?_⟩⟩
    · rw [place,Nat.mul_add_mod',Nat.mod_eq_of_lt more]
    · simp [made,giving]
      omega
  gives := by
    intro s v s' steady here
    unfold bulk at here
    split_ifs at here with round giving more more
    cases here
    refine ⟨⟨steady.rounds,fun filling => ?_,fun past => absurd round past⟩,?_⟩
    · simp only [giving] at filling
      cases filling
    · simp [made,giving]

end Bulk

/-! ### Interleaved -/

namespace Ringed

def made (c : Config) (s : Ringed α) : Nat :=
  match s.turn with
  | .takes => s.r * c.ntimes + s.i
  | .swaps _ | .puts _ => s.r * c.ntimes + s.i + 1
  | .drains => (s.r + 1) * c.ntimes

/-- How far the loop of a round is. -/
def Near (c : Config) (s : Ringed α) : Prop :=
  match s.turn with
  | .takes => s.i ≤ c.ntimes
  | .swaps _ | .puts _ => s.i < c.ntimes
  | .drains => True

structure Steady (c : Config) (s : Ringed α) : Prop where
  rounds : s.r ≤ c.rounds
  near : s.Near c
  ended : ¬ s.r < c.rounds → s.turn = .takes ∧ s.i = 0

theorem paces (slots : Slots α) (c : Config) : Paces c (interleaved slots c) (Steady c) (made c) where
  few := by
    intro s steady
    by_cases round : s.r < c.rounds
    · have all : (s.r + 1) * c.ntimes ≤ c.rounds * c.ntimes := Nat.mul_le_mul_right _ round
      have before : s.r * c.ntimes + c.ntimes ≤ c.rounds * c.ntimes := Nat.succ_mul s.r c.ntimes ▸ all
      have near := steady.near
      cases turn : s.turn with
      | takes =>
        simp only [Near,turn] at near
        simp only [made,turn]
        omega
      | swaps v =>
        simp only [Near,turn] at near
        simp only [made,turn]
        omega
      | puts v =>
        simp only [Near,turn] at near
        simp only [made,turn]
        omega
      | drains =>
        simp only [made,turn]
        exact all
    · obtain ⟨turn,none_⟩ := steady.ended round
      rw [made,turn,none_]
      exact Nat.mul_le_mul_right _ steady.rounds
  stops := by
    intro s steady here
    unfold interleaved at here
    by_cases round : s.r < c.rounds
    · rw [if_pos round] at here
      split at here <;> first | cases here | split_ifs at here
    · obtain ⟨turn,none_⟩ := steady.ended round
      have last : s.r = c.rounds := Nat.le_antisymm steady.rounds (Nat.le_of_not_lt round)
      rw [made,turn,none_,last]
      rfl
  goes := by
    intro s s' steady here
    unfold interleaved at here
    by_cases round : s.r < c.rounds
    swap
    · rw [if_neg round] at here
      cases here
    rw [if_pos round] at here
    have near := steady.near
    unfold Near at near
    split at here
    · next turn =>
      rw [turn] at near
      split_ifs at here with more
      cases here
      have all : s.i = c.ntimes := Nat.le_antisymm near (Nat.le_of_not_lt more)
      refine ⟨⟨steady.rounds,trivial,fun past => absurd round past⟩,?_⟩
      simp only [made,turn,all,Nat.succ_mul]
    · next v turn =>
      rw [turn] at near
      split_ifs at here with null
      cases here
      refine ⟨⟨steady.rounds,near,fun past => absurd round past⟩,?_⟩
      simp only [made,turn]
    · next v turn =>
      rw [turn] at near
      cases here
      refine ⟨⟨steady.rounds,near,fun past => absurd round past⟩,?_⟩
      simp only [made,turn]
      rfl
    · next turn =>
      split_ifs at here with more null
      · cases here
        refine ⟨⟨steady.rounds,?_,fun past => absurd round past⟩,?_⟩
        · simp only [Near,turn]
        · simp only [made,turn]
      · cases here
        refine ⟨⟨round,Nat.zero_le _,fun _ => ⟨rfl,rfl⟩⟩,?_⟩
        simp only [made,turn]
        rfl
  takes := by
    intro s size f steady here
    unfold interleaved at here
    by_cases round : s.r < c.rounds
    swap
    · rw [if_neg round] at here
      cases here
    rw [if_pos round] at here
    split at here
    · next turn =>
      split_ifs at here with more
      cases here
      have place : made c s = s.r * c.ntimes + s.i := by simp only [made,turn]
      refine ⟨?_,fun v => ⟨⟨steady.rounds,more,fun past => absurd round past⟩,?_⟩⟩
      · rw [place,Nat.mul_add_mod',Nat.mod_eq_of_lt more]
      · rw [place]
        rfl
    · split_ifs at here
    · cases here
    · split_ifs at here
  gives := by
    intro s v s' steady here
    unfold interleaved at here
    by_cases round : s.r < c.rounds
    swap
    · rw [if_neg round] at here
      cases here
    rw [if_pos round] at here
    have near := steady.near
    unfold Near at near
    split at here
    · split_ifs at here
    · next w turn =>
      rw [turn] at near
      split_ifs at here
      cases here
      refine ⟨⟨steady.rounds,near,fun past => absurd round past⟩,?_⟩
      simp only [made,turn]
    · cases here
    · next turn =>
      split_ifs at here
      cases here
      refine ⟨⟨steady.rounds,?_,fun past => absurd round past⟩,?_⟩
      · simp only [Near,turn]
      · simp only [made,turn]

end Ringed

/-! ### CrossThread, with its calls -/

namespace Cross

/-- A thread of the workload, and what has been shown of it. -/
structure AtPace {c : Config} (d : Cross c α) (shown : List (Deal c.nworks α)) (k : Fin c.nworks) : Prop where
  fits : (d.state.pcs k).Fits c.toConfig
  paced : Paced c k shown ((d.state.pcs k).made c.toConfig) (d.busy k)
  taking : d.busy k = .taking → (d.state.pcs k).gains = 1

section
variable {slots : Slots α} {c : Config} {d d' : Cross c α} {shown : List (Deal c.nworks α)}
  {a : Option (Deal c.nworks α)} {k k' : Fin c.nworks}

/-- The step is one of another thread. -/
theorem AtPace.aside (pace : d.AtPace shown k) (pcs : d'.state.pcs k = d.state.pcs k) (busy : d'.busy k = d.busy k)
    {m : Deal c.nworks α} (asked : m.asked k = none) (got : m.got k = none) : d'.AtPace (shown ++ [m]) k := by
  refine ⟨?_,?_,?_⟩
  · rw [pcs]
    exact pace.fits
  · rw [pcs,busy]
    exact pace.paced.other asked got rfl
  · rw [pcs,busy]
    exact pace.taking

theorem quiet_gains {pc : Pc α} (quiet : Quiet pc) : pc.gains = 0 := by
  cases pc with
  | fill r i => exact quiet.elim
  | _ => rfl

theorem step_pace (pace : ∀ k, d.AtPace shown k) (step : CrossStep slots c d a d') (k : Fin c.nworks) :
    d'.AtPace (shown ++ a.toList) k := by
  have fits : ∀ k, (d.state.pcs k).Fits c.toConfig := fun k => (pace k).fits
  cases step with
  | @moves k' free quiet =>
    rw [Option.toList_none,List.append_nil]
    refine ⟨advance_fits _ k' _ fits k,?_,?_⟩
    · by_cases same : k = k'
      · subst same
        have still := advance_made (direct slots) slots.empty (fits k)
        rw [quiet_gains quiet,Nat.add_zero] at still
        simp only [still]
        exact (pace k).paced
      · simp only [advance_others same]
        exact (pace k).paced
    · by_cases same : k = k'
      · subst same
        intro busy
        rw [show d.busy k = .taking from busy] at free
        cases free
      · simp only [advance_others same]
        exact (pace k).taking
  | @takes k' r i draw free here =>
    by_cases same : k = k'
    · subst same
      have paced := (pace k).paced
      have inside := fits k
      rw [here] at inside
      have made : (d.state.pcs k).made c.toConfig = r * c.ntimes + i := by rw [here]; rfl
      have place : (d.state.pcs k).made c.toConfig % c.ntimes = i := by
        rw [made,Nat.mul_add_mod',Nat.mod_eq_of_lt inside.2]
      rw [free] at paced
      have next := paced.takes draw
      rw [place] at next
      refine ⟨fits k,?_,fun _ => ?_⟩
      · simpa using next
      · rw [show d.state.pcs k = _ from here]
        rfl
    · refine (pace k).aside ?_ (Function.update_of_ne same ..) (if_neg (Ne.symm same)) rfl
      rfl
  | @took k' r i v busy here =>
    by_cases same : k = k'
    · subst same
      have paced := (pace k).paced
      rw [busy] at paced
      have more := advance_made (direct slots) v (fits k)
      rw [(pace k).taking busy] at more
      refine ⟨advance_fits _ k _ fits k,?_,fun busy => ?_⟩
      · simp only [more,Function.update_self]
        exact paced.took v
      · simp at busy
    · exact (pace k).aside (advance_others same) (Function.update_of_ne same ..) rfl (if_neg (Ne.symm same))
  | @gives k' r i free here =>
    by_cases same : k = k'
    · subst same
      have paced := (pace k).paced
      rw [free] at paced
      have still := advance_made (direct slots) slots.empty (fits k)
      have none_ : (d.state.pcs k).gains = 0 := by rw [here]; rfl
      rw [none_,Nat.add_zero] at still
      refine ⟨advance_fits _ k _ fits k,?_,fun busy => ?_⟩
      · simp only [still,Function.update_self]
        exact paced.other rfl rfl rfl
      · simp at busy
    · exact (pace k).aside (advance_others same) (Function.update_of_ne same ..) rfl rfl
  | @gave k' busy =>
    by_cases same : k = k'
    · subst same
      have paced := (pace k).paced
      rw [busy] at paced
      have next : Paced c k (shown ++ [.gave k]) ((d.state.pcs k).made c.toConfig) .no := paced.other rfl rfl rfl
      refine ⟨fits k,?_,fun busy => ?_⟩
      · simpa using next
      · simp at busy
    · refine (pace k).aside ?_ (Function.update_of_ne same ..) rfl rfl
      rfl

theorem run_pace (init : (cross slots c).init d) (run : (cross slots c).Runs d shown d') (k : Fin c.nworks) :
    d'.AtPace shown k := by
  refine run.keeps (P := fun shown d => ∀ k, d.AtPace shown k) ?_ ?_ k
  · intro k
    cases (show d = _ from init)
    refine ⟨CrossThread.Pc.fits_roundFrom,?_,fun busy => ?_⟩
    · have none_ : (c.roundFrom 0 : Pc α).made c.toConfig = 0 := by
        rw [CrossThread.Pc.made_roundFrom (Nat.zero_le _),Nat.zero_mul]
      simp only [CrossThread.start,none_]
      exact paced_nil c k
    · cases busy
  · intro shown d a d' pace step
    exact step_pace pace step

end
end Cross

/-! ### The calls of all threads -/

/-- What is shown of a thread along a run of the loops. -/
theorem loops_paced (slots : Slots α) (c : Config) (pattern : Pattern) {s s' : (loops slots c pattern).At}
    {shown : List (Deal c.nworks α)} (start : (loops slots c pattern).system.init s)
    (run : (loops slots c pattern).system.Runs s shown s') (k : Fin c.nworks) :
    ∃ made busy, Paced c k shown made busy ∧ (shown.filterMap (Deal.asked k)).length ≤ c.rounds * c.ntimes ∧
      ((loops slots c pattern).past s' → made = c.rounds * c.ntimes ∧ busy.open_ = 0) := by
  cases pattern with
  | bulkThenFree =>
    have begins : Bulk.Steady c ({} : Bulk α) := ⟨Nat.zero_le _,fun _ => Nat.zero_le _,fun _ => ⟨rfl,rfl⟩⟩
    have none_ : Bulk.made c ({} : Bulk α) = 0 := by simp [Bulk.made]
    exact (Bulk.paces slots c).counts slots ((Bulk.paces slots c).run begins none_ start run k)
  | interleaved =>
    have begins : Ringed.Steady c { ring := fun _ => slots.empty } := ⟨Nat.zero_le _,Nat.zero_le _,fun _ => ⟨rfl,rfl⟩⟩
    have none_ : Ringed.made c { ring := fun _ => slots.empty } = 0 := by simp [Ringed.made]
    exact (Ringed.paces slots c).counts slots ((Ringed.paces slots c).run begins none_ start run k)
  | crossThread =>
    have pace := Cross.run_pace start run k
    refine ⟨_,_,pace.paced,pace.paced.asked_le _ (CrossThread.Pc.made_le pace.fits) pace.taking,fun past => ?_⟩
    have here : s'.state.pcs k = .done := past k
    refine ⟨by rw [here]; rfl,?_⟩
    cases busy : s'.busy k with
    | taking =>
      have gains := pace.taking busy
      rw [here] at gains
      cases gains
    | _ => rfl

/-- What a pool has taken it has given, or holds. -/
structure Tallied (slots : Slots α) (shown : List (Deal nworks α)) (held : Multiset α) : Prop where
  balance : ((shown.filterMap (Deal.taken slots) : List α) : Multiset α) = (shown.filterMap (Deal.given slots) : List α) + held
  some_ : ∀ v ∈ held, slots.ptr v ≠ 0

section
variable {slots : Slots α} {shown : List (Deal nworks α)} {held held' : Multiset α} {m : Deal nworks α} {v : α}

theorem Tallied.other (tallied : Tallied slots shown held) (taken : m.taken slots = none) (given : m.given slots = none) :
    Tallied slots (shown ++ [m]) held := by
  refine ⟨?_,tallied.some_⟩
  rw [filterMap_concat,filterMap_concat,taken,given,Option.toList_none,List.append_nil,List.append_nil]
  exact tallied.balance

theorem Tallied.takes (tallied : Tallied slots shown held) (taken : m.taken slots = some v) (given : m.given slots = none)
    (nonnull : slots.ptr v ≠ 0) : Tallied slots (shown ++ [m]) (v ::ₘ held) := by
  refine ⟨?_,fun w mem => ?_⟩
  · rw [filterMap_concat,filterMap_concat,taken,given,Option.toList_none,Option.toList_some,List.append_nil,
      ← Multiset.coe_add,tallied.balance,Multiset.coe_singleton,← Multiset.singleton_add]
    abel
  · rcases Multiset.mem_cons.mp mem with rfl | old
    · exact nonnull
    · exact tallied.some_ w old

theorem Tallied.gives (tallied : Tallied slots shown (v ::ₘ held)) (taken : m.taken slots = none)
    (given : m.given slots = some v) : Tallied slots (shown ++ [m]) held := by
  refine ⟨?_,fun w mem => tallied.some_ w (Multiset.mem_cons_of_mem mem)⟩
  rw [filterMap_concat,filterMap_concat,taken,given,Option.toList_none,Option.toList_some,List.append_nil,
    ← Multiset.coe_add,tallied.balance,Multiset.coe_singleton,← Multiset.singleton_add]
  abel

theorem pool_tally (run : (pool slots nworks).Runs 0 shown held) : Tallied slots shown held := by
  refine run.keeps (P := fun shown held => Tallied slots shown held) ⟨rfl,fun v mem => absurd mem (Multiset.notMem_zero v)⟩ ?_
  intro shown held a held' tallied step
  cases step with
  | takes => exact tallied.other rfl rfl
  | took some_ => exact tallied.takes (if_neg some_) rfl some_
  | tookNull null => exact tallied.other (if_pos null) rfl
  | gives among =>
    subst among
    exact tallied.gives rfl (if_neg (tallied.some_ _ (Multiset.mem_cons_self _ _)))
  | givesNull null => exact tallied.other rfl (if_pos null)
  | gave => exact tallied.other rfl rfl

/-- What the threads have got is what each of them has. -/
theorem had_length (shown : List (Deal nworks α)) :
    (shown.filterMap Deal.had).length = ∑ k, (shown.filterMap (Deal.got k)).length := by
  induction shown using List.reverseRecOn with
  | nil => simp
  | append_singleton shown m ih =>
    have one : (m.had.toList).length = ∑ k, ((m.got k).toList).length := by
      cases m with
      | took k v =>
        have alone : ∀ k', (((Deal.took k v).got k').toList).length = if k = k' then 1 else 0 := by
          intro k'
          rw [Deal.got]
          split_ifs <;> rfl
        rw [Finset.sum_congr rfl (fun k' _ => alone k'),Finset.sum_ite_eq,if_pos (Finset.mem_univ k)]
        rfl
      | takes k n => simp [Deal.had,Deal.got]
      | gives k v => simp [Deal.had,Deal.got]
      | gave k => simp [Deal.had,Deal.got]
    simp only [filterMap_concat,List.length_append,Finset.sum_add_distrib]
    rw [ih,one]

/-- If no call has returned null, every block that was got has been taken. -/
theorem taken_had (shown : List (Deal nworks α)) (nonnull : ∀ v ∈ shown.filterMap Deal.had, slots.ptr v ≠ 0) :
    shown.filterMap (Deal.taken slots) = shown.filterMap Deal.had := by
  refine List.filterMap_congr (fun m mem => ?_)
  cases m with
  | took k v => exact if_neg (nonnull v (List.mem_filterMap.mpr ⟨_,mem,rfl⟩))
  | _ => rfl

end

/-- "total operations per allocator" -/
def Config.totalOps (c : Config) : Nat := c.nworks * c.rounds * c.ntimes

/-- In every run of the loops, of `RunOnce` or of `RunCheck`, each thread asks for the sizes
    of `SizeFor` for the counters of a round, one after the other, in each round again, and
    for no more. When the loops are over it has asked for all of them and got as many
    answers; as many calls of `Alloc` have returned as the harness prints, and the blocks
    that were got are those that were freed. If none was null that are as many as well. The
    ring has slots, and the counter of the barrier does not wrap. -/
theorem loops_counted (slots : Slots α) (c : Config) (pattern : Pattern) (fits : c.Fits pattern)
    {s s' : (loops slots c pattern).At} {shown : List (Deal c.nworks α)} (start : (loops slots c pattern).system.init s)
    (run : (loops slots c pattern).system.Runs s shown s') :
    (∀ k, (shown.filterMap (Deal.asked k)).length ≤ c.rounds * c.ntimes ∧
      ∀ j n, (shown.filterMap (Deal.asked k))[j]? = some n → ∃ draw, n = sizeFor c.sizeMode (j % c.ntimes) draw) ∧
    ((loops slots c pattern).past s' → (∀ k, (shown.filterMap (Deal.asked k)).length = c.rounds * c.ntimes) ∧
      (shown.filterMap Deal.had).length = c.totalOps ∧
      (shown.filterMap (Deal.taken slots)).Perm (shown.filterMap (Deal.given slots)) ∧
      ((∀ v ∈ shown.filterMap Deal.had, slots.ptr v ≠ 0) → (shown.filterMap (Deal.given slots)).length = c.totalOps)) := by
  refine ⟨fun k => ?_,fun past => ?_⟩
  · obtain ⟨made,busy,paced,few,_⟩ := loops_paced slots c pattern start run k
    exact ⟨few,paced.sizes⟩
  have each : ∀ k, (shown.filterMap (Deal.asked k)).length = c.rounds * c.ntimes ∧
      (shown.filterMap (Deal.got k)).length = c.rounds * c.ntimes := by
    intro k
    obtain ⟨made,busy,paced,_,ended⟩ := loops_paced slots c pattern start run k
    obtain ⟨all,over_⟩ := ended past
    exact ⟨by rw [paced.asked,all,over_,Nat.add_zero],paced.got.trans all⟩
  have had : (shown.filterMap Deal.had).length = c.totalOps := by
    rw [had_length,Finset.sum_const_nat (fun k _ => (each k).2),Finset.card_univ,Fintype.card_fin,Config.totalOps,
      Nat.mul_assoc]
  obtain ⟨Q,sim,ended⟩ := loops_simulate slots c pattern fits
  obtain ⟨held,none_,related⟩ := sim.start s start
  cases (show held = 0 from none_)
  obtain ⟨held',run',related'⟩ := sim.runs related run
  have balance := (pool_tally run').balance
  rw [ended s' held' related' past,add_zero] at balance
  have perm := Multiset.coe_eq_coe.mp balance
  refine ⟨fun k => (each k).1,had,perm,fun nonnull => ?_⟩
  rw [← perm.length_eq,taken_had shown nonnull]
  exact had

/-- One thread that takes two blocks and gives them back. -/
theorem loops_counted_two : ∃ s', (loops CrossThread.runOnce twoCalls .bulkThenFree).system.Runs
    ⟨fun _ => {},fun _ => .no⟩ twoDeals s' ∧ twoDeals.filterMap (Deal.asked 0) = [17,18] ∧
    (twoDeals.filterMap (Deal.given CrossThread.runOnce)).length = twoCalls.totalOps := by
  obtain ⟨s',run,past⟩ := twoCalls_runs
  refine ⟨s',run,rfl,((loops_counted CrossThread.runOnce twoCalls .bulkThenFree trivial rfl run).2 past).2.2.2 ?_⟩
  intro v mem
  have each : 8192 = v ∨ 16384 = v := by simpa [twoDeals,Deal.had] using mem
  rcases each with rfl | rfl <;> decide

end
end Workload
end TcAlloc
