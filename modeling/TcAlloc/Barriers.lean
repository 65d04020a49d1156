import Mathlib.Algebra.BigOperators.Group.Finset.Basic
import Mathlib.Algebra.Order.BigOperators.Group.Finset
import Mathlib.Data.Fintype.BigOperators
import Mathlib.Tactic.Common

/-!
A barrier that is one counter and is used again and again. A party that calls it
looks which generation the counter is in, counts itself, and waits until the counter
has left that generation, unless it was the last one to count itself. The counter
wraps, but the calls of a run are too few for that. What a run keeps is that nobody
has finished a call in which somebody has not yet counted itself (`Sound.together`):
the generations that the parties look at follow from that and from the count.
-/
namespace TcAlloc

/-- A party between two calls, in a call before it has counted itself, and waiting.
    `calls` are the calls it has finished, `gen` is the generation it has looked at. -/
inductive Phase where
  | away (calls : Nat)
  | loaded (calls gen : Nat)
  | waiting (calls gen : Nat)
  deriving DecidableEq

namespace Phase

/-- The calls that are over. -/
def passed : Phase → Nat
  | .away calls => calls
  | .loaded calls _ => calls
  | .waiting calls _ => calls

/-- The calls in which the party has counted itself. -/
def arrived : Phase → Nat
  | .away calls => calls
  | .loaded calls _ => calls
  | .waiting calls _ => calls + 1

/-- The calls that the party has begun. -/
def entered : Phase → Nat
  | .away calls => calls
  | .loaded calls _ => calls + 1
  | .waiting calls _ => calls + 1

/-- The generation looked at is that of the call, and there are at most `limit` calls. -/
def Current (limit : Nat) : Phase → Prop
  | .away calls => calls ≤ limit
  | .loaded calls gen => gen = calls ∧ calls < limit
  | .waiting calls gen => gen = calls ∧ calls < limit

theorem arrived_le_entered (p : Phase) : p.arrived ≤ p.entered := by
  cases p <;> simp [arrived,entered]

theorem passed_le (p : Phase) : p.passed ≤ p.arrived ∧ p.arrived ≤ p.passed + 1 := by
  cases p <;> simp [passed,arrived]

end Phase

/-- The counter and the parties. -/
structure Barrier (ι : Type) where
  counter : Nat
  phase : ι → Phase

namespace Barrier
variable {ι : Type} [Fintype ι] {wrap limit : Nat} {k : ι} {s s' : Barrier ι}

/-- One access to the counter, by the party `k`. A party calls the barrier at most
    `limit` times. -/
inductive Step [DecidableEq ι] (wrap limit : Nat) (k : ι) (s : Barrier ι) : Barrier ι → Prop
  | enter {calls : Nat} (here : s.phase k = .away calls) (more : calls < limit) :
      Step wrap limit k s { s with phase := Function.update s.phase k (.loaded calls (s.counter / Fintype.card ι)) }
  | last {calls gen : Nat} (here : s.phase k = .loaded calls gen)
      (all : (s.counter + 1) % wrap = (gen + 1) * Fintype.card ι % wrap) :
      Step wrap limit k s ⟨(s.counter + 1) % wrap,Function.update s.phase k (.away (calls + 1))⟩
  | early {calls gen : Nat} (here : s.phase k = .loaded calls gen)
      (some : (s.counter + 1) % wrap ≠ (gen + 1) * Fintype.card ι % wrap) :
      Step wrap limit k s ⟨(s.counter + 1) % wrap,Function.update s.phase k (.waiting calls gen)⟩
  | leave {calls gen : Nat} (here : s.phase k = .waiting calls gen) (past : s.counter / Fintype.card ι ≠ gen) :
      Step wrap limit k s { s with phase := Function.update s.phase k (.away (calls + 1)) }

/-- What holds along every run. -/
structure Sound (limit : Nat) (s : Barrier ι) : Prop where
  counted : s.counter = ∑ k, (s.phase k).arrived
  current : ∀ k, (s.phase k).Current limit
  together : ∀ k k', (s.phase k).passed ≤ (s.phase k').arrived

theorem Sound.start (limit : Nat) : Sound limit (⟨0,fun _ => .away 0⟩ : Barrier ι) :=
  ⟨by simp [Phase.arrived],fun _ => Nat.zero_le limit,fun _ _ => le_refl 0⟩

/-! ### Counting -/

/-- Counts of which one is short do not fill up a generation. -/
theorem sum_short {f : ι → Nat} {calls : Nat} (all : ∀ k, f k ≤ calls + 1) (k : ι) (behind : f k ≤ calls) :
    ∑ k, f k < (calls + 1) * Fintype.card ι := by
  have less : ∑ k, f k < ∑ _k : ι, (calls + 1) :=
    Finset.sum_lt_sum (fun k _ => all k) ⟨k,Finset.mem_univ k,Nat.lt_succ_of_le behind⟩
  rw [mul_comm]
  simpa using less

theorem Sound.short (sound : Sound limit s) {calls : Nat} (all : ∀ k, (s.phase k).arrived ≤ calls + 1) (k : ι)
    (behind : (s.phase k).arrived ≤ calls) : s.counter < (calls + 1) * Fintype.card ι := by
  rw [sound.counted]
  exact sum_short all k behind

theorem Sound.long (sound : Sound limit s) {calls : Nat} (all : ∀ k, calls ≤ (s.phase k).arrived) :
    calls * Fintype.card ι ≤ s.counter := by
  rw [sound.counted,mul_comm]
  simpa using Finset.card_nsmul_le_sum Finset.univ (fun k => (s.phase k).arrived) calls (fun k _ => all k)

/-- The counts of the parties after one of them has moved. -/
theorem Sound.moved [DecidableEq ι] (sound : Sound limit s) (k : ι) (p : Phase) :
    ∑ k', (Function.update s.phase k p k').arrived + (s.phase k).arrived = s.counter + p.arrived := by
  have rest : ∀ k', (Function.update s.phase k p k').arrived = Function.update
    (fun k' => (s.phase k').arrived) k p.arrived k' := by
    intro k'
    by_cases same : k' = k
    · subst same; simp
    · simp [same]
  simp only [rest]
  rw [Finset.sum_update_of_mem (Finset.mem_univ k),Finset.sdiff_singleton_eq_erase,sound.counted,
    ← Finset.add_sum_erase _ _ (Finset.mem_univ k)]
  omega

/-- A party moves on: it has counted itself as often as before or more, and finished
    only calls that everybody has counted itself in. -/
theorem Sound.move [DecidableEq ι] (sound : Sound limit s) {p : Phase} {counter : Nat}
    (counted : counter + (s.phase k).arrived = s.counter + p.arrived)
    (current : p.Current limit) (more : (s.phase k).arrived ≤ p.arrived)
    (together : ∀ k', k' ≠ k → p.passed ≤ (s.phase k').arrived) :
    Sound limit ⟨counter,Function.update s.phase k p⟩ := by
  refine ⟨?_,fun k' => ?_,fun k₁ k₂ => ?_⟩
  · have := sound.moved k p
    dsimp only
    omega
  · by_cases here : k' = k
    · subst here; simpa using current
    · simpa [here] using sound.current k'
  · by_cases first : k₁ = k <;> by_cases second : k₂ = k
    · subst first; subst second; simpa using p.passed_le.1
    · subst first; simpa [second] using together k₂ second
    · subst second; simpa [first] using le_trans (sound.together k₁ k₂) more
    · simpa [first,second] using sound.together k₁ k₂

/-! ### The four accesses -/

/-- Nobody is ahead of a party by more than a call. -/
theorem Sound.near (sound : Sound limit s) (k k' : ι) : (s.phase k').arrived ≤ (s.phase k).arrived + 1 :=
  le_trans (s.phase k').passed_le.2 (Nat.succ_le_succ (sound.together k' k))

/-- A party that calls the barrier finds the generation of its call. -/
theorem Sound.generation (sound : Sound limit s) {calls : Nat} (arrived : (s.phase k).arrived = calls)
    (passed : (s.phase k).passed = calls) : s.counter / Fintype.card ι = calls := by
  refine Nat.div_eq_of_lt_le (sound.long (fun k' => ?_)) (sound.short (fun k' => ?_) k (le_of_eq arrived))
  · exact passed ▸ sound.together k k'
  · exact arrived ▸ sound.near k k'

/-- The last party to count itself finds that everybody else has. -/
theorem Sound.full [DecidableEq ι] (sound : Sound limit s) {calls : Nat} (arrived : (s.phase k).arrived = calls)
    (all : s.counter + 1 = (calls + 1) * Fintype.card ι) {k' : ι} (other : k' ≠ k) : calls + 1 ≤ (s.phase k').arrived := by
  by_contra behind
  have counted := sound.moved k (.away (calls + 1))
  have all_near : ∀ k₂, (Function.update s.phase k (.away (calls + 1)) k₂).arrived ≤ calls + 1 := by
    intro k₂
    by_cases here : k₂ = k
    · subst here; simp [Phase.arrived]
    · simpa [here] using arrived ▸ sound.near k k₂
  have less := sum_short all_near k' (by simpa [other,Nat.lt_succ_iff] using behind)
  have new : (Phase.away (calls + 1)).arrived = calls + 1 := rfl
  rw [arrived] at counted
  omega

/-- When the generation is over, everybody has counted itself in it. -/
theorem Sound.finished (sound : Sound limit s) {calls : Nat} (passed : (s.phase k).passed = calls)
    (past : s.counter / Fintype.card ι ≠ calls) (k' : ι) : calls + 1 ≤ (s.phase k').arrived := by
  by_contra behind
  have same : (s.phase k').arrived = calls := by
    have := passed ▸ sound.together k k'
    omega
  refine past (Nat.div_eq_of_lt_le (sound.long (fun k₂ => passed ▸ sound.together k k₂))
    (sound.short (fun k₂ => ?_) k' (le_of_eq same)))
  exact same ▸ sound.near k' k₂

/-- Where a party waits in vain, another one has not counted itself yet. -/
theorem Sound.behind (sound : Sound limit s) {calls gen : Nat} (here : s.phase k = .waiting calls gen)
    (same : s.counter / Fintype.card ι = gen) :
    ∃ k', (s.phase k').arrived = calls := by
  have pos : 0 < Fintype.card ι := Fintype.card_pos_iff.mpr ⟨k⟩
  have current := sound.current k
  rw [here] at current
  obtain ⟨rfl,_⟩ := current
  by_contra all
  rw [not_exists] at all
  have long : (gen + 1) * Fintype.card ι ≤ s.counter := by
    refine sound.long (fun k' => ?_)
    have low := sound.together k k'
    rw [here] at low
    exact lt_of_le_of_ne low (Ne.symm (all k'))
  have := (Nat.le_div_iff_mul_le pos).mpr long
  omega

/-- Neither the counter nor the target that it is compared with wraps. -/
theorem Sound.fits (sound : Sound limit s) (room : Fintype.card ι * limit < wrap) {calls : Nat}
    (arrived : (s.phase k).arrived = calls)
    (more : calls < limit) : (s.counter + 1) % wrap = s.counter + 1 ∧ (calls + 1) * Fintype.card
    ι % wrap = (calls + 1) * Fintype.card ι ∧
      s.counter + 1 ≤ (calls + 1) * Fintype.card ι := by
  have short := sound.short (fun k' => arrived ▸ sound.near k k') k (le_of_eq arrived)
  have target : (calls + 1) * Fintype.card ι ≤ limit * Fintype.card ι := Nat.mul_le_mul_right _ more
  rw [mul_comm] at room
  exact ⟨Nat.mod_eq_of_lt (by omega),Nat.mod_eq_of_lt (by omega),short⟩

/-- What one access does to what holds. -/
theorem Sound.step [DecidableEq ι] (sound : Sound limit s) (room : Fintype.card ι * limit < wrap)
    (step : Step wrap limit k s s') : Sound limit s' := by
  cases step with
  | @enter calls here more =>
    have gen : s.counter / Fintype.card ι = calls := sound.generation (k := k) (by rw [here]; rfl) (by rw [here]; rfl)
    refine sound.move (by rw [here]; rfl) ⟨gen,more⟩ (by rw [here]; rfl) (fun k' _ => ?_)
    have := sound.together k k'
    rwa [here] at this
  | @last calls gen here all =>
    have current := sound.current k
    rw [here] at current
    obtain ⟨rfl,more⟩ := current
    have arrived : (s.phase k).arrived = gen := by rw [here]; rfl
    obtain ⟨counter,target,_⟩ := sound.fits room arrived more
    rw [counter,target] at all
    rw [counter]
    refine sound.move ?_ more ?_ (fun k' other => sound.full arrived all other)
    · rw [arrived]; simp only [Phase.arrived]; omega
    · rw [arrived]; exact Nat.le_succ gen
  | @early calls gen here some =>
    have current := sound.current k
    rw [here] at current
    have arrived : (s.phase k).arrived = calls := by rw [here]; rfl
    rw [(sound.fits room arrived current.2).1]
    refine sound.move ?_ current ?_ (fun k' _ => ?_)
    · rw [arrived]; simp only [Phase.arrived]; omega
    · rw [arrived]; exact Nat.le_succ calls
    · have := sound.together k k'
      rwa [here] at this
  | @leave calls gen here past =>
    have current := sound.current k
    rw [here] at current
    obtain ⟨rfl,more⟩ := current
    refine sound.move (by rw [here]; rfl) more (by rw [here]; rfl) (fun k' _ => ?_)
    exact sound.finished (k := k) (by rw [here]; rfl) past k'

end Barrier
end TcAlloc
