import TcAlloc.Controls

/-!
The registry of the gate, over an allocator of which nothing is known. As long as it has
counted no duplicate it has each pointer that the workload holds, or that a thread has
stamped or looks at, and each of them once; so it counts the first pointer that is handed
out while it is live, and no other one (`registry_exact`).
-/
namespace TcAlloc
namespace Verify
open World.Program (Seen)
open Workload (Deal PoolStep pool sum_put balanced erase_add)
open CrossThread (runCheck)

/-- A block that a thread works on is not null. -/
def Spot.Some : Spot → Prop
  | .inserts b | .fills b _ _ | .checks b _ _ | .erases b | .frees b => b.p ≠ 0
  | _ => True

/-- What holds along every run with `--registry`. -/
structure Registered {nworks : Nat} (held : Multiset Block) (c : Checks nworks) : Prop where
  on : c.reg.enabled = true
  holds : ∀ b ∈ held, b.p ≠ 0
  some_ : ∀ k, (c.spot k).Some
  nodup : c.reg.live.Nodup
  live : c.f.duplicate = 0 → (c.reg.live : Multiset Nat) = held.map Block.p + ∑ k, (c.spot k).entered

section
variable {nworks : Nat} {held held' : Multiset Block} {c c' : Checks nworks} {k : Fin nworks} {b : Block} {spot : Spot}

theorem Failures.note_duplicate (f : Failures) (m : Message) : (f.note m).duplicate = f.duplicate := by
  unfold Failures.note
  split_ifs <;> rfl

/-- The registry is asked for a pointer: a duplicate is counted if it is there. -/
theorem Checks.insert_spec (c : Checks nworks) (k : Fin nworks) (b : Block) (on : c.reg.enabled = true) :
    (c.insert k b).spot = Function.update c.spot k (.fills b 0 0) ∧ (c.insert k b).reg.enabled = true ∧
    (b.p ∈ c.reg.live → (c.insert k b).f.duplicate = c.f.duplicate + 1 ∧ (c.insert k b).reg.live = c.reg.live) ∧
    (b.p ∉ c.reg.live → (c.insert k b).f.duplicate = c.f.duplicate ∧ (c.insert k b).reg.live = b.p :: c.reg.live) := by
  unfold Checks.insert Registry.insert
  by_cases among : b.p ∈ c.reg.live
  · simp only [on,Bool.true_eq_false,if_false,if_pos among,Bool.false_eq_true]
    exact ⟨rfl,on,fun _ => ⟨Failures.note_duplicate _ _,rfl⟩,fun absent => absurd among absent⟩
  · simp only [on,Bool.true_eq_false,if_false,if_neg among,if_true]
    exact ⟨rfl,rfl,fun present => absurd present among,fun _ => ⟨rfl,rfl⟩⟩

namespace Registered

/-- A thread is somewhere else, and what has changed besides is balanced. -/
theorem put (registered : Registered held c) (spot : Spot) (spots : c'.spot = Function.update c.spot k spot)
    (on : c'.reg.enabled = true) (holds : ∀ b ∈ held', b.p ≠ 0) (some_ : spot.Some) (nodup : c'.reg.live.Nodup)
    (none_ : c'.f.duplicate = 0 → c.f.duplicate = 0)
    (entered : c'.f.duplicate = 0 → (c'.reg.live : Multiset Nat) + (held.map Block.p + (c.spot k).entered) =
      c.reg.live + (held'.map Block.p + spot.entered)) : Registered held' c' where
  on := on
  holds := holds
  some_ := by
    intro k'
    rw [spots]
    by_cases here : k' = k
    · subst here
      rwa [Function.update_self]
    · rw [Function.update_of_ne here]
      exact registered.some_ k'
  nodup := nodup
  live := by
    intro counted
    rw [spots]
    exact balanced (registered.live (none_ counted)) (entered counted) (sum_put Spot.entered c.spot k spot)

/-- A thread goes on with the same block. -/
theorem same (registered : Registered held c) (spot : Spot) (spots : c'.spot = Function.update c.spot k spot)
    (reg : c'.reg = c.reg) (some_ : spot.Some) (none_ : c'.f.duplicate = c.f.duplicate)
    (entered : spot.entered = (c.spot k).entered) : Registered held c' := by
  refine registered.put spot spots ?_ registered.holds some_ ?_ ?_ ?_
  · rw [reg]
    exact registered.on
  · rw [reg]
    exact registered.nodup
  · rw [none_]
    exact id
  · intro _
    rw [reg,entered]

theorem client (registered : Registered held c) (step : c.Step none c') : Registered held c' := by
  cases step with
  | @tests k n p here =>
    have none_ : (c.spot k).entered = 0 := by rw [here]; rfl
    unfold Checks.test
    by_cases null : p = 0
    · simp only [if_pos null]
      exact registered.same (.took ⟨0,n,_⟩) rfl rfl trivial (Failures.note_duplicate _ _) none_.symm
    · simp only [if_neg null]
      split_ifs
      · exact registered.same (.inserts ⟨p,n,_⟩) rfl rfl null (Failures.note_duplicate _ _) none_.symm
      · exact registered.same (.inserts ⟨p,n,_⟩) rfl rfl null rfl none_.symm
  | @inserts k b here =>
    obtain ⟨spots,on,old,new⟩ := c.insert_spec k b registered.on
    have some_ := registered.some_ k
    rw [here] at some_
    by_cases among : b.p ∈ c.reg.live
    · obtain ⟨counted,still⟩ := old among
      refine registered.put (.fills b 0 0) spots on registered.holds some_ (by rw [still]; exact registered.nodup) ?_ ?_ <;>
        intro zero <;> omega
    · obtain ⟨counted,entered⟩ := new among
      refine registered.put (.fills b 0 0) spots on registered.holds some_ ?_ (by rw [counted]; exact id) (fun _ => ?_)
      · rw [entered]
        exact List.nodup_cons.mpr ⟨among,registered.nodup⟩
      · rw [entered,here,← Multiset.cons_coe,← Multiset.singleton_add]
        change {b.p} + (c.reg.live : Multiset Nat) + (held.map Block.p + 0) = c.reg.live + (held.map Block.p + {b.p})
        abel
  | @filled k b i chunk here all =>
    have some_ := registered.some_ k
    rw [here] at some_
    have some_ : b.p ≠ 0 := some_
    refine registered.same (.took b) rfl rfl trivial rfl ?_
    rw [here]
    simp only [Spot.entered,if_neg some_]
  | @checked k b i chunk here all =>
    have some_ := registered.some_ k
    rw [here] at some_
    exact registered.same (.erases b) rfl rfl some_ rfl (by rw [here]; rfl)
  | @erases k b here =>
    have some_ := registered.some_ k
    rw [here] at some_
    have erase : c.reg.erase b.p = { c.reg with live := c.reg.live.erase b.p } := by
      rw [Registry.erase,if_neg (by rw [registered.on]; decide)]
    refine registered.put (.frees b) rfl ?_ registered.holds some_ ?_ id (fun counted => ?_)
    · change (c.reg.erase b.p).enabled = true
      rw [erase]
      exact registered.on
    · change (c.reg.erase b.p).live.Nodup
      rw [erase]
      exact registered.nodup.erase b.p
    · have among : b.p ∈ c.reg.live := by
        rw [← Multiset.mem_coe,registered.live counted,Multiset.mem_add]
        refine .inr (Multiset.mem_of_le (Workload.le_sum (f := fun k => (c.spot k).entered) k) ?_)
        simp only [here]
        exact Multiset.mem_singleton_self _
      change ((c.reg.erase b.p).live : Multiset Nat) + (held.map Block.p + (c.spot k).entered) =
        c.reg.live + (held.map Block.p + 0)
      rw [erase,here,← erase_add among]
      change _ + (held.map Block.p + {b.p}) = _
      abel

theorem access {a : Seen} (registered : Registered held c) (step : c.Step (some (.inl a)) c') : Registered held c' := by
  cases step with
  | calls here => exact registered.same (.awaits _) rfl rfl trivial rfl (by rw [here]; rfl)
  | returned here => exact registered.same (.tests _ _) rfl rfl trivial rfl (by rw [here]; rfl)
  | @fills k b i chunk here more =>
    have some_ := registered.some_ k
    rw [here] at some_
    exact registered.same (.fills b (i + 8) (chunk + 1)) rfl rfl some_ rfl (by rw [here]; rfl)
  | @checks k b i chunk mem here more =>
    have some_ := registered.some_ k
    rw [here] at some_
    unfold Checks.compare
    dsimp only
    split_ifs
    all_goals first
      | exact registered.same (.erases b) rfl rfl some_ (Failures.note_duplicate _ _) (by rw [here]; rfl)
      | exact registered.same (.checks b (i + 8) (chunk + 1)) rfl rfl some_ rfl (by rw [here]; rfl)
  | frees here => exact registered.same .awaitsFree rfl rfl trivial rfl (by rw [here]; rfl)
  | freed here => exact registered.same .gave rfl rfl trivial rfl (by rw [here]; rfl)

theorem deal {m : Deal nworks Block} (registered : Registered held c) (first : PoolStep runCheck held (some m) held')
    (second : c.Step (some (.inr m)) c') : Registered held' c' := by
  cases second with
  | takes here =>
    cases first
    exact registered.same (.calls _) rfl rfl trivial rfl (by rw [here]; rfl)
  | @took k b here =>
    cases first with
    | took some_ =>
      have some_ : b.p ≠ 0 := some_
      refine registered.put .idle rfl registered.on (fun b' mem => ?_) trivial registered.nodup id (fun _ => ?_)
      · rcases Multiset.mem_cons.mp mem with rfl | old
        · exact some_
        · exact registered.holds b' old
      · rw [here]
        simp only [Spot.entered,if_neg some_,← Multiset.singleton_add,Multiset.map_add,Multiset.map_singleton]
        change (c.reg.live : Multiset Nat) + _ = _
        abel
    | tookNull null =>
      have null : b.p = 0 := null
      exact registered.same .idle rfl rfl trivial rfl (by rw [here]; simp only [Spot.entered,if_pos null])
  | @gives k b here =>
    cases first with
    | @gives _ _ rest among =>
      subst among
      have some_ := registered.holds b (Multiset.mem_cons_self b held')
      have rest : ∀ b ∈ held', b.p ≠ 0 := fun b' mem => registered.holds b' (Multiset.mem_cons_of_mem mem)
      rw [if_neg some_]
      refine registered.put (.checks b 0 0) rfl registered.on rest some_ registered.nodup id (fun _ => ?_)
      rw [here]
      simp only [Spot.entered,← Multiset.singleton_add,Multiset.map_add,Multiset.map_singleton]
      change (c.reg.live : Multiset Nat) + _ = _
      abel
    | givesNull null =>
      have null : b.p = 0 := null
      rw [if_pos null]
      exact registered.same .gave rfl rfl trivial rfl (by rw [here]; rfl)
  | gave here =>
    cases first
    exact registered.same .idle rfl rfl trivial rfl (by rw [here]; rfl)

end Registered

variable {σ δ : Type} {S : System Seen σ} {D : System (Deal nworks Block) δ} {Q : δ → Multiset Block → Prop}

/-- Every state that is reached is registered. -/
theorem registered_reached {s : σ} (reached : ((pool runCheck nworks).beside ((gate nworks true).atop S)).Reaches (held,c,s)) :
    Registered held c := by
  refine reached.keeps (P := fun x => Registered x.1 x.2.1) ?_ ?_
  · rintro ⟨held,c,s⟩ ⟨none_,start,_⟩
    cases (show held = 0 from none_)
    cases (show c = _ from start)
    refine ⟨rfl,fun b none_ => absurd none_ (Multiset.notMem_zero b),fun _ => trivial,List.nodup_nil,fun _ => ?_⟩
    simp [Spot.entered]
  · rintro ⟨held,c,s⟩ a ⟨held',c',s'⟩ registered step
    cases step with
    | left step => cases step
    | right step =>
      cases step with
      | client step => exact registered.client step
      | server step => exact registered
      | both first second => exact registered.access first
    | both first second =>
      cases second with
      | shows second => exact registered.deal first second

/-- The registry is exact, whatever the allocator does: in every interleaving, as long as
    no duplicate has been counted, the pointers that the workload holds and those that the
    threads have entered and not erased are what is in the registry, they are not null, and
    no two of them are the same; and `Insert` counts a duplicate for a pointer that `Alloc`
    has returned if and only if it is one of them. -/
theorem registry_exact (frugal : System.Simulates D (pool runCheck nworks) Q) {d : δ} {s : σ}
    (reached : (D.beside ((gate nworks true).atop S)).Reaches (d,c,s)) (none_ : c.f.duplicate = 0) :
    ∃ held, Q d held ∧ (c.reg.live : Multiset Nat) = held.map Block.p + ∑ k, (c.spot k).entered ∧
      (held.map Block.p + ∑ k, (c.spot k).entered).Nodup ∧ (∀ b ∈ held, b.p ≠ 0) ∧
      ∀ k b, c.spot k = .inserts b →
        ((c.insert k b).f.duplicate = 1 ↔ b.p ∈ held.map Block.p + ∑ k, (c.spot k).entered) := by
  obtain ⟨⟨held,c',s'⟩,reached',holds,same⟩ :=
    (frugal.beside (System.Simulates.refl ((gate nworks true).atop S))).reaches reached
  cases (show (c,s) = (c',s') from same)
  have registered := registered_reached reached'
  have live := registered.live none_
  refine ⟨held,holds,live,?_,registered.holds,fun k b here => ?_⟩
  · rw [← live]
    exact Multiset.coe_nodup.mpr registered.nodup
  · obtain ⟨_,_,old,new⟩ := c.insert_spec k b registered.on
    rw [← live,Multiset.mem_coe]
    by_cases among : b.p ∈ c.reg.live
    · have counted := (old among).1
      exact ⟨fun _ => among,fun _ => by omega⟩
    · have counted := (new among).1
      exact ⟨fun one => by omega,fun present => absurd present among⟩

/-- The first pointer of the broken allocator is no duplicate. -/
theorem registry_exact_first : ∃ (c : Checks 1) (b : Block), c.spot 0 = .inserts b ∧ b.p = 8192 ∧
    (c.insert 0 b).f.duplicate ≠ 1 := by
  let system := (pool runCheck 1).beside ((gate 1 true).atop (broken 8192))
  let c₀ : Checks 1 := { reg := { enabled := true } }
  let c₁ := (c₀.goto 0 (.calls 16)).goto 0 (.awaits 16)
  let c₂ := (c₁.goto 0 (.tests 16 8192)).test 0 16 8192
  let s₀ : Broken := { mem := fun _ => 0 }
  let s₁ := s₀.put 0 .asking
  let s₂ : Broken := { s₁.put 0 (.got 8192) with cursor := 64 }
  have start : system.Reaches (0,c₀,s₀) := .start ⟨rfl,rfl,⟨_,rfl⟩⟩
  have takes : system.Reaches (0,c₀.goto 0 (.calls 16),s₀) :=
    start.step (System.BesideStep.both (@PoolStep.takes _ _ _ _ 0 16) (System.AtopStep.shows (Checks.Step.takes rfl)))
  have asks : system.Reaches (0,c₁,s₁) :=
    takes.step (System.BesideStep.right (System.AtopStep.both (Checks.Step.calls (k := (0 : Fin 1)) rfl)
      (Broken.Step.asks (t := 0) rfl)))
  have fetches : system.Reaches (0,c₁,s₂) :=
    asks.step (System.BesideStep.right (System.AtopStep.server (Broken.Step.fetches (t := 0) rfl)))
  have gets := fetches.step (System.BesideStep.right (System.AtopStep.both
    (Checks.Step.returned (k := (0 : Fin 1)) (p := 8192) rfl) (Broken.Step.gets (t := 0) rfl)))
  have tests : system.Reaches (0,c₂,s₂.put 0 .idle) :=
    gets.step (System.BesideStep.right (System.AtopStep.client (Checks.Step.tests (k := (0 : Fin 1)) rfl)))
  obtain ⟨held,holds,_,_,_,counted⟩ := registry_exact (System.Simulates.refl (pool runCheck 1)) tests rfl
  cases (show 0 = held from holds)
  have here : c₂.spot 0 = .inserts ⟨8192,16,tagOf 0 1⟩ := rfl
  refine ⟨c₂,⟨8192,16,tagOf 0 1⟩,here,rfl,fun one => ?_⟩
  have among := (counted 0 _ here).mp one
  simp [here,Spot.entered] at among

end

end Verify
end TcAlloc
