import TcAlloc.PageMap
import TcAlloc.Failing

/-!
Two page maps that agree: the three-level one of the 64-bit build, and the one
array of the 32-bit build. After the same calls of `set` from construction, a
lookup returns the same in both, whatever the width of page numbers, and the nodes
that are made on the way change no lookup.
-/
namespace TcAlloc

/-- `TCMalloc_PageMap1`: one array of addresses, filled with nulls when it is made. -/
structure FlatMap where
  array : Nat → Nat

namespace FlatMap

def empty : FlatMap := ⟨fun _ => 0⟩
def get (bits : Nat) (map : FlatMap) (k : Nat) : Nat := if 0 < k >>> bits then 0 else map.array k
def set (map : FlatMap) (k v : Nat) : FlatMap := ⟨Function.update map.array k v⟩
/-- The calls in their order. -/
def setAll (map : FlatMap) (calls : List (Nat × Nat)) : FlatMap := calls.foldl (fun map call => map.set call.1 call.2) map

/-- The value of the last call for a key, null if there was none. -/
def lastSet (calls : List (Nat × Nat)) (q : Nat) : Nat :=
    calls.foldl (fun found call => if call.1 = q then call.2 else found) 0

theorem array_setAll (calls : List (Nat × Nat)) (q : Nat) : (empty.setAll calls).array q = lastSet calls q := by
  have general : ∀ (map : FlatMap) found, map.array q = found →
      (map.setAll calls).array q = calls.foldl (fun found call => if call.1 = q then call.2 else found) found := by
    induction calls with
    | nil => exact fun map found same => same
    | cons call rest ih =>
      intro map found same
      refine ih (map.set call.1 call.2) _ ?_
      dsimp only
      by_cases here : call.1 = q
      · rw [if_pos here,← here]; exact Function.update_self ..
      · rw [if_neg here,← same]; exact Function.update_of_ne (fun equal => here equal.symm) ..
  exact general empty 0 rfl

end FlatMap

namespace PageMap

/-- The states after calls of `set`, from construction on; memory may run out, but
    a call that is not finished then is the last one. -/
inductive Stores (bits : Nat) : PageMap × OS → List (Nat × Nat) → Prop
  | start {os : OS} (system : os.Valid) : Stores bits (empty,os) []
  | set {s s' : PageMap × OS} {calls : List (Nat × Nat)} {k v : Nat} {h : List Mutex} (before : Stores bits s calls)
      (small : k < 2 ^ bits) (run : Run (fun s q a => s.2.mayFail 1 q a) (set bits k v,[],s) (.ret (),h,s')) :
      Stores bits s' (calls ++ [(k,v)])

/-- The entries of the root, of a mid node and of a leaf. -/
def rootLength (bits : Nat) : Nat := 2 ^ (bits - leafBits bits - midBits bits)
def midLength (bits : Nat) : Nat := 2 ^ midBits bits
def leafLength (bits : Nat) : Nat := 2 ^ leafBits bits

/-- The fields of a page number are inside their arrays. -/
theorem fields_lt {bits k : Nat} (small : k < 2 ^ bits) :
    i1 bits k < rootLength bits ∧ i2 bits k < midLength bits ∧ i3 bits k < leafLength bits := by
  have leaf : leafBits bits ≤ bits := Nat.div_le_self bits 3
  have mid : midBits bits ≤ bits - leafBits bits := Nat.div_le_self _ 2
  have mask : ∀ n x, x &&& (2 ^ n - 1) < 2 ^ n := fun n x => by
    rw [Nat.and_two_pow_sub_one_eq_mod]; exact Nat.mod_lt _ (by positivity)
  refine ⟨?_,mask _ _,mask _ _⟩
  rw [i1,rootLength,Nat.shiftRight_eq_div_pow,Nat.div_lt_iff_lt_mul (by positivity),← Nat.pow_add]
  rwa [show bits - leafBits bits - midBits bits + (leafBits bits + midBits bits) = bits by omega]

/-- `set` gives up where memory runs out. -/
theorem set_brittle {bits k v : Nat} {h : List Mutex} {D : Request → Prop} {E : List Mutex → Prop}
    {P : Unit → List Mutex → Prop}
    (mid : D ⟨.mapNode,nodePages (midLength bits)⟩) (leaf : D ⟨.mapNode,nodePages (leafLength bits)⟩)
    (may : E h) (all : P () h) :
    (set bits k v).Brittle D (· = none) E h P := by
  have newMid : (newMid bits).Brittle D (· = none) E h (fun _ h' => h' = h) :=
    .andThen ((systemAlloc_brittle mid may).zoom .second) (fun _ => .andThen (Prog.brittle_modify rfl) (fun _ => rfl))
  have newLeaf : (newLeaf bits).Brittle D (· = none) E h (fun _ h' => h' = h) :=
    .andThen ((systemAlloc_brittle leaf may).zoom .second) (fun _ => .andThen (Prog.brittle_modify rfl) (fun _ => rfl))
  have midAt : ∀ i, (midAt bits i).Brittle D (· = none) E h (fun _ h' => h' = h) := by
    intro i
    refine .andThen (Prog.brittle_read (fun _ => rfl)) (fun found => ?_)
    split_ifs
    · exact .andThen newMid (fun _ => .andThen (Prog.brittle_modify rfl) (fun _ => rfl))
    · rfl
  have leafAt : ∀ mid i, (leafAt bits mid i).Brittle D (· = none) E h (fun _ h' => h' = h) := by
    intro mid i
    refine .andThen (Prog.brittle_read (fun _ => rfl)) (fun found => ?_)
    split_ifs
    · exact .andThen newLeaf (fun _ => .andThen (Prog.brittle_modify rfl) (fun _ => rfl))
    · rfl
  exact .andThen (Prog.brittle_require rfl) (fun _ => .andThen (midAt _) (fun mid => .andThen (leafAt mid _) (fun leaf =>
    Prog.brittle_modify all)))

/-- What is seen of a call of `set`: no other key reads a new value. -/
def others (bits k : Nat) (map : PageMap) : Rules (PageMap × OS) Mutex Request (Option Nat) Event :=
  ⟨fun s q a => s.2.allows 1 q a,fun _ _ _ s' => ∀ q, q ≠ k → get bits s'.1 q = get bits map q⟩

section
variable {bits k v : Nat} {map : PageMap} {os : OS}

/-- One call, in memory that may run out. -/
theorem set_failing (small : k < 2 ^ bits) (valid : Valid bits map os) (system : os.Valid) :
    wp { others bits k map with allowed := fun s q a => s.2.mayFail 1 q a } (set bits k v) [] (map,os)
      (fun _ _ s => (∀ q, get bits s.1 q = if q = k then v else get bits map q) ∧ Valid bits s.1 s.2 ∧ s.2.Valid)
      (fun _ _ => True) := by
  have reliable : wp (others bits k map) (set bits k v) [] (map,os)
      (fun _ _ s => (∀ q, get bits s.1 q = if q = k then v else get bits map q) ∧ Valid bits s.1 s.2 ∧ s.2.Valid)
      (fun _ _ => True) := by
    refine set_wp (fun s q a ok => ok) (fun s s' _ between _ q _ => between.same q) small valid system
      (fun s map' os' _ _ _ _ reads valid' system' => ⟨fun q ne => ?_,reads,valid',system'⟩)
    rw [reads q,if_neg ne]
  refine wp_mono (fun _ _ _ ok => ok) (fun _ _ _ _ ok => ok) (fun _ _ _ ok => ok) (fun _ _ _ => trivial)
    (wp_brittle (R := others bits k map) (J := fun s => ∀ q, q ≠ k → get bits s.1 q = get bits map q)
    (fun s q a ok some => ?_) (fun _ _ _ _ ok => ok)
      (fun _ _ _ _ seen _ => seen) (fun _ _ now => now)
      (set_brittle (D := fun _ => True) (E := fun _ => True) (P := fun _ _ => True) trivial trivial trivial trivial)
      (fun _ _ => rfl) reliable)
  cases a with
  | none => exact absurd rfl some
  | some base => exact ok

theorem Stores.reads {s : PageMap × OS} {calls : List (Nat × Nat)} (stores : Stores bits s calls) :
    (∀ q, get bits s.1 q = FlatMap.lastSet calls q) ∧ (∀ call ∈ calls, call.1 < 2 ^ bits) ∧
    Valid bits s.1 s.2 ∧ s.2.Valid := by
  induction stores with
  | start system => exact ⟨fun q => get_empty q,by simp,valid_empty,system⟩
  | @set s s' calls k v h before small run ih =>
    obtain ⟨same,keys,valid,system⟩ := ih
    obtain ⟨reads,valid',system'⟩ := wp_run (R := { others bits k s.1 with allowed := fun s q a => s.2.mayFail 1 q a }) run
      (set_failing small valid system)
    refine ⟨fun q => ?_,fun call mem => ?_,valid',system'⟩
    · rw [reads q,same q,FlatMap.lastSet,FlatMap.lastSet,List.foldl_append]
      by_cases here : q = k
      · simp [here]
      · simp [here,Ne.symm here]
    · rcases List.mem_append.mp mem with old | new
      · exact keys call old
      · rw [List.mem_singleton.mp new]; exact small

/-- After the same calls the two maps agree on every key; the slots that are used
    are inside their arrays, and a call changes no other key on its way. -/
theorem radix_refines_flat (bits : Nat) {s : PageMap × OS} {calls : List (Nat × Nat)} (stores : Stores bits s calls) :
    (∀ q, get bits s.1 q = (FlatMap.empty.setAll calls).get bits q ∧
      get bits s.1 q = if q < 2 ^ bits then FlatMap.lastSet calls q else 0) ∧
    (∀ k, k < 2 ^ bits → i1 bits k < rootLength bits ∧ i2 bits k < midLength bits ∧ i3 bits k < leafLength bits) ∧
    ∀ k v d, k < 2 ^ bits → Run (fun s q a => s.2.mayFail 1 q a) (set bits k v,[],s) d →
      ∀ q, q ≠ k → get bits d.2.2.1 q = get bits s.1 q := by
  obtain ⟨reads,_,valid,system⟩ := stores.reads
  refine ⟨fun q => ?_,fun k small => fields_lt small,fun k v d small run q ne => ?_⟩
  · by_cases small : q < 2 ^ bits
    · rw [if_pos small,FlatMap.get,shiftRight_eq_zero.mpr small,if_neg (lt_irrefl 0),FlatMap.array_setAll,reads q]
      exact ⟨rfl,rfl⟩
    · have big : 0 < q >>> bits := Nat.pos_of_ne_zero (fun zero => small (shiftRight_eq_zero.mp zero))
      rw [if_neg small,FlatMap.get,if_pos big,get_big (by omega)]
      exact ⟨rfl,rfl⟩
  · exact run_keeps (R := { others bits k s.1 with allowed := fun s q a => s.2.mayFail 1 q a })
      (J := fun s' => ∀ q, q ≠ k → get bits s'.1 q = get bits s.1 q) (fun _ _ _ _ seen _ => seen) run (fun _ _ => rfl)
      (set_failing (v := v) small valid system) q ne

/-- One key of a map with three-bit page numbers, which makes a mid node and a leaf. -/
theorem radix_refines_flat_small : ∃ s, Stores 3 s [(5,24)] ∧ get 3 s.1 5 = (FlatMap.empty.setAll [(5,24)]).get 3 5 := by
  have run := exec_run (P := fun s q a => s.2.mayFail 1 q a) (c := fun s q a => decide (s.2.mayFail 1 q a))
    (fun _ _ _ => of_decide_eq_true) (set 3 5 24) [some 8192,some 16384] [] (empty,{})
  have stores : Stores 3 _ ([] ++ [(5,24)]) := Stores.set (.start ⟨by simp,by simp⟩) (by decide) run
  exact ⟨_,stores,((radix_refines_flat 3 stores).1 5).1⟩

end
end PageMap
end TcAlloc
