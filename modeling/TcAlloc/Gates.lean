import TcAlloc.Contract
import TcAlloc.Workloads

/-!
The checks of the correctness gate over an allocator, with the threads that make them.
`Take` and `Give` of `RunCheck` are cut into their calls of the allocator, their looks at
a chunk of a block, and their changes of what the threads share. A workload has them
called in any order that a pool of blocks allows: a block is given that was taken, and
once. Over a heap such a gate counts no failure (`Honest`), and so it counts none over an
allocator that shows nothing else (`gate_clean`).
-/
namespace TcAlloc
namespace Verify
open World.Program (blocks Seen)
open Workload (Deal PoolStep pool sum_put balanced le_sum add_le_sum erase_add)
open CrossThread (runCheck)

/-- Where a thread is in `Take` or `Give`. -/
inductive Spot where
  | idle
  /-- `void* p = Alloc(n)` -/
  | calls (n : Nat)
  | awaits (n : Nat)
  /-- The pointer is looked at. -/
  | tests (n p : Nat)
  /-- `reg.Insert(p)` -/
  | inserts (b : Block)
  /-- In `FillBlock`, from the byte `i` on. -/
  | fills (b : Block) (i chunk : Nat)
  | took (b : Block)
  /-- In `CheckBlock`, from the byte `i` on. -/
  | checks (b : Block) (i chunk : Nat)
  /-- `reg.Erase(b.p)` -/
  | erases (b : Block)
  /-- `Free(b.p)` -/
  | frees (b : Block)
  | awaitsFree
  | gave

/-- What the threads share, their counters, and where they are. -/
structure Checks (nworks : Nat) where
  f : Failures := {}
  reg : Registry := {}
  counter : Fin nworks → Nat := fun _ => 0
  spot : Fin nworks → Spot := fun _ => .idle

/-- The bytes of the chunk at the byte `i`, as `memcpy` writes them or `memcmp` sees them. -/
def chunkCells (b : Block) (i : Nat) (value : Nat → UInt8) : Nat → Option UInt8 :=
  let m := if b.n - i < 8 then b.n - i else 8
  fun x => if b.p + i ≤ x ∧ x < b.p + i + m then some (value (x - (b.p + i))) else none

namespace Checks
variable {nworks : Nat}

def goto (c : Checks nworks) (k : Fin nworks) (spot : Spot) : Checks nworks :=
  { c with spot := Function.update c.spot k spot }

/-- `Take` from the return of `Alloc` up to `reg.Insert`. -/
def test (c : Checks nworks) (k : Fin nworks) (n p : Nat) : Checks nworks :=
  let counter := c.counter k + 1
  let tag := tagOf k counter
  let c := { c with counter := Function.update c.counter k counter }
  if p = 0 then
    { c with f := { c.f with nullPtr := c.f.nullPtr + 1 }.note (.nullReturn n) }.goto k (.took ⟨0,n,tag⟩)
  else if p % 8 ≠ 0 then
    { c with f := { c.f with misaligned := c.f.misaligned + 1 }.note (.misaligned p n) }.goto k (.inserts ⟨p,n,tag⟩)
  else c.goto k (.inserts ⟨p,n,tag⟩)

/-- `reg.Insert`, and what follows if the pointer was there. -/
def insert (c : Checks nworks) (k : Fin nworks) (b : Block) : Checks nworks :=
  let (fresh,reg) := c.reg.insert b.p
  let c := { c with reg := reg }
  if fresh then c.goto k (.fills b 0 0)
  else { c with f := { c.f with duplicate := c.f.duplicate + 1 }.note (.duplicate b.p b.n) }.goto k (.fills b 0 0)

/-- `memcmp` of the chunk at the byte `i`, and the search for the byte where it differs. -/
def compare (c : Checks nworks) (k : Fin nworks) (b : Block) (i chunk : Nat) (mem : Memory) : Checks nworks :=
  let v := mix (b.tag ^^^ .ofNat chunk)
  let m := if b.n - i < 8 then b.n - i else 8
  if differs mem (b.p + i) v m then
    let badOff := match (List.range m).find? (fun j => mem (b.p + i + j) != byteOf v j) with
      | some j => i + j
      | none => i
    { c with f := { c.f with corrupted := c.f.corrupted + 1 }.note (.corrupted b.p b.n badOff) }.goto k (.erases b)
  else c.goto k (.checks b (i + 8) (chunk + 1))

/-- A step of a thread. What it does with the allocator and with its blocks is on the
    left, what it does for the workload on the right. -/
inductive Step (c : Checks nworks) : Option (Seen ⊕ Deal nworks Block) → Checks nworks → Prop
  | takes {k : Fin nworks} {n : Nat} (here : c.spot k = .idle) : Step c (some (.inr (.takes k n))) (c.goto k (.calls n))
  | calls {k : Fin nworks} {n : Nat} (here : c.spot k = .calls n) : Step c (some (.inl (.asks k n))) (c.goto k (.awaits n))
  | returned {k : Fin nworks} {n p : Nat} (here : c.spot k = .awaits n) :
      Step c (some (.inl (.gets k p))) (c.goto k (.tests n p))
  | tests {k : Fin nworks} {n p : Nat} (here : c.spot k = .tests n p) : Step c none (c.test k n p)
  | inserts {k : Fin nworks} {b : Block} (here : c.spot k = .inserts b) : Step c none (c.insert k b)
  | fills {k : Fin nworks} {b : Block} {i chunk : Nat} (here : c.spot k = .fills b i chunk) (more : i < b.n) :
      Step c (some (.inl (.writes (chunkCells b i (byteOf (mix (b.tag ^^^ .ofNat chunk)))))))
        (c.goto k (.fills b (i + 8) (chunk + 1)))
  | filled {k : Fin nworks} {b : Block} {i chunk : Nat} (here : c.spot k = .fills b i chunk) (all : ¬ i < b.n) :
      Step c none (c.goto k (.took b))
  | took {k : Fin nworks} {b : Block} (here : c.spot k = .took b) : Step c (some (.inr (.took k b))) (c.goto k .idle)
  | gives {k : Fin nworks} {b : Block} (here : c.spot k = .idle) :
      Step c (some (.inr (.gives k b))) (c.goto k (if b.p = 0 then .gave else .checks b 0 0))
  | checks {k : Fin nworks} {b : Block} {i chunk : Nat} {mem : Memory} (here : c.spot k = .checks b i chunk)
      (more : i < b.n) :
      Step c (some (.inl (.reads (chunkCells b i (fun j => mem (b.p + i + j)))))) (c.compare k b i chunk mem)
  | checked {k : Fin nworks} {b : Block} {i chunk : Nat} (here : c.spot k = .checks b i chunk) (all : ¬ i < b.n) :
      Step c none (c.goto k (.erases b))
  | erases {k : Fin nworks} {b : Block} (here : c.spot k = .erases b) :
      Step c none ({ c with reg := c.reg.erase b.p }.goto k (.frees b))
  | frees {k : Fin nworks} {b : Block} (here : c.spot k = .frees b) :
      Step c (some (.inl (.gives k b.p))) (c.goto k .awaitsFree)
  | freed {k : Fin nworks} (here : c.spot k = .awaitsFree) : Step c (some (.inl (.done k))) (c.goto k .gave)
  | gave {k : Fin nworks} (here : c.spot k = .gave) : Step c (some (.inr (.gave k))) (c.goto k .idle)

end Checks

/-- The checks of `nworks` threads, with `--registry` or without. -/
def gate (nworks : Nat) (registry : Bool) : System (Seen ⊕ Deal nworks Block) (Checks nworks) where
  init c := c = { reg := { enabled := registry } }
  step c := c.Step

/-! ### What the threads have in hand -/

def Block.place (b : Block) : Nat × Nat := (b.p,b.n)

namespace Spot

/-- The block of a thread that is with neither the workload nor the allocator. -/
def hand : Spot → Multiset (Nat × Nat)
  | .tests n p => {(p,n)}
  | .inserts b | .fills b _ _ | .checks b _ _ | .erases b | .frees b => {b.place}
  | .took b => if b.p = 0 then 0 else {b.place}
  | _ => 0

/-- What of it is in the registry. -/
def entered : Spot → Multiset Nat
  | .fills b _ _ | .checks b _ _ | .erases b => {b.p}
  | .took b => if b.p = 0 then 0 else {b.p}
  | _ => 0

end Spot

/-- The first `i` bytes of the block are stamped. -/
def Stamped (mem : Memory) (b : Block) (i : Nat) : Prop := ∀ j, j < i → j < b.n → mem (b.p + j) = stamp b.tag j

/-- How far the block in hand is stamped. -/
def Spot.Written (mem : Memory) : Spot → Prop
  | .fills b i chunk => i = 8 * chunk ∧ Stamped mem b i
  | .took b => b.p ≠ 0 → Stamped mem b b.n
  | .checks b i chunk => i = 8 * chunk ∧ Stamped mem b b.n
  | _ => True

/-- What holds along every run of the checks over a heap: each live block is held, or in
    one hand, is stamped as far as it should be, and no failure has been counted. -/
structure Honest {nworks : Nat} (held : Multiset Block) (c : Checks nworks) (h : Heap Nat Nat UInt8) : Prop where
  sound : Heap.Sound blocks h.live
  live : (h.live : Multiset (Nat × Nat)) = held.map Block.place + ∑ k, (c.spot k).hand
  entered : c.reg.enabled = true → (c.reg.live : Multiset Nat) = held.map Block.p + ∑ k, (c.spot k).entered
  whole : ∀ b ∈ held, Stamped h.contents b b.n
  part : ∀ k, (c.spot k).Written h.contents
  awaits : ∀ k n, c.spot k = .awaits n → h.pending k = .asking n
  clean : c.f = {}

/-! ### Whose a block is -/

section
variable {nworks : Nat} {held held' : Multiset Block} {c : Checks nworks} {h h' : Heap Nat Nat UInt8} {k k' : Fin nworks}
  {b b' : Block} {i chunk n p : Nat} {mem mem' : Memory} {spot : Spot}

theorem Spot.mem_entered (mem : p ∈ spot.entered) : ∃ n, (p,n) ∈ spot.hand := by
  cases spot with
  | fills b i chunk => exact ⟨b.n,by simpa [entered,hand,Block.place] using mem⟩
  | checks b i chunk => exact ⟨b.n,by simpa [entered,hand,Block.place] using mem⟩
  | erases b => exact ⟨b.n,by simpa [entered,hand,Block.place] using mem⟩
  | took b =>
    by_cases null : b.p = 0
    · simp [entered,null] at mem
    · exact ⟨b.n,by simpa [entered,hand,Block.place,null] using mem⟩
  | _ => simp [entered] at mem

namespace Honest

/-- Blocks at the same place are one. -/
theorem keys (honest : Honest held c h) :
    ((held.map Block.place + ∑ k, (c.spot k).hand).map Prod.fst).Nodup := by
  rw [← honest.live,Multiset.map_coe,Multiset.coe_nodup]
  exact honest.sound.keys

theorem held_live (honest : Honest held c h) (mem : b ∈ held) : (b.p,b.n) ∈ h.live := by
  rw [← Multiset.mem_coe,honest.live]
  exact Multiset.mem_add.mpr (.inl (Multiset.mem_map_of_mem Block.place mem))

theorem hand_live (honest : Honest held c h) (mem : (p,n) ∈ (c.spot k).hand) : (p,n) ∈ h.live := by
  rw [← Multiset.mem_coe,honest.live]
  exact Multiset.mem_add.mpr (.inr (Multiset.mem_of_le (le_sum (f := fun k => (c.spot k).hand) k) mem))

theorem held_hand (honest : Honest held c h) (mem : b ∈ held) (mem' : (p,n) ∈ (c.spot k).hand) : b.p ≠ p := by
  have nodup := honest.keys
  rw [Multiset.map_add,Multiset.nodup_add] at nodup
  have first : b.p ∈ (held.map Block.place).map Prod.fst :=
    Multiset.mem_map_of_mem Prod.fst (Multiset.mem_map_of_mem Block.place mem)
  have second : p ∈ (∑ k, (c.spot k).hand).map Prod.fst :=
    Multiset.mem_map_of_mem Prod.fst (Multiset.mem_of_le (le_sum (f := fun k => (c.spot k).hand) k) mem')
  exact Multiset.disjoint_iff_ne.mp nodup.2.2 _ first _ second

theorem hand_hand (honest : Honest held c h) (other : k' ≠ k) {q m : Nat} (mem : (p,n) ∈ (c.spot k).hand)
    (mem' : (q,m) ∈ (c.spot k').hand) : p ≠ q := by
  have nodup := honest.keys
  rw [Multiset.map_add,Multiset.nodup_add] at nodup
  have both : (c.spot k).hand + (c.spot k').hand ≤ ∑ k, (c.spot k).hand := add_le_sum other
  have nodup := Multiset.nodup_of_le (Multiset.map_le_map both) nodup.2.1
  rw [Multiset.map_add,Multiset.nodup_add] at nodup
  exact Multiset.disjoint_iff_ne.mp nodup.2.2 _ (Multiset.mem_map_of_mem Prod.fst mem) _
    (Multiset.mem_map_of_mem Prod.fst mem')

/-- A pointer that a thread has got and not entered is not in the registry. -/
theorem unregistered (honest : Honest held c h) (here : c.spot k = .inserts b) (on : c.reg.enabled = true) :
    b.p ∉ c.reg.live := by
  have mine : (b.p,b.n) ∈ (c.spot k).hand := by rw [here]; exact Multiset.mem_singleton_self _
  rw [← Multiset.mem_coe,honest.entered on,Multiset.mem_add]
  rintro (old | old)
  · obtain ⟨b',mem,same⟩ := Multiset.mem_map.mp old
    exact honest.held_hand mem mine same
  · obtain ⟨k',_,mem⟩ := Multiset.mem_sum.mp old
    by_cases same : k' = k
    · rw [same,here] at mem
      exact absurd mem (Multiset.notMem_zero _)
    · obtain ⟨m,there⟩ := Spot.mem_entered mem
      exact honest.hand_hand same mine there rfl

end Honest

/-! ### Memory -/

theorem Stamped.congr (stamped : Stamped mem b i) (same : ∀ x, b.p ≤ x → x < b.p + b.n → mem' x = mem x) :
    Stamped mem' b i := by
  intro j low inside
  rw [same (b.p + j) (by omega) (by omega)]
  exact stamped j low inside

/-- A thread depends only on the block that it has in hand. -/
theorem Spot.Written.congr (written : spot.Written mem)
    (same : ∀ p n, (p,n) ∈ spot.hand → ∀ x, p ≤ x → x < p + n → mem' x = mem x) : spot.Written mem' := by
  cases spot with
  | fills b i chunk => exact ⟨written.1,written.2.congr (same b.p b.n (Multiset.mem_singleton_self _))⟩
  | checks b i chunk => exact ⟨written.1,written.2.congr (same b.p b.n (Multiset.mem_singleton_self _))⟩
  | took b =>
    intro some
    refine (written some).congr (same b.p b.n ?_)
    rw [hand,if_neg some]
    exact Multiset.mem_singleton_self _
  | _ => trivial

/-- The chunk as it lies in memory after `memcpy`. -/
theorem overlay_chunk (v : UInt64) : Heap.overlay (chunkCells b i (byteOf v)) mem =
    copyIn mem (b.p + i) v (if b.n - i < 8 then b.n - i else 8) := by
  funext x
  unfold Heap.overlay chunkCells copyIn
  split_ifs <;> rfl

/-- A chunk has bytes of its block only. -/
theorem chunkCells_inside {value : Nat → UInt8} {x : Nat} (some : chunkCells b i value x ≠ none) :
    b.p ≤ x ∧ x < b.p + b.n := by
  unfold chunkCells at some
  split_ifs at some <;> first | exact absurd rfl some | omega

/-- What is seen of a chunk is in memory. -/
theorem chunkCells_seen {x : Nat} {v : UInt8} (found : chunkCells b i (fun j => mem (b.p + i + j)) x = some v) :
    mem x = v := by
  unfold chunkCells at found
  generalize (if b.n - i < 8 then b.n - i else 8) = m at found
  split_ifs at found with inside
  rw [← Option.some_inj.mp found]
  exact congrArg mem (by omega)

/-- One chunk more is stamped. -/
theorem Stamped.fill (stamped : Stamped mem b i) (aligned : i = 8 * chunk) :
    Stamped (Heap.overlay (chunkCells b i (byteOf (mix (b.tag ^^^ .ofNat chunk)))) mem) b (i + 8) := by
  intro j low inside
  rw [overlay_chunk,copyIn]
  by_cases old : j < i
  · rw [if_neg (by omega)]
    exact stamped j old inside
  · obtain ⟨d,rfl⟩ := Nat.exists_eq_add_of_le (Nat.le_of_not_lt old)
    rw [if_pos (by split_ifs <;> omega),aligned,stamp_chunk b.tag chunk (by omega)]
    congr 1
    omega

/-- `memcmp` finds no difference in a chunk of a block that is stamped. -/
theorem Stamped.same (stamped : Stamped mem b b.n) (aligned : i = 8 * chunk)
    (seen : ∀ x v, chunkCells b i (fun j => mem' (b.p + i + j)) x = some v → mem x = v) :
    differs mem' (b.p + i) (mix (b.tag ^^^ .ofNat chunk)) (if b.n - i < 8 then b.n - i else 8) = false := by
  rw [Bool.eq_false_iff,ne_eq,differs_iff]
  rintro ⟨j,inside,differ⟩
  have short : j < 8 ∧ i + j < b.n := by split_ifs at inside <;> omega
  have here := seen (b.p + i + j) (mem' (b.p + i + j)) (by
    unfold chunkCells
    rw [if_pos ⟨by omega,by omega⟩]
    simp)
  rw [← here] at differ
  exact differ ((chunk_byte aligned short.1).mpr (stamped (i + j) short.2 short.2))

/-! ### Every step -/

namespace Honest

/-- A thread is somewhere else, and what has changed besides is balanced. -/
theorem put (honest : Honest held c h) (spot : Spot) {c' : Checks nworks} (spots : c'.spot = Function.update c.spot k spot)
    (enabled : c'.reg.enabled = c.reg.enabled) (clean : c'.f = {}) (sound : Heap.Sound blocks h'.live)
    (live : (h'.live : Multiset (Nat × Nat)) + (held.map Block.place + (c.spot k).hand) =
      h.live + (held'.map Block.place + spot.hand))
    (entered : c.reg.enabled = true → (c'.reg.live : Multiset Nat) + (held.map Block.p + (c.spot k).entered) =
      c.reg.live + (held'.map Block.p + spot.entered))
    (whole : ∀ b ∈ held', Stamped h'.contents b b.n) (part : ∀ k', k' ≠ k → (c.spot k').Written h'.contents)
    (written : spot.Written h'.contents) (still : ∀ k', k' ≠ k → h'.pending k' = h.pending k')
    (awaits : ∀ n, spot = .awaits n → h'.pending k = .asking n) : Honest held' c' h' where
  sound := sound
  live := by
    rw [spots]
    exact balanced honest.live live (sum_put Spot.hand c.spot k spot)
  entered := by
    intro on
    rw [enabled] at on
    rw [spots]
    exact balanced (honest.entered on) (entered on) (sum_put Spot.entered c.spot k spot)
  whole := whole
  part := by
    intro k'
    rw [spots]
    by_cases here : k' = k
    · subst here
      rwa [Function.update_self]
    · rw [Function.update_of_ne here]
      exact part k' here
  awaits := by
    intro k' n
    rw [spots]
    by_cases here : k' = k
    · subst here
      rw [Function.update_self]
      exact awaits n
    · rw [Function.update_of_ne here,still k' here]
      exact honest.awaits k' n
  clean := clean

/-- A thread goes on with the same block in hand. -/
theorem goto (honest : Honest held c h) (hand : spot.hand = (c.spot k).hand) (entered : spot.entered = (c.spot k).entered)
    (written : spot.Written h.contents) (awaits : ∀ n, spot ≠ .awaits n) : Honest held (c.goto k spot) h := by
  have spots : (c.goto k spot).spot = Function.update c.spot k spot := rfl
  exact honest.put spot spots rfl honest.clean honest.sound (by rw [hand]) (fun _ => by rw [entered]; rfl) honest.whole
    (fun k' _ => honest.part k') written (fun _ _ => rfl) (fun n same => absurd same (awaits n))

/-- What a thread has in hand is at a place where a block may be. -/
theorem hand_good (honest : Honest held c h) (mem : (p,n) ∈ (c.spot k).hand) : p ≠ 0 ∧ 8 ∣ p :=
  honest.sound.good (p,n) (honest.hand_live mem)

/-- A step of the gate alone. -/
theorem client (honest : Honest held c h) {c' : Checks nworks} (step : c.Step none c') : Honest held c' h := by
  cases step with
  | @tests k n p here =>
    have good := honest.hand_good (k := k) (p := p) (n := n) (by rw [here]; exact Multiset.mem_singleton_self _)
    have aligned : ¬ p % 8 ≠ 0 := not_not.mpr (Nat.mod_eq_zero_of_dvd good.2)
    unfold Checks.test
    simp only [if_neg good.1,if_neg aligned]
    refine honest.put (.inserts ⟨p,n,tagOf k (c.counter k + 1)⟩) rfl rfl honest.clean honest.sound ?_ (fun _ => ?_)
      honest.whole (fun k' _ => honest.part k') trivial (fun _ _ => rfl) (fun n same => by cases same)
    · rw [here]; rfl
    · rw [here]; rfl
  | @inserts k b here =>
    unfold Checks.insert Registry.insert
    by_cases on : c.reg.enabled = false
    · simp only [if_pos on,if_true]
      refine honest.put (.fills b 0 0) rfl rfl honest.clean honest.sound ?_ (fun yes => ?_) honest.whole
        (fun k' _ => honest.part k') ⟨rfl,fun j none => absurd none (Nat.not_lt_zero j)⟩ (fun _ _ => rfl)
        (fun n same => by cases same)
      · rw [here]; rfl
      · rw [on] at yes; cases yes
    · have on : c.reg.enabled = true := by simpa using on
      simp only [on,Bool.true_eq_false,if_false,if_neg (honest.unregistered here on),if_true]
      refine honest.put (.fills b 0 0) rfl on.symm honest.clean honest.sound ?_ (fun _ => ?_) honest.whole
        (fun k' _ => honest.part k') ⟨rfl,fun j none => absurd none (Nat.not_lt_zero j)⟩ (fun _ _ => rfl)
        (fun n same => by cases same)
      · rw [here]; rfl
      · -- The pointer is in the registry now, and in the hand of its thread.
        change ((b.p :: c.reg.live : List Nat) : Multiset Nat) + (held.map Block.p + (c.spot k).entered) =
          c.reg.live + (held.map Block.p + {b.p})
        rw [here,← Multiset.cons_coe,← Multiset.singleton_add]
        change {b.p} + (c.reg.live : Multiset Nat) + (held.map Block.p + 0) = _
        abel
  | @filled k b i chunk here all =>
    have written := honest.part k
    rw [here] at written
    by_cases null : b.p = 0
    · have good := honest.hand_good (k := k) (p := b.p) (n := b.n) (by rw [here]; exact Multiset.mem_singleton_self _)
      exact absurd null good.1
    · refine honest.goto ?_ ?_ (fun _ j low inside => written.2 j (by omega) inside) (fun n same => by cases same)
      · rw [here]; simp only [Spot.hand,if_neg null]
      · rw [here]; simp only [Spot.entered,if_neg null]
  | @checked k b i chunk here all =>
    exact honest.goto (by rw [here]; rfl) (by rw [here]; rfl) trivial (fun n same => by cases same)
  | @erases k b here =>
    refine honest.put (.frees b) rfl ?_ honest.clean honest.sound ?_ (fun on => ?_) honest.whole
      (fun k' _ => honest.part k') trivial (fun _ _ => rfl) (fun n same => by cases same)
    · change (c.reg.erase b.p).enabled = _
      unfold Registry.erase
      split_ifs <;> rfl
    · rw [here]; rfl
    · have among : b.p ∈ c.reg.live := by
        rw [← Multiset.mem_coe,honest.entered on,Multiset.mem_add]
        refine .inr (Multiset.mem_of_le (le_sum (f := fun k => (c.spot k).entered) k) ?_)
        simp only [here]
        exact Multiset.mem_singleton_self _
      have erased : ((c.reg.erase b.p).live : Multiset Nat) + {b.p} = c.reg.live := by
        unfold Registry.erase
        rw [if_neg (by rw [on]; decide)]
        exact erase_add among
      change ((c.reg.erase b.p).live : Multiset Nat) + (held.map Block.p + (c.spot k).entered) =
        c.reg.live + (held.map Block.p + 0)
      rw [here,← erased]
      change _ + (held.map Block.p + {b.p}) = _
      abel

/-- The allocator at work on bytes of its own. -/
theorem server (honest : Honest held c h) (step : Heap.Step blocks h none h') : Honest held c h' := by
  cases step with
  | @stirs contents kept =>
    have same : ∀ p n, (p,n) ∈ h.live → ∀ x, p ≤ x → x < p + n → contents x = h.contents x :=
      fun p n mem x low high => kept x ⟨(p,n),mem,low,high⟩
    exact {
      sound := honest.sound
      live := honest.live
      entered := honest.entered
      whole := fun b mem => (honest.whole b mem).congr (same b.p b.n (honest.held_live mem))
      part := fun k => (honest.part k).congr (fun p n mem => same p n (honest.hand_live mem))
      awaits := honest.awaits
      clean := honest.clean }

/-- What is written into one block leaves the others as they were. -/
theorem apart (honest : Honest held c h) (mine : (b.p,b.n) ∈ h.live) (live : (p,n) ∈ h.live) (other : p ≠ b.p)
    (value : Nat → UInt8) {x : Nat} (low : p ≤ x) (high : x < p + n) :
    Heap.overlay (chunkCells b i value) h.contents x = h.contents x := by
  cases cell : chunkCells b i value x with
  | none => rw [Heap.overlay,cell,Option.getD_none]
  | some v =>
    have some : chunkCells b i value x ≠ none := by rw [cell]; exact Option.some_ne_none v
    have inside := chunkCells_inside some
    exact absurd (honest.sound.owner live mine ⟨low,high⟩ inside) other

/-- A step of the gate and the heap. -/
theorem access (honest : Honest held c h) {c' : Checks nworks} {a : Seen} (first : c.Step (some (.inl a)) c')
    (second : Heap.Step blocks h (some a) h') : Honest held c' h' := by
  cases first with
  | @calls k n here =>
    cases second
    refine honest.put (.awaits n) rfl rfl honest.clean honest.sound ?_ (fun _ => ?_) honest.whole
      (fun k' _ => honest.part k') trivial (fun k' other => ?_) (fun m same => ?_)
    · rw [here]; rfl
    · rw [here]; rfl
    · exact Function.update_of_ne (fun same => other (Fin.ext same)) _ _
    · cases same
      exact Function.update_self _ _ _
  | @returned k n p here =>
    have asks := honest.awaits k n here
    have next := honest.sound.step second
    cases second with
    | @gets _ size _ asked fresh =>
      rw [asks] at asked
      cases asked
      refine honest.put (.tests n p) rfl rfl honest.clean next ?_ (fun _ => ?_) honest.whole
        (fun k' _ => honest.part k') trivial (fun k' other => ?_) (fun m same => by cases same)
      · change (((p,n) :: h.live : List (Nat × Nat)) : Multiset (Nat × Nat)) + (held.map Block.place + (c.spot k).hand) =
          h.live + (held.map Block.place + {(p,n)})
        rw [here,← Multiset.cons_coe,← Multiset.singleton_add]
        change {(p,n)} + (h.live : Multiset (Nat × Nat)) + (held.map Block.place + 0) = _
        abel
      · rw [here]; rfl
      · exact Function.update_of_ne (fun same => other (Fin.ext same)) _ _
  | @fills k b i chunk here more =>
    have mine := honest.hand_live (k := k) (p := b.p) (n := b.n) (by rw [here]; exact Multiset.mem_singleton_self _)
    have written := honest.part k
    rw [here] at written
    obtain ⟨aligned,stamped⟩ := written
    cases second with
    | writes inside =>
      refine honest.put (.fills b (i + 8) (chunk + 1)) rfl rfl honest.clean honest.sound ?_ (fun _ => ?_)
        (fun b' mem => ?_) (fun k' other => ?_) ⟨by omega,stamped.fill aligned⟩ (fun _ _ => rfl)
        (fun m same => by cases same)
      · rw [here]; rfl
      · rw [here]; rfl
      · have ne := honest.held_hand (k := k) (p := b.p) (n := b.n) mem (by rw [here]; exact Multiset.mem_singleton_self _)
        exact (honest.whole b' mem).congr (fun x => honest.apart mine (honest.held_live mem) ne _)
      · refine (honest.part k').congr (fun p n mem x => honest.apart mine (honest.hand_live mem) (fun same => ?_) _)
        exact honest.hand_hand other (by rw [here]; exact Multiset.mem_singleton_self _) mem same.symm
  | @checks k b i chunk mem here more =>
    have written := honest.part k
    rw [here] at written
    obtain ⟨aligned,stamped⟩ := written
    cases second with
    | reads inside seen =>
      have same := stamped.same aligned seen
      unfold Checks.compare
      simp only [same,Bool.false_eq_true,if_false]
      exact honest.goto (by rw [here]; rfl) (by rw [here]; rfl) ⟨by omega,stamped⟩ (fun n same => by cases same)
  | @frees k b here =>
    have mine := honest.hand_live (k := k) (p := b.p) (n := b.n) (by rw [here]; exact Multiset.mem_singleton_self _)
    have next := honest.sound.step second
    cases second with
    | @gives _ size _ idle live =>
      have size_eq := honest.sound.unique live mine
      subst size_eq
      refine honest.put .awaitsFree rfl rfl honest.clean next ?_ (fun _ => ?_) honest.whole
        (fun k' _ => honest.part k') trivial (fun k' other => ?_) (fun m same => by cases same)
      · change ((h.live.erase (b.p,b.n) : List (Nat × Nat)) : Multiset (Nat × Nat)) +
          (held.map Block.place + (c.spot k).hand) = h.live + (held.map Block.place + 0)
        rw [here,← erase_add live]
        change _ + (held.map Block.place + {(b.p,b.n)}) = _
        abel
      · rw [here]; rfl
      · exact Function.update_of_ne (fun same => other (Fin.ext same)) _ _
  | @freed k here =>
    cases second
    refine honest.put .gave rfl rfl honest.clean honest.sound ?_ (fun _ => ?_) honest.whole
      (fun k' _ => honest.part k') trivial (fun k' other => ?_) (fun m same => by cases same)
    · rw [here]; rfl
    · rw [here]; rfl
    · exact Function.update_of_ne (fun same => other (Fin.ext same)) _ _

/-- A step of the workload and the gate. -/
theorem deal (honest : Honest held c h) {c' : Checks nworks} {m : Deal nworks Block}
    (first : PoolStep runCheck held (some m) held') (second : c.Step (some (.inr m)) c') : Honest held' c' h := by
  cases second with
  | takes here =>
    cases first
    exact honest.goto (by rw [here]; rfl) (by rw [here]; rfl) trivial (fun n same => by cases same)
  | @took k b here =>
    have written := honest.part k
    rw [here] at written
    cases first with
    | took some_ =>
      have some_ : b.p ≠ 0 := some_
      refine honest.put .idle rfl rfl honest.clean honest.sound ?_ (fun _ => ?_) (fun b' mem => ?_)
        (fun k' _ => honest.part k') trivial (fun _ _ => rfl) (fun m same => by cases same)
      · rw [here]
        simp only [Spot.hand,if_neg some_,← Multiset.singleton_add,Multiset.map_add,Multiset.map_singleton]
        abel
      · rw [here]
        simp only [Spot.entered,if_neg some_,← Multiset.singleton_add,Multiset.map_add,Multiset.map_singleton]
        change (c.reg.live : Multiset Nat) + _ = _
        abel
      · rcases Multiset.mem_cons.mp mem with rfl | old
        · exact written some_
        · exact honest.whole b' old
    | tookNull null =>
      have null : b.p = 0 := null
      refine honest.goto ?_ ?_ trivial (fun n same => by cases same)
      · rw [here]; simp only [Spot.hand,if_pos null]
      · rw [here]; simp only [Spot.entered,if_pos null]
  | @gives k b here =>
    cases first with
    | @gives _ _ rest among =>
      subst among
      have mine := honest.held_live (b := b) (Multiset.mem_cons_self b held')
      have some_ : b.p ≠ 0 := (honest.sound.good (b.p,b.n) mine).1
      rw [if_neg some_]
      refine honest.put (.checks b 0 0) rfl rfl honest.clean honest.sound ?_ (fun _ => ?_)
        (fun b' mem => honest.whole b' (Multiset.mem_cons_of_mem mem)) (fun k' _ => honest.part k')
        ⟨rfl,honest.whole b (Multiset.mem_cons_self b held')⟩ (fun _ _ => rfl) (fun m same => by cases same)
      · rw [here]
        simp only [Spot.hand,← Multiset.singleton_add,Multiset.map_add,Multiset.map_singleton]
        abel
      · rw [here]
        simp only [Spot.entered,← Multiset.singleton_add,Multiset.map_add,Multiset.map_singleton]
        change (c.reg.live : Multiset Nat) + _ = _
        abel
    | givesNull null =>
      have null : b.p = 0 := null
      rw [if_pos null]
      exact honest.goto (by rw [here]; rfl) (by rw [here]; rfl) trivial (fun n same => by cases same)
  | gave here =>
    cases first
    exact honest.goto (by rw [here]; rfl) (by rw [here]; rfl) trivial (fun n same => by cases same)

end Honest

/-- The gate with a pool of blocks, over a heap. -/
abbrev honestly (nworks : Nat) (registry : Bool) :
    System (Deal nworks Block) (Multiset Block × Checks nworks × Heap Nat Nat UInt8) :=
  (pool runCheck nworks).beside ((gate nworks registry).atop (heap Nat UInt8 blocks))

theorem honest_start {registry : Bool} (start : c = { reg := { enabled := registry } }) (empty : h.live = []) :
    Honest 0 c h := by
  subst start
  refine ⟨?_,?_,fun _ => ?_,fun _ none => absurd none (Multiset.notMem_zero _),fun _ => trivial,
    (fun _ _ same => by cases same),rfl⟩
  · rw [empty]
    exact ⟨List.Pairwise.nil,fun _ none => absurd none List.not_mem_nil⟩
  · simp [empty,Spot.hand]
  · simp [Spot.entered]

/-- Every state that is reached is honest. -/
theorem honest_reached {registry : Bool} (reached : (honestly nworks registry).Reaches (held,c,h)) : Honest held c h := by
  refine reached.keeps (P := fun s => Honest s.1 s.2.1 s.2.2) ?_ ?_
  · rintro ⟨held,c,h⟩ ⟨none,start,empty,_⟩
    cases (show held = 0 from none)
    exact honest_start start empty
  · rintro ⟨held,c,h⟩ a ⟨held',c',h'⟩ honest step
    cases step with
    | left step => cases step
    | right step =>
      cases step with
      | client step => exact honest.client step
      | server step => exact honest.server step
      | both first second => exact honest.access first second
    | both first second =>
      cases second with
      | shows second => exact honest.deal first second

/-- Over an allocator that shows only what a heap shows the gate is honest. -/
theorem honest_over {σ δ : Type} {S : System Seen σ} {R : σ → Heap Nat Nat UInt8 → Prop}
    (server : System.Simulates S (heap Nat UInt8 blocks) R) {D : System (Deal nworks Block) δ}
    {Q : δ → Multiset Block → Prop} (frugal : System.Simulates D (pool runCheck nworks) Q) {registry : Bool}
    {d : δ} {s : σ} (reached : (D.beside ((gate nworks registry).atop S)).Reaches (d,c,s)) :
    ∃ held h, Q d held ∧ R s h ∧ Honest held c h := by
  obtain ⟨⟨held,c',h⟩,reached',related,⟨same,serves⟩⟩ :=
    (frugal.beside (server.atop (gate nworks registry))).reaches reached
  cases (show c = c' from same)
  exact ⟨held,h,related,serves,honest_reached reached'⟩

/-- While no thread is in a call, all the live blocks are with the workload. -/
theorem Honest.idle (honest : Honest held c h) (idle : ∀ k, c.spot k = .idle) :
    (h.live : Multiset (Nat × Nat)) = held.map Block.place ∧
      (c.reg.enabled = true → (c.reg.live : Multiset Nat) = held.map Block.p) := by
  refine ⟨?_,fun on => ?_⟩
  · rw [honest.live,Finset.sum_eq_zero (fun k _ => by rw [idle k]; rfl),add_zero]
  · rw [honest.entered on,Finset.sum_eq_zero (fun k _ => by rw [idle k]; rfl),add_zero]

/-! ### A block that is stamped, checked and freed -/

/-- A block of 16 bytes, as the first one of the first thread is stamped. -/
abbrev lent : Block := ⟨2 ^ 31,16,tagOf 0 1⟩

/-- The chunk at the byte `i` of it as `FillBlock` writes it, and as `CheckBlock` sees it. -/
def lentWrites (i chunk : Nat) : Nat → Option UInt8 := chunkCells lent i (byteOf (mix (lent.tag ^^^ .ofNat chunk)))
def lentLooks (mem : Memory) (i : Nat) : Nat → Option UInt8 := chunkCells lent i (fun j => mem (lent.p + i + j))

/-- What the thread shows of it, from its call to the last stamp, and from the first look to the return of `Free`. -/
def takenBy (t : Nat) : List Seen := [.asks t 16,.gets t lent.p] ++ [lentWrites 0 0,lentWrites 8 1].map .writes
def givenBy (t : Nat) (mem : Memory) : List Seen :=
  [lentLooks mem 0,lentLooks mem 8].map .reads ++ [.gives t lent.p,.done t]

/-- The allocator lends the block to thread `t`, as the first one. -/
theorem lent_runs {t : Nat} (lends : (World.Program.lend t [lentWrites 0 0,lentWrites 8 1]).isSome = true) :
    ∃ M M' : World.Program, M.live = [lent.place] ∧ Stamped M.world.mem lent 16 ∧
      (World.Program.system .standard (.upTo World.Program.spanBytes)).Runs (World.Program.start fun _ => 0) (takenBy t) M ∧
      (World.Program.system .standard (.upTo World.Program.spanBytes)).Runs M (givenBy t M.world.mem) M' := by
  obtain ⟨M',lends⟩ := Option.isSome_iff_exists.mp lends
  obtain ⟨A,live,asked,gave⟩ := World.Program.lend_runs lends
  have owned : ∀ {i : Nat} {value : Nat → UInt8} {x : Nat}, chunkCells lent i value x ≠ none → Heap.Owned blocks A.live x :=
    fun some_ => ⟨(2 ^ 31,16),by rw [live]; exact List.mem_singleton_self _,chunkCells_inside some_⟩
  let M := A.written [lentWrites 0 0,lentWrites 8 1]
  have none_ : Stamped A.world.mem lent 0 := fun j less => absurd less (Nat.not_lt_zero j)
  have stamped : Stamped M.world.mem lent 16 := (none_.fill (show 0 = 8 * 0 from rfl)).fill (show 8 = 8 * 1 from rfl)
  refine ⟨M,M',live,stamped,asked.trans (World.Program.writes_runs ?_),.trans (World.Program.reads_runs ?_ ?_) gave⟩
  · exact List.forall_mem_cons.mpr ⟨fun _ => owned,List.forall_mem_singleton.mpr fun _ => owned⟩
  · exact List.forall_mem_cons.mpr ⟨fun _ => owned,List.forall_mem_singleton.mpr fun _ => owned⟩
  · exact List.forall_mem_cons.mpr ⟨fun _ _ => chunkCells_seen,List.forall_mem_singleton.mpr fun _ _ => chunkCells_seen⟩

theorem Checks.goto_spot (c : Checks nworks) (k : Fin nworks) (spot : Spot) : (c.goto k spot).spot k = spot :=
  Function.update_self ..
theorem Checks.test_spot (c : Checks nworks) (k : Fin nworks) (some_ : p ≠ 0) (aligned : p % 8 = 0) :
    (c.test k n p).spot k = .inserts ⟨p,n,tagOf k (c.counter k + 1)⟩ := by
  simp only [test,if_neg some_,if_neg (not_not.mpr aligned),goto_spot]
theorem Checks.insert_spot (c : Checks nworks) (k : Fin nworks) (b : Block) : (c.insert k b).spot k = .fills b 0 0 := by
  unfold insert
  dsimp only
  split_ifs <;> exact goto_spot ..
theorem Checks.compare_spot (c : Checks nworks) (k : Fin nworks) (stamped : Stamped mem b b.n) (aligned : i = 8 * chunk) :
    (c.compare k b i chunk mem).spot k = .checks b (i + 8) (chunk + 1) := by
  simp only [compare,stamped.same aligned (fun _ _ => chunkCells_seen),Bool.false_eq_true,if_false,goto_spot]

/-- The first thread takes it. -/
theorem take_runs (registry : Bool) : ∃ c : Checks 1, (∀ k, c.spot k = .idle) ∧
    (gate 1 registry).Runs { reg := { enabled := registry } }
      ([.inr (.takes 0 16)] ++ (takenBy 0).map .inl ++ [.inr (.took 0 lent)]) c := by
  let c₀ : Checks 1 := { reg := { enabled := registry } }
  have start : (gate 1 registry).Runs c₀ [] c₀ := .refl
  have taking := start.shows (.takes (k := 0) (n := 16) rfl)
  have called := taking.shows (.calls (Checks.goto_spot ..))
  have returned := called.shows (.returned (p := lent.p) (Checks.goto_spot ..))
  have tested := returned.silent (.tests (Checks.goto_spot ..))
  have entered := tested.silent (.inserts (b := lent) (Checks.test_spot _ 0 (by decide) (by decide)))
  have stamping := entered.shows (.fills (Checks.insert_spot ..) (by decide))
  have stamped := stamping.shows (.fills (Checks.goto_spot ..) (by decide))
  have filled := stamped.silent (.filled (Checks.goto_spot ..) (by decide))
  exact ⟨_,Fin.forall_fin_one.mpr (Checks.goto_spot ..),filled.shows (.took (Checks.goto_spot ..))⟩

/-- It gives the block back. -/
theorem give_runs {registry : Bool} {c : Checks 1} {mem : Memory} (idle : c.spot 0 = .idle) (stamped : Stamped mem lent 16) :
    ∃ c', (∀ k, c'.spot k = .idle) ∧
      (gate 1 registry).Runs c ([.inr (.gives 0 lent)] ++ (givenBy 0 mem).map .inl ++ [.inr (.gave 0)]) c' := by
  have start : (gate 1 registry).Runs c [] c := .refl
  have giving := start.shows (.gives (b := lent) idle)
  have looking := giving.shows (@Checks.Step.checks _ _ 0 lent 0 0 mem (Checks.goto_spot ..) (by decide))
  have looked := looking.shows (@Checks.Step.checks _ _ 0 lent 8 1 mem (Checks.compare_spot _ 0 stamped rfl) (by decide))
  have checked := looked.silent (.checked (Checks.compare_spot _ 0 stamped rfl) (by decide))
  have erased := checked.silent (.erases (Checks.goto_spot ..))
  have freeing := erased.shows (.frees (Checks.goto_spot ..))
  have freed := freeing.shows (.freed (Checks.goto_spot ..))
  exact ⟨_,Fin.forall_fin_one.mpr (Checks.goto_spot ..),freed.shows (.gave (Checks.goto_spot ..))⟩

/-! ### What the gate finds -/

/-- Over an allocator that shows only what a heap shows, and for a workload that gives
    what it has taken and once, the gate counts no failure and notes no message. What its
    threads look at, write, and free are live blocks; and while none of them is in a call,
    the live blocks are those that the workload holds, and so is what the registry has. -/
theorem gate_clean {σ δ : Type} {S : System Seen σ} {R : σ → Heap Nat Nat UInt8 → Prop}
    (server : System.Simulates S (heap Nat UInt8 blocks) R) {D : System (Deal nworks Block) δ}
    {Q : δ → Multiset Block → Prop} (frugal : System.Simulates D (pool runCheck nworks) Q) {registry : Bool}
    {d : δ} {s : σ} (reached : (D.beside ((gate nworks registry).atop S)).Reaches (d,c,s)) :
    c.f = {} ∧ ∃ held h, Q d held ∧ R s h ∧
      (∀ k p n, (p,n) ∈ (c.spot k).hand → (p,n) ∈ h.live) ∧
      ((∀ k, c.spot k = .idle) → (h.live : Multiset (Nat × Nat)) = held.map Block.place ∧
        (c.reg.enabled = true → (c.reg.live : Multiset Nat) = held.map Block.p)) := by
  obtain ⟨held,h,related,serves,honest⟩ := honest_over server frugal reached
  exact ⟨honest.clean,held,h,related,serves,fun k p n mem => honest.hand_live mem,honest.idle⟩

/-- A block that the workload has taken is the one live block, and the one in the registry;
    when it has been given back there is none. -/
theorem gate_clean_returned : ∃ (c c' : Checks 1) (M M' : World.Program),
    let gated := (pool runCheck 1).beside ((gate 1 true).atop (World.Program.system .standard (.upTo World.Program.spanBytes)))
    gated.Runs (0,{ reg := { enabled := true } },World.Program.start fun _ => 0) [.takes 0 16,.took 0 lent] ({lent},c,M) ∧
      c.f = {} ∧ (M.live : Multiset (Nat × Nat)) = {(2 ^ 31,16)} ∧
      gated.Runs ({lent},c,M) [.gives 0 lent,.gave 0] (0,c',M') ∧ c'.f = {} ∧ (M'.live : Multiset (Nat × Nat)) = 0 := by
  have server := World.Program.follows_heap (World.Program.fair_upTo .standard (le_refl World.Program.spanBytes))
  obtain ⟨M,M',_,stamped,asked,gave⟩ := lent_runs (t := 0) (by decide +kernel)
  obtain ⟨c,idle,takes⟩ := take_runs true
  obtain ⟨c',idle',gives⟩ := give_runs (idle 0) stamped
  have first : (pool runCheck 1).Runs 0 [.takes 0 16,.took 0 lent] {lent} :=
    (System.Runs.refl.shows PoolStep.takes).shows (PoolStep.took (by decide))
  have second : (pool runCheck 1).Runs {lent} [.gives 0 lent,.gave 0] 0 :=
    (System.Runs.refl.shows (PoolStep.gives (Multiset.cons_zero lent).symm)).shows PoolStep.gave
  let gated := (pool runCheck 1).beside ((gate 1 true).atop (World.Program.system .standard (.upTo World.Program.spanBytes)))
  have start : gated.init (0,{ reg := { enabled := true } },World.Program.start fun _ => 0) := ⟨rfl,rfl,⟨_,rfl⟩⟩
  have taken : gated.Runs _ [.takes 0 16,.took 0 lent] _ := first.beside (takes.atop asked)
  have given : gated.Runs _ [.gives 0 lent,.gave 0] _ := second.beside (gives.atop gave)
  obtain ⟨clean,held,h,same,⟨serves,_⟩,_,atRest⟩ := gate_clean server (.refl _) ⟨_,_,start,taken⟩
  obtain ⟨clean',held',h',same',⟨serves',_⟩,_,atRest'⟩ := gate_clean server (.refl _) ⟨_,_,start,taken.trans given⟩
  subst same same' serves serves'
  exact ⟨c,c',M,M',taken,clean,(atRest idle).1,given,clean',(atRest' idle').1⟩

/-- The gate passes on this allocator: for each pattern, each size mode, any number of
    threads, rounds and blocks, with the registry or without it, and in every interleaving
    of the threads with each other and of their calls within the allocator. When the loops
    are over and every call has returned, the registry is empty and no block is live. The ring
    has slots and the counter of the barrier does not wrap (`Fits`), and the system never
    fails and answers in whole pages; that the loops end is not part of this. -/
theorem gate_passes (b : Build) (cfg : Workload.Config) (pattern : Workload.Pattern) (fits : cfg.Fits pattern)
    {registry : Bool} {d : (Workload.loops runCheck cfg pattern).At} {c : Checks cfg.nworks} {M : World.Program}
    (reached : ((Workload.loops runCheck cfg pattern).system.beside ((gate cfg.nworks registry).atop
      (World.Program.system b (.upTo World.Program.spanBytes)))).Reaches (d,c,M)) :
    c.f = {} ∧ (∀ k p n, (p,n) ∈ (c.spot k).hand → (p,n) ∈ M.live) ∧
      ((Workload.loops runCheck cfg pattern).past d → (∀ k, c.spot k = .idle) →
        M.live = [] ∧ (c.reg.enabled = true → c.reg.live = [])) := by
  obtain ⟨Q,frugal,ended⟩ := Workload.loops_simulate runCheck cfg pattern fits
  have server := World.Program.follows_heap (World.Program.fair_upTo b (le_refl World.Program.spanBytes))
  obtain ⟨held,h,holds,⟨same,_⟩,honest⟩ := honest_over server frugal reached
  cases same
  refine ⟨honest.clean,fun k p n mem => honest.hand_live mem,fun past still => ?_⟩
  obtain ⟨live,registered⟩ := honest.idle still
  rw [ended d held holds past] at live registered
  exact ⟨Multiset.coe_eq_zero _ |>.mp live,fun on => Multiset.coe_eq_zero _ |>.mp (registered on)⟩

/-- One thread that takes a block of 16 bytes and gives it back. -/
abbrev oneBlock : Workload.Config := ⟨⟨1,1,1⟩,.fixed16,1⟩

theorem oneBlock_runs : ∃ d d', (Workload.loops runCheck oneBlock .bulkThenFree).system.Runs ⟨fun _ => {},fun _ => .no⟩
    [.takes 0 16,.took 0 lent] d ∧ (Workload.loops runCheck oneBlock .bulkThenFree).system.Runs d [.gives 0 lent,.gave 0] d' ∧
      (Workload.loops runCheck oneBlock .bulkThenFree).past d' := by
  let system := (Workload.loops runCheck oneBlock .bulkThenFree).system
  have takes : system.Runs ⟨fun _ => {},fun _ => .no⟩ [.takes 0 16] _ :=
    System.Runs.refl.shows (@Workload.WorkersStep.takes _ _ _ _ _ 0 (Workload.sizeFor .fixed16 0) _ 0 rfl rfl)
  have took : system.Runs ⟨fun _ => {},fun _ => .no⟩ [.takes 0 16,.took 0 lent] _ := takes.shows (.took rfl rfl)
  obtain ⟨d,turns,here,free⟩ : ∃ d, system.Runs ⟨fun _ => {},fun _ => .no⟩ [.takes 0 16,.took 0 lent] d ∧
      d.at_ 0 = { giving := true, local_ := [lent] } ∧ d.busy 0 = .no :=
    ⟨_,took.silent (.goes (k := (0 : Fin 1)) rfl rfl),rfl,rfl⟩
  have next : Workload.bulk runCheck oneBlock (d.at_ 0) = .gives lent { i := 1, giving := true, local_ := [lent] } := by
    rw [here]; rfl
  have start : system.Runs d [] d := .refl
  have gives : system.Runs d [.gives 0 lent] _ := start.shows (.gives free next)
  have gave : system.Runs d [.gives 0 lent,.gave 0] _ := gives.shows (.gave rfl)
  exact ⟨d,_,turns,gave.silent (.goes (k := (0 : Fin 1)) rfl rfl),Fin.forall_fin_one.mpr rfl⟩

/-- Its block is stamped, checked and freed, and nothing is left. -/
theorem gate_passes_returned : ∃ d c M,
    ((Workload.loops runCheck oneBlock .bulkThenFree).system.beside ((gate 1 true).atop
      (World.Program.system .standard (.upTo World.Program.spanBytes)))).Runs
        (⟨fun _ => {},fun _ => .no⟩,{ reg := { enabled := true } },World.Program.start fun _ => 0)
        [.takes 0 16,.took 0 lent,.gives 0 lent,.gave 0] (d,c,M) ∧ c.f = {} ∧ M.live = [] := by
  obtain ⟨M,M',_,stamped,asked,gave⟩ := lent_runs (t := 0) (by decide +kernel)
  obtain ⟨c,idle,takes⟩ := take_runs true
  obtain ⟨c',idle',gives⟩ := give_runs (idle 0) stamped
  obtain ⟨d,d',first,second,past⟩ := oneBlock_runs
  let gated := (Workload.loops runCheck oneBlock .bulkThenFree).system.beside ((gate 1 true).atop
    (World.Program.system .standard (.upTo World.Program.spanBytes)))
  have start : gated.init (⟨fun _ => {},fun _ => .no⟩,{ reg := { enabled := true } },World.Program.start fun _ => 0) :=
    ⟨rfl,rfl,⟨_,rfl⟩⟩
  have taken : gated.Runs _ [.takes 0 16,.took 0 lent] _ := first.beside (takes.atop asked)
  have given : gated.Runs _ [.gives 0 lent,.gave 0] _ := second.beside (gives.atop gave)
  obtain ⟨clean,_,ended⟩ := gate_passes .standard oneBlock .bulkThenFree trivial ⟨_,_,start,taken.trans given⟩
  exact ⟨d',c',M',taken.trans given,clean,(ended past idle').1⟩

end

end Verify
end TcAlloc
