import TcAlloc.Gates

/-!
The size-boundary check of the gate. It asks for a block on both sides of every edge of
the size classes, holds them all, and looks at the stamps when the last one has been
written. Over a heap it counts no failure, and gives back all that it has taken
(`Bounded`).
-/
namespace TcAlloc
namespace Verify
open World.Program (blocks Seen)
open Workload (erase_add)

/-! ### RunBoundaryCheck -/

/-- `edges` -/
def edges : List Nat := [1,8,128,1024,8 * 1024,64 * 1024,maxBytes]

/-- `sizes` -/
def boundarySizes : List Nat :=
  0 :: edges.flatMap (fun edge => if 1 < edge then [edge - 1,edge,edge + 1] else [edge,edge + 1]) ++ [maxBytes * 2]

/-- The tag of the block `i`. -/
def boundaryTag (i : Nat) : UInt64 := mix (0xB0D1CE5EED + .ofNat (i + 1))

/-- Where the check is. -/
inductive Position where
  /-- `void* p = Alloc(n)` for the size `i` -/
  | calls (i : Nat)
  | awaits (i : Nat)
  /-- The pointer is looked at. -/
  | tests (i p : Nat)
  /-- In `FillBlock`, from the byte `pos` on. -/
  | fills (i : Nat) (b : Block) (pos chunk : Nat)
  /-- In `CheckBlock` of the block `i`, from the byte `pos` on. -/
  | checks (i pos chunk : Nat)
  /-- `Free(live[i].p)` -/
  | frees (i : Nat)
  | awaitsFree (i : Nat)

/-- What `RunBoundaryCheck` has. -/
structure Boundary where
  f : Failures := {}
  seen : List Nat := []
  live : List Block := []
  place : Position := .calls 0

namespace Boundary

def goto (c : Boundary) (place : Position) : Boundary := { c with place := place }

/-- The tests of the pointer `p` for the size `i`, which is `n`. -/
def test (c : Boundary) (i n p : Nat) : Boundary :=
  if p = 0 then { c with f := { c.f with nullPtr := c.f.nullPtr + 1 }.note (.nullReturn n) }.goto (.calls (i + 1))
  else
    let f := if p % 8 ≠ 0 then { c.f with misaligned := c.f.misaligned + 1 }.note (.misaligned p n) else c.f
    let f := if p ∈ c.seen then { f with duplicate := f.duplicate + 1 }.note (.duplicate p n) else f
    { c with f := f, seen := if p ∈ c.seen then c.seen else p :: c.seen }.goto (.fills i ⟨p,n,boundaryTag i⟩ 0 0)

/-- `memcmp` of the chunk at the byte `pos`, and the search for the byte where it differs. The
    message says "(overlapping or short block)". -/
def compare (c : Boundary) (i : Nat) (b : Block) (pos chunk : Nat) (mem : Memory) : Boundary :=
  let v := mix (b.tag ^^^ .ofNat chunk)
  let m := if b.n - pos < 8 then b.n - pos else 8
  if differs mem (b.p + pos) v m then
    let badOff := match (List.range m).find? (fun j => mem (b.p + pos + j) != byteOf v j) with
      | some j => pos + j
      | none => pos
    { c with f := { c.f with corrupted := c.f.corrupted + 1 }.note (.corrupted b.p b.n badOff) }.goto (.checks (i + 1) 0 0)
  else c.goto (.checks i (pos + 8) (chunk + 1))

/-- A step of the check, which thread `t` makes. -/
inductive Step (t : Nat) (c : Boundary) : Option (Seen ⊕ Empty) → Boundary → Prop
  | calls {i n : Nat} (here : c.place = .calls i) (size : boundarySizes[i]? = some n) :
      Step t c (some (.inl (.asks t n))) (c.goto (.awaits i))
  | returned {i p : Nat} (here : c.place = .awaits i) : Step t c (some (.inl (.gets t p))) (c.goto (.tests i p))
  | tests {i n p : Nat} (here : c.place = .tests i p) (size : boundarySizes[i]? = some n) : Step t c none (c.test i n p)
  | fills {i pos chunk : Nat} {b : Block} (here : c.place = .fills i b pos chunk) (more : pos < b.n) :
      Step t c (some (.inl (.writes (chunkCells b pos (byteOf (mix (b.tag ^^^ .ofNat chunk)))))))
        (c.goto (.fills i b (pos + 8) (chunk + 1)))
  | filled {i pos chunk : Nat} {b : Block} (here : c.place = .fills i b pos chunk) (all : ¬ pos < b.n) :
      Step t c none { c with live := c.live ++ [b], place := .calls (i + 1) }
  | called {i : Nat} (here : c.place = .calls i) (none_ : boundarySizes[i]? = none) : Step t c none (c.goto (.checks 0 0 0))
  | checks {i pos chunk : Nat} {b : Block} {mem : Memory} (here : c.place = .checks i pos chunk) (live : c.live[i]? = some b)
      (more : pos < b.n) :
      Step t c (some (.inl (.reads (chunkCells b pos (fun j => mem (b.p + pos + j)))))) (c.compare i b pos chunk mem)
  | checked {i pos chunk : Nat} {b : Block} (here : c.place = .checks i pos chunk) (live : c.live[i]? = some b)
      (all : ¬ pos < b.n) : Step t c none (c.goto (.checks (i + 1) 0 0))
  | passed {i pos chunk : Nat} (here : c.place = .checks i pos chunk) (none_ : c.live[i]? = none) :
      Step t c none (c.goto (.frees 0))
  | frees {i : Nat} {b : Block} (here : c.place = .frees i) (live : c.live[i]? = some b) :
      Step t c (some (.inl (.gives t b.p))) (c.goto (.awaitsFree i))
  | freed {i : Nat} (here : c.place = .awaitsFree i) : Step t c (some (.inl (.done t))) (c.goto (.frees (i + 1)))

/-- The check is over. -/
def Over (c : Boundary) : Prop := ∃ i, c.place = .frees i ∧ c.live[i]? = none

end Boundary

/-- `RunBoundaryCheck`, called by thread `t`. -/
def boundary (t : Nat) : System (Seen ⊕ Empty) Boundary where
  init c := c = {}
  step c := c.Step t

/-! ### Over a heap -/

namespace Boundary

/-- The block that the check has and does not hold yet. -/
def hand (c : Boundary) : Multiset (Nat × Nat) :=
  match c.place with
  | .tests i p => {(p,boundarySizes.getD i 0)}
  | .fills _ b _ _ => {b.place}
  | _ => 0

/-- The blocks that it has not given back. -/
def rest (c : Boundary) : List Block :=
  match c.place with
  | .frees i => c.live.drop i
  | .awaitsFree i => c.live.drop (i + 1)
  | _ => c.live

/-- The pointers that it has seen. -/
def entered (c : Boundary) : List Nat :=
  match c.place with
  | .fills _ b _ _ => b.p :: c.live.map Block.p
  | _ => c.live.map Block.p

/-- The first sizes, up to where the check is. -/
def asked (c : Boundary) : List Nat :=
  match c.place with
  | .calls i | .awaits i | .tests i _ | .fills i _ _ _ => boundarySizes.take i
  | _ => boundarySizes

/-- How far a block is stamped, or looked at. -/
def Written (mem : Memory) : Position → Prop
  | .fills i b pos chunk => boundarySizes[i]? = some b.n ∧ pos = 8 * chunk ∧ Stamped mem b pos
  | .checks _ pos chunk => pos = 8 * chunk
  | _ => True

end Boundary

/-- What holds along every run of the check over a heap that has no other blocks. -/
structure Bounded (t : Nat) (c : Boundary) (h : Heap Nat Nat UInt8) : Prop where
  sound : Heap.Sound blocks h.live
  live : (h.live : Multiset (Nat × Nat)) = (c.rest.map Block.place : List (Nat × Nat)) + c.hand
  seen : ∀ p ∈ c.seen, p ∈ c.entered
  sizes : c.live.map Block.n = c.asked
  whole : ∀ b ∈ c.rest, Stamped h.contents b b.n
  part : Boundary.Written h.contents c.place
  awaits : ∀ i, c.place = .awaits i → ∃ n, boundarySizes[i]? = some n ∧ h.pending t = .asking n
  clean : c.f = {}

namespace Bounded

section
variable {t i n p pos chunk : Nat} {b b' : Block} {c c' : Boundary} {h h' : Heap Nat Nat UInt8}

theorem rest_live (bounded : Bounded t c h) (mem : b ∈ c.rest) : (b.p,b.n) ∈ h.live := by
  rw [← Multiset.mem_coe,bounded.live,Multiset.mem_add]
  exact .inl (Multiset.mem_coe.mpr (List.mem_map_of_mem mem))

theorem hand_live (bounded : Bounded t c h) (mem : (p,n) ∈ c.hand) : (p,n) ∈ h.live := by
  rw [← Multiset.mem_coe,bounded.live,Multiset.mem_add]
  exact .inr mem

theorem hand_good (bounded : Bounded t c h) (mem : (p,n) ∈ c.hand) : p ≠ 0 ∧ 8 ∣ p :=
  bounded.sound.good (p,n) (bounded.hand_live mem)

/-- The block in hand is none of the others. -/
theorem rest_hand (bounded : Bounded t c h) (mem : b ∈ c.rest) (mem' : (p,n) ∈ c.hand) : b.p ≠ p := by
  have nodup := bounded.sound.keys
  rw [← Multiset.coe_nodup,← Multiset.map_coe,bounded.live,Multiset.map_add,Multiset.nodup_add] at nodup
  have held : b.place ∈ ((c.rest.map Block.place : List (Nat × Nat)) : Multiset (Nat × Nat)) :=
    Multiset.mem_coe.mpr (List.mem_map_of_mem mem)
  have first : b.p ∈ Multiset.map Prod.fst ((c.rest.map Block.place : List (Nat × Nat)) : Multiset (Nat × Nat)) :=
    Multiset.mem_map_of_mem Prod.fst held
  have second : p ∈ c.hand.map Prod.fst := Multiset.mem_map_of_mem Prod.fst mem'
  exact Multiset.disjoint_iff_ne.mp nodup.2.2 _ first _ second

/-- The contents of the blocks that the check holds have not changed. -/
theorem whole_congr (bounded : Bounded t c h) {mem : Memory}
    (same : ∀ b ∈ c.rest, ∀ x, b.p ≤ x → x < b.p + b.n → mem x = h.contents x) : ∀ b ∈ c.rest, Stamped mem b b.n :=
  fun b held => (bounded.whole b held).congr (same b held)

/-- The check goes on with the same blocks. -/
theorem goto {place : Position} (bounded : Bounded t c h) (rest : (c.goto place).rest = c.rest)
    (hand : (c.goto place).hand = c.hand) (entered : (c.goto place).entered = c.entered)
    (asked : (c.goto place).asked = c.asked) (written : Boundary.Written h.contents place)
    (awaits : ∀ i, place ≠ .awaits i) : Bounded t (c.goto place) h where
  sound := bounded.sound
  live := by rw [rest,hand]; exact bounded.live
  seen := by rw [entered]; exact bounded.seen
  sizes := by rw [asked]; exact bounded.sizes
  whole := by rw [rest]; exact bounded.whole
  part := written
  awaits := fun i same => absurd same (awaits i)
  clean := bounded.clean

/-- A step of the check alone. -/
theorem client (bounded : Bounded t c h) (step : c.Step t none c') : Bounded t c' h := by
  obtain ⟨sound,live,seen,sizes,whole,part,awaits,clean⟩ := id bounded
  cases step with
  | @tests i n p here size =>
    have mine : (p,n) ∈ c.hand := by
      simp only [Boundary.hand,here,List.getD_eq_getElem?_getD,size,Option.getD_some]
      exact Multiset.mem_singleton_self _
    have good := bounded.hand_good mine
    have rest : c.rest = c.live := by simp only [Boundary.rest,here]
    have entered : c.entered = c.live.map Block.p := by simp only [Boundary.entered,here]
    have fresh : p ∉ c.seen := by
      intro old
      have among := seen p old
      rw [entered] at among
      obtain ⟨b,held,same⟩ := List.mem_map.mp among
      exact bounded.rest_hand (rest ▸ held) mine same
    have aligned : ¬ p % 8 ≠ 0 := not_not.mpr (Nat.mod_eq_zero_of_dvd good.2)
    simp only [Boundary.test,if_neg good.1,if_neg aligned,if_neg fresh]
    have nothing : Stamped h.contents ⟨p,n,boundaryTag i⟩ 0 := fun j none_ => absurd none_ (Nat.not_lt_zero j)
    refine ⟨sound,?_,?_,?_,?_,⟨size,rfl,nothing⟩,fun i same => (by cases same),clean⟩
    · rw [live,rest]
      simp only [Boundary.hand,here,List.getD_eq_getElem?_getD,size,Option.getD_some]
      rfl
    · intro q mem
      rcases List.mem_cons.mp mem with rfl | old
      · exact List.mem_cons_self
      · exact List.mem_cons_of_mem _ (entered ▸ seen q old)
    · simp only [Boundary.asked,here] at sizes
      exact sizes
    · exact fun b held => whole b (rest.symm ▸ held)
  | @filled i pos chunk b here all =>
    rw [here] at part
    have rest : c.rest = c.live := by simp only [Boundary.rest,here]
    refine ⟨sound,?_,?_,?_,?_,trivial,fun i same => (by cases same),clean⟩
    · rw [live,rest]
      simp only [Boundary.hand,Boundary.rest,here,List.map_append,List.map_singleton]
      rw [← Multiset.coe_add,add_zero]
      rfl
    · intro q mem
      have among := seen q mem
      simp only [Boundary.entered,here] at among
      simp only [Boundary.entered,List.map_append,List.mem_append,List.map_singleton,List.mem_singleton]
      exact (List.mem_cons.mp among).symm
    · simp only [Boundary.asked,here] at sizes
      simp only [Boundary.asked,List.map_append,List.map_singleton,sizes]
      rw [List.take_add_one,part.1,Option.toList_some]
    · intro b' held
      rcases List.mem_append.mp held with old | new
      · exact whole b' (rest.symm ▸ old)
      · cases List.mem_singleton.mp new
        exact fun j _ inside => part.2.2 j (by omega) inside
  | called here none_ =>
    refine bounded.goto ?_ ?_ ?_ ?_ rfl (fun i same => by cases same)
    case refine_4 =>
      simp only [Boundary.asked,Boundary.goto,here]
      exact (List.take_of_length_le (List.getElem?_eq_none_iff.mp none_)).symm
    all_goals simp only [Boundary.rest,Boundary.hand,Boundary.entered,Boundary.goto,here]
  | checked here held all =>
    refine bounded.goto ?_ ?_ ?_ ?_ rfl (fun i same => by cases same) <;>
      simp only [Boundary.rest,Boundary.hand,Boundary.entered,Boundary.asked,Boundary.goto,here]
  | passed here none_ =>
    refine bounded.goto ?_ ?_ ?_ ?_ trivial (fun i same => by cases same) <;>
      simp only [Boundary.rest,Boundary.hand,Boundary.entered,Boundary.asked,Boundary.goto,here,List.drop_zero]

/-- The allocator at work on bytes of its own. -/
theorem server (bounded : Bounded t c h) (step : Heap.Step blocks h none h') : Bounded t c h' := by
  cases step with
  | @stirs contents kept =>
    have same : ∀ p n, (p,n) ∈ h.live → ∀ x, p ≤ x → x < p + n → contents x = h.contents x :=
      fun p n mem x low high => kept x ⟨(p,n),mem,low,high⟩
    refine ⟨bounded.sound,bounded.live,bounded.seen,bounded.sizes,?_,?_,bounded.awaits,bounded.clean⟩
    · exact bounded.whole_congr (fun b held => same b.p b.n (bounded.rest_live held))
    · have part := bounded.part
      cases here : c.place with
      | fills i b pos chunk =>
        rw [here] at part
        have mine : b.place ∈ c.hand := by simp only [Boundary.hand,here]; exact Multiset.mem_singleton_self _
        exact ⟨part.1,part.2.1,part.2.2.congr (same b.p b.n (bounded.hand_live mine))⟩
      | checks i pos chunk => rw [here] at part; exact part
      | _ => trivial

/-- What is written into one block leaves another one as it was. -/
theorem apart (bounded : Bounded t c h) (mine : (b.p,b.n) ∈ h.live) (live : (p,n) ∈ h.live) (other : p ≠ b.p)
    (value : Nat → UInt8) {x : Nat} (low : p ≤ x) (high : x < p + n) :
    Heap.overlay (chunkCells b pos value) h.contents x = h.contents x := by
  cases cell : chunkCells b pos value x with
  | none => rw [Heap.overlay,cell,Option.getD_none]
  | some v =>
    have some_ : chunkCells b pos value x ≠ none := by rw [cell]; exact Option.some_ne_none v
    exact absurd (bounded.sound.owner live mine ⟨low,high⟩ (chunkCells_inside some_)) other

/-- A step of the check and the heap. -/
theorem access {a : Seen} (bounded : Bounded t c h) (first : c.Step t (some (.inl a)) c')
    (second : Heap.Step blocks h (some a) h') : Bounded t c' h' := by
  have next := bounded.sound.step second
  obtain ⟨sound,live,seen,sizes,whole,part,awaits,clean⟩ := id bounded
  cases first with
  | @calls i n here size =>
    cases second
    have same : c.rest = c.live ∧ c.hand = 0 ∧ c.entered = c.live.map Block.p ∧ c.asked = boundarySizes.take i := by
      simp only [Boundary.rest,Boundary.hand,Boundary.entered,Boundary.asked,here,and_self]
    obtain ⟨rest,hand,entered,asked⟩ := same
    rw [rest,hand] at live
    rw [rest] at whole
    rw [entered] at seen
    rw [asked] at sizes
    refine ⟨sound,live,seen,sizes,whole,trivial,fun i' same => ?_,clean⟩
    cases same
    exact ⟨n,size,Function.update_self _ _ _⟩
  | @returned i p here =>
    obtain ⟨n,size,asks⟩ := awaits i here
    have same : c.rest = c.live ∧ c.hand = 0 ∧ c.entered = c.live.map Block.p ∧ c.asked = boundarySizes.take i := by
      simp only [Boundary.rest,Boundary.hand,Boundary.entered,Boundary.asked,here,and_self]
    obtain ⟨rest,hand,entered,asked⟩ := same
    rw [rest,hand] at live
    rw [rest] at whole
    rw [entered] at seen
    rw [asked] at sizes
    cases second with
    | @gets _ size' _ asked fresh =>
      rw [asks] at asked
      cases asked
      refine ⟨next,?_,seen,sizes,whole,trivial,fun i same => (by cases same),clean⟩
      simp only [Boundary.rest,Boundary.hand,Boundary.goto,List.getD_eq_getElem?_getD,size,Option.getD_some]
      rw [← Multiset.cons_coe,live,← Multiset.singleton_add,add_zero,add_comm]
  | @fills i pos chunk b here more =>
    rw [here] at part
    obtain ⟨size,aligned,stamped⟩ := part
    have mine : b.place ∈ c.hand := by simp only [Boundary.hand,here]; exact Multiset.mem_singleton_self _
    have same : c.rest = c.live ∧ c.hand = {b.place} ∧ c.entered = b.p :: c.live.map Block.p ∧
        c.asked = boundarySizes.take i := by
      simp only [Boundary.rest,Boundary.hand,Boundary.entered,Boundary.asked,here,and_self]
    obtain ⟨rest,hand,entered,asked⟩ := same
    cases second with
    | writes inside =>
      refine ⟨sound,?_,?_,sizes.trans asked,fun b' held => ?_,⟨size,by omega,stamped.fill aligned⟩,
        fun i same => (by cases same),clean⟩
      · rw [rest,hand] at live
        exact live
      · rw [entered] at seen
        exact seen
      · have held : b' ∈ c.rest := rest.symm ▸ held
        exact (whole b' held).congr (fun x => bounded.apart (bounded.hand_live mine) (bounded.rest_live held)
          (bounded.rest_hand held mine) _)
  | @checks i pos chunk b mem here held more =>
    rw [here] at part
    have rest : c.rest = c.live := by simp only [Boundary.rest,here]
    cases second with
    | reads inside sees =>
      have stamped := whole b (rest.symm ▸ List.mem_of_getElem? held)
      have equal := stamped.same part sees
      simp only [Boundary.compare,equal,Bool.false_eq_true,if_false]
      have part : pos = 8 * chunk := part
      refine bounded.goto ?_ ?_ ?_ ?_ (show pos + 8 = 8 * (chunk + 1) by omega) (fun i same => by cases same) <;>
        simp only [Boundary.rest,Boundary.hand,Boundary.entered,Boundary.asked,Boundary.goto,here]
  | @frees i b here held =>
    obtain ⟨inside,same⟩ := List.getElem?_eq_some_iff.mp held
    have rest : c.rest = b :: c.live.drop (i + 1) := by
      simp only [Boundary.rest,here]
      rw [List.drop_eq_getElem_cons inside,same]
    have hand : c.hand = 0 := by simp only [Boundary.hand,here]
    have mine := bounded.rest_live (b := b) (by rw [rest]; exact List.mem_cons_self)
    cases second with
    | @gives _ size _ idle among =>
      have size_eq := sound.unique among mine
      subst size_eq
      refine ⟨next,?_,?_,?_,fun b' left => ?_,trivial,fun i same => (by cases same),clean⟩
      · have erased := erase_add among
        rw [live,rest,hand,List.map_cons,← Multiset.cons_coe,← Multiset.singleton_add,add_zero,add_comm] at erased
        have left := add_left_cancel erased
        rw [left]
        exact (add_zero _).symm
      · simp only [Boundary.entered,here] at seen
        exact seen
      · simp only [Boundary.asked,here] at sizes
        exact sizes
      · exact whole b' (by rw [rest]; exact List.mem_cons_of_mem _ left)
  | freed here =>
    cases second
    refine ⟨sound,?_,?_,?_,?_,trivial,fun i same => (by cases same),clean⟩
    · simp only [Boundary.rest,Boundary.hand,here] at live
      exact live
    · simp only [Boundary.entered,here] at seen
      exact seen
    · simp only [Boundary.asked,here] at sizes
      exact sizes
    · simp only [Boundary.rest,here] at whole
      exact whole

end
end Bounded

theorem bounded_start {t : Nat} {h : Heap Nat Nat UInt8} (empty : h.live = []) : Bounded t {} h where
  sound := by
    rw [empty]
    exact ⟨List.Pairwise.nil,fun _ none_ => absurd none_ List.not_mem_nil⟩
  live := by
    rw [empty]
    rfl
  seen p none_ := absurd none_ List.not_mem_nil
  sizes := rfl
  whole b none_ := absurd none_ List.not_mem_nil
  part := trivial
  awaits i same := by cases same
  clean := rfl

theorem bounded_reached {t : Nat} {c : Boundary} {h : Heap Nat Nat UInt8}
    (reached : ((boundary t).atop (heap Nat UInt8 blocks)).Reaches (c,h)) : Bounded t c h := by
  refine reached.keeps (P := fun s => Bounded t s.1 s.2) ?_ ?_
  · rintro ⟨c,h⟩ ⟨start,empty,_⟩
    cases (show c = {} from start)
    exact bounded_start empty
  · rintro ⟨c,h⟩ a ⟨c',h'⟩ bounded step
    cases step with
    | client step => exact bounded.client step
    | server step => exact bounded.server step
    | both first second => exact bounded.access first second
    | @shows _ _ _ m step => exact m.elim

theorem bounded_over {σ : Type} {S : System Seen σ} {R : σ → Heap Nat Nat UInt8 → Prop}
    (server : System.Simulates S (heap Nat UInt8 blocks) R) {t : Nat} {c : Boundary} {s : σ}
    (reached : ((boundary t).atop S).Reaches (c,s)) : ∃ h, R s h ∧ Bounded t c h := by
  obtain ⟨⟨c',h⟩,reached',same,serves⟩ := (server.atop (boundary t)).reaches reached
  cases (show c = c' from same)
  exact ⟨h,serves,bounded_reached reached'⟩

/-- When the check is over it has given back what it has taken. -/
theorem Bounded.emptied {t : Nat} {c : Boundary} {h : Heap Nat Nat UInt8} (bounded : Bounded t c h) (past : c.Over) :
    h.live = [] := by
  obtain ⟨i,here,none_⟩ := past
  have live := bounded.live
  simp only [Boundary.rest,Boundary.hand,here] at live
  rw [List.drop_eq_nil_of_le (List.getElem?_eq_none_iff.mp none_)] at live
  exact Multiset.coe_eq_zero _ |>.mp live

/-! ### The check runs to its end -/

/-- The system goes along with all that the check does, in states that `K` has them in. -/
structure Obliging {σ : Type} (S : System Seen σ) (t : Nat) (K : Boundary → σ → Prop) : Prop where
  alone : ∀ c c' s, K c s → c.Step t none c' → K c' s
  hands : ∀ c s i n, K c s → c.place = .calls i → boundarySizes[i]? = some n → ∃ s₁ s₂ p s₃,
    S.step s (some (.asks t n)) s₁ ∧ S.Silently s₁ s₂ ∧ S.step s₂ (some (.gets t p)) s₃ ∧ K (c.goto (.tests i p)) s₃
  writes : ∀ c s i b pos chunk, K c s → c.place = .fills i b pos chunk → pos < b.n → ∃ s',
    S.step s (some (.writes (chunkCells b pos (byteOf (mix (b.tag ^^^ .ofNat chunk)))))) s' ∧
      K (c.goto (.fills i b (pos + 8) (chunk + 1))) s'
  reads : ∀ c s i b pos chunk, K c s → c.place = .checks i pos chunk → c.live[i]? = some b → pos < b.n → ∃ mem,
    S.step s (some (.reads (chunkCells b pos (fun j => mem (b.p + pos + j))))) s ∧ K (c.compare i b pos chunk mem) s
  takes : ∀ c s i b, K c s → c.place = .frees i → c.live[i]? = some b → ∃ s₁ s₂ s₃,
    S.step s (some (.gives t b.p)) s₁ ∧ S.Silently s₁ s₂ ∧ S.step s₂ (some (.done t)) s₃ ∧ K (c.goto (.frees (i + 1))) s₃

theorem Boundary.compare_place (c : Boundary) (i : Nat) (b : Block) (pos chunk : Nat) (mem : Memory) :
    (c.compare i b pos chunk mem).live = c.live ∧ ((c.compare i b pos chunk mem).place = .checks (i + 1) 0 0 ∨
      (c.compare i b pos chunk mem).place = .checks i (pos + 8) (chunk + 1)) := by
  cases found : differs mem (b.p + pos) (mix (b.tag ^^^ .ofNat chunk)) (if b.n - pos < 8 then b.n - pos else 8) with
  | false =>
    simp only [Boundary.compare,found,Bool.false_eq_true,if_false]
    exact ⟨rfl,.inr rfl⟩
  | true =>
    simp only [Boundary.compare,found,if_true]
    exact ⟨rfl,.inl rfl⟩

namespace Obliging

section
variable {σ : Type} {S : System Seen σ} {t i : Nat} {K : Boundary → σ → Prop} {b : Block} {c : Boundary} {s : σ}

/-- `FillBlock` runs to its end. -/
theorem fill_runs (obliging : Obliging S t K) (related : K c s) (here : c.place = .fills i b 0 0) :
    ∃ s', ((boundary t).atop S).Silently (c,s) ({ c with live := c.live ++ [b], place := .calls (i + 1) },s') ∧
      K { c with live := c.live ++ [b], place := .calls (i + 1) } s' := by
  let P (k : Nat) (x : Boundary × σ) : Prop := x.1 = c.goto (.fills i b (8 * k) k) ∧ K x.1 x.2
  have start : P 0 (c,s) := ⟨by rw [Boundary.goto,Nat.mul_zero,← here],related⟩
  obtain ⟨⟨_,s'⟩,run,rfl,related⟩ := System.silently_loop (S := (boundary t).atop S) (P := P) (n := (b.n + 7) / 8)
    (fun k => by
      rintro ⟨_,s⟩ less ⟨rfl,related⟩
      have more : 8 * k < b.n := by omega
      obtain ⟨s',wrote,related⟩ := obliging.writes _ s i b (8 * k) k related rfl more
      exact ⟨(_,_),.single (.both (.fills rfl more) wrote),rfl,related⟩) start
  have last : (c.goto (.fills i b (8 * (0 + (b.n + 7) / 8)) (0 + (b.n + 7) / 8))).Step t none
      { c with live := c.live ++ [b], place := .calls (i + 1) } := .filled rfl (by omega)
  exact ⟨s',run.tail (.client last),obliging.alone _ _ _ related last⟩

/-- `Alloc` returns, and the block is stamped if it is not null. -/
theorem call_runs {n : Nat} (obliging : Obliging S t K) (related : K c s) (here : c.place = .calls i)
    (size : boundarySizes[i]? = some n) :
    ∃ c' s', ((boundary t).atop S).Silently (c,s) (c',s') ∧ c'.place = .calls (i + 1) ∧ K c' s' := by
  obtain ⟨s₁,s₂,p,s₃,asks,works,gets,related⟩ := obliging.hands c s i n related here size
  have called : ((boundary t).atop S).Silently (c,s) (c.goto (.awaits i),s₁) := .single (.both (.calls here size) asks)
  have worked := called.trans (System.over_silently (boundary t) (c.goto (.awaits i)) works)
  have returned : ((boundary t).atop S).Silently (c,s) (c.goto (.tests i p),s₃) := worked.tail (.both (.returned rfl) gets)
  have test : (c.goto (.tests i p)).Step t none ((c.goto (.tests i p)).test i n p) := .tests rfl size
  have tested := returned.tail (.client test)
  have related := obliging.alone _ _ _ related test
  by_cases null : p = 0
  · refine ⟨_,_,tested,?_,related⟩
    rw [Boundary.test,if_pos null]
    rfl
  · have here : ((c.goto (.tests i p)).test i n p).place = .fills i ⟨p,n,boundaryTag i⟩ 0 0 := by
      rw [Boundary.test,if_neg null]
      rfl
    obtain ⟨s',filled,related⟩ := obliging.fill_runs related here
    exact ⟨_,s',tested.trans filled,rfl,related⟩

/-- `CheckBlock` runs to its end. -/
theorem compare_runs (obliging : Obliging S t K) (related : K c s) (here : c.place = .checks i 0 0)
    (live : c.live[i]? = some b) : ∃ c', ((boundary t).atop S).Silently (c,s) (c',s) ∧
      c'.place = .checks (i + 1) 0 0 ∧ c'.live = c.live ∧ K c' s := by
  let P (k : Nat) (x : Boundary × σ) : Prop :=
    s = x.2 ∧ x.1.live = c.live ∧ K x.1 x.2 ∧ (x.1.place = .checks i (8 * k) k ∨ x.1.place = .checks (i + 1) 0 0)
  have start : P 0 (c,s) := ⟨rfl,rfl,related,.inl here⟩
  obtain ⟨⟨c',_⟩,run,rfl,same,related,place⟩ := System.silently_loop (S := (boundary t).atop S) (P := P) (n := (b.n + 7) / 8)
    (fun k => by
      rintro ⟨c',_⟩ less ⟨rfl,same,related,place | place⟩
      · have more : 8 * k < b.n := by omega
        obtain ⟨mem,looked,related⟩ := obliging.reads c' s i b (8 * k) k related place (same ▸ live) more
        obtain ⟨kept,next⟩ := c'.compare_place i b (8 * k) k mem
        exact ⟨(_,s),.single (.both (.checks place (same ▸ live) more) looked),rfl,kept.trans same,related,next.symm⟩
      · exact ⟨_,.refl,rfl,same,related,.inr place⟩) start
  rcases place with place | place
  · have last : c'.Step t none (c'.goto (.checks (i + 1) 0 0)) := .checked place (same ▸ live) (by omega)
    exact ⟨_,run.tail (.client last),rfl,same,obliging.alone _ _ _ related last⟩
  · exact ⟨c',run,place,same,related⟩

/-- A block of each size is asked for. -/
theorem calls_run (obliging : Obliging S t K) (related : K {} s) :
    ∃ c s', ((boundary t).atop S).Silently ({},s) (c,s') ∧ c.place = .checks 0 0 0 ∧ K c s' := by
  let P (i : Nat) (x : Boundary × σ) : Prop := x.1.place = .calls i ∧ K x.1 x.2
  obtain ⟨⟨c,s'⟩,calls,here,related⟩ := System.silently_loop (S := (boundary t).atop S) (P := P) (i := 0)
    (n := boundarySizes.length) (s := (({} : Boundary),s)) (fun i => by
      rintro ⟨c,s⟩ less ⟨here,related⟩
      have less : i < boundarySizes.length := by omega
      obtain ⟨c',s',run,next,related⟩ := obliging.call_runs related here (List.getElem?_eq_getElem less)
      exact ⟨(c',s'),run,next,related⟩) ⟨rfl,related⟩
  have last : c.Step t none (c.goto (.checks 0 0 0)) := .called here (List.getElem?_eq_none (Nat.zero_add _).ge)
  exact ⟨_,s',calls.tail (.client last),rfl,obliging.alone _ _ _ related last⟩

/-- The blocks are compared. -/
theorem compares_run (obliging : Obliging S t K) (related : K c s) (here : c.place = .checks 0 0 0) :
    ∃ c', ((boundary t).atop S).Silently (c,s) (c',s) ∧ c'.place = .frees 0 ∧ K c' s := by
  let P (i : Nat) (x : Boundary × σ) : Prop := s = x.2 ∧ x.1.place = .checks i 0 0 ∧ x.1.live = c.live ∧ K x.1 x.2
  obtain ⟨⟨c',_⟩,checks,rfl,here,live,related⟩ := System.silently_loop (S := (boundary t).atop S) (P := P) (i := 0)
    (n := c.live.length) (s := (c,s)) (fun i => by
      rintro ⟨c',_⟩ less ⟨rfl,here,live,related⟩
      have some_ : c'.live[i]? = some (c.live.get ⟨i,by omega⟩) := by
        rw [live]
        exact List.getElem?_eq_getElem (by omega)
      obtain ⟨c'',run,next,kept,related⟩ := obliging.compare_runs related here some_
      exact ⟨(c'',s),run,rfl,next,kept.trans live,related⟩) ⟨rfl,here,rfl,related⟩
  have last : c'.Step t none (c'.goto (.frees 0)) :=
    .passed here (by rw [live]; exact List.getElem?_eq_none (Nat.zero_add _).ge)
  exact ⟨_,checks.tail (.client last),rfl,obliging.alone _ _ _ related last⟩

/-- The blocks are freed. -/
theorem frees_run (obliging : Obliging S t K) (related : K c s) (here : c.place = .frees 0) :
    ∃ c' s', ((boundary t).atop S).Silently (c,s) (c',s') ∧ c'.Over ∧ K c' s' := by
  let P (i : Nat) (x : Boundary × σ) : Prop := x.1.place = .frees i ∧ x.1.live = c.live ∧ K x.1 x.2
  obtain ⟨⟨c',s'⟩,frees,here,live,related⟩ := System.silently_loop (S := (boundary t).atop S) (P := P) (i := 0)
    (n := c.live.length) (s := (c,s)) (fun i => by
      rintro ⟨c',s⟩ less ⟨here,live,related⟩
      have some_ : c'.live[i]? = some (c.live.get ⟨i,by omega⟩) := by
        rw [live]
        exact List.getElem?_eq_getElem (by omega)
      obtain ⟨s₁,s₂,s₃,gives,works,done,related⟩ := obliging.takes c' s i _ related here some_
      have freeing : ((boundary t).atop S).Silently (c',s) (c'.goto (.awaitsFree i),s₁) :=
        .single (.both (.frees here some_) gives)
      have worked := freeing.trans (System.over_silently (boundary t) (c'.goto (.awaitsFree i)) works)
      exact ⟨_,worked.tail (.both (.freed rfl) done),rfl,live,related⟩) ⟨here,rfl,related⟩
  refine ⟨c',s',frees,⟨_,here,?_⟩,related⟩
  rw [live]
  exact List.getElem?_eq_none (Nat.zero_add _).ge

/-- The check runs to its end, whatever it finds. -/
theorem ends (obliging : Obliging S t K) (related : K {} s) :
    ∃ c s', ((boundary t).atop S).Silently ({},s) (c,s') ∧ c.Over ∧ K c s' := by
  obtain ⟨c₁,s₁,calls,here,related⟩ := obliging.calls_run related
  obtain ⟨c₂,compares,here,related⟩ := obliging.compares_run related here
  obtain ⟨c,s',frees,past,related⟩ := obliging.frees_run related here
  exact ⟨c,s',(calls.trans compares).trans frees,past,related⟩

end
end Obliging

/-- There is always a place for one more block. -/
theorem exists_fresh (live : List (Nat × Nat)) (size : Nat) : ∃ p, Heap.Fresh blocks live p size := by
  have below : ∀ b ∈ live, b.1 + b.2 ≤ (live.map (fun b => b.1 + b.2)).sum := fun b mem =>
    List.le_sum_of_mem (List.mem_map_of_mem mem)
  refine ⟨8 * ((live.map (fun b => b.1 + b.2)).sum + 1),⟨by omega,Nat.dvd_mul_right 8 _⟩,fun b mem => ⟨?_,?_⟩⟩
  · have := below b mem
    dsimp only
    omega
  · rintro x ⟨_,high⟩ ⟨low,_⟩
    have := below b mem
    dsimp only at low
    omega

/-- A heap that has no other blocks goes along with the check. -/
theorem heap_obliges (t : Nat) : Obliging (heap Nat UInt8 blocks) t (fun c h => Bounded t c h ∧ h.pending t = .idle) where
  alone := fun c c' h ⟨bounded,idle⟩ step => ⟨bounded.client step,idle⟩
  hands := by
    rintro c h i n ⟨bounded,idle⟩ here size
    obtain ⟨p,fresh⟩ := exists_fresh h.live n
    have asks : Heap.Step blocks h (some (.asks t n)) (h.wait t (.asking n)) := .asks idle
    have asked := bounded.access (.calls here size) asks
    have gets : Heap.Step blocks (h.wait t (.asking n)) (some (.gets t p)) _ := .gets (Function.update_self ..) fresh
    exact ⟨_,_,p,_,asks,.refl,gets,asked.access (.returned rfl) gets,Function.update_self ..⟩
  writes := by
    rintro c h i b pos chunk ⟨bounded,idle⟩ here more
    have mine : b.place ∈ c.hand := by simp only [Boundary.hand,here]; exact Multiset.mem_singleton_self _
    have wrote : Heap.Step blocks h (some (.writes (chunkCells b pos (byteOf (mix (b.tag ^^^ .ofNat chunk)))))) _ :=
      .writes (fun x some_ => ⟨b.place,bounded.hand_live mine,chunkCells_inside some_⟩)
    exact ⟨_,wrote,bounded.access (.fills here more) wrote,idle⟩
  reads := by
    rintro c h i b pos chunk ⟨bounded,idle⟩ here held more
    have mine : b ∈ c.rest := by simp only [Boundary.rest,here]; exact List.mem_of_getElem? held
    have looked : Heap.Step blocks h (some (.reads (chunkCells b pos (fun j => h.contents (b.p + pos + j))))) h :=
      .reads (fun x some_ => ⟨b.place,bounded.rest_live mine,chunkCells_inside some_⟩) (fun x v => chunkCells_seen)
    exact ⟨h.contents,looked,bounded.access (.checks here held more) looked,idle⟩
  takes := by
    rintro c h i b ⟨bounded,idle⟩ here held
    have mine : b ∈ c.rest := by
      obtain ⟨inside,same⟩ := List.getElem?_eq_some_iff.mp held
      simp only [Boundary.rest,here]
      rw [List.drop_eq_getElem_cons inside,same]
      exact List.mem_cons_self
    have gives : Heap.Step blocks h (some (.gives t b.p)) _ := .gives idle (bounded.rest_live mine)
    have gave := bounded.access (.frees here held) gives
    have done : Heap.Step blocks { h.wait t .giving with live := h.live.erase (b.p,b.n) } (some (.done t)) _ :=
      .done (Function.update_self ..)
    exact ⟨_,_,_,gives,.refl,done,gave.access (.freed rfl) done,Function.update_self ..⟩

/-! ### What the check finds -/

/-- Over an allocator that shows only what a heap shows the boundary check counts no
    failure and notes no message. What it looks at and writes are live blocks. It stamps
    one block of each size before it compares any, and when it is over no block is live. -/
theorem boundary_clean {σ : Type} {S : System Seen σ} {R : σ → Heap Nat Nat UInt8 → Prop}
    (server : System.Simulates S (heap Nat UInt8 blocks) R) {t : Nat} {c : Boundary} {s : σ}
    (reached : ((boundary t).atop S).Reaches (c,s)) :
    c.f = {} ∧ (∀ i pos chunk, c.place = .checks i pos chunk → c.live.map Block.n = boundarySizes) ∧
      ∃ h, R s h ∧ (∀ p n, (p,n) ∈ c.hand → (p,n) ∈ h.live) ∧
        (∀ b ∈ c.rest, (b.p,b.n) ∈ h.live ∧ Stamped h.contents b b.n) ∧ (c.Over → h.live = []) := by
  obtain ⟨h,serves,bounded⟩ := bounded_over server reached
  refine ⟨bounded.clean,fun i pos chunk here => ?_,h,serves,fun p n => bounded.hand_live,
    fun b held => ⟨bounded.rest_live held,bounded.whole b held⟩,bounded.emptied⟩
  rw [bounded.sizes,Boundary.asked,here]

/-- The whole check over a heap: every block is stamped, compared and freed. -/
theorem boundary_clean_over : ∃ c h, ((boundary 0).atop (heap Nat UInt8 blocks)).Reaches (c,h) ∧ c.Over ∧
    c.live.length = 22 ∧ c.f = {} ∧ h.live = [] := by
  let h₀ : Heap Nat Nat UInt8 := ⟨[],fun _ => 0,fun _ => .idle⟩
  obtain ⟨c,h,run,past,bounded,_⟩ := (heap_obliges 0).ends ⟨bounded_start (h := h₀) rfl,rfl⟩
  have start : ((boundary 0).atop (heap Nat UInt8 blocks)).Reaches (({} : Boundary),h₀) := .start ⟨rfl,rfl,fun _ => rfl⟩
  obtain ⟨clean,_,h',same,_,_,emptied⟩ := boundary_clean (.refl _) (start.silently run)
  subst same
  have sizes := congrArg List.length bounded.sizes
  obtain ⟨i,here,_⟩ := id past
  rw [List.length_map,Boundary.asked,here] at sizes
  exact ⟨c,h,start.silently run,past,sizes,clean,emptied past⟩

end Verify
end TcAlloc
