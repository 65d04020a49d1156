import TcAlloc.Shelves

/-!
The correctness gate. A block is stamped when it is allocated, with bytes that
its tag determines, and the stamp is looked at again before the block is freed. The
stamp is written and checked in chunks of eight bytes, the last one in part; both
loops are those of one sequence of bytes (`stamp`). The words that are written are
different for different tags, as `mix` is injective, and so are the tags.
-/
namespace TcAlloc
namespace Verify

/-! ### Mix -/

/-- `Mix`. -/
def mix (x : UInt64) : UInt64 :=
  let x := x ^^^ x >>> 33
  let x := x * 0xff51afd7ed558ccd
  let x := x ^^^ x >>> 33
  let x := x * 0xc4ceb9fe1a85ec53
  x ^^^ x >>> 33

/-- A shift by more than half a word is undone by the same one. -/
theorem xorShift_self (x : UInt64) : (x ^^^ x >>> 33) ^^^ (x ^^^ x >>> 33) >>> 33 = x := by
  apply UInt64.toBitVec_inj.mp
  ext i inside
  have gone : 64 ≤ 33 + (33 + i) := by omega
  simp [BitVec.getLsbD_of_ge _ _ gone]

theorem xorShift_injective : Function.Injective (fun x : UInt64 => x ^^^ x >>> 33) := fun x y same => by
  dsimp only at same
  rw [← xorShift_self x,← xorShift_self y,same]

/-- A multiplication is injective if the factor has an inverse. -/
theorem mul_injective {factor inverse : UInt64} (unit : factor * inverse = 1) : Function.Injective
    (fun x : UInt64 => x * factor) := fun x y same => by
  have product := congrArg (· * inverse) same
  simpa only [UInt64.mul_assoc,unit,UInt64.mul_one] using product

theorem mix_injective : Function.Injective mix := by
  have first := mul_injective (show (0xff51afd7ed558ccd : UInt64) * 0x4f74430c22a54005 = 1 by decide)
  have second := mul_injective (show (0xc4ceb9fe1a85ec53 : UInt64) * 0x9cb4b2f8129337db = 1 by decide)
  exact xorShift_injective.comp (second.comp (xorShift_injective.comp (first.comp xorShift_injective)))

/-! ### FillBlock and CheckBlock -/

/-- A byte of a word, the least significant one first. -/
def byteOf (v : UInt64) (j : Nat) : UInt8 := UInt8.ofNat (v.toNat / 256 ^ j)

/-- `memcpy` of the first `len` bytes of a word. -/
def copyIn (mem : Memory) (a : Nat) (v : UInt64) (len : Nat) : Memory := fun x => if a ≤ x ∧
    x < a + len then byteOf v (x - a) else mem x

/-- Whether `memcmp` with the first `len` bytes of a word is not 0. -/
def differs (mem : Memory) (a : Nat) (v : UInt64) (len : Nat) : Bool := (List.range len).any
    (fun j => mem (a + j) != byteOf v j)

/-- The loop of `FillBlock` from the byte `i` on. A block is shorter than the address
    space, so `i` does not wrap. -/
def fillFrom (p n : Nat) (tag : UInt64) (i chunk : Nat) (mem : Memory) : Memory :=
  if i < n then
    let v := mix (tag ^^^ .ofNat chunk)
    let m := if n - i < 8 then n - i else 8
    fillFrom p n tag (i + 8) (chunk + 1) (copyIn mem (p + i) v m)
  else mem
termination_by n - i
decreasing_by omega

/-- `FillBlock`. -/
def fillBlock (p n : Nat) (tag : UInt64) (mem : Memory) : Memory := fillFrom p n tag 0 0 mem

/-- The loop of `CheckBlock` from the byte `i` on. -/
def checkFrom (p n : Nat) (tag : UInt64) (mem : Memory) (i chunk : Nat) : Option Nat :=
  if i < n then
    let v := mix (tag ^^^ .ofNat chunk)
    let m := if n - i < 8 then n - i else 8
    if differs mem (p + i) v m then
      match (List.range m).find? (fun j => mem (p + i + j) != byteOf v j) with
      | some j => some (i + j)
      | none => some i
    else checkFrom p n tag mem (i + 8) (chunk + 1)
  else none
termination_by n - i
decreasing_by omega

/-- `CheckBlock`: `none` where it returns true, else what it sets `*badOff` to. -/
def checkBlock (p n : Nat) (tag : UInt64) (mem : Memory) : Option Nat := checkFrom p n tag mem 0 0

/-- The byte `j` of a stamp. -/
def stamp (tag : UInt64) (j : Nat) : UInt8 := byteOf (mix (tag ^^^ .ofNat (j / 8))) (j % 8)

section
variable {p n i chunk a len : Nat} {tag v : UInt64} {mem mem' : Memory}

theorem stamp_chunk (tag : UInt64) (chunk : Nat) {j : Nat} (inside : j < 8) : stamp tag (8 * chunk + j) = byteOf
    (mix (tag ^^^ .ofNat chunk)) j := by
  rw [stamp,show (8 * chunk + j) / 8 = chunk by omega,show (8 * chunk + j) % 8 = j by omega]

theorem fillFrom_apply (aligned : i = 8 * chunk) (x : Nat) :
    fillFrom p n tag i chunk mem x = if p + i ≤ x ∧ x < p + n then stamp tag (x - p) else mem x := by
  fun_induction fillFrom p n tag i chunk mem with
  | case1 i chunk mem more v m ih =>
    rw [ih (by omega)]
    have short : m ≤ 8 ∧ m ≤ n - i ∧ (m = 8 ∨ m = n - i) := by
      simp only [m]
      split_ifs <;> omega
    by_cases later : p + (i + 8) ≤ x ∧ x < p + n
    · rw [if_pos later,if_pos (by omega)]
    · rw [if_neg later,copyIn]
      by_cases here : p + i ≤ x ∧ x < p + i + m
      · rw [if_pos here,if_pos (by omega)]
        have offset : x - p = 8 * chunk + (x - (p + i)) := by omega
        rw [offset,stamp_chunk tag chunk (by omega)]
      · rw [if_neg here,if_neg (by omega)]
  | case2 i chunk mem done => rw [if_neg (by omega)]

/-- The block is overwritten with the stamp, and nothing else. -/
theorem fillBlock_apply (p n : Nat) (tag : UInt64) (mem : Memory) (x : Nat) :
    fillBlock p n tag mem x = if p ≤ x ∧ x < p + n then stamp tag (x - p) else mem x := by
  have zero : 0 = 8 * 0 := rfl
  exact fillFrom_apply zero x

theorem differs_iff : differs mem a v len = true ↔ ∃ j, j < len ∧ mem (a + j) ≠ byteOf v j := by simp [differs]

/-- What is found from the byte `i` on. -/
def Finds (p n : Nat) (tag : UInt64) (mem : Memory) (i : Nat) : Option Nat → Prop
  | none => ∀ j, i ≤ j → j < n → mem (p + j) = stamp tag j
  | some off => (i ≤ off ∧ off < n) ∧ mem (p + off) ≠ stamp tag off ∧ ∀ j, i ≤ j → j < off → mem (p + j) = stamp tag j

/-- The bytes of a chunk. -/
theorem chunk_byte (aligned : i = 8 * chunk) {j : Nat} (inside : j < 8) : mem (p + i + j) = byteOf
    (mix (tag ^^^ .ofNat chunk)) j ↔
    mem (p + (i + j)) = stamp tag (i + j) := by
  rw [Nat.add_assoc,aligned,stamp_chunk tag chunk inside]

theorem checkFrom_finds (aligned : i = 8 * chunk) : Finds p n tag mem i (checkFrom p n tag mem i chunk) := by
  fun_induction checkFrom p n tag mem i chunk with
  | case1 i chunk more v m bad j found =>
    have short : m ≤ 8 ∧ m ≤ n - i := by
      simp only [m]
      split_ifs <;> omega
    obtain ⟨differ,inside,before⟩ := List.find?_range_eq_some.mp found
    rw [List.mem_range] at inside
    refine ⟨by omega,fun same => ?_,fun k low high => ?_⟩
    · have equal := (chunk_byte aligned (by omega)).mpr same
      rw [bne_iff_ne] at differ
      exact differ equal
    · obtain ⟨d,rfl⟩ := Nat.exists_eq_add_of_le low
      have equal := before d (by omega)
      rw [Bool.not_eq_true',bne_eq_false_iff_eq] at equal
      exact (chunk_byte aligned (by omega)).mp equal
  | case2 i chunk more v m bad none =>
    -- `memcmp` has seen a byte that differs, so the inner loop finds one.
    obtain ⟨j,inside,differ⟩ := differs_iff.mp bad
    have equal := List.find?_range_eq_none.mp none j inside
    rw [Bool.not_eq_true',bne_eq_false_iff_eq] at equal
    exact absurd equal differ
  | case3 i chunk more v m same ih =>
    have short : m ≤ 8 ∧ (m = 8 ∨ m = n - i) := by
      simp only [m]
      split_ifs <;> omega
    have chunk_same : ∀ d, d < m → mem (p + (i + d)) = stamp tag (i + d) := fun d inside => by
      apply (chunk_byte aligned (by omega)).mp
      by_contra differ
      exact same (differs_iff.mpr ⟨d,inside,differ⟩)
    have next := ih (by omega)
    have here : ∀ j, i ≤ j → j < i + 8 → j < n → mem (p + j) = stamp tag j := fun j low high small => by
      obtain ⟨d,rfl⟩ := Nat.exists_eq_add_of_le low
      exact chunk_same d (by omega)
    cases result : checkFrom p n tag mem (i + 8) (chunk + 1) with
    | none =>
      rw [result] at next
      intro j low high
      by_cases later : i + 8 ≤ j
      · exact next j later high
      · exact here j low (by omega) high
    | some off =>
      rw [result] at next
      obtain ⟨⟨low,high⟩,differ,before⟩ := next
      refine ⟨⟨by omega,high⟩,differ,fun j low' high' => ?_⟩
      by_cases later : i + 8 ≤ j
      · exact before j later high'
      · exact here j low' (by omega) (by omega)
  | case4 i chunk done => exact fun j low high => by omega

theorem checkBlock_finds (p n : Nat) (tag : UInt64) (mem : Memory) : Finds p n tag mem 0 (checkBlock p n tag mem) := by
  have zero : 0 = 8 * 0 := rfl
  exact checkFrom_finds zero

theorem checkBlock_none : checkBlock p n tag mem = none ↔ ∀ j, j < n → mem (p + j) = stamp tag j := by
  have finds := checkBlock_finds p n tag mem
  cases result : checkBlock p n tag mem with
  | none =>
    rw [result] at finds
    exact ⟨fun _ j inside => finds j (Nat.zero_le j) inside,fun _ => rfl⟩
  | some off =>
    rw [result] at finds
    obtain ⟨⟨_,inside⟩,differ,_⟩ := finds
    exact ⟨fun none => absurd none (by simp),fun all => absurd (all off inside) differ⟩

theorem fillBlock_inside {j : Nat} (inside : j < n) : fillBlock p n tag mem (p + j) = stamp tag j := by
  rw [fillBlock_apply,if_pos (by omega),Nat.add_sub_cancel_left]

/-- `FillBlock` writes the bytes of the block, whatever they were, and no other, and
    `CheckBlock` looks for the first of them that is not as `FillBlock` leaves it. -/
theorem stamps_agree (p n : Nat) (tag : UInt64) (mem : Memory) :
    (∀ x, x < p ∨ p + n ≤ x → fillBlock p n tag mem x = mem x) ∧
    (∀ mem' x, p ≤ x → x < p + n → fillBlock p n tag mem x = fillBlock p n tag mem' x) ∧
    (∀ mem', checkBlock p n tag mem' = none ↔ ∀ x, p ≤ x → x < p + n → mem' x = fillBlock p n tag mem x) ∧
    (∀ mem' off, checkBlock p n tag mem' = some off → off < n ∧ mem' (p + off) ≠ fillBlock p n tag mem (p + off) ∧
      ∀ j, j < off → mem' (p + j) = fillBlock p n tag mem (p + j)) ∧
    ∀ mem', (∀ x, p ≤ x → x < p + n → mem' x = fillBlock p n tag mem x) → checkBlock p n tag mem' = none := by
  have agrees : ∀ mem', checkBlock p n tag mem' = none ↔ ∀ x, p ≤ x → x < p + n → mem' x = fillBlock p
    n tag mem x := fun mem' => by
    rw [checkBlock_none]
    constructor
    · intro all x low high
      obtain ⟨j,rfl⟩ := Nat.exists_eq_add_of_le low
      rw [all j (by omega),fillBlock_inside (by omega)]
    · intro all j inside
      rw [all (p + j) (by omega) (by omega),fillBlock_inside inside]
  refine ⟨fun x outside => ?_,fun mem' x low high => ?_,agrees,fun mem' off found => ?_,
    fun mem' all => (agrees mem').mpr all⟩
  · rw [fillBlock_apply,if_neg (by omega)]
  · rw [fillBlock_apply,fillBlock_apply,if_pos ⟨low,high⟩,if_pos ⟨low,high⟩]
  · have finds := checkBlock_finds p n tag mem'
    rw [found] at finds
    obtain ⟨⟨_,inside⟩,differ,before⟩ := finds
    refine ⟨inside,by rw [fillBlock_inside inside]; exact differ,fun j small => ?_⟩
    rw [fillBlock_inside (by omega)]
    exact before j (Nat.zero_le j) small

end

/-! ### Take and Give -/

/-- The tag of the allocation `counter` of thread `k`. -/
def tagOf (k counter : Nat) : UInt64 := mix (UInt64.ofNat k <<< 48 ||| UInt64.ofNat counter)

structure Block where
  p : Nat
  n : Nat
  tag : UInt64

/-- The messages that `Note` keeps. -/
inductive Message where
  /-- "null return for size" -/
  | nullReturn (size : Nat)
  /-- "misaligned %p for size %zu" -/
  | misaligned (p size : Nat)
  /-- "duplicate live pointer %p (size %zu)" -/
  | duplicate (p size : Nat)
  /-- "stamp corrupted at %p size %zu byte %zu (block was overlapped, handed out twice, or short)" -/
  | corrupted (p size off : Nat)

structure Failures where
  nullPtr : Nat := 0
  misaligned : Nat := 0
  corrupted : Nat := 0
  duplicate : Nat := 0
  messages : List Message := []

/-- `Note`, which keeps the first few. -/
def Failures.note (f : Failures) (s : Message) : Failures := if f.messages.length < 12 then
    { f with messages := f.messages ++ [s] } else f

structure Registry where
  live : List Nat := []
  enabled : Bool := false

/-- `Insert`. -/
def Registry.insert (reg : Registry) (p : Nat) : Bool × Registry :=
  if reg.enabled = false then (true,reg)
  else if p ∈ reg.live then (false,reg)
  else (true,{ reg with live := p :: reg.live })

/-- `Erase`. -/
def Registry.erase (reg : Registry) (p : Nat) : Registry := if reg.enabled = false then reg else
    { reg with live := reg.live.erase p }

/-- What the threads of `RunCheck` work on, and their counters. -/
structure Gate where
  mem : Memory
  f : Failures := {}
  reg : Registry := {}
  counter : Nat → Nat := fun _ => 0

/-- The tests of a pointer that is not null. -/
def validate (p n : Nat) (s : Gate) : Gate :=
  let f := if p % 8 ≠ 0 then { s.f with misaligned := s.f.misaligned + 1 }.note (.misaligned p n) else s.f
  let (fresh,reg) := s.reg.insert p
  { s with
    f := if fresh then f else { f with duplicate := f.duplicate + 1 }.note (.duplicate p n)
    reg := reg }

/-- `Take` by thread `k`, where `Alloc(n)` has returned `p`. -/
def take (k n p : Nat) (s : Gate) : Block × Gate :=
  let counter := s.counter k + 1
  let tag := tagOf k counter
  let s := { s with counter := Function.update s.counter k counter }
  if p = 0 then (⟨0,n,tag⟩,{ s with f := { s.f with nullPtr := s.f.nullPtr + 1 }.note (.nullReturn n) })
  else
    let s := validate p n s
    (⟨p,n,tag⟩,{ s with mem := fillBlock p n tag s.mem })

/-- `Give`, up to `Free(b.p)`. -/
def give (b : Block) (s : Gate) : Gate :=
  if b.p = 0 then s
  else
    let s := match checkBlock b.p b.n b.tag s.mem with
      | some off => { s with f := { s.f with corrupted := s.f.corrupted + 1 }.note (.corrupted b.p b.n off) }
      | none => s
    { s with reg := s.reg.erase b.p }

section
variable {k k' counter counter' p n n' : Nat} {tag tag' : UInt64} {mem mem' : Memory}

/-- The thread is in the high 16 bits of what is mixed, and the counter in the others. -/
theorem tagged_toNat (few : k < 2 ^ 16) (small : counter < 2 ^ 48) :
    (UInt64.ofNat k <<< 48 ||| UInt64.ofNat counter).toNat = k * 2 ^ 48 + counter := by
  have size : UInt64.size = 2 ^ 64 := rfl
  have high : (UInt64.ofNat k).toNat = k := UInt64.toNat_ofNat_of_lt' (by omega)
  have low : (UInt64.ofNat counter).toNat = counter := UInt64.toNat_ofNat_of_lt' (by omega)
  rw [UInt64.toNat_or,UInt64.toNat_shiftLeft,high,low,show (48 : UInt64).toNat % 64 = 48 from rfl,
    Nat.mod_eq_of_lt (by rw [Nat.shiftLeft_eq]; omega),← Nat.shiftLeft_add_eq_or_of_lt small,Nat.shiftLeft_eq]

theorem tagOf_injective (few : k < 2 ^ 16) (small : counter < 2 ^ 48) (few' : k' < 2 ^ 16) (small' : counter' < 2 ^ 48)
    (same : tagOf k counter = tagOf k' counter') : (k,counter) = (k',counter') := by
  have mixed := congrArg UInt64.toNat (mix_injective same)
  rw [tagged_toNat few small,tagged_toNat few' small'] at mixed
  rw [Prod.mk.injEq]
  omega

/-- The first word of a stamp. -/
theorem stamp_word (holds : ∀ j, j < 8 → mem (p + j) = stamp tag j) : mem.load p = (mix tag).toNat := by
  have bytes : ∀ x, p ≤ x → x < p + 8 → mem x = mem.store p (mix tag).toNat x := by
    intro x low high
    obtain ⟨j,rfl⟩ := Nat.exists_eq_add_of_le low
    have first := stamp_chunk tag 0 (j := j) (by omega)
    rw [holds j (by omega),Memory.store,if_pos (by omega),Nat.add_sub_cancel_left]
    rw [Nat.mul_zero,Nat.zero_add] at first
    rw [first,show (UInt64.ofNat 0) = 0 from rfl,UInt64.xor_zero,byteOf]
  rw [Memory.load_congr bytes,Memory.load_store mem p (UInt64.toNat_lt (mix tag))]

/-- A stamp over another one is seen in the first eight bytes. -/
theorem overwritten (long : 8 ≤ n) (long' : 8 ≤ n') (ne : tag ≠ tag')
    (same : ∀ x, p ≤ x → x < p + 8 → mem' x = fillBlock p n' tag' mem x) :
    ∃ off, off < 8 ∧ checkBlock p n tag mem' = some off := by
  have finds := checkBlock_finds p n tag mem'
  have second : ∀ j, j < 8 → mem' (p + j) = stamp tag' j := fun j inside => by
    rw [same (p + j) (by omega) (by omega),fillBlock_inside (by omega)]
  -- If the first word were as the first stamp has it, the tags would be the same.
  have differ : ¬ ∀ j, j < 8 → mem' (p + j) = stamp tag j := fun first => by
    have words := (stamp_word first).symm.trans (stamp_word second)
    exact ne (mix_injective (UInt64.toNat_inj.mp words))
  cases result : checkBlock p n tag mem' with
  | none =>
    rw [result] at finds
    exact absurd (fun j inside => finds j (Nat.zero_le j) (by omega)) differ
  | some off =>
    rw [result] at finds
    refine ⟨off,?_,rfl⟩
    by_contra late
    exact differ (fun j inside => finds.2.2 j (Nat.zero_le j) (by omega))

/-- The gate misses no duplicate of eight bytes or more: two allocations have two tags,
    and where the second one is handed the block of the first, the check of the first
    fails in its first word, so `Give` counts it. -/
theorem duplicates_detected (few : k < 2 ^ 16) (small : counter < 2 ^ 48) (few' : k' < 2 ^ 16) (small' : counter' < 2 ^ 48)
    (distinct : (k,counter) ≠ (k',counter')) :
    tagOf k counter ≠ tagOf k' counter' ∧
    (∀ p n n' mem, 8 ≤ n → 8 ≤ n' → ∃ off, off < 8 ∧
      checkBlock p n (tagOf k counter) (fillBlock p n' (tagOf k' counter') mem) = some off) ∧
    ∀ p n n' (s : Gate), p ≠ 0 → 8 ≤ n → 8 ≤ n' → s.counter k' + 1 = counter' →
      (give ⟨p,n,tagOf k counter⟩ (take k' n' p s).2).f.corrupted = s.f.corrupted + 1 := by
  have ne : tagOf k counter ≠ tagOf k' counter' := fun same => distinct (tagOf_injective few small few' small' same)
  refine ⟨ne,fun p n n' mem long long' => overwritten long long' ne (fun _ _ _ => rfl),
    fun p n n' s some long long' count => ?_⟩
  have note : ∀ (f : Failures) m, (f.note m).corrupted = f.corrupted := fun f m => by
    unfold Failures.note
    split_ifs <;> rfl
  have kept : ∀ s : Gate, (validate p n' s).f.corrupted = s.f.corrupted := fun s => by
    unfold validate
    dsimp only
    split_ifs <;> simp only [note]
  set tested := validate p n' { s with counter := Function.update s.counter k' counter' } with ht
  have filled : ∀ x, p ≤ x → x < p + 8 → fillBlock p n' (tagOf k' counter') tested.mem x = fillBlock p n'
    (tagOf k' counter') tested.mem x :=
    fun _ _ _ => rfl
  obtain ⟨off,_,found⟩ := overwritten long long' ne filled
  simp only [take,count,if_neg some,give,← ht,found,note]
  rw [ht,kept]

end

/-- Threads 0 and 1 with their first allocations. -/
theorem duplicates_detected_first : tagOf 0 1 ≠ tagOf 1 1 ∧ ∃ off, off < 8 ∧
    checkBlock 8192 16 (tagOf 0 1) (fillBlock 8192 9 (tagOf 1 1) (fun _ => 0)) = some off := by
  have distinct : (0,1) ≠ (1,1) := by decide
  obtain ⟨tags,found,_⟩ := duplicates_detected (by decide) (by decide) (by decide) (by decide) distinct
  exact ⟨tags,found 8192 16 9 (fun _ => 0) (by decide) (by decide)⟩

end Verify
end TcAlloc
