import Mathlib.Data.Nat.Bitwise
import Mathlib.Tactic.Ring
import Mathlib.Tactic.NormNum
import Mathlib.Tactic.IntervalCases

/-!
Sizes, classes and pages. The arithmetic of the allocator is that of 64-bit
unsigned numbers, written on natural numbers with the wrap where it can occur.
The alignment between 1 KB and 8 KB is chosen when the allocator is built
(`Build`); the size classes follow it.
-/
namespace TcAlloc

/-- A number modulo `2^64`. -/
def wrap (n : Nat) : Nat := n % 2 ^ 64
/-- `n - k` on 64-bit unsigned numbers. -/
def minus (n k : Nat) : Nat := (n + (2 ^ 64 - k)) % 2 ^ 64

theorem minus_pred {n k : Nat} (le : k ≤ n) (small : n < 2 ^ 64) : minus n k = n - k := by
  rw [minus]; omega

def maxBytes : Nat := 256 * 1024
def npages : Nat := 129
def pageShift : Nat := 13

/-- What is fixed when the allocator is built: `MID_ALIGN_SHIFT`, with an
    alignment that keeps pointers aligned and divides 1 KB. A loop of the code is
    followed for `rounds` rounds, any number that is large enough. -/
structure Build where
  midAlignShift : Nat
  fine : 3 ≤ midAlignShift
  coarse : midAlignShift ≤ 10
  rounds : Nat
  long : 600 ≤ rounds

/-- The alignment that is built unless another one is asked for. -/
def Build.standard : Build := ⟨7,by decide,by decide,1024,by decide⟩

namespace SizeClass

/-- `_RoundUp`. -/
def roundUpTo (bytes alignNum : Nat) : Nat := wrap (bytes + alignNum - 1) &&& (2 ^ 64 - 1 - (alignNum - 1))

/-- `RoundUp`, for a build with the alignment `2^mid` in the middle range. -/
def roundUp (mid size : Nat) : Nat :=
  if size = 0 then 8
  else if size ≤ 128 then roundUpTo size 8
  else if size ≤ 1024 then roundUpTo size 16
  else if size ≤ 8 * 1024 then roundUpTo size (2 ^ mid)
  else if size ≤ 64 * 1024 then roundUpTo size (8 * 128)
  else if size ≤ 256 * 1024 then roundUpTo size (64 * 128)
  else roundUpTo size (2 ^ pageShift)

/-- `_Index`. -/
def indexFrom (bytes alignShift : Nat) : Nat := minus (wrap (bytes + 2 ^ alignShift - 1) >>> alignShift) 1

def nclassMid (mid : Nat) : Nat := 7168 >>> mid
def nfreelists (mid : Nat) : Nat := 16 + 56 + nclassMid mid + 56 + 24

/-- `Index`; a size past `MAX_BYTES` is asserted away by every caller. -/
def index (mid bytes : Nat) : Nat :=
  if bytes = 0 then 0
  else if bytes ≤ 128 then indexFrom bytes 3
  else if bytes ≤ 1024 then indexFrom (bytes - 128) 4 + 16
  else if bytes ≤ 8 * 1024 then indexFrom (bytes - 1024) mid + 56 + 16
  else if bytes ≤ 64 * 1024 then indexFrom (bytes - 8 * 1024) 10 + nclassMid mid + 56 + 16
  else if bytes ≤ 256 * 1024 then indexFrom (bytes - 64 * 1024) 13 + 56 + nclassMid mid + 56 + 16
  else 2 ^ 64 - 1

def numMoveSize (size : Nat) : Nat :=
  let num := maxBytes / size
  let num := if num < 2 then 2 else num
  if 512 < num then 512 else num

def numMovePage (size : Nat) : Nat :=
  let npage := (numMoveSize size * size) >>> pageShift
  if npage = 0 then 1 else npage

/-! ### Rounding -/

theorem and_high (x s : Nat) (small : x < 2 ^ 64) (le : s ≤ 64) : x &&& (2 ^ 64 - 1 - (2 ^ s - 1)) = x / 2 ^ s * 2 ^ s := by
  have pos : 0 < 2 ^ s := by positivity
  have bound : 2 ^ s ≤ 2 ^ 64 := Nat.pow_le_pow_right (by decide) le
  have mask : 2 ^ 64 - 1 - (2 ^ s - 1) = (2 ^ (64 - s) - 1) <<< s := by
    rw [Nat.shiftLeft_eq,Nat.sub_mul,← Nat.pow_add,Nat.sub_add_cancel le]
    omega
  rw [mask,← Nat.shiftRight_eq_div_pow,← Nat.shiftLeft_eq]
  apply Nat.eq_of_testBit_eq
  intro i
  rw [Nat.testBit_and,Nat.testBit_shiftLeft,Nat.testBit_shiftLeft,Nat.testBit_two_pow_sub_one,Nat.testBit_shiftRight]
  by_cases low : s ≤ i
  · by_cases high : i < 64
    · have inside : i - s < 64 - s := by omega
      simp [low,inside]
    · have zero : x.testBit i = false := Nat.testBit_lt_two_pow
        (lt_of_lt_of_le small (Nat.pow_le_pow_right (by decide) (by omega)))
      simp [low,zero]
  · simp [low]

/-- Rounding up to a power of two, where nothing wraps. -/
theorem roundUpTo_eq {bytes s : Nat} (small : bytes + 2 ^ s ≤ 2 ^ 64) (le : s ≤ 64) :
    roundUpTo bytes (2 ^ s) = (bytes + 2 ^ s - 1) / 2 ^ s * 2 ^ s := by
  have pos : 0 < 2 ^ s := by positivity
  have inside : bytes + 2 ^ s - 1 < 2 ^ 64 := by omega
  rw [roundUpTo,wrap,Nat.mod_eq_of_lt inside,and_high _ _ inside le]

/-- What rounding up to `a` gives: the least multiple of `a` that is not smaller. -/
theorem ceil_spec {a n : Nat} (pos : 0 < a) : n ≤ (n + a - 1) / a * a ∧ (n + a - 1) / a * a < n + a := by
  have split := Nat.div_add_mod (n + a - 1) a
  have rest := Nat.mod_lt (n + a - 1) pos
  rw [Nat.mul_comm] at split
  omega

theorem indexFrom_eq {bytes s : Nat} (pos : 0 < bytes) (small : bytes + 2 ^ s ≤ 2 ^ 64) :
    indexFrom bytes s = (bytes + 2 ^ s - 1) / 2 ^ s - 1 := by
  have one : 0 < 2 ^ s := by positivity
  have inside : bytes + 2 ^ s - 1 < 2 ^ 64 := by omega
  have quotient : 1 ≤ (bytes + 2 ^ s - 1) / 2 ^ s := (Nat.one_le_div_iff one).mpr (by omega)
  have le : (bytes + 2 ^ s - 1) / 2 ^ s ≤ bytes + 2 ^ s - 1 := Nat.div_le_self _ _
  rw [indexFrom,wrap,Nat.mod_eq_of_lt inside,Nat.shiftRight_eq_div_pow,minus]
  omega

/-! ### The table of classes

The classes are numbered without gaps through the five ranges, so the size of a
class is a function of its index (`classSize`), and rounding up a size is looking
up the class of its index.
-/

/-- The size of the class at an index. -/
def classSize (mid i : Nat) : Nat :=
  if i < 16 then (i + 1) * 8
  else if i < 72 then 128 + (i - 16 + 1) * 16
  else if i < 72 + nclassMid mid then 1024 + (i - 72 + 1) * 2 ^ mid
  else if i < 72 + nclassMid mid + 56 then 8192 + (i - (72 + nclassMid mid) + 1) * 1024
  else 65536 + (i - (72 + nclassMid mid + 56) + 1) * 8192

section
variable {mid size : Nat}

/-- The classes of the middle range fill it, whatever its alignment. -/
theorem nclassMid_mul (coarse : mid ≤ 10) : nclassMid mid * 2 ^ mid = 7168 := by
  interval_cases mid <;> rfl

/-- The classes of the middle range, counted from its lower end. -/
theorem mid_class (coarse : mid ≤ 10) (low : 1024 < size) (high : size ≤ 8192) :
    roundUpTo size (2 ^ mid) = 1024 + (indexFrom (size - 1024) mid + 1) * 2 ^ mid ∧
      indexFrom (size - 1024) mid < nclassMid mid := by
  have small : 2 ^ mid ≤ 2 ^ 10 := Nat.pow_le_pow_right (by decide) coarse
  rw [roundUpTo_eq (by omega) (by omega),indexFrom_eq (by omega) (by omega),nclassMid,Nat.shiftRight_eq_div_pow]
  clear small
  interval_cases mid <;> omega

theorem index_zero : index mid 0 = 0 := rfl
theorem index_tiny (pos : 0 < size) (high : size ≤ 128) : index mid size = (size + 7) / 8 - 1 := by
  rw [index,if_neg (by omega),if_pos high,indexFrom_eq pos (by omega)]
  rfl
theorem index_small (low : 128 < size) (high : size ≤ 1024) : index mid size = (size - 128 + 15) / 16 - 1 + 16 := by
  rw [index,if_neg (by omega),if_neg (by omega),if_pos high,indexFrom_eq (by omega) (by omega)]
  rfl
theorem index_mid (low : 1024 < size) (high : size ≤ 8192) : index mid size = indexFrom (size - 1024) mid + 72 := by
  rw [index,if_neg (by omega),if_neg (by omega),if_neg (by omega),if_pos (by omega)]
theorem index_large (low : 8192 < size) (high : size ≤ 65536) :
    index mid size = (size - 8192 + 1023) / 1024 - 1 + (72 + nclassMid mid) := by
  rw [index,if_neg (by omega),if_neg (by omega),if_neg (by omega),if_neg (by omega),if_pos (by omega),
    indexFrom_eq (by omega) (by omega)]
  omega
theorem index_huge (low : 65536 < size) (high : size ≤ 262144) :
    index mid size = (size - 65536 + 8191) / 8192 - 1 + (72 + nclassMid mid + 56) := by
  rw [index,if_neg (by omega),if_neg (by omega),if_neg (by omega),if_neg (by omega),if_neg (by omega),
    if_pos (by omega),indexFrom_eq (by omega) (by omega)]
  omega

theorem roundUp_tiny (pos : 0 < size) (high : size ≤ 128) : roundUp mid size = (size + 7) / 8 * 8 := by
  rw [roundUp,if_neg (by omega),if_pos high]
  exact roundUpTo_eq (s := 3) (by omega) (by decide)
theorem roundUp_small (low : 128 < size) (high : size ≤ 1024) : roundUp mid size = (size + 15) / 16 * 16 := by
  rw [roundUp,if_neg (by omega),if_neg (by omega),if_pos high]
  exact roundUpTo_eq (s := 4) (by omega) (by decide)
theorem roundUp_mid (low : 1024 < size) (high : size ≤ 8192) : roundUp mid size = roundUpTo size (2 ^ mid) := by
  rw [roundUp,if_neg (by omega),if_neg (by omega),if_neg (by omega),if_pos (by omega)]
theorem roundUp_large (low : 8192 < size) (high : size ≤ 65536) : roundUp mid size = (size + 1023) / 1024 * 1024 := by
  rw [roundUp,if_neg (by omega),if_neg (by omega),if_neg (by omega),if_neg (by omega),if_pos (by omega)]
  exact roundUpTo_eq (s := 10) (by omega) (by decide)
theorem roundUp_huge (low : 65536 < size) (high : size ≤ 262144) :
    roundUp mid size = (size + 8191) / 8192 * 8192 := by
  rw [roundUp,if_neg (by omega),if_neg (by omega),if_neg (by omega),if_neg (by omega),if_neg (by omega),
    if_pos (by omega)]
  exact roundUpTo_eq (s := 13) (by omega) (by decide)

/-- Every size up to `MAX_BYTES` falls into one of the five ranges. -/
theorem ranges (high : size ≤ maxBytes) : size = 0 ∨ (0 < size ∧ size ≤ 128) ∨ (128 < size ∧ size ≤ 1024) ∨
    (1024 < size ∧ size ≤ 8192) ∨ (8192 < size ∧ size ≤ 65536) ∨ (65536 < size ∧ size ≤ 262144) := by
  have bound : size ≤ 262144 := high
  omega

/-- Past `MAX_BYTES` sizes are rounded up to pages, as long as nothing wraps. -/
theorem roundUp_page (large : maxBytes < size) (small : size + 8191 < 2 ^ 64) :
    roundUp mid size = (size + 8191) / 8192 * 8192 := by
  have bound : 262144 < size := large
  rw [roundUp,if_neg (by omega),if_neg (by omega),if_neg (by omega),if_neg (by omega),if_neg (by omega),if_neg (by omega),
    roundUpTo_eq (by rw [pageShift]; omega) (by decide)]
  rfl

/-- Where it wraps, sizes are rounded up to nothing. -/
theorem roundUp_wraps (wraps : 2 ^ 64 ≤ size + 8191) (small : size < 2 ^ 64) : roundUp mid size = 0 := by
  rw [roundUp,if_neg (by omega),if_neg (by omega),if_neg (by omega),if_neg (by omega),if_neg (by omega),
    if_neg (by omega),roundUpTo,wrap,
    and_high _ pageShift (Nat.mod_lt _ (by decide)) (by decide)]
  have shift : (2 : Nat) ^ pageShift = 8192 := rfl
  rw [shift,Nat.div_eq_of_lt (by omega),Nat.zero_mul]

/-- The class table: rounding up a size gives the size of its class. -/
theorem roundUp_eq_classSize (coarse : mid ≤ 10) (high : size ≤ maxBytes) :
    roundUp mid size = classSize mid (index mid size) := by
  rcases ranges high with rfl | ⟨lo,hi⟩ | ⟨lo,hi⟩ | ⟨lo,hi⟩ | ⟨lo,hi⟩ | ⟨lo,hi⟩
  · rfl
  · rw [roundUp_tiny lo hi,index_tiny lo hi,classSize,if_pos (by omega)]; omega
  · rw [roundUp_small lo hi,index_small lo hi,classSize,if_neg (by omega),if_pos (by omega)]; omega
  · obtain ⟨size_eq,inside⟩ := mid_class coarse lo hi
    rw [roundUp_mid lo hi,index_mid lo hi,size_eq,classSize,if_neg (by omega),if_neg (by omega),if_pos (by omega),
      Nat.add_sub_cancel]
  · rw [roundUp_large lo hi,index_large lo hi,classSize,if_neg (by omega),if_neg (by omega),if_neg (by omega),
      if_pos (by omega)]
    omega
  · rw [roundUp_huge lo hi,index_huge lo hi,classSize,if_neg (by omega),if_neg (by omega),if_neg (by omega),
      if_neg (by omega)]
    omega

theorem index_lt (coarse : mid ≤ 10) (high : size ≤ maxBytes) : index mid size < nfreelists mid := by
  rw [nfreelists]
  rcases ranges high with rfl | ⟨lo,hi⟩ | ⟨lo,hi⟩ | ⟨lo,hi⟩ | ⟨lo,hi⟩ | ⟨lo,hi⟩
  · rw [index_zero]; omega
  · rw [index_tiny lo hi]; omega
  · rw [index_small lo hi]; omega
  · have inside := (mid_class coarse lo hi).2
    rw [index_mid lo hi]; omega
  · rw [index_large lo hi]; omega
  · rw [index_huge lo hi]; omega

/-- A size fits into its class, and a class into `MAX_BYTES`. -/
theorem le_roundUp (coarse : mid ≤ 10) (high : size ≤ maxBytes) :
    size ≤ roundUp mid size ∧ roundUp mid size ≤ maxBytes := by
  have bound : maxBytes = 262144 := rfl
  rw [bound]
  rcases ranges high with rfl | ⟨lo,hi⟩ | ⟨lo,hi⟩ | ⟨lo,hi⟩ | ⟨lo,hi⟩ | ⟨lo,hi⟩
  · exact ⟨Nat.zero_le _,show 8 ≤ 262144 by decide⟩
  · rw [roundUp_tiny lo hi]; omega
  · rw [roundUp_small lo hi]; omega
  · obtain ⟨size_eq,inside⟩ := mid_class coarse lo hi
    have fill := nclassMid_mul coarse
    have small : 2 ^ mid ≤ 2 ^ 10 := Nat.pow_le_pow_right (by decide) coarse
    have below := Nat.mul_le_mul_right (2 ^ mid) (show indexFrom (size - 1024) mid + 1 ≤ nclassMid mid from inside)
    have least := (ceil_spec (n := size) (show 0 < 2 ^ mid by positivity)).1
    rw [roundUp_mid lo hi]
    refine ⟨?_,by rw [size_eq]; omega⟩
    rw [roundUpTo_eq (by omega) (by omega)]
    exact least
  · rw [roundUp_large lo hi]; omega
  · rw [roundUp_huge lo hi]; omega

theorem classSize_le (coarse : mid ≤ 10) {i : Nat} (inside : i < nfreelists mid) : classSize mid i ≤ maxBytes := by
  have bound : maxBytes = 262144 := rfl
  rw [nfreelists] at inside
  rw [bound,classSize]
  split_ifs with tiny small middle large
  · omega
  · omega
  · have fill := nclassMid_mul coarse
    have below := Nat.mul_le_mul_right (2 ^ mid) (show i - 72 + 1 ≤ nclassMid mid by omega)
    omega
  · omega
  · omega

/-- Every index is that of its class's size. -/
theorem index_classSize (coarse : mid ≤ 10) {i : Nat} (inside : i < nfreelists mid) : index mid (classSize mid i) = i := by
  rw [nfreelists] at inside
  rw [classSize]
  split_ifs with tiny small middle large
  · rw [index_tiny (by omega) (by omega)]; omega
  · rw [index_small (by omega) (by omega)]; omega
  · have fill := nclassMid_mul coarse
    have pos : 0 < 2 ^ mid := by positivity
    have bound : 2 ^ mid ≤ 2 ^ 10 := Nat.pow_le_pow_right (by decide) coarse
    have below := Nat.mul_le_mul_right (2 ^ mid) (show i - 72 + 1 ≤ nclassMid mid by omega)
    have least : 2 ^ mid ≤ (i - 72 + 1) * 2 ^ mid := Nat.le_mul_of_pos_left _ (by omega)
    rw [index_mid (by omega) (by omega),indexFrom_eq (by omega) (by omega),Nat.add_sub_cancel_left]
    have count : ((i - 72 + 1) * 2 ^ mid + 2 ^ mid - 1) / 2 ^ mid = i - 72 + 1 := by
      rw [Nat.add_sub_assoc pos,Nat.mul_comm,Nat.mul_add_div pos,Nat.div_eq_of_lt (by omega),Nat.add_zero]
    omega
  · rw [index_large (by omega) (by omega)]; omega
  · rw [index_huge (by omega) (by omega)]; omega

theorem index_roundUp (coarse : mid ≤ 10) (high : size ≤ maxBytes) : index mid (roundUp mid size) = index mid size := by
  rw [roundUp_eq_classSize coarse high,index_classSize coarse (index_lt coarse high)]

theorem roundUp_roundUp (coarse : mid ≤ 10) (high : size ≤ maxBytes) :
    roundUp mid (roundUp mid size) = roundUp mid size := by
  rw [roundUp_eq_classSize coarse (le_roundUp coarse high).2,index_roundUp coarse high,
    roundUp_eq_classSize coarse high]

/-- Class sizes hold a pointer and keep pointers aligned. -/
theorem classSize_aligned (fine : 3 ≤ mid) (i : Nat) : 8 ∣ classSize mid i ∧ 8 ≤ classSize mid i := by
  have pos : 0 < 2 ^ mid := by positivity
  obtain ⟨k,rfl⟩ := Nat.exists_eq_add_of_le fine
  rw [classSize]
  split_ifs
  · omega
  · omega
  · have eight : 2 ^ (3 + k) = 8 * 2 ^ k := by rw [Nat.pow_add]
    rw [eight,show (i - 72 + 1) * (8 * 2 ^ k) = 8 * ((i - 72 + 1) * 2 ^ k) by ring]
    omega
  · omega
  · omega

/-! ### The order of the classes -/

/-- Steps of the middle range, counted up to a bound. -/
theorem mid_steps {a i : Nat} (coarse : mid ≤ 10) (low : 1024 < a) (high : a ≤ 8192) :
    indexFrom (a - 1024) mid ≤ i ↔ a ≤ 1024 + (i + 1) * 2 ^ mid := by
  have pos : 0 < 2 ^ mid := by positivity
  have small : 2 ^ mid ≤ 2 ^ 10 := Nat.pow_le_pow_right (by decide) coarse
  have steps : (a - 1024 + 2 ^ mid - 1) / 2 ^ mid ≤ i + 1 ↔ a - 1024 + 2 ^ mid - 1 ≤ 2 ^ mid * (i + 1) + (2 ^ mid - 1) :=
    Nat.div_le_iff_le_mul_add_pred pos
  rw [Nat.mul_comm] at steps
  rw [indexFrom_eq (by omega) (by omega)]
  omega

/-- The class of a size is the first one that is large enough for it. -/
theorem index_le_iff {i : Nat} (coarse : mid ≤ 10) (high : size ≤ maxBytes) (inside : i < nfreelists mid) :
    index mid size ≤ i ↔ size ≤ classSize mid i := by
  have fill := nclassMid_mul coarse
  rw [nfreelists] at inside
  rcases ranges high with rfl | ⟨lo,hi⟩ | ⟨lo,hi⟩ | ⟨lo,hi⟩ | ⟨lo,hi⟩ | ⟨lo,hi⟩
  · rw [index_zero]; omega
  · rw [index_tiny lo hi,classSize]
    split_ifs <;> omega
  · rw [index_small lo hi,classSize]
    split_ifs <;> omega
  · have full := (mid_class coarse lo hi).2
    rw [index_mid lo hi,classSize]
    split_ifs with tiny small middle large
    · omega
    · omega
    · have steps := mid_steps (i := i - 72) coarse lo hi
      omega
    · omega
    · omega
  · rw [index_large lo hi,classSize]
    split_ifs with tiny small middle large
    · omega
    · omega
    · have below := Nat.mul_le_mul_right (2 ^ mid) (show i - 72 + 1 ≤ nclassMid mid by omega)
      omega
    · omega
    · omega
  · rw [index_huge lo hi,classSize]
    split_ifs with tiny small middle large
    · omega
    · omega
    · have below := Nat.mul_le_mul_right (2 ^ mid) (show i - 72 + 1 ≤ nclassMid mid by omega)
      omega
    · omega
    · omega

theorem index_mono {a b : Nat} (coarse : mid ≤ 10) (le : a ≤ b) (high : b ≤ maxBytes) : index mid a ≤ index mid b := by
  have inside := index_lt coarse high
  have fits : b ≤ classSize mid (index mid b) := (index_le_iff coarse high inside).mp (le_refl _)
  exact (index_le_iff coarse (le_trans le high) inside).mpr (le_trans le fits)

theorem classSize_mono {i j : Nat} (coarse : mid ≤ 10) (le : i ≤ j) (inside : j < nfreelists mid) :
    classSize mid i ≤ classSize mid j := by
  have below : i < nfreelists mid := lt_of_le_of_lt le inside
  rw [← index_le_iff coarse (classSize_le coarse below) inside,index_classSize coarse below]
  exact le

theorem roundUp_mono {a b : Nat} (coarse : mid ≤ 10) (le : a ≤ b) (high : b ≤ maxBytes) : roundUp mid a ≤ roundUp mid b := by
  rw [roundUp_eq_classSize coarse (le_trans le high),roundUp_eq_classSize coarse high]
  exact classSize_mono coarse (index_mono coarse le high) (index_lt coarse high)

theorem index_eq_iff {a b : Nat} (coarse : mid ≤ 10) (highA : a ≤ maxBytes) (highB : b ≤ maxBytes) :
    index mid a = index mid b ↔ roundUp mid a = roundUp mid b := by
  constructor
  · intro same
    rw [roundUp_eq_classSize coarse highA,roundUp_eq_classSize coarse highB,same]
  · intro same
    rw [← index_roundUp coarse highA,same,index_roundUp coarse highB]

/-- An alignment that divides 1 KB is one of the eleven that the table is made for. -/
theorem mid_of_dvd (divides : 2 ^ mid ∣ 1024) : mid ≤ 10 :=
  (Nat.pow_dvd_pow_iff_le_right (by decide)).mp (show 2 ^ mid ∣ 2 ^ 10 from divides)

/-- Rounding and indexing are two readings of one table, for every alignment that
    divides 1 KB. -/
theorem table_coherent (mid : Nat) (divides : 2 ^ mid ∣ 1024) :
    (∀ a ≤ maxBytes, index mid a < nfreelists mid ∧ a ≤ roundUp mid a ∧ roundUp mid a ≤ maxBytes ∧
      roundUp mid (roundUp mid a) = roundUp mid a ∧ index mid (roundUp mid a) = index mid a) ∧
    (∀ a ≤ maxBytes, ∀ b ≤ maxBytes, (index mid a = index mid b ↔ roundUp mid a = roundUp mid b) ∧
      (a ≤ b → index mid a ≤ index mid b ∧ roundUp mid a ≤ roundUp mid b)) ∧
    ∀ i < nfreelists mid, ∃ a ≤ maxBytes, index mid a = i := by
  have coarse := mid_of_dvd divides
  refine ⟨fun a high => ?_,fun a highA b highB => ?_,fun i inside => ?_⟩
  · exact ⟨index_lt coarse high,(le_roundUp coarse high).1,(le_roundUp coarse high).2,roundUp_roundUp coarse high,
      index_roundUp coarse high⟩
  · exact ⟨index_eq_iff coarse highA highB,fun le => ⟨index_mono coarse le highB,roundUp_mono coarse le highB⟩⟩
  · exact ⟨classSize mid i,classSize_le coarse inside,index_classSize coarse inside⟩

theorem table_coherent_documented : nfreelists 9 = 166 ∧
    ∀ i < nfreelists 9, ∃ a ≤ maxBytes, index 9 a = i :=
  ⟨by decide,(table_coherent 9 (by decide)).2.2⟩
end

/-! ### Pages of a class -/

theorem numMoveSize_bounds (size : Nat) : 2 ≤ numMoveSize size ∧ numMoveSize size ≤ 512 := by
  simp only [numMoveSize]
  split_ifs <;> omega

theorem numMoveSize_cases (size : Nat) : numMoveSize size = 2 ∨ numMoveSize size ≤ maxBytes / size := by
  simp only [numMoveSize]
  split_ifs <;> omega

/-- A span of a class holds an object and is far below the largest span kept. -/
theorem numMovePage_spec (size : Nat) (pos : 0 < size) (high : size ≤ maxBytes) :
    1 ≤ numMovePage size ∧ numMovePage size ≤ 64 ∧ size ≤ numMovePage size * 8192 := by
  have bound : size ≤ 262144 := high
  have least := (numMoveSize_bounds size).1
  have twice := Nat.mul_le_mul_right size least
  have most : numMoveSize size * size ≤ 524288 := by
    have quotient : maxBytes / size * size ≤ 262144 := Nat.div_mul_le_self _ _
    rcases numMoveSize_cases size with two | fewer
    · rw [two]; omega
    · have below := Nat.mul_le_mul_right size fewer
      omega
  simp only [numMovePage,pageShift,Nat.shiftRight_eq_div_pow]
  split_ifs with none <;> omega

/-- No span of a class is cut into more than 1023 objects. -/
theorem numMovePage_few {size : Nat} (word : 8 ≤ size) : (numMovePage size * 8192 - 1) / size ≤ 1023 := by
  have most := Nat.mul_le_mul_right size (numMoveSize_bounds size).2
  apply Nat.le_of_lt_succ
  rw [Nat.div_lt_iff_lt_mul (by omega)]
  simp only [numMovePage,pageShift,Nat.shiftRight_eq_div_pow]
  split_ifs with none <;> omega

end SizeClass
end TcAlloc
