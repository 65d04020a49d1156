import TcAlloc.Batches

/-!
How many objects a span yields. The carving loop of `GetOneSpan` links an object
only if it ends before the span does, so the object that would end exactly where
the span does is left out, unless it is the first one.
-/
namespace TcAlloc
namespace World

/-- The objects that fit into a span of `n` pages. -/
def fitting (pageId n size : Nat) : List Nat :=
  (List.range ((n <<< pageShift) / size)).map (fun j => (pageId <<< pageShift) + j * size)

/-- Carving builds a chain of all the objects that fit: they lie inside the span, and
    what is left of the span is shorter than an object. -/
def CarvesAll (size S : Nat) (w : World) : Prop :=
  wp (M := Event) ⟨fun _ _ _ => True,fun _ _ _ _ => True⟩ (carve size S) [] w (fun _ _ w' =>
    let s := w.pages.spans S
    Chain w'.mem (w'.pages.spans S).freeList (fitting s.pageId s.n size) ∧
      (∀ x ∈ fitting s.pageId s.n size, s.pageId <<< pageShift ≤ x ∧ x + size ≤ (s.pageId + s.n) <<< pageShift) ∧
      (s.n <<< pageShift) - (fitting s.pageId s.n size).length * size < size) (fun _ _ => False)

section
variable {w : World} {S size : Nat}

/-- The state after carving, with the memory `m`. -/
def withCarved (w : World) (S : Nat) (m : Memory) : World :=
  { w with
    mem := m
    pages := w.pages.write S (fun s => { s with freeList := (w.pages.spans S).pageId <<< pageShift }) }

/-- The carving loop links the objects that are carved. -/
theorem carve_links (sound : (Extent.mk (w.pages.spans S).pageId (w.pages.spans S).n size).Sound)
    (inside : ((w.pages.spans S).pageId + (w.pages.spans S).n) * 8192 < 2 ^ 64) (some : (w.pages.spans S).pageId ≠ 0) :
    ∃ m, Chain m ((w.pages.spans S).pageId <<< pageShift)
    (Extent.mk (w.pages.spans S).pageId (w.pages.spans S).n size).objects ∧
      Written (· ∈ (Extent.mk (w.pages.spans S).pageId (w.pages.spans S).n size).objects) w.mem m ∧
      carveFrom size ((w.pages.spans S).pageId <<< pageShift + (w.pages.spans S).n <<< pageShift)
      ((w.pages.spans S).n <<< pageShift)
        w.mem ((w.pages.spans S).pageId <<< pageShift) ((w.pages.spans S).pageId <<< pageShift + size) = .ok m := by
  set e := Extent.mk (w.pages.spans S).pageId (w.pages.spans S).n size with he
  have word : 8 ≤ size := sound.word
  have fits : size ≤ e.bytes := sound.fits
  have shift : (2 : Nat) ^ pageShift = 8192 := rfl
  have base : (w.pages.spans S).pageId <<< pageShift = e.base := Nat.shiftLeft_eq ..
  have bytes : (w.pages.spans S).n <<< pageShift = e.bytes := Nat.shiftLeft_eq ..
  have above : 0 < e.base := Nat.mul_pos (Nat.pos_of_ne_zero some) (by decide)
  have total : e.base + e.bytes = ((w.pages.spans S).pageId + (w.pages.spans S).n) * 8192 := (Nat.add_mul _ _ _).symm
  have below : e.base + e.bytes < 2 ^ 64 := by rw [total]; exact inside
  obtain ⟨m,result,chain,written⟩ := carveFrom_spec (m := w.mem) word (rfl : e.base + size = e.base + size) (by omega) below
    (show e.base + e.bytes ≤ e.base + size + e.bytes * size by
      have := Nat.le_mul_of_pos_right e.bytes (show 0 < size by omega)
      omega) (by omega)
  have all : e.base :: carved size (e.base + e.bytes) e.bytes (e.base + size) = e.objects := carved_objects sound (le_refl _)
  rw [all] at chain written
  rw [base,bytes]
  exact ⟨m,chain,written,result⟩

/-- Carving leaves the chain of the objects that are carved. -/
theorem carve_spec (sound : (Extent.mk (w.pages.spans S).pageId (w.pages.spans S).n size).Sound)
    (inside : ((w.pages.spans S).pageId + (w.pages.spans S).n) * 8192 < 2 ^ 64) (some : (w.pages.spans S).pageId ≠ 0) :
    ∃ m, Chain m ((w.pages.spans S).pageId <<< pageShift)
    (Extent.mk (w.pages.spans S).pageId (w.pages.spans S).n size).objects ∧
      Written (· ∈ (Extent.mk (w.pages.spans S).pageId (w.pages.spans S).n size).objects) w.mem m ∧
      ∀ (R : Rules World Mutex Request (Option Nat) Event) h (post : Unit → List Mutex → World → Prop) thrown,
        wp R (carve size S) h w post thrown ↔ R.seen none h w (w.withCarved S m) ∧ post () h (w.withCarved S m) := by
  obtain ⟨m,chain,written,result⟩ := carve_links sound inside some
  refine ⟨m,chain,written,fun R h post thrown => ?_⟩
  refine wp_step_ok (R := R) (b := ()) ?_
  simp only [result]
  rfl

/-- The objects carved and the objects that fit are as many, unless an object would
    end where the span does and is not the only one. -/
theorem count_eq_iff {bytes : Nat} (word : 0 < size) (fits : size ≤ bytes) :
    max 1 ((bytes - 1) / size) = bytes / size ↔ ¬ size ∣ bytes ∨ size = bytes := by
  have split := Nat.div_add_mod bytes size
  have rest := Nat.mod_lt bytes word
  have one : 1 ≤ bytes / size := (Nat.one_le_div_iff word).mpr fits
  by_cases whole : size ∣ bytes
  · obtain ⟨k,rfl⟩ := whole
    have quotient : size * k / size = k := Nat.mul_div_cancel_left k word
    obtain ⟨k,rfl⟩ : ∃ j, k = j + 1 := ⟨k - 1,by rw [quotient] at one; omega⟩
    have before : (size * (k + 1) - 1) / size = k := by
      rw [show size * (k + 1) - 1 = size * k + (size - 1) by rw [Nat.mul_add]; omega,Nat.mul_add_div word,
        Nat.div_eq_of_lt (by omega),Nat.add_zero]
    rw [quotient,before]
    simp only [Nat.dvd_mul_right,not_true_eq_false,false_or]
    constructor
    · intro same
      have : k = 0 := by omega
      rw [this]; omega
    · intro all
      have : k = 0 := by
        by_contra many
        have := Nat.mul_le_mul_left size (show 2 ≤ k + 1 by omega)
        omega
      rw [this]; rfl
  · have some : bytes % size ≠ 0 := fun zero => whole (Nat.dvd_of_mod_eq_zero zero)
    have same : (bytes - 1) / size = bytes / size := by
      refine (Nat.div_eq_iff word).mpr ⟨?_,?_⟩
      · rw [Nat.mul_comm]; omega
      · rw [Nat.mul_comm]; omega
    rw [same,max_eq_right one]
    simp [whole]

/-- If carving builds the chain of what fits, what fits is what is carved. -/
theorem CarvesAll.objects (carves : CarvesAll size S w)
    (sound : (Extent.mk (w.pages.spans S).pageId (w.pages.spans S).n size).Sound)
    (inside : ((w.pages.spans S).pageId + (w.pages.spans S).n) * 8192 < 2 ^ 64) (some : (w.pages.spans S).pageId ≠ 0) :
    (Extent.mk (w.pages.spans S).pageId (w.pages.spans S).n size).objects =
      fitting (w.pages.spans S).pageId (w.pages.spans S).n size := by
  obtain ⟨m,chain,_,runs⟩ := carve_spec (S := S) sound inside some
  have chain' := ((runs _ _ _ _).mp carves).2.1
  rw [show ((w.withCarved S m).pages.spans S).freeList = (w.pages.spans S).pageId <<<
    pageShift by simp [withCarved]] at chain'
  exact chain.unique chain'

/-- Carving uses the whole span exactly if the span does not start at the null page,
    and no object but the first would end where the span does. -/
theorem carves_all_iff (w : World) (S size : Nat) (aligned : 8 ∣ size) (word : 8 ≤ size)
    (fits : size ≤ (w.pages.spans S).n * 8192) (inside : ((w.pages.spans S).pageId + (w.pages.spans S).n) * 8192 < 2 ^ 64) :
    CarvesAll size S w ↔ (w.pages.spans S).pageId ≠ 0 ∧
      (¬ size ∣ (w.pages.spans S).n * 8192 ∨ size = (w.pages.spans S).n * 8192) := by
  set e := Extent.mk (w.pages.spans S).pageId (w.pages.spans S).n size with he
  have shift : (2 : Nat) ^ pageShift = 8192 := rfl
  have bytes : e.bytes = (w.pages.spans S).n * 8192 := rfl
  have whole : (w.pages.spans S).n <<< pageShift = e.bytes := Nat.shiftLeft_eq ..
  have base : (w.pages.spans S).pageId <<< pageShift = e.base := Nat.shiftLeft_eq ..
  have one : 1 ≤ e.bytes / size := (Nat.one_le_div_iff (by omega)).mpr (by rw [bytes]; exact fits)
  have length : (fitting (w.pages.spans S).pageId (w.pages.spans S).n size).length = e.bytes / size := by
    simp [fitting,whole]
  have sound : e.Sound := ⟨word,aligned,by rw [bytes]; exact fits⟩
  by_cases null : (w.pages.spans S).pageId = 0
  · -- The list of a span at the null page is empty, whatever is carved.
    simp only [null,ne_eq,not_true_eq_false,false_and,iff_false]
    intro carves
    simp only [CarvesAll,carve,Prog.step,wp,null] at carves
    generalize carveFrom _ _ _ _ _ _ = result at carves
    cases result with
    | error why => exact carves.2
    | ok m =>
      have chain := carves.2.1
      rw [Pages.write_self] at chain
      have none := congrArg List.length (Chain.nil_iff.mp (show Chain m 0 _ by simpa using chain))
      rw [null] at length
      rw [length,List.length_nil] at none
      omega
  · obtain ⟨m,chain,_,runs⟩ := carve_spec (S := S) sound inside null
    have head : ((w.withCarved S m).pages.spans S).freeList = (w.pages.spans S).pageId <<< pageShift := by
      simp [withCarved]
    have count : e.objects.length = max 1 ((e.bytes - 1) / size) := by simp [Extent.objects,Extent.count]; rfl
    rw [← bytes,← count_eq_iff (show 0 < size by omega) sound.fits]
    constructor
    · intro carves
      refine ⟨null,?_⟩
      rw [← count,carves.objects sound inside null,length]
    · rintro ⟨_,same⟩
      rw [CarvesAll,runs]
      simp only [true_and,head]
      have objects : fitting (w.pages.spans S).pageId (w.pages.spans S).n size = e.objects := by
        rw [fitting,Extent.objects,Extent.count,whole,base]
        simp only [he] at same ⊢
        rw [same]
      refine ⟨by rw [objects]; exact chain,fun x mem => ?_,?_⟩
      · rw [objects] at mem
        have inside := Extent.object_inside sound mem
        rw [base,Nat.shiftLeft_eq,Nat.add_mul]
        exact inside
      · rw [length,whole]
        have split := Nat.div_add_mod e.bytes size
        have rest := Nat.mod_lt e.bytes (show 0 < size by omega)
        rw [Nat.mul_comm] at split
        omega

end

/-- A span of one page, the span 1. -/
def onePage : World :=
  { start (fun _ => 0) with pages := Pages.start.write 1 (fun _ => { pageId := 1000, n := 1 }) }

theorem carves_all_iff_page : CarvesAll 24 1 onePage ∧ ¬ CarvesAll 4096 1 onePage :=
  ⟨(carves_all_iff onePage 1 24 (by decide) (by decide) (by decide) (by decide)).mpr (by decide),
    (carves_all_iff onePage 1 4096 (by decide) (by decide) (by decide) (by decide)).not.mpr (by decide)⟩

/-- A page of 8-byte objects, as the smallest class has it, yields 1023 of them. -/
theorem carves_not_all : (8 ∣ 8 ∧ 8 ≤ 8 ∧ 8 ≤ (onePage.pages.spans 1).n * 8192) ∧
    (onePage.pages.spans 1).n = SizeClass.numMovePage 8 ∧ ¬ CarvesAll 8 1 onePage := by
  refine ⟨by decide,by decide,fun carves => ?_⟩
  have same := carves.objects ⟨by decide,by decide,by decide⟩ (by decide) (by decide)
  have lengths := congrArg List.length same
  simp only [Extent.objects,fitting,List.length_map,List.length_range] at lengths
  exact absurd lengths (by decide)

end World
end TcAlloc
