import TcAlloc.Shelves
import TcAlloc.PageCache

/-!
What the allocator has in stock, apart from how it is kept: the spans taken from
the page cache with what they are carved into (`Extent`), who has each of them
(`Home`), and where each object is (`Place`). An object is at one place by
construction; `Valid` says that places and homes agree, that spans do not meet,
and that the live blocks are the objects handed out. The operations are those of
the allocator as a whole: taking, carving, moving, handing out, giving back.
-/
namespace TcAlloc

/-- The pages of a span and the size of its objects. -/
structure Extent where
  pageId : Nat
  n : Nat
  objSize : Nat

def Span.extent (s : Span) : Extent := ⟨s.pageId,s.n,s.objSize⟩

namespace Extent

def base (e : Extent) : Nat := e.pageId * 2 ^ pageShift
def bytes (e : Extent) : Nat := e.n * 2 ^ pageShift
/-- The number of objects carved: the one that would end where the span does is left out. -/
def count (e : Extent) : Nat := max 1 ((e.bytes - 1) / e.objSize)
def objects (e : Extent) : List Nat := (List.range e.count).map (fun j => e.base + j * e.objSize)

/-- An object holds a pointer, keeps the next one aligned, and fits. -/
structure Sound (e : Extent) : Prop where
  word : 8 ≤ e.objSize
  aligned : 8 ∣ e.objSize
  fits : e.objSize ≤ e.bytes

/-- Two extents share no byte. -/
def Apart (e f : Extent) : Prop := e.base + e.bytes ≤ f.base ∨ f.base + f.bytes ≤ e.base

variable {e f : Extent} {x y : Nat}

theorem mem_objects : x ∈ e.objects ↔ ∃ j, j < e.count ∧ e.base + j * e.objSize = x := by
  simp [objects]

theorem count_pos (e : Extent) : 0 < e.count := lt_of_lt_of_le Nat.one_pos (le_max_left _ _)

theorem base_mem (e : Extent) : e.base ∈ e.objects := mem_objects.mpr ⟨0,e.count_pos,by simp⟩

theorem object_inside (sound : e.Sound) (mem : x ∈ e.objects) : e.base ≤ x ∧ x + e.objSize ≤ e.base + e.bytes := by
  obtain ⟨j,small,rfl⟩ := mem_objects.mp mem
  have fits := sound.fits
  have word := sound.word
  refine ⟨Nat.le_add_right _ _,?_⟩
  by_cases first : j = 0
  · subst first; omega
  · have quotient : j + 1 ≤ (e.bytes - 1) / e.objSize := by
      rcases lt_max_iff.mp small with one | many
      · omega
      · exact many
    have product := (Nat.le_div_iff_mul_le (by omega)).mp quotient
    rw [Nat.add_mul] at product
    omega

theorem objects_apart (hx : x ∈ e.objects) (hy : y ∈ e.objects) (ne : x ≠ y) :
    x + e.objSize ≤ y ∨ y + e.objSize ≤ x := by
  obtain ⟨i,_,rfl⟩ := mem_objects.mp hx
  obtain ⟨j,_,rfl⟩ := mem_objects.mp hy
  rcases Nat.lt_trichotomy i j with lower | same | upper
  · have := Nat.mul_le_mul_right e.objSize (show i + 1 ≤ j from lower)
    rw [Nat.add_mul] at this
    exact .inl (by omega)
  · exact absurd (by rw [same]) ne
  · have := Nat.mul_le_mul_right e.objSize (show j + 1 ≤ i from upper)
    rw [Nat.add_mul] at this
    exact .inr (by omega)

theorem objects_nodup (sound : e.Sound) : e.objects.Nodup := by
  have word := sound.word
  refine List.Nodup.map (fun i j same => ?_) List.nodup_range
  exact Nat.eq_of_mul_eq_mul_right (by omega) (Nat.add_left_cancel same)

theorem objects_aligned (sound : e.Sound) (mem : x ∈ e.objects) : 8 ∣ x := by
  obtain ⟨j,_,rfl⟩ := mem_objects.mp mem
  have shift : (2 : Nat) ^ pageShift = 8 * 1024 := rfl
  refine Nat.dvd_add ?_ (Dvd.dvd.mul_left sound.aligned j)
  rw [base,shift]
  exact ⟨e.pageId * 1024,by ring⟩

/-- A span with one object as long as itself. -/
theorem objects_single (sound : e.Sound) (all : e.objSize = e.bytes) : e.objects = [e.base] := by
  have word := sound.word
  have none : (e.bytes - 1) / e.objSize = 0 := Nat.div_eq_of_lt (by omega)
  simp [objects,count,none]

end Extent

/-- Who has a span that the page cache handed out. -/
inductive Home where
  /-- The list of a bucket. -/
  | listed (index : Nat)
  /-- Nobody: it is one block. -/
  | large
  /-- A thread, while it carves the span or gives it back. -/
  | held (t : Nat)
  deriving DecidableEq

/-- Where an object is. -/
inductive Place where
  | nowhere
  /-- The free list of its span. -/
  | free (span : Nat)
  /-- A list of a thread cache. -/
  | cached (tc index : Nat)
  /-- The hands of a thread. -/
  | transit (t : Nat)
  | live
  deriving DecidableEq

/-- The places that the objects of the span `S` can be at while it is at home `h`. -/
def Suits (S : Nat) (h : Home) : Place → Prop
  | .nowhere => False
  | .free T => T = S ∧ h ≠ .large
  | .cached _ index => h = .listed index
  | .transit _ => ∀ t, h ≠ .held t
  | .live => ∀ t, h ≠ .held t

/-- The spans in use with their homes, the places of the objects, and the thread
    cache that each thread has. -/
structure Stock where
  home : Nat → Option Home
  extent : Nat → Extent
  place : Nat → Place
  cache : Nat → Nat

namespace Stock

/-- The stock when the program starts. -/
def start : Stock := ⟨fun _ => none,fun _ => ⟨0,0,0⟩,fun _ => .nowhere,fun _ => 0⟩

/-- The object `x` belongs to the span `S` in use, and has `size` bytes. -/
structure Owns (g : Stock) (S x size : Nat) : Prop where
  home : g.home S ≠ none
  mem : x ∈ (g.extent S).objects
  size : (g.extent S).objSize = size

/-- Places and homes agree; `live` are the live blocks with the sizes asked for. -/
structure Valid (b : Build) (g : Stock) (live : List (Nat × Nat)) : Prop where
  sound : ∀ S, g.home S ≠ none → (g.extent S).Sound
  classed : ∀ S i, g.home S = some (.listed i) → i < SizeClass.nfreelists b.midAlignShift ∧
    (g.extent S).objSize = SizeClass.classSize b.midAlignShift i ∧
    (g.extent S).n = SizeClass.numMovePage (g.extent S).objSize
  large : ∀ S, g.home S = some .large → maxBytes < (g.extent S).objSize ∧ (g.extent S).objSize = (g.extent S).bytes
  apart : ∀ S T, g.home S ≠ none → g.home T ≠ none → S ≠ T → (g.extent S).Apart (g.extent T)
  placed : ∀ x, g.place x ≠ .nowhere → ∃ S h, g.home S = some h ∧ x ∈ (g.extent S).objects ∧ Suits S h (g.place x)
  whole : ∀ S i, g.home S = some (.listed i) → ∀ x ∈ (g.extent S).objects, g.place x ≠ .nowhere
  blocks : ∀ p size, (p,size) ∈ live → g.place p = .live ∧ ∃ S, g.Owns S p (SizeClass.roundUp b.midAlignShift size)
  keys : (live.map Prod.fst).Nodup
  served : ∀ x, g.place x = .live → ∃ size, (x,size) ∈ live

theorem valid_start (b : Build) : Valid b start [] := by
  constructor <;> simp [start]

section
variable {b : Build} {g g' : Stock} {live : List (Nat × Nat)} {S T x y z : Nat} {h : Home}

/-- Objects of spans in use do not overlap. -/
theorem Valid.objects_apart (valid : g.Valid b live) (hS : g.home S ≠ none) (hT : g.home T ≠ none)
    (hx : x ∈ (g.extent S).objects)
    (hy : y ∈ (g.extent T).objects) (ne : x ≠ y) : x + (g.extent S).objSize ≤ y ∨ y + (g.extent T).objSize ≤ x := by
  by_cases same : S = T
  · subst same; exact Extent.objects_apart hx hy ne
  · have := Extent.object_inside (valid.sound S hS) hx
    have := Extent.object_inside (valid.sound T hT) hy
    rcases valid.apart S T hS hT same with left | right
    · exact .inl (by omega)
    · exact .inr (by omega)

/-- An object belongs to one span. -/
theorem Valid.owner_unique (valid : g.Valid b live) (hS : g.home S ≠ none) (hT : g.home T ≠ none)
    (hx : x ∈ (g.extent S).objects)
    (hy : x ∈ (g.extent T).objects) : S = T := by
  by_contra ne
  have := (valid.sound S hS).word
  have := (valid.sound T hT).word
  have := Extent.object_inside (valid.sound S hS) hx
  have := Extent.object_inside (valid.sound T hT) hy
  rcases valid.apart S T hS hT ne with left | right <;> omega

/-- The place of an object suits the home of its span. -/
theorem Valid.suits (valid : g.Valid b live) (hS : g.home S = some h) (mem : x ∈ (g.extent S).objects)
    (somewhere : g.place x ≠ .nowhere) :
    Suits S h (g.place x) := by
  obtain ⟨T,h',hT,mem',suits⟩ := valid.placed x somewhere
  have same := valid.owner_unique (by rw [hS]; simp) (by rw [hT]; simp) mem mem'
  subst same
  rw [hS] at hT; cases hT
  exact suits

/-- An object on the list of a span is one of the span. -/
theorem Valid.free_mem (valid : g.Valid b live) (here : g.place x = .free S) : g.home S ≠ none ∧
    x ∈ (g.extent S).objects := by
  obtain ⟨T,h,home,mem,suits⟩ := valid.placed x (by rw [here]; simp)
  rw [here] at suits
  rw [suits.1]
  exact ⟨by rw [home]; simp,mem⟩

theorem Valid.words_apart (valid : g.Valid b live) (hx : g.place x ≠ .nowhere) (hy : g.place y ≠ .nowhere) (ne : x ≠ y) :
    Memory.Apart x y := by
  obtain ⟨S,_,hS,memx,_⟩ := valid.placed x hx
  obtain ⟨T,_,hT,memy,_⟩ := valid.placed y hy
  have homeS : g.home S ≠ none := by rw [hS]; simp
  have homeT : g.home T ≠ none := by rw [hT]; simp
  have := (valid.sound S homeS).word
  have := (valid.sound T homeT).word
  rcases valid.objects_apart homeS homeT memx memy ne with left | right
  · exact .inl (by omega)
  · exact .inr (by omega)

theorem Valid.spread (valid : g.Valid b live) {l : List Nat} (somewhere : ∀ x ∈ l, g.place x ≠ .nowhere) : Spread l :=
  fun x hx y hy ne => valid.words_apart (somewhere x hx) (somewhere y hy) ne

/-! ### Operations -/

/-- Objects moved to another place. -/
def move (g : Stock) (A : List Nat) (q : Place) : Stock := { g with place := moved g.place A q }
/-- A span taken from the page cache, with the objects `A` at the place `q`. -/
def add (g : Stock) (S : Nat) (e : Extent) (h : Home) (A : List Nat) (q : Place) : Stock :=
  { g with home := Function.update g.home S (some h), extent := Function.update g.extent S e, place := moved g.place A q }
/-- A span with another home. -/
def rehome (g : Stock) (S : Nat) (h : Home) : Stock := { g with home := Function.update g.home S (some h) }
/-- A span given back to the page cache. -/
def drop (g : Stock) (S : Nat) : Stock :=
  { g with home := Function.update g.home S none, place := moved g.place (g.extent S).objects .nowhere }

/-- A span that has its home already. -/
theorem rehome_self {h : Home} (home : g.home S = some h) : g.rehome S h = g := by
  rw [rehome,← home,Function.update_eq_self]

/-- Objects that are not live go from hand to hand. -/
theorem Valid.move (valid : g.Valid b live) {A : List Nat} {q : Place} (notLive : q ≠ .live)
    (away : ∀ x ∈ A, g.place x ≠ .live)
    (fit : ∀ x ∈ A, ∃ S h, g.home S = some h ∧ x ∈ (g.extent S).objects ∧ Suits S h q) : (g.move A q).Valid b live := by
  have stays : ∀ x, g.place x = .live → moved g.place A q x = .live := fun x here =>
    (moved_of_not_mem (fun mem => away x mem here)).trans here
  refine { valid with
    placed := fun x somewhere => ?_
    whole := fun S i hS x mem => ?_
    blocks := fun p size mem => ?_
    served := fun x here => ?_ }
  · by_cases mem : x ∈ A
    · simp only [Stock.move,moved_of_mem mem]; exact fit x mem
    · simp only [Stock.move,moved_of_not_mem mem] at somewhere ⊢; exact valid.placed x somewhere
  · by_cases inA : x ∈ A
    · obtain ⟨T,h,_,_,suits⟩ := fit x inA
      simp only [Stock.move,moved_of_mem inA]
      rintro rfl; exact suits
    · simp only [Stock.move,moved_of_not_mem inA]; exact valid.whole S i hS x mem
  · exact ⟨stays p (valid.blocks p size mem).1,(valid.blocks p size mem).2.imp
      (fun S owns => ⟨owns.home,owns.mem,owns.size⟩)⟩
  · by_cases inA : x ∈ A
    · simp only [Stock.move,moved_of_mem inA] at here; exact absurd here notLive
    · simp only [Stock.move,moved_of_not_mem inA] at here; exact valid.served x here

/-- Objects of the lists of thread caches go into the hands of a thread. -/
theorem Valid.withdraw (valid : g.Valid b live) {A : List Nat} (t : Nat) (here : ∀ x ∈ A, ∃ tc i, g.place x = .cached tc i) :
    (g.move A (.transit t)).Valid b live := by
  refine valid.move nofun (fun x mem => ?_) (fun x mem => ?_)
  · obtain ⟨tc,i,at_list⟩ := here x mem
    rw [at_list]; simp
  · obtain ⟨tc,i,at_list⟩ := here x mem
    obtain ⟨S,h,home,inS,suits⟩ := valid.placed x (by rw [at_list]; simp)
    rw [at_list] at suits
    exact ⟨S,h,home,inS,fun u held => by rw [show h = .listed i from suits] at held; cases held⟩

/-- An object that a thread has in its hands is a large block, or belongs to a span in
    the bucket of its class. -/
theorem Valid.transit_home (valid : g.Valid b live) {t size : Nat} (here : g.place x = .transit t) (owns : g.Owns S x size) :
    (g.home S = some .large ∧ maxBytes < size) ∨
      ∃ i, g.home S = some (.listed i) ∧ i < SizeClass.nfreelists b.midAlignShift ∧
      size = SizeClass.classSize b.midAlignShift i := by
  cases home : g.home S with
  | none => exact absurd home owns.home
  | some h =>
    have suits := valid.suits home owns.mem (by rw [here]; simp)
    rw [here] at suits
    cases h with
    | held u => exact absurd rfl (suits u)
    | large =>
      have big := (valid.large S home).1
      rw [owns.size] at big
      exact .inl ⟨rfl,big⟩
    | listed i =>
      obtain ⟨inside,objSize,_⟩ := valid.classed S i home
      rw [owns.size] at objSize
      exact .inr ⟨i,rfl,inside,objSize⟩

theorem Valid.class_home (valid : g.Valid b live) {t i : Nat} (inside : i < SizeClass.nfreelists b.midAlignShift)
    (here : g.place x = .transit t) (owns : g.Owns S x (SizeClass.classSize b.midAlignShift i)) :
    g.home S = some (.listed i) := by
  rcases valid.transit_home here owns with ⟨_,large⟩ | ⟨j,home,inside',same⟩
  · have small := SizeClass.classSize_le b.coarse inside
    omega
  · rw [← SizeClass.index_classSize b.coarse inside,same,SizeClass.index_classSize b.coarse inside']
    exact home

/-- Objects of a class in the hands of a thread go onto a list for the class. -/
theorem Valid.deposit (valid : g.Valid b live) {A : List Nat} {t i : Nat} (tc : Nat)
    (inside : i < SizeClass.nfreelists b.midAlignShift)
    (here : ∀ x ∈ A, g.place x = .transit t) (sized : ∀ x ∈ A, ∃ S, g.Owns S x (SizeClass.classSize b.midAlignShift i)) :
    (g.move A (.cached tc i)).Valid b live := by
  refine valid.move nofun (fun x mem => by rw [here x mem]; simp) (fun x mem => ?_)
  obtain ⟨S,owns⟩ := sized x mem
  exact ⟨S,_,valid.class_home inside (here x mem) owns,owns.mem,rfl⟩

/-- A live block goes into the hands of the thread that frees it. -/
theorem Valid.take_back (valid : g.Valid b live) {p size t : Nat} (mem : (p,size) ∈ live) :
    (g.move [p] (.transit t)).Valid b (live.erase (p,size)) := by
  obtain ⟨here,S,owns⟩ := valid.blocks p size mem
  have nodup : live.Nodup := List.Nodup.of_map _ valid.keys
  have others : ∀ p' size', (p',size') ∈ live.erase (p,size) → p' ≠ p ∧ (p',size') ∈ live := by
    intro p' size' mem'
    obtain ⟨ne,old⟩ := (nodup.mem_erase_iff).mp mem'
    exact ⟨fun same => ne (List.inj_on_of_nodup_map valid.keys old mem same),old⟩
  refine { valid with
    placed := fun x somewhere => ?_
    whole := fun T i hT x inT => ?_
    blocks := fun p' size' mem' => ?_
    keys := valid.keys.sublist (List.erase_sublist.map _)
    served := fun x now => ?_ }
  · by_cases same : x ∈ [p]
    · cases List.mem_singleton.mp same
      obtain ⟨T,h,hT,inT,suits⟩ := valid.placed p (by rw [here]; simp)
      rw [here] at suits
      exact ⟨T,h,hT,inT,by simp only [Stock.move,moved_of_mem same]; exact suits⟩
    · simp only [Stock.move,moved_of_not_mem same] at somewhere ⊢; exact valid.placed x somewhere
  · by_cases same : x ∈ [p]
    · simp [Stock.move,moved_of_mem same]
    · simp only [Stock.move,moved_of_not_mem same]; exact valid.whole T i hT x inT
  · obtain ⟨ne,old⟩ := others p' size' mem'
    obtain ⟨live',T,owns'⟩ := valid.blocks p' size' old
    exact ⟨(moved_of_not_mem (by simp [ne])).trans live',T,owns'.home,owns'.mem,owns'.size⟩
  · by_cases same : x ∈ [p]
    · simp [Stock.move,moved_of_mem same] at now
    · simp only [Stock.move,moved_of_not_mem same] at now
      obtain ⟨size',old⟩ := valid.served x now
      exact ⟨size',(nodup.mem_erase_iff).mpr ⟨fun equal => same (by cases equal; simp),old⟩⟩

/-- An object in the hands of a thread becomes a live block. -/
theorem Valid.hand_out (valid : g.Valid b live) {p size t : Nat} (here : g.place p = .transit t)
    (owns : g.Owns S p (SizeClass.roundUp b.midAlignShift size)) : (g.move [p] .live).Valid b ((p,size) :: live) := by
  have fresh : ∀ p' size', (p',size') ∈ live → p' ≠ p := by
    rintro p' size' mem rfl
    rw [(valid.blocks p' size' mem).1] at here; cases here
  refine { valid with
    placed := fun x somewhere => ?_
    whole := fun T i hT x inT => ?_
    blocks := fun p' size' mem => ?_
    keys := ?_
    served := fun x now => ?_ }
  · by_cases same : x ∈ [p]
    · cases List.mem_singleton.mp same
      obtain ⟨T,h,hT,inT,suits⟩ := valid.placed p (by rw [here]; simp)
      rw [here] at suits
      exact ⟨T,h,hT,inT,by simp only [Stock.move,moved_of_mem same]; exact suits⟩
    · simp only [Stock.move,moved_of_not_mem same] at somewhere ⊢; exact valid.placed x somewhere
  · by_cases same : x ∈ [p]
    · simp [Stock.move,moved_of_mem same]
    · simp only [Stock.move,moved_of_not_mem same]; exact valid.whole T i hT x inT
  · rcases List.mem_cons.mp mem with new | old
    · cases new
      exact ⟨moved_of_mem (by simp),S,owns.home,owns.mem,owns.size⟩
    · obtain ⟨live',T,owns'⟩ := valid.blocks p' size' old
      exact ⟨(moved_of_not_mem (by simp [fresh p' size' old])).trans live',T,owns'.home,owns'.mem,owns'.size⟩
  · refine List.nodup_cons.mpr ⟨fun mem => ?_,valid.keys⟩
    obtain ⟨⟨p',size'⟩,old,same⟩ := List.mem_map.mp mem
    exact fresh p' size' old same
  · by_cases same : x ∈ [p]
    · cases List.mem_singleton.mp same; exact ⟨size,by simp⟩
    · simp only [Stock.move,moved_of_not_mem same] at now
      exact (valid.served x now).imp (fun _ mem => List.mem_cons_of_mem _ mem)

/-- What is placed belongs to a span in use. -/
theorem Valid.empty (valid : g.Valid b live) {e : Extent} (sound : e.Sound)
    (apart : ∀ T, g.home T ≠ none → e.Apart (g.extent T)) :
    ∀ x ∈ e.objects, g.place x = .nowhere := by
  intro x mem
  by_contra somewhere
  obtain ⟨T,_,hT,mem',_⟩ := valid.placed x somewhere
  have used : g.home T ≠ none := by rw [hT]; simp
  have := Extent.object_inside sound mem
  have := Extent.object_inside (valid.sound T used) mem'
  have := sound.word
  have := (valid.sound T used).word
  rcases apart T used with left | right <;> omega

/-- A span comes from the page cache, for a thread or as one block in its hands. -/
theorem Valid.add (valid : g.Valid b live) (unused : g.home S = none) {e : Extent} {A : List Nat}
    {q : Place} (sound : e.Sound)
    (apart : ∀ T, g.home T ≠ none → e.Apart (g.extent T)) (unlisted : ∀ i, h ≠ .listed i)
    (large : h = .large → maxBytes < e.objSize ∧ e.objSize = e.bytes) (notLive : q ≠ .live)
    (fit : ∀ x ∈ A, x ∈ e.objects ∧ Suits S h q) : (g.add S e h A q).Valid b live := by
  have ne_of : ∀ T, g.home T ≠ none → T ≠ S := fun T some same => some (same ▸ unused)
  have before : ∀ T, T ≠ S → (g.add S e h A q).home T = g.home T ∧ (g.add S e h A q).extent T = g.extent T := fun T ne =>
    ⟨Function.update_of_ne ne ..,Function.update_of_ne ne ..⟩
  have here : (g.add S e h A q).home S = some h ∧ (g.add S e h A q).extent S = e :=
    ⟨Function.update_self ..,Function.update_self ..⟩
  have empty := valid.empty sound apart
  have stays : ∀ x, g.place x ≠ .nowhere → moved g.place A q x = g.place x := fun x somewhere =>
    moved_of_not_mem (fun mem => somewhere (empty x (fit x mem).1))
  constructor
  · intro T used
    by_cases same : T = S
    · rw [same,here.2]; exact sound
    · rw [(before T same).1] at used
      rw [(before T same).2]; exact valid.sound T used
  · intro T i hT
    by_cases same : T = S
    · rw [same,here.1] at hT
      exact absurd (Option.some.inj hT) (unlisted i)
    · rw [(before T same).1] at hT
      rw [(before T same).2]; exact valid.classed T i hT
  · intro T hT
    by_cases same : T = S
    · rw [same,here.1] at hT
      rw [same,here.2]; exact large (Option.some.inj hT)
    · rw [(before T same).1] at hT
      rw [(before T same).2]; exact valid.large T hT
  · intro T T' hT hT' ne
    by_cases same : T = S
    · have other : T' ≠ S := fun same' => ne (same.trans same'.symm)
      rw [(before T' other).1] at hT'
      rw [same,here.2,(before T' other).2]; exact apart T' hT'
    · rw [(before T same).1] at hT
      rw [(before T same).2]
      by_cases same' : T' = S
      · rw [same',here.2]; exact (apart T hT).symm
      · rw [(before T' same').1] at hT'
        rw [(before T' same').2]; exact valid.apart T T' hT hT' ne
  · intro x somewhere
    by_cases mem : x ∈ A
    · exact ⟨S,h,here.1,by rw [here.2]; exact (fit x mem).1,by simp only [Stock.add,moved_of_mem mem]; exact (fit x mem).2⟩
    · simp only [Stock.add,moved_of_not_mem mem] at somewhere
      obtain ⟨T,h',hT,mem',suits⟩ := valid.placed x somewhere
      have other := before T (ne_of T (by rw [hT]; simp))
      exact ⟨T,h',other.1.trans hT,by rw [other.2]; exact mem',by simp only [Stock.add,moved_of_not_mem mem]; exact suits⟩
  · intro T i hT x mem
    have ne : T ≠ S := fun same => by rw [same,here.1] at hT; exact unlisted i (Option.some.inj hT)
    rw [(before T ne).1] at hT
    rw [(before T ne).2] at mem
    have somewhere := valid.whole T i hT x mem
    simp only [Stock.add,stays x somewhere]; exact somewhere
  · intro p size mem
    obtain ⟨live',T,owns⟩ := valid.blocks p size mem
    have other := before T (ne_of T owns.home)
    exact ⟨(stays p (by rw [live']; simp)).trans live',T,by rw [other.1]; exact owns.home,by rw [other.2]; exact owns.mem,
      by rw [other.2]; exact owns.size⟩
  · exact valid.keys
  · intro x now
    by_cases mem : x ∈ A
    · simp only [Stock.add,moved_of_mem mem] at now; exact absurd now notLive
    · simp only [Stock.add,moved_of_not_mem mem] at now; exact valid.served x now

/-- A span goes to a bucket or to a thread. -/
theorem Valid.rehome (valid : g.Valid b live) (used : g.home S ≠ none) (small : h ≠ .large)
    (classed : ∀ i, h = .listed i → i < SizeClass.nfreelists b.midAlignShift ∧
      (g.extent S).objSize = SizeClass.classSize b.midAlignShift i ∧
      (g.extent S).n = SizeClass.numMovePage (g.extent S).objSize)
    (whole : ∀ i, h = .listed i → ∀ x ∈ (g.extent S).objects, g.place x ≠ .nowhere)
    (fit : ∀ x ∈ (g.extent S).objects, g.place x ≠ .nowhere → Suits S h (g.place x)) : (g.rehome S h).Valid b live := by
  have here : (g.rehome S h).home S = some h := Function.update_self ..
  have other : ∀ T, T ≠ S → (g.rehome S h).home T = g.home T := fun T ne => Function.update_of_ne ne ..
  have still : ∀ T, (g.rehome S h).home T ≠ none ↔ g.home T ≠ none := by
    intro T
    by_cases same : T = S
    · subst same; simp [here,used]
    · rw [other T same]
  refine { valid with
    sound := fun T hT => valid.sound T ((still T).mp hT)
    classed := fun T i hT => ?_
    large := fun T hT => ?_
    apart := fun T T' hT hT' => valid.apart T T' ((still T).mp hT) ((still T').mp hT')
    placed := fun x somewhere => ?_
    whole := fun T i hT => ?_
    blocks := fun p size mem => ?_ }
  · by_cases same : T = S
    · subst same
      rw [here] at hT
      exact classed i (Option.some.inj hT)
    · rw [other T same] at hT; exact valid.classed T i hT
  · by_cases same : T = S
    · rw [same,here] at hT; exact absurd (Option.some.inj hT) small
    · rw [other T same] at hT; exact valid.large T hT
  · obtain ⟨T,h',hT,mem,suits⟩ := valid.placed x somewhere
    by_cases same : T = S
    · subst same; exact ⟨T,h,here,mem,fit x mem somewhere⟩
    · exact ⟨T,h',(other T same).trans hT,mem,suits⟩
  · by_cases same : T = S
    · subst same
      rw [here] at hT
      exact whole i (Option.some.inj hT)
    · rw [other T same] at hT; exact valid.whole T i hT
  · obtain ⟨live',T,owns⟩ := valid.blocks p size mem
    exact ⟨live',T,(still T).mpr owns.home,owns.mem,owns.size⟩

/-- A span that a thread has carved goes to the bucket of its class. -/
theorem Valid.enlist (valid : g.Valid b live) {t i : Nat} (home : g.home S = some h) (before : h = .held t ∨ h = .listed i)
    (inside : i < SizeClass.nfreelists b.midAlignShift) (size : (g.extent S).objSize = SizeClass.classSize b.midAlignShift i)
    (n : (g.extent S).n = SizeClass.numMovePage (g.extent S).objSize)
    (whole : ∀ x ∈ (g.extent S).objects, g.place x ≠ .nowhere) :
    (g.rehome S (.listed i)).Valid b live := by
  refine valid.rehome (by rw [home]; simp) nofun (fun j same => ?_) (fun _ _ => whole) (fun x mem somewhere => ?_)
  · cases same; exact ⟨inside,size,n⟩
  · have suits := valid.suits home mem somewhere
    cases here : g.place x with
    | nowhere => exact absurd here somewhere
    | free T => rw [here] at suits; exact ⟨suits.1,nofun⟩
    | cached tc j =>
      rw [here] at suits
      rcases before with rfl | rfl <;> cases suits
      rfl
    | transit u => exact nofun
    | live => exact nofun

/-- A span without live blocks goes back to the page cache. -/
theorem Valid.drop (valid : g.Valid b live) (used : g.home S ≠ none)
    (unserved : ∀ x ∈ (g.extent S).objects, g.place x ≠ .live) :
    (g.drop S).Valid b live := by
  have here : (g.drop S).home S = none := Function.update_self ..
  have other : ∀ T, T ≠ S → (g.drop S).home T = g.home T := fun T ne => Function.update_of_ne ne ..
  have still : ∀ T, (g.drop S).home T ≠ none → T ≠ S ∧ g.home T ≠ none := by
    intro T hT
    by_cases same : T = S
    · rw [same,here] at hT; exact absurd rfl hT
    · rw [other T same] at hT; exact ⟨same,hT⟩
  have away : ∀ T x, T ≠ S → g.home T ≠ none → x ∈ (g.extent T).objects →
    x ∉ (g.extent S).objects := fun T x ne hT mem inS =>
    ne (valid.owner_unique hT used mem inS)
  constructor
  · exact fun T hT => valid.sound T (still T hT).2
  · intro T i hT
    have ne := (still T (by rw [hT]; simp)).1
    rw [other T ne] at hT; exact valid.classed T i hT
  · intro T hT
    have ne := (still T (by rw [hT]; simp)).1
    rw [other T ne] at hT; exact valid.large T hT
  · exact fun T T' hT hT' => valid.apart T T' (still T hT).2 (still T' hT').2
  · intro x somewhere
    by_cases mem : x ∈ (g.extent S).objects
    · simp only [Stock.drop,moved_of_mem mem] at somewhere; exact absurd rfl somewhere
    · simp only [Stock.drop,moved_of_not_mem mem] at somewhere ⊢
      obtain ⟨T,h,hT,mem',suits⟩ := valid.placed x somewhere
      exact ⟨T,h,(other T (fun same => mem (same ▸ mem'))).trans hT,mem',suits⟩
  · intro T i hT x mem
    obtain ⟨ne,hT'⟩ := still T (by rw [hT]; simp)
    rw [other T ne] at hT
    simp only [Stock.drop,moved_of_not_mem (away T x ne hT' mem)]
    exact valid.whole T i hT x mem
  · intro p size mem
    obtain ⟨live',T,owns⟩ := valid.blocks p size mem
    have out : p ∉ (g.extent S).objects := fun inS => unserved p inS live'
    have ne : T ≠ S := fun same => out (same ▸ owns.mem)
    exact ⟨(moved_of_not_mem out).trans live',T,by rw [other T ne]; exact owns.home,owns.mem,owns.size⟩
  · exact valid.keys
  · intro x now
    by_cases mem : x ∈ (g.extent S).objects
    · simp only [Stock.drop,moved_of_mem mem] at now; cases now
    · simp only [Stock.drop,moved_of_not_mem mem] at now; exact valid.served x now

end

/-! ### What a thread leaves alone -/

/-- The object is in the hands of another thread than `t`, or on the free list of
    a span that another thread holds. -/
def Foreign (t : Nat) (g : Stock) (x : Nat) : Prop :=
  (∃ u, u ≠ t ∧ g.place x = .transit u) ∨ ∃ u S, u ≠ t ∧ g.home S = some (.held u) ∧ g.place x = .free S

/-- Thread `t` has changed the stock, but nothing that another thread has. -/
structure Leaves (t : Nat) (g g' : Stock) : Prop where
  cache : ∀ u, u ≠ t → g'.cache u = g.cache u
  foreign : ∀ x, Foreign t g x ∨ Foreign t g' x → g'.place x = g.place x
  held : ∀ u S, u ≠ t → (g'.home S = some (.held u) ↔ g.home S = some (.held u))
  extent : ∀ u S, u ≠ t → g.home S = some (.held u) → g'.extent S = g.extent S
  owned : ∀ u x S, u ≠ t → g.place x = .transit u → g.home S ≠ none → x ∈ (g.extent S).objects →
    g'.home S ≠ none ∧ g'.extent S = g.extent S

section
variable {t : Nat} {g g' g'' : Stock}

theorem Leaves.refl (t : Nat) (g : Stock) : Leaves t g g :=
  ⟨fun _ _ => rfl,fun _ _ => rfl,fun _ _ _ => Iff.rfl,fun _ _ _ _ => rfl,fun _ _ _ _ _ home _ => ⟨home,rfl⟩⟩

theorem Leaves.foreign_iff (leaves : Leaves t g g') (x : Nat) : Foreign t g' x ↔ Foreign t g x := by
  constructor
  · intro far
    have same := leaves.foreign x (.inr far)
    rcases far with ⟨u,ne,there⟩ | ⟨u,S,ne,home,there⟩
    · exact .inl ⟨u,ne,same ▸ there⟩
    · exact .inr ⟨u,S,ne,(leaves.held u S ne).mp home,same ▸ there⟩
  · intro far
    have same := leaves.foreign x (.inl far)
    rcases far with ⟨u,ne,there⟩ | ⟨u,S,ne,home,there⟩
    · exact .inl ⟨u,ne,same.trans there⟩
    · exact .inr ⟨u,S,ne,(leaves.held u S ne).mpr home,same.trans there⟩

theorem Leaves.trans (first : Leaves t g g') (second : Leaves t g' g'') : Leaves t g g'' := by
  refine ⟨fun u ne => (second.cache u ne).trans (first.cache u ne),fun x far => ?_,
    fun u S ne => (second.held u S ne).trans (first.held u S ne),fun u S ne home => ?_,fun u x S ne here home mem => ?_⟩
  · have mid : Foreign t g' x := by
      rcases far with far | far
      · exact (first.foreign_iff x).mpr far
      · exact (second.foreign_iff x).mp far
    exact (second.foreign x (.inl mid)).trans (first.foreign x (.inr mid))
  · exact (second.extent u S ne ((first.held u S ne).mpr home)).trans (first.extent u S ne home)
  · obtain ⟨home',same⟩ := first.owned u x S ne here home mem
    obtain ⟨home'',same'⟩ := second.owned u x S ne ((first.foreign x (.inl (.inl ⟨u,ne,here⟩))).trans here)
      home' (by rw [same]; exact mem)
    exact ⟨home'',same'.trans same⟩

/-- Another thread's objects stay those of their spans. -/
theorem Leaves.owns (leaves : Leaves t g g') {u x S size : Nat} (ne : u ≠ t)
    (here : g.place x = .transit u) (owns : g.Owns S x size) :
    g'.Owns S x size := by
  obtain ⟨home,same⟩ := leaves.owned u x S ne here owns.home owns.mem
  exact ⟨home,by rw [same]; exact owns.mem,by rw [same]; exact owns.size⟩

/-- Another thread's objects stay in its hands. -/
theorem Leaves.transit (leaves : Leaves t g g') {u : Nat} (ne : u ≠ t) (x : Nat) : g'.place x = .transit u ↔
    g.place x = .transit u := by
  constructor
  · exact fun there => leaves.foreign x (.inr (.inl ⟨u,ne,there⟩)) ▸ there
  · exact fun there => (leaves.foreign x (.inl (.inl ⟨u,ne,there⟩))).trans there

/-- The free list of a span that another thread holds stays. -/
theorem Leaves.free (leaves : Leaves t g g') {u S : Nat} (ne : u ≠ t) (home : g.home S = some (.held u)) (x : Nat) :
    g'.place x = .free S ↔ g.place x = .free S := by
  constructor
  · exact fun there => leaves.foreign x (.inr (.inr ⟨u,S,ne,(leaves.held u S ne).mpr home,there⟩)) ▸ there
  · exact fun there => (leaves.foreign x (.inl (.inr ⟨u,S,ne,home,there⟩))).trans there

/-- Objects of nobody else are moved to a place of nobody else. -/
theorem Leaves.move {A : List Nat} {q : Place} (mine : ∀ x ∈ A, ¬ Foreign t g x)
    (still : ∀ x ∈ A, ¬ Foreign t (g.move A q) x) :
    Leaves t g (g.move A q) := by
  refine ⟨fun _ _ => rfl,fun x far => moved_of_not_mem (fun mem => ?_),fun _ _ _ => Iff.rfl,fun _ _ _ _ => rfl,
    fun _ _ _ _ _ home _ => ⟨home,rfl⟩⟩
  exact far.elim (mine x mem) (still x mem)

/-- A span that nobody had is taken. -/
theorem Leaves.add {S : Nat} {e : Extent} {h : Home} {A : List Nat} (unused : g.home S = none)
    (own : ∀ u, u ≠ t → h ≠ .held u)
    (empty : ∀ x ∈ A, g.place x = .nowhere) : Leaves t g (g.add S e h A (.transit t)) := by
  have ne_of : ∀ T o, g.home T = some o → T ≠ S := fun T o some same => by rw [same,unused] at some; cases some
  have other : ∀ T, T ≠ S → (g.add S e h A (.transit t)).home T = g.home T ∧
    (g.add S e h A (.transit t)).extent T = g.extent T :=
    fun T ne => ⟨Function.update_of_ne ne ..,Function.update_of_ne ne ..⟩
  have held : ∀ u T, u ≠ t → ((g.add S e h A (.transit t)).home T = some (.held u) ↔ g.home T = some (.held u)) := by
    intro u T ne
    by_cases same : T = S
    · rw [same,unused]
      simp [Stock.add,own u ne]
    · rw [(other T same).1]
  refine ⟨fun _ _ => rfl,fun x far => moved_of_not_mem (fun mem => ?_),held,fun u T _ home => (other T (ne_of T _ home)).2,
    fun u x T _ _ home _ => ?_⟩
  · rcases far with (⟨u,_,there⟩ | ⟨u,T,_,_,there⟩) | (⟨u,ne,there⟩ | ⟨u,T,_,_,there⟩)
    · rw [empty x mem] at there; cases there
    · rw [empty x mem] at there; cases there
    · simp only [Stock.add,moved_of_mem mem] at there
      cases there; exact ne rfl
    · simp only [Stock.add,moved_of_mem mem] at there; cases there
  · have here := other T (fun same => home (same ▸ unused))
    exact ⟨by rw [here.1]; exact home,here.2⟩

/-- A span of nobody else changes its home. -/
theorem Leaves.rehome {S : Nat} {h₀ h : Home} (used : g.home S = some h₀) (before : ∀ u, u ≠ t → h₀ ≠ .held u)
    (after : ∀ u, u ≠ t → h ≠ .held u) : Leaves t g (g.rehome S h) := by
  have other : ∀ T, T ≠ S → (g.rehome S h).home T = g.home T := fun T ne => Function.update_of_ne ne ..
  refine ⟨fun _ _ => rfl,fun _ _ => rfl,fun u T ne => ?_,fun _ _ _ _ => rfl,fun u x T _ _ home _ => ⟨?_,rfl⟩⟩
  · by_cases same : T = S
    · rw [same,used]
      simp [Stock.rehome,before u ne,after u ne]
    · rw [other T same]
  · by_cases same : T = S
    · simp [same,Stock.rehome]
    · rw [other T same]; exact home

/-- A span of nobody else goes back to the page cache. -/
theorem Leaves.drop {S : Nat} {h₀ : Home} (used : g.home S = some h₀) (before : ∀ u, u ≠ t → h₀ ≠ .held u)
    (mine : ∀ x ∈ (g.extent S).objects, ¬ Foreign t g x) : Leaves t g (g.drop S) := by
  have other : ∀ T, T ≠ S → (g.drop S).home T = g.home T := fun T ne => Function.update_of_ne ne ..
  refine ⟨fun _ _ => rfl,fun x far => moved_of_not_mem (fun mem => ?_),fun u T ne => ?_,fun _ _ _ _ => rfl,
    fun u x T ne there home mem => ⟨?_,rfl⟩⟩
  · rcases far with far | (⟨u,_,there⟩ | ⟨u,T,_,_,there⟩)
    · exact mine x mem far
    · simp only [Stock.drop,moved_of_mem mem] at there; cases there
    · simp only [Stock.drop,moved_of_mem mem] at there; cases there
  · by_cases same : T = S
    · rw [same,used]
      simp [Stock.drop,before u ne]
    · rw [other T same]
  · rw [other T (fun same => mine x (same ▸ mem) (.inl ⟨u,ne,there⟩))]
    exact home

end
end Stock
end TcAlloc
