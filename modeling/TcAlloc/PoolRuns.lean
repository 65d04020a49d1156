import TcAlloc.ObjectPool
import TcAlloc.Shelves

/-!
The object pool down to its memory: the free list is threaded through the deleted
objects, each holding the next one in its first word, and whoever has an object
may write into it. The runs are those of calls of `New` and of `Delete` on objects
in use, in any order; the lists of the objects in use and of those deleted and not
handed out again are kept beside the state, and no code reads them.
-/
namespace TcAlloc
namespace LinkedPool
open ObjectPool

/-- `ObjectPool<T>`, the memory its objects are in, and the system. -/
structure State where
  memory : Nat := 0
  freeList : Nat := 0
  remainBytes : Nat := 0
  mem : Memory
  os : OS

def osPart : Lens State OS := ⟨fun s => s.os,fun s os => { s with os := os },fun _ _ => rfl,fun _ => rfl,fun _ _ _ => rfl⟩

/-- A new chunk, where the rest of the last one is too short. -/
def moreMemory (site : Site) (size remainBytes : Nat) : Code State Unit :=
  if remainBytes < size then do
    .modify (fun s => { s with remainBytes := chunkBytes })
    let memory ← (systemAlloc site (chunkBytes >>> 13)).zoom osPart
    .modify (fun s => { s with memory := memory })
  else pure ()

/-- The next object of the chunk. -/
def bump (size : Nat) : Code State Nat := do
  let obj ← .read (·.memory)
  .modify (fun s => { s with memory := s.memory + slot size, remainBytes := minus s.remainBytes (slot size) })
  return obj

/-- `New`, for objects of `size` bytes. -/
def new (mutex : Mutex) (site : Site) (size : Nat) : Code State Nat :=
  .locked mutex do
    let freeList ← .read (·.freeList)
    if freeList ≠ 0 then do
      .modify (fun s => { s with freeList := s.mem.load s.freeList })
      return freeList
    else do
      let remainBytes ← .read (·.remainBytes)
      moreMemory site size remainBytes
      bump size

/-- `Delete`: the link is written over the object. -/
def delete (mutex : Mutex) (obj : Nat) : Code State Unit :=
  .locked mutex (.modify (fun s => { s with mem := s.mem.store obj s.freeList, freeList := obj }))

/-! ### Runs -/

/-- The states that calls lead to, with the objects in use and the deleted ones. -/
inductive Reaches (mutex : Mutex) (site : Site) (size : Nat) : State → List Nat → List Nat → Prop
  /-- The pool when it is constructed, with no chunk yet. -/
  | start {mem : Memory} {os : OS} (system : os.Valid) (none : ∀ m ∈ os.mapped, m.site ≠ site) :
      Reaches mutex site size { mem := mem, os := os } [] []
  | new {s s' : State} {live deleted : List Nat} {obj : Nat} {h : List Mutex}
      (before : Reaches mutex site size s live deleted)
      (run : Run (fun s q a => s.os.allows 1 q a) (new mutex site size,[],s) (.ret obj,h,s')) :
      Reaches mutex site size s' (obj :: live) (deleted.erase obj)
  | delete {s s' : State} {live deleted : List Nat} {obj : Nat} {h : List Mutex}
      (before : Reaches mutex site size s live deleted)
      (legal : obj ∈ live) (run : Run (fun s q a => s.os.allows 1 q a) (delete mutex obj,[],s) (.ret (),h,s')) :
      Reaches mutex site size s' (live.erase obj) (obj :: deleted)
  /-- The program, or a constructor or destructor, writes into objects in use. -/
  | write {s : State} {live deleted : List Nat} {mem : Memory} (before : Reaches mutex site size s live deleted)
      (own : ∀ y, mem y ≠ s.mem y → ∃ obj ∈ live, obj ≤ y ∧ y < obj + slot size) :
      Reaches mutex site size { s with mem := mem } live deleted

/-- The chunks of the pool, the current one first. -/
def chunks (site : Site) (os : OS) : List Mapping := os.mapped.filter (fun m => decide (m.site = site))

/-- What is left of the current chunk ends where the chunk does. -/
def AtEnd (memory remainBytes : Nat) : List Mapping → Prop
  | [] => memory = 0 ∧ remainBytes = 0
  | chunk :: _ => chunk.base ≤ memory ∧ memory + remainBytes = chunk.base + chunk.len

/-- The memory-level pool represents the pool with the free list as a list. -/
structure Represents (site : Site) (size : Nat) (s : State) (live deleted : List Nat) : Prop where
  valid : ObjectPool.Valid site size ⟨s.memory,deleted,s.remainBytes,live⟩ s.os
  system : s.os.Valid
  chain : Chain s.mem s.freeList deleted
  whole : ∀ m ∈ chunks site s.os, m.len = chunkBytes
  atEnd : AtEnd s.memory s.remainBytes (chunks site s.os)

section
variable {mutex : Mutex} {site : Site} {size : Nat} {s : State} {live deleted : List Nat}

theorem Represents.apart (r : Represents site size s live deleted) {x y : Nat} (hx : x ∈ live ++ deleted)
    (hy : y ∈ live ++ deleted) (ne : x ≠ y) : x + slot size ≤ y ∨ y + slot size ≤ x := by
  have symmetric : Std.Symm (fun p q => p + slot size ≤ q ∨ q + slot size ≤ p) := ⟨fun _ _ => Or.symm⟩
  exact r.valid.distinct.forall hx hy ne

theorem Represents.words (r : Represents site size s live deleted) {x y : Nat} (hx : x ∈ live ++ deleted)
    (hy : y ∈ live ++ deleted) (ne : x ≠ y) : Memory.Apart x y := by
  have := slot_pos size
  rcases r.apart hx hy ne with before | after
  · exact .inl (by omega)
  · exact .inr (by omega)

theorem Represents.bounds (r : Represents site size s live deleted) {x : Nat} (mem : x ∈ live ++ deleted) :
    x ≠ 0 ∧ x < 2 ^ 48 := by
  obtain ⟨⟨m,mapped,_,low,high⟩,_⟩ := r.valid.slots x mem
  have bounds := r.system.nonempty m mapped
  have := slot_pos size
  omega

theorem Represents.head_small (r : Represents site size s live deleted) : s.freeList < 2 ^ 64 := by
  apply r.chain.head_lt (by decide)
  intro x mem
  have small := (r.bounds (x := x) (by simp [mem])).2
  omega

/-- Handing out a deleted object follows one link of the chain. -/
theorem Represents.reuse (r : Represents site size s live deleted) (some : s.freeList ≠ 0) :
    Represents site size { s with freeList := s.mem.load s.freeList } (s.freeList :: live) (deleted.erase s.freeList) := by
  obtain ⟨valid,system,chain,whole,atEnd⟩ := r
  obtain ⟨rest,rfl,tail⟩ := chain.of_ne_zero some
  rw [List.erase_cons_head]
  exact ⟨(valid.reuse rfl).1,system,tail,whole,atEnd⟩

/-- Carving leaves the end of what is left where it was. -/
theorem Represents.carve (r : Represents site size s live []) (enough : size ≤ s.remainBytes) :
    Represents site size { s with memory := s.memory + slot size, remainBytes := minus s.remainBytes (slot size) }
      (s.memory :: live) [] := by
  have carved := (r.valid.carve enough).1
  have positive := r.valid.size_pos
  have before := r.atEnd
  have fits : slot size ≤ s.remainBytes := by
    rw [slot]
    split_ifs with tiny
    · exact Nat.le_of_dvd (by omega) (r.valid.whole tiny)
    · exact enough
  have left : minus s.remainBytes (slot size) = s.remainBytes - slot size := by
    have bound := r.valid.rest.1
    have : chunkBytes = 131072 := rfl
    dsimp only at bound
    rw [minus]; omega
  refine ⟨carved,r.system,r.chain,r.whole,?_⟩
  dsimp only
  rw [left]
  cases list : chunks site s.os with
  | nil =>
    rw [list] at before
    have := before.2
    omega
  | cons chunk older =>
    rw [list] at before
    exact ⟨Nat.le_add_right_of_le before.1,by have := before.2; omega⟩

/-- A fresh chunk is the current one. -/
theorem Represents.chunk (r : Represents site size s live []) {base : Nat}
    (granted : OS.Grants 1 s.os (chunkBytes >>> 13) base) :
    Represents site size { s with
      remainBytes := chunkBytes
      os := s.os.grant site (chunkBytes >>> 13) base
      memory := base } live [] := by
  have length : (chunkBytes >>> 13) * 2 ^ pageShift = chunkBytes := by decide
  have more : chunks site (s.os.grant site (chunkBytes >>> 13) base) = ⟨base,chunkBytes,site⟩ :: chunks site s.os := by
    simp [chunks,OS.grant,length]
  refine ⟨r.valid.chunk granted,r.system.grant site granted,r.chain,?_,?_⟩
  · dsimp only
    rw [more]
    intro m mem
    rcases List.mem_cons.mp mem with rfl | old
    · rfl
    · exact r.whole m old
  · dsimp only
    rw [more]
    exact ⟨le_refl _,rfl⟩

/-- The link over a deleted object misses the other objects. -/
theorem Represents.delete (r : Represents site size s live deleted) {obj : Nat} (mem : obj ∈ live) :
    Represents site size { s with mem := s.mem.store obj s.freeList, freeList := obj }
    (live.erase obj) (obj :: deleted) := by
  refine ⟨r.valid.delete mem,r.system,?_,r.whole,r.atEnd⟩
  refine r.chain.push (r.bounds (by simp [mem])).1 r.head_small (fun x free => r.words (by simp [mem]) (by simp [free]) ?_)
  exact fun same => (List.nodup_append.mp r.valid.nodup).2.2 obj mem x free same

/-- What is written into objects in use changes no link. -/
theorem Represents.write (r : Represents site size s live deleted) {mem : Memory}
    (own : ∀ y, mem y ≠ s.mem y → ∃ obj ∈ live, obj ≤ y ∧ y < obj + slot size) :
    Represents site size { s with mem := mem } live deleted := by
  refine ⟨r.valid,r.system,r.chain.congr (fun x free => Memory.load_congr (fun y low high => ?_)),r.whole,r.atEnd⟩
  by_contra changed
  obtain ⟨obj,used,inside⟩ := own y changed
  have long := slot_pos size
  have ne : obj ≠ x := fun same => (List.nodup_append.mp r.valid.nodup).2.2 obj used x free same
  rcases r.apart (by simp [used]) (by simp [free]) ne with before | after <;> omega

/-! ### What New and Delete do -/

/-- The rules of a run with nobody watching. -/
def rules : Rules State Mutex Request (Option Nat) Event := ⟨fun s q a => s.os.allows 1 q a,fun _ _ _ _ => True⟩

theorem bump_wp {h : List Mutex} (r : Represents site size s live []) (enough : size ≤ s.remainBytes)
    {post : Nat → List Mutex → State → Prop} {thrown : List Mutex → State → Prop}
    (ends : ∀ s', Represents site size s' (s.memory :: live) [] → post s.memory h s') :
    wp rules (bump size) h s post thrown := by
  simp only [bump,wp_seq,wp_read,wp_modify,wp_pure]
  exact ⟨trivial,trivial,ends _ (r.carve enough)⟩

theorem moreMemory_wp {h : List Mutex} (r : Represents site size s live []) {post : Unit → List Mutex → State → Prop}
    {thrown : List Mutex → State → Prop} (ends : ∀ s', Represents site size s' live [] →
    size ≤ s'.remainBytes → post () h s') :
    wp rules (moreMemory site size s.remainBytes) h s post thrown := by
  rw [moreMemory]
  by_cases short : s.remainBytes < size
  · rw [if_pos short]
    simp only [wp_seq,wp_modify]
    refine ⟨trivial,?_⟩
    refine wp_zoom osPart (I := ⟨fun os q a => os.allows 1 q a,fun _ _ _ _ => True⟩)
      (P := fun base h' os => h' = h ∧ OS.Grants 1 s.os (chunkBytes >>> 13) base ∧
      os = s.os.grant site (chunkBytes >>> 13) base)
      (E := fun _ _ => False) (fun _ _ _ ok => ok) (fun _ _ _ _ _ => trivial) ?_ (fun _ _ impossible => impossible.elim)
      (systemAlloc_wp (fun _ ok => ok) (fun base granted => ⟨trivial,rfl,granted,rfl⟩))
    rintro base h' os ⟨rfl,granted,rfl⟩
    exact ⟨trivial,ends _ (r.chunk granted) r.valid.small⟩
  · rw [if_neg short]
    exact ends s r (by omega)

/-- `New` hands out an object, and asks for a chunk only if none was deleted. -/
theorem new_wp (r : Represents site size s live deleted) :
    wp rules (new mutex site size) [] s (fun obj h s' => h = [] ∧ Represents site size s' (obj :: live) (deleted.erase obj) ∧
      (s'.os = s.os ∨ deleted = [])) (fun _ _ => False) := by
  refine wp_locked mutex List.not_mem_nil trivial ?_
  simp only [wp_seq,wp_read]
  refine ⟨trivial,?_⟩
  by_cases some : s.freeList ≠ 0
  · rw [if_pos some]
    simp only [wp_seq,wp_modify,wp_pure]
    exact ⟨trivial,List.mem_cons_self,trivial,by simp,r.reuse some,.inl trivial⟩
  · rw [if_neg some]
    have none : deleted = [] := r.chain.head_eq_zero.mp (not_not.mp some)
    subst none
    simp only [wp_seq,wp_read]
    refine ⟨trivial,moreMemory_wp r (fun s' r' enough => bump_wp r' enough (fun s'' r'' => ?_))⟩
    exact ⟨List.mem_cons_self,trivial,by simp,r'',.inr trivial⟩

theorem delete_wp (r : Represents site size s live deleted) {obj : Nat} (mem : obj ∈ live) :
    wp rules (delete mutex obj) [] s (fun _ h s' => h = [] ∧ Represents site size s' (live.erase obj) (obj :: deleted))
      (fun _ _ => False) := by
  refine wp_locked mutex List.not_mem_nil trivial ?_
  rw [wp_modify]
  exact ⟨trivial,List.mem_cons_self,trivial,by simp,r.delete mem⟩

/-- Every state that calls lead to is represented. -/
theorem Reaches.represents (pos : 0 < size) (small : size ≤ chunkBytes) (reached : Reaches mutex site size s live deleted) :
    Represents site size s live deleted := by
  induction reached with
  | @start mem os system none =>
    have empty : chunks site os = [] := List.filter_eq_nil_iff.mpr (fun m mem => by simpa using none m mem)
    refine ⟨ObjectPool.valid_empty pos small,system,.nil,?_,?_⟩
    · dsimp only; rw [empty]; simp
    · dsimp only; rw [empty]; exact ⟨rfl,rfl⟩
  | new before run ih => exact (wp_run (R := rules) run (new_wp ih)).2.1
  | delete before legal run ih => exact (wp_run (R := rules) run (delete_wp ih legal)).2
  | write before own ih => exact ih.write own

/-- The bytes of an object's slot lie in one chunk. -/
def InOneChunk (site : Site) (os : OS) (obj len : Nat) : Prop :=
  ∃ chunk ∈ chunks site os, chunk.len = 128 * 1024 ∧ chunk.base ≤ obj ∧ obj + len ≤ chunk.base + chunk.len

/-- Slots in use are apart from each other and from the deleted ones, which the
    free list holds once each; what is left of the current chunk is counted
    exactly; a chunk is asked for only when the free list is empty. -/
theorem pool_sound (mutex : Mutex) (site : Site) (size : Nat) (pos : 1 ≤ size) (small : size ≤ 128 * 1024) {s : State}
    {live deleted : List Nat} (reached : Reaches mutex site size s live deleted) :
    (∀ obj ∈ live, InOneChunk site s.os obj (max size 8)) ∧
    (∀ obj ∈ live, ∀ other, other ∈ live ∨ other ∈ deleted → obj ≠ other →
      obj + max size 8 ≤ other ∨ other + max size 8 ≤ obj) ∧ (live ++ deleted).Nodup ∧
    Chain s.mem s.freeList deleted ∧
    AtEnd s.memory s.remainBytes (chunks site s.os) ∧ s.remainBytes ≤ 128 * 1024 ∧
    wp rules (new mutex site size) [] s (fun obj _ s' => obj ∉ live ∧ (s'.os = s.os ∨ deleted = [])) (fun _ _ => False) := by
  have r := reached.represents pos small
  have bytes : slot size = max size 8 := by rw [slot]; split_ifs <;> omega
  rw [← bytes]
  refine ⟨fun obj mem => ?_,fun obj mem other there => ?_,r.valid.nodup,r.chain,r.atEnd,r.valid.rest.1,?_⟩
  · obtain ⟨⟨m,mapped,at_site,low,high⟩,_⟩ := r.valid.slots obj (by simp [mem])
    have member : m ∈ chunks site s.os := List.mem_filter.mpr ⟨mapped,by simpa using at_site⟩
    exact ⟨m,member,r.whole m member,low,high⟩
  · exact r.apart (by simp [mem]) (by simpa using there)
  · refine wp_post (new_wp r) (fun obj _ s' ended => ⟨?_,ended.2.2⟩)
    exact (List.nodup_cons.mp (List.nodup_append.mp ended.2.1.valid.nodup).1).1

end

/-- Two objects of three bytes from one chunk, and the first of them deleted. -/
theorem pool_sound_bytes : ∃ s, Reaches .spanPool .spanPool 3 s [8200] [8192] ∧ Chain s.mem s.freeList [8192] ∧
    InOneChunk .spanPool s.os 8200 8 ∧ AtEnd s.memory s.remainBytes (chunks .spanPool s.os) := by
  have answered : ∀ (s : State) q a, decide (s.os.allows 1 q a) = true → s.os.allows 1 q a := fun _ _ _ => of_decide_eq_true
  have first := exec_run answered (new .spanPool .spanPool 3) [some 8192] [] { mem := fun _ => 0, os := {} }
  have second := exec_run answered (new .spanPool .spanPool 3) [] []
    { memory := 8200, remainBytes := 131064, mem := fun _ => 0, os := OS.grant {} .spanPool 16 8192 }
  have third := exec_run answered (delete .spanPool 8192) [] []
    { memory := 8208, remainBytes := 131056, mem := fun _ => 0, os := OS.grant {} .spanPool 16 8192 }
  have start : Reaches .spanPool .spanPool 3 { mem := fun _ => 0, os := {} } [] [] := .start ⟨by simp,by simp⟩ (by simp)
  have reached := ((start.new first).new second).delete (by simp) third
  have sound := pool_sound .spanPool .spanPool 3 (by decide) (by decide) reached
  exact ⟨_,reached,sound.2.2.2.1,sound.1 8200 (by simp),sound.2.2.2.2.1⟩

end LinkedPool
end TcAlloc
