import TcAlloc.System

/-!
The pool that span descriptors and thread caches come from. Objects are carved
one after the other from chunks of 128 KB that `SystemAlloc` hands out, and
deleted objects are handed out again, last in first out. The list of the objects
in use is bookkeeping: nothing in the code reads it.
-/
namespace TcAlloc

/-- `ObjectPool<T>`; `live` are the objects handed out and not deleted since. -/
structure ObjectPool where
  memory : Nat := 0
  freeList : List Nat := []
  remainBytes : Nat := 0
  live : List Nat := []
  deriving DecidableEq

namespace ObjectPool

def chunkBytes : Nat := 128 * 1024

/-- The bytes an object takes, at least a pointer's. -/
def slot (size : Nat) : Nat := if size < 8 then 8 else size

/-- A new chunk, where the rest of the last one is too short. `_remainBytes` is
    set before `SystemAlloc` has answered. -/
def moreMemory (site : Site) (size : Nat) (pool : ObjectPool) : Code (ObjectPool × OS) Unit :=
  if pool.remainBytes < size then do
    .modify (fun s => ({ s.1 with remainBytes := chunkBytes },s.2))
    let memory ← (systemAlloc site (chunkBytes >>> 13)).zoom .second
    .modify (fun s => ({ s.1 with memory := memory },s.2))
  else pure ()

/-- The next object of the chunk. -/
def bump (size : Nat) : Code (ObjectPool × OS) Nat := do
  let obj ← .read (·.1.memory)
  .modify (fun s => ({ s.1 with
    memory := s.1.memory + slot size, remainBytes := minus s.1.remainBytes (slot size), live := obj :: s.1.live },s.2))
  return obj

/-- The object that `New` hands out: one that was deleted, or the next of the chunk. -/
def handOut (site : Site) (size : Nat) : Code (ObjectPool × OS) Nat := do
  let pool ← .read (·.1)
  match pool.freeList with
  | obj :: rest => do
    .modify (fun s => ({ s.1 with freeList := rest, live := obj :: s.1.live },s.2))
    return obj
  | [] => do
    moreMemory site size pool
    bump size

/-- `New`, for objects of `size` bytes. -/
def new (mutex : Mutex) (site : Site) (size : Nat) : Code (ObjectPool × OS) Nat := .locked mutex (handOut site size)

/-- `Delete`: the object goes to the front of the free list. -/
def delete (pool : ObjectPool) (obj : Nat) : ObjectPool :=
  { pool with freeList := obj :: pool.freeList, live := pool.live.erase obj }

/-! ### What the pool keeps -/

/-- A slot of the pool lies in one of its chunks. -/
def InChunk (os : OS) (site : Site) (lo len : Nat) : Prop :=
  ∃ m ∈ os.mapped, m.site = site ∧ m.base ≤ lo ∧ lo + len ≤ m.base + m.len

/-- Slots in use and slots free lie in chunks, apart from each other and from the
    rest of the current chunk. -/
structure Valid (site : Site) (size : Nat) (pool : ObjectPool) (os : OS) : Prop where
  size_pos : 0 < size
  small : size ≤ chunkBytes
  rest : pool.remainBytes ≤ chunkBytes ∧ (pool.remainBytes ≠ 0 → InChunk os site pool.memory pool.remainBytes)
  whole : size < 8 → 8 ∣ pool.remainBytes
  slots : ∀ p ∈ pool.live ++ pool.freeList, InChunk os site p (slot size) ∧
    (p + slot size ≤ pool.memory ∨ pool.memory + pool.remainBytes ≤ p)
  distinct : (pool.live ++ pool.freeList).Pairwise (fun p q => p + slot size ≤ q ∨ q + slot size ≤ p)

section
variable {site : Site} {size : Nat} {pool : ObjectPool} {os os' : OS}

theorem slot_pos (size : Nat) : 8 ≤ slot size := by rw [slot]; split_ifs <;> omega

theorem InChunk.mono {lo len : Nat} (inside : InChunk os site lo len)
    (kept : ∀ m ∈ os.mapped, m.site = site → m ∈ os'.mapped) : InChunk os' site lo len := by
  obtain ⟨m,mem,at_site,bounds⟩ := inside
  exact ⟨m,kept m mem at_site,at_site,bounds⟩

/-- Only the pool's own chunks matter to it. -/
theorem Valid.mono (valid : Valid site size pool os) (kept : ∀ m ∈ os.mapped, m.site = site → m ∈ os'.mapped) :
    Valid site size pool os' :=
  { valid with
    rest := ⟨valid.rest.1,fun some => (valid.rest.2 some).mono kept⟩
    slots := fun p mem => ⟨(valid.slots p mem).1.mono kept,(valid.slots p mem).2⟩ }

theorem valid_empty (pos : 0 < size) (small : size ≤ chunkBytes) : Valid site size {} os :=
  ⟨pos,small,⟨Nat.zero_le _,fun h => absurd rfl h⟩,fun _ => ⟨0,rfl⟩,by simp,by simp⟩

theorem Valid.nodup (valid : Valid site size pool os) : (pool.live ++ pool.freeList).Nodup :=
  valid.distinct.imp (fun {p q} apart same => by have := slot_pos size; omega)

theorem Valid.live_nodup (valid : Valid site size pool os) : pool.live.Nodup := (List.nodup_append.mp valid.nodup).1

theorem Valid.live_ne_zero (valid : Valid site size pool os) (system : os.Valid) {p : Nat}
    (mem : p ∈ pool.live) : p ≠ 0 := by
  obtain ⟨⟨m,mapped,_,low,_⟩,_⟩ := valid.slots p (by simp [mem])
  have := (system.nonempty m mapped).1
  omega

/-- Handing out a deleted object. -/
theorem Valid.reuse (valid : Valid site size pool os) {obj : Nat} {rest : List Nat} (free : pool.freeList = obj :: rest) :
    Valid site size { pool with freeList := rest, live := obj :: pool.live } os ∧ obj ∉ pool.live := by
  have perm : ((obj :: pool.live) ++ rest).Perm (pool.live ++ pool.freeList) := by
    rw [free]; exact List.perm_middle.symm
  refine ⟨{ valid with
    slots := fun p mem => valid.slots p (perm.mem_iff.mp mem)
    distinct := (perm.pairwise_iff (fun {x y} h => h.symm)).mpr valid.distinct },?_⟩
  intro live
  have nodup := valid.nodup
  rw [free] at nodup
  exact (List.nodup_append.mp nodup).2.2 obj live obj (by simp) rfl

/-- Carving the next object from a chunk that is long enough. -/
theorem Valid.carve (valid : Valid site size pool os) (enough : size ≤ pool.remainBytes) :
    Valid site size { pool with
      memory := pool.memory + slot size, remainBytes := minus pool.remainBytes (slot size),
      live := pool.memory :: pool.live } os ∧ pool.memory ∉ pool.live := by
  have pos := slot_pos size
  have some : pool.remainBytes ≠ 0 := by have := valid.size_pos; omega
  have fits : slot size ≤ pool.remainBytes := by
    rw [slot]
    split_ifs with tiny
    · exact Nat.le_of_dvd (Nat.pos_of_ne_zero some) (valid.whole tiny)
    · exact enough
  have bound := valid.rest.1
  have left : minus pool.remainBytes (slot size) = pool.remainBytes - slot size := by
    have : chunkBytes = 131072 := rfl
    rw [minus]; omega
  obtain ⟨m,mapped,at_site,low,high⟩ := valid.rest.2 some
  have apart : ∀ p ∈ pool.live ++ pool.freeList, pool.memory + slot size ≤ p ∨ p + slot size ≤ pool.memory := by
    intro p mem
    rcases (valid.slots p mem).2 with before | after
    · exact .inr before
    · exact .inl (by omega)
  refine ⟨{ valid with rest := ⟨?_,?_⟩, whole := ?_, slots := ?_, distinct := ?_ },?_⟩
  · rw [left]; exact le_trans (Nat.sub_le _ _) bound
  · intro _; exact ⟨m,mapped,at_site,by dsimp only; omega,by dsimp only; rw [left]; omega⟩
  · intro tiny
    have eight : slot size = 8 := by rw [slot,if_pos tiny]
    have whole := valid.whole tiny
    dsimp only
    rw [left,eight]
    omega
  · intro p mem
    dsimp only
    rw [left]
    rcases List.mem_cons.mp mem with rfl | old
    · exact ⟨⟨m,mapped,at_site,low,by omega⟩,.inl (le_refl _)⟩
    · refine ⟨(valid.slots p old).1,?_⟩
      rcases (valid.slots p old).2 with before | after
      · exact .inl (by omega)
      · exact .inr (by omega)
  · exact List.pairwise_cons.mpr ⟨apart,valid.distinct⟩
  · intro live
    have := apart pool.memory (by simp [live])
    omega

/-- A fresh chunk. -/
theorem Valid.chunk (valid : Valid site size pool os) {align base : Nat}
    (granted : OS.Grants align os (chunkBytes >>> 13) base) :
    Valid site size { pool with remainBytes := chunkBytes, memory := base }
      (os.grant site (chunkBytes >>> 13) base) := by
  have kept : ∀ m ∈ os.mapped, m.site = site →
      m ∈ (os.grant site (chunkBytes >>> 13) base).mapped := fun m mem _ => List.mem_cons_of_mem _ mem
  have length : (chunkBytes >>> 13) * 2 ^ pageShift = chunkBytes := by decide
  refine { valid with rest := ⟨le_refl _,?_⟩, whole := fun _ => show 8 ∣ 131072 by decide, slots := ?_ }
  · intro _
    exact ⟨_,List.mem_cons_self,rfl,le_refl _,by dsimp only; rw [length]⟩
  · intro p mem
    obtain ⟨old,_⟩ := valid.slots p mem
    refine ⟨old.mono kept,?_⟩
    obtain ⟨m,mapped,_,low,high⟩ := old
    have clear := granted.2.2.2.2 m mapped
    simp only [Mapping.Apart,length] at clear
    dsimp only
    omega

/-- `Delete` of an object in use. -/
theorem Valid.delete (valid : Valid site size pool os) {obj : Nat} (live : obj ∈ pool.live) :
    Valid site size (pool.delete obj) os := by
  have perm : (pool.live.erase obj ++ obj :: pool.freeList).Perm (pool.live ++ pool.freeList) :=
    List.perm_middle.trans ((List.perm_cons_erase live).symm.append_right _)
  exact { valid with
    slots := fun p mem => valid.slots p (perm.mem_iff.mp mem)
    distinct := (perm.pairwise_iff (fun {x y} h => h.symm)).mpr valid.distinct }

end

/-- An object from the pool, on a system that never fails: one that was not in
    use is, and the pool has at most taken a chunk. -/
theorem handOut_wp {R : Rules (ObjectPool × OS) Mutex Request (Option Nat) Event} {h : List Mutex} {pool : ObjectPool}
    {os : OS} {site : Site} {size align : Nat} {post : Nat → List Mutex → ObjectPool × OS → Prop}
    {thrown : List Mutex → ObjectPool × OS → Prop} (valid : Valid site size pool os) (system : os.Valid)
    (answers : ∀ s q a, R.allowed s q a → s.2.allows align q a)
    (sees : ∀ s s', OS.Grown site os s.2 → OS.Grown site os s'.2 → R.seen none h s s')
    (ends : ∀ obj pool' os', Valid site size pool' os' → os'.Valid → OS.Grown site os os' → obj ∉ pool.live → obj ≠ 0 →
      pool'.live = obj :: pool.live → post obj h (pool',os')) :
    wp R (handOut site size) h (pool,os) post thrown := by
  simp only [handOut,wp_seq,wp_read]
  refine ⟨sees _ _ (.refl _ _) (.refl _ _),?_⟩
  split
  · next obj rest hfree =>
    obtain ⟨valid',unused⟩ := valid.reuse hfree
    simp only [wp_seq,wp_modify,wp_pure]
    exact ⟨sees _ _ (.refl _ _) (.refl _ _),ends obj _ os valid' system (.refl _ _) unused
      (valid'.live_ne_zero system (by simp)) rfl⟩
  · next hfree =>
    -- From a chunk that is long enough, the next object is carved.
    have carved : ∀ pool' os', Valid site size pool' os' → os'.Valid → OS.Grown site os os' → pool'.live = pool.live →
        size ≤ pool'.remainBytes → wp R (bump size) h (pool',os') post thrown := by
      intro pool' os' valid' system' grown live enough
      obtain ⟨valid'',unused⟩ := valid'.carve enough
      simp only [bump,wp_seq,wp_read,wp_modify,wp_pure]
      refine ⟨sees _ _ grown grown,sees _ _ grown grown,?_⟩
      exact ends _ _ os' valid'' system' grown (live ▸ unused) (valid''.live_ne_zero system' (by simp)) (by rw [live])
    simp only [wp_seq,moreMemory]
    by_cases short : pool.remainBytes < size
    · rw [if_pos short]
      simp only [wp_seq,wp_modify]
      refine ⟨sees _ _ (.refl _ _) (.refl _ _),?_⟩
      refine wp_zoom .second (I := ⟨fun t q a => t.allows align q a,fun m h' t t' => m = none ∧ h' = h ∧
        OS.Grown site os t ∧ OS.Grown site os t'⟩)
        (P := fun base h' t => h' = h ∧ OS.Grants align os (chunkBytes >>> 13) base ∧
          t = os.grant site (chunkBytes >>> 13) base)
        (E := fun _ _ => False) (fun t q a ok => answers _ q a ok) ?_ ?_ (fun _ _ impossible => impossible.elim) ?_
      · rintro m h' t t' ⟨rfl,rfl,grown,grown'⟩
        exact sees _ _ grown grown'
      · rintro base h' t ⟨rfl,granted,rfl⟩
        have grown : OS.Grown site os (os.grant site (chunkBytes >>> 13) base) := (OS.Grown.refl site os).grant _ _
        exact ⟨sees _ _ grown grown,carved _ _ (valid.chunk granted) (system.grant site granted) grown rfl valid.small⟩
      · refine systemAlloc_wp (fun a ok => ok) (fun base granted => ⟨⟨rfl,rfl,.refl _ _,?_⟩,rfl,granted,rfl⟩)
        exact (OS.Grown.refl site os).grant _ _
    · rw [if_neg short]
      simp only [wp_pure]
      exact carved pool os valid system (.refl _ _) rfl (by omega)

/-- `New`, under the mutex of the pool. -/
theorem new_wp {R : Rules (ObjectPool × OS) Mutex Request (Option Nat) Event} {h : List Mutex} {pool : ObjectPool}
    {os : OS} {mutex : Mutex} {site : Site} {size align : Nat} {post : Nat → List Mutex → ObjectPool × OS → Prop}
    {thrown : List Mutex → ObjectPool × OS → Prop} (free : mutex ∉ h) (valid : Valid site size pool os) (system : os.Valid)
    (answers : ∀ s q a, R.allowed s q a → s.2.allows align q a)
    (sees : ∀ h' s s', (h' = h ∨ h' = mutex :: h) → OS.Grown site os s.2 → OS.Grown site os s'.2 → R.seen none h' s s')
    (ends : ∀ obj pool' os', Valid site size pool' os' → os'.Valid → OS.Grown site os os' → obj ∉ pool.live → obj ≠ 0 →
      pool'.live = obj :: pool.live → post obj h (pool',os')) :
    wp R (new mutex site size) h (pool,os) post thrown := by
  refine wp_locked mutex free (sees _ _ _ (.inr rfl) (.refl _ _) (.refl _ _)) ?_
  refine handOut_wp valid system answers (fun s s' => sees _ s s' (.inr rfl))
    (fun obj pool' os' valid' system' grown unused some live => ?_)
  rw [List.erase_cons_head]
  exact ⟨List.mem_cons_self,sees _ _ _ (.inl rfl) grown grown,ends obj pool' os' valid' system' grown unused some live⟩

end ObjectPool
end TcAlloc
