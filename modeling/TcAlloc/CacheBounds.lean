import TcAlloc.CrossFree
import TcAlloc.Locks
import TcAlloc.Views

/-!
How long the lists of the thread caches get. The cap of a list grows with its refills up
to one past what a refill may ask for, and a list that comes to its cap is flushed. A call
is followed on the lists of its own thread alone (`ownView`): the central cache and the
page cache do not see them, and what it asks them for comes back as a batch that is no
longer than what was asked for. So the lists are short in every state of the program,
and shorter than their caps where their thread is outside (`caches_bounded`).
-/
namespace TcAlloc
namespace World

/-- What a refill of list `i` asks for, at most. -/
def refillCap (b : Build) (i : Nat) : Nat := SizeClass.numMoveSize (SizeClass.classSize b.midAlignShift i)

/-- A list that may have come to its cap. -/
structure Fits (b : Build) (i : Nat) (l : FreeList) : Prop where
  size : l.size ≤ l.maxSize
  cap : l.maxSize ≤ refillCap b i + 1

/-- A list between two calls. -/
structure Rests (b : Build) (i : Nat) (l : FreeList) : Prop where
  size : l.size < l.maxSize
  cap : l.maxSize ≤ refillCap b i + 1

/-- What is known of the thread caches between critical sections. -/
structure Orderly (w : World) : Prop where
  manned : ∀ tc, w.freeLists tc = (fun _ => {}) ∨ ∃ t, w.tlsThreadCache t = tc ∧ tc ≠ 0
  unique : ∀ t u, w.tlsThreadCache t ≠ 0 → w.tlsThreadCache t = w.tlsThreadCache u → t = u
  sized : ∀ tc i, (w.freeLists tc i).head = 0 ↔ (w.freeLists tc i).size = 0

/-- The thread cache of thread `t`, with its lists. -/
def ownPart (t : Nat) (w : World) : Nat × (Nat → FreeList) := (w.tlsThreadCache t,w.freeLists (w.tlsThreadCache t))

def ownView (b : Build) (t : Nat) : View World (Nat × (Nat → FreeList)) := ⟨ownPart t,Orderly,fun x => ∀ i, Fits b i (x.2 i)⟩

/-- All lists are between two calls. -/
def Calm (b : Build) (x : Nat × (Nat → FreeList)) : Prop := ∀ i, Rests b i (x.2 i)

section
variable {b : Build} {t i size : Nat} {x y : Nat × (Nat → FreeList)} {h : List Mutex} {l : FreeList} {w w' : World}

theorem refillCap_bounds (b : Build) (i : Nat) : 2 ≤ refillCap b i ∧ refillCap b i ≤ 512 := SizeClass.numMoveSize_bounds _

theorem Rests.fits (rests : Rests b i l) : Fits b i l := ⟨Nat.le_of_lt rests.size,rests.cap⟩
theorem rests_empty (b : Build) (i : Nat) : Rests b i {} := ⟨Nat.one_pos,Nat.le_add_left 1 _⟩

theorem Calm.fits (calm : Calm b x) : (ownView b t).always x := fun i => (calm i).fits

/-- One list has changed. -/
theorem Calm.put (calm : Calm b x) (rests : Rests b i l) : Calm b (x.1,Function.update x.2 i l) :=
  (Function.forall_update_iff x.2 (fun j l => Rests b j l)).mpr ⟨rests,fun j _ => calm j⟩

theorem Calm.put_full (calm : Calm b x) (fits : Fits b i l) : (ownView b t).always (x.1,Function.update x.2 i l) :=
  (Function.forall_update_iff x.2 (fun j l => Fits b j l)).mpr ⟨fits,fun j _ => (calm j).fits⟩

theorem ownPart_withList (same : w.tlsThreadCache t = x.1) (lists : w.freeLists x.1 = x.2) (m : Memory) :
    ownPart t (w.withList x.1 i m l) = (x.1,Function.update x.2 i l) := by
  simp only [ownPart,withList,same,Function.update_self,lists]

/-- An operation on a list of the thread's own. -/
theorem onList_tracks {β : Type} {g : Memory → FreeList → Except Fault (β × Memory × FreeList)}
    {post : β → List Mutex → Nat × (Nat → FreeList) → Prop}
    (then_ : ∀ m r m' l, (ownView b t).always x → (h = [] → ((x.2 i).head = 0 ↔ (x.2 i).size = 0)) →
      g m (x.2 i) = .ok (r,m',l) → (ownView b t).always (x.1,Function.update x.2 i l) ∧
        post r h (x.1,Function.update x.2 i l)) :
    tracks (ownView b t) (onList x.1 i g) h x post := by
  refine tracks_step (fun w r w' same good settled runs => ?_)
  have tls : w.tlsThreadCache t = x.1 := congrArg Prod.fst same
  have lists : w.freeLists x.1 = x.2 := by rw [← tls]; exact congrArg Prod.snd same
  rw [lists] at runs
  cases ran : g w.mem (x.2 i) with
  | error why => rw [ran] at runs; cases runs
  | ok r' =>
    rw [ran] at runs
    cases runs
    have after : (ownView b t).part (w.withList x.1 i r'.2.1 r'.2.2) = (x.1,Function.update x.2 i r'.2.2) :=
      ownPart_withList tls lists _
    rw [after]
    refine then_ w.mem r'.1 r'.2.1 r'.2.2 good (fun none => ?_) ran
    rw [← lists]
    exact (settled none).sized x.1 i

/-! ### The layers below do not see the lists -/

open Prog (Spares spares_pure spares_require spares_read spares_modify spares_step spares_if spares_zoom)

theorem pages_spare {α : Type} (p : Code Pages α) : (p.zoom pagesPart).Spares (ownView b t) (fun _ => True) :=
  spares_zoom pagesPart (fun _ _ => rfl) p

theorem acquire_spares (m : Mutex) : (Prog.acquire m : Code World Unit).Spares (ownView b t) (fun _ => True) := trivial
theorem release_spares (m : Mutex) : (Prog.release m : Code World Unit).Spares (ownView b t) (fun _ => True) := trivial

theorem setNext_spares (obj next : Nat) : (setNext obj next).Spares (ownView b t) (fun _ => True) :=
  spares_modify (fun _ => rfl)

theorem pushSpan_spares (index span : Nat) : (pushSpan index span).Spares (ownView b t) (fun _ => True) :=
  spares_modify (fun _ => rfl)

theorem holding_spares {α : Type} {R : α → Prop} {m : Mutex} {p : Code World α} (inner : p.Spares (ownView b t) R) :
    (p.holding m).Spares (ownView b t) R :=
  inner.bind (fun _ good => good)

theorem takeSpan_spares (npage size : Nat) : (takeSpan b npage size).Spares (ownView b t) (fun _ => True) := by
  refine holding_spares ((pages_spare _).seq (fun span _ => ?_))
  exact (pages_spare _).seq (fun _ _ => (pages_spare _).seq (fun _ _ => spares_pure trivial))

theorem releaseSpan_spares (span : Nat) : (releaseSpan b span).Spares (ownView b t) (fun _ => True) :=
  holding_spares (pages_spare _)

theorem firstFree_spares (list : List Nat) : (firstFree list).Spares (ownView b t) (fun _ => True) := by
  induction list with
  | nil => exact spares_pure trivial
  | cons it later ih => exact (pages_spare _).seq (fun s _ => spares_if (fun _ => spares_pure trivial) (fun _ => ih))

theorem carveSpan_spares (index size newSpan : Nat) : (carveSpan index size newSpan).Spares (ownView b t) (fun _ => True) := by
  refine (spares_require _ _).seq (fun _ _ => Prog.Spares.seq (R := fun _ => True) (spares_step ?_) (fun _ _ => ?_))
  · intro w r w' ran
    dsimp only at ran
    split at ran
    · cases ran; exact ⟨rfl,trivial⟩
    · cases ran
  · exact (acquire_spares _).seq (fun _ _ => (pushSpan_spares _ _).seq (fun _ _ => spares_pure trivial))

theorem getOneSpan_spares (index size : Nat) : (getOneSpan b index size).Spares (ownView b t) (fun _ => True) := by
  refine Prog.Spares.seq (R := fun _ => True) (spares_read (fun _ => trivial)) (fun list _ => ?_)
  refine (firstFree_spares list).seq (fun found _ => ?_)
  cases found with
  | some it => exact spares_pure trivial
  | none => exact (release_spares _).seq (fun _ _ => (takeSpan_spares _ _).seq (fun span _ => carveSpan_spares _ _ span))

/-- A batch is no longer than asked for. -/
theorem batchEnd_le (m : Memory) (left end_ n : Nat) : (batchEnd m left end_ n).2 ≤ n + left := by
  induction left generalizing end_ n with
  | zero => exact Nat.le_refl n
  | succ left ih =>
    rw [batchEnd]
    split_ifs with more
    · have := ih (m.load end_) (n + 1)
      omega
    · exact Nat.le_add_right n (left + 1)

theorem readBatch_spares {batchNum left head : Nat} (more : 1 + left ≤ batchNum) :
    (Prog.read (fun w => batchEnd w.mem left head 1) : Code World (Nat × Nat)).Spares (ownView b t)
      (fun batch => batch.2 ≤ batchNum) :=
  spares_read (fun w => Nat.le_trans (batchEnd_le w.mem left head 1) more)

theorem cutBatch_spares {batchNum : Nat} (some_ : 1 ≤ batchNum) (small : batchNum < 2 ^ 64) (span : Nat) :
    (cutBatch batchNum span).Spares (ownView b t) (fun batch => batch.2.2 ≤ batchNum) := by
  have more : 1 + minus batchNum 1 ≤ batchNum := by rw [minus_pred some_ small]; omega
  unfold cutBatch
  generalize minus batchNum 1 = left at more ⊢
  refine (pages_spare _).seq (fun s _ => (spares_require _ _).seq (fun _ _ => ?_))
  refine (readBatch_spares more).seq (fun batch few => ?_)
  refine Prog.Spares.seq (R := fun _ => True) (spares_read (fun _ => trivial)) (fun next _ => ?_)
  exact (pages_spare _).seq (fun _ _ => (setNext_spares _ _).seq (fun _ _ =>
    (pages_spare _).seq (fun _ _ => spares_pure few)))

theorem fetchRangeObj_spares {batchNum : Nat} (small : batchNum < 2 ^ 64) (size : Nat) :
    (fetchRangeObj b batchNum size).Spares (ownView b t) (fun batch => batch.2.2 ≤ batchNum) := by
  refine (spares_require _ _).seq (fun _ pos => (spares_require _ _).seq (fun _ _ => (acquire_spares _).seq (fun _ _ => ?_)))
  refine (getOneSpan_spares _ _).seq (fun span _ => (spares_require _ _).seq (fun _ _ => ?_))
  exact (cutBatch_spares pos small span).seq (fun batch few => (release_spares _).seq (fun _ _ => spares_pure few))

theorem mapObjectToSpan_spares (obj : Nat) : (mapObjectToSpan obj).Spares (ownView b t) (fun _ => True) :=
  (pages_spare _).seq (fun _ _ => (spares_require _ _).seq (fun _ _ => spares_pure trivial))

theorem flush_spares (index rounds start : Nat) : (flush b index rounds start).Spares (ownView b t) (fun _ => True) := by
  induction rounds generalizing start with
  | zero => trivial
  | succ rounds ih =>
    refine spares_if (fun _ => release_spares _) (fun _ => ?_)
    refine Prog.Spares.seq (R := fun _ => True) ?_ (fun back _ => ?_)
    · refine (mapObjectToSpan_spares _).seq (fun span _ => (spares_require _ _).seq (fun _ _ => ?_))
      refine Prog.Spares.seq (R := fun _ => True) (spares_read (fun _ => trivial)) (fun next _ => (pages_spare _).seq (fun s _ => ?_))
      refine (setNext_spares _ _).seq (fun _ _ => (pages_spare _).seq (fun _ _ => (pages_spare _).seq (fun _ _ => ?_)))
      exact (pages_spare _).seq (fun s _ => spares_pure trivial)
    · obtain ⟨span,next,useCount⟩ := back
      refine spares_if (fun _ => ?_) (fun _ => ih next)
      refine Prog.Spares.seq (R := fun _ => True) ?_ (fun _ _ => (release_spares _).seq (fun _ _ =>
        (releaseSpan_spares span).seq (fun _ _ => (acquire_spares _).seq (fun _ _ => ih next))))
      refine Prog.Spares.seq (R := fun _ => True) (spares_step (fun w r w' ran => ?_)) (fun _ _ => pages_spare _)
      split_ifs at ran
      cases ran
      exact ⟨rfl,trivial⟩

theorem releaseListToSpans_spares (start byteSize : Nat) :
    (releaseListToSpans b start byteSize).Spares (ownView b t) (fun _ => True) :=
  (spares_require _ _).seq (fun _ _ => (spares_require _ _).seq (fun _ _ => (acquire_spares _).seq (fun _ _ =>
    flush_spares _ _ _)))

/-! ### ThreadCache -/

/-- What a call leaves. -/
abbrev Calms (b : Build) {α : Type} : α → List Mutex → Nat × (Nat → FreeList) → Prop := fun _ _ y => Calm b y

/-- The first object is the caller's, and the rest is no more than the cap allows. -/
theorem keepBatch_tracks {batch : Nat × Nat × Nat} (calm : Calm b x) (empty : (x.2 i).size = 0)
    (few : batch.2.2 ≤ (x.2 i).maxSize) : tracks (ownView b t) (keepBatch x.1 i batch) h x (Calms b) := by
  obtain ⟨start,end_,n⟩ := batch
  refine (tracks_seq _ _).mpr (tracks_require _ _ (fun _ => (tracks_seq _ _).mpr (tracks_require _ _ (fun _ => ?_))))
  refine (tracks_seq _ _).mpr (tracks_require _ _ (fun _ => tracks_if (fun many => ?_) (fun _ => calm)))
  refine (tracks_seq _ _).mpr (tracks_require _ _ (fun _ => (tracks_seq _ _).mpr ?_))
  refine onList_tracks (fun m r m' l _ _ pushed => ?_)
  rw [FreeList.pushRange] at pushed
  split_ifs at pushed
  cases pushed
  have few : n ≤ (x.2 i).maxSize := few
  have rests : Rests b i { x.2 i with head := m.load start, size := (x.2 i).size + (n - 1) } :=
    ⟨by show (x.2 i).size + (n - 1) < (x.2 i).maxSize; omega,(calm i).cap⟩
  exact ⟨(calm.put rests).fits,calm.put rests⟩

theorem fetchFromCentralCache_tracks (calm : Calm b x) (empty : (x.2 i).size = 0)
    (class_ : SizeClass.classSize b.midAlignShift i = size) :
    tracks (ownView b t) (fetchFromCentralCache b x.1 i size) h x (Calms b) := by
  refine (tracks_seq _ _).mpr (tracks_require _ _ (fun _ => (tracks_seq _ _).mpr (tracks_require _ _ (fun _ => ?_))))
  refine (tracks_seq _ _).mpr (onList_tracks (fun m batchNum m' l _ _ asked => ?_))
  have cap : refillCap b i = SizeClass.numMoveSize size := by rw [refillCap,class_]
  have bounds := refillCap_bounds b i
  have before := calm i
  -- The cap has grown by one if the list asked for that many.
  have next : l.size = (x.2 i).size ∧ (x.2 i).maxSize ≤ l.maxSize ∧ l.maxSize ≤ refillCap b i + 1 ∧ batchNum ≤ l.maxSize ∧
      batchNum ≤ refillCap b i := by
    have limit := before.cap
    rw [nextBatch] at asked
    cases asked
    split_ifs with reached
    · refine ⟨rfl,Nat.le_succ _,?_,?_,?_⟩
      · show (x.2 i).maxSize + 1 ≤ _; omega
      · show _ ≤ (x.2 i).maxSize + 1; omega
      · omega
    · exact ⟨rfl,Nat.le_refl _,limit,Nat.min_le_right _ _,by omega⟩
  obtain ⟨same,grown,limit,less,capped⟩ := next
  have rests : Rests b i l := ⟨by rw [same]; exact Nat.lt_of_lt_of_le before.size grown,limit⟩
  have small : batchNum < 2 ^ 64 := by omega
  refine ⟨(calm.put rests).fits,(tracks_seq _ _).mpr (tracks_post (fetchRangeObj_spares small size).followed ?_)⟩
  rintro batch h' _ ⟨rfl,few⟩
  refine keepBatch_tracks (x := (x.1,Function.update x.2 i l)) (calm.put rests) ?_ ?_
  · simp [same,empty]
  · simpa using Nat.le_trans few less

theorem allocate_tracks (calm : Calm b x) : tracks (ownView b t) (allocate b x.1 size) [] x (Calms b) := by
  refine (tracks_seq _ _).mpr (tracks_require _ _ (fun small => (tracks_seq _ _).mpr ?_))
  have class_ := (SizeClass.roundUp_eq_classSize b.coarse small).symm
  generalize SizeClass.index b.midAlignShift size = i at class_ ⊢
  refine onList_tracks (fun m found m' l _ settled popped => ?_)
  have bounds := refillCap_bounds b i
  have limit := (calm i).cap
  have short := (calm i).size
  rw [popIfAny] at popped
  split_ifs at popped with none
  · cases popped
    rw [Function.update_eq_self]
    exact ⟨calm.fits,fetchFromCentralCache_tracks calm ((settled rfl).mp none) class_⟩
  · rw [FreeList.pop,if_neg none] at popped
    cases popped
    have some_ : (x.2 i).size ≠ 0 := fun zero => none ((settled rfl).mpr zero)
    have less : minus (x.2 i).size 1 = (x.2 i).size - 1 := minus_pred (by omega) (by omega)
    have rests : Rests b i { x.2 i with head := m.load (x.2 i).head, size := minus (x.2 i).size 1 } := by
      refine ⟨?_,limit⟩
      show minus (x.2 i).size 1 < (x.2 i).maxSize
      omega
    exact ⟨(calm.put rests).fits,calm.put rests⟩

/-- A list that has come to its cap is flushed as a whole. -/
theorem listTooLong_tracks (calm : Calm b x) {l : FreeList} (fits : Fits b i l) (long : l.maxSize ≤ l.size) (size : Nat) :
    tracks (ownView b t) (listTooLong b x.1 i size) h (x.1,Function.update x.2 i l) (Calms b) := by
  refine (tracks_seq _ _).mpr (tracks_require _ _ (fun _ => (tracks_seq _ _).mpr ?_))
  refine onList_tracks (x := (x.1,Function.update x.2 i l)) (fun m range m' l' _ _ popped => ?_)
  have bounds := refillCap_bounds b i
  have limit := fits.cap
  have same : l.size = l.maxSize := Nat.le_antisymm fits.size long
  have none : minus l.size l.maxSize = 0 := by rw [same,minus_pred (Nat.le_refl _) (by omega),Nat.sub_self]
  dsimp only at popped
  rw [Function.update_self,FreeList.popRange] at popped
  split_ifs at popped with bad
  obtain ⟨some_,_⟩ := not_or.mp bad
  have rests : Rests b i l' := by
    split at popped
    · cases popped
    · split_ifs at popped
      cases popped
      refine ⟨?_,limit⟩
      show minus l.size l.maxSize < l.maxSize
      omega
  simp only [Function.update_idem]
  refine ⟨(calm.put rests).fits,tracks_post (releaseListToSpans_spares range.1 size).followed ?_⟩
  rintro _ _ _ ⟨rfl,_⟩
  exact calm.put rests

theorem deallocate_tracks (calm : Calm b x) (ptr size : Nat) :
    tracks (ownView b t) (deallocate b x.1 ptr size) h x (Calms b) := by
  refine (tracks_seq _ _).mpr (tracks_require _ _ (fun _ => (tracks_seq _ _).mpr (tracks_require _ _ (fun _ => ?_))))
  refine (tracks_seq _ _).mpr ?_
  generalize SizeClass.index b.midAlignShift size = i
  refine onList_tracks (fun m long m' l _ _ pushed => ?_)
  rw [pushAndTest,FreeList.push] at pushed
  split_ifs at pushed
  · cases pushed
  · cases pushed
    have short : (x.2 i).size + 1 ≤ (x.2 i).maxSize := (calm i).size
    have fits : Fits b i { x.2 i with head := ptr, size := (x.2 i).size + 1 } := ⟨short,(calm i).cap⟩
    refine ⟨calm.put_full fits,tracks_if (fun full => ?_) (fun room => ?_)⟩
    · exact listTooLong_tracks calm fits (of_decide_eq_true full) _
    · refine calm.put ⟨?_,(calm i).cap⟩
      simpa using room

/-! ### ConcurrentAlloc and ConcurrentFree -/

/-- A new thread cache is not that of a thread, or has been made empty. -/
theorem newThreadCache_tracks (calm : Calm b x) :
    tracks (ownView b t) (newThreadCache b) [] x (fun _ h y => h = [] ∧ y.1 = x.1 ∧ Calm b y) := by
  have spares : ((ObjectPool.new .threadCachePool .threadCachePool (threadCacheBytes b)).zoom tcPoolPart).Spares
      (ownView b t) (fun _ => True) := spares_zoom tcPoolPart (fun _ _ => rfl) _
  have back : keeps (plain (fun _ _ => True)) ((ObjectPool.new .threadCachePool .threadCachePool
      (threadCacheBytes b)).zoom tcPoolPart) [] [] (fun _ => True) :=
    plain_zoom tcPoolPart (ObjectPool.new_keeps (fun _ none => nomatch none) (fun _ _ => trivial))
  refine (tracks_seq _ _).mpr (tracks_post (spares.followed_held (fun _ _ => trivial) back) ?_)
  rintro tc _ x ⟨rfl,rfl,_⟩
  refine (tracks_seq _ _).mpr (tracks_modify (fun w same _ _ => ?_))
  have tls : w.tlsThreadCache t = x.1 := congrArg Prod.fst same
  have lists : w.freeLists (w.tlsThreadCache t) = x.2 := congrArg Prod.snd same
  have next : Calm b (ownPart t { w with freeLists := Function.update w.freeLists tc (fun _ => {}) }) := by
    intro i
    by_cases mine : w.tlsThreadCache t = tc
    · simp only [ownPart,mine,Function.update_self]
      exact rests_empty b i
    · simp only [ownPart,Function.update_of_ne mine,lists]
      exact calm i
  exact ⟨next.fits,rfl,tls,next⟩

theorem ownCache_tracks (calm : Calm b x) :
    tracks (ownView b t) (ownCache b t) [] x (fun tc h y => h = [] ∧ y.1 = tc ∧ Calm b y) := by
  refine (tracks_seq _ _).mpr (tracks_read (fun w same _ => ?_))
  have tls : w.tlsThreadCache t = x.1 := congrArg Prod.fst same
  rw [tls]
  refine tracks_if (fun none => ?_) (fun _ => ⟨rfl,rfl,calm⟩)
  refine (tracks_seq _ _).mpr (tracks_post (newThreadCache_tracks calm) ?_)
  rintro tc _ y ⟨rfl,same,calm⟩
  refine (tracks_seq _ _).mpr (tracks_modify (fun w here _ settled => ?_))
  have tls : w.tlsThreadCache t = 0 := (congrArg Prod.fst here).trans (same.trans none)
  obtain ⟨before,after⟩ := settled rfl
  have next : Calm b (ownPart t { w with tlsThreadCache := Function.update w.tlsThreadCache t tc }) := by
    intro i
    simp only [ownPart,Function.update_self]
    rcases before.manned tc with empty | ⟨u,there,some_⟩
    · rw [empty]
      exact rests_empty b i
    · -- A thread that had this cache already would share it with this one.
      have other : u ≠ t := fun same => some_ (there.symm.trans (same ▸ tls))
      have shared := after.unique t u
      simp only [Function.update_self,Function.update_of_ne other,there] at shared
      exact absurd (shared some_ trivial).symm other
  exact ⟨next.fits,rfl,Function.update_self ..,next⟩

theorem concurrentAlloc_tracks (calm : Calm b x) : tracks (ownView b t) (concurrentAlloc b t size) [] x (Calms b) := by
  refine tracks_if (fun _ => ?_) (fun _ => ?_)
  · have spares : (allocLarge b size).Spares (ownView b t) (fun _ => True) :=
      (takeSpan_spares _ _).seq (fun _ _ => (pages_spare _).seq (fun _ _ => spares_pure trivial))
    refine tracks_post spares.followed ?_
    rintro _ _ _ ⟨rfl,_⟩
    exact calm
  · refine (tracks_seq _ _).mpr (tracks_post (ownCache_tracks calm) ?_)
    rintro _ _ y ⟨rfl,rfl,calm⟩
    exact allocate_tracks calm

theorem concurrentFree_tracks (calm : Calm b x) (ptr : Nat) :
    tracks (ownView b t) (concurrentFree b t ptr) [] x (Calms b) := by
  refine (tracks_seq _ _).mpr (tracks_post (mapObjectToSpan_spares ptr).followed ?_)
  rintro span _ _ ⟨rfl,_⟩
  refine (tracks_seq _ _).mpr (tracks_post (pages_spare (Pages.get span)).followed ?_)
  rintro s _ _ ⟨rfl,_⟩
  refine tracks_if (fun _ => ?_) (fun _ => (tracks_seq _ _).mpr (tracks_read (fun w same _ => ?_)))
  · refine tracks_post (releaseSpan_spares span).followed ?_
    rintro _ _ _ ⟨rfl,_⟩
    exact calm
  · have tls : w.tlsThreadCache t = (ownPart t w).1 := rfl
    refine (tracks_seq _ _).mpr (tracks_require _ _ (fun _ => ?_))
    rw [tls,show ownPart t w = _ from same]
    exact deallocate_tracks calm ptr _

theorem Call.tracks (calm : Calm b x) (call : Call) : TcAlloc.tracks (ownView b t) (call.code b t) [] x (Calms b) := by
  cases call with
  | alloc size => exact (tracks_bind _ _).mpr (concurrentAlloc_tracks calm)
  | free ptr => exact (tracks_bind _ _).mpr (concurrentFree_tracks calm ptr)

end

/-! ### Every state of the program -/

theorem Books.orderly {b : Build} {g : Stock} {l : Ledger} {w : World} {live : List (Nat × Nat)} (books : Books b g l w live) :
    Orderly w where
  manned := books.caches.manned
  unique := fun _ _ made same => books.cache_unique made same
  sized := by
    intro tc i
    obtain ⟨objs,listed⟩ := books.shelved (.cached tc i)
    rw [listed.size,List.length_eq_zero_iff]
    exact listed.shelf.chain.head_eq_zero

/-- The lists of a thread that was not at work are as they were. -/
theorem Kept.ownPart {b : Build} {g g' : Stock} {l l' : Ledger} {w w' : World} {live live' : List (Nat × Nat)} {t u : Nat}
    (kept : Kept t g w g' w') (books : Books b g l w live) (books' : Books b g' l' w' live') (ne : u ≠ t) :
    ownPart u w' = ownPart u w := by
  have tls := kept.tls u ne
  have zero : w.freeLists 0 = (fun _ => {}) ∧ w'.freeLists 0 = (fun _ => {}) :=
    ⟨(books.caches.manned 0).resolve_right (fun ⟨_,_,some_⟩ => some_ rfl),
      (books'.caches.manned 0).resolve_right (fun ⟨_,_,some_⟩ => some_ rfl)⟩
  rw [World.ownPart,World.ownPart,tls]
  rcases books.caches.own u with none | own
  · rw [none,zero.1,zero.2]
  · rw [own,kept.lists u ne]

namespace Program

/-- Where thread `t` is, its lists are as the rest of its call needs them. -/
def Calming (b : Build) (w : World) (t : Nat) : Stage → Prop
  | .outside => Calm b (ownPart t w)
  | .within _ code => (ownView b t).always (ownPart t w) ∧ tracks (ownView b t) code [] (ownPart t w) (Calms b)

section
variable {b : Build} {u : Usage} {short : Prop} {g g' : Stock} {l l' : Ledger} {M M' : Program} {t : Nat} {w' : World}
  {live' : List (Nat × Nat)}

theorem Calming.always {stage : Stage} {w : World} (calming : Calming b w t stage) :
    (ownView b t).always (ownPart t w) := by
  cases stage with
  | outside => exact Calm.fits (t := t) calming
  | within call code => exact calming.1

/-- One thread has been at work. -/
theorem Agrees.calming (agrees : Agrees b short g l M) (all : ∀ t, Calming b M.world t (M.stage t))
    (books' : Books b g' l' w' live') (kept : Kept t g M.world g' w') {s : Stage} (here : Calming b w' t s) :
    ∀ v, Calming b w' v (Function.update M.stage t s v) := by
  intro v
  by_cases same : v = t
  · subst same
    rwa [Function.update_self]
  · have still : ownPart v w' = ownPart v M.world := kept.ownPart agrees.books books' same
    have calming := all v
    rw [Function.update_of_ne same]
    cases stage : M.stage v with
    | outside =>
      rw [stage] at calming
      simpa only [Calming,still] using calming
    | within call code =>
      rw [stage] at calming
      simpa only [Calming,still] using calming

theorem Agrees.calming_act (agrees : Agrees b short g l M) (fair : u.Fair b short)
    (all : ∀ t, Calming b M.world t (M.stage t)) (act : Act b u M M') : ∀ t, Calming b M'.world t (M'.stage t) := by
  cases act with
  | @alloc t size outside sized may =>
    have calm := all t
    rw [outside] at calm
    exact agrees.calming all agrees.books (.refl t g _) ⟨Calm.fits (t := t) calm,Call.tracks calm _⟩
  | @free t p size outside live may =>
    have calm := all t
    rw [outside] at calm
    exact agrees.calming all agrees.books (.refl t g _) ⟨Calm.fits (t := t) calm,Call.tracks calm _⟩
  | @turn t call p p' w' running may run =>
    obtain ⟨g',l',_,_,_,_,_,goes,agrees'⟩ := agrees.turn fair running may run
    have calming := all t
    rw [running] at calming
    refine agrees.calming all agrees'.books goes.kept ?_
    exact tracks_section run agrees.books.orderly agrees'.books.orderly calming.1 calming.2
  | @allocated t size p ended =>
    have calming := all t
    rw [ended] at calming
    exact agrees.calming all agrees.books (.refl t g _) calming.2
  | @freed t p ended =>
    have calming := all t
    rw [ended] at calming
    exact agrees.calming all agrees.books (.refl t g _) calming.2

theorem Reaches.calming {mem : Memory} (reached : Reaches b u (start mem) M) (fair : u.Fair b short) :
    ∀ t, Calming b M.world t (M.stage t) := by
  induction reached with
  | refl => exact fun t i => rests_empty b i
  | tail before step ih =>
    obtain ⟨g,l,agrees⟩ := Reaches.agrees before fair
    cases step with
    | act act => exact agrees.calming_act fair ih act
    | write inside => exact ih

end

/-- The two ways in which the program may be used. -/
theorem reached_fair {b : Build} {mem : Memory} {M : Program}
    (reached : Reaches b (.upTo spanBytes) (start mem) M ∨ Reaches b (.quiet b) (start mem) M) :
    ∃ u short, Usage.Fair b u short ∧ Reaches b u (start mem) M :=
  reached.elim (fun reached => ⟨_,_,fair_upTo b (le_refl _),reached⟩) (fun reached => ⟨_,_,fair_quiet b,reached⟩)

/-- List `i` of the thread cache of thread `t`. -/
def ownList (M : Program) (t i : Nat) : FreeList := M.world.freeLists (M.world.tlsThreadCache t) i

/-- The lists of the thread caches are short, in every state: a list has no more objects
    than its cap, and its cap is one past what a refill asks for at most. Where the thread
    is outside its lists are below their caps, and take 512 KB at most. -/
theorem caches_bounded (b : Build) {mem : Memory} {M : Program}
    (reached : Reaches b (.upTo spanBytes) (start mem) M ∨ Reaches b (.quiet b) (start mem) M) (t i : Nat) :
    (M.ownList t i).size ≤ (M.ownList t i).maxSize ∧
      (M.ownList t i).maxSize ≤
        SizeClass.numMoveSize (SizeClass.classSize b.midAlignShift i) + 1 ∧
      (M.stage t = .outside →
        (M.ownList t i).size < (M.ownList t i).maxSize ∧
        (i < SizeClass.nfreelists b.midAlignShift →
          (M.ownList t i).size * SizeClass.classSize b.midAlignShift i ≤ 2 * maxBytes)) := by
  obtain ⟨u,short,fair,reached⟩ := reached_fair reached
  have calming := reached.calming fair t
  have fits : Fits b i (M.ownList t i) := calming.always i
  refine ⟨fits.size,fits.cap,fun outside => ?_⟩
  rw [outside] at calming
  have rests : Rests b i (M.ownList t i) := calming i
  refine ⟨rests.size,fun inside => ?_⟩
  have few : (M.ownList t i).size ≤ refillCap b i := by
    have := rests.size
    have := rests.cap
    omega
  have class_ := SizeClass.classSize_le b.coarse inside
  refine Nat.le_trans (Nat.mul_le_mul_right _ few) ?_
  rcases SizeClass.numMoveSize_cases (SizeClass.classSize b.midAlignShift i) with two | many
  · rw [refillCap,two]
    omega
  · have := Nat.mul_le_of_le_div _ _ _ many
    rw [refillCap]
    omega

/-- The list that the first call has refilled. -/
theorem caches_bounded_served : served.stage 1 = .outside ∧
    (served.ownList 1 207).maxSize = 2 ∧
    (served.ownList 1 207).size < 2 := by
  have outside : served.stage 1 = .outside := Stage.of_idle (by decide +kernel)
  have cap : (served.ownList 1 207).maxSize = 2 := by decide +kernel
  obtain ⟨_,_,bounds⟩ := caches_bounded .standard (.inl (served_reached (by decide))) 1 207
  exact ⟨outside,cap,cap ▸ (bounds outside).1⟩

end Program
end World
end TcAlloc
