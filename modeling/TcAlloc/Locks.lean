import TcAlloc.World
import TcAlloc.Discipline

/-!
The order in which the allocator takes its mutexes, and what it touches under
them. The mutexes of the buckets, of the page cache and of the pool of thread
caches are only taken by a thread that holds none; the mutex of the pool of
descriptors may be taken under any of them. Every part of the code is followed
under this discipline, from the pools to `ConcurrentAlloc` and `ConcurrentFree`.
-/
namespace TcAlloc

def Mutex.rank : Mutex → Nat
  | .spanPool => 1
  | _ => 0

section
variable {answers : Request → Option Nat → Prop} {h : List Mutex} {thrown : List Mutex → Prop}

/-! ### The parts of the page cache -/

abbrev plain (answers : Request → Option Nat → Prop) {σ : Type} : Discipline σ Mutex Request
    (Option Nat) := .plain Mutex.rank answers

theorem plain_modify {σ : Type} (f : σ → σ) : keeps (plain answers) (.modify f : Code σ Unit) h h thrown :=
  keeps_change (fun _ _ _ same => same) (fun _ _ => rfl) (fun _ => trivial)
theorem plain_read {σ β : Type} (g : σ → β) : keeps (plain answers) (.read g : Code σ β) h h thrown :=
  keeps_read g (fun _ _ same => congrArg g same)
theorem plain_zoom {σ τ α : Type} (lens : Lens σ τ) {p : Code τ α} (inner : keeps (plain answers) p h h thrown) :
    keeps (plain answers) (p.zoom lens) h h thrown :=
  keeps_zoom lens rfl (fun _ _ ok => ok) (fun _ _ _ _ => trivial)
  (fun _ s s' same => by cases same; exact ⟨rfl,fun _ => rfl⟩) inner

theorem systemAlloc_keeps {site : Site} {k : Nat} (fails : answers ⟨site,k⟩ none → thrown h) :
    keeps (plain answers) (systemAlloc site k) h h thrown := by
  intro a ok
  cases a with
  | none => exact fails ok
  | some base =>
    change keeps _ (Prog.modify _ >>= fun _ => pure base) h h thrown
    exact keeps_then (plain_modify _) (fun _ => rfl)

theorem ObjectPool.new_keeps {mutex : Mutex} {site : Site} {size : Nat} (above : ∀ m ∈ h, m.rank < mutex.rank)
    (fails : ∀ k, answers ⟨site,k⟩ none → thrown h) : keeps (plain answers) (ObjectPool.new mutex site size) h h thrown := by
  refine keeps_locked above (keeps_then (plain_read _) (fun pool => ?_))
  split
  · exact keeps_then (plain_modify _) (fun _ => rfl)
  · refine keeps_then (keeps_if (fun _ => ?_) (fun _ => rfl)) (fun _ => ?_)
    · refine keeps_then (plain_modify _)
        (fun _ => keeps_then (plain_zoom _ (systemAlloc_keeps (fun failed => ?_))) (fun _ => plain_modify _))
      exact ⟨List.mem_cons_self,by rw [List.erase_cons_head]; exact fails _ failed⟩
    · exact keeps_then (plain_read _) (fun _ => keeps_then (plain_modify _) (fun _ => rfl))

section
variable {bits : Nat} (fails : ∀ k, answers ⟨.mapNode,k⟩ none → thrown h)
include fails

theorem PageMap.midAt_keeps (i : Nat) : keeps (plain answers) (PageMap.midAt bits i) h h thrown := by
  refine keeps_then (plain_read _) (fun mid => keeps_if (fun _ => ?_) (fun _ => rfl))
  refine keeps_then (keeps_then (plain_zoom _ (systemAlloc_keeps (fails _))) (fun _ => ?_)) (fun _ => ?_)
  · exact keeps_then (plain_modify _) (fun _ => rfl)
  · exact keeps_then (plain_modify _) (fun _ => rfl)

theorem PageMap.leafAt_keeps (mid i : Nat) : keeps (plain answers) (PageMap.leafAt bits mid i) h h thrown := by
  refine keeps_then (plain_read _) (fun leaf => keeps_if (fun _ => ?_) (fun _ => rfl))
  refine keeps_then (keeps_then (plain_zoom _ (systemAlloc_keeps (fails _))) (fun _ => ?_)) (fun _ => ?_)
  · exact keeps_then (plain_modify _) (fun _ => rfl)
  · exact keeps_then (plain_modify _) (fun _ => rfl)

theorem PageMap.set_keeps {k v : Nat} : keeps (plain answers) (PageMap.set bits k v) h h thrown := by
  refine keeps_then (keeps_require _ _) (fun _ => ?_)
  refine keeps_then (PageMap.midAt_keeps fails _) (fun mid => ?_)
  exact keeps_then (PageMap.leafAt_keeps fails _ _) (fun leaf => plain_modify _)

end

theorem PageMap.load_keeps {bits k : Nat} : keeps (plain answers) (PageMap.load bits k) h h thrown := by
  refine keeps_if (fun _ => rfl) (fun _ => keeps_then (plain_read _) (fun mid => ?_))
  refine keeps_if (fun _ => rfl) (fun _ => keeps_then (plain_read _) (fun leaf => ?_))
  exact keeps_if (fun _ => rfl) (fun _ => plain_read _)

end

namespace Pages

/-- The lists of free spans change only under the mutex of the page cache. -/
def lockOrder (answers : Request → Option Nat → Prop) : Discipline Pages Mutex Request (Option Nat) where
  rank := Mutex.rank
  answers := answers
  change := fun h w w' => w'.spanList ≠ w.spanList → .pageCache ∈ h
  same := fun _ w w' => w = w'
  change_refl := fun _ _ changed => absurd rfl changed

section
variable {answers : Request → Option Nat → Prop} {h : List Mutex} {thrown : List Mutex → Prop}

theorem read_keeps {β : Type} (g : Pages → β) : keeps (lockOrder answers) (.read g : Code Pages β) h h thrown :=
  keeps_read g (fun _ _ same => congrArg g same)
theorem modify_keeps {f : Pages → Pages} (change : ∀ w, (f w).spanList ≠ w.spanList → .pageCache ∈ h) :
    keeps (lockOrder answers) (.modify f : Code Pages Unit) h h thrown :=
  keeps_change (fun _ _ _ same => same) (fun _ _ => rfl) change
theorem part_keeps {τ α : Type} (lens : Lens Pages τ) {p : Code τ α} (apart : ∀ w t, (lens.set w t).spanList = w.spanList)
    (inner : keeps (plain answers) p h h thrown) : keeps (lockOrder answers) (p.zoom lens) h h thrown :=
  keeps_zoom lens rfl (fun _ _ ok => ok) (fun _ w t _ changed => absurd (apart w t) changed)
    (fun _ s s' same => by cases same; exact ⟨rfl,fun _ => rfl⟩) inner

theorem get_keeps (S : Nat) : keeps (lockOrder answers) (get S) h h thrown := read_keeps _
theorem put_keeps (S : Nat) (f : Span → Span) : keeps (lockOrder answers) (put S f) h h thrown :=
  modify_keeps (fun _ changed => absurd rfl changed)
theorem findPage_keeps (q : Nat) : keeps (lockOrder answers) (findPage q) h h thrown :=
  part_keeps lookupPart (fun _ _ => rfl) PageMap.load_keeps

/-! ### What is done under the mutex of the page cache -/

theorem pushFront_keeps (i S : Nat) : keeps (lockOrder answers) (pushFront i S) [.pageCache] [.pageCache] thrown :=
  modify_keeps (fun _ _ => List.mem_singleton_self _)
theorem erase_keeps (S : Nat) : keeps (lockOrder answers) (erase S) [.pageCache] [.pageCache] thrown := by
  refine keeps_step (fun _ _ _ _ _ => List.mem_singleton_self _) ?_
  rintro w _ rfl
  by_cases linked : ∃ i, i < npages ∧ S ∈ w.spanList i
  · exact .inr ⟨(),_,_,if_pos linked,if_pos linked,rfl⟩
  · exact .inl ⟨_,if_neg linked,if_neg linked⟩
theorem deleteDescriptor_keeps (S : Nat) : keeps (lockOrder answers) (deleteDescriptor S) [.pageCache] [.pageCache] thrown :=
  keeps_locked (by simp [lockOrder,Mutex.rank]) (modify_keeps (fun _ changed => absurd rfl changed))
theorem systemFree_keeps (ptr k : Nat) : keeps (lockOrder answers) ((systemFree ptr k).zoom osPart)
    [.pageCache] [.pageCache] thrown :=
  part_keeps osPart (fun _ _ => rfl) (keeps_then (keeps_note _ |>.mpr rfl) (fun _ => plain_modify _))

variable (fails : ∀ q, answers q none → thrown [.pageCache])
include fails

theorem systemAlloc_pages_keeps (site : Site) (k : Nat) :
    keeps (lockOrder answers) ((systemAlloc site k).zoom osPart) [.pageCache] [.pageCache] thrown :=
  part_keeps osPart (fun _ _ => rfl) (systemAlloc_keeps (fails _))
theorem newDescriptor_keeps : keeps (lockOrder answers) newDescriptor [.pageCache] [.pageCache] thrown := by
  refine keeps_then (part_keeps poolPart (fun _ _ => rfl) (ObjectPool.new_keeps ?_ (fun k => fails _))) (fun S => ?_)
  · simp [Mutex.rank]
  · exact keeps_then (put_keeps _ _) (fun _ => rfl)
theorem setPage_keeps (q S : Nat) : keeps (lockOrder answers) (setPage q S) [.pageCache] [.pageCache] thrown :=
  part_keeps mapPart (fun _ _ => rfl) (PageMap.set_keeps (fun _ => fails _))
theorem setPages_keeps (q S count : Nat) : keeps (lockOrder answers) (setPages q S count)
    [.pageCache] [.pageCache] thrown := by
  induction count with
  | zero => exact rfl
  | succ count ih => exact keeps_then ih (fun _ => setPage_keeps fails _ _)

theorem newDirect_keeps (k : Nat) : keeps (lockOrder answers) (newDirect k) [.pageCache] [.pageCache] thrown := by
  refine keeps_then (systemAlloc_pages_keeps fails _ _) (fun ptr => keeps_then (newDescriptor_keeps fails) (fun S => ?_))
  exact keeps_then (put_keeps _ _) (fun _ => keeps_then (setPage_keeps fails _ _) (fun _ => rfl))
theorem takeExact_keeps (S : Nat) : keeps (lockOrder answers) (takeExact S) [.pageCache] [.pageCache] thrown := by
  refine keeps_then (erase_keeps _) (fun _ => keeps_then (get_keeps _) (fun s => ?_))
  exact keeps_then (setPages_keeps fails _ _ _) (fun _ => rfl)
theorem split_keeps (k S : Nat) : keeps (lockOrder answers) (split k S) [.pageCache] [.pageCache] thrown := by
  refine keeps_then (erase_keeps _) (fun _ => keeps_then (get_keeps _) (fun larger => ?_))
  refine keeps_then (keeps_require _ _) (fun _ => keeps_then (newDescriptor_keeps fails) (fun N => ?_))
  refine keeps_then (put_keeps _ _)
    (fun _ => keeps_then (put_keeps _ _) (fun _ => keeps_then (get_keeps _) (fun rest => ?_)))
  have entries : keeps (lockOrder answers)
    (setPage rest.pageId S >>= fun _ => setPage (minus (rest.pageId + rest.n) 1) S >>= fun _ =>
      setPages larger.pageId N k >>= fun _ => pure N) [.pageCache] [.pageCache] thrown := by
    refine keeps_then (setPage_keeps fails _ _) (fun _ => keeps_then (setPage_keeps fails _ _) (fun _ => ?_))
    exact keeps_then (setPages_keeps fails _ _ _) (fun _ => rfl)
  exact keeps_if (fun _ => keeps_then (pushFront_keeps _ _) (fun _ => entries)) (fun _ => entries)
theorem searchLarger_keeps (k : Nat) (lengths : List Nat) :
    keeps (lockOrder answers) (searchLarger k lengths) [.pageCache] [.pageCache] thrown := by
  induction lengths with
  | nil => exact rfl
  | cons i longer ih =>
    refine keeps_then (read_keeps _) (fun list => ?_)
    cases list with
    | nil => exact ih
    | cons S rest => exact keeps_then (split_keeps fails _ _) (fun _ => rfl)
theorem refill_keeps : keeps (lockOrder answers) refill [.pageCache] [.pageCache] thrown := by
  refine keeps_then (systemAlloc_pages_keeps fails _ _) (fun ptr => keeps_then (newDescriptor_keeps fails) (fun S => ?_))
  exact keeps_then (put_keeps _ _) (fun _ => pushFront_keeps _ _)

theorem newSpan_keeps (rounds k : Nat) : keeps (lockOrder answers) (newSpan rounds k) [.pageCache] [.pageCache] thrown := by
  induction rounds with
  | zero => trivial
  | succ rounds ih =>
    refine keeps_then (keeps_require _ _) (fun _ => keeps_if (fun _ => newDirect_keeps fails _) (fun _ => ?_))
    refine keeps_then (read_keeps _) (fun list => ?_)
    cases list with
    | cons S rest => exact takeExact_keeps fails _
    | nil =>
      refine keeps_then (searchLarger_keeps fails _ _) (fun found => ?_)
      cases found with
      | some S => exact rfl
      | none => exact keeps_then (refill_keeps fails) (fun _ => ih)

omit fails in
theorem mergeLeft_keeps (S rounds : Nat) : keeps (lockOrder answers) (mergeLeft S rounds)
    [.pageCache] [.pageCache] thrown := by
  induction rounds with
  | zero => trivial
  | succ rounds ih =>
    refine keeps_then (get_keeps _)
      (fun s => keeps_then (findPage_keeps _) (fun it => keeps_if (fun _ => rfl) (fun _ => ?_)))
    refine keeps_then (get_keeps _) (fun left => keeps_if (fun _ => rfl) (fun _ => keeps_if (fun _ => rfl) (fun _ => ?_)))
    refine keeps_then (keeps_note _ |>.mpr rfl) (fun _ => keeps_then (erase_keeps _) (fun _ => ?_))
    exact keeps_then (put_keeps _ _) (fun _ => keeps_then (deleteDescriptor_keeps _) (fun _ => ih))
omit fails in
theorem mergeRight_keeps (S rounds : Nat) : keeps (lockOrder answers) (mergeRight S rounds)
    [.pageCache] [.pageCache] thrown := by
  induction rounds with
  | zero => trivial
  | succ rounds ih =>
    refine keeps_then (get_keeps _)
      (fun s => keeps_then (findPage_keeps _) (fun it => keeps_if (fun _ => rfl) (fun _ => ?_)))
    refine keeps_then (get_keeps _) (fun right => keeps_if (fun _ => rfl) (fun _ => keeps_if (fun _ => rfl) (fun _ => ?_)))
    refine keeps_then (keeps_note _ |>.mpr rfl) (fun _ => keeps_then (erase_keeps _) (fun _ => ?_))
    exact keeps_then (put_keeps _ _) (fun _ => keeps_then (deleteDescriptor_keeps _) (fun _ => ih))

theorem releaseSpanToPageCache_keeps (rounds S : Nat) :
    keeps (lockOrder answers) (releaseSpanToPageCache rounds S) [.pageCache] [.pageCache] thrown := by
  refine keeps_then (keeps_require _ _) (fun _ => keeps_then (get_keeps _) (fun s => keeps_if (fun _ => ?_) (fun _ => ?_)))
  · exact keeps_then (systemFree_keeps _ _) (fun _ => deleteDescriptor_keeps _)
  · refine keeps_then (mergeLeft_keeps _ _) (fun _ => keeps_then (mergeRight_keeps _ _) (fun _ => ?_))
    refine keeps_then (put_keeps _ _) (fun _ => keeps_then (get_keeps _) (fun merged => ?_))
    refine keeps_then (pushFront_keeps _ _)
      (fun _ => keeps_then (setPage_keeps fails _ _) (fun _ => setPage_keeps fails _ _))

end
end Pages

namespace World

/-- The list of a bucket is read and changed only under the mutex of the bucket;
    the lists of free spans change only under the mutex of the page cache. -/
def lockOrder (answers : Request → Option Nat → Prop) : Discipline World Mutex Request (Option Nat) where
  rank := Mutex.rank
  answers := answers
  change := fun h w w' => (∀ i, w'.spanLists i ≠ w.spanLists i → .bucket i ∈ h) ∧
    (w'.pages.spanList ≠ w.pages.spanList → .pageCache ∈ h)
  same := fun h w w' => w' = { w with spanLists := w'.spanLists } ∧ ∀ i, .bucket i ∈ h → w'.spanLists i = w.spanLists i
  change_refl := fun _ _ => ⟨fun _ changed => absurd rfl changed,fun changed => absurd rfl changed⟩

section
variable {answers : Request → Option Nat → Prop} {h : List Mutex} {thrown : List Mutex → Prop}

/-- What an action sees of the state that no bucket guards. -/
theorem apart_eq {h : List Mutex} {w w' : World} (same : (lockOrder answers).same h w w') :
    w'.pages = w.pages ∧ w'.mem = w.mem ∧ w'.tcPool = w.tcPool ∧ w'.tlsThreadCache = w.tlsThreadCache ∧
    w'.freeLists = w.freeLists := by
  rw [same.1]; exact ⟨rfl,rfl,rfl,rfl,rfl⟩

theorem read_keeps {β : Type} (g : World → β) (apart : ∀ w lists, g { w with spanLists := lists } = g w) :
    keeps (lockOrder answers) (.read g : Code World β) h h thrown :=
  keeps_read g (fun w w' same => by rw [same.1]; exact (apart w _).symm)
theorem modify_keeps {f : World → World} (lists : ∀ w, (f w).spanLists = w.spanLists)
    (free : ∀ w, (f w).pages.spanList = w.pages.spanList)
    (apart : ∀ w lists, f { w with spanLists := lists } = { f w with spanLists := lists }) :
    keeps (lockOrder answers) (.modify f : Code World Unit) h h thrown := by
  refine keeps_modify (fun w => ⟨fun i changed => ?_,fun changed => absurd (free w) changed⟩) (fun w w' same => ?_)
  · rw [lists] at changed; exact absurd rfl changed
  · refine ⟨?_,fun i held => by rw [lists,lists]; exact same.2 i held⟩
    rw [lists,same.1,apart]
theorem onList_keeps {β : Type} (tc i : Nat) (g : Memory → FreeList → Except Fault (β × Memory × FreeList)) :
    keeps (lockOrder answers) (onList tc i g) h h thrown := by
  refine keeps_step (fun w b w' ok => ?_) (fun w w' same => ?_)
  · split at ok
    · cases ok
      exact ⟨fun _ changed => absurd rfl changed,fun changed => absurd rfl changed⟩
    · cases ok
  · obtain ⟨_,mem,_,_,freeLists⟩ := apart_eq same
    rw [mem,freeLists]
    cases g w.mem (w.freeLists tc i) with
    | error why => exact .inl ⟨why,rfl,rfl⟩
    | ok r =>
      refine .inr ⟨r.1,_,_,rfl,rfl,?_,same.2⟩
      simp only [withList]
      rw [same.1]
theorem pages_keeps {α : Type} {p : Code Pages α} {ends : List Mutex}
    (inner : keeps (Pages.lockOrder answers) p h ends thrown) :
    keeps (lockOrder answers) (p.zoom pagesPart) h ends thrown := by
  refine keeps_zoom pagesPart (E := Pages.lockOrder answers) rfl (fun _ _ ok => ok) (fun _ w t change => ?_)
    (fun _ w w' same => ?_) inner
  · exact ⟨fun _ changed => absurd rfl changed,change⟩
  · refine ⟨(apart_eq same).1,fun t => ⟨?_,same.2⟩⟩
    simp only [pagesPart]
    rw [same.1]

theorem getSpan_keeps (S : Nat) : keeps (lockOrder answers) (getSpan S) h h thrown := pages_keeps (Pages.get_keeps S)
theorem putSpan_keeps (S : Nat) (f : Span → Span) : keeps (lockOrder answers) (putSpan S f) h h thrown :=
  pages_keeps (Pages.put_keeps S f)
theorem setNext_keeps (obj next : Nat) : keeps (lockOrder answers) (setNext obj next) h h thrown :=
  modify_keeps (fun _ => rfl) (fun _ => rfl) (fun _ _ => rfl)
theorem mapObjectToSpan_keeps (obj : Nat) : keeps (lockOrder answers) (mapObjectToSpan obj) h h thrown :=
  keeps_then (pages_keeps (Pages.findPage_keeps _)) (fun _ => keeps_then (keeps_require _ _) (fun _ => rfl))
theorem firstFree_keeps (list : List Nat) : keeps (lockOrder answers) (firstFree list) h h thrown := by
  induction list with
  | nil => exact rfl
  | cons it later ih => exact keeps_then (getSpan_keeps _) (fun s => keeps_if (fun _ => rfl) (fun _ => ih))
theorem carve_keeps (size S : Nat) : keeps (lockOrder answers) (carve size S) h h thrown := by
  refine keeps_step (fun w b w' ok => ?_) (fun w w' same => ?_)
  · dsimp only at ok
    split at ok
    · cases ok
      exact ⟨fun _ changed => absurd rfl changed,fun changed => absurd rfl changed⟩
    · cases ok
  · obtain ⟨pages,mem,_⟩ := apart_eq same
    dsimp only
    rw [pages,mem]
    split
    · refine .inr ⟨(),_,_,rfl,rfl,?_,same.2⟩
      rw [same.1]
    · exact .inl ⟨_,rfl,rfl⟩

/-! ### The lists of the buckets -/

theorem readList_keeps (index : Nat) : keeps (lockOrder answers) (.read (·.spanLists index) : Code World (List Nat))
    [.bucket index] [.bucket index] thrown :=
  keeps_read _ (fun _ _ same => (same.2 index (List.mem_singleton_self _)).symm)
theorem pushSpan_keeps (index S : Nat) : keeps (lockOrder answers) (pushSpan index S) [.bucket index]
    [.bucket index] thrown := by
  refine keeps_modify (fun w => ⟨fun i changed => ?_,fun changed => absurd rfl changed⟩) (fun w w' same => ?_)
  · by_cases here : i = index
    · rw [here]; exact List.mem_singleton_self _
    · exact absurd (Function.update_of_ne here ..) changed
  · refine ⟨by rw [same.1],fun i held => ?_⟩
    by_cases here : i = index
    · subst here
      simp only [Function.update_self,same.2 i held]
    · simp only [Function.update_of_ne here]; exact same.2 i held
theorem eraseSpan_keeps (index S : Nat) : keeps (lockOrder answers) (eraseSpan index S) [.bucket index]
    [.bucket index] thrown := by
  refine keeps_step (fun w b w' ok => ⟨fun i changed => ?_,fun changed => ?_⟩) (fun w w' same => ?_)
  · by_cases here : i = index
    · rw [here]; exact List.mem_singleton_self _
    · split_ifs at ok
      cases ok
      exact absurd (Function.update_of_ne here ..) changed
  · split_ifs at ok
    cases ok
    exact absurd rfl changed
  · have list := same.2 index (List.mem_singleton_self _)
    by_cases linked : S ∈ w.spanLists index
    · refine .inr ⟨(),_,_,if_pos linked,if_pos (list ▸ linked),?_,fun i held => ?_⟩
      · rw [same.1]
      · by_cases here : i = index
        · subst here
          simp only [Function.update_self,list]
        · simp only [Function.update_of_ne here]; exact same.2 i held
    · exact .inl ⟨_,if_neg linked,if_neg (list ▸ linked)⟩

/-! ### The code under the discipline -/

theorem cutBatch_keeps (batchNum S : Nat) : keeps (lockOrder answers) (cutBatch batchNum S) h h thrown := by
  refine keeps_then (getSpan_keeps _) (fun s => keeps_then (keeps_require _ _) (fun _ => ?_))
  refine keeps_then (read_keeps _ (fun _ _ => rfl))
    (fun batch => keeps_then (read_keeps _ (fun _ _ => rfl)) (fun next => ?_))
  exact keeps_then (putSpan_keeps _ _)
    (fun _ => keeps_then (setNext_keeps _ _) (fun _ => keeps_then (putSpan_keeps _ _) (fun _ => rfl)))
theorem takeBatch_keeps (index batchNum S : Nat) : keeps (lockOrder answers) (takeBatch index batchNum S)
    [.bucket index] [] thrown :=
  keeps_then (keeps_require _ _)
  (fun _ => keeps_then (cutBatch_keeps _ _) (fun _ => keeps_seq (keeps_leave _) (fun _ => rfl)))
theorem returnObject_keeps (start : Nat) : keeps (lockOrder answers) (returnObject start) h h thrown := by
  refine keeps_then (mapObjectToSpan_keeps _) (fun S => keeps_then (keeps_require _ _) (fun _ => ?_))
  refine keeps_then (read_keeps _ (fun _ _ => rfl)) (fun next => keeps_then (getSpan_keeps _) (fun s => ?_))
  refine keeps_then (setNext_keeps _ _)
    (fun _ => keeps_then (putSpan_keeps _ _) (fun _ => keeps_then (putSpan_keeps _ _) (fun _ => ?_)))
  exact keeps_then (getSpan_keeps _) (fun s => rfl)
theorem unlinkSpan_keeps (index S : Nat) : keeps (lockOrder answers) (unlinkSpan index S)
    [.bucket index] [.bucket index] thrown :=
  keeps_then (eraseSpan_keeps _ _) (fun _ => putSpan_keeps _ _)

theorem keepBatch_keeps (tc index : Nat) (batch : Nat × Nat × Nat) : keeps (lockOrder answers)
    (keepBatch tc index batch) h h thrown := by
  refine keeps_then (keeps_require _ _)
    (fun _ => keeps_then (keeps_require _ _) (fun _ => keeps_then (keeps_require _ _) (fun _ => ?_)))
  refine keeps_if (fun _ => ?_) (fun _ => rfl)
  exact keeps_then (keeps_require _ _) (fun _ => keeps_then (onList_keeps _ _ _) (fun _ => rfl))

variable (b : Build) (fails : ∀ q, answers q none → thrown [.pageCache])
include fails

theorem takeSpan_keeps (npage size : Nat) : keeps (lockOrder answers) (takeSpan b npage size) [] [] thrown := by
  refine keeps_holding (fun _ mem => nomatch mem) (keeps_then (pages_keeps (Pages.newSpan_keeps fails _ _)) (fun S => ?_))
  exact keeps_then (putSpan_keeps _ _) (fun _ => keeps_then (putSpan_keeps _ _) (fun _ => rfl))
theorem releaseSpan_keeps (S : Nat) : keeps (lockOrder answers) (releaseSpan b S) [] [] thrown :=
  keeps_holding (fun _ mem => nomatch mem) (pages_keeps (Pages.releaseSpanToPageCache_keeps fails _ _))

theorem addSpan_keeps (index size : Nat) : keeps (lockOrder answers) (addSpan b index size) [.bucket index]
    [.bucket index] thrown := by
  refine keeps_seq (keeps_leave _) (fun _ => ?_)
  refine keeps_then (takeSpan_keeps b fails _ _)
    (fun S => keeps_then (keeps_require _ _) (fun _ => keeps_then (carve_keeps _ _) (fun _ => ?_)))
  refine keeps_seq (keeps_enter _) (fun _ => ?_)
  exact keeps_then (pushSpan_keeps _ _) (fun _ => rfl)
theorem getOneSpan_keeps (index size : Nat) : keeps (lockOrder answers) (getOneSpan b index size) [.bucket index]
    [.bucket index] thrown := by
  refine keeps_then (readList_keeps _) (fun list => keeps_then (firstFree_keeps _) (fun found => ?_))
  cases found with
  | some it => exact rfl
  | none => exact addSpan_keeps b fails _ _
theorem fetchRangeObj_keeps (batchNum size : Nat) : keeps (lockOrder answers)
    (fetchRangeObj b batchNum size) [] [] thrown := by
  refine keeps_then (keeps_require _ _) (fun _ => keeps_then (keeps_require _ _) (fun _ => ?_))
  refine keeps_seq (keeps_enter _) (fun _ => ?_)
  exact keeps_then (getOneSpan_keeps b fails _ _) (fun S => takeBatch_keeps _ _ _)

theorem flush_keeps (index rounds : Nat) : ∀ start, keeps (lockOrder answers) (flush b index rounds start)
    [.bucket index] [] thrown := by
  induction rounds with
  | zero => exact fun _ => trivial
  | succ rounds ih =>
    intro start
    refine keeps_if (fun _ => keeps_leave _) (fun _ => keeps_then (returnObject_keeps _) (fun object => ?_))
    refine keeps_if (fun _ => keeps_then (unlinkSpan_keeps _ _) (fun _ => ?_)) (fun _ => ih _)
    refine keeps_seq (keeps_leave _) (fun _ => ?_)
    refine keeps_then (releaseSpan_keeps b fails _) (fun _ => ?_)
    exact keeps_seq (keeps_enter _) (fun _ => ih _)
theorem releaseListToSpans_keeps (start byteSize : Nat) : keeps (lockOrder answers)
    (releaseListToSpans b start byteSize) [] [] thrown := by
  refine keeps_then (keeps_require _ _) (fun _ => keeps_then (keeps_require _ _) (fun _ => ?_))
  exact keeps_seq (keeps_enter _) (fun _ => flush_keeps b fails _ _ _)

theorem allocate_keeps (tc size : Nat) : keeps (lockOrder answers) (allocate b tc size) [] [] thrown := by
  refine keeps_then (keeps_require _ _) (fun _ => keeps_then (onList_keeps _ _ _) (fun popped => ?_))
  cases popped with
  | some obj => exact rfl
  | none =>
    refine keeps_then (keeps_require _ _)
      (fun _ => keeps_then (keeps_require _ _) (fun _ => keeps_then (onList_keeps _ _ _) (fun _ => ?_)))
    exact keeps_then (fetchRangeObj_keeps b fails _ _) (fun _ => keepBatch_keeps _ _ _)
theorem deallocate_keeps (tc ptr size : Nat) : keeps (lockOrder answers) (deallocate b tc ptr size) [] [] thrown := by
  refine keeps_then (keeps_require _ _)
    (fun _ => keeps_then (keeps_require _ _) (fun _ => keeps_then (onList_keeps _ _ _) (fun long => ?_)))
  refine keeps_if (fun _ => ?_) (fun _ => rfl)
  exact keeps_then (keeps_require _ _)
    (fun _ => keeps_then (onList_keeps _ _ _) (fun range => releaseListToSpans_keeps b fails _ _))

theorem concurrentFree_keeps (t ptr : Nat) : keeps (lockOrder answers) (concurrentFree b t ptr) [] [] thrown := by
  refine keeps_then (mapObjectToSpan_keeps _) (fun S => keeps_then (getSpan_keeps _) (fun s => ?_))
  refine keeps_if (fun _ => releaseSpan_keeps b fails _) (fun _ => keeps_then (read_keeps _ (fun _ _ => rfl)) (fun tc => ?_))
  exact keeps_then (keeps_require _ _) (fun _ => deallocate_keeps b fails _ _ _)

variable (cacheFails : ∀ k, answers ⟨.threadCachePool,k⟩ none → thrown [])
include cacheFails

omit fails in
theorem newThreadCache_keeps : keeps (lockOrder answers) (newThreadCache b) [] [] thrown := by
  refine keeps_then ?_ (fun tc => keeps_then (modify_keeps (fun _ => rfl) (fun _ => rfl) (fun _ _ => rfl)) (fun _ => rfl))
  refine keeps_zoom tcPoolPart (E := plain answers) rfl (fun _ _ ok => ok) (fun _ w t _ => ?_) (fun _ w w' same => ?_)
    (ObjectPool.new_keeps (fun _ mem => nomatch mem) cacheFails)
  · exact ⟨fun _ changed => absurd rfl changed,fun changed => absurd rfl changed⟩
  · obtain ⟨pages,_,pool,_⟩ := apart_eq same
    refine ⟨by simp only [tcPoolPart,pages,pool],fun t => ⟨?_,same.2⟩⟩
    simp only [tcPoolPart]
    rw [same.1]
omit fails in
theorem ownCache_keeps (t : Nat) : keeps (lockOrder answers) (ownCache b t) [] [] thrown := by
  refine keeps_then (read_keeps _ (fun _ _ => rfl)) (fun tc => keeps_if (fun _ => ?_) (fun _ => rfl))
  refine keeps_then (newThreadCache_keeps b cacheFails) (fun tc => ?_)
  exact keeps_then (modify_keeps (fun _ => rfl) (fun _ => rfl) (fun _ _ => rfl)) (fun _ => rfl)
theorem concurrentAlloc_keeps (t size : Nat) : keeps (lockOrder answers) (concurrentAlloc b t size) [] [] thrown := by
  refine keeps_if (fun _ => ?_) (fun _ => keeps_then (ownCache_keeps b cacheFails t) (fun tc => allocate_keeps b fails _ _))
  exact keeps_then (takeSpan_keeps b fails _ _) (fun S => keeps_then (getSpan_keeps _) (fun s => rfl))

end
end World
end TcAlloc
