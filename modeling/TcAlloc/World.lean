import TcAlloc.PageCache
import TcAlloc.Chains

/-!
The whole allocator: the thread caches over the central cache over the page cache.
An object is known by its address, and a free object holds the address of the next
one of its list in its first word. Lists of a thread's own are worked on one
operation at a time (`onList`); what the threads share is worked on one access at
a time, under the mutexes that the code takes.
-/
namespace TcAlloc

/-! ### Free lists -/

/-- `FreeList`: its first object, the length at which it is flushed, its length. -/
structure FreeList where
  head : Nat := 0
  maxSize : Nat := 1
  size : Nat := 0
  deriving DecidableEq

/-- The node `n` links on from `obj`. -/
def follow (m : Memory) : Nat → Nat → Except Fault Nat
  | 0, obj => .ok obj
  | n+1, obj => if obj = 0 then .error .nullPointer else follow m n (m.load obj)

namespace FreeList

/-- `Push`. -/
def push (obj : Nat) (m : Memory) (l : FreeList) : Except Fault (Unit × Memory × FreeList) :=
  if obj = 0 then .error .assertion
  else .ok ((),m.store obj l.head,{ l with head := obj, size := l.size + 1 })

/-- `Pop`. -/
def pop (m : Memory) (l : FreeList) : Except Fault (Nat × Memory × FreeList) :=
  if l.head = 0 then .error .assertion
  else .ok (l.head,m,{ l with head := m.load l.head, size := minus l.size 1 })

/-- `PushRange`. -/
def pushRange (start end_ n : Nat) (m : Memory) (l : FreeList) : Except Fault (Unit × Memory × FreeList) :=
  if start = 0 ∨ end_ = 0 then .error .assertion
  else .ok ((),m.store end_ l.head,{ l with head := start, size := l.size + n })

/-- `PopRange`, which returns the first and the last object of the range. -/
def popRange (n : Nat) (m : Memory) (l : FreeList) : Except Fault ((Nat × Nat) × Memory × FreeList) :=
  if n = 0 ∨ l.size < n then .error .assertion
  else match follow m (n - 1) l.head with
    | .error why => .error why
    | .ok last =>
      if last = 0 then .error .nullPointer
      else .ok ((l.head,last),m.store last 0,{ l with head := m.load last, size := minus l.size n })

end FreeList

/-! ### The state -/

/-- The page cache with the descriptors, the memory of the objects, the lists of
    the central cache, and the thread caches with the pointer each thread has to its own. -/
structure World where
  pages : Pages
  mem : Memory
  spanLists : Nat → List Nat
  tcPool : ObjectPool
  tlsThreadCache : Nat → Nat
  freeLists : Nat → Nat → FreeList

namespace World

/-- The allocator when the program starts, whatever memory holds. -/
def start (mem : Memory) : World := ⟨.start,mem,fun _ => [],{},fun _ => 0,fun _ _ => {}⟩

def pagesPart : Lens World Pages :=
  ⟨fun w => w.pages,fun w pages => { w with pages := pages },fun _ _ => rfl,fun _ => rfl,fun _ _ _ => rfl⟩
def tcPoolPart : Lens World (ObjectPool × OS) :=
  ⟨fun w => (w.tcPool,w.pages.os),fun w t => { w with tcPool := t.1, pages := { w.pages with os := t.2 } },fun _ _ => rfl,
    fun _ => rfl,fun _ _ _ => rfl⟩

/-- `sizeof(ThreadCache)`. -/
def threadCacheBytes (b : Build) : Nat := 24 * SizeClass.nfreelists b.midAlignShift

/-- The state with a list of a thread cache changed. -/
def withList (w : World) (tc i : Nat) (m : Memory) (l : FreeList) : World :=
  { w with mem := m, freeLists := Function.update w.freeLists tc (Function.update (w.freeLists tc) i l) }

/-- One operation on a list of a thread cache. -/
def onList {β : Type} (tc i : Nat) (g : Memory → FreeList → Except Fault (β × Memory × FreeList)) : Code World β :=
  .step (fun w => match g w.mem (w.freeLists tc i) with
    | .ok r => .ok (r.1,w.withList tc i r.2.1 r.2.2)
    | .error why => .error why)

def getSpan (span : Nat) : Code World Span := (Pages.get span).zoom pagesPart
def putSpan (span : Nat) (f : Span → Span) : Code World Unit := (Pages.put span f).zoom pagesPart
/-- `NextObj(obj) = next`. -/
def setNext (obj next : Nat) : Code World Unit := .modify (fun w => { w with mem := w.mem.store obj next })

/-! ### PageCache -/

/-- `MapObjectToSpan`. -/
def mapObjectToSpan (obj : Nat) : Code World Nat := do
  let it ← (Pages.findPage (obj >>> pageShift)).zoom pagesPart
  .require (it ≠ 0) .assertion
  return it

/-- A span of `npage` pages for objects of `size` bytes, taken under the mutex. -/
def takeSpan (b : Build) (npage size : Nat) : Code World Nat :=
  .holding .pageCache do
    let span ← (Pages.newSpan b.rounds npage).zoom pagesPart
    putSpan span (fun s => { s with isUse := true })
    putSpan span (fun s => { s with objSize := size })
    return span

/-- A span given back under the mutex. -/
def releaseSpan (b : Build) (span : Nat) : Code World Unit :=
  .holding .pageCache ((Pages.releaseSpanToPageCache b.rounds span).zoom pagesPart)

/-! ### CentralCache -/

/-- The loop of `GetOneSpan` over a bucket's list. -/
def firstFree : List Nat → Code World (Option Nat)
  | [] => pure none
  | it :: later => do
    let s ← getSpan it
    if s.freeList ≠ 0 then pure (some it) else firstFree later

/-- The links from `tail` on, for objects up to `end_`; the bound is one on the rounds. -/
def carveFrom (size end_ : Nat) : Nat → Memory → Nat → Nat → Except Fault Memory
  | 0, _, _, _ => .error .outOfFuel
  | rounds+1, m, tail, start =>
    if start + size < end_ then carveFrom size end_ rounds (m.store tail start) start (start + size)
    else .ok (m.store tail 0)

/-- The free list of a new span, which no other thread can see yet. -/
def carve (size newSpan : Nat) : Code World Unit :=
  .step (fun w =>
    let s := w.pages.spans newSpan
    let start := s.pageId <<< pageShift
    let end_ := start + s.n <<< pageShift
    match carveFrom size end_ (s.n <<< pageShift) w.mem start (start + size) with
    | .ok m => .ok ((),{ w with mem := m, pages := w.pages.write newSpan (fun s => { s with freeList := start }) })
    | .error why => .error why)

/-- `_spanLists[index].PushFront`. -/
def pushSpan (index span : Nat) : Code World Unit :=
  .modify (fun w => { w with spanLists := Function.update w.spanLists index (span :: w.spanLists index) })
/-- `_spanLists[index].Erase`, which follows the links of the descriptor. -/
def eraseSpan (index span : Nat) : Code World Unit :=
  .step (fun w => if span ∈ w.spanLists index then
      .ok ((),{ w with spanLists := Function.update w.spanLists index ((w.spanLists index).erase span) })
    else .error .nullPointer)

/-- The new span linked in its bucket. -/
def linkSpan (index newSpan : Nat) : Code World Nat := do
  .acquire (.bucket index)
  pushSpan index newSpan
  return newSpan

/-- The new span carved and linked. -/
def carveSpan (index size newSpan : Nat) : Code World Nat := do
  .require (newSpan ≠ 0) .assertion
  carve size newSpan
  linkSpan index newSpan

/-- `GetOneSpan` where no listed span has free objects. -/
def addSpan (b : Build) (index size : Nat) : Code World Nat := do
  .release (.bucket index)
  let newSpan ← takeSpan b (SizeClass.numMovePage size) size
  carveSpan index size newSpan

/-- `GetOneSpan`: it is called, and returns, with the mutex of the bucket held. -/
def getOneSpan (b : Build) (index size : Nat) : Code World Nat := do
  let list ← .read (·.spanLists index)
  match ← firstFree list with
  | some it => return it
  | none => addSpan b index size

/-- The last object of a batch and the number of its objects: `left` more at most. -/
def batchEnd (m : Memory) : Nat → Nat → Nat → Nat × Nat
  | 0, end_, actualNum => (end_,actualNum)
  | left+1, end_, actualNum => if m.load end_ ≠ 0 then batchEnd m left (m.load end_) (actualNum + 1) else (end_,actualNum)

/-- The first objects of a span's list cut off, with their first, their last and their number. -/
def cutBatch (batchNum span : Nat) : Code World (Nat × Nat × Nat) := do
  let s ← getSpan span
  .require (s.freeList ≠ 0) .assertion
  let batch ← .read (fun w => batchEnd w.mem (minus batchNum 1) s.freeList 1)
  let next ← .read (fun w => w.mem.load batch.1)
  putSpan span (fun s => { s with freeList := next })
  setNext batch.1 0
  putSpan span (fun s => { s with useCount := s.useCount + batch.2 })
  return (s.freeList,batch.1,batch.2)

/-- `FetchRangeObj` once it has its span. -/
def takeBatch (index batchNum span : Nat) : Code World (Nat × Nat × Nat) := do
  .require (span ≠ 0) .assertion
  let batch ← cutBatch batchNum span
  .release (.bucket index)
  return batch

/-- `FetchRangeObj`, which returns the first and the last object and their number. -/
def fetchRangeObj (b : Build) (batchNum size : Nat) : Code World (Nat × Nat × Nat) := do
  .require (0 < batchNum) .assertion
  .require (size ≤ maxBytes) .assertion
  .acquire (.bucket (SizeClass.index b.midAlignShift size))
  let span ← getOneSpan b (SizeClass.index b.midAlignShift size) size
  takeBatch (SizeClass.index b.midAlignShift size) batchNum span

/-- An object put back on the list of its span: the span, the next object of the
    batch, and how many objects of the span are still out. -/
def returnObject (start : Nat) : Code World (Nat × Nat × Nat) := do
  let span ← mapObjectToSpan start
  .require (span ≠ 0) .assertion
  let next ← .read (fun w => w.mem.load start)
  let s ← getSpan span
  setNext start s.freeList
  putSpan span (fun s => { s with freeList := start })
  putSpan span (fun s => { s with useCount := minus s.useCount 1 })
  let s ← getSpan span
  return (span,next,s.useCount)

/-- A span with all its objects back leaves the bucket. -/
def unlinkSpan (index span : Nat) : Code World Unit := do
  eraseSpan index span
  putSpan span (fun s => { s with freeList := 0 })

/-- The loop of `ReleaseListToSpans`, to the unlock after it. -/
def flush (b : Build) (index : Nat) : Nat → Nat → Code World Unit
  | 0, _ => .fail .outOfFuel
  | rounds+1, start =>
    if start = 0 then .release (.bucket index)
    else do
      let (span,next,useCount) ← returnObject start
      if useCount = 0 then do
        unlinkSpan index span
        .release (.bucket index)
        releaseSpan b span
        .acquire (.bucket index)
        flush b index rounds next
      else flush b index rounds next

/-- `ReleaseListToSpans`. -/
def releaseListToSpans (b : Build) (start byteSize : Nat) : Code World Unit := do
  .require (start ≠ 0) .assertion
  .require (byteSize ≤ maxBytes) .assertion
  .acquire (.bucket (SizeClass.index b.midAlignShift byteSize))
  flush b (SizeClass.index b.midAlignShift byteSize) b.rounds start

/-! ### ThreadCache -/

/-- The number of objects to fetch; the list's cap grows until it is that of its size. -/
def nextBatch (size : Nat) (m : Memory) (l : FreeList) : Except Fault (Nat × Memory × FreeList) :=
  let batchNum := min (SizeClass.numMoveSize size) l.maxSize
  .ok (batchNum,m,if batchNum = l.maxSize then { l with maxSize := l.maxSize + 1 } else l)

/-- `FetchFromCentralCache` once it has its batch: the first object is the caller's. -/
def keepBatch (tc index : Nat) (batch : Nat × Nat × Nat) : Code World Nat := do
  let (start,end_,actualNum) := batch
  .require (start ≠ 0) .assertion
  .require (end_ ≠ 0) .assertion
  .require (0 < actualNum) .assertion
  if 1 < actualNum then do
    .require (start ≠ end_) .assertion
    onList tc index (fun m l => FreeList.pushRange (m.load start) end_ (actualNum - 1) m l)
    return start
  else return start

/-- `FetchFromCentralCache`. -/
def fetchFromCentralCache (b : Build) (tc index size : Nat) : Code World Nat := do
  .require (index < SizeClass.nfreelists b.midAlignShift) .assertion
  .require (size ≤ maxBytes) .assertion
  let batchNum ← onList tc index (nextBatch size)
  let batch ← fetchRangeObj b batchNum size
  keepBatch tc index batch

/-- `Pop`, if the list is not empty. -/
def popIfAny (m : Memory) (l : FreeList) : Except Fault (Option Nat × Memory × FreeList) :=
  if l.head = 0 then .ok (none,m,l) else (FreeList.pop m l).map (fun r => (some r.1,r.2))

/-- `Allocate`. -/
def allocate (b : Build) (tc size : Nat) : Code World Nat := do
  .require (size ≤ maxBytes) .assertion
  match ← onList tc (SizeClass.index b.midAlignShift size) popIfAny with
  | some obj => return obj
  | none => fetchFromCentralCache b tc (SizeClass.index b.midAlignShift size) (SizeClass.roundUp b.midAlignShift size)

/-- `ListTooLong`. -/
def listTooLong (b : Build) (tc index size : Nat) : Code World Unit := do
  .require (size ≤ maxBytes) .assertion
  let range ← onList tc index (fun m l => FreeList.popRange l.maxSize m l)
  releaseListToSpans b range.1 size

/-- `Push`, and whether the list has come to its cap. -/
def pushAndTest (obj : Nat) (m : Memory) (l : FreeList) : Except Fault (Bool × Memory × FreeList) :=
  (FreeList.push obj m l).map (fun r => (decide (r.2.2.maxSize ≤ r.2.2.size),r.2))

/-- `Deallocate`. -/
def deallocate (b : Build) (tc ptr size : Nat) : Code World Unit := do
  .require (size ≤ maxBytes) .assertion
  .require (ptr ≠ 0) .assertion
  let long ← onList tc (SizeClass.index b.midAlignShift size) (pushAndTest ptr)
  if long then listTooLong b tc (SizeClass.index b.midAlignShift size) (SizeClass.roundUp b.midAlignShift size)
  else pure ()

/-! ### ConcurrentAlloc and ConcurrentFree -/

/-- `tcPool.New()`. -/
def newThreadCache (b : Build) : Code World Nat := do
  let tc ← (ObjectPool.new .threadCachePool .threadCachePool (threadCacheBytes b)).zoom tcPoolPart
  .modify (fun w => { w with freeLists := Function.update w.freeLists tc (fun _ => {}) })
  return tc

/-- The thread cache of thread `t`, made where there is none. -/
def ownCache (b : Build) (t : Nat) : Code World Nat := do
  let tc ← .read (·.tlsThreadCache t)
  if tc = 0 then do
    let tc ← newThreadCache b
    .modify (fun w => { w with tlsThreadCache := Function.update w.tlsThreadCache t tc })
    return tc
  else return tc

/-- `ConcurrentAlloc` for more than `MAX_BYTES`. -/
def allocLarge (b : Build) (size : Nat) : Code World Nat := do
  let alignedSize := SizeClass.roundUp b.midAlignShift size
  let span ← takeSpan b (alignedSize >>> pageShift) alignedSize
  let s ← getSpan span
  return s.pageId <<< pageShift

/-- `ConcurrentAlloc`, called by thread `t`. -/
def concurrentAlloc (b : Build) (t size : Nat) : Code World Nat :=
  if maxBytes < size then allocLarge b size
  else do
    let tc ← ownCache b t
    allocate b tc size

/-- `ConcurrentFree` once it has the size of the object. -/
def freeSized (b : Build) (t ptr span size : Nat) : Code World Unit :=
  if maxBytes < size then releaseSpan b span
  else do
    let tc ← .read (·.tlsThreadCache t)
    .require (tc ≠ 0) .assertion
    deallocate b tc ptr size

/-- `ConcurrentFree`, called by thread `t`. -/
def concurrentFree (b : Build) (t ptr : Nat) : Code World Unit := do
  let span ← mapObjectToSpan ptr
  let s ← getSpan span
  freeSized b t ptr span s.objSize

/-- What the threads of the program call, and what they get. -/
inductive Call where
  | alloc (size : Nat)
  | free (ptr : Nat)
  deriving DecidableEq

inductive Outcome where
  | block (ptr : Nat)
  | freed
  deriving DecidableEq

def Call.code (b : Build) (t : Nat) : Call → Code World Outcome
  | .alloc size => (concurrentAlloc b t size).bind (fun ptr => .ret (.block ptr))
  | .free ptr => (concurrentFree b t ptr).bind (fun _ => .ret .freed)

end World
end TcAlloc
