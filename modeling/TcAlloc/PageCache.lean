import TcAlloc.PageMap

/-!
The page cache: spans of pages, free ones in lists by their length, and the page
map that leads from a page to its span. A descriptor is known by its address. Its
two links are not kept in it: the lists they form are `spanList`, and a
descriptor in no list has null links.
-/
namespace TcAlloc

/-- `Span`, less its links. -/
structure Span where
  pageId : Nat := 0
  n : Nat := 0
  useCount : Nat := 0
  objSize : Nat := 0
  freeList : Nat := 0
  isUse : Bool := false
  deriving DecidableEq

/-- `PageCache`, with the descriptors and the system it asks for pages. -/
structure Pages where
  os : OS
  spans : Nat → Span
  spanPool : ObjectPool
  idSpanMap : PageMap
  spanList : Nat → List Nat

namespace Pages

/-- Page numbers have 48 - PAGE_SHIFT bits. -/
def bits : Nat := 48 - pageShift
/-- `sizeof(Span)`. -/
def spanBytes : Nat := 64

/-- The page cache when the program starts. -/
def start : Pages := ⟨{},fun _ => {},{},.empty,fun _ => []⟩

def osPart : Lens Pages OS :=
  ⟨fun w => w.os,fun w os => { w with os := os },fun _ _ => rfl,fun _ => rfl,fun _ _ _ => rfl⟩
def poolPart : Lens Pages (ObjectPool × OS) :=
  ⟨fun w => (w.spanPool,w.os),fun w t => { w with spanPool := t.1, os := t.2 },fun _ _ => rfl,fun _ => rfl,
    fun _ _ _ => rfl⟩
def mapPart : Lens Pages (PageMap × OS) :=
  ⟨fun w => (w.idSpanMap,w.os),fun w t => { w with idSpanMap := t.1, os := t.2 },fun _ _ => rfl,fun _ => rfl,
    fun _ _ _ => rfl⟩
def lookupPart : Lens Pages PageMap :=
  ⟨fun w => w.idSpanMap,fun w map => { w with idSpanMap := map },fun _ _ => rfl,fun _ => rfl,fun _ _ _ => rfl⟩

/-! ### States after one operation -/

/-- The fields of a descriptor changed. -/
def write (w : Pages) (span : Nat) (f : Span → Span) : Pages :=
  { w with spans := Function.update w.spans span (f (w.spans span)) }
/-- `PushFront`. -/
def pushed (w : Pages) (i span : Nat) : Pages :=
  { w with spanList := Function.update w.spanList i (span :: w.spanList i) }
/-- The descriptor unlinked. -/
def erased (w : Pages) (span : Nat) : Pages := { w with spanList := fun i => (w.spanList i).erase span }
/-- `Delete`: the link of the pool's free list is written over `_pageId`. -/
def deleted (w : Pages) (span : Nat) : Pages :=
  { w.write span (fun s => { s with pageId := w.spanPool.freeList.headD 0 }) with
    spanPool := w.spanPool.delete span }

/-! ### The operations of the code -/

def get (span : Nat) : Code Pages Span := .read (·.spans span)
def put (span : Nat) (f : Span → Span) : Code Pages Unit := .modify (·.write span f)
def pushFront (i span : Nat) : Code Pages Unit := .modify (·.pushed i span)
/-- `Erase`, which follows the links of the descriptor. -/
def erase (span : Nat) : Code Pages Unit :=
  .step (fun w => if ∃ i, i < npages ∧ span ∈ w.spanList i then .ok ((),w.erased span) else .error .nullPointer)

/-- `_spanPool.New()`. -/
def newDescriptor : Code Pages Nat := do
  let span ← (ObjectPool.new .spanPool .spanPool spanBytes).zoom poolPart
  put span (fun _ => {})
  return span
/-- `_spanPool.Delete(span)`. -/
def deleteDescriptor (span : Nat) : Code Pages Unit := .locked .spanPool (.modify (·.deleted span))

/-- `_idSpanMap.set` and `_idSpanMap.get`. -/
def setPage (pageId span : Nat) : Code Pages Unit := (PageMap.set bits pageId span).zoom mapPart
def findPage (pageId : Nat) : Code Pages Nat := (PageMap.load bits pageId).zoom lookupPart

/-- The entries of `count` pages from `pageId` on, in order. -/
def setPages (pageId span : Nat) : Nat → Code Pages Unit
  | 0 => pure ()
  | count+1 => do
    setPages pageId span count
    setPage (pageId + count) span

/-! ### NewSpan -/

/-- The path for `NPAGES` pages and more. -/
def newDirect (k : Nat) : Code Pages Nat := do
  let ptr ← (systemAlloc .directSpan k).zoom osPart
  let span ← newDescriptor
  put span (fun s => { s with pageId := ptr >>> pageShift, n := k })
  setPage (ptr >>> pageShift) span
  return span

/-- A free span of `k` pages, taken whole. -/
def takeExact (span : Nat) : Code Pages Nat := do
  erase span
  let s ← get span
  setPages s.pageId span s.n
  return span

/-- The first `k` pages of a larger free span. -/
def split (k largerSpan : Nat) : Code Pages Nat := do
  erase largerSpan
  let larger ← get largerSpan
  .require (k ≤ larger.n) .assertion
  let newSpan ← newDescriptor
  put newSpan (fun s => { s with pageId := larger.pageId, n := k })
  put largerSpan (fun s => { s with pageId := s.pageId + k, n := minus s.n k })
  let rest ← get largerSpan
  if 0 < rest.n then pushFront rest.n largerSpan else pure ()
  setPage rest.pageId largerSpan
  setPage (minus (rest.pageId + rest.n) 1) largerSpan
  setPages larger.pageId newSpan k
  return newSpan

/-- The search of the lists `lengths` for a span to split. -/
def searchLarger (k : Nat) : List Nat → Code Pages (Option Nat)
  | [] => pure none
  | i :: longer => do
    match ← .read (·.spanList i) with
    | [] => searchLarger k longer
    | largerSpan :: _ => do
      let newSpan ← split k largerSpan
      return some newSpan

/-- A new free span of `NPAGES - 1` pages. -/
def refill : Code Pages Unit := do
  let ptr ← (systemAlloc .refill (npages - 1)).zoom osPart
  let span ← newDescriptor
  put span (fun s => { s with pageId := ptr >>> pageShift, n := npages - 1 })
  pushFront (npages - 1) span

/-- `NewSpan`, with the depth to which its recursion is followed. -/
def newSpan : Nat → Nat → Code Pages Nat
  | 0, _ => .fail .outOfFuel
  | rounds+1, k => do
    .require (0 < k) .assertion
    if npages ≤ k then newDirect k
    else do
      match ← .read (·.spanList k) with
      | span :: _ => takeExact span
      | [] => do
        match ← searchLarger k (List.range' (k + 1) (npages - (k + 1))) with
        | some newSpan => return newSpan
        | none => do
          refill
          newSpan rounds k

/-! ### ReleaseSpanToPageCache -/

/-- The loop that merges free spans on the left. -/
def mergeLeft (span : Nat) : Nat → Code Pages Unit
  | 0 => .fail .outOfFuel
  | rounds+1 => do
    let s ← get span
    let it ← findPage (minus s.pageId 1)
    if it = 0 then pure ()
    else do
      let left ← get it
      if npages - 1 < s.n + left.n then pure ()
      else if left.isUse then pure ()
      else do
        .note (.absorbLeft span it)
        erase it
        put span (fun s => { s with pageId := left.pageId, n := s.n + left.n })
        deleteDescriptor it
        mergeLeft span rounds

/-- The loop that merges free spans on the right. -/
def mergeRight (span : Nat) : Nat → Code Pages Unit
  | 0 => .fail .outOfFuel
  | rounds+1 => do
    let s ← get span
    let it ← findPage (s.pageId + s.n)
    if it = 0 then pure ()
    else do
      let right ← get it
      if npages - 1 < s.n + right.n then pure ()
      else if right.isUse then pure ()
      else do
        .note (.absorbRight span it)
        erase it
        put span (fun s => { s with n := s.n + right.n })
        deleteDescriptor it
        mergeRight span rounds

/-- `ReleaseSpanToPageCache`. -/
def releaseSpanToPageCache (rounds span : Nat) : Code Pages Unit := do
  .require (span ≠ 0) .assertion
  let s ← get span
  if npages ≤ s.n then do
    (systemFree (s.pageId <<< pageShift) s.n).zoom osPart
    deleteDescriptor span
  else do
    mergeLeft span rounds
    mergeRight span rounds
    put span (fun s => { s with isUse := false })
    let merged ← get span
    pushFront merged.n span
    setPage merged.pageId span
    setPage (minus (merged.pageId + merged.n) 1) span

end Pages
end TcAlloc
