import TcAlloc.Books

/-!
The points between the critical sections of a call. Every section of
`ConcurrentAlloc` and `ConcurrentFree` starts at one of these and ends at another,
or at the end of the call; a point has the variables that live across it
(`Point`), the code that is left (`Point.code`), what the thread has in its hands
there (`Point.batch`), and what is known of the state (`Holds`). What is known
stays known while other threads work (`Holds.kept`).
-/
namespace TcAlloc
namespace World

inductive Point where
  | begins (call : Call)
  /-- `ConcurrentAlloc` up to `MAX_BYTES`: the thread cache is made and stored. -/
  | makesCache (size : Nat)
  | constructs (size tc : Nat)
  | storesCache (size tc : Nat)
  /-- The list of the thread is tried, and where it is empty a batch is asked for. -/
  | pops (size tc : Nat)
  | counts (size tc : Nat)
  | fetches (size tc batchNum : Nat)
  /-- `GetOneSpan` without the mutex of the bucket. -/
  | takes (size tc batchNum : Nat)
  | carves (size tc batchNum span : Nat)
  | links (size tc batchNum span : Nat)
  | keeps (size tc start end_ actualNum : Nat)
  /-- `ConcurrentAlloc` past `MAX_BYTES`, once it has its span. -/
  | reads (size span : Nat)
  | allocated (size ptr : Nat)
  /-- `ConcurrentFree`: the loads of the lookup, and the size of the object. -/
  | looksAtMid (ptr mid : Nat)
  | looksAtLeaf (ptr leaf : Nat)
  | measures (ptr span : Nat)
  | returnsLarge (ptr span : Nat)
  | readsCache (ptr size : Nat)
  | pushes (ptr size tc : Nat)
  | shortens (ptr size tc : Nat)
  /-- `ReleaseListToSpans` before it takes the mutex of the bucket, again. -/
  | flushes (ptr size rounds start : Nat)
  | returns (ptr size rounds span next : Nat)
  | freed (ptr : Nat)
  /-- The assertion that the thread has a thread cache has failed. -/
  | failed (ptr : Nat)

namespace Point

/-- The call that the point belongs to. -/
def call : Point → Call
  | .begins call => call
  | .makesCache size | .constructs size _ | .storesCache size _ | .pops size _ | .counts size _ | .fetches size _ _
  | .takes size _ _ | .carves size _ _ _ | .links size _ _ _ | .keeps size _ _ _ _ | .reads size _ | .allocated size _ =>
    .alloc size
  | .looksAtMid ptr _ | .looksAtLeaf ptr _ | .measures ptr _ | .returnsLarge ptr _ | .readsCache ptr _ | .pushes ptr _ _
  | .shortens ptr _ _ | .flushes ptr _ _ _ | .returns ptr _ _ _ _ | .freed ptr | .failed ptr => .free ptr

/-- `ConcurrentAlloc` and `ConcurrentFree` return. -/
def block (ptr : Nat) : Code World Outcome := .ret (.block ptr)
def done (_ : Unit) : Code World Outcome := .ret .freed

/-- The rest of `ConcurrentFree` from a lookup that has begun. -/
def lookup (b : Build) (t ptr : Nat) (rest : Code PageMap Nat) : Code World Outcome :=
  (((rest.zoom Pages.lookupPart).zoom pagesPart >>= fun it => .require (it ≠ 0) .assertion >>= fun _ => pure it) >>=
  fun span =>
    getSpan span >>= fun s => freeSized b t ptr span s.objSize) >>= done

/-- The rest of `GetOneSpan` and `FetchRangeObj` once a span is there. -/
def fetching (b : Build) (size tc batchNum : Nat) (span : Code World Nat) : Code World Outcome :=
  ((span >>= takeBatch (SizeClass.index b.midAlignShift (SizeClass.roundUp b.midAlignShift size)) batchNum) >>=
    keepBatch tc (SizeClass.index b.midAlignShift size)) >>= block

/-- The loop of `ReleaseListToSpans` from where it takes the mutex of the bucket. -/
def flushing (b : Build) (size rounds start : Nat) : Code World Unit :=
  .acquire (.bucket (SizeClass.index b.midAlignShift size)) >>= fun _ =>
  flush b (SizeClass.index b.midAlignShift size) rounds start

/-- What is left of the call of thread `t`. -/
def code (b : Build) (t : Nat) : Point → Code World Outcome
  | .begins call => call.code b t
  | .makesCache size =>
    ((newThreadCache b >>= fun tc =>
    .modify (fun w => { w with tlsThreadCache := Function.update w.tlsThreadCache t tc }) >>= fun _ =>
      pure tc) >>= fun tc => allocate b tc size) >>= block
  | .constructs size tc =>
    (((.modify (fun w => { w with freeLists := Function.update w.freeLists tc (fun _ => {}) }) >>=
    fun _ => pure tc) >>= fun tc =>
      .modify (fun w => { w with tlsThreadCache := Function.update w.tlsThreadCache t tc }) >>= fun _ => pure tc) >>=
      fun tc =>
      allocate b tc size) >>= block
  | .storesCache size tc =>
    ((.modify (fun w => { w with tlsThreadCache := Function.update w.tlsThreadCache t tc }) >>= fun _ => pure tc) >>=
    fun tc =>
      allocate b tc size) >>= block
  | .pops size tc => allocate b tc size >>= block
  | .counts size tc =>
    fetchFromCentralCache b tc (SizeClass.index b.midAlignShift size) (SizeClass.roundUp b.midAlignShift size) >>= block
  | .fetches size tc batchNum =>
    (fetchRangeObj b batchNum (SizeClass.roundUp b.midAlignShift size) >>=
    keepBatch tc (SizeClass.index b.midAlignShift size)) >>= block
  | .takes size tc batchNum =>
    fetching b size tc batchNum (takeSpan b (SizeClass.numMovePage (SizeClass.roundUp b.midAlignShift size))
      (SizeClass.roundUp b.midAlignShift size) >>=
      carveSpan (SizeClass.index b.midAlignShift (SizeClass.roundUp b.midAlignShift size))
      (SizeClass.roundUp b.midAlignShift size))
  | .carves size tc batchNum span =>
    fetching b size tc batchNum (carve (SizeClass.roundUp b.midAlignShift size) span >>= fun _ =>
      linkSpan (SizeClass.index b.midAlignShift (SizeClass.roundUp b.midAlignShift size)) span)
  | .links size tc batchNum span =>
    fetching b size tc batchNum (linkSpan (SizeClass.index b.midAlignShift (SizeClass.roundUp b.midAlignShift size)) span)
  | .keeps size tc start end_ actualNum =>
    keepBatch tc (SizeClass.index b.midAlignShift size) (start,end_,actualNum) >>= block
  | .reads _ span => (getSpan span >>= fun s => pure (s.pageId <<< pageShift)) >>= block
  | .allocated _ ptr => block ptr
  | .looksAtMid ptr mid => lookup b t ptr (PageMap.afterRoot Pages.bits (ptr >>> pageShift) mid)
  | .looksAtLeaf ptr leaf => lookup b t ptr (PageMap.afterMid Pages.bits (ptr >>> pageShift) leaf)
  | .measures ptr span => (getSpan span >>= fun s => freeSized b t ptr span s.objSize) >>= done
  | .returnsLarge _ span => releaseSpan b span >>= done
  | .readsCache ptr size =>
    (.read (·.tlsThreadCache t) >>= fun tc => .require (tc ≠ 0) .assertion >>= fun _ => deallocate b tc ptr size) >>= done
  | .pushes ptr size tc => deallocate b tc ptr size >>= done
  | .shortens _ size tc =>
    listTooLong b tc (SizeClass.index b.midAlignShift size) (SizeClass.roundUp b.midAlignShift size) >>= done
  | .flushes _ size rounds start => flushing b size rounds start >>= done
  | .returns _ size rounds span next => (releaseSpan b span >>= fun _ => flushing b size rounds next) >>= done
  | .freed _ => done ()
  | .failed _ => .fail .assertion

/-- What the thread has in its hands: one object, or a batch that is chained in memory. -/
def batch (w : World) : Point → List Nat → Prop
  | .keeps _ _ start _ _, l | .flushes _ _ _ start, l | .returns _ _ _ _ start, l => Chain w.mem start l
  | .reads _ span, l => l = [(w.pages.spans span).pageId <<< pageShift]
  | .begins (.free ptr), l | .allocated _ ptr, l | .looksAtMid ptr _, l | .looksAtLeaf ptr _, l | .measures ptr _, l
  | .returnsLarge ptr _, l | .readsCache ptr _, l | .pushes ptr _ _, l | .failed ptr, l => l = [ptr]
  | _, l => l = []

end Point

/-- The objects of `l` are what thread `t` has in its hands, each of `size` bytes. -/
structure Carries (g : Stock) (t size : Nat) (l : List Nat) : Prop where
  holding : Holding g.place (.transit t) l
  sized : ∀ x ∈ l, ∃ S, g.Owns S x size

/-- The thread cache of thread `t`. -/
structure OwnCache (g : Stock) (w : World) (t tc : Nat) : Prop where
  tls : w.tlsThreadCache t = tc
  cache : g.cache t = tc
  made : tc ≠ 0

/-- A span that thread `t` holds, for objects of `size` bytes, with none of them out. -/
structure HoldsSpan (g : Stock) (w : World) (t S size : Nat) : Prop where
  home : g.home S = some (.held t)
  objSize : (g.extent S).objSize = size
  n : (g.extent S).n = SizeClass.numMovePage size
  unused : (w.pages.spans S).useCount = 0

/-- The size is that of a class. -/
def IsClass (b : Build) (size : Nat) : Prop :=
  ∃ i, i < SizeClass.nfreelists b.midAlignShift ∧ size = SizeClass.classSize b.midAlignShift i

/-- What is known at a point of a thread that carries `l`, objects of `size` bytes. -/
def Facts (b : Build) (g : Stock) (w : World) (t : Nat) (l : List Nat) (size : Nat) : Point → Prop
  | .begins _ | .freed _ => True
  | .failed _ => w.tlsThreadCache t = 0 ∧ size ≤ maxBytes
  | .makesCache asked => asked ≤ maxBytes ∧ w.tlsThreadCache t = 0
  | .constructs asked tc => asked ≤ maxBytes ∧ g.cache t = tc ∧ tc ≠ 0 ∧ w.freeLists tc = fun _ => {}
  | .storesCache asked tc => asked ≤ maxBytes ∧ g.cache t = tc ∧ tc ≠ 0
  | .pops asked tc | .counts asked tc => asked ≤ maxBytes ∧ OwnCache g w t tc
  | .fetches asked tc batchNum | .takes asked tc batchNum =>
    asked ≤ maxBytes ∧ OwnCache g w t tc ∧ 1 ≤ batchNum ∧ batchNum ≤ 512
  | .carves asked tc batchNum S => asked ≤ maxBytes ∧ OwnCache g w t tc ∧ (1 ≤ batchNum ∧ batchNum ≤ 512) ∧
      HoldsSpan g w t S (SizeClass.roundUp b.midAlignShift asked) ∧ ∀ x ∈ (g.extent S).objects, g.place x = .nowhere
  | .links asked tc batchNum S => asked ≤ maxBytes ∧ OwnCache g w t tc ∧ (1 ≤ batchNum ∧ batchNum ≤ 512) ∧
      HoldsSpan g w t S (SizeClass.roundUp b.midAlignShift asked) ∧
      Shelf w.mem g.place (.free S) (w.pages.spans S).freeList (g.extent S).objects
  | .keeps asked tc _ end_ actualNum =>
    asked ≤ maxBytes ∧ OwnCache g w t tc ∧ size = SizeClass.roundUp b.midAlignShift asked ∧
      actualNum = l.length ∧ 1 < actualNum ∧ ∃ A, l = A ++ [end_]
  | .reads asked S =>
    maxBytes < asked ∧ size = SizeClass.roundUp b.midAlignShift asked ∧ g.home S ≠ none ∧ l = [(g.extent S).base]
  | .allocated asked _ => size = SizeClass.roundUp b.midAlignShift asked ∧ (asked ≤ maxBytes → w.tlsThreadCache t ≠ 0)
  | .looksAtMid ptr mid => mid ≠ 0 ∧ w.pages.idSpanMap.root (PageMap.i1 Pages.bits (ptr >>> pageShift)) = mid
  | .looksAtLeaf ptr leaf =>
    leaf ≠ 0 ∧ ∃ mid, mid ≠ 0 ∧ w.pages.idSpanMap.root (PageMap.i1 Pages.bits (ptr >>> pageShift)) = mid ∧
      w.pages.idSpanMap.mids mid (PageMap.i2 Pages.bits (ptr >>> pageShift)) = leaf
  | .measures ptr S => g.Owns S ptr size
  | .returnsLarge ptr S => g.Owns S ptr size ∧ maxBytes < size
  | .readsCache _ objSize => size = objSize ∧ size ≤ maxBytes
  | .pushes _ objSize tc => size = objSize ∧ size ≤ maxBytes ∧ OwnCache g w t tc
  | .shortens _ objSize tc => IsClass b objSize ∧ OwnCache g w t tc ∧
      (w.freeLists tc (SizeClass.index b.midAlignShift objSize)).maxSize ≤ (w.freeLists tc
      (SizeClass.index b.midAlignShift objSize)).size
  | .flushes _ objSize rounds _ => IsClass b objSize ∧ size = objSize ∧ l.length < rounds
  | .returns _ objSize rounds S _ => IsClass b objSize ∧ size = objSize ∧ l.length < rounds ∧ HoldsSpan g w t S objSize

/-- Where a thread stands in a call: what it carries, and what is known. -/
def Holds (b : Build) (g : Stock) (w : World) (t : Nat) (pt : Point) : Prop :=
  ∃ l size, pt.batch w l ∧ Carries g t size l ∧ Facts b g w t l size pt

section
variable {b : Build} {g g' : Stock} {l l' : Ledger} {w w' : World} {live live' : List (Nat × Nat)}
  {t u size tc S : Nat} {list : List Nat}

/-! ### While another thread works -/

theorem Carries.kept (carries : Carries g u size list) (kept : Kept t g w g' w') (ne : u ≠ t) : Carries g' u size list :=
  ⟨carries.holding.congr (fun x => kept.leaves.transit ne x),fun x mem =>
    (carries.sized x mem).imp (fun _ owns => kept.leaves.owns ne (carries.holding.at_place mem) owns)⟩

theorem OwnCache.kept (own : OwnCache g w u tc) (kept : Kept t g w g' w') (ne : u ≠ t) : OwnCache g' w' u tc :=
  ⟨(kept.tls u ne).trans own.tls,(kept.leaves.cache u ne).trans own.cache,own.made⟩

theorem HoldsSpan.kept (holds : HoldsSpan g w u S size) (kept : Kept t g w g' w') (ne : u ≠ t) :
    HoldsSpan g' w' u S size := by
  have extent := kept.leaves.extent u S ne holds.home
  exact ⟨(kept.leaves.held u S ne).mpr holds.home,by rw [extent]; exact holds.objSize,by rw [extent]; exact holds.n,
    by rw [kept.spans u S ne holds.home]; exact holds.unused⟩

/-- The chain of what another thread carries. -/
theorem Carries.chain (carries : Carries g u size list) (kept : Kept t g w g' w') (ne : u ≠ t) {head : Nat}
    (chain : Chain w.mem head list) :
    Chain w'.mem head list :=
  chain.congr (fun x mem => kept.links x (.inl ⟨u,ne,(kept.leaves.transit ne x).mpr (carries.holding.at_place mem)⟩))

theorem OwnCache.lists (own : OwnCache g w u tc) (kept : Kept t g w g' w') (ne : u ≠ t) :
    w'.freeLists tc = w.freeLists tc := by
  have same := kept.lists u ne
  rwa [own.cache] at same

/-- What is known at a point stays known while another thread works. -/
theorem Holds.kept {pt : Point} (holds : Holds b g w u pt) (books : Books b g l w live) (books' : Books b g' l' w' live')
    (kept : Kept t g w g' w') (ne : u ≠ t) : Holds b g' w' u pt := by
  obtain ⟨list,size,batch,carries,facts⟩ := holds
  refine ⟨list,size,?_,carries.kept kept ne,?_⟩
  · cases pt with
    | begins call => cases call <;> exact batch
    | keeps asked tc start end_ actualNum => exact carries.chain kept ne batch
    | flushes ptr objSize rounds start => exact carries.chain kept ne batch
    | returns ptr objSize rounds S next => exact carries.chain kept ne batch
    | reads asked S =>
      obtain ⟨_,_,home,same⟩ := facts
      have base : (g.extent S).base ∈ list := by rw [same]; exact List.mem_singleton_self _
      obtain ⟨home',extent⟩ := kept.leaves.owned u _ S ne (carries.holding.at_place base) home (g.extent S).base_mem
      obtain ⟨s,_,span,extents⟩ := books.span home
      obtain ⟨s',_,span',extents'⟩ := books'.span home'
      have pageId : s'.pageId = s.pageId := congrArg Extent.pageId (extents'.symm.trans (extent.trans extents))
      have before : list = [(w.pages.spans S).pageId <<< pageShift] := batch
      show list = [(w'.pages.spans S).pageId <<< pageShift]
      rw [span',pageId,before,span]
    | _ => exact batch
  · cases pt with
    | makesCache asked => exact ⟨facts.1,(kept.tls u ne).trans facts.2⟩
    | constructs asked tc =>
      obtain ⟨small,cache,made,list⟩ := facts
      have same := kept.lists u ne
      rw [cache] at same
      exact ⟨small,(kept.leaves.cache u ne).trans cache,made,same.trans list⟩
    | storesCache asked tc => exact ⟨facts.1,(kept.leaves.cache u ne).trans facts.2.1,facts.2.2⟩
    | pops asked tc => exact ⟨facts.1,facts.2.kept kept ne⟩
    | counts asked tc => exact ⟨facts.1,facts.2.kept kept ne⟩
    | fetches asked tc batchNum => exact ⟨facts.1,facts.2.1.kept kept ne,facts.2.2⟩
    | takes asked tc batchNum => exact ⟨facts.1,facts.2.1.kept kept ne,facts.2.2⟩
    | carves asked tc batchNum S =>
      obtain ⟨small,own,bounds,span,empty⟩ := facts
      refine ⟨small,own.kept kept ne,bounds,span.kept kept ne,fun x mem => ?_⟩
      have extent := kept.leaves.extent u S ne span.home
      have span' := span.kept kept ne
      rw [extent] at mem
      by_contra somewhere
      obtain suits := books'.stock.suits span'.home (by rw [extent]; exact mem) somewhere
      generalize here : g'.place x = p at suits somewhere
      cases p with
      | nowhere => exact somewhere rfl
      | free T =>
        cases suits.1
        have old := (kept.leaves.free ne span.home x).mp here
        rw [empty x mem] at old; cases old
      | cached tc i => cases suits
      | transit v => exact suits u rfl
      | live => exact suits u rfl
    | links asked tc batchNum S =>
      obtain ⟨small,own,bounds,span,shelf⟩ := facts
      have extent := kept.leaves.extent u S ne span.home
      refine ⟨small,own.kept kept ne,bounds,span.kept kept ne,?_⟩
      rw [extent,kept.spans u S ne span.home]
      refine shelf.congr (fun x => kept.leaves.free ne span.home x) (fun x here => kept.links x (.inr ⟨u,S,ne,?_,?_⟩))
      · exact (kept.leaves.held u S ne).mpr span.home
      · exact (kept.leaves.free ne span.home x).mpr here
    | keeps asked tc start end_ actualNum => exact ⟨facts.1,facts.2.1.kept kept ne,facts.2.2⟩
    | reads asked S =>
      obtain ⟨large,size_eq,home,same⟩ := facts
      have base : (g.extent S).base ∈ list := by rw [same]; exact List.mem_singleton_self _
      obtain ⟨home',extent⟩ := kept.leaves.owned u _ S ne (carries.holding.at_place base) home (g.extent S).base_mem
      exact ⟨large,size_eq,home',by rw [extent]; exact same⟩
    | looksAtMid ptr mid =>
      obtain ⟨some,root⟩ := facts
      exact ⟨some,(kept.persists.mid _ (by rw [root]; exact some)).trans root⟩
    | looksAtLeaf ptr leaf =>
      obtain ⟨some,mid,some',root,below⟩ := facts
      refine ⟨some,mid,some',(kept.persists.mid _ (by rw [root]; exact some')).trans root,?_⟩
      have there := kept.persists.leaf (PageMap.i1 Pages.bits (ptr >>> pageShift))
        (PageMap.i2 Pages.bits (ptr >>> pageShift))
        (by rw [root]; exact some') (by rw [root,below]; exact some)
      rw [root] at there
      rw [there]; exact below
    | allocated asked ptr => exact ⟨facts.1,fun small => by rw [kept.tls u ne]; exact facts.2 small⟩
    | failed ptr => exact ⟨(kept.tls u ne).trans facts.1,facts.2⟩
    | measures ptr S =>
      exact kept.leaves.owns ne (carries.holding.at_place (by rw [show list = [ptr] from batch]; simp)) facts
    | returnsLarge ptr S =>
      exact ⟨kept.leaves.owns ne (carries.holding.at_place (by rw [show list = [ptr] from batch]; simp)) facts.1,facts.2⟩
    | pushes ptr objSize tc => exact ⟨facts.1,facts.2.1,facts.2.2.kept kept ne⟩
    | shortens ptr objSize tc =>
      obtain ⟨class_,own,long⟩ := facts
      exact ⟨class_,own.kept kept ne,by rw [own.lists kept ne]; exact long⟩
    | returns ptr objSize rounds S next => exact ⟨facts.1,facts.2.1,facts.2.2.1,facts.2.2.2.kept kept ne⟩
    | _ => exact facts

end
end World
end TcAlloc
