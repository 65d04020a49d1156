import TcAlloc.CacheBounds
import TcAlloc.Rely

/-!
One thread cache, and the calls of `Allocate` and `Deallocate` on it in any order. The
other threads may do anything at any moment but touch its lists (`Around`); the central
cache may answer a refill with any number of objects up to the number asked for
(`Fetches`), and takes back what a flush gives it (`Releases`). No code counts the
refills of a class, but their number says how far the cap of its list has grown
(`Capped`). What holds of all lists between two calls is kept by each call
(`Cached.allocate`, `Cached.deallocate`), and so holds along every run (`CacheReaches`).
-/
namespace TcAlloc
namespace World

/-! ### One list -/

/-- A list with its chain of objects. -/
structure Linked (m : Memory) (l : FreeList) (L : List Nat) : Prop where
  chain : Chain m l.head L
  length : l.size = L.length
  nodup : L.Nodup
  spread : Spread L
  small : ∀ x ∈ L, x < 2 ^ 64

/-- A list is shorter than its cap, as between two calls, or has come to it. -/
def Below (l : FreeList) : Prop := l.size < l.maxSize
def AtCap (l : FreeList) : Prop := l.maxSize = l.size

/-- A list after `r` refills, as long as `stands` says. -/
structure Capped (stands : FreeList → Prop) (size : Nat) (m : Memory) (l : FreeList) (r : Nat) (L : List Nat) : Prop
    extends Linked m l L where
  stands : stands l
  cap : l.maxSize = min (1 + r) (SizeClass.numMoveSize size + 1)

section
variable {size : Nat} {m m' : Memory} {l l' : FreeList} {r obj : Nat} {L : List Nat}

theorem Linked.head_small (c : Linked m l L) : l.head < 2 ^ 64 := c.chain.head_lt (by decide) c.small

/-- A list whose links are as they were is what it was. -/
theorem Linked.congr (c : Linked m l L) (links : ∀ x ∈ L, m'.load x = m.load x) : Linked m' l L :=
  { c with chain := c.chain.congr links }

theorem Linked.empty (m : Memory) {l : FreeList} (none : l.head = 0) (zero : l.size = 0) : Linked m l [] :=
  ⟨by rw [none]; exact .nil,zero,List.nodup_nil,by simp [Spread],by simp⟩

theorem capped_empty (m : Memory) (size : Nat) : Capped Below size m {} 0 [] :=
  ⟨.empty m rfl rfl,Nat.one_pos,by
    have := SizeClass.numMoveSize_bounds size
    dsimp only
    omega⟩

/-- `Allocate` pops the first object of a list that has one. -/
theorem Capped.pops (c : Capped Below size m l r L) (found : l.head ≠ 0) : ∃ l' L', popIfAny m l = .ok (some l.head,m,l') ∧
    L = l.head :: L' ∧ Capped Below size m l' r L' := by
  obtain ⟨rest,rfl,tail⟩ := c.chain.of_ne_zero found
  have length := c.length
  have below : l.size < l.maxSize := c.stands
  have bound := (SizeClass.numMoveSize_bounds size).2
  have cap := c.cap
  rw [List.length_cons] at length
  have left : minus l.size 1 = rest.length := by rw [minus]; omega
  refine ⟨{ l with head := m.load l.head, size := minus l.size 1 },rest,?_,rfl,?_⟩
  · rw [popIfAny,if_neg found,FreeList.pop,if_neg found]; rfl
  · exact ⟨⟨tail,left,(List.nodup_cons.mp c.nodup).2,fun x hx y hy => c.spread x (by simp [hx]) y (by simp [hy]),
      fun x mem => c.small x (by simp [mem])⟩,show minus l.size 1 < l.maxSize by omega,cap⟩

/-- A refill asks for as many objects as there were refills, this one included, up
    to the number of its size. -/
theorem Capped.asks (c : Capped Below size m l r L) : ∃ l', Capped Below size m l' (r + 1) L ∧
    nextBatch size m l = .ok (min (r + 1) (SizeClass.numMoveSize size),m,l') := by
  have cap := c.cap
  have below : l.size < l.maxSize := c.stands
  set l' : FreeList := if min (SizeClass.numMoveSize size) l.maxSize = l.maxSize then { l with maxSize := l.maxSize + 1 }
    else l with hl'
  have same : l'.head = l.head ∧ l'.size = l.size ∧ l'.maxSize = min (1 + (r + 1)) (SizeClass.numMoveSize size + 1) := by
    rw [hl']
    split_ifs with all
    · exact ⟨rfl,rfl,by dsimp only; omega⟩
    · exact ⟨rfl,rfl,by omega⟩
  obtain ⟨head,length,grown⟩ := same
  refine ⟨l',⟨⟨by rw [head]; exact c.chain,by rw [length]; exact c.length,c.nodup,c.spread,c.small⟩,
    show l'.size < l'.maxSize by omega,grown⟩,?_⟩
  have asked : min (SizeClass.numMoveSize size) l.maxSize = min (r + 1) (SizeClass.numMoveSize size) := by omega
  rw [← asked]
  rfl

/-- A batch of more than one object but its first is put on the empty list. -/
theorem Capped.keeps (c : Capped Below size m l r []) {start last n : Nat} {A : List Nat} (chain : Chain m start (A ++ [last]))
    (count : (A ++ [last]).length = n) (few : n ≤ min r (SizeClass.numMoveSize size)) (nodup : (A ++ [last]).Nodup)
    (spread : Spread (A ++ [last])) (small : ∀ x ∈ A ++ [last], x < 2 ^ 64) (many : 1 < n) :
    start ≠ last ∧ ∃ l' L', FreeList.pushRange (m.load start) last (n - 1) m l = .ok ((),m.store last l.head,l') ∧
      A ++ [last] = start :: L' ∧ Capped Below size (m.store last l.head) l' r L' := by
  have empty : l.head = 0 := c.chain.head_eq_zero.mpr rfl
  have none : l.size = 0 := c.length
  have cap := c.cap
  have nonzero := chain.ne_zero
  cases A with
  | nil => rw [← count] at many; exact absurd many (by simp)
  | cons first A =>
    obtain ⟨rfl,some,tail⟩ := Chain.cons_iff.mp chain
    rw [List.cons_append,List.length_cons,List.length_append,List.length_singleton] at count
    have last_some : last ≠ 0 := nonzero last (by simp)
    obtain ⟨out,later⟩ := List.nodup_cons.mp nodup
    have load_some : m.load start ≠ 0 := fun zero => by
      rw [zero] at tail
      exact absurd (Chain.nil_iff.mp tail) (by simp)
    have spread' : Spread (A ++ [last]) := fun x hx y hy => spread x (List.mem_cons_of_mem _ hx)
      y (List.mem_cons_of_mem _ hy)
    refine ⟨fun same => out (by simp [same]),{ l with head := m.load start, size := l.size + (n - 1) },A ++ [last],?_,rfl,
      ⟨?_,?_,later,spread',fun x mem => small x (List.mem_cons_of_mem _ mem)⟩,?_,cap⟩
    · rw [FreeList.pushRange,if_neg (by simp [load_some,last_some])]
    · exact tail.tie (by rw [empty]; exact .nil) (by rw [empty]; decide) later spread'
    · dsimp only; rw [List.length_append,List.length_singleton]; omega
    · show l.size + (n - 1) < l.maxSize; omega

/-- `Deallocate` pushes an object that is apart from those of the list. If that fills
    the list to its cap, the list has exactly as many objects. -/
theorem Capped.pushes (c : Capped Below size m l r L) (some : obj ≠ 0) (small : obj < 2 ^ 64)
    (apart : ∀ x ∈ L, Memory.Apart obj x) :
    (∃ l', pushAndTest obj m l = .ok (false,m.store obj l.head,l') ∧ Capped Below size (m.store obj l.head) l' r (obj :: L)) ∨
    ∃ l', pushAndTest obj m l = .ok (true,m.store obj l.head,l') ∧ Capped AtCap size (m.store obj l.head) l' r (obj :: L) := by
  have chain := c.chain.push some c.head_small apart
  have length := c.length
  have below : l.size < l.maxSize := c.stands
  have nodup : (obj :: L).Nodup := List.nodup_cons.mpr ⟨fun mem => by
    have := apart obj mem
    simp only [Memory.Apart] at this
    omega,c.nodup⟩
  have spread : Spread (obj :: L) := by
    intro x hx y hy ne
    rcases List.mem_cons.mp hx with rfl | inL
    · exact apart y ((List.mem_cons.mp hy).resolve_left (fun same => ne same.symm))
    · rcases List.mem_cons.mp hy with rfl | inL'
      · exact (apart x inL).symm
      · exact c.spread x inL y inL' ne
  have small' : ∀ x ∈ obj :: L, x < 2 ^ 64 := fun x mem => by
    rcases List.mem_cons.mp mem with rfl | old
    · exact small
    · exact c.small x old
  have longer : l.size + 1 = (obj :: L).length := by rw [List.length_cons,length]
  have pushes : pushAndTest obj m l =
      .ok (decide (l.maxSize ≤ l.size + 1),m.store obj l.head,{ l with head := obj, size := l.size + 1 }) := by
    rw [pushAndTest,FreeList.push,if_neg some]; rfl
  by_cases full : l.maxSize ≤ l.size + 1
  · rw [decide_eq_true full] at pushes
    exact .inr ⟨_,pushes,⟨chain,longer,nodup,spread,small'⟩,show l.maxSize = l.size + 1 by omega,c.cap⟩
  · rw [decide_eq_false full] at pushes
    exact .inl ⟨_,pushes,⟨chain,longer,nodup,spread,small'⟩,show l.size + 1 < l.maxSize by omega,c.cap⟩

/-- A flush pops the whole of a full list, which it leaves empty. -/
theorem Capped.flushes (c : Capped AtCap size m l r L) : ∃ last l', last ∈ L ∧
    FreeList.popRange l.maxSize m l = .ok ((l.head,last),m.store last 0,l') ∧ Capped Below size (m.store last 0) l' r [] := by
  have bound := SizeClass.numMoveSize_bounds size
  have cap := c.cap
  have exact : l.maxSize = l.size := c.stands
  have length := c.length
  -- The walk of the flush ends at the last object of the list.
  obtain ⟨A,last,B,split,count,walk⟩ := follow_spec (n := l.maxSize - 1) c.chain (by omega)
  have none : B = [] := by
    have lengths := congrArg List.length split
    rw [List.length_append,List.length_cons] at lengths
    exact List.length_eq_zero_iff.mp (by omega)
  subst none
  have last_some : last ≠ 0 := c.chain.ne_zero last (by rw [split]; simp)
  have chain := c.chain
  have nodup := c.nodup
  have spread := c.spread
  rw [split] at chain nodup spread
  have rest := (chain.cut nodup spread).2
  have left : minus l.size l.maxSize = 0 := by rw [minus]; omega
  refine ⟨last,{ l with head := m.load last, size := minus l.size l.maxSize },by rw [split]; simp,?_,?_⟩
  · rw [FreeList.popRange,if_neg (by omega),walk]
    dsimp only
    rw [if_neg last_some]
  · exact ⟨⟨rest,left,List.nodup_nil,by simp [Spread],by simp⟩,show minus l.size l.maxSize < l.maxSize by omega,cap⟩

end

/-! ### A thread cache among other threads -/

/-- The object is in a list of the thread cache. -/
def InCache (w : World) (tc x : Nat) : Prop := ∃ i L, Chain w.mem (w.freeLists tc i).head L ∧ x ∈ L

/-- The lists of the thread cache, with their links, are as they were. -/
structure Beside (tc : Nat) (w w' : World) : Prop where
  lists : w'.freeLists tc = w.freeLists tc
  links : ∀ x, InCache w tc x → w'.mem.load x = w.mem.load x

/-- Other threads, which do not touch the lists of the thread cache. -/
structure Around (tc : Nat) extends Others World where
  beside : ∀ {w w'}, may w w' → Beside tc w w'

/-- A batch of one object at least and `n` at most: a chain of objects that are apart
    from each other and from those in the thread cache. -/
structure Fetched (tc n : Nat) (batch : Nat × Nat × Nat) (A : List Nat) (w : World) : Prop where
  chain : Chain w.mem batch.1 (A ++ [batch.2.1])
  count : (A ++ [batch.2.1]).length = batch.2.2
  few : batch.2.2 ≤ n
  nodup : (A ++ [batch.2.1]).Nodup
  spread : Spread (A ++ [batch.2.1])
  small : ∀ x ∈ A ++ [batch.2.1], x < 2 ^ 64
  apart : ∀ x ∈ A ++ [batch.2.1], ∀ y, InCache w tc y → Memory.Apart x y

/-- From the state `w` the central cache answers a request for `n` objects of `size`
    bytes with any number of them from one on, and touches no list of the thread cache. -/
def Fetches (b : Build) {tc : Nat} (o : Around tc) (n size : Nat) (w : World) : Prop :=
  rely sections.allowed o.toOthers (fetchRangeObj b n size) [] w
    (fun batch h w' => h = [] ∧ Beside tc w w' ∧ ∃ A, Fetched tc n batch A w')

/-- From the state `w` the central cache takes back the objects from `start` on, and
    touches no list of the thread cache. -/
def Releases (b : Build) {tc : Nat} (o : Around tc) (start size : Nat) (w : World) : Prop :=
  rely sections.allowed o.toOthers (releaseListToSpans b start size) [] w (fun _ h w' => h = [] ∧ Beside tc w w')

/-- An object that may be given to the thread cache, whichever thread fetched it: its
    word is none of those of the lists. -/
structure Outside (w : World) (tc obj : Nat) : Prop where
  some : obj ≠ 0
  small : obj < 2 ^ 64
  apart : ∀ x, InCache w tc x → Memory.Apart obj x

/-- One operation on the list `i` of the thread cache returns `x`, and leaves `w'`. -/
def Does {β : Type} (tc i : Nat) (g : Memory → FreeList → Except Fault (β × Memory × FreeList)) (w : World) (x : β)
    (w' : World) : Prop :=
  ∃ m l, g w.mem (w.freeLists tc i) = .ok (x,m,l) ∧ w' = w.withList tc i m l

/-- The calls of a thread cache. -/
inductive CacheCall where
  | allocate (size : Nat)
  | deallocate (ptr size : Nat)

namespace CacheCall

/-- What a call runs; `Allocate` returns an object. -/
def code (b : Build) (tc : Nat) : CacheCall → Code World (Option Nat)
  | .allocate size => do
    let obj ← World.allocate b tc size
    return some obj
  | .deallocate ptr size => do
    World.deallocate b tc ptr size
    return none

/-- A call for a size that has a class, and, where it frees, of an object outside. Where
    it comes to ask the central cache, that does its part. -/
def May (b : Build) {tc : Nat} (o : Around tc) (w : World) : CacheCall → Prop
  | .allocate size => size ≤ maxBytes ∧ ∀ w₁ w₂ n, o.may w w₁ →
      (w₁.freeLists tc (SizeClass.index b.midAlignShift size)).head = 0 →
      Does tc (SizeClass.index b.midAlignShift size) (nextBatch (SizeClass.roundUp b.midAlignShift size)) w₁ n w₂ →
      Fetches b o n (SizeClass.roundUp b.midAlignShift size) w₂
  | .deallocate ptr size => size ≤ maxBytes ∧ Outside w tc ptr ∧ ∀ w₁ w₂ w₃ w₄ range, o.may w w₁ →
      Does tc (SizeClass.index b.midAlignShift size) (pushAndTest ptr) w₁ true w₂ → o.may w₂ w₃ →
      Does tc (SizeClass.index b.midAlignShift size) (fun m l => FreeList.popRange l.maxSize m l) w₃ range w₄ →
      Releases b o range.1 (SizeClass.roundUp b.midAlignShift size) w₄

/-- The refills of each class so far, where `Allocate` for an empty list is one more. -/
def refills (b : Build) (tc : Nat) (w : World) (r : Nat → Nat) : CacheCall → Nat → Nat
  | .allocate size =>
    if (w.freeLists tc (SizeClass.index b.midAlignShift size)).head = 0 then
      Function.update r (SizeClass.index b.midAlignShift size) (r (SizeClass.index b.midAlignShift size) + 1)
    else r
  | .deallocate _ _ => r

end CacheCall

/-- The runs of a thread cache from when it is made: where its thread is in a call, if
    in one, the state, and the refills of each class so far. -/
inductive CacheReaches (b : Build) {tc : Nat} (o : Around tc) :
    Option (Code World (Option Nat) × List Mutex) → World → (Nat → Nat) → Prop
  | start {w : World} (new : w.freeLists tc = fun _ => {}) : CacheReaches b o none w (fun _ => 0)
  | others {at_ : Option (Code World (Option Nat) × List Mutex)} {w w' : World} {r : Nat → Nat}
      (before : CacheReaches b o at_ w r) (may : o.may w w') : CacheReaches b o at_ w' r
  | call {w : World} {r : Nat → Nat} {c : CacheCall} (before : CacheReaches b o none w r) (may : c.May b o w) :
      CacheReaches b o (some (c.code b tc,[])) w (c.refills b tc w r)
  | move {p p' : Code World (Option Nat)} {h h' : List Mutex} {w w' : World} {r : Nat → Nat}
      (before : CacheReaches b o (some (p,h)) w r) (move : Move sections.allowed (p,h,w) (p',h',w')) :
      CacheReaches b o (some (p',h')) w' r
  | returns {a : Option Nat} {h : List Mutex} {w : World} {r : Nat → Nat}
      (before : CacheReaches b o (some (.ret a,h)) w r) : CacheReaches b o none w r

/-- All lists of the thread cache. -/
structure Cached (b : Build) (tc : Nat) (stands : Nat → FreeList → Prop) (w : World) (r : Nat → Nat)
    (L : Nat → List Nat) : Prop where
  capped : ∀ i, Capped (stands i) (SizeClass.classSize b.midAlignShift i) w.mem (w.freeLists tc i) (r i) (L i)
  apart : ∀ i j, i ≠ j → ∀ x ∈ L i, ∀ y ∈ L j, Memory.Apart x y

section
variable {b : Build} {tc i size ptr : Nat} {o : Around tc} {w w' w'' : World} {r : Nat → Nat} {L : Nat → List Nat}
  {stands : Nat → FreeList → Prop} {h : List Mutex} {m : Memory} {l : FreeList}

/-- What is in the cache stays in it. -/
theorem Beside.inCache (beside : Beside tc w w') {x : Nat} (mem : InCache w tc x) : InCache w' tc x := by
  obtain ⟨i,L,chain,here⟩ := mem
  refine ⟨i,L,?_,here⟩
  rw [beside.lists]
  exact chain.congr (fun y there => beside.links y ⟨i,L,chain,there⟩)

theorem Beside.trans (first : Beside tc w w') (second : Beside tc w' w'') : Beside tc w w'' :=
  ⟨second.lists.trans first.lists,fun x mem => (second.links x (first.inCache mem)).trans (first.links x mem)⟩

theorem Cached.inCache_iff (c : Cached b tc stands w r L) (x : Nat) : InCache w tc x ↔ ∃ i, x ∈ L i := by
  constructor
  · rintro ⟨i,l,chain,mem⟩
    exact ⟨i,by rw [(c.capped i).chain.unique chain]; exact mem⟩
  · rintro ⟨i,mem⟩
    exact ⟨i,L i,(c.capped i).chain,mem⟩

/-- The others leave all lists as they are. -/
theorem Cached.beside (c : Cached b tc stands w r L) (beside : Beside tc w w') : Cached b tc stands w' r L := by
  refine ⟨fun i => ?_,c.apart⟩
  rw [beside.lists]
  exact { c.capped i with
    toLinked := (c.capped i).toLinked.congr (fun x mem => beside.links x ((c.inCache_iff x).mpr ⟨i,mem⟩)) }

theorem Cached.others (c : Cached b tc stands w r L) (may : o.may w w') : Cached b tc stands w' r L := c.beside (o.beside may)

/-- One list has changed, and no link of another one. -/
theorem Cached.put {now : FreeList → Prop} {s : Nat} {N : List Nat} (c : Cached b tc stands w r L)
    (new : Capped now (SizeClass.classSize b.midAlignShift i) m l s N)
    (links : ∀ j, j ≠ i → ∀ x ∈ L j, m.load x = w.mem.load x)
    (apart : ∀ x ∈ N, ∀ j, j ≠ i → ∀ y ∈ L j, Memory.Apart x y) :
    Cached b tc (Function.update stands i now) (w.withList tc i m l) (Function.update r i s) (Function.update L i N) := by
  refine ⟨fun j => ?_,fun j k ne x hx y hy => ?_⟩
  · simp only [withList,Function.update_self]
    by_cases same : j = i
    · subst same
      simpa only [Function.update_self] using new
    · simp only [Function.update_of_ne same]
      exact { c.capped j with toLinked := (c.capped j).toLinked.congr (links j same) }
  · by_cases first : j = i
    · subst first
      rw [Function.update_self] at hx
      rw [Function.update_of_ne ne.symm] at hy
      exact apart x hx k ne.symm y hy
    · rw [Function.update_of_ne first] at hx
      by_cases second : k = i
      · subst second
        rw [Function.update_self] at hy
        exact (apart y hy j first x hx).symm
      · rw [Function.update_of_ne second] at hy
        exact c.apart j k ne x hx y hy

/-- An object outside is apart from those of each list. -/
theorem Cached.outside (c : Cached b tc stands w r L) (outside : Outside w tc ptr) : ∀ j, ∀ x ∈ L j, Memory.Apart ptr x :=
  fun j x mem => outside.apart x ((c.inCache_iff x).mpr ⟨j,mem⟩)

theorem Outside.others (outside : Outside w tc ptr) (c : Cached b tc stands w r L) (may : o.may w w') : Outside w' tc ptr :=
  ⟨outside.some,outside.small,fun x mem => outside.apart x ((c.inCache_iff x).mpr (((c.others may).inCache_iff x).mp mem))⟩

theorem rely_onList {α β : Type} {g : Memory → FreeList → Except Fault (β × Memory × FreeList)}
    {next : β → Code World α} {post : α → List Mutex → World → Prop}
    (later : ∀ w', o.may w w' → ∃ x m l, g w'.mem (w'.freeLists tc i) = .ok (x,m,l) ∧
      rely sections.allowed o.toOthers (next x) h (w'.withList tc i m l) post) :
    rely sections.allowed o.toOthers (onList tc i g >>= next) h w post := by
  refine rely_step (fun w' may => ?_)
  obtain ⟨x,m,l,runs,then_⟩ := later w' may
  exact ⟨x,_,by rw [runs],then_⟩

/-! ### The calls -/

/-- What a call leaves: no mutex is held, and the lists are as between two calls. -/
abbrev Leaving (b : Build) (tc : Nat) (r : Nat → Nat) {α : Type} : α → List Mutex → World → Prop :=
  fun _ h w => h = [] ∧ ∃ L, Cached b tc (fun _ => Below) w r L

/-- The end of `FetchFromCentralCache`. -/
theorem Cached.keepBatch (c : Cached b tc (fun _ => Below) w r L) (empty : L i = []) {batch : Nat × Nat × Nat}
    (answer : ∀ w', o.may w w' → ∃ A, Fetched tc (min (r i) (SizeClass.numMoveSize (SizeClass.classSize b.midAlignShift i)))
      batch A w') :
    rely sections.allowed o.toOthers (World.keepBatch tc i batch) [] w (Leaving b tc r) := by
  obtain ⟨start,last,n⟩ := batch
  obtain ⟨A,now⟩ := answer w (o.refl w)
  have nonzero := now.chain.ne_zero
  have last_some : last ≠ 0 := nonzero last (by simp)
  have start_some : start ≠ 0 := fun zero => by
    have none := now.chain.head_eq_zero.mp zero
    exact absurd none (by simp)
  have some : 0 < n := by
    have count := now.count
    rw [List.length_append,List.length_singleton] at count
    dsimp only at count
    omega
  refine rely_require start_some (rely_require last_some (rely_require some ?_))
  split_ifs with many
  · have ne : start ≠ last := by
      have capped := c.capped i
      rw [empty] at capped
      exact (capped.keeps now.chain now.count now.few now.nodup now.spread now.small many).1
    refine rely_require ne (rely_onList (fun w' may => ?_))
    obtain ⟨A',then_⟩ := answer w' may
    have c' := c.others may
    have capped := c'.capped i
    rw [empty] at capped
    obtain ⟨_,l,N,pushed,split,capped'⟩ := capped.keeps then_.chain then_.count then_.few then_.nodup then_.spread
      then_.small many
    have mem : ∀ {x}, x ∈ N → x ∈ A' ++ [last] := fun here => by rw [split]; exact List.mem_cons_of_mem _ here
    have put := c'.put capped' (fun j _ x here => ?_) (fun x here j _ y there => ?_)
    · rw [Function.update_eq_self,Function.update_eq_self] at put
      exact ⟨(),_,l,pushed,fun w'' later => ⟨rfl,_,put.others later⟩⟩
    · exact Memory.load_store_apart _ _ (then_.apart last (by simp) x ((c'.inCache_iff x).mpr ⟨j,here⟩))
    · exact then_.apart x (mem here) y ((c'.inCache_iff y).mpr ⟨j,there⟩)
  · intro w' may
    exact ⟨rfl,L,c.others may⟩

/-- `Allocate` pops an object, or asks for a batch where the list is empty. -/
theorem Cached.allocate (c : Cached b tc (fun _ => Below) w r L) (may : (CacheCall.allocate size).May b o w) :
    rely sections.allowed o.toOthers (World.allocate b tc size) [] w
      (Leaving b tc ((CacheCall.allocate size).refills b tc w r)) := by
  obtain ⟨small,fetches⟩ := may
  have class_ := SizeClass.roundUp_eq_classSize b.coarse small
  have inside := SizeClass.index_lt b.coarse small
  dsimp only [CacheCall.refills]
  unfold World.allocate
  rw [class_] at fetches ⊢
  generalize SizeClass.index b.midAlignShift size = i at *
  refine rely_require small (rely_onList (fun w₁ first => ?_))
  have c₁ := c.others first
  have head : (w₁.freeLists tc i).head = (w.freeLists tc i).head := by rw [(o.beside first).lists]
  by_cases none : (w₁.freeLists tc i).head = 0
  · rw [if_pos (head.symm.trans none)]
    have empty : L i = [] := (c₁.capped i).chain.head_eq_zero.mp none
    refine ⟨_,_,_,if_pos none,?_⟩
    rw [withList_self]
    refine rely_require inside (rely_require (SizeClass.classSize_le b.coarse inside) (rely_onList (fun w₂ second => ?_)))
    have c₂ := c₁.others second
    obtain ⟨l,capped,asked⟩ := (c₂.capped i).asks
    have asks : Does tc i (nextBatch (SizeClass.classSize b.midAlignShift i)) w₂ _ _ := ⟨_,l,asked,rfl⟩
    have none₂ : (w₂.freeLists tc i).head = 0 := by rw [(o.beside second).lists]; exact none
    have c₃ := c₂.put capped (fun _ _ _ _ => rfl) (fun x mem j ne y there => c₂.apart i j ne.symm x mem y there)
    rw [Function.update_eq_self,Function.update_eq_self] at c₃
    refine ⟨_,_,l,asked,rely_seq (fetches w₂ _ _ (o.trans first second) none₂ asks) (fun batch h w₄ answer => ?_)⟩
    obtain ⟨rfl,beside,_⟩ := answer w₄ (o.refl w₄)
    refine (c₃.beside beside).keepBatch empty (fun w₅ may => ?_)
    rw [Function.update_self]
    exact (answer w₅ may).2.2
  · rw [if_neg (fun zero => none (head.trans zero))]
    obtain ⟨l,N,pops,split,capped⟩ := (c₁.capped i).pops none
    have put := c₁.put capped (fun _ _ _ _ => rfl) (fun x mem j ne y there =>
      c₁.apart i j ne.symm x (by rw [split]; exact List.mem_cons_of_mem _ mem) y there)
    rw [Function.update_eq_self,Function.update_eq_self] at put
    exact ⟨_,_,l,pops,fun w₂ later => ⟨rfl,_,put.others later⟩⟩

/-- What `Deallocate` makes of the list before its test of the cap. -/
theorem Cached.pushes (c : Cached b tc (fun _ => Below) w r L) (outside : Outside w tc ptr) (i : Nat) : ∃ m l,
    (pushAndTest ptr w.mem (w.freeLists tc i) = .ok (false,m,l) ∧
      Cached b tc (fun _ => Below) (w.withList tc i m l) r (Function.update L i (ptr :: L i))) ∨
    (pushAndTest ptr w.mem (w.freeLists tc i) = .ok (true,m,l) ∧
      Cached b tc (Function.update (fun _ => Below) i AtCap) (w.withList tc i m l) r (Function.update L i (ptr :: L i))) := by
  have apart := c.outside outside
  have links : ∀ j, j ≠ i → ∀ x ∈ L j, (w.mem.store ptr (w.freeLists tc i).head).load x = w.mem.load x :=
    fun j _ x here => Memory.load_store_apart _ _ (apart j x here)
  have clear : ∀ x ∈ ptr :: L i, ∀ j, j ≠ i → ∀ y ∈ L j, Memory.Apart x y := by
    intro x mem j ne y there
    rcases List.mem_cons.mp mem with rfl | old
    · exact apart j y there
    · exact c.apart i j ne.symm x old y there
  rcases (c.capped i).pushes outside.some outside.small (apart i) with ⟨l,pushes,capped⟩ | ⟨l,pushes,full⟩
  · have put := c.put capped links clear
    rw [Function.update_eq_self,Function.update_eq_self] at put
    exact ⟨_,l,.inl ⟨pushes,put⟩⟩
  · have put := c.put full links clear
    rw [Function.update_eq_self i r] at put
    exact ⟨_,l,.inr ⟨pushes,put⟩⟩

/-- `Deallocate` pushes the object, and flushes a list that has come to its cap. -/
theorem Cached.deallocate (c : Cached b tc (fun _ => Below) w r L) (may : (CacheCall.deallocate ptr size).May b o w) :
    rely sections.allowed o.toOthers (World.deallocate b tc ptr size) [] w (Leaving b tc r) := by
  obtain ⟨small,outside,releases⟩ := may
  have class_ := SizeClass.roundUp_eq_classSize b.coarse small
  have inside := SizeClass.index_lt b.coarse small
  unfold World.deallocate
  rw [class_] at releases ⊢
  generalize SizeClass.index b.midAlignShift size = i at *
  refine rely_require small (rely_require outside.some (rely_onList (fun w₁ first => ?_)))
  have c₁ := c.others first
  obtain ⟨m,l,⟨pushes,c₂⟩ | ⟨pushes,c₂⟩⟩ := c₁.pushes (outside.others c first) i
  · exact ⟨false,m,l,pushes,fun w₂ later => ⟨rfl,_,c₂.others later⟩⟩
  · refine ⟨true,m,l,pushes,?_⟩
    refine rely_require (SizeClass.classSize_le b.coarse inside) (rely_onList (fun w₃ second => ?_))
    have c₃ := c₂.others second
    have full := c₃.capped i
    rw [Function.update_self,Function.update_self] at full
    obtain ⟨last,l',mem,pops,capped⟩ := full.flushes
    have clear : ∀ j, j ≠ i → ∀ y ∈ Function.update L i (ptr :: L i) j, Memory.Apart last y := fun j ne y there =>
      c₃.apart i j ne.symm last (by rw [Function.update_self]; exact mem) y there
    have c₄ := c₃.put capped (fun j ne x here => Memory.load_store_apart _ _ (clear j ne x here))
      (fun x none => absurd none List.not_mem_nil)
    rw [Function.update_idem,Function.update_eq_self,Function.update_eq_self] at c₄
    refine ⟨_,_,l',pops,?_⟩
    refine rely_post (releases w₁ _ w₃ _ _ first ⟨m,l,pushes,rfl⟩ second ⟨_,l',pops,rfl⟩) (fun _ h w₄ answer => ?_)
    exact ⟨answer.1,_,c₄.beside answer.2⟩

/-! ### Runs -/

/-- What holds where a run of the thread cache has come to. -/
def Sound (b : Build) {tc : Nat} (o : Around tc) : Option (Code World (Option Nat) × List Mutex) → World → (Nat → Nat) → Prop
  | none, w, r => ∃ L, Cached b tc (fun _ => Below) w r L
  | some (p,h), w, r => rely sections.allowed o.toOthers p h w (Leaving b tc r)

/-- Each call begins with what it guarantees. -/
theorem Cached.call (c : Cached b tc (fun _ => Below) w r L) {call : CacheCall} (may : call.May b o w) :
    rely sections.allowed o.toOthers (call.code b tc) [] w (Leaving b tc (call.refills b tc w r)) := by
  cases call with
  | allocate size => exact rely_seq (c.allocate may) (fun obj h w' left => fun w'' later => left w'' later)
  | deallocate ptr size => exact rely_seq (c.deallocate may) (fun _ h w' left => fun w'' later => left w'' later)

theorem CacheReaches.sound {at_ : Option (Code World (Option Nat) × List Mutex)} (reached : CacheReaches b o at_ w r) :
    Sound b o at_ w r := by
  induction reached with
  | @start w new =>
    refine ⟨fun _ => [],fun i => ?_,fun _ _ _ x none => absurd none List.not_mem_nil⟩
    rw [new]
    exact capped_empty w.mem _
  | @others at_ w w' r before may ih =>
    cases at_ with
    | none =>
      obtain ⟨L,c⟩ := ih
      exact ⟨L,c.others may⟩
    | some place => exact rely_others ih may
  | call before may ih =>
    obtain ⟨L,c⟩ := ih
    exact c.call may
  | move before move ih => exact rely_move move ih
  | @returns a h w r before ih => exact (ih w (o.refl w)).2

theorem CacheReaches.run {c d : Code World (Option Nat) × List Mutex × World} (run : Run sections.allowed c d)
    (reached : CacheReaches b o (some (c.1,c.2.1)) c.2.2 r) : CacheReaches b o (some (d.1,d.2.1)) d.2.2 r := by
  induction run with
  | refl => exact reached
  | tail _ move ih => exact ih.move move

end

/-! ### Two calls -/

/-- The run of a piece of code that asks the system nothing. -/
def alone {α : Type} (p : Code World α) (w : World) : Code World α × List Mutex × World :=
  (exec (fun w q a => decide (Program.answers w q a)) p [] [] w).1

/-- There are no other threads. -/
def unaccompanied (tc : Nat) : Around tc := ⟨.none World,by rintro w _ rfl; exact ⟨rfl,fun _ _ => rfl⟩⟩

section
variable {b : Build} {tc t n size p : Nat} {w : World}

theorem CacheReaches.alone {r : Nat → Nat} {p : Code World (Option Nat)} {a : Option Nat}
    (reached : CacheReaches b (unaccompanied tc) (some (p,[])) w r) (returned : (alone p w).1.value? = some a) :
    CacheReaches b (unaccompanied tc) none (World.alone p w).2.2 r := by
  have run : Run Program.answers (p,[],w) (World.alone p w) := exec_run (fun _ _ _ => of_decide_eq_true) _ _ _ _
  have there := CacheReaches.run run reached
  rw [Prog.of_value returned] at there
  exact there.returns

/-- The thread cache of thread `t` has just been made. -/
def renewed (w : World) (t : Nat) : World :=
  { w with freeLists := Function.update w.freeLists (w.tlsThreadCache t) (fun _ => {}) }

end

/-- Thread 2 has a block of 64 KB, and thread 1 is making its thread cache. -/
@[irreducible] def making : World :=
  ((Program.plays .standard [.call 2 (.alloc 65536),.turn 2 [],.turn 2 [some (2 ^ 30)],.turn 2 [],.turn 2 [],.turn 2 [],
    .turn 2 [],.turn 2 [],.turn 2 [some (2 ^ 31),some (2 ^ 32),some (2 ^ 33),some (2 ^ 34)],.turn 2 [],.turn 2 [],
    .finish 2,.call 1 (.alloc 65536),.turn 1 [],.turn 1 [],.turn 1 [],.turn 1 []] (.start fun _ => 0)).getD
      (.start fun _ => 0)).world

/-- The thread cache of thread 1. -/
abbrev firstCache : Nat := (renewed making 1).tlsThreadCache 1

/-- The state in which it asks for its first object of 64 KB, from the span that thread 2
    has its block from. -/
abbrev asking : World := (renewed making 1).withList firstCache 183 making.mem { maxSize := 2 }

/-- The state in which it gives back the block of thread 2. -/
abbrev flushing : World :=
  (renewed making 1).withList firstCache 183 ((making.mem.store (2 ^ 31) 0).store (2 ^ 31) 0) { size := 0 }

end World
end TcAlloc
