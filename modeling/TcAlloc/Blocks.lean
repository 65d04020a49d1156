import TcAlloc.Programs
import TcAlloc.PageSafety

/-!
What the program may rely on in every state that it reaches, with any number of
threads anywhere in their calls: its live blocks are sound and do not overlap, the
objects of the spans in buckets are each at one place, and the allocator writes
into objects that are not live only.
-/
namespace TcAlloc
namespace World
namespace Program

/-- Threads ask for blocks of at most `limit` bytes. -/
def Usage.upTo (limit : Nat) : Usage where
  calls
    | .alloc size => size ≤ limit
    | .free _ => True
  goes _ _ := True

/-- The bytes of the longest span in the lists of the page cache. -/
def spanBytes : Nat := (npages - 1) * 2 ^ pageShift

theorem fair_upTo (b : Build) {limit : Nat} (le : limit ≤ spanBytes) : (Usage.upTo limit).Fair b True := by
  refine ⟨fun _ call may => ?_,fun short => absurd trivial short⟩
  cases call with
  | alloc size => exact le_trans may le
  | free ptr => trivial

/-- Thread 1 asks for a first block of `MAX_BYTES`: its thread cache is made, and a span taken. -/
def firstCall : List Cue := [.call 1 (.alloc 262144),.turn 1 [],.turn 1 [some (2 ^ 30)],.turn 1 [],.turn 1 [],
    .turn 1 [],.turn 1 [],.turn 1 [],
  .turn 1 [some (2 ^ 31),some (2 ^ 32),some (2 ^ 33),some (2 ^ 34)],.turn 1 [],.turn 1 [],.finish 1]
/-- So does thread 2, whose cache is in the same chunk, and whose span is cut off the same free one. -/
def secondCall : List Cue := .call 2 (.alloc 262144) :: List.replicate 10 (.turn 2 []) ++ [.finish 2]
/-- The program after the two calls. -/
def served : Program := (plays .standard (firstCall ++ secondCall) (start fun _ => 0)).getD (start fun _ => 0)

theorem plays_getD {b : Build} {cues : List Cue} {M : Program} (some : (plays b cues M).isSome = true) (N : Program) :
    plays b cues M = Option.some ((plays b cues M).getD N) := by
  cases result : plays b cues M with
  | none => rw [result] at some; cases some
  | some M' => rfl

theorem served_reached {limit : Nat} (large : 262144 ≤ limit) : Reaches .standard (.upTo limit) (start fun _ => 0) served :=
  plays_reaches (firstCall ++ secondCall) (by simp [firstCall,secondCall,Cue.May,Usage.upTo,large]) (fun _ _ => trivial)
    (plays_getD (by decide +kernel) _)

theorem served_live : served.live = [(2 ^ 31 + 2 ^ 19,262144),(2 ^ 31,262144)] := by decide +kernel

/-! ### Live blocks -/

section
variable {b : Build} {short : Prop} {g : Stock} {l : Ledger} {M : Program} {p q size size' : Nat}

/-- A live block has the bytes that were asked for. -/
theorem Agrees.size_le (agrees : Agrees b short g l M) (mem : (p,size) ∈ M.live) :
    size ≤ SizeClass.roundUp b.midAlignShift size := by
  have small := agrees.sized p size mem
  obtain ⟨_,S,owns⟩ := agrees.books.stock.blocks p size mem
  have word := (agrees.books.stock.sound S owns.home).word
  rw [owns.size] at word
  by_cases large : maxBytes < size
  · by_cases wraps : 2 ^ 64 ≤ size + 8191
    · rw [SizeClass.roundUp_wraps wraps small] at word
      omega
    · rw [SizeClass.roundUp_page large (by omega)]
      omega
  · exact (SizeClass.le_roundUp b.coarse (by omega)).1

theorem Agrees.aligned (agrees : Agrees b short g l M) (mem : (p,size) ∈ M.live) : 8 ∣ p := by
  obtain ⟨_,S,owns⟩ := agrees.books.stock.blocks p size mem
  exact Extent.objects_aligned (agrees.books.stock.sound S owns.home) owns.mem

theorem Agrees.backed (agrees : Agrees b short g l M) (mem : (p,size) ∈ M.live) {y : Nat} (inside : Bytes b p size y) :
    M.world.pages.Backed y := by
  obtain ⟨_,S,owns⟩ := agrees.books.stock.blocks p size mem
  obtain ⟨s,used,_,_⟩ := agrees.books.span owns.home
  have obtained := agrees.books.settled.closed_pages (agrees.books.settled.used S s used).1
    (agrees.books.object_pages owns inside.1 inside.2)
  have shift : (2 : Nat) ^ pageShift = 8192 := rfl
  rw [Nat.shiftRight_eq_div_pow,shift] at obtained
  exact agrees.books.settled.backed obtained (by rw [shift]; omega) (by rw [shift]; omega)

/-- The block from `p` on ends before the other begins, or the other way round. -/
def Disjoint (b : Build) (p size q size' : Nat) : Prop :=
  p + SizeClass.roundUp b.midAlignShift size ≤ q ∨ q + SizeClass.roundUp b.midAlignShift size' ≤ p

theorem Agrees.disjoint (agrees : Agrees b short g l M) (hp : (p,size) ∈ M.live) (hq : (q,size') ∈ M.live)
    (ne : (p,size) ≠ (q,size')) :
    Disjoint b p size q size' := by
  have other : p ≠ q := fun same => ne (List.inj_on_of_nodup_map agrees.books.stock.keys hp hq same)
  obtain ⟨_,S,owns⟩ := agrees.books.stock.blocks p size hp
  obtain ⟨_,T,owns'⟩ := agrees.books.stock.blocks q size' hq
  have apart := agrees.books.stock.objects_apart owns.home owns'.home owns.mem owns'.mem other
  rwa [owns.size,owns'.size] at apart

/-- Whatever the threads do, the live blocks are large enough, aligned, inside the
    memory obtained from the system, and disjoint. The system never fails in these
    runs, and answers in whole pages (`answers`). -/
theorem blocks_sound (b : Build) {mem : Memory} (reached : Reaches b (.upTo spanBytes) (start mem) M) :
    (∀ p size, (p,size) ∈ M.live → size ≤ SizeClass.roundUp b.midAlignShift size ∧ 8 ∣ p ∧ ∀ y,
    Bytes b p size y → M.world.pages.Backed y) ∧
      M.live.Pairwise (fun x y => Disjoint b x.1 x.2 y.1 y.2) := by
  obtain ⟨g,l,agrees⟩ := reached.agrees (fair_upTo b (le_refl _))
  refine ⟨fun p size mem => ⟨agrees.size_le mem,agrees.aligned mem,fun y inside => agrees.backed mem inside⟩,?_⟩
  exact List.Nodup.pairwise_of_forall_ne (List.Nodup.of_map _ agrees.books.stock.keys)
    (fun x hx y hy ne => agrees.disjoint hx hy ne)

/-- The blocks of the two calls. -/
theorem blocks_sound_served : served.live = [(2 ^ 31 + 2 ^ 19,262144),(2 ^ 31,262144)] ∧
    (∀ p size, (p,size) ∈ served.live → size ≤ SizeClass.roundUp Build.standard.midAlignShift size ∧ 8 ∣ p ∧
        ∀ y, Bytes .standard p size y → served.world.pages.Backed y) ∧
      served.live.Pairwise (fun x y => Disjoint .standard x.1 x.2 y.1 y.2) :=
  ⟨served_live,blocks_sound .standard (served_reached (by decide))⟩

end

/-! ### Objects -/

/-- Where an object can be. -/
inductive Spot where
  /-- The free list of its span. -/
  | onSpan
  /-- The list of a thread for the class. -/
  | inCache (t : Nat)
  /-- The batch that a thread is moving, or the one block it is about to return or to free. -/
  | inTransit (t : Nat)
  | live
  deriving DecidableEq

/-- The object `x` of the span `S` in the bucket `i` is there, the threads standing at the points. -/
def Lies (M : Program) (points : Nat → Option Point) (S i x : Nat) : Spot → Prop
  | .onSpan => ∃ objs, Chain M.world.mem (M.world.pages.spans S).freeList objs ∧ x ∈ objs
  | .inCache t => M.world.tlsThreadCache t ≠ 0 ∧
      ∃ objs, Chain M.world.mem (M.world.freeLists (M.world.tlsThreadCache t) i).head objs ∧ x ∈ objs
  | .inTransit t => ∃ pt objs, points t = some pt ∧ pt.batch M.world objs ∧ x ∈ objs
  | .live => ∃ size, (x,size) ∈ M.live

/-- The points are those where the codes of the threads are. -/
def AtPoints (b : Build) (M : Program) (points : Nat → Option Point) : Prop := ∀ t, match points t with
  | none => M.stage t = .outside
  | some pt => M.stage t = .within pt.call (pt.code b t)

/-- Every object of a span in a bucket is at one place, and the span knows how many are out. -/
structure Conserved (b : Build) (M : Program) (points : Nat → Option Point) : Prop where
  one : ∀ i, ∀ S ∈ M.world.spanLists i, ∀ x ∈ (M.world.pages.spans S).extent.objects, ∃! spot, M.Lies points S i x spot
  count : ∀ i, ∀ S ∈ M.world.spanLists i, ∃ free, Chain M.world.mem (M.world.pages.spans S).freeList free ∧
    (M.world.pages.spans S).useCount = ((M.world.pages.spans S).extent.objects.filter (· ∉ free)).length ∧
    1 ≤ (M.world.pages.spans S).useCount
  entries : ∀ i, ∀ S ∈ M.world.spanLists i, ∀ q ∈ (M.world.pages.spans S).pages, M.world.pages.entry q = S
  sized : ∀ i, ∀ S ∈ M.world.spanLists i, SizeClass.index b.midAlignShift (M.world.pages.spans S).objSize = i ∧
    ∀ p size, (p,size) ∈ M.live → p ∈ (M.world.pages.spans S).extent.objects →
      (M.world.pages.spans S).objSize = SizeClass.roundUp b.midAlignShift size

section
variable {b : Build} {short : Prop} {g : Stock} {l : Ledger} {M : Program} {points : Nat → Option Point} {S i x : Nat}

/-- A thread is at the point, and nothing that is in its hands is unaccounted for. -/
def StandsAt (b : Build) (g : Stock) (M : Program) (t : Nat) : Option Point → Prop
  | none => M.stage t = .outside ∧ ∀ x, g.place x ≠ .transit t
  | some pt => M.stage t = .within pt.call (pt.code b t) ∧ Holds b g M.world t pt

theorem Agrees.at_points (agrees : Agrees b short g l M) : ∃ points : Nat → Option Point, ∀ t,
    StandsAt b g M t (points t) := by
  have at_one : ∀ t, ∃ point, StandsAt b g M t point := fun t => by
    have stands := agrees.stands t
    cases stage : M.stage t with
    | outside =>
      rw [stage] at stands
      exact ⟨none,stage,stands⟩
    | within call code =>
      rw [stage] at stands
      obtain ⟨pt,rfl,rfl,holds⟩ := stands
      exact ⟨some pt,stage,holds⟩
  exact ⟨fun t => (at_one t).choose,fun t => (at_one t).choose_spec⟩

theorem atPoints (stands : ∀ t, StandsAt b g M t (points t)) : AtPoints b M points := fun t => by
  have here := stands t
  cases point : points t with
  | none => rw [point] at here; exact here.1
  | some pt => rw [point] at here; exact here.1

theorem batch_unique {w : World} {pt : Point} {A B : List Nat} (first : pt.batch w A) (second : pt.batch w B) : A = B := by
  cases pt with
  | begins call =>
    cases call with
    | alloc size => exact first.trans second.symm
    | free ptr => exact first.trans second.symm
  | keeps size tc start end_ actualNum => exact Chain.unique first second
  | flushes ptr size rounds start => exact Chain.unique first second
  | returns ptr size rounds span next => exact Chain.unique first second
  | _ => exact first.trans second.symm

theorem lies_onSpan (books : Books b g l M.world M.live) (home : g.home S = some (.listed i)) :
    M.Lies points S i x .onSpan ↔ g.place x = .free S := by
  obtain ⟨free,counted⟩ := books.shelved (.free S) i home
  rw [← counted.shelf.holding.mem]
  constructor
  · rintro ⟨objs,chain,mem⟩
    rwa [counted.shelf.chain.unique chain]
  · exact fun mem => ⟨free,counted.shelf.chain,mem⟩

theorem lies_inCache (books : Books b g l M.world M.live) {t : Nat} :
    M.Lies points S i x (.inCache t) ↔ M.world.tlsThreadCache t ≠ 0 ∧ g.place x = .cached (M.world.tlsThreadCache t) i := by
  obtain ⟨objs,listed⟩ := books.shelved (.cached (M.world.tlsThreadCache t) i)
  rw [← listed.shelf.holding.mem]
  constructor
  · rintro ⟨made,objs',chain,mem⟩
    exact ⟨made,by rwa [listed.shelf.chain.unique chain]⟩
  · rintro ⟨made,mem⟩
    exact ⟨made,objs,listed.shelf.chain,mem⟩

theorem lies_inTransit (stands : ∀ t, StandsAt b g M t (points t)) {t : Nat} :
    M.Lies points S i x (.inTransit t) ↔ g.place x = .transit t := by
  have here := stands t
  constructor
  · rintro ⟨pt,objs,point,batch,mem⟩
    rw [point] at here
    obtain ⟨_,list,size,batch',carries,_⟩ := here
    rw [batch_unique batch batch'] at mem
    exact carries.holding.at_place mem
  · intro there
    cases point : points t with
    | none =>
      rw [point] at here
      exact absurd there (here.2 x)
    | some pt =>
      rw [point] at here
      obtain ⟨_,list,size,batch,carries,_⟩ := here
      exact ⟨pt,list,point,batch,(carries.holding.mem x).mpr there⟩

theorem lies_live (books : Books b g l M.world M.live) : M.Lies points S i x .live ↔ g.place x = .live :=
  ⟨fun ⟨size,mem⟩ => (books.stock.blocks x size mem).1,fun here => books.stock.served x here⟩

/-- An object is at one place. -/
theorem lies_unique (books : Books b g l M.world M.live) (stands : ∀ t, StandsAt b g M t (points t))
    (home : g.home S = some (.listed i))
    (mem : x ∈ (g.extent S).objects) : ∃! spot, M.Lies points S i x spot := by
  have somewhere := books.stock.whole S i home x mem
  have suits := books.stock.suits home mem somewhere
  have onSpan : M.Lies points S i x .onSpan ↔ g.place x = .free S := lies_onSpan books home
  have inCache : ∀ t, M.Lies points S i x (.inCache t) ↔ M.world.tlsThreadCache t ≠ 0 ∧ g.place x = .cached
    (M.world.tlsThreadCache t) i :=
    fun t => lies_inCache books
  have inTransit : ∀ t, M.Lies points S i x (.inTransit t) ↔ g.place x = .transit t := fun t => lies_inTransit stands
  have live : M.Lies points S i x .live ↔ g.place x = .live := lies_live books
  cases here : g.place x with
  | nowhere => exact absurd here somewhere
  | free T =>
    rw [here] at suits
    obtain ⟨rfl,_⟩ := suits
    refine ⟨.onSpan,onSpan.mpr here,fun spot lies => ?_⟩
    cases spot with
    | onSpan => rfl
    | inCache t => have there := ((inCache t).mp lies).2; rw [here] at there; cases there
    | inTransit t => have there := (inTransit t).mp lies; rw [here] at there; cases there
    | live => have there := live.mp lies; rw [here] at there; cases there
  | cached tc j =>
    rw [here] at suits
    obtain rfl : i = j := Home.listed.inj suits
    -- A list that is not empty belongs to a thread that has stored the pointer to its cache.
    obtain ⟨t,stored,made⟩ := (books.caches.manned tc).resolve_left (fun empty => by
      obtain ⟨objs,listed⟩ := books.shelved (.cached tc i)
      have chain := listed.shelf.chain
      rw [empty] at chain
      have none := (listed.shelf.holding.mem x).mpr here
      rw [Chain.nil_iff.mp chain] at none
      exact List.not_mem_nil none)
    refine ⟨.inCache t,(inCache t).mpr ⟨by rw [stored]; exact made,by rw [stored]; exact here⟩,fun spot lies => ?_⟩
    cases spot with
    | onSpan => have there := onSpan.mp lies; rw [here] at there; cases there
    | inCache u =>
      obtain ⟨made',there⟩ := (inCache u).mp lies
      rw [here] at there
      rw [books.cache_unique made' ((Place.cached.inj there).1.symm.trans stored.symm)]
    | inTransit u => have there := (inTransit u).mp lies; rw [here] at there; cases there
    | live => have there := live.mp lies; rw [here] at there; cases there
  | transit t =>
    refine ⟨.inTransit t,(inTransit t).mpr here,fun spot lies => ?_⟩
    cases spot with
    | onSpan => have there := onSpan.mp lies; rw [here] at there; cases there
    | inCache u => have there := ((inCache u).mp lies).2; rw [here] at there; cases there
    | inTransit u => have there := (inTransit u).mp lies; rw [here] at there; cases there; rfl
    | live => have there := live.mp lies; rw [here] at there; cases there
  | live =>
    refine ⟨.live,live.mpr here,fun spot lies => ?_⟩
    cases spot with
    | onSpan => have there := onSpan.mp lies; rw [here] at there; cases there
    | inCache u => have there := ((inCache u).mp lies).2; rw [here] at there; cases there
    | inTransit u => have there := (inTransit u).mp lies; rw [here] at there; cases there
    | live => rfl

theorem conserved (books : Books b g l M.world M.live) (stands : ∀ t, StandsAt b g M t (points t)) : Conserved b M
    points := by
  have extent : ∀ {S i}, S ∈ M.world.spanLists i → g.home S = some (.listed i) ∧
    (M.world.pages.spans S).extent = g.extent S := fun {S i} mem => by
    have home := (books.buckets i S).mp mem
    obtain ⟨s,_,same,extent⟩ := books.span (S := S) (by rw [home]; simp)
    exact ⟨home,by rw [extent,same]⟩
  refine ⟨fun i S mem x inS => ?_,fun i S mem => ?_,fun i S mem q inS => ?_,fun i S mem => ?_⟩
  · obtain ⟨home,same⟩ := extent mem
    rw [same] at inS
    exact lies_unique books stands home inS
  · obtain ⟨home,same⟩ := extent mem
    obtain ⟨free,counted⟩ := books.shelved (.free S) i home
    rw [same]
    exact ⟨free,counted.shelf.chain,counted.out_length books.stock (by rw [home]; simp),counted.out⟩
  · exact books.listed_found (extent mem).1 inS
  · obtain ⟨home,same⟩ := extent mem
    obtain ⟨inside,size_eq,_⟩ := books.stock.classed S i home
    rw [show (M.world.pages.spans S).objSize = (g.extent S).objSize from congrArg Extent.objSize same]
    refine ⟨by rw [size_eq]; exact SizeClass.index_classSize b.coarse inside,fun p size live here => ?_⟩
    obtain ⟨_,T,owns⟩ := books.stock.blocks p size live
    rw [same] at here
    rw [← owns.size,books.stock.owner_unique owns.home (by rw [home]; simp) owns.mem here]

/-- While the threads allocate and free blocks of at most `MAX_BYTES`, no object of a
    span in a bucket is lost or doubled, and the counts are right. The system never fails
    and answers in whole pages. -/
theorem objects_conserved (b : Build) {mem : Memory} (reached : Reaches b (.upTo maxBytes) (start mem) M) :
    ∃ points, AtPoints b M points ∧ Conserved b M points := by
  obtain ⟨g,l,agrees⟩ := reached.agrees (fair_upTo b (by decide))
  obtain ⟨points,stands⟩ := agrees.at_points
  exact ⟨points,atPoints stands,conserved agrees.books stands⟩

theorem objects_conserved_served : ∃ points, AtPoints .standard served points ∧ Conserved .standard served points :=
  objects_conserved .standard (served_reached (by decide))

/-! ### Contents -/

/-- A byte of the first word of an object of a span in use that overlaps no live block. -/
def LinkByte (b : Build) (M : Program) (y : Nat) : Prop := ∃ S, M.world.pages.InUse S ∧
    ∃ x ∈ (M.world.pages.spans S).extent.objects,
  (x ≤ y ∧ y < x + 8) ∧ ∀ p size, (p,size) ∈ M.live →
    p + SizeClass.roundUp b.midAlignShift size ≤ x ∨ x + (M.world.pages.spans S).objSize ≤ p

theorem Act.written {u : Usage} {M' : Program} (act : Act b u M M') (agrees : Agrees b short g l M)
    (fair : u.Fair b short) {y : Nat}
    (changed : M'.world.mem y ≠ M.world.mem y) : LinkByte b M' y := by
  cases act with
  | alloc outside sized may => exact absurd rfl changed
  | free outside live may => exact absurd rfl changed
  | allocated ended => exact absurd rfl changed
  | freed ended => exact absurd rfl changed
  | turn running may run =>
    obtain ⟨g',l',_,_,_,_,_,goes,_⟩ := agrees.turn fair running may run
    obtain ⟨x,⟨somewhere,notLive,_⟩,inside⟩ := goes.written y changed
    obtain ⟨S,h,home,mem,_⟩ := goes.books.stock.placed x somewhere
    have used : g'.home S ≠ none := by rw [home]; simp
    obtain ⟨s,taken,same,extent⟩ := goes.books.span used
    have objSize : (g'.extent S).objSize = s.objSize := congrArg Extent.objSize extent
    refine ⟨S,(goes.books.settled.inUse_iff S).mpr ⟨s,taken⟩,x,by rw [same,← extent]; exact mem,inside,fun p size live => ?_⟩
    obtain ⟨here,T,owns⟩ := goes.books.stock.blocks p size live
    have apart := goes.books.stock.objects_apart owns.home used owns.mem mem (fun equal => notLive (equal ▸ here))
    rw [owns.size,objSize] at apart
    rwa [same]

/-- The bytes of a live block are not those that the allocator links objects with. -/
theorem LinkByte.not_live {M : Program} {y p size : Nat} (agrees : Agrees b short g l M)
    (link : LinkByte b M y) (mem : (p,size) ∈ M.live) :
    ¬ Bytes b p size y := by
  obtain ⟨S,inUse,x,inS,inside,apart⟩ := link
  obtain ⟨s,used⟩ := (agrees.books.settled.inUse_iff S).mp inUse
  have word := (agrees.books.stock.sound S (agrees.books.home_of_used used)).word
  rw [agrees.books.extent S s used,← (agrees.books.settled.used S s used).2.same] at word
  have word : 8 ≤ (M.world.pages.spans S).objSize := word
  rintro ⟨low,high⟩
  rcases apart p size mem with left | right <;> omega

/-- A block that stays live keeps its contents. -/
theorem Agrees.contents {u : Usage} {M' : Program} {p size : Nat} (agrees : Agrees b short g l M) (fair : u.Fair b short)
    (run : Relation.ReflTransGen (fun N N' => Act b u N N' ∧ (p,size) ∈ N'.live) M M') :
    (∃ g' l', Agrees b short g' l' M') ∧ ∀ y, Bytes b p size y → M'.world.mem y = M.world.mem y := by
  induction run with
  | refl => exact ⟨⟨g,l,agrees⟩,fun _ _ => rfl⟩
  | tail _ step ih =>
    obtain ⟨⟨g',l',agrees'⟩,same⟩ := ih
    obtain ⟨g'',l'',agrees''⟩ := agrees'.act fair step.1
    refine ⟨⟨g'',l'',agrees''⟩,fun y inside => ?_⟩
    by_contra changed
    exact LinkByte.not_live agrees'' (step.1.written agrees' fair (fun equal => changed (equal.trans (same y inside))))
      step.2 inside

/-- A call that a thread may make: of at most `limit` bytes, or for a live block. -/
def MayCall (M : Program) (limit : Nat) : Call → Prop
  | .alloc size => size ≤ limit
  | .free p => ∃ size, (p,size) ∈ M.live

/-- The allocator writes the links of objects that are not live. So a block keeps its
    contents while the threads, in any order, are at work in the allocator, and during
    a call with nothing else going on every block does, but the one that the call frees.
    The system never fails and answers in whole pages. -/
theorem live_untouched (b : Build) {mem : Memory} (reached : Reaches b (.upTo spanBytes) (start mem) M) :
    (∀ M', Act b (.upTo spanBytes) M M' → ∀ y, M'.world.mem y ≠ M.world.mem y → LinkByte b M' y ∧
        ∀ p size, (p,size) ∈ M'.live → ¬ Bytes b p size y) ∧
      (∀ M' p size, (p,size) ∈ M.live → Relation.ReflTransGen
      (fun N N' => Act b (.upTo spanBytes) N N' ∧ (p,size) ∈ N'.live) M M' →
        ∀ y, Bytes b p size y → M'.world.mem y = M.world.mem y) ∧
      ∀ t call d, M.stage t = .outside → MayCall M spanBytes call → Turns (call.code b t,M.world) d →
        ∀ p size, (p,size) ∈ M.live → call ≠ .free p → ∀ y, Bytes b p size y → d.2.mem y = M.world.mem y := by
  have fair := fair_upTo b (le_refl spanBytes)
  obtain ⟨g,l,agrees⟩ := reached.agrees fair
  refine ⟨fun M' act y changed => ?_,fun M' p size _ run => (agrees.contents fair run).2,
    fun t call d outside may turns p size mem other y inside => ?_⟩
  · obtain ⟨g',l',agrees'⟩ := agrees.act fair act
    have link := act.written agrees fair changed
    exact ⟨link,fun p size live => link.not_live agrees' live⟩
  · obtain ⟨M₁,act,begun,live⟩ : ∃ M₁, Act b (.upTo spanBytes) M M₁ ∧
      M₁.goOn t call (call.code b t,M.world) = M₁ ∧ (p,size) ∈ M₁.live := by
      cases call with
      | alloc size' =>
        exact ⟨_,.alloc outside (lt_of_le_of_lt may (by decide)) may,by simp only [goOn,put,Function.update_idem],mem⟩
      | free q =>
        obtain ⟨size',live⟩ := may
        refine ⟨_,.free outside live trivial,by simp only [goOn,put,Function.update_idem],?_⟩
        exact (List.mem_erase_of_ne (fun same => other (by cases same; rfl))).mpr mem
    have acts := turns.acts (b := b) (u := .upTo spanBytes) M₁ t call (fun _ _ => trivial)
    rw [begun] at acts
    have run : Relation.ReflTransGen (fun N N' => Act b (.upTo spanBytes) N N' ∧ (p,size) ∈ N'.live) M₁ (M₁.goOn t call d) :=
      Relation.ReflTransGen.mono (fun N N' (step : _ ∧ N'.live = M₁.live) => ⟨step.1,by rw [step.2]; exact live⟩) _ _ acts
    exact (agrees.contents fair (.head ⟨act,live⟩ run)).2 y inside

theorem live_untouched_served :
    (∀ M', Act .standard (.upTo spanBytes) served M' → ∀ y, M'.world.mem y ≠ served.world.mem y → LinkByte .standard M' y ∧
        ∀ p size, (p,size) ∈ M'.live → ¬ Bytes .standard p size y) ∧
      (∀ M' p size, (p,size) ∈ served.live →
        Relation.ReflTransGen (fun N N' => Act .standard (.upTo spanBytes) N N' ∧ (p,size) ∈ N'.live) served M' →
        ∀ y, Bytes .standard p size y → M'.world.mem y = served.world.mem y) ∧
      ∀ t call d, served.stage t = .outside → MayCall served spanBytes call → Turns (call.code .standard t,served.world) d →
        ∀ p size, (p,size) ∈ served.live → call ≠ .free p → ∀ y, Bytes .standard p size y → d.2.mem y = served.world.mem y :=
  live_untouched .standard (served_reached (by decide))

end
end Program
end World
end TcAlloc
