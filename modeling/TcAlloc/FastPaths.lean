import TcAlloc.CacheBounds

/-!
The calls that a thread serves from its own lists: a small block is popped from the list
of its class, if the list has an object, and pushed on it, if the list has room. Between
its beginning and its end such a call makes a fixed number of accesses to the state,
whatever the other threads do meanwhile, and it neither waits for a mutex nor asks the
system for anything (`allocates_alone`, `frees_alone`). What a thread has freed in this
way is what it gets next (`freed_block_returns`).
-/
namespace TcAlloc
namespace World
namespace Program

/-! ### The thread's own sections among the others' steps -/

/-- A run in which thread `t` makes `n` sections of its call, and begins and ends none. -/
inductive Amid (b : Build) (u : Usage) (t : Nat) (M : Program) : Nat → Program → Prop
  | refl : Amid b u t M 0 M
  | aside {n : Nat} {N N' : Program} (before : Amid b u t M n N) (step : Step b u N N') (still : N'.stage t = N.stage t) :
      Amid b u t M n N'
  | turn {n : Nat} {N : Program} {call : Call} {p p' : Code World Outcome} {w' : World} (before : Amid b u t M n N)
      (running : N.stage t = .within call p) (may : u.goes p N.world) (run : Section answers p N.world p' w') :
      Amid b u t M (n + 1) (N.goOn t call (p',w'))

section
variable {b : Build} {u : Usage} {short : Prop} {t n : Nat} {M N : Program}

theorem Amid.reaches (amid : Amid b u t M n N) : Reaches b u M N := by
  induction amid with
  | refl => exact .refl
  | aside _ step _ ih => exact ih.tail step
  | turn _ running may run ih => exact ih.tail (.act (.turn running may run))

theorem Amid.trans {m : Nat} {P : Program} (first : Amid b u t M m N) (second : Amid b u t N n P) : Amid b u t M (m + n) P := by
  induction second with
  | refl => exact first
  | aside _ step still ih => exact ih.aside step still
  | turn _ running may run ih => exact ih.turn running may run

/-- The run that consists of `n` sections of the thread which ask for nothing. -/
theorem plays_amid (always : ∀ p w, u.goes p w) (played : plays b (List.replicate n (.turn t [])) M = some N) :
    Amid b u t M n N := by
  induction n generalizing M with
  | zero => cases played; exact .refl
  | succ n ih =>
    obtain ⟨M',first,rest⟩ := Option.bind_eq_some_iff.mp played
    simp only [Cue.play] at first
    split at first
    · next call p running =>
      obtain ⟨d,result,rfl⟩ := Option.map_eq_some_iff.mp first
      have run := execSection_within (fun _ _ _ => of_decide_eq_true) p [] [] M.world (.inl rfl) result
      have one : Amid b u t M 1 (M.goOn t call d) := .turn .refl running (always _ _) run
      rw [Nat.add_comm]
      exact one.trans (ih rest)
    · cases first

/-- What others' steps keep, and each section of the thread carries on, holds along the run. -/
theorem Amid.along {I : Nat → Stock → Program → Prop} (amid : Amid b u t M n N) (fair : u.Fair b short)
    (start : ∃ g l, Agrees b short g l M ∧ I 0 g M)
    (aside : ∀ {n g l N g' l' N' v}, v ≠ t → Agrees b short g l N → Agrees b short g' l' N' →
      Kept v g N.world g' N'.world → N'.stage t = N.stage t → I n g N → I n g' N')
    (turn : ∀ {n g l N call p p' w'}, Agrees b short g l N → N.stage t = .within call p → u.goes p N.world →
      Section answers p N.world p' w' → I n g N →
      ∃ g' l', Agrees b short g' l' (N.goOn t call (p',w')) ∧ I (n + 1) g' (N.goOn t call (p',w'))) :
    ∃ g l, Agrees b short g l N ∧ I n g N := by
  induction amid with
  | refl => exact start
  | aside before step still ih =>
    obtain ⟨g,l,agrees,here⟩ := ih
    obtain ⟨g',l',v,ne,agrees',kept⟩ := agrees.aside fair step still
    exact ⟨g',l',agrees',aside ne agrees agrees' kept still here⟩
  | turn before running may run ih =>
    obtain ⟨g,l,agrees,here⟩ := ih
    exact turn agrees running may run here

/-- Where the thread makes no section, it is where it was and has the lists that it had. -/
theorem Amid.still {g : Stock} {l : Ledger} (amid : Amid b u t M 0 N) (fair : u.Fair b short) (agrees : Agrees b short g l M) :
    N.stage t = M.stage t ∧ ownPart t N.world = ownPart t M.world := by
  obtain ⟨_,_,_,here⟩ := amid.along (I := fun n _ N => n = 0 → N.stage t = M.stage t ∧ ownPart t N.world = ownPart t M.world)
    fair ⟨g,l,agrees,fun _ => ⟨rfl,rfl⟩⟩
    (fun ne agrees agrees' kept still here none =>
      ⟨still.trans (here none).1,(kept.ownPart agrees.books agrees'.books ne.symm).trans (here none).2⟩)
    (fun {n g l N call p p' w'} agrees running may run _ => by
      obtain ⟨g',l',_,_,_,_,_,_,agrees'⟩ := agrees.turn fair running may run
      exact ⟨g',l',agrees',fun none => by cases none⟩)
  exact here rfl

end
end Program

/-! ### The accesses -/

/-- From the one point the code reads something and is at the other. -/
def Reads (b : Build) (t : Nat) (w : World) (pt pt' : Point) : Prop :=
  ∃ f k, pt.code b t = .act f k ∧ f w = w ∧ k w = pt'.code b t

section
variable {b : Build} {t : Nat} {g : Stock} {l : Ledger} {w : World} {live : List (Nat × Nat)} {ptr size tc : Nat}

theorem begins_reads (small : size ≤ maxBytes) (made : w.tlsThreadCache t ≠ 0) :
    Reads b t w (.begins (.alloc size)) (.pops size (w.tlsThreadCache t)) := by
  have code : (Point.begins (.alloc size)).code b t = (ownCache b t >>= fun tc => allocate b tc size) >>= Point.block := by
    simp only [Point.code,Call.code,concurrentAlloc,if_neg (show ¬ maxBytes < size by omega)]
    rfl
  refine ⟨id,_,code,rfl,?_⟩
  simp only [Prog.bind,if_neg made]
  rfl

/-- An operation on a list is one access. -/
theorem onList_access {β : Type} (w : World) (tc i : Nat) {h : Memory → FreeList → Except Fault (β × Memory × FreeList)}
    {r : β} {m : Memory} {l : FreeList} (runs : h w.mem (w.freeLists tc i) = .ok (r,m,l)) :
    ∃ f k, onList tc i h = .act f k ∧ k w = .ret r ∧ f w = w.withList tc i m l := by
  refine ⟨_,_,rfl,?_,?_⟩ <;> simp only [runs]

theorem pops_access (small : size ≤ maxBytes)
    (some_ : (w.freeLists tc (SizeClass.index b.midAlignShift size)).head ≠ 0) :
    ∃ f k, (Point.pops size tc).code b t = .act f k ∧
      k w = .ret (.block (w.freeLists tc (SizeClass.index b.midAlignShift size)).head) ∧
      ∃ m l', f w = w.withList tc (SizeClass.index b.midAlignShift size) m l' ∧
        l'.size = minus (w.freeLists tc (SizeClass.index b.midAlignShift size)).size 1 := by
  simp only [Point.code,allocate,Prog.require,if_pos small]
  generalize SizeClass.index b.midAlignShift size = i at some_ ⊢
  obtain ⟨f,k,code,next,after⟩ := onList_access w tc i (h := popIfAny)
    (r := some (w.freeLists tc i).head) (m := w.mem)
    (l := { w.freeLists tc i with head := w.mem.load (w.freeLists tc i).head, size := minus (w.freeLists tc i).size 1 })
    (by simp only [popIfAny,if_neg some_,FreeList.pop,Except.map])
  refine ⟨f,_,by rw [code]; rfl,?_,w.mem,_,after,rfl⟩
  simp only [next]
  rfl

/-- A load of the lookup. -/
theorem lookup_reads {f : PageMap → Nat} {k : Nat → Code PageMap Nat} {pt pt' : Point}
    (code : pt.code b t = Point.lookup b t ptr (Prog.read f >>= k))
    (next : Point.lookup b t ptr (k (f w.pages.idSpanMap)) = pt'.code b t) : Reads b t w pt pt' :=
  ⟨_,_,code,rfl,next⟩

/-- The points of a free that uses the thread's own list, in their order. -/
def Pushing (ptr bytes tc : Nat) : Nat → Point → Prop
  | 0, pt => pt = .begins (.free ptr)
  | 1, pt => ∃ mid, pt = .looksAtMid ptr mid
  | 2, pt => ∃ leaf, pt = .looksAtLeaf ptr leaf
  | 3, pt => ∃ S, pt = .measures ptr S
  | 4, pt => pt = .readsCache ptr bytes
  | 5, pt => pt = .pushes ptr bytes tc
  | _, _ => False

theorem Pushing.call {n : Nat} {pt : Point} (pushing : Pushing ptr size tc n pt) : pt.call = .free ptr := by
  match n with
  | 0 => cases pushing; rfl
  | 1 => obtain ⟨mid,rfl⟩ := pushing; rfl
  | 2 => obtain ⟨leaf,rfl⟩ := pushing; rfl
  | 3 => obtain ⟨S,rfl⟩ := pushing; rfl
  | 4 => cases pushing; rfl
  | 5 => cases pushing; rfl
  | n+6 => exact pushing.elim

theorem begins_free_reads (books : Books b g l w live) (holds : Holds b g w t (.begins (.free ptr))) :
    ∃ mid, Reads b t w (.begins (.free ptr)) (.looksAtMid ptr mid) ∧ Holds b g w t (.looksAtMid ptr mid) := by
  obtain ⟨list,size,rfl,carries,_⟩ := holds
  obtain ⟨S,_,found,some_⟩ := books.leads_to carries
  obtain ⟨inside,root,_,_⟩ := PageMap.found found some_
  have code : (Point.begins (.free ptr)).code b t = Point.lookup b t ptr
      (Prog.read (·.root (PageMap.i1 Pages.bits (ptr >>> pageShift))) >>=
      PageMap.afterRoot Pages.bits (ptr >>> pageShift)) := by
    have whole : (Point.begins (.free ptr)).code b t = Point.lookup b t ptr
      (PageMap.load Pages.bits (ptr >>> pageShift)) := rfl
    rw [whole,PageMap.load,if_neg inside]
  exact ⟨_,lookup_reads code rfl,[ptr],size,rfl,carries,root,rfl⟩

theorem looksAtMid_reads {mid : Nat} (books : Books b g l w live) (holds : Holds b g w t (.looksAtMid ptr mid)) :
    ∃ leaf, Reads b t w (.looksAtMid ptr mid) (.looksAtLeaf ptr leaf) ∧ Holds b g w t (.looksAtLeaf ptr leaf) := by
  obtain ⟨list,size,rfl,carries,some_mid,root⟩ := holds
  obtain ⟨S,_,found,some_⟩ := books.leads_to carries
  obtain ⟨_,_,leaf,_⟩ := PageMap.found found some_
  rw [root] at leaf
  have code : (Point.looksAtMid ptr mid).code b t = Point.lookup b t ptr
      (Prog.read (·.mids mid (PageMap.i2 Pages.bits (ptr >>> pageShift))) >>=
      PageMap.afterMid Pages.bits (ptr >>> pageShift)) := by
    rw [Point.code,PageMap.afterRoot,if_neg some_mid]
  exact ⟨_,lookup_reads code rfl,[ptr],size,rfl,carries,leaf,mid,some_mid,root,rfl⟩

theorem looksAtLeaf_reads {leaf : Nat} (books : Books b g l w live) (holds : Holds b g w t (.looksAtLeaf ptr leaf)) :
    ∃ S, Reads b t w (.looksAtLeaf ptr leaf) (.measures ptr S) ∧ Holds b g w t (.measures ptr S) := by
  obtain ⟨list,size,rfl,carries,some_leaf,mid,some_mid,root,below⟩ := holds
  obtain ⟨S,owns,found,some_⟩ := books.leads_to carries
  obtain ⟨_,_,_,entry⟩ := PageMap.found found some_
  rw [root,below] at entry
  have code : (Point.looksAtLeaf ptr leaf).code b t = Point.lookup b t ptr
      (Prog.read (·.leaves leaf (PageMap.i3 Pages.bits (ptr >>> pageShift))) >>= .ret) := by
    rw [Point.code,PageMap.afterMid,if_neg some_leaf]
    rfl
  refine ⟨S,lookup_reads code ?_,[ptr],size,rfl,carries,owns⟩
  simp only [entry,Point.lookup,Prog.zoom,Prog.bind_def,Prog.bind,Prog.require,if_pos some_]
  rfl

theorem measures_reads {S : Nat} (books : Books b g l w live) (owns : g.Owns S ptr size) (small : size ≤ maxBytes) :
    Reads b t w (.measures ptr S) (.readsCache ptr size) := by
  obtain ⟨s,_,same,extent⟩ := books.span owns.home
  have objSize : (w.pages.spans S).objSize = size := by
    rw [same,← owns.size,extent]; rfl
  refine ⟨_,_,rfl,rfl,?_⟩
  show freeSized b t ptr S (w.pages.spans S).objSize >>= Point.done = _
  rw [objSize,freeSized,if_neg (show ¬ maxBytes < size by omega)]
  rfl

theorem readsCache_reads (made : w.tlsThreadCache t ≠ 0) :
    Reads b t w (.readsCache ptr size) (.pushes ptr size (w.tlsThreadCache t)) := by
  refine ⟨_,_,rfl,rfl,?_⟩
  simp only [Prog.bind_def,Prog.bind,Prog.require,ne_eq,made,not_false_eq_true,if_true]
  rfl

theorem pushes_access (small : size ≤ maxBytes) (some_ : ptr ≠ 0)
    (room : (w.freeLists tc (SizeClass.index b.midAlignShift size)).size + 1 <
      (w.freeLists tc (SizeClass.index b.midAlignShift size)).maxSize) :
    ∃ f k, (Point.pushes ptr size tc).code b t = .act f k ∧ k w = .ret .freed ∧
      ∃ m l', f w = w.withList tc (SizeClass.index b.midAlignShift size) m l' ∧ l'.head = ptr ∧
        l'.size = (w.freeLists tc (SizeClass.index b.midAlignShift size)).size + 1 := by
  simp only [Point.code,deallocate,Prog.require,if_pos small,if_pos some_]
  generalize SizeClass.index b.midAlignShift size = i at room ⊢
  obtain ⟨f,k,code,next,after⟩ := onList_access w tc i (h := pushAndTest ptr) (r := false)
    (m := w.mem.store ptr (w.freeLists tc i).head)
    (l := { w.freeLists tc i with head := ptr, size := (w.freeLists tc i).size + 1 })
    (by simp only [pushAndTest,if_neg some_,FreeList.push,Except.map,decide_eq_false (Nat.not_le_of_lt room)])
  refine ⟨f,_,by rw [code]; rfl,?_,_,_,after,rfl,rfl⟩
  simp only [next]
  rfl

/-- A free that uses the thread's own list reads on up to its push. -/
theorem Pushing.reads {pt : Point} {n : Nat} (pushing : Pushing ptr size (w.tlsThreadCache t) n pt) (few : n < 5)
    (books : Books b g l w live) (holds : Holds b g w t pt) (small : size ≤ maxBytes) (sized : ∃ S, g.Owns S ptr size)
    (made : w.tlsThreadCache t ≠ 0) :
    ∃ pt', Pushing ptr size (w.tlsThreadCache t) (n + 1) pt' ∧ Reads b t w pt pt' ∧ Holds b g w t pt' := by
  obtain ⟨T,owns⟩ := sized
  match n, few with
  | 0, _ =>
    cases pushing
    obtain ⟨mid,reads,holds'⟩ := begins_free_reads books holds
    exact ⟨_,⟨mid,rfl⟩,reads,holds'⟩
  | 1, _ =>
    obtain ⟨mid,rfl⟩ := pushing
    obtain ⟨leaf,reads,holds'⟩ := looksAtMid_reads books holds
    exact ⟨_,⟨leaf,rfl⟩,reads,holds'⟩
  | 2, _ =>
    obtain ⟨leaf,rfl⟩ := pushing
    obtain ⟨S,reads,holds'⟩ := looksAtLeaf_reads books holds
    exact ⟨_,⟨S,rfl⟩,reads,holds'⟩
  | 3, _ =>
    obtain ⟨S,rfl⟩ := pushing
    obtain ⟨list,size',rfl,carries,found⟩ := holds
    obtain rfl : S = T := books.stock.owner_unique found.home owns.home found.mem owns.mem
    obtain rfl : size' = size := found.size.symm.trans owns.size
    exact ⟨_,rfl,measures_reads books owns small,[ptr],size',rfl,carries,rfl,small⟩
  | 4, _ =>
    cases pushing
    obtain ⟨list,size',rfl,carries,rfl,_⟩ := holds
    exact ⟨_,rfl,readsCache_reads made,[ptr],size',rfl,carries,rfl,small,books.ownCache made⟩

/-- A section that begins where the code reads is that read. -/
theorem Reads.section {pt pt' : Point} {p' : Code World Outcome} {w' : World} (reads : Reads b t w pt pt')
    (run : Section Program.answers (pt.code b t) w p' w') : p' = pt'.code b t ∧ w' = w := by
  obtain ⟨f,k,code,same,next⟩ := reads
  rw [code] at run
  obtain ⟨rfl,rfl⟩ := run.of_act
  exact ⟨next,same⟩

end

namespace Program

section
variable {b : Build} {u : Usage} {short : Prop} {g : Stock} {l : Ledger} {mem : Memory} {M N : Program}
  {t n size ptr : Nat} {x : Nat × (Nat → FreeList)}

/-! ### Allocation -/

/-- Thread `t`, which had the lists `x`, has made `n` accesses of an allocation from its list. -/
def Popping (b : Build) (t size : Nat) (x : Nat × (Nat → FreeList)) : Nat → Program → Prop
  | 0, N => N.stage t = .within (.alloc size) ((Point.begins (.alloc size)).code b t) ∧ ownPart t N.world = x
  | 1, N => N.stage t = .within (.alloc size) ((Point.pops size x.1).code b t) ∧ ownPart t N.world = x
  | 2, N => N.stage t = .within (.alloc size) (.ret (.block (x.2 (SizeClass.index b.midAlignShift size)).head)) ∧
      (N.ownList t (SizeClass.index b.midAlignShift size)).size + 1 = (x.2 (SizeClass.index b.midAlignShift size)).size
  | _, _ => False

theorem Popping.congr {N' : Program} (popping : Popping b t size x n N) (stage : N'.stage t = N.stage t)
    (own : ownPart t N'.world = ownPart t N.world) : Popping b t size x n N' := by
  have list : ∀ i, N'.ownList t i = N.ownList t i := fun i => congrFun (congrArg Prod.snd own) i
  match n with
  | 0 => exact ⟨stage.trans popping.1,own.trans popping.2⟩
  | 1 => exact ⟨stage.trans popping.1,own.trans popping.2⟩
  | 2 => exact ⟨stage.trans popping.1,by rw [list]; exact popping.2⟩
  | n+3 => exact popping

theorem Popping.turn {call : Call} {p p' : Code World Outcome} {w' : World} (popping : Popping b t size x n N)
    (small : size ≤ maxBytes) (made : x.1 ≠ 0) (some_ : (x.2 (SizeClass.index b.midAlignShift size)).head ≠ 0)
    (sized : 1 ≤ (x.2 (SizeClass.index b.midAlignShift size)).size ∧ (x.2 (SizeClass.index b.midAlignShift size)).size < 2 ^ 64)
    (running : N.stage t = .within call p) (run : Section answers p N.world p' w') :
    Popping b t size x (n + 1) (N.goOn t call (p',w')) := by
  match n with
  | 0 =>
    obtain ⟨stage,rfl⟩ := popping
    cases running.symm.trans stage
    obtain ⟨rfl,rfl⟩ := (begins_reads small made).section run
    exact ⟨Function.update_self ..,rfl⟩
  | 1 =>
    obtain ⟨stage,rfl⟩ := popping
    cases running.symm.trans stage
    obtain ⟨f,k,code,next,m,l',after,less⟩ := pops_access (b := b) (t := t) small some_
    rw [show (ownPart t N.world).1 = N.world.tlsThreadCache t from rfl,code] at run
    obtain ⟨rfl,rfl⟩ := run.of_act
    refine ⟨by rw [goOn,put,next]; exact Function.update_self ..,?_⟩
    have list : (N.goOn t (.alloc size) (k N.world,f N.world)).ownList t (SizeClass.index b.midAlignShift size) = l' := by
      rw [ownList,goOn]
      simp only [after,withList,Function.update_self]
    have last : minus (N.world.freeLists (N.world.tlsThreadCache t) (SizeClass.index b.midAlignShift size)).size 1 =
      (N.world.freeLists (N.world.tlsThreadCache t) (SizeClass.index b.midAlignShift size)).size - 1 :=
      minus_pred sized.1 sized.2
    rw [list,less,last]
    exact Nat.sub_add_cancel sized.1
  | 2 =>
    obtain ⟨stage,_⟩ := popping
    cases running.symm.trans stage
    obtain ⟨_,moves⟩ := Within.begins run
    cases moves
  | n+3 => exact popping.elim

/-- The usages that are fair. -/
theorem fair_of (usage : u = .upTo spanBytes ∨ u = .quiet b) : ∃ short, Usage.Fair b u short := by
  rcases usage with rfl | rfl
  · exact ⟨_,fair_upTo b (le_refl _)⟩
  · exact ⟨_,fair_quiet b⟩

/-- A list that has an object is that of a thread cache, and it is short. -/
theorem Agrees.stocked (agrees : Agrees b short g l M) {i : Nat} (some_ : (M.ownList t i).size ≠ 0) :
    M.world.tlsThreadCache t ≠ 0 ∧ (M.ownList t i).head ≠ 0 ∧ (M.ownList t i).size < 2 ^ 64 := by
  obtain ⟨objs,listed⟩ := agrees.books.shelved (.cached (M.world.tlsThreadCache t) i)
  refine ⟨fun none => some_ ?_,fun none => some_ ((agrees.books.orderly.sized _ i).mp none),?_⟩
  · rcases agrees.books.caches.manned 0 with empty | ⟨_,_,other⟩
    · rw [ownList,none,empty]
    · exact absurd rfl other
  · rw [ownList,listed.size]
    exact agrees.books.length_lt listed.shelf.holding (by simp)

/-- Thread `t` has called `ConcurrentAlloc(size)`. -/
def calledAlloc (b : Build) (M : Program) (t size : Nat) : Program :=
  M.put t (.within (.alloc size) ((Call.alloc size).code b t))

/-- The thread is on its way through its own list, whatever the others do meanwhile. -/
theorem Amid.popping (amid : Amid b u t (M.calledAlloc b t size) n N) (usage : u = .upTo spanBytes ∨ u = .quiet b)
    (reached : Reaches b u (start mem) M) (outside : M.stage t = .outside) (small : size ≤ maxBytes)
    (stocked : (M.ownList t (SizeClass.index b.midAlignShift size)).size ≠ 0) :
    M.world.tlsThreadCache t ≠ 0 ∧ (M.ownList t (SizeClass.index b.midAlignShift size)).head ≠ 0 ∧
      Popping b t size (ownPart t M.world) n N := by
  obtain ⟨short,fair⟩ := fair_of usage
  obtain ⟨g,l,agrees⟩ := reached.agrees fair
  obtain ⟨made,some_,bound⟩ := agrees.stocked stocked
  have word : size < 2 ^ 64 := Nat.lt_of_le_of_lt small (by decide)
  have may : u.calls (.alloc size) := by
    rcases usage with rfl | rfl
    · exact Nat.le_trans small (by decide)
    · trivial
  obtain ⟨g,l,begun⟩ := agrees.act fair (.alloc outside word may)
  obtain ⟨_,_,_,popping⟩ := amid.along (I := fun n _ N => Popping b t size (ownPart t M.world) n N) fair
    ⟨g,l,begun,Function.update_self ..,rfl⟩
    (fun ne agrees agrees' kept still popping =>
      popping.congr still (kept.ownPart agrees.books agrees'.books ne.symm))
    (fun {n g l N call p p' w'} agrees running may run popping => by
      obtain ⟨g',l',_,_,_,_,_,_,agrees'⟩ := agrees.turn fair running may run
      exact ⟨g',l',agrees',popping.turn small made some_ ⟨Nat.pos_of_ne_zero stocked,bound⟩ running run⟩)
  exact ⟨made,some_,popping⟩

/-- `ConcurrentAlloc` of a small block whose class has an object on the thread's list
    makes two accesses to the state and returns the first object of the list, whatever
    the others do meanwhile. There is nothing else before it returns: it waits for no
    mutex, and asks the system for nothing. -/
theorem allocates_alone (b : Build) (usage : u = .upTo spanBytes ∨ u = .quiet b) (reached : Reaches b u (start mem) M)
    (outside : M.stage t = .outside) (small : size ≤ maxBytes)
    (stocked : (M.ownList t (SizeClass.index b.midAlignShift size)).size ≠ 0) (amid : Amid b u t (M.calledAlloc b t size) n N) :
    ∃ p, N.stage t = .within (.alloc size) p ∧
      (n < 2 ∧ (∃ f k, p = .act f k) ∨
        n = 2 ∧ p = .ret (.block (M.ownList t (SizeClass.index b.midAlignShift size)).head) ∧
          (N.ownList t (SizeClass.index b.midAlignShift size)).size + 1 =
            (M.ownList t (SizeClass.index b.midAlignShift size)).size) := by
  obtain ⟨made,some_,popping⟩ := amid.popping usage reached outside small stocked
  match n with
  | 0 =>
    obtain ⟨stage,_⟩ := popping
    obtain ⟨f,k,code,_⟩ := begins_reads (b := b) small made
    exact ⟨_,stage,.inl ⟨by omega,f,k,code⟩⟩
  | 1 =>
    obtain ⟨stage,_⟩ := popping
    obtain ⟨f,k,code,_⟩ := pops_access (b := b) (t := t) small some_
    exact ⟨_,stage,.inl ⟨by omega,f,k,code⟩⟩
  | 2 =>
    obtain ⟨stage,less⟩ := popping
    exact ⟨_,stage,.inr ⟨rfl,rfl,less⟩⟩
  | n+3 => exact popping.elim

/-- The first call, and the free of its block. -/
def freedCues : List Cue := firstCall ++ .call 1 (.free (2 ^ 31)) :: (List.replicate 6 (.turn 1 []) ++ [.finish 1])
def freed : Program := (plays .standard freedCues (start fun _ => 0)).getD (start fun _ => 0)

theorem freed_reached : Reaches .standard (.upTo spanBytes) (start fun _ => 0) freed :=
  plays_reaches freedCues (by simp [freedCues,firstCall,Cue.May,Usage.upTo,show 262144 ≤ spanBytes by decide])
    (fun _ _ => trivial)
    (plays_getD (by decide +kernel) _)

/-- Thread 1 gets the block again. -/
theorem allocates_alone_freed : ∃ N, Amid .standard (.upTo spanBytes) 1 (freed.calledAlloc .standard 1 262144) 2 N ∧
    N.stage 1 = .within (.alloc 262144) (.ret (.block (2 ^ 31))) := by
  obtain ⟨N,played⟩ := Option.isSome_iff_exists.mp (show (plays .standard (List.replicate 2 (.turn 1 []))
    (freed.calledAlloc .standard 1 262144)).isSome = true by decide +kernel)
  have amid : Amid .standard (.upTo spanBytes) 1 (freed.calledAlloc .standard 1 262144) 2 N :=
    plays_amid (fun _ _ => trivial) played
  obtain ⟨p,stage,now⟩ := allocates_alone .standard (.inl rfl) freed_reached (Stage.of_idle (by decide +kernel)) (by decide)
    (by decide +kernel) amid
  obtain ⟨_,rfl,_⟩ := now.resolve_left (fun early => absurd early.1 (by omega))
  have first : (freed.ownList 1 (SizeClass.index Build.standard.midAlignShift 262144)).head = 2 ^ 31 := by decide +kernel
  exact ⟨N,amid,first ▸ stage⟩

/-! ### Deallocation -/

/-- Thread `t`, which had the lists `x`, has made `n` accesses of a free of `ptr`, an object
    of `bytes` bytes, on its list, and has not pushed it. -/
structure Unpushed (b : Build) (t ptr bytes : Nat) (x : Nat × (Nat → FreeList)) (n : Nat) (g : Stock) (N : Program)
    (pt : Point) : Prop where
  point : Pushing ptr bytes x.1 n pt
  stage : N.stage t = .within (.free ptr) (pt.code b t)
  holds : Holds b g N.world t pt
  here : g.place ptr = .transit t
  owned : ∃ S, g.Owns S ptr bytes
  own : ownPart t N.world = x

/-- It has pushed it, with its sixth access. -/
structure Pushed (b : Build) (t ptr bytes : Nat) (x : Nat × (Nat → FreeList)) (n : Nat) (N : Program) : Prop where
  count : n = 6
  stage : N.stage t = .within (.free ptr) (.ret .freed)
  head : (N.ownList t (SizeClass.index b.midAlignShift bytes)).head = ptr
  size : (N.ownList t (SizeClass.index b.midAlignShift bytes)).size = (x.2 (SizeClass.index b.midAlignShift bytes)).size + 1

/-- The thread has gone from one point of its call to another with a read. -/
theorem Agrees.reads {call : Call} {pt pt' : Point} (agrees : Agrees b short g l N)
    (running : N.stage t = .within call (pt.code b t)) (same : pt'.call = call) (holds : Holds b g N.world t pt') :
    Agrees b short g l (N.goOn t call (pt'.code b t,N.world)) :=
  agrees.put (s := .within call (pt'.code b t)) agrees.books agrees.tidy (.refl t g _) ⟨pt',same,rfl,holds⟩
    (fun call' code equal => by cases equal; exact agrees.modest t call _ running) agrees.sized

section
variable {bytes : Nat} {pt : Point}

theorem Unpushed.kept {g' : Stock} {l' : Ledger} {N' : Program} {v : Nat} (unpushed : Unpushed b t ptr bytes x n g N pt)
    (ne : v ≠ t) (agrees : Agrees b short g l N) (agrees' : Agrees b short g' l' N') (kept : Kept v g N.world g' N'.world)
    (still : N'.stage t = N.stage t) : Unpushed b t ptr bytes x n g' N' pt where
  point := unpushed.point
  stage := still.trans unpushed.stage
  holds := unpushed.holds.kept agrees.books agrees'.books kept ne.symm
  here := (kept.leaves.transit ne.symm ptr).mpr unpushed.here
  owned := unpushed.owned.imp (fun _ owns => kept.leaves.owns ne.symm unpushed.here owns)
  own := (kept.ownPart agrees.books agrees'.books ne.symm).trans unpushed.own

theorem Pushed.congr {N' : Program} (pushed : Pushed b t ptr bytes x n N) (stage : N'.stage t = N.stage t)
    (own : ownPart t N'.world = ownPart t N.world) : Pushed b t ptr bytes x n N' := by
  have list : ∀ i, N'.ownList t i = N.ownList t i := fun i => congrFun (congrArg Prod.snd own) i
  exact ⟨pushed.count,stage.trans pushed.stage,by rw [list]; exact pushed.head,by rw [list]; exact pushed.size⟩

/-- What the list is like on which a small object is pushed. -/
structure Room (b : Build) (bytes : Nat) (x : Nat × (Nat → FreeList)) : Prop where
  small : bytes ≤ maxBytes
  made : x.1 ≠ 0
  room : (x.2 (SizeClass.index b.midAlignShift bytes)).size + 1 < (x.2 (SizeClass.index b.midAlignShift bytes)).maxSize

/-- What comes next is an access to the state: a read up to the fifth, the push as the sixth. -/
theorem Unpushed.access (unpushed : Unpushed b t ptr bytes x n g N pt) (room : Room b bytes x) (agrees : Agrees b short g l N) :
    (n < 5 ∧ ∃ pt', Pushing ptr bytes x.1 (n + 1) pt' ∧ Reads b t N.world pt pt' ∧ Holds b g N.world t pt') ∨
      n = 5 ∧ ∃ f k, pt.code b t = .act f k ∧ k N.world = .ret .freed ∧
        ∃ m l', f N.world = N.world.withList x.1 (SizeClass.index b.midAlignShift bytes) m l' ∧ l'.head = ptr ∧
          l'.size = (x.2 (SizeClass.index b.midAlignShift bytes)).size + 1 := by
  obtain ⟨point,_,holds,here,owned,rfl⟩ := unpushed
  by_cases few : n < 5
  · exact .inl ⟨few,point.reads few agrees.books holds room.small owned room.made⟩
  · match n, few with
    | 5, _ =>
      cases point
      have some_ := (agrees.books.ne_zero (x := ptr) (by rw [here]; simp)).1
      exact .inr ⟨rfl,pushes_access room.small some_ room.room⟩
    | n+6, _ => exact point.elim

theorem Unpushed.turn {call : Call} {p p' : Code World Outcome} {w' : World} (unpushed : Unpushed b t ptr bytes x n g N pt)
    (room : Room b bytes x) (agrees : Agrees b short g l N) (fair : u.Fair b short) (running : N.stage t = .within call p)
    (may : u.goes p N.world) (run : Section answers p N.world p' w') :
    ∃ g' l', Agrees b short g' l' (N.goOn t call (p',w')) ∧
      ((∃ pt', Unpushed b t ptr bytes x (n + 1) g' (N.goOn t call (p',w')) pt') ∨
        Pushed b t ptr bytes x (n + 1) (N.goOn t call (p',w'))) := by
  cases running.symm.trans unpushed.stage
  rcases unpushed.access room agrees with ⟨_,pt',point,reads,holds⟩ | ⟨rfl,f,k,code,next,m,l',after,head,size⟩
  · obtain ⟨rfl,rfl⟩ := reads.section run
    exact ⟨g,l,agrees.reads running (Pushing.call point) holds,.inl ⟨pt',point,Function.update_self ..,holds,unpushed.here,
      unpushed.owned,unpushed.own⟩⟩
  · obtain ⟨g',l₂,_,_,_,_,_,_,agrees'⟩ := agrees.turn fair running may run
    rw [code] at run
    obtain ⟨rfl,rfl⟩ := run.of_act
    have list : (N.goOn t (.free ptr) (k N.world,f N.world)).ownList t (SizeClass.index b.midAlignShift bytes) = l' := by
      have tls : N.world.tlsThreadCache t = x.1 := congrArg Prod.fst unpushed.own
      simp only [ownList,goOn,after,withList,tls,Function.update_self]
    refine ⟨g',l₂,agrees',.inr ⟨rfl,by rw [goOn,put,next]; exact Function.update_self ..,?_,?_⟩⟩
    · rw [list]; exact head
    · rw [list]; exact size

end

/-- Thread `t` has called `ConcurrentFree(ptr)` for a live block that was asked for with `size`. -/
def calledFree (b : Build) (M : Program) (t ptr size : Nat) : Program :=
  { M.put t (.within (.free ptr) ((Call.free ptr).code b t)) with live := M.live.erase (ptr,size) }

/-- A list with room for an object is that of a thread cache. -/
theorem Agrees.roomy (agrees : Agrees b short g l M) {i : Nat} (room : (M.ownList t i).size + 1 < (M.ownList t i).maxSize) :
    M.world.tlsThreadCache t ≠ 0 := by
  intro none
  rcases agrees.books.caches.manned 0 with empty | ⟨_,_,other⟩
  · rw [ownList,none,empty] at room
    exact Nat.lt_irrefl 1 room
  · exact absurd rfl other

/-- The thread is on its way to its own list, or has pushed the block, whatever the others
    do meanwhile. -/
theorem Amid.pushing (amid : Amid b u t (M.calledFree b t ptr size) n N) (usage : u = .upTo spanBytes ∨ u = .quiet b)
    (reached : Reaches b u (start mem) M) (outside : M.stage t = .outside) (live : (ptr,size) ∈ M.live)
    (small : size ≤ maxBytes) (room : (M.ownList t (SizeClass.index b.midAlignShift size)).size + 1 <
      (M.ownList t (SizeClass.index b.midAlignShift size)).maxSize) :
    Room b (SizeClass.roundUp b.midAlignShift size) (ownPart t M.world) ∧ ∃ short g l, Agrees b short g l N ∧
      ((∃ pt, Unpushed b t ptr (SizeClass.roundUp b.midAlignShift size) (ownPart t M.world) n g N pt) ∨
        Pushed b t ptr (SizeClass.roundUp b.midAlignShift size) (ownPart t M.world) n N) := by
  obtain ⟨short,fair⟩ := fair_of usage
  obtain ⟨g,l,agrees⟩ := reached.agrees fair
  have made := agrees.roomy room
  have class_ := SizeClass.index_roundUp b.coarse small
  have fits : Room b (SizeClass.roundUp b.midAlignShift size) (ownPart t M.world) := by
    refine ⟨(SizeClass.le_roundUp b.coarse small).2,made,?_⟩
    rw [class_]
    exact room
  obtain ⟨g',begun,_,holds,here,owned⟩ := agrees.takes_back outside live
  obtain ⟨g,l,agrees',done⟩ := amid.along
    (I := fun n g N => (∃ pt, Unpushed b t ptr (SizeClass.roundUp b.midAlignShift size) (ownPart t M.world) n g N pt) ∨
      Pushed b t ptr (SizeClass.roundUp b.midAlignShift size) (ownPart t M.world) n N) fair
    ⟨g',l,begun,.inl ⟨_,rfl,Function.update_self ..,holds,here,owned,rfl⟩⟩
    (fun ne agrees agrees' kept still now => now.imp
      (fun ⟨pt,unpushed⟩ => ⟨pt,unpushed.kept ne agrees agrees' kept still⟩)
      (fun pushed => pushed.congr still (kept.ownPart agrees.books agrees'.books ne.symm)))
    (fun {n g l N call p p' w'} agrees running may run now => by
      rcases now with ⟨pt,unpushed⟩ | pushed
      · exact unpushed.turn fits agrees fair running may run
      · cases running.symm.trans pushed.stage
        obtain ⟨_,moves⟩ := Within.begins run
        cases moves)
  exact ⟨fits,short,g,l,agrees',done⟩

/-- `ConcurrentFree` of a small block whose class has room on the thread's list makes six
    accesses to the state, the last of them the push on the list, whatever the others do
    meanwhile. There is nothing else before it returns: it waits for no mutex, and asks
    the system for nothing. -/
theorem frees_alone (b : Build) (usage : u = .upTo spanBytes ∨ u = .quiet b) (reached : Reaches b u (start mem) M)
    (outside : M.stage t = .outside) (live : (ptr,size) ∈ M.live) (small : size ≤ maxBytes)
    (room : (M.ownList t (SizeClass.index b.midAlignShift size)).size + 1 <
      (M.ownList t (SizeClass.index b.midAlignShift size)).maxSize)
    (amid : Amid b u t (M.calledFree b t ptr size) n N) :
    ∃ p, N.stage t = .within (.free ptr) p ∧
      (n < 6 ∧ (∃ f k, p = .act f k) ∨
        n = 6 ∧ p = .ret .freed ∧ (N.ownList t (SizeClass.index b.midAlignShift size)).head = ptr ∧
          (N.ownList t (SizeClass.index b.midAlignShift size)).size =
            (M.ownList t (SizeClass.index b.midAlignShift size)).size + 1) := by
  obtain ⟨fits,short,g,l,agrees',done⟩ := amid.pushing usage reached outside live small room
  rcases done with ⟨pt,unpushed⟩ | pushed
  · refine ⟨_,unpushed.stage,.inl ?_⟩
    rcases unpushed.access fits agrees' with ⟨few,_,_,⟨f,k,code,_⟩,_⟩ | ⟨rfl,f,k,code,_⟩
    · exact ⟨by omega,f,k,code⟩
    · exact ⟨by omega,f,k,code⟩
  · obtain ⟨rfl,stage,head,more⟩ := pushed
    rw [SizeClass.index_roundUp b.coarse small] at head more
    exact ⟨_,stage,.inr ⟨rfl,rfl,head,more⟩⟩

/-- Thread 1 frees its first block. -/
theorem frees_alone_served : ∃ N, Amid .standard (.upTo spanBytes) 1 (served.calledFree .standard 1 (2 ^ 31) 262144) 6 N ∧
    N.stage 1 = .within (.free (2 ^ 31)) (.ret .freed) ∧ (N.ownList 1 207).head = 2 ^ 31 := by
  obtain ⟨N,played⟩ := Option.isSome_iff_exists.mp (show (plays .standard (List.replicate 6 (.turn 1 []))
    (served.calledFree .standard 1 (2 ^ 31) 262144)).isSome = true by decide +kernel)
  have amid : Amid .standard (.upTo spanBytes) 1 (served.calledFree .standard 1 (2 ^ 31) 262144) 6 N :=
    plays_amid (fun _ _ => trivial) played
  obtain ⟨p,stage,now⟩ := frees_alone .standard (.inl rfl) (served_reached (by decide)) (Stage.of_idle (by decide +kernel))
    (by rw [served_live]; exact List.mem_cons_of_mem _ (List.mem_singleton_self _)) (by decide) (by decide +kernel) amid
  obtain ⟨_,rfl,head,_⟩ := now.resolve_left (fun early => absurd early.1 (by omega))
  exact ⟨N,amid,stage,head⟩

/-! ### One after the other -/

/-- The block that a thread has freed on its own list is the one that it gets with its next
    call for a block of the class, whatever the others do during the two calls and
    between them. -/
theorem freed_block_returns (b : Build) (usage : u = .upTo spanBytes ∨ u = .quiet b) (reached : Reaches b u (start mem) M)
    (outside : M.stage t = .outside) (live : (ptr,size) ∈ M.live) (small : size ≤ maxBytes)
    (room : (M.ownList t (SizeClass.index b.midAlignShift size)).size + 1 <
      (M.ownList t (SizeClass.index b.midAlignShift size)).maxSize)
    {N N' P : Program} {size' : Nat} (freeing : Amid b u t (M.calledFree b t ptr size) 6 N)
    (between : Amid b u t (N.put t .outside) 0 N') (small' : size' ≤ maxBytes)
    (alike : SizeClass.index b.midAlignShift size' = SizeClass.index b.midAlignShift size)
    (allocating : Amid b u t (N'.calledAlloc b t size') 2 P) :
    P.stage t = .within (.alloc size') (.ret (.block ptr)) := by
  obtain ⟨fits,short,g,l,agrees,done⟩ := freeing.pushing usage reached outside live small room
  obtain ⟨_,stage,head,more⟩ := done.resolve_left (fun ⟨pt,unpushed⟩ => by
    rcases unpushed.access fits agrees with early | early <;> exact absurd early.1 (by omega))
  rw [SizeClass.index_roundUp b.coarse small] at head more
  have more : (N.ownList t (SizeClass.index b.midAlignShift size)).size =
      (M.ownList t (SizeClass.index b.midAlignShift size)).size + 1 := more
  have may : u.calls (.free ptr) := by rcases usage with rfl | rfl <;> trivial
  have ended : Reaches b u (start mem) (N.put t .outside) :=
    ((reached.tail (.act (.free outside live may))).trans freeing.reaches).tail (.act (.freed stage))
  obtain ⟨short,fair⟩ := fair_of usage
  obtain ⟨g,l,agrees⟩ := ended.agrees fair
  obtain ⟨still,own⟩ := between.still fair agrees
  have list : ∀ i, N'.ownList t i = N.ownList t i := fun i => congrFun (congrArg Prod.snd own) i
  obtain ⟨_,_,stage',_⟩ := allocating.popping usage (ended.trans between.reaches)
    (still.trans (Function.update_self ..)) small' (by rw [alike,list,more]; omega)
  have same : (N'.ownList t (SizeClass.index b.midAlignShift size')).head = ptr := by rw [alike,list,head]
  rw [← same]
  exact stage'

/-- Thread 1 frees its first block and asks for one of the same size. -/
theorem freed_block_returns_served : ∃ N P, Amid .standard (.upTo spanBytes) 1
      (served.calledFree .standard 1 (2 ^ 31) 262144) 6 N ∧
    Amid .standard (.upTo spanBytes) 1 ((N.put 1 .outside).calledAlloc .standard 1 262144) 2 P ∧
    P.stage 1 = .within (.alloc 262144) (.ret (.block (2 ^ 31))) := by
  obtain ⟨N,first⟩ := Option.isSome_iff_exists.mp (show (plays .standard (List.replicate 6 (.turn 1 []))
    (served.calledFree .standard 1 (2 ^ 31) 262144)).isSome = true by decide +kernel)
  obtain ⟨P,second⟩ := Option.isSome_iff_exists.mp (show ((plays .standard (List.replicate 6 (.turn 1 []))
    (served.calledFree .standard 1 (2 ^ 31) 262144)).bind (fun N => plays .standard (List.replicate 2 (.turn 1 []))
      ((N.put 1 .outside).calledAlloc .standard 1 262144))).isSome = true by decide +kernel)
  rw [first,Option.bind_some] at second
  have freeing : Amid .standard (.upTo spanBytes) 1 (served.calledFree .standard 1 (2 ^ 31) 262144) 6 N :=
    plays_amid (fun _ _ => trivial) first
  have allocating : Amid .standard (.upTo spanBytes) 1 ((N.put 1 .outside).calledAlloc .standard 1 262144) 2 P :=
    plays_amid (fun _ _ => trivial) second
  exact ⟨N,P,freeing,allocating,freed_block_returns .standard (.inl rfl) (served_reached (by decide))
    (Stage.of_idle (by decide +kernel)) (by rw [served_live]; exact List.mem_cons_of_mem _ (List.mem_singleton_self _))
    (by decide) (by decide +kernel) freeing .refl (by decide) rfl allocating⟩

end
end Program
end World
end TcAlloc
