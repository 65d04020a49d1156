import TcAlloc.Batches

/-!
`FreeList` as a stack of addresses. The list stands for the objects of a chain with
one link in each object (`Stack`); the objects have words of their own (`Objects`).
Pushing and popping, one object or a range, is pushing and popping on the stack,
and the only words written are the links of what is pushed and of the end of a range.
-/
namespace TcAlloc

/-- Objects with addresses of 64 bits, none null, each with a word of its own. -/
structure Objects (L : List Nat) : Prop where
  nodup : L.Nodup
  address : ∀ x ∈ L, x ≠ 0 ∧ x < 2 ^ 64
  spread : Spread L

/-- The links lead from `start` through the objects of `A` to `end_`. -/
inductive Path (m : Memory) : Nat → List Nat → Nat → Prop
  | last {end_ : Nat} (nonzero : end_ ≠ 0) : Path m end_ [] end_
  | next {start end_ : Nat} {A : List Nat} (nonzero : start ≠ 0) (tail : Path m (m.load start) A end_) :
      Path m start (start :: A) end_

section
variable {m m' : Memory} {start end_ head x : Nat} {A B L : List Nat}

theorem Objects.apart (objects : Objects L) {x y : Nat} (hx : x ∈ L) (hy : y ∈ L) (ne : x ≠ y) : Memory.Apart x y :=
  objects.spread x hx y hy ne

theorem Objects.sublist (objects : Objects L) (sub : A.Sublist L) : Objects A :=
  ⟨objects.nodup.sublist sub,fun x mem => objects.address x (sub.subset mem),
    fun x hx y hy => objects.spread x (sub.subset hx) y (sub.subset hy)⟩

/-- There are fewer objects than addresses. -/
theorem Objects.length_lt (objects : Objects L) : L.length < 2 ^ 64 := by
  have nodup : (0 :: L).Nodup := List.nodup_cons.mpr ⟨fun mem => (objects.address 0 mem).1 rfl,objects.nodup⟩
  have short := length_le_of_lt (n := 2 ^ 64) nodup (fun x mem => by
    rcases List.mem_cons.mp mem with rfl | old
    · decide
    · exact (objects.address x old).2)
  rw [List.length_cons] at short
  omega

theorem Objects.head_small (objects : Objects L) (chain : Chain m head L) : head < 2 ^ 64 :=
  chain.head_lt (by decide) (fun x mem => (objects.address x mem).2)

theorem Path.ends (path : Path m start A end_) : start ≠ 0 ∧ end_ ≠ 0 := by
  induction path with
  | last nonzero => exact ⟨nonzero,nonzero⟩
  | next nonzero _ ih => exact ⟨nonzero,ih.2⟩

/-- A path with a chain tied to its end. -/
theorem Path.tie (path : Path m start A end_) (small : head < 2 ^ 64) (clear : ∀ x ∈ A, Memory.Apart end_ x)
    (rest : Chain (m.store end_ head) head B) : Chain (m.store end_ head) start (A ++ end_ :: B) := by
  induction path with
  | last nonzero =>
    refine .cons nonzero ?_
    rw [Memory.load_store m _ small]
    exact rest
  | @next start end_ A nonzero tail ih =>
    refine .cons nonzero ?_
    rw [Memory.load_store_apart m head (clear start List.mem_cons_self)]
    exact ih (fun x mem => clear x (List.mem_cons_of_mem start mem)) rest

end

namespace FreeList

/-- The list stands for the stack `L`. -/
structure Stack (m : Memory) (l : FreeList) (L : List Nat) : Prop where
  chain : Chain m l.head L
  size : l.size = L.length

/-- An operation that wrote the words of `Q` only has left the stack `L`. -/
structure Leaves (Q : Nat → Prop) (m : Memory) (l : FreeList) (m' : Memory) (l' : FreeList) (L : List Nat) : Prop where
  stack : Stack m' l' L
  written : Written Q m m'
  maxSize : l'.maxSize = l.maxSize

section
variable {m : Memory} {l : FreeList} {L : List Nat}

theorem push_stack (stack : Stack m l L) {o : Nat} (objects : Objects (o :: L)) :
    ∃ m' l', push o m l = .ok ((),m',l') ∧ Leaves (· = o) m l m' l' (o :: L) := by
  have nonzero := (objects.address o List.mem_cons_self).1
  refine ⟨m.store o l.head,{ l with head := o, size := l.size + 1 },by rw [push,if_neg nonzero],
    ⟨?_,?_⟩,Written.store _ rfl,rfl⟩
  · apply stack.chain.push nonzero
    · exact (objects.sublist (List.sublist_cons_self o L)).head_small stack.chain
    · intro x mem
      apply objects.apart List.mem_cons_self (List.mem_cons_of_mem o mem)
      rintro rfl
      exact (List.nodup_cons.mp objects.nodup).1 mem
  · exact congrArg (· + 1) stack.size

theorem pop_stack {o : Nat} (stack : Stack m l (o :: L)) (objects : Objects (o :: L)) :
    ∃ l', pop m l = .ok (o,m,l') ∧ Leaves (fun _ => False) m l m l' L := by
  obtain ⟨head,nonzero,tail⟩ := Chain.cons_iff.mp stack.chain
  have long := objects.length_lt
  refine ⟨{ l with head := m.load o, size := minus l.size 1 },by rw [pop,head,if_neg nonzero],⟨tail,?_⟩,.refl _ _,rfl⟩
  have size := stack.size
  rw [List.length_cons] at size long
  show minus l.size 1 = L.length
  rw [minus_pred (by omega) (by omega)]
  omega

theorem pushRange_stack (stack : Stack m l L) {A : List Nat} {start end_ : Nat} (path : Path m start A end_)
    (objects : Objects (A ++ end_ :: L)) : ∃ m' l', pushRange start end_ (A ++ [end_]).length m l = .ok ((),m',l') ∧
      Leaves (· = end_) m l m' l' (A ++ end_ :: L) ∧ l'.head = start := by
  obtain ⟨_,later,apart⟩ := List.nodup_append.mp objects.nodup
  have below := objects.sublist ((List.sublist_cons_self end_ L).trans (List.sublist_append_right A (end_ :: L)))
  refine ⟨m.store end_ l.head,{ l with head := start, size := l.size + (A ++ [end_]).length },
    by rw [pushRange,if_neg (by simp [path.ends])],⟨⟨?_,?_⟩,Written.store _ rfl,rfl⟩,rfl⟩
  · apply path.tie (below.head_small stack.chain)
    · intro x mem
      apply objects.apart (by simp) (by simp [mem])
      exact fun same => apart x mem end_ List.mem_cons_self same.symm
    · apply stack.chain.store_apart
      intro x mem
      apply objects.apart (by simp) (by simp [mem])
      rintro rfl
      exact (List.nodup_cons.mp later).1 mem
  · show l.size + _ = _
    rw [stack.size]
    simp only [List.length_append,List.length_cons,List.length_nil]
    omega

theorem popRange_stack {n : Nat} (stack : Stack m l L) (objects : Objects L) (some : 0 < n) (enough : n ≤ l.size) :
    ∃ A last B m' l', L = A ++ last :: B ∧ (A ++ [last]).length = n ∧ popRange n m l = .ok ((l.head,last),m',l') ∧
      Chain m' l.head (A ++ [last]) ∧ Leaves (· = last) m l m' l' B := by
  have size := stack.size
  obtain ⟨A,last,B,rfl,length,walk⟩ := World.follow_spec (n := n - 1) stack.chain (by omega)
  obtain ⟨first,rest⟩ := stack.chain.cut objects.nodup objects.spread
  have nonzero := stack.chain.after.1
  have long := objects.length_lt
  rw [List.length_append,List.length_cons] at size long
  refine ⟨A,last,B,m.store last 0,{ l with head := m.load last, size := minus l.size n },rfl,?_,?_,first,
    ⟨rest,?_⟩,Written.store 0 rfl,rfl⟩
  · rw [List.length_append,List.length_singleton]; omega
  · rw [popRange,if_neg (by omega),walk]
    simp only [if_neg nonzero]
  · show minus l.size n = B.length
    rw [minus_pred (by omega) (by omega)]
    omega

/-- `FreeList` refines a stack of addresses: `Push` and `Pop` are those of the stack,
    `PushRange` pushes a batch that is linked in its order, `PopRange` takes the first
    `n` objects as a chain of their own, and undoes a `PushRange` of as many. -/
theorem refines_stack (m : Memory) (l : FreeList) (L : List Nat) (stack : Stack m l L) (objects : Objects L) :
    (∀ o, Objects (o :: L) → ∃ m' l', push o m l = .ok ((),m',l') ∧ Leaves (· = o) m l m' l' (o :: L)) ∧
    (∀ o rest, L = o :: rest → ∃ l', pop m l = .ok (o,m,l') ∧ Leaves (fun _ => False) m l m l' rest) ∧
    (∀ A start end_, Path m start A end_ → Objects (A ++ end_ :: L) → ∃ m' l',
      pushRange start end_ (A ++ [end_]).length m l = .ok ((),m',l') ∧ Leaves (· = end_) m l m' l' (A ++ end_ :: L) ∧
      ∃ m'' l'', popRange (A ++ [end_]).length m' l' = .ok ((start,end_),m'',l'') ∧ Chain m'' start (A ++ [end_]) ∧
        Leaves (· = end_) m' l' m'' l'' L) ∧
    ∀ n, 0 < n → n ≤ l.size → ∃ A last B m' l', L = A ++ last :: B ∧ A ++ [last] = L.take n ∧ B = L.drop n ∧
      popRange n m l = .ok ((l.head,last),m',l') ∧ Chain m' l.head (L.take n) ∧ Leaves (· = last) m l m' l' (L.drop n) := by
  refine ⟨fun o more => push_stack stack more,fun o rest same => ?_,fun A start end_ path more => ?_,fun n some enough => ?_⟩
  · subst same
    exact pop_stack stack objects
  · obtain ⟨m',l',pushed,left,head⟩ := pushRange_stack stack path more
    have size := left.stack.size
    rw [show A ++ end_ :: L = (A ++ [end_]) ++ L by simp,List.length_append] at size
    refine ⟨m',l',pushed,left,?_⟩
    obtain ⟨A',last,B,m'',l'',split,length,popped,chain,left'⟩ := popRange_stack (n := (A ++ [end_]).length)
      left.stack more (by simp) (by omega)
    -- The list is cut where the range ends.
    have cut : A ++ [end_] = A' ++ [last] ∧ L = B := by
      apply List.append_inj _ length.symm
      simpa using split
    obtain ⟨range,rfl⟩ := cut
    obtain rfl : end_ = last := List.singleton_inj.mp (List.append_inj_right' range rfl)
    rw [head] at popped chain
    rw [← range] at chain
    exact ⟨m'',l'',popped,chain,left'⟩
  · obtain ⟨A,last,B,m',l',split,length,popped,chain,left⟩ := popRange_stack stack objects some enough
    have first : A ++ [last] = L.take n := by
      rw [split,← length,show A ++ last :: B = (A ++ [last]) ++ B by simp,List.take_left]
    have rest : B = L.drop n := by
      rw [split,← length,show A ++ last :: B = (A ++ [last]) ++ B by simp,List.drop_left]
    exact ⟨A,last,B,m',l',split,first,rest,popped,first ▸ chain,rest ▸ left⟩

/-- Two objects, of which the first one is taken. -/
theorem refines_stack_two : ∃ m' l', popRange 1 (Memory.store (fun _ => 0) 16 8)
    { head := 16, size := 2 } = .ok ((16,16),m',l') ∧
    Chain m' 16 [16] ∧ Stack m' l' [8] := by
  have chain : Chain (Memory.store (fun _ => 0) 16 8) 16 [16,8] := .cons (by decide) (.cons (by decide) .nil)
  have objects : Objects [16,8] := ⟨by decide,by decide,by unfold Spread Memory.Apart; decide⟩
  obtain ⟨_,_,_,takes⟩ := refines_stack _ { head := 16, size := 2 } _ ⟨chain,rfl⟩ objects
  obtain ⟨A,last,B,m',l',split,first,rest,popped,links,left⟩ := takes 1 (by decide) (by decide)
  obtain rfl : last = 16 := by simpa using congrArg List.getLast? first
  exact ⟨m',l',popped,links,left.stack⟩

/-! ### Runs -/

/-- The lists that a run leads to, with the stack each of them stands for. Between two
    calls, anything but the links of the listed objects may be written. -/
inductive Reaches : Memory → FreeList → List Nat → Prop
  | start (m : Memory) : Reaches m {} []
  | push {m m' : Memory} {l l' : FreeList} {L : List Nat} {o : Nat} (before : Reaches m l L) (legal : Objects (o :: L))
      (result : FreeList.push o m l = .ok ((),m',l')) : Reaches m' l' (o :: L)
  | pop {m m' : Memory} {l l' : FreeList} {L : List Nat} {o x : Nat} (before : Reaches m l (x :: L))
      (result : FreeList.pop m l = .ok (o,m',l')) : Reaches m' l' L
  | pushRange {m m' : Memory} {l l' : FreeList} {L A : List Nat} {start end_ : Nat} (before : Reaches m l L)
      (path : Path m start A end_)
      (legal : Objects (A ++ end_ :: L)) (result : FreeList.pushRange start end_ (A ++ [end_]).length m l = .ok ((),m',l')) :
      Reaches m' l' (A ++ end_ :: L)
  | popRange {m m' : Memory} {l l' : FreeList} {L : List Nat} {n : Nat} {range : Nat × Nat}
      (before : Reaches m l L) (some : 0 < n)
      (enough : n ≤ L.length) (result : FreeList.popRange n m l = .ok (range,m',l')) : Reaches m' l' (L.drop n)
  | write {m m' : Memory} {l : FreeList} {L : List Nat} (before : Reaches m l L)
      (others : ∀ x ∈ L, m'.load x = m.load x) : Reaches m' l L

/-- Every list of a run stands for its stack. -/
theorem Reaches.stack (reached : Reaches m l L) : Stack m l L ∧ Objects L := by
  induction reached with
  | start m => exact ⟨⟨.nil,rfl⟩,⟨List.nodup_nil,by simp,by simp [Spread]⟩⟩
  | push before legal result ih =>
    obtain ⟨_,_,runs,left⟩ := push_stack ih.1 legal
    rw [runs] at result
    cases result
    exact ⟨left.stack,legal⟩
  | pop before result ih =>
    obtain ⟨_,runs,left⟩ := pop_stack ih.1 ih.2
    rw [runs] at result
    cases result
    exact ⟨left.stack,ih.2.sublist (List.sublist_cons_self _ _)⟩
  | pushRange before path legal result ih =>
    obtain ⟨_,_,runs,left,_⟩ := pushRange_stack ih.1 path legal
    rw [runs] at result
    cases result
    exact ⟨left.stack,legal⟩
  | @popRange _ _ _ _ L n _ before some enough result ih =>
    obtain ⟨A,last,B,_,_,split,length,runs,_,left⟩ := popRange_stack ih.1 ih.2 some (by rw [ih.1.size]; exact enough)
    rw [runs] at result
    cases result
    have rest : L.drop n = B := by
      rw [split,← length,show A ++ last :: B = (A ++ [last]) ++ B by simp,List.drop_left]
    exact ⟨rest ▸ left.stack,ih.2.sublist (List.drop_sublist n L)⟩
  | write before others ih => exact ⟨⟨ih.1.chain.congr others,ih.1.size⟩,ih.2⟩

end
end FreeList
end TcAlloc
