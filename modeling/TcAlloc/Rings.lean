import Mathlib.Data.List.Nodup
import Mathlib.Logic.Function.Basic

/-!
Circular doubly linked lists over any nodes. Two functions give the links of the
nodes in both directions; a list of nodes is linked if consecutive ones point to
each other (`Links`), and a ring is linked from its sentinel around to it (`Ring`).
A ring survives changes of links that it does not use (`Ring.frame`), and the
two edits, one node in (`Ring.insert`) and one node out (`Ring.remove`), are stated
by what the links are afterwards, so any code that brings them about will do.
-/
namespace TcAlloc

variable {α : Type} {next next' prev prev' : α → α} {h p q x y : α} {l A B : List α}

/-- Consecutive nodes point to each other. -/
def Links (next prev : α → α) : List α → Prop
  | x :: y :: l => next x = y ∧ prev y = x ∧ Links next prev (y :: l)
  | _ => True

theorem links_append : Links next prev (A ++ x :: B) ↔ Links next prev (A ++ [x]) ∧ Links next prev (x :: B) := by
  induction A with
  | nil => simp [Links]
  | cons a A ih =>
    cases A with
    | nil => simp [Links,and_assoc]
    | cons a' A =>
      simp only [List.cons_append,Links] at ih ⊢
      rw [ih]
      simp only [and_assoc]

theorem Links.tail (links : Links next prev (x :: l)) : Links next prev l := by
  cases l with
  | nil => trivial
  | cons y l => exact links.2.2

/-- Only the links out of a node that has a successor, and those into one that has a
    predecessor, matter. -/
theorem Links.frame (links : Links next prev l) (ahead : ∀ x ∈ l.dropLast, next' x = next x)
    (back : ∀ x ∈ l.tail, prev' x = prev x) :
    Links next' prev' l := by
  induction l with
  | nil => trivial
  | cons a l ih =>
    cases l with
    | nil => trivial
    | cons y l =>
      obtain ⟨first,second,rest⟩ := links
      refine ⟨?_,?_,ih rest (fun x mem => ahead x ?_) (fun x mem => back x ?_)⟩
      · rw [ahead a (by simp)]; exact first
      · rw [back y (by simp)]; exact second
      · rw [List.dropLast_cons_cons]; exact List.mem_cons_of_mem a mem
      · exact List.mem_of_mem_tail mem

/-- Around the sentinel `h` with the members `l`. -/
structure Ring (next prev : α → α) (h : α) (l : List α) : Prop where
  links : Links next prev (h :: (l ++ [h]))
  nodup : (h :: l).Nodup

namespace Ring

theorem empty (ahead : next h = h) (back : prev h = h) : Ring next prev h [] := ⟨⟨ahead,back,trivial⟩,List.nodup_singleton h⟩

theorem frame (ring : Ring next prev h l) (ahead : ∀ x ∈ h :: l, next' x = next x) (back : ∀ x ∈ h :: l, prev' x = prev x) :
    Ring next' prev' h l := by
  refine ⟨ring.links.frame (fun x mem => ahead x ?_) (fun x mem => back x ?_),ring.nodup⟩
  · rwa [← List.cons_append,List.dropLast_concat] at mem
  · simp only [List.tail_cons,List.mem_append,List.mem_singleton] at mem
    rw [List.mem_cons]
    exact mem.symm

/-- Where two parts of a ring meet: the last node of the first part and the first
    node of the second, with the parts before and after them. -/
theorem seam (ring : Ring next prev h (A ++ B)) : ∃ q p A' B', h :: A = A' ++ [q] ∧ B ++ [h] = p :: B' ∧
    Links next prev (A' ++ [q]) ∧ Links next prev (p :: B') ∧ next q = p ∧ prev p = q ∧ q ∉ A' ∧ q ∉ B ∧ p ∉ A ∧ p ∉ B' := by
  obtain ⟨A',q,front⟩ := List.eq_nil_or_concat (h :: A) |>.resolve_left (List.cons_ne_nil h A)
  obtain ⟨p,B',behind⟩ := List.exists_cons_of_ne_nil (show B ++ [h] ≠ [] by simp)
  rw [List.concat_eq_append] at front
  have whole : h :: (A ++ B ++ [h]) = A' ++ q :: p :: B' := by
    rw [List.append_assoc,behind,← List.cons_append,front]
    simp
  have links := ring.links
  rw [whole,links_append] at links
  obtain ⟨first,forth,back,second⟩ := links
  have nodup := ring.nodup
  have apart := nodup
  rw [← List.cons_append,front] at apart
  obtain ⟨nodupA,_,clear⟩ := List.nodup_append.mp apart
  have turned : (A ++ (B ++ [h])).Nodup := by
    rw [← List.append_assoc]
    exact (List.perm_append_singleton h (A ++ B)).nodup_iff.mpr nodup
  rw [behind] at turned
  obtain ⟨_,nodupB,clear'⟩ := List.nodup_append.mp turned
  refine ⟨q,p,A',B',front,behind,first,second,forth,back,fun mem => ?_,fun mem => ?_,fun mem => ?_,
    (List.nodup_cons.mp nodupB).1⟩
  · exact (List.nodup_append.mp nodupA).2.2 q mem q (List.mem_singleton_self q) rfl
  · exact clear q (by simp) q mem rfl
  · exact clear' p mem p List.mem_cons_self rfl

/-- The first node of the second part, or the sentinel. -/
def start (h : α) (B : List α) : α := (B ++ [h]).head (by simp)

/-- A node put in before the position `start h B`. -/
theorem insert (ring : Ring next prev h (A ++ B)) (fresh : x ∉ h :: (A ++ B)) (pos : p = start h B)
    (out : next' x = p) (behind : prev' x = prev p) (into : next' (prev p) = x) (back : prev' p = x)
    (ahead : ∀ y, y ≠ x → y ≠ prev p → next' y = next y) (other : ∀ y, y ≠ x → y ≠ p → prev' y = prev y) :
    Ring next' prev' h (A ++ x :: B) := by
  obtain ⟨q,p',A',B',front,after,first,second,forth,back',outA,outB,outA',outB'⟩ := ring.seam
  obtain rfl : p = p' := by rw [pos,start]; simp [after]
  rw [back'] at behind into ahead
  have inside : ∀ y, y ∈ A' ++ [q] → y ≠ x := fun y mem same =>
    fresh (by rw [← List.cons_append,front,← same]; exact List.mem_append_left B mem)
  have inside' : ∀ y, y ∈ p :: B' → y ≠ x := fun y mem same => fresh (by
    rw [← after,List.mem_append,List.mem_singleton] at mem
    rw [← same]
    rcases mem with mem | rfl
    · exact List.mem_cons_of_mem h (List.mem_append_right A mem)
    · exact List.mem_cons_self)
  constructor
  · have whole : h :: (A ++ x :: B ++ [h]) = A' ++ q :: x :: p :: B' := by
      rw [List.append_assoc,List.cons_append,after,← List.cons_append,front]
      simp
    rw [whole,links_append]
    refine ⟨first.frame (fun y mem => ?_) (fun y mem => ?_),into,behind,out,back,
      second.frame (fun y mem => ?_) (fun y mem => ?_)⟩
    · rw [List.dropLast_concat] at mem
      exact ahead y (inside y (List.mem_append_left [q] mem)) (fun same => outA (same ▸ mem))
    · rw [← front,List.tail_cons] at mem
      exact other y (inside y (by rw [← front]; exact List.mem_cons_of_mem h mem)) (fun same => outA' (same ▸ mem))
    · rw [← after,List.dropLast_concat] at mem
      exact ahead y (inside' y (by rw [← after]; exact List.mem_append_left [h] mem)) (fun same => outB (same ▸ mem))
    · exact other y (inside' y (List.mem_cons_of_mem p mem)) (fun same => outB' (same ▸ mem))
  · have perm : (x :: (h :: (A ++ B))).Perm (h :: (A ++ x :: B)) := by
      rw [← List.cons_append,← List.cons_append]
      exact List.perm_middle.symm
    exact perm.nodup_iff.mp (List.nodup_cons.mpr ⟨fresh,ring.nodup⟩)

/-- A node taken out. -/
theorem remove (ring : Ring next prev h (A ++ x :: B)) (out : next' (prev x) = next x) (back : prev' (next x) = prev x)
    (ahead : ∀ y, y ≠ x → y ≠ prev x → next' y = next y) (other : ∀ y, y ≠ x → y ≠ next x → prev' y = prev y) :
    Ring next' prev' h (A ++ B) := by
  obtain ⟨q,x',A',C,front,after,first,second,forth,into,outA,outB,outA',outC⟩ := ring.seam
  obtain ⟨rfl,rfl⟩ : x = x' ∧ B ++ [h] = C := by simpa using after
  obtain ⟨p,B',behind⟩ := List.exists_cons_of_ne_nil (show B ++ [h] ≠ [] by simp)
  rw [behind] at second outC
  obtain ⟨forth',into',rest⟩ := second
  rw [forth'] at out back other
  rw [into] at out back ahead
  have nodup : (A ++ B ++ [h]).Nodup := by
    refine (List.perm_append_singleton h (A ++ B)).nodup_iff.mpr (ring.nodup.sublist ?_)
    exact ((List.sublist_cons_self x B).append_left A).cons_cons h
  rw [List.append_assoc,behind] at nodup
  obtain ⟨_,nodupB,clear⟩ := List.nodup_append.mp nodup
  have inside : ∀ y, y ∈ A' ++ [q] → y ≠ x := fun y mem same => by
    rw [same,← front] at mem
    exact (List.nodup_append.mp (List.cons_append ▸ ring.nodup : ((h :: A) ++ x :: B).Nodup)).2.2 x
      mem x List.mem_cons_self rfl
  constructor
  · have whole : h :: (A ++ B ++ [h]) = A' ++ q :: p :: B' := by
      rw [List.append_assoc,behind,← List.cons_append,front]
      simp
    rw [whole,links_append]
    refine ⟨first.frame (fun y mem => ?_) (fun y mem => ?_),out,back,rest.frame (fun y mem => ?_) (fun y mem => ?_)⟩
    · rw [List.dropLast_concat] at mem
      exact ahead y (inside y (List.mem_append_left [q] mem)) (fun same => outA (same ▸ mem))
    · rw [← front,List.tail_cons] at mem
      exact other y (inside y (by rw [← front]; exact List.mem_cons_of_mem h mem))
        (fun same => clear y mem p List.mem_cons_self same)
    · rw [← behind,List.dropLast_concat] at mem
      refine ahead y (fun same => outC ?_) (fun same => outB ?_)
      · rw [← same,← behind]; exact List.mem_append_left [h] mem
      · rw [← same]; exact List.mem_cons_of_mem x mem
    · refine other y (fun same => outC ?_) (fun same => (List.nodup_cons.mp nodupB).1 (same ▸ mem))
      rw [← same]; exact List.mem_cons_of_mem p mem
  · exact ring.nodup.sublist (((List.sublist_cons_self x B).append_left A).cons_cons h)

/-- Every node of the ring is behind a seam. -/
theorem ahead (ring : Ring next prev h l) (mem : x ∈ h :: l) : next x ∈ h :: l ∧ prev (next x) = x := by
  obtain ⟨A,B,rfl,last⟩ : ∃ A B, l = A ++ B ∧ (h :: A).getLast? = some x := by
    rcases List.mem_cons.mp mem with rfl | mem
    · exact ⟨[],l,rfl,rfl⟩
    · obtain ⟨A,B,split⟩ := List.append_of_mem mem
      exact ⟨A ++ [x],B,by simp [split],by rw [← List.cons_append,List.getLast?_concat]⟩
  obtain ⟨q,p,A',B',front,after,_,_,forth,back,_⟩ := ring.seam
  obtain rfl : q = x := by simpa [front] using last
  rw [forth,back]
  refine ⟨?_,rfl⟩
  have here : p ∈ B ++ [h] := by rw [after]; exact List.mem_cons_self
  rw [List.mem_append,List.mem_singleton] at here
  rw [List.mem_cons,List.mem_append]
  exact here.symm.imp_right .inr

/-- And every node is in front of one. -/
theorem behind (ring : Ring next prev h l) (mem : x ∈ h :: l) : prev x ∈ h :: l ∧ next (prev x) = x := by
  obtain ⟨A,B,rfl,first⟩ : ∃ A B, l = A ++ B ∧ (B ++ [h]).head? = some x := by
    rcases List.mem_cons.mp mem with rfl | mem
    · exact ⟨l,[],by simp,rfl⟩
    · obtain ⟨A,B,split⟩ := List.append_of_mem mem
      exact ⟨A,x :: B,split,rfl⟩
  obtain ⟨q,p,A',B',front,after,_,_,forth,back,_⟩ := ring.seam
  obtain rfl : p = x := by simpa [after] using first
  rw [back,forth]
  refine ⟨?_,rfl⟩
  have here : q ∈ h :: A := by rw [front]; simp
  rw [List.mem_cons] at here
  rw [List.mem_cons,List.mem_append]
  exact here.imp_right .inl

/-- A member is not its own neighbour. -/
theorem alone (ring : Ring next prev h l) (mem : x ∈ l) : prev x ≠ x ∧ next x ≠ x := by
  have other : prev x ≠ x := by
    obtain ⟨A,B,rfl⟩ := List.append_of_mem mem
    obtain ⟨q,p,A',B',_,after,_,_,_,back,_,outB,_⟩ := ring.seam
    obtain rfl : x = p := by simpa using congrArg List.head? after
    rw [back]
    rintro rfl
    exact outB List.mem_cons_self
  refine ⟨other,fun same => other ?_⟩
  have back := (ring.ahead (List.mem_cons_of_mem h mem)).2
  rwa [same] at back

/-- What follows the sentinel. -/
theorem first (ring : Ring next prev h l) : next h = start h l := by
  obtain ⟨q,p,A',B',front,after,_,_,forth,_⟩ := Ring.seam (A := []) ring
  obtain rfl : h = q := by simpa using congrArg List.getLast? front
  rw [forth,start]
  simp [after]

end Ring
end TcAlloc
