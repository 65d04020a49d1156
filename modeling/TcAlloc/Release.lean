import TcAlloc.NewSpan
import Mathlib.Logic.Relation

/-!
What `ReleaseSpanToPageCache` does. Its two loops follow the page map from the
pages next to the span. Entries are never cleared, so the page of a span that was
returned to the system may still lead to a descriptor, and that descriptor may
have become one of a free span elsewhere (`Misleading`). Where the loops look at
no such page (`Quiet`), they absorb exactly the free spans next to the span.
-/
namespace TcAlloc
namespace Pages

/-! ### Where the loops look -/

/-- A page with an entry that no span in use keeps for it. -/
def Stale (w : Pages) (q : Nat) : Prop := w.entry q ≠ 0 ∧ ∀ S ∈ w.spanPool.live, q ∉ (w.spans S).keys
/-- A stale entry that reads as a free span short enough to be merged with `n` pages. -/
def Misleading (w : Pages) (q n : Nat) : Prop :=
  w.Stale q ∧ (w.spans (w.entry q)).isUse = false ∧ n + (w.spans (w.entry q)).n ≤ npages - 1

/-- A free span right before the pages `a`, and the pages with it. -/
def LeftStep (w : Pages) (a b : Nat × Nat) : Prop :=
  ∃ T ∈ w.spanPool.live, (w.spans T).isUse = false ∧ (w.spans T).pageId + (w.spans T).n = a.1 ∧
    a.2 + (w.spans T).n ≤ npages - 1 ∧ b = ((w.spans T).pageId,a.2 + (w.spans T).n)
/-- A free span right after them. -/
def RightStep (w : Pages) (a b : Nat × Nat) : Prop :=
  ∃ T ∈ w.spanPool.live, (w.spans T).isUse = false ∧ (w.spans T).pageId = a.1 + a.2 ∧
    a.2 + (w.spans T).n ≤ npages - 1 ∧ b = (a.1,a.2 + (w.spans T).n)

/-- Growing to the left over free spans from the span `S`. -/
def LeftRun (w : Pages) (S : Nat) : Nat × Nat → Prop :=
  Relation.ReflTransGen w.LeftStep ((w.spans S).pageId,(w.spans S).n)

/-- No page that the loops look at for `S` carries a misleading entry: neither
    on the way to the left, nor, from where that way ends, on the way to the right. -/
structure Quiet (w : Pages) (S : Nat) : Prop where
  left : ∀ a, w.LeftRun S a → ¬ w.Misleading (a.1 - 1) a.2
  right : ∀ a b, w.LeftRun S a → (∀ c, ¬ w.LeftStep a c) → Relation.ReflTransGen w.RightStep a b →
    ¬ w.Misleading (b.1 + b.2) b.2

theorem Open.not_stale {g : Ledger} {w : Pages} (settled : Settled g w) (clean : g.stale = ∅) (q : Nat) : ¬ w.Stale q := by
  rintro ⟨some,none⟩
  rcases settled.leftover q some with impossible | old | ⟨S,closed,key⟩
  · exact impossible.elim
  · rw [clean] at old; exact old.elim
  · exact none S closed.1 key

/-- Where nothing was left behind every release is quiet. -/
theorem Open.quiet {g : Ledger} {w : Pages} (settled : Settled g w) (clean : g.stale = ∅) (S : Nat) : w.Quiet S :=
  ⟨fun _ _ misleading => settled.not_stale clean _ misleading.1,
    fun _ _ _ _ _ misleading => settled.not_stale clean _ misleading.1⟩

/-! ### The state in the loops -/

/-- The span `S` has grown over free spans of the state `w₀`, in which its release
    began. -/
structure Merging (g₀ g : Ledger) (w₀ : Pages) (S : Nat) (w : Pages) : Prop where
  settled : Settled g₀ w₀
  opened : Open g {S} (w.spans S).pages w
  live : S ∈ w.spanPool.live
  unlisted : ∀ i, S ∉ w.spanList i
  map : w.idSpanMap = w₀.idSpanMap
  os : w.os = w₀.os
  kept : ∀ T ∈ w.spanPool.live, T ≠ S → T ∈ w₀.spanPool.live ∧ w.spans T = w₀.spans T
  read : ∀ T, T ≠ S → (w.spans T).isUse = (w₀.spans T).isUse ∧ (w.spans T).n = (w₀.spans T).n
  isUse : (w.spans S).isUse = true
  isUse₀ : (w₀.spans S).isUse = true
  unused : (w.spans S).useCount = 0
  pos : 0 < (w.spans S).n
  short : (w.spans S).n < npages
  inside : (w₀.spans S).pages ⊆ (w.spans S).pages

section
variable {R : PageRules} {h : List Mutex} {g₀ g : Ledger} {w₀ w : Pages} {S : Nat}
  {thrown : List Mutex → Pages → Prop}

theorem Merging.entry (m : Merging g₀ g w₀ S w) (q : Nat) : w.entry q = w₀.entry q := by rw [Pages.entry,m.map]; rfl

/-- A span that met a page outside the merged ones is still there. -/
theorem Merging.still (m : Merging g₀ g w₀ S w) {T q : Nat} (live : T ∈ w₀.spanPool.live) (mem : q ∈ (w₀.spans T).pages)
    (out : q ∉ (w.spans S).pages) : w.Closed {S} T ∧ w.spans T = w₀.spans T := by
  have closed₀ : w₀.Closed ∅ T := ⟨live,Set.notMem_empty T⟩
  have obtained : q ∈ w.os.obtained := by rw [m.os]; exact m.settled.closed_pages closed₀ mem
  rcases (m.opened.cover q).mp obtained with loose | ⟨T',closed,mem'⟩
  · exact absurd loose out
  · obtain ⟨live',same⟩ := m.kept T' closed.1 closed.2
    have equal : T = T' := by
      by_contra ne
      exact m.settled.apart T T' closed₀ ⟨live',Set.notMem_empty T'⟩ ne q mem (by rw [← same]; exact mem')
    rw [equal]
    exact ⟨closed,same⟩

/-- What the loops find on a page outside the span, if it is not misleading. -/
theorem Merging.neighbour (m : Merging g₀ g w₀ S w) {q : Nat} (out : q ∉ (w.spans S).pages) (some : w.entry q ≠ 0)
    (free : (w.spans (w.entry q)).isUse = false) (fits : (w.spans S).n + (w.spans (w.entry q)).n ≤ npages - 1)
    (calm : ¬ w₀.Misleading q (w.spans S).n) :
    ∃ T, w.Closed {S} T ∧ g.used T = none ∧ w.spans T = w₀.spans T ∧ q ∈ (w.spans T).pages := by
  have other : w.entry q ≠ S := fun same => by rw [same,m.isUse] at free; cases free
  obtain ⟨isUse,n⟩ := m.read _ other
  -- The entry is one that a span of `w₀` keeps, for else it would mislead.
  have owner : ∃ T ∈ w₀.spanPool.live, q ∈ (w₀.spans T).keys := by
    by_contra none
    refine calm ⟨⟨by rw [← m.entry]; exact some,fun T live key => none ⟨T,live,key⟩⟩,?_,?_⟩
    · rw [← m.entry,← isUse]; exact free
    · rw [← m.entry,← n]; exact fits
  obtain ⟨T,live,key⟩ := owner
  obtain ⟨closed,same⟩ := m.still live key.1 out
  rcases m.opened.closed_cases closed with ⟨s,used,facts⟩ | ⟨none,_⟩
  · have found := facts.found q (by rw [← facts.same,same]; exact key)
    rw [found,facts.same,facts.isUse] at free
    cases free
  · exact ⟨T,closed,none,same,by rw [same]; exact key.1⟩

/-- A free span next to `S` absorbed. -/
theorem Merging.absorb (m : Merging g₀ g w₀ S w) {T : Nat} (closed : w.Closed {S} T)
    (none : g.used T = none) {f : Span → Span}
    (pages : (f (w.spans S)).pages = (w.spans S).pages ∪ (w.spans T).pages)
    (n : (f (w.spans S)).n = (w.spans S).n + (w.spans T).n)
    (fits : (w.spans S).n + (w.spans T).n ≤ npages - 1) (isUse : (f (w.spans S)).isUse = (w.spans S).isUse)
    (useCount : (f (w.spans S)).useCount = (w.spans S).useCount) :
    Merging g₀ g w₀ S (((w.erased T).write S f).deleted T) := by
  have ne : T ≠ S := fun same => closed.2 same
  obtain ⟨opened,unlisted⟩ := m.opened.erase closed
  rw [Ledger.giveBack_none none] at opened
  have opened' := (opened.write (Set.mem_insert_of_mem T (Set.mem_singleton S)) f).delete (Set.mem_insert T {S})
    closed.1 unlisted
  have spanS : (((w.erased T).write S f).deleted T).spans S = f (w.spans S) := by
    rw [deleted_other _ ne.symm,write_self]; rfl
  have spanOther : ∀ T', T' ≠ S → T' ≠ T → (((w.erased T).write S f).deleted T).spans T' = w.spans T' :=
    fun T' neS neT => by rw [deleted_other _ neT,write_other _ _ neS]; rfl
  have remains : ∀ T', T' ∈ (((w.erased T).write S f).deleted T).spanPool.live ↔ T' ≠ T ∧ T' ∈ w.spanPool.live := fun T' =>
    m.opened.pool.live_nodup.mem_erase_iff
  have open_set : (insert T {S} : Set Nat) \ {T} = {S} := by
    ext T'; simp only [Set.mem_sdiff,Set.mem_insert_iff,Set.mem_singleton_iff]
    constructor
    · rintro ⟨new | old,other⟩
      · exact absurd new other
      · exact old
    · rintro rfl; exact ⟨.inr rfl,ne.symm⟩
  rw [open_set,← pages,← spanS] at opened'
  refine ⟨m.settled,opened',(remains S).mpr ⟨ne.symm,m.live⟩,fun i mem =>
    m.unlisted i (List.mem_of_mem_erase mem),m.map,m.os,
    fun T' live other => ?_,fun T' other => ?_,by rw [spanS,isUse]; exact m.isUse,m.isUse₀,
    by rw [spanS,useCount]; exact m.unused,by rw [spanS,n]; exact Nat.add_pos_left m.pos _,?_,?_⟩
  · obtain ⟨neT,old⟩ := (remains T').mp live
    rw [spanOther T' other neT]
    exact m.kept T' old other
  · by_cases same : T' = T
    · subst same
      have before := m.read T' ne
      have fields : (((w.erased T').write S f).deleted T').spans T' =
          { w.spans T' with pageId := (w.spanPool.freeList).headD 0 } := by
        rw [deleted,write_self,write_other _ _ ne]; rfl
      rw [fields]; exact before
    · rw [spanOther T' other same]; exact m.read T' other
  · have : npages = 129 := rfl
    rw [spanS,n]; omega
  · rw [spanS,pages]; exact fun q mem => .inl (m.inside mem)

/-- A free span of `w₀` outside `S` is free, and found at its first and last page. -/
theorem Merging.free (m : Merging g₀ g w₀ S w) {T q : Nat} (live : T ∈ w₀.spanPool.live) (mem : q ∈ (w₀.spans T).pages)
    (out : q ∉ (w.spans S).pages) (notUsed : (w₀.spans T).isUse = false) :
    w.Free T ∧ w.spans T = w₀.spans T ∧ T ≠ 0 := by
  obtain ⟨closed,same⟩ := m.still live mem out
  rcases m.opened.closed_cases closed with ⟨s,used,facts⟩ | ⟨_,free⟩
  · have reads := facts.isUse
    rw [← facts.same,same,notUsed] at reads; cases reads
  · exact ⟨free,same,m.opened.live_ne_zero closed.1⟩

theorem Merging.live_pos (m : Merging g₀ g w₀ S w) {T : Nat} (live : T ∈ w₀.spanPool.live) : 0 < (w₀.spans T).n := by
  rcases m.settled.closed_cases (S := T) ⟨live,Set.notMem_empty T⟩ with ⟨s,_,facts⟩ | ⟨_,free⟩
  · rw [facts.same]; exact facts.pos
  · exact free.pos

theorem Merging.page_pos (m : Merging g₀ g w₀ S w) {q : Nat} (mem : q ∈ (w.spans S).pages) : 0 < q ∧ q < 2 ^ bits :=
  m.opened.page_bounds ((m.opened.cover q).mpr (.inl mem))

/-- Where the left loop stops there is nothing free to its left. -/
theorem Merging.left_done (m : Merging g₀ g w₀ S w)
    (stop : w.entry ((w.spans S).pageId - 1) = 0 ∨
      npages - 1 < (w.spans S).n + (w.spans (w.entry ((w.spans S).pageId - 1))).n ∨
      (w.spans (w.entry ((w.spans S).pageId - 1))).isUse = true) (c : Nat × Nat) :
    ¬ w₀.LeftStep ((w.spans S).pageId,(w.spans S).n) c := by
  rintro ⟨T,live,isUse,adjacent,fits,_⟩
  have pos := m.live_pos live
  dsimp only at adjacent fits
  obtain ⟨free,same,nonzero⟩ := m.free live (q := (w.spans S).pageId - 1) ⟨by omega,by omega⟩
    (fun inside => by have := inside.1; omega) isUse
  have last := free.last
  rw [same,adjacent] at last
  rw [last,same] at stop
  rcases stop with zero | long | used
  · exact nonzero zero
  · omega
  · rw [isUse] at used; cases used

theorem Merging.right_done (m : Merging g₀ g w₀ S w)
    (stop : w.entry ((w.spans S).pageId + (w.spans S).n) = 0 ∨
      npages - 1 < (w.spans S).n + (w.spans (w.entry ((w.spans S).pageId + (w.spans S).n))).n ∨
      (w.spans (w.entry ((w.spans S).pageId + (w.spans S).n))).isUse = true) (c : Nat × Nat) :
    ¬ w₀.RightStep ((w.spans S).pageId,(w.spans S).n) c := by
  rintro ⟨T,live,isUse,adjacent,fits,_⟩
  have pos := m.live_pos live
  dsimp only at adjacent fits
  obtain ⟨free,same,nonzero⟩ := m.free live (q := (w.spans S).pageId + (w.spans S).n) ⟨by omega,by omega⟩
    (fun inside => by have := inside.2; omega) isUse
  have first := free.first
  rw [same,adjacent] at first
  rw [first,same] at stop
  rcases stop with zero | long | used
  · exact nonzero zero
  · omega
  · rw [isUse] at used; cases used

/-! ### The loops -/

/-- Both loops look at a page `q` beside the span: they stop there, or they found the free span that `q` is of. -/
theorem Merging.meet_wp (watch : Watch R h g) (guarded : Guarded g w.idSpanMap) (m : Merging g₀ g w₀ S w) {q : Nat}
    (out : q ∉ (w.spans S).pages) (calm : ¬ w₀.Misleading q (w.spans S).n) {body : Nat → Span → Code Pages Unit}
    {post : Unit → List Mutex → Pages → Prop}
    (stops : (w.entry q = 0 ∨ npages - 1 < (w.spans S).n + (w.spans (w.entry q)).n ∨
      (w.spans (w.entry q)).isUse = true) → post () h w)
    (meets : ∀ T, w.Closed {S} T → g.used T = none → w.spans T = w₀.spans T → q ∈ (w.spans T).pages →
      (w.spans S).n + (w.spans (w.entry q)).n ≤ npages - 1 →
      wp R (body (w.entry q) (w.spans (w.entry q))) h w post thrown) :
    wp R (do
      let it ← findPage q
      if it = 0 then pure ()
      else do
        let met ← get it
        if npages - 1 < (w.spans S).n + met.n then pure ()
        else if met.isUse then pure ()
        else body it met) h w post thrown := by
  simp only [wp_seq]
  refine findPage_wp watch guarded ?_
  by_cases none : w.entry q = 0
  · rw [if_pos none]; exact stops (.inl none)
  rw [if_neg none]
  simp only [wp_seq]
  refine get_wp watch guarded ?_
  by_cases long : npages - 1 < (w.spans S).n + (w.spans (w.entry q)).n
  · rw [if_pos long]; exact stops (.inr (.inl long))
  rw [if_neg long]
  by_cases used : (w.spans (w.entry q)).isUse = true
  · rw [if_pos used]; exact stops (.inr (.inr used))
  rw [if_neg used]
  obtain ⟨T,closed,free,same,mem⟩ := m.neighbour out none (by simpa using used) (by omega) calm
  exact meets T closed free same mem (by omega)

/-- Both loops absorb the free span `T` that they found, and go on with the longer one. -/
theorem Merging.absorb_wp (watch : Watch R h g) (guarded : Guarded g w.idSpanMap) (m : Merging g₀ g w₀ S w) {T : Nat}
    (closed : w.Closed {S} T) (free : g.used T = none) {f : Span → Span} {e : Event} (noted : R.seen (some e) h w w)
    (pages : (f (w.spans S)).pages = (w.spans S).pages ∪ (w.spans T).pages)
    (n : (f (w.spans S)).n = (w.spans S).n + (w.spans T).n)
    (fits : (w.spans S).n + (w.spans T).n ≤ npages - 1) (isUse : (f (w.spans S)).isUse = (w.spans S).isUse)
    (useCount : (f (w.spans S)).useCount = (w.spans S).useCount) {rest : Code Pages Unit}
    {post : Unit → List Mutex → Pages → Prop}
    (goes : ∀ w', Merging g₀ g w₀ S w' → Guarded g w'.idSpanMap → w'.spans S = f (w.spans S) →
      wp R rest h w' post thrown) :
    wp R (do
      .note e
      erase T
      put S f
      deleteDescriptor T
      rest) h w post thrown := by
  have facts := m.opened.free T closed free
  have spanS : (((w.erased T).write S f).deleted T).spans S = f (w.spans S) := by
    rw [deleted_other _ (fun same => closed.2 same.symm),write_self]; rfl
  simp only [wp_seq,wp_note]
  refine ⟨noted,?_⟩
  refine erase_wp watch guarded facts.short facts.linked ?_
  refine put_wp (w := w.erased T) watch guarded ?_
  refine deleteDescriptor_wp (w := (w.erased T).write S f) watch guarded ?_
  exact goes _ (m.absorb closed free pages n fits isUse useCount) guarded spanS

theorem mergeLeft_wp (watch : Watch R h g) (guarded : Guarded g w.idSpanMap) (m : Merging g₀ g w₀ S w)
    (run : w₀.LeftRun S ((w.spans S).pageId,(w.spans S).n)) (calm : ∀ a, w₀.LeftRun S a → ¬ w₀.Misleading (a.1 - 1) a.2)
    {rounds : Nat} (enough : npages ≤ rounds + (w.spans S).n) {post : Unit → List Mutex → Pages → Prop}
    (ends : ∀ w', Merging g₀ g w₀ S w' → w₀.LeftRun S ((w'.spans S).pageId,(w'.spans S).n) →
      (∀ c, ¬ w₀.LeftStep ((w'.spans S).pageId,(w'.spans S).n) c) → post () h w') :
    wp R (mergeLeft S rounds) h w post thrown := by
  induction rounds generalizing w with
  | zero => exact absurd m.short (by omega)
  | succ rounds ih =>
    have bound := m.page_pos (q := (w.spans S).pageId) ⟨le_refl _,by have := m.pos; omega⟩
    have leftPage : minus (w.spans S).pageId 1 = (w.spans S).pageId - 1 := by
      have : (2 : Nat) ^ bits = 2 ^ 35 := rfl
      rw [minus]; omega
    have out : (w.spans S).pageId - 1 ∉ (w.spans S).pages := fun inside => by have := inside.1; omega
    rw [mergeLeft,wp_seq]
    refine get_wp watch guarded ?_
    rw [leftPage]
    have here := calm _ run
    refine m.meet_wp watch guarded out here (fun stop => ends w m run (m.left_done stop))
      (fun T closed free same mem fits => ?_)
    have facts := m.opened.free T closed free
    -- The page is the last one of `T`, for the next page is one of `S`.
    have adjacent : (w.spans T).pageId + (w.spans T).n = (w.spans S).pageId := by
      by_contra apart
      have := mem.1; have := mem.2
      refine m.opened.clear T closed (w.spans S).pageId ⟨by omega,by omega⟩ ⟨le_refl _,by have := m.pos; omega⟩
    have found : w.entry ((w.spans S).pageId - 1) = T := by rw [← adjacent]; exact facts.last
    rw [found] at fits ⊢
    refine m.absorb_wp watch guarded closed free (e := .absorbLeft S T)
      (f := fun s => { s with pageId := (w.spans T).pageId, n := s.n + (w.spans T).n })
      (watch.notes _ _ ⟨closed.1,facts.isUse,facts.linked,adjacent⟩) ?_ rfl fits rfl rfl (fun w' m' guarded' spanS => ?_)
    · ext q
      simp only [Span.pages,Set.mem_union,Set.mem_ofPred_eq]
      omega
    refine ih guarded' m' ?_ ?_
    · rw [spanS]
      refine run.tail ⟨T,(m.kept T closed.1 closed.2).1,?_,?_,?_,?_⟩
      · rw [← same]; exact facts.isUse
      · rw [← same]; exact adjacent
      · rw [← same]; dsimp only; omega
      · rw [← same]
    · rw [spanS]
      have := facts.pos
      dsimp only
      omega

theorem mergeRight_wp (watch : Watch R h g) (guarded : Guarded g w.idSpanMap) (m : Merging g₀ g w₀ S w)
    {a : Nat × Nat} (run : Relation.ReflTransGen w₀.RightStep a ((w.spans S).pageId,(w.spans S).n))
    (calm : ∀ b, Relation.ReflTransGen w₀.RightStep a b → ¬ w₀.Misleading (b.1 + b.2) b.2)
    {rounds : Nat} (enough : npages ≤ rounds + (w.spans S).n) {post : Unit → List Mutex → Pages → Prop}
    (ends : ∀ w', Merging g₀ g w₀ S w' → Relation.ReflTransGen w₀.RightStep a ((w'.spans S).pageId,(w'.spans S).n) →
      (∀ c, ¬ w₀.RightStep ((w'.spans S).pageId,(w'.spans S).n) c) → post () h w') :
    wp R (mergeRight S rounds) h w post thrown := by
  induction rounds generalizing w with
  | zero => exact absurd m.short (by omega)
  | succ rounds ih =>
    have out : (w.spans S).pageId + (w.spans S).n ∉ (w.spans S).pages := fun inside => by have := inside.2; omega
    rw [mergeRight,wp_seq]
    refine get_wp watch guarded ?_
    have here := calm _ run
    refine m.meet_wp watch guarded out here (fun stop => ends w m run (m.right_done stop))
      (fun T closed free same mem fits => ?_)
    have facts := m.opened.free T closed free
    have pos := m.pos
    -- The page is the first one of `T`, for the page before is one of `S`.
    have adjacent : (w.spans T).pageId = (w.spans S).pageId + (w.spans S).n := by
      by_contra apart
      have := mem.1; have := mem.2
      refine m.opened.clear T closed ((w.spans S).pageId + (w.spans S).n - 1) ⟨by omega,by omega⟩ ⟨by omega,by omega⟩
    have found : w.entry ((w.spans S).pageId + (w.spans S).n) = T := by rw [← adjacent]; exact facts.first
    rw [found] at fits ⊢
    refine m.absorb_wp watch guarded closed free (e := .absorbRight S T)
      (f := fun s => { s with n := s.n + (w.spans T).n })
      (watch.notes _ _ ⟨closed.1,facts.isUse,facts.linked,adjacent⟩) ?_ rfl fits rfl rfl (fun w' m' guarded' spanS => ?_)
    · ext q
      simp only [Span.pages,Set.mem_union,Set.mem_ofPred_eq]
      omega
    refine ih guarded' m' ?_ ?_
    · rw [spanS]
      refine run.tail ⟨T,(m.kept T closed.1 closed.2).1,?_,?_,?_,?_⟩
      · rw [← same]; exact facts.isUse
      · rw [← same]; exact adjacent
      · rw [← same]; dsimp only; omega
      · rw [← same]
    · rw [spanS]
      have := facts.pos
      dsimp only
      omega

/-- A release of a span that can be merged begins. -/
theorem Open.merging (settled : Settled g w) {s : Span} (used : g.used S = some s) (unused : s.useCount = 0)
    (short : s.n < npages) : Merging g (g.giveBack S) w S w := by
  obtain ⟨opened,unlisted⟩ := settled.takeBack used
  obtain ⟨closed,facts⟩ := settled.used S s used
  rw [insert_empty_eq,Set.empty_union,← facts.same] at opened
  refine ⟨settled,opened,closed.1,unlisted,rfl,rfl,fun T live _ => ⟨live,rfl⟩,fun _ _ => ⟨rfl,rfl⟩,?_,
    ?_,?_,?_,?_,fun _ mem => mem⟩
  all_goals rw [facts.same]
  exacts [facts.isUse,facts.isUse,unused,facts.pos,short]

/-- The merged span becomes a free one. -/
theorem Merging.finish_wp (watch : Watch R h g) (guarded : Guarded g w.idSpanMap) (m : Merging g₀ g w₀ S w)
    {P : Unit → List Mutex → Pages → Prop} {E : List Mutex → Pages → Prop}
    (ends : ∀ w', Settled g w' → Guarded g w'.idSpanMap → OS.Grown .mapNode w.os w'.os → w'.spanPool = w.spanPool →
      w'.spans = (w.write S (fun s => { s with isUse := false })).spans → P () h w') :
    wp R (do
      put S (fun s => { s with isUse := false })
      let merged ← get S
      pushFront merged.n S
      setPage merged.pageId S
      setPage (minus (merged.pageId + merged.n) 1) S) h w P E := by
  have pos := m.pos
  have bound := m.page_pos (q := (w.spans S).pageId + (w.spans S).n - 1) ⟨by omega,by omega⟩
  have lastPage : minus ((w.spans S).pageId + (w.spans S).n) 1 = (w.spans S).pageId + (w.spans S).n - 1 := by
    have : (2 : Nat) ^ bits = 2 ^ 35 := rfl
    rw [minus]; omega
  simp only [wp_seq]
  set f : Span → Span := fun s => { s with isUse := false } with hf
  refine put_wp watch guarded (get_wp (w := w.write S f) watch guarded ?_)
  have fields : (w.write S f).spans S = { w.spans S with isUse := false } := write_self w S f
  rw [fields]
  dsimp only
  rw [lastPage]
  have opened₁ := m.opened.write (Set.mem_singleton S) f
  obtain ⟨opened₂,listed⟩ := opened₁.push (Set.mem_singleton S) m.live m.unlisted (w.spans S).n
  refine pushFront_wp (w := w.write S f) watch guarded ?_
  refine setPage_wp (w := (w.write S f).pushed (w.spans S).n S) watch guarded opened₂ ⟨le_refl _,by omega⟩
    (fun w₁ stored₁ first others₁ guarded₁ => ?_)
  refine setPage_wp watch guarded₁ (opened₂.store stored₁) ⟨by omega,by omega⟩ (fun w₂ stored₂ last others₂ guarded₂ => ?_)
  have stored := stored₁.trans stored₂
  have spanS : w₂.spans S = { w.spans S with isUse := false } := by rw [stored.spans]; exact fields
  have pages : (w₂.spans S).pages = (w.spans S).pages := by rw [spanS]; rfl
  have first' : w₂.entry (w.spans S).pageId = S := by
    by_cases single : (w.spans S).pageId = (w.spans S).pageId + (w.spans S).n - 1
    · rw [single]; exact last
    · rw [others₂ _ single]; exact first
  have free : w₂.Free S := by
    constructor <;> rw [spanS]
    · exact m.pos
    · exact m.short
    · exact m.unused
    · rw [stored.spanList]; exact (listed _).mpr rfl
    · exact first'
    · exact last
  have none := m.opened.open_unused (Set.mem_singleton S)
  have closed := (opened₂.store stored).close (k := g) (Set.mem_singleton S) (by rw [stored.spanPool]; exact m.live)
    (fun _ _ => rfl) rfl rfl (by rw [pages]) (.inr ⟨none,free⟩)
    (fun i mem => ⟨none,by rw [stored.spanList] at mem; rw [spanS]; exact ((listed i).mp mem).symm⟩)
    (fun q mem _ => .inl ⟨mem,.inl free.short⟩)
  rw [pages,Set.sdiff_self,Set.sdiff_self] at closed
  exact ends w₂ closed guarded₂ stored.grown stored.spanPool stored.spans

end

/-- What the release of a span that can be merged does: `S` is a free span that no
    free neighbour could be merged with; the spans that are gone were free and lie
    in it, and the others have not changed. -/
structure Merged (w : Pages) (S : Nat) (w' : Pages) : Prop where
  live : S ∈ w'.spanPool.live
  isUse : (w'.spans S).isUse = false
  short : (w'.spans S).n < npages
  own : (w.spans S).pages ⊆ (w'.spans S).pages
  kept : ∀ T ∈ w'.spanPool.live, T ≠ S → T ∈ w.spanPool.live ∧ w'.spans T = w.spans T ∧ ∀ i,
    T ∈ w'.spanList i ↔ T ∈ w.spanList i
  absorbed : ∀ T ∈ w.spanPool.live, T ∉ w'.spanPool.live → (w.spans T).isUse = false ∧ (w.spans T).pages ⊆ (w'.spans S).pages
  maximal : ∀ T ∈ w'.spanPool.live, T ≠ S → (w'.spans T).isUse = false →
    ((w'.spans T).pageId + (w'.spans T).n = (w'.spans S).pageId ∨
    (w'.spans T).pageId = (w'.spans S).pageId + (w'.spans S).n) →
    npages - 1 < (w'.spans S).n + (w'.spans T).n
  mappings : w'.os.spanMappings = w.os.spanMappings

theorem RightStep.run {w : Pages} {a b : Nat × Nat} (run : Relation.ReflTransGen w.RightStep a b) : b.1 = a.1 ∧
    a.2 ≤ b.2 := by
  induction run with
  | refl => exact ⟨rfl,le_refl _⟩
  | tail _ step ih =>
    obtain ⟨T,_,_,_,_,rfl⟩ := step
    exact ⟨ih.1,le_trans ih.2 (Nat.le_add_right _ _)⟩

/-- What the loops leave, once `S` is marked free. -/
theorem Merging.merged {g : Ledger} {w₀ w w' : Pages} {S : Nat} (m : Merging g (g.giveBack S) w₀ S w) {n : Nat}
    (left : ∀ c, ¬ w₀.LeftStep ((w.spans S).pageId,n) c) (grown : n ≤ (w.spans S).n)
    (right : ∀ c, ¬ w₀.RightStep ((w.spans S).pageId,(w.spans S).n) c) (settled : Settled (g.giveBack S) w')
    (os : OS.Grown .mapNode w.os w'.os) (pool : w'.spanPool = w.spanPool)
    (spans : w'.spans = (w.write S (fun s => { s with isUse := false })).spans) : Merged w₀ S w' := by
  have spanS : w'.spans S = { w.spans S with isUse := false } := by rw [spans,write_self]
  have other : ∀ T, T ≠ S → w'.spans T = w.spans T := fun T ne => by rw [spans,write_other _ _ ne]
  have pages : (w'.spans S).pages = (w.spans S).pages := by rw [spanS]; rfl
  have kept : ∀ T ∈ w'.spanPool.live, T ≠ S → T ∈ w₀.spanPool.live ∧ w'.spans T = w₀.spans T := fun T live ne => by
    rw [pool] at live
    rw [other T ne]
    exact m.kept T live ne
  refine ⟨by rw [pool]; exact m.live,by rw [spanS],by rw [spanS]; exact m.short,by rw [pages]; exact m.inside,
    fun T live ne => ?_,fun T live gone => ?_,fun T live ne isUse adjacent => ?_,?_⟩
  · obtain ⟨old,same⟩ := kept T live ne
    refine ⟨old,same,fun i => ?_⟩
    have closed : w'.Closed ∅ T := ⟨live,Set.notMem_empty T⟩
    have closed₀ : w₀.Closed ∅ T := ⟨old,Set.notMem_empty T⟩
    cases used : g.used T with
    | none =>
      rw [settled.free_listed closed (by rw [Ledger.giveBack_other g ne]; exact used),
        m.settled.free_listed closed₀ used,same]
    | some s =>
      have unlisted := settled.used_unlisted (S := T) (s := s) (by rw [Ledger.giveBack_other g ne]; exact used) i
      have unlisted₀ := m.settled.used_unlisted used i
      exact ⟨fun mem => absurd mem unlisted,fun mem => absurd mem unlisted₀⟩
  · have ne : T ≠ S := fun same => gone (by rw [pool,same]; exact m.live)
    have gone' : T ∉ w.spanPool.live := by rw [← pool]; exact gone
    have closed₀ : w₀.Closed ∅ T := ⟨live,Set.notMem_empty T⟩
    refine ⟨?_,fun q mem => ?_⟩
    · rcases m.settled.closed_cases closed₀ with ⟨s,used,_⟩ | ⟨_,free⟩
      · exact absurd (m.opened.used T s (by rw [Ledger.giveBack_other g ne]; exact used)).1.1 gone'
      · exact free.isUse
    · rw [pages]
      by_contra out
      exact gone' (m.still live mem out).1.1
  · obtain ⟨old,same⟩ := kept T live ne
    rw [same] at isUse adjacent ⊢
    rw [spanS] at adjacent ⊢
    dsimp only at adjacent ⊢
    by_contra short
    rcases adjacent with before | after
    · exact left _ ⟨T,old,isUse,before,by dsimp only; omega,rfl⟩
    · exact right _ ⟨T,old,isUse,after,by dsimp only; omega,rfl⟩
  · rw [os.spanMappings rfl,m.os]

/-- The ledger after the release of a span that was handed out with the fields
    `s`: the first page of a span returned to the system keeps its entry. -/
def released (g : Ledger) (S : Nat) (s : Span) : Ledger :=
  if npages ≤ s.n then (g.giveBack S).leave {s.pageId} else g.giveBack S

/-- Where the pages of a span have gone that was handed out with the fields `s`. -/
structure Returned (w : Pages) (S : Nat) (s : Span) (w' : Pages) : Prop where
  short : s.n < npages → Merged w S w'
  long : npages ≤ s.n → ∀ q ∈ s.pages, q ∉ w'.os.obtained

section
variable {R : PageRules} {h : List Mutex} {g : Ledger} {w : Pages} {S : Nat} {s : Span}
  {thrown : List Mutex → Pages → Prop}

theorem returnSpan_wp (watch : Watch R h (g.giveBack S)) (guarded : Guarded (g.giveBack S) w.idSpanMap)
    (settled : Settled g w) (used : g.used S = some s) (long : npages ≤ s.n) {post : Unit → List Mutex → Pages → Prop}
    (ends : ∀ w', Settled ((g.giveBack S).leave {s.pageId}) w' → Guarded (g.giveBack S) w'.idSpanMap →
      (∀ q ∈ s.pages, q ∉ w'.os.obtained) → post () h w') :
    wp R (do
      (systemFree (s.pageId <<< pageShift) s.n).zoom osPart
      deleteDescriptor S) h w post thrown := by
  obtain ⟨opened,unlisted⟩ := settled.takeBack used
  obtain ⟨closed,facts⟩ := settled.used S s used
  rw [insert_empty_eq,Set.empty_union] at opened
  obtain ⟨mapped,returned⟩ := facts.mapped long
  have base : s.pageId <<< pageShift = s.pageId * 2 ^ pageShift := Nat.shiftLeft_eq ..
  -- The entries of its other pages were left behind before it was obtained.
  have left : ∀ q ∈ s.pages, w.entry q ≠ 0 → q ∈ g.stale ∨ q ∈ ({s.pageId} : Set Nat) := by
    intro q mem some
    rcases settled.leftover q some with impossible | stale | ⟨T,other,key⟩
    · exact impossible.elim
    · exact .inl stale
    · by_cases same : T = S
      · subst same
        rw [facts.same] at key
        exact .inr (key.2.resolve_left (by omega))
      · exact absurd (by rw [facts.same]; exact mem) (settled.apart T S other closed same q key.1)
  have opened₁ := opened.unmap facts.pos mapped (fun q => Iff.rfl) left
  have opened₂ := opened₁.delete (Set.mem_singleton S) closed.1 unlisted
  rw [Set.sdiff_self] at opened₂
  have freeing : ∀ {post : Unit → List Mutex → Pages → Prop},
      post () h { w with os := w.os.unmap (s.pageId * 2 ^ pageShift) s.n } →
      wp R ((systemFree (s.pageId <<< pageShift) s.n).zoom osPart) h w post thrown := by
    intro post ends
    rw [base]
    exact ⟨watch.notes _ _ ⟨returned,mapped⟩,watch.same guarded (.inl rfl),ends⟩
  rw [wp_seq]
  refine freeing (deleteDescriptor_wp (w := { w with os := w.os.unmap (s.pageId * 2 ^ pageShift) s.n }) watch guarded ?_)
  refine ends _ opened₂ guarded (fun q mem obtained => ?_)
  obtain ⟨T,other,mem'⟩ := ((opened₁.cover q).mp obtained).resolve_left id
  exact settled.apart S T closed ⟨other.1,Set.notMem_empty T⟩ (fun same => other.2 same.symm) q
    (by rw [facts.same]; exact mem) mem'

/-- `ReleaseSpanToPageCache` of a span in use that can be merged. -/
theorem release_short_wp (watch : Watch R h (g.giveBack S)) (guarded : Guarded (g.giveBack S) w.idSpanMap)
    (settled : Settled g w) (used : g.used S = some s) (unused : s.useCount = 0) (short : s.n < npages) (calm : w.Quiet S)
    {rounds : Nat} (enough : npages ≤ rounds) {post : Unit → List Mutex → Pages → Prop}
    (ends : ∀ w', Settled (g.giveBack S) w' → Guarded (g.giveBack S) w'.idSpanMap → Merged w S w' →
      (∀ m ∈ w.os.mapped, m ∈ w'.os.mapped) → post () h w') :
    wp R (releaseSpanToPageCache rounds S) h w post thrown := by
  obtain ⟨closed,facts⟩ := settled.used S s used
  simp only [releaseSpanToPageCache,wp_seq,wp_require]
  refine ⟨settled.live_ne_zero closed.1,get_wp watch guarded ?_⟩
  rw [facts.same,if_neg (by omega)]
  simp only [wp_seq]
  refine mergeLeft_wp watch guarded (settled.merging used unused short) .refl calm.left (by omega) (fun w₁ m₁ run done => ?_)
  have guarded₁ : Guarded (g.giveBack S) w₁.idSpanMap := by rw [m₁.map]; exact guarded
  refine mergeRight_wp watch guarded₁ m₁ .refl (fun b run' => calm.right _ b run done run') (by omega)
    (fun w₂ m₂ run' done' => ?_)
  have guarded₂ : Guarded (g.giveBack S) w₂.idSpanMap := by rw [m₂.map]; exact guarded
  obtain ⟨first,longer⟩ := RightStep.run run'
  dsimp only at first longer
  have finish := m₂.finish_wp (E := thrown) (P := post) watch guarded₂ (fun w' settled' guarded' grown pool spans =>
    ends w' settled' guarded' (m₂.merged (by rw [first]; exact done) longer done' settled' grown pool spans)
      (fun m mem => grown.mem (by rw [m₂.os]; exact mem)))
  simpa only [wp_seq] using finish

/-- `ReleaseSpanToPageCache` of a span in use, on a system that keeps its promises. -/
theorem release_wp (watch : Watch R h (g.giveBack S)) (guarded : Guarded (g.giveBack S) w.idSpanMap)
    (settled : Settled g w) (used : g.used S = some s) (unused : s.useCount = 0) (quiet : s.n < npages → w.Quiet S)
    {rounds : Nat} (enough : npages ≤ rounds) {post : Unit → List Mutex → Pages → Prop}
    (ends : ∀ w', Settled (released g S s) w' → Guarded (g.giveBack S) w'.idSpanMap → Returned w S s w' → post () h w') :
    wp R (releaseSpanToPageCache rounds S) h w post thrown := by
  by_cases long : npages ≤ s.n
  · obtain ⟨closed,facts⟩ := settled.used S s used
    simp only [releaseSpanToPageCache,wp_seq,wp_require]
    refine ⟨settled.live_ne_zero closed.1,get_wp watch guarded ?_⟩
    rw [facts.same,if_pos long]
    refine returnSpan_wp watch guarded settled used long (fun w' settled' guarded' gone =>
      ends w' ?_ guarded' ⟨fun short => absurd long (by omega),fun _ => gone⟩)
    rw [released,if_pos long]; exact settled'
  · refine release_short_wp watch guarded settled used unused (by omega) (quiet (by omega)) enough
      (fun w' settled' guarded' merged _ => ends w' ?_ guarded' ⟨fun _ => merged,fun long' => absurd long' long⟩)
    rw [released,if_neg long]; exact settled'

end
end Pages
end TcAlloc
