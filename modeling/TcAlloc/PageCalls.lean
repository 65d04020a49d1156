import TcAlloc.PageSafety

/-!
What one call of `NewSpan` or of `ReleaseSpanToPageCache` does to a state that a run
has reached, as long as no span too long to be merged has been released: which pages
a span is made of, which spans are free then, and that nothing else changes.
-/
namespace TcAlloc
namespace Pages

/-- A descriptor in use whose span was not handed out. -/
def FreeSpan (w : Pages) (T : Nat) : Prop := T ∈ w.spanPool.live ∧ (w.spans T).isUse = false

/-- A page of a free span. -/
def FreePage (w : Pages) (q : Nat) : Prop := ∃ T, w.FreeSpan T ∧ q ∈ (w.spans T).pages

/-- The answers of a system that never fails, with nobody watching. -/
def reliable : PageRules := ⟨fun w q a => w.os.allows (2 ^ pageShift) q a,fun _ _ _ _ => True⟩

theorem watch_reliable (g : Ledger) : Watch reliable [.pageCache] g :=
  ⟨fun _ _ _ ok => OS.allows_promises ok,by simp,fun _ _ _ _ _ _ _ => trivial,fun _ _ _ => trivial⟩

section
variable {g : Ledger} {w w' : Pages} {k S T : Nat}

theorem Open.freeSpan_iff (settled : Settled g w) : w.FreeSpan T ↔ T ∈ w.spanPool.live ∧ g.used T = none ∧ w.Free T := by
  constructor
  · rintro ⟨live,isUse⟩
    rcases settled.closed_cases (S := T) ⟨live,Set.notMem_empty T⟩ with ⟨s,_,facts⟩ | free
    · rw [facts.same,facts.isUse] at isUse; cases isUse
    · exact ⟨live,free⟩
  · rintro ⟨live,_,free⟩; exact ⟨live,free.isUse⟩

/-- The free pages are read off the pages of descriptors and whether they are in use. -/
theorem freePage_congr (pool : w'.spanPool = w.spanPool)
    (same : ∀ T, (w'.spans T).isUse = (w.spans T).isUse ∧ (w'.spans T).pages = (w.spans T).pages) (q : Nat) :
    w'.FreePage q ↔ w.FreePage q := by
  simp only [FreePage,FreeSpan,pool,same]

/-! ### NewSpan -/

/-- All spans but `L` are as they were, and at most `S` and `L` are new. -/
structure OthersKept (w : Pages) (L S : Nat) (w' : Pages) : Prop where
  kept : ∀ T ∈ w.spanPool.live, T ≠ L →
    T ∈ w'.spanPool.live ∧ w'.spans T = w.spans T ∧ ∀ i, T ∈ w'.spanList i ↔ T ∈ w.spanList i
  new : ∀ T ∈ w'.spanPool.live, T ∈ w.spanPool.live ∨ T = S ∨ T = L

/-- `S` is the first `k` of the `n` pages from `p` on; the others are free, in the
    list of their number, with the descriptor `L`. -/
structure FirstPages (w : Pages) (k L p n S : Nat) (w' : Pages) : Prop where
  start : (w'.spans S).pageId = p
  whole : n = k → S = L
  rest : k < n → S ∉ w.spanPool.live ∧ w'.FreeSpan L ∧ (w'.spans L).pageId = p + k ∧ (w'.spans L).n = n - k ∧
    ∀ i, L ∈ w'.spanList i ↔ i = n - k

/-- The span that `NewSpan(k)` returns, and where its pages come from. -/
structure Provides (w : Pages) (k S : Nat) (w' : Pages) : Prop where
  length : (w'.spans S).n = k
  taken : S ∈ w'.spanPool.live ∧ ∀ i, S ∉ w'.spanList i
  source :
    /- a free span, the shortest that is long enough -/
    (∃ L, w.FreeSpan L ∧ k ≤ (w.spans L).n ∧ (∀ T, w.FreeSpan T → k ≤ (w.spans T).n → (w.spans L).n ≤ (w.spans T).n) ∧
      FirstPages w k L (w.spans L).pageId (w.spans L).n S w' ∧ OthersKept w L S w' ∧
      w'.os.spanMappings = w.os.spanMappings) ∨
    /- or, where there is none, 128 pages from the system -/
    (∀ T, w.FreeSpan T → (w.spans T).n < k) ∧ ∃ L base, L ∉ w.spanPool.live ∧
      FirstPages w k L (base >>> pageShift) 128 S w' ∧ OthersKept w L S w' ∧
      w'.os.spanMappings = ⟨base,128 * 2 ^ pageShift,.refill⟩ :: w.os.spanMappings

theorem CutOff.firstPages {L : Nat} (cut : CutOff w k L S w') (isUse : (w.spans L).isUse = false) :
    FirstPages w k L (w.spans L).pageId (w.spans L).n S w' := by
  refine ⟨cut.pageId,cut.whole,fun longer => ?_⟩
  obtain ⟨fresh,span,live,listed⟩ := cut.rest longer
  exact ⟨fresh,⟨live,by rw [span]; exact isUse⟩,by rw [span],by rw [span],listed⟩

theorem Supplied.provides (settled : Settled g w) (ready : Ready g k S w')
    (supplied : Supplied w k S w') : Provides w k S w' := by
  refine ⟨ready.n,⟨ready.live,ready.unlisted⟩,?_⟩
  cases supplied with
  | found L listed fits least cut =>
    have pop := settled.poppable listed
    refine .inl ⟨L,⟨pop.live,pop.isUse⟩,fits,fun T free long => ?_,cut.firstPages pop.isUse,
      ⟨cut.kept,fun T live => (cut.new T live).imp id .inl⟩,cut.mappings⟩
    by_contra shorter
    have linked := (settled.freeSpan_iff.mp free).2.2.linked
    rw [least _ long (by omega)] at linked; cases linked
  | refilled none L base w₁ refilled cut =>
    have isUse : (w₁.spans L).isUse = false := by rw [refilled.span]
    have first := cut.firstPages isUse
    rw [refilled.span] at first
    refine .inr ⟨fun T free => ?_,L,base,refilled.fresh,⟨first.start,first.whole,fun longer => ?_⟩,
      ⟨fun T live ne => ?_,fun T live => ?_⟩,?_⟩
    · by_contra long
      have facts := (settled.freeSpan_iff.mp free).2.2
      have linked := facts.linked
      rw [none _ (by omega) facts.short] at linked; cases linked
    · obtain ⟨fresh,rest⟩ := first.rest longer
      exact ⟨fun old => fresh (refilled.kept S old).1,rest⟩
    · obtain ⟨live₁,same₁⟩ := refilled.kept T live
      obtain ⟨live',same,lists⟩ := cut.kept T live₁ ne
      refine ⟨live',same.trans same₁,fun i => (lists i).trans ?_⟩
      rw [refilled.lists]
      split_ifs with last
      · simp [ne]
      · rfl
    · rcases cut.new T live with old | rfl
      · exact (refilled.new T old).imp id .inr
      · exact .inr (.inl rfl)
    · rw [cut.mappings,refilled.mappings]; rfl

/-- `NewSpan(k)` for `k` below `NPAGES` returns, after one recursive call at most, a
    span from the shortest free span that is long enough or from a refill. Here and before
    the call the system never fails, and answers in whole pages. -/
theorem newSpan_provides (b : Build) (reached : Reaches b (OS.allows (2 ^ pageShift)) ShortCall w) (pos : 1 ≤ k)
    (short : k ≤ npages - 1) (rounds : Nat) (once : 2 ≤ rounds) :
    wp reliable (newSpan rounds k) [.pageCache] w
    (fun S h w' => h = [.pageCache] ∧ Provides w k S w') (fun _ _ => False) := by
  obtain ⟨g,between,_⟩ := reached.clean (fun _ _ _ ok => OS.allows_promises ok)
  have settled := between.settled
  have bound : npages = 129 := rfl
  exact newSpan_short_wp (watch_reliable g) settled.guarded settled pos (by omega) once
    (fun S w' ready supplied _ => ⟨rfl,supplied.provides settled ready⟩)

/-- The pages of the span `S`, just handed out, were free, or come with a refill. -/
def Drawn (w : Pages) (S : Nat) (w' : Pages) : Prop :=
  (w'.os.spanMappings = w.os.spanMappings ∧ ∀ q, w'.FreePage q ∨ q ∈ (w'.spans S).pages ↔ w.FreePage q) ∨
    ∃ base, w'.os.spanMappings = ⟨base,128 * 2 ^ pageShift,.refill⟩ :: w.os.spanMappings ∧
      ∀ q, w'.FreePage q ∨ q ∈ (w'.spans S).pages ↔ w.FreePage q ∨ base >>> pageShift ≤ q ∧ q < base >>> pageShift + 128

theorem Drawn.congr {w'' : Pages} (drawn : Drawn w S w') (os : w''.os = w'.os) (pool : w''.spanPool = w'.spanPool)
    (same : ∀ T, (w''.spans T).isUse = (w'.spans T).isUse ∧ (w''.spans T).pages = (w'.spans T).pages) : Drawn w S w'' := by
  unfold Drawn
  simp only [freePage_congr pool same,(same S).2,os]
  exact drawn

/-- The free pages around the span, which is cut from the `n` pages from `p` on. -/
theorem FirstPages.pages_iff {L p n q : Nat} (first : FirstPages w k L p n S w') (others : OthersKept w L S w')
    (length : (w'.spans S).n = k)
    (pos : 0 < k) (fits : k ≤ n) : ((∃ T, T ≠ S ∧ w'.FreeSpan T ∧ q ∈ (w'.spans T).pages) ∨ q ∈ (w'.spans S).pages) ↔
      (∃ T, T ≠ L ∧ w.FreeSpan T ∧ q ∈ (w.spans T).pages) ∨ p ≤ q ∧ q < p + n := by
  have own : q ∈ (w'.spans S).pages ↔ p ≤ q ∧ q < p + k := by
    rw [Span.pages,first.start,length]; rfl
  have rest : k < n → L ≠ S ∧ (q ∈ (w'.spans L).pages ↔ p + k ≤ q ∧ q < p + n) := fun longer => by
    obtain ⟨_,_,pageId,count,_⟩ := first.rest longer
    refine ⟨fun same => ?_,?_⟩
    · rw [same,first.start] at pageId; omega
    · rw [Span.pages,pageId,count]
      simp only [Set.mem_ofPred_eq]; omega
  constructor
  · rintro (⟨T,ne,free,mem⟩ | mem)
    · by_cases same : T = L
      · subst same
        have longer : k < n := by
          by_contra whole
          exact ne (first.whole (by omega)).symm
        have range := (rest longer).2.mp mem
        exact .inr ⟨by omega,range.2⟩
      · have old := ((others.new T free.1).resolve_right (not_or.mpr ⟨ne,same⟩))
        obtain ⟨_,equal,_⟩ := others.kept T old same
        exact .inl ⟨T,same,⟨old,by rw [← equal]; exact free.2⟩,by rw [← equal]; exact mem⟩
    · have range := own.mp mem
      exact .inr ⟨range.1,by omega⟩
  · rintro (⟨T,ne,free,mem⟩ | range)
    · obtain ⟨live,equal,_⟩ := others.kept T free.1 ne
      refine .inl ⟨T,fun same => ?_,⟨live,by rw [equal]; exact free.2⟩,by rw [equal]; exact mem⟩
      by_cases longer : k < n
      · exact (first.rest longer).1 (same ▸ free.1)
      · exact ne (same.trans (first.whole (by omega)))
    · by_cases here : q < p + k
      · exact .inr (own.mpr ⟨range.1,here⟩)
      · have longer : k < n := by omega
        obtain ⟨ne,pages⟩ := rest longer
        exact .inl ⟨L,ne,(first.rest longer).2.1,pages.mpr ⟨by omega,range.2⟩⟩

/-- Marked as used, the span has left the free pages. -/
theorem Provides.drawn {f : Span → Span} (provides : Provides w k S w') (pos : 0 < k) (few : k ≤ 128)
    (pageId : (f (w'.spans S)).pageId = (w'.spans S).pageId) (n : (f (w'.spans S)).n = (w'.spans S).n)
    (isUse : (f (w'.spans S)).isUse = true) : Drawn w S (w'.write S f) := by
  have own : ((w'.write S f).spans S).pages = (w'.spans S).pages := by
    rw [write_self,Span.pages,Span.pages,pageId,n]
  have free : ∀ q, (w'.write S f).FreePage q ↔ ∃ T, T ≠ S ∧ w'.FreeSpan T ∧ q ∈ (w'.spans T).pages := fun q => by
    constructor
    · rintro ⟨T,⟨live,idle⟩,mem⟩
      have ne : T ≠ S := fun same => by
        rw [same,write_self,isUse] at idle; cases idle
      rw [write_other _ _ ne] at idle mem
      exact ⟨T,ne,⟨live,idle⟩,mem⟩
    · rintro ⟨T,ne,⟨live,idle⟩,mem⟩
      exact ⟨T,⟨live,by rw [write_other _ _ ne]; exact idle⟩,by rw [write_other _ _ ne]; exact mem⟩
  rcases provides.source with ⟨L,freeL,fits,_,first,others,mappings⟩ | ⟨_,L,base,fresh,first,others,mappings⟩
  · refine .inl ⟨mappings,fun q => ?_⟩
    rw [free,own,first.pages_iff others provides.length pos fits]
    constructor
    · rintro (⟨T,_,idle,mem⟩ | mem)
      · exact ⟨T,idle,mem⟩
      · exact ⟨L,freeL,mem⟩
    · rintro ⟨T,idle,mem⟩
      by_cases same : T = L
      · exact .inr (same ▸ mem)
      · exact .inl ⟨T,same,idle,mem⟩
  · refine .inr ⟨base,mappings,fun q => ?_⟩
    rw [free,own,first.pages_iff others provides.length pos few]
    apply or_congr_left
    constructor
    · rintro ⟨T,_,idle,mem⟩
      exact ⟨T,idle,mem⟩
    · rintro ⟨T,idle,mem⟩
      exact ⟨T,fun same => fresh (same ▸ idle.1),idle,mem⟩

/-- Two pages, split off the rest of a refill. -/
theorem newSpan_provides_split :
    wp reliable (newSpan 2 2) [.pageCache] splitOnce (fun S h w' => h = [.pageCache] ∧ Provides splitOnce 2 S w')
    (fun _ _ => False) :=
  newSpan_provides .standard (splitOnce_reached (fun _ _ _ ok => ok) (fun _ => trivial))
  (by decide) (by decide) 2 (le_refl 2)

/-! ### ReleaseSpanToPageCache -/

/-- What the release of `S` leaves. -/
structure Frees (w : Pages) (S : Nat) (w' : Pages) : Prop where
  mapped : ∀ q, q ∈ w'.os.obtained ↔ q ∈ w.os.obtained
  freePages : ∀ q, w'.FreePage q ↔ w.FreePage q ∨ q ∈ (w.spans S).pages
  result : w'.FreeSpan S ∧ (w.spans S).pages ⊆ (w'.spans S).pages
  /-- Other spans stay, or are free ones that were absorbed. -/
  others : ∀ T ∈ w.spanPool.live, T ≠ S →
    (T ∈ w'.spanPool.live ∧ w'.spans T = w.spans T ∧ ∀ i, T ∈ w'.spanList i ↔ T ∈ w.spanList i) ∨
      w.FreeSpan T ∧ T ∉ w'.spanPool.live ∧ (w.spans T).pages ⊆ (w'.spans S).pages
  new : ∀ T ∈ w'.spanPool.live, T ∈ w.spanPool.live
  short : ∀ T, w'.FreeSpan T → (w'.spans T).n ≤ npages - 1 ∧ ∀ i, T ∈ w'.spanList i ↔ i = (w'.spans T).n
  maximal : ∀ T, w'.FreeSpan T → T ≠ S →
    ((w'.spans T).pageId + (w'.spans T).n = (w'.spans S).pageId ∨
    (w'.spans S).pageId + (w'.spans S).n = (w'.spans T).pageId) →
    npages - 1 < (w'.spans S).n + (w'.spans T).n

theorem obtained_spanMappings (w : Pages) (q : Nat) : q ∈ w.os.obtained ↔
    ∃ m ∈ w.os.spanMappings, m.base ≤ q * 2 ^ pageShift ∧ q * 2 ^ pageShift < m.base + m.len := by
  simp only [OS.obtained,OS.spanMappings,List.mem_filter,Set.mem_ofPred_eq]
  constructor
  · rintro ⟨m,mapped,span,range⟩
    exact ⟨m,⟨mapped,span⟩,range⟩
  · rintro ⟨m,⟨mapped,span⟩,range⟩
    exact ⟨m,mapped,span,range⟩

theorem Merged.frees (settled : Settled g w) {s : Span} (used : g.used S = some s) (settled' : Settled (g.giveBack S) w')
    (merged : Merged w S w') : Frees w S w' := by
  have same := (settled.used S s used).2.same
  have isUse : (w.spans S).isUse = true := by rw [same]; exact (settled.used S s used).2.isUse
  have mapped : ∀ q, q ∈ w'.os.obtained ↔ q ∈ w.os.obtained := fun q => by
    rw [obtained_spanMappings,obtained_spanMappings,merged.mappings]
  have liveS := (settled.used S s used).1.1
  have freeS : w'.FreeSpan S := ⟨merged.live,merged.isUse⟩
  refine ⟨mapped,fun q => ?_,⟨freeS,merged.own⟩,fun T live ne => ?_,fun T live => ?_,fun T free => ?_,
    fun T free ne adjacent => ?_⟩
  · constructor
    · rintro ⟨T,⟨live,isUse'⟩,mem⟩
      by_cases self : T = S
      · subst self
        -- A page of the merged span was one of `S` or of a span that is gone.
        have obtained := (mapped q).mp (settled'.closed_pages (S := T) ⟨live,Set.notMem_empty T⟩ mem)
        obtain ⟨T',closed,mem'⟩ := ((settled.cover q).mp obtained).resolve_left id
        by_cases own : T' = T
        · exact .inr (own ▸ mem')
        · by_cases here : T' ∈ w'.spanPool.live
          · obtain ⟨_,same',_⟩ := merged.kept T' here own
            refine absurd mem (settled'.apart T' T ⟨here,Set.notMem_empty T'⟩ ⟨live,Set.notMem_empty T⟩ own q ?_)
            rw [same']; exact mem'
          · exact .inl ⟨T',⟨closed.1,(merged.absorbed T' closed.1 here).1⟩,mem'⟩
      · obtain ⟨old,same',_⟩ := merged.kept T live self
        exact .inl ⟨T,⟨old,same' ▸ isUse'⟩,same' ▸ mem⟩
    · rintro (⟨T,⟨live,isUse'⟩,mem⟩ | own)
      · have ne : T ≠ S := fun self => by rw [self,isUse] at isUse'; cases isUse'
        by_cases here : T ∈ w'.spanPool.live
        · obtain ⟨_,same',_⟩ := merged.kept T here ne
          exact ⟨T,⟨here,by rw [same']; exact isUse'⟩,by rw [same']; exact mem⟩
        · exact ⟨S,freeS,(merged.absorbed T live here).2 mem⟩
      · exact ⟨S,freeS,merged.own own⟩
  · by_cases here : T ∈ w'.spanPool.live
    · exact .inl ⟨here,(merged.kept T here ne).2⟩
    · obtain ⟨free,inside⟩ := merged.absorbed T live here
      exact .inr ⟨⟨live,free⟩,here,inside⟩
  · by_cases self : T = S
    · rw [self]; exact liveS
    · exact (merged.kept T live self).1
  · obtain ⟨live,none,facts⟩ := settled'.freeSpan_iff.mp free
    have short := facts.short
    exact ⟨by omega,settled'.free_listed ⟨live,Set.notMem_empty T⟩ none⟩
  · exact merged.maximal T free.1 ne free.2 (adjacent.imp id Eq.symm)

/-- The release of a span below `NPAGES` pages ends, and makes its pages free in one
    span with free neighbours, in a run where the system has never failed and has answered in
    whole pages. -/
theorem release_frees (b : Build) (reached : Reaches b (OS.allows (2 ^ pageShift)) ShortCall w) (inUse : w.InUse S)
    (short : (w.spans S).n < npages) (rounds : Nat) (enough : npages ≤ rounds) :
    wp reliable (releaseSpanToPageCache rounds S) [.pageCache] w (fun _ h w' => h = [.pageCache] ∧ Frees w S w')
      (fun _ _ => False) := by
  obtain ⟨g,between,clean⟩ := reached.clean (fun _ _ _ ok => OS.allows_promises ok)
  have settled := between.settled
  obtain ⟨s,used⟩ := (settled.inUse_iff S).mp inUse
  have facts := (settled.used S s used).2
  refine release_short_wp (watch_reliable _) (settled.takeBack used).1.guarded settled used (between.unused S s used)
    (by rw [← facts.same]; exact short) (settled.quiet clean S) enough
    (fun w' settled' _ merged _ => ⟨rfl,merged.frees settled used settled'⟩)

/-- The page split off a refill, given back. -/
theorem release_frees_split :
    wp reliable (releaseSpanToPageCache 129 (300 * 8192 + 64)) [.pageCache] splitOnce
      (fun _ h w' => h = [.pageCache] ∧ Frees splitOnce (300 * 8192 + 64) w') (fun _ _ => False) :=
  release_frees .standard (splitOnce_reached (fun _ _ _ ok => ok) (fun _ => trivial))
  (by decide +kernel) (by decide +kernel) 129
    (by decide)

end
end Pages
end TcAlloc
