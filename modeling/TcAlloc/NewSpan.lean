import TcAlloc.Spans

/-!
What `NewSpan` does. An operation of the page cache is followed under an observer
(`Watch`) that sees the mutex held, and, between any two operations, every entry
of a span in use in place and every node of the map where it was (`Guarded`).
`NewSpan` leaves its span open for the caller, complete but for `_isUse`
(`Ready`), which the caller sets before it lets go of the mutex.
-/
namespace TcAlloc
namespace Pages

/-- The page map in the middle of an operation, as readers without the mutex may
    rely on it. -/
def Guarded (g : Ledger) (map : PageMap) : Prop :=
  ∀ S s, g.used S = some s → s.n < npages → ∀ q ∈ s.pages, map.get bits q = S

/-- The merge absorbs a free span that is linked and adjacent; a range is given
    back to the system as it was obtained. -/
def Sound (w : Pages) : Event → Prop
  | .absorbLeft span it => it ∈ w.spanPool.live ∧ (w.spans it).isUse = false ∧ it ∈ w.spanList (w.spans it).n ∧
      (w.spans it).pageId + (w.spans it).n = (w.spans span).pageId
  | .absorbRight span it => it ∈ w.spanPool.live ∧ (w.spans it).isUse = false ∧ it ∈ w.spanList (w.spans it).n ∧
      (w.spans it).pageId = (w.spans span).pageId + (w.spans span).n
  | .systemFree ptr kpage => (ptr,kpage) ∈ w.os.returned ∧ ⟨ptr,kpage * 2 ^ pageShift,.directSpan⟩ ∈ w.os.mapped

abbrev PageRules := Rules Pages Mutex Request (Option Nat) Event

/-- The observer of an operation on the page cache, which holds the mutexes `h`:
    at every step entries of spans in use and nodes of the map stay. -/
structure Watch (R : PageRules) (h : List Mutex) (g : Ledger) : Prop where
  answers : ∀ w q a, R.allowed w q a → w.os.promises q a
  free : Mutex.spanPool ∉ h
  sees : ∀ h' w w', (h' = h ∨ h' = .spanPool :: h) → Guarded g w.idSpanMap → Guarded g w'.idSpanMap →
    w.idSpanMap.Persists w'.idSpanMap → R.seen none h' w w'
  notes : ∀ w e, Sound w e → R.seen (some e) h w w

theorem Open.guarded {g : Ledger} {X U : Set Nat} {w : Pages} (h : Open g X U w) : Guarded g w.idSpanMap :=
  fun S s used short q mem => (h.used S s used).2.found q ⟨mem,.inl short⟩

section
variable {R : PageRules} {h : List Mutex} {g : Ledger} {X U : Set Nat} {w : Pages} {thrown : List Mutex → Pages → Prop}

/-- A step that does not touch the map. -/
theorem Watch.same (watch : Watch R h g) {map : PageMap} (guarded : Guarded g map) {h' : List Mutex}
    (held : h' = h ∨ h' = .spanPool :: h) {w' : Pages} (before : w.idSpanMap = map := by rfl)
    (after : w'.idSpanMap = map := by rfl) : R.seen none h' w w' :=
  watch.sees h' w w' held (by rw [before]; exact guarded) (by rw [after]; exact guarded)
  (by rw [before,after]; exact .refl _)

/-! ### Single operations -/

theorem get_wp (watch : Watch R h g) (guarded : Guarded g w.idSpanMap) {S : Nat}
    {post : Span → List Mutex → Pages → Prop} (ends : post (w.spans S) h w) : wp R (get S) h w post thrown :=
  ⟨watch.same guarded (.inl rfl),ends⟩

theorem put_wp (watch : Watch R h g) (guarded : Guarded g w.idSpanMap) {S : Nat} {f : Span → Span}
    {post : Unit → List Mutex → Pages → Prop} (ends : post () h (w.write S f)) : wp R (put S f) h w post thrown :=
  ⟨watch.same guarded (.inl rfl),ends⟩

theorem pushFront_wp (watch : Watch R h g) (guarded : Guarded g w.idSpanMap) {i S : Nat}
    {post : Unit → List Mutex → Pages → Prop} (ends : post () h (w.pushed i S)) :
    wp R (pushFront i S) h w post thrown :=
  ⟨watch.same guarded (.inl rfl),ends⟩

theorem erase_wp (watch : Watch R h g) (guarded : Guarded g w.idSpanMap) {i S : Nat} (small : i < npages)
    (linked : S ∈ w.spanList i) {post : Unit → List Mutex → Pages → Prop} (ends : post () h (w.erased S)) :
    wp R (erase S) h w post thrown := by
  refine (wp_step_ok (b := ()) (u := w.erased S) ?_).mpr ⟨watch.same guarded (.inl rfl),ends⟩
  exact if_pos ⟨i,small,linked⟩

theorem deleteDescriptor_wp (watch : Watch R h g) (guarded : Guarded g w.idSpanMap) {S : Nat}
    {post : Unit → List Mutex → Pages → Prop} (ends : post () h (w.deleted S)) :
    wp R (deleteDescriptor S) h w post thrown := by
  refine wp_locked Mutex.spanPool watch.free (watch.same guarded (.inr rfl)) ?_
  rw [wp_modify,List.erase_cons_head]
  exact ⟨watch.same guarded (.inr rfl),by simp,watch.same guarded (.inl rfl),ends⟩

theorem findPage_wp (watch : Watch R h g) (guarded : Guarded g w.idSpanMap) {q : Nat}
    {post : Nat → List Mutex → Pages → Prop} (ends : post (w.entry q) h w) : wp R (findPage q) h w post thrown := by
  refine wp_zoom lookupPart (I := ⟨fun _ _ _ => True,fun m h' t t' => m = none ∧ h' = h ∧ t = w.idSpanMap ∧ t' = t⟩)
    (P := fun v h' t => v = w.entry q ∧ h' = h ∧ t = w.idSpanMap) (E := fun _ _ => False)
    (fun _ _ _ _ => trivial) ?_ ?_ (fun _ _ impossible => impossible.elim) (PageMap.load_wp ⟨rfl,rfl,rfl,rfl⟩ ⟨rfl,rfl,rfl⟩)
  · rintro m h' t t' ⟨rfl,rfl,rfl,rfl⟩; exact watch.same guarded (.inl rfl)
  · rintro v h' t ⟨rfl,rfl,rfl⟩; exact ends

theorem systemAlloc_pages_wp (watch : Watch R h g) (guarded : Guarded g w.idSpanMap) {site : Site} {k : Nat}
    (forSpans : site.forSpans = true) {post : Nat → List Mutex → Pages → Prop}
    (ends : ∀ base, OS.Grants 1 w.os k base → 2 ^ pageShift ∣ base →
      post base h { w with os := w.os.grant site k base }) :
    wp R ((systemAlloc site k).zoom osPart) h w post thrown := by
  refine wp_zoom osPart (I := ⟨OS.promises,fun m h' _ _ => m = none ∧ h' = h⟩)
    (P := fun base h' t => h' = h ∧ OS.Grants 1 w.os k base ∧ 2 ^ pageShift ∣ base ∧ t = w.os.grant site k base)
    (E := fun _ _ => False) (fun t q a ok => watch.answers _ q a ok) ?_ ?_ (fun _ _ impossible => impossible.elim) ?_
  · rintro m h' t t' ⟨rfl,rfl⟩; exact watch.same guarded (.inl rfl)
  · rintro base h' t ⟨rfl,granted,aligned,rfl⟩; exact ends base granted aligned
  · simp only [systemAlloc,wp_seq,wp_answer]
    rintro (_ | base) ok
    · exact ok.1.elim
    · exact ⟨⟨rfl,rfl⟩,rfl,ok.1,ok.2 forSpans base rfl,rfl⟩

/-- A descriptor that was not in use, with the fields its constructor sets. -/
theorem newDescriptor_wp (watch : Watch R h g) (guarded : Guarded g w.idSpanMap) (opened : Open g X U w)
    {post : Nat → List Mutex → Pages → Prop}
    (ends : ∀ S pool os, S ∉ w.spanPool.live → pool.live = S :: w.spanPool.live → OS.Grown .spanPool w.os os →
      Open g (insert S X) U (({ w with spanPool := pool, os := os } : Pages).write S (fun _ => {})) →
      (∀ i, S ∉ w.spanList i) → post S h (({ w with spanPool := pool, os := os } : Pages).write S (fun _ => {}))) :
    wp R newDescriptor h w post thrown := by
  simp only [newDescriptor,wp_seq]
  refine wp_zoom poolPart (I := ⟨fun t q a => t.2.allows 1 q a,fun m h' _ _ => m = none ∧ (h' = h ∨ h' = .spanPool :: h)⟩)
    (P := fun S h' t => h' = h ∧ t.1.Valid .spanPool spanBytes t.2 ∧ t.2.Valid ∧ OS.Grown .spanPool w.os t.2 ∧
      S ∉ w.spanPool.live ∧ t.1.live = S :: w.spanPool.live)
    (E := fun _ _ => False) (fun t q a ok => (watch.answers _ q a ok).1) ?_ ?_ (fun _ _ impossible => impossible.elim) ?_
  · rintro m h' t t' ⟨rfl,held⟩; exact watch.same guarded held
  · rintro S h' ⟨pool,os⟩ ⟨rfl,valid,system,grown,fresh,live⟩
    obtain ⟨opened',unlisted⟩ := opened.construct valid system grown fresh live
    exact ⟨watch.same guarded (.inl rfl),ends S pool os fresh live grown opened' unlisted⟩
  · refine ObjectPool.new_wp watch.free opened.pool opened.system (fun s q a ok => ok) (fun h' _ _ held _ _ => ⟨rfl,held⟩) ?_
    exact fun S pool os valid system grown fresh _ live => ⟨rfl,valid,system,grown,fresh,live⟩

/-- A store in the page map for a page that is being worked on. -/
theorem setPage_wp (watch : Watch R h g) (guarded : Guarded g w.idSpanMap) (opened : Open g X U w) {q S : Nat}
    (mem : q ∈ U) {post : Unit → List Mutex → Pages → Prop}
    (ends : ∀ w', Stored U w w' → w'.entry q = S → (∀ p, p ≠ q → w'.entry p = w.entry p) →
      Guarded g w'.idSpanMap → post () h w') :
    wp R (setPage q S) h w post thrown := by
  have outside : ∀ T s, g.used T = some s → s.n < npages → ∀ p ∈ s.pages, p ∉ U := fun T s used _ p inside => by
    have closed := opened.used T s used
    exact opened.clear T closed.1 p (by rw [closed.2.same]; exact inside)
  refine wp_zoom mapPart (I := ⟨fun t q a => t.2.allows 1 q a,
      fun m h' t t' => m = none ∧ h' = h ∧ Guarded g t.1 ∧ Guarded g t'.1 ∧ t.1.Persists t'.1⟩)
    (P := fun _ h' t => h' = h ∧ OS.Grown .mapNode w.os t.2 ∧ w.idSpanMap.Persists t.1 ∧
      (∀ p, t.1.get bits p = if p = q then S else w.entry p) ∧ t.1.Valid bits t.2 ∧ t.2.Valid ∧ Guarded g t.1)
    (E := fun _ _ => False) (fun t q a ok => (watch.answers _ q a ok).1) ?_ ?_ (fun _ _ impossible => impossible.elim) ?_
  · rintro m h' t t' ⟨rfl,rfl,before,after,persists⟩; exact watch.sees _ _ _ (.inl rfl) before after persists
  · rintro _ h' ⟨map',os'⟩ ⟨rfl,grown,persists,reads,valid,system,still⟩
    refine ends _ ⟨rfl,grown,persists,fun p out => ?_,system,valid⟩ ?_ (fun p ne => ?_) still
    · exact (reads p).trans (if_neg (fun same : p = q => out (same ▸ mem)))
    · exact (reads q).trans (if_pos rfl)
    · exact (reads p).trans (if_neg ne)
  · have small := (opened.page_bounds ((opened.cover q).mpr (.inl mem))).2
    have keeps : ∀ t, PageMap.Between bits w.idSpanMap w.os t → Guarded g t.1 := fun t between T s used short p inside => by
      rw [between.same p]; exact guarded T s used short p inside
    refine PageMap.set_wp (fun s q a ok => ok)
      (fun t t' before after persists => ⟨rfl,rfl,keeps t before,keeps t' after,persists⟩)
      small opened.map opened.system (fun t map' os' before step grown persists reads valid system => ?_)
    have still : Guarded g map' := fun T s used short p inside => by
      rw [reads p,if_neg (fun same : p = q => outside T s used short p inside (same ▸ mem))]
      exact guarded T s used short p inside
    exact ⟨⟨rfl,rfl,keeps t before,still,step⟩,rfl,grown,persists,reads,valid,system,still⟩

theorem setPages_wp (watch : Watch R h g) (guarded : Guarded g w.idSpanMap) (opened : Open g X U w)
    {p S count : Nat} (mem : ∀ q, p ≤ q → q < p + count → q ∈ U) {post : Unit → List Mutex → Pages → Prop}
    (ends : ∀ w', Stored U w w' → (∀ q, p ≤ q → q < p + count → w'.entry q = S) →
      (∀ q, q < p ∨ p + count ≤ q → w'.entry q = w.entry q) → Guarded g w'.idSpanMap → post () h w') :
    wp R (setPages p S count) h w post thrown := by
  induction count generalizing post with
  | zero =>
    refine ends w ⟨rfl,.refl _ _,.refl _,fun _ _ => rfl,opened.system,opened.map⟩
      (fun q low high => ?_) (fun _ _ => rfl) guarded
    omega
  | succ count ih =>
    simp only [setPages,wp_seq]
    refine ih (fun q low high => mem q low (by omega)) (fun w' stored inside outside guarded' => ?_)
    refine setPage_wp watch guarded' (opened.store stored) (mem _ (by omega) (by omega))
      (fun w'' stored' here others guarded'' => ?_)
    refine ends w'' (stored.trans stored') (fun q low high => ?_) (fun q out => ?_) guarded''
    · by_cases last : q = p + count
      · rw [last]; exact here
      · rw [others q last]; exact inside q low (by omega)
    · rw [others q (by omega)]; exact outside q (by omega)

/-! ### The paths of NewSpan -/

/-- The span `NewSpan` returns, `k` pages long, for its caller to mark as used. -/
structure Ready (g : Ledger) (k S : Nat) (w : Pages) : Prop where
  opened : Open g {S} (w.spans S).pages w
  live : S ∈ w.spanPool.live
  unlisted : ∀ i, S ∉ w.spanList i
  n : (w.spans S).n = k
  unused : (w.spans S).useCount = 0
  found : ∀ q ∈ (w.spans S).keys, w.entry q = S
  mapped : npages ≤ k → ⟨(w.spans S).pageId * 2 ^ pageShift,k * 2 ^ pageShift,.directSpan⟩ ∈ w.os.mapped ∧
    ((w.spans S).pageId * 2 ^ pageShift,k) ∈ w.os.returned
  left : ∀ q ∈ (w.spans S).pages, w.entry q ≠ 0 → q ∈ (w.spans S).keys ∨ q ∈ g.stale

/-- The caller marks the span as used. -/
theorem Ready.handOut {k S : Nat} (ready : Ready g k S w) (pos : 0 < k) {f : Span → Span}
    (pageId : (f (w.spans S)).pageId = (w.spans S).pageId) (n : (f (w.spans S)).n = (w.spans S).n)
    (isUse : (f (w.spans S)).isUse = true) : Settled (g.take S (f (w.spans S))) (w.write S f) := by
  have here : (w.write S f).spans S = f (w.spans S) := write_self w S f
  have pages : (f (w.spans S)).pages = (w.spans S).pages := by simp only [Span.pages,pageId,n]
  have keys : (f (w.spans S)).keys = (w.spans S).keys := by simp only [Span.keys,pages,n,pageId]
  have closed := (ready.opened.write (Set.mem_singleton S) f).close (k := g.take S (f (w.spans S)))
    (Set.mem_singleton S) ready.live (fun T ne => Ledger.take_other g _ ne) rfl rfl (by rw [here,pages])
    (.inl ⟨_,Ledger.take_self _ _ _,⟨here,isUse,by rw [n,ready.n]; exact pos,
      fun q key => ready.found q (by rw [← keys]; exact key),
      fun long => by rw [pageId,n,ready.n]; exact ready.mapped (by rw [← ready.n,← n]; exact long)⟩⟩)
    (fun i mem => absurd mem (ready.unlisted i)) (by rw [here,pages,keys]; exact ready.left)
  rwa [here,pages,Set.sdiff_self,Set.sdiff_self] at closed

/-- `S` is the first `k` pages of `L`, which was in a list; the rest of `L` is in the
    list of its new length, and no other span has changed. -/
structure CutOff (w : Pages) (k L S : Nat) (w' : Pages) : Prop where
  pageId : (w'.spans S).pageId = (w.spans L).pageId
  whole : (w.spans L).n = k → S = L
  rest : k < (w.spans L).n → S ∉ w.spanPool.live ∧ w'.spans L = { w.spans L with
    pageId := (w.spans L).pageId + k
    n := (w.spans L).n - k } ∧ L ∈ w'.spanPool.live ∧ ∀ i, L ∈ w'.spanList i ↔ i = (w.spans L).n - k
  kept : ∀ T ∈ w.spanPool.live, T ≠ L →
    T ∈ w'.spanPool.live ∧ w'.spans T = w.spans T ∧ ∀ i, T ∈ w'.spanList i ↔ T ∈ w.spanList i
  new : ∀ T ∈ w'.spanPool.live, T ∈ w.spanPool.live ∨ T = S
  mappings : w'.os.spanMappings = w.os.spanMappings

/-- `L` is a span of `NPAGES - 1` pages that the system has just granted at `base`,
    in its list; no other span has changed. -/
structure Refilled (w : Pages) (L base : Nat) (w' : Pages) : Prop where
  fresh : L ∉ w.spanPool.live
  span : w'.spans L = { pageId := base >>> pageShift, n := npages - 1 }
  kept : ∀ T ∈ w.spanPool.live, T ∈ w'.spanPool.live ∧ w'.spans T = w.spans T
  new : ∀ T ∈ w'.spanPool.live, T ∈ w.spanPool.live ∨ T = L
  lists : ∀ i, w'.spanList i = if i = npages - 1 then L :: w.spanList i else w.spanList i
  mappings : w'.os.spanMappings = ⟨base,(npages - 1) * 2 ^ pageShift,.refill⟩ :: w.os.spanMappings

/-- Where the span of `k` pages comes from: the shortest one listed that is long
    enough, or, if there is none, a refill. -/
inductive Supplied (w : Pages) (k S : Nat) (w' : Pages) : Prop
  | found (L : Nat) (listed : L ∈ w.spanList (w.spans L).n) (fits : k ≤ (w.spans L).n)
      (least : ∀ i, k ≤ i → i < (w.spans L).n → w.spanList i = []) (cut : CutOff w k L S w')
  | refilled (none : ∀ i, k ≤ i → i < npages → w.spanList i = []) (L base : Nat) (w₁ : Pages)
      (refilled : Refilled w L base w₁)
      (cut : CutOff w₁ k L S w')

theorem newDirect_wp (watch : Watch R h g) (guarded : Guarded g w.idSpanMap) (settled : Settled g w) {k : Nat}
    (long : npages ≤ k) {post : Nat → List Mutex → Pages → Prop}
    (ends : ∀ S w', Ready g k S w' → Guarded g w'.idSpanMap → post S h w') :
    wp R (newDirect k) h w post thrown := by
  have pos : 0 < k := lt_of_lt_of_le (by decide) long
  simp only [newDirect,wp_seq,wp_pure]
  refine systemAlloc_pages_wp watch guarded rfl (fun base granted aligned => ?_)
  obtain ⟨opened,fresh⟩ := settled.grant (show Site.directSpan.forSpans = true from rfl) granted aligned
  refine newDescriptor_wp (w := { w with os := w.os.grant .directSpan k base }) watch guarded opened
    (fun S pool os unused live grown opened' unlisted => ?_)
  set f : Span → Span := fun s => { s with pageId := base >>> pageShift, n := k } with hf
  have opened'' := opened'.write (Set.mem_insert S ∅) f
  set w₁ := (({ { w with os := w.os.grant .directSpan k base } with spanPool := pool, os := os } : Pages).write S
    (fun _ => {})).write S f with hw₁
  have fields : w₁.spans S = { pageId := base >>> pageShift, n := k } := by simp [hw₁,hf]
  have pages : (w₁.spans S).pages = {q | base >>> pageShift ≤ q ∧ q < base >>> pageShift + k} := by
    rw [fields]; rfl
  refine put_wp (w := ({ w with spanPool := pool, os := os } : Pages).write S (fun _ => {})) watch guarded ?_
  refine setPage_wp (w := w₁) watch guarded opened'' (.inr ⟨le_refl _,by omega⟩) (fun w₂ stored here others guarded' => ?_)
  have spans : w₂.spans S = w₁.spans S := by rw [stored.spans]
  refine ends S w₂ ⟨?_,?_,fun i => ?_,by rw [spans,fields],by rw [spans,fields],?_,fun _ => ?_,?_⟩ guarded'
  · have settled' := opened''.store stored
    rw [spans,pages]
    simpa only [Set.empty_union,insert_empty_eq] using settled'
  · rw [stored.spanPool]; simp [hw₁,Pages.write,live]
  · rw [stored.spanList]; exact unlisted i
  · rintro q ⟨_,short | first⟩
    · rw [spans,fields] at short; exact absurd long (by simpa using short)
    · rw [first,spans,fields]; exact here
  · rw [spans,fields]
    have shift : base >>> pageShift * 2 ^ pageShift = base := by
      rw [Nat.shiftRight_eq_div_pow]; exact Nat.div_mul_cancel aligned
    dsimp only
    rw [shift]
    exact ⟨stored.grown.mem (grown.mem List.mem_cons_self),stored.grown.2 _ (grown.2 _ List.mem_cons_self)⟩
  · intro q mem some
    rw [spans] at mem ⊢
    by_cases first : q = base >>> pageShift
    · exact .inl ⟨mem,.inr (by rw [first,fields])⟩
    · rw [others q first] at some
      rw [pages] at mem
      refine .inr ?_
      rcases settled.leftover q some with impossible | stale | ⟨T,closed,key⟩
      · exact impossible.elim
      · exact stale
      · exact absurd (settled.closed_pages closed key.1) (fresh q mem.1 mem.2)

/-- A span that can be taken from the front of list `i`. -/
structure Poppable (g : Ledger) (i S : Nat) (w : Pages) : Prop where
  linked : S ∈ w.spanList i
  live : S ∈ w.spanPool.live
  n : (w.spans S).n = i
  isUse : (w.spans S).isUse = false
  unused : (w.spans S).useCount = 0
  opened : Open g {S} (w.spans S).pages (w.erased S)
  unlisted : ∀ j, S ∉ (w.erased S).spanList j

theorem Open.poppable (settled : Settled g w) {i S : Nat} (linked : S ∈ w.spanList i) : Poppable g i S w := by
  obtain ⟨live,rest⟩ := settled.listed i S linked
  obtain ⟨none,n⟩ := rest (Set.notMem_empty S)
  have closed : w.Closed ∅ S := ⟨live,Set.notMem_empty S⟩
  have free := settled.free S closed none
  obtain ⟨opened,unlisted⟩ := settled.erase closed
  rw [Ledger.giveBack_none none,insert_empty_eq,Set.empty_union] at opened
  exact ⟨linked,live,n,free.isUse,free.unused,opened,unlisted⟩

theorem takeExact_wp (watch : Watch R h g) (guarded : Guarded g w.idSpanMap) {k S : Nat} (pop : Poppable g k S w)
    (short : k < npages) {post : Nat → List Mutex → Pages → Prop}
    (ends : ∀ w', Ready g k S w' → CutOff w k S S w' → Guarded g w'.idSpanMap → post S h w') :
    wp R (takeExact S) h w post thrown := by
  simp only [takeExact,wp_seq,wp_pure]
  refine erase_wp watch guarded short pop.linked (get_wp (w := w.erased S) watch guarded ?_)
  refine setPages_wp (w := w.erased S) watch guarded pop.opened (fun q low high => ⟨low,high⟩)
    (fun w' stored inside _ guarded' => ?_)
  have spans : w'.spans S = w.spans S := by rw [stored.spans]; rfl
  have entries : ∀ q ∈ (w'.spans S).pages, w'.entry q = S := fun q mem => by
    rw [spans] at mem; exact inside q mem.1 mem.2
  have ready : Ready g k S w' := by
    refine ⟨by rw [spans]; exact pop.opened.store stored,by rw [stored.spanPool]; exact pop.live,
      fun i => by rw [stored.spanList]; exact pop.unlisted i,by rw [spans,pop.n],by rw [spans]; exact pop.unused,
      fun q key => entries q key.1,fun long => absurd long (by omega),fun q mem _ => .inl ⟨mem,.inl ?_⟩⟩
    rw [spans,pop.n]; exact short
  refine ends w' ready ⟨by rw [spans],fun _ => rfl,fun longer => absurd longer (by rw [pop.n]; exact lt_irrefl k),
    fun T live ne => ⟨by rw [stored.spanPool]; exact live,by rw [stored.spans]; rfl,fun i => ?_⟩,
    fun T live => .inl (by rw [stored.spanPool] at live; exact live),stored.grown.spanMappings rfl⟩ guarded'
  rw [stored.spanList]
  exact List.mem_erase_of_ne ne

theorem split_wp (watch : Watch R h g) (guarded : Guarded g w.idSpanMap) {k i L : Nat} (pop : Poppable g i L w)
    (pos : 0 < k) (longer : k < i) (short : i < npages) {post : Nat → List Mutex → Pages → Prop}
    (ends : ∀ S w', Ready g k S w' → CutOff w k L S w' → Guarded g w'.idSpanMap → post S h w') :
    wp R (split k L) h w post thrown := by
  obtain ⟨linked,liveL,n,isUse,unused,opened₁,unlistedL⟩ := pop
  have none : g.used L = none := opened₁.open_unused (Set.mem_singleton L)
  set p := (w.spans L).pageId with hp
  simp only [split,wp_seq,wp_require]
  refine erase_wp watch guarded short linked (get_wp (w := w.erased L) watch guarded ?_)
  have larger : (w.erased L).spans L = w.spans L := rfl
  rw [larger]
  refine ⟨by omega,?_⟩
  refine newDescriptor_wp (w := w.erased L) watch guarded opened₁ (fun N pool os fresh live grown opened₂ unlistedN => ?_)
  have ne : L ≠ N := fun same => fresh (same ▸ liveL)
  set w₂ := ({ w.erased L with spanPool := pool, os := os } : Pages).write N (fun _ => {}) with hw₂
  have liveN' : N ∈ w₂.spanPool.live := by simp [hw₂,Pages.write,live]
  have liveL' : L ∈ w₂.spanPool.live := by simp [hw₂,Pages.write,live,erased,liveL]
  refine put_wp (w := w₂) watch guarded ?_
  set w₃ := w₂.write N (fun s => { s with pageId := p, n := k }) with hw₃
  refine put_wp (w := w₃) watch guarded ?_
  set w₄ := w₃.write L (fun s => { s with pageId := s.pageId + k, n := minus s.n k }) with hw₄
  have opened₄ : Open g (insert N {L}) (w.spans L).pages w₄ :=
    (opened₂.write (Set.mem_insert N _) _).write (Set.mem_insert_of_mem _ (Set.mem_singleton L)) _
  have subtract : minus i k = i - k := by
    have : npages = 129 := rfl
    rw [minus]; omega
  have w₂L : w₂.spans L = w.spans L := write_other _ _ ne
  have fieldsL : w₄.spans L = { w.spans L with pageId := p + k, n := i - k } := by
    rw [hw₄,write_self,hw₃,write_other _ _ ne,w₂L,n,subtract,hp]
  have fieldsN : w₄.spans N = { pageId := p, n := k } := by
    rw [hw₄,write_other _ _ ne.symm,hw₃,write_self,hw₂,write_self]
  refine get_wp (w := w₄) watch guarded ?_
  rw [fieldsL]
  dsimp only
  rw [if_pos (by omega)]
  simp only [wp_seq,wp_pure]
  refine pushFront_wp (w := w₄) watch guarded ?_
  obtain ⟨opened₅,listedL⟩ := opened₄.push (S := L) (Set.mem_insert_of_mem _ (Set.mem_singleton L)) liveL' unlistedL (i - k)
  have unlistedN₅ : ∀ j, N ∉ (w₄.pushed (i - k) L).spanList j := by
    intro j mem
    rw [pushed_list] at mem
    split_ifs at mem
    · rcases List.mem_cons.mp mem with equal | old
      · exact ne equal.symm
      · exact unlistedN _ old
    · exact unlistedN _ mem
  set w₅ := w₄.pushed (i - k) L with hw₅
  have inside : ∀ q, p ≤ q → q < p + i → q ∈ (w.spans L).pages := fun q low high => ⟨low,by rw [n]; exact high⟩
  have bound := opened₅.page_bounds ((opened₅.cover (p + i - 1)).mpr (.inl (inside _ (by omega) (by omega))))
  have lastPage : minus (p + k + (i - k)) 1 = p + i - 1 := by
    have : (2 : Nat) ^ bits = 2 ^ 35 := rfl
    rw [minus]; omega
  rw [lastPage]
  refine setPage_wp (w := w₅) watch guarded opened₅ (inside _ (by omega) (by omega))
    (fun w₆ stored₆ first others₆ guarded₆ => ?_)
  refine setPage_wp watch guarded₆ (opened₅.store stored₆) (inside _ (by omega) (by omega))
    (fun w₇ stored₇ last others₇ guarded₇ => ?_)
  have stored₅₇ := stored₆.trans stored₇
  refine setPages_wp watch guarded₇ (opened₅.store stored₅₇) (fun q low high => inside q low (by omega))
    (fun w₈ stored₈ entriesN others₈ guarded₈ => ?_)
  have stored := stored₅₇.trans stored₈
  have spansL : w₈.spans L = { w.spans L with pageId := p + k, n := i - k } := by rw [stored.spans]; exact fieldsL
  have spansN : w₈.spans N = { pageId := p, n := k } := by rw [stored.spans]; exact fieldsN
  have pagesL : (w₈.spans L).pages = {q | p + k ≤ q ∧ q < p + k + (i - k)} := by rw [spansL]; rfl
  have pagesN : (w₈.spans N).pages = {q | p ≤ q ∧ q < p + k} := by rw [spansN]; rfl
  have firstL : w₈.entry (p + k) = L := by
    rw [others₈ _ (.inr (le_refl _))]
    by_cases same : p + k = p + i - 1
    · rw [same]; exact last
    · rw [others₇ _ same]; exact first
  have lastL : w₈.entry (p + i - 1) = L := by rw [others₈ _ (.inr (by omega))]; exact last
  have freeL : w₈.Free L := by
    constructor <;> rw [spansL]
    · exact isUse
    · dsimp only; omega
    · dsimp only; omega
    · exact unused
    · rw [stored.spanList]; exact (listedL _).mpr rfl
    · exact firstL
    · rw [show p + k + (i - k) - 1 = p + i - 1 by omega]; exact lastL
  have closedL := (opened₅.store stored).close (k := g) (S := L) (Set.mem_insert_of_mem _ (Set.mem_singleton L))
    (by rw [stored.spanPool]; exact liveL') (fun _ _ => rfl) rfl rfl
    (fun q mem => by rw [pagesL] at mem; exact inside q (by have := mem.1; omega) (by have := mem.2; omega))
    (.inr ⟨none,freeL⟩)
    (fun j mem => ⟨none,by rw [stored.spanList] at mem; rw [spansL]; exact ((listedL j).mp mem).symm⟩)
    (fun q mem _ => .inl ⟨mem,.inl freeL.short⟩)
  have cut : CutOff w k L N w₈ := by
    refine ⟨by rw [spansN],fun whole => absurd whole (by omega),fun _ => ⟨fresh,by rw [spansL,n],?_,fun j => ?_⟩,
      fun T live' other => ⟨?_,?_,fun j => ?_⟩,fun T live' => ?_,?_⟩
    · rw [stored.spanPool]; exact liveL'
    · rw [stored.spanList,n]; exact listedL j
    · rw [stored.spanPool,show w₅.spanPool.live = N :: w.spanPool.live from live]; exact List.mem_cons_of_mem _ live'
    · have new : T ≠ N := fun same => fresh (same ▸ live')
      rw [stored.spans,show w₅.spans T = w₄.spans T from rfl,hw₄,write_other _ _ other,hw₃,
        write_other _ _ new,hw₂,write_other _ _ new]
      rfl
    · rw [stored.spanList,hw₅,pushed_list]
      split_ifs with same
      · rw [List.mem_cons]
        exact ⟨fun mem => (List.mem_erase_of_ne other).mp (mem.resolve_left other),fun mem =>
          .inr ((List.mem_erase_of_ne other).mpr mem)⟩
      · exact List.mem_erase_of_ne other
    · rw [stored.spanPool] at live'
      rw [show w₅.spanPool.live = N :: w.spanPool.live from live] at live'
      rcases List.mem_cons.mp live' with new | old
      · exact .inr new
      · exact .inl old
    · exact (stored.grown.spanMappings rfl).trans (grown.spanMappings rfl)
  refine ends N w₈ ⟨?_,by rw [stored.spanPool]; exact liveN',fun j => by rw [stored.spanList]; exact unlistedN₅ j,
    by rw [spansN],by rw [spansN],fun q key => entriesN q (by have := key.1; rw [pagesN] at this; exact this.1)
      (by have := key.1; rw [pagesN] at this; exact this.2),fun long => absurd long (by omega),
    fun q mem _ => .inl ⟨mem,.inl (by rw [spansN]; dsimp only; omega)⟩⟩ cut guarded₈
  have open_set : (insert N {L} : Set Nat) \ {L} = {N} := by
    ext T; simp only [Set.mem_sdiff,Set.mem_insert_iff,Set.mem_singleton_iff]
    constructor
    · rintro ⟨new | old,other⟩
      · exact new
      · exact absurd old other
    · rintro rfl; exact ⟨.inl rfl,ne.symm⟩
  have open_pages : (w.spans L).pages \ (w₈.spans L).pages = (w₈.spans N).pages := by
    ext q; rw [pagesL,pagesN]
    simp only [Set.mem_sdiff,Span.pages,Set.mem_ofPred_eq,n,← hp]
    omega
  rwa [open_set,open_pages] at closedL

/-- The search takes from the first list that is not empty. -/
theorem searchLarger_wp (watch : Watch R h g) (guarded : Guarded g w.idSpanMap) {k : Nat} (pos : 0 < k)
    {lengths : List Nat} (range : ∀ i ∈ lengths, k < i ∧ i < npages) (ascending : lengths.Pairwise (· < ·))
    (pop : ∀ i ∈ lengths, ∀ L ∈ w.spanList i, Poppable g i L w) {post : Option Nat → List Mutex → Pages → Prop}
    (found : ∀ S w' i L, i ∈ lengths → L ∈ w.spanList i → (∀ j ∈ lengths, j < i → w.spanList j = []) → Ready g k S w' →
      CutOff w k L S w' → Guarded g w'.idSpanMap → post (some S) h w')
    (none : (∀ i ∈ lengths, w.spanList i = []) → post none h w) :
    wp R (searchLarger k lengths) h w post thrown := by
  induction lengths with
  | nil => exact none (by simp)
  | cons i longer ih =>
    obtain ⟨first,later⟩ := List.pairwise_cons.mp ascending
    simp only [searchLarger,wp_seq,wp_read]
    refine ⟨watch.same guarded (.inl rfl),?_⟩
    cases list : w.spanList i with
    | nil =>
      refine ih (fun j mem => range j (List.mem_cons_of_mem _ mem)) later (fun j mem => pop j (List.mem_cons_of_mem _ mem))
        (fun S w' j L mem linked shorter => found S w' j L (List.mem_cons_of_mem _ mem) linked (fun j' mem' less => ?_))
        (fun empty => none ?_)
      · rcases List.mem_cons.mp mem' with rfl | mem'
        · exact list
        · exact shorter j' mem' less
      · intro j mem
        rcases List.mem_cons.mp mem with rfl | later
        · exact list
        · exact empty j later
    | cons L _ =>
      obtain ⟨longer,short⟩ := range i (by simp)
      have linked : L ∈ w.spanList i := by rw [list]; simp
      simp only [wp_seq,wp_pure]
      refine split_wp watch guarded (pop i (by simp) L linked) pos longer short
        (fun S w' ready cut guarded' => found S w' i L List.mem_cons_self linked (fun j mem less => ?_) ready cut guarded')
      rcases List.mem_cons.mp mem with rfl | mem
      · exact absurd less (lt_irrefl j)
      · exact absurd less (by have := first j mem; omega)

/-- After a refill the list of the longest spans starts with a span that can be
    taken. Its entries are not set before it is. -/
theorem refill_wp (watch : Watch R h g) (guarded : Guarded g w.idSpanMap) (settled : Settled g w)
    {post : Unit → List Mutex → Pages → Prop}
    (ends : ∀ S base w', Poppable g (npages - 1) S w' → Refilled w S base w' → Guarded g w'.idSpanMap → post () h w') :
    wp R refill h w post thrown := by
  simp only [refill,wp_seq]
  refine systemAlloc_pages_wp watch guarded rfl (fun base granted aligned => ?_)
  obtain ⟨opened,fresh⟩ := settled.grant (show Site.refill.forSpans = true from rfl) granted aligned
  refine newDescriptor_wp (w := { w with os := w.os.grant .refill (npages - 1) base }) watch guarded opened
    (fun S pool os unused live grown opened' unlisted => ?_)
  set f : Span → Span := fun s => { s with pageId := base >>> pageShift, n := npages - 1 } with hf
  set w₁ := ({ { w with os := w.os.grant .refill (npages - 1) base } with spanPool := pool, os := os } : Pages).write S
    (fun _ => {}) with hw₁
  refine put_wp (w := w₁) watch guarded ?_
  have opened₂ := opened'.write (Set.mem_insert S ∅) f
  have fields : (w₁.write S f).spans S = { pageId := base >>> pageShift, n := npages - 1 } := by simp [hw₁,hf]
  have lists : ∀ i, ((w₁.write S f).pushed (npages - 1) S).spanList i =
      if i = npages - 1 then S :: w.spanList i else w.spanList i := fun i => pushed_list _ _ _ _
  have restored : ((w₁.write S f).pushed (npages - 1) S).erased S = w₁.write S f := by
    have same : (fun i => (((w₁.write S f).pushed (npages - 1) S).spanList i).erase S) = w.spanList := by
      funext i
      rw [lists i]
      split_ifs with last
      · exact List.erase_cons_head S _
      · exact List.erase_of_not_mem (unlisted i)
    rw [erased,same]; rfl
  refine pushFront_wp (w := w₁.write S f) watch guarded ?_
  have ne_of : ∀ T ∈ w.spanPool.live, T ≠ S := fun T old same => unused (same ▸ old)
  have refilled : Refilled w S base ((w₁.write S f).pushed (npages - 1) S) := by
    refine ⟨unused,fields,fun T old => ⟨by simp [hw₁,pushed,Pages.write,live,old],?_⟩,fun T old => ?_,lists,?_⟩
    · rw [show ((w₁.write S f).pushed (npages - 1) S).spans T = (w₁.write S f).spans T from rfl,
        write_other _ _ (ne_of T old),
        hw₁,write_other _ _ (ne_of T old)]
    · rw [show ((w₁.write S f).pushed (npages - 1) S).spanPool.live = S :: w.spanPool.live from live] at old
      exact (List.mem_cons.mp old).symm
    · exact (grown.spanMappings rfl).trans (List.filter_cons_of_pos rfl)
  refine ends S base _ ⟨by rw [lists,if_pos rfl]; simp,by simp [hw₁,pushed,Pages.write,live],
    congrArg Span.n fields,congrArg Span.isUse fields,congrArg Span.useCount fields,?_,?_⟩ refilled guarded
  · rw [restored,show ((w₁.write S f).pushed (npages - 1) S).spans S = (w₁.write S f).spans S from rfl,fields]
    rw [Set.empty_union,insert_empty_eq] at opened₂
    exact opened₂
  · rw [restored]; exact unlisted

/-- One round of `NewSpan` for a span from the lists: a span, unless no list has
    one as long as `k`. -/
theorem newSpan_round (watch : Watch R h g) (guarded : Guarded g w.idSpanMap) {rounds k : Nat} (pos : 0 < k)
    (short : k < npages) (pop : ∀ i, k ≤ i → i < npages → ∀ L ∈ w.spanList i, Poppable g i L w)
    {post : Nat → List Mutex → Pages → Prop}
    (ends : ∀ S w' L, L ∈ w.spanList (w.spans L).n → k ≤ (w.spans L).n →
    (∀ i, k ≤ i → i < (w.spans L).n → w.spanList i = []) →
      Ready g k S w' → CutOff w k L S w' → Guarded g w'.idSpanMap → post S h w')
    (again : (∀ i, k ≤ i → i < npages → w.spanList i = []) →
      wp R (do refill; newSpan rounds k) h w post thrown) :
    wp R (newSpan (rounds + 1) k) h w post thrown := by
  simp only [newSpan,wp_seq,wp_require]
  refine ⟨pos,?_⟩
  rw [if_neg (by omega)]
  simp only [wp_seq,wp_read]
  refine ⟨watch.same guarded (.inl rfl),?_⟩
  have longer : ∀ i ∈ List.range' (k + 1) (npages - (k + 1)), k < i ∧ i < npages := fun i mem => by
    have := List.mem_range'_1.mp mem; omega
  cases exact' : w.spanList k with
  | cons S _ =>
    have linked : S ∈ w.spanList k := by rw [exact']; simp
    have poppable := pop k (le_refl _) short S linked
    refine takeExact_wp watch guarded poppable short (fun w' ready cut guarded' => ends S w' S ?_ ?_ ?_ ready cut guarded')
    · rw [poppable.n]; exact linked
    · rw [poppable.n]
    · intro i low high; rw [poppable.n] at high; omega
  | nil =>
    simp only [wp_seq]
    refine searchLarger_wp watch guarded pos longer List.pairwise_lt_range'
      (fun i mem => pop i (longer i mem).1.le (longer i mem).2)
      (fun S w' i L mem linked shorter ready cut guarded' => ?_) (fun empty => again (fun i low high => ?_))
    · have n := (pop i (longer i mem).1.le (longer i mem).2 L linked).n
      refine ends S w' L (by rw [n]; exact linked) (by rw [n]; exact (longer i mem).1.le)
        (fun j low high => ?_) ready cut guarded'
      rw [n] at high
      by_cases same : j = k
      · rw [same]; exact exact'
      · exact shorter j (List.mem_range'_1.mpr (by have := longer i mem; omega)) high
    · by_cases same : i = k
      · rw [same]; exact exact'
      · exact empty i (List.mem_range'_1.mpr (by omega))

/-- `NewSpan` for a span shorter than `NPAGES` pages, on a system that never fails. -/
theorem newSpan_short_wp (watch : Watch R h g) (guarded : Guarded g w.idSpanMap) (settled : Settled g w)
    {rounds k : Nat} (pos : 0 < k) (short : k < npages) (enough : 2 ≤ rounds) {post : Nat → List Mutex → Pages → Prop}
    (ends : ∀ S w', Ready g k S w' → Supplied w k S w' → Guarded g w'.idSpanMap → post S h w') :
    wp R (newSpan rounds k) h w post thrown := by
  obtain ⟨rounds,rfl⟩ : ∃ r, rounds = r + 2 := ⟨rounds - 2,by omega⟩
  refine newSpan_round watch guarded pos short (fun i _ _ L mem => settled.poppable mem)
    (fun S w' L listed fits least ready cut => ends S w' ready (.found L listed fits least cut)) (fun empty => ?_)
  rw [wp_seq]
  refine refill_wp watch guarded settled (fun N base w₁ pop refilled guarded' => ?_)
  refine newSpan_round watch guarded' pos short (fun i low high L mem => ?_)
    (fun S w' L listed fits _ ready cut => ends S w' ready (.refilled empty N base w₁ refilled ?_)) (fun empty' => ?_)
  -- Only the refill's span is long enough, and it is there.
  · rw [refilled.lists i] at mem
    split_ifs at mem with last
    · rw [empty i low high,List.mem_singleton] at mem
      rw [mem,last]; exact pop
    · rw [empty i low high] at mem; cases mem
  · rw [refilled.lists] at listed
    split_ifs at listed with last
    · rw [last,empty (npages - 1) (by omega) (by decide),List.mem_singleton] at listed
      exact listed ▸ cut
    · have old := settled.poppable listed
      have bound := (settled.free L ⟨old.live,Set.notMem_empty L⟩ (old.opened.open_unused (Set.mem_singleton L))).short
      rw [old.n] at bound
      rw [empty _ fits bound] at listed; cases listed
  · have none := empty' (npages - 1) (by omega) (by decide)
    rw [refilled.lists,if_pos rfl] at none; cases none

/-- `NewSpan` on a system that never fails. -/
theorem newSpan_wp (watch : Watch R h g) (guarded : Guarded g w.idSpanMap) (settled : Settled g w)
    {rounds k : Nat} (pos : 0 < k) (enough : 2 ≤ rounds) {post : Nat → List Mutex → Pages → Prop}
    (ends : ∀ S w', Ready g k S w' → Guarded g w'.idSpanMap → post S h w') :
    wp R (newSpan rounds k) h w post thrown := by
  by_cases long : npages ≤ k
  · obtain ⟨rounds,rfl⟩ : ∃ r, rounds = r + 1 := ⟨rounds - 1,by omega⟩
    simp only [newSpan,wp_seq,wp_require]
    refine ⟨pos,?_⟩
    rw [if_pos long]
    exact newDirect_wp watch guarded settled long ends
  · exact newSpan_short_wp watch guarded settled pos (by omega) enough (fun S w' ready _ => ends S w' ready)

end
end Pages
end TcAlloc
