import TcAlloc.PageRuns

/-!
What holds of the page cache in every run: how its state represents the spans,
which spans its merges absorb, and what it gives back to the system.
-/
namespace TcAlloc
namespace Pages

/-! ### The representation -/

/-- What the lists, the descriptors and the page map say about the pages that
    were obtained, in terms of the state alone. -/
structure Represents (w : Pages) : Prop where
  /-- The spans, free and in use, partition the pages obtained. -/
  partition : ∀ q, q ∈ w.os.obtained ↔ ∃ S ∈ w.spanPool.live, q ∈ (w.spans S).pages
  disjoint : ∀ S ∈ w.spanPool.live, ∀ T ∈ w.spanPool.live, S ≠ T → ∀ q ∈ (w.spans S).pages, q ∉ (w.spans T).pages
  nonempty : ∀ S ∈ w.spanPool.live, 0 < (w.spans S).n
  /-- A span is free exactly if it is in one list, that of its length. -/
  listed : ∀ S ∈ w.spanPool.live, (w.spans S).isUse = false ↔ ∃ i, S ∈ w.spanList i
  length : ∀ i, ∀ S ∈ w.spanList i, S ∈ w.spanPool.live ∧ i = (w.spans S).n ∧ 1 ≤ i ∧ i ≤ npages - 1
  once : ∀ i, (w.spanList i).Nodup
  /-- The page map leads to a free span from its first and its last page, to a
      span in use that can be merged from every page, to a longer one from its first. -/
  freeFirst : ∀ S ∈ w.spanPool.live, (w.spans S).isUse = false → w.entry (w.spans S).pageId = S
  freeLast : ∀ S ∈ w.spanPool.live, (w.spans S).isUse = false → w.entry ((w.spans S).pageId + (w.spans S).n - 1) = S
  usedAll : ∀ S, w.InUse S → (w.spans S).n < npages → ∀ q ∈ (w.spans S).pages, w.entry q = S
  usedFirst : ∀ S, w.InUse S → w.entry (w.spans S).pageId = S
  /-- No entry is set for a page that was never obtained. -/
  null : ∀ q, q ∉ w.os.obtained → w.entry q = 0

theorem Open.represents {g : Ledger} {w : Pages} (settled : Settled g w) (clean : g.stale = ∅) : Represents w := by
  have closed : ∀ S, S ∈ w.spanPool.live → w.Closed ∅ S := fun S live => ⟨live,Set.notMem_empty S⟩
  have free : ∀ S ∈ w.spanPool.live, (w.spans S).isUse = false → g.used S = none ∧ w.Free S := by
    intro S live isUse
    rcases settled.closed_cases (closed S live) with ⟨s,used,facts⟩ | free
    · rw [facts.same,facts.isUse] at isUse; cases isUse
    · exact free
  have used : ∀ S, w.InUse S → w.Used S (w.spans S) := by
    intro S inUse
    obtain ⟨s,used⟩ := (settled.inUse_iff S).mp inUse
    have facts := (settled.used S s used).2
    rw [facts.same]; exact facts
  have keys : ∀ q, w.entry q ≠ 0 → ∃ S, w.Closed ∅ S ∧ q ∈ (w.spans S).keys := by
    intro q some
    rcases settled.leftover q some with impossible | stale | found
    · exact impossible.elim
    · rw [clean] at stale; exact stale.elim
    · exact found
  refine ⟨fun q => ?_,fun S hS T hT => settled.apart S T (closed S hS) (closed T hT),fun S live => ?_,
    fun S live => ⟨fun isUse => ?_,?_⟩,
    fun i S mem => ?_,settled.once,fun S live isUse => (free S live isUse).2.first,
    fun S live isUse => (free S live isUse).2.last,
    fun S inUse short q mem => (used S inUse).found q ⟨mem,.inl short⟩,fun S inUse =>
    (used S inUse).found _ ?_,fun q none => ?_⟩
  · rw [settled.cover q]
    constructor
    · rintro (impossible | ⟨S,hS,mem⟩)
      · exact impossible.elim
      · exact ⟨S,hS.1,mem⟩
    · rintro ⟨S,live,mem⟩
      exact .inr ⟨S,closed S live,mem⟩
  · rcases settled.closed_cases (closed S live) with ⟨s,_,facts⟩ | ⟨_,facts⟩
    · rw [facts.same]; exact facts.pos
    · exact facts.pos
  · exact ⟨_,(free S live isUse).2.linked⟩
  · rintro ⟨i,mem⟩
    exact (settled.free S (closed S live) ((settled.listed i S mem).2 (Set.notMem_empty S)).1).isUse
  · obtain ⟨live,rest⟩ := settled.listed i S mem
    obtain ⟨none,n⟩ := rest (Set.notMem_empty S)
    have facts := settled.free S (closed S live) none
    have pos := facts.pos
    have short := facts.short
    exact ⟨live,n.symm,by omega,by omega⟩
  · exact ⟨⟨le_refl _,by have := (used S inUse).pos; omega⟩,.inr rfl⟩
  · by_contra some
    obtain ⟨S,hS,key⟩ := keys q some
    exact none (settled.closed_pages hS key.1)

/-- The page cache represents its spans in every state between calls, as long as
    no span too long to be merged has been released, where the system never fails and
    answers in whole pages. -/
theorem reaches_represents (b : Build) {w : Pages} (reached : Reaches b (OS.allows (2 ^ pageShift)) ShortCall w) :
    Represents w := by
  obtain ⟨g,between,clean⟩ := reached.clean (fun _ _ _ ok => OS.allows_promises ok)
  exact between.settled.represents clean

/-- A span of one page from a refill, a long span, and the first one given back. -/
def shortCalls : List (Call × List (Option Nat)) :=
  [(.newSpan 1,[some (1500 * 8192),some (300 * 8192),some (400 * 8192),some (500 * 8192)]),
    (.newSpan 200,[some (1000 * 8192)]),(.release (300 * 8192 + 64),[])]

theorem shortCalls_represents :
    Represents ((callAll .standard (answered 8192) (fun w c => decide (ShortCall w c)) start shortCalls).get
    (by decide +kernel)) :=
  reaches_represents .standard (callAll_reaches (answered 8192) (fun w c => decide (ShortCall w c))
    (fun _ _ _ => of_decide_eq_true) (fun _ _ => of_decide_eq_true) .start (Option.some_get _).symm)

/-! ### Merging -/

/-- A span is absorbed only if its descriptor is allocated, free, linked in the
    list of its length, and next to the span being released. -/
def Absorbs (w : Pages) : Event → Prop
  | .absorbLeft span it => it ∈ w.spanPool.live ∧ ((w.spans it).isUse = false ∧ it ∈ w.spanList (w.spans it).n) ∧
      (w.spans it).pageId + (w.spans it).n = (w.spans span).pageId
  | .absorbRight span it => it ∈ w.spanPool.live ∧ ((w.spans it).isUse = false ∧ it ∈ w.spanList (w.spans it).n) ∧
      (w.spans it).pageId = (w.spans span).pageId + (w.spans span).n
  | .systemFree _ _ => True

instance (w : Pages) (e : Event) : Decidable (w.Absorbs e) :=
  match e with
  | .absorbLeft _ _ => inferInstanceAs (Decidable (_ ∧ _))
  | .absorbRight _ _ => inferInstanceAs (Decidable (_ ∧ _))
  | .systemFree _ _ => inferInstanceAs (Decidable True)

theorem Sound.absorbs {w : Pages} {e : Event} (sound : Sound w e) : w.Absorbs e := by
  cases e with
  | absorbLeft span it => exact ⟨sound.1,⟨sound.2.1,sound.2.2.1⟩,sound.2.2.2⟩
  | absorbRight span it => exact ⟨sound.1,⟨sound.2.1,sound.2.2.1⟩,sound.2.2.2⟩
  | systemFree ptr kpage => trivial

/-- What a call passes is sound, in runs whose releases are quiet. -/
theorem Reaches.sound {b : Build} {answers : Answers} (promised : ∀ os q a, answers os q a → os.promises q a)
    {may : Pages → Call → Prop} (quiet : ∀ w c, may w c → QuietCall w c) {w w' : Pages} (reached : Reaches b answers may w)
    {c : Call} (legal : c.Legal w) (ok : may w c) {e : Event} (passes : Passes b answers w c e w') : Sound w' e := by
  obtain ⟨g,between⟩ := reached.between promised quiet
  obtain ⟨k,h,run⟩ := passes
  exact (wp_run (R := callRules answers) run (Call.code_wp promised between legal (quiet w c ok))).1 e rfl

/-- In runs whose releases are quiet the merges absorb free neighbours only. -/
theorem merges_absorb (b : Build) {w w' : Pages} {c : Call} {e : Event}
    (reached : Reaches b (OS.allows (2 ^ pageShift)) QuietCall w) (legal : c.Legal w) (quiet : QuietCall w c)
    (passes : Passes b (OS.allows (2 ^ pageShift)) w c e w') : w'.Absorbs e :=
  (reached.sound (fun _ _ _ ok => OS.allows_promises ok) (fun _ _ quiet => quiet) legal quiet passes).absorbs

/-- A free span of 127 pages after a span of one page. -/
def splitOnce : Pages :=
  (callAll .standard (answered 8192) (fun _ c => c == .newSpan 1) start (shortCalls.take 1)).get (by decide +kernel)

theorem splitOnce_reached {answers : Answers} (sound : ∀ os q a, os.allows (2 ^ pageShift) q a → answers os q a)
    {may : Pages → Call → Prop} (new : ∀ w, may w (.newSpan 1)) : Reaches .standard answers may splitOnce :=
  callAll_reaches (answered 8192) (fun _ c => c == .newSpan 1) (fun os q a ok => sound os q a (of_decide_eq_true ok))
    (fun w _ only => eq_of_beq only ▸ new w) .start (Option.some_get _).symm

theorem merges_absorb_right : ∃ w w' span it, Passes .standard (OS.allows (2 ^ pageShift)) w
    (.release span) (.absorbRight span it) w' ∧
    w'.Absorbs (.absorbRight span it) := by
  have reached : Reaches .standard (OS.allows (2 ^ pageShift)) ShortCall splitOnce :=
    splitOnce_reached (fun _ _ _ ok => ok) (fun _ => trivial)
  obtain ⟨g,between,clean⟩ := reached.clean (fun _ _ _ ok => OS.allows_promises ok)
  obtain ⟨e,w',passes,same⟩ := exec_passes (b := .standard) (OS.allows (2 ^ pageShift)) (answered 8192) splitOnce
    (.release (300 * 8192 + 64)) [] (fun e _ => decide (e = .absorbRight (300 * 8192 + 64) (300 * 8192)))
    (fun _ _ _ => of_decide_eq_true) (by decide +kernel)
  rw [of_decide_eq_true same] at passes
  exact ⟨splitOnce,w',_,_,passes,merges_absorb (c := .release (300 * 8192 + 64)) .standard
    (splitOnce_reached (fun _ _ _ ok => ok) (fun _ => trivial)) (by decide +kernel)
    (fun _ => between.settled.quiet clean _) passes⟩

/-- A long span is returned to the system, its descriptor becomes that of the free
    pages of a refill elsewhere, and another refill ends where the long span was. -/
def reusedCalls : List (Call × List (Option Nat)) :=
  [(.newSpan 129,[some (1000 * 8192),some (300 * 8192),some (400 * 8192),some (500 * 8192)]),
    (.release (300 * 8192),[]),
    (.newSpan 3,[some (1500 * 8192)]),
    (.newSpan 126,[some (872 * 8192)]),
    (.newSpan 2,[])]

def reused : Pages := (callAll .standard (answered 8192) (fun _ _ => true) start reusedCalls).get (by decide +kernel)

theorem reused_reached {may : Pages → Call → Prop} (all : ∀ w c, may w c) :
    Reaches .standard (OS.allows (2 ^ pageShift)) may reused :=
  callAll_reaches (answered 8192) (fun _ _ => true) (fun _ _ _ => of_decide_eq_true) (fun w c _ => all w c) .start
    (Option.some_get _).symm

/-- The release of the two pages before it absorbs the free span elsewhere. -/
theorem merges_absorb_other_pages : ∃ w c e w', Reaches .standard (OS.allows (2 ^ pageShift)) (fun _ _ => True) w ∧
    c.Legal w ∧ Passes .standard (OS.allows (2 ^ pageShift)) w c e w' ∧ ¬ w'.Absorbs e := by
  obtain ⟨e,w',passes,bad⟩ := exec_passes (b := .standard) (OS.allows (2 ^ pageShift)) (answered 8192) reused
    (.release (300 * 8192 + 128)) [] (fun e w' => decide (¬ w'.Absorbs e))
    (fun _ _ _ => of_decide_eq_true) (by decide +kernel)
  exact ⟨reused,_,e,w',reused_reached (fun _ _ => trivial),by decide +kernel,passes,of_decide_eq_true bad⟩

/-! ### Mappings -/

/-- The byte belongs to a range obtained for spans and not given back. -/
def Backed (w : Pages) (x : Nat) : Prop := ∃ m ∈ w.os.mapped, m.site.forSpans = true ∧ m.base ≤ x ∧ x < m.base + m.len

instance (w : Pages) (x : Nat) : Decidable (w.Backed x) := inferInstanceAs (Decidable (∃ m ∈ w.os.mapped, _))

/-- The bytes of the spans in use are backed. -/
def SpansBacked (w : Pages) : Prop :=
  ∀ S, w.InUse S → ∀ x, (w.spans S).pageId <<< pageShift ≤ x → x < ((w.spans S).pageId + (w.spans S).n) <<< pageShift →
  w.Backed x

/-- A range is given back with the base and the page count that `SystemAlloc`
    returned it with, and only once. -/
def GivesBack (w : Pages) : Event → Prop
  | .systemFree ptr kpage => (ptr,kpage) ∈ w.os.returned ∧ ∃ m ∈ w.os.mapped, m.base = ptr ∧ m.len = kpage * 2 ^ pageShift
  | _ => True

instance (w : Pages) (e : Event) : Decidable (w.GivesBack e) :=
  match e with
  | .systemFree _ _ => inferInstanceAs (Decidable (_ ∧ _))
  | .absorbLeft _ _ => inferInstanceAs (Decidable True)
  | .absorbRight _ _ => inferInstanceAs (Decidable True)

/-- The answers of a system with pages of `osPage` bytes whose bases for spans
    happen to be multiples of 8 KB. -/
def wholePages (osPage : Nat) : Answers := fun os q a =>
  os.allows osPage q a ∧ (q.site.forSpans = true → ∀ base, a = some base → 2 ^ pageShift ∣ base)

theorem wholePages_promises {osPage : Nat} {os : OS} {q : Request} {a : Option Nat} (ok : wholePages osPage os q a) :
    os.promises q a := by
  obtain ⟨allowed,whole⟩ := ok
  cases a with
  | none => exact allowed.elim
  | some base => exact ⟨⟨allowed.1,Nat.one_dvd _,allowed.2.2⟩,whole⟩

/-- The pages obtained are backed to their last byte. -/
theorem Open.backed {g : Ledger} {X U : Set Nat} {w : Pages} (opened : Open g X U w) {q x : Nat} (mem : q ∈ w.os.obtained)
    (low : q * 2 ^ pageShift ≤ x) (high : x < (q + 1) * 2 ^ pageShift) : w.Backed x := by
  obtain ⟨m,mapped,span,first,last⟩ := mem
  obtain ⟨⟨p,base⟩,⟨k,len⟩⟩ := opened.aligned m mapped span
  have shift : (2 : Nat) ^ pageShift = 8192 := rfl
  rw [shift] at low high first last base len
  exact ⟨m,mapped,span,by omega,by omega⟩

/-- Where the bases for spans are multiples of 8 KB and releases are quiet, the
    spans in use are backed and ranges are given back as they were obtained. -/
theorem spans_backed (b : Build) (osPage : Nat) {w : Pages} (reached : Reaches b (wholePages osPage) QuietCall w) :
    w.SpansBacked ∧ ∀ c e w', c.Legal w → QuietCall w c → Passes b (wholePages osPage) w c e w' → w'.GivesBack e := by
  have promised : ∀ os q a, wholePages osPage os q a → os.promises q a := fun _ _ _ => wholePages_promises
  refine ⟨fun S inUse x low high => ?_,fun c e w' legal quiet passes => ?_⟩
  · obtain ⟨g,between⟩ := reached.between promised (fun _ _ quiet => quiet)
    obtain ⟨s,used⟩ := (between.settled.inUse_iff S).mp inUse
    have closed := (between.settled.used S s used).1
    rw [Nat.shiftLeft_eq] at low high
    have shift : (2 : Nat) ^ pageShift = 8192 := rfl
    rw [shift] at low high
    refine between.settled.backed (q := x / 8192) (between.settled.closed_pages closed ⟨?_,?_⟩) ?_ ?_
    · omega
    · omega
    · rw [shift]; exact Nat.div_mul_le_self x 8192
    · rw [shift]; exact Nat.lt_mul_of_div_lt (Nat.lt_succ_self _) (by decide)
  · have sound := reached.sound promised (fun _ _ quiet => quiet) legal quiet passes
    cases e with
    | systemFree ptr kpage => exact ⟨sound.1,_,sound.2,rfl,rfl⟩
    | absorbLeft span it => trivial
    | absorbRight span it => trivial

theorem spans_backed_split : splitOnce.InUse (300 * 8192 + 64) ∧ splitOnce.SpansBacked := by
  refine ⟨by decide +kernel,(spans_backed .standard 4096 (splitOnce_reached (fun os q a ok => ?_) (fun _ => trivial))).1⟩
  cases a with
  | none => exact ok.elim
  | some base =>
    obtain ⟨pos,aligned,rest⟩ := ok
    exact ⟨⟨pos,Nat.dvd_trans (by decide) aligned,rest⟩,fun _ base' same => Option.some.inj same ▸ aligned⟩

/-- With bases that are multiples of 4 KB only, a long span is handed out that
    starts before its mapping, and given back from there. -/
theorem spans_not_backed : ∃ w S c e w', Reaches .standard (OS.allows 4096) (fun _ _ => True) w ∧
    w.InUse S ∧ ¬ w.Backed ((w.spans S).pageId <<< pageShift) ∧
    c.Legal w ∧ Passes .standard (OS.allows 4096) w c e w' ∧ ¬ w'.GivesBack e := by
  set w : Pages := (callAll .standard (answered 4096) (fun _ _ => true) start
    [(.newSpan 200,[some (1000 * 8192 + 4096),some (300 * 8192),some (400 * 8192),some (500 * 8192)])]).get
    (by decide +kernel) with hw
  have reached : Reaches .standard (OS.allows 4096) (fun _ _ => True) w :=
    callAll_reaches (answered 4096) (fun _ _ => true) (fun _ _ _ => of_decide_eq_true) (fun _ _ _ => trivial) .start
      (Option.some_get _).symm
  obtain ⟨e,w',passes,bad⟩ := exec_passes (b := .standard) (OS.allows 4096) (answered 4096) w
    (.release (300 * 8192)) [] (fun e w' => decide (¬ w'.GivesBack e))
    (fun _ _ _ => of_decide_eq_true) (by decide +kernel)
  exact ⟨w,300 * 8192,_,e,w',reached,by decide +kernel,by decide +kernel,by decide +kernel,passes,of_decide_eq_true bad⟩

end Pages
end TcAlloc
