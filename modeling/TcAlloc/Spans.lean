import TcAlloc.PageCache
import Mathlib.Data.Set.Basic

/-!
What the page cache keeps. Seen from outside it is a ledger (`Ledger`): the spans
that were handed out, with their fields, and the pages whose map entries were left
behind. `Open` says that the state agrees with a ledger while an operation works
on the descriptors `X` and the pages `U`: the other descriptors in use are closed,
each either handed out or free, linked in the list of its length and found at its
first and last page; closed spans do not meet, and with `U` they make up the pages
obtained from the system. Between operations nothing is open (`Settled`).
-/
namespace TcAlloc

/-- The pages of a span. -/
def Span.pages (s : Span) : Set Nat := {q | s.pageId ≤ q ∧ q < s.pageId + s.n}
/-- The pages whose entries lead to a span in use: all pages of a span that can be
    merged, the first page of a larger one. -/
def Span.keys (s : Span) : Set Nat := {q | q ∈ s.pages ∧ (s.n < npages ∨ q = s.pageId)}

/-- The pages obtained for spans and not given back. -/
def OS.obtained (os : OS) : Set Nat :=
  {q | ∃ m ∈ os.mapped, m.site.forSpans = true ∧ m.base ≤ q * 2 ^ pageShift ∧ q * 2 ^ pageShift < m.base + m.len}

/-- The page cache seen from outside; `aside` are mappings that are not its own. -/
structure Ledger where
  used : Nat → Option Span
  stale : Set Nat
  aside : Set Mapping

namespace Ledger
/-- The ledger when the program starts. -/
def start : Ledger := ⟨fun _ => none,∅,∅⟩
def take (g : Ledger) (S : Nat) (s : Span) : Ledger := { g with used := Function.update g.used S (some s) }
def giveBack (g : Ledger) (S : Nat) : Ledger := { g with used := Function.update g.used S none }
/-- Entries of more pages may have been left behind. -/
def leave (g : Ledger) (A : Set Nat) : Ledger := { g with stale := g.stale ∪ A }

@[simp] theorem take_self (g : Ledger) (S : Nat) (s : Span) : (g.take S s).used S = some s := Function.update_self ..
theorem take_other (g : Ledger) (s : Span) {S T : Nat} (ne : T ≠ S) : (g.take S s).used T = g.used T :=
  Function.update_of_ne ne ..
@[simp] theorem giveBack_self (g : Ledger) (S : Nat) : (g.giveBack S).used S = none := Function.update_self ..
theorem giveBack_other (g : Ledger) {S T : Nat} (ne : T ≠ S) : (g.giveBack S).used T = g.used T :=
  Function.update_of_ne ne ..
theorem giveBack_none {g : Ledger} {S : Nat} (none : g.used S = none) : g.giveBack S = g := by
  rw [giveBack,← none,Function.update_eq_self]
end Ledger

namespace Pages

/-- The entry of a page. -/
def entry (w : Pages) (q : Nat) : Nat := w.idSpanMap.get bits q

/-- A descriptor in use that no operation is working on. -/
def Closed (w : Pages) (X : Set Nat) (S : Nat) : Prop := S ∈ w.spanPool.live ∧ S ∉ X

/-- A closed span that was handed out, with the fields `s`. -/
structure Used (w : Pages) (S : Nat) (s : Span) : Prop where
  same : w.spans S = s
  isUse : s.isUse = true
  pos : 0 < s.n
  found : ∀ q ∈ s.keys, w.entry q = S
  /-- A span that is too long to be merged is what the system handed out. -/
  mapped : npages ≤ s.n → ⟨s.pageId * 2 ^ pageShift,s.n * 2 ^ pageShift,.directSpan⟩ ∈ w.os.mapped ∧
    (s.pageId * 2 ^ pageShift,s.n) ∈ w.os.returned

/-- A closed span that is free. -/
structure Free (w : Pages) (S : Nat) : Prop where
  isUse : (w.spans S).isUse = false
  pos : 0 < (w.spans S).n
  short : (w.spans S).n < npages
  unused : (w.spans S).useCount = 0
  linked : S ∈ w.spanList (w.spans S).n
  first : w.entry (w.spans S).pageId = S
  last : w.entry ((w.spans S).pageId + (w.spans S).n - 1) = S

/-- The state agrees with the ledger, except that the descriptors `X` and the
    pages `U` are being worked on. -/
structure Open (g : Ledger) (X U : Set Nat) (w : Pages) : Prop where
  system : w.os.Valid
  aligned : ∀ m ∈ w.os.mapped, m.site.forSpans = true → 2 ^ pageShift ∣ m.base ∧ 2 ^ pageShift ∣ m.len
  pool : w.spanPool.Valid .spanPool spanBytes w.os
  map : w.idSpanMap.Valid bits w.os
  aside : ∀ m ∈ g.aside, m ∈ w.os.mapped ∧ m.site.forSpans = false
  used : ∀ S s, g.used S = some s → w.Closed X S ∧ w.Used S s
  free : ∀ S, w.Closed X S → g.used S = none → w.Free S
  listed : ∀ i, ∀ S ∈ w.spanList i, S ∈ w.spanPool.live ∧ (S ∉ X → g.used S = none ∧ (w.spans S).n = i)
  once : ∀ i, (w.spanList i).Nodup
  apart : ∀ S T, w.Closed X S → w.Closed X T → S ≠ T → ∀ q ∈ (w.spans S).pages, q ∉ (w.spans T).pages
  clear : ∀ S, w.Closed X S → ∀ q ∈ (w.spans S).pages, q ∉ U
  cover : ∀ q, q ∈ w.os.obtained ↔ q ∈ U ∨ ∃ S, w.Closed X S ∧ q ∈ (w.spans S).pages
  leftover : ∀ q, w.entry q ≠ 0 → q ∈ U ∨ q ∈ g.stale ∨ ∃ S, w.Closed X S ∧ q ∈ (w.spans S).keys

/-- No operation is going on. -/
abbrev Settled (g : Ledger) (w : Pages) : Prop := Open g ∅ ∅ w

theorem settled_start : Settled .start start := by
  have noEntry : ∀ q, start.entry q = 0 := fun q => PageMap.get_empty q
  constructor
  · exact ⟨by simp [start],by simp [start]⟩
  · simp [start]
  · exact ObjectPool.valid_empty (by decide) (by decide)
  · exact PageMap.valid_empty
  · intro m mem; simp [Ledger.start] at mem
  · intro S s used; simp [Ledger.start] at used
  · intro S closed; simp [Closed,start] at closed
  · intro i S mem; simp [start] at mem
  · intro i; simp [start]
  · intro S T closed; simp [Closed,start] at closed
  · intro S closed; simp [Closed,start] at closed
  · intro q; simp [OS.obtained,Closed,start]
  · intro q some; exact absurd (noEntry q) some

section
variable {g : Ledger} {X U : Set Nat} {w : Pages} {S : Nat}

theorem Open.page_bounds (h : Open g X U w) {q : Nat} (mem : q ∈ w.os.obtained) : 0 < q ∧ q < 2 ^ bits := by
  obtain ⟨m,mapped,_,low,high⟩ := mem
  have some := h.system.nonempty m mapped
  have shift : (2 : Nat) ^ pageShift = 8192 := rfl
  have size : (2 : Nat) ^ bits = 2 ^ 35 := rfl
  rw [shift] at low high
  omega

theorem Open.closed_pages (h : Open g X U w) (closed : w.Closed X S) {q : Nat} (mem : q ∈ (w.spans S).pages) :
    q ∈ w.os.obtained := (h.cover q).mpr (.inr ⟨S,closed,mem⟩)

theorem Open.closed_cases (h : Open g X U w) (closed : w.Closed X S) :
    (∃ s, g.used S = some s ∧ w.Used S s) ∨ (g.used S = none ∧ w.Free S) := by
  cases cases' : g.used S with
  | none => exact .inr ⟨rfl,h.free S closed cases'⟩
  | some s => exact .inl ⟨s,rfl,(h.used S s cases').2⟩

theorem Open.live_ne_zero (h : Open g X U w) (live : S ∈ w.spanPool.live) : S ≠ 0 := h.pool.live_ne_zero h.system live

/-- The lists hold a free span in the list of its length only. -/
theorem Open.free_listed (h : Open g X U w) (closed : w.Closed X S) (free : g.used S = none) (i : Nat) :
    S ∈ w.spanList i ↔ i = (w.spans S).n := by
  constructor
  · exact fun mem => ((h.listed i S mem).2 closed.2).2.symm
  · rintro rfl; exact (h.free S closed free).linked

theorem Open.used_unlisted (h : Open g X U w) {s : Span} (used : g.used S = some s) (i : Nat) : S ∉ w.spanList i := by
  intro mem
  have none := ((h.listed i S mem).2 (h.used S s used).1.2).1
  rw [used] at none; cases none

theorem Open.open_unused (h : Open g X U w) (mem : S ∈ X) : g.used S = none := by
  cases used : g.used S with
  | none => rfl
  | some s => exact absurd mem (h.used S s used).1.2

/-! ### Local changes -/

@[simp] theorem write_self (w : Pages) (S : Nat) (f : Span → Span) : (w.write S f).spans S = f (w.spans S) :=
  Function.update_self ..
theorem write_other (w : Pages) (f : Span → Span) {S T : Nat} (ne : T ≠ S) : (w.write S f).spans T = w.spans T :=
  Function.update_of_ne ne ..

theorem pushed_list (w : Pages) (i S j : Nat) :
    (w.pushed i S).spanList j = if j = i then S :: w.spanList j else w.spanList j := by
  by_cases same : j = i
  · subst same; simp [pushed]
  · simp [pushed,same]
theorem deleted_other (w : Pages) {S T : Nat} (ne : T ≠ S) : (w.deleted S).spans T = w.spans T :=
  Function.update_of_ne ne ..

/-- A closed span opened: it is in no list, and no longer handed out. -/
theorem Open.erase (h : Open g X U w) (closed : w.Closed X S) :
    Open (g.giveBack S) (insert S X) (U ∪ (w.spans S).pages) (w.erased S) ∧ ∀ i, S ∉ (w.erased S).spanList i := by
  have unlisted : ∀ i, S ∉ (w.spanList i).erase S := fun i => by
    rw [(h.once i).mem_erase_iff]; simp
  have now : ∀ T, (w.erased S).Closed (insert S X) T ↔ w.Closed X T ∧ T ≠ S := by
    intro T; simp only [Closed,erased,Set.mem_insert_iff]; tauto
  refine ⟨⟨h.system,h.aligned,h.pool,h.map,h.aside,?_,?_,?_,fun i => (h.once i).erase S,?_,?_,?_,?_⟩,unlisted⟩
  · intro T t used
    have ne : T ≠ S := fun same => by rw [same,Ledger.giveBack_self] at used; cases used
    rw [Ledger.giveBack_other g ne] at used
    obtain ⟨closed',facts⟩ := h.used T t used
    exact ⟨(now T).mpr ⟨closed',ne⟩,⟨facts.same,facts.isUse,facts.pos,facts.found,facts.mapped⟩⟩
  · intro T closed' none
    obtain ⟨old,ne⟩ := (now T).mp closed'
    rw [Ledger.giveBack_other g ne] at none
    have facts := h.free T old none
    exact { facts with linked := (List.mem_erase_of_ne ne).mpr facts.linked }
  · intro i T mem
    have ne : T ≠ S := fun same => unlisted i (same ▸ mem)
    obtain ⟨live,rest⟩ := h.listed i T (List.mem_of_mem_erase mem)
    rw [Ledger.giveBack_other g ne]
    exact ⟨live,fun out => rest (fun inside => out (Set.mem_insert_of_mem _ inside))⟩
  · intro T T' hT hT'
    exact h.apart T T' ((now T).mp hT).1 ((now T').mp hT').1
  · intro T hT q mem
    obtain ⟨old,ne⟩ := (now T).mp hT
    rintro (loose | taken)
    · exact h.clear T old q mem loose
    · exact h.apart T S old closed ne q mem taken
  · intro q
    refine (h.cover q).trans ⟨?_,?_⟩
    · rintro (loose | ⟨T,hT,mem⟩)
      · exact .inl (.inl loose)
      · by_cases same : T = S
        · exact .inl (.inr (same ▸ mem))
        · exact .inr ⟨T,(now T).mpr ⟨hT,same⟩,mem⟩
    · rintro ((loose | taken) | ⟨T,hT,mem⟩)
      · exact .inl loose
      · exact .inr ⟨S,closed,taken⟩
      · exact .inr ⟨T,((now T).mp hT).1,mem⟩
  · intro q some
    rcases h.leftover q some with loose | old | ⟨T,hT,mem⟩
    · exact .inl (.inl loose)
    · exact .inr (.inl old)
    · by_cases same : T = S
      · exact .inl (.inr (same ▸ mem.1))
      · exact .inr (.inr ⟨T,(now T).mpr ⟨hT,same⟩,mem⟩)

theorem erased_unlisted (w : Pages) (unlisted : ∀ i, S ∉ w.spanList i) : w.erased S = w := by
  have same : (fun i => (w.spanList i).erase S) = w.spanList := funext (fun i => List.erase_of_not_mem (unlisted i))
  rw [erased,same]

/-- A span that was handed out, opened. -/
theorem Open.takeBack (h : Open g X U w) {s : Span} (used : g.used S = some s) :
    Open (g.giveBack S) (insert S X) (U ∪ s.pages) w ∧ ∀ i, S ∉ w.spanList i := by
  obtain ⟨closed,facts⟩ := h.used S s used
  have result := h.erase closed
  rw [erased_unlisted w (h.used_unlisted used),facts.same] at result
  exact result

/-- A change that leaves the closed spans, the pages obtained, and the entries off
    `U` as they are keeps all that is said about closed spans. -/
theorem Open.frame (h : Open g X U w) {w' : Pages} {X' : Set Nat} (system : w'.os.Valid)
    (pool : w'.spanPool.Valid .spanPool spanBytes w'.os) (map : w'.idSpanMap.Valid bits w'.os)
    (now : ∀ T, w'.Closed X' T ↔ w.Closed X T) (same : ∀ T, w.Closed X T → w'.spans T = w.spans T)
    (entries : ∀ q, q ∉ U → w'.entry q = w.entry q) (kept : ∀ m ∈ w.os.mapped, m ∈ w'.os.mapped)
    (old : ∀ m ∈ w'.os.mapped, m.site.forSpans = true → m ∈ w.os.mapped)
    (returned : ∀ r ∈ w.os.returned, r ∈ w'.os.returned)
    (linked : ∀ i T, w.Closed X T → T ∈ w.spanList i → T ∈ w'.spanList i)
    (listed : ∀ i, ∀ T ∈ w'.spanList i,
      T ∈ w'.spanPool.live ∧ (T ∉ X' → g.used T = none ∧ (w'.spans T).n = i))
    (once : ∀ i, (w'.spanList i).Nodup) : Open g X' U w' := by
  have outside : ∀ T, w.Closed X T → ∀ q ∈ (w.spans T).pages, w'.entry q = w.entry q :=
    fun T closed q mem => entries q (h.clear T closed q mem)
  have obtained : ∀ q, q ∈ w'.os.obtained ↔ q ∈ w.os.obtained := fun q =>
    ⟨fun ⟨m,mem,site,range⟩ => ⟨m,old m mem site,site,range⟩,fun ⟨m,mem,rest⟩ => ⟨m,kept m mem,rest⟩⟩
  refine ⟨system,fun m mem site => h.aligned m (old m mem site) site,pool,map,
    fun m mem => ⟨kept m (h.aside m mem).1,(h.aside m mem).2⟩,?_,?_,listed,once,?_,?_,?_,?_⟩
  · intro T t used
    obtain ⟨closed,facts⟩ := h.used T t used
    refine ⟨(now T).mpr closed,⟨(same T closed).trans facts.same,facts.isUse,facts.pos,fun q key => ?_,fun long =>
      ⟨kept _ (facts.mapped long).1,returned _ (facts.mapped long).2⟩⟩⟩
    rw [outside T closed q (by rw [facts.same]; exact key.1)]
    exact facts.found q key
  · intro T closed none
    have before := (now T).mp closed
    have facts := h.free T before none
    have pos := facts.pos
    constructor <;> rw [same T before]
    · exact facts.isUse
    · exact pos
    · exact facts.short
    · exact facts.unused
    · exact linked _ T before facts.linked
    · rw [outside T before _ ⟨le_refl _,by omega⟩]; exact facts.first
    · rw [outside T before _ ⟨by omega,by omega⟩]; exact facts.last
  · intro T T' hT hT'
    rw [same T ((now T).mp hT),same T' ((now T').mp hT')]
    exact h.apart T T' ((now T).mp hT) ((now T').mp hT')
  · intro T hT
    rw [same T ((now T).mp hT)]
    exact h.clear T ((now T).mp hT)
  · intro q
    rw [obtained,h.cover q]
    constructor
    · rintro (loose | ⟨T,hT,mem⟩)
      · exact .inl loose
      · exact .inr ⟨T,(now T).mpr hT,by rw [same T hT]; exact mem⟩
    · rintro (loose | ⟨T,hT,mem⟩)
      · exact .inl loose
      · exact .inr ⟨T,(now T).mp hT,by rw [← same T ((now T).mp hT)]; exact mem⟩
  · intro q some
    by_cases loose : q ∈ U
    · exact .inl loose
    · rw [entries q loose] at some
      rcases h.leftover q some with inside | stale | ⟨T,hT,mem⟩
      · exact .inl inside
      · exact .inr (.inl stale)
      · exact .inr (.inr ⟨T,(now T).mpr hT,by rw [same T hT]; exact mem⟩)

/-- A descriptor from the pool. -/
theorem Open.construct (h : Open g X U w) {pool : ObjectPool} {os : OS} (valid : pool.Valid .spanPool spanBytes os)
    (system : os.Valid) (grown : OS.Grown .spanPool w.os os) (fresh : S ∉ w.spanPool.live)
    (live : pool.live = S :: w.spanPool.live) :
    Open g (insert S X) U (({ w with spanPool := pool, os := os } : Pages).write S (fun _ => {})) ∧
      ∀ i, S ∉ w.spanList i := by
  have ne_of : ∀ T, T ∈ w.spanPool.live → T ≠ S := fun T mem same => fresh (same ▸ mem)
  refine ⟨h.frame system valid (h.map.mono (fun m mem _ => grown.mem mem)) (fun T => ?_)
    (fun T closed => write_other _ _ (ne_of T closed.1)) (fun _ _ => rfl) (fun m mem => grown.mem mem) (fun m mem site => ?_)
    grown.2 (fun _ _ _ mem => mem) (fun i T mem => ?_) h.once,fun i mem => fresh (h.listed i S mem).1⟩
  · have := ne_of T
    simp only [Closed,Pages.write,live,List.mem_cons,Set.mem_insert_iff]
    tauto
  · exact grown.old mem (by rintro eq; rw [eq] at site; cases site)
  · obtain ⟨old,rest⟩ := h.listed i T mem
    refine ⟨by simp [Pages.write,live,old],fun out => ?_⟩
    rw [write_other _ _ (ne_of T old)]
    exact rest (fun inside => out (Set.mem_insert_of_mem _ inside))

/-- The fields of an open descriptor changed. -/
theorem Open.write (h : Open g X U w) (mem : S ∈ X) (f : Span → Span) : Open g X U (w.write S f) := by
  have ne_of : ∀ T, T ∉ X → T ≠ S := fun T out same => out (same ▸ mem)
  refine h.frame h.system h.pool h.map (fun T => Iff.rfl) (fun T closed => write_other _ _ (ne_of T closed.2))
    (fun _ _ => rfl) (fun _ m => m) (fun _ m _ => m) (fun _ r => r) (fun _ _ _ m => m) (fun i T inList => ?_) h.once
  obtain ⟨live,rest⟩ := h.listed i T inList
  refine ⟨live,fun out => ?_⟩
  rw [write_other _ _ (ne_of T out)]
  exact rest out

/-- An open descriptor linked in a list. -/
theorem Open.push (h : Open g X U w) (mem : S ∈ X) (live : S ∈ w.spanPool.live) (unlisted : ∀ i, S ∉ w.spanList i)
    (j : Nat) : Open g X U (w.pushed j S) ∧ ∀ i, S ∈ (w.pushed j S).spanList i ↔ i = j := by
  refine ⟨h.frame h.system h.pool h.map (fun T => Iff.rfl) (fun _ _ => rfl) (fun _ _ => rfl) (fun _ m => m)
    (fun _ m _ => m) (fun _ r => r) (fun i T _ inList => ?_) (fun i T inList => ?_) (fun i => ?_),fun i => ?_⟩
  · rw [pushed_list]
    split_ifs
    · exact List.mem_cons_of_mem _ inList
    · exact inList
  · rw [pushed_list] at inList
    split_ifs at inList
    · rcases List.mem_cons.mp inList with rfl | old
      · exact ⟨live,fun out => absurd mem out⟩
      · exact h.listed i T old
    · exact h.listed i T inList
  · rw [pushed_list]
    split_ifs
    · exact List.nodup_cons.mpr ⟨unlisted i,h.once i⟩
    · exact h.once i
  · rw [pushed_list]
    split_ifs with same <;> simp [same,unlisted i]

/-- An open descriptor given back to the pool. -/
theorem Open.delete (h : Open g X U w) (mem : S ∈ X) (live : S ∈ w.spanPool.live) (unlisted : ∀ i, S ∉ w.spanList i) :
    Open g (X \ {S}) U (w.deleted S) := by
  have ne_of : ∀ T, T ∉ X → T ≠ S := fun T out same => out (same ▸ mem)
  have remains : ∀ T, T ∈ (w.spanPool.delete S).live ↔ T ≠ S ∧ T ∈ w.spanPool.live := fun T =>
    h.pool.live_nodup.mem_erase_iff
  refine h.frame h.system (h.pool.delete live) h.map (fun T => ?_) (fun T closed => deleted_other _ (ne_of T closed.2))
    (fun _ _ => rfl) (fun _ m => m) (fun _ m _ => m) (fun _ r => r) (fun _ _ _ m => m) (fun i T inList => ?_) h.once
  · have := ne_of T
    simp only [Closed,deleted,remains,Set.mem_sdiff,Set.mem_singleton_iff]
    tauto
  · have ne : T ≠ S := fun same => unlisted i (same ▸ inList)
    obtain ⟨old,rest⟩ := h.listed i T inList
    refine ⟨(remains T).mpr ⟨ne,old⟩,fun out => ?_⟩
    rw [deleted_other _ ne]
    exact rest (fun inside => out ⟨inside,ne⟩)

/-- What the stores of `set` may change: entries of `U`, and nodes of the map. -/
structure Stored (U : Set Nat) (w w' : Pages) : Prop where
  rest : w' = { w with os := w'.os, idSpanMap := w'.idSpanMap }
  grown : OS.Grown .mapNode w.os w'.os
  persists : w.idSpanMap.Persists w'.idSpanMap
  entries : ∀ q, q ∉ U → w'.entry q = w.entry q
  system : w'.os.Valid
  map : w'.idSpanMap.Valid bits w'.os

theorem Stored.spans {w' : Pages} (h : Stored U w w') : w'.spans = w.spans := by rw [h.rest]
theorem Stored.spanList {w' : Pages} (h : Stored U w w') : w'.spanList = w.spanList := by rw [h.rest]
theorem Stored.spanPool {w' : Pages} (h : Stored U w w') : w'.spanPool = w.spanPool := by rw [h.rest]

theorem Stored.trans {w' w'' : Pages} (first : Stored U w w') (second : Stored U w' w'') : Stored U w w'' := by
  refine ⟨?_,⟨?_,fun r mem => second.grown.2 r (first.grown.2 r mem)⟩,first.persists.trans second.persists,
    fun q out => (second.entries q out).trans (first.entries q out),second.system,second.map⟩
  · rw [second.rest,first.rest]
  · obtain ⟨new,same,sites⟩ := first.grown.1
    obtain ⟨new',same',sites'⟩ := second.grown.1
    refine ⟨new' ++ new,by rw [same',same,List.append_assoc],fun m mem => ?_⟩
    rcases List.mem_append.mp mem with late | early
    · exact sites' m late
    · exact sites m early

theorem Open.store (h : Open g X U w) {w' : Pages} (stored : Stored U w w') : Open g X U w' := by
  refine h.frame stored.system ?_ stored.map (fun T => ?_) (fun T _ => by rw [stored.spans]) stored.entries
    (fun m mem => stored.grown.mem mem) (fun m mem site => stored.grown.old mem ?_) stored.grown.2
    (fun i T _ mem => by rw [stored.spanList]; exact mem) (fun i T mem => ?_)
    (fun i => by rw [stored.spanList]; exact h.once i)
  · rw [stored.spanPool]; exact h.pool.mono (fun m mem _ => stored.grown.mem mem)
  · simp only [Closed,stored.spanPool]
  · rintro eq; rw [eq] at site; cases site
  · rw [stored.spanList] at mem
    rw [stored.spanPool,stored.spans]
    exact h.listed i T mem

/-- An open span closed, free or handed out. -/
theorem Open.close (h : Open g X U w) {k : Ledger} (mem : S ∈ X) (live : S ∈ w.spanPool.live)
    (others : ∀ T, T ≠ S → k.used T = g.used T) (stale : k.stale = g.stale) (aside : k.aside = g.aside)
    (inside : (w.spans S).pages ⊆ U)
    (state : (∃ s, k.used S = some s ∧ w.Used S s) ∨ (k.used S = none ∧ w.Free S))
    (listed : ∀ i, S ∈ w.spanList i → k.used S = none ∧ (w.spans S).n = i)
    (left : ∀ q ∈ (w.spans S).pages, w.entry q ≠ 0 → q ∈ (w.spans S).keys ∨ q ∈ g.stale) :
    Open k (X \ {S}) (U \ (w.spans S).pages) w := by
  have now : ∀ T, w.Closed (X \ {S}) T ↔ w.Closed X T ∨ T = S := by
    intro T
    simp only [Closed,Set.mem_sdiff,Set.mem_singleton_iff]
    constructor
    · tauto
    · rintro (old | rfl)
      · tauto
      · exact ⟨live,fun both => both.2 rfl⟩
  have ne_of : ∀ T, w.Closed X T → T ≠ S := fun T closed same => closed.2 (same ▸ mem)
  refine ⟨h.system,h.aligned,h.pool,h.map,by rw [aside]; exact h.aside,?_,?_,?_,h.once,?_,?_,?_,?_⟩
  · intro T t used
    by_cases same : T = S
    · subst same
      rcases state with ⟨s,taken,facts⟩ | ⟨none,_⟩
      · rw [taken] at used; cases used
        exact ⟨(now T).mpr (.inr rfl),facts⟩
      · rw [none] at used; cases used
    · rw [others T same] at used
      obtain ⟨closed,facts⟩ := h.used T t used
      exact ⟨(now T).mpr (.inl closed),facts⟩
  · intro T closed none
    by_cases same : T = S
    · subst same
      rcases state with ⟨s,taken,_⟩ | ⟨_,facts⟩
      · rw [taken] at none; cases none
      · exact facts
    · rw [others T same] at none
      exact h.free T (((now T).mp closed).resolve_right same) none
  · intro i T inList
    by_cases same : T = S
    · subst same; exact ⟨live,fun _ => listed i inList⟩
    · rw [others T same]
      obtain ⟨old,rest⟩ := h.listed i T inList
      exact ⟨old,fun out => rest (fun inX => out ⟨inX,same⟩)⟩
  · intro T T' hT hT' ne q inT inT'
    rcases (now T).mp hT with old | rfl
    · rcases (now T').mp hT' with old' | rfl
      · exact h.apart T T' old old' ne q inT inT'
      · exact h.clear T old q inT (inside inT')
    · rcases (now T').mp hT' with old' | rfl
      · exact h.clear T' old' q inT' (inside inT)
      · exact ne rfl
  · intro T hT q inT loose
    rcases (now T).mp hT with old | rfl
    · exact h.clear T old q inT loose.1
    · exact loose.2 inT
  · intro q
    refine (h.cover q).trans ⟨?_,?_⟩
    · rintro (loose | ⟨T,hT,inT⟩)
      · by_cases inS : q ∈ (w.spans S).pages
        · exact .inr ⟨S,(now S).mpr (.inr rfl),inS⟩
        · exact .inl ⟨loose,inS⟩
      · exact .inr ⟨T,(now T).mpr (.inl hT),inT⟩
    · rintro (loose | ⟨T,hT,inT⟩)
      · exact .inl loose.1
      · rcases (now T).mp hT with old | rfl
        · exact .inr ⟨T,old,inT⟩
        · exact .inl (inside inT)
  · intro q some
    rw [stale]
    rcases h.leftover q some with loose | old | ⟨T,hT,key⟩
    · by_cases inS : q ∈ (w.spans S).pages
      · rcases left q inS some with key | old
        · exact .inr (.inr ⟨S,(now S).mpr (.inr rfl),key⟩)
        · exact .inr (.inl old)
      · exact .inl ⟨loose,inS⟩
    · exact .inr (.inl old)
    · exact .inr (.inr ⟨T,(now T).mpr (.inl hT),key⟩)

/-- Fields of a span that was handed out changed by who holds it. -/
theorem Open.rewrite (h : Open g X U w) {s : Span} (used : g.used S = some s) {f : Span → Span}
    (pageId : (f s).pageId = s.pageId) (n : (f s).n = s.n) (isUse : (f s).isUse = s.isUse) :
    Open (g.take S (f s)) X U (w.write S f) := by
  have facts := (h.used S s used).2
  have pages : ∀ T, ((w.write S f).spans T).pages = (w.spans T).pages ∧ ((w.write S f).spans T).keys = (w.spans T).keys := by
    intro T
    by_cases same : T = S
    · subst same
      rw [write_self,facts.same]
      simp only [Span.pages,Span.keys,pageId,n,and_self]
    · rw [write_other w f same]; exact ⟨rfl,rfl⟩
  have others : ∀ T, g.used T = none → T ≠ S := fun T none same => by rw [same,used] at none; cases none
  refine ⟨h.system,h.aligned,h.pool,h.map,h.aside,?_,?_,?_,h.once,?_,?_,?_,?_⟩
  · intro T t taken
    by_cases same : T = S
    · subst same
      rw [Ledger.take_self] at taken; cases taken
      refine ⟨(h.used T s used).1,⟨by rw [write_self,facts.same],by rw [isUse]; exact facts.isUse,
        by rw [n]; exact facts.pos,fun q key => facts.found q ?_,fun long => ?_⟩⟩
      · simpa only [Span.keys,Span.pages,pageId,n] using key
      · rw [pageId,n]; exact facts.mapped (by rw [← n]; exact long)
    · rw [Ledger.take_other g _ same] at taken
      obtain ⟨closed,old⟩ := h.used T t taken
      exact ⟨closed,⟨(write_other w f same).trans old.same,old.isUse,old.pos,old.found,old.mapped⟩⟩
  · intro T closed none
    have ne : T ≠ S := fun same => by rw [same,Ledger.take_self] at none; cases none
    rw [Ledger.take_other g _ ne] at none
    have old := h.free T closed none
    constructor <;> rw [write_other w f ne]
    exacts [old.isUse,old.pos,old.short,old.unused,old.linked,old.first,old.last]
  · intro i T mem
    obtain ⟨live,rest⟩ := h.listed i T mem
    refine ⟨live,fun out => ?_⟩
    obtain ⟨none,length⟩ := rest out
    rw [Ledger.take_other g _ (others T none),write_other w f (others T none)]
    exact ⟨none,length⟩
  · intro T T' hT hT'
    rw [(pages T).1,(pages T').1]
    exact h.apart T T' hT hT'
  · intro T hT
    rw [(pages T).1]
    exact h.clear T hT
  · intro q
    simp only [pages]
    exact h.cover q
  · intro q some
    simp only [pages]
    exact h.leftover q some

/-- Mappings that are not for spans come. -/
theorem Open.grow (h : Open g X U w) {os : OS} (system : os.Valid) {site : Site} (grown : OS.Grown site w.os os)
    (other : site.forSpans = false) : Open g X U { w with os := os } :=
  h.frame system (h.pool.mono (fun _ mem _ => grown.mem mem)) (h.map.mono (fun _ mem _ => grown.mem mem)) (fun _ => Iff.rfl)
    (fun _ _ => rfl) (fun _ _ => rfl) (fun _ mem => grown.mem mem)
    (fun m mem span => grown.old mem (by rintro same; rw [same,other] at span; cases span)) grown.2 (fun _ _ _ mem => mem)
    h.listed h.once

/-- What is kept aside is chosen again. -/
theorem Open.setAside (h : Open g X U w) {A : Set Mapping} (own : ∀ m ∈ A, m ∈ w.os.mapped ∧ m.site.forSpans = false) :
    Open { g with aside := A } X U w := { h with aside := own }

/-- The pages of a mapping asked for by page count. -/
theorem pages_of_mapping {base len : Nat} (aligned : 2 ^ pageShift ∣ base) (whole : 2 ^ pageShift ∣ len) (q : Nat) :
    (base ≤ q * 2 ^ pageShift ∧ q * 2 ^ pageShift < base + len) ↔
      (base >>> pageShift ≤ q ∧ q < base >>> pageShift + len >>> pageShift) := by
  obtain ⟨p,rfl⟩ := aligned
  obtain ⟨k,rfl⟩ := whole
  have shift : (2 : Nat) ^ pageShift = 8192 := rfl
  rw [Nat.shiftRight_eq_div_pow,Nat.shiftRight_eq_div_pow,shift]
  omega

/-- Pages granted for a span. -/
theorem Open.grant (h : Open g X U w) {site : Site} {k base : Nat} (forSpans : site.forSpans = true)
    (granted : OS.Grants 1 w.os k base) (aligned : 2 ^ pageShift ∣ base) :
    Open g X (U ∪ {q | base >>> pageShift ≤ q ∧ q < base >>> pageShift + k}) { w with os := w.os.grant site k base } ∧
      ∀ q, base >>> pageShift ≤ q → q < base >>> pageShift + k → q ∉ w.os.obtained := by
  have count : (k * 2 ^ pageShift) >>> pageShift = k := by
    rw [Nat.shiftRight_eq_div_pow,Nat.mul_div_cancel _ (by positivity)]
  have new : ∀ q, (base ≤ q * 2 ^ pageShift ∧ q * 2 ^ pageShift < base + k * 2 ^ pageShift) ↔
      (base >>> pageShift ≤ q ∧ q < base >>> pageShift + k) := fun q => by
    rw [pages_of_mapping aligned (Nat.dvd_mul_left _ _),count]
  have fresh : ∀ q, base >>> pageShift ≤ q → q < base >>> pageShift + k → q ∉ w.os.obtained := by
    rintro q low high ⟨m,mapped,_,low',high'⟩
    have apart := granted.2.2.2.2 m mapped
    have range := (new q).mpr ⟨low,high⟩
    simp only [Mapping.Apart] at apart
    omega
  have obtained : ∀ q, q ∈ (w.os.grant site k base).obtained ↔
      (base >>> pageShift ≤ q ∧ q < base >>> pageShift + k) ∨ q ∈ w.os.obtained := by
    intro q
    constructor
    · rintro ⟨m,mem,span,range⟩
      rcases List.mem_cons.mp mem with rfl | old
      · exact .inl ((new q).mp range)
      · exact .inr ⟨m,old,span,range⟩
    · rintro (range | ⟨m,mem,rest⟩)
      · exact ⟨_,List.mem_cons_self,forSpans,(new q).mpr range⟩
      · exact ⟨m,List.mem_cons_of_mem _ mem,rest⟩
  refine ⟨⟨h.system.grant site granted,?_,h.pool.mono (fun m mem _ => List.mem_cons_of_mem _ mem),
    h.map.mono (fun m mem _ => List.mem_cons_of_mem _ mem),
    fun m mem => ⟨List.mem_cons_of_mem _ (h.aside m mem).1,(h.aside m mem).2⟩,?_,?_,h.listed,h.once,h.apart,?_,?_,?_⟩,fresh⟩
  · intro m mem span
    rcases List.mem_cons.mp mem with rfl | old
    · exact ⟨aligned,Nat.dvd_mul_left _ _⟩
    · exact h.aligned m old span
  · intro T t used
    obtain ⟨closed,facts⟩ := h.used T t used
    exact ⟨closed,{ facts with mapped := fun long =>
      ⟨List.mem_cons_of_mem _ (facts.mapped long).1,List.mem_cons_of_mem _ (facts.mapped long).2⟩ }⟩
  · intro T closed none
    obtain ⟨a,b,c,d,e,f,l⟩ := h.free T closed none
    exact ⟨a,b,c,d,e,f,l⟩
  · intro T closed q mem
    rintro (loose | added)
    · exact h.clear T closed q mem loose
    · exact fresh q added.1 added.2 (h.closed_pages closed mem)
  · intro q
    rw [obtained,h.cover q]
    simp only [Set.mem_union,Set.mem_ofPred_eq]
    constructor
    · rintro (range | loose | closed)
      · exact .inl (.inr range)
      · exact .inl (.inl loose)
      · exact .inr closed
    · rintro ((loose | range) | closed)
      · exact .inr (.inl loose)
      · exact .inl range
      · exact .inr (.inr closed)
  · intro q some
    rcases h.leftover q some with loose | rest
    · exact .inl (.inl loose)
    · exact .inr rest

/-- The pages of an open span given back to the system as they were obtained. -/
theorem Open.unmap (h : Open g X U w) {p k : Nat} {A : Set Nat} (pos : 0 < k)
    (mapped : ⟨p * 2 ^ pageShift,k * 2 ^ pageShift,.directSpan⟩ ∈ w.os.mapped)
    (all : ∀ q, q ∈ U ↔ p ≤ q ∧ q < p + k) (left : ∀ q ∈ U, w.entry q ≠ 0 → q ∈ g.stale ∨ q ∈ A) :
    Open (g.leave A) X ∅ { w with os := w.os.unmap (p * 2 ^ pageShift) k } := by
  have still : ∀ n, n ∈ (w.os.unmap (p * 2 ^ pageShift) k).mapped ↔
      n ∈ w.os.mapped ∧ n ≠ ⟨p * 2 ^ pageShift,k * 2 ^ pageShift,.directSpan⟩ := h.system.free mapped
  have shift : (2 : Nat) ^ pageShift = 8192 := rfl
  have inside : ∀ q, q ∈ U ↔ p * 2 ^ pageShift ≤ q * 2 ^ pageShift ∧
    q * 2 ^ pageShift < p * 2 ^ pageShift + k * 2 ^ pageShift := by
    intro q; rw [all,shift]; omega
  have obtained : ∀ q, q ∈ (w.os.unmap (p * 2 ^ pageShift) k).obtained ↔ q ∈ w.os.obtained ∧ q ∉ U := by
    intro q
    constructor
    · rintro ⟨m,mem,span,low,high⟩
      obtain ⟨old,ne⟩ := (still m).mp mem
      refine ⟨⟨m,old,span,low,high⟩,fun loose => ?_⟩
      have range := (inside q).mp loose
      have apart := h.system.apart_of_ne old mapped ne
      simp only [Mapping.Apart] at apart
      omega
    · rintro ⟨⟨m,mem,span,low,high⟩,out⟩
      refine ⟨m,(still m).mpr ⟨mem,fun same => out ((inside q).mpr ?_)⟩,span,low,high⟩
      rw [same] at low high; exact ⟨low,high⟩
  have other : ∀ m ∈ w.os.mapped, m.site ≠ .directSpan → m ∈ (w.os.unmap (p * 2 ^ pageShift) k).mapped := fun m mem ne =>
    (still m).mpr ⟨mem,fun same => ne (by rw [same])⟩
  refine ⟨h.system.free_valid mapped,fun m mem span => h.aligned m ((still m).mp mem).1 span,
    h.pool.mono (fun m mem site => other m mem (by rw [site]; decide)),
    h.map.mono (fun m mem site => other m mem (by rw [site]; decide)),
    fun m mem => ⟨other m (h.aside m mem).1 (fun same => ?_),(h.aside m mem).2⟩,?_,?_,h.listed,h.once,h.apart,
    fun T closed q mem => id,?_,?_⟩
  · have never := (h.aside m mem).2
    rw [same] at never; cases never
  · intro T t used
    obtain ⟨closed,facts⟩ := h.used T t used
    refine ⟨closed,{ facts with mapped := fun long => ⟨(still _).mpr ⟨(facts.mapped long).1,fun same => ?_⟩,
      (facts.mapped long).2⟩ }⟩
    -- The mapping of another span is not the one given back: its first page is not open.
    have first : t.pageId ∈ (w.spans T).pages := by rw [facts.same]; exact ⟨le_refl _,by have := facts.pos; omega⟩
    refine h.clear T closed t.pageId first ((all _).mpr ?_)
    simp only [Mapping.mk.injEq] at same
    have := facts.pos
    rw [shift] at same
    omega
  · intro T closed none
    obtain ⟨a,b,c,d,e,f,l⟩ := h.free T closed none
    exact ⟨a,b,c,d,e,f,l⟩
  · intro q
    rw [obtained,h.cover q]
    constructor
    · rintro ⟨loose | closed,out⟩
      · exact absurd loose out
      · exact .inr closed
    · rintro (impossible | ⟨T,closed,mem⟩)
      · exact impossible.elim
      · exact ⟨.inr ⟨T,closed,mem⟩,h.clear T closed q mem⟩
  · intro q some
    rcases h.leftover q some with loose | old | rest
    · exact .inr (.inl (left q loose some))
    · exact .inr (.inl (.inl old))
    · exact .inr (.inr rest)

end
end Pages
end TcAlloc
