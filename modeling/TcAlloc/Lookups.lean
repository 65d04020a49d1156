import TcAlloc.PageRuns

/-!
Lookups without the mutex. Any number of threads call `NewSpan` and
`ReleaseSpanToPageCache`, which hold `PageCache::_mtx`, and `get`, which does not;
every load and every store is a step of its own. A span is in the hands of its
callers from when its call returns until its release is called. The invariant
says which thread is in the section of the mutex, with the guarantee that is left
of its operation, and where every other thread stands.
-/
namespace TcAlloc
namespace Pages

/-- What a thread may call. -/
inductive Op where
  | newSpan (k : Nat)
  | release (span : Nat)
  | get (pageId : Nat)

/-- What a call returns: a span with its fields, nothing, or an entry. -/
inductive Result where
  | done
  | span (S : Nat) (s : Span)
  | entry (v : Nat)
  deriving DecidableEq

/-- A lookup from its start, from the node below the root, and from the leaf. -/
def lookup (k : Nat) : Code Pages Result := ((PageMap.load bits k).zoom lookupPart).bind (fun v => .ret (.entry v))
def lookupFromMid (k mid : Nat) : Code Pages Result :=
  ((PageMap.afterRoot bits k mid).zoom lookupPart).bind (fun v => .ret (.entry v))
def lookupFromLeaf (k leaf : Nat) : Code Pages Result :=
  ((PageMap.afterMid bits k leaf).zoom lookupPart).bind (fun v => .ret (.entry v))

/-- What the calls do while they hold the mutex. The caller of `NewSpan` marks its
    span as used and reads its fields. -/
def newBody (b : Build) (k : Nat) : Code Pages Result := do
  let S ← Pages.newSpan b.rounds k
  put S (fun s => { s with isUse := true })
  let s ← Pages.get S
  return .span S s
def releaseBody (b : Build) (span : Nat) : Code Pages Result := do
  releaseSpanToPageCache b.rounds span
  return .done

def Op.code (b : Build) : Op → Code Pages Result
  | .newSpan k => .holding .pageCache (newBody b k)
  | .release span => .holding .pageCache (releaseBody b span)
  | .get k => lookup k

inductive Thread where
  | idle (last : Result)
  | running (op : Op) (code : Code Pages Result) (held : List Mutex)

def Thread.held : Thread → List Mutex
  | .idle _ => []
  | .running _ _ held => held

/-- The page cache, the spans in the hands of callers, and the threads. -/
structure Machine where
  pages : Pages
  handed : List (Nat × Span)
  threads : Nat → Thread

namespace Machine

def start : Machine := ⟨Pages.start,[],fun _ => .idle .done⟩

/-- Only spans in the callers' hands are released, and none too long to be merged. -/
def Legal (m : Machine) : Op → Prop
  | .newSpan k => 0 < k
  | .release span => ∃ s, (span,s) ∈ m.handed ∧ s.n < npages
  | .get _ => True

/-- The spans in the callers' hands once a call has begun, and once it has returned. -/
def begun (handed : List (Nat × Span)) : Op → List (Nat × Span)
  | .release span => handed.filter (fun e => e.1 ≠ span)
  | _ => handed
def returned (handed : List (Nat × Span)) : Result → List (Nat × Span)
  | .span S s => (S,s) :: handed
  | _ => handed

/-- One step of a thread: a call begins, one operation of it, and its return. -/
inductive Step (b : Build) (answers : Answers) : Machine → Machine → Prop
  | call {m : Machine} {t : Nat} {last : Result} {op : Op} (idle : m.threads t = .idle last) (legal : m.Legal op) :
      Step b answers m ⟨m.pages,begun m.handed op,Function.update m.threads t (.running op (op.code b) [])⟩
  | move {m : Machine} {t : Nat} {op : Op} {p p' : Code Pages Result} {h h' : List Mutex} {w' : Pages}
      (running : m.threads t = .running op p h)
      (move : Move (fun w q a => answers w.os q a) (p,h,m.pages) (p',h',w'))
      (free : ∀ l ∈ h', l ∉ h → ∀ u, u ≠ t → l ∉ (m.threads u).held) :
      Step b answers m ⟨w',m.handed,Function.update m.threads t (.running op p' h')⟩
  | finish {m : Machine} {t : Nat} {op : Op} {r : Result} {h : List Mutex} (ended : m.threads t = .running op (.ret r) h) :
      Step b answers m ⟨m.pages,returned m.handed r,Function.update m.threads t (.idle r)⟩

def Reachable (b : Build) (answers : Answers) : Machine → Prop := Relation.ReflTransGen (Step b answers) start

end Machine

/-! ### The steps of a lookup -/

section
variable {allowed : Pages → Request → Option Nat → Prop} {k : Nat} {h h' : List Mutex} {w w' : Pages} {p : Code Pages Result}

theorem lookup_move (move : Move allowed (lookup k,h,w) (p,h',w')) :
    ¬ 0 < k >>> bits ∧ h' = h ∧ w' = w ∧ p = lookupFromMid k (w.idSpanMap.root (PageMap.i1 bits k)) := by
  by_cases big : 0 < k >>> bits
  · simp only [lookup,PageMap.load,if_pos big] at move
    cases move
  · simp only [lookup,PageMap.load,if_neg big] at move
    cases move
    exact ⟨big,rfl,rfl,rfl⟩

theorem lookup_loads (small : ¬ 0 < k >>> bits) (h : List Mutex) (w : Pages) :
    Move allowed (lookup k,h,w) (lookupFromMid k (w.idSpanMap.root (PageMap.i1 bits k)),h,w) := by
  simp only [lookup,PageMap.load,if_neg small]
  exact (Move.act _ _ h w : Move allowed _ _)

theorem lookupFromMid_move {mid : Nat} (move : Move allowed (lookupFromMid k mid,h,w) (p,h',w')) :
    mid ≠ 0 ∧ h' = h ∧ w' = w ∧ p = lookupFromLeaf k (w.idSpanMap.mids mid (PageMap.i2 bits k)) := by
  by_cases none : mid = 0
  · simp only [lookupFromMid,PageMap.afterRoot,if_pos none] at move
    cases move
  · simp only [lookupFromMid,PageMap.afterRoot,if_neg none] at move
    cases move
    exact ⟨none,rfl,rfl,rfl⟩

theorem lookupFromLeaf_move {leaf : Nat} (move : Move allowed (lookupFromLeaf k leaf,h,w) (p,h',w')) :
    leaf ≠ 0 ∧ h' = h ∧ w' = w ∧ p = .ret (.entry (w.idSpanMap.leaves leaf (PageMap.i3 bits k))) := by
  by_cases none : leaf = 0
  · simp only [lookupFromLeaf,PageMap.afterMid,if_pos none] at move
    cases move
  · simp only [lookupFromLeaf,PageMap.afterMid,if_neg none] at move
    cases move
    exact ⟨none,rfl,rfl,rfl⟩

end

/-- Where a lookup of `k` stands: the nodes it has loaded are published. -/
inductive LookupAt (map : PageMap) (k : Nat) : Code Pages Result → Prop
  | start : LookupAt map k (lookup k)
  | mid (mid : Nat) (published : mid ≠ 0 → map.root (PageMap.i1 bits k) = mid) : LookupAt map k (lookupFromMid k mid)
  | leaf (mid leaf : Nat) (some : mid ≠ 0) (published : map.root (PageMap.i1 bits k) = mid)
      (below : leaf ≠ 0 → map.mids mid (PageMap.i2 bits k) = leaf) : LookupAt map k (lookupFromLeaf k leaf)
  | done (v : Nat) : LookupAt map k (.ret (.entry v))

theorem LookupAt.persists {map map' : PageMap} (kept : map.Persists map') {k : Nat} {p : Code Pages Result}
    (standing : LookupAt map k p) : LookupAt map' k p := by
  cases standing with
  | start => exact .start
  | mid mid published =>
    refine .mid mid (fun some => ?_)
    rw [kept.mid _ (by rw [published some]; exact some)]
    exact published some
  | leaf mid leaf some published below =>
    refine .leaf mid leaf some ?_ (fun some' => ?_)
    · rw [kept.mid _ (by rw [published]; exact some)]; exact published
    · have there := kept.leaf (PageMap.i1 bits k) (PageMap.i2 bits k) (by rw [published]; exact some)
        (by rw [published,below some']; exact some')
      rw [published] at there
      rw [there]; exact below some'
  | done v => exact .done v

/-- One step of a lookup. -/
theorem LookupAt.move {allowed : Pages → Request → Option Nat → Prop} {k : Nat} {h h' : List Mutex} {w w' : Pages}
    {p p' : Code Pages Result} (standing : LookupAt w.idSpanMap k p) (move : Move allowed (p,h,w) (p',h',w')) :
    h' = h ∧ w' = w ∧ LookupAt w.idSpanMap k p' := by
  cases standing with
  | start =>
    obtain ⟨_,rfl,rfl,rfl⟩ := lookup_move move
    exact ⟨rfl,rfl,.mid _ (fun _ => rfl)⟩
  | mid mid published =>
    obtain ⟨some,rfl,rfl,rfl⟩ := lookupFromMid_move move
    exact ⟨rfl,rfl,.leaf mid _ some (published some) (fun _ => rfl)⟩
  | leaf mid leaf some published below =>
    obtain ⟨_,rfl,rfl,rfl⟩ := lookupFromLeaf_move move
    exact ⟨rfl,rfl,.done _⟩
  | done v => cases move

theorem LookupAt.entry {map : PageMap} {k : Nat} {r : Result} (standing : LookupAt map k (.ret r)) : ∃ v, r = .entry v := by
  generalize code : (Prog.ret r : Code Pages Result) = p at standing
  cases standing with
  | start =>
    by_cases big : 0 < k >>> bits
    · simp only [lookup,PageMap.load,if_pos big] at code
      cases code; exact ⟨0,rfl⟩
    · simp only [lookup,PageMap.load,if_neg big] at code
      cases code
  | mid mid published =>
    by_cases null : mid = 0
    · simp only [lookupFromMid,PageMap.afterRoot,if_pos null] at code
      cases code; exact ⟨0,rfl⟩
    · simp only [lookupFromMid,PageMap.afterRoot,if_neg null] at code
      cases code
  | leaf mid leaf some published below =>
    by_cases null : leaf = 0
    · simp only [lookupFromLeaf,PageMap.afterMid,if_pos null] at code
      cases code; exact ⟨0,rfl⟩
    · simp only [lookupFromLeaf,PageMap.afterMid,if_neg null] at code
      cases code
  | done v => cases code; exact ⟨v,rfl⟩

/-! ### The section of the mutex -/

/-- A ledger for a state between sections in which nothing was left behind. -/
structure Clean (g : Ledger) (w : Pages) : Prop where
  between : Between g w
  clean : g.stale = ∅

/-- What readers rely on while another thread is in the section. -/
def sectionRules (answers : Answers) (g : Ledger) : PageRules :=
  ⟨fun w q a => answers w.os q a,fun m h w w' => m = none → Mutex.pageCache ∈ h ∧ Guarded g w.idSpanMap ∧
    Guarded g w'.idSpanMap ∧ w.idSpanMap.Persists w'.idSpanMap⟩

/-- What a call gives its caller: `NewSpan` a span that nobody has. -/
def Gives (g g' : Ledger) : Op → Result → Prop
  | .newSpan _, .span S s => g.used S = none ∧ g'.used S = some s
  | .release _, .done => True
  | _, _ => False

/-- The section ends with the spans of the ledger in use as they were. -/
def Ends (g : Ledger) (op : Op) (r : Result) (h : List Mutex) (w : Pages) : Prop :=
  h = [.pageCache] ∧ ∃ g', Clean g' w ∧ (∀ S s, g.used S = some s → g'.used S = some s) ∧ Gives g g' op r

section
variable {b : Build} {answers : Answers} {g : Ledger} {w : Pages}

theorem watch_section (promised : ∀ os q a, answers os q a → os.promises q a) (g : Ledger) :
    Watch (sectionRules answers g) [.pageCache] g := by
  refine ⟨fun w q a ok => promised w.os q a ok,by simp,fun h' w w' held before after persists
    _ => ⟨?_,before,after,persists⟩,
    fun w e _ none => nomatch none⟩
  rcases held with rfl | rfl <;> simp

theorem newBody_wp (promised : ∀ os q a, answers os q a → os.promises q a) (clean : Clean g w) {k : Nat} (pos : 0 < k) :
    wp (sectionRules answers g) (newBody b k) [.pageCache] w (Ends g (.newSpan k)) (fun _ _ => False) := by
  have watch := watch_section promised g
  have settled := clean.between.settled
  have long := b.long
  simp only [newBody,wp_seq,wp_pure]
  refine newSpan_wp watch settled.guarded settled pos (by omega) (fun S w' ready guarded => ?_)
  refine put_wp watch guarded (get_wp (w := w'.write S _) watch guarded ?_)
  rw [write_self]
  have none := ready.opened.open_unused (Set.mem_singleton S)
  refine ⟨rfl,_,⟨⟨ready.handOut pos rfl rfl rfl,fun T t used => ?_⟩,clean.clean⟩,fun T t used => ?_,none,Ledger.take_self ..⟩
  · by_cases same : T = S
    · subst same
      rw [Ledger.take_self] at used; cases used
      exact ready.unused
    · rw [Ledger.take_other g _ same] at used
      exact clean.between.unused T t used
  · have ne : T ≠ S := fun same => by rw [same,none] at used; cases used
    rw [Ledger.take_other g _ ne]; exact used

theorem releaseBody_wp (promised : ∀ os q a, answers os q a → os.promises q a) (clean : Clean g w) {S : Nat} {s : Span}
    (used : g.used S = some s) (short : s.n < npages) :
    wp (sectionRules answers (g.giveBack S)) (releaseBody b S) [.pageCache] w
    (Ends (g.giveBack S) (.release S)) (fun _ _ => False) := by
  have settled := clean.between.settled
  have long := b.long
  have guarded : Guarded (g.giveBack S) w.idSpanMap := (settled.takeBack used).1.guarded
  simp only [releaseBody,wp_seq,wp_pure]
  refine release_wp (watch_section promised _) guarded settled used (clean.between.unused S s used)
    (fun _ => settled.quiet clean.clean S) (by have : npages = 129 := rfl; omega) (fun w' settled' _ _ => ?_)
  rw [released,if_neg (by omega)] at settled'
  refine ⟨rfl,_,⟨⟨settled',fun T t used' => ?_⟩,clean.clean⟩,fun _ _ same => same,trivial⟩
  have ne : T ≠ S := fun equal => by rw [equal,Ledger.giveBack_self] at used'; cases used'
  rw [Ledger.giveBack_other g ne] at used'
  exact clean.between.unused T t used'

end

/-! ### The invariant -/

/-- Where a thread outside the section stands, and the span whose release it
    has called or that it is about to return. -/
inductive Outside (b : Build) (g : Ledger) (map : PageMap) : Thread → Option Nat → Prop
  | idle (last : Result) : Outside b g map (.idle last) none
  | newWaits (k : Nat) (pos : 0 < k) : Outside b g map (.running (.newSpan k) ((Op.newSpan k).code b) []) none
  | newReturns (k S : Nat) (s : Span) (used : g.used S = some s) :
      Outside b g map (.running (.newSpan k) (.ret (.span S s)) []) (some S)
  | releaseWaits (S : Nat) (s : Span) (used : g.used S = some s) (short : s.n < npages) :
      Outside b g map (.running (.release S) ((Op.release S).code b) []) (some S)
  | releaseReturns (S : Nat) : Outside b g map (.running (.release S) (.ret .done) []) none
  | looks (k : Nat) (p : Code Pages Result) (standing : LookupAt map k p) : Outside b g map (.running (.get k) p []) none

/-- The thread in the section, with what is left of its operation. -/
structure Inside (answers : Answers) (g : Ledger) (w : Pages) (thread : Thread) : Prop where
  guarded : Guarded g w.idSpanMap
  rest : ∃ op p h, thread = .running op (p.bind (fun r => .unlock .pageCache (.ret r))) h ∧ (∀ k, op ≠ .get k) ∧
    Mutex.pageCache ∈ h ∧ wp (sectionRules answers g) p h w (Ends g op) (fun _ _ => False)

/-- The ledger's spans are in the hands of callers, or of one thread each. -/
structure Tokens (g : Ledger) (handed : List (Nat × Span)) (own : Nat → Option Nat) : Prop where
  given : ∀ S s, (S,s) ∈ handed → g.used S = some s
  used : ∀ t S, own t = some S → g.used S ≠ none
  apart : ∀ t S s, own t = some S → (S,s) ∉ handed
  once : ∀ t u S, own t = some S → own u = some S → t = u

/-- At most one thread is in the section; the others stand outside. -/
structure Placed (b : Build) (answers : Answers) (g : Ledger) (own : Nat → Option Nat) (m : Machine) : Prop where
  tokens : Tokens g m.handed own
  section_ : (Clean g m.pages ∧ ∀ t, Outside b g m.pages.idSpanMap (m.threads t) (own t)) ∨
    ∃ t, own t = none ∧ Inside answers g m.pages (m.threads t) ∧
      ∀ u, u ≠ t → Outside b g m.pages.idSpanMap (m.threads u) (own u)

section
variable {b : Build} {answers : Answers} {g g' : Ledger} {map map' : PageMap} {own : Nat → Option Nat}
  {thread : Thread} {o : Option Nat}

theorem Outside.held (outside : Outside b g map thread o) : thread.held = [] := by cases outside <;> rfl

/-- A thread stands where it stood, as long as its span is in use. -/
theorem Outside.mono (outside : Outside b g map thread o) (kept : map.Persists map')
    (used : ∀ S s, o = some S → g.used S = some s → g'.used S = some s) : Outside b g' map' thread o := by
  cases outside with
  | idle last => exact .idle last
  | newWaits k pos => exact .newWaits k pos
  | newReturns k S s here => exact .newReturns k S s (used S s rfl here)
  | releaseWaits S s here short => exact .releaseWaits S s (used S s rfl here) short
  | releaseReturns S => exact .releaseReturns S
  | looks k p standing => exact .looks k p (standing.persists kept)

/-- In every state of the machine the entries of spans in use are in place. -/
theorem Placed.guarded {m : Machine} (placed : Placed b answers g own m) : Guarded g m.pages.idSpanMap := by
  rcases placed.section_ with ⟨clean,_⟩ | ⟨t,_,inside,_⟩
  · exact clean.between.settled.guarded
  · exact inside.guarded

theorem Inside.held {w : Pages} (inside : Inside answers g w thread) : Mutex.pageCache ∈ thread.held := by
  obtain ⟨op,p,h,rfl,_,mem,_⟩ := inside.rest
  exact mem

variable {m : Machine} {t : Nat}

/-- A thread without mutexes stands outside. -/
theorem Placed.outside (placed : Placed b answers g own m) (held : (m.threads t).held = []) :
    Outside b g m.pages.idSpanMap (m.threads t) (own t) := by
  rcases placed.section_ with ⟨_,all⟩ | ⟨t₀,_,inside,others⟩
  · exact all t
  · refine others t (fun same => ?_)
    have mem := inside.held
    rw [← same,held] at mem
    cases mem

/-- A thread without mutexes moves on without touching the pages. -/
theorem Placed.replace (placed : Placed b answers g own m) (held : (m.threads t).held = [])
    {thread : Thread} {o : Option Nat}
    (outside : Outside b g m.pages.idSpanMap thread o) {handed : List (Nat × Span)}
    (tokens : Tokens g handed (Function.update own t o)) :
    Placed b answers g (Function.update own t o) ⟨m.pages,handed,Function.update m.threads t thread⟩ := by
  have one : ∀ u, u ≠ t → Function.update m.threads t thread u = m.threads u ∧ Function.update own t o u = own u :=
    fun u ne => ⟨Function.update_of_ne ne ..,Function.update_of_ne ne ..⟩
  refine ⟨tokens,?_⟩
  rcases placed.section_ with ⟨clean,all⟩ | ⟨t₀,none,inside,others⟩
  · refine .inl ⟨clean,fun u => ?_⟩
    by_cases same : u = t
    · subst same
      simp only [Function.update_self]; exact outside
    · simp only [one u same]; exact all u
  · have ne : t₀ ≠ t := fun same => by
      have mem := inside.held
      rw [same,held] at mem; cases mem
    refine .inr ⟨t₀,by rw [(one t₀ ne).2]; exact none,by simp only [(one t₀ ne).1]; exact inside,fun u neu => ?_⟩
    by_cases same : u = t
    · subst same
      simp only [Function.update_self]; exact outside
    · simp only [one u same]; exact others u neu

theorem Tokens.keep {handed handed' : List (Nat × Span)} (tokens : Tokens g handed own) (sub : ∀ e ∈ handed', e ∈ handed)
    (nothing : own t = none) : Tokens g handed' (Function.update own t none) := by
  have same : Function.update own t none = own := by rw [← nothing,Function.update_eq_self]
  rw [same]
  exact ⟨fun S s mem => tokens.given S s (sub _ mem),tokens.used,fun u S s owned mem => tokens.apart u S s
    owned (sub _ mem),tokens.once⟩

/-- A call begins. -/
theorem Placed.call (placed : Placed b answers g own m) {last : Result} (idle : m.threads t = .idle last) {op : Op}
    (legal : m.Legal op) :
    ∃ own', Placed b answers g own' ⟨m.pages,Machine.begun m.handed op,Function.update m.threads t
    (.running op (op.code b) [])⟩ := by
  have held : (m.threads t).held = [] := by rw [idle]; rfl
  have outside := placed.outside held
  have none : own t = none := by
    rw [idle] at outside
    generalize own t = o at outside
    cases outside; rfl
  cases op with
  | newSpan k => exact ⟨_,placed.replace held (.newWaits k legal) (placed.tokens.keep (fun _ mem => mem) none)⟩
  | get k => exact ⟨_,placed.replace held (.looks k _ .start) (placed.tokens.keep (fun _ mem => mem) none)⟩
  | release S =>
    obtain ⟨s,mem,short⟩ := legal
    have used := placed.tokens.given S s mem
    refine ⟨_,placed.replace held (.releaseWaits S s used short) ⟨fun T t' mem' => ?_,fun u T owned => ?_,
      fun u T t' owned mem' => ?_,
      fun u v T owned owned' => ?_⟩⟩
    · exact placed.tokens.given T t' (List.mem_of_mem_filter mem')
    · by_cases same : u = t
      · rw [same,Function.update_self] at owned
        cases owned; rw [used]; simp
      · rw [Function.update_of_ne same] at owned; exact placed.tokens.used u T owned
    · by_cases same : u = t
      · rw [same,Function.update_self] at owned
        cases owned
        simp [Machine.begun] at mem'
      · rw [Function.update_of_ne same] at owned
        exact placed.tokens.apart u T t' owned (List.mem_of_mem_filter mem')
    · by_cases same : u = t
      · by_cases same' : v = t
        · rw [same,same']
        · rw [same,Function.update_self] at owned
          rw [Function.update_of_ne same'] at owned'
          cases owned
          exact absurd mem (placed.tokens.apart v S s owned')
      · rw [Function.update_of_ne same] at owned
        by_cases same' : v = t
        · rw [same',Function.update_self] at owned'
          cases owned'
          exact absurd mem (placed.tokens.apart u S s owned)
        · rw [Function.update_of_ne same'] at owned'
          exact placed.tokens.once u v T owned owned'

/-- A call returns. -/
theorem Placed.finish (placed : Placed b answers g own m) {op : Op} {r : Result} {h : List Mutex}
    (ended : m.threads t = .running op (.ret r) h) :
    ∃ own', Placed b answers g own' ⟨m.pages,Machine.returned m.handed r,Function.update m.threads t (.idle r)⟩ := by
  have notInside : ¬ Inside answers g m.pages (m.threads t) := by
    intro inside
    obtain ⟨op',p,h',same,_⟩ := inside.rest
    rw [ended] at same
    injection same with _ code _
    cases p <;> cases code
  have outside : Outside b g m.pages.idSpanMap (m.threads t) (own t) := by
    rcases placed.section_ with ⟨_,all⟩ | ⟨t₀,_,inside,others⟩
    · exact all t
    · exact others t (fun same => notInside (same ▸ inside))
  have held := outside.held
  rw [ended] at outside
  generalize owned : own t = o at outside
  cases outside with
  | newReturns k S s used =>
    refine ⟨_,placed.replace held (.idle _) ⟨fun T t' mem => ?_,fun u T ownedT => ?_,
      fun u T t' ownedT mem => ?_,fun u v T hu hv => ?_⟩⟩
    · rcases List.mem_cons.mp mem with same | old
      · cases same; exact used
      · exact placed.tokens.given T t' old
    · by_cases same : u = t
      · rw [same,Function.update_self] at ownedT; cases ownedT
      · rw [Function.update_of_ne same] at ownedT; exact placed.tokens.used u T ownedT
    · by_cases same : u = t
      · rw [same,Function.update_self] at ownedT; cases ownedT
      · rw [Function.update_of_ne same] at ownedT
        rcases List.mem_cons.mp mem with here | old
        · cases here; exact same (placed.tokens.once u t S ownedT owned)
        · exact placed.tokens.apart u T t' ownedT old
    · by_cases same : u = t
      · rw [same,Function.update_self] at hu; cases hu
      · by_cases same' : v = t
        · rw [same',Function.update_self] at hv; cases hv
        · rw [Function.update_of_ne same] at hu
          rw [Function.update_of_ne same'] at hv
          exact placed.tokens.once u v T hu hv
  | releaseReturns S => exact ⟨_,placed.replace held (.idle _) (placed.tokens.keep (fun _ mem => mem) owned)⟩
  | looks k _ standing =>
    obtain ⟨v,rfl⟩ := standing.entry
    exact ⟨_,placed.replace held (.idle _) (placed.tokens.keep (fun _ mem => mem) owned)⟩

/-- The tokens once a thread has none, or has that of a span new to the ledger. -/
theorem Tokens.drop {handed : List (Nat × Span)} (tokens : Tokens g handed own) {S : Nat} (owned : own t = some S) :
    Tokens (g.giveBack S) handed (Function.update own t none) := by
  have other : ∀ u T, Function.update own t none u = some T → own u = some T ∧ T ≠ S := by
    intro u T ownedT
    by_cases same : u = t
    · rw [same,Function.update_self] at ownedT; cases ownedT
    · rw [Function.update_of_ne same] at ownedT
      exact ⟨ownedT,fun equal => same (tokens.once u t S (equal ▸ ownedT) owned)⟩
  refine ⟨fun T s mem => ?_,fun u T ownedT => ?_,fun u T s ownedT => tokens.apart u T s (other u T ownedT).1,
    fun u v T hu hv => tokens.once u v T (other u T hu).1 (other v T hv).1⟩
  · have ne : T ≠ S := fun equal => tokens.apart t S s owned (equal ▸ mem)
    rw [Ledger.giveBack_other g ne]; exact tokens.given T s mem
  · obtain ⟨before,ne⟩ := other u T ownedT
    rw [Ledger.giveBack_other g ne]; exact tokens.used u T before

theorem Tokens.gain {handed : List (Nat × Span)} (tokens : Tokens g handed own)
    (kept : ∀ S s, g.used S = some s → g'.used S = some s) {S : Nat} {s : Span} (new : g.used S = none)
    (used : g'.used S = some s) : Tokens g' handed (Function.update own t (some S)) := by
  have cases : ∀ u T, Function.update own t (some S) u = some T → (u = t ∧ T = S) ∨ (u ≠ t ∧ own u = some T ∧ T ≠ S) := by
    intro u T ownedT
    by_cases same : u = t
    · rw [same,Function.update_self] at ownedT; cases ownedT; exact .inl ⟨same,rfl⟩
    · rw [Function.update_of_ne same] at ownedT
      exact .inr ⟨same,ownedT,fun equal => tokens.used u T ownedT (equal ▸ new)⟩
  refine ⟨fun T s' mem => kept T s' (tokens.given T s' mem),fun u T ownedT => ?_,
    fun u T s' ownedT mem => ?_,fun u v T hu hv => ?_⟩
  · rcases cases u T ownedT with ⟨_,rfl⟩ | ⟨_,before,_⟩
    · rw [used]; simp
    · obtain ⟨s',there⟩ := Option.ne_none_iff_exists'.mp (tokens.used u T before)
      rw [kept T s' there]; simp
  · rcases cases u T ownedT with ⟨_,rfl⟩ | ⟨_,before,_⟩
    · have given := tokens.given T s' mem
      rw [new] at given; cases given
    · exact tokens.apart u T s' before mem
  · rcases cases u T hu with ⟨rfl,rfl⟩ | ⟨_,before,ne⟩ <;> rcases cases v T hv with ⟨rfl,same⟩ | ⟨_,before',ne'⟩
    · rfl
    · exact absurd rfl ne'
    · exact absurd same ne
    · exact tokens.once u v T before before'

/-- The thread in the section makes its next operation. -/
theorem Tokens.inside_move {w' : Pages} {thread : Thread} (tokens : Tokens g m.handed own) (nothing : own t = none)
    (inside : Inside answers g w' thread) (persists : m.pages.idSpanMap.Persists w'.idSpanMap)
    (others : ∀ u, u ≠ t → Outside b g m.pages.idSpanMap (m.threads u) (own u)) :
    Placed b answers g own ⟨w',m.handed,Function.update m.threads t thread⟩ := by
  refine ⟨tokens,.inr ⟨t,nothing,?_,fun u ne => ?_⟩⟩
  · simp only [Function.update_self]; exact inside
  · simp only [Function.update_of_ne ne]
    exact (others u ne).mono persists (fun _ _ _ same => same)

/-- The thread in the section lets go of the mutex. -/
theorem Tokens.leave {op : Op} {r : Result} {h : List Mutex} (tokens : Tokens g m.handed own) (nothing : own t = none)
    (ends : Ends g op r h m.pages) (others : ∀ u, u ≠ t → Outside b g m.pages.idSpanMap (m.threads u) (own u)) :
    ∃ g' own', Placed b answers g' own'
    ⟨m.pages,m.handed,Function.update m.threads t (.running op (.ret r) (h.erase .pageCache))⟩ := by
  obtain ⟨rfl,g',clean,kept,gives⟩ := ends
  have all : ∀ o thread, Outside b g' m.pages.idSpanMap thread o →
      ∀ u, Outside b g' m.pages.idSpanMap (Function.update m.threads t thread u) (Function.update own t o u) := by
    intro o thread here u
    by_cases same : u = t
    · subst same
      simp only [Function.update_self]; exact here
    · simp only [Function.update_of_ne same]
      exact (others u same).mono (.refl _) (fun S s _ => kept S s)
  rw [List.erase_cons_head]
  cases op with
  | newSpan k =>
    cases r with
    | span S s => exact ⟨g',_,tokens.gain kept gives.1 gives.2,.inl ⟨clean,all _ _ (.newReturns k S s gives.2)⟩⟩
    | done => exact gives.elim
    | entry v => exact gives.elim
  | release S =>
    cases r with
    | done =>
      refine ⟨g',Function.update own t none,?_,.inl ⟨clean,all _ _ (.releaseReturns S)⟩⟩
      have same : Function.update own t none = own := by rw [← nothing,Function.update_eq_self]
      rw [same]
      refine ⟨fun T s mem => kept T s (tokens.given T s mem),fun u T owned => ?_,tokens.apart,tokens.once⟩
      obtain ⟨s,there⟩ := Option.ne_none_iff_exists'.mp (tokens.used u T owned)
      rw [kept T s there]; simp
    | span S s => exact gives.elim
    | entry v => exact gives.elim
  | get k => exact gives.elim

/-- A thread makes one operation. -/
theorem Placed.move (promised : ∀ os q a, answers os q a → os.promises q a) (placed : Placed b answers g own m) {op : Op}
    {p p' : Code Pages Result} {h h' : List Mutex} {w' : Pages} (running : m.threads t = .running op p h)
    (move : Move (fun w q a => answers w.os q a) (p,h,m.pages) (p',h',w'))
    (free : ∀ l ∈ h', l ∉ h → ∀ u, u ≠ t → l ∉ (m.threads u).held) :
    m.pages.idSpanMap.Persists w'.idSpanMap ∧
      ∃ g' own', Placed b answers g' own' ⟨w',m.handed,Function.update m.threads t (.running op p' h')⟩ := by
  have held : ((m.threads t).held = [] ∧ Outside b g m.pages.idSpanMap (m.threads t) (own t)) ∨
      (own t = none ∧ Inside answers g m.pages (m.threads t) ∧
        ∀ u, u ≠ t → Outside b g m.pages.idSpanMap (m.threads u) (own u)) := by
    rcases placed.section_ with ⟨_,all⟩ | ⟨t₀,nothing,inside,others⟩
    · exact .inl ⟨(all t).held,all t⟩
    · by_cases same : t = t₀
      · subst same; exact .inr ⟨nothing,inside,others⟩
      · exact .inl ⟨(others t same).held,others t same⟩
  rcases held with ⟨held,outside⟩ | ⟨nothing,inside,others⟩
  · -- Nobody else is in the section once this thread has entered it.
    have alone : ∀ l ∈ h', l ∉ h → l = Mutex.pageCache → Clean g m.pages ∧
        ∀ u, Outside b g m.pages.idSpanMap (m.threads u) (own u) := by
      rintro l mem new rfl
      rcases placed.section_ with clean | ⟨t₀,_,inside,_⟩
      · exact clean
      · have ne : t₀ ≠ t := fun same => by
          have mem := inside.held
          rw [same,held] at mem; cases mem
        exact absurd inside.held (free _ mem new t₀ ne)
    rw [running] at outside
    generalize owned : own t = o at outside
    cases outside with
    | newWaits k pos =>
      cases move with
      | lock _ _ fresh =>
        obtain ⟨clean,all⟩ := alone _ (by simp) (by simp) rfl
        exact ⟨.refl _,g,own,placed.tokens.inside_move owned ⟨clean.between.settled.guarded,_,_,_,rfl,by simp,by simp,
          newBody_wp promised clean pos⟩
          (.refl _) (fun u _ => all u)⟩
    | newReturns k S s used => cases move
    | releaseWaits S s used short =>
      cases move with
      | lock _ _ fresh =>
        obtain ⟨clean,all⟩ := alone _ (by simp) (by simp) rfl
        have tokens := placed.tokens.drop owned
        have guarded : Guarded (g.giveBack S) m.pages.idSpanMap := (clean.between.settled.takeBack used).1.guarded
        refine ⟨.refl _,g.giveBack S,Function.update own t none,tokens.inside_move (Function.update_self ..)
          ⟨guarded,_,_,_,rfl,by simp,by simp,releaseBody_wp promised clean used short⟩ (.refl _) (fun u ne => ?_)⟩
        rw [Function.update_of_ne ne]
        refine (all u).mono (.refl _) (fun T s' ownedT usedT => ?_)
        rw [Ledger.giveBack_other g (fun (same : T = S) => ne (placed.tokens.once u t S (same ▸ ownedT) owned))]
        exact usedT
    | releaseReturns S => cases move
    | looks k _ standing =>
      obtain ⟨rfl,rfl,standing'⟩ := standing.move move
      exact ⟨.refl _,g,_,placed.replace held (.looks k _ standing') (placed.tokens.keep (fun _ mem => mem) owned)⟩
  · obtain ⟨op',q,h₀,same,kind,mem,rest⟩ := inside.rest
    rw [running] at same
    injection same with op_eq p_eq h_eq
    subst op_eq p_eq h_eq
    rcases move.of_bind with ⟨r,rfl,last⟩ | ⟨q',rfl,inner⟩
    · cases last with
      | unlock _ _ _ => exact ⟨.refl _,placed.tokens.leave nothing rest others⟩
    · have rest' := wp_move (R := sectionRules answers g) inner rest
      have kept : Mutex.pageCache ∈ h' ∧ Guarded g w'.idSpanMap ∧ m.pages.idSpanMap.Persists w'.idSpanMap := by
        rcases wp_move_seen (R := sectionRules answers g) inner rest with ⟨rfl,rfl⟩ | seen
        · exact ⟨mem,inside.guarded,.refl _⟩
        · obtain ⟨held,_,guarded,persists⟩ := seen rfl
          exact ⟨held,guarded,persists⟩
      exact ⟨kept.2.2,g,own,placed.tokens.inside_move nothing ⟨kept.2.1,_,_,_,rfl,kind,kept.1,rest'⟩ kept.2.2 others⟩

/-- One step of the machine. -/
theorem Placed.step (promised : ∀ os q a, answers os q a → os.promises q a)
    (placed : Placed b answers g own m) {m' : Machine}
    (step : Machine.Step b answers m m') :
    m.pages.idSpanMap.Persists m'.pages.idSpanMap ∧ ∃ g' own', Placed b answers g' own' m' := by
  cases step with
  | call idle legal =>
    obtain ⟨own',placed'⟩ := placed.call idle legal
    exact ⟨.refl _,g,own',placed'⟩
  | move running move free => exact placed.move promised running move free
  | finish ended =>
    obtain ⟨own',placed'⟩ := placed.finish ended
    exact ⟨.refl _,g,own',placed'⟩

end

section
variable {b : Build} {answers : Answers} {m m' : Machine}

theorem Machine.Reachable.placed (promised : ∀ os q a, answers os q a → os.promises q a)
    (reachable : Machine.Reachable b answers m) : ∃ g own, Placed b answers g own m := by
  induction reachable with
  | refl =>
    refine ⟨.start,fun _ => none,⟨?_,?_,?_,?_⟩,.inl ⟨⟨⟨settled_start,?_⟩,rfl⟩,fun t => .idle _⟩⟩
    · exact fun S s mem => nomatch mem
    · exact fun t S owned => nomatch owned
    · exact fun t S s owned => nomatch owned
    · exact fun t u S owned => nomatch owned
    · exact fun S s used => nomatch used
  | tail _ step ih =>
    obtain ⟨g,own,placed⟩ := ih
    exact (placed.step promised step).2

/-- Nodes that are published stay published from any reachable state on. -/
theorem Machine.Reachable.persists (promised : ∀ os q a, answers os q a → os.promises q a)
    (reachable : Machine.Reachable b answers m) (later : Relation.ReflTransGen (Machine.Step b answers) m m') :
    m.pages.idSpanMap.Persists m'.pages.idSpanMap := by
  induction later with
  | refl => exact .refl _
  | tail before step ih =>
    obtain ⟨g,own,placed⟩ := Machine.Reachable.placed promised (reachable.trans before)
    exact ih.trans (placed.step promised step).1

end

/-! ### What a lookup finds -/

/-- Where a lookup of `k` stands that is going to find `S`. -/
inductive Finds (map : PageMap) (k S : Nat) : Code Pages Result → Prop
  | start : Finds map k S (lookup k)
  | mid (mid : Nat) (small : ¬ 0 < k >>> bits) (published : mid ≠ 0 → map.root (PageMap.i1 bits k) = mid)
      (null : mid = 0 → S = 0) : Finds map k S (lookupFromMid k mid)
  | leaf (mid leaf : Nat) (small : ¬ 0 < k >>> bits) (some : mid ≠ 0) (published : map.root (PageMap.i1 bits k) = mid)
      (below : leaf ≠ 0 → map.mids mid (PageMap.i2 bits k) = leaf) (null : leaf = 0 → S = 0) :
      Finds map k S (lookupFromLeaf k leaf)
  | done : Finds map k S (.ret (.entry S))

section
variable {map map' : PageMap} {k S : Nat} {p p' : Code Pages Result}

theorem Finds.persists (kept : map.Persists map') (finds : Finds map k S p) : Finds map' k S p := by
  cases finds with
  | start => exact .start
  | mid mid small published null =>
    refine .mid mid small (fun some => ?_) null
    rw [kept.mid _ (by rw [published some]; exact some)]
    exact published some
  | leaf mid leaf small some published below null =>
    refine .leaf mid leaf small some ?_ (fun some' => ?_) null
    · rw [kept.mid _ (by rw [published]; exact some)]; exact published
    · have there := kept.leaf (PageMap.i1 bits k) (PageMap.i2 bits k) (by rw [published]; exact some)
        (by rw [published,below some']; exact some')
      rw [published] at there
      rw [there]; exact below some'
  | done => exact .done

/-- The lookup goes on while the entry of `k` is `S`. -/
theorem Finds.move {allowed : Pages → Request → Option Nat → Prop} {h h' : List Mutex} {w w' : Pages}
    (finds : Finds w.idSpanMap k S p) (there : w.idSpanMap.get bits k = S) (move : Move allowed (p,h,w) (p',h',w')) :
    Finds w.idSpanMap k S p' := by
  cases finds with
  | start =>
    obtain ⟨small,rfl,rfl,rfl⟩ := lookup_move move
    refine .mid _ small (fun _ => rfl) (fun null => ?_)
    rw [← there,PageMap.get]; simp [null]
  | mid mid small published null =>
    obtain ⟨some,rfl,rfl,rfl⟩ := lookupFromMid_move move
    refine .leaf mid _ small some (published some) (fun _ => rfl) (fun null' => ?_)
    rw [← there,PageMap.get]; simp [published some,null']
  | leaf mid leaf small some published below null =>
    obtain ⟨some',rfl,rfl,rfl⟩ := lookupFromLeaf_move move
    have found : w'.idSpanMap.leaves leaf (PageMap.i3 bits k) = S := by
      rw [← there,PageMap.get]; simp [small,published,some,below some',some']
    rw [found]; exact .done
  | done => cases move

/-- A lookup that has come to its end has found `S`. -/
theorem Finds.ret {r : Result} (finds : Finds map k S (.ret r)) (there : map.get bits k = S) : r = .entry S := by
  generalize code : (Prog.ret r : Code Pages Result) = p at finds
  cases finds with
  | start =>
    by_cases big : 0 < k >>> bits
    · simp only [lookup,PageMap.load,if_pos big] at code
      cases code; rw [← there,PageMap.get,if_pos big]
    · simp only [lookup,PageMap.load,if_neg big] at code
      cases code
  | mid mid small published null =>
    by_cases none : mid = 0
    · simp only [lookupFromMid,PageMap.afterRoot,if_pos none] at code
      cases code; rw [null none]
    · simp only [lookupFromMid,PageMap.afterRoot,if_neg none] at code
      cases code
  | leaf mid leaf small some published below null =>
    by_cases none : leaf = 0
    · simp only [lookupFromLeaf,PageMap.afterMid,if_pos none] at code
      cases code; rw [null none]
    · simp only [lookupFromLeaf,PageMap.afterMid,if_neg none] at code
      cases code
  | done => cases code; rfl

end

namespace Machine

/-- Page `k` belongs to a span in the callers' hands that can be merged. -/
def Belongs (m : Machine) (k S : Nat) : Prop := ∃ s, (S,s) ∈ m.handed ∧ s.n < npages ∧ k ∈ s.pages

/-- Thread `t` is in a lookup of `k`. -/
def Looks (m : Machine) (t k : Nat) : Prop := ∃ p h, m.threads t = .running (.get k) p h

/-- Steps of any threads, `t` being in its lookup of `k` and `k` belonging to `S`. -/
def During (b : Build) (answers : Answers) (t k S : Nat) : Machine → Machine → Prop :=
  Relation.ReflTransGen (fun m m' => Step b answers m m' ∧ m'.Looks t k ∧ m'.Belongs k S)

section
variable {b : Build} {answers : Answers} {m m' : Machine} {t k S : Nat}

theorem During.steps (during : During b answers t k S m m') : Relation.ReflTransGen (Step b answers) m m' :=
  Relation.ReflTransGen.mono (fun _ _ step => step.1) _ _ during

theorem Belongs.there (placed : ∃ g own, Placed b answers g own m) (belongs : m.Belongs k S) :
    m.pages.idSpanMap.get bits k = S := by
  obtain ⟨g,own,placed⟩ := placed
  obtain ⟨s,mem,short,page⟩ := belongs
  exact placed.guarded S s (placed.tokens.given S s mem) short k page

/-- A step of the machine, as a thread in a lookup sees it. -/
theorem Step.of_looks (step : Step b answers m m') {p p' : Code Pages Result} {h h' : List Mutex}
    (before : m.threads t = .running (.get k) p h) (after : m'.threads t = .running (.get k) p' h') :
    p' = p ∨ Move (fun w q a => answers w.os q a) (p,h,m.pages) (p',h',m'.pages) := by
  cases step with
  | @call u last op idle legal =>
    by_cases same : t = u
    · rw [same,idle] at before; cases before
    · simp only [Function.update_of_ne same,before] at after
      cases after; exact .inl rfl
  | @move u op q q' h₁ h₂ w' running move free =>
    by_cases same : t = u
    · subst same
      simp only [Function.update_self] at after
      rw [running] at before
      cases before; cases after
      exact .inr move
    · simp only [Function.update_of_ne same,before] at after
      cases after; exact .inl rfl
  | @finish u op r h ended =>
    by_cases same : t = u
    · subst same
      simp only [Function.update_self] at after
      cases after
    · simp only [Function.update_of_ne same,before] at after
      cases after; exact .inl rfl

/-- While `k` belongs to `S`, a lookup of `k` is on its way to `S`. -/
theorem During.finds (promised : ∀ os q a, answers os q a → os.promises q a)
    (reachable : Reachable b answers m) {h₀ : List Mutex}
    (begins : m.threads t = .running (.get k) (lookup k) h₀) (belongs : m.Belongs k S)
    (during : During b answers t k S m m') :
    m'.Belongs k S ∧ ∃ p h, m'.threads t = .running (.get k) p h ∧ Finds m'.pages.idSpanMap k S p := by
  induction during with
  | refl => exact ⟨belongs,_,_,begins,.start⟩
  | @tail m₁ m₂ before step ih =>
    obtain ⟨belongs₁,p,h,running,finds⟩ := ih
    obtain ⟨step,⟨p',h',running'⟩,belongs₂⟩ := step
    have placed := Reachable.placed promised (reachable.trans (During.steps before))
    have there := belongs₁.there placed
    obtain ⟨g,own,placed⟩ := placed
    refine ⟨belongs₂,p',h',running',Finds.persists (placed.step promised step).1 ?_⟩
    rcases step.of_looks running running' with rfl | move
    · exact finds
    · exact finds.move there move

/-- In any reachable state a lookup has only loaded nodes that are published. -/
theorem Reachable.lookupAt (promised : ∀ os q a, answers os q a → os.promises q a) (reachable : Reachable b answers m)
    {p : Code Pages Result} {h : List Mutex} (running : m.threads t = .running (.get k) p h) :
    LookupAt m.pages.idSpanMap k p := by
  obtain ⟨g,own,placed⟩ := reachable.placed promised
  have outside : Outside b g m.pages.idSpanMap (m.threads t) (own t) := by
    rcases placed.section_ with ⟨_,all⟩ | ⟨t₀,_,inside,others⟩
    · exact all t
    · refine others t (fun same => ?_)
      obtain ⟨op,q,h₀,here,kind,_⟩ := inside.rest
      rw [← same,running] at here
      cases here
      exact kind k rfl
  rw [running] at outside
  generalize own t = o at outside
  cases outside with
  | looks k p standing => exact standing

end
end Machine

/-- A lookup that begins and ends while its page belongs to one span returns that
    span; and the nodes that a lookup has loaded are, from then on, the nodes
    published for its page number. The system never fails and answers in whole pages. -/
theorem lookups_sound (b : Build) :
    (∀ m m' t k S h₀ h r, Machine.Reachable b (OS.allows (2 ^ pageShift)) m → m.threads t = .running (.get k) (lookup k) h₀ →
      m.Belongs k S → Machine.During b (OS.allows (2 ^ pageShift)) t k S m m' → m'.threads t = .running (.get k) (.ret r) h →
      r = .entry S) ∧
    ∀ m m' t k p h, Machine.Reachable b (OS.allows (2 ^ pageShift)) m → m.threads t = .running (.get k) p h →
      Relation.ReflTransGen (Machine.Step b (OS.allows (2 ^ pageShift))) m m' → LookupAt m'.pages.idSpanMap k p := by
  have promised : ∀ os q a, OS.allows (2 ^ pageShift) os q a → OS.promises os q a := fun _ _ _ => OS.allows_promises
  constructor
  · intro m m' t k S h₀ h r reachable begins belongs during ended
    obtain ⟨belongs',p,h',running,finds⟩ := during.finds promised reachable begins belongs
    rw [ended] at running
    cases running
    exact finds.ret (belongs'.there (Machine.Reachable.placed promised (reachable.trans during.steps)))
  · intro m m' t k p h reachable running later
    exact (reachable.lookupAt promised running).persists (reachable.persists promised later)

/-! ### A run -/

namespace Machine

/-- The machine with thread `t` at a point of its operation. -/
def at_ (m : Machine) (t : Nat) (op : Op) (c : Code Pages Result × List Mutex × Pages) : Machine :=
  ⟨c.2.2,m.handed,Function.update m.threads t (.running op c.1 c.2.1)⟩

theorem at_thread (m : Machine) (t : Nat) (op : Op) (c : Code Pages Result × List Mutex × Pages) :
    (m.at_ t op c).threads t = .running op c.1 c.2.1 := Function.update_self ..

/-- A run of one thread, the others holding nothing, is a run of the machine. -/
theorem steps_of_run {b : Build} {answers : Answers} {m : Machine} {t : Nat} {o : Op} {P : Machine → Prop}
    (others : ∀ u, u ≠ t → (m.threads u).held = []) {c d : Code Pages Result × List Mutex × Pages}
    (run : Run (fun w q a => answers w.os q a) c d) (ok : ∀ c, P (m.at_ t o c)) :
    Relation.ReflTransGen (fun m m' => Step b answers m m' ∧ P m') (m.at_ t o c) (m.at_ t o d) := by
  induction run with
  | refl => exact .refl
  | @tail c d _ move ih =>
    refine .tail ih ⟨?_,ok d⟩
    have step := Step.move (b := b) (m := m.at_ t o c) (t := t) (m.at_thread ..) move (fun l _ _ u ne => ?_)
    · simpa only [at_,Function.update_idem] using step
    · simp only [at_,Function.update_of_ne ne,others u ne]
      exact List.not_mem_nil

/-- A call that runs while no other thread does, with `P` in every state of it. -/
theorem steps_of_call {b : Build} {answers : Answers} {m : Machine} {t : Nat} {o : Op} {last r : Result}
    {h : List Mutex} {w : Pages} {P : Machine → Prop}
    (others : ∀ u, u ≠ t → (m.threads u).held = []) (idle : m.threads t = .idle last) (legal : m.Legal o)
    (run : Run (fun w q a => answers w.os q a) (o.code b,[],m.pages) (.ret r,h,w))
    (ok : ∀ m' : Machine, (∀ u, u ≠ t → m'.threads u = m.threads u) →
      m'.handed = begun m.handed o ∨ m'.handed = returned (begun m.handed o) r → P m') :
    Relation.ReflTransGen (fun m m' => Step b answers m m' ∧ P m') m
      ⟨w,returned (begun m.handed o) r,Function.update m.threads t (.idle r)⟩ := by
  have rest : ∀ thread, ∀ u, u ≠ t → Function.update m.threads t thread u = m.threads u :=
    fun thread u ne => Function.update_of_ne ne ..
  have called : Step b answers m (at_ ⟨m.pages,begun m.handed o,m.threads⟩ t o (o.code b,[],m.pages)) := .call idle legal
  have runs := steps_of_run (b := b) (m := ⟨m.pages,begun m.handed o,m.threads⟩) (o := o) (P := P) others run
    (fun c => ok _ (rest _) (.inl rfl))
  have finished : Step b answers _ _ := .finish
    (m := at_ ⟨m.pages,begun m.handed o,m.threads⟩ t o (.ret r,h,w)) (t := t) (at_thread ..)
  simp only [at_,Function.update_idem] at finished
  exact .head ⟨called,ok _ (rest _) (.inl rfl)⟩ (runs.tail ⟨finished,ok _ (rest _) (.inr rfl)⟩)

/-- What is in the callers' hands is still there when a call has returned. -/
theorem returned_kept {handed : List (Nat × Span)} {e : Nat × Span} (mem : e ∈ handed) (r : Result) :
    e ∈ returned handed r := by
  cases r with
  | span S s => exact List.mem_cons_of_mem _ mem
  | done => exact mem
  | entry v => exact mem

section
variable {b : Build} {answers : Answers} {m : Machine} {t u k S : Nat} {p p' : Code Pages Result} {h : List Mutex} {w : Pages}
  {o : Op} {last r : Result} (belongs : m.Belongs k S) (stands : m.threads t = .running (.get k) p [])
include belongs stands

/-- A lookup goes on while the other threads hold nothing. -/
theorem during_run (others : ∀ u, u ≠ t → (m.threads u).held = [])
    (run : Run (fun w q a => answers w.os q a) (p,[],m.pages) (p',h,w)) :
    During b answers t k S m (m.at_ t (.get k) (p',h,w)) := by
  have here : m.at_ t (.get k) (p,[],m.pages) = m := by rw [at_,← stands,Function.update_eq_self]
  have runs := steps_of_run (b := b) (m := m) (o := .get k) (P := fun m' => m'.Looks t k ∧ m'.Belongs k S) others run
    (fun c => ⟨⟨c.1,c.2.1,m.at_thread t _ c⟩,belongs⟩)
  rwa [here] at runs

/-- Another thread gets a span while the lookup is where it is. -/
theorem during_newSpan {n : Nat} (pos : 0 < n) (ne : t ≠ u) (others : ∀ v, v ≠ u → (m.threads v).held = [])
    (idle : m.threads u = .idle last)
    (run : Run (fun w q a => answers w.os q a) ((Op.newSpan n).code b,[],m.pages) (.ret r,h,w)) :
    During b answers t k S m ⟨w,returned m.handed r,Function.update m.threads u (.idle r)⟩ := by
  obtain ⟨s,mem,page⟩ := belongs
  refine steps_of_call (o := .newSpan n) (P := fun m' => m'.Looks t k ∧ m'.Belongs k S) others idle pos run
    (fun m' same handed => ⟨⟨p,[],(same t ne).trans stands⟩,s,?_,page⟩)
  rcases handed with handed | handed <;> rw [handed]
  · exact mem
  · exact returned_kept mem r

/-- A lookup with a call of `NewSpan` by another thread in the middle of it. -/
theorem during_between {n : Nat} {p'' : Code Pages Result} {h' : List Mutex} {w' w'' : Pages} (pos : 0 < n) (ne : t ≠ u)
    (rest : ∀ v, (m.threads v).held = []) (idle : m.threads u = .idle last)
    (first : Run (fun w q a => answers w.os q a) (p,[],m.pages) (p',[],w))
    (call : Run (fun w q a => answers w.os q a) ((Op.newSpan n).code b,[],w) (.ret r,h,w'))
    (second : Run (fun w q a => answers w.os q a) (p',[],w') (p'',h',w'')) :
    During b answers t k S m (at_ ⟨w',returned m.handed r,Function.update (m.at_ t (.get k) (p',[],w)).threads u (.idle r)⟩
      t (.get k) (p'',h',w'')) := by
  set m₁ := m.at_ t (.get k) (p',[],w) with begun
  set m₂ : Machine := ⟨w',returned m₁.handed r,Function.update m₁.threads u (.idle r)⟩ with called
  have looks : m₁.threads t = .running (.get k) p' [] := m.at_thread ..
  have rest₁ : ∀ v, (m₁.threads v).held = [] := fun v => by
    by_cases same : v = t
    · rw [same,looks]; rfl
    · rw [begun]
      simp only [at_,Function.update_of_ne same,rest]
  have idle₁ : m₁.threads u = .idle last := by
    rw [begun]
    simp only [at_,Function.update_of_ne ne.symm,idle]
  have looks₂ : m₂.threads t = .running (.get k) p' [] := (Function.update_of_ne ne ..).trans looks
  have rest₂ : ∀ v, (m₂.threads v).held = [] := fun v => by
    by_cases same : v = u
    · rw [same,called]
      simp only [Function.update_self,Thread.held]
    · exact (congrArg Thread.held (Function.update_of_ne same ..)).trans (rest₁ v)
  have belongs₂ : m₂.Belongs k S := by
    obtain ⟨s,mem,page⟩ := belongs
    exact ⟨s,returned_kept mem r,page⟩
  have loads : During b answers t k S m m₁ := during_run belongs stands (fun v _ => rest v) first
  have stores : During b answers t k S m₁ m₂ := during_newSpan belongs looks pos ne (fun v _ => rest₁ v) idle₁ call
  exact (loads.trans stores).trans (during_run belongs₂ looks₂ (fun v _ => rest₂ v) second)

end
end Machine

/-- Two runs of `NewSpan(1)` from the start, and what is left of a lookup of the first
    span's page that has loaded its first entry before the second of them. -/
@[irreducible] def firstSpan : Code Pages Result × List Mutex × Pages :=
  (exec (fun w => answered (2 ^ pageShift) w.os) ((Op.newSpan 1).code .standard)
    [some (1500 * 8192),some (300 * 8192),some (400 * 8192),some (500 * 8192)] [] start).1
@[irreducible] def secondSpan : Code Pages Result × List Mutex × Pages :=
  (exec (fun w => answered (2 ^ pageShift) w.os) ((Op.newSpan 1).code .standard) [] [] firstSpan.2.2).1
@[irreducible] def firstMid : Nat := firstSpan.2.2.idSpanMap.root (PageMap.i1 bits 1500)
@[irreducible] def restLookup : Code Pages Result × List Mutex × Pages :=
  (exec (fun w => answered (2 ^ pageShift) w.os) (lookupFromMid 1500 firstMid) [] [] secondSpan.2.2).1

/-- What a run has returned, if it has come to its end. -/
def ending : Code Pages Result × List Mutex × Pages → Option Result
  | (.ret r,_,_) => some r
  | _ => none

theorem ending_eq {c : Code Pages Result × List Mutex × Pages} {r : Result} (ended : ending c = some r) :
    c = (.ret r,c.2.1,c.2.2) := by
  obtain ⟨p,h,w⟩ := c
  cases p <;> cases ended; rfl

/-- Thread 1 looks the first span up while thread 0 cuts the second one off what is left,
    and stores the entries of its page and of the rest. -/
theorem lookups_sound_first : ∃ m m' h r, m.Belongs 1500 (300 * 8192 + 64) ∧
    Machine.During .standard (OS.allows (2 ^ pageShift)) 1 1500 (300 * 8192 + 64) m m' ∧
    m'.pages.idSpanMap.get bits 1501 ≠ m.pages.idSpanMap.get bits 1501 ∧
    m'.threads 1 = .running (.get 1500) (.ret r) h ∧ r = .entry (300 * 8192 + 64) := by
  have sound : ∀ (w : Pages) q a, answered (2 ^ pageShift) w.os q a = true → OS.allows (2 ^ pageShift) w.os q a :=
    fun _ _ _ => of_decide_eq_true
  let allowed (w : Pages) : Request → Option Nat → Prop := OS.allows (2 ^ pageShift) w.os
  have one : Run allowed ((Op.newSpan 1).code .standard,[],start) firstSpan := by
    unfold firstSpan
    exact exec_run sound _ _ _ _
  have two : Run allowed ((Op.newSpan 1).code .standard,[],firstSpan.2.2) secondSpan := by
    unfold secondSpan
    exact exec_run sound _ _ _ _
  have three : Run allowed (lookupFromMid 1500 firstMid,[],secondSpan.2.2) restLookup := by
    unfold restLookup
    exact exec_run sound _ _ _ _
  obtain ⟨s,ended⟩ : ∃ s, ending firstSpan = some (.span (300 * 8192 + 64) s) ∧ s.n < npages ∧ s.pageId = 1500 ∧ 0 < s.n :=
    ⟨{ pageId := 1500, n := 1, isUse := true },by decide +kernel⟩
  obtain ⟨r',ended'⟩ : ∃ r, ending secondSpan = some r := Option.isSome_iff_exists.mp (by decide +kernel)
  obtain ⟨r,ended''⟩ : ∃ r, ending restLookup = some r := Option.isSome_iff_exists.mp (by decide +kernel)
  have stored : secondSpan.2.2.idSpanMap.get bits 1501 ≠ firstSpan.2.2.idSpanMap.get bits 1501 := by decide +kernel
  have looked : restLookup.2.2.idSpanMap.get bits 1501 = secondSpan.2.2.idSpanMap.get bits 1501 := by decide +kernel
  rw [ending_eq ended.1] at one
  rw [ending_eq ended'] at two
  rw [ending_eq ended''] at three
  -- The first thread's call, and the lookup that the second thread begins.
  let m : Machine := ⟨firstSpan.2.2,[(300 * 8192 + 64,s)],Function.update (fun _ => .idle .done) 0
    (.idle (.span (300 * 8192 + 64) s))⟩
  have called : Relation.ReflTransGen (Machine.Step .standard (OS.allows (2 ^ pageShift))) .start m :=
    Relation.ReflTransGen.mono (fun _ _ step => step.1) _ _
      (Machine.steps_of_call (m := .start) (o := .newSpan 1) (P := fun _ => True) (fun _ _ => rfl) rfl Nat.one_pos one
        (fun _ _ _ => trivial))
  let m₁ : Machine := m.at_ 1 (.get 1500) (lookup 1500,[],firstSpan.2.2)
  have reachable : Machine.Reachable .standard (OS.allows (2 ^ pageShift)) m₁ :=
    .tail called (.call (m := m) (t := 1) rfl (show m.Legal (.get 1500) from trivial))
  have belongs : m₁.Belongs 1500 (300 * 8192 + 64) := ⟨s,List.mem_singleton_self _,ended.2.1,⟨by omega,by omega⟩⟩
  have rest : ∀ u, (m₁.threads u).held = [] := fun u => by
    by_cases looks : u = 1
    · simp only [looks,m₁,Machine.at_thread,Thread.held]
    · simp only [m₁,Machine.at_,Function.update_of_ne looks]
      by_cases same : u = 0 <;> simp [m,Function.update,same,Thread.held]
  have idle : m₁.threads 0 = .idle (.span (300 * 8192 + 64) s) := by
    simp only [m₁,Machine.at_,Function.update_of_ne Nat.zero_ne_one]
    rfl
  have loads : Run allowed (lookup 1500,[],firstSpan.2.2) (lookupFromMid 1500 firstMid,[],firstSpan.2.2) := by
    refine .single ?_
    unfold firstMid
    exact lookup_loads (by decide) [] firstSpan.2.2
  have during := Machine.during_between belongs (m.at_thread ..) Nat.one_pos Nat.one_ne_zero rest idle loads two three
  refine ⟨m₁,_,_,r,belongs,during,by rw [← looked] at stored; exact stored,Machine.at_thread ..,?_⟩
  exact (lookups_sound .standard).1 m₁ _ 1 1500 _ _ _ r reachable (m.at_thread ..) belongs during (Machine.at_thread ..)

end Pages
end TcAlloc
