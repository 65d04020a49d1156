import TcAlloc.Controls

/-!
The whole gate: `main` of the correctness gate over an allocator. It makes one run of
`RunCheck` for each size mode and pattern that the flags name, each with new threads over
what the runs before have left, then the boundary check, and exits with status 0 if no
failure was counted. Over a heap every run leaves the heap as it was at the start
(`run_over`, `boundary_over`), so the gate passes in all its runs (`main_passes`); over the broken
allocator it never does (`main_rejects`).
-/
namespace TcAlloc
namespace Verify
open World.Program (blocks Seen)
open Workload (Deal SizeMode Pattern pool)
open CrossThread (runCheck)

/-! ### The flags and the report -/

/-- What `main` has of its flags; `--alloc` is the system that it runs over. -/
structure VConfig where
  ntimes : Nat := 500
  nworks : Nat := 4
  rounds : Nat := 3
  sizeMode : SizeMode := .ramp
  pattern : Pattern := .bulkThenFree
  window : Nat := 64
  registry : Bool := false
  all : Bool := false

/-- `sizes` and `patterns`, in the order of the loops. -/
def VConfig.plan (cfg : VConfig) : List (SizeMode × Pattern) :=
  if cfg.all then
    [.fixed16,.ramp,.random,.classStep].flatMap (fun size => [.bulkThenFree,.interleaved,.crossThread].map (Prod.mk size))
  else [(cfg.sizeMode,cfg.pattern)]

/-- The configuration of a run. -/
def VConfig.for_ (cfg : VConfig) (run : SizeMode × Pattern) : Workload.Config :=
  ⟨⟨cfg.nworks,cfg.rounds,cfg.ntimes⟩,run.1,cfg.window⟩

/-- What a run notes. -/
inductive Remark where
  | of (m : Message)
  /-- "%zu pointers still live at end of %s/%s" -/
  | stillLive (n : Nat)

/-- What `main` prints and counts: a line for each run, where `none` is the boundary check. -/
structure Report where
  grandTotal : Nat := 0
  lines : List (Option (SizeMode × Pattern) × Failures) := []
  allMessages : List (Option (SizeMode × Pattern) × Remark) := []

def Report.add (r : Report) (run : Option (SizeMode × Pattern)) (f : Failures) (messages : List Remark) : Report where
  grandTotal := r.grandTotal + f.total
  lines := r.lines ++ [(run,f)]
  allMessages := r.allMessages ++ messages.map (Prod.mk run)

def Report.status (r : Report) : Nat := if r.grandTotal = 0 then 0 else 1

/-- The messages of a run, with the one about what is left in the registry. -/
def Checks.messages {nworks : Nat} (c : Checks nworks) : List Remark :=
  c.f.messages.map .of ++
    if c.reg.enabled = true ∧ c.reg.live ≠ [] ∧ c.f.messages.length < 12 then [.stillLive c.reg.live.length] else []

/-! ### main -/

/-- `RunCheck` over the allocator as it is at `s`, where the thread `k` of the run is the
    thread `base + k` of the program. -/
abbrev runOver {σ : Type} (S : System Seen σ) (cfg : VConfig) (run : SizeMode × Pattern) (base : Nat) (s : σ) :=
  (Workload.loops runCheck (cfg.for_ run) run.2).system.beside
    ((gate cfg.nworks cfg.registry).atop (S.later (Access.along (base + ·)) s))

/-- `RunBoundaryCheck` over the allocator as it is at `s`, on the first thread of the program. -/
abbrev boundaryOver {σ : Type} (S : System Seen σ) (s : σ) : System Empty (Boundary × σ) :=
  (boundary 0).atop (S.later (Access.along id) s)

/-- Where `main` is. -/
inductive Main (cfg : VConfig) (σ : Type) where
  /-- The first runs are over, and new threads are `base` and those after it. -/
  | between (r : Report) (base : Nat) (s : σ)
  | checks (r : Report) (base : Nat) (run : SizeMode × Pattern) (d : (Workload.loops runCheck (cfg.for_ run) run.2).At)
      (c : Checks cfg.nworks) (s : σ)
  | bounds (r : Report) (c : Boundary) (s : σ)
  | exits (r : Report) (status : Nat) (s : σ)

/-- A step of `main`, of its threads or of the allocator. -/
inductive MainStep {σ : Type} (S : System Seen σ) (cfg : VConfig) : Main cfg σ → Option Empty → Main cfg σ → Prop
  | starts {r : Report} {base : Nat} {s : σ} {run : SizeMode × Pattern} {d : (Workload.loops runCheck (cfg.for_ run) run.2).At}
      (next : cfg.plan[r.lines.length]? = some run) (init : (Workload.loops runCheck (cfg.for_ run) run.2).system.init d) :
      MainStep S cfg (.between r base s) none (.checks r base run d { reg := { enabled := cfg.registry } } s)
  | goes {r : Report} {base : Nat} {s s' : σ} {run : SizeMode × Pattern}
      {d d' : (Workload.loops runCheck (cfg.for_ run) run.2).At} {c c' : Checks cfg.nworks}
      {a : Option (Deal (cfg.for_ run).nworks Block)} (step : (runOver S cfg run base s).step (d,c,s) a (d',c',s')) :
      MainStep S cfg (.checks r base run d c s) none (.checks r base run d' c' s')
  /-- The threads are joined. -/
  | joins {r : Report} {base : Nat} {s : σ} {run : SizeMode × Pattern} {d : (Workload.loops runCheck (cfg.for_ run) run.2).At}
      {c : Checks cfg.nworks} (past : (Workload.loops runCheck (cfg.for_ run) run.2).past d) (idle : ∀ k, c.spot k = .idle) :
      MainStep S cfg (.checks r base run d c s) none (.between (r.add (some run) c.f c.messages) (base + cfg.nworks) s)
  | lastly {r : Report} {base : Nat} {s : σ} (none_ : cfg.plan[r.lines.length]? = none) :
      MainStep S cfg (.between r base s) none (.bounds r {} s)
  | bounds {r : Report} {c c' : Boundary} {s s' : σ} (step : (boundaryOver S s).step (c,s) none (c',s')) :
      MainStep S cfg (.bounds r c s) none (.bounds r c' s')
  | exits {r : Report} {c : Boundary} {s : σ} (over_ : c.Over) :
      MainStep S cfg (.bounds r c s) none
        (.exits (r.add none c.f (c.f.messages.map .of)) (r.add none c.f (c.f.messages.map .of)).status s)

/-- `main` over an allocator. -/
def main {σ : Type} (S : System Seen σ) (cfg : VConfig) : System Empty (Main cfg σ) where
  init x := ∃ s, S.init s ∧ x = .between {} 1 s
  step := MainStep S cfg

/-! ### What a run leaves of a heap -/

/-- What the call that a thread is in has it wait for. -/
def Spot.pending : Spot → Pending
  | .awaits n => .asking n
  | .awaitsFree => .giving
  | _ => .idle

section
variable {nworks : Nat} {c c' : Checks nworks} {h h' : Heap Nat Nat UInt8} {held : Multiset Block} {registry : Bool}

/-- The threads of the heap wait for what the threads of the checks wait for. -/
def Waits (c : Checks nworks) (h : Heap Nat Nat UInt8) : Prop :=
  (∀ k : Fin nworks, h.pending k = (c.spot k).pending) ∧ ∀ t, nworks ≤ t → h.pending t = .idle

/-- A thread is somewhere else, and waits for something else. -/
theorem Waits.put (waits : Waits c h) {k : Fin nworks} {spot : Spot} (spots : c'.spot = Function.update c.spot k spot)
    (pending : h'.pending = Function.update h.pending k spot.pending) : Waits c' h' := by
  constructor
  · intro k'
    rw [spots,pending]
    by_cases here : k' = k
    · subst here
      rw [Function.update_self,Function.update_self]
    · rw [Function.update_of_ne here,Function.update_of_ne (fun same => here (Fin.ext same))]
      exact waits.1 k'
  · intro t beyond
    have ne : t ≠ k := by
      have inside := k.isLt
      omega
    rw [pending,Function.update_of_ne ne]
    exact waits.2 t beyond

/-- A thread is somewhere else, and waits for the same. -/
theorem Waits.same (waits : Waits c h) {k : Fin nworks} {spot : Spot} (spots : c'.spot = Function.update c.spot k spot)
    (still : spot.pending = (c.spot k).pending) (pending : h'.pending = h.pending) : Waits c' h' := by
  refine waits.put spots ?_
  rw [pending,still,← waits.1 k,Function.update_eq_self]

theorem Waits.client (waits : Waits c h) (step : c.Step none c') : Waits c' h := by
  cases step with
  | @tests k n p here =>
    unfold Checks.test
    split_ifs <;> exact waits.same rfl (by rw [here]; rfl) rfl
  | @inserts k b here =>
    unfold Checks.insert
    dsimp only
    split_ifs <;> exact waits.same rfl (by rw [here]; rfl) rfl
  | filled here all => exact waits.same rfl (by rw [here]; rfl) rfl
  | checked here all => exact waits.same rfl (by rw [here]; rfl) rfl
  | erases here => exact waits.same rfl (by rw [here]; rfl) rfl

theorem Waits.server (waits : Waits c h) (step : Heap.Step blocks h none h') : Waits c h' := by
  cases step
  exact waits

theorem Waits.access {a : Seen} (waits : Waits c h) (first : c.Step (some (.inl a)) c')
    (second : Heap.Step blocks h (some a) h') : Waits c' h' := by
  cases first with
  | calls here =>
    cases second
    exact waits.put rfl rfl
  | returned here =>
    cases second
    exact waits.put rfl rfl
  | fills here more =>
    cases second
    exact waits.same rfl (by rw [here]; rfl) rfl
  | checks here more =>
    cases second
    unfold Checks.compare
    dsimp only
    split_ifs <;> exact waits.same rfl (by rw [here]; rfl) rfl
  | frees here =>
    cases second
    exact waits.put rfl rfl
  | freed here =>
    cases second
    exact waits.put rfl rfl

theorem Waits.deal {m : Deal nworks Block} (waits : Waits c h) (step : c.Step (some (.inr m)) c') : Waits c' h := by
  cases step with
  | takes here => exact waits.same rfl (by rw [here]; rfl) rfl
  | took here => exact waits.same rfl (by rw [here]; rfl) rfl
  | gives here => exact waits.same rfl (by rw [here]; split_ifs <;> rfl) rfl
  | gave here => exact waits.same rfl (by rw [here]; rfl) rfl

theorem waits_reached (reached : (honestly nworks registry).Reaches (held,c,h)) : Waits c h := by
  refine reached.keeps (P := fun s => Waits s.2.1 s.2.2) ?_ ?_
  · rintro ⟨held,c,h⟩ ⟨_,start,_,idle⟩
    cases (show c = _ from start)
    exact ⟨fun k => idle k,fun t _ => idle t⟩
  · rintro ⟨held,c,h⟩ a ⟨held',c',h'⟩ waits step
    cases step with
    | left step => cases step
    | right step =>
      cases step with
      | client step => exact waits.client step
      | server step => exact waits.server step
      | both first second => exact waits.access first second
    | both first second =>
      cases second with
      | shows second => exact waits.deal second

/-- The threads before `base` do nothing while a run goes on. -/
theorem before_idle {δ : Type} {D : System (Deal nworks Block) δ} {base : Nat} {h₀ : Heap Nat Nat UInt8}
    (idle : ∀ t, h₀.pending t = .idle) {d : δ}
    (reached : (D.beside ((gate nworks registry).atop
      ((heap Nat UInt8 blocks).later (Access.along (base + ·)) h₀))).Reaches (d,c,h)) {t : Nat} (before : t < base) :
    h.pending t = .idle := by
  refine reached.keeps (P := fun s => s.2.2.pending t = .idle) ?_ ?_
  · rintro ⟨d,c,h⟩ ⟨_,_,rfl⟩
    exact idle t
  · rintro ⟨d,c,h⟩ a ⟨d',c',h'⟩ idle step
    have other : ∀ k, t ≠ base + k := by
      intro k
      omega
    cases step with
    | left step => exact idle
    | right step =>
      cases step with
      | client step => exact idle
      | server step =>
        cases step
        exact idle
      | @both _ _ _ _ a first second =>
        cases a <;> cases second <;>
          first | exact idle | exact (Function.update_of_ne (other _) _ _).trans idle
    | both first second =>
      cases second with
      | shows second => exact idle

end

section
variable {σ : Type} {S : System Seen σ} {R : σ → Heap Nat Nat UInt8 → Prop} {cfg : VConfig} {run : SizeMode × Pattern}
  {base : Nat} {s₀ s : σ} {h₀ : Heap Nat Nat UInt8}

/-- Over what is a heap at its start a run counts no failure. When its threads are joined
    the registry is empty, and the heap is as at its start, with every thread idle. -/
theorem run_over (server : System.Simulates S (heap Nat UInt8 blocks) R) (fits : (cfg.for_ run).Fits run.2)
    (related : R s₀ h₀) (init : (heap Nat UInt8 blocks).init h₀) {d : (Workload.loops runCheck (cfg.for_ run) run.2).At}
    {c : Checks cfg.nworks} (reached : (runOver S cfg run base s₀).Reaches (d,c,s)) :
    c.f = {} ∧ ((Workload.loops runCheck (cfg.for_ run) run.2).past d → (∀ k, c.spot k = .idle) →
      (c.reg.enabled = true → c.reg.live = []) ∧ ∃ h, R s h ∧ (heap Nat UInt8 blocks).init h) := by
  obtain ⟨Q,frugal,ended⟩ := Workload.loops_simulate runCheck (cfg.for_ run) run.2 fits
  have served := (server.later related (Access.along (base + ·))).atop (gate cfg.nworks cfg.registry)
  obtain ⟨⟨held,c₁,h⟩,reached₁,holds,same,serves⟩ := (frugal.beside served).reaches reached
  cases (show c = c₁ from same)
  have injective : Function.Injective (base + ·) := fun _ _ same => Nat.add_left_cancel same
  have fresh := (heap_later (V := UInt8) (L := blocks) injective init.1 (fun t => init.2 (base + t))).atop
    (gate cfg.nworks cfg.registry)
  obtain ⟨⟨held₂,c₂,h₂⟩,reached₂,heldSame,same,along⟩ :=
    ((System.Simulates.refl (pool runCheck cfg.nworks)).beside fresh).reaches reached₁
  cases (show held = held₂ from heldSame)
  cases (show c = c₂ from same)
  cases (show h₂ = h.along (base + ·) from along)
  have honest := honest_reached reached₂
  have waits := waits_reached reached₂
  refine ⟨honest.clean,fun past idle => ?_⟩
  have none_ : held = 0 := ended d held holds past
  obtain ⟨live,registered⟩ := honest.idle idle
  rw [none_,Multiset.map_zero] at live registered
  refine ⟨fun on => Multiset.coe_eq_zero _ |>.mp (registered on),h,serves,Multiset.coe_eq_zero _ |>.mp live,fun t => ?_⟩
  by_cases before : t < base
  · exact before_idle init.2 reached₁ before
  · obtain ⟨k,rfl⟩ := Nat.exists_eq_add_of_le (Nat.le_of_not_lt before)
    by_cases inside : k < cfg.nworks
    · exact (waits.1 ⟨k,inside⟩).trans (by rw [idle]; rfl)
    · exact waits.2 k (Nat.le_of_not_lt inside)

/-- So does the boundary check. -/
theorem boundary_over (server : System.Simulates S (heap Nat UInt8 blocks) R) (related : R s₀ h₀)
    (init : (heap Nat UInt8 blocks).init h₀) {c : Boundary} (reached : (boundaryOver S s₀).Reaches (c,s)) :
    c.f = {} ∧ (c.Over → ∃ h, R s h ∧ h.live = []) := by
  have fresh := heap_later (V := UInt8) (L := blocks) Function.injective_id init.1 (fun t => init.2 (id t))
  obtain ⟨k,⟨h,serves,along⟩,bounded⟩ := bounded_over ((server.later related (Access.along id)).trans fresh) reached
  cases (show k = h.along id from along)
  exact ⟨bounded.clean,fun past => ⟨h,serves,bounded.emptied past⟩⟩

/-- The first runs are those of the plan, in its order. -/
def Report.Listed (r : Report) (cfg : VConfig) : Prop :=
  r.lines.map Prod.fst = (cfg.plan.take r.lines.length).map some

theorem Report.Listed.add {r : Report} (listed : r.Listed cfg) (next : cfg.plan[r.lines.length]? = some run) (f : Failures)
    (messages : List Remark) : (r.add (some run) f messages).Listed cfg := by
  unfold Report.Listed at *
  simp only [Report.add,List.map_append,List.map_singleton,List.length_append,List.length_singleton]
  rw [listed,List.take_add_one,next,Option.toList_some,List.map_append,List.map_singleton]

theorem Report.Listed.last {r : Report} (listed : r.Listed cfg) (none_ : cfg.plan[r.lines.length]? = none) (f : Failures)
    (messages : List Remark) : (r.add none f messages).lines.map Prod.fst = cfg.plan.map some ++ [none] := by
  unfold Report.Listed at listed
  simp only [Report.add,List.map_append,List.map_singleton]
  rw [listed,List.take_of_length_le (List.getElem?_eq_none_iff.mp none_)]

/-- No line of the report has a failure. -/
structure Report.Passed (r : Report) : Prop where
  total : r.grandTotal = 0
  messages : r.allMessages = []
  lines : ∀ line ∈ r.lines, line.2 = {}

theorem Report.Passed.add {r : Report} (passed : r.Passed) (run : Option (SizeMode × Pattern)) : (r.add run {} []).Passed := by
  refine ⟨?_,?_,fun line mem => ?_⟩
  · simp only [Report.add,passed.total]
    rfl
  · simp only [Report.add,passed.messages]
    rfl
  · rcases List.mem_append.mp mem with old | new
    · exact passed.lines line old
    · cases List.mem_singleton.mp new
      rfl

/-- No failure has been counted so far; and `main` exits with status 0 after all its runs. -/
def Main.Passed : Main cfg σ → Prop
  | .between r _ _ => r.Passed
  | .checks r _ _ _ c _ => r.Passed ∧ c.f = {}
  | .bounds r c _ => r.Passed ∧ c.f = {}
  | .exits r status _ => r.Passed ∧ status = 0 ∧ r.lines.map Prod.fst = cfg.plan.map some ++ [none]

/-- What holds along every run of `main` over what is a heap at its start. -/
def Main.Fair (S : System Seen σ) (R : σ → Heap Nat Nat UInt8 → Prop) : Main cfg σ → Prop
  | .between r _ s => r.Passed ∧ r.Listed cfg ∧ ∃ h, R s h ∧ (heap Nat UInt8 blocks).init h
  | .checks r base run d c s => r.Passed ∧ r.Listed cfg ∧ cfg.plan[r.lines.length]? = some run ∧
      ∃ s₀ h₀, R s₀ h₀ ∧ (heap Nat UInt8 blocks).init h₀ ∧ (runOver S cfg run base s₀).Reaches (d,c,s)
  | .bounds r c s => r.Passed ∧ r.Listed cfg ∧ cfg.plan[r.lines.length]? = none ∧
      ∃ s₀ h₀, R s₀ h₀ ∧ (heap Nat UInt8 blocks).init h₀ ∧ (boundaryOver S s₀).Reaches (c,s)
  | .exits r status s => r.Passed ∧ status = 0 ∧ r.lines.map Prod.fst = cfg.plan.map some ++ [none] ∧ ∃ h, R s h ∧ h.live = []

theorem Main.Fair.step (server : System.Simulates S (heap Nat UInt8 blocks) R)
    (fits : ∀ run ∈ cfg.plan, (cfg.for_ run).Fits run.2) {x x' : Main cfg σ} {a : Option Empty} (fair : x.Fair S R)
    (step : MainStep S cfg x a x') : x'.Fair S R := by
  cases step with
  | starts next start =>
    obtain ⟨passed,listed,h,related,init⟩ := fair
    exact ⟨passed,listed,next,_,h,related,init,.start ⟨start,rfl,rfl⟩⟩
  | @goes r base s s' run d d' c c' a step =>
    obtain ⟨passed,listed,next,s₀,h₀,related,init,reached⟩ := fair
    have step : (runOver S cfg run base s₀).step (d,c,s) a (d',c',s') := System.beside_later step
    exact ⟨passed,listed,next,s₀,h₀,related,init,reached.step step⟩
  | @joins r base s run d c past idle =>
    obtain ⟨passed,listed,next,s₀,h₀,related,init,reached⟩ := fair
    obtain ⟨clean,ended⟩ := run_over server (fits run (List.mem_of_getElem? next)) related init reached
    obtain ⟨registered,left⟩ := ended past idle
    have nothing : c.messages = [] := by
      rw [Checks.messages,clean,if_neg (fun still => still.2.1 (registered still.1))]
      rfl
    rw [clean,nothing]
    exact ⟨passed.add (some run),listed.add next {} [],left⟩
  | lastly none_ =>
    obtain ⟨passed,listed,h,related,init⟩ := fair
    exact ⟨passed,listed,none_,_,h,related,init,.start ⟨rfl,rfl⟩⟩
  | @bounds r c c' s s' step =>
    obtain ⟨passed,listed,none_,s₀,h₀,related,init,reached⟩ := fair
    have step : (boundaryOver S s₀).step (c,s) none (c',s') := System.atop_later step
    exact ⟨passed,listed,none_,s₀,h₀,related,init,reached.step step⟩
  | exits over_ =>
    obtain ⟨passed,listed,none_,s₀,h₀,related,init,reached⟩ := fair
    obtain ⟨clean,ended⟩ := boundary_over server related init reached
    have after := passed.add none
    rw [clean]
    exact ⟨after,if_pos after.total,listed.last none_ {} [],ended over_⟩

/-- Over any allocator that shows only what a heap shows `main` counts no failure in any
    of its runs, and exits with status 0 when it has made them all. -/
theorem main_clean (server : System.Simulates S (heap Nat UInt8 blocks) R)
    (fits : ∀ run ∈ cfg.plan, (cfg.for_ run).Fits run.2) {x : Main cfg σ} (reached : (main S cfg).Reaches x) :
    x.Passed ∧ ∀ r status s, x = .exits r status s → ∃ h, R s h ∧ h.live = [] := by
  have fair : x.Fair S R := by
    refine reached.keeps (P := Main.Fair S R) ?_ (fun x a x' fair step => fair.step server fits step)
    rintro x ⟨s,start,rfl⟩
    obtain ⟨h,init,related⟩ := server.start s start
    exact ⟨⟨rfl,rfl,fun line none_ => absurd none_ List.not_mem_nil⟩,rfl,h,related,init⟩
  cases x with
  | between r base s => exact ⟨fair.1,fun _ _ _ same => by cases same⟩
  | checks r base run d c s =>
    obtain ⟨passed,_,next,s₀,h₀,related,init,came⟩ := fair
    exact ⟨⟨passed,(run_over server (fits run (List.mem_of_getElem? next)) related init came).1⟩,
      fun _ _ _ same => by cases same⟩
  | bounds r c s =>
    obtain ⟨passed,_,_,s₀,h₀,related,init,came⟩ := fair
    exact ⟨⟨passed,(boundary_over server related init came).1⟩,fun _ _ _ same => by cases same⟩
  | exits r status s =>
    obtain ⟨passed,zero,listed,left⟩ := fair
    refine ⟨⟨passed,zero,listed⟩,fun _ _ _ same => ?_⟩
    cases same
    exact left

/-- The whole gate passes on this allocator, in every interleaving of the threads of its
    runs: with or without `--all`, for any numbers of threads, rounds and blocks, with the
    registry or without it. No failure is counted at any time; `main` exits only when all
    the runs of its plan and the boundary check have been made, with status 0 and no
    message, and then no block is live. As for one run, a ring has slots and no counter of a
    barrier wraps, the system never fails and answers in whole pages, and that `main` comes
    to an end is not part of this. -/
theorem main_passes (b : Build) (cfg : VConfig) (fits : ∀ run ∈ cfg.plan, (cfg.for_ run).Fits run.2)
    {x : Main cfg World.Program}
    (reached : (main (World.Program.system b (.upTo World.Program.spanBytes)) cfg).Reaches x) :
    x.Passed ∧ ∀ r status M, x = .exits r status M → M.live = [] := by
  have server := World.Program.follows_heap (World.Program.fair_upTo b (le_refl World.Program.spanBytes))
  obtain ⟨passed,left⟩ := main_clean server fits reached
  refine ⟨passed,fun r status M same => ?_⟩
  obtain ⟨h,⟨serves,_⟩,live⟩ := left r status M same
  rw [serves] at live
  exact live

/-- `main` goes on with a run of `RunCheck`. -/
theorem main_goes {r : Report} {d : (Workload.loops runCheck (cfg.for_ run) run.2).At} {c : Checks cfg.nworks}
    {d' : (Workload.loops runCheck (cfg.for_ run) run.2).At} {c' : Checks cfg.nworks} {s' : σ}
    {shown : List (Deal (cfg.for_ run).nworks Block)} (reached : (main S cfg).Reaches (.checks r base run d c s))
    (goes : (runOver S cfg run base s).Runs (d,c,s) shown (d',c',s')) :
    (main S cfg).Reaches (.checks r base run d' c' s') := by
  have general : ∀ shown y, (runOver S cfg run base s).Runs (d,c,s) shown y →
      (main S cfg).Reaches (.checks r base run y.1 y.2.1 y.2.2) := by
    intro shown y along
    induction along with
    | refl => exact reached
    | silent _ step ih => exact ih.step (.goes (System.beside_later step))
    | shows _ step ih => exact ih.step (.goes (System.beside_later step))
  exact general shown (d',c',s') goes

/-- One run with one block. -/
abbrev oneRun : VConfig := { ntimes := 1, nworks := 1, rounds := 1, sizeMode := .fixed16, window := 1, registry := true }

/-- Its thread is thread 1 of the program, and takes the block, stamps it, and looks at it
    before it is freed. When the threads are joined no failure has been counted. -/
theorem main_passes_joined : ∃ d c M r M', (main (World.Program.system .standard (.upTo World.Program.spanBytes)) oneRun).Reaches
      (.checks {} 1 (.fixed16,.bulkThenFree) d c M) ∧ c.f = {} ∧ M.live = [lent.place] ∧
    (main (World.Program.system .standard (.upTo World.Program.spanBytes)) oneRun).Reaches (.between r 2 M') ∧
      r.lines.length = 1 ∧ r.Passed := by
  have fits : ∀ run ∈ oneRun.plan, (oneRun.for_ run).Fits run.2 := by
    intro run mem
    cases List.mem_singleton.mp mem
    trivial
  obtain ⟨M,M',live,stamped,asked,gave⟩ := lent_runs (t := 1) (by decide +kernel)
  obtain ⟨c,idle,takes⟩ := take_runs true
  obtain ⟨c',idle',gives⟩ := give_runs (idle 0) stamped
  obtain ⟨d,d',first,second,past⟩ := oneBlock_runs
  have start : (main (World.Program.system .standard (.upTo World.Program.spanBytes)) oneRun).Reaches
      (.between {} 1 (World.Program.start (fun _ => 0))) := .start ⟨_,⟨_,rfl⟩,rfl⟩
  have started := start.step (@MainStep.starts _ _ oneRun {} 1 _ (.fixed16,.bulkThenFree) ⟨fun _ => {},fun _ => .no⟩ rfl rfl)
  have taken := main_goes started (first.beside (takes.atop (System.Runs.later asked)))
  have given := main_goes taken (second.beside (gives.atop (System.Runs.later gave)))
  have joined := given.step (.joins past idle')
  exact ⟨d,c,M,_,M',taken,(main_passes .standard oneRun fits taken).1.2,live,joined,rfl,
    (main_passes .standard oneRun fits joined).1⟩

/-! ### Over the broken allocator -/

def Main.server : Main cfg σ → σ
  | .between _ _ s => s
  | .checks _ _ _ _ _ s => s
  | .bounds _ _ s => s
  | .exits _ _ s => s

theorem MainStep.serves {x x' : Main cfg σ} {a : Option Empty} (step : MainStep S cfg x a x') (reached : S.Reaches x.server) :
    S.Reaches x'.server := by
  cases step with
  | starts next init => exact reached
  | goes step => exact System.beside_serves step reached
  | joins past idle => exact reached
  | lastly none_ => exact reached
  | bounds step => exact System.atop_serves step reached
  | exits over_ => exact reached

/-- `main` goes on with the boundary check. -/
theorem main_bounds {r : Report} {c c' : Boundary} {s' : σ} (reached : (main S cfg).Reaches (.bounds r c s))
    (run : (boundaryOver S s).Silently (c,s) (c',s')) : (main S cfg).Reaches (.bounds r c' s') := by
  have general : ∀ y, (boundaryOver S s).Silently (c,s) y → (main S cfg).Reaches (.bounds r y.1 y.2) := by
    intro y run
    induction run with
    | refl => exact reached
    | tail _ step ih => exact ih.step (.bounds (System.atop_later step))
  exact general (c',s') run

/-- The boundary check, once it has begun, and what has come of it. -/
def Main.Counted (slab : Nat) : Main cfg Broken → Prop
  | .bounds _ c s => ∃ s₀, (broken slab).Reaches s₀ ∧ (boundaryOver (broken slab) s₀).Reaches (c,s)
  | .exits r status _ => 1 ≤ r.grandTotal ∧ status = 1
  | _ => True

/-- The gate never passes on the broken allocator: whatever configuration the arguments
    have given, and whatever its runs have counted before, `main` exits from its checks with
    status 1 if it exits. -/
theorem main_rejects (slab : Nat) (cfg : VConfig) {r : Report} {status : Nat} {s : Broken}
    (reached : (main (broken slab) cfg).Reaches (.exits r status s)) : 1 ≤ r.grandTotal ∧ status = 1 := by
  refine (reached.keeps (P := fun x => (broken slab).Reaches x.server ∧ x.Counted slab) ?_ ?_).2
  · rintro x ⟨s,start,rfl⟩
    exact ⟨.start start,trivial⟩
  · rintro x a x' ⟨came,counted⟩ step
    refine ⟨step.serves came,?_⟩
    cases step with
    | starts next init => exact trivial
    | goes step => exact trivial
    | joins past idle => exact trivial
    | lastly none_ => exact ⟨_,came,.start ⟨rfl,rfl⟩⟩
    | bounds step =>
      obtain ⟨s₀,start,reached⟩ := counted
      exact ⟨s₀,start,reached.step (System.atop_later step)⟩
    | @exits r c s over_ =>
      obtain ⟨s₀,start,reached⟩ := counted
      have one := (counted_reached start reached).2.2.past over_
      have total : 1 ≤ (r.add none c.f (c.f.messages.map .of)).grandTotal := by
        simp only [Report.add]
        omega
      exact ⟨total,if_neg (by omega)⟩

/-- Without threads `main` exits. -/
theorem main_rejects_exits : ∃ r s, (main (broken 8192) { nworks := 0 }).Reaches (.exits r 1 s) := by
  have start : (main (broken 8192) { nworks := 0 }).Reaches (.between {} 1 { mem := fun _ => 0 }) := .start ⟨_,⟨_,rfl⟩,rfl⟩
  have started := start.step (@MainStep.starts _ _ { nworks := 0 } {} 1 _ (.ramp,.bulkThenFree) ⟨fun _ => {},fun _ => .no⟩
    rfl rfl)
  have joined := started.step (.joins (fun k => k.elim0) (fun k => k.elim0))
  have bounds := joined.step (.lastly (by decide))
  obtain ⟨c,s,run,past⟩ := broken_ends 8192 0 id { mem := fun _ => 0 } (s := { mem := fun _ => 0 }) rfl
  have exits := (main_bounds bounds run).step (.exits past)
  have status := (main_rejects 8192 { nworks := 0 } exits).2
  rw [status] at exits
  exact ⟨_,_,exits⟩

end

end Verify
end TcAlloc
