import TcAlloc.PoolRuns
import TcAlloc.Failing

/-!
The object pool on a system that may be out of memory. `New` counts the bytes of a
chunk before `SystemAlloc` has answered, so a call that throws leaves the pool with
bytes that it does not have: the next calls hand them out without asking again.
The runs are those of `LinkedPool.Reaches` with calls that throw among them.
-/
namespace TcAlloc
namespace LinkedPool
open ObjectPool Prog

/-- The pool, with the objects in use and the deleted ones. -/
structure Use where
  state : State
  live : List Nat
  deleted : List Nat

inductive Outcome where
  | got (obj : Nat)
  | threw
  | deleted (obj : Nat)
  | wrote

def mayRefuse (s : State) (q : Request) (a : Option Nat) : Prop := s.os.mayFail 1 q a

instance (s : State) (q : Request) (a : Option Nat) : Decidable (mayRefuse s q a) :=
    inferInstanceAs (Decidable (OS.mayFail ..))

/-- One call, and what it comes to. -/
inductive Step (mutex : Mutex) (site : Site) (size : Nat) (u : Use) : Outcome → Use → Prop
  | got {s' : State} {obj : Nat} {h : List Mutex} (run : Run mayRefuse (new mutex site size,[],u.state) (.ret obj,h,s')) :
      Step mutex site size u (.got obj) ⟨s',obj :: u.live,u.deleted.erase obj⟩
  | threw {s' : State} {h : List Mutex} (run : Run mayRefuse (new mutex site size,[],u.state) (.raise,h,s')) :
      Step mutex site size u .threw ⟨s',u.live,u.deleted⟩
  | deleted {s' : State} {obj : Nat} {h : List Mutex} (legal : obj ∈ u.live)
      (run : Run mayRefuse (delete mutex obj,[],u.state) (.ret (),h,s')) :
      Step mutex site size u (.deleted obj) ⟨s',u.live.erase obj,obj :: u.deleted⟩
  | wrote {mem : Memory} (own : ∀ y, mem y ≠ u.state.mem y → ∃ obj ∈ u.live, obj ≤ y ∧ y < obj + slot size) :
      Step mutex site size u .wrote ⟨{ u.state with mem := mem },u.live,u.deleted⟩

inductive Calls (mutex : Mutex) (site : Site) (size : Nat) (u : Use) : List Outcome → Use → Prop
  | none : Calls mutex site size u [] u
  | more {v w : Use} {outcomes : List Outcome} {o : Outcome} (before : Calls mutex site size u outcomes v)
      (step : Step mutex site size v o w) :
      Calls mutex site size u (outcomes ++ [o]) w

/-- The pool when it is constructed, with no chunk yet. -/
structure Starts (site : Site) (u : Use) : Prop where
  fresh : u.state.memory = 0 ∧ u.state.freeList = 0 ∧ u.state.remainBytes = 0
  system : u.state.os.Valid
  none : ∀ m ∈ u.state.os.mapped, m.site ≠ site
  unused : u.live = [] ∧ u.deleted = []

/-! ### What a call does -/

section
variable {mutex : Mutex} {site : Site} {size : Nat} {s : State} {u u' v w : Use} {o : Outcome} {outcomes more : List Outcome}

/-- The rules of a run with nobody watching. -/
def failing : Rules State Mutex Request (Option Nat) Event := ⟨mayRefuse,fun _ _ _ _ => True⟩

/-- A call throws only where it needs a chunk, and has counted its bytes then. -/
theorem new_failing (mutex : Mutex) (site : Site) (size : Nat) (s : State) (system : s.os.Valid) :
    wp failing (new mutex site size) [] s (fun _ _ s' => s'.os.Valid)
      (fun _ s' => s.freeList = 0 ∧ s.remainBytes < size ∧ s' = { s with remainBytes := chunkBytes }) := by
  refine wp_locked mutex List.not_mem_nil trivial ?_
  simp only [wp_seq,wp_read]
  refine ⟨trivial,?_⟩
  by_cases some : s.freeList ≠ 0
  · rw [if_pos some]
    simp only [wp_seq,wp_modify,wp_pure]
    exact ⟨trivial,List.mem_cons_self,trivial,system⟩
  rw [if_neg some]
  rw [not_not] at some
  have bumps : ∀ s' : State, s'.os.Valid → wp failing (bump size) [mutex] s'
    (fun _ h s'' => mutex ∈ h ∧ failing.seen none (h.erase mutex) s'' s'' ∧ s''.os.Valid)
      (fun h s'' => mutex ∈ h ∧ failing.seen none (h.erase mutex) s'' s'' ∧ s.freeList = 0 ∧ s.remainBytes < size ∧
      s'' = { s with remainBytes := chunkBytes }) := by
    intro s' system'
    simp only [bump,wp_seq,wp_read,wp_modify,wp_pure]
    exact ⟨trivial,trivial,List.mem_cons_self,trivial,system'⟩
  simp only [wp_seq,wp_read]
  refine ⟨trivial,?_⟩
  unfold moreMemory
  by_cases short : s.remainBytes < size
  · rw [if_pos short]
    simp only [wp_seq,wp_modify]
    refine ⟨trivial,?_⟩
    refine wp_zoom osPart (I := ⟨fun os q a => os.mayFail 1 q a,fun _ _ _ _ => True⟩)
      (P := fun _ h os => h = [mutex] ∧ os.Valid)
      (E := fun h os => h = [mutex] ∧ os = s.os) (fun _ _ _ ok => ok) (fun _ _ _ _ _ => trivial) ?_ ?_ ?_
    · rintro base h os ⟨rfl,system'⟩
      exact ⟨trivial,bumps _ system'⟩
    · rintro h os ⟨rfl,rfl⟩
      exact ⟨List.mem_cons_self,trivial,some,short,rfl⟩
    · simp only [systemAlloc,wp_seq,wp_answer]
      intro a ok
      cases a with
      | none => exact ⟨rfl,rfl⟩
      | some base => exact ⟨trivial,rfl,system.grant site ok⟩
  · rw [if_neg short]
    exact bumps s system

/-- `New` gives its mutex back however it ends, and throws where the chunk is refused. -/
theorem new_brittle (mutex : Mutex) (site : Site) (size : Nat) :
    (new mutex site size).Brittle (fun _ => True) (· = Option.none) (fun h => h = []) [] (fun _ h => h = []) := by
  have bumps : (bump size).Brittle (fun _ => True) (· = Option.none) (fun h => mutex ∈ h ∧ h.erase mutex = []) [mutex]
      (fun _ h => h.erase mutex = []) :=
    .andThen (brittle_read (fun _ => rfl)) (fun _ => .andThen (brittle_modify rfl) (fun _ => (brittle_pure _).mpr (by simp)))
  refine .locked (.andThen (brittle_read (fun _ => rfl)) (fun freeList => ?_))
  split_ifs
  · exact .andThen (brittle_modify rfl) (fun _ => (brittle_pure _).mpr (by simp))
  · refine .andThen (brittle_read (fun _ => rfl)) (fun remainBytes => .andThen ?_ (fun _ => bumps))
    unfold moreMemory
    split_ifs
    · refine .andThen (brittle_modify rfl) (fun _ => .andThen (.zoom osPart ?_) (fun _ => brittle_modify rfl))
      exact systemAlloc_brittle trivial ⟨List.mem_cons_self,by simp⟩
    · exact (brittle_pure _).mpr rfl

/-- Without a failure `New` does what it does on a system that never fails. -/
theorem new_keeps (mutex : Mutex) {live deleted : List Nat} (r : Represents site size s live deleted) {s' : State}
    {obj : Nat}
    {h : List Mutex} (run : Run mayRefuse (new mutex site size,[],s) (.ret obj,h,s')) :
    Represents site size s' (obj :: live) (deleted.erase obj) := by
  have answers : ∀ s q a, failing.allowed s q a → ¬ a = none → rules.allowed s q a := by
    intro s q a may granted
    cases a with
    | none => exact absurd rfl granted
    | some base => exact may
  have holds := wp_brittle (J := fun _ => True) answers (fun _ _ _ _ seen => seen)
    (fun _ _ _ _ _ _ => trivial) (fun _ _ _ => trivial)
    (new_brittle mutex site size) trivial (new_wp r)
  exact (wp_run (R := failing) run holds).2.1

theorem new_threw (system : s.os.Valid) {h : List Mutex} {s' : State}
    (run : Run mayRefuse (new mutex site size,[],s) (.raise,h,s')) :
    s.freeList = 0 ∧ s.remainBytes < size ∧ s' = { s with remainBytes := chunkBytes } :=
  wp_run (R := failing) run (new_failing mutex site size s system)

theorem delete_state {obj : Nat} {h : List Mutex} {s' : State} (run : Run mayRefuse (delete mutex obj,[],s) (.ret (),h,s')) :
    s' = { s with mem := s.mem.store obj s.freeList, freeList := obj } := by
  have does : wp failing (delete mutex obj) [] s
    (fun _ _ s' => s' = { s with mem := s.mem.store obj s.freeList, freeList := obj })
      (fun _ _ => False) := by
    refine wp_locked mutex List.not_mem_nil trivial ?_
    rw [wp_modify]
    exact ⟨trivial,List.mem_cons_self,trivial,rfl⟩
  exact wp_run (R := failing) run does

/-! ### Runs with calls that throw -/

theorem Step.threw_state (system : u.state.os.Valid) (step : Step mutex site size u .threw u') :
    u.state.freeList = 0 ∧ u.state.remainBytes < size ∧
    u' = { u with state := { u.state with remainBytes := chunkBytes } } := by
  cases step with
  | threw run =>
    obtain ⟨none,short,rfl⟩ := new_threw system run
    exact ⟨none,short,rfl⟩

theorem Step.system (system : u.state.os.Valid) (step : Step mutex site size u o v) : v.state.os.Valid := by
  cases step with
  | got run => exact wp_run (R := failing) run (new_failing mutex site size u.state system)
  | threw run =>
    obtain ⟨_,_,rfl⟩ := new_threw system run
    exact system
  | deleted legal run =>
    obtain rfl := delete_state run
    exact system
  | wrote own => exact system

theorem Calls.system (system : u.state.os.Valid) (run : Calls mutex site size u outcomes v) : v.state.os.Valid := by
  induction run with
  | none => exact system
  | more before step ih => exact step.system ih

theorem Calls.trans (first : Calls mutex site size u outcomes v) (second : Calls mutex site size v more w) :
    Calls mutex site size u (outcomes ++ more) w := by
  induction second with
  | none => rw [List.append_nil]; exact first
  | more before step ih => rw [← List.append_assoc]; exact ih.more step

/-- While no call throws, the pool is what it is on a system that never fails. -/
theorem Step.represents (r : Represents site size u.state u.live u.deleted)
    (step : Step mutex site size u o v) (fine : o ≠ .threw) :
    Represents site size v.state v.live v.deleted := by
  cases step with
  | got run => exact new_keeps mutex r run
  | threw run => exact absurd rfl fine
  | deleted legal run =>
    obtain rfl := delete_state run
    exact r.delete legal
  | wrote own => exact r.write own

theorem Calls.represents (r : Represents site size u.state u.live u.deleted) (run : Calls mutex site size u outcomes v)
    (fine : .threw ∉ outcomes) : Represents site size v.state v.live v.deleted := by
  induction run with
  | none => exact r
  | more before step ih =>
    rw [List.mem_append,List.mem_singleton,not_or] at fine
    exact step.represents (ih fine.1) (Ne.symm fine.2)

/-- The pool when it is constructed is represented. -/
theorem Starts.represents (start : Starts site u) (pos : 1 ≤ size) (small : size ≤ chunkBytes) :
    Represents site size u.state u.live u.deleted := by
  obtain ⟨⟨memory,freeList,remainBytes,mem,os⟩,live,deleted⟩ := u
  obtain ⟨⟨rfl,rfl,rfl⟩,system,none,⟨rfl,rfl⟩⟩ := start
  exact (Reaches.start system none : Reaches .spanPool site size _ _ _).represents pos small

/-! ### What a failure leaves behind -/

/-- `_memory`, `_freeList` and `_remainBytes` are as they were. -/
def SameFields (s s' : State) : Prop := s'.memory = s.memory ∧ s'.freeList = s.freeList ∧ s'.remainBytes = s.remainBytes

/-- Whatever calls follow, an object that `New` returns lies in a chunk of the pool. -/
def StaysInChunks (mutex : Mutex) (site : Site) (size : Nat) (u : Use) : Prop :=
  ∀ outcomes v obj w, Calls mutex site size u outcomes v → Step mutex site size v (.got obj) w →
  InChunk w.state.os site obj (max size 8)

/-- A failure of `New` in this state leaves the pool as it was. -/
def FailsAtomically (mutex : Mutex) (site : Site) (size : Nat) (u : Use) : Prop :=
  ∀ u', Step mutex site size u .threw u' → SameFields u.state u'.state ∧ StaysInChunks mutex site size u'

/-- A deleted object is there to be handed out, or the rest of the chunk is long enough. -/
def NeedsNoChunk (size : Nat) (s : State) : Prop := s.freeList ≠ 0 ∨ size ≤ s.remainBytes

/-- With nothing deleted, the next object is where the chunk was used up to. -/
theorem new_returns (none : s.freeList = 0) (enough : size ≤ s.remainBytes) :
    Run mayRefuse (new mutex site size,[],s)
      (.ret s.memory,[],{ s with memory := s.memory + slot size, remainBytes := minus s.remainBytes (slot size) }) := by
  have long : ¬ s.remainBytes < size := by omega
  have run := exec_run (c := fun s q a => decide (mayRefuse s q a)) (fun _ _ _ => of_decide_eq_true)
    (new mutex site size) [] [] s
  simpa [new,Prog.locked,Prog.unlocking,exec,Prog.read,Prog.modify,Prog.bind,Prog.bind_def,Prog.pure_def,none,
    moreMemory,long,bump] using run

/-- The system may refuse a chunk whenever one is asked for. -/
theorem new_throws (none : s.freeList = 0) (short : s.remainBytes < size) :
    Run mayRefuse (new mutex site size,[],s) (.raise,[],{ s with remainBytes := chunkBytes }) := by
  have refused : ∀ s q, mayRefuse s q Option.none := fun _ _ => trivial
  have run := exec_run (c := fun s q a => decide (mayRefuse s q a)) (fun _ _ _ => of_decide_eq_true)
    (new mutex site size) [Option.none] [] s
  simpa [new,Prog.locked,Prog.unlocking,exec,Prog.read,Prog.modify,Prog.bind,Prog.bind_def,
    Prog.pure_def,none,moreMemory,short,bump,
    systemAlloc,Prog.answer,Prog.zoom,refused] using run

theorem StaysInChunks.later (stays : StaysInChunks mutex site size u) (run : Calls mutex site size u outcomes v) :
    StaysInChunks mutex site size v :=
  fun _ _ obj _ calls step => stays _ _ obj _ (run.trans calls) step

/-- While chunks are refused, `New` hands out whatever lies behind the current one. -/
theorem passes_on (mutex : Mutex) (site : Site) (small : size ≤ chunkBytes) (none : u.state.freeList = 0) :
    ∃ outcomes v w, Calls mutex site size u outcomes v ∧ Step mutex site size v (.got u.state.memory) w ∧
      w.state.freeList = 0 ∧ w.state.memory = u.state.memory + slot size ∧ w.state.os = u.state.os := by
  by_cases enough : size ≤ u.state.remainBytes
  · exact ⟨[],u,_,.none,.got (new_returns none enough),none,rfl,rfl⟩
  · have refused : Step mutex site size u .threw _ := .threw (new_throws none (by omega))
    exact ⟨[.threw],_,_,.more .none refused,.got (new_returns none small),none,rfl,rfl⟩

/-- If every further chunk is refused, the objects pass the end of the memory there
    is. The induction is on the bytes left up to it. -/
theorem leaves_chunks (small : size ≤ chunkBytes) (system : u.state.os.Valid) (none : u.state.freeList = 0) :
    ¬ StaysInChunks mutex site size u := by
  have general : ∀ room (u : Use), u.state.os.Valid → u.state.freeList = 0 → 2 ^ 48 ≤ u.state.memory + room →
      ¬ StaysInChunks mutex site size u := by
    intro room
    induction room with
    | zero =>
      intro u system none beyond stays
      obtain ⟨outcomes,v,w,calls,step,_,_,same⟩ := passes_on mutex site small none
      obtain ⟨m,mapped,_,low,high⟩ := stays outcomes v _ w calls step
      rw [same] at mapped
      have bounds := system.nonempty m mapped
      omega
    | succ room ih =>
      intro u system none beyond stays
      obtain ⟨outcomes,v,w,calls,step,none',further,same⟩ := passes_on mutex site small none
      have long := slot_pos size
      have system' : w.state.os.Valid := same ▸ system
      exact ih w system' none' (by omega) (stays.later (calls.more step))
  exact general (2 ^ 48) u system none (by omega)

/-- A failure leaves the pool as it was only where there is none: `New` that needs a
    chunk counts its bytes first, and some calls after that return memory that the
    pool never obtained. Before the first failure every object lies in a chunk. -/
theorem failure_atomic_iff {start : Use} (pos : 1 ≤ size) (small : size ≤ 128 * 1024) (starts : Starts site start)
    (run : Calls mutex site size start outcomes u) :
    (FailsAtomically mutex site size u ↔ NeedsNoChunk size u.state) ∧
    (∀ u', Step mutex site size u .threw u' → ¬ SameFields u.state u'.state ∧ ¬ StaysInChunks mutex site size u') ∧
    (.threw ∉ outcomes → ∀ obj v, Step mutex site size u (.got obj) v → InChunk v.state.os site obj (max size 8)) := by
  have system := run.system starts.system
  have fails : ∀ u', Step mutex site size u .threw u' → ¬ SameFields u.state u'.state ∧
    ¬ StaysInChunks mutex site size u' := by
    intro u' step
    obtain ⟨none,short,rfl⟩ := step.threw_state system
    refine ⟨fun same => ?_,leaves_chunks small system none⟩
    have kept : chunkBytes = u.state.remainBytes := same.2.2
    exact absurd small (by rw [kept.symm] at short; exact Nat.not_le.mpr short)
  refine ⟨⟨fun atomic => ?_,fun enough u' step => ?_⟩,fails,fun fine obj v step => ?_⟩
  · by_contra needs
    rw [NeedsNoChunk,not_or,not_not] at needs
    have refused : Step mutex site size u .threw _ := .threw (new_throws needs.1 (by omega))
    exact (fails _ refused).1 (atomic _ refused).1
  · obtain ⟨none,short,_⟩ := step.threw_state system
    rcases enough with some | long
    · exact absurd none some
    · omega
  · have r := step.represents (run.represents (starts.represents pos small) fine) (by simp)
    have bytes : slot size = max size 8 := by rw [slot]; split_ifs <;> omega
    cases step with
    | got run => exact bytes ▸ (r.valid.slots obj (by simp)).1

end

/-- A pool on which nothing was called. -/
def Use.fresh : Use := ⟨{ mem := fun _ => 0, os := {} },[],[]⟩

theorem Use.fresh_starts (site : Site) : Starts site .fresh :=
    ⟨⟨rfl,rfl,rfl⟩,⟨by simp [fresh],by simp [fresh]⟩,by simp [fresh],⟨rfl,rfl⟩⟩

/-- After one descriptor of 64 bytes the rest of the chunk is long enough, and a
    failure of `New` there would change nothing. -/
theorem failure_atomic_iff_descriptor : ∃ u, Calls .spanPool .spanPool 64 .fresh [.got 8192] u ∧
    FailsAtomically .spanPool .spanPool 64 u ∧
    ∀ obj v, Step .spanPool .spanPool 64 u (.got obj) v → InChunk v.state.os .spanPool obj 64 := by
  have run := exec_run (c := fun s q a => decide (mayRefuse s q a)) (fun _ _ _ => of_decide_eq_true)
    (new .spanPool .spanPool 64)
    [some 8192] [] Use.fresh.state
  have calls : Calls .spanPool .spanPool 64 .fresh ([] ++ [.got 8192]) _ := .more .none (.got run)
  have result := failure_atomic_iff (by decide) (by decide) (Use.fresh_starts .spanPool) calls
  exact ⟨_,calls,result.1.mpr (.inr (by decide)),result.2.2 (by simp)⟩

/-- The first `New` of a pool of descriptors throws, and the next one returns the
    null pointer. -/
theorem failure_atomic_null : Starts .spanPool .fresh ∧ ¬ FailsAtomically .spanPool .spanPool 64 .fresh ∧
    ∃ u w, Step .spanPool .spanPool 64 .fresh .threw u ∧ u.state.remainBytes = 131072 ∧
      Step .spanPool .spanPool 64 u (.got 0) w ∧ ¬ InChunk w.state.os .spanPool 0 64 := by
  have threw : Step .spanPool .spanPool 64 .fresh .threw _ := .threw (new_throws rfl (by decide))
  have next : Run mayRefuse (new .spanPool .spanPool 64,[],{ Use.fresh.state with remainBytes := chunkBytes })
    (.ret 0,[],_) :=
    new_returns rfl (by decide)
  refine ⟨Use.fresh_starts .spanPool,fun atomic => ?_,_,_,threw,rfl,.got next,?_⟩
  · exact absurd (atomic _ threw).1.2.2 (by decide)
  · rintro ⟨m,mapped,_⟩
    exact absurd mapped (by simp [Use.fresh])

end LinkedPool
end TcAlloc
