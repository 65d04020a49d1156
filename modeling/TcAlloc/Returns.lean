import TcAlloc.CrossFree
import TcAlloc.LockSafety
import TcAlloc.Fairness

/-!
Calls return. Each lock and unlock, each access and each request to the system is a step
of its own, so a thread may be stopped inside a critical section, and others wait for
its mutex. The mutexes are taken in the order of their ranks, and a call does a bounded
number of things. So with a scheduler that is fair to each thread no call goes on for
ever and no mutex is held for ever (`calls_return`), unless some thread fails: at an
assertion, at a null pointer, or at the bound of a loop. In the program, where each
section is one step, no call for at most 128 pages and no free of a live block has a
section that fails, but for the assertion that the thread has a thread cache.
-/
namespace TcAlloc
namespace World

/-- With calls for at most 128 pages no section of a call fails, but in the free of a
    thread without a thread cache. -/
theorem Program.Reaches.sections_pass {b : Build} {mem : Memory} {M : Program} {t : Nat} {call : Call}
    {code : Code World Outcome} (reached : Program.Reaches b (.upTo Program.spanBytes) (.start mem) M)
    (running : M.stage t = .within call code) :
    (∃ p, call = .free p ∧ code = .fail .assertion ∧ Program.Cacheless M.world t p) ∨
      sec sections (fun code' w' => ∀ why, code' = .fail why → ∃ p, call = .free p ∧ Program.Cacheless w' t p) code []
        M.world (fun _ h _ => h = []) (fun _ _ => False) := by
  have fair := Program.fair_upTo b (le_refl Program.spanBytes)
  obtain ⟨g,l,agrees⟩ := Program.Reaches.agrees reached fair
  have fits : ∀ size, call = .alloc size → size + 8191 < 2 ^ 64 := by
    rintro size rfl
    have modest : size ≤ Program.spanBytes := (agrees.modest t _ _ running).1 trivial
    have bound : Program.spanBytes < 2 ^ 21 := by decide
    omega
  rcases agrees.goes_on running fits (agrees.quiet fair trivial) with cacheless | passes
  · exact .inl cacheless
  · exact .inr (sec_mono (fun _ _ fails => fails) (fun _ _ _ ended => ended.1) passes)

/-- In every fair run of any threads in which none fails, each call returns, and each
    mutex is free again and again. And with calls for at most 128 pages and frees of live
    blocks no section fails, where the system never fails and answers in whole pages, but
    in the free of a thread without a thread cache. -/
theorem calls_return (b : Build) (answers : OS → Request → Option Nat → Prop) (never : ∀ os q, ¬ answers os q none)
    (always : ∀ os q, ∃ base, answers os q (some base)) {mem : Memory} {run : Nat → Machine}
    (start : run 0 = .start (start mem)) (endless : Threads.Endless (Call.code b) (fun w => answers w.pages.os) run) :
    ((∃ n, Threads.Failing (run n)) ∨ ∀ n, (∀ t, ∃ m, n ≤ m ∧ (run m).threads t = .idle) ∧
      ∀ l, ∃ m, n ≤ m ∧ ∀ t, l ∉ ((run m).threads t).held) ∧
    ∀ M, Program.Reaches b (.upTo Program.spanBytes) (.start mem) M → ∀ t call code, M.stage t = .within call code →
      (∃ p, call = .free p ∧ code = .fail .assertion ∧ Program.Cacheless M.world t p) ∨
      sec sections (fun code' w' => ∀ why, code' = .fail why → ∃ p, call = .free p ∧ Program.Cacheless w' t p) code []
        M.world (fun _ h _ => h = []) (fun _ _ => False) := by
  refine ⟨?_,fun M reached t call code running => reached.sections_pass running⟩
  by_cases failing : ∃ n, Threads.Failing (run n)
  · exact .inl failing
  · have sound : ∀ n, ¬ Threads.Failing (run n) := fun n failed => failing ⟨n,failed⟩
    have ordered : ∀ n, Threads.Ordered (lockOrder (fun _ a => a ≠ none)) (fun _ => False) (run n) :=
      endless.ordered (fun w q a ok => fun none => never w.pages.os q (none ▸ ok))
        (Call.code_keeps b (fun _ failed => failed rfl) (fun _ failed => failed rfl))
        (by rw [start]; exact Threads.ordered_start _)
    have answered : ∀ (w : World) q, ∃ a, answers w.pages.os q a := fun w q => by
      obtain ⟨base,ok⟩ := always w.pages.os q
      exact ⟨some base,ok⟩
    have fair : Threads.Fair (lockOrder (fun _ a => a ≠ none)) (Call.code b) (fun w => answers w.pages.os) run :=
      ⟨endless,ordered,answered,endless.goes_on (by rw [start]; rfl) sound,sound⟩
    exact .inr (fair.returns rank_le)

/-- What thread 0 does with the mutex that thread 1 waits for, and then thread 1. -/
def firstRan : Code World Outcome × List Mutex × World :=
  (exec (fun _ _ a => decide (a ≠ none)) largeRest [some (2 ^ 32),some (2 ^ 33),some (2 ^ 34)] [.pageCache]
    (World.start fun _ => 0)).1
def secondRan : Code World Outcome × List Mutex × World :=
  (exec (fun _ _ a => decide (a ≠ none)) (large.code .standard 1) [some (2 ^ 35),some (2 ^ 36),some (2 ^ 37),some (2 ^ 38)] []
    firstRan.2.2).1

/-- Where no thread is in a call. -/
abbrev resting (w : World) : Machine := ⟨w,fun _ => .idle,false⟩

/-- Thread 1 in its call, alone. -/
abbrev waiting (w : World) : Machine := (resting w).at_ 1 large (large.code .standard 1,[],w)

theorem contended_rests : Threads.Reaches (Call.code .standard) (fun _ _ a => a ≠ none) contended (resting secondRan.2.2) := by
  have first : Run (fun _ _ a => a ≠ none) (largeRest,[Mutex.pageCache],World.start fun _ => 0) firstRan :=
    exec_run (fun _ _ _ => of_decide_eq_true) _ _ _ _
  have second : Run (fun _ _ a => a ≠ none) (large.code .standard 1,[],firstRan.2.2) secondRan :=
    exec_run (fun _ _ _ => of_decide_eq_true) _ _ _ _
  have returned : firstRan.1 = .ret (.block (2 ^ 31)) := Prog.of_value (by decide +kernel)
  have returned' : secondRan.1 = .ret (.block (2 ^ 35)) := Prog.of_value (by decide +kernel)
  have released : firstRan.2.1 = [] := by decide +kernel
  have released' : secondRan.2.1 = [] := by decide +kernel
  have first : Run (fun _ _ a => a ≠ none) (largeRest,[Mutex.pageCache],World.start fun _ => 0)
      (.ret (.block (2 ^ 31)),[],firstRan.2.2) := by
    rw [← returned,← released]; exact first
  have second : Run (fun _ _ a => a ≠ none) (large.code .standard 1,[],firstRan.2.2)
      (.ret (.block (2 ^ 35)),[],secondRan.2.2) := by
    rw [← returned',← released']; exact second
  have begins : contended =
      (waiting (World.start fun _ => 0)).at_ 0 large (largeRest,[.pageCache],World.start fun _ => 0) := by
    simp only [contended,Threads.at_]
    rw [Function.update_comm (by decide)]
  have between : Threads.Reaches (Call.code .standard) (fun _ _ a => a ≠ none) contended (waiting firstRan.2.2) := by
    rw [begins]
    have others : ∀ u, u ≠ 0 → ((waiting (World.start fun _ => 0)).threads u).held = [] := by
      intro u _
      by_cases same : u = 1
      · rw [same,Threads.at_thread]; rfl
      · have other : (waiting (World.start fun _ => 0)).threads u = .idle := Function.update_of_ne same ..
        rw [other]; rfl
    have idle : Function.update (waiting (World.start fun _ => 0)).threads 0 .idle =
      (waiting (World.start fun _ => 0)).threads := Function.update_eq_self 0 _
    have ran : Threads.Reaches (Call.code .standard) _ _ _ := Threads.reaches_of_call large others first
    rw [idle] at ran
    exact ran
  have ends :
      Threads.Reaches (Call.code .standard) (fun _ _ a => a ≠ none) (waiting firstRan.2.2) (resting secondRan.2.2) := by
    have ran : Threads.Reaches (Call.code .standard) _ _ _ :=
      Threads.reaches_of_call (c := resting firstRan.2.2) (t := 1) large (fun _ _ => rfl) second
    rwa [Function.update_eq_self] at ran
  exact between.trans ends

/-- Two threads that want the same mutex at once: in a run in which neither fails, both
    return. And a thread that has no thread cache, and whose free has failed. -/
theorem calls_return_contended : (∃ run : Nat → Machine, run 0 = .start (World.start fun _ => 0) ∧
    Threads.Endless (Call.code .standard) (fun _ _ a => a ≠ none) run ∧
    ∀ n, (∀ t, ∃ m, n ≤ m ∧ (run m).threads t = .idle) ∧ ∀ l, ∃ m, n ≤ m ∧ ∀ t, l ∉ ((run m).threads t).held) ∧
    ∃ p, Program.Cacheless (Program.after Program.otherFree).world 2 p := by
  obtain ⟨run,start,endless,N,ends⟩ := Threads.endless_of_reaches (contended_reached.trans contended_rests) (fun _ => rfl)
  obtain ⟨returns,passes⟩ := calls_return .standard (fun _ _ a => a ≠ none) (fun _ _ none => none rfl)
    (fun _ _ => ⟨8192,Option.some_ne_none _⟩) start endless
  refine ⟨⟨run,start,endless,returns.resolve_left ?_⟩,?_⟩
  · rintro ⟨n,failing⟩
    have late := endless.failing (le_max_left n N) failing
    rw [ends _ (le_max_right n N)] at late
    obtain ⟨t,_,_,_,failed⟩ := late
    cases failed
  · have large : 262144 ≤ Program.spanBytes := by decide
    have reached : Program.Reaches .standard (.upTo Program.spanBytes) (.start fun _ => 0) (Program.after Program.otherFree) :=
      Program.plays_reaches Program.otherFree
        (by simp [Program.otherFree,Program.firstCall,Program.Cue.May,Program.Usage.upTo,large])
        (fun _ _ => trivial) (Program.plays_getD (by decide +kernel) _)
    have failed : ((Program.after Program.otherFree).stage 2).failedFree = some (2 ^ 31) := by decide +kernel
    obtain ⟨why,running⟩ := Stage.of_failedFree failed
    rcases passes _ reached 2 _ _ running with ⟨p,_,_,cacheless⟩ | section_
    · exact ⟨p,cacheless⟩
    · exact section_.elim

end World
end TcAlloc
