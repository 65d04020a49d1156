import TcAlloc.Locks

/-!
Any number of threads in `ConcurrentAlloc` and `ConcurrentFree`, each lock and
unlock a step of its own: what they touch and hold, that they are never all
stuck, and what an exception leaves locked.
-/
namespace TcAlloc
namespace World

/-- The threads of a program. -/
abbrev Machine := Threads World Mutex Request (Option Nat) Event Fault Outcome Call

/-- The machines that threads reach whose requests the system answers in the given way. -/
def Reaches (b : Build) (answers : OS → Request → Option Nat → Prop) (mem : Memory) : Machine → Prop :=
  Threads.Reaches (Call.code b) (fun w => answers w.pages.os) (.start (start mem))

theorem Call.code_keeps {answers : Request → Option Nat → Prop} {thrown : List Mutex → Prop} (b : Build)
    (fails : ∀ q, answers q none → thrown [.pageCache]) (cacheFails : ∀ k, answers ⟨.threadCachePool,k⟩ none → thrown [])
    (t : Nat) (call : Call) : keeps (lockOrder answers) (call.code b t) [] [] thrown := by
  cases call with
  | alloc size => exact keeps_bind (concurrentAlloc_keeps b fails cacheFails t size) (fun _ => rfl)
  | free ptr => exact keeps_bind (concurrentFree_keeps b fails t ptr) (fun _ => rfl)

/-! ### Order and progress -/

/-- An action of a thread that holds `h`: it neither changes the list of a bucket
    whose mutex is not in `h`, nor does anything it does depend on that list; and it
    changes the lists of free spans only if `h` has the mutex of the page cache. -/
def Guards {α : Type} (h : List Mutex) (f : World → World) (k : World → Code World α) : Prop :=
  (∀ i, .bucket i ∉ h → ∀ w list, (f w).spanLists i = w.spanLists i ∧
    k { w with spanLists := Function.update w.spanLists i list } = k w ∧
    f { w with spanLists := Function.update w.spanLists i list } = { f w with
    spanLists := Function.update (f w).spanLists i list }) ∧
  ∀ w, (f w).pages.spanList ≠ w.pages.spanList → .pageCache ∈ h

theorem guards_of_allows {α : Type} {answers : Request → Option Nat → Prop} {h : List Mutex} {f : World → World}
    {k : World → Code World α} (allows : (lockOrder answers).Allows h f k) : Guards h f k := by
  obtain ⟨change,blind⟩ := allows
  have stays : ∀ i, .bucket i ∉ h → ∀ w, (f w).spanLists i = w.spanLists i := fun i out w => by
    by_contra changed
    exact out ((change w).1 i changed)
  refine ⟨fun i out w list => ⟨stays i out w,?_⟩,fun w => (change w).2⟩
  have alike : (lockOrder answers).same h w { w with spanLists := Function.update w.spanLists i list } :=
    ⟨rfl,fun j held => Function.update_of_ne (fun same : j = i => out (same ▸ held)) ..⟩
  obtain ⟨next,after⟩ := blind _ _ alike
  refine ⟨next.symm,?_⟩
  rw [after.1]
  congr 1
  funext j
  by_cases here : j = i
  · subst here
    rw [Function.update_self,stays j out]
    exact Function.update_self ..
  · rw [Function.update_of_ne here]
    by_cases held : .bucket j ∈ h
    · exact after.2 j held
    · rw [stays j held,stays j held]
      exact Function.update_of_ne here ..

theorem rank_le (l : Mutex) : l.rank ≤ 1 := by cases l <;> simp [Mutex.rank]

/-- Two mutexes of one rank are not held together. -/
theorem ranked_apart {h : List Mutex} (ranked : h.Pairwise (fun l m => m.rank < l.rank))
    {l m : Mutex} (hl : l ∈ h) (hm : m ∈ h)
    (same : l.rank = m.rank) : l = m := by
  have differ : h.Pairwise (fun l m => l.rank ≠ m.rank) := ranked.imp (fun lower => by omega)
  have symm : Std.Symm (fun l m : Mutex => l.rank ≠ m.rank) := ⟨fun _ _ ne => ne.symm⟩
  by_contra ne
  exact differ.forall hl hm ne same

/-- In every state of any threads: no mutex of a bucket is held with that of the
    page cache or while waiting for it, a mutex is unlocked by its holder, the
    lists are touched by the holder of their mutex, and a thread in a call goes on. -/
theorem locks_in_order (b : Build) (answers : OS → Request → Option Nat → Prop) (never : ∀ os q, ¬ answers os q none)
    (always : ∀ os q, ∃ base, answers os q (some base)) (mem : Memory) {c : Machine} (reached : Reaches b answers mem c) :
    (∀ t call p h, c.threads t = .running call p h →
      (∀ i, .bucket i ∈ h → .pageCache ∉ h ∧ ∀ k, p ≠ .lock .pageCache k) ∧
      (∀ l k, p = .unlock l k → l ∈ h) ∧ (∀ f k, p = .act f k → Guards h f k)) ∧
    (c.Unfinished → ∃ c', Threads.Advance (fun w => answers w.pages.os) c c') := by
  have ordered : Threads.Ordered (lockOrder (fun _ a => a ≠ none)) (fun _ => False) c :=
    reached.ordered (fun w q a ok => fun none => never w.pages.os q (none ▸ ok))
      (Call.code_keeps b (fun _ failed => failed rfl) (fun _ failed => failed rfl))
  refine ⟨fun t call p h running => ?_,fun unfinished => ordered.advances (fun w q => ?_) rank_le unfinished⟩
  · have kept := ordered.kept t call p h running
    have ranked : h.Pairwise (fun l m => m.rank < l.rank) := by
      have all := ordered.ranked t
      rwa [running] at all
    refine ⟨fun i held => ⟨fun both => ?_,?_⟩,?_,?_⟩
    · cases ranked_apart ranked held both rfl
    · rintro k rfl
      exact absurd (kept.1 _ held) (by simp [lockOrder,Mutex.rank])
    · rintro l k rfl; exact kept.1
    · rintro f k rfl; exact guards_of_allows kept.1
  · obtain ⟨base,ok⟩ := always w.pages.os q
    exact ⟨some base,ok⟩

/-- The call for a block of 129 pages. -/
abbrev large : Call := .alloc (129 * 8192)

/-- What it does with the mutex of the page cache, and then with the pages it has asked for. -/
def largeHeld : Code World Outcome :=
  match large.code .standard 0 with
  | .lock _ k => k
  | p => p
def largeRest : Code World Outcome :=
  match largeHeld with
  | .ask _ k => k (some (2 ^ 31))
  | p => p

/-- Thread 0 has the mutex of the page cache, and thread 1 is to wait for it. -/
def contended : Machine :=
  ⟨start fun _ => 0,Function.update (Function.update (fun _ => .idle) 0 (.running large largeRest [.pageCache])) 1
    (.running large (large.code .standard 1) []),false⟩

theorem contended_reached : Reaches .standard (fun _ _ a => a ≠ none) (fun _ => 0) contended := by
  have first : Threads.Step (Call.code .standard) (fun _ _ a => a ≠ none) (Threads.start (start fun _ => 0) : Machine)
      (Threads.at_ _ 0 large (large.code .standard 0,[],start fun _ => 0)) := .call rfl rfl large
  have locks : Run (fun _ _ a => a ≠ none) (large.code .standard 0,[],start fun _ => 0)
      (largeHeld,[.pageCache],start fun _ => 0) := .single (.lock _ _ List.not_mem_nil)
  have asks : Run (fun _ _ a => a ≠ none) (largeHeld,[.pageCache],start fun _ => 0)
      (largeRest,[.pageCache],start fun _ => 0) := .single (.ask _ _ (Option.some_ne_none _))
  exact .tail (.trans (.single first) (Threads.reaches_of_run (fun _ _ => rfl) (locks.trans asks)))
    (.call (t := 1) rfl rfl large)

/-- With a mutex held and waited for, what its holder does keeps to it, and a thread goes on. -/
theorem locks_in_order_first : (∃ k, large.code .standard 1 = .lock .pageCache k) ∧
    (∃ f k, largeRest = .act f k ∧ Guards [.pageCache] f k) ∧
    ∃ c', Threads.Advance (fun _ _ a => a ≠ none) contended c' := by
  obtain ⟨kept,progress⟩ := locks_in_order .standard (fun _ _ a => a ≠ none) (fun _ _ none => none rfl)
    (fun _ _ => ⟨8192,Option.some_ne_none _⟩) (fun _ => 0) contended_reached
  exact ⟨⟨_,rfl⟩,⟨_,_,rfl,(kept 0 _ _ _ rfl).2.2 _ _ rfl⟩,progress ⟨rfl,1,_,_,_,rfl,fun same => by cases same⟩⟩

/-! ### What an exception leaves -/

/-- Answers of a system that may be out of memory, other than for a thread cache. -/
def outOfMemory (os : OS) (q : Request) (a : Option Nat) : Prop :=
  os.mayFail (2 ^ pageShift) q a ∧ (a = none → q.site ≠ .threadCachePool)

instance (os : OS) (q : Request) (a : Option Nat) : Decidable (outOfMemory os q a) := inferInstanceAs (Decidable (_ ∧ _))

/-- Every call of `ConcurrentAlloc` that has ended with an exception has left the
    thread without mutexes, and the rest as `rest` asks. -/
def FailsCleanly (rest : Machine → Prop) (c : Machine) : Prop :=
  ∀ t size h, c.threads t = .running (.alloc size) .raise h → h = [] ∧ rest c

/-- A call that ends with an exception leaves the mutex of the page cache locked,
    so all calls have failed cleanly only if none has failed. -/
theorem fails_cleanly_iff (b : Build) (mem : Memory) (rest : Machine → Prop) {c : Machine}
    (reached : Reaches b outOfMemory mem c) :
    FailsCleanly rest c ↔ ∀ t size h, c.threads t ≠ .running (.alloc size) .raise h := by
  have ordered : Threads.Ordered (lockOrder (fun q a => a = none → q.site ≠ .threadCachePool)) (fun h => .pageCache ∈ h) c :=
    reached.ordered (fun w q a ok => ok.2)
      (Call.code_keeps b (fun _ _ => List.mem_singleton_self _) (fun _ failed => absurd rfl (failed rfl)))
  constructor
  · intro clean t size h failed
    have held : .pageCache ∈ h := ordered.kept t _ _ h failed
    rw [(clean t size h failed).1] at held
    cases held
  · exact fun none t size h failed => absurd failed (none t size h)

/-- `ConcurrentAlloc` of 129 pages on a system without memory, and what it leaves locked. -/
def failedRun : Code World Outcome × List Mutex × World :=
  (exec (fun w q a => decide (outOfMemory w.pages.os q a)) (Call.code .standard 0 (.alloc (129 * 8192)))
  [none] [] (start (fun _ => 0))).1
def raised : Code World Outcome × List Mutex × World → Option (List Mutex)
  | (.raise,h,_) => some h
  | _ => none

theorem raised_eq {d : Code World Outcome × List Mutex × World} {h : List Mutex}
    (ended : raised d = some h) : d = (.raise,h,d.2.2) := by
  obtain ⟨p,h,w⟩ := d
  cases p <;> cases ended; rfl

theorem failedRun_reached : ∃ c, Reaches .standard outOfMemory (fun _ => 0) c ∧ c.threads 0 = .running
    (.alloc (129 * 8192)) .raise [.pageCache] := by
  have run : Run (fun w q a => outOfMemory w.pages.os q a) _ failedRun := exec_run (fun _ _ _ => of_decide_eq_true) _ _ _ _
  have ended : raised failedRun = some [.pageCache] := by decide +kernel
  rw [raised_eq ended] at run
  have step : Threads.Step (Call.code .standard) (fun w q a => outOfMemory w.pages.os q a)
    (Threads.start (start (fun _ => 0)) : Machine)
      (Threads.at_ _ 0 (Call.alloc (129 * 8192)) (Call.code .standard 0 (Call.alloc (129 * 8192)),[],start (fun _ => 0))) :=
    .call rfl rfl (Call.alloc (129 * 8192))
  exact ⟨_,.trans (.single step) (Threads.reaches_of_run (fun _ _ => rfl) run),Threads.at_thread ..⟩

theorem fails_cleanly_never : ∃ c, Reaches .standard outOfMemory (fun _ => 0) c ∧ ¬ FailsCleanly (fun _ => True) c := by
  obtain ⟨c,reached,failed⟩ := failedRun_reached
  exact ⟨c,reached,fun clean => (fails_cleanly_iff .standard (fun _ => 0) (fun _ => True) reached).mp clean 0 _ _ failed⟩

/-- The mutex of the page cache is still locked after the exception. -/
theorem fails_locked : ∃ c t size h, Reaches .standard outOfMemory (fun _ => 0) c ∧
    c.threads t = .running (.alloc size) .raise h ∧
    .pageCache ∈ h := by
  obtain ⟨c,reached,failed⟩ := failedRun_reached
  exact ⟨c,0,_,_,reached,failed,List.mem_singleton_self _⟩

end World
end TcAlloc
