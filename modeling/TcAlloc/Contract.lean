import TcAlloc.CrossFree
import TcAlloc.Heaps

/-!
The allocator with its threads keeps the contract of a heap. Whatever the threads do,
an observer who sees their calls, what the calls return, and what is read and written
in live blocks, sees nothing that a heap would not show (`refines_heap`): the layers,
their locks and their critical sections are not to be seen.
-/
namespace TcAlloc
namespace World

/-- What a call that is about to return has to show. -/
def Stage.handed : Stage → Option (Nat × Nat)
  | .within (.alloc size) (.ret (.block p)) => some (size,p)
  | _ => none
def Stage.cleared : Stage → Option Nat
  | .within (.free p) (.ret .freed) => some p
  | _ => none

theorem Stage.of_handed {stage : Stage} {size p : Nat} (handed : stage.handed = some (size,p)) :
    stage = .within (.alloc size) (.ret (.block p)) := by
  unfold Stage.handed at handed
  split at handed
  · cases handed; rfl
  · cases handed

theorem Stage.of_cleared {stage : Stage} {p : Nat} (cleared : stage.cleared = some p) :
    stage = .within (.free p) (.ret .freed) := by
  unfold Stage.cleared at cleared
  split at cleared
  · cases cleared; rfl
  · cases cleared

namespace Program

/-- A block has the bytes that were asked for, and begins at a multiple of 8 that is not null. -/
def blocks : Layout Nat := ⟨fun p size => {y | p ≤ y ∧ y < p + size},fun p => p ≠ 0 ∧ 8 ∣ p⟩

abbrev Seen := Access Nat Nat UInt8

/-- What an observer sees of a step of the program. -/
inductive Observed (b : Build) (u : Usage) (M : Program) : Option Seen → Program → Prop
  | asks {t size : Nat} (outside : M.stage t = .outside) (sized : size < 2 ^ 64) (may : u.calls (.alloc size)) :
      Observed b u M (some (.asks t size)) (M.put t (.within (.alloc size) ((Call.alloc size).code b t)))
  | gets {t size p : Nat} (ended : M.stage t = .within (.alloc size) (.ret (.block p))) :
      Observed b u M (some (.gets t p)) { M.put t .outside with live := (p,size) :: M.live }
  | gives {t p size : Nat} (outside : M.stage t = .outside) (live : (p,size) ∈ M.live) (may : u.calls (.free p)) :
      Observed b u M (some (.gives t p))
        { M.put t (.within (.free p) ((Call.free p).code b t)) with live := M.live.erase (p,size) }
  | done {t p : Nat} (ended : M.stage t = .within (.free p) (.ret .freed)) :
      Observed b u M (some (.done t)) (M.put t .outside)
  | writes {cells : Nat → Option UInt8} (inside : ∀ x, cells x ≠ none → Heap.Owned blocks M.live x) :
      Observed b u M (some (.writes cells)) { M with world := { M.world with mem := Heap.overlay cells M.world.mem } }
  | reads {cells : Nat → Option UInt8} (inside : ∀ x, cells x ≠ none → Heap.Owned blocks M.live x)
      (seen : ∀ x v, cells x = some v → M.world.mem x = v) : Observed b u M (some (.reads cells)) M
  | turn {t : Nat} {call : Call} {p p' : Code World Outcome} {w' : World} (running : M.stage t = .within call p)
      (may : u.goes p M.world) (run : Section answers p M.world p' w') :
      Observed b u M none { M.put t (.within call p') with world := w' }

/-- The allocator and its threads, from the start of the program on. -/
def system (b : Build) (u : Usage) : System Seen Program where
  init M := ∃ mem, M = start mem
  step M := Observed b u M

def pending (M : Program) (t : Nat) : Pending :=
  match M.stage t with
  | .outside => .idle
  | .within (.alloc size) _ => .asking size
  | .within (.free _) _ => .giving

/-- What the program shows of its state. -/
def heap (M : Program) : Heap Nat Nat UInt8 := ⟨M.live,M.world.mem,M.pending⟩

section
variable {b : Build} {u : Usage} {short : Prop} {g : Stock} {l : Ledger} {M M' : Program} {t : Nat}

/-- Every act is one that is served. -/
theorem Act.observed (act : Act b u M M') : ∃ a, Observed b u M a M' := by
  cases act with
  | alloc outside sized may => exact ⟨_,.asks outside sized may⟩
  | free outside live may => exact ⟨_,.gives outside live may⟩
  | turn running may run => exact ⟨_,.turn running may run⟩
  | allocated ended => exact ⟨_,.gets ended⟩
  | freed ended => exact ⟨_,.done ended⟩

/-- The cells of live blocks are bytes that the allocator leaves alone. -/
theorem Agrees.owned (agrees : Agrees b short g l M) {x : Nat} (owned : Heap.Owned blocks M.live x) :
    ∃ p size, (p,size) ∈ M.live ∧ Bytes b p size x := by
  obtain ⟨⟨p,size⟩,mem,low,high⟩ := owned
  exact ⟨p,size,mem,low,lt_of_lt_of_le high (Nat.add_le_add_left (agrees.size_le mem) p)⟩

theorem Agrees.overlaid (agrees : Agrees b short g l M) {cells : Nat → Option UInt8}
    (inside : ∀ x, cells x ≠ none → Heap.Owned blocks M.live x) :
    Step b u M { M with world := { M.world with mem := Heap.overlay cells M.world.mem } } := by
  refine .write (fun y changed => agrees.owned (inside y (fun none => changed ?_)))
  rw [Heap.overlay,none,Option.getD_none]

/-- What is served is a step of the program, or changes nothing. -/
theorem Agrees.observed {a : Option Seen} (agrees : Agrees b short g l M) (observed : Observed b u M a M') :
    M' = M ∨ Step b u M M' := by
  cases observed with
  | asks outside sized may => exact .inr (.act (.alloc outside sized may))
  | gets ended => exact .inr (.act (.allocated ended))
  | gives outside live may => exact .inr (.act (.free outside live may))
  | done ended => exact .inr (.act (.freed ended))
  | writes inside => exact .inr (agrees.overlaid inside)
  | reads inside seen => exact .inl rfl
  | turn running may run => exact .inr (.act (.turn running may run))

theorem pending_put (M : Program) (t : Nat) (stage : Stage) (p : Pending)
    (same : p = match stage with
      | .outside => .idle
      | .within (.alloc size) _ => .asking size
      | .within (.free _) _ => .giving) : (M.put t stage).pending = Function.update M.pending t p := by
  funext v
  by_cases here : v = t
  · subst here
    rw [Function.update_self,same]
    simp only [pending,put,Function.update_self]
  · rw [Function.update_of_ne here]
    simp only [pending,put,Function.update_of_ne here]

theorem heap_put (M : Program) (t : Nat) (stage : Stage) (p : Pending)
    (same : p = match stage with
      | .outside => .idle
      | .within (.alloc size) _ => .asking size
      | .within (.free _) _ => .giving) : (M.put t stage).heap = M.heap.wait t p := by
  change Heap.mk M.live M.world.mem (M.put t stage).pending = _
  rw [pending_put M t stage p same]
  rfl

/-- A block that is handed out shares no byte with another one. -/
theorem Agrees.fresh {p size : Nat} {live : List (Nat × Nat)} (agrees : Agrees b short g l M)
    (same : M.live = (p,size) :: live) : Heap.Fresh blocks live p size := by
  have here : (p,size) ∈ M.live := by rw [same]; exact List.mem_cons_self
  have keys := agrees.books.stock.keys
  rw [same,List.map_cons,List.nodup_cons] at keys
  refine ⟨⟨?_,agrees.aligned here⟩,fun block mem => ?_⟩
  · obtain ⟨place,_⟩ := agrees.books.stock.blocks p size here
    exact (agrees.books.ne_zero (by rw [place]; simp)).1
  · have there : block ∈ M.live := by rw [same]; exact List.mem_cons_of_mem _ mem
    have ne : block.1 ≠ p := fun equal => keys.1 (List.mem_map.mpr ⟨block,mem,equal⟩)
    have apart := agrees.disjoint there here (fun equal => ne (congrArg Prod.fst equal))
    have sizes := agrees.size_le there
    have sizes' := agrees.size_le here
    refine ⟨ne,fun y inside inside' => ?_⟩
    obtain ⟨low,high⟩ : block.1 ≤ y ∧ y < block.1 + block.2 := inside
    obtain ⟨low',high'⟩ : p ≤ y ∧ y < p + size := inside'
    unfold Disjoint at apart
    omega

/-- The heap follows each step of the program. -/
theorem Agrees.follows {a : Option Seen} (agrees : Agrees b short g l M) (fair : u.Fair b short)
    (observed : Observed b u M a M') : (∃ g' l', Agrees b short g' l' M') ∧ Heap.Step blocks M.heap a M'.heap := by
  have next : ∃ g' l', Agrees b short g' l' M' := by
    rcases agrees.observed observed with rfl | step
    · exact ⟨g,l,agrees⟩
    · exact agrees.step fair step
  refine ⟨next,?_⟩
  cases observed with
  | @asks t size outside sized may =>
    have idle : M.heap.pending t = .idle := by simp only [heap,pending,outside]
    have same : (M.put t (.within (.alloc size) ((Call.alloc size).code b t))).heap = M.heap.wait t (.asking size) :=
      heap_put M t _ (.asking size) rfl
    rw [same]
    exact .asks idle
  | @gets t size p ended =>
    obtain ⟨g',l',agrees'⟩ := next
    have asked : M.heap.pending t = .asking size := by simp only [heap,pending,ended]
    have same : (M.put t .outside).heap = M.heap.wait t .idle := heap_put M t .outside .idle rfl
    have after : Program.heap { M.put t .outside with live := (p,size) :: M.live } =
        { M.heap.wait t .idle with live := (p,size) :: M.live } := by rw [← same]; rfl
    rw [after]
    exact .gets asked (agrees'.fresh rfl)
  | @gives t p size outside live may =>
    have idle : M.heap.pending t = .idle := by simp only [heap,pending,outside]
    have same : (M.put t (.within (.free p) ((Call.free p).code b t))).heap = M.heap.wait t .giving :=
      heap_put M t _ .giving rfl
    have after : Program.heap { M.put t (.within (.free p) ((Call.free p).code b t)) with live := M.live.erase (p,size) } =
        { M.heap.wait t .giving with live := M.live.erase (p,size) } := by rw [← same]; rfl
    rw [after]
    exact .gives idle live
  | @done t p ended =>
    have gave : M.heap.pending t = .giving := by simp only [heap,pending,ended]
    have same : (M.put t .outside).heap = M.heap.wait t .idle := heap_put M t .outside .idle rfl
    rw [same]
    exact .done gave
  | writes inside => exact .writes inside
  | reads inside seen => exact .reads inside seen
  | @turn t call p p' w' running may run =>
    obtain ⟨g',l',agrees'⟩ := next
    have still : (M.put t (.within call p')).pending = M.pending := by
      rw [pending_put M t (.within call p') (M.pending t) (by simp only [pending,running]; cases call <;> rfl),
        Function.update_eq_self]
    have after : Program.heap { M.put t (.within call p') with world := w' } = { M.heap with contents := w'.mem } := by
      change Heap.mk M.live w'.mem (M.put t (.within call p')).pending = _
      rw [still]
      rfl
    rw [after]
    refine .stirs (fun x owned => ?_)
    -- What the section writes are links, and those are no bytes of a live block.
    by_contra changed
    have act : Act b u M { M.put t (.within call p') with world := w' } := .turn running may run
    have link := act.written agrees fair (y := x) changed
    obtain ⟨q,n,mem,bytes⟩ := agrees.owned owned
    exact link.not_live agrees' mem bytes

theorem follows_heap (fair : u.Fair b short) :
    System.Simulates (system b u) (TcAlloc.heap Nat UInt8 blocks)
      (fun M h => h = M.heap ∧ ∃ g l, Agrees b short g l M) where
  start := by
    rintro M ⟨mem,rfl⟩
    exact ⟨(start mem).heap,⟨rfl,fun _ => rfl⟩,rfl,_,_,agrees_start b short mem⟩
  silent := by
    rintro M _ M' ⟨rfl,g,l,agrees⟩ observed
    obtain ⟨next,step⟩ := agrees.follows fair observed
    exact ⟨M'.heap,.single step,rfl,next⟩
  shown := by
    rintro M _ a M' ⟨rfl,g,l,agrees⟩ observed
    obtain ⟨next,step⟩ := agrees.follows fair observed
    exact ⟨M'.heap,step,rfl,next⟩

end

/-! ### Runs that can be computed -/

/-- The program with cells written one after another. -/
def written (M : Program) (cells : List (Nat → Option UInt8)) : Program :=
  { M with world := { M.world with mem := cells.foldl (fun mem c => Heap.overlay c mem) M.world.mem } }

section
variable {b : Build} {u : Usage} {M N : Program} {t size p : Nat} {cells : List (Nat → Option UInt8)}

/-- The turns of a thread show nothing. -/
theorem turns_silently (turns : List (List (Option Nat))) (always : ∀ p w, u.goes p w)
    (played : plays b (turns.map (.turn t)) M = some N) : (system b u).Silently M N := by
  induction turns generalizing M with
  | nil => cases played; exact .refl
  | cons given later ih =>
    obtain ⟨M',first,rest⟩ := Option.bind_eq_some_iff.mp played
    refine .head ?_ (ih rest)
    simp only [Cue.play] at first
    split at first
    · next call p running =>
      obtain ⟨d,result,rfl⟩ := Option.map_eq_some_iff.mp first
      exact .turn running (always _ _)
        (execSection_within (fun _ _ _ => of_decide_eq_true) p given [] M.world (.inl rfl) result)
    · cases first

theorem alloc_runs (turns : List (List (Option Nat))) (always : ∀ p w, u.goes p w) (may : u.calls (.alloc size))
    (played : plays b (.call t (.alloc size) :: turns.map (.turn t)) M = some N)
    (handed : (N.stage t).handed = some (size,p)) :
    (system b u).Runs M [.asks t size,.gets t p] { N.put t .outside with live := (p,size) :: N.live } := by
  obtain ⟨M',first,rest⟩ := Option.bind_eq_some_iff.mp played
  have asks : Observed b u M (some (.asks t size)) M' := by
    simp only [Cue.play] at first
    split at first
    · next size' outside same =>
      cases same
      split_ifs at first with sized
      cases first
      exact .asks outside sized may
    · next same => cases same
    · cases first
  have called : (system b u).Runs M [.asks t size] M' := System.Runs.refl.shows asks
  exact (called.silently (turns_silently turns always rest)).shows (.gets (Stage.of_handed handed))

theorem free_runs (turns : List (List (Option Nat))) (always : ∀ p w, u.goes p w) (may : u.calls (.free p))
    (played : plays b (.call t (.free p) :: turns.map (.turn t)) M = some N) (cleared : (N.stage t).cleared = some p) :
    (system b u).Runs M [.gives t p,.done t] (N.put t .outside) := by
  obtain ⟨M',first,rest⟩ := Option.bind_eq_some_iff.mp played
  have gives : Observed b u M (some (.gives t p)) M' := by
    simp only [Cue.play] at first
    split at first
    · next same => cases same
    · next p' outside same =>
      cases same
      split at first
      · next block found =>
        cases first
        obtain rfl : block.1 = p := by simpa using List.find?_some found
        exact .gives outside (List.mem_of_find?_eq_some found) may
      · cases first
    · cases first
  have called : (system b u).Runs M [.gives t p] M' := System.Runs.refl.shows gives
  exact (called.silently (turns_silently turns always rest)).shows (.done (Stage.of_cleared cleared))

theorem writes_runs (inside : ∀ c ∈ cells, ∀ x, c x ≠ none → Heap.Owned blocks M.live x) :
    (system b u).Runs M (cells.map .writes) (M.written cells) := by
  induction cells generalizing M with
  | nil => exact .refl
  | cons c later ih =>
    have first : (system b u).Runs M [.writes c] (M.written [c]) :=
      System.Runs.refl.shows (.writes (inside c List.mem_cons_self))
    exact first.trans (ih (M := M.written [c]) (fun c' mem => inside c' (List.mem_cons_of_mem c mem)))

theorem reads_runs (inside : ∀ c ∈ cells, ∀ x, c x ≠ none → Heap.Owned blocks M.live x)
    (seen : ∀ c ∈ cells, ∀ x v, c x = some v → M.world.mem x = v) : (system b u).Runs M (cells.map .reads) M := by
  induction cells with
  | nil => exact .refl
  | cons c later ih =>
    have first : (system b u).Runs M [.reads c] M :=
      System.Runs.refl.shows (.reads (inside c List.mem_cons_self) (seen c List.mem_cons_self))
    exact first.trans
      (ih (fun c' mem => inside c' (List.mem_cons_of_mem c mem)) (fun c' mem => seen c' (List.mem_cons_of_mem c mem)))

end

/-- The cues of thread `t` for a block of 16 bytes, the first one of the program, and for giving it back. -/
def askCues (t : Nat) : List Cue := .call t (.alloc 16) ::
  [[],[some (2 ^ 30)],[],[],[],[],[],[some (2 ^ 31),some (2 ^ 32),some (2 ^ 33),some (2 ^ 34)],[],[]].map (.turn t)
def giveCues (t : Nat) : List Cue := .call t (.free (2 ^ 31)) :: (List.replicate 6 []).map (.turn t)

/-- Thread `t` has the block, writes cells of it, and gives it back. -/
def lend (t : Nat) (cells : List (Nat → Option UInt8)) : Option Program :=
  (plays .standard (askCues t) (start fun _ => 0)).bind fun N =>
    if (N.stage t).handed = some (16,2 ^ 31) ∧ N.live = [] then
      (plays .standard (giveCues t) (written { N.put t .outside with live := (2 ^ 31,16) :: N.live } cells)).bind fun N' =>
        if (N'.stage t).cleared = some (2 ^ 31) then some (N'.put t .outside) else none
    else none

theorem lend_runs {t : Nat} {cells : List (Nat → Option UInt8)} {M : Program} (lent : lend t cells = some M) :
    ∃ A : Program, A.live = [(2 ^ 31,16)] ∧
      (system .standard (.upTo spanBytes)).Runs (start fun _ => 0) [.asks t 16,.gets t (2 ^ 31)] A ∧
      (system .standard (.upTo spanBytes)).Runs (A.written cells) [.gives t (2 ^ 31),.done t] M := by
  obtain ⟨N,asked,rest⟩ := Option.bind_eq_some_iff.mp lent
  split_ifs at rest with handed
  obtain ⟨N',gave,rest⟩ := Option.bind_eq_some_iff.mp rest
  split_ifs at rest with cleared
  cases rest
  refine ⟨{ N.put t .outside with live := (2 ^ 31,16) :: N.live },congrArg _ handed.2,?_,?_⟩
  · exact alloc_runs _ (fun _ _ => trivial) (show 16 ≤ spanBytes by decide) asked handed.1
  · exact free_runs _ (fun _ _ => trivial) trivial gave cleared

/-- With requests of up to 128 pages, or of any size where releases are quiet, the
    program shows nothing that a heap does not show, in every finite run. A critical
    section is one step here, and the system never fails and answers in whole pages. That a
    call returns is not part of this. -/
theorem refines_heap (b : Build) (shown : List Seen) :
    ((system b (.upTo spanBytes)).Shows shown → (TcAlloc.heap Nat UInt8 blocks).Shows shown) ∧
      ((system b (.quiet b)).Shows shown → (TcAlloc.heap Nat UInt8 blocks).Shows shown) :=
  ⟨(follows_heap (fair_upTo b (le_refl spanBytes))).shows,(follows_heap (fair_quiet b)).shows⟩

/-- The block of 16 bytes at `2 ^ 31`, with 7 in every byte. -/
def sevens : Nat → Option UInt8 := fun x => if 2 ^ 31 ≤ x ∧ x < 2 ^ 31 + 16 then some 7 else none

/-- Thread 1 gets a block, writes into it, reads what it has written, and gives it back. -/
theorem refines_heap_shown : (TcAlloc.heap Nat UInt8 blocks).Shows
    [.asks 1 16,.gets 1 (2 ^ 31),.writes sevens,.reads sevens,.gives 1 (2 ^ 31),.done 1] := by
  have lent : (lend 1 [sevens]).isSome = true := by decide +kernel
  obtain ⟨M,lent⟩ := Option.isSome_iff_exists.mp lent
  obtain ⟨A,live,had,gave⟩ := lend_runs lent
  have inside : ∀ x, sevens x ≠ none → Heap.Owned blocks A.live x := by
    intro x some_
    unfold sevens at some_
    split_ifs at some_ with within
    · exact ⟨(2 ^ 31,16),by rw [live]; exact List.mem_singleton_self _,within⟩
    · exact absurd rfl some_
  have wrote := had.shows (.writes inside)
  have read := wrote.shows (.reads inside (fun x v cell => by
    change Heap.overlay sevens A.world.mem x = v
    rw [Heap.overlay,cell,Option.getD_some]))
  exact (refines_heap .standard _).1 ⟨_,_,⟨_,rfl⟩,read.trans gave⟩

end Program
end World
end TcAlloc
