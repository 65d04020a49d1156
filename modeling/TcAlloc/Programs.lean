import TcAlloc.FreeSections

/-!
The program: any number of threads that call `ConcurrentAlloc` and `ConcurrentFree`
and write into their blocks. A step is the beginning or the end of a call, one
section of a call, or a write. In every state that the program reaches, the books
are in order and every thread in a call stands at one of the points (`Agrees`).
-/
namespace TcAlloc
namespace World

/-! ### Every section -/

/-- No section follows: the call is over, an assertion has failed or is about to, the
    bytes asked for being so many that `RoundUp` wraps. -/
def Point.Stops : Point → Prop
  | .begins (.alloc size) => 2 ^ 64 ≤ size + 8191
  | .allocated _ _ | .freed _ | .failed _ => True
  | _ => False

section
variable {b : Build} {t : Nat} {live : List (Nat × Nat)} {g : Stock} {l : Ledger} {w : World} {size : Nat} {pt : Point}
  {post : Outcome → List Mutex → World → Prop} {thrown : List Mutex → World → Prop}

/-- From every point that a thread stands at, a section leads to another one. -/
theorem Holds.leads (holds : Holds b g w t pt) (books : Books b g l w live)
    (quiet : QuietNext b (pt.code b t) w) (going : ¬ pt.Stops) :
    sec sections (Leads b t live g l w pt) (pt.code b t) [] w post thrown := by
  cases pt with
  | begins call =>
    cases call with
    | alloc size =>
      have fits : size + 8191 < 2 ^ 64 := Nat.lt_of_not_le going
      by_cases large : maxBytes < size
      · exact begins_large books holds large fits
      · exact begins_small books holds (by omega)
    | free ptr => exact begins_free books holds
  | makesCache size => exact makesCache_sec books holds
  | constructs size tc => exact constructs_sec books holds
  | storesCache size tc => exact storesCache_sec books holds
  | pops size tc => exact pops_sec books holds
  | counts size tc => exact counts_sec books holds
  | fetches size tc batchNum => exact fetches_sec books holds
  | takes size tc batchNum => exact takes_sec books holds
  | carves size tc batchNum span => exact carves_sec books holds
  | links size tc batchNum span => exact links_sec books holds
  | keeps size tc start end_ actualNum => exact keeps_sec books holds
  | reads size span => exact reads_sec books holds
  | allocated size ptr => exact absurd trivial going
  | looksAtMid ptr mid => exact looksAtMid_sec books holds
  | looksAtLeaf ptr leaf => exact looksAtLeaf_sec books holds
  | measures ptr span => exact measures_sec books holds
  | returnsLarge ptr span => exact returnsLarge_sec books holds quiet
  | readsCache ptr size => exact readsCache_sec books holds
  | pushes ptr size tc => exact pushes_sec books holds
  | shortens ptr size tc => exact shortens_sec books holds
  | flushes ptr size rounds start => exact flushes_sec books holds
  | returns ptr size rounds span next => exact returns_sec books holds quiet
  | freed ptr => exact absurd trivial going
  | failed ptr => exact absurd trivial going

/-- With so many bytes asked for that `RoundUp` wraps, the assertion of `NewSpan` fails. -/
theorem begins_huge (b : Build) (t : Nat) (wraps : 2 ^ 64 ≤ size + 8191) (small : size < 2 ^ 64) :
    (Point.begins (.alloc size)).code b t = .lock .pageCache (.fail .assertion) := by
  have large : maxBytes < size := by have : maxBytes = 262144 := rfl; omega
  have wrapped : SizeClass.roundUp b.midAlignShift size = 0 := SizeClass.roundUp_wraps wraps small
  obtain ⟨rounds,fuel⟩ : ∃ rounds, b.rounds = rounds + 1 := ⟨b.rounds - 1,by have := b.long; omega⟩
  simp only [Point.code,Call.code,concurrentAlloc,if_pos large,allocLarge,wrapped,takeSpan,fuel,Pages.newSpan]
  rfl

end

/-! ### The program -/

/-- A thread is outside the allocator, or in a call with the rest of its code. -/
inductive Stage where
  | outside
  | within (call : Call) (code : Code World Outcome)

def Stage.idle : Stage → Bool
  | .outside => true
  | .within _ _ => false

theorem Stage.of_idle {stage : Stage} (idle : stage.idle = true) : stage = .outside := by
  cases stage with
  | outside => rfl
  | within call code => cases idle

/-- The block whose free has failed. -/
def Stage.failedFree : Stage → Option Nat
  | .within (.free p) (.fail _) => some p
  | _ => none

theorem Stage.of_failedFree {stage : Stage} {p : Nat} (failed : stage.failedFree = some p) : ∃ why,
    stage = .within (.free p) (.fail why) := by
  unfold failedFree at failed
  split at failed
  · next p' why =>
    cases failed
    exact ⟨why,rfl⟩
  · cases failed

/-- The allocator, the threads, and the live blocks with the sizes asked for. -/
structure Program where
  world : World
  stage : Nat → Stage
  live : List (Nat × Nat)

namespace Program

/-- The program starts, whatever memory holds. -/
def start (mem : Memory) : Program := ⟨.start mem,fun _ => .outside,[]⟩

/-- The answers of a system that never fails, in whole pages of the allocator: each base
    is a multiple of 8 KB. `mmap` promises only the 4 KB of its own pages. -/
abbrev answers (w : World) (q : Request) (a : Option Nat) : Prop := w.pages.os.allows (2 ^ pageShift) q a

/-- Which calls the threads make, and where they go on with one. -/
structure Usage where
  calls : Call → Prop
  goes : Code World Outcome → World → Prop

def put (M : Program) (t : Nat) (stage : Stage) : Program := { M with stage := Function.update M.stage t stage }

/-- What the program does besides writing: a thread asks for a block of a 64-bit
    size, or frees a live one; it goes on for a section; its call returns. -/
inductive Act (b : Build) (u : Usage) : Program → Program → Prop
  | alloc {M : Program} {t size : Nat} (outside : M.stage t = .outside) (sized : size < 2 ^ 64)
      (may : u.calls (.alloc size)) :
      Act b u M (M.put t (.within (.alloc size) ((Call.alloc size).code b t)))
  | free {M : Program} {t p size : Nat} (outside : M.stage t = .outside)
      (live : (p,size) ∈ M.live) (may : u.calls (.free p)) :
      Act b u M { M.put t (.within (.free p) ((Call.free p).code b t)) with live := M.live.erase (p,size) }
  | turn {M : Program} {t : Nat} {call : Call} {p p' : Code World Outcome} {w' : World}
      (running : M.stage t = .within call p)
      (may : u.goes p M.world) (run : Section answers p M.world p' w') : Act b u M
      { M.put t (.within call p') with world := w' }
  | allocated {M : Program} {t size p : Nat} (ended : M.stage t = .within (.alloc size) (.ret (.block p))) :
      Act b u M { M.put t .outside with live := (p,size) :: M.live }
  | freed {M : Program} {t p : Nat} (ended : M.stage t = .within (.free p) (.ret .freed)) : Act b u M (M.put t .outside)

/-- The bytes from `p` on that a block of `size` bytes has. -/
def Bytes (b : Build) (p size y : Nat) : Prop := p ≤ y ∧ y < p + SizeClass.roundUp b.midAlignShift size

/-- An act, or a write of the program into its live blocks. -/
inductive Step (b : Build) (u : Usage) : Program → Program → Prop
  | act {M M' : Program} (act : Act b u M M') : Step b u M M'
  | write {M : Program} {m : Memory} (inside : ∀ y, m y ≠ M.world.mem y → ∃ p size, (p,size) ∈ M.live ∧ Bytes b p size y) :
      Step b u M { M with world := { M.world with mem := m } }

def Reaches (b : Build) (u : Usage) : Program → Program → Prop := Relation.ReflTransGen (Step b u)

/-! ### What holds in every state -/

/-- The threads keep to calls below `NPAGES` pages, if `short`, and otherwise release
    spans where the release is quiet. -/
structure Usage.Fair (b : Build) (u : Usage) (short : Prop) : Prop where
  modest : short → ∀ call, u.calls call → call.Modest
  quiet : ¬ short → ∀ p w, u.goes p w → QuietNext b p w

/-- Where a thread is. -/
def Stands (b : Build) (g : Stock) (w : World) (t : Nat) : Stage → Prop
  | .outside => ∀ x, g.place x ≠ .transit t
  | .within call code => ∃ pt : Point, pt.call = call ∧ code = pt.code b t ∧ Holds b g w t pt

/-- The state agrees with a stock and a ledger. -/
structure Agrees (b : Build) (short : Prop) (g : Stock) (l : Ledger) (M : Program) : Prop where
  books : Books b g l M.world M.live
  tidy : short → Tidy l
  stands : ∀ t, Stands b g M.world t (M.stage t)
  modest : ∀ t call code, M.stage t = .within call code → (short → call.Modest) ∧ ∀ size, call = .alloc size → size < 2 ^ 64
  sized : ∀ p size, (p,size) ∈ M.live → size < 2 ^ 64

theorem agrees_start (b : Build) (short : Prop) (mem : Memory) : Agrees b short .start .start (start mem) :=
  ⟨books_start b mem,fun _ => ⟨rfl,fun S s used => by simp [Ledger.start] at used⟩,fun t x => by simp [Stock.start],
    fun _ _ _ running => (nomatch running),fun _ _ mem => nomatch mem⟩

section
variable {b : Build} {u : Usage} {short : Prop} {g g' : Stock} {l l' : Ledger} {M M' : Program} {t : Nat}
  {stage : Stage} {w' : World}
  {live' : List (Nat × Nat)} {call : Call} {p p' : Code World Outcome}

/-- A thread that was not at work stands where it stood. -/
theorem Stands.kept {w : World} {live : List (Nat × Nat)} {v : Nat} (stands : Stands b g w v stage)
    (books : Books b g l w live)
    (books' : Books b g' l' w' live') (kept : Kept t g w g' w') (ne : v ≠ t) : Stands b g' w' v stage := by
  cases stage with
  | outside => exact fun x there => stands x ((kept.leaves.transit ne x).mp there)
  | within call code =>
    obtain ⟨pt,same,code,holds⟩ := stands
    exact ⟨pt,same,code,holds.kept books books' kept ne⟩

/-- One thread has been at work, and stands at another place. -/
theorem Agrees.put {s : Stage} (agrees : Agrees b short g l M) (books' : Books b g' l' w' live')
    (tidy : short → Tidy l') (kept : Kept t g M.world g' w')
    (stands : Stands b g' w' t s)
    (modest : ∀ call code, s = .within call code → (short → call.Modest) ∧ ∀ size, call = .alloc size → size < 2 ^ 64)
    (sized : ∀ p size, (p,size) ∈ live' → size < 2 ^ 64) : Agrees b short g' l' ⟨w',Function.update M.stage t s,live'⟩ := by
  refine ⟨books',tidy,fun v => ?_,fun v call code running => ?_,sized⟩
  · by_cases same : v = t
    · subst same
      simp only [Function.update_self]; exact stands
    · simp only [Function.update_of_ne same]
      exact (agrees.stands v).kept agrees.books books' kept same
  · by_cases same : v = t
    · subst same
      simp only [Function.update_self] at running
      exact modest call code running
    · simp only [Function.update_of_ne same] at running
      exact agrees.modest v call code running

/-- A call of a thread that is to release a span quietly, or keeps to short spans. -/
theorem Agrees.quiet (agrees : Agrees b short g l M) (fair : u.Fair b short)
    (may : u.goes p M.world) : QuietNext b p M.world := by
  by_cases holds : short
  · exact fun S _ _ _ => agrees.books.settled.quiet (agrees.tidy holds).1 S
  · exact fair.quiet holds p M.world may

/-- The point of a thread that can go on. -/
theorem Agrees.going (agrees : Agrees b short g l M) (running : M.stage t = .within call p)
    (run : Section answers p M.world p' w') :
    ∃ pt : Point, pt.call = call ∧ p = pt.code b t ∧ Holds b g M.world t pt ∧ ¬ pt.Stops := by
  have stands := agrees.stands t
  rw [running] at stands
  obtain ⟨pt,same,code,holds⟩ := stands
  refine ⟨pt,same,code,holds,fun stops => ?_⟩
  rw [code] at run
  cases pt with
  | begins call' =>
    cases call' with
    | alloc size =>
      rw [begins_huge b t stops ((agrees.modest t call p running).2 size same.symm)] at run
      have ended := Within.failing run
      cases ended
    | free ptr => exact stops
  | allocated size ptr => exact nomatch Within.begins run
  | freed ptr => exact nomatch Within.begins run
  | failed ptr => exact nomatch Within.begins run
  | _ => exact stops

/-- A section of a thread. -/
theorem Agrees.turn (agrees : Agrees b short g l M) (fair : u.Fair b short)
    (running : M.stage t = .within call p) (may : u.goes p M.world)
    (run : Section answers p M.world p' w') : ∃ g' l' pt pt', p = pt.code b t ∧ pt.call = call ∧ p' = pt'.code b t ∧
      Goes b t M.live g l M.world pt g' l' w' pt' ∧ Agrees b short g' l' { M.put t (.within call p') with world := w' } := by
  obtain ⟨pt,same,rfl,holds,going⟩ := agrees.going running run
  have leads : Leads b t M.live g l M.world pt p' w' := sec_section run
    (show sec sections (Leads b t M.live g l M.world pt) (pt.code b t) [] M.world
    (fun _ _ _ => False) (fun _ _ => False) from
      holds.leads agrees.books (agrees.quiet fair may) going)
  obtain ⟨g',l',pt',rfl,goes⟩ := leads
  have modest := agrees.modest t call _ running
  refine ⟨g',l',pt,pt',rfl,same,rfl,goes,agrees.put (s := .within call (pt'.code b t)) goes.books
    (fun holds => goes.tidy ?_ (agrees.tidy holds)) goes.kept
    ⟨pt',goes.call.trans same,rfl,goes.holds⟩ (fun call' code equal => ?_) agrees.sized⟩
  · rw [same]; exact modest.1 holds
  · cases equal; exact modest

/-- A call that returns. -/
theorem Agrees.ended (agrees : Agrees b short g l M) {o : Outcome} (running : M.stage t = .within call (.ret o)) :
    (∃ size ptr, call = .alloc size ∧ o = .block ptr ∧ Holds b g M.world t (.allocated size ptr)) ∨
      ∃ ptr, call = .free ptr ∧ o = .freed ∧ Holds b g M.world t (.freed ptr) := by
  have stands := agrees.stands t
  rw [running] at stands
  obtain ⟨pt,same,code,holds⟩ := stands
  have quiet : QuietNext b (pt.code b t) M.world := by
    rw [← code]
    exact fun S k release => nomatch release
  by_cases stops : pt.Stops
  · cases pt with
    | begins call' =>
      cases call' with
      | alloc size =>
        rw [begins_huge b t stops ((agrees.modest t call _ running).2 size same.symm)] at code
        cases code
      | free ptr => exact stops.elim
    | allocated size ptr =>
      cases code
      exact .inl ⟨size,ptr,same.symm,rfl,holds⟩
    | freed ptr =>
      cases code
      exact .inr ⟨ptr,same.symm,rfl,holds⟩
    | failed ptr => cases code
    | _ => exact stops.elim
  · have impossible : sec sections (Leads b t M.live g l M.world pt) (pt.code b t) [] M.world
      (fun _ _ _ => False) (fun _ _ => False) :=
      holds.leads agrees.books quiet stops
    rw [← code] at impossible
    exact impossible.elim

/-- A thread begins to free a live block, and has it in its hands. -/
theorem Agrees.takes_back {ptr size : Nat} (agrees : Agrees b short g l M) (outside : M.stage t = .outside)
    (live : (ptr,size) ∈ M.live) :
    ∃ g', Agrees b short g' l { M.put t (.within (.free ptr) ((Call.free ptr).code b t)) with
        live := M.live.erase (ptr,size) } ∧ Kept t g M.world g' M.world ∧ Holds b g' M.world t (.begins (.free ptr)) ∧
      g'.place ptr = .transit t ∧ ∃ S, g'.Owns S ptr (SizeClass.roundUp b.midAlignShift size) := by
  have stands := agrees.stands t
  rw [outside] at stands
  obtain ⟨here,S,owns⟩ := agrees.books.stock.blocks ptr size live
  obtain ⟨books',kept⟩ := agrees.books.handed (t := t) (q := .transit t) (agrees.books.stock.take_back live)
    (fun x mem => by rw [List.mem_singleton.mp mem]; exact .inr here) (.inl rfl)
  have owns' : (g.move [ptr] (.transit t)).Owns S ptr (SizeClass.roundUp b.midAlignShift size) :=
    ⟨owns.home,owns.mem,owns.size⟩
  have carries : Carries (g.move [ptr] (.transit t)) t (SizeClass.roundUp b.midAlignShift size) [ptr] :=
    ⟨Carries.single stands rfl,fun x mem => by rw [List.mem_singleton.mp mem]; exact ⟨S,owns'⟩⟩
  have holds : Holds b (g.move [ptr] (.transit t)) M.world t (.begins (.free ptr)) := ⟨[ptr],_,rfl,carries,trivial⟩
  refine ⟨_,agrees.put (s := .within (.free ptr) _) books' agrees.tidy kept ⟨_,rfl,rfl,holds⟩
    (fun call code same => ?_) (fun p' size' mem => agrees.sized p' size' (List.mem_of_mem_erase mem)),kept,holds,
    carries.holding.at_place (List.mem_singleton_self ptr),S,owns'⟩
  cases same
  exact ⟨fun _ => trivial,fun size' same => nomatch same⟩

/-- An act is one of a thread, which is elsewhere after it, and leaves the others' things alone. -/
theorem Agrees.act_kept (agrees : Agrees b short g l M) (fair : u.Fair b short) (act : Act b u M M') :
    ∃ g' l' t, Agrees b short g' l' M' ∧ Kept t g M.world g' M'.world ∧ M'.stage t ≠ M.stage t := by
  cases act with
  | @alloc t size outside sized may =>
    have stands := agrees.stands t
    rw [outside] at stands
    refine ⟨g,l,t,agrees.put (s := .within (.alloc size) _) agrees.books agrees.tidy (.refl t g _)
      ⟨.begins (.alloc size),rfl,rfl,[],0,rfl,carries_nil stands 0,trivial⟩
      (fun call code same => ?_) agrees.sized,.refl t g _,?_⟩
    · cases same
      exact ⟨fun holds => fair.modest holds _ may,fun size' same => by cases same; exact sized⟩
    · simp [Program.put,outside]
  | @free t p size outside live may =>
    obtain ⟨g',agrees',kept,_⟩ := agrees.takes_back outside live
    exact ⟨g',l,t,agrees',kept,by simp [Program.put,outside]⟩
  | @turn t call p p' w' running may run =>
    obtain ⟨g',l',_,_,_,_,_,goes,agrees'⟩ := agrees.turn fair running may run
    refine ⟨g',l',t,agrees',goes.kept,?_⟩
    simpa [Program.put,running] using Section.ne run
  | @allocated t size p ended =>
    rcases agrees.ended ended with ⟨size',ptr,same,out,list,bytes,rfl,carries,rfl,_⟩ | ⟨ptr,same,_⟩
    · cases same
      cases out
      have here := carries.holding.at_place (List.mem_singleton_self p)
      obtain ⟨S,owns⟩ := carries.sized p (List.mem_singleton_self p)
      obtain ⟨books',kept⟩ := agrees.books.handed (t := t) (q := .live) (agrees.books.stock.hand_out here owns)
        (fun x mem => by rw [List.mem_singleton.mp mem]; exact .inl here) (.inr rfl)
      refine ⟨_,l,t,agrees.put (s := .outside) books' agrees.tidy kept
        (Holding.nil_iff.mp (carries.holding.leave_all (q := .live) nofun)) (fun _ _ same => nomatch same)
        (fun p' size' mem => ?_),kept,by simp [Program.put,ended]⟩
      rcases List.mem_cons.mp mem with same | old
      · cases same; exact (agrees.modest t _ _ ended).2 size rfl
      · exact agrees.sized p' size' old
    · cases same
  | @freed t p ended =>
    rcases agrees.ended ended with ⟨size',ptr,same,_⟩ | ⟨ptr,_,_,list,bytes,rfl,carries,_⟩
    · cases same
    · exact ⟨g,l,t,agrees.put (s := .outside) agrees.books agrees.tidy (.refl t g _) (Holding.nil_iff.mp carries.holding)
        (fun _ _ same => nomatch same) agrees.sized,.refl t g _,by simp [Program.put,ended]⟩

theorem Agrees.act (agrees : Agrees b short g l M) (fair : u.Fair b short) (act : Act b u M M') : ∃ g' l',
    Agrees b short g' l' M' := by
  obtain ⟨g',l',_,agrees',_⟩ := agrees.act_kept fair act
  exact ⟨g',l',agrees'⟩

/-- The program has written into its live blocks. -/
theorem Agrees.written (agrees : Agrees b short g l M) {m : Memory}
    (inside : ∀ y, m y ≠ M.world.mem y → ∃ p size, (p,size) ∈ M.live ∧ Bytes b p size y) :
    Agrees b short g l { M with world := { M.world with mem := m } } := by
  have written := agrees.books.blockWritten (t := 0) inside
  refine ⟨written.1,agrees.tidy,fun v => ?_,agrees.modest,agrees.sized⟩
  -- The write leaves every thread's things alone, so it can be laid to any other thread.
  exact (agrees.stands v).kept agrees.books written.1 (agrees.books.blockWritten (t := v + 1) inside).2 (by omega)

theorem Agrees.step (agrees : Agrees b short g l M) (fair : u.Fair b short) (step : Step b u M M') : ∃ g' l',
    Agrees b short g' l' M' := by
  cases step with
  | act act => exact agrees.act fair act
  | write inside => exact ⟨g,l,agrees.written inside⟩

/-- A step of the others. -/
theorem Agrees.aside (agrees : Agrees b short g l M) (fair : u.Fair b short) (step : Step b u M M')
    (still : M'.stage t = M.stage t) : ∃ g' l' v, v ≠ t ∧ Agrees b short g' l' M' ∧ Kept v g M.world g' M'.world := by
  cases step with
  | act act =>
    obtain ⟨g',l',v,agrees',kept,moved⟩ := agrees.act_kept fair act
    refine ⟨g',l',v,?_,agrees',kept⟩
    rintro rfl
    exact moved still
  | write inside =>
    exact ⟨g,l,t + 1,Nat.succ_ne_self t,agrees.written inside,(agrees.books.blockWritten inside).2⟩

/-- In every state that the program reaches the books are in order. -/
theorem Reaches.agrees {mem : Memory} (reached : Reaches b u (start mem) M) (fair : u.Fair b short) : ∃ g
    l, Agrees b short g l M := by
  induction reached with
  | refl => exact ⟨_,_,agrees_start b short mem⟩
  | tail _ step ih =>
    obtain ⟨g,l,agrees⟩ := ih
    exact agrees.step fair step

/-! ### A call with nothing else going on -/

/-- What is left of a program, and the state, after some sections with nobody else at work. -/
def Turns : Code World Outcome × World → Code World Outcome × World → Prop :=
  Relation.ReflTransGen (fun c d => Section answers c.1 c.2 d.1 d.2)

/-- The program with the thread `t` further on in its call. -/
def goOn (M : Program) (t : Nat) (call : Call) (d : Code World Outcome × World) : Program :=
  { M.put t (.within call d.1) with world := d.2 }

theorem Turns.acts {c d : Code World Outcome × World} (M : Program) (t : Nat) (call : Call) (turns : Turns c d)
    (may : ∀ e, Turns c e → u.goes e.1 e.2) :
    Relation.ReflTransGen (fun N N' => Act b u N N' ∧ N'.live = M.live) (M.goOn t call c) (M.goOn t call d) := by
  induction turns with
  | refl => exact .refl
  | @tail d e before run ih =>
    refine .tail ih ⟨?_,rfl⟩
    have act := Act.turn (b := b) (u := u) (M := M.goOn t call d) (t := t) (p := d.1) (Function.update_self ..)
      (may d before) run
    simpa only [goOn,put,Function.update_idem] using act

/-! ### Runs that can be computed -/

/-- What the program does next, with the answers of the system. -/
inductive Cue where
  | call (t : Nat) (call : Call)
  | turn (t : Nat) (answers : List (Option Nat))
  | finish (t : Nat)

def Cue.play (b : Build) : Cue → Program → Option Program
  | .call t call, M => match M.stage t, call with
    | .outside, .alloc size => if size < 2 ^ 64 then some (M.put t (.within call (call.code b t))) else none
    | .outside, .free p => match M.live.find? (fun block => block.1 = p) with
      | some block => some { M.put t (.within call (call.code b t)) with live := M.live.erase block }
      | none => none
    | _, _ => none
  | .turn t given, M => match M.stage t with
    | .within call p => (execSection (fun w q a => decide (answers w q a)) p given [] M.world).map (M.goOn t call)
    | .outside => none
  | .finish t, M => match M.stage t with
    | .within (.alloc size) (.ret (.block p)) => some { M.put t .outside with live := (p,size) :: M.live }
    | .within (.free _) (.ret .freed) => some (M.put t .outside)
    | _ => none

/-- The calls of the cue are those of the usage. -/
def Cue.May (u : Usage) : Cue → Prop
  | .call _ call => u.calls call
  | _ => True

theorem Cue.act (cue : Cue) (may : cue.May u) (always : ∀ p w, u.goes p w)
    (played : cue.play b M = some M') : Act b u M M' := by
  cases cue with
  | call t call =>
    simp only [Cue.play] at played
    split at played
    · next size outside =>
      split_ifs at played with sized
      cases played
      exact .alloc outside sized may
    · next p outside =>
      split at played
      · next block found =>
        cases played
        obtain rfl : block.1 = p := by simpa using List.find?_some found
        exact .free outside (List.mem_of_find?_eq_some found) may
      · cases played
    · cases played
  | turn t given =>
    simp only [Cue.play] at played
    split at played
    · next call p running =>
      obtain ⟨d,result,rfl⟩ := Option.map_eq_some_iff.mp played
      exact .turn running (always _ _) (execSection_within (fun _ _ _ => of_decide_eq_true) p given
        [] M.world (.inl rfl) result)
    · cases played
  | finish t =>
    simp only [Cue.play] at played
    split at played
    · next size p ended => cases played; exact .allocated ended
    · next p ended => cases played; exact .freed ended
    · cases played

def plays (b : Build) : List Cue → Program → Option Program
  | [], M => some M
  | cue :: later, M => (cue.play b M).bind (plays b later)

theorem plays_acts (cues : List Cue) (may : ∀ cue ∈ cues, cue.May u) (always : ∀ p w, u.goes p w)
    (played : plays b cues M = some M') :
    Relation.ReflTransGen (Act b u) M M' := by
  induction cues generalizing M with
  | nil => cases played; exact .refl
  | cons cue later ih =>
    obtain ⟨N,first,rest⟩ := Option.bind_eq_some_iff.mp played
    exact .head (cue.act (may cue List.mem_cons_self) always first)
      (ih (fun c mem => may c (List.mem_cons_of_mem cue mem)) rest)

theorem plays_reaches (cues : List Cue) (may : ∀ cue ∈ cues, cue.May u) (always : ∀ p w, u.goes p w)
    (played : plays b cues M = some M') :
    Reaches b u M M' :=
  Relation.ReflTransGen.mono (fun _ _ act => Step.act act) _ _ (plays_acts cues may always played)

end
end Program
end World
end TcAlloc
