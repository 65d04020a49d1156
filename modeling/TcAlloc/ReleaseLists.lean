import TcAlloc.FreeSections

/-!
`ReleaseListToSpans` from its call to its return, by a thread that works alone. Its
run is one of whole sections (`Hands`), which records the spans that it gives to
`ReleaseSpanToPageCache`. Between two sections a part of the batch is back on the lists
of its spans, and the spans that have all their objects back are out of the bucket
(`Progress`); the run goes from one such state to the next until the batch is at its end.
-/
namespace TcAlloc
namespace World

/-! ### Runs that hand over spans -/

/-- A run in whole sections, with the spans it has handed to `ReleaseSpanToPageCache`. -/
inductive Hands (b : Build) (c : Code World Unit × World) : List Nat → Code World Unit × World → Prop
  | refl : Hands b c [] c
  | turn {log : List Nat} {p p' : Code World Unit} {w w' : World} (before : Hands b c log (p,w))
      (other : ∀ S k, p ≠ releaseSpan b S >>= k) (run : Section sections.allowed p w p' w') : Hands b c log (p',w')
  | hands {log : List Nat} {S : Nat} {k : Unit → Code World Unit} {p' : Code World Unit} {w w' : World}
      (before : Hands b c log (releaseSpan b S >>= k,w)) (run : Section sections.allowed (releaseSpan b S >>= k) w p' w') :
      Hands b c (log ++ [S]) (p',w')

/-- What the sections of a program preserve holds along its runs. -/
theorem Hands.keeps {b : Build} {c d : Code World Unit × World} {log : List Nat}
    {J : List Nat → Code World Unit → World → Prop}
    {P : Unit → List Mutex → World → Prop} {E : List Mutex → World → Prop} (run : Hands b c log d) (start : J [] c.1 c.2)
    (turn : ∀ log p w, J log p w → (∀ S k, p ≠ releaseSpan b S >>= k) → sec sections (J log) p [] w P E)
    (hands : ∀ log S k w, J log (releaseSpan b S >>= k) w → sec sections (J (log ++ [S])) (releaseSpan b S >>= k) [] w P E) :
    J log d.1 d.2 := by
  induction run with
  | refl => exact start
  | turn before other run ih => exact sec_section run (turn _ _ _ ih other)
  | hands before run ih => exact sec_section run (hands _ _ _ _ ih)

section
variable {b : Build}

/-- The first operation, where it is one on the state or an event. -/
def marks {α : Type} : Code World α → Option Bool
  | .mark _ _ => some true
  | .act _ _ => some false
  | _ => none

/-- What follows the first reading of a program under its first mutex. -/
def afterRead {α : Type} (w : World) : Code World α → Code World α
  | .lock _ (.act _ k) => k w
  | p => p

/-- The world in which one span is too long to be kept, and every other one is short. -/
def oneLong (S : Nat) : World :=
  { start (fun _ => 0) with pages := { Pages.start with spans := fun T => if T = S then { n := npages } else {} } }

theorem releaseSpan_zero (k : Unit → Code World Unit) : releaseSpan b 0 >>= k = .lock .pageCache (.fail .assertion) := rfl

/-- A release first reads its span. -/
theorem releaseSpan_reads {S T : Nat} (some : S ≠ 0) (k : Unit → Code World Unit) :
    marks (afterRead (oneLong T) (releaseSpan b S >>= k)) = Option.some (decide (S = T)) := by
  obtain ⟨rounds,fuel⟩ : ∃ rounds, b.rounds = rounds + 1 := ⟨b.rounds - 1,by have := b.long; omega⟩
  unfold releaseSpan
  rw [fuel]
  simp only [Pages.releaseSpanToPageCache,Prog.require,ne_eq,some,not_false_eq_true,if_true,Prog.bind_def,
    Prog.bind,Prog.holding,Pages.get,
    Prog.read,Prog.zoom,afterRead]
  by_cases same : S = T
  · subst same
    have long : ((oneLong S).pages.spans S).n = npages := by simp [oneLong]
    have get : pagesPart.get (oneLong S) = (oneLong S).pages := rfl
    simp only [get,long,le_refl,if_true,decide_true]
    rfl
  · have short : ((oneLong T).pages.spans S).n = 0 := by simp [oneLong,same]
    have get : pagesPart.get (oneLong T) = (oneLong T).pages := rfl
    have few : ¬ npages ≤ 0 := by decide
    simp only [get,short,few,if_false,same,decide_false]
    rfl

/-- The span that a program is about to release is determined. -/
theorem releaseSpan_unique {S T : Nat} {k k' : Unit → Code World Unit}
    (same : releaseSpan b S >>= k = releaseSpan b T >>= k') : S = T := by
  by_cases none : S = 0
  · by_cases none' : T = 0
    · rw [none,none']
    · rw [none,releaseSpan_zero] at same
      have reads := releaseSpan_reads none' (b := b) (T := T) k'
      rw [← same] at reads
      cases reads
  · by_cases none' : T = 0
    · rw [none',releaseSpan_zero] at same
      have reads := releaseSpan_reads none (b := b) (T := S) k
      rw [same] at reads
      cases reads
    · have reads := releaseSpan_reads none (b := b) (T := T) k
      rw [same,releaseSpan_reads none' k'] at reads
      simpa [eq_comm] using reads

end

/-! ### A batch on its way back -/

/-- The objects `A` of a batch are back on the lists of their spans, and `B` are in the
    hands of thread `t`. The spans `out` have all their objects back and have left
    the bucket `i`; those in `log` are released. -/
structure Progress (b : Build) (t i : Nat) (live : List (Nat × Nat)) (g : Stock) (w : World) (A B log out : List Nat)
    (g' : Stock) (l' : Ledger) (w' : World) : Prop where
  books : Books b g' l' w' live
  tidy : Tidy l'
  carries : Carries g' t (SizeClass.classSize b.midAlignShift i) B
  extent : g'.extent = g.extent
  place : ∀ x, x ∉ A → g'.place x = g.place x ∨ ∃ T ∈ log, g.place x = .free T
  back : ∀ x ∈ A, ∃ T, g.home T = some (.listed i) ∧ x ∈ (g.extent T).objects ∧ (T ∉ log → g'.place x = .free T)
  home : ∀ T, T ∉ out → g'.home T = g.home T
  emptied : ∀ T ∈ out, g.home T = some (.listed i) ∧ ∀ x ∈ (g.extent T).objects, g.place x = .free T ∨ x ∈ A
  dropped : ∀ T ∈ log, g'.home T = none
  once : out.Nodup
  lists : w'.spanLists = Function.update w.spanLists i ((w.spanLists i).filter (· ∉ out))
  others : ∀ T, T ∉ out → g.home T ≠ none → (∀ x ∈ A, x ∉ (g.extent T).objects) → w'.pages.spans T = w.pages.spans T
  freePages : ∀ q, w'.pages.FreePage q ↔ w.pages.FreePage q ∨ ∃ T ∈ log, q ∈ (w.pages.spans T).pages
  written : Written (· ∈ A) w.mem w'.mem

/-- The span `S` has left the bucket `i` with all its objects on its list, for thread `t` to release. -/
structure AllBack (b : Build) (t i S : Nat) (g : Stock) (w : World) : Prop where
  span : HoldsSpan g w t S (SizeClass.classSize b.midAlignShift i)
  all : ∀ y ∈ (g.extent S).objects, g.place y = .free S
  complete : ∃ head objs, Chain w.mem head objs ∧ objs.Perm (g.extent S).objects

section
variable {b : Build} {t i : Nat} {live : List (Nat × Nat)} {g g' g'' : Stock} {l l' l'' : Ledger} {w w' w'' : World}
  {A B C log out list : List Nat} {S x : Nat}

theorem Progress.start (books : Books b g l w live) (tidy : Tidy l)
    (carries : Carries g t (SizeClass.classSize b.midAlignShift i) list) :
    Progress b t i live g w [] list [] [] g l w := by
  refine ⟨books,tidy,carries,rfl,fun _ _ => .inl rfl,by simp,fun _ _ => rfl,by simp,by simp,List.nodup_nil,?_,
    fun _ _ _ _ => rfl,by simp,.refl _ _⟩
  simp

/-- Free spans do not see objects put back. -/
theorem PutBack.freePage_iff (back : PutBack g w A g' w') (q : Nat) : w'.pages.FreePage q ↔ w.pages.FreePage q := by
  have pool : w'.pages.spanPool = w.pages.spanPool := by rw [back.pages]
  apply Pages.freePage_congr pool
  intro T
  obtain ⟨extent,isUse⟩ := back.spans T
  exact ⟨isUse,Span.pages_eq extent⟩

/-- More objects are put back, and maybe a span leaves the bucket. -/
theorem Progress.putBack (base : Books b g l w live) (inside : i < SizeClass.nfreelists b.midAlignShift)
    (progress : Progress b t i live g w A (C ++ B) log log g' l' w') (works : Works b t live g' l' w' g'' l'' w'')
    (back : PutBack g' w' C g'' w'') (carries : Carries g'' t (SizeClass.classSize b.midAlignShift i) B)
    (more : log ⊆ out) (once : out.Nodup)
    (home : ∀ T, T ∉ out → g''.home T = g'.home T) (dropped : ∀ T ∈ log, g''.home T = none)
    (emptied : ∀ T ∈ out, T ∉ log → g'.home T = some (.listed i) ∧ ∀ y ∈ (g'.extent T).objects, g''.place y = .free T)
    (lists : w''.spanLists = Function.update w.spanLists i ((w.spanLists i).filter (· ∉ out))) :
    Progress b t i live g w (A ++ C) B log out g'' l'' w'' := by
  have hands : ∀ x ∈ C, g'.place x = .transit t := fun x mem => progress.carries.holding.at_place
    (List.mem_append_left B mem)
  refine ⟨works.books,works.tidy progress.tidy,carries,back.extent.trans progress.extent,fun x away => ?_,
    fun x mem => ?_,fun T away => ?_,
    fun T mem => ?_,dropped,once,lists,fun T away used clear => ?_,fun q => ?_,?_⟩
  · rw [List.mem_append,not_or] at away
    rw [back.place x away.2]
    exact progress.place x away.1
  · rcases List.mem_append.mp mem with inA | inC
    · obtain ⟨T,listed,inT,there⟩ := progress.back x inA
      refine ⟨T,listed,inT,fun still => ?_⟩
      have here := there still
      rw [back.place x (fun inC => by rw [hands x inC] at here; cases here)]
      exact here
    · obtain ⟨T,used,inT,there⟩ := back.back x inC
      obtain ⟨T',owns⟩ := progress.carries.sized x (List.mem_append_left B inC)
      have same := progress.books.stock.owner_unique used owns.home inT owns.mem
      have listed := progress.books.stock.class_home inside (hands x inC) owns
      rw [← same] at listed
      have still : T ∉ log := fun mem => used (progress.dropped T mem)
      rw [progress.home T still] at listed
      exact ⟨T,listed,by rw [← progress.extent]; exact inT,fun _ => there⟩
  · rw [home T away]
    exact progress.home T (fun mem => away (more mem))
  · by_cases old : T ∈ log
    · obtain ⟨listed,all⟩ := progress.emptied T old
      exact ⟨listed,fun x inT => (all x inT).imp_right (List.mem_append_left C)⟩
    · obtain ⟨listed,all⟩ := emptied T mem old
      rw [progress.home T old] at listed
      refine ⟨listed,fun y inT => ?_⟩
      by_cases inA : y ∈ A ++ C
      · exact .inr inA
      left
      rw [List.mem_append,not_or] at inA
      have there := all y (by rw [progress.extent]; exact inT)
      rw [back.place y inA.2] at there
      rcases progress.place y inA.1 with same | ⟨T',gone,elsewhere⟩
      · rw [← same]; exact there
      · obtain ⟨homeU,inU⟩ := base.stock.free_mem elsewhere
        have equal := base.stock.owner_unique (by rw [listed]; simp) homeU inT inU
        rw [equal] at old
        exact absurd gone old
  · by_cases same : w''.pages.spans T = w'.pages.spans T
    · rw [same]
      exact progress.others T (fun mem => away (more mem)) used (fun x mem => clear x (List.mem_append_left C mem))
    · obtain ⟨x,mem,there⟩ := back.others T same
      obtain ⟨T',_,inT,there'⟩ := back.back x mem
      rw [there] at there'
      cases there'
      rw [progress.extent] at inT
      exact absurd inT (clear x (List.mem_append_right A mem))
  · rw [back.freePage_iff q]
    exact progress.freePages q
  · exact (progress.written.mono (fun x mem => List.mem_append_left C mem)).trans
      (back.written.mono (fun x mem => List.mem_append_right A mem))

/-- The batch has come to its end. -/
theorem Progress.flushed (base : Books b g l w live) (inside : i < SizeClass.nfreelists b.midAlignShift)
    (progress : Progress b t i live g w A B log log g' l' w') (works : Works b t live g' l' w' g'' l'' w'')
    (flushed : Flushed g' w' B g'' w'') : Progress b t i live g w (A ++ B) [] log log g'' l'' w'' := by
  refine Progress.putBack (C := B) base inside (by rw [List.append_nil]; exact progress) works flushed.back
    (carries_nil (fun x here => ?_) _) (fun _ mem => mem)
    progress.once (fun T _ => by rw [flushed.home]) (fun T mem => by rw [flushed.home]; exact progress.dropped T mem)
    (fun T mem away => absurd mem away)
    (by rw [flushed.lists,progress.lists])
  by_cases mem : x ∈ B
  · obtain ⟨T,_,_,there⟩ := flushed.back.back x mem
    rw [there] at here; cases here
  · rw [flushed.back.place x mem] at here
    exact mem ((progress.carries.holding.mem x).mpr here)

/-- A span has all its objects back. -/
theorem Progress.drained {next : Nat} (base : Books b g l w live) (inside : i < SizeClass.nfreelists b.midAlignShift)
    (progress : Progress b t i live g w A (C ++ x :: B) log log g' l' w') (works : Works b t live g' l' w' g'' l'' w'')
    (facts : Drains g' w' t i (SizeClass.classSize b.midAlignShift i) C x B S next g'' w'') :
    Progress b t i live g w (A ++ (C ++ [x])) B log (log ++ [S]) g'' l'' w'' ∧ AllBack b t i S g'' w'' := by
  have fresh : S ∉ log := fun mem => by
    have gone := progress.dropped S mem
    rw [facts.listed] at gone; cases gone
  have other : ∀ T, T ≠ S → g''.home T = g'.home T := fun T ne => by rw [facts.home,Function.update_of_ne ne]
  refine ⟨Progress.putBack base inside (by rw [List.append_assoc]; exact progress) works facts.back facts.carries
    (fun T mem => List.mem_append_left _ mem)
    (List.nodup_append.mpr ⟨progress.once,List.nodup_singleton S,fun T mem U same equal => ?_⟩)
    (fun T away => ?_) (fun T mem => ?_)
    (fun T mem away => ?_) ?_,facts.span,facts.all,?_⟩
  · rw [List.mem_singleton.mp same] at equal
    exact fresh (equal ▸ mem)
  · rw [List.mem_append,not_or,List.mem_singleton] at away
    exact other T away.2
  · rw [other T (fun same => fresh (same ▸ mem))]
    exact progress.dropped T mem
  · obtain rfl := List.mem_singleton.mp ((List.mem_append.mp mem).resolve_left away)
    refine ⟨facts.listed,fun y inT => facts.all y ?_⟩
    rw [facts.back.extent]; exact inT
  · rw [facts.lists,progress.lists,Function.update_idem,Function.update_self,
      ((base.once i).filter _).erase_eq_filter,List.filter_filter]
    congr 1
    apply List.filter_congr
    intro T _
    by_cases old : T ∈ log <;> by_cases same : T = S <;> simp [old,same]
  · obtain ⟨rest,chain,all⟩ := facts.complete
    exact ⟨x,x :: rest,chain,by rw [facts.back.extent]; exact all⟩

/-- The span is released. -/
theorem Progress.released {s : Span} {pages : Pages} (base : Books b g l w live)
    (progress : Progress b t i live g w A B log (log ++ [S]) g' l' w')
    (ready : AllBack b t i S g' w') (used : l'.used S = some s) (settled : Pages.Settled (Pages.released l' S s) pages)
    (persists : w'.pages.idSpanMap.Persists pages.idSpanMap) (returned : Pages.Returned w'.pages S s pages) :
    Progress b t i live g w A B (log ++ [S]) (log ++ [S]) (g'.drop S) (Pages.released l' S s)
    { w' with pages := pages } := by
  have own := progress.books
  have short := progress.tidy.2 S s used
  obtain ⟨listed,all⟩ := progress.emptied S (List.mem_append_right log (List.mem_singleton_self S))
  obtain ⟨books,_⟩ := own.returned (t := t) ready.span.home (.inl rfl)
    (fun x mem => .inr (.inr (ready.all x mem))) settled persists
  have frees : Pages.Frees w'.pages S pages := by
    rw [Pages.released,if_neg (by omega)] at settled
    exact (returned.short short).frees own.settled used settled
  have gone : ∀ x ∈ (g'.extent S).objects, (g'.drop S).place x = .nowhere := fun x mem => moved_of_mem mem
  have stays : ∀ x, x ∉ (g'.extent S).objects → (g'.drop S).place x = g'.place x := fun x away => moved_of_not_mem away
  have other : ∀ T, T ≠ S → (g'.drop S).home T = g'.home T := fun T ne => Function.update_of_ne ne ..
  have still : ∀ T, T ≠ S → (Pages.released l' S s).used T = l'.used T := fun T ne => by
    rw [released_used]; exact Ledger.giveBack_other l' ne
  refine ⟨books,progress.tidy.released used,⟨progress.carries.holding.congr (fun x => ?_),fun x mem => ?_⟩,
    progress.extent,fun x away => ?_,
    fun x mem => ?_,fun T away => ?_,progress.emptied,fun T mem => ?_,progress.once,progress.lists,
    fun T away somewhere clear => ?_,fun q => ?_,
    progress.written⟩
  · by_cases mem : x ∈ (g'.extent S).objects
    · rw [gone x mem,ready.all x mem]; simp
    · rw [stays x mem]
  · obtain ⟨T,owns⟩ := progress.carries.sized x mem
    have ne : T ≠ S := fun same => by
      have there := ready.all x (same ▸ owns.mem)
      rw [progress.carries.holding.at_place mem] at there; cases there
    exact ⟨T,by rw [other T ne]; exact owns.home,owns.mem,owns.size⟩
  · by_cases mem : x ∈ (g'.extent S).objects
    · rw [progress.extent] at mem
      exact .inr ⟨S,List.mem_append_right log (List.mem_singleton_self S),(all x mem).resolve_right away⟩
    · rw [stays x mem]
      rcases progress.place x away with same | ⟨T,mem,here⟩
      · exact .inl same
      · exact .inr ⟨T,List.mem_append_left _ mem,here⟩
  · obtain ⟨T,home,inT,there⟩ := progress.back x mem
    refine ⟨T,home,inT,fun away => ?_⟩
    rw [List.mem_append,not_or,List.mem_singleton] at away
    rw [stays x (fun inS => ?_)]
    · exact there away.1
    · rw [progress.extent] at inS
      exact away.2 (base.stock.owner_unique (by rw [home]; simp) (by rw [listed]; simp) inT inS)
  · have ne : T ≠ S := fun same => away (by simp [same])
    rw [other T ne]
    exact progress.home T away
  · rcases List.mem_append.mp mem with old | new
    · by_cases same : T = S
      · rw [same]; exact Function.update_self ..
      · rw [other T same]
        exact progress.dropped T old
    · rw [List.mem_singleton.mp new]; exact Function.update_self ..
  · have ne : T ≠ S := fun same => away (by simp [same])
    have home := progress.home T away
    refine (own.others settled still (by rw [home]; exact somewhere) ne).trans ?_
    exact progress.others T away somewhere clear
  · have own_pages : (w'.pages.spans S).pages = (w.pages.spans S).pages := by
      obtain ⟨s',_,same,extent⟩ := own.span (S := S) (by rw [ready.span.home]; simp)
      obtain ⟨s₀,_,same₀,extent₀⟩ := base.span (S := S) (by rw [listed]; simp)
      have equal : s'.extent = s₀.extent := by rw [← extent,← extent₀,progress.extent]
      rw [same,same₀,Span.pages_eq equal]
    show pages.FreePage q ↔ _
    rw [frees.freePages q,progress.freePages q,own_pages]
    simp only [List.mem_append,List.mem_singleton,or_and_right,exists_or,exists_eq_left,or_assoc]

/-! ### The run -/

/-- Where the run is between two sections. -/
inductive Flushes (b : Build) (t i : Nat) (live : List (Nat × Nat)) (g : Stock) (w : World) (list : List Nat) :
    List Nat → Code World Unit → World → Prop
  /-- before it takes the mutex of the bucket -/
  | takes {A B log : List Nat} {rounds next : Nat} {g' : Stock} {l' : Ledger} {w' : World} (split : list = A ++ B)
      (enough : B.length < rounds)
      (chain : Chain w'.mem next B) (progress : Progress b t i live g w A B log log g' l' w') :
      Flushes b t i live g w list log (.acquire (.bucket i) >>= fun _ => flush b i rounds next) w'
  /-- before it releases a span -/
  | hands {A B log : List Nat} {S rounds next : Nat} {g' : Stock} {l' : Ledger} {w' : World} (split : list = A ++ B)
      (enough : B.length < rounds)
      (chain : Chain w'.mem next B) (progress : Progress b t i live g w A B log (log ++ [S]) g' l' w')
      (ready : AllBack b t i S g' w') :
      Flushes b t i live g w list log (releaseSpan b S >>= fun _ => .acquire (.bucket i) >>=
      fun _ => flush b i rounds next) w'
  | ended {log : List Nat} {g' : Stock} {l' : Ledger} {w' : World}
      (progress : Progress b t i live g w list [] log log g' l' w') :
      Flushes b t i live g w list log (.ret ()) w'

section
variable {post : Unit → List Mutex → World → Prop} {thrown : List Mutex → World → Prop} {rounds next head size : Nat}

theorem flushing_sec (base : Books b g l w live) (inside : i < SizeClass.nfreelists b.midAlignShift)
    (split : list = A ++ B) (enough : B.length < rounds)
    (chain : Chain w'.mem next B) (progress : Progress b t i live g w A B log log g' l' w') :
    sec sections (Flushes b t i live g w list log) (.acquire (.bucket i) >>= fun _ => flush b i rounds next) [] w' post
    thrown := by
  simp only [sec_seq,sec_acquire]
  refine ⟨by simp,trivial,flush_sec inside progress.books progress.carries chain enough (fun g'' l'' w'' works flushed => ?_)
    (fun C x B' S next' rounds' g'' l'' w'' cut fuel works facts => ?_)⟩
  · have ended := progress.flushed base inside works flushed
    rw [← split] at ended
    exact .ended ended
  · subst cut
    obtain ⟨progress',ready⟩ := progress.drained base inside works facts
    exact .hands (by rw [split]; simp) fuel facts.chain progress' ready

theorem handing_sec (base : Books b g l w live) (split : list = A ++ B) (enough : B.length < rounds)
    (chain : Chain w'.mem next B)
    (progress : Progress b t i live g w A B log (log ++ [S]) g' l' w') (ready : AllBack b t i S g' w') :
    sec sections (Flushes b t i live g w list (log ++ [S]))
      (releaseSpan b S >>= fun _ => .acquire (.bucket i) >>= fun _ => flush b i rounds next) [] w' post thrown := by
  obtain ⟨s,used,same,_⟩ := progress.books.span (S := S) (by rw [ready.span.home]; simp)
  have unused := ready.span.unused
  rw [same] at unused
  rw [sec_seq]
  apply releaseSpan_sec progress.books.settled used unused (fun _ => progress.books.settled.quiet progress.tidy.1 S)
  intro pages settled persists returned
  exact .takes split enough chain (progress.released base ready used settled persists returned)

/-- The code of the call from where it takes the mutex. -/
theorem releaseListToSpans_takes (some : head ≠ 0) (small : size ≤ maxBytes) : releaseListToSpans b head size =
    (.acquire (.bucket (SizeClass.index b.midAlignShift size)) >>= fun _ =>
    flush b (SizeClass.index b.midAlignShift size) b.rounds head) := by
  simp only [releaseListToSpans,Prog.require,Prog.bind_def,Prog.bind,if_pos small,ne_eq,some,not_false_eq_true,if_true]

/-- The call begins. -/
theorem Flushes.first (base : Books b g l w live) (tidy : Tidy l) (small : size ≤ maxBytes) (some : head ≠ 0)
    (chain : Chain w.mem head list)
    (carries : Carries g t (SizeClass.classSize b.midAlignShift (SizeClass.index b.midAlignShift size)) list)
    (enough : list.length < b.rounds) :
    Flushes b t (SizeClass.index b.midAlignShift size) live g w list [] (releaseListToSpans b head size) w := by
  rw [releaseListToSpans_takes some small]
  exact .takes (A := []) rfl enough chain (.start base tidy carries)

/-- Every run of it is at one of these points between its sections. -/
theorem Hands.flushes {p : Code World Unit} {d : Code World Unit × World} (base : Books b g l w live)
    (inside : i < SizeClass.nfreelists b.midAlignShift)
    (start : Flushes b t i live g w list [] p w) (run : Hands b (p,w) log d) : Flushes b t i live g w list log d.1 d.2 := by
  refine run.keeps (P := fun _ _ _ => True) (E := fun _ _ => False) start
    (fun log p w' now other => ?_) (fun log S k w' now => ?_)
  · cases now with
    | takes split enough chain progress => exact flushing_sec base inside split enough chain progress
    | hands split enough chain progress ready => exact absurd rfl (other _ _)
    | ended progress => trivial
  · generalize same : releaseSpan b S >>= k = p at now ⊢
    cases now with
    | takes split enough chain progress =>
      have lock : Mutex.pageCache = .bucket i := (Prog.lock.inj same).1
      cases lock
    | hands split enough chain progress ready =>
      rw [releaseSpan_unique same]
      exact handing_sec base split enough chain progress ready
    | ended progress => cases same

/-- And it comes to its end. -/
theorem Flushes.ends {p : Code World Unit} (base : Books b g l w live) (inside : i < SizeClass.nfreelists b.midAlignShift)
    (start : Flushes b t i live g w list log p w') : wp sections p [] w'
      (fun _ h w'' => h = [] ∧ ∃ log g'' l'', Progress b t i live g w list [] log log g'' l'' w'') (fun _ _ => False) := by
  apply run_of_sections (J := fun p v => ∃ log, Flushes b t i live g w list log p v)
    (P := fun _ w'' => ∃ log g'' l'', Progress b t i live g w list [] log log g'' l'' w'')
  · rintro p v ⟨log,now⟩
    cases now with
    | takes split enough chain progress =>
      exact sec_mono (fun _ _ later => ⟨_,later⟩) (fun _ _ _ ended => ended)
        (flushing_sec base inside split enough chain progress)
    | hands split enough chain progress ready =>
      exact sec_mono (fun _ _ later => ⟨_,later⟩) (fun _ _ _ ended => ended)
        (handing_sec base split enough chain progress ready)
    | ended progress => exact ⟨rfl,_,_,_,progress⟩
  · exact ⟨log,start⟩

end
end
end World
end TcAlloc
