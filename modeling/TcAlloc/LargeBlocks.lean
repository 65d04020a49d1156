import TcAlloc.CrossFree
import TcAlloc.MapRuns

/-!
`ConcurrentAlloc` of more than `MAX_BYTES`, on a system that may be out of memory.
A request whose rounded size fits 64 bits gets a span that covers it, or throws;
for the last 8191 sizes `RoundUp` wraps to zero, and `NewSpan` is asked for no page.
-/
namespace TcAlloc

/-- The byte count of the request does not wrap. -/
def Request.Fits (q : Request) : Prop := q.kpage * 2 ^ pageShift < 2 ^ 64

instance (q : Request) : Decidable q.Fits := inferInstanceAs (Decidable (_ < _))

/-! ### Where memory runs out -/

namespace ObjectPool

/-- `New` gives up where there is no chunk, and gives its mutex back. -/
theorem new_brittle {mutex : Mutex} {site : Site} {size : Nat} {h : List Mutex} {D : Request → Prop} {E : List Mutex → Prop}
    (chunk : D ⟨site,chunkBytes >>> 13⟩) (may : E h) : (new mutex site size).Brittle D (· = none) E
    h (fun _ h' => h' = h) := by
  unfold new
  apply Prog.Brittle.locked
  have held : mutex ∈ mutex :: h ∧ E ((mutex :: h).erase mutex) := by
    rw [List.erase_cons_head]
    exact ⟨List.mem_cons_self,may⟩
  have back : (mutex :: h).erase mutex = h := List.erase_cons_head ..
  unfold handOut
  refine .andThen (Prog.brittle_read (fun _ => rfl)) (fun pool => ?_)
  split
  · exact .andThen (Prog.brittle_modify rfl) (fun _ => back)
  · refine .andThen ?_ (fun _ => .andThen (Prog.brittle_read (fun _ => rfl))
      (fun _ => .andThen (Prog.brittle_modify rfl) (fun _ => back)))
    unfold moreMemory
    split_ifs
    · exact .andThen (Prog.brittle_modify rfl) (fun _ => .andThen ((systemAlloc_brittle chunk held).zoom .second)
        (fun _ => Prog.brittle_modify rfl))
    · rfl

end ObjectPool

namespace Pages

section
variable {h : List Mutex} {E : List Mutex → Prop} {k : Nat}

theorem newDescriptor_brittle (may : E h) : newDescriptor.Brittle Request.Fits (· = none) E h (fun _ h' => h' = h) :=
  .andThen ((ObjectPool.new_brittle (by decide) may).zoom poolPart)
  (fun _ => .andThen (Prog.brittle_modify rfl) (fun _ => rfl))

theorem setPage_brittle (may : E h) (pageId span : Nat) : (setPage pageId span).Brittle Request.Fits
    (· = none) E h (fun _ h' => h' = h) :=
  (PageMap.set_brittle (by decide) (by decide) may rfl).zoom mapPart

theorem setPages_brittle (may : E h) (pageId span count : Nat) :
    (setPages pageId span count).Brittle Request.Fits (· = none) E h (fun _ h' => h' = h) := by
  induction count with
  | zero => rfl
  | succ count ih => exact .andThen ih (fun _ => setPage_brittle may _ _)

theorem newDirect_brittle (may : E h) (fits : k * 2 ^ pageShift < 2 ^ 64) :
    (newDirect k).Brittle Request.Fits (· = none) E h (fun _ h' => h' = h) :=
  .andThen ((systemAlloc_brittle fits may).zoom osPart) (fun _ => .andThen (newDescriptor_brittle may) (fun _ =>
    .andThen (Prog.brittle_modify rfl) (fun _ => .andThen (setPage_brittle may _ _) (fun _ => rfl))))

theorem erase_brittle (span : Nat) : (erase span).Brittle Request.Fits (· = none) E h (fun _ h' => h' = h) := by
  unfold erase
  intro w
  dsimp only
  split
  · rfl
  · trivial

attribute [local irreducible] erase

theorem takeExact_brittle (may : E h) (span : Nat) : (takeExact span).Brittle Request.Fits
    (· = none) E h (fun _ h' => h' = h) :=
  .andThen (erase_brittle span) (fun _ => .andThen (Prog.brittle_read (fun _ => rfl)) (fun _ =>
    .andThen (setPages_brittle may _ _ _) (fun _ => rfl)))

theorem split_brittle (may : E h) (largerSpan : Nat) : (split k largerSpan).Brittle Request.Fits (· = none) E
    h (fun _ h' => h' = h) := by
  unfold split
  refine .andThen (erase_brittle largerSpan) (fun _ => .andThen (Prog.brittle_read (fun _ => rfl)) (fun larger => ?_))
  refine .andThen (Prog.brittle_require rfl) (fun _ => .andThen (newDescriptor_brittle may) (fun newSpan => ?_))
  refine .andThen (Prog.brittle_modify rfl) (fun _ => .andThen (Prog.brittle_modify rfl) (fun _ => ?_))
  refine .andThen (Prog.brittle_read (fun _ => rfl)) (fun rest => ?_)
  have maps : (do
      setPage rest.pageId largerSpan
      setPage (minus (rest.pageId + rest.n) 1) largerSpan
      setPages larger.pageId newSpan k
      return newSpan : Code Pages Nat).Brittle Request.Fits (· = none) E h (fun _ h' => h' = h) :=
    .andThen (setPage_brittle may _ _)
    (fun _ => .andThen (setPage_brittle may _ _) (fun _ => .andThen (setPages_brittle may _ _ _) (fun _ => rfl)))
  dsimp only
  split_ifs
  · exact .andThen (Prog.brittle_modify rfl) (fun _ => maps)
  · exact maps

theorem searchLarger_brittle (may : E h) (lengths : List Nat) :
    (searchLarger k lengths).Brittle Request.Fits (· = none) E h (fun _ h' => h' = h) := by
  induction lengths with
  | nil => rfl
  | cons i longer ih =>
    refine .andThen (Prog.brittle_read (fun _ => rfl)) (fun list => ?_)
    cases list with
    | nil => exact ih
    | cons largerSpan _ => exact .andThen (split_brittle may largerSpan) (fun _ => rfl)

theorem refill_brittle (may : E h) : refill.Brittle Request.Fits (· = none) E h (fun _ h' => h' = h) :=
  .andThen ((systemAlloc_brittle (by decide) may).zoom osPart) (fun _ => .andThen (newDescriptor_brittle may) (fun _ =>
    .andThen (Prog.brittle_modify rfl) (fun _ => Prog.brittle_modify rfl)))

/-- `NewSpan` asks for as many bytes as fit, and gives up where there is no memory. -/
theorem newSpan_brittle (may : E h) (fits : k * 2 ^ pageShift < 2 ^ 64) (rounds : Nat) :
    (newSpan rounds k).Brittle Request.Fits (· = none) E h (fun _ h' => h' = h) := by
  induction rounds with
  | zero => trivial
  | succ rounds ih =>
    refine .andThen (Prog.brittle_require rfl) (fun _ => ?_)
    split_ifs
    · exact newDirect_brittle may fits
    · refine .andThen (Prog.brittle_read (fun _ => rfl)) (fun list => ?_)
      cases list with
      | cons span _ => exact takeExact_brittle may span
      | nil =>
        refine .andThen (searchLarger_brittle may _) (fun found => ?_)
        cases found with
        | some newSpan => rfl
        | none => exact .andThen (refill_brittle may) (fun _ => ih)

end
end Pages

namespace World

theorem takeSpan_brittle {b : Build} {npage size : Nat} (fits : npage * 2 ^ pageShift < 2 ^ 64) :
    (takeSpan b npage size).Brittle Request.Fits (· = none) (fun _ => True) [] (fun _ h => h = []) := by
  unfold takeSpan
  apply Prog.Brittle.holding
  exact .andThen ((Pages.newSpan_brittle trivial fits _).zoom pagesPart) (fun span =>
    .andThen ((Prog.brittle_modify rfl).zoom pagesPart)
    (fun _ => .andThen ((Prog.brittle_modify rfl).zoom pagesPart) (fun _ => rfl)))

namespace Program

/-- The page count that `ConcurrentAlloc` asks `NewSpan` for. -/
def pagesFor (b : Build) (size : Nat) : Nat := SizeClass.roundUp b.midAlignShift size >>> pageShift

section
variable {b : Build} {g : Stock} {l : Ledger} {w : World} {live : List (Nat × Nat)} {t p size S : Nat} {pt : Point}

theorem large_brittle (large : maxBytes < size) (fits : pagesFor b size * 2 ^ pageShift < 2 ^ 64) :
    ((Call.alloc size).code b t).Brittle Request.Fits (· = none) (fun _ => True) [] (fun _ h => h = []) := by
  have code : (Call.alloc size).code b t = allocLarge b size >>= Point.block := by
    simp only [Call.code,concurrentAlloc,if_pos large]
    rfl
  rw [code]
  refine .andThen (.andThen (takeSpan_brittle fits) (fun span => ?_)) (fun _ => rfl)
  unfold getSpan
  exact .andThen (.zoom pagesPart (Prog.brittle_read (fun _ => rfl))) (fun _ => rfl)

/-! ### The span of a large block -/

/-- The block lies at the start of a span that covers it, whose pages are in no free span. -/
def Covered (b : Build) (w : World) (p size : Nat) : Prop := ∃ S, w.pages.InUse S ∧
    p = (w.pages.spans S).pageId <<< pageShift ∧
  (w.pages.spans S).n = pagesFor b size ∧ size ≤ (w.pages.spans S).n * 2 ^ pageShift ∧
  ∀ q ∈ (w.pages.spans S).pages, ¬ w.pages.FreePage q

/-- The page count, where `RoundUp` does not wrap. -/
theorem pagesFor_eq (large : maxBytes < size) (fits : size + 8191 < 2 ^ 64) :
    SizeClass.roundUp b.midAlignShift size = pagesFor b size * 2 ^ pageShift ∧ pagesFor b size = (size + 8191) / 8192 := by
  have shift : (2 : Nat) ^ pageShift = 8192 := rfl
  rw [pagesFor,SizeClass.roundUp_page large fits,Nat.shiftRight_eq_div_pow,shift,Nat.mul_div_cancel _ (by decide)]
  exact ⟨rfl,rfl⟩

/-- No page of a span in use is in a free span. -/
theorem used_page_not_free (books : Books b g l w live) {s : Span} (used : l.used S = some s) {q : Nat}
    (page : q ∈ (w.pages.spans S).pages) :
    ¬ w.pages.FreePage q := by
  rintro ⟨T,free,inT⟩
  have closed := books.settled.used S s used
  have ne : T ≠ S := by
    rintro rfl
    have idle := free.2
    rw [closed.2.same,closed.2.isUse] at idle
    cases idle
  exact books.settled.apart T S ⟨free.1,Set.notMem_empty T⟩ closed.1 ne q inT page

theorem allocated_covered (books : Books b g l w live) (holds : Holds b g w t (.allocated size p)) (large : maxBytes < size)
    (fits : size + 8191 < 2 ^ 64) : Covered b w p size := by
  obtain ⟨list,bytes,rfl,carries,rfl,_⟩ := holds
  obtain ⟨S,owns⟩ := carries.sized p (List.mem_singleton_self p)
  have bound : 262144 < size := large
  have shift : (2 : Nat) ^ pageShift = 8192 := rfl
  obtain ⟨rounded,npage⟩ := pagesFor_eq (b := b) large fits
  have home := books.large_home (carries.holding.at_place (List.mem_singleton_self p)) owns (by
    rw [rounded,npage,shift]
    show 262144 < _
    omega)
  obtain ⟨s,used,same,extent⟩ := books.span owns.home
  have whole := (books.stock.large S home).2
  have only := owns.mem
  rw [Extent.objects_single (books.stock.sound S owns.home) whole,List.mem_singleton,extent] at only
  have n : s.n = pagesFor b size := by
    have bytes := owns.size
    rw [whole,extent,rounded] at bytes
    have bytes : s.n * 2 ^ pageShift = pagesFor b size * 2 ^ pageShift := bytes
    exact Nat.eq_of_mul_eq_mul_right (by decide) bytes
  refine ⟨S,(books.settled.inUse_iff S).mpr ⟨s,used⟩,?_,by rw [same]; exact n,?_,fun q page =>
    used_page_not_free books used page⟩
  · rw [same,Nat.shiftLeft_eq]
    exact only
  · rw [same,n,npage,shift]
    omega

/-- The points of a call for a large block. -/
theorem large_points (holds : Holds b g w t pt) (call : pt.call = .alloc size) (large : maxBytes < size) :
    pt = .begins (.alloc size) ∨ (∃ S, pt = .reads size S) ∨ ∃ p, pt = .allocated size p := by
  obtain ⟨_,_,_,_,facts⟩ := holds
  have no : ∀ {asked}, Call.alloc asked = .alloc size → asked ≤ maxBytes → False := by
    intro asked same low
    cases same
    omega
  cases pt with
  | begins call' =>
    obtain rfl : call' = .alloc size := call
    exact .inl rfl
  | reads asked S =>
    cases call
    exact .inr (.inl ⟨S,rfl⟩)
  | allocated asked p =>
    cases call
    exact .inr (.inr ⟨p,rfl⟩)
  | makesCache asked => exact (no call facts.1).elim
  | constructs asked tc => exact (no call facts.1).elim
  | storesCache asked tc => exact (no call facts.1).elim
  | pops asked tc => exact (no call facts.1).elim
  | counts asked tc => exact (no call facts.1).elim
  | fetches asked tc batchNum => exact (no call facts.1).elim
  | takes asked tc batchNum => exact (no call facts.1).elim
  | carves asked tc batchNum span => exact (no call facts.1).elim
  | links asked tc batchNum span => exact (no call facts.1).elim
  | keeps asked tc start end_ actualNum => exact (no call facts.1).elim
  | _ => cases call

/-! ### The call -/

/-- The call has come to a point of it. -/
structure Asking (b : Build) (t size : Nat) (live : List (Nat × Nat)) (g : Stock) (l : Ledger)
    (w : World) (pt : Point) : Prop where
  call : pt.call = .alloc size
  books : Books b g l w live
  holds : Holds b g w t pt

/-- From a point of the call a section leads to another one, or the block is there. -/
theorem Asking.section {C : Code World Outcome → World → Prop} {post : Outcome → World → Prop}
    (asking : Asking b t size live g l w pt)
    (large : maxBytes < size) (fits : size + 8191 < 2 ^ 64)
    (cuts : ∀ g' l' w' pt', Asking b t size live g' l' w' pt' → C (pt'.code b t) w')
    (ends : ∀ p, Covered b w p size → post (.block p) w) :
    sec sections C (pt.code b t) [] w (fun o h w' => h = [] ∧ post o w') (fun _ _ => False) := by
  have next : ∀ code' w', Leads b t live g l w pt code' w' → C code' w' := by
    rintro code' w' ⟨g',l',pt',rfl,goes⟩
    exact cuts g' l' w' pt' ⟨goes.call.trans asking.call,goes.books,goes.holds⟩
  obtain ⟨call,books,holds⟩ := asking
  rcases large_points holds call large with rfl | ⟨S,rfl⟩ | ⟨p,rfl⟩
  · exact sec_mono next (fun _ _ _ ended => ended) (begins_large books holds large fits)
  · exact sec_mono next (fun _ _ _ ended => ended) (reads_sec books holds)
  · exact ⟨rfl,ends p (allocated_covered books holds large fits)⟩

/-- The call on a system that never fails, with nothing else going on. -/
theorem Asking.runs (asking : Asking b t size live g l w (.begins (.alloc size))) (large : maxBytes < size)
    (fits : size + 8191 < 2 ^ 64) :
    wp sections ((Call.alloc size).code b t) [] w (fun o h w' => h = [] ∧ ∃ p, o = .block p ∧ Covered b w' p size)
    (fun _ _ => False) := by
  apply run_of_sections (J := fun code w' => ∃ g' l' pt, code = pt.code b t ∧ Asking b t size live g' l' w' pt)
    (P := fun o w' => ∃ p, o = .block p ∧ Covered b w' p size)
  · rintro code w' ⟨g',l',pt,rfl,now⟩
    exact now.section large fits (fun g'' l'' w'' pt' next => ⟨g'',l'',pt',rfl,next⟩) (fun p covered => ⟨p,rfl,covered⟩)
  · exact ⟨g,l,_,rfl,asking⟩

/-- The answers of a system that may be out of memory. -/
def failing : Rules World Mutex Request (Option Nat) Event :=
    { sections with allowed := fun w q a => w.pages.os.mayFail (2 ^ pageShift) q a }

/-- What threads that ask for a large block rely on. -/
structure LargeServed (b : Build) (size : Nat) : Prop where
  pages : 1 ≤ pagesFor b size ∧ size ≤ pagesFor b size * 2 ^ pageShift
  bytes : pagesFor b size * 2 ^ pageShift < 2 ^ 64
  /-- No byte count that the system is asked for wraps. -/
  asks : ∀ t w q k h w', Run failing.allowed ((Call.alloc size).code b t,[],w) (.ask q k,h,w') → q.Fits
  /-- The call throws, or returns a covered block. -/
  call : ∀ mem M t, Reaches b (.quiet b) (start mem) M → M.stage t = .outside →
    wp failing ((Call.alloc size).code b t) [] M.world (fun o h w' => h = [] ∧ ∃ p, o = .block p ∧ Covered b w' p size)
    (fun _ _ => True)
  /-- So does a call amid those of other threads. -/
  amid : ∀ mem M t, Reaches b (.quiet b) (start mem) M → ∀ o, M.stage t = .within (.alloc size) (.ret o) →
    ∃ p, o = .block p ∧ Covered b M.world p size

theorem large_fails (b : Build) (t : Nat) (w : World) (large : maxBytes < size) (fits : size + 8191 < 2 ^ 64)
    (holds : wp sections ((Call.alloc size).code b t) [] w post (fun _ _ => False)) : wp failing
    ((Call.alloc size).code b t) [] w post (fun _ _ => True) := by
  have small : pagesFor b size * 2 ^ pageShift < 2 ^ 64 := by
    have shift : (2 : Nat) ^ pageShift = 8192 := rfl
    rw [(pagesFor_eq large fits).2,shift]
    omega
  refine wp_mono (fun _ _ _ ok => ok) (fun _ _ _ _ ok => ok) (fun _ _ _ ok => ok) (fun _ _ _ => trivial)
    (wp_brittle (R := sections) (J := fun _ => True) (fun w q a ok some => ?_) (fun _ _ _ _ ok => ok)
    (fun _ _ _ _ _ _ => trivial)
      (fun _ _ _ => trivial) (large_brittle large small) trivial holds)
  cases a with
  | none => exact absurd rfl some
  | some base => exact ok

end

/-- Requests for a large block are served, or throw, exactly if the size does not wrap
    when it is rounded up. -/
theorem large_served_iff (b : Build) {size : Nat} (large : maxBytes < size) (small : size < 2 ^ 64) : LargeServed b
    size ↔ size + 8191 < 2 ^ 64 := by
  constructor
  · intro served
    apply Nat.lt_of_not_le
    intro wraps
    have none : pagesFor b size = 0 := by rw [pagesFor,SizeClass.roundUp_wraps wraps small]; rfl
    have some := served.pages.1
    omega
  · intro fits
    obtain ⟨_,npage⟩ := pagesFor_eq (b := b) large fits
    have shift : (2 : Nat) ^ pageShift = 8192 := rfl
    have bound : 262144 < size := large
    have bytes : pagesFor b size * 2 ^ pageShift < 2 ^ 64 := by rw [npage,shift]; omega
    refine ⟨by rw [npage,shift]; omega,bytes,fun t w q k h w' run => ?_,fun mem M t reached outside => ?_,
      fun mem M t reached o returned => ?_⟩
    · exact (large_brittle large bytes).asks run
    · obtain ⟨g,l,agrees⟩ := reached.agrees (fair_quiet b)
      have stands := agrees.stands t
      rw [outside] at stands
      exact large_fails b t M.world large fits
        (Asking.runs ⟨rfl,agrees.books,[],0,rfl,carries_nil stands 0,trivial⟩ large fits)
    · obtain ⟨g,l,agrees⟩ := reached.agrees (fair_quiet b)
      rcases agrees.ended returned with ⟨size',p,same,out,holds⟩ | ⟨p,same,_⟩
      · cases same
        exact ⟨p,out,allocated_covered agrees.books holds large fits⟩
      · cases same

/-- Requests for 300000 bytes. -/
theorem large_served_some : LargeServed .standard 300000 :=
    (large_served_iff .standard (by decide) (by decide)).mpr (by decide)

/-- For the greatest size no page is asked for, and the assertion of `NewSpan` fails. -/
theorem greatest_not_served : maxBytes < 2 ^ 64 - 1 ∧ pagesFor .standard (2 ^ 64 - 1) = 0 ∧
    (∀ t, (Call.alloc (2 ^ 64 - 1)).code .standard t = .lock .pageCache (.fail .assertion)) ∧
    ¬ LargeServed .standard (2 ^ 64 - 1) := by
  have none : pagesFor .standard (2 ^ 64 - 1) = 0 := by rw [pagesFor,SizeClass.roundUp_wraps (by decide) (by decide)]; rfl
  refine ⟨by decide,none,fun t => ?_,fun served => ?_⟩
  · show (Point.begins (.alloc (2 ^ 64 - 1))).code .standard t = .lock .pageCache (.fail .assertion)
    exact begins_huge .standard t (by decide) (by decide)
  · have some := served.pages.1
    omega

end Program
end World
end TcAlloc
