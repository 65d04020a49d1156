import TcAlloc.CacheBounds
import Mathlib.Algebra.BigOperators.Group.Finset.Basic
import Mathlib.Algebra.Order.BigOperators.Group.Finset
import Mathlib.Algebra.Order.BigOperators.Group.List

/-!
Where the objects of a class are, by number. The spans in a bucket count the objects that
are out of them. In every state of the program these are the live blocks of the class,
the objects on the lists of the thread caches, and what the threads have in their hands
(`census`). A span stays in its bucket only while an object is out of it, so what the
buckets retain is bounded by the live blocks and the caps of the lists (`retention`).
-/
namespace TcAlloc
namespace World
namespace Program

/-- The object is one of a span in bucket `i`. -/
def InBucket (M : Program) (i x : Nat) : Prop := ∃ S ∈ M.world.spanLists i, x ∈ (M.world.pages.spans S).extent.objects

instance (M : Program) (i : Nat) : DecidablePred (InBucket M i) := fun _ => inferInstanceAs (Decidable (∃ _ ∈ _, _))

/-- How many objects are out of the spans in bucket `i`, as the spans count them. -/
def outCount (M : Program) (i : Nat) : Nat := ((M.world.spanLists i).map (fun S => (M.world.pages.spans S).useCount)).sum

/-- The live blocks that were asked for with a size of class `i`. -/
def liveOf (b : Build) (M : Program) (i : Nat) : List (Nat × Nat) :=
  M.live.filter (fun block => block.2 ≤ maxBytes ∧ SizeClass.index b.midAlignShift block.2 = i)

/-- What the threads have in their hands, standing at the points. -/
def InHands (M : Program) (points : Nat → Option Point) (hands : Nat → List Nat) : Prop := ∀ t, match points t with
  | none => hands t = []
  | some pt => pt.batch M.world (hands t)

section
variable {b : Build} {short : Prop} {g : Stock} {l : Ledger} {M : Program} {points : Nat → Option Point}
  {hands : Nat → List Nat} {i x : Nat}

theorem StandsAt.holding {t : Nat} (stands : StandsAt b g M t (points t)) (inHands : InHands M points hands) :
    Holding g.place (.transit t) (hands t) := by
  have here := inHands t
  cases point : points t with
  | none =>
    rw [point] at stands here
    rw [show hands t = [] from here]
    exact Holding.nil_iff.mpr stands.2
  | some pt =>
    rw [point] at stands here
    obtain ⟨_,list,size,batch,carries,_⟩ := stands
    rw [batch_unique here batch]
    exact carries.holding

theorem exists_hands (stands : ∀ t, StandsAt b g M t (points t)) : ∃ hands, InHands M points hands := by
  have at_one : ∀ t, ∃ list : List Nat, match points t with
      | none => list = []
      | some pt => pt.batch M.world list := fun t => by
    have here := stands t
    cases point : points t with
    | none => exact ⟨[],rfl⟩
    | some pt =>
      rw [point] at here
      obtain ⟨_,list,_,batch,_⟩ := here
      exact ⟨list,batch⟩
  exact ⟨fun t => (at_one t).choose,fun t => (at_one t).choose_spec⟩

theorem Agrees.inBucket (agrees : Agrees b short g l M) :
    M.InBucket i x ↔ ∃ S, g.home S = some (.listed i) ∧ x ∈ (g.extent S).objects := by
  have same : ∀ S, g.home S = some (.listed i) → (M.world.pages.spans S).extent = g.extent S := fun S home => by
    obtain ⟨s,_,same,extent⟩ := agrees.books.span (S := S) (by rw [home]; simp)
    rw [extent,same]
  constructor
  · rintro ⟨S,listed,mem⟩
    have home := (agrees.books.buckets i S).mp listed
    exact ⟨S,home,same S home ▸ mem⟩
  · rintro ⟨S,home,mem⟩
    exact ⟨S,(agrees.books.buckets i S).mpr home,(same S home).symm ▸ mem⟩

/-- The live blocks of a class are the objects of its spans that are live. -/
theorem Agrees.mem_liveOf (agrees : Agrees b short g l M) (inside : i < SizeClass.nfreelists b.midAlignShift) :
    x ∈ (liveOf b M i).map Prod.fst ↔ g.place x = .live ∧ M.InBucket i x := by
  rw [agrees.inBucket]
  have class_ := SizeClass.classSize_le b.coarse inside
  constructor
  · intro mem
    obtain ⟨⟨p,size⟩,found,rfl⟩ := List.mem_map.mp mem
    obtain ⟨live,small⟩ := List.mem_filter.mp found
    obtain ⟨small,index⟩ : size ≤ maxBytes ∧ SizeClass.index b.midAlignShift size = i := by simpa using small
    obtain ⟨here,S,owns⟩ := agrees.books.stock.blocks p size live
    refine ⟨here,S,?_,owns.mem⟩
    have objSize := owns.size
    rw [SizeClass.roundUp_eq_classSize b.coarse small,index] at objSize
    cases home : g.home S with
    | none => exact absurd home owns.home
    | some h =>
      have suits := agrees.books.stock.suits home owns.mem (by rw [here]; simp)
      rw [here] at suits
      cases h with
      | held u => exact absurd rfl (suits u)
      | large =>
        have big := (agrees.books.stock.large S home).1
        omega
      | listed j =>
        obtain ⟨inside',size',_⟩ := agrees.books.stock.classed S j home
        rw [← SizeClass.index_classSize b.coarse inside',← size',objSize,SizeClass.index_classSize b.coarse inside]
  · rintro ⟨here,S,home,mem⟩
    obtain ⟨size,live⟩ := agrees.books.stock.served x here
    obtain ⟨_,T,owns⟩ := agrees.books.stock.blocks x size live
    obtain rfl := agrees.books.stock.owner_unique owns.home (by rw [home]; simp) owns.mem mem
    have objSize := (agrees.books.stock.classed T i home).2.1.symm.trans owns.size
    have large := agrees.size_le live
    have small : size ≤ maxBytes := by omega
    have index : SizeClass.index b.midAlignShift size = i := by
      rw [← SizeClass.index_roundUp b.coarse small,← objSize,SizeClass.index_classSize b.coarse inside]
    exact List.mem_map.mpr ⟨(x,size),List.mem_filter.mpr ⟨live,by simp [small,index]⟩,rfl⟩

/-- The objects that are out of the spans of a bucket. -/
def outOf (g : Stock) (M : Program) (i : Nat) : List Nat :=
  (M.world.spanLists i).flatMap (fun S => (g.extent S).objects.filter (fun x => g.place x ≠ .free S))

theorem Agrees.outOf_length (agrees : Agrees b short g l M) : (outOf g M i).length = outCount M i := by
  rw [outOf,outCount,List.length_flatMap]
  refine congrArg List.sum (List.map_congr_left (fun S listed => ?_))
  have home := (agrees.books.buckets i S).mp listed
  obtain ⟨free,counted⟩ := agrees.books.shelved (.free S) i home
  rw [counted.out_length agrees.books.stock (by rw [home]; simp)]
  refine congrArg List.length (List.filter_congr (fun x _ => ?_))
  rw [decide_eq_decide,not_iff_not]
  exact (counted.shelf.holding.mem x).symm

theorem Agrees.outOf_nodup (agrees : Agrees b short g l M) : (outOf g M i).Nodup := by
  have home : ∀ S ∈ M.world.spanLists i, g.home S ≠ none := fun S listed => by
    rw [(agrees.books.buckets i S).mp listed]; simp
  refine List.nodup_flatMap.mpr ⟨fun S listed => ?_,?_⟩
  · exact (Extent.objects_nodup (agrees.books.stock.sound S (home S listed))).filter _
  · refine (agrees.books.once i).pairwise_of_forall_ne (fun S hS T hT ne => ?_)
    intro x inS inT
    exact ne (agrees.books.stock.owner_unique (home S hS) (home T hT) (List.mem_filter.mp inS).1 (List.mem_filter.mp inT).1)

theorem Agrees.mem_outOf (agrees : Agrees b short g l M) : x ∈ outOf g M i ↔ M.InBucket i x ∧ ∀ S, g.place x ≠ .free S := by
  rw [agrees.inBucket]
  constructor
  · intro mem
    obtain ⟨S,listed,found⟩ := List.mem_flatMap.mp mem
    obtain ⟨inS,out⟩ := List.mem_filter.mp found
    have home := (agrees.books.buckets i S).mp listed
    refine ⟨⟨S,home,inS⟩,fun T free => ?_⟩
    have suits := agrees.books.stock.suits home inS (by rw [free]; simp)
    rw [free] at suits
    obtain ⟨rfl,_⟩ := suits
    simp [free] at out
  · rintro ⟨⟨S,home,inS⟩,out⟩
    exact List.mem_flatMap.mpr ⟨S,(agrees.books.buckets i S).mpr home,List.mem_filter.mpr ⟨inS,by simp [out S]⟩⟩

/-- Nothing is on a list of no thread's cache. -/
theorem Agrees.cached_own (agrees : Agrees b short g l M) {tc : Nat} (here : g.place x = .cached tc i) :
    ∃ t, M.world.tlsThreadCache t = tc ∧ tc ≠ 0 := by
  refine (agrees.books.caches.manned tc).resolve_left (fun empty => ?_)
  obtain ⟨objs,listed⟩ := agrees.books.shelved (.cached tc i)
  have mem := (listed.shelf.holding.mem x).mpr here
  have none : objs = [] := List.length_eq_zero_iff.mp (by rw [← listed.size,empty])
  rw [none] at mem
  exact List.not_mem_nil mem

/-- An object that is out of the spans of a bucket is live, on a list, or in the hands of a thread. -/
theorem Agrees.out_cases (agrees : Agrees b short g l M) : x ∈ outOf g M i ↔ g.place x = .live ∧ M.InBucket i x ∨
    ∃ t, g.place x = .cached (M.world.tlsThreadCache t) i ∨ g.place x = .transit t ∧ M.InBucket i x := by
  rw [agrees.mem_outOf]
  constructor
  · rintro ⟨bucket,out⟩
    obtain ⟨S,home,inS⟩ := agrees.inBucket.mp bucket
    have somewhere := agrees.books.stock.whole S i home x inS
    have suits := agrees.books.stock.suits home inS somewhere
    cases here : g.place x with
    | nowhere => exact absurd here somewhere
    | free U => exact absurd here (out U)
    | live => exact .inl ⟨rfl,bucket⟩
    | cached tc j =>
      rw [here] at suits
      obtain rfl : i = j := Home.listed.inj suits
      obtain ⟨t,rfl,_⟩ := agrees.cached_own here
      exact .inr ⟨t,.inl rfl⟩
    | transit t => exact .inr ⟨t,.inr ⟨rfl,bucket⟩⟩
  · rintro (⟨here,bucket⟩ | ⟨t,here | ⟨here,bucket⟩⟩)
    · exact ⟨bucket,fun U free => by rw [here] at free; cases free⟩
    · obtain ⟨S,h,home,inS,suits⟩ := agrees.books.stock.placed x (by rw [here]; simp)
      rw [here] at suits
      obtain rfl : h = .listed i := suits
      exact ⟨agrees.inBucket.mpr ⟨S,home,inS⟩,fun U free => by rw [here] at free; cases free⟩
    · exact ⟨bucket,fun U free => by rw [here] at free; cases free⟩

theorem Agrees.accounts (agrees : Agrees b short g l M) (stands : ∀ t, StandsAt b g M t (points t))
    (inHands : InHands M points hands) (inside : i < SizeClass.nfreelists b.midAlignShift) (T : Finset Nat)
    (all : ∀ t, M.world.tlsThreadCache t ≠ 0 ∨ hands t ≠ [] → t ∈ T) :
    outCount M i = (liveOf b M i).length +
      ∑ t ∈ T, ((M.ownList t i).size + ((hands t).filter (M.InBucket i ·)).length) := by
  choose objs listed using fun t => agrees.books.shelved (.cached (M.world.tlsThreadCache t) i)
  have holding : ∀ t, Holding g.place (.transit t) (hands t) := fun t => (stands t).holding inHands
  let ofThread (t : Nat) : List Nat := objs t ++ (hands t).filter (M.InBucket i ·)
  have mem : ∀ t x, x ∈ ofThread t ↔
      g.place x = .cached (M.world.tlsThreadCache t) i ∨ g.place x = .transit t ∧ M.InBucket i x := fun t x => by
    simp only [ofThread,List.mem_append,List.mem_filter,(listed t).shelf.holding.mem,(holding t).mem,decide_eq_true_eq]
  -- The threads have nothing in common.
  have own : ∀ t u x, x ∈ ofThread t → x ∈ ofThread u → t = u := fun t u x first second => by
    rcases (mem t x).mp first with here | ⟨here,_⟩ <;> rcases (mem u x).mp second with there | ⟨there,_⟩ <;>
      rw [here] at there
    · obtain ⟨_,_,made⟩ := agrees.cached_own here
      exact agrees.books.cache_unique made (Place.cached.inj there).1
    · cases there
    · cases there
    · exact Place.transit.inj there
  have nodup : ((liveOf b M i).map Prod.fst ++ T.toList.flatMap ofThread).Nodup := by
    refine List.nodup_append.mpr ⟨?_,List.nodup_flatMap.mpr ⟨fun t _ => ?_,?_⟩,?_⟩
    · exact agrees.books.stock.keys.sublist (List.filter_sublist.map Prod.fst)
    · refine List.nodup_append.mpr ⟨(listed t).shelf.holding.nodup,(holding t).nodup.filter _,?_⟩
      rintro x onList _ inHand rfl
      have here := (listed t).shelf.holding.at_place onList
      rw [(holding t).at_place (List.mem_filter.mp inHand).1] at here
      cases here
    · exact T.nodup_toList.pairwise_of_forall_ne (fun t _ u _ ne x first second => ne (own t u x first second))
    · rintro x live _ thread rfl
      obtain ⟨t,_,there⟩ := List.mem_flatMap.mp thread
      have here := ((agrees.mem_liveOf inside).mp live).1
      rcases (mem t x).mp there with there | ⟨there,_⟩ <;> rw [here] at there <;> cases there
  have perm : (outOf g M i).Perm ((liveOf b M i).map Prod.fst ++ T.toList.flatMap ofThread) := by
    refine (List.perm_ext_iff_of_nodup agrees.outOf_nodup nodup).mpr (fun x => ?_)
    rw [agrees.out_cases,List.mem_append,agrees.mem_liveOf inside,List.mem_flatMap]
    refine or_congr_right (exists_congr (fun t => ?_))
    rw [mem,Finset.mem_toList,iff_and_self]
    rintro (here | ⟨here,_⟩)
    · obtain ⟨_,_,made⟩ := agrees.cached_own here
      exact all t (.inl made)
    · exact all t (.inr (List.ne_nil_of_mem ((holding t).mem x |>.mpr here)))
  have lengths := perm.length_eq
  rw [agrees.outOf_length,List.length_append,List.length_map,List.length_flatMap,Finset.sum_map_toList] at lengths
  rw [lengths]
  refine congrArg _ (Finset.sum_congr rfl (fun t _ => ?_))
  rw [List.length_append,ownList,(listed t).size]

/-- Each span in a bucket has an object out. -/
theorem Agrees.spans_le (agrees : Agrees b short g l M) (i : Nat) : (M.world.spanLists i).length ≤ outCount M i := by
  have some_ : ∀ n ∈ (M.world.spanLists i).map (fun S => (M.world.pages.spans S).useCount), 1 ≤ n := fun n mem => by
    obtain ⟨S,listed,rfl⟩ := List.mem_map.mp mem
    obtain ⟨free,counted⟩ := agrees.books.shelved (.free S) i ((agrees.books.buckets i S).mp listed)
    exact counted.out
  simpa [outCount] using List.card_nsmul_le_sum _ 1 some_

/-- Finitely many threads have been in a call or have a thread cache. -/
theorem Reaches.threads {u : Usage} {mem : Memory} (reached : Reaches b u (start mem) M) (fair : u.Fair b short) :
    ∃ T : Finset Nat, ∀ t, M.world.tlsThreadCache t ≠ 0 ∨ M.stage t ≠ .outside → t ∈ T := by
  induction reached with
  | refl => exact ⟨∅,fun t one => by simp [start,World.start] at one⟩
  | @tail M M' before step ih =>
    obtain ⟨T,all⟩ := ih
    obtain ⟨g,l,agrees⟩ := Reaches.agrees before fair
    have grows : ∀ t (stage : Stage) (w' : World), (∀ v, v ≠ t → w'.tlsThreadCache v = M.world.tlsThreadCache v) →
        ∀ v, w'.tlsThreadCache v ≠ 0 ∨ Function.update M.stage t stage v ≠ .outside → v ∈ insert t T := by
      intro t stage w' tls v one
      by_cases same : v = t
      · rw [same]
        exact Finset.mem_insert_self t T
      · rw [tls v same,Function.update_of_ne same] at one
        exact Finset.mem_insert_of_mem (all v one)
    cases step with
    | write inside => exact ⟨T,all⟩
    | act act =>
      cases act with
      | @alloc t size outside sized may => exact ⟨insert t T,grows t _ M.world (fun _ _ => rfl)⟩
      | @free t p size outside live may => exact ⟨insert t T,grows t _ M.world (fun _ _ => rfl)⟩
      | @turn t call p p' w' running may run =>
        obtain ⟨g',l',_,_,_,_,_,goes,_⟩ := agrees.turn fair running may run
        exact ⟨insert t T,grows t _ w' goes.kept.tls⟩
      | @allocated t size p ended => exact ⟨insert t T,grows t _ M.world (fun _ _ => rfl)⟩
      | @freed t p ended => exact ⟨insert t T,grows t _ M.world (fun _ _ => rfl)⟩

theorem hands_nil (stands : ∀ t, StandsAt b g M t (points t)) (inHands : InHands M points hands) {t : Nat}
    (outside : M.stage t = .outside) : hands t = [] := by
  have here := stands t
  have mine := inHands t
  cases point : points t with
  | none =>
    rw [point] at mine
    exact mine
  | some pt =>
    rw [point] at here
    have running := here.1
    rw [outside] at running
    cases running

end

/-- In every state, whatever the threads are doing: for each class, the use counts of the
    spans in its bucket add up to its live blocks, the objects on the lists of the thread
    caches, and the objects of the bucket that the threads are moving. -/
theorem census (b : Build) {mem : Memory} {M : Program}
    (reached : Reaches b (.upTo spanBytes) (start mem) M ∨ Reaches b (.quiet b) (start mem) M) :
    ∃ points hands, AtPoints b M points ∧ InHands M points hands ∧
      (∃ T : Finset Nat, ∀ t, M.world.tlsThreadCache t ≠ 0 ∨ hands t ≠ [] → t ∈ T) ∧
      ∀ i < SizeClass.nfreelists b.midAlignShift, ∀ T : Finset Nat,
        (∀ t, M.world.tlsThreadCache t ≠ 0 ∨ hands t ≠ [] → t ∈ T) →
        outCount M i = (liveOf b M i).length +
          ∑ t ∈ T, ((M.ownList t i).size + ((hands t).filter (M.InBucket i ·)).length) := by
  obtain ⟨u,short,fair,reached⟩ := reached_fair reached
  obtain ⟨g,l,agrees⟩ := reached.agrees fair
  obtain ⟨T,all⟩ := reached.threads fair
  obtain ⟨points,stands⟩ := agrees.at_points
  obtain ⟨hands,inHands⟩ := exists_hands stands
  refine ⟨points,hands,atPoints stands,inHands,⟨T,fun t one => all t (one.imp_right (fun some_ outside => ?_))⟩,
    fun i inside T all => agrees.accounts stands inHands inside T all⟩
  exact some_ (hands_nil stands inHands outside)

theorem census_served : outCount served 207 = 2 ∧ ∃ points hands, AtPoints .standard served points ∧
    InHands served points hands ∧ ∀ T : Finset Nat, (∀ t, served.world.tlsThreadCache t ≠ 0 ∨ hands t ≠ [] → t ∈ T) →
      outCount served 207 = (liveOf .standard served 207).length +
        ∑ t ∈ T, ((served.ownList t 207).size + ((hands t).filter (served.InBucket 207 ·)).length) := by
  obtain ⟨points,hands,atPoints,inHands,_,total⟩ := census .standard (.inl (served_reached (by decide)))
  exact ⟨by decide +kernel,points,hands,atPoints,inHands,total 207 (by decide)⟩

/-- What the allocator retains where all threads are outside. The spans in the bucket of a
    class are no more than its live blocks and what the thread caches may hold of it; and
    where nothing of the class is live or cached, all its spans have gone back to the page
    cache. -/
theorem retention (b : Build) {mem : Memory} {M : Program}
    (reached : Reaches b (.upTo spanBytes) (start mem) M ∨ Reaches b (.quiet b) (start mem) M)
    (still : ∀ t, M.stage t = .outside) (T : Finset Nat) (all : ∀ t, M.world.tlsThreadCache t ≠ 0 → t ∈ T) {i : Nat}
    (inside : i < SizeClass.nfreelists b.midAlignShift) :
    outCount M i = (liveOf b M i).length + ∑ t ∈ T, (M.ownList t i).size ∧
      (M.world.spanLists i).length ≤
        (liveOf b M i).length + T.card * SizeClass.numMoveSize (SizeClass.classSize b.midAlignShift i) ∧
      (liveOf b M i = [] → (∀ t ∈ T, (M.ownList t i).size = 0) → M.world.spanLists i = []) := by
  obtain ⟨u,short,fair,reached⟩ := reached_fair reached
  obtain ⟨g,l,agrees⟩ := reached.agrees fair
  obtain ⟨points,stands⟩ := agrees.at_points
  obtain ⟨hands,inHands⟩ := exists_hands stands
  have empty : ∀ t, hands t = [] := fun t => hands_nil stands inHands (still t)
  have total := agrees.accounts stands inHands inside T (fun t one => all t (one.resolve_right (fun some_ => some_ (empty t))))
  simp only [empty,List.filter_nil,List.length_nil,Nat.add_zero] at total
  have few : ∑ t ∈ T, (M.ownList t i).size ≤ T.card * SizeClass.numMoveSize (SizeClass.classSize b.midAlignShift i) := by
    refine Finset.sum_le_card_nsmul T (fun t => (M.ownList t i).size) _ (fun t _ => ?_)
    have calming := reached.calming fair t
    rw [still t] at calming
    have rests : Rests b i (M.ownList t i) := calming i
    have size := rests.size
    have cap := rests.cap
    rw [refillCap] at cap
    omega
  have listed := agrees.spans_le i
  refine ⟨total,by omega,fun none uncached => ?_⟩
  rw [total,none,Finset.sum_eq_zero uncached] at listed
  exact List.length_eq_zero_iff.mp (Nat.le_zero.mp listed)

/-! ### A state with all threads outside -/

def Cue.thread : Cue → Nat
  | .call t _ => t
  | .turn t _ => t
  | .finish t => t

/-- A cue is for one thread. -/
theorem Cue.play_stage {b : Build} {M M' : Program} {cue : Cue} {t : Nat} (played : cue.play b M = some M')
    (other : cue.thread ≠ t) : M'.stage t = M.stage t := by
  have ne : t ≠ cue.thread := fun same => other same.symm
  cases cue with
  | call u call =>
    simp only [Cue.play] at played
    split at played
    · split_ifs at played
      cases played
      exact Function.update_of_ne ne ..
    · split at played
      · cases played; exact Function.update_of_ne ne ..
      · cases played
    · cases played
  | turn u given =>
    simp only [Cue.play] at played
    split at played
    · obtain ⟨d,_,rfl⟩ := Option.map_eq_some_iff.mp played
      exact Function.update_of_ne ne ..
    · cases played
  | finish u =>
    simp only [Cue.play] at played
    split at played
    · cases played; exact Function.update_of_ne ne ..
    · cases played; exact Function.update_of_ne ne ..
    · cases played

theorem plays_stage {b : Build} {M M' : Program} {cues : List Cue} {t : Nat} (played : plays b cues M = some M')
    (others : ∀ cue ∈ cues, cue.thread ≠ t) : M'.stage t = M.stage t := by
  induction cues generalizing M with
  | nil => cases played; rfl
  | cons cue later ih =>
    obtain ⟨N,first,rest⟩ := Option.bind_eq_some_iff.mp played
    rw [ih rest (fun cue mem => others cue (List.mem_cons_of_mem _ mem)),
      cue.play_stage first (others cue List.mem_cons_self)]

theorem served_still (t : Nat) : served.stage t = .outside := by
  by_cases first : t = 1
  · subst first
    exact Stage.of_idle (by decide +kernel)
  · by_cases second : t = 2
    · subst second
      exact Stage.of_idle (by decide +kernel)
    · have played : plays .standard (firstCall ++ secondCall) (start fun _ => 0) = some served :=
        plays_getD (by decide +kernel) _
      have ofBoth : ∀ cue ∈ firstCall ++ secondCall, cue.thread = 1 ∨ cue.thread = 2 := by decide
      rw [plays_stage played (fun cue mem same => (ofBoth cue mem).elim (fun one => first (same.symm.trans one))
        (fun two => second (same.symm.trans two)))]
      rfl

theorem retention_served : ∃ T : Finset Nat, 1 ∈ T ∧ 2 ∈ T ∧ outCount served 207 = 2 ∧
    outCount served 207 = (liveOf .standard served 207).length + ∑ t ∈ T, (served.ownList t 207).size := by
  have reached := served_reached (show 262144 ≤ spanBytes by decide)
  obtain ⟨T,all⟩ := reached.threads (fair_upTo .standard (le_refl _))
  have made : served.world.tlsThreadCache 1 ≠ 0 ∧ served.world.tlsThreadCache 2 ≠ 0 := by decide +kernel
  have total := retention .standard (.inl reached) served_still T (fun t made => all t (.inl made)) (i := 207) (by decide)
  exact ⟨T,all 1 (.inl made.1),all 2 (.inl made.2),by decide +kernel,total.1⟩

end Program
end World
end TcAlloc
