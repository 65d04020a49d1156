import TcAlloc.Boundary

/-!
The negative control of the gate: an allocator that hands out the same slab again and
again. Wherever it has come to, the boundary check runs to its end over it and counts a
failure (`broken_counted`). The last two of its blocks are longer than what the slab
wraps at, so that the second is stamped over the first.
-/
namespace TcAlloc
namespace Verify
open World.Program (blocks Seen)

/-! ### BrokenAlloc -/

namespace Broken

/-- `kWrap` -/
def wrap : Nat := 32 * 1024
/-- `kSlab` -/
def slabBytes : Nat := wrap + 2 * maxBytes

/-- Where a thread is in `BrokenAlloc` or `BrokenFree`. -/
inductive Hand where
  | idle
  | asking
  | got (p : Nat)
  | giving

end Broken

/-- The memory, `cursor`, and the threads. -/
structure Broken where
  mem : Memory
  cursor : Nat := 0
  hand : Nat → Broken.Hand := fun _ => .idle

namespace Broken

def put (s : Broken) (t : Nat) (hand : Hand) : Broken := { s with hand := Function.update s.hand t hand }

/-- A step of `BrokenAlloc` or `BrokenFree`, with the slab at `slab`. Nobody checks what
    is given back, written or read. -/
inductive Step (slab : Nat) (s : Broken) : Option Seen → Broken → Prop
  | asks {t n : Nat} (idle : s.hand t = .idle) : Step slab s (some (.asks t n)) (s.put t .asking)
  /-- `cursor.fetch_add(64)` -/
  | fetches {t : Nat} (asking : s.hand t = .asking) :
      Step slab s none { s.put t (.got (slab + s.cursor % wrap)) with cursor := (s.cursor + 64) % 2 ^ 64 }
  | gets {t p : Nat} (got : s.hand t = .got p) : Step slab s (some (.gets t p)) (s.put t .idle)
  | gives {t p : Nat} (idle : s.hand t = .idle) : Step slab s (some (.gives t p)) (s.put t .giving)
  | done {t : Nat} (gave : s.hand t = .giving) : Step slab s (some (.done t)) (s.put t .idle)
  | writes {cells : Nat → Option UInt8} :
      Step slab s (some (.writes cells)) { s with mem := Heap.overlay cells s.mem }
  | reads {cells : Nat → Option UInt8} (seen : ∀ x v, cells x = some v → s.mem x = v) :
      Step slab s (some (.reads cells)) s

end Broken

def broken (slab : Nat) : System Seen Broken where
  init s := ∃ mem, s = { mem := mem }
  step s := s.Step slab

namespace Broken
variable {slab t : Nat} {s s' : Broken}

/-- A pointer that `BrokenAlloc` returns. -/
def InSlab (slab p : Nat) : Prop := ∃ o, o < wrap ∧ 8 ∣ o ∧ p = slab + o

/-- What the steps keep, whoever makes them. -/
structure Placed (slab : Nat) (s : Broken) : Prop where
  cursor : 8 ∣ s.cursor
  got : ∀ t p, s.hand t = .got p → InSlab slab p

/-- A thread that has got no pointer. -/
theorem Placed.put (placed : Placed slab s) {hand : Hand} (none_ : ∀ p, hand ≠ .got p) : Placed slab (s.put t hand) := by
  refine ⟨placed.cursor,fun t' p got => ?_⟩
  have got : Function.update s.hand t hand t' = .got p := got
  by_cases same : t' = t
  · subst same
    rw [Function.update_self] at got
    exact absurd got (none_ p)
  · rw [Function.update_of_ne same] at got
    exact placed.got t' p got

theorem Placed.step {a : Option Seen} (placed : Placed slab s) (step : s.Step slab a s') : Placed slab s' := by
  cases step with
  | asks idle => exact placed.put (fun p same => by cases same)
  | gets got => exact placed.put (fun p same => by cases same)
  | gives idle => exact placed.put (fun p same => by cases same)
  | done gave => exact placed.put (fun p same => by cases same)
  | writes => exact ⟨placed.cursor,placed.got⟩
  | reads seen => exact placed
  | @fetches t asking =>
    have cursor := placed.cursor
    refine ⟨show 8 ∣ (s.cursor + 64) % 2 ^ 64 by omega,fun t' p got => ?_⟩
    have got : Function.update s.hand t (.got (slab + s.cursor % wrap)) t' = .got p := got
    by_cases same : t' = t
    · subst same
      rw [Function.update_self] at got
      cases got
      exact ⟨s.cursor % wrap,Nat.mod_lt _ (by decide),(Nat.dvd_mod_iff (by decide)).mpr cursor,rfl⟩
    · rw [Function.update_of_ne same] at got
      exact placed.got t' p got

theorem placed_reached (reached : (broken slab).Reaches s) : Placed slab s := by
  refine reached.keeps (P := Placed slab) ?_ (fun s a s' placed step => placed.step step)
  rintro s ⟨mem,rfl⟩
  exact ⟨⟨0,rfl⟩,fun t p got => by cases got⟩

end Broken

/-! ### Two stamps -/

section
variable {mem mem' : Memory} {b b' : Block} {pos chunk d : Nat}

/-- The words of a block that is stamped. -/
theorem Stamped.load (stamped : Stamped mem b b.n) (inside : 8 * d + 8 ≤ b.n) :
    mem.load (b.p + 8 * d) = (mix (b.tag ^^^ .ofNat d)).toNat := by
  refine stamp_word (fun j short => ?_)
  have first := stamp_chunk (b.tag ^^^ .ofNat d) 0 short
  rw [Nat.mul_zero,Nat.zero_add,show UInt64.ofNat 0 = 0 from rfl,UInt64.xor_zero] at first
  rw [first,← stamp_chunk b.tag d short,Nat.add_assoc]
  exact stamped (8 * d + j) (by omega) (by omega)

/-- Where two blocks are stamped and one begins with a chunk of the other, their tags
    differ in the number of the chunk. -/
theorem Stamped.tags (first : Stamped mem b b.n) (second : Stamped mem b' b'.n) (inside : 8 * d + 8 ≤ b.n) (long : 8 ≤ b'.n)
    (meet : b'.p = b.p + 8 * d) : b.tag ^^^ .ofNat d = b'.tag := by
  have other := second.load (d := 0) long
  rw [Nat.mul_zero,Nat.add_zero,meet,first.load inside,show UInt64.ofNat 0 = 0 from rfl,UInt64.xor_zero] at other
  exact mix_injective (UInt64.toNat_inj.mp other)

/-- A chunk in which `memcmp` finds no difference is stamped. -/
theorem Stamped.extend (stamped : Stamped mem b pos) (aligned : pos = 8 * chunk)
    (seen : ∀ x v, chunkCells b pos (fun j => mem' (b.p + pos + j)) x = some v → mem x = v)
    (equal : differs mem' (b.p + pos) (mix (b.tag ^^^ .ofNat chunk)) (if b.n - pos < 8 then b.n - pos else 8) = false) :
    Stamped mem b (pos + 8) := by
  intro j low inside
  by_cases old : j < pos
  · exact stamped j old inside
  obtain ⟨k,rfl⟩ := Nat.exists_eq_add_of_le (Nat.le_of_not_lt old)
  have short : k < 8 := by omega
  have here := seen (b.p + pos + k) (mem' (b.p + pos + k)) (by
    unfold chunkCells
    rw [if_pos ⟨by omega,by split_ifs <;> omega⟩,Nat.add_sub_cancel_left])
  rw [← Nat.add_assoc,here,aligned,stamp_chunk b.tag chunk short,← aligned]
  by_contra differ
  rw [Bool.eq_false_iff,ne_eq,differs_iff] at equal
  exact equal ⟨k,by split_ifs <;> omega,differ⟩

end

/-! ### The boundary check over it -/

/-- `Total` -/
def Failures.total (f : Failures) : Nat := f.nullPtr + f.misaligned + f.corrupted + f.duplicate

theorem Failures.total_note (f : Failures) (m : Message) : (f.note m).total = f.total := by
  unfold Failures.note
  split_ifs <;> rfl

section
variable {slab t i j pos chunk : Nat} {b b' : Block} {c c' : Boundary} {s s' : Broken} {mem : Memory}

/-- A failure more, of whatever kind. -/
theorem Failures.total_add (f : Failures) : ({ f with nullPtr := f.nullPtr + 1 } : Failures).total = f.total + 1 ∧
    ({ f with misaligned := f.misaligned + 1 } : Failures).total = f.total + 1 ∧
    ({ f with corrupted := f.corrupted + 1 } : Failures).total = f.total + 1 ∧
    ({ f with duplicate := f.duplicate + 1 } : Failures).total = f.total + 1 := by
  simp only [Failures.total]
  omega

theorem Boundary.total_test (c : Boundary) (i n p : Nat) : c.f.total ≤ (c.test i n p).f.total ∧
    (p = 0 → 1 ≤ (c.test i n p).f.total) := by
  unfold Boundary.test Boundary.goto
  split_ifs <;> simp only [Failures.total_note,Failures.total_add] <;> omega

/-- What follows from what `memcmp` finds. -/
theorem Boundary.compare_spec (c : Boundary) (i : Nat) (b : Block) (pos chunk : Nat) (mem : Memory) :
    let found := differs mem (b.p + pos) (mix (b.tag ^^^ .ofNat chunk)) (if b.n - pos < 8 then b.n - pos else 8)
    (found = true → (c.compare i b pos chunk mem).f.total = c.f.total + 1 ∧
      (c.compare i b pos chunk mem).place = .checks (i + 1) 0 0) ∧
    (found = false → c.compare i b pos chunk mem = c.goto (.checks i (pos + 8) (chunk + 1))) ∧
    (c.compare i b pos chunk mem).live = c.live := by
  intro found
  cases equal : found with
  | false =>
    refine ⟨(fun same => by cases same),fun _ => ?_,?_⟩ <;>
      simp only [Boundary.compare,show differs _ _ _ _ = false from equal,Bool.false_eq_true,if_false,Boundary.goto]
  | true =>
    refine ⟨fun _ => ?_,(fun same => by cases same),?_⟩ <;>
      simp only [Boundary.compare,show differs _ _ _ _ = true from equal,if_true,Boundary.goto,Failures.total_note,
        Failures.total_add,and_self]

theorem Boundary.total_compare (c : Boundary) (i : Nat) (b : Block) (pos chunk : Nat) (mem : Memory) :
    c.f.total ≤ (c.compare i b pos chunk mem).f.total := by
  obtain ⟨more,same,_⟩ := c.compare_spec i b pos chunk mem
  cases found : differs mem (b.p + pos) (mix (b.tag ^^^ .ofNat chunk)) (if b.n - pos < 8 then b.n - pos else 8) with
  | false =>
    rw [same found]
    exact le_refl _
  | true =>
    rw [(more found).1]
    exact Nat.le_succ _

/-- What the check counts it does not forget. -/
theorem Boundary.Step.total {a : Option (Seen ⊕ Empty)} (step : c.Step t a c') : c.f.total ≤ c'.f.total := by
  cases step with
  | tests here size => exact (c.total_test _ _ _).1
  | checks here live more => exact c.total_compare _ _ _ _ _
  | _ => exact le_refl _

/-- The block `j` that `BrokenAlloc` has handed out. -/
structure Lies (slab j : Nat) (b : Block) : Prop where
  size : boundarySizes[j]? = some b.n
  place : Broken.InSlab slab b.p
  tag : b.tag = boundaryTag j

/-- The last two tags differ in more than the number of a chunk. -/
theorem lastTags : 4096 ≤ (boundaryTag 20 ^^^ boundaryTag 21).toNat := by decide +kernel

/-- The last two blocks cannot both be stamped. -/
theorem Lies.clash (first : Lies slab 20 b) (second : Lies slab 21 b') (stamped : Stamped mem b b.n)
    (stamped' : Stamped mem b' b'.n) : False := by
  have size : b.n = 262145 := Option.some_inj.mp (first.size.symm.trans (by decide))
  have size' : b'.n = 524288 := Option.some_inj.mp (second.size.symm.trans (by decide))
  obtain ⟨o,less,aligned,here⟩ := first.place
  obtain ⟨o',less',aligned',here'⟩ := second.place
  unfold Broken.wrap at less less'
  have tags := lastTags
  rw [← first.tag,← second.tag] at tags
  have small : ∀ d, d < 4096 → b.tag ^^^ b'.tag ≠ .ofNat d := by
    intro d few same
    rw [same,UInt64.toNat_ofNat',Nat.mod_eq_of_lt (by omega)] at tags
    omega
  rcases Nat.le_total o o' with le | le
  · -- The second block begins in the first one.
    have meet := stamped.tags stamped' (d := (o' - o) / 8) (by omega) (by omega) (by omega)
    refine small ((o' - o) / 8) (by omega) ?_
    rw [← meet,← UInt64.xor_assoc,UInt64.xor_self,UInt64.zero_xor]
  · -- The first block begins in the second one.
    have meet := stamped'.tags stamped (d := (o - o') / 8) (by omega) (by omega) (by omega)
    refine small ((o - o') / 8) (by omega) ?_
    rw [← meet,UInt64.xor_assoc,UInt64.xor_comm,UInt64.xor_assoc,UInt64.xor_self,UInt64.xor_zero]

/-- What memory has of the blocks where the check is. -/
def Boundary.Laid (slab : Nat) (c : Boundary) (mem : Memory) : Prop :=
  match c.place with
  | .calls i => c.live.length = i ∧ ∀ b, c.live[21]? = some b → Stamped mem b b.n
  | .awaits i => c.live.length = i
  | .tests i p => c.live.length = i ∧ Broken.InSlab slab p
  | .fills i b pos chunk => c.live.length = i ∧ Lies slab i b ∧ pos = 8 * chunk ∧ Stamped mem b pos
  | .checks i pos chunk => (∀ b, c.live[21]? = some b → Stamped mem b b.n) ∧ 22 ≤ c.live.length ∧ i ≤ 20 ∧
      pos = 8 * chunk ∧ (i = 20 → ∀ b, c.live[20]? = some b → Stamped mem b pos)
  | _ => False

/-- What holds along every run of the check over the broken allocator: a failure has been
    counted, or the blocks lie in the slab and the last two are still to be compared. -/
def Counted (slab : Nat) (c : Boundary) (s : Broken) : Prop :=
  1 ≤ c.f.total ∨ (∀ j b, c.live[j]? = some b → Lies slab j b) ∧ c.Laid slab s.mem

theorem Counted.client (counted : Counted slab c s) (step : c.Step t none c') : Counted slab c' s := by
  rcases counted with counted | ⟨lies,laid⟩
  · exact .inl (counted.trans step.total)
  cases step with
  | @tests i n p here size =>
    by_cases null : p = 0
    · exact .inl ((c.total_test i n p).2 null)
    · simp only [Boundary.Laid,here] at laid
      refine .inr ?_
      simp only [Boundary.test,if_neg null]
      have nothing : Stamped s.mem ⟨p,n,boundaryTag i⟩ 0 := fun j none_ => absurd none_ (Nat.not_lt_zero j)
      exact ⟨lies,laid.1,⟨size,laid.2,rfl⟩,rfl,nothing⟩
  | @filled i pos chunk b here all =>
    simp only [Boundary.Laid,here] at laid
    obtain ⟨length,fits,aligned,stamped⟩ := laid
    have last : ∀ j b', (c.live ++ [b])[j]? = some b' → c.live[j]? = some b' ∨ j = i ∧ b' = b := by
      intro j b' found
      rcases Nat.lt_trichotomy j c.live.length with old | same | beyond
      · rw [List.getElem?_append_left old] at found
        exact .inl found
      · rw [same,List.getElem?_concat_length] at found
        exact .inr ⟨same.trans length,(Option.some_inj.mp found).symm⟩
      · rw [List.getElem?_eq_none (by simp; omega)] at found
        cases found
    refine .inr ⟨fun j b' found => ?_,?_,fun b' found => ?_⟩
    · rcases last j b' found with old | ⟨rfl,rfl⟩
      · exact lies j b' old
      · exact fits
    · rw [List.length_append,List.length_singleton,length]
    · rcases last 21 b' found with old | ⟨rfl,rfl⟩
      · have few := (List.getElem?_eq_some_iff.mp old).1
        have size := (List.getElem?_eq_some_iff.mp fits.size).1
        have sizes : boundarySizes.length = 22 := by decide
        omega
      · exact fun j _ inside => stamped j (by omega) inside
  | @called i here none_ =>
    simp only [Boundary.Laid,here] at laid
    have sizes : boundarySizes.length = 22 := by decide
    have beyond := List.getElem?_eq_none_iff.mp none_
    exact .inr ⟨lies,laid.2,show 22 ≤ c.live.length by omega,by omega,rfl,fun same => by cases same⟩
  | @checked i pos chunk b here live all =>
    simp only [Boundary.Laid,here] at laid
    obtain ⟨stamped,length,before,aligned,first⟩ := laid
    -- Had all of the first of the two been compared, both would be stamped.
    have ne : i ≠ 20 := by
      rintro rfl
      obtain ⟨b',there⟩ : ∃ b', c.live[21]? = some b' := ⟨_,List.getElem?_eq_getElem (by omega)⟩
      have whole : Stamped s.mem b b.n := fun j _ inside => first rfl b live j (by omega) inside
      exact (lies 20 b live).clash (lies 21 b' there) whole (stamped b' there)
    exact .inr ⟨lies,stamped,length,show i + 1 ≤ 20 by omega,rfl,fun _ b' _ j none_ => absurd none_ (Nat.not_lt_zero j)⟩
  | @passed i pos chunk here none_ =>
    simp only [Boundary.Laid,here] at laid
    have beyond := List.getElem?_eq_none_iff.mp none_
    omega

/-- The allocator alone. -/
theorem Counted.server (counted : Counted slab c s) (step : s.Step slab none s') : Counted slab c s' := by
  cases step
  exact counted

theorem Counted.access {f : Nat → Nat} {a : Seen} (counted : Counted slab c s) (placed : Broken.Placed slab s)
    (first : c.Step t (some (.inl a)) c') (second : s.Step slab (some (a.along f)) s') : Counted slab c' s' := by
  rcases counted with counted | ⟨lies,laid⟩
  · exact .inl (counted.trans first.total)
  cases first with
  | calls here size =>
    cases second
    simp only [Boundary.Laid,here] at laid
    exact .inr ⟨lies,laid.1⟩
  | returned here =>
    simp only [Boundary.Laid,here] at laid
    cases second with
    | gets got => exact .inr ⟨lies,laid,placed.got _ _ got⟩
  | fills here more =>
    simp only [Boundary.Laid,here] at laid
    obtain ⟨length,fits,aligned,stamped⟩ := laid
    cases second with
    | writes => exact .inr ⟨lies,length,fits,by omega,stamped.fill aligned⟩
  | @checks i pos chunk b mem here live more =>
    simp only [Boundary.Laid,here] at laid
    obtain ⟨stamped,length,before,aligned,first⟩ := laid
    cases second with
    | reads seen =>
      obtain ⟨more,same,_⟩ := c.compare_spec i b pos chunk mem
      cases found : differs mem (b.p + pos) (mix (b.tag ^^^ .ofNat chunk)) (if b.n - pos < 8 then b.n - pos else 8) with
      | true => exact .inl (by rw [(more found).1]; omega)
      | false =>
        rw [same found]
        refine .inr ⟨lies,stamped,length,before,by omega,fun last b' there => ?_⟩
        subst last
        cases Option.some_inj.mp (live.symm.trans there)
        exact (first rfl b live).extend aligned seen found
  | frees here live => simp only [Boundary.Laid,here] at laid
  | freed here => simp only [Boundary.Laid,here] at laid

/-- The bytes of the block are bytes of the slab. -/
def Inside (slab : Nat) (b : Block) : Prop := slab ≤ b.p ∧ b.p + b.n ≤ slab + Broken.slabBytes

/-- The blocks of the check are inside the slab. -/
def Boundary.Inside (slab : Nat) (c : Boundary) : Prop :=
  (∀ b ∈ c.live, Verify.Inside slab b) ∧
  match c.place with
  | .tests _ p => Broken.InSlab slab p
  | .fills _ b _ _ => Verify.Inside slab b
  | _ => True

theorem Boundary.Inside.step {f : Nat → Nat} {a : Option Seen} (inside : c.Inside slab) (placed : Broken.Placed slab s)
    (first : c.Step t (a.map .inl) c') (second : ∀ d, a = some d → s.Step slab (some (d.along f)) s') : c'.Inside slab := by
  obtain ⟨live,place⟩ := inside
  cases a with
  | none =>
    cases first with
    | @tests i n p here size =>
      simp only [here] at place
      have small : ∀ n ∈ boundarySizes, n ≤ 2 * maxBytes := by decide
      have small := small n (List.mem_of_getElem? size)
      obtain ⟨o,less,_,same⟩ := place
      unfold Boundary.test
      split_ifs with null
      · exact ⟨live,trivial⟩
      all_goals exact ⟨live,show slab ≤ p ∧ p + n ≤ slab + (Broken.wrap + 2 * maxBytes) by omega⟩
    | filled here all =>
      simp only [here] at place
      refine ⟨fun b mem => ?_,trivial⟩
      rcases List.mem_append.mp mem with old | new
      · exact live b old
      · cases List.mem_singleton.mp new
        exact place
    | called here none_ => exact ⟨live,trivial⟩
    | checked here held all => exact ⟨live,trivial⟩
    | passed here none_ => exact ⟨live,trivial⟩
  | some d =>
    have second := second d rfl
    cases first with
    | calls here size => exact ⟨live,trivial⟩
    | returned here =>
      cases second with
      | gets got => exact ⟨live,placed.got _ _ got⟩
    | fills here more =>
      simp only [here] at place
      exact ⟨live,place⟩
    | @checks i pos chunk b mem here held more =>
      obtain ⟨more,same,kept⟩ := c.compare_spec i b pos chunk mem
      cases found : differs mem (b.p + pos) (mix (b.tag ^^^ .ofNat chunk)) (if b.n - pos < 8 then b.n - pos else 8) with
      | true => exact ⟨kept.symm ▸ live,by rw [(more found).2]; trivial⟩
      | false =>
        rw [same found]
        exact ⟨live,trivial⟩
    | frees here held => exact ⟨live,trivial⟩
    | freed here => exact ⟨live,trivial⟩

/-! ### Runs of the check -/

/-- The boundary check over the broken allocator, from wherever that has come to. -/
abbrev brokenCheck (slab t : Nat) (f : Nat → Nat) (s : Broken) : System Empty (Boundary × Broken) :=
  (boundary t).atop ((broken slab).later (Access.along f) s)

variable {f : Nat → Nat} {s₀ : Broken}

/-- The broken allocator goes along with the check. -/
theorem broken_obliges (slab t : Nat) (f : Nat → Nat) (s₀ : Broken) :
    Obliging ((broken slab).later (Access.along f) s₀) t (fun _ s => s.hand (f t) = .idle) where
  alone := fun _ _ _ idle _ => idle
  hands := by
    intro c s i n idle here size
    let p := slab + s.cursor % Broken.wrap
    let asked := s.put (f t) .asking
    let fetched : Broken := { asked.put (f t) (.got p) with cursor := (s.cursor + 64) % 2 ^ 64 }
    have asks : s.Step slab (some (.asks (f t) n)) asked := .asks idle
    have fetches : asked.Step slab none fetched := .fetches (Function.update_self ..)
    have gets : fetched.Step slab (some (.gets (f t) p)) (fetched.put (f t) .idle) := .gets (Function.update_self ..)
    exact ⟨asked,fetched,p,_,asks,.single fetches,gets,Function.update_self ..⟩
  writes := fun c s i b pos chunk idle here more => ⟨_,Broken.Step.writes,idle⟩
  reads := fun c s i b pos chunk idle here live more => ⟨s.mem,Broken.Step.reads (fun x v => chunkCells_seen),idle⟩
  takes := fun c s i b idle here live =>
    ⟨_,_,_,Broken.Step.gives idle,.refl,Broken.Step.done (Function.update_self ..),Function.update_self ..⟩

/-- The check runs to its end, whatever it finds. -/
theorem broken_ends (slab t : Nat) (f : Nat → Nat) (s₀ : Broken) (idle : s.hand (f t) = .idle) :
    ∃ c s', (brokenCheck slab t f s₀).Silently ({},s) (c,s') ∧ c.Over := by
  obtain ⟨c,s',run,past,_⟩ := (broken_obliges slab t f s₀).ends idle
  exact ⟨c,s',run,past⟩

/-- Every state that is reached is counted, and inside the slab. -/
theorem counted_reached (came : (broken slab).Reaches s₀) (reached : (brokenCheck slab t f s₀).Reaches (c,s)) :
    Broken.Placed slab s ∧ c.Inside slab ∧ Counted slab c s := by
  refine reached.keeps (P := fun x => Broken.Placed slab x.2 ∧ x.1.Inside slab ∧ Counted slab x.1 x.2) ?_ ?_
  · rintro ⟨c,s⟩ ⟨start,rfl⟩
    cases (show c = {} from start)
    have nothing : ∀ b, b ∉ ([] : List Block) := fun b => List.not_mem_nil
    exact ⟨Broken.placed_reached came,⟨fun b mem => absurd mem (nothing b),trivial⟩,
      .inr ⟨fun j b found => (by cases found),rfl,fun b found => by cases found⟩⟩
  · rintro ⟨c,s⟩ a ⟨c',s'⟩ ⟨placed,inside,counted⟩ step
    cases step with
    | client step =>
      have nothing : ∀ d, (none : Option Seen) = some d → s.Step slab (some (d.along f)) s := fun d none_ => by cases none_
      exact ⟨placed,inside.step (a := none) placed step nothing,counted.client step⟩
    | server step => exact ⟨placed.step step,inside,counted.server step⟩
    | @both _ _ _ _ a first second =>
      have serves : ∀ d, some a = some d → s.Step slab (some (d.along f)) s' := fun d same => by
        cases same
        exact second
      exact ⟨placed.step second,inside.step (a := some a) placed first serves,counted.access placed first second⟩
    | @shows _ _ _ m step => exact m.elim

theorem Counted.past (counted : Counted slab c s) (past : c.Over) : 1 ≤ c.f.total := by
  obtain ⟨i,here,_⟩ := past
  rcases counted with counted | ⟨_,laid⟩
  · exact counted
  · simp only [Boundary.Laid,here] at laid

/-- Wherever the broken allocator has come to: the boundary check stays inside the slab
    with all the blocks that it writes and looks at, and when it is over it has counted a
    failure. -/
theorem broken_counted (came : (broken slab).Reaches s₀) (reached : (brokenCheck slab t f s₀).Reaches (c,s)) :
    (∀ b ∈ c.live, Inside slab b) ∧ (∀ i b pos chunk, c.place = .fills i b pos chunk → Inside slab b) ∧
      (c.Over → 1 ≤ c.f.total) := by
  obtain ⟨_,⟨live,place⟩,counted⟩ := counted_reached came reached
  refine ⟨live,fun i b pos chunk here => ?_,counted.past⟩
  rw [here] at place
  exact place

/-- The check ends, and has counted. -/
theorem broken_counted_ended : ∃ c s, (brokenCheck 8192 0 id { mem := fun _ => 0 }).Reaches (c,s) ∧ c.Over ∧ 1 ≤ c.f.total := by
  have came : (broken 8192).Reaches { mem := fun _ => 0 } := .start ⟨_,rfl⟩
  obtain ⟨c,s,run,past⟩ := broken_ends 8192 0 id { mem := fun _ => 0 } (s := { mem := fun _ => 0 }) rfl
  have start : (brokenCheck 8192 0 id { mem := fun _ => 0 }).Reaches (({} : Boundary),{ mem := fun _ => 0 }) := .start ⟨rfl,rfl⟩
  have reached := start.silently run
  exact ⟨c,s,reached,past,(broken_counted came reached).2.2 past⟩

end

end Verify
end TcAlloc
