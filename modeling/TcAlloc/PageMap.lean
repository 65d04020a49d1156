import TcAlloc.ObjectPool

/-!
The three-level page map of the 64-bit build, for page numbers of `bits` bits. A
node is known by its address; the nodes are created on the way to the first store
below them and never given back. `get` is the lookup, and `load` the same lookup
one atomic load at a time; the stores of `set` are atomic actions of their own.
-/
namespace TcAlloc

/-- `TCMalloc_PageMapRadix64`: the root's entries, and the entries of the nodes at
    an address. Entries are addresses, null for none. -/
structure PageMap where
  root : Nat → Nat
  mids : Nat → Nat → Nat
  leaves : Nat → Nat → Nat

namespace PageMap

def leafBits (bits : Nat) : Nat := bits / 3
def midBits (bits : Nat) : Nat := (bits - leafBits bits) / 2

/-- The three fields of a page number. -/
def i1 (bits k : Nat) : Nat := k >>> (leafBits bits + midBits bits)
def i2 (bits k : Nat) : Nat := (k >>> leafBits bits) &&& (2 ^ midBits bits - 1)
def i3 (bits k : Nat) : Nat := k &&& (2 ^ leafBits bits - 1)

def empty : PageMap := ⟨fun _ => 0,fun _ _ => 0,fun _ _ => 0⟩

def get (bits : Nat) (map : PageMap) (k : Nat) : Nat :=
  if 0 < k >>> bits then 0
  else
    let mid := map.root (i1 bits k)
    if mid = 0 then 0
    else
      let leaf := map.mids mid (i2 bits k)
      if leaf = 0 then 0 else map.leaves leaf (i3 bits k)

/-- `get`, one load at a time: what follows the load from the root, what follows
    the load from a mid node, and the whole. -/
def afterMid (bits k leaf : Nat) : Code PageMap Nat :=
  if leaf = 0 then pure 0 else .read (·.leaves leaf (i3 bits k))
def afterRoot (bits k mid : Nat) : Code PageMap Nat :=
  if mid = 0 then pure 0
  else do
    let leaf ← .read (·.mids mid (i2 bits k))
    afterMid bits k leaf
def load (bits k : Nat) : Code PageMap Nat :=
  if 0 < k >>> bits then pure 0
  else do
    let mid ← .read (·.root (i1 bits k))
    afterRoot bits k mid

/-- The pages of a node of `entries` pointers. -/
def nodePages (entries : Nat) : Nat := SizeClass.roundUpTo (8 * entries) (2 ^ pageShift) >>> pageShift

/-- `NewNode<Mid>` and `NewNode<Leaf>`: zero-filled pages of the system. -/
def newMid (bits : Nat) : Code (PageMap × OS) Nat := do
  let mem ← (systemAlloc .mapNode (nodePages (2 ^ midBits bits))).zoom .second
  .modify (fun s => ({ s.1 with mids := Function.update s.1.mids mem (fun _ => 0) },s.2))
  return mem
def newLeaf (bits : Nat) : Code (PageMap × OS) Nat := do
  let mem ← (systemAlloc .mapNode (nodePages (2 ^ leafBits bits))).zoom .second
  .modify (fun s => ({ s.1 with leaves := Function.update s.1.leaves mem (fun _ => 0) },s.2))
  return mem

/-- The mid node of a root entry, created and published where there is none. -/
def midAt (bits i : Nat) : Code (PageMap × OS) Nat := do
  let mid ← .read (·.1.root i)
  if mid = 0 then do
    let mid ← newMid bits
    .modify (fun s => ({ s.1 with root := Function.update s.1.root i mid },s.2))
    return mid
  else return mid

/-- The leaf of an entry of a mid node, likewise. -/
def leafAt (bits mid i : Nat) : Code (PageMap × OS) Nat := do
  let leaf ← .read (·.1.mids mid i)
  if leaf = 0 then do
    let leaf ← newLeaf bits
    .modify (fun s => ({ s.1 with mids := Function.update s.1.mids mid (Function.update (s.1.mids mid) i leaf) },s.2))
    return leaf
  else return leaf

def set (bits k v : Nat) : Code (PageMap × OS) Unit := do
  .require (k >>> bits = 0) .assertion
  let mid ← midAt bits (i1 bits k)
  let leaf ← leafAt bits mid (i2 bits k)
  .modify (fun s => ({ s.1 with
    leaves := Function.update s.1.leaves leaf (Function.update (s.1.leaves leaf) (i3 bits k) v) },s.2))

/-! ### Keys and slots -/

/-- A page number is given by its three fields. -/
theorem fields_inj {bits k q : Nat} (first : i1 bits k = i1 bits q) (second : i2 bits k = i2 bits q)
    (third : i3 bits k = i3 bits q) : k = q := by
  simp only [i1,i2,i3,Nat.and_two_pow_sub_one_eq_mod,Nat.shiftRight_eq_div_pow,Nat.pow_add] at first second third
  rw [← Nat.div_div_eq_div_mul,← Nat.div_div_eq_div_mul] at first
  have middle : k / 2 ^ leafBits bits = q / 2 ^ leafBits bits := by
    rw [← Nat.div_add_mod (k / 2 ^ leafBits bits) (2 ^ midBits bits),first,second,Nat.div_add_mod]
  rw [← Nat.div_add_mod k (2 ^ leafBits bits),middle,third,Nat.div_add_mod]

theorem shiftRight_eq_zero {bits k : Nat} : k >>> bits = 0 ↔ k < 2 ^ bits := by
  rw [Nat.shiftRight_eq_div_pow,Nat.div_eq_zero_iff_lt (by positivity)]

/-- The nodes that are published lie in mappings of their own, and each is
    published once. -/
structure Valid (bits : Nat) (map : PageMap) (os : OS) : Prop where
  mid_mapped : ∀ i, map.root i ≠ 0 → ∃ m ∈ os.mapped, m.base = map.root i ∧ m.site = .mapNode
  mid_once : ∀ i j, map.root i ≠ 0 → map.root i = map.root j → i = j
  leaf_mapped : ∀ i a, map.root i ≠ 0 → map.mids (map.root i) a ≠ 0 →
    ∃ m ∈ os.mapped, m.base = map.mids (map.root i) a ∧ m.site = .mapNode
  leaf_once : ∀ i a j b, map.root i ≠ 0 → map.root j ≠ 0 → map.mids (map.root i) a ≠ 0 →
    map.mids (map.root i) a = map.mids (map.root j) b → i = j ∧ a = b

/-- Published nodes stay published where they are. -/
structure Persists (map map' : PageMap) : Prop where
  mid : ∀ i, map.root i ≠ 0 → map'.root i = map.root i
  leaf : ∀ i a, map.root i ≠ 0 → map.mids (map.root i) a ≠ 0 → map'.mids (map.root i) a = map.mids (map.root i) a

theorem Persists.refl (map : PageMap) : Persists map map := ⟨fun _ _ => rfl,fun _ _ _ _ => rfl⟩

theorem Persists.trans {map map' map'' : PageMap} (first : Persists map map') (second : Persists map' map'') :
    Persists map map'' := by
  refine ⟨fun i some => ?_,fun i a some leaf => ?_⟩
  · have here := first.mid i some
    rw [second.mid i (by rw [here]; exact some),here]
  · have here := first.mid i some
    have there := first.leaf i a some leaf
    have next := second.leaf i a (by rw [here]; exact some) (by rw [here,there]; exact leaf)
    rw [here] at next
    rw [next,there]

section
variable {bits : Nat} {map : PageMap} {os os' : OS}

theorem Valid.mono (valid : Valid bits map os) (kept : ∀ m ∈ os.mapped, m.site = .mapNode → m ∈ os'.mapped) :
    Valid bits map os' :=
  { valid with
    mid_mapped := fun i some => by
      obtain ⟨m,mem,at_base,site⟩ := valid.mid_mapped i some
      exact ⟨m,kept m mem site,at_base,site⟩
    leaf_mapped := fun i a some leaf => by
      obtain ⟨m,mem,at_base,site⟩ := valid.leaf_mapped i a some leaf
      exact ⟨m,kept m mem site,at_base,site⟩ }

theorem valid_empty : Valid bits empty os :=
  ⟨fun _ h => absurd rfl h,fun _ _ h => absurd rfl h,fun _ _ h => absurd rfl h,fun _ _ _ _ h => absurd rfl h⟩

theorem get_empty (k : Nat) : get bits empty k = 0 := by simp [get,empty]

theorem get_big {k : Nat} (big : 2 ^ bits ≤ k) : get bits map k = 0 := by
  have high : 0 < k >>> bits := Nat.pos_of_ne_zero (fun zero => by
    have := shiftRight_eq_zero.mp zero; omega)
  rw [get,if_pos high]

/-- A published node is where no new mapping can be. -/
theorem fresh_ne (system : os.Valid) {align kpage base node : Nat} (granted : OS.Grants align os kpage base)
    (mapped : ∃ m ∈ os.mapped, m.base = node ∧ m.site = .mapNode) : node ≠ base := by
  obtain ⟨m,mem,rfl,_⟩ := mapped
  have apart := granted.2.2.2.2 m mem
  have len := (system.nonempty m mem).2.1
  have some : 0 < kpage * 2 ^ pageShift := Nat.mul_pos granted.2.2.1 (by decide)
  simp only [Mapping.Apart] at apart
  omega

/-- A new mid node, filled with nulls and published in an empty entry. -/
theorem Valid.addMid (valid : Valid bits map os) (system : os.Valid) {align kpage base i : Nat}
    (granted : OS.Grants align os kpage base) (none : map.root i = 0) :
    let os' : OS := os.grant .mapNode kpage base
    let map' : PageMap := { map with mids := Function.update map.mids base (fun _ => 0), root := Function.update map.root i base }
    Valid bits map' os' ∧ Persists map map' ∧ ∀ k, get bits map' k = get bits map k := by
  intro os' map'
  have base_ne : base ≠ 0 := by have := granted.1; omega
  have other : ∀ j, map.root j ≠ 0 → map.root j ≠ base := fun j some => fresh_ne system granted (valid.mid_mapped j some)
  have root_self : map'.root i = base := Function.update_self ..
  have root_other : ∀ j, j ≠ i → map'.root j = map.root j := fun j ne => Function.update_of_ne ne ..
  have mids_self : ∀ a, map'.mids base a = 0 := fun a => by simp [map']
  have mids_other : ∀ j, map.root j ≠ 0 → map'.mids (map.root j) = map.mids (map.root j) := fun j some =>
    Function.update_of_ne (other j some) ..
  have kept : ∀ m ∈ os.mapped, m ∈ os'.mapped := fun m mem => List.mem_cons_of_mem _ mem
  have ne_of : ∀ j, map.root j ≠ 0 → j ≠ i := fun j some same => some (same ▸ none)
  refine ⟨⟨?_,?_,?_,?_⟩,⟨fun j some => root_other j (ne_of j some),fun j a some _ => by rw [mids_other j some]⟩,?_⟩
  · intro j some
    by_cases same : j = i
    · subst same; exact ⟨_,List.mem_cons_self,by rw [root_self],rfl⟩
    · rw [root_other j same] at some ⊢
      obtain ⟨m,mem,rest⟩ := valid.mid_mapped j some
      exact ⟨m,kept m mem,rest⟩
  · intro j j' some equal
    by_cases same : j = i
    · by_cases same' : j' = i
      · rw [same,same']
      · rw [same,root_self,root_other j' same'] at equal
        exact absurd equal.symm (other j' (by rw [← equal]; exact base_ne))
    · rw [root_other j same] at some equal
      by_cases same' : j' = i
      · rw [same',root_self] at equal; exact absurd equal (other j some)
      · rw [root_other j' same'] at equal; exact valid.mid_once j j' some equal
  · intro j a some leaf
    by_cases same : j = i
    · rw [same,root_self,mids_self] at leaf; exact absurd rfl leaf
    · rw [root_other j same] at some leaf ⊢
      rw [mids_other j some] at leaf ⊢
      obtain ⟨m,mem,rest⟩ := valid.leaf_mapped j a some leaf
      exact ⟨m,kept m mem,rest⟩
  · intro j a j' a' some some' leaf equal
    have old : ∀ j, map'.root j ≠ 0 → j ≠ i → map.root j ≠ 0 := fun j some ne => root_other j ne ▸ some
    by_cases same : j = i
    · rw [same,root_self,mids_self] at leaf; exact absurd rfl leaf
    · by_cases same' : j' = i
      · rw [same',root_self,mids_self] at equal; exact absurd equal leaf
      · have here := old j some same
        have there := old j' some' same'
        rw [root_other j same,mids_other j here] at leaf equal
        rw [root_other j' same',mids_other j' there] at equal
        exact valid.leaf_once j a j' a' here there leaf equal
  · intro k
    simp only [get]
    by_cases same : i1 bits k = i
    · rw [same,root_self,mids_self,none]; simp
    · rw [root_other _ same]
      by_cases some : map.root (i1 bits k) = 0
      · simp [some]
      · rw [mids_other _ some]

/-- A new leaf, filled with nulls and published in an empty entry of a mid node. -/
theorem Valid.addLeaf (valid : Valid bits map os) (system : os.Valid) {align kpage base i a : Nat}
    (granted : OS.Grants align os kpage base) (mid : map.root i ≠ 0) (none : map.mids (map.root i) a = 0) :
    let os' : OS := os.grant .mapNode kpage base
    let map' : PageMap := { map with
      leaves := Function.update map.leaves base (fun _ => 0)
      mids := Function.update map.mids (map.root i) (Function.update (map.mids (map.root i)) a base) }
    Valid bits map' os' ∧ Persists map map' ∧ ∀ k, get bits map' k = get bits map k := by
  intro os' map'
  have base_ne : base ≠ 0 := by have := granted.1; omega
  have other : ∀ j b, map.root j ≠ 0 → map.mids (map.root j) b ≠ 0 → map.mids (map.root j) b ≠ base :=
    fun j b some leaf => fresh_ne system granted (valid.leaf_mapped j b some leaf)
  have mids_self : map'.mids (map.root i) a = base := by simp [map']
  have mids_other : ∀ j b, map.root j ≠ 0 → ¬ (j = i ∧ b = a) → map'.mids (map.root j) b = map.mids (map.root j) b := by
    intro j b some ne
    by_cases same : map.root j = map.root i
    · have := valid.mid_once j i some same
      subst this
      simp only [map',Function.update_self]
      exact Function.update_of_ne (fun equal => ne ⟨rfl,equal⟩) ..
    · simp only [map']; rw [Function.update_of_ne same]
  have kept : ∀ m ∈ os.mapped, m ∈ os'.mapped := fun m mem => List.mem_cons_of_mem _ mem
  refine ⟨⟨fun j some => ?_,valid.mid_once,?_,?_⟩,⟨fun _ _ => rfl,fun j b some leaf => ?_⟩,?_⟩
  · obtain ⟨m,mem,rest⟩ := valid.mid_mapped j some
    exact ⟨m,kept m mem,rest⟩
  · intro j b some leaf
    change map.root j ≠ 0 at some
    change map'.mids (map.root j) b ≠ 0 at leaf
    change ∃ m ∈ os'.mapped, m.base = map'.mids (map.root j) b ∧ m.site = .mapNode
    by_cases same : j = i ∧ b = a
    · rw [same.1,same.2,mids_self]; exact ⟨_,List.mem_cons_self,rfl,rfl⟩
    · rw [mids_other j b some same] at leaf ⊢
      obtain ⟨m,mem,rest⟩ := valid.leaf_mapped j b some leaf
      exact ⟨m,kept m mem,rest⟩
  · intro j b j' b' some some' leaf equal
    change map.root j ≠ 0 at some
    change map.root j' ≠ 0 at some'
    change map'.mids (map.root j) b ≠ 0 at leaf
    change map'.mids (map.root j) b = map'.mids (map.root j') b' at equal
    by_cases same : j = i ∧ b = a
    · by_cases same' : j' = i ∧ b' = a
      · exact ⟨same.1.trans same'.1.symm,same.2.trans same'.2.symm⟩
      · rw [same.1,same.2,mids_self,mids_other j' b' some' same'] at equal
        exact absurd equal.symm (other j' b' some' (by rw [← equal]; exact base_ne))
    · rw [mids_other j b some same] at leaf equal
      by_cases same' : j' = i ∧ b' = a
      · rw [same'.1,same'.2,mids_self] at equal; exact absurd equal (other j b some leaf)
      · rw [mids_other j' b' some' same'] at equal
        exact valid.leaf_once j b j' b' some some' leaf equal
  · exact mids_other j b some (fun same => leaf (by rw [same.1,same.2]; exact none))
  · intro k
    simp only [get]
    by_cases some : map.root (i1 bits k) = 0
    · simp [map',some]
    · change (if 0 < k >>> bits then 0 else if map.root (i1 bits k) = 0 then 0 else
        if map'.mids (map.root (i1 bits k)) (i2 bits k) = 0 then 0 else
          map'.leaves (map'.mids (map.root (i1 bits k)) (i2 bits k)) (i3 bits k)) = _
      by_cases same : i1 bits k = i ∧ i2 bits k = a
      · rw [same.1,same.2,mids_self,none]
        simp [map']
      · rw [mids_other _ _ some same]
        by_cases leaf : map.mids (map.root (i1 bits k)) (i2 bits k) = 0
        · simp [leaf]
        · have ne := other _ _ some leaf
          simp only [map',Function.update_of_ne ne]

/-- The store of a value in its slot. -/
theorem Valid.store (valid : Valid bits map os) {k v : Nat} (small : k < 2 ^ bits) (mid : map.root (i1 bits k) ≠ 0)
    (leaf : map.mids (map.root (i1 bits k)) (i2 bits k) ≠ 0) :
    let at_leaf := map.mids (map.root (i1 bits k)) (i2 bits k)
    let map' : PageMap := { map with
      leaves := Function.update map.leaves at_leaf (Function.update (map.leaves at_leaf) (i3 bits k) v) }
    Valid bits map' os ∧ Persists map map' ∧ ∀ q, get bits map' q = if q = k then v else get bits map q := by
  intro at_leaf map'
  refine ⟨⟨valid.mid_mapped,valid.mid_once,valid.leaf_mapped,valid.leaf_once⟩,
    ⟨fun _ _ => rfl,fun _ _ _ _ => rfl⟩,?_⟩
  intro q
  by_cases same : q = k
  · subst same
    have low : ¬ 0 < q >>> bits := by rw [shiftRight_eq_zero.mpr small]; omega
    simp [get,low,map',at_leaf,mid,leaf]
  · rw [if_neg same]
    simp only [get]
    by_cases some : map.root (i1 bits q) = 0
    · simp [map',some]
    · by_cases some' : map.mids (map.root (i1 bits q)) (i2 bits q) = 0
      · simp [map',some']
      · by_cases shared : map.mids (map.root (i1 bits q)) (i2 bits q) = at_leaf
        · obtain ⟨first,second⟩ := valid.leaf_once _ _ _ _ some mid some' shared
          have third : i3 bits q ≠ i3 bits k := fun third => same (fields_inj first second third)
          simp [map',shared,Function.update_of_ne third]
        · simp [map',Function.update_of_ne shared]

end

/-! ### What `set` does -/

section
variable {R : Rules (PageMap × OS) Mutex Request (Option Nat) Event} {h : List Mutex} {bits align : Nat}

/-- The states between the operations of `set`: nodes may have been added, and
    every key reads as before. -/
structure Between (bits : Nat) (map : PageMap) (os : OS) (s : PageMap × OS) : Prop where
  grown : OS.Grown .mapNode os s.2
  persists : Persists map s.1
  same : ∀ q, get bits s.1 q = get bits map q

theorem Between.refl (map : PageMap) (os : OS) : Between bits map os (map,os) :=
  ⟨.refl _ _,.refl _,fun _ => rfl⟩

/-- The observer allows what happens between them: no published node changes. -/
def Lets (R : Rules (PageMap × OS) Mutex Request (Option Nat) Event) (h : List Mutex)
    (bits : Nat) (map : PageMap) (os : OS) :
    Prop :=
  ∀ s s', Between bits map os s → Between bits map os s' → Persists s.1 s'.1 → R.seen none h s s'

/-- A question for a node, asked in a state between the operations. -/
theorem node_wp {map map' : PageMap} {os os' : OS} {kpage : Nat} {post : Nat → List Mutex → PageMap × OS → Prop}
    {thrown : List Mutex → PageMap × OS → Prop} (answers : ∀ s q a, R.allowed s q a → s.2.allows align q a)
    (sees : Lets R h bits map os) (now : Between bits map os (map',os'))
    (ends : ∀ base, OS.Grants align os' kpage base →
      post base h (map',os'.grant .mapNode kpage base)) :
    wp R ((systemAlloc .mapNode kpage).zoom .second) h (map',os') post thrown := by
  refine wp_zoom .second (I := ⟨fun t q a => t.allows align q a,fun m h' t t' =>
      m = none ∧ h' = h ∧ Between bits map os (map',t) ∧ Between bits map os (map',t')⟩)
    (P := fun base h' t => h' = h ∧ OS.Grants align os' kpage base ∧
      t = os'.grant .mapNode kpage base)
    (E := fun _ _ => False) (fun t q a ok => answers _ q a ok) ?_ ?_ (fun _ _ impossible => impossible.elim) ?_
  · rintro m h' t t' ⟨rfl,rfl,before,after⟩; exact sees _ _ before after (.refl _)
  · rintro base h' t ⟨rfl,granted,rfl⟩; exact ends base granted
  · refine systemAlloc_wp (fun a ok => ok) (fun base granted => ⟨⟨rfl,rfl,now,?_⟩,rfl,granted,rfl⟩)
    exact ⟨now.grown.grant _ _,now.persists,now.same⟩

theorem midAt_wp {map : PageMap} {os : OS} {i : Nat} {post : Nat → List Mutex → PageMap × OS → Prop}
    {thrown : List Mutex → PageMap × OS → Prop} (answers : ∀ s q a, R.allowed s q a → s.2.allows align q a)
    (sees : Lets R h bits map os) (valid : Valid bits map os) (system : os.Valid)
    (ends : ∀ map' os', Between bits map os (map',os') → Valid bits map' os' → os'.Valid → map'.root i ≠ 0 →
      post (map'.root i) h (map',os')) :
    wp R (midAt bits i) h (map,os) post thrown := by
  simp only [midAt,wp_seq,wp_read]
  refine ⟨sees _ _ (.refl _ _) (.refl _ _) (.refl _),?_⟩
  by_cases none : map.root i = 0
  · rw [if_pos none]
    simp only [newMid,wp_seq,wp_modify,wp_pure]
    refine node_wp answers sees (.refl _ _) (fun base granted => ?_)
    have base_ne : base ≠ 0 := by have := granted.1; omega
    obtain ⟨valid',persists,same⟩ := valid.addMid system granted none
    have grown : OS.Grown .mapNode os
        (os.grant .mapNode (nodePages (2 ^ midBits bits)) base) :=
      (OS.Grown.refl _ _).grant _ _
    have unpublished : Between bits map os ({ map with mids := Function.update map.mids base (fun _ => 0) },
        (os.grant .mapNode (nodePages (2 ^ midBits bits)) base)) := by
      have other : ∀ j, map.root j ≠ 0 → map.root j ≠ base := fun j some => fresh_ne system granted (valid.mid_mapped j some)
      refine ⟨grown,⟨fun _ _ => rfl,fun j a some _ => by simp [Function.update_of_ne (other j some)]⟩,fun q => ?_⟩
      simp only [get]
      by_cases some : map.root (i1 bits q) = 0
      · simp [some]
      · simp [Function.update_of_ne (other _ some)]
    have between : Between bits map os
        ({ map with mids := Function.update map.mids base (fun _ => 0), root := Function.update map.root i base },
          (os.grant .mapNode (nodePages (2 ^ midBits bits)) base)) :=
      ⟨grown,persists,same⟩
    have allocated : Between bits map os (map,os.grant .mapNode (nodePages (2 ^ midBits bits)) base) :=
      ⟨grown,.refl _,fun _ => rfl⟩
    refine ⟨sees _ _ allocated unpublished unpublished.persists,sees _ _ unpublished between ?_,?_⟩
    · exact ⟨fun j some => Function.update_of_ne (fun same : j = i => some (same ▸ none)) ..,fun _ _ _ _ => rfl⟩
    · have result := ends _ _ between valid' (system.grant .mapNode granted) (by simpa using base_ne)
      simpa using result
  · rw [if_neg none]
    exact ends map os (.refl _ _) valid system none

theorem leafAt_wp {map map₀ : PageMap} {os os₀ : OS} {i a : Nat} {post : Nat → List Mutex → PageMap × OS → Prop}
    {thrown : List Mutex → PageMap × OS → Prop} (answers : ∀ s q a, R.allowed s q a → s.2.allows align q a)
    (sees : Lets R h bits map₀ os₀) (now : Between bits map₀ os₀ (map,os))
    (valid : Valid bits map os) (system : os.Valid) (mid : map.root i ≠ 0)
    (ends : ∀ map' os', Between bits map₀ os₀ (map',os') → Valid bits map' os' → os'.Valid →
      map'.root i = map.root i → map'.mids (map.root i) a ≠ 0 → post (map'.mids (map.root i) a) h (map',os')) :
    wp R (leafAt bits (map.root i) a) h (map,os) post thrown := by
  simp only [leafAt,wp_seq,wp_read]
  refine ⟨sees _ _ now now (.refl _),?_⟩
  by_cases none : map.mids (map.root i) a = 0
  · rw [if_pos none]
    simp only [newLeaf,wp_seq,wp_modify,wp_pure]
    refine node_wp answers sees now (fun base granted => ?_)
    have base_ne : base ≠ 0 := by have := granted.1; omega
    obtain ⟨valid',persists,same⟩ := valid.addLeaf system granted mid none
    have unpublished : Between bits map₀ os₀ ({ map with leaves := Function.update map.leaves base (fun _ => 0) },
        (os.grant .mapNode (nodePages (2 ^ leafBits bits)) base)) := by
      refine ⟨now.grown.grant _ _,now.persists.trans ⟨fun _ _ => rfl,fun _ _ _ _ => rfl⟩,fun q => ?_⟩
      rw [← now.same q]
      simp only [get]
      by_cases some : map.root (i1 bits q) = 0
      · simp [some]
      · by_cases leaf : map.mids (map.root (i1 bits q)) (i2 bits q) = 0
        · simp [leaf]
        · have ne := fresh_ne system granted (valid.leaf_mapped _ _ some leaf)
          simp [Function.update_of_ne ne]
    have between : Between bits map₀ os₀ ({ map with
          leaves := Function.update map.leaves base (fun _ => 0)
          mids := Function.update map.mids (map.root i) (Function.update (map.mids (map.root i)) a base) },
        (os.grant .mapNode (nodePages (2 ^ leafBits bits)) base)) :=
      ⟨now.grown.grant _ _,now.persists.trans persists,fun q => (same q).trans (now.same q)⟩
    have allocated : Between bits map₀ os₀ (map,os.grant .mapNode (nodePages (2 ^ leafBits bits)) base) :=
      ⟨now.grown.grant _ _,now.persists,now.same⟩
    refine ⟨sees _ _ allocated unpublished ⟨fun _ _ => rfl,fun _ _ _ _ => rfl⟩,
      sees _ _ unpublished between ⟨fun j some => persists.mid j some,fun j b some leaf => persists.leaf j b some leaf⟩,?_⟩
    have result := ends _ _ between valid' (system.grant .mapNode granted) rfl (by simpa using base_ne)
    simpa using result
  · rw [if_neg none]
    exact ends map os now valid system rfl none

/-- `set` on a system that never fails: the key reads the value, and every other
    key what it read before. -/
theorem set_wp {map : PageMap} {os : OS} {k v : Nat} {post : Unit → List Mutex → PageMap × OS → Prop}
    {thrown : List Mutex → PageMap × OS → Prop} (answers : ∀ s q a, R.allowed s q a → s.2.allows align q a)
    (sees : Lets R h bits map os) (small : k < 2 ^ bits) (valid : Valid bits map os)
    (system : os.Valid)
    (ends : ∀ s map' os', Between bits map os s → Persists s.1 map' → OS.Grown .mapNode os os' → Persists map map' →
      (∀ q, get bits map' q = if q = k then v else get bits map q) → Valid bits map' os' → os'.Valid →
      R.seen none h s (map',os') ∧ post () h (map',os')) :
    wp R (set bits k v) h (map,os) post thrown := by
  simp only [set,wp_seq,wp_require]
  refine ⟨shiftRight_eq_zero.mpr small,?_⟩
  refine midAt_wp answers sees valid system (fun map₁ os₁ between₁ valid₁ system₁ mid => ?_)
  refine leafAt_wp answers sees between₁ valid₁ system₁ mid (fun map₂ os₂ between₂ valid₂ system₂ root leaf => ?_)
  rw [← root] at leaf ⊢
  obtain ⟨valid₃,persists,stored⟩ := valid₂.store (v := v) small (by rw [root]; exact mid) leaf
  refine ends (map₂,os₂) _ _ between₂ persists between₂.grown (between₂.persists.trans persists) (fun q => ?_) valid₃ system₂
  rw [stored q,between₂.same q]

/-- The lookup changes nothing, and alone it returns what `get` does. -/
theorem load_wp {R : Rules PageMap Mutex Request (Option Nat) Event} {map : PageMap} {k : Nat}
    {post : Nat → List Mutex → PageMap → Prop} {thrown : List Mutex → PageMap → Prop} (sees : R.seen none h map map)
    (ends : post (get bits map k) h map) : wp R (load bits k) h map post thrown := by
  rw [get] at ends
  by_cases big : 0 < k >>> bits
  · rw [if_pos big] at ends
    rw [load,if_pos big]; exact ends
  · rw [if_neg big] at ends
    simp only [load,if_neg big,wp_seq,wp_read]
    refine ⟨sees,?_⟩
    by_cases none : map.root (i1 bits k) = 0
    · rw [if_pos none] at ends
      rw [afterRoot,if_pos none]; exact ends
    · rw [if_neg none] at ends
      simp only [afterRoot,if_neg none,wp_seq,wp_read]
      refine ⟨sees,?_⟩
      by_cases empty : map.mids (map.root (i1 bits k)) (i2 bits k) = 0
      · rw [if_pos empty] at ends
        rw [afterMid,if_pos empty]; exact ends
      · rw [if_neg empty] at ends
        rw [afterMid,if_neg empty]; exact ⟨sees,ends⟩

end
end PageMap
end TcAlloc
