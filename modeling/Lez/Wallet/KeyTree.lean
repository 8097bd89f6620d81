/-
The tree of keys over any kind of node (`key_tree/mod.rs`): places filled by
index, as the next child of a parent, or as the first gap in the layers. The
next child is found by bisection. A tree whose nodes have their parents and
their lower siblings stays one, and no node of it is overwritten.
-/
import Lez.Wallet.ChainIndex

namespace Lez.Wallet

/-- The trait `KeyTreeNode`, without `from_seed`. -/
structure KeyTreeNode (N : Type) where
  deriveChild : N → UInt32 → N
  accountIds : N → List AccountId

/-- `KeyTree<N>`. -/
structure KeyTreeOf (N : Type) where
  keyMap : Table ChainIndex N
  accountIdMap : Table AccountId ChainIndex

/-- `u32::midpoint`. -/
def midpoint (a b : UInt32) : UInt32 := .ofNat ((a.toNat + b.toNat) / 2)

/-- The variables of the search for the next child. -/
structure Borders where
  leftBorder : UInt32
  right : UInt32
  rightBorder : UInt32

open Arrangements ChainIndex

namespace KeyTreeOf

variable {N : Type}

/-- The loop of `find_next_last_child_of_id`. `none` is the `unreachable!()`, or no fuel. -/
def searchLoop (tree : KeyTreeOf N) (parentId : ChainIndex) : Nat → Borders → Option (Option UInt32)
  | 0, _ => .none
  | fuel + 1, b =>
    let rightmostChild := nthChild parentId b.right
    match nextInLine rightmostChild with
    | .none => .some .none
    | .some next =>
      match decide (rightmostChild ∈ tree.keyMap), decide (next ∈ tree.keyMap) with
      | true, true => searchLoop tree parentId fuel ⟨b.right, midpoint b.right b.rightBorder, b.rightBorder⟩
      | true, false => .some (checkedAdd b.right 1)
      | false, false => searchLoop tree parentId fuel ⟨b.leftBorder, midpoint b.leftBorder b.right, b.right⟩
      | false, true => .none

def startBorders : Borders := ⟨0, 0xFFFFFFFE, 0xFFFFFFFF⟩

def findNextLastChildOfId (fuel : Nat) (tree : KeyTreeOf N) (parentId : ChainIndex) : Option (Option UInt32) :=
  if parentId ∉ tree.keyMap then .some .none
  else if nthChild parentId 0 ∉ tree.keyMap then .some (.some 0)
  else searchLoop tree parentId fuel startBorders

variable (K : KeyTreeNode N)

def newFromRoot (root : N) : KeyTreeOf N :=
  ⟨(∅ : Table ChainIndex N).insert [] root,
    (∅ : Table AccountId ChainIndex).writeAll ((K.accountIds root).map fun id => (id, []))⟩

def insertNode (tree : KeyTreeOf N) (cci : ChainIndex) (node : N) : KeyTreeOf N :=
  ⟨tree.keyMap.insert cci node, tree.accountIdMap.writeAll ((K.accountIds node).map fun id => (id, cci))⟩

/-- The outer option is a call that panics or does not return. -/
def generateNewNode (fuel : Nat) (tree : KeyTreeOf N) (parentCci : ChainIndex) :
    Option (Option (KeyTreeOf N × ChainIndex)) :=
  match tree.keyMap.lookup parentCci with
  | .none => .some .none
  | .some parentKeys => do
    -- "Can be None only if parent is not present"
    let nextChildId ← (← findNextLastChildOfId fuel tree parentCci)
    let nextCci := nthChild parentCci nextChildId
    return .some (tree.insertNode K nextCci (K.deriveChild parentKeys nextChildId), nextCci)

def fillNode (tree : KeyTreeOf N) (chainIndex : ChainIndex) : Option (KeyTreeOf N × ChainIndex) := do
  let parentKeys ← tree.keyMap.lookup (← parent chainIndex)
  let childId ← chainIndex.getLast?
  return (tree.insertNode K chainIndex (K.deriveChild parentKeys childId), chainIndex)

/-- From this depth on; `none` is no fuel. -/
def findNextSlotLayered (I : Itertools) (tree : KeyTreeOf N) : Nat → Nat → Option ChainIndex
  | 0, _ => .none
  | fuel + 1, depth => do
    let ids ← chainIdsAtDepthRev I depth
    match ids.find? (· ∉ tree.keyMap) with
    | .some chainId => return chainId
    | .none => findNextSlotLayered I tree fuel (depth + 1)

/-- The outer option is a call that does not return. -/
def generateNewNodeLayered (I : Itertools) (fuel : Nat) (tree : KeyTreeOf N) :
    Option (Option (KeyTreeOf N × ChainIndex)) :=
  (tree.findNextSlotLayered I fuel 1).map (tree.fillNode K)

end KeyTreeOf

/-! ## The tree of private keys -/

section
variable (H : WalletHost)

def ChildKeysPrivate.treeNode : KeyTreeNode ChildKeysPrivate := ⟨nthChild H, accountIds H⟩

def KeyTree.generic (tree : KeyTree) : KeyTreeOf ChildKeysPrivate := ⟨tree.keyMap, tree.accountIdMap⟩

theorem KeyTree.newFromRoot_generic (root : ChildKeysPrivate) :
    (newFromRoot H root).generic = KeyTreeOf.newFromRoot (ChildKeysPrivate.treeNode H) root := rfl

/-- The generic `fill_node` at private nodes is the private tree's. -/
theorem KeyTree.fillNode_generic (tree : KeyTree) (i : ChainIndex) :
    (tree.generic.fillNode (ChildKeysPrivate.treeNode H) i).map (·.1) = (tree.fillNode H i).map KeyTree.generic := by
  unfold KeyTreeOf.fillNode KeyTree.fillNode parent
  cases i with
  | nil => rfl
  | cons a l =>
    cases hlast : (a :: l).getLast? with
    | none => simp at hlast
    | some childId =>
      cases hparent : tree.keyMap.lookup (a :: l).dropLast with
      | none => simp [KeyTree.generic, hparent]
      | some parentKeys =>
        simp only [List.isEmpty_cons, Bool.false_eq_true, if_false, KeyTree.generic, hparent, Option.bind_eq_bind,
          Option.bind_some, Option.pure_def, Option.map_some]
        rfl

end

/-! ## The search -/

theorem nextInLine_nthChild {p : ChainIndex} {a : UInt32} (h : a.toNat + 1 < 2 ^ 32) :
    ∃ b, checkedAdd a 1 = .some b ∧ b.toNat = a.toNat + 1 ∧ nextInLine (nthChild p a) = .some (nthChild p b) := by
  obtain ⟨b, hb, hval⟩ := exists_checkedAdd (show a.toNat + (1 : UInt32).toNat < 2 ^ 32 from h)
  exact ⟨b, hb, hval, by simp [nextInLine, nthChild, hb]⟩

theorem toNat_midpoint (a b : UInt32) : (midpoint a b).toNat = (a.toNat + b.toNat) / 2 := by
  have ha := a.toNat_lt
  have hb := b.toNat_lt
  rw [midpoint, UInt32.toNat_ofNat_of_lt' (show (a.toNat + b.toNat) / 2 < UInt32.size by simp [UInt32.size]; omega)]

namespace KeyTreeOf

variable {N : Type}

/-- The children of a place are the indices below `n`. -/
def Children (tree : KeyTreeOf N) (p : ChainIndex) (n : Nat) : Prop :=
  ∀ c : UInt32, nthChild p c ∈ tree.keyMap ↔ c.toNat < n

/-! One round, by where the probe stands. -/

section
variable {tree : KeyTreeOf N} {p : ChainIndex} {n fuel : Nat} {b : Borders}

theorem searchLoop_inside (hchildren : tree.Children p n) (h : b.right.toNat + 1 < n)
    (hfits : b.right.toNat + 1 < 2 ^ 32) : searchLoop tree p (fuel + 1) b =
      searchLoop tree p fuel ⟨b.right, midpoint b.right b.rightBorder, b.rightBorder⟩ := by
  obtain ⟨next, _, hval, hnext⟩ := nextInLine_nthChild (p := p) hfits
  simp only [searchLoop, hnext, decide_eq_true ((hchildren b.right).mpr (by omega)),
    decide_eq_true ((hchildren next).mpr (by omega))]

theorem searchLoop_last (hchildren : tree.Children p n) (h : b.right.toNat + 1 = n)
    (hfits : b.right.toNat + 1 < 2 ^ 32) : searchLoop tree p (fuel + 1) b = .some (.some (.ofNat n)) := by
  obtain ⟨next, hadd, hval, hnext⟩ := nextInLine_nthChild (p := p) hfits
  have hout : nthChild p next ∉ tree.keyMap := fun hmem => absurd ((hchildren next).mp hmem) (by omega)
  have hn : next = .ofNat n := by
    rw [← UInt32.toNat_inj, UInt32.toNat_ofNat_of_lt' (show n < UInt32.size from h ▸ hfits), hval, h]
  simp only [searchLoop, hnext, decide_eq_true ((hchildren b.right).mpr (by omega)), decide_eq_false hout, hadd]
  rw [hn]

theorem searchLoop_outside (hchildren : tree.Children p n) (h : n ≤ b.right.toNat)
    (hfits : b.right.toNat + 1 < 2 ^ 32) : searchLoop tree p (fuel + 1) b =
      searchLoop tree p fuel ⟨b.leftBorder, midpoint b.leftBorder b.right, b.right⟩ := by
  obtain ⟨next, _, hval, hnext⟩ := nextInLine_nthChild (p := p) hfits
  have hright : nthChild p b.right ∉ tree.keyMap := fun hmem => absurd ((hchildren _).mp hmem) (by omega)
  have hout : nthChild p next ∉ tree.keyMap := fun hmem => absurd ((hchildren _).mp hmem) (by omega)
  simp only [searchLoop, hnext, decide_eq_false hright, decide_eq_false hout]

end

/-- **Bisection**: with `n` between the borders and the probe in their middle, more than `k` rounds find `n` in a
range of `2 ^ k`. -/
theorem searchLoop_found {tree : KeyTreeOf N} {p : ChainIndex} {n : Nat} (hchildren : tree.Children p n) :
    ∀ {k fuel : Nat} {b : Borders}, k < fuel → b.leftBorder.toNat < n → n ≤ b.rightBorder.toNat →
      b.rightBorder.toNat ≤ b.leftBorder.toNat + 2 ^ k → b.right = midpoint b.leftBorder b.rightBorder →
      searchLoop tree p fuel b = .some (.some (.ofNat n)) := by
  intro k
  induction k with
  | zero =>
    intro fuel b hfuel hleft hright hwidth hmid
    obtain ⟨fuel, rfl⟩ : ∃ f, fuel = f + 1 := ⟨fuel - 1, by omega⟩
    have hprobe := congrArg UInt32.toNat hmid
    rw [toNat_midpoint] at hprobe
    have hborder := b.rightBorder.toNat_lt
    exact searchLoop_last hchildren (by omega) (by omega)
  | succ k ih =>
    intro fuel b hfuel hleft hright hwidth hmid
    obtain ⟨fuel, rfl⟩ : ∃ f, fuel = f + 1 := ⟨fuel - 1, by omega⟩
    have hprobe := congrArg UInt32.toNat hmid
    rw [toNat_midpoint] at hprobe
    rw [Nat.pow_succ] at hwidth
    have hfits : b.right.toNat + 1 < 2 ^ 32 := by
      have := b.rightBorder.toNat_lt
      omega
    rcases Nat.lt_trichotomy (b.right.toNat + 1) n with hinside | hlast | houtside
    · rw [searchLoop_inside hchildren hinside hfits]
      exact ih (by omega) (show b.right.toNat < n by omega) hright (by simp only; omega) rfl
    · exact searchLoop_last hchildren hlast hfits
    · rw [searchLoop_outside hchildren (by omega) hfits]
      exact ih (by omega) hleft (by simp only; omega) (by simp only; omega) rfl

/-- The search ends on every number of children but `2 ^ 32`. -/
theorem findNextLastChildOfId_found {tree : KeyTreeOf N} {p : ChainIndex} {n : Nat} (hp : p ∈ tree.keyMap)
    (hchildren : tree.Children p n) (hn : n < 2 ^ 32) :
    findNextLastChildOfId 64 tree p = .some (.some (.ofNat n)) := by
  rw [findNextLastChildOfId, if_neg (not_not.mpr hp)]
  by_cases hempty : n = 0
  · have hout : nthChild p 0 ∉ tree.keyMap := fun h => absurd ((hchildren 0).mp h) (by simp [hempty])
    rw [if_pos hout, hempty]
    rfl
  · have hin : nthChild p 0 ∈ tree.keyMap := (hchildren 0).mpr (by simp; omega)
    rw [if_neg (not_not.mpr hin)]
    have hprobe : startBorders.right.toNat = 2 ^ 32 - 2 := rfl
    -- the first probe is not in the middle: it stands at the end of the range
    by_cases hfull : n = 2 ^ 32 - 1
    · exact searchLoop_last hchildren (by omega) (by omega)
    · rw [searchLoop_outside hchildren (by omega) (by omega)]
      refine searchLoop_found hchildren (show 32 < 63 by decide) (show 0 < n by omega) (by simp only; omega) ?_ rfl
      simp only [hprobe]
      decide

/-- **The next child is found**: 64 rounds are enough, none of them is the unreachable one, and the answer is the
number of children. -/
theorem next_child_found {tree : KeyTreeOf N} {p : ChainIndex} {n : Nat} (hp : p ∈ tree.keyMap)
    (hchildren : tree.Children p n) (hn : n < 2 ^ 32 - 1) :
    findNextLastChildOfId 64 tree p = .some (.some (.ofNat n)) :=
  findNextLastChildOfId_found hp hchildren (by omega)

open Table in
theorem two_children_third :
    findNextLastChildOfId 64 (⟨writeAll ∅ [([], ()), ([0], ()), ([1], ())], ∅⟩ : KeyTreeOf Unit) [] = .some (.some 2) := by
  refine next_child_found (n := 2) (by decide) ?_ (by decide)
  intro c
  have hmem : nthChild [] c ∈ writeAll (∅ : Table ChainIndex Unit) [([], ()), ([0], ()), ([1], ())] ↔ c = 1 ∨ c = 0 := by
    simp only [writeAll, nthChild, List.foldl_cons, List.foldl_nil, AList.mem_insert, List.nil_append,
      List.cons.injEq, reduceCtorEq, and_true, or_false, AList.notMem_empty]
  rw [hmem, ← UInt32.toNat_inj, ← UInt32.toNat_inj, toNat_one, UInt32.toNat_zero]
  omega

/-! ## Trees without gaps -/

/-- Every node but the root has its parent and its lower siblings. -/
structure Closed (tree : KeyTreeOf N) : Prop where
  root : [] ∈ tree.keyMap
  parent : ∀ {i c}, nthChild i c ∈ tree.keyMap → i ∈ tree.keyMap
  sibling : ∀ {i c c'}, nthChild i c ∈ tree.keyMap → c' < c → nthChild i c' ∈ tree.keyMap

theorem nthChild_injective {i j : ChainIndex} {c d : UInt32} (h : nthChild i c = nthChild j d) : i = j ∧ c = d := by
  have := List.append_inj' h rfl
  simpa using this

theorem parent_nthChild (i : ChainIndex) (c : UInt32) : ChainIndex.parent (nthChild i c) = .some i := by
  simp [ChainIndex.parent, nthChild]

theorem layer_nthChild (i : ChainIndex) (c : UInt32) : layer (nthChild i c) = layer i + (c.toNat + 1) := by
  simp [nthChild]

/-- The children of a place in a tree without gaps are an initial segment. -/
theorem Closed.children {tree : KeyTreeOf N} (h : tree.Closed) (p : ChainIndex) :
    ∃ n ≤ 2 ^ 32, tree.Children p n := by
  by_cases hall : ∀ c : UInt32, nthChild p c ∈ tree.keyMap
  · exact ⟨2 ^ 32, Nat.le_refl _, fun c => ⟨fun _ => c.toNat_lt, fun _ => hall c⟩⟩
  · -- the first absent child
    have hex : ∃ n, n < 2 ^ 32 ∧ nthChild p (.ofNat n) ∉ tree.keyMap := by
      obtain ⟨c, hc⟩ := not_forall.mp hall
      exact ⟨c.toNat, c.toNat_lt, by rwa [UInt32.ofNat_toNat]⟩
    obtain ⟨hlt, habsent⟩ := Nat.find_spec hex
    refine ⟨Nat.find hex, Nat.le_of_lt hlt, fun c => ⟨?_, ?_⟩⟩
    · intro hmem
      by_contra hge
      rcases Nat.lt_or_ge (Nat.find hex) c.toNat with hbelow | habove
      · refine habsent (h.sibling hmem (UInt32.lt_iff_toNat_lt.mpr ?_))
        rwa [UInt32.toNat_ofNat_of_lt' hlt]
      · have heq : c = .ofNat (Nat.find hex) := by
          rw [← UInt32.toNat_inj, UInt32.toNat_ofNat_of_lt' hlt]
          omega
        exact habsent (heq ▸ hmem)
    · intro hc
      by_contra habs
      exact Nat.find_min hex hc ⟨c.toNat_lt, by rwa [UInt32.ofNat_toNat]⟩

/-- A new place whose parent and lower siblings are there keeps the tree without gaps. -/
theorem Closed.insertNode {tree : KeyTreeOf N} (h : tree.Closed) (K : KeyTreeNode N) {i : ChainIndex} {c : UInt32}
    (node : N) (hparent : i ∈ tree.keyMap) (hsiblings : ∀ c' < c, nthChild i c' ∈ tree.keyMap) :
    (tree.insertNode K (nthChild i c) node).Closed := by
  refine ⟨(AList.mem_insert _).mpr (.inr h.root), ?_, ?_⟩
  · intro j d hmem
    refine (AList.mem_insert _).mpr (.inr ?_)
    rcases (AList.mem_insert _).mp hmem with heq | hold
    · obtain ⟨rfl, rfl⟩ := nthChild_injective heq
      exact hparent
    · exact h.parent hold
  · intro j d d' hmem hlt
    refine (AList.mem_insert _).mpr (.inr ?_)
    rcases (AList.mem_insert _).mp hmem with heq | hold
    · obtain ⟨rfl, rfl⟩ := nthChild_injective heq
      exact hsiblings d' hlt
    · exact h.sibling hold hlt

/-- What a call that adds a node does: the place was free, the other nodes are as they were, and the tree still has
no gaps. -/
structure Added (tree tree' : KeyTreeOf N) (cci : ChainIndex) : Prop where
  free : cci ∉ tree.keyMap
  present : cci ∈ tree'.keyMap
  others : ∀ i ≠ cci, tree'.keyMap.lookup i = tree.keyMap.lookup i
  closed : tree'.Closed

theorem Closed.added {tree : KeyTreeOf N} (h : tree.Closed) (K : KeyTreeNode N) {i : ChainIndex} {c : UInt32}
    (node : N) (hfree : nthChild i c ∉ tree.keyMap) (hparent : i ∈ tree.keyMap)
    (hsiblings : ∀ c' < c, nthChild i c' ∈ tree.keyMap) :
    Added tree (tree.insertNode K (nthChild i c) node) (nthChild i c) :=
  ⟨hfree, (AList.mem_insert _).mpr (.inl rfl), fun _ hne => AList.lookup_insert_ne hne,
    h.insertNode K node hparent hsiblings⟩

/-- The next child of a place with room for one. -/
theorem generateNewNode_children {tree : KeyTreeOf N} (h : tree.Closed) (K : KeyTreeNode N) {p : ChainIndex}
    {n : Nat} {parentKeys : N} (hp : tree.keyMap.lookup p = .some parentKeys) (hchildren : tree.Children p n)
    (hn : n < 2 ^ 32) : ∃ tree', generateNewNode K 64 tree p = .some (.some (tree', nthChild p (.ofNat n))) ∧
      tree' = tree.insertNode K (nthChild p (.ofNat n)) (K.deriveChild parentKeys (.ofNat n)) ∧
      Added tree tree' (nthChild p (.ofNat n)) := by
  have hmem : p ∈ tree.keyMap := AList.lookup_isSome.mp (by rw [hp]; rfl)
  have hval : (UInt32.ofNat n).toNat = n := UInt32.toNat_ofNat_of_lt' hn
  refine ⟨_, ?_, rfl, h.added K _ ?_ hmem ?_⟩
  · simp only [generateNewNode, hp, findNextLastChildOfId_found hmem hchildren hn, Option.bind_eq_bind,
      Option.bind_some]
    rfl
  · intro hfull
    have := (hchildren _).mp hfull
    omega
  · intro c' hlt
    refine (hchildren c').mpr ?_
    rw [UInt32.lt_iff_toNat_lt, hval] at hlt
    exact hlt

/-- `generate_new_node` at any place of the tree that has not all its children. -/
theorem generateNewNode_added {tree : KeyTreeOf N} (h : tree.Closed) (K : KeyTreeNode N) {p : ChainIndex}
    (hp : p ∈ tree.keyMap) (hroom : ∃ c, nthChild p c ∉ tree.keyMap) :
    ∃ tree' c, generateNewNode K 64 tree p = .some (.some (tree', nthChild p c)) ∧
      Added tree tree' (nthChild p c) := by
  obtain ⟨n, hle, hchildren⟩ := h.children p
  obtain ⟨c, hc⟩ := hroom
  have hn : n < 2 ^ 32 := Nat.lt_of_le_of_lt (Nat.le_of_not_lt fun hlt => hc ((hchildren c).mpr hlt)) c.toNat_lt
  obtain ⟨parentKeys, hlook⟩ := Option.isSome_iff_exists.mp (AList.lookup_isSome.mpr hp)
  obtain ⟨tree', hrun, _, hadded⟩ := generateNewNode_children h K hlook hchildren hn
  exact ⟨tree', _, hrun, hadded⟩

/-! ## The first gap in the layers -/

/-- Every layer up to the one where the search stops is full. -/
theorem findNextSlotLayered_found (I : Itertools) {tree : KeyTreeOf N} {m : Nat}
    (hgap : List.replicate m 0 ∉ tree.keyMap) : ∀ {fuel depth : Nat}, m < depth + fuel → depth ≤ m →
      (∀ i, layer i < depth → i ∈ tree.keyMap) →
      ∃ i, findNextSlotLayered I tree fuel depth = .some i ∧ i ∉ tree.keyMap ∧
        ∀ j, layer j < layer i → j ∈ tree.keyMap := by
  intro fuel
  induction fuel with
  | zero =>
    intro depth hfuel hdepth
    omega
  | succ fuel ih =>
    intro depth hfuel hdepth hfull
    obtain ⟨ids, hrun, _, hmem⟩ := chainIdsAtDepthRev_complete I depth
    rw [findNextSlotLayered, hrun, Option.bind_eq_bind, Option.bind_some]
    cases hfind : ids.find? (· ∉ tree.keyMap) with
    | some i =>
      have hi := (hmem i).mp (List.mem_of_find?_eq_some hfind)
      have hout : i ∉ tree.keyMap := by simpa using List.find?_some hfind
      exact ⟨i, rfl, hout, fun j hj => hfull j (hi ▸ hj)⟩
    | none =>
      have hlayer : ∀ i, layer i = depth → i ∈ tree.keyMap := by
        intro i hi
        simpa using List.find?_eq_none.mp hfind i ((hmem i).mpr hi)
      have hne : depth ≠ m := by
        rintro rfl
        exact hgap (hlayer _ (layer_replicate_zero _))
      refine ih (by omega) (by omega) ?_
      intro i hi
      rcases Nat.lt_or_eq_of_le (Nat.le_of_lt_succ hi) with hlt | heq
      · exact hfull i hlt
      · exact hlayer i heq

/-- Some place of zeros is free, not deeper than there are nodes. -/
theorem exists_replicate_free (tree : KeyTreeOf N) :
    ∃ m, 1 ≤ m ∧ m ≤ tree.keyMap.keys.length + 1 ∧ List.replicate m 0 ∉ tree.keyMap := by
  by_contra hall
  have hsub : (List.range' 1 (tree.keyMap.keys.length + 1)).map (fun m => List.replicate m (0 : UInt32)) ⊆
      tree.keyMap.keys := by
    intro i hi
    obtain ⟨m, hm, rfl⟩ := List.mem_map.mp hi
    rw [List.mem_range'_1] at hm
    by_contra hfree
    exact hall ⟨m, hm.1, by omega, hfree⟩
  have hnodup : ((List.range' 1 (tree.keyMap.keys.length + 1)).map
      fun m => List.replicate m (0 : UInt32)).Nodup := by
    refine List.Nodup.map ?_ List.nodup_range'
    intro m m' heq
    simpa using congrArg List.length heq
  have hle := (List.subperm_of_subset hnodup hsub).length_le
  rw [List.length_map, List.length_range'] at hle
  omega

/-- `generate_new_node_layered`: the search stops before there are more layers than nodes, and the gap it finds has
its parent and its lower siblings, which lie in layers above. -/
theorem generateNewNodeLayered_added (I : Itertools) {tree : KeyTreeOf N} (h : tree.Closed) (K : KeyTreeNode N)
    {fuel : Nat} (hfuel : tree.keyMap.keys.length < fuel) :
    ∃ tree' cci, generateNewNodeLayered K I fuel tree = .some (.some (tree', cci)) ∧ Added tree tree' cci := by
  obtain ⟨m, hpos, hle, hgap⟩ := exists_replicate_free tree
  have hroot : ∀ i, layer i < 1 → i ∈ tree.keyMap := by
    intro i hi
    have hnil : i = [] := List.eq_nil_of_length_eq_zero (by have := length_le_layer i; omega)
    exact hnil ▸ h.root
  obtain ⟨i, hfind, hfree, hbelow⟩ := findNextSlotLayered_found I hgap (show m < 1 + fuel by omega) hpos hroot
  obtain ⟨p, c, rfl⟩ : ∃ p c, i = nthChild p c := by
    rcases List.eq_nil_or_concat i with rfl | ⟨p, c, hi⟩
    · exact absurd h.root hfree
    · exact ⟨p, c, by rw [hi, nthChild, List.concat_eq_append]⟩
  have hparent : p ∈ tree.keyMap := hbelow p (by rw [layer_nthChild]; omega)
  obtain ⟨parentKeys, hlook⟩ := Option.isSome_iff_exists.mp (AList.lookup_isSome.mpr hparent)
  refine ⟨tree.insertNode K (nthChild p c) (K.deriveChild parentKeys c), nthChild p c, ?_, ?_⟩
  · have hlast : (nthChild p c).getLast? = .some c := by simp [nthChild]
    simp only [generateNewNodeLayered, hfind, Option.map_some, fillNode, parent_nthChild, hlook, hlast,
      Option.bind_eq_bind, Option.bind_some, Option.pure_def]
  · refine h.added K _ hfree hparent ?_
    intro c' hlt
    refine hbelow _ ?_
    rw [UInt32.lt_iff_toNat_lt] at hlt
    rw [layer_nthChild, layer_nthChild]
    omega

end KeyTreeOf

end Lez.Wallet
