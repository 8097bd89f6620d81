/-
Restoring the keys of a wallet (`execute_keys_restoration`): the trees are
generated down to a depth, the chain is read, and the places not in use are
removed layer by layer from the deepest one up, until the first place in use.
What is left has no gaps, and new keys can be added to it.
-/
import Lez.Wallet.KeyTree
import Lez.Wallet.Reachable

open Lez.Arrangements Lez.Worklist

namespace Lez.Wallet

open ChainIndex

/-- A node of the public tree has one account. -/
structure PublicTreeNode (N : Type) extends KeyTreeNode N where
  accountId : N → AccountId
  accountIds_eq : ∀ node, accountIds node = [accountId node]

namespace KeyTreeOf

variable {N : Type}

section
variable (K : KeyTreeNode N)

/-- The inner loop of `generate_tree_for_depth`, with what it pushes on the stack, the last push first. -/
def growChildren (depth : UInt32) (currId : ChainIndex) :
    Nat → KeyTreeOf N → ChainIndex → List ChainIndex → Option (KeyTreeOf N × List ChainIndex)
  | 0, _, _, _ => .none
  | fuel + 1, tree, nextId, pushed => do
    if (← ChainIndex.depth nextId) < depth then
      let tree := ((← generateNewNode K 64 tree currId).map (·.1)).getD tree
      match nextInLine nextId with
      | .some id => growChildren depth currId fuel tree id (nextId :: pushed)
      | .none => return (tree, nextId :: pushed)
    else return (tree, pushed)

/-- `none` is a call that panics or does not return. -/
def generateTreeForDepth (depth : UInt32) (tree : KeyTreeOf N) : Option (KeyTreeOf N) :=
  Worklist.drain (fun tree currId => growChildren K depth currId (depth.toNat + 1) tree (nthChild currId 0) [])
    (2 ^ depth.toNat) [[]] tree

end

/-- The places in the order of `cleanup_tree_remove_uninit_layered`: `(1..depth).rev()`, layer by layer. -/
def cleanupIds (I : Itertools) (depth : UInt32) : Option (List ChainIndex) :=
  ((List.range' 1 (depth.toNat - 1)).reverse.mapM (chainIdsAtDepth I)).map List.flatten

/-- `remove`. -/
def remove (tree : KeyTreeOf N) (addr : AccountId) : KeyTreeOf N :=
  match tree.accountIdMap.lookup addr with
  | .none => tree
  | .some chainIndex => ⟨tree.keyMap.erase chainIndex, tree.accountIdMap.erase addr⟩

/-- One place of the public cleanup; `get_account` may fail. -/
def cleanupPublicNode (K : PublicTreeNode N) (getAccount : AccountId → Option Account) (tree : KeyTreeOf N)
    (id : ChainIndex) : Visit (KeyTreeOf N) :=
  match tree.keyMap.lookup id with
  | .none => .next tree
  | .some node =>
    match getAccount (K.accountId node) with
    | .none => .fail
    | .some nodeAcc => if nodeAcc = Account.default then .next (tree.remove (K.accountId node)) else .leave

/-- `cleanup_tree_remove_uninit_layered` of the public tree: the tree it leaves, and whether it returned `Ok`. -/
def cleanupPublic (K : PublicTreeNode N) (I : Itertools) (getAccount : AccountId → Option Account) (depth : UInt32)
    (tree : KeyTreeOf N) : Option (KeyTreeOf N × Bool) :=
  (cleanupIds I depth).map fun ids => walk (cleanupPublicNode K getAccount) ids tree

/-- A private node without a synced account. -/
def uninit (node : ChildKeysPrivate) : Bool := node.accounts.toPairs.all fun p => p.2 = Account.default

/-- One place of the private cleanup. -/
def cleanupPrivateNode (H : WalletHost) (tree : KeyTreeOf ChildKeysPrivate) (id : ChainIndex) :
    Visit (KeyTreeOf ChildKeysPrivate) :=
  match tree.keyMap.lookup id with
  | .none => .next tree
  | .some node =>
    if uninit node then
      .next ⟨tree.keyMap.erase id, (node.accountIds H).foldl (fun ids id => ids.erase id) tree.accountIdMap⟩
    else .leave

/-- `cleanup_tree_remove_uninit_layered` of the private tree. -/
def cleanupPrivate (H : WalletHost) (I : Itertools) (depth : UInt32) (tree : KeyTreeOf ChildKeysPrivate) :
    Option (KeyTreeOf ChildKeysPrivate) :=
  (cleanupIds I depth).map fun ids => (walk (cleanupPrivateNode H) ids tree).1

/-- One place is cleaned up as `remove_uninit` of the private tree does it. -/
theorem cleanupPrivateNode_generic {H : WalletHost} {tree : KeyTree} {i : ChainIndex} {node : ChildKeysPrivate}
    (hnode : tree.keyMap.lookup i = .some node) : cleanupPrivateNode H tree.generic i =
      match tree.removeUninit H i with
      | .some cleaned => .next cleaned.generic
      | .none => .leave := by
  have hgeneric : tree.generic.keyMap.lookup i = .some node := hnode
  have hremove : tree.removeUninit H i = if uninit node then
      .some ⟨tree.keyMap.erase i, (node.accountIds H).foldl (fun ids id => ids.erase id) tree.accountIdMap⟩
      else .none := by
    simp only [KeyTree.removeUninit, hnode, Option.bind_eq_bind, Option.bind_some]
    rfl
  simp only [cleanupPrivateNode, hgeneric, hremove]
  by_cases huninit : uninit node = true
  · simp only [if_pos huninit, KeyTree.generic]
  · simp only [if_neg huninit]

/-! ## Generation -/

/-- The keys that the path to a place derives from the root. -/
def nodeAt (K : KeyTreeNode N) (root : N) (i : ChainIndex) : N := i.foldl K.deriveChild root

def childrenFrom (p : ChainIndex) (n k : Nat) : List ChainIndex :=
  (List.range' n k).map fun c => nthChild p (.ofNat c)

theorem mem_childrenFrom {p i : ChainIndex} {n k : Nat} (hfits : n + k ≤ 2 ^ 32) :
    i ∈ childrenFrom p n k ↔ ∃ c : UInt32, n ≤ c.toNat ∧ c.toNat < n + k ∧ i = nthChild p c := by
  simp only [childrenFrom, List.mem_map, List.mem_range'_1]
  constructor
  · rintro ⟨c, ⟨hlo, hhi⟩, rfl⟩
    have hval : (UInt32.ofNat c).toNat = c := UInt32.toNat_ofNat_of_lt' (show c < 2 ^ 32 by omega)
    exact ⟨.ofNat c, by omega, by omega, rfl⟩
  · rintro ⟨c, hlo, hhi, rfl⟩
    exact ⟨c.toNat, ⟨hlo, hhi⟩, by rw [UInt32.ofNat_toNat]⟩

theorem nodup_childrenFrom {p : ChainIndex} {n k : Nat} (hfits : n + k ≤ 2 ^ 32) : (childrenFrom p n k).Nodup := by
  refine List.Nodup.map_on ?_ List.nodup_range'
  intro c hc c' hc' heq
  rw [List.mem_range'_1] at hc hc'
  have hval := congrArg UInt32.toNat (nthChild_injective heq).2
  rwa [UInt32.toNat_ofNat_of_lt' (show c < 2 ^ 32 by omega),
    UInt32.toNat_ofNat_of_lt' (show c' < 2 ^ 32 by omega)] at hval

theorem childrenFrom_succ (p : ChainIndex) (n k : Nat) :
    childrenFrom p n (k + 1) = nthChild p (.ofNat n) :: childrenFrom p (n + 1) k := by
  simp [childrenFrom, List.range'_succ]

/-- How many places a place can bring on the stack, itself included. -/
def places (d : Nat) (i : ChainIndex) : Nat := 2 ^ (d - layer i)

theorem work_childrenFrom {d k : Nat} {p : ChainIndex} : ∀ {n : Nat}, layer p + n + k + 1 = d → d < 2 ^ 32 →
    work (places d) (childrenFrom p n k) + 2 = 2 ^ (k + 1) := by
  induction k with
  | zero =>
    intro n _ _
    rfl
  | succ k ih =>
    intro n hd hfits
    have hval : (UInt32.ofNat n).toNat = n := UInt32.toNat_ofNat_of_lt' (show n < 2 ^ 32 by omega)
    have hplaces : places d (nthChild p (.ofNat n)) = 2 ^ (k + 1) := by
      rw [places, layer_nthChild, hval]
      congr 1
      omega
    have hrest := ih (n := n + 1) (by omega) hfits
    rw [childrenFrom_succ, work, List.map_cons, List.sum_cons, hplaces, Nat.add_assoc]
    rw [work] at hrest
    rw [hrest, Nat.pow_succ 2 (k + 1)]
    omega

theorem Children.insertNode {tree : KeyTreeOf N} {p : ChainIndex} {n : Nat} (h : tree.Children p n)
    (hn : n < 2 ^ 32) (K : KeyTreeNode N) (node : N) :
    (tree.insertNode K (nthChild p (.ofNat n)) node).Children p (n + 1) := by
  intro c
  have hval : (UInt32.ofNat n).toNat = n := UInt32.toNat_ofNat_of_lt' hn
  have hnew : nthChild p c = nthChild p (.ofNat n) ↔ c.toNat = n := by
    constructor
    · intro heq
      rw [(nthChild_injective heq).2, hval]
    · intro heq
      rw [UInt32.toNat_inj.mp (heq.trans hval.symm)]
  have hmem := h c
  rw [show nthChild p c ∈ (tree.insertNode K (nthChild p (.ofNat n)) node).keyMap ↔ _ from AList.mem_insert _, hnew,
    hmem]
  omega

section
variable {K : KeyTreeNode N} {d : UInt32} {P : KeyTreeOf N → Prop}

/-- What the trees are built by: a derived child at a free place above the depth. -/
def KeptByChildren (K : KeyTreeNode N) (d : UInt32) (P : KeyTreeOf N → Prop) : Prop :=
  ∀ {tree : KeyTreeOf N} {p : ChainIndex} {c : UInt32} {keys : N}, P tree → tree.keyMap.lookup p = .some keys →
    nthChild p c ∉ tree.keyMap → layer (nthChild p c) < d.toNat →
    P (tree.insertNode K (nthChild p c) (K.deriveChild keys c))

/-- The inner loop, with `k` children to go. -/
theorem growChildren_grows (hP : KeptByChildren K d P) {p : ChainIndex} {k : Nat} :
    ∀ {fuel n : Nat} {tree : KeyTreeOf N} {pushed : List ChainIndex}, k < fuel → tree.Closed → P tree →
      p ∈ tree.keyMap → tree.Children p n → layer p + n + k + 1 = d.toNat →
      ∃ tree', growChildren K d p fuel tree (nthChild p (.ofNat n)) pushed =
          .some (tree', (childrenFrom p n k).reverse ++ pushed) ∧ tree'.Closed ∧ P tree' ∧
        ∀ i, i ∈ tree'.keyMap ↔ i ∈ tree.keyMap ∨ i ∈ childrenFrom p n k := by
  induction k with
  | zero =>
    intro fuel n tree pushed hfuel hclosed hkept _ _ hd
    obtain ⟨fuel, rfl⟩ : ∃ f, fuel = f + 1 := ⟨fuel - 1, by omega⟩
    have hlt := d.toNat_lt
    have hval : (UInt32.ofNat n).toNat = n := UInt32.toNat_ofNat_of_lt' (show n < 2 ^ 32 by omega)
    -- the next child lies at the depth: the loop is over
    have hdepth : ChainIndex.depth (nthChild p (.ofNat n)) = .some d :=
      (layer_eq_iff.mp (by rw [layer_nthChild, hval]; omega)).1
    refine ⟨tree, ?_, hclosed, hkept, fun i => by simp [childrenFrom]⟩
    rw [growChildren, hdepth, Option.bind_eq_bind, Option.bind_some, if_neg (UInt32.lt_irrefl d)]
    rfl
  | succ k ih =>
    intro fuel n tree pushed hfuel hclosed hkept hp hchildren hd
    obtain ⟨fuel, rfl⟩ : ∃ f, fuel = f + 1 := ⟨fuel - 1, by omega⟩
    have hlt := d.toNat_lt
    have hval : (UInt32.ofNat n).toNat = n := UInt32.toNat_ofNat_of_lt' (show n < 2 ^ 32 by omega)
    have hlayer : layer (nthChild p (.ofNat n)) < d.toNat := by
      rw [layer_nthChild, hval]
      omega
    obtain ⟨l, hl⟩ : ∃ l : UInt32, l.toNat = layer (nthChild p (.ofNat n)) :=
      ⟨.ofNat _, UInt32.toNat_ofNat_of_lt' (Nat.lt_trans hlayer hlt)⟩
    have hdepth : ChainIndex.depth (nthChild p (.ofNat n)) = .some l := (layer_eq_iff.mp hl.symm).1
    have hbelow : l < d := UInt32.lt_iff_toNat_lt.mpr (by omega)
    obtain ⟨keys, hkeys⟩ := Option.isSome_iff_exists.mp (AList.lookup_isSome.mpr hp)
    obtain ⟨tree', hrun, heq, hadded⟩ := generateNewNode_children hclosed K hkeys hchildren (by omega)
    obtain ⟨next, _, hnextval, hnext⟩ := nextInLine_nthChild (p := p) (a := .ofNat n) (by omega)
    have hnexteq : next = .ofNat (n + 1) := by
      rw [← UInt32.toNat_inj, hnextval, hval, UInt32.toNat_ofNat_of_lt' (show n + 1 < 2 ^ 32 by omega)]
    obtain ⟨tree'', hloop, hclosed', hkept', hmem⟩ := @ih fuel (n + 1) tree'
      (nthChild p (.ofNat n) :: pushed) (by omega) hadded.closed (heq ▸ hP hkept hkeys hadded.free hlayer)
      (heq ▸ (AList.mem_insert _).mpr (.inr hp)) (heq ▸ hchildren.insertNode (by omega) K _) (by omega)
    refine ⟨tree'', ?_, hclosed', hkept', ?_⟩
    · rw [growChildren, hdepth, Option.bind_eq_bind, Option.bind_some, if_pos hbelow, hrun]
      simp only [Option.bind_eq_bind, Option.bind_some, Option.map_some, Option.getD_some, hnext, hnexteq, hloop,
        childrenFrom_succ, List.reverse_cons, List.append_assoc, List.singleton_append]
    · intro i
      rw [hmem, heq, childrenFrom_succ, List.mem_cons,
        show i ∈ (tree.insertNode K (nthChild p (.ofNat n)) (K.deriveChild keys (.ofNat n))).keyMap ↔ _ from
          AList.mem_insert _]
      exact ⟨fun h => by rcases h with (h | h) | h <;> simp [h], fun h => by rcases h with h | h | h <;> simp [h]⟩

/-- What holds before each round of the outer loop: the places on the stack have no children yet, the others have
all that lie above the depth. -/
structure Growing (d : UInt32) (P : KeyTreeOf N → Prop) (stack : List ChainIndex) (tree : KeyTreeOf N) : Prop where
  closed : tree.Closed
  kept : P tree
  below : ∀ i ∈ tree.keyMap, layer i < d.toNat
  nodup : stack.Nodup
  stacked : ∀ i ∈ stack, i ∈ tree.keyMap ∧ ∀ c, nthChild i c ∉ tree.keyMap
  grown : ∀ i ∈ tree.keyMap, i ∈ stack ∨ ∀ c, layer (nthChild i c) < d.toNat → nthChild i c ∈ tree.keyMap

theorem Growing.round (hP : KeptByChildren K d P) {p : ChainIndex} {rest : List ChainIndex} {tree : KeyTreeOf N}
    (h : Growing d P (p :: rest) tree) : ∃ tree' pushed,
      growChildren K d p (d.toNat + 1) tree (nthChild p 0) [] = .some (tree', pushed) ∧
      Growing d P (pushed ++ rest) tree' ∧ work (places d.toNat) pushed < places d.toNat p := by
  obtain ⟨hp, hchildless⟩ := h.stacked p (List.mem_cons_self ..)
  have hlayer := h.below p hp
  have hfits := d.toNat_lt
  -- `k` is the number of children above the depth
  obtain ⟨k, hk⟩ : ∃ k, layer p + 0 + k + 1 = d.toNat := ⟨d.toNat - 1 - layer p, by omega⟩
  have hnone : tree.Children p 0 := fun c => ⟨fun hmem => absurd hmem (hchildless c), fun hlt => absurd hlt (by omega)⟩
  obtain ⟨tree', hrun, hclosed, hkept, hmem⟩ :=
    @growChildren_grows N K d P hP p k (d.toNat + 1) 0 tree [] (by omega) h.closed h.kept hp hnone hk
  have hnew : ∀ {i}, i ∈ childrenFrom p 0 k ↔ ∃ c : UInt32, c.toNat < k ∧ i = nthChild p c := by
    intro i
    simp [mem_childrenFrom (show 0 + k ≤ 2 ^ 32 by omega)]
  refine ⟨tree', _, hrun, ⟨hclosed, hkept, ?_, ?_, ?_, ?_⟩, ?_⟩
  · intro i hi
    rcases (hmem i).mp hi with hold | hchild
    · exact h.below i hold
    · obtain ⟨c, hc, rfl⟩ := hnew.mp hchild
      rw [layer_nthChild]
      omega
  · rw [List.append_nil, List.nodup_append]
    refine ⟨List.nodup_reverse.mpr (nodup_childrenFrom (by omega)), h.nodup.of_cons, ?_⟩
    intro i hi j hj heq
    obtain ⟨c, _, rfl⟩ := hnew.mp (List.mem_reverse.mp hi)
    exact hchildless c (heq ▸ (h.stacked j (List.mem_cons_of_mem _ hj)).1)
  · intro i hi
    rw [List.append_nil, List.mem_append, List.mem_reverse] at hi
    rcases hi with hi | hi
    · obtain ⟨c, hc, rfl⟩ := hnew.mp hi
      refine ⟨(hmem _).mpr (.inr hi), fun c' hgrand => ?_⟩
      rcases (hmem _).mp hgrand with hold | hchild
      · exact hchildless c (h.closed.parent hold)
      · obtain ⟨c'', _, heq⟩ := hnew.mp hchild
        have := congrArg List.length (nthChild_injective heq).1
        simp [nthChild] at this
    · obtain ⟨hin, hno⟩ := h.stacked i (List.mem_cons_of_mem _ hi)
      refine ⟨(hmem i).mpr (.inl hin), fun c hc => ?_⟩
      rcases (hmem _).mp hc with hold | hchild
      · exact hno c hold
      · obtain ⟨c', _, heq⟩ := hnew.mp hchild
        exact (List.nodup_cons.mp h.nodup).1 ((nthChild_injective heq).1 ▸ hi)
  · intro i hi
    rw [List.append_nil, List.mem_append, List.mem_reverse]
    rcases (hmem i).mp hi with hold | hchild
    · rcases h.grown i hold with hstack | hdone
      · rcases List.mem_cons.mp hstack with rfl | hrest
        · right
          intro c hc
          rw [layer_nthChild] at hc
          exact (hmem _).mpr (.inr (hnew.mpr ⟨c, by omega, rfl⟩))
        · exact .inl (.inr hrest)
      · exact .inr fun c hc => (hmem _).mpr (.inl (hdone c hc))
    · exact .inl (.inl hchild)
  · have hwork := work_childrenFrom (p := p) (n := 0) hk hfits
    have hplaces : places d.toNat p = 2 ^ (k + 1) := by
      rw [places]
      congr 1
      omega
    rw [List.append_nil, hplaces]
    have hreverse : work (places d.toNat) (childrenFrom p 0 k).reverse = work (places d.toNat) (childrenFrom p 0 k) := by
      simp [work, List.sum_reverse]
    omega

/-- **Generation**: the places above the depth, all of them, in a tree without gaps. -/
theorem generateTreeForDepth_exact (hP : KeptByChildren K d P) (root : N) (hd : 0 < d.toNat)
    (hroot : P (newFromRoot K root)) :
    ∃ tree, generateTreeForDepth K d (newFromRoot K root) = .some tree ∧ tree.Closed ∧ P tree ∧
      ∀ i, i ∈ tree.keyMap ↔ layer i < d.toNat := by
  have honly : ∀ i, i ∈ (newFromRoot K root).keyMap ↔ i = [] := by
    intro i
    exact (AList.mem_insert _).trans (or_iff_left (AList.notMem_empty i))
  have hchild : ∀ i c, nthChild i c ∉ (newFromRoot K root).keyMap := fun i c hmem => by
    simpa [nthChild] using (honly _).mp hmem
  have hstart : Growing d P [[]] (newFromRoot K root) := by
    refine ⟨⟨(honly []).mpr rfl, fun hmem => absurd hmem (hchild _ _), fun hmem => absurd hmem (hchild _ _)⟩, hroot,
      ?_, List.nodup_singleton _, ?_, ?_⟩
    · intro i hi
      rw [(honly i).mp hi]
      exact hd
    · intro i hi
      rw [List.mem_singleton.mp hi]
      exact ⟨(honly []).mpr rfl, hchild []⟩
    · intro i hi
      exact .inl (List.mem_singleton.mpr ((honly i).mp hi))
  have hwork : work (places d.toNat) [[]] ≤ 2 ^ d.toNat := by simp [work, places]
  obtain ⟨tree, hrun, hend⟩ := drain_total _ (Growing d P) (fun h => h.round hP) hstart hwork
  refine ⟨tree, hrun, hend.closed, hend.kept, fun i => ⟨hend.below i, ?_⟩⟩
  -- from the root down
  induction i using List.reverseRecOn with
  | nil => exact fun _ => hend.closed.root
  | append_singleton i c ih =>
    intro hlayer
    have hparent : layer i < d.toNat := by
      rw [layer_append] at hlayer
      omega
    rcases hend.grown i (ih hparent) with hstack | hdone
    · cases hstack
    · exact hdone c hlayer

end

/-! ## Cleanup -/

/-- The order of the cleanup: every place above the depth but the root, once, and no deeper place after one. -/
theorem cleanupIds_ordered (I : Itertools) {d : UInt32} : ∃ ids, cleanupIds I d = .some ids ∧ ids.Nodup ∧
    ids.Pairwise (fun i j => layer j ≤ layer i) ∧ ∀ i, i ∈ ids ↔ 1 ≤ layer i ∧ layer i < d.toNat := by
  have hlayers : ∀ n : Nat, ∃ idss, (List.range' 1 n).reverse.mapM (chainIdsAtDepth I) = .some idss ∧
      idss.flatten.Nodup ∧ idss.flatten.Pairwise (fun i j => layer j ≤ layer i) ∧
      ∀ i, i ∈ idss.flatten ↔ 1 ≤ layer i ∧ layer i < n + 1 := by
    intro n
    induction n with
    | zero => exact ⟨[], rfl, List.nodup_nil, .nil, fun i => by simp; omega⟩
    | succ n ih =>
      obtain ⟨idss, hrun, hnodup, hpair, hmem⟩ := ih
      obtain ⟨ids, hids, hnodup', hmem'⟩ := chainIdsAtDepth_complete I (n + 1)
      refine ⟨ids :: idss, ?_, ?_, ?_, ?_⟩
      · rw [List.range'_1_concat, List.reverse_append, List.reverse_singleton, List.singleton_append, List.mapM_cons,
          Nat.add_comm 1 n, hids, Option.bind_eq_bind, Option.bind_some, hrun]
        rfl
      · rw [List.flatten_cons, List.nodup_append]
        refine ⟨hnodup', hnodup, fun i hi j hj heq => ?_⟩
        have hi := (hmem' i).mp hi
        have hj := (hmem j).mp hj
        rw [heq] at hi
        omega
      · rw [List.flatten_cons, List.pairwise_append]
        refine ⟨List.pairwise_of_forall_mem_list fun i hi j hj => ?_, hpair, fun i hi j hj => ?_⟩
        · rw [(hmem' i).mp hi, (hmem' j).mp hj]
        · have hi := (hmem' i).mp hi
          have hj := (hmem j).mp hj
          omega
      · intro i
        rw [List.flatten_cons, List.mem_append, hmem', hmem]
        omega
  obtain ⟨idss, hrun, hnodup, hpair, hmem⟩ := hlayers (d.toNat - 1)
  refine ⟨idss.flatten, by rw [cleanupIds, hrun]; rfl, hnodup, hpair, fun i => ?_⟩
  rw [hmem]
  omega

/-- What a cleanup does: nodes stay as they are or go, those that go were not in use, and no gap is left. -/
structure Cleaned (unused : N → Prop) (tree cleaned : KeyTreeOf N) : Prop where
  kept : ∀ {i node}, cleaned.keyMap.lookup i = .some node → tree.keyMap.lookup i = .some node
  removed : ∀ {i node}, tree.keyMap.lookup i = .some node → i ∉ cleaned.keyMap → unused node
  closed : cleaned.Closed

/-- A visit that goes on has removed the place it visited, which was not in use, and nothing else. -/
def RemovesUnused (unused : N → Prop) (P : KeyTreeOf N → Prop)
    (visit : KeyTreeOf N → ChainIndex → Visit (KeyTreeOf N)) : Prop :=
  ∀ {tree tree' : KeyTreeOf N} {i : ChainIndex} {node : N}, P tree → tree.keyMap.lookup i = .some node →
    visit tree i = .next tree' → unused node ∧ P tree' ∧ tree'.keyMap = tree.keyMap.erase i

/-- What holds during a walk: left are the root and the places not visited yet. -/
structure Sweeping (unused : N → Prop) (P : KeyTreeOf N → Prop) (tree : KeyTreeOf N) (rest : List ChainIndex)
    (s : KeyTreeOf N) : Prop where
  nodup : rest.Nodup
  noRoot : [] ∉ rest
  holds : P s
  left : ∀ i, i ∈ s.keyMap ↔ i = [] ∨ i ∈ rest
  kept : ∀ {i node}, s.keyMap.lookup i = .some node → tree.keyMap.lookup i = .some node
  removed : ∀ {i node}, tree.keyMap.lookup i = .some node → i ∉ s.keyMap → unused node

theorem Sweeping.visit {unused : N → Prop} {P : KeyTreeOf N → Prop}
    {visit : KeyTreeOf N → ChainIndex → Visit (KeyTreeOf N)} (hvisit : RemovesUnused unused P visit)
    {tree s s' : KeyTreeOf N} {i : ChainIndex} {rest : List ChainIndex} (h : Sweeping unused P tree (i :: rest) s)
    (hnext : visit s i = .next s') : Sweeping unused P tree rest s' := by
  obtain ⟨node, hnode⟩ := Option.isSome_iff_exists.mp
    (AList.lookup_isSome.mpr ((h.left i).mpr (.inr (List.mem_cons_self ..))))
  obtain ⟨hunused, hP, hmap⟩ := hvisit h.holds hnode hnext
  obtain ⟨hnot, hnodup⟩ := List.nodup_cons.mp h.nodup
  refine ⟨hnodup, fun hroot => h.noRoot (List.mem_cons_of_mem _ hroot), hP, ?_, ?_, ?_⟩
  · intro j
    rw [hmap, AList.mem_erase, h.left, List.mem_cons]
    constructor
    · rintro ⟨hne, hj | hj | hj⟩
      · exact .inl hj
      · exact absurd hj hne
      · exact .inr hj
    · rintro (rfl | hj)
      · exact ⟨fun heq => h.noRoot (heq ▸ List.mem_cons_self ..), .inl rfl⟩
      · exact ⟨fun heq => hnot (heq ▸ hj), .inr (.inr hj)⟩
  · intro j node' hlook
    rw [hmap] at hlook
    by_cases hji : j = i
    · rw [hji, AList.lookup_erase] at hlook
      cases hlook
    · rw [AList.lookup_erase_ne hji] at hlook
      exact h.kept hlook
  · intro j node' hlook hgone
    by_cases hji : j = i
    · rw [hji, h.kept hnode] at hlook
      cases hlook
      exact hunused
    · exact h.removed hlook fun hin => hgone (by rw [hmap, AList.mem_erase]; exact ⟨hji, hin⟩)

theorem eq_nil_of_layer_eq_zero {i : ChainIndex} (h : layer i = 0) : i = [] :=
  List.eq_nil_of_length_eq_zero (Nat.le_zero.mp (h ▸ length_le_layer i))

/-- **Cleanup**: layers go from the deepest up, and a parent and a lower sibling lie in layers above. -/
theorem walk_cleaned (I : Itertools) {unused : N → Prop} {P : KeyTreeOf N → Prop}
    {visit : KeyTreeOf N → ChainIndex → Visit (KeyTreeOf N)} (hvisit : RemovesUnused unused P visit)
    {tree : KeyTreeOf N} {d : UInt32} (hd : 0 < d.toNat) (hP : P tree)
    (hall : ∀ i, i ∈ tree.keyMap ↔ layer i < d.toNat) :
    ∃ ids, cleanupIds I d = .some ids ∧ Cleaned unused tree (walk visit ids tree).1 := by
  obtain ⟨ids, hids, hnodup, hpair, hmem⟩ := cleanupIds_ordered I (d := d)
  have hstart : Sweeping unused P tree ids tree := by
    refine ⟨hnodup, fun h => absurd ((hmem []).mp h).1 (by simp), hP, fun i => ?_, fun h => h, fun hlook hgone => ?_⟩
    · rw [hall, hmem]
      constructor
      · intro hi
        rcases Nat.eq_zero_or_pos (layer i) with hz | hpos
        · exact .inl (eq_nil_of_layer_eq_zero hz)
        · exact .inr ⟨hpos, hi⟩
      · rintro (rfl | h)
        · exact hd
        · exact h.2
    · exact absurd (AList.lookup_isSome.mp (by rw [hlook]; rfl)) hgone
  obtain ⟨visited, rest, hsplit, hend⟩ := walk_invariant _ (fun h hnext => h.visit hvisit hnext) hstart
  have hshallower : ∀ i j, j ∈ rest → layer i < layer j → i = [] ∨ i ∈ rest := by
    intro i j hj hlt
    rcases Nat.eq_zero_or_pos (layer i) with hz | hpos
    · exact .inl (eq_nil_of_layer_eq_zero hz)
    · have hjids : j ∈ ids := hsplit ▸ List.mem_append_right _ hj
      have hi : i ∈ ids := (hmem i).mpr ⟨hpos, Nat.lt_trans hlt ((hmem j).mp hjids).2⟩
      rw [hsplit] at hi hpair
      rcases List.mem_append.mp hi with hvisited | hrest
      · exact absurd ((List.pairwise_append.mp hpair).2.2 i hvisited j hj) (by omega)
      · exact .inr hrest
  have hchild : ∀ {i c}, nthChild i c ∈ (walk visit ids tree).1.keyMap → nthChild i c ∈ rest := by
    intro i c h
    rcases (hend.left _).mp h with h | h
    · simp [nthChild] at h
    · exact h
  refine ⟨ids, hids, hend.kept, hend.removed, ⟨(hend.left []).mpr (.inl rfl), ?_, ?_⟩⟩
  · intro i c h
    exact (hend.left i).mpr (hshallower i _ (hchild h) (by rw [layer_nthChild]; omega))
  · intro i c c' h hlt
    refine (hend.left _).mpr (hshallower _ _ (hchild h) ?_)
    rw [UInt32.lt_iff_toNat_lt] at hlt
    rw [layer_nthChild, layer_nthChild]
    omega

/-! ## The private tree -/

theorem cleanupPrivateNode_removes (H : WalletHost) :
    RemovesUnused (uninit · = true) (fun _ => True) (cleanupPrivateNode H) := by
  intro tree tree' i node _ hnode hnext
  simp only [cleanupPrivateNode, hnode] at hnext
  split at hnext
  next huninit =>
    cases hnext
    exact ⟨huninit, trivial, rfl⟩
  next => cases hnext

/-! ## The public tree -/

/-- Different places above the depth have different accounts. -/
def Distinct (K : PublicTreeNode N) (root : N) (d : UInt32) : Prop :=
  ∀ {i j : ChainIndex}, layer i < d.toNat → layer j < d.toNat →
    K.accountId (nodeAt K.toKeyTreeNode root i) = K.accountId (nodeAt K.toKeyTreeNode root j) → i = j

/-- The id of a node leads back to its place. -/
def Indexed (K : PublicTreeNode N) (tree : KeyTreeOf N) : Prop :=
  ∀ {i node}, tree.keyMap.lookup i = .some node → tree.accountIdMap.lookup (K.accountId node) = .some i

theorem cleanupPublicNode_removes (K : PublicTreeNode N) (getAccount : AccountId → Option Account) :
    RemovesUnused (fun node => getAccount (K.accountId node) = .some Account.default) (Indexed K)
      (cleanupPublicNode K getAccount) := by
  intro tree tree' i node hindexed hnode hnext
  simp only [cleanupPublicNode, hnode] at hnext
  split at hnext
  next => cases hnext
  next nodeAcc hacc =>
    split at hnext
    next hdefault =>
      cases hnext
      refine ⟨hdefault ▸ hacc, ?_, by rw [remove, hindexed hnode]⟩
      intro j node' hlook
      rw [remove, hindexed hnode] at hlook ⊢
      by_cases hji : j = i
      · rw [hji, AList.lookup_erase] at hlook
        cases hlook
      · rw [AList.lookup_erase_ne hji] at hlook
        have hne : K.accountId node' ≠ K.accountId node := by
          intro heq
          have hj := hindexed hlook
          rw [heq, hindexed hnode] at hj
          exact hji (Option.some.inj hj).symm
        rw [AList.lookup_erase_ne hne]
        exact hindexed hlook
    next => cases hnext

/-- Nodes are derived from the root, lie above the depth, and are indexed by their accounts. -/
def Restored (K : PublicTreeNode N) (root : N) (d : UInt32) (tree : KeyTreeOf N) : Prop :=
  ∀ {i node}, tree.keyMap.lookup i = .some node →
    node = nodeAt K.toKeyTreeNode root i ∧ layer i < d.toNat ∧ tree.accountIdMap.lookup (K.accountId node) = .some i

theorem restored_kept {K : PublicTreeNode N} {root : N} {d : UInt32} (hdistinct : Distinct K root d) :
    KeptByChildren K.toKeyTreeNode d (Restored K root d) := by
  intro tree p c keys h hkeys _ hlayer i node hlook
  have hnew : K.deriveChild keys c = nodeAt K.toKeyTreeNode root (nthChild p c) := by
    rw [(h hkeys).1, nodeAt, nodeAt, nthChild, List.foldl_append]
    rfl
  have hmap : (tree.insertNode K.toKeyTreeNode (nthChild p c) (K.deriveChild keys c)).accountIdMap =
      tree.accountIdMap.insert (K.accountId (K.deriveChild keys c)) (nthChild p c) := by
    simp only [insertNode, K.accountIds_eq]
    rfl
  by_cases hi : i = nthChild p c
  · subst hi
    cases (AList.lookup_insert _).symm.trans hlook
    exact ⟨hnew, hlayer, by rw [hmap, AList.lookup_insert]⟩
  · obtain ⟨hnode, hbelow, hindexed⟩ := h ((AList.lookup_insert_ne hi).symm.trans hlook)
    refine ⟨hnode, hbelow, ?_⟩
    have hne : K.accountId node ≠ K.accountId (K.deriveChild keys c) := by
      rw [hnode, hnew]
      exact fun heq => hi (hdistinct hbelow hlayer heq)
    rw [hmap, AList.lookup_insert_ne hne, hindexed]

theorem restored_newFromRoot (K : PublicTreeNode N) (root : N) {d : UInt32} (hd : 0 < d.toNat) :
    Restored K root d (newFromRoot K.toKeyTreeNode root) := by
  intro i node hlook
  by_cases hi : i = []
  · subst hi
    cases (AList.lookup_insert _).symm.trans hlook
    refine ⟨rfl, hd, ?_⟩
    simp only [newFromRoot, K.accountIds_eq]
    exact AList.lookup_insert _
  · rw [newFromRoot, AList.lookup_insert_ne hi] at hlook
    cases hlook

/-! ## Restoration -/

/-- **Restoring the keys is safe.** From a root alone, exactly the places whose depth as an exact sum is below `d`
are generated; the cleanup of either tree removes only nodes whose accounts are all default and leaves no gap,
whatever the accounts are; and on every tree without gaps new nodes can be added, below any node that has room for a
child or in the first gap of the layers, without overwriting one and without leaving a gap. -/
theorem key_restoration_safe (H : WalletHost) (I : Itertools) (K : PublicTreeNode N) (root : N)
    (privateRoot : ChildKeysPrivate) (getAccount : AccountId → Option Account) {d : UInt32} (hd : 1 ≤ d) :
    (∃ tree, generateTreeForDepth K.toKeyTreeNode d (newFromRoot K.toKeyTreeNode root) = .some tree ∧
      (∀ i, i ∈ tree.keyMap ↔ layer i < d.toNat) ∧
      (Distinct K root d → ∃ cleaned ok, cleanupPublic K I getAccount d tree = .some (cleaned, ok) ∧
        Cleaned (fun node => getAccount (K.accountId node) = .some Account.default) tree cleaned)) ∧
    (∃ tree, generateTreeForDepth (ChildKeysPrivate.treeNode H) d (newFromRoot (ChildKeysPrivate.treeNode H)
        privateRoot) = .some tree ∧ ∀ i, i ∈ tree.keyMap ↔ layer i < d.toNat) ∧
    (∀ synced : KeyTreeOf ChildKeysPrivate, (∀ i, i ∈ synced.keyMap ↔ layer i < d.toNat) →
      ∃ cleaned, cleanupPrivate H I d synced = .some cleaned ∧ Cleaned (uninit · = true) synced cleaned) ∧
    (∀ {M : Type} (L : KeyTreeNode M) (tree : KeyTreeOf M), tree.Closed →
      (∀ p ∈ tree.keyMap, (∃ c, nthChild p c ∉ tree.keyMap) →
        ∃ tree' c, generateNewNode L 64 tree p = .some (.some (tree', nthChild p c)) ∧
          Added tree tree' (nthChild p c)) ∧
      ∃ fuel tree' cci, generateNewNodeLayered L I fuel tree = .some (.some (tree', cci)) ∧ Added tree tree' cci) := by
  have hd : 0 < d.toNat := UInt32.le_iff_toNat_le.mp hd
  refine ⟨?_, ?_, ?_, ?_⟩
  · obtain ⟨tree, hrun, _, _, hall⟩ := generateTreeForDepth_exact (K := K.toKeyTreeNode) (P := fun _ => True)
      (fun _ _ _ _ => trivial) root hd trivial
    refine ⟨tree, hrun, hall, fun hdistinct => ?_⟩
    obtain ⟨tree', hrun', _, hrestored, _⟩ :=
      generateTreeForDepth_exact (restored_kept hdistinct) root hd (restored_newFromRoot K root hd)
    cases hrun.symm.trans hrun'
    obtain ⟨ids, hids, hcleaned⟩ := walk_cleaned I (cleanupPublicNode_removes K getAccount) hd
      (fun hlook => (hrestored hlook).2.2) hall
    exact ⟨_, _, by rw [cleanupPublic, hids]; rfl, hcleaned⟩
  · obtain ⟨tree, hrun, _, _, hall⟩ := generateTreeForDepth_exact (K := ChildKeysPrivate.treeNode H)
      (P := fun _ => True) (fun _ _ _ _ => trivial) privateRoot hd trivial
    exact ⟨tree, hrun, hall⟩
  · intro synced hall
    obtain ⟨ids, hids, hcleaned⟩ := walk_cleaned I (cleanupPrivateNode_removes H) hd trivial hall
    exact ⟨_, by rw [cleanupPrivate, hids]; rfl, hcleaned⟩
  · intro M L tree hclosed
    refine ⟨fun p hp hroom => generateNewNode_added hclosed L hp hroom, ?_⟩
    obtain ⟨tree', cci, hrun, hadded⟩ := generateNewNodeLayered_added I hclosed L (Nat.lt_succ_self _)
    exact ⟨_, tree', cci, hrun, hadded⟩

namespace Sample

open Wallet.Sample (polynomial)

/-- Keys derived by a hash of the parent's, and accounts by a hash of the keys. -/
def publicNode : PublicTreeNode Bytes32 where
  deriveChild := fun keys cci => polynomial 4 (keys.toList ++ toBe 4 cci.toNat)
  accountIds := fun keys => [polynomial 5 keys.toList]
  accountId := fun keys => polynomial 5 keys.toList
  accountIds_eq := fun _ => rfl

theorem publicNode_distinct : Distinct publicNode (ByteVec.fill 32 7) 3 := by
  have hplaces : ∀ i : ChainIndex, layer i < (3 : UInt32).toNat → i ∈ ([[], [0, 0], [1], [0]] : List ChainIndex) := by
    intro i hi
    obtain ⟨ids, hids, _, _, hmem⟩ := cleanupIds_ordered positional (d := 3)
    cases (show cleanupIds positional 3 = .some [[0, 0], [1], [0]] by decide +kernel).symm.trans hids
    rcases Nat.eq_zero_or_pos (layer i) with hz | hpos
    · rw [eq_nil_of_layer_eq_zero hz]
      exact List.mem_cons_self ..
    · exact List.mem_cons_of_mem _ ((hmem i).mpr ⟨hpos, hi⟩)
  have hids : ∀ i ∈ ([[], [0, 0], [1], [0]] : List ChainIndex), ∀ j ∈ ([[], [0, 0], [1], [0]] : List ChainIndex),
      publicNode.accountId (nodeAt publicNode.toKeyTreeNode (ByteVec.fill 32 7) i) =
        publicNode.accountId (nodeAt publicNode.toKeyTreeNode (ByteVec.fill 32 7) j) → i = j := by
    decide +kernel
  intro i j hi hj
  exact hids i (hplaces i hi) j (hplaces j hj)

end Sample

open KeyTreeOf.Sample Wallet.Sample

/-- Restored to depth 3, cleaned up with every account in use, and one key more. -/
theorem restored_to_three : ∃ tree cleaned ok tree' cci,
    generateTreeForDepth publicNode.toKeyTreeNode 3 (newFromRoot publicNode.toKeyTreeNode (ByteVec.fill 32 7)) =
      .some tree ∧
    cleanupPublic publicNode positional (fun _ => .some { Account.default with balance := 1 }) 3 tree =
      .some (cleaned, ok) ∧
    generateNewNode publicNode.toKeyTreeNode 64 cleaned [] = .some (.some (tree', cci)) ∧
    Added cleaned tree' cci := by
  obtain ⟨⟨tree, hrun, hall, hclean⟩, _, _, hnew⟩ := key_restoration_safe (walletHost {}) positional publicNode
    (ByteVec.fill 32 7) (.root (walletHost {}) walletSeed) (fun _ => .some { Account.default with balance := 1 })
    (show (1 : UInt32) ≤ 3 by decide)
  obtain ⟨cleaned, ok, hcleanup, hcleaned⟩ := hclean publicNode_distinct
  -- the root has no more children than the depth allows
  have hroom : nthChild [] 7 ∉ cleaned.keyMap := by
    intro hmem
    obtain ⟨node, hnode⟩ := Option.isSome_iff_exists.mp (AList.lookup_isSome.mpr hmem)
    have hin : nthChild [] 7 ∈ tree.keyMap := AList.lookup_isSome.mp (by rw [hcleaned.kept hnode]; rfl)
    exact absurd ((hall _).mp hin) (by decide)
  obtain ⟨tree', c, hgenerate, hadded⟩ := (hnew publicNode.toKeyTreeNode cleaned hcleaned.closed).1 []
    hcleaned.closed.root ⟨7, hroom⟩
  exact ⟨tree, cleaned, ok, tree', _, hrun, hcleanup, hgenerate, hadded⟩

/-! The search does not return when every child is there. -/

theorem searchLoop_full {tree : KeyTreeOf N} {p : ChainIndex} (hchildren : tree.Children p (2 ^ 32)) :
    ∀ {fuel : Nat} {b : Borders}, b.right = 0xFFFFFFFE → b.rightBorder = 0xFFFFFFFF →
      searchLoop tree p fuel b = .none := by
  intro fuel
  induction fuel with
  | zero => exact fun _ _ => rfl
  | succ fuel ih =>
    intro b hright hborder
    have hprobe : b.right.toNat + 1 < 2 ^ 32 := by
      rw [hright]
      decide
    rw [searchLoop_inside hchildren hprobe hprobe]
    refine ih ?_ hborder
    simp only [hright, hborder]
    decide

/-- A root with its first children. -/
def Sample.crowded (n : Nat) : KeyTreeOf Unit :=
  ⟨Table.writeAll ((∅ : Table ChainIndex Unit).insert [] ()) ((childrenFrom [] 0 n).map fun i => (i, ())), ∅⟩

theorem mem_crowded {n : Nat} {i : ChainIndex} : i ∈ (crowded n).keyMap ↔ i = [] ∨ i ∈ childrenFrom [] 0 n := by
  rw [crowded, Table.mem_writeAll, AList.mem_insert, or_iff_left (AList.notMem_empty i), List.map_map]
  simp only [Function.comp_def, List.map_id']

/-- A tree without gaps whose root has all its children: the next child is never found. -/
theorem crowded_root_never_returns : (crowded (2 ^ 32)).Closed ∧ [] ∈ (crowded (2 ^ 32)).keyMap ∧
    ∀ fuel, generateNewNode ⟨fun _ _ => (), fun _ => []⟩ fuel (crowded (2 ^ 32)) [] = .none := by
  have hroot : [] ∈ (crowded (2 ^ 32)).keyMap := mem_crowded.mpr (.inl rfl)
  have hall : ∀ c, nthChild [] c ∈ (crowded (2 ^ 32)).keyMap := fun c =>
    mem_crowded.mpr (.inr ((mem_childrenFrom (by decide)).mpr ⟨c, Nat.zero_le _, by simpa using c.toNat_lt, rfl⟩))
  have honly : ∀ {i c}, nthChild i c ∈ (crowded (2 ^ 32)).keyMap → i = [] := by
    intro i c hmem
    rcases mem_crowded.mp hmem with hnil | hchild
    · simp [nthChild] at hnil
    · obtain ⟨c', _, _, heq⟩ := (mem_childrenFrom (by decide)).mp hchild
      exact (nthChild_injective heq).1
  have hchildren : (crowded (2 ^ 32)).Children [] (2 ^ 32) := fun c => ⟨fun _ => c.toNat_lt, fun _ => hall c⟩
  refine ⟨⟨hroot, fun hmem => honly hmem ▸ hroot, fun {_ _ c'} hmem _ => honly hmem ▸ hall c'⟩, hroot, fun fuel => ?_⟩
  obtain ⟨keys, hkeys⟩ := Option.isSome_iff_exists.mp (AList.lookup_isSome.mpr hroot)
  have hfind : findNextLastChildOfId fuel (crowded (2 ^ 32)) [] = .none := by
    rw [findNextLastChildOfId, if_neg (not_not.mpr hroot), if_neg (not_not.mpr (hall 0))]
    exact searchLoop_full hchildren rfl rfl
  rw [generateNewNode, hkeys, hfind]
  rfl

end KeyTreeOf

end Lez.Wallet
