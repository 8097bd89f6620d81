/-
What the indexer lists (`read_multiple`): blocks downwards from an id, and the
transactions of an account by their position. Both read a sequence of keys up
to the first that is not there. For blocks the sequence runs downwards, so an
id above the chain ends the listing before it begins; for accounts it runs
upwards, and a page goes by way of three tables: position to hash, hash to the
last block that has it, block to the transaction with that hash.
-/
import Lez.Indexer.History

namespace Lez.Indexer

open Store
open Reference (nodeHost nodeLedger)

/-! ## Blocks -/

/-- The ids `get_block_batch` asks for: `limit` of them downwards, none of them zero. They are all made before the
first is read; that they fit into memory is not part of the model. -/
def blockIdsFrom (startBlockId : Nat) (limit : UInt64) : List Nat :=
  ((List.range limit.toNat).map (startBlockId - ·)).takeWhile (· ≠ 0)

/-- `get_block_batch`. -/
def getBlockBatch (db : Db) (before : Option UInt64) (limit : UInt64) : List Block :=
  let startBlockId : Option Nat := match before with
    | .some beforeId => .some (beforeId.toNat - 1)
    | .none => db .lastBlock
  match startBlockId with
  | .some startBlockId => getBlockBatchSeq db (blockIdsFrom startBlockId limit)
  | .none => []

/-- The database has these blocks, numbered from one, and no others. -/
structure Stores (db : Db) (blocks : List Block) : Prop where
  ids : blocks.map (·.header.blockId.toNat) = List.range' 1 blocks.length
  block : ∀ n, db (.block (n + 1)) = blocks[n]?
  last : db .lastBlock = if blocks = [] then .none else .some blocks.length

section
variable {H : Host} {initial : V03State} {db : Db} {blocks : List Block}

theorem openOrCreate_other (db : Db) {cell : Cell} (hne : cell ≠ .breakpoint 0) (hne' : cell ≠ .lastBreakpointId) :
    openOrCreate db initial cell = db cell :=
  Db.write_other db (by simp [hne.symm, hne'.symm])

theorem Stores.reopen (h : Stores db blocks) (initial : V03State) : Stores (openOrCreate db initial) blocks where
  ids := h.ids
  block n := (openOrCreate_other db (by simp) (by simp)).trans (h.block n)
  last := (openOrCreate_other db (by simp) (by simp)).trans h.last

theorem Stores.put (h : Stores db blocks) {block : Block} (l1LibHeader : Bytes32)
    (hid : block.header.blockId.toNat = blocks.length + 1) :
    Stores (putBlock H db .sound block l1LibHeader).1 (blocks ++ [block]) := by
  obtain ⟨hblock, hlast, -, -⟩ := blockBatch_cells H db block l1LibHeader
  constructor
  · rw [List.map_append, h.ids, List.length_append, List.length_singleton, ← List.range'_append_1]
    simp [hid, Nat.add_comm]
  · intro n
    rw [putBlock_other H db rfl block l1LibHeader (by simp) (by simp)]
    by_cases hn : n = blocks.length
    · subst hn
      rw [List.getElem?_concat_length]
      exact Db.write_of_mem db ((hblock _ _).mpr ⟨hid.symm, rfl⟩) fun v hv => ((hblock _ v).mp hv).2
    · rw [Db.write_unnamed db fun v hv => by have := ((hblock _ v).mp hv).1; omega, h.block n]
      rcases Nat.lt_or_gt_of_ne hn with hlt | hgt
      · rw [List.getElem?_append_left hlt]
      · rw [List.getElem?_eq_none (by omega), List.getElem?_eq_none (by simp; omega)]
  · rw [putBlock_other H db rfl block l1LibHeader (by simp) (by simp)]
    have hle : (db .lastBlock).getD 0 ≤ blocks.length := by
      rw [h.last]
      split <;> simp
    have hput := Db.write_of_mem db ((hlast _).mpr ⟨by rw [hid]; exact Nat.lt_succ_of_le hle, rfl⟩)
      fun v hv => ((hlast v).mp hv).2
    rw [hput, hid]
    simp

theorem stores_foldl : ∀ {actions : List Action} {blocks : List Block} {db : Db}, Stores db blocks →
    (blocks ++ blocksOf actions).map (·.header.blockId.toNat) = List.range' 1 (blocks ++ blocksOf actions).length →
      Stores (actions.foldl (perform H initial) db) (blocks ++ blocksOf actions)
  | [], blocks, db, h, _ => by simpa [blocksOf] using h
  | .reopen :: actions, blocks, db, h, hids => by
    have hsame : blocksOf (.reopen :: actions) = blocksOf actions := rfl
    rw [hsame] at hids ⊢
    rw [List.foldl_cons]
    exact stores_foldl (h.reopen initial) hids
  | .put block l1LibHeader :: actions, blocks, db, h, hids => by
    have hsplit : blocks ++ blocksOf (.put block l1LibHeader :: actions) = (blocks ++ [block]) ++ blocksOf actions := by
      simp [blocksOf, Action.block?]
    have hid := congrArg (·[blocks.length]?) hids
    simp only [blocksOf, Action.block?, List.filterMap_cons, List.map_append, List.map_cons, List.length_append,
      List.length_cons] at hid
    rw [List.getElem?_append_right (by simp), List.getElem?_range' (by omega)] at hid
    simp only [List.length_map, Nat.sub_self, List.getElem?_cons_zero, Option.some.injEq] at hid
    rw [hsplit] at hids ⊢
    exact stores_foldl (h.put l1LibHeader (by omega)) hids

/-- Any sessions that put blocks numbered from one store them. -/
theorem stores_performAll {actions : List Action}
    (hids : (blocksOf actions).map (·.header.blockId.toNat) = List.range' 1 (blocksOf actions).length) :
    Stores (performAll H initial actions) (blocksOf actions) :=
  @stores_foldl _ _ actions [] _ (Stores.reopen ⟨rfl, fun _ => rfl, rfl⟩ initial) hids

end

/-- The blocks with the highest ids below `before`, `limit` of them or all there are, downwards. -/
def windowOn (blocks : List Block) (before : Option UInt64) (limit : UInt64) : List Block :=
  (blocks.filter fun b => before.all fun id => b.header.blockId < id).reverse.take limit.toNat

section
variable {db : Db} {blocks : List Block} {before : Option UInt64} {limit : UInt64}

theorem takeWhile_below (limit s : Nat) :
    ((List.range (limit + 1)).map (s + 1 - ·)).takeWhile (· ≠ 0) =
      (s + 1) :: ((List.range limit).map (s - ·)).takeWhile (· ≠ 0) := by
  rw [List.range_succ_eq_map, List.map_cons, List.takeWhile_cons_of_pos (by simp), List.map_map]
  congr 2
  refine List.map_congr_left fun i _ => ?_
  simp only [Function.comp_apply]
  omega

/-- From an id of the chain on downwards. -/
theorem Stores.batch (h : Stores db blocks) : ∀ (limit s : Nat), s ≤ blocks.length →
    getBlockBatchSeq db (((List.range limit).map (s - ·)).takeWhile (· ≠ 0)) = (blocks.take s).reverse.take limit
  | 0, s, _ => by simp [getBlockBatchSeq]
  | limit + 1, 0, _ => by
    rw [List.range_succ_eq_map, List.map_cons, List.takeWhile_cons_of_neg (by simp)]
    simp [getBlockBatchSeq]
  | limit + 1, s + 1, hle => by
    have hlt : s < blocks.length := by omega
    have hblock := h.block s
    rw [List.getElem?_eq_getElem hlt] at hblock
    rw [takeWhile_below, getBlockBatchSeq, hblock]
    dsimp only
    rw [h.batch limit s (by omega), List.take_succ_eq_append_getElem hlt, List.reverse_append]
    simp

/-- From an id above the chain nothing is listed. -/
theorem Stores.batch_above (h : Stores db blocks) {s : Nat} (hs : blocks.length < s) (limit : Nat) :
    getBlockBatchSeq db (((List.range limit).map (s - ·)).takeWhile (· ≠ 0)) = [] := by
  obtain ⟨s, rfl⟩ : ∃ s', s = s' + 1 := ⟨s - 1, by omega⟩
  cases limit with
  | zero => rfl
  | succ limit =>
    rw [takeWhile_below, getBlockBatchSeq, h.block s, List.getElem?_eq_none (by omega)]

/-- The blocks below an id are the first of the chain. -/
theorem Stores.filter_below (h : Stores db blocks) (id : UInt64) :
    blocks.filter (fun b => b.header.blockId < id) = blocks.take (id.toNat - 1) := by
  have hget : ∀ (n : Nat) (b : Block), blocks[n]? = .some b → b.header.blockId.toNat = n + 1 := by
    intro n b hb
    have hids := congrArg (·[n]?) h.ids
    have hlt : n < blocks.length := (List.getElem?_eq_some_iff.mp hb).1
    simp only [List.getElem?_map, hb, Option.map_some, List.getElem?_range' hlt, Option.some.injEq] at hids
    omega
  rw [← List.take_append_drop (id.toNat - 1) blocks, List.filter_append]
  have hfirst : (blocks.take (id.toNat - 1)).filter (fun b => b.header.blockId < id) = blocks.take (id.toNat - 1) := by
    rw [List.filter_eq_self]
    intro b hb
    obtain ⟨n, hn⟩ := List.getElem?_of_mem hb
    have hlt := (List.getElem?_eq_some_iff.mp hn).1
    rw [List.length_take] at hlt
    rw [List.getElem?_take_of_lt (by omega)] at hn
    have := hget n b hn
    simp only [decide_eq_true_eq, UInt64.lt_iff_toNat_lt]
    omega
  have hrest : (blocks.drop (id.toNat - 1)).filter (fun b => b.header.blockId < id) = [] := by
    rw [List.filter_eq_nil_iff]
    intro b hb
    obtain ⟨n, hn⟩ := List.getElem?_of_mem hb
    rw [List.getElem?_drop] at hn
    have := hget _ b hn
    simp only [decide_eq_true_eq, UInt64.lt_iff_toNat_lt]
    omega
  rw [hfirst, hrest, List.append_nil, List.take_append_drop]

/-- **Block listing is a window on the chain** exactly when the id it starts below is not beyond the block
after the last, or there is nothing to list. -/
theorem block_listing_iff (h : Stores db blocks) :
    getBlockBatch db before limit = windowOn blocks before limit ↔
      (∀ id ∈ before, id.toNat ≤ blocks.length + 1) ∨ limit = 0 ∨ blocks = [] := by
  cases before with
  | none =>
    refine iff_of_true ?_ (.inl (by simp))
    have hall : windowOn blocks .none limit = (blocks.take blocks.length).reverse.take limit.toNat := by
      simp [windowOn]
    rw [hall, ← h.batch limit.toNat blocks.length le_rfl]
    unfold getBlockBatch
    rw [h.last]
    by_cases hnil : blocks = []
    · subst hnil
      simp [getBlockBatchSeq]
    · rw [if_neg hnil]
      rfl
  | some id =>
    have hwindow : windowOn blocks (.some id) limit = (blocks.take (id.toNat - 1)).reverse.take limit.toNat := by
      simp only [windowOn, Option.all_some, h.filter_below]
    have hbatch : getBlockBatch db (.some id) limit =
        getBlockBatchSeq db (((List.range limit.toNat).map (id.toNat - 1 - ·)).takeWhile (· ≠ 0)) := rfl
    rw [hwindow, hbatch]
    simp only [Option.mem_some_iff, forall_eq']
    by_cases hle : id.toNat ≤ blocks.length + 1
    · exact iff_of_true (h.batch limit.toNat _ (by omega)) (.inl hle)
    · have hall : blocks.take (id.toNat - 1) = blocks := List.take_of_length_le (by omega)
      rw [h.batch_above (by omega), hall]
      constructor
      · intro hnil
        rw [eq_comm, List.take_eq_nil_iff, List.reverse_eq_nil_iff] at hnil
        rcases hnil with hzero | hnil
        · exact .inr (.inl (UInt64.toNat_inj.mp hzero))
        · exact .inr (.inr hnil)
      · rintro (hle' | rfl | rfl)
        · exact absurd hle' hle
        · rfl
        · simp

end

open Indexer.Sample in
/-- Below the block after the last the listing is the chain downwards. -/
theorem resumed_listing :
    Stores (performAll (nodeHost {}) (nodeLedger [] []) resumed) (blocksOf resumed) ∧
      getBlockBatch (performAll (nodeHost {}) (nodeLedger [] []) resumed) (.some 3) 5 =
        windowOn (blocksOf resumed) (.some 3) 5 := by
  have hstores : Stores (performAll (nodeHost {}) (nodeLedger [] []) resumed) (blocksOf resumed) :=
    stores_performAll (by decide)
  have hbelow : (3 : UInt64).toNat ≤ (blocksOf resumed).length + 1 := by decide
  exact ⟨hstores, (block_listing_iff hstores).mpr (.inl fun _ hid => Option.some.inj hid ▸ hbelow)⟩

open Indexer.Sample in
/-- Two blocks are stored, and of the blocks below 4 none is listed. -/
theorem listing_above_chain_empty :
    Stores (performAll (nodeHost {}) (nodeLedger [] []) resumed) (blocksOf resumed) ∧
      getBlockBatch (performAll (nodeHost {}) (nodeLedger [] []) resumed) (.some 4) 5 = [] ∧
      windowOn (blocksOf resumed) (.some 4) 5 = [emptyBlock 2, emptyBlock 1] := by
  have hstores : Stores (performAll (nodeHost {}) (nodeLedger [] []) resumed) (blocksOf resumed) :=
    stores_performAll (by decide)
  exact ⟨hstores, hstores.batch_above (by decide) 5, by decide⟩

/-! ## Accounts -/

/-- The hashes at these positions, up to the first that is not there. -/
def accTxSeq (db : Db) (id : AccountId) : List Nat → List HashType
  | [] => []
  | txId :: txIds =>
    match db (.accTx id txId) with
    | .some hash => hash :: accTxSeq db id txIds
    | .none => []

/-- `{:#?}` of an array of bytes. -/
def debugBytes (bytes : Bytes) : String :=
  "[\n" ++ String.join (bytes.map fun b => "    " ++ toString b.toNat ++ ",\n") ++ "]"

section
variable (H : Host) (room : Nat) (db : Db)

/-- All keys are made before the first is read, one for each position asked for; `room` is how many the process has
memory for. -/
def getAccTransactionHashes (id : AccountId) (offset limit : UInt64) : Except Fault (List HashType) := do
  ensure (offset.toNat + limit.toNat < 2 ^ 64) (.panic "Transaction limit should be lesser than u64::MAX")
  ensure (limit.toNat ≤ room) (.panic "memory allocation failed")
  pure (accTxSeq db id (List.range' offset.toNat limit.toNat))

def getBlockIdsByTxVec (hashes : List HashType) : Except Fault (List Nat) :=
  hashes.mapM fun hash => expect
    (.error (.db (.dbInteractionError "Tx to block id mapping do not contain transaction from vec")))
    (db (.blockIdByTxHash hash))

/-- The body of the loop of `get_acc_transactions`. -/
def findTransaction (item : Block × HashType) : Except Fault LeeTransaction :=
  expect
    (.error (.db (.dbInteractionError ("Missing transaction in block " ++ toString item.1.header.blockId.toNat ++
      " with hash " ++ debugBytes item.2.toList))))
    (item.1.body.transactions.find? fun tx => tx.hash H = item.2)

def getAccTransactions (id : AccountId) (offset limit : UInt64) : Except Fault (List LeeTransaction) := do
  let hashes ← getAccTransactionHashes room db id offset limit
  let blockIds ← getBlockIdsByTxVec db hashes
  ((getBlockBatchSeq db blockIds).zip hashes).mapM (findTransaction H)

end

/-- The transactions of the blocks that name the account, in order. -/
def namedIn (H : Host) (blocks : List Block) (id : AccountId) : List LeeTransaction :=
  (blocks.flatMap (·.body.transactions)).filter fun tx => id ∈ tx.affectedPublicAccountIds H

/-- What the tables behind the pages hold after blocks with ids of their own. -/
structure Paged (H : Host) (blocks : List Block) (db : Db) : Prop where
  block : ∀ b ∈ blocks, db (.block b.header.blockId.toNat) = .some b
  number : ∀ id, (db (.accNumTx id)).getD 0 = (namedIn H blocks id).length
  hashes : ∀ id k, db (.accTx id k) = (namedIn H blocks id)[k]?.map (·.hash H)
  located : ∀ b ∈ blocks, ∀ tx ∈ b.body.transactions, ∃ b' ∈ blocks, ∃ tx' ∈ b'.body.transactions,
    tx'.hash H = tx.hash H ∧ db (.blockIdByTxHash (tx.hash H)) = .some b'.header.blockId.toNat

section
variable {H : Host} {blocks : List Block} {db : Db} {block : Block} {id : AccountId}

theorem namedIn_concat : namedIn H (blocks ++ [block]) id = namedIn H blocks id ++ namedIn H [block] id := by
  simp [namedIn]

theorem accTxHashes_eq : accTxHashes H block.body.transactions id = (namedIn H [block] id).map (·.hash H) := by
  simp [accTxHashes, namedIn]

/-- The positions a block's batch writes for an account. -/
theorem mem_listBatch_accTx {k : Nat} {v : Option HashType} :
    ⟨.accTx id k, v⟩ ∈ listBatch H db block ↔ ∃ i tx, (namedIn H [block] id)[i]? = .some tx ∧
      k = (db (.accNumTx id)).getD 0 + i ∧ v = .some (tx.hash H) := by
  simp only [listBatch, putAccountTransactionsDependant, List.mem_flatMap, List.mem_append, List.mem_mapIdx,
    List.mem_singleton, accTxHashes_eq, List.getElem_map, List.length_map]
  constructor
  · rintro ⟨acc, -, ⟨i, hi, he⟩ | he⟩
    · cases he
      exact ⟨i, _, List.getElem?_eq_getElem hi, rfl, rfl⟩
    · cases he
  · rintro ⟨i, tx, htx, rfl, rfl⟩
    obtain ⟨hi, rfl⟩ := List.getElem?_eq_some_iff.mp htx
    refine ⟨id, ?_, .inl ⟨i, hi, rfl⟩⟩
    have hmem := List.mem_filter.mp (List.getElem_mem hi)
    simp only [List.flatMap_cons, List.flatMap_nil, List.append_nil, decide_eq_true_eq] at hmem
    exact List.mem_dedup.mpr (List.mem_flatMap.mpr ⟨_, hmem.1, hmem.2⟩)

theorem mem_listBatch_accNumTx {v : Option Nat} :
    ⟨.accNumTx id, v⟩ ∈ listBatch H db block ↔
      namedIn H [block] id ≠ [] ∧ v = .some ((db (.accNumTx id)).getD 0 + (namedIn H [block] id).length) := by
  have hnamed : id ∈ affectedAccounts H block.body.transactions ↔ namedIn H [block] id ≠ [] := by
    simp only [affectedAccounts, List.mem_dedup, List.mem_flatMap, namedIn, List.flatMap_cons, List.flatMap_nil,
      List.append_nil, ne_eq, List.filter_eq_nil_iff, decide_eq_true_eq, not_forall, not_not, exists_prop]
  rw [← hnamed]
  simp only [listBatch, putAccountTransactionsDependant, List.mem_flatMap, List.mem_append, List.mem_mapIdx,
    List.mem_singleton, accTxHashes_eq, List.length_map]
  constructor
  · rintro ⟨acc, hacc, ⟨i, hi, he⟩ | he⟩
    · cases he
    · cases he
      exact ⟨hacc, rfl⟩
  · rintro ⟨hacc, rfl⟩
    exact ⟨id, hacc, .inr rfl⟩

theorem mem_blockBatch_blockIdByTxHash {l1LibHeader : Bytes32} {hash : HashType} {v : Option Nat} :
    ⟨.blockIdByTxHash hash, v⟩ ∈ blockBatch H db block l1LibHeader ↔
      (∃ tx ∈ block.body.transactions, tx.hash H = hash) ∧ v = .some block.header.blockId.toNat := by
  have hlists : ⟨.blockIdByTxHash hash, v⟩ ∉ (affectedAccounts H block.body.transactions).flatMap fun acc =>
      putAccountTransactionsDependant db acc (accTxHashes H block.body.transactions acc) := by
    simp [putAccountTransactionsDependant, List.mem_mapIdx]
  unfold blockBatch
  constructor
  · intro h
    simp only [List.mem_append, hlists, or_false] at h
    obtain (((h | h) | h) | h) | h := h
    · simp at h
    · split at h <;> simp at h
    · split at h <;> simp at h
    · simp at h
    · obtain ⟨tx, htx, he⟩ := List.mem_map.mp h
      cases he
      exact ⟨⟨tx, htx, rfl⟩, rfl⟩
  · rintro ⟨⟨tx, htx, rfl⟩, rfl⟩
    simp only [List.mem_append, List.mem_map]
    exact .inl (.inr ⟨tx, htx, rfl⟩)

/-- The tables after one more block. -/
theorem Paged.put (h : Paged H blocks db) (l1LibHeader : Bytes32)
    (hnew : ∀ b ∈ blocks, b.header.blockId.toNat ≠ block.header.blockId.toNat) :
    Paged H (blocks ++ [block]) (putBlock H db .sound block l1LibHeader).1 := by
  have hcell : ∀ cell : Cell, (∀ k, .breakpoint k ≠ cell) → .lastBreakpointId ≠ cell →
      (putBlock H db .sound block l1LibHeader).1 cell = db.write (blockBatch H db block l1LibHeader) cell :=
    fun _ => putBlock_other H db rfl block l1LibHeader
  obtain ⟨hblock, -, -, -⟩ := blockBatch_cells H db block l1LibHeader
  constructor
  · intro b hb
    rw [hcell _ (by simp) (by simp)]
    rcases List.mem_append.mp hb with hb | hb
    · rw [Db.write_unnamed db, h.block b hb]
      intro v hv
      exact hnew b hb ((hblock _ v).mp hv).1
    · obtain rfl := List.mem_singleton.mp hb
      exact Db.write_of_mem db ((hblock _ _).mpr ⟨rfl, rfl⟩) fun v hv => ((hblock _ v).mp hv).2
  · intro acc
    rw [putBlock_list block l1LibHeader (.inl ⟨acc, rfl⟩), namedIn_concat, List.length_append, ← h.number]
    by_cases hnamed : namedIn H [block] acc = []
    · rw [Db.write_unnamed db fun v hv => (mem_listBatch_accNumTx.mp hv).1 hnamed, hnamed]
      rfl
    · rw [Db.write_of_mem db (mem_listBatch_accNumTx.mpr ⟨hnamed, rfl⟩) fun v hv => (mem_listBatch_accNumTx.mp hv).2]
      rfl
  · intro acc k
    rw [putBlock_list block l1LibHeader (.inr ⟨acc, k, rfl⟩), namedIn_concat]
    have hnumber := h.number acc
    by_cases hk : ∃ i tx, (namedIn H [block] acc)[i]? = .some tx ∧ k = (db (.accNumTx acc)).getD 0 + i
    · obtain ⟨i, tx, htx, rfl⟩ := hk
      rw [Db.write_of_mem db (mem_listBatch_accTx.mpr ⟨i, tx, htx, rfl, rfl⟩)]
      · rw [hnumber, List.getElem?_append_right (Nat.le_add_right _ _), Nat.add_sub_cancel_left, htx]
        rfl
      · intro v hv
        obtain ⟨j, tx', htx', he, rfl⟩ := mem_listBatch_accTx.mp hv
        obtain rfl : i = j := by omega
        cases htx.symm.trans htx'
        rfl
    · rw [Db.write_unnamed db, h.hashes]
      · -- below the new positions the old list, above them nothing
        rcases Nat.lt_or_ge k (namedIn H blocks acc).length with hlt | hge
        · rw [List.getElem?_append_left hlt]
        · have hnone : (namedIn H [block] acc)[k - (namedIn H blocks acc).length]? = .none := by
            by_contra hsome
            obtain ⟨tx, htx⟩ := Option.ne_none_iff_exists'.mp hsome
            exact hk ⟨_, tx, htx, by rw [hnumber]; omega⟩
          rw [List.getElem?_append_right hge, hnone, List.getElem?_eq_none hge]
      · intro v hv
        obtain ⟨i, tx, htx, he, -⟩ := mem_listBatch_accTx.mp hv
        exact hk ⟨i, tx, htx, he⟩
  · intro b hb tx htx
    rw [hcell _ (by simp) (by simp)]
    by_cases hhere : ∃ tx' ∈ block.body.transactions, tx'.hash H = tx.hash H
    · obtain ⟨tx', htx', heq⟩ := hhere
      refine ⟨block, by simp, tx', htx', heq, ?_⟩
      exact Db.write_of_mem db (mem_blockBatch_blockIdByTxHash.mpr ⟨⟨tx', htx', heq⟩, rfl⟩)
        fun v hv => (mem_blockBatch_blockIdByTxHash.mp hv).2
    · rcases List.mem_append.mp hb with hb | hb
      · obtain ⟨b', hb', tx', htx', heq, hat⟩ := h.located b hb tx htx
        refine ⟨b', List.mem_append_left _ hb', tx', htx', heq, ?_⟩
        rw [Db.write_unnamed db fun v hv => hhere (mem_blockBatch_blockIdByTxHash.mp hv).1, hat]
      · obtain rfl := List.mem_singleton.mp hb
        exact absurd ⟨tx, htx, rfl⟩ hhere

theorem Paged.reopen (h : Paged H blocks db) (initial : V03State) : Paged H blocks (openOrCreate db initial) := by
  constructor
  · intro b hb
    rw [openOrCreate_other db (by simp) (by simp), h.block b hb]
  · intro acc
    rw [openOrCreate_other db (by simp) (by simp), h.number acc]
  · intro acc k
    rw [openOrCreate_other db (by simp) (by simp), h.hashes acc k]
  · intro b hb tx htx
    rw [openOrCreate_other db (by simp) (by simp)]
    exact h.located b hb tx htx

theorem paged_foldl {initial : V03State} : ∀ {actions : List Action} {blocks : List Block} {db : Db},
    Paged H blocks db → ((blocks ++ blocksOf actions).map (·.header.blockId.toNat)).Nodup →
      Paged H (blocks ++ blocksOf actions) (actions.foldl (perform H initial) db)
  | [], blocks, db, h, _ => by simpa [blocksOf] using h
  | .reopen :: actions, blocks, db, h, hids => by
    have hsame : blocksOf (.reopen :: actions) = blocksOf actions := rfl
    rw [hsame] at hids ⊢
    exact paged_foldl (h.reopen initial) hids
  | .put block l1LibHeader :: actions, blocks, db, h, hids => by
    have hsplit : blocks ++ blocksOf (.put block l1LibHeader :: actions) = (blocks ++ [block]) ++ blocksOf actions := by
      simp [blocksOf, Action.block?]
    rw [hsplit] at hids ⊢
    refine paged_foldl (h.put l1LibHeader ?_) hids
    intro b hb he
    rw [List.append_assoc, List.map_append, List.nodup_append] at hids
    exact hids.2.2 _ (List.mem_map_of_mem hb) _ (by simp) he

/-- The tables after any sessions that put blocks with ids of their own. -/
theorem paged_performAll {initial : V03State} {actions : List Action}
    (hids : ((blocksOf actions).map (·.header.blockId.toNat)).Nodup) :
    Paged H (blocksOf actions) (performAll H initial actions) := by
  refine @paged_foldl _ _ actions [] _ (Paged.reopen ⟨by simp, ?_, ?_, by simp⟩ initial) hids
  · intro acc
    rfl
  · intro acc k
    simp [namedIn]

/-! ## Pages -/

theorem Paged.accTxSeq (h : Paged H blocks db) : ∀ (limit offset : Nat),
    accTxSeq db id (List.range' offset limit) = (((namedIn H blocks id).drop offset).take limit).map (·.hash H)
  | 0, offset => by simp [Indexer.accTxSeq]
  | limit + 1, offset => by
    rw [List.range'_succ, Indexer.accTxSeq, h.hashes]
    rcases Nat.lt_or_ge offset (namedIn H blocks id).length with hlt | hge
    · rw [List.getElem?_eq_getElem hlt, List.drop_eq_getElem_cons hlt, List.take_succ_cons, List.map_cons,
        ← h.accTxSeq limit (offset + 1)]
      rfl
    · rw [List.getElem?_eq_none hge, List.drop_eq_nil_of_le hge]
      rfl

/-- The transactions behind the hashes of stored ones. -/
theorem Paged.find (h : Paged H blocks db)
    (hinj : ∀ tx ∈ blocks.flatMap (·.body.transactions), ∀ tx' ∈ blocks.flatMap (·.body.transactions),
      tx.hash H = tx'.hash H → tx = tx') :
    ∀ {txs : List LeeTransaction}, (∀ tx ∈ txs, tx ∈ blocks.flatMap (·.body.transactions)) →
      ∃ blockIds, getBlockIdsByTxVec db (txs.map (·.hash H)) = .ok blockIds ∧
        ((getBlockBatchSeq db blockIds).zip (txs.map (·.hash H))).mapM (findTransaction H) = .ok txs
  | [], _ => ⟨[], rfl, rfl⟩
  | tx :: txs, hmem => by
    obtain ⟨blockIds, hids, hfind⟩ := h.find hinj fun tx' htx' => hmem tx' (List.mem_cons_of_mem _ htx')
    have htx := hmem tx List.mem_cons_self
    obtain ⟨b, hb, htxb⟩ := List.mem_flatMap.mp htx
    obtain ⟨b', hb', tx', htx', heq, hat⟩ := h.located b hb tx htxb
    -- the first transaction of the block with that hash is the one asked for
    have hfirst : b'.body.transactions.find? (fun t => t.hash H = tx.hash H) = .some tx := by
      cases hf : b'.body.transactions.find? (fun t => t.hash H = tx.hash H) with
      | none => exact absurd heq (by simpa using List.find?_eq_none.mp hf tx' htx')
      | some t =>
        have hmem' := List.mem_of_find?_eq_some hf
        have ht : t ∈ blocks.flatMap (·.body.transactions) := List.mem_flatMap.mpr ⟨b', hb', hmem'⟩
        have he : t.hash H = tx.hash H := by simpa using List.find?_some hf
        rw [hinj t ht tx htx he]
    refine ⟨b'.header.blockId.toNat :: blockIds, ?_, ?_⟩
    · rw [getBlockIdsByTxVec, List.map_cons, List.mapM_cons, hat]
      rw [getBlockIdsByTxVec] at hids
      rw [hids]
      rfl
    · rw [getBlockBatchSeq, h.block b' hb']
      dsimp only
      rw [List.map_cons, List.zip_cons_cons, List.mapM_cons, hfind, findTransaction, hfirst]
      rfl

/-- A page is a slice of the transactions that name the account. -/
theorem Paged.page (h : Paged H blocks db)
    (hinj : ∀ tx ∈ blocks.flatMap (·.body.transactions), ∀ tx' ∈ blocks.flatMap (·.body.transactions),
      tx.hash H = tx'.hash H → tx = tx')
    {offset limit : UInt64} (hfits : offset.toNat + limit.toNat < 2 ^ 64) {room : Nat} (hroom : limit.toNat ≤ room) :
    getAccTransactions H room db id offset limit =
      .ok (((namedIn H blocks id).drop offset.toNat).take limit.toNat) := by
  have hmem : ∀ tx ∈ ((namedIn H blocks id).drop offset.toNat).take limit.toNat,
      tx ∈ blocks.flatMap (·.body.transactions) := by
    intro tx htx
    exact List.mem_of_mem_filter (List.mem_of_mem_drop (List.mem_of_mem_take htx))
  obtain ⟨blockIds, hblockIds, hfind⟩ := h.find hinj hmem
  rw [← h.accTxSeq limit.toNat offset.toNat] at hblockIds hfind
  simp only [getAccTransactions, getAccTransactionHashes, bind_ok_iff, ensure_ok_iff, pure_ok_iff]
  exact ⟨_, ⟨(), hfits, (), hroom, rfl⟩, blockIds, hblockIds, hfind⟩

end

/-- **Pages of an account concatenate.** After any sessions that put blocks with ids of their own, and as long as
no two of their transactions share a hash, the page at an offset, if its end is a `u64` and there is memory for its
keys, is the slice of the transactions that name the account. -/
theorem account_page_is_slice {H : Host} {initial : V03State} {actions : List Action}
    (hids : ((blocksOf actions).map (·.header.blockId.toNat)).Nodup)
    (hinj : ∀ tx ∈ (blocksOf actions).flatMap (·.body.transactions),
      ∀ tx' ∈ (blocksOf actions).flatMap (·.body.transactions), tx.hash H = tx'.hash H → tx = tx')
    (id : AccountId) (offset limit : UInt64) (hfits : offset.toNat + limit.toNat < 2 ^ 64) {room : Nat}
    (hroom : limit.toNat ≤ room) :
    getAccTransactions H room (performAll H initial actions) id offset limit =
      .ok (((namedIn H (blocksOf actions) id).drop offset.toNat).take limit.toNat) := by
  exact (paged_performAll hids).page hinj hfits hroom

namespace Sample

/-- `CLOCK_01_PROGRAM_ACCOUNT_ID`. -/
def clock01 : AccountId := clockProgramAccountIds.headD (ByteVec.fill 32 0)

theorem resumed_txs : (blocksOf resumed).flatMap (·.body.transactions) =
    List.replicate 2 (LeeTransaction.clockInvocation (nodeHost {}) 0) := rfl

end Sample

open Indexer.Sample in
/-- The same clock transaction is in both blocks, and on both places of the page. -/
theorem resumed_clock_page :
    getAccTransactions (nodeHost {}) 100 (performAll (nodeHost {}) (nodeLedger [] []) resumed) clock01 0 5 =
      .ok [LeeTransaction.clockInvocation (nodeHost {}) 0, LeeTransaction.clockInvocation (nodeHost {}) 0] := by
  have hpage := @account_page_is_slice (nodeHost {}) (nodeLedger [] []) resumed (by decide) ?_ clock01
    0 5 (by decide) 100 (by decide)
  · exact hpage.trans (by decide)
  · intro tx htx tx' htx' _
    rw [resumed_txs] at htx htx'
    rw [List.eq_of_mem_replicate htx, List.eq_of_mem_replicate htx']

open Indexer.Sample in
/-- A page whose end is no `u64` panics, with memory for every key. -/
theorem page_past_u64_panics :
    getAccTransactions (nodeHost {}) (2 ^ 64) (performAll (nodeHost {}) (nodeLedger [] []) resumed) clock01 1
        (UInt64.ofNat (2 ^ 64 - 1)) = .error (.panic "Transaction limit should be lesser than u64::MAX") := rfl

end Lez.Indexer
