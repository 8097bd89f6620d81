/-
The sequencer's database (`storage::sequencer`): its cells, and the four
operations the two tasks of a running sequencer make on deposits and
withdrawals. The publisher's task records deposits as they are seen, forgets
them when their block is final and counts withdrawals down; the producer's
task stores a block, marks the deposits in it and counts its withdrawals up,
in one batch. An operation is a program over the cells (`Store.Prog`): every
`get` is a step of its own, and so is the write at its end. A read or write
that RocksDB itself refuses is left out here.
-/
import Lez.Lib.Store
import Lez.Node.Block

namespace Lez.Sequencer

open Store

structure PendingDepositEventRecord where
  depositOpId : HashType
  sourceTxHash : HashType
  amount : UInt64
  metadata : Bytes
  submittedInBlockId : Option BlockId
deriving DecidableEq

structure WithdrawalReconciliationKey where
  amount : UInt64
  bedrockAccountPk : Bytes32
deriving DecidableEq

inductive Cell
  | block (id : BlockId)
  | firstBlock
  | firstBlockSet
  | lastBlock
  | lastFinalizedBlockId
  | latestBlockMeta
  | zoneSdkCheckpoint
  | pendingDepositEvents
  | unseenWithdrawCount (withdrawal : WithdrawalReconciliationKey)
  | leeState
deriving DecidableEq

abbrev Cell.Value : Cell → Type
  | block _ => Block
  | firstBlock => BlockId
  | firstBlockSet => Bool
  | lastBlock => BlockId
  | lastFinalizedBlockId => Option BlockId
  | latestBlockMeta => BlockMeta
  | zoneSdkCheckpoint => Bytes
  | pendingDepositEvents => List PendingDepositEventRecord
  | unseenWithdrawCount _ => UInt64
  | leeState => V03State

abbrev Db := Store.Db Cell.Value
abbrev Batch := Store.Batch Cell.Value

/-- What an operation answers. -/
inductive Answer
  | added (new : Bool)
  | removed (count : Nat)
  | consumed (matched : Bool)
  | stored
deriving DecidableEq

abbrev Prog := Store.Prog Cell.Value (Except DbError Answer)

/-! ## Deposits -/

def addPendingDepositEvent (event : PendingDepositEventRecord) : Prog :=
  .get .pendingDepositEvents fun cell =>
    let records := cell.getD []
    if records.any (·.depositOpId = event.depositOpId) then .ret (.ok (.added false))
    else .commit [⟨.pendingDepositEvents, .some (records ++ [event])⟩] (.ok (.added true))

/-- The records with those of the block marked. -/
def submitted (depositOpIds : List HashType) (blockId : BlockId) (records : List PendingDepositEventRecord) :
    List PendingDepositEventRecord :=
  records.map fun r => if r.depositOpId ∈ depositOpIds then { r with submittedInBlockId := .some blockId } else r

/-- `mark_pending_deposit_events_submitted`: what it adds to the batch. -/
def markPendingDepositEventsSubmitted (depositOpIds : List HashType) (blockId : BlockId)
    (records : List PendingDepositEventRecord) : Batch :=
  let updated := records.countP (·.depositOpId ∈ depositOpIds)
  if updated > 0 then [⟨.pendingDepositEvents, .some (submitted depositOpIds blockId records)⟩] else []

/-- Not in a block up to the finalized one. -/
def PendingDepositEventRecord.unfulfilledAfter (finalized : BlockId) (r : PendingDepositEventRecord) : Bool :=
  r.submittedInBlockId.all (· > finalized)

def removeFulfilledPendingDepositEventsUpToBlock (finalized : BlockId) : Prog :=
  .get .pendingDepositEvents fun cell =>
    let records := cell.getD []
    let kept := records.filter (·.unfulfilledAfter finalized)
    let removed := records.length - kept.length
    if removed > 0 then .commit [⟨.pendingDepositEvents, .some kept⟩] (.ok (.removed removed))
    else .ret (.ok (.removed removed))

/-! ## Withdrawals -/

/-- `increment_unseen_withdraw_count` for each withdrawal in turn. The counter is read from the database,
whatever the batch holds already. -/
def incrementUnseenWithdrawCounts (next : Batch → Prog) : List WithdrawalReconciliationKey → Batch → Prog
  | [], batch => next batch
  | withdrawal :: rest, batch =>
    .get (.unseenWithdrawCount withdrawal) fun cell =>
      let current := cell.getD 0
      if current.toNat + 1 < 2 ^ 64 then
        incrementUnseenWithdrawCounts next rest (batch ++ [⟨.unseenWithdrawCount withdrawal, .some (current + 1)⟩])
      else .ret (.error (.dbInteractionError "Unseen withdraw counter overflow"))

def consumeUnseenWithdrawCount (withdrawal : WithdrawalReconciliationKey) : Prog :=
  .get (.unseenWithdrawCount withdrawal) fun
    | .none => .ret (.ok (.consumed false))
    | .some current =>
      if 1 ≤ current.toNat then
        .commit [⟨.unseenWithdrawCount withdrawal, .some (current - 1)⟩] (.ok (.consumed true))
      else .commit [⟨.unseenWithdrawCount withdrawal, .none⟩] (.ok (.consumed true))

/-! ## Blocks -/

/-- `put_block` after genesis: what it adds to the batch, the last block being `last`. -/
def putBlock (block : Block) (last : BlockId) : Batch :=
  let id := block.header.blockId
  (if id > last then [⟨.lastBlock, .some id⟩, ⟨.latestBlockMeta, .some ⟨id, block.header.hash⟩⟩] else []) ++
    [⟨.block id, .some block⟩]

def atomicUpdate (block : Block) (depositOpIds : List HashType) (withdrawals : List WithdrawalReconciliationKey)
    (state : V03State) : Prog :=
  .get .lastBlock fun
    | .none => .ret (.error (.dbInteractionError "\"last_block_in_db\" not found"))
    | .some last =>
      .get .pendingDepositEvents fun cell =>
        let marked := markPendingDepositEventsSubmitted depositOpIds block.header.blockId (cell.getD [])
        incrementUnseenWithdrawCounts (fun batch => .commit (batch ++ [⟨.leeState, .some state⟩]) (.ok .stored))
          withdrawals (putBlock block last ++ marked)

inductive Operation
  | addPendingDepositEvent (event : PendingDepositEventRecord)
  | removeFulfilledPendingDepositEventsUpToBlock (finalized : BlockId)
  | consumeUnseenWithdrawCount (withdrawal : WithdrawalReconciliationKey)
  | atomicUpdate (block : Block) (depositOpIds : List HashType) (withdrawals : List WithdrawalReconciliationKey)
      (state : V03State)

def Operation.prog : Operation → Prog
  | addPendingDepositEvent event => Sequencer.addPendingDepositEvent event
  | removeFulfilledPendingDepositEventsUpToBlock finalized =>
    Sequencer.removeFulfilledPendingDepositEventsUpToBlock finalized
  | consumeUnseenWithdrawCount withdrawal => Sequencer.consumeUnseenWithdrawCount withdrawal
  | atomicUpdate block depositOpIds withdrawals state => Sequencer.atomicUpdate block depositOpIds withdrawals state

/-! ## Alone -/

section
variable {db : Db}

/-- Every counter is read before any is written. -/
theorem incrementUnseenWithdrawCounts_run {next : Batch → Prog} :
    ∀ {withdrawals : List WithdrawalReconciliationKey} {batch : Batch},
      (incrementUnseenWithdrawCounts next withdrawals batch).run db =
        if ∀ w ∈ withdrawals, ((db (.unseenWithdrawCount w)).getD 0).toNat + 1 < 2 ^ 64 then
          (next (batch ++ withdrawals.map fun w =>
            ⟨.unseenWithdrawCount w, .some ((db (.unseenWithdrawCount w)).getD 0 + 1)⟩)).run db
        else (db, .error (.dbInteractionError "Unseen withdraw counter overflow"))
  | [], batch => by simp [incrementUnseenWithdrawCounts]
  | w :: withdrawals, batch => by
    simp only [incrementUnseenWithdrawCounts, Prog.run, List.forall_mem_cons]
    by_cases hfits : ((db (.unseenWithdrawCount w)).getD 0).toNat + 1 < 2 ^ 64
    · simp only [hfits, ↓reduceIte, true_and, incrementUnseenWithdrawCounts_run, List.map_cons, List.append_assoc,
        List.singleton_append]
    · simp only [hfits, ↓reduceIte, false_and, Prog.run]

variable (db) (block : Block) (depositOpIds : List HashType) (withdrawals : List WithdrawalReconciliationKey)
  (state : V03State)

/-- The batch of a stored block. -/
def storedBatch (last : BlockId) : Batch :=
  putBlock block last ++
    markPendingDepositEventsSubmitted depositOpIds block.header.blockId ((db .pendingDepositEvents).getD []) ++
    (withdrawals.map fun w => ⟨.unseenWithdrawCount w, .some ((db (.unseenWithdrawCount w)).getD 0 + 1)⟩) ++
    [⟨.leeState, .some state⟩]

/-- **A block is stored whole or not at all.** -/
theorem atomicUpdate_run :
    (∃ last, db .lastBlock = .some last ∧
      (∀ w ∈ withdrawals, ((db (.unseenWithdrawCount w)).getD 0).toNat + 1 < 2 ^ 64) ∧
      (atomicUpdate block depositOpIds withdrawals state).run db =
        (db.write (storedBatch db block depositOpIds withdrawals state last), .ok .stored)) ∨
    ∃ e, (atomicUpdate block depositOpIds withdrawals state).run db = (db, .error e) := by
  cases hlast : db .lastBlock with
  | none =>
    right
    refine ⟨.dbInteractionError "\"last_block_in_db\" not found", ?_⟩
    simp only [atomicUpdate, Prog.run, hlast]
  | some last =>
    have hrun : (atomicUpdate block depositOpIds withdrawals state).run db =
        (incrementUnseenWithdrawCounts (fun batch => .commit (batch ++ [⟨.leeState, .some state⟩]) (.ok .stored))
          withdrawals (putBlock block last ++ markPendingDepositEventsSubmitted depositOpIds block.header.blockId
            ((db .pendingDepositEvents).getD []))).run db := by
      simp only [atomicUpdate, Prog.run, hlast]
    rw [hrun, incrementUnseenWithdrawCounts_run]
    split
    next hfits =>
      left
      exact ⟨last, rfl, hfits, rfl⟩
    next =>
      right
      exact ⟨_, rfl⟩

end

theorem atomicUpdate_stored {db : Db} {withdrawals : List WithdrawalReconciliationKey} {last : BlockId} (block : Block)
    (depositOpIds : List HashType) (state : V03State) (hlast : db .lastBlock = .some last)
    (hfits : ∀ w ∈ withdrawals, ((db (.unseenWithdrawCount w)).getD 0).toNat + 1 < 2 ^ 64) :
    (atomicUpdate block depositOpIds withdrawals state).run db =
      (db.write (storedBatch db block depositOpIds withdrawals state last), .ok .stored) := by
  simp only [atomicUpdate, Prog.run, hlast, incrementUnseenWithdrawCounts_run, if_pos hfits]
  rfl

/-! ## The cells of a stored block -/

section
variable {db : Db} {block : Block} {depositOpIds : List HashType} {withdrawals : List WithdrawalReconciliationKey}
  {state : V03State} {last : BlockId}

/-- What a newly stored block leaves in the database `db`. -/
structure StoredCells (db : Db) (block : Block) (depositOpIds : List HashType) (state : V03State) (db' : Db) :
    Prop where
  lastBlock : db' .lastBlock = .some block.header.blockId
  latestBlockMeta : db' .latestBlockMeta = .some ⟨block.header.blockId, block.header.hash⟩
  blocks : ∀ id, db' (.block id) = if id = block.header.blockId then .some block else db (.block id)
  leeState : db' .leeState = .some state
  pendingDepositEvents : (db' .pendingDepositEvents).getD [] =
    submitted depositOpIds block.header.blockId ((db .pendingDepositEvents).getD [])
  zoneSdkCheckpoint : db' .zoneSdkCheckpoint = db .zoneSdkCheckpoint

theorem submitted_of_countP_eq_zero {blockId : BlockId} {records : List PendingDepositEventRecord}
    (h : records.countP (·.depositOpId ∈ depositOpIds) = 0) : submitted depositOpIds blockId records = records := by
  rw [List.countP_eq_zero] at h
  unfold submitted
  refine (List.map_congr_left ?_).trans (List.map_id records)
  intro r hr
  exact if_neg (by simpa using h r hr)

theorem mem_storedBatch (hnew : block.header.blockId > last) {w : (c : Cell) × Option c.Value} :
    w ∈ storedBatch db block depositOpIds withdrawals state last ↔
      w = ⟨.lastBlock, .some block.header.blockId⟩ ∨
      w = ⟨.latestBlockMeta, .some ⟨block.header.blockId, block.header.hash⟩⟩ ∨
      w = ⟨.block block.header.blockId, .some block⟩ ∨
      (0 < ((db .pendingDepositEvents).getD []).countP (·.depositOpId ∈ depositOpIds) ∧
        w = ⟨.pendingDepositEvents,
          .some (submitted depositOpIds block.header.blockId ((db .pendingDepositEvents).getD []))⟩) ∨
      (∃ key ∈ withdrawals, w = ⟨.unseenWithdrawCount key, .some ((db (.unseenWithdrawCount key)).getD 0 + 1)⟩) ∨
      w = ⟨.leeState, .some state⟩ := by
  simp only [storedBatch, putBlock, markPendingDepositEventsSubmitted, if_pos hnew, List.mem_append, List.mem_cons,
    List.not_mem_nil, or_false, List.mem_map]
  rw [List.mem_ite_nil_right]
  simp only [List.mem_singleton, gt_iff_lt, or_assoc, eq_comm]

theorem storedBatch_cells (hnew : block.header.blockId > last) : StoredCells db block depositOpIds state
    (db.write (storedBatch db block depositOpIds withdrawals state last)) where
  lastBlock := Db.write_of_mem db (by simp [mem_storedBatch hnew]) (by simp [mem_storedBatch hnew])
  latestBlockMeta := Db.write_of_mem db (by simp [mem_storedBatch hnew]) (by simp [mem_storedBatch hnew])
  blocks := by
    intro id
    split
    next hid =>
      subst hid
      exact Db.write_of_mem db (by simp [mem_storedBatch hnew]) (by simp [mem_storedBatch hnew])
    next hid => exact Db.write_unnamed db (by simp [mem_storedBatch hnew, hid])
  leeState := Db.write_of_mem db (by simp [mem_storedBatch hnew]) (by simp [mem_storedBatch hnew])
  pendingDepositEvents := by
    by_cases hcount : 0 < ((db .pendingDepositEvents).getD []).countP (·.depositOpId ∈ depositOpIds)
    · have hwritten : db.write (storedBatch db block depositOpIds withdrawals state last) .pendingDepositEvents =
          .some (submitted depositOpIds block.header.blockId ((db .pendingDepositEvents).getD [])) :=
        Db.write_of_mem db (by simp [mem_storedBatch hnew, hcount]) (by simp [mem_storedBatch hnew])
      rw [hwritten, Option.getD_some]
    · have hunnamed : db.write (storedBatch db block depositOpIds withdrawals state last) .pendingDepositEvents =
          db .pendingDepositEvents := Db.write_unnamed db (by simp [mem_storedBatch hnew, hcount])
      rw [hunnamed, submitted_of_countP_eq_zero (by omega)]
  zoneSdkCheckpoint := Db.write_unnamed db (by simp [mem_storedBatch hnew])

end

/-- A database whose last block has this id, with no deposits or withdrawals yet. -/
def Sample.db (last : BlockId) : Db
  | .lastBlock => .some last
  | _ => .none

end Lez.Sequencer
