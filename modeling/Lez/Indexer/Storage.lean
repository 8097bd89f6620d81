/-
The indexer's database (`storage::indexer`): blocks, the state at every
hundredth of them (a breakpoint), and for each account the transactions that
named it. The state at a block is rebuilt from the breakpoint before it by
replaying the blocks in between; the breakpoints are written as the blocks
come in, under the number after the last one written.

Keys that are numbers are their values. RocksDB's own refusals are a `Disk`,
which says which of the writes of a call it takes.
-/
import Lez.Lib.Store
import Lez.Node.Block

namespace Lez.Indexer

open Store

inductive Cell
  | block (id : Nat)
  | firstBlock
  | firstBlockSet
  | lastBlock
  | lastObservedL1LibHeader
  | lastBreakpointId
  | zoneSdkIndexerCursor
  | breakpoint (id : Nat)
  | blockIdByHash (hash : HashType)
  | blockIdByTxHash (hash : HashType)
  | accNumTx (id : AccountId)
  | accTx (id : AccountId) (index : Nat)
deriving DecidableEq

abbrev Slot := Nat

abbrev Cell.Value : Cell → Type
  | block _ => Block
  | firstBlock => Nat
  | firstBlockSet => Bool
  | lastBlock => Nat
  | lastObservedL1LibHeader => Bytes32
  | lastBreakpointId => Nat
  | zoneSdkIndexerCursor => Slot
  | breakpoint _ => V03State
  | blockIdByHash _ => Nat
  | blockIdByTxHash _ => Nat
  | accNumTx _ => Nat
  | accTx _ _ => HashType

abbrev Db := Store.Db Cell.Value
abbrev Batch := Store.Batch Cell.Value

/-! ## Replaying a block -/

/-- What is returned at each place a replay can fail. -/
structure ReplayErrors where
  noTransactions : NodeError
  wrongClock : NodeError
  genesisKind : NodeError
  genesis : LeeError → NodeError
  malformed : TransactionMalformationError → NodeError
  execution : LeeError → NodeError
  clock : LeeError → NodeError

section
variable (E : ReplayErrors) (H : Host)

def replayTransaction (header : BlockHeader) (tx : LeeTransaction) (s : V03State) : Except Fault V03State :=
  if header.blockId = 1 then
    match tx with
    | .publicTx _ => s.execute H E.genesis tx header.blockId header.timestamp
    | _ => .error (.error E.genesisKind)
  else do
    let _ ← (tx.transactionStatelessCheck H).mapError fun e => .error (E.malformed e)
    s.execute H E.execution tx header.blockId header.timestamp

/-- The loop over the transactions before the last: the state it leaves, and why it stopped early. -/
def replayTransactions (header : BlockHeader) : List LeeTransaction → V03State → V03State × Except Fault Unit
  | [], s => (s, .ok ())
  | tx :: txs, s =>
    match replayTransaction E H header tx s with
    | .ok s' => replayTransactions header txs s'
    | .error fault => (s, .error fault)

/-- A block on a live state. The last transaction has to be the clock's, which is public. -/
def replayBlock (block : Block) (s : V03State) : V03State × Except Fault Unit :=
  match block.body.transactions.getLast? with
  | .none => (s, .error (.error E.noTransactions))
  | .some clockTx =>
    if clockTx = LeeTransaction.clockInvocation H block.header.timestamp then
      match replayTransactions E H block.header block.body.transactions.dropLast s with
      | (s', .error fault) => (s', .error fault)
      | (s', .ok ()) =>
        match s'.execute H E.clock clockTx block.header.blockId block.header.timestamp with
        | .ok s'' => (s'', .ok ())
        | .error fault => (s', .error fault)
    else (s, .error (.error E.wrongClock))

/-- The state after a block. -/
def applyBlock (s : V03State) (block : Block) : Except Fault V03State :=
  match replayBlock E H block s with
  | (s', .ok ()) => .ok s'
  | (_, .error fault) => .error fault

/-- The state after blocks, one by one. -/
def applyBlocks (blocks : List Block) (s : V03State) : Except Fault V03State := blocks.foldlM (applyBlock E H) s

end

section
variable {E E' : ReplayErrors} {H : Host} {header : BlockHeader} {tx : LeeTransaction} {block : Block} {s s' : V03State}

/-- What it takes for a transaction to be replayed, whatever is returned otherwise. -/
theorem replayTransaction_ok_iff : replayTransaction E H header tx s = .ok s' ↔
    (if header.blockId = 1 then ∃ ptx, tx = .publicTx ptx else tx.signaturesValid H = true) ∧
      s.transition H tx header.blockId header.timestamp = .some s' := by
  unfold replayTransaction
  split
  · cases tx <;> simp [V03State.execute_ok_iff]
  · simp only [bind_ok_iff, mapError_ok_iff, LeeTransaction.transactionStatelessCheck_ok_iff, V03State.execute_ok_iff]
    constructor
    · intro h
      obtain ⟨_, ⟨hvalid, -⟩, htransition⟩ := h
      exact ⟨hvalid, htransition⟩
    · intro h
      exact ⟨tx, ⟨h.1, rfl⟩, h.2⟩

theorem replayTransactions_cons_ok {txs : List LeeTransaction} :
    replayTransactions E H header (tx :: txs) s = (s', .ok ()) ↔
      ∃ u, replayTransaction E H header tx s = .ok u ∧ replayTransactions E H header txs u = (s', .ok ()) := by
  rw [replayTransactions]
  cases replayTransaction E H header tx s <;> simp

theorem replayTransactions_errors : ∀ {txs : List LeeTransaction} {s : V03State},
    replayTransactions E H header txs s = (s', .ok ()) → replayTransactions E' H header txs s = (s', .ok ())
  | [], s, h => h
  | tx :: txs, s, h => by
    obtain ⟨u, hu, h⟩ := replayTransactions_cons_ok.mp h
    rw [replayTransaction_ok_iff] at hu
    exact replayTransactions_cons_ok.mpr ⟨u, replayTransaction_ok_iff.mpr hu, replayTransactions_errors h⟩

/-- **A block is replayed** when it ends in its clock and every transaction is. -/
theorem replayBlock_ok_iff : replayBlock E H block s = (s', .ok ()) ↔
    ∃ txs u, block.body.transactions = txs ++ [LeeTransaction.clockInvocation H block.header.timestamp] ∧
      replayTransactions E H block.header txs s = (u, .ok ()) ∧
      u.transition H (LeeTransaction.clockInvocation H block.header.timestamp) block.header.blockId
        block.header.timestamp = .some s' := by
  constructor
  · intro h
    unfold replayBlock at h
    split at h
    next => cases h
    next clockTx hlast =>
      split at h
      next hclock =>
        subst hclock
        obtain ⟨txs, htxs⟩ := List.getLast?_eq_some_iff.mp hlast
        rw [htxs, List.dropLast_concat] at h
        split at h
        next => cases h
        next u hloop =>
          split at h
          next s'' hexecute =>
            cases h
            exact ⟨txs, u, htxs, hloop, V03State.execute_ok_iff.mp hexecute⟩
          next => cases h
      next => cases h
  · intro h
    obtain ⟨txs, u, htxs, hloop, hclock⟩ := h
    have hexecute : u.execute H E.clock (LeeTransaction.clockInvocation H block.header.timestamp) block.header.blockId
        block.header.timestamp = .ok s' := V03State.execute_ok_iff.mpr hclock
    unfold replayBlock
    simp only [htxs, List.getLast?_append, List.getLast?_singleton, Option.some_or, ↓reduceIte, List.dropLast_concat,
      hloop, hexecute]

theorem applyBlock_ok_iff : applyBlock E H s block = .ok s' ↔ replayBlock E H block s = (s', .ok ()) := by
  unfold applyBlock
  cases replayBlock E H block s with
  | mk u outcome => cases outcome <;> simp

theorem applyBlock_errors (h : applyBlock E H s block = .ok s') : applyBlock E' H s block = .ok s' := by
  rw [applyBlock_ok_iff, replayBlock_ok_iff] at h ⊢
  obtain ⟨txs, u, htxs, hloop, hclock⟩ := h
  exact ⟨txs, u, htxs, replayTransactions_errors hloop, hclock⟩

end

/-! ## States -/

def breakpointInterval : Nat := 100

def closestBreakpointId (blockId : Nat) : Nat := (blockId - 1) / breakpointInterval

/-- `get_block_batch_seq`: up to the first block that is not there. -/
def getBlockBatchSeq (db : Db) : List Nat → List Block
  | [] => []
  | id :: ids =>
    match db (.block id) with
    | .some block => block :: getBlockBatchSeq db ids
    | .none => []

/-- The errors of `calculate_state_for_id`. -/
def calculateErrors : ReplayErrors where
  noTransactions := .db (.dbInteractionError "Block must contain clock transaction at the end")
  wrongClock := .db (.dbInteractionError
    "Last transaction in block must be the clock invocation for the block timestamp")
  genesisKind := .db (.dbInteractionError "Genesis block should contain only public transactions")
  genesis := fun e => .db (.failedWithErr "genesis transaction execution" e)
  malformed := fun e => .db (.preCheckFailedWithErr e)
  execution := fun e => .db (.failedWithErr "transaction execution" e)
  clock := fun e => .db (.failedWithErr "clock transaction execution" e)

section
variable (H : Host) (db : Db)

def calculateStateForId (blockId : Nat) : Except Fault V03State := do
  ensure (blockId ≤ (db .lastBlock).getD 0) (.error (.db (.dbInteractionError "Block on this id not found")))
  let brId := closestBreakpointId blockId
  let breakpoint ← expect (.error (.db (.dbInteractionError "\"breakpoint\" not found"))) (db (.breakpoint brId))
  let start := breakpointInterval * brId
  applyBlocks calculateErrors H (getBlockBatchSeq db (List.range' (start + 1) (blockId - start))) breakpoint

def finalState : Except Fault V03State := calculateStateForId H db ((db .lastBlock).getD 0)

/-- `open_or_create`, whatever is there already. -/
def openOrCreate (initial : V03State) : Db :=
  db.write [⟨.breakpoint 0, .some initial⟩, ⟨.lastBreakpointId, .some 0⟩]

/-! ## Writing a block -/

/-- The writes of a call that RocksDB takes. -/
structure Disk where
  batch : Bool
  breakpoint : Bool
  lastBreakpointId : Bool

def Disk.sound : Disk := ⟨true, true, true⟩

def rocksFault : Fault := .error (.db .rocksDbError)

/-- `put_next_breakpoint`: the database it leaves and its answer. -/
def putNextBreakpoint (disk : Disk) : Db × Except Fault Unit :=
  let lastBlock := (db .lastBlock).getD 0
  let nextBreakpointId := (db .lastBreakpointId).getD 0 + 1
  let blockToBreakId := nextBreakpointId * breakpointInterval
  if blockToBreakId ≤ lastBlock then
    match calculateStateForId H db blockToBreakId with
    | .error fault => (db, .error fault)
    | .ok nextBreakpoint =>
      if disk.breakpoint then
        let written := db.write [⟨.breakpoint nextBreakpointId, .some nextBreakpoint⟩]
        if disk.lastBreakpointId then
          (written.write [⟨.lastBreakpointId, .some nextBreakpointId⟩], .ok ())
        else (written, .error rocksFault)
      else (db, .error rocksFault)
  else (db, .error (.error (.db (.dbInteractionError "Breakpoint not yet achieved"))))

/-- `acc_to_tx_map`: the hashes of the transactions that name the account. -/
def accTxHashes (transactions : List LeeTransaction) (id : AccountId) : List HashType :=
  (transactions.filter fun tx => id ∈ tx.affectedPublicAccountIds H).map (·.hash H)

/-- The accounts of the map. -/
def affectedAccounts (transactions : List LeeTransaction) : List AccountId :=
  (transactions.flatMap (·.affectedPublicAccountIds H)).dedup

/-- `put_account_transactions_dependant`: the hashes after those the database has, and their number. -/
def putAccountTransactionsDependant (id : AccountId) (txHashes : List HashType) : Batch :=
  let accNumTx := (db (.accNumTx id)).getD 0
  (txHashes.mapIdx fun txId hash => ⟨.accTx id (accNumTx + txId), .some hash⟩) ++
    [⟨.accNumTx id, .some (accNumTx + txHashes.length)⟩]

/-- The batch of `put_block`. -/
def blockBatch (block : Block) (l1LibHeader : Bytes32) : Batch :=
  let id := block.header.blockId.toNat
  let lastCurrBlock := (db .lastBlock).getD 0
  [⟨.block id, .some block⟩] ++
    (if id > lastCurrBlock then
      [⟨.lastBlock, .some id⟩, ⟨.lastObservedL1LibHeader, .some l1LibHeader⟩] else []) ++
    (if lastCurrBlock = 0 then [⟨.firstBlock, .some id⟩, ⟨.firstBlockSet, .some true⟩] else []) ++
    [⟨.blockIdByHash block.header.hash, .some id⟩] ++
    (block.body.transactions.map fun tx => ⟨.blockIdByTxHash (tx.hash H), .some id⟩) ++
    (affectedAccounts H block.body.transactions).flatMap fun acc =>
      putAccountTransactionsDependant db acc (accTxHashes H block.body.transactions acc)

/-- `put_block`: the database it leaves and its answer. -/
def putBlock (disk : Disk) (block : Block) (l1LibHeader : Bytes32) : Db × Except Fault Unit :=
  if disk.batch then
    let written := db.write (blockBatch H db block l1LibHeader)
    if block.header.blockId.toNat % breakpointInterval = 0 then putNextBreakpoint H written disk else (written, .ok ())
  else (db, .error rocksFault)

/-- A breakpoint and its number are all `put_next_breakpoint` writes. -/
theorem putNextBreakpoint_other (disk : Disk) {cell : Cell} (hbreakpoint : ∀ k, .breakpoint k ≠ cell)
    (hlast : .lastBreakpointId ≠ cell) : (putNextBreakpoint H db disk).1 cell = db cell := by
  unfold putNextBreakpoint
  dsimp only
  split
  · split
    · rfl
    · split
      · split
        · dsimp only
          rw [Db.write_other _ (by simpa using hlast), Db.write_other _ (by simpa using hbreakpoint _)]
        · exact Db.write_other _ (by simpa using hbreakpoint _)
      · rfl
  · rfl

/-- The other cells after a block whose batch RocksDB takes. -/
theorem putBlock_other {disk : Disk} (hbatch : disk.batch = true) (block : Block) (l1LibHeader : Bytes32) {cell : Cell}
    (hbreakpoint : ∀ k, .breakpoint k ≠ cell) (hlast : .lastBreakpointId ≠ cell) :
    (putBlock H db disk block l1LibHeader).1 cell = db.write (blockBatch H db block l1LibHeader) cell := by
  unfold putBlock
  rw [if_pos hbatch]
  dsimp only
  split
  · exact putNextBreakpoint_other H _ disk hbreakpoint hlast
  · rfl

end

/-! ## Lists -/

section
variable {H : Host} {db : Db}

/-- The part of a block's batch that lists transactions. -/
def listBatch (H : Host) (db : Db) (block : Block) : Batch :=
  (affectedAccounts H block.body.transactions).flatMap fun acc =>
    putAccountTransactionsDependant db acc (accTxHashes H block.body.transactions acc)

/-- A listing cell after a block is what the block's listing makes of it. -/
theorem putBlock_list (block : Block) (l1LibHeader : Bytes32) {cell : Cell}
    (hcell : (∃ acc, cell = .accNumTx acc) ∨ ∃ acc i, cell = .accTx acc i) :
    (putBlock H db .sound block l1LibHeader).1 cell = db.write (listBatch H db block) cell := by
  have hbreakpoint : ∀ k, .breakpoint k ≠ cell := by
    intro k h
    rcases hcell with ⟨acc, rfl⟩ | ⟨acc, i, rfl⟩ <;> cases h
  have hlast : .lastBreakpointId ≠ cell := by
    intro h
    rcases hcell with ⟨acc, rfl⟩ | ⟨acc, i, rfl⟩ <;> cases h
  rw [putBlock_other H db rfl block l1LibHeader hbreakpoint hlast]
  unfold blockBatch
  rw [Db.write_append]
  refine Db.write_congr (listBatch H db block) (Db.write_other db ?_)
  intro w hw h
  rcases hcell with ⟨acc, rfl⟩ | ⟨acc, i, rfl⟩ <;> grind

end

end Lez.Indexer
