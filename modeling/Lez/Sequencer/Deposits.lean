/-
Deposits on their way from the L1 into a block: the publisher's task records
each one it is told of and queues a transaction for it, a restart queues one
for every record that is in no block yet, a stored block marks the records it
credits, and those are dropped when their block is final.

A `Node` is a sequencer with both tasks. An action is a call of one of them,
its database operation in one step, and a restart may come between any two.
The last four fields only watch: the transactions the live state and the
stored state have been through, the deposits whose records were dropped, and
whether a call of `produce_new_block` has failed since the start.
-/
import Lez.Sequencer.Production
import Lez.Sequencer.Withdrawals

namespace Lez.Sequencer

open Store

/-! ## Events and their transactions -/

/-- What the publisher tells of a deposit. -/
structure DepositInfo where
  opId : HashType
  txHash : HashType
  amount : UInt64
  metadata : Bytes
deriving DecidableEq

def pendingDepositEventRecord (deposit : DepositInfo) : PendingDepositEventRecord :=
  ⟨deposit.opId, deposit.txHash, deposit.amount, deposit.metadata, .none⟩

/-- `DepositMetadata::decode`: the recipient's id in borsh and nothing after it. -/
def decodeDepositMetadata (metadata : Bytes) : Option AccountId :=
  if h : metadata.length = 32 then .some ⟨metadata, h⟩ else .none

section
variable (H : Host)

def buildBridgeDepositTxFromEvent (event : PendingDepositEventRecord) : Except NodeError LeeTransaction := do
  let recipientId ← expect (.other "Failed to decode finalized Bedrock deposit metadata")
    (decodeDepositMetadata event.metadata)
  let recipientVaultId := Vault.computeVaultAccountId H.sha256 H.vault.id recipientId
  pure (.publicTx ⟨⟨H.bridge.id, [systemBridgeAccountId H, recipientVaultId], [],
    Bridge.writeBridge (.deposit event.depositOpId H.vault.id recipientId event.amount)⟩, []⟩)

/-- The transaction of an event, if it has one, at the end of the mempool. -/
def SequencerCore.queue (core : SequencerCore) (event : PendingDepositEventRecord) : SequencerCore :=
  match buildBridgeDepositTxFromEvent H event with
  | .ok tx => { core with mempool := core.mempool ++ [(.sequencer, tx)] }
  | .error _ => core

end

/-! ## The node -/

/-- The pending deposit events of a database. -/
def pendingRecords (db : Db) : List PendingDepositEventRecord := (db .pendingDepositEvents).getD []

/-- A transaction and the block it was executed for. -/
structure BlockTransaction where
  blockId : BlockId
  timestamp : Timestamp
  tx : LeeTransaction

structure Node where
  core : SequencerCore
  /-- Recorded, its transaction waiting for the mempool. -/
  arriving : Option PendingDepositEventRecord
  /-- What is left of the records a start queues again. -/
  replaying : List PendingDepositEventRecord
  live : List BlockTransaction
  saved : List BlockTransaction
  dropped : List HashType
  failed : Bool

/-- A sequencer with nothing under way. -/
def Node.start (core : SequencerCore) : Node := ⟨core, .none, [], [], [], [], false⟩

inductive Action
  | submit (tx : LeeTransaction)
  | deposit (info : DepositInfo) (written : Bool)
  | enqueue
  | replay
  | produce (env : Env)
  | finalized (blockId : BlockId) (written : Bool)
  | restart

/-- What the next build executes on the live state, whatever becomes of the block. -/
def SequencerCore.executed (H : Host) (cfg : Config) (now : Timestamp) (core : SequencerCore) : List BlockTransaction :=
  if core.chainHeight.toNat + 1 < 2 ^ 64 then
    let clockTx := match (core.nextLoop H cfg now).2.2, core.clockTransition H cfg now with
      | .ok (), .some _ => [LeeTransaction.clockInvocation H now]
      | _, _ => []
    ((core.building H cfg now).validTransactions ++ clockTx).map (⟨core.chainHeight + 1, now, ·⟩)
  else []

namespace Node

section
variable (H : Host) (cfg : Config) (n : Node)

/-- `on_deposit_event` up to the mempool. The task takes no other event while one waits for it. -/
def deposit (info : DepositInfo) (written : Bool) : Node :=
  if n.arriving.isSome ∨ written = false then n
  else
    match (addPendingDepositEvent (pendingDepositEventRecord info)).run n.core.db with
    | (db, .ok (.added true)) =>
      { n with core := { n.core with db }, arriving := .some (pendingDepositEventRecord info) }
    | (db, _) => { n with core := { n.core with db } }

def enqueue : Node :=
  match n.arriving with
  | .some event => { n with core := n.core.queue H event, arriving := .none }
  | .none => n

/-- One round of the task `replay_unfulfilled_deposit_events` starts. -/
def replay : Node :=
  match n.replaying with
  | event :: rest => { n with core := n.core.queue H event, replaying := rest }
  | [] => n

def produce (env : Env) : Node :=
  let live := n.live ++ n.core.executed H cfg env.now
  match n.core.produceNewBlock H cfg env with
  | (core, .ok _) => { n with core, live, saved := live }
  | (core, .error _) => { n with core, live, failed := true }

/-- `on_finalized_block`, but for the status of the blocks. -/
def finalized (blockId : BlockId) (written : Bool) : Node :=
  if n.arriving.isSome ∨ written = false then n
  else
    let fulfilled := (pendingRecords n.core.db).filter (!·.unfulfilledAfter blockId)
    { n with
      core := { n.core with db := ((removeFulfilledPendingDepositEventsUpToBlock blockId).run n.core.db).1 }
      dropped := n.dropped ++ fulfilled.map (·.depositOpId) }

/-- `start_from_config` on the database, whatever the process was doing. -/
def restart : Node :=
  match n.core.db .leeState, n.core.db .latestBlockMeta with
  | .some state, .some latest =>
    { n with
      core := ⟨state, n.core.db, [], latest.id⟩
      arriving := .none
      replaying := (pendingRecords n.core.db).filter (·.submittedInBlockId.isNone)
      live := n.saved
      failed := false }
  | _, _ => n

def step : Action → Node
  | .submit tx => { n with core := { n.core with mempool := n.core.mempool ++ [(.user, tx)] } }
  | .deposit info written => n.deposit info written
  | .enqueue => n.enqueue H
  | .replay => n.replay H
  | .produce env => n.produce H cfg env
  | .finalized blockId written => n.finalized blockId written
  | .restart => n.restart

def run (actions : List Action) : Node := actions.foldl (step H cfg) n

end

end Node

/-! ## The records -/

section
variable {db : Db}

/-- A new event is recorded once. -/
theorem addPendingDepositEvent_run (event : PendingDepositEventRecord) :
    (addPendingDepositEvent event).run db =
      if event.depositOpId ∈ (pendingRecords db).map (·.depositOpId) then (db, .ok (.added false))
      else (db.write [⟨.pendingDepositEvents, .some (pendingRecords db ++ [event])⟩], .ok (.added true)) := by
  have hany : ((db .pendingDepositEvents).getD []).any (·.depositOpId = event.depositOpId) = true ↔
      event.depositOpId ∈ (pendingRecords db).map (·.depositOpId) := by
    simp only [pendingRecords, List.any_eq_true, decide_eq_true_eq, List.mem_map]
  unfold addPendingDepositEvent
  rw [Prog.run]
  by_cases hold : event.depositOpId ∈ (pendingRecords db).map (·.depositOpId)
  · rw [if_pos hold, if_pos (hany.mpr hold)]
    rfl
  · rw [if_neg hold, if_neg fun h => hold (hany.mp h)]
    rfl

theorem pendingRecords_write (records : List PendingDepositEventRecord) :
    pendingRecords (db.write [⟨.pendingDepositEvents, .some records⟩]) = records := by
  rw [pendingRecords, Db.write_singleton, Option.getD_some]

/-- The records that stay. -/
theorem removeFulfilled_records (db : Db) (blockId : BlockId) :
    pendingRecords ((removeFulfilledPendingDepositEventsUpToBlock blockId).run db).1 =
      (pendingRecords db).filter (·.unfulfilledAfter blockId) := by
  have hle := List.length_filter_le (·.unfulfilledAfter blockId) (pendingRecords db)
  unfold removeFulfilledPendingDepositEventsUpToBlock
  rw [Prog.run]
  dsimp only
  split
  next => exact pendingRecords_write _
  next hnone =>
    -- Nothing was removed, so the filter kept everything.
    change ¬(pendingRecords db).length - ((pendingRecords db).filter (·.unfulfilledAfter blockId)).length > 0 at hnone
    have hlength : ((pendingRecords db).filter (·.unfulfilledAfter blockId)).length = (pendingRecords db).length := by
      omega
    exact (List.filter_sublist.eq_of_length hlength).symm

/-- Nothing else changes. -/
theorem removeFulfilled_cell (blockId : BlockId) {cell : Cell} (h : cell ≠ .pendingDepositEvents) :
    ((removeFulfilledPendingDepositEventsUpToBlock blockId).run db).1 cell = db cell := by
  unfold removeFulfilledPendingDepositEventsUpToBlock
  rw [Prog.run]
  dsimp only
  split
  next => exact Db.write_other db (by simpa using h.symm)
  next => rfl

end

/-- **What an event does**: nothing, which it does not when it is new and can be written, or a record of its own
that waits for the mempool. -/
theorem Node.deposit_cases (n : Node) (info : DepositInfo) (written : Bool) :
    (n.deposit info written = n ∧ (n.arriving = .none → written = true →
      info.opId ∈ (pendingRecords n.core.db).map (·.depositOpId))) ∨
    (n.arriving = .none ∧ info.opId ∉ (pendingRecords n.core.db).map (·.depositOpId) ∧ ∃ db,
      pendingRecords db = pendingRecords n.core.db ++ [pendingDepositEventRecord info] ∧
      (∀ cell, cell ≠ .pendingDepositEvents → db cell = n.core.db cell) ∧
      n.deposit info written =
        { n with core := { n.core with db }, arriving := .some (pendingDepositEventRecord info) }) := by
  unfold deposit
  by_cases hbusy : n.arriving.isSome ∨ written = false
  · left
    rw [if_pos hbusy]
    refine ⟨rfl, fun hfree hwritten => ?_⟩
    simp [hfree, hwritten] at hbusy
  · rw [if_neg hbusy, addPendingDepositEvent_run]
    by_cases hrecord : (pendingDepositEventRecord info).depositOpId ∈ (pendingRecords n.core.db).map (·.depositOpId)
    · left
      rw [if_pos hrecord]
      exact ⟨rfl, fun _ _ => hrecord⟩
    · right
      rw [if_neg hrecord]
      refine ⟨?_, hrecord, _, pendingRecords_write _, ?_, rfl⟩
      · rw [not_or, Option.not_isSome_iff_eq_none] at hbusy
        exact hbusy.1
      · intro cell hcell
        exact Db.write_other _ (by simpa using hcell.symm)

/-! ## The deposits of a build -/

/-- The deposit a sequencer's transaction in the mempool is for. -/
def queuedDepositId : TransactionOrigin × LeeTransaction → Option HashType
  | (.sequencer, .publicTx tx) =>
    match tx.message.instructionData with
    | 0 :: ws => (Serde.bytes32 ws).map (·.1)
    | _ => .none
  | _ => .none

/-- Every transaction of the sequencer's own is that of a deposit event. -/
def OwnDeposits (H : Host) (mempool : MemPool) : Prop :=
  ∀ tx, (.sequencer, tx) ∈ mempool → ∃ event, buildBridgeDepositTxFromEvent H event = .ok tx

section
variable {H : Host} {cfg : Config} {height : BlockId} {now : Timestamp} {prevBlockHash : HashType}

theorem buildBridgeDepositTxFromEvent_ok {event : PendingDepositEventRecord} {tx : LeeTransaction}
    (h : buildBridgeDepositTxFromEvent H event = .ok tx) : ∃ recipientId ptx, tx = .publicTx ptx ∧
      ptx.message.programId = H.bridge.id ∧ ptx.message.instructionData =
        Bridge.writeBridge (.deposit event.depositOpId H.vault.id recipientId event.amount) := by
  simp only [buildBridgeDepositTxFromEvent, bind_ok_iff, expect_ok_iff, pure_ok_iff] at h
  obtain ⟨recipientId, -, rfl⟩ := h
  exact ⟨recipientId, _, rfl, rfl, rfl⟩

theorem queuedDepositId_of_built {event : PendingDepositEventRecord} {tx : LeeTransaction}
    (h : buildBridgeDepositTxFromEvent H event = .ok tx) :
    queuedDepositId (.sequencer, tx) = .some event.depositOpId := by
  obtain ⟨recipientId, ptx, rfl, -, hdata⟩ := buildBridgeDepositTxFromEvent_ok h
  simp only [queuedDepositId, hdata, Bridge.writeBridge, List.cons_append, List.append_assoc,
    Serde.reads_bytes32 event.depositOpId _ trivial, Option.map_some]

/-- **A deposit that was executed is seen by the host**: the program reads the same words. -/
theorem extractBridgeDepositId_of_executed (hruns : RunsBridge H) {event : PendingDepositEventRecord}
    {tx : LeeTransaction} (hbuilt : buildBridgeDepositTxFromEvent H event = .ok tx) {s s' : V03State}
    (h : s.transition H tx height now = .some s') : extractBridgeDepositId H tx = .some event.depositOpId := by
  obtain ⟨recipientId, ptx, rfl, hprogram, hdata⟩ := buildBridgeDepositTxFromEvent_ok hbuilt
  obtain ⟨diff, hdiff, -⟩ := V03State.settle_eq_some.mp h
  have hexec := (fromPublicTransaction_ok hdiff).exec
  generalize publicCalls H s height now ptx = es at hexec
  cases hexec with
  | cons hcall hrest =>
    have hran := (executeCall_ok hcall).ran
    rw [show (initialPending H s ptx).call.programId = H.bridge.id from hprogram] at hran
    have hmain := hruns.guest_bridge _ _ _ _ hran
    simp only [Bridge.main, bind_ok_iff, expect_ok_iff] at hmain
    obtain ⟨i, hread, -⟩ := hmain
    rw [show (initialPending H s ptx).call.instructionData = ptx.message.instructionData from rfl] at hread
    obtain ⟨v, r, a, rfl⟩ := Bridge.readBridge_deposit (hdata ▸ hread)
    simp only [extractBridgeDepositId, bridgeInstruction, if_pos hprogram, hread]

/-- Only a user's transaction is skipped. -/
theorem takeItem_skipped {b : Building} {item : TransactionOrigin × LeeTransaction}
    (h : takeItem H cfg height now prevBlockHash b item = .skipped) : item.1 = .user := by
  unfold takeItem at h
  split at h
  next => cases h
  next =>
    split at h
    next horigin => exact horigin
    next =>
      unfold takeSequencer at h
      split at h
      next => split at h <;> cases h
      next => cases h

/-- The deposit of an included transaction is noted, and none of them is a user's. -/
theorem takeItem_deposit {b b' : Building} {item : TransactionOrigin × LeeTransaction}
    (h : takeItem H cfg height now prevBlockHash b item = .included b') :
    b'.depositEventIds = b.depositEventIds ++ (extractBridgeDepositId H item.2).toList ∧
      (item.1 = .user → extractBridgeDepositId H item.2 = .none) := by
  unfold takeItem at h
  split at h
  next => cases h
  next =>
    split at h
    next horigin =>
      unfold takeUser at h
      split at h
      next => cases h
      next =>
        split at h
        next => cases h
        next withdraw hwithdraw =>
          split at h
          next => cases h
          next =>
            cases h
            have hnone : extractBridgeDepositId H item.2 = .none := by
              unfold extractBridgeWithdrawData at hwithdraw
              unfold extractBridgeDepositId
              split at hwithdraw
              next hi => rw [hi]
              next => cases hwithdraw
              next hi => rw [hi]
            rw [hnone]
            exact ⟨(List.append_nil _).symm, fun _ => rfl⟩
    next horigin =>
      unfold takeSequencer at h
      split at h
      next tx htx =>
        split at h
        next => cases h
        next =>
          cases h
          exact ⟨by rw [htx], fun huser => by rw [huser] at horigin; cases horigin⟩
      next => cases h

/-- The deposits noted are those of the transactions included. -/
theorem buildLoop_deposits {mempool rest : MemPool} {b b' : Building} {outcome : Except Fault Unit}
    (h : buildLoop H cfg height now prevBlockHash mempool b = (rest, b', outcome))
    (hb : b.validTransactions.filterMap (extractBridgeDepositId H) = b.depositEventIds) :
    b'.validTransactions.filterMap (extractBridgeDepositId H) = b'.depositEventIds := by
  refine buildLoop_invariant
    (P := fun b => b.validTransactions.filterMap (extractBridgeDepositId H) = b.depositEventIds) ?_ h hb
  intro b₁ item b₂ hprev hitem
  obtain ⟨hvalid, -⟩ := takeItem_included hitem
  obtain ⟨hids, -⟩ := takeItem_deposit hitem
  rw [hvalid, hids, List.filterMap_append, hprev]
  cases hid : extractBridgeDepositId H item.2 <;> simp [hid]

/-- What is left of the mempool is its end. -/
theorem buildLoop_suffix : ∀ {mempool : MemPool} {b : Building} {rest : MemPool} {b' : Building}
    {outcome : Except Fault Unit}, buildLoop H cfg height now prevBlockHash mempool b = (rest, b', outcome) →
      rest <:+ mempool
  | [], b, rest, b', outcome, h => by
    cases h
    exact List.suffix_refl _
  | item :: mempool, b, rest, b', outcome, h => by
    unfold buildLoop at h
    split at h
    next =>
      cases h
      exact List.suffix_refl _
    next => exact (buildLoop_suffix h).trans (List.suffix_cons _ _)
    next =>
      split at h
      next =>
        cases h
        exact List.suffix_cons _ _
      next => exact (buildLoop_suffix h).trans (List.suffix_cons _ _)
    next =>
      cases h
      exact List.suffix_cons _ _

theorem SequencerCore.leftover_suffix (core : SequencerCore) (now : Timestamp) :
    core.leftover H cfg now <:+ core.mempool := buildLoop_suffix rfl

/-- **Every queued deposit is in the block or still queued** when the loop was not stopped. -/
theorem buildLoop_queued (hruns : RunsBridge H) : ∀ {mempool : MemPool} {b : Building} {rest : MemPool} {b' : Building},
    buildLoop H cfg height now prevBlockHash mempool b = (rest, b', .ok ()) → OwnDeposits H mempool →
      b'.depositEventIds ++ rest.filterMap queuedDepositId = b.depositEventIds ++ mempool.filterMap queuedDepositId
  | [], b, rest, b', h, _ => by
    cases h
    rfl
  | item :: mempool, b, rest, b', h, hown => by
    have hown' : OwnDeposits H mempool := fun tx htx => hown tx (List.mem_cons_of_mem _ htx)
    unfold buildLoop at h
    split at h
    next =>
      cases h
      rfl
    next hitem =>
      have hnone : queuedDepositId item = .none := by
        obtain ⟨origin, tx⟩ := item
        obtain rfl := takeItem_skipped hitem
        rfl
      rw [buildLoop_queued hruns h hown', List.filterMap_cons_none hnone]
    next b₁ hitem =>
      -- The host and the mempool agree on which deposit was included.
      have hsame : extractBridgeDepositId H item.2 = queuedDepositId item := by
        obtain ⟨origin, tx⟩ := item
        cases origin with
        | user => exact (takeItem_deposit hitem).2 rfl
        | sequencer =>
          obtain ⟨event, hevent⟩ := hown tx List.mem_cons_self
          rw [queuedDepositId_of_built hevent]
          exact extractBridgeDepositId_of_executed hruns hevent (takeItem_included hitem).2
      have hids : b₁.depositEventIds ++ mempool.filterMap queuedDepositId =
          b.depositEventIds ++ (item :: mempool).filterMap queuedDepositId := by
        rw [(takeItem_deposit hitem).1, hsame, List.append_assoc, List.filterMap_cons]
        cases queuedDepositId item <;> rfl
      split at h
      next =>
        cases h
        exact hids
      next => exact (buildLoop_queued hruns h hown').trans hids
    next => cases h

end

end Lez.Sequencer
