/-
`SequencerCore`: the live state, the mempool and the store of a sequencer,
and how a block is made of them. The builder takes transactions off the
mempool one by one and applies each to the live state at once: a user's goes
through `validate_on_state` and is skipped when that refuses it; one of the
sequencer's own (a deposit) is executed as it is and stops the build when it
fails. The clock's comes last. Then the block is published and stored.

What the world decides of a call is an `Env`.
-/
import Lez.Programs.Bridge
import Lez.Sequencer.Storage

namespace Lez.Sequencer

open Store

inductive TransactionOrigin
  | user
  | sequencer
deriving DecidableEq

/-- The items pushed back, last first, and then the channel's: `pop` takes the head. -/
abbrev MemPool := List (TransactionOrigin × LeeTransaction)

/-- The settings a block depends on, the signing key, and the order of the field of L1 public keys. -/
structure Config where
  maxNumTxInBlock : Nat
  maxBlockSize : Nat
  sign : HashType → Signature
  zkOrder : Nat

/-! ## Bridge instructions -/

/-- `WithdrawArg`: its one note. -/
structure WithdrawArg where
  value : UInt64
  pk : Nat
deriving DecidableEq

section
variable (H : Host)

/-- What the host decodes of a transaction to the bridge. -/
def bridgeInstruction : LeeTransaction → Option Bridge.Instruction
  | .publicTx tx =>
    if tx.message.programId = H.bridge.id then Bridge.readBridge tx.message.instructionData else .none
  | _ => .none

def extractBridgeDepositId (tx : LeeTransaction) : Option HashType :=
  match bridgeInstruction H tx with
  | .some (.deposit l1DepositOpId _ _ _) => .some l1DepositOpId
  | _ => .none

def extractBridgeWithdrawData (cfg : Config) (tx : LeeTransaction) : Except Fault (Option WithdrawArg) :=
  match bridgeInstruction H tx with
  | .some (.withdraw amount bedrockAccountPk) =>
    .ok (.some ⟨amount, ofLe bedrockAccountPk.toList % cfg.zkOrder⟩)
  | .some (.deposit _ _ _ _) =>
    .error (.panic
      "Deposit instructions from users should never pass validation, and thus should never be seen here")
  | .none => .ok .none

/-- The amount and the public key's bytes. -/
def WithdrawArg.key (w : WithdrawArg) : WithdrawalReconciliationKey := ⟨w.value, ⟨toLe 32 w.pk, by simp⟩⟩

/-- `withdraw_event_reconciliation_key` of one note. -/
def withdrawEventReconciliationKey (w : WithdrawArg) : Except Fault WithdrawalReconciliationKey :=
  if w.pk < 2 ^ 256 then .ok w.key
  else .error (.error (.other "Withdraw recipient public key is too large"))

/-! ## Building a block -/

/-- The live state and what the block has so far. -/
structure Building where
  state : V03State
  validTransactions : List LeeTransaction
  depositEventIds : List HashType
  withdrawals : List WithdrawArg

/-- What becomes of a transaction taken off the mempool. -/
inductive Taken
  | deferred
  | skipped
  | included (b : Building)
  | stopped (fault : Fault)

variable (cfg : Config) (height : BlockId) (now : Timestamp) (prevBlockHash : HashType)

/-- The size of the block with the transaction and the clock's. -/
def blockSize (b : Building) (tx : LeeTransaction) : Nat :=
  (HashableBlockData.mk height prevBlockHash now
    (b.validTransactions ++ [tx] ++ [LeeTransaction.clockInvocation H now])).toBytes.length

def takeUser (b : Building) (tx : LeeTransaction) : Taken :=
  match tx.validateOnState H b.state height now with
  | .error _ => .skipped
  | .ok diff =>
    match extractBridgeWithdrawData H cfg tx with
    | .error fault => .stopped fault
    | .ok withdraw =>
      match b.state.apply H diff with
      | .error fault => .stopped fault
      | .ok s => .included
          { b with
            state := s
            validTransactions := b.validTransactions ++ [tx]
            withdrawals := b.withdrawals ++ withdraw.toList }

def takeSequencer (b : Building) (tx : LeeTransaction) : Taken :=
  match tx with
  | .publicTx _ =>
    match b.state.execute H (.leeIn "Failed to execute sequencer-generated transaction") tx height now with
    | .error fault => .stopped fault
    | .ok s => .included
        { b with
          state := s
          validTransactions := b.validTransactions ++ [tx]
          depositEventIds := b.depositEventIds ++ (extractBridgeDepositId H tx).toList }
  | _ => .stopped (.panic "Sequencer may only generate Public transactions")

def takeItem (b : Building) (item : TransactionOrigin × LeeTransaction) : Taken :=
  if blockSize H height now prevBlockHash b item.2 > cfg.maxBlockSize then .deferred
  else
    match item.1 with
    | .user => takeUser H cfg height now b item.2
    | .sequencer => takeSequencer H height now b item.2

/-- The `while` loop: what is left of the mempool, the block so far, and why it stopped early. -/
def buildLoop : MemPool → Building → MemPool × Building × Except Fault Unit
  | [], b => ([], b, .ok ())
  | item :: rest, b =>
    match takeItem H cfg height now prevBlockHash b item with
    | .deferred => (item :: rest, b, .ok ())
    | .skipped => buildLoop rest b
    | .included b' =>
      if b'.validTransactions.length ≥ cfg.maxNumTxInBlock then (rest, b', .ok ()) else buildLoop rest b'
    | .stopped fault => (rest, b, .error fault)

end

structure SequencerCore where
  state : V03State
  db : Db
  mempool : MemPool
  chainHeight : BlockId

structure BlockWithMeta where
  block : Block
  depositEventIds : List HashType
  withdrawals : List WithdrawArg

/-- The time, what the publisher answers, and whether RocksDB takes the batch. -/
structure Env where
  now : Timestamp
  publishBlock : Except NodeError Unit
  written : Bool

namespace SequencerCore

section
variable (H : Host) (cfg : Config)

/-- `build_block_from_mempool`: the sequencer it leaves and its answer. -/
def buildBlockFromMempool (now : Timestamp) (core : SequencerCore) : SequencerCore × Except Fault BlockWithMeta :=
  if core.chainHeight.toNat + 1 < 2 ^ 64 then
    let height := core.chainHeight + 1
    match core.db .latestBlockMeta with
    | .none => (core, .error (.error (.within "Failed to get latest block meta from store"
        (.db (.dbInteractionError "\"latest_block_meta\" not found")))))
    | .some latest =>
      match buildLoop H cfg height now latest.hash core.mempool ⟨core.state, [], [], []⟩ with
      | (rest, b, .error fault) => ({ core with state := b.state, mempool := rest }, .error fault)
      | (rest, b, .ok ()) =>
        let clockTx := LeeTransaction.clockInvocation H now
        match b.state.execute H (.leeIn "Clock transaction failed. Aborting block production.") clockTx height now with
        | .error fault => ({ core with state := b.state, mempool := rest }, .error fault)
        | .ok s =>
          let data : HashableBlockData := ⟨height, latest.hash, now, b.validTransactions ++ [clockTx]⟩
          ({ core with state := s, mempool := rest, chainHeight := height },
            .ok ⟨data.intoPendingBlock H cfg.sign, b.depositEventIds, b.withdrawals⟩)
  else (core, .error (.panic "Max block height reached"))

/-- `produce_new_block`: the sequencer it leaves and its answer. -/
def produceNewBlock (env : Env) (core : SequencerCore) : SequencerCore × Except Fault BlockId :=
  match core.buildBlockFromMempool H cfg env.now with
  | (built, .error fault) => (built, .error (fault.within "Failed to build block from mempool transactions"))
  | (built, .ok made) =>
    match made.withdrawals.mapM withdrawEventReconciliationKey with
    | .error fault => (built, .error (fault.within "Failed to build reconciliation keys for block withdrawals"))
    | .ok withdrawals =>
      match env.publishBlock with
      | .error e => (built, .error (.error (.within "Failed to publish block to Bedrock" e)))
      | .ok () =>
        if env.written then
          match (atomicUpdate made.block made.depositEventIds withdrawals built.state).run built.db with
          | (db, .error e) => ({ built with db }, .error (.error (.db e)))
          | (db, .ok _) => ({ built with db }, .ok built.chainHeight)
        else (built, .error (.error (.db .rocksDbError)))

end

end SequencerCore

/-! ## What a build does to the state -/

/-- Transactions one after another in one block. -/
def transitions (H : Host) (blockId : BlockId) (timestamp : Timestamp) (txs : List LeeTransaction) (s : V03State) :
    Option V03State :=
  txs.foldlM (fun s tx => s.transition H tx blockId timestamp) s

section
variable {H : Host} {blockId : BlockId} {timestamp : Timestamp} {s : V03State} {txs txs' : List LeeTransaction}
  {tx : LeeTransaction}

theorem transitions_append : transitions H blockId timestamp (txs ++ txs') s =
    (transitions H blockId timestamp txs s).bind (transitions H blockId timestamp txs') := List.foldlM_append

theorem transitions_cons : transitions H blockId timestamp (tx :: txs) s =
    (s.transition H tx blockId timestamp).bind (transitions H blockId timestamp txs) := rfl

theorem transitions_singleton : transitions H blockId timestamp [tx] s = s.transition H tx blockId timestamp := by
  rw [transitions_cons]
  cases s.transition H tx blockId timestamp <;> rfl

variable {cfg : Config} {height : BlockId} {now : Timestamp} {prevBlockHash : HashType} {b b' : Building}
  {item : TransactionOrigin × LeeTransaction}

/-- **An included transaction is applied by the ledger's transition**, whoever sent it. -/
theorem takeItem_included (h : takeItem H cfg height now prevBlockHash b item = .included b') :
    b'.validTransactions = b.validTransactions ++ [item.2] ∧
      b.state.transition H item.2 height now = .some b'.state := by
  unfold takeItem at h
  split at h
  next => cases h
  next =>
    split at h
    next =>
      unfold takeUser at h
      split at h
      next => cases h
      next diff hvalid =>
        split at h
        next => cases h
        next =>
          split at h
          next => cases h
          next s hs =>
            cases h
            refine ⟨rfl, V03State.settle_eq_some.mpr ⟨diff, LeeTransaction.validateOnState_ok hvalid, ?_⟩⟩
            exact expect_ok_iff.mp hs
    next =>
      unfold takeSequencer at h
      split at h
      next tx htx =>
        split at h
        next => cases h
        next s hs =>
          cases h
          exact ⟨by rw [htx], V03State.execute_ok_iff.mp hs⟩
      next => cases h

/-- What every included transaction keeps, a build keeps. -/
theorem buildLoop_invariant {P : Building → Prop}
    (hstep : ∀ b item b', P b → takeItem H cfg height now prevBlockHash b item = .included b' → P b') :
    ∀ {mempool : MemPool} {b : Building} {rest : MemPool} {b' : Building} {outcome : Except Fault Unit},
      buildLoop H cfg height now prevBlockHash mempool b = (rest, b', outcome) → P b → P b'
  | [], b, rest, b', outcome, h, hP => by
    cases h
    exact hP
  | item :: mempool, b, rest, b', outcome, h, hP => by
    unfold buildLoop at h
    split at h
    next =>
      cases h
      exact hP
    next => exact buildLoop_invariant hstep h hP
    next b₁ hitem =>
      have hP₁ := hstep b item b₁ hP hitem
      split at h
      next =>
        cases h
        exact hP₁
      next => exact buildLoop_invariant hstep h hP₁
    next =>
      cases h
      exact hP

/-- The transactions a build includes, and the state they lead to. -/
theorem buildLoop_transitions {mempool rest : MemPool} {outcome : Except Fault Unit}
    (h : buildLoop H cfg height now prevBlockHash mempool b = (rest, b', outcome)) :
    ∃ txs, b'.validTransactions = b.validTransactions ++ txs ∧ transitions H height now txs b.state = .some b'.state := by
  refine buildLoop_invariant (P := fun b' => ∃ txs, b'.validTransactions = b.validTransactions ++ txs ∧
    transitions H height now txs b.state = .some b'.state) ?_ h ⟨[], (List.append_nil _).symm, rfl⟩
  intro b₁ item b₂ hprev hitem
  obtain ⟨txs, hvalid, hstate⟩ := hprev
  obtain ⟨hvalid', hstate'⟩ := takeItem_included hitem
  refine ⟨txs ++ [item.2], by rw [hvalid', hvalid, List.append_assoc], ?_⟩
  rw [transitions_append, hstate, Option.bind_some, transitions_singleton, hstate']

/-! ## A block that was built -/

/-- What a build that succeeds leaves: the block's transactions lead from the old state to the new one. -/
structure BuiltFrom (H : Host) (now : Timestamp) (core core' : SequencerCore) (block : Block) : Prop where
  fits : core.chainHeight.toNat + 1 < 2 ^ 64
  chainHeight : core'.chainHeight = core.chainHeight + 1
  db : core'.db = core.db
  blockId : block.header.blockId = core.chainHeight + 1
  timestamp : block.header.timestamp = now
  transactions : ∃ txs u, block.body.transactions = txs ++ [LeeTransaction.clockInvocation H now] ∧
    transitions H (core.chainHeight + 1) now txs core.state = .some u ∧
    u.transition H (LeeTransaction.clockInvocation H now) (core.chainHeight + 1) now = .some core'.state

theorem SequencerCore.buildBlockFromMempool_ok {core core' : SequencerCore} {made : BlockWithMeta}
    (h : core.buildBlockFromMempool H cfg now = (core', .ok made)) : BuiltFrom H now core core' made.block := by
  unfold buildBlockFromMempool at h
  split at h
  next hfits =>
    split at h
    next => cases h
    next latest _ =>
      dsimp only at h
      split at h
      next => cases h
      next rest b hloop =>
        split at h
        next => cases h
        next s hclock =>
          cases h
          obtain ⟨txs, hvalid, hstate⟩ := buildLoop_transitions hloop
          refine ⟨hfits, rfl, rfl, rfl, rfl, txs, b.state, ?_, hstate, V03State.execute_ok_iff.mp hclock⟩
          rw [List.nil_append] at hvalid
          rw [← hvalid]
          rfl
  next => cases h

end

namespace Sample

def cfg : Config := ⟨10, 2 ^ 20, fun _ => ByteVec.fill 64 0, 2 ^ 254⟩

/-- A genesis block of the clock's transaction alone. -/
def genesis (H : Host) : Block := Reference.block 1 0 [LeeTransaction.clockInvocation H 0]

/-- The ledger after it. -/
def started (H : Host) (s : V03State) : V03State :=
  (s.transition H (LeeTransaction.clockInvocation H 0) 1 0).getD s

/-- A sequencer that has stored it. -/
def core (H : Host) (s : V03State) (mempool : MemPool) : SequencerCore where
  state := started H s
  db := (db 1).write [⟨.block 1, .some (genesis H)⟩, ⟨.latestBlockMeta, .some ⟨1, (genesis H).header.hash⟩⟩,
    ⟨.leeState, .some (started H s)⟩]
  mempool := mempool
  chainHeight := 1

/-- A node whose other programs do nothing, and a user's call of one of them. -/
def idleHost : Host := Reference.nodeHost { programs := fun _ => Reference.idle }

def idleLedger : V03State := Reference.nodeLedger [] [Reference.programId 20]

def idleCall : LeeTransaction := .publicTx (Reference.unsigned (Reference.programId 20) [] [])

def idleCore : SequencerCore := core idleHost idleLedger [(.user, idleCall)]

/-- A ledger whose bridge account has a balance. -/
def bridgeLedger : V03State := Reference.nodeLedger [(systemBridgeAccountId idleHost, Reference.funded 100)] []

theorem idleLedger_started : idleLedger.transition idleHost (LeeTransaction.clockInvocation idleHost 0) 1 0 =
    .some idleCore.state := by
  have hclock : (idleLedger.transition idleHost (LeeTransaction.clockInvocation idleHost 0) 1 0).isSome := by
    decide +kernel
  obtain ⟨s, hs⟩ := Option.isSome_iff_exists.mp hclock
  unfold idleCore core started
  rw [hs]
  rfl

end Sample

end Lez.Sequencer
