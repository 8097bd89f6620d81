/-
The limits of a block (`build_block_from_mempool`, `send_transaction`): how
large it gets, how many transactions it holds, and what it leaves of the
queue. A transaction is admitted when the block limit leaves it 200 bytes of
room; the block it starts needs 205 more than the transaction itself.
-/
import Lez.Sequencer.Deposits

namespace Lez

/-! ## Sizes -/

theorem borshSeq_length {α : Type} (f : α → Bytes) (l : List α) :
    (borshSeq f l).length = 4 + (l.map fun a => (f a).length).sum := by
  simp [borshSeq]

theorem HashableBlockData.toBytes_length (d : HashableBlockData) :
    d.toBytes.length = 52 + (d.transactions.map fun tx => tx.borsh.length).sum := by
  simp only [toBytes, List.length_append, toLe_length, borshSeq_length, List.Vector.toList_length]
  omega

theorem LeeTransaction.clockInvocation_length (H : Host) (now : Timestamp) :
    (clockInvocation H now).borsh.length = 153 := by
  have hids : clockProgramAccountIds.length = 3 := rfl
  simp [clockInvocation, borsh, toBytes, borshWitnesses, PublicTransaction.Message.toBytes, borshSeq_length, hids,
    Serde.writeU64]

end Lez

namespace Lez.Sequencer

open Store

/-- A block of these transactions and the clock's. -/
theorem closed_length (H : Host) (height : BlockId) (prevBlockHash : HashType) (now : Timestamp)
    (txs : List LeeTransaction) :
    (HashableBlockData.mk height prevBlockHash now (txs ++ [LeeTransaction.clockInvocation H now])).toBytes.length =
      205 + (txs.map fun tx => tx.borsh.length).sum := by
  rw [HashableBlockData.toBytes_length, List.map_append, List.sum_append]
  simp only [List.map_cons, List.map_nil, List.sum_singleton, LeeTransaction.clockInvocation_length]
  omega

section
variable {H : Host} {cfg : Config} {height : BlockId} {now : Timestamp} {prevBlockHash : HashType}
  {b b' : Building} {item : TransactionOrigin × LeeTransaction}

theorem blockSize_eq (b : Building) (tx : LeeTransaction) :
    blockSize H height now prevBlockHash b tx =
      205 + (b.validTransactions.map fun tx => tx.borsh.length).sum + tx.borsh.length := by
  rw [blockSize, closed_length, List.map_append, List.sum_append]
  simp only [List.map_cons, List.map_nil, List.sum_singleton]
  omega

/-! ## What is drawn from the queue -/

/-- The transactions accepted of a part of the queue, in its order: a user's where `validate_on_state` accepts it on
the state the ones before it left, the sequencer's own always. -/
inductive Drawn (H : Host) (height : BlockId) (now : Timestamp) :
    MemPool → V03State → List LeeTransaction → V03State → Prop
  | nil {s : V03State} : Drawn H height now [] s [] s
  | accepted {s s' s'' : V03State} {tx : LeeTransaction} {diff : StateDiff} {queue : MemPool} {txs : List LeeTransaction} :
      tx.validateOnState H s height now = .ok diff → s.apply H diff = .ok s' → Drawn H height now queue s' txs s'' →
      Drawn H height now ((.user, tx) :: queue) s (tx :: txs) s''
  | refused {s s'' : V03State} {tx : LeeTransaction} {error : LeeError} {queue : MemPool} {txs : List LeeTransaction} :
      tx.validateOnState H s height now = .error error → Drawn H height now queue s txs s'' →
      Drawn H height now ((.user, tx) :: queue) s txs s''
  | own {s s' s'' : V03State} {tx : LeeTransaction} {queue : MemPool} {txs : List LeeTransaction} :
      s.transition H tx height now = .some s' → Drawn H height now queue s' txs s'' →
      Drawn H height now ((.sequencer, tx) :: queue) s (tx :: txs) s''

/-- What becomes of an item of the queue, with why. -/
inductive Outcome (H : Host) (cfg : Config) (height : BlockId) (now : Timestamp) (prevBlockHash : HashType)
    (b : Building) : TransactionOrigin × LeeTransaction → Taken → Prop
  | deferred {item : TransactionOrigin × LeeTransaction} :
      cfg.maxBlockSize < blockSize H height now prevBlockHash b item.2 →
      Outcome H cfg height now prevBlockHash b item .deferred
  | refused {tx : LeeTransaction} {error : LeeError} : tx.validateOnState H b.state height now = .error error →
      Outcome H cfg height now prevBlockHash b (.user, tx) .skipped
  | accepted {tx : LeeTransaction} {diff : StateDiff} {b' : Building} :
      blockSize H height now prevBlockHash b tx ≤ cfg.maxBlockSize →
      tx.validateOnState H b.state height now = .ok diff → b.state.apply H diff = .ok b'.state →
      b'.validTransactions = b.validTransactions ++ [tx] →
      Outcome H cfg height now prevBlockHash b (.user, tx) (.included b')
  | own {tx : LeeTransaction} {b' : Building} : blockSize H height now prevBlockHash b tx ≤ cfg.maxBlockSize →
      b.state.transition H tx height now = .some b'.state → b'.validTransactions = b.validTransactions ++ [tx] →
      Outcome H cfg height now prevBlockHash b (.sequencer, tx) (.included b')
  | stopped {item : TransactionOrigin × LeeTransaction} {fault : Fault} :
      Outcome H cfg height now prevBlockHash b item (.stopped fault)

theorem takeItem_outcome (b : Building) (item : TransactionOrigin × LeeTransaction) :
    Outcome H cfg height now prevBlockHash b item (takeItem H cfg height now prevBlockHash b item) := by
  obtain ⟨origin, tx⟩ := item
  unfold takeItem
  split
  next hsize => exact .deferred hsize
  next hsize =>
    cases origin with
    | user =>
      dsimp only
      unfold takeUser
      split
      next error herror => exact .refused herror
      next diff hvalid =>
        split
        next => exact .stopped
        next =>
          split
          next => exact .stopped
          next s hs => exact .accepted (Nat.le_of_not_lt hsize) hvalid hs rfl
    | sequencer =>
      dsimp only
      unfold takeSequencer
      split
      next =>
        split
        next => exact .stopped
        next s hs => exact .own (Nat.le_of_not_lt hsize) (V03State.execute_ok_iff.mp hs) rfl
      next => exact .stopped

theorem Outcome.skipped_drawn (h : Outcome H cfg height now prevBlockHash b item .skipped) {queue : MemPool}
    {txs : List LeeTransaction} {s'' : V03State} (hrest : Drawn H height now queue b.state txs s'') :
    Drawn H height now (item :: queue) b.state txs s'' := by
  cases h with
  | refused herror => exact .refused herror hrest

theorem Outcome.included_drawn (h : Outcome H cfg height now prevBlockHash b item (.included b')) {queue : MemPool}
    {txs : List LeeTransaction} {s'' : V03State} (hrest : Drawn H height now queue b'.state txs s'') :
    Drawn H height now (item :: queue) b.state (item.2 :: txs) s'' := by
  cases h with
  | accepted _ hvalid happly _ => exact .accepted hvalid happly hrest
  | own _ htransition _ => exact .own htransition hrest

theorem Outcome.included_valid (h : Outcome H cfg height now prevBlockHash b item (.included b')) :
    blockSize H height now prevBlockHash b item.2 ≤ cfg.maxBlockSize ∧
      b'.validTransactions = b.validTransactions ++ [item.2] := by
  cases h with
  | accepted hsize _ _ hvalid => exact ⟨hsize, hvalid⟩
  | own hsize _ hvalid => exact ⟨hsize, hvalid⟩

/-- **The loop**: it takes a part off the front of the queue, and a block below the limits stays within them. -/
theorem buildLoop_within : ∀ {mempool : MemPool} {b : Building} {rest : MemPool} {b' : Building},
    buildLoop H cfg height now prevBlockHash mempool b = (rest, b', .ok ()) →
    205 + (b.validTransactions.map fun tx => tx.borsh.length).sum ≤ cfg.maxBlockSize →
    b.validTransactions.length < max 1 cfg.maxNumTxInBlock →
    ∃ taken txs, mempool = taken ++ rest ∧ b'.validTransactions = b.validTransactions ++ txs ∧
      Drawn H height now taken b.state txs b'.state ∧
      205 + (b'.validTransactions.map fun tx => tx.borsh.length).sum ≤ cfg.maxBlockSize ∧
      b'.validTransactions.length ≤ max 1 cfg.maxNumTxInBlock
  | [], b, rest, b', h, hsize, hcount => by
    cases h
    exact ⟨[], [], rfl, (List.append_nil _).symm, .nil, hsize, Nat.le_of_lt hcount⟩
  | item :: mempool, b, rest, b', h, hsize, hcount => by
    unfold buildLoop at h
    split at h
    next =>
      cases h
      exact ⟨[], [], rfl, (List.append_nil _).symm, .nil, hsize, Nat.le_of_lt hcount⟩
    next htake =>
      have houtcome := htake ▸ takeItem_outcome b item
      obtain ⟨taken, txs, rfl, hvalid, hdrawn, hwithin⟩ := buildLoop_within h hsize hcount
      exact ⟨item :: taken, txs, rfl, hvalid, houtcome.skipped_drawn hdrawn, hwithin⟩
    next b₁ htake =>
      have houtcome := htake ▸ takeItem_outcome b item
      obtain ⟨hfits, hvalid₁⟩ := houtcome.included_valid
      have hsize₁ : 205 + (b₁.validTransactions.map fun tx => tx.borsh.length).sum ≤ cfg.maxBlockSize := by
        rw [blockSize_eq] at hfits
        rw [hvalid₁, List.map_append, List.sum_append, List.map_singleton, List.sum_singleton]
        omega
      have hcount₁ : b₁.validTransactions.length = b.validTransactions.length + 1 := by simp [hvalid₁]
      split at h
      next hfull =>
        cases h
        exact ⟨[item], [item.2], rfl, hvalid₁, houtcome.included_drawn .nil, hsize₁, by omega⟩
      next hroom =>
        obtain ⟨taken, txs, rfl, hvalid, hdrawn, hwithin⟩ := buildLoop_within h hsize₁ (by omega)
        refine ⟨item :: taken, item.2 :: txs, rfl, ?_, houtcome.included_drawn hdrawn, hwithin⟩
        rw [hvalid, hvalid₁, List.append_assoc, List.singleton_append]
    next => cases h

/-- **Blocks keep to the limits and to the queue.** Where a block of the clock's transaction alone fits, every block
that is built fits, holds at most `max(1, max_num_tx_in_block)` transactions besides the clock's, and these are the
accepted ones of a part of the queue from its front, in its order; the mempool is left with the rest. -/
theorem block_within_limits {core core' : SequencerCore} {made : BlockWithMeta}
    (hclock : ∀ d : HashableBlockData, d.transactions = [LeeTransaction.clockInvocation H now] →
      d.toBytes.length ≤ cfg.maxBlockSize)
    (h : core.buildBlockFromMempool H cfg now = (core', .ok made)) :
    (HashableBlockData.mk made.block.header.blockId made.block.header.prevBlockHash made.block.header.timestamp
      made.block.body.transactions).toBytes.length ≤ cfg.maxBlockSize ∧
    ∃ taken txs u, made.block.body.transactions = txs ++ [LeeTransaction.clockInvocation H now] ∧
      txs.length ≤ max 1 cfg.maxNumTxInBlock ∧ core.mempool = taken ++ core'.mempool ∧
      Drawn H (core.chainHeight + 1) now taken core.state txs u := by
  have hroom := hclock ⟨0, ByteVec.fill 32 0, now, [LeeTransaction.clockInvocation H now]⟩ rfl
  rw [← List.nil_append [LeeTransaction.clockInvocation H now], closed_length] at hroom
  unfold SequencerCore.buildBlockFromMempool at h
  split at h
  next =>
    split at h
    next => cases h
    next latest _ =>
      dsimp only at h
      split at h
      next => cases h
      next rest b hloop =>
        split at h
        next => cases h
        next s _ =>
          cases h
          obtain ⟨taken, txs, hqueue, hvalid, hdrawn, hsize, hcount⟩ := buildLoop_within hloop hroom (by simp)
          rw [List.nil_append] at hvalid
          refine ⟨?_, taken, txs, b.state, by rw [← hvalid]; rfl, by rwa [← hvalid], hqueue, hdrawn⟩
          exact Nat.le_trans (Nat.le_of_eq (closed_length H _ _ now _)) hsize
  next => cases h

end

open Sequencer.Sample in
/-- A block with a user's transaction. -/
theorem idle_block_within_limits : ∃ core' made, idleCore.buildBlockFromMempool idleHost cfg 5 = (core', .ok made) ∧
    made.block.body.transactions.length ≤ 11 ∧ ∃ taken, idleCore.mempool = taken ++ core'.mempool := by
  have hok : (idleCore.buildBlockFromMempool idleHost cfg 5).2.isOk = true := by decide +kernel
  obtain ⟨made, hmade⟩ := isOk_iff.mp hok
  have hrun : idleCore.buildBlockFromMempool idleHost cfg 5 = ((idleCore.buildBlockFromMempool idleHost cfg 5).1, .ok made) := by
    rw [← hmade]
  have hclock : ∀ d : HashableBlockData, d.transactions = [LeeTransaction.clockInvocation idleHost 5] →
      d.toBytes.length ≤ cfg.maxBlockSize := by
    intro d hd
    rw [HashableBlockData.toBytes_length, hd, List.map_singleton, List.sum_singleton,
      LeeTransaction.clockInvocation_length]
    decide
  obtain ⟨_, taken, txs, _, htxs, hcount, hqueue, _⟩ := block_within_limits hclock hrun
  refine ⟨_, made, hrun, ?_, taken, hqueue⟩
  rw [htxs, List.length_append, List.length_singleton]
  exact Nat.succ_le_succ hcount

/-! ## Admission -/

/-- `BLOCK_HEADER_OVERHEAD`. -/
def blockHeaderOverhead : Nat := 200

/-- The errors of `send_transaction`. -/
inductive SendError
  | tooLarge (size max : Nat)
  | malformed (error : TransactionMalformationError)
deriving DecidableEq

/-- `send_transaction`: the queue and the hash it answers with. -/
def sendTransaction (H : Host) (maxBlockSize : Nat) (mempool : MemPool) (tx : LeeTransaction) :
    Except SendError (MemPool × HashType) := do
  let maxTxSize := maxBlockSize - blockHeaderOverhead
  ensure (tx.borsh.length ≤ maxTxSize) (.tooLarge tx.borsh.length maxTxSize)
  let authenticatedTx ← (tx.transactionStatelessCheck H).mapError .malformed
  pure (mempool ++ [(.user, authenticatedTx)], tx.hash H)

section
variable {H : Host} {cfg : Config} {height : BlockId} {now : Timestamp} {prevBlockHash : HashType}
  {b : Building} {item : TransactionOrigin × LeeTransaction}

/-- The block of the transaction and the clock's is within the limit, and a build that finds the transaction at the
front of the queue takes it off. -/
structure Fits (H : Host) (cfg : Config) (tx : LeeTransaction) : Prop where
  size : ∀ height prevBlockHash now, (HashableBlockData.mk height prevBlockHash now
    [tx, LeeTransaction.clockInvocation H now]).toBytes.length ≤ cfg.maxBlockSize
  leaves : ∀ {core : SequencerCore} {rest : MemPool} (now : Timestamp), core.mempool = (.user, tx) :: rest →
    core.chainHeight.toNat + 1 < 2 ^ 64 → core.db .latestBlockMeta ≠ .none →
    (core.buildBlockFromMempool H cfg now).1.mempool <:+ rest

/-- What a build leaves of the queue is what its loop leaves. -/
theorem SequencerCore.buildBlockFromMempool_mempool (core : SequencerCore) {latest : BlockMeta}
    (hheight : core.chainHeight.toNat + 1 < 2 ^ 64) (hlatest : core.db .latestBlockMeta = .some latest) :
    (core.buildBlockFromMempool H cfg now).1.mempool =
      (buildLoop H cfg (core.chainHeight + 1) now latest.hash core.mempool ⟨core.state, [], [], []⟩).1 := by
  unfold buildBlockFromMempool
  rw [if_pos hheight, hlatest]
  dsimp only
  split
  next hloop => rw [hloop]
  next hloop =>
    rw [hloop]
    split <;> rfl

theorem takeItem_deferred_iff : takeItem H cfg height now prevBlockHash b item = .deferred ↔
    cfg.maxBlockSize < blockSize H height now prevBlockHash b item.2 := by
  constructor
  · intro h
    cases h ▸ takeItem_outcome b item with
    | deferred hsize => exact hsize
  · exact fun hsize => if_pos hsize

/-- A build that finds a transaction too large for a block of its own leaves the queue as it is. -/
theorem SequencerCore.build_stuck (core : SequencerCore) {tx : LeeTransaction} {rest : MemPool}
    (hqueue : core.mempool = (.user, tx) :: rest) (hlarge : cfg.maxBlockSize < tx.borsh.length + 205) :
    (core.buildBlockFromMempool H cfg now).1.mempool = core.mempool := by
  by_cases hheight : core.chainHeight.toNat + 1 < 2 ^ 64
  · cases hlatest : core.db .latestBlockMeta with
    | none =>
      unfold buildBlockFromMempool
      rw [if_pos hheight, hlatest]
    | some latest =>
      rw [core.buildBlockFromMempool_mempool hheight hlatest, hqueue, buildLoop, takeItem_deferred_iff.mpr]
      rw [blockSize_eq]
      simp only [List.map_nil, List.sum_nil]
      omega
  · unfold buildBlockFromMempool
    rw [if_neg hheight]

/-- And so do any number of builds. -/
theorem builds_stuck {tx : LeeTransaction} {rest : MemPool} (hlarge : cfg.maxBlockSize < tx.borsh.length + 205) :
    ∀ {times : List Timestamp} {core : SequencerCore}, core.mempool = (.user, tx) :: rest →
      (times.foldl (fun core now => (core.buildBlockFromMempool H cfg now).1) core).mempool = (.user, tx) :: rest
  | [], _, hqueue => hqueue
  | now :: times, core, hqueue => by
    rw [List.foldl_cons]
    exact builds_stuck hlarge ((core.build_stuck hqueue hlarge).trans hqueue)

/-- **An admitted transaction fits a block exactly when the limit leaves it 205 bytes.** -/
theorem admitted_fits_iff {mempool mempool' : MemPool} {tx : LeeTransaction} {hash : HashType}
    (h : sendTransaction H cfg.maxBlockSize mempool tx = .ok (mempool', hash)) :
    mempool' = mempool ++ [(.user, tx)] ∧ (Fits H cfg tx ↔ tx.borsh.length + 205 ≤ cfg.maxBlockSize) := by
  simp only [sendTransaction, bind_ok_iff, mapError_ok_iff, pure_ok_iff, Prod.mk.injEq] at h
  obtain ⟨_, _, tx', hcheck, rfl, _⟩ := h
  obtain ⟨_, rfl⟩ := LeeTransaction.transactionStatelessCheck_ok_iff.mp hcheck
  have hsize : ∀ height prevBlockHash now, (HashableBlockData.mk height prevBlockHash now
      [tx, LeeTransaction.clockInvocation H now]).toBytes.length = 205 + tx.borsh.length := by
    intro height prevBlockHash now
    have := closed_length H height prevBlockHash now [tx]
    rwa [List.map_singleton, List.sum_singleton] at this
  refine ⟨rfl, fun hfits => ?_, fun hroom => ⟨fun height prevBlockHash now => ?_, ?_⟩⟩
  · have := hfits.size 0 (ByteVec.fill 32 0) 0
    rw [hsize] at this
    omega
  · rw [hsize]
    omega
  · intro core rest now hqueue hheight hlatest
    obtain ⟨latest, hlatest⟩ := Option.ne_none_iff_exists'.mp hlatest
    rw [core.buildBlockFromMempool_mempool hheight hlatest, hqueue, buildLoop]
    split
    next htake =>
      have hlarge := takeItem_deferred_iff.mp htake
      rw [blockSize_eq] at hlarge
      simp only [List.map_nil, List.sum_nil] at hlarge
      omega
    next => exact buildLoop_suffix rfl
    next =>
      split
      next => exact List.suffix_refl _
      next => exact buildLoop_suffix rfl
    next => exact List.suffix_refl _

end

namespace Sample

/-- A program of this many bytes, to be deployed. -/
def deployment (size : Nat) : LeeTransaction := .programDeployment (List.replicate size 0)

theorem deployment_length (size : Nat) : (deployment size).borsh.length = size + 5 := by
  simp [deployment, LeeTransaction.borsh, LeeTransaction.toBytes, borshSeq_length]
  omega

theorem deployment_admitted {size max : Nat} (h : size + 205 ≤ max) :
    sendTransaction idleHost max [] (deployment size) =
      .ok ([(.user, deployment size)], (deployment size).hash idleHost) := by
  have hsize : (deployment size).borsh.length ≤ max - blockHeaderOverhead := by
    rw [deployment_length, blockHeaderOverhead]
    omega
  rw [sendTransaction, ensure, if_pos hsize]
  rfl

end Sample

open Sequencer.Sample in
/-- A program of a thousand bytes. -/
theorem small_deployment_fits : Fits idleHost cfg (deployment 1000) :=
  (@admitted_fits_iff idleHost cfg _ _ _ _ (deployment_admitted (by decide))).2.mpr (by rw [deployment_length]; decide)

open Sequencer.Sample in
/-- A program that leaves the limit 200 bytes is admitted, is in no block, and keeps its place at the front of the
queue over any number of builds. -/
theorem large_deployment_stuck :
    sendTransaction idleHost cfg.maxBlockSize [] (deployment (2 ^ 20 - 205)) =
      .ok ([(.user, deployment (2 ^ 20 - 205))], (deployment (2 ^ 20 - 205)).hash idleHost) ∧
    ¬Fits idleHost cfg (deployment (2 ^ 20 - 205)) ∧
    ∀ times : List Timestamp, (times.foldl (fun core now => (core.buildBlockFromMempool idleHost cfg now).1)
      (core idleHost idleLedger [(.user, deployment (2 ^ 20 - 205)), (.user, idleCall)])).mempool =
        [(.user, deployment (2 ^ 20 - 205)), (.user, idleCall)] := by
  have hlarge : cfg.maxBlockSize < (deployment (2 ^ 20 - 205)).borsh.length + 205 := by
    rw [deployment_length]
    decide
  refine ⟨deployment_admitted (by decide), fun hfits => ?_, fun times => ?_⟩
  · have := hfits.size 0 (ByteVec.fill 32 0) 0
    rw [show [deployment (2 ^ 20 - 205), LeeTransaction.clockInvocation idleHost 0] =
      [deployment (2 ^ 20 - 205)] ++ [LeeTransaction.clockInvocation idleHost 0] from rfl, closed_length] at this
    simp only [List.map_cons, List.map_nil, List.sum_singleton] at this
    omega
  · exact builds_stuck hlarge rfl

end Lez.Sequencer
