/-
Sequencer and indexer: the one builds a block on its live state, the other
replays it on its own. They take different ways through the ledger (a user's
transaction is validated against the system accounts when it is included, and
has its signatures checked once more when it is replayed; a deposit and the
clock's are executed as they are), but whatever way an included transaction
took, it is applied by one transition, and that is what the replay applies.
-/
import Lez.Sequencer.Core
import Lez.Indexer.BlockStore

namespace Lez

open Indexer Sequencer

section
variable {H : Host} {s s' : V03State} {tx : LeeTransaction} {blockId : BlockId} {timestamp : Timestamp}

/-- A transaction that is executed has valid signatures: executing it checks them too. -/
theorem V03State.signaturesValid_of_transition (h : s.transition H tx blockId timestamp = .some s') :
    tx.signaturesValid H = true := by
  obtain ⟨diff, hdiff, -⟩ := settle_eq_some.mp h
  cases tx with
  | publicTx tx =>
    simp only [LeeTransaction.validate, fromPublicTransaction, bind_ok_iff, ensure_ok_iff] at hdiff
    obtain ⟨-, -, -, -, -, hvalid, -⟩ := hdiff
    exact hvalid
  | privacyPreserving tx =>
    simp only [LeeTransaction.validate, fromPrivacyPreservingTransaction, bind_ok_iff, ensure_ok_iff] at hdiff
    obtain ⟨-, -, -, -, -, -, -, -, -, -, -, hvalid, -⟩ := hdiff
    exact hvalid
  | programDeployment => rfl

end

namespace Indexer

/-- After genesis, what the sequencer executes the indexer replays. -/
theorem replayTransactions_of_transitions {E : ReplayErrors} {H : Host} {header : BlockHeader} {s' : V03State}
    (hgenesis : header.blockId ≠ 1) : ∀ {txs : List LeeTransaction} {s : V03State},
    transitions H header.blockId header.timestamp txs s = .some s' →
      replayTransactions E H header txs s = (s', .ok ())
  | [], s, h => by
    cases h
    rfl
  | tx :: txs, s, h => by
    rw [transitions_cons, Option.bind_eq_some_iff] at h
    obtain ⟨u, hu, h⟩ := h
    have hreplay : replayTransaction E H header tx s = .ok u := by
      rw [replayTransaction_ok_iff, if_neg hgenesis]
      exact ⟨V03State.signaturesValid_of_transition hu, hu⟩
    exact replayTransactions_cons_ok.mpr ⟨u, hreplay, replayTransactions_of_transitions hgenesis h⟩

/-- **A built block replays to the state it was built with.** -/
theorem replayBlock_of_built {E : ReplayErrors} {H : Host} {now : Timestamp} {core core' : SequencerCore}
    {block : Block} (h : BuiltFrom H now core core' block) (hgenesis : core.chainHeight ≠ 0) :
    replayBlock E H block core.state = (core'.state, .ok ()) := by
  have hid : block.header.blockId ≠ 1 := by
    rw [h.blockId]
    intro hone
    exact hgenesis (by simpa using hone)
  obtain ⟨txs, u, htxs, hstate, hclock⟩ := h.transactions
  rw [← h.blockId, ← h.timestamp] at hstate hclock
  rw [← h.timestamp] at htxs
  exact replayBlock_ok_iff.mpr ⟨txs, u, htxs, replayTransactions_of_transitions hid hstate, hclock⟩

/-- The indexer has this chain, numbered from one, and the state it leads to. -/
structure IndexerStore.Follows (H : Host) (initial : V03State) (blocks : List Block) (s : V03State)
    (store : IndexerStore) : Prop where
  ids : blocks.map (·.header.blockId.toNat) = List.range' 1 blocks.length
  replays : applyBlocks calculateErrors H blocks initial = .ok s
  indexed : ∃ t, Indexed H initial blocks t store.db
  currentState : store.currentState = s

section
variable {H : Host} {cfg : Config} {now : Timestamp} {core core' : SequencerCore} {made : BlockWithMeta}
  {initial : V03State} {blocks : List Block} {block : Block} {s s' : V03State} {store : IndexerStore}

/-- The next block of a chain that is followed. -/
theorem IndexerStore.Follows.put (h : store.Follows H initial blocks s) (l1Header : Bytes32)
    (hid : block.header.blockId.toNat = blocks.length + 1)
    (hreplay : ∀ E, replayBlock E H block s = (s', .ok ())) :
    (store.putBlock H .sound block l1Header).2 = .ok () ∧
      (store.putBlock H .sound block l1Header).1.Follows H initial (blocks ++ [finalized block]) s' := by
  obtain ⟨t, hindexed⟩ := h.indexed
  -- Only the status differs between the block and what is stored of it, and a replay does not read it.
  have happly : applyBlock calculateErrors H s (finalized block) = .ok s' := applyBlock_ok_iff.mpr (hreplay _)
  have hids : (blocks ++ [finalized block]).map (·.header.blockId.toNat) =
      List.range' 1 (blocks ++ [finalized block]).length := by
    rw [List.map_append, h.ids, List.length_append, ← List.range'_append_1]
    simp [finalized, hid, Nat.add_comm]
  have hreplays : applyBlocks calculateErrors H (blocks ++ [finalized block]) initial = .ok s' := by
    rw [applyBlocks_append, bind_ok_iff]
    refine ⟨s, h.replays, ?_⟩
    simp only [applyBlocks, List.foldlM_cons, List.foldlM_nil, happly]
    rfl
  obtain ⟨hanswer, hindexed'⟩ := hindexed.put l1Header ⟨hids, s', hreplays⟩
  unfold IndexerStore.putBlock
  rw [h.currentState, hreplay]
  exact ⟨hanswer, hids, hreplays, ⟨_, hindexed'⟩, rfl⟩

/-- **Sequencer and indexer agree.** From the state a block was built on, the indexer executes it to the state
it was built with and answers what its database answers; an indexer that follows the chain so far takes it. -/
theorem built_block_accepted (hbuild : core.buildBlockFromMempool H cfg now = (core', .ok made))
    (hgenesis : core.chainHeight ≠ 0) :
    (∀ (store : IndexerStore) (disk : Disk) (l1Header : Bytes32), store.currentState = core.state →
      (store.putBlock H disk made.block l1Header).1.currentState = core'.state ∧
      (store.putBlock H disk made.block l1Header).2 =
        (Indexer.putBlock H store.db disk (finalized made.block) l1Header).2) ∧
    ∀ (initial : V03State) (blocks : List Block) (store : IndexerStore) (l1Header : Bytes32),
      blocks.length = core.chainHeight.toNat → store.Follows H initial blocks core.state →
      (store.putBlock H .sound made.block l1Header).2 = .ok () ∧
      (store.putBlock H .sound made.block l1Header).1.Follows H initial (blocks ++ [finalized made.block]) core'.state := by
  have hbuilt := SequencerCore.buildBlockFromMempool_ok hbuild
  have hreplay : ∀ E, replayBlock E H made.block core.state = (core'.state, .ok ()) :=
    fun E => replayBlock_of_built hbuilt hgenesis
  constructor
  · intro store disk l1Header hstate
    unfold IndexerStore.putBlock
    rw [hstate, hreplay]
    exact ⟨rfl, rfl⟩
  · intro initial blocks store l1Header hlength hfollows
    have hfits := hbuilt.fits
    refine hfollows.put l1Header ?_ hreplay
    rw [hbuilt.blockId, UInt64.toNat_add, hlength]
    exact Nat.mod_eq_of_lt hfits

end

namespace Sample

open Sequencer.Sample (idleHost idleLedger idleCore genesis)

/-- The indexer beside it, with the genesis block. -/
def idleStore : IndexerStore :=
  ((IndexerStore.mk (openOrCreate (fun _ => .none) idleLedger) idleLedger).putBlock idleHost .sound
    (genesis idleHost) (ByteVec.fill 32 0)).1

theorem idleStore_follows : idleStore.Follows idleHost idleLedger [finalized (genesis idleHost)] idleCore.state := by
  have hfresh : (IndexerStore.mk (openOrCreate (fun _ => .none) idleLedger) idleLedger).Follows idleHost idleLedger []
      idleLedger := ⟨rfl, rfl, ⟨_, indexed_open⟩, rfl⟩
  have hreplay : ∀ E, replayBlock E idleHost (genesis idleHost) idleLedger = (idleCore.state, .ok ()) :=
    fun E => replayBlock_ok_iff.mpr ⟨[], idleLedger, rfl, rfl, Sequencer.Sample.idleLedger_started⟩
  exact (hfresh.put (ByteVec.fill 32 0) rfl hreplay).2

end Sample

open Indexer.Sample Sequencer.Sample in
/-- The block of a sequencer with one user's transaction. -/
theorem idle_block_accepted : ∃ core' made,
    idleCore.buildBlockFromMempool idleHost cfg 5 = (core', .ok made) ∧
      made.block.body.transactions.length = 2 ∧
      (idleStore.putBlock idleHost .sound made.block (ByteVec.fill 32 0)).2 = .ok () ∧
      (idleStore.putBlock idleHost .sound made.block (ByteVec.fill 32 0)).1.currentState = core'.state := by
  have hbuilt : ((idleCore.buildBlockFromMempool idleHost cfg 5).2.toOption.map
      (·.block.body.transactions.length)) = .some 2 := by
    decide +kernel
  cases hbuild : idleCore.buildBlockFromMempool idleHost cfg 5 with
  | mk core' outcome =>
    rw [hbuild] at hbuilt
    cases outcome with
    | error fault => cases hbuilt
    | ok made =>
      obtain ⟨-, hfollowing⟩ := built_block_accepted hbuild (by decide)
      obtain ⟨hanswer, hfollows⟩ := hfollowing idleLedger _ idleStore (ByteVec.fill 32 0) rfl idleStore_follows
      exact ⟨core', made, rfl, Option.some.inj hbuilt, hanswer, hfollows.currentState⟩

end Indexer

end Lez
