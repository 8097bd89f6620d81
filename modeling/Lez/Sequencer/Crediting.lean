/-
A deposit is credited once. Its record says whether it is in a block: a
start queues the records that are in none, a stored block marks its own in
the same batch, and an event that has a record is not queued again. When the
block is final the record is dropped and with it all memory of the deposit,
so an event that is delivered again after that is taken for a new one and
credited a second time.

The state a failed call of `produce_new_block` leaves behind has credited
deposits whose records are not marked; nothing of it may be stored, which is
so when the sequencer is restarted before it produces again.
-/
import Lez.Sequencer.Deposits

namespace Lez.Sequencer

open Store
open Reference (nodeHost nodeLedger)

/-! ## Credits -/

/-- The deposits credited by transactions, in their order. -/
def depositIds (H : Host) (txs : List LeeTransaction) : List HashType := txs.filterMap (extractBridgeDepositId H)

/-- The deposits in the stored blocks. -/
def chainDeposits (H : Host) (db : Db) : List HashType :=
  (storedBlocks db).flatMap fun b => depositIds H b.body.transactions

/-- The ledger after transactions, each in its block. -/
def replayed (H : Host) (history : List BlockTransaction) (initial : V03State) : Option V03State :=
  history.foldlM (fun s e => s.transition H e.tx e.blockId e.timestamp) initial

/-- **No deposit is credited twice**, neither in the stored blocks nor in the transactions the stored state has
been through. -/
structure CreditedOnce (H : Host) (initial : V03State) (n : Node) : Prop where
  chain : (chainDeposits H n.core.db).Nodup
  history : ∃ s, n.core.db .leeState = .some s ∧ replayed H n.saved initial = .some s
  saved : (depositIds H (n.saved.map (·.tx))).Nodup

/-! ## The condition -/

namespace Node

/-- A deposit is not delivered again once its record was dropped, and a sequencer that failed to produce a block
is restarted before it produces another. -/
def Allows (n : Node) : Action → Prop
  | .deposit info _ => info.opId ∉ n.dropped
  | .produce _ => n.failed = false
  | _ => True

instance (n : Node) : (action : Action) → Decidable (n.Allows action)
  | .deposit info _ => inferInstanceAs (Decidable (info.opId ∉ n.dropped))
  | .produce _ => inferInstanceAs (Decidable (n.failed = false))
  | .submit _ => isTrue trivial
  | .enqueue => isTrue trivial
  | .replay => isTrue trivial
  | .finalized _ _ => isTrue trivial
  | .restart => isTrue trivial

/-- Each of the actions is allowed when it comes. -/
def AllowsAll (H : Host) (cfg : Config) : Node → List Action → Prop
  | _, [] => True
  | n, action :: actions => n.Allows action ∧ AllowsAll H cfg (n.step H cfg action) actions

instance (H : Host) (cfg : Config) : (n : Node) → (actions : List Action) → Decidable (n.AllowsAll H cfg actions)
  | _, [] => isTrue trivial
  | n, action :: actions =>
    have := instDecidableAllowsAll H cfg (n.step H cfg action) actions
    inferInstanceAs (Decidable (n.Allows action ∧ AllowsAll H cfg (n.step H cfg action) actions))

end Node

/-- A sequencer no deposit has come to. -/
structure Fresh (H : Host) (core : SequencerCore) : Prop where
  lastBlock : core.db .lastBlock = .some core.chainHeight
  latestBlockMeta : ∃ hash, core.db .latestBlockMeta = .some ⟨core.chainHeight, hash⟩
  leeState : core.db .leeState = .some core.state
  records : pendingRecords core.db = []
  chain : chainDeposits H core.db = []
  users : ∀ item ∈ core.mempool, item.1 = .user

/-! ## The invariant -/

/-- The deposits on their way into the mempool or in it. -/
def Node.queued (n : Node) : List HashType :=
  n.core.mempool.filterMap queuedDepositId ++ n.arriving.toList.map (·.depositOpId) ++
    n.replaying.map (·.depositOpId)

/-- The stored chain and the stored state are of one history, that of the live state unless a call has failed. -/
structure Chained (H : Host) (initial : V03State) (n : Node) : Prop where
  last : ∃ last hash, n.core.db .lastBlock = .some last ∧ n.core.db .latestBlockMeta = .some ⟨last, hash⟩ ∧
    (n.failed = false → n.core.chainHeight = last)
  history : ∃ s, n.core.db .leeState = .some s ∧ replayed H n.saved initial = .some s ∧
    (n.failed = false → n.core.state = s)
  live : n.failed = false → n.live = n.saved
  chain : chainDeposits H n.core.db = depositIds H (n.saved.map (·.tx))

/-- Where deposits are: one that is queued has a record that is not marked, one that has such a record is in no
block, and one in a block has a record or had one. -/
structure Tracked (H : Host) (initial : V03State) (n : Node) : Prop extends Chained H initial n where
  saved : (depositIds H (n.saved.map (·.tx))).Nodup
  records : ((pendingRecords n.core.db).map (·.depositOpId)).Nodup
  unmarked : ∀ r ∈ pendingRecords n.core.db, r.submittedInBlockId = .none →
    r.depositOpId ∉ depositIds H (n.saved.map (·.tx))
  known : ∀ id ∈ depositIds H (n.saved.map (·.tx)),
    id ∈ n.dropped ∨ id ∈ (pendingRecords n.core.db).map (·.depositOpId)
  queued : n.queued.Nodup
  pending : ∀ id ∈ n.queued, ∃ r ∈ pendingRecords n.core.db, r.depositOpId = id ∧ r.submittedInBlockId = .none
  own : OwnDeposits H n.core.mempool

/-- The same chain and state, whatever the records and the queue. -/
structure SameChain (n n' : Node) : Prop where
  cells : ∀ cell, cell ≠ .pendingDepositEvents → n'.core.db cell = n.core.db cell
  saved : n'.saved = n.saved
  core : n'.failed = false → n.failed = false ∧ n'.core.state = n.core.state ∧
    n'.core.chainHeight = n.core.chainHeight ∧ n'.live = n.live

section
variable {H : Host} {cfg : Config} {initial : V03State} {n : Node}

theorem replayed_append {history history' : List BlockTransaction} :
    replayed H (history ++ history') initial = (replayed H history initial).bind (replayed H history') :=
  List.foldlM_append

theorem replayed_block {blockId : BlockId} {timestamp : Timestamp} {txs : List LeeTransaction} {s : V03State} :
    replayed H (txs.map (⟨blockId, timestamp, ·⟩)) s = transitions H blockId timestamp txs s := List.foldlM_map

theorem Tracked.creditedOnce (h : Tracked H initial n) : CreditedOnce H initial n where
  chain := h.chain ▸ h.saved
  history := by
    obtain ⟨s, hs, hreplayed, -⟩ := h.history
    exact ⟨s, hs, hreplayed⟩
  saved := h.saved

theorem Fresh.queued_nil {core : SequencerCore} (h : Fresh H core) : (Node.start core).queued = [] := by
  have hnone : core.mempool.filterMap queuedDepositId = [] := by
    rw [List.filterMap_eq_nil_iff]
    intro item hitem
    obtain ⟨origin, tx⟩ := item
    obtain rfl : origin = .user := h.users _ hitem
    rfl
  simp [Node.start, Node.queued, hnone]

theorem Fresh.tracked {core : SequencerCore} (h : Fresh H core) : Tracked H core.state (.start core) where
  last := by
    obtain ⟨hash, hhash⟩ := h.latestBlockMeta
    exact ⟨core.chainHeight, hash, h.lastBlock, hhash, fun _ => rfl⟩
  history := ⟨core.state, h.leeState, rfl, fun _ => rfl⟩
  live := fun _ => rfl
  chain := h.chain
  saved := List.nodup_nil
  records := by
    rw [show pendingRecords (Node.start core).core.db = [] from h.records]
    exact List.nodup_nil
  unmarked := fun _ _ _ => List.not_mem_nil
  known := by simp [Node.start, depositIds]
  queued := by
    rw [h.queued_nil]
    exact List.nodup_nil
  pending := by
    rw [h.queued_nil]
    simp
  own := by
    intro tx htx
    cases h.users _ htx

theorem storedBlocks_congr {db db' : Db} (h : ∀ cell, cell ≠ .pendingDepositEvents → db' cell = db cell) :
    storedBlocks db' = storedBlocks db := by
  unfold storedBlocks
  rw [h .lastBlock (by simp)]
  refine List.filterMap_congr fun m _ => ?_
  exact h _ (by simp)

theorem Chained.congr (h : Chained H initial n) {n' : Node} (hsame : SameChain n n') : Chained H initial n' where
  last := by
    obtain ⟨last, hash, hlast, hlatest, hheight⟩ := h.last
    refine ⟨last, hash, (hsame.cells _ (by simp)).trans hlast, (hsame.cells _ (by simp)).trans hlatest, ?_⟩
    intro hok
    rw [(hsame.core hok).2.2.1]
    exact hheight (hsame.core hok).1
  history := by
    obtain ⟨s, hs, hreplayed, hlive⟩ := h.history
    refine ⟨s, (hsame.cells _ (by simp)).trans hs, hsame.saved ▸ hreplayed, fun hok => ?_⟩
    rw [(hsame.core hok).2.1]
    exact hlive (hsame.core hok).1
  live := by
    intro hok
    rw [(hsame.core hok).2.2.2, hsame.saved]
    exact h.live (hsame.core hok).1
  chain := by
    rw [chainDeposits, storedBlocks_congr hsame.cells, hsame.saved]
    exact h.chain

/-! ## Queueing -/

theorem SameChain.queue {n' : Node} (hdb : n'.core.db = n.core.db) (hstate : n'.core.state = n.core.state)
    (hheight : n'.core.chainHeight = n.core.chainHeight) (hlive : n'.live = n.live) (hsaved : n'.saved = n.saved)
    (hfailed : n'.failed = n.failed) : SameChain n n' :=
  ⟨fun _ _ => by rw [hdb], hsaved, fun hok => ⟨hfailed ▸ hok, hstate, hheight, hlive⟩⟩

/-- What changes in the queue alone, and adds no deposit to it, keeps the records. -/
theorem Tracked.requeue (h : Tracked H initial n) {n' : Node} (hsame : SameChain n n')
    (hrecords : pendingRecords n'.core.db = pendingRecords n.core.db) (hdropped : n'.dropped = n.dropped)
    (hqueued : n'.queued.Subperm n.queued) (hown : OwnDeposits H n'.core.mempool) : Tracked H initial n' where
  toChained := h.toChained.congr hsame
  saved := hsame.saved ▸ h.saved
  records := hrecords ▸ h.records
  unmarked := by
    rw [hrecords, hsame.saved]
    exact h.unmarked
  known := by
    rw [hrecords, hsame.saved, hdropped]
    exact h.known
  queued := by
    obtain ⟨l, hperm, hsub⟩ := hqueued
    exact hperm.nodup_iff.mp (h.queued.sublist hsub)
  pending := by
    intro id hid
    rw [hrecords]
    exact h.pending id (hqueued.subset hid)
  own := hown

/-- An event's transaction comes at the end of the mempool, if there is one. -/
theorem SequencerCore.queue_cases (core : SequencerCore) (event : PendingDepositEventRecord) :
    core.queue H event = core ∨ ∃ tx, buildBridgeDepositTxFromEvent H event = .ok tx ∧
      core.queue H event = { core with mempool := core.mempool ++ [(.sequencer, tx)] } := by
  unfold queue
  cases hbuilt : buildBridgeDepositTxFromEvent H event with
  | error => exact .inl rfl
  | ok tx => exact .inr ⟨tx, rfl, rfl⟩

theorem OwnDeposits.concat {mempool : MemPool} (h : OwnDeposits H mempool) {event : PendingDepositEventRecord}
    {tx : LeeTransaction} (hbuilt : buildBridgeDepositTxFromEvent H event = .ok tx) :
    OwnDeposits H (mempool ++ [(.sequencer, tx)]) := by
  intro tx' htx'
  rcases List.mem_append.mp htx' with hold | hnew
  · exact h tx' hold
  · obtain rfl : tx' = tx := by simpa using hnew
    exact ⟨event, hbuilt⟩

theorem Tracked.submit (h : Tracked H initial n) (tx : LeeTransaction) :
    Tracked H initial (n.step H cfg (.submit tx)) := by
  have hqueued : (n.step H cfg (.submit tx)).queued = n.queued := by
    simp [Node.step, Node.queued, queuedDepositId]
  refine h.requeue (.queue rfl rfl rfl rfl rfl rfl) rfl rfl (hqueued ▸ List.Subperm.refl _) ?_
  intro tx' htx'
  refine h.own tx' ?_
  simpa [Node.step] using htx'

theorem Tracked.enqueue (h : Tracked H initial n) : Tracked H initial (n.enqueue H) := by
  unfold Node.enqueue
  split
  next event harriving =>
    rcases n.core.queue_cases event with hskip | ⟨tx, hbuilt, hpush⟩
    · rw [hskip]
      refine h.requeue (.queue rfl rfl rfl rfl rfl rfl) rfl rfl ?_ h.own
      refine List.Sublist.subperm ?_
      simp [Node.queued, harriving]
    · rw [hpush]
      refine h.requeue (.queue rfl rfl rfl rfl rfl rfl) rfl rfl ?_ (h.own.concat hbuilt)
      refine (List.Perm.of_eq ?_).subperm
      simp [Node.queued, harriving, queuedDepositId_of_built hbuilt]
  next => exact h

theorem Tracked.replay (h : Tracked H initial n) : Tracked H initial (n.replay H) := by
  unfold Node.replay
  split
  next event rest hreplaying =>
    rcases n.core.queue_cases event with hskip | ⟨tx, hbuilt, hpush⟩
    · rw [hskip]
      refine h.requeue (.queue rfl rfl rfl rfl rfl rfl) rfl rfl ?_ h.own
      refine List.Sublist.subperm ?_
      simp [Node.queued, hreplaying]
    · rw [hpush]
      refine h.requeue (.queue rfl rfl rfl rfl rfl rfl) rfl rfl ?_ (h.own.concat hbuilt)
      -- The event moves from the head of what is replayed to the end of the mempool.
      refine List.Perm.subperm ?_
      simp only [Node.queued, hreplaying, List.filterMap_append, List.filterMap_cons,
        queuedDepositId_of_built hbuilt, List.filterMap_nil, List.map_cons, List.append_assoc]
      refine List.Perm.append_left _ ?_
      rw [List.singleton_append]
      exact List.perm_middle.symm
  next => exact h

/-! ## The publisher's events -/

/-- An event without a record is one that was not credited yet. -/
theorem Tracked.deposit (h : Tracked H initial n) {info : DepositInfo} (hnew : info.opId ∉ n.dropped) (written : Bool) :
    Tracked H initial (n.deposit info written) := by
  rcases n.deposit_cases info written with ⟨hsame, -⟩ | ⟨hfree, hrecord, db, hrecords, hcells, hstep⟩
  · rw [hsame]
    exact h
  · rw [hstep]
    have hunsaved : info.opId ∉ depositIds H (n.saved.map (·.tx)) := fun hid => (h.known _ hid).elim hnew hrecord
    have hold : n.queued = n.core.mempool.filterMap queuedDepositId ++ n.replaying.map (·.depositOpId) := by
      simp [Node.queued, hfree]
    have hunqueued : info.opId ∉ n.queued := by
      intro hid
      obtain ⟨r, hr, hrid, -⟩ := h.pending _ hid
      exact hrecord (List.mem_map.mpr ⟨r, hr, hrid⟩)
    have hqueued : Node.queued
        { n with core := { n.core with db }, arriving := .some (pendingDepositEventRecord info) } =
          n.core.mempool.filterMap queuedDepositId ++ info.opId :: n.replaying.map (·.depositOpId) := by
      simp [Node.queued, pendingDepositEventRecord]
    refine ⟨h.toChained.congr ⟨hcells, rfl, fun hok => ⟨hok, rfl, rfl, rfl⟩⟩, h.saved, ?_, ?_, ?_, ?_, ?_, h.own⟩
    · rw [hrecords, List.map_append, List.nodup_append]
      refine ⟨h.records, List.nodup_singleton _, ?_⟩
      intro id hid id' hid' heq
      obtain rfl : id' = info.opId := by simpa [pendingDepositEventRecord] using hid'
      exact hrecord (heq ▸ hid)
    · intro r hr hunmarked
      rw [hrecords, List.mem_append, List.mem_singleton] at hr
      rcases hr with hr | rfl
      · exact h.unmarked r hr hunmarked
      · exact hunsaved
    · intro id hid
      rw [hrecords, List.map_append, List.mem_append]
      exact (h.known id hid).imp_right .inl
    · rw [hqueued, List.perm_middle.nodup_iff, List.nodup_cons, ← hold]
      exact ⟨hunqueued, h.queued⟩
    · intro id hid
      rw [hqueued, List.perm_middle.mem_iff, List.mem_cons, ← hold] at hid
      rw [hrecords]
      rcases hid with rfl | hid
      · exact ⟨_, List.mem_append_right _ List.mem_cons_self, rfl, rfl⟩
      · obtain ⟨r, hr, hrest⟩ := h.pending id hid
        exact ⟨r, List.mem_append_left _ hr, hrest⟩

/-- A record that is not marked outlives every final block. -/
theorem Tracked.finalized (h : Tracked H initial n) (blockId : BlockId) (written : Bool) :
    Tracked H initial (n.finalized blockId written) := by
  unfold Node.finalized
  split
  next => exact h
  next =>
    have hrecords := removeFulfilled_records n.core.db blockId
    refine ⟨h.toChained.congr ⟨fun cell hcell => removeFulfilled_cell blockId hcell, rfl,
      fun hok => ⟨hok, rfl, rfl, rfl⟩⟩, h.saved, ?_, ?_, ?_, h.queued, ?_, h.own⟩
    · rw [hrecords]
      exact h.records.sublist (List.filter_sublist.map _)
    · intro r hr hunmarked
      rw [hrecords, List.mem_filter] at hr
      exact h.unmarked r hr.1 hunmarked
    · intro id hid
      rcases h.known id hid with hdropped | hrecord
      · exact .inl (List.mem_append_left _ hdropped)
      · obtain ⟨r, hr, hrid⟩ := List.mem_map.mp hrecord
        rw [hrecords]
        cases hkept : r.unfulfilledAfter blockId with
        | true => exact .inr (List.mem_map.mpr ⟨r, List.mem_filter.mpr ⟨hr, hkept⟩, hrid⟩)
        | false =>
          left
          refine List.mem_append_right _ (List.mem_map.mpr ⟨r, List.mem_filter.mpr ⟨hr, ?_⟩, hrid⟩)
          rw [hkept]
          rfl
    · intro id hid
      obtain ⟨r, hr, hrid, hunmarked⟩ := h.pending id hid
      refine ⟨r, ?_, hrid, hunmarked⟩
      rw [hrecords, List.mem_filter]
      refine ⟨hr, ?_⟩
      rw [PendingDepositEventRecord.unfulfilledAfter, hunmarked]
      rfl

/-- A start queues what is recorded and not marked, each once. -/
theorem Tracked.restart (h : Tracked H initial n) : Tracked H initial n.restart := by
  obtain ⟨s, hs, hreplayed, -⟩ := h.history
  obtain ⟨last, hash, hlast, hlatest, -⟩ := h.last
  have hstep : n.restart =
      { n with
        core := ⟨s, n.core.db, [], last⟩
        arriving := .none
        replaying := (pendingRecords n.core.db).filter (·.submittedInBlockId.isNone)
        live := n.saved
        failed := false } := by
    simp only [Node.restart, hs, hlatest]
  have hqueued : n.restart.queued =
      ((pendingRecords n.core.db).filter (·.submittedInBlockId.isNone)).map (·.depositOpId) := by
    simp [hstep, Node.queued]
  refine ⟨?_, ?_, ?_, ?_, ?_, ?_, ?_, ?_⟩
  · rw [hstep]
    exact ⟨⟨last, hash, hlast, hlatest, fun _ => rfl⟩, ⟨s, hs, hreplayed, fun _ => rfl⟩, fun _ => rfl, h.chain⟩
  · rw [hstep]
    exact h.saved
  · rw [hstep]
    exact h.records
  · rw [hstep]
    exact h.unmarked
  · rw [hstep]
    exact h.known
  · rw [hqueued]
    exact h.records.sublist (List.filter_sublist.map _)
  · intro id hid
    rw [hqueued] at hid
    obtain ⟨r, hr, hrid⟩ := List.mem_map.mp hid
    rw [List.mem_filter, Option.isNone_iff_eq_none] at hr
    rw [hstep]
    exact ⟨r, hr.1, hrid, hr.2⟩
  · rw [hstep]
    intro tx htx
    cases htx

/-! ## Blocks -/

theorem extractBridgeDepositId_clock (hclock : H.clock.id ≠ H.bridge.id) (now : Timestamp) :
    extractBridgeDepositId H (LeeTransaction.clockInvocation H now) = .none := by
  have hprogram : ¬(H.clock.id = H.bridge.id) := hclock
  simp [extractBridgeDepositId, bridgeInstruction, LeeTransaction.clockInvocation, hprogram]

/-- The deposits of the next block. -/
theorem depositIds_nextBlock (hclock : H.clock.id ≠ H.bridge.id) (core : SequencerCore) (now : Timestamp) :
    depositIds H (core.nextBlock H cfg now).body.transactions = (core.building H cfg now).depositEventIds := by
  have hvalid : (core.building H cfg now).validTransactions.filterMap (extractBridgeDepositId H) =
      (core.building H cfg now).depositEventIds := buildLoop_deposits rfl rfl
  change List.filterMap _ ((core.building H cfg now).validTransactions ++ [LeeTransaction.clockInvocation H now]) = _
  rw [List.filterMap_append, hvalid, List.filterMap_cons_none (extractBridgeDepositId_clock hclock now),
    List.filterMap_nil, List.append_nil]

/-- What a build executes that makes a block is the block's. -/
theorem SequencerCore.executed_block {core : SequencerCore} {now : Timestamp}
    (hfits : core.chainHeight.toNat + 1 < 2 ^ 64) (hcompletes : core.Completes H cfg now) :
    core.executed H cfg now =
      (core.nextBlock H cfg now).body.transactions.map (⟨core.chainHeight + 1, now, ·⟩) := by
  obtain ⟨s, hs⟩ := Option.isSome_iff_exists.mp hcompletes.clock
  simp only [executed, if_pos hfits, hcompletes.loop, hs]
  rfl

/-- A call that fails leaves the database and an end of the mempool. -/
theorem Tracked.failed (h : Tracked H initial n) {core : SequencerCore} (hdb : core.db = n.core.db)
    (hmempool : core.mempool <:+ n.core.mempool) (live : List BlockTransaction) :
    Tracked H initial { n with core, live, failed := true } := by
  refine h.requeue ⟨fun _ _ => by rw [hdb], rfl, nofun⟩ (by rw [hdb]) rfl ?_ ?_
  · refine List.Sublist.subperm ?_
    exact ((hmempool.sublist.filterMap _).append_right _).append_right _
  · intro tx htx
    exact h.own tx (hmempool.subset htx)

theorem mem_submitted {ids : List HashType} {blockId : BlockId} {records : List PendingDepositEventRecord}
    {r : PendingDepositEventRecord} (h : r ∈ submitted ids blockId records) (hunmarked : r.submittedInBlockId = .none) :
    r ∈ records ∧ r.depositOpId ∉ ids := by
  obtain ⟨r', hr', hr⟩ := List.mem_map.mp h
  split at hr
  next =>
    rw [← hr] at hunmarked
    cases hunmarked
  next hid =>
    obtain rfl := hr
    exact ⟨hr', hid⟩

theorem submitted_ids (ids : List HashType) (blockId : BlockId) (records : List PendingDepositEventRecord) :
    (submitted ids blockId records).map (·.depositOpId) = records.map (·.depositOpId) := by
  rw [submitted, List.map_map]
  refine List.map_congr_left fun r _ => ?_
  rw [Function.comp_apply]
  split <;> rfl

/-- Every queued deposit is in the next block or queued still. -/
theorem Node.queued_eq (hruns : RunsBridge H) {now : Timestamp} (hown : OwnDeposits H n.core.mempool)
    (hcompletes : n.core.Completes H cfg now) {n' : Node} (hmempool : n'.core.mempool = n.core.leftover H cfg now)
    (harriving : n'.arriving = n.arriving) (hreplaying : n'.replaying = n.replaying) :
    n.queued = (n.core.building H cfg now).depositEventIds ++ n'.queued := by
  have hloop : buildLoop H cfg (n.core.chainHeight + 1) now n.core.prevBlockHash n.core.mempool
      ⟨n.core.state, [], [], []⟩ = (n.core.leftover H cfg now, n.core.building H cfg now, .ok ()) := by
    rw [← hcompletes.loop]
    rfl
  have hqueued := buildLoop_queued hruns hloop hown
  rw [List.nil_append] at hqueued
  rw [queued, queued, ← hqueued, hmempool, harriving, hreplaying]
  simp only [List.append_assoc]

/-- A stored block adds its transactions to the history. -/
theorem Chained.stored (hclock : H.clock.id ≠ H.bridge.id) (h : Chained H initial n)
    (hlive : n.failed = false) {now : Timestamp} (hfits : n.core.chainHeight.toNat + 1 < 2 ^ 64) {s : V03State}
    (hs : n.core.clockTransition H cfg now = .some s) (hcompletes : n.core.Completes H cfg now) {db : Db}
    (hcells : StoredCells n.core.db (n.core.nextBlock H cfg now) (n.core.building H cfg now).depositEventIds s db)
    {n' : Node} (hcore : n'.core = n.core.builtOn H cfg now s db)
    (hlive' : n'.live = n.live ++ n.core.executed H cfg now)
    (hsaved' : n'.saved = n.live ++ n.core.executed H cfg now) :
    Chained H initial n' ∧ depositIds H (n'.saved.map (·.tx)) =
      depositIds H (n.saved.map (·.tx)) ++ (n.core.building H cfg now).depositEventIds := by
  have hexecuted := SequencerCore.executed_block hfits hcompletes
  obtain ⟨last, hash, hlast, hlatest, hheight⟩ := h.last
  obtain ⟨s₀, -, hreplayed, hstate⟩ := h.history
  have hdeposits : depositIds H (n'.saved.map (·.tx)) =
      depositIds H (n.saved.map (·.tx)) ++ (n.core.building H cfg now).depositEventIds := by
    rw [hsaved', h.live hlive, hexecuted, List.map_append, List.map_map, depositIds, List.filterMap_append,
      ← depositIds_nextBlock hclock]
    exact congrArg _ (congrArg _ (List.map_id _))
  refine ⟨⟨?_, ?_, fun _ => hlive'.trans hsaved'.symm, ?_⟩, hdeposits⟩
  · rw [hcore]
    exact ⟨_, _, hcells.lastBlock, hcells.latestBlockMeta, fun _ => rfl⟩
  · rw [hcore]
    refine ⟨s, hcells.leeState, ?_, fun _ => rfl⟩
    rw [hsaved', h.live hlive, replayed_append, hreplayed, Option.bind_some, hexecuted, replayed_block]
    change transitions H _ now ((n.core.building H cfg now).validTransactions ++ [_]) s₀ = _
    rw [← hstate hlive, transitions_append, SequencerCore.building_transitions, Option.bind_some,
      transitions_singleton]
    exact hs
  · rw [hcore, hdeposits, ← h.chain, chainDeposits, chainDeposits]
    rw [hheight hlive] at hfits
    have hid : (n.core.nextBlock H cfg now).header.blockId = last + 1 := by rw [← hheight hlive]; rfl
    rw [show (n.core.builtOn H cfg now s db).db = db from rfl, storedBlocks_stored hcells hlast hfits hid,
      List.flatMap_append, List.flatMap_singleton, depositIds_nextBlock hclock]

/-- **A stored block credits deposits whose records are not marked yet, and marks them.** -/
theorem Tracked.stored (hruns : RunsBridge H) (hclock : H.clock.id ≠ H.bridge.id) (h : Tracked H initial n)
    (hlive : n.failed = false) {now : Timestamp} (hfits : n.core.chainHeight.toNat + 1 < 2 ^ 64) {s : V03State}
    (hs : n.core.clockTransition H cfg now = .some s) (hcompletes : n.core.Completes H cfg now) {db : Db}
    (hcells : StoredCells n.core.db (n.core.nextBlock H cfg now) (n.core.building H cfg now).depositEventIds s db)
    {n' : Node} (hcore : n'.core = n.core.builtOn H cfg now s db)
    (hlive' : n'.live = n.live ++ n.core.executed H cfg now)
    (hsaved' : n'.saved = n.live ++ n.core.executed H cfg now) (harriving : n'.arriving = n.arriving)
    (hreplaying : n'.replaying = n.replaying) (hdropped : n'.dropped = n.dropped) : Tracked H initial n' := by
  obtain ⟨hchained, hdeposits⟩ :=
    h.toChained.stored hclock hlive hfits hs hcompletes hcells hcore hlive' hsaved'
  have hqueued : n.queued = (n.core.building H cfg now).depositEventIds ++ n'.queued :=
    Node.queued_eq hruns h.own hcompletes (by rw [hcore]; rfl) harriving hreplaying
  have hrecords : pendingRecords n'.core.db = submitted (n.core.building H cfg now).depositEventIds
      (n.core.nextBlock H cfg now).header.blockId (pendingRecords n.core.db) := by
    rw [hcore]
    exact hcells.pendingDepositEvents
  have hids := submitted_ids (n.core.building H cfg now).depositEventIds
    (n.core.nextBlock H cfg now).header.blockId (pendingRecords n.core.db)
  have hnodup := h.queued
  have hpending := h.pending
  rw [hqueued] at hnodup hpending
  rw [List.nodup_append'] at hnodup
  obtain ⟨hnew, hrest, hdisjoint⟩ := hnodup
  refine ⟨hchained, ?_, ?_, ?_, ?_, hrest, ?_, ?_⟩
  · rw [hdeposits, List.nodup_append']
    refine ⟨h.saved, hnew, ?_⟩
    intro id hold hid
    obtain ⟨r, hr, rfl, hunmarked⟩ := hpending id (List.mem_append_left _ hid)
    exact h.unmarked r hr hunmarked hold
  · rw [hrecords, hids]
    exact h.records
  · intro r hr hunmarked
    rw [hrecords] at hr
    obtain ⟨hr, hid⟩ := mem_submitted hr hunmarked
    rw [hdeposits, List.mem_append, not_or]
    exact ⟨h.unmarked r hr hunmarked, hid⟩
  · intro id hid
    rw [hdeposits, List.mem_append] at hid
    rw [hdropped, hrecords, hids]
    rcases hid with hold | hid
    · exact h.known id hold
    · obtain ⟨r, hr, hrid, -⟩ := hpending id (List.mem_append_left _ hid)
      exact .inr (List.mem_map.mpr ⟨r, hr, hrid⟩)
  · intro id hid
    obtain ⟨r, hr, rfl, hunmarked⟩ := hpending id (List.mem_append_right _ hid)
    rw [hrecords]
    refine ⟨r, List.mem_map.mpr ⟨r, hr, if_neg ?_⟩, rfl, hunmarked⟩
    exact fun hmem => hdisjoint hmem hid
  · intro tx htx
    rw [hcore] at htx
    exact h.own tx ((n.core.leftover_suffix now).subset htx)

theorem Tracked.produce (hruns : RunsBridge H) (hclock : H.clock.id ≠ H.bridge.id) (h : Tracked H initial n)
    (hlive : n.failed = false) (env : Env) : Tracked H initial (n.produce H cfg env) := by
  obtain ⟨last, hash, hlast, hlatest, hheight⟩ := h.last
  rcases SequencerCore.produceNewBlock_cases H cfg env hlatest hlast (hheight hlive ▸ UInt64.le_rfl) with
    ⟨-, hstep⟩ | ⟨-, fault, -, hstep⟩ | ⟨hfits, s, hs, hcompletes, hlost | hstored⟩
  · rw [Node.produce, hstep]
    exact h.failed rfl (List.suffix_refl _) _
  · rw [Node.produce, hstep]
    exact h.failed (by rfl) (n.core.leftover_suffix env.now) _
  · obtain ⟨-, e, hstep⟩ := hlost
    rw [Node.produce, hstep]
    exact h.failed (by rfl) (n.core.leftover_suffix env.now) _
  · obtain ⟨-, db, hcells, hstep⟩ := hstored
    rw [Node.produce, hstep]
    exact h.stored hruns hclock hlive hfits hs hcompletes hcells rfl rfl rfl rfl rfl rfl

/-! ## Runs -/

theorem Tracked.step (hruns : RunsBridge H) (hclock : H.clock.id ≠ H.bridge.id) (h : Tracked H initial n)
    {action : Action} (hallows : n.Allows action) : Tracked H initial (n.step H cfg action) := by
  cases action with
  | submit tx => exact h.submit tx
  | deposit info written => exact h.deposit hallows written
  | enqueue => exact h.enqueue
  | replay => exact h.replay
  | produce env => exact h.produce hruns hclock hallows env
  | finalized blockId written => exact h.finalized blockId written
  | restart => exact h.restart

theorem Tracked.run (hruns : RunsBridge H) (hclock : H.clock.id ≠ H.bridge.id) :
    ∀ {actions : List Action} {n : Node}, Tracked H initial n → n.AllowsAll H cfg actions →
      Tracked H initial (n.run H cfg actions)
  | [], _, h, _ => h
  | action :: actions, n, h, hallows => by
    have hrest : Tracked H initial ((n.step H cfg action).run H cfg actions) :=
      Tracked.run hruns hclock (h.step hruns hclock hallows.1) hallows.2
    exact hrest

end

/-- **Every deposit is credited at most once, in every run**, restarts and failed blocks included, in which no
deposit is delivered again after its record was dropped and a sequencer that failed is restarted. -/
theorem deposits_credited_once {H : Host} (hruns : RunsBridge H) (hclock : H.clock.id ≠ H.bridge.id) (cfg : Config)
    {core : SequencerCore} (hfresh : Fresh H core) (actions : List Action)
    (hallows : (Node.start core).AllowsAll H cfg actions) :
    CreditedOnce H core.state ((Node.start core).run H cfg actions) :=
  (hfresh.tracked.run hruns hclock hallows).creditedOnce

namespace Sample

def bridgeCore : SequencerCore := core idleHost bridgeLedger []

theorem bridgeCore_fresh : Fresh idleHost bridgeCore where
  lastBlock := by decide +kernel
  latestBlockMeta := ⟨(genesis idleHost).header.hash, by decide +kernel⟩
  leeState := Db.write_of_mem _ (by simp [bridgeCore, core]) (by simp [bridgeCore, core])
  records := by decide +kernel
  chain := by decide +kernel
  users := nofun

def depositOfFive : DepositInfo := ⟨ByteVec.fill 32 7, ByteVec.fill 32 8, 5, List.replicate 32 9⟩

/-- The deposit comes twice, and the sequencer is restarted before it has produced a block. -/
def twiceBefore : List Action :=
  [.deposit depositOfFive true, .enqueue, .deposit depositOfFive true, .restart, .replay, .produce online]

/-- The deposit comes again after its block is final. -/
def twiceAfter : List Action :=
  [.deposit depositOfFive true, .enqueue, .produce online, .finalized 2 true,
    .deposit depositOfFive true, .enqueue, .produce online]

end Sample

open Sequencer.Sample in
/-- A run with a redelivery and a restart. -/
theorem deposit_of_five_credited_once :
    CreditedOnce idleHost bridgeCore.state ((Node.start bridgeCore).run idleHost cfg twiceBefore) ∧
      chainDeposits idleHost ((Node.start bridgeCore).run idleHost cfg twiceBefore).core.db = [depositOfFive.opId] := by
  have hclock : idleHost.clock.id ≠ idleHost.bridge.id := by decide
  have hallows : (Node.start bridgeCore).AllowsAll idleHost cfg twiceBefore := by
    rw [idleHost, Reference.nodeHost_packed]
    decide +kernel
  refine ⟨deposits_credited_once (nodeHost_runsBridge _) hclock cfg bridgeCore_fresh twiceBefore hallows, ?_⟩
  rw [idleHost, Reference.nodeHost_packed]
  decide +kernel

open Sequencer.Sample in
/-- A deposit that is delivered again after its block is final is credited twice. -/
theorem final_deposit_credited_twice :
    Fresh idleHost bridgeCore ∧
      chainDeposits idleHost ((Node.start bridgeCore).run idleHost cfg twiceAfter).core.db =
        [depositOfFive.opId, depositOfFive.opId] ∧
      ¬CreditedOnce idleHost bridgeCore.state ((Node.start bridgeCore).run idleHost cfg twiceAfter) := by
  have htwice : chainDeposits idleHost ((Node.start bridgeCore).run idleHost cfg twiceAfter).core.db =
      [depositOfFive.opId, depositOfFive.opId] := by
    rw [idleHost, Reference.nodeHost_packed]
    decide +kernel
  refine ⟨bridgeCore_fresh, htwice, fun h => ?_⟩
  have hnodup := h.chain
  rw [htwice] at hnodup
  simp at hnodup

end Lez.Sequencer
