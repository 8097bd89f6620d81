/-
Deposits and the checkpoint. The publisher's task is handed the finalized
operations of the L1 in batches, each with a checkpoint, and after a restart
again from the persisted checkpoint on. It persists the checkpoint of a batch
first and takes the operations of the batch after that. So a sequencer that
stops in between never sees those operations again: a deposit among them has
no record, is in no block, and lies before the checkpoint.

Where a checkpoint never passes a deposit that has not been taken yet, every
deposit before it has a record or is in a block.
-/
import Lez.Sequencer.Crediting

namespace Lez.Sequencer

open Store

/-! ## The publisher's task -/

/-- A finalized operation; an inscription with the block id it decodes to. -/
inductive FinalizedOp
  | inscription (blockId : Option BlockId)
  | deposit (info : DepositInfo)
  | withdraw
deriving DecidableEq

/-- A node and how far its task is: the operations before the persisted checkpoint, those taken, and those
handed over. -/
structure Feed where
  node : Node
  checkpoint : Nat
  taken : Nat
  handed : Nat

def Feed.start (core : SequencerCore) : Feed := ⟨.start core, 0, 0, 0⟩

inductive FeedAction
  | blocksProcessed (checkpoint upTo : Nat) (written : Bool)
  | op (written : Bool)
  | submit (tx : LeeTransaction)
  | enqueue
  | replay
  | produce (env : Env)
  | restart

namespace Feed

section
variable (H : Host) (cfg : Config) (ops : Nat → FinalizedOp) (f : Feed)

/-- A new batch, once the one before is done: `on_checkpoint`. -/
def blocksProcessed (checkpoint upTo : Nat) (written : Bool) : Feed :=
  if f.taken < f.handed ∨ f.node.arriving.isSome then f
  else { f with checkpoint := if written then checkpoint else f.checkpoint, handed := max f.handed upTo }

/-- The next operation of the batch, up to the mempool. -/
def op (written : Bool) : Feed :=
  if f.handed ≤ f.taken ∨ f.node.arriving.isSome then f
  else
    let node := match ops f.taken with
      | .inscription (.some blockId) => f.node.finalized blockId written
      | .inscription .none => f.node
      | .deposit info => f.node.deposit info written
      | .withdraw => f.node
    { f with node, taken := f.taken + 1 }

/-- The operations come again from the persisted checkpoint on. -/
def restart : Feed := ⟨f.node.restart, f.checkpoint, f.checkpoint, f.checkpoint⟩

def step : FeedAction → Feed
  | .blocksProcessed checkpoint upTo written => f.blocksProcessed checkpoint upTo written
  | .op written => f.op ops written
  | .submit tx => { f with node := f.node.step H cfg (.submit tx) }
  | .enqueue => { f with node := f.node.enqueue H }
  | .replay => { f with node := f.node.replay H }
  | .produce env => { f with node := f.node.produce H cfg env }
  | .restart => f.restart

def run (actions : List FeedAction) : Feed := actions.foldl (step H cfg ops) f

end

/-- **No deposit is lost**: it is recorded, or credited in a stored block, or comes after the checkpoint. -/
def KeepsDeposits (H : Host) (ops : Nat → FinalizedOp) (f : Feed) : Prop :=
  ∀ i info, ops i = .deposit info →
    info.opId ∈ (pendingRecords f.node.core.db).map (·.depositOpId) ∨
    info.opId ∈ chainDeposits H f.node.core.db ∨ f.checkpoint ≤ i

/-! ## The condition -/

/-- A checkpoint that is persisted passes no deposit that was not taken, and records are written. -/
def Allows (ops : Nat → FinalizedOp) (f : Feed) : FeedAction → Prop
  | .blocksProcessed checkpoint _ _ => ∀ i < checkpoint, f.taken ≤ i → ∀ info, ops i ≠ .deposit info
  | .op written => written = true
  | _ => True

def AllowsAll (H : Host) (cfg : Config) (ops : Nat → FinalizedOp) : Feed → List FeedAction → Prop
  | _, [] => True
  | f, action :: actions => f.Allows ops action ∧ AllowsAll H cfg ops (f.step H cfg ops action) actions

end Feed

/-! ## The invariant -/

/-- A record that is marked is in a stored block, so that it may be dropped. -/
structure Held (H : Host) (n : Node) : Prop where
  last : ∃ last hash, n.core.db .lastBlock = .some last ∧ n.core.db .latestBlockMeta = .some ⟨last, hash⟩ ∧
    last ≤ n.core.chainHeight
  marked : ∀ r ∈ pendingRecords n.core.db, r.submittedInBlockId ≠ .none →
    r.depositOpId ∈ chainDeposits H n.core.db

/-- A deposit that is recorded or credited. -/
def Node.Holds (H : Host) (n : Node) (id : HashType) : Prop :=
  id ∈ (pendingRecords n.core.db).map (·.depositOpId) ∨ id ∈ chainDeposits H n.core.db

/-- One step keeps what is held. -/
structure Keeps (H : Host) (n n' : Node) : Prop where
  held : Held H n'
  holds : ∀ id, n.Holds H id → n'.Holds H id

section
variable {H : Host} {cfg : Config} {n : Node}

/-- What leaves the database leaves everything. -/
theorem Held.keeps_of_db (h : Held H n) {n' : Node} (hdb : n'.core.db = n.core.db)
    (hheight : n.core.chainHeight ≤ n'.core.chainHeight) : Keeps H n n' := by
  obtain ⟨last, hash, hlast, hlatest, hle⟩ := h.last
  refine ⟨⟨⟨last, hash, hdb ▸ hlast, hdb ▸ hlatest, UInt64.le_trans hle hheight⟩, ?_⟩, ?_⟩
  · rw [hdb]
    exact h.marked
  · intro id hid
    rw [Node.Holds, hdb]
    exact hid

theorem SequencerCore.queue_db (core : SequencerCore) (event : PendingDepositEventRecord) :
    (core.queue H event).db = core.db ∧ (core.queue H event).chainHeight = core.chainHeight := by
  rcases core.queue_cases event with h | ⟨tx, -, h⟩ <;> rw [h] <;> exact ⟨rfl, rfl⟩

theorem Held.enqueue (h : Held H n) : Keeps H n (n.enqueue H) := by
  unfold Node.enqueue
  split
  next event _ =>
    obtain ⟨hdb, hheight⟩ := n.core.queue_db (H := H) event
    exact h.keeps_of_db hdb (by rw [hheight]; exact UInt64.le_refl _)
  next => exact h.keeps_of_db rfl (UInt64.le_refl _)

theorem Held.replay (h : Held H n) : Keeps H n (n.replay H) := by
  unfold Node.replay
  split
  next event _ _ =>
    obtain ⟨hdb, hheight⟩ := n.core.queue_db (H := H) event
    exact h.keeps_of_db hdb (by rw [hheight]; exact UInt64.le_refl _)
  next => exact h.keeps_of_db rfl (UInt64.le_refl _)

theorem Held.restart (h : Held H n) : Keeps H n n.restart := by
  obtain ⟨last, hash, hlast, hlatest, hle⟩ := h.last
  unfold Node.restart
  split
  next s latest _ hlatest' =>
    obtain rfl : latest = ⟨last, hash⟩ := Option.some.inj (hlatest'.symm.trans hlatest)
    exact ⟨⟨⟨last, hash, hlast, hlatest, UInt64.le_refl _⟩, h.marked⟩, fun _ hid => hid⟩
  next => exact h.keeps_of_db rfl (UInt64.le_refl _)

/-- Changes of the records alone. -/
theorem Held.rerecord (h : Held H n) {n' : Node}
    (hcells : ∀ cell, cell ≠ .pendingDepositEvents → n'.core.db cell = n.core.db cell)
    (hheight : n'.core.chainHeight = n.core.chainHeight)
    (hmarked : ∀ r ∈ pendingRecords n'.core.db, r.submittedInBlockId ≠ .none → r ∈ pendingRecords n.core.db)
    (hgone : ∀ r ∈ pendingRecords n.core.db, r ∈ pendingRecords n'.core.db ∨ r.submittedInBlockId ≠ .none) :
    Keeps H n n' := by
  obtain ⟨last, hash, hlast, hlatest, hle⟩ := h.last
  have hchain : chainDeposits H n'.core.db = chainDeposits H n.core.db := by
    rw [chainDeposits, storedBlocks_congr hcells]
    rfl
  refine ⟨⟨⟨last, hash, (hcells _ (by simp)).trans hlast, (hcells _ (by simp)).trans hlatest, ?_⟩, ?_⟩, ?_⟩
  · rw [hheight]
    exact hle
  · intro r hr hsubmitted
    rw [hchain]
    exact h.marked r (hmarked r hr hsubmitted) hsubmitted
  · intro id hid
    rw [Node.Holds, hchain]
    rcases hid with hid | hid
    · obtain ⟨r, hr, hrid⟩ := List.mem_map.mp hid
      rcases hgone r hr with hkept | hsubmitted
      · exact .inl (List.mem_map.mpr ⟨r, hkept, hrid⟩)
      · exact .inr (hrid ▸ h.marked r hr hsubmitted)
    · exact .inr hid

/-- An event leaves a record, and drops none. -/
theorem Held.deposit (h : Held H n) (info : DepositInfo) (written : Bool) :
    Keeps H n (n.deposit info written) ∧
      (n.arriving = .none → written = true → (n.deposit info written).Holds H info.opId) := by
  rcases n.deposit_cases info written with ⟨hsame, hold⟩ | ⟨-, -, db, hrecords, hcells, hstep⟩
  · rw [hsame]
    exact ⟨h.keeps_of_db rfl (UInt64.le_refl _), fun hfree hwritten => .inl (hold hfree hwritten)⟩
  · rw [hstep]
    refine ⟨h.rerecord hcells rfl ?_ ?_, fun _ _ => .inl ?_⟩
    · intro r hr hsubmitted
      rw [hrecords, List.mem_append, List.mem_singleton] at hr
      rcases hr with hr | rfl
      · exact hr
      · exact absurd rfl hsubmitted
    · intro r hr
      left
      rw [hrecords]
      exact List.mem_append_left _ hr
    · rw [hrecords, List.map_append]
      exact List.mem_append_right _ List.mem_cons_self

/-- Only records of stored blocks are dropped. -/
theorem Held.finalized (h : Held H n) (blockId : BlockId) (written : Bool) :
    Keeps H n (n.finalized blockId written) := by
  unfold Node.finalized
  split
  next => exact h.keeps_of_db rfl (UInt64.le_refl _)
  next =>
    refine h.rerecord (fun cell hcell => removeFulfilled_cell blockId hcell) rfl ?_ ?_
    · intro r hr _
      rw [removeFulfilled_records] at hr
      exact (List.mem_filter.mp hr).1
    · intro r hr
      rw [removeFulfilled_records, List.mem_filter]
      cases hsubmitted : r.submittedInBlockId with
      | none =>
        refine .inl ⟨hr, ?_⟩
        rw [PendingDepositEventRecord.unfulfilledAfter, hsubmitted]
        rfl
      | some id => exact .inr (Option.some_ne_none id)

/-! ## Blocks -/

/-- The deposits noted for the next block are in it. -/
theorem mem_nextBlock_deposits {core : SequencerCore} {now : Timestamp} {id : HashType}
    (h : id ∈ (core.building H cfg now).depositEventIds) :
    id ∈ depositIds H (core.nextBlock H cfg now).body.transactions := by
  have hvalid : (core.building H cfg now).validTransactions.filterMap (extractBridgeDepositId H) =
      (core.building H cfg now).depositEventIds := buildLoop_deposits rfl rfl
  rw [← hvalid] at h
  change id ∈ List.filterMap _ ((core.building H cfg now).validTransactions ++ [_])
  rw [List.filterMap_append]
  exact List.mem_append_left _ h

theorem mem_storedBlocks {db : Db} {last : BlockId} (hlast : db .lastBlock = .some last) {block : Block} :
    block ∈ storedBlocks db ↔ ∃ id : BlockId, 1 ≤ id.toNat ∧ id ≤ last ∧ db (.block id) = .some block := by
  unfold storedBlocks
  rw [hlast, Option.getD_some, List.mem_filterMap]
  constructor
  · intro h
    obtain ⟨m, hm, hblock⟩ := h
    rw [List.mem_range'_1] at hm
    have hlt := last.toNat_lt
    have hnat : (UInt64.ofNat m).toNat = m := by
      rw [UInt64.toNat_ofNat']
      exact Nat.mod_eq_of_lt (by omega)
    exact ⟨UInt64.ofNat m, by omega, by rw [UInt64.le_iff_toNat_le]; omega, hblock⟩
  · intro h
    obtain ⟨id, hpos, hle, hblock⟩ := h
    rw [UInt64.le_iff_toNat_le] at hle
    refine ⟨id.toNat, List.mem_range'_1.mpr ⟨hpos, by omega⟩, ?_⟩
    rw [UInt64.ofNat_toNat]
    exact hblock

/-- A block above the last one is added to the stored ones. -/
theorem storedBlocks_grow {db db' : Db} {block : Block} {depositOpIds : List HashType} {state : V03State}
    {last : BlockId} (h : StoredCells db block depositOpIds state db') (hlast : db .lastBlock = .some last)
    (hnew : last < block.header.blockId) :
    block ∈ storedBlocks db' ∧ ∀ b ∈ storedBlocks db, b ∈ storedBlocks db' := by
  have hnat := UInt64.lt_iff_toNat_lt.mp hnew
  constructor
  · rw [mem_storedBlocks h.lastBlock]
    refine ⟨block.header.blockId, by omega, UInt64.le_refl _, ?_⟩
    rw [h.blocks, if_pos rfl]
  · intro b hb
    rw [mem_storedBlocks hlast] at hb
    rw [mem_storedBlocks h.lastBlock]
    obtain ⟨id, hpos, hle, hblock⟩ := hb
    have hlt := UInt64.lt_of_le_of_lt hle hnew
    refine ⟨id, hpos, UInt64.le_of_lt hlt, ?_⟩
    rw [h.blocks, if_neg (UInt64.ne_of_lt hlt)]
    exact hblock

/-- **A stored block credits what it marks.** -/
theorem Held.stored (h : Held H n) {now : Timestamp} (hfits : n.core.chainHeight.toNat + 1 < 2 ^ 64) {s : V03State}
    {db : Db} (hcells : StoredCells n.core.db (n.core.nextBlock H cfg now)
      (n.core.building H cfg now).depositEventIds s db) {n' : Node} (hcore : n'.core = n.core.builtOn H cfg now s db) :
    Keeps H n n' := by
  obtain ⟨last, hash, hlast, hlatest, hle⟩ := h.last
  obtain ⟨hblock, hold⟩ := storedBlocks_grow hcells hlast (UInt64.lt_of_le_of_lt hle (lt_succ_of_fits hfits))
  have hchain : ∀ id ∈ chainDeposits H n.core.db, id ∈ chainDeposits H db := by
    intro id hid
    obtain ⟨b, hb, hmem⟩ := List.mem_flatMap.mp hid
    exact List.mem_flatMap.mpr ⟨b, hold b hb, hmem⟩
  have hrecords : pendingRecords n'.core.db = submitted (n.core.building H cfg now).depositEventIds
      (n.core.nextBlock H cfg now).header.blockId (pendingRecords n.core.db) := by
    rw [hcore]
    exact hcells.pendingDepositEvents
  have hdb : n'.core.db = db := by
    rw [hcore]
    rfl
  refine ⟨⟨⟨_, _, hdb ▸ hcells.lastBlock, hdb ▸ hcells.latestBlockMeta, ?_⟩, ?_⟩, ?_⟩
  · rw [hcore]
    exact UInt64.le_refl _
  · intro r hr hsubmitted
    rw [hrecords] at hr
    rw [hdb]
    obtain ⟨r', hr', rfl⟩ := List.mem_map.mp hr
    by_cases hnew : r'.depositOpId ∈ (n.core.building H cfg now).depositEventIds
    · rw [if_pos hnew]
      exact List.mem_flatMap.mpr ⟨_, hblock, mem_nextBlock_deposits hnew⟩
    · rw [if_neg hnew] at hsubmitted ⊢
      exact hchain _ (h.marked r' hr' hsubmitted)
  · intro id hid
    rw [Node.Holds, hrecords, submitted_ids, hdb]
    exact hid.imp_right (hchain id)

theorem Held.produce (h : Held H n) (env : Env) : Keeps H n (n.produce H cfg env) := by
  obtain ⟨last, hash, hlast, hlatest, hle⟩ := h.last
  rcases SequencerCore.produceNewBlock_cases H cfg env hlatest hlast hle with
    ⟨-, hstep⟩ | ⟨-, fault, -, hstep⟩ | ⟨hfits, s, -, -, hlost | hstored⟩
  · rw [Node.produce, hstep]
    exact h.keeps_of_db rfl (UInt64.le_refl _)
  · rw [Node.produce, hstep]
    exact h.keeps_of_db (by rfl) (UInt64.le_refl _)
  · obtain ⟨-, e, hstep⟩ := hlost
    rw [Node.produce, hstep]
    exact h.keeps_of_db (by rfl) (UInt64.le_of_lt (lt_succ_of_fits hfits))
  · obtain ⟨-, db, hcells, hstep⟩ := hstored
    rw [Node.produce, hstep]
    exact h.stored hfits hcells rfl

end

/-! ## Runs -/

/-- Every deposit that was taken, or is before the checkpoint, is held. -/
structure Feed.Safe (H : Host) (ops : Nat → FinalizedOp) (f : Feed) : Prop where
  held : Held H f.node
  holds : ∀ i info, i < f.taken ∨ i < f.checkpoint → ops i = .deposit info → f.node.Holds H info.opId

namespace Feed.Safe

section
variable {H : Host} {cfg : Config} {ops : Nat → FinalizedOp} {f : Feed}

theorem keepsDeposits (h : Safe H ops f) : f.KeepsDeposits H ops := by
  intro i info hop
  by_cases hbefore : i < f.checkpoint
  · exact (h.holds i info (.inr hbefore) hop).imp_right .inl
  · exact .inr (.inr (Nat.le_of_not_lt hbefore))

theorem of_keeps (h : Safe H ops f) {node : Node} (hkeeps : Keeps H f.node node) : Safe H ops { f with node } :=
  ⟨hkeeps.held, fun i info hi hop => hkeeps.holds _ (h.holds i info hi hop)⟩

theorem blocksProcessed (h : Safe H ops f) {checkpoint : Nat} (upTo : Nat) (written : Bool)
    (hallows : ∀ i < checkpoint, f.taken ≤ i → ∀ info, ops i ≠ .deposit info) :
    Safe H ops (f.blocksProcessed checkpoint upTo written) := by
  unfold Feed.blocksProcessed
  split
  next => exact h
  next =>
    refine ⟨h.held, fun i info hi hop => ?_⟩
    rcases hi with hi | hi
    · exact h.holds i info (.inl hi) hop
    · cases written with
      | false => exact h.holds i info (.inr hi) hop
      | true =>
        by_cases htaken : i < f.taken
        · exact h.holds i info (.inl htaken) hop
        · exact absurd hop (hallows i hi (Nat.le_of_not_lt htaken) info)

theorem op (h : Safe H ops f) : Safe H ops (f.op ops true) := by
  unfold Feed.op
  split
  next => exact h
  next hready =>
    rw [not_or, Option.not_isSome_iff_eq_none] at hready
    dsimp only
    -- The operation keeps what is held, and a deposit is held after it.
    suffices hnext : ∀ node, Keeps H f.node node →
        (∀ info, ops f.taken = .deposit info → node.Holds H info.opId) →
          Safe H ops { f with node, taken := f.taken + 1 } by
      cases hop : ops f.taken with
      | inscription blockId =>
        refine hnext _ ?_ (by rw [hop]; nofun)
        cases blockId with
        | none => exact h.held.keeps_of_db rfl (UInt64.le_refl _)
        | some id => exact h.held.finalized id true
      | deposit info =>
        obtain ⟨hkeeps, hholds⟩ := h.held.deposit info true
        refine hnext _ hkeeps fun info' hinfo' => ?_
        obtain rfl : info = info' := FinalizedOp.deposit.inj (hop.symm.trans hinfo')
        exact hholds hready.2 rfl
      | withdraw => exact hnext _ (h.held.keeps_of_db rfl (UInt64.le_refl _)) (by rw [hop]; nofun)
    intro node hkeeps hholds
    refine ⟨hkeeps.held, fun i info hi hop => ?_⟩
    by_cases hi' : i = f.taken
    · subst hi'
      exact hholds info hop
    · refine hkeeps.holds _ (h.holds i info (hi.imp_left fun hlt => ?_) hop)
      dsimp only at hlt
      omega

theorem restart (h : Safe H ops f) : Safe H ops f.restart := by
  have hkeeps := h.held.restart
  refine ⟨hkeeps.held, fun i info hi hop => hkeeps.holds _ (h.holds i info (.inr ?_) hop)⟩
  exact hi.elim id id

theorem step (h : Safe H ops f) {action : FeedAction} (hallows : f.Allows ops action) :
    Safe H ops (f.step H cfg ops action) := by
  cases action with
  | blocksProcessed checkpoint upTo written => exact h.blocksProcessed upTo written hallows
  | op written =>
    obtain rfl : written = true := hallows
    exact h.op
  | submit tx => exact h.of_keeps (h.held.keeps_of_db rfl (UInt64.le_refl _))
  | enqueue => exact h.of_keeps h.held.enqueue
  | replay => exact h.of_keeps h.held.replay
  | produce env => exact h.of_keeps (h.held.produce env)
  | restart => exact h.restart

theorem run : ∀ {actions : List FeedAction} {f : Feed}, Safe H ops f → f.AllowsAll H cfg ops actions →
    Safe H ops (f.run H cfg ops actions)
  | [], _, h, _ => h
  | action :: actions, f, h, hallows => by
    have hrest : Safe H ops ((f.step H cfg ops action).run H cfg ops actions) := run (h.step hallows.1) hallows.2
    exact hrest

end

end Feed.Safe

theorem Fresh.safe {H : Host} {core : SequencerCore} (h : Fresh H core) (ops : Nat → FinalizedOp) :
    Feed.Safe H ops (.start core) := by
  obtain ⟨hash, hhash⟩ := h.latestBlockMeta
  refine ⟨⟨⟨core.chainHeight, hash, h.lastBlock, hhash, UInt64.le_refl _⟩, ?_⟩, ?_⟩
  · intro r hr
    rw [show pendingRecords (Feed.start core).node.core.db = [] from h.records] at hr
    cases hr
  · intro i info hi
    exact absurd hi (by simp [Feed.start])

/-- **No deposit is lost in any run**, wherever it is cut by restarts, in which no checkpoint is persisted before
the deposits it covers have been taken and the records are written. -/
theorem deposits_kept {H : Host} (cfg : Config) (ops : Nat → FinalizedOp) {core : SequencerCore}
    (hfresh : Fresh H core) (actions : List FeedAction) (hallows : (Feed.start core).AllowsAll H cfg ops actions) :
    ((Feed.start core).run H cfg ops actions).KeepsDeposits H ops :=
  ((hfresh.safe ops).run hallows).keepsDeposits

namespace Sample

/-- One deposit, and then nothing that matters. -/
def oneDeposit : Nat → FinalizedOp
  | 0 => .deposit depositOfFive
  | _ => .withdraw

/-- The checkpoint after the deposit comes with the batch after it. -/
def checkpointAfter : List FeedAction :=
  [.blocksProcessed 0 1 true, .op true, .enqueue, .blocksProcessed 1 2 true, .op true, .restart, .replay]

/-- The checkpoint after the deposit comes with the deposit, and the sequencer stops when it has persisted it. -/
def checkpointFirst : List FeedAction := [.blocksProcessed 1 1 true, .restart, .op true, .replay]

end Sample

open Sequencer.Sample in
/-- A deposit that is taken before its checkpoint is persisted. -/
theorem deposit_of_five_kept :
    ((Feed.start bridgeCore).run idleHost cfg oneDeposit checkpointAfter).KeepsDeposits idleHost oneDeposit ∧
      ((Feed.start bridgeCore).run idleHost cfg oneDeposit checkpointAfter).checkpoint = 1 := by
  refine ⟨deposits_kept cfg oneDeposit bridgeCore_fresh checkpointAfter
    ⟨nofun, rfl, trivial, ?_, rfl, trivial, trivial, trivial⟩, by decide +kernel⟩
  intro i hi htaken
  have hone : ((Feed.start bridgeCore).run idleHost cfg oneDeposit
      [.blocksProcessed 0 1 true, .op true, .enqueue]).taken = 1 := by
    decide +kernel
  have htaken : ((Feed.start bridgeCore).run idleHost cfg oneDeposit
      [.blocksProcessed 0 1 true, .op true, .enqueue]).taken ≤ i := htaken
  omega

open Sequencer.Sample in
/-- **A sequencer that stops right after it has persisted a checkpoint loses the deposit of that batch**: it was
handed over and has an account to go to, but it has no record, is in no block, and will not come again. -/
theorem deposit_lost_behind_checkpoint :
    oneDeposit 0 = .deposit depositOfFive ∧ (decodeDepositMetadata depositOfFive.metadata).isSome ∧
      ((Feed.start bridgeCore).run idleHost cfg oneDeposit [.blocksProcessed 1 1 true]).handed = 1 ∧
      ((Feed.start bridgeCore).run idleHost cfg oneDeposit checkpointFirst).taken = 1 ∧
      ¬((Feed.start bridgeCore).run idleHost cfg oneDeposit checkpointFirst).KeepsDeposits idleHost oneDeposit := by
  refine ⟨rfl, by decide, by decide +kernel, by decide +kernel, fun h => ?_⟩
  have hlost : ¬(depositOfFive.opId ∈ (pendingRecords ((Feed.start bridgeCore).run idleHost cfg oneDeposit
        checkpointFirst).node.core.db).map (·.depositOpId) ∨
      depositOfFive.opId ∈ chainDeposits idleHost ((Feed.start bridgeCore).run idleHost cfg oneDeposit
        checkpointFirst).node.core.db ∨
      ((Feed.start bridgeCore).run idleHost cfg oneDeposit checkpointFirst).checkpoint ≤ 0) := by
    decide +kernel
  exact hlost (h 0 depositOfFive rfl)

end Lez.Sequencer
