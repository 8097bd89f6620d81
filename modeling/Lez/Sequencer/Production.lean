/-
The live state of a sequencer against its chain. A build works on the live
state and empties the mempool as it goes, and counts the new block before it
is published and stored; an error on the way takes nothing back. So after a
call that returns an error the live state is still that of the chain exactly
when the build itself stopped (at a deposit, or at the clock) and the
transactions it had included until then leave no trace, which only public
ones without signatures can.
-/
import Lez.Node.SameLedger
import Lez.Sequencer.Core

namespace Lez.Sequencer

open Store
open Reference (nodeHost nodeLedger)

/-! ## What a build takes off the mempool -/

/-- The transactions a build skips. -/
def buildSkipped (H : Host) (cfg : Config) (height : BlockId) (now : Timestamp) (prevBlockHash : HashType) :
    MemPool → Building → List LeeTransaction
  | [], _ => []
  | item :: rest, b =>
    match takeItem H cfg height now prevBlockHash b item with
    | .deferred => []
    | .skipped => item.2 :: buildSkipped H cfg height now prevBlockHash rest b
    | .included b' =>
      if b'.validTransactions.length ≥ cfg.maxNumTxInBlock then []
      else buildSkipped H cfg height now prevBlockHash rest b'
    | .stopped _ => []

section
variable {H : Host} {cfg : Config} {height : BlockId} {now : Timestamp} {prevBlockHash : HashType}

/-- A user's transaction stops a build by a panic only. -/
theorem takeItem_user_stopped {b : Building} {tx : LeeTransaction} {fault : Fault}
    (h : takeItem H cfg height now prevBlockHash b (.user, tx) = .stopped fault) : ∃ text, fault = .panic text := by
  unfold takeItem takeUser at h
  split at h
  next => cases h
  next =>
    dsimp only at h
    split at h
    next => cases h
    next diff _ =>
      split at h
      next f hextract =>
        cases h
        unfold extractBridgeWithdrawData at hextract
        split at hextract <;> cases hextract
        exact ⟨_, rfl⟩
      next =>
        split at h
        next f happly =>
          cases h
          unfold V03State.apply at happly
          cases hdiff : b.state.applyStateDiff H diff with
          | none =>
            rw [hdiff] at happly
            cases happly
            exact ⟨_, rfl⟩
          | some =>
            rw [hdiff] at happly
            cases happly
        next => cases h

/-- **Where a user's transaction is after a build**: still queued, in the block, or skipped. -/
theorem buildLoop_user : ∀ {mempool : MemPool} {b : Building} {rest : MemPool} {b' : Building}
    {outcome : Except Fault Unit}, buildLoop H cfg height now prevBlockHash mempool b = (rest, b', outcome) →
      ∀ tx, (.user, tx) ∈ mempool → (.user, tx) ∈ rest ∨ tx ∈ b'.validTransactions ∨
        tx ∈ buildSkipped H cfg height now prevBlockHash mempool b ∨ ∃ text, outcome = .error (.panic text)
  | [], b, rest, b', outcome, _, tx, hmem => by simp at hmem
  | item :: mempool, b, rest, b', outcome, h, tx, hmem => by
    unfold buildLoop at h
    split at h
    next =>
      cases h
      exact .inl hmem
    next hitem =>
      rcases List.mem_cons.mp hmem with hhead | htail
      · right
        right
        left
        rw [buildSkipped, hitem, ← hhead]
        exact List.mem_cons_self
      · rcases buildLoop_user h tx htail with hrest | hvalid | hskipped | hpanic
        · exact .inl hrest
        · exact .inr (.inl hvalid)
        · right
          right
          left
          rw [buildSkipped, hitem]
          exact List.mem_cons_of_mem _ hskipped
        · exact .inr (.inr (.inr hpanic))
    next b₁ hitem =>
      obtain ⟨hvalid₁, -⟩ := takeItem_included hitem
      split at h
      next hfull =>
        cases h
        rcases List.mem_cons.mp hmem with hhead | htail
        · right
          left
          rw [hvalid₁, ← hhead]
          simp
        · exact .inl htail
      next hroom =>
        rcases List.mem_cons.mp hmem with hhead | htail
        · obtain ⟨txs, hvalid, -⟩ := buildLoop_transitions h
          right
          left
          rw [hvalid, hvalid₁, ← hhead]
          simp
        · rcases buildLoop_user h tx htail with hrest | hvalid | hskipped | hpanic
          · exact .inl hrest
          · exact .inr (.inl hvalid)
          · right
            right
            left
            rw [buildSkipped, hitem]
            dsimp only
            rw [if_neg hroom]
            exact hskipped
          · exact .inr (.inr (.inr hpanic))
    next fault hitem =>
      cases h
      rcases List.mem_cons.mp hmem with hhead | htail
      · rw [← hhead] at hitem
        obtain ⟨text, htext⟩ := takeItem_user_stopped hitem
        exact .inr (.inr (.inr ⟨text, by rw [htext]⟩))
      · exact .inl htail

/-- The public keys of a block's withdrawals have 32 bytes. -/
theorem buildLoop_withdrawals {mempool rest : MemPool} {b b' : Building} {outcome : Except Fault Unit}
    (h : buildLoop H cfg height now prevBlockHash mempool b = (rest, b', outcome))
    (hb : ∀ w ∈ b.withdrawals, w.pk < 2 ^ 256) : ∀ w ∈ b'.withdrawals, w.pk < 2 ^ 256 := by
  refine buildLoop_invariant (P := fun b => ∀ w ∈ b.withdrawals, w.pk < 2 ^ 256) ?_ h hb
  intro b₁ item b₂ hprev hitem
  unfold takeItem at hitem
  split at hitem
  next => cases hitem
  next =>
    split at hitem
    next =>
      unfold takeUser at hitem
      split at hitem
      next => cases hitem
      next =>
        split at hitem
        next => cases hitem
        next withdraw hwithdraw =>
          split at hitem
          next => cases hitem
          next =>
            cases hitem
            intro w hw
            rcases List.mem_append.mp hw with hold | hnew
            · exact hprev w hold
            · rw [Option.mem_toList] at hnew
              obtain rfl : withdraw = .some w := hnew
              unfold extractBridgeWithdrawData at hwithdraw
              split at hwithdraw
              next amount pk _ =>
                cases hwithdraw
                have hlt := ofLe_lt pk.toList
                rw [List.Vector.toList_length] at hlt
                exact Nat.lt_of_le_of_lt (Nat.mod_le _ _) (by simpa using hlt)
              next => cases hwithdraw
              next => cases hwithdraw
    next =>
      unfold takeSequencer at hitem
      split at hitem
      next =>
        split at hitem
        next => cases hitem
        next =>
          cases hitem
          exact hprev
      next => cases hitem

end

theorem mapM_withdrawEventReconciliationKey : ∀ {withdrawals : List WithdrawArg},
    (∀ w ∈ withdrawals, w.pk < 2 ^ 256) →
      withdrawals.mapM withdrawEventReconciliationKey = .ok (withdrawals.map WithdrawArg.key)
  | [], _ => rfl
  | w :: withdrawals, h => by
    have ih := mapM_withdrawEventReconciliationKey fun w' hw' => h w' (List.mem_cons_of_mem _ hw')
    rw [List.mapM_cons, ih, withdrawEventReconciliationKey, if_pos (h w List.mem_cons_self)]
    rfl

/-! ## A call -/

theorem toNat_succ_of_fits {height : BlockId} (h : height.toNat + 1 < 2 ^ 64) : (height + 1).toNat = height.toNat + 1 :=
  (UInt64.toNat_add height 1).trans (Nat.mod_eq_of_lt h)

theorem lt_succ_of_fits {height : BlockId} (h : height.toNat + 1 < 2 ^ 64) : height < height + 1 := by
  rw [UInt64.lt_iff_toNat_lt, toNat_succ_of_fits h]
  exact Nat.lt_succ_self _

namespace SequencerCore

section
variable (H : Host) (cfg : Config) (now : Timestamp) (core : SequencerCore)

/-- The hash the next block names. -/
def prevBlockHash : HashType := ((core.db .latestBlockMeta).map (·.hash)).getD (ByteVec.fill 32 0)

/-- The loop of the next build. -/
def nextLoop : MemPool × Building × Except Fault Unit :=
  buildLoop H cfg (core.chainHeight + 1) now core.prevBlockHash core.mempool ⟨core.state, [], [], []⟩

/-- Its part of the mempool that is left. -/
def leftover : MemPool := (core.nextLoop H cfg now).1

/-- Its part of the block. -/
def building : Building := (core.nextLoop H cfg now).2.1

/-- The transactions it skips. -/
def skipped : List LeeTransaction :=
  buildSkipped H cfg (core.chainHeight + 1) now core.prevBlockHash core.mempool ⟨core.state, [], [], []⟩

/-- The clock's transaction after it. -/
def clockTransition : Option V03State :=
  (core.building H cfg now).state.transition H (LeeTransaction.clockInvocation H now) (core.chainHeight + 1) now

/-- The block it makes when nothing stops it. -/
def nextBlock : Block :=
  HashableBlockData.intoPendingBlock H cfg.sign ⟨core.chainHeight + 1, core.prevBlockHash, now,
    (core.building H cfg now).validTransactions ++ [LeeTransaction.clockInvocation H now]⟩

/-- Every deposit that comes up is executed, and so is the clock's transaction. -/
structure Completes : Prop where
  loop : (core.nextLoop H cfg now).2.2 = .ok ()
  clock : (core.clockTransition H cfg now).isSome

/-- The block is published and stored. -/
structure Delivers (env : Env) : Prop where
  published : env.publishBlock = .ok ()
  written : env.written = true
  counters : ∀ w ∈ (core.building H cfg env.now).withdrawals,
    ((core.db (.unseenWithdrawCount w.key)).getD 0).toNat + 1 < 2 ^ 64

/-- What a call leaves whose build stops. -/
def stoppedBuild : SequencerCore :=
  { core with state := (core.building H cfg now).state, mempool := core.leftover H cfg now }

/-- What a call leaves that builds its block. -/
def builtOn (s : V03State) (db : Db) : SequencerCore :=
  ⟨s, db, core.leftover H cfg now, core.chainHeight + 1⟩

end

section
variable (H : Host) (cfg : Config) {core : SequencerCore}

/-- A build stops, or makes a block of what it included. -/
theorem buildBlockFromMempool_cases {latest : BlockMeta} (hlatest : core.db .latestBlockMeta = .some latest)
    (hfits : core.chainHeight.toNat + 1 < 2 ^ 64) (now : Timestamp) :
    (¬core.Completes H cfg now ∧ ∃ fault,
      (∀ text, (core.nextLoop H cfg now).2.2 = .error (.panic text) → fault = .panic text) ∧
      core.buildBlockFromMempool H cfg now = (core.stoppedBuild H cfg now, .error fault)) ∨
    ∃ s, core.clockTransition H cfg now = .some s ∧ core.Completes H cfg now ∧
      core.buildBlockFromMempool H cfg now = (core.builtOn H cfg now s core.db,
        .ok ⟨core.nextBlock H cfg now, (core.building H cfg now).depositEventIds,
          (core.building H cfg now).withdrawals⟩) := by
  have hprev : core.prevBlockHash = latest.hash := by rw [prevBlockHash, hlatest, Option.map_some, Option.getD_some]
  cases hloop : core.nextLoop H cfg now with
  | mk rest tail =>
    obtain ⟨b, outcome⟩ := tail
    have hbuilding : core.building H cfg now = b := by rw [building, hloop]
    have hleftover : core.leftover H cfg now = rest := by rw [leftover, hloop]
    have hraw := hloop
    rw [nextLoop, hprev] at hraw
    unfold buildBlockFromMempool stoppedBuild builtOn nextBlock
    rw [if_pos hfits, hlatest, hbuilding, hleftover, hprev]
    dsimp only
    rw [hraw]
    cases outcome with
    | error fault =>
      left
      refine ⟨fun h => ?_, fault, fun text htext => Except.error.inj htext, rfl⟩
      have hok := h.loop
      rw [hloop] at hok
      cases hok
    | ok =>
      dsimp only
      cases hexecute : b.state.execute H (.leeIn "Clock transaction failed. Aborting block production.")
          (LeeTransaction.clockInvocation H now) (core.chainHeight + 1) now with
      | error fault =>
        left
        refine ⟨fun h => ?_, fault, fun text htext => (by cases htext), rfl⟩
        obtain ⟨s, hs⟩ := Option.isSome_iff_exists.mp h.clock
        rw [clockTransition, hbuilding] at hs
        rw [V03State.execute_ok_iff.mpr hs] at hexecute
        cases hexecute
      | ok s =>
        have hclock : core.clockTransition H cfg now = .some s := by
          rw [clockTransition, hbuilding]
          exact V03State.execute_ok_iff.mp hexecute
        right
        exact ⟨s, hclock, ⟨by rw [hloop], by rw [hclock]; rfl⟩, rfl⟩

/-- The withdrawals of a block have their keys. -/
theorem building_keys (now : Timestamp) :
    (core.building H cfg now).withdrawals.mapM withdrawEventReconciliationKey =
      .ok ((core.building H cfg now).withdrawals.map WithdrawArg.key) :=
  mapM_withdrawEventReconciliationKey (buildLoop_withdrawals rfl (by simp))

/-- **What a call can do**: run out of numbers, stop in the build, build a block and lose it, or store it. -/
theorem produceNewBlock_cases (env : Env) {latest : BlockMeta} (hlatest : core.db .latestBlockMeta = .some latest)
    {last : BlockId} (hlast : core.db .lastBlock = .some last) (hle : last ≤ core.chainHeight) :
    (¬core.chainHeight.toNat + 1 < 2 ^ 64 ∧
      core.produceNewBlock H cfg env = (core, .error (.panic "Max block height reached"))) ∨
    (¬core.Completes H cfg env.now ∧ ∃ fault,
      (∀ text, (core.nextLoop H cfg env.now).2.2 = .error (.panic text) → fault = .panic text) ∧
      core.produceNewBlock H cfg env = (core.stoppedBuild H cfg env.now, .error fault)) ∨
    (core.chainHeight.toNat + 1 < 2 ^ 64 ∧ ∃ s, core.clockTransition H cfg env.now = .some s ∧
      core.Completes H cfg env.now ∧
      ((¬core.Delivers H cfg env ∧ ∃ e,
          core.produceNewBlock H cfg env = (core.builtOn H cfg env.now s core.db, .error (.error e))) ∨
        (core.Delivers H cfg env ∧ ∃ db',
          StoredCells core.db (core.nextBlock H cfg env.now) (core.building H cfg env.now).depositEventIds s db' ∧
          core.produceNewBlock H cfg env =
            (core.builtOn H cfg env.now s db', .ok (core.chainHeight + 1))))) := by
  by_cases hfits : core.chainHeight.toNat + 1 < 2 ^ 64
  · right
    rcases buildBlockFromMempool_cases H cfg hlatest hfits env.now with
      ⟨hstop, fault, hpanic, hbuild⟩ | hbuilt
    · left
      refine ⟨hstop, fault.within "Failed to build block from mempool transactions", ?_, ?_⟩
      · intro text htext
        rw [hpanic text htext]
        rfl
      · simp only [produceNewBlock, hbuild]
    · right
      obtain ⟨s, hclock, hcompletes, hbuild⟩ := hbuilt
      refine ⟨hfits, s, hclock, hcompletes, ?_⟩
      simp only [produceNewBlock, hbuild, building_keys H cfg]
      cases hpublish : env.publishBlock with
      | error e =>
        left
        refine ⟨fun h => ?_, _, rfl⟩
        rw [h.published] at hpublish
        cases hpublish
      | ok =>
        by_cases hwritten : env.written = true
        · simp only [hwritten, ↓reduceIte]
          by_cases hcounters : ∀ w ∈ (core.building H cfg env.now).withdrawals,
              ((core.db (.unseenWithdrawCount w.key)).getD 0).toNat + 1 < 2 ^ 64
          · right
            have hkeys : ∀ w ∈ (core.building H cfg env.now).withdrawals.map WithdrawArg.key,
                ((core.db (.unseenWithdrawCount w)).getD 0).toNat + 1 < 2 ^ 64 := by
              simpa using hcounters
            have hnew : (core.nextBlock H cfg env.now).header.blockId > last :=
              UInt64.lt_of_le_of_lt hle (lt_succ_of_fits hfits)
            have hstored := atomicUpdate_stored (core.nextBlock H cfg env.now)
              (core.building H cfg env.now).depositEventIds s hlast hkeys
            refine ⟨⟨hpublish, hwritten, hcounters⟩, core.db.write (storedBatch core.db (core.nextBlock H cfg env.now)
              (core.building H cfg env.now).depositEventIds
              ((core.building H cfg env.now).withdrawals.map WithdrawArg.key) s last),
              storedBatch_cells hnew, ?_⟩
            simp only [builtOn, hstored]
          · left
            refine ⟨fun h => hcounters h.counters, ?_⟩
            rcases atomicUpdate_run core.db (core.nextBlock H cfg env.now) (core.building H cfg env.now).depositEventIds
                ((core.building H cfg env.now).withdrawals.map WithdrawArg.key) s with hstored | ⟨e, he⟩
            · obtain ⟨_, -, hroom, -⟩ := hstored
              exact absurd (by simpa using hroom) hcounters
            · rw [builtOn, he]
              exact ⟨_, rfl⟩
        · left
          refine ⟨fun h => hwritten h.written, ?_⟩
          simp only [hwritten]
          exact ⟨_, rfl⟩
  · left
    refine ⟨hfits, ?_⟩
    simp only [produceNewBlock, buildBlockFromMempool, if_neg hfits]
    rfl

end

end SequencerCore

/-! ## The chain -/

/-- The stored blocks in their order. -/
def storedBlocks (db : Db) : List Block :=
  (List.range' 1 ((db .lastBlock).getD 0).toNat).filterMap fun n => db (.block (UInt64.ofNat n))

/-- The ledger after blocks, one by one. -/
def chainState (H : Host) (blocks : List Block) (initial : V03State) : Option V03State :=
  blocks.foldlM (fun s b => transitions H b.header.blockId b.header.timestamp b.body.transactions s) initial

theorem chainState_concat {H : Host} {blocks : List Block} {block : Block} {initial : V03State} :
    chainState H (blocks ++ [block]) initial = (chainState H blocks initial).bind
      (transitions H block.header.blockId block.header.timestamp block.body.transactions) := by
  unfold chainState
  rw [List.foldlM_append]
  simp

theorem transitions_same {H : Host} {blockId : BlockId} {timestamp : Timestamp} {txs : List LeeTransaction}
    {s s' u : V03State} (h : s.Same s') (hu : transitions H blockId timestamp txs s = .some u) :
    ∃ u', transitions H blockId timestamp txs s' = .some u' ∧ u.Same u' :=
  foldlM_related (fun _ _ _ _ hsame hu => hsame.transition hu) h hu

theorem transitions_chain {H : Host} {blockId : BlockId} {timestamp : Timestamp} {s' : V03State} :
    ∀ {txs : List LeeTransaction} {s : V03State}, transitions H blockId timestamp txs s = .some s' → Chain H s txs s'
  | [], _, h => by
    cases h
    exact .nil _
  | tx :: txs, s, h => by
    rw [transitions_cons, Option.bind_eq_some_iff] at h
    obtain ⟨u, hu, h⟩ := h
    exact .cons hu (transitions_chain h)

/-- A newly stored block is the last of the chain. -/
theorem storedBlocks_stored {db db' : Db} {block : Block} {depositOpIds : List HashType} {state : V03State}
    {last : BlockId} (h : StoredCells db block depositOpIds state db') (hlast : db .lastBlock = .some last)
    (hfits : last.toNat + 1 < 2 ^ 64) (hid : block.header.blockId = last + 1) :
    storedBlocks db' = storedBlocks db ++ [block] := by
  have hnat : UInt64.ofNat (1 + 1 * last.toNat) = last + 1 := by
    rw [← UInt64.toNat_inj, toNat_succ_of_fits hfits, UInt64.toNat_ofNat']
    omega
  have hold : ∀ n ∈ List.range' 1 last.toNat,
      db' (.block (UInt64.ofNat n)) = db (.block (UInt64.ofNat n)) := by
    intro n hn
    have hne : UInt64.ofNat n ≠ block.header.blockId := by
      rw [List.mem_range'_1] at hn
      rw [hid, ne_eq, ← UInt64.toNat_inj, toNat_succ_of_fits hfits, UInt64.toNat_ofNat']
      omega
    rw [h.blocks, if_neg hne]
  have hnew : db' (.block (UInt64.ofNat (1 + 1 * last.toNat))) = .some block := by
    rw [h.blocks, hnat, hid, if_pos rfl]
  unfold storedBlocks
  rw [h.lastBlock, hlast, hid, Option.getD_some, Option.getD_some, toNat_succ_of_fits hfits, List.range'_concat,
    List.filterMap_append, List.filterMap_congr hold, List.filterMap_cons_some hnew, List.filterMap_nil]

/-- The live state is that of the stored chain, the height its last number. -/
structure Consistent (H : Host) (initial : V03State) (core : SequencerCore) : Prop where
  lastBlock : core.db .lastBlock = .some core.chainHeight
  latestBlockMeta : ∃ hash, core.db .latestBlockMeta = .some ⟨core.chainHeight, hash⟩
  state : ∃ s, chainState H (storedBlocks core.db) initial = .some s ∧ s.Same core.state

/-- After the call the sequencer is consistent again, and a user's transaction that was queued is queued,
stored, or was refused. -/
structure Upheld (H : Host) (cfg : Config) (env : Env) (initial : V03State) (core : SequencerCore) : Prop where
  consistent : Consistent H initial (core.produceNewBlock H cfg env).1
  users : ∀ tx, (.user, tx) ∈ core.mempool →
    (.user, tx) ∈ (core.produceNewBlock H cfg env).1.mempool ∨
    (∃ block ∈ storedBlocks (core.produceNewBlock H cfg env).1.db, tx ∈ block.body.transactions) ∨
    tx ∈ core.skipped H cfg env.now

/-- What the next build includes before it stops are public transactions nobody signed that together leave the
ledger as it is, and the users' among them are queued once more, stored already, or refused when they come again. -/
structure Traceless (H : Host) (cfg : Config) (now : Timestamp) (core : SequencerCore) : Prop where
  unsigned : ∀ tx ∈ (core.building H cfg now).validTransactions, tx.Unsigned
  ledger : (core.building H cfg now).state.Same core.state
  users : ∀ tx, (.user, tx) ∈ core.mempool → tx ∈ (core.building H cfg now).validTransactions →
    (.user, tx) ∈ core.leftover H cfg now ∨
    (∃ block ∈ storedBlocks core.db, tx ∈ block.body.transactions) ∨ tx ∈ core.skipped H cfg now

section
variable {H : Host} {cfg : Config} {env : Env} {initial : V03State} {core : SequencerCore}

/-- The transactions included so far lead to the state of the build. -/
theorem SequencerCore.building_transitions (now : Timestamp) :
    transitions H (core.chainHeight + 1) now (core.building H cfg now).validTransactions core.state =
      .some (core.building H cfg now).state := by
  have hloop : buildLoop H cfg (core.chainHeight + 1) now core.prevBlockHash core.mempool ⟨core.state, [], [], []⟩ =
      (core.leftover H cfg now, core.building H cfg now, (core.nextLoop H cfg now).2.2) := rfl
  obtain ⟨txs, hvalid, hstate⟩ := buildLoop_transitions hloop
  rw [hvalid]
  exact hstate

/-- A stored block keeps the live state with the chain. -/
theorem Consistent.stored (h : Consistent H initial core) (hfits : core.chainHeight.toNat + 1 < 2 ^ 64)
    {s : V03State} (hclock : core.clockTransition H cfg env.now = .some s) {db' : Db}
    (hcells : StoredCells core.db (core.nextBlock H cfg env.now) (core.building H cfg env.now).depositEventIds s db') :
    Consistent H initial (core.builtOn H cfg env.now s db') where
  lastBlock := hcells.lastBlock
  latestBlockMeta := ⟨_, hcells.latestBlockMeta⟩
  state := by
    obtain ⟨u, hu, hsame⟩ := h.state
    have hblock : transitions H (core.chainHeight + 1) env.now
        ((core.building H cfg env.now).validTransactions ++ [LeeTransaction.clockInvocation H env.now]) core.state =
          .some s := by
      rw [transitions_append, core.building_transitions, Option.bind_some, transitions_singleton]
      exact hclock
    obtain ⟨s', hs', hsame'⟩ := transitions_same hsame.symm hblock
    refine ⟨s', ?_, hsame'.symm⟩
    dsimp only [SequencerCore.builtOn]
    rw [storedBlocks_stored hcells h.lastBlock hfits rfl, chainState_concat, hu, Option.bind_some]
    exact hs'

/-- **After a call that returns, the live state is that of the chain and no user's transaction is lost** exactly
when the block it built was published and stored, or, when the build stopped, that had left no trace. -/
theorem upheld_iff (h : Consistent H initial core)
    (hreturns : ∀ text, (core.produceNewBlock H cfg env).2 ≠ .error (.panic text)) :
    Upheld H cfg env initial core ↔
      (core.Completes H cfg env.now → core.Delivers H cfg env) ∧
        (¬core.Completes H cfg env.now → Traceless H cfg env.now core) := by
  obtain ⟨hash, hlatest⟩ := h.latestBlockMeta
  have hloop : buildLoop H cfg (core.chainHeight + 1) env.now core.prevBlockHash core.mempool
      ⟨core.state, [], [], []⟩ = (core.leftover H cfg env.now, core.building H cfg env.now,
        (core.nextLoop H cfg env.now).2.2) := rfl
  rcases SequencerCore.produceNewBlock_cases H cfg env hlatest h.lastBlock UInt64.le_rfl with
    ⟨-, hcall⟩ | ⟨hstop, fault, hfault, hcall⟩ | ⟨hfits, s, hclock, hcompletes, hlost | ⟨hdelivers, db', hcells, hcall⟩⟩
  · exact absurd (by rw [hcall]) (hreturns "Max block height reached")
  · -- The build stopped: database and height are the old ones.
    obtain ⟨u, hu, hsame⟩ := h.state
    refine Iff.trans ?_ (⟨fun htrace => ⟨fun hc => absurd hc hstop, fun _ => htrace⟩, fun hsafe => hsafe.2 hstop⟩ :
      Traceless H cfg env.now core ↔ _)
    constructor
    · intro hupheld
      obtain ⟨u', hu', hsame'⟩ := hupheld.consistent.state
      have husers := hupheld.users
      rw [hcall] at hu' hsame' husers
      dsimp only [SequencerCore.stoppedBuild] at hu' hsame' husers
      rw [hu, Option.some.injEq] at hu'
      rw [← hu'] at hsame'
      have hledger := hsame'.symm.trans hsame
      exact ⟨(transitions_chain (core.building_transitions env.now)).unsigned_of_same hledger, hledger,
        fun tx hmem _ => husers tx hmem⟩
    · intro htrace
      constructor
      · rw [hcall]
        exact ⟨h.lastBlock, h.latestBlockMeta, u, hu, hsame.trans htrace.ledger.symm⟩
      · intro tx hmem
        rw [hcall]
        rcases buildLoop_user hloop tx hmem with hrest | hvalid | hskipped | ⟨text, hpanic⟩
        · exact .inl hrest
        · exact htrace.users tx hmem hvalid
        · exact .inr (.inr hskipped)
        · refine absurd ?_ (hreturns text)
          rw [hcall, hfault text hpanic]
  · -- The block is lost: the height has moved on, the database has not.
    obtain ⟨hdelivers, e, hcall⟩ := hlost
    refine iff_of_false ?_ fun hsafe => hdelivers (hsafe.1 hcompletes)
    intro hupheld
    have hheight := hupheld.consistent.lastBlock
    rw [hcall] at hheight
    dsimp only [SequencerCore.builtOn] at hheight
    rw [h.lastBlock, Option.some.injEq] at hheight
    exact UInt64.ne_of_lt (lt_succ_of_fits hfits) hheight
  · refine iff_of_true ⟨?_, ?_⟩ ⟨fun _ => hdelivers, fun hstop => absurd hcompletes hstop⟩
    · rw [hcall]
      exact h.stored hfits hclock hcells
    · intro tx hmem
      rw [hcall]
      rcases buildLoop_user hloop tx hmem with hrest | hvalid | hskipped | hpanic
      · exact .inl hrest
      · right
        left
        refine ⟨core.nextBlock H cfg env.now, ?_, List.mem_append_left _ hvalid⟩
        dsimp only [SequencerCore.builtOn]
        rw [storedBlocks_stored hcells h.lastBlock hfits rfl]
        simp
      · exact .inr (.inr hskipped)
      · obtain ⟨text, hpanic⟩ := hpanic
        rw [hcompletes.loop] at hpanic
        cases hpanic

end

namespace Sample

theorem idleCore_consistent : Consistent idleHost idleLedger idleCore where
  lastBlock := rfl
  latestBlockMeta := ⟨_, rfl⟩
  state := by
    have hblocks : storedBlocks idleCore.db = [genesis idleHost] := rfl
    refine ⟨idleCore.state, ?_, .refl _⟩
    rw [hblocks, ← List.nil_append [genesis idleHost], chainState_concat]
    exact transitions_singleton.trans idleLedger_started

def online : Env := ⟨5, .ok (), true⟩

def offline : Env := ⟨5, .error (.other "Drive task is no longer running"), true⟩

end Sample

open Sequencer.Sample in
/-- A block with a user's transaction, published and stored. -/
theorem idle_block_upheld : Consistent idleHost idleLedger idleCore ∧ Upheld idleHost cfg online idleLedger idleCore := by
  have hanswer : (idleCore.produceNewBlock idleHost cfg online).2 = .ok 2 := by decide +kernel
  have hreturns : ∀ text, (idleCore.produceNewBlock idleHost cfg online).2 ≠ .error (.panic text) := by
    intro text h
    rw [hanswer] at h
    cases h
  have hcompletes : idleCore.Completes idleHost cfg online.now := ⟨by decide +kernel, by decide +kernel⟩
  have hwithdrawals : (idleCore.building idleHost cfg online.now).withdrawals = [] := by decide +kernel
  refine ⟨idleCore_consistent, (upheld_iff idleCore_consistent hreturns).mpr ⟨?_, ?_⟩⟩
  · intro _
    refine ⟨rfl, rfl, ?_⟩
    rw [hwithdrawals]
    exact fun w hw => absurd hw List.not_mem_nil
  · intro hstop
    exact absurd hcompletes hstop

open Sequencer.Sample in
/-- The same block when the publisher is gone: the sequencer counts it, nobody has it, and the user's
transaction is neither queued nor stored nor refused. -/
theorem unpublished_block_lost : Consistent idleHost idleLedger idleCore ∧
    (idleCore.produceNewBlock idleHost cfg offline).2 =
      .error (.error (.within "Failed to publish block to Bedrock" (.other "Drive task is no longer running"))) ∧
    ¬Consistent idleHost idleLedger (idleCore.produceNewBlock idleHost cfg offline).1 ∧
    ¬Upheld idleHost cfg offline idleLedger idleCore ∧
    (.user, idleCall) ∈ idleCore.mempool ∧ (idleCore.produceNewBlock idleHost cfg offline).1.mempool = [] ∧
    (∀ block ∈ storedBlocks (idleCore.produceNewBlock idleHost cfg offline).1.db,
      idleCall ∉ block.body.transactions) ∧
    idleCall ∉ idleCore.skipped idleHost cfg 5 := by
  have hheight : ¬Consistent idleHost idleLedger (idleCore.produceNewBlock idleHost cfg offline).1 := by
    intro h
    exact absurd h.lastBlock (by decide +kernel)
  refine ⟨idleCore_consistent, by decide +kernel, hheight, fun h => hheight h.consistent, ?_⟩
  exact ⟨List.mem_singleton_self _, by decide +kernel, by decide +kernel, by decide +kernel⟩

end Lez.Sequencer
