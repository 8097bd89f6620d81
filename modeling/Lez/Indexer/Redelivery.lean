/-
The indexer's process: blocks arrive in order, each is put and then the
cursor is written; a process that stops is started again on the database it
left and is given the blocks after the cursor. Putting a block and writing
the cursor are two steps, and a stop between them brings the block again,
which is executed and listed a second time.

As long as no stop falls between the two, the indexer ends up as if every
block had come once.
-/
import Mathlib.Logic.Relation
import Lez.Indexer.BlockStore

namespace Lez.Indexer

open Store
open Reference (block nodeHost nodeLedger)

/-- The store and the number of blocks consumed, which is the cursor. -/
structure Process where
  store : IndexerStore
  position : Nat

/-- The header every block is put with. -/
def placeholderL1Header : Bytes32 := ByteVec.fill 32 0

namespace Process

/-- A new indexer. -/
def start (initial : V03State) : Process := ⟨⟨openOrCreate (fun _ => .none) initial, initial⟩, 0⟩

/-- A start on the database a stopped process left; none when the database does not open. -/
def restart (H : Host) (initial : V03State) (db : Db) : Option Process :=
  (IndexerStore.openDb H initial db).toOption.map fun store => ⟨store, (db .zoneSdkIndexerCursor).getD 0⟩

/-- A block is put, whatever the answer, and the cursor is written. -/
def deliver (H : Host) (p : Process) (block : Block) : Process :=
  let stored := (p.store.putBlock H .sound block placeholderL1Header).1
  ⟨⟨stored.db.write [⟨.zoneSdkIndexerCursor, .some (p.position + 1)⟩], stored.currentState⟩, p.position + 1⟩

end Process

/-- One step of the process over a chain. A process that stops while it puts a block leaves what a disk does that
takes only some of the writes (`Disk.sound`: all of them, but not the cursor); `stops` says which of these stops
there are. -/
inductive Step (H : Host) (initial : V03State) (blocks : List Block) (stops : Disk → Prop) : Process → Process → Prop
  | deliver {p : Process} {block : Block} : blocks[p.position]? = .some block →
      (∀ text, (p.store.putBlock H .sound block placeholderL1Header).2 ≠ .error (.panic text)) →
      Step H initial blocks stops p (p.deliver H block)
  | stop {p p' : Process} : Process.restart H initial p.store.db = .some p' → Step H initial blocks stops p p'
  | stopStoring {p p' : Process} {block : Block} (disk : Disk) : blocks[p.position]? = .some block → stops disk →
      Process.restart H initial (p.store.putBlock H disk block placeholderL1Header).1.db = .some p' →
      Step H initial blocks stops p p'

abbrev Runs (H : Host) (initial : V03State) (blocks : List Block) (stops : Disk → Prop) : Process → Prop :=
  Relation.ReflTransGen (Step H initial blocks stops) (.start initial)

/-- Every block once, without a stop. -/
def deliverOnce (H : Host) (initial : V03State) (blocks : List Block) : Process :=
  blocks.foldl (Process.deliver H) (.start initial)

/-- The same transactions listed for every account. -/
structure SameLists (db db' : Db) : Prop where
  numTx : ∀ acc, db (.accNumTx acc) = db' (.accNumTx acc)
  tx : ∀ acc i, db (.accTx acc i) = db' (.accTx acc i)

structure SameIndex (p q : Process) : Prop where
  state : p.store.currentState.Same q.store.currentState
  lists : SameLists p.store.db q.store.db

/-! ## Lists -/

section
variable {H : Host} {db db' : Db}

theorem listBatch_congr (h : SameLists db db') (block : Block) : listBatch H db block = listBatch H db' block := by
  unfold listBatch
  congr 1
  funext acc
  unfold putAccountTransactionsDependant
  rw [h.numTx acc]

theorem SameLists.putBlock (h : SameLists db db') (block : Block) (l1LibHeader : Bytes32) :
    SameLists (putBlock H db .sound block l1LibHeader).1 (putBlock H db' .sound block l1LibHeader).1 := by
  constructor
  · intro acc
    rw [putBlock_list block l1LibHeader (.inl ⟨acc, rfl⟩), putBlock_list block l1LibHeader (.inl ⟨acc, rfl⟩),
      listBatch_congr h block]
    exact Db.write_congr _ (h.numTx acc)
  · intro acc i
    rw [putBlock_list block l1LibHeader (.inr ⟨acc, i, rfl⟩), putBlock_list block l1LibHeader (.inr ⟨acc, i, rfl⟩),
      listBatch_congr h block]
    exact Db.write_congr _ (h.tx acc i)

theorem SameLists.cursor (h : SameLists db db') (n n' : Nat) :
    SameLists (db.write [⟨.zoneSdkIndexerCursor, .some n⟩]) (db'.write [⟨.zoneSdkIndexerCursor, .some n'⟩]) := by
  constructor
  · intro acc
    rw [Db.write_other db (by simp), Db.write_other db' (by simp), h.numTx]
  · intro acc i
    rw [Db.write_other db (by simp), Db.write_other db' (by simp), h.tx]

theorem SameLists.openOrCreate (h : SameLists db db') (initial : V03State) : SameLists (openOrCreate db initial) db' := by
  constructor
  · intro acc
    rw [Indexer.openOrCreate, Db.write_other db (by simp), h.numTx]
  · intro acc i
    rw [Indexer.openOrCreate, Db.write_other db (by simp), h.tx]

end

/-! ## In step with the cursor -/

/-- The blocks before the cursor are stored and executed, each once. -/
structure Synced (H : Host) (initial : V03State) (blocks : List Block) (p : Process) : Prop where
  indexed : ∃ t, Indexed H initial ((blocks.take p.position).map finalized) t p.store.db
  cursor : (p.store.db .zoneSdkIndexerCursor).getD 0 = p.position
  state : applyBlocks calculateErrors H (blocks.take p.position) initial = .ok p.store.currentState

section
variable {H : Host} {initial : V03State} {blocks : List Block} {p p' : Process}

theorem applyBlocks_finalized (E : ReplayErrors) (blocks : List Block) (s : V03State) :
    applyBlocks E H (blocks.map finalized) s = applyBlocks E H blocks s := by
  unfold applyBlocks
  rw [List.foldlM_map]
  rfl

theorem ValidChain.finalized (h : ValidChain H initial blocks) : ValidChain H initial (blocks.map finalized) := by
  obtain ⟨s, hs⟩ := h.replays
  refine ⟨?_, s, (applyBlocks_finalized _ _ _).trans hs⟩
  rw [List.map_map, List.length_map, ← h.ids]
  rfl

theorem ValidChain.take (h : ValidChain H initial blocks) (n : Nat) : ValidChain H initial (blocks.take n) := by
  rw [← List.take_append_drop n blocks] at h
  exact h.of_append

/-- The cursor is not part of the history. -/
theorem Indexed.setCursor {t : Hundreds} {db : Db} (h : Indexed H initial blocks t db) (slot : Slot) :
    Indexed H initial blocks t (db.write [⟨.zoneSdkIndexerCursor, .some slot⟩]) := by
  have hcell : ∀ cell : Cell, cell ≠ .zoneSdkIndexerCursor →
      db.write [⟨.zoneSdkIndexerCursor, .some slot⟩] cell = db cell := by
    intro cell hne
    exact Db.write_other db (by simpa using hne.symm)
  constructor
  · rw [hcell _ (by simp), h.last]
  · intro n hn
    rw [hcell _ (by simp), h.stored n hn]
  · intro k hk
    rw [hcell _ (by simp)]
    exact h.breakpoints k hk
  · intro k hk
    rw [hcell _ (by simp), h.none_after k hk]
  · rw [hcell _ (by simp), h.lastBreakpointId]
  · exact h.current_le
  · exact h.longest_le

theorem synced_start : Synced H initial blocks (.start initial) := by
  constructor
  · exact ⟨⟨0, 0⟩, indexed_open⟩
  · exact congrArg (Option.getD · 0) (Db.write_other _ (by simp))
  · rfl

theorem take_position_succ {block : Block} (hblock : blocks[p.position]? = .some block) :
    blocks.take (p.position + 1) = blocks.take p.position ++ [block] := by
  rw [List.take_add_one, hblock]
  rfl

/-- The next block of a valid chain is executed, stored, and the cursor set. -/
theorem Synced.deliver_eq (h : Synced H initial blocks p) (hvalid : ValidChain H initial blocks) {block : Block}
    (hblock : blocks[p.position]? = .some block) :
    ∃ s, applyBlocks calculateErrors H (blocks.take (p.position + 1)) initial = .ok s ∧
      p.deliver H block =
        ⟨⟨(putBlock H p.store.db .sound (Indexer.finalized block) placeholderL1Header).1.write
          [⟨.zoneSdkIndexerCursor, .some (p.position + 1)⟩], s⟩, p.position + 1⟩ := by
  obtain ⟨s, hs⟩ := (hvalid.take (p.position + 1)).replays
  refine ⟨s, hs, ?_⟩
  have happly : applyBlock calculateErrors H p.store.currentState block = .ok s := by
    rw [take_position_succ hblock, applyBlocks_append, h.state] at hs
    simpa [applyBlocks, bind_ok_iff, pure_ok_iff] using hs
  have hreplay : replayBlock storeErrors H block p.store.currentState = (s, .ok ()) :=
    applyBlock_ok_iff.mp (applyBlock_errors happly)
  simp only [Process.deliver, IndexerStore.putBlock, hreplay]

theorem Synced.deliver (h : Synced H initial blocks p) (hvalid : ValidChain H initial blocks) {block : Block}
    (hblock : blocks[p.position]? = .some block) : Synced H initial blocks (p.deliver H block) := by
  obtain ⟨t, hindexed⟩ := h.indexed
  obtain ⟨s, hs, hdeliver⟩ := h.deliver_eq hvalid hblock
  have hmap : (blocks.take (p.position + 1)).map Indexer.finalized =
      (blocks.take p.position).map Indexer.finalized ++ [Indexer.finalized block] := by
    rw [take_position_succ hblock, List.map_append, List.map_singleton]
  have hput := hindexed.put placeholderL1Header (hmap ▸ (hvalid.take (p.position + 1)).finalized)
  rw [hdeliver]
  refine ⟨?_, ?_, hs⟩
  · dsimp only
    rw [hmap]
    exact ⟨_, hput.2.setCursor _⟩
  · dsimp only
    rw [Db.write_singleton, Option.getD_some]

/-- A start on what a process in step left is where the process was. -/
theorem Synced.restart (h : Synced H initial blocks p) (hvalid : ValidChain H initial blocks)
    (hrestart : Process.restart H initial p.store.db = .some p') :
    Synced H initial blocks p' ∧ p'.position = p.position ∧ p'.store.db = openOrCreate p.store.db initial := by
  obtain ⟨t, hindexed⟩ := h.indexed
  simp only [Process.restart, IndexerStore.openDb, Option.map_eq_some_iff, toOption_eq_some, bind_ok_iff,
    pure_ok_iff] at hrestart
  obtain ⟨_, ⟨s, hfinal, rfl⟩, rfl⟩ := hrestart
  dsimp only
  rw [h.cursor]
  have hreopened := hindexed.reopen
  have hchain := (hvalid.take p.position).finalized
  refine ⟨⟨⟨_, hreopened⟩, ?_, ?_⟩, rfl, rfl⟩
  · dsimp only
    rw [openOrCreate, Db.write_other _ (by simp), h.cursor]
  · -- the state was answered, so its breakpoint is there, and it is right
    have hexact : applyBlocks calculateErrors H ((blocks.take p.position).map Indexer.finalized) initial = .ok s := by
      rw [finalState, hreopened.last] at hfinal
      rcases Nat.lt_or_ge (t.next .reopen).longest
        (closestBreakpointId ((blocks.take p.position).map Indexer.finalized).length) with hmissing | hthere
      · rw [hreopened.calculate_none (Nat.le_refl _) hmissing] at hfinal
        cases hfinal
      · rwa [hreopened.calculate (Nat.le_refl _) hthere, List.take_length] at hfinal
    rwa [applyBlocks_finalized] at hexact

theorem deliverOnce_synced (hvalid : ValidChain H initial blocks) : ∀ n, n ≤ blocks.length →
    Synced H initial blocks (deliverOnce H initial (blocks.take n)) ∧
      (deliverOnce H initial (blocks.take n)).position = n
  | 0, _ => ⟨synced_start, rfl⟩
  | n + 1, hn => by
    obtain ⟨hsynced, hposition⟩ := deliverOnce_synced hvalid n (by omega)
    have hblock : blocks[(deliverOnce H initial (blocks.take n)).position]? = .some blocks[n] := by
      rw [hposition, List.getElem?_eq_getElem]
    have hnext : deliverOnce H initial (blocks.take (n + 1)) =
        (deliverOnce H initial (blocks.take n)).deliver H blocks[n] := by
      rw [List.take_add_one, List.getElem?_eq_getElem (by omega)]
      exact List.foldl_append
    rw [hnext]
    exact ⟨hsynced.deliver hvalid hblock, congrArg (· + 1) hposition⟩

/-! ## Runs -/

/-- The lists of one delivery after another, as far as the cursor. -/
def Listed (H : Host) (initial : V03State) (blocks : List Block) (p : Process) : Prop :=
  p.position ≤ blocks.length ∧ SameLists p.store.db (deliverOnce H initial (blocks.take p.position)).store.db

theorem Listed.deliver (h : Listed H initial blocks p) (hsynced : Synced H initial blocks p)
    (hvalid : ValidChain H initial blocks) {block : Block} (hblock : blocks[p.position]? = .some block) :
    Listed H initial blocks (p.deliver H block) := by
  obtain ⟨hle, hlists⟩ := h
  obtain ⟨hlt, -⟩ := List.getElem?_eq_some_iff.mp hblock
  obtain ⟨honce, hposition⟩ := deliverOnce_synced hvalid p.position hle
  obtain ⟨s, -, hdeliver⟩ := hsynced.deliver_eq hvalid hblock
  obtain ⟨s', -, hdeliver'⟩ := honce.deliver_eq hvalid (hposition.symm ▸ hblock)
  have hnext : deliverOnce H initial (blocks.take (p.position + 1)) =
      (deliverOnce H initial (blocks.take p.position)).deliver H block := by
    rw [take_position_succ hblock]
    exact List.foldl_append
  rw [hdeliver]
  refine ⟨hlt, ?_⟩
  dsimp only
  rw [hnext, hdeliver']
  exact (hlists.putBlock _ _).cursor _ _

theorem Listed.restart (h : Listed H initial blocks p) (hposition : p'.position = p.position)
    (hdb : p'.store.db = openOrCreate p.store.db initial) : Listed H initial blocks p' := by
  unfold Listed
  rw [hposition, hdb]
  exact ⟨h.1, h.2.openOrCreate initial⟩

/-- Stops that fall before the block is written. -/
theorem runs_synced (hvalid : ValidChain H initial blocks)
    (hrun : Runs H initial blocks (fun disk => disk.batch = false) p) :
    Synced H initial blocks p ∧ Listed H initial blocks p := by
  induction hrun with
  | refl => exact ⟨synced_start, Nat.zero_le _, fun _ => rfl, fun _ _ => rfl⟩
  | tail _ hstep ih =>
    obtain ⟨hsynced, hlisted⟩ := ih
    cases hstep with
    | deliver hblock _ => exact ⟨hsynced.deliver hvalid hblock, hlisted.deliver hsynced hvalid hblock⟩
    | stop hrestart =>
      obtain ⟨hsynced', hposition, hdb⟩ := hsynced.restart hvalid hrestart
      exact ⟨hsynced', hlisted.restart hposition hdb⟩
    | stopStoring disk hblock hstop hrestart =>
      rw [IndexerStore.putBlock_unwritten hstop] at hrestart
      obtain ⟨hsynced', hposition, hdb⟩ := hsynced.restart hvalid hrestart
      exact ⟨hsynced', hlisted.restart hposition hdb⟩

end

namespace Sample

/-- A chain of one block, with nothing but the clock. -/
def genesisOnly : List Block := [emptyBlock 1]

theorem genesisOnly_valid : ValidChain (nodeHost {}) (nodeLedger [] []) genesisOnly where
  ids := rfl
  replays := isOk_iff.mp (by decide +kernel)

/-- A chain of two such blocks. -/
def twoBlocks : List Block := [emptyBlock 1, emptyBlock 2]

theorem twoBlocks_valid : ValidChain (nodeHost {}) (nodeLedger [] []) twoBlocks where
  ids := rfl
  replays := isOk_iff.mp (by decide +kernel)

/-- A process started on this database. -/
def startedOn (db : Db) : Process := (Process.restart (nodeHost {}) (nodeLedger [] []) db).getD (.start (nodeLedger [] []))

theorem startedOn_eq {db : Db} (h : (Process.restart (nodeHost {}) (nodeLedger [] []) db).isSome = true) :
    Process.restart (nodeHost {}) (nodeLedger [] []) db = .some (startedOn db) := by
  obtain ⟨p, hp⟩ := Option.isSome_iff_exists.mp h
  simp [startedOn, hp]

/-- A process that was given the first block. -/
def firstDelivered : Process := (Process.start (nodeLedger [] [])).deliver (nodeHost {}) (emptyBlock 1)

/-- The batch of the block does not reach the disk. -/
def unwritten : Disk := { Disk.sound with batch := false }

/-- A process that stopped after the second block was executed and before it was stored. -/
def unwrittenStop : Process :=
  startedOn (firstDelivered.store.putBlock (nodeHost {}) unwritten (emptyBlock 2) placeholderL1Header).1.db

/-- A process that stopped after the block was stored and before the cursor was. -/
def storedStop : Process :=
  startedOn ((Process.start (nodeLedger [] [])).store.putBlock (nodeHost {}) .sound (emptyBlock 1)
    placeholderL1Header).1.db

/-- The process is given the block after the cursor. -/
theorem deliver_next {blocks : List Block} {stops : Disk → Prop} {p : Process} (i : Nat)
    (hrun : Runs (nodeHost {}) (nodeLedger [] []) blocks stops p) (hposition : p.position = i)
    (hblock : blocks[i]? = .some (emptyBlock (i + 1)))
    (hput : (p.store.putBlock (nodeHost {}) .sound (emptyBlock (i + 1)) placeholderL1Header).2.isOk = true) :
    Runs (nodeHost {}) (nodeLedger [] []) blocks stops (p.deliver (nodeHost {}) (emptyBlock (i + 1))) := by
  refine hrun.tail (.deliver (hposition ▸ hblock) ?_)
  intro text h
  rw [h] at hput
  cases hput

end Sample

end Lez.Indexer
