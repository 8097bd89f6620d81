/-
The states the indexer can answer for. A breakpoint is filed under the number
after the last one filed, and opening the database starts that number over.
So the breakpoints there are reach as far as the longest session had hundreds
of blocks (`Hundreds`), each of them is right, and the state at a block can
be rebuilt exactly when its breakpoint is among them.
-/
import Lez.Indexer.Storage
import Lez.Programs.Bridge

namespace Lez.Indexer

open Store
open Reference (block nodeHost nodeLedger)

/-! ## Chains -/

section
variable {E : ReplayErrors} {H : Host} {s s' : V03State} {blocks blocks' : List Block}

theorem applyBlocks_append :
    applyBlocks E H (blocks ++ blocks') s = applyBlocks E H blocks s >>= applyBlocks E H blocks' := by
  unfold applyBlocks
  rw [List.foldlM_append]

/-- The first blocks of a chain that replays. -/
theorem applyBlocks_take (h : applyBlocks E H blocks s = .ok s') (n : Nat) :
    ∃ u, applyBlocks E H (blocks.take n) s = .ok u ∧ applyBlocks E H (blocks.drop n) u = .ok s' := by
  rw [← List.take_append_drop n blocks, applyBlocks_append, bind_ok_iff] at h
  exact h

end

/-- Blocks numbered from one that replay on the initial state. -/
structure ValidChain (H : Host) (initial : V03State) (blocks : List Block) : Prop where
  ids : blocks.map (·.header.blockId.toNat) = List.range' 1 blocks.length
  replays : ∃ s, applyBlocks calculateErrors H blocks initial = .ok s

section
variable {H : Host} {initial : V03State} {blocks blocks' : List Block} {block : Block}

theorem ValidChain.of_append (h : ValidChain H initial (blocks ++ blocks')) : ValidChain H initial blocks := by
  obtain ⟨s, hs⟩ := h.replays
  rw [applyBlocks_append, bind_ok_iff] at hs
  obtain ⟨u, hu, -⟩ := hs
  refine ⟨?_, u, hu⟩
  have hids := congrArg (List.take blocks.length) h.ids
  rwa [List.map_append, List.take_left' (by simp), List.length_append, ← List.range'_append_1,
    List.take_left' (by simp)] at hids

theorem ValidChain.id (h : ValidChain H initial (blocks ++ [block])) :
    block.header.blockId.toNat = blocks.length + 1 := by
  have hids := congrArg (·[blocks.length]?) h.ids
  simp only [List.map_append, List.map_cons, List.map_nil, List.length_append, List.length_cons, List.length_nil] at hids
  rw [List.getElem?_append_right (by simp), List.getElem?_range' (by omega)] at hids
  simp only [List.length_map, Nat.sub_self, List.getElem?_cons_zero, Option.some.injEq] at hids
  omega

end

/-! ## Sessions -/

inductive Action
  | reopen
  | put (block : Block) (l1LibHeader : Bytes32)

def Action.block? : Action → Option Block
  | reopen => .none
  | put block _ => .some block

def blocksOf (actions : List Action) : List Block := actions.filterMap Action.block?

def perform (H : Host) (initial : V03State) (db : Db) : Action → Db
  | .reopen => openOrCreate db initial
  | .put block l1LibHeader => (putBlock H db .sound block l1LibHeader).1

/-- The database after a first opening and these actions. -/
def performAll (H : Host) (initial : V03State) (actions : List Action) : Db :=
  actions.foldl (perform H initial) (openOrCreate (fun _ => .none) initial)

/-- Blocks with a number divisible by a hundred put in the session under way, and in the session that
put most. -/
structure Hundreds where
  current : Nat
  longest : Nat

def Hundreds.next (t : Hundreds) : Action → Hundreds
  | .reopen => ⟨0, t.longest⟩
  | .put block _ =>
    if block.header.blockId.toNat % breakpointInterval = 0 then ⟨t.current + 1, max t.longest (t.current + 1)⟩ else t

def hundreds (actions : List Action) : Hundreds := actions.foldl Hundreds.next ⟨0, 0⟩

/-- Every stored block's state, and the last one's, are those of the blocks one by one. -/
structure HistoryExact (H : Host) (initial : V03State) (blocks : List Block) (db : Db) : Prop where
  states : ∀ n, 1 ≤ n → n ≤ blocks.length → ∃ s, calculateStateForId H db n = .ok s ∧
    applyBlocks calculateErrors H (blocks.take n) initial = .ok s
  final : ∃ s, finalState H db = .ok s ∧ applyBlocks calculateErrors H blocks initial = .ok s

/-! ## The breakpoints there are -/

/-- The chain is stored, and the breakpoints reach as far as the longest session. -/
structure Indexed (H : Host) (initial : V03State) (blocks : List Block) (t : Hundreds) (db : Db) : Prop where
  last : (db .lastBlock).getD 0 = blocks.length
  stored : ∀ n, n < blocks.length → db (.block (n + 1)) = blocks[n]?
  breakpoints : ∀ k, k ≤ t.longest → ∃ s, db (.breakpoint k) = .some s ∧
    applyBlocks calculateErrors H (blocks.take (breakpointInterval * k)) initial = .ok s
  none_after : ∀ k, t.longest < k → db (.breakpoint k) = .none
  lastBreakpointId : (db .lastBreakpointId).getD 0 = t.current
  current_le : t.current ≤ t.longest
  longest_le : breakpointInterval * t.longest ≤ blocks.length

section
variable {H : Host} {initial : V03State} {blocks : List Block} {t : Hundreds} {db : Db}

theorem Indexed.getBlockBatchSeq (h : Indexed H initial blocks t db) : ∀ (c a : Nat), a + c ≤ blocks.length →
    getBlockBatchSeq db (List.range' (a + 1) c) = (blocks.drop a).take c
  | 0, a, _ => by simp [Indexer.getBlockBatchSeq]
  | c + 1, a, hle => by
    have hlt : a < blocks.length := by omega
    have ha := h.stored a hlt
    rw [List.getElem?_eq_getElem hlt] at ha
    rw [List.range'_succ, Indexer.getBlockBatchSeq, ha]
    dsimp only
    rw [h.getBlockBatchSeq c (a + 1) (by omega), List.drop_eq_getElem_cons hlt, List.take_succ_cons]

/-- A block whose breakpoint is there. -/
theorem Indexed.calculate (h : Indexed H initial blocks t db) {n : Nat} (hn : n ≤ blocks.length)
    (hbreakpoint : closestBreakpointId n ≤ t.longest) :
    calculateStateForId H db n = applyBlocks calculateErrors H (blocks.take n) initial := by
  obtain ⟨s, hs, hreplay⟩ := h.breakpoints _ hbreakpoint
  have hstart : breakpointInterval * closestBreakpointId n ≤ n := by
    unfold closestBreakpointId breakpointInterval
    omega
  have hseq := h.getBlockBatchSeq (n - breakpointInterval * closestBreakpointId n)
    (breakpointInterval * closestBreakpointId n) (by omega)
  have hsplit : blocks.take n = blocks.take (breakpointInterval * closestBreakpointId n) ++
      (blocks.drop (breakpointInterval * closestBreakpointId n)).take
        (n - breakpointInterval * closestBreakpointId n) := by
    rw [← List.take_add, Nat.add_sub_cancel' hstart]
  unfold calculateStateForId
  dsimp only
  rw [hseq, hs, hsplit, applyBlocks_append, hreplay, h.last]
  simp [ensure, hn, expect, bind, Except.bind]

/-- A block whose breakpoint is not there. -/
theorem Indexed.calculate_none (h : Indexed H initial blocks t db) {n : Nat} (hn : n ≤ blocks.length)
    (hbreakpoint : t.longest < closestBreakpointId n) :
    calculateStateForId H db n = .error (.error (.db (.dbInteractionError "\"breakpoint\" not found"))) := by
  unfold calculateStateForId
  dsimp only
  rw [h.none_after _ hbreakpoint, h.last]
  simp [ensure, hn, expect, bind, Except.bind]

/-- **What the indexer answers for**: everything when the breakpoint of the last block is there. -/
theorem Indexed.historyExact_iff (h : Indexed H initial blocks t db) (hvalid : ValidChain H initial blocks) :
    HistoryExact H initial blocks db ↔ closestBreakpointId blocks.length ≤ t.longest := by
  obtain ⟨s, hs⟩ := hvalid.replays
  have hfinal : finalState H db = calculateStateForId H db blocks.length := by rw [finalState, h.last]
  constructor
  · intro hexact
    by_contra hmissing
    obtain ⟨u, hu, -⟩ := hexact.final
    rw [hfinal, h.calculate_none (Nat.le_refl _) (by omega)] at hu
    cases hu
  · intro hlongest
    constructor
    · intro n _ hn
      obtain ⟨u, hu, -⟩ := applyBlocks_take hs n
      refine ⟨u, ?_, hu⟩
      rw [h.calculate hn, hu]
      refine Nat.le_trans ?_ hlongest
      unfold closestBreakpointId
      exact Nat.div_le_div_right (by omega)
    · refine ⟨s, ?_, hs⟩
      rw [hfinal, h.calculate (Nat.le_refl _) hlongest, List.take_length, hs]

/-! ## Steps -/

theorem Indexed.reopen (h : Indexed H initial blocks t db) :
    Indexed H initial blocks (t.next .reopen) (openOrCreate db initial) := by
  have hcell : ∀ cell : Cell, cell ≠ .breakpoint 0 → cell ≠ .lastBreakpointId →
      openOrCreate db initial cell = db cell := by
    intro cell hne hne'
    exact Db.write_other db (by simp [hne.symm, hne'.symm])
  have hzero : openOrCreate db initial (.breakpoint 0) = .some initial := Db.write_of_mem db (by simp) (by simp)
  have hlast : openOrCreate db initial .lastBreakpointId = .some 0 := Db.write_of_mem db (by simp) (by simp)
  constructor
  · rw [hcell _ (by simp) (by simp), h.last]
  · intro n hn
    rw [hcell _ (by simp) (by simp), h.stored n hn]
  · intro k hk
    by_cases hk0 : k = 0
    · subst hk0
      exact ⟨initial, hzero, by simp [applyBlocks, pure, Except.pure]⟩
    · rw [hcell _ (by simpa using hk0) (by simp)]
      exact h.breakpoints k hk
  · intro k hk
    have hk' : t.longest < k := hk
    rw [hcell _ (by simp; omega) (by simp), h.none_after k hk']
  · rw [hlast]
    rfl
  · exact Nat.zero_le _
  · exact h.longest_le

/-- The cells of a block's batch that matter for histories. -/
theorem blockBatch_cells (H : Host) (db : Db) (block : Block) (l1LibHeader : Bytes32) :
    (∀ n v, ⟨.block n, v⟩ ∈ blockBatch H db block l1LibHeader ↔ n = block.header.blockId.toNat ∧ v = .some block) ∧
    (∀ v, ⟨.lastBlock, v⟩ ∈ blockBatch H db block l1LibHeader ↔
      block.header.blockId.toNat > (db .lastBlock).getD 0 ∧ v = .some block.header.blockId.toNat) ∧
    (∀ k v, ⟨.breakpoint k, v⟩ ∉ blockBatch H db block l1LibHeader) ∧
    ∀ v, ⟨.lastBreakpointId, v⟩ ∉ blockBatch H db block l1LibHeader := by
  have hacc : ∀ w ∈ (affectedAccounts H block.body.transactions).flatMap fun acc =>
      putAccountTransactionsDependant db acc (accTxHashes H block.body.transactions acc),
      (∃ acc, w.1 = .accNumTx acc) ∨ ∃ acc i, w.1 = .accTx acc i := by
    intro w hw
    obtain ⟨acc, -, hw⟩ := List.mem_flatMap.mp hw
    unfold putAccountTransactionsDependant at hw
    simp only [List.mem_append, List.mem_mapIdx, List.mem_singleton] at hw
    rcases hw with ⟨i, hi, rfl⟩ | rfl
    · exact .inr ⟨acc, _, rfl⟩
    · exact .inl ⟨acc, rfl⟩
  unfold blockBatch
  refine ⟨?_, ?_, ?_, ?_⟩ <;> grind

/-- The chain with the next block, before its breakpoint. -/
theorem Indexed.write (h : Indexed H initial blocks t db) {block : Block} (l1LibHeader : Bytes32)
    (hvalid : ValidChain H initial (blocks ++ [block])) :
    Indexed H initial (blocks ++ [block]) t (db.write (blockBatch H db block l1LibHeader)) := by
  have hid := hvalid.id
  have hlongest := h.longest_le
  obtain ⟨hblock, hlastBlock, hbreakpoint, hbreakpointId⟩ := blockBatch_cells H db block l1LibHeader
  have hsame : ∀ k, db.write (blockBatch H db block l1LibHeader) (.breakpoint k) = db (.breakpoint k) :=
    fun k => Db.write_unnamed db (hbreakpoint k)
  constructor
  · have hput : db.write (blockBatch H db block l1LibHeader) .lastBlock = .some block.header.blockId.toNat :=
      Db.write_of_mem db ((hlastBlock _).mpr ⟨by rw [h.last, hid]; exact Nat.lt_succ_self _, rfl⟩)
        fun v hv => ((hlastBlock v).mp hv).2
    rw [hput, List.length_append, Option.getD_some, hid]
    rfl
  · intro n hn
    by_cases hnew : n = blocks.length
    · subst hnew
      have hput : db.write (blockBatch H db block l1LibHeader) (.block (blocks.length + 1)) = .some block :=
        Db.write_of_mem db ((hblock _ _).mpr ⟨by omega, rfl⟩) fun v hv => ((hblock _ v).mp hv).2
      rw [hput, List.getElem?_concat_length]
    · have hold : n < blocks.length := by
        rw [List.length_append] at hn
        simp at hn
        omega
      have hput : db.write (blockBatch H db block l1LibHeader) (.block (n + 1)) = db (.block (n + 1)) :=
        Db.write_unnamed db fun v hv => by have := ((hblock _ v).mp hv).1; omega
      rw [hput, h.stored n hold, List.getElem?_append_left hold]
  · intro k hk
    have hle : breakpointInterval * k ≤ blocks.length := Nat.le_trans (Nat.mul_le_mul_left _ hk) hlongest
    rw [hsame, List.take_append_of_le_length hle]
    exact h.breakpoints k hk
  · intro k hk
    rw [hsame, h.none_after k hk]
  · rw [Db.write_unnamed db hbreakpointId, h.lastBreakpointId]
  · exact h.current_le
  · rw [List.length_append]
    omega

/-- The next breakpoint and its number. -/
theorem Indexed.withBreakpoint (h : Indexed H initial blocks t db) {u : V03State}
    (hle : breakpointInterval * (t.current + 1) ≤ blocks.length)
    (hu : applyBlocks calculateErrors H (blocks.take (breakpointInterval * (t.current + 1))) initial = .ok u) :
    Indexed H initial blocks ⟨t.current + 1, max t.longest (t.current + 1)⟩
      ((db.write [⟨.breakpoint (t.current + 1), .some u⟩]).write [⟨.lastBreakpointId, .some (t.current + 1)⟩]) := by
  have hcurrent := h.current_le
  have hcell : ∀ cell : Cell, cell ≠ .breakpoint (t.current + 1) → cell ≠ .lastBreakpointId →
      (db.write [⟨.breakpoint (t.current + 1), .some u⟩]).write [⟨.lastBreakpointId, .some (t.current + 1)⟩] cell =
        db cell := by
    intro cell hne hne'
    rw [Db.write_other _ (by simp [hne'.symm]), Db.write_other _ (by simp [hne.symm])]
  have hnew : (db.write [⟨.breakpoint (t.current + 1), .some u⟩]).write
      [⟨.lastBreakpointId, .some (t.current + 1)⟩] (.breakpoint (t.current + 1)) = .some u := by
    rw [Db.write_other _ (by simp), Db.write_singleton]
  constructor
  · rw [hcell _ (by simp) (by simp), h.last]
  · intro n hn
    rw [hcell _ (by simp) (by simp), h.stored n hn]
  · intro k hk
    by_cases hk' : k = t.current + 1
    · subst hk'
      exact ⟨u, hnew, hu⟩
    · rw [hcell _ (by simpa using hk') (by simp)]
      dsimp only at hk
      exact h.breakpoints k (by omega)
  · intro k hk
    dsimp only at hk
    rw [hcell _ (by simp; omega) (by simp), h.none_after k (by omega)]
  · rw [Db.write_singleton, Option.getD_some]
  · dsimp only
    omega
  · dsimp only
    rcases Nat.le_total t.longest (t.current + 1) with hmax | hmax
    · rwa [Nat.max_eq_right hmax]
    · rw [Nat.max_eq_left hmax]
      exact h.longest_le

/-- The next breakpoint is there for the taking when its block is. -/
theorem Indexed.putNextBreakpoint (h : Indexed H initial blocks t db) (hvalid : ValidChain H initial blocks)
    (hle : breakpointInterval * (t.current + 1) ≤ blocks.length) :
    (putNextBreakpoint H db .sound).2 = .ok () ∧
      Indexed H initial blocks ⟨t.current + 1, max t.longest (t.current + 1)⟩ (putNextBreakpoint H db .sound).1 := by
  obtain ⟨s, hs⟩ := hvalid.replays
  obtain ⟨u, hu, -⟩ := applyBlocks_take hs (breakpointInterval * (t.current + 1))
  have hcurrent := h.current_le
  have hclosest : closestBreakpointId (breakpointInterval * (t.current + 1)) = t.current := by
    unfold closestBreakpointId breakpointInterval
    omega
  have hcalculate := h.calculate hle (by omega)
  have hrun : Indexer.putNextBreakpoint H db .sound =
      ((db.write [⟨.breakpoint (t.current + 1), .some u⟩]).write [⟨.lastBreakpointId, .some (t.current + 1)⟩], .ok ()) := by
    unfold Indexer.putNextBreakpoint
    dsimp only
    rw [h.last, h.lastBreakpointId, Nat.mul_comm, if_pos hle, hcalculate, hu]
    rfl
  rw [hrun]
  exact ⟨rfl, h.withBreakpoint hle hu⟩

/-- **Every block of a valid chain is taken.** -/
theorem Indexed.put (h : Indexed H initial blocks t db) {block : Block} (l1LibHeader : Bytes32)
    (hvalid : ValidChain H initial (blocks ++ [block])) :
    (putBlock H db .sound block l1LibHeader).2 = .ok () ∧
      Indexed H initial (blocks ++ [block]) (t.next (.put block l1LibHeader))
        (putBlock H db .sound block l1LibHeader).1 := by
  have hwritten := h.write l1LibHeader hvalid
  have hid := hvalid.id
  have hcurrent := h.current_le
  have hlongest := h.longest_le
  unfold putBlock Hundreds.next
  simp only [Disk.sound, ↓reduceIte]
  split
  next hmultiple =>
    refine hwritten.putNextBreakpoint hvalid ?_
    rw [List.length_append, List.length_singleton]
    unfold breakpointInterval at *
    omega
  next => exact ⟨rfl, hwritten⟩

end

/-! ## Whole histories -/

section
variable {H : Host} {initial : V03State}

theorem indexed_open : Indexed H initial [] ⟨0, 0⟩ (openOrCreate (fun _ => .none) initial) := by
  have hempty : ∀ k, 0 < k → openOrCreate (fun _ => .none) initial (.breakpoint k) = .none := by
    intro k hk
    exact Db.write_other _ (by simp; omega)
  have hzero : openOrCreate (fun _ => .none) initial (.breakpoint 0) = .some initial :=
    Db.write_of_mem _ (by simp) (by simp)
  have hlast : openOrCreate (fun _ => .none) initial .lastBreakpointId = .some 0 :=
    Db.write_of_mem _ (by simp) (by simp)
  refine ⟨rfl, by simp, ?_, hempty, by rw [hlast]; rfl, Nat.le_refl _, by simp⟩
  intro k hk
  obtain rfl : k = 0 := Nat.le_zero.mp hk
  exact ⟨initial, hzero, rfl⟩

theorem indexed_foldl : ∀ {actions : List Action} {blocks : List Block} {t : Hundreds} {db : Db},
    Indexed H initial blocks t db → ValidChain H initial (blocks ++ blocksOf actions) →
      Indexed H initial (blocks ++ blocksOf actions) (actions.foldl Hundreds.next t)
        (actions.foldl (perform H initial) db)
  | [], blocks, t, db, h, _ => by simpa [blocksOf] using h
  | .reopen :: actions, blocks, t, db, h, hvalid => by
    have hsame : blocksOf (.reopen :: actions) = blocksOf actions := rfl
    rw [hsame] at hvalid ⊢
    exact indexed_foldl h.reopen hvalid
  | .put block l1LibHeader :: actions, blocks, t, db, h, hvalid => by
    have hsplit : blocks ++ blocksOf (.put block l1LibHeader :: actions) = (blocks ++ [block]) ++ blocksOf actions := by
      simp [blocksOf, Action.block?]
    rw [hsplit] at hvalid ⊢
    exact indexed_foldl (h.put l1LibHeader hvalid.of_append).2 hvalid

theorem indexed_performAll {actions : List Action} (hvalid : ValidChain H initial (blocksOf actions)) :
    Indexed H initial (blocksOf actions) (hundreds actions) (performAll H initial actions) :=
  indexed_foldl indexed_open hvalid

end

/-- **The history is exact** after sessions of one valid chain exactly when some session put as many hundreds as
lie before the last block. -/
theorem history_exact_iff {H : Host} {initial : V03State} {actions : List Action}
    (hvalid : ValidChain H initial (blocksOf actions)) :
    HistoryExact H initial (blocksOf actions) (performAll H initial actions) ↔
      ((blocksOf actions).length - 1) / 100 ≤ (hundreds actions).longest :=
  (indexed_performAll hvalid).historyExact_iff hvalid

namespace Sample

/-- A block with nothing but the clock. -/
def emptyBlock (n : Nat) : Block :=
  block (UInt64.ofNat n) 0 [LeeTransaction.clockInvocation (nodeHost {}) 0]

/-- `count` empty blocks after the first `start`. -/
def emptyBlocks (start count : Nat) : List Action :=
  (List.range' (start + 1) count).map fun n => .put (emptyBlock n) (ByteVec.fill 32 0)

/-- A restart after a hundred blocks, and a hundred and one more. -/
def restarted : List Action := emptyBlocks 0 100 ++ [.reopen] ++ emptyBlocks 100 101

theorem restarted_replays :
    (applyBlocks calculateErrors (nodeHost {}) (blocksOf restarted) (nodeLedger [] [])).isOk = true := by
  decide +kernel

theorem restarted_valid : ValidChain (nodeHost {}) (nodeLedger [] []) (blocksOf restarted) where
  ids := by decide +kernel
  replays := isOk_iff.mp restarted_replays

/-- A restart between two blocks. -/
def resumed : List Action := emptyBlocks 0 1 ++ [.reopen] ++ emptyBlocks 1 1

theorem resumed_valid : ValidChain (nodeHost {}) (nodeLedger [] []) (blocksOf resumed) where
  ids := by decide +kernel
  replays := isOk_iff.mp (by decide +kernel)

end Sample

open Indexer.Sample in
/-- Two blocks and a restart between them. -/
theorem resumed_history_exact : ValidChain (nodeHost {}) (nodeLedger [] []) (blocksOf resumed) ∧
    HistoryExact (nodeHost {}) (nodeLedger [] []) (blocksOf resumed) (performAll (nodeHost {}) (nodeLedger [] []) resumed) :=
  ⟨resumed_valid, (history_exact_iff resumed_valid).mpr (by decide)⟩

open Indexer.Sample in
/-- The second session starts the breakpoints over, and block 201 has none. -/
theorem restart_loses_breakpoint : ValidChain (nodeHost {}) (nodeLedger [] []) (blocksOf restarted) ∧
    (∃ fault, calculateStateForId (nodeHost {}) (performAll (nodeHost {}) (nodeLedger [] []) restarted) 201 =
      .error fault) ∧
    ¬HistoryExact (nodeHost {}) (nodeLedger [] []) (blocksOf restarted)
      (performAll (nodeHost {}) (nodeLedger [] []) restarted) := by
  have hindexed := indexed_performAll restarted_valid
  have hmissing : (hundreds restarted).longest < closestBreakpointId 201 := by decide +kernel
  have hlength : (blocksOf restarted).length = 201 := by decide +kernel
  refine ⟨restarted_valid, ⟨_, hindexed.calculate_none hlength.ge hmissing⟩, ?_⟩
  rw [hindexed.historyExact_iff restarted_valid, hlength]
  exact Nat.not_le.mpr hmissing

end Lez.Indexer
