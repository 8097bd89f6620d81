/-
`IndexerStore`: the database and the live state beside it. A block is
executed on the live state transaction by transaction and then written to the
database; nothing is taken back when a later transaction, or the database,
refuses.

So a call that returns an error leaves everything as it was when the block is
caught in time: nothing in front of the transaction that the ledger refuses
changes it. Only public transactions without signatures can be in front of it
then, for everything else a transaction does is for good.
-/
import Lez.Indexer.History
import Lez.Node.SameLedger

namespace Lez.Indexer

open Store
open Reference (block nodeHost nodeLedger)

structure IndexerStore where
  db : Db
  currentState : V03State

/-- The errors of `IndexerStore::put_block`. -/
def storeErrors : ReplayErrors where
  noTransactions := .other "Block has no transactions"
  wrongClock := .other "Last transaction in block must be the clock invocation for the block timestamp"
  genesisKind := .other "Genesis block should contain only public transactions"
  genesis := .leeIn "Failed to execute genesis public transaction"
  malformed := .malformed
  execution := .lee
  clock := .lee

/-- The block as it is stored. -/
def finalized (block : Block) : Block := { block with bedrockStatus := .finalized }

namespace IndexerStore

def openDb (H : Host) (initial : V03State) (db : Db) : Except Fault IndexerStore := do
  let opened := openOrCreate db initial
  let currentState ← finalState H opened
  pure ⟨opened, currentState⟩

/-- `put_block`: the store it leaves and its answer. -/
def putBlock (H : Host) (store : IndexerStore) (disk : Disk) (block : Block) (l1Header : Bytes32) :
    IndexerStore × Except Fault Unit :=
  match replayBlock storeErrors H block store.currentState with
  | (s, .error fault) => (⟨store.db, s⟩, .error fault)
  | (s, .ok ()) =>
    let stored := Indexer.putBlock H store.db disk (finalized block) l1Header
    (⟨stored.1, s⟩, stored.2)

/-- Same live state, same blocks. -/
structure Unchanged (store store' : IndexerStore) : Prop where
  state : store'.currentState.Same store.currentState
  blocks : ∀ n, store'.db (.block n) = store.db (.block n)

end IndexerStore

/-! ## The transactions that are executed -/

/-- The last transaction is the clock's. -/
def ClockLast (H : Host) (block : Block) : Prop :=
  block.body.transactions.getLast? = .some (LeeTransaction.clockInvocation H block.header.timestamp)

/-- The transactions before the first that is refused, and the ledger after them. -/
def leading (H : Host) (header : BlockHeader) : List LeeTransaction → V03State → List LeeTransaction × V03State
  | [], s => ([], s)
  | tx :: txs, s =>
    match replayTransaction storeErrors H header tx s with
    | .ok s' => (tx :: (leading H header txs s').1, (leading H header txs s').2)
    | .error _ => ([], s)

section
variable (H : Host) (header : BlockHeader)

theorem replayTransactions_eq_leading : ∀ (txs : List LeeTransaction) (s : V03State),
    (replayTransactions storeErrors H header txs s).1 = (leading H header txs s).2 ∧
      ((replayTransactions storeErrors H header txs s).2 = .ok () ↔ (leading H header txs s).1 = txs)
  | [], s => by simp [replayTransactions, leading]
  | tx :: txs, s => by
    cases htx : replayTransaction storeErrors H header tx s with
    | error fault => simp [replayTransactions, leading, htx]
    | ok s' =>
      have ih := replayTransactions_eq_leading txs s'
      simpa [replayTransactions, leading, htx] using ih

theorem leading_length_le : ∀ (txs : List LeeTransaction) (s : V03State),
    (leading H header txs s).1.length ≤ txs.length
  | [], s => Nat.le_refl 0
  | tx :: txs, s => by
    unfold leading
    split
    next s' _ => exact Nat.succ_le_succ (leading_length_le txs s')
    next => exact Nat.zero_le _

/-- One more transaction is executed after all the others, if at all. -/
theorem leading_concat {tx : LeeTransaction} : ∀ (txs : List LeeTransaction) (s : V03State),
    leading H header (txs ++ [tx]) s =
      if (leading H header txs s).1 = txs then
        match replayTransaction storeErrors H header tx (leading H header txs s).2 with
        | .ok s' => (txs ++ [tx], s')
        | .error _ => (txs, (leading H header txs s).2)
      else leading H header txs s
  | [], s => by
    simp only [List.nil_append, leading, ↓reduceIte]
  | tx' :: txs, s => by
    rw [List.cons_append, leading, leading]
    cases htx : replayTransaction storeErrors H header tx' s with
    | error fault => simp
    | ok s' =>
      simp only [leading_concat txs s', List.cons.injEq, true_and]
      by_cases hall : (leading H header txs s').1 = txs
      · simp only [hall, ↓reduceIte]
        split <;> rfl
      · simp only [hall, ↓reduceIte]

/-- The clock's transaction would pass the checks the others go through. -/
theorem replayTransaction_clock (s : V03State) :
    (replayTransaction storeErrors H header (LeeTransaction.clockInvocation H header.timestamp) s).toOption =
      (s.execute H storeErrors.clock (LeeTransaction.clockInvocation H header.timestamp) header.blockId
        header.timestamp).toOption := by
  have hcheck : (LeeTransaction.clockInvocation H header.timestamp).transactionStatelessCheck H =
      .ok (LeeTransaction.clockInvocation H header.timestamp) :=
    LeeTransaction.transactionStatelessCheck_ok_iff.mpr ⟨LeeTransaction.clockInvocation_signaturesValid, rfl⟩
  ext s'
  rw [toOption_eq_some, toOption_eq_some, V03State.execute_ok_iff]
  unfold replayTransaction
  split
  · unfold LeeTransaction.clockInvocation
    exact V03State.execute_ok_iff
  · simp only [hcheck, bind_ok_iff, mapError_ok_iff, Except.ok.injEq, exists_eq_left', V03State.execute_ok_iff]

end

/-- **A block ending in its clock is executed up to the first transaction that is refused.** -/
theorem replayBlock_of_clockLast {H : Host} {block : Block} (h : ClockLast H block) (s : V03State) :
    (replayBlock storeErrors H block s).1 = (leading H block.header block.body.transactions s).2 ∧
      ((replayBlock storeErrors H block s).2 = .ok () ↔
        (leading H block.header block.body.transactions s).1 = block.body.transactions) := by
  obtain ⟨txs, htxs⟩ := List.getLast?_eq_some_iff.mp h
  obtain ⟨hstate, hok⟩ := replayTransactions_eq_leading H block.header txs s
  have hclock := replayTransaction_clock H block.header (leading H block.header txs s).2
  have hlength := leading_length_le H block.header txs s
  unfold replayBlock
  rw [h, htxs, List.dropLast_concat, leading_concat]
  simp only [↓reduceIte]
  by_cases hall : (leading H block.header txs s).1 = txs
  · have hloop : replayTransactions storeErrors H block.header txs s = ((leading H block.header txs s).2, .ok ()) :=
      Prod.ext hstate (hok.mpr hall)
    simp only [hloop, hall, ↓reduceIte]
    cases hexecute : (leading H block.header txs s).2.execute H storeErrors.clock
        (LeeTransaction.clockInvocation H block.header.timestamp) block.header.blockId block.header.timestamp with
    | ok s' =>
      rw [hexecute] at hclock
      simp [toOption_eq_some.mp hclock]
    | error fault =>
      rw [hexecute] at hclock
      cases hreplay : replayTransaction storeErrors H block.header
          (LeeTransaction.clockInvocation H block.header.timestamp) (leading H block.header txs s).2 with
      | ok s' =>
        rw [hreplay] at hclock
        cases hclock
      | error => simp
  · have hshort : (leading H block.header txs s).1 ≠
        txs ++ [LeeTransaction.clockInvocation H block.header.timestamp] := by
      intro heq
      rw [heq, List.length_append] at hlength
      simp at hlength
    simp only [hall, ↓reduceIte, hshort, iff_false]
    cases hloop : replayTransactions storeErrors H block.header txs s with
    | mk u outcome =>
      rw [hloop] at hstate hok
      cases outcome with
      | ok => exact absurd (hok.mp rfl) hall
      | error fault => exact ⟨hstate, by simp⟩

theorem replayBlock_of_not_clockLast {H : Host} {block : Block} (h : ¬ClockLast H block) (s : V03State) :
    ∃ fault, replayBlock storeErrors H block s = (s, .error fault) := by
  unfold replayBlock
  split
  · exact ⟨_, rfl⟩
  next clockTx hlast =>
    split
    next hclock =>
      subst hclock
      exact absurd hlast h
    · exact ⟨_, rfl⟩

/-! ## Errors -/

/-- A transaction the ledger takes and is the same after. -/
def Idle (H : Host) (header : BlockHeader) (s : V03State) (tx : LeeTransaction) : Prop :=
  ∃ s', replayTransaction storeErrors H header tx s = .ok s' ∧ s'.Same s

/-- A block that is caught before it changes anything: it does not end in its clock, or the ledger refuses one of
its transactions and is the same after every one in front of that. -/
inductive CaughtInTime (H : Host) (block : Block) (s : V03State) : Prop
  | clock : ¬ClockLast H block → CaughtInTime H block s
  | transaction {idle rest : List LeeTransaction} {tx : LeeTransaction} {fault : Fault} :
      block.body.transactions = idle ++ tx :: rest → (∀ t ∈ idle, Idle H block.header s t) →
        replayTransaction storeErrors H block.header tx s = .error fault → CaughtInTime H block s

section
variable {H : Host} {header : BlockHeader}

theorem replayTransaction_same {s s' u : V03State} {tx : LeeTransaction} (hsame : s.Same s')
    (h : replayTransaction storeErrors H header tx s = .ok u) :
    ∃ u', replayTransaction storeErrors H header tx s' = .ok u' ∧ u.Same u' := by
  rw [replayTransaction_ok_iff] at h
  obtain ⟨u', hu', hsame'⟩ := hsame.transition h.2
  exact ⟨u', replayTransaction_ok_iff.mpr ⟨h.1, hu'⟩, hsame'⟩

/-- The execution of such a block stops where the ledger it started from would. -/
theorem leading_of_caught {s : V03State} {tx : LeeTransaction} (rest : List LeeTransaction) {fault : Fault}
    (hrefused : replayTransaction storeErrors H header tx s = .error fault) :
    ∀ {idle : List LeeTransaction} {u : V03State}, u.Same s → (∀ t ∈ idle, Idle H header s t) →
      (leading H header (idle ++ tx :: rest) u).1 = idle ∧ (leading H header (idle ++ tx :: rest) u).2.Same s
  | [], u, hu, _ => by
    rw [List.nil_append, leading]
    split
    next u' hu' =>
      obtain ⟨s', hs', -⟩ := replayTransaction_same hu hu'
      rw [hrefused] at hs'
      cases hs'
    next => exact ⟨rfl, hu⟩
  | t :: idle, u, hu, hidle => by
    obtain ⟨s', hs', hsame⟩ := hidle t List.mem_cons_self
    obtain ⟨u', hu', hsame'⟩ := replayTransaction_same hu.symm hs'
    obtain ⟨htxs, hstate⟩ := leading_of_caught rest hrefused (hsame'.symm.trans hsame)
      fun t ht => hidle t (List.mem_cons_of_mem _ ht)
    simp only [List.cons_append, leading, hu', htxs, hstate, and_self]

/-- What was executed of a block is a chain of transactions. -/
theorem leading_chain : ∀ (txs : List LeeTransaction) (s : V03State),
    Chain H s (leading H header txs s).1 (leading H header txs s).2
  | [], s => .nil s
  | tx :: txs, s => by
    rw [leading]
    split
    next s' hs' => exact .cons (replayTransaction_ok_iff.mp hs').2 (leading_chain txs s')
    next => exact .nil s

end

/-- The live state after a call is what the execution left. -/
theorem IndexerStore.putBlock_state {H : Host} {store : IndexerStore} {disk : Disk} {block : Block} {l1Header : Bytes32} :
    (store.putBlock H disk block l1Header).1.currentState = (replayBlock storeErrors H block store.currentState).1 := by
  unfold IndexerStore.putBlock
  split
  next h => rw [h]
  next h => rw [h]

/-- RocksDB refuses the batch. -/
theorem IndexerStore.putBlock_unwritten {H : Host} {store : IndexerStore} {disk : Disk} {block : Block}
    {l1Header : Bytes32} (hbatch : disk.batch = false) : (store.putBlock H disk block l1Header).1.db = store.db := by
  unfold IndexerStore.putBlock
  split
  · rfl
  · simp [Indexer.putBlock, hbatch]

/-- A block caught in time is not executed to its end, and the ledger is the same where it stops. -/
theorem CaughtInTime.stops {H : Host} {block : Block} {s : V03State} (h : CaughtInTime H block s) :
    ∃ s' fault, replayBlock storeErrors H block s = (s', .error fault) ∧ s'.Same s := by
  by_cases hclock : ClockLast H block
  · cases h with
    | clock h => exact absurd hclock h
    | @transaction idle rest tx _ hblock hidle hrefused =>
      obtain ⟨hstate, hok⟩ := replayBlock_of_clockLast hclock s
      obtain ⟨htxs, hsame⟩ := leading_of_caught rest hrefused (.refl _) hidle
      rw [hblock] at hstate hok
      rw [← hstate] at hsame
      rw [htxs] at hok
      cases houtcome : replayBlock storeErrors H block s with
      | mk s' outcome =>
        rw [houtcome] at hok hsame
        cases outcome with
        | error fault => exact ⟨s', fault, rfl, hsame⟩
        | ok => simpa using congrArg List.length (hok.mp rfl)
  · obtain ⟨fault, hreplay⟩ := replayBlock_of_not_clockLast hclock s
    exact ⟨_, fault, hreplay, .refl _⟩

namespace Sample

def ticking : LeeTransaction := LeeTransaction.clockInvocation (nodeHost {}) 0

/-- A call of a program that is not there. -/
def refused : LeeTransaction := .publicTx (Reference.unsigned (Reference.programId 99) [] [])

def freshStore : IndexerStore := ⟨openOrCreate (fun _ => .none) (nodeLedger [] []), nodeLedger [] []⟩

/-- What `freshStore` makes of a second block of these transactions. -/
def putSecond (transactions : List LeeTransaction) : IndexerStore × Except Fault Unit :=
  freshStore.putBlock (nodeHost {}) .sound (block 2 0 transactions) (ByteVec.fill 32 0)

end Sample

end Lez.Indexer
