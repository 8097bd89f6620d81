/-
The two tasks of a running sequencer over one database. The publisher's task
makes the operations on deposits seen, blocks finalized and withdrawals
observed; the producer's stores blocks. Nothing keeps one from writing
between the reads and the write of the other.

An interleaving in which no operation writes a cell that an unfinished
operation of the other task has read leaves the deposits and counters that
some order of the operations would. Otherwise a whole stored list can be
written back as it was before the other task added to it.
-/
import Mathlib.Data.List.Permutation
import Lez.Sequencer.Reconciliation

namespace Lez.Sequencer

open Store

inductive Task
  | publisher
  | producer
deriving DecidableEq

/-- The same pending deposits and the same counters. -/
structure SameBooks (db db' : Db) : Prop where
  pending : db .pendingDepositEvents = db' .pendingDepositEvents
  unseen : ∀ w, db (.unseenWithdrawCount w) = db' (.unseenWithdrawCount w)

/-- Both tasks about to start on their operations. -/
def startTasks (db : Db) (ops : Task → List Operation) : Store.Config Cell.Value (Except DbError Answer) Task :=
  .start db fun t => (ops t).map Operation.prog

/-- The books are those of the operations one after another, in some order. -/
def Serialized (db : Db) (ops : Task → List Operation) (db' : Db) : Prop :=
  ∃ order : List Operation, order.Perm (ops .publisher ++ ops .producer) ∧
    SameBooks db' (Prog.runAll (order.map Operation.prog) db)

/-- Both tasks' operations, once each. -/
theorem perm_of_merges {order : List (Task × Operation)} {ops : Task → List Operation} (h : Merges order ops) :
    (order.map (·.2)).Perm (ops .publisher ++ ops .producer) := by
  have hsplit := (List.filter_append_perm (fun e : Task × Operation => e.1 = .publisher) order).map (·.2)
  have hother : (order.filter fun e => !decide (e.1 = .publisher)) = order.filter fun e => e.1 = .producer := by
    refine List.filter_congr ?_
    intro e _
    cases e.1 <;> decide
  rw [List.map_append, hother, h .publisher, h .producer] at hsplit
  exact hsplit.symm

/-- **No update is lost** in an interleaving in which no write touches a cell that an unfinished operation of
the other task has read. -/
theorem interleaving_serialized {db : Db} {ops : Task → List Operation}
    {c : Store.Config Cell.Value (Except DbError Answer) Task} (h : Run Undisturbing (startTasks db ops) c)
    (hdone : ∀ t, c.tasks t = []) : Serialized db ops c.db := by
  obtain ⟨progs, hprogs, hdb⟩ := h.serial hdone
  obtain ⟨order, hmerges, rfl⟩ := Merges.of_map hprogs
  refine ⟨order.map (·.2), perm_of_merges hmerges, ?_⟩
  have hmap : (order.map fun e => (e.1, e.2.prog)).map (·.2) = (order.map (·.2)).map Operation.prog := by
    simp only [List.map_map, Function.comp_def]
  rw [hdb, hmap]
  exact ⟨rfl, fun _ => rfl⟩

namespace Sample

open Lez.Reference (block ledger)

def deposit (n : UInt8) : PendingDepositEventRecord := ⟨ByteVec.fill 32 n, ByteVec.fill 32 0, 5, [], .none⟩

/-- One deposit recorded and not yet in a block. -/
def pendingDb : Db
  | .lastBlock => .some 1
  | .pendingDepositEvents => .some [deposit 1]
  | _ => .none

/-- A second deposit is seen while the first one's block is stored. -/
def depositsInFlight : Task → List Operation
  | .publisher => [.addPendingDepositEvent (deposit 2)]
  | .producer => [.atomicUpdate (block 2 0 []) [ByteVec.fill 32 1] [] (ledger [] [])]

/-- The block reads the deposits, the second one is recorded, the block is written. -/
def overtaken : List Task := [.producer, .producer, .publisher, .publisher, .producer]

/-- The same, and a payout of an earlier block whose event has not been seen. -/
def paidDb : Db
  | .unseenWithdrawCount w => if w = payout then .some 1 else .none
  | cell => pendingDb cell

/-- The event of that payout while the next block is stored. -/
def eventInFlight : Task → List Operation
  | .publisher => [payoutEvent]
  | .producer => [.atomicUpdate (block 2 0 []) [ByteVec.fill 32 1] [] (ledger [] [])]

/-- The block is written after the event has read the counter and before it counts it down. -/
def apart : List Task := [.producer, .publisher, .producer, .producer, .publisher]

end Sample

open Sequencer.Sample in
/-- An event and a block that have no cell in common. -/
theorem event_during_block_serialized : ∃ c, Run Undisturbing (startTasks paidDb eventInFlight) c ∧
    (∀ t, c.tasks t = []) ∧ Serialized paidDb eventInFlight c.db := by
  have hmeets : (startTasks paidDb eventInFlight).Meets Undisturbing apart := by
    refine ⟨?_, ?_, ?_, ?_, ?_, trivial⟩
    · intro batch answer rest h
      cases h
    · intro batch answer rest h
      cases h
    · intro batch answer rest h
      cases h
    · intro batch answer rest h j hj
      cases h
      cases j with
      | publisher => decide
      | producer => exact absurd rfl hj
    · intro batch answer rest h j hj
      cases h
      cases j with
      | publisher => exact absurd rfl hj
      | producer => decide
  have hdone : ∀ t, (apart.foldl Config.step (startTasks paidDb eventInFlight)).tasks t = [] := by
    intro t
    cases t <;> rfl
  exact ⟨_, run_of_schedule apart hmeets, hdone, interleaving_serialized (run_of_schedule apart hmeets) hdone⟩

open Sequencer.Sample in
/-- The second deposit is lost: in either order of the two operations it is recorded at the end. -/
theorem deposit_overtaken_by_block : ∃ c, Run (fun _ _ _ => True) (startTasks pendingDb depositsInFlight) c ∧
    (∀ t, c.tasks t = []) ∧ ¬Serialized pendingDb depositsInFlight c.db := by
  refine ⟨_, run_of_schedule overtaken (Config.meets_true ..), ?_, ?_⟩
  · intro t
    cases t <;> rfl
  · intro h
    obtain ⟨order, hperm, hsame⟩ := h
    rcases List.perm_pair.mp hperm with rfl | rfl
    · exact absurd hsame.pending (by decide)
    · exact absurd hsame.pending (by decide)

end Lez.Sequencer
