/-
Withdrawals against the events that confirm them. A stored block counts its
withdrawals up, key by key; an event counts its key down and is matched when
there was a counter to count down.

The counter follows the books as long as no block withdraws twice under one
key (`incrementUnseenWithdrawCounts` reads the old count both times) and no
event finds the counter at zero (`consumeUnseenWithdrawCount` takes that for
a match and deletes the counter).
-/
import Lez.Sequencer.Storage

namespace Lez.Sequencer

open Store

/-! ## The books -/

/-- The withdrawals a stored block records. -/
def Operation.withdrawals : Operation → List WithdrawalReconciliationKey
  | atomicUpdate _ _ withdrawals _ => withdrawals
  | _ => []

/-- An event of the key. -/
def Operation.isEvent (key : WithdrawalReconciliationKey) : Operation → Bool
  | consumeUnseenWithdrawCount withdrawal => withdrawal = key
  | _ => false

/-- Operations one after another with what they answered. -/
abbrev Log := List (Operation × Except DbError Answer)

/-- Withdrawals under the key in the blocks stored. -/
def recorded (key : WithdrawalReconciliationKey) (log : Log) : Nat :=
  (log.map fun e => if e.2.isOk then e.1.withdrawals.count key else 0).sum

/-- Events of the key. -/
def arrived (key : WithdrawalReconciliationKey) (log : Log) : Nat := log.countP (·.1.isEvent key)

/-- Events of the key that were matched. -/
def matched (key : WithdrawalReconciliationKey) (log : Log) : Nat :=
  log.countP fun e => e.1.isEvent key && e.2.toOption == .some (.consumed true)

/-- No more events matched than withdrawals recorded, and as many when every withdrawal has an event of its
own after it: in no stretch at the end are there more withdrawals than events. -/
def Reconciled (key : WithdrawalReconciliationKey) (log : Log) : Prop :=
  matched key log ≤ recorded key log ∧
    ((∀ before after, log = before ++ after → recorded key after ≤ arrived key after) →
      matched key log = recorded key log)

section
variable (key : WithdrawalReconciliationKey) (log log' : Log)

theorem recorded_append : recorded key (log ++ log') = recorded key log + recorded key log' := by simp [recorded]

theorem arrived_append : arrived key (log ++ log') = arrived key log + arrived key log' := by simp [arrived]

theorem matched_append : matched key (log ++ log') = matched key log + matched key log' := by simp [matched]

end

/-! ## One operation -/

section
variable {key : WithdrawalReconciliationKey} {db : Db}

theorem addPendingDepositEvent_other {event : PendingDepositEventRecord} {cell : Cell}
    (h : cell ≠ .pendingDepositEvents) : ((addPendingDepositEvent event).run db).1 cell = db cell := by
  simp only [addPendingDepositEvent, Prog.run]
  split
  · rfl
  · exact Db.write_other db (by simpa using h.symm)

theorem removeFulfilled_other {finalized : BlockId} {cell : Cell} (h : cell ≠ .pendingDepositEvents) :
    ((removeFulfilledPendingDepositEventsUpToBlock finalized).run db).1 cell = db cell := by
  simp only [removeFulfilledPendingDepositEventsUpToBlock, Prog.run]
  split
  · exact Db.write_other db (by simpa using h.symm)
  · rfl

/-- The event of another key. -/
theorem consume_other {withdrawal : WithdrawalReconciliationKey} (h : withdrawal ≠ key) :
    ((consumeUnseenWithdrawCount withdrawal).run db).1 (.unseenWithdrawCount key) = db (.unseenWithdrawCount key) := by
  simp only [consumeUnseenWithdrawCount, Prog.run]
  split
  · rfl
  · split <;> exact Db.write_other db (by simpa using h)

/-- The counters after a stored block. -/
theorem storedBatch_unseenWithdrawCount {block : Block} {depositOpIds : List HashType}
    {withdrawals : List WithdrawalReconciliationKey} {state : V03State} {last : BlockId} :
    db.write (storedBatch db block depositOpIds withdrawals state last) (.unseenWithdrawCount key) =
      if key ∈ withdrawals then .some ((db (.unseenWithdrawCount key)).getD 0 + 1)
      else db (.unseenWithdrawCount key) := by
  have hcells : ∀ v, ⟨.unseenWithdrawCount key, v⟩ ∈ storedBatch db block depositOpIds withdrawals state last ↔
      key ∈ withdrawals ∧ v = .some ((db (.unseenWithdrawCount key)).getD 0 + 1) := by
    intro v
    unfold storedBatch putBlock markPendingDepositEventsSubmitted
    grind
  split
  next hmem => exact Db.write_of_mem db ((hcells _).mpr ⟨hmem, rfl⟩) fun v hv => ((hcells v).mp hv).2
  next hmem => exact Db.write_unnamed db fun v hv => hmem ((hcells v).mp hv).1

end

/-! ## Runs -/

/-- The counter is what the books leave open, and a stretch at the end of the log leaves as much open. -/
structure Tally (key : WithdrawalReconciliationKey) (log : Log) (db : Db) : Prop where
  counter : recorded key log = 0 ∧ matched key log = 0 ∧ db (.unseenWithdrawCount key) = .none ∨
    0 < recorded key log ∧ ∃ n, db (.unseenWithdrawCount key) = .some n ∧ n.toNat + matched key log = recorded key log
  stretch : ∃ before after, log = before ++ after ∧
    recorded key log + arrived key after ≤ matched key log + recorded key after

/-- Operations under which the counter keeps the books: a block has at most one withdrawal under the key, and
an event does not come to a counter at zero. -/
def Countable (key : WithdrawalReconciliationKey) (db : Db) : Operation → Prop
  | .atomicUpdate _ _ withdrawals _ => withdrawals.count key ≤ 1
  | .consumeUnseenWithdrawCount withdrawal => withdrawal = key → db (.unseenWithdrawCount key) ≠ .some 0
  | _ => True

section
variable {key : WithdrawalReconciliationKey} {log : Log} {db db' : Db} {op : Operation} {answer : Except DbError Answer}

theorem Tally.matched_le (h : Tally key log db) : matched key log ≤ recorded key log := by
  rcases h.counter with ⟨hr, hm, -⟩ | ⟨-, n, -, hn⟩ <;> omega

/-- An operation that records nothing and is no event of the key. -/
theorem Tally.idle (h : Tally key log db) (hdb : db' (.unseenWithdrawCount key) = db (.unseenWithdrawCount key))
    (hrecorded : recorded key [(op, answer)] = 0) (hevent : op.isEvent key = false) :
    Tally key (log ++ [(op, answer)]) db' := by
  have hmatched : matched key [(op, answer)] = 0 := by simp [matched, hevent]
  have harrived : arrived key [(op, answer)] = 0 := by simp [arrived, hevent]
  obtain ⟨before, after, rfl, hopen⟩ := h.stretch
  constructor
  · rw [recorded_append, matched_append, hrecorded, hmatched, hdb]
    exact h.counter
  · refine ⟨before, after ++ [(op, answer)], by simp, ?_⟩
    rw [recorded_append, recorded_append key after, matched_append, arrived_append, hrecorded, hmatched, harrived]
    omega

/-- A stored block with one withdrawal under the key. -/
theorem Tally.recorded_once (h : Tally key log db)
    (hfits : ((db (.unseenWithdrawCount key)).getD 0).toNat + 1 < 2 ^ 64)
    (hdb : db' (.unseenWithdrawCount key) = .some ((db (.unseenWithdrawCount key)).getD 0 + 1))
    (hrecorded : recorded key [(op, answer)] = 1) (hevent : op.isEvent key = false) :
    Tally key (log ++ [(op, answer)]) db' := by
  have hmatched : matched key [(op, answer)] = 0 := by simp [matched, hevent]
  have harrived : arrived key [(op, answer)] = 0 := by simp [arrived, hevent]
  have hnext : ((db (.unseenWithdrawCount key)).getD 0 + 1).toNat =
      ((db (.unseenWithdrawCount key)).getD 0).toNat + 1 := by
    rw [UInt64.toNat_add, UInt64.toNat_one, Nat.mod_eq_of_lt hfits]
  obtain ⟨before, after, rfl, hopen⟩ := h.stretch
  constructor
  · right
    rw [recorded_append, matched_append, hrecorded, hmatched]
    refine ⟨by omega, _, hdb, ?_⟩
    rw [hnext]
    rcases h.counter with ⟨hr, hm, hnone⟩ | ⟨-, n, hsome, hn⟩
    · simp only [hnone, Option.getD_none, UInt64.toNat_zero]
      omega
    · simp only [hsome, Option.getD_some]
      omega
  · refine ⟨before, after ++ [(op, answer)], by simp, ?_⟩
    rw [recorded_append, recorded_append key after, matched_append, arrived_append, hrecorded, hmatched, harrived]
    omega

/-- An event of the key that does not come to a counter at zero. -/
theorem Tally.event (h : Tally key log db) (hzero : db (.unseenWithdrawCount key) ≠ .some 0) :
    Tally key (log ++ [(.consumeUnseenWithdrawCount key, ((consumeUnseenWithdrawCount key).run db).2)])
      ((consumeUnseenWithdrawCount key).run db).1 := by
  have hrecorded : ∀ answer, recorded key [(.consumeUnseenWithdrawCount key, answer)] = 0 := by
    intro answer
    simp [recorded, Operation.withdrawals]
  rcases h.counter with ⟨hr, hm, hnone⟩ | ⟨hpos, n, hsome, hn⟩
  · -- nothing to match: nothing is open, at the end as before
    have hrun : (consumeUnseenWithdrawCount key).run db = (db, .ok (.consumed false)) := by
      simp only [consumeUnseenWithdrawCount, Prog.run, hnone]
    have hmatched : matched key [(.consumeUnseenWithdrawCount key, .ok (.consumed false))] = 0 := by
      simp [matched, Except.toOption]
    rw [hrun]
    constructor
    · left
      rw [recorded_append, matched_append, hrecorded, hmatched]
      exact ⟨hr, hm, hnone⟩
    · refine ⟨_, [], (List.append_nil _).symm, ?_⟩
      rw [recorded_append, matched_append, hrecorded, hmatched, hr]
      simp [arrived]
  · have hn0 : 1 ≤ n.toNat := by
      rw [hsome, ne_eq, Option.some.injEq, ← UInt64.toNat_inj, UInt64.toNat_zero] at hzero
      omega
    have hrun : (consumeUnseenWithdrawCount key).run db =
        (db.write [⟨.unseenWithdrawCount key, .some (n - 1)⟩], .ok (.consumed true)) := by
      simp only [consumeUnseenWithdrawCount, Prog.run, hsome, hn0, ↓reduceIte]
    have hmatched : matched key [(.consumeUnseenWithdrawCount key, .ok (.consumed true))] = 1 := by
      simp [matched, Except.toOption, Operation.isEvent]
    have harrived : arrived key [(.consumeUnseenWithdrawCount key, .ok (.consumed true))] = 1 := by
      simp [arrived, Operation.isEvent]
    have hpred : (n - 1).toNat = n.toNat - 1 := UInt64.toNat_sub_of_le n 1 (by
      rw [UInt64.le_iff_toNat_le]
      exact hn0)
    rw [hrun]
    obtain ⟨before, after, rfl, hopen⟩ := h.stretch
    constructor
    · right
      rw [recorded_append, matched_append, hrecorded, hmatched]
      exact ⟨hpos, _, Db.write_singleton .., by omega⟩
    · refine ⟨before, after ++ [_], by simp; rfl, ?_⟩
      rw [recorded_append, recorded_append key after, matched_append, arrived_append, hrecorded, hmatched,
        harrived]
      omega

theorem Tally.step (h : Tally key log db) (hop : Countable key db op) :
    Tally key (log ++ [(op, (op.prog.run db).2)]) (op.prog.run db).1 := by
  cases op with
  | addPendingDepositEvent event =>
    exact h.idle (addPendingDepositEvent_other (by simp)) (by simp [recorded, Operation.withdrawals]) rfl
  | removeFulfilledPendingDepositEventsUpToBlock finalized =>
    exact h.idle (removeFulfilled_other (by simp)) (by simp [recorded, Operation.withdrawals]) rfl
  | consumeUnseenWithdrawCount withdrawal =>
    by_cases hkey : withdrawal = key
    · subst hkey
      exact h.event (hop rfl)
    · refine h.idle (consume_other hkey) (by simp [recorded, Operation.withdrawals]) ?_
      simp [Operation.isEvent, hkey]
  | atomicUpdate block depositOpIds withdrawals state =>
    rcases atomicUpdate_run db block depositOpIds withdrawals state with ⟨last, -, hfits, hrun⟩ | ⟨e, hrun⟩
    · have hcount : withdrawals.count key ≤ 1 := hop
      rw [Operation.prog, hrun]
      by_cases hmem : key ∈ withdrawals
      · refine h.recorded_once (hfits key hmem) ?_ ?_ rfl
        · exact storedBatch_unseenWithdrawCount.trans (if_pos hmem)
        · have := List.count_pos_iff.mpr hmem
          simp only [recorded, Operation.withdrawals, List.map_cons, List.map_nil, List.sum_cons, List.sum_nil]
          simp only [Except.isOk, Except.toBool, ↓reduceIte]
          omega
      · refine h.idle ?_ ?_ rfl
        · exact storedBatch_unseenWithdrawCount.trans (if_neg hmem)
        · simp [recorded, Operation.withdrawals, List.count_eq_zero.mpr hmem]
    · rw [Operation.prog, hrun]
      exact h.idle rfl (by simp [recorded, Except.isOk, Except.toBool]) rfl

end

/-- **Withdrawals are reconciled exactly**, from a database with no counter for the key, by operations under
which the counter keeps the books. -/
theorem withdrawals_reconciled {key : WithdrawalReconciliationKey} {db db' : Db} {log : Log}
    (hfresh : db (.unseenWithdrawCount key) = .none) (h : Prog.Serial Operation.prog (Countable key) db log db') :
    Reconciled key log := by
  have htally : Tally key log db' := by
    induction h with
    | nil => exact ⟨.inl ⟨rfl, rfl, hfresh⟩, [], [], rfl, Nat.le_refl _⟩
    | snoc op _ hop ih => exact ih.step hop
  refine ⟨htally.matched_le, ?_⟩
  intro hevents
  obtain ⟨before, after, hsplit, hopen⟩ := htally.stretch
  have hafter := hevents before after hsplit
  have hle := htally.matched_le
  omega

namespace Sample

open Lez.Reference (block ledger)

def payout : WithdrawalReconciliationKey := ⟨5, ByteVec.fill 32 9⟩

/-- The second block, which pays out once. -/
def payoutBlock : Operation := .atomicUpdate (block 2 0 []) [] [payout] (ledger [] [])

def payoutEvent : Operation := .consumeUnseenWithdrawCount payout

end Sample

open Sequencer.Sample in
/-- A payout and its event: one recorded, one matched. -/
theorem payout_reconciled : ∃ log db', Prog.Serial Operation.prog (Countable Sample.payout) (db 1) log db' ∧
    recorded Sample.payout log = 1 ∧ matched Sample.payout log = 1 ∧ Reconciled Sample.payout log := by
  have h : Prog.Serial Operation.prog (Countable Sample.payout) (db 1) _ _ :=
    (Prog.Serial.nil.snoc payoutBlock (show [Sample.payout].count Sample.payout ≤ 1 by decide)).snoc payoutEvent
      fun _ => by decide
  exact ⟨_, _, h, by decide, by decide, withdrawals_reconciled rfl h⟩

open Sequencer.Sample in
/-- One payout and two events: both are matched, the second against a counter at zero. -/
theorem payout_matched_twice : ∃ log db', Prog.Serial Operation.prog (fun _ _ => True) (db 1) log db' ∧
    recorded Sample.payout log = 1 ∧ matched Sample.payout log = 2 ∧ ¬Reconciled Sample.payout log := by
  refine ⟨_, _, ((Prog.Serial.nil.snoc payoutBlock trivial).snoc payoutEvent trivial).snoc payoutEvent trivial,
    by decide, by decide, ?_⟩
  intro h
  exact absurd h.1 (by decide)

end Lez.Sequencer
