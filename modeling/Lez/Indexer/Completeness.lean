/-
Account histories against the ledger. The indexer lists a transaction under
the accounts that sign it or stand in its message; what a transaction changes
is up to the programs it calls, and an output or a chained call may bring in
accounts of the program's own choice. The history of an account is complete
where the programs called keep to the accounts they are handed.
-/
import Lez.Indexer.Pages
import Lez.Trace.Callees

namespace Lez.Indexer

open Store
open Reference (block nodeHost nodeLedger)

/-! ## Applications -/

/-- A transaction of a chain, with the ledgers before and after it. -/
structure Application where
  header : BlockHeader
  tx : LeeTransaction
  before : V03State
  after : V03State

/-- The transactions of a block one after the other, and the ledger they leave. -/
def applyTransactions (H : Host) (header : BlockHeader) :
    List LeeTransaction → V03State → List Application × V03State
  | [], s => ([], s)
  | tx :: txs, s =>
    match s.transition H tx header.blockId header.timestamp with
    | .some s' =>
      let (rest, last) := applyTransactions H header txs s'
      (⟨header, tx, s, s'⟩ :: rest, last)
    | .none => ([], s)

def applications (H : Host) : List Block → V03State → List Application
  | [], _ => []
  | b :: blocks, s =>
    let (here, s') := applyTransactions H b.header b.body.transactions s
    here ++ applications H blocks s'

section
variable {H : Host} {header : BlockHeader} {blocks : List Block} {s s' : V03State}

theorem applyTransactions_concat {tx : LeeTransaction} {s'' : V03State} : ∀ {txs : List LeeTransaction} {s : V03State},
    replayTransactions calculateErrors H header txs s = (s', .ok ()) →
      s'.transition H tx header.blockId header.timestamp = .some s'' →
      ((applyTransactions H header (txs ++ [tx]) s).1.map (·.tx) = txs ++ [tx] ∧
        (applyTransactions H header (txs ++ [tx]) s).2 = s'')
  | [], s, h, htx => by
    cases h
    simp [applyTransactions, htx]
  | tx' :: txs, s, h, htx => by
    obtain ⟨u, hu, h⟩ := replayTransactions_cons_ok.mp h
    have hstep := (replayTransaction_ok_iff.mp hu).2
    obtain ⟨htxs, hlast⟩ := applyTransactions_concat h htx
    simp [applyTransactions, hstep, htxs, hlast]

/-- **Every transaction of a chain that replays is applied**: its applications leave none out. -/
theorem applications_txs : ∀ {blocks : List Block} {s s' : V03State},
    applyBlocks calculateErrors H blocks s = .ok s' →
      (applications H blocks s).map (·.tx) = blocks.flatMap (·.body.transactions)
  | [], _, _, _ => rfl
  | b :: blocks, s, s', h => by
    rw [applyBlocks, List.foldlM_cons, bind_ok_iff] at h
    obtain ⟨u, hb, h⟩ := h
    obtain ⟨txs, v, htxs, hloop, hclock⟩ := replayBlock_ok_iff.mp (applyBlock_ok_iff.mp hb)
    obtain ⟨happlied, hlast⟩ := applyTransactions_concat hloop hclock
    rw [← htxs] at happlied hlast
    rw [applications, List.map_append, happlied, hlast, applications_txs h, List.flatMap_cons]

theorem mem_applyTransactions {a : Application} : ∀ {txs : List LeeTransaction} {s : V03State},
    a ∈ (applyTransactions H header txs s).1 →
      a.tx ∈ txs ∧ a.before.transition H a.tx a.header.blockId a.header.timestamp = .some a.after
  | [], s, h => by simp [applyTransactions] at h
  | tx :: txs, s, h => by
    unfold applyTransactions at h
    split at h
    next s' hs' =>
      rcases List.mem_cons.mp h with rfl | h
      · exact ⟨List.mem_cons_self, hs'⟩
      · obtain ⟨htx, hstep⟩ := mem_applyTransactions h
        exact ⟨List.mem_cons_of_mem _ htx, hstep⟩
    next => simp at h

theorem mem_applications {a : Application} : ∀ {blocks : List Block} {s : V03State}, a ∈ applications H blocks s →
    a.tx ∈ blocks.flatMap (·.body.transactions) ∧
      a.before.transition H a.tx a.header.blockId a.header.timestamp = .some a.after
  | [], s, h => by simp [applications] at h
  | b :: blocks, s, h => by
    rw [applications, List.mem_append] at h
    rw [List.flatMap_cons, List.mem_append]
    rcases h with h | h
    · obtain ⟨htx, hstep⟩ := mem_applyTransactions h
      exact ⟨.inl htx, hstep⟩
    · obtain ⟨htx, hstep⟩ := mem_applications h
      exact ⟨.inr htx, hstep⟩

end

/-! ## Programs that keep to their accounts -/

/-- What it answers and what it calls with are accounts it was handed. -/
def KeepsToAccounts (g : Guest) : Prop :=
  ∀ self caller pre data out, g self caller pre data = .ok out →
    (∀ a ∈ out.preStates, a.accountId ∈ pre.map (·.accountId)) ∧
      ∀ c ∈ out.chainedCalls, ∀ a ∈ c.preStates, a.accountId ∈ pre.map (·.accountId)

/-- The programs a public transaction calls keep to their accounts. -/
def Application.Confined (H : Host) (a : Application) : Prop :=
  ∀ tx, a.tx = .publicTx tx →
    ∀ e ∈ publicCalls H a.before a.header.blockId a.header.timestamp tx, KeepsToAccounts (H.guest e.program)

section
variable {H : Host} {s s' : V03State} {blockId : BlockId} {timestamp : Timestamp} {id : AccountId}

/-- Then every account of a call was in the message. -/
theorem exec_confined {ids : List AccountId} {q : List Pending} {d d' : Diff} {es : List Executed}
    (h : Exec H s blockId timestamp q d es d') (hkeeps : ∀ e ∈ es, KeepsToAccounts (H.guest e.program))
    (hq : ∀ p ∈ q, ∀ a ∈ p.call.preStates, a.accountId ∈ ids) : ∀ e ∈ es, ∀ id ∈ e.accountIds, id ∈ ids := by
  induction h with
  | nil => simp
  | @cons p rest out es d d' d'' hcall _ ih =>
    obtain ⟨houts, hcalls⟩ := hkeeps _ List.mem_cons_self _ _ _ _ _ (executeCall_ok hcall).ran
    have hhanded : ∀ id ∈ p.call.preStates.map (·.accountId), id ∈ ids := by
      intro id hid
      obtain ⟨a, ha, rfl⟩ := List.mem_map.mp hid
      exact hq p List.mem_cons_self a ha
    intro e he id hid
    rcases List.mem_cons.mp he with rfl | he
    · obtain ⟨a, ha, rfl⟩ := List.mem_map.mp hid
      exact hhanded _ (houts a ha)
    · refine ih (fun e he => hkeeps e (List.mem_cons_of_mem _ he)) ?_ e he id hid
      intro c hc a ha
      rcases List.mem_append.mp hc with hc | hc
      · obtain ⟨call, hcall', rfl⟩ := List.mem_map.mp hc
        exact hhanded _ (hcalls call hcall' a ha)
      · exact hq c (List.mem_cons_of_mem _ hc) a ha

/-- An account that neither signs nor stands in the diff is as before. -/
theorem applied_unchanged {diff : StateDiff} (h : s.applyStateDiff H diff = .some s')
    (hsigner : id ∉ diff.signerAccountIds) (hdiff : viewOf s diff.publicDiff id = s.getAccountById id) :
    s'.getAccountById id = s.getAccountById id := by
  obtain ⟨n, haccount, hnonce⟩ := applyStateDiff_account h id
  rw [haccount, hnonce hsigner, hdiff]

/-- **What a confined application changes it is listed under.** -/
theorem Application.Confined.affected {a : Application} (h : a.Confined H)
    (hstep : a.before.transition H a.tx a.header.blockId a.header.timestamp = .some a.after)
    (hchanged : a.after.getAccountById id ≠ a.before.getAccountById id) : id ∈ a.tx.affectedPublicAccountIds H := by
  by_contra hnot
  refine hchanged ?_
  obtain ⟨diff, hdiff, happly⟩ := V03State.settle_eq_some.mp hstep
  cases htx : a.tx with
  | publicTx tx =>
    rw [htx] at hdiff hnot
    have hacc := fromPublicTransaction_ok hdiff
    simp only [LeeTransaction.affectedPublicAccountIds, List.mem_dedup, List.mem_append, not_or] at hnot
    refine applied_unchanged happly (hacc.signers ▸ hnot.1) (hacc.exec.effects.frame ?_)
    intro e he hid
    refine hnot.2 (exec_confined hacc.exec (h tx htx) ?_ e he id hid)
    intro p hp pre hpre
    rw [List.mem_singleton.mp hp] at hpre
    obtain ⟨id', hid', rfl⟩ := List.mem_map.mp hpre
    exact hid'
  | privacyPreserving tx =>
    rw [htx] at hdiff hnot
    obtain ⟨hacc, -⟩ := fromPrivacyPreservingTransaction_ok hdiff
    simp only [LeeTransaction.affectedPublicAccountIds, List.mem_dedup, List.mem_append, not_or] at hnot
    refine applied_unchanged happly (hacc.signers ▸ hnot.1) ?_
    rw [hacc.publicDiff, viewOf_writeAll_not]
    · rfl
    · rintro ⟨id', post⟩ hkv rfl
      exact hnot.2 (List.of_mem_zip hkv).1
  | programDeployment bytecode =>
    rw [htx] at hdiff
    simp only [LeeTransaction.validate, fromProgramDeploymentTransaction, bind_ok_iff, pure_ok_iff] at hdiff
    obtain ⟨program, -, -, -, rfl⟩ := hdiff
    exact applied_unchanged happly (by simp) rfl

end

/-! ## Histories -/

/-- Every transaction that changed an account is on a page of it, which takes memory for one key. -/
def HistoryComplete (H : Host) (initial : V03State) (actions : List Action) : Prop :=
  ∀ a ∈ applications H (blocksOf actions) initial, ∀ id, a.after.getAccountById id ≠ a.before.getAccountById id →
    ∀ room, 1 ≤ room → ∃ offset limit page,
      getAccTransactions H room (performAll H initial actions) id offset limit = .ok page ∧ a.tx ∈ page

theorem ValidChain.ids_nodup {H : Host} {initial : V03State} {blocks : List Block}
    (h : ValidChain H initial blocks) : (blocks.map (·.header.blockId.toNat)).Nodup := by
  rw [h.ids]
  exact List.nodup_range'

/-- **Account histories are complete** over every valid chain whose transactions call programs that keep to
their accounts. -/
theorem account_history_complete {H : Host} {initial : V03State} {actions : List Action}
    (hvalid : ValidChain H initial (blocksOf actions))
    (hinj : ∀ tx ∈ (blocksOf actions).flatMap (·.body.transactions),
      ∀ tx' ∈ (blocksOf actions).flatMap (·.body.transactions), tx.hash H = tx'.hash H → tx = tx')
    (hcount : ∀ id, (namedIn H (blocksOf actions) id).length < 2 ^ 64)
    (hconfined : ∀ a ∈ applications H (blocksOf actions) initial, a.Confined H) :
    HistoryComplete H initial actions := by
  intro a ha id hchanged room hroom
  obtain ⟨htx, hstep⟩ := mem_applications ha
  have hnamed : a.tx ∈ namedIn H (blocksOf actions) id :=
    List.mem_filter.mpr ⟨htx, decide_eq_true ((hconfined a ha).affected hstep hchanged)⟩
  obtain ⟨k, hk, hget⟩ := List.getElem_of_mem hnamed
  have hlast := hcount id
  have hoffset : (UInt64.ofNat k).toNat = k := UInt64.toNat_ofNat_of_lt' (by unfold UInt64.size; omega)
  have hone : (1 : UInt64).toNat = 1 := rfl
  refine ⟨UInt64.ofNat k, 1, _, (paged_performAll hvalid.ids_nodup).page hinj (by omega) hroom, ?_⟩
  rw [hoffset, hone, List.drop_eq_getElem_cons hk, List.take_succ_cons, hget]
  exact List.mem_cons_self

namespace Sample

theorem clock_keepsToAccounts : KeepsToAccounts Clock.main := by
  intro self caller pre data out h
  simp only [Clock.main, bind_ok_iff, pure_ok_iff] at h
  obtain ⟨_, -, post, -, rfl⟩ := h
  exact ⟨fun a ha => List.mem_map_of_mem ha, by simp [ProgramOutput.new]⟩

theorem clock_calls_nothing {self : ProgramId} {caller : Option ProgramId} {pre : List AccountWithMetadata}
    {data : InstructionData} {out : ProgramOutput} (h : Clock.main self caller pre data = .ok out) :
    out.chainedCalls = [] := by
  simp only [Clock.main, bind_ok_iff, pure_ok_iff] at h
  obtain ⟨_, -, post, -, rfl⟩ := h
  rfl

theorem clock_guest : (nodeHost {}).guest (nodeHost {}).clock.id = Clock.main := rfl

end Sample

open Indexer.Sample in
/-- Two blocks with nothing but the clock, which keeps to its accounts. -/
theorem resumed_history_complete : HistoryComplete (nodeHost {}) (nodeLedger [] []) resumed := by
  refine account_history_complete resumed_valid ?_ ?_ ?_
  · intro tx htx tx' htx' _
    rw [resumed_txs] at htx htx'
    rw [List.eq_of_mem_replicate htx, List.eq_of_mem_replicate htx']
  · intro id
    have hle := List.length_filter_le (fun tx => decide (id ∈ tx.affectedPublicAccountIds (nodeHost {})))
      ((blocksOf resumed).flatMap (·.body.transactions))
    have hlength : ((blocksOf resumed).flatMap (·.body.transactions)).length = 2 := by rw [resumed_txs]; rfl
    exact Nat.lt_of_le_of_lt (hle.trans hlength.le) (by decide)
  · intro a ha tx htx e he
    have hclock := (mem_applications ha).1
    rw [resumed_txs] at hclock
    cases htx.symm.trans (List.eq_of_mem_replicate hclock)
    obtain ⟨diff, hdiff, -⟩ := V03State.settle_eq_some.mp (mem_applications ha).2
    rw [htx] at hdiff
    obtain ⟨out, hcalls, -⟩ := (fromPublicTransaction_ok hdiff).exec.alone fun _ _ h => clock_calls_nothing (clock_guest ▸ h)
    rw [hcalls, List.mem_singleton] at he
    rw [he]
    exact clock_guest ▸ clock_keepsToAccounts

namespace Sample

/-- An account of the program 101 that no message names. -/
def ward : AccountWithMetadata := ⟨⟨Reference.programId 101, 0, Data.empty, 0⟩, false, ByteVec.fill 32 9⟩

/-- The program 100 calls 101 with its ward, whatever it is handed; 101 writes what it is called with. -/
def wardPrograms (id : ProgramId) : Guest :=
  if id = Reference.programId 100 then Reference.caller fun _ => [⟨Reference.programId 101, [ward], [], []⟩]
  else fun self caller pre data =>
    .ok (.new self caller data pre (pre.map fun a => .new { a.account with data := (Data.tryFrom [1]).getD Data.empty }))

def wardHost : Host := nodeHost { programs := wardPrograms }

def wardLedger : V03State :=
  nodeLedger [(ward.accountId, ward.account)] [Reference.programId 100, Reference.programId 101]

/-- A block with a call of the program 100 on no account. -/
def wardActions : List Action :=
  [.put (block 1 0 [.publicTx (Reference.unsigned (Reference.programId 100) [] []),
    LeeTransaction.clockInvocation wardHost 0]) (ByteVec.fill 32 0)]

theorem wardActions_valid : ValidChain wardHost wardLedger (blocksOf wardActions) where
  ids := by decide
  replays := isOk_iff.mp (by decide +kernel)

end Sample

open Indexer.Sample in
/-- A chained call writes an account that neither signs nor stands in the message, and its history is empty. -/
theorem ward_written_unlisted : ValidChain wardHost wardLedger (blocksOf wardActions) ∧
    ¬HistoryComplete wardHost wardLedger wardActions := by
  refine ⟨wardActions_valid, fun hcomplete => ?_⟩
  have hwritten : ((applications wardHost (blocksOf wardActions) wardLedger).head?.any fun a =>
      a.after.getAccountById ward.accountId ≠ a.before.getAccountById ward.accountId) = true := by
    decide +kernel
  obtain ⟨a, ha, hchanged⟩ := (Option.any_eq_true _ _).mp hwritten
  obtain ⟨offset, limit, page, hpage, hmem⟩ :=
    hcomplete a (List.mem_of_head? ha) ward.accountId (of_decide_eq_true hchanged) 1 le_rfl
  have hpaged : Paged wardHost (blocksOf wardActions) (performAll wardHost wardLedger wardActions) :=
    paged_performAll wardActions_valid.ids_nodup
  have hnone : namedIn wardHost (blocksOf wardActions) ward.accountId = [] := by decide
  simp only [getAccTransactions, getAccTransactionHashes, bind_ok_iff, pure_ok_iff] at hpage
  obtain ⟨hashes, ⟨-, -, -, -, rfl⟩, blockIds, hblockIds, hfind⟩ := hpage
  rw [hpaged.accTxSeq, hnone, List.drop_nil, List.take_nil, List.map_nil] at hfind
  rw [List.zip_nil_right] at hfind
  cases hfind
  cases hmem

end Lez.Indexer
