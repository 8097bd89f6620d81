/-
Every withdrawal a block emits is paid for. The host reads the amount off the
message of a call of the bridge program; what the call does is up to the
program that owns the bridge account. That is the transfer program: the
constructors of the ledger have it so and no transaction changes it. So the
call pays exactly the amount into the bridge account. No user's transaction
takes anything out of it, so over a block the withdrawals are covered by what
users paid in.
-/
import Lez.Sequencer.Core
import Lez.Trace.Run

namespace Lez

/-- The bridge program and the transfer program run as modelled. -/
structure RunsBridge (H : Host) : Prop where
  guest_bridge : ∀ caller pre data out, H.guest H.bridge.id H.bridge.id caller pre data = .ok out →
    Bridge.main H.sha256 H.bridge.id caller pre data = .ok out
  guest_transfer : ∀ caller pre data out,
    H.guest H.authenticatedTransfer.id H.authenticatedTransfer.id caller pre data = .ok out →
      AuthenticatedTransfer.main Serde.transferCodec H.authenticatedTransfer.id caller pre data = .ok out
  transfer_ne_default : H.authenticatedTransfer.id ≠ defaultProgramId

/-- The bridge account. -/
def V03State.bridgeAccount (H : Host) (s : V03State) : Account := s.getAccountById (systemBridgeAccountId H)

/-! ## One withdrawal -/

section
variable {H : Host} {s s' : V03State} {blockId : BlockId} {timestamp : Timestamp} {diff : StateDiff}

/-- A call that leaves its accounts leaves all accounts. -/
theorem CallChecks.echo {d d' : Diff} {p : Pending} {out : ProgramOutput}
    (h : CallChecks H s d p.call p.caller out d')
    (hecho : out.postStates = out.preStates.map fun a => .new a.account) : viewOf s d' = viewOf s d := by
  funext id
  rcases h.effect.touched id with hsame | ⟨pre, post, hmem, hpre, -, haccount, hpost, -, -⟩
  · exact hsame
  · have hnew : post = .new pre.account := by
      have hzip : (pre, post) ∈ out.preStates.map fun a => (a, AccountPostState.new a.account) := by
        rw [List.map_prod_left_eq_zip, ← hecho]
        exact hmem
      obtain ⟨a, -, ha⟩ := List.mem_map.mp hzip
      cases ha
      rfl
    rw [hpost, hnew, ← haccount]
    rfl

/-- **A withdrawal pays its amount into the bridge account** where that belongs to the transfer program, and
changes nothing else of it. -/
theorem PublicAccepted.withdraw (hruns : RunsBridge H) {tx : PublicTransaction} {amount : UInt64} {pk : Bytes32}
    (hacc : PublicAccepted H tx s blockId timestamp diff) (hprogram : tx.message.programId = H.bridge.id)
    (hread : Bridge.readBridge tx.message.instructionData = .some (.withdraw amount pk))
    (howner : (s.bridgeAccount H).programOwner = H.authenticatedTransfer.id) :
    viewOf s diff.publicDiff (systemBridgeAccountId H) =
        { s.bridgeAccount H with balance := (s.bridgeAccount H).balance + Bridge.toU128 amount } ∧
      (s.bridgeAccount H).balance.toNat + amount.toNat < 2 ^ 128 := by
  have hexec := hacc.exec
  generalize publicCalls H s blockId timestamp tx = es at hexec
  cases hexec with
  | cons hcall hrest =>
    -- The bridge program leaves its accounts and calls the owner of the bridge account.
    have hchecks := executeCall_ok hcall
    have hran := hchecks.ran
    rw [show (initialPending H s tx).call.programId = H.bridge.id from hprogram] at hran
    obtain ⟨sender, bridge, hpre, hid, hechoPre, hechoPost, hcalls⟩ :=
      Bridge.main_withdraw_ok (hruns.guest_bridge _ _ _ _ hran) hread
    have hview := hchecks.echo (hechoPre ▸ hechoPost)
    have hbridge : bridge.account = s.bridgeAccount H := by
      have hmem := hchecks.pre bridge (by rw [hechoPre, hpre]; simp)
      rw [hid] at hmem
      exact hmem
    rw [Pending.callees, hcalls] at hrest
    cases hrest with
    | cons hcall' hrest' =>
      -- That is the transfer program, which makes no calls.
      have hchecks' := executeCall_ok hcall'
      have hran' := hchecks'.ran
      dsimp only at hran'
      rw [hbridge, howner] at hran'
      obtain ⟨i, post, hdecode, hprocess, hout⟩ := AuthenticatedTransfer.main_ok (hruns.guest_transfer _ _ _ _ hran')
      rw [Serde.transferCodec.decode_encode, Option.some.injEq] at hdecode
      subst hdecode
      obtain ⟨payer, recipient, hpair, -, -, hfits, hpost⟩ := AuthenticatedTransfer.process_transfer_ok hprocess
      cases hpair
      subst hout
      cases hrest' with
      | nil =>
        have hamount : (Bridge.toU128 amount).toNat = amount.toNat := by
          rw [Bridge.toU128, BitVec.toNat_ofNat]
          have := amount.toNat_lt
          omega
        have hwritten := hchecks'.effect.post (bridge, .newClaimedIfDefault
          { bridge.account with balance := bridge.account.balance + Bridge.toU128 amount } .authorized)
          (by rw [hpost]; exact List.mem_cons_of_mem _ List.mem_cons_self) trivial
        have hunclaimed : ¬bridge.account.programOwner = defaultProgramId := by
          rw [hbridge, howner]
          exact hruns.transfer_ne_default
        dsimp only at hwritten
        rw [hid] at hwritten
        simp only [AccountPostState.settled, AccountPostState.newClaimedIfDefault, if_neg hunclaimed] at hwritten
        rw [hbridge] at hwritten hfits
        rw [hamount] at hfits
        exact ⟨hwritten, hfits⟩

/-- A public transaction leaves the owner of an owned account. -/
theorem V03State.publicTx_owner {tx : PublicTransaction} {id : AccountId}
    (h : s.transition H (.publicTx tx) blockId timestamp = .some s')
    (howned : (s.getAccountById id).programOwner ≠ defaultProgramId) :
    (s'.getAccountById id).programOwner = (s.getAccountById id).programOwner := by
  obtain ⟨diff, hdiff, happly⟩ := settle_eq_some.mp h
  obtain ⟨n, hn, -⟩ := applyStateDiff_account happly id
  rw [hn]
  exact (fromPublicTransaction_ok hdiff).exec.effects.owner howned

/-- A user's transaction leaves the bridge account as it is but for what it pays in. -/
theorem LeeTransaction.validateOnState_bridge {tx : LeeTransaction}
    (h : tx.validateOnState H s blockId timestamp = .ok diff) :
    { viewOf s diff.publicDiff (systemBridgeAccountId H) with balance := (s.bridgeAccount H).balance } =
        s.bridgeAccount H ∧
      (s.bridgeAccount H).balance ≤ (viewOf s diff.publicDiff (systemBridgeAccountId H)).balance := by
  simp only [validateOnState, bind_ok_iff, pure_ok_iff] at h
  obtain ⟨d, -, _, -, _, hbridge, rfl⟩ := h
  unfold validateBridgeAccountModification at hbridge
  dsimp only at hbridge
  split at hbridge
  next hnone =>
    have hview : viewOf s d.publicDiff (systemBridgeAccountId H) = s.bridgeAccount H := by
      rw [viewOf, Table.getD, hnone]
      rfl
    rw [hview]
    exact ⟨rfl, BitVec.le_refl _⟩
  next post hsome =>
    have hview : viewOf s d.publicDiff (systemBridgeAccountId H) = post := by
      rw [viewOf, Table.getD, hsome]
      rfl
    rw [hview]
    split at hbridge
    next => exact ensure_ok_iff.mp hbridge
    next => cases hbridge

/-- The bridge account after a diff. Its nonce moves when it signed, which takes a key that hashes to its id. -/
theorem V03State.applyStateDiff_bridge {tx : LeeTransaction} (hvalid : tx.validate H s blockId timestamp = .ok diff)
    (happly : s.applyStateDiff H diff = .some s') :
    ∃ n, s'.bridgeAccount H = { viewOf s diff.publicDiff (systemBridgeAccountId H) with nonce := n } ∧
      (systemBridgeAccountId H ∉ tx.signers H →
        n = (viewOf s diff.publicDiff (systemBridgeAccountId H)).nonce) := by
  obtain ⟨n, hn, hkept⟩ := applyStateDiff_account happly (systemBridgeAccountId H)
  rw [LeeTransaction.validate_signers hvalid] at hkept
  exact ⟨n, hn, hkept⟩

/-! ## The owner of the bridge account -/

/-- A user's transaction leaves the bridge account to its owner and takes nothing out of it. -/
theorem V03State.user_bridge {tx : LeeTransaction} (hvalid : tx.validateOnState H s blockId timestamp = .ok diff)
    (happly : s.applyStateDiff H diff = .some s') :
    (s'.bridgeAccount H).programOwner = (s.bridgeAccount H).programOwner ∧
      (s.bridgeAccount H).balance ≤ (s'.bridgeAccount H).balance := by
  obtain ⟨n, hafter, -⟩ := applyStateDiff_bridge (LeeTransaction.validateOnState_ok hvalid) happly
  obtain ⟨hkept, hle⟩ := LeeTransaction.validateOnState_bridge hvalid
  have howner : (viewOf s diff.publicDiff (systemBridgeAccountId H)).programOwner =
      (s.bridgeAccount H).programOwner := by
    rw [← hkept]
  rw [hafter]
  exact ⟨howner, hle⟩

/-- A transaction of the sequencer's own leaves it to the transfer program. -/
theorem V03State.sequencer_bridge {tx : PublicTransaction} (htransfer : H.authenticatedTransfer.id ≠ defaultProgramId)
    (howner : (s.bridgeAccount H).programOwner = H.authenticatedTransfer.id)
    (h : s.transition H (.publicTx tx) blockId timestamp = .some s') :
    (s'.bridgeAccount H).programOwner = H.authenticatedTransfer.id := by
  refine (publicTx_owner h ?_).trans howner
  rw [← bridgeAccount, howner]
  exact htransfer

/-- The ledgers of a node: what a constructor makes, and what users' transactions that `validate_on_state` accepts
and public transactions of the sequencer's own (the supply of genesis, deposits, the clock) make of it. -/
inductive FromGenesis (H : Host) : V03State → Prop
  | new {s : V03State} : V03State.new H = .some s → FromGenesis H s
  | genesis {s : V03State} {initialData : List (AccountId × U128)} {initialPrivate : List (Commitment × Nullifier)}
      {timestamp : Timestamp} :
      newWithGenesisAccounts H initialData initialPrivate timestamp = .some s → FromGenesis H s
  | pinata {s : V03State} {program : Program} {id : AccountId} :
      FromGenesis H s → id ≠ systemBridgeAccountId H → FromGenesis H (s.addPinataProgram program id)
  | user {s s' : V03State} {tx : LeeTransaction} {diff : StateDiff} {blockId : BlockId} {timestamp : Timestamp} :
      FromGenesis H s → tx.validateOnState H s blockId timestamp = .ok diff → s.applyStateDiff H diff = .some s' →
        FromGenesis H s'
  | sequencer {s s' : V03State} {tx : PublicTransaction} {blockId : BlockId} {timestamp : Timestamp} :
      FromGenesis H s → s.transition H (.publicTx tx) blockId timestamp = .some s' → FromGenesis H s'

/-- A batch in which the bridge account's id has only accounts of the transfer program, and one at least. -/
theorem bridge_owner_of_writeAll {accounts : List (AccountId × Account)}
    (hmem : systemBridgeAccountId H ∈ accounts.map (·.1))
    (howner : ∀ a, (systemBridgeAccountId H, a) ∈ accounts → a.programOwner = H.authenticatedTransfer.id)
    (hs : s.publicState = Table.writeAll ∅ accounts) :
    (s.bridgeAccount H).programOwner = H.authenticatedTransfer.id := by
  have hkey : systemBridgeAccountId H ∈ s.publicState := by
    rw [hs, Table.mem_writeAll]
    exact .inr hmem
  obtain ⟨a, ha⟩ := Option.isSome_iff_exists.mp (AList.lookup_isSome.mpr hkey)
  have hwritten := (Table.lookup_writeAll_some (hs ▸ ha)).resolve_right (by simp)
  rw [V03State.bridgeAccount, V03State.getAccountById, Table.getD, ha]
  exact howner a hwritten

theorem new_bridge_owner (h : V03State.new H = .some s) :
    (s.bridgeAccount H).programOwner = H.authenticatedTransfer.id := by
  simp only [V03State.new, Option.bind_eq_bind, Option.bind_eq_some_iff] at h
  obtain ⟨_, -, h⟩ := h
  have hpub : s.publicState = Table.writeAll ∅ (systemAccounts H) := by
    rw [← Option.some.inj h]
  refine bridge_owner_of_writeAll ?_ ?_ hpub
  · simp [systemAccounts]
  · intro a ha
    simp only [systemAccounts, List.mem_cons, Prod.mk.injEq, List.not_mem_nil, or_false] at ha
    rcases ha with ⟨-, rfl⟩ | ⟨-, rfl⟩ <;> rfl

theorem genesis_bridge_owner {initialData : List (AccountId × U128)} {initialPrivate : List (Commitment × Nullifier)}
    (hclock : systemBridgeAccountId H ∉ clockProgramAccountIds)
    (h : newWithGenesisAccounts H initialData initialPrivate timestamp = .some s) :
    (s.bridgeAccount H).programOwner = H.authenticatedTransfer.id := by
  refine bridge_owner_of_writeAll ?_ ?_ (genesis_publicState h)
  · simp [genesisAccounts, systemAccounts]
  · intro a ha
    simp only [genesisAccounts, systemAccounts, List.mem_append, List.mem_map, List.mem_cons, Prod.mk.injEq,
      List.not_mem_nil, or_false] at ha
    rcases ha with (⟨_, -, -, rfl⟩ | ⟨-, rfl⟩ | ⟨-, rfl⟩) | ⟨id, hid, rfl, -⟩
    · rfl
    · rfl
    · rfl
    · exact absurd hid hclock

/-- **The bridge account belongs to the transfer program** in every ledger of a node. -/
theorem FromGenesis.bridge_owner (htransfer : H.authenticatedTransfer.id ≠ defaultProgramId)
    (hclock : systemBridgeAccountId H ∉ clockProgramAccountIds) (h : FromGenesis H s) :
    (s.bridgeAccount H).programOwner = H.authenticatedTransfer.id := by
  induction h with
  | new h => exact new_bridge_owner h
  | genesis h => exact genesis_bridge_owner hclock h
  | pinata _ hid ih =>
    rw [← ih]
    simp only [V03State.bridgeAccount, V03State.getAccountById, Table.getD, V03State.addPinataProgram,
      AList.lookup_insert_ne hid.symm]
  | user _ hvalid happly ih => exact (V03State.user_bridge hvalid happly).1.trans ih
  | sequencer _ hstep ih => exact V03State.sequencer_bridge htransfer ih hstep

end

end Lez

namespace Lez.Sequencer

open Reference (nodeHost nodeLedger)

section
variable {H : Host} {cfg : Config} {height : BlockId} {now : Timestamp} {prevBlockHash : HashType}

theorem extractBridgeWithdrawData_some {tx : LeeTransaction} {w : WithdrawArg}
    (h : extractBridgeWithdrawData H cfg tx = .ok (.some w)) :
    ∃ ptx pk, tx = .publicTx ptx ∧ ptx.message.programId = H.bridge.id ∧
      Bridge.readBridge ptx.message.instructionData = .some (.withdraw w.value pk) := by
  unfold extractBridgeWithdrawData at h
  split at h
  next amount pk hbridge =>
    cases h
    unfold bridgeInstruction at hbridge
    split at hbridge
    next ptx =>
      split at hbridge
      next hprogram => exact ⟨ptx, pk, rfl, hprogram, hbridge⟩
      next => cases hbridge
    next => cases hbridge
  next => cases h
  next => cases h

/-- What a validated withdrawal leaves of the bridge account. -/
theorem withdrawal_applied (hruns : RunsBridge H) {s s' : V03State} {tx : LeeTransaction} {diff : StateDiff}
    {w : WithdrawArg} (howner : (s.bridgeAccount H).programOwner = H.authenticatedTransfer.id)
    (hvalid : tx.validateOnState H s height now = .ok diff)
    (hextract : extractBridgeWithdrawData H cfg tx = .ok (.some w)) (happly : s.applyStateDiff H diff = .some s') :
    (s'.bridgeAccount H).balance.toNat = (s.bridgeAccount H).balance.toNat + w.value.toNat ∧
      (systemBridgeAccountId H ∉ tx.signers H → s'.bridgeAccount H =
        { s.bridgeAccount H with balance := (s.bridgeAccount H).balance + Bridge.toU128 w.value }) := by
  obtain ⟨ptx, pk, rfl, hprogram, hread⟩ := extractBridgeWithdrawData_some hextract
  have hdiff := LeeTransaction.validateOnState_ok hvalid
  obtain ⟨hview, hfits⟩ := (fromPublicTransaction_ok hdiff).withdraw hruns hprogram hread howner
  obtain ⟨n, hn, hkept⟩ := V03State.applyStateDiff_bridge hdiff happly
  rw [hview] at hn hkept
  constructor
  · have hamount := w.value.toNat_lt
    rw [hn]
    simp only [Bridge.toU128, BitVec.toNat_add, BitVec.toNat_ofNat]
    omega
  · intro hsigner
    rw [hn, hkept hsigner]

/-! ## A block -/

variable (H cfg height now prevBlockHash) in
/-- What the users' transactions of a build add to the bridge account's balance. -/
def userGain : MemPool → Building → Int
  | [], _ => 0
  | item :: rest, b =>
    match takeItem H cfg height now prevBlockHash b item with
    | .deferred => 0
    | .skipped => userGain rest b
    | .included b' =>
      (if item.1 = .user then
        ((b'.state.bridgeAccount H).balance.toNat : Int) - ((b.state.bridgeAccount H).balance.toNat : Int) else 0) +
      if b'.validTransactions.length ≥ cfg.maxNumTxInBlock then 0 else userGain rest b'
    | .stopped _ => 0

/-- What a list of withdrawals comes to. -/
def totalWithdrawn (withdrawals : List WithdrawArg) : Int := (withdrawals.map fun w => (w.value.toNat : Int)).sum

theorem totalWithdrawn_append (ws ws' : List WithdrawArg) :
    totalWithdrawn (ws ++ ws') = totalWithdrawn ws + totalWithdrawn ws' := by
  simp [totalWithdrawn]

/-- A user's transaction that is included pays for its withdrawal, if it makes one. -/
theorem takeUser_backed (hruns : RunsBridge H) {b b' : Building} {tx : LeeTransaction}
    (howner : (b.state.bridgeAccount H).programOwner = H.authenticatedTransfer.id)
    (h : takeUser H cfg height now b tx = .included b') :
    (b'.state.bridgeAccount H).programOwner = H.authenticatedTransfer.id ∧
      totalWithdrawn b'.withdrawals ≤ totalWithdrawn b.withdrawals +
        (((b'.state.bridgeAccount H).balance.toNat : Int) - ((b.state.bridgeAccount H).balance.toNat : Int)) := by
  unfold takeUser at h
  split at h
  next => cases h
  next diff hvalid =>
    split at h
    next => cases h
    next withdraw hextract =>
      split at h
      next => cases h
      next s hs =>
        cases h
        have happly := expect_ok_iff.mp hs
        obtain ⟨hkept, hle⟩ := V03State.user_bridge hvalid happly
        refine ⟨hkept.trans howner, ?_⟩
        rw [totalWithdrawn_append]
        cases withdraw with
        | none =>
          rw [BitVec.le_def] at hle
          simp only [Option.toList_none, totalWithdrawn, List.map_nil, List.sum_nil]
          omega
        | some w =>
          have hpaid := (withdrawal_applied hruns howner hvalid hextract happly).1
          simp only [Option.toList_some, totalWithdrawn, List.map_cons, List.map_nil, List.sum_cons, List.sum_nil]
          omega

/-- A transaction of the sequencer's makes no withdrawal. -/
theorem takeSequencer_backed (hruns : RunsBridge H) {b b' : Building} {tx : LeeTransaction}
    (howner : (b.state.bridgeAccount H).programOwner = H.authenticatedTransfer.id)
    (h : takeSequencer H height now b tx = .included b') :
    (b'.state.bridgeAccount H).programOwner = H.authenticatedTransfer.id ∧ b'.withdrawals = b.withdrawals := by
  unfold takeSequencer at h
  split at h
  next =>
    split at h
    next => cases h
    next s hs =>
      cases h
      exact ⟨V03State.sequencer_bridge hruns.transfer_ne_default howner (V03State.execute_ok_iff.mp hs), rfl⟩
  next => cases h

/-- An included transaction keeps the bridge account with the transfer program, and its withdrawal is paid in. -/
theorem takeItem_backed (hruns : RunsBridge H) {b b' : Building} {item : TransactionOrigin × LeeTransaction}
    (howner : (b.state.bridgeAccount H).programOwner = H.authenticatedTransfer.id)
    (h : takeItem H cfg height now prevBlockHash b item = .included b') :
    (b'.state.bridgeAccount H).programOwner = H.authenticatedTransfer.id ∧
      totalWithdrawn b'.withdrawals ≤ totalWithdrawn b.withdrawals +
        if item.1 = .user then
          ((b'.state.bridgeAccount H).balance.toNat : Int) - ((b.state.bridgeAccount H).balance.toNat : Int) else 0 := by
  unfold takeItem at h
  split at h
  next => cases h
  next =>
    split at h
    next horigin =>
      rw [if_pos horigin]
      exact takeUser_backed hruns howner h
    next horigin =>
      obtain ⟨howner', hnone⟩ := takeSequencer_backed hruns howner h
      rw [if_neg (by rw [horigin]; decide), hnone, Int.add_zero]
      exact ⟨howner', Int.le_refl _⟩

/-- **The withdrawals of a build are covered by what its users' transactions pay in.** -/
theorem buildLoop_backed (hruns : RunsBridge H) : ∀ {mempool : MemPool} {b : Building} {rest : MemPool} {b' : Building}
    {outcome : Except Fault Unit}, buildLoop H cfg height now prevBlockHash mempool b = (rest, b', outcome) →
      (b.state.bridgeAccount H).programOwner = H.authenticatedTransfer.id →
        totalWithdrawn b'.withdrawals ≤
          totalWithdrawn b.withdrawals + userGain H cfg height now prevBlockHash mempool b
  | [], b, rest, b', outcome, h, _ => by
    cases h
    simp [userGain]
  | item :: mempool, b, rest, b', outcome, h, howner => by
    unfold buildLoop at h
    split at h
    next hitem =>
      cases h
      rw [userGain, hitem]
      simp
    next hitem =>
      rw [userGain, hitem]
      exact buildLoop_backed hruns h howner
    next b₁ hitem =>
      obtain ⟨howner₁, hstep⟩ := takeItem_backed hruns howner hitem
      rw [userGain, hitem]
      dsimp only
      split at h
      next hfull =>
        cases h
        rw [if_pos hfull, Int.add_zero]
        exact hstep
      next hroom =>
        have ih := buildLoop_backed hruns h howner₁
        rw [if_neg hroom]
        omega
    next hitem =>
      cases h
      rw [userGain, hitem]
      simp

variable (cfg height now prevBlockHash) in
/-- **Withdrawals are backed** in every ledger of a node: each pays its amount into the bridge account and changes
nothing else of it, and the withdrawals of a block are covered by what its users' transactions pay in. -/
theorem withdrawals_backed (hruns : RunsBridge H) (hclock : systemBridgeAccountId H ∉ clockProgramAccountIds)
    {b : Building} (hstate : FromGenesis H b.state) :
    (∀ tx diff w s', tx.validateOnState H b.state height now = .ok diff →
      extractBridgeWithdrawData H cfg tx = .ok (.some w) → b.state.applyStateDiff H diff = .some s' →
        (s'.bridgeAccount H).balance.toNat = (b.state.bridgeAccount H).balance.toNat + w.value.toNat ∧
        (systemBridgeAccountId H ∉ tx.signers H → s'.bridgeAccount H =
          { b.state.bridgeAccount H with balance := (b.state.bridgeAccount H).balance + Bridge.toU128 w.value })) ∧
    ∀ mempool rest b' outcome, b.withdrawals = [] →
      buildLoop H cfg height now prevBlockHash mempool b = (rest, b', outcome) →
        totalWithdrawn b'.withdrawals ≤ userGain H cfg height now prevBlockHash mempool b := by
  have howner := hstate.bridge_owner hruns.transfer_ne_default hclock
  constructor
  · intro tx diff w s' hvalid hextract happly
    exact withdrawal_applied hruns howner hvalid hextract happly
  · intro mempool rest b' outcome hnone h
    have hcovered := buildLoop_backed hruns h howner
    rw [hnone] at hcovered
    simpa [totalWithdrawn] using hcovered

end

namespace Sample

theorem nodeHost_runsBridge (script : Reference.Script) : RunsBridge (nodeHost script) where
  guest_bridge := by
    intro caller pre data out h
    exact h
  guest_transfer := by
    intro caller pre data out h
    exact (Reference.host _).guest_transfer caller pre data out h
  transfer_ne_default := (Reference.host script).transfer_ne_default

def payerKey : PublicKey := ByteVec.fill 32 3

def payer : AccountId := accountIdFromPublicKey Sha256.hash payerKey

/-- A withdrawal of 5 by that account. -/
def withdrawal : PublicTransaction :=
  Reference.signed payerKey 0 Reference.bridgeId [payer, systemBridgeAccountId idleHost]
    (Bridge.writeBridge (.withdraw 5 (ByteVec.fill 32 2)))

def withdrawHost : Host :=
  nodeHost { programs := fun _ => Reference.idle, signatures := Reference.signaturesOf [withdrawal] }

end Sample

open Sequencer.Sample in
/-- The withdrawal right after genesis, where the account has 40. -/
theorem withdrawal_of_five_backed : ∃ s diff s',
    newWithGenesisAccounts withdrawHost [(payer, 40)] [] 0 = .some s ∧
    (LeeTransaction.publicTx withdrawal).validateOnState withdrawHost s 2 5 = .ok diff ∧
    s.applyStateDiff withdrawHost diff = .some s' ∧ (s'.bridgeAccount withdrawHost).balance.toNat = 5 ∧
    totalWithdrawn (buildLoop withdrawHost cfg 2 5 (ByteVec.fill 32 0) [(.user, .publicTx withdrawal)]
      ⟨s, [], [], []⟩).2.1.withdrawals ≤
      userGain withdrawHost cfg 2 5 (ByteVec.fill 32 0) [(.user, .publicTx withdrawal)] ⟨s, [], [], []⟩ := by
  have hruns : RunsBridge withdrawHost := nodeHost_runsBridge _
  have hclock : systemBridgeAccountId withdrawHost ∉ clockProgramAccountIds := by
    decide +kernel
  have hextract : extractBridgeWithdrawData withdrawHost cfg (.publicTx withdrawal) =
      .ok (.some ⟨5, ofLe (List.replicate 32 2)⟩) := by
    decide +kernel
  have happlies : (newWithGenesisAccounts withdrawHost [(payer, 40)] [] 0).any (fun s =>
      ((LeeTransaction.publicTx withdrawal).validateOnState withdrawHost s 2 5).toOption.any (fun diff =>
        (s.applyStateDiff withdrawHost diff).isSome && decide ((s.bridgeAccount withdrawHost).balance = 0))) = true := by
    rw [withdrawHost, Reference.nodeHost_packed, Reference.signaturesOf_packed]
    decide +kernel
  obtain ⟨s, hs, hrest⟩ := (Option.any_eq_true _ _).mp happlies
  obtain ⟨diff, hdiff, hafter⟩ := (Option.any_eq_true _ _).mp hrest
  rw [Bool.and_eq_true, decide_eq_true_eq] at hafter
  obtain ⟨hsome, hzero⟩ := hafter
  obtain ⟨s', hs'⟩ := Option.isSome_iff_exists.mp hsome
  have hvalid := toOption_eq_some.mp hdiff
  obtain ⟨hone, hblock⟩ := withdrawals_backed cfg 2 5 (ByteVec.fill 32 0) hruns hclock
    (b := ⟨s, [], [], []⟩) (.genesis hs)
  have hpaid := (hone _ diff _ s' hvalid hextract hs').1
  dsimp only at hpaid
  rw [hzero] at hpaid
  refine ⟨s, diff, s', hs, hvalid, hs', hpaid, ?_⟩
  cases hloop : buildLoop withdrawHost cfg 2 5 (ByteVec.fill 32 0) [(.user, .publicTx withdrawal)] ⟨s, [], [], []⟩ with
  | mk rest tail => exact hblock _ rest tail.1 tail.2 rfl hloop

end Lez.Sequencer
