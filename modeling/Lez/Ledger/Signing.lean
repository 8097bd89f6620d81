/-
What signing does to an account that nobody has claimed. Its nonce moves and
its owner stays the default, so it is no longer `Account::default()`: rule 7
of `validate_execution` refuses every output that names it from then on, and
`Initialize` refuses it too. `Claimable` is the property and the theorem says
exactly when it holds: the account has not signed yet.
-/
import Lez.Ledger.Ownership
import Lez.Trace.Chain

namespace Lez

/-- Some call of the transaction has the account among its pre-states. -/
def Names (H : Host) (s : V03State) (blockId : BlockId) (timestamp : Timestamp) (tx : PublicTransaction)
    (id : AccountId) : Prop :=
  ∃ e ∈ publicCalls H s blockId timestamp tx, id ∈ e.accountIds

/-- Some transaction with the account in it is still accepted. -/
def Claimable (H : Host) (s : V03State) (id : AccountId) : Prop :=
  ∃ tx blockId timestamp s', s.transition H (.publicTx tx) blockId timestamp = .some s' ∧
    Names H s blockId timestamp tx id

/-- An account with a nonce and no owner is in no call. -/
theorem Effects.unnamed {isPublic : AccountId → Prop} {es : List Executed} {σ σ' : View} {id : AccountId}
    (h : Effects isPublic es σ σ') (hpub : isPublic id) (hunowned : (σ id).programOwner = defaultProgramId)
    (hnonce : (σ id).nonce ≠ 0) : ∀ e ∈ es, id ∉ e.accountIds := by
  induction h with
  | nil => simp
  | @cons e es σ τ σ' heff _ ih =>
    have hnot : id ∉ e.accountIds := by
      intro hid
      obtain ⟨pre, post, -, -, -, -, hrules, -⟩ := heff.named hid hpub
      have hdefault := hrules.default (hrules.owner.trans hunowned)
      exact hnonce (by rw [hdefault]; rfl)
    have hsame : τ id = σ id := heff.frame id fun hm => hnot hm.1
    intro e' he'
    rcases List.mem_cons.mp he' with rfl | he'
    · exact hnot
    · exact ih (hsame ▸ hunowned) (hsame ▸ hnonce) e' he'

section
variable {H : Host} {s s' : V03State} {id : AccountId}

theorem unclaimable_of_nonce (hunowned : (s.getAccountById id).programOwner = defaultProgramId)
    (hnonce : (s.getAccountById id).nonce ≠ 0) : ¬Claimable H s id := by
  rintro ⟨tx, blockId, timestamp, s', htx, e, he, hid⟩
  obtain ⟨diff, hok, -⟩ := V03State.settle_eq_some.mp htx
  exact (fromPublicTransaction_ok hok).exec.effects.unnamed trivial hunowned hnonce e he hid

/-! ## Runs from genesis -/

/-- The signatures an account has given over a chain of public transactions
are its nonce. -/
theorem Chain.public_nonce {txs : List PublicTransaction} : ∀ {s : V03State},
    Chain H s (txs.map .publicTx) s' → (s'.getAccountById id).nonce.toNat =
      (s.getAccountById id).nonce.toNat + (txs.flatMap fun tx => signerAccountIds H tx.signaturesAndPublicKeys).count id := by
  induction txs with
  | nil =>
    intro s h
    cases h
    simp
  | cons tx txs ih =>
    intro s h
    cases h with
    | cons hstep hrest =>
      rw [ih hrest, publicTx_nonce hstep, List.flatMap_cons, List.count_append]
      omega

theorem Chain.publicReachable {txs : List PublicTransaction} : ∀ {s : V03State},
    Chain H s (txs.map .publicTx) s' → PublicReachable H s s' := by
  induction txs with
  | nil =>
    intro s h
    cases h
    exact .refl
  | cons tx txs ih =>
    intro s h
    cases h with
    | cons hstep hrest => exact (ih hrest).head ⟨tx, _, _, hstep⟩

/-- A state whose private half can take another batch and which has the transfer program. -/
structure Ready (H : Host) (s : V03State) : Prop where
  root : s.commitmentSet.merkleTree.root.isSome
  transfer : (s.programs.lookup H.authenticatedTransfer.id).isSome

theorem genesis_ready {initialData : List (AccountId × U128)} {initialPrivate : List (Commitment × Nullifier)}
    {genesis : Timestamp} (h : newWithGenesisAccounts H initialData initialPrivate genesis = .some s) : Ready H s := by
  refine ⟨?_, genesis_transfer_deployed h⟩
  simp only [newWithGenesisAccounts, Option.bind_eq_bind, Option.bind_eq_some_iff] at h
  obtain ⟨_, -, _, -, _, hset, h⟩ := h
  rw [← Option.some.inj h]
  exact CommitmentSet.extend_root hset

theorem Chain.ready {txs : List LeeTransaction} (h : Chain H s txs s') (hs : Ready H s) : Ready H s' := by
  refine h.invariant ?_ hs
  intro u tx blockId timestamp v hu hstep
  obtain ⟨diff, -, happly⟩ := V03State.settle_eq_some.mp hstep
  have happlied := applyStateDiff_applied happly
  exact ⟨CommitmentSet.extend_root happlied.commitments, happlied.programs _ hu.transfer⟩

/-- In a state that public transactions reach from genesis, an account with
no owner and no nonce is `Account::default()`. -/
theorem Chain.default_of_unowned {initialData : List (AccountId × U128)}
    {initialPrivate : List (Commitment × Nullifier)} {genesis : Timestamp} {txs : List PublicTransaction}
    (hgenesis : newWithGenesisAccounts H initialData initialPrivate genesis = .some s)
    (htransfer : H.authenticatedTransfer.id ≠ defaultProgramId) (hclock : H.clock.id ≠ defaultProgramId)
    (h : Chain H s (txs.map .publicTx) s') (hunowned : (s'.getAccountById id).programOwner = defaultProgramId)
    (hnonce : (s'.getAccountById id).nonce = 0) : s'.getAccountById id = Account.default := by
  obtain ⟨howner, hbal, hdata⟩ := h.publicReachable.unowned hunowned
  have hfresh : s.getAccountById id = Account.default := by
    unfold V03State.getAccountById Table.getD at howner ⊢
    cases hl : s.publicState.lookup id with
    | none => rfl
    | some a =>
      rw [hl, Option.getD_some] at howner
      rcases (genesis_lookup hgenesis hl).1 with ho | ho
      · exact absurd (ho.symm.trans howner) htransfer
      · exact absurd (ho.symm.trans howner) hclock
  rw [hfresh] at hbal hdata
  generalize s'.getAccountById id = a at *
  cases a
  simp only at hunowned hnonce hbal hdata
  rw [hunowned, hnonce, hbal, hdata]
  rfl

end

/-- The executor runs `Initialize` as modelled. -/
def RunsInitialize (H : Host) (C : Codec AuthenticatedTransfer.Instruction) : Prop :=
  ∀ pre, H.guest H.authenticatedTransfer.id H.authenticatedTransfer.id .none pre (C.encode .initAccount) =
    AuthenticatedTransfer.main C H.authenticatedTransfer.id .none pre (C.encode .initAccount)

/-- The message that initializes an account which has not signed yet. -/
def initializeMessage (H : Host) (C : Codec AuthenticatedTransfer.Instruction) (id : AccountId) :
    PublicTransaction.Message :=
  ⟨H.authenticatedTransfer.id, [id], [0], C.encode .initAccount⟩

/-- What the program answers it with. -/
def initializeOutput (H : Host) (C : Codec AuthenticatedTransfer.Instruction) (id : AccountId) : ProgramOutput :=
  .new H.authenticatedTransfer.id .none (C.encode .initAccount) [⟨Account.default, true, id⟩]
    [.newClaimed Account.default .authorized]

section
variable {H : Host} {s s' : V03State} {id : AccountId}
variable {C : Codec AuthenticatedTransfer.Instruction} {key : PublicKey} {sig : Signature} {blockId : BlockId}
  {timestamp : Timestamp}

theorem executeCall_initialize (hruns : RunsInitialize H C) (hready : Ready H s)
    (hdefault : s.getAccountById (accountIdFromPublicKey H.sha256 key) = Account.default) :
    let id := accountIdFromPublicKey H.sha256 key
    let tx : PublicTransaction := ⟨initializeMessage H C id, [(sig, key)]⟩
    executeCall H s blockId timestamp ∅ (initialCall H s tx).1 (initialCall H s tx).2 =
      .ok (initializeOutput H C id,
        Table.writeAll ∅ [(id, { Account.default with programOwner := H.authenticatedTransfer.id })]) := by
  intro id tx
  obtain ⟨prog, hprog⟩ := Option.isSome_iff_exists.mp hready.transfer
  have hid := s.keyed _ _ hprog
  have hcall : initialCall H s tx =
      (⟨H.authenticatedTransfer.id, [⟨Account.default, true, id⟩], C.encode .initAccount, []⟩, ⟨.none, {id}⟩) := by
    simp [initialCall, tx, initializeMessage, signedPreState, signerAccountIds, id, hdefault]
  have hmain : H.guest prog.id prog.id .none [⟨Account.default, true, id⟩] (C.encode .initAccount) =
      .ok (initializeOutput H C id) := by
    rw [hid, hruns]
    simp [initializeOutput, AuthenticatedTransfer.main, C.decode_encode, expect, AuthenticatedTransfer.process,
      AuthenticatedTransfer.initializeAccount, ensure, bind, Except.bind, pure, Except.pure, Functor.map, Except.map]
  have hpre : checkPreState H s ∅ ⟨H.authenticatedTransfer.id, [⟨Account.default, true, id⟩], C.encode .initAccount, []⟩
      ⟨.none, {id}⟩ ⟨Account.default, true, id⟩ = .ok () := by
    have hexpected : (∅ : Diff).getD id (s.getAccountById id) = Account.default := hdefault
    simp [checkPreState, hexpected, bind_ok_iff, ensure_ok_iff, CallerData.authorizes]
  have hvalid : validateExecution [⟨Account.default, true, id⟩] [.newClaimed Account.default .authorized]
      H.authenticatedTransfer.id = .ok () := by
    simp only [validateExecution, bind_ok_iff, ensure_ok_iff, expect_ok_iff]
    refine ⟨(), rfl, (), rfl, (), forM_ok_iff.mpr ?_, ⟨0, 0⟩, rfl, ⟨0, 0⟩, rfl, rfl⟩
    simp [validateAccount, AccountPostState.newClaimed, bind_ok_iff, ensure_ok_iff]
  have hsettle : settleClaim H H.authenticatedTransfer.id
      (⟨Account.default, true, id⟩, .newClaimed Account.default .authorized) =
        .ok (id, { Account.default with programOwner := H.authenticatedTransfer.id }) := by
    simp only [settleClaim, AccountPostState.newClaimed, bind_ok_iff, ensure_ok_iff, pure_ok_iff]
    exact ⟨(), rfl, (), trivial, trivial⟩
  rw [hcall]
  simp only [executeCall, bind_ok_iff, expect_ok_iff, mapError_ok_iff, ensure_ok_iff, pure_ok_iff]
  refine ⟨prog, hprog, _, hmain, (), ?_, (), rfl, (), rfl, (), hvalid, (), ⟨rfl, rfl⟩,
    [(id, { Account.default with programOwner := H.authenticatedTransfer.id })], ?_, rfl⟩
  · exact forM_ok_iff.mpr (by simpa [initializeOutput, ProgramOutput.new] using hpre)
  · simp [initializeOutput, ProgramOutput.new, hsettle, bind, Except.bind, pure, Except.pure]

/-- An account that holds nothing can be initialized by whoever has its key. -/
theorem claimable_of_default (hruns : RunsInitialize H C) (htransfer : H.authenticatedTransfer.id ≠ defaultProgramId)
    (hready : Ready H s) (hkey : id = accountIdFromPublicKey H.sha256 key)
    (hsign : ∀ hash, ∃ sig, H.signatureValid sig hash key = true) (hdefault : s.getAccountById id = Account.default) :
    Claimable H s id := by
  subst hkey
  obtain ⟨sig, hsig⟩ := hsign ((initializeMessage H C (accountIdFromPublicKey H.sha256 key)).hash H)
  let id := accountIdFromPublicKey H.sha256 key
  let tx : PublicTransaction := ⟨initializeMessage H C id, [(sig, key)]⟩
  let written : Diff := Table.writeAll ∅ [(id, { Account.default with programOwner := H.authenticatedTransfer.id })]
  have hcall : executeCall H s 0 0 ∅ (initialCall H s tx).1 (initialCall H s tx).2 = .ok (initializeOutput H C id, written) :=
    executeCall_initialize hruns hready hdefault
  have hrun : runCalls H s 0 0 (maxNumberChainedCalls + 1) [initialCall H s tx] ∅ = .ok written := by
    rw [maxNumberChainedCalls, runCalls, bind_ok_iff]
    exact ⟨_, hcall, rfl⟩
  have hok : fromPublicTransaction H tx s 0 0 = .ok ⟨[id], written, [], [], .none⟩ := by
    simp only [fromPublicTransaction, bind_ok_iff, ensure_ok_iff, pure_ok_iff]
    refine ⟨(), rfl, (), rfl, (), ?_, (), ?_, written, hrun, (), ?_, rfl⟩
    · simpa [signaturesAreValidFor, tx, id] using hsig
    · refine forM_ok_iff.mpr ?_
      simp [tx, initializeMessage, signerAccountIds, ensure_ok_iff, hdefault]
      rfl
    · refine forM_ok_iff.mpr ?_
      rintro ⟨id', a⟩ hpost
      have hlookup := (Table.lookup_writeAll_some (Table.mem_toPairs.mp hpost)).resolve_right (by simp)
      cases List.mem_singleton.mp hlookup
      exact ensure_ok_iff.mpr (.inr (.inr htransfer))
  have hnames : Names H s 0 0 tx id := by
    refine ⟨(initialPending H s tx).executed (initializeOutput H C id), ?_, List.mem_singleton.mpr rfl⟩
    rw [publicCalls, maxNumberChainedCalls, traceCalls,
      show executeCall H s 0 0 ∅ (initialPending H s tx).call (initialPending H s tx).caller = _ from hcall]
    exact List.mem_cons_self
  have happly : ∃ s', s.applyStateDiff H ⟨[id], written, [], [], .none⟩ = .some s' := by
    obtain ⟨digest, hdigest⟩ := Option.isSome_iff_exists.mp hready.root
    have hlookup : written.lookup id = .some { Account.default with programOwner := H.authenticatedTransfer.id } :=
      Table.lookup_writeAll_mem (by simp) List.mem_cons_self
    have hzero : ((s.publicState.writeAll written.toPairs).getD id Account.default).nonce.toNat + 1 < 2 ^ 128 := by
      rw [Table.getD_writeAll_toPairs, Table.getD, hlookup, Option.getD_some]
      exact (by decide : (0 : U128).toNat + 1 < 2 ^ 128)
    simp only [V03State.applyStateDiff, List.foldlM_cons, List.foldlM_nil, incrementNonce, if_pos hzero,
      CommitmentSet.extend, hdigest, Option.bind_eq_bind, Option.bind_some, pure]
    exact ⟨_, rfl⟩
  obtain ⟨s', hs'⟩ := happly
  exact ⟨tx, 0, 0, s', V03State.settle_eq_some.mpr ⟨_, hok, hs'⟩, hnames⟩

/-- **An account without an owner is usable until it signs.** In a state that
public transactions reach from genesis, whoever has the key of an unclaimed
account can have a transaction with it accepted exactly when none of the
transactions so far carries its signature. -/
theorem claimable_iff_unsigned {initialData : List (AccountId × U128)}
    {initialPrivate : List (Commitment × Nullifier)} {genesis : Timestamp} {txs : List PublicTransaction}
    (hruns : RunsInitialize H C) (htransfer : H.authenticatedTransfer.id ≠ defaultProgramId)
    (hclock : H.clock.id ≠ defaultProgramId)
    (hgenesis : newWithGenesisAccounts H initialData initialPrivate genesis = .some s)
    (hchain : Chain H s (txs.map .publicTx) s') (hkey : id = accountIdFromPublicKey H.sha256 key)
    (hsign : ∀ hash, ∃ sig, H.signatureValid sig hash key = true)
    (hunowned : (s'.getAccountById id).programOwner = defaultProgramId) :
    Claimable H s' id ↔ ∀ tx ∈ txs, id ∉ signerAccountIds H tx.signaturesAndPublicKeys := by
  have hcount : (s'.getAccountById id).nonce.toNat = (s.getAccountById id).nonce.toNat +
      (txs.flatMap fun tx => signerAccountIds H tx.signaturesAndPublicKeys).count id := hchain.public_nonce
  have hstart : (s.getAccountById id).nonce = 0 := by
    unfold V03State.getAccountById Table.getD
    cases hl : s.publicState.lookup id with
    | none => rfl
    | some a => exact (genesis_lookup hgenesis hl).2
  rw [hstart, show (0 : U128).toNat = 0 from rfl, Nat.zero_add] at hcount
  constructor
  · intro hclaimable tx htx hsigned
    refine unclaimable_of_nonce hunowned ?_ hclaimable
    intro hzero
    rw [hzero, show (0 : U128).toNat = 0 from rfl] at hcount
    exact List.count_eq_zero.mp hcount.symm (List.mem_flatMap.mpr ⟨tx, htx, hsigned⟩)
  · intro hunsigned
    have hzero : (s'.getAccountById id).nonce = 0 := by
      refine BitVec.eq_of_toNat_eq ?_
      rw [hcount]
      refine List.count_eq_zero.mpr ?_
      intro hmem
      obtain ⟨tx, htx, hsigned⟩ := List.mem_flatMap.mp hmem
      exact hunsigned tx htx hsigned
    exact claimable_of_default hruns htransfer (hchain.ready (genesis_ready hgenesis)) hkey hsign
      (hchain.default_of_unowned hgenesis htransfer hclock hunowned hzero)

end

section
open Reference

namespace Sample

/-- A host where whoever has a key can sign with it: the signature is the
hash and the key. -/
def signingHost : Host :=
  { (host {}).toHost with signatureValid := fun sig hash key => decide (sig.toList = hash.toList ++ key.toList) }

def signedWith (key : PublicKey) (message : PublicTransaction.Message) : PublicTransaction :=
  ⟨message, [(⟨(message.hash signingHost).toList ++ key.toList, by simp⟩, key)]⟩

theorem signingHost_signs (key : PublicKey) : ∀ hash, ∃ sig, signingHost.signatureValid sig hash key = true := by
  intro hash
  exact ⟨⟨hash.toList ++ key.toList, by simp⟩, decide_eq_true rfl⟩

/-- Of the programs of genesis only the transfer program answers here. -/
theorem signingHost_guest {id : ProgramId} {caller : Option ProgramId} {pre : List AccountWithMetadata}
    {data : InstructionData} {out : ProgramOutput} (hmsig : id ≠ msigId)
    (h : signingHost.guest id id caller pre data = .ok out) : out.preStates = pre := by
  change guest {} id id caller pre data = .ok out at h
  unfold guest at h
  rw [if_neg hmsig] at h
  split at h
  next =>
    obtain ⟨_, _, -, -, rfl⟩ := AuthenticatedTransfer.main_ok h
    rfl
  next => cases h

end Sample

open Sample

theorem empty_transfer_bricks_signer :
    ∃ s₀ s, newWithGenesisAccounts signingHost [(shop, 0)] [] 0 = .some s₀ ∧
      s₀.getAccountById onlooker = Account.default ∧
      Chain signingHost s₀ ([signedWith onlookerKey emptyTransfer.message].map .publicTx) s ∧
      (s.getAccountById onlooker).programOwner = defaultProgramId ∧
      (∀ hash, ∃ sig, signingHost.signatureValid sig hash onlookerKey = true) ∧
      ¬Claimable signingHost s onlooker ∧
      ∀ tx blockId timestamp, onlooker ∈ tx.message.accountIds →
        s.transition signingHost (.publicTx tx) blockId timestamp = .none := by
  have hrun : (newWithGenesisAccounts signingHost [(shop, 0)] [] 0).any (fun s₀ =>
      (s₀.transition signingHost (.publicTx (signedWith onlookerKey emptyTransfer.message)) 0 0).any fun s =>
        decide (s₀.getAccountById onlooker = Account.default ∧
          (s.getAccountById onlooker).programOwner = defaultProgramId ∧ (s.getAccountById onlooker).nonce ≠ 0 ∧
          s.programs.lookup msigId = .none)) = true := by
    decide +kernel
  obtain ⟨s₀, hs₀, h⟩ := (Option.any_eq_true _ _).mp hrun
  obtain ⟨s, hs, h⟩ := (Option.any_eq_true _ _).mp h
  obtain ⟨hfresh, hunowned, hnonce, hmsig⟩ := of_decide_eq_true h
  refine ⟨s₀, s, hs₀, hfresh, .cons hs (.nil s), hunowned, signingHost_signs _,
    unclaimable_of_nonce hunowned hnonce, ?_⟩
  intro tx blockId timestamp hid
  refine Option.eq_none_iff_forall_ne_some.mpr ?_
  intro s' htx
  refine unclaimable_of_nonce hunowned hnonce ⟨tx, blockId, timestamp, s', htx, ?_⟩
  -- the first call is of a program that echoes its accounts
  obtain ⟨diff, hok, -⟩ := V03State.settle_eq_some.mp htx
  have hexec := (fromPublicTransaction_ok hok).exec
  generalize hcalls : publicCalls signingHost s blockId timestamp tx = calls at hexec
  cases hexec with
  | @cons p rest out es d d' d'' hcall hrest =>
    have hchecks := executeCall_ok hcall
    have hother : (initialPending signingHost s tx).call.programId ≠ msigId := by
      intro heq
      have hdeployed := hchecks.deployed
      rw [heq, hmsig] at hdeployed
      cases hdeployed
    have hecho := signingHost_guest hother hchecks.ran
    refine ⟨(initialPending signingHost s tx).executed out, hcalls ▸ List.mem_cons_self, ?_⟩
    have hids : ((initialPending signingHost s tx).executed out).accountIds = tx.message.accountIds := by
      simp [Executed.accountIds, Pending.executed, hecho, initialPending, initialCall, signedPreState,
        Function.comp_def]
    rw [hids]
    exact hid

theorem fresh_key_claimable :
    ∃ s₀ s, newWithGenesisAccounts signingHost [(shop, 0), (payer, 9)] [] 0 = .some s₀ ∧
      Chain signingHost s₀ ([signedWith payerKey purchase.message].map .publicTx) s ∧
      Claimable signingHost s onlooker := by
  have hrun : (newWithGenesisAccounts signingHost [(shop, 0), (payer, 9)] [] 0).any (fun s₀ =>
      (s₀.transition signingHost (.publicTx (signedWith payerKey purchase.message)) 0 0).any fun s =>
        decide ((s.getAccountById onlooker).programOwner = defaultProgramId ∧
          onlooker ∉ signerAccountIds signingHost (signedWith payerKey purchase.message).signaturesAndPublicKeys)) =
      true := by
    decide +kernel
  obtain ⟨s₀, hs₀, h⟩ := (Option.any_eq_true _ _).mp hrun
  obtain ⟨s, hs, h⟩ := (Option.any_eq_true _ _).mp h
  obtain ⟨hunowned, hother⟩ := of_decide_eq_true h
  have hruns : RunsInitialize signingHost Serde.transferCodec := by
    intro pre
    change guest {} transferId transferId .none pre _ = _
    rw [guest_transferId]
    rfl
  have hchain : Chain signingHost s₀ ([signedWith payerKey purchase.message].map .publicTx) s := .cons hs (.nil s)
  refine ⟨s₀, s, hs₀, hchain, ?_⟩
  refine (claimable_iff_unsigned hruns (by decide) (by decide) hs₀ hchain rfl (signingHost_signs _) hunowned).mpr ?_
  intro tx htx
  rw [List.mem_singleton.mp htx]
  exact hother

end

end Lez
