/-
What takes from an account of the transfer program: a `Transfer` that has it
authorized and first. If the account derives from a program and a seed, that
authority came down the path of the call from an executed call of the program
that passed the seed (`PublicAccepted.seed_passed`), whatever programs are in
between.
-/
import Lez.Ledger.Authorization
import Lez.State.Transition
import Lez.Trace.Msig

namespace Lez

namespace Executed

/-- A call that lowers the balance of an account. -/
def Lowers (e : Executed) (id : AccountId) : Prop :=
  ∃ pp ∈ e.changes, pp.1.accountId = id ∧ pp.2.account.balance < pp.1.account.balance

/-- `Transfer` of some amount out of the account. -/
def TransfersFrom (H : MsigHost) (e : Executed) (id : AccountId) : Prop :=
  e.program = H.authenticatedTransfer.id ∧ e.subject = .some id ∧
    ∃ amount, amount ≠ 0 ∧ H.codecs.transfer.decode e.call.instructionData = .some (.transfer amount)

/-- A call in the subtree of another. -/
def Below (e g : Executed) : Prop := ∃ c ∈ g.callees, c.2 <:+ e.path

end Executed

/-- The strings whose hashes are the accounts a transaction has authority over
and the derived account: no two of them may collide. -/
def authorityPreimages (tx : PublicTransaction) (calls : List Executed) (program : ProgramId) (seed : PdaSeed) :
    Set Bytes :=
  {q | q = publicPdaPreimage program seed ∨ (∃ sk ∈ tx.signaturesAndPublicKeys, q = publicKeyPreimage sk.2) ∨
    ∃ e ∈ calls, ∃ f ∈ e.path, ∃ sd ∈ f.call.pdaSeeds, q = publicPdaPreimage f.caller sd}

section
variable {H : Host} {s : V03State} {blockId : BlockId} {timestamp : Timestamp} {tx : PublicTransaction}
  {diff : StateDiff} {program : ProgramId} {seed : PdaSeed}

/-- Authority over a derived account came from its program passing its seed. -/
theorem PathAuthority.derived {calls : List Executed} {e : Executed} (he : e ∈ calls)
    (hfree : Set.InjOn H.sha256 (authorityPreimages tx calls program seed))
    (h : PathAuthority H.sha256 (signerAccountIds H tx.signaturesAndPublicKeys) e.path
      (forPublicPda H.sha256 program seed)) :
    ∃ f ∈ e.path, f.caller = program ∧ seed ∈ f.call.pdaSeeds := by
  rcases h with hsigner | ⟨f, hf, sd, hsd, heq⟩
  · obtain ⟨sk, hsk, heq⟩ := List.mem_map.mp hsigner
    have hpre := hfree (.inr (.inl ⟨sk, hsk, rfl⟩)) (.inl rfl) heq
    exact (publicPdaPreimage_ne_publicKeyPreimage hpre.symm).elim
  · have hpre := hfree (.inl rfl) (.inr (.inr ⟨e, he, f, hf, sd, hsd, rfl⟩)) heq
    obtain ⟨hcaller, hseed⟩ := publicPdaPreimage_inj hpre
    exact ⟨f, hf, hcaller.symm, hseed ▸ hsd⟩

/-- **A derived account is authorized below a call of its program that passed its seed.** -/
theorem PublicAccepted.seed_passed {e : Executed} (hacc : PublicAccepted H tx s blockId timestamp diff)
    (hfree : Set.InjOn H.sha256 (authorityPreimages tx (publicCalls H s blockId timestamp tx) program seed))
    (he : e ∈ publicCalls H s blockId timestamp tx)
    (hauth : ∃ a ∈ e.output.preStates, a.accountId = forPublicPda H.sha256 program seed ∧ a.isAuthorized = true) :
    ∃ g ∈ publicCalls H s blockId timestamp tx, ∃ f fs, g.program = program ∧ (f.call, f :: fs) ∈ g.callees ∧
      f :: fs <:+ e.path ∧ seed ∈ f.call.pdaSeeds := by
  obtain ⟨a, ha, haid, hflag⟩ := hauth
  have hpath := haid ▸ hacc.authority e he a ha hflag
  obtain ⟨f, hf, hcaller, hseed⟩ := hpath.derived he hfree
  obtain ⟨l, fs, hl⟩ := List.append_of_mem hf
  have hsuffix : f :: fs <:+ e.path := ⟨l, hl.symm⟩
  obtain ⟨g, hg, hcallee⟩ := ancestor_of_step hacc.parent _ e he rfl f fs hsuffix
  obtain ⟨-, hstep⟩ := Executed.mem_callees.mp hcallee
  refine ⟨g, hg, f, fs, ?_, hcallee, hsuffix, hseed⟩
  rw [← hcaller, (List.cons.inj hstep).1]

end

section
variable {H : MsigHost}

/-- What the transfer program lowers it transfers from, and has as authorized. -/
theorem Ran.lowers_transfers {e : Executed} {id : AccountId} (hran : Ran H e)
    (hp : e.program = H.authenticatedTransfer.id) (hlow : e.Lowers id) :
    e.TransfersFrom H id ∧ ∃ a ∈ e.output.preStates, a.accountId = id ∧ a.isAuthorized = true := by
  obtain ⟨pp, hmem, rfl, hlt⟩ := hlow
  obtain ⟨-, i, hi, hproc⟩ := hran.transferProcess hp
  obtain ⟨hauth, hhead, amount, hne, rfl⟩ := AuthenticatedTransfer.process_lowers hproc hmem hlt
  refine ⟨⟨hp, ?_, amount, hne, hi⟩, pp.1, (List.of_mem_zip hmem).1, rfl, hauth⟩
  rw [Executed.subject, Executed.accountIds, List.head?_map, hhead]
  rfl

/-- An account of the transfer program is lowered by the transfer program. -/
theorem CallEffect.lowered_by_owner {isPublic : AccountId → Prop} {e : Executed} {σ σ' : View} {id : AccountId}
    (h : CallEffect isPublic e σ σ') (hpub : isPublic id) (hlow : e.Lowers id) : e.program = (σ id).programOwner := by
  obtain ⟨⟨pre, post⟩, hmem, rfl, hlt⟩ := hlow
  dsimp only at hlt
  have hpre : pre.account = σ pre.accountId := h.pre pre (List.of_mem_zip hmem).1 hpub
  by_contra hne
  have hle := (h.valid.rules _ hmem).balance (by rw [hpre]; exact Ne.symm hne)
  exact absurd hlt (BitVec.not_lt.mpr hle)

/-- A transfer out of an account lowers it. -/
theorem Ran.transfer_lowers {e : Executed} {id : AccountId} (h : Ran H e) (ht : e.TransfersFrom H id) : e.Lowers id := by
  obtain ⟨hp, hsubject, amount, hne, hi⟩ := ht
  obtain ⟨sender, recipient, hpres, -, hle, -, hposts⟩ := h.transferred hp hi
  have hsender : sender.accountId = id := by simpa [Executed.subject, Executed.accountIds, hpres] using hsubject
  refine ⟨(sender, _), by rw [Executed.changes, hpres, hposts]; exact List.mem_cons_self, hsender, ?_⟩
  show sender.account.balance - amount < sender.account.balance
  have hpos : 0 < amount.toNat := Nat.pos_of_ne_zero fun h0 => hne (BitVec.eq_of_toNat_eq (by simpa using h0))
  rw [BitVec.lt_def, BitVec.toNat_sub_of_le (BitVec.le_def.mpr hle)]
  omega

/-- The transfer program makes no calls, so a step to it is the last of a path. -/
theorem step_to_transfer_is_last {calls : List Executed}
    (hparent : ∀ e ∈ calls, e.path = [] ∨ ∃ parent ∈ calls, (e.call, e.path) ∈ parent.callees)
    (hran : ∀ e ∈ calls, Ran H e) {e : Executed} (he : e ∈ calls) {f : Frame} {fs : List Frame}
    (hsuffix : f :: fs <:+ e.path) (hf : f.call.programId = H.authenticatedTransfer.id) : e.call = f.call := by
  have hcalled : ∀ g ∈ calls, g.path = f :: fs → g.call = f.call := by
    intro g hg hpath
    rcases hparent g hg with hnil | ⟨parent, -, hcallee⟩
    · rw [hnil] at hpath
      cases hpath
    · obtain ⟨-, hstep⟩ := Executed.mem_callees.mp hcallee
      rw [hpath] at hstep
      cases hstep
      rfl
  obtain ⟨l, hl⟩ := hsuffix
  rcases List.eq_nil_or_concat l with rfl | ⟨l, f', rfl⟩
  · exact hcalled e he hl.symm
  · exfalso
    have habove : f' :: f :: fs <:+ e.path := ⟨l, by rw [← hl]; simp⟩
    obtain ⟨g, hg, hcallee⟩ := ancestor_of_step hparent _ e he rfl f' (f :: fs) habove
    obtain ⟨hmem, hpath⟩ := Executed.mem_callees.mp hcallee
    have hg' : g.call = f.call := hcalled g hg (List.cons.inj hpath).2.symm
    have hp : g.program = H.authenticatedTransfer.id := by rw [Executed.program, hg', hf]
    rw [((hran g hg).transferProcess hp).1] at hmem
    cases hmem

/-- A sequence in which no call lowers an account leaves it no lower. -/
theorem Effects.not_lower {isPublic : AccountId → Prop} {es : List Executed} {σ σ' : View} {id : AccountId}
    (h : Effects isPublic es σ σ') (hno : ∀ e ∈ es, ¬e.Lowers id) : (σ id).balance ≤ (σ' id).balance := by
  induction h with
  | nil => exact BitVec.le_refl _
  | @cons e es σ τ σ' heff _ ih =>
    refine BitVec.le_trans ?_ (ih fun e' he' => hno e' (List.mem_cons_of_mem _ he'))
    rcases heff.touched id with hsame | ⟨pre, post, hmem, hpre, -, hσ, hτ, -, -⟩
    · rw [hsame]
      exact BitVec.le_refl _
    · have hle := BitVec.not_lt.mp fun hlt => hno e List.mem_cons_self ⟨_, hmem, hpre, hlt⟩
      rw [hτ, ← hσ]
      unfold AccountPostState.settled
      split <;> exact hle

/-- An account that ends lower was lowered by a call. -/
theorem transition_lowers {H : Host} {s s' : V03State} {tx : PublicTransaction} {blockId : BlockId}
    {timestamp : Timestamp} {id : AccountId} (h : s.transitionFromPublicTransaction H tx blockId timestamp = .some s')
    (hlt : (s'.getAccountById id).balance < (s.getAccountById id).balance) :
    ∃ e ∈ publicCalls H s blockId timestamp tx, e.Lowers id := by
  obtain ⟨diff, hok, happly⟩ := V03State.settle_eq_some.mp h
  by_contra hno
  push Not at hno
  obtain ⟨n, hn, -⟩ := applyStateDiff_account happly id
  rw [hn] at hlt
  exact absurd hlt (BitVec.not_lt.mpr ((fromPublicTransaction_ok hok).exec.effects.not_lower hno))

end

end Lez
