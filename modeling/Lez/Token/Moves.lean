/-
Single calls of the token program seen from one account. A holding that the
call does not have as authorized only grows, a definition it does not have as
authorized only shrinks; and what the three instructions that an exchange
uses do to the accounts they are about.
-/
import Lez.Token.Books

namespace Lez.Token

/-- How much a holding is of: a balance, a print balance, or the one copy. -/
def TokenHolding.amount : TokenHolding → Nat
  | fungible _ balance => balance.toNat
  | nftMaster _ printBalance => printBalance.toNat
  | nftPrintedCopy _ owned => owned.toNat

/-- The holding at an account of the token program. -/
def holdingIn (token : ProgramId) (σ : View) (id : AccountId) : Option TokenHolding :=
  ((σ id).ownedData token).bind TokenHolding.tryFrom

def definitionIn (token : ProgramId) (σ : View) (id : AccountId) : Option TokenDefinition :=
  ((σ id).ownedData token).bind TokenDefinition.tryFrom

theorem moveBetween_amount {amount : U128} {sh rh sh' rh' : TokenHolding}
    (h : moveBetween amount sh rh = .ok (sh', rh')) :
    sh'.amount + amount.toNat = sh.amount ∧ rh'.amount = rh.amount + amount.toNat := by
  cases sh with
  | fungible d₁ b₁ =>
    obtain ⟨d₂, b₂, rfl⟩ := moveBetween_from_fungible h
    obtain ⟨b₁', b₂', rfl, rfl, h₁, h₂⟩ := moveBetween_fungible h
    exact ⟨h₁, h₂⟩
  | nftMaster d₁ b₁ =>
    cases rh with
    | fungible | nftPrintedCopy => cases h
    | nftMaster d₂ b₂ =>
      simp only [moveBetween, bind_ok_iff, ensure_ok_iff, pure_ok_iff, Prod.mk.injEq] at h
      obtain ⟨-, rfl, -, rfl, rfl, rfl⟩ := h
      simp [TokenHolding.amount]
  | nftPrintedCopy d₁ o₁ =>
    cases rh with
    | fungible | nftMaster => cases h
    | nftPrintedCopy d₂ o₂ =>
      simp only [moveBetween, bind_ok_iff, ensure_ok_iff, pure_ok_iff, Prod.mk.injEq] at h
      obtain ⟨-, rfl, -, rfl, -, rfl, rfl, rfl⟩ := h
      exact ⟨rfl, rfl⟩

theorem mintTo_amount {amount : U128} {d d' : TokenDefinition} {h h' : TokenHolding}
    (hm : mintTo amount d h = .ok (d', h')) :
    h'.amount = h.amount + amount.toNat ∧ d'.supply .fungible = d.supply .fungible + amount.toNat := by
  obtain ⟨_, _, _, _, _, _, _, rfl, rfl, rfl, rfl, hs, hb⟩ := mintTo_ok hm
  exact ⟨hb, hs⟩

theorem burnFrom_supply {amount : U128} {d d' : TokenDefinition} {h h' : TokenHolding}
    (hb : burnFrom amount d h = .ok (d', h')) : d'.supply .fungible ≤ d.supply .fungible := by
  cases d with
  | nonFungible =>
    cases h with
    | fungible => cases hb
    | nftMaster =>
      simp only [burnFrom, bind_ok_iff, expect_ok_iff, pure_ok_iff, Prod.mk.injEq] at hb
      obtain ⟨_, -, _, -, rfl, -⟩ := hb
      exact le_rfl
    | nftPrintedCopy =>
      simp only [burnFrom, bind_ok_iff, ensure_ok_iff, expect_ok_iff, pure_ok_iff, Prod.mk.injEq] at hb
      obtain ⟨-, -, -, -, _, -, rfl, -⟩ := hb
      exact le_rfl
  | fungible =>
    cases h with
    | nftMaster | nftPrintedCopy => cases hb
    | fungible =>
      obtain ⟨_, _, _, _, _, hd, rfl, -, hs, -⟩ := burnFrom_fungible hb
      cases hd
      simp only [TokenDefinition.supply]
      omega

section
variable {e : Executed} {σ σ' : View} {token : ProgramId}

/-- What a call of the token program does with an account of its own: it leaves it, or writes its data. -/
theorem own_slot (heff : CallEffect (fun _ => True) e σ σ') (hp : e.program = token) (hne : token ≠ defaultProgramId)
    {id : AccountId} {data : Data} (hb : (σ id).ownedData token = .some data) :
    (σ' id).ownedData token = .some data ∨
      ∃ pre post, (pre, post) ∈ e.changes ∧ pre.accountId = id ∧ pre.account.data = data ∧
        pre.account ≠ Account.default ∧ (σ' id).ownedData token = .some post.account.data := by
  rcases heff.touched id with hsame | ⟨pre, post, hpp, rfl, -⟩
  · exact .inl (by rw [hsame, hb])
  · have hfate := heff.fate hp hne hpp trivial
    rw [hb] at hfate
    generalize (σ' pre.accountId).ownedData token = after at hfate ⊢
    cases hfate with
    | kept hnd hbefore hafter => exact .inr ⟨pre, post, hpp, rfl, (Option.some.inj hbefore).symm, hnd, hafter⟩
    | claimed _ hbefore => cases hbefore
    | foreign hbefore => cases hbefore
    | unclaimed _ _ hbefore => cases hbefore

end

/-! ## Accounts a call has no authority over -/

/-- **The place of an account in an instruction**, and what is written there. -/
inductive Role (pre : AccountWithMetadata) (post : AccountPostState) : Prop
  /-- Pays, burns or prints: authorized, and a holding. -/
  | payer {h : TokenHolding} : pre.isAuthorized = true → TokenHolding.tryFrom pre.account.data = .some h → Role pre post
  /-- Receives: a holding, or none yet. -/
  | payee {h' : TokenHolding} : TokenHolding.tryFrom post.account.data = .some h' →
      (pre.account = Account.default ∨ ∃ h, TokenHolding.tryFrom pre.account.data = .some h ∧
        h'.definitionId = h.definitionId ∧ h.amount ≤ h'.amount) → Role pre post
  /-- A definition that is burned from. -/
  | burned {d d' : TokenDefinition} : TokenDefinition.tryFrom pre.account.data = .some d →
      TokenDefinition.tryFrom post.account.data = .some d' → d'.supply .fungible ≤ d.supply .fungible → Role pre post
  /-- A definition that mints: authorized. -/
  | minted : pre.isAuthorized = true → Role pre post
  | fresh : pre.account = Account.default → Role pre post
  | untouched : post.account.data = pre.account.data → Role pre post

/-- Every account of every instruction has one of the places. -/
theorem Answered.role {pres : List AccountWithMetadata} {i : Instruction} {posts : List AccountPostState}
    (hans : Answered pres i posts) : ∀ pp ∈ pres.zip posts, Role pp.1 pp.2 := by
  -- the lists are concrete once the instruction is known, so membership is a choice of the account
  cases hans with
  | transfer h =>
    obtain ⟨sh, rh, sh', rh', ht⟩ := transfer_ok h
    obtain ⟨sd, rd, hsd, hrd, rfl⟩ := ht.post
    simp only [List.zip_cons_cons, List.zip_nil_right, List.forall_mem_cons, List.not_mem_nil, false_implies,
      implies_true, and_true]
    refine ⟨.payer ht.authorized ht.from_holding, .payee hrd ?_⟩
    rcases recipientHolding_ok ht.to_holding with ⟨hnew, -⟩ | ⟨-, hread⟩
    · exact .inl hnew
    · exact .inr ⟨rh, hread, (moveBetween_worth ht.moved).2.2.1, by rw [(moveBetween_amount ht.moved).2]; omega⟩
  | burn h =>
    obtain ⟨d, d', t, t', hb⟩ := burn_ok h
    obtain ⟨dd, td, hdd, htd, rfl⟩ := hb.post
    simp only [List.zip_cons_cons, List.zip_nil_right, List.forall_mem_cons, List.not_mem_nil, false_implies,
      implies_true, and_true]
    exact ⟨.burned hb.definition hdd (burnFrom_supply hb.burned), .payer hb.authorized hb.holding⟩
  | mint h =>
    obtain ⟨d, d', t, t', hm⟩ := mint_ok h
    obtain ⟨dd, td, hdd, htd, rfl⟩ := hm.post
    simp only [List.zip_cons_cons, List.zip_nil_right, List.forall_mem_cons, List.not_mem_nil, false_implies,
      implies_true, and_true]
    refine ⟨.minted hm.authorized, .payee htd ?_⟩
    rcases mintHolding_ok hm.holding with ⟨hnew, -⟩ | ⟨-, hread⟩
    · exact .inl hnew
    · exact .inr ⟨t, hread, (mintTo_worth hm.minted).2.1, by rw [(mintTo_amount hm.minted).1]; omega⟩
  | newFungibleDefinition h =>
    obtain ⟨hd, hh, dd, td, -, -, rfl⟩ := newFungibleDefinition_ok h
    simp only [List.zip_cons_cons, List.zip_nil_right, List.forall_mem_cons, List.not_mem_nil, false_implies,
      implies_true, and_true]
    exact ⟨.fresh hd, .fresh hh⟩
  | newDefinitionWithMetadata h =>
    obtain ⟨hd, hh, hm, dd, td, md, -, -, -, rfl⟩ := newDefinitionWithMetadata_ok h
    simp only [List.zip_cons_cons, List.zip_nil_right, List.forall_mem_cons, List.not_mem_nil, false_implies,
      implies_true, and_true]
    exact ⟨.fresh hd, .fresh hh, .fresh hm⟩
  | initializeAccount h =>
    obtain ⟨hnew, d, data, -, -, rfl⟩ := initializeAccount_ok h
    simp only [List.zip_cons_cons, List.zip_nil_right, List.forall_mem_cons, List.not_mem_nil, false_implies,
      implies_true, and_true]
    exact ⟨.untouched rfl, .fresh hnew⟩
  | printNft h =>
    obtain ⟨hmaster, hnew, _, _, _, md, pd, hread, -, -, -, rfl⟩ := printNft_ok h
    simp only [List.zip_cons_cons, List.zip_nil_right, List.forall_mem_cons, List.not_mem_nil, false_implies,
      implies_true, and_true]
    exact ⟨.payer hmaster hread, .fresh hnew⟩

section
variable {e : Executed} {σ σ' : View} {token : ProgramId} {i : Instruction} {id : AccountId}

/-- **A holding without authority grows.** -/
theorem holding_grows (heff : CallEffect (fun _ => True) e σ σ') (hp : e.program = token)
    (hne : token ≠ defaultProgramId) (hans : Answered e.output.preStates i e.output.postStates)
    (htidy : Tidy ((σ id).ownedData token)) {h : TokenHolding} (hh : holdingIn token σ id = .some h)
    (hauth : ∀ a ∈ e.output.preStates, a.accountId = id → a.isAuthorized = false) :
    ∃ h', holdingIn token σ' id = .some h' ∧ h'.definitionId = h.definitionId ∧ h.amount ≤ h'.amount := by
  obtain ⟨data, hdata, hread⟩ := Option.bind_eq_some_iff.mp hh
  rw [hdata] at htidy
  have hnodef := (htidy.holding h hread).not_definition hread
  rcases own_slot heff hp hne hdata with hsame | ⟨pre, post, hpp, rfl, rfl, hnd, hafter⟩
  · exact ⟨h, by rw [holdingIn, hsame]; exact hread, rfl, le_rfl⟩
  · have hflag := hauth pre (List.of_mem_zip hpp).1 rfl
    have hin : ∀ {h'}, TokenHolding.tryFrom post.account.data = .some h' →
        holdingIn token σ' pre.accountId = .some h' := by
      intro h' hh'
      rw [holdingIn, hafter]
      exact hh'
    cases hans.role _ hpp with
    | payer htrue => rw [hflag] at htrue; cases htrue
    | minted htrue => rw [hflag] at htrue; cases htrue
    | fresh hdefault => exact absurd hdefault hnd
    | burned hd => rw [hnodef] at hd; cases hd
    | untouched hsame => exact ⟨h, hin (by rw [hsame]; exact hread), rfl, le_rfl⟩
    | payee hh' hfrom =>
      obtain ⟨h₀, hread₀, hid, hle⟩ := hfrom.resolve_left hnd
      cases hread.symm.trans hread₀
      exact ⟨_, hin hh', hid, hle⟩

/-- **A definition without authority shrinks.** -/
theorem definition_shrinks (heff : CallEffect (fun _ => True) e σ σ') (hp : e.program = token)
    (hne : token ≠ defaultProgramId) (hans : Answered e.output.preStates i e.output.postStates)
    (htidy : Tidy ((σ id).ownedData token)) {d : TokenDefinition} (hd : definitionIn token σ id = .some d)
    (hauth : ∀ a ∈ e.output.preStates, a.accountId = id → a.isAuthorized = false) :
    ∃ d', definitionIn token σ' id = .some d' ∧ d'.supply .fungible ≤ d.supply .fungible := by
  obtain ⟨data, hdata, hread⟩ := Option.bind_eq_some_iff.mp hd
  rw [hdata] at htidy
  have hnohold := (htidy.definition d hread).not_holding hread
  rcases own_slot heff hp hne hdata with hsame | ⟨pre, post, hpp, rfl, rfl, hnd, hafter⟩
  · exact ⟨d, by rw [definitionIn, hsame]; exact hread, le_rfl⟩
  · have hflag := hauth pre (List.of_mem_zip hpp).1 rfl
    have hin : ∀ {d'}, TokenDefinition.tryFrom post.account.data = .some d' →
        definitionIn token σ' pre.accountId = .some d' := by
      intro d' hd'
      rw [definitionIn, hafter]
      exact hd'
    cases hans.role _ hpp with
    | payer htrue => rw [hflag] at htrue; cases htrue
    | minted htrue => rw [hflag] at htrue; cases htrue
    | fresh hdefault => exact absurd hdefault hnd
    | untouched hsame => exact ⟨d, hin (by rw [hsame]; exact hread), le_rfl⟩
    | payee _ hfrom =>
      obtain ⟨h₀, hread₀, -⟩ := hfrom.resolve_left hnd
      rw [hnohold] at hread₀
      cases hread₀
    | burned hd₀ hd' hle =>
      cases hread.symm.trans hd₀
      exact ⟨_, hin hd', hle⟩

end

/-! ## The calls of an exchange -/

section
variable {e : Executed} {σ σ' : View} {token : ProgramId} {first second : AccountWithMetadata} {amount : U128}

/-- The changes of a call on two accounts. -/
theorem changes_pair {p q : AccountPostState} (hpre : e.output.preStates = [first, second])
    (hpost : e.output.postStates = [p, q]) : (first, p) ∈ e.changes ∧ (second, q) ∈ e.changes := by
  simp [Executed.changes, hpre, hpost]

/-- An account of the program's own that is named keeps its data to be read and has what is written. -/
theorem own_named (heff : CallEffect (fun _ => True) e σ σ') (hp : e.program = token) (hne : token ≠ defaultProgramId)
    {pre : AccountWithMetadata} {post : AccountPostState} (hpp : (pre, post) ∈ e.changes) {data : Data}
    (hb : (σ pre.accountId).ownedData token = .some data) :
    pre.account.data = data ∧ (σ' pre.accountId).ownedData token = .some post.account.data := by
  have hfate := heff.fate hp hne hpp trivial
  rw [hb] at hfate
  generalize (σ' pre.accountId).ownedData token = after at hfate ⊢
  cases hfate with
  | kept _ hbefore hafter => exact ⟨(Option.some.inj hbefore).symm, hafter⟩
  | claimed _ hbefore => cases hbefore
  | foreign hbefore => cases hbefore
  | unclaimed _ _ hbefore => cases hbefore

theorem transfer_from (heff : CallEffect (fun _ => True) e σ σ') (hp : e.program = token)
    (hne : token ≠ defaultProgramId) (hpre : e.output.preStates = [first, second])
    (htransfer : transfer first second amount = .ok e.output.postStates) {sh : TokenHolding}
    (hs : holdingIn token σ first.accountId = .some sh) :
    ∃ sh', holdingIn token σ' first.accountId = .some sh' ∧ sh'.definitionId = sh.definitionId ∧
      sh'.amount + amount.toNat = sh.amount := by
  obtain ⟨sh₀, rh, sh', rh', ht⟩ := transfer_ok htransfer
  obtain ⟨sd, rd, hsd, hrd, hpost⟩ := ht.post
  obtain ⟨data, hdata, hread⟩ := Option.bind_eq_some_iff.mp hs
  obtain ⟨rfl, hafter⟩ := own_named heff hp hne (changes_pair hpre hpost).1 hdata
  cases ht.from_holding.symm.trans hread
  exact ⟨sh', by rw [holdingIn, hafter]; exact hsd, (moveBetween_worth ht.moved).2.1, (moveBetween_amount ht.moved).1⟩

theorem transfer_to (heff : CallEffect (fun _ => True) e σ σ') (hp : e.program = token)
    (hne : token ≠ defaultProgramId) (hpre : e.output.preStates = [first, second])
    (htransfer : transfer first second amount = .ok e.output.postStates) {rh : TokenHolding}
    (hr : holdingIn token σ second.accountId = .some rh) :
    ∃ rh', holdingIn token σ' second.accountId = .some rh' ∧ rh'.definitionId = rh.definitionId ∧
      rh'.amount = rh.amount + amount.toNat := by
  obtain ⟨sh, rh₀, sh', rh', ht⟩ := transfer_ok htransfer
  obtain ⟨sd, rd, hsd, hrd, hpost⟩ := ht.post
  obtain ⟨data, hdata, hread⟩ := Option.bind_eq_some_iff.mp hr
  obtain ⟨rfl, hafter⟩ := own_named heff hp hne (changes_pair hpre hpost).2 hdata
  cases recipientHolding_read ht.to_holding hread
  exact ⟨rh', by rw [holdingIn, hafter]; exact hrd, (moveBetween_worth ht.moved).2.2.1, (moveBetween_amount ht.moved).2⟩

/-- Whatever the recipient was before, if something arrives it is a holding of that token afterwards. -/
theorem transfer_arrives (heff : CallEffect (fun _ => True) e σ σ') (hp : e.program = token)
    (hne : token ≠ defaultProgramId) (hpre : e.output.preStates = [first, second])
    (htransfer : transfer first second amount = .ok e.output.postStates) (hamount : amount ≠ 0) {sh : TokenHolding}
    (hs : TokenHolding.tryFrom first.account.data = .some sh) :
    ∃ rh', holdingIn token σ' second.accountId = .some rh' ∧ rh'.definitionId = sh.definitionId ∧
      amount.toNat ≤ rh'.amount := by
  obtain ⟨sh₀, rh, sh', rh', ht⟩ := transfer_ok htransfer
  obtain ⟨sd, rd, hsd, hrd, hpost⟩ := ht.post
  cases ht.from_holding.symm.trans hs
  have hid : rh'.definitionId = sh.definitionId := (moveBetween_worth ht.moved).2.2.1.trans ht.definition.symm
  have hmoved := (moveBetween_amount ht.moved).2
  have hfate := heff.fate hp hne (changes_pair hpre hpost).2 trivial
  have hafter : (σ' second.accountId).ownedData token = .some rd := by
    generalize (σ' second.accountId).ownedData token = after at hfate ⊢
    cases hfate with
    | kept _ _ hafter => exact hafter
    | claimed _ _ hafter => exact hafter
    | foreign _ _ hnd hsame =>
      -- a stranger's account would have to stay as it is
      have hread := ((recipientHolding_ok ht.to_holding).resolve_left fun hd => hnd hd.1).2
      have hsame : rd = second.account.data := hsame
      rw [hsame, hread] at hrd
      cases hrd
      have hzero : amount.toNat = 0 := by omega
      exact absurd (BitVec.eq_of_toNat_eq hzero) hamount
    | unclaimed hdefault hc => exact absurd hc (claim_of_default hdefault)
  exact ⟨rh', by rw [holdingIn, hafter]; exact hrd, hid, by omega⟩

theorem mint_raises (heff : CallEffect (fun _ => True) e σ σ') (hp : e.program = token)
    (hne : token ≠ defaultProgramId) (hpre : e.output.preStates = [first, second])
    (hmint : mint first second amount = .ok e.output.postStates) {d : TokenDefinition}
    (hd : definitionIn token σ first.accountId = .some d) :
    ∃ d', definitionIn token σ' first.accountId = .some d' ∧
      d'.supply .fungible = d.supply .fungible + amount.toNat := by
  obtain ⟨d₀, d', t, t', hm⟩ := mint_ok hmint
  obtain ⟨dd, td, hdd, htd, hpost⟩ := hm.post
  obtain ⟨data, hdata, hread⟩ := Option.bind_eq_some_iff.mp hd
  obtain ⟨rfl, hafter⟩ := own_named heff hp hne (changes_pair hpre hpost).1 hdata
  cases hm.definition.symm.trans hread
  exact ⟨d', by rw [definitionIn, hafter]; exact hdd, (mintTo_amount hm.minted).2⟩

theorem burn_lowers (heff : CallEffect (fun _ => True) e σ σ') (hp : e.program = token)
    (hne : token ≠ defaultProgramId) (hpre : e.output.preStates = [first, second])
    (hburn : burn first second amount = .ok e.output.postStates) {d : TokenDefinition} {definitionId : AccountId}
    {balance : U128} (hheld : TokenHolding.tryFrom second.account.data = .some (.fungible definitionId balance))
    (hd : definitionIn token σ first.accountId = .some d) :
    ∃ d', definitionIn token σ' first.accountId = .some d' ∧
      d'.supply .fungible + amount.toNat = d.supply .fungible := by
  obtain ⟨d₀, d', t, t', hb⟩ := burn_ok hburn
  obtain ⟨dd, td, hdd, htd, hpost⟩ := hb.post
  obtain ⟨data, hdata, hread⟩ := Option.bind_eq_some_iff.mp hd
  obtain ⟨rfl, hafter⟩ := own_named heff hp hne (changes_pair hpre hpost).1 hdata
  cases hb.definition.symm.trans hread
  have hburned := hb.burned
  cases hb.holding.symm.trans hheld
  obtain ⟨name, supply, metadataId, supply', _, rfl, rfl, -, hs, -⟩ := burnFrom_fungible hburned
  exact ⟨.fungible name supply' metadataId, by rw [definitionIn, hafter]; exact hdd, hs⟩

theorem newFungibleDefinition_defines (heff : CallEffect (fun _ => True) e σ σ') (hp : e.program = token)
    (hne : token ≠ defaultProgramId) (hpre : e.output.preStates = [first, second]) {name : Borsh.Text}
    (hnew : newFungibleDefinition first second name amount = .ok e.output.postStates) :
    ∃ d', definitionIn token σ' first.accountId = .some d' ∧ d'.supply .fungible = amount.toNat := by
  obtain ⟨hdefault, -, dd, td, hdd, -, hpost⟩ := newFungibleDefinition_ok hnew
  obtain ⟨-, hafter⟩ := new_slot (heff.fate hp hne (changes_pair hpre hpost).1 trivial) hdefault
  exact ⟨_, by rw [definitionIn, hafter]; exact hdd, rfl⟩

/-- An account that is not named is as it was. -/
theorem unnamed_pair (heff : CallEffect (fun _ => True) e σ σ') (hpre : e.output.preStates = [first, second])
    {id : AccountId} (h₁ : id ≠ first.accountId) (h₂ : id ≠ second.accountId) : σ' id = σ id := by
  refine heff.frame id ?_
  rintro ⟨hid, -⟩
  simp [Executed.accountIds, hpre, h₁, h₂] at hid

/-- **What a transfer does**, to the holdings of the two accounts and to no definition. -/
structure Transfers (token : ProgramId) (σ σ' : View) (first second : AccountWithMetadata) (amount : U128) : Prop where
  payer : ∀ sh, holdingIn token σ first.accountId = .some sh → ∃ sh', holdingIn token σ' first.accountId = .some sh' ∧
    sh'.definitionId = sh.definitionId ∧ sh'.amount + amount.toNat = sh.amount
  payee : ∀ rh, holdingIn token σ second.accountId = .some rh → ∃ rh', holdingIn token σ' second.accountId = .some rh' ∧
    rh'.definitionId = rh.definitionId ∧ rh'.amount = rh.amount + amount.toNat
  arrives : amount ≠ 0 → ∀ sh, TokenHolding.tryFrom first.account.data = .some sh →
    ∃ rh', holdingIn token σ' second.accountId = .some rh' ∧ rh'.definitionId = sh.definitionId ∧
      amount.toNat ≤ rh'.amount
  frame : ∀ id, id ≠ first.accountId → id ≠ second.accountId → σ' id = σ id
  definitions : ∀ id d, definitionIn token σ id = .some d → definitionIn token σ' id = .some d

theorem transfers_of_call (heff : CallEffect (fun _ => True) e σ σ') (hp : e.program = token)
    (hne : token ≠ defaultProgramId) (hpre : e.output.preStates = [first, second])
    (htransfer : transfer first second amount = .ok e.output.postStates)
    (htidy : ∀ id, Tidy ((σ id).ownedData token)) : Transfers token σ σ' first second amount := by
  refine ⟨fun _ => transfer_from heff hp hne hpre htransfer, fun _ => transfer_to heff hp hne hpre htransfer,
    fun hamount _ => transfer_arrives heff hp hne hpre htransfer hamount, fun _ => unnamed_pair heff hpre, ?_⟩
  intro id d hd
  obtain ⟨data, hdata, hread⟩ := Option.bind_eq_some_iff.mp hd
  have hnohold : TokenHolding.tryFrom data = .none := by
    have := htidy id
    rw [hdata] at this
    exact (this.definition d hread).not_holding hread
  obtain ⟨howner, rfl⟩ := ownedData_eq_some.mp hdata
  obtain ⟨sh, rh, sh', rh', ht⟩ := transfer_ok htransfer
  -- both accounts of a transfer read as holdings, or do not exist
  have h₁ : id ≠ first.accountId := by
    rintro rfl
    rw [← heff.pre first (by simp [hpre]) trivial, ht.from_holding] at hnohold
    cases hnohold
  have h₂ : id ≠ second.accountId := by
    rintro rfl
    rw [← heff.pre second (by simp [hpre]) trivial] at hnohold howner
    rcases recipientHolding_ok ht.to_holding with ⟨hdefault, -⟩ | ⟨-, hrh⟩
    · rw [hdefault] at howner
      exact hne howner.symm
    · rw [hrh] at hnohold
      cases hnohold
  rw [definitionIn, unnamed_pair heff hpre h₁ h₂]
  exact hd

end

end Lez.Token
