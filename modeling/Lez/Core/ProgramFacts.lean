/-
What passing `validate_execution` means: distinct accounts, as many post
states as pre-states, five rules for each account (`AccountRules`), and the
same sum of balances before and after as natural numbers
(`validateExecution_ok`).
-/
import Lez.Core.Program
import Mathlib.Algebra.BigOperators.Group.List.Basic

namespace Lez

/-! ## Sums of balances -/

/-- A sum that fits its two words is the sum of the balances. -/
theorem WrappedBalanceSum.foldlM_toNat : ∀ {bs : List U128} {w w' : WrappedBalanceSum},
    bs.foldlM WrappedBalanceSum.add w = .some w' → w'.toNat = w.toNat + (bs.map (·.toNat)).sum
  | [], w, w', h => by
    cases h
    simp
  | b :: bs, w, w', h => by
    rw [List.foldlM_cons, Option.bind_eq_bind, Option.bind_eq_some_iff] at h
    obtain ⟨v, hv, h⟩ := h
    have ih := foldlM_toNat h
    have hstep : v.toNat = w.toNat + b.toNat := by
      have hlo := w.lo.isLt
      have hb := b.isLt
      unfold add at hv
      split at hv
      next hfit =>
        cases hv
        simp only [toNat, BitVec.toNat_add, Nat.mod_eq_of_lt hfit]
        omega
      next hfit =>
        split at hv
        next hhi =>
          cases hv
          have hone : (1 : U128).toNat = 1 := rfl
          simp only [toNat, BitVec.toNat_add, hone, Nat.mod_eq_of_lt hhi]
          omega
        next => cases hv
    rw [ih, hstep, List.map_cons, List.sum_cons, Nat.add_assoc]

theorem WrappedBalanceSum.fromBalances_toNat {bs : List U128} {w : WrappedBalanceSum}
    (h : fromBalances bs = .some w) : w.toNat = (bs.map (·.toNat)).sum := by
  simpa [toNat] using foldlM_toNat h

theorem WrappedBalanceSum.toNat_inj {w w' : WrappedBalanceSum} (h : w.toNat = w'.toNat) : w = w' := by
  have hlo := w.lo.isLt
  have hlo' := w'.lo.isLt
  unfold toNat at h
  have hl : w.lo = w'.lo := BitVec.eq_of_toNat_eq (by omega)
  have hh : w.hi = w'.hi := BitVec.eq_of_toNat_eq (by omega)
  cases w
  cases w'
  simp_all

/-- The upper word counts carries, so a list shorter than it can count has a sum. -/
theorem WrappedBalanceSum.foldlM_isSome : ∀ {bs : List U128} {w : WrappedBalanceSum},
    w.hi.toNat + bs.length < 2 ^ 128 → (bs.foldlM WrappedBalanceSum.add w).isSome
  | [], _, _ => rfl
  | b :: bs, w, h => by
    rw [List.length_cons] at h
    obtain ⟨v, hv, hhi⟩ : ∃ v, w.add b = .some v ∧ v.hi.toNat ≤ w.hi.toNat + 1 := by
      unfold add
      by_cases hfit : w.lo.toNat + b.toNat < 2 ^ 128
      · exact ⟨_, if_pos hfit, by simp⟩
      · have hone : (1 : U128).toNat = 1 := rfl
        refine ⟨_, by rw [if_neg hfit, if_pos (by omega)], ?_⟩
        simp only [BitVec.toNat_add, hone, Nat.mod_eq_of_lt (show w.hi.toNat + 1 < 2 ^ 128 by omega), Nat.le_refl]
    rw [List.foldlM_cons, hv]
    exact foldlM_isSome (by omega)

/-! ## Rules -/

theorem validateUniquenessOfAccountIds_iff {pre : List AccountWithMetadata} :
    validateUniquenessOfAccountIds pre = true ↔ (pre.map (·.accountId)).Nodup := by
  rw [validateUniquenessOfAccountIds, beq_iff_eq, List.card_toFinset]
  constructor
  · intro h
    have hlen : (pre.map (·.accountId)).dedup.length = (pre.map (·.accountId)).length := by simpa using h.symm
    have heq := (List.dedup_sublist (pre.map (·.accountId))).eq_of_length hlen
    exact heq ▸ List.nodup_dedup _
  · intro h
    rw [h.dedup, List.length_map]

/-- Rules 3 to 7 for one account of a call of `executing`. -/
structure AccountRules (executing : ProgramId) (pre post : Account) : Prop where
  nonce : post.nonce = pre.nonce
  owner : post.programOwner = pre.programOwner
  balance : pre.programOwner ≠ executing → pre.balance ≤ post.balance
  data : pre.programOwner ≠ executing → pre ≠ Account.default → post.data = pre.data
  default : post.programOwner = defaultProgramId → pre = Account.default

theorem validateAccount_ok {executing : ProgramId} {pp : AccountWithMetadata × AccountPostState} {u : Unit}
    (h : validateAccount executing pp = .ok u) : AccountRules executing pp.1.account pp.2.account := by
  simp only [validateAccount, bind_ok_iff, ensure_ok_iff, not_and_or, not_not] at h
  obtain ⟨-, hnonce, -, howner, -, hbal, -, hdata, hdef⟩ := h
  refine ⟨hnonce.symm, howner.symm, ?_, ?_, ?_⟩
  · intro hne
    exact BitVec.not_lt.mp (hbal.resolve_right hne)
  · intro hne hnd
    rcases hdata with hd | hd | hd
    · exact hd.symm
    · exact absurd hd hnd
    · exact absurd hd hne
  · intro hpd
    exact hdef.resolve_left fun hne => hne hpd

/-- An account that keeps the rules passes. -/
theorem AccountRules.validateAccount {executing : ProgramId} {pp : AccountWithMetadata × AccountPostState}
    (h : AccountRules executing pp.1.account pp.2.account) : validateAccount executing pp = .ok () := by
  simp only [Lez.validateAccount, bind_ok_iff, ensure_ok_iff]
  refine ⟨(), h.nonce.symm, (), h.owner.symm, (), ?_, (), ?_, ?_⟩
  · rintro ⟨hlt, hne⟩
    exact absurd hlt (BitVec.not_lt.mpr (h.balance hne))
  · rintro ⟨hdata, hdefault, hne⟩
    exact hdata (h.data hne hdefault).symm
  · rintro ⟨howner, hne⟩
    exact hne (h.default howner)

/-- The sum of the balances of a list of accounts. -/
def balanceSum (l : List Account) : Nat := (l.map (·.balance.toNat)).sum

/-- **What a validated output is**, whatever program made it. -/
structure ValidExecution (executing : ProgramId) (out : ProgramOutput) : Prop where
  nodup : (out.preStates.map (·.accountId)).Nodup
  length : out.preStates.length = out.postStates.length
  rules : ∀ pp ∈ out.preStates.zip out.postStates, AccountRules executing pp.1.account pp.2.account
  balance : balanceSum (out.preStates.map (·.account)) = balanceSum (out.postStates.map (·.account))

theorem validateExecution_ok {executing : ProgramId} {out : ProgramOutput} {u : Unit}
    (h : validateExecution out.preStates out.postStates executing = .ok u) : ValidExecution executing out := by
  simp only [validateExecution, bind_ok_iff, ensure_ok_iff, expect_ok_iff] at h
  obtain ⟨-, hn, -, hlen, _, hrules, before, hb, after, ha, heq⟩ := h
  refine ⟨validateUniquenessOfAccountIds_iff.mp hn, hlen, ?_, ?_⟩
  · intro pp hpp
    exact validateAccount_ok (forM_ok_iff.mp hrules pp hpp)
  · have hb' := WrappedBalanceSum.fromBalances_toNat hb
    have ha' := WrappedBalanceSum.fromBalances_toNat ha
    rw [heq] at hb'
    simpa [balanceSum, Function.comp_def] using hb'.symm.trans ha'

/-- An output that keeps the rules is valid, but for a list of accounts too long for the sum of its balances. -/
theorem ValidExecution.validateExecution {executing : ProgramId} {out : ProgramOutput} (h : ValidExecution executing out)
    (hshort : out.preStates.length < 2 ^ 128) :
    validateExecution out.preStates out.postStates executing = .ok () := by
  obtain ⟨before, hbefore⟩ := Option.isSome_iff_exists.mp
    (@WrappedBalanceSum.foldlM_isSome (out.preStates.map (·.account.balance)) ⟨0, 0⟩ (by simpa using hshort))
  obtain ⟨after, hafter⟩ := Option.isSome_iff_exists.mp
    (@WrappedBalanceSum.foldlM_isSome (out.postStates.map (·.account.balance)) ⟨0, 0⟩
      (by simpa [← h.length] using hshort))
  have hsame : before = after := by
    apply WrappedBalanceSum.toNat_inj
    rw [WrappedBalanceSum.fromBalances_toNat hbefore, WrappedBalanceSum.fromBalances_toNat hafter]
    simpa [balanceSum, Function.comp_def] using h.balance
  simp only [Lez.validateExecution, bind_ok_iff, ensure_ok_iff, expect_ok_iff]
  exact ⟨(), validateUniquenessOfAccountIds_iff.mpr h.nodup, (), h.length, (),
    forM_ok_iff.mpr fun pp hpp => (h.rules pp hpp).validateAccount, before, hbefore, after, hafter, hsame⟩

end Lez
