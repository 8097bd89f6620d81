/-
Finite tables (`HashMap`): Mathlib's association lists without duplicate
keys, read with a default, written many entries at a time, and totalled. The
total of a table is a sum over any set of keys that covers it, so a batch of
writes that keeps the sum of the entries it touches keeps the total.
-/
import Mathlib.Data.List.AList
import Mathlib.Algebra.BigOperators.Group.Finset.Basic
import Mathlib.Algebra.BigOperators.Group.List.Basic
import Mathlib.Algebra.GroupWithZero.Nat

namespace Lez

/-- `HashMap<K, V>`. -/
abbrev Table (K V : Type) := AList (fun _ : K => V)

namespace Table

variable {K V : Type} [DecidableEq K]

/-- `get(k).unwrap_or(d)`. -/
def getD (t : Table K V) (k : K) (d : V) : V := (t.lookup k).getD d

/-- `insert` for each pair in turn. -/
def writeAll (t : Table K V) (kvs : List (K × V)) : Table K V := kvs.foldl (fun t kv => t.insert kv.1 kv.2) t

/-- `get_mut(k)` and a change of what is there. -/
def modify (t : Table K V) (k : K) (f : V → V) : Table K V :=
  match t.lookup k with
  | .some v => t.insert k (f v)
  | .none => t

/-- The entries as pairs, in the order an iterator yields them. -/
def toPairs (t : Table K V) : List (K × V) := t.entries.map fun e => (e.1, e.2)

omit [DecidableEq K] in
theorem toPairs_keys_nodup (t : Table K V) : (t.toPairs.map (·.1)).Nodup := by
  have hkeys : t.toPairs.map (·.1) = t.keys := by simp [toPairs, AList.keys, List.keys, Function.comp_def]
  exact hkeys ▸ t.keys_nodup

theorem mem_toPairs {t : Table K V} {k : K} {v : V} : (k, v) ∈ t.toPairs ↔ t.lookup k = .some v := by
  have hm : t.lookup k = .some v ↔ (⟨k, v⟩ : Sigma fun _ : K => V) ∈ t.entries := AList.mem_lookup_iff
  rw [hm, toPairs, List.mem_map]
  constructor
  · rintro ⟨⟨k', v'⟩, he, heq⟩
    cases heq
    exact he
  · intro he
    exact ⟨⟨k, v⟩, he, rfl⟩

theorem lookup_writeAll_not {k : K} : ∀ {kvs : List (K × V)} {t : Table K V}, (∀ kv ∈ kvs, kv.1 ≠ k) →
    (t.writeAll kvs).lookup k = t.lookup k
  | [], _, _ => rfl
  | kv :: kvs, t, h => by
    have ih : (writeAll (t.insert kv.1 kv.2) kvs).lookup k = (t.insert kv.1 kv.2).lookup k :=
      lookup_writeAll_not fun p hp => h p (by simp [hp])
    exact ih.trans (AList.lookup_insert_ne (h kv (by simp)).symm)

theorem lookup_writeAll_mem {k : K} {v : V} : ∀ {kvs : List (K × V)} {t : Table K V},
    (kvs.map (·.1)).Nodup → (k, v) ∈ kvs → (t.writeAll kvs).lookup k = .some v
  | [], _, _, h => by simp at h
  | kv :: kvs, t, hn, h => by
    simp only [List.map_cons, List.nodup_cons, List.mem_map] at hn
    rcases List.mem_cons.mp h with rfl | h
    · have hrest : (writeAll (t.insert k v) kvs).lookup k = (t.insert k v).lookup k :=
        lookup_writeAll_not fun p hp he => hn.1 ⟨p, hp, he⟩
      exact hrest.trans (AList.lookup_insert _)
    · have ih : (writeAll (t.insert kv.1 kv.2) kvs).lookup k = .some v := lookup_writeAll_mem hn.2 h
      exact ih

/-- What is read after a batch was in it or there before. -/
theorem lookup_writeAll_some {k : K} {v : V} : ∀ {kvs : List (K × V)} {t : Table K V},
    (t.writeAll kvs).lookup k = .some v → (k, v) ∈ kvs ∨ t.lookup k = .some v
  | [], _, h => .inr h
  | kv :: kvs, t, h => by
    have ih : (k, v) ∈ kvs ∨ (t.insert kv.1 kv.2).lookup k = .some v := lookup_writeAll_some h
    rcases ih with hm | hl
    · exact .inl (List.mem_cons_of_mem _ hm)
    · by_cases hk : k = kv.1
      · subst hk
        rw [AList.lookup_insert, Option.some.injEq] at hl
        exact .inl (hl ▸ List.mem_cons_self)
      · rw [AList.lookup_insert_ne hk] at hl
        exact .inr hl

theorem mem_writeAll {k : K} : ∀ {kvs : List (K × V)} {t : Table K V},
    k ∈ t.writeAll kvs ↔ k ∈ t ∨ k ∈ kvs.map (·.1)
  | [], t => by simp [writeAll]
  | kv :: kvs, t => by
    have ih : k ∈ writeAll (t.insert kv.1 kv.2) kvs ↔ k ∈ t.insert kv.1 kv.2 ∨ k ∈ kvs.map (·.1) := mem_writeAll
    rw [AList.mem_insert] at ih
    rw [List.map_cons, List.mem_cons, ← or_assoc, or_comm (a := k ∈ t), ← ih]
    rfl

/-- Writing a whole table over another reads as the first, then the second. -/
theorem getD_writeAll_toPairs (t d : Table K V) (k : K) (v : V) :
    (t.writeAll d.toPairs).getD k v = d.getD k (t.getD k v) := by
  cases hd : d.lookup k with
  | none =>
    have hnot : ∀ kv ∈ d.toPairs, kv.1 ≠ k := by
      rintro ⟨k', v'⟩ hkv rfl
      rw [mem_toPairs, hd] at hkv
      cases hkv
    simp only [getD, lookup_writeAll_not hnot, hd, Option.getD_none]
  | some w =>
    simp only [getD, lookup_writeAll_mem d.toPairs_keys_nodup (mem_toPairs.mpr hd), hd, Option.getD_some]

theorem lookup_modify (t : Table K V) (k k' : K) (f : V → V) :
    (t.modify k f).lookup k' = if k' = k then (t.lookup k').map f else t.lookup k' := by
  unfold modify
  by_cases hk : k' = k
  · subst hk
    rw [if_pos rfl]
    split
    next v hv => rw [AList.lookup_insert, hv, Option.map_some]
    next hv => rw [hv, Option.map_none]
  · rw [if_neg hk]
    split
    next => exact AList.lookup_insert_ne hk
    next => rfl

/-- The sum of a quantity over the values of a table. -/
def total (t : Table K V) (w : V → Nat) : Nat := (t.entries.map fun e => w e.2).sum

/-- The total as a sum over any keys that cover the table. -/
theorem total_eq_sum (t : Table K V) {w : V → Nat} {d : V} (hd : w d = 0) {S : Finset K}
    (hS : ∀ k ∈ t, k ∈ S) : t.total w = ∑ k ∈ S, w (t.getD k d) := by
  have hkeys : t.total w = ∑ k ∈ t.keys.toFinset, w (t.getD k d) := by
    rw [List.sum_toFinset _ t.keys_nodup, total, AList.keys, List.keys, List.map_map]
    congr 1
    refine List.map_congr_left fun e he => ?_
    have hl : t.lookup e.1 = .some e.2 := AList.mem_lookup_iff.mpr he
    simp [getD, hl]
  rw [hkeys]
  refine Finset.sum_subset (fun k hk => hS k (AList.mem_keys.mpr (List.mem_toFinset.mp hk))) ?_
  intro k _ hk
  have hl : t.lookup k = .none :=
    AList.lookup_eq_none.mpr fun hm => hk (List.mem_toFinset.mpr (AList.mem_keys.mp hm))
  simp [getD, hl, hd]

end Table

/-- Two quantities that agree off the keys `ks`, and in sum over them, agree
in sum over any set of keys that holds them. -/
theorem sum_eq_of_batch {K M : Type} [DecidableEq K] [AddCommMonoid M] {f g : K → M} {ks : List K} {S : Finset K}
    (hn : ks.Nodup) (hS : ∀ k ∈ ks, k ∈ S) (hoff : ∀ k ∉ ks, f k = g k)
    (hsum : (ks.map f).sum = (ks.map g).sum) : ∑ k ∈ S, f k = ∑ k ∈ S, g k := by
  have hsub : ks.toFinset ⊆ S := fun k hk => hS k (List.mem_toFinset.mp hk)
  rw [← Finset.sum_sdiff hsub, ← Finset.sum_sdiff hsub, List.sum_toFinset _ hn, List.sum_toFinset _ hn, hsum]
  congr 1
  refine Finset.sum_congr rfl fun k hk => hoff k ?_
  simpa using (Finset.mem_sdiff.mp hk).2

end Lez
