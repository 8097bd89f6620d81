/-
What the Merkle tree of the commitment set holds. `Holds D values t` says
that `t` is the tree over `values`: its leaves are their hashes, every node
above a leaf is the hash of its two children, and everything else is still the
default value of its level. Doubling keeps it (`Holds.reallocate`) and
inserting appends a value (`Holds.insert`), so it describes every tree built
by insertions.

From it, the path handed out for an index leads from that leaf to the root
(`Holds.path`), and a path to the root, whoever made it, starts at a value of
the tree (`Holds.opens`). The second needs the hash: what is assumed of it is
said of the strings hashed.
-/
import Lez.State.Commitments
import Lez.Lib.HeapTree

namespace Lez.MerkleTree

open HeapTree

/-! ## Powers of two -/

theorem nextPowerOfTwo_eq (n : Nat) : nextPowerOfTwo n = 2 ^ Nat.clog 2 n := by
  unfold nextPowerOfTwo
  split
  next h => rw [Nat.clog_of_right_le_one h, Nat.pow_zero]
  next h =>
    have hupper : Nat.clog 2 n ≤ (n - 1).log2 + 1 := by
      rw [Nat.clog_le_iff_le_pow Nat.one_lt_two]
      have := Nat.lt_log2_self (n := n - 1)
      omega
    have hlower : (n - 1).log2 < Nat.clog 2 n := by
      rw [Nat.log2_lt (by omega)]
      have := Nat.le_pow_clog Nat.one_lt_two n
      omega
    rw [show (n - 1).log2 + 1 = Nat.clog 2 n by omega]

theorem nextPowerOfTwo_pow (D : Nat) : nextPowerOfTwo (2 ^ D) = 2 ^ D := by
  rw [nextPowerOfTwo_eq, Nat.clog_pow _ _ Nat.one_lt_two]

theorem prevPowerOfTwo_succ (i : Nat) : i + prevPowerOfTwo (i + 1) = doubled i := by
  simp [prevPowerOfTwo, doubled]

theorem depth_eq (t : MerkleTree) : t.depth = Nat.clog 2 t.length := by
  rw [depth, nextPowerOfTwo_eq, Nat.log2_two_pow]

/-! ## The tree over a list of values -/

/-- `t` has `D` levels above its leaves and is the tree over `values`. -/
structure Holds (sha256 : Bytes → Bytes32) (D : Nat) (values : List Bytes32) (t : MerkleTree) : Prop where
  capacity : t.capacity = 2 ^ D
  size : t.nodes.length = 2 ^ (D + 1) - 1
  length : t.length = values.length
  fits : values.length ≤ 2 ^ D
  leaves : ∀ {i v}, values[i]? = .some v → t.nodes[pos D 0 i]? = .some (sha256 v.toList)
  hashed : ∀ {ℓ k}, ℓ < Nat.clog 2 values.length → k * 2 ^ (ℓ + 1) < values.length →
    Combines (hashTwo sha256) t.nodes D ℓ k
  blank : ∀ {ℓ j}, ℓ ≤ D → j < 2 ^ (D - ℓ) → values.length ≤ j * 2 ^ ℓ →
    t.nodes[pos D ℓ j]? = defaultValues[ℓ]?

variable {sha256 : Bytes → Bytes32} {D : Nat} {values : List Bytes32} {t t' : MerkleTree}

theorem withCapacity_pow (h : withCapacity (2 ^ D) = .some t) :
    t.capacity = 2 ^ D ∧ t.length = 0 ∧ t.nodes.length = 2 ^ (D + 1) - 1 ∧
      ∀ {ℓ j}, ℓ ≤ D → j < 2 ^ (D - ℓ) → t.nodes[pos D ℓ j]? = defaultValues[ℓ]? := by
  simp only [withCapacity, nextPowerOfTwo_pow, Nat.log2_two_pow] at h
  split at h
  next hD =>
    cases h
    have hnodes : ((defaultValues.take (D + 1)).reverse.mapIdx fun level v =>
        List.replicate (2 ^ level) v).flatten = uniform 0 (defaultValues.take (D + 1)).reverse := by
      simp [uniform]
    have hlen : (defaultValues.take (D + 1)).reverse.length = D + 1 := by
      rw [List.length_reverse, List.length_take]
      omega
    dsimp only
    rw [hnodes]
    refine ⟨rfl, rfl, ?_, fun {ℓ j} hℓ hj => ?_⟩
    · have := uniform_length 0 (defaultValues.take (D + 1)).reverse
      rw [hlen, Nat.zero_add] at this
      omega
    · have hget := uniform_getElem? 0 (defaultValues.take (D + 1)).reverse (m := D - ℓ) (j := j)
        (by omega) (by rwa [Nat.zero_add])
      rw [Nat.zero_add, Nat.pow_zero] at hget
      rw [pos, hget, List.getElem?_reverse (by rw [List.length_reverse] at hlen; omega)]
      rw [List.length_reverse] at hlen
      rw [hlen, show D + 1 - 1 - (D - ℓ) = ℓ by omega, List.getElem?_take_of_lt (by omega)]
  next => cases h

theorem withCapacity_holds (h : withCapacity (2 ^ D) = .some t) : Holds sha256 D [] t := by
  obtain ⟨hcap, hlen, hsize, hblank⟩ := withCapacity_pow h
  exact {
    capacity := hcap
    size := hsize
    length := hlen
    fits := Nat.zero_le _
    leaves := fun hv => by simp at hv
    hashed := fun hℓ _ => by simp at hℓ
    blank := fun hℓ hj _ => hblank hℓ hj }

/-! ## Doubling -/

theorem setNode_some_iff {i : Nat} {v : Bytes32} :
    t.setNode i v = .some t' ↔ i < t.nodes.length ∧ t' = { t with nodes := t.nodes.set i v } := by
  unfold setNode
  split <;> simp_all [eq_comm]

/-- A run of `set_node` over distinct indices writes what it was given and nothing else. -/
theorem foldlM_setNode {m : Nat → Nat} : ∀ {vis : List (Bytes32 × Nat)} {t t' : MerkleTree},
    vis.foldlM (fun this vi => this.setNode (m vi.2) vi.1) t = .some t' → (vis.map fun vi => m vi.2).Nodup →
      t'.capacity = t.capacity ∧ t'.nodes.length = t.nodes.length ∧
      (∀ {v i}, (v, i) ∈ vis → t'.nodes[m i]? = .some v) ∧
      ∀ {k}, k ∉ vis.map (fun vi => m vi.2) → t'.nodes[k]? = t.nodes[k]?
  | [], t, t', h, _ => by
    cases h
    simp
  | (v, i) :: vis, t, t', h, hnodup => by
    rw [List.foldlM_cons, Option.bind_eq_bind, Option.bind_eq_some_iff] at h
    obtain ⟨u, hu, h⟩ := h
    obtain ⟨hi, rfl⟩ := setNode_some_iff.mp hu
    rw [List.map_cons, List.nodup_cons] at hnodup
    obtain ⟨hcap, hlen, hwritten, hkept⟩ := foldlM_setNode h hnodup.2
    refine ⟨hcap, by simpa using hlen, fun {w j} hmem => ?_, fun {k} hk => ?_⟩
    · rcases List.mem_cons.mp hmem with heq | hmem
      · cases heq
        rw [hkept hnodup.1]
        simp [hi]
      · exact hwritten hmem
    · rw [List.map_cons, List.mem_cons, not_or] at hk
      rw [hkept hk.2]
      simp [List.getElem?_set_ne (Ne.symm hk.1)]

/-- The nodes of the old tree are the left half of the new one; the rest is fresh. -/
theorem reallocate_nodes (hcap : t.capacity = 2 ^ D) (hsize : t.nodes.length = 2 ^ (D + 1) - 1)
    (h : t.reallocateToDoubleCapacity = .some t') :
    t'.capacity = 2 ^ (D + 1) ∧ t'.length = t.length ∧ t'.nodes.length = 2 ^ (D + 2) - 1 ∧
      (∀ {ℓ j}, ℓ ≤ D → j < 2 ^ (D - ℓ) → t'.nodes[pos (D + 1) ℓ j]? = t.nodes[pos D ℓ j]?) ∧
      ∀ {ℓ j}, ℓ ≤ D + 1 → j < 2 ^ (D + 1 - ℓ) → ¬(ℓ ≤ D ∧ j < 2 ^ (D - ℓ)) →
        t'.nodes[pos (D + 1) ℓ j]? = defaultValues[ℓ]? := by
  simp only [reallocateToDoubleCapacity, hcap, ← Nat.pow_succ', prevPowerOfTwo_succ, Option.bind_eq_bind,
    Option.bind_eq_some_iff] at h
  obtain ⟨fresh, hfresh, filled, hfilled, h⟩ := h
  cases h
  obtain ⟨hcap', -, hsize', hblank⟩ := withCapacity_pow hfresh
  have hsnd : (t.nodes.zipIdx.map fun vi => doubled vi.2) = (List.range t.nodes.length).map doubled := by
    rw [List.range_eq_range', ← List.zipIdx_map_snd, List.map_map]
    rfl
  obtain ⟨hc, hl, hwritten, hkept⟩ := foldlM_setNode hfilled
    (by rw [hsnd]; exact List.nodup_range.map doubled_strictMono.injective)
  refine ⟨hc.trans hcap', rfl, hl.trans hsize', fun {ℓ j} hℓ hj => ?_, fun {ℓ j} hℓ hj hnew => ?_⟩
  · have hlt : pos D ℓ j < t.nodes.length := by
      rw [hsize]
      exact pos_lt_size hj
    have hw := hwritten (v := t.nodes[pos D ℓ j]) (i := pos D ℓ j)
      (by simp [List.mem_zipIdx_iff_getElem?, hlt])
    rw [doubled_pos hℓ hj] at hw
    rw [hw, List.getElem?_eq_getElem hlt]
  · rw [hkept ?_, hblank hℓ hj]
    rw [hsnd, List.mem_map]
    rintro ⟨i, hi, heq⟩
    rw [List.mem_range, hsize] at hi
    obtain ⟨ℓ', j', hℓ', hj', rfl⟩ := exists_pos hi
    rw [doubled_pos hℓ' hj'] at heq
    have hj'' : j' < 2 ^ (D + 1 - ℓ') :=
      lt_of_lt_of_le hj' (Nat.pow_le_pow_right (by decide) (by omega))
    obtain ⟨rfl, rfl⟩ := pos_inj (by omega) hℓ hj'' hj heq
    exact hnew ⟨hℓ', hj'⟩

/-- A node above one of the values is a node of the level. -/
theorem index_lt {n ℓ k : Nat} (hn : n ≤ 2 ^ D) (hℓ : ℓ ≤ D) (h : k * 2 ^ ℓ < n) : k < 2 ^ (D - ℓ) := by
  have hsplit : 2 ^ D = 2 ^ (D - ℓ) * 2 ^ ℓ := by rw [← Nat.pow_add, Nat.sub_add_cancel hℓ]
  exact Nat.lt_of_mul_lt_mul_right (a := 2 ^ ℓ) (by omega)

theorem clog_le (h : values.length ≤ 2 ^ D) : Nat.clog 2 values.length ≤ D :=
  (Nat.clog_le_iff_le_pow Nat.one_lt_two).mpr h

theorem Holds.reallocate (hh : Holds sha256 D values t) (hfull : t.length = t.capacity)
    (h : t.reallocateToDoubleCapacity = .some t') : Holds sha256 (D + 1) values t' := by
  obtain ⟨hcap, hlen, hsize, hmoved, hfresh⟩ := reallocate_nodes hh.capacity hh.size h
  have hn : values.length = 2 ^ D := by rw [← hh.length, hfull, hh.capacity]
  refine {
    capacity := hcap
    size := hsize
    length := hlen.trans hh.length
    fits := by rw [hn, Nat.pow_succ]; omega
    leaves := fun {i v} hv => ?_
    hashed := fun {ℓ k} hℓ hk => ?_
    blank := fun {ℓ j} hℓ hj hbeyond => hfresh hℓ hj ?_ }
  · obtain ⟨hi, -⟩ := List.getElem?_eq_some_iff.mp hv
    rw [hmoved (Nat.zero_le _) (by rw [Nat.sub_zero]; omega)]
    exact hh.leaves hv
  · have hD : ℓ + 1 ≤ D := by
      have := clog_le hh.fits
      omega
    have hk' := index_lt hh.fits hD hk
    have hpow : 2 ^ (D - ℓ) = 2 * 2 ^ (D - (ℓ + 1)) := by
      rw [show D - ℓ = D - (ℓ + 1) + 1 by omega, Nat.pow_succ']
    obtain ⟨a, b, ha, hb, hab⟩ := hh.hashed hℓ hk
    refine ⟨a, b, ?_, ?_, ?_⟩
    · rw [hmoved (by omega) (by omega), ha]
    · rw [hmoved (by omega) (by omega), hb]
    · rw [hmoved hD hk', hab]
  · rintro ⟨hℓ', hj'⟩
    have hsplit : 2 ^ D = 2 ^ (D - ℓ) * 2 ^ ℓ := by rw [← Nat.pow_add, Nat.sub_add_cancel hℓ']
    have := Nat.mul_lt_mul_of_pos_right hj' (Nat.two_pow_pos ℓ)
    omega

theorem withCapacity_isSome : (withCapacity (2 ^ D)).isSome ↔ D < 32 := by
  have hdepths : defaultValues.length = 32 := rfl
  simp only [withCapacity, nextPowerOfTwo_pow, Nat.log2_two_pow, hdepths]
  split <;> simp_all

/-- Nothing stops a run of `set_node` inside the tree. -/
theorem foldlM_setNode_exists {m : Nat → Nat} : ∀ {vis : List (Bytes32 × Nat)} {t : MerkleTree},
    (∀ vi ∈ vis, m vi.2 < t.nodes.length) →
      ∃ t', vis.foldlM (fun (this : MerkleTree) vi => this.setNode (m vi.2) vi.1) t = .some t'
  | [], t, _ => ⟨t, rfl⟩
  | (v, i) :: vis, t, h => by
    have hset : t.setNode (m i) v = .some { t with nodes := t.nodes.set (m i) v } :=
      setNode_some_iff.mpr ⟨h (v, i) List.mem_cons_self, rfl⟩
    rw [List.foldlM_cons, hset, Option.bind_eq_bind, Option.bind_some]
    refine foldlM_setNode_exists fun vi hvi => ?_
    simpa using h vi (List.mem_cons_of_mem _ hvi)

/-- A tree can be doubled as long as there are default values for it. -/
theorem reallocate_isSome (hcap : t.capacity = 2 ^ D) (hsize : t.nodes.length = 2 ^ (D + 1) - 1) :
    t.reallocateToDoubleCapacity.isSome ↔ D < 31 := by
  have hfresh : (withCapacity (2 ^ (D + 1))).isSome ↔ D < 31 := withCapacity_isSome.trans Nat.succ_lt_succ_iff
  simp only [reallocateToDoubleCapacity, hcap, ← Nat.pow_succ', prevPowerOfTwo_succ]
  rw [← hfresh]
  cases hwide : withCapacity (2 ^ (D + 1)) with
  | none => simp
  | some fresh =>
    obtain ⟨-, -, hsize', -⟩ := withCapacity_pow hwide
    have hinside : ∀ vi ∈ t.nodes.zipIdx, doubled vi.2 < fresh.nodes.length := by
      intro vi hvi
      have hi : vi.2 < 2 ^ (D + 1) - 1 := by
        have hlt := (List.getElem?_eq_some_iff.mp (List.mem_zipIdx_iff_getElem?.mp hvi)).1
        omega
      obtain ⟨ℓ, j, hℓ, hj, hpos⟩ := exists_pos hi
      rw [hpos, doubled_pos hℓ hj, hsize']
      exact pos_lt_size (lt_of_lt_of_le hj (Nat.pow_le_pow_right (by decide) (by omega)))
    obtain ⟨filled, hfilled⟩ := foldlM_setNode_exists hinside
    simp [hfilled]

/-! ## Inserting -/

/-- The loop of `insert` from node `j` of level `ℓ`: the nodes above become the hashes of their children,
and no other node changes. -/
theorem rehash_nodes : ∀ {levels ℓ j : Nat} {t t' : MerkleTree}, ℓ + levels ≤ D → j < 2 ^ (D - ℓ) →
    rehash sha256 levels (pos D ℓ j) t = .some t' →
      t'.capacity = t.capacity ∧ t'.length = t.length ∧ t'.nodes.length = t.nodes.length ∧
      (∀ m < levels, Combines (hashTwo sha256) t'.nodes D (ℓ + m) (j / 2 ^ (m + 1))) ∧
      ∀ {k}, (∀ m < levels, k ≠ pos D (ℓ + m + 1) (j / 2 ^ (m + 1))) → t'.nodes[k]? = t.nodes[k]?
  | 0, ℓ, j, t, t', _, _, h => by
    cases h
    simp
  | levels + 1, ℓ, j, t, t', hD, hj, h => by
    have hhalf : 2 ^ (D - ℓ) = 2 * 2 ^ (D - (ℓ + 1)) := by
      rw [show D - ℓ = D - (ℓ + 1) + 1 by omega, Nat.pow_succ']
    simp only [rehash, pos_parent j (show ℓ < D by omega), pos_left (show ℓ < D by omega),
      pos_right (show ℓ < D by omega), Option.bind_eq_bind, Option.bind_eq_some_iff] at h
    obtain ⟨a, ha, b, hb, u, hu, h⟩ := h
    obtain ⟨hlt, rfl⟩ := setNode_some_iff.mp hu
    obtain ⟨hcap, hlen, hsize, habove, hkept⟩ := rehash_nodes (by omega) (by omega) h
    -- the rounds after this one leave the three nodes of this round alone: they stand on other levels
    have hsame : ∀ {ℓ' j' : Nat}, ℓ' ≤ ℓ + 1 → j' < 2 ^ (D - ℓ') →
        t'.nodes[pos D ℓ' j']? = (t.nodes.set (pos D (ℓ + 1) (j / 2)) (hashTwo sha256 a b))[pos D ℓ' j']? := by
      intro ℓ' j' hℓ' hj'
      refine hkept fun m hm heq => ?_
      have hup : j / 2 / 2 ^ (m + 1) < 2 ^ (D - (ℓ + 1) - (m + 1)) :=
        index_lt (le_refl (2 ^ (D - (ℓ + 1)))) (by omega)
          (lt_of_le_of_lt (Nat.div_mul_le_self _ _) (by omega))
      rw [show D - (ℓ + 1) - (m + 1) = D - (ℓ + 1 + m + 1) by omega] at hup
      have := (pos_inj (by omega) (by omega) hj' hup heq).1
      omega
    have hne : ∀ {j' : Nat}, j' < 2 ^ (D - ℓ) → pos D (ℓ + 1) (j / 2) ≠ pos D ℓ j' := by
      intro j' hj' heq
      have := (pos_inj (by omega) (by omega) (by omega) hj' heq).1
      omega
    refine ⟨hcap, hlen, by simpa using hsize, fun m hm => ?_, fun {k} hk => ?_⟩
    · rcases m with _ | m
      · refine ⟨a, b, ?_, ?_, ?_⟩
        · rw [Nat.pow_one, Nat.add_zero, hsame (by omega) (by omega),
            List.getElem?_set_ne (hne (by omega)), ha]
        · rw [Nat.pow_one, Nat.add_zero, hsame (by omega) (by omega),
            List.getElem?_set_ne (hne (by omega)), hb]
        · rw [Nat.pow_one, Nat.add_zero, hsame (by omega) (by omega), List.getElem?_set_self hlt]
      · have := habove m (by omega)
        rwa [Nat.div_div_eq_div_mul, ← Nat.pow_succ', show ℓ + 1 + m = ℓ + (m + 1) by omega] at this
    · rw [hkept fun m hm => ?_]
      · have := hk 0 (by omega)
        rw [Nat.pow_one, Nat.add_zero] at this
        exact List.getElem?_set_ne (Ne.symm this)
      · have := hk (m + 1) (by omega)
        rwa [Nat.div_div_eq_div_mul, ← Nat.pow_succ', show ℓ + 1 + m + 1 = ℓ + (m + 1) + 1 by omega]

theorem Holds.append (hh : Holds sha256 D values t) (hroom : values.length < 2 ^ D) {v : Bytes32} {placed : MerkleTree}
    (hplaced : t.setNode (t.length + t.capacity - 1) (sha256 v.toList) = .some placed)
    (h : rehash sha256 { placed with length := placed.length + 1 }.depth (t.length + t.capacity - 1)
      { placed with length := placed.length + 1 } = .some t') :
    Holds sha256 D (values ++ [v]) t' := by
  have hindex : t.length + t.capacity - 1 = pos D 0 values.length := by
    rw [hh.length, hh.capacity, pos_leaf]
    have := Nat.two_pow_pos D
    omega
  rw [hindex] at hplaced h
  obtain ⟨hlt, rfl⟩ := setNode_some_iff.mp hplaced
  rw [depth_eq] at h
  dsimp only at h
  rw [hh.length] at h
  have hlength : (values ++ [v]).length = values.length + 1 := by simp
  have hfits : (values ++ [v]).length ≤ 2 ^ D := by omega
  have hdepth : Nat.clog 2 (values.length + 1) ≤ D := hlength ▸ clog_le hfits
  obtain ⟨hcap, hlen, hsize, habove, hkept⟩ := rehash_nodes (by omega) (by simpa using hroom) h
  dsimp only at hcap hlen hsize hkept
  -- the nodes above the new leaf are the only ones that changed
  have hother : ∀ {ℓ j : Nat}, ℓ ≤ D → j < 2 ^ (D - ℓ) → j ≠ values.length / 2 ^ ℓ →
      t'.nodes[pos D ℓ j]? = t.nodes[pos D ℓ j]? := by
    intro ℓ j hℓ hj hne
    have haway : ∀ m ≤ D, pos D ℓ j ≠ pos D m (values.length / 2 ^ m) := by
      intro m hm heq
      have hup : values.length / 2 ^ m < 2 ^ (D - m) :=
        index_lt (le_refl (2 ^ D)) hm (lt_of_le_of_lt (Nat.div_mul_le_self _ _) hroom)
      obtain ⟨rfl, rfl⟩ := pos_inj hℓ hm hj hup heq
      exact hne rfl
    rw [hkept fun m hm => ?_]
    · have := haway 0 (Nat.zero_le _)
      rw [Nat.pow_zero, Nat.div_one] at this
      exact List.getElem?_set_ne (Ne.symm this)
    · rw [Nat.zero_add]
      exact haway (m + 1) (by omega)
  have hhalf : ∀ {ℓ : Nat}, ℓ < D → 2 ^ (D - ℓ) = 2 * 2 ^ (D - (ℓ + 1)) := by
    intro ℓ hℓ
    rw [show D - ℓ = D - (ℓ + 1) + 1 by omega, Nat.pow_succ']
  refine {
    capacity := hcap.trans hh.capacity
    size := by simpa [hh.size] using hsize
    length := by rw [hlen, hlength]
    fits := hfits
    leaves := fun {i w} hw => ?_
    hashed := fun {ℓ k} hℓ hk => ?_
    blank := fun {ℓ j} hℓ hj hbeyond => ?_ }
  · by_cases hi : i = values.length
    · rw [hi, List.getElem?_append_right le_rfl, Nat.sub_self] at hw
      cases hw
      rw [hi, hkept fun m hm heq => ?_, List.getElem?_set_self hlt]
      have hup : values.length / 2 ^ (m + 1) < 2 ^ (D - (0 + m + 1)) := by
        rw [Nat.zero_add]
        exact index_lt (le_refl (2 ^ D)) (by omega) (lt_of_le_of_lt (Nat.div_mul_le_self _ _) hroom)
      have := (pos_inj (by omega) (by omega) (by simpa using hroom) hup heq).1
      omega
    · obtain ⟨hi', -⟩ := List.getElem?_eq_some_iff.mp hw
      rw [List.getElem?_append_left (by omega)] at hw
      rw [hother (Nat.zero_le _) (by simp; omega) (by simpa using hi)]
      exact hh.leaves hw
  · rw [hlength] at hℓ hk
    have hle : k ≤ values.length / 2 ^ (ℓ + 1) := (Nat.le_div_iff_mul_le (Nat.two_pow_pos _)).mpr (by omega)
    rcases Nat.eq_or_lt_of_le hle with rfl | hk'
    · have := habove ℓ hℓ
      rwa [Nat.zero_add] at this
    · -- a node that was complete before and has nothing of the new leaf below it
      have hfull : (k + 1) * 2 ^ (ℓ + 1) ≤ values.length := (Nat.le_div_iff_mul_le (Nat.two_pow_pos _)).mp hk'
      have hpow : 2 ^ (ℓ + 1) ≤ values.length := le_trans (Nat.le_mul_of_pos_left _ (Nat.succ_pos k)) hfull
      have hlevel : ℓ < Nat.clog 2 values.length := by
        have := Nat.clog_mono_right 2 hpow
        rw [Nat.clog_pow _ _ Nat.one_lt_two] at this
        omega
      have hk'' : k * 2 ^ (ℓ + 1) < values.length := by
        have := Nat.two_pow_pos (ℓ + 1)
        rw [Nat.succ_mul] at hfull
        omega
      have hD : ℓ < D := by omega
      have hkD : k < 2 ^ (D - (ℓ + 1)) := index_lt hh.fits hD hk''
      have hdiv : values.length / 2 ^ (ℓ + 1) = values.length / 2 ^ ℓ / 2 := by
        rw [Nat.pow_succ, Nat.div_div_eq_div_mul]
      have := hhalf hD
      obtain ⟨a, b, ha, hb, hab⟩ := hh.hashed hlevel hk''
      refine ⟨a, b, ?_, ?_, ?_⟩
      · rw [hother (by omega) (by omega) (by omega), ha]
      · rw [hother (by omega) (by omega) (by omega), hb]
      · rw [hother hD hkD hk'.ne, hab]
  · rw [hlength] at hbeyond
    rw [hother hℓ hj ?_]
    · exact hh.blank hℓ hj (by omega)
    · rintro rfl
      have := Nat.div_mul_le_self values.length (2 ^ ℓ)
      omega

/-- **Inserting appends**: the value takes the next index, and the tree is the one over the longer list. It
doubles while there are default values for it. -/
theorem Holds.insert_le {v : Bytes32} {i : Nat} (hh : Holds sha256 D values t)
    (h : t.insert sha256 v = .some (i, t')) :
    i = values.length ∧ ∃ D', (D ≤ 31 → D' ≤ 31) ∧ Holds sha256 D' (values ++ [v]) t' := by
  simp only [MerkleTree.insert, Option.bind_eq_bind] at h
  split at h
  next hfull =>
    simp only [Option.bind_eq_some_iff] at h
    obtain ⟨u, hu, placed, hplaced, grown, hgrown, h⟩ := h
    cases h
    have hu' := hh.reallocate hfull hu
    have hgrows := (reallocate_isSome hh.capacity hh.size).mp (by rw [hu]; rfl)
    have hroom : values.length < 2 ^ (D + 1) := by
      have hn : values.length = 2 ^ D := by rw [← hh.length, hfull, hh.capacity]
      rw [hn, Nat.pow_succ]
      have := Nat.two_pow_pos D
      omega
    exact ⟨hu'.length, D + 1, fun _ => hgrows, hu'.append hroom hplaced hgrown⟩
  next hroom =>
    simp only [Option.bind_some, Option.bind_eq_some_iff] at h
    obtain ⟨placed, hplaced, grown, hgrown, h⟩ := h
    cases h
    have hne : values.length ≠ 2 ^ D := by rwa [← hh.length, ← hh.capacity]
    exact ⟨hh.length, D, id, hh.append (lt_of_le_of_ne hh.fits hne) hplaced hgrown⟩

theorem Holds.insert {v : Bytes32} {i : Nat} (hh : Holds sha256 D values t) (h : t.insert sha256 v = .some (i, t')) :
    i = values.length ∧ ∃ D', Holds sha256 D' (values ++ [v]) t' := by
  obtain ⟨hi, D', -, hD'⟩ := hh.insert_le h
  exact ⟨hi, D', hD'⟩

theorem rehash_exists : ∀ {levels ℓ j : Nat} {t : MerkleTree}, ℓ + levels ≤ D → j < 2 ^ (D - ℓ) →
    t.nodes.length = 2 ^ (D + 1) - 1 → ∃ t', rehash sha256 levels (pos D ℓ j) t = .some t'
  | 0, _, _, t, _, _, _ => ⟨t, rfl⟩
  | levels + 1, ℓ, j, t, hD, hj, hsize => by
    have hhalf : 2 ^ (D - ℓ) = 2 * 2 ^ (D - (ℓ + 1)) := by
      rw [show D - ℓ = D - (ℓ + 1) + 1 by omega, Nat.pow_succ']
    have hnode : ∀ {ℓ' j' : Nat}, j' < 2 ^ (D - ℓ') → pos D ℓ' j' < t.nodes.length := by
      intro ℓ' j' hj'
      rw [hsize]
      exact pos_lt_size hj'
    simp only [rehash, pos_parent j (show ℓ < D by omega), pos_left (show ℓ < D by omega),
      pos_right (show ℓ < D by omega)]
    rw [List.getElem?_eq_getElem (hnode (by omega)), List.getElem?_eq_getElem (hnode (by omega))]
    simp only [Option.bind_eq_bind, Option.bind_some]
    rw [setNode, if_pos (hnode (by omega)), Option.bind_some]
    exact rehash_exists (by omega) (by omega) (by simpa using hsize)

/-- A value is placed where there is room for it. -/
theorem Holds.place (hh : Holds sha256 D values t) (hroom : values.length < 2 ^ D) (v : Bytes32) :
    ∃ placed done, t.setNode (t.length + t.capacity - 1) (sha256 v.toList) = .some placed ∧
      rehash sha256 { placed with length := placed.length + 1 }.depth (t.length + t.capacity - 1)
        { placed with length := placed.length + 1 } = .some done := by
  have hindex : t.length + t.capacity - 1 = pos D 0 values.length := by
    rw [hh.length, hh.capacity, pos_leaf]
    have := Nat.two_pow_pos D
    omega
  have hdepth : Nat.clog 2 (values.length + 1) ≤ D := (Nat.clog_le_iff_le_pow Nat.one_lt_two).mpr hroom
  have hlt : pos D 0 values.length < t.nodes.length := by
    rw [hh.size]
    exact pos_lt_size (by simpa using hroom)
  have hsize : (t.nodes.set (pos D 0 values.length) (sha256 v.toList)).length = 2 ^ (D + 1) - 1 := by
    simpa using hh.size
  have hrehash : ∃ done, rehash sha256 (Nat.clog 2 (values.length + 1)) (pos D 0 values.length)
      ⟨t.nodes.set (pos D 0 values.length) (sha256 v.toList), t.capacity, values.length + 1⟩ = .some done :=
    rehash_exists (by omega) (by simpa using hroom) hsize
  obtain ⟨done, hdone⟩ := hrehash
  refine ⟨_, done, setNode_some_iff.mpr ⟨hindex ▸ hlt, rfl⟩, ?_⟩
  rw [depth_eq, hindex, hh.length]
  exact hdone

/-- **A value can be inserted as long as there are fewer than `2 ^ 31`.** -/
theorem Holds.insert_isSome (hh : Holds sha256 D values t) (hD : D ≤ 31) (v : Bytes32) :
    (t.insert sha256 v).isSome ↔ values.length < 2 ^ 31 := by
  have hpow : 2 ^ D ≤ 2 ^ 31 := Nat.pow_le_pow_right (by decide) hD
  unfold MerkleTree.insert
  by_cases hfull : t.length = t.capacity
  · have hn : values.length = 2 ^ D := by rw [← hh.length, hfull, hh.capacity]
    have hgrows := reallocate_isSome hh.capacity hh.size
    rw [if_pos hfull, hn]
    cases hwide : t.reallocateToDoubleCapacity with
    | none =>
      rw [hwide] at hgrows
      have hmax : D = 31 := by
        have : ¬D < 31 := fun h => by simpa using hgrows.mpr h
        omega
      simp [hmax]
    | some u =>
      rw [hwide] at hgrows
      have hu := hh.reallocate hfull hwide
      have hroom : values.length < 2 ^ (D + 1) := by
        rw [hn]
        exact Nat.pow_lt_pow_right (by decide) (by omega)
      obtain ⟨placed, done, hplaced, hdone⟩ := hu.place hroom v
      refine iff_of_true ?_ (Nat.pow_lt_pow_right (by decide) (hgrows.mp rfl))
      simp [hplaced, hdone]
  · have hroom : values.length < 2 ^ D := by
      refine lt_of_le_of_ne hh.fits ?_
      rwa [← hh.length, ← hh.capacity]
    obtain ⟨placed, done, hplaced, hdone⟩ := hh.place hroom v
    rw [if_neg hfull]
    refine iff_of_true ?_ (lt_of_lt_of_le hroom hpow)
    simp [hplaced, hdone]

/-! ## The way up -/

theorem rootIndex_eq (hh : Holds sha256 D values t) : t.rootIndex = pos D t.depth 0 := by
  rw [rootIndex, hh.capacity, Nat.log2_two_pow, pos]
  split
  next h => simp [h]
  next => rfl

/-- A climb with the tree's own hash is the digest of the path. -/
theorem computeDigestForPath_eq (c : Commitment) (proof : MembershipProof) :
    computeDigestForPath sha256 c proof = HashTree.climb (hashTwo sha256) proof.1 proof.2 (sha256 c.toList) := by
  obtain ⟨index, path⟩ := proof
  unfold computeDigestForPath
  generalize sha256 c.toList = node
  induction path generalizing index node with
  | nil => rfl
  | cons sibling path ih =>
    rw [List.foldl_cons, HashTree.climb, ih, Nat.shiftRight_one]
    congr 1
    rw [Nat.and_one_is_mod, HashTree.combine]
    split <;> rfl

/-- The loop of `get_authentication_path_for` collects the siblings up to the root. -/
theorem authenticationPath_eq : ∀ {n ℓ j fuel : Nat} {p : List Bytes32}, ℓ + n ≤ D → j < 2 ^ (D - ℓ) →
    j / 2 ^ n = 0 → pos D ℓ j < fuel → path t.nodes D n ℓ j = .some p →
      t.authenticationPath (pos D (ℓ + n) 0) fuel (pos D ℓ j) = .some p
  | _, _, _, 0, _, _, _, _, hfuel, _ => absurd hfuel (Nat.not_lt_zero _)
  | 0, ℓ, j, fuel + 1, p, _, _, hroot, _, hp => by
    rw [Nat.pow_zero, Nat.div_one] at hroot
    subst hroot
    simpa [authenticationPath, path] using hp
  | n + 1, ℓ, j, fuel + 1, p, hD, hj, hroot, hfuel, hp => by
    simp only [path, Option.bind_eq_bind, Option.bind_eq_some_iff] at hp
    obtain ⟨s, hs, p', hp', he⟩ := hp
    cases he
    have hhalf : 2 ^ (D - ℓ) = 2 * 2 ^ (D - (ℓ + 1)) := by
      rw [show D - ℓ = D - (ℓ + 1) + 1 by omega, Nat.pow_succ']
    have hpos := Nat.two_pow_pos (D - (ℓ + 1))
    have hbelow : pos D ℓ j ≠ pos D (ℓ + (n + 1)) 0 := by
      intro heq
      have := (pos_inj (by omega) (by omega) hj (Nat.two_pow_pos _) heq).1
      omega
    have hnonzero : pos D ℓ j ≠ 0 := by
      unfold pos
      omega
    have hparent := pos_parent j (show ℓ < D by omega)
    have ih := authenticationPath_eq (n := n) (ℓ := ℓ + 1) (j := j / 2) (by omega) (by omega)
      (by rwa [Nat.div_div_eq_div_mul, ← Nat.pow_succ']) (show pos D (ℓ + 1) (j / 2) < fuel by omega) hp'
    rw [show ℓ + 1 + n = ℓ + (n + 1) by omega] at ih
    simp [authenticationPath, hbelow, hnonzero, pos_sibling j (show ℓ < D by omega), hs, hparent, ih]

/-- The path handed out for an index is the one in the array, and it leads to the root. -/
theorem Holds.path_up {i : Nat} {v : Bytes32} (hh : Holds sha256 D values t) (hv : values[i]? = .some v) :
    ∃ p, HeapTree.path t.nodes D (Nat.clog 2 values.length) 0 i = .some p ∧ t.getAuthenticationPathFor i = .some p ∧
      t.root = .some (HashTree.climb (hashTwo sha256) i p (sha256 v.toList)) := by
  obtain ⟨hi, -⟩ := List.getElem?_eq_some_iff.mp hv
  have hdepth : t.depth = Nat.clog 2 values.length := by rw [depth_eq, hh.length]
  have hD : Nat.clog 2 values.length ≤ D := clog_le hh.fits
  have htop : i / 2 ^ Nat.clog 2 values.length = 0 :=
    Nat.div_eq_of_lt (lt_of_lt_of_le hi (Nat.le_pow_clog Nat.one_lt_two _))
  obtain ⟨p, hp, -, hroot⟩ := climb_path (hashTwo sha256) (ℓ := 0) (hh.leaves hv) fun m hm => by
    rw [Nat.zero_add]
    exact hh.hashed hm (lt_of_le_of_lt (Nat.div_mul_le_self _ _) hi)
  rw [Nat.zero_add, htop, ← hdepth, ← rootIndex_eq hh] at hroot
  refine ⟨p, hp, ?_, hroot⟩
  have hfits := hh.fits
  have hstart : t.capacity + i - 1 = pos D 0 i := by
    rw [hh.capacity, pos_leaf]
    omega
  have hfuel : pos D 0 i < t.capacity + i := by
    have := Nat.two_pow_pos D
    rw [hh.capacity, pos_leaf]
    omega
  have hloop := authenticationPath_eq (by omega) (by rw [Nat.sub_zero]; omega) htop hfuel hp
  rw [Nat.zero_add, ← hdepth, ← rootIndex_eq hh] at hloop
  rw [getAuthenticationPathFor, if_neg (by rw [hh.length]; omega), hstart, hloop]

/-- **The path handed out for an index leads to the root**: a value of the tree has a path, and its digest
is the root's. -/
theorem Holds.path {i : Nat} {v : Bytes32} (hh : Holds sha256 D values t) (hv : values[i]? = .some v) :
    ∃ p, t.getAuthenticationPathFor i = .some p ∧ t.root = .some (computeDigestForPath sha256 v (i, p)) := by
  obtain ⟨p, -, hpath, hroot⟩ := hh.path_up hv
  exact ⟨p, hpath, by rw [hroot, computeDigestForPath_eq]⟩

/-! ## The way down -/

/-- `DEFAULT_VALUES` are the roots of empty trees under this hash. -/
def EmptyRoots (sha256 : Bytes → Bytes32) : Prop :=
  ∀ ℓ a b, defaultValues[ℓ]? = .some a → defaultValues[ℓ + 1]? = .some b → b = hashTwo sha256 a a

/-- The leaves under the root, empty ones included. -/
def paddedLeaves (sha256 : Bytes → Bytes32) (values : List Bytes32) : List Bytes32 :=
  values.map (fun v => sha256 v.toList) ++
    List.replicate (2 ^ Nat.clog 2 values.length - values.length) (bytes32OfNat 0)

theorem Holds.node_isSome (hh : Holds sha256 D values t) {ℓ j : Nat} (hj : j < 2 ^ (D - ℓ)) :
    ∃ v, t.nodes[pos D ℓ j]? = .some v :=
  ⟨_, List.getElem?_eq_getElem (by rw [hh.size]; exact pos_lt_size hj)⟩

/-- Under the root every node is the hash of its children, the empty ones as well. -/
theorem Holds.combines (hempty : EmptyRoots sha256) (hh : Holds sha256 D values t) {ℓ k : Nat}
    (hℓ : ℓ < Nat.clog 2 values.length) (hk : k < 2 ^ (Nat.clog 2 values.length - (ℓ + 1))) :
    Combines (hashTwo sha256) t.nodes D ℓ k := by
  by_cases hover : k * 2 ^ (ℓ + 1) < values.length
  · exact hh.hashed hℓ hover
  · have hD := clog_le hh.fits
    have hk' : k < 2 ^ (D - (ℓ + 1)) := lt_of_lt_of_le hk (Nat.pow_le_pow_right (by decide) (by omega))
    have hhalf : 2 ^ (D - ℓ) = 2 * 2 ^ (D - (ℓ + 1)) := by
      rw [show D - ℓ = D - (ℓ + 1) + 1 by omega, Nat.pow_succ']
    have hbelow : values.length ≤ 2 * k * 2 ^ ℓ := by
      rw [show 2 * k * 2 ^ ℓ = k * 2 ^ (ℓ + 1) by rw [Nat.pow_succ]; ring]
      omega
    obtain ⟨a, ha⟩ := hh.node_isSome (ℓ := ℓ) (j := 2 * k) (by omega)
    obtain ⟨b, hb⟩ := hh.node_isSome hk'
    have hleft := hh.blank (by omega) (show 2 * k < 2 ^ (D - ℓ) by omega) hbelow
    have hright := hh.blank (by omega) (show 2 * k + 1 < 2 ^ (D - ℓ) by omega)
      (le_trans hbelow (Nat.mul_le_mul_right _ (Nat.le_succ _)))
    have hup := hh.blank (by omega) hk' (Nat.le_of_not_lt hover)
    refine ⟨a, a, ha, ?_, ?_⟩
    · rw [hright, ← hleft, ha]
    · rw [hb, hempty ℓ a b (hleft.symm.trans ha) (hup.symm.trans hb)]

theorem paddedLeaves_length (sha256 : Bytes → Bytes32) (values : List Bytes32) :
    (paddedLeaves sha256 values).length = 2 ^ Nat.clog 2 values.length := by
  have := Nat.le_pow_clog Nat.one_lt_two values.length
  simp [paddedLeaves]
  omega

theorem Holds.leaf (hh : Holds sha256 D values t) {j : Nat} (hj : j < 2 ^ Nat.clog 2 values.length) :
    (paddedLeaves sha256 values)[j]? = t.nodes[pos D 0 j]? := by
  by_cases hlt : j < values.length
  · rw [paddedLeaves, List.getElem?_append_left (by simpa using hlt), List.getElem?_map,
      List.getElem?_eq_getElem hlt, Option.map_some, hh.leaves (List.getElem?_eq_getElem hlt)]
  · have hD := Nat.pow_le_pow_right (n := 2) (by decide) (clog_le hh.fits)
    rw [hh.blank (Nat.zero_le _) (by rw [Nat.sub_zero]; omega) (by rw [Nat.pow_zero]; omega), paddedLeaves,
      List.getElem?_append_right (by simp; omega), List.getElem?_replicate_of_lt (by simp; omega)]
    rfl

/-- The root is the top of the hash tree over the leaves. -/
theorem Holds.root_eq (hempty : EmptyRoots sha256) (hh : Holds sha256 D values t) :
    t.root = (HashTree.level (hashTwo sha256) (Nat.clog 2 values.length) (paddedLeaves sha256 values))[0]? := by
  rw [level_eq (hashTwo sha256) (paddedLeaves_length sha256 values) hh.leaf (hh.combines hempty) le_rfl
    (Nat.two_pow_pos _), root, rootIndex_eq hh, depth_eq, hh.length]

/-- The strings hashed to build the tree over `values`. -/
def treePreimages (sha256 : Bytes → Bytes32) (values : List Bytes32) : List Bytes :=
  values.map (·.toList) ++
    (HashTree.treePairs (hashTwo sha256) (Nat.clog 2 values.length) (paddedLeaves sha256 values)).map pairPreimage

/-- The strings hashed on the way of a path. -/
def pathPreimages (sha256 : Bytes → Bytes32) (c : Commitment) (proof : MembershipProof) : List Bytes :=
  c.toList :: (HashTree.climbPairs (hashTwo sha256) proof.1 proof.2 (sha256 c.toList)).map pairPreimage

/-- No two of these strings share a digest, and none has the digest of an empty leaf. -/
structure CollisionFree (sha256 : Bytes → Bytes32) (Q : Set Bytes) : Prop where
  injOn : Set.InjOn sha256 Q
  nonzero : ∀ q ∈ Q, sha256 q ≠ bytes32OfNat 0

/-- A value is 32 bytes, a pair 64. -/
theorem value_ne_pairPreimage (v : Bytes32) (p : Bytes32 × Bytes32) : v.toList ≠ pairPreimage p := by
  intro h
  have hl := congrArg List.length h
  simp [pairPreimage] at hl

/-- **A path to the root starts at a value of the tree**, whatever its siblings and its length. -/
theorem Holds.opens (hempty : EmptyRoots sha256) (hh : Holds sha256 D values t) {Q : Set Bytes}
    (hfree : CollisionFree sha256 Q) {c : Commitment} {proof : MembershipProof}
    (htree : ∀ q ∈ treePreimages sha256 values, q ∈ Q) (hpath : ∀ q ∈ pathPreimages sha256 c proof, q ∈ Q)
    (hroot : t.root = .some (computeDigestForPath sha256 c proof)) : c ∈ values := by
  have hleaf : c.toList ∈ Q := hpath _ List.mem_cons_self
  have hvalue : ∀ v ∈ values, v.toList ∈ Q := fun v hv =>
    htree _ (List.mem_append_left _ (List.mem_map_of_mem hv))
  have hinj : Set.InjOn (fun p : Bytes32 × Bytes32 => hashTwo sha256 p.1 p.2) {p | pairPreimage p ∈ Q} := by
    intro p hp q hq heq
    exact pairPreimage_injective (hfree.injOn hp hq heq)
  have hpadded : ∀ v ∈ paddedLeaves sha256 values, (∃ u ∈ values, v = sha256 u.toList) ∨ v = bytes32OfNat 0 := by
    intro v hv
    rcases List.mem_append.mp hv with hv | hv
    · obtain ⟨u, hu, rfl⟩ := List.mem_map.mp hv
      exact .inl ⟨u, hu, rfl⟩
    · exact .inr (List.eq_of_mem_replicate hv)
  rw [hh.root_eq hempty, computeDigestForPath_eq] at hroot
  rcases HashTree.climb_reaches (hashTwo sha256) hinj
    (fun q hq => htree _ (List.mem_append_right _ (List.mem_map_of_mem hq)))
    (fun q hq => hpath _ (List.mem_cons_of_mem _ (List.mem_map_of_mem hq))) hroot with
    hmem | ⟨q, hq, heq⟩ | ⟨v, hv, q, hq, heq⟩
  · rcases hpadded _ hmem with ⟨u, hu, heq⟩ | heq
    · rwa [List.Vector.toList_injective (hfree.injOn hleaf (hvalue u hu) heq)]
    · exact absurd heq (hfree.nonzero _ hleaf)
  · exact absurd (hfree.injOn hleaf hq heq) (value_ne_pairPreimage c q)
  · rcases hpadded v hv with ⟨u, hu, rfl⟩ | rfl
    · exact absurd (hfree.injOn (hvalue u hu) hq heq) (value_ne_pairPreimage u q)
    · exact absurd heq.symm (hfree.nonzero _ hq)

end Lez.MerkleTree
