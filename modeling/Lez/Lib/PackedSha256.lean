/-
SHA-256 on packed numbers: a block is one number of 512 bits, the window of
the message schedule another, and the three rotations of a word come off one
doubled word. It is the function of `Lez.Lib.Sha256` (`hash_eq_packed`), and
a concrete run is evaluated faster with it, since no list is walked.
-/
import Lez.Lib.Sha256
import Mathlib.Data.Nat.Bitwise

namespace Lez.Sha256

/-- The word at a bit of a window. -/
def wordAt (window i : Nat) : Nat := Nat.mod (Nat.shiftRight window i) 0x100000000

/-- A word twice in a row: its rotations are windows on it. -/
def doubled (x : Nat) : Nat := Nat.mul x 0x100000001

def bigSigma0 (xx : Nat) : Nat :=
  word (Nat.xor (Nat.xor (Nat.shiftRight xx 2) (Nat.shiftRight xx 13)) (Nat.shiftRight xx 22))

def bigSigma1 (xx : Nat) : Nat :=
  word (Nat.xor (Nat.xor (Nat.shiftRight xx 6) (Nat.shiftRight xx 11)) (Nat.shiftRight xx 25))

def smallSigma0 (x xx : Nat) : Nat :=
  Nat.xor (word (Nat.xor (Nat.shiftRight xx 7) (Nat.shiftRight xx 18))) (Nat.shiftRight x 3)

def smallSigma1 (x xx : Nat) : Nat :=
  Nat.xor (word (Nat.xor (Nat.shiftRight xx 17) (Nat.shiftRight xx 19))) (Nat.shiftRight x 10)

def packedRound (s : Working) (k w : Nat) : Working :=
  match s with
  | ⟨a, b, c, d, e, f, g, h⟩ =>
    let t₁ := h + bigSigma1 (doubled e) + Nat.xor (Nat.land e f) (Nat.land (Nat.xor e 0xffffffff) g) + k + w
    let t₂ := bigSigma0 (doubled a) + xor3 (Nat.land a b) (Nat.land a c) (Nat.land b c)
    ⟨word (t₁ + t₂), a, b, c, word (d + t₁), e, f, g⟩

/-- The next word of the schedule. -/
def packedNext (window : Nat) : Nat :=
  word (wordAt window 480 + smallSigma0 (wordAt window 448) (doubled (wordAt window 448)) + wordAt window 192 +
    smallSigma1 (wordAt window 32) (doubled (wordAt window 32)))

/-- The window a word further. -/
def slide (window : Nat) : Nat :=
  Nat.add (Nat.shiftLeft (Nat.mod window (2 ^ 480)) 32) (packedNext window)

/-- A step for each constant, on a window that moves on. -/
def sweep (next : Nat → Nat) (step : Nat → Nat → Working → Working) : List Nat → Nat → Working → Working
  | [], _, s => s
  | k :: ks, window, s => sweep next step ks (next window) (step k window s)

def packedStep (k window : Nat) (s : Working) : Working := packedRound s k (wordAt window 480)

def packedRounds : List Nat → Nat → Working → Working := sweep slide packedStep

def packedCompress (s : Working) (block : Nat) : Working := s.add (packedRounds roundConstants block s)

/-- The block with `n` blocks behind it. -/
def blockAt (message n : Nat) : Nat := Nat.mod (Nat.shiftRight message (512 * n)) (2 ^ 512)

/-- A step for each of the last `n` blocks. -/
def eachBlock (step : Working → Nat → Working) (message : Nat) : Nat → Working → Working
  | 0, s => s
  | n + 1, s => eachBlock step message n (step s (blockAt message n))

def packedBlocks (n message : Nat) (s : Working) : Working := eachBlock packedCompress message n s

/-- The padded message as one number. -/
def packedPadding (m : Bytes) : Nat :=
  (m.foldl (fun n b => n * 256 + b.toNat) 0 * 256 + 128) * 256 ^ ((119 - m.length % 64) % 64 + 8) +
    8 * m.length % 256 ^ 8

def packed (m : Bytes) : Bytes32 := output (packedBlocks ((m.length + 72) / 64) (packedPadding m) initial)

/-! ## Digits -/

/-- The number with these digits in base `b`, the highest first. -/
def number (b : Nat) (digits : List Nat) : Nat := digits.foldl (fun n d => n * b + d) 0

section
variable {b w n : Nat} {xs ys : List Nat}

theorem foldl_digits (b n : Nat) (ys : List Nat) :
    ys.foldl (fun n d => n * b + d) n = n * b ^ ys.length + number b ys := by
  induction ys generalizing n with
  | nil => simp [number]
  | cons d ys ih =>
    have hrest : number b (d :: ys) = (0 * b + d) * b ^ ys.length + number b ys := ih (0 * b + d)
    rw [List.foldl_cons, ih, hrest, List.length_cons, Nat.pow_succ]
    ring

theorem number_append (b : Nat) (xs ys : List Nat) :
    number b (xs ++ ys) = number b xs * b ^ ys.length + number b ys := by
  rw [number, List.foldl_append, foldl_digits]
  rfl

theorem number_cons (b d : Nat) (ys : List Nat) : number b (d :: ys) = d * b ^ ys.length + number b ys := by
  have h := number_append b [d] ys
  simpa [number] using h

theorem number_lt (h : ∀ d ∈ ys, d < b) : number b ys < b ^ ys.length := by
  induction ys with
  | nil => simp [number]
  | cons d ys ih =>
    have hd : d + 1 ≤ b := h d List.mem_cons_self
    have hys := ih fun d hd => h d (List.mem_cons_of_mem _ hd)
    calc number b (d :: ys) = d * b ^ ys.length + number b ys := number_cons b d ys
      _ < d * b ^ ys.length + b ^ ys.length := by omega
      _ = (d + 1) * b ^ ys.length := by ring
      _ ≤ b * b ^ ys.length := Nat.mul_le_mul_right _ hd
      _ = b ^ (d :: ys).length := by rw [List.length_cons, Nat.pow_succ']

/-- The digit in front of `ys`. -/
theorem digit_of_number (hw : w < b) (hys : ∀ d ∈ ys, d < b) :
    number b (xs ++ w :: ys) / b ^ ys.length % b = w := by
  have hlt := number_lt hys
  have hsplit : number b (xs ++ w :: ys) = number b ys + b ^ ys.length * (w + b * number b xs) := by
    rw [number_append, number_cons, List.length_cons, Nat.pow_succ]
    ring
  rw [hsplit, Nat.add_mul_div_left _ _ (by omega), Nat.div_eq_of_lt hlt, Nat.zero_add, Nat.add_mul_mod_self_left,
    Nat.mod_eq_of_lt hw]

theorem wordAt_number (hw : w < 2 ^ 32) (hys : ∀ d ∈ ys, d < 2 ^ 32) :
    wordAt (number (2 ^ 32) (xs ++ w :: ys)) (32 * ys.length) = w := by
  have h := @digit_of_number (2 ^ 32) w xs ys hw hys
  rw [← Nat.pow_mul] at h
  rw [← Nat.shiftRight_eq_div_pow] at h
  rw [wordAt]
  exact h

end

/-! ## Rotations -/

section
variable {x n : Nat}

theorem word_lt (n : Nat) : word n < 2 ^ 32 := Nat.mod_lt _ (by decide)

theorem doubled_eq (hx : x < 2 ^ 32) : doubled x = x <<< 32 ||| x := by
  rw [← Nat.shiftLeft_add_eq_or_of_lt hx, Nat.shiftLeft_eq]
  change x * 0x100000001 = x * 2 ^ 32 + x
  omega

theorem rotr_doubled (hx : x < 2 ^ 32) (hn : n ≤ 32) : word (Nat.shiftRight (doubled x) n) = rotr x n := by
  have hhigh : ∀ i, 32 ≤ i → x.testBit i = false := fun i hi =>
    Nat.testBit_lt_two_pow (Nat.lt_of_lt_of_le hx (Nat.pow_le_pow_right (by decide) hi))
  change (doubled x >>> n) % 2 ^ 32 = x >>> n ||| (x <<< (32 - n)) % 2 ^ 32
  rw [doubled_eq hx]
  apply Nat.eq_of_testBit_eq
  intro i
  simp only [Nat.testBit_mod_two_pow, Nat.testBit_shiftRight, Nat.testBit_or, Nat.testBit_shiftLeft]
  by_cases hi : i < 32
  · have hsub : n + i - 32 = i - (32 - n) := by omega
    by_cases hge : 32 ≤ n + i
    · have hge' : 32 - n ≤ i := by omega
      simp [hi, hge, hge', hsub, hhigh _ hge]
    · have hge' : ¬32 - n ≤ i := by omega
      simp [hi, hge, hge']
  · simp [hi, hhigh (n + i) (by omega)]

theorem word_xor (x y : Nat) : word (Nat.xor x y) = Nat.xor (word x) (word y) :=
  @Nat.xor_mod_two_pow x y 32

theorem bigSigma0_doubled (hx : x < 2 ^ 32) : bigSigma0 (doubled x) = xor3 (rotr x 2) (rotr x 13) (rotr x 22) := by
  unfold bigSigma0 xor3
  rw [word_xor, word_xor, rotr_doubled hx (by decide), rotr_doubled hx (by decide), rotr_doubled hx (by decide)]

theorem bigSigma1_doubled (hx : x < 2 ^ 32) : bigSigma1 (doubled x) = xor3 (rotr x 6) (rotr x 11) (rotr x 25) := by
  unfold bigSigma1 xor3
  rw [word_xor, word_xor, rotr_doubled hx (by decide), rotr_doubled hx (by decide), rotr_doubled hx (by decide)]

theorem smallSigma0_doubled (hx : x < 2 ^ 32) :
    smallSigma0 x (doubled x) = xor3 (rotr x 7) (rotr x 18) (Nat.shiftRight x 3) := by
  unfold smallSigma0 xor3
  rw [word_xor, rotr_doubled hx (by decide), rotr_doubled hx (by decide)]

theorem smallSigma1_doubled (hx : x < 2 ^ 32) :
    smallSigma1 x (doubled x) = xor3 (rotr x 17) (rotr x 19) (Nat.shiftRight x 10) := by
  unfold smallSigma1 xor3
  rw [word_xor, rotr_doubled hx (by decide), rotr_doubled hx (by decide)]

end

/-! ## Rounds -/

/-- The two variables that are rotated are words. -/
structure Working.Fits (s : Working) : Prop where
  a : s.a < 2 ^ 32
  e : s.e < 2 ^ 32

section
variable {s : Working} {ws : List Nat}

theorem packedRound_eq (hs : s.Fits) (k w : Nat) : packedRound s k w = round s k w := by
  unfold packedRound round
  simp only [bigSigma1_doubled hs.e, bigSigma0_doubled hs.a]

theorem round_fits (s : Working) (k w : Nat) : (round s k w).Fits := ⟨word_lt _, word_lt _⟩

theorem add_fits (s t : Working) : (s.add t).Fits := ⟨word_lt _, word_lt _⟩

theorem packedNext_number (hlen : ws.length = 16) (hws : ∀ w ∈ ws, w < 2 ^ 32) :
    packedNext (number (2 ^ 32) ws) = scheduleNext ws := by
  match ws, hlen with
  | [w0, w1, w2, w3, w4, w5, w6, w7, w8, w9, w10, w11, w12, w13, w14, w15], _ =>
    simp only [List.forall_mem_cons] at hws
    have h0 : wordAt (number (2 ^ 32) [w0, w1, w2, w3, w4, w5, w6, w7, w8, w9, w10, w11, w12, w13, w14, w15]) 480 = w0 :=
      @wordAt_number w0 [] [w1, w2, w3, w4, w5, w6, w7, w8, w9, w10, w11, w12, w13, w14, w15] hws.1
        (by simp only [List.forall_mem_cons]; exact hws.2)
    have h1 : wordAt (number (2 ^ 32) [w0, w1, w2, w3, w4, w5, w6, w7, w8, w9, w10, w11, w12, w13, w14, w15]) 448 = w1 :=
      @wordAt_number w1 [w0] [w2, w3, w4, w5, w6, w7, w8, w9, w10, w11, w12, w13, w14, w15] hws.2.1
        (by simp only [List.forall_mem_cons]; exact hws.2.2)
    have h9 : wordAt (number (2 ^ 32) [w0, w1, w2, w3, w4, w5, w6, w7, w8, w9, w10, w11, w12, w13, w14, w15]) 192 = w9 :=
      @wordAt_number w9 [w0, w1, w2, w3, w4, w5, w6, w7, w8] [w10, w11, w12, w13, w14, w15] hws.2.2.2.2.2.2.2.2.2.1
        (by simp only [List.forall_mem_cons]; exact hws.2.2.2.2.2.2.2.2.2.2)
    have h14 : wordAt (number (2 ^ 32) [w0, w1, w2, w3, w4, w5, w6, w7, w8, w9, w10, w11, w12, w13, w14, w15]) 32 = w14 :=
      @wordAt_number w14 [w0, w1, w2, w3, w4, w5, w6, w7, w8, w9, w10, w11, w12, w13] [w15]
        hws.2.2.2.2.2.2.2.2.2.2.2.2.2.2.1 (by simp only [List.forall_mem_cons]; exact hws.2.2.2.2.2.2.2.2.2.2.2.2.2.2.2)
    rw [packedNext, scheduleNext, h0, h1, h9, h14, smallSigma0_doubled hws.2.1,
      smallSigma1_doubled hws.2.2.2.2.2.2.2.2.2.2.2.2.2.2.1]

theorem slide_number {w : Nat} (hlen : ws.length = 15) (hws : ∀ w ∈ ws, w < 2 ^ 32) (hw : w < 2 ^ 32) :
    slide (number (2 ^ 32) (w :: ws)) = number (2 ^ 32) (ws ++ [scheduleNext (w :: ws)]) := by
  have hlt := number_lt hws
  have hnext := @packedNext_number (w :: ws) (by simp [hlen]) (List.forall_mem_cons.mpr ⟨hw, hws⟩)
  have htail : number (2 ^ 32) (w :: ws) % 2 ^ 480 = number (2 ^ 32) ws := by
    rw [number_cons, hlen, ← Nat.pow_mul, Nat.mul_add_mod_self_right]
    exact Nat.mod_eq_of_lt (by rw [hlen, ← Nat.pow_mul] at hlt; exact hlt)
  unfold slide
  rw [hnext, number_append]
  change (number (2 ^ 32) (w :: ws) % 2 ^ 480) <<< 32 + _ = _
  rw [htail, Nat.shiftLeft_eq]
  simp [number]

theorem scheduleNext_lt (hlen : ws.length = 16) (hws : ∀ w ∈ ws, w < 2 ^ 32) : scheduleNext ws < 2 ^ 32 := by
  rw [← packedNext_number hlen hws, packedNext]
  exact word_lt _

theorem wordAt_first {w : Nat} (hlen : ws.length = 15) (hws : ∀ w ∈ ws, w < 2 ^ 32) (hw : w < 2 ^ 32) :
    wordAt (number (2 ^ 32) (w :: ws)) 480 = w := by
  have h := @wordAt_number w [] ws hw hws
  rw [hlen] at h
  exact h

theorem packedRounds_eq (ks : List Nat) : ∀ {ws : List Nat} {s : Working}, ws.length = 16 →
    (∀ w ∈ ws, w < 2 ^ 32) → s.Fits → packedRounds ks (number (2 ^ 32) ws) s = rounds ks ws s := by
  induction ks with
  | nil => intros; rfl
  | cons k ks ih =>
    intro ws s hlen hall hs
    obtain ⟨w, ws, rfl⟩ := List.exists_cons_of_length_eq_add_one hlen
    obtain ⟨hw, hws⟩ := List.forall_mem_cons.mp hall
    have htail : ws.length = 15 := Nat.succ.inj hlen
    have hslid : ∀ v ∈ ws ++ [scheduleNext (w :: ws)], v < 2 ^ 32 := by
      intro v hv
      rcases List.mem_append.mp hv with hv | hv
      · exact hws v hv
      · exact List.mem_singleton.mp hv ▸ scheduleNext_lt hlen hall
    have hlength : (ws ++ [scheduleNext (w :: ws)]).length = 16 := by rw [List.length_append, htail]; rfl
    rw [packedRounds, sweep, rounds, packedStep, wordAt_first htail hws hw, packedRound_eq hs, slide_number htail hws hw]
    exact ih hlength hslid (round_fits s k w)

/-! ## Blocks -/

theorem packedBlocks_eq (n : Nat) : ∀ {ws : List Nat} {message : Nat} {s : Working}, ws.length = 16 * n →
    (∀ w ∈ ws, w < 2 ^ 32) → message % 2 ^ (512 * n) = number (2 ^ 32) ws → s.Fits →
    packedBlocks n message s = blocks n ws s := by
  induction n with
  | zero => intros; rfl
  | succ n ih =>
    intro ws message s hlen hws hmessage hs
    have htake : (ws.take 16).length = 16 := by rw [List.length_take]; omega
    have hdrop : (ws.drop 16).length = 16 * n := by rw [List.length_drop]; omega
    have hwt : ∀ w ∈ ws.take 16, w < 2 ^ 32 := fun w hw => hws w (List.mem_of_mem_take hw)
    have hwd : ∀ w ∈ ws.drop 16, w < 2 ^ 32 := fun w hw => hws w (List.mem_of_mem_drop hw)
    have hlow := number_lt hwd
    have hhigh := number_lt hwt
    have hsplit := number_append (2 ^ 32) (ws.take 16) (ws.drop 16)
    rw [List.take_append_drop, hdrop, ← hmessage, ← Nat.pow_mul, ← Nat.mul_assoc] at hsplit
    rw [hdrop, ← Nat.pow_mul, ← Nat.mul_assoc] at hlow
    -- the block is the top of what is left, the rest of the message is below it
    have hpow : 2 ^ (512 * (n + 1)) = 2 ^ (512 * n) * 2 ^ 512 := by rw [← Nat.pow_add]; rfl
    have hrest : message % 2 ^ (512 * n) = number (2 ^ 32) (ws.drop 16) := by
      rw [← Nat.mod_mul_right_mod message (2 ^ (512 * n)) (2 ^ 512), ← hpow, hsplit, Nat.mul_add_mod_self_right,
        Nat.mod_eq_of_lt hlow]
    have hblock : blockAt message n = number (2 ^ 32) (ws.take 16) := by
      change (message >>> (512 * n)) % 2 ^ 512 = _
      rw [Nat.shiftRight_eq_div_pow, ← Nat.mod_mul_right_div_self, ← hpow, hsplit, Nat.mul_comm,
        Nat.mul_add_div (Nat.two_pow_pos _), Nat.div_eq_of_lt hlow, Nat.add_zero]
    have hcompress : packedCompress s (blockAt message n) = compress s (ws.take 16) := by
      rw [hblock, packedCompress, compress, packedRounds_eq _ htake hwt hs]
    rw [packedBlocks, eachBlock, blocks, hcompress]
    exact ih hdrop hwd hrest (add_fits _ _)

end

/-! ## The message -/

theorem words_facts : ∀ {bs : Bytes}, bs.length % 4 = 0 → (words bs).length = bs.length / 4 ∧
    (∀ w ∈ words bs, w < 2 ^ 32) ∧ number (2 ^ 32) (words bs) = number 256 (bs.map (·.toNat))
  | [], _ => by simp [words, number]
  | [_], h => by simp at h
  | [_, _], h => by simp at h
  | [_, _, _], h => by simp at h
  | b₀ :: b₁ :: b₂ :: b₃ :: bs, h => by
    obtain ⟨hlen, hlt, hnumber⟩ := @words_facts bs (by simp only [List.length_cons] at h; omega)
    have hbytes : (words bs).length * 4 = bs.length := by
      simp only [List.length_cons] at h
      omega
    refine ⟨?_, ?_, ?_⟩
    · simp only [words, List.length_cons, hlen]
      omega
    · have h₀ := b₀.toNat_lt
      have h₁ := b₁.toNat_lt
      have h₂ := b₂.toNat_lt
      have h₃ := b₃.toNat_lt
      simp only [words, List.forall_mem_cons]
      exact ⟨by omega, hlt⟩
    · have hpow : (2 ^ 32) ^ (words bs).length = 256 ^ bs.length := by
        rw [← hbytes, Nat.mul_comm, Nat.pow_mul]
        rfl
      rw [words, number_cons, hpow, hnumber]
      simp only [List.map_cons, number_cons, List.length_cons, List.length_map, Nat.pow_succ]
      ring

theorem number_reverse (bs : Bytes) : number 256 (bs.reverse.map (·.toNat)) = ofLe bs := by
  induction bs with
  | nil => rfl
  | cons b bs ih =>
    rw [List.reverse_cons, List.map_append, number_append, ih]
    simp [number, ofLe]
    ring

theorem number_zeros (n : Nat) : number 256 ((List.replicate n (0 : UInt8)).map (·.toNat)) = 0 := by
  induction n with
  | zero => rfl
  | succ n ih =>
    rw [List.replicate_succ, List.map_cons, number_cons, ih]
    simp

theorem padding_number (m : Bytes) : number 256 ((padding m).map (·.toNat)) = packedPadding m := by
  unfold padding packedPadding
  rw [List.map_append, number_append, List.map_cons, number_cons, List.map_append, number_append, number_zeros,
    number_reverse, ofLe_toLe, number, List.foldl_map]
  simp only [List.length_cons, List.length_append, List.length_map, List.length_replicate, List.length_reverse,
    toLe_length, Nat.pow_succ, UInt8.reduceToNat]
  ring

theorem padding_length (m : Bytes) : (padding m).length = 64 * ((m.length + 72) / 64) := by
  simp only [padding, List.length_append, List.length_cons, List.length_replicate, List.length_reverse, toLe_length]
  omega

/-- **Packed, it is the same function.** -/
theorem hash_eq_packed : hash = packed := by
  funext m
  have hpad := padding_length m
  obtain ⟨hlen, hlt, hnumber⟩ := @words_facts (padding m) (by omega)
  unfold hash packed
  refine congrArg output (packedBlocks_eq _ (by omega) hlt ?_ ⟨by decide, by decide⟩).symm
  rw [padding_number] at hnumber
  have hbound := number_lt hlt
  rw [← hnumber, Nat.mod_eq_of_lt]
  rw [← Nat.pow_mul, hlen, hpad] at hbound
  refine Nat.lt_of_lt_of_eq hbound (congrArg _ ?_)
  omega

end Lez.Sha256
