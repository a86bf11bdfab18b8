import Nerion.Merkle

/-!
# The verifier's bit arithmetic is the tree's shape

Bridges from the translated functions of `Merkle` to the audit-path library: the bit
helpers compute what their names say, the three hash chains are `climb` and
`climbRight` along the verifier's steps, and each verifier accepts exactly when its
guards hold and the climb ends in the given root.
-/

namespace Nerion

/-! ## Bit helpers -/

theorem size_div_two {x : ℕ} (hx : 0 < x) : x.size = (x / 2).size + 1 := by
  have hhalf := Nat.lt_size_self (x / 2)
  apply le_antisymm
  · rw [Nat.size_le, pow_succ]
    omega
  · rw [Nat.succ_le_iff, Nat.lt_size]
    rcases Nat.eq_zero_or_pos (x / 2) with h0 | hpos
    · rw [h0, Nat.size_zero, pow_zero]
      exact hx
    · obtain ⟨t, ht⟩ := Nat.exists_eq_succ_of_ne_zero (Nat.size_pos.mpr hpos).ne'
      have hlow : 2 ^ t ≤ x / 2 := Nat.lt_size.mp (by omega)
      rw [ht, pow_succ]
      omega

theorem bitLengthLoop_natCast {fuel n x : ℕ} (h : x ≤ fuel) :
    bitLengthLoop fuel n x = n + x.size := by
  induction fuel generalizing n x with
  | zero =>
    obtain rfl : x = 0 := by omega
    rw [bitLengthLoop, Nat.size_zero, Nat.add_zero]
  | succ fuel ih =>
    rw [bitLengthLoop]
    rcases Nat.eq_zero_or_pos x with rfl | hx
    · simp
    · rw [if_pos (by exact_mod_cast hx), show ((x : ℤ) / 2) = ((x / 2 : ℕ) : ℤ) by simp,
        ih (by omega), size_div_two hx]
      omega

/-- `bitLength` is the binary length. -/
theorem bitLength_natCast (x : ℕ) : bitLength x = x.size := by
  rw [bitLength, Int.toNat_natCast, bitLengthLoop_natCast le_rfl, Nat.zero_add]

theorem popcountLoop_natCast {fuel x : ℕ} (c : ℤ) (h : x ≤ fuel) (hx : x < 2 ^ 31) :
    popcountLoop fuel c x = c + popCount x := by
  induction fuel generalizing c x with
  | zero =>
    obtain rfl : x = 0 := by omega
    simp [popcountLoop]
  | succ fuel ih =>
    rw [popcountLoop]
    rcases Nat.eq_zero_or_pos x with rfl | hpos
    · simp
    · have hsplit := popCount_two_mul_add (x / 2) (decide (x % 2 = 1))
      rw [← eq_two_mul_add_toNat] at hsplit
      have hbit : (decide (x % 2 = 1)).toNat = x % 2 := by
        rcases Nat.mod_two_eq_zero_or_one x with hb | hb <;> simp [hb]
      rw [if_pos (by exact_mod_cast hpos), show ((x : ℤ) / 2) = ((x / 2 : ℕ) : ℤ) by simp,
        ih _ (by omega) (by omega), bitAnd_one_natCast hx, hsplit, hbit]
      push_cast
      ring

/-- `popcount` counts one bits. -/
theorem popcount_natCast {x : ℕ} (hx : x < 2 ^ 31) : popcount x = popCount x := by
  rw [popcount, Int.toNat_natCast, popcountLoop_natCast 0 le_rfl hx, zero_add]

theorem trailingZerosLoop_natCast {fuel n x : ℕ} (h0 : 0 < x) (h : x ≤ fuel) (hx : x < 2 ^ 31) :
    ∃ s, trailingZerosLoop fuel n x = n + s ∧ 2 ^ s ∣ x ∧ ¬ 2 ^ (s + 1) ∣ x := by
  induction fuel generalizing n x with
  | zero => omega
  | succ fuel ih =>
    rw [trailingZerosLoop, bitAnd_one_natCast hx]
    rcases Nat.mod_two_eq_zero_or_one x with hb | hb
    · obtain ⟨s, hs, hd, hd'⟩ := @ih (n + 1) (x / 2) (by omega) (by omega) (by omega)
      rw [if_pos (by exact_mod_cast hb), shiftRight_natCast hx (by omega),
        show x >>> 1 = x / 2 from Nat.shiftRight_succ x 0, hs]
      have hx2 : x = 2 * (x / 2) := by omega
      refine ⟨s + 1, by omega, ?_, ?_⟩
      · rw [hx2, pow_succ']
        exact Nat.mul_dvd_mul_left 2 hd
      · rw [hx2, pow_succ']
        exact fun hdvd => hd' (Nat.dvd_of_mul_dvd_mul_left (by omega) hdvd)
    · rw [if_neg (by omega)]
      refine ⟨0, rfl, by simp, ?_⟩
      omega

/-- `trailingZeros` is the exponent of two in its argument. -/
theorem trailingZeros_natCast {x : ℕ} (h0 : 0 < x) (hx : x < 2 ^ 31) :
    2 ^ trailingZeros x ∣ x ∧ ¬ 2 ^ (trailingZeros x + 1) ∣ x := by
  obtain ⟨s, hs, hd⟩ := @trailingZerosLoop_natCast x 0 x h0 le_rfl hx
  have heq : trailingZeros x = s := by
    rw [trailingZeros, if_neg (by omega), Int.toNat_natCast, hs, Nat.zero_add]
  rw [heq]
  exact hd

theorem bytesEqual_iff {a b : Bytes} : bytesEqual a b = true ↔ a = b := by
  rw [bytesEqual]
  split
  · rename_i hlen
    exact ⟨nofun, fun h => absurd (congrArg List.length h) hlen⟩
  · rename_i hlen
    rw [List.all_eq_true, ← forall_zip_eq_iff (not_not.mp hlen)]
    exact forall₂_congr fun p _ => beq_iff_eq

section Hash

variable (H : Bytes → Bytes)

/-! ## Chains are climbs -/

theorem bitAnd_shiftRight_natCast {index i : ℕ} (hx : index < 2 ^ 31) (hi : i < 32) :
    bitAnd (shiftRight index i) 1 = ((index.testBit i).toNat : ℤ) := by
  rw [shiftRight_natCast hx hi, bitAnd_one_natCast ((Nat.shiftRight_le index i).trans_lt hx),
    Nat.testBit_eq_decide_div_mod_eq, Nat.shiftRight_eq_div_pow]
  rcases Nat.mod_two_eq_zero_or_one (index / 2 ^ i) with hb | hb <;> simp [hb]

theorem chainInnerFrom_take {index k i : ℕ} (hx : index < 2 ^ 31) (hk : i + k ≤ 32)
    (acc : Bytes) (proof : List Bytes) :
    chainInnerFrom H index i acc (proof.take k) =
      climb (nodeHash H) acc (((List.range k).map fun t => index.testBit (i + t)).zip proof) := by
  induction k generalizing i acc proof with
  | zero => rfl
  | succ k ih =>
    cases proof with
    | nil => simp [chainInnerFrom]
    | cons p ps =>
      rw [List.take_succ_cons, chainInnerFrom, ih (by omega),
        bitAnd_shiftRight_natCast hx (by omega), map_testBit_range_succ, List.zip_cons_cons,
        climb_cons]
      cases index.testBit i <;> rfl

theorem chainInnerRightFrom_take {index k i : ℕ} (hx : index < 2 ^ 31) (hk : i + k ≤ 32)
    (acc : Bytes) (proof : List Bytes) :
    chainInnerRightFrom H index i acc (proof.take k) =
      climbRight (nodeHash H) acc
        (((List.range k).map fun t => index.testBit (i + t)).zip proof) := by
  induction k generalizing i acc proof with
  | zero => rfl
  | succ k ih =>
    cases proof with
    | nil => simp [chainInnerRightFrom]
    | cons p ps =>
      rw [List.take_succ_cons, chainInnerRightFrom, ih (by omega),
        bitAnd_shiftRight_natCast hx (by omega), map_testBit_range_succ, List.zip_cons_cons,
        climbRight_cons]
      cases index.testBit i <;> rfl

theorem chainBorderRight_eq_climb (seed : Bytes) (proof : List Bytes) :
    chainBorderRight H seed proof = climb (nodeHash H) seed (proof.map fun p => (true, p)) := by
  rw [chainBorderRight, climb, List.foldl_map]
  rfl

theorem chainBorderRight_eq_climbRight (seed : Bytes) (proof : List Bytes) :
    chainBorderRight H seed proof =
      climbRight (nodeHash H) seed (proof.map fun p => (true, p)) := by
  rw [chainBorderRight, climbRight, List.foldl_map]
  rfl

variable {index inner : ℕ} {root1 root2 : Bytes} {proof : List Bytes} {leaf root : Bytes}

/-- Inner part, then border: one climb along the verifier's steps. -/
theorem chain_eq_climb (hx : index < 2 ^ 31) (hi : inner ≤ 32) (seed : Bytes) (proof : List Bytes) :
    chainBorderRight H (chainInner H seed (proof.take inner) index) (proof.drop inner) =
      climb (nodeHash H) seed (auditSteps inner index proof) := by
  rw [chainInner, chainInnerFrom_take H hx (by omega), chainBorderRight_eq_climb, ← climb_append]
  simp only [Nat.zero_add]
  rfl

theorem chainRight_eq_climbRight (hx : index < 2 ^ 31) (hi : inner ≤ 32) (seed : Bytes)
    (proof : List Bytes) :
    chainBorderRight H (chainInnerRight H seed (proof.take inner) index) (proof.drop inner) =
      climbRight (nodeHash H) seed (auditSteps inner index proof) := by
  rw [chainInnerRight, chainInnerRightFrom_take H hx (by omega), chainBorderRight_eq_climbRight,
    ← climbRight_append]
  simp only [Nat.zero_add]
  rfl

/-- The strings hashed along a chain are those of the climb. -/
theorem chainInnerInputs_take {index k i : ℕ} (hx : index < 2 ^ 31) (hk : i + k ≤ 32)
    (acc : Bytes) (proof : List Bytes) :
    chainInnerInputs H index i acc (proof.take k) =
      climbInputs (nodeHash H) nodeInput acc
        (((List.range k).map fun t => index.testBit (i + t)).zip proof) := by
  induction k generalizing i acc proof with
  | zero => rfl
  | succ k ih =>
    cases proof with
    | nil => simp [chainInnerInputs, climbInputs]
    | cons p ps =>
      rw [List.take_succ_cons, chainInnerInputs, ih (by omega),
        bitAnd_shiftRight_natCast hx (by omega), map_testBit_range_succ, List.zip_cons_cons,
        climbInputs]
      cases index.testBit i <;> rfl

theorem chainInnerRightInputs_take {index k i : ℕ} (hx : index < 2 ^ 31) (hk : i + k ≤ 32)
    (acc : Bytes) (proof : List Bytes) :
    chainInnerRightInputs H index i acc (proof.take k) =
      climbRightInputs (nodeHash H) nodeInput acc
        (((List.range k).map fun t => index.testBit (i + t)).zip proof) := by
  induction k generalizing i acc proof with
  | zero => rfl
  | succ k ih =>
    cases proof with
    | nil => simp [chainInnerRightInputs, climbRightInputs]
    | cons p ps =>
      rw [List.take_succ_cons, chainInnerRightInputs, ih (by omega), ih (by omega),
        bitAnd_shiftRight_natCast hx (by omega), map_testBit_range_succ, List.zip_cons_cons,
        climbRightInputs]
      cases index.testBit i <;> rfl

theorem chainBorderRightInputs_eq (seed : Bytes) (proof : List Bytes) :
    chainBorderRightInputs H seed proof =
      climbInputs (nodeHash H) nodeInput seed (proof.map fun p => (true, p)) := by
  induction proof generalizing seed with
  | nil => rfl
  | cons p ps ih => exact congrArg (nodeInput p seed :: ·) (ih (nodeHash H p seed))

theorem chainBorderRightInputs_eq_right (seed : Bytes) (proof : List Bytes) :
    chainBorderRightInputs H seed proof =
      climbRightInputs (nodeHash H) nodeInput seed (proof.map fun p => (true, p)) := by
  induction proof generalizing seed with
  | nil => rfl
  | cons p ps ih => exact congrArg (nodeInput p seed :: ·) (ih (nodeHash H p seed))

theorem chainInputs_eq_climbInputs (hx : index < 2 ^ 31) (hi : inner ≤ 32) (seed : Bytes)
    (proof : List Bytes) :
    chainInnerInputs H index 0 seed (proof.take inner) ++
        chainBorderRightInputs H (chainInner H seed (proof.take inner) index) (proof.drop inner) =
      climbInputs (nodeHash H) nodeInput seed (auditSteps inner index proof) := by
  rw [auditSteps, climbInputs_append, chainInnerInputs_take H hx (by omega),
    chainBorderRightInputs_eq, chainInner, chainInnerFrom_take H hx (by omega)]
  simp only [Nat.zero_add]

theorem chainRightInputs_eq_climbRightInputs (hx : index < 2 ^ 31) (hi : inner ≤ 32) (seed : Bytes)
    (proof : List Bytes) :
    chainInnerRightInputs H index 0 seed (proof.take inner) ++
        chainBorderRightInputs H (chainInnerRight H seed (proof.take inner) index)
          (proof.drop inner) =
      climbRightInputs (nodeHash H) nodeInput seed (auditSteps inner index proof) := by
  rw [auditSteps, climbRightInputs_append, chainInnerRightInputs_take H hx (by omega),
    chainBorderRightInputs_eq_right, chainInnerRight, chainInnerRightFrom_take H hx (by omega)]
  simp only [Nat.zero_add]

/-! ## What `verifyInclusion` accepts -/

/-- A size within the bound fits the 32-bit operators. -/
theorem lt_of_le_maxTreeSize {n : ℕ} (hn : n ≤ maxTreeSize) : n < 2 ^ 31 :=
  Nat.lt_of_le_pred (by decide) hn

/-- The two counts `rootFromInclusion` derives from an index in range. -/
theorem inclusionBits {m n : ℕ} (hmn : m < n) (hn : n ≤ maxTreeSize) :
    bitLength (bitXor (m : ℤ) ((n : ℤ) - 1)) = (m ^^^ (n - 1)).size ∧
      popcount (shiftRight m (m ^^^ (n - 1)).size) = popCount (m >>> (m ^^^ (n - 1)).size) := by
  have hn31 : n < 2 ^ 31 := lt_of_le_maxTreeSize hn
  have hinner : (m ^^^ (n - 1)).size ≤ 31 := size_xor_le (by omega) (by omega)
  constructor
  · rw [← Nat.cast_pred (Nat.zero_lt_of_lt hmn), bitXor_natCast (by omega) (by omega),
      bitLength_natCast]
  · rw [shiftRight_natCast (by omega) (by omega)]
    exact popcount_natCast ((Nat.shiftRight_le _ _).trans_lt (by omega))

/-- The guards of `rootFromInclusion` on natural numbers: in range, and the proof has one
node per turn. -/
theorem inclusionCounts_eq_ok {m n : ℕ} {c : ℕ × ℕ} :
    inclusionCounts m n proof = .ok c ↔
      m < n ∧ n ≤ maxTreeSize ∧ proof.length = (leafPath n m).length ∧
        c = ((m ^^^ (n - 1)).size, popCount (m >>> (m ^^^ (n - 1)).size)) := by
  rw [inclusionCounts]
  rw [JsNum.isInteger_natCast, JsNum.isInteger_natCast,
    JsNum.zero_def, JsNum.lt_natCast, JsNum.lt_natCast,
    JsNum.le_natCast, JsNum.lt_natCast, JsNum.toInt_natCast, JsNum.toInt_natCast]
  rw [if_neg (by simp)]
  by_cases hmn : m < n
  · rw [if_neg (by simpa using hmn)]
    by_cases hn : n ≤ maxTreeSize
    · rw [if_neg (by simpa using hn)]
      obtain ⟨hinner, hborder⟩ := inclusionBits hmn hn
      have hlen : ((proof.length : ℤ) = (m ^^^ (n - 1)).size +
          popCount (m >>> (m ^^^ (n - 1)).size)) ↔ proof.length = (leafPath n m).length := by
        rw [length_leafPath hmn]
        exact_mod_cast Iff.rfl
      simp only [hinner, hborder, hlen, ne_eq, Int.toNat_natCast, hmn, hn,
        true_and]
      by_cases hl : proof.length = (leafPath n m).length
      · rw [if_neg (not_not.mpr hl)]
        exact ⟨fun h => ⟨hl, (Except.ok.inj h).symm⟩, fun h => congrArg Except.ok h.2.symm⟩
      · rw [if_pos hl]
        exact ⟨nofun, fun h => absurd h.1 hl⟩
    · rw [if_pos (by simpa using hn)]
      exact ⟨nofun, fun h => absurd h.2.1 hn⟩
  · rw [if_pos (by simpa using hmn)]
    exact ⟨nofun, fun h => absurd h.1 hmn⟩

/-- `verifyInclusion` accepts exactly the proofs with one node per turn to leaf `m` whose
climb from the leaf hash ends in the root. -/
theorem verifyInclusion_iff {m n : ℕ} :
    verifyInclusion H m n leaf proof root = true ↔
      m < n ∧ n ≤ maxTreeSize ∧ proof.length = (leafPath n m).length ∧
        climb (nodeHash H) (leafHash H leaf) ((leafPath n m).reverse.zip proof) = root := by
  have hclimb : m < n → n ≤ maxTreeSize → proof.length = (leafPath n m).length →
      chainBorderRight H (chainInner H (leafHash H leaf)
        (proof.take (m ^^^ (n - 1)).size) m) (proof.drop (m ^^^ (n - 1)).size) =
      climb (nodeHash H) (leafHash H leaf) ((leafPath n m).reverse.zip proof) := by
    intro hmn hn hlen
    have hn31 : n < 2 ^ 31 := lt_of_le_maxTreeSize hn
    have hinner : (m ^^^ (n - 1)).size ≤ 31 := size_xor_le (by omega) (by omega)
    rw [chain_eq_climb H (by omega) (by omega), leafPath_eq hmn]
    rw [length_leafPath hmn] at hlen
    rw [auditSteps_eq_zip hlen]
  rw [verifyInclusion, rootFromInclusion]
  rw [JsNum.toInt_natCast]
  cases hc : inclusionCounts m n proof with
  | error e =>
    refine ⟨nofun, fun ⟨hmn, hn, hlen, _⟩ => ?_⟩
    rw [inclusionCounts_eq_ok.mpr ⟨hmn, hn, hlen, rfl⟩] at hc
    cases hc
  | ok c =>
    obtain ⟨hmn, hn, hlen, rfl⟩ := inclusionCounts_eq_ok.mp hc
    change bytesEqual (chainBorderRight H (chainInner H (leafHash H leaf) (proof.take _) m)
      (proof.drop _)) root = true ↔ _
    rw [bytesEqual_iff, hclimb hmn hn hlen]
    exact ⟨fun h => ⟨hmn, hn, hlen, h⟩, fun h => h.2.2.2⟩

/-- Whatever `verifyInclusion` accepts has natural numbers as index and size. -/
theorem exists_natCast_of_verifyInclusion {m n : JsNum}
    (h : verifyInclusion H m n leaf proof root = true) : ∃ i k : ℕ, m = i ∧ n = k := by
  rw [verifyInclusion, rootFromInclusion, inclusionCounts] at h
  split at h
  · rename_i r hr
    split at hr
    · cases hr
    · rename_i hguard
      simp only [Bool.or_eq_true, Bool.not_eq_true', not_or, Bool.not_eq_false,
        Bool.not_eq_true] at hguard
      obtain ⟨⟨⟨hm, hn⟩, hm0⟩, hn0⟩ := hguard
      obtain ⟨i, hi⟩ := JsNum.exists_natCast_of_isInteger hm hm0
      obtain ⟨k, hk⟩ := JsNum.exists_natCast_of_isInteger hn hn0
      exact ⟨i, k, hi, hk⟩
  · cases h

/-- The strings an accepting `verifyInclusion` hashes are the leaf's and those of its climb. -/
theorem verifyInclusionInputs_eq {m n : ℕ} (h : verifyInclusion H m n leaf proof root = true) :
    verifyInclusionInputs H m n leaf proof =
      leafInput leaf :: climbInputs (nodeHash H) nodeInput (leafHash H leaf)
        ((leafPath n m).reverse.zip proof) := by
  obtain ⟨hmn, hn, hlen, -⟩ := (verifyInclusion_iff H).mp h
  have hc := inclusionCounts_eq_ok.mpr ⟨hmn, hn, hlen, rfl⟩
  have hn31 : n < 2 ^ 31 := lt_of_le_maxTreeSize hn
  have hinner : (m ^^^ (n - 1)).size ≤ 31 := size_xor_le (by omega) (by omega)
  rw [verifyInclusionInputs, hc, JsNum.toInt_natCast]
  rw [length_leafPath hmn] at hlen
  rw [leafPath_eq hmn, ← auditSteps_eq_zip hlen]
  exact congrArg _ (chainInputs_eq_climbInputs H (by omega) (by omega) _ _)

/-! ## What `verifyConsistency` accepts -/

/-- The trailing zeros of `m` never outnumber the bits in which `m - 1` and `n - 1` differ,
so the verifier's `inner < 0` guard never fires. -/
theorem trailingZeros_le_size {m n s : ℕ} (h0 : 0 < m) (hmn : m < n) (hs : 2 ^ s ∣ m) :
    s ≤ ((m - 1) ^^^ (n - 1)).size := by
  by_contra hlt
  have hsize : ((m - 1) ^^^ (n - 1)) < 2 ^ s := Nat.size_le.mp (by omega)
  -- the two numbers agree above bit `s`, yet `m` is a multiple of `2 ^ s` between them
  have hdiv : (m - 1) / 2 ^ s = (n - 1) / 2 ^ s := by
    rw [← Nat.shiftRight_eq_div_pow, ← Nat.shiftRight_eq_div_pow]
    apply Nat.eq_of_testBit_eq
    intro i
    have hbit : ((m - 1) ^^^ (n - 1)).testBit (s + i) = false :=
      Nat.testBit_lt_two_pow (hsize.trans_le (Nat.pow_le_pow_right (by omega) (by omega)))
    rw [Nat.testBit_xor] at hbit
    rw [Nat.testBit_shiftRight, Nat.testBit_shiftRight]
    exact bne_eq_false_iff_eq.mp hbit
  obtain ⟨c, rfl⟩ := hs
  have hlow : (2 ^ s * c - 1) / 2 ^ s < c := by
    apply Nat.div_lt_of_lt_mul
    omega
  have hhigh : c ≤ (n - 1) / 2 ^ s := by
    rw [Nat.le_div_iff_mul_le (Nat.two_pow_pos s), mul_comm]
    omega
  omega

/-- Number of proof nodes the inner part of a consistency proof consumes. -/
def innerCount (m n : ℕ) : ℕ := ((m - 1) ^^^ (n - 1)).size - trailingZeros m

/-- The index whose bits place them. -/
def consistencyMask (m : ℕ) : ℕ := (m - 1) >>> trailingZeros m

/-- The seed of `verifyConsistency` and the proof nodes left after it: a power of two
starts from the old root itself. -/
def consistencyStart (m : ℕ) (proof : List Bytes) (root1 : Bytes) : Option (Bytes × List Bytes) :=
  if m = 2 ^ trailingZeros m then some (root1, proof)
  else proof.head?.map fun p => (p, proof.tail)

theorem innerCount_le {m n : ℕ} (h0 : 0 < m) (hmn : m < n) (hn : n ≤ maxTreeSize) :
    innerCount m n ≤ 31 := by
  have hn31 : n < 2 ^ 31 := lt_of_le_maxTreeSize hn
  have : ((m - 1) ^^^ (n - 1)).size ≤ 31 := size_xor_le (by omega) (by omega)
  rw [innerCount]
  omega

theorem consistencyMask_lt {m : ℕ} (h0 : 0 < m) (hm : m ≤ maxTreeSize) :
    consistencyMask m < 2 ^ 31 := by
  have hm31 : m < 2 ^ 31 := lt_of_le_maxTreeSize hm
  exact (Nat.shiftRight_le _ _).trans_lt (by omega)

theorem trailingZeros_lt {m : ℕ} (h0 : 0 < m) (hm : m ≤ maxTreeSize) : trailingZeros m < 31 := by
  have hm31 : m < 2 ^ 31 := lt_of_le_maxTreeSize hm
  obtain ⟨hd, -⟩ := trailingZeros_natCast h0 hm31
  exact (Nat.pow_lt_pow_iff_right (by decide)).mp ((Nat.le_of_dvd h0 hd).trans_lt hm31)

/-- `consistencyPlan` on natural numbers. -/
theorem consistencyPlan_natCast {m n : ℕ} (h0 : 0 < m) (hmn : m < n) (hn : n ≤ maxTreeSize)
    (proof : List Bytes) (root1 : Bytes) :
    consistencyPlan m n proof root1 =
      if 2 * n.size + 1 < proof.length then none
      else (consistencyStart m proof root1).map fun (seed, rest) =>
        ⟨seed, rest.take (innerCount m n), rest.drop (innerCount m n), consistencyMask m⟩ := by
  have hm : m ≤ maxTreeSize := by omega
  have htz := trailingZeros_lt h0 hm
  have hn31 : n < 2 ^ 31 := lt_of_le_maxTreeSize hn
  obtain ⟨hd, -⟩ := trailingZeros_natCast h0 (hmn.trans hn31)
  have hle := trailingZeros_le_size h0 hmn hd
  have hxor : bitXor ((m : ℤ) - 1) ((n : ℤ) - 1) = (((m - 1) ^^^ (n - 1) : ℕ) : ℤ) := by
    rw [← Nat.cast_pred h0,
      ← Nat.cast_pred (Nat.zero_lt_of_lt hmn)]
    exact bitXor_natCast (by omega) (by omega)
  have hmask : shiftRight ((m : ℤ) - 1) (trailingZeros m) = (consistencyMask m : ℤ) := by
    rw [← Nat.cast_pred h0]
    exact shiftRight_natCast (by omega) (by omega)
  have hinner : (((m - 1) ^^^ (n - 1)).size : ℤ) - (trailingZeros m : ℤ) =
      (innerCount m n : ℤ) := by
    rw [innerCount]
    omega
  rw [consistencyPlan]
  simp only [hxor, bitLength_natCast, hmask, hinner, shiftLeft_one htz, Int.toNat_natCast,
    Nat.cast_inj]
  rw [if_neg (by omega)]
  rw [consistencyStart]
  by_cases hp : m = 2 ^ trailingZeros m
  · rw [if_pos hp, if_pos hp]
    by_cases hl : 2 * n.size + 1 < proof.length <;> simp [hl]
  · rw [if_neg hp, if_neg hp]
    cases proof with
    | nil => simp
    | cons p ps =>
      by_cases hl : 2 * n.size + 1 < (p :: ps).length
      · rw [if_pos hl]
        simp only [List.head?_cons, Option.map_some, Option.bind_some, if_pos hl]
      · rw [if_neg hl]
        simp only [List.head?_cons, Option.map_some, Option.bind_some, if_neg hl, List.drop_one,
          List.tail_cons]

/-- `verifyConsistency` on natural numbers: the guards become comparisons of `ℕ`. -/
theorem verifyConsistency_natCast (m n : ℕ) (proof : List Bytes) (root1 root2 : Bytes) :
    verifyConsistency H m n proof root1 root2 =
      if n < m then false
      else if maxTreeSize < n then false
      else if m = n then proof.length == 0 && bytesEqual root1 root2
      else if m = 0 then proof.length == 0 && bytesEqual root1 (emptyRoot H)
      else
        match consistencyPlan m n proof root1 with
        | none => false
        | some c => bytesEqual (c.hash1 H) root1 && bytesEqual (c.hash2 H) root2 := by
  rw [verifyConsistency]
  rw [JsNum.zero_def, JsNum.toInt_natCast, JsNum.toInt_natCast]
  cases consistencyPlan m n proof root1 <;>
    simp only [JsNum.isInteger_natCast, JsNum.lt_natCast, JsNum.strictEq_natCast, Bool.not_true,
      Bool.or_self, Nat.not_lt_zero, decide_false, decide_eq_true_eq, Bool.false_eq_true, if_false]

/-- `verifyConsistency` between sizes `0 < m < n` accepts exactly when the proof is within
its bound and the two climbs from the seed end in the two roots. -/
theorem verifyConsistency_iff {m n : ℕ} (h0 : 0 < m) (hmn : m < n) :
    verifyConsistency H m n proof root1 root2 = true ↔
      n ≤ maxTreeSize ∧ proof.length ≤ 2 * n.size + 1 ∧
        ∃ seed rest, consistencyStart m proof root1 = some (seed, rest) ∧
          climbRight (nodeHash H) seed
            (auditSteps (innerCount m n) (consistencyMask m) rest) = root1 ∧
          climb (nodeHash H) seed
            (auditSteps (innerCount m n) (consistencyMask m) rest) = root2 := by
  rw [verifyConsistency_natCast, if_neg (not_lt.mpr hmn.le)]
  by_cases hn : n ≤ maxTreeSize
  · rw [if_neg (not_lt.mpr hn), if_neg hmn.ne, if_neg h0.ne', consistencyPlan_natCast h0 hmn hn]
    by_cases hl : 2 * n.size + 1 < proof.length
    · rw [if_pos hl]
      exact ⟨nofun, fun h => absurd h.2.1 (by omega)⟩
    · rw [if_neg hl]
      cases consistencyStart m proof root1 with
      | none => simp
      | some start =>
        obtain ⟨seed, rest⟩ := start
        have hmask := consistencyMask_lt h0 (hmn.le.trans hn)
        have hinner := (innerCount_le h0 hmn hn).trans (by omega : 31 ≤ 32)
        simp only [Option.map_some, ConsistencyPlan.hash1, ConsistencyPlan.hash2,
          chain_eq_climb H hmask hinner, chainRight_eq_climbRight H hmask hinner,
          Bool.and_eq_true, bytesEqual_iff, hn, not_lt.mp hl, true_and, Option.some.injEq,
          Prod.mk.injEq, exists_eq_left', exists_and_left, and_assoc]
  · rw [if_pos (not_le.mp hn)]
    exact ⟨nofun, fun h => absurd h.1 hn⟩

/-- Equal sizes: no proof nodes and equal roots. -/
theorem verifyConsistency_self {n : ℕ} :
    verifyConsistency H n n proof root1 root2 = true ↔
      n ≤ maxTreeSize ∧ proof = [] ∧ root1 = root2 := by
  rw [verifyConsistency_natCast, if_neg (lt_irrefl n), if_pos rfl]
  by_cases hn : n ≤ maxTreeSize
  · rw [if_neg (not_lt.mpr hn), Bool.and_eq_true, bytesEqual_iff]
    simp [hn]
  · rw [if_pos (not_le.mp hn)]
    exact ⟨nofun, fun h => absurd h.1 hn⟩

/-- From the empty tree: no proof nodes, and the old root is the empty root. -/
theorem verifyConsistency_zero {n : ℕ} (h0 : 0 < n) :
    verifyConsistency H (0 : ℕ) n proof root1 root2 = true ↔
      n ≤ maxTreeSize ∧ proof = [] ∧ root1 = emptyRoot H := by
  rw [verifyConsistency_natCast, if_neg (Nat.not_lt_zero n), if_neg h0.ne, if_pos rfl]
  by_cases hn : n ≤ maxTreeSize
  · rw [if_neg (not_lt.mpr hn), Bool.and_eq_true, bytesEqual_iff]
    simp [hn]
  · rw [if_pos (not_le.mp hn)]
    exact ⟨nofun, fun h => absurd h.1 hn⟩

theorem le_of_verifyConsistency {m n : ℕ} (h : verifyConsistency H m n proof root1 root2 = true) :
    m ≤ n := by
  rw [verifyConsistency_natCast] at h
  by_contra hlt
  rw [if_pos (not_le.mp hlt)] at h
  cases h

/-- The strings hashed between sizes `0 < m < n` are those of the two climbs. -/
theorem verifyConsistencyInputs_eq {m n : ℕ} (h0 : 0 < m) (hmn : m < n) (hn : n ≤ maxTreeSize)
    {root1 seed : Bytes} {proof rest : List Bytes} (hl : proof.length ≤ 2 * n.size + 1)
    (hstart : consistencyStart m proof root1 = some (seed, rest)) :
    verifyConsistencyInputs H m n proof root1 =
      climbRightInputs (nodeHash H) nodeInput seed
          (auditSteps (innerCount m n) (consistencyMask m) rest) ++
        climbInputs (nodeHash H) nodeInput seed
          (auditSteps (innerCount m n) (consistencyMask m) rest) := by
  have hmask := consistencyMask_lt h0 (hmn.le.trans hn)
  have hinner := (innerCount_le h0 hmn hn).trans (by omega : 31 ≤ 32)
  have hplan := consistencyPlan_natCast h0 hmn hn proof root1
  rw [if_neg (not_lt.mpr hl), hstart, Option.map_some] at hplan
  rw [verifyConsistencyInputs]
  rw [JsNum.zero_def]
  simp only [JsNum.isInteger_natCast, JsNum.lt_natCast, JsNum.strictEq_natCast,
    JsNum.toInt_natCast, Bool.not_true, Bool.or_self, Nat.not_lt_zero, decide_false,
    Bool.false_eq_true, if_false, not_lt.mpr hmn.le, not_lt.mpr hn, hmn.ne, h0.ne', hplan,
    ConsistencyPlan.inputs, chainInputs_eq_climbInputs H hmask hinner,
    chainRightInputs_eq_climbRightInputs H hmask hinner]

/-! ## The length of a generated consistency proof -/

/-- One node per turn of the prefix path, and the seed unless the old tree is complete. -/
def consistencyLength (m n : ℕ) : ℕ :=
  (prefixPath n m).length + if m = 2 ^ trailingZeros m then 0 else 1

section Sizes

variable {m n : ℕ} (h0 : 0 < m) (hmn : m < n) (hn : n ≤ maxTreeSize)

include h0 hmn hn

/-- The prefix path in the verifier's own quantities. -/
theorem prefixPath_eq_bitTurns :
    prefixPath n m = bitTurns (innerCount m n)
      (popCount (consistencyMask m >>> innerCount m n)) (consistencyMask m) := by
  have hm31 : m < 2 ^ 31 := hmn.trans (lt_of_le_maxTreeSize hn)
  obtain ⟨hs, hs'⟩ := trailingZeros_natCast h0 hm31
  exact prefixPath_eq h0 hmn hs hs'

theorem true_mem_prefixPath_iff : true ∈ prefixPath n m ↔ m ≠ 2 ^ trailingZeros m := by
  have hm31 : m < 2 ^ 31 := hmn.trans (lt_of_le_maxTreeSize hn)
  obtain ⟨hs, hs'⟩ := trailingZeros_natCast h0 hm31
  exact true_mem_prefixPath h0 hmn hs hs'

/-- On a proof of the right length the verifier's steps follow the prefix path. -/
theorem auditSteps_eq_prefixPath {rest : List Bytes}
    (h : rest.length = (prefixPath n m).length) :
    auditSteps (innerCount m n) (consistencyMask m) rest =
      (prefixPath n m).reverse.zip rest := by
  rw [prefixPath_eq_bitTurns h0 hmn hn, length_bitTurns] at h
  rw [prefixPath_eq_bitTurns h0 hmn hn]
  exact auditSteps_eq_zip h

/-- The generated length is within the bound the verifier puts on proofs. -/
theorem consistencyLength_le : consistencyLength m n ≤ 2 * n.size + 1 := by
  have hlt := Nat.lt_size_self n
  have hinner : innerCount m n ≤ n.size :=
    (Nat.sub_le _ _).trans (size_xor_le (by omega) (by omega))
  have hmask : consistencyMask m >>> innerCount m n ≤ n :=
    (Nat.shiftRight_le _ _).trans ((Nat.shiftRight_le _ _).trans (by omega))
  have hborder := (popCount_le_size _).trans (Nat.size_le_size hmask)
  rw [consistencyLength, prefixPath_eq_bitTurns h0 hmn hn, length_bitTurns]
  split <;> omega

end Sizes

end Hash

end Nerion
