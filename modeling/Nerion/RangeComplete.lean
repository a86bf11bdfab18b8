import Nerion.RangeProof

/-!
# The prover of the range proof (`disclosure/src/zkrange.ts`)

The prover commits to the bits of the amount and of `threshold - 1 - amount`. All blindings but
the last are drawn, and the last one is solved for, so that the bit commitments recombine to the
commitment they are about. The scalars it draws are arguments.

* `verifyBit_proveBit` — the proof for one bit is accepted, whatever the hash;
* `combine_commit` — what bit commitments recombine to;
* `weighted_bits`, `weighted_blindings` — the bits make up the number, the blindings the blinding;
* `exists_proveBelow`, `proveBelow_eq_ok` — for which numbers a proof is made;
* `verifyBelow_proveBelow` — **completeness**.
-/

namespace Nerion

/-- The scalars that `proveBit` draws. -/
structure BitCoins where
  kReal : ℤ
  sFake : ℤ
  cFake : ℤ

/-- The scalars that `proveBelow` draws. -/
structure ProverCoins where
  /-- blindings of the bits of the amount -/
  amountBlinding : ℕ → ℤ
  /-- blindings of the bits of the difference -/
  diffBlinding : ℕ → ℤ
  /-- for the proofs of the bits of the amount -/
  amountBits : ℕ → BitCoins
  /-- for those of the difference -/
  diffBits : ℕ → BitCoins

/-- What `buildBits` returns. -/
structure BuiltBits (P : Type) where
  /-- the bits, least significant first -/
  bits : List ℤ
  /-- their blindings -/
  r : List ℤ
  /-- commitments to the bits -/
  commitments : List P

/-- `new RangeProofError(m)`. -/
def rangeProofError (m : String) : JsError := ⟨"RangeProofError", m⟩

namespace ZkGroup

open PedersenGroup

variable {P : Type} [AddCommGroup P] (Z : ZkGroup P)

/-! ## Proving -/

def proveBit (coins : BitCoins) (ci : P) (b ri : ℤ) (stmt : Bytes) (tag : String) : BitProof P :=
  let p0 := ci
  let p1 := Z.sub ci Z.G
  let tReal := Z.mul Z.H coins.kReal
  let pFake := if b = 0 then p1 else p0
  let tFake := Z.mul Z.H coins.sFake + Z.neg (Z.mul pFake coins.cFake)
  let t0 := if b = 0 then tReal else tFake
  let t1 := if b = 0 then tFake else tReal
  let c := Z.challenge stmt tag ci p0 p1 t0 t1
  let cReal := Z.mod (c - coins.cFake)
  let sReal := Z.mod (coins.kReal + cReal * ri)
  if b = 0 then ⟨t0, t1, cReal, coins.cFake, sReal, coins.sFake⟩
  else ⟨t0, t1, coins.cFake, cReal, coins.sFake, sReal⟩

/-- The running sum of `buildBits` over the blindings drawn for the first `k` bits. -/
def partialSum (draw : ℕ → ℤ) (k : ℕ) : ℤ :=
  (List.range k).foldl (fun sum i => Z.mod (sum + draw i * 2 ^ i)) 0

def buildBits (draw : ℕ → ℤ) (value rand : ℤ) (n : ℕ) : BuiltBits P :=
  let r := (List.range (n - 1)).map draw ++
    [Z.mod ((Z.mod rand - Z.partialSum draw (n - 1)) * Z.inv (2 ^ (n - 1)))]
  let bits := (List.range n).map fun i => value / 2 ^ i % 2
  ⟨bits, r, List.zipWith Z.commit bits r⟩

/-- The proofs of `proveSub`, from the bit `i` on. -/
def proveBits (coins : ℕ → BitCoins) (stmt : Bytes) (side : String) :
    (i : ℕ) → List P → List ℤ → List ℤ → List (BitProof P)
  | i, ci :: cs, b :: bits, ri :: r =>
    Z.proveBit (coins i) ci b ri stmt (bitTag side i) :: proveBits coins stmt side (i + 1) cs bits r
  | _, _, _, _ => []

def proveSub (coins : ℕ → BitCoins) (built : BuiltBits P) (stmt : Bytes) (side : String) :
    SubProof P :=
  ⟨built.commitments, Z.proveBits coins stmt side 0 built.commitments built.bits built.r⟩

def proveBelow (coins : ProverCoins) (amount r threshold : ℤ) (n : JsNum) :
    Except JsError (RangeProof P) :=
  if !n.isInteger || JsNum.lt n 1 || JsNum.lt 251 n then
    .error (rangeProofError "n must be in [1, 251] (2^(n+1) ≤ L)")
  else
    let bound : ℤ := 2 ^ n.toInt.toNat
    if amount < 0 ∨ bound ≤ amount then .error (rangeProofError "amount must be in [0, 2^n)")
    else if threshold < 1 ∨ bound < threshold then
      .error (rangeProofError "threshold must be in (0, 2^n]")
    else
      let diff := threshold - 1 - amount
      if diff < 0 then .error (rangeProofError "amount is not < threshold")
      else
        let builtAmount := Z.buildBits coins.amountBlinding amount (Z.mod r) n.toInt.toNat
        let builtDiff := Z.buildBits coins.diffBlinding diff (Z.mod (-r)) n.toInt.toNat
        let cAmt := Z.commit amount r
        let stmt := Z.statementHash threshold n cAmt builtAmount.commitments builtDiff.commitments
        .ok ⟨n, Z.proveSub coins.amountBits builtAmount stmt "amount",
          Z.proveSub coins.diffBits builtDiff stmt "diff"⟩

/-! ## One bit -/

/-- The two challenges add up to the reduced one. -/
theorem mod_challenge_split (stmt : Bytes) (tag : String) (ci p0 p1 t0 t1 : P) (c : ℤ) :
    Z.mod (Z.mod (Z.challenge stmt tag ci p0 p1 t0 t1 - c) + c) =
      Z.challenge stmt tag ci p0 p1 t0 t1 := by
  have hreduced : Z.mod (Z.challenge stmt tag ci p0 p1 t0 t1) =
      Z.challenge stmt tag ci p0 p1 t0 t1 := by
    rw [challenge, scalarFromBytes, mod_mod]
  refine (Z.mod_eq_mod_iff.mpr ?_).trans hreduced
  calc Z.mod (Z.challenge stmt tag ci p0 p1 t0 t1 - c) + c
      ≡ Z.challenge stmt tag ci p0 p1 t0 t1 - c + c [ZMOD Z.order] := (Z.mod_modEq _).add_right c
    _ = Z.challenge stmt tag ci p0 p1 t0 t1 := sub_add_cancel _ _

/-- The branch that is closed with the blinding. -/
theorem real_response {p : P} {k c ri : ℤ} (hp : p = ri • Z.H) :
    Z.mod (k + Z.mod c * ri) • Z.H = Z.mul Z.H k + Z.mod c • p := by
  rw [Z.zsmul_congr (Z.mod_modEq _), mul_eq, add_zsmul, hp, ← mul_zsmul]

/-- The branch that is simulated. -/
theorem fake_response (p : P) (s c : ℤ) :
    s • Z.H = Z.mul Z.H s + Z.neg (Z.mul p c) + c • p := by
  rw [mul_eq, mul_eq, neg_eq, neg_add_cancel_right]

section Verify

variable [DecidableEq P]

theorem verifyBit_iff {ci : P} {bp : BitProof P} {stmt : Bytes} {tag : String} :
    Z.verifyBit ci bp stmt tag = true ↔
      Z.mod (bp.c0 + bp.c1) = Z.challenge stmt tag ci ci (Z.sub ci Z.G) bp.t0 bp.t1 ∧
        bp.s0 • Z.H = bp.t0 + bp.c0 • ci ∧ bp.s1 • Z.H = bp.t1 + bp.c1 • (ci - Z.G) := by
  rw [verifyBit, ← Z.bitEquations_iff]
  split
  · rename_i h
    simp [h]
  · rename_i h
    simp [not_not.mp h]

/-- **One bit**: the proof that a commitment hides a bit is accepted. -/
theorem verifyBit_proveBit (coins : BitCoins) {b : ℤ} (hb : b = 0 ∨ b = 1) (ri : ℤ)
    (stmt : Bytes) (tag : String) :
    Z.verifyBit (Z.commit b ri) (Z.proveBit coins (Z.commit b ri) b ri stmt tag) stmt tag =
      true := by
  rw [verifyBit_iff]
  rcases hb with rfl | rfl
  · -- the branch for zero is the real one
    have hreal : Z.commit 0 ri = ri • Z.H := by rw [commit_eq, zero_zsmul, zero_add]
    refine ⟨Z.mod_challenge_split .., Z.real_response hreal, ?_⟩
    rw [← sub_eq]
    exact Z.fake_response ..
  · -- the branch for one is
    have hreal : Z.commit 1 ri - Z.G = ri • Z.H := by rw [commit_eq, one_zsmul, add_sub_cancel_left]
    refine ⟨?_, Z.fake_response .., Z.real_response hreal⟩
    rw [add_comm]
    exact Z.mod_challenge_split ..

/-- The proofs of all the bits are accepted. -/
theorem verifyBits_proveBits (coins : ℕ → BitCoins) (stmt : Bytes) (side : String) (i : ℕ)
    {bits r : List ℤ} (hbits : ∀ b ∈ bits, b = 0 ∨ b = 1) :
    Z.verifyBits stmt side i (List.zipWith Z.commit bits r)
      (Z.proveBits coins stmt side i (List.zipWith Z.commit bits r) bits r) = true := by
  induction bits generalizing i r with
  | nil => rfl
  | cons b bits ih =>
    cases r with
    | nil => rfl
    | cons ri r =>
      rw [List.zipWith_cons_cons, proveBits, verifyBits, Bool.and_eq_true]
      exact ⟨Z.verifyBit_proveBit (coins i) (hbits b List.mem_cons_self) ri stmt _,
        ih (i + 1) fun b' hb' => hbits b' (List.mem_cons_of_mem _ hb')⟩

end Verify

theorem length_proveBits (coins : ℕ → BitCoins) (stmt : Bytes) (side : String) (i : ℕ)
    {cs : List P} {bits r : List ℤ} (hbits : bits.length = cs.length)
    (hr : r.length = cs.length) : (Z.proveBits coins stmt side i cs bits r).length = cs.length := by
  induction cs generalizing i bits r with
  | nil => rfl
  | cons ci cs ih =>
    obtain ⟨b, bits, rfl⟩ := List.exists_cons_of_length_eq_add_one hbits
    obtain ⟨ri, r, rfl⟩ := List.exists_cons_of_length_eq_add_one hr
    rw [proveBits, List.length_cons, List.length_cons,
      ih (i + 1) (Nat.succ_injective hbits) (Nat.succ_injective hr)]

/-! ## Recombination -/

/-- A list of digits as a number, from the weight `2 ^ i` on. -/
def weighted : (i : ℕ) → List ℤ → ℤ
  | _, [] => 0
  | i, x :: xs => 2 ^ i * x + weighted (i + 1) xs

theorem weighted_append (i : ℕ) (xs ys : List ℤ) :
    weighted i (xs ++ ys) = weighted i xs + weighted (i + xs.length) ys := by
  induction xs generalizing i with
  | nil => rw [List.nil_append, weighted, zero_add, List.length_nil, Nat.add_zero]
  | cons x xs ih =>
    rw [List.cons_append, weighted, weighted, ih, List.length_cons, ← add_assoc, Nat.add_assoc i,
      Nat.add_comm 1]

theorem weighted_map_range_succ (f : ℕ → ℤ) (k : ℕ) :
    weighted 0 ((List.range (k + 1)).map f) =
      weighted 0 ((List.range k).map f) + 2 ^ k * f k := by
  rw [List.range_succ, List.map_append, weighted_append, List.length_map, List.length_range,
    Nat.zero_add]
  simp [weighted]

/-- Bit commitments recombine to a commitment to the number, under the blinding that theirs
make up. -/
theorem combine_commit (i : ℕ) {bits r : List ℤ} (h : bits.length = r.length) (acc : P) :
    Z.combine i (List.zipWith Z.commit bits r) acc =
      acc + (weighted i bits • Z.G + weighted i r • Z.H) := by
  induction bits generalizing i r acc with
  | nil =>
    obtain rfl := List.eq_nil_of_length_eq_zero h.symm
    simp [weighted, combine]
  | cons b bits ih =>
    obtain ⟨ri, r, rfl⟩ := List.exists_cons_of_length_eq_add_one h.symm
    rw [List.zipWith_cons_cons, combine, ih (i + 1) (Nat.succ_injective h), mul_eq, commit_eq,
      weighted, weighted, add_zsmul, add_zsmul, mul_zsmul, mul_zsmul, smul_add]
    abel

/-- The bits make up the number. -/
theorem weighted_bits (value : ℤ) (k : ℕ) :
    weighted 0 ((List.range k).map fun i => value / 2 ^ i % 2) = value % 2 ^ k := by
  induction k with
  | zero => rw [pow_zero, Int.emod_one]; rfl
  | succ k ih =>
    have hdigit := Int.emod_add_mul_ediv value (2 ^ k)
    have hrest := Int.emod_add_mul_ediv (value / 2 ^ k) 2
    have hwhole := Int.emod_add_mul_ediv value (2 ^ (k + 1))
    rw [pow_succ, ← Int.ediv_ediv_of_nonneg (by positivity)] at hwhole
    rw [weighted_map_range_succ, ih, pow_succ]
    linear_combination hdigit + 2 ^ k * hrest - hwhole

theorem weighted_draws (draw : ℕ → ℤ) (k : ℕ) :
    weighted 0 ((List.range k).map draw) ≡ Z.partialSum draw k [ZMOD Z.order] := by
  induction k with
  | zero => rfl
  | succ k ih =>
    rw [weighted_map_range_succ, partialSum, List.range_succ, List.foldl_append]
    refine Int.ModEq.trans ?_ (Z.mod_modEq _).symm
    rw [mul_comm]
    exact ih.add_right _

theorem not_dvd_two_pow (k : ℕ) : ¬ (Z.order : ℤ) ∣ 2 ^ k := by
  intro hdvd
  have htwo : Z.order ∣ 2 := Z.prime.dvd_of_dvd_pow (by exact_mod_cast hdvd)
  have hle := Nat.le_of_dvd two_pos htwo
  have hlarge := Z.large
  omega

/-- The blindings make up the blinding: the last one is solved for. -/
theorem weighted_blindings (draw : ℕ → ℤ) (value rand : ℤ) (k : ℕ) :
    weighted 0 (Z.buildBits draw value rand (k + 1)).r ≡ rand [ZMOD Z.order] := by
  have hinv := Z.mul_inv_modEq (Z.not_dvd_two_pow k)
  change weighted 0 ((List.range k).map draw ++
    [Z.mod ((Z.mod rand - Z.partialSum draw k) * Z.inv (2 ^ k))]) ≡ _ [ZMOD _]
  rw [weighted_append, List.length_map, List.length_range, Nat.zero_add]
  calc weighted 0 ((List.range k).map draw) +
        weighted k [Z.mod ((Z.mod rand - Z.partialSum draw k) * Z.inv (2 ^ k))]
      = weighted 0 ((List.range k).map draw) +
        2 ^ k * Z.mod ((Z.mod rand - Z.partialSum draw k) * Z.inv (2 ^ k)) := by
        rw [weighted, weighted, add_zero]
    _ ≡ Z.partialSum draw k + 2 ^ k * ((rand - Z.partialSum draw k) * Z.inv (2 ^ k))
        [ZMOD Z.order] := by
        refine (Z.weighted_draws draw k).add (Int.ModEq.mul_left _ ((Z.mod_modEq _).trans ?_))
        exact ((Z.mod_modEq rand).sub_right _).mul_right _
    _ = Z.partialSum draw k + (rand - Z.partialSum draw k) * (2 ^ k * Z.inv (2 ^ k)) := by ring
    _ ≡ Z.partialSum draw k + (rand - Z.partialSum draw k) * 1 [ZMOD Z.order] :=
        (hinv.mul_left _).add_left _
    _ = rand := by ring

/-! ## Completeness -/

/-- Blindings count modulo the order. -/
theorem commit_mod (value r : ℤ) : Z.commit value (Z.mod r) = Z.commit value r := by
  rw [commit_eq, commit_eq, Z.zsmul_congr (Z.mod_modEq r)]

section Complete

variable [DecidableEq P]

/-- **A sub-proof**: the proofs for the bits of a number are accepted, for the commitment to it
under the blinding. -/
theorem verifySub_proveSub (coins : ℕ → BitCoins) (draw : ℕ → ℤ) {value : ℤ} (rand : ℤ) {n : ℕ}
    (hn : 1 ≤ n) (hvalue : 0 ≤ value ∧ value < 2 ^ n) (stmt : Bytes) (side : String) :
    Z.verifySub (Z.commit value rand)
      (Z.proveSub coins (Z.buildBits draw value rand n) stmt side) n stmt side = true := by
  obtain ⟨k, rfl⟩ := Nat.exists_eq_add_of_le' hn
  have hbitsLength : (Z.buildBits draw value rand (k + 1)).bits.length = k + 1 := by
    simp [buildBits]
  have hrLength : (Z.buildBits draw value rand (k + 1)).r.length = k + 1 := by
    simp [buildBits]
  have hLength : (Z.buildBits draw value rand (k + 1)).commitments.length = k + 1 := by
    simp [buildBits]
  have hproofs := Z.length_proveBits coins stmt side 0 (hbitsLength.trans hLength.symm)
    (hrLength.trans hLength.symm)
  have hcombine : Z.combine 0 (Z.buildBits draw value rand (k + 1)).commitments 0 =
      Z.commit value rand := by
    have hbits : weighted 0 (Z.buildBits draw value rand (k + 1)).bits = value :=
      (weighted_bits value (k + 1)).trans (Int.emod_eq_of_lt hvalue.1 hvalue.2)
    refine (Z.combine_commit 0 (hbitsLength.trans hrLength.symm) 0).trans ?_
    rw [hbits, Z.zsmul_congr (Z.weighted_blindings draw value rand k), zero_add, commit_eq]
  have hbit : ∀ b ∈ (Z.buildBits draw value rand (k + 1)).bits, b = 0 ∨ b = 1 := by
    intro b hb
    obtain ⟨i, -, rfl⟩ := List.mem_map.mp hb
    exact Int.emod_two_eq_zero_or_one _
  rw [verifySub, if_neg, if_neg]
  · exact Z.verifyBits_proveBits coins stmt side 0 hbit
  · exact not_not_intro hcombine
  · rintro (hne | hne)
    · exact hne hLength
    · exact hne (hproofs.trans hLength)

omit [DecidableEq P] in
/-- What is left of the threshold is committed to with the opposite blinding. -/
theorem sub_commit (threshold amount r : ℤ) :
    Z.sub (Z.mul Z.G (threshold - 1)) (Z.commit amount r) =
      Z.commit (threshold - 1 - amount) (Z.mod (-r)) := by
  rw [commit_mod, sub_eq, mul_eq, commit_eq, commit_eq, sub_smul _ amount, neg_smul]
  abel

/-- The numbers a range proof is made for: those below the threshold, which fits into the bits. -/
def Provable (amount threshold : ℤ) (n : JsNum) : Prop :=
  ∃ k : ℕ, n = k ∧ (1 ≤ k ∧ k ≤ 251) ∧ 0 ≤ amount ∧ amount < threshold ∧ threshold ≤ 2 ^ k

omit [DecidableEq P] in
/-- The numbers of bits that range proofs have. -/
theorem bits_iff {n : JsNum} : ¬ ((!n.isInteger || JsNum.lt n 1 || JsNum.lt 251 n) = true) ↔
    ∃ k : ℕ, n = k ∧ 1 ≤ k ∧ k ≤ 251 := by
  simp only [Bool.or_eq_true, Bool.not_eq_true', not_or, Bool.not_eq_true, Bool.not_eq_false]
  constructor
  · rintro ⟨⟨hint, hlow⟩, hhigh⟩
    obtain ⟨k, hk, rfl⟩ := JsNum.exists_natCast_of_one_le hint ((JsNum.one_le_iff hint).mpr hlow)
    have hle : JsNum.lt ((251 : ℕ) : JsNum) (k : JsNum) = false := hhigh
    rw [JsNum.lt_natCast, decide_eq_false_iff_not] at hle
    exact ⟨k, rfl, hk, not_lt.mp hle⟩
  · rintro ⟨k, rfl, hk, hle⟩
    refine ⟨⟨JsNum.isInteger_natCast k, ?_⟩, ?_⟩
    · exact (@JsNum.lt_natCast k 1).trans (decide_eq_false (by omega))
    · exact (@JsNum.lt_natCast 251 k).trans (decide_eq_false (by omega))

omit [DecidableEq P] in
theorem exists_proveBelow (coins : ProverCoins) {amount threshold : ℤ} (r : ℤ) {n : JsNum}
    (h : Provable amount threshold n) :
    ∃ proof, Z.proveBelow coins amount r threshold n = .ok proof := by
  obtain ⟨k, rfl, hk, hamount, hlt, hthreshold⟩ := h
  rw [proveBelow, if_neg (bits_iff.mpr ⟨k, rfl, hk.1, hk.2⟩)]
  dsimp only
  rw [JsNum.toInt_natCast, Int.toNat_natCast, if_neg (by omega), if_neg (by omega),
    if_neg (by omega)]
  exact ⟨_, rfl⟩

/-- A range proof is made for a number below the threshold only, and is accepted. -/
theorem proveBelow_eq_ok {coins : ProverCoins} {amount r threshold : ℤ} {n : JsNum}
    {proof : RangeProof P} (h : Z.proveBelow coins amount r threshold n = .ok proof) :
    Provable amount threshold n ∧ Z.verifyBelow (Z.commit amount r) threshold proof n = true := by
  rw [proveBelow] at h
  split at h
  · cases h
  rename_i hbits
  obtain ⟨k, rfl, hk, hle⟩ := bits_iff.mp hbits
  dsimp only at h
  rw [JsNum.toInt_natCast, Int.toNat_natCast] at h
  split at h
  · cases h
  rename_i hamount
  split at h
  · cases h
  rename_i hthreshold
  split at h
  · cases h
  rename_i hdiff
  obtain rfl := Except.ok.inj h
  refine ⟨⟨k, rfl, ⟨hk, hle⟩, by omega, by omega, by omega⟩, ?_⟩
  have hsame : JsNum.strictEq (k : JsNum) k = true :=
    JsNum.strictEq_natCast.trans (decide_eq_true rfl)
  rw [verifyBelow, if_neg hbits, hsame, if_neg (by decide)]
  dsimp only
  rw [JsNum.toInt_natCast, Int.toNat_natCast, if_neg hthreshold, sub_commit, Bool.and_eq_true]
  constructor
  · rw [← commit_mod]
    exact Z.verifySub_proveSub _ _ _ hk ⟨by omega, by omega⟩ _ _
  · exact Z.verifySub_proveSub _ _ _ hk ⟨by omega, by omega⟩ _ _

/-- **Completeness of the range proof.** For every number of bits, threshold, amount below it and
blinding, whatever the prover draws and whatever the hash: a proof is made, and it is accepted. -/
theorem verifyBelow_proveBelow (coins : ProverCoins) {n : ℕ} (hn : 1 ≤ n ∧ n ≤ 251)
    {threshold : ℤ} (hthreshold : 1 ≤ threshold ∧ threshold ≤ 2 ^ n) {amount : ℤ}
    (hamount : 0 ≤ amount ∧ amount < threshold) (r : ℤ) :
    ∃ proof, Z.proveBelow coins amount r threshold n = .ok proof ∧
      Z.verifyBelow (Z.commit amount r) threshold proof n = true := by
  obtain ⟨proof, h⟩ :=
    Z.exists_proveBelow coins r ⟨n, rfl, hn, hamount.1, hamount.2, hthreshold.2⟩
  exact ⟨proof, h, (Z.proveBelow_eq_ok h).2⟩

end Complete

end ZkGroup

/-- The amount one is below two, in a group to run the code in. -/
theorem verifyBelow_proveBelow_one :
    ∃ proof, scalarGroup.proveBelow ⟨fun _ => 3, fun _ => 4, fun _ => ⟨5, 6, 7⟩,
        fun _ => ⟨8, 9, 10⟩⟩ 1 11 2 (3 : ℕ) = .ok proof ∧
      scalarGroup.verifyBelow (scalarGroup.commit 1 11) 2 proof (3 : ℕ) = true :=
  scalarGroup.verifyBelow_proveBelow _ (by decide) (by decide) (by decide) 11

end Nerion
