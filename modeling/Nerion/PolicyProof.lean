import Nerion.RangeComplete
import Nerion.Transcript

/-!
# Policy-satisfaction proofs (`disclosure/src/policyproof.ts`)

Two range proofs over one commitment to an amount: that it is at most the ceiling of a single
action, and, when the policy has a cap, that the running total `aggregate` and the amount
together are at most the cap. The second is over the commitment shifted by `aggregate`, a scalar
that counts modulo the order of the group and is itself compared with nothing.

* `exists_provePolicySatisfaction`, `verifyPolicySatisfaction_prove` — when a proof is made, and
  when it is accepted;
* `policy_bounds_iff` — an accepted proof bounds the sum exactly when the running total is within
  the cap to begin with;
* `policy_bound_wraps` — an accepted proof for a running total far above it.
-/

namespace Nerion

structure PolicyBounds where
  /-- upper bound of the amount -/
  perActionCeiling : ℤ
  /-- the running total -/
  aggregate : Option ℤ
  /-- upper bound of the running total with the amount -/
  aggregateCap : Option ℤ
  /-- number of bits, 32 if absent -/
  n : Option JsNum

structure PolicySatisfactionProof (P : Type) where
  /-- number of bits -/
  n : JsNum
  /-- the amount is within the ceiling -/
  ceiling : RangeProof P
  /-- the sum is within the cap -/
  aggregate : Option (RangeProof P)

/-- The bounds allow the amount, and the running total with it, in numbers that can be proved. -/
structure PolicyBounds.Allows (bounds : PolicyBounds) (amount : ℤ) : Prop where
  /-- the amount is within the ceiling -/
  ceiling : ZkGroup.Provable amount (bounds.perActionCeiling + 1) (bounds.n.getD 32)
  /-- the sum is within the cap -/
  cap : ∀ aggregate ∈ bounds.aggregate, ∀ cap ∈ bounds.aggregateCap,
    ZkGroup.Provable (amount + aggregate) (cap + 1) (bounds.n.getD 32)

namespace ZkGroup

open PedersenGroup

variable {P : Type} [AddCommGroup P] [DecidableEq P] (Z : ZkGroup P)

def verifyPolicySatisfaction (commitment : P) (bounds : PolicyBounds)
    (proof : PolicySatisfactionProof P) : Bool :=
  let n := bounds.n.getD 32
  if !JsNum.strictEq proof.n n then false
  else if bounds.aggregateCap.isSome && bounds.aggregate.isNone then false
  else if !Z.verifyBelow commitment (bounds.perActionCeiling + 1) proof.ceiling n then false
  else
    match bounds.aggregate, bounds.aggregateCap with
    | some aggregate, some aggregateCap =>
      match proof.aggregate with
      | none => false
      | some sumProof =>
        Z.verifyBelow (Z.shiftCommitment commitment aggregate) (aggregateCap + 1) sumProof n
    | _, _ => proof.aggregate.isNone

/-! ## What acceptance says about the bounds -/

/-- A threshold that `verifyBelow` admits is small against the order. -/
theorem threshold_of_verifyBelow {commitment : P} {threshold : ℤ} {proof : RangeProof P} {n : JsNum}
    (h : Z.verifyBelow commitment threshold proof n = true) : threshold ≤ 2 ^ 251 := by
  obtain ⟨st, ⟨-, rfl, -⟩, -⟩ := verifyBelow_statement h
  exact st.threshold_le.trans (pow_le_pow_right₀ one_le_two st.n_le)

variable {bounds : PolicyBounds} {proof : PolicySatisfactionProof P}

variable {Z} in
/-- What `verifyPolicySatisfaction` has found. -/
theorem verifyPolicySatisfaction_eq_true {commitment : P}
    (h : Z.verifyPolicySatisfaction commitment bounds proof = true) :
    Z.verifyBelow commitment (bounds.perActionCeiling + 1) proof.ceiling (bounds.n.getD 32) =
      true ∧
    ∀ aggregate ∈ bounds.aggregate, ∀ cap ∈ bounds.aggregateCap, ∃ sum ∈ proof.aggregate,
      Z.verifyBelow (Z.shiftCommitment commitment aggregate) (cap + 1) sum (bounds.n.getD 32) =
        true := by
  rw [verifyPolicySatisfaction] at h
  split at h
  · cases h
  split at h
  · cases h
  split at h
  · cases h
  rename_i hceiling
  rw [Bool.not_eq_true', Bool.not_eq_false] at hceiling
  refine ⟨hceiling, fun aggregate haggregate cap hcap => ?_⟩
  rw [Option.mem_def] at haggregate hcap
  rw [haggregate, hcap] at h
  dsimp only at h
  split at h
  · cases h
  · rename_i sum hsum
    exact ⟨sum, hsum, h⟩

/-- **What an accepted proof bounds.** Let the two range proofs be extracted to openings of the
commitment and of the shifted one, in the ranges verified. Then the openings give a relation
between the generators, or the amount and the sum are within their bounds as integers, exactly
when they give a relation or the running total is itself within the cap. -/
theorem policy_bounds_iff {commitment : P} {ceiling aggregate cap : ℤ} {n : Option JsNum}
    {proof : PolicySatisfactionProof P} (haggregate : 0 ≤ aggregate)
    (haccept : Z.verifyPolicySatisfaction commitment ⟨ceiling, some aggregate, some cap, n⟩ proof =
      true) {a r a' r' : ℤ} (hopen : commitment = Z.commit a r) (hrange : 0 ≤ a ∧ a < ceiling + 1)
    (hopen' : Z.shiftCommitment commitment aggregate = Z.commit a' r')
    (hrange' : 0 ≤ a' ∧ a' < cap + 1) :
    (Z.Relation Z.G Z.H (aggregate + a - a') (r - r') ∨ (a ≤ ceiling ∧ aggregate + a ≤ cap)) ↔
      (Z.Relation Z.G Z.H (aggregate + a - a') (r - r') ∨ aggregate ≤ cap) := by
  obtain ⟨hceiling, hsum⟩ := verifyPolicySatisfaction_eq_true haccept
  obtain ⟨_, -, hcap⟩ := hsum _ rfl _ rfl
  replace hceiling := Z.threshold_of_verifyBelow hceiling
  replace hcap := Z.threshold_of_verifyBelow hcap
  dsimp only at hceiling
  have hsame : (aggregate + a) • Z.G + r • Z.H = a' • Z.G + r' • Z.H := by
    rw [← commit_eq _ a' r', ← hopen', hopen, shiftCommitment_eq, commit_eq, add_zsmul]
    abel
  rcases Z.relation_or_modEq hsame with hrel | ⟨hmod, -⟩
  · exact ⟨fun _ => .inl hrel, fun _ => .inl hrel⟩
  refine or_congr_right ⟨fun h => by omega, fun hwithin => ⟨by omega, ?_⟩⟩
  -- a running total within the cap is too small to wrap around the order
  have hlarge : (2 : ℤ) ^ 252 < Z.order := by exact_mod_cast Z.large
  have htwo : (2 : ℤ) ^ 252 = 2 * 2 ^ 251 := by norm_num
  have hlt : |aggregate + a - a'| < Z.order := by
    rw [abs_lt]
    refine ⟨?_, ?_⟩
    · linarith
    · linarith
  have hzero := Int.eq_zero_of_abs_lt_dvd hmod.symm.dvd hlt
  omega

/-! ## Proving -/

def provePolicySatisfaction (coins sumCoins : ProverCoins) (amount opening : ℤ)
    (bounds : PolicyBounds) : Except JsError (PolicySatisfactionProof P) := do
  let n := bounds.n.getD 32
  let ceiling ← Z.proveBelow coins amount opening (bounds.perActionCeiling + 1) n
  match bounds.aggregate, bounds.aggregateCap with
  | some aggregate, some aggregateCap => do
    let sum ← Z.proveBelow sumCoins (amount + aggregate) opening (aggregateCap + 1) n
    .ok ⟨n, ceiling, some sum⟩
  | _, _ => .ok ⟨n, ceiling, none⟩

variable {Z}

omit [DecidableEq P] in
theorem shiftCommitment_commit (amount opening aggregate : ℤ) :
    Z.shiftCommitment (Z.commit amount opening) aggregate =
      Z.commit (amount + aggregate) opening := by
  rw [shiftCommitment_eq, commit_eq, commit_eq, add_zsmul]
  abel

omit [DecidableEq P] in
/-- What `provePolicySatisfaction` has made: the proof for the ceiling, and the one for the sum just
when both the running total and its cap are given. -/
theorem provePolicySatisfaction_eq_ok {coins sumCoins : ProverCoins} {amount opening : ℤ}
    (h : Z.provePolicySatisfaction coins sumCoins amount opening bounds = .ok proof) :
    proof.n = bounds.n.getD 32 ∧
    Z.proveBelow coins amount opening (bounds.perActionCeiling + 1) (bounds.n.getD 32) =
      .ok proof.ceiling ∧
    ((∃ aggregate cap sum, bounds.aggregate = some aggregate ∧ bounds.aggregateCap = some cap ∧
        proof.aggregate = some sum ∧
        Z.proveBelow sumCoins (amount + aggregate) opening (cap + 1) (bounds.n.getD 32) = .ok sum) ∨
      ((bounds.aggregate = none ∨ bounds.aggregateCap = none) ∧ proof.aggregate = none)) := by
  obtain ⟨ceiling, hceiling, h⟩ := Except.bind_eq_ok h
  split at h
  · rename_i aggregate cap haggregate hcap
    obtain ⟨sum, hsum, h⟩ := Except.bind_eq_ok h
    obtain rfl := Except.ok.inj h
    exact ⟨rfl, hceiling, .inl ⟨aggregate, cap, sum, haggregate, hcap, rfl, hsum⟩⟩
  · rename_i hboth
    obtain rfl := Except.ok.inj h
    refine ⟨rfl, hceiling, .inr ⟨?_, rfl⟩⟩
    cases haggregate : bounds.aggregate with
    | none => exact .inl rfl
    | some aggregate =>
      cases hcap : bounds.aggregateCap with
      | none => exact .inr rfl
      | some cap => exact absurd hcap (hboth _ _ haggregate)

/-- A proof of the policy is made exactly for the amounts that its bounds allow. -/
theorem exists_provePolicySatisfaction (coins sumCoins : ProverCoins) (opening : ℤ) {amount : ℤ} :
    (∃ proof, Z.provePolicySatisfaction coins sumCoins amount opening bounds = .ok proof) ↔
      bounds.Allows amount := by
  constructor
  · rintro ⟨proof, h⟩
    obtain ⟨-, hceiling, hsum⟩ := provePolicySatisfaction_eq_ok h
    refine ⟨(Z.proveBelow_eq_ok hceiling).1, fun a ha c hc => ?_⟩
    rcases hsum with ⟨aggregate, cap, sum, haggregate, hcap, -, hsum⟩ | ⟨hnone | hnone, -⟩
    · cases haggregate.symm.trans ha
      cases hcap.symm.trans hc
      exact (Z.proveBelow_eq_ok hsum).1
    · cases hnone.symm.trans ha
    · cases hnone.symm.trans hc
  · rintro ⟨hceiling, hcap⟩
    obtain ⟨ceiling, hproof⟩ := Z.exists_proveBelow coins opening hceiling
    rw [provePolicySatisfaction]
    split
    · rename_i aggregate cap ha hc
      obtain ⟨sum, hsum⟩ := Z.exists_proveBelow sumCoins opening (hcap aggregate ha cap hc)
      exact ⟨_, Except.bind_ok hproof (Except.bind_ok hsum rfl)⟩
    · exact ⟨_, Except.bind_ok hproof rfl⟩

/-- An honest policy proof is accepted, unless the bounds have a cap without a running total. -/
theorem verifyPolicySatisfaction_prove {coins sumCoins : ProverCoins} {amount opening : ℤ}
    (h : Z.provePolicySatisfaction coins sumCoins amount opening bounds = .ok proof) :
    Z.verifyPolicySatisfaction (Z.commit amount opening) bounds proof = true ↔
      (bounds.aggregateCap.isSome = true → bounds.aggregate.isSome = true) := by
  obtain ⟨hn, hceiling, hsum⟩ := provePolicySatisfaction_eq_ok h
  obtain ⟨⟨k, hk, -⟩, hbelow⟩ := Z.proveBelow_eq_ok hceiling
  have hsame : JsNum.strictEq proof.n (bounds.n.getD 32) = true := by
    rw [hn, hk]
    exact JsNum.strictEq_natCast.trans (decide_eq_true rfl)
  have htrue : ¬ (!true) = true := by decide
  rw [verifyPolicySatisfaction, hsame, hbelow, if_neg htrue, if_neg htrue]
  rcases hsum with ⟨aggregate, cap, sum, haggregate, hcap, hproof, hsum⟩ | ⟨hnone, hproof⟩
  · rw [haggregate, hcap, hproof, if_neg (by simp)]
    dsimp only
    rw [shiftCommitment_commit]
    exact iff_of_true (Z.proveBelow_eq_ok hsum).2 fun _ => rfl
  · rw [hproof]
    rcases hnone with hnone | hnone
    · rw [hnone]
      cases bounds.aggregateCap <;> simp
    · rw [hnone]
      cases bounds.aggregate <;> simp

/-! ## A commitment to nothing -/

variable (Z)

/-- The proof of one bit of a commitment to zero without randomness. -/
def zeroBit (stmt : Bytes) (tag : String) : BitProof P where
  t0 := 0
  t1 := 0
  c0 := Z.challenge stmt tag 0 0 (Z.sub 0 Z.G) 0 0
  c1 := 0
  s0 := 0
  s1 := 0

/-- The proof in one bit that zero is below one. -/
def zeroBelow : RangeProof P :=
  let stmt := Z.statementHash 1 1 0 [0] [0]
  { n := 1
    amount := ⟨[0], [Z.zeroBit stmt (bitTag "amount" 0)]⟩
    diff := ⟨[0], [Z.zeroBit stmt (bitTag "diff" 0)]⟩ }

theorem verifyBit_zeroBit (stmt : Bytes) (tag : String) :
    Z.verifyBit 0 (Z.zeroBit stmt tag) stmt tag = true := by
  have hmod : Z.mod ((Z.zeroBit stmt tag).c0 + (Z.zeroBit stmt tag).c1) =
      Z.challenge stmt tag 0 0 (Z.sub 0 Z.G) 0 0 := by
    rw [zeroBit, add_zero, challenge, scalarFromBytes, mod_eq, mod_eq,
      Int.emod_emod_of_dvd _ dvd_rfl]
  rw [verifyBit]
  refine (if_neg (not_not.mpr hmod)).trans (Z.bitEquations_iff.mpr ?_)
  simp [zeroBit]

theorem verifySub_zeroBit (stmt : Bytes) (side : String) :
    Z.verifySub 0 ⟨[0], [Z.zeroBit stmt (bitTag side 0)]⟩ 1 stmt side = true := by
  have hcombine : Z.combine 0 [0] (0 : P) = 0 := by simp [combine, mul_eq]
  rw [verifySub, if_neg (by simp), if_neg (not_not.mpr hcombine), verifyBits, verifyBit_zeroBit]
  rfl

/-- The proof of zeros is accepted, whatever the hash is. -/
theorem verifyBelow_zeroBelow : Z.verifyBelow 0 1 Z.zeroBelow 1 = true := by
  have hbits : ¬ ((!JsNum.isInteger 1 || JsNum.lt 1 1 || JsNum.lt 251 1) = true) := by
    decide +kernel
  have hn : ¬ ((!JsNum.strictEq Z.zeroBelow.n 1) = true) := by
    rw [show Z.zeroBelow.n = 1 from rfl]
    decide +kernel
  have hdiff : Z.sub (Z.mul Z.G (1 - 1)) 0 = 0 := by simp [sub_eq, mul_eq]
  rw [verifyBelow, if_neg hbits, if_neg hn]
  dsimp only
  rw [if_neg (by decide), hdiff]
  exact Bool.and_eq_true_iff.mpr ⟨Z.verifySub_zeroBit _ _, Z.verifySub_zeroBit _ _⟩

/-- The proof of zeros satisfies a policy that allows nothing, under every running total that
leaves the commitment as it is. -/
theorem verifyPolicySatisfaction_zero {aggregate : ℤ} (h : Z.shiftCommitment 0 aggregate = 0) :
    Z.verifyPolicySatisfaction 0 ⟨0, some aggregate, some 0, some 1⟩
      ⟨1, Z.zeroBelow, some Z.zeroBelow⟩ = true := by
  have hn : JsNum.strictEq 1 1 = true := by decide +kernel
  have hbelow : Z.verifyBelow 0 (0 + 1) Z.zeroBelow 1 = true := Z.verifyBelow_zeroBelow
  change (if (!JsNum.strictEq 1 1) = true then false
    else if (!Z.verifyBelow 0 (0 + 1) Z.zeroBelow 1) = true then false
    else Z.verifyBelow (Z.shiftCommitment 0 aggregate) (0 + 1) Z.zeroBelow 1) = true
  rw [h, hn, hbelow]
  rfl

end ZkGroup

/-- Ten at once, and eight in total, of which three are spent. -/
def fiveBounds : PolicyBounds := ⟨10, some 3, some 8, some 4⟩

/-- A prover that draws zeros. -/
def idleCoins : ProverCoins := ⟨fun _ => 0, fun _ => 0, fun _ => ⟨0, 0, 0⟩, fun _ => ⟨0, 0, 0⟩⟩

theorem fiveBounds_allows : fiveBounds.Allows 5 := by
  refine ⟨⟨4, rfl, by decide⟩, ?_⟩
  rintro _ ⟨⟩ _ ⟨⟩
  exact ⟨4, rfl, by decide⟩

theorem scalarGroup_commit_zero : scalarGroup.commit 0 0 = 0 := by
  rw [PedersenGroup.commit_eq, zero_zsmul, zero_zsmul, add_zero]

/-- `policy_bounds_iff` for a payment of five, of which ten are allowed at once, after three of
eight. -/
theorem policy_bounds_five :
    (∃ proof, scalarGroup.verifyPolicySatisfaction (scalarGroup.commit 5 7) fiveBounds proof =
      true) ∧
    ((scalarGroup.Relation scalarGroup.G scalarGroup.H (3 + 5 - 8) (7 - 7) ∨
      ((5 : ℤ) ≤ 10 ∧ (3 : ℤ) + 5 ≤ 8)) ↔
      (scalarGroup.Relation scalarGroup.G scalarGroup.H (3 + 5 - 8) (7 - 7) ∨ (3 : ℤ) ≤ 8)) := by
  obtain ⟨proof, hproof⟩ := (ZkGroup.exists_provePolicySatisfaction (Z := scalarGroup) idleCoins
    idleCoins 7).mpr fiveBounds_allows
  have haccept := (ZkGroup.verifyPolicySatisfaction_prove hproof).mpr fun _ => rfl
  exact ⟨⟨proof, haccept⟩, scalarGroup.policy_bounds_iff (by decide) haccept rfl (by decide)
    (ZkGroup.shiftCommitment_commit 5 7 3) (by decide)⟩

/-- **The running total is not bounded**: nothing may be spent in total, the running total is the
order of the group, and the proof for no amount at all is accepted. -/
theorem policy_bound_wraps :
    scalarGroup.verifyPolicySatisfaction (scalarGroup.commit 0 0)
        ⟨0, some ristrettoOrder, some 0, some 1⟩
        ⟨1, scalarGroup.zeroBelow, some scalarGroup.zeroBelow⟩ = true ∧
      scalarGroup.shiftCommitment (scalarGroup.commit 0 0) ristrettoOrder =
        scalarGroup.commit 0 0 ∧
      ¬ scalarGroup.Relation scalarGroup.G scalarGroup.H (ristrettoOrder + 0 - 0) (0 - 0) ∧
      ¬ (ristrettoOrder : ℤ) + 0 ≤ 0 := by
  have hshift : scalarGroup.shiftCommitment 0 ristrettoOrder = 0 := by
    rw [PedersenGroup.shiftCommitment_eq, zero_add]
    exact scalarGroup.order_zsmul _
  rw [scalarGroup_commit_zero]
  refine ⟨scalarGroup.verifyPolicySatisfaction_zero hshift, hshift, fun hrel => hrel.2 ?_,
    by decide⟩
  rw [add_zero, sub_zero, sub_zero]
  exact ⟨dvd_rfl, dvd_zero _⟩

end Nerion
