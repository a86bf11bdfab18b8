import Nerion.Symbolic

/-!
# Portable finality proofs (`ledger/src/portable.ts`)

A finality proof that travels: block, attestations, expected parent, and the finality
fraction it was made for. The consumer checks it against its own validator set; the
fraction is the relayer's.

* `signed_of_finalized` — a finalized proof carries a quorum *for its own fraction*;
* `two_thirds_iff` — the consumer is guaranteed two thirds exactly for the fractions that
  are at least two thirds.
-/

namespace Nerion

structure PortableFinalityProof (N : Type := JsNum) where
  block : Block N
  attestations : List (Attestation N)
  /-- the parent the block must extend -/
  expectedPrev : String
  /-- numerator of the finality fraction -/
  finalityNum : N
  /-- denominator of the finality fraction -/
  finalityDen : N
  /-- epoch of the attestations -/
  epoch : Option N

def exportFinalityProof (block : Block) (attestations : List Attestation) (expectedPrev : String)
    (finalityNum finalityDen epoch : Option JsNum) : PortableFinalityProof :=
  ⟨block, attestations, expectedPrev, finalityNum.getD 2, finalityDen.getD 3, epoch⟩

section Verifier

variable {N : Type} [WireNumber N]

/-- The two epochs when both are given and differ. -/
def epochMismatch (proof : PortableFinalityProof N) (trustedSet : ValidatorSet) :
    Option (N × JsNum) :=
  match proof.epoch, trustedSet.epoch with
  | some e, some e' => if JsNum.strictEq (WireNumber.toNum e) e' then none else some (e, e')
  | _, _ => none

/-- `verifyPortableFinality`. A fraction is asked whether its parts are integers before anything
else, so the number that stands for them will do. -/
def verifyPortableFinality (X : LedgerExternals) (proof : PortableFinalityProof N)
    (trustedSet : ValidatorSet) (expect : VerifyOpts) : Except JsError LightClientVerdict :=
  match epochMismatch proof trustedSet with
  | some (e, e') =>
    .ok
      { ok := false
        finalized := false
        attestingStake := 0
        totalStake := 0
        reasons := ["epoch mismatch: proof " ++ WireNumber.text e ++ " vs trusted set " ++
          e'.text] }
  | none =>
    verifyFinalized X proof.block proof.attestations trustedSet proof.expectedPrev
      (WireNumber.toNum proof.finalityNum) (WireNumber.toNum proof.finalityDen) expect

end Verifier

/-- A validator has an attestation in the proof whose signature verifies over the block and
the consumer's set. -/
def Signed (X : LedgerExternals) (proof : PortableFinalityProof) (trustedSet : ValidatorSet)
    (v : String) : Prop :=
  ∃ a ∈ proof.attestations, a.validator = v ∧ ∃ h setId msg,
    blockHash X proof.block.header = .ok h ∧ consensusSetId X trustedSet = .ok setId ∧
      attestMessage X proof.block.suite proof.block.header.height h setId = .ok msg ∧
      safeVerify X proof.block.suite a.sig msg (hexToBytesLocal v) = true

/-- Distinct members of the consumer's set that hold two thirds of its stake have signed. -/
def TwoThirdsSigned (X : LedgerExternals) (proof : PortableFinalityProof)
    (trustedSet : ValidatorSet) : Prop :=
  ∃ signers ⊆ trustedSet.pubkeys, (∀ v ∈ signers, Signed X proof trustedSet v) ∧
    2 * totalStake trustedSet ≤ 3 * ∑ v ∈ signers, stakeOf trustedSet v

section Finalized

variable {X : LedgerExternals} {proof : PortableFinalityProof} {trustedSet : ValidatorSet}
  {expect : VerifyOpts}

/-- A finalized verdict comes from the finality verifier. -/
theorem finalizes_of_portable {v : LightClientVerdict}
    (hv : verifyPortableFinality X proof trustedSet expect = .ok v) (hfin : v.finalized = true) :
    ∃ h setId t, Finalizes X proof.block proof.attestations trustedSet proof.expectedPrev
      proof.finalityNum proof.finalityDen expect h setId t := by
  rw [verifyPortableFinality] at hv
  split at hv
  · cases hv
    cases hfin
  · exact verifyFinalized_finalized_iff.mp ⟨v, hv, hfin⟩

/-- **A finalized proof carries a quorum of the consumer's set for its own fraction.** -/
theorem signed_of_finalized {h setId : String} {t : Tally}
    (hf : Finalizes X proof.block proof.attestations trustedSet proof.expectedPrev
      proof.finalityNum proof.finalityDen expect h setId t) :
    IsQuorum (stakeOf trustedSet) trustedSet.pubkeys proof.finalityNum.toInt
        proof.finalityDen.toInt t.counted.toFinset ∧
      ∀ v ∈ t.counted.toFinset, Signed X proof trustedSet v := by
  refine ⟨hf.isQuorum, fun v hv => ?_⟩
  obtain ⟨a, hmem, hval, hat, hsig⟩ := hf.attested (List.mem_toFinset.mp hv)
  obtain ⟨hhash, hheight, hsuite, -⟩ := attests_iff.mp hat
  obtain ⟨setId', hid, hsig⟩ := Except.bind_eq_ok hsig
  obtain ⟨msg, hmsg, hsig⟩ := Except.bind_eq_ok hsig
  rw [hsuite, hhash, (JsNum.strictEq_iff.mp hheight).2] at hmsg
  rw [hsuite, hval] at hsig
  exact ⟨a, hmem, hval, h, setId', msg, hf.hash, hid, hmsg, Except.ok.inj hsig⟩

/-- A fraction of at least two thirds gives the consumer its two thirds. -/
theorem twoThirdsSigned_of_finalized {h setId : String} {t : Tally}
    (hf : Finalizes X proof.block proof.attestations trustedSet proof.expectedPrev
      proof.finalityNum proof.finalityDen expect h setId t)
    (hfraction : 2 * proof.finalityDen.toInt ≤ 3 * proof.finalityNum.toInt) :
    TwoThirdsSigned X proof trustedSet := by
  obtain ⟨hquorum, hsigned⟩ := signed_of_finalized hf
  obtain ⟨n, d, -, hd, hn1, hnd⟩ := exists_natCast_of_validThreshold hf.threshold
  have hden : 0 < proof.finalityDen.toInt := by
    rw [hd, JsNum.toInt_natCast]
    exact_mod_cast hn1.trans hnd
  have htwo : IsQuorum (stakeOf trustedSet) trustedSet.pubkeys 2 3 t.counted.toFinset :=
    hquorum.of_le (stakeOf_nonneg trustedSet) hden (by decide) (by linarith)
  refine ⟨t.counted.toFinset, htwo.subset, hsigned, ?_⟩
  rw [← ValidatorSet.sum_stakeOf hf.wellFormed.nodup]
  exact htwo.weight

end Finalized

/-! ## A proof below two thirds -/

/-- Two members: one with stake `n`, the other with the rest of `d`. -/
def splitSet (n d : ℕ) : ValidatorSet := ⟨[⟨"01", n, none⟩, ⟨"02", d - n, none⟩], none⟩

/-- The leader's block, attested by the first member only, at the fraction `n / d`. -/
def splitProof (n d : ℕ) : PortableFinalityProof where
  block := symbolicBlock (splitSet n d) "" ""
  attestations := [symbolicAttestation (splitSet n d) (symbolicBlock (splitSet n d) "" "") "01"]
  expectedPrev := ""
  finalityNum := n
  finalityDen := d
  epoch := none

variable {n d : ℕ}

theorem splitSet_wellFormed (hnd : n ≤ d) : (splitSet n d).WellFormed := by
  refine ⟨fun v hv => ?_, (by decide : ["01", "02"].Nodup)⟩
  rcases List.mem_cons.mp hv with rfl | hv
  · exact Int.natCast_nonneg n
  · rw [List.mem_singleton.mp hv]
    exact sub_nonneg.mpr (by exact_mod_cast hnd)

theorem stakeOf_splitSet (n d : ℕ) : stakeOf (splitSet n d) "01" = n := by
  change safeStake n = n
  rw [safeStake, if_pos (Int.natCast_nonneg n)]

theorem totalStake_splitSet (hnd : n ≤ d) : totalStake (splitSet n d) = d := by
  have hrest : (0 : ℤ) ≤ d - n := sub_nonneg.mpr (by exact_mod_cast hnd)
  rw [totalStake_eq_sum]
  change safeStake n + (safeStake (d - n) + 0) = d
  rw [safeStake, safeStake, if_pos (Int.natCast_nonneg n), if_pos hrest]
  ring

/-- A leader's block that the first member attests is finalized at that member's fraction. -/
theorem splitSet_finalized {block : Block} (hb : LeaderBlock (splitSet n d) "" block) (hn : 1 ≤ n)
    (hnd : n ≤ d) : ∃ v, verifyFinalized symbolicExternals block
        [symbolicAttestation (splitSet n d) block "01"] (splitSet n d) "" n d .none = .ok v ∧
      v.finalized = true := by
  have hd : (0 : ℤ) < d := by exact_mod_cast hn.trans hnd
  have hstake : 0 < stakeOf (splitSet n d) "01" := by
    rw [stakeOf_splitSet]
    exact_mod_cast hn
  have htotal : 0 < totalStake (splitSet n d) := by
    rw [totalStake_splitSet hnd]
    exact hd
  refine verifyFinalized_finalized_iff.mpr ⟨_, _, _, hb.finalizes (splitSet_wellFormed hnd) rfl
    htotal (validThreshold_natCast.mpr ⟨hn, hnd⟩) ?_
    (hb.tally_own hstake fun a ha => absurd ha List.not_mem_nil) ?_⟩
  · exact (by decide : 1 ≤ 256).trans (le_max_right _ _)
  · rw [totalStake_splitSet hnd, stakeOf_splitSet, JsNum.toInt_natCast, JsNum.toInt_natCast]

/-- The fraction is its own: the proof is finalized. -/
theorem splitProof_finalized (hn : 1 ≤ n) (hnd : n ≤ d) :
    ∃ v, verifyPortableFinality symbolicExternals (splitProof n d) (splitSet n d) .none = .ok v ∧
      v.finalized = true :=
  splitSet_finalized (leaderBlock_symbolicBlock _ _ _) hn hnd

/-- Below two thirds, no two thirds signed. -/
theorem splitProof_not_signed (hnd : n ≤ d) (hlt : 3 * n < 2 * d) :
    ¬ TwoThirdsSigned symbolicExternals (splitProof n d) (splitSet n d) := by
  rintro ⟨signers, -, hsigned, hge⟩
  have hsub : signers ⊆ {"01"} := by
    intro v hv
    obtain ⟨a, ha, hval, -⟩ := hsigned v hv
    rw [← hval, List.mem_singleton.mp ha]
    exact Finset.mem_singleton_self _
  have hsum : ∑ v ∈ signers, stakeOf (splitSet n d) v ≤ n := by
    refine (Finset.sum_le_sum_of_subset_of_nonneg hsub fun v _ _ => stakeOf_nonneg _ v).trans ?_
    rw [Finset.sum_singleton, stakeOf_splitSet]
  rw [totalStake_splitSet hnd] at hge
  have hlt' : (3 : ℤ) * n < 2 * d := by exact_mod_cast hlt
  linarith

/-- **Two thirds of the consumer's own set, exactly when the relayer's fraction says so.**
For a fraction `num / den` every finalized proof, over all externals, sets and options,
carries two thirds if and only if the fraction is rejected or is at least two thirds. -/
theorem two_thirds_iff (num den : JsNum) :
    (∀ (X : LedgerExternals) (proof : PortableFinalityProof) (trustedSet : ValidatorSet)
        (expect : VerifyOpts) (v : LightClientVerdict),
        proof.finalityNum = num → proof.finalityDen = den →
        verifyPortableFinality X proof trustedSet expect = .ok v → v.finalized = true →
        TwoThirdsSigned X proof trustedSet) ↔
      (validThreshold num den = true → 2 * den.toInt ≤ 3 * num.toInt) := by
  constructor
  · intro hall hvalid
    obtain ⟨n, d, rfl, rfl, hn, hnd⟩ := exists_natCast_of_validThreshold hvalid
    rw [JsNum.toInt_natCast, JsNum.toInt_natCast]
    by_contra hlt
    have hlt' : 3 * n < 2 * d := by exact_mod_cast not_le.mp hlt
    obtain ⟨v, hv, hfin⟩ := splitProof_finalized hn hnd
    exact splitProof_not_signed hnd hlt' (hall _ _ _ _ v rfl rfl hv hfin)
  · rintro hfraction X proof trustedSet expect v rfl rfl hv hfin
    obtain ⟨h, setId, t, hf⟩ := finalizes_of_portable hv hfin
    exact twoThirdsSigned_of_finalized hf (hfraction hf.threshold)

/-- A relayer's fraction of one third: finalized, with a third of the stake behind it. -/
theorem one_third_finalized :
    (∃ v, verifyPortableFinality symbolicExternals (splitProof 1 3) (splitSet 1 3) .none = .ok v ∧
        v.finalized = true) ∧
      ¬ TwoThirdsSigned symbolicExternals (splitProof 1 3) (splitSet 1 3) :=
  ⟨splitProof_finalized (by decide) (by decide), splitProof_not_signed (by decide) (by decide)⟩

end Nerion
