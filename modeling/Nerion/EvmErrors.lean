import Nerion.EvmProfile

/-!
# When the EVM profile throws

The verifiers of the profile compute set id and message in a guarded part, which turns
every error into a rejection, and check signatures one by one under a guard of their own.
Between the two they resolve the suite, without a guard. So they throw exactly when all
the checks before let the input through and the suite has no signer.

* `exists_message_iff` — for which sets, headers and targets there is a message;
* `evm_verifiers_return_iff` — when each verifier returns, and that it then rejects what is
  malformed;
* `unknown_suite_throws` — a suite id that is not registered.
-/

namespace Nerion

/-- The suite has a signer. -/
def SuiteResolves (X : EvmExternals) (suite : String) : Prop :=
  ∃ verifier, X.signerFor suite = .ok verifier

/-- Set, header and target are such that a message can be computed. -/
structure EvmWellFormed (X : EvmExternals) (set : ValidatorSet) (height : JsNum) (hash : String)
    (target : EvmTarget) : Prop where
  /-- the set has canonical members -/
  members : ∃ ms, canonicalMembers X set = .ok ms
  /-- the epoch is a safe non-negative integer -/
  epoch : ∃ n : ℕ, set.epoch.getD 0 = n ∧ n < 2 ^ 53
  /-- the verifier is an address of 20 bytes -/
  verifier : ∃ b, decodeHex X.toExternals "verifier" target.verifier = .ok b ∧ b.length = 20
  /-- the hash has 32 bytes -/
  hash : ∃ b, decodeHex X.toExternals "blockHash" hash = .ok b ∧ b.length = 32
  /-- the chain id is a uint256 -/
  chainId : ∃ n : ℕ, target.chainId = n ∧ n < 2 ^ 256
  /-- the height is a safe non-negative integer -/
  height : ∃ n : ℕ, height = n ∧ n < 2 ^ 53

section Contexts

variable {X : EvmExternals} {set : ValidatorSet} {suite : String} {height : JsNum}
  {hash hashA hashB : String} {target : EvmTarget}

theorem exists_message_iff (suite : String) :
    (∃ msg, evmMessageOf X set suite height hash target = .ok msg) ↔
    EvmWellFormed X set height hash target := by
  refine ⟨?_, ?_⟩
  · rintro ⟨msg, h⟩
    obtain ⟨setId, hset, h⟩ := Except.bind_eq_ok h
    obtain ⟨ms, epoch, hms, hepoch, hlt, -⟩ := evmSetId_eq_ok.mp hset
    obtain ⟨v, b, n, c, -, hv, hvlen, hb, hblen, hc, hclt, hn, hnlt, -⟩ :=
      evmAttestMessage_eq_ok.mp h
    exact ⟨⟨ms, hms⟩, ⟨epoch, hepoch, hlt⟩, ⟨v, hv, hvlen⟩, ⟨b, hb, hblen⟩, ⟨c, hc, hclt⟩,
      ⟨n, hn, hnlt⟩⟩
  · intro h
    obtain ⟨ms, hms⟩ := h.members
    obtain ⟨epoch, hepoch, hlt⟩ := h.epoch
    obtain ⟨v, hv, hvlen⟩ := h.verifier
    obtain ⟨b, hb, hblen⟩ := h.hash
    obtain ⟨c, hc, hclt⟩ := h.chainId
    obtain ⟨n, hn, hnlt⟩ := h.height
    have hset : evmSetId X set = .ok _ := evmSetId_eq_ok.mpr ⟨ms, epoch, hms, hepoch, hlt, rfl⟩
    exact ⟨_, Except.bind_ok hset (evmAttestMessage_eq_ok.mpr
      ⟨v, b, n, c, length_of_evmSetId hset, hv, hvlen, hb, hblen, hc, hclt, hn, hnlt, rfl⟩)⟩

/-- The guarded part of `verifyEvmFinality` comes through. -/
theorem finalityContext_some_iff :
    (∃ total r, finalityContext X set suite height hash target = .ok (total, some r)) ↔
      EvmWellFormed X set height hash target ∧ 0 < totalStake set := by
  refine ⟨?_, ?_⟩
  · rintro ⟨total, r, h⟩
    obtain ⟨ms, msg, -, hstake, hmsg, -, -⟩ := finalityContext_eq_some.mp h
    exact ⟨(exists_message_iff suite).mp ⟨msg, hmsg⟩, hstake⟩
  · rintro ⟨hwf, hstake⟩
    obtain ⟨ms, hms⟩ := hwf.members
    obtain ⟨msg, hmsg⟩ := (exists_message_iff suite).mpr hwf
    exact ⟨_, _, finalityContext_eq_some.mpr ⟨ms, msg, hms, hstake, hmsg, rfl, rfl⟩⟩

/-- The guarded part of `detectEvmEquivocations` comes through. -/
theorem equivocationContext_ok_iff (suite : String) :
    (∃ r, equivocationContext X set suite height target hashA hashB = .ok r) ↔
      EvmWellFormed X set height hashA target ∧ EvmWellFormed X set height hashB target := by
  refine ⟨?_, ?_⟩
  · rintro ⟨r, h⟩
    obtain ⟨ms, msgA, msgB, -, hA, hB, -⟩ := equivocationContext_eq_ok.mp h
    exact ⟨(exists_message_iff suite).mp ⟨msgA, hA⟩, (exists_message_iff suite).mp ⟨msgB, hB⟩⟩
  · rintro ⟨hwfA, hwfB⟩
    obtain ⟨ms, hms⟩ := hwfA.members
    obtain ⟨msgA, hA⟩ := (exists_message_iff suite).mpr hwfA
    obtain ⟨msgB, hB⟩ := (exists_message_iff suite).mpr hwfB
    exact ⟨_, equivocationContext_eq_ok.mpr ⟨ms, msgA, msgB, hms, hA, hB, rfl⟩⟩

/-- The guarded part of `verifyEvmEquivocationProof` comes through. -/
theorem proofContext_some_iff {p : EvmEquivocationProof} :
    (∃ r, proofContext X p set suite target = .ok (some r)) ↔
      0 < stakeOf set p.validator ∧ EvmWellFormed X set p.height p.blockHashA target ∧
        EvmWellFormed X set p.height p.blockHashB target := by
  rw [← equivocationContext_ok_iff suite]
  refine ⟨?_, ?_⟩
  · rintro ⟨r, h⟩
    obtain ⟨hstake, stakes, hctx⟩ := proofContext_eq_some.mp h
    exact ⟨hstake, _, hctx⟩
  · rintro ⟨hstake, ⟨stakes, r⟩, hctx⟩
    exact ⟨r, proofContext_eq_some.mpr ⟨hstake, stakes, hctx⟩⟩

end Contexts

/-! ## Returning and rejecting -/

section Returns

variable (X : EvmExternals) (set : ValidatorSet) (suite : String) (target : EvmTarget)

/-- `verifyEvmFinality` gets to the suite: no check before turns the input away. -/
structure FinalityReachesSuite (atts : List EvmSignedAttestation) (height : JsNum) (hash : String)
    (num den : JsNum) : Prop where
  /-- the thresholds make sense -/
  threshold : validThreshold num den = true
  /-- the set is within its cap -/
  validators : set.validators.length ≤ maxValidators
  /-- the list is within its cap -/
  attestations : atts.length ≤ maxEvmAttestations
  /-- there is stake -/
  stake : 0 < totalStake set
  /-- set, header and target are well-formed -/
  wellFormed : EvmWellFormed X set height hash target

/-- `detectEvmEquivocations` gets to the suite. -/
structure DetectionReachesSuite (height : JsNum) (hashA : String)
    (attsA : List EvmSignedAttestation) (hashB : String) (attsB : List EvmSignedAttestation) :
    Prop where
  /-- the blocks are different -/
  ne : hashA ≠ hashB
  /-- the one list is within its cap -/
  attestationsA : attsA.length ≤ maxEvmAttestations
  /-- the other list is within its cap -/
  attestationsB : attsB.length ≤ maxEvmAttestations
  /-- set, header and target are well-formed, for the one block -/
  wellFormedA : EvmWellFormed X set height hashA target
  /-- set, header and target are well-formed, for the other block -/
  wellFormedB : EvmWellFormed X set height hashB target

/-- `verifyEvmEquivocationProof` gets to the suite. -/
structure ProofReachesSuite (p : EvmEquivocationProof) : Prop where
  /-- the blocks are different -/
  ne : p.blockHashA ≠ p.blockHashB
  /-- the accused has stake -/
  stake : 0 < stakeOf set p.validator
  /-- set, header and target are well-formed, for the one block -/
  wellFormedA : EvmWellFormed X set p.height p.blockHashA target
  /-- set, header and target are well-formed, for the other block -/
  wellFormedB : EvmWellFormed X set p.height p.blockHashB target

variable {X set suite target}

/-- How the verifiers are built: an input that does not get to the suite is rejected, one
that does gets the answer of the suite's signer. -/
def AnswersBy {β : Type} (X : EvmExternals) (suite : String) (reaches : Prop)
    (rejects : β → Prop) (answer : Except JsError β) : Prop :=
  (¬ reaches ∧ ∃ b, answer = .ok b ∧ rejects b) ∨
    (reaches ∧ ∃ f : SignatureScheme → β,
      answer = (X.signerFor suite >>= fun verifier => .ok (f verifier)))

/-- **When such a verifier returns**, rejecting what is malformed. -/
theorem AnswersBy.returns_iff {β : Type} {reaches wellFormed : Prop} {rejects : β → Prop}
    {answer : Except JsError β} (h : AnswersBy X suite reaches rejects answer)
    (hwf : reaches → wellFormed) :
    (∃ b, answer = .ok b ∧ (¬ (wellFormed ∧ SuiteResolves X suite) → rejects b)) ↔
      (reaches → SuiteResolves X suite) := by
  rcases h with ⟨hnot, b, hb, hrej⟩ | ⟨hreach, f, rfl⟩
  · exact ⟨fun _ h => absurd h hnot, fun _ => ⟨b, hb, fun _ => hrej⟩⟩
  · refine ⟨?_, fun hsuite => ?_⟩
    · rintro ⟨b, hb, -⟩ _
      obtain ⟨verifier, hverifier, -⟩ := Except.bind_eq_ok hb
      exact ⟨verifier, hverifier⟩
    · obtain ⟨verifier, hverifier⟩ := hsuite hreach
      refine ⟨f verifier, Except.bind_ok hverifier rfl, fun hbad => absurd ?_ hbad⟩
      exact ⟨hwf hreach, verifier, hverifier⟩

theorem verifyEvmFinality_answersBy {atts : List EvmSignedAttestation} {height num den : JsNum}
    {hash : String} :
    AnswersBy X suite (FinalityReachesSuite X set target atts height hash num den)
      (·.finalized = false)
      (verifyEvmFinality X set atts suite height hash target num den) := by
  rw [verifyEvmFinality, badThreshold_eq]
  by_cases hthreshold : validThreshold num den = true
  · rw [hthreshold, if_neg (by decide)]
    by_cases hcaps : maxValidators < set.validators.length ∨ maxEvmAttestations < atts.length
    · refine .inl ⟨fun h => ?_, evmFail 0, if_pos hcaps, rfl⟩
      exact hcaps.elim h.validators.not_gt h.attestations.not_gt
    obtain ⟨hvalidators, hatts⟩ := not_or.mp hcaps
    have hreach : FinalityReachesSuite X set target atts height hash num den ↔
        ∃ total r, finalityContext X set suite height hash target = .ok (total, some r) := by
      rw [finalityContext_some_iff]
      exact ⟨fun h => ⟨h.wellFormed, h.stake⟩,
        fun h => ⟨hthreshold, not_lt.mp hvalidators, not_lt.mp hatts, h.2, h.1⟩⟩
    rw [if_neg hcaps, hreach]
    rcases finalityContext X set suite height hash target with e | ⟨total, _ | ⟨msg, stakes⟩⟩
    · refine .inl ⟨?_, evmFail 0, rfl, rfl⟩
      rintro ⟨_, _, h⟩
      cases h
    · refine .inl ⟨?_, evmFail total, rfl, rfl⟩
      rintro ⟨_, _, h⟩
      cases h
    · exact .inr ⟨⟨total, _, rfl⟩, _, rfl⟩
  · refine .inl ⟨fun h => hthreshold h.threshold, evmFail 0, ?_, rfl⟩
    rw [(Bool.not_eq_true _).mp hthreshold]
    rfl

theorem detectEvmEquivocations_answersBy {height : JsNum} {hashA hashB : String}
    {attsA attsB : List EvmSignedAttestation} :
    AnswersBy X suite (DetectionReachesSuite X set target height hashA attsA hashB attsB) (· = [])
      (detectEvmEquivocations X set suite height target hashA attsA hashB attsB) := by
  rw [detectEvmEquivocations]
  by_cases hne : hashA = hashB
  · exact .inl ⟨fun h => h.ne hne, [], if_pos hne, rfl⟩
  rw [if_neg hne]
  by_cases hcaps : maxEvmAttestations < attsA.length ∨ maxEvmAttestations < attsB.length
  · refine .inl ⟨fun h => ?_, [], if_pos hcaps, rfl⟩
    exact hcaps.elim h.attestationsA.not_gt h.attestationsB.not_gt
  obtain ⟨hattsA, hattsB⟩ := not_or.mp hcaps
  have hreach : DetectionReachesSuite X set target height hashA attsA hashB attsB ↔
      ∃ r, equivocationContext X set suite height target hashA hashB = .ok r := by
    rw [equivocationContext_ok_iff]
    exact ⟨fun h => ⟨h.wellFormedA, h.wellFormedB⟩,
      fun h => ⟨hne, not_lt.mp hattsA, not_lt.mp hattsB, h.1, h.2⟩⟩
  rw [if_neg hcaps, hreach]
  rcases equivocationContext X set suite height target hashA hashB with e | ⟨stakes, msgA, msgB⟩
  · refine .inl ⟨?_, [], rfl, rfl⟩
    rintro ⟨_, h⟩
    cases h
  · exact .inr ⟨⟨_, rfl⟩, _, rfl⟩

theorem verifyEvmEquivocationProof_answersBy {p : EvmEquivocationProof} :
    AnswersBy X suite (ProofReachesSuite X set target p) (· = false)
      (verifyEvmEquivocationProof X p set suite target) := by
  rw [verifyEvmEquivocationProof]
  by_cases hne : p.blockHashA = p.blockHashB
  · exact .inl ⟨fun h => h.ne hne, false, if_pos hne, rfl⟩
  have hreach : ProofReachesSuite X set target p ↔
      ∃ r, proofContext X p set suite target = .ok (some r) := by
    rw [proofContext_some_iff]
    exact ⟨fun h => ⟨h.stake, h.wellFormedA, h.wellFormedB⟩, fun h => ⟨hne, h.1, h.2.1, h.2.2⟩⟩
  rw [if_neg hne, hreach]
  rcases proofContext X p set suite target with e | _ | ⟨msgA, msgB⟩
  · refine .inl ⟨?_, false, rfl, rfl⟩
    rintro ⟨_, h⟩
    cases h
  · refine .inl ⟨?_, false, rfl, rfl⟩
    rintro ⟨_, h⟩
    cases h
  · exact .inr ⟨⟨_, rfl⟩, _, rfl⟩

end Returns

/-- **The verifiers return, and reject what is malformed, exactly when the suite has a
signer or they do not get to it.** -/
theorem evm_verifiers_return_iff (X : EvmExternals) (set : ValidatorSet) (suite : String)
    (target : EvmTarget) :
    (∀ atts height hash num den,
      (∃ v, verifyEvmFinality X set atts suite height hash target num den = .ok v ∧
        (¬ (EvmWellFormed X set height hash target ∧ SuiteResolves X suite) →
          v.finalized = false)) ↔
      (FinalityReachesSuite X set target atts height hash num den → SuiteResolves X suite)) ∧
    (∀ height hashA attsA hashB attsB,
      (∃ proofs, detectEvmEquivocations X set suite height target hashA attsA hashB attsB =
          .ok proofs ∧
        (¬ ((EvmWellFormed X set height hashA target ∧ EvmWellFormed X set height hashB target) ∧
          SuiteResolves X suite) → proofs = [])) ↔
      (DetectionReachesSuite X set target height hashA attsA hashB attsB →
        SuiteResolves X suite)) ∧
    (∀ p, (∃ accepted, verifyEvmEquivocationProof X p set suite target = .ok accepted ∧
        (¬ ((EvmWellFormed X set p.height p.blockHashA target ∧
            EvmWellFormed X set p.height p.blockHashB target) ∧ SuiteResolves X suite) →
          accepted = false)) ↔
      (ProofReachesSuite X set target p → SuiteResolves X suite)) := by
  refine ⟨fun atts height hash num den => ?_, fun height hashA attsA hashB attsB => ?_,
    fun p => ?_⟩
  · exact verifyEvmFinality_answersBy.returns_iff fun h => h.wellFormed
  · exact detectEvmEquivocations_answersBy.returns_iff fun h => ⟨h.wellFormedA, h.wellFormedB⟩
  · exact verifyEvmEquivocationProof_answersBy.returns_iff fun h => ⟨h.wellFormedA, h.wellFormedB⟩

/-- **A suite that is not registered makes all three throw.** -/
theorem unknown_suite_throws :
    verifyEvmFinality spellExternals trioSet [] "PS-9" 4 (trioHash 8) trioTarget 2 3 =
      .error (unknownSuiteError "PS-9") ∧
    detectEvmEquivocations spellExternals trioSet "PS-9" 4 trioTarget (trioHash 8) []
      (trioHash 9) [] = .error (unknownSuiteError "PS-9") ∧
    verifyEvmEquivocationProof spellExternals ⟨"00", 4, trioHash 8, trioHash 9, [], []⟩ trioSet
      "PS-9" trioTarget = .error (unknownSuiteError "PS-9") := by
  decide +kernel

end Nerion
