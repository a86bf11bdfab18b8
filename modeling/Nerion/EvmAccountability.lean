import Nerion.EvmProfile

/-!
# Accountability of the EVM profile

Two conflicting blocks that are both final for the profile expose the validators that
signed both. The counting loop and the two loops of the detection keep different books,
but all of them come to the same validators: those with stake and a valid signature
somewhere in the list (`evmSigners`).

* `detectEvmEquivocations_spec` — the detection names the validators counted on both
  sides, each once, with valid signatures;
* `evm_accountable_safety` — they hold a third of the stake, and every proof is accepted.
-/

namespace Nerion

section Detection

variable {X : EvmExternals} {set : ValidatorSet} {suite hashA hashB : String} {height : JsNum}
  {target : EvmTarget} {msgA msgB : Bytes} {verifier : SignatureScheme}

/-- The signatures collected from a list are those of the validators counted, and valid. -/
theorem validSigs_memberStakes {ms : List CanonMember} (h : canonicalMembers X set = .ok ms)
    (msg : Bytes) (atts : List EvmSignedAttestation) {validA : JsMap String Bytes}
    (hvalid : validSigs (memberStakes ms)
      (fun a => safeEvmVerify X.toExternals a.evmSig msg a.validator verifier) JsMap.empty atts =
        validA) :
    (∀ v, validA.has v = true ↔ v ∈ evmSigners X set verifier msg atts) ∧
      ∀ v sig, validA.get? v = some sig →
        safeEvmVerify X.toExternals sig msg v verifier = true := by
  have hseen : ∀ v, v ∈ ([] : List String) ↔ (JsMap.empty : JsMap String Bytes).has v = true :=
    fun v => iff_of_false List.not_mem_nil Bool.false_ne_true
  have hentries := validSigs_entries (memberStakes ms)
    (fun a => safeEvmVerify X.toExternals a.evmSig msg a.validator verifier) hseen atts
  rw [hvalid] at hentries
  simp only [get?_memberStakes h] at hentries
  constructor
  · intro v
    rw [JsMap.has, ← JsMap.mem_keys_iff, JsMap.keys, hentries, evmSigners, List.map_append,
      List.map_map]
    rfl
  · intro v sig hsig
    rw [← JsMap.mem_entries_iff, hentries] at hsig
    rcases List.mem_append.mp hsig with hmem | hmem
    · exact absurd hmem List.not_mem_nil
    obtain ⟨a, ha, heq⟩ := List.mem_map.mp hmem
    obtain ⟨rfl, rfl⟩ := Prod.mk.inj heq
    obtain ⟨-, hok, -⟩ := of_mem_firstValid ha
    exact (Bool.and_eq_true_iff.mp hok).2

/-- What a proof has to hold to be accepted. -/
structure EvmEquivocates (X : EvmExternals) (set : ValidatorSet) (verifier : SignatureScheme)
    (height : JsNum) (hashA hashB : String) (msgA msgB : Bytes) (p : EvmEquivocationProof) :
    Prop where
  /-- it is about the height -/
  height_eq : p.height = height
  /-- it is about the one block -/
  hashA_eq : p.blockHashA = hashA
  /-- it is about the other block -/
  hashB_eq : p.blockHashB = hashB
  /-- the accused has stake -/
  stake : 0 < stakeOf set p.validator
  /-- the accused signed the one message -/
  sigA : safeEvmVerify X.toExternals p.sigA msgA p.validator verifier = true
  /-- the accused signed the other message -/
  sigB : safeEvmVerify X.toExternals p.sigB msgB p.validator verifier = true

/-- **What the detection finds**: the validators counted on both sides. -/
theorem detectEvmEquivocations_spec (hne : hashA ≠ hashB) {attsA attsB : List EvmSignedAttestation}
    (hlenA : attsA.length ≤ maxEvmAttestations) (hlenB : attsB.length ≤ maxEvmAttestations)
    (hA : evmMessageOf X set suite height hashA target = .ok msgA)
    (hB : evmMessageOf X set suite height hashB target = .ok msgB)
    (hsigner : X.signerFor suite = .ok verifier) :
    ∃ proofs, detectEvmEquivocations X set suite height target hashA attsA hashB attsB =
        .ok proofs ∧ (proofs.map (·.validator)).Nodup ∧
      (∀ v, v ∈ proofs.map (·.validator) ↔
        v ∈ evmSigners X set verifier msgA attsA ∧ v ∈ evmSigners X set verifier msgB attsB) ∧
      ∀ p ∈ proofs, EvmEquivocates X set verifier height hashA hashB msgA msgB p := by
  obtain ⟨ms, hms⟩ := members_of_message hA
  rw [detectEvmEquivocations, if_neg hne, if_neg (not_or.mpr ⟨hlenA.not_gt, hlenB.not_gt⟩),
    equivocationContext_eq_ok.mpr ⟨ms, msgA, msgB, hms, hA, hB, rfl⟩]
  refine ⟨_, Except.bind_ok hsigner rfl, ?_⟩
  generalize hvalid : validSigs _ _ JsMap.empty attsA = validA
  obtain ⟨hhas, hget⟩ := validSigs_memberStakes hms msgA attsA hvalid
  rw [equivocationsFrom_eq, List.map_map]
  refine ⟨nodup_map_firstValid _ _ _ _, fun v => ?_, fun p hp => ?_⟩
  · have hsignedB : v ∈ evmSigners X set verifier msgB attsB ↔ _ := mem_evmSigners
    refine mem_map_firstValid.trans ?_
    rw [hsignedB, ← hhas]
    constructor
    · rintro ⟨-, b, hb, rfl, hok⟩
      obtain ⟨hA', hsig⟩ := Bool.and_eq_true_iff.mp hok
      exact ⟨hA', (mem_evmSigners.mp ((hhas _).mp hA')).1, b, hb, rfl, hsig⟩
    · rintro ⟨hA', -, b, hb, rfl, hsig⟩
      exact ⟨List.not_mem_nil, b, hb, rfl, Bool.and_eq_true_iff.mpr ⟨hA', hsig⟩⟩
  · obtain ⟨b, hb, rfl⟩ := List.mem_map.mp hp
    obtain ⟨-, hok, -⟩ := of_mem_firstValid hb
    obtain ⟨hA', hsig⟩ := Bool.and_eq_true_iff.mp hok
    obtain ⟨sig, hsigA⟩ := Option.isSome_iff_exists.mp hA'
    refine ⟨rfl, rfl, rfl, (mem_evmSigners.mp ((hhas _).mp hA')).1, ?_, hsig⟩
    dsimp only
    rw [hsigA]
    exact hget _ _ hsigA

/-- **The proofs accepted** are those that hold what they have to. -/
theorem verifyEvmEquivocationProof_eq_true_iff {p : EvmEquivocationProof} :
    verifyEvmEquivocationProof X p set suite target = .ok true ↔ p.blockHashA ≠ p.blockHashB ∧
      ∃ msgA msgB verifier, evmMessageOf X set suite p.height p.blockHashA target = .ok msgA ∧
        evmMessageOf X set suite p.height p.blockHashB target = .ok msgB ∧
        X.signerFor suite = .ok verifier ∧
        EvmEquivocates X set verifier p.height p.blockHashA p.blockHashB msgA msgB p := by
  rw [verifyEvmEquivocationProof]
  refine ⟨fun h => ?_, ?_⟩
  · split at h
    · cases h
    rename_i hne
    split at h
    · cases h
    · cases h
    rename_i msgA msgB hctx
    obtain ⟨verifier, hsigner, h⟩ := Except.bind_eq_ok h
    obtain ⟨hA, hB⟩ := Bool.and_eq_true_iff.mp (Except.ok.inj h)
    obtain ⟨hstake, stakes, hctx⟩ := proofContext_eq_some.mp hctx
    obtain ⟨ms, msgA', msgB', hms, hmsgA, hmsgB, heq⟩ := equivocationContext_eq_ok.mp hctx
    obtain ⟨-, rfl, rfl⟩ : _ ∧ msgA = msgA' ∧ msgB = msgB' := by simpa using heq
    exact ⟨hne, msgA, msgB, verifier, hmsgA, hmsgB, hsigner, rfl, rfl, rfl, hstake, hA, hB⟩
  · rintro ⟨hne, msgA, msgB, verifier, hmsgA, hmsgB, hsigner, hp⟩
    obtain ⟨ms, hms⟩ := members_of_message hmsgA
    have hctx : proofContext X p set suite target = .ok (some (msgA, msgB)) :=
      proofContext_eq_some.mpr ⟨hp.stake, memberStakes ms,
        equivocationContext_eq_ok.mpr ⟨ms, msgA, msgB, hms, hmsgA, hmsgB, rfl⟩⟩
    rw [if_neg hne, hctx]
    refine Except.bind_ok hsigner ?_
    rw [hp.sigA, hp.sigB]
    rfl

end Detection

/-! ## Quorums -/

/-- The validators counted for a finalized verdict are a weighted quorum. -/
theorem EvmFinalizes.isQuorum {X : EvmExternals} {set : ValidatorSet}
    {atts : List EvmSignedAttestation} {suite hash : String} {height num den : JsNum}
    {target : EvmTarget} {msg : Bytes} {verifier : SignatureScheme}
    (h : EvmFinalizes X set atts suite height hash target num den msg verifier) :
    IsQuorum (stakeOf set) set.pubkeys num.toInt den.toInt
      (evmSigners X set verifier msg atts).toFinset := by
  obtain ⟨ms, hms⟩ := members_of_message h.message
  constructor
  · intro v hv
    have hstake := (mem_evmSigners.mp (List.mem_toFinset.mp hv)).1
    exact List.mem_toFinset.mpr (mem_of_stakeOf_pos hstake)
  · rw [ValidatorSet.sum_stakeOf (nodup_pubkeys hms), List.sum_toFinset _ nodup_evmSigners,
      mul_comm den.toInt]
    exact h.met

/-- **Accountable safety across chains.** When two different blocks of one height are both
final for the profile, the detection names distinct validators, each with a proof that is
accepted, and together they hold at least a third of the stake. -/
theorem evm_accountable_safety {X : EvmExternals} {set : ValidatorSet} {suite A B : String}
    {height : JsNum} {target : EvmTarget} {attsA attsB : List EvmSignedAttestation}
    {vA vB : EvmFinalityVerdict} (hne : A ≠ B)
    (hA : verifyEvmFinality X set attsA suite height A target 2 3 = .ok vA)
    (hfinA : vA.finalized = true)
    (hB : verifyEvmFinality X set attsB suite height B target 2 3 = .ok vB)
    (hfinB : vB.finalized = true) :
    ∃ proofs, detectEvmEquivocations X set suite height target A attsA B attsB = .ok proofs ∧
      (proofs.map (·.validator)).Nodup ∧
      (∀ p ∈ proofs, verifyEvmEquivocationProof X p set suite target = .ok true) ∧
      totalStake set ≤ 3 * (proofs.map fun p => stakeOf set p.validator).sum := by
  obtain ⟨msgA, verifier, hfA, -⟩ := verifyEvmFinality_finalized_iff.mp ⟨hA, hfinA⟩
  obtain ⟨msgB, verifier', hfB, -⟩ := verifyEvmFinality_finalized_iff.mp ⟨hB, hfinB⟩
  obtain rfl := Except.ok.inj (hfA.signer.symm.trans hfB.signer)
  obtain ⟨proofs, hdetect, hnodup, hnames, hproofs⟩ := detectEvmEquivocations_spec hne
    hfA.attestations hfB.attestations hfA.message hfB.message hfA.signer
  refine ⟨proofs, hdetect, hnodup, fun p hp => ?_, ?_⟩
  · have he := hproofs p hp
    obtain rfl := he.height_eq
    obtain rfl := he.hashA_eq
    obtain rfl := he.hashB_eq
    exact verifyEvmEquivocationProof_eq_true_iff.mpr
      ⟨hne, msgA, msgB, verifier, hfA.message, hfB.message, hfA.signer, he⟩
  · -- the validators named are the intersection of the two quorums
    have hinter : (proofs.map (·.validator)).toFinset =
        (evmSigners X set verifier msgA attsA).toFinset ∩
          (evmSigners X set verifier msgB attsB).toFinset := by
      ext v
      rw [List.mem_toFinset, hnames, Finset.mem_inter, List.mem_toFinset, List.mem_toFinset]
    obtain ⟨ms, hms⟩ := members_of_message hfA.message
    have hweight := hfA.isQuorum.inter_weight (stakeOf_nonneg set) (by decide) hfB.isQuorum
    rw [← hinter, List.sum_toFinset _ hnodup, List.map_map,
      ValidatorSet.sum_stakeOf (nodup_pubkeys hms)] at hweight
    have htwo : (2 : JsNum).toInt = 2 := rfl
    have hthree : (3 : JsNum).toInt = 3 := rfl
    rw [htwo, hthree] at hweight
    exact (le_of_eq (by ring)).trans hweight

/-- `evm_accountable_safety` on three validators, of which one signs both blocks. A list
that also has an entry without signature for it makes no difference. -/
theorem evm_accountable_safety_trio :
    ∃ proofs, detectEvmEquivocations spellExternals trioSet "PS-5" 4 trioTarget (trioHash 8)
        [trioAttestation 0 8, trioAttestation 1 8] (trioHash 9)
        [⟨"01", []⟩, trioAttestation 1 9, trioAttestation 2 9] = .ok proofs ∧
      (proofs.map (·.validator)).Nodup ∧
      (∀ p ∈ proofs, verifyEvmEquivocationProof spellExternals p trioSet "PS-5" trioTarget =
        .ok true) ∧
      totalStake trioSet ≤ 3 * (proofs.map fun p => stakeOf trioSet p.validator).sum := by
  have hA : verifyEvmFinality spellExternals trioSet [trioAttestation 0 8, trioAttestation 1 8]
      "PS-5" 4 (trioHash 8) trioTarget 2 3 = .ok ⟨true, 2, 3⟩ := by decide +kernel
  have hB : verifyEvmFinality spellExternals trioSet
      [⟨"01", []⟩, trioAttestation 1 9, trioAttestation 2 9] "PS-5" 4 (trioHash 9) trioTarget 2 3 =
        .ok ⟨true, 2, 3⟩ := by decide +kernel
  exact evm_accountable_safety (by decide +kernel) hA rfl hB rfl

end Nerion
