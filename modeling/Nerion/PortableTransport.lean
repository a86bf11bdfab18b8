import Nerion.PortableJson

/-!
# Portable proofs after transport (`ledger/src/portable.ts`, `ledger/src/chain.ts`)

The verifier runs on what JSON brought, a number or a `null` in each numeric field.

* `verifyFinalized_revived` — it agrees with the verifier of the proof that was sent when the
  numbers of the header are finite;
* `Separates.finite_of_finalizes` — the proposer has signed one header, so the block that comes
  back is not finalized when JSON has changed the header;
* `transport_finalized_iff` — **a finalized proof stays finalized exactly when its height, its clock
  and the epoch that is compared are finite**;
* `clock_lost` — a clock that is not finite loses the proof.
-/

namespace Nerion

/-! ## The verifier agrees with itself -/

section Agreement

variable {x y : JsNum}

theorem revivedNumber_of_isFinite (hx : x.isFinite = true) : revivedNumber x = some x := by
  cases x with
  | fin q => rfl
  | _ => cases hx

/-- A number that is encoded as before is finite. -/
theorem isFinite_of_cbor_revivedNumber
    (h : WireNumber.cbor (revivedNumber x) = WireNumber.cbor x) : x.isFinite = true := by
  cases x with
  | fin q => rfl
  | _ => cases h

/-- A number that JSON lost equals no finite number, and neither did it before. -/
theorem strictEq_revivedNumber (hy : y.isFinite = true) :
    WireNumber.strictEq (revivedNumber x) (revivedNumber y) = JsNum.strictEq x y := by
  rw [revivedNumber_of_isFinite hy]
  cases x with
  | fin q => rfl
  | _ =>
    cases y with
    | fin q => rfl
    | _ => cases hy

theorem strictEq_toNum_revivedNumber (hy : y.isFinite = true) :
    JsNum.strictEq (WireNumber.toNum (revivedNumber x)) y = JsNum.strictEq x y := by
  cases x with
  | fin q => rfl
  | _ =>
    cases y with
    | fin q => rfl
    | _ => cases hy

theorem toNum_revivedNumber (hx : x.isFinite = true) :
    WireNumber.toNum (revivedNumber x) = x := by
  rw [revivedNumber_of_isFinite hx]
  rfl

theorem isFinite_of_isSafeInteger (hx : x.isSafeInteger = true) : x.isFinite = true := by
  cases x with
  | fin q => rfl
  | _ => cases hx

variable {X : LedgerExternals} {block : Block} {set : ValidatorSet} {expectedPrev : String}
  {finalityNum finalityDen : JsNum} {opts : VerifyOpts} {h setId : String}

/-- The numbers of a header are finite. -/
structure FiniteHeader (h : BlockHeader) : Prop where
  height : h.height.isFinite = true
  round : h.round.isFinite = true
  /-- its clock -/
  timestamp : h.timestamp.isFinite = true

theorem blockHash_revived {h : BlockHeader} (hf : FiniteHeader h) :
    blockHash X h.revived = blockHash X h := by
  rw [blockHash, headerBytes, BlockHeader.revived, revivedNumber_of_isFinite hf.height,
    revivedNumber_of_isFinite hf.round, revivedNumber_of_isFinite hf.timestamp]
  rfl

theorem headerReasons_revived (hf : FiniteHeader block.header) :
    headerReasons block.revived expectedPrev opts = headerReasons block expectedPrev opts := by
  rw [headerReasons, Block.revived, BlockHeader.revived, toNum_revivedNumber hf.height,
    toNum_revivedNumber hf.round]
  rfl

theorem verifyViewChangeCert_revived {suite prevHash : String} {height certRound : JsNum}
    {cert : Option ViewChangeCert} (hheight : height.isFinite = true) :
    verifyViewChangeCert X set suite (revivedNumber height) prevHash certRound
        (cert.map ViewChangeCert.revived) finalityNum finalityDen =
      verifyViewChangeCert X set suite height prevHash certRound cert finalityNum finalityDen := by
  cases cert with
  | none => rfl
  | some cert =>
    rw [Option.map_some, verifyViewChangeCert, verifyViewChangeCert]
    split
    · rfl
    rename_i hround
    have hsafe : certRound.isFinite = true := by
      refine isFinite_of_isSafeInteger ?_
      by_contra hne
      exact hround (.inl (Bool.eq_false_iff.mpr hne))
    have hrelevant : (fun v : TimeoutVote NumOrNull => decide (v.suite = suite) &&
        WireNumber.strictEq v.height (revivedNumber height) && decide (v.prevHash = prevHash) &&
          JsNum.strictEq (WireNumber.toNum v.round) certRound) ∘ TimeoutVote.revived =
        fun v => decide (v.suite = suite) && JsNum.strictEq v.height height &&
          decide (v.prevHash = prevHash) && JsNum.strictEq v.round certRound := by
      funext v
      simp only [Function.comp_apply, TimeoutVote.revived, strictEq_revivedNumber hheight,
        strictEq_toNum_revivedNumber hsafe]
      rfl
    simp only [ViewChangeCert.revived, strictEq_toNum_revivedNumber hsafe, List.length_map,
      tally_map, hrelevant]
    simp only [viewChangeMessage, revivedNumber_of_isFinite hheight]
    rfl

theorem leaderReasons_revived (hheight : block.header.height.isFinite = true)
    (hround : block.header.round.isFinite = true) :
    leaderReasons X block.revived set expectedPrev finalityNum finalityDen =
      leaderReasons X block set expectedPrev finalityNum finalityDen := by
  have hcert : viewChangeReasons X block.revived set expectedPrev finalityNum finalityDen =
      viewChangeReasons X block set expectedPrev finalityNum finalityDen := by
    simp only [viewChangeReasons, Block.revived, BlockHeader.revived, toNum_revivedNumber hround,
      verifyViewChangeCert_revived hheight]
    rfl
  have halpha : vrfAlpha X expectedPrev block.revived.header.round =
      vrfAlpha X expectedPrev block.header.round := by
    rw [vrfAlpha, Block.revived, BlockHeader.revived, revivedNumber_of_isFinite hround]
    rfl
  have hdraw : ∀ vrfProof, drawReasons X block.revived vrfProof set expectedPrev =
      drawReasons X block vrfProof set expectedPrev := by
    intro vrfProof
    rw [drawReasons, halpha]
    rfl
  have hselect : selectLeader X set expectedPrev block.revived.header.round =
      selectLeader X set expectedPrev block.header.round := by
    rw [selectLeader, Block.revived, BlockHeader.revived, revivedNumber_of_isFinite hround]
    rfl
  have hback : WireNumber.toNum block.revived.header.round = block.header.round :=
    toNum_revivedNumber hround
  simp only [leaderReasons, hcert, hdraw, hselect, hback]
  rfl

theorem tallyAttestations_revived {attestations : List Attestation}
    (hheight : block.header.height.isFinite = true) :
    tallyAttestations X block.revived h setId set opts (attestations.map Attestation.revived) =
      tallyAttestations X block h setId set opts attestations := by
  have hattests : attests block.revived h opts ∘ Attestation.revived = attests block h opts := by
    funext a
    simp only [Function.comp_apply, attests, Block.revived, BlockHeader.revived,
      Attestation.revived, strictEq_revivedNumber hheight]
    rfl
  have hcheck : checkAttestation X block.revived h setId ∘ Attestation.revived =
      checkAttestation X block h setId := by
    funext a
    simp only [Function.comp_apply, checkAttestation, attestMessage, Block.revived,
      BlockHeader.revived, revivedNumber_of_isFinite hheight]
    rfl
  rw [tallyAttestations, tally_map, hattests, hcheck]
  rfl

/-- **The verifier agrees with itself across transport** when the numbers of the header are finite,
whatever the numbers of attestations and votes. -/
theorem verifyFinalized_revived {attestations : List Attestation}
    (hf : FiniteHeader block.header) :
    verifyFinalized X block.revived (attestations.map Attestation.revived) set expectedPrev
        finalityNum finalityDen opts =
      verifyFinalized X block attestations set expectedPrev finalityNum finalityDen opts := by
  have hhash : blockHash X block.revived.header = blockHash X block.header := blockHash_revived hf
  simp only [verifyFinalized, hhash, List.length_map, leaderReasons_revived hf.height hf.round,
    tallyAttestations_revived hf.height, headerReasons_revived hf]
  rfl

/-- A block that no attestation names by its hash is not finalized. -/
theorem verifyFinalized_unattested {N : Type} [WireNumber N] {block : Block N}
    {attestations : List (Attestation N)} {leader proposer : List String}
    (hhash : blockHash X block.header = .ok h) (hset : consensusSetId X set = .ok setId)
    (hleader : leaderReasons X block set expectedPrev finalityNum finalityDen = .ok leader)
    (hproposer : proposerReasons X block h = .ok proposer)
    (hnone : ∀ a ∈ attestations, a.blockHash ≠ h) :
    ∃ v, verifyFinalized X block attestations set expectedPrev finalityNum finalityDen opts =
        .ok v ∧ v.finalized = false := by
  by_cases hbound : maxAttestations set < attestations.length
  · exact ⟨_, Except.bind_ok hhash (if_pos hbound), rfl⟩
  have htally : tallyAttestations X block h setId set opts attestations = .ok Tally.zero := by
    refine tally_of_irrelevant fun a ha => ?_
    simp [attests, hnone a ha]
  refine ⟨_, Except.bind_ok hhash ((if_neg hbound).trans (Except.bind_ok hset
    (Except.bind_ok hleader (Except.bind_ok hproposer (Except.bind_ok htally rfl))))), ?_⟩
  rw [Bool.eq_false_iff]
  intro hfin
  obtain ⟨hvalid, -, hstake, hmet⟩ := stakeMet_iff.mp (finalityVerdict_finalized_iff.mp hfin).2
  obtain ⟨n, d, rfl, rfl, hn, -⟩ := exists_natCast_of_validThreshold hvalid
  rw [JsNum.toInt_natCast, JsNum.toInt_natCast] at hmet
  have hpos : 0 < (n : ℤ) * totalStake set := mul_pos (by exact_mod_cast hn) hstake
  exact absurd hmet (not_le.mpr (by simpa [Tally.zero] using hpos))

end Agreement

/-! ## Finalized proofs after transport -/

section Finalized

variable {X : LedgerExternals} {proof : PortableFinalityProof} {trustedSet : ValidatorSet}
  {expect : VerifyOpts} {v : LightClientVerdict}

/-- The epochs of a finalized proof do not differ. -/
theorem epochMismatch_of_finalized {N : Type} [WireNumber N] {proof : PortableFinalityProof N}
    (hv : verifyPortableFinality X proof trustedSet expect = .ok v) (hfin : v.finalized = true) :
    epochMismatch proof trustedSet = none ∧
      verifyFinalized X proof.block proof.attestations trustedSet proof.expectedPrev
        (WireNumber.toNum proof.finalityNum) (WireNumber.toNum proof.finalityDen) expect =
          .ok v := by
  rw [verifyPortableFinality] at hv
  split at hv
  · cases hv
    cases hfin
  · exact ⟨‹_›, hv⟩

/-- The round of a finalized block is finite. -/
theorem Finalizes.finite_round {block : Block} {attestations : List Attestation}
    {set : ValidatorSet} {expectedPrev : String} {finalityNum finalityDen : JsNum}
    {opts : VerifyOpts} {h setId : String} {t : Tally}
    (hf : Finalizes X block attestations set expectedPrev finalityNum finalityDen opts h setId t) :
    block.header.round.isFinite = true := by
  have hheader := hf.header
  rw [headerReasons, List.append_eq_nil_iff, reasonIf_eq_nil, Bool.or_eq_false_iff] at hheader
  refine isFinite_of_isSafeInteger ?_
  simpa using hheader.2.1

/-- JSON keeps the numbers that a finalized verdict rests on. Round and fraction are finite since
the proof is finalized; other numbers do not matter. -/
structure JsonKeeps (proof : PortableFinalityProof) (trustedSet : ValidatorSet) : Prop where
  height : proof.block.header.height.isFinite = true
  /-- the clock -/
  timestamp : proof.block.header.timestamp.isFinite = true
  /-- the epoch, if it is compared -/
  epoch : (∀ e, proof.epoch = some e → e.isFinite = true) ∨ trustedSet.epoch = none

/-- The epochs agree after transport when they did before and that of the proof is kept. -/
theorem epochMismatch_revived_iff (hmatch : epochMismatch proof trustedSet = none) :
    epochMismatch proof.revived trustedSet = none ↔
      (∀ e, proof.epoch = some e → e.isFinite = true) ∨ trustedSet.epoch = none := by
  rw [epochMismatch] at hmatch
  rw [epochMismatch, PortableFinalityProof.revived]
  rcases hproof : proof.epoch with _ | e
  · simp
  rcases hset : trustedSet.epoch with _ | e'
  · simp
  rw [hproof, hset] at hmatch
  simp only [Option.map_some, Option.some.injEq, forall_eq', reduceCtorEq, or_false] at hmatch ⊢
  split at hmatch
  · rename_i heq
    obtain ⟨-, rfl⟩ := JsNum.strictEq_iff.mp heq
    cases e with
    | fin q => exact iff_of_true (if_pos heq) rfl
    | _ =>
      refine iff_of_false ?_ (by decide)
      simp [revivedNumber, WireNumber.toNum, JsNum.strictEq]
  · cases hmatch

/-- A finalized proof keeps its verdict when JSON keeps its numbers. -/
theorem verifyPortableFinality_revived
    (hv : verifyPortableFinality X proof trustedSet expect = .ok v) (hfin : v.finalized = true)
    (hkeeps : JsonKeeps proof trustedSet) :
    verifyPortableFinality X proof.revived trustedSet expect = .ok v := by
  obtain ⟨hmatch, hv'⟩ := epochMismatch_of_finalized hv hfin
  obtain ⟨h, setId, t, hf⟩ := finalizes_of_portable hv hfin
  obtain ⟨n, d, hnum, hden, -⟩ := exists_natCast_of_validThreshold hf.threshold
  have hnumBack : WireNumber.toNum proof.revived.finalityNum = proof.finalityNum := by
    rw [PortableFinalityProof.revived, hnum]
    rfl
  have hdenBack : WireNumber.toNum proof.revived.finalityDen = proof.finalityDen := by
    rw [PortableFinalityProof.revived, hden]
    rfl
  rw [verifyPortableFinality, (epochMismatch_revived_iff hmatch).mpr hkeeps.epoch, hnumBack,
    hdenBack]
  exact (verifyFinalized_revived ⟨hkeeps.height, hf.finite_round, hkeeps.timestamp⟩).trans hv'

/-- What keeps a header apart from the one that JSON makes of it, and what is signed for the one
from what is signed for the other. -/
structure Separates (X : LedgerExternals) (block : Block) : Prop where
  /-- the encoder writes `null` otherwise than a number -/
  nulls : ∀ b, headerBytes X block.header = .ok b → headerBytes X block.header.revived = .ok b →
    WireNumber.cbor (revivedNumber block.header.height) = WireNumber.cbor block.header.height ∧
      WireNumber.cbor (revivedNumber block.header.timestamp) =
        WireNumber.cbor block.header.timestamp
  /-- the hash has no collision on the two headers -/
  digests : ∀ b b', headerBytes X block.header = .ok b →
    headerBytes X block.header.revived = .ok b' → X.digest b = X.digest b' → b = b'
  /-- the hex texts do not collide -/
  hex : Function.Injective X.bytesToHex
  /-- the messages for the two hashes differ if these do, and the proposer's signature verifies one
  of them at most -/
  signature : ∀ h h' m m', blockHash X block.header = .ok h →
    blockHash X block.header.revived = .ok h' → blockSignMessage X block.suite h = .ok m →
    blockSignMessage X block.suite h' = .ok m' →
    safeVerify X block.suite block.proposerSig m (hexToBytesLocal block.header.proposer) = true →
    safeVerify X block.suite block.proposerSig m' (hexToBytesLocal block.header.proposer) = true →
    h = h'

/-- A block whose proposer's signature passes, and the message that was signed. -/
theorem exists_signed_of_proposerReasons {N : Type} [WireNumber N] {block : Block N} {h : String}
    (hp : proposerReasons X block h = .ok []) : ∃ m, blockSignMessage X block.suite h = .ok m ∧
      safeVerify X block.suite block.proposerSig m (hexToBytesLocal block.header.proposer) =
        true := by
  obtain ⟨m, hm, hp⟩ := Except.bind_eq_ok hp
  refine ⟨m, hm, ?_⟩
  have hvalid := reasonIf_eq_nil.mp (Except.ok.inj hp)
  rwa [Bool.not_eq_false'] at hvalid

/-- **The proposer signed one header**: if a block is finalized before and after transport, JSON
has kept its height and its clock. -/
theorem Separates.finite_of_finalizes {block : Block} {attestations : List Attestation}
    {attestations' : List (Attestation NumOrNull)} {prev : String} {num den num' den' : JsNum}
    {h h' setId setId' : String} {t t' : Tally} (hX : Separates X block)
    (hf : Finalizes X block attestations trustedSet prev num den expect h setId t)
    (hf' : Finalizes X block.revived attestations' trustedSet prev num' den' expect h' setId' t') :
    block.header.height.isFinite = true ∧ block.header.timestamp.isFinite = true := by
  obtain ⟨m, hm, hsig⟩ := exists_signed_of_proposerReasons hf.proposer
  obtain ⟨m', hm', hsig'⟩ := exists_signed_of_proposerReasons hf'.proposer
  obtain rfl := hX.signature h h' m m' hf.hash hf'.hash hm hm' hsig hsig'
  obtain ⟨b, hb, htext⟩ := Except.bind_eq_ok hf.hash
  obtain ⟨b', hb', htext'⟩ := Except.bind_eq_ok hf'.hash
  have hdigest := hX.hex ((Except.ok.inj htext).trans (Except.ok.inj htext').symm)
  obtain rfl := hX.digests b b' hb hb' hdigest
  obtain ⟨hheight, htime⟩ := hX.nulls b hb hb'
  exact ⟨isFinite_of_cbor_revivedNumber hheight, isFinite_of_cbor_revivedNumber htime⟩

/-- **Finalized proofs survive transport exactly when JSON keeps the height, the clock and the
epoch that is compared.** The proof that comes back then has the same verdict. -/
theorem transport_finalized_iff (H : HexCodec X.toExternals) {isBuffer : Bytes → Bool}
    (hplain : ∀ b ∈ proof.byteStrings, isBuffer b = false)
    (hnumbers : ∀ x ∈ (proof.toJson isBuffer).numbers, x.IsDouble)
    (hX : Separates X proof.block)
    (hv : verifyPortableFinality X proof trustedSet expect = .ok v) (hfin : v.finalized = true) :
    ∃ w q, deserializeFinalityProof X.toExternals
        (serializeFinalityProof X.toExternals isBuffer proof) = .ok w ∧
      PortableFinalityProof.ofJson w = some q ∧
      ((∃ v', verifyPortableFinality X q trustedSet expect = .ok v' ∧ v'.finalized = true) ↔
        JsonKeeps proof trustedSet) ∧
      (JsonKeeps proof trustedSet → verifyPortableFinality X q trustedSet expect = .ok v) := by
  obtain ⟨w, hw, hread⟩ := deserialize_serialize H hplain hnumbers
  refine ⟨w, proof.revived, hw, hread, ⟨?_, fun hkeeps => ?_⟩,
    verifyPortableFinality_revived hv hfin⟩
  · rintro ⟨v', hv', hfin'⟩
    obtain ⟨h, setId, t, hf⟩ := finalizes_of_portable hv hfin
    obtain ⟨hmatch, -⟩ := epochMismatch_of_finalized hv hfin
    obtain ⟨hmatch', hback⟩ := epochMismatch_of_finalized hv' hfin'
    obtain ⟨h', setId', t', hf'⟩ := verifyFinalized_finalized_iff.mp ⟨v', hback, hfin'⟩
    obtain ⟨hheight, htime⟩ := hX.finite_of_finalizes hf hf'
    exact ⟨hheight, htime, (epochMismatch_revived_iff hmatch).mp hmatch'⟩
  · exact ⟨v, verifyPortableFinality_revived hv hfin hkeeps, hfin⟩

end Finalized

/-! ## A clock that is not finite -/

/-- The leader's header, at a time of its choice. -/
def clockHeader (set : ValidatorSet) (timestamp : JsNum) : BlockHeader :=
  { symbolicHeader set "" "" with timestamp := timestamp }

/-- The leader's block. -/
def clockBlock (set : ValidatorSet) (timestamp : JsNum) : Block where
  header := clockHeader set timestamp
  proposerSig := hexToBytesLocal (symbolicLeader set "") ++ valueOr []
    (blockSignMessage symbolicExternals "PS-5" (symbolicHash (clockHeader set timestamp)))
  suite := "PS-5"
  vrfProof := none
  viewChangeCert := none

theorem leaderBlock_clockBlock (set : ValidatorSet) (timestamp : JsNum) :
    LeaderBlock set "" (clockBlock set timestamp) :=
  ⟨nofun, rfl, rfl, rfl, rfl, rfl, rfl⟩

/-- The block of a set where one member holds all the stake, with that member's attestation. -/
def clockProof (timestamp : JsNum) : PortableFinalityProof where
  block := clockBlock (splitSet 1 1) timestamp
  attestations := [symbolicAttestation (splitSet 1 1) (clockBlock (splitSet 1 1) timestamp) "01"]
  expectedPrev := ""
  finalityNum := 1
  finalityDen := 1
  epoch := none

theorem clockProof_finalized (timestamp : JsNum) :
    ∃ v, verifyPortableFinality symbolicExternals (clockProof timestamp) (splitSet 1 1) .none =
        .ok v ∧ v.finalized = true :=
  splitSet_finalized (leaderBlock_clockBlock _ timestamp) le_rfl le_rfl

variable {timestamp : JsNum}

/-- A time that JSON loses gives the block another hash. -/
theorem blockHash_clockHeader {set : ValidatorSet} (ht : timestamp.isFinite = false) :
    ∃ h, blockHash symbolicExternals (clockHeader set timestamp).revived = .ok h ∧
      symbolicHash (clockHeader set timestamp) ≠ h := by
  refine ⟨_, rfl, fun heq => ?_⟩
  have hnull : revivedNumber timestamp = none := by
    cases timestamp with
    | fin q => cases ht
    | _ => rfl
  have hbytes := cborCode_injective (hexText_injective heq)
  simp [clockHeader, BlockHeader.revived, hnull, WireNumber.cbor] at hbytes

/-- Under another hash nothing attests the block. -/
theorem clockProof_lost (ht : timestamp.isFinite = false) :
    ∃ v, verifyPortableFinality symbolicExternals (clockProof timestamp).revived
        (splitSet 1 1) .none = .ok v ∧ v.finalized = false := by
  obtain ⟨h, hhash, hne⟩ := @blockHash_clockHeader timestamp (splitSet 1 1) ht
  obtain ⟨v, hv, hfin⟩ := clockProof_finalized timestamp
  obtain ⟨_, _, _, hf⟩ := finalizes_of_portable hv hfin
  have hleader := (leaderReasons_revived rfl rfl).trans hf.leader
  refine verifyFinalized_unattested hhash rfl hleader rfl fun a ha => ?_
  rw [List.mem_singleton.mp ha]
  exact hne

theorem doubles_clockProof (ht : timestamp.IsDouble) :
    ∀ x ∈ ((clockProof timestamp).toJson noBuffer).numbers, x.IsDouble := by
  have hsmall : ∀ n ≤ 1, JsNum.IsDouble (n : ℕ) := fun n hn =>
    JsNum.isDouble_natCast (hn.trans (by decide))
  have hnumbers : ((clockProof timestamp).toJson noBuffer).numbers =
      [((0 : ℕ) : JsNum), (0 : ℕ), timestamp, (0 : ℕ), (1 : ℕ), (1 : ℕ)] := rfl
  rw [hnumbers]
  simp [ht, hsmall 0 zero_le_one, hsmall 1 le_rfl]

/-- Over the symbolic externals nothing is confused. -/
theorem separates_symbolic (block : Block) (hsuite : block.suite = "PS-5") :
    Separates symbolicExternals block := by
  refine ⟨fun b hb hb' => ?_, fun b b' _ _ hdigest => hdigest, hexText_injective, ?_⟩
  · have hcode := cborCode_injective (Except.ok.inj (hb'.trans hb.symm))
    simp only [Cbor.array.injEq, List.cons.injEq] at hcode
    exact ⟨hcode.2.1, hcode.2.2.2.2.2.2.1⟩
  · intro h h' m m' _ _ hm hm' hsig hsig'
    rw [hsuite, safeVerify_symbolic, decide_eq_true_iff] at hsig hsig'
    obtain rfl := List.append_cancel_left (hsig.symm.trans hsig')
    have hcode := cborCode_injective (Except.ok.inj (hm.trans hm'.symm))
    simp only [Cbor.array.injEq, List.cons.injEq, Cbor.text.injEq] at hcode
    exact hcode.2.2.1

/-- `transport_finalized_iff` at a clock that JSON can write, and at one that it cannot. -/
theorem transport_finalized_clock :
    (∃ w q v, deserializeFinalityProof symbolicExternals.toExternals
        (serializeFinalityProof symbolicExternals.toExternals noBuffer (clockProof 7)) = .ok w ∧
      PortableFinalityProof.ofJson w = some q ∧
      verifyPortableFinality symbolicExternals q (splitSet 1 1) .none = .ok v ∧
      v.finalized = true) ∧
    ∃ w q, deserializeFinalityProof symbolicExternals.toExternals
        (serializeFinalityProof symbolicExternals.toExternals noBuffer (clockProof .nan)) = .ok w ∧
      PortableFinalityProof.ofJson w = some q ∧
      ¬ ∃ v, verifyPortableFinality symbolicExternals q (splitSet 1 1) .none = .ok v ∧
        v.finalized = true := by
  have hplain : ∀ p : PortableFinalityProof, ∀ b ∈ p.byteStrings, noBuffer b = false :=
    fun _ _ _ => rfl
  constructor
  · obtain ⟨v, hv, hfin⟩ := clockProof_finalized 7
    have hdouble : JsNum.IsDouble (7 : ℕ) := JsNum.isDouble_natCast (by decide)
    obtain ⟨w, q, hw, hq, -, hback⟩ := transport_finalized_iff hexCodec_spell (hplain _)
      (doubles_clockProof hdouble) (separates_symbolic _ rfl) hv hfin
    exact ⟨w, q, v, hw, hq, hback ⟨rfl, rfl, .inr rfl⟩, hfin⟩
  · obtain ⟨v, hv, hfin⟩ := clockProof_finalized .nan
    have hdouble : JsNum.IsDouble .nan := trivial
    obtain ⟨w, q, hw, hq, hiff, -⟩ := transport_finalized_iff hexCodec_spell (hplain _)
      (doubles_clockProof hdouble) (separates_symbolic _ rfl) hv hfin
    refine ⟨w, q, hw, hq, fun hback => ?_⟩
    have htime := (hiff.mp hback).timestamp
    cases htime

/-- **A clock that is not finite loses the proof**: it is finalized before it travels, and not
after. -/
theorem clock_lost (ht : timestamp.isFinite = false) :
    (∃ v, verifyPortableFinality symbolicExternals (clockProof timestamp) (splitSet 1 1) .none =
        .ok v ∧ v.finalized = true) ∧
      ∃ w q v, deserializeFinalityProof symbolicExternals.toExternals
          (serializeFinalityProof symbolicExternals.toExternals noBuffer (clockProof timestamp)) =
            .ok w ∧
        PortableFinalityProof.ofJson w = some q ∧
        verifyPortableFinality symbolicExternals q (splitSet 1 1) .none = .ok v ∧
        v.finalized = false := by
  have hdouble : timestamp.IsDouble := by
    cases timestamp with
    | fin q => cases ht
    | _ => trivial
  obtain ⟨w, hw, hread⟩ := deserialize_serialize hexCodec_spell (fun _ _ => rfl)
    (doubles_clockProof hdouble)
  obtain ⟨v, hv, hfin⟩ := clockProof_lost ht
  exact ⟨clockProof_finalized timestamp, w, _, v, hw, hread, hv, hfin⟩

/-- The clock `NaN`. -/
theorem clock_lost_nan :
    (∃ v, verifyPortableFinality symbolicExternals (clockProof .nan) (splitSet 1 1) .none =
        .ok v ∧ v.finalized = true) ∧
      ∃ w q v, deserializeFinalityProof symbolicExternals.toExternals
          (serializeFinalityProof symbolicExternals.toExternals noBuffer (clockProof .nan)) =
            .ok w ∧
        PortableFinalityProof.ofJson w = some q ∧
        verifyPortableFinality symbolicExternals q (splitSet 1 1) .none = .ok v ∧
        v.finalized = false :=
  clock_lost rfl

end Nerion
