import Nerion.MerkleSound
import Nerion.Sdk

/-!
# Replaying an admission (`kernel/src/replay.ts`, `receipts/src/receipt.ts`)

The receipt of an admission commits to the input of the kernel and to its decision. Whoever is
given the bundle of the input can run the kernel again and open the commitments with the salt of
the receipt.

The kernel decides on the input as it is given, the replay on what the decoder reads off the bytes.
The encoder normalises texts, so these need not be the same.

* `replayDecision_iff` — when a bundle replays to an admission;
* `prepare_receipt` — what the receipt of a call was built of;
* `replay_binds` — replays that open one receipt have the same input bytes and the same effect;
* `receipt_replays` — the receipt of an admission opens to the replay of its input, and to no other.
-/

namespace Nerion

namespace NodeExternals

variable {X : NodeExternals}

/-! ## A bundle and its replay -/

/-- The decision of the kernel on an intent names the evaluator of the policy. -/
theorem evaluatorVersion_decide {input : KernelInput} {intent : ActionIntent} {ev : String}
    (hintent : input.intent = some intent) (hev : X.evaluatorVersion input.policy = .ok ev) :
    (X.decide input).evaluatorVersion = ev := by
  rw [Externals.decide, decideWithAuthorizer_eq hintent hev, verdict]
  dsimp only
  split
  · rfl
  split
  · rfl
  split
  · rfl
  · rfl

theorem buildReplayBundle_eq_ok {input : KernelInput} {bundle : ReplayBundle}
    (h : X.buildReplayBundle input = .ok bundle) :
    X.encodeCanonical input.toCbor = .ok bundle.inputBytes ∧
      X.evaluatorVersion input.policy = .ok bundle.evaluatorVersion := by
  obtain ⟨bytes, hbytes, h⟩ := Except.bind_eq_ok h
  obtain ⟨ev, hev, h⟩ := Except.bind_eq_ok h
  obtain rfl := Except.ok.inj h
  exact ⟨hbytes, hev⟩

/-- **When a bundle replays to an admission**: what is read off its bytes is decided so, under the
evaluator that the bundle names. -/
theorem replayDecision_iff {bundle : ReplayBundle} {decision : Decision}
    (hne : decision.effect ≠ .deny) : X.replayDecision bundle = decision ↔
      decision.evaluatorVersion = bundle.evaluatorVersion ∧
      ∃ input, X.decodeCanonical bundle.inputBytes = .ok input ∧ X.decide input = decision := by
  rw [replayDecision]
  constructor
  · intro h
    split at h
    · rename_i input hinput
      dsimp only at h
      split at h
      · exact absurd (h ▸ rfl) hne
      · rename_i hversion
        exact ⟨h ▸ not_not.mp hversion, input, hinput, h⟩
    · exact absurd (h ▸ rfl) hne
  · rintro ⟨hversion, input, hinput, rfl⟩
    rw [hinput]
    exact if_neg (not_not_intro hversion)

/-- What the encoder has written for an input is canonical, if it is read back. -/
theorem decodeCanonical_encoded {input : KernelInput} {bytes : Bytes}
    (hbytes : X.encodeCanonical input.toCbor = .ok bytes)
    (hreads : X.decodeInput bytes = .ok input) : X.decodeCanonical bytes = .ok input := by
  refine Except.bind_ok hreads (Except.bind_ok hbytes ?_)
  rw [if_neg (not_not_intro rfl)]

/-! ## What a receipt commits to -/

/-- What the hash of a decision is taken of. -/
def decisionCbor (decision : Decision) (inputHash : String) : Cbor :=
  .array [.text decision.evaluatorVersion, .text inputHash, decision.toCbor]

/-- What the commitment to a text is taken of. -/
def saltedText (salt : Bytes) (text : String) : Cbor :=
  .map [("d", .text "Nerion/disclosure/salted-commit/v1"), ("salt", .bytes salt),
    ("value", .text text)]

/-- The encoder tells apart what is compared under the commitments of a receipt: hexadecimal texts,
and the effects of decisions. -/
structure EncodesReplays (X : NodeExternals) : Prop where
  /-- decisions with their input -/
  decisions : ∀ d h d' h' b, X.encodeCanonical (decisionCbor d (X.bytesToHex h)) = .ok b →
    X.encodeCanonical (decisionCbor d' (X.bytesToHex h')) = .ok b → d.effect = d'.effect ∧ h = h'
  /-- salted hashes -/
  texts : ∀ salt h h' b, X.encodeCanonical (saltedText salt (X.bytesToHex h)) = .ok b →
    X.encodeCanonical (saltedText salt (X.bytesToHex h')) = .ok b → h = h'

/-- The strings that are hashed when a bundle is replayed against a receipt with this salt. -/
def replayStrings (X : NodeExternals) (salt : Bytes) (bundle : ReplayBundle) (r : ReplayResult) :
    List Bytes :=
  bundle.inputBytes ::
    ((X.encodeCanonical (decisionCbor r.decision r.inputHash)).toOption.toList ++
      (X.encodeCanonical (saltedText salt r.receiptHash)).toOption.toList)

/-- The replay opens the commitments of the receipt. -/
structure Opens (X : NodeExternals) (receipt : Receipt) (r : ReplayResult) : Prop where
  input : X.verifyDisclosure receipt.body.commitments.inputHash (.text r.inputHash)
    (some receipt.intentSalt) = .ok true
  /-- the opening of the decision -/
  decision : X.verifyDisclosure receipt.body.commitments.decisionHash (.text r.receiptHash)
    (some receipt.intentSalt) = .ok true

end NodeExternals

theorem Effect.text_injective : Function.Injective Effect.text := by
  intro a b h
  cases a <;> cases b <;> first | rfl | exact absurd h (by decide)

namespace NodeExternals

variable {X : NodeExternals}

theorem replay_eq_ok {bundle : ReplayBundle} {r : ReplayResult} (h : X.replay bundle = .ok r) :
    r.decision = X.replayDecision bundle ∧ r.inputHash = X.bytesToHex (X.digest bundle.inputBytes) ∧
      ∃ bytes, X.encodeCanonical (decisionCbor r.decision r.inputHash) = .ok bytes ∧
        r.receiptHash = X.bytesToHex (X.digest bytes) := by
  obtain ⟨bytes, hbytes, rfl⟩ := Except.map_eq_ok h
  exact ⟨rfl, rfl, bytes, hbytes, rfl⟩

/-- A text opens a commitment when it hashes to it. -/
theorem verifyDisclosure_text {hash text : String} {salt : Bytes} :
    X.verifyDisclosure hash (.text text) (some salt) = .ok true ↔
      ∃ bytes, X.encodeCanonical (saltedText salt text) = .ok bytes ∧
        hash = X.bytesToHex (X.digest bytes) := by
  constructor
  · intro h
    obtain ⟨commitment, hcommitment, heq⟩ := Except.map_eq_ok h
    obtain ⟨bytes, hbytes, rfl⟩ := Except.map_eq_ok hcommitment
    exact ⟨bytes, hbytes, (beq_iff_eq.mp heq).symm⟩
  · rintro ⟨bytes, hbytes, rfl⟩
    change ((X.encodeCanonical (saltedText salt text)).map _).map _ = .ok true
    rw [hbytes]
    exact congrArg Except.ok (beq_iff_eq.mpr rfl)

theorem mem_replayStrings {salt : Bytes} (bundle : ReplayBundle) {r : ReplayResult} {b b' : Bytes}
    (hdecision : X.encodeCanonical (decisionCbor r.decision r.inputHash) = .ok b)
    (htext : X.encodeCanonical (saltedText salt r.receiptHash) = .ok b') :
    bundle.inputBytes ∈ X.replayStrings salt bundle r ∧ b ∈ X.replayStrings salt bundle r ∧
      b' ∈ X.replayStrings salt bundle r := by
  simp [replayStrings, hdecision, htext, Except.toOption]

variable {receipt : Receipt}

/-- **One hash, one input.** Bundles whose replays open the decision of one receipt have the same
input, and replay to the same effect. -/
theorem replay_binds (hhex : Function.Injective X.bytesToHex) (hencode : X.EncodesReplays)
    {bundle bundle' : ReplayBundle} {r r' : ReplayResult}
    (hc : CollisionFree X.digest (X.replayStrings receipt.intentSalt bundle r ++
      X.replayStrings receipt.intentSalt bundle' r')) (h : X.replay bundle = .ok r)
    (h' : X.replay bundle' = .ok r')
    (hopens : X.verifyDisclosure receipt.body.commitments.decisionHash (.text r.receiptHash)
      (some receipt.intentSalt) = .ok true)
    (hopens' : X.verifyDisclosure receipt.body.commitments.decisionHash (.text r'.receiptHash)
      (some receipt.intentSalt) = .ok true) :
    r'.decision.effect = r.decision.effect ∧ bundle'.inputBytes = bundle.inputBytes := by
  obtain ⟨-, hinput, bytes, hbytes, hhash⟩ := replay_eq_ok h
  obtain ⟨-, hinput', bytes', hbytes', hhash'⟩ := replay_eq_ok h'
  obtain ⟨text, htext, hcommit⟩ := verifyDisclosure_text.mp hopens
  obtain ⟨text', htext', hcommit'⟩ := verifyDisclosure_text.mp hopens'
  obtain ⟨hmem, hmemDecision, hmemText⟩ := mem_replayStrings bundle hbytes htext
  obtain ⟨hmem', hmemDecision', hmemText'⟩ := mem_replayStrings bundle' hbytes' htext'
  have hsame : ∀ {a a' : Bytes}, a ∈ X.replayStrings receipt.intentSalt bundle r →
      a' ∈ X.replayStrings receipt.intentSalt bundle' r' → X.digest a = X.digest a' → a = a' :=
    fun ha ha' => hc _ (List.mem_append_left _ ha) _ (List.mem_append_right _ ha')
  -- the commitment fixes the hash, the hash the effect and the hash of the input
  obtain rfl := hsame hmemText hmemText' (hhex (hcommit.symm.trans hcommit'))
  rw [hhash] at htext
  rw [hhash'] at htext'
  obtain rfl := hsame hmemDecision hmemDecision' (hencode.texts _ _ _ _ htext htext')
  rw [hinput] at hbytes
  rw [hinput'] at hbytes'
  obtain ⟨heffect, hdigest⟩ := hencode.decisions _ _ _ _ _ hbytes hbytes'
  exact ⟨heffect.symm, (hsame hmem hmem' hdigest).symm⟩

/-! ## The receipt of an admission -/

/-- What the receipt of a call was built of: the replay of its input. -/
theorem prepare_receipt {cfg : NodeConfig} {call : AdmitCall} {decision : Decision}
    {permit : Option (PermitToken Bytes)} {leaf : Bytes}
    (h : X.prepare cfg call = .ok ⟨decision, permit, some (receipt, leaf)⟩) :
    ∃ claims bundle r salt, call.req.session.claims = some claims ∧
      decision = X.decide (call.req.kernelInput cfg claims) ∧ decision.effect ≠ .deny ∧
      X.buildReplayBundle (call.req.kernelInput cfg claims) = .ok bundle ∧
      X.replay bundle = .ok r ∧
      X.buildReceipt (receiptParams cfg call.req
        (X.decideWithAuthorizer (call.req.kernelInput cfg claims)) r salt) [] call.entropy =
          .ok receipt := by
  obtain ⟨denied, -, h⟩ := Except.bind_eq_ok h
  cases denied with
  | some decision => cases h
  | none =>
    dsimp only at h
    rw [decideAndIssue] at h
    split at h
    · cases h
    rename_i claims hclaims
    dsimp only at h
    split at h
    · cases h
    rename_i hdeny
    obtain ⟨permit', -, h⟩ := Except.bind_eq_ok h
    split at h
    · obtain ⟨built, hbuilt, h⟩ := Except.bind_eq_ok h
      cases h
      obtain ⟨bundle, hbundle, hbuilt⟩ := Except.bind_eq_ok hbuilt
      obtain ⟨r, hr, hbuilt⟩ := Except.bind_eq_ok hbuilt
      obtain ⟨salt, -, hbuilt⟩ := Except.bind_eq_ok hbuilt
      obtain ⟨receipt', hreceipt, hbuilt⟩ := Except.bind_eq_ok hbuilt
      obtain ⟨leaf', -, hbuilt⟩ := Except.bind_eq_ok hbuilt
      cases hbuilt
      exact ⟨claims, bundle, r, salt, hclaims, rfl, hdeny, hbundle, hr, hreceipt⟩
    · cases h

/-- A receipt opens to the hashes that it was built with. -/
theorem opens_buildReceipt {p : BuildReceiptParams} {drawn entropy : Bytes}
    (h : X.buildReceipt p drawn entropy = .ok receipt) {r : ReplayResult}
    (hinput : p.inputHash = r.inputHash) (hdecision : p.decisionHash = r.receiptHash) :
    X.Opens receipt r ∧ receipt.body.effect = p.effect ∧ receipt.body.tier = p.tier ∧
      receipt.body.evaluatorVersion = p.evaluatorVersion := by
  obtain ⟨commitments, hcommitments, h⟩ := Except.bind_eq_ok h
  obtain ⟨signer, -, h⟩ := Except.bind_eq_ok h
  obtain ⟨message, -, h⟩ := Except.bind_eq_ok h
  obtain ⟨sig, -, h⟩ := Except.bind_eq_ok h
  obtain rfl := Except.ok.inj h
  obtain ⟨intent, -, h⟩ := Except.bind_eq_ok hcommitments
  obtain ⟨capability, -, h⟩ := Except.bind_eq_ok h
  obtain ⟨policy, -, h⟩ := Except.bind_eq_ok h
  obtain ⟨inputHash, hinputHash, h⟩ := Except.bind_eq_ok h
  obtain ⟨decisionHash, hdecisionHash, h⟩ := Except.bind_eq_ok h
  obtain rfl := Except.ok.inj h
  obtain ⟨bytes, hbytes, rfl⟩ := Except.map_eq_ok hinputHash
  obtain ⟨bytes', hbytes', rfl⟩ := Except.map_eq_ok hdecisionHash
  rw [hinput] at hbytes
  rw [hdecision] at hbytes'
  exact ⟨⟨verifyDisclosure_text.mpr ⟨bytes, hbytes, rfl⟩,
    verifyDisclosure_text.mpr ⟨bytes', hbytes', rfl⟩⟩, rfl, rfl, rfl⟩

/-- The bundle that is the record of an admission: its replay opens the receipt, which names what
was decided. -/
structure Records (X : NodeExternals) (bundle : ReplayBundle) (r : ReplayResult)
    (decision : Decision) (receipt : Receipt) : Prop where
  /-- the bundle replays -/
  replayed : X.replay bundle = .ok r
  /-- the replay opens the commitments -/
  opens : X.Opens receipt r
  /-- the replay finds the decision again just when it is made on what the decoder reads -/
  decided : r.decision = decision ↔
    ∃ input, X.decodeCanonical bundle.inputBytes = .ok input ∧ X.decide input = decision
  /-- the receipt shows the effect -/
  effect : receipt.body.effect = decision.effect.text
  /-- the receipt shows the tier -/
  tier : receipt.body.tier = decision.tier.toNat
  /-- the evaluator is that of the bundle -/
  evaluatorVersion : receipt.body.evaluatorVersion = bundle.evaluatorVersion

theorem records_prepare {cfg : NodeConfig} {call : AdmitCall} {decision : Decision}
    {permit : Option (PermitToken Bytes)} {leaf : Bytes}
    (h : X.prepare cfg call = .ok ⟨decision, permit, some (receipt, leaf)⟩) :
    ∃ claims bundle r, call.req.session.claims = some claims ∧
      X.buildReplayBundle (call.req.kernelInput cfg claims) = .ok bundle ∧
      decision = X.decide (call.req.kernelInput cfg claims) ∧
      Records X bundle r decision receipt := by
  obtain ⟨claims, bundle, r, salt, hclaims, rfl, hne, hbundle, hr, hbuilt⟩ := prepare_receipt h
  have hversion := evaluatorVersion_decide rfl (buildReplayBundle_eq_ok hbundle).2
  obtain ⟨hopens, heffect, htier, hevaluator⟩ := opens_buildReceipt hbuilt rfl rfl
  refine ⟨claims, bundle, r, hclaims, hbundle, rfl, hr, hopens, ?_, heffect, htier, ?_⟩
  · rw [(replay_eq_ok hr).1, replayDecision_iff hne]
    exact and_iff_right hversion
  · exact hevaluator.trans hversion

/-- Two bundles of one input that both replay to an admission are the same. -/
theorem replay_unique {bundle bundle' : ReplayBundle}
    (hne : (X.replayDecision bundle).effect ≠ .deny)
    (hne' : (X.replayDecision bundle').effect ≠ .deny)
    (hinput : bundle'.inputBytes = bundle.inputBytes) : bundle' = bundle := by
  obtain ⟨hversion, input, hdecode, hdecision⟩ := (replayDecision_iff hne).mp rfl
  obtain ⟨hversion', input', hdecode', hdecision'⟩ := (replayDecision_iff hne').mp rfl
  rw [hinput, hdecode] at hdecode'
  obtain rfl := Except.ok.inj hdecode'
  rw [← hdecision] at hversion
  rw [← hdecision'] at hversion'
  cases bundle
  cases bundle'
  exact (ReplayBundle.mk.injEq ..).mpr ⟨hinput, hversion'.symm.trans hversion⟩

end NodeExternals

open NodeExternals

/-- **A receipt is the record of one input.** Whatever the log, the receipt that an admission
returns opens to the replay of the input of the kernel, and names what was decided. The replay finds
the decision again just when the kernel decides so on what the decoder reads off the input, so it
does if the input is read back. As long as the hash has no collision among the strings that are
hashed, no bundle of another input opens the receipt, and no other bundle at all does where the
replay admits. -/
theorem receipt_replays (X : NodeExternals) (cfg : NodeConfig) (call : AdmitCall)
    (hhex : Function.Injective X.bytesToHex) (hencode : X.EncodesReplays) (log : TransparencyLog)
    (o : AdmissionOutcome) (receipt : Receipt) (ho : (X.admission cfg call log).1 = .ok o)
    (hreceipt : o.receipt = some receipt) :
    ∃ claims bundle r, call.req.session.claims = some claims ∧
      X.buildReplayBundle (call.req.kernelInput cfg claims) = .ok bundle ∧
      Records X bundle r o.decision receipt ∧
      (X.decodeInput bundle.inputBytes = .ok (call.req.kernelInput cfg claims) →
        r.decision = o.decision) ∧
      ∀ bundle' r', X.replay bundle' = .ok r' → X.Opens receipt r' →
        CollisionFree X.digest (X.replayStrings receipt.intentSalt bundle r ++
          X.replayStrings receipt.intentSalt bundle' r') →
        bundle'.inputBytes = bundle.inputBytes ∧ r'.decision.effect = r.decision.effect ∧
          (r.decision.effect ≠ .deny → bundle' = bundle) := by
  obtain ⟨built, hprepare, hbuilt⟩ := admission_eq_ok (Prod.ext ho rfl)
  obtain ⟨⟨receipt', leaf⟩, rfl, rfl⟩ := Option.map_eq_some_iff.mp (hbuilt.symm.trans hreceipt)
  obtain ⟨claims, bundle, r, hclaims, hbundle, hdecision, hrecords⟩ := records_prepare hprepare
  refine ⟨claims, bundle, r, hclaims, hbundle, hrecords, fun hreads => ?_, ?_⟩
  · have hbytes := (buildReplayBundle_eq_ok hbundle).1
    exact hrecords.decided.mpr ⟨_, decodeCanonical_encoded hbytes hreads, hdecision.symm⟩
  · intro bundle' r' h' hopens' hc
    obtain ⟨heffect, hinput⟩ := replay_binds hhex hencode hc hrecords.replayed h'
      hrecords.opens.decision hopens'.decision
    refine ⟨hinput, heffect, fun hne => ?_⟩
    have heq := (replay_eq_ok hrecords.replayed).1
    have heq' := (replay_eq_ok h').1
    exact replay_unique (heq ▸ hne) (heq' ▸ heffect ▸ hne) hinput

/-! ## The record of the desk -/

theorem encodesReplays_desk : deskExternals.EncodesReplays where
  decisions d h d' h' b hb hb' := by
    have hsame := cborCode_injective ((Except.ok.inj hb).trans (Except.ok.inj hb').symm)
    simp only [decisionCbor, Decision.toCbor, Cbor.array.injEq, Cbor.map.injEq, List.cons.injEq,
      Prod.mk.injEq, Cbor.text.injEq, true_and] at hsame
    obtain ⟨-, hhash, ⟨heffect, -⟩, -⟩ := hsame
    exact ⟨Effect.text_injective heffect, hexText_injective hhash⟩
  texts salt h h' b hb hb' := by
    have hsame := cborCode_injective ((Except.ok.inj hb).trans (Except.ok.inj hb').symm)
    simp only [saltedText, Cbor.map.injEq, List.cons.injEq, Prod.mk.injEq, Cbor.text.injEq,
      true_and, and_true] at hsame
    exact hexText_injective hsame

/-- The second of two payments of the desk has a record, which replays to its decision. -/
theorem receipt_replays_desk : ∃ o receipt bundle r,
    (deskExternals.admission deskConfig deskCall
      (deskExternals.logAfter deskConfig .empty [deskCall])).1 = .ok o ∧
    o.receipt = some receipt ∧ Records deskExternals bundle r o.decision receipt ∧
    r.decision = o.decision := by
  obtain ⟨o, receipt, -, -, -, ho, hreceipt, -⟩ := desk_anchors 1
  obtain ⟨claims, bundle, r, hclaims, hbundle, hrecords, hreads, -⟩ := receipt_replays deskExternals
    deskConfig deskCall hexText_injective encodesReplays_desk _ o receipt ho hreceipt
  refine ⟨o, receipt, bundle, r, ho, hreceipt, hrecords, hreads ?_⟩
  have hbytes := (buildReplayBundle_eq_ok hbundle).1
  obtain rfl := Option.some.inj hclaims
  exact if_pos (Except.ok.inj hbytes).symm

end Nerion
