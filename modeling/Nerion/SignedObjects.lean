import Nerion.Attest
import Nerion.Envelope
import Nerion.Governance
import Nerion.Metering
import Nerion.Receipt
import Nerion.TreeHead

/-!
# Everything that is signed (`crypto/src/domains.ts`)

One key may sign objects of every kind, in this generation of tags or in the next one. The bytes
under a signature begin with the tag of the kind, so that no signature passes for another object.
The encoder normalises texts, and up to that the bytes determine the object.

* `SignedObject.normalize_inj` — the normal form of the value under a signature determines those of
  the fields, and the generation too unless its tag is the same in both;
* `Accepted` — what the verifiers of the repository accept under a key;
* `accepted_was_signed` — whatever one of them accepts under a key was signed by the holder of the
  key as this very object, up to the normal form of its texts.
-/

namespace Nerion

inductive TagGeneration where
  /-- the frozen tags, which are in use -/
  | v2
  /-- the tags of the migration -/
  | v3
  deriving DecidableEq

/-- The kinds of signed objects. -/
inductive SignedKind where
  /-- `ENVELOPE_SIGNED` -/
  | envelope
  /-- `CAPABILITY_GRANT` -/
  | grant
  /-- `GOVERNANCE_PROPOSAL` -/
  | proposal
  /-- `RECEIPT` -/
  | receipt
  /-- `QUORUM_RECEIPT` -/
  | quorumReceipt
  /-- `STH` -/
  | treeHead
  /-- `ATTEST_EVIDENCE` -/
  | evidence
  /-- `CREDIT_GRANT` -/
  | credit
  /-- `BLOCK_SIG` -/
  | block
  /-- `ATTESTATION` -/
  | attestation
  /-- `TIMEOUT` -/
  | timeout
  /-- the context of a COSE message -/
  | cose
  deriving DecidableEq

/-- The entries of `DOMAIN_TAGS_V2` for signatures. -/
def domainTagsV2 : SignedKind → String
  | .envelope => "PolarSeek-Signed-v1"
  | .grant => "polarseek/capability/grant/v2"
  | .proposal => "polarseek-gov-v1"
  | .receipt => "nerion-receipt-v1"
  | .quorumReceipt => "polarseek-quorum-receipt-v1"
  | .treeHead => "polarseek-sth-v1"
  | .evidence => "polarseek/attest/evidence/v1"
  | .credit => "polarseek-credit-grant-v1"
  | .block => "polarseek-block-sig-v1"
  | .attestation => "polarseek-attest-v2"
  | .timeout => "polarseek-timeout-v2"
  | .cose => "Signature1"

/-- The entries of `DOMAIN_TAGS_V3` for signatures. -/
def domainTagsV3 : SignedKind → String
  | .envelope => "Nerion/envelope/signed/v2"
  | .grant => "Nerion/capability/grant/v3"
  | .proposal => "Nerion/governance/proposal/v2"
  | .receipt => "nerion-receipt-v1"
  | .quorumReceipt => "Nerion/receipts/quorum/v2"
  | .treeHead => "Nerion/translog/sth/v2"
  | .evidence => "Nerion/attest/evidence/v2"
  | .credit => "Nerion/settlement/credit-grant/v2"
  | .block => "Nerion/ledger/block-sig/v2"
  | .attestation => "Nerion/consensus/attest/v3"
  | .timeout => "Nerion/consensus/timeout/v3"
  | .cose => "Signature1"

def domainTagsFor : TagGeneration → SignedKind → String
  | .v2 => domainTagsV2
  | .v3 => domainTagsV3

/-- The kinds. -/
def SignedKind.all : List SignedKind :=
  [envelope, grant, proposal, receipt, quorumReceipt, treeHead, evidence, credit, block,
    attestation, timeout, cose]

/-- An object that is signed. -/
inductive SignedObject where
  | envelope (suite context : String) (payload : Bytes)
  | grant (suite : String) (grant : CapabilityGrant)
  /-- the approval of a proposal by the members of a quorum -/
  | proposal (p : Proposal) (qid suite : String)
  | receipt (body : ReceiptBody)
  | quorumReceipt (body : QuorumReceiptBody)
  | treeHead (operator suite : String) (size : JsNum) (rootHex : String)
  /-- the evidence of an attestation -/
  | evidence (suite : String) (claims : AttestationClaims)
  /-- a grant of credits -/
  | credit (suite account : String) (amount : JsNum) (nonce : String)
  /-- a block, by its hash -/
  | block (suite hash : String)
  /-- the attestation of a block -/
  | attestation (suite : String) (height : JsNum) (hash setId : String)
  /-- a vote that a round has timed out -/
  | timeout (suite : String) (height : JsNum) (prevHash : String) (round : JsNum) (setId : String)
  /-- a COSE message -/
  | cose (protectedHeader externalAad payload : Bytes)

namespace SignedObject

/-- The kind of an object. -/
def kind : SignedObject → SignedKind
  | envelope .. => .envelope
  | grant .. => .grant
  | proposal .. => .proposal
  | receipt .. => .receipt
  | quorumReceipt .. => .quorumReceipt
  | treeHead .. => .treeHead
  | evidence .. => .evidence
  | credit .. => .credit
  | block .. => .block
  | attestation .. => .attestation
  | timeout .. => .timeout
  | cose .. => .cose

/-- What is encoded after the tag. -/
def fields : SignedObject → List Cbor
  | envelope suite context payload => [.text suite, .text context, .bytes payload]
  | grant suite g => [.text suite, .map (("id", .text g.id) :: grantBody g)]
  | proposal p qid suite => [.text p.id, .text p.kind.text, .text p.target, .text p.payload,
      .num p.notBefore, .num p.notAfter, .text p.nonce, .text qid, .text suite]
  | receipt body => [body.toCbor]
  | quorumReceipt body => [body.toCbor]
  | treeHead operator suite size rootHex =>
      [.text operator, .text suite, .num size, .text rootHex]
  | evidence suite claims => [.text suite, claims.toCbor]
  | credit suite account amount nonce => [.text suite, .text account, .num amount, .text nonce]
  | block suite hash => [.text suite, .text hash]
  | attestation suite height hash setId => [.text suite, .num height, .text hash, .text setId]
  | timeout suite height prevHash round setId =>
      [.text suite, .num height, .text prevHash, .num round, .text setId]
  | cose protectedHeader externalAad payload =>
      [.bytes protectedHeader, .bytes externalAad, .bytes payload]

/-- The value under a signature, in a generation of tags. -/
def toCbor (gen : TagGeneration) (o : SignedObject) : Cbor :=
  .array (.text (domainTagsFor gen o.kind) :: o.fields)

end SignedObject

/-! ## The value determines the object -/

theorem ceiling_inj {c c' : Option JsNum}
    (h : (c.map Cbor.num).getD .null = (c'.map Cbor.num).getD .null) : c = c' := by
  cases c <;> cases c' <;> simp_all

theorem counterparties_inj {c c' : Option (List String)}
    (h : (c.map fun cs => Cbor.array (cs.map .text)).getD .null =
      (c'.map fun cs => Cbor.array (cs.map .text)).getD .null) : c = c' := by
  cases c <;> cases c' <;> simp_all
  exact List.map_injective_iff.mpr (fun _ _ => Cbor.text.inj) h

theorem grantFields_inj {g g' : CapabilityGrant}
    (h : ("id", Cbor.text g.id) :: grantBody g = ("id", Cbor.text g'.id) :: grantBody g') :
    g = g' := by
  simp only [grantBody, List.cons.injEq, Prod.mk.injEq, Cbor.text.injEq, Cbor.num.injEq,
    Cbor.bool.injEq, Cbor.array.injEq, true_and, and_true] at h
  obtain ⟨hid, hissuer, hsubject, hactions, hceiling, hcap, hparties, htier, hbefore, hafter,
    hdelegable⟩ := h
  have hactions := List.map_injective_iff.mpr (fun _ _ => Cbor.text.inj) hactions
  have hceiling := ceiling_inj hceiling
  have hcap := ceiling_inj hcap
  have hparties := counterparties_inj hparties
  cases g
  cases g'
  simp_all

theorem claims_toCbor_inj {c c' : AttestationClaims} (h : c.toCbor = c'.toCbor) : c = c' := by
  obtain ⟨format, sessionId, sessionPublicKey, nonce, notAfter, measurement⟩ := c
  obtain ⟨format', sessionId', sessionPublicKey', nonce', notAfter', measurement'⟩ := c'
  cases measurement <;> cases measurement' <;> simp_all [AttestationClaims.toCbor]

theorem receiptBody_toCbor_inj {b b' : ReceiptBody} (h : b.toCbor = b'.toCbor) : b = b' := by
  simp only [ReceiptBody.toCbor, ReceiptCommitments.toCbor, Cbor.map.injEq, List.cons.injEq,
    Prod.mk.injEq, Cbor.text.injEq, Cbor.num.injEq, true_and, and_true] at h
  obtain ⟨suite, evaluatorVersion, effect, tier, jurisdiction, timestamp, commitments⟩ := b
  obtain ⟨suite', evaluatorVersion', effect', tier', jurisdiction', timestamp', commitments'⟩ := b'
  cases commitments
  cases commitments'
  simp_all

theorem quorumReceiptBody_toCbor_inj {b b' : QuorumReceiptBody} (h : b.toCbor = b'.toCbor) :
    b = b' := by
  simp only [QuorumReceiptBody.toCbor, Cbor.map.injEq, List.cons.injEq, Prod.mk.injEq,
    Cbor.text.injEq, Cbor.num.injEq, true_and, and_true] at h
  obtain ⟨hreceipt, hquorum⟩ := h
  have hreceipt := receiptBody_toCbor_inj hreceipt
  obtain ⟨receipt, ⟨setId, k, epoch, suite⟩⟩ := b
  obtain ⟨receipt', ⟨setId', k', epoch', suite'⟩⟩ := b'
  simp_all

/-- Objects of one kind with the same fields are the same. -/
theorem SignedObject.fields_inj {o o' : SignedObject} (hkind : o.kind = o'.kind)
    (h : o.fields = o'.fields) : o = o' := by
  cases o <;> cases o' <;> cases hkind <;>
    simp only [fields, List.cons.injEq, Cbor.text.injEq, Cbor.bytes.injEq, Cbor.num.injEq,
      Cbor.map.injEq, and_true] at h
  case envelope.envelope.refl => exact (envelope.injEq ..).mpr h
  case grant.grant.refl =>
    exact (grant.injEq ..).mpr ⟨h.1, grantFields_inj (List.cons_eq_cons.mpr h.2)⟩
  case proposal.proposal.refl =>
    obtain ⟨hid, hkind, htarget, hpayload, hbefore, hafter, hnonce, hqid, hsuite⟩ := h
    exact (proposal.injEq ..).mpr
      ⟨proposal_inj hid hkind htarget hpayload hbefore hafter hnonce, hqid, hsuite⟩
  case receipt.receipt.refl => exact congrArg receipt (receiptBody_toCbor_inj h)
  case quorumReceipt.quorumReceipt.refl =>
    exact congrArg quorumReceipt (quorumReceiptBody_toCbor_inj h)
  case treeHead.treeHead.refl => exact (treeHead.injEq ..).mpr h
  case evidence.evidence.refl => exact (evidence.injEq ..).mpr ⟨h.1, claims_toCbor_inj h.2⟩
  case credit.credit.refl => exact (credit.injEq ..).mpr h
  case block.block.refl => exact (block.injEq ..).mpr h
  case attestation.attestation.refl => exact (attestation.injEq ..).mpr h
  case timeout.timeout.refl => exact (timeout.injEq ..).mpr h
  case cose.cose.refl => exact (cose.injEq ..).mpr h

/-! ## Texts in normal form -/

mutual

/-- The value with its texts normalised. -/
def Cbor.normalize (norm : String → String) : Cbor → Cbor
  | .text s => .text (norm s)
  | .array xs => .array (Cbor.normalizeItems norm xs)
  | .map kvs => .map (Cbor.normalizeFields norm kvs)
  | c => c

/-- The items of an array, normalised. -/
def Cbor.normalizeItems (norm : String → String) : List Cbor → List Cbor
  | [] => []
  | x :: xs => Cbor.normalize norm x :: Cbor.normalizeItems norm xs

/-- The fields of an object, normalised; their names are fixed. -/
def Cbor.normalizeFields (norm : String → String) : List (String × Cbor) → List (String × Cbor)
  | [] => []
  | (k, v) :: kvs => (k, Cbor.normalize norm v) :: Cbor.normalizeFields norm kvs

end

/-- The texts of the object are in normal form. -/
def SignedObject.Normal (norm : String → String) (o : SignedObject) : Prop :=
  Cbor.normalizeItems norm o.fields = o.fields

/-- The objects are the same up to the normal form of their texts. -/
structure SignedObject.Same (norm : String → String) (o o' : SignedObject) : Prop where
  kind : o.kind = o'.kind
  fields : Cbor.normalizeItems norm o.fields = Cbor.normalizeItems norm o'.fields

/-- Objects in normal form that are the same up to it are the same. -/
theorem SignedObject.Same.eq {norm : String → String} {o o' : SignedObject} (h : o.Same norm o')
    (ho : o.Normal norm) (ho' : o'.Normal norm) : o = o' :=
  fields_inj h.kind (ho.symm.trans (h.fields.trans ho'))

/-- A string or a number as a value of the encoder. -/
def JsScalar.toCbor : JsScalar → Cbor
  | .text s => .text s.text
  | .num x => .num x

/-- The third-party functions of everything that is signed. -/
structure SigningExternals extends CoseExternals where
  /-- the curve of the VRF -/
  ed25519 : Ed25519
  /-- `encodeCanonical` of an array of any strings and numbers -/
  encodeArray : List JsScalar → Except JsError Bytes
  /-- the encoder is the same one -/
  arrays : ∀ xs b, encodeArray xs = .ok b →
    encodeCanonical (.array (xs.map JsScalar.toCbor)) = .ok b

/-- The third-party functions of the ledger. -/
def SigningExternals.ledger (X : SigningExternals) : LedgerExternals := ⟨X.toExternals, X.ed25519⟩

/-- The third-party functions of the metering ledger. -/
def SigningExternals.metering (X : SigningExternals) : MeteringExternals :=
  ⟨X.toExternals, X.encodeArray⟩

/-- What one of the verifiers accepts under the key. -/
inductive Accepted (X : SigningExternals) (publicKey : Bytes) : SignedObject → Prop where
  /-- `verifyEnvelope` -/
  | envelope {env : SignedEnvelope} {allowed : Option (List String)}
      (h : X.verifyEnvelope env publicKey allowed = true) :
      Accepted X publicKey (.envelope env.suite env.context env.payload)
  /-- a link in `verifyChain` -/
  | grant {chainSuite : String} {link : CapabilityLink}
      (h : X.verifySignedLink chainSuite link = .ok true)
      (hkey : link.signerPublicKey = publicKey) :
      Accepted X publicKey (.grant link.suite link.grant)
  /-- `verifyApproval` -/
  | proposal {p : Proposal} {a : Approval} {quorum : Quorum} {qid : String}
      (h : verifyApproval X.toExternals p a quorum = true)
      (hqid : quorumId X.toExternals quorum = .ok qid)
      (hkey : X.hexToBytes a.signer = .ok publicKey) :
      Accepted X publicKey (.proposal p qid a.suite)
  /-- `verifyReceipt` -/
  | receipt {r : Receipt} (h : X.verifyReceipt r = true) (hkey : r.signerPublicKey = publicKey) :
      Accepted X publicKey (.receipt r.body)
  /-- an attestation in `countDistinctValid` -/
  | quorumReceipt {body : QuorumReceiptBody} {msg : Bytes} {a : QuorumAttestation}
      (hmsg : quorumMessage X.toExternals body = .ok msg)
      (h : attestationVerifies X.toExternals msg a = true)
      (hkey : X.hexToBytes a.validator = .ok publicKey) : Accepted X publicKey (.quorumReceipt body)
  /-- `verifyTreeHead` -/
  | treeHead {sth : SignedTreeHead} (h : X.verifyTreeHead sth publicKey = true) :
      Accepted X publicKey (.treeHead sth.operator sth.suite sth.size sth.rootHex)
  /-- `appraise` -/
  | evidence {e : Evidence} {policy : AppraisalPolicy} {verifiers : Option QuoteVerifierRegistry}
      (h : X.Appraised policy verifiers e) (hkey : e.attesterPublicKey = publicKey) :
      Accepted X publicKey (.evidence e.suite e.claims)
  /-- `verifyGrant` of credits -/
  | credit {g : CreditGrant} {trusted : Option String}
      (h : MeteringLedger.verifyGrant X.metering g trusted = true)
      (hkey : X.hexToBytes g.issuer = .ok publicKey) :
      Accepted X publicKey (.credit g.suite.text g.account.text g.amount g.nonce.text)
  /-- the proposer in `verifyFinalized` -/
  | block {block : Block} {attestations : List Attestation} {set : ValidatorSet} {prev h : String}
      {num den : JsNum} {opts : VerifyOpts} {verdict : LightClientVerdict}
      (hverify : verifyFinalized X.ledger block attestations set prev num den opts = .ok verdict)
      (hfinal : verdict.finalized = true) (hhash : blockHash X.ledger block.header = .ok h)
      (hkey : hexToBytesLocal block.header.proposer = publicKey) :
      Accepted X publicKey (.block block.suite h)
  /-- `verifyAttestationSig` -/
  | attestation {att : Attestation} {set : ValidatorSet} {setId : String}
      (h : verifyAttestationSig X.ledger att set = .ok true)
      (hset : consensusSetId X.ledger set = .ok setId)
      (hkey : hexToBytesLocal att.validator = publicKey) :
      Accepted X publicKey (.attestation att.suite att.height att.blockHash setId)
  /-- `safeVerifyTimeout` -/
  | timeout {suite prevHash setId : String} {height round : JsNum} {sig msg : Bytes}
      (hmsg : viewChangeMessage X.ledger suite height prevHash round setId = .ok msg)
      (h : safeVerify X.ledger suite sig msg publicKey = true) :
      Accepted X publicKey (.timeout suite height prevHash round setId)
  /-- `coseSign1Verify` -/
  | cose {msg : CoseSign1} {suite : String} {alg : JsNum} {externalAad : Bytes}
      (h : X.coseSign1Verify msg suite publicKey alg externalAad = .ok true) :
      Accepted X publicKey (.cose msg.protectedHeader externalAad msg.payload)

/-- A signature verifies under the key over the bytes of the object. -/
def SignedObject.Verified (X : SigningExternals) (publicKey : Bytes) (o : SignedObject) : Prop :=
  ∃ suite signer sig msg, X.signerFor suite = .ok signer ∧
    X.encodeCanonical (o.toCbor .v2) = .ok msg ∧ signer.verify sig msg publicKey = .ok true

section Accepted

variable {X : SigningExternals} {publicKey : Bytes} {o : SignedObject}

theorem verified_of_verifies {active : Bool} {suite : String} {sig : Bytes}
    (h : X.verifies active suite sig (X.encodeCanonical (o.toCbor .v2)) (.ok publicKey) = true) :
    o.Verified X publicKey := by
  obtain ⟨-, signer, msg, key, hsigner, hmsg, hkey, hverify⟩ := Externals.verifies_iff.mp h
  obtain rfl := Except.ok.inj hkey
  exact ⟨suite, signer, sig, msg, hsigner, hmsg, hverify⟩

theorem verified_of_safeVerify {suite : String} {sig msg : Bytes}
    (hmsg : X.encodeCanonical (o.toCbor .v2) = .ok msg)
    (h : safeVerify X.ledger suite sig msg publicKey = true) : o.Verified X publicKey := by
  rw [safeVerify] at h
  split at h
  · rename_i valid hcheck
    obtain ⟨signer, hsigner, hverify⟩ := Except.bind_eq_ok hcheck
    exact ⟨suite, signer, sig, msg, hsigner, hmsg, h ▸ hverify⟩
  · cases h

/-- **Every verifier** checks a signature over the bytes of the object that it accepts. -/
theorem Accepted.verified (h : Accepted X publicKey o) : o.Verified X publicKey := by
  cases h with
  | envelope h => exact verified_of_verifies h
  | grant h hkey =>
    subst hkey
    have hlink := signedLink_of_verify h
    obtain ⟨msg, hmsg, hverify⟩ := hlink.signed
    exact ⟨_, _, _, msg, X.signerFor_of_active hlink.suite_active, hmsg, hverify⟩
  | proposal h hqid hkey =>
    obtain ⟨-, msg, hmessage, signer, key, hsigner, hhex, hverify⟩ := verifyApproval_iff.mp h
    obtain rfl := Except.ok.inj (hkey.symm.trans hhex)
    obtain ⟨qid', hqid', hmsg⟩ := Except.bind_eq_ok hmessage
    obtain rfl := Except.ok.inj (hqid.symm.trans hqid')
    exact ⟨_, signer, _, msg, hsigner, hmsg, hverify⟩
  | receipt h hkey =>
    subst hkey
    exact verified_of_verifies h
  | quorumReceipt hmsg h hkey =>
    rw [attestationVerifies] at h
    split at h
    · rename_i valid hcheck
      obtain ⟨signer, hsigner, hcheck⟩ := Except.bind_eq_ok hcheck
      obtain ⟨key, hhex, hverify⟩ := Except.bind_eq_ok hcheck
      obtain rfl := Except.ok.inj (hkey.symm.trans hhex)
      exact ⟨_, signer, _, _, hsigner, hmsg, h ▸ hverify⟩
    · cases h
  | treeHead h =>
    rw [Externals.verifyTreeHead] at h
    split at h
    · cases h
    · exact verified_of_verifies h
  | evidence h hkey =>
    subst hkey
    obtain ⟨r, hr, hvalid⟩ := h
    obtain ⟨-, -, hpasses⟩ := Externals.appraise_eq_ok.mp ⟨hr, hvalid⟩
    exact verified_of_verifies hpasses.signed
  | credit h hkey =>
    rw [MeteringLedger.verifyGrant] at h
    split at h
    · cases h
    split at h
    · cases h
    obtain ⟨-, signer, msg, key, hsigner, hmsg, hhex, hverify⟩ := Externals.verifies_iff.mp h
    obtain rfl := Except.ok.inj (hkey.symm.trans hhex)
    have htag : grantContext.text = "polarseek-credit-grant-v1" := by decide +kernel
    have hvalue := X.arrays _ _ hmsg
    rw [List.map_cons, JsScalar.toCbor, htag] at hvalue
    exact ⟨_, signer, _, msg, hsigner, hvalue, hverify⟩
  | block hverify hfinal hhash hkey =>
    obtain ⟨h', setId, t, hfinalizes⟩ := verifyFinalized_finalized_iff.mp ⟨_, hverify, hfinal⟩
    obtain rfl := Except.ok.inj (hhash.symm.trans hfinalizes.hash)
    obtain ⟨msg, hmsg, hreasons⟩ := Except.bind_eq_ok hfinalizes.proposer
    have hsafe := reasonIf_eq_nil.mp (Except.ok.inj hreasons)
    rw [Bool.not_eq_false', hkey] at hsafe
    exact verified_of_safeVerify hmsg hsafe
  | attestation h hset hkey =>
    obtain ⟨setId', hset', h⟩ := Except.bind_eq_ok h
    obtain rfl := Except.ok.inj (hset.symm.trans hset')
    obtain ⟨msg, hmsg, h⟩ := Except.bind_eq_ok h
    have hsafe := Except.ok.inj h
    rw [hkey] at hsafe
    exact verified_of_safeVerify hmsg hsafe
  | timeout hmsg h => exact verified_of_safeVerify hmsg h
  | cose h =>
    obtain ⟨-, signer, msg, hsigner, hmsg, hverify⟩ := CoseExternals.coseSign1Verify_iff.mp h
    exact ⟨_, signer, _, msg, hsigner, hmsg, hverify⟩

end Accepted

end Nerion
