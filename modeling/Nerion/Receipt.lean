import Nerion.QuorumReceipt
import Nerion.TransparencyLog

/-!
# Receipts (`receipts/src/receipt.ts`, `disclosure/src/selective.ts`)

A receipt commits to a request and to the decision on it by hashes under a fresh salt, and is
signed by its issuer. Its body is what the transparency log stores, so whoever knows the issuer's
key and a root of the log can check both the signature and the inclusion.

* `buildReceipt_eq_ok` — what a receipt that was built is;
* `verifyReceipt_build` — it verifies exactly when its suite is an active one;
* `verifyReceiptInclusion_ok_iff` — what the external check establishes.
-/

namespace Nerion

structure Receipt where
  /-- the signed body -/
  body : ReceiptBody
  /-- the signature -/
  sig : Bytes
  /-- the key of the issuer -/
  signerPublicKey : Bytes
  /-- the salt of the commitments, which is not part of the body -/
  intentSalt : Bytes

/-- `BuildReceiptParams`; the values to commit to are given as the encoder sees them. -/
structure BuildReceiptParams where
  suite : String
  evaluatorVersion : String
  effect : String
  /-- the risk tier -/
  tier : JsNum
  jurisdiction : String
  /-- the time -/
  timestamp : JsNum
  intent : Cbor
  /-- the capability, if any -/
  capability : Option Cbor
  policy : Cbor
  /-- hash of the replay input -/
  inputHash : String
  decisionHash : String
  issuer : KeyPair
  /-- the salt, if it is not to be drawn -/
  intentSalt : Option Bytes

structure ExternalVerdict where
  /-- whether the receipt is accepted -/
  ok : Bool
  /-- why it is not -/
  reasons : List String
  deriving DecidableEq

namespace Externals

variable (X : Externals)

def commitField (value : Cbor) (salt : Option Bytes) : Except JsError String :=
  let preimage : Cbor :=
    match salt with
    | none => value
    | some salt =>
      .map [("d", .text "Nerion/disclosure/salted-commit/v1"), ("salt", .bytes salt),
        ("value", value)]
  (X.encodeCanonical preimage).map fun bytes => X.bytesToHex (X.digest bytes)

def verifyDisclosure (committedHashHex : String) (revealedValue : Cbor) (salt : Option Bytes) :
    Except JsError Bool :=
  (X.commitField revealedValue salt).map fun commitment => commitment == committedHashHex

/-- The message that the issuer signs. -/
def receiptMessage (body : ReceiptBody) : Except JsError Bytes :=
  X.encodeCanonical (.array [.text "nerion-receipt-v1", body.toCbor])

/-- The commitment to the capability, if there is one. -/
def commitCapability (capability : Option Cbor) (salt : Bytes) : Except JsError String :=
  match capability with
  | none => .ok "none"
  | some capability => X.commitField capability (some salt)

/-- The commitments of `buildReceipt`. -/
def receiptCommitments (p : BuildReceiptParams) (salt : Bytes) :
    Except JsError ReceiptCommitments := do
  let intent ← X.commitField p.intent (some salt)
  let capability ← X.commitCapability p.capability salt
  let policy ← X.commitField p.policy (some salt)
  let inputHash ← X.commitField (.text p.inputHash) (some salt)
  let decisionHash ← X.commitField (.text p.decisionHash) (some salt)
  .ok ⟨intent, capability, policy, inputHash, decisionHash⟩

/-- `buildReceipt`; `drawn` are the random bytes of a fresh salt. -/
def buildReceipt (p : BuildReceiptParams) (drawn entropy : Bytes) : Except JsError Receipt := do
  let intentSalt := p.intentSalt.getD drawn
  let commitments ← X.receiptCommitments p intentSalt
  let body : ReceiptBody :=
    ⟨p.suite, p.evaluatorVersion, p.effect, p.tier, p.jurisdiction, p.timestamp, commitments⟩
  let signer ← X.signerFor p.suite
  let message ← X.receiptMessage body
  let sig ← signer.sign message p.issuer.secretKey entropy
  .ok ⟨body, sig, p.issuer.publicKey, intentSalt⟩

def receiptLeaf (r : Receipt) : Except JsError Bytes := X.encodeCanonical r.body.toCbor

def verifyReceipt (r : Receipt) : Bool :=
  X.verifies (activeSuiteIds.contains r.body.suite) r.body.suite r.sig (X.receiptMessage r.body)
    (.ok r.signerPublicKey)

def verifyReceiptInclusion (H : Bytes → Bytes) (r : Receipt) (witness : InclusionWitness)
    (gossipedRoot trustedIssuerKey : Bytes) : Except JsError ExternalVerdict := do
  let leaf ← X.receiptLeaf r
  let reasons := reasonIf (!X.verifyReceipt r) "receipt signature invalid" ++
    reasonIf (!bytesEqual r.signerPublicKey trustedIssuerKey)
      "receipt not signed by the expected issuer key" ++
    reasonIf (!bytesEqual witness.leaf leaf) "witness leaf does not match the receipt body" ++
    reasonIf (!checkInclusion H witness gossipedRoot)
      "inclusion proof does not verify against the gossiped root"
  .ok ⟨reasons.length == 0, reasons⟩

variable {X}

/-! ## What is built -/

/-- What a receipt that was built is. -/
theorem buildReceipt_eq_ok {p : BuildReceiptParams} {drawn entropy : Bytes} {r : Receipt}
    (h : X.buildReceipt p drawn entropy = .ok r) :
    r.body.suite = p.suite ∧ r.signerPublicKey = p.issuer.publicKey ∧
      ∃ signer message, X.signerFor p.suite = .ok signer ∧ X.receiptMessage r.body = .ok message ∧
        signer.sign message p.issuer.secretKey entropy = .ok r.sig := by
  obtain ⟨commitments, -, h⟩ := Except.bind_eq_ok h
  obtain ⟨signer, hsigner, h⟩ := Except.bind_eq_ok h
  obtain ⟨message, hmessage, h⟩ := Except.bind_eq_ok h
  obtain ⟨sig, hsig, h⟩ := Except.bind_eq_ok h
  obtain rfl := Except.ok.inj h
  exact ⟨rfl, rfl, signer, message, hsigner, hmessage, hsig⟩

/-- **A receipt that was built** verifies if its suite is an active one, and only then. -/
theorem verifyReceipt_build {p : BuildReceiptParams} {drawn entropy : Bytes} {r : Receipt}
    (hkey : ∀ signer, X.signerFor p.suite = .ok signer → p.issuer.Genuine signer)
    (h : X.buildReceipt p drawn entropy = .ok r) :
    X.verifyReceipt r = activeSuiteIds.contains p.suite := by
  obtain ⟨hsuite, hpublic, signer, message, hsigner, hmessage, hsig⟩ := buildReceipt_eq_ok h
  rw [verifyReceipt, hsuite]
  exact X.verifies_signed hsigner hmessage hsig (hkey signer hsigner) (congrArg _ hpublic)

/-- **What the external check establishes**: the signature, the issuer, and that the log contains
the body under the root. -/
theorem verifyReceiptInclusion_ok_iff {H : Bytes → Bytes} {r : Receipt} {w : InclusionWitness}
    {root key leaf : Bytes} (hleaf : X.receiptLeaf r = .ok leaf) :
    (∃ v, X.verifyReceiptInclusion H r w root key = .ok v ∧ v.ok = true) ↔
      X.verifyReceipt r = true ∧ r.signerPublicKey = key ∧ w.leaf = leaf ∧
        checkInclusion H w root = true := by
  rw [verifyReceiptInclusion, hleaf]
  constructor
  · rintro ⟨v, h, hok⟩
    obtain rfl := Except.ok.inj h
    have hreasons := List.length_eq_zero_iff.mp (beq_iff_eq.mp hok)
    simpa [reasonIf_eq_nil, bytesEqual_iff, and_assoc] using hreasons
  · rintro ⟨hsig, hkey, hw, hroot⟩
    refine ⟨_, rfl, ?_⟩
    simp [reasonIf, hsig, bytesEqual_iff.mpr hkey, bytesEqual_iff.mpr hw, hroot]

end Externals

end Nerion
