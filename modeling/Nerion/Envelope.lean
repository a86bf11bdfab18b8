import Nerion.Permit

/-!
# Signed envelopes and COSE messages (`crypto/src/envelope.ts`, `crypto/src/cose.ts`)

Two general forms of a signed message. An envelope is signed over a context, a suite and the
encoded payload; a COSE message over its protected header, data of the application and the payload.

* `verifies_iff`, `coseSign1Verify_iff` — what is accepted;
* `verifyEnvelope_sign`, `coseSign1Verify_sign` — what is signed is accepted.
-/

namespace Nerion

/-! ## Envelopes -/

structure SignedEnvelope where
  /-- the suite of the signature -/
  suite : String
  /-- what the signature is for -/
  context : String
  /-- the encoded payload -/
  payload : Bytes
  /-- the signature -/
  sig : Bytes

namespace Externals

variable (X : Externals)

/-- `toBeSigned` of an envelope. -/
def toBeSigned (suite context : String) (payload : Bytes) : Except JsError Bytes :=
  X.encodeCanonical
    (.array [.text "PolarSeek-Signed-v1", .text suite, .text context, .bytes payload])

def signEnvelopeWith (payload : Cbor) (suite : String) (signFn : Bytes → Except JsError Bytes)
    (context : String) : Except JsError SignedEnvelope := do
  let payloadBytes ← X.encodeCanonical payload
  let message ← X.toBeSigned suite context payloadBytes
  let sig ← signFn message
  .ok ⟨suite, context, payloadBytes, sig⟩

def signEnvelope (payload : Cbor) (suite : String) (secretKey : Bytes) (context : String)
    (entropy : Bytes) : Except JsError SignedEnvelope :=
  X.signEnvelopeWith payload suite (fun message => do
    let signer ← X.signerFor suite
    signer.sign message secretKey entropy) context

def verifyEnvelope (env : SignedEnvelope) (publicKey : Bytes)
    (allowedSuites : Option (List String)) : Bool :=
  X.verifies (allowedSuites.all (·.contains env.suite)) env.suite env.sig
    (X.toBeSigned env.suite env.context env.payload) (.ok publicKey)

variable {X}

/-- What passes the shared verification. -/
theorem verifies_iff {active : Bool} {suite : String} {sig : Bytes}
    {message publicKey : Except JsError Bytes} :
    X.verifies active suite sig message publicKey = true ↔
      active = true ∧ ∃ signer msg key, X.signerFor suite = .ok signer ∧ message = .ok msg ∧
        publicKey = .ok key ∧ signer.verify sig msg key = .ok true := by
  cases active with
  | false => exact ⟨fun h => absurd h Bool.false_ne_true, fun h => absurd h.1 Bool.false_ne_true⟩
  | true =>
    rw [verifies, Bool.not_true, if_neg Bool.false_ne_true]
    constructor
    · intro h
      split at h
      · rename_i valid hcheck
        obtain ⟨signer, hsigner, hcheck⟩ := Except.bind_eq_ok hcheck
        obtain ⟨msg, hmsg, hcheck⟩ := Except.bind_eq_ok hcheck
        obtain ⟨key, hkey, hcheck⟩ := Except.bind_eq_ok hcheck
        exact ⟨rfl, signer, msg, key, hsigner, hmsg, hkey, h ▸ hcheck⟩
      · cases h
    · rintro ⟨-, signer, msg, key, hsigner, hmsg, hkey, hverify⟩
      rw [Except.bind_ok hsigner (Except.bind_ok hmsg (Except.bind_ok hkey hverify))]

/-- An envelope that was signed with a genuine key is accepted where its suite is allowed. -/
theorem verifyEnvelope_sign {payload : Cbor} {suite context : String} {key : KeyPair}
    {entropy : Bytes} {env : SignedEnvelope} {allowedSuites : Option (List String)}
    (hkey : ∀ signer, X.signerFor suite = .ok signer → key.Genuine signer)
    (h : X.signEnvelope payload suite key.secretKey context entropy = .ok env) :
    X.verifyEnvelope env key.publicKey allowedSuites =
      allowedSuites.all (·.contains suite) := by
  obtain ⟨payloadBytes, -, h⟩ := Except.bind_eq_ok h
  obtain ⟨message, hmessage, h⟩ := Except.bind_eq_ok h
  obtain ⟨sig, hsig, h⟩ := Except.bind_eq_ok h
  obtain ⟨signer, hsigner, hsig⟩ := Except.bind_eq_ok hsig
  obtain rfl := Except.ok.inj h
  exact X.verifies_signed hsigner hmessage hsig (hkey signer hsigner) rfl

end Externals

/-! ## COSE messages -/

/-- The third-party functions of the COSE code: the encoder on the protected header. -/
structure CoseExternals extends PermitExternals where
  /-- `encodeCanonical(new Map([[1, alg]]))` -/
  encodeProtected : JsNum → Except JsError Bytes

structure CoseSign1 where
  /-- the encoded protected header -/
  protectedHeader : Bytes
  payload : Bytes
  signature : Bytes
  deriving DecidableEq

namespace CoseExternals

variable (X : CoseExternals)

/-- `toBeSigned` of a COSE message. -/
def toBeSigned (protectedBytes payload externalAad : Bytes) : Except JsError Bytes :=
  X.encodeCanonical
    (.array [.text "Signature1", .bytes protectedBytes, .bytes externalAad, .bytes payload])

def coseSign1 (payload : Bytes) (suite : String) (secretKey : Bytes) (alg : JsNum)
    (externalAad entropy : Bytes) : Except JsError CoseSign1 := do
  let prot ← X.encodeProtected alg
  let signer ← X.signerFor suite
  let message ← X.toBeSigned prot payload externalAad
  let signature ← signer.sign message secretKey entropy
  .ok ⟨prot, payload, signature⟩

/-- `coseSign1Verify`: the expected header is encoded before anything is caught. -/
def coseSign1Verify (msg : CoseSign1) (suite : String) (publicKey : Bytes) (expectedAlg : JsNum)
    (externalAad : Bytes) : Except JsError Bool :=
  (X.encodeProtected expectedAlg).map fun expected =>
    X.verifies (constantTimeEqual msg.protectedHeader expected) suite msg.signature
      (X.toBeSigned msg.protectedHeader msg.payload externalAad) (.ok publicKey)

variable {X}

/-- **An accepted COSE message** has the expected header and is signed over its own bytes. -/
theorem coseSign1Verify_iff {msg : CoseSign1} {suite : String} {publicKey externalAad : Bytes}
    {expectedAlg : JsNum} :
    X.coseSign1Verify msg suite publicKey expectedAlg externalAad = .ok true ↔
      X.encodeProtected expectedAlg = .ok msg.protectedHeader ∧
      ∃ signer tbs, X.signerFor suite = .ok signer ∧
        X.toBeSigned msg.protectedHeader msg.payload externalAad = .ok tbs ∧
        signer.verify msg.signature tbs publicKey = .ok true := by
  have hverifies : ∀ expected, X.verifies (constantTimeEqual msg.protectedHeader expected) suite
      msg.signature (X.toBeSigned msg.protectedHeader msg.payload externalAad) (.ok publicKey) =
        true ↔ expected = msg.protectedHeader ∧ ∃ signer tbs, X.signerFor suite = .ok signer ∧
          X.toBeSigned msg.protectedHeader msg.payload externalAad = .ok tbs ∧
          signer.verify msg.signature tbs publicKey = .ok true := by
    intro expected
    rw [Externals.verifies_iff, constantTimeEqual_iff, eq_comm]
    refine and_congr_right fun _ => ⟨?_, ?_⟩
    · rintro ⟨signer, tbs, key, hsigner, htbs, hkey, hverify⟩
      obtain rfl := Except.ok.inj hkey
      exact ⟨signer, tbs, hsigner, htbs, hverify⟩
    · rintro ⟨signer, tbs, hsigner, htbs, hverify⟩
      exact ⟨signer, tbs, publicKey, hsigner, htbs, rfl, hverify⟩
  rw [coseSign1Verify]
  cases X.encodeProtected expectedAlg with
  | error e =>
    refine ⟨fun h => ?_, fun h => ?_⟩
    · cases h
    · cases h.1
  | ok expected =>
    constructor
    · intro h
      obtain ⟨rfl, hsigned⟩ := (hverifies expected).mp (Except.ok.inj h)
      exact ⟨rfl, hsigned⟩
    · rintro ⟨hheader, hsigned⟩
      exact congrArg Except.ok ((hverifies expected).mpr ⟨Except.ok.inj hheader, hsigned⟩)

/-- What is signed with a genuine key is accepted under the same data of the application. -/
theorem coseSign1Verify_sign {payload : Bytes} {suite : String} {key : KeyPair} {alg : JsNum}
    {externalAad entropy : Bytes} {msg : CoseSign1}
    (hkey : ∀ signer, X.signerFor suite = .ok signer → key.Genuine signer)
    (h : X.coseSign1 payload suite key.secretKey alg externalAad entropy = .ok msg) :
    X.coseSign1Verify msg suite key.publicKey alg externalAad = .ok true := by
  obtain ⟨prot, hprot, h⟩ := Except.bind_eq_ok h
  obtain ⟨signer, hsigner, h⟩ := Except.bind_eq_ok h
  obtain ⟨tbs, htbs, h⟩ := Except.bind_eq_ok h
  obtain ⟨signature, hsignature, h⟩ := Except.bind_eq_ok h
  obtain rfl := Except.ok.inj h
  exact coseSign1Verify_iff.mpr
    ⟨hprot, signer, tbs, hsigner, htbs, hkey signer hsigner _ _ _ hsignature⟩

end CoseExternals

end Nerion
