import Nerion.Chain

/-!
# Signed tree heads (`translog/src/sth.ts`)

The operator of a log signs the size and the root of its tree under its key and suite.

* `verifyTreeHead_sign` — what an operator has signed verifies under its key exactly when the suite
  is an active one.
-/

namespace Nerion

structure SignedTreeHead where
  /-- hex of the operator's public key -/
  operator : String
  /-- size of the tree -/
  size : JsNum
  rootHex : String
  /-- suite of the signature -/
  suite : String
  /-- the signature -/
  sig : Bytes

namespace Externals

variable (X : Externals)

/-- The message that the operator signs. -/
def treeHeadMessage (operator suite : String) (size : JsNum) (rootHex : String) :
    Except JsError Bytes :=
  X.encodeCanonical (.array [.text "polarseek-sth-v1", .text operator, .text suite, .num size,
    .text rootHex])

def signTreeHead (size : JsNum) (root : Bytes) (suite : String) (operator : KeyPair)
    (entropy : Bytes) : Except JsError SignedTreeHead := do
  let operatorHex := X.bytesToHex operator.publicKey
  let rootHex := X.bytesToHex root
  let signer ← X.signerFor suite
  let message ← X.treeHeadMessage operatorHex suite size rootHex
  let sig ← signer.sign message operator.secretKey entropy
  .ok ⟨operatorHex, size, rootHex, suite, sig⟩

def verifyTreeHead (sth : SignedTreeHead) (operatorPublicKey : Bytes) : Bool :=
  if X.bytesToHex operatorPublicKey ≠ sth.operator then false
  else
    X.verifies (activeSuiteIds.contains sth.suite) sth.suite sth.sig
      (X.treeHeadMessage sth.operator sth.suite sth.size sth.rootHex) (.ok operatorPublicKey)

variable {X}

/-- **A tree head that was signed** verifies if its suite is an active one, and only then. -/
theorem verifyTreeHead_sign {size : JsNum} {root : Bytes} {suite : String} {operator : KeyPair}
    {entropy : Bytes} {sth : SignedTreeHead}
    (hkey : ∀ signer, X.signerFor suite = .ok signer → operator.Genuine signer)
    (h : X.signTreeHead size root suite operator entropy = .ok sth) :
    X.verifyTreeHead sth operator.publicKey = activeSuiteIds.contains suite := by
  obtain ⟨signer, hsigner, h⟩ := Except.bind_eq_ok h
  obtain ⟨message, hmessage, h⟩ := Except.bind_eq_ok h
  obtain ⟨sig, hsig, h⟩ := Except.bind_eq_ok h
  obtain rfl := Except.ok.inj h
  rw [verifyTreeHead, if_neg (not_not_intro rfl)]
  exact X.verifies_signed hsigner hmessage hsig (hkey signer hsigner) rfl

end Externals

end Nerion
