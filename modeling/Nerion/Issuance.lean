import Nerion.Delegation
import Nerion.EvmMessage
import Nerion.Metering
import Nerion.Receipt
import Nerion.TreeHead

/-!
# What is issued and what is accepted

Capabilities, receipts, tree heads and credit grants are issued under a suite that `signerFor`
resolves, and accepted under a suite that is an active one. The registry has a suite that is
resolved and not active, so the two are not the same.

* `verifyChain_issueRoot` — the root capabilities;
* `issued_verifies_iff` — all four kinds;
* `pending_suite_issues` — what is issued under the suite in between.
-/

namespace Nerion

/-- A key pair that is genuine for whatever scheme the suite resolves to. -/
def KeyPair.GenuineFor (key : KeyPair) (X : Externals) (suite : String) : Prop :=
  ∀ signer, X.signerFor suite = .ok signer → key.Genuine signer

/-- **A root capability that was issued** verifies if its suite is an active one, and only then. -/
theorem verifyChain_issueRoot {X : Externals} {spec : RootGrantSpec} {suite : String}
    {authority : KeyPair} {entropy : Bytes} {cap : Capability} {trustedRoots : List Bytes}
    (hkey : authority.GenuineFor X suite) (htrusted : authority.publicKey ∈ trustedRoots)
    (h : X.issueRoot spec suite authority entropy = .ok cap) :
    X.verifyChain cap trustedRoots = .ok true ↔ suite ∈ activeSuiteIds := by
  obtain ⟨grant, hid, h⟩ := Except.bind_eq_ok h
  obtain ⟨link, hlink, h⟩ := Except.bind_eq_ok h
  obtain rfl := Except.ok.inj h
  constructor
  · intro hverified
    obtain ⟨root, links, hchain, -, -, hsigned, -⟩ := verifyChain_sound hverified
    have hactive := (hsigned link List.mem_cons_self).suite_active
    obtain ⟨signer, -, hlink⟩ := Except.bind_eq_ok hlink
    obtain ⟨message, -, hlink⟩ := Except.bind_eq_ok hlink
    obtain ⟨sig, -, hlink⟩ := Except.bind_eq_ok hlink
    obtain rfl := Except.ok.inj hlink
    exact hactive
  · intro hactive
    have hgenuine := hkey _ (X.signerFor_of_active hactive)
    obtain ⟨hsigned, -, hsuite, hsigner⟩ := signedLink_of_signGrant hid rfl hactive hgenuine hlink
    refine verifyChain_complete (Nat.one_le_ofNat) ?_ ?_ (.singleton link)
    · rw [hsigner]
      exact List.mem_map_of_mem htrusted
    · intro l hl
      rw [List.mem_singleton.mp hl, hsuite]
      exact hsigned

/-- **What is issued and what is accepted.** Of the capabilities, receipts, tree heads and credit
grants that their issuers return, exactly those under an active suite are accepted by
`verifyChain`, `verifyReceipt`, `verifyTreeHead` and `verifyGrant` with the issuer's key trusted. -/
theorem issued_verifies_iff (X : MeteringExternals)
    (hhex : ∀ b, X.hexToBytes (X.bytesToHex b) = .ok b) :
    (∀ (spec : RootGrantSpec) (suite : String) (authority : KeyPair) (entropy : Bytes)
      (cap : Capability) (trustedRoots : List Bytes), authority.GenuineFor X.toExternals suite →
      authority.publicKey ∈ trustedRoots → X.issueRoot spec suite authority entropy = .ok cap →
      (X.verifyChain cap trustedRoots = .ok true ↔ suite ∈ activeSuiteIds)) ∧
    (∀ (p : BuildReceiptParams) (drawn entropy : Bytes) (r : Receipt),
      p.issuer.GenuineFor X.toExternals p.suite → X.buildReceipt p drawn entropy = .ok r →
      (X.verifyReceipt r = true ↔ p.suite ∈ activeSuiteIds)) ∧
    (∀ (size : JsNum) (root : Bytes) (suite : String) (operator : KeyPair) (entropy : Bytes)
      (sth : SignedTreeHead), operator.GenuineFor X.toExternals suite →
      X.signTreeHead size root suite operator entropy = .ok sth →
      (X.verifyTreeHead sth operator.publicKey = true ↔ suite ∈ activeSuiteIds)) ∧
    ∀ (l : MeteringLedger) (account : JsText) (amount : JsNum) (nonce : JsText) (entropy : Bytes)
      (g : CreditGrant), l.issuer.GenuineFor X.toExternals l.suite.text →
      (l.grant X account amount nonce entropy).1 = .ok g →
      (MeteringLedger.verifyGrant X g (some (X.bytesToHex l.issuer.publicKey)) = true ↔
        ∃ id ∈ activeSuiteIds, l.suite = JsText.ofString id) := by
  refine ⟨?_, ?_, ?_, ?_⟩
  · intro spec suite authority entropy cap trustedRoots hkey htrusted h
    exact verifyChain_issueRoot hkey htrusted h
  · intro p drawn entropy r hkey h
    rw [Externals.verifyReceipt_build hkey h, List.contains_iff_mem]
  · intro size root suite operator entropy sth hkey h
    rw [Externals.verifyTreeHead_sign hkey h, List.contains_iff_mem]
  · intro l account amount nonce entropy g hkey h
    rw [MeteringLedger.verifyGrant_grant hkey (hhex _) h, List.any_eq_true]
    simp only [decide_eq_true_eq, @eq_comm _ l.suite]

/-- The symbolic externals, for concrete runs of all issuers. -/
def symbolicMetering : MeteringExternals :=
  ⟨symbolicExternals.toExternals, fun scalars => .ok (scalars.map fun _ => 0)⟩

/-- The key of an issuer: with symbolic signatures both halves are the same. -/
def issuerKey : KeyPair := ⟨[66], [66]⟩

theorem genuine_issuerKey (suite : String) :
    issuerKey.GenuineFor symbolicMetering.toExternals suite := by
  intro signer hsigner
  have hsymbolic : signer = symbolicSigner := by
    obtain ⟨entry, -, hsigner⟩ := Except.bind_eq_ok hsigner
    rw [Externals.getSigner] at hsigner
    split_ifs at hsigner
    · exact (Except.ok.inj hsigner).symm
    · exact (Except.ok.inj hsigner).symm
  rw [hsymbolic]
  intro message entropy sig hsig
  obtain rfl := Except.ok.inj hsig
  exact congrArg _ (decide_eq_true rfl)

/-- A receipt to be built under a suite. -/
def receiptUnder (suite : String) : BuildReceiptParams :=
  ⟨suite, "v", "allow", 2, "EU", 7, .null, none, .null, "", "", issuerKey, none⟩

/-- What the four issuers return under a suite: whether they all do, and the four verdicts. -/
def issuedUnder (suite : String) : Except JsError (Except JsError Bool × Bool × Bool × Bool) := do
  let X := symbolicMetering
  let l := MeteringLedger.construct (JsText.ofString suite) issuerKey
  let cap ← X.issueRoot sampleSpec suite issuerKey []
  let r ← X.buildReceipt (receiptUnder suite) [] []
  let sth ← X.signTreeHead 0 [] suite issuerKey []
  let g ← (l.grant X (.ofString "a") 5 (.ofString "n") []).1
  .ok (X.verifyChain cap [issuerKey.publicKey], X.verifyReceipt r,
    X.verifyTreeHead sth issuerKey.publicKey,
    MeteringLedger.verifyGrant X g (some (X.bytesToHex issuerKey.publicKey)))

/-- `issued_verifies_iff` under a suite that is active. -/
theorem issued_verifies_iff_active : issuedUnder "PS-5" = .ok (.ok true, true, true, true) := by
  have hactive : "PS-5" ∈ activeSuiteIds := by decide
  have hreturns : (issuedUnder "PS-5").isOk = true := by decide +kernel
  obtain ⟨verdicts, hrun⟩ := Except.exists_of_isOk hreturns
  obtain ⟨cap, hcap, hrest⟩ := Except.bind_eq_ok hrun
  obtain ⟨r, hr, hrest⟩ := Except.bind_eq_ok hrest
  obtain ⟨sth, hsth, hrest⟩ := Except.bind_eq_ok hrest
  obtain ⟨g, hg, hrest⟩ := Except.bind_eq_ok hrest
  obtain ⟨hchain, hreceipt, hhead, hgrant⟩ :=
    issued_verifies_iff symbolicMetering hexCodec_spell.decode
  have hgranted := (hgrant _ _ _ _ _ _ (genuine_issuerKey _) hg).mpr ⟨"PS-5", hactive, rfl⟩
  change MeteringLedger.verifyGrant _ g (some (symbolicMetering.bytesToHex issuerKey.publicKey)) =
    true at hgranted
  rw [hrun, ← Except.ok.inj hrest, hgranted,
    (hchain _ _ _ _ _ _ (genuine_issuerKey _) List.mem_cons_self hcap).mpr hactive,
    (hreceipt _ _ _ _ (genuine_issuerKey _) hr).mpr hactive,
    (hhead _ _ _ _ _ _ (genuine_issuerKey _) hsth).mpr hactive]

/-- **A suite in between**: `PS-5-HQC` is registered as pending and signs with ML-DSA-87. All four
issuers return, and all four verifiers reject what they return. -/
theorem pending_suite_issues : issuedUnder "PS-5-HQC" = .ok (.ok false, false, false, false) := by
  decide +kernel

end Nerion
