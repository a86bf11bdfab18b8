import Nerion.Attest
import Nerion.Issuance
import Nerion.Kernel
import Nerion.Permit
import Nerion.Receipt

/-!
# The node (`planes/src/node.ts`, `kernel/src/replay.ts`)

One admission: the kernel decides, an admitted action gets a permit, and where the tier asks for it
a receipt that is anchored in the transparency log. The log is the only state; everything that can
throw comes before it is written.

* `admission_cases` — what one call does to the log and returns;
* `isPrefix_logAfter` — over a run of calls the log only grows;
* `admissions_anchored` — every admission with a receipt is anchored and nothing else is, and its
  witness is accepted then and its root is consistent with every later one, as long as the log has
  fewer than `2^31` entries.
-/

namespace Nerion

/-! ## What the encoder sees -/

/-- A grant. -/
def CapabilityGrant.toCbor (g : CapabilityGrant) : Cbor := .map (("id", .text g.id) :: grantBody g)

/-- A link of a chain. -/
def CapabilityLink.toCbor (l : CapabilityLink) : Cbor :=
  .map [("grant", l.grant.toCbor), ("suite", .text l.suite),
    ("signerPublicKey", .bytes l.signerPublicKey), ("sig", .bytes l.sig)]

/-- A capability. -/
def Capability.toCbor (c : Capability) : Cbor :=
  .map [("chain", .array (c.chain.map (·.toCbor)))]

/-- The text of an effect. -/
def Effect.text : Effect → String
  | .allow => "allow"
  | .deny => "deny"
  | .transform => "transform"

/-- A decision. -/
def Decision.toCbor (d : Decision) : Cbor :=
  .map [("effect", .text d.effect.text), ("tier", .num d.tier.toNat),
    ("reasons", .array (d.reasons.map .text)), ("obligations", .array (d.obligations.map .text)),
    ("evaluatorVersion", .text d.evaluatorVersion)]

/-- The input of the kernel. -/
def KernelInput.toCbor (i : KernelInput) : Cbor :=
  .map ([("intent", (i.intent.map (·.toCbor)).getD .null),
    ("capabilities", .array (i.capabilities.map (·.toCbor))), ("policy", policyCbor i.policy),
    ("trustedRoots", .array (i.trustedRoots.map .bytes)), ("now", .num i.now),
    ("observedAggregate", .num i.observedAggregate)] ++
    (i.holder.map fun h => ("holder", .text h)).toList ++
    (i.revoked.map fun ids => ("revoked", .array (ids.map .text))).toList)

/-! ## Replay -/

/-- The third-party functions of the node. -/
structure NodeExternals extends PermitExternals where
  /-- `decode` of the CBOR library, on the inputs of the kernel -/
  decodeInput : Bytes → Except JsError KernelInput
  /-- what `hkdf` throws on a key that is not a byte array -/
  keyTypeError : JsError

structure ReplayBundle where
  /-- the encoded input -/
  inputBytes : Bytes
  /-- the evaluator at the time of capture -/
  evaluatorVersion : String

structure ReplayResult where
  decision : Decision
  inputHash : String
  /-- hash of evaluator, input and decision -/
  receiptHash : String

namespace NodeExternals

variable (X : NodeExternals)

/-- `decodeCanonical`, on the inputs of the kernel. -/
def decodeCanonical (bytes : Bytes) : Except JsError KernelInput := do
  let value ← X.decodeInput bytes
  let reencoded ← X.encodeCanonical value.toCbor
  if reencoded ≠ bytes then
    .error (error
      "non-canonical CBOR: input is not the deterministic encoding of its decoded value")
  else .ok value

def buildReplayBundle (input : KernelInput) : Except JsError ReplayBundle := do
  let inputBytes ← X.encodeCanonical input.toCbor
  let evaluatorVersion ← X.evaluatorVersion input.policy
  .ok ⟨inputBytes, evaluatorVersion⟩

/-- The decision of `replay`. -/
def replayDecision (bundle : ReplayBundle) : Decision :=
  match X.decodeCanonical bundle.inputBytes with
  | .ok input =>
    let decision := X.decide input
    if decision.evaluatorVersion ≠ bundle.evaluatorVersion then
      ⟨.deny, .t3, ["replay evaluator-version mismatch (bundle tampered or policy drift)"], [],
        decision.evaluatorVersion⟩
    else decision
  | .error _ =>
    ⟨.deny, .t3, ["replay bundle inputBytes are not canonical CBOR (REPLAY-CANON-001)"], [], ""⟩

def replay (bundle : ReplayBundle) : Except JsError ReplayResult :=
  let inputHash := X.bytesToHex (X.digest bundle.inputBytes)
  let decision := X.replayDecision bundle
  (X.encodeCanonical
    (.array [.text decision.evaluatorVersion, .text inputHash, decision.toCbor])).map fun bytes =>
      ⟨decision, inputHash, X.bytesToHex (X.digest bytes)⟩

end NodeExternals

/-! ## Sessions -/

/-- `Session`; a key that is not a byte array and claims that are not an object are `none`. -/
structure Session where
  sessionId : String
  /-- the secret of the session -/
  sessionKey : Option Bytes
  /-- the attested claims -/
  claims : Option AttestationClaims

/-- `NodeConfig`, without the log. -/
structure NodeConfig where
  suite : String
  policy : Policy
  /-- keys of the trusted authorities -/
  trustedRoots : List Bytes
  /-- the issuer of receipts -/
  issuer : KeyPair
  jurisdiction : String
  /-- how long a permit lasts -/
  permitTtlSeconds : JsNum
  /-- the secret that session keys are derived from -/
  sessionRootSecret : Option Bytes
  /-- whether only sessions of this node are admitted -/
  requireAttestedSession : Bool

namespace NodeExternals

variable (X : NodeExternals)

def deriveSessionKey (rootSecret : Bytes) (claims : AttestationClaims) : Except JsError Bytes :=
  (X.encodeCanonical (.array [.text "polarseek/session-key/v1", claims.toCbor])).map fun info =>
    X.hkdfSha384 rootSecret [] info 48

def establishSession (cfg : NodeConfig) (evidence : Option Evidence) (policy : AppraisalPolicy)
    (sessionId : Option String) : Except JsError Session :=
  match cfg.sessionRootSecret with
  | none => .error (error "establishSession requires NodeConfig.sessionRootSecret")
  | some rootSecret => do
    let appraised ← X.appraise evidence policy none
    match appraised.valid, appraised.claims with
    | true, some claims =>
      let sessionKey ← X.deriveSessionKey rootSecret claims
      .ok ⟨sessionId.getD claims.sessionId, some sessionKey, some claims⟩
    | _, _ =>
      .error (error ("attestation appraisal failed: " ++ "; ".intercalate appraised.reasons))

/-- The freshness part of `checkAttestedSession`. -/
def freshnessReason (claims : AttestationClaims) (now : JsNum) : Option String :=
  if !now.isSafeInteger || !claims.notAfter.isSafeInteger then
    some ("attested session freshness uncheckable: non-safe-integer admit clock or notAfter " ++
      "(ATTEST-EXP-001)")
  else if JsNum.lt claims.notAfter now then
    some ("attested session expired: admit time is past the attestation notAfter " ++
      "(ATTEST-EXP-001)")
  else none

/-- The reason of `checkAttestedSession` to deny, if there is one. -/
def sessionReason (cfg : NodeConfig) (session : Session) (now : JsNum) :
    Except JsError (Option String) :=
  match session.sessionKey, session.claims with
  | some sessionKey, some claims =>
    match cfg.sessionRootSecret with
    | none => .ok (some "requireAttestedSession is set but the node has no sessionRootSecret")
    | some rootSecret =>
      (X.deriveSessionKey rootSecret claims).map fun expected =>
        if !constantTimeEqual sessionKey expected then
          some "session is not bound to a verified attestation (ATTEST-BIND-001)"
        else freshnessReason claims now
  | _, _ => .ok (some "attested session is malformed (missing/invalid sessionKey or claims)")

/-- `checkAttestedSession`: the decision of its denial, if it denies. -/
def checkAttestedSession (cfg : NodeConfig) (session : Session) (now : JsNum) :
    Except JsError (Option Decision) := do
  let reason ← X.sessionReason cfg session now
  match reason with
  | none => .ok none
  | some reason =>
    let evaluatorVersion ← X.evaluatorVersion cfg.policy
    .ok (some ⟨.deny, .t3, [reason], [], evaluatorVersion⟩)

end NodeExternals

/-! ## Admission -/

structure AdmissionRequest where
  /-- the proposed action -/
  intent : ActionIntent
  /-- the candidate capabilities -/
  capabilities : List Capability
  session : Session
  /-- the resource -/
  audience : String
  /-- the time -/
  now : JsNum
  /-- aggregate already consumed -/
  observedAggregate : JsNum
  /-- revoked capability ids -/
  revoked : Option (List String)

structure AdmissionOutcome where
  decision : Decision
  /-- the permit of an admitted action -/
  permit : Option (PermitToken Bytes)
  /-- the receipt, where the tier asks for one -/
  receipt : Option Receipt
  /-- its place in the log -/
  inclusion : Option InclusionWitness
  logRoot : Option Bytes

/-- A call of `admit`: the request and the randomness that the call draws. -/
structure AdmitCall where
  /-- the request -/
  req : AdmissionRequest
  /-- what `randomBytes` gives for the salt, or throws -/
  salt : Except JsError Bytes
  /-- the randomness of the signature -/
  entropy : Bytes

/-- What a call has computed when it comes to the log: the receipt is given with its leaf. -/
structure Prepared where
  decision : Decision
  permit : Option (PermitToken Bytes)
  /-- the receipt and its leaf -/
  receipt : Option (Receipt × Bytes)

/-- The input of the kernel. -/
def AdmissionRequest.kernelInput (req : AdmissionRequest) (cfg : NodeConfig)
    (claims : AttestationClaims) : KernelInput where
  intent := some req.intent
  capabilities := req.capabilities
  policy := cfg.policy
  trustedRoots := cfg.trustedRoots
  now := req.now
  observedAggregate := req.observedAggregate
  holder := some claims.sessionPublicKey
  revoked := req.revoked.filter fun ids => decide (ids.length > 0)

namespace NodeExternals

variable (X : NodeExternals)

/-- The permit of an admitted action. -/
def admitPermit (cfg : NodeConfig) (req : AdmissionRequest) (claims : AttestationClaims)
    (decision : Decision) : Except JsError (PermitToken Bytes) := do
  let actionHash ← X.world.actionHash req.intent
  let exp :=
    if claims.notAfter.isSafeInteger then
      JsNum.mathMin (req.now + cfg.permitTtlSeconds) claims.notAfter
    else req.now
  let permitClaims : PermitClaims :=
    ⟨req.session.sessionId, claims.nonce, req.audience, actionHash, decision.tier.toNat, exp,
      decision.evaluatorVersion, decision.effect.text⟩
  match req.session.sessionKey with
  | some sessionKey => X.issueBoundPermit permitClaims cfg.suite sessionKey
  | none => .error X.keyTypeError

/-- What the receipt is built of. -/
def receiptParams (cfg : NodeConfig) (req : AdmissionRequest) (verdict : DecisionWithAuthorizer)
    (r : ReplayResult) (intentSalt : Bytes) : BuildReceiptParams where
  suite := cfg.suite
  evaluatorVersion := verdict.decision.evaluatorVersion
  effect := verdict.decision.effect.text
  tier := verdict.decision.tier.toNat
  jurisdiction := cfg.jurisdiction
  timestamp := req.now
  intent := req.intent.toCbor
  capability := verdict.authorizingCapability.map (·.toCbor)
  policy := policyCbor cfg.policy
  inputHash := r.inputHash
  decisionHash := r.receiptHash
  issuer := cfg.issuer
  intentSalt := some intentSalt

/-- The receipt of an admitted action, and its leaf. -/
def admitReceipt (cfg : NodeConfig) (call : AdmitCall) (input : KernelInput)
    (verdict : DecisionWithAuthorizer) : Except JsError (Receipt × Bytes) := do
  let bundle ← X.buildReplayBundle input
  let r ← X.replay bundle
  let intentSalt ← call.salt
  let receipt ← X.buildReceipt (receiptParams cfg call.req verdict r intentSalt) [] call.entropy
  let leaf ← X.receiptLeaf receipt
  .ok (receipt, leaf)

/-- The part of `admit` between the session check and the log. -/
def decideAndIssue (cfg : NodeConfig) (call : AdmitCall) : Except JsError Prepared :=
  match call.req.session.claims with
  | none => .error ⟨"TypeError", "Cannot read properties of null (reading 'sessionPublicKey')"⟩
  | some claims =>
    let input := call.req.kernelInput cfg claims
    let verdict := X.decideWithAuthorizer input
    if verdict.decision.effect = .deny then .ok ⟨verdict.decision, none, none⟩
    else do
      let permit ← X.admitPermit cfg call.req claims verdict.decision
      if verdict.decision.obligations.contains "nearline-receipt" then
        let receipt ← X.admitReceipt cfg call input verdict
        .ok ⟨verdict.decision, some permit, some receipt⟩
      else .ok ⟨verdict.decision, some permit, none⟩

/-- The session check of `admit`, where the node asks for it. -/
def sessionDenial (cfg : NodeConfig) (req : AdmissionRequest) : Except JsError (Option Decision) :=
  if cfg.requireAttestedSession then X.checkAttestedSession cfg req.session req.now else .ok none

/-- The part of `admit` that comes before the log. -/
def prepare (cfg : NodeConfig) (call : AdmitCall) : Except JsError Prepared := do
  let denied ← X.sessionDenial cfg call.req
  match denied with
  | some decision => .ok ⟨decision, none, none⟩
  | none => X.decideAndIssue cfg call

/-- `admit`, as a function of the log: what it returns or throws, and the log after it. -/
def admission (cfg : NodeConfig) (call : AdmitCall) (log : TransparencyLog) :
    Except JsError AdmissionOutcome × TransparencyLog :=
  match X.prepare cfg call with
  | .error e => (.error e, log)
  | .ok ⟨decision, permit, none⟩ => (.ok ⟨decision, permit, none, none, none⟩, log)
  | .ok ⟨decision, permit, some (receipt, leaf)⟩ =>
    let (appended, log') := log.append X.digest leaf
    match log'.proveInclusion X.digest appended.index with
    | .error e => (.error e, log')
    | .ok inclusion =>
      (.ok ⟨decision, permit, some receipt, some inclusion, some (log'.root X.digest)⟩, log')

/-- The log after a run of calls. -/
def logAfter (cfg : NodeConfig) (log : TransparencyLog) (calls : List AdmitCall) :
    TransparencyLog :=
  calls.foldl (fun log call => (X.admission cfg call log).2) log

end NodeExternals

/-! ## What one call does -/

/-- The action is admitted, and its receipt is to be anchored at once. -/
def Decision.AsksForReceipt (d : Decision) : Prop :=
  d.effect ≠ .deny ∧ "nearline-receipt" ∈ d.obligations

/-- The receipt is one of the node, and this is its leaf. -/
def NodeExternals.Issues (X : NodeExternals) (cfg : NodeConfig) (receipt : Receipt)
    (leaf : Bytes) : Prop :=
  X.receiptLeaf receipt = .ok leaf ∧ ∃ p drawn entropy, p.suite = cfg.suite ∧
    p.issuer = cfg.issuer ∧ X.buildReceipt p drawn entropy = .ok receipt

/-- A call that anchors a receipt: what it returns and the log after it. -/
structure Anchors (X : NodeExternals) (cfg : NodeConfig) (log log' : TransparencyLog)
    (o : AdmissionOutcome) (receipt : Receipt) (leaf : Bytes) : Prop where
  /-- the decision asks for it -/
  asks : o.decision.AsksForReceipt
  /-- the receipt is returned -/
  returned : o.receipt = some receipt
  /-- it was issued by the node -/
  issued : X.Issues cfg receipt leaf
  /-- the log has its leaf as the last entry -/
  entries : log'.entries = log.entries ++ [leaf]
  /-- the witness is that of the last entry -/
  inclusion : o.inclusion = some ⟨log.size, log'.size, leaf,
    inclusionPath X.digest log'.entries log.size, log'.root X.digest⟩
  /-- the root is that of the log with the entry -/
  logRoot : o.logRoot = some (log'.root X.digest)

namespace NodeExternals

variable {X : NodeExternals} {cfg : NodeConfig} {call : AdmitCall}

theorem issues_admitReceipt {input : KernelInput} {verdict : DecisionWithAuthorizer}
    {receipt : Receipt} {leaf : Bytes}
    (h : X.admitReceipt cfg call input verdict = .ok (receipt, leaf)) :
    X.Issues cfg receipt leaf := by
  obtain ⟨bundle, -, h⟩ := Except.bind_eq_ok h
  obtain ⟨r, -, h⟩ := Except.bind_eq_ok h
  obtain ⟨intentSalt, -, h⟩ := Except.bind_eq_ok h
  obtain ⟨receipt', hreceipt, h⟩ := Except.bind_eq_ok h
  obtain ⟨leaf', hleaf, h⟩ := Except.bind_eq_ok h
  obtain ⟨rfl, rfl⟩ := Prod.mk.inj (Except.ok.inj h)
  exact ⟨hleaf, _, _, _, rfl, rfl, hreceipt⟩

/-- Before the log is reached there is a receipt exactly when the decision asks for one. -/
theorem decideAndIssue_eq_ok {p : Prepared} (h : X.decideAndIssue cfg call = .ok p) :
    (∃ receipt leaf, p.receipt = some (receipt, leaf) ∧ p.decision.AsksForReceipt ∧
      X.Issues cfg receipt leaf) ∨ (p.receipt = none ∧ ¬ p.decision.AsksForReceipt) := by
  rw [decideAndIssue] at h
  split at h
  · cases h
  dsimp only at h
  split at h
  · rename_i hdeny
    obtain rfl := Except.ok.inj h
    exact .inr ⟨rfl, fun hasks => hasks.1 hdeny⟩
  rename_i hadmitted
  obtain ⟨permit, -, h⟩ := Except.bind_eq_ok h
  split at h
  · rename_i hobligation
    obtain ⟨⟨receipt, leaf⟩, hreceipt, h⟩ := Except.bind_eq_ok h
    obtain rfl := Except.ok.inj h
    exact .inl ⟨receipt, leaf, rfl, ⟨hadmitted, List.contains_iff_mem.mp hobligation⟩,
      issues_admitReceipt hreceipt⟩
  · rename_i hobligation
    obtain rfl := Except.ok.inj h
    exact .inr ⟨rfl, fun hasks => hobligation (List.contains_iff_mem.mpr hasks.2)⟩

/-- The session check only denies. -/
theorem sessionDenial_eq_some {req : AdmissionRequest} {decision : Decision}
    (h : X.sessionDenial cfg req = .ok (some decision)) : decision.effect = .deny := by
  rw [sessionDenial] at h
  split at h
  · obtain ⟨reason, -, h⟩ := Except.bind_eq_ok h
    cases reason with
    | none => cases h
    | some reason =>
      obtain ⟨ev, -, h⟩ := Except.bind_eq_ok h
      obtain rfl := Option.some.inj (Except.ok.inj h)
      rfl
  · cases h

theorem prepare_eq_ok {p : Prepared} (h : X.prepare cfg call = .ok p) :
    (∃ receipt leaf, p.receipt = some (receipt, leaf) ∧ p.decision.AsksForReceipt ∧
      X.Issues cfg receipt leaf) ∨ (p.receipt = none ∧ ¬ p.decision.AsksForReceipt) := by
  obtain ⟨denied, hdenied, h⟩ := Except.bind_eq_ok h
  cases denied with
  | none => exact decideAndIssue_eq_ok h
  | some decision =>
    obtain rfl := Except.ok.inj h
    exact .inr ⟨rfl, fun hasks => hasks.1 (sessionDenial_eq_some hdenied)⟩

/-- A call that comes to the log with a receipt does not throw any more. -/
theorem admission_receipt {log : TransparencyLog} {decision : Decision}
    {permit : Option (PermitToken Bytes)} {receipt : Receipt} {leaf : Bytes}
    (h : X.prepare cfg call = .ok ⟨decision, permit, some (receipt, leaf)⟩) :
    X.admission cfg call log =
      let log' : TransparencyLog := ⟨log.entries ++ [leaf]⟩
      (.ok ⟨decision, permit, some receipt, some ⟨log.size, log'.size, leaf,
        inclusionPath X.digest log'.entries log.size, log'.root X.digest⟩,
        some (log'.root X.digest)⟩, log') := by
  have hlast : (log.entries ++ [leaf])[log.size]? = some leaf := by
    rw [TransparencyLog.size, List.getElem?_append_right le_rfl, Nat.sub_self]
    rfl
  have hproof := TransparencyLog.proveInclusion_eq_ok X.digest ⟨log.entries ++ [leaf]⟩ hlast
  rw [admission, h]
  dsimp only [TransparencyLog.append]
  rw [hproof]

/-- **One call** either anchors a receipt that the decision asks for, or leaves the log as it was;
then it has thrown, or returned a decision that asks for none. -/
theorem admission_cases (X : NodeExternals) (cfg : NodeConfig) (call : AdmitCall)
    (log : TransparencyLog) :
    (∃ o receipt leaf, (X.admission cfg call log).1 = .ok o ∧
      Anchors X cfg log (X.admission cfg call log).2 o receipt leaf) ∨
    ((X.admission cfg call log).2 = log ∧ ∀ o, (X.admission cfg call log).1 = .ok o →
      ¬ o.decision.AsksForReceipt ∧ o.receipt = none) := by
  cases hprepare : X.prepare cfg call with
  | error e =>
    have hcall : X.admission cfg call log = (.error e, log) := by rw [admission, hprepare]
    rw [hcall]
    refine .inr ⟨rfl, fun o ho => ?_⟩
    cases ho
  | ok p =>
    obtain ⟨decision, permit, receipt⟩ := p
    rcases prepare_eq_ok hprepare with ⟨receipt, leaf, rfl, hasks, hissued⟩ | ⟨rfl, hasks⟩
    · rw [admission_receipt hprepare]
      exact .inl ⟨_, receipt, leaf, rfl, hasks, rfl, hissued, rfl, rfl, rfl⟩
    · have hcall : X.admission cfg call log = (.ok ⟨decision, permit, none, none, none⟩, log) := by
        rw [admission, hprepare]
      rw [hcall]
      refine .inr ⟨rfl, fun o ho => ?_⟩
      obtain rfl := Except.ok.inj ho
      exact ⟨hasks, rfl⟩

/-- One call keeps every entry in its place. -/
theorem isPrefix_admission (X : NodeExternals) (cfg : NodeConfig) (call : AdmitCall)
    (log : TransparencyLog) : log.entries <+: (X.admission cfg call log).2.entries := by
  rcases admission_cases X cfg call log with ⟨o, receipt, leaf, -, hanchors⟩ | ⟨hlog, -⟩
  · rw [hanchors.entries]
    exact List.prefix_append _ _
  · rw [hlog]

/-- **The log only grows** over a run of calls. -/
theorem isPrefix_logAfter (X : NodeExternals) (cfg : NodeConfig) (log : TransparencyLog)
    (calls : List AdmitCall) : log.entries <+: (X.logAfter cfg log calls).entries := by
  induction calls generalizing log with
  | nil => exact List.prefix_rfl
  | cons call calls ih => exact (isPrefix_admission X cfg call log).trans (ih _)

end NodeExternals

/-! ## What is returned with a receipt -/

section Returned

variable {X : NodeExternals} {cfg : NodeConfig} {log log' : TransparencyLog} {o : AdmissionOutcome}
  {receipt : Receipt} {leaf : Bytes}

theorem Anchors.size_eq (h : Anchors X cfg log log' o receipt leaf) :
    log'.size = log.size + 1 := by
  rw [TransparencyLog.size, h.entries, List.length_append]
  rfl

/-- Receipt, witness and root pass the external check exactly while the log is small enough. -/
theorem Anchors.verifies_iff (h : Anchors X cfg log log' o receipt leaf)
    (hactive : cfg.suite ∈ activeSuiteIds)
    (hkey : cfg.issuer.GenuineFor X.toExternals cfg.suite) {inclusion : InclusionWitness}
    {root : Bytes} (hinclusion : o.inclusion = some inclusion) (hroot : o.logRoot = some root) :
    (∃ v, X.verifyReceiptInclusion X.digest receipt inclusion root cfg.issuer.publicKey = .ok v ∧
      v.ok = true) ↔ log'.size ≤ maxTreeSize := by
  obtain ⟨hleaf, p, drawn, entropy, hsuite, hissuer, hbuild⟩ := h.issued
  obtain rfl := Option.some.inj (hinclusion.symm.trans h.inclusion)
  obtain rfl := Option.some.inj (hroot.symm.trans h.logRoot)
  have hverify : X.verifyReceipt receipt = true := by
    rw [Externals.verifyReceipt_build (by rwa [hsuite, hissuer]) hbuild, hsuite]
    exact List.contains_iff_mem.mpr hactive
  have hsigner : receipt.signerPublicKey = cfg.issuer.publicKey :=
    (Externals.buildReceipt_eq_ok hbuild).2.1.trans (congrArg _ hissuer)
  have hlast : log'.entries[log.size]? = some leaf := by
    rw [h.entries, TransparencyLog.size, List.getElem?_append_right le_rfl, Nat.sub_self]
    rfl
  rw [Externals.verifyReceiptInclusion_ok_iff hleaf, ← log'.checkInclusion_path X.digest hlast]
  exact ⟨fun hall => hall.2.2.2, fun hcheck => ⟨hverify, hsigner, rfl, hcheck⟩⟩

/-- In every later log the root of the receipt is that of a prefix. -/
theorem Anchors.consistent (h : Anchors X cfg log log' o receipt leaf)
    {inclusion : InclusionWitness} {root : Bytes} (hinclusion : o.inclusion = some inclusion)
    (hroot : o.logRoot = some root) {later : TransparencyLog}
    (hlater : log'.entries <+: later.entries) (hsize : later.size ≤ maxTreeSize) :
    ∃ (size : ℕ) (w : ConsistencyWitness), inclusion.size = size ∧
      later.proveConsistency X.digest size = .ok w ∧ checkConsistency X.digest w = true ∧
      w.oldRoot = root := by
  obtain rfl := Option.some.inj (hinclusion.symm.trans h.inclusion)
  obtain rfl := Option.some.inj (hroot.symm.trans h.logRoot)
  obtain ⟨w, hw, hold, -, hcheck⟩ :=
    later.checkConsistency_proveConsistency X.digest hlater.length_le hsize
  refine ⟨log'.size, w, rfl, hw, hcheck, hold.trans ?_⟩
  exact congrArg (merkleRoot X.digest) (List.prefix_iff_eq_take.mp hlater).symm

end Returned

/-- **Admissions are anchored.** In every run of calls on a node with an active suite and a genuine
issuer key, from any log: a call that returns an admission with the obligation appends the leaf of
the receipt that it returns, and every other call, also one that throws, leaves the log as it was.
As long as the log has at most `2^31 - 1` entries, what is returned with a receipt passes the
external check, and in every later state the log proves that it extends the returned root. -/
theorem admissions_anchored (X : NodeExternals) (cfg : NodeConfig)
    (hactive : cfg.suite ∈ activeSuiteIds)
    (hkey : cfg.issuer.GenuineFor X.toExternals cfg.suite) (log₀ : TransparencyLog)
    (before : List AdmitCall) (call : AdmitCall) :
    let log := X.logAfter cfg log₀ before
    let log' := X.logAfter cfg log₀ (before ++ [call])
    let result := (X.admission cfg call log).1
    (∀ o, result = .ok o → o.decision.AsksForReceipt →
      ∃ receipt leaf, o.receipt = some receipt ∧ X.receiptLeaf receipt = .ok leaf ∧
        log'.entries = log.entries ++ [leaf]) ∧
    ((¬ ∃ o, result = .ok o ∧ o.decision.AsksForReceipt) → log' = log) ∧
    ∀ o receipt inclusion root, result = .ok o → o.receipt = some receipt →
      o.inclusion = some inclusion → o.logRoot = some root →
      (log'.size ≤ maxTreeSize →
        ∃ v, X.verifyReceiptInclusion X.digest receipt inclusion root cfg.issuer.publicKey =
          .ok v ∧ v.ok = true) ∧
      ∀ after, (X.logAfter cfg log' after).size ≤ maxTreeSize →
        ∃ (size : ℕ) (w : ConsistencyWitness), inclusion.size = size ∧
          (X.logAfter cfg log' after).proveConsistency X.digest size = .ok w ∧
          checkConsistency X.digest w = true ∧ w.oldRoot = root := by
  intro log log' result
  have hlog' : log' = (X.admission cfg call log).2 := by
    simp only [log', log, NodeExternals.logAfter, List.foldl_append, List.foldl_cons,
      List.foldl_nil]
  rcases NodeExternals.admission_cases X cfg call log with
    ⟨o, receipt, leaf, ho, hanchors⟩ | ⟨hsame, hnone⟩
  · rw [← hlog'] at hanchors
    refine ⟨?_, ?_, ?_⟩
    · intro o' ho' _
      obtain rfl := Except.ok.inj (ho.symm.trans ho')
      exact ⟨receipt, leaf, hanchors.returned, hanchors.issued.1, hanchors.entries⟩
    · intro hno
      exact absurd ⟨o, ho, hanchors.asks⟩ hno
    · intro o' receipt' inclusion root ho' hreceipt hinclusion hroot
      obtain rfl := Except.ok.inj (ho.symm.trans ho')
      obtain rfl := Option.some.inj (hanchors.returned.symm.trans hreceipt)
      refine ⟨(hanchors.verifies_iff hactive hkey hinclusion hroot).mpr, fun after hsize => ?_⟩
      exact hanchors.consistent hinclusion hroot
        (NodeExternals.isPrefix_logAfter X cfg log' after) hsize
  · refine ⟨?_, fun _ => hlog'.trans hsame, ?_⟩
    · intro o ho hasks
      exact absurd hasks (hnone o ho).1
    · intro o receipt inclusion root ho hreceipt
      rw [(hnone o ho).2] at hreceipt
      cases hreceipt

/-! ## A node that admits one action again and again -/

/-- The session of the requests. -/
def deskSession : Session :=
  ⟨"s", some [7], some ⟨"software-dev", "s", "aa", "n", 100, none⟩⟩

/-- The symbolic externals with a short hash. -/
def deskHashing : Externals :=
  { symbolicExternals.toExternals with digest := fun b => b.take 2 }

/-- A capability of the holder of the session. -/
def deskCapability : Capability :=
  valueOr ⟨[]⟩ (deskHashing.issueRoot ⟨"aa", ["pay"], none, none, none, 2, 0, 100, false⟩ "PS-5"
    issuerKey [])

/-- A node whose policy asks for a receipt for every action. -/
def deskConfig : NodeConfig :=
  ⟨"PS-5", ⟨"1", [], [], [], .t2⟩, [issuerKey.publicKey], issuerKey, "EU", 30, none, false⟩

/-- The call. -/
def deskCall : AdmitCall :=
  ⟨⟨⟨⟨"pay", "acct", none, none⟩, none⟩, [deskCapability], deskSession, "vault", 20, 0, none⟩,
    .ok [1], []⟩

/-- The externals of the node. -/
def deskExternals : NodeExternals where
  toExternals := deskHashing
  hmacSha384 key message := key ++ message
  hkdfSha384 ikm _ info length := (ikm ++ info).take length
  decodeCbor _ := .error (error "unexpected end of input")
  decodeInput b :=
    let input := deskCall.req.kernelInput deskConfig ⟨"software-dev", "s", "aa", "n", 100, none⟩
    if b = cborCode input.toCbor then .ok input else .error (error "unexpected end of input")
  keyTypeError := ⟨"TypeError", "expected Uint8Array"⟩

theorem genuine_desk : deskConfig.issuer.GenuineFor deskExternals.toExternals deskConfig.suite :=
  genuine_issuerKey "PS-5"

theorem exists_prepared : ∃ decision permit receipt leaf,
    deskExternals.prepare deskConfig deskCall = .ok ⟨decision, permit, some (receipt, leaf)⟩ := by
  have hrun : (deskExternals.prepare deskConfig deskCall).toOption.map (·.receipt.isSome) =
      some true := by decide +kernel
  cases hprepare : deskExternals.prepare deskConfig deskCall with
  | error e =>
    rw [hprepare] at hrun
    cases hrun
  | ok p =>
    rw [hprepare] at hrun
    obtain ⟨decision, permit, receipt⟩ := p
    obtain ⟨⟨receipt, leaf⟩, rfl⟩ := Option.isSome_iff_exists.mp (Option.some.inj hrun)
    exact ⟨decision, permit, receipt, leaf, rfl⟩

/-- A call that anchors a receipt does so each time. -/
theorem logAfter_replicate {X : NodeExternals} {cfg : NodeConfig} {call : AdmitCall}
    {decision : Decision} {permit : Option (PermitToken Bytes)} {receipt : Receipt} {leaf : Bytes}
    (h : X.prepare cfg call = .ok ⟨decision, permit, some (receipt, leaf)⟩) (n : ℕ)
    (log : TransparencyLog) :
    (X.logAfter cfg log (List.replicate n call)).size = log.size + n := by
  induction n generalizing log with
  | zero => rfl
  | succ n ih =>
    rw [List.replicate_succ, NodeExternals.logAfter, List.foldl_cons]
    refine (ih _).trans ?_
    rw [NodeExternals.admission_receipt h, TransparencyLog.size, List.length_append]
    change log.size + 1 + n = log.size + (n + 1)
    omega

/-- The outcome of the call after `n` others, and how large the log is with it. -/
theorem desk_anchors (n : ℕ) : ∃ o receipt leaf inclusion root,
    (deskExternals.admission deskConfig deskCall
      (deskExternals.logAfter deskConfig .empty (List.replicate n deskCall))).1 = .ok o ∧
    o.receipt = some receipt ∧ o.inclusion = some inclusion ∧ o.logRoot = some root ∧
    Anchors deskExternals deskConfig
      (deskExternals.logAfter deskConfig .empty (List.replicate n deskCall))
      (deskExternals.admission deskConfig deskCall
        (deskExternals.logAfter deskConfig .empty (List.replicate n deskCall))).2 o receipt leaf ∧
    (deskExternals.admission deskConfig deskCall
      (deskExternals.logAfter deskConfig .empty (List.replicate n deskCall))).2.size = n + 1 := by
  obtain ⟨decision, permit, receipt, leaf, hprepare⟩ := exists_prepared
  have hsize := logAfter_replicate hprepare n .empty
  generalize deskExternals.logAfter deskConfig .empty (List.replicate n deskCall) = log at hsize ⊢
  rcases NodeExternals.admission_cases deskExternals deskConfig deskCall log with
    ⟨o, receipt', leaf', ho, hanchors⟩ | ⟨hsame, -⟩
  · refine ⟨o, receipt', leaf', _, _, ho, hanchors.returned, hanchors.inclusion, hanchors.logRoot,
      hanchors, ?_⟩
    rw [hanchors.size_eq, hsize]
    exact congrArg (· + 1) (Nat.zero_add n)
  · rw [NodeExternals.admission_receipt hprepare] at hsame
    have hlength := congrArg TransparencyLog.size hsame
    rw [TransparencyLog.size, List.length_append] at hlength
    exact absurd hlength (Nat.succ_ne_self _)

/-- The second of two admissions passes the external check. -/
theorem admissions_anchored_desk : ∃ o receipt inclusion root,
    (deskExternals.admission deskConfig deskCall
      (deskExternals.logAfter deskConfig .empty [deskCall])).1 = .ok o ∧
    o.receipt = some receipt ∧ o.inclusion = some inclusion ∧ o.logRoot = some root ∧
    ∃ v, deskExternals.verifyReceiptInclusion deskExternals.digest receipt inclusion root
      issuerKey.publicKey = .ok v ∧ v.ok = true := by
  obtain ⟨o, receipt, leaf, inclusion, root, ho, hreceipt, hinclusion, hroot, -, hsize⟩ :=
    desk_anchors 1
  obtain ⟨-, -, hall⟩ := admissions_anchored deskExternals deskConfig (by decide) genuine_desk
    .empty [deskCall] deskCall
  refine ⟨o, receipt, inclusion, root, ho, hreceipt, hinclusion, hroot, ?_⟩
  refine (hall o receipt inclusion root ho hreceipt hinclusion hroot).1 ?_
  exact hsize.le.trans (by decide)

/-- **The size of the log.** After `2^31 - 1` admissions the next one is anchored too, but the
external check rejects its witness: the verifier takes no tree that large. -/
theorem late_receipt_rejected : ∃ o receipt inclusion root,
    (deskExternals.admission deskConfig deskCall
      (deskExternals.logAfter deskConfig .empty (List.replicate (2 ^ 31 - 1) deskCall))).1 =
        .ok o ∧
    o.receipt = some receipt ∧ o.inclusion = some inclusion ∧ o.logRoot = some root ∧
    ¬ ∃ v, deskExternals.verifyReceiptInclusion deskExternals.digest receipt inclusion root
      issuerKey.publicKey = .ok v ∧ v.ok = true := by
  obtain ⟨o, receipt, leaf, inclusion, root, ho, hreceipt, hinclusion, hroot, hanchors, hsize⟩ :=
    desk_anchors (2 ^ 31 - 1)
  refine ⟨o, receipt, inclusion, root, ho, hreceipt, hinclusion, hroot, fun hverified => ?_⟩
  have hle := (hanchors.verifies_iff (by decide) genuine_desk hinclusion hroot).mp hverified
  rw [hsize, maxTreeSize] at hle
  omega

end Nerion
