import Nerion.Node

/-!
# Guarded tools (`sdks/ts/src/client.ts`, `sdks/ts/src/mcp.ts`)

An agent's tool is wrapped: the call is mapped to an intent, the node admits it, the permit is
verified again as the resource does it, the obligations of the decision have to be discharged, and
only then the handler runs. The log of the node is the state; the mapping and the handler are the
integrator's, so what they return or throw is given.

* `guardTool_ran_iff` — when the handler runs;
* `checkPermit_issued` — a permit that the node has just issued passes at the resource;
* `guarded_tool` — over any run of calls the handler runs exactly for the calls that may run, with
  the receipt in the log.
-/

namespace Nerion

structure GuardContext where
  /-- the candidate capabilities -/
  capabilities : List Capability
  session : Session
  /-- the resource -/
  audience : String
  /-- the time -/
  now : JsNum
  /-- aggregate already consumed, if given -/
  observedAggregate : Option JsNum
  /-- revoked capability ids, if given -/
  revoked : Option (List String)
  /-- the key of a resource that does not hold the session's, if given -/
  audienceKey : Option Bytes

structure GuardedResult (R : Type) where
  /-- whether the handler ran -/
  allowed : Bool
  /-- what it returned -/
  result : Option R
  decision : Decision
  /-- the receipt, where the tier asks for one -/
  receipt : Option Receipt
  /-- why it did not run -/
  reasons : List String

/-- What the integrator gives to `guardTool`. -/
structure GuardedTool (A : Type) where
  /-- the intent of a call, or what `mapIntent` throws; `none` is a value that is not an `Error` -/
  mapIntent : String → A → Except (Option JsError) ActionIntent
  /-- the obligations that are discharged elsewhere -/
  discharged : List String

/-- A call of the guarded tool, with the randomness that the node draws and what the handler would
return or throw. -/
structure ToolCall (A R : Type) where
  toolName : String
  /-- its arguments -/
  args : A
  /-- the context -/
  ctx : GuardContext
  /-- what `randomBytes` gives for the salt of a receipt -/
  salt : Except JsError Bytes
  /-- the randomness of its signature -/
  entropy : Bytes
  /-- the handler's part -/
  handled : Except JsError R

/-- What a call comes to. -/
structure ToolReply (R : Type) where
  /-- what the promise is settled with -/
  reply : Except JsError (GuardedResult R)
  /-- whether the handler was run -/
  ran : Bool
  /-- the log of the node after it -/
  log : TransparencyLog

/-- A reply that says whether the handler ran. -/
def ToolReply.Truthful {R : Type} (t : ToolReply R) : Prop :=
  ∀ r, t.reply = .ok r → r.allowed = t.ran ∧ r.result.isSome = t.ran

/-- The request that `guard` makes of the node. -/
def GuardContext.request (ctx : GuardContext) (intent : ActionIntent) : AdmissionRequest :=
  ⟨intent, ctx.capabilities, ctx.session, ctx.audience, ctx.now, ctx.observedAggregate.getD 0,
    ctx.revoked.filter fun ids => decide (ids.length > 0)⟩

def isDischarged (discharged : List String) (receipt : Option Receipt) (o : String) : Bool :=
  if o = "nearline-receipt" then receipt.isSome
  else o == "session-attestation" || discharged.contains o

namespace NodeExternals

variable (X : NodeExternals) {A R : Type}

/-- `NerionClient.guard`. -/
def guard (cfg : NodeConfig) (intent : ActionIntent) (ctx : GuardContext)
    (salt : Except JsError Bytes) (entropy : Bytes) (log : TransparencyLog) :
    Except JsError AdmissionOutcome × TransparencyLog :=
  X.admission cfg ⟨ctx.request intent, salt, entropy⟩ log

/-- The key that `checkPermit` verifies under. -/
def resourceKey (ctx : GuardContext) : Except JsError Bytes :=
  match ctx.audienceKey, ctx.session.sessionKey with
  | some audienceKey, _ => .ok audienceKey
  | none, some sessionKey => X.deriveAudiencePermitKey sessionKey ctx.audience
  | none, none => .error X.keyTypeError

/-- `NerionClient.checkPermit`. -/
def checkPermit (outcome : AdmissionOutcome) (ctx : GuardContext) (intent : ActionIntent) :
    Except JsError Bool :=
  match outcome.permit with
  | none => .ok false
  | some permit => do
    let audienceKey ← X.resourceKey ctx
    let verdict ← X.world.verifyPermitForAction permit audienceKey
      ⟨ctx.audience, intent, ctx.now, some ctx.session.sessionId, none⟩
    .ok verdict.ok

/-- A reply without a run of the handler. -/
def refusal (decision : Decision) (receipt : Option Receipt) (reasons : List String)
    (log : TransparencyLog) : ToolReply R :=
  ⟨.ok ⟨false, none, decision, receipt, reasons⟩, false, log⟩

/-- The part of `guardTool` after the admission. -/
def runHandler (tool : GuardedTool A) (call : ToolCall A R) (intent : ActionIntent)
    (outcome : AdmissionOutcome) (log : TransparencyLog) : ToolReply R :=
  let decision := outcome.decision
  if decision.effect = .deny then refusal decision outcome.receipt decision.reasons log
  else if decision.effect ≠ .allow then
    refusal decision outcome.receipt ["effect \"" ++ decision.effect.text ++
      "\" requires the transform obligation to be applied before execution; handler not run"] log
  else
    match X.checkPermit outcome call.ctx intent with
    | .error e => ⟨.error e, false, log⟩
    | .ok false =>
      refusal decision outcome.receipt ["permit failed resource-side verification"] log
    | .ok true =>
      let undischarged := decision.obligations.filter fun o =>
        !isDischarged tool.discharged outcome.receipt o
      if undischarged.length > 0 then
        refusal decision outcome.receipt ["decision requires obligation(s) [" ++
          ", ".intercalate undischarged ++ "] to be discharged before execution (THREAT_MODEL " ++
          "M-P2-1); the reference guard has no discharge mechanism, so the handler was NOT run"] log
      else
        ⟨call.handled.map fun r => ⟨true, some r, decision, outcome.receipt, []⟩, true, log⟩

/-- The function that `guardTool` returns. -/
def guardTool (cfg : NodeConfig) (tool : GuardedTool A) (call : ToolCall A R)
    (log : TransparencyLog) : ToolReply R :=
  match tool.mapIntent call.toolName call.args with
  | .error thrown =>
    let reasons := ["intent mapping / arg validation failed: " ++
      (thrown.map (·.message)).getD "error"]
    refusal ⟨.deny, .t3, reasons, [], ""⟩ none reasons log
  | .ok intent =>
    match X.guard cfg intent call.ctx call.salt call.entropy log with
    | (.error e, log') => ⟨.error e, false, log'⟩
    | (.ok outcome, log') => X.runHandler tool call intent outcome log'

/-- The log after a run of calls. -/
def logAfterTools (cfg : NodeConfig) (tool : GuardedTool A) (log : TransparencyLog)
    (calls : List (ToolCall A R)) : TransparencyLog :=
  calls.foldl (fun log call => (X.guardTool cfg tool call log).log) log

variable {X} {cfg : NodeConfig} {tool : GuardedTool A} {call : ToolCall A R}
  {log : TransparencyLog}

/-! ## When the handler runs -/

/-- What a call has passed when the handler runs. -/
structure Cleared (X : NodeExternals) (cfg : NodeConfig) (tool : GuardedTool A)
    (call : ToolCall A R) (log log' : TransparencyLog) (intent : ActionIntent)
    (outcome : AdmissionOutcome) : Prop where
  /-- the call has an intent -/
  mapped : tool.mapIntent call.toolName call.args = .ok intent
  /-- the node has let it through -/
  admitted : X.guard cfg intent call.ctx call.salt call.entropy log = (.ok outcome, log')
  /-- as it is -/
  allowed : outcome.decision.effect = .allow
  /-- the permit passes at the resource -/
  permitted : X.checkPermit outcome call.ctx intent = .ok true
  /-- no obligation is left -/
  discharged : ∀ o ∈ outcome.decision.obligations,
    isDischarged tool.discharged outcome.receipt o = true

theorem runHandler_cleared {intent : ActionIntent} {outcome : AdmissionOutcome}
    (hallowed : outcome.decision.effect = .allow)
    (hpermit : X.checkPermit outcome call.ctx intent = .ok true)
    (hdischarged : ∀ o ∈ outcome.decision.obligations,
      isDischarged tool.discharged outcome.receipt o = true) :
    X.runHandler tool call intent outcome log = ⟨call.handled.map fun r =>
      ⟨true, some r, outcome.decision, outcome.receipt, []⟩, true, log⟩ := by
  have hnil : (outcome.decision.obligations.filter fun o =>
      !isDischarged tool.discharged outcome.receipt o) = [] := by
    refine List.filter_eq_nil_iff.mpr fun o ho => ?_
    rw [hdischarged o ho]
    exact Bool.false_ne_true
  rw [runHandler]
  dsimp only
  rw [hallowed, if_neg (by decide), if_neg (by decide), hpermit]
  dsimp only
  rw [hnil, if_neg (by decide)]

theorem cleared_of_runHandler {intent : ActionIntent} {outcome : AdmissionOutcome}
    (h : (X.runHandler tool call intent outcome log).ran = true) :
    outcome.decision.effect = .allow ∧ X.checkPermit outcome call.ctx intent = .ok true ∧
      ∀ o ∈ outcome.decision.obligations,
        isDischarged tool.discharged outcome.receipt o = true := by
  rw [runHandler] at h
  dsimp only at h
  split at h
  · cases h
  split at h
  · cases h
  rename_i hallow
  split at h
  · cases h
  · cases h
  rename_i hpermit
  split at h
  · cases h
  rename_i hnone
  refine ⟨not_not.mp hallow, hpermit, fun o ho => ?_⟩
  have hnil := List.length_eq_zero_iff.mp (Nat.le_zero.mp (not_lt.mp hnone))
  have hout := List.filter_eq_nil_iff.mp hnil o ho
  rwa [Bool.not_eq_true', Bool.not_eq_false] at hout

/-- **The handler runs exactly for the calls that are cleared.** -/
theorem guardTool_ran_iff : (X.guardTool cfg tool call log).ran = true ↔
    ∃ intent outcome log', Cleared X cfg tool call log log' intent outcome := by
  constructor
  · intro h
    rw [guardTool] at h
    split at h
    · cases h
    rename_i intent hmapped
    split at h
    · cases h
    rename_i outcome log' hadmitted
    obtain ⟨hallowed, hpermit, hdischarged⟩ := cleared_of_runHandler h
    exact ⟨intent, outcome, log', hmapped, hadmitted, hallowed, hpermit, hdischarged⟩
  · rintro ⟨intent, outcome, log', h⟩
    rw [guardTool, h.mapped]
    dsimp only
    rw [h.admitted]
    dsimp only
    rw [runHandler_cleared h.allowed h.permitted h.discharged]

/-- A call that is cleared is answered by the handler. -/
theorem guardTool_cleared {intent : ActionIntent} {outcome : AdmissionOutcome}
    {log' : TransparencyLog} (h : Cleared X cfg tool call log log' intent outcome) :
    X.guardTool cfg tool call log = ⟨call.handled.map fun r =>
      ⟨true, some r, outcome.decision, outcome.receipt, []⟩, true, log'⟩ := by
  rw [guardTool, h.mapped]
  dsimp only
  rw [h.admitted]
  exact runHandler_cleared h.allowed h.permitted h.discharged

theorem truthful_refusal (decision : Decision) (receipt : Option Receipt) (reasons : List String)
    (log : TransparencyLog) :
    (refusal decision receipt reasons log : ToolReply R).Truthful := by
  intro r hr
  cases hr
  exact ⟨rfl, rfl⟩

theorem truthful_error (e : JsError) (log : TransparencyLog) :
    (⟨.error e, false, log⟩ : ToolReply R).Truthful := by
  intro r hr
  cases hr

/-- **No reply claims a run that was none**, nor hides one. -/
theorem truthful_guardTool (X : NodeExternals) (cfg : NodeConfig) (tool : GuardedTool A)
    (call : ToolCall A R) (log : TransparencyLog) :
    (X.guardTool cfg tool call log).Truthful := by
  rw [guardTool]
  split
  · exact truthful_refusal _ _ _ _
  split
  · exact truthful_error _ _
  rw [runHandler]
  dsimp only
  split
  · exact truthful_refusal _ _ _ _
  split
  · exact truthful_refusal _ _ _ _
  split
  · exact truthful_error _ _
  · exact truthful_refusal _ _ _ _
  split
  · exact truthful_refusal _ _ _ _
  · intro r hr
    cases hhandled : call.handled with
    | error e =>
      rw [hhandled] at hr
      cases hr
    | ok value =>
      rw [hhandled] at hr
      cases hr
      exact ⟨rfl, rfl⟩

/-! ## What an admission has passed -/

section Admitted

variable {admitCall : AdmitCall} {outcome : AdmissionOutcome} {log' : TransparencyLog}

/-- What `admit` returns was prepared before the log was written. -/
theorem admission_eq_ok (h : X.admission cfg admitCall log = (.ok outcome, log')) :
    ∃ receipt, X.prepare cfg admitCall = .ok ⟨outcome.decision, outcome.permit, receipt⟩ ∧
      outcome.receipt = receipt.map Prod.fst := by
  cases hprepare : X.prepare cfg admitCall with
  | error e =>
    rw [admission, hprepare] at h
    cases h
  | ok p =>
    obtain ⟨decision, permit, _ | ⟨receipt, leaf⟩⟩ := p
    · rw [admission, hprepare] at h
      cases h
      exact ⟨none, rfl, rfl⟩
    · rw [admission_receipt hprepare] at h
      cases h
      exact ⟨some (receipt, leaf), rfl, rfl⟩

/-- After the session check the decision is the kernel's, and an admitted action has a permit of
the session. -/
theorem decideAndIssue_decided {p : Prepared} (h : X.decideAndIssue cfg admitCall = .ok p) :
    ∃ claims, admitCall.req.session.claims = some claims ∧
      p.decision = X.decide (admitCall.req.kernelInput cfg claims) ∧
      (p.decision.effect ≠ .deny → ∃ permit, p.permit = some permit ∧
        X.admitPermit cfg admitCall.req claims p.decision = .ok permit) := by
  rw [decideAndIssue] at h
  split at h
  · cases h
  rename_i claims hclaims
  refine ⟨claims, hclaims, ?_⟩
  dsimp only at h
  split at h
  · rename_i hdeny
    cases h
    exact ⟨rfl, absurd hdeny⟩
  obtain ⟨permit, hpermit, h⟩ := Except.bind_eq_ok h
  split at h
  · obtain ⟨receipt, -, h⟩ := Except.bind_eq_ok h
    cases h
    exact ⟨rfl, fun _ => ⟨permit, rfl, hpermit⟩⟩
  · cases h
    exact ⟨rfl, fun _ => ⟨permit, rfl, hpermit⟩⟩

/-- A call that is not denied has passed the session check. -/
theorem prepare_admitted {p : Prepared} (h : X.prepare cfg admitCall = .ok p)
    (hne : p.decision.effect ≠ .deny) :
    X.sessionDenial cfg admitCall.req = .ok none ∧ X.decideAndIssue cfg admitCall = .ok p := by
  obtain ⟨denied, hdenied, h⟩ := Except.bind_eq_ok h
  cases denied with
  | none => exact ⟨hdenied, h⟩
  | some decision =>
    cases h
    exact absurd (sessionDenial_eq_some hdenied) hne

/-- What is prepared is returned. -/
theorem exists_admission {p : Prepared} (h : X.prepare cfg admitCall = .ok p)
    (log : TransparencyLog) :
    ∃ outcome log', X.admission cfg admitCall log = (.ok outcome, log') ∧
      outcome.decision = p.decision ∧ outcome.permit = p.permit := by
  obtain ⟨decision, permit, _ | ⟨receipt, leaf⟩⟩ := p
  · refine ⟨⟨decision, permit, none, none, none⟩, log, ?_, rfl, rfl⟩
    rw [admission, h]
  · exact ⟨_, _, admission_receipt h, rfl, rfl⟩

end Admitted

end NodeExternals

/-! ## What the kernel's allowance says -/

section Kernel

variable {X : Externals} {input : KernelInput}

/-- The kernel denies where the policy cannot be encoded. -/
theorem exists_evaluatorVersion (h : (X.decide input).effect ≠ .deny) :
    ∃ ev, X.evaluatorVersion input.policy = .ok ev := by
  cases hev : X.evaluatorVersion input.policy with
  | ok ev => exact ⟨ev, rfl⟩
  | error e =>
    refine absurd ?_ h
    rw [Externals.decide, Externals.decideWithAuthorizer]
    split
    · rfl
    · rw [Externals.decideCore, hev]
      rfl

/-- A decision that does not deny: the policy says whether the action is transformed, and the tier
what is to be done. -/
theorem decide_admitted {intent : ActionIntent} (hintent : input.intent = some intent)
    (h : (X.decide input).effect ≠ .deny) :
    (X.decide input).effect =
      (if actionInList intent.type input.policy.transformActions then .transform else .allow) ∧
    (X.decide input).obligations =
      obligationsForTier (tierOf intent.toGovernedIntent input.policy) := by
  obtain ⟨ev, hev⟩ := exists_evaluatorVersion h
  rw [Externals.decide, decideWithAuthorizer_eq hintent hev] at h ⊢
  obtain ⟨hcanonical, hdeny, hres⟩ := verdict_ne_deny_iff.mp h
  rw [verdict, hcanonical, hdeny, hres]
  exact ⟨rfl, rfl⟩

/-- **An allowance** is for an admissible input, of an action that the policy does not
transform. -/
theorem decide_allow_iff {intent : ActionIntent} (hintent : input.intent = some intent) :
    (X.decide input).effect = .allow ↔
      (∃ ev, X.evaluatorVersion input.policy = .ok ev) ∧ Admissible X input intent ∧
      actionInList intent.type input.policy.transformActions = false := by
  constructor
  · intro h
    have hne : (X.decide input).effect ≠ .deny := by
      rw [h]
      decide
    obtain ⟨ev, hev⟩ := exists_evaluatorVersion hne
    obtain ⟨intent', hadmissible⟩ := (decide_ne_deny_iff hev).mp hne
    obtain rfl := Option.some.inj (hintent.symm.trans hadmissible.intent_eq)
    refine ⟨⟨ev, hev⟩, hadmissible, Bool.eq_false_iff.mpr fun htransform => ?_⟩
    rw [(decide_admitted hintent hne).1, if_pos htransform] at h
    cases h
  · rintro ⟨⟨ev, hev⟩, hadmissible, htransform⟩
    rw [(decide_admitted hintent ((decide_ne_deny_iff hev).mpr ⟨intent, hadmissible⟩)).1,
      htransform, if_neg Bool.false_ne_true]

end Kernel

/-! ## The permit of an admission -/

/-- The claims with their texts normalised. -/
def PermitClaims.normalize (norm : String → String) (c : PermitClaims) : PermitClaims where
  sessionId := norm c.sessionId
  nonce := norm c.nonce
  audience := norm c.audience
  actionHash := norm c.actionHash
  tier := c.tier
  exp := c.exp
  evaluator := norm c.evaluator
  effect := norm c.effect

/-- How the claims of a permit are read back: the encoder normalises their texts, of which some are
normal already. -/
structure NodeExternals.ReadsClaims (X : NodeExternals) (norm : String → String) : Prop where
  /-- claims with an expiry that is a safe integer are read by their fields -/
  reads : ∀ (claims : PermitClaims) (body : Bytes), claims.exp.isSafeInteger = true →
    X.encodeCanonical (JsData.toCbor claims.toData) = .ok body →
    ∃ data, X.decodeCbor body = .ok data ∧
      ∀ key, data.get key = (claims.normalize norm).toData.get key
  /-- hexadecimal texts are normal -/
  hex : ∀ b, norm (X.bytesToHex b) = X.bytesToHex b
  /-- the effect of an allowance is normal -/
  allow : norm "allow" = "allow"

/-- The checks of claims that were read by their fields. -/
theorem claimReasons_toData {B : Type} (W : PermitWorld B) {data : JsData B} {claims : PermitClaims}
    (hdata : ∀ key, data.get key = (claims.toData : JsData B).get key) {hash : String}
    {check : PermitCheck} :
    W.claimReasons data hash check = [] ↔
      claims.audience = check.audience ∧ claims.actionHash = hash ∧
      JsData.lasts (some (.num claims.exp : JsData B)) check.now = true ∧
      (∀ id ∈ check.sessionId, claims.sessionId = id) ∧
      claims.effect = check.expectedEffect.getD "allow" := by
  have haudience : data.get "audience" = some (.text claims.audience) := hdata _
  have haction : data.get "actionHash" = some (.text claims.actionHash) := hdata _
  have hexp : data.get "exp" = some (.num claims.exp) := hdata _
  have hsession : data.get "sessionId" = some (.text claims.sessionId) := hdata _
  have heffect : data.get "effect" = some (.text claims.effect) := hdata _
  rw [PermitWorld.claimReasons, haudience, haction, hexp, hsession, heffect]
  cases check.sessionId with
  | none => simp [reasonIf_eq_nil, JsData.isText]
  | some id => simp [reasonIf_eq_nil, JsData.isText]

/-- A finite number is an expiry that lasts until it has passed. -/
theorem lasts_fin {m : ℚ} {t : ℕ} :
    JsData.lasts (some (.num (.fin m) : JsData Bytes)) t = true ↔
      JsNum.lt (.fin m) t = false := by
  change JsNum.le t (.fin m) = true ↔ _
  rw [JsNum.natCast_def, JsNum.le_fin, Bool.eq_false_iff, Ne, JsNum.lt_fin, not_lt]

/-- When the permit of an admission lasts at the time it is issued: also where the end of the
attestation is no safe integer, since it then ends at that time. -/
theorem lasts_admission {notAfter : JsNum} {t d : ℕ} (hrange : t + d < 2 ^ 53) :
    JsData.lasts (some (.num (if notAfter.isSafeInteger then
      JsNum.mathMin ((t : JsNum) + (d : JsNum)) notAfter else t) : JsData Bytes)) t = true ↔
      (notAfter.isSafeInteger = true → JsNum.lt notAfter t = false) := by
  cases hsafe : notAfter.isSafeInteger with
  | false =>
    refine iff_of_true ?_ (fun h => absurd h Bool.false_ne_true)
    exact lasts_fin.mpr (Bool.eq_false_iff.mpr fun h => JsNum.lt_asymm h h)
  | true =>
    have hne : ((t + d : ℕ) : JsNum) ≠ .nan := JsNum.noConfusion
    have hne' := JsNum.ne_nan_of_isSafeInteger hsafe
    have hlater : JsNum.lt ((t + d : ℕ) : JsNum) t = false := by
      rw [JsNum.lt_natCast]
      exact decide_eq_false (Nat.not_lt.mpr (Nat.le_add_right t d))
    obtain ⟨m, hm⟩ : ∃ m, JsNum.mathMin ((t + d : ℕ) : JsNum) notAfter = .fin m := by
      rcases JsNum.mathMin_mem hne hne' with hmin | hmin
      · exact ⟨_, hmin⟩
      · cases notAfter with
        | fin q => exact ⟨q, hmin⟩
        | nan => cases hsafe
        | posInf => cases hsafe
        | negInf => cases hsafe
    rw [if_pos rfl, JsNum.add_natCast hrange.le, hm, lasts_fin, ← hm,
      JsNum.mathMin_lt_eq_false hne hne']
    exact ⟨fun h _ => h.2, fun h => ⟨hlater, h rfl⟩⟩

theorem isSafeInteger_admission {notAfter : JsNum} {t d : ℕ} (hrange : t + d < 2 ^ 53) :
    (if notAfter.isSafeInteger then JsNum.mathMin ((t : JsNum) + (d : JsNum)) notAfter
      else t).isSafeInteger = true := by
  split
  · rename_i hsafe
    have hne : ((t + d : ℕ) : JsNum) ≠ .nan := JsNum.noConfusion
    rw [JsNum.add_natCast hrange.le]
    rcases JsNum.mathMin_mem hne (JsNum.ne_nan_of_isSafeInteger hsafe) with hmin | hmin
    · rw [hmin]
      exact JsNum.isSafeInteger_natCast.mpr hrange
    · rwa [hmin]
  · exact JsNum.isSafeInteger_natCast.mpr (by omega)

namespace NodeExternals

variable {X : NodeExternals} {norm : String → String} {cfg : NodeConfig} {ctx : GuardContext}
  {intent : ActionIntent} {claims : AttestationClaims} {outcome : AdmissionOutcome}
  {permit : PermitToken Bytes}

/-- The token of an issuer is genuine at the resource with its key. -/
theorem verifyPermit_issued {data : JsData Bytes} {suite : String} {key : Bytes}
    (h : X.world.issuePermit data suite key = .ok permit) :
    X.world.verifyPermit permit key = .ok true := by
  rw [PermitWorld.verifyPermit, PermitWorld.permitMac_issued h]
  exact congrArg Except.ok (constantTimeEqual_iff.mpr rfl)

theorem readPermit_issued (hreads : X.ReadsClaims norm) {claims : PermitClaims} {suite : String}
    {key : Bytes} (hexp : claims.exp.isSafeInteger = true)
    (h : X.world.issuePermit claims.toData suite key = .ok permit) :
    ∃ data, X.world.readPermit permit = .ok data ∧
      ∀ key, data.get key = (claims.normalize norm).toData.get key := by
  obtain ⟨body, hbody, h⟩ := Except.bind_eq_ok h
  obtain ⟨mac, -, h⟩ := Except.bind_eq_ok h
  obtain rfl := Except.ok.inj h
  exact hreads.reads claims body hexp hbody

/-- **A permit that the node has just issued** passes at the resource exactly when it is within the
size bounds, the attestation of the session has not run out, and the names of the resource and of
the session are normal. -/
theorem checkPermit_issued (hreads : X.ReadsClaims norm) (haudience : ctx.audienceKey = none)
    {t d : ℕ} (hnow : ctx.now = t) (httl : cfg.permitTtlSeconds = d) (hrange : t + d < 2 ^ 53)
    (hallow : outcome.decision.effect = .allow) (hsome : outcome.permit = some permit)
    (hpermit : X.admitPermit cfg (ctx.request intent) claims outcome.decision = .ok permit) :
    X.checkPermit outcome ctx intent = .ok true ↔
      X.world.tooLarge permit.suite permit.body = false ∧
      (claims.notAfter.isSafeInteger = true → JsNum.lt claims.notAfter ctx.now = false) ∧
      norm ctx.audience = ctx.audience ∧ norm ctx.session.sessionId = ctx.session.sessionId := by
  rw [admitPermit] at hpermit
  obtain ⟨hash, hhash, hpermit⟩ := Except.bind_eq_ok hpermit
  dsimp only [GuardContext.request] at hhash hpermit
  split at hpermit
  case h_2 => cases hpermit
  rename_i sessionKey hkey
  obtain ⟨audienceKey, hderive, hissue⟩ := Except.bind_eq_ok hpermit
  have hresource : X.resourceKey ctx = .ok audienceKey := by
    rw [resourceKey, haudience, hkey]
    exact hderive
  have haccepts : X.checkPermit outcome ctx intent = .ok true ↔
      PermitWorld.Accepts (X.world.verifyPermitForAction permit audienceKey
        ⟨ctx.audience, intent, ctx.now, some ctx.session.sessionId, none⟩) := by
    rw [checkPermit, hsome]
    constructor
    · intro h
      obtain ⟨key, hkey', h⟩ := Except.bind_eq_ok h
      obtain rfl := Except.ok.inj (hresource.symm.trans hkey')
      obtain ⟨verdict, hverdict, h⟩ := Except.bind_eq_ok h
      exact ⟨verdict, hverdict, Except.ok.inj h⟩
    · rintro ⟨verdict, hverdict, hok⟩
      exact Except.bind_ok hresource (Except.bind_ok hverdict (congrArg Except.ok hok))
  rw [hnow, httl] at hissue
  obtain ⟨data, hread, hdata⟩ := readPermit_issued hreads (isSafeInteger_admission hrange) hissue
  have hhex : norm hash = hash := by
    obtain ⟨bytes, -, rfl⟩ := Except.map_eq_ok hhash
    exact hreads.hex _
  rw [haccepts, PermitWorld.accepts_token_iff, hnow]
  constructor
  · rintro ⟨hsize, -, data', hash', hdata', -, -, hnil⟩
    obtain rfl := Except.ok.inj (hread.symm.trans hdata')
    obtain ⟨hname, -, hlasts, hsession, -⟩ := (claimReasons_toData X.world hdata).mp hnil
    exact ⟨hsize, (lasts_admission hrange).mp hlasts, hname, hsession _ rfl⟩
  · rintro ⟨hsize, hfresh, hname, hsession⟩
    refine ⟨hsize, verifyPermit_issued hissue, data, hash, hread, ?_, hhash, ?_⟩
    · rintro rfl
      cases hdata "audience"
    refine (claimReasons_toData X.world hdata).mpr
      ⟨hname, hhex, (lasts_admission hrange).mpr hfresh, ?_, ?_⟩
    · rintro id hid
      exact hsession.trans (Option.some.inj hid)
    · exact (congrArg (fun e => norm (Effect.text e)) hallow).trans hreads.allow

end NodeExternals

/-! ## A run of calls -/

/-- The handler may run for this call: the kernel admits the intent of an accepted session as it
is, the node can issue its permit, the names in it are as they are read, and what the tier asks for
is done. -/
structure MayRun {A R : Type} (X : NodeExternals) (norm : String → String) (cfg : NodeConfig)
    (tool : GuardedTool A) (call : ToolCall A R) (intent : ActionIntent)
    (claims : AttestationClaims) : Prop where
  /-- the call has an intent -/
  mapped : tool.mapIntent call.toolName call.args = .ok intent
  /-- the session has claims -/
  claimed : call.ctx.session.claims = some claims
  /-- where the node asks for it, they are attested -/
  attested : X.sessionDenial cfg (call.ctx.request intent) = .ok none
  /-- the claims have not run out -/
  fresh : claims.notAfter.isSafeInteger = true → JsNum.lt claims.notAfter call.ctx.now = false
  /-- the policy can be encoded -/
  encodes : ∃ ev, X.evaluatorVersion cfg.policy = .ok ev
  /-- no policy denies the intent, and a capability authorizes it -/
  admissible : Admissible X.toExternals ((call.ctx.request intent).kernelInput cfg claims) intent
  /-- the policy does not transform it -/
  asIs : actionInList intent.type cfg.policy.transformActions = false
  /-- nothing throws before the log, and the permit is not too large -/
  issued : ∃ p permit, X.prepare cfg ⟨call.ctx.request intent, call.salt, call.entropy⟩ = .ok p ∧
    p.permit = some permit ∧ X.world.tooLarge permit.suite permit.body = false
  /-- the names of the resource and the session are normal -/
  normal : norm call.ctx.audience = call.ctx.audience ∧
    norm call.ctx.session.sessionId = call.ctx.session.sessionId
  /-- the obligations that the guard does not see to itself are discharged -/
  discharged : ∀ o ∈ obligationsForTier (tierOf intent.toGovernedIntent cfg.policy),
    o = "nearline-receipt" ∨ o = "session-attestation" ∨ o ∈ tool.discharged

namespace NodeExternals

variable {A R : Type} {X : NodeExternals} {norm : String → String} {cfg : NodeConfig}
  {tool : GuardedTool A} {call : ToolCall A R} {log log' : TransparencyLog} {intent : ActionIntent}
  {outcome : AdmissionOutcome}

/-- What a cleared call has come to is what the kernel decides on it. -/
theorem Cleared.decided (h : Cleared X cfg tool call log log' intent outcome) :
    X.sessionDenial cfg (call.ctx.request intent) = .ok none ∧ ∃ claims permit receipt,
      call.ctx.session.claims = some claims ∧
      outcome.decision = X.decide ((call.ctx.request intent).kernelInput cfg claims) ∧
      outcome.permit = some permit ∧
      X.admitPermit cfg (call.ctx.request intent) claims outcome.decision = .ok permit ∧
      X.prepare cfg ⟨call.ctx.request intent, call.salt, call.entropy⟩ =
        .ok ⟨outcome.decision, outcome.permit, receipt⟩ := by
  obtain ⟨receipt, hprepare, -⟩ := admission_eq_ok h.admitted
  have hne : outcome.decision.effect ≠ .deny := by
    rw [h.allowed]
    decide
  obtain ⟨hsession, hissue⟩ := prepare_admitted hprepare hne
  obtain ⟨claims, hclaims, hdecision, hpermitted⟩ := decideAndIssue_decided hissue
  obtain ⟨permit, hsome, hpermit⟩ := hpermitted hne
  exact ⟨hsession, claims, permit, receipt, hclaims, hdecision, hsome, hpermit, hprepare⟩

/-- The outcome of an admission has a receipt where its decision asks for one. -/
theorem exists_receipt (h : X.guard cfg intent call.ctx call.salt call.entropy log =
    (.ok outcome, log')) (hasks : outcome.decision.AsksForReceipt) :
    ∃ receipt leaf, outcome.receipt = some receipt ∧ X.Issues cfg receipt leaf ∧
      log'.entries = log.entries ++ [leaf] := by
  rw [guard] at h
  rcases admission_cases X cfg ⟨call.ctx.request intent, call.salt, call.entropy⟩ log with
    ⟨o, receipt, leaf, ho, hanchors⟩ | ⟨-, hnone⟩
  · rw [h] at ho hanchors
    obtain rfl := Except.ok.inj ho
    exact ⟨receipt, leaf, hanchors.returned, hanchors.issued, hanchors.entries⟩
  · exact absurd hasks (hnone outcome (congrArg Prod.fst h)).1

/-- The obligations of a cleared call are those of its tier. -/
theorem Cleared.obligations_eq (h : Cleared X cfg tool call log log' intent outcome) :
    outcome.decision.obligations =
      obligationsForTier (tierOf intent.toGovernedIntent cfg.policy) := by
  obtain ⟨-, claims, -, -, -, hdecision, -⟩ := h.decided
  have hne : outcome.decision.effect ≠ .deny := by
    rw [h.allowed]
    decide
  rw [hdecision] at hne ⊢
  exact (decide_admitted rfl hne).2

/-- Where its tier asks for a receipt, a cleared call has it, and its leaf is appended. -/
theorem Cleared.receipt (h : Cleared X cfg tool call log log' intent outcome)
    (hasks : "nearline-receipt" ∈ obligationsForTier (tierOf intent.toGovernedIntent cfg.policy)) :
    ∃ receipt leaf, outcome.receipt = some receipt ∧ X.Issues cfg receipt leaf ∧
      log'.entries = log.entries ++ [leaf] := by
  rw [← h.obligations_eq] at hasks
  refine exists_receipt h.admitted ⟨?_, hasks⟩
  rw [h.allowed]
  decide

/-- An obligation of a receipt is discharged where there is one. -/
theorem isDischarged_iff {discharged : List String} {receipt : Option Receipt} {o : String}
    (hreceipt : o = "nearline-receipt" → receipt.isSome = true) :
    isDischarged discharged receipt o = true ↔
      o = "nearline-receipt" ∨ o = "session-attestation" ∨ o ∈ discharged := by
  rw [isDischarged]
  split
  · rename_i h
    exact iff_of_true (hreceipt h) (.inl h)
  · rename_i h
    rw [Bool.or_eq_true, beq_iff_eq, List.contains_iff_mem, or_iff_right h]

section Runs

variable (hreads : X.ReadsClaims norm) (haudience : call.ctx.audienceKey = none) {t d : ℕ}
  (hnow : call.ctx.now = t) (httl : cfg.permitTtlSeconds = d) (hrange : t + d < 2 ^ 53)

include hreads haudience hnow httl hrange

/-- A call that is cleared may run. -/
theorem Cleared.mayRun (h : Cleared X cfg tool call log log' intent outcome) :
    ∃ claims, MayRun X norm cfg tool call intent claims := by
  obtain ⟨hsession, claims, permit, receipt, hclaims, hdecision, hsome, hpermit, hprepare⟩ :=
    h.decided
  obtain ⟨hsize, hfresh, hnormal⟩ := (checkPermit_issued hreads haudience hnow httl hrange
    h.allowed hsome hpermit).mp h.permitted
  have hallow := h.allowed
  rw [hdecision] at hallow
  obtain ⟨hev, hadmissible, htransform⟩ := (decide_allow_iff rfl).mp hallow
  refine ⟨claims, h.mapped, hclaims, hsession, hfresh, hev, hadmissible, htransform,
    ⟨_, permit, hprepare, hsome, hsize⟩, hnormal, fun o ho => ?_⟩
  refine (isDischarged_iff fun hreceipt => ?_).mp (h.discharged o (h.obligations_eq ▸ ho))
  obtain ⟨receipt, leaf, hreturned, -, -⟩ := h.receipt (hreceipt ▸ ho)
  rw [hreturned]
  rfl

/-- A call that may run is cleared. -/
theorem cleared_of_mayRun {claims : AttestationClaims}
    (h : MayRun X norm cfg tool call intent claims) (log : TransparencyLog) :
    ∃ outcome log', Cleared X cfg tool call log log' intent outcome := by
  obtain ⟨p, permit, hprepare, hsome, hsize⟩ := h.issued
  obtain ⟨denied, hdenied, hissue⟩ := Except.bind_eq_ok hprepare
  obtain rfl := Except.ok.inj (h.attested.symm.trans hdenied)
  obtain ⟨claims', hclaims', hdecision, hpermitted⟩ := decideAndIssue_decided hissue
  obtain rfl := Option.some.inj (h.claimed.symm.trans hclaims')
  have hallow : p.decision.effect = .allow := by
    rw [hdecision]
    exact (decide_allow_iff rfl).mpr ⟨h.encodes, h.admissible, h.asIs⟩
  have hne : p.decision.effect ≠ .deny := by
    rw [hallow]
    decide
  obtain ⟨permit', hsome', hpermit⟩ := hpermitted hne
  obtain rfl := Option.some.inj (hsome.symm.trans hsome')
  obtain ⟨outcome, log', hadmitted, hdecided, hreturned⟩ := exists_admission hprepare log
  have hobligations := (decide_admitted rfl (hdecision ▸ hne)).2
  rw [← hdecision, ← hdecided] at hobligations
  rw [← hdecided] at hallow hne hpermit
  refine ⟨outcome, log', h.mapped, hadmitted, hallow, ?_, fun o ho => ?_⟩
  · exact (checkPermit_issued hreads haudience hnow httl hrange hallow (hreturned.trans hsome)
      hpermit).mpr ⟨hsize, h.fresh, h.normal⟩
  · refine (isDischarged_iff fun hreceipt => ?_).mpr (h.discharged o (hobligations ▸ ho))
    subst hreceipt
    obtain ⟨receipt, leaf, hsome, -, -⟩ := exists_receipt hadmitted ⟨hne, ho⟩
    rw [hsome]
    rfl

end Runs

/-- After the admission the log is not written. -/
theorem log_runHandler (tool : GuardedTool A) (call : ToolCall A R) (intent : ActionIntent)
    (outcome : AdmissionOutcome) (log : TransparencyLog) :
    (X.runHandler tool call intent outcome log).log = log := by
  rw [runHandler]
  dsimp only
  split
  · rfl
  split
  · rfl
  split
  · rfl
  · rfl
  split
  · rfl
  · rfl

/-- One call keeps every entry of the log in its place. -/
theorem isPrefix_guardTool (X : NodeExternals) (cfg : NodeConfig) (tool : GuardedTool A)
    (call : ToolCall A R) (log : TransparencyLog) :
    log.entries <+: (X.guardTool cfg tool call log).log.entries := by
  rw [guardTool]
  split
  · exact List.prefix_rfl
  rename_i intent hmapped
  have hgrows := isPrefix_admission X cfg ⟨call.ctx.request intent, call.salt, call.entropy⟩ log
  split
  · rename_i e log' hguard
    rw [guard] at hguard
    rwa [hguard] at hgrows
  · rename_i outcome log' hguard
    rw [guard] at hguard
    rw [hguard] at hgrows
    rwa [log_runHandler]

/-- **The log only grows** over a run of calls. -/
theorem isPrefix_logAfterTools (X : NodeExternals) (cfg : NodeConfig) (tool : GuardedTool A)
    (log : TransparencyLog) (calls : List (ToolCall A R)) :
    log.entries <+: (X.logAfterTools cfg tool log calls).entries := by
  induction calls generalizing log with
  | nil => exact List.prefix_rfl
  | cons call calls ih => exact (isPrefix_guardTool X cfg tool call log).trans (ih _)

end NodeExternals

/-- **Guarded tools.** In every run of calls of a guarded tool, from any log, for a call whose
resource has its key from the session and whose times are whole: the reply says whether the handler
ran; it runs exactly for the calls that may run, and then what it returns or throws is what the
caller gets. Where the tier of such a call asks for a receipt, the node has issued it, the caller
gets it, and its leaf is in the log at this place after whatever calls follow. -/
theorem guarded_tool {A R : Type} (X : NodeExternals) (cfg : NodeConfig) (tool : GuardedTool A)
    {norm : String → String} (hreads : X.ReadsClaims norm) {d : ℕ} (httl : cfg.permitTtlSeconds = d)
    (log₀ : TransparencyLog) (before : List (ToolCall A R)) (call : ToolCall A R)
    (haudience : call.ctx.audienceKey = none) {t : ℕ} (hnow : call.ctx.now = t)
    (hrange : t + d < 2 ^ 53) :
    let log := X.logAfterTools cfg tool log₀ before
    let out := X.guardTool cfg tool call log
    out.Truthful ∧
    (out.ran = true ↔ ∃ intent claims, MayRun X norm cfg tool call intent claims) ∧
    ∀ intent claims, MayRun X norm cfg tool call intent claims →
      out.reply.map (·.result) = call.handled.map some ∧
      ("nearline-receipt" ∈ obligationsForTier (tierOf intent.toGovernedIntent cfg.policy) →
        ∃ receipt leaf, X.Issues cfg receipt leaf ∧
          (∀ r, out.reply = .ok r → r.receipt = some receipt) ∧
          ∀ after, (X.logAfterTools cfg tool log₀ (before ++ call :: after)).entries[log.size]? =
            some leaf) := by
  intro log out
  refine ⟨NodeExternals.truthful_guardTool X cfg tool call log, ?_, ?_⟩
  · rw [NodeExternals.guardTool_ran_iff]
    constructor
    · rintro ⟨intent, outcome, log', hcleared⟩
      exact ⟨intent, hcleared.mayRun hreads haudience hnow httl hrange⟩
    · rintro ⟨intent, claims, hmay⟩
      exact ⟨intent, NodeExternals.cleared_of_mayRun hreads haudience hnow httl hrange hmay log⟩
  · intro intent claims hmay
    obtain ⟨outcome, log', hcleared⟩ :=
      NodeExternals.cleared_of_mayRun hreads haudience hnow httl hrange hmay log
    have hout : out = _ := NodeExternals.guardTool_cleared hcleared
    rw [hout]
    refine ⟨?_, fun hasks => ?_⟩
    · cases call.handled with
      | error e => rfl
      | ok r => rfl
    · obtain ⟨receipt, leaf, hreturned, hissues, hentries⟩ := hcleared.receipt hasks
      refine ⟨receipt, leaf, hissues, fun r hr => ?_, fun after => ?_⟩
      · cases hhandled : call.handled with
        | error e =>
          rw [hhandled] at hr
          cases hr
        | ok value =>
          rw [hhandled] at hr
          cases hr
          exact hreturned
      · have hlog : out.log = log' := by rw [hout]
        have hgrows := NodeExternals.isPrefix_logAfterTools X cfg tool out.log after
        have hlast : out.log.entries[log.size]? = some leaf := by
          rw [hlog, hentries, TransparencyLog.size, List.getElem?_append_right le_rfl,
            Nat.sub_self]
          rfl
        rw [NodeExternals.logAfterTools, List.foldl_append, List.foldl_cons]
        obtain ⟨hlt, hget⟩ := List.getElem?_eq_some_iff.mp hlast
        exact (List.prefix_iff_getElem?.mp hgrows _ hlt).trans (congrArg some hget)

/-! ## A guarded payment -/

open Classical in
/-- The node of the desk with a decoder that reads the claims its encoder has written, in normal
form. -/
noncomputable def deskReader : NodeExternals :=
  { deskExternals with
    decodeCbor := fun b =>
      if h : ∃ claims : PermitClaims, cborCode (JsData.toCbor claims.toData) = b then
        .ok (h.choose.normalize foldKelvin).toData
      else .error (error "unexpected end of input") }

theorem toData_injective {c c' : PermitClaims}
    (h : JsData.toCbor c.toData = JsData.toCbor c'.toData) : c = c' := by
  simp only [PermitClaims.toData, JsData.toCbor, JsData.toFields, Cbor.map.injEq, List.cons.injEq,
    Prod.mk.injEq, Cbor.text.injEq, Cbor.num.injEq, true_and, and_true] at h
  obtain ⟨hsession, hnonce, haudience, haction, htier, hexp, hevaluator, heffect⟩ := h
  cases c
  cases c'
  exact (PermitClaims.mk.injEq ..).mpr
    ⟨hsession, hnonce, haudience, haction, htier, hexp, hevaluator, heffect⟩

theorem readsClaims_desk : deskReader.ReadsClaims foldKelvin := by
  refine ⟨fun claims body _ hbody => ?_, foldKelvin_hexText, by decide +kernel⟩
  have hex : ∃ c : PermitClaims, cborCode (JsData.toCbor c.toData) = body :=
    ⟨claims, Except.ok.inj hbody⟩
  have hsame : hex.choose = claims :=
    toData_injective (cborCode_injective (hex.choose_spec.trans (Except.ok.inj hbody).symm))
  have hdecode : deskReader.decodeCbor body = .ok (hex.choose.normalize foldKelvin).toData :=
    dif_pos hex
  exact ⟨_, hdecode, fun key => by rw [hsame]⟩

/-- A tool that pays, with the approval given elsewhere. -/
def deskTool : GuardedTool Unit := ⟨fun _ _ => .ok deskCall.req.intent, ["step-up-approval"]⟩

/-- A call of it. -/
def deskToolCall : ToolCall Unit Unit :=
  ⟨"pay", (), ⟨[deskCapability], deskSession, "vault", 20, none, none, none⟩, .ok [1], [], .ok ()⟩

theorem mayRun_desk : MayRun deskReader foldKelvin deskConfig deskTool deskToolCall
    deskCall.req.intent ⟨"software-dev", "s", "aa", "n", 100, none⟩ := by
  have hallow : (deskReader.decide (deskCall.req.kernelInput deskConfig
      ⟨"software-dev", "s", "aa", "n", 100, none⟩)).effect = .allow := by decide +kernel
  obtain ⟨hev, hadmissible, htransform⟩ := (decide_allow_iff rfl).mp hallow
  have hissued : (deskReader.prepare deskConfig deskCall).toOption.bind (fun p =>
      p.permit.map fun permit => deskReader.world.tooLarge permit.suite permit.body) =
      some false := by decide +kernel
  refine ⟨rfl, rfl, rfl, by decide +kernel, hev, hadmissible, htransform, ?_, by decide +kernel,
    by decide⟩
  cases hprepare : deskReader.prepare deskConfig deskCall with
  | error e =>
    rw [hprepare] at hissued
    cases hissued
  | ok p =>
    rw [hprepare] at hissued
    obtain ⟨permit, hpermit, hsize⟩ := Option.map_eq_some_iff.mp hissued
    exact ⟨p, permit, hprepare, hpermit, hsize⟩

/-- The second of two payments runs, and its receipt is the second entry of the log. -/
theorem guarded_tool_desk :
    (deskReader.guardTool deskConfig deskTool deskToolCall
      (deskReader.logAfterTools deskConfig deskTool .empty [deskToolCall])).ran = true ∧
    ∃ leaf, (deskReader.logAfterTools deskConfig deskTool .empty
      [deskToolCall, deskToolCall]).entries[(deskReader.logAfterTools deskConfig deskTool .empty
        [deskToolCall]).size]? = some leaf := by
  obtain ⟨-, hran, hdone⟩ := guarded_tool deskReader deskConfig deskTool readsClaims_desk
    (d := 30) rfl .empty [deskToolCall] deskToolCall rfl (t := 20) rfl (by decide)
  refine ⟨hran.mpr ⟨_, _, mayRun_desk⟩, ?_⟩
  obtain ⟨receipt, leaf, -, -, hleaf⟩ := (hdone _ _ mayRun_desk).2 (by decide)
  exact ⟨leaf, hleaf []⟩

end Nerion
