import Nerion.Capability
import Nerion.JsString

/-!
# The resolver and the admission kernel (`capabilities/src/resolver.ts`, `kernel/src`)

`decide` admits an intent when a capability authorizes it and the policy does not forbid
it. Every way to fail is a denial: a candidate that throws is skipped, a policy that
cannot be encoded or an intent that cannot be projected falls back to a denial.

The main result, `decide_admission`, says when exactly the effect is not a denial, which
capability is reported, and that the order of the candidates and further candidates do
not matter.
-/

namespace Nerion

/-! ## The resolver -/

structure ResolveResult where
  /-- whether a candidate authorizes the intent -/
  authorized : Bool
  /-- the first such candidate -/
  capability : Option Capability
  /-- why -/
  reason : String

/-- `DENY`. -/
def resolveDeny (reason : String) : ResolveResult := ⟨false, none, reason⟩

/-- `MAX_CANDIDATES`. -/
def maxCandidates : ℕ := 64

namespace Externals

variable (X : Externals)

/-- The body of the `try` in `resolve`: whether one candidate authorizes the intent. -/
def evaluateCandidate (intent : GovernedIntent) (trustedRoots : List Bytes) (ctx : EvalContext)
    (revoked : List String) (cap : Capability) : Except JsError Bool := do
  let verified ← X.verifyChain cap trustedRoots
  if !verified then .ok false
  else if cap.chain.any fun link => revoked.contains link.grant.id then .ok false
  else do
    let tail ← effectiveGrant cap
    if some tail.subject ≠ ctx.holder then .ok false
    else .ok (cap.chain.all fun link => authorizesIntent link.grant intent ctx)

/-- `evaluateCandidate` with the `catch`: a candidate that throws does not authorize. -/
def candidateAuthorizes (intent : GovernedIntent) (trustedRoots : List Bytes) (ctx : EvalContext)
    (revoked : List String) (cap : Capability) : Bool :=
  match X.evaluateCandidate intent trustedRoots ctx revoked cap with
  | .ok authorizes => authorizes
  | .error _ => false

/-- The loop of `resolve`. -/
def resolveLoop (intent : GovernedIntent) (trustedRoots : List Bytes) (ctx : EvalContext)
    (revoked : List String) : List Capability → ResolveResult
  | [] => resolveDeny "no capability authorizes this action (default-deny)"
  | cap :: candidates =>
    if X.candidateAuthorizes intent trustedRoots ctx revoked cap then
      ⟨true, some cap, "authorized by capability"⟩
    else resolveLoop intent trustedRoots ctx revoked candidates

def resolve (intent : GovernedIntent) (candidates : List Capability) (trustedRoots : List Bytes)
    (ctx : EvalContext) (revoked : List String) : ResolveResult :=
  if ctx.holder.isNone then resolveDeny "requester holder identity is required"
  else if maxCandidates < candidates.length then
    resolveDeny "too many candidate capabilities (> 64)"
  else X.resolveLoop intent trustedRoots ctx revoked candidates

end Externals

/-! ## Policy -/

inductive RiskTier where
  /-- `0` -/
  | t0
  /-- `1` -/
  | t1
  /-- `2` -/
  | t2
  /-- `3` -/
  | t3
  deriving DecidableEq

/-- The number a tier is. -/
def RiskTier.toNat : RiskTier → ℕ
  | t0 => 0
  | t1 => 1
  | t2 => 2
  | t3 => 3

/-- `TierRule`: action types under `rulePrefix` (the source's `prefix`) get `tier`. -/
structure TierRule where
  /-- the namespace the rule covers -/
  rulePrefix : String
  tier : RiskTier

structure Policy where
  /-- version of the policy -/
  version : String
  /-- the first matching rule wins -/
  tierRules : List TierRule
  /-- namespaces always denied -/
  denyActions : List String
  /-- namespaces admitted in transformed form only -/
  transformActions : List String
  /-- tier of an action no rule matches -/
  defaultTier : RiskTier

/-- `KERNEL_VERSION`. -/
def kernelVersion : String := "polarseek-kernel/0.1.0"

/-- `actionMatches`: equal, or a dotted child of `entry`. -/
def actionMatches (type entry : String) : Bool :=
  let boundary := if jsEndsWith entry '.' then entry else entry ++ "."
  type == entry || jsStartsWith type boundary

def actionInList (type : String) (list : List String) : Bool := list.any (actionMatches type)

/-- The character class `[A-Za-z0-9_-]`. -/
def isSegmentChar (c : Char) : Bool :=
  ('A' ≤ c && c ≤ 'Z') || ('a' ≤ c && c ≤ 'z') || ('0' ≤ c && c ≤ '9') || c == '_' || c == '-'

/-- `ACTION_TYPE_RE` as an automaton: non-empty segments, one dot between two of them.
`inSegment` says that the present segment has a character. -/
def actionTypeRe (inSegment : Bool) : List Char → Bool
  | [] => inSegment
  | c :: cs =>
    if isSegmentChar c then actionTypeRe true cs
    else c == '.' && inSegment && actionTypeRe false cs

def isCanonicalActionType (type : String) : Bool :=
  jsLength type ≤ 256 && actionTypeRe false type.toList

def tierOf (intent : GovernedIntent) (policy : Policy) : RiskTier :=
  match policy.tierRules.find? fun rule => actionMatches intent.type rule.rulePrefix with
  | some rule => rule.tier
  | none => policy.defaultTier

/-- The policy as `encodeCanonical` sees it. -/
def policyCbor (policy : Policy) : Cbor :=
  .map [("version", .text policy.version),
    ("tierRules", .array (policy.tierRules.map fun rule =>
      .map [("prefix", .text rule.rulePrefix), ("tier", .num rule.tier.toNat)])),
    ("denyActions", .array (policy.denyActions.map .text)),
    ("transformActions", .array (policy.transformActions.map .text)),
    ("defaultTier", .num policy.defaultTier.toNat)]

def Externals.evaluatorVersion (X : Externals) (policy : Policy) : Except JsError String :=
  (X.encodeCanonical (.array [.text kernelVersion, policyCbor policy])).map fun bytes =>
    kernelVersion ++ "+" ++ hexPrefixOf 16 (X.bytesToHex (X.digest bytes))

/-! ## The kernel -/

inductive Effect where
  /-- admitted -/
  | allow
  /-- refused -/
  | deny
  /-- admitted in transformed form -/
  | transform
  deriving DecidableEq

structure Decision where
  /-- the verdict -/
  effect : Effect
  /-- the risk tier -/
  tier : RiskTier
  /-- why -/
  reasons : List String
  /-- required follow-on controls -/
  obligations : List String
  /-- what evaluated the request -/
  evaluatorVersion : String

structure DecisionWithAuthorizer where
  decision : Decision
  /-- the capability that authorized it, if any -/
  authorizingCapability : Option Capability

/-- `KernelInput`; an intent that is `null` is `none`. -/
structure KernelInput where
  /-- the proposed action -/
  intent : Option ActionIntent
  /-- the candidate capabilities -/
  capabilities : List Capability
  policy : Policy
  /-- keys of the trusted authorities -/
  trustedRoots : List Bytes
  /-- the caller's clock -/
  now : JsNum
  /-- aggregate already consumed -/
  observedAggregate : JsNum
  /-- hex of the requester's public key -/
  holder : Option String
  /-- revoked capability ids -/
  revoked : Option (List String)

def obligationsForTier : RiskTier → List String
  | .t0 => []
  | .t1 => ["session-attestation"]
  | .t2 => ["nearline-receipt", "step-up-approval"]
  | .t3 => ["nearline-receipt", "n-of-m-attestation", "dual-control", "all-planes"]

/-- A denial: no obligations and no authorizer. -/
def denial (tier : RiskTier) (reason ev : String) : DecisionWithAuthorizer :=
  ⟨⟨.deny, tier, [reason], [], ev⟩, none⟩

def safeFallbackDeny (message ev : String) : DecisionWithAuthorizer :=
  denial .t3 ("safe-fallback deny: " ++ message) ev

/-- `governedView`; destructuring `null` throws. -/
def governedView : Option ActionIntent → Except JsError GovernedIntent
  | some intent => .ok intent.toGovernedIntent
  | none => .error ⟨"TypeError", "Cannot destructure property 'type' of 'intent' as it is null."⟩

/-- The context `decideCore` resolves in. -/
def KernelInput.evalContext (input : KernelInput) (intent : GovernedIntent) : EvalContext :=
  ⟨input.now, (tierOf intent input.policy).toNat, input.observedAggregate, input.holder⟩

/-- The body of `decideCore` after the evaluator version, given what `resolve` returns: two
gates of the policy, the resolver's verdict, and the effect of an admitted action. -/
def verdict (policy : Policy) (intent : GovernedIntent) (ev : String) (res : ResolveResult) :
    DecisionWithAuthorizer :=
  let tier := tierOf intent policy
  if !isCanonicalActionType intent.type then
    denial .t3 "intent.type is not a canonical action identifier" ev
  else if actionInList intent.type policy.denyActions then
    denial tier "action is on the policy denylist" ev
  else if !res.authorized then denial tier res.reason ev
  else
    let effect := if actionInList intent.type policy.transformActions then
      Effect.transform else .allow
    ⟨⟨effect, tier, ["authorized by capability", s!"risk tier {tier.toNat}"],
      obligationsForTier tier, ev⟩, res.capability⟩

namespace Externals

variable (X : Externals)

/-- The call of `resolve` in `decideCore`. -/
def resolution (input : KernelInput) (intent : GovernedIntent) : ResolveResult :=
  X.resolve intent input.capabilities input.trustedRoots (input.evalContext intent)
    (input.revoked.getD [])

/-- `decideCore`. Nothing after `evaluatorVersion` throws, so its `try` ends there. -/
def decideCore (input : KernelInput) (intent : GovernedIntent) : DecisionWithAuthorizer :=
  match X.evaluatorVersion input.policy with
  | .error e => safeFallbackDeny e.message (kernelVersion ++ "+uncomputed")
  | .ok ev => verdict input.policy intent ev (X.resolution input intent)

def decideWithAuthorizer (input : KernelInput) : DecisionWithAuthorizer :=
  match governedView input.intent with
  | .error e => safeFallbackDeny e.message (kernelVersion ++ "+uncomputed")
  | .ok governed => X.decideCore input governed

def decide (input : KernelInput) : Decision := (X.decideWithAuthorizer input).decision

end Externals

/-! ## What the resolver finds -/

section Resolve

variable {X : Externals} {intent : GovernedIntent} {trustedRoots : List Bytes} {ctx : EvalContext}
  {revoked : List String}

/-- A candidate that authorizes the intent. -/
structure Admits (X : Externals) (intent : GovernedIntent) (trustedRoots : List Bytes)
    (ctx : EvalContext) (revoked : List String) (cap : Capability) : Prop where
  /-- the chain verifies -/
  verified : X.verifyChain cap trustedRoots = .ok true
  /-- no link is revoked -/
  not_revoked : ∀ link ∈ cap.chain, link.grant.id ∉ revoked
  /-- the tail was granted to the requester -/
  held : ∃ tail, effectiveGrant cap = .ok tail ∧ ctx.holder = some tail.subject
  /-- every link authorizes the intent -/
  authorizes : ∀ link ∈ cap.chain, authorizesIntent link.grant intent ctx = true

/-- The resolver's check of one candidate, thrown errors included. -/
theorem candidateAuthorizes_iff {cap : Capability} :
    X.candidateAuthorizes intent trustedRoots ctx revoked cap = true ↔
      Admits X intent trustedRoots ctx revoked cap := by
  have hrevoked : (cap.chain.any fun link => revoked.contains link.grant.id) = false ↔
      ∀ link ∈ cap.chain, link.grant.id ∉ revoked := by
    simp [List.any_eq_false]
  unfold Externals.candidateAuthorizes Externals.evaluateCandidate
  constructor
  · intro h
    split at h
    · rename_i b hb
      subst h
      obtain ⟨verified, hverified, hb⟩ := Except.bind_eq_ok hb
      split at hb
      · cases hb
      rename_i hv
      split at hb
      · cases hb
      rename_i hr
      obtain ⟨tail, htail, hb⟩ := Except.bind_eq_ok hb
      split at hb
      · cases hb
      rename_i hheld
      have hall := Except.ok.inj hb
      rw [List.all_eq_true] at hall
      rw [Bool.not_eq_true', Bool.not_eq_false] at hv
      exact ⟨hv ▸ hverified, hrevoked.mp (Bool.eq_false_iff.mpr hr),
        ⟨tail, htail, (not_not.mp hheld).symm⟩, hall⟩
    · cases h
  · rintro ⟨hverified, hr, ⟨tail, htail, hheld⟩, hall⟩
    rw [hverified]
    change (match (if (cap.chain.any fun link => revoked.contains link.grant.id) = true then _
      else (effectiveGrant cap).bind _ : Except JsError Bool) with
      | .ok authorizes => authorizes
      | .error _ => false) = true
    rw [hrevoked.mpr hr, htail]
    change (match (if some tail.subject ≠ ctx.holder then Except.ok false
      else .ok (cap.chain.all fun link => authorizesIntent link.grant intent ctx) :
        Except JsError Bool) with
      | .ok authorizes => authorizes
      | .error _ => false) = true
    rw [if_neg (not_not.mpr hheld.symm)]
    exact List.all_eq_true.mpr hall

/-- The loop stops at the first candidate that admits the intent. -/
theorem resolveLoop_eq (candidates : List Capability) :
    X.resolveLoop intent trustedRoots ctx revoked candidates =
      match candidates.find? (X.candidateAuthorizes intent trustedRoots ctx revoked) with
      | some cap => ⟨true, some cap, "authorized by capability"⟩
      | none => resolveDeny "no capability authorizes this action (default-deny)" := by
  induction candidates with
  | nil => rfl
  | cons cap candidates ih =>
    rw [Externals.resolveLoop, List.find?_cons]
    cases X.candidateAuthorizes intent trustedRoots ctx revoked cap with
    | true => rfl
    | false => exact ih

/-- When the resolver authorizes, and by which candidate. -/
theorem resolve_authorized_iff {candidates : List Capability} :
    (X.resolve intent candidates trustedRoots ctx revoked).authorized = true ↔
      ctx.holder ≠ none ∧ candidates.length ≤ maxCandidates ∧
        ∃ cap ∈ candidates, Admits X intent trustedRoots ctx revoked cap := by
  rw [Externals.resolve]
  cases hholder : ctx.holder with
  | none => exact ⟨fun h => absurd h (by simp [resolveDeny]), fun h => absurd rfl h.1⟩
  | some holder =>
    rw [if_neg (by simp)]
    split
    · rename_i hlen
      exact ⟨fun h => absurd h (by simp [resolveDeny]), fun h => absurd h.2.1 (not_le.mpr hlen)⟩
    · rename_i hlen
      rw [resolveLoop_eq]
      rcases hfind : candidates.find? (X.candidateAuthorizes intent trustedRoots ctx revoked)
        with _ | cap
      · refine ⟨fun h => absurd h (by simp [resolveDeny]), ?_⟩
        rintro ⟨-, -, cap, hmem, hadmits⟩
        exact absurd (candidateAuthorizes_iff.mpr hadmits)
          (List.find?_eq_none.mp hfind cap hmem)
      · refine ⟨fun _ => ⟨nofun, not_lt.mp hlen, cap, List.mem_of_find?_eq_some hfind, ?_⟩,
          fun _ => rfl⟩
        exact candidateAuthorizes_iff.mp (List.find?_some hfind)

/-- The candidate it reports is the first that admits the intent. -/
theorem resolve_capability_first {candidates : List Capability}
    (h : (X.resolve intent candidates trustedRoots ctx revoked).authorized = true) :
    ∃ before cap after, candidates = before ++ cap :: after ∧
      Admits X intent trustedRoots ctx revoked cap ∧
      (∀ c ∈ before, ¬ Admits X intent trustedRoots ctx revoked c) ∧
      (X.resolve intent candidates trustedRoots ctx revoked).capability = some cap := by
  obtain ⟨hholder, hlen, cap, hmem, hadmits⟩ := resolve_authorized_iff.mp h
  have hres : X.resolve intent candidates trustedRoots ctx revoked =
      X.resolveLoop intent trustedRoots ctx revoked candidates := by
    rw [Externals.resolve]
    rw [if_neg (by simpa using hholder), if_neg (not_lt.mpr hlen)]
  rcases hfind : candidates.find? (X.candidateAuthorizes intent trustedRoots ctx revoked)
    with _ | first
  · exact absurd (candidateAuthorizes_iff.mpr hadmits) (List.find?_eq_none.mp hfind cap hmem)
  · obtain ⟨hfirst, before, after, hsplit, hbefore⟩ := List.find?_eq_some_iff_append.mp hfind
    refine ⟨before, first, after, hsplit, candidateAuthorizes_iff.mp hfirst, ?_, ?_⟩
    · intro c hc hadm
      have hno := hbefore c hc
      rw [candidateAuthorizes_iff.mpr hadm] at hno
      cases hno
    · rw [hres, resolveLoop_eq, hfind]

end Resolve

/-! ## When the kernel admits -/

theorem actionInList_eq_false_iff {type : String} {list : List String} :
    actionInList type list = false ↔ ∀ entry ∈ list, actionMatches type entry = false := by
  simp [actionInList, List.any_eq_false]

section Verdict

variable {policy : Policy} {intent : GovernedIntent} {ev : String} {res : ResolveResult}

/-- Past the gates the verdict is an admission. -/
theorem verdict_pass (hcanonical : isCanonicalActionType intent.type = true)
    (hdeny : actionInList intent.type policy.denyActions = false) (hres : res.authorized = true) :
    (verdict policy intent ev res).decision.effect ≠ .deny ∧
      (verdict policy intent ev res).authorizingCapability = res.capability := by
  rw [verdict]
  rw [hcanonical, hdeny, hres]
  refine ⟨?_, rfl⟩
  change (if actionInList intent.type policy.transformActions = true then Effect.transform
    else .allow) ≠ .deny
  cases actionInList intent.type policy.transformActions <;> exact nofun

/-- The verdict denies exactly at one of its three gates. -/
theorem verdict_ne_deny_iff :
    (verdict policy intent ev res).decision.effect ≠ .deny ↔
      isCanonicalActionType intent.type = true ∧
        actionInList intent.type policy.denyActions = false ∧ res.authorized = true := by
  refine ⟨fun h => ?_, fun ⟨h1, h2, h3⟩ => (verdict_pass h1 h2 h3).1⟩
  rw [verdict] at h
  cases hc : isCanonicalActionType intent.type with
  | false =>
    rw [hc] at h
    exact absurd rfl h
  | true =>
    cases hd : actionInList intent.type policy.denyActions with
    | true =>
      rw [hc, hd] at h
      exact absurd rfl h
    | false =>
      cases hr : res.authorized with
      | false =>
        rw [hc, hd, hr] at h
        exact absurd rfl h
      | true => exact ⟨rfl, rfl, rfl⟩

/-- Of what the resolver returns, only `authorized` enters effect, tier and obligations. -/
theorem verdict_congr {res' : ResolveResult} (h : res'.authorized = res.authorized) :
    (verdict policy intent ev res').decision.effect =
        (verdict policy intent ev res).decision.effect ∧
      (verdict policy intent ev res').decision.tier =
        (verdict policy intent ev res).decision.tier ∧
      (verdict policy intent ev res').decision.obligations =
        (verdict policy intent ev res).decision.obligations := by
  unfold verdict
  rw [h]
  cases isCanonicalActionType intent.type <;>
    cases actionInList intent.type policy.denyActions <;> cases res.authorized <;>
    exact ⟨rfl, rfl, rfl⟩

end Verdict

section Admission

variable {X : Externals} {input : KernelInput}

/-- A capability that authorizes the input's intent, at the tier the policy gives it. -/
def KernelInput.AdmittedBy (X : Externals) (input : KernelInput) (intent : ActionIntent)
    (cap : Capability) : Prop :=
  Admits X intent.toGovernedIntent input.trustedRoots
    (input.evalContext intent.toGovernedIntent) (input.revoked.getD []) cap

/-- An input the kernel admits. -/
structure Admissible (X : Externals) (input : KernelInput) (intent : ActionIntent) : Prop where
  /-- there is an intent -/
  intent_eq : input.intent = some intent
  /-- its type is canonical -/
  canonical : isCanonicalActionType intent.type = true
  /-- no deny entry covers it -/
  not_denied : ∀ entry ∈ input.policy.denyActions, actionMatches intent.type entry = false
  /-- the requester is known -/
  holder : input.holder ≠ none
  /-- there are not too many candidates -/
  bounded : input.capabilities.length ≤ maxCandidates
  /-- a candidate authorizes the intent -/
  authorized : ∃ cap ∈ input.capabilities, input.AdmittedBy X intent cap

/-- With an intent and an encodable policy, `decide` is the verdict. -/
theorem decideWithAuthorizer_eq {intent : ActionIntent} {ev : String}
    (hintent : input.intent = some intent) (hev : X.evaluatorVersion input.policy = .ok ev) :
    X.decideWithAuthorizer input =
      verdict input.policy intent.toGovernedIntent ev
        (X.resolution input intent.toGovernedIntent) := by
  rw [Externals.decideWithAuthorizer]
  rw [hintent]
  change X.decideCore input intent.toGovernedIntent = _
  rw [Externals.decideCore]
  rw [hev]

/-- The kernel does not deny exactly the admissible inputs. -/
theorem decide_ne_deny_iff {ev : String} (hev : X.evaluatorVersion input.policy = .ok ev) :
    (X.decide input).effect ≠ .deny ↔ ∃ intent, Admissible X input intent := by
  rw [Externals.decide]
  rcases hintent : input.intent with _ | intent
  · constructor
    · intro h
      rw [Externals.decideWithAuthorizer] at h
      rw [hintent] at h
      exact absurd rfl h
    · rintro ⟨intent, h⟩
      cases hintent.symm.trans h.intent_eq
  · rw [decideWithAuthorizer_eq hintent hev, verdict_ne_deny_iff, actionInList_eq_false_iff]
    constructor
    · rintro ⟨hcanonical, hdeny, hres⟩
      obtain ⟨hholder, hlen, hcap⟩ := resolve_authorized_iff.mp hres
      exact ⟨intent, hintent, hcanonical, hdeny, hholder, hlen, hcap⟩
    · rintro ⟨intent', h⟩
      obtain rfl := Option.some.inj (hintent.symm.trans h.intent_eq)
      exact ⟨h.canonical, h.not_denied,
        resolve_authorized_iff.mpr ⟨h.holder, h.bounded, h.authorized⟩⟩

/-- The reported capability is the first candidate that authorizes the intent. -/
theorem authorizingCapability_first {intent : ActionIntent} (h : Admissible X input intent)
    {ev : String} (hev : X.evaluatorVersion input.policy = .ok ev) :
    ∃ before cap after, input.capabilities = before ++ cap :: after ∧
      input.AdmittedBy X intent cap ∧ (∀ c ∈ before, ¬ input.AdmittedBy X intent c) ∧
      (X.decideWithAuthorizer input).authorizingCapability = some cap := by
  have hres : (X.resolution input intent.toGovernedIntent).authorized = true :=
    resolve_authorized_iff.mpr ⟨h.holder, h.bounded, h.authorized⟩
  obtain ⟨before, cap, after, hsplit, hcap, hbefore, hreport⟩ := resolve_capability_first hres
  refine ⟨before, cap, after, hsplit, hcap, hbefore, ?_⟩
  rw [decideWithAuthorizer_eq h.intent_eq hev,
    (verdict_pass h.canonical (actionInList_eq_false_iff.mpr h.not_denied) hres).2]
  exact hreport

/-- Replacing the candidates changes effect, tier and obligations only if it changes
whether one of them authorizes. -/
theorem decide_congr {capabilities : List Capability}
    (h : ∀ intent, (X.resolution { input with capabilities } intent).authorized =
      (X.resolution input intent).authorized) :
    (X.decide { input with capabilities }).effect = (X.decide input).effect ∧
      (X.decide { input with capabilities }).tier = (X.decide input).tier ∧
      (X.decide { input with capabilities }).obligations = (X.decide input).obligations := by
  unfold Externals.decide Externals.decideWithAuthorizer
  cases governedView input.intent with
  | error e => exact ⟨rfl, rfl, rfl⟩
  | ok governed =>
    change (X.decideCore { input with capabilities } governed).decision.effect =
        (X.decideCore input governed).decision.effect ∧
      (X.decideCore { input with capabilities } governed).decision.tier =
        (X.decideCore input governed).decision.tier ∧
      (X.decideCore { input with capabilities } governed).decision.obligations =
        (X.decideCore input governed).decision.obligations
    unfold Externals.decideCore
    cases X.evaluatorVersion input.policy with
    | error e => exact ⟨rfl, rfl, rfl⟩
    | ok ev => exact verdict_congr (h governed)

/-- The resolver does not see the order of the candidates. -/
theorem resolution_perm {capabilities : List Capability}
    (h : capabilities.Perm input.capabilities) (intent : GovernedIntent) :
    (X.resolution { input with capabilities } intent).authorized =
      (X.resolution input intent).authorized := by
  rw [Bool.eq_iff_iff]
  unfold Externals.resolution
  rw [resolve_authorized_iff, resolve_authorized_iff]
  simp only [h.length_eq, h.mem_iff]
  rfl

end Admission

/-- **Exact admission.** For an encodable policy the kernel does not deny exactly the
admissible inputs, and reports the first capability that authorizes the intent. Effect,
tier and obligations do not depend on the order of the candidates, and further
candidates, throwing ones included, never turn an admission into a denial. -/
theorem decide_admission (X : Externals) (input : KernelInput) (ev : String)
    (hev : X.evaluatorVersion input.policy = .ok ev) :
    ((X.decide input).effect ≠ .deny ↔ ∃ intent, Admissible X input intent) ∧
      (∀ intent, Admissible X input intent →
        ∃ before cap after, input.capabilities = before ++ cap :: after ∧
          input.AdmittedBy X intent cap ∧ (∀ c ∈ before, ¬ input.AdmittedBy X intent c) ∧
          (X.decideWithAuthorizer input).authorizingCapability = some cap) ∧
      (∀ capabilities, capabilities.Perm input.capabilities →
        (X.decide { input with capabilities }).effect = (X.decide input).effect ∧
          (X.decide { input with capabilities }).tier = (X.decide input).tier ∧
          (X.decide { input with capabilities }).obligations = (X.decide input).obligations) ∧
      ∀ capabilities, input.capabilities ⊆ capabilities → capabilities.length ≤ maxCandidates →
        (X.decide input).effect ≠ .deny →
          (X.decide { input with capabilities }).effect ≠ .deny := by
  refine ⟨decide_ne_deny_iff hev, fun intent h => authorizingCapability_first h hev,
    fun capabilities hperm => decide_congr (resolution_perm hperm),
    fun capabilities hsub hlen hne => ?_⟩
  obtain ⟨intent, h⟩ := (decide_ne_deny_iff hev).mp hne
  obtain ⟨cap, hmem, hcap⟩ := h.authorized
  exact (@decide_ne_deny_iff X { input with capabilities } ev hev).mpr
    ⟨intent, h.intent_eq, h.canonical, h.not_denied, h.holder, hlen, cap, hsub hmem, hcap⟩

/-- `C` reads, with the sample chain and a candidate that verifies nothing before it. -/
def sampleInput : KernelInput where
  intent := some ⟨⟨"data.read", "r", some "D", some 3⟩, none⟩
  capabilities := [⟨[]⟩, ⟨[sampleRoot, sampleDelegation]⟩]
  policy := ⟨"0.1.0", [⟨"data", .t1⟩], ["data.delete"], [], .t3⟩
  trustedRoots := [[65]]
  now := 20
  observedAggregate := 40
  holder := some "C"
  revoked := none

/-- `decide_admission` at the sample input, which is allowed. -/
theorem decide_admission_sample :
    (plainExternals.decide sampleInput).effect = .allow ∧
      ∃ intent, Admissible plainExternals sampleInput intent := by
  have hallow : (plainExternals.decide sampleInput).effect = .allow := by decide +kernel
  refine ⟨hallow, (decide_admission plainExternals sampleInput _ rfl).1.mp ?_⟩
  rw [hallow]
  exact nofun

end Nerion
