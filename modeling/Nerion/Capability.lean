import Nerion.Crypto
import Mathlib.Data.List.Chain
import Mathlib.Data.Set.Basic

/-!
# Capabilities (`capabilities/src`)

Grants, attenuation, delegation chains and the default-deny resolver. A grant's numbers
are arbitrary JavaScript numbers, since they arrive from outside; the guards that catch
malformed ones are part of the model.

* `authorizesIntent_iff`, `isAttenuationOf_iff` — what each predicate checks;
* `authority_anti` — an attenuation authorizes at most what its parent does;
* `verifyChain_sound` — what an accepted chain is: signed link by link, rooted in a
  trusted key, each link an attenuation of the one before; `verifyChain_complete` is the
  converse.
-/

namespace Nerion

/-- `GovernedIntent`: an action intent without its parameters. -/
structure GovernedIntent where
  /-- action type, e.g. `payment.transfer` -/
  type : String
  /-- the resource the action targets -/
  resource : String
  /-- optional counterparty reference -/
  counterparty : Option String
  /-- optional amount in minor units -/
  amount : Option JsNum

structure ActionIntent extends GovernedIntent where
  /-- typed parameters, hashed into receipts and never read by a decision -/
  params : Option (List (String × Cbor))

/-- `CapabilityGrant`; `none` is the source's `null`, no restriction. -/
structure CapabilityGrant where
  /-- content-derived id -/
  id : String
  /-- hex of the issuer's public key -/
  issuer : String
  /-- hex of the subject's public key -/
  subject : String
  /-- allowed action types -/
  actions : List String
  /-- ceiling of a single action -/
  perActionCeiling : Option JsNum
  /-- ceiling of the rolling aggregate -/
  aggregateCap : Option JsNum
  /-- allowed counterparties -/
  counterparties : Option (List String)
  /-- highest risk tier -/
  maxTier : JsNum
  /-- start of the validity window -/
  notBefore : JsNum
  /-- end of the validity window -/
  notAfter : JsNum
  /-- whether the holder may delegate -/
  delegable : Bool

structure CapabilityLink where
  grant : CapabilityGrant
  /-- suite of the signature -/
  suite : String
  /-- key that signed the link -/
  signerPublicKey : Bytes
  /-- signature over the grant -/
  sig : Bytes

/-- `Capability`: a root grant and the delegations after it. -/
structure Capability where
  /-- the links, root first -/
  chain : List CapabilityLink

structure EvalContext where
  /-- the caller's clock -/
  now : JsNum
  /-- risk tier of the intent -/
  tier : JsNum
  /-- aggregate already consumed -/
  observedAggregate : JsNum
  /-- hex of the requester's public key -/
  holder : Option String

/-! ## Grants -/

/-- `Number.isSafeInteger(x) && x >= 0`. -/
def isSafeNat (x : JsNum) : Bool := x.isSafeInteger && JsNum.le 0 x

/-- The counterparty check of `authorizesIntent`. -/
def allowsCounterparty (allowed : Option (List String)) (counterparty : Option String) : Bool :=
  match allowed, counterparty with
  | none, _ => true
  | some _, none => false
  | some cs, some c => cs.contains c

def authorizesIntent (grant : CapabilityGrant) (intent : GovernedIntent) (ctx : EvalContext) :
    Bool :=
  if !grant.actions.contains intent.type then false
  else if !ctx.now.isSafeInteger then false
  else if !grant.notBefore.isSafeInteger || !grant.notAfter.isSafeInteger then false
  else if ctx.now.lt grant.notBefore || grant.notAfter.lt ctx.now then false
  else if !isSafeNat ctx.tier then false
  else if !isSafeNat grant.maxTier then false
  else if grant.maxTier.lt ctx.tier then false
  else if !allowsCounterparty grant.counterparties intent.counterparty then false
  else if intent.amount.any (!isSafeNat ·) then false
  else if !isSafeNat ctx.observedAggregate then false
  else
    let amount := intent.amount.getD 0
    if grant.perActionCeiling.any (!isSafeNat ·) then false
    else if grant.aggregateCap.any (!isSafeNat ·) then false
    else if grant.perActionCeiling.any (·.lt amount) then false
    else if grant.aggregateCap.any (·.lt (ctx.observedAggregate + amount)) then false
    else true

def ceilingNarrows (child parent : Option JsNum) : Bool :=
  match parent, child with
  | none, _ => true
  | some _, none => false
  | some p, some c => c.le p

def setNarrows (child parent : Option (List String)) : Bool :=
  match parent, child with
  | none, _ => true
  | some _, none => false
  | some p, some c => c.all p.contains

def isWellFormedGrantNumerics (g : CapabilityGrant) : Bool :=
  isSafeNat g.maxTier && g.notBefore.isSafeInteger && g.notAfter.isSafeInteger &&
    g.perActionCeiling.all isSafeNat && g.aggregateCap.all isSafeNat

def isAttenuationOf (child parent : CapabilityGrant) : Bool :=
  if !isWellFormedGrantNumerics child || !isWellFormedGrantNumerics parent then false
  else
    child.issuer == parent.subject && child.actions.all parent.actions.contains &&
      ceilingNarrows child.perActionCeiling parent.perActionCeiling &&
      ceilingNarrows child.aggregateCap parent.aggregateCap &&
      setNarrows child.counterparties parent.counterparties && child.maxTier.le parent.maxTier &&
      parent.notBefore.le child.notBefore && child.notAfter.le parent.notAfter &&
      (!child.delegable || parent.delegable)

/-! ## Chains -/

/-- The body of a grant as `encodeCanonical` sees it: every field but the id. -/
def grantBody (g : CapabilityGrant) : List (String × Cbor) :=
  let ceiling : Option JsNum → Cbor := fun c => (c.map Cbor.num).getD .null
  [("issuer", .text g.issuer), ("subject", .text g.subject),
    ("actions", .array (g.actions.map .text)), ("perActionCeiling", ceiling g.perActionCeiling),
    ("aggregateCap", ceiling g.aggregateCap),
    ("counterparties", (g.counterparties.map fun cs => .array (cs.map .text)).getD .null),
    ("maxTier", .num g.maxTier), ("notBefore", .num g.notBefore), ("notAfter", .num g.notAfter),
    ("delegable", .bool g.delegable)]

/-- `slice(0, n)` of a hex string. -/
def hexPrefixOf (n : ℕ) (s : String) : String := String.ofList (s.toList.take n)

/-- `MAX_CHAIN_LINKS`. -/
def maxChainLinks : ℕ := 32

/-- `new AttenuationError(message)`. -/
def attenuationError (message : String) : JsError := ⟨"AttenuationError", message⟩

/-- `effectiveGrant`: the tail of the chain. -/
def effectiveGrant (cap : Capability) : Except JsError CapabilityGrant :=
  match cap.chain.getLast? with
  | some link => .ok link.grant
  | none => .error (attenuationError "empty capability chain")

namespace Externals

variable (X : Externals)

def deriveId (body : List (String × Cbor)) : Except JsError String :=
  (X.encodeCanonical (.map body)).map fun bytes => hexPrefixOf 24 (X.bytesToHex (X.digest bytes))

def grantSigningMessage (suite : String) (g : CapabilityGrant) : Except JsError Bytes :=
  X.encodeCanonical (.array [.text "polarseek/capability/grant/v2", .text suite,
    .map (("id", .text g.id) :: grantBody g)])

/-- The checks of `verifyChain` that look at one link alone. -/
def verifySignedLink (chainSuite : String) (link : CapabilityLink) : Except JsError Bool :=
  if !activeSuiteIds.contains link.suite then .ok false
  else if link.suite ≠ chainSuite then .ok false
  else if link.grant.issuer ≠ X.bytesToHex link.signerPublicKey then .ok false
  else do
    let id ← X.deriveId (grantBody link.grant)
    if link.grant.id ≠ id then .ok false
    else do
      let signer ← X.signerFor link.suite
      let message ← X.grantSigningMessage link.suite link.grant
      signer.verify link.sig message link.signerPublicKey

/-- The checks of `verifyChain` that look at the link before, or at the trusted roots. -/
def verifyDelegation (trusted : List String) (prev : Option CapabilityLink)
    (link : CapabilityLink) : Bool :=
  let signerHex := X.bytesToHex link.signerPublicKey
  match prev with
  | none => trusted.contains signerHex
  | some prev => prev.grant.delegable && signerHex == prev.grant.subject &&
      isAttenuationOf link.grant prev.grant

/-- The loop of `verifyChain`. -/
def verifyLinks (trusted : List String) (chainSuite : String) :
    Option CapabilityLink → List CapabilityLink → Except JsError Bool
  | _, [] => .ok true
  | prev, link :: links => do
    let signed ← X.verifySignedLink chainSuite link
    if signed && X.verifyDelegation trusted prev link then
      verifyLinks trusted chainSuite (some link) links
    else .ok false

def verifyChain (cap : Capability) (trustedRoots : List Bytes) : Except JsError Bool :=
  match cap.chain with
  | [] => .ok false
  | root :: links =>
    if maxChainLinks < (root :: links).length then .ok false
    else X.verifyLinks (trustedRoots.map X.bytesToHex) root.suite none (root :: links)

end Externals

/-! ## What a grant authorizes -/

/-- Everything `authorizesIntent` checks. -/
structure Authorizes (g : CapabilityGrant) (intent : GovernedIntent) (ctx : EvalContext) :
    Prop where
  /-- the action type is listed -/
  action : intent.type ∈ g.actions
  /-- the clock is a safe integer -/
  now_safe : ctx.now.isSafeInteger = true
  /-- the bounds of the window are safe integers -/
  window_safe : g.notBefore.isSafeInteger = true ∧ g.notAfter.isSafeInteger = true
  /-- the window is open -/
  window : ctx.now.lt g.notBefore = false ∧ g.notAfter.lt ctx.now = false
  /-- the tier is a safe natural number -/
  tier_safe : isSafeNat ctx.tier = true
  /-- the grant's bound on the tier is one -/
  maxTier_safe : isSafeNat g.maxTier = true
  /-- the tier is within the bound -/
  tier : g.maxTier.lt ctx.tier = false
  /-- a restricted grant names the counterparty -/
  counterparty : ∀ cs ∈ g.counterparties, ∃ c ∈ intent.counterparty, c ∈ cs
  /-- an amount is a safe natural number -/
  amount_safe : ∀ a ∈ intent.amount, isSafeNat a = true
  /-- the aggregate is a safe natural number -/
  aggregate_safe : isSafeNat ctx.observedAggregate = true
  /-- a ceiling is a safe natural number -/
  ceiling_safe : ∀ c ∈ g.perActionCeiling, isSafeNat c = true
  /-- a cap is a safe natural number -/
  cap_safe : ∀ c ∈ g.aggregateCap, isSafeNat c = true
  /-- the amount is within the ceiling -/
  ceiling : ∀ c ∈ g.perActionCeiling, c.lt (intent.amount.getD 0) = false
  /-- the aggregate with the amount is within the cap -/
  cap : ∀ c ∈ g.aggregateCap, c.lt (ctx.observedAggregate + intent.amount.getD 0) = false

theorem allowsCounterparty_iff {allowed : Option (List String)} {counterparty : Option String} :
    allowsCounterparty allowed counterparty = true ↔
      ∀ cs ∈ allowed, ∃ c ∈ counterparty, c ∈ cs := by
  cases allowed <;> cases counterparty <;> simp [allowsCounterparty]

theorem any_eq_false_iff {α : Type} {o : Option α} {p : α → Bool} :
    o.any p = false ↔ ∀ a ∈ o, p a = false := by
  cases o <;> simp

/-- `authorizesIntent` decides `Authorizes`. -/
theorem authorizesIntent_iff {g : CapabilityGrant} {intent : GovernedIntent} {ctx : EvalContext} :
    authorizesIntent g intent ctx = true ↔ Authorizes g intent ctx := by
  rw [authorizesIntent]
  simp only [Bool.if_false_left, Bool.and_eq_true, Bool.not_eq_true', decide_eq_false_iff_not,
    Bool.not_eq_true, Bool.not_eq_false, Bool.not_eq_false', Bool.or_eq_false_iff,
    List.contains_iff_mem, allowsCounterparty_iff, any_eq_false_iff]
  constructor
  · rintro ⟨h1, h2, h3, h4, h5, h6, h7, h8, h9, h10, h11, h12, h13, h14, -⟩
    exact ⟨h1, h2, h3, h4, h5, h6, h7, h8, h9, h10, h11, h12, h13, h14⟩
  · rintro ⟨h1, h2, h3, h4, h5, h6, h7, h8, h9, h10, h11, h12, h13, h14⟩
    exact ⟨h1, h2, h3, h4, h5, h6, h7, h8, h9, h10, h11, h12, h13, h14, trivial⟩

/-- The numbers of a grant that its checks rely on. -/
structure WellFormed (g : CapabilityGrant) : Prop where
  /-- the tier bound -/
  maxTier : isSafeNat g.maxTier = true
  window : g.notBefore.isSafeInteger = true ∧ g.notAfter.isSafeInteger = true
  /-- the ceiling, if any -/
  ceiling : ∀ c ∈ g.perActionCeiling, isSafeNat c = true
  /-- the cap, if any -/
  cap : ∀ c ∈ g.aggregateCap, isSafeNat c = true

theorem isWellFormedGrantNumerics_iff {g : CapabilityGrant} :
    isWellFormedGrantNumerics g = true ↔ WellFormed g := by
  rw [isWellFormedGrantNumerics]
  simp only [Bool.and_eq_true, Option.all_eq_true]
  constructor
  · rintro ⟨⟨⟨⟨h1, h2⟩, h3⟩, h4⟩, h5⟩
    exact ⟨h1, ⟨h2, h3⟩, h4, h5⟩
  · rintro ⟨h1, ⟨h2, h3⟩, h4, h5⟩
    exact ⟨⟨⟨⟨h1, h2⟩, h3⟩, h4⟩, h5⟩

/-- Everything `isAttenuationOf` checks. -/
structure Attenuates (child parent : CapabilityGrant) : Prop where
  /-- the child's numbers are well-formed -/
  child_wf : WellFormed child
  /-- the parent's numbers are well-formed -/
  parent_wf : WellFormed parent
  /-- the parent's subject issued the child -/
  issuer : child.issuer = parent.subject
  /-- no new action -/
  actions : ∀ a ∈ child.actions, a ∈ parent.actions
  /-- a ceiling stays, and only falls -/
  ceiling : ∀ p ∈ parent.perActionCeiling, ∃ c ∈ child.perActionCeiling, c.le p = true
  /-- a cap stays, and only falls -/
  cap : ∀ p ∈ parent.aggregateCap, ∃ c ∈ child.aggregateCap, c.le p = true
  /-- a counterparty list stays, and only shrinks -/
  counterparties : ∀ ps ∈ parent.counterparties, ∃ cs ∈ child.counterparties, ∀ c ∈ cs, c ∈ ps
  /-- no higher tier -/
  tier : child.maxTier.le parent.maxTier = true
  /-- no earlier start -/
  notBefore : parent.notBefore.le child.notBefore = true
  /-- no later end -/
  notAfter : child.notAfter.le parent.notAfter = true
  /-- no delegation right the parent lacks -/
  delegable : child.delegable = true → parent.delegable = true

theorem ceilingNarrows_iff {child parent : Option JsNum} :
    ceilingNarrows child parent = true ↔ ∀ p ∈ parent, ∃ c ∈ child, c.le p = true := by
  cases parent <;> cases child <;> simp [ceilingNarrows]

theorem setNarrows_iff {child parent : Option (List String)} :
    setNarrows child parent = true ↔ ∀ ps ∈ parent, ∃ cs ∈ child, ∀ c ∈ cs, c ∈ ps := by
  cases parent <;> cases child <;> simp [setNarrows]

/-- `isAttenuationOf` decides `Attenuates`. -/
theorem isAttenuationOf_iff {child parent : CapabilityGrant} :
    isAttenuationOf child parent = true ↔ Attenuates child parent := by
  rw [isAttenuationOf]
  simp only [Bool.if_false_left, Bool.and_eq_true, Bool.not_eq_true', decide_eq_false_iff_not,
    not_or, Bool.not_eq_false, isWellFormedGrantNumerics_iff, beq_iff_eq, List.all_eq_true,
    List.contains_iff_mem, ceilingNarrows_iff, setNarrows_iff, Bool.or_eq_true]
  constructor
  · rintro ⟨⟨h1, h2⟩, ⟨⟨⟨⟨⟨⟨⟨h3, h4⟩, h5⟩, h6⟩, h7⟩, h8⟩, h9⟩, h10⟩, h11⟩
    refine ⟨h1, h2, h3, h4, h5, h6, h7, h8, h9, h10, fun hd => ?_⟩
    exact h11.resolve_left (by rw [hd]; exact Bool.noConfusion)
  · rintro ⟨h1, h2, h3, h4, h5, h6, h7, h8, h9, h10, h11⟩
    refine ⟨⟨h1, h2⟩, ⟨⟨⟨⟨⟨⟨⟨h3, h4⟩, h5⟩, h6⟩, h7⟩, h8⟩, h9⟩, h10⟩, ?_⟩
    cases hd : child.delegable with
    | false => exact Or.inl rfl
    | true => exact Or.inr (h11 hd)

/-- What a grant is for: the requests it authorizes. -/
def authority (g : CapabilityGrant) : Set (GovernedIntent × EvalContext) :=
  {r | authorizesIntent g r.1 r.2 = true}

/-- **Attenuation never amplifies.** Dimension by dimension, whatever passes the child's
check passes the parent's. -/
theorem authority_anti {child parent : CapabilityGrant} (h : isAttenuationOf child parent = true) :
    authority child ⊆ authority parent := by
  rintro ⟨intent, ctx⟩ hmem
  obtain ha := isAttenuationOf_iff.mp h
  obtain hc := authorizesIntent_iff.mp hmem
  refine authorizesIntent_iff.mpr
    { action := ha.actions _ hc.action
      now_safe := hc.now_safe
      window_safe := ha.parent_wf.window
      window := ⟨?_, ?_⟩
      tier_safe := hc.tier_safe
      maxTier_safe := ha.parent_wf.maxTier
      tier := ?_
      counterparty := ?_
      amount_safe := hc.amount_safe
      aggregate_safe := hc.aggregate_safe
      ceiling_safe := ha.parent_wf.ceiling
      cap_safe := ha.parent_wf.cap
      ceiling := ?_
      cap := ?_ }
  · rw [Bool.eq_false_iff]
    intro hlt
    exact Bool.eq_false_iff.mp hc.window.1 (JsNum.lt_of_lt_of_le hlt ha.notBefore)
  · rw [Bool.eq_false_iff]
    intro hlt
    exact Bool.eq_false_iff.mp hc.window.2 (JsNum.lt_of_le_of_lt ha.notAfter hlt)
  · rw [Bool.eq_false_iff]
    intro hlt
    exact Bool.eq_false_iff.mp hc.tier (JsNum.lt_of_le_of_lt ha.tier hlt)
  · intro ps hps
    obtain ⟨cs, hcs, hsub⟩ := ha.counterparties ps hps
    obtain ⟨c, hcp, hmem⟩ := hc.counterparty cs hcs
    exact ⟨c, hcp, hsub c hmem⟩
  · intro p hp
    obtain ⟨c, hcc, hle⟩ := ha.ceiling p hp
    rw [Bool.eq_false_iff]
    intro hlt
    exact Bool.eq_false_iff.mp (hc.ceiling c hcc) (JsNum.lt_of_le_of_lt hle hlt)
  · intro p hp
    obtain ⟨c, hcc, hle⟩ := ha.cap p hp
    rw [Bool.eq_false_iff]
    intro hlt
    exact Bool.eq_false_iff.mp (hc.cap c hcc) (JsNum.lt_of_le_of_lt hle hlt)

/-! ## What an accepted chain is -/

section Chain

variable {X : Externals}

/-- A link that passed the checks on itself. -/
structure SignedLink (X : Externals) (chainSuite : String) (link : CapabilityLink) : Prop where
  /-- the suite is in use -/
  suite_active : link.suite ∈ activeSuiteIds
  /-- the whole chain is of one suite -/
  suite_eq : link.suite = chainSuite
  /-- the issuer is the signing key -/
  issuer : link.grant.issuer = X.bytesToHex link.signerPublicKey
  /-- the id is the hash of the body -/
  id_eq : X.deriveId (grantBody link.grant) = .ok link.grant.id
  /-- the signature verifies over the grant -/
  signed : ∃ message, X.grantSigningMessage link.suite link.grant = .ok message ∧
    X.mlDsa87.verify link.sig message link.signerPublicKey = .ok true

/-- A link that delegates from the one before it. -/
structure Delegates (X : Externals) (prev link : CapabilityLink) : Prop where
  /-- the parent may be delegated -/
  delegable : prev.grant.delegable = true
  /-- the link is signed by the key the parent was granted to -/
  holder : X.bytesToHex link.signerPublicKey = prev.grant.subject
  /-- the link only narrows -/
  attenuates : isAttenuationOf link.grant prev.grant = true

variable {chainSuite : String} {link : CapabilityLink} {trusted : List String}
  {links : List CapabilityLink}

theorem signedLink_of_verify (h : X.verifySignedLink chainSuite link = .ok true) :
    SignedLink X chainSuite link := by
  rw [Externals.verifySignedLink] at h
  split at h
  · cases h
  rename_i hactive
  split at h
  · cases h
  rename_i hsuite
  split at h
  · cases h
  rename_i hissuer
  obtain ⟨id, hid, h⟩ := Except.bind_eq_ok h
  split at h
  · cases h
  rename_i hideq
  obtain ⟨signer, hsigner, h⟩ := Except.bind_eq_ok h
  obtain ⟨message, hmessage, h⟩ := Except.bind_eq_ok h
  have hmem : link.suite ∈ activeSuiteIds := by simpa using hactive
  rw [X.signerFor_of_active hmem] at hsigner
  obtain rfl := Except.ok.inj hsigner
  exact ⟨hmem, not_not.mp hsuite, not_not.mp hissuer, not_not.mp hideq ▸ hid, message, hmessage, h⟩

theorem delegates_of_verify {prev link : CapabilityLink}
    (h : X.verifyDelegation trusted (some prev) link = true) : Delegates X prev link := by
  rw [Externals.verifyDelegation] at h
  rw [Bool.and_eq_true, Bool.and_eq_true, beq_iff_eq] at h
  exact ⟨h.1.1, h.1.2, h.2⟩

/-- One round of the loop: the link is signed, and the loop goes on after it. -/
theorem verifyLinks_cons {prev : Option CapabilityLink}
    (h : X.verifyLinks trusted chainSuite prev (link :: links) = .ok true) :
    SignedLink X chainSuite link ∧ X.verifyDelegation trusted prev link = true ∧
      X.verifyLinks trusted chainSuite (some link) links = .ok true := by
  rw [Externals.verifyLinks] at h
  obtain ⟨signed, hsigned, h⟩ := Except.bind_eq_ok h
  split at h
  · rename_i hboth
    obtain ⟨rfl, hdel⟩ := Bool.and_eq_true_iff.mp hboth
    exact ⟨signedLink_of_verify hsigned, hdel, h⟩
  · cases h

/-- The whole loop, by induction on the links it has still to see. -/
theorem isChain_of_verifyLinks {prev : CapabilityLink}
    (h : X.verifyLinks trusted chainSuite (some prev) links = .ok true) :
    (∀ link ∈ links, SignedLink X chainSuite link) ∧ (prev :: links).IsChain (Delegates X) := by
  induction links generalizing prev with
  | nil => exact ⟨fun _ hl => absurd hl List.not_mem_nil, .singleton prev⟩
  | cons link links ih =>
    obtain ⟨hsigned, hdel, hrest⟩ := verifyLinks_cons h
    obtain ⟨hall, hchain⟩ := ih hrest
    refine ⟨?_, .cons_cons (delegates_of_verify hdel) hchain⟩
    rintro l hl
    rcases List.mem_cons.mp hl with rfl | hl
    · exact hsigned
    · exact hall l hl

/-- **Accepted chains.** Bounded, signed link by link under one active suite, rooted in a
trusted key, and narrowing from link to link. -/
theorem verifyChain_sound {cap : Capability} {trustedRoots : List Bytes}
    (h : X.verifyChain cap trustedRoots = .ok true) :
    ∃ root links, cap.chain = root :: links ∧ cap.chain.length ≤ maxChainLinks ∧
      X.bytesToHex root.signerPublicKey ∈ trustedRoots.map X.bytesToHex ∧
      (∀ link ∈ cap.chain, SignedLink X root.suite link) ∧ cap.chain.IsChain (Delegates X) := by
  rw [Externals.verifyChain] at h
  split at h
  · cases h
  · rename_i root links hchain
    split at h
    · cases h
    · rename_i hlen
      obtain ⟨hsigned, htrusted, hrest⟩ := verifyLinks_cons h
      obtain ⟨hall, hdel⟩ := isChain_of_verifyLinks hrest
      rw [hchain]
      refine ⟨root, links, rfl, not_lt.mp hlen, List.contains_iff_mem.mp htrusted, ?_, hdel⟩
      rintro l hl
      rcases List.mem_cons.mp hl with rfl | hl
      · exact hsigned
      · exact hall l hl

theorem verifySignedLink_of_signedLink (h : SignedLink X chainSuite link) :
    X.verifySignedLink chainSuite link = .ok true := by
  obtain ⟨message, hmessage, hverify⟩ := h.signed
  rw [Externals.verifySignedLink, if_neg (by simpa using h.suite_active),
    if_neg (not_not_intro h.suite_eq), if_neg (not_not_intro h.issuer)]
  refine Except.bind_ok h.id_eq ?_
  rw [if_neg (not_not_intro rfl)]
  exact Except.bind_ok (X.signerFor_of_active h.suite_active) (Except.bind_ok hmessage hverify)

theorem verifyDelegation_of_delegates {prev link : CapabilityLink} (h : Delegates X prev link) :
    X.verifyDelegation trusted (some prev) link = true := by
  rw [Externals.verifyDelegation]
  simp only [Bool.and_eq_true, beq_iff_eq]
  exact ⟨⟨h.delegable, h.holder⟩, h.attenuates⟩

/-- One round of the loop, the converse of `verifyLinks_cons`. -/
theorem verifyLinks_cons_of {prev : Option CapabilityLink} (hsigned : SignedLink X chainSuite link)
    (hdel : X.verifyDelegation trusted prev link = true)
    (hrest : X.verifyLinks trusted chainSuite (some link) links = .ok true) :
    X.verifyLinks trusted chainSuite prev (link :: links) = .ok true := by
  rw [Externals.verifyLinks]
  refine Except.bind_ok (verifySignedLink_of_signedLink hsigned) ?_
  rw [hdel, Bool.and_self, if_pos rfl, hrest]

theorem verifyLinks_of_isChain {prev : CapabilityLink}
    (hsigned : ∀ link ∈ links, SignedLink X chainSuite link)
    (hchain : (prev :: links).IsChain (Delegates X)) :
    X.verifyLinks trusted chainSuite (some prev) links = .ok true := by
  induction links generalizing prev with
  | nil => rfl
  | cons link links ih =>
    obtain ⟨hdel, hrest⟩ := List.isChain_cons_cons.mp hchain
    exact verifyLinks_cons_of (hsigned link List.mem_cons_self)
      (verifyDelegation_of_delegates hdel)
      (ih (fun l hl => hsigned l (List.mem_cons_of_mem _ hl)) hrest)

/-- **Chains that are accepted**, the converse of `verifyChain_sound`. -/
theorem verifyChain_complete {root : CapabilityLink} {trustedRoots : List Bytes}
    (hlen : (root :: links).length ≤ maxChainLinks)
    (htrusted : X.bytesToHex root.signerPublicKey ∈ trustedRoots.map X.bytesToHex)
    (hsigned : ∀ link ∈ root :: links, SignedLink X root.suite link)
    (hchain : (root :: links).IsChain (Delegates X)) :
    X.verifyChain ⟨root :: links⟩ trustedRoots = .ok true := by
  rw [Externals.verifyChain]
  dsimp only
  rw [if_neg (not_lt.mpr hlen)]
  exact verifyLinks_cons_of (hsigned root List.mem_cons_self) (List.contains_iff_mem.mpr htrusted)
    (verifyLinks_of_isChain (fun l hl => hsigned l (List.mem_cons_of_mem _ hl)) hchain)

/-- Along a chain the tail authorizes least. -/
theorem authorizes_of_tail {chain : List CapabilityLink} {tail : CapabilityLink}
    (hchain : chain.IsChain (Delegates X)) (htail : chain.getLast? = some tail)
    {intent : GovernedIntent} {ctx : EvalContext}
    (h : authorizesIntent tail.grant intent ctx = true) :
    ∀ link ∈ chain, authorizesIntent link.grant intent ctx = true := by
  refine hchain.backwards_induction (fun l => authorizesIntent l.grant intent ctx = true) _ ?_ ?_
  · intro parent child hdel hchild
    exact authority_anti hdel.attenuates (show (intent, ctx) ∈ authority child.grant from hchild)
  · intro hne
    rw [List.getLast?_eq_some_getLast hne] at htail
    exact Option.some.inj htail ▸ h

/-- **Delegation never amplifies.** In an accepted chain, what the effective grant
authorizes every link authorizes, the root signed by a trusted authority included; so the
resolver's check of every link decides exactly as the tail alone does. -/
theorem effectiveGrant_least (X : Externals) (cap : Capability) (trustedRoots : List Bytes)
    (h : X.verifyChain cap trustedRoots = .ok true) :
    ∃ root ∈ cap.chain, cap.chain.head? = some root ∧
      X.bytesToHex root.signerPublicKey ∈ trustedRoots.map X.bytesToHex ∧
      ∃ g, effectiveGrant cap = .ok g ∧ ∀ (intent : ActionIntent) (ctx : EvalContext),
        (authorizesIntent g intent.toGovernedIntent ctx = true →
          ∀ link ∈ cap.chain, authorizesIntent link.grant intent.toGovernedIntent ctx = true) ∧
        (cap.chain.all fun link => authorizesIntent link.grant intent.toGovernedIntent ctx) =
          authorizesIntent g intent.toGovernedIntent ctx := by
  obtain ⟨root, links, hcons, -, htrusted, -, hdel⟩ := verifyChain_sound h
  obtain ⟨tail, htail⟩ : ∃ tail, cap.chain.getLast? = some tail := by
    rw [hcons]
    exact ⟨_, List.getLast?_eq_some_getLast (List.cons_ne_nil root links)⟩
  refine ⟨root, by rw [hcons]; exact List.mem_cons_self, by rw [hcons]; rfl, htrusted,
    tail.grant, by rw [effectiveGrant, htail], fun intent ctx => ?_⟩
  have hall : authorizesIntent tail.grant intent.toGovernedIntent ctx = true →
      ∀ link ∈ cap.chain, authorizesIntent link.grant intent.toGovernedIntent ctx = true :=
    authorizes_of_tail hdel htail
  refine ⟨hall, ?_⟩
  rw [Bool.eq_iff_iff, List.all_eq_true]
  exact ⟨fun ha => ha tail (List.mem_of_getLast? htail), hall⟩

end Chain

/-- A root grant of two actions to `B`, for concrete runs. -/
def sampleRoot : CapabilityLink where
  grant := ⟨"", "A", "B", ["data.read", "data.create"], some 10, none, none, 2, 0, 100, true⟩
  suite := "PS-5"
  signerPublicKey := [65]
  sig := []

/-- A delegation from `B` to `C`, narrowed in every dimension. -/
def sampleDelegation : CapabilityLink where
  grant := ⟨"", "B", "C", ["data.read"], some 5, some 50, some ["D"], 1, 10, 90, false⟩
  suite := "PS-5"
  signerPublicKey := [66]
  sig := []

/-- `effectiveGrant_least` at a chain of two links. -/
theorem effectiveGrant_least_sample :
    ∃ root ∈ [sampleRoot, sampleDelegation], [sampleRoot, sampleDelegation].head? = some root ∧
      plainExternals.bytesToHex root.signerPublicKey ∈ [[65]].map plainExternals.bytesToHex ∧
      ∃ g, effectiveGrant ⟨[sampleRoot, sampleDelegation]⟩ = .ok g ∧
        ∀ (intent : ActionIntent) (ctx : EvalContext),
          (authorizesIntent g intent.toGovernedIntent ctx = true →
            ∀ link ∈ [sampleRoot, sampleDelegation],
              authorizesIntent link.grant intent.toGovernedIntent ctx = true) ∧
          ([sampleRoot, sampleDelegation].all fun link =>
              authorizesIntent link.grant intent.toGovernedIntent ctx) =
            authorizesIntent g intent.toGovernedIntent ctx :=
  effectiveGrant_least plainExternals ⟨[sampleRoot, sampleDelegation]⟩ [[65]]
    (by decide +kernel)

end Nerion
