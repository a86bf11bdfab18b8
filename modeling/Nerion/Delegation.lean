import Nerion.Capability
import Nerion.Chain

/-!
# Delegation (`capabilities/src`)

A root capability is issued by an authority, and its holders hand it on, each with a restriction
of its own. What `narrow` makes of a grant and a restriction is their intersection, and so is
what a whole sequence of delegations makes of the root grant.

* `authorizes_narrow_iff` — one restriction, dimension by dimension;
* `Delegated` — the state of a chain built by `issueRoot` and `attenuate`;
* `delegation_is_intersection` — a sequence of delegations.
-/

namespace Nerion

/-- `Attenuation`; an absent field restricts nothing. -/
structure Attenuation where
  /-- allowed action types -/
  actions : Option (List String)
  /-- ceiling of a single action -/
  perActionCeiling : Option JsNum
  /-- ceiling of the rolling aggregate -/
  aggregateCap : Option JsNum
  /-- allowed counterparties -/
  counterparties : Option (List String)
  /-- highest risk tier -/
  maxTier : Option JsNum
  /-- start of the validity window -/
  notBefore : Option JsNum
  /-- end of the validity window -/
  notAfter : Option JsNum
  /-- whether the new holder may delegate -/
  delegable : Option Bool

/-- `RootGrantSpec`; `undefined` and `null` are both no restriction. -/
structure RootGrantSpec where
  /-- hex of the holder's public key -/
  subject : String
  /-- allowed action types -/
  actions : List String
  /-- ceiling of a single action -/
  perActionCeiling : Option JsNum
  /-- ceiling of the rolling aggregate -/
  aggregateCap : Option JsNum
  /-- allowed counterparties -/
  counterparties : Option (List String)
  /-- highest risk tier -/
  maxTier : JsNum
  /-- start of the validity window -/
  notBefore : JsNum
  /-- end of the validity window -/
  notAfter : JsNum
  /-- whether the holder may delegate -/
  delegable : Bool

/-! ## Narrowing -/

def minNullable : Option JsNum → Option JsNum → Option JsNum
  | none, b => b
  | some a, none => some a
  | some a, some b => some (JsNum.mathMin a b)

/-- The counterparties of `narrow`. -/
def narrowCounterparties (parent r : Option (List String)) : Option (List String) :=
  match r, parent with
  | none, parent => parent
  | some cs, none => some cs
  | some cs, some ps => some (cs.filter ps.contains)

def narrow (parent : CapabilityGrant) (r : Attenuation) (id issuer subject : String) :
    CapabilityGrant where
  id := id
  issuer := issuer
  subject := subject
  actions := (r.actions.getD parent.actions).filter parent.actions.contains
  perActionCeiling := minNullable r.perActionCeiling parent.perActionCeiling
  aggregateCap := minNullable r.aggregateCap parent.aggregateCap
  counterparties := narrowCounterparties parent.counterparties r.counterparties
  maxTier := JsNum.mathMin (r.maxTier.getD parent.maxTier) parent.maxTier
  notBefore := JsNum.mathMax (r.notBefore.getD parent.notBefore) parent.notBefore
  notAfter := JsNum.mathMin (r.notAfter.getD parent.notAfter) parent.notAfter
  delegable := r.delegable.getD parent.delegable && parent.delegable

/-- The body of a root grant, before its id is derived. -/
def RootGrantSpec.toGrant (spec : RootGrantSpec) (issuer : String) : CapabilityGrant :=
  ⟨"", issuer, spec.subject, spec.actions, spec.perActionCeiling, spec.aggregateCap,
    spec.counterparties, spec.maxTier, spec.notBefore, spec.notAfter, spec.delegable⟩

namespace Externals

variable (X : Externals)

/-- A grant with the id of its content. -/
def withId (body : CapabilityGrant) : Except JsError CapabilityGrant := do
  let id ← X.deriveId (grantBody body)
  .ok { body with id }

/-- The link of a grant that a key signs. -/
def signGrant (grant : CapabilityGrant) (suite : String) (key : KeyPair) (entropy : Bytes) :
    Except JsError CapabilityLink := do
  let signer ← X.signerFor suite
  let message ← X.grantSigningMessage suite grant
  let sig ← signer.sign message key.secretKey entropy
  .ok ⟨grant, suite, key.publicKey, sig⟩

def issueRoot (spec : RootGrantSpec) (suite : String) (authority : KeyPair) (entropy : Bytes) :
    Except JsError Capability := do
  let grant ← X.withId (spec.toGrant (X.bytesToHex authority.publicKey))
  let link ← X.signGrant grant suite authority entropy
  .ok ⟨[link]⟩

def attenuate (parent : Capability) (restriction : Attenuation) (newSubject : String)
    (delegator : KeyPair) (entropy : Bytes) : Except JsError Capability :=
  match parent.chain.getLast? with
  | none => .error (attenuationError "empty capability chain")
  | some parentTail =>
    if !parentTail.grant.delegable then .error (attenuationError "parent grant is not delegable")
    else if X.bytesToHex delegator.publicKey ≠ parentTail.grant.subject then
      .error (attenuationError "delegator does not hold the parent subject key")
    else do
      let grant ← X.withId
        (narrow parentTail.grant restriction "" parentTail.grant.subject newSubject)
      if !isAttenuationOf grant parentTail.grant then
        .error (attenuationError "refusing to issue: child grant would broaden authority")
      else do
        let link ← X.signGrant grant parentTail.suite delegator entropy
        .ok ⟨parent.chain ++ [link]⟩

end Externals

/-- The arguments of a call of `attenuate`, and what the signer draws. -/
structure Delegation where
  restriction : Attenuation
  /-- hex of the new holder's public key -/
  newSubject : String
  /-- the key of the holder that delegates -/
  delegator : KeyPair
  /-- randomness of the signature -/
  entropy : Bytes

/-- Delegations one after the other. -/
def Externals.delegate (X : Externals) (cap : Capability) (steps : List Delegation) :
    Except JsError Capability :=
  steps.foldlM (fun cap d => X.attenuate cap d.restriction d.newSubject d.delegator d.entropy) cap

/-! ## What a restriction asks for -/

/-- The restriction is satisfied; an absent field asks for nothing. -/
structure Satisfies (r : Attenuation) (intent : GovernedIntent) (ctx : EvalContext) : Prop where
  /-- the action type is listed -/
  action : ∀ actions ∈ r.actions, intent.type ∈ actions
  /-- the amount is within the ceiling -/
  ceiling : ∀ c ∈ r.perActionCeiling, (intent.amount.getD 0).le c = true
  /-- the aggregate with the amount is within the cap -/
  cap : ∀ c ∈ r.aggregateCap, (ctx.observedAggregate + intent.amount.getD 0).le c = true
  /-- the counterparty is present and listed -/
  counterparty : ∀ cs ∈ r.counterparties, ∃ c ∈ intent.counterparty, c ∈ cs
  /-- the tier is within the bound -/
  tier : ∀ t ∈ r.maxTier, ctx.tier.le t = true
  /-- the window has opened -/
  notBefore : ∀ t ∈ r.notBefore, t.le ctx.now = true
  /-- the window has not closed -/
  notAfter : ∀ t ∈ r.notAfter, ctx.now.le t = true

/-- The numbers of a restriction are non-negative safe integers. -/
structure Attenuation.SafeNumbers (r : Attenuation) : Prop where
  ceiling : ∀ c ∈ r.perActionCeiling, isSafeNat c = true
  cap : ∀ c ∈ r.aggregateCap, isSafeNat c = true
  /-- the tier bound -/
  tier : ∀ t ∈ r.maxTier, isSafeNat t = true
  /-- the start of the window -/
  notBefore : ∀ t ∈ r.notBefore, isSafeNat t = true
  /-- its end -/
  notAfter : ∀ t ∈ r.notAfter, isSafeNat t = true

theorem isSafeInteger_of_isSafeNat {a : JsNum} (h : isSafeNat a = true) :
    a.isSafeInteger = true := (Bool.and_eq_true_iff.mp h).1

theorem ne_nan_of_isSafeNat {a : JsNum} (h : isSafeNat a = true) : a ≠ .nan :=
  JsNum.ne_nan_of_isSafeInteger (isSafeInteger_of_isSafeNat h)

/-! ## One restriction, dimension by dimension -/

theorem mem_narrow_actions {r : Option (List String)} {parent : List String} {a : String} :
    a ∈ (r.getD parent).filter parent.contains ↔ a ∈ parent ∧ ∀ actions ∈ r, a ∈ actions := by
  cases r with
  | none => simp
  | some actions => simp [and_comm]

theorem narrow_counterparties_iff {r parent : Option (List String)} {counterparty : Option String} :
    (∀ cs ∈ narrowCounterparties parent r, ∃ c ∈ counterparty, c ∈ cs) ↔
      (∀ cs ∈ parent, ∃ c ∈ counterparty, c ∈ cs) ∧ ∀ cs ∈ r, ∃ c ∈ counterparty, c ∈ cs := by
  cases r <;> cases parent <;> cases counterparty <;> simp [narrowCounterparties, and_comm]

/-- The smaller of two ceilings, of which either may be absent. -/
theorem minNullable_lt_iff {a b : Option JsNum} {x : JsNum} (ha : ∀ c ∈ a, c ≠ .nan)
    (hb : ∀ c ∈ b, c ≠ .nan) :
    (∀ c ∈ minNullable a b, c.lt x = false) ↔
      (∀ c ∈ b, c.lt x = false) ∧ ∀ c ∈ a, c.lt x = false := by
  cases a with
  | none => simp [minNullable]
  | some a =>
    cases b with
    | none => simp [minNullable]
    | some b =>
      simp only [minNullable, Option.mem_def, Option.some.injEq, forall_eq']
      rw [JsNum.mathMin_lt_eq_false (ha a rfl) (hb b rfl), and_comm]

variable {r : Option JsNum} {intent : GovernedIntent}

/-- A field that defaults to the parent's. -/
theorem mathMin_getD_lt_iff {parent x : JsNum} (hr : ∀ t ∈ r, t ≠ .nan) (hparent : parent ≠ .nan) :
    (JsNum.mathMin (r.getD parent) parent).lt x = false ↔
      parent.lt x = false ∧ ∀ t ∈ r, t.lt x = false := by
  cases r with
  | none =>
    rw [Option.getD_none, JsNum.mathMin_lt_eq_false hparent hparent]
    simp
  | some t =>
    rw [Option.getD_some, JsNum.mathMin_lt_eq_false (hr t rfl) hparent]
    simp [and_comm]

theorem lt_mathMax_getD_iff {parent x : JsNum} (hr : ∀ t ∈ r, t ≠ .nan) (hparent : parent ≠ .nan) :
    x.lt (JsNum.mathMax (r.getD parent) parent) = false ↔
      x.lt parent = false ∧ ∀ t ∈ r, x.lt t = false := by
  cases r with
  | none =>
    rw [Option.getD_none, JsNum.lt_mathMax_eq_false hparent hparent]
    simp
  | some t =>
    rw [Option.getD_some, JsNum.lt_mathMax_eq_false (hr t rfl) hparent]
    simp [and_comm]

/-- The numbers of a request that is authorized are numbers. -/
structure RequestNumbers (intent : GovernedIntent) (ctx : EvalContext) : Prop where
  /-- the clock -/
  now : ctx.now ≠ .nan
  tier : ctx.tier ≠ .nan
  amount : intent.amount.getD 0 ≠ .nan
  /-- the aggregate with the amount -/
  sum : ctx.observedAggregate + intent.amount.getD 0 ≠ .nan

theorem Authorizes.numbers {g : CapabilityGrant} {ctx : EvalContext} (h : Authorizes g intent ctx) :
    RequestNumbers intent ctx := by
  have hamount : (intent.amount.getD 0).isSafeInteger = true := by
    cases hintent : intent.amount with
    | none => exact (@JsNum.isSafeInteger_natCast 0).mpr (by decide)
    | some a => exact isSafeInteger_of_isSafeNat (h.amount_safe a hintent)
  exact ⟨JsNum.ne_nan_of_isSafeInteger h.now_safe, ne_nan_of_isSafeNat h.tier_safe,
    JsNum.ne_nan_of_isSafeInteger hamount,
    JsNum.add_ne_nan (isSafeInteger_of_isSafeNat h.aggregate_safe) hamount⟩

/-- A bound, in the form of the code's checks and in that of `Satisfies`. -/
theorem forall_le_iff {x : JsNum} (hr : ∀ t ∈ r, isSafeNat t = true) (hx : x ≠ .nan) :
    (∀ t ∈ r, x.le t = true) ↔ ∀ t ∈ r, t.lt x = false :=
  forall₂_congr fun t ht => JsNum.le_iff_not_lt hx (ne_nan_of_isSafeNat (hr t ht))

/-- What a restriction asks for, in the form of the code's checks. -/
theorem satisfies_iff {r : Attenuation} {ctx : EvalContext} (hr : r.SafeNumbers)
    (hn : RequestNumbers intent ctx) :
    Satisfies r intent ctx ↔
      (∀ actions ∈ r.actions, intent.type ∈ actions) ∧
      (∀ c ∈ r.perActionCeiling, c.lt (intent.amount.getD 0) = false) ∧
      (∀ c ∈ r.aggregateCap, c.lt (ctx.observedAggregate + intent.amount.getD 0) = false) ∧
      (∀ cs ∈ r.counterparties, ∃ c ∈ intent.counterparty, c ∈ cs) ∧
      (∀ t ∈ r.maxTier, t.lt ctx.tier = false) ∧ (∀ t ∈ r.notBefore, ctx.now.lt t = false) ∧
      ∀ t ∈ r.notAfter, t.lt ctx.now = false := by
  rw [← forall_le_iff hr.ceiling hn.amount, ← forall_le_iff hr.cap hn.sum,
    ← forall_le_iff hr.tier hn.tier, ← forall_le_iff hr.notAfter hn.now]
  have hnotBefore : (∀ t ∈ r.notBefore, ctx.now.lt t = false) ↔
      ∀ t ∈ r.notBefore, t.le ctx.now = true :=
    forall₂_congr fun t ht =>
      (JsNum.le_iff_not_lt (ne_nan_of_isSafeNat (hr.notBefore t ht)) hn.now).symm
  rw [hnotBefore]
  exact ⟨fun h => ⟨h.action, h.ceiling, h.cap, h.counterparty, h.tier, h.notBefore, h.notAfter⟩,
    fun ⟨h1, h2, h3, h4, h5, h6, h7⟩ => ⟨h1, h2, h3, h4, h5, h6, h7⟩⟩

/-- A number taken from two others keeps what both have. -/
theorem mathMin_getD_of {P : JsNum → Prop} {parent : JsNum} (hr : ∀ t ∈ r, t ≠ .nan ∧ P t)
    (hparent : parent ≠ .nan ∧ P parent) :
    P (JsNum.mathMin (r.getD parent) parent) ∧ P (JsNum.mathMax (r.getD parent) parent) := by
  have hget : r.getD parent ≠ .nan ∧ P (r.getD parent) := by
    cases r with
    | none => exact hparent
    | some t => exact hr t rfl
  constructor
  · rcases JsNum.mathMin_mem hget.1 hparent.1 with h | h
    · exact (congrArg P h).mpr hget.2
    · exact (congrArg P h).mpr hparent.2
  · rcases JsNum.mathMax_mem hget.1 hparent.1 with h | h
    · exact (congrArg P h).mpr hget.2
    · exact (congrArg P h).mpr hparent.2

theorem minNullable_safe {a b : Option JsNum} (ha : ∀ c ∈ a, isSafeNat c = true)
    (hb : ∀ c ∈ b, isSafeNat c = true) : ∀ c ∈ minNullable a b, isSafeNat c = true := by
  cases a with
  | none => exact hb
  | some a =>
    cases b with
    | none => exact ha
    | some b =>
      rintro c hc
      obtain rfl := Option.some.inj hc
      have hnan := ne_nan_of_isSafeNat (ha a rfl)
      rcases JsNum.mathMin_mem hnan (ne_nan_of_isSafeNat (hb b rfl)) with h | h
      · exact (congrArg isSafeNat h).trans (ha a rfl)
      · exact (congrArg isSafeNat h).trans (hb b rfl)

/-- A narrowed grant is well-formed. -/
theorem wellFormed_narrow {parent : CapabilityGrant} {r : Attenuation} (hparent : WellFormed parent)
    (hr : r.SafeNumbers) (id issuer subject : String) :
    WellFormed (narrow parent r id issuer subject) where
  maxTier := (mathMin_getD_of (P := (isSafeNat · = true))
    (fun t ht => ⟨ne_nan_of_isSafeNat (hr.tier t ht), hr.tier t ht⟩)
    ⟨ne_nan_of_isSafeNat hparent.maxTier, hparent.maxTier⟩).1
  window := by
    have hsafe : ∀ {t}, isSafeNat t = true → t ≠ .nan ∧ t.isSafeInteger = true :=
      fun h => ⟨ne_nan_of_isSafeNat h, isSafeInteger_of_isSafeNat h⟩
    have hbound : ∀ {t : JsNum}, t.isSafeInteger = true → t ≠ .nan ∧ t.isSafeInteger = true :=
      fun h => ⟨JsNum.ne_nan_of_isSafeInteger h, h⟩
    exact ⟨(mathMin_getD_of (fun t ht => hsafe (hr.notBefore t ht)) (hbound hparent.window.1)).2,
      (mathMin_getD_of (fun t ht => hsafe (hr.notAfter t ht)) (hbound hparent.window.2)).1⟩
  ceiling := minNullable_safe hr.ceiling hparent.ceiling
  cap := minNullable_safe hr.cap hparent.cap

/-- **One restriction**: the narrowed grant authorizes what its parent authorizes and the
restriction is satisfied by. -/
theorem authorizes_narrow_iff {parent : CapabilityGrant} {r : Attenuation}
    (hparent : WellFormed parent) (hr : r.SafeNumbers) (id issuer subject : String)
    {ctx : EvalContext} :
    Authorizes (narrow parent r id issuer subject) intent ctx ↔
      Authorizes parent intent ctx ∧ Satisfies r intent ctx := by
  have hnan : ∀ {o : Option JsNum}, (∀ t ∈ o, isSafeNat t = true) → ∀ t ∈ o, t ≠ .nan :=
    fun h t ht => ne_nan_of_isSafeNat (h t ht)
  have hceiling := @minNullable_lt_iff r.perActionCeiling parent.perActionCeiling
    (intent.amount.getD 0) (hnan hr.ceiling) (hnan hparent.ceiling)
  have hcap := @minNullable_lt_iff r.aggregateCap parent.aggregateCap
    (ctx.observedAggregate + intent.amount.getD 0) (hnan hr.cap) (hnan hparent.cap)
  have htier := @mathMin_getD_lt_iff r.maxTier parent.maxTier ctx.tier (hnan hr.tier)
    (ne_nan_of_isSafeNat hparent.maxTier)
  have hnotBefore := @lt_mathMax_getD_iff r.notBefore parent.notBefore ctx.now (hnan hr.notBefore)
    (JsNum.ne_nan_of_isSafeInteger hparent.window.1)
  have hnotAfter := @mathMin_getD_lt_iff r.notAfter parent.notAfter ctx.now (hnan hr.notAfter)
    (JsNum.ne_nan_of_isSafeInteger hparent.window.2)
  constructor
  · intro h
    obtain ⟨haction, haction'⟩ := mem_narrow_actions.mp h.action
    obtain ⟨hparty, hparty'⟩ := narrow_counterparties_iff.mp h.counterparty
    obtain ⟨hceiling, hceiling'⟩ := hceiling.mp h.ceiling
    obtain ⟨hcap, hcap'⟩ := hcap.mp h.cap
    obtain ⟨htier, htier'⟩ := htier.mp h.tier
    obtain ⟨hopen, hopen'⟩ := hnotBefore.mp h.window.1
    obtain ⟨hclosed, hclosed'⟩ := hnotAfter.mp h.window.2
    refine ⟨?_, (satisfies_iff hr h.numbers).mpr
      ⟨haction', hceiling', hcap', hparty', htier', hopen', hclosed'⟩⟩
    exact
      { action := haction, now_safe := h.now_safe, window_safe := hparent.window
        window := ⟨hopen, hclosed⟩, tier_safe := h.tier_safe, maxTier_safe := hparent.maxTier
        tier := htier, counterparty := hparty, amount_safe := h.amount_safe
        aggregate_safe := h.aggregate_safe, ceiling_safe := hparent.ceiling
        cap_safe := hparent.cap, ceiling := hceiling, cap := hcap }
  · rintro ⟨h, hsat⟩
    obtain ⟨haction', hceiling', hcap', hparty', htier', hopen', hclosed'⟩ :=
      (satisfies_iff hr h.numbers).mp hsat
    have hwf := wellFormed_narrow hparent hr id issuer subject
    exact
      { action := mem_narrow_actions.mpr ⟨h.action, haction'⟩
        now_safe := h.now_safe, window_safe := hwf.window
        window := ⟨hnotBefore.mpr ⟨h.window.1, hopen'⟩, hnotAfter.mpr ⟨h.window.2, hclosed'⟩⟩
        tier_safe := h.tier_safe, maxTier_safe := hwf.maxTier
        tier := htier.mpr ⟨h.tier, htier'⟩
        counterparty := narrow_counterparties_iff.mpr ⟨h.counterparty, hparty'⟩
        amount_safe := h.amount_safe, aggregate_safe := h.aggregate_safe
        ceiling_safe := hwf.ceiling, cap_safe := hwf.cap
        ceiling := hceiling.mpr ⟨h.ceiling, hceiling'⟩, cap := hcap.mpr ⟨h.cap, hcap'⟩ }

/-! ## A sequence of delegations -/

section Chain

variable {X : Externals} {body grant : CapabilityGrant} {suite : String} {authority : KeyPair}
  {parent cap : Capability} {restrictions : List Attenuation} {root : CapabilityGrant}

/-- The id, the issuer and the subject play no part in what a grant authorizes. -/
theorem authorizes_withId (h : X.withId body = .ok grant) {intent : GovernedIntent}
    {ctx : EvalContext} : Authorizes grant intent ctx ↔ Authorizes body intent ctx := by
  obtain ⟨id, -, h⟩ := Except.bind_eq_ok h
  obtain rfl := Except.ok.inj h
  rw [← authorizesIntent_iff, ← authorizesIntent_iff]
  rfl

theorem wellFormed_withId (h : X.withId body = .ok grant) (hbody : WellFormed body) :
    WellFormed grant := by
  obtain ⟨id, -, h⟩ := Except.bind_eq_ok h
  obtain rfl := Except.ok.inj h
  exact ⟨hbody.maxTier, hbody.window, hbody.ceiling, hbody.cap⟩

/-- What is signed with a genuine key passes the checks on a link. -/
theorem signedLink_of_signGrant {key : KeyPair} {entropy : Bytes} {link : CapabilityLink}
    (hid : X.withId body = .ok grant) (hissuer : body.issuer = X.bytesToHex key.publicKey)
    (hsuite : suite ∈ activeSuiteIds) (hkey : key.Genuine X.mlDsa87)
    (h : X.signGrant grant suite key entropy = .ok link) :
    SignedLink X suite link ∧ link.grant = grant ∧ link.suite = suite ∧
      link.signerPublicKey = key.publicKey := by
  obtain ⟨id, hderive, hid⟩ := Except.bind_eq_ok hid
  obtain rfl := Except.ok.inj hid
  obtain ⟨signer, hsigner, h⟩ := Except.bind_eq_ok h
  obtain ⟨message, hmessage, h⟩ := Except.bind_eq_ok h
  obtain ⟨sig, hsig, h⟩ := Except.bind_eq_ok h
  obtain rfl := Except.ok.inj h
  rw [X.signerFor_of_active hsuite] at hsigner
  obtain rfl := Except.ok.inj hsigner
  exact ⟨⟨hsuite, rfl, hissuer, hderive, message, hmessage, hkey _ _ _ hsig⟩, rfl, rfl, rfl⟩

/-- A chain that was issued by an authority and handed on with restrictions. -/
structure Delegated (X : Externals) (authority : KeyPair) (suite : String) (root : CapabilityGrant)
    (restrictions : List Attenuation) (cap : Capability) : Prop where
  /-- a link for the root and one for each restriction -/
  length : cap.chain.length = restrictions.length + 1
  /-- every link is signed -/
  signed : ∀ link ∈ cap.chain, SignedLink X suite link
  /-- the root by the authority -/
  issued : ∃ link, cap.chain.head? = some link ∧ link.signerPublicKey = authority.publicKey ∧
    link.suite = suite
  /-- every link delegates from the one before -/
  chain : cap.chain.IsChain (Delegates X)
  /-- the tail is well-formed, and the intersection of the root and the restrictions -/
  tail : ∃ tail, cap.chain.getLast? = some tail ∧ tail.suite = suite ∧ WellFormed tail.grant ∧
    ∀ intent ctx, Authorizes tail.grant intent ctx ↔
      Authorizes root intent ctx ∧ ∀ r ∈ restrictions, Satisfies r intent ctx

/-- `issueRoot` starts such a chain. -/
theorem delegated_issueRoot {spec : RootGrantSpec} {entropy : Bytes} {cap : Capability}
    (hsuite : suite ∈ activeSuiteIds)
    (hwf : WellFormed (spec.toGrant (X.bytesToHex authority.publicKey)))
    (hkey : authority.Genuine X.mlDsa87) (h : X.issueRoot spec suite authority entropy = .ok cap) :
    ∃ root, effectiveGrant cap = .ok root ∧ Delegated X authority suite root [] cap := by
  obtain ⟨grant, hid, h⟩ := Except.bind_eq_ok h
  obtain ⟨link, hlink, h⟩ := Except.bind_eq_ok h
  obtain rfl := Except.ok.inj h
  obtain ⟨hsigned, rfl, hlinkSuite, hsigner⟩ :=
    signedLink_of_signGrant hid rfl hsuite hkey hlink
  refine ⟨link.grant, rfl, rfl, ?_, ⟨link, rfl, hsigner, hlinkSuite⟩, .singleton link,
    link, rfl, hlinkSuite, wellFormed_withId hid hwf, ?_⟩
  · intro l hl
    rw [List.mem_singleton.mp hl]
    exact hsigned
  · intro intent ctx
    simp

/-- What a call of `attenuate` that returns has checked and made. -/
theorem attenuate_eq_ok {r : Attenuation} {newSubject : String} {delegator : KeyPair}
    {entropy : Bytes} {tail : CapabilityLink} (htail : parent.chain.getLast? = some tail)
    (h : X.attenuate parent r newSubject delegator entropy = .ok cap) :
    tail.grant.delegable = true ∧ X.bytesToHex delegator.publicKey = tail.grant.subject ∧
      ∃ grant link, X.withId (narrow tail.grant r "" tail.grant.subject newSubject) = .ok grant ∧
        isAttenuationOf grant tail.grant = true ∧
        X.signGrant grant tail.suite delegator entropy = .ok link ∧
        cap.chain = parent.chain ++ [link] := by
  rw [Externals.attenuate, htail] at h
  dsimp only at h
  split at h
  · cases h
  rename_i hdelegable
  split at h
  · cases h
  rename_i hholder
  obtain ⟨grant, hid, h⟩ := Except.bind_eq_ok h
  split at h
  · cases h
  rename_i hatt
  obtain ⟨link, hlink, h⟩ := Except.bind_eq_ok h
  obtain rfl := Except.ok.inj h
  rw [Bool.not_eq_true, Bool.not_eq_false'] at hdelegable hatt
  exact ⟨hdelegable, not_not.mp hholder, grant, link, hid, hatt, hlink, rfl⟩

/-- `attenuate` goes on with it. -/
theorem Delegated.attenuate {d : Delegation}
    (hparent : Delegated X authority suite root restrictions parent)
    (hsuite : suite ∈ activeSuiteIds) (hr : d.restriction.SafeNumbers)
    (hkey : d.delegator.Genuine X.mlDsa87)
    (h : X.attenuate parent d.restriction d.newSubject d.delegator d.entropy = .ok cap) :
    Delegated X authority suite root (restrictions ++ [d.restriction]) cap := by
  obtain ⟨tail, htail, rfl, hwf, hauth⟩ := hparent.tail
  obtain ⟨hdelegable, hholder, grant, link, hid, hatt, hlink, hcap⟩ := attenuate_eq_ok htail h
  obtain ⟨hsigned, rfl, hlinkSuite, hsigner⟩ :=
    signedLink_of_signGrant hid hholder.symm hsuite hkey hlink
  have hne : parent.chain ≠ [] := by
    intro hnil
    rw [hnil] at htail
    cases htail
  constructor
  · rw [hcap, List.length_append, List.length_append, hparent.length]
    rfl
  · intro l hl
    rw [hcap, List.mem_append, List.mem_singleton] at hl
    rcases hl with hl | rfl
    · exact hparent.signed l hl
    · exact hsigned
  · obtain ⟨rootLink, hhead, hrootLink⟩ := hparent.issued
    refine ⟨rootLink, ?_, hrootLink⟩
    rw [hcap, List.head?_append_of_ne_nil _ hne, hhead]
  · rw [hcap, List.isChain_append]
    refine ⟨hparent.chain, .singleton link, ?_⟩
    intro prev hprev next hnext
    obtain rfl := Option.some.inj (htail.symm.trans hprev)
    obtain rfl := Option.some.inj hnext
    exact ⟨hdelegable, hsigner ▸ hholder, hatt⟩
  · refine ⟨link, ?_, hlinkSuite, ?_, ?_⟩
    · rw [hcap, List.getLast?_append, List.getLast?_singleton, Option.some_or]
    · exact wellFormed_withId hid (wellFormed_narrow hwf hr _ _ _)
    · intro intent ctx
      rw [authorizes_withId hid, authorizes_narrow_iff hwf hr, hauth, and_assoc]
      simp only [List.mem_append, List.mem_singleton, or_imp, forall_and, forall_eq]

/-- A whole sequence, by induction on the calls. -/
theorem Delegated.delegate {steps : List Delegation}
    (hparent : Delegated X authority suite root restrictions parent)
    (hsuite : suite ∈ activeSuiteIds) (hr : ∀ d ∈ steps, d.restriction.SafeNumbers)
    (hkeys : ∀ d ∈ steps, d.delegator.Genuine X.mlDsa87) (h : X.delegate parent steps = .ok cap) :
    Delegated X authority suite root (restrictions ++ steps.map (·.restriction)) cap := by
  induction steps generalizing restrictions parent with
  | nil =>
    obtain rfl := Except.ok.inj h
    rwa [List.map_nil, List.append_nil]
  | cons d steps ih =>
    rw [Externals.delegate, List.foldlM_cons] at h
    obtain ⟨next, hnext, h⟩ := Except.bind_eq_ok h
    have hstep := hparent.attenuate hsuite (hr d List.mem_cons_self)
      (hkeys d List.mem_cons_self) hnext
    have hrest := ih hstep (fun e he => hr e (List.mem_cons_of_mem _ he))
      (fun e he => hkeys e (List.mem_cons_of_mem _ he)) h
    rwa [List.append_assoc] at hrest

/-- The verifier accepts such a chain up to its length. -/
theorem Delegated.verifyChain {cap : Capability} {trustedRoots : List Bytes}
    (h : Delegated X authority suite root restrictions cap) (hlen : restrictions.length ≤ 31)
    (htrusted : authority.publicKey ∈ trustedRoots) :
    X.verifyChain cap trustedRoots = .ok true := by
  obtain ⟨rootLink, hhead, hsigner, hrootSuite⟩ := h.issued
  obtain ⟨chain⟩ := cap
  cases chain with
  | nil => cases hhead
  | cons link links =>
    obtain rfl := Option.some.inj hhead
    refine verifyChain_complete ?_ ?_ ?_ h.chain
    · rw [h.length]
      exact Nat.succ_le_succ hlen
    · rw [hsigner]
      exact List.mem_map_of_mem htrusted
    · rw [hrootSuite]
      exact h.signed

end Chain

/-- **Delegation is exact intersection.** A root capability is issued under an active suite with
well-formed numbers, and delegated at most 31 times. The chain verifies with the authority
trusted, and its effective grant authorizes exactly what the root grant authorizes and every
restriction is satisfied by. -/
theorem delegation_is_intersection (X : Externals) {spec : RootGrantSpec} {suite : String}
    {authority : KeyPair} {entropy : Bytes} {rootCap cap : Capability} {steps : List Delegation}
    {trustedRoots : List Bytes} (hsuite : suite ∈ activeSuiteIds)
    (hwf : WellFormed (spec.toGrant (X.bytesToHex authority.publicKey)))
    (hroot : X.issueRoot spec suite authority entropy = .ok rootCap)
    (hlen : steps.length ≤ 31) (hr : ∀ d ∈ steps, d.restriction.SafeNumbers)
    (hcap : X.delegate rootCap steps = .ok cap) (hauthority : authority.Genuine X.mlDsa87)
    (hkeys : ∀ d ∈ steps, d.delegator.Genuine X.mlDsa87)
    (htrusted : authority.publicKey ∈ trustedRoots) :
    X.verifyChain cap trustedRoots = .ok true ∧
      ∃ root g, effectiveGrant rootCap = .ok root ∧ effectiveGrant cap = .ok g ∧
        ∀ intent ctx, authorizesIntent g intent ctx = true ↔
          authorizesIntent root intent ctx = true ∧
            ∀ d ∈ steps, Satisfies d.restriction intent ctx := by
  obtain ⟨root, heff, hdelegated⟩ := delegated_issueRoot hsuite hwf hauthority hroot
  have hall := hdelegated.delegate hsuite hr hkeys hcap
  obtain ⟨tail, htail, -, -, hauth⟩ := hall.tail
  refine ⟨hall.verifyChain (by simpa using hlen) htrusted, root, tail.grant, heff, ?_, ?_⟩
  · rw [effectiveGrant, htail]
  · intro intent ctx
    rw [authorizesIntent_iff, authorizesIntent_iff, hauth]
    simp

/-- A root grant of two actions to `B`, for concrete runs. -/
def sampleSpec : RootGrantSpec :=
  ⟨"B", ["data.read", "data.create"], some 10, none, none, 2, 0, 100, true⟩

/-- `B` hands it on to `C` with a lower ceiling and a list of counterparties. -/
def sampleHandover : Delegation :=
  ⟨⟨some ["data.read", "data.purge"], some 5, none, some ["D"], some 1, none, some 90, none⟩, "C",
    ⟨[66], []⟩, []⟩

/-- `delegation_is_intersection` at one delegation. -/
theorem delegation_is_intersection_sample :
    ∃ rootCap cap, plainExternals.issueRoot sampleSpec "PS-5" ⟨[65], []⟩ [] = .ok rootCap ∧
      plainExternals.delegate rootCap [sampleHandover] = .ok cap ∧
      plainExternals.verifyChain cap [[65]] = .ok true ∧
      ∃ root g, effectiveGrant rootCap = .ok root ∧ effectiveGrant cap = .ok g ∧
        ∀ intent ctx, authorizesIntent g intent ctx = true ↔
          authorizesIntent root intent ctx = true ∧
            ∀ d ∈ [sampleHandover], Satisfies d.restriction intent ctx := by
  have hrun : (plainExternals.issueRoot sampleSpec "PS-5" ⟨[65], []⟩ [] >>= fun rootCap =>
      plainExternals.delegate rootCap [sampleHandover]).isOk = true := by decide +kernel
  obtain ⟨cap, hrun⟩ := Except.exists_of_isOk hrun
  obtain ⟨rootCap, hroot, hcap⟩ := Except.bind_eq_ok hrun
  have hwf : WellFormed (sampleSpec.toGrant (plainExternals.bytesToHex [65])) :=
    isWellFormedGrantNumerics_iff.mp (by decide +kernel)
  have hnumbers : ∀ d ∈ [sampleHandover], d.restriction.SafeNumbers := by
    intro d hd
    rw [List.mem_singleton.mp hd]
    constructor <;> simp [sampleHandover] <;> decide +kernel
  exact ⟨rootCap, cap, hroot, hcap, delegation_is_intersection plainExternals (by decide) hwf hroot
    (by decide) hnumbers hcap (fun _ _ _ _ => rfl) (fun _ _ _ _ _ _ => rfl) List.mem_cons_self⟩

end Nerion
