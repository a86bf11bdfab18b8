import Nerion.Delegation
import Nerion.Kernel

/-!
# The kernel against its specification (`kernel/spec/PolarSeekKernel.tla`)

The repository specifies the kernel over sets and integers: a grant authorizes an intent, a grant
attenuates another one, and the decision allows what one of a set of grants authorizes. The code
works on doubles, on lists and on chains of signed grants.

* `KernelSpec` — the specification, with its theorem that attenuation is monotone;
* `authorizesIntent_refines`, `isAttenuationOf_refines` — the two predicates of the code are those
  of the specification, on numbers that are safe integers; no other numbers pass;
* `kernel_refines_spec` — the kernel admits exactly what the specification allows over the effective
  grants of the usable candidates.
-/

namespace Nerion

/-! ## The specification -/

namespace KernelSpec

variable {A C : Type}

/-- `Grant`; `none` is `NullCeil`. -/
structure Grant (A C : Type) where
  actions : Set A
  /-- ceiling of an action -/
  ceiling : Option ℕ
  /-- ceiling of the aggregate -/
  aggCap : Option ℕ
  /-- the counterparties -/
  cps : Option (Set C)
  /-- the highest tier -/
  maxTier : ℕ
  /-- start of the window -/
  notBefore : ℤ
  /-- its end -/
  notAfter : ℤ
  /-- whether it may be delegated -/
  delegable : Bool

structure Intent (A C : Type) where
  /-- the action -/
  type : A
  /-- the counterparty -/
  cp : Option C
  /-- the amount -/
  amt : ℕ

structure Ctx where
  /-- the time -/
  now : ℤ
  tier : ℕ
  /-- the aggregate so far -/
  agg : ℕ

structure Authorizes (g : Grant A C) (i : Intent A C) (x : Ctx) : Prop where
  /-- the action is granted -/
  action : i.type ∈ g.actions
  /-- the window is open -/
  window : g.notBefore ≤ x.now ∧ x.now ≤ g.notAfter
  /-- the tier is within the bound -/
  tier : x.tier ≤ g.maxTier
  /-- `CpOk` -/
  cp : ∀ set ∈ g.cps, ∃ c ∈ i.cp, c ∈ set
  /-- `CeilOk` -/
  ceil : ∀ c ∈ g.ceiling, i.amt ≤ c
  /-- `AggOk` -/
  agg : ∀ c ∈ g.aggCap, x.agg + i.amt ≤ c

structure IsAttenuation (c p : Grant A C) : Prop where
  /-- no new action -/
  actions : c.actions ⊆ p.actions
  /-- `CeilNarrows` -/
  ceiling : ∀ m ∈ p.ceiling, ∃ n ∈ c.ceiling, n ≤ m
  /-- `CeilNarrows` for the aggregate -/
  aggCap : ∀ m ∈ p.aggCap, ∃ n ∈ c.aggCap, n ≤ m
  /-- `SetNarrows` -/
  cps : ∀ s ∈ p.cps, ∃ t ∈ c.cps, t ⊆ s
  /-- no higher tier -/
  maxTier : c.maxTier ≤ p.maxTier
  /-- no earlier start -/
  notBefore : p.notBefore ≤ c.notBefore
  /-- no later end -/
  notAfter : c.notAfter ≤ p.notAfter
  /-- what may not be delegated stays so -/
  delegable : c.delegable = true → p.delegable = true

/-- `Decide`: whether it is `"allow"`. -/
def Decide (grants : Set (Grant A C)) (i : Intent A C) (x : Ctx) : Prop :=
  ∃ g ∈ grants, Authorizes g i x

/-- `AttenuationMonotone`. -/
theorem IsAttenuation.monotone {c p : Grant A C} {i : Intent A C} {x : Ctx}
    (h : IsAttenuation c p) (ha : Authorizes c i x) : Authorizes p i x where
  action := h.actions ha.action
  window := ⟨h.notBefore.trans ha.window.1, ha.window.2.trans h.notAfter⟩
  tier := ha.tier.trans h.maxTier
  cp s hs := by
    obtain ⟨t, ht, hsub⟩ := h.cps s hs
    obtain ⟨c, hc, hmem⟩ := ha.cp t ht
    exact ⟨c, hc, hsub hmem⟩
  ceil m hm := by
    obtain ⟨n, hn, hle⟩ := h.ceiling m hm
    exact (ha.ceil n hn).trans hle
  agg m hm := by
    obtain ⟨n, hn, hle⟩ := h.aggCap m hm
    exact (ha.agg n hn).trans hle

end KernelSpec

/-! ## Safe integers -/

namespace JsNum

theorem lt_eq_toInt {a b : JsNum} (ha : isSafeInteger a = true) (hb : isSafeInteger b = true) :
    lt a b = decide (a.toInt < b.toInt) := by
  rw [eq_intCast_of_isInteger (isInteger_of_isSafeInteger ha),
    eq_intCast_of_isInteger (isInteger_of_isSafeInteger hb), intCast_def, intCast_def,
    Bool.eq_iff_iff, lt_fin, decide_eq_true_iff]
  simp [toInt]

theorem le_eq_toInt {a b : JsNum} (ha : isSafeInteger a = true) (hb : isSafeInteger b = true) :
    le a b = decide (a.toInt ≤ b.toInt) := by
  rw [Bool.eq_iff_iff, le_iff_not_lt (ne_nan_of_isSafeInteger ha) (ne_nan_of_isSafeInteger hb),
    lt_eq_toInt hb ha, decide_eq_false_iff_not, decide_eq_true_iff, not_lt]

theorem le_roundHalfEven {z : ℤ} {q : ℚ} (h : z ≤ q) : z ≤ roundHalfEven q := by
  have hfloor : z ≤ ⌊q⌋ := Int.le_floor.mpr h
  rw [roundHalfEven]
  split_ifs <;> omega

/-- A sum that is rounded stays beyond the safe integers. -/
theorem lt_add_of_large {a b c : ℕ} (h : 2 ^ 53 < a + b) (hsum : a + b < 2 ^ 54)
    (hc : c < 2 ^ 53) : lt (c : JsNum) ((a : JsNum) + (b : JsNum)) = true := by
  have hlog : Int.log 2 |((a + b : ℕ) : ℚ)| = 53 := by
    rw [Nat.abs_cast, Int.log_natCast, (Nat.log_eq_iff (.inl (by decide))).mpr ⟨h.le, hsum⟩]
    rfl
  have hunit : max (Int.log 2 |((a + b : ℕ) : ℚ)| - 52) (-1074) = 1 := by
    rw [hlog]
    rfl
  have hhalf : ((2 ^ 52 : ℤ) : ℚ) ≤ ((a + b : ℕ) : ℚ) / 2 ^ (1 : ℤ) := by
    have hcast : (2 : ℚ) ^ 53 ≤ ((a + b : ℕ) : ℚ) := by exact_mod_cast h.le
    rw [zpow_one, le_div_iff₀ two_pos]
    push_cast
    calc (2 : ℚ) ^ 52 * 2 = 2 ^ 53 := by norm_num
      _ ≤ _ := by exact_mod_cast hcast
  have hround : (2 : ℚ) ^ 52 ≤ roundHalfEven (((a + b : ℕ) : ℚ) / 2 ^ (1 : ℤ)) := by
    exact_mod_cast le_roundHalfEven hhalf
  have hne : ((a + b : ℕ) : ℚ) ≠ 0 := Nat.cast_ne_zero.mpr (by omega)
  change lt _ (roundDouble ((a : ℚ) + b)) = true
  rw [← Nat.cast_add, roundDouble, if_neg hne]
  dsimp only
  rw [hunit]
  generalize roundHalfEven (((a + b : ℕ) : ℚ) / 2 ^ (1 : ℤ)) = r at hround
  have hpos : (0 : ℚ) ≤ r * 2 := by linarith
  have hc' : (c : ℚ) < r * 2 := by
    have hcast : (c : ℚ) < 2 ^ 53 := by exact_mod_cast hc
    linarith
  split_ifs with hinf hneg
  · rfl
  · rw [zpow_one] at hneg
    have hbig : -(2 : ℚ) ^ 1024 < 0 := neg_lt_zero.mpr (pow_pos two_pos _)
    exact absurd (hbig.trans_le hpos) (not_lt.mpr hneg)
  · rw [natCast_def, lt_fin, zpow_one]
    exact hc'

/-- A safe integer is compared with the sum itself. -/
theorem lt_add_natCast {a b c : ℕ} (ha : a < 2 ^ 53) (hb : b < 2 ^ 53) (hc : c < 2 ^ 53) :
    lt (c : JsNum) ((a : JsNum) + (b : JsNum)) = decide (c < a + b) := by
  rcases le_or_gt (a + b) (2 ^ 53) with hle | hgt
  · rw [add_natCast hle, lt_natCast]
  · rw [lt_add_of_large hgt (by omega) hc]
    exact (decide_eq_true (hc.trans hgt)).symm

end JsNum

/-- A safe natural number. -/
theorem exists_natCast_of_isSafeNat {a : JsNum} (h : isSafeNat a = true) :
    ∃ n : ℕ, a = n ∧ n < 2 ^ 53 := by
  obtain ⟨hsafe, hle⟩ := Bool.and_eq_true_iff.mp h
  obtain ⟨n, rfl⟩ := JsNum.exists_natCast_of_isInteger (JsNum.isInteger_of_isSafeInteger hsafe)
    (JsNum.not_lt_of_le hle)
  exact ⟨n, rfl, JsNum.isSafeInteger_natCast.mp hsafe⟩

/-! ## The mapping -/

/-- The natural number that a number stands for. -/
def JsNum.toNat (a : JsNum) : ℕ := a.toInt.toNat

@[simp] theorem JsNum.toNat_natCast (n : ℕ) : (n : JsNum).toNat = n := by
  simp [JsNum.toNat]

/-- The grant of the specification. -/
def CapabilityGrant.toSpec (g : CapabilityGrant) : KernelSpec.Grant String String where
  actions := {a | a ∈ g.actions}
  ceiling := g.perActionCeiling.map JsNum.toNat
  aggCap := g.aggregateCap.map JsNum.toNat
  cps := g.counterparties.map fun cs => {c | c ∈ cs}
  maxTier := g.maxTier.toNat
  notBefore := g.notBefore.toInt
  notAfter := g.notAfter.toInt
  delegable := g.delegable

/-- The intent of the specification; an amount that is not given counts as zero. -/
def GovernedIntent.toSpec (i : GovernedIntent) : KernelSpec.Intent String String :=
  ⟨i.type, i.counterparty, (i.amount.getD 0).toNat⟩

/-- The context of the specification. -/
def EvalContext.toSpec (x : EvalContext) : KernelSpec.Ctx :=
  ⟨x.now.toInt, x.tier.toNat, x.observedAggregate.toNat⟩

/-- The numbers of a request that the specification speaks of. -/
structure SafeRequest (intent : GovernedIntent) (ctx : EvalContext) : Prop where
  /-- the time -/
  now : ctx.now.isSafeInteger = true
  tier : isSafeNat ctx.tier = true
  aggregate : isSafeNat ctx.observedAggregate = true
  /-- the amount, if any -/
  amount : ∀ a ∈ intent.amount, isSafeNat a = true

theorem SafeRequest.amount_getD {intent : GovernedIntent} {ctx : EvalContext}
    (h : SafeRequest intent ctx) : isSafeNat (intent.amount.getD 0) = true := by
  cases ha : intent.amount with
  | none =>
    exact Bool.and_eq_true_iff.mpr ⟨(@JsNum.isSafeInteger_natCast 0).mpr (by decide),
      JsNum.le_self nofun⟩
  | some a => exact h.amount a ha

theorem lt_eq_false_iff_toNat {a b : JsNum} (ha : isSafeNat a = true) (hb : isSafeNat b = true) :
    a.lt b = false ↔ b.toNat ≤ a.toNat := by
  obtain ⟨m, rfl, -⟩ := exists_natCast_of_isSafeNat ha
  obtain ⟨n, rfl, -⟩ := exists_natCast_of_isSafeNat hb
  simp [JsNum.lt_natCast]

theorem le_iff_toNat {a b : JsNum} (ha : isSafeNat a = true) (hb : isSafeNat b = true) :
    a.le b = true ↔ a.toNat ≤ b.toNat := by
  rw [JsNum.le_iff_not_lt (ne_nan_of_isSafeNat ha) (ne_nan_of_isSafeNat hb),
    lt_eq_false_iff_toNat hb ha]

/-- The sum is compared as if it were not rounded. -/
theorem lt_add_eq_false_iff {a b c : JsNum} (ha : isSafeNat a = true) (hb : isSafeNat b = true)
    (hc : isSafeNat c = true) : c.lt (a + b) = false ↔ a.toNat + b.toNat ≤ c.toNat := by
  obtain ⟨m, rfl, hm⟩ := exists_natCast_of_isSafeNat ha
  obtain ⟨n, rfl, hn⟩ := exists_natCast_of_isSafeNat hb
  obtain ⟨k, rfl, hk⟩ := exists_natCast_of_isSafeNat hc
  rw [JsNum.lt_add_natCast hm hn hk]
  simp

/-! ## The predicates -/

/-- `authorizesIntent` is `Authorizes` of the specification, and only lets safe numbers through. -/
theorem authorizesIntent_refines {g : CapabilityGrant} {intent : GovernedIntent}
    {ctx : EvalContext} :
    authorizesIntent g intent ctx = true ↔
      WellFormed g ∧ SafeRequest intent ctx ∧
        KernelSpec.Authorizes g.toSpec intent.toSpec ctx.toSpec := by
  rw [authorizesIntent_iff]
  constructor
  · intro h
    have hsafe : SafeRequest intent ctx :=
      ⟨h.now_safe, h.tier_safe, h.aggregate_safe, h.amount_safe⟩
    refine ⟨⟨h.maxTier_safe, h.window_safe, h.ceiling_safe, h.cap_safe⟩, hsafe, ?_⟩
    constructor
    · exact h.action
    · have hstart := h.window.1
      have hend := h.window.2
      rw [JsNum.lt_eq_toInt h.now_safe h.window_safe.1, decide_eq_false_iff_not, not_lt] at hstart
      rw [JsNum.lt_eq_toInt h.window_safe.2 h.now_safe, decide_eq_false_iff_not, not_lt] at hend
      exact ⟨hstart, hend⟩
    · exact (lt_eq_false_iff_toNat h.maxTier_safe h.tier_safe).mp h.tier
    · intro s hs
      obtain ⟨cs, hcs, rfl⟩ := Option.map_eq_some_iff.mp hs
      exact h.counterparty cs hcs
    · intro n hn
      obtain ⟨c, hc, rfl⟩ := Option.map_eq_some_iff.mp hn
      exact (lt_eq_false_iff_toNat (h.ceiling_safe c hc) hsafe.amount_getD).mp (h.ceiling c hc)
    · intro n hn
      obtain ⟨c, hc, rfl⟩ := Option.map_eq_some_iff.mp hn
      exact (lt_add_eq_false_iff hsafe.aggregate hsafe.amount_getD (h.cap_safe c hc)).mp
        (h.cap c hc)
  · rintro ⟨hwf, hsafe, h⟩
    refine ⟨h.action, hsafe.now, hwf.window, ⟨?_, ?_⟩, hsafe.tier, hwf.maxTier, ?_, ?_,
      hsafe.amount, hsafe.aggregate, hwf.ceiling, hwf.cap, ?_, ?_⟩
    · rw [JsNum.lt_eq_toInt hsafe.now hwf.window.1, decide_eq_false_iff_not, not_lt]
      exact h.window.1
    · rw [JsNum.lt_eq_toInt hwf.window.2 hsafe.now, decide_eq_false_iff_not, not_lt]
      exact h.window.2
    · exact (lt_eq_false_iff_toNat hwf.maxTier hsafe.tier).mpr h.tier
    · intro cs hcs
      exact h.cp _ (Option.mem_map_of_mem _ hcs)
    · intro c hc
      exact (lt_eq_false_iff_toNat (hwf.ceiling c hc) hsafe.amount_getD).mpr
        (h.ceil _ (Option.mem_map_of_mem _ hc))
    · intro c hc
      exact (lt_add_eq_false_iff hsafe.aggregate hsafe.amount_getD (hwf.cap c hc)).mpr
        (h.agg _ (Option.mem_map_of_mem _ hc))

/-- A ceiling narrows as the specification says. -/
theorem ceiling_narrows_iff {child parent : Option JsNum} (hc : ∀ c ∈ child, isSafeNat c = true)
    (hp : ∀ p ∈ parent, isSafeNat p = true) :
    (∀ p ∈ parent, ∃ c ∈ child, c.le p = true) ↔
      ∀ m ∈ parent.map JsNum.toNat, ∃ n ∈ child.map JsNum.toNat, n ≤ m := by
  constructor
  · intro h m hm
    obtain ⟨p, hpm, rfl⟩ := Option.map_eq_some_iff.mp hm
    obtain ⟨c, hcm, hle⟩ := h p hpm
    exact ⟨_, Option.mem_map_of_mem _ hcm, (le_iff_toNat (hc c hcm) (hp p hpm)).mp hle⟩
  · intro h p hpm
    obtain ⟨n, hn, hle⟩ := h _ (Option.mem_map_of_mem _ hpm)
    obtain ⟨c, hcm, rfl⟩ := Option.map_eq_some_iff.mp hn
    exact ⟨c, hcm, (le_iff_toNat (hc c hcm) (hp p hpm)).mpr hle⟩

/-- `isAttenuationOf` is `IsAttenuation` of the specification between grants of one delegation. -/
theorem isAttenuationOf_refines {child parent : CapabilityGrant} :
    isAttenuationOf child parent = true ↔
      WellFormed child ∧ WellFormed parent ∧ child.issuer = parent.subject ∧
        KernelSpec.IsAttenuation child.toSpec parent.toSpec := by
  rw [isAttenuationOf_iff]
  constructor
  · intro h
    have hc := h.child_wf
    have hp := h.parent_wf
    refine ⟨hc, hp, h.issuer, h.actions, (ceiling_narrows_iff hc.ceiling hp.ceiling).mp h.ceiling,
      (ceiling_narrows_iff hc.cap hp.cap).mp h.cap, ?_,
      (le_iff_toNat hc.maxTier hp.maxTier).mp h.tier, ?_, ?_, h.delegable⟩
    · intro s hs
      obtain ⟨ps, hps, rfl⟩ := Option.map_eq_some_iff.mp hs
      obtain ⟨cs, hcs, hsub⟩ := h.counterparties ps hps
      exact ⟨_, Option.mem_map_of_mem _ hcs, hsub⟩
    · exact of_decide_eq_true ((JsNum.le_eq_toInt hp.window.1 hc.window.1).symm.trans h.notBefore)
    · exact of_decide_eq_true ((JsNum.le_eq_toInt hc.window.2 hp.window.2).symm.trans h.notAfter)
  · rintro ⟨hc, hp, hissuer, h⟩
    refine ⟨hc, hp, hissuer, fun a ha => h.actions ha,
      (ceiling_narrows_iff hc.ceiling hp.ceiling).mpr h.ceiling,
      (ceiling_narrows_iff hc.cap hp.cap).mpr h.aggCap, ?_,
      (le_iff_toNat hc.maxTier hp.maxTier).mpr h.maxTier, ?_, ?_, h.delegable⟩
    · intro ps hps
      obtain ⟨t, ht, hsub⟩ := h.cps _ (Option.mem_map_of_mem _ hps)
      obtain ⟨cs, hcs, rfl⟩ := Option.map_eq_some_iff.mp ht
      exact ⟨cs, hcs, fun c hmem => hsub hmem⟩
    · exact (JsNum.le_eq_toInt hp.window.1 hc.window.1).trans (decide_eq_true h.notBefore)
    · exact (JsNum.le_eq_toInt hc.window.2 hp.window.2).trans (decide_eq_true h.notAfter)

/-! ## The decision -/

/-- A candidate that may be used: its chain verifies, none of its links is revoked, and it is the
requester's. -/
structure Usable (X : Externals) (input : KernelInput) (cap : Capability) (tail : CapabilityGrant) :
    Prop where
  /-- its effective grant -/
  effective : effectiveGrant cap = .ok tail
  /-- the chain verifies -/
  verified : X.verifyChain cap input.trustedRoots = .ok true
  /-- no link is revoked -/
  not_revoked : ∀ link ∈ cap.chain, link.grant.id ∉ input.revoked.getD []
  /-- the tail was granted to the requester -/
  held : input.holder = some tail.subject
  /-- with numbers that the specification knows -/
  wellFormed : WellFormed tail

/-- The grants that the specification decides over: the effective ones of the usable candidates. -/
def KernelInput.grants (X : Externals) (input : KernelInput) :
    Set (KernelSpec.Grant String String) :=
  {g | ∃ cap ∈ input.capabilities, ∃ tail, Usable X input cap tail ∧ g = tail.toSpec}

/-- Every link of a usable candidate authorizes in the specification what its effective grant
does. -/
theorem Usable.links {X : Externals} {input : KernelInput} {cap : Capability}
    {tail : CapabilityGrant} (h : Usable X input cap tail) :
    ∀ link ∈ cap.chain, WellFormed link.grant ∧ ∀ i x,
      KernelSpec.Authorizes tail.toSpec i x → KernelSpec.Authorizes link.grant.toSpec i x := by
  obtain ⟨root, links, hcons, -, -, -, hchain⟩ := verifyChain_sound h.verified
  -- from the tail backwards: each link attenuates the one before
  refine hchain.backwards_induction (fun l => WellFormed l.grant ∧ ∀ i x,
    KernelSpec.Authorizes tail.toSpec i x → KernelSpec.Authorizes l.grant.toSpec i x) _ ?_ ?_
  · rintro parent child hdel ⟨-, hchild⟩
    obtain ⟨-, hwf, -, hatt⟩ := isAttenuationOf_refines.mp hdel.attenuates
    exact ⟨hwf, fun i x ha => hatt.monotone (hchild i x ha)⟩
  · intro hne
    have heffective := h.effective
    rw [effectiveGrant, List.getLast?_eq_some_getLast hne] at heffective
    rw [Except.ok.inj heffective]
    exact ⟨h.wellFormed, fun _ _ ha => ha⟩

/-- A candidate admits the intent when it may be used and its effective grant authorizes it: the
links before it need no look. -/
theorem admittedBy_iff {X : Externals} {input : KernelInput} {intent : ActionIntent}
    {cap : Capability} :
    input.AdmittedBy X intent cap ↔ ∃ tail, Usable X input cap tail ∧
      SafeRequest intent.toGovernedIntent (input.evalContext intent.toGovernedIntent) ∧
      KernelSpec.Authorizes tail.toSpec intent.toGovernedIntent.toSpec
        (input.evalContext intent.toGovernedIntent).toSpec := by
  constructor
  · rintro ⟨hverified, hrevoked, ⟨tail, htail, hheld⟩, hall⟩
    have hlast : ∃ link ∈ cap.chain, link.grant = tail := by
      rw [effectiveGrant] at htail
      split at htail
      · rename_i link hlink
        exact ⟨link, List.mem_of_getLast? hlink, Except.ok.inj htail⟩
      · cases htail
    obtain ⟨link, hmem, rfl⟩ := hlast
    obtain ⟨hwf, hsafe, hauth⟩ := authorizesIntent_refines.mp (hall link hmem)
    exact ⟨link.grant, ⟨htail, hverified, hrevoked, hheld, hwf⟩, hsafe, hauth⟩
  · rintro ⟨tail, husable, hsafe, hauth⟩
    refine ⟨husable.verified, husable.not_revoked, ⟨tail, husable.effective, husable.held⟩, ?_⟩
    intro link hmem
    obtain ⟨hwf, hlink⟩ := husable.links link hmem
    exact authorizesIntent_refines.mpr ⟨hwf, hsafe, hlink _ _ hauth⟩

/-- **The kernel refines its specification.** With an intent and a policy that can be encoded, the
kernel does not deny exactly when the type of the action is canonical and not on the denylist, the
requester is known, there are at most 64 candidates, the numbers of the request are safe, and the
specification allows the intent over the effective grants of the usable candidates. A delegation is
accepted exactly when the specification has it as an attenuation, and every link of a usable
candidate allows in the specification what the effective grant does. -/
theorem kernel_refines_spec (X : Externals) (input : KernelInput) (intent : ActionIntent)
    (hintent : input.intent = some intent) {ev : String}
    (hev : X.evaluatorVersion input.policy = .ok ev) :
    ((X.decide input).effect ≠ .deny ↔
      isCanonicalActionType intent.type = true ∧
      (∀ entry ∈ input.policy.denyActions, actionMatches intent.type entry = false) ∧
      input.holder ≠ none ∧ input.capabilities.length ≤ maxCandidates ∧
      SafeRequest intent.toGovernedIntent (input.evalContext intent.toGovernedIntent) ∧
      KernelSpec.Decide (input.grants X) intent.toGovernedIntent.toSpec
        (input.evalContext intent.toGovernedIntent).toSpec) ∧
    (∀ child parent : CapabilityGrant, isAttenuationOf child parent = true ↔
      WellFormed child ∧ WellFormed parent ∧ child.issuer = parent.subject ∧
        KernelSpec.IsAttenuation child.toSpec parent.toSpec) ∧
    ∀ cap tail, Usable X input cap tail → ∀ link ∈ cap.chain, ∀ i x,
      KernelSpec.Authorizes tail.toSpec i x → KernelSpec.Authorizes link.grant.toSpec i x := by
  refine ⟨?_, fun _ _ => isAttenuationOf_refines, fun _ _ h link hmem => (h.links link hmem).2⟩
  rw [decide_ne_deny_iff hev]
  constructor
  · rintro ⟨intent', h⟩
    obtain rfl := Option.some.inj (hintent.symm.trans h.intent_eq)
    obtain ⟨cap, hmem, hcap⟩ := h.authorized
    obtain ⟨tail, husable, hsafe, hauth⟩ := admittedBy_iff.mp hcap
    exact ⟨h.canonical, h.not_denied, h.holder, h.bounded, hsafe, _,
      ⟨cap, hmem, tail, husable, rfl⟩, hauth⟩
  · rintro ⟨hcanonical, hdeny, hholder, hlen, hsafe, _, ⟨cap, hmem, tail, husable, rfl⟩, hauth⟩
    exact ⟨intent, hintent, hcanonical, hdeny, hholder, hlen, cap, hmem,
      admittedBy_iff.mpr ⟨tail, husable, hsafe, hauth⟩⟩

/-- The specification allows what `C` reads. -/
theorem kernel_refines_spec_sample :
    (plainExternals.decide sampleInput).effect = .allow ∧
      KernelSpec.Decide (sampleInput.grants plainExternals) ⟨"data.read", some "D", 3⟩
        ⟨20, 1, 40⟩ := by
  have hallow : (plainExternals.decide sampleInput).effect = .allow := by decide +kernel
  refine ⟨hallow, ?_⟩
  have hne : (plainExternals.decide sampleInput).effect ≠ .deny := by
    rw [hallow]
    exact Effect.noConfusion
  exact ((kernel_refines_spec plainExternals sampleInput _ rfl rfl).1.mp hne).2.2.2.2.2

end Nerion
