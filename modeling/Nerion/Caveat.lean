import Nerion.Kernel
import Nerion.Permit
import Nerion.Symbolic

/-!
# Caveats (`planes/src/caveat.ts`)

The holder of a permit narrows it offline: each caveat is folded into the authentication code, and
the root code is left out of what is passed on. The resource recomputes the root from its key,
folds the caveats again and enforces every one of them.

* `enforceCaveat_iff` — a caveat is enforced as the predicate that it states;
* `attenuateAll_eq_ok` — the fold of the holder is the fold of the resource;
* `accepts_fold_iff` — an attenuated permit is accepted when the permit is and every caveat holds;
* `attenuation_semantics` — so the verdict depends on the set of caveats and only narrows.
-/

namespace Nerion

/-- A caveat as it comes off the wire: the four kinds of `Caveat` are built below. -/
structure Caveat (B : Type) where
  kind : String
  value : JsData B

namespace Caveat

variable {B : Type}

/-- The time is at most the value. -/
def expiresAtMost (value : JsNum) : Caveat B := ⟨"expiresAtMost", .num value⟩

/-- The amount is at most the value. -/
def amountAtMost (value : JsNum) : Caveat B := ⟨"amountAtMost", .num value⟩

/-- The counterparty is the value. -/
def counterpartyIs (value : String) : Caveat B := ⟨"counterpartyIs", .text value⟩

/-- The action type is the value or below it. -/
def actionPrefix (value : String) : Caveat B := ⟨"actionPrefix", .text value⟩

end Caveat

structure AttenuatedPermit (B : Type) where
  suite : String
  /-- the encoded claims of the base permit -/
  body : B
  /-- the caveats, in the order of the chain -/
  caveats : List (Caveat B)
  /-- the end of the chain -/
  mac : B

/-- What can be attenuated: a permit, or one that has caveats already. -/
inductive Permit (B : Type) where
  /-- a permit token -/
  | token (token : PermitToken B)
  /-- an attenuated permit -/
  | attenuated (permit : AttenuatedPermit B)

namespace Permit

variable {B : Type}

/-- `permit.suite`. -/
def suite : Permit B → String
  | token t => t.suite
  | attenuated p => p.suite

/-- `permit.body`. -/
def body : Permit B → B
  | token t => t.body
  | attenuated p => p.body

/-- `permit.mac`. -/
def mac : Permit B → B
  | token t => t.mac
  | attenuated p => p.mac

/-- The caveats so far. -/
def caveats : Permit B → List (Caveat B)
  | token _ => []
  | attenuated p => p.caveats

end Permit

/-- `MAX_CAVEATS`. -/
def maxCaveats : ℕ := 16

/-! ## Enforcement -/

section Enforcement

variable {B : Type}

/-- The case `expiresAtMost` of `enforceCaveat`. -/
def enforceExpiry (value : JsData B) (check : PermitCheck) : Option String :=
  match value with
  | .num value =>
    if !value.isSafeInteger then some "caveat expiresAtMost is malformed"
    else if JsNum.le check.now value then none else some "caveat expiry exceeded"
  | _ => some "caveat expiresAtMost is malformed"

/-- The case `amountAtMost`. -/
def enforceAmount (value : JsData B) (check : PermitCheck) : Option String :=
  match value with
  | .num value =>
    let amount := check.intent.amount.getD 0
    if !value.isSafeInteger || JsNum.lt value 0 then some "caveat amountAtMost is malformed"
    else if !amount.isSafeInteger || JsNum.lt amount 0 then some "intent amount is malformed"
    else if JsNum.le amount value then none else some "caveat amount ceiling exceeded"
  | _ => some "caveat amountAtMost is malformed"

/-- The case `counterpartyIs`. -/
def enforceCounterparty (value : JsData B) (check : PermitCheck) : Option String :=
  match value with
  | .text value =>
    if check.intent.counterparty = some value then none else some "caveat counterparty mismatch"
  | _ => some "caveat counterparty mismatch"

/-- The case `actionPrefix`, whose test is that of `actionMatches`. -/
def enforceAction (value : JsData B) (check : PermitCheck) : Except JsError (Option String) :=
  match value with
  | .text value =>
    .ok (if actionMatches check.intent.type value then none
      else some "caveat action-prefix mismatch")
  | .null => .error ⟨"TypeError", "Cannot read properties of null (reading 'endsWith')"⟩
  | _ => .error ⟨"TypeError", "c.value.endsWith is not a function"⟩

def enforceCaveat (c : Caveat B) (check : PermitCheck) : Except JsError (Option String) :=
  if c.kind = "expiresAtMost" then .ok (enforceExpiry c.value check)
  else if c.kind = "amountAtMost" then .ok (enforceAmount c.value check)
  else if c.kind = "counterpartyIs" then .ok (enforceCounterparty c.value check)
  else if c.kind = "actionPrefix" then enforceAction c.value check
  else .ok (some ("unknown caveat kind: " ++ c.kind))

/-- The type is a dotted child of the value, which may end in its dot. -/
def DottedChild (type value : String) : Prop :=
  ∃ rest : List Char, type.toList =
    (if jsEndsWith value '.' then value.toList else value.toList ++ ['.']) ++ rest

/-- A caveat as a predicate on the action that is checked. -/
inductive Caveat.Holds (check : PermitCheck) : Caveat B → Prop where
  /-- the time is at most a safe integer -/
  | expiresAtMost {value : JsNum} (hsafe : value.isSafeInteger = true)
    (hle : JsNum.le check.now value = true) : Holds check (.expiresAtMost value)
  /-- the amount is at most the value, and both are non-negative safe integers -/
  | amountAtMost {value : JsNum} (hsafe : value.isSafeInteger = true)
    (hpos : JsNum.lt value 0 = false)
    (hamount : (check.intent.amount.getD 0).isSafeInteger = true)
    (hamountPos : JsNum.lt (check.intent.amount.getD 0) 0 = false)
    (hle : JsNum.le (check.intent.amount.getD 0) value = true) : Holds check (.amountAtMost value)
  /-- the counterparty is the value -/
  | counterpartyIs {value : String} (heq : check.intent.counterparty = some value) :
    Holds check (.counterpartyIs value)
  /-- the type is the value or a dotted child of it -/
  | actionPrefix {value : String}
    (htype : check.intent.type = value ∨ DottedChild check.intent.type value) :
    Holds check (.actionPrefix value)

theorem actionMatches_iff {type value : String} :
    actionMatches type value = true ↔ type = value ∨ DottedChild type value := by
  rw [actionMatches, Bool.or_eq_true, beq_iff_eq, jsStartsWith, List.isPrefixOf_iff_prefix]
  refine or_congr_right ?_
  rw [DottedChild]
  split
  · exact exists_congr fun rest => eq_comm
  · rw [String.toList_append]
    exact exists_congr fun rest => eq_comm

variable {check : PermitCheck} {value : JsData B}

theorem enforceExpiry_eq_none :
    enforceExpiry value check = none ↔
      ∃ x, value = .num x ∧ x.isSafeInteger = true ∧ JsNum.le check.now x = true := by
  cases value with
  | num x => cases hsafe : x.isSafeInteger <;> simp [enforceExpiry, hsafe]
  | _ => simp [enforceExpiry]

theorem enforceAmount_eq_none :
    enforceAmount value check = none ↔
      ∃ x, value = .num x ∧ x.isSafeInteger = true ∧ JsNum.lt x 0 = false ∧
        (check.intent.amount.getD 0).isSafeInteger = true ∧
        JsNum.lt (check.intent.amount.getD 0) 0 = false ∧
        JsNum.le (check.intent.amount.getD 0) x = true := by
  cases value with
  | num x =>
    cases hsafe : x.isSafeInteger <;> cases hpos : JsNum.lt x 0 <;>
      cases hamount : (check.intent.amount.getD 0).isSafeInteger <;>
      cases hamountPos : JsNum.lt (check.intent.amount.getD 0) 0 <;>
      simp [enforceAmount, hsafe, hpos, hamount, hamountPos]
  | _ => simp [enforceAmount]

theorem enforceCounterparty_eq_none :
    enforceCounterparty value check = none ↔
      ∃ s, value = .text s ∧ check.intent.counterparty = some s := by
  cases value with
  | text s => simp [enforceCounterparty]
  | _ => simp [enforceCounterparty]

theorem enforceAction_eq_none :
    enforceAction value check = .ok none ↔
      ∃ s, value = .text s ∧ (check.intent.type = s ∨ DottedChild check.intent.type s) := by
  cases value with
  | text s => simp [enforceAction, actionMatches_iff, or_iff_not_imp_left]
  | _ => simp [enforceAction]

/-- **A caveat is enforced as the predicate it states**; one of another kind or with a value of
another type never passes. -/
theorem enforceCaveat_iff {c : Caveat B} : enforceCaveat c check = .ok none ↔ c.Holds check := by
  obtain ⟨kind, value⟩ := c
  constructor
  · intro h
    simp only [enforceCaveat] at h
    split at h
    · rename_i hkind
      obtain ⟨x, rfl, hsafe, hle⟩ := enforceExpiry_eq_none.mp (Except.ok.inj h)
      subst hkind
      exact .expiresAtMost hsafe hle
    split at h
    · rename_i hkind
      obtain ⟨x, rfl, hsafe, hpos, hamount, hamountPos, hle⟩ :=
        enforceAmount_eq_none.mp (Except.ok.inj h)
      subst hkind
      exact .amountAtMost hsafe hpos hamount hamountPos hle
    split at h
    · rename_i hkind
      obtain ⟨s, rfl, heq⟩ := enforceCounterparty_eq_none.mp (Except.ok.inj h)
      subst hkind
      exact .counterpartyIs heq
    split at h
    · rename_i hkind
      obtain ⟨s, rfl, htype⟩ := enforceAction_eq_none.mp h
      subst hkind
      exact .actionPrefix htype
    · exact absurd (Except.ok.inj h) (Option.some_ne_none _)
  · intro h
    cases h with
    | expiresAtMost hsafe hle =>
      exact congrArg Except.ok (enforceExpiry_eq_none.mpr ⟨_, rfl, hsafe, hle⟩)
    | amountAtMost hsafe hpos hamount hamountPos hle =>
      exact congrArg Except.ok
        (enforceAmount_eq_none.mpr ⟨_, rfl, hsafe, hpos, hamount, hamountPos, hle⟩)
    | counterpartyIs heq =>
      exact congrArg Except.ok (enforceCounterparty_eq_none.mpr ⟨_, rfl, heq⟩)
    | actionPrefix htype => exact (enforceAction_eq_none (B := B)).mpr ⟨_, rfl, htype⟩

/-- No reason is given exactly when every caveat holds. -/
theorem enforceAll_iff {cs : List (Caveat B)} :
    (∃ verdicts, cs.mapM (enforceCaveat · check) = .ok verdicts ∧ verdicts.reduceOption = []) ↔
      ∀ c ∈ cs, c.Holds check := by
  constructor
  · rintro ⟨verdicts, hrun, hnil⟩ c hc
    obtain ⟨v, hv, hcv⟩ := exists_of_forall₂_of_mem (Except.mapM_eq_ok.mp hrun).flip hc
    obtain rfl : v = none := List.filterMap_eq_nil_iff.mp hnil v hv
    exact enforceCaveat_iff.mp hcv
  · intro hall
    refine ⟨cs.map fun _ => none, Except.mapM_eq_ok.mpr ?_, ?_⟩
    · rw [List.forall₂_map_right_iff, List.forall₂_same]
      intro c hc
      exact enforceCaveat_iff.mpr (hall c hc)
    · refine List.filterMap_eq_nil_iff.mpr fun v hv => ?_
      obtain ⟨c, -, rfl⟩ := List.mem_map.mp hv
      rfl

end Enforcement

/-! ## The chain -/

namespace PermitWorld

variable {B : Type} (W : PermitWorld B)

def caveatChainMessage (c : Caveat B) : Except JsError B :=
  W.encodeCanonical (.array [.text "Nerion/permit-caveat/v1", .text c.kind, c.value])

def chainMac (rootMac : B) (caveats : List (Caveat B)) : Except JsError B :=
  caveats.foldlM (fun acc c => (W.caveatChainMessage c).map (W.hmac acc)) rootMac

def attenuate (permit : Permit B) (caveat : Caveat B) : Except JsError (AttenuatedPermit B) :=
  (W.caveatChainMessage caveat).map fun message =>
    ⟨permit.suite, permit.body, permit.caveats ++ [caveat], W.hmac permit.mac message⟩

/-- The caveats are folded onto a permit one after the other. -/
def attenuateAll (permit : Permit B) (caveats : List (Caveat B)) : Except JsError (Permit B) :=
  caveats.foldlM (fun p c => (W.attenuate p c).map .attenuated) permit

/-- `verifyAttenuatedPermit`; `none` is a value that lacks one of the fields. -/
def verifyAttenuatedPermit (ap : Option (AttenuatedPermit B)) (audienceKey : B)
    (check : PermitCheck) : Except JsError PermitVerdict :=
  match ap with
  | none => .ok ⟨false, ["attenuated permit is malformed (body/suite/caveats/mac)"]⟩
  | some ap =>
    if W.tooLarge ap.suite ap.body then .ok ⟨false, ["permit token exceeds size bound"]⟩
    else if ap.caveats.length > maxCaveats then
      .ok ⟨false, ["too many caveats (> " ++ toString maxCaveats ++ ")"]⟩
    else do
      let m0 ← W.permitMac ap.suite ap.body audienceKey
      let baseVerdict ← W.verifyPermitForAction ⟨ap.suite, ap.body, m0⟩ audienceKey check
      if !baseVerdict.ok then .ok baseVerdict
      else
        let mac ← W.chainMac m0 ap.caveats
        if !W.equal mac ap.mac then
          .ok ⟨false, ["attenuated permit caveat chain is invalid (tampered or forged)"]⟩
        else
          let verdicts ← ap.caveats.mapM (enforceCaveat · check)
          let reasons := verdicts.reduceOption
          .ok ⟨reasons.length == 0, reasons⟩

variable {W}

/-- The holder's fold gives the code that the resource's fold gives. -/
theorem attenuateAll_eq_ok {cs : List (Caveat B)} {permit permit' : Permit B}
    (h : W.attenuateAll permit cs = .ok permit') :
    permit'.suite = permit.suite ∧ permit'.body = permit.body ∧
      permit'.caveats = permit.caveats ++ cs ∧ W.chainMac permit.mac cs = .ok permit'.mac := by
  induction cs generalizing permit with
  | nil =>
    obtain rfl := Except.ok.inj h
    exact ⟨rfl, rfl, (List.append_nil _).symm, rfl⟩
  | cons c cs ih =>
    rw [attenuateAll, List.foldlM_cons] at h
    obtain ⟨p, hp, h⟩ := Except.bind_eq_ok h
    obtain ⟨ap, hap, rfl⟩ := Except.map_eq_ok hp
    obtain ⟨message, hmessage, rfl⟩ := Except.map_eq_ok hap
    obtain ⟨hsuite, hbody, hcaveats, hchain⟩ := ih h
    refine ⟨hsuite, hbody, ?_, ?_⟩
    · rw [hcaveats]
      exact List.append_assoc _ [c] cs
    · rw [chainMac, List.foldlM_cons]
      refine Except.bind_ok ?_ hchain
      rw [hmessage]
      rfl

/-- What an accepted attenuated permit has passed. -/
theorem accepts_attenuated_iff {ap : AttenuatedPermit B} {key : B} {check : PermitCheck} :
    Accepts (W.verifyAttenuatedPermit (some ap) key check) ↔
      W.tooLarge ap.suite ap.body = false ∧ ap.caveats.length ≤ maxCaveats ∧
      ∃ m0 mac, W.permitMac ap.suite ap.body key = .ok m0 ∧
        Accepts (W.verifyPermitForAction ⟨ap.suite, ap.body, m0⟩ key check) ∧
        W.chainMac m0 ap.caveats = .ok mac ∧ W.equal mac ap.mac = true ∧
        ∀ c ∈ ap.caveats, c.Holds check := by
  constructor
  · rintro ⟨verdict, h, hok⟩
    rw [verifyAttenuatedPermit] at h
    obtain ⟨hsize, h⟩ := Except.not_early (·.ok = true) h hok Bool.false_ne_true
    obtain ⟨hcount, h⟩ := Except.not_early (·.ok = true) h hok Bool.false_ne_true
    obtain ⟨m0, hm0, h⟩ := Except.bind_eq_ok h
    obtain ⟨base, hbase, h⟩ := Except.bind_eq_ok h
    split at h
    · rename_i hbad
      obtain rfl := Except.ok.inj h
      rw [hok] at hbad
      cases hbad
    rename_i hgood
    obtain ⟨mac, hmac, h⟩ := Except.bind_eq_ok h
    obtain ⟨hequal, h⟩ := Except.not_early (·.ok = true) h hok Bool.false_ne_true
    obtain ⟨verdicts, hverdicts, h⟩ := Except.bind_eq_ok h
    obtain rfl := Except.ok.inj h
    refine ⟨Bool.eq_false_iff.mpr hsize, Nat.not_lt.mp hcount, m0, mac, hm0, ⟨base, hbase, ?_⟩,
      hmac, ?_, enforceAll_iff.mp ⟨verdicts, hverdicts, ?_⟩⟩
    · simpa using hgood
    · simpa using hequal
    · exact List.length_eq_zero_iff.mp (beq_iff_eq.mp hok)
  · rintro ⟨hsize, hcount, m0, mac, hm0, ⟨base, hbase, hgood⟩, hmac, hequal, hall⟩
    obtain ⟨verdicts, hverdicts, hnil⟩ := enforceAll_iff.mpr hall
    refine ⟨⟨true, []⟩, ?_, rfl⟩
    rw [verifyAttenuatedPermit, if_neg (Bool.eq_false_iff.mp hsize),
      if_neg (Nat.not_lt.mpr hcount)]
    refine Except.bind_ok hm0 (Except.bind_ok hbase ?_)
    rw [hgood, Bool.not_true, if_neg Bool.false_ne_true]
    refine Except.bind_ok hmac ?_
    rw [hequal, Bool.not_true, if_neg Bool.false_ne_true]
    refine Except.bind_ok hverdicts ?_
    rw [hnil]
    rfl

/-- The attenuated permit is accepted when the token is and every caveat holds. -/
theorem accepts_fold_iff (hequal : ∀ b, W.equal b b = true) {claims : JsData B} {suite : String}
    {key : B} {token : PermitToken B} {cs : List (Caveat B)} {ap : AttenuatedPermit B}
    (hissue : W.issuePermit claims suite key = .ok token)
    (hfold : W.attenuateAll (.token token) cs = .ok (.attenuated ap)) (check : PermitCheck) :
    Accepts (W.verifyAttenuatedPermit (some ap) key check) ↔ cs.length ≤ maxCaveats ∧
      Accepts (W.verifyPermitForAction token key check) ∧ ∀ c ∈ cs, c.Holds check := by
  obtain ⟨hsuite, hbody, hcaveats, hchain⟩ := attenuateAll_eq_ok hfold
  have hroot := permitMac_issued hissue
  obtain ⟨suite', body, caveats, mac⟩ := ap
  obtain rfl : suite' = token.suite := hsuite
  obtain rfl : body = token.body := hbody
  obtain rfl : caveats = cs := hcaveats
  rw [accepts_attenuated_iff]
  constructor
  · rintro ⟨-, hcount, m0, mac', hm0, hbase, -, -, hall⟩
    obtain rfl := Except.ok.inj (hm0.symm.trans hroot)
    exact ⟨hcount, hbase, hall⟩
  · rintro ⟨hcount, hbase, hall⟩
    exact ⟨(accepts_token_iff.mp hbase).1, hcount, token.mac, mac, hroot, hbase, hchain, hequal mac,
      hall⟩

theorem attenuateAll_concat {permit : Permit B} {cs : List (Caveat B)} {ap ap' : AttenuatedPermit B}
    {c : Caveat B} (h : W.attenuateAll permit cs = .ok (.attenuated ap))
    (hc : W.attenuate (.attenuated ap) c = .ok ap') :
    W.attenuateAll permit (cs ++ [c]) = .ok (.attenuated ap') := by
  rw [attenuateAll, List.foldlM_append]
  refine Except.bind_ok h ?_
  rw [List.foldlM_cons, hc]
  rfl

end PermitWorld

/-! ## Semantics -/

open PermitWorld in
/-- **The semantics of attenuation.** For a token that was issued under the key and at most sixteen
caveats that were folded onto it, the attenuated permit is accepted exactly when the token is and
every caveat holds. So the verdict depends on the set of caveats only, and one more caveat never
makes it accepted. -/
theorem attenuation_semantics (X : PermitExternals) (claims : JsData Bytes) (suite : String)
    (key : Bytes) (token : PermitToken Bytes) (cs : List (Caveat Bytes))
    (ap : AttenuatedPermit Bytes) (check : PermitCheck)
    (hissue : X.world.issuePermit claims suite key = .ok token)
    (hfold : X.world.attenuateAll (.token token) cs = .ok (.attenuated ap))
    (hcount : cs.length ≤ 16) :
    (Accepts (X.world.verifyAttenuatedPermit (some ap) key check) ↔
      Accepts (X.world.verifyPermitForAction token key check) ∧ ∀ c ∈ cs, c.Holds check) ∧
    (∀ cs' ap', X.world.attenuateAll (.token token) cs' = .ok (.attenuated ap') →
      cs'.length ≤ 16 → (∀ c, c ∈ cs' ↔ c ∈ cs) →
      (Accepts (X.world.verifyAttenuatedPermit (some ap') key check) ↔
        Accepts (X.world.verifyAttenuatedPermit (some ap) key check))) ∧
    ∀ c ap', X.world.attenuate (.attenuated ap) c = .ok ap' →
      Accepts (X.world.verifyAttenuatedPermit (some ap') key check) →
      Accepts (X.world.verifyAttenuatedPermit (some ap) key check) := by
  have hequal : ∀ b, X.world.equal b b = true := fun b => constantTimeEqual_iff.mpr rfl
  have hiff := accepts_fold_iff hequal hissue hfold check
  refine ⟨?_, ?_, ?_⟩
  · rw [hiff]
    exact and_iff_right hcount
  · intro cs' ap' hfold' hcount' hset
    rw [hiff, accepts_fold_iff hequal hissue hfold' check]
    simp only [hset, maxCaveats, hcount, hcount', true_and]
  · intro c ap' hc haccepts
    obtain ⟨-, hbase, hall⟩ :=
      (accepts_fold_iff hequal hissue (attenuateAll_concat hfold hc) check).mp haccepts
    refine hiff.mpr ⟨hcount, hbase, fun c' hc' => hall c' ?_⟩
    exact List.mem_append_left _ hc'

/-- An action. -/
def voucherIntent : ActionIntent := ⟨⟨"pay", "acct", none, none⟩, none⟩

/-- The claims of a permit for it. -/
def voucherClaims : PermitClaims :=
  ⟨"session", "nonce", "vault", hexText (cborCode voucherIntent.toCbor), 1, 5, "v1", "allow"⟩

/-- The check at a time. -/
def voucherCheck (now : JsNum) : PermitCheck := ⟨"vault", voucherIntent, now, none, none⟩

/-- The symbolic externals, with a decoder for these claims. -/
def voucherExternals : PermitExternals where
  toExternals := symbolicExternals.toExternals
  hmacSha384 key message := key ++ message
  hkdfSha384 _ _ _ _ := []
  decodeCbor b :=
    if b = cborCode (JsData.toCbor voucherClaims.toData) then .ok voucherClaims.toData
    else .error (error "unexpected end of input")

/-- The permit. -/
def voucher : PermitToken Bytes :=
  let body := cborCode (JsData.toCbor voucherClaims.toData)
  ⟨"PS-5", body,
    [9] ++ cborCode (.array [.text "PolarSeek-Permit-v1", .text "PS-5", .bytes body])⟩

/-- The permit with one caveat. -/
def voucherWith (c : Caveat Bytes) : AttenuatedPermit Bytes :=
  ⟨"PS-5", voucher.body, [c], voucher.mac ++
    cborCode (.array [.text "Nerion/permit-caveat/v1", .text c.kind, c.value.toCbor])⟩

theorem voucher_issued :
    voucherExternals.world.issuePermit voucherClaims.toData "PS-5" [9] = .ok voucher := rfl

theorem voucherWith_attenuated (c : Caveat Bytes) :
    voucherExternals.world.attenuateAll (.token voucher) [c] = .ok (.attenuated (voucherWith c)) :=
  rfl

theorem voucher_accepted : PermitWorld.Accepts
    (voucherExternals.world.verifyPermitForAction voucher [9] (voucherCheck 1)) := by
  have hrun : (voucherExternals.world.verifyPermitForAction voucher [9]
      (voucherCheck 1)).toOption.map (·.ok) = some true := by decide +kernel
  exact PermitWorld.accepts_of_toOption hrun

/-- With a later caveat the permit is still accepted. -/
theorem attenuation_semantics_voucher : PermitWorld.Accepts
    (voucherExternals.world.verifyAttenuatedPermit (some (voucherWith (.expiresAtMost 3))) [9]
      (voucherCheck 1)) := by
  refine (attenuation_semantics voucherExternals _ _ _ _ _ _ _ voucher_issued
    (voucherWith_attenuated _) (by decide)).1.mpr ⟨voucher_accepted, ?_⟩
  intro c hc
  obtain rfl := List.mem_singleton.mp hc
  exact .expiresAtMost (by decide +kernel) (by decide +kernel)

/-- A caveat whose value is not a safe integer is malformed, although the time is below it. -/
theorem malformed_expiry_rejected :
    voucherExternals.world.issuePermit voucherClaims.toData "PS-5" [9] = .ok voucher ∧
    voucherExternals.world.attenuateAll (.token voucher) [.expiresAtMost (.fin (3 / 2))] =
      .ok (.attenuated (voucherWith (.expiresAtMost (.fin (3 / 2))))) ∧
    PermitWorld.Accepts
      (voucherExternals.world.verifyPermitForAction voucher [9] (voucherCheck 1)) ∧
    JsNum.le (voucherCheck 1).now (.fin (3 / 2)) = true ∧
    ¬ PermitWorld.Accepts (voucherExternals.world.verifyAttenuatedPermit
      (some (voucherWith (.expiresAtMost (.fin (3 / 2))))) [9] (voucherCheck 1)) := by
  refine ⟨voucher_issued, voucherWith_attenuated _, voucher_accepted, by decide +kernel, ?_⟩
  rintro ⟨verdict, hrun, hok⟩
  have hfalse : (voucherExternals.world.verifyAttenuatedPermit
      (some (voucherWith (.expiresAtMost (.fin (3 / 2))))) [9]
      (voucherCheck 1)).toOption.map (·.ok) = some false := by decide +kernel
  rw [hrun] at hfalse
  exact Bool.false_ne_true ((Option.some.inj hfalse).symm.trans hok)

end Nerion
