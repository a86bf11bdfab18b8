import Nerion.Matching
import Nerion.Symbolic

/-!
# Attestation (`attest/src`)

An attester signs a statement that binds a session key and a nonce. `appraise` checks one such
piece of evidence, `appraiseNofM` asks for several that are independent of each other, which it
decides by counting formats and counting attester keys.

* `appraised_iff` — what valid evidence has passed;
* `appraiseNofM_valid` — what an accepted quorum has passed;
* `Quorum.existsOutside_of_le_two` — two attestations that pass the two counts are independent;
* `nofm_independent_iff` — an accepted quorum rests on independent attestations exactly when fewer
  than `n` formats and keys never account for all of its valid evidence.

Evidence comes off the wire: an item of a list is `none` if it lacks claims, an attester key or a
suite.
-/

namespace Nerion

/-! ## Evidence and policy -/

/-- `AttestationClaims`; the format is a text, since it is read off the wire. -/
structure AttestationClaims where
  /-- the format of the evidence -/
  format : String
  sessionId : String
  /-- hex of the key of the session -/
  sessionPublicKey : String
  /-- the challenge of the verifier -/
  nonce : String
  /-- last second of the attestation -/
  notAfter : JsNum
  /-- measurement of the enclave, if any -/
  measurement : Option String
  deriving DecidableEq

structure Evidence where
  /-- the signed claims -/
  claims : AttestationClaims
  /-- the format that the envelope names, which is not signed -/
  format : String
  attesterPublicKey : Bytes
  /-- the signature -/
  sig : Bytes
  suite : String
  deriving DecidableEq

structure AppraisalPolicy where
  /-- the challenge that was sent -/
  expectedNonce : String
  /-- the clock -/
  now : JsNum
  /-- the keys that are trusted -/
  trustedAttesters : List Bytes
  acceptedFormats : List String
  /-- the measurements that are accepted -/
  expectedMeasurements : Option (List String)
  /-- the suites that are accepted, if they are restricted -/
  acceptedSuites : Option (List String)
  /-- the least category, if there is one -/
  minCategory : Option JsNum

structure QuoteVerdict where
  /-- whether the quote is accepted -/
  ok : Bool
  /-- why it is not -/
  reasons : List String

/-- `QuoteVerifier`, an adapter for a hardware format. -/
structure QuoteVerifier where
  format : String
  /-- `verify(evidence, expectedMeasurements)` -/
  verify : Evidence → List String → Except JsError QuoteVerdict

structure QuoteVerifierRegistry where
  /-- the adapters by format -/
  verifiers : List (String × QuoteVerifier)

namespace QuoteVerifierRegistry

def register (r : QuoteVerifierRegistry) (v : QuoteVerifier) : QuoteVerifierRegistry :=
  ⟨(v.format, v) :: r.verifiers.filter (·.1 != v.format)⟩

def get (r : QuoteVerifierRegistry) (format : String) : Option QuoteVerifier :=
  (r.verifiers.find? (·.1 == format)).map (·.2)

end QuoteVerifierRegistry

structure AppraisalResult where
  /-- whether the evidence is accepted -/
  valid : Bool
  /-- why it is not -/
  reasons : List String
  /-- the claims, if it is -/
  claims : Option AttestationClaims
  deriving DecidableEq

/-- `HARDWARE_FORMATS`. -/
def hardwareFormats : List String := ["tdx", "sev-snp", "cca", "tpm"]

/-- `MAX_EVIDENCES`. -/
def maxEvidences : ℕ := 256

/-- The claims as the encoder sees them. -/
def AttestationClaims.toCbor (c : AttestationClaims) : Cbor :=
  .map ([("format", .text c.format), ("sessionId", .text c.sessionId),
    ("sessionPublicKey", .text c.sessionPublicKey), ("nonce", .text c.nonce),
    ("notAfter", .num c.notAfter)] ++ (c.measurement.map fun m => ("measurement", .text m)).toList)

/-! ## Appraisal of one item -/

/-- The category that the policy is compared with; `-1` for a suite that is not registered. An
inherited member has none, and `undefined` is below no number. -/
def evidenceCategory (suite : String) : JsNum :=
  match getSuite suite with
  | .ok (some suite) => (suite.category : JsNum)
  | .ok none => .nan
  | .error _ => ((-1 : ℤ) : JsNum)

/-- The checks of the suite against the policy. -/
def suiteReasons (policy : AppraisalPolicy) (suite : String) : List String :=
  let accepted :=
    match policy.acceptedSuites with
    | none => []
    | some suites =>
      reasonIf (!suites.contains suite)
        ("suite \"" ++ suite ++ "\" is not in the policy's accepted suites")
  let category :=
    match policy.minCategory with
    | none => []
    | some least =>
      reasonIf (JsNum.lt (evidenceCategory suite) least)
        ("suite \"" ++ suite ++ "\" category " ++ (evidenceCategory suite).text ++
          " is below the required minimum " ++ least.text)
  accepted ++ category

/-- The checks of the clock and of the expiry. -/
def expiryReasons (policy : AppraisalPolicy) (claims : AttestationClaims) : List String :=
  if !policy.now.isSafeInteger || !claims.notAfter.isSafeInteger then
    ["attestation expiry uncheckable (non-safe-integer clock or notAfter)"]
  else reasonIf (JsNum.lt claims.notAfter policy.now) "attestation has expired"

/-- The check of a hardware format by its adapter. -/
def quoteReasons (evidence : Evidence) (policy : AppraisalPolicy)
    (verifiers : Option QuoteVerifierRegistry) : Except JsError (List String) :=
  let format := evidence.claims.format
  if !hardwareFormats.contains format then .ok []
  else
    match verifiers.bind (·.get format) with
    | none =>
      .ok ["TEE quote verification for \"" ++ format ++ "\" is not implemented " ++
        "(CONNECT: " ++ format ++ " attestation verification SDK)"]
    | some verifier =>
      (verifier.verify evidence (policy.expectedMeasurements.getD [])).map fun verdict =>
        if verdict.ok then [] else verdict.reasons

namespace Externals

variable (X : Externals)

def attestSigningMessage (suite : String) (claims : AttestationClaims) : Except JsError Bytes :=
  X.encodeCanonical
    (.array [.text "polarseek/attest/evidence/v1", .text suite, claims.toCbor])

/-- The reasons against the evidence; `quote` are those of the adapter of its format. -/
def appraisalReasons (evidence : Evidence) (policy : AppraisalPolicy) (quote : List String) :
    List String :=
  let format := evidence.claims.format
  let sigValid := X.verifies true evidence.suite evidence.sig
    (X.attestSigningMessage evidence.suite evidence.claims) (.ok evidence.attesterPublicKey)
  reasonIf (evidence.format != format)
    "format mismatch between unsigned envelope and signed claims" ++
  reasonIf (!policy.acceptedFormats.contains format)
    ("format \"" ++ format ++ "\" not accepted by policy") ++
  quote ++
  reasonIf (!policy.trustedAttesters.any (constantTimeEqual · evidence.attesterPublicKey))
    "attester key is not in the trusted set" ++
  suiteReasons policy evidence.suite ++
  reasonIf (!sigValid) "evidence signature is invalid (or unresolvable suite)" ++
  reasonIf (evidence.claims.nonce != policy.expectedNonce)
    "nonce mismatch (stale or replayed attestation)" ++
  expiryReasons policy evidence.claims

def appraise (evidence : Option Evidence) (policy : AppraisalPolicy)
    (verifiers : Option QuoteVerifierRegistry) : Except JsError AppraisalResult :=
  match evidence with
  | none =>
    .ok ⟨false, ["evidence is malformed (missing/invalid claims, attester key, or suite)"], none⟩
  | some evidence => do
    let quote ← quoteReasons evidence policy verifiers
    let reasons := X.appraisalReasons evidence policy quote
    .ok (if reasons.length == 0 then ⟨true, reasons, some evidence.claims⟩
      else ⟨false, reasons, none⟩)

/-! ## Appraisal of several -/

/-- The part of `appraiseNofM` after the items were appraised: `valid` are the valid ones with
their claims. -/
def corroborate (valid : List (Evidence × AttestationClaims)) (n : JsNum) :
    Except JsError AppraisalResult :=
  let formats := (valid.map (·.2.format)).toFinset.card
  let attesters := (valid.map fun x => X.bytesToHex x.1.attesterPublicKey).toFinset.card
  let sessions := (valid.map (·.2.sessionPublicKey)).toFinset.card
  let sessionIds := (valid.map (·.2.sessionId)).toFinset.card
  if sessions > 1 then
    .ok ⟨false, ["n-of-m attestations corroborate different sessions (must agree on one)"], none⟩
  else if sessionIds > 1 then
    .ok ⟨false, ["n-of-m attestations corroborate different session ids (must agree on one)"],
      none⟩
  else if JsNum.le n formats && JsNum.le n attesters then
    let minNotAfter := valid.foldl (fun m x => JsNum.mathMin m x.2.notAfter) JsNum.posInf
    match valid with
    | [] => .error ⟨"TypeError", "Cannot read properties of undefined (reading 'r')"⟩
    | x :: _ => .ok ⟨true, [], some { x.2 with notAfter := minNotAfter }⟩
  else
    .ok ⟨false, ["require " ++ n.text ++ " heterogeneous valid attestations from distinct " ++
      "attesters, got " ++ toString formats ++ " format(s) / " ++ toString attesters ++
      " attester(s)"], none⟩

/-- An item that was appraised as valid, with its claims. -/
def validItem (x : Option Evidence × AppraisalResult) : Option (Evidence × AttestationClaims) :=
  match x with
  | (some e, ⟨true, _, some claims⟩) => some (e, claims)
  | _ => none

def appraiseNofM (evidences : List (Option Evidence)) (policy : AppraisalPolicy) (n : JsNum)
    (verifiers : Option QuoteVerifierRegistry) : Except JsError AppraisalResult :=
  if !n.isSafeInteger || JsNum.lt n 1 then
    .ok ⟨false, ["n-of-m threshold must be a positive integer"], none⟩
  else if evidences.length > maxEvidences then
    .ok ⟨false, ["evidence count " ++ toString evidences.length ++ " exceeds bound " ++
      toString maxEvidences], none⟩
  else do
    let appraised ← evidences.mapM fun e => (X.appraise e policy verifiers).map fun r => (e, r)
    X.corroborate (appraised.filterMap validItem) n

/-! ## What is accepted -/

/-- The item is valid on its own. -/
def Appraised (policy : AppraisalPolicy) (verifiers : Option QuoteVerifierRegistry)
    (e : Evidence) : Prop :=
  ∃ r, X.appraise (some e) policy verifiers = .ok r ∧ r.valid = true

variable {X} {policy : AppraisalPolicy} {verifiers : Option QuoteVerifierRegistry}
  {claims : AttestationClaims}

theorem expiryReasons_eq_nil :
    expiryReasons policy claims = [] ↔ policy.now.isSafeInteger = true ∧
      claims.notAfter.isSafeInteger = true ∧ JsNum.lt claims.notAfter policy.now = false := by
  rw [expiryReasons]
  cases policy.now.isSafeInteger <;> cases claims.notAfter.isSafeInteger <;> simp [reasonIf_eq_nil]

/-- The checks that evidence passes. -/
structure Passes (X : Externals) (policy : AppraisalPolicy) (e : Evidence) : Prop where
  /-- the envelope names the format of the claims -/
  sameFormat : e.format = e.claims.format
  /-- the policy accepts it -/
  accepted : e.claims.format ∈ policy.acceptedFormats
  /-- the attester is trusted -/
  trusted : e.attesterPublicKey ∈ policy.trustedAttesters
  /-- the policy accepts the suite -/
  suite : suiteReasons policy e.suite = []
  /-- the attester has signed the claims -/
  signed : X.verifies true e.suite e.sig (X.attestSigningMessage e.suite e.claims)
    (.ok e.attesterPublicKey) = true
  /-- the nonce is the one that was sent -/
  nonce : e.claims.nonce = policy.expectedNonce
  /-- the clock is a safe integer -/
  now : policy.now.isSafeInteger = true
  /-- the expiry is a safe integer -/
  notAfter : e.claims.notAfter.isSafeInteger = true
  /-- the expiry has not passed -/
  lasts : JsNum.lt e.claims.notAfter policy.now = false

theorem appraisalReasons_eq_nil {e : Evidence} {quote : List String} :
    X.appraisalReasons e policy quote = [] ↔ quote = [] ∧ Passes X policy e := by
  have htrusted : policy.trustedAttesters.any (constantTimeEqual · e.attesterPublicKey) = true ↔
      e.attesterPublicKey ∈ policy.trustedAttesters := by
    simp [constantTimeEqual_iff]
  simp only [appraisalReasons, List.append_eq_nil_iff, reasonIf_eq_nil, expiryReasons_eq_nil,
    Bool.not_eq_false', htrusted, bne_eq_false_iff_eq, List.contains_iff_mem]
  constructor
  · rintro ⟨⟨⟨⟨⟨⟨⟨h1, h2⟩, hquote⟩, h3⟩, h4⟩, h5⟩, h6⟩, h7, h8, h9⟩
    exact ⟨hquote, h1, h2, h3, h4, h5, h6, h7, h8, h9⟩
  · rintro ⟨hquote, h1, h2, h3, h4, h5, h6, h7, h8, h9⟩
    exact ⟨⟨⟨⟨⟨⟨⟨h1, h2⟩, hquote⟩, h3⟩, h4⟩, h5⟩, h6⟩, h7, h8, h9⟩

/-- The result for valid evidence carries its claims. -/
theorem appraise_eq_ok {e : Evidence} {r : AppraisalResult} :
    X.appraise (some e) policy verifiers = .ok r ∧ r.valid = true ↔
      r = ⟨true, [], some e.claims⟩ ∧ quoteReasons e policy verifiers = .ok [] ∧
        Passes X policy e := by
  constructor
  · rintro ⟨h, hvalid⟩
    obtain ⟨quote, hquote, h⟩ := Except.bind_eq_ok h
    obtain rfl := Except.ok.inj h
    split at hvalid
    · rename_i hreasons
      have hnil := List.length_eq_zero_iff.mp (beq_iff_eq.mp hreasons)
      obtain ⟨rfl, hpasses⟩ := appraisalReasons_eq_nil.mp hnil
      exact ⟨by rw [hnil]; rfl, hquote, hpasses⟩
    · exact absurd hvalid Bool.false_ne_true
  · rintro ⟨rfl, hquote, hpasses⟩
    have hnil := appraisalReasons_eq_nil.mpr ⟨rfl, hpasses⟩
    refine ⟨?_, rfl⟩
    change (quoteReasons e policy verifiers).bind _ = _
    rw [hquote]
    change Except.ok (if (X.appraisalReasons e policy []).length == 0 then _ else _) = _
    rw [hnil]
    rfl

/-- **Valid evidence** has passed every check, that of its format's adapter included. -/
theorem appraised_iff {e : Evidence} : X.Appraised policy verifiers e ↔
    quoteReasons e policy verifiers = .ok [] ∧ Passes X policy e := by
  constructor
  · rintro ⟨r, hr⟩
    exact (appraise_eq_ok.mp hr).2
  · intro h
    exact ⟨_, appraise_eq_ok.mpr ⟨rfl, h⟩⟩

variable {evidences : List (Option Evidence)}

/-- The items that are counted are those that are valid, with the claims that they carry. -/
theorem mem_validItem {appraised : List (Option Evidence × AppraisalResult)}
    (h : evidences.mapM (fun e => (X.appraise e policy verifiers).map fun r => (e, r)) =
      .ok appraised) {x : Evidence × AttestationClaims} :
    x ∈ appraised.filterMap validItem ↔
      some x.1 ∈ evidences ∧ X.Appraised policy verifiers x.1 ∧ x.2 = x.1.claims := by
  have happ := Except.mapM_eq_ok.mp h
  rw [List.mem_filterMap]
  constructor
  · rintro ⟨y, hy, hx⟩
    obtain ⟨e, he, hey⟩ := exists_of_forall₂_of_mem happ hy
    obtain ⟨r, hr, rfl⟩ := Except.map_eq_ok hey
    unfold validItem at hx
    split at hx
    · rename_i e' reasons claims heq
      obtain rfl := Option.some.inj hx
      obtain ⟨rfl, rfl⟩ := Prod.mk.inj heq
      have hvalid := appraise_eq_ok.mp ⟨hr, rfl⟩
      obtain ⟨-, -, hclaims⟩ := AppraisalResult.mk.inj hvalid.1
      exact ⟨he, ⟨_, hr, rfl⟩, Option.some.inj hclaims⟩
    · exact absurd hx (Option.some_ne_none _).symm
  · rintro ⟨he, hvalid, hclaims⟩
    obtain ⟨y, hy, hey⟩ := exists_of_forall₂_of_mem happ.flip he
    have hr := (appraise_eq_ok (X := X)).mpr ⟨rfl, appraised_iff.mp hvalid⟩
    change (X.appraise (some x.1) policy verifiers).map _ = _ at hey
    rw [hr.1] at hey
    obtain rfl := Except.ok.inj hey
    refine ⟨_, hy, ?_⟩
    rw [validItem, ← hclaims]

/-! ## What a quorum has passed -/

/-- An accepted quorum: `valid` are the items that are valid on their own, and `claims` are the
claims that are returned. -/
structure Quorum (X : Externals) (evidences : List (Option Evidence)) (policy : AppraisalPolicy)
    (verifiers : Option QuoteVerifierRegistry) (k : ℕ) (claims : AttestationClaims)
    (valid : List Evidence) : Prop where
  /-- which items are valid -/
  mem : ∀ e, e ∈ valid ↔ some e ∈ evidences ∧ X.Appraised policy verifiers e
  /-- the items have enough formats -/
  formats : k ≤ (valid.map (·.claims.format)).toFinset.card
  /-- the items have enough attesters -/
  attesters : k ≤ (valid.map fun e => X.bytesToHex e.attesterPublicKey).toFinset.card
  /-- the items name the session of the claims -/
  session : ∀ e ∈ valid, e.claims.sessionId = claims.sessionId ∧
    e.claims.sessionPublicKey = claims.sessionPublicKey
  /-- the items last at least as long -/
  lasts : ∀ e ∈ valid, JsNum.le claims.notAfter e.claims.notAfter = true

theorem eq_of_card_le_one {ι α : Type} [DecidableEq α] {l : List ι} {f : ι → α}
    (h : ¬ (l.map f).toFinset.card > 1) {a b : ι} (ha : a ∈ l) (hb : b ∈ l) : f a = f b :=
  Finset.card_le_one.mp (Nat.not_lt.mp h) _ (List.mem_toFinset.mpr (List.mem_map_of_mem ha)) _
    (List.mem_toFinset.mpr (List.mem_map_of_mem hb))

/-- The least of the expiries is not above any of them. -/
theorem foldl_mathMin_le {l : List JsNum} {m : JsNum} (hm : m ≠ .nan) (hl : ∀ x ∈ l, x ≠ .nan) :
    JsNum.le (l.foldl JsNum.mathMin m) m = true ∧
      ∀ x ∈ l, JsNum.le (l.foldl JsNum.mathMin m) x = true := by
  induction l generalizing m with
  | nil => exact ⟨JsNum.le_self hm, nofun⟩
  | cons x l ih =>
    have hx := hl x List.mem_cons_self
    obtain ⟨hlem, hlex⟩ := JsNum.mathMin_le hm hx
    have hmin : JsNum.mathMin m x ≠ .nan := by
      rcases JsNum.mathMin_mem hm hx with h | h <;> rw [h] <;> assumption
    obtain ⟨hle, hall⟩ := ih hmin fun y hy => hl y (List.mem_cons_of_mem _ hy)
    refine ⟨JsNum.le_trans hle hlem, fun y hy => ?_⟩
    rcases List.mem_cons.mp hy with rfl | hy
    · exact JsNum.le_trans hle hlex
    · exact hall y hy

/-- What the valid items have passed together. -/
theorem corroborate_valid {valid : List (Evidence × AttestationClaims)} {n : JsNum}
    {result : AppraisalResult} (h : X.corroborate valid n = .ok result)
    (hvalid : result.valid = true) :
    ∃ x ∈ valid, result.claims = some { x.2 with
        notAfter := valid.foldl (fun m x => JsNum.mathMin m x.2.notAfter) JsNum.posInf } ∧
      JsNum.le n ((valid.map (·.2.format)).toFinset.card : JsNum) = true ∧
      JsNum.le n ((valid.map fun x => X.bytesToHex x.1.attesterPublicKey).toFinset.card : JsNum) =
        true ∧
      ¬ (valid.map (·.2.sessionPublicKey)).toFinset.card > 1 ∧
      ¬ (valid.map (·.2.sessionId)).toFinset.card > 1 := by
  rw [corroborate] at h
  obtain ⟨hsessions, h⟩ := Except.not_early (·.valid = true) h hvalid Bool.false_ne_true
  obtain ⟨hids, h⟩ := Except.not_early (·.valid = true) h hvalid Bool.false_ne_true
  split at h
  · rename_i hcounts
    obtain ⟨hformats, hattesters⟩ := Bool.and_eq_true_iff.mp hcounts
    cases valid with
    | nil => cases h
    | cons x rest =>
      obtain rfl := Except.ok.inj h
      exact ⟨x, List.mem_cons_self, rfl, hformats, hattesters, hsessions, hids⟩
  · obtain rfl := Except.ok.inj h
    cases hvalid

/-- **An accepted quorum.** The threshold is a positive integer, and the valid items have passed
the two counts, name one session and last at least as long as the claims that are returned. -/
theorem appraiseNofM_valid {n : JsNum} {result : AppraisalResult}
    (h : X.appraiseNofM evidences policy n verifiers = .ok result) (hvalid : result.valid = true) :
    ∃ (k : ℕ) (claims : AttestationClaims) (valid : List Evidence), n = k ∧ 1 ≤ k ∧
      result.claims = some claims ∧ Quorum X evidences policy verifiers k claims valid := by
  rw [appraiseNofM] at h
  obtain ⟨hn, h⟩ := Except.not_early (·.valid = true) h hvalid Bool.false_ne_true
  obtain ⟨-, h⟩ := Except.not_early (·.valid = true) h hvalid Bool.false_ne_true
  simp only [Bool.or_eq_true, not_or, Bool.not_eq_true, Bool.not_eq_false'] at hn
  have hint := JsNum.isInteger_of_isSafeInteger hn.1
  obtain ⟨k, hk, rfl⟩ := JsNum.exists_natCast_of_one_le hint ((JsNum.one_le_iff hint).mpr hn.2)
  obtain ⟨appraised, happ, h⟩ := Except.bind_eq_ok h
  obtain ⟨x, hx, hclaims, hformats, hattesters, hsessions, hids⟩ := corroborate_valid h hvalid
  generalize hV : appraised.filterMap validItem = V at hx hclaims hformats hattesters hsessions hids
  have hmem : ∀ y : Evidence × AttestationClaims, y ∈ V ↔
      some y.1 ∈ evidences ∧ X.Appraised policy verifiers y.1 ∧ y.2 = y.1.claims := by
    intro y
    rw [← hV]
    exact mem_validItem happ
  obtain ⟨valid, rfl⟩ : ∃ valid : List Evidence, V = valid.map fun e => (e, e.claims) := by
    refine ⟨V.map Prod.fst, ?_⟩
    rw [List.map_map]
    refine (List.map_id V).symm.trans (List.map_congr_left fun y hy => ?_)
    exact Prod.ext rfl ((hmem y).mp hy).2.2
  rw [List.foldl_map] at hclaims
  simp only [List.map_map, Function.comp_def] at hformats hattesters hsessions hids
  obtain ⟨e, he, rfl⟩ := List.mem_map.mp hx
  have hmem' : ∀ e, e ∈ valid ↔ some e ∈ evidences ∧ X.Appraised policy verifiers e := by
    intro e
    have hpair := hmem (e, e.claims)
    simpa using hpair
  refine ⟨k, _, valid, rfl, hk, hclaims, hmem', ?_, ?_, ?_, ?_⟩
  · simpa [JsNum.le_natCast] using hformats
  · simpa [JsNum.le_natCast] using hattesters
  · intro e' he'
    exact ⟨eq_of_card_le_one hids he' he, eq_of_card_le_one hsessions he' he⟩
  · intro e' he'
    have hnan : ∀ x ∈ valid.map (·.claims.notAfter), x ≠ JsNum.nan := by
      intro x hx
      obtain ⟨e'', he'', rfl⟩ := List.mem_map.mp hx
      exact JsNum.ne_nan_of_isSafeInteger (appraised_iff.mp ((hmem' e'').mp he'').2).2.notAfter
    have hle := (foldl_mathMin_le (m := .posInf) (by decide) hnan).2 _ (List.mem_map_of_mem he')
    rwa [List.foldl_map] at hle

/-! ## Independence -/

/-- The items rest on different formats and attesters, and vouch for what the claims say. -/
structure IndependentAttestations (X : Externals) (evidences : List (Option Evidence))
    (policy : AppraisalPolicy) (verifiers : Option QuoteVerifierRegistry)
    (claims : AttestationClaims) (items : List Evidence) : Prop where
  /-- they are items of the list -/
  mem : ∀ e ∈ items, some e ∈ evidences
  /-- each is valid on its own -/
  valid : ∀ e ∈ items, X.Appraised policy verifiers e
  /-- any two differ both in format and in attester key -/
  independent : items.Pairwise fun a b =>
    a.claims.format ≠ b.claims.format ∧ a.attesterPublicKey ≠ b.attesterPublicKey
  /-- all name the session of the claims -/
  session : ∀ e ∈ items, e.claims.sessionId = claims.sessionId ∧
    e.claims.sessionPublicKey = claims.sessionPublicKey
  /-- the items last at least as long -/
  lasts : ∀ e ∈ items, JsNum.le claims.notAfter e.claims.notAfter = true

/-- Some valid item has neither a format nor an attester key of the given ones. -/
def ExistsOutside (X : Externals) (evidences : List (Option Evidence)) (policy : AppraisalPolicy)
    (verifiers : Option QuoteVerifierRegistry) (F : Finset String) (K : Finset Bytes) : Prop :=
  ∃ e, some e ∈ evidences ∧ X.Appraised policy verifiers e ∧ e.claims.format ∉ F ∧
    e.attesterPublicKey ∉ K

/-- The independent items of a quorum, by the theorem on items with two labels. -/
theorem Quorum.exists_independent_iff {k : ℕ} {valid : List Evidence}
    (q : Quorum X evidences policy verifiers k claims valid) (n : ℕ) :
    (∃ items, items.length = n ∧
      IndependentAttestations X evidences policy verifiers claims items) ↔
    ∀ F K, F.card + K.card < n → ExistsOutside X evidences policy verifiers F K := by
  have hlabels := exists_pairwise_iff (L := valid) (n := n) (f := fun e => e.claims.format)
    (g := fun e => e.attesterPublicKey)
  constructor
  · rintro ⟨items, hlen, hitems⟩ F K hlt
    have hmem : ∀ e ∈ items, e ∈ valid := fun e he =>
      (q.mem e).mpr ⟨hitems.mem e he, hitems.valid e he⟩
    obtain ⟨e, he, hF, hK⟩ := hlabels.mp ⟨items, hlen, hmem, hitems.independent⟩ F K hlt
    exact ⟨e, ((q.mem e).mp he).1, ((q.mem e).mp he).2, hF, hK⟩
  · intro h
    obtain ⟨items, hlen, hmem, hpair⟩ := hlabels.mpr fun F K hlt => by
      obtain ⟨e, he, hvalid, hF, hK⟩ := h F K hlt
      exact ⟨e, (q.mem e).mpr ⟨he, hvalid⟩, hF, hK⟩
    exact ⟨items, hlen, fun e he => ((q.mem e).mp (hmem e he)).1,
      fun e he => ((q.mem e).mp (hmem e he)).2, hpair, fun e he => q.session e (hmem e he),
      fun e he => q.lasts e (hmem e he)⟩

/-- **At most two attestations.** A quorum of one or two passes: formats alone, and keys alone,
are enough to leave one item out. -/
theorem Quorum.existsOutside_of_le_two {k : ℕ} {valid : List Evidence}
    (hhex : Function.Injective X.bytesToHex)
    (q : Quorum X evidences policy verifiers k claims valid) (hk : k ≤ 2) (F : Finset String)
    (K : Finset Bytes) (hlt : F.card + K.card < k) :
    ExistsOutside X evidences policy verifiers F K := by
  have hformat : F.card < k → ∃ e ∈ valid, e.claims.format ∉ F := by
    intro hF
    obtain ⟨f, hf, hnot⟩ := Finset.exists_mem_notMem_of_card_lt_card (hF.trans_le q.formats)
    obtain ⟨e, he, rfl⟩ := List.mem_map.mp (List.mem_toFinset.mp hf)
    exact ⟨e, he, hnot⟩
  have hkey : K.card < k → ∃ e ∈ valid, e.attesterPublicKey ∉ K := by
    intro hK
    rw [← Finset.card_image_of_injective K hhex] at hK
    obtain ⟨t, ht, hnot⟩ := Finset.exists_mem_notMem_of_card_lt_card (hK.trans_le q.attesters)
    obtain ⟨e, he, rfl⟩ := List.mem_map.mp (List.mem_toFinset.mp ht)
    exact ⟨e, he, fun hmem => hnot (Finset.mem_image_of_mem _ hmem)⟩
  -- one of the two sets is empty, since together they have at most one element
  rcases F.eq_empty_or_nonempty with rfl | hF
  · obtain ⟨e, he, hnot⟩ := hkey (by omega)
    exact ⟨e, ((q.mem e).mp he).1, ((q.mem e).mp he).2, Finset.notMem_empty _, hnot⟩
  · have hF := Finset.card_pos.mpr hF
    obtain rfl : K = ∅ := Finset.card_eq_zero.mp (by omega)
    obtain ⟨e, he, hnot⟩ := hformat (by omega)
    exact ⟨e, ((q.mem e).mp he).1, ((q.mem e).mp he).2, hnot, Finset.notMem_empty _⟩

/-- **Independence of an accepted quorum.** Where `appraiseNofM` accepts, the valid items have `n`
formats and `n` attester keys, name one session and last as long as the claims returned. There are
`n` of them that pairwise differ in both exactly when fewer than `n` formats and keys never account
for all, which is so for `n` up to two. -/
theorem nofm_independent_iff (X : Externals) (evidences : List (Option Evidence))
    (policy : AppraisalPolicy) (n : JsNum) (verifiers : Option QuoteVerifierRegistry)
    (result : AppraisalResult) (h : X.appraiseNofM evidences policy n verifiers = .ok result)
    (hvalid : result.valid = true) :
    ∃ (k : ℕ) (claims : AttestationClaims) (valid : List Evidence), n = k ∧
      result.claims = some claims ∧ Quorum X evidences policy verifiers k claims valid ∧
      ((∃ items, items.length = k ∧
        IndependentAttestations X evidences policy verifiers claims items) ↔
      ∀ F K, F.card + K.card < k → ExistsOutside X evidences policy verifiers F K) ∧
      (Function.Injective X.bytesToHex → k ≤ 2 → ∃ items, items.length = k ∧
        IndependentAttestations X evidences policy verifiers claims items) := by
  obtain ⟨k, claims, valid, rfl, -, hclaims, q⟩ := appraiseNofM_valid h hvalid
  exact ⟨k, claims, valid, rfl, hclaims, q, q.exists_independent_iff k, fun hhex hk =>
    (q.exists_independent_iff k).mpr (q.existsOutside_of_le_two hhex hk)⟩

end Externals

/-! ## Two quorums -/

/-- Evidence that the attester with this key has signed. -/
def signedEvidence (format : String) (key : Bytes) : Evidence :=
  let claims : AttestationClaims := ⟨format, "session", "aa", "nonce", ((10 : ℕ) : JsNum), none⟩
  ⟨claims, format, key,
    key ++ valueOr [] (symbolicExternals.attestSigningMessage "PS-5" claims), "PS-5"⟩

/-- A policy that trusts three attesters. -/
def starPolicy : AppraisalPolicy :=
  ⟨"nonce", 1, [[1], [2], [3]], ["software-dev", "tdx", "sev-snp"], none, none, none⟩

/-- Adapters that accept the quotes of two hardware formats. -/
def starRegistry : QuoteVerifierRegistry :=
  ((⟨[]⟩ : QuoteVerifierRegistry).register ⟨"tdx", fun _ _ => .ok ⟨true, []⟩⟩).register
    ⟨"sev-snp", fun _ _ => .ok ⟨true, []⟩⟩

/-- Two attesters, each with a format of its own. -/
def pairEvidence : List (Option Evidence) :=
  [some (signedEvidence "software-dev" [1]), some (signedEvidence "tdx" [2])]

/-- Three attesters with one format, and the first of them with two formats more. -/
def starEvidence : List (Option Evidence) :=
  [some (signedEvidence "software-dev" [1]), some (signedEvidence "software-dev" [2]),
    some (signedEvidence "software-dev" [3]), some (signedEvidence "tdx" [1]),
    some (signedEvidence "sev-snp" [1])]

theorem exists_valid {m : Except JsError AppraisalResult}
    (h : m.toOption.map (·.valid) = some true) : ∃ r, m = .ok r ∧ r.valid = true := by
  cases m with
  | error e => cases h
  | ok r => exact ⟨r, rfl, Option.some.inj h⟩

/-- The two attesters are a quorum of two, which rests on independent items. -/
theorem nofm_independent_pair : ∃ result claims,
    symbolicExternals.appraiseNofM pairEvidence starPolicy ((2 : ℕ) : JsNum) (some starRegistry) =
      .ok result ∧ result.valid = true ∧ result.claims = some claims ∧
    ∃ items, items.length = 2 ∧ Externals.IndependentAttestations symbolicExternals.toExternals
      pairEvidence starPolicy (some starRegistry) claims items := by
  obtain ⟨result, hrun, hvalid⟩ := exists_valid (m := symbolicExternals.appraiseNofM pairEvidence
    starPolicy ((2 : ℕ) : JsNum) (some starRegistry)) (by decide +kernel)
  obtain ⟨k, claims, valid, hk, hclaims, -, -, hpair⟩ :=
    Externals.nofm_independent_iff _ _ _ _ _ _ hrun hvalid
  obtain rfl := JsNum.natCast_injective hk
  exact ⟨result, claims, hrun, hvalid, hclaims, hpair hexText_injective (Nat.le_refl 2)⟩

/-- The five items are accepted as a quorum of three, but no three of them are independent: each
has the common format or the key of the first attester. -/
theorem star_quorum_not_independent : ∃ result claims,
    symbolicExternals.appraiseNofM starEvidence starPolicy ((3 : ℕ) : JsNum) (some starRegistry) =
      .ok result ∧ result.valid = true ∧ result.claims = some claims ∧
    ¬ ∃ items, items.length = 3 ∧ Externals.IndependentAttestations symbolicExternals.toExternals
      starEvidence starPolicy (some starRegistry) claims items := by
  obtain ⟨result, hrun, hvalid⟩ := exists_valid (m := symbolicExternals.appraiseNofM starEvidence
    starPolicy ((3 : ℕ) : JsNum) (some starRegistry)) (by decide +kernel)
  obtain ⟨k, claims, valid, -, -, hclaims, q⟩ := Externals.appraiseNofM_valid hrun hvalid
  refine ⟨result, claims, hrun, hvalid, hclaims, fun hitems => ?_⟩
  obtain ⟨e, he, -, hformat, hkey⟩ :=
    (q.exists_independent_iff 3).mp hitems {"software-dev"} {[1]} (by decide)
  have hlabel : ∀ e : Evidence, some e ∈ starEvidence →
      e.claims.format = "software-dev" ∨ e.attesterPublicKey = [1] := by
    simp [starEvidence, signedEvidence]
  rcases hlabel e he with h | h
  · exact hformat (Finset.mem_singleton.mpr h)
  · exact hkey (Finset.mem_singleton.mpr h)

end Nerion
