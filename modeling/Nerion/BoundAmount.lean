import Nerion.MerkleSound
import Nerion.Permit
import Nerion.PolicyProof
import Nerion.Symbolic

/-!
# Amounts bound to intents (`disclosure/src/commitbind.ts`, `disclosure/src/policyproof.ts`)

The issuer commits to the amount of an intent and binds the commitment to the intent by a digest
that leaves the amount out. Who holds the opening can check that the commitment is to the amount;
who only has the rest of the intent can recompute the digest, and check a proof that the committed
amount is within the bounds of a policy.

* `below_of_forks` — an accepted range proof about a commitment with a known opening bounds it, or
  the answers to second challenges give a relation between the generators;
* `bound_amount_complete` — what the issuer makes is accepted;
* `bound_amount_within` — the amount that was decided on is within the bounds that a proof for the
  rest of the intent was accepted with.
-/

namespace Nerion

/-! ## Binding -/

/-- `new CommitBindError(m)`. -/
def commitBindError (m : String) : JsError := ⟨"CommitBindError", m⟩

def intentAmount (intent : ActionIntent) : Except JsError ℤ :=
  match intent.amount with
  | none => .error (commitBindError "intent carries no amount to bind")
  | some a =>
    if !a.isSafeInteger || JsNum.lt a 0 then
      .error (commitBindError "intent.amount must be a non-negative safe integer")
    else .ok a.toInt

/-- The intent without its amount. -/
def ActionIntent.skeleton (intent : ActionIntent) : ActionIntent := { intent with amount := none }

/-- What the digest is taken of. -/
def bindingCbor (salt : Bytes) (skeleton : Cbor) (commitment : Bytes) : Cbor :=
  .map [("domain", .text "PolarSeek/disclosure/commit-bind/v2"), ("salt", .bytes salt),
    ("intent", skeleton), ("commitment", .bytes commitment)]

structure BoundAmount (P : Type) where
  commitment : P
  /-- its blinding -/
  opening : ℤ
  /-- the digest that binds it -/
  digest : Bytes

/-- `BigInt.prototype.toString(16)`. -/
def bigintHex (z : ℤ) : String :=
  (if z < 0 then "-" else "") ++ String.ofList (Nat.toDigits 16 z.natAbs)

namespace ZkGroup

open PedersenGroup

variable {P : Type} [AddCommGroup P] (Z : ZkGroup P) (X : Externals)

def boundIntentDigest (intent : ActionIntent) (commitment : P) (salt : Bytes) :
    Except JsError Bytes :=
  (X.encodeCanonical (bindingCbor salt intent.skeleton.toCbor (Z.toBytes commitment))).map X.digest

def verifyBoundCommitment (intent : ActionIntent) (commitment : P) (digest salt : Bytes) :
    Except JsError Bool :=
  (Z.boundIntentDigest X intent commitment salt).map (constantTimeEqual · digest)

def verifyBoundAmount (intent : ActionIntent) (commitment : P) (opening : ℤ)
    (digest salt : Bytes) : Except JsError Bool := do
  let bound ← Z.verifyBoundCommitment X intent commitment digest salt
  if !bound then .ok false
  else do
    let amount ← intentAmount intent
    .ok (constantTimeEqual (Z.toBytes (Z.commit amount opening)) (Z.toBytes commitment))

/-- `bindAmountCommitment`, with the blinding that `commitAmount` draws. -/
def bindAmountCommitment (intent : ActionIntent) (salt : Bytes) (opening : ℤ) :
    Except JsError (BoundAmount P) := do
  let amount ← intentAmount intent
  let digest ← Z.boundIntentDigest X intent (Z.commit amount opening) salt
  .ok ⟨Z.commit amount opening, opening, digest⟩

/-- `sub` in `serializeRangeProof`. -/
def serializeSub (s : SubProof P) : Cbor :=
  let point (p : P) : Cbor := .text (X.bytesToHex (Z.toBytes p))
  .map [("commitments", .array (s.commitments.map point)),
    ("bits", .array (s.bits.map fun b =>
      .map [("t0", point b.t0), ("t1", point b.t1), ("c0", .text (bigintHex b.c0)),
        ("c1", .text (bigintHex b.c1)), ("s0", .text (bigintHex b.s0)),
        ("s1", .text (bigintHex b.s1))]))]

def serializeRangeProof (p : RangeProof P) : Cbor :=
  .map [("n", .num p.n), ("amount", Z.serializeSub X p.amount), ("diff", Z.serializeSub X p.diff)]

/-- What `policyProofDigest` hashes. -/
def policyProofCbor (commitment : P) (bounds : PolicyBounds) (proof : PolicySatisfactionProof P)
    (policyBinding : String) : Cbor :=
  .array [.text "polarseek-psp-v1", .text policyBinding,
    .text (X.bytesToHex (Z.toBytes commitment)), .num proof.n,
    .text (toString bounds.perActionCeiling),
    .text ((bounds.aggregateCap.map toString).getD "none"),
    .text ((bounds.aggregate.map toString).getD "none"), .num (bounds.n.getD 32),
    Z.serializeRangeProof X proof.ceiling,
    (proof.aggregate.map (Z.serializeRangeProof X)).getD (.text "none")]

def policyProofDigest (commitment : P) (bounds : PolicyBounds) (proof : PolicySatisfactionProof P)
    (policyBinding : String) : Except JsError String :=
  (X.encodeCanonical (Z.policyProofCbor X commitment bounds proof policyBinding)).map fun bytes =>
    X.bytesToHex (X.digest bytes)

/-! ## Range proofs -/

variable {Z X}

section Verify

variable [DecidableEq P]

/-- What the answers to second challenges give against a known opening: one of two relations. -/
def BreaksBelow (Z : ZkGroup P) (value opening threshold : ℤ)
    (amount diff : List (BitProof P × BitProof P)) : Prop :=
  Z.Relation Z.G Z.H (value - (Z.extractBits 0 amount).1) (opening - (Z.extractBits 0 amount).2) ∨
    Z.Relation Z.G Z.H (threshold - 1 - value - (Z.extractBits 0 diff).1)
      (-opening - (Z.extractBits 0 diff).2)

/-- **A bound on a known number.** An accepted range proof about a commitment to it, with answers to
second challenges, shows that it is below the threshold, or gives a relation. -/
theorem below_of_forks {value opening threshold : ℤ} {proof : RangeProof P} {n : JsNum}
    (h : Z.verifyBelow (Z.commit value opening) threshold proof n = true)
    (hvalue : 0 ≤ value ∧ value < Z.order) {amount diff : List (BitProof P × BitProof P)}
    (hamount : List.Forall₂ (fun ci fork => Z.Forked ci fork.1 fork.2) proof.amount.commitments
      amount)
    (hdiff : List.Forall₂ (fun ci fork => Z.Forked ci fork.1 fork.2) proof.diff.commitments diff) :
    Z.BreaksBelow value opening threshold amount diff ∨ value < threshold := by
  obtain ⟨st, ⟨-, hst, -, hbits, hbits'⟩, hcombine, hcombine'⟩ := verifyBelow_statement h
  rw [← hbits] at hamount
  rw [← hbits'] at hdiff
  have hthreshold : 1 ≤ threshold ∧ threshold ≤ 2 ^ st.n :=
    hst ▸ ⟨st.threshold_pos, st.threshold_le⟩
  obtain ⟨⟨ha0, ha1⟩, hopen⟩ := Z.extractBits_spec hamount 0 0
  obtain ⟨⟨hd0, hd1⟩, hopen'⟩ := Z.extractBits_spec hdiff 0 0
  rw [hcombine, zero_add, commit_eq] at hopen
  rw [hcombine', zero_add, commit_eq] at hopen'
  rw [pow_zero, one_mul, st.amount_length] at ha1
  rw [pow_zero, one_mul, st.diff_length] at hd1
  have hother : (threshold - 1 - value) • Z.G + (-opening) • Z.H =
      (Z.extractBits 0 diff).1 • Z.G + (Z.extractBits 0 diff).2 • Z.H := by
    rw [← hopen', sub_smul, neg_smul]
    abel
  rcases Z.relation_or_modEq hopen with hrel | ⟨hmod, -⟩
  · exact .inl (.inl hrel)
  rcases Z.relation_or_modEq hother with hrel | ⟨hmod', -⟩
  · exact .inl (.inr hrel)
  right
  -- neither wraps around the order, so that the numbers themselves agree
  have hpow : (2 : ℤ) ^ st.n ≤ 2 ^ 251 := pow_le_pow_right₀ one_le_two st.n_le
  have hlarge : (2 : ℤ) ^ 252 < Z.order := by exact_mod_cast Z.large
  have htwo : (2 : ℤ) ^ 252 = 2 * 2 ^ 251 := by norm_num
  have hfirst : value - (Z.extractBits 0 amount).1 = 0 := by
    refine Int.eq_zero_of_abs_lt_dvd hmod.symm.dvd ?_
    rw [abs_lt]
    constructor <;> linarith
  have hsecond : threshold - 1 - value - (Z.extractBits 0 diff).1 = 0 := by
    refine Int.eq_zero_of_abs_lt_dvd hmod'.symm.dvd ?_
    rw [abs_lt]
    constructor <;> linarith
  omega

end Verify

end ZkGroup

/-! ## Amounts and bounds as texts -/

/-- Reads the text of a bound. -/
def readBound : List Char → Option ℤ
  | 'n' :: _ => none
  | '-' :: digits => some (-Nat.ofDigitChars 10 digits 0)
  | digits => some (Nat.ofDigitChars 10 digits 0)

theorem readBound_digits {ds : List Char} (hds : ∀ c ∈ ds, c.isDigit = true) :
    readBound ds = some (Nat.ofDigitChars 10 ds 0 : ℤ) := by
  fun_cases readBound ds with
  | case1 => exact absurd (hds 'n' List.mem_cons_self) (by decide)
  | case2 => exact absurd (hds '-' List.mem_cons_self) (by decide)
  | case3 => rfl

theorem readBound_repr (n : ℕ) : readBound n.repr.toList = some (n : ℤ) := by
  rw [Nat.toList_repr, readBound_digits, Nat.ofDigitChars_ten_toDigits]
  exact fun c hc => Nat.isDigit_of_mem_toDigits (by decide) le_rfl hc

/-- The text of a bound, or of none, reads back. -/
theorem readBound_text : ∀ o : Option ℤ, readBound ((o.map toString).getD "none").toList = o
  | none => rfl
  | some (.ofNat n) => readBound_repr n
  | some (.negSucc n) => by
    have htext : (toString (Int.negSucc n)).toList = '-' :: Nat.toDigits 10 (n + 1) := by
      rw [Int.toString_eq_repr, ← Nat.toList_repr]
      exact String.toList_append
    rw [Option.map_some, Option.getD_some, htext, readBound, Nat.ofDigitChars_ten_toDigits]
    rfl

theorem boundText_injective :
    Function.Injective fun o : Option ℤ => (o.map toString).getD "none" := by
  intro o o' h
  rw [← readBound_text o, ← readBound_text o']
  exact congrArg (fun s => readBound s.toList) h

/-- The amount that is bound is a safe natural number. -/
theorem intentAmount_eq_ok {intent : ActionIntent} {amount : ℤ}
    (h : intentAmount intent = .ok amount) : 0 ≤ amount ∧ amount < 2 ^ 53 := by
  rw [intentAmount] at h
  split at h
  · cases h
  rename_i a _
  split at h
  · cases h
  rename_i hsafe
  obtain rfl := Except.ok.inj h
  simp only [Bool.or_eq_true, Bool.not_eq_true', not_or, Bool.not_eq_true,
    Bool.not_eq_false] at hsafe
  obtain ⟨n, rfl⟩ := JsNum.exists_natCast_of_isInteger
    (JsNum.isInteger_of_isSafeInteger hsafe.1) hsafe.2
  have hlt := JsNum.isSafeInteger_natCast.mp hsafe.1
  rw [JsNum.toInt_natCast]
  exact ⟨Int.natCast_nonneg n, by exact_mod_cast hlt⟩

/-! ## What the issuer shows -/

/-- What goes with the two digests of a receipt. -/
structure Linkage (P : Type) where
  intent : ActionIntent
  /-- the commitment to its amount -/
  commitment : P
  /-- the salt of the receipt -/
  salt : Bytes
  /-- the bounds of the policy -/
  bounds : PolicyBounds
  /-- the proof that they are kept -/
  proof : PolicySatisfactionProof P
  policyBinding : String

namespace ZkGroup

open PedersenGroup

variable {P : Type} [AddCommGroup P] (Z : ZkGroup P) (X : Externals)

/-- The strings that are hashed for the digests. -/
def linkageStrings (l : Linkage P) : List Bytes :=
  (X.encodeCanonical
    (bindingCbor l.salt l.intent.skeleton.toCbor (Z.toBytes l.commitment))).toOption.toList ++
  (X.encodeCanonical
    (Z.policyProofCbor X l.commitment l.bounds l.proof l.policyBinding)).toOption.toList

/-- The linkage goes with these digests. -/
structure Shows (l : Linkage P) (digest : Bytes) (psr : String) : Prop where
  /-- the commitment is bound to the intent -/
  bound : Z.verifyBoundCommitment X l.intent l.commitment digest l.salt = .ok true
  /-- the proof is bound to the policy -/
  proved : Z.policyProofDigest X l.commitment l.bounds l.proof l.policyBinding = .ok psr

/-- The encoder tells apart what is hashed. -/
structure EncodesLinkages : Prop where
  /-- bindings, part by part; an intent counts by its own encoding -/
  bindings : ∀ salt skeleton point salt' skeleton' point' b,
    X.encodeCanonical (bindingCbor salt skeleton point) = .ok b →
    X.encodeCanonical (bindingCbor salt' skeleton' point') = .ok b →
    salt = salt' ∧ X.encodeCanonical skeleton = X.encodeCanonical skeleton' ∧ point = point'
  /-- proofs with their policy, by the policy's own encoding, the digits of the bounds and the
  number of bits -/
  policies : ∀ (C : P) bounds proof binding (C' : P) bounds' proof' binding' b,
    X.encodeCanonical (Z.policyProofCbor X C bounds proof binding) = .ok b →
    X.encodeCanonical (Z.policyProofCbor X C' bounds' proof' binding') = .ok b →
    X.encodeCanonical (.text binding) = X.encodeCanonical (.text binding') ∧
    toString bounds.perActionCeiling = toString bounds'.perActionCeiling ∧
    (bounds.aggregateCap.map toString).getD "none" =
      (bounds'.aggregateCap.map toString).getD "none" ∧
    (bounds.aggregate.map toString).getD "none" = (bounds'.aggregate.map toString).getD "none" ∧
    bounds.n.getD 32 = bounds'.n.getD 32

/-- What two views have in common when they go with the same digests. -/
structure SameLinkage (l l' : Linkage P) : Prop where
  /-- the intents are the same but for their amounts -/
  intent : X.encodeCanonical l.intent.skeleton.toCbor =
    X.encodeCanonical l'.intent.skeleton.toCbor
  commitment : l.commitment = l'.commitment
  salt : l.salt = l'.salt
  /-- the policy, as it is encoded -/
  policyBinding : X.encodeCanonical (.text l.policyBinding) =
    X.encodeCanonical (.text l'.policyBinding)
  ceiling : l.bounds.perActionCeiling = l'.bounds.perActionCeiling
  /-- the running total -/
  aggregate : l.bounds.aggregate = l'.bounds.aggregate
  /-- the cap of the running total -/
  cap : l.bounds.aggregateCap = l'.bounds.aggregateCap
  /-- the number of bits -/
  bits : l.bounds.n.getD 32 = l'.bounds.n.getD 32

/-- The answers to second challenges for each bit of a proof. -/
structure PolicyForks [DecidableEq P] (proof : PolicySatisfactionProof P) where
  amount : List (BitProof P × BitProof P)
  /-- for what is left below the ceiling -/
  diff : List (BitProof P × BitProof P)
  sum : List (BitProof P × BitProof P)
  /-- for what is left below the cap -/
  sumDiff : List (BitProof P × BitProof P)
  /-- the conversations are accepted -/
  ceiling_forked :
    List.Forall₂ (fun ci fork => Z.Forked ci fork.1 fork.2) proof.ceiling.amount.commitments
      amount ∧
    List.Forall₂ (fun ci fork => Z.Forked ci fork.1 fork.2) proof.ceiling.diff.commitments diff
  /-- for the sum too, where there is a cap -/
  sum_forked : ∀ p ∈ proof.aggregate,
    List.Forall₂ (fun ci fork => Z.Forked ci fork.1 fork.2) p.amount.commitments sum ∧
    List.Forall₂ (fun ci fork => Z.Forked ci fork.1 fork.2) p.diff.commitments sumDiff

variable {Z X}

theorem verifyBoundCommitment_iff {intent : ActionIntent} {commitment : P} {digest salt : Bytes} :
    Z.verifyBoundCommitment X intent commitment digest salt = .ok true ↔
      ∃ bytes, X.encodeCanonical
          (bindingCbor salt intent.skeleton.toCbor (Z.toBytes commitment)) = .ok bytes ∧
        X.digest bytes = digest := by
  constructor
  · intro h
    obtain ⟨hash, hhash, heq⟩ := Except.map_eq_ok h
    obtain ⟨bytes, hbytes, rfl⟩ := Except.map_eq_ok hhash
    exact ⟨bytes, hbytes, constantTimeEqual_iff.mp heq⟩
  · rintro ⟨bytes, hbytes, rfl⟩
    rw [verifyBoundCommitment, boundIntentDigest, hbytes]
    exact congrArg Except.ok (constantTimeEqual_iff.mpr rfl)

theorem verifyBoundAmount_iff (hZ : Function.Injective Z.toBytes) {intent : ActionIntent}
    {commitment : P} {opening : ℤ} {digest salt : Bytes} :
    Z.verifyBoundAmount X intent commitment opening digest salt = .ok true ↔
      Z.verifyBoundCommitment X intent commitment digest salt = .ok true ∧
      ∃ amount, intentAmount intent = .ok amount ∧ commitment = Z.commit amount opening := by
  constructor
  · intro h
    obtain ⟨bound, hbound, h⟩ := Except.bind_eq_ok h
    cases bound with
    | false => cases h
    | true =>
      obtain ⟨amount, hamount, h⟩ := Except.bind_eq_ok h
      exact ⟨hbound, amount, hamount, (hZ (constantTimeEqual_iff.mp (Except.ok.inj h))).symm⟩
  · rintro ⟨hbound, amount, hamount, rfl⟩
    refine Except.bind_ok hbound (Except.bind_ok hamount ?_)
    exact congrArg Except.ok (constantTimeEqual_iff.mpr rfl)

/-- **The digests bind.** -/
theorem Shows.unique (hZ : Function.Injective Z.toBytes) (hhex : Function.Injective X.bytesToHex)
    (hencode : EncodesLinkages Z X) {l l' : Linkage P} {digest : Bytes} {psr : String}
    (h : Shows Z X l digest psr) (h' : Shows Z X l' digest psr)
    (hc : CollisionFree X.digest (linkageStrings Z X l ++ linkageStrings Z X l')) :
    SameLinkage X l l' := by
  obtain ⟨bytes, hbytes, hdigest⟩ := verifyBoundCommitment_iff.mp h.bound
  obtain ⟨bytes', hbytes', hdigest'⟩ := verifyBoundCommitment_iff.mp h'.bound
  obtain ⟨policy, hpolicy, hpsr⟩ := Except.map_eq_ok h.proved
  obtain ⟨policy', hpolicy', hpsr'⟩ := Except.map_eq_ok h'.proved
  have hmem : bytes ∈ linkageStrings Z X l ∧ policy ∈ linkageStrings Z X l := by
    simp [linkageStrings, hbytes, hpolicy, Except.toOption]
  have hmem' : bytes' ∈ linkageStrings Z X l' ∧ policy' ∈ linkageStrings Z X l' := by
    simp [linkageStrings, hbytes', hpolicy', Except.toOption]
  obtain rfl := hc _ (List.mem_append_left _ hmem.1) _ (List.mem_append_right _ hmem'.1)
    (hdigest.trans hdigest'.symm)
  obtain rfl := hc _ (List.mem_append_left _ hmem.2) _ (List.mem_append_right _ hmem'.2)
    (hhex (hpsr.trans hpsr'.symm))
  obtain ⟨hsalt, hskeleton, hpoint⟩ := hencode.bindings _ _ _ _ _ _ _ hbytes hbytes'
  obtain ⟨hbinding, hceiling, hcap, haggregate, hbits⟩ :=
    hencode.policies _ _ _ _ _ _ _ _ _ hpolicy hpolicy'
  have hceiling' := @boundText_injective (some _) (some _) hceiling
  exact ⟨hskeleton, hZ hpoint, hsalt, hbinding, Option.some.inj hceiling',
    boundText_injective haggregate, boundText_injective hcap, hbits⟩

end ZkGroup

open ZkGroup

section Linkage

variable {P : Type} [AddCommGroup P] [DecidableEq P]

/-- **What the issuer makes is accepted.** The commitment that was bound to an intent passes the
check with its opening. A proof of a policy is made exactly if the bounds allow the amount, and it
is accepted, but where the bounds have a cap without a running total: then the issuer makes a proof
of the ceiling alone, which no verifier accepts. -/
theorem bound_amount_complete (Z : ZkGroup P) (X : Externals) (hZ : Function.Injective Z.toBytes)
    {intent : ActionIntent} {salt : Bytes} {opening : ℤ} {bound : BoundAmount P}
    (h : Z.bindAmountCommitment X intent salt opening = .ok bound) :
    Z.verifyBoundAmount X intent bound.commitment bound.opening bound.digest salt = .ok true ∧
    ∃ amount, intentAmount intent = .ok amount ∧
    ∀ (coins sumCoins : ProverCoins) (bounds : PolicyBounds),
      ((∃ proof, Z.provePolicySatisfaction coins sumCoins amount bound.opening bounds = .ok proof) ↔
        bounds.Allows amount) ∧
      ∀ proof, Z.provePolicySatisfaction coins sumCoins amount bound.opening bounds = .ok proof →
        (Z.verifyPolicySatisfaction bound.commitment bounds proof = true ↔
          (bounds.aggregateCap.isSome = true → bounds.aggregate.isSome = true)) := by
  obtain ⟨amount, hamount, h⟩ := Except.bind_eq_ok h
  obtain ⟨digest, hdigest, h⟩ := Except.bind_eq_ok h
  obtain rfl := Except.ok.inj h
  refine ⟨?_, amount, hamount, fun coins sumCoins bounds => ⟨?_, fun proof hproof => ?_⟩⟩
  · obtain ⟨bytes, hbytes, rfl⟩ := Except.map_eq_ok hdigest
    exact (verifyBoundAmount_iff hZ).mpr
      ⟨verifyBoundCommitment_iff.mpr ⟨bytes, hbytes, rfl⟩, amount, hamount, rfl⟩
  · exact exists_provePolicySatisfaction coins sumCoins opening
  · exact verifyPolicySatisfaction_prove hproof

/-- Five are paid. -/
def fiveIntent : ActionIntent := ⟨⟨"pay", "acct", none, some 5⟩, none⟩

/-- `bound_amount_complete` for five: three were paid before, and the cap of eight is met. -/
theorem bound_amount_complete_five :
    let digest := cborCode (bindingCbor [1] fiveIntent.skeleton.toCbor
      (scalarGroup.toBytes (scalarGroup.commit 5 7)))
    scalarGroup.verifyBoundAmount symbolicExternals.toExternals fiveIntent (scalarGroup.commit 5 7)
        7 digest [1] = .ok true ∧
      ∀ coins sumCoins, ∃ proof,
        scalarGroup.provePolicySatisfaction coins sumCoins 5 7 fiveBounds = .ok proof ∧
        scalarGroup.verifyPolicySatisfaction (scalarGroup.commit 5 7) fiveBounds proof = true := by
  intro digest
  have hfive : intentAmount fiveIntent = .ok 5 := by decide +kernel
  have hbound : scalarGroup.bindAmountCommitment symbolicExternals.toExternals fiveIntent [1] 7 =
      .ok ⟨scalarGroup.commit 5 7, 7, digest⟩ := Except.bind_ok hfive rfl
  obtain ⟨hverify, amount, hamount, hproofs⟩ := bound_amount_complete scalarGroup
    symbolicExternals.toExternals scalarGroup_encodes.2 hbound
  obtain rfl : 5 = amount := Except.ok.inj (hfive.symm.trans hamount)
  refine ⟨hverify, fun coins sumCoins => ?_⟩
  obtain ⟨hmade, haccepted⟩ := hproofs coins sumCoins fiveBounds
  obtain ⟨proof, hproof⟩ := hmade.mpr fiveBounds_allows
  exact ⟨proof, hproof, (haccepted proof hproof).mpr fun _ => rfl⟩

/-- **The amount that was decided on is within the bounds.** An auditor with the opening has checked
what is issued; a verifier who does not know the amount has accepted what goes with the same two
digests. Then both have seen the same intent, commitment and bounds, and the amount of the audited
intent is within the bounds, or the answers to second challenges give a relation between the
generators. -/
theorem bound_amount_within (Z : ZkGroup P) (X : Externals) (hZ : Function.Injective Z.toBytes)
    (hhex : Function.Injective X.bytesToHex) (hencode : EncodesLinkages Z X)
    {issued shown : Linkage P} {digest : Bytes} {psr : String} {opening : ℤ}
    (hissued : Shows Z X issued digest psr)
    (hopening : Z.verifyBoundAmount X issued.intent issued.commitment opening digest issued.salt =
      .ok true)
    (hshown : Shows Z X shown digest psr)
    (hc : CollisionFree X.digest (linkageStrings Z X issued ++ linkageStrings Z X shown))
    (haccept : Z.verifyPolicySatisfaction shown.commitment shown.bounds shown.proof = true)
    (forks : PolicyForks Z shown.proof) :
    SameLinkage X issued shown ∧ ∃ amount, intentAmount issued.intent = .ok amount ∧
      (Z.BreaksBelow amount opening (issued.bounds.perActionCeiling + 1) forks.amount forks.diff ∨
        amount ≤ issued.bounds.perActionCeiling) ∧
      ∀ aggregate ∈ issued.bounds.aggregate, ∀ cap ∈ issued.bounds.aggregateCap,
        0 ≤ aggregate → amount + aggregate < Z.order →
        Z.BreaksBelow (amount + aggregate) opening (cap + 1) forks.sum forks.sumDiff ∨
          amount + aggregate ≤ cap := by
  have hsame := hissued.unique hZ hhex hencode hshown hc
  obtain ⟨-, amount, hamount, hcommitment⟩ := (verifyBoundAmount_iff hZ).mp hopening
  obtain ⟨h0, hlt⟩ := intentAmount_eq_ok hamount
  obtain ⟨hceiling, hsum⟩ := verifyPolicySatisfaction_eq_true haccept
  rw [← hsame.commitment, hcommitment] at hceiling hsum
  rw [← hsame.ceiling] at hceiling
  rw [← hsame.aggregate, ← hsame.cap] at hsum
  refine ⟨hsame, amount, hamount, ?_, fun aggregate haggregate cap hcap hagg horder => ?_⟩
  · have hlarge : (2 : ℤ) ^ 252 < Z.order := by exact_mod_cast Z.large
    have hpow : (2 : ℤ) ^ 53 ≤ 2 ^ 252 := by norm_num
    exact (below_of_forks hceiling ⟨h0, hlt.trans (hpow.trans_lt hlarge)⟩ forks.ceiling_forked.1
      forks.ceiling_forked.2).imp_right Int.lt_add_one_iff.mp
  · obtain ⟨sum, hmem, hbelow⟩ := hsum aggregate haggregate cap hcap
    obtain ⟨hforked, hforked'⟩ := forks.sum_forked sum hmem
    rw [shiftCommitment_commit] at hbelow
    exact (below_of_forks hbelow ⟨add_nonneg h0 hagg, horder⟩ hforked hforked').imp_right
      Int.lt_add_one_iff.mp

end Linkage

/-- The bits that `proveBelow` commits to have answers to second challenges. -/
theorem exists_forks {coins : ProverCoins} {amount r threshold : ℤ} {n : JsNum}
    {proof : RangeProof (ZMod ristrettoOrder)}
    (h : scalarGroup.proveBelow coins amount r threshold n = .ok proof) :
    ∃ forks forks' : List (BitProof (ZMod ristrettoOrder) × BitProof (ZMod ristrettoOrder)),
      List.Forall₂ (fun ci fork => scalarGroup.Forked ci fork.1 fork.2)
        proof.amount.commitments forks ∧
      List.Forall₂ (fun ci fork => scalarGroup.Forked ci fork.1 fork.2)
        proof.diff.commitments forks' := by
  have hbit : ∀ (value : ℤ) (n : ℕ), ∀ b ∈ (List.range n).map fun i => value / 2 ^ i % 2,
      b = 0 ∨ b = 1 := by
    intro value n b hb
    obtain ⟨i, -, rfl⟩ := List.mem_map.mp hb
    omega
  rw [proveBelow] at h
  split at h
  · cases h
  dsimp only at h
  split at h
  · cases h
  split at h
  · cases h
  split at h
  · cases h
  obtain rfl := Except.ok.inj h
  exact ⟨_, _, forked_bits (hbit _ _), forked_bits (hbit _ _)⟩

/-- The payment of five as it is issued, or without its amount. -/
def fiveLinkage (amount : Option JsNum) (proof : PolicySatisfactionProof (ZMod ristrettoOrder)) :
    Linkage (ZMod ristrettoOrder) where
  intent := ⟨⟨"pay", "acct", none, amount⟩, none⟩
  commitment := scalarGroup.commit 5 7
  salt := [1]
  bounds := fiveBounds
  proof := proof
  policyBinding := "policy"

theorem symbolic_encodesLinkages : EncodesLinkages scalarGroup symbolicExternals.toExternals := by
  constructor
  · intro salt skeleton point salt' skeleton' point' b h h'
    have heq := cborCode_injective (Except.ok.inj (h.trans h'.symm))
    simp only [bindingCbor, Cbor.map.injEq, List.cons.injEq, Prod.mk.injEq, Cbor.bytes.injEq,
      true_and, and_true] at heq
    exact ⟨heq.1, congrArg _ heq.2.1, heq.2.2⟩
  · intro _ _ _ _ _ _ _ _ b h h'
    have heq := cborCode_injective (Except.ok.inj (h.trans h'.symm))
    simp only [policyProofCbor, Cbor.array.injEq, List.cons.injEq, Cbor.text.injEq, Cbor.num.injEq,
      true_and] at heq
    obtain ⟨hbinding, -, -, hceiling, hcap, haggregate, hbits, -⟩ := heq
    exact ⟨congrArg _ (congrArg _ hbinding), hceiling, hcap, haggregate, hbits⟩

/-- `bound_amount_within` for five: the verifier has the intent without its amount. -/
theorem bound_amount_within_five :
    ∃ (proof : PolicySatisfactionProof (ZMod ristrettoOrder))
      (forks : PolicyForks scalarGroup proof),
      SameLinkage symbolicExternals.toExternals (fiveLinkage (some 5) proof)
        (fiveLinkage none proof) ∧
      (scalarGroup.BreaksBelow 5 7 (10 + 1) forks.amount forks.diff ∨ (5 : ℤ) ≤ 10) ∧
      (scalarGroup.BreaksBelow (5 + 3) 7 (8 + 1) forks.sum forks.sumDiff ∨ (5 : ℤ) + 3 ≤ 8) := by
  obtain ⟨proof, hproof⟩ := (exists_provePolicySatisfaction (Z := scalarGroup) idleCoins idleCoins
    7).mpr fiveBounds_allows
  have haccept := (verifyPolicySatisfaction_prove hproof).mpr fun _ => rfl
  obtain ⟨-, hceiling, ⟨_, _, sum, ⟨⟩, ⟨⟩, hsome, hsum⟩ | ⟨⟨⟨⟩⟩ | ⟨⟨⟩⟩, -⟩⟩ :=
    provePolicySatisfaction_eq_ok hproof
  obtain ⟨amount, diff, hforked⟩ := exists_forks hceiling
  obtain ⟨sumAmount, sumDiff, hforked'⟩ := exists_forks hsum
  let forks : PolicyForks scalarGroup proof := ⟨amount, diff, sumAmount, sumDiff, hforked, by
    rintro _ hmem
    cases hsome.symm.trans hmem
    exact hforked'⟩
  have hfive : intentAmount fiveIntent = .ok 5 := by decide +kernel
  have hbound : ∀ a, scalarGroup.verifyBoundCommitment symbolicExternals.toExternals
      (fiveLinkage a proof).intent (scalarGroup.commit 5 7)
      (cborCode (bindingCbor [1] fiveIntent.skeleton.toCbor
        (scalarGroup.toBytes (scalarGroup.commit 5 7)))) [1] = .ok true :=
    fun a => verifyBoundCommitment_iff.mpr ⟨_, rfl, rfl⟩
  have hshows : ∀ a, Shows scalarGroup symbolicExternals.toExternals (fiveLinkage a proof) _ _ :=
    fun a => ⟨hbound a, rfl⟩
  obtain ⟨hsame, amount, hamount, hwithin, hcap⟩ := bound_amount_within scalarGroup
    symbolicExternals.toExternals scalarGroup_encodes.2 hexText_injective symbolic_encodesLinkages
    (hshows (some 5)) ((verifyBoundAmount_iff scalarGroup_encodes.2).mpr
      ⟨hbound (some 5), 5, hfive, rfl⟩) (hshows none) (fun _ _ _ _ h => h) haccept forks
  obtain rfl : 5 = amount := Except.ok.inj (hfive.symm.trans hamount)
  exact ⟨proof, forks, hsame, hwithin, hcap 3 rfl 8 rfl (by decide) (by decide)⟩

end Nerion
