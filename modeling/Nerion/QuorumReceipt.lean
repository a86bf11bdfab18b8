import Nerion.Symbolic
import Nerion.FirstValid

/-!
# Quorum receipts (`receipts/src/quorum.ts`)

A receipt that several validators attest to. Its body names the set of validators, the threshold
and the epoch it was issued under; the verifier computes the id of the set it trusts, and counts
the distinct members with a valid attestation, or their stake.

* `attesting` — the members that count;
* `quorum_receipt_exact` — both verdicts are decided by those members alone, whatever the order
  of the attestations and whatever else is among them.
-/

namespace Nerion

/-! ## Receipts -/

structure ReceiptCommitments where
  intent : String
  capability : String
  policy : String
  /-- to the replay input -/
  inputHash : String
  decisionHash : String

/-- `ReceiptBody`; `v` is always 1. -/
structure ReceiptBody where
  suite : String
  evaluatorVersion : String
  effect : String
  /-- the risk tier -/
  tier : JsNum
  jurisdiction : String
  /-- the time -/
  timestamp : JsNum
  commitments : ReceiptCommitments

structure QuorumAttestation where
  /-- hex public key of the validator -/
  validator : String
  /-- the suite of the signature -/
  suite : String
  /-- the signature -/
  sig : Bytes

structure QuorumBinding where
  setId : String
  /-- the threshold -/
  k : JsNum
  epoch : JsNum
  suite : String

structure QuorumReceiptBody where
  receipt : ReceiptBody
  /-- what it is bound to -/
  quorum : QuorumBinding

structure QuorumReceipt where
  body : QuorumReceiptBody
  attestations : List QuorumAttestation

/-- The threshold of a verdict, a number or a bigint. -/
inductive QuorumThreshold where
  /-- a number of members -/
  | count (k : JsNum)
  /-- an amount of stake -/
  | stake (amount : ℤ)
  deriving DecidableEq

structure QuorumVerdict where
  /-- whether the receipt is accepted -/
  ok : Bool
  /-- distinct members with a valid attestation -/
  distinctValid : ℕ
  threshold : QuorumThreshold
  /-- why it is not accepted -/
  reasons : List String
  deriving DecidableEq

/-- The commitments as the encoder sees them. -/
def ReceiptCommitments.toCbor (c : ReceiptCommitments) : Cbor :=
  .map [("intent", .text c.intent), ("capability", .text c.capability), ("policy", .text c.policy),
    ("inputHash", .text c.inputHash), ("decisionHash", .text c.decisionHash)]

/-- The receipt as the encoder sees it. -/
def ReceiptBody.toCbor (b : ReceiptBody) : Cbor :=
  .map [("v", .num 1), ("suite", .text b.suite), ("evaluatorVersion", .text b.evaluatorVersion),
    ("effect", .text b.effect), ("tier", .num b.tier), ("jurisdiction", .text b.jurisdiction),
    ("timestamp", .num b.timestamp), ("commitments", b.commitments.toCbor)]

/-- The body as the encoder sees it. -/
def QuorumReceiptBody.toCbor (b : QuorumReceiptBody) : Cbor :=
  .map [("receipt", b.receipt.toCbor),
    ("quorum", .map [("setId", .text b.quorum.setId), ("k", .num b.quorum.k),
      ("epoch", .num b.quorum.epoch), ("suite", .text b.quorum.suite)])]

section Model

variable (X : Externals)

def quorumSetId (set : ValidatorSet) (k epoch : JsNum) : Except JsError String := do
  let sorted := (sortedByPubkey set.validators).map fun v =>
    Cbor.array [.text v.pubkey, .num v.stake]
  let bytes ← X.encodeCanonical
    (.array [.text "polarseek-quorum-receipt-v1", .array sorted, .num k, .num epoch])
  .ok (X.bytesToHex (X.digest bytes))

/-- The message that is signed: the body under the context of quorum receipts. -/
def quorumMessage (body : QuorumReceiptBody) : Except JsError Bytes :=
  X.encodeCanonical (.array [.text "polarseek-quorum-receipt-v1", body.toCbor])

/-- The attestation of one signer, a key pair and the randomness of its signature. -/
def quorumAttest (signer : SignatureScheme) (suite : String) (msg : Bytes)
    (key : Bytes × Bytes × Bytes) : Except JsError QuorumAttestation := do
  let sig ← signer.sign msg key.2.1 key.2.2
  .ok ⟨X.bytesToHex key.1, suite, sig⟩

def buildQuorumReceipt (receipt : ReceiptBody) (set : ValidatorSet) (k epoch : JsNum)
    (signers : List (Bytes × Bytes × Bytes)) (suite : String) : Except JsError QuorumReceipt := do
  let setId ← quorumSetId X set k epoch
  let body : QuorumReceiptBody := ⟨receipt, ⟨setId, k, epoch, suite⟩⟩
  let msg ← quorumMessage X body
  let signer ← X.signerFor suite
  let attestations ← signers.mapM (quorumAttest X signer suite msg)
  .ok ⟨body, attestations⟩

/-- The verification of an attestation; what it throws counts as not valid. -/
def attestationVerifies (msg : Bytes) (a : QuorumAttestation) : Bool :=
  let check : Except JsError Bool := do
    let signer ← X.signerFor a.suite
    let key ← X.hexToBytes a.validator
    signer.verify a.sig msg key
  match check with
  | .ok valid => valid
  | .error _ => false

/-- `countDistinctValid`: the validators for which `onValid` is called, in order. -/
def countDistinctValid (receipt : QuorumReceipt) (isMember : String → Bool) :
    Except JsError (List String) := do
  let msg ← quorumMessage X receipt.body
  .ok ((firstValid (·.validator) (fun a => decide (a.suite = receipt.body.quorum.suite) &&
    isMember a.validator && attestationVerifies X msg a) [] receipt.attestations).map (·.validator))

/-- The bound on the attestations, then the count: a reason and the validators counted. -/
def boundedCount (receipt : QuorumReceipt) (set : ValidatorSet) (isMember : String → Bool) :
    Except JsError (List String × List String) :=
  if maxAttestations set < receipt.attestations.length then
    .ok (["attestation count " ++ toString receipt.attestations.length ++ " exceeds bound " ++
      toString (maxAttestations set)], [])
  else do
    let counted ← countDistinctValid X receipt isMember
    .ok ([], counted)

/-- The reasons from the epoch and the id of the set. -/
def bindingReasons (q : QuorumBinding) (epoch : JsNum) (setId : String) : List String :=
  reasonIf (!JsNum.strictEq q.epoch epoch)
      ("committed epoch " ++ q.epoch.text ++ " != expected " ++ epoch.text) ++
    reasonIf (decide (q.setId ≠ setId))
      "committed validator-set id does not match the trusted set (substitution rejected)"

/-- `members.has(v)`. -/
def isMember (set : ValidatorSet) (v : String) : Bool := decide (v ∈ set.validators.map (·.pubkey))

/-- The verdict on the count, from the id of the trusted set and what `boundedCount` returns. -/
def countVerdict (q : QuorumBinding) (k epoch : JsNum) (setId : String)
    (count : List String × List String) : QuorumVerdict :=
  let distinct := count.2.length
  let reasons := reasonIf (!k.isInteger || JsNum.lt k 1) "threshold k must be a positive integer" ++
    reasonIf (!JsNum.strictEq q.k k)
      ("committed threshold " ++ q.k.text ++ " != expected " ++ k.text) ++
    bindingReasons q epoch setId ++ count.1 ++
    reasonIf (JsNum.lt (distinct : JsNum) k)
      ("only " ++ toString distinct ++ " distinct valid attestation(s); need " ++ k.text)
  ⟨reasons.isEmpty, distinct, .count k, reasons⟩

def verifyQuorumReceipt (receipt : QuorumReceipt) (set : ValidatorSet) (k epoch : JsNum) :
    Except JsError QuorumVerdict := do
  let setId ← quorumSetId X set k epoch
  let count ← boundedCount X receipt set (isMember set)
  .ok (countVerdict receipt.body.quorum k epoch setId count)

/-- `stakeOf.get(v)`: the last entry of a key. -/
def stakeEntry (set : ValidatorSet) (v : String) : Option ℤ :=
  (set.validators.reverse.find? fun w => decide (w.pubkey = v)).map (·.stake)

/-- The stake that the validators counted add up to. -/
def countedStake (set : ValidatorSet) (counted : List String) : ℤ :=
  (counted.map fun v => safeStake ((stakeEntry set v).getD 0)).sum

/-- The verdict on the stake. -/
def stakeVerdict (set : ValidatorSet) (q : QuorumBinding) (stakeThreshold : ℤ) (epoch : JsNum)
    (setId : String) (count : List String × List String) : QuorumVerdict :=
  let stake := countedStake set count.2
  let reasons :=
    reasonIf (decide (stakeThreshold ≤ 0)) "stake threshold must be a positive bigint" ++
    reasonIf (set.validators.any fun v => decide (v.stake < 0))
      "validator set has a non-bigint or negative stake (malformed)" ++
    bindingReasons q epoch setId ++ count.1 ++
    reasonIf (decide (stake < stakeThreshold))
      ("distinct valid stake " ++ toString stake ++ " < required " ++ toString stakeThreshold)
  ⟨reasons.isEmpty, count.2.length, .stake stakeThreshold, reasons⟩

def verifyQuorumReceiptByStake (receipt : QuorumReceipt) (set : ValidatorSet) (stakeThreshold : ℤ)
    (epoch : JsNum) : Except JsError QuorumVerdict := do
  let setId ← quorumSetId X set receipt.body.quorum.k epoch
  let count ← boundedCount X receipt set (fun v => (stakeEntry set v).isSome)
  .ok (stakeVerdict set receipt.body.quorum stakeThreshold epoch setId count)

end Model

/-! ## The members that count -/

/-- The verifier accepts: it returns a verdict, and the verdict is positive. -/
def QuorumAccepts (result : Except JsError QuorumVerdict) : Prop :=
  ∃ verdict, result = .ok verdict ∧ verdict.ok = true

/-- The members with an attestation that has the committed suite and verifies over `msg`. -/
def attesting (X : Externals) (receipt : QuorumReceipt) (set : ValidatorSet) (msg : Bytes) :
    List Validator :=
  set.validators.filter fun v => receipt.attestations.any fun a =>
    decide (a.validator = v.pubkey) && (decide (a.suite = receipt.body.quorum.suite) &&
      attestationVerifies X msg a)

section Counting

variable {X : Externals} {receipt : QuorumReceipt} {set : ValidatorSet} {isMem : String → Bool}
  {counted : List String} {attestations : List QuorumAttestation} {msg : Bytes}

theorem bindingReasons_eq_nil {q : QuorumBinding} {epoch : JsNum} {setId : String} :
    bindingReasons q epoch setId = [] ↔ JsNum.strictEq q.epoch epoch = true ∧ setId = q.setId := by
  rw [bindingReasons, List.append_eq_nil_iff, reasonIf_eq_nil, reasonIf_eq_nil,
    Bool.not_eq_false', decide_eq_false_iff_not, not_not, eq_comm (a := setId)]

/-- What `boundedCount` returns when it gives no reason. -/
theorem boundedCount_eq_ok :
    boundedCount X receipt set isMem = .ok ([], counted) ↔
      receipt.attestations.length ≤ maxAttestations set ∧
        countDistinctValid X receipt isMem = .ok counted := by
  rw [boundedCount]
  split
  · rename_i hgt
    simp [hgt]
  · rename_i hle
    cases countDistinctValid X receipt isMem with
    | error e => simp [Bind.bind, Except.bind]
    | ok vs => simp [Bind.bind, Except.bind, not_lt.mp hle]

theorem mem_attesting {v : Validator} : v ∈ attesting X receipt set msg ↔
    v ∈ set.validators ∧ ∃ a ∈ receipt.attestations, a.validator = v.pubkey ∧
      a.suite = receipt.body.quorum.suite ∧ attestationVerifies X msg a = true := by
  simp [attesting, List.mem_filter, List.any_eq_true]

/-- **The validators counted are the attesting members**, each once. -/
theorem countDistinctValid_perm (hnodup : (set.validators.map (·.pubkey)).Nodup)
    (hmem : ∀ v, isMem v = true ↔ v ∈ set.validators.map (·.pubkey))
    (h : countDistinctValid X receipt isMem = .ok counted) :
    ∃ msg, quorumMessage X receipt.body = .ok msg ∧
      counted.Perm ((attesting X receipt set msg).map (·.pubkey)) := by
  obtain ⟨msg, hmsg, h⟩ := Except.bind_eq_ok h
  obtain rfl := Except.ok.inj h
  refine ⟨msg, hmsg, ?_⟩
  refine (List.perm_ext_iff_of_nodup (nodup_map_firstValid _ _ _ _)
    (hnodup.sublist (List.filter_sublist.map _))).mpr fun k => ?_
  rw [mem_map_firstValid, List.mem_map]
  simp only [Bool.and_eq_true, decide_eq_true_iff, hmem, List.mem_map]
  refine ⟨?_, ?_⟩
  · rintro ⟨-, a, ha, rfl, ⟨hsuite, v, hv, hname⟩, hverifies⟩
    exact ⟨v, mem_attesting.mpr ⟨hv, a, ha, hname.symm, hsuite, hverifies⟩, hname⟩
  · rintro ⟨v, hattesting, rfl⟩
    obtain ⟨hv, a, ha, hname, hsuite, hverifies⟩ := mem_attesting.mp hattesting
    exact ⟨List.not_mem_nil, a, ha, hname, ⟨hsuite, v, hv, hname.symm⟩, hverifies⟩

theorem isMember_iff (v : String) :
    isMember set v = true ↔ v ∈ set.validators.map (·.pubkey) := decide_eq_true_iff

theorem stakeEntry_isSome (v : String) :
    (stakeEntry set v).isSome = true ↔ v ∈ set.validators.map (·.pubkey) := by
  simp [stakeEntry, List.find?_isSome]

/-- Where no key is listed twice, the entry of a member is its own. -/
theorem stakeEntry_of_mem (hnodup : (set.validators.map (·.pubkey)).Nodup) {v : Validator}
    (hv : v ∈ set.validators) : stakeEntry set v.pubkey = some v.stake := by
  have hsome := (stakeEntry_isSome v.pubkey).mpr (List.mem_map_of_mem hv)
  rw [stakeEntry, Option.isSome_map] at hsome
  obtain ⟨w, hw⟩ := Option.isSome_iff_exists.mp hsome
  have hkey : w.pubkey = v.pubkey := by simpa using List.find?_some hw
  have hmem : w ∈ set.validators := List.mem_reverse.mp (List.mem_of_find?_eq_some hw)
  rw [stakeEntry, hw, List.inj_on_of_nodup_map hnodup hmem hv hkey]
  rfl

/-- The stake counted is that of the attesting members. -/
theorem countedStake_eq (hnodup : (set.validators.map (·.pubkey)).Nodup)
    (hstakes : ∀ v ∈ set.validators, 0 ≤ v.stake)
    (h : counted.Perm ((attesting X receipt set msg).map (·.pubkey))) :
    countedStake set counted = ((attesting X receipt set msg).map (·.stake)).sum := by
  rw [countedStake, (h.map _).sum_eq, List.map_map]
  refine congrArg List.sum (List.map_congr_left fun v hv => ?_)
  have hmem := (mem_attesting.mp hv).1
  simp [stakeEntry_of_mem hnodup hmem, safeStake, hstakes v hmem]

/-! ## The verdicts -/

/-- When the count is accepted, in terms of the validators counted. -/
theorem verifyQuorumReceipt_accepts {k epoch : JsNum} :
    QuorumAccepts (verifyQuorumReceipt X receipt set k epoch) ↔
      (k.isInteger = true ∧ JsNum.le 1 k = true) ∧
      JsNum.strictEq receipt.body.quorum.k k = true ∧
      JsNum.strictEq receipt.body.quorum.epoch epoch = true ∧
      quorumSetId X set k epoch = .ok receipt.body.quorum.setId ∧
      receipt.attestations.length ≤ maxAttestations set ∧
      ∃ counted, countDistinctValid X receipt (isMember set) = .ok counted ∧
        k.toInt ≤ counted.length := by
  have hk : ∀ n : ℕ, reasonIf (!k.isInteger || JsNum.lt k 1)
      "threshold k must be a positive integer" = [] → ∀ r,
      (reasonIf (JsNum.lt (n : JsNum) k) r = [] ↔ k.toInt ≤ n) := by
    intro n h r
    rw [reasonIf_eq_nil, Bool.or_eq_false_iff, Bool.not_eq_false'] at h
    obtain ⟨j, -, rfl⟩ := JsNum.exists_natCast_of_one_le h.1 ((JsNum.one_le_iff h.1).mpr h.2)
    rw [reasonIf_eq_nil, JsNum.lt_natCast, decide_eq_false_iff_not, not_lt, JsNum.toInt_natCast,
      Nat.cast_le]
  have hint : reasonIf (!k.isInteger || JsNum.lt k 1) "threshold k must be a positive integer" =
      [] ↔ k.isInteger = true ∧ JsNum.le 1 k = true := by
    rw [reasonIf_eq_nil, Bool.or_eq_false_iff, Bool.not_eq_false']
    exact and_congr_right fun h => (JsNum.one_le_iff h).symm
  refine ⟨?_, ?_⟩
  · rintro ⟨verdict, hrun, hok⟩
    obtain ⟨setId, hset, hrun⟩ := Except.bind_eq_ok hrun
    obtain ⟨⟨boundReasons, counted⟩, hcount, hrun⟩ := Except.bind_eq_ok hrun
    obtain rfl := Except.ok.inj hrun
    simp only [countVerdict, List.isEmpty_iff, List.append_eq_nil_iff, bindingReasons_eq_nil] at hok
    obtain ⟨⟨⟨⟨hpos, hsame⟩, hepoch, rfl⟩, rfl⟩, henough⟩ := hok
    obtain ⟨hbound, hcount⟩ := boundedCount_eq_ok.mp hcount
    refine ⟨hint.mp hpos, ?_, hepoch, hset, hbound, counted, hcount, (hk _ hpos _).mp henough⟩
    simpa [reasonIf_eq_nil] using hsame
  · rintro ⟨hpos, hsame, hepoch, hset, hbound, counted, hcount, henough⟩
    have hrun := boundedCount_eq_ok.mpr ⟨hbound, hcount⟩
    refine ⟨_, Except.bind_ok hset (Except.bind_ok hrun rfl), ?_⟩
    have hreason := hint.mpr hpos
    simp only [countVerdict, List.isEmpty_iff, List.append_eq_nil_iff, bindingReasons_eq_nil]
    refine ⟨⟨⟨⟨hreason, ?_⟩, hepoch, trivial⟩, trivial⟩, (hk _ hreason _).mpr henough⟩
    rw [reasonIf_eq_nil, hsame]
    rfl

/-- When the stake is accepted, in terms of the validators counted. -/
theorem verifyQuorumReceiptByStake_accepts {stakeThreshold : ℤ} {epoch : JsNum} :
    QuorumAccepts (verifyQuorumReceiptByStake X receipt set stakeThreshold epoch) ↔
      0 < stakeThreshold ∧ (∀ v ∈ set.validators, 0 ≤ v.stake) ∧
      JsNum.strictEq receipt.body.quorum.epoch epoch = true ∧
      quorumSetId X set receipt.body.quorum.k epoch = .ok receipt.body.quorum.setId ∧
      receipt.attestations.length ≤ maxAttestations set ∧
      ∃ counted, countDistinctValid X receipt (fun v => (stakeEntry set v).isSome) = .ok counted ∧
        stakeThreshold ≤ countedStake set counted := by
  refine ⟨?_, ?_⟩
  · rintro ⟨verdict, hrun, hok⟩
    obtain ⟨setId, hset, hrun⟩ := Except.bind_eq_ok hrun
    obtain ⟨⟨boundReasons, counted⟩, hcount, hrun⟩ := Except.bind_eq_ok hrun
    obtain rfl := Except.ok.inj hrun
    simp only [stakeVerdict, List.isEmpty_iff, List.append_eq_nil_iff, bindingReasons_eq_nil,
      reasonIf_eq_nil, decide_eq_false_iff_not, not_le, not_lt, List.any_eq_false,
      decide_eq_true_iff] at hok
    obtain ⟨⟨⟨⟨hpos, hstakes⟩, hepoch, rfl⟩, rfl⟩, henough⟩ := hok
    obtain ⟨hbound, hcount⟩ := boundedCount_eq_ok.mp hcount
    exact ⟨hpos, hstakes, hepoch, hset, hbound, counted, hcount, henough⟩
  · rintro ⟨hpos, hstakes, hepoch, hset, hbound, counted, hcount, henough⟩
    have hrun := boundedCount_eq_ok.mpr ⟨hbound, hcount⟩
    refine ⟨_, Except.bind_ok hset (Except.bind_ok hrun rfl), ?_⟩
    simp only [stakeVerdict, List.isEmpty_iff, List.append_eq_nil_iff, bindingReasons_eq_nil,
      reasonIf_eq_nil, decide_eq_false_iff_not, not_le, not_lt, List.any_eq_false,
      decide_eq_true_iff]
    exact ⟨⟨⟨⟨hpos, hstakes⟩, hepoch, trivial⟩, trivial⟩, henough⟩

/-! ## Other attestations -/

/-- The receipt with other attestations. -/
def withAttestations (receipt : QuorumReceipt) (attestations : List QuorumAttestation) :
    QuorumReceipt := { receipt with attestations := attestations }

/-- The count in another order: it throws the same, or it counts the same validators. -/
theorem boundedCount_perm (h : receipt.attestations.Perm attestations) :
    (∃ e, boundedCount X receipt set isMem = .error e ∧
      boundedCount X (withAttestations receipt attestations) set isMem = .error e) ∨
    ∃ reasons counted counted', boundedCount X receipt set isMem = .ok (reasons, counted) ∧
      boundedCount X (withAttestations receipt attestations) set isMem = .ok (reasons, counted') ∧
      counted.Perm counted' := by
  have hlen : (withAttestations receipt attestations).attestations.length =
      receipt.attestations.length := h.length_eq.symm
  rw [boundedCount, boundedCount, hlen]
  split
  · exact .inr ⟨_, _, _, rfl, rfl, .rfl⟩
  · have hmsg : quorumMessage X (withAttestations receipt attestations).body =
        quorumMessage X receipt.body := rfl
    rw [countDistinctValid, countDistinctValid, hmsg]
    cases quorumMessage X receipt.body with
    | error e => exact .inl ⟨e, rfl, rfl⟩
    | ok msg => exact .inr ⟨_, _, _, rfl, rfl, map_firstValid_perm h⟩

theorem countedStake_perm {counted counted' : List String} (h : counted.Perm counted') :
    countedStake set counted = countedStake set counted' := (h.map _).sum_eq

/-- The order of the attestations makes no difference to the count. -/
theorem verifyQuorumReceipt_perm {k epoch : JsNum} (h : receipt.attestations.Perm attestations) :
    verifyQuorumReceipt X (withAttestations receipt attestations) set k epoch =
      verifyQuorumReceipt X receipt set k epoch := by
  have hbody : (withAttestations receipt attestations).body = receipt.body := rfl
  rw [verifyQuorumReceipt, verifyQuorumReceipt, hbody]
  cases quorumSetId X set k epoch with
  | error e => rfl
  | ok setId =>
    rcases @boundedCount_perm X receipt set (isMember set) _ h with
      ⟨e, he, he'⟩ | ⟨reasons, counted, counted', hc, hc', hperm⟩
    · rw [he, he']
    · rw [hc, hc']
      simp only [Bind.bind, Except.bind, countVerdict, hperm.length_eq]

/-- The order of the attestations makes no difference to the stake. -/
theorem verifyQuorumReceiptByStake_perm {stakeThreshold : ℤ} {epoch : JsNum}
    (h : receipt.attestations.Perm attestations) :
    verifyQuorumReceiptByStake X (withAttestations receipt attestations) set stakeThreshold epoch =
      verifyQuorumReceiptByStake X receipt set stakeThreshold epoch := by
  have hbody : (withAttestations receipt attestations).body = receipt.body := rfl
  rw [verifyQuorumReceiptByStake, verifyQuorumReceiptByStake, hbody]
  cases quorumSetId X set receipt.body.quorum.k epoch with
  | error e => rfl
  | ok setId =>
    rcases @boundedCount_perm X receipt set (fun v => (stakeEntry set v).isSome) _ h with
      ⟨e, he, he'⟩ | ⟨reasons, counted, counted', hc, hc', hperm⟩
    · rw [he, he']
    · rw [hc, hc']
      simp only [Bind.bind, Except.bind, stakeVerdict, hperm.length_eq, countedStake_perm hperm]

/-- More attestations, at least as many attesting members. -/
theorem attesting_sublist (h : receipt.attestations ⊆ attestations) :
    (attesting X receipt set msg).Sublist
      (attesting X (withAttestations receipt attestations) set msg) := by
  refine List.monotone_filter_right _ fun v hv => ?_
  obtain ⟨a, ha, hvalid⟩ := List.any_eq_true.mp hv
  exact List.any_eq_true.mpr ⟨a, h ha, hvalid⟩

/-- `countDistinctValid` throws only with the encoder. -/
theorem exists_countDistinctValid (h : quorumMessage X receipt.body = .ok msg) :
    ∃ counted, countDistinctValid X receipt isMem = .ok counted := by
  rw [countDistinctValid, h]
  exact ⟨_, rfl⟩

end Counting

section Exact

variable {X : Externals} {receipt : QuorumReceipt} {set : ValidatorSet}
  (hnodup : (set.validators.map (·.pubkey)).Nodup)

include hnodup

/-- What is asked of the validators counted can be asked of the attesting members. -/
theorem exists_counted_iff {isMem : String → Bool}
    (hmem : ∀ v, isMem v = true ↔ v ∈ set.validators.map (·.pubkey)) {p : List String → Prop}
    {q : Bytes → Prop}
    (hpq : ∀ counted msg, counted.Perm ((attesting X receipt set msg).map (·.pubkey)) →
      (p counted ↔ q msg)) :
    (∃ counted, countDistinctValid X receipt isMem = .ok counted ∧ p counted) ↔
      ∃ msg, quorumMessage X receipt.body = .ok msg ∧ q msg := by
  constructor
  · rintro ⟨counted, hcount, hp⟩
    obtain ⟨msg, hmsg, hperm⟩ := countDistinctValid_perm hnodup hmem hcount
    exact ⟨msg, hmsg, (hpq counted msg hperm).mp hp⟩
  · rintro ⟨msg, hmsg, hq⟩
    obtain ⟨counted, hcount⟩ := @exists_countDistinctValid X receipt isMem msg hmsg
    obtain ⟨msg', hmsg', hperm⟩ := countDistinctValid_perm hnodup hmem hcount
    obtain rfl := Except.ok.inj (hmsg.symm.trans hmsg')
    exact ⟨counted, hcount, (hpq counted msg hperm).mpr hq⟩

/-- **The count is decided by the attesting members.** -/
theorem verifyQuorumReceipt_iff {k epoch : JsNum} :
    QuorumAccepts (verifyQuorumReceipt X receipt set k epoch) ↔
      (k.isInteger = true ∧ JsNum.le 1 k = true) ∧
      JsNum.strictEq receipt.body.quorum.k k = true ∧
      JsNum.strictEq receipt.body.quorum.epoch epoch = true ∧
      quorumSetId X set k epoch = .ok receipt.body.quorum.setId ∧
      receipt.attestations.length ≤ maxAttestations set ∧
      ∃ msg, quorumMessage X receipt.body = .ok msg ∧
        k.toInt ≤ (attesting X receipt set msg).length := by
  rw [verifyQuorumReceipt_accepts]
  refine and_congr_right' (and_congr_right' (and_congr_right' (and_congr_right' (and_congr_right'
    (exists_counted_iff hnodup isMember_iff fun counted msg hperm => ?_)))))
  rw [hperm.length_eq, List.length_map]

/-- **The stake is that of the attesting members.** -/
theorem verifyQuorumReceiptByStake_iff {stakeThreshold : ℤ} {epoch : JsNum} :
    QuorumAccepts (verifyQuorumReceiptByStake X receipt set stakeThreshold epoch) ↔
      0 < stakeThreshold ∧ (∀ v ∈ set.validators, 0 ≤ v.stake) ∧
      JsNum.strictEq receipt.body.quorum.epoch epoch = true ∧
      quorumSetId X set receipt.body.quorum.k epoch = .ok receipt.body.quorum.setId ∧
      receipt.attestations.length ≤ maxAttestations set ∧
      ∃ msg, quorumMessage X receipt.body = .ok msg ∧
        stakeThreshold ≤ ((attesting X receipt set msg).map (·.stake)).sum := by
  rw [verifyQuorumReceiptByStake_accepts]
  refine and_congr_right fun _ => and_congr_right fun hstakes => and_congr_right' (and_congr_right'
    (and_congr_right' (exists_counted_iff hnodup stakeEntry_isSome fun counted msg hperm => ?_)))
  rw [countedStake_eq hnodup hstakes hperm]

/-- More attestations within the bound leave a count accepted. -/
theorem verifyQuorumReceipt_mono {attestations : List QuorumAttestation} {k epoch : JsNum}
    (hsub : receipt.attestations ⊆ attestations)
    (hbound : attestations.length ≤ maxAttestations set)
    (h : QuorumAccepts (verifyQuorumReceipt X receipt set k epoch)) :
    QuorumAccepts (verifyQuorumReceipt X (withAttestations receipt attestations) set k epoch) := by
  rw [verifyQuorumReceipt_iff hnodup] at h ⊢
  obtain ⟨hk, hsame, hepoch, hset, -, msg, hmsg, henough⟩ := h
  refine ⟨hk, hsame, hepoch, hset, hbound, msg, hmsg, henough.trans ?_⟩
  exact_mod_cast (attesting_sublist hsub).length_le

/-- More attestations within the bound leave a stake accepted. -/
theorem verifyQuorumReceiptByStake_mono {attestations : List QuorumAttestation}
    {stakeThreshold : ℤ} {epoch : JsNum} (hsub : receipt.attestations ⊆ attestations)
    (hbound : attestations.length ≤ maxAttestations set)
    (h : QuorumAccepts (verifyQuorumReceiptByStake X receipt set stakeThreshold epoch)) :
    QuorumAccepts
      (verifyQuorumReceiptByStake X (withAttestations receipt attestations) set stakeThreshold
        epoch) := by
  rw [verifyQuorumReceiptByStake_iff hnodup] at h ⊢
  obtain ⟨hpos, hstakes, hepoch, hset, -, msg, hmsg, henough⟩ := h
  refine ⟨hpos, hstakes, hepoch, hset, hbound, msg, hmsg, henough.trans ?_⟩
  refine ((attesting_sublist hsub).map _).sum_le_sum fun stake hmem => ?_
  obtain ⟨v, hv, rfl⟩ := List.mem_map.mp hmem
  exact hstakes v (mem_attesting.mp hv).1

/-- **Quorum receipts are decided exactly.** For a set without duplicate keys, a receipt is
accepted exactly when the threshold is a positive integer, the committed threshold, epoch and set
id are the expected ones, the attestations are within the bound, and at least `k` members have an
attestation of the committed suite that verifies; by stake, when the stake of those members
reaches the threshold. The order of the attestations makes no difference to the verdicts, and
more attestations within the bound never turn an acceptance into a rejection. -/
theorem quorum_receipt_exact (k epoch : JsNum) :
    (QuorumAccepts (verifyQuorumReceipt X receipt set k epoch) ↔
      (k.isInteger = true ∧ JsNum.le 1 k = true) ∧
      JsNum.strictEq receipt.body.quorum.k k = true ∧
      JsNum.strictEq receipt.body.quorum.epoch epoch = true ∧
      quorumSetId X set k epoch = .ok receipt.body.quorum.setId ∧
      receipt.attestations.length ≤ maxAttestations set ∧
      ∃ msg, quorumMessage X receipt.body = .ok msg ∧
        k.toInt ≤ (attesting X receipt set msg).length) ∧
    (∀ stakeThreshold : ℤ, 0 < stakeThreshold → (∀ v ∈ set.validators, 0 ≤ v.stake) →
      (QuorumAccepts (verifyQuorumReceiptByStake X receipt set stakeThreshold epoch) ↔
        JsNum.strictEq receipt.body.quorum.epoch epoch = true ∧
        quorumSetId X set receipt.body.quorum.k epoch = .ok receipt.body.quorum.setId ∧
        receipt.attestations.length ≤ maxAttestations set ∧
        ∃ msg, quorumMessage X receipt.body = .ok msg ∧
          stakeThreshold ≤ ((attesting X receipt set msg).map (·.stake)).sum)) ∧
    (∀ attestations, receipt.attestations.Perm attestations →
      verifyQuorumReceipt X (withAttestations receipt attestations) set k epoch =
        verifyQuorumReceipt X receipt set k epoch ∧
      ∀ stakeThreshold,
        verifyQuorumReceiptByStake X (withAttestations receipt attestations) set stakeThreshold
          epoch = verifyQuorumReceiptByStake X receipt set stakeThreshold epoch) ∧
    ∀ attestations, receipt.attestations ⊆ attestations →
      attestations.length ≤ maxAttestations set →
      (QuorumAccepts (verifyQuorumReceipt X receipt set k epoch) →
        QuorumAccepts
          (verifyQuorumReceipt X (withAttestations receipt attestations) set k epoch)) ∧
      ∀ stakeThreshold,
        QuorumAccepts (verifyQuorumReceiptByStake X receipt set stakeThreshold epoch) →
          QuorumAccepts (verifyQuorumReceiptByStake X (withAttestations receipt attestations) set
            stakeThreshold epoch) := by
  refine ⟨verifyQuorumReceipt_iff hnodup, fun stakeThreshold hpos hstakes => ?_,
    fun attestations hperm => ⟨verifyQuorumReceipt_perm hperm,
      fun _ => verifyQuorumReceiptByStake_perm hperm⟩,
    fun attestations hsub hbound => ⟨verifyQuorumReceipt_mono hnodup hsub hbound,
      fun _ => verifyQuorumReceiptByStake_mono hnodup hsub hbound⟩⟩
  rw [verifyQuorumReceiptByStake_iff hnodup]
  exact ⟨fun h => h.2.2, fun h => ⟨hpos, hstakes, h⟩⟩

end Exact

/-! ## A receipt of two validators -/

/-- Two validators. -/
def pairSet : ValidatorSet := ⟨[⟨"0a", 3, none⟩, ⟨"0b", 4, none⟩], none⟩

/-- A receipt. -/
def plainReceipt : ReceiptBody :=
  ⟨"PS-5", "v1", "permit", 3, "EU", 7, ⟨"i", "c", "p", "r", "d"⟩⟩

/-- The receipt with the attestations of both. -/
def pairReceipt : QuorumReceipt :=
  valueOr ⟨⟨plainReceipt, ⟨"", 0, 0, ""⟩⟩, []⟩ (buildQuorumReceipt checksumExternals.toExternals
    plainReceipt pairSet 2 1 [([10], [10], []), ([11], [11], [])] "PS-5")

/-- `quorum_receipt_exact` for it: two members and a stake of seven. -/
theorem quorum_receipt_exact_pair :
    QuorumAccepts (verifyQuorumReceipt checksumExternals.toExternals pairReceipt pairSet 2 1) ∧
    QuorumAccepts
      (verifyQuorumReceiptByStake checksumExternals.toExternals pairReceipt pairSet 7 1) := by
  obtain ⟨hcount, hstake, -⟩ := @quorum_receipt_exact checksumExternals.toExternals pairReceipt
    pairSet (by decide) 2 1
  have hmsg : ∃ msg, quorumMessage checksumExternals.toExternals pairReceipt.body = .ok msg ∧
      (attesting checksumExternals.toExternals pairReceipt pairSet msg).map (·.stake) = [3, 4] :=
    ⟨valueOr [] (quorumMessage checksumExternals.toExternals pairReceipt.body), rfl,
      by decide +kernel⟩
  obtain ⟨msg, hmsg, hattesting⟩ := hmsg
  have hlen := congrArg List.length hattesting
  rw [List.length_map] at hlen
  refine ⟨hcount.mpr ⟨by decide +kernel, by decide +kernel, by decide +kernel, by decide +kernel,
    by decide, msg, hmsg, ?_⟩, (hstake 7 (by decide) (by decide)).mpr ⟨by decide +kernel,
    by decide +kernel, by decide, msg, hmsg, ?_⟩⟩
  · rw [hlen]
    decide
  · rw [hattesting]
    decide

end Nerion
