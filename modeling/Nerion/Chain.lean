import Nerion.Leader

/-!
# Blocks, finality and the ledger (`ledger/src/chain.ts`)

A block is proposed by the leader of its round, attested by validators, and finalizes
when the attesting stake reaches the finality fraction of the total. The verifier of a
finalized block is stateless: block, attestations, validator set.

* `verifyFinalized_finalized_iff` — everything a finalized verdict stands for, as one
  structure, `Finalizes`;
* `Finalizes.isQuorum`, `Finalizes.attested` — its attesters are a weighted quorum of the
  set, and each has an attestation in the list that the signature check accepts;
* `submit_eq_ok` — what a ledger appends.
-/

namespace Nerion

structure BlockHeader (N : Type := JsNum) where
  /-- position in the chain -/
  height : N
  /-- hash of the parent -/
  prevHash : String
  /-- round of the height -/
  round : N
  /-- hex key of the proposer -/
  proposer : String
  /-- hex root that is anchored -/
  payloadRoot : String
  /-- proposer's clock -/
  timestamp : N
  /-- hex VRF output, in VRF mode -/
  vrfOutput : Option String

structure Block (N : Type := JsNum) where
  header : BlockHeader N
  /-- the proposer's signature -/
  proposerSig : Bytes
  /-- suite of the signature -/
  suite : String
  /-- VRF proof, in VRF mode -/
  vrfProof : Option Bytes
  /-- certificate for the round before -/
  viewChangeCert : Option (ViewChangeCert N)

structure Attestation (N : Type := JsNum) where
  /-- the attested block -/
  blockHash : String
  height : N
  /-- hex key of the attester -/
  validator : String
  /-- suite of the signature -/
  suite : String
  /-- the signature -/
  sig : Bytes
  deriving DecidableEq

structure FinalizedBlock where
  block : Block
  hash : String
  /-- the attestations it was submitted with -/
  attestations : List Attestation
  /-- the stake they carry -/
  attestingStake : ℤ
  /-- whether it is final -/
  finalized : Bool

structure LightClientVerdict where
  /-- no check failed -/
  ok : Bool
  /-- no check failed and the stake suffices -/
  finalized : Bool
  /-- stake counted -/
  attestingStake : ℤ
  /-- stake of the set -/
  totalStake : ℤ
  /-- the checks that failed -/
  reasons : List String
  deriving DecidableEq

structure VerifyOpts where
  /-- the height the block must have -/
  expectedHeight : Option JsNum
  /-- the suite block and attestations must use -/
  expectedSuite : Option String

/-- `{}`. -/
def VerifyOpts.none : VerifyOpts := ⟨Option.none, Option.none⟩

structure KeyPair where
  /-- the public half -/
  publicKey : Bytes
  /-- the secret half -/
  secretKey : Bytes

/-- A key pair of a scheme: what the secret half signs verifies under the public half. -/
def KeyPair.Genuine (key : KeyPair) (scheme : SignatureScheme) : Prop :=
  ∀ message entropy sig, scheme.sign message key.secretKey entropy = .ok sig →
    scheme.verify sig message key.publicKey = .ok true

/-- What a genuine key has signed verifies, if the suite is an active one. -/
theorem Externals.verifies_signed (X : Externals) {active : Bool} {suite : String}
    {scheme : SignatureScheme} {key : KeyPair} {entropy sig msg : Bytes}
    {message publicKey : Except JsError Bytes} (hscheme : X.signerFor suite = .ok scheme)
    (hmessage : message = .ok msg) (hsig : scheme.sign msg key.secretKey entropy = .ok sig)
    (hkey : key.Genuine scheme) (hpublic : publicKey = .ok key.publicKey) :
    X.verifies active suite sig message publicKey = active := by
  cases active with
  | false => rfl
  | true =>
    have hvalid := hkey msg entropy sig hsig
    rw [Externals.verifies, Except.bind_ok hscheme
      (Except.bind_ok hmessage (Except.bind_ok hpublic hvalid))]
    rfl

/-- `GENESIS_PREV`. -/
def genesisPrev : String := String.ofList (List.replicate 64 '0')

/-- `new LedgerError(m)`. -/
def ledgerError (m : String) : JsError := ⟨"LedgerError", m⟩

/-- `hexToBytesLocal`: never throws; a pair that is not a number gives zero. -/
def hexToBytesLocal (hex : String) : Bytes :=
  let units := codeUnits hex
  (List.range (units.length / 2)).map fun i =>
    UInt8.ofNat (((parseIntHex ((units.drop (i * 2)).take 2)).getD 0) % 256).toNat

section Verifier

variable {N : Type} [WireNumber N] (X : LedgerExternals)

def headerBytes (h : BlockHeader N) : Except JsError Bytes :=
  X.encodeCanonical (.array [.text "polarseek-block-v1", WireNumber.cbor h.height,
    .text h.prevHash, WireNumber.cbor h.round, .text h.proposer, .text h.payloadRoot,
    WireNumber.cbor h.timestamp, .text (h.vrfOutput.getD "")])

def blockHash (h : BlockHeader N) : Except JsError String := do
  let bytes ← headerBytes X h
  .ok (X.bytesToHex (X.digest bytes))

def blockSignMessage (suite hash : String) : Except JsError Bytes :=
  X.encodeCanonical (.array [.text "polarseek-block-sig-v1", .text suite, .text hash])

def attestMessage (suite : String) (height : N) (hash setId : String) : Except JsError Bytes :=
  X.encodeCanonical (.array [.text "polarseek-attest-v2", .text suite, WireNumber.cbor height,
    .text hash, .text setId])

def verifyAttestationSig (att : Attestation) (set : ValidatorSet) : Except JsError Bool := do
  let setId ← consensusSetId X set
  let msg ← attestMessage X att.suite att.height att.blockHash setId
  .ok (safeVerify X att.suite att.sig msg (hexToBytesLocal att.validator))

/-! ## The finality verifier -/

/-- `if (c) reasons.push(r)`. -/
def reasonIf (c : Bool) (r : String) : List String := if c then [r] else []

theorem reasonIf_eq_nil {c : Bool} {r : String} : reasonIf c r = [] ↔ c = false := by
  cases c <;> simp [reasonIf]

/-- The reasons from the header and the caller's options. -/
def headerReasons (block : Block N) (expectedPrev : String) (opts : VerifyOpts) : List String :=
  reasonIf (opts.expectedSuite.any fun s => decide (block.suite ≠ s))
      "block suite is not the ledger suite" ++
    reasonIf (opts.expectedHeight.any fun k =>
        !JsNum.strictEq (WireNumber.toNum block.header.height) k)
      "block height does not match the chain position" ++
    reasonIf (decide (block.header.prevHash ≠ expectedPrev))
      "prevHash does not extend the expected head" ++
    reasonIf (!(WireNumber.toNum block.header.round).isSafeInteger ||
        JsNum.lt (WireNumber.toNum block.header.round) 0)
      "block round must be a non-negative integer"

/-- The reasons from the certificate of a round above zero. -/
def viewChangeReasons (block : Block N) (set : ValidatorSet) (expectedPrev : String)
    (finalityNum finalityDen : JsNum) : Except JsError (List String) :=
  if JsNum.lt 0 (WireNumber.toNum block.header.round) then do
    let certified ← verifyViewChangeCert X set block.suite block.header.height expectedPrev
      (WireNumber.toNum block.header.round - 1) block.viewChangeCert finalityNum finalityDen
    .ok (reasonIf (!certified) "round > 0 without a valid 2/3 view-change certificate")
  else .ok []

/-- The reasons from the VRF draw of the proposer. -/
def drawReasons (block : Block N) (vrfProof : Bytes) (set : ValidatorSet) (expectedPrev : String) :
    Except JsError (List String) :=
  match (set.validators.find? fun v => decide (v.pubkey = block.header.proposer)).bind
      (·.vrfPubkey) with
  | none => .ok ["proposer is not a validator with a VRF key"]
  | some vrfPubkey => do
    let alpha ← vrfAlpha X expectedPrev block.header.round
    match X.ed25519.verify (hexToBytesLocal vrfPubkey) alpha vrfProof with
    | none => .ok ["VRF proof is invalid"]
    | some beta =>
      -- only ASCII letters have a lower case that is a hex digit
      if X.bytesToHex beta ≠ (block.header.vrfOutput.getD "").toLower then
        .ok ["vrfOutput does not match the VRF proof"]
      else do
        let eligible ← vrfLeaderEligible X set block.header.proposer beta
        .ok (reasonIf (!eligible) "proposer is not VRF-eligible for this round")

/-- `vrfSet`: the mode is fixed by the set, VRF when every member carries a VRF key. -/
def vrfSet (set : ValidatorSet) : Bool :=
  !set.validators.isEmpty && set.validators.all fun v => v.vrfPubkey.isSome

/-- The reasons from leader eligibility. -/
def leaderReasons (block : Block N) (set : ValidatorSet) (expectedPrev : String)
    (finalityNum finalityDen : JsNum) : Except JsError (List String) :=
  if totalStake set ≤ 0 then .ok ["validator set has no stake"]
  else if vrfSet set then
    match block.vrfProof with
    | none => .ok ["legacy block rejected: this validator set is VRF-mode (no downgrade)"]
    | some vrfProof => do
      let cert ← viewChangeReasons X block set expectedPrev finalityNum finalityDen
      let draw ← drawReasons X block vrfProof set expectedPrev
      .ok (cert ++ draw)
  else if block.vrfProof.isSome then
    .ok ["VRF block rejected: this validator set has no VRF keys"]
  else do
    let leader ← selectLeader X set expectedPrev block.header.round
    .ok (reasonIf (!JsNum.strictEq (WireNumber.toNum block.header.round)
          (canonicalRound (WireNumber.toNum block.header.height)))
        "non-canonical round (grind-resistance, LEDGER-002)" ++
      reasonIf (decide (leader ≠ block.header.proposer)) "proposer is not the sortition leader")

/-- The reasons from the proposer's signature. -/
def proposerReasons (block : Block N) (h : String) : Except JsError (List String) := do
  let msg ← blockSignMessage X block.suite h
  .ok (reasonIf (!safeVerify X block.suite block.proposerSig msg
    (hexToBytesLocal block.header.proposer)) "proposer signature is invalid")

/-- Whether an attestation is one for this block: hash, height and suite are its own. -/
def attests (block : Block N) (h : String) (opts : VerifyOpts) (a : Attestation N) : Bool :=
  decide (a.blockHash = h) && WireNumber.strictEq a.height block.header.height &&
    decide (a.suite = block.suite) && opts.expectedSuite.all fun s => decide (a.suite = s)

/-- The signature check of an attestation for this block. -/
def checkAttestation (block : Block N) (h setId : String) (a : Attestation N) :
    Except JsError Bool := do
  let msg ← attestMessage X a.suite block.header.height h setId
  .ok (safeVerify X a.suite a.sig msg (hexToBytesLocal a.validator))

/-- The attestation loop. -/
def tallyAttestations (block : Block N) (h setId : String) (set : ValidatorSet) (opts : VerifyOpts)
    (attestations : List (Attestation N)) : Except JsError Tally :=
  tally (stakeIndex set) (attests block h opts) (·.validator) (checkAttestation X block h setId)
    Tally.zero attestations

def stakeMet (set : ValidatorSet) (finalityNum finalityDen : JsNum) (attestingStake : ℤ) : Bool :=
  validThreshold finalityNum finalityDen && isWellFormedStakeSet set &&
    decide (0 < totalStake set) &&
    decide (finalityNum.toInt * totalStake set ≤ attestingStake * finalityDen.toInt)

/-- The reasons from the threshold. -/
def thresholdReasons (set : ValidatorSet) (finalityNum finalityDen : JsNum)
    (attestingStake : ℤ) : List String :=
  if validThreshold finalityNum finalityDen = false then
    ["finality threshold is degenerate (require 1 <= finalityNum <= finalityDen)"]
  else if isWellFormedStakeSet set = false then
    ["validator set is malformed (negative stake or duplicate pubkeys)"]
  else reasonIf (!stakeMet set finalityNum finalityDen attestingStake)
    ("attesting stake " ++ toString attestingStake ++ "/" ++ toString (totalStake set) ++
      " below finality " ++ finalityNum.text ++ "/" ++ finalityDen.text)

/-- The verdict from the reasons of the checks and the stake counted. -/
def finalityVerdict (set : ValidatorSet) (finalityNum finalityDen : JsNum)
    (checked : List String) (attestingStake : ℤ) : LightClientVerdict :=
  let reasons := checked ++ thresholdReasons set finalityNum finalityDen attestingStake
  { ok := reasons.isEmpty
    finalized := stakeMet set finalityNum finalityDen attestingStake && reasons.isEmpty
    attestingStake := attestingStake
    totalStake := totalStake set
    reasons := reasons }

def maxAttestations (set : ValidatorSet) : ℕ := max (set.validators.length * 4) 256

def verifyFinalized (block : Block N) (attestations : List (Attestation N)) (set : ValidatorSet)
    (expectedPrev : String) (finalityNum finalityDen : JsNum) (opts : VerifyOpts) :
    Except JsError LightClientVerdict := do
  let h ← blockHash X block.header
  if maxAttestations set < attestations.length then
    .ok
      { ok := false
        finalized := false
        attestingStake := 0
        totalStake := totalStake set
        reasons := ["attestation count " ++ toString attestations.length ++ " exceeds bound " ++
          toString (maxAttestations set)] }
  else do
    let setId ← consensusSetId X set
    let leader ← leaderReasons X block set expectedPrev finalityNum finalityDen
    let proposer ← proposerReasons X block h
    let t ← tallyAttestations X block h setId set opts attestations
    .ok (finalityVerdict set finalityNum finalityDen
      (headerReasons block expectedPrev opts ++ leader ++ proposer) t.stake)

/-! ## What a finalized verdict stands for -/

/-- The checks behind a finalized verdict: `h` is the block's hash, `setId` the set's id
and `t` the result of the attestation loop. -/
structure Finalizes (block : Block N) (attestations : List (Attestation N)) (set : ValidatorSet)
    (expectedPrev : String) (finalityNum finalityDen : JsNum) (opts : VerifyOpts)
    (h setId : String) (t : Tally) : Prop where
  /-- the hash of the block -/
  hash : blockHash X block.header = .ok h
  /-- the list is within the bound -/
  bound : attestations.length ≤ maxAttestations set
  /-- the id of the set -/
  setHash : consensusSetId X set = .ok setId
  /-- the header passes -/
  header : headerReasons block expectedPrev opts = []
  /-- the proposer is the leader -/
  leader : leaderReasons X block set expectedPrev finalityNum finalityDen = .ok []
  /-- the proposer signed -/
  proposer : proposerReasons X block h = .ok []
  /-- the stake counted -/
  tally : tallyAttestations X block h setId set opts attestations = .ok t
  /-- the threshold is a fraction -/
  threshold : validThreshold finalityNum finalityDen = true
  /-- the set is well formed -/
  wellFormed : set.WellFormed
  stake : 0 < totalStake set
  /-- enough stake attested -/
  met : finalityNum.toInt * totalStake set ≤ t.stake * finalityDen.toInt

variable {X}
variable {set : ValidatorSet}
  {expectedPrev : String} {finalityNum finalityDen : JsNum} {opts : VerifyOpts}
  {h setId : String} {t : Tally}

theorem stakeMet_iff {attestingStake : ℤ} :
    stakeMet set finalityNum finalityDen attestingStake = true ↔
      validThreshold finalityNum finalityDen = true ∧ set.WellFormed ∧ 0 < totalStake set ∧
        finalityNum.toInt * totalStake set ≤ attestingStake * finalityDen.toInt := by
  rw [stakeMet, Bool.and_eq_true, Bool.and_eq_true, Bool.and_eq_true, decide_eq_true_iff,
    decide_eq_true_iff, ValidatorSet.isWellFormedStakeSet_iff, and_assoc, and_assoc]

/-- A verdict is final when the checks gave no reason and the stake suffices. -/
theorem finalityVerdict_finalized_iff {checked : List String} {attestingStake : ℤ} :
    (finalityVerdict set finalityNum finalityDen checked attestingStake).finalized = true ↔
      checked = [] ∧ stakeMet set finalityNum finalityDen attestingStake = true := by
  change (_ && (checked ++ _).isEmpty) = true ↔ _
  rw [Bool.and_eq_true, List.isEmpty_iff, List.append_eq_nil_iff]
  constructor
  · rintro ⟨hmet, hchecked, -⟩
    exact ⟨hchecked, hmet⟩
  · rintro ⟨hchecked, hmet⟩
    refine ⟨hmet, hchecked, ?_⟩
    -- a stake that suffices leaves the threshold without a reason
    obtain ⟨hvalid, hset, -, -⟩ := stakeMet_iff.mp hmet
    rw [thresholdReasons, hvalid, ValidatorSet.isWellFormedStakeSet_iff.mpr hset, hmet]
    rfl

/-- **Everything a finalized verdict stands for.** -/
theorem verifyFinalized_finalized_iff {block : Block N} {attestations : List (Attestation N)} :
    (∃ v, verifyFinalized X block attestations set expectedPrev finalityNum finalityDen opts =
        .ok v ∧ v.finalized = true) ↔
      ∃ h setId t, Finalizes X block attestations set expectedPrev finalityNum finalityDen opts
        h setId t := by
  constructor
  · rintro ⟨v, hv, hfin⟩
    obtain ⟨h, hh, hv⟩ := Except.bind_eq_ok hv
    split at hv
    · cases hv
      cases hfin
    rename_i hbound
    obtain ⟨setId, hid, hv⟩ := Except.bind_eq_ok hv
    obtain ⟨leader, hleader, hv⟩ := Except.bind_eq_ok hv
    obtain ⟨proposer, hproposer, hv⟩ := Except.bind_eq_ok hv
    obtain ⟨t, ht, hv⟩ := Except.bind_eq_ok hv
    cases hv
    obtain ⟨hchecked, hmet⟩ := finalityVerdict_finalized_iff.mp hfin
    obtain ⟨hvalid, hset, hstake, hge⟩ := stakeMet_iff.mp hmet
    obtain ⟨hhl, rfl⟩ := List.append_eq_nil_iff.mp hchecked
    obtain ⟨hheader, rfl⟩ := List.append_eq_nil_iff.mp hhl
    exact ⟨h, setId, t, hh, not_lt.mp hbound, hid, hheader, hleader, hproposer, ht, hvalid, hset,
      hstake, hge⟩
  · rintro ⟨h, setId, t, hf⟩
    refine ⟨finalityVerdict set finalityNum finalityDen [] t.stake, ?_, ?_⟩
    · refine Except.bind_ok hf.hash ?_
      rw [if_neg (not_lt.mpr hf.bound)]
      refine Except.bind_ok hf.setHash (Except.bind_ok hf.leader
        (Except.bind_ok hf.proposer (Except.bind_ok hf.tally ?_)))
      rw [hf.header]
      rfl
    · exact finalityVerdict_finalized_iff.mpr
        ⟨rfl, stakeMet_iff.mpr ⟨hf.threshold, hf.wellFormed, hf.stake, hf.met⟩⟩

variable {block : Block} {attestations : List Attestation}

theorem attests_iff {a : Attestation} : attests block h opts a = true ↔
    a.blockHash = h ∧ JsNum.strictEq a.height block.header.height = true ∧
      a.suite = block.suite ∧ ∀ s, opts.expectedSuite = some s → a.suite = s := by
  simp only [attests, WireNumber.strictEq_num, Bool.and_eq_true, decide_eq_true_iff,
    Option.all_eq_true, and_assoc]

/-- For an attestation of the block, the loop's check is `verifyAttestationSig`. -/
theorem checkAttestation_eq {a : Attestation} (hid : consensusSetId X set = .ok setId)
    (ha : attests block h opts a = true) :
    checkAttestation X block h setId a = verifyAttestationSig X a set := by
  obtain ⟨hhash, hheight, -, -⟩ := attests_iff.mp ha
  rw [checkAttestation, verifyAttestationSig, hid, hhash, (JsNum.strictEq_iff.mp hheight).2]
  rfl

namespace Finalizes

variable (hf : Finalizes X block attestations set expectedPrev finalityNum finalityDen opts
  h setId t)

include hf

/-- **The attesters of a finalized block are a quorum of the set.** -/
theorem isQuorum : IsQuorum (stakeOf set) set.pubkeys finalityNum.toInt finalityDen.toInt
    t.counted.toFinset :=
  tally_isQuorum hf.wellFormed hf.tally hf.met

/-- The counted validators are those with stake whose first attestation of the block
verifies. -/
theorem mem_counted_iff {v : String} : v ∈ t.counted ↔ 0 < stakeOf set v ∧
    ∃ a, firstVote (attests block h opts) (·.validator) attestations v = some a ∧
      verifyAttestationSig X a set = .ok true := by
  rw [tally_counted_iff hf.tally, get?_stakeIndex]
  refine and_congr_right fun _ => exists_congr fun a => and_congr_right fun ha => ?_
  rw [checkAttestation_eq hf.setHash (firstVote_eq_some ha).2.1]

/-- **Each attester has an attestation of the block in the list, and it verifies.** -/
theorem attested {v : String} (hv : v ∈ t.counted) : ∃ a ∈ attestations, a.validator = v ∧
    attests block h opts a = true ∧ verifyAttestationSig X a set = .ok true := by
  obtain ⟨-, a, ha, hsig⟩ := hf.mem_counted_iff.mp hv
  obtain ⟨hmem, hat, hval⟩ := firstVote_eq_some ha
  exact ⟨a, hmem, hval, hat, hsig⟩

/-- Somebody attested: the threshold is positive. -/
theorem counted_ne_nil : t.counted ≠ [] := by
  intro hnil
  obtain ⟨n, d, rfl, rfl, hn, hd⟩ := exists_natCast_of_validThreshold hf.threshold
  have hstake := (tally_stake hf.tally).2
  rw [hnil, List.map_nil, List.sum_nil] at hstake
  have hmet := hf.met
  rw [hstake, zero_mul, JsNum.toInt_natCast] at hmet
  have hpos : 0 < (n : ℤ) * totalStake set := mul_pos (by exact_mod_cast hn) hf.stake
  exact absurd hmet (not_le.mpr hpos)

/-- A finalized block has a verified attestation in the list. -/
theorem exists_attested : ∃ a ∈ attestations, attests block h opts a = true ∧
    verifyAttestationSig X a set = .ok true := by
  obtain ⟨v, hv⟩ := List.exists_mem_of_ne_nil _ hf.counted_ne_nil
  obtain ⟨a, ha, -, hat, hsig⟩ := hf.attested hv
  exact ⟨a, ha, hat, hsig⟩

/-- The height of a finalized block is a number. -/
theorem height_ne_nan : block.header.height ≠ .nan := by
  intro hnan
  obtain ⟨a, -, hat, -⟩ := hf.exists_attested
  obtain ⟨hne, heq⟩ := JsNum.strictEq_iff.mp (attests_iff.mp hat).2.1
  exact hne (heq.trans hnan)

/-- A finalized block has the height the caller expects. -/
theorem height_eq {k : JsNum} (hk : opts.expectedHeight = some k) : block.header.height = k := by
  have hheader := hf.header
  simp only [headerReasons, hk, List.append_eq_nil_iff, reasonIf, ite_eq_right_iff,
    List.cons_ne_nil, imp_false] at hheader
  have hne : JsNum.strictEq block.header.height k ≠ false := by simpa using hheader.1.1.2
  exact (JsNum.strictEq_iff.mp ((Bool.not_eq_false _).mp hne)).2

end Finalizes

end Verifier

/-! ## The ledger -/

/-- The read-only fields of a `Ledger`; its chain is passed along. -/
structure LedgerConfig where
  /-- the validator set -/
  set : ValidatorSet
  /-- the suite of its signatures -/
  suite : String
  /-- numerator of the finality fraction -/
  finalityNum : JsNum
  /-- denominator of the finality fraction -/
  finalityDen : JsNum

/-- `height`. -/
def ledgerHeight (chain : List FinalizedBlock) : JsNum := (chain.length : JsNum)

def headHash (chain : List FinalizedBlock) : String :=
  match chain.getLast? with
  | some fb => fb.hash
  | none => genesisPrev

section Ledger

variable (X : LedgerExternals) (L : LedgerConfig)

/-- `signerFor(this.suite).sign(blockSignMessage(this.suite, blockHash(header)), secretKey)`;
`entropy` is the randomness drawn for a message. -/
def signHeader (header : BlockHeader) (secretKey : Bytes) (entropy : Bytes → Bytes) :
    Except JsError Bytes := do
  let signer ← X.signerFor L.suite
  let h ← blockHash X header
  let msg ← blockSignMessage X L.suite h
  signer.sign msg secretKey (entropy msg)

def propose (chain : List FinalizedBlock) (payloadRoot : String) (round timestamp : JsNum)
    (proposer : KeyPair) (entropy : Bytes → Bytes) : Except JsError Block := do
  let proposerHex := X.bytesToHex proposer.publicKey
  let leader ← selectLeader X L.set (headHash chain) round
  if leader ≠ proposerHex then
    .error (ledgerError "proposer is not the sortition leader for this round")
  else do
    let header : BlockHeader :=
      ⟨ledgerHeight chain, headHash chain, round, proposerHex, payloadRoot, timestamp, none⟩
    let sig ← signHeader X L header proposer.secretKey entropy
    .ok ⟨header, sig, L.suite, none, none⟩

def proposeVrf (chain : List FinalizedBlock) (payloadRoot : String) (round timestamp : JsNum)
    (proposer : KeyPair) (vrfSecret : Bytes) (viewChangeCert : Option ViewChangeCert)
    (entropy : Bytes → Bytes) : Except JsError Block :=
  if round.isSafeInteger = false ∨ JsNum.lt round 0 = true then
    .error (ledgerError "round must be a non-negative integer")
  else do
    let proposerHex := X.bytesToHex proposer.publicKey
    let alpha ← vrfAlpha X (headHash chain) round
    let output ← X.ed25519.prove vrfSecret alpha
    let eligible ← vrfLeaderEligible X L.set proposerHex output.beta
    if eligible = false then
      .error (ledgerError "proposer is not VRF-eligible for this round")
    else do
      let certified ←
        if JsNum.lt 0 round then
          verifyViewChangeCert X L.set L.suite (ledgerHeight chain) (headHash chain) (round - 1)
            viewChangeCert L.finalityNum L.finalityDen
        else .ok true
      if certified = false then
        .error (ledgerError "round > 0 requires a valid 2/3 view-change certificate")
      else do
        let header : BlockHeader :=
          ⟨ledgerHeight chain, headHash chain, round, proposerHex, payloadRoot, timestamp,
            some (X.bytesToHex output.beta)⟩
        let sig ← signHeader X L header proposer.secretKey entropy
        .ok ⟨header, sig, L.suite, some output.proof, viewChangeCert⟩

def attest (block : Block) (validator : KeyPair) (entropy : Bytes → Bytes) :
    Except JsError Attestation := do
  let h ← blockHash X block.header
  let signer ← X.signerFor L.suite
  let setId ← consensusSetId X L.set
  let msg ← attestMessage X L.suite block.header.height h setId
  let sig ← signer.sign msg validator.secretKey (entropy msg)
  .ok ⟨h, block.header.height, X.bytesToHex validator.publicKey, L.suite, sig⟩

/-- `submit`: the appended block and the chain it ends. A throw leaves the chain alone. -/
def submit (chain : List FinalizedBlock) (block : Block) (attestations : List Attestation) :
    Except JsError (FinalizedBlock × List FinalizedBlock) := do
  let v ← verifyFinalized X block attestations L.set (headHash chain) L.finalityNum L.finalityDen
    ⟨some (ledgerHeight chain), some L.suite⟩
  if v.ok = false then .error (ledgerError ("; ".intercalate v.reasons))
  else do
    let h ← blockHash X block.header
    let fb : FinalizedBlock := ⟨block, h, attestations, v.attestingStake, v.finalized⟩
    if fb.finalized = false then .error (ledgerError "block did not reach stake finality")
    else .ok (fb, chain ++ [fb])

variable {X L}

/-- **What a ledger appends**: a block that finalizes on its head, with its hash and its
attestations. -/
theorem submit_eq_ok {chain chain' : List FinalizedBlock} {block : Block}
    {attestations : List Attestation} {fb : FinalizedBlock}
    (h : submit X L chain block attestations = .ok (fb, chain')) :
    chain' = chain ++ [fb] ∧ fb.block = block ∧ fb.attestations = attestations ∧
      ∃ setId t, Finalizes X block attestations L.set (headHash chain) L.finalityNum L.finalityDen
        ⟨some (ledgerHeight chain), some L.suite⟩ fb.hash setId t := by
  obtain ⟨v, hv, h⟩ := Except.bind_eq_ok h
  split at h
  · cases h
  obtain ⟨hash, hhash, h⟩ := Except.bind_eq_ok h
  dsimp only at h
  split at h
  · cases h
  rename_i hfin
  cases h
  obtain ⟨hash', setId, t, hf⟩ :=
    verifyFinalized_finalized_iff.mp ⟨v, hv, (Bool.not_eq_false _).mp hfin⟩
  obtain rfl : hash' = hash := Except.ok.inj (hf.hash.symm.trans hhash)
  exact ⟨rfl, rfl, rfl, setId, t, hf⟩

/-- A block that finalizes on the head is appended. -/
theorem submit_of_finalizes {chain : List FinalizedBlock} {block : Block}
    {attestations : List Attestation} {h setId : String} {t : Tally}
    (hf : Finalizes X block attestations L.set (headHash chain) L.finalityNum L.finalityDen
      ⟨some (ledgerHeight chain), some L.suite⟩ h setId t) :
    ∃ r, submit X L chain block attestations = .ok r := by
  have hreasons : finalityVerdict L.set L.finalityNum L.finalityDen [] t.stake =
      ⟨true, true, t.stake, totalStake L.set, []⟩ := by
    have hmet : stakeMet L.set L.finalityNum L.finalityDen t.stake = true :=
      stakeMet_iff.mpr ⟨hf.threshold, hf.wellFormed, hf.stake, hf.met⟩
    rw [finalityVerdict, thresholdReasons, hf.threshold,
      ValidatorSet.isWellFormedStakeSet_iff.mpr hf.wellFormed, hmet]
    rfl
  have hverdict : verifyFinalized X block attestations L.set (headHash chain) L.finalityNum
      L.finalityDen ⟨some (ledgerHeight chain), some L.suite⟩ =
        .ok ⟨true, true, t.stake, totalStake L.set, []⟩ := by
    refine Except.bind_ok hf.hash ?_
    rw [if_neg (not_lt.mpr hf.bound)]
    refine Except.bind_ok hf.setHash (Except.bind_ok hf.leader
      (Except.bind_ok hf.proposer (Except.bind_ok hf.tally ?_)))
    rw [hf.header]
    exact congrArg Except.ok hreasons
  refine ⟨(⟨block, h, attestations, t.stake, true⟩,
    chain ++ [⟨block, h, attestations, t.stake, true⟩]), Except.bind_ok hverdict ?_⟩
  exact Except.bind_ok hf.hash rfl

/-- What a validator attests: the block's hash and height, under its own key. -/
theorem attest_eq_ok {block : Block} {validator : KeyPair} {entropy : Bytes → Bytes}
    {att : Attestation} (h : attest X L block validator entropy = .ok att) :
    blockHash X block.header = .ok att.blockHash ∧ att.height = block.header.height ∧
      att.validator = X.bytesToHex validator.publicKey ∧ att.suite = L.suite := by
  obtain ⟨hash, hhash, h⟩ := Except.bind_eq_ok h
  obtain ⟨signer, -, h⟩ := Except.bind_eq_ok h
  obtain ⟨setId, -, h⟩ := Except.bind_eq_ok h
  obtain ⟨msg, -, h⟩ := Except.bind_eq_ok h
  obtain ⟨sig, -, h⟩ := Except.bind_eq_ok h
  cases h
  exact ⟨hhash, rfl, rfl, rfl⟩

end Ledger

end Nerion
