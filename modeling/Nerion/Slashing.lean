import Nerion.Equivocation
import Nerion.FirstValid
import Nerion.JsValue

/-!
# Slashing an unchecked batch (`ledger/src/equivocation.ts`)

A batch of proofs comes off the wire, so its entries are values of any shape: `null`, numbers,
objects without attestations, attestations with a list for a height. Here `slash` and
`verifyEquivocationProof` are modelled on such values, with the reads that throw and the
`try` around each entry.

* `verifyProofEntry_ofProof`, `slashEntries_ofEntries` — on proofs of the declared shape this
  is the model of `Equivocation`;
* `accepts_iff` — what an accepted entry looks like;
* `slashed_slashFold` — the loop takes the first accepted entry of each validator;
* `length_slashFold` — it records every other entry;
* `slash_exact` — which validators a batch removes, and that the order of the batch does not
  matter;
* `slash_batches_iff` — when evidence may come in two batches instead of one.
-/

namespace Nerion

/-! ## Verifying an entry -/

mutual

/-- What the encoder makes of a value. There is no `undefined` in deterministic CBOR. -/
def toCbor : JsValue → Except JsError Cbor
  | .undefined => .error (error "Attempt to encode undefined.")
  | .null => .ok .null
  | .bool b => .ok (.bool b)
  | .num x => .ok (.num x)
  | .bigint z => .ok (.num z)
  | .text s => .ok (.text s)
  | .bytes _ b => .ok (.bytes b)
  | .array _ xs => do
    let items ← toCborItems xs
    .ok (.array items)
  | .object _ fields => do
    let entries ← toCborFields fields
    .ok (.map entries)

/-- The items of an array. -/
def toCborItems : List JsValue → Except JsError (List Cbor)
  | [] => .ok []
  | x :: xs => do
    let c ← toCbor x
    let cs ← toCborItems xs
    .ok (c :: cs)

/-- The fields of an object. -/
def toCborFields : List (String × JsValue) → Except JsError (List (String × Cbor))
  | [] => .ok []
  | (key, x) :: fields => do
    let c ← toCbor x
    let cs ← toCborFields fields
    .ok ((key, c) :: cs)

end

mutual

/-- The suite that a value names as a property key. An array of one item has the key of that
item; the keys of the remaining values are no suite's. -/
def suiteKey : JsValue → Option String
  | .text s => some s
  | .array _ xs => suiteKeyItem xs
  | _ => none

/-- The key of the only item. -/
def suiteKeyItem : List JsValue → Option String
  | [x] => suiteKey x
  | _ => none

end

/-- `hexToBytes`, of a value. -/
def hexToBytesValue (X : Externals) : JsValue → Except JsError Bytes
  | .text s => X.hexToBytes s
  | _ => .error ⟨"TypeError", "hex string expected"⟩

/-- `signerFor`, of a value. -/
def signerForValue (X : Externals) (suite : JsValue) : Except JsError SignatureScheme :=
  match suiteKey suite with
  | some id => X.signerFor id
  | none => .error (unknownSuiteError "")

/-- `stakeOf`, of a value: only a string is anyone's key. -/
def stakeOfValue (set : ValidatorSet) : JsValue → ℤ
  | .text pubkey => stakeOf set pubkey
  | _ => 0

section Model

variable (X : LedgerExternals)

/-- `attestMessage`, of values. -/
def attestMessageOf (suite height hash : JsValue) (setId : String) : Except JsError Bytes := do
  let suite ← toCbor suite
  let height ← toCbor height
  let hash ← toCbor hash
  X.encodeCanonical (.array [.text "polarseek-attest-v2", suite, height, hash, .text setId])

/-- `safeVerifyAtt`, of a value. -/
def safeVerifyEntry (a : JsValue) (setId : String) : Bool :=
  let checked : Except JsError Bool := do
    let suite ← a.field "suite"
    let signer ← signerForValue X.toExternals suite
    let sig ← a.field "sig"
    let height ← a.field "height"
    let hash ← a.field "blockHash"
    let msg ← attestMessageOf X suite height hash setId
    let validator ← a.field "validator"
    let pub ← hexToBytesValue X.toExternals validator
    match sig with
    | .bytes _ sig => signer.verify sig msg pub
    | _ => .error ⟨"TypeError", "\"signature\" expected Uint8Array"⟩
  match checked with
  | .ok valid => valid
  | .error _ => false

/-- `verifyEquivocationProof`, of a value. -/
def verifyProofEntry (proof : JsValue) (set : ValidatorSet) : Except JsError Bool := do
  let blockHashA ← proof.field "blockHashA"
  let blockHashB ← proof.field "blockHashB"
  if blockHashA.strictEq blockHashB = true then .ok false
  else do
    let validator ← proof.field "validator"
    let attA ← proof.field "attA"
    let validatorA ← attA.field "validator"
    if validatorA.strictEq validator = false then .ok false
    else do
      let attB ← proof.field "attB"
      let validatorB ← attB.field "validator"
      if validatorB.strictEq validator = false then .ok false
      else do
        let hashA ← attA.field "blockHash"
        if hashA.strictEq blockHashA = false then .ok false
        else do
          let hashB ← attB.field "blockHash"
          if hashB.strictEq blockHashB = false then .ok false
          else do
            let heightA ← attA.field "height"
            let heightB ← attB.field "height"
            if heightA.strictEq heightB = false then .ok false
            else do
              let height ← proof.field "height"
              if height.strictEq heightA = false then .ok false
              else if stakeOfValue set validator ≤ 0 then .ok false
              else do
                let setId ← consensusSetId X set
                .ok (safeVerifyEntry X attA setId && safeVerifyEntry X attB setId)

/-! ## The batch -/

/-- `SlashRejection`, of an entry of any shape. -/
structure EntryRejection where
  /-- the accused, or `<malformed>` -/
  validator : JsValue
  /-- the entry -/
  proof : JsValue
  /-- why it was not applied -/
  reason : SlashRejectionReason

/-- The accumulators of `slash`; its set `accepted` holds what `slashed` lists. -/
structure EntrySlashState where
  /-- removed so far -/
  slashed : List JsValue
  /-- rejected so far -/
  rejected : List EntryRejection

/-- `SlashResult`. -/
structure EntrySlashResult where
  /-- the set without the slashed validators -/
  set : ValidatorSet
  /-- the removed validators, in the order of their proofs -/
  slashed : List JsValue
  /-- the entries that removed nobody -/
  rejected : List EntryRejection

/-- `accepted.has(v)`. -/
def EntrySlashState.has (s : EntrySlashState) (v : JsValue) : Bool :=
  s.slashed.any fun w => w.sameValueZero v

/-- `rejected.push(…)`. -/
def EntrySlashState.reject (s : EntrySlashState) (validator proof : JsValue)
    (reason : SlashRejectionReason) : EntrySlashState :=
  { s with rejected := s.rejected ++ [⟨validator, proof, reason⟩] }

/-- The guarded body of the loop. -/
def slashBody (set : ValidatorSet) (s : EntrySlashState) (proof : JsValue) :
    Except JsError EntrySlashState := do
  let validator ← proof.field "validator"
  if s.has validator = true then .ok (s.reject validator proof .duplicate)
  else do
    let valid ← verifyProofEntry X proof set
    if valid = false then .ok (s.reject validator proof .invalidProof)
    else .ok { s with slashed := s.slashed ++ [validator] }

/-- One turn of the loop: what the body throws is caught. -/
def slashEntry (set : ValidatorSet) (s : EntrySlashState) (proof : JsValue) : EntrySlashState :=
  match slashBody X set s proof with
  | .ok s' => s'
  | .error _ =>
    let id := (valueOr .undefined (proof.field "validator")).nullish (.text "<malformed>")
    s.reject id proof .verificationError

/-- `slash`. -/
def slashEntries (set : ValidatorSet) (proofs : List JsValue) : EntrySlashResult :=
  if maxProofsPerSlash < proofs.length then ⟨set, [], []⟩
  else
    let s := proofs.foldl (slashEntry X set) ⟨[], []⟩
    ⟨{ set with validators := set.validators.filter fun v => !s.has (.text v.pubkey) }, s.slashed,
      s.rejected⟩

end Model

/-! ## Proofs of the declared shape -/

/-- An attestation as a value. -/
def ofAttestation (a : Attestation) : JsValue :=
  .object 0 [("blockHash", .text a.blockHash), ("height", .num a.height),
    ("validator", .text a.validator), ("suite", .text a.suite), ("sig", .bytes 0 a.sig)]

/-- A proof as a value. -/
def ofProof (p : EquivocationProof) : JsValue :=
  .object 0 [("validator", .text p.validator), ("height", .num p.height),
    ("blockHashA", .text p.blockHashA), ("blockHashB", .text p.blockHashB),
    ("attA", ofAttestation p.attA), ("attB", ofAttestation p.attB)]

/-- An entry of the declared type, or `null`. -/
def ofEntry : Option EquivocationProof → JsValue
  | some p => ofProof p
  | none => .null

section Declared

variable {X : LedgerExternals} {set : ValidatorSet}

/-- On a proof of the declared shape the verification is that of `Equivocation`. -/
theorem verifyProofEntry_ofProof (p : EquivocationProof) :
    verifyProofEntry X (ofProof p) set = verifyEquivocationProof X p set := by
  -- every read succeeds, and two checks of the source are a disjunction each
  change (if decide (p.blockHashA = p.blockHashB) = true then .ok false
    else if decide (p.attA.validator = p.validator) = false then .ok false
    else if decide (p.attB.validator = p.validator) = false then .ok false
    else if decide (p.attA.blockHash = p.blockHashA) = false then .ok false
    else if decide (p.attB.blockHash = p.blockHashB) = false then .ok false
    else if JsNum.strictEq p.attA.height p.attB.height = false then .ok false
    else if JsNum.strictEq p.height p.attA.height = false then .ok false
    else if stakeOf set p.validator ≤ 0 then .ok false
    else do
      let setId ← consensusSetId X set
      .ok (safeVerifyAtt X p.attA setId && safeVerifyAtt X p.attB setId)) = _
  rw [verifyEquivocationProof]
  simp only [decide_eq_true_iff, decide_eq_false_iff_not, ne_eq, ite_or]

end Declared

/-! ## Accepted entries -/

section Accepted

variable (X : LedgerExternals) (set : ValidatorSet)

/-- The entry is accepted by `verifyEquivocationProof`. -/
def accepts (p : JsValue) : Bool := decide (verifyProofEntry X p set = .ok true)

/-- `proof.validator === v`. -/
def accuses (p : JsValue) (v : String) : Bool :=
  match p.field "validator" with
  | .ok validator => validator.strictEq (.text v)
  | .error _ => false

/-- Some entry of the batch accuses `v` and is accepted. -/
def provenBy (proofs : List JsValue) (v : String) : Bool :=
  proofs.any fun p => accuses p v && accepts X set p

/-- What the checks on an entry against `v` establish, whatever the set is: two attestations of
`v`, for one height and different blocks, that verify under the set id `id`. -/
structure EntryEvidence (p : JsValue) (v id : String) (a b : JsValue) : Prop where
  /-- the accused -/
  validator : p.field "validator" = .ok (.text v)
  /-- the first attestation -/
  attA : p.field "attA" = .ok a
  /-- the second attestation -/
  attB : p.field "attB" = .ok b
  /-- is by the accused -/
  validatorA : a.field "validator" = .ok (.text v)
  /-- is by the accused -/
  validatorB : b.field "validator" = .ok (.text v)
  /-- their blocks are those of the entry, which differ -/
  hashes : ∃ blockHashA blockHashB hashA hashB, p.field "blockHashA" = .ok blockHashA ∧
    p.field "blockHashB" = .ok blockHashB ∧ blockHashA.strictEq blockHashB = false ∧
    a.field "blockHash" = .ok hashA ∧ hashA.strictEq blockHashA = true ∧
    b.field "blockHash" = .ok hashB ∧ hashB.strictEq blockHashB = true
  /-- their heights are that of the entry -/
  heights : ∃ height heightA heightB, p.field "height" = .ok height ∧
    a.field "height" = .ok heightA ∧ b.field "height" = .ok heightB ∧
    heightA.strictEq heightB = true ∧ height.strictEq heightA = true
  /-- the first attestation verifies under the id -/
  sigA : safeVerifyEntry X a id = true
  /-- the second attestation verifies under the id -/
  sigB : safeVerifyEntry X b id = true

variable {X set}

theorem exists_text_of_stake {v : JsValue} (h : 0 < stakeOfValue set v) :
    ∃ s, v = .text s ∧ 0 < stakeOf set s := by
  cases v with
  | text s => exact ⟨s, rfl, h⟩
  | _ => exact absurd h (lt_irrefl 0)

theorem exists_evidence {p : JsValue} (h : verifyProofEntry X p set = .ok true) :
    ∃ v id a b, EntryEvidence X p v id a b ∧ 0 < stakeOf set v ∧
      consensusSetId X set = .ok id := by
  obtain ⟨blockHashA, hblockHashA, h⟩ := Except.bind_eq_ok h
  obtain ⟨blockHashB, hblockHashB, h⟩ := Except.bind_eq_ok h
  split at h
  · cases h
  rename_i hne
  obtain ⟨validator, hvalidator, h⟩ := Except.bind_eq_ok h
  obtain ⟨attA, hattA, h⟩ := Except.bind_eq_ok h
  obtain ⟨validatorA, hvalidatorA, h⟩ := Except.bind_eq_ok h
  split at h
  · cases h
  rename_i hsameA
  obtain ⟨attB, hattB, h⟩ := Except.bind_eq_ok h
  obtain ⟨validatorB, hvalidatorB, h⟩ := Except.bind_eq_ok h
  split at h
  · cases h
  rename_i hsameB
  obtain ⟨hashA, hhashA, h⟩ := Except.bind_eq_ok h
  split at h
  · cases h
  rename_i hblockA
  obtain ⟨hashB, hhashB, h⟩ := Except.bind_eq_ok h
  split at h
  · cases h
  rename_i hblockB
  obtain ⟨heightA, hheightA, h⟩ := Except.bind_eq_ok h
  obtain ⟨heightB, hheightB, h⟩ := Except.bind_eq_ok h
  split at h
  · cases h
  rename_i hheights
  obtain ⟨height, hheight, h⟩ := Except.bind_eq_ok h
  split at h
  · cases h
  rename_i hown
  split at h
  · cases h
  rename_i hstake
  obtain ⟨setId, hid, h⟩ := Except.bind_eq_ok h
  obtain ⟨hsigA, hsigB⟩ := Bool.and_eq_true_iff.mp (Except.ok.inj h)
  rw [Bool.not_eq_false] at hsameA hsameB hblockA hblockB hheights hown
  -- only a string has stake, so the names are one string
  obtain ⟨v, rfl, hpos⟩ := exists_text_of_stake (not_le.mp hstake)
  obtain rfl := JsValue.strictEq_text.mp hsameA
  obtain rfl := JsValue.strictEq_text.mp hsameB
  exact ⟨v, setId, attA, attB, ⟨hvalidator, hattA, hattB, hvalidatorA, hvalidatorB,
    ⟨blockHashA, blockHashB, hashA, hashB, hblockHashA, hblockHashB, (Bool.not_eq_true _).mp hne,
      hhashA, hblockA, hhashB, hblockB⟩,
    ⟨height, heightA, heightB, hheight, hheightA, hheightB, hheights, hown⟩, hsigA, hsigB⟩,
    hpos, hid⟩

/-- **What an accepted entry is**: evidence under the id of the set, against a validator that has
stake there. -/
theorem accepts_iff {p : JsValue} : accepts X set p = true ↔
    ∃ v id a b, EntryEvidence X p v id a b ∧ 0 < stakeOf set v ∧
      consensusSetId X set = .ok id := by
  rw [accepts, decide_eq_true_iff]
  refine ⟨exists_evidence, ?_⟩
  rintro ⟨v, id, a, b, he, hstake, hid⟩
  obtain ⟨blockHashA, blockHashB, hashA, hashB, hblockHashA, hblockHashB, hne, hhashA, hblockA,
    hhashB, hblockB⟩ := he.hashes
  obtain ⟨height, heightA, heightB, hheight, hheightA, hheightB, hheights, hown⟩ := he.heights
  have hself : ¬ (JsValue.text v).strictEq (.text v) = false :=
    ne_false_of_eq_true (JsValue.strictEq_text.mpr rfl)
  have hpos : ¬ stakeOfValue set (.text v) ≤ 0 := not_le.mpr hstake
  -- every read succeeds and every check passes
  refine Except.bind_ok hblockHashA (Except.bind_ok hblockHashB ?_)
  rw [if_neg (ne_true_of_eq_false hne)]
  refine Except.bind_ok he.validator (Except.bind_ok he.attA (Except.bind_ok he.validatorA ?_))
  rw [if_neg hself]
  refine Except.bind_ok he.attB (Except.bind_ok he.validatorB ?_)
  rw [if_neg hself]
  refine Except.bind_ok hhashA ?_
  rw [if_neg (ne_false_of_eq_true hblockA)]
  refine Except.bind_ok hhashB ?_
  rw [if_neg (ne_false_of_eq_true hblockB)]
  refine Except.bind_ok hheightA (Except.bind_ok hheightB ?_)
  rw [if_neg (ne_false_of_eq_true hheights)]
  refine Except.bind_ok hheight ?_
  rw [if_neg (ne_false_of_eq_true hown), if_neg hpos]
  refine Except.bind_ok hid ?_
  rw [he.sigA, he.sigB]
  rfl

/-- The blocks of the two attestations are not the same string. -/
theorem EntryEvidence.hash_ne {p a b : JsValue} {v id s t : String}
    (he : EntryEvidence X p v id a b) (ha : a.field "blockHash" = .ok (.text s))
    (hb : b.field "blockHash" = .ok (.text t)) : s ≠ t := by
  rintro rfl
  obtain ⟨blockHashA, blockHashB, hashA, hashB, -, -, hne, hhashA, hblockA, hhashB, hblockB⟩ :=
    he.hashes
  obtain rfl := Except.ok.inj (hhashA.symm.trans ha)
  obtain rfl := Except.ok.inj (hhashB.symm.trans hb)
  rw [JsValue.text_strictEq.mp hblockA, JsValue.text_strictEq.mp hblockB] at hne
  exact absurd (JsValue.strictEq_text.mpr rfl) (ne_true_of_eq_false hne)

end Accepted

/-! ## The loop -/

section Loop

variable {X : LedgerExternals} {set : ValidatorSet}

/-- The name of an entry that has one. -/
def entryName (p : JsValue) : String :=
  match p.field "validator" with
  | .ok (.text v) => v
  | _ => ""

theorem field_of_accepts {p : JsValue} (h : accepts X set p = true) :
    p.field "validator" = .ok (.text (entryName p)) := by
  obtain ⟨v, id, a, b, he, -, -⟩ := accepts_iff.mp h
  rw [entryName, he.validator]

theorem accuses_iff {p : JsValue} (h : accepts X set p = true) {v : String} :
    accuses p v = true ↔ entryName p = v := by
  rw [accuses, field_of_accepts h, JsValue.strictEq_text]
  exact ⟨JsValue.text.inj, congrArg _⟩

/-- **What a turn of the loop does**: it takes the validator of an accepted entry that is not
there yet, and records any other entry as rejected. -/
theorem slashEntry_cases (X : LedgerExternals) (set : ValidatorSet) (s : EntrySlashState)
    (p : JsValue) :
    (accepts X set p = true ∧ s.has (.text (entryName p)) = false ∧
      slashEntry X set s p = { s with slashed := s.slashed ++ [.text (entryName p)] }) ∨
    ((accepts X set p = true → s.has (.text (entryName p)) = true) ∧
      ∃ id reason, slashEntry X set s p = s.reject id p reason) := by
  cases hbody : slashBody X set s p with
  | error e =>
    refine .inr ⟨fun hacc => ?_, _, .verificationError, by rw [slashEntry, hbody]⟩
    by_contra hnew
    rw [slashBody, field_of_accepts hacc] at hbody
    change (if s.has (.text (entryName p)) = true then _ else _) = _ at hbody
    rw [if_neg hnew, of_decide_eq_true hacc] at hbody
    cases hbody
  | ok s' =>
    have hstep : slashEntry X set s p = s' := by rw [slashEntry, hbody]
    obtain ⟨v, hv, hbody⟩ := Except.bind_eq_ok hbody
    split at hbody
    · rename_i hhas
      obtain rfl := Except.ok.inj hbody
      refine .inr ⟨fun hacc => ?_, v, .duplicate, hstep⟩
      rwa [Except.ok.inj ((field_of_accepts hacc).symm.trans hv)]
    rename_i hnew
    obtain ⟨valid, hvalid, hbody⟩ := Except.bind_eq_ok hbody
    split at hbody
    · rename_i hfalse
      obtain rfl := Except.ok.inj hbody
      refine .inr ⟨fun hacc => ?_, v, .invalidProof, hstep⟩
      have hboth := hvalid.symm.trans (of_decide_eq_true hacc)
      rw [hfalse] at hboth
      cases hboth
    · rename_i htrue
      obtain rfl := Except.ok.inj hbody
      rw [Bool.not_eq_false] at htrue
      have hacc : accepts X set p = true := decide_eq_true (htrue ▸ hvalid)
      obtain rfl := Except.ok.inj ((field_of_accepts hacc).symm.trans hv)
      exact .inl ⟨hacc, (Bool.not_eq_true _).mp hnew, hstep⟩

theorem has_text_iff {s : EntrySlashState} {names : List String}
    (hs : s.slashed = names.map .text) {v : String} : s.has (.text v) = true ↔ v ∈ names := by
  rw [EntrySlashState.has, hs, List.any_map, List.any_eq_true]
  refine ⟨?_, fun hv => ⟨v, hv, JsValue.sameValueZero_text.mpr rfl⟩⟩
  rintro ⟨w, hw, hsame⟩
  rwa [JsValue.text.inj (JsValue.sameValueZero_text.mp hsame)]

/-- Each entry leaves one trace. -/
theorem length_slashEntry (s : EntrySlashState) (p : JsValue) :
    (slashEntry X set s p).slashed.length + (slashEntry X set s p).rejected.length =
      s.slashed.length + s.rejected.length + 1 := by
  rcases slashEntry_cases X set s p with ⟨-, -, hstep⟩ | ⟨-, id, reason, hstep⟩
  · rw [hstep, List.length_append, List.length_singleton]
    exact Nat.add_right_comm _ _ _
  · rw [hstep, EntrySlashState.reject, List.length_append, List.length_singleton]
    rfl

theorem length_slashFold (proofs : List JsValue) (s : EntrySlashState) :
    (proofs.foldl (slashEntry X set) s).slashed.length +
      (proofs.foldl (slashEntry X set) s).rejected.length =
        s.slashed.length + s.rejected.length + proofs.length := by
  induction proofs generalizing s with
  | nil => rfl
  | cons p proofs ih =>
    rw [List.foldl_cons, ih, length_slashEntry, List.length_cons]
    omega

variable {proofs : List JsValue}

/-- **The loop takes the first accepted entry of each validator.** -/
theorem slashed_slashFold {s : EntrySlashState} {names seen : List String}
    (hs : s.slashed = names.map .text) (hseen : ∀ v, v ∈ seen ↔ v ∈ names) :
    (proofs.foldl (slashEntry X set) s).slashed =
      (names ++ (firstValid entryName (accepts X set) seen proofs).map entryName).map .text := by
  induction proofs generalizing s names seen with
  | nil => rw [firstValid, List.map_nil, List.append_nil, ← hs, List.foldl_nil]
  | cons p proofs ih =>
    rw [List.foldl_cons]
    rcases slashEntry_cases X set s p with ⟨hacc, hnew, hstep⟩ | ⟨hold, id, reason, hstep⟩
    · have hnot : entryName p ∉ seen := by
        rw [hseen, ← has_text_iff hs, hnew]
        exact Bool.false_ne_true
      have hs' : (slashEntry X set s p).slashed = (names ++ [entryName p]).map .text := by
        rw [hstep, hs, List.map_append, List.map_singleton]
      have hseen' : ∀ v, v ∈ entryName p :: seen ↔ v ∈ names ++ [entryName p] := by
        intro v
        rw [List.mem_cons, List.mem_append, List.mem_singleton, hseen, or_comm]
      rw [ih hs' hseen', firstValid_cons_pos hnot hacc, List.map_cons, List.append_assoc]
      rfl
    · have hs' : (slashEntry X set s p).slashed = names.map .text := by
        rw [hstep]
        exact hs
      rw [ih hs' hseen]
      cases hacc : accepts X set p with
      | true => rw [firstValid_cons_seen ((hseen _).mpr ((has_text_iff hs).mp (hold hacc)))]
      | false => rw [firstValid_cons_invalid hacc]

/-- The validators that a batch removes. -/
def removedNames (X : LedgerExternals) (set : ValidatorSet) (proofs : List JsValue) :
    List String :=
  (firstValid entryName (accepts X set) [] proofs).map entryName

/-- A validator is removed when it is proven to have equivocated. -/
theorem mem_removedNames {v : String} :
    v ∈ removedNames X set proofs ↔ provenBy X set proofs v = true := by
  rw [removedNames, mem_map_firstValid, provenBy, List.any_eq_true]
  refine ⟨?_, ?_⟩
  · rintro ⟨-, p, hp, hname, hacc⟩
    exact ⟨p, hp, Bool.and_eq_true_iff.mpr ⟨(accuses_iff hacc).mpr hname, hacc⟩⟩
  · rintro ⟨p, hp, hboth⟩
    obtain ⟨hname, hacc⟩ := Bool.and_eq_true_iff.mp hboth
    exact ⟨List.not_mem_nil, p, hp, (accuses_iff hacc).mp hname, hacc⟩

/-- **What `slash` returns on a batch within its cap.** -/
theorem slashEntries_eq (hlen : proofs.length ≤ maxProofsPerSlash) :
    (slashEntries X set proofs).slashed = (removedNames X set proofs).map .text ∧
    (slashEntries X set proofs).set = { set with
      validators := set.validators.filter fun v => !provenBy X set proofs v.pubkey } := by
  have hslashed : (proofs.foldl (slashEntry X set) ⟨[], []⟩).slashed =
      (removedNames X set proofs).map .text :=
    @slashed_slashFold X set proofs ⟨[], []⟩ [] [] rfl fun v => Iff.rfl
  have hhas : ∀ v, (proofs.foldl (slashEntry X set) ⟨[], []⟩).has (.text v) =
      provenBy X set proofs v := by
    intro v
    rw [Bool.eq_iff_iff, has_text_iff hslashed, mem_removedNames]
  rw [slashEntries, if_neg (not_lt.mpr hlen)]
  refine ⟨hslashed, ?_⟩
  simp only [hhas]

theorem provenBy_perm {proofs proofs' : List JsValue} (h : proofs.Perm proofs') (v : String) :
    provenBy X set proofs v = provenBy X set proofs' v := h.any_eq

theorem provenBy_ofEntries {proofs : List (Option EquivocationProof)} {v : String} :
    provenBy X set (proofs.map ofEntry) v = true ↔
      ∃ p, some p ∈ proofs ∧ p.validator = v ∧ verifyEquivocationProof X p set = .ok true := by
  rw [provenBy, List.any_map, List.any_eq_true]
  refine ⟨?_, ?_⟩
  · rintro ⟨entry, hentry, hboth⟩
    obtain ⟨hname, hacc⟩ := Bool.and_eq_true_iff.mp hboth
    cases entry with
    | none => exact absurd hname Bool.false_ne_true
    | some p =>
      have hverify : verifyProofEntry X (ofProof p) set = .ok true := of_decide_eq_true hacc
      rw [verifyProofEntry_ofProof] at hverify
      exact ⟨p, hentry, JsValue.text.inj (JsValue.strictEq_text.mp hname), hverify⟩
  · rintro ⟨p, hp, rfl, hverify⟩
    rw [← verifyProofEntry_ofProof] at hverify
    exact ⟨some p, hp, Bool.and_eq_true_iff.mpr ⟨JsValue.strictEq_text.mpr rfl,
      decide_eq_true hverify⟩⟩

/-- **On proofs of the declared shape** the batch leaves the set that `slash` of `Equivocation`
leaves. -/
theorem slashEntries_ofEntries (proofs : List (Option EquivocationProof)) :
    (slashEntries X set (proofs.map ofEntry)).set = (slash X set proofs).set := by
  by_cases hlen : proofs.length ≤ maxProofsPerSlash
  · have hlen' : (proofs.map ofEntry).length ≤ maxProofsPerSlash := by rwa [List.length_map]
    have hsame : ∀ v, (!provenBy X set (proofs.map ofEntry) v) =
        decide (v ∉ (slash X set proofs).slashed) := by
      intro v
      rw [Bool.eq_iff_iff, Bool.not_eq_true', ← Bool.not_eq_true, decide_eq_true_iff,
        provenBy_ofEntries, mem_slashed_iff hlen]
    rw [(slashEntries_eq hlen').2]
    simp only [hsame]
    rw [← slash_validators, slash, if_neg (not_lt.mpr hlen)]
  · rw [slashEntries, slash, List.length_map, if_pos (not_le.mp hlen), if_pos (not_le.mp hlen)]

end Loop

/-! ## Validators that attest once -/

/-- An attestation that a validator made. -/
structure MadeAttestation where
  height : JsNum
  /-- the block -/
  hash : String
  /-- the set under which it was made -/
  setId : String

/-- The attestation `a` of a batch is one that was made: its message has that height, that block
and that set id. -/
def MadeAttestation.IsFor (e : MadeAttestation) (a : JsValue) (setId : String) : Prop :=
  e.setId = setId ∧ ∃ height hash, a.field "height" = .ok height ∧
    a.field "blockHash" = .ok hash ∧ toCbor height = .ok (.num e.height) ∧
    toCbor hash = .ok (.text e.hash)

/-- Nobody forged a signature of `v` for the batch: an attestation of `v` in it that verifies
is one that `v` made. -/
def Unforged (X : LedgerExternals) (set : ValidatorSet) (v : String) (made : List MadeAttestation)
    (proofs : List JsValue) : Prop :=
  ∀ setId, consensusSetId X set = .ok setId → ∀ p ∈ proofs, ∀ side ∈ ["attA", "attB"], ∀ a,
    p.field side = .ok a → a.field "validator" = .ok (.text v) →
    safeVerifyEntry X a setId = true → ∃ e ∈ made, e.IsFor a setId

/-- At most one block for each height under a set id. -/
def AttestsOnce (made : List MadeAttestation) (setId : String) : Prop :=
  ∀ e ∈ made, ∀ e' ∈ made, e.setId = setId → e'.setId = setId → e.height = e'.height →
    e.hash = e'.hash

section Honest

theorem array_of_toCbor {ref : ℕ} {xs : List JsValue} {c : Cbor}
    (h : toCbor (.array ref xs) = .ok c) : ∃ items, c = .array items := by
  rw [toCbor] at h
  obtain ⟨items, -, h⟩ := Except.bind_eq_ok h
  exact ⟨items, (Except.ok.inj h).symm⟩

theorem map_of_toCbor {ref : ℕ} {fields : List (String × JsValue)} {c : Cbor}
    (h : toCbor (.object ref fields) = .ok c) : ∃ entries, c = .map entries := by
  rw [toCbor] at h
  obtain ⟨entries, -, h⟩ := Except.bind_eq_ok h
  exact ⟨entries, (Except.ok.inj h).symm⟩

theorem eq_text_of_toCbor {v : JsValue} {s : String} (h : toCbor v = .ok (.text s)) :
    v = .text s := by
  cases v with
  | text t =>
    rw [toCbor] at h
    exact congrArg _ (Cbor.text.inj (Except.ok.inj h))
  | array ref xs => exact (array_of_toCbor h).elim nofun
  | object ref fields => exact (map_of_toCbor h).elim nofun
  | _ =>
    rw [toCbor] at h
    cases h

/-- A value that is encoded as a number is one, or a bigint. -/
theorem num_of_toCbor {v : JsValue} {x : JsNum} (h : toCbor v = .ok (.num x)) :
    v = .num x ∨ ∃ z : ℤ, v = .bigint z ∧ x = z := by
  cases v with
  | num y =>
    rw [toCbor] at h
    exact .inl (congrArg _ (Cbor.num.inj (Except.ok.inj h)))
  | bigint z =>
    rw [toCbor] at h
    exact .inr ⟨z, rfl, (Cbor.num.inj (Except.ok.inj h)).symm⟩
  | array ref xs => exact (array_of_toCbor h).elim nofun
  | object ref fields => exact (map_of_toCbor h).elim nofun
  | _ =>
    rw [toCbor] at h
    cases h

/-- Heights that are strictly equal are encoded as the same number. -/
theorem height_eq_of_strictEq {a b : JsValue} {x y : JsNum} (ha : toCbor a = .ok (.num x))
    (hb : toCbor b = .ok (.num y)) (heq : a.strictEq b = true) : x = y := by
  rcases num_of_toCbor ha with rfl | ⟨z, rfl, rfl⟩
  · rcases num_of_toCbor hb with rfl | ⟨z, rfl, rfl⟩
    · exact (JsNum.strictEq_iff.mp heq).2
    · cases heq
  · rcases num_of_toCbor hb with rfl | ⟨w, rfl, rfl⟩
    · cases heq
    · exact congrArg _ (of_decide_eq_true heq)

/-- **There is no evidence against a validator that attests once.** -/
theorem not_provenBy_of_attestsOnce {X : LedgerExternals} {set : ValidatorSet} {v : String}
    {made : List MadeAttestation} {proofs : List JsValue} (hsigs : Unforged X set v made proofs)
    (honce : ∀ setId, consensusSetId X set = .ok setId → AttestsOnce made setId) :
    provenBy X set proofs v = false := by
  rw [← Bool.not_eq_true, provenBy, List.any_eq_true]
  rintro ⟨p, hp, hboth⟩
  obtain ⟨hname, hacc⟩ := Bool.and_eq_true_iff.mp hboth
  obtain ⟨w, id, a, b, he, -, hset⟩ := accepts_iff.mp hacc
  obtain rfl : w = v := by
    have hw := field_of_accepts hacc
    rw [(accuses_iff hacc).mp hname, he.validator] at hw
    exact JsValue.text.inj (Except.ok.inj hw)
  -- both attestations were made, for the same height
  obtain ⟨e, hmade, hid, nA, hA, hnA, hhA, hheight, hhash⟩ :=
    hsigs id hset p hp "attA" (by simp) a he.attA he.validatorA he.sigA
  obtain ⟨e', hmade', hid', nB, hB, hnB, hhB, hheight', hhash'⟩ :=
    hsigs id hset p hp "attB" (by simp) b he.attB he.validatorB he.sigB
  obtain ⟨-, heightA, heightB, -, hheightA, hheightB, hheights, -⟩ := he.heights
  obtain rfl := Except.ok.inj (hheightA.symm.trans hnA)
  obtain rfl := Except.ok.inj (hheightB.symm.trans hnB)
  have hsame := honce id hset e hmade e' hmade' hid hid'
    (height_eq_of_strictEq hheight hheight' hheights)
  refine he.hash_ne ?_ ?_ hsame
  · rw [hhA, eq_text_of_toCbor hhash]
  · rw [hhB, eq_text_of_toCbor hhash']

end Honest

/-- **`slash` removes exactly the proven equivocators.** On a batch within its cap, whatever the
entries are, the set that is returned differs in its validators alone: those remain, in order,
against whom no entry is accepted. No validator is listed as slashed twice, every entry is
either applied or recorded as rejected, and the order of the batch does not matter for the set.
A validator that attested at most one block a height remains, as long as its signatures are not
forged. -/
theorem slash_exact {X : LedgerExternals} {set : ValidatorSet} {proofs : List JsValue}
    (hlen : proofs.length ≤ maxProofsPerSlash) :
    (slashEntries X set proofs).set = { set with
      validators := set.validators.filter fun v => !provenBy X set proofs v.pubkey } ∧
    (∃ names : List String, (slashEntries X set proofs).slashed = names.map .text ∧
      names.Nodup) ∧
    (slashEntries X set proofs).slashed.length + (slashEntries X set proofs).rejected.length =
      proofs.length ∧
    (∀ proofs', proofs.Perm proofs' →
      (slashEntries X set proofs').set = (slashEntries X set proofs).set) ∧
    ∀ v ∈ set.validators, ∀ made, Unforged X set v.pubkey made proofs →
      (∀ setId, consensusSetId X set = .ok setId → AttestsOnce made setId) →
      v ∈ (slashEntries X set proofs).set.validators := by
  obtain ⟨hslashed, hset⟩ := @slashEntries_eq X set proofs hlen
  refine ⟨hset, ⟨_, hslashed, nodup_map_firstValid _ _ _ _⟩, ?_, fun proofs' hperm => ?_,
    fun v hv made hsigs honce => ?_⟩
  · rw [slashEntries, if_neg (not_lt.mpr hlen)]
    exact (length_slashFold proofs ⟨[], []⟩).trans (Nat.zero_add _)
  · rw [(slashEntries_eq (hperm.length_eq.symm.trans_le hlen)).2, hset]
    simp only [provenBy_perm hperm]
  · rw [hset]
    refine List.mem_filter.mpr ⟨hv, ?_⟩
    rw [not_provenBy_of_attestsOnce hsigs honce]
    rfl

/-! ## Evidence in two batches

The id of a set covers its members, so a validator that is removed changes the id, and with it
the message under which the remaining ones are judged. -/

section Batches

variable {X : LedgerExternals} {set set' : ValidatorSet} {P Q : List JsValue}

/-- The set without the validators that a batch proves to have equivocated. -/
def withoutProven (X : LedgerExternals) (set : ValidatorSet) (proofs : List JsValue) :
    ValidatorSet :=
  { set with validators := set.validators.filter fun v => !provenBy X set proofs v.pubkey }

theorem withoutProven_of_none (h : ∀ v ∈ set.validators, provenBy X set P v.pubkey = false) :
    withoutProven X set P = set := by
  rw [withoutProven, List.filter_eq_self.mpr fun v hv => by rw [h v hv]; rfl]

/-- Two attestations of `v` in an entry of the batch are evidence under the id of the set. -/
def HasEvidence (X : LedgerExternals) (set : ValidatorSet) (proofs : List JsValue) (v : String) :
    Prop :=
  ∃ id, consensusSetId X set = .ok id ∧ ∃ p ∈ proofs, ∃ a b, EntryEvidence X p v id a b

/-- **Who is proven to have equivocated**: who has stake, and evidence against it. The set counts
for its stakes and for its id. -/
theorem provenBy_iff {proofs : List JsValue} {v : String} : provenBy X set proofs v = true ↔
    0 < stakeOf set v ∧ HasEvidence X set proofs v := by
  rw [provenBy, List.any_eq_true]
  constructor
  · rintro ⟨p, hp, hboth⟩
    obtain ⟨hname, hacc⟩ := Bool.and_eq_true_iff.mp hboth
    obtain ⟨w, id, a, b, he, hstake, hid⟩ := accepts_iff.mp hacc
    obtain rfl : w = v := by
      have hw := field_of_accepts hacc
      rw [(accuses_iff hacc).mp hname, he.validator] at hw
      exact JsValue.text.inj (Except.ok.inj hw)
    exact ⟨hstake, id, hid, p, hp, a, b, he⟩
  · rintro ⟨hstake, id, hid, p, hp, a, b, he⟩
    refine ⟨p, hp, Bool.and_eq_true_iff.mpr ⟨?_, accepts_iff.mpr ⟨v, id, a, b, he, hstake, hid⟩⟩⟩
    rw [accuses, he.validator]
    exact JsValue.strictEq_text.mpr rfl

/-- A validator that remains keeps its stake. -/
theorem stakeOf_withoutProven {v : String} (h : provenBy X set P v = false) :
    stakeOf (withoutProven X set P) v = stakeOf set v := by
  have hfind : (withoutProven X set P).validators.find? (fun w => decide (w.pubkey = v)) =
      set.validators.find? fun w => decide (w.pubkey = v) := by
    rw [withoutProven, List.find?_filter]
    congr 1
    funext w
    by_cases hw : w.pubkey = v <;> simp [hw, h]
  rw [stakeOf, stakeOf, hfind]

theorem provenBy_append (v : String) :
    provenBy X set (P ++ Q) v = (provenBy X set P v || provenBy X set Q v) := List.any_append

/-- What two batches remove, one after the other. -/
theorem slashEntries_slashEntries (hP : P.length ≤ maxProofsPerSlash)
    (hQ : Q.length ≤ maxProofsPerSlash) :
    (slashEntries X (slashEntries X set P).set Q).set = { set with
      validators := set.validators.filter fun v => !provenBy X set P v.pubkey &&
        !provenBy X (withoutProven X set P) Q v.pubkey } := by
  have hfirst : (slashEntries X set P).set = withoutProven X set P := (slashEntries_eq hP).2
  rw [hfirst, (slashEntries_eq hQ).2, withoutProven, List.filter_filter]
  simp only [Bool.and_comm]

/-- **Evidence is judged by the id it is signed under**: two batches do the same one after the
other as together exactly when the second has evidence under the id of the set that the first
leaves against those of the remaining validators against whom it has evidence under the id of the
set at hand. -/
theorem slashEntries_append_iff (hlen : P.length + Q.length ≤ maxProofsPerSlash) :
    (slashEntries X (slashEntries X set P).set Q).set = (slashEntries X set (P ++ Q)).set ↔
      ∀ v ∈ set.validators, 0 < stakeOf set v.pubkey → provenBy X set P v.pubkey = false →
        (HasEvidence X (withoutProven X set P) Q v.pubkey ↔ HasEvidence X set Q v.pubkey) := by
  have hboth : (slashEntries X set (P ++ Q)).set = { set with
      validators := set.validators.filter fun v => !provenBy X set P v.pubkey &&
        !provenBy X set Q v.pubkey } := by
    rw [(slashEntries_eq (List.length_append.trans_le hlen)).2]
    simp only [provenBy_append, Bool.not_or]
  have hproven : ∀ v : Validator, provenBy X set P v.pubkey = false →
      (provenBy X (withoutProven X set P) Q v.pubkey = provenBy X set Q v.pubkey ↔
        (0 < stakeOf set v.pubkey →
          (HasEvidence X (withoutProven X set P) Q v.pubkey ↔ HasEvidence X set Q v.pubkey))) := by
    intro v hleft
    rw [Bool.eq_iff_iff, provenBy_iff, provenBy_iff, stakeOf_withoutProven hleft]
    exact and_congr_right_iff
  rw [slashEntries_slashEntries ((Nat.le_add_right _ _).trans hlen)
    ((Nat.le_add_left _ _).trans hlen), hboth]
  refine ⟨fun h v hv hstake hleft => (hproven v hleft).mp ?_ hstake, fun h => ?_⟩
  · have hmem := congrArg (fun s => v ∈ s.validators) h
    simpa [List.mem_filter, hv, hleft] using hmem
  · refine congrArg (fun vs => ({ set with validators := vs } : ValidatorSet)) ?_
    refine List.filter_congr fun v hv => ?_
    cases hleft : provenBy X set P v.pubkey with
    | true => rw [Bool.not_true, Bool.false_and, Bool.false_and]
    | false => rw [(hproven v hleft).mpr fun hstake => h v hv hstake hleft]

/-- The ids of the two sets tell them apart: the encoder writes the number of members, the hash
has no collision on the two encodings, and the hex text is that of one byte string. -/
structure IdsSeparate (X : LedgerExternals) (set set' : ValidatorSet) : Prop where
  /-- encodings of sets of different sizes differ -/
  sizes : ∀ b, X.encodeCanonical (consensusSetCbor set) = .ok b →
    X.encodeCanonical (consensusSetCbor set') = .ok b →
    set'.validators.length = set.validators.length
  /-- their hashes do not collide -/
  digests : ∀ b b', X.encodeCanonical (consensusSetCbor set) = .ok b →
    X.encodeCanonical (consensusSetCbor set') = .ok b' → X.digest b = X.digest b' → b = b'
  /-- the hex texts do not collide -/
  hex : Function.Injective X.bytesToHex

theorem IdsSeparate.length_eq (h : IdsSeparate X set set') {id : String}
    (hid : consensusSetId X set = .ok id) (hid' : consensusSetId X set' = .ok id) :
    set'.validators.length = set.validators.length := by
  obtain ⟨b, hb, htext⟩ := Except.bind_eq_ok hid
  obtain ⟨b', hb', htext'⟩ := Except.bind_eq_ok hid'
  have hdigest := h.hex ((Except.ok.inj htext).trans (Except.ok.inj htext').symm)
  obtain rfl := h.digests b b' hb hb' hdigest
  exact h.sizes b hb hb'

/-- Whom `P` proves is gone, so under separate ids the sets have one id when `P` proves nobody. -/
theorem consensusSetId_withoutProven_iff (h : IdsSeparate X set (withoutProven X set P))
    {id : String} (hid : consensusSetId X set = .ok id) :
    consensusSetId X (withoutProven X set P) = .ok id ↔
      ∀ v ∈ set.validators, provenBy X set P v.pubkey = false := by
  constructor
  · intro hid'
    have hkept := List.length_filter_eq_length_iff.mp (h.length_eq hid hid')
    exact fun v hv => (Bool.not_eq_true' _).mp (hkept v hv)
  · intro hnone
    rwa [withoutProven_of_none hnone]

/-- **When it does not matter how evidence is batched.** In general exactly when the second batch
has evidence under the id of the set that the first leaves against those of the remaining
validators against whom it has evidence under the id of the set at hand. When all the evidence of
the second is signed under the id of the set at hand, and the ids of the two sets tell them apart,
exactly when the first batch proves nobody or the second proves nobody whom the first does
not. -/
theorem slash_batches_iff (hlen : P.length + Q.length ≤ maxProofsPerSlash) :
    ((slashEntries X (slashEntries X set P).set Q).set = (slashEntries X set (P ++ Q)).set ↔
      ∀ v ∈ set.validators, 0 < stakeOf set v.pubkey → provenBy X set P v.pubkey = false →
        (HasEvidence X (withoutProven X set P) Q v.pubkey ↔ HasEvidence X set Q v.pubkey)) ∧
    (IdsSeparate X set (withoutProven X set P) →
      (∀ p ∈ Q, ∀ v id a b, EntryEvidence X p v id a b → consensusSetId X set = .ok id) →
      ((slashEntries X (slashEntries X set P).set Q).set = (slashEntries X set (P ++ Q)).set ↔
        (∀ v ∈ set.validators, provenBy X set P v.pubkey = false) ∨
          ∀ v ∈ set.validators, provenBy X set Q v.pubkey = true →
            provenBy X set P v.pubkey = true)) := by
  refine ⟨slashEntries_append_iff hlen, fun hids hsigned => ?_⟩
  rw [slashEntries_append_iff hlen]
  constructor
  · intro hsame
    refine or_iff_not_imp_left.mpr fun hsome v hv hQ => ?_
    by_contra hleft
    obtain ⟨hstake, hevidence⟩ := provenBy_iff.mp hQ
    -- evidence under the new id would be signed under the old one, and they differ
    obtain ⟨id, hid, p, hp, a, b, he⟩ :=
      (hsame v hv hstake ((Bool.not_eq_true _).mp hleft)).mpr hevidence
    exact hsome ((consensusSetId_withoutProven_iff hids (hsigned p hp _ id a b he)).mp hid)
  · rintro (hnone | hold) v hv hstake hleft
    · rw [withoutProven_of_none hnone]
    · have hnot : ¬ HasEvidence X set Q v.pubkey := fun hevidence =>
        absurd (hold v hv (provenBy_iff.mpr ⟨hstake, hevidence⟩)) (ne_true_of_eq_false hleft)
      refine iff_of_false ?_ hnot
      rintro ⟨id, -, p, hp, a, b, he⟩
      exact hnot ⟨id, hsigned p hp _ id a b he, p, hp, a, b, he⟩

end Batches

/-! ## Two validators, one of which attests twice -/

/-- Two validators of an epoch. -/
def duoSet : ValidatorSet := ⟨[⟨"01", 1, none⟩, ⟨"02", 1, none⟩], some 7⟩

/-- The id of their set. -/
def duoSetId : String := valueOr "" (consensusSetId checksumExternals duoSet)

/-- An attestation at height three. -/
def duoAttestation (validator hash : String) : Attestation where
  blockHash := hash
  height := 3
  validator := validator
  suite := "PS-5"
  sig := hexToBytesLocal validator ++ valueOr [] (attestMessage checksumExternals "PS-5" 3 hash
    duoSetId)

/-- The evidence against one of them. -/
def duoProof : EquivocationProof :=
  ⟨"01", 3, "aa", "bb", duoAttestation "01" "aa", duoAttestation "01" "bb"⟩

/-- A proof against the other one, whose second attestation is not signed. -/
def duoForged : EquivocationProof :=
  ⟨"02", 3, "aa", "bb", duoAttestation "02" "aa", ⟨"bb", 3, "02", "PS-5", []⟩⟩

/-- A batch that has both, the evidence twice, and two entries that are no proofs. -/
def duoBatch : List JsValue :=
  [.null, ofProof duoForged, ofProof duoProof, .object 1 [("validator", .text "02"),
    ("blockHashA", .text "aa")], ofProof duoProof]

/-- The one attestation that the other validator made. -/
def duoMade : List MadeAttestation := [⟨3, "aa", duoSetId⟩]

/-- Of the attestations in its name only that one verifies. -/
theorem unforged_duo : Unforged checksumExternals duoSet "02" duoMade duoBatch := by
  intro setId hid p hp side hside a ha hv hsig
  obtain rfl : duoSetId = setId := by
    rw [duoSetId, hid]
    rfl
  have hother : ∀ hash, (ofAttestation (duoAttestation "01" hash)).field "validator" ≠
      .ok (.text "02") := by
    intro hash h
    have hname : "01" = "02" := JsValue.text.inj (Except.ok.inj h)
    exact absurd hname (by decide)
  simp only [List.mem_cons, List.not_mem_nil, or_false] at hside
  have hguilty : (ofProof duoProof).field side = .ok a → False := by
    intro ha
    rcases hside with rfl | rfl
    · obtain rfl := Except.ok.inj ha
      exact hother "aa" hv
    · obtain rfl := Except.ok.inj ha
      exact hother "bb" hv
  rcases hp with _ | ⟨_, _ | ⟨_, _ | ⟨_, _ | ⟨_, _ | ⟨_, hp⟩⟩⟩⟩⟩
  · cases ha
  · rcases hside with rfl | rfl
    · obtain rfl := Except.ok.inj ha
      exact ⟨_, List.mem_cons_self, rfl, _, _, rfl, rfl, rfl, rfl⟩
    · obtain rfl := Except.ok.inj ha
      exact absurd hsig (by decide +kernel)
  · exact (hguilty ha).elim
  · rcases hside with rfl | rfl
    · obtain rfl := Except.ok.inj ha
      cases hv
    · obtain rfl := Except.ok.inj ha
      cases hv
  · exact (hguilty ha).elim
  · cases hp

/-- `slash_exact` on that batch: the set loses the one validator and keeps its epoch. -/
theorem slash_exact_duo :
    (slashEntries checksumExternals duoSet duoBatch).set = ⟨[⟨"02", 1, none⟩], some 7⟩ ∧
    (slashEntries checksumExternals duoSet duoBatch).slashed.length +
      (slashEntries checksumExternals duoSet duoBatch).rejected.length = 5 ∧
    ⟨"02", 1, none⟩ ∈ (slashEntries checksumExternals duoSet duoBatch).set.validators := by
  obtain ⟨hset, -, hcount, -, hhonest⟩ :=
    @slash_exact checksumExternals duoSet duoBatch (by decide)
  have hremain : duoSet.validators.filter (fun v =>
      !provenBy checksumExternals duoSet duoBatch v.pubkey) = [⟨"02", 1, none⟩] := by
    decide +kernel
  rw [hremain] at hset
  refine ⟨hset, hcount, hhonest _ (by decide) duoMade unforged_duo ?_⟩
  intro setId _ e he e' he' _ _ _
  rw [List.mem_singleton.mp he, List.mem_singleton.mp he']

/-- Evidence against a validator of `duoSet`, under the id of that set. -/
def duoEvidence (validator : String) : JsValue :=
  ofProof ⟨validator, 3, "aa", "bb", duoAttestation validator "aa", duoAttestation validator "bb"⟩

/-- What the validator `01` signs verifies under the id of `duoSet` alone. -/
theorem eq_duoSetId {id : String}
    (h : safeVerifyEntry checksumExternals (ofAttestation (duoAttestation "01" "aa")) id = true) :
    id = duoSetId := by
  have hverify : safeVerifyAtt checksumExternals (duoAttestation "01" "aa") id = true := h
  have hactive : "PS-5" ∈ activeSuiteIds := by decide
  have hpub : checksumExternals.hexToBytes "01" = .ok (hexToBytesLocal "01") := by decide +kernel
  rw [safeVerifyAtt, duoAttestation, Externals.signerFor_of_active _ hactive, hpub] at hverify
  have hsig : hexToBytesLocal "01" ++ cborCode (.array [.text "polarseek-attest-v2", .text "PS-5",
      .num 3, .text "aa", .text duoSetId]) = hexToBytesLocal "01" ++ cborCode
        (.array [.text "polarseek-attest-v2", .text "PS-5", .num 3, .text "aa", .text id]) :=
    of_decide_eq_true hverify
  have hcode := cborCode_injective (List.append_cancel_left hsig)
  simp only [Cbor.array.injEq, List.cons.injEq, Cbor.text.injEq] at hcode
  exact hcode.2.2.2.2.1.symm

/-- The ids of their set and of the one without the first of them differ. -/
theorem idsSeparate_duo : IdsSeparate checksumExternals duoSet
    (withoutProven checksumExternals duoSet [duoEvidence "01"]) := by
  refine ⟨fun b hb hb' => ?_, fun b b' hb hb' hdigest => ?_, hexText_injective⟩
  · have hcode := cborCode_injective (Except.ok.inj (hb'.trans hb.symm))
    simp only [consensusSetCbor, Cbor.array.injEq, List.cons.injEq] at hcode
    have hlength := congrArg List.length hcode.2.1
    rwa [List.length_map, List.length_map, sortedByPubkey, sortedByPubkey,
      List.length_insertionSort, List.length_insertionSort] at hlength
  · obtain rfl := Except.ok.inj hb
    obtain rfl := Except.ok.inj hb'
    exact absurd hdigest (by decide +kernel)

/-- `slash_batches_iff` where the second batch proves nothing new. -/
theorem slash_batches_duo :
    (slashEntries checksumExternals
      (slashEntries checksumExternals duoSet [duoEvidence "01"]).set [duoEvidence "01"]).set =
        (slashEntries checksumExternals duoSet ([duoEvidence "01"] ++ [duoEvidence "01"])).set := by
  refine ((slash_batches_iff (by decide)).2 idsSeparate_duo ?_).mpr (.inr fun v _ hv => hv)
  intro p hp v id a b he
  obtain rfl := List.mem_singleton.mp hp
  obtain rfl := Except.ok.inj he.attA
  rw [eq_duoSetId he.sigA, duoSetId]
  rfl

/-- **The second equivocator of an epoch gets away**: both attested twice under the same set, and
one batch removes both, but once the first is removed the evidence against the second counts
for nothing. -/
theorem slash_second_batch_rejected :
    (slashEntries checksumExternals duoSet [duoEvidence "01", duoEvidence "02"]).set =
      ⟨[], some 7⟩ ∧
    (slashEntries checksumExternals
      (slashEntries checksumExternals duoSet [duoEvidence "01"]).set [duoEvidence "02"]).set =
        ⟨[⟨"02", 1, none⟩], some 7⟩ := by
  have hnone : duoSet.validators.filter (fun v => !provenBy checksumExternals duoSet
      [duoEvidence "01", duoEvidence "02"] v.pubkey) = [] := by decide +kernel
  have hone : duoSet.validators.filter (fun v =>
      !provenBy checksumExternals duoSet [duoEvidence "01"] v.pubkey &&
        !provenBy checksumExternals (withoutProven checksumExternals duoSet [duoEvidence "01"])
          [duoEvidence "02"] v.pubkey) = [⟨"02", 1, none⟩] := by decide +kernel
  refine ⟨?_, ?_⟩
  · rw [(slashEntries_eq (by decide)).2, hnone]
    rfl
  · rw [slashEntries_slashEntries (by decide) (by decide), hone]
    rfl

end Nerion
