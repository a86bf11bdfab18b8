import Nerion.Symbolic

/-!
# Equivocation and slashing (`ledger/src/equivocation.ts`)

Two attestations of different blocks at one height by one validator are evidence. The
detector pairs up the attestation lists of two blocks, the verifier checks a pair, and
`slash` removes the validators with a valid pair from the set.

* `mem_detectEquivocations_iff` — the detector takes the *last* entry for the first block
  and the *first* entry for the second one, whatever their signatures are;
* `mem_slashed_iff` — `slash` removes exactly the validators with a valid proof;
* `accountable_safety_iff` — when two finalized blocks conflict, a third of the stake is
  removed exactly when the entries the detector picks expose a third; a validator whose
  genuine attestation is followed (or preceded) by a garbage one is not exposed.
-/

namespace Nerion

structure EquivocationProof where
  /-- the accused -/
  validator : String
  /-- the common height -/
  height : JsNum
  /-- first block -/
  blockHashA : String
  /-- second block -/
  blockHashB : String
  /-- attestation of the first block -/
  attA : Attestation
  /-- attestation of the second block -/
  attB : Attestation

inductive SlashRejectionReason where
  /-- `invalid-proof` -/
  | invalidProof
  | duplicate
  /-- `verification-error` -/
  | verificationError
  deriving DecidableEq

/-- `SlashRejection`; an entry of the batch that is `null` is `none`. -/
structure SlashRejection where
  /-- the accused, or `<malformed>` -/
  validator : String
  /-- the entry -/
  proof : Option EquivocationProof
  /-- why it was not applied -/
  reason : SlashRejectionReason

structure SlashResult where
  /-- the set without the slashed validators -/
  set : ValidatorSet
  /-- the removed validators, in the order of their proofs -/
  slashed : List String
  /-- the entries that removed nobody -/
  rejected : List SlashRejection

section Model

variable (X : LedgerExternals)

def safeVerifyAtt (a : Attestation) (setId : String) : Bool :=
  let checked : Except JsError Bool := do
    let signer ← X.signerFor a.suite
    let msg ← attestMessage X a.suite a.height a.blockHash setId
    let pub ← X.hexToBytes a.validator
    signer.verify a.sig msg pub
  match checked with
  | .ok valid => valid
  | .error _ => false

/-- The loop of `detectEquivocations` over the second list. -/
def detectFrom (height : JsNum) (hA hB : String) (byValidatorA : JsMap String Attestation) :
    List String → List Attestation → List EquivocationProof
  | _, [] => []
  | seen, b :: bs =>
    if b.blockHash ≠ hB ∨ b.validator ∈ seen then detectFrom height hA hB byValidatorA seen bs
    else
      match byValidatorA.get? b.validator with
      | some a =>
        ⟨b.validator, height, hA, hB, a, b⟩ ::
          detectFrom height hA hB byValidatorA (b.validator :: seen) bs
      | none => detectFrom height hA hB byValidatorA seen bs

/-- `byValidatorA`: the entries for a block by validator, later ones over earlier ones. -/
def byValidator (hash : String) (atts : List Attestation) : JsMap String Attestation :=
  JsMap.writeAll (fun a => decide (a.blockHash = hash)) (·.validator) atts JsMap.empty

/-- `MAX_ATTESTATIONS_PER_SIDE`. -/
def maxAttestationsPerSide : ℕ := 4096

def detectEquivocations (blockA : Block) (attsA : List Attestation) (blockB : Block)
    (attsB : List Attestation) : Except JsError (List EquivocationProof) :=
  if maxAttestationsPerSide < attsA.length ∨ maxAttestationsPerSide < attsB.length then .ok []
  else if JsNum.strictEq blockA.header.height blockB.header.height = false then .ok []
  else do
    let hA ← blockHash X blockA.header
    let hB ← blockHash X blockB.header
    if hA = hB then .ok []
    else .ok (detectFrom blockA.header.height hA hB (byValidator hA attsA) [] attsB)

def verifyEquivocationProof (proof : EquivocationProof) (set : ValidatorSet) :
    Except JsError Bool :=
  if proof.blockHashA = proof.blockHashB then .ok false
  else if proof.attA.validator ≠ proof.validator ∨ proof.attB.validator ≠ proof.validator then
    .ok false
  else if proof.attA.blockHash ≠ proof.blockHashA ∨ proof.attB.blockHash ≠ proof.blockHashB then
    .ok false
  else if JsNum.strictEq proof.attA.height proof.attB.height = false then .ok false
  else if JsNum.strictEq proof.height proof.attA.height = false then .ok false
  else if stakeOf set proof.validator ≤ 0 then .ok false
  else do
    let setId ← consensusSetId X set
    .ok (safeVerifyAtt X proof.attA setId && safeVerifyAtt X proof.attB setId)

/-- The accumulators of `slash`; its set `accepted` is that of `slashed`. -/
structure SlashState where
  /-- removed so far -/
  slashed : List String
  /-- rejected so far -/
  rejected : List SlashRejection

/-- One entry of the batch. Reading a `null` entry throws, and the throw is caught. -/
def slashStep (set : ValidatorSet) (s : SlashState) (entry : Option EquivocationProof) :
    SlashState :=
  let reject (validator : String) (reason : SlashRejectionReason) : SlashState :=
    { s with rejected := s.rejected ++ [⟨validator, entry, reason⟩] }
  match entry with
  | none => reject "<malformed>" .verificationError
  | some proof =>
    if proof.validator ∈ s.slashed then reject proof.validator .duplicate
    else
      match verifyEquivocationProof X proof set with
      | .ok true => { s with slashed := s.slashed ++ [proof.validator] }
      | .ok false => reject proof.validator .invalidProof
      | .error _ => reject proof.validator .verificationError

/-- `MAX_PROOFS_PER_SLASH`. -/
def maxProofsPerSlash : ℕ := 4096

def slash (set : ValidatorSet) (proofs : List (Option EquivocationProof)) : SlashResult :=
  if maxProofsPerSlash < proofs.length then ⟨set, [], []⟩
  else
    let s := proofs.foldl (slashStep X set) ⟨[], []⟩
    ⟨{ set with validators := set.validators.filter fun v => v.pubkey ∉ s.slashed }, s.slashed,
      s.rejected⟩

end Model

/-! ## What the detector picks -/

/-- The last entry of a validator for a block: what the detector keeps of the first list. -/
def lastAttestation (hash : String) (atts : List Attestation) (v : String) : Option Attestation :=
  atts.reverse.find? fun a => decide (a.blockHash = hash) && decide (a.validator = v)

/-- The first entry of a validator for a block: what the detector takes of the second. -/
def firstAttestation (hash : String) (atts : List Attestation) (v : String) :
    Option Attestation :=
  atts.find? fun a => decide (a.blockHash = hash) && decide (a.validator = v)

theorem lastAttestation_eq_some {hash v : String} {atts : List Attestation} {a : Attestation}
    (h : lastAttestation hash atts v = some a) :
    a ∈ atts ∧ a.blockHash = hash ∧ a.validator = v := by
  have hp := List.find?_some h
  rw [Bool.and_eq_true, decide_eq_true_iff, decide_eq_true_iff] at hp
  exact ⟨List.mem_reverse.mp (List.mem_of_find?_eq_some h), hp⟩

theorem firstAttestation_eq_some {hash v : String} {atts : List Attestation} {a : Attestation}
    (h : firstAttestation hash atts v = some a) :
    a ∈ atts ∧ a.blockHash = hash ∧ a.validator = v := by
  have hp := List.find?_some h
  rw [Bool.and_eq_true, decide_eq_true_iff, decide_eq_true_iff] at hp
  exact ⟨List.mem_of_find?_eq_some h, hp⟩

section Evidence

variable {X : LedgerExternals}

theorem safeVerifyAtt_iff {a : Attestation} {setId : String} :
    safeVerifyAtt X a setId = true ↔ ∃ signer msg pub, X.signerFor a.suite = .ok signer ∧
      attestMessage X a.suite a.height a.blockHash setId = .ok msg ∧
      X.hexToBytes a.validator = .ok pub ∧ signer.verify a.sig msg pub = .ok true := by
  rw [safeVerifyAtt]
  constructor
  · intro h
    split at h
    · rename_i valid hok
      obtain ⟨signer, hsigner, hok⟩ := Except.bind_eq_ok hok
      obtain ⟨msg, hmsg, hok⟩ := Except.bind_eq_ok hok
      obtain ⟨pub, hpub, hok⟩ := Except.bind_eq_ok hok
      exact ⟨signer, msg, pub, hsigner, hmsg, hpub, h ▸ hok⟩
    · cases h
  · rintro ⟨signer, msg, pub, hsigner, hmsg, hpub, hverify⟩
    rw [hsigner, hmsg, hpub]
    change (match signer.verify a.sig msg pub with | .ok valid => valid | .error _ => false) = true
    rw [hverify]

end Evidence

theorem firstAttestation_cons (hash validator : String) (a : Attestation)
    (atts : List Attestation) :
    firstAttestation hash (a :: atts) validator =
      if a.blockHash = hash ∧ a.validator = validator then some a
      else firstAttestation hash atts validator := by
  rw [firstAttestation, List.find?_cons]
  by_cases h : a.blockHash = hash ∧ a.validator = validator
  · simp [h.1, h.2]
  · rw [if_neg h]
    rcases not_and_or.mp h with h1 | h1 <;> simp [h1, firstAttestation]

/-- The loop over the second list makes one proof for each validator not seen before. -/
theorem mem_detectFrom_iff {height : JsNum} {hA hB : String}
    {byValidatorA : JsMap String Attestation} {seen : List String} {bs : List Attestation}
    {p : EquivocationProof} :
    p ∈ detectFrom height hA hB byValidatorA seen bs ↔ p.validator ∉ seen ∧
      ∃ a b, byValidatorA.get? p.validator = some a ∧
        firstAttestation hB bs p.validator = some b ∧
        p = ⟨p.validator, height, hA, hB, a, b⟩ := by
  induction bs generalizing seen with
  | nil => simp [detectFrom, firstAttestation]
  | cons b bs ih =>
    rw [detectFrom, firstAttestation_cons]
    by_cases hskip : b.blockHash ≠ hB ∨ b.validator ∈ seen
    · -- an entry passed over is of another block or of a validator seen before
      rw [if_pos hskip, ih]
      refine and_congr_right fun hseen => ?_
      rw [if_neg]
      rintro ⟨hb, hv⟩
      rcases hskip with h | h
      · exact h hb
      · exact hseen (hv ▸ h)
    · rw [if_neg hskip]
      obtain ⟨hb, hnew⟩ := not_or.mp hskip
      rw [not_not] at hb
      rcases hget : byValidatorA.get? b.validator with _ | a
      · -- without an entry in the first list there is no proof for this validator
        rw [ih]
        refine and_congr_right fun _ => ?_
        by_cases hv : b.validator = p.validator
        · rw [hv] at hget
          simp [hget]
        · rw [if_neg fun h => hv h.2]
      · rw [List.mem_cons, ih]
        by_cases hv : b.validator = p.validator
        · rw [if_pos ⟨hb, hv⟩, ← hv, hget]
          constructor
          · rintro (rfl | ⟨hmem, -⟩)
            · exact ⟨hnew, a, b, rfl, rfl, rfl⟩
            · exact absurd List.mem_cons_self (hv ▸ hmem)
          · rintro ⟨-, a', b', ha, hb', hp⟩
            cases ha
            cases hb'
            exact Or.inl hp
        · rw [if_neg fun h => hv h.2, List.mem_cons, not_or]
          constructor
          · rintro (rfl | ⟨⟨-, hseen⟩, h⟩)
            · exact absurd rfl hv
            · exact ⟨hseen, h⟩
          · rintro ⟨hseen, h⟩
            exact Or.inr ⟨⟨Ne.symm hv, hseen⟩, h⟩

theorem length_detectFrom (height : JsNum) (hA hB : String)
    (byValidatorA : JsMap String Attestation) (seen : List String) (bs : List Attestation) :
    (detectFrom height hA hB byValidatorA seen bs).length ≤ bs.length := by
  induction bs generalizing seen with
  | nil => exact le_refl 0
  | cons b bs ih =>
    rw [detectFrom]
    split
    · exact (ih seen).trans (Nat.le_succ _)
    · split
      · exact Nat.succ_le_succ (ih _)
      · exact (ih seen).trans (Nat.le_succ _)

section Detection

variable {X : LedgerExternals} {blockA blockB : Block} {attsA attsB : List Attestation}
  {hA hB : String}

/-- **The proofs of the detector**: for each validator with entries in both lists, the last
one for the first block and the first one for the second. -/
theorem mem_detectEquivocations_iff (hlenA : attsA.length ≤ maxAttestationsPerSide)
    (hlenB : attsB.length ≤ maxAttestationsPerSide)
    (hheight : JsNum.strictEq blockA.header.height blockB.header.height = true)
    (hhA : blockHash X blockA.header = .ok hA) (hhB : blockHash X blockB.header = .ok hB)
    (hne : hA ≠ hB) :
    ∃ proofs, detectEquivocations X blockA attsA blockB attsB = .ok proofs ∧
      proofs.length ≤ attsB.length ∧ ∀ p, p ∈ proofs ↔
        ∃ a b, lastAttestation hA attsA p.validator = some a ∧
          firstAttestation hB attsB p.validator = some b ∧
          p = ⟨p.validator, blockA.header.height, hA, hB, a, b⟩ := by
  refine ⟨detectFrom blockA.header.height hA hB (byValidator hA attsA) [] attsB, ?_, ?_, ?_⟩
  · rw [detectEquivocations, if_neg (not_or.mpr ⟨not_lt.mpr hlenA, not_lt.mpr hlenB⟩),
      if_neg (by rw [hheight]; decide)]
    refine Except.bind_ok hhA (Except.bind_ok hhB ?_)
    rw [if_neg hne]
  · exact length_detectFrom _ _ _ _ _ _
  · intro p
    rw [mem_detectFrom_iff, byValidator, JsMap.get?_writeAll, JsMap.get?_empty, Option.or_none]
    exact ⟨fun h => h.2, fun h => ⟨List.not_mem_nil, h⟩⟩

end Detection

/-! ## What `slash` removes -/

section Slashing

variable {X : LedgerExternals} {set : ValidatorSet}

/-- **What a valid proof is.** -/
theorem verifyEquivocationProof_iff {p : EquivocationProof} :
    verifyEquivocationProof X p set = .ok true ↔
      p.blockHashA ≠ p.blockHashB ∧ p.attA.validator = p.validator ∧
        p.attB.validator = p.validator ∧ p.attA.blockHash = p.blockHashA ∧
        p.attB.blockHash = p.blockHashB ∧ JsNum.strictEq p.attA.height p.attB.height = true ∧
        JsNum.strictEq p.height p.attA.height = true ∧ 0 < stakeOf set p.validator ∧
        ∃ setId, consensusSetId X set = .ok setId ∧ safeVerifyAtt X p.attA setId = true ∧
          safeVerifyAtt X p.attB setId = true := by
  constructor
  · intro h
    rw [verifyEquivocationProof] at h
    -- every guard that fires answers `false`
    split at h
    · cases h
    split at h
    · cases h
    split at h
    · cases h
    split at h
    · cases h
    split at h
    · cases h
    split at h
    · cases h
    rename_i hne hval hhash hheights hheight hstake
    obtain ⟨hvalA, hvalB⟩ := not_or.mp hval
    obtain ⟨hhashA, hhashB⟩ := not_or.mp hhash
    obtain ⟨setId, hid, h⟩ := Except.bind_eq_ok h
    obtain ⟨hsigA, hsigB⟩ := Bool.and_eq_true_iff.mp (Except.ok.inj h)
    exact ⟨hne, not_not.mp hvalA, not_not.mp hvalB, not_not.mp hhashA, not_not.mp hhashB,
      (Bool.not_eq_false _).mp hheights, (Bool.not_eq_false _).mp hheight, not_le.mp hstake,
      setId, hid, hsigA, hsigB⟩
  · rintro ⟨hne, hvalA, hvalB, hhashA, hhashB, hheights, hheight, hstake, setId, hid, hsigA,
      hsigB⟩
    rw [verifyEquivocationProof, if_neg hne, if_neg (not_or.mpr ⟨not_not.mpr hvalA,
      not_not.mpr hvalB⟩), if_neg (not_or.mpr ⟨not_not.mpr hhashA, not_not.mpr hhashB⟩), hheights,
      hheight, if_neg (by decide), if_neg (by decide), if_neg (not_le.mpr hstake)]
    refine Except.bind_ok hid ?_
    rw [hsigA, hsigB]
    rfl

theorem mem_slashStep_iff {s : SlashState} {entry : Option EquivocationProof} {v : String} :
    v ∈ (slashStep X set s entry).slashed ↔ v ∈ s.slashed ∨
      ∃ p, entry = some p ∧ p.validator = v ∧ verifyEquivocationProof X p set = .ok true := by
  rcases entry with _ | p
  · simp [slashStep]
  by_cases hdup : p.validator ∈ s.slashed
  · -- a duplicate changes nothing, and its validator is there already
    have hstep : (slashStep X set s (some p)).slashed = s.slashed := by
      simp [slashStep, hdup]
    rw [hstep]
    refine ⟨Or.inl, ?_⟩
    rintro (h | ⟨p', hp', rfl, -⟩)
    · exact h
    · cases hp'
      exact hdup
  · rcases hver : verifyEquivocationProof X p set with e | valid
    · simp [slashStep, hdup, hver]
    · cases valid <;> simp [slashStep, hdup, hver, eq_comm]

theorem mem_slashFold_iff {proofs : List (Option EquivocationProof)} {s : SlashState}
    {v : String} :
    v ∈ (proofs.foldl (slashStep X set) s).slashed ↔ v ∈ s.slashed ∨
      ∃ p, some p ∈ proofs ∧ p.validator = v ∧ verifyEquivocationProof X p set = .ok true := by
  induction proofs generalizing s with
  | nil => simp
  | cons entry proofs ih =>
    rw [List.foldl_cons, ih, mem_slashStep_iff, or_assoc]
    refine or_congr_right ?_
    constructor
    · rintro (⟨p, hp, h⟩ | ⟨p, hp, h⟩)
      · exact ⟨p, hp ▸ List.mem_cons_self, h⟩
      · exact ⟨p, List.mem_cons_of_mem _ hp, h⟩
    · rintro ⟨p, hp, h⟩
      rcases List.mem_cons.mp hp with hp | hp
      · exact Or.inl ⟨p, hp.symm, h⟩
      · exact Or.inr ⟨p, hp, h⟩

/-- **A batch within the cap removes exactly the validators with a valid proof.** -/
theorem mem_slashed_iff {proofs : List (Option EquivocationProof)}
    (hlen : proofs.length ≤ maxProofsPerSlash) {v : String} :
    v ∈ (slash X set proofs).slashed ↔
      ∃ p, some p ∈ proofs ∧ p.validator = v ∧ verifyEquivocationProof X p set = .ok true := by
  rw [slash, if_neg (not_lt.mpr hlen)]
  refine mem_slashFold_iff.trans ?_
  exact ⟨fun h => h.resolve_left List.not_mem_nil, Or.inr⟩

/-- The set that remains is the old one without the removed validators. -/
theorem slash_validators (proofs : List (Option EquivocationProof)) :
    (slash X set proofs).set.validators =
      set.validators.filter fun v => v.pubkey ∉ (slash X set proofs).slashed := by
  rw [slash]
  split
  · exact (List.filter_eq_self.mpr fun v _ => by simp).symm
  · rfl

/-- The stake that leaves the set is that of the removed validators. -/
theorem totalStake_sub_slash (proofs : List (Option EquivocationProof)) :
    totalStake set - totalStake (slash X set proofs).set =
      set.stakeHeld fun k => decide (k ∈ (slash X set proofs).slashed) := by
  rw [totalStake_eq_sum, totalStake_eq_sum, slash_validators, ValidatorSet.stakeHeld]
  generalize (slash X set proofs).slashed = slashed
  induction set.validators with
  | nil => rfl
  | cons v vs ih =>
    by_cases h : v.pubkey ∈ slashed
    · rw [List.filter_cons_of_neg (by simpa using h), List.filter_cons_of_pos (by simpa using h),
        List.map_cons, List.sum_cons, List.map_cons, List.sum_cons, ← ih]
      ring
    · rw [List.filter_cons_of_pos (by simpa using h), List.filter_cons_of_neg (by simpa using h),
        List.map_cons, List.sum_cons, List.map_cons, List.sum_cons, ← ih]
      ring

end Slashing

/-! ## Accountable safety -/

section Accountability

variable (X : LedgerExternals)

/-- Whether an entry is evidence at a height: it is for that height and its signature
passes the check of the evidence. -/
def validFor (set : ValidatorSet) (height : JsNum) (a : Attestation) : Bool :=
  JsNum.strictEq height a.height &&
    match consensusSetId X set with
    | .ok setId => safeVerifyAtt X a setId
    | .error _ => false

/-- Whether the two entries the detector picks for a validator are evidence. -/
def exposed (set : ValidatorSet) (height : JsNum) (hA hB : String)
    (attsA attsB : List Attestation) (v : String) : Bool :=
  (lastAttestation hA attsA v).any (validFor X set height) &&
    (firstAttestation hB attsB v).any (validFor X set height)

/-- No entry for the block from a validator with stake is garbage. -/
def Genuine (set : ValidatorSet) (height : JsNum) (h : String) (atts : List Attestation) : Prop :=
  ∀ a ∈ atts, a.blockHash = h → 0 < stakeOf set a.validator → validFor X set height a = true

variable {X} {set : ValidatorSet} {blockA blockB : Block} {attsA attsB : List Attestation}
  {hA hB setId : String} {height : JsNum}

/-- The verifier's answer on a proof the detector made. -/
theorem verifyEquivocationProof_detected_iff {v : String} {a b : Attestation} (hne : hA ≠ hB)
    (ha : a.blockHash = hA ∧ a.validator = v) (hb : b.blockHash = hB ∧ b.validator = v) :
    verifyEquivocationProof X ⟨v, height, hA, hB, a, b⟩ set = .ok true ↔
      0 < stakeOf set v ∧ validFor X set height a = true ∧ validFor X set height b = true := by
  rw [verifyEquivocationProof_iff, validFor, validFor, Bool.and_eq_true, Bool.and_eq_true]
  constructor
  · rintro ⟨-, -, -, -, -, hheights, hheight, hstake, setId, hid, hsigA, hsigB⟩
    obtain ⟨hnan, heq⟩ := JsNum.strictEq_iff.mp hheight
    have hheightB : JsNum.strictEq height b.height = true :=
      JsNum.strictEq_iff.mpr ⟨hnan, heq.trans (JsNum.strictEq_iff.mp hheights).2⟩
    rw [hid]
    exact ⟨hstake, ⟨hheight, hsigA⟩, hheightB, hsigB⟩
  · rintro ⟨hstake, ⟨hheightA, hsigA⟩, hheightB, hsigB⟩
    obtain ⟨hnan, heq⟩ := JsNum.strictEq_iff.mp hheightA
    have hheights : JsNum.strictEq a.height b.height = true := by
      rw [← heq]
      exact hheightB
    rcases hid : consensusSetId X set with e | setId
    · rw [hid] at hsigA
      cases hsigA
    · rw [hid] at hsigA hsigB
      exact ⟨hne, ha.2, hb.2, ha.1, hb.1, hheights, hheightA, hstake, setId, rfl, hsigA, hsigB⟩

/-- What `slash` removes on the detector's proofs: the exposed validators with stake. -/
theorem mem_slashed_detected_iff {proofs : List EquivocationProof}
    (hlen : proofs.length ≤ maxProofsPerSlash) (hne : hA ≠ hB)
    (hproofs : ∀ p, p ∈ proofs ↔ ∃ a b, lastAttestation hA attsA p.validator = some a ∧
      firstAttestation hB attsB p.validator = some b ∧ p = ⟨p.validator, height, hA, hB, a, b⟩)
    {v : String} :
    v ∈ (slash X set (proofs.map some)).slashed ↔
      0 < stakeOf set v ∧ exposed X set height hA hB attsA attsB v = true := by
  rw [mem_slashed_iff (by rwa [List.length_map]), exposed, Bool.and_eq_true, Option.any_eq_true,
    Option.any_eq_true]
  constructor
  · rintro ⟨p, hp, rfl, hver⟩
    rw [List.mem_map_of_injective (Option.some_injective _)] at hp
    obtain ⟨a, b, ha, hb, heq⟩ := (hproofs p).mp hp
    rw [heq, verifyEquivocationProof_detected_iff hne (lastAttestation_eq_some ha).2
      (firstAttestation_eq_some hb).2] at hver
    exact ⟨hver.1, ⟨a, ha, hver.2.1⟩, b, hb, hver.2.2⟩
  · rintro ⟨hstake, ⟨a, ha, hva⟩, b, hb, hvb⟩
    refine ⟨⟨v, height, hA, hB, a, b⟩, ?_, rfl, ?_⟩
    · rw [List.mem_map_of_injective (Option.some_injective _)]
      exact (hproofs _).mpr ⟨a, b, ha, hb, rfl⟩
    · exact (verifyEquivocationProof_detected_iff hne (lastAttestation_eq_some ha).2
        (firstAttestation_eq_some hb).2).mpr ⟨hstake, hva, hvb⟩

/-- Genuine entries expose a validator that attested both blocks. -/
theorem exposed_of_genuine {v : String} (hstake : 0 < stakeOf set v)
    (hgA : Genuine X set height hA attsA) (hgB : Genuine X set height hB attsB)
    (hvA : ∃ a ∈ attsA, a.blockHash = hA ∧ a.validator = v)
    (hvB : ∃ b ∈ attsB, b.blockHash = hB ∧ b.validator = v) :
    exposed X set height hA hB attsA attsB v = true := by
  have hlast : ∃ a, lastAttestation hA attsA v = some a := by
    obtain ⟨a, ha, hhash, hval⟩ := hvA
    refine Option.isSome_iff_exists.mp (List.find?_isSome.mpr ⟨a, List.mem_reverse.mpr ha, ?_⟩)
    simp [hhash, hval]
  have hfirst : ∃ b, firstAttestation hB attsB v = some b := by
    obtain ⟨b, hb, hhash, hval⟩ := hvB
    refine Option.isSome_iff_exists.mp (List.find?_isSome.mpr ⟨b, hb, ?_⟩)
    simp [hhash, hval]
  obtain ⟨a, ha⟩ := hlast
  obtain ⟨b, hb⟩ := hfirst
  obtain ⟨hmemA, hhashA, hvalA⟩ := lastAttestation_eq_some ha
  obtain ⟨hmemB, hhashB, hvalB⟩ := firstAttestation_eq_some hb
  rw [exposed, ha, hb, Option.any_some, Option.any_some,
    hgA a hmemA hhashA (hvalA.symm ▸ hstake), hgB b hmemB hhashB (hvalB.symm ▸ hstake)]
  rfl

/-- Two conflicting finalized blocks with genuine entries expose a third of the stake. -/
theorem third_exposed {prevA prevB idA idB : String} {tA tB : Tally}
    (hfA : Finalizes X blockA attsA set prevA 2 3 .none hA idA tA)
    (hfB : Finalizes X blockB attsB set prevB 2 3 .none hB idB tB)
    (hgA : Genuine X set height hA attsA) (hgB : Genuine X set height hB attsB) :
    totalStake set ≤ 3 * set.stakeHeld (exposed X set height hA hB attsA attsB) := by
  have hinter := hfA.isQuorum.inter_weight (stakeOf_nonneg set) (by decide) hfB.isQuorum
  have hle : ∑ k ∈ tA.counted.toFinset ∩ tB.counted.toFinset, stakeOf set k ≤
      set.stakeHeld (exposed X set height hA hB attsA attsB) := by
    refine ValidatorSet.sum_le_stakeHeld hfA.wellFormed.nodup
      (Finset.inter_subset_left.trans hfA.isQuorum.subset) fun v hv => ?_
    obtain ⟨hvA, hvB⟩ := Finset.mem_inter.mp hv
    rw [List.mem_toFinset] at hvA hvB
    obtain ⟨a, ha, hvalA, hatA, -⟩ := hfA.attested hvA
    obtain ⟨b, hb, hvalB, hatB, -⟩ := hfB.attested hvB
    exact exposed_of_genuine (hfA.mem_counted_iff.mp hvA).1 hgA hgB
      ⟨a, ha, (attests_iff.mp hatA).1, hvalA⟩ ⟨b, hb, (attests_iff.mp hatB).1, hvalB⟩
  rw [ValidatorSet.sum_stakeOf hfA.wellFormed.nodup] at hinter
  have hnum : (2 : ℤ) * JsNum.toInt 2 - JsNum.toInt 3 = 1 := by decide
  have hden : JsNum.toInt 3 = 3 := by decide
  rw [hnum, hden, one_mul] at hinter
  exact hinter.trans (mul_le_mul_of_nonneg_left hle (by decide))

/-- The stake `slash` removes on the detector's proofs is the exposed stake. -/
theorem slash_detected_stake (hset : set.WellFormed)
    (hlenA : attsA.length ≤ maxAttestationsPerSide)
    (hlenB : attsB.length ≤ maxAttestationsPerSide)
    (hheight : JsNum.strictEq blockA.header.height blockB.header.height = true)
    (hhA : blockHash X blockA.header = .ok hA) (hhB : blockHash X blockB.header = .ok hB)
    (hne : hA ≠ hB) :
    ∃ proofs, detectEquivocations X blockA attsA blockB attsB = .ok proofs ∧
      totalStake set - totalStake (slash X set (proofs.map some)).set =
        set.stakeHeld (exposed X set blockA.header.height hA hB attsA attsB) := by
  obtain ⟨proofs, hdetect, hlen, hproofs⟩ :=
    mem_detectEquivocations_iff hlenA hlenB hheight hhA hhB hne
  refine ⟨proofs, hdetect, ?_⟩
  rw [totalStake_sub_slash]
  refine ValidatorSet.stakeHeld_congr hset.nodup fun v hv => ?_
  rw [Bool.eq_iff_iff, decide_eq_true_iff,
    mem_slashed_detected_iff (hlen.trans hlenB) hne hproofs]
  exact and_iff_right hv

end Accountability

/-! ## A set with one validator -/

/-- A single validator with all the stake. -/
def soleValidator : ValidatorSet := ⟨[⟨"01", 1, none⟩], none⟩

theorem soleValidator_wellFormed : soleValidator.WellFormed :=
  ValidatorSet.isWellFormedStakeSet_iff.mp (by decide)

theorem soleValidator_stakeHeld {p : String → Bool} (hp : p "01" = false) :
    soleValidator.stakeHeld p = 0 := by
  have hnone : soleValidator.validators.filter (fun v => p v.pubkey) = [] := by
    simp [soleValidator, hp]
  rw [ValidatorSet.stakeHeld, hnone]
  rfl

/-- The sole validator's block that anchors a root, at height zero. -/
def soleBlock (payloadRoot : String) : Block := symbolicBlock soleValidator "" payloadRoot

/-- The sole validator's attestation of `soleBlock`. -/
def soleEntry (payloadRoot : String) : Attestation :=
  symbolicAttestation soleValidator (soleBlock payloadRoot) "01"

theorem soleBlock_height (payloadRoot : String) : (soleBlock payloadRoot).header.height = 0 := rfl

theorem soleBlock_hash_ne {p q : String} (h : p ≠ q) :
    symbolicHash (soleBlock p).header ≠ symbolicHash (soleBlock q).header :=
  symbolicHash_ne soleValidator "" h

/-- One genuine attestation of the sole validator finalizes its block, whatever else the
list holds in its name. -/
theorem soleBlock_finalized (payloadRoot : String) (rest : List Attestation)
    (hlen : rest.length < 256) (hrest : ∀ a ∈ rest, a.validator = "01") :
    ∃ v, verifyFinalized symbolicExternals (soleBlock payloadRoot) (soleEntry payloadRoot :: rest)
        soleValidator "" 2 3 .none = .ok v ∧ v.finalized = true := by
  have hstake : 0 < stakeOf soleValidator "01" := by decide
  have hb := leaderBlock_symbolicBlock soleValidator "" payloadRoot
  exact verifyFinalized_finalized_iff.mpr ⟨_, _, _, hb.finalizes soleValidator_wellFormed
    (by decide) (by decide) (by decide +kernel) hlen (hb.tally_own hstake hrest)
    (by decide +kernel)⟩

/-- The sole validator's attestation is evidence. -/
theorem validFor_soleEntry (payloadRoot : String) :
    validFor symbolicExternals soleValidator 0 (soleEntry payloadRoot) = true := by
  have hheight : JsNum.strictEq 0 (soleEntry payloadRoot).height = true := by
    change JsNum.strictEq 0 0 = true
    decide +kernel
  have hactive : "PS-5" ∈ activeSuiteIds := by decide
  have hpub : symbolicExternals.hexToBytes "01" = .ok (hexToBytesLocal "01") := by decide +kernel
  have hsig : safeVerifyAtt symbolicExternals (soleEntry payloadRoot)
      (symbolicSetId soleValidator) = true :=
    safeVerifyAtt_iff.mpr ⟨_, _, _, Externals.signerFor_of_active _ hactive, rfl, hpub,
      congrArg Except.ok (decide_eq_true rfl)⟩
  rw [validFor, hheight, consensusSetId_symbolic]
  exact hsig

theorem genuine_soleEntry (payloadRoot hash : String) :
    Genuine symbolicExternals soleValidator 0 hash [soleEntry payloadRoot] := by
  intro a ha _ _
  rw [List.mem_singleton.mp ha]
  exact validFor_soleEntry payloadRoot

/-- **Accountable safety, and what it depends on.** When two blocks of one height with
different hashes are both finalized at two thirds, the detector's proofs remove at least a
third of the stake exactly when the entries it picks — the last one of each validator for
the first block, the first one for the second — are evidence against a third. That is so
whenever no entry for either block from a validator with stake is garbage. -/
theorem accountable_safety_iff (X : LedgerExternals) {set : ValidatorSet} {blockA blockB : Block}
    {attsA attsB : List Attestation} {prevA prevB hA hB : String} {vA vB : LightClientVerdict}
    (hlenA : attsA.length ≤ maxAttestationsPerSide)
    (hlenB : attsB.length ≤ maxAttestationsPerSide)
    (hheight : blockA.header.height = blockB.header.height)
    (hhA : blockHash X blockA.header = .ok hA) (hhB : blockHash X blockB.header = .ok hB)
    (hne : hA ≠ hB)
    (hvA : verifyFinalized X blockA attsA set prevA 2 3 .none = .ok vA)
    (hfinA : vA.finalized = true)
    (hvB : verifyFinalized X blockB attsB set prevB 2 3 .none = .ok vB)
    (hfinB : vB.finalized = true) :
    ∃ proofs, detectEquivocations X blockA attsA blockB attsB = .ok proofs ∧
      (totalStake set ≤ 3 * (totalStake set - totalStake (slash X set (proofs.map some)).set) ↔
        totalStake set ≤
          3 * set.stakeHeld (exposed X set blockA.header.height hA hB attsA attsB)) ∧
      (Genuine X set blockA.header.height hA attsA → Genuine X set blockA.header.height hB attsB →
        totalStake set ≤
          3 * (totalStake set - totalStake (slash X set (proofs.map some)).set)) := by
  obtain ⟨hA', idA, tA, hfA⟩ := verifyFinalized_finalized_iff.mp ⟨vA, hvA, hfinA⟩
  obtain ⟨hB', idB, tB, hfB⟩ := verifyFinalized_finalized_iff.mp ⟨vB, hvB, hfinB⟩
  obtain rfl : hA' = hA := Except.ok.inj (hfA.hash.symm.trans hhA)
  obtain rfl : hB' = hB := Except.ok.inj (hfB.hash.symm.trans hhB)
  have hstrict : JsNum.strictEq blockA.header.height blockB.header.height = true :=
    JsNum.strictEq_iff.mpr ⟨hfA.height_ne_nan, hheight⟩
  obtain ⟨proofs, hdetect, hremoved⟩ :=
    slash_detected_stake hfA.wellFormed hlenA hlenB hstrict hhA hhB hne
  refine ⟨proofs, hdetect, ?_, fun hgA hgB => ?_⟩
  · rw [hremoved]
  · rw [hremoved]
    exact third_exposed hfA hfB hgA hgB

/-- `accountable_safety_iff` where the sole validator equivocates and nothing hides it. -/
theorem accountable_safety_iff_sole :
    ∃ proofs, detectEquivocations symbolicExternals (soleBlock "a") [soleEntry "a"]
        (soleBlock "b") [soleEntry "b"] = .ok proofs ∧
      totalStake soleValidator ≤ 3 * (totalStake soleValidator -
        totalStake (slash symbolicExternals soleValidator (proofs.map some)).set) := by
  obtain ⟨vA, hvA, hfinA⟩ := soleBlock_finalized "a" [] (by decide)
    (fun a ha => absurd ha List.not_mem_nil)
  obtain ⟨vB, hvB, hfinB⟩ := soleBlock_finalized "b" [] (by decide)
    (fun a ha => absurd ha List.not_mem_nil)
  obtain ⟨proofs, hdetect, -, hsafe⟩ := accountable_safety_iff symbolicExternals (by decide)
    (by decide) ((soleBlock_height "a").trans (soleBlock_height "b").symm)
    (blockHash_symbolic _) (blockHash_symbolic _) (soleBlock_hash_ne (by decide)) hvA hfinA hvB
    hfinB
  rw [soleBlock_height] at hsafe
  exact ⟨proofs, hdetect, hsafe (genuine_soleEntry "a" _) (genuine_soleEntry "b" _)⟩

/-! ## A validator that escapes -/

/-- An entry without a signature is no evidence. -/
theorem validFor_garbage (set : ValidatorSet) (height : JsNum) (block : Block) (v : String) :
    validFor symbolicExternals set height (garbageAttestation block v) = false := by
  by_contra htrue
  have hsig := (Bool.and_eq_true_iff.mp ((Bool.not_eq_false _).mp htrue)).2
  obtain ⟨signer, msg, pub, hsigner, hmsg, -, hverify⟩ := safeVerifyAtt_iff.mp hsig
  have hactive : "PS-5" ∈ activeSuiteIds := by decide
  obtain rfl : symbolicSigner = signer :=
    Except.ok.inj ((Externals.signerFor_of_active _ hactive).symm.trans hsigner)
  -- a signature is as long as the message, and no message is empty
  have hnil : pub ++ msg = [] := (of_decide_eq_true (Except.ok.inj hverify)).symm
  obtain rfl := (List.append_eq_nil_iff.mp hnil).2
  exact absurd (Except.ok.inj hmsg) (by rw [cborCode]; exact List.cons_ne_nil _ _)

/-- A validator whose last entry is unsigned is not exposed. -/
theorem not_exposed_garbage (height : JsNum) (attsB : List Attestation) (hB : String) :
    exposed symbolicExternals soleValidator height (symbolicHash (soleBlock "a").header) hB
      [soleEntry "a", garbageAttestation (soleBlock "a") "01"] attsB "01" = false := by
  have hlast : lastAttestation (symbolicHash (soleBlock "a").header)
      [soleEntry "a", garbageAttestation (soleBlock "a") "01"] "01" =
        some (garbageAttestation (soleBlock "a") "01") := by
    simp [lastAttestation, garbageAttestation]
  rw [exposed, hlast, Option.any_some, validFor_garbage, Bool.false_and]

/-- **Accountable safety fails**: the sole validator attests two blocks of one height, both
finalize, and an unsigned entry after its first attestation keeps it in the set. -/
theorem slash_misses_equivocator :
    (soleBlock "a").header.height = (soleBlock "b").header.height ∧
      blockHash symbolicExternals (soleBlock "a").header ≠
        blockHash symbolicExternals (soleBlock "b").header ∧
      ∃ vA vB proofs,
        verifyFinalized symbolicExternals (soleBlock "a")
            [soleEntry "a", garbageAttestation (soleBlock "a") "01"] soleValidator "" 2 3 .none =
          .ok vA ∧ vA.finalized = true ∧
        verifyFinalized symbolicExternals (soleBlock "b") [soleEntry "b"] soleValidator "" 2 3
          .none = .ok vB ∧ vB.finalized = true ∧
        detectEquivocations symbolicExternals (soleBlock "a")
            [soleEntry "a", garbageAttestation (soleBlock "a") "01"] (soleBlock "b")
            [soleEntry "b"] = .ok proofs ∧
        ¬ totalStake soleValidator ≤ 3 * (totalStake soleValidator -
          totalStake (slash symbolicExternals soleValidator (proofs.map some)).set) := by
  have hne := soleBlock_hash_ne (by decide : "a" ≠ "b")
  obtain ⟨vA, hvA, hfinA⟩ := soleBlock_finalized "a"
    [garbageAttestation (soleBlock "a") "01"] (by decide)
    (fun a ha => by rw [List.mem_singleton.mp ha]; rfl)
  obtain ⟨vB, hvB, hfinB⟩ := soleBlock_finalized "b" [] (by decide)
    (fun a ha => absurd ha List.not_mem_nil)
  have hheight : JsNum.strictEq (soleBlock "a").header.height (soleBlock "b").header.height =
      true := by
    decide +kernel
  obtain ⟨proofs, hdetect, hremoved⟩ := @slash_detected_stake symbolicExternals soleValidator
    (soleBlock "a") (soleBlock "b") [soleEntry "a", garbageAttestation (soleBlock "a") "01"]
    [soleEntry "b"] _ _ soleValidator_wellFormed (by decide) (by decide) hheight
    (blockHash_symbolic _) (blockHash_symbolic _) hne
  refine ⟨(soleBlock_height "a").trans (soleBlock_height "b").symm,
    fun h => hne (Except.ok.inj h), vA, vB, proofs, hvA, hfinA, hvB, hfinB, hdetect, ?_⟩
  rw [hremoved, soleValidator_stakeHeld (not_exposed_garbage _ _ _)]
  decide

end Nerion
