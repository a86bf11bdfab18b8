import Nerion.Sortition

/-!
# Leader eligibility and view changes (`ledger/src/leader.ts`)

A proposer is eligible when its VRF output falls into its own interval of the stake line;
a round above zero needs a certificate that a quorum timed out the round before. The
certificate and the finality check of the chain count votes with the same loop, `tally`.

* `tally_counted_iff` — a validator is counted when its *first* relevant vote verifies;
* `tally_isQuorum` — a tally that meets the threshold is a weighted quorum.
-/

namespace Nerion

/-! ## Counting distinct staked voters -/

/-- The accumulators of a counting loop. -/
structure Tally where
  /-- validators whose vote was counted -/
  counted : List String
  /-- validators whose vote was put to the signature check -/
  attempted : List String
  /-- stake counted so far -/
  stake : ℤ

namespace Tally

/-- The accumulators at the start of a loop. -/
def zero : Tally := ⟨[], [], 0⟩

/-- One signature check: only a valid one is counted. -/
def attempt (t : Tally) (validator : String) (stake : ℤ) (valid : Bool) : Tally :=
  if valid then ⟨validator :: t.counted, validator :: t.attempted, t.stake + stake⟩
  else { t with attempted := validator :: t.attempted }

end Tally

section Counting

variable {α : Type} (stakeBy : JsMap String ℤ) (relevant : α → Bool) (validator : α → String)
  (check : α → Except JsError Bool)

/-- The loop: skip what is not for this vote, a validator counted before, one without
stake, one tried before; the others get one signature check. -/
def tally : Tally → List α → Except JsError Tally
  | t, [] => .ok t
  | t, a :: as =>
    let stake := (stakeBy.get? (validator a)).getD 0
    if relevant a = false then tally t as
    else if validator a ∈ t.counted then tally t as
    else if stake ≤ 0 then tally t as
    else if validator a ∈ t.attempted then tally t as
    else do
      let valid ← check a
      tally (t.attempt (validator a) stake valid) as

variable {stakeBy relevant validator check}

/-- One iteration: the entry is passed over, or it is put to the signature check. -/
theorem tally_cons {t t' : Tally} {a : α} {as : List α}
    (h : tally stakeBy relevant validator check t (a :: as) = .ok t') :
    ((relevant a = false ∨ validator a ∈ t.counted ∨ (stakeBy.get? (validator a)).getD 0 ≤ 0 ∨
        validator a ∈ t.attempted) ∧ tally stakeBy relevant validator check t as = .ok t') ∨
      (relevant a = true ∧ validator a ∉ t.counted ∧ 0 < (stakeBy.get? (validator a)).getD 0 ∧
        validator a ∉ t.attempted ∧ ∃ valid, check a = .ok valid ∧
        tally stakeBy relevant validator check
          (t.attempt (validator a) ((stakeBy.get? (validator a)).getD 0) valid) as = .ok t') := by
  rw [tally] at h
  split at h
  · exact Or.inl ⟨Or.inl ‹_›, h⟩
  split at h
  · exact Or.inl ⟨Or.inr (Or.inl ‹_›), h⟩
  split at h
  · exact Or.inl ⟨Or.inr (Or.inr (Or.inl ‹_›)), h⟩
  split at h
  · exact Or.inl ⟨Or.inr (Or.inr (Or.inr ‹_›)), h⟩
  rename_i hrel hcounted hstake hattempted
  obtain ⟨valid, hvalid, h⟩ := Except.bind_eq_ok h
  exact Or.inr ⟨(Bool.not_eq_false _).mp hrel, hcounted, not_le.mp hstake, hattempted, valid,
    hvalid, h⟩

/-- The invariant rule of the loop: only signature checks of new, staked validators touch
the accumulators. -/
theorem tally_invariant {P : Tally → Prop}
    (hstep : ∀ t v valid, P t → v ∉ t.counted → 0 < (stakeBy.get? v).getD 0 →
      P (t.attempt v ((stakeBy.get? v).getD 0) valid))
    {as : List α} {t t' : Tally} (h : tally stakeBy relevant validator check t as = .ok t')
    (ht : P t) : P t' := by
  induction as generalizing t with
  | nil =>
    cases h
    exact ht
  | cons a as ih =>
    rcases tally_cons h with ⟨_, h⟩ | ⟨_, hc, hs, _, valid, _, h⟩
    · exact ih h ht
    · exact ih h (hstep t _ valid ht hc hs)

/-- Validators are counted once, and the stake is theirs. -/
theorem tally_stake {as : List α} {t : Tally}
    (h : tally stakeBy relevant validator check Tally.zero as = .ok t) :
    t.counted.Nodup ∧ t.stake = (t.counted.map fun v => (stakeBy.get? v).getD 0).sum := by
  refine tally_invariant (P := fun t => t.counted.Nodup ∧
    t.stake = (t.counted.map fun v => (stakeBy.get? v).getD 0).sum) ?_ h ⟨List.nodup_nil, rfl⟩
  rintro t v valid ⟨hnodup, hsum⟩ hnew _
  cases valid with
  | false => exact ⟨hnodup, hsum⟩
  | true =>
    refine ⟨List.nodup_cons.mpr ⟨hnew, hnodup⟩, ?_⟩
    change t.stake + _ = (List.map _ (v :: t.counted)).sum
    rw [List.map_cons, List.sum_cons, hsum, add_comm]

/-- The first vote of all, when it is relevant and its validator has stake, is checked. -/
theorem tally_zero_cons {a : α} {as : List α} {valid : Bool} (hrel : relevant a = true)
    (hstake : 0 < (stakeBy.get? (validator a)).getD 0) (hcheck : check a = .ok valid) :
    tally stakeBy relevant validator check Tally.zero (a :: as) =
      tally stakeBy relevant validator check
        (Tally.zero.attempt (validator a) ((stakeBy.get? (validator a)).getD 0) valid) as := by
  have hcounted : validator a ∉ Tally.zero.counted := List.not_mem_nil
  have hattempted : validator a ∉ Tally.zero.attempted := List.not_mem_nil
  rw [tally, hrel, if_neg (by decide), if_neg hcounted, if_neg (not_le.mpr hstake),
    if_neg hattempted, hcheck]
  rfl

/-- Further votes of validators counted before change nothing. -/
theorem tally_of_counted {t : Tally} {as : List α} (h : ∀ a ∈ as, validator a ∈ t.counted) :
    tally stakeBy relevant validator check t as = .ok t := by
  induction as with
  | nil => rfl
  | cons a as ih =>
    have hrest := ih fun b hb => h b (List.mem_cons_of_mem _ hb)
    rw [tally, if_pos (h a List.mem_cons_self), hrest, ite_self]

/-- Votes that are not for this vote change nothing. -/
theorem tally_of_irrelevant {t : Tally} {as : List α} (h : ∀ a ∈ as, relevant a = false) :
    tally stakeBy relevant validator check t as = .ok t := by
  induction as with
  | nil => rfl
  | cons a as ih =>
    rw [tally, if_pos (h a List.mem_cons_self)]
    exact ih fun b hb => h b (List.mem_cons_of_mem _ hb)

/-- A loop over images is a loop over what they are images of. -/
theorem tally_map {γ : Type} (f : γ → α) (t : Tally) (cs : List γ) :
    tally stakeBy relevant validator check t (cs.map f) =
      tally stakeBy (relevant ∘ f) (validator ∘ f) (check ∘ f) t cs := by
  induction cs generalizing t with
  | nil => rfl
  | cons c cs ih =>
    rw [List.map_cons, tally, tally]
    simp only [ih, Function.comp_apply]

/-- The loop returns when the check of every relevant vote does. -/
theorem exists_tally_eq_ok (t : Tally) {as : List α}
    (h : ∀ a ∈ as, relevant a = true → ∃ valid, check a = .ok valid) :
    ∃ t', tally stakeBy relevant validator check t as = .ok t' := by
  induction as generalizing t with
  | nil => exact ⟨t, rfl⟩
  | cons a as ih =>
    have hrest := fun t => ih t fun b hb => h b (List.mem_cons_of_mem _ hb)
    rw [tally]
    split
    · exact hrest t
    rename_i hrel
    split
    · exact hrest t
    split
    · exact hrest t
    split
    · exact hrest t
    obtain ⟨valid, hvalid⟩ := h a List.mem_cons_self ((Bool.not_eq_false _).mp hrel)
    rw [hvalid]
    exact hrest _

/-- The first relevant vote of a validator. -/
def firstVote (relevant : α → Bool) (validator : α → String) (as : List α) (v : String) :
    Option α :=
  as.find? fun a => relevant a && decide (validator a = v)

theorem mem_tally_counted {as : List α} {t t' : Tally} {v : String}
    (hsub : ∀ v ∈ t.counted, v ∈ t.attempted)
    (h : tally stakeBy relevant validator check t as = .ok t') :
    v ∈ t'.counted ↔ v ∈ t.counted ∨ (v ∉ t.attempted ∧ 0 < (stakeBy.get? v).getD 0 ∧
      ∃ a, firstVote relevant validator as v = some a ∧ check a = .ok true) := by
  induction as generalizing t with
  | nil =>
    cases h
    simp [firstVote]
  | cons a as ih =>
    have hcons : firstVote relevant validator (a :: as) v =
        if relevant a = true ∧ validator a = v then some a
        else firstVote relevant validator as v := by
      rw [firstVote, List.find?_cons]
      by_cases hr : relevant a = true ∧ validator a = v
      · simp [hr.1, hr.2]
      · rw [if_neg hr]
        rcases not_and_or.mp hr with h1 | h1 <;> simp [h1, firstVote]
    rcases tally_cons h with ⟨hskip, h⟩ | ⟨hrel, hc, hs, hat, valid, hvalid, h⟩
    · -- a vote passed over is not the first relevant one of an untried, staked validator
      rw [ih hsub h, hcons]
      refine or_congr_right (and_congr_right fun hv => and_congr_right fun hpos => ?_)
      rw [if_neg]
      rintro ⟨hr, rfl⟩
      rcases hskip with h1 | h1 | h1 | h1
      · rw [hr] at h1
        cases h1
      · exact hv (hsub _ h1)
      · exact absurd hpos (not_lt.mpr h1)
      · exact hv h1
    · have hsub' : ∀ u ∈ (t.attempt (validator a) ((stakeBy.get? (validator a)).getD 0)
          valid).counted, u ∈ (t.attempt (validator a) ((stakeBy.get? (validator a)).getD 0)
          valid).attempted := by
        intro u hu
        cases valid with
        | false => exact List.mem_cons_of_mem _ (hsub u hu)
        | true =>
          rcases List.mem_cons.mp hu with rfl | hu
          · exact List.mem_cons_self
          · exact List.mem_cons_of_mem _ (hsub u hu)
      rw [ih hsub' h, hcons]
      by_cases hv : validator a = v
      · subst hv
        cases valid <;> simp [Tally.attempt, hrel, hc, hat, hs, hvalid]
      · rw [if_neg fun hr => hv hr.2]
        cases valid <;> simp [Tally.attempt, Ne.symm hv]

/-- **A validator is counted exactly when it has stake and its first relevant vote
verifies**; later votes of the same validator are not looked at. -/
theorem tally_counted_iff {as : List α} {t : Tally} {v : String}
    (h : tally stakeBy relevant validator check Tally.zero as = .ok t) :
    v ∈ t.counted ↔ 0 < (stakeBy.get? v).getD 0 ∧
      ∃ a, firstVote relevant validator as v = some a ∧ check a = .ok true := by
  rw [mem_tally_counted (fun _ hv => absurd hv List.not_mem_nil) h]
  simp [Tally.zero]

/-- What the first relevant vote is. -/
theorem firstVote_eq_some {as : List α} {v : String} {a : α}
    (h : firstVote relevant validator as v = some a) :
    a ∈ as ∧ relevant a = true ∧ validator a = v := by
  have hp := List.find?_some h
  rw [Bool.and_eq_true, decide_eq_true_iff] at hp
  exact ⟨List.mem_of_find?_eq_some h, hp.1, hp.2⟩

end Counting

/-- The stake counted over a set's index is carried by distinct members. -/
theorem tally_isQuorum {α : Type} {set : ValidatorSet} {relevant : α → Bool}
    {validator : α → String} {check : α → Except JsError Bool} {as : List α} {t : Tally}
    {num den : ℤ} (hset : set.WellFormed)
    (h : tally (stakeIndex set) relevant validator check Tally.zero as = .ok t)
    (hmet : num * totalStake set ≤ t.stake * den) :
    IsQuorum (stakeOf set) set.pubkeys num den t.counted.toFinset := by
  obtain ⟨hnodup, hsum⟩ := tally_stake h
  refine ⟨fun v hv => ?_, ?_⟩
  · have hpos := ((tally_counted_iff h).mp (List.mem_toFinset.mp hv)).1
    rw [get?_stakeIndex] at hpos
    exact List.mem_toFinset.mpr (mem_of_stakeOf_pos hpos)
  · rw [ValidatorSet.sum_stakeOf hset.nodup, List.sum_toFinset _ hnodup, mul_comm den]
    refine hmet.trans (le_of_eq ?_)
    rw [hsum]
    congr 2
    exact List.map_congr_left fun v _ => get?_stakeIndex set v

/-! ## Thresholds -/

/-- `validThreshold`: `1 <= finalityNum <= finalityDen`, both integers. -/
def validThreshold (finalityNum finalityDen : JsNum) : Bool :=
  finalityNum.isInteger && finalityDen.isInteger && JsNum.le 1 finalityNum &&
    JsNum.le 1 finalityDen && JsNum.le finalityNum finalityDen

theorem validThreshold_natCast {num den : ℕ} :
    validThreshold num den = true ↔ 1 ≤ num ∧ num ≤ den := by
  have hone : (1 : JsNum) = ((1 : ℕ) : JsNum) := rfl
  simp only [validThreshold, JsNum.isInteger_natCast, hone, JsNum.le_natCast, Bool.true_and,
    Bool.and_eq_true, decide_eq_true_iff]
  exact ⟨fun h => ⟨h.1.1, h.2⟩, fun h => ⟨⟨h.1, h.1.trans h.2⟩, h.2⟩⟩

/-- A valid threshold is a pair of natural numbers. -/
theorem exists_natCast_of_validThreshold {num den : JsNum} (h : validThreshold num den = true) :
    ∃ n d : ℕ, num = n ∧ den = d ∧ 1 ≤ n ∧ n ≤ d := by
  have hparts := h
  simp only [validThreshold, Bool.and_eq_true] at hparts
  obtain ⟨⟨⟨⟨hn, hd⟩, hn1⟩, hd1⟩, -⟩ := hparts
  have hpos : ∀ {x : JsNum}, JsNum.le 1 x = true → JsNum.lt x 0 = false := by
    intro x hx
    by_contra hlt
    have hbad := JsNum.lt_of_le_of_lt hx ((Bool.not_eq_false _).mp hlt)
    exact absurd hbad (by decide)
  obtain ⟨n, rfl⟩ := JsNum.exists_natCast_of_isInteger hn (hpos hn1)
  obtain ⟨d, rfl⟩ := JsNum.exists_natCast_of_isInteger hd (hpos hd1)
  exact ⟨n, d, rfl, rfl, validThreshold_natCast.mp h⟩

/-! ## VRF eligibility -/

section Eligibility

variable {N : Type} [WireNumber N] (X : LedgerExternals)

def vrfAlpha (prevHash : String) (round : N) : Except JsError Bytes :=
  X.encodeCanonical (.array [.text "polarseek-vrf-v1", .text prevHash, WireNumber.cbor round])

def vrfLeaderEligible (set : ValidatorSet) (proposer : String) (beta : Bytes) :
    Except JsError Bool :=
  let total := totalStake set
  if total ≤ 0 then .ok false
  else do
    let draw ← bigIntOfHex (X.bytesToHex beta)
    match ownerFrom (draw.tmod total) 0 (sortedByPubkey set.validators) with
    | some v => .ok (decide (v.pubkey = proposer))
    | none => .ok false

/-! ## View changes -/

structure TimeoutVote (N : Type := JsNum) where
  /-- height of the round that timed out -/
  height : N
  /-- its parent hash -/
  prevHash : String
  round : N
  /-- hex key of the voter -/
  validator : String
  /-- suite of the signature -/
  suite : String
  /-- the signature -/
  sig : Bytes

structure ViewChangeCert (N : Type := JsNum) where
  /-- the round that timed out -/
  round : N
  votes : List (TimeoutVote N)

def viewChangeMessage (suite : String) (height : N) (prevHash : String) (round : JsNum)
    (setId : String) : Except JsError Bytes :=
  X.encodeCanonical (.array [.text "polarseek-timeout-v2", .text suite, WireNumber.cbor height,
    .text prevHash, .num round, .text setId])

/-- `safeVerify` and `safeVerifyTimeout`: a check that throws is a check that fails. -/
def safeVerify (suite : String) (sig msg pub : Bytes) : Bool :=
  match (X.signerFor suite).bind fun signer => signer.verify sig msg pub with
  | .ok valid => valid
  | .error _ => false

/-- `verifyViewChangeCert`. The stake a vote adds is positive, so `safeStake` keeps it; `certRound`
is the result of a subtraction, a number. -/
def verifyViewChangeCert (set : ValidatorSet) (suite : String) (height : N)
    (prevHash : String) (certRound : JsNum) (cert : Option (ViewChangeCert N))
    (finalityNum finalityDen : JsNum) : Except JsError Bool :=
  if certRound.isSafeInteger = false ∨ JsNum.lt certRound 0 = true then .ok false
  else if validThreshold finalityNum finalityDen = false then .ok false
  else
    match cert with
    | none => .ok false
    | some cert =>
      if JsNum.strictEq (WireNumber.toNum cert.round) certRound = false then .ok false
      else if totalStake set ≤ 0 then .ok false
      else if max (set.validators.length * 4) 256 < cert.votes.length then .ok false
      else do
        let t ← tally (stakeIndex set)
          (fun v => decide (v.suite = suite) && WireNumber.strictEq v.height height &&
            decide (v.prevHash = prevHash) && JsNum.strictEq (WireNumber.toNum v.round) certRound)
          (·.validator)
          (fun v => do
            let setId ← consensusSetId X set
            let msg ← viewChangeMessage X v.suite height prevHash certRound setId
            let pub ← X.hexToBytes v.validator
            .ok (safeVerify X v.suite v.sig msg pub))
          Tally.zero cert.votes
        .ok (isWellFormedStakeSet set && decide (0 < totalStake set) &&
          decide (finalityNum.toInt * totalStake set ≤ t.stake * finalityDen.toInt))

end Eligibility

end Nerion
