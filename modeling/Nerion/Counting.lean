import Nerion.Symbolic

/-!
# What the counting loops count (`ledger/src/chain.ts`, `ledger/src/leader.ts`)

Finality and view changes count the stake of distinct voters. The stake *behind* a list of
votes is that of every validator with a valid vote somewhere in it; it does not depend on
the order and grows with the list. The loop gives each validator one signature check, on
its first relevant entry, so a bad entry in front hides a valid one.

* `Poll.count_stake_le` — the loop never counts more than the stake behind the list;
* `Poll.count_stake_eq_iff` — it counts all of it exactly when no validator with stake has
  an invalid entry in front of its valid ones;
* `attestingStake_eq_iff` — the same for `verifyFinalized` and `verifyViewChangeCert`.
-/

namespace Nerion

/-! ## Polls -/

/-- A poll: which entries of a list are for it, in whose name they are, and the signature
check. -/
structure Poll (α : Type) where
  /-- whether an entry is for this poll -/
  relevant : α → Bool
  /-- the validator it names -/
  validator : α → String
  /-- its signature check -/
  check : α → Except JsError Bool

/-- Whether a check returned `true`. -/
def passed? : Except JsError Bool → Bool
  | .ok valid => valid
  | .error _ => false

theorem passed?_iff {r : Except JsError Bool} : passed? r = true ↔ r = .ok true := by
  cases r with
  | ok valid => exact ⟨congrArg Except.ok, Except.ok.inj⟩
  | error e => exact ⟨nofun, nofun⟩

namespace Poll

variable {α : Type} (P : Poll α) (set : ValidatorSet)

/-- Somewhere in the list there is a valid vote of `v`. -/
def supports (as : List α) (v : String) : Bool :=
  as.any fun a => P.relevant a && decide (P.validator a = v) && passed? (P.check a)

/-- The stake behind a list: that of the validators with a valid vote in it. -/
def support (as : List α) : ℤ :=
  ∑ v ∈ set.pubkeys.filter (P.supports as · = true), stakeOf set v

/-- Every validator with stake that has a valid vote has it in front: its first entry for
the poll is valid. -/
def Unshadowed (as : List α) : Prop :=
  ∀ v, 0 < stakeOf set v → P.supports as v = true →
    ∃ a, firstVote P.relevant P.validator as v = some a ∧ P.check a = .ok true

/-- The counting loop. -/
def count (as : List α) : Except JsError Tally :=
  tally (stakeIndex set) P.relevant P.validator P.check Tally.zero as

variable {P set} {as as' : List α} {t t' : Tally} {v : String}

theorem supports_iff : P.supports as v = true ↔
    ∃ a ∈ as, P.relevant a = true ∧ P.validator a = v ∧ P.check a = .ok true := by
  simp only [supports, List.any_eq_true, Bool.and_eq_true, decide_eq_true_iff, passed?_iff,
    and_assoc]

theorem supports_mono (h : as ⊆ as') (hv : P.supports as v = true) : P.supports as' v = true := by
  obtain ⟨a, ha, hrest⟩ := supports_iff.mp hv
  exact supports_iff.mpr ⟨a, h ha, hrest⟩

/-- Only the validators with stake matter. -/
theorem support_le (h : ∀ v, 0 < stakeOf set v → P.supports as v = true →
    P.supports as' v = true) : P.support set as ≤ P.support set as' := by
  rw [support, support, Finset.sum_filter, Finset.sum_filter]
  refine Finset.sum_le_sum fun v _ => ?_
  rcases (stakeOf_nonneg set v).eq_or_lt with h0 | hpos
  · rw [← h0, ite_self, ite_self]
  · split
    · rename_i hsup
      rw [if_pos (h v hpos hsup)]
    · split
      · exact hpos.le
      · exact le_refl 0

/-- **More entries, more stake behind them.** -/
theorem support_mono (h : as ⊆ as') : P.support set as ≤ P.support set as' :=
  support_le fun _ _ hsup => supports_mono h hsup

/-- **The order of the entries does not matter.** -/
theorem support_perm (h : as.Perm as') : P.support set as = P.support set as' :=
  (support_mono h.subset).antisymm (support_mono h.symm.subset)

/-- Whom the loop counts. -/
theorem mem_counted_iff (h : P.count set as = .ok t) : v ∈ t.counted ↔ 0 < stakeOf set v ∧
    ∃ a, firstVote P.relevant P.validator as v = some a ∧ P.check a = .ok true := by
  rw [tally_counted_iff h, get?_stakeIndex]

/-- Whom the loop counts has a valid vote in the list. -/
theorem supports_of_counted (h : P.count set as = .ok t) (hv : v ∈ t.counted) :
    P.supports as v = true := by
  obtain ⟨-, a, ha, hcheck⟩ := (mem_counted_iff h).mp hv
  obtain ⟨hmem, hrel, hval⟩ := firstVote_eq_some ha
  exact supports_iff.mpr ⟨a, hmem, hrel, hval, hcheck⟩

theorem counted_subset (h : P.count set as = .ok t) :
    t.counted.toFinset ⊆ set.pubkeys.filter (P.supports as · = true) := by
  intro v hv
  rw [List.mem_toFinset] at hv
  have hstake := ((mem_counted_iff h).mp hv).1
  exact Finset.mem_filter.mpr
    ⟨List.mem_toFinset.mpr (mem_of_stakeOf_pos hstake), supports_of_counted h hv⟩

/-- The stake the loop returns is that of whom it counted. -/
theorem count_stake (h : P.count set as = .ok t) :
    t.stake = ∑ v ∈ t.counted.toFinset, stakeOf set v := by
  obtain ⟨hnodup, hsum⟩ := tally_stake h
  rw [List.sum_toFinset _ hnodup, hsum]
  exact congrArg List.sum (List.map_congr_left fun v _ => get?_stakeIndex set v)

/-- The loop never counts more than the stake behind the list. -/
theorem count_stake_le (h : P.count set as = .ok t) : t.stake ≤ P.support set as := by
  rw [count_stake h]
  exact Finset.sum_le_sum_of_subset_of_nonneg (counted_subset h) fun v _ _ => stakeOf_nonneg set v

/-- **The loop counts all the stake behind the list exactly when no valid vote is
shadowed.** -/
theorem count_stake_eq_iff (h : P.count set as = .ok t) :
    t.stake = P.support set as ↔ P.Unshadowed set as := by
  rw [count_stake h, support]
  constructor
  · -- a voter left out would leave its stake out
    intro heq v hstake hsup
    by_contra hnot
    have hout : v ∉ t.counted.toFinset := by
      rw [List.mem_toFinset, mem_counted_iff h]
      exact fun hv => hnot hv.2
    have hin : v ∈ set.pubkeys.filter (P.supports as · = true) :=
      Finset.mem_filter.mpr ⟨List.mem_toFinset.mpr (mem_of_stakeOf_pos hstake), hsup⟩
    have hlt := Finset.sum_lt_sum_of_subset (counted_subset h) hin hout hstake
      fun u _ _ => stakeOf_nonneg set u
    exact absurd heq hlt.ne
  · -- a supporter that is not counted has no stake
    intro hun
    refine Finset.sum_subset (counted_subset h) fun v hv hout => ?_
    rcases (stakeOf_nonneg set v).eq_or_lt with h0 | hpos
    · exact h0.symm
    · have hfirst := hun v hpos (Finset.mem_filter.mp hv).2
      exact absurd (List.mem_toFinset.mpr ((mem_counted_iff h).mpr ⟨hpos, hfirst⟩)) hout

/-- With one entry for each validator nothing is shadowed. -/
theorem Unshadowed.of_nodup (h : (as.map P.validator).Nodup) : P.Unshadowed set as := by
  intro v _ hsup
  obtain ⟨a, ha, hrel, hval, hcheck⟩ := supports_iff.mp hsup
  have hsome : (firstVote P.relevant P.validator as v).isSome = true := by
    refine List.find?_isSome.mpr ⟨a, ha, ?_⟩
    rw [hrel, hval]
    exact decide_eq_true rfl
  obtain ⟨first, hfirst⟩ := Option.isSome_iff_exists.mp hsome
  obtain ⟨hmem, -, hval'⟩ := firstVote_eq_some hfirst
  obtain rfl : first = a := List.inj_on_of_nodup_map h hmem ha (hval'.trans hval.symm)
  exact ⟨first, hfirst, hcheck⟩

/-- Adding entries never lowers the count, when they shadow nothing. -/
theorem count_stake_mono (h : P.count set as = .ok t) (h' : P.count set as' = .ok t')
    (hun : P.Unshadowed set as') (hsub : as ⊆ as') : t.stake ≤ t'.stake := by
  rw [(count_stake_eq_iff h').mpr hun]
  exact (count_stake_le h).trans (support_mono hsub)

/-- Reordering does not change the count, when nothing is shadowed in either order. -/
theorem count_stake_perm (h : P.count set as = .ok t) (h' : P.count set as' = .ok t')
    (hun : P.Unshadowed set as) (hun' : P.Unshadowed set as') (hperm : as.Perm as') :
    t.stake = t'.stake := by
  rw [(count_stake_eq_iff h).mpr hun, (count_stake_eq_iff h').mpr hun', support_perm hperm]

end Poll

/-- The loop looks at the check of relevant entries only. -/
theorem tally_congr {α : Type} {stakeBy : JsMap String ℤ} {relevant : α → Bool}
    {validator : α → String} {check check' : α → Except JsError Bool}
    (h : ∀ a, relevant a = true → check a = check' a) (t : Tally) (as : List α) :
    tally stakeBy relevant validator check t as = tally stakeBy relevant validator check' t as := by
  induction as generalizing t with
  | nil => rfl
  | cons a as ih =>
    rw [tally, tally]
    by_cases hrel : relevant a = true
    · rw [h a hrel]
      simp only [ih]
    · rw [Bool.not_eq_true] at hrel
      rw [if_pos hrel, if_pos hrel, ih]

/-! ## The two polls of the ledger -/

section Ledger

variable (X : LedgerExternals) (set : ValidatorSet)

/-- The poll of `verifyFinalized`: attestations of the block, with its hash `h`. -/
def finalityPoll (block : Block) (h : String) (opts : VerifyOpts) : Poll Attestation where
  relevant := attests block h opts
  validator := (·.validator)
  check a := verifyAttestationSig X a set

/-- The poll of `verifyViewChangeCert`: votes to time the round out. -/
def timeoutPoll (suite : String) (height : JsNum) (prevHash : String) (certRound : JsNum) :
    Poll TimeoutVote where
  relevant v := decide (v.suite = suite) && JsNum.strictEq v.height height &&
    decide (v.prevHash = prevHash) && JsNum.strictEq v.round certRound
  validator := (·.validator)
  check v := do
    let setId ← consensusSetId X set
    let msg ← viewChangeMessage X v.suite height prevHash certRound setId
    let pub ← X.hexToBytes v.validator
    .ok (safeVerify X v.suite v.sig msg pub)

variable {X set}

theorem tallyAttestations_eq {block : Block} {h setId : String} {opts : VerifyOpts}
    (hid : consensusSetId X set = .ok setId) (attestations : List Attestation) :
    tallyAttestations X block h setId set opts attestations =
      (finalityPoll X set block h opts).count set attestations :=
  tally_congr (fun _ ha => checkAttestation_eq hid ha) _ _

/-- What `verifyFinalized` goes through when it returns, for a list within the bound. -/
theorem verifyFinalized_eq_ok {block : Block} {attestations : List Attestation}
    {expectedPrev : String} {finalityNum finalityDen : JsNum} {opts : VerifyOpts}
    {v : LightClientVerdict} (hbound : attestations.length ≤ maxAttestations set) :
    verifyFinalized X block attestations set expectedPrev finalityNum finalityDen opts = .ok v ↔
      ∃ h setId leader proposer t, blockHash X block.header = .ok h ∧
        consensusSetId X set = .ok setId ∧
        leaderReasons X block set expectedPrev finalityNum finalityDen = .ok leader ∧
        proposerReasons X block h = .ok proposer ∧
        tallyAttestations X block h setId set opts attestations = .ok t ∧
        v = finalityVerdict set finalityNum finalityDen
          (headerReasons block expectedPrev opts ++ leader ++ proposer) t.stake := by
  constructor
  · intro hv
    obtain ⟨h, hh, hv⟩ := Except.bind_eq_ok hv
    rw [if_neg (not_lt.mpr hbound)] at hv
    obtain ⟨setId, hid, hv⟩ := Except.bind_eq_ok hv
    obtain ⟨leader, hleader, hv⟩ := Except.bind_eq_ok hv
    obtain ⟨proposer, hproposer, hv⟩ := Except.bind_eq_ok hv
    obtain ⟨t, ht, hv⟩ := Except.bind_eq_ok hv
    exact ⟨h, setId, leader, proposer, t, hh, hid, hleader, hproposer, ht,
      (Except.ok.inj hv).symm⟩
  · rintro ⟨h, setId, leader, proposer, t, hh, hid, hleader, hproposer, ht, rfl⟩
    refine Except.bind_ok hh ?_
    rw [if_neg (not_lt.mpr hbound)]
    exact Except.bind_ok hid (Except.bind_ok hleader (Except.bind_ok hproposer
      (Except.bind_ok ht rfl)))

/-- The stake `verifyFinalized` reports within the bound is the count of its poll. -/
theorem verifyFinalized_attestingStake {block : Block} {attestations : List Attestation}
    {expectedPrev h : String} {finalityNum finalityDen : JsNum} {opts : VerifyOpts}
    {v : LightClientVerdict} (hhash : blockHash X block.header = .ok h)
    (hv : verifyFinalized X block attestations set expectedPrev finalityNum finalityDen opts =
      .ok v) (hbound : attestations.length ≤ maxAttestations set) :
    ∃ t, (finalityPoll X set block h opts).count set attestations = .ok t ∧
      v.attestingStake = t.stake := by
  obtain ⟨h', setId, leader, proposer, t, hh', hid, -, -, ht, rfl⟩ :=
    (verifyFinalized_eq_ok hbound).mp hv
  obtain rfl : h' = h := Except.ok.inj (hh'.symm.trans hhash)
  exact ⟨t, (tallyAttestations_eq hid attestations).symm.trans ht, rfl⟩

end Ledger

/-! ## The law of the counted stake -/

/-- **The counted stake is the stake behind the list exactly when no valid vote is
shadowed**, for the attestations of a block within the bound and for the votes of a
view-change certificate. Between lists in which nothing is shadowed the count does not
depend on the order, and entries that shadow nothing never lower it. -/
theorem attestingStake_eq_iff (X : LedgerExternals) (set : ValidatorSet) :
    (∀ (block : Block) (h expectedPrev : String) (finalityNum finalityDen : JsNum)
        (opts : VerifyOpts) (attestations : List Attestation) (v : LightClientVerdict),
      blockHash X block.header = .ok h →
      verifyFinalized X block attestations set expectedPrev finalityNum finalityDen opts = .ok v →
      attestations.length ≤ maxAttestations set →
      (v.attestingStake = (finalityPoll X set block h opts).support set attestations ↔
        (finalityPoll X set block h opts).Unshadowed set attestations) ∧
      ∀ (attestations' : List Attestation) (v' : LightClientVerdict),
        verifyFinalized X block attestations' set expectedPrev finalityNum finalityDen opts =
          .ok v' →
        attestations'.length ≤ maxAttestations set →
        (finalityPoll X set block h opts).Unshadowed set attestations' →
        (attestations ⊆ attestations' → v.attestingStake ≤ v'.attestingStake) ∧
        ((finalityPoll X set block h opts).Unshadowed set attestations →
          attestations.Perm attestations' → v.attestingStake = v'.attestingStake)) ∧
    (∀ (suite prevHash : String) (height certRound : JsNum) (votes : List TimeoutVote) (t : Tally),
      (timeoutPoll X set suite height prevHash certRound).count set votes = .ok t →
      (t.stake = (timeoutPoll X set suite height prevHash certRound).support set votes ↔
        (timeoutPoll X set suite height prevHash certRound).Unshadowed set votes) ∧
      ∀ (votes' : List TimeoutVote) (t' : Tally),
        (timeoutPoll X set suite height prevHash certRound).count set votes' = .ok t' →
        (timeoutPoll X set suite height prevHash certRound).Unshadowed set votes' →
        (votes ⊆ votes' → t.stake ≤ t'.stake) ∧
        ((timeoutPoll X set suite height prevHash certRound).Unshadowed set votes →
          votes.Perm votes' → t.stake = t'.stake)) := by
  constructor
  · intro block h expectedPrev finalityNum finalityDen opts attestations v hhash hv hbound
    obtain ⟨t, ht, hstake⟩ := verifyFinalized_attestingStake hhash hv hbound
    rw [hstake]
    refine ⟨Poll.count_stake_eq_iff ht, fun attestations' v' hv' hbound' hun' => ?_⟩
    obtain ⟨t', ht', hstake'⟩ := verifyFinalized_attestingStake hhash hv' hbound'
    rw [hstake']
    exact ⟨Poll.count_stake_mono ht ht' hun', fun hun => Poll.count_stake_perm ht ht' hun hun'⟩
  · intro suite prevHash height certRound votes t ht
    refine ⟨Poll.count_stake_eq_iff ht, fun votes' t' ht' hun' => ?_⟩
    exact ⟨Poll.count_stake_mono ht ht' hun', fun hun => Poll.count_stake_perm ht ht' hun hun'⟩

/-- An entry in the validator's name that nobody signed. -/
def unsignedAttestation : Attestation := { pairAttestation with sig := [] }

/-- The valid attestation in front is not shadowed by what follows. -/
theorem pairAttestation_unshadowed :
    (finalityPoll checksumExternals pairLedger.set pairBlock "b6" .none).Unshadowed pairLedger.set
      [pairAttestation, unsignedAttestation] := by
  intro v hstake _
  obtain rfl : v = "00" := List.mem_singleton.mp (mem_of_stakeOf_pos hstake)
  refine ⟨pairAttestation, ?_, ?_⟩ <;> decide +kernel

/-- `attestingStake_eq_iff` on a list whose valid attestation stands in front. -/
theorem attestingStake_eq_iff_pair :
    ∃ v, verifyFinalized checksumExternals pairBlock [pairAttestation, unsignedAttestation]
        pairLedger.set genesisPrev 2 3 .none = .ok v ∧
      v.attestingStake = (finalityPoll checksumExternals pairLedger.set pairBlock "b6"
        .none).support pairLedger.set [pairAttestation, unsignedAttestation] := by
  rcases hv : verifyFinalized checksumExternals pairBlock [pairAttestation, unsignedAttestation]
    pairLedger.set genesisPrev 2 3 .none with e | v
  · have hok : (verifyFinalized checksumExternals pairBlock [pairAttestation, unsignedAttestation]
      pairLedger.set genesisPrev 2 3 .none).isOk = true := by decide +kernel
    rw [hv] at hok
    cases hok
  · refine ⟨v, rfl, ?_⟩
    exact (((attestingStake_eq_iff checksumExternals pairLedger.set).1 pairBlock "b6" genesisPrev
      2 3 .none _ v (by decide +kernel) hv (by decide)).1).mpr pairAttestation_unshadowed

/-- **A bad entry in front hides a valid attestation**: the same two entries count for
nothing in one order and for all the stake in the other. -/
theorem shadowed_attestation_not_counted :
    blockHash checksumExternals pairBlock.header = .ok "b6" ∧
    (verifyFinalized checksumExternals pairBlock [unsignedAttestation, pairAttestation]
      pairLedger.set genesisPrev 2 3 .none).map (·.attestingStake) = .ok 0 ∧
    (verifyFinalized checksumExternals pairBlock [pairAttestation, unsignedAttestation]
      pairLedger.set genesisPrev 2 3 .none).map (·.attestingStake) = .ok 1 ∧
    (finalityPoll checksumExternals pairLedger.set pairBlock "b6" .none).support
      pairLedger.set [unsignedAttestation, pairAttestation] = 1 := by
  refine ⟨?_, ?_, ?_, ?_⟩ <;> decide +kernel

end Nerion
