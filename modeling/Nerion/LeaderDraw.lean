import Mathlib.Algebra.BigOperators.Group.List.Lemmas
import Mathlib.Data.Int.ConditionallyCompleteOrder
import Mathlib.Data.Int.Interval
import Nerion.Symbolic

/-!
# The draw by stake (`ledger/src/sortition.ts`, `ledger/src/leader.ts`)

The leader is drawn on the line of cumulated stake, over the validators sorted by key: a residue
of the total stake belongs to the validator in whose interval it falls. The public draw takes the
residue from a hash, the private one from the output of the VRF, and both walk the line in the
same way.

* `ValidatorSet.Owns` — the interval of a validator, without regard to any order of the list;
* `ownerFrom_eq_some_iff` — where the walk stops;
* `ownerFrom_sorted` — the walk over the sorted list finds the owner;
* `card_owned` — a validator owns as many residues as it has stake;
* `leader_draw` — the draws by stake, and that the order of the list does not matter.
-/

namespace Nerion

/-! ## The sorted validators -/

/-- In ascending order of their keys. -/
def SortedKeys (l : List Validator) : Prop := l.Pairwise fun a b => jsLt a.pubkey b.pubkey = true

instance : Std.Total fun a b : Validator => jsLt b.pubkey a.pubkey = false where
  total a b := by
    rcases jsLt_trichotomy a.pubkey b.pubkey with h | h | h
    · exact .inl (jsLt_asymm h)
    · simp [h]
    · exact .inr (jsLt_asymm h)

instance : IsTrans Validator fun a b : Validator => jsLt b.pubkey a.pubkey = false where
  trans a b c hab hbc := by
    rw [← Bool.not_eq_true] at *
    intro hca
    rcases jsLt_trichotomy a.pubkey b.pubkey with h | h | h
    · exact hbc (jsLt_trans hca h)
    · exact hbc (h ▸ hca)
    · exact hab h

variable {l : List Validator}

/-- Without repeated keys, sorting leaves no ties. -/
theorem sortedKeys_sortedByPubkey (hnodup : (l.map (·.pubkey)).Nodup) :
    SortedKeys (sortedByPubkey l) := by
  have hne : (sortedByPubkey l).Pairwise fun a b => a.pubkey ≠ b.pubkey :=
    List.pairwise_map.mp (((perm_sortedByPubkey l).map Validator.pubkey).nodup_iff.mpr hnodup)
  have hle : (sortedByPubkey l).Pairwise fun a b => jsLt b.pubkey a.pubkey = false :=
    List.pairwise_insertionSort _ l
  apply (hle.and hne).imp
  rintro a b ⟨hba, hab⟩
  rcases jsLt_trichotomy a.pubkey b.pubkey with h | h | h
  · exact h
  · exact absurd h hab
  · rw [h] at hba
    cases hba

/-- The order of the list does not matter. -/
theorem sortedByPubkey_eq_of_perm {l l' : List Validator} (hnodup : (l.map (·.pubkey)).Nodup)
    (hperm : l'.Perm l) : sortedByPubkey l' = sortedByPubkey l := by
  have hnodup' : (l'.map (·.pubkey)).Nodup := (hperm.map _).nodup_iff.mpr hnodup
  refine List.Perm.eq_of_pairwise ?_ (sortedKeys_sortedByPubkey hnodup')
    (sortedKeys_sortedByPubkey hnodup)
    ((perm_sortedByPubkey l').trans (hperm.trans (perm_sortedByPubkey l).symm))
  intro a b _ _ hab hba
  rw [jsLt_asymm hab] at hba
  cases hba

/-! ## The walk -/

/-- The stakes of a list of validators, added up. -/
def stakeSum (l : List Validator) : ℤ := (l.map fun v => safeStake v.stake).sum

theorem stakeSum_nonneg (l : List Validator) : 0 ≤ stakeSum l := by
  apply List.sum_nonneg
  simp [safeStake_nonneg]

@[simp] theorem stakeSum_cons (v : Validator) (l : List Validator) :
    stakeSum (v :: l) = safeStake v.stake + stakeSum l := by simp [stakeSum]

@[simp] theorem stakeSum_append (l l' : List Validator) :
    stakeSum (l ++ l') = stakeSum l + stakeSum l' := by simp [stakeSum]

/-- **Where the walk stops**: at the validator that `x` falls in the interval of. -/
theorem ownerFrom_eq_some_iff {x acc : ℤ} (hx : acc ≤ x) {v : Validator} :
    ownerFrom x acc l = some v ↔ ∃ before after, l = before ++ v :: after ∧
      acc + stakeSum before ≤ x ∧ x < acc + stakeSum before + safeStake v.stake := by
  induction l generalizing acc with
  | nil => simp [ownerFrom]
  | cons u l ih =>
    rw [ownerFrom]
    split
    · rename_i hlt
      constructor
      · intro h
        obtain rfl := Option.some.inj h
        exact ⟨[], l, rfl, by simpa [stakeSum] using hx, by simpa [stakeSum] using hlt⟩
      · rintro ⟨before, after, heq, hle, -⟩
        cases before with
        | nil => rw [(List.cons.inj heq).1]
        | cons u' before =>
          -- the interval of a later validator starts after that of the first
          obtain ⟨rfl, -⟩ := List.cons.inj heq
          have := stakeSum_nonneg before
          rw [stakeSum_cons] at hle
          omega
    · rename_i hge
      rw [ih (not_lt.mp hge)]
      constructor
      · rintro ⟨before, after, rfl, hle, hlt⟩
        refine ⟨u :: before, after, rfl, ?_, ?_⟩ <;> rw [stakeSum_cons] <;> omega
      · rintro ⟨before, after, heq, hle, hlt⟩
        cases before with
        | nil =>
          obtain ⟨rfl, -⟩ := List.cons.inj heq
          simp only [stakeSum, List.map_nil, List.sum_nil, add_zero] at hlt
          exact absurd hlt hge
        | cons u' before =>
          obtain ⟨rfl, rfl⟩ := List.cons.inj heq
          rw [stakeSum_cons] at hle hlt
          exact ⟨before, after, rfl, by omega, by omega⟩

/-- The walk does not run off the end below the total. -/
theorem exists_ownerFrom {x acc : ℤ} (hx : x < acc + stakeSum l) (hacc : acc ≤ x) :
    ∃ v, ownerFrom x acc l = some v := by
  induction l generalizing acc with
  | nil =>
    simp only [stakeSum, List.map_nil, List.sum_nil] at hx
    omega
  | cons u l ih =>
    rw [ownerFrom]
    split
    · exact ⟨u, rfl⟩
    · rw [stakeSum_cons] at hx
      exact ih (by omega) (by omega)

/-! ## Owners -/

namespace ValidatorSet

/-- The stake of the validators whose key comes before that of `v`. -/
def stakeBefore (set : ValidatorSet) (v : Validator) : ℤ :=
  set.stakeHeld fun k => jsLt k v.pubkey

/-- The validator `v` owns the residue `x`: it falls in the interval of `v` on the line of
cumulated stake. -/
def Owns (set : ValidatorSet) (v : Validator) (x : ℤ) : Prop :=
  v ∈ set.validators ∧ set.stakeBefore v ≤ x ∧ x < set.stakeBefore v + safeStake v.stake

instance (set : ValidatorSet) (v : Validator) : DecidablePred (set.Owns v) := fun _ =>
  inferInstanceAs (Decidable (_ ∧ _ ∧ _))

variable {set : ValidatorSet} {v : Validator}

/-- The validators before `v` in the sorted list are those whose key comes before. -/
theorem stakeBefore_eq {before after : List Validator} (hsorted : SortedKeys (before ++ v :: after))
    (hperm : (before ++ v :: after).Perm set.validators) : set.stakeBefore v = stakeSum before := by
  obtain ⟨-, hafter, hbefore⟩ := List.pairwise_append.mp hsorted
  have hfilter : (before ++ v :: after).filter (fun u => jsLt u.pubkey v.pubkey) = before := by
    rw [List.filter_append, List.filter_cons, jsLt_irrefl, if_neg Bool.false_ne_true]
    have hall : before.filter (fun u => jsLt u.pubkey v.pubkey) = before := by
      apply List.filter_eq_self.mpr
      intro u hu
      exact hbefore u hu v List.mem_cons_self
    have hnone : after.filter (fun u => jsLt u.pubkey v.pubkey) = [] := by
      apply List.filter_eq_nil_iff.mpr
      intro u hu
      rw [jsLt_asymm ((List.pairwise_cons.mp hafter).1 u hu)]
      decide
    rw [hall, hnone, List.append_nil]
  rw [stakeBefore, stakeHeld, ← ((hperm.filter _).map _).sum_eq, hfilter, stakeSum]

/-- **The walk finds the owner.** -/
theorem ownerFrom_sorted (hset : set.WellFormed) {x : ℤ} (hx : 0 ≤ x) :
    ownerFrom x 0 (sortedByPubkey set.validators) = some v ↔ set.Owns v x := by
  have hperm := perm_sortedByPubkey set.validators
  have hsorted := sortedKeys_sortedByPubkey hset.nodup
  rw [ownerFrom_eq_some_iff hx]
  constructor
  · rintro ⟨before, after, heq, hle, hlt⟩
    rw [heq] at hperm hsorted
    rw [zero_add] at hle hlt
    refine ⟨hperm.mem_iff.mp (by simp), ?_, ?_⟩ <;> rwa [stakeBefore_eq hsorted hperm]
  · rintro ⟨hv, hle, hlt⟩
    obtain ⟨before, after, heq⟩ := List.append_of_mem (hperm.mem_iff.mpr hv)
    refine ⟨before, after, heq, ?_⟩
    rw [heq] at hperm hsorted
    rw [stakeBefore_eq hsorted hperm] at hle hlt
    rw [zero_add]
    exact ⟨hle, hlt⟩

theorem stakeSum_sorted (set : ValidatorSet) :
    stakeSum (sortedByPubkey set.validators) = totalStake set := by
  rw [totalStake_eq_sum, stakeSum]
  exact ((perm_sortedByPubkey _).map _).sum_eq

/-- Every residue has an owner. -/
theorem exists_owner (hset : set.WellFormed) {x : ℤ} (hx : 0 ≤ x) (hlt : x < totalStake set) :
    ∃ v, set.Owns v x := by
  rw [← stakeSum_sorted, ← zero_add (stakeSum _)] at hlt
  obtain ⟨v, hv⟩ := exists_ownerFrom hlt hx
  exact ⟨v, (ownerFrom_sorted hset hx).mp hv⟩

/-- A draw has one owner. -/
theorem Owns.eq (hset : set.WellFormed) {x : ℤ} (hx : 0 ≤ x) {v v' : Validator}
    (h : set.Owns v x) (h' : set.Owns v' x) : v = v' := by
  have hwalk := (ownerFrom_sorted hset hx).mpr h
  rw [(ownerFrom_sorted hset hx).mpr h'] at hwalk
  exact (Option.some.inj hwalk).symm

/-- **A validator owns as many residues as it has stake.** -/
theorem card_owned (hset : set.WellFormed) (hv : v ∈ set.validators) :
    (((Finset.Ico 0 (totalStake set)).filter (set.Owns v)).card : ℤ) = v.stake := by
  have hperm := perm_sortedByPubkey set.validators
  have hsorted := sortedKeys_sortedByPubkey hset.nodup
  have htotal := stakeSum_sorted set
  obtain ⟨before, after, heq⟩ := List.append_of_mem (hperm.mem_iff.mpr hv)
  rw [heq] at hperm hsorted htotal
  have hstake : safeStake v.stake = v.stake := if_pos (hset.nonneg v hv)
  have howned : (Finset.Ico 0 (totalStake set)).filter (set.Owns v) =
      Finset.Ico (stakeSum before) (stakeSum before + v.stake) := by
    have hbefore := stakeSum_nonneg before
    have hafter := stakeSum_nonneg after
    rw [stakeSum_append, stakeSum_cons] at htotal
    ext x
    rw [Finset.mem_filter, Finset.mem_Ico, Finset.mem_Ico, Owns, stakeBefore_eq hsorted hperm]
    constructor
    · rintro ⟨-, -, hle, hlt⟩
      exact ⟨hle, by omega⟩
    · rintro ⟨hle, hlt⟩
      exact ⟨⟨by omega, by omega⟩, hv, hle, by omega⟩
  rw [howned, Int.card_Ico, add_sub_cancel_left, Int.toNat_of_nonneg (hset.nonneg v hv)]

theorem owns_perm {set' : ValidatorSet} (hperm : set'.validators.Perm set.validators) {x : ℤ} :
    set'.Owns v x ↔ set.Owns v x := by
  have hbefore : set'.stakeBefore v = set.stakeBefore v := by
    rw [stakeBefore, stakeBefore, stakeHeld, stakeHeld]
    exact ((hperm.filter _).map _).sum_eq
  rw [Owns, Owns, hperm.mem_iff, hbefore]

end ValidatorSet

theorem totalStake_perm {set set' : ValidatorSet} (hperm : set'.validators.Perm set.validators) :
    totalStake set' = totalStake set := by
  rw [totalStake_eq_sum, totalStake_eq_sum]
  exact (hperm.map _).sum_eq

/-! ## The draws -/

theorem bigIntOfHex_nonneg {hex : String} {n : ℤ} (h : bigIntOfHex hex = .ok n) : 0 ≤ n := by
  rw [bigIntOfHex, bigIntHex?] at h
  split at h
  · rename_i heq
    split at heq
    · rw [← Except.ok.inj h, ← Option.some.inj heq]
      exact Int.natCast_nonneg _
    · cases heq
  · cases h

/-- The number that `selectLeader` draws, before it is reduced. -/
def leaderSeed (X : LedgerExternals) (prevHash : String) (round : JsNum) : Except JsError ℤ := do
  let bytes ← X.encodeCanonical
    (.array [.text "polarseek-sortition-v1", .text prevHash, .num round])
  bigIntOfHex (X.bytesToHex (X.digest bytes))

section Draws

variable {set : ValidatorSet} {owner : ℤ → Validator}

/-- The walk from a drawn number, in terms of an owner function. -/
theorem ownerFrom_draw (hset : set.WellFormed) (hpos : 0 < totalStake set)
    (howner : ∀ x, 0 ≤ x → x < totalStake set → set.Owns (owner x) x) {hex : String} {draw : ℤ}
    (hdraw : bigIntOfHex hex = .ok draw) :
    ownerFrom (draw.tmod (totalStake set)) 0 (sortedByPubkey set.validators) =
      some (owner (draw % totalStake set)) := by
  have hnonneg := Int.emod_nonneg draw hpos.ne'
  rw [Int.tmod_eq_emod_of_nonneg (bigIntOfHex_nonneg hdraw), set.ownerFrom_sorted hset hnonneg]
  exact howner _ hnonneg (Int.emod_lt_of_pos draw hpos)

theorem selectLeader_eq_owner (X : LedgerExternals) (hset : set.WellFormed)
    (hpos : 0 < totalStake set)
    (howner : ∀ x, 0 ≤ x → x < totalStake set → set.Owns (owner x) x) (prevHash : String)
    (round : JsNum) : selectLeader X set prevHash round =
      (leaderSeed X prevHash round).map fun draw => (owner (draw % totalStake set)).pubkey := by
  rw [selectLeader, if_neg (not_le.mpr hpos)]
  refine (bind_assoc _ _ _).symm.trans (Except.bind_eq_map ?_)
  intro draw hseed
  obtain ⟨bytes, -, hdraw⟩ := Except.bind_eq_ok hseed
  rw [ownerFrom_draw hset hpos howner hdraw]

theorem vrfLeaderEligible_eq_owner (X : LedgerExternals) (hset : set.WellFormed)
    (hpos : 0 < totalStake set)
    (howner : ∀ x, 0 ≤ x → x < totalStake set → set.Owns (owner x) x) (proposer : String)
    (beta : Bytes) : vrfLeaderEligible X set proposer beta =
      (bigIntOfHex (X.bytesToHex beta)).map fun draw =>
        decide ((owner (draw % totalStake set)).pubkey = proposer) := by
  rw [vrfLeaderEligible, if_neg (not_le.mpr hpos)]
  refine Except.bind_eq_map ?_
  intro draw hdraw
  rw [ownerFrom_draw hset hpos howner hdraw]

end Draws

/-- **The draw is by stake.** In a well-formed set with stake, every residue of the total has one
owner, and a validator owns as many residues as it has stake. `selectLeader` returns the owner of
its seed, and `vrfLeaderEligible` holds of the owner of the VRF output, each reduced modulo the
total stake; they throw only where the number cannot be read. None of it depends on the order in
which the set lists its validators. -/
theorem leader_draw (X : LedgerExternals) {set : ValidatorSet}
    (hset : isWellFormedStakeSet set = true) (hpos : 0 < totalStake set) :
    ∃ owner : ℤ → Validator,
      (∀ x, 0 ≤ x → x < totalStake set → ∀ v, set.Owns v x ↔ v = owner x) ∧
      (∀ v ∈ set.validators,
        (((Finset.Ico 0 (totalStake set)).filter (set.Owns v)).card : ℤ) = v.stake) ∧
      (∀ prevHash round, selectLeader X set prevHash round =
        (leaderSeed X prevHash round).map fun seed => (owner (seed % totalStake set)).pubkey) ∧
      (∀ proposer beta, vrfLeaderEligible X set proposer beta =
        (bigIntOfHex (X.bytesToHex beta)).map fun draw =>
          decide ((owner (draw % totalStake set)).pubkey = proposer)) ∧
      ∀ set' : ValidatorSet, set'.validators.Perm set.validators →
        totalStake set' = totalStake set ∧ (∀ v x, set'.Owns v x ↔ set.Owns v x) ∧
        selectLeader X set' = selectLeader X set ∧
        vrfLeaderEligible X set' = vrfLeaderEligible X set := by
  have hwf := ValidatorSet.isWellFormedStakeSet_iff.mp hset
  obtain ⟨first, -⟩ := set.exists_owner hwf le_rfl hpos
  have : Nonempty Validator := ⟨first⟩
  choose! owner howner using fun x => @ValidatorSet.exists_owner set hwf x
  refine ⟨owner, ?_, fun v hv => set.card_owned hwf hv, selectLeader_eq_owner X hwf hpos howner,
    vrfLeaderEligible_eq_owner X hwf hpos howner, ?_⟩
  · intro x hx hlt v
    constructor
    · intro hv
      exact hv.eq hwf hx (howner x hx hlt)
    · rintro rfl
      exact howner x hx hlt
  · intro set' hperm
    have hsorted := sortedByPubkey_eq_of_perm hwf.nodup hperm
    have htotal := totalStake_perm hperm
    refine ⟨htotal, fun _ _ => ValidatorSet.owns_perm hperm, ?_, ?_⟩
    · funext prevHash round
      rw [selectLeader, selectLeader, htotal, hsorted]
    · funext proposer beta
      rw [vrfLeaderEligible, vrfLeaderEligible, htotal, hsorted]

/-- Three validators, out of order and one without stake. -/
def unevenSet : ValidatorSet := ⟨[⟨"0b", 1, none⟩, ⟨"0a", 2, none⟩, ⟨"0c", 0, none⟩], none⟩

/-- The draw in `unevenSet`: of three residues "0a" owns the first two, and the output 5 leaves 2,
which "0b" owns. -/
theorem leader_draw_uneven : ∃ owner : ℤ → Validator,
    (∀ x, 0 ≤ x → x < 3 → ∀ v, unevenSet.Owns v x ↔ v = owner x) ∧
      vrfLeaderEligible symbolicExternals unevenSet "0b" [5] =
        .ok (decide ((owner 2).pubkey = "0b")) ∧ (owner 2).pubkey = "0b" := by
  have htotal : totalStake unevenSet = 3 := rfl
  obtain ⟨owner, howner, -, -, hvrf, -⟩ := leader_draw symbolicExternals
    (show isWellFormedStakeSet unevenSet = true by decide) (by rw [htotal]; decide)
  rw [htotal] at howner hvrf
  refine ⟨owner, howner, (hvrf "0b" [5]).trans ?_, ?_⟩
  · rfl
  · have howns : unevenSet.Owns ⟨"0b", 1, none⟩ 2 := by decide +kernel
    rw [← (howner 2 (by decide) (by decide) _).mp howns]

end Nerion
