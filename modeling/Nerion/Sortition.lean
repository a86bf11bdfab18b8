import Nerion.JsMap
import Nerion.JsString
import Nerion.Vrf
import Nerion.WeightedQuorum
import Mathlib.Algebra.BigOperators.Group.List.Basic
import Mathlib.Data.List.Sort

/-!
# Validator sets and sortition (`ledger/src/types.ts`, `ledger/src/sortition.ts`)

Stake is a bigint, an arbitrary integer; a negative one counts as nothing, and a set that
holds one is malformed, as is a set that lists a key twice. The set is identified by the
hash of its sorted members and its epoch, and the deterministic leader is drawn from the
interval of cumulated stake.

* `get?_stakeIndex` — the index agrees with the linear lookup;
* `ValidatorSet.sum_stakeOf` — in a well-formed set, the stakes of the members add up to
  the total, so that the weighted quorums of the library are those of the ledger.
-/

namespace Nerion

structure Validator where
  /-- hex consensus key -/
  pubkey : String
  /-- stake weight -/
  stake : ℤ
  /-- hex VRF key, present in VRF mode -/
  vrfPubkey : Option String
  deriving DecidableEq

structure ValidatorSet where
  /-- the members -/
  validators : List Validator
  /-- reconfiguration epoch -/
  epoch : Option JsNum

/-- What the verifiers do with a number they are handed: one of the ledger's own, or what JSON has
made of one (`PortableJson`). -/
class WireNumber (N : Type) where
  /-- as a value to encode -/
  cbor : N → Cbor
  /-- `a === b` -/
  strictEq : N → N → Bool
  /-- the number, for arithmetic and for comparisons with numbers -/
  toNum : N → JsNum
  /-- its text in a message -/
  text : N → String

@[default_instance]
instance : WireNumber JsNum where
  cbor := .num
  strictEq := JsNum.strictEq
  toNum x := x
  text := JsNum.text

namespace WireNumber

variable (x y : JsNum)

@[simp] theorem cbor_num : cbor x = .num x := rfl

@[simp] theorem strictEq_num : strictEq x y = JsNum.strictEq x y := rfl

@[simp] theorem toNum_num : toNum x = x := rfl

end WireNumber

def canonicalRound (_height : JsNum) : JsNum := 0

/-- `safeStake`, of a bigint. -/
def safeStake (stake : ℤ) : ℤ := if 0 ≤ stake then stake else 0

def isWellFormedStakeSet (set : ValidatorSet) : Bool :=
  set.validators.all (fun v => decide (0 ≤ v.stake)) &&
    decide ((set.validators.map (·.pubkey)).dedup.length = set.validators.length)

def totalStake (set : ValidatorSet) : ℤ :=
  set.validators.foldl (fun a v => a + safeStake v.stake) 0

def stakeOf (set : ValidatorSet) (pubkey : String) : ℤ :=
  match set.validators.find? (fun v => decide (v.pubkey = pubkey)) with
  | some v => safeStake v.stake
  | none => 0

def stakeIndex (set : ValidatorSet) : JsMap String ℤ :=
  JsMap.writeNew (·.pubkey) (fun v => safeStake v.stake) set.validators JsMap.empty

/-- The members in the order of `a.pubkey < b.pubkey ? -1 : a.pubkey > b.pubkey ? 1 : 0`. -/
def sortedByPubkey (validators : List Validator) : List Validator :=
  validators.insertionSort fun a b => jsLt b.pubkey a.pubkey = false

/-- What `consensusSetId` encodes. -/
def consensusSetCbor (set : ValidatorSet) : Cbor :=
  let members := (sortedByPubkey set.validators).map fun v =>
    Cbor.array [.text v.pubkey, .num v.stake, (v.vrfPubkey.map Cbor.text).getD .null]
  .array [.text "polarseek-consensus-set/v1", .array members, .num (set.epoch.getD 0)]

def consensusSetId (X : LedgerExternals) (set : ValidatorSet) : Except JsError String := do
  let bytes ← X.encodeCanonical (consensusSetCbor set)
  .ok (X.bytesToHex (X.digest bytes))

/-- The owner of the point `x` on the line of cumulated stake, from `acc` on. -/
def ownerFrom (x : ℤ) : ℤ → List Validator → Option Validator
  | _, [] => none
  | acc, v :: vs =>
    if x < acc + safeStake v.stake then some v else ownerFrom x (acc + safeStake v.stake) vs

/-- `BigInt('0x' + hex)`. -/
def bigIntOfHex (hex : String) : Except JsError ℤ :=
  match bigIntHex? hex with
  | some n => .ok n
  | none => .error ⟨"SyntaxError", "Cannot convert 0x" ++ hex ++ " to a BigInt"⟩

def selectLeader {N : Type} [WireNumber N] (X : LedgerExternals) (set : ValidatorSet)
    (prevHash : String) (round : N) : Except JsError String :=
  let total := totalStake set
  if total ≤ 0 then .error (error "validator set has no stake")
  else do
    let bytes ← X.encodeCanonical
      (.array [.text "polarseek-sortition-v1", .text prevHash, WireNumber.cbor round])
    let draw ← bigIntOfHex (X.bytesToHex (X.digest bytes))
    match ownerFrom (draw.tmod total) 0 (sortedByPubkey set.validators) with
    | some v => .ok v.pubkey
    | none =>
      -- a set with stake is not empty
      match (sortedByPubkey set.validators).getLast? with
      | some v => .ok v.pubkey
      | none => .error ⟨"TypeError", "Cannot read properties of undefined (reading 'pubkey')"⟩

theorem perm_sortedByPubkey (l : List Validator) : (sortedByPubkey l).Perm l :=
  List.perm_insertionSort _ l

/-- A set with stake has members. -/
theorem sortedByPubkey_ne_nil {set : ValidatorSet} (hstake : 0 < totalStake set) :
    sortedByPubkey set.validators ≠ [] := by
  intro hnil
  have hnone : set.validators = [] :=
    List.perm_nil.mp ((perm_sortedByPubkey set.validators).symm.trans (.of_eq hnil))
  rw [totalStake, hnone] at hstake
  exact absurd hstake (lt_irrefl 0)

/-! ## Stake -/

theorem safeStake_nonneg (stake : ℤ) : 0 ≤ safeStake stake := by
  rw [safeStake]
  split
  · assumption
  · exact le_refl 0

theorem stakeOf_nonneg (set : ValidatorSet) (pubkey : String) : 0 ≤ stakeOf set pubkey := by
  rw [stakeOf]
  split
  · exact safeStake_nonneg _
  · exact le_refl 0

theorem totalStake_eq_sum (set : ValidatorSet) :
    totalStake set = (set.validators.map fun v => safeStake v.stake).sum := by
  rw [List.sum_eq_foldl, List.foldl_map]
  rfl

/-- The index agrees with the linear lookup. -/
theorem get?_stakeIndex (set : ValidatorSet) (pubkey : String) :
    ((stakeIndex set).get? pubkey).getD 0 = stakeOf set pubkey := by
  rw [stakeIndex, JsMap.get?_writeNew, stakeOf]
  cases set.validators.find? (fun v => decide (v.pubkey = pubkey)) <;> rfl

/-- Only members have stake. -/
theorem mem_of_stakeOf_pos {set : ValidatorSet} {pubkey : String} (h : 0 < stakeOf set pubkey) :
    pubkey ∈ set.validators.map (·.pubkey) := by
  rw [stakeOf] at h
  rcases hv : set.validators.find? (fun v => decide (v.pubkey = pubkey)) with _ | v
  · rw [hv] at h
    exact absurd h (lt_irrefl 0)
  · refine List.mem_map.mpr ⟨v, List.mem_of_find?_eq_some hv, ?_⟩
    simpa using List.find?_some hv

/-! ## Well-formed sets -/

namespace ValidatorSet

/-- The keys of the members. -/
def pubkeys (set : ValidatorSet) : Finset String := (set.validators.map (·.pubkey)).toFinset

/-- What the well-formedness check establishes. -/
structure WellFormed (set : ValidatorSet) : Prop where
  /-- no stake is negative -/
  nonneg : ∀ v ∈ set.validators, 0 ≤ v.stake
  /-- no key is listed twice -/
  nodup : (set.validators.map (·.pubkey)).Nodup

theorem isWellFormedStakeSet_iff {set : ValidatorSet} :
    isWellFormedStakeSet set = true ↔ set.WellFormed := by
  rw [isWellFormedStakeSet, Bool.and_eq_true, List.all_eq_true, decide_eq_true_iff]
  constructor
  · rintro ⟨hall, hlen⟩
    refine ⟨fun v hv => of_decide_eq_true (hall v hv), ?_⟩
    rw [← List.length_map (f := fun v : Validator => v.pubkey)] at hlen
    exact List.dedup_eq_self.mp ((List.dedup_sublist _).eq_of_length hlen)
  · rintro ⟨hall, hnodup⟩
    refine ⟨fun v hv => decide_eq_true (hall v hv), ?_⟩
    rw [hnodup.dedup, List.length_map]

variable {set : ValidatorSet}

/-- In a set without repeated keys a member's stake is the one it is listed with. -/
theorem stakeOf_mem (hnodup : (set.validators.map (·.pubkey)).Nodup) {v : Validator}
    (hv : v ∈ set.validators) : stakeOf set v.pubkey = safeStake v.stake := by
  rw [stakeOf]
  rcases hf : set.validators.find? (fun u => decide (u.pubkey = v.pubkey)) with _ | u
  · exact absurd (List.find?_eq_none.mp hf v hv) (by simp)
  · have hu : u = v := List.inj_on_of_nodup_map hnodup (List.mem_of_find?_eq_some hf) hv
      (by simpa using List.find?_some hf)
    rw [hf, hu]

/-- The stake of the members whose key satisfies `p`, as they are listed. -/
def stakeHeld (set : ValidatorSet) (p : String → Bool) : ℤ :=
  ((set.validators.filter fun v => p v.pubkey).map fun v => safeStake v.stake).sum

/-- Without repeated keys, the listed stakes are a sum over keys. -/
theorem stakeHeld_eq_sum (hnodup : (set.validators.map (·.pubkey)).Nodup) (p : String → Bool) :
    set.stakeHeld p = ∑ k ∈ set.pubkeys.filter (p · = true), stakeOf set k := by
  have hmap : (set.validators.filter fun v => p v.pubkey).map (fun v => safeStake v.stake) =
      ((set.validators.map (·.pubkey)).filter p).map (stakeOf set) := by
    rw [List.filter_map, List.map_map]
    refine List.map_congr_left fun v hv => ?_
    exact (stakeOf_mem hnodup (List.mem_of_mem_filter hv)).symm
  have hfin : set.pubkeys.filter (p · = true) =
      ((set.validators.map (·.pubkey)).filter p).toFinset := by
    rw [pubkeys, List.toFinset_filter]
  rw [stakeHeld, hmap, hfin, List.sum_toFinset _ (hnodup.filter p)]

/-- **The stakes of the members add up to the total.** -/
theorem sum_stakeOf (hnodup : (set.validators.map (·.pubkey)).Nodup) :
    ∑ k ∈ set.pubkeys, stakeOf set k = totalStake set := by
  have h := stakeHeld_eq_sum hnodup fun _ => true
  rw [Finset.filter_true_of_mem fun _ _ => rfl] at h
  rw [← h, totalStake_eq_sum, stakeHeld, List.filter_eq_self.mpr fun _ _ => rfl]

/-- Only the members with stake matter. -/
theorem stakeHeld_congr (hnodup : (set.validators.map (·.pubkey)).Nodup) {p q : String → Bool}
    (h : ∀ k, 0 < stakeOf set k → p k = q k) : set.stakeHeld p = set.stakeHeld q := by
  rw [stakeHeld_eq_sum hnodup, stakeHeld_eq_sum hnodup, Finset.sum_filter, Finset.sum_filter]
  refine Finset.sum_congr rfl fun k _ => ?_
  rcases (stakeOf_nonneg set k).eq_or_lt with h0 | hpos
  · rw [← h0, ite_self, ite_self]
  · rw [h k hpos]

/-- Members that satisfy `p` hold at most what `p` selects. -/
theorem sum_le_stakeHeld (hnodup : (set.validators.map (·.pubkey)).Nodup) {p : String → Bool}
    {S : Finset String} (hS : S ⊆ set.pubkeys) (h : ∀ k ∈ S, p k = true) :
    ∑ k ∈ S, stakeOf set k ≤ set.stakeHeld p := by
  rw [stakeHeld_eq_sum hnodup]
  refine Finset.sum_le_sum_of_subset_of_nonneg (fun k hk => ?_) fun k _ _ => stakeOf_nonneg set k
  exact Finset.mem_filter.mpr ⟨hS hk, h k hk⟩

end ValidatorSet

end Nerion
