import Mathlib.Data.Fintype.BigOperators
import Mathlib.Data.Fintype.Vector
import Nerion.NumberText
import Nerion.SetMembership

/-!
# What the challenges are hashed from (`disclosure/src/zkrange.ts`, `setmembership.ts`)

The challenges of the range proof and of the set-membership proof are hashes of byte strings that
have no separators between most of their parts: a text with numbers in decimal, followed by points
and scalars of 32 bytes. The text of a number can have any length, and a point can begin with the
bytes of digits; what keeps the parts apart is the length of the whole.

* the statement of a range proof: the number of bits ends at the bar behind it, and gives the
  number of the points; what they leave of the length is the threshold's;
* the challenge of a bit: the tag is what the digest and five points leave;
* the challenge of a set-membership proof: one more element makes the string longer by 64 bytes
  at least, and its size has at most four digits.

That a scalar of 32 bytes determines the element modulo the order needs no assumption on the order:
it is bounded because the points have encodings of 32 bytes (`Encodes.order_le`). What the verifiers
accept are such statements (`verifyBelow_statement`, `verifyMembership_statement`).
-/

namespace Nerion

/-! ## Statements -/

/-- What a range proof is about, as `verifyBelow` accepts it. -/
@[ext] structure RangeStatement (P : Type) where
  /-- the number of bits -/
  n : ℕ
  threshold : ℤ
  /-- the commitment to the amount -/
  cAmt : P
  /-- the commitments to the bits of the amount -/
  amountC : List P
  /-- the commitments to the bits of the difference -/
  diffC : List P
  /-- there is a bit -/
  n_pos : 1 ≤ n
  /-- the sum of the two does not wrap around -/
  n_le : n ≤ 251
  /-- the threshold is positive -/
  threshold_pos : 1 ≤ threshold
  /-- the threshold is at most the bound -/
  threshold_le : threshold ≤ 2 ^ n
  /-- one commitment for each bit of the amount -/
  amount_length : amountC.length = n
  /-- one commitment for each bit of the difference -/
  diff_length : diffC.length = n

/-- What the challenge of a bit is about. -/
@[ext] structure BitStatement (P : Type) where
  /-- the tag of the bit -/
  tag : String
  /-- the hash of the statement -/
  stmt : Bytes
  /-- the commitment to the bit -/
  ci : P
  /-- the commitment, should the bit be zero -/
  p0 : P
  /-- what it is should the bit be one -/
  p1 : P
  /-- first message of the branch for zero -/
  t0 : P
  /-- first message of the branch for one -/
  t1 : P
  /-- the hash has 64 bytes -/
  stmt_length : stmt.length = 64

/-- What the challenge of a set-membership proof is about. -/
structure MembershipStatement (P : Type) where
  commitment : P
  set : List ℤ
  /-- the first messages of the branches -/
  ts : List P
  /-- the size that `verifyMembership` accepts -/
  set_length : set.length ≤ maxSetSize
  /-- one message for each element -/
  ts_length : ts.length = set.length

namespace PedersenGroup

variable {P : Type} [AddCommGroup P] (Z : PedersenGroup P)

/-- The bytes that `statementHash` hashes. -/
def statementBytes (threshold : ℤ) (n : JsNum) (cAmt : P) (amountC diffC : List P) : Bytes :=
  utf8 ("PolarSeek/disclosure/stmt/v2|n=" ++ n.text ++ "|thr=" ++ toString threshold) ++
    Z.toBytes cAmt ++ amountC.flatMap Z.toBytes ++ diffC.flatMap Z.toBytes

/-- The bytes that `challenge` hashes. -/
def challengeBytes (stmt : Bytes) (tag : String) (ci p0 p1 t0 t1 : P) : Bytes :=
  utf8 tag ++ stmt ++ Z.toBytes ci ++ Z.toBytes p0 ++ Z.toBytes p1 ++ Z.toBytes t0 ++ Z.toBytes t1

/-- The bytes that `challenge` hashes, of the set-membership proof. -/
def membershipBytes (commitment : P) (set : List ℤ) (ts : List P) : Bytes :=
  utf8 ("Nerion/disclosure/set-membership/v1|k=" ++ toString set.length) ++
    Z.toBytes commitment ++ set.flatMap Z.scalarTo32 ++ ts.flatMap Z.toBytes

theorem statementHash_eq (threshold : ℤ) (n : JsNum) (cAmt : P) (amountC diffC : List P) :
    Z.statementHash threshold n cAmt amountC diffC =
      Z.shake256 (Z.statementBytes threshold n cAmt amountC diffC) := rfl

theorem challenge_eq (stmt : Bytes) (tag : String) (ci p0 p1 t0 t1 : P) :
    Z.challenge stmt tag ci p0 p1 t0 t1 =
      Z.scalarFromBytes (Z.shake256 (Z.challengeBytes stmt tag ci p0 p1 t0 t1)) := rfl

theorem membershipChallenge_eq (commitment : P) (set : List ℤ) (ts : List P) :
    Z.membershipChallenge commitment set ts =
      Z.scalarFromBytes (Z.shake256 (Z.membershipBytes commitment set ts)) := rfl

/-- Points are encoded in 32 bytes, and no two of them alike. -/
structure Encodes : Prop where
  /-- 32 bytes -/
  length : ∀ p, (Z.toBytes p).length = 32
  /-- the bytes determine the point -/
  injective : Function.Injective Z.toBytes

end PedersenGroup

/-- The bytes hashed for a range statement. -/
def RangeStatement.bytes {P : Type} [AddCommGroup P] (Z : PedersenGroup P) (st : RangeStatement P) :
    Bytes :=
  Z.statementBytes st.threshold st.n st.cAmt st.amountC st.diffC

/-- The bytes hashed for the challenge of a bit. -/
def BitStatement.bytes {P : Type} [AddCommGroup P] (Z : PedersenGroup P) (st : BitStatement P) :
    Bytes :=
  Z.challengeBytes st.stmt st.tag st.ci st.p0 st.p1 st.t0 st.t1

/-- The bytes hashed for the challenge of a set-membership proof. -/
def MembershipStatement.bytes {P : Type} [AddCommGroup P] (Z : PedersenGroup P)
    (st : MembershipStatement P) : Bytes :=
  Z.membershipBytes st.commitment st.set st.ts

/-! ## Points and scalars -/

namespace PedersenGroup.Encodes

variable {P : Type} [AddCommGroup P] {Z : PedersenGroup P} (hZ : Z.Encodes)
include hZ

/-- As many points are determined by their encodings in a row. -/
theorem points_inj {ps qs : List P} (hlength : ps.length = qs.length)
    (h : ps.flatMap Z.toBytes = qs.flatMap Z.toBytes) : ps = qs := by
  have hrow : ps.flatMap Z.toBytes ++ [] = qs.flatMap Z.toBytes ++ [] := by rw [h]
  have hmap := (flatMap_append_inj (g := id) hZ.length (fun _ _ h => hZ.injective h) hlength
    hrow).1
  simpa using hmap

/-- The group has no more elements than there are encodings. -/
theorem order_le : Z.order ≤ 256 ^ 32 := by
  have hcount : Nat.card (List.Vector (Fin 256) 32) = 256 ^ 32 := by
    rw [Nat.card_eq_fintype_card, card_vector, Fintype.card_fin]
  let digits (p : P) : List.Vector (Fin 256) 32 :=
    ⟨(Z.toBytes p).map UInt8.toFin, by rw [List.length_map, hZ.length]⟩
  have hinj : Function.Injective digits := by
    intro p q h
    apply hZ.injective
    exact List.map_injective_iff.mpr (fun _ _ => UInt8.toFin_inj.mp) (congrArg Subtype.val h)
  calc Z.order = Nat.card P := Z.card.symm
    _ ≤ Nat.card (List.Vector (Fin 256) 32) := Nat.card_le_card_of_injective digits hinj
    _ = 256 ^ 32 := hcount

/-- A scalar of 32 bytes says the element modulo the order. -/
theorem mod_eq_of_scalarTo32_eq {x y : ℤ} (h : Z.scalarTo32 x = Z.scalarTo32 y) :
    Z.mod x = Z.mod y := by
  have hbound : ∀ x, 0 ≤ Z.mod x ∧ (Z.mod x).toNat < 256 ^ 32 := by
    intro x
    rw [mod_eq]
    have hnonneg := Int.emod_nonneg x Z.order_pos.ne'
    have hlt := Int.emod_lt_of_pos x Z.order_pos
    have hle := hZ.order_le
    omega
  have hnat := bigEndian_inj (hbound x).2 (hbound y).2 h
  rw [← Int.toNat_of_nonneg (hbound x).1, hnat, Int.toNat_of_nonneg (hbound y).1]

end PedersenGroup.Encodes

/-! ## The three byte strings -/

/-- The bar that follows the number of bits is not a part of it. -/
theorem bar_notMem_text {n : ℕ} (hn : n ≤ 2 ^ 53) : '|' ∉ ((n : JsNum).text).toList := fun hmem =>
  absurd (JsNum.isNumberChar_text (JsNum.isDouble_natCast hn) _ hmem) (by decide)

theorem RangeStatement.threshold_inj {P : Type} {st st' : RangeStatement P}
    (h : toString st.threshold = toString st'.threshold) : st.threshold = st'.threshold := by
  obtain ⟨t, ht⟩ := Int.eq_ofNat_of_zero_le (zero_le_one.trans st.threshold_pos)
  obtain ⟨t', ht'⟩ := Int.eq_ofNat_of_zero_le (zero_le_one.trans st'.threshold_pos)
  rw [ht, ht'] at h ⊢
  exact congrArg Nat.cast (toString_injective h)

section Injective

variable {P : Type} [AddCommGroup P] {Z : PedersenGroup P}

/-- **The statement of a range proof**: first the number of bits is read, then the points are
counted off the end, and the threshold is what is left. -/
theorem RangeStatement.bytes_injective (hZ : Z.Encodes) :
    Function.Injective (RangeStatement.bytes Z) := by
  intro st st' h
  have hsmall : ∀ st : RangeStatement P, st.n ≤ 2 ^ 53 := fun st => st.n_le.trans (by decide)
  have hbar : utf8 "|thr=" = '|'.toUInt8 :: utf8 "thr=" := by decide
  simp only [RangeStatement.bytes, PedersenGroup.statementBytes, utf8_append, hbar,
    List.append_assoc, List.append_cancel_left_eq, List.cons_append] at h
  obtain ⟨hn, h⟩ := utf8_append_cons_inj (by decide) (bar_notMem_text (hsmall st))
    (bar_notMem_text (hsmall st')) h
  have hn : st.n = st'.n := JsNum.natCast_injective
    (JsNum.text_injective (JsNum.isDouble_natCast (hsmall st))
      (JsNum.isDouble_natCast (hsmall st')) hn)
  have hlength : (st.cAmt :: (st.amountC ++ st.diffC)).length =
      (st'.cAmt :: (st'.amountC ++ st'.diffC)).length := by
    simp [st.amount_length, st.diff_length, st'.amount_length, st'.diff_length, hn]
  have hrow : ∀ st : RangeStatement P, Z.toBytes st.cAmt ++ (st.amountC.flatMap Z.toBytes ++
      st.diffC.flatMap Z.toBytes) = (st.cAmt :: (st.amountC ++ st.diffC)).flatMap Z.toBytes := by
    intro st
    rw [List.flatMap_cons, List.flatMap_append]
  rw [hrow, hrow] at h
  obtain ⟨hthreshold, hpoints⟩ := List.append_inj' (List.append_cancel_left h)
    (by rw [length_flatMap_of_width hZ.length, length_flatMap_of_width hZ.length, hlength])
  obtain ⟨hcAmt, hpoints⟩ := List.cons.inj (hZ.points_inj hlength hpoints)
  obtain ⟨hamount, hdiff⟩ := List.append_inj hpoints
    (by rw [st.amount_length, st'.amount_length, hn])
  exact RangeStatement.ext hn (threshold_inj (utf8_injective hthreshold)) hcAmt hamount hdiff

/-- **The challenge of a bit**: digest and points have their lengths, the tag is what is left. -/
theorem BitStatement.bytes_injective (hZ : Z.Encodes) :
    Function.Injective (BitStatement.bytes Z) := by
  intro st st' h
  have hrow : ∀ st : BitStatement P, BitStatement.bytes Z st =
      utf8 st.tag ++ (st.stmt ++ [st.ci, st.p0, st.p1, st.t0, st.t1].flatMap Z.toBytes) := by
    intro st
    simp [BitStatement.bytes, PedersenGroup.challengeBytes]
  have hpoints : ∀ st : BitStatement P,
      ([st.ci, st.p0, st.p1, st.t0, st.t1].flatMap Z.toBytes).length = 5 * 32 := fun st =>
    length_flatMap_of_width hZ.length _
  rw [hrow, hrow] at h
  obtain ⟨htag, h⟩ := List.append_inj' h
    (by rw [List.length_append, List.length_append, hpoints, hpoints, st.stmt_length,
      st'.stmt_length])
  obtain ⟨hstmt, h⟩ := List.append_inj h (by rw [st.stmt_length, st'.stmt_length])
  have hlist : [st.ci, st.p0, st.p1, st.t0, st.t1] = [st'.ci, st'.p0, st'.p1, st'.t0, st'.t1] :=
    hZ.points_inj rfl h
  simp only [List.cons.injEq, and_true] at hlist
  obtain ⟨hci, hp0, hp1, ht0, ht1⟩ := hlist
  exact BitStatement.ext (utf8_injective htag) hstmt hci hp0 hp1 ht0 ht1

/-- **The challenge of a set-membership proof**: the length of the whole gives the size of the set,
and the size the rest. -/
theorem MembershipStatement.eq_of_bytes_eq (hZ : Z.Encodes) {st st' : MembershipStatement P}
    (h : st.bytes Z = st'.bytes Z) :
    st.set.length = st'.set.length ∧ st.commitment = st'.commitment ∧
      st.set.map Z.mod = st'.set.map Z.mod ∧ st.ts = st'.ts := by
  have hscalar : ∀ x, (Z.scalarTo32 x).length = 32 := fun x => length_bigEndian 32 _
  have hdigits : ∀ st : MembershipStatement P, (utf8 (toString st.set.length)).length ≤ 4 :=
    fun st => length_utf8_toString_le (by decide) (st.set_length.trans_lt (by decide))
  simp only [MembershipStatement.bytes, PedersenGroup.membershipBytes, utf8_append,
    List.append_assoc, List.append_cancel_left_eq] at h
  have hsize : st.set.length = st'.set.length := by
    have hlength := congrArg List.length h
    simp only [List.length_append, hZ.length, length_flatMap_of_width hscalar,
      length_flatMap_of_width hZ.length, st.ts_length, st'.ts_length] at hlength
    have hst := hdigits st
    have hst' := hdigits st'
    omega
  rw [hsize] at h
  obtain ⟨hcommitment, h⟩ := List.append_inj (List.append_cancel_left h)
    (by rw [hZ.length, hZ.length])
  obtain ⟨hset, hts⟩ := flatMap_append_inj (g := Z.mod) hscalar
    (fun _ _ => hZ.mod_eq_of_scalarTo32_eq) hsize h
  exact ⟨hsize, hZ.injective hcommitment, hset,
    hZ.points_inj (by rw [st.ts_length, st'.ts_length, hsize]) hts⟩

/-- **The challenges are hashed from unambiguous byte strings.** Two statements of range proofs
with the same bytes are the same; so are two statements on a bit; and two of set-membership proofs
agree in all but the choice of representatives modulo the order. -/
theorem transcripts_injective (hZ : Z.Encodes) :
    Function.Injective (RangeStatement.bytes Z) ∧ Function.Injective (BitStatement.bytes Z) ∧
      ∀ st st' : MembershipStatement P, st.bytes Z = st'.bytes Z →
        st.set.length = st'.set.length ∧ st.commitment = st'.commitment ∧
          st.set.map Z.mod = st'.set.map Z.mod ∧ st.ts = st'.ts :=
  ⟨RangeStatement.bytes_injective hZ, BitStatement.bytes_injective hZ,
    fun _ _ => MembershipStatement.eq_of_bytes_eq hZ⟩

end Injective

theorem scalarGroup_encodes : scalarGroup.Encodes := by
  have : NeZero ristrettoOrder := ⟨ristrettoOrder_prime.ne_zero⟩
  have hbound : ∀ p : ZMod ristrettoOrder, p.val < 256 ^ 32 := fun p =>
    (ZMod.val_lt p).trans (by decide)
  refine ⟨fun p => length_bigEndian 32 _, fun p q h => ?_⟩
  exact ZMod.val_injective _ (bigEndian_inj (hbound p) (hbound q) h)

/-- A statement on one bit, all of whose commitments are zero. -/
def oneBitStatement (threshold : ℤ) (h : 1 ≤ threshold ∧ threshold ≤ 2) :
    RangeStatement (ZMod ristrettoOrder) :=
  ⟨1, threshold, 0, [0], [0], le_rfl, by decide, h.1, h.2, rfl, rfl⟩

/-- `transcripts_injective` for two thresholds. -/
theorem transcripts_injective_oneBit : scalarGroup.Encodes ∧
    (oneBitStatement 1 (by decide)).bytes scalarGroup.toPedersenGroup ≠
      (oneBitStatement 2 (by decide)).bytes scalarGroup.toPedersenGroup := by
  refine ⟨scalarGroup_encodes, fun h => ?_⟩
  have heq := (transcripts_injective scalarGroup_encodes).1 h
  exact absurd (congrArg RangeStatement.threshold heq) (by decide : (1 : ℤ) ≠ 2)

/-! ## What the verifiers accept -/

namespace PedersenGroup

variable {P : Type} [AddCommGroup P] {Z : PedersenGroup P}

section Range

variable [DecidableEq P]

/-- What `verifySub` has found. -/
theorem verifySub_eq_true {target : P} {sub : SubProof P} {n : ℕ} {stmt : Bytes} {side : String}
    (h : Z.verifySub target sub n stmt side = true) :
    sub.commitments.length = n ∧ Z.combine 0 sub.commitments 0 = target := by
  rw [verifySub] at h
  split at h
  · cases h
  rename_i hlength
  split at h
  · cases h
  rename_i hcombine
  exact ⟨not_not.mp (not_or.mp hlength).1, not_not.mp hcombine⟩

/-- What `verifyBelow` accepts is a statement, whose bytes it has hashed, and the bits make up the
commitment and what it leaves of the threshold. -/
theorem verifyBelow_statement {commitment : P} {threshold : ℤ} {proof : RangeProof P} {n : JsNum}
    (h : Z.verifyBelow commitment threshold proof n = true) :
    ∃ st : RangeStatement P, (st.n = n ∧ st.threshold = threshold ∧ st.cAmt = commitment ∧
        st.amountC = proof.amount.commitments ∧ st.diffC = proof.diff.commitments) ∧
      Z.combine 0 st.amountC 0 = commitment ∧
      Z.combine 0 st.diffC 0 = (threshold - 1) • Z.G - commitment := by
  rw [verifyBelow] at h
  split at h
  · cases h
  rename_i hbits
  obtain ⟨k, rfl, hpos, hmax⟩ := ZkGroup.bits_iff.mp hbits
  split at h
  · cases h
  dsimp only at h
  split at h
  · cases h
  rename_i hthreshold
  rw [JsNum.toInt_natCast, Int.toNat_natCast] at h hthreshold
  rw [not_or, not_lt, not_lt] at hthreshold
  obtain ⟨hamount, hdiff⟩ := Bool.and_eq_true_iff.mp h
  obtain ⟨hlength, hcombine⟩ := verifySub_eq_true hamount
  obtain ⟨hlength', hcombine'⟩ := verifySub_eq_true hdiff
  rw [sub_eq, mul_eq] at hcombine'
  exact ⟨⟨k, threshold, commitment, proof.amount.commitments, proof.diff.commitments, hpos, hmax,
    hthreshold.1, hthreshold.2, hlength, hlength'⟩, ⟨rfl, rfl, rfl, rfl, rfl⟩, hcombine, hcombine'⟩

end Range

/-- What `verifyMembership` accepts is a statement, whose bytes it has hashed. -/
theorem verifyMembership_statement {commitment : P} {set : List ℤ} {proof : MembershipProof}
    (h : Z.verifyMembership commitment set proof = true) :
    ∃ st : MembershipStatement P, st.commitment = commitment ∧ st.set = set ∧
      st.ts = Z.branchCommitments commitment set proof := by
  rw [verifyMembership] at h
  split at h
  · cases h
  rename_i hsize
  split at h
  · cases h
  rename_i hproof
  rw [not_or, not_not, not_not] at hproof
  refine ⟨⟨commitment, set, Z.branchCommitments commitment set proof,
    not_lt.mp (not_or.mp hsize).2, ?_⟩, rfl, rfl, rfl⟩
  rw [branchCommitments, List.length_zipWith, List.length_zip, hproof.1, hproof.2, Nat.min_self,
    Nat.min_self]

end PedersenGroup

end Nerion
