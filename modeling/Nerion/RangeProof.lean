import Nerion.Basic
import Nerion.ByteString
import Nerion.JsNumber
import Nerion.ModularPower
import Nerion.PrimeGroup

/-!
# Range proofs (`disclosure/src/zkrange.ts`)

A Pedersen commitment hides an amount below a public threshold: its bits are committed to one by
one, each with a proof that it is zero or one, and so are the bits of `threshold - 1 - amount`.
The group is a parameter, of prime order above `2 ^ 252` as that of ristretto255 is; so are the
encoding of its elements and the hash behind the challenges.

* `mul_eq`, `commit_eq` — the arithmetic of the code is that of the group;
* `extractBit_spec` — what two conversations about one bit give away;
* `range_special_soundness` — from two conversations for each bit, an opening in the range or a
  relation between the generators can be computed.
-/

namespace Nerion

/-- The group with its generators, and the functions taken from elsewhere. -/
structure PedersenGroup (P : Type) [AddCommGroup P] extends PrimeGroup P where
  /-- `G`, the base point -/
  G : P
  /-- `H`, the second generator -/
  H : P
  /-- `G` generates the group -/
  G_ne : G ≠ 0
  /-- `H` generates the group -/
  H_ne : H ≠ 0
  /-- `P.toBytes()` -/
  toBytes : P → Bytes
  /-- `shake256(b, { dkLen: 64 })` -/
  shake256 : Bytes → Bytes

/-- A group whose order leaves room for sums of 251 bits. -/
structure ZkGroup (P : Type) [AddCommGroup P] extends PedersenGroup P where
  /-- the order of ristretto255 is one -/
  large : 2 ^ 252 < order

structure BitProof (P : Type) where
  /-- first message of the branch for zero -/
  t0 : P
  /-- first message of the branch for one -/
  t1 : P
  /-- challenge of the branch for zero -/
  c0 : ℤ
  /-- challenge of the branch for one -/
  c1 : ℤ
  /-- response of the branch for zero -/
  s0 : ℤ
  /-- response of the branch for one -/
  s1 : ℤ

structure SubProof (P : Type) where
  /-- commitments to the bits, least significant first -/
  commitments : List P
  /-- a proof for each commitment -/
  bits : List (BitProof P)

structure RangeProof (P : Type) where
  /-- the number of bits -/
  n : JsNum
  /-- the amount is a number of `n` bits -/
  amount : SubProof P
  /-- `threshold - 1 - amount` is one -/
  diff : SubProof P

namespace PedersenGroup

variable {P : Type} [AddCommGroup P] (Z : PedersenGroup P)

/-! ## Scalars and points -/

def mod (x : ℤ) : ℤ := (x.tmod Z.order + Z.order).tmod Z.order

def mul (p : P) (s : ℤ) : P :=
  let k := Z.mod s
  if k = 0 then 0 else k • p

def neg (p : P) : P := Z.mul p (Z.order - 1)

def sub (p q : P) : P := p + Z.neg q

def scalarFromBytes (b : Bytes) : ℤ := Z.mod (ofBigEndian b)

/-- `modpow`: the loop is that of the library. -/
def modpow (base : ℤ) (exp m : ℕ) : ℕ := powMod (Z.mod base).toNat exp m

def inv (a : ℤ) : ℤ := Z.modpow a (Z.order - 2) Z.order

def commit (value r : ℤ) : P := Z.mul Z.G value + Z.mul Z.H r

def shiftCommitment (c : P) (delta : ℤ) : P := c + Z.mul Z.G delta

/-! ## Challenges -/

def statementHash (threshold : ℤ) (n : JsNum) (cAmt : P) (amountC diffC : List P) : Bytes :=
  let tag := utf8 ("PolarSeek/disclosure/stmt/v2|n=" ++ n.text ++ "|thr=" ++ toString threshold)
  Z.shake256 (tag ++ Z.toBytes cAmt ++ amountC.flatMap Z.toBytes ++ diffC.flatMap Z.toBytes)

def challenge (stmt : Bytes) (tag : String) (ci p0 p1 t0 t1 : P) : ℤ :=
  Z.scalarFromBytes (Z.shake256 (utf8 tag ++ stmt ++ Z.toBytes ci ++ Z.toBytes p0 ++
    Z.toBytes p1 ++ Z.toBytes t0 ++ Z.toBytes t1))

/-- The tag of the bit `i` of one side of the proof, `amount` or `diff`. -/
def bitTag (side : String) (i : ℕ) : String :=
  "PolarSeek/disclosure/bit/" ++ side ++ "/" ++ toString i

/-! ## Verification -/

section Verify

variable [DecidableEq P]

/-- The two equations that `verifyBit` checks. -/
def bitEquations (ci : P) (bp : BitProof P) : Bool :=
  let p0 := ci
  let p1 := Z.sub ci Z.G
  decide (Z.mul Z.H bp.s0 = bp.t0 + Z.mul p0 bp.c0) &&
    decide (Z.mul Z.H bp.s1 = bp.t1 + Z.mul p1 bp.c1)

def verifyBit (ci : P) (bp : BitProof P) (stmt : Bytes) (tag : String) : Bool :=
  let c := Z.challenge stmt tag ci ci (Z.sub ci Z.G) bp.t0 bp.t1
  if Z.mod (bp.c0 + bp.c1) ≠ c then false else Z.bitEquations ci bp

/-- `combined`, from the commitment to the bit `i` on. -/
def combine : (i : ℕ) → List P → P → P
  | _, [], combined => combined
  | i, ci :: cs, combined => combine (i + 1) cs (combined + Z.mul ci (2 ^ i))

/-- The verification of the bits, from the bit `i` on. -/
def verifyBits (stmt : Bytes) (side : String) : (i : ℕ) → List P → List (BitProof P) → Bool
  | i, ci :: cs, bp :: bps =>
    Z.verifyBit ci bp stmt (bitTag side i) && verifyBits stmt side (i + 1) cs bps
  | _, _, _ => true

def verifySub (target : P) (sub : SubProof P) (n : ℕ) (stmt : Bytes) (side : String) : Bool :=
  if sub.commitments.length ≠ n ∨ sub.bits.length ≠ n then false
  else if Z.combine 0 sub.commitments 0 ≠ target then false
  else Z.verifyBits stmt side 0 sub.commitments sub.bits

def verifyBelow (commitment : P) (threshold : ℤ) (proof : RangeProof P) (n : JsNum) : Bool :=
  if !n.isInteger || JsNum.lt n 1 || JsNum.lt 251 n then false
  else if !JsNum.strictEq proof.n n then false
  else
    let bound : ℤ := 2 ^ n.toInt.toNat
    if threshold < 1 ∨ bound < threshold then false
    else
      let cDiff := Z.sub (Z.mul Z.G (threshold - 1)) commitment
      let stmt := Z.statementHash threshold n commitment proof.amount.commitments
        proof.diff.commitments
      Z.verifySub commitment proof.amount n.toInt.toNat stmt "amount" &&
        Z.verifySub cDiff proof.diff n.toInt.toNat stmt "diff"

end Verify

/-! ## The arithmetic -/

theorem mod_eq (x : ℤ) : Z.mod x = x % Z.order := Z.tmod_add_order_tmod x

theorem mod_mod (x : ℤ) : Z.mod (Z.mod x) = Z.mod x := by
  rw [mod_eq, mod_eq, Int.emod_emod_of_dvd _ dvd_rfl]

theorem mod_modEq (x : ℤ) : Z.mod x ≡ x [ZMOD Z.order] := by
  rw [mod_eq]
  exact Int.mod_modEq x _

theorem mod_eq_mod_iff {x y : ℤ} : Z.mod x = Z.mod y ↔ x ≡ y [ZMOD Z.order] := by
  rw [mod_eq, mod_eq, Int.ModEq]

theorem mul_eq (p : P) (s : ℤ) : Z.mul p s = s • p := by
  rw [mul, mod_eq]
  split
  · rename_i h
    rw [← Z.emod_zsmul, h, zero_zsmul]
  · exact Z.emod_zsmul s p

theorem neg_eq (p : P) : Z.neg p = -p := by
  rw [neg, mul_eq, sub_smul, Z.order_zsmul, one_zsmul, zero_sub]

theorem sub_eq (p q : P) : Z.sub p q = p - q := by
  rw [sub, neg_eq, sub_eq_add_neg]

theorem commit_eq (value r : ℤ) : Z.commit value r = value • Z.G + r • Z.H := by
  rw [commit, mul_eq, mul_eq]

theorem shiftCommitment_eq (c : P) (delta : ℤ) : Z.shiftCommitment c delta = c + delta • Z.G := by
  rw [shiftCommitment, mul_eq]

/-- `inv` is the inverse modulo the order. -/
theorem mul_inv_modEq {a : ℤ} (ha : ¬ (Z.order : ℤ) ∣ a) : a * Z.inv a ≡ 1 [ZMOD Z.order] := by
  have hbase : ((Z.mod a).toNat : ℤ) ≡ a [ZMOD Z.order] := by
    rw [mod_eq, Int.toNat_of_nonneg (Int.emod_nonneg _ Z.order_pos.ne')]
    exact Int.mod_modEq a _
  have hpow : Z.inv a ≡ a ^ (Z.order - 2) [ZMOD Z.order] :=
    calc Z.inv a ≡ (((Z.mod a).toNat ^ (Z.order - 2) : ℕ) : ℤ) [ZMOD Z.order] :=
          Int.natCast_modEq_iff.mpr (powMod_modEq _ _ _)
      _ = ((Z.mod a).toNat : ℤ) ^ (Z.order - 2) := Nat.cast_pow _ _
      _ ≡ a ^ (Z.order - 2) [ZMOD Z.order] := hbase.pow _
  exact (hpow.mul_left a).trans (Z.mul_pow_order_sub_two ha)

/-! ## Extraction

Two conversations that share their first messages and differ in their challenge give away what
the bit commitment commits to. The extractor works on the responses alone. -/

/-- What the extractor returns. -/
inductive RangeExtract where
  /-- an opening of the commitment -/
  | opening (a rho : ℤ)
  /-- the coefficients of a relation between the generators -/
  | relation (x y : ℤ)

/-- The bit and the randomness from two conversations about one bit. -/
def extractBit (bp bp' : BitProof P) : ℤ × ℤ :=
  if Z.mod bp.c0 ≠ Z.mod bp'.c0 then (0, Z.inv (bp.c0 - bp'.c0) * (bp.s0 - bp'.s0))
  else (1, Z.inv (bp.c1 - bp'.c1) * (bp.s1 - bp'.s1))

/-- The number and the randomness from the bit `i` on. -/
def extractBits : (i : ℕ) → List (BitProof P × BitProof P) → ℤ × ℤ
  | _, [] => (0, 0)
  | i, (bp, bp') :: forks =>
    let bit := Z.extractBit bp bp'
    let rest := extractBits (i + 1) forks
    (2 ^ i * bit.1 + rest.1, 2 ^ i * bit.2 + rest.2)

/-- The extractor of the range proof. -/
def extractBelow (threshold : ℤ) (amount diff : List (BitProof P × BitProof P)) : RangeExtract :=
  let a := Z.extractBits 0 amount
  let d := Z.extractBits 0 diff
  let x := threshold - 1 - a.1 - d.1
  if x = 0 then .opening a.1 a.2 else .relation x (-(a.2 + d.2))

section Extract

variable [DecidableEq P]

/-- Two accepting conversations about one bit commitment, with the same first messages and
different challenges. -/
structure Forked (ci : P) (bp bp' : BitProof P) : Prop where
  /-- same first message of the branch for zero -/
  t0 : bp.t0 = bp'.t0
  /-- same first message of the branch for one -/
  t1 : bp.t1 = bp'.t1
  /-- the first conversation is accepted -/
  accept : Z.bitEquations ci bp = true
  /-- the second conversation is accepted -/
  accept' : Z.bitEquations ci bp' = true
  /-- the challenges are different -/
  challenges : Z.mod (bp.c0 + bp.c1) ≠ Z.mod (bp'.c0 + bp'.c1)

theorem bitEquations_iff {ci : P} {bp : BitProof P} : Z.bitEquations ci bp = true ↔
    bp.s0 • Z.H = bp.t0 + bp.c0 • ci ∧ bp.s1 • Z.H = bp.t1 + bp.c1 • (ci - Z.G) := by
  simp only [bitEquations, Bool.and_eq_true, decide_eq_true_iff, mul_eq, sub_eq]

/-- **One bit**: what is extracted is a bit, and opens the bit commitment. -/
theorem extractBit_spec {ci : P} {bp bp' : BitProof P} (h : Z.Forked ci bp bp') :
    (0 ≤ (Z.extractBit bp bp').1 ∧ (Z.extractBit bp bp').1 ≤ 1) ∧
      ci = (Z.extractBit bp bp').1 • Z.G + (Z.extractBit bp bp').2 • Z.H := by
  obtain ⟨hzero, hone⟩ := Z.bitEquations_iff.mp h.accept
  obtain ⟨hzero', hone'⟩ := Z.bitEquations_iff.mp h.accept'
  have hinv : ∀ {c c' : ℤ}, Z.mod c ≠ Z.mod c' → (c - c') * Z.inv (c - c') ≡ 1 [ZMOD Z.order] := by
    intro c c' hne
    refine Z.mul_inv_modEq fun hdvd => hne ?_
    exact Z.mod_eq_mod_iff.mpr (Int.modEq_iff_dvd.mpr hdvd).symm
  rw [extractBit]
  split
  · -- the challenges of the branch for zero differ
    rename_i hne
    refine ⟨⟨le_rfl, zero_le_one⟩, ?_⟩
    rw [← h.t0] at hzero'
    rw [Z.zsmul_of_two_responses hzero hzero' (hinv hne), zero_zsmul, zero_add]
  · -- they are the same there, so that those of the branch for one differ
    rename_i heq
    have hne : Z.mod bp.c1 ≠ Z.mod bp'.c1 := by
      intro h1
      have h0 := Z.mod_eq_mod_iff.mp (not_not.mp heq)
      exact h.challenges (Z.mod_eq_mod_iff.mpr (h0.add (Z.mod_eq_mod_iff.mp h1)))
    refine ⟨⟨zero_le_one, le_rfl⟩, ?_⟩
    rw [← h.t1] at hone'
    rw [Z.zsmul_of_two_responses hone hone' (hinv hne), one_zsmul, add_sub_cancel]

/-- **A sub-proof**: what is extracted from the bits opens their combination, and is a number of
as many bits. -/
theorem extractBits_spec {cs : List P} {forks : List (BitProof P × BitProof P)}
    (h : List.Forall₂ (fun ci fork => Z.Forked ci fork.1 fork.2) cs forks) (i : ℕ) (acc : P) :
    (0 ≤ (Z.extractBits i forks).1 ∧ (Z.extractBits i forks).1 ≤ 2 ^ i * (2 ^ cs.length - 1)) ∧
      Z.combine i cs acc =
        acc + ((Z.extractBits i forks).1 • Z.G + (Z.extractBits i forks).2 • Z.H) := by
  induction h generalizing i acc with
  | nil => simp [extractBits, combine]
  | @cons ci fork cs forks hfork _ ih =>
    obtain ⟨⟨hbit0, hbit1⟩, hopen⟩ := Z.extractBit_spec hfork
    obtain ⟨⟨hrest0, hrest1⟩, hcombine⟩ := ih (i + 1) (acc + Z.mul ci (2 ^ i))
    have hpow : (0 : ℤ) < 2 ^ i := by positivity
    refine ⟨⟨?_, ?_⟩, ?_⟩
    · exact add_nonneg (mul_nonneg hpow.le hbit0) hrest0
    · calc 2 ^ i * (Z.extractBit fork.1 fork.2).1 + (Z.extractBits (i + 1) forks).1
          ≤ 2 ^ i * 1 + 2 ^ (i + 1) * (2 ^ cs.length - 1) :=
            add_le_add (mul_le_mul_of_nonneg_left hbit1 hpow.le) hrest1
        _ = 2 ^ i * (2 ^ (cs.length + 1) - 1) := by ring
    · rw [combine, hcombine, mul_eq]
      conv_lhs => rw [hopen]
      rw [extractBits, add_zsmul, add_zsmul, mul_zsmul, mul_zsmul, smul_add]
      abel

end Extract

end PedersenGroup

open PedersenGroup in
/-- **Special soundness of the range proof.** For the bit commitments of an amount and of
`threshold - 1 - amount` that recombine as `verifySub` demands, two accepting conversations for
each bit, with the same first messages and different challenges, are enough to compute an
opening of the commitment below the threshold, or a relation between the generators. -/
theorem ZkGroup.range_special_soundness {P : Type} [AddCommGroup P] [DecidableEq P]
    (Z : ZkGroup P) {n : ℕ} (hn : 1 ≤ n ∧ n ≤ 251) {threshold : ℤ}
    (hthreshold : 1 ≤ threshold ∧ threshold ≤ 2 ^ n) {commitment : P} {amountC diffC : List P}
    (hamountC : amountC.length = n) (hdiffC : diffC.length = n)
    (hamount : Z.combine 0 amountC 0 = commitment)
    (hdiff : Z.combine 0 diffC 0 = Z.sub (Z.mul Z.G (threshold - 1)) commitment)
    {amount diff : List (BitProof P × BitProof P)}
    (hamountForks : List.Forall₂ (fun ci fork => Z.Forked ci fork.1 fork.2) amountC amount)
    (hdiffForks : List.Forall₂ (fun ci fork => Z.Forked ci fork.1 fork.2) diffC diff) :
    match Z.extractBelow threshold amount diff with
    | .opening a rho => commitment = Z.commit a rho ∧ 0 ≤ a ∧ a < threshold
    | .relation x y => Z.Relation Z.G Z.H x y := by
  obtain ⟨⟨ha0, ha1⟩, hopen⟩ := Z.extractBits_spec hamountForks 0 0
  obtain ⟨⟨hd0, hd1⟩, hopen'⟩ := Z.extractBits_spec hdiffForks 0 0
  rw [hamount, zero_add] at hopen
  rw [hdiff, zero_add, sub_eq, mul_eq] at hopen'
  rw [pow_zero, one_mul, hamountC] at ha1
  rw [pow_zero, one_mul, hdiffC] at hd1
  rw [extractBelow]
  split
  · rename_i a rho heq
    split at heq
    · rename_i hx
      cases heq
      exact ⟨hopen.trans (Z.commit_eq _ _).symm, ha0, by omega⟩
    · cases heq
  · rename_i x y heq
    split at heq
    · cases heq
    · rename_i hx
      cases heq
      refine Z.relation_of_lt ?_ hx ?_
      · -- the two openings add up to the threshold
        rw [hopen, sub_eq_iff_eq_add] at hopen'
        rw [sub_smul, sub_smul, hopen', neg_smul, add_zsmul]
        abel
      · -- and the numbers are too small to wrap around the order
        have hpow : (2 : ℤ) ^ n ≤ 2 ^ 251 := pow_le_pow_right₀ one_le_two hn.2
        have hlarge : (2 : ℤ) ^ 252 < Z.order := by exact_mod_cast Z.large
        have htwo : (2 : ℤ) ^ 252 = 2 * 2 ^ 251 := by norm_num
        rw [abs_lt]
        refine ⟨?_, ?_⟩
        · linarith [hthreshold.1]
        · linarith [hthreshold.2]

/-! ## A group to run the code in -/

/-- The scalars of ristretto255 as a group of their own, with the identity in place of the
hash. -/
def scalarGroup : ZkGroup (ZMod ristrettoOrder) where
  order := ristrettoOrder
  prime := ristrettoOrder_prime
  card := Nat.card_zmod _
  large := by decide
  G := 1
  H := 2
  G_ne := by decide +kernel
  H_ne := by decide +kernel
  toBytes p := bigEndian 32 p.val
  shake256 := id

/-- Two conversations about a commitment to a bit with the randomness `r`. -/
def bitFork (b r : ℤ) : BitProof (ZMod ristrettoOrder) × BitProof (ZMod ristrettoOrder) :=
  (⟨0, 0, 0, 0, 0, 0⟩, if b = 0 then ⟨0, 0, 1, 0, r, 0⟩ else ⟨0, 0, 0, 1, 0, r⟩)

theorem scalarGroup_mod_ne : scalarGroup.mod 0 ≠ scalarGroup.mod 1 := by decide +kernel

theorem forked_bitFork {b : ℤ} (hb : b = 0 ∨ b = 1) (r : ℤ) :
    scalarGroup.Forked (scalarGroup.commit b r) (bitFork b r).1 (bitFork b r).2 := by
  rcases hb with rfl | rfl <;> refine ⟨rfl, rfl, ?_, ?_, scalarGroup_mod_ne⟩ <;>
    rw [PedersenGroup.bitEquations_iff, PedersenGroup.commit_eq] <;> simp [bitFork]

/-- The bits of a number, each with two conversations. -/
theorem forked_bits {bits r : List ℤ} (hbits : ∀ b ∈ bits, b = 0 ∨ b = 1) :
    List.Forall₂ (fun ci fork => scalarGroup.Forked ci fork.1 fork.2)
      (List.zipWith scalarGroup.commit bits r) (List.zipWith bitFork bits r) := by
  induction bits generalizing r with
  | nil => exact .nil
  | cons b bits ih =>
    cases r with
    | nil => exact .nil
    | cons ri r =>
      exact .cons (forked_bitFork (hbits b List.mem_cons_self) ri)
        (ih fun b' hb' => hbits b' (List.mem_cons_of_mem _ hb'))

/-- `range_special_soundness` for a commitment to two below four, in two bits. -/
theorem range_special_soundness_two :
    match scalarGroup.extractBelow 4 [bitFork 0 5, bitFork 1 6] [bitFork 1 (-17), bitFork 0 0] with
    | .opening a rho => scalarGroup.commit 2 17 = scalarGroup.commit a rho ∧ 0 ≤ a ∧ a < 4
    | .relation x y => scalarGroup.Relation scalarGroup.G scalarGroup.H x y := by
  refine @ZkGroup.range_special_soundness _ _ _ scalarGroup 2 (by decide) 4 (by decide) _
    (List.zipWith scalarGroup.commit [0, 1] [5, 6])
    (List.zipWith scalarGroup.commit [1, 0] [-17, 0]) rfl rfl ?_ ?_ _ _
    (forked_bits (by decide)) (forked_bits (by decide))
  · simp only [List.zipWith_cons_cons, List.zipWith_nil_left, PedersenGroup.combine,
      PedersenGroup.mul_eq, PedersenGroup.commit_eq]
    module
  · simp only [List.zipWith_cons_cons, List.zipWith_nil_left, PedersenGroup.combine,
      PedersenGroup.mul_eq, PedersenGroup.sub_eq, PedersenGroup.commit_eq]
    module

end Nerion
