import Nerion.RangeProof
import Nerion.Vrf

/-!
# One output for each key and input (`ledger/src/vrf.ts`)

Leader election is drawn from the output of the VRF, so a validator must not be able to choose
among several. The verifier recomputes `U = s·B − c·Y` and `V = s·H − c·Gamma` and hashes them to
the challenge. If `Gamma` is not `x·H` for the secret `x` of the key, then `U` and `V` can be
reached with one challenge only, and that is the value the hash has to hit.

* `PrimeSubgroup` — the points that pass the checks are a group of prime order;
* `prove_beta` — the output of `prove` is the one of `x·H`;
* `accepted_inGroup` — what an accepted proof satisfies in the group;
* `vrf_output_unique` — two challenges for the same points need `Gamma = x·H`, and an accepted
  proof with another output has a single challenge.
-/

namespace Nerion

/-- The prime-order subgroup of the curve as an abstract group, and how the operations of the curve
act on it. `clearCofactor` maps into it, and `isTorsionFree` decides it. -/
structure PrimeSubgroup (C : Ed25519) {P : Type} [AddCommGroup P] (g : PrimeGroup P) (B : P) where
  /-- the elements as points of the curve -/
  point : P → C.Point
  /-- the order of the subgroup -/
  order : C.order = g.order
  /-- the base point -/
  base : C.base = point B
  /-- the points that are torsion-free -/
  torsionFree : ∀ q, C.isTorsionFree q = true → ∃ p, q = point p
  /-- the identity -/
  zero : C.is0 (point 0) = true
  /-- clearing the cofactor gives a point of the subgroup -/
  cleared : ∀ q, ∃ p, C.clearCofactor q = point p
  /-- sums -/
  add : ∀ p q, C.add (point p) (point q) = point (p + q)
  /-- multiples by scalars in range, zero excluded -/
  multiply : ∀ p (k : ℤ), 0 < k → k < g.order → C.multiply (point p) k = .ok (point (k • p))
  /-- multiples by scalars in range -/
  multiplyUnsafe : ∀ p (k : ℤ), 0 ≤ k → k < g.order →
    C.multiplyUnsafe (point p) k = .ok (point (k • p))

theorem os2ipLE_lt (b : Bytes) : os2ipLE b < 256 ^ b.length := by
  induction b with
  | nil => decide
  | cons b bs ih =>
    have hbyte := b.toNat_lt
    rw [os2ipLE, List.length_cons, pow_succ]
    omega

namespace Ed25519

variable (C : Ed25519)

/-- The output of the holder of the secret `x`: that of `x·H`. -/
def honestBeta (publicKey alpha : Bytes) (x : ℤ) : Except JsError Bytes := do
  let h ← C.encodeToCurveTai publicKey alpha
  let gamma ← C.multiply h (C.mod x)
  C.proofToHash gamma

variable {C} {P : Type} [AddCommGroup P] {g : PrimeGroup P} {B : P}

/-! ## The group behind the code -/

theorem mod_eq_emod (S : PrimeSubgroup C g B) (n : ℤ) : C.mod n = n % g.order := by
  rw [mod, S.order]
  exact g.tmod_add_order_tmod n

/-- Multiples by a reduced scalar. -/
theorem multiplyUnsafe_mod (S : PrimeSubgroup C g B) (p : P) (k : ℤ) :
    C.multiplyUnsafe (S.point p) (C.mod k) = .ok (S.point (k • p)) := by
  have hpos := g.order_pos
  rw [mod_eq_emod S, S.multiplyUnsafe p _ (Int.emod_nonneg _ hpos.ne') (Int.emod_lt_of_pos _ hpos),
    g.emod_zsmul]

/-- Multiples of a point of the subgroup by a reduced scalar other than zero. -/
theorem multiply_mod (S : PrimeSubgroup C g B) (p : P) {k : ℤ} (hk : ¬ (g.order : ℤ) ∣ k) :
    C.multiply (S.point p) (C.mod k) = .ok (S.point (k • p)) := by
  have hpos := g.order_pos
  have hne : k % g.order ≠ 0 := fun h => hk (Int.dvd_of_emod_eq_zero h)
  rw [mod_eq_emod S, S.multiply p _ ((Int.emod_nonneg k hpos.ne').lt_of_ne' hne)
    (Int.emod_lt_of_pos k hpos), g.emod_zsmul]

/-- The input point lies in the subgroup. -/
theorem encodeToCurveTai_mem (S : PrimeSubgroup C g B) {ystr alpha : Bytes} {h : C.Point}
    (hh : C.encodeToCurveTai ystr alpha = .ok h) : ∃ p, h = S.point p := by
  rw [encodeToCurveTai] at hh
  generalize List.range 256 = ctrs at hh
  induction ctrs with
  | nil => cases hh
  | cons ctr ctrs ih =>
    rw [tryCounters] at hh
    split at hh
    · obtain rfl := Except.ok.inj hh
      exact S.cleared _
    · exact ih hh

/-- **The honest output** is the one that `prove` returns. -/
theorem prove_beta (S : PrimeSubgroup C g B) {seed alpha : Bytes} {secret : C.Secret}
    {out : VrfOutput} (hsecret : C.deriveSecret seed = .ok secret)
    (hout : C.prove seed alpha = .ok out) :
    C.honestBeta secret.ystr alpha secret.x = .ok out.beta := by
  have hreduced : C.mod secret.x = secret.x := by
    rw [deriveSecret] at hsecret
    split at hsecret
    · cases hsecret
    · obtain ⟨y, -, hy⟩ := Except.bind_eq_ok hsecret
      obtain rfl := Except.ok.inj hy
      simp only [mod_eq_emod S, Int.emod_emod_of_dvd _ dvd_rfl]
  rw [prove] at hout
  obtain ⟨secret', hsecret', hout⟩ := Except.bind_eq_ok hout
  obtain rfl := Except.ok.inj (hsecret.symm.trans hsecret')
  obtain ⟨h, hh, hout⟩ := Except.bind_eq_ok hout
  obtain ⟨gamma, hgamma, hout⟩ := Except.bind_eq_ok hout
  obtain ⟨kB, -, hout⟩ := Except.bind_eq_ok hout
  obtain ⟨kH, -, hout⟩ := Except.bind_eq_ok hout
  obtain ⟨beta, hbeta, hout⟩ := Except.bind_eq_ok hout
  obtain rfl := Except.ok.inj hout
  rw [honestBeta, hreduced]
  exact Except.bind_ok hh (Except.bind_ok hgamma hbeta)

/-! ## Accepted proofs -/

/-- The relations between the points of a proof: what `verify` recomputes. -/
structure Relations (B y h gamma u v : P) (c s : ℕ) : Prop where
  /-- `U = s·B − c·Y` -/
  u : u = (s : ℤ) • B - (c : ℤ) • y
  /-- `V = s·H − c·Gamma` -/
  v : v = (s : ℤ) • h - (c : ℤ) • gamma

/-- **Uniqueness in the group**: two challenges that reach the same points show that `Gamma` is
the multiple of the input point that the key is of the base point. -/
theorem gamma_eq_of_two_challenges (g : PrimeGroup P) (hlarge : 2 ^ 128 < g.order) (hB : B ≠ 0)
    {x : ℤ} {h gamma u v : P} {c c' s s' : ℕ} (hc : c < 2 ^ 128) (hc' : c' < 2 ^ 128)
    (hne : c ≠ c') (hr : Relations B (x • B) h gamma u v c s)
    (hr' : Relations B (x • B) h gamma u v c' s') : gamma = x • h := by
  refine g.eq_zsmul_of_two_responses hB hr.u hr'.u hr.v hr'.v fun hdvd => hne ?_
  have hsmall : |(c : ℤ) - c'| < g.order := by
    rw [abs_lt]
    omega
  have := Int.eq_zero_of_abs_lt_dvd hdvd hsmall
  omega

/-- What an accepted proof is in the group. -/
structure InGroup (S : PrimeSubgroup C g B) (publicKey alpha proof : Bytes) (y h gamma u v : P)
    (c s : ℕ) : Prop where
  /-- the public key -/
  key : C.fromBytes publicKey = .ok (S.point y)
  /-- the input point -/
  input : C.encodeToCurveTai publicKey alpha = .ok (S.point h)
  /-- `Gamma` -/
  point : C.fromBytes (proof.take 32) = .ok (S.point gamma)
  /-- `Gamma` is not the identity -/
  point_ne : gamma ≠ 0
  /-- the challenge in the proof -/
  challenge : c = os2ipLE ((proof.drop 32).take 16)
  /-- the response in the proof -/
  response : s = os2ipLE ((proof.drop 48).take 32)
  /-- the challenge has 128 bits -/
  challenge_lt : c < 2 ^ 128
  /-- the response is reduced -/
  response_lt : s < g.order
  /-- the recomputed points -/
  relations : Relations B y h gamma u v c s
  /-- the hash of the points is the challenge -/
  hash : C.challenge [publicKey, C.toBytes (S.point h), C.toBytes (S.point gamma),
    C.toBytes (S.point u), C.toBytes (S.point v)] = c

/-- The points that `verify` recomputes, in the group. -/
theorem recomputed_of_input (S : PrimeSubgroup C g B) {publicKey alpha : Bytes} {y h gamma : P}
    {c s : ℕ} (hs : s < g.order) (hh : C.encodeToCurveTai publicKey alpha = .ok (S.point h)) :
    C.recomputed publicKey alpha (S.point y) (S.point gamma) c s =
      .ok (C.challenge [publicKey, C.toBytes (S.point h), C.toBytes (S.point gamma),
        C.toBytes (S.point ((s : ℤ) • B - (c : ℤ) • y)),
        C.toBytes (S.point ((s : ℤ) • h - (c : ℤ) • gamma))]) := by
  have hresponse : ∀ p, C.multiplyUnsafe (S.point p) s = .ok (S.point ((s : ℤ) • p)) :=
    fun p => S.multiplyUnsafe p s (Int.natCast_nonneg s) (by exact_mod_cast hs)
  -- the code multiplies by `L − c`
  have hchallenge : ∀ p, C.multiplyUnsafe (S.point p) (C.mod (C.order - c)) =
      .ok (S.point (-((c : ℤ) • p))) := by
    intro p
    rw [multiplyUnsafe_mod S, S.order, sub_smul, g.order_zsmul, zero_sub]
  rw [recomputed]
  refine Except.bind_ok hh ?_
  dsimp only
  rw [S.base, hresponse, hchallenge, hresponse, hchallenge, sub_eq_add_neg, sub_eq_add_neg,
    ← S.add, ← S.add]
  rfl

theorem recomputed_eq (S : PrimeSubgroup C g B) {publicKey alpha : Bytes} {y gamma : P}
    {c s cPrime : ℕ} (hs : s < g.order)
    (hr : C.recomputed publicKey alpha (S.point y) (S.point gamma) c s = .ok cPrime) :
    ∃ h, C.encodeToCurveTai publicKey alpha = .ok (S.point h) ∧
      C.challenge [publicKey, C.toBytes (S.point h), C.toBytes (S.point gamma),
        C.toBytes (S.point ((s : ℤ) • B - (c : ℤ) • y)),
        C.toBytes (S.point ((s : ℤ) • h - (c : ℤ) • gamma))] = cPrime := by
  obtain ⟨h', hh, -⟩ := Except.bind_eq_ok hr
  obtain ⟨h, rfl⟩ := encodeToCurveTai_mem S hh
  rw [recomputed_of_input S hs hh] at hr
  exact ⟨h, hh, Except.ok.inj hr⟩

theorem accepted_inGroup (S : PrimeSubgroup C g B) {publicKey alpha proof beta : Bytes} {y : P}
    (hkey : C.fromBytes publicKey = .ok (S.point y))
    (hv : C.verify publicKey alpha proof = some beta) :
    ∃ h gamma u v c s, InGroup S publicKey alpha proof y h gamma u v c s ∧
      C.proofToHash (S.point gamma) = .ok beta := by
  obtain ⟨y', gamma', hacc⟩ := verify_eq_some_iff.mp hv
  obtain rfl := Except.ok.inj (hkey.symm.trans hacc.key)
  have hvalid := hacc.pointValid
  rw [isValidVrfPoint, Bool.and_eq_true, Bool.not_eq_true'] at hvalid
  obtain ⟨gamma, rfl⟩ := S.torsionFree gamma' hvalid.2
  have hscalar : os2ipLE ((proof.drop 48).take 32) < g.order := by
    have := hacc.scalar
    rw [S.order] at this
    exact_mod_cast this
  obtain ⟨h, hh, hhash⟩ := recomputed_eq S hscalar hacc.challenge
  refine ⟨h, gamma, _, _, _, _, ⟨hkey, hh, hacc.point, ?_, rfl, rfl, ?_, hscalar, ⟨rfl, rfl⟩,
    hhash⟩, hacc.output⟩
  · rintro rfl
    rw [S.zero] at hvalid
    exact absurd hvalid.1 (by decide)
  · have hlt := os2ipLE_lt ((proof.drop 32).take 16)
    rw [List.length_take, List.length_drop, hacc.length] at hlt
    exact hlt

/-- `Gamma = x·H` gives the honest output. -/
theorem honestBeta_of_gamma_eq (S : PrimeSubgroup C g B) {publicKey alpha beta : Bytes} {x : ℤ}
    {h gamma : P} (hinput : C.encodeToCurveTai publicKey alpha = .ok (S.point h))
    (hne : gamma ≠ 0) (hgamma : gamma = x • h)
    (hbeta : C.proofToHash (S.point gamma) = .ok beta) :
    C.honestBeta publicKey alpha x = .ok beta := by
  have hx : ¬ (g.order : ℤ) ∣ x := by
    intro hdvd
    rw [hgamma, g.zsmul_congr (Int.modEq_zero_iff_dvd.mpr hdvd), zero_zsmul] at hne
    exact hne rfl
  have hmultiply : C.multiply (S.point h) (C.mod x) = .ok (S.point gamma) := by
    rw [multiply_mod S h hx, hgamma]
  exact Except.bind_ok hinput (Except.bind_ok hmultiply hbeta)

/-- Every key that `verify` admits has a secret. -/
theorem exists_secret (S : PrimeSubgroup C g B) (hB : B ≠ 0)
    {publicKey alpha proof beta : Bytes} (hv : C.verify publicKey alpha proof = some beta) :
    ∃ x : ℤ, C.fromBytes publicKey = .ok (S.point (x • B)) := by
  obtain ⟨y', gamma', hacc⟩ := verify_eq_some_iff.mp hv
  have hvalid := hacc.keyValid
  rw [isValidVrfPoint, Bool.and_eq_true] at hvalid
  obtain ⟨y, rfl⟩ := S.torsionFree y' hvalid.2
  obtain ⟨x, rfl⟩ := g.exists_zsmul_eq hB y
  exact ⟨x, hacc.key⟩

end Ed25519

open Ed25519 in
/-- **The output of the VRF is unique.** In a group of prime order above `2 ^ 128`: two different
challenges that satisfy the relations of `verify` for the same `U` and `V` show `Gamma = x·H`. So
every accepted proof whose output is not that of the holder of the secret has, for its `Gamma`,
`U` and `V`, one challenge only, and it is their hash. -/
theorem vrf_output_unique {P : Type} [AddCommGroup P] (g : PrimeGroup P)
    (hlarge : 2 ^ 128 < g.order) {B : P} (hB : B ≠ 0) :
    (∀ (x : ℤ) (h gamma u v : P) (c c' s s' : ℕ), c < 2 ^ 128 → c' < 2 ^ 128 → c ≠ c' →
      s < g.order → s' < g.order → Relations B (x • B) h gamma u v c s →
      Relations B (x • B) h gamma u v c' s' → gamma = x • h) ∧
    ∀ (C : Ed25519) (S : PrimeSubgroup C g B) (publicKey alpha proof beta : Bytes),
      C.verify publicKey alpha proof = some beta →
      (∃ x : ℤ, C.fromBytes publicKey = .ok (S.point (x • B))) ∧
      ∀ x : ℤ, C.fromBytes publicKey = .ok (S.point (x • B)) →
        C.honestBeta publicKey alpha x ≠ .ok beta →
        ∃ h gamma u v c s, InGroup S publicKey alpha proof (x • B) h gamma u v c s ∧
          ∀ c' s', c' < 2 ^ 128 → s' < g.order →
            Relations B (x • B) h gamma u v c' s' → c' = c := by
  constructor
  · intro x h gamma u v c c' s s' hc hc' hne _ _ hr hr'
    exact gamma_eq_of_two_challenges g hlarge hB hc hc' hne hr hr'
  · intro C S publicKey alpha proof beta hv
    refine ⟨exists_secret S hB hv, ?_⟩
    intro x hkey hother
    obtain ⟨h, gamma, u, v, c, s, hin, hbeta⟩ := accepted_inGroup S hkey hv
    refine ⟨h, gamma, u, v, c, s, hin, ?_⟩
    intro c' s' hc' _ hr
    by_contra hne
    have hgamma := gamma_eq_of_two_challenges g hlarge hB hc' hin.challenge_lt hne hr hin.relations
    exact hother (honestBeta_of_gamma_eq S hin.input hin.point_ne hgamma hbeta)

/-! ## A curve to run the code in -/

/-- The scalars as a curve without cofactor. The hash is the input for outputs and one else. -/
def scalarCurve : Ed25519 where
  Point := ZMod ristrettoOrder
  base := 1
  order := ristrettoOrder
  fromBytes b := .ok (os2ipLE b : ZMod ristrettoOrder)
  toBytes p := i2ospLE p.val 32
  add p q := p + q
  multiply p k :=
    if 0 < k ∧ k < ristrettoOrder then .ok (k • p) else .error (error "invalid scalar")
  multiplyUnsafe p k :=
    if 0 ≤ k ∧ k < ristrettoOrder then .ok (k • p) else .error (error "invalid scalar")
  is0 p := decide (p = 0)
  isTorsionFree _ := true
  clearCofactor p := 8 * p
  sha512 b := if [0x03, 0x03].isPrefixOf b then b else 1 :: List.replicate 63 0

/-- All its points are in the subgroup. -/
def scalarSubgroup : PrimeSubgroup scalarCurve scalarGroup.toPrimeGroup 1 where
  point := id
  order := rfl
  base := rfl
  torsionFree q _ := ⟨q, rfl⟩
  zero := rfl
  cleared q := ⟨scalarCurve.clearCofactor q, rfl⟩
  add _ _ := rfl
  multiply _ _ h0 h1 := if_pos ⟨h0, h1⟩
  multiplyUnsafe _ _ h0 h1 := if_pos ⟨h0, h1⟩

/-- A proof that is accepted with an output of its own: its `Gamma` is 5, where the holder of the
secret 1 has `Gamma = H = 8`. -/
theorem vrf_output_unique_scalar :
    let key := i2ospLE 1 32
    let proof := i2ospLE 5 32 ++ i2ospLE 1 16 ++ i2ospLE 0 32
    let beta := [0x03, 0x03] ++ i2ospLE 40 32 ++ [0x00]
    scalarCurve.verify key [] proof = some beta ∧
      ∃ h gamma u v c s, Ed25519.InGroup scalarSubgroup key [] proof ((1 : ℤ) • 1) h gamma u v c s ∧
        ∀ c' s', c' < 2 ^ 128 → s' < ristrettoOrder →
          Ed25519.Relations 1 ((1 : ℤ) • 1) h gamma u v c' s' → c' = c := by
  intro key proof beta
  have hverify : scalarCurve.verify key [] proof = some beta := by decide +kernel
  have hother : scalarCurve.honestBeta key [] 1 ≠ .ok beta := by decide +kernel
  have hunique := vrf_output_unique scalarGroup.toPrimeGroup (by decide) scalarGroup.G_ne
  refine ⟨hverify, ?_⟩
  exact (hunique.2 scalarCurve scalarSubgroup key [] proof beta hverify).2 1 rfl hother

end Nerion
