import Nerion.VrfUnique

/-!
# Every honest proof is accepted (`ledger/src/vrf.ts`)

The prover clamps and reduces its scalar, and writes `Gamma ‖ c ‖ s` in three little-endian fields;
the verifier reads them back, checks that the key and `Gamma` are points of the subgroup other than
the identity, and recomputes the challenge from `s` and `L − c`.

* `CodedSubgroup` — the prime-order subgroup with a faithful encoding of its points;
* `os2ipLE_i2ospLE` — the fields are read back;
* `clamped_bounds`, `clamped_not_dvd` — a clamped scalar is not a multiple of the order;
* `deriveSecret_eq` — every seed of 32 bytes has a key;
* `verify_prove` — **completeness**.
-/

namespace Nerion

/-- The prime-order subgroup, with what an honest run needs besides: the checks on points decide
membership and the identity, encoding is inverted by decoding, and the widths are those of the
code. -/
structure CodedSubgroup (C : Ed25519) {P : Type} [AddCommGroup P] (g : PrimeGroup P) (B : P)
    extends PrimeSubgroup C g B where
  /-- the base point generates the subgroup -/
  base_ne : B ≠ 0
  /-- the points of the subgroup are torsion-free -/
  torsionFree_point : ∀ p, C.isTorsionFree (point p) = true
  /-- only zero is the identity -/
  eq_zero_of_is0 : ∀ p, C.is0 (point p) = true → p = 0
  /-- decoding inverts encoding -/
  fromBytes_toBytes : ∀ q, C.fromBytes (C.toBytes q) = .ok q
  /-- a point is encoded in 32 bytes -/
  length_toBytes : ∀ q, (C.toBytes q).length = 32
  /-- SHA-512 returns 64 bytes -/
  length_sha512 : ∀ b, (C.sha512 b).length = 64
  /-- the order has 253 bits -/
  order_gt : 2 ^ 252 < g.order
  /-- the order has no more bits -/
  order_lt : g.order < 2 ^ 253

/-! ## Little-endian fields -/

@[simp] theorem length_i2ospLE (value len : ℕ) : (i2ospLE value len).length = len := by
  induction len generalizing value with
  | zero => rfl
  | succ len ih => simp [i2ospLE, ih]

theorem os2ipLE_i2ospLE {value len : ℕ} (h : value < 256 ^ len) :
    os2ipLE (i2ospLE value len) = value := by
  induction len generalizing value with
  | zero => simpa [i2ospLE, os2ipLE, eq_comm] using h
  | succ len ih =>
    have hdiv : value / 256 < 256 ^ len := by
      rw [pow_succ] at h
      omega
    have hbyte : (UInt8.ofNat (value % 256)).toNat = value % 256 :=
      UInt8.toNat_ofNat_of_lt' (Nat.mod_lt value (by decide))
    rw [i2ospLE, os2ipLE, ih hdiv, hbyte]
    omega

theorem os2ipLE_append (a b : Bytes) :
    os2ipLE (a ++ b) = os2ipLE a + 256 ^ a.length * os2ipLE b := by
  induction a with
  | nil => simp [os2ipLE]
  | cons x a ih =>
    rw [List.cons_append, os2ipLE, os2ipLE, ih, List.length_cons, pow_succ]
    ring

/-! ## Clamping -/

theorem and_low_dvd (b : UInt8) : 8 ∣ (b &&& 248).toNat := by
  have hall : ∀ n < 256, 8 ∣ n &&& 248 := by decide +kernel
  rw [UInt8.toNat_and]
  exact hall _ b.toNat_lt

theorem or_high_bounds (b : UInt8) :
    64 ≤ (b &&& 127 ||| 64).toNat ∧ (b &&& 127 ||| 64).toNat < 128 := by
  have hall : ∀ n < 256, 64 ≤ n &&& 127 ||| 64 ∧ (n &&& 127 ||| 64) < 128 := by decide +kernel
  rw [UInt8.toNat_or, UInt8.toNat_and]
  exact hall _ b.toNat_lt

namespace Ed25519

/-- A clamped scalar: the three low bits are clear, the highest set bit is the 254th. -/
theorem clamped_bounds {a : Bytes} (ha : a.length = 32) :
    8 ∣ os2ipLE (clamp a) ∧ 2 ^ 254 ≤ os2ipLE (clamp a) ∧ os2ipLE (clamp a) < 2 ^ 255 := by
  obtain ⟨low, rest, rfl⟩ := List.exists_cons_of_length_eq_add_one ha
  rcases List.eq_nil_or_concat rest with rfl | ⟨middle, high, rfl⟩
  · cases ha
  rw [List.concat_eq_append] at ha ⊢
  have hmiddle : middle.length = 30 := by simpa using ha
  have hclamp : clamp (low :: (middle ++ [high])) =
      (low &&& 248) :: (middle ++ [high &&& 127 ||| 64]) := by
    have hlast : ∀ f : UInt8 → UInt8, (middle ++ [high]).modify 30 f = middle ++ [f high] := by
      intro f
      rw [List.modify_eq_take_cons_drop (by simp [hmiddle])]
      simp [← hmiddle]
    simp [clamp, hlast]
  obtain ⟨m, hm⟩ := and_low_dvd low
  obtain ⟨hhigh, hhigh'⟩ := or_high_bounds high
  have hlow := (low &&& 248).toNat_lt
  have hlt := os2ipLE_lt middle
  rw [hmiddle] at hlt
  rw [hclamp, os2ipLE, os2ipLE_append, hmiddle, os2ipLE, os2ipLE, zero_mul, zero_add]
  refine ⟨?_, ?_, ?_⟩ <;> omega

variable {C : Ed25519} {P : Type} [AddCommGroup P] {g : PrimeGroup P} {B : P}

/-- No clamped scalar is a multiple of the order: it would be one of eight times the order. -/
theorem clamped_not_dvd (S : CodedSubgroup C g B) {a : Bytes} (ha : a.length = 32) :
    ¬ g.order ∣ os2ipLE (clamp a) := by
  intro hdvd
  obtain ⟨height, hlow, hhigh⟩ := clamped_bounds ha
  have hodd : Nat.Coprime 8 g.order := by
    change Nat.Coprime (2 ^ 3) g.order
    apply Nat.Coprime.pow_left
    rw [Nat.coprime_primes Nat.prime_two g.prime]
    have := S.order_gt
    omega
  have hle := Nat.le_of_dvd (by omega) (hodd.mul_dvd_of_dvd_of_dvd height hdvd)
  have := S.order_gt
  omega

/-! ## The prover -/

/-- Every seed of 32 bytes has a secret scalar and a key. -/
theorem deriveSecret_eq (S : CodedSubgroup C g B) {seed : Bytes} (hseed : seed.length = 32) :
    ∃ (a : ℕ) (trunc : Bytes), ¬ (g.order : ℤ) ∣ a ∧
      C.deriveSecret seed =
        .ok ⟨C.mod a, trunc, C.toBytes (S.point ((a : ℤ) • B)), S.point ((a : ℤ) • B)⟩ := by
  have hhalf : ((C.sha512 seed).take 32).length = 32 := by simp [S.length_sha512]
  have hdvd : ¬ (g.order : ℤ) ∣ (os2ipLE (clamp ((C.sha512 seed).take 32)) : ℕ) := by
    rw [Int.natCast_dvd_natCast]
    exact clamped_not_dvd S hhalf
  refine ⟨os2ipLE (clamp ((C.sha512 seed).take 32)), ((C.sha512 seed).drop 32).take 32, hdvd, ?_⟩
  rw [deriveSecret, if_neg (not_not.mpr hseed)]
  refine Except.bind_ok ?_ rfl
  rw [S.base, multiply_mod S.toPrimeSubgroup B hdvd]

/-- A point of the subgroup other than the identity passes the check. -/
theorem isValidVrfPoint_point (S : CodedSubgroup C g B) {p : P} (hp : p ≠ 0) :
    C.isValidVrfPoint (S.point p) = true := by
  have hzero : C.is0 (S.point p) ≠ true := fun h => hp (S.eq_zero_of_is0 p h)
  simp [isValidVrfPoint, hzero, S.torsionFree_point]

theorem proofToHash_point (S : CodedSubgroup C g B) (p : P) :
    C.proofToHash (S.point p) =
      .ok (C.sha512 ([0x03, 0x03] ++ C.toBytes (S.point ((8 : ℤ) • p)) ++ [0x00])) := by
  have horder := S.order_gt
  exact Except.bind_ok (S.multiply p 8 (by decide) (by omega)) rfl

/-- What `prove` returns for the scalar `a`, the input point `h` and the nonce `k`. -/
theorem prove_eq (S : CodedSubgroup C g B) {seed alpha ystr trunc : Bytes} {y : C.Point} {a : ℕ}
    {h : P} (ha : ¬ (g.order : ℤ) ∣ a)
    (hsecret : C.deriveSecret seed = .ok ⟨C.mod a, trunc, ystr, y⟩)
    (hh : C.encodeToCurveTai ystr alpha = .ok (S.point h)) {k : ℕ}
    (hk : os2ipLE (C.sha512 (trunc ++ C.toBytes (S.point h))) = k)
    (hnonce : ¬ (g.order : ℤ) ∣ k) {c : ℕ}
    (hc : C.challenge [ystr, C.toBytes (S.point h), C.toBytes (S.point ((a : ℤ) • h)),
      C.toBytes (S.point ((k : ℤ) • B)), C.toBytes (S.point ((k : ℤ) • h))] = c) :
    C.prove seed alpha = .ok ⟨C.toBytes (S.point ((a : ℤ) • h)) ++ i2ospLE c 16 ++
        i2ospLE (C.mod (C.mod k + c * C.mod a)).toNat 32,
      C.sha512 ([0x03, 0x03] ++ C.toBytes (S.point ((8 : ℤ) • (a : ℤ) • h)) ++ [0x00])⟩ := by
  have hgamma := multiply_mod S.toPrimeSubgroup h ha
  have hkB := multiply_mod S.toPrimeSubgroup B hnonce
  have hkH := multiply_mod S.toPrimeSubgroup h hnonce
  rw [← S.base] at hkB
  rw [prove]
  refine Except.bind_ok hsecret (Except.bind_ok hh (Except.bind_ok hgamma ?_))
  dsimp only
  rw [hk]
  refine Except.bind_ok hkB (Except.bind_ok hkH ?_)
  rw [hc]
  exact Except.bind_ok (proofToHash_point S _) rfl

/-! ## The verifier on an honest proof -/

/-- The response, as a multiple of a point. -/
theorem response_zsmul (S : PrimeSubgroup C g B) (k a : ℤ) (c : ℕ) (p : P) :
    ((C.mod (C.mod k + c * C.mod a)).toNat : ℤ) • p - (c : ℤ) • a • p = k • p := by
  have hpos := g.order_pos
  have hresponse : (C.mod k + c * C.mod a) % g.order ≡ k + c * a [ZMOD g.order] := by
    refine (Int.mod_modEq _ _).trans ?_
    rw [mod_eq_emod S, mod_eq_emod S]
    exact (Int.mod_modEq k _).add ((Int.mod_modEq a _).mul_left _)
  rw [mod_eq_emod S (_ + _), Int.toNat_of_nonneg (Int.emod_nonneg _ hpos.ne'),
    g.zsmul_congr hresponse, add_zsmul, mul_zsmul, add_sub_cancel_right]

theorem response_lt (S : PrimeSubgroup C g B) (n : ℤ) : (C.mod n).toNat < g.order := by
  have hpos := g.order_pos
  have hlt := Int.emod_lt_of_pos n hpos
  have hnonneg := Int.emod_nonneg n hpos.ne'
  rw [mod_eq_emod S]
  omega

theorem challenge_lt (points : List Bytes) : C.challenge points < 256 ^ 16 := by
  rw [challenge]
  refine (os2ipLE_lt _).trans_le ?_
  apply Nat.pow_le_pow_right
  · decide
  · simp

/-- The fields of a proof are read back. -/
theorem fields_eq {gamma : Bytes} (hgamma : gamma.length = 32) {c s : ℕ} (hc : c < 256 ^ 16)
    (hs : s < 256 ^ 32) :
    (gamma ++ i2ospLE c 16 ++ i2ospLE s 32).take 32 = gamma ∧
      os2ipLE (((gamma ++ i2ospLE c 16 ++ i2ospLE s 32).drop 32).take 16) = c ∧
      os2ipLE (((gamma ++ i2ospLE c 16 ++ i2ospLE s 32).drop 48).take 32) = s := by
  have htail : (gamma ++ (i2ospLE c 16 ++ i2ospLE s 32)).drop 48 = i2ospLE s 32 := by
    rw [← List.append_assoc]
    apply List.drop_left'
    simp [hgamma]
  rw [List.append_assoc, htail]
  refine ⟨List.take_left' hgamma, ?_, ?_⟩
  · rw [List.drop_left' hgamma, List.take_left' (length_i2ospLE _ _), os2ipLE_i2ospLE hc]
  · rw [List.take_of_length_le (by simp), os2ipLE_i2ospLE hs]

/-- **Completeness of the VRF.** For every seed of 32 bytes there is a key, and for every input
whose point is not the identity and whose nonce is not a multiple of the order there is a proof,
which the verifier accepts with the output of the prover, whatever the hash. -/
theorem verify_prove (S : CodedSubgroup C g B) {seed : Bytes} (hseed : seed.length = 32) :
    ∃ secret, C.deriveSecret seed = .ok secret ∧ C.vrfPublicKey seed = .ok secret.ystr ∧
      ∀ (alpha : Bytes) (h : C.Point), C.encodeToCurveTai secret.ystr alpha = .ok h →
        C.is0 h = false → C.mod (os2ipLE (C.sha512 (secret.trunc ++ C.toBytes h))) ≠ 0 →
        ∃ out, C.prove seed alpha = .ok out ∧
          C.verify secret.ystr alpha out.proof = some out.beta := by
  obtain ⟨a, trunc, ha, hsecret⟩ := deriveSecret_eq S hseed
  refine ⟨_, hsecret, Except.bind_ok hsecret rfl, ?_⟩
  intro alpha h' hh hne hnonce
  obtain ⟨h, rfl⟩ := encodeToCurveTai_mem S.toPrimeSubgroup hh
  have hzero : h ≠ 0 := by
    rintro rfl
    rw [S.zero] at hne
    cases hne
  obtain ⟨k, hk⟩ : ∃ k, os2ipLE (C.sha512 (trunc ++ C.toBytes (S.point h))) = k := ⟨_, rfl⟩
  rw [hk, mod_eq_emod S.toPrimeSubgroup] at hnonce
  obtain ⟨c, hc⟩ : ∃ c, C.challenge [C.toBytes (S.point ((a : ℤ) • B)), C.toBytes (S.point h),
    C.toBytes (S.point ((a : ℤ) • h)), C.toBytes (S.point ((k : ℤ) • B)),
    C.toBytes (S.point ((k : ℤ) • h))] = c := ⟨_, rfl⟩
  have hproof := prove_eq S ha hsecret hh hk
    (fun hdvd => hnonce (Int.emod_eq_zero_of_dvd hdvd)) hc
  refine ⟨_, hproof, ?_⟩
  have hlt := response_lt S.toPrimeSubgroup
  have hwidth : g.order < 256 ^ 32 := S.order_lt.trans (by decide)
  obtain ⟨hpoint, hchallenge, hresponse⟩ :=
    fields_eq (S.length_toBytes (S.point ((a : ℤ) • h))) (hc ▸ challenge_lt _)
      ((hlt (C.mod k + c * C.mod a)).trans hwidth)
  apply verify_eq_some_iff.mpr
  refine ⟨S.point ((a : ℤ) • B), S.point ((a : ℤ) • h), ?_, S.fromBytes_toBytes _,
    isValidVrfPoint_point S (g.zsmul_ne_zero_of_not_dvd S.base_ne ha), ?_,
    isValidVrfPoint_point S (g.zsmul_ne_zero_of_not_dvd hzero ha), ?_, ?_, proofToHash_point S _⟩
  · simp [S.length_toBytes]
  · rw [hpoint, S.fromBytes_toBytes]
  · rw [hresponse, S.order]
    exact_mod_cast hlt _
  · rw [hchallenge, hresponse, recomputed_of_input S.toPrimeSubgroup (hlt _) hh,
      response_zsmul S.toPrimeSubgroup, response_zsmul S.toPrimeSubgroup, hc]

end Ed25519

/-! ## A curve to run the code in -/

/-- The scalars as a curve, with a hash of 64 bytes. -/
def hashedCurve : Ed25519 := { scalarCurve with sha512 := fun _ => 1 :: List.replicate 63 0 }

theorem scalar_decoded (q : ZMod ristrettoOrder) :
    (os2ipLE (i2ospLE q.val 32) : ZMod ristrettoOrder) = q := by
  have : NeZero ristrettoOrder := ⟨ristrettoOrder_prime.ne_zero⟩
  rw [os2ipLE_i2ospLE ((ZMod.val_lt q).trans (by decide)), ZMod.natCast_zmod_val]

/-- All its points are in the subgroup. -/
def hashedSubgroup : CodedSubgroup hashedCurve scalarGroup.toPrimeGroup 1 where
  point := id
  order := rfl
  base := rfl
  torsionFree q _ := ⟨q, rfl⟩
  zero := rfl
  cleared q := ⟨hashedCurve.clearCofactor q, rfl⟩
  add _ _ := rfl
  multiply _ _ h0 h1 := if_pos ⟨h0, h1⟩
  multiplyUnsafe _ _ h0 h1 := if_pos ⟨h0, h1⟩
  base_ne := scalarGroup.G_ne
  torsionFree_point _ := rfl
  eq_zero_of_is0 _ h := of_decide_eq_true h
  fromBytes_toBytes q := congrArg Except.ok (scalar_decoded q)
  length_toBytes _ := length_i2ospLE _ _
  length_sha512 _ := rfl
  order_gt := by decide
  order_lt := by decide

/-- The seed of zeros and the empty input. -/
theorem verify_prove_zeros : ∃ secret out,
    hashedCurve.deriveSecret (List.replicate 32 0) = .ok secret ∧
      hashedCurve.vrfPublicKey (List.replicate 32 0) = .ok secret.ystr ∧
      hashedCurve.prove (List.replicate 32 0) [] = .ok out ∧
      hashedCurve.verify secret.ystr [] out.proof = some out.beta := by
  have hlength : (List.replicate 32 (0 : UInt8)).length = 32 := by simp
  obtain ⟨secret, hsecret, hkey, hproofs⟩ := Ed25519.verify_prove hashedSubgroup hlength
  have hnonce : hashedCurve.mod (os2ipLE (1 :: List.replicate 63 0)) ≠ 0 := by decide +kernel
  obtain ⟨out, hout⟩ := hproofs [] (8 * 1) rfl (by decide +kernel) hnonce
  exact ⟨secret, out, hsecret, hkey, hout⟩

end Nerion
