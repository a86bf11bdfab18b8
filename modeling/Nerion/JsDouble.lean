import Nerion.JsNumber
import Mathlib.Algebra.Order.Field.Power
import Mathlib.Tactic.Linarith

/-!
# The doubles among the numbers

A library on the finite numbers a double can be: those that rounding leaves alone. A positive
double is a whole multiple of its unit in the last place, and a number that is closer to it than
half that unit rounds to it; sixteen decimal digits after the first are always close enough.

* `IsDouble` — what a JavaScript number can be;
* `roundDouble_near` — a number within half of `10⁻¹⁶`, relatively, rounds to the double;
* `div`, `floor` — division and `Math.floor`, with the powers of two that divide exactly.
-/

namespace Nerion.JsNum

/-- The exponent of the unit in the last place. -/
def unitExponent (q : ℚ) : ℤ := max (Int.log 2 |q| - 52) (-1074)

/-- A value of the `number` type. -/
def IsDouble : JsNum → Prop
  | fin q => roundDouble q = fin q
  | _ => True

instance (x : JsNum) : Decidable x.IsDouble :=
  match x with
  | fin q => inferInstanceAs (Decidable (roundDouble q = fin q))
  | nan => isTrue trivial
  | posInf => isTrue trivial
  | negInf => isTrue trivial

/-! ## Rounding -/

theorem two_zpow_pos (e : ℤ) : (0 : ℚ) < 2 ^ e := zpow_pos two_pos e

theorem roundHalfEven_of_near {x : ℚ} {z : ℤ} (h : |x - z| < 1 / 2) : roundHalfEven x = z := by
  obtain ⟨hlo, hhi⟩ := abs_lt.mp h
  have hfloor := Int.floor_le x
  have hceil := Int.lt_floor_add_one x
  rw [roundHalfEven]
  -- the floor is `z` or the number before it
  rcases le_or_gt (z : ℚ) x with hz | hz
  · have hfz : ⌊x⌋ = z := Int.floor_eq_iff.mpr ⟨hz, by linarith⟩
    rw [hfz, if_pos (by linarith)]
  · have hfz : ⌊x⌋ = z - 1 := by
      refine Int.floor_eq_iff.mpr ⟨?_, ?_⟩ <;> push_cast <;> linarith
    rw [hfz]
    push_cast
    rw [if_neg (by linarith), if_pos (by linarith)]
    ring

/-- A number near a whole multiple of its own unit rounds to that multiple. -/
theorem roundDouble_of_near {x q : ℚ} {z : ℤ} (hx : x ≠ 0) (hq : q = z * 2 ^ unitExponent x)
    (hnear : |x / 2 ^ unitExponent x - z| < 1 / 2) (hlt : |q| < 2 ^ 1024) :
    roundDouble x = fin q := by
  obtain ⟨hneg, hpos⟩ := abs_lt.mp hlt
  have hv : (roundHalfEven (x / 2 ^ max (Int.log 2 |x| - 52) (-1074)) : ℚ) *
      (2 : ℚ) ^ max (Int.log 2 |x| - 52) (-1074) = q :=
    (congrArg (fun y : ℤ => (y : ℚ) * _) (roundHalfEven_of_near hnear)).trans hq.symm
  rw [roundDouble, if_neg hx]
  simp only [hv]
  rw [if_neg (not_le.mpr hpos), if_neg (not_le.mpr hneg)]

/-- **What a double is**: a whole multiple of its unit, in range. -/
theorem isDouble_fin_iff {q : ℚ} :
    IsDouble (fin q) ↔ (∃ z : ℤ, q = z * 2 ^ unitExponent q) ∧ |q| < 2 ^ 1024 := by
  have hunit := two_zpow_pos (unitExponent q)
  constructor
  · intro h
    have hround : roundDouble q = fin q := h
    rw [roundDouble] at hround
    split at hround
    · rename_i h0
      subst h0
      exact ⟨⟨0, by simp⟩, by simp⟩
    · dsimp only at hround
      split at hround
      · cases hround
      rename_i hpos
      split at hround
      · cases hround
      rename_i hneg
      have hv := JsNum.fin.inj hround
      rw [hv] at hpos hneg
      exact ⟨⟨_, hv.symm⟩, abs_lt.mpr ⟨not_le.mp hneg, not_le.mp hpos⟩⟩
  · rintro ⟨⟨z, hz⟩, hlt⟩
    by_cases h0 : q = 0
    · rw [h0, IsDouble, roundDouble, if_pos rfl]
    · refine roundDouble_of_near h0 hz ?_ hlt
      have hdiv : q / 2 ^ unitExponent q = z := (div_eq_iff hunit.ne').mpr hz
      rw [hdiv, sub_self, abs_zero]
      exact one_half_pos

theorem isDouble_neg {q : ℚ} : IsDouble (fin (-q)) ↔ IsDouble (fin q) := by
  have hunit : unitExponent (-q) = unitExponent q := by rw [unitExponent, abs_neg, unitExponent]
  rw [isDouble_fin_iff, isDouble_fin_iff, hunit, abs_neg]
  refine and_congr_left fun _ => ⟨?_, ?_⟩
  · rintro ⟨z, hz⟩
    refine ⟨-z, ?_⟩
    rw [Int.cast_neg, neg_mul, ← hz, neg_neg]
  · rintro ⟨z, hz⟩
    refine ⟨-z, ?_⟩
    rw [Int.cast_neg, neg_mul, ← hz]

theorem isDouble_natCast {n : ℕ} (h : n ≤ 2 ^ 53) : IsDouble (n : JsNum) := roundDouble_natCast h

/-! ## Numbers close to a double -/

section Near

variable {q x : ℚ}

/-- The powers of two around a positive number. -/
theorem log_bounds (hq : 0 < q) : (2 : ℚ) ^ Int.log 2 q ≤ q ∧ q < 2 ^ (Int.log 2 q + 1) := by
  have hlo := Int.zpow_log_le_self (b := 2) (by decide) hq
  have hhi := Int.lt_zpow_succ_log_self (b := 2) (by decide) q
  exact ⟨by exact_mod_cast hlo, by exact_mod_cast hhi⟩

theorem log_eq {l : ℤ} (hx : 0 < x) (hlo : (2 : ℚ) ^ l ≤ x) (hhi : x < 2 ^ (l + 1)) :
    Int.log 2 x = l := by
  have hle : l ≤ Int.log 2 x := (Int.zpow_le_iff_le_log (by decide) hx).mp (by exact_mod_cast hlo)
  have hlt : Int.log 2 x < l + 1 :=
    (Int.lt_zpow_iff_log_lt (by decide) hx).mp (by exact_mod_cast hhi)
  omega

theorem unitExponent_of_pos (hq : 0 < q) : unitExponent q = max (Int.log 2 q - 52) (-1074) := by
  rw [unitExponent, abs_of_pos hq]

/-- A positive multiple of its unit is not below it. -/
theorem unitExponent_le_log {z : ℤ} (hq : 0 < q) (hz : q = z * 2 ^ unitExponent q) :
    unitExponent q ≤ Int.log 2 q := by
  have hunit := two_zpow_pos (unitExponent q)
  have hzpos : (0 : ℚ) < z := by
    rw [hz] at hq
    exact (mul_pos_iff_of_pos_right hunit).mp hq
  have hone : (1 : ℚ) ≤ z := by
    have hz0 : 0 < z := by exact_mod_cast hzpos
    exact_mod_cast hz0
  refine (Int.zpow_le_iff_le_log (by decide) hq).mp ?_
  calc ((2 : ℕ) : ℚ) ^ unitExponent q = 1 * 2 ^ unitExponent q := by simp
    _ ≤ z * 2 ^ unitExponent q := by gcongr
    _ = q := hz.symm

/-- Two multiples of a unit that differ are a unit apart. -/
theorem add_unit_le {e : ℤ} {y z : ℤ} (h : (y : ℚ) * 2 ^ e < z * 2 ^ e) :
    (y : ℚ) * 2 ^ e + 2 ^ e ≤ z * 2 ^ e := by
  have hunit := two_zpow_pos e
  have hlt : y < z := by exact_mod_cast lt_of_mul_lt_mul_right h hunit.le
  have hle : (y : ℚ) + 1 ≤ z := by exact_mod_cast hlt
  calc (y : ℚ) * 2 ^ e + 2 ^ e = (y + 1) * 2 ^ e := by ring
    _ ≤ z * 2 ^ e := by gcongr

theorem two_zpow_eq_mul {l e : ℤ} (h : e ≤ l) : ∃ z : ℤ, (2 : ℚ) ^ l = z * 2 ^ e := by
  refine ⟨2 ^ (l - e).toNat, ?_⟩
  push_cast
  rw [← zpow_natCast, ← zpow_add₀ two_ne_zero, Int.toNat_of_nonneg (by omega), sub_add_cancel]

theorem log_lt_unitExponent (hq : 0 < q) : Int.log 2 q + 1 ≤ unitExponent q + 53 := by
  rw [unitExponent_of_pos hq]
  omega

/-- Sixteen digits are less than a unit. -/
theorem div_lt_unit {e : ℤ} (h : q ≤ 2 ^ (e + 53)) : q / 10 ^ 16 < 2 ^ e := by
  have hmul : q ≤ 2 ^ e * 2 ^ 53 := by
    refine h.trans_eq ?_
    rw [zpow_add₀ two_ne_zero]
    norm_cast
  have hten : (2 : ℚ) ^ e * 2 ^ 53 < 2 ^ e * 10 ^ 16 :=
    mul_lt_mul_of_pos_left (by norm_num) (two_zpow_pos e)
  exact (div_lt_iff₀ (by positivity)).mpr (hmul.trans_lt hten)

theorem le_two_zpow (hq : 0 < q) : q ≤ 2 ^ (unitExponent q + 53) :=
  (log_bounds hq).2.le.trans (zpow_le_zpow_right₀ one_le_two (log_lt_unitExponent hq))

/-- A close number that is not below the power of two under `q` has the unit of `q`. -/
theorem unitExponent_of_near {z : ℤ} (hq : 0 < q) (hz : q = z * 2 ^ unitExponent q)
    (hnear : x ≤ q + q / 10 ^ 16 / 2) (hin : (2 : ℚ) ^ Int.log 2 q ≤ x) :
    unitExponent x = unitExponent q := by
  have hx : 0 < x := (two_zpow_pos _).trans_le hin
  have hle := unitExponent_le_log hq hz
  have hhi := (log_bounds hq).2
  have hsmall := div_lt_unit (le_two_zpow hq)
  obtain ⟨y, hy⟩ := two_zpow_eq_mul (hle.trans (Int.le_add_one le_rfl))
  -- the next power of two is a whole unit above `q`
  have htop : q + 2 ^ unitExponent q ≤ 2 ^ (Int.log 2 q + 1) := by
    have hgap : (z : ℚ) * 2 ^ unitExponent q < y * 2 ^ unitExponent q := by
      rw [← hy, ← hz]
      exact hhi
    have hstep := add_unit_le hgap
    rwa [← hy, ← hz] at hstep
  have hlog : Int.log 2 x = Int.log 2 q := log_eq hx hin (by linarith)
  rw [unitExponent_of_pos hx, hlog, unitExponent_of_pos hq]

/-- Only from a power of two does a close number fall below it. -/
theorem eq_two_zpow_of_near {z : ℤ} (hq : 0 < q) (hz : q = z * 2 ^ unitExponent q)
    (hnear : q - q / 10 ^ 16 / 2 ≤ x) (hbelow : x < 2 ^ Int.log 2 q) :
    q = 2 ^ Int.log 2 q ∧ Int.log 2 x = Int.log 2 q - 1 := by
  have hlo := (log_bounds hq).1
  have hsmall := div_lt_unit (le_two_zpow hq)
  obtain ⟨y, hy⟩ := two_zpow_eq_mul (unitExponent_le_log hq hz)
  have hpow : q = 2 ^ Int.log 2 q := by
    by_contra hne
    have hlt : (2 : ℚ) ^ Int.log 2 q < q := lt_of_le_of_ne hlo (Ne.symm hne)
    have hgap : (y : ℚ) * 2 ^ unitExponent q < z * 2 ^ unitExponent q := by
      rw [← hy, ← hz]
      exact hlt
    have hstep := add_unit_le hgap
    rw [← hy, ← hz] at hstep
    linarith
  refine ⟨hpow, log_eq (by linarith) ?_ (by rwa [sub_add_cancel])⟩
  rw [zpow_sub_one₀ two_ne_zero, ← hpow]
  linarith

/-- The unit of a number close to a double `q`: `q` is a multiple of it, and at most `2 ^ 53` of
it. Below a power of two the unit is half of that above it, and `q` may be that power. -/
theorem unit_of_near (hq : 0 < q) (hdouble : IsDouble (fin q)) (hnear : |x - q| ≤ q / 10 ^ 16 / 2) :
    0 < x ∧ (∃ z : ℤ, q = z * 2 ^ unitExponent x) ∧ q ≤ 2 ^ (unitExponent x + 53) := by
  obtain ⟨⟨z, hz⟩, -⟩ := isDouble_fin_iff.mp hdouble
  obtain ⟨hlo, hhi⟩ := abs_le.mp hnear
  have hx : 0 < x := by linarith
  refine ⟨hx, ?_⟩
  rcases le_or_gt ((2 : ℚ) ^ Int.log 2 q) x with hin | hbelow
  · rw [unitExponent_of_near hq hz (by linarith) hin]
    exact ⟨⟨z, hz⟩, le_two_zpow hq⟩
  · obtain ⟨hpow, hlog⟩ := eq_two_zpow_of_near hq hz (by linarith) hbelow
    have hexp : unitExponent x ≤ unitExponent q := by
      rw [unitExponent_of_pos hx, hlog, unitExponent_of_pos hq]
      omega
    obtain ⟨w, hw⟩ := two_zpow_eq_mul hexp
    refine ⟨⟨z * w, ?_⟩, hpow.le.trans (zpow_le_zpow_right₀ one_le_two ?_)⟩
    · rw [Int.cast_mul, mul_assoc, ← hw]
      exact hz
    · rw [unitExponent_of_pos hx, hlog]
      omega

/-- **A number close to a double rounds to it.** -/
theorem roundDouble_near (hq : 0 < q) (hdouble : IsDouble (fin q))
    (hnear : |x - q| ≤ q / 10 ^ 16 / 2) : roundDouble x = fin q := by
  obtain ⟨hx, ⟨z, hz⟩, hle⟩ := unit_of_near hq hdouble hnear
  have hunit := two_zpow_pos (unitExponent x)
  refine roundDouble_of_near hx.ne' hz ?_ (isDouble_fin_iff.mp hdouble).2
  have hdist : |x / 2 ^ unitExponent x - z| = |x - q| / 2 ^ unitExponent x := by
    rw [← abs_of_pos hunit, ← abs_div, abs_of_pos hunit, sub_div]
    congr 2
    exact ((div_eq_iff hunit.ne').mpr hz).symm
  rw [hdist, div_lt_iff₀ hunit]
  have hdiv := div_lt_unit hle
  linarith

end Near

/-! ## Division and rounding down -/

/-- `a / b`; a zero divisor is the positive one. -/
def div : JsNum → JsNum → JsNum
  | fin a, fin b =>
    if b = 0 then (if a = 0 then nan else if 0 < a then posInf else negInf)
    else roundDouble (a / b)
  | fin _, posInf => fin 0
  | fin _, negInf => fin 0
  | posInf, fin b => if 0 ≤ b then posInf else negInf
  | negInf, fin b => if 0 ≤ b then negInf else posInf
  | _, _ => nan

/-- `Math.floor(a)`. -/
def floor : JsNum → JsNum
  | fin q => fin ⌊q⌋
  | a => a

/-- A power of two divides a whole double exactly. -/
theorem roundDouble_div_two_pow {n k : ℕ} (hn : IsDouble (n : JsNum)) (hk : k ≤ 1022) :
    roundDouble ((n : ℚ) / 2 ^ k) = fin ((n : ℚ) / 2 ^ k) := by
  rcases Nat.eq_zero_or_pos n with rfl | hpos
  · simp [roundDouble]
  have hn0 : (0 : ℚ) < n := by exact_mod_cast hpos
  have hpow : (0 : ℚ) < 2 ^ k := by positivity
  obtain ⟨⟨z, hz⟩, hlt⟩ := isDouble_fin_iff.mp hn
  obtain ⟨hlo, hhi⟩ := log_bounds hn0
  have hlog0 : 0 ≤ Int.log 2 (n : ℚ) := by
    rw [Int.log_natCast]
    exact Int.natCast_nonneg _
  -- the quotient has the same digits, `k` places lower
  have hquot : 0 < (n : ℚ) / 2 ^ k := div_pos hn0 hpow
  have hlog : Int.log 2 ((n : ℚ) / 2 ^ k) = Int.log 2 (n : ℚ) - k := by
    refine log_eq hquot ?_ ?_
    · rw [le_div_iff₀ hpow, zpow_sub₀ two_ne_zero, zpow_natCast, div_mul_cancel₀ _ hpow.ne']
      exact hlo
    · rw [div_lt_iff₀ hpow, sub_add_eq_add_sub, zpow_sub₀ two_ne_zero, zpow_natCast,
        div_mul_cancel₀ _ hpow.ne']
      exact hhi
  refine isDouble_fin_iff.mpr ⟨?_, ?_⟩
  · have hexp : unitExponent ((n : ℚ) / 2 ^ k) ≤ unitExponent (n : ℚ) - k ∨
        unitExponent ((n : ℚ) / 2 ^ k) ≤ -k := by
      rw [unitExponent_of_pos hquot, hlog, unitExponent_of_pos hn0]
      omega
    rcases hexp with hexp | hexp
    · obtain ⟨w, hw⟩ := two_zpow_eq_mul hexp
      refine ⟨z * w, ?_⟩
      push_cast
      rw [mul_assoc, ← hw, zpow_sub₀ two_ne_zero, zpow_natCast, ← mul_div_assoc]
      exact congrArg (· / _) hz
    · obtain ⟨w, hw⟩ := two_zpow_eq_mul hexp
      refine ⟨n * w, ?_⟩
      push_cast
      rw [mul_assoc, ← hw, zpow_neg, zpow_natCast, div_eq_mul_inv]
  · rw [abs_of_pos hquot]
    rw [abs_of_pos hn0] at hlt
    exact (div_le_self hn0.le (one_le_pow₀ one_le_two)).trans_lt hlt

/-- A whole number that a power of two was divided out of is a double. -/
theorem isDouble_natCast_div {n k : ℕ} (hn : IsDouble (n : JsNum)) (hk : k ≤ 1022) :
    IsDouble ((n / 2 ^ k : ℕ) : JsNum) := by
  rcases le_or_gt (n / 2 ^ k) (2 ^ 53) with hsmall | hlarge
  · exact isDouble_natCast hsmall
  -- a large quotient is whole, since its unit is at least one
  have hquot : IsDouble (fin ((n : ℚ) / 2 ^ k)) := roundDouble_div_two_pow hn hk
  suffices hwhole : ((n / 2 ^ k : ℕ) : ℚ) = (n : ℚ) / 2 ^ k by
    rw [natCast_def, hwhole]
    exact hquot
  obtain ⟨⟨z, hz⟩, -⟩ := isDouble_fin_iff.mp hquot
  have hge : (2 : ℚ) ^ (53 : ℤ) ≤ (n : ℚ) / 2 ^ k := by
    have hfloor : ((n / 2 ^ k : ℕ) : ℚ) ≤ (n : ℚ) / 2 ^ k := by
      rw [le_div_iff₀ (by positivity)]
      exact_mod_cast Nat.div_mul_le_self n (2 ^ k)
    have h53 : ((2 ^ 53 : ℕ) : ℚ) ≤ ((n / 2 ^ k : ℕ) : ℚ) := by exact_mod_cast hlarge.le
    have hnorm : (2 : ℚ) ^ (53 : ℤ) = ((2 ^ 53 : ℕ) : ℚ) := by norm_num
    rw [hnorm]
    exact h53.trans hfloor
  have hquot0 : 0 < (n : ℚ) / 2 ^ k := (two_zpow_pos 53).trans_le hge
  have hlog : 53 ≤ Int.log 2 ((n : ℚ) / 2 ^ k) :=
    (Int.zpow_le_iff_le_log (by decide) hquot0).mp (by exact_mod_cast hge)
  have hexp : 0 ≤ unitExponent ((n : ℚ) / 2 ^ k) := by
    rw [unitExponent_of_pos hquot0]
    omega
  obtain ⟨w, hw⟩ := two_zpow_eq_mul hexp
  have hint : (n : ℚ) / 2 ^ k = ((z * w : ℤ) : ℚ) := by
    rw [hz, hw, zpow_zero, mul_one]
    push_cast
    rfl
  have hfloor : ⌊(n : ℚ) / 2 ^ k⌋ = ((n / 2 ^ k : ℕ) : ℤ) := by
    have hdiv := Rat.floor_natCast_div_natCast n (2 ^ k)
    push_cast at hdiv ⊢
    exact hdiv
  rw [hint, Int.floor_intCast] at hfloor
  rw [hint, hfloor]
  push_cast
  rfl

/-- `Math.floor(v / 2ᵏ)` of a whole double. -/
theorem floor_div_two_pow {n k : ℕ} (hn : IsDouble (n : JsNum)) (hk : k ≤ 1022) :
    floor (div (n : JsNum) ((2 ^ k : ℕ) : JsNum)) = ((n / 2 ^ k : ℕ) : JsNum) := by
  have hne : ((2 ^ k : ℕ) : ℚ) ≠ 0 := by positivity
  have hdiv : div (n : JsNum) ((2 ^ k : ℕ) : JsNum) = fin ((n : ℚ) / 2 ^ k) := by
    change (if ((2 ^ k : ℕ) : ℚ) = 0 then _ else roundDouble ((n : ℚ) / (2 ^ k : ℕ))) = _
    rw [if_neg hne]
    push_cast
    exact roundDouble_div_two_pow hn hk
  rw [hdiv, floor, natCast_def]
  congr 1
  have hfloor := Rat.floor_natCast_div_natCast n (2 ^ k)
  push_cast at hfloor ⊢
  rw [hfloor]
  norm_cast

end Nerion.JsNum
