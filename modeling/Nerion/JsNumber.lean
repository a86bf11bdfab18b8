import Mathlib.Data.Rat.Floor
import Mathlib.Data.Int.Log
import Mathlib.Data.Rat.Cast.Order

/-!
# JavaScript numbers

A library model of the `number` type, free of any program. A value is `NaN`, one of
the two infinities, or finite; the finite ones are rationals, of which the doubles are
some (so a statement about every `JsNum` covers every JavaScript number). Negative
zero is not a separate value: `===`, `<`, `Map` keys and deterministic CBOR all
identify it with zero.

* comparisons as `<`, `<=`, `===` decide them: every comparison with `NaN` is false;
* `Number.isInteger`, `Number.isSafeInteger`, `Math.min`, `Math.max`;
* addition rounds to the nearest double, ties to even (`roundDouble`), and is exact on
  natural numbers up to `2 ^ 53` (`add_natCast`);
* `text` is the decimal text of a number;
* the bitwise operators work on 32-bit two's complement (`toInt32`), and agree with
  those of `ℕ` below `2 ^ 31`.
-/

namespace Nerion

/-- A JavaScript number. -/
inductive JsNum where
  /-- not a number -/
  | nan
  /-- `Infinity` -/
  | posInf
  /-- `-Infinity` -/
  | negInf
  /-- a finite value -/
  | fin (q : ℚ)
  deriving DecidableEq

namespace JsNum

instance : NatCast JsNum := ⟨fun n => fin n⟩

instance : IntCast JsNum := ⟨fun z => fin z⟩

instance (n : ℕ) : OfNat JsNum n := ⟨fin n⟩

theorem natCast_def (n : ℕ) : (n : JsNum) = fin n := rfl

theorem intCast_def (z : ℤ) : (z : JsNum) = fin z := rfl

theorem zero_def : (0 : JsNum) = ((0 : ℕ) : JsNum) := rfl

theorem natCast_injective : Function.Injective (Nat.cast : ℕ → JsNum) := by
  intro a b h
  have hq : (a : ℚ) = b := JsNum.fin.inj h
  exact_mod_cast hq

/-! ## Comparisons -/

/-- `a < b`. -/
def lt : JsNum → JsNum → Bool
  | fin a, fin b => decide (a < b)
  | negInf, fin _ => true
  | negInf, posInf => true
  | fin _, posInf => true
  | _, _ => false

/-- `a <= b`. -/
def le (a b : JsNum) : Bool := a != nan && b != nan && !lt b a

/-- `a === b`. -/
def strictEq (a b : JsNum) : Bool := a != nan && a == b

variable {a b : JsNum}

theorem strictEq_iff : strictEq a b = true ↔ a ≠ nan ∧ a = b := by
  simp [strictEq]

theorem lt_fin {a b : ℚ} : lt (fin a) (fin b) = true ↔ a < b := by simp [lt]

theorem le_fin {a b : ℚ} : le (fin a) (fin b) = true ↔ a ≤ b := by simp [le, lt]

theorem lt_of_lt_of_le {a b c : JsNum} (h1 : lt a b = true) (h2 : le b c = true) :
    lt a c = true := by
  cases a <;> cases b <;> cases c <;> simp_all [lt, le]
  exact h1.trans_le h2

theorem lt_of_le_of_lt {a b c : JsNum} (h1 : le a b = true) (h2 : lt b c = true) :
    lt a c = true := by
  cases a <;> cases b <;> cases c <;> simp_all [lt, le]
  exact h1.trans_lt h2

theorem lt_asymm (h : lt a b = true) : ¬ lt b a = true := by
  cases a <;> cases b <;> simp_all [lt]
  exact h.le

theorem le_trans {a b c : JsNum} (h1 : le a b = true) (h2 : le b c = true) : le a c = true := by
  cases a <;> cases b <;> cases c <;> simp_all [lt, le]
  exact h1.trans h2

theorem not_lt_of_le (h : le a b = true) : lt b a = false := by
  simp only [le, Bool.and_eq_true, Bool.not_eq_true'] at h
  exact h.2

theorem le_of_lt (h : lt a b = true) : le a b = true := by
  cases a <;> cases b <;> simp_all [lt, le]
  exact h.le

theorem le_of_not_lt (h : lt a b = false) (ha : a ≠ nan) (hb : b ≠ nan) : le b a = true := by
  simp [le, h, ha, hb]

theorem le_iff_not_lt (ha : a ≠ nan) (hb : b ≠ nan) : le a b = true ↔ lt b a = false :=
  ⟨not_lt_of_le, fun h => le_of_not_lt h hb ha⟩

/-- Numbers are linearly ordered, up to `NaN`. -/
theorem lt_of_not_lt {a : ℕ} {b : JsNum} (h : lt b (a : JsNum) = false) (hnan : b ≠ nan)
    (hne : b ≠ (a : JsNum)) : lt (a : JsNum) b = true := by
  cases b with
  | nan => exact absurd rfl hnan
  | posInf => rfl
  | negInf => cases h
  | fin q =>
    have hle : (a : ℚ) ≤ q := by
      refine not_lt.mp fun hlt => ?_
      rw [natCast_def, lt_fin.mpr hlt] at h
      cases h
    refine lt_fin.mpr (hle.lt_of_ne fun heq => hne ?_)
    rw [natCast_def, heq]

/-! ## The smaller and the larger -/

/-- `Math.min(a, b)`. -/
def mathMin (a b : JsNum) : JsNum := if a = nan ∨ b = nan then nan else if lt b a then b else a

/-- `Math.max(a, b)`. -/
def mathMax (a b : JsNum) : JsNum := if a = nan ∨ b = nan then nan else if lt a b then b else a

theorem mathMin_eq (ha : a ≠ nan) (hb : b ≠ nan) :
    mathMin a b = if lt b a then b else a := if_neg (not_or.mpr ⟨ha, hb⟩)

theorem mathMax_eq (ha : a ≠ nan) (hb : b ≠ nan) :
    mathMax a b = if lt a b then b else a := if_neg (not_or.mpr ⟨ha, hb⟩)

theorem mathMin_mem (ha : a ≠ nan) (hb : b ≠ nan) : mathMin a b = a ∨ mathMin a b = b := by
  rw [mathMin_eq ha hb]
  split
  · exact .inr rfl
  · exact .inl rfl

theorem mathMax_mem (ha : a ≠ nan) (hb : b ≠ nan) : mathMax a b = a ∨ mathMax a b = b := by
  rw [mathMax_eq ha hb]
  split
  · exact .inr rfl
  · exact .inl rfl

theorem le_self {a : JsNum} (ha : a ≠ nan) : le a a = true :=
  le_of_not_lt (Bool.eq_false_iff.mpr fun h => lt_asymm h h) ha ha

/-- The smaller is not above either. -/
theorem mathMin_le (ha : a ≠ nan) (hb : b ≠ nan) :
    le (mathMin a b) a = true ∧ le (mathMin a b) b = true := by
  rw [mathMin_eq ha hb]
  split
  · rename_i h
    exact ⟨le_of_lt h, le_self hb⟩
  · rename_i h
    exact ⟨le_self ha, le_of_not_lt (Bool.eq_false_iff.mpr h) hb ha⟩

/-- What is not above the smaller is not above either. -/
theorem mathMin_lt_eq_false {a b x : JsNum} (ha : a ≠ nan) (hb : b ≠ nan) :
    lt (mathMin a b) x = false ↔ lt a x = false ∧ lt b x = false := by
  rw [mathMin_eq ha hb]
  simp only [Bool.eq_false_iff]
  split
  · rename_i h
    exact ⟨fun hbx => ⟨fun hax => hbx (lt_of_lt_of_le h (le_of_lt hax)), hbx⟩, And.right⟩
  · rename_i h
    have hle := le_of_not_lt (Bool.eq_false_iff.mpr h) hb ha
    exact ⟨fun hax => ⟨hax, fun hbx => hax (lt_of_le_of_lt hle hbx)⟩, And.left⟩

/-- What is not below the larger is not below either. -/
theorem lt_mathMax_eq_false {a b x : JsNum} (ha : a ≠ nan) (hb : b ≠ nan) :
    lt x (mathMax a b) = false ↔ lt x a = false ∧ lt x b = false := by
  rw [mathMax_eq ha hb]
  simp only [Bool.eq_false_iff]
  split
  · rename_i h
    exact ⟨fun hxb => ⟨fun hxa => hxb (lt_of_lt_of_le hxa (le_of_lt h)), hxb⟩, And.right⟩
  · rename_i h
    have hle := le_of_not_lt (Bool.eq_false_iff.mpr h) ha hb
    exact ⟨fun hxa => ⟨hxa, fun hxb => hxa (lt_of_lt_of_le hxb hle)⟩, And.left⟩

/-- `Number.isFinite`. -/
def isFinite : JsNum → Bool
  | fin _ => true
  | _ => false

/-! ## Integers -/

/-- `Number.isInteger`. -/
def isInteger : JsNum → Bool
  | fin q => q.den == 1
  | _ => false

/-- `Number.MAX_SAFE_INTEGER`. -/
def maxSafe : ℚ := 2 ^ 53 - 1

/-- `Number.isSafeInteger`. -/
def isSafeInteger : JsNum → Bool
  | fin q => q.den == 1 && decide (-maxSafe ≤ q) && decide (q ≤ maxSafe)
  | _ => false

/-- The integer an integral number stands for. -/
def toInt : JsNum → ℤ
  | fin q => q.num
  | _ => 0

@[simp] theorem isInteger_natCast (n : ℕ) : isInteger (n : JsNum) = true := by
  simp [isInteger]

@[simp] theorem toInt_natCast (n : ℕ) : toInt (n : JsNum) = n := by
  simp [toInt]

theorem eq_intCast_of_isInteger {a : JsNum} (h : isInteger a = true) : a = (toInt a : JsNum) := by
  cases a with
  | fin q =>
    simp only [isInteger, beq_iff_eq] at h
    rw [intCast_def, toInt]
    congr 1
    exact (Rat.den_eq_one_iff q).mp h |>.symm
  | _ => simp [isInteger] at h

/-- A non-negative integral number is a natural number. -/
theorem exists_natCast_of_isInteger {a : JsNum} (h : isInteger a = true) (h0 : lt a 0 = false) :
    ∃ n : ℕ, a = n := by
  have ha := eq_intCast_of_isInteger h
  rw [ha] at h0
  have hz : 0 ≤ toInt a := by
    have : ¬ ((toInt a : ℤ) : ℚ) < ((0 : ℕ) : ℚ) := by
      intro hlt
      have := lt_fin.mpr hlt
      rw [show fin ((0 : ℕ) : ℚ) = (0 : JsNum) from rfl, ← intCast_def, h0] at this
      cases this
    push_cast at this
    exact_mod_cast not_lt.mp this
  refine ⟨(toInt a).toNat, ha.trans ?_⟩
  rw [intCast_def, natCast_def]
  congr 1
  exact_mod_cast (Int.toNat_of_nonneg hz).symm

/-- The natural numbers that are safe integers. -/
theorem isSafeInteger_natCast {n : ℕ} : isSafeInteger (n : JsNum) = true ↔ n < 2 ^ 53 := by
  have hpos : -maxSafe ≤ (n : ℚ) :=
    calc -maxSafe ≤ 0 := by norm_num [maxSafe]
      _ ≤ n := Nat.cast_nonneg n
  have hle : (n : ℚ) ≤ maxSafe ↔ n < 2 ^ 53 := by
    rw [maxSafe, le_sub_iff_add_le, Nat.lt_iff_add_one_le]
    exact_mod_cast Iff.rfl
  simp [isSafeInteger, hpos, hle]

theorem isInteger_of_isSafeInteger {a : JsNum} (h : isSafeInteger a = true) :
    isInteger a = true := by
  cases a with
  | fin q =>
    rw [isSafeInteger, Bool.and_eq_true, Bool.and_eq_true] at h
    exact h.1.1
  | _ => cases h

theorem ne_nan_of_isSafeInteger {a : JsNum} (h : isSafeInteger a = true) : a ≠ nan := by
  rintro rfl
  cases h

theorem le_of_isSafeInteger (ha : isSafeInteger a = true) (hb : isSafeInteger b = true)
    (h : lt b a = false) : le a b = true := by
  cases a <;> cases b <;> simp_all [isSafeInteger, le]

theorem lt_natCast {a b : ℕ} : lt (a : JsNum) (b : JsNum) = decide (a < b) := by
  simp [lt]

theorem le_natCast {a b : ℕ} : le (a : JsNum) (b : JsNum) = decide (a ≤ b) := by
  rw [Bool.eq_iff_iff, natCast_def, natCast_def, le_fin, decide_eq_true_iff]
  exact Nat.cast_le

theorem strictEq_natCast {a b : ℕ} : strictEq (a : JsNum) (b : JsNum) = decide (a = b) := by
  rw [Bool.eq_iff_iff, strictEq_iff, decide_eq_true_iff]
  exact ⟨fun h => natCast_injective h.2, fun h => ⟨nofun, congrArg _ h⟩⟩

/-- For an integer, `!(a < 1)` is `1 <= a`. -/
theorem one_le_iff {a : JsNum} (h : isInteger a = true) : le 1 a = true ↔ lt a 1 = false := by
  have hnan : a ≠ nan := by
    rintro rfl
    cases h
  have hone : (1 : JsNum) ≠ nan := nofun
  simp [le, hnan, hone]

/-- A positive integral number is a positive natural number. -/
theorem exists_natCast_of_one_le {a : JsNum} (h : isInteger a = true) (h1 : le 1 a = true) :
    ∃ n : ℕ, 1 ≤ n ∧ a = n := by
  have hzero : le 0 1 = true := le_natCast (a := 0) (b := 1)
  obtain ⟨n, rfl⟩ := exists_natCast_of_isInteger h (not_lt_of_le (le_trans hzero h1))
  have hone : le ((1 : ℕ) : JsNum) (n : JsNum) = true := h1
  rw [le_natCast, decide_eq_true_iff] at hone
  exact ⟨n, hone, rfl⟩

/-! ## Addition -/

/-- Nearest integer, ties to even. -/
def roundHalfEven (q : ℚ) : ℤ :=
  let f := ⌊q⌋
  let d := q - f
  if d < 1 / 2 then f else if 1 / 2 < d then f + 1 else if f % 2 = 0 then f else f + 1

/-- Nearest double: 53 significant bits, exponents from `-1074`, overflow to an
infinity. -/
def roundDouble (q : ℚ) : JsNum :=
  if q = 0 then fin 0
  else
    let e := max (Int.log 2 |q| - 52) (-1074)
    let v := roundHalfEven (q / 2 ^ e) * (2 : ℚ) ^ e
    if 2 ^ 1024 ≤ v then posInf else if v ≤ -2 ^ 1024 then negInf else fin v

/-- `a + b`. -/
def add : JsNum → JsNum → JsNum
  | fin a, fin b => roundDouble (a + b)
  | nan, _ => nan
  | _, nan => nan
  | posInf, negInf => nan
  | negInf, posInf => nan
  | posInf, _ => posInf
  | _, posInf => posInf
  | negInf, _ => negInf
  | _, negInf => negInf

instance : Add JsNum := ⟨add⟩

/-- A sum of finite numbers is a number. -/
theorem add_ne_nan (ha : isSafeInteger a = true) (hb : isSafeInteger b = true) : a + b ≠ nan := by
  cases a with
  | fin p =>
    cases b with
    | fin q =>
      change roundDouble (p + q) ≠ nan
      rw [roundDouble]
      dsimp only
      split_ifs <;> nofun
    | _ => cases hb
  | _ => cases ha

/-- `-a`. -/
def neg : JsNum → JsNum
  | nan => nan
  | posInf => negInf
  | negInf => posInf
  | fin q => fin (-q)

/-- `a - b`. -/
instance : Sub JsNum := ⟨fun a b => add a (neg b)⟩

theorem roundHalfEven_intCast (z : ℤ) : roundHalfEven z = z := by
  rw [roundHalfEven]
  simp

/-- A value that is a whole multiple of its rounding unit is a double. -/
theorem roundDouble_of_int {q : ℚ} {z : ℤ}
    (hz : q / 2 ^ max (Int.log 2 |q| - 52) (-1074) = z) (hpos : -2 ^ 1024 < q)
    (hlt : q < 2 ^ 1024) : roundDouble q = fin q := by
  have hv : (roundHalfEven (q / 2 ^ max (Int.log 2 |q| - 52) (-1074)) : ℚ) *
      (2 : ℚ) ^ max (Int.log 2 |q| - 52) (-1074) = q := by
    rw [hz, roundHalfEven_intCast, ← hz, div_mul_cancel₀ _ (zpow_ne_zero _ two_ne_zero)]
  rw [roundDouble]
  split
  · rename_i h0
    rw [h0]
  · simp only [hv]
    rw [if_neg (not_le.mpr hlt), if_neg (not_le.mpr hpos)]

/-- Natural numbers up to `2 ^ 53` are doubles. -/
theorem roundDouble_natCast {n : ℕ} (hn : n ≤ 2 ^ 53) : roundDouble n = fin n := by
  rcases Nat.eq_zero_or_pos n with rfl | hpos
  · simp [roundDouble]
  have hlog : Int.log 2 |(n : ℚ)| = Nat.log 2 n := by
    rw [Nat.abs_cast]
    exact Int.log_natCast 2 n
  have hbound : (n : ℚ) < 2 ^ 1024 := by
    have hcast : (n : ℚ) ≤ 2 ^ 53 := by exact_mod_cast hn
    exact hcast.trans_lt (pow_lt_pow_right₀ one_lt_two (by decide))
  have hneg : -2 ^ 1024 < (n : ℚ) := by
    have hzero : (0 : ℚ) ≤ n := Nat.cast_nonneg n
    exact (neg_lt_zero.mpr (pow_pos two_pos _)).trans_le hzero
  rcases hn.eq_or_lt with rfl | hlt
  · -- the bound itself is a power of two
    refine roundDouble_of_int (z := 2 ^ 52) ?_ hneg hbound
    rw [hlog, Nat.log_pow (by decide)]
    norm_num
  · -- below it the unit is at most one
    have hle : Nat.log 2 n ≤ 52 := Nat.lt_succ_iff.mp (Nat.log_lt_of_lt_pow hpos.ne' hlt)
    obtain ⟨k, hk⟩ : ∃ k : ℕ, max ((Nat.log 2 n : ℤ) - 52) (-1074) = -(k : ℤ) := by
      refine ⟨(-max ((Nat.log 2 n : ℤ) - 52) (-1074)).toNat, ?_⟩
      rw [Int.toNat_of_nonneg (by omega), neg_neg]
    refine roundDouble_of_int (z := n * 2 ^ k) ?_ hneg hbound
    rw [hlog, hk, zpow_neg, zpow_natCast, div_inv_eq_mul]
    push_cast
    rfl

/-- Addition is exact up to `2 ^ 53`. -/
theorem add_natCast {a b : ℕ} (h : a + b ≤ 2 ^ 53) :
    (a : JsNum) + (b : JsNum) = ((a + b : ℕ) : JsNum) := by
  change roundDouble ((a : ℚ) + b) = _
  rw [← Nat.cast_add, roundDouble_natCast h, natCast_def]

/-- Subtraction is exact up to `2 ^ 53`. -/
theorem sub_natCast {a b : ℕ} (hle : b ≤ a) (h : a ≤ 2 ^ 53) :
    (a : JsNum) - (b : JsNum) = ((a - b : ℕ) : JsNum) := by
  change roundDouble ((a : ℚ) + -b) = _
  rw [← sub_eq_add_neg, ← Nat.cast_sub hle, roundDouble_natCast ((Nat.sub_le _ _).trans h),
    natCast_def]

/-- A safe integer ahead of `a` and not beyond `a + b` is one of the next `b` numbers; where
`a + b` is rounded, no safe integer is that large. -/
theorem exists_natCast_of_window {a b : ℕ} {k : JsNum} (hsafe : isSafeInteger k = true)
    (hahead : lt (a : JsNum) k = true) (hwindow : lt ((a : JsNum) + (b : JsNum)) k = false) :
    ∃ j : ℕ, k = j ∧ a < j ∧ j ≤ a + b := by
  cases k with
  | fin q =>
    simp only [isSafeInteger, Bool.and_eq_true, beq_iff_eq, decide_eq_true_iff] at hsafe
    obtain ⟨⟨hden, -⟩, hmax⟩ := hsafe
    have haq : (a : ℚ) < q := lt_fin.mp hahead
    have hint : isInteger (fin q) = true := by
      rw [isInteger, hden]
      rfl
    have hpos : lt (fin q) 0 = false := by
      refine (Bool.not_eq_true _).mp fun hlt => ?_
      have hq : q < ((0 : ℕ) : ℚ) := lt_fin.mp hlt
      have ha : (0 : ℚ) ≤ a := Nat.cast_nonneg a
      rw [Nat.cast_zero] at hq
      exact absurd (ha.trans_lt haq) (not_lt.mpr hq.le)
    obtain ⟨j, hj⟩ := exists_natCast_of_isInteger hint hpos
    rw [hj, lt_natCast, decide_eq_true_iff] at hahead
    refine ⟨j, hj, hahead, ?_⟩
    by_contra hgt
    have hjmax : j ≤ 2 ^ 53 - 1 := by
      have hjq : q = j := JsNum.fin.inj hj
      rw [hjq, maxSafe] at hmax
      have hcast : (j : ℚ) + 1 ≤ 2 ^ 53 := by linarith
      have hnat : j + 1 ≤ 2 ^ 53 := by exact_mod_cast hcast
      exact Nat.le_sub_one_of_lt hnat
    have hexact : a + b ≤ 2 ^ 53 := by omega
    rw [add_natCast hexact, hj, lt_natCast, decide_eq_false_iff_not] at hwindow
    exact hwindow (not_le.mp hgt)
  | nan => cases hsafe
  | posInf => cases hsafe
  | negInf => cases hsafe

/-! ## Text

`String(x)`: the shortest decimal that reads back as the same double. -/

/-- The decimal with `k` digits and its point after the first `n` that reads back as `q`,
the closest one if there are two. -/
def decimalOf (q : ℚ) (n : ℤ) (k : ℕ) : Option ℕ :=
  let ulp := (10 : ℚ) ^ (n - k)
  let lo := ⌊q / ulp⌋.toNat
  let below := decide (roundDouble (lo * ulp) = fin q)
  let above := decide (roundDouble ((lo + 1 : ℕ) * ulp) = fin q)
  if below && above then
    if q - lo * ulp < (lo + 1 : ℕ) * ulp - q then some lo
    else if (lo + 1 : ℕ) * ulp - q < q - lo * ulp then some (lo + 1)
    else some (if lo % 2 = 0 then lo else lo + 1)
  else if below then some lo
  else if above then some (lo + 1)
  else none

/-- The significant digits of a positive number and the position of its point. -/
def shortestDigits (q : ℚ) : List Char × ℤ :=
  let n := Int.log 10 q + 1
  let search := (List.range 17).findSome? fun i => (decimalOf q n (i + 1)).map (·, i + 1)
  let found := search.getD (⌊q / (10 : ℚ) ^ (n - 17)⌋.toNat, 17)
  let digits := Nat.toDigits 10 found.1
  -- rounding up to the next power of ten moves the point
  ((digits.reverse.dropWhile (· = '0')).reverse, n + digits.length - found.2)

/-- The text of a positive number: plain up to 21 digits, else with an exponent. -/
def positiveText (q : ℚ) : String :=
  let ds := (shortestDigits q).1
  let n := (shortestDigits q).2
  let k := ds.length
  let zeros (m : ℤ) : List Char := List.replicate m.toNat '0'
  if (k : ℤ) ≤ n ∧ n ≤ 21 then String.ofList (ds ++ zeros (n - k))
  else if 0 < n ∧ n ≤ 21 then String.ofList (ds.take n.toNat ++ '.' :: ds.drop n.toNat)
  else if -6 < n ∧ n ≤ 0 then String.ofList ('0' :: '.' :: zeros (-n) ++ ds)
  else
    let exponent := (if 0 < n then "e+" else "e-") ++ toString (n - 1).natAbs
    match ds with
    | [d] => String.ofList [d] ++ exponent
    | d :: rest => String.ofList (d :: '.' :: rest) ++ exponent
    | [] => exponent

/-- `String(x)`. -/
def text : JsNum → String
  | nan => "NaN"
  | posInf => "Infinity"
  | negInf => "-Infinity"
  | fin q =>
    if q = 0 then "0" else if q < 0 then "-" ++ positiveText (-q) else positiveText q

end JsNum

/-! ## The 32-bit operators -/

/-- `ToInt32`. -/
def toInt32 (x : ℤ) : BitVec 32 := BitVec.ofInt 32 x

/-- `a ^ b`. -/
def bitXor (a b : ℤ) : ℤ := (toInt32 a ^^^ toInt32 b).toInt

/-- `a & b`. -/
def bitAnd (a b : ℤ) : ℤ := (toInt32 a &&& toInt32 b).toInt

/-- `a >> i`. -/
def shiftRight (a : ℤ) (i : ℕ) : ℤ := ((toInt32 a).sshiftRight (i % 32)).toInt

/-- `a << i`. -/
def shiftLeft (a : ℤ) (i : ℕ) : ℤ := (toInt32 a <<< (i % 32)).toInt

theorem toNat_toInt32 {x : ℕ} (hx : x < 2 ^ 31) : (toInt32 (x : ℤ)).toNat = x := by
  rw [toInt32, BitVec.ofInt_natCast, BitVec.toNat_ofNat, Nat.mod_eq_of_lt (by omega)]

/-- A 32-bit pattern below `2 ^ 31` reads back as itself. -/
theorem toInt_eq_of_lt {v : BitVec 32} {x : ℕ} (h : v.toNat = x) (hx : x < 2 ^ 31) :
    v.toInt = x := by
  rw [BitVec.toInt_eq_toNat_of_lt (by omega), h]

theorem bitXor_natCast {x y : ℕ} (hx : x < 2 ^ 31) (hy : y < 2 ^ 31) :
    bitXor x y = ((x ^^^ y : ℕ) : ℤ) := by
  refine toInt_eq_of_lt ?_ (Nat.xor_lt_two_pow hx hy)
  rw [BitVec.toNat_xor, toNat_toInt32 hx, toNat_toInt32 hy]

theorem bitAnd_one_natCast {x : ℕ} (hx : x < 2 ^ 31) : bitAnd x 1 = ((x % 2 : ℕ) : ℤ) := by
  refine toInt_eq_of_lt ?_ (by omega)
  rw [BitVec.toNat_and, toNat_toInt32 hx, show ((1 : ℤ)) = ((1 : ℕ) : ℤ) from rfl,
    toNat_toInt32 (by omega), Nat.and_one_is_mod]

theorem shiftRight_natCast {x i : ℕ} (hx : x < 2 ^ 31) (hi : i < 32) :
    shiftRight x i = ((x >>> i : ℕ) : ℤ) := by
  have hmsb : (toInt32 (x : ℤ)).msb = false := by
    rw [BitVec.msb_eq_false_iff_two_mul_lt, toNat_toInt32 hx]
    omega
  refine toInt_eq_of_lt ?_ ((Nat.shiftRight_le x i).trans_lt hx)
  rw [Nat.mod_eq_of_lt hi, BitVec.sshiftRight_eq_of_msb_false hmsb, BitVec.toNat_ushiftRight,
    toNat_toInt32 hx]

theorem shiftLeft_one {i : ℕ} (hi : i < 31) : shiftLeft 1 i = ((2 ^ i : ℕ) : ℤ) := by
  have hpow : 2 ^ i < 2 ^ 31 := Nat.pow_lt_pow_right (by omega) hi
  refine toInt_eq_of_lt ?_ hpow
  rw [Nat.mod_eq_of_lt (by omega), BitVec.toNat_shiftLeft,
    show ((1 : ℤ)) = ((1 : ℕ) : ℤ) from rfl, toNat_toInt32 (by omega), Nat.shiftLeft_eq, one_mul,
    Nat.mod_eq_of_lt (by omega)]

end Nerion
