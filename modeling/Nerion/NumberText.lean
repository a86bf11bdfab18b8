import Mathlib.Algebra.Order.Field.Power
import Mathlib.Data.List.TakeWhile
import Mathlib.Data.Nat.Digits.Defs
import Mathlib.Tactic.Ring
import Nerion.ByteFraming
import Nerion.JsDouble

/-!
# The text of a number reads back

A library on the decimal text of a number and on the grammar by which JSON and JavaScript read
it. The text of a double carries the shortest digits that round to it, of which seventeen are
always enough, in one of four layouts; the reader collects the digits and the position of the
point, and rounds.

* `readNumber` — the reader;
* `decimalOf_rounds`, `shortestDigits_spec` — the digits round to the double;
* `readUnsigned_positiveText` — the four layouts are read back;
* `readNumber_text` — **the text of a finite double reads back as that double**;
* `text_injective` — so a double is determined by its text;
* `isNumberChar_text` — the characters that a text is made of.
-/

namespace Nerion.JsNum

/-! ## Reading -/

/-- The digits at the front of a text, and the rest. -/
def splitDigits (s : List Char) : List Char × List Char :=
  (s.takeWhile Char.isDigit, s.dropWhile Char.isDigit)

/-- The digits after a point, if there is one. -/
def readFraction : List Char → Option (List Char × List Char)
  | '.' :: s => if (splitDigits s).1 = [] then none else some (splitDigits s)
  | s => some ([], s)

/-- The sign of an exponent. -/
def readSign : List Char → ℤ × List Char
  | '+' :: s => (1, s)
  | '-' :: s => (-1, s)
  | s => (1, s)

/-- The exponent, if there is one. -/
def readExponent : List Char → Option (ℤ × List Char)
  | c :: s =>
    if c = 'e' ∨ c = 'E' then
      let sign := readSign s
      let digits := splitDigits sign.2
      if digits.1 = [] then none else some (sign.1 * Nat.ofDigitChars 10 digits.1 0, digits.2)
    else some (0, c :: s)
  | [] => some (0, [])

/-- A number without a sign: digits, of which the first is not a zero unless it is the only one
before the point, then a fraction and an exponent. -/
def readUnsigned (s : List Char) : Option (ℚ × List Char) :=
  let whole := splitDigits s
  if whole.1 = [] ∨ (whole.1.head? = some '0' ∧ whole.1 ≠ ['0']) then none
  else do
    let fraction ← readFraction whole.2
    let exponent ← readExponent fraction.2
    some (Nat.ofDigitChars 10 (whole.1 ++ fraction.1) 0 *
      (10 : ℚ) ^ (exponent.1 - fraction.1.length), exponent.2)

/-- A number at the front of a text, and the rest. -/
def readNumber : List Char → Option (JsNum × List Char)
  | '-' :: s => (readUnsigned s).map fun v => (neg (roundDouble v.1), v.2)
  | s => (readUnsigned s).map fun v => (roundDouble v.1, v.2)

/-- What may follow a number without becoming a part of it. -/
def Ends (s : List Char) : Prop :=
  ∀ c, s.head? = some c → c.isDigit = false ∧ c ≠ '.' ∧ c ≠ 'e' ∧ c ≠ 'E'

/-! ## Digits -/

/-- All of them are digits. -/
def AllDigits (ds : List Char) : Prop := ∀ c ∈ ds, c.isDigit = true

theorem allDigits_append {ds es : List Char} (hds : AllDigits ds) (hes : AllDigits es) :
    AllDigits (ds ++ es) := by
  intro c hc
  rcases List.mem_append.mp hc with h | h
  · exact hds c h
  · exact hes c h

theorem allDigits_zeros (z : ℕ) : AllDigits (List.replicate z '0') := by
  intro c hc
  rw [List.eq_of_mem_replicate hc]
  rfl

theorem splitDigits_append {ds s : List Char} (hds : AllDigits ds)
    (hs : ∀ c, s.head? = some c → c.isDigit = false) : splitDigits (ds ++ s) = (ds, s) := by
  have hstop : s.takeWhile Char.isDigit = [] ∧ s.dropWhile Char.isDigit = s := by
    cases s with
    | nil => exact ⟨rfl, rfl⟩
    | cons c s =>
      have hc := hs c rfl
      simp [hc]
  rw [splitDigits, List.takeWhile_append_of_pos hds, List.dropWhile_append_of_pos hds, hstop.1,
    hstop.2, List.append_nil]

theorem ofDigitChars_zeros (init z : ℕ) :
    Nat.ofDigitChars 10 (List.replicate z '0') init = init * 10 ^ z := by
  induction z generalizing init with
  | zero => simp
  | succ z ih =>
    rw [List.replicate_succ, Nat.ofDigitChars_cons, ih, pow_succ']
    simp only [Nat.sub_self, add_zero]
    ring

/-- The first digit of a positive number is not a zero. -/
theorem head_toDigits {m : ℕ} (hm : 0 < m) : (Nat.toDigits 10 m).head? ≠ some '0' := by
  induction m using Nat.strongRecOn with
  | _ m ih =>
    rw [Nat.toDigits_eq_if (by decide)]
    split
    · rename_i hlt
      rw [List.head?_cons, ne_eq, Option.some.injEq, Nat.digitChar_eq_zero]
      omega
    · have hne : Nat.toDigits 10 (m / 10) ≠ [] := Nat.toDigits_ne_nil
      rw [List.head?_append_of_ne_nil _ hne]
      exact ih (m / 10) (by omega) (by omega)

/-- Digits with the zeros at the end taken off: what is left, and how many there were. -/
theorem strip_zeros (ds : List Char) : ∃ z, ds = (ds.reverse.dropWhile (· = '0')).reverse ++
    List.replicate z '0' := by
  refine ⟨(ds.reverse.takeWhile (· = '0')).length, ?_⟩
  have hzeros : ds.reverse.takeWhile (· = '0') =
      List.replicate (ds.reverse.takeWhile (· = '0')).length '0' := by
    apply List.eq_replicate_of_mem
    intro c hc
    simpa using List.mem_takeWhile_imp hc
  conv_lhs => rw [← List.reverse_reverse ds, ← List.takeWhile_append_dropWhile
    (p := (· = '0')) (l := ds.reverse), List.reverse_append, hzeros, List.reverse_replicate]

/-! ## The shortest digits -/

section Shortest

variable {q : ℚ}

/-- The powers of ten around a positive number. -/
theorem log_ten_bounds (hq : 0 < q) :
    (10 : ℚ) ^ Int.log 10 q ≤ q ∧ q < 10 ^ (Int.log 10 q + 1) := by
  have hlo := Int.zpow_log_le_self (b := 10) (by decide) hq
  have hhi := Int.lt_zpow_succ_log_self (b := 10) (by decide) q
  exact ⟨by exact_mod_cast hlo, by exact_mod_cast hhi⟩

theorem ten_zpow_pos (e : ℤ) : (0 : ℚ) < 10 ^ e := zpow_pos (by norm_num) e

/-- What `decimalOf` returns rounds to the number, and is at least the floor. -/
theorem decimalOf_rounds {n : ℤ} {k m : ℕ} (h : decimalOf q n k = some m) :
    roundDouble (m * (10 : ℚ) ^ (n - k)) = fin q ∧ ⌊q / (10 : ℚ) ^ (n - k)⌋.toNat ≤ m := by
  rw [decimalOf] at h
  split at h
  · rename_i hboth
    rw [Bool.and_eq_true, decide_eq_true_iff, decide_eq_true_iff] at hboth
    split at h
    · obtain rfl := Option.some.inj h
      exact ⟨hboth.1, le_rfl⟩
    split at h
    · obtain rfl := Option.some.inj h
      exact ⟨hboth.2, Nat.le_succ _⟩
    split at h
    · obtain rfl := Option.some.inj h
      exact ⟨hboth.1, le_rfl⟩
    · obtain rfl := Option.some.inj h
      exact ⟨hboth.2, Nat.le_succ _⟩
  split at h
  · rename_i hbelow
    obtain rfl := Option.some.inj h
    exact ⟨of_decide_eq_true hbelow, le_rfl⟩
  split at h
  · rename_i habove
    obtain rfl := Option.some.inj h
    exact ⟨of_decide_eq_true habove, Nat.le_succ _⟩
  · cases h

/-- Seventeen digits always suffice: the closer of the two decimals around a double rounds to
it. -/
theorem exists_decimalOf (hq : 0 < q) (hdouble : IsDouble (fin q)) :
    ∃ m, decimalOf q (Int.log 10 q + 1) 17 = some m := by
  obtain ⟨hlow, -⟩ := log_ten_bounds hq
  have hulp := ten_zpow_pos (Int.log 10 q + 1 - (17 : ℕ))
  have hsmall : (10 : ℚ) ^ (Int.log 10 q + 1 - (17 : ℕ)) ≤ q / 10 ^ 16 := by
    rw [le_div_iff₀ (by positivity)]
    have hpow : (10 : ℚ) ^ (Int.log 10 q + 1 - (17 : ℕ)) * 10 ^ 16 = 10 ^ Int.log 10 q := by
      rw [← zpow_natCast, ← zpow_add₀ (by norm_num)]
      congr 1
      push_cast
      ring
    rwa [hpow]
  rw [decimalOf]
  generalize (10 : ℚ) ^ (Int.log 10 q + 1 - (17 : ℕ)) = ulp at hulp hsmall ⊢
  have hfloor : ((⌊q / ulp⌋.toNat : ℕ) : ℚ) = ⌊q / ulp⌋ := by
    have hnonneg : 0 ≤ ⌊q / ulp⌋ := Int.floor_nonneg.mpr (div_pos hq hulp).le
    exact_mod_cast Int.toNat_of_nonneg hnonneg
  have hbelow : (⌊q / ulp⌋.toNat : ℕ) * ulp ≤ q := by
    rw [hfloor, ← le_div_iff₀ hulp]
    exact Int.floor_le _
  have habove : q < ((⌊q / ulp⌋.toNat + 1 : ℕ) : ℚ) * ulp := by
    rw [Nat.cast_add, hfloor, Nat.cast_one, ← div_lt_iff₀ hulp]
    exact Int.lt_floor_add_one _
  have hnext : ((⌊q / ulp⌋.toNat + 1 : ℕ) : ℚ) * ulp = (⌊q / ulp⌋.toNat : ℕ) * ulp + ulp := by
    push_cast
    ring
  -- one of the two is within half a unit
  rcases le_total (q - (⌊q / ulp⌋.toNat : ℕ) * ulp) (ulp / 2) with hnear | hfar
  · have hround : roundDouble ((⌊q / ulp⌋.toNat : ℕ) * ulp) = fin q := by
      refine roundDouble_near hq hdouble ?_
      rw [abs_le]
      constructor <;> linarith
    simp only [hround, decide_true, Bool.true_and, if_true]
    split_ifs <;> exact ⟨_, rfl⟩
  · have hround : roundDouble (((⌊q / ulp⌋.toNat + 1 : ℕ) : ℚ) * ulp) = fin q := by
      refine roundDouble_near hq hdouble ?_
      rw [abs_le]
      constructor <;> linarith
    simp only [hround, decide_true, Bool.and_true, if_true]
    split_ifs <;> exact ⟨_, rfl⟩

/-- What the search finds: a decimal of at most 17 digits that rounds to the double. -/
theorem search_spec (hq : 0 < q) (hdouble : IsDouble (fin q)) :
    ∃ m k : ℕ, ((List.range 17).findSome? fun i =>
        (decimalOf q (Int.log 10 q + 1) (i + 1)).map (·, i + 1)) = some (m, k) ∧ 0 < m ∧
      roundDouble (m * (10 : ℚ) ^ (Int.log 10 q + 1 - k)) = fin q := by
  obtain ⟨m₀, hm₀⟩ := exists_decimalOf hq hdouble
  rcases hsearch : (List.range 17).findSome? fun i =>
      (decimalOf q (Int.log 10 q + 1) (i + 1)).map (·, i + 1) with _ | ⟨m, k⟩
  · have hnone := List.findSome?_eq_none_iff.mp hsearch 16 (by decide)
    rw [hm₀] at hnone
    cases hnone
  · obtain ⟨i, -, hi⟩ := List.exists_of_findSome?_eq_some hsearch
    obtain ⟨m', hm', heq⟩ := Option.map_eq_some_iff.mp hi
    obtain ⟨rfl, rfl⟩ := Prod.mk.inj heq
    obtain ⟨hround, hle⟩ := decimalOf_rounds hm'
    refine ⟨m', i + 1, rfl, ?_, hround⟩
    -- the floor has a digit before the point
    have hone : 1 ≤ ⌊q / (10 : ℚ) ^ (Int.log 10 q + 1 - (i + 1 : ℕ))⌋ := by
      rw [Int.le_floor, Int.cast_one, one_le_div (ten_zpow_pos _)]
      have hpow : (10 : ℚ) ^ (Int.log 10 q + 1 - (i + 1 : ℕ)) ≤ 10 ^ Int.log 10 q := by
        apply zpow_le_zpow_right₀ (by norm_num)
        push_cast
        omega
      exact hpow.trans (log_ten_bounds hq).1
    omega

/-- **The shortest digits** of a double: decimal digits, the first of them not a zero, that round to
it with the point at the given position. -/
theorem shortestDigits_spec (hq : 0 < q) (hdouble : IsDouble (fin q)) :
    AllDigits (shortestDigits q).1 ∧ (shortestDigits q).1 ≠ [] ∧
      (shortestDigits q).1.head? ≠ some '0' ∧
      roundDouble (Nat.ofDigitChars 10 (shortestDigits q).1 0 *
        (10 : ℚ) ^ ((shortestDigits q).2 - (shortestDigits q).1.length)) = fin q := by
  obtain ⟨m, k, hsearch, hm, hround⟩ := search_spec hq hdouble
  have hdigits : shortestDigits q = (((Nat.toDigits 10 m).reverse.dropWhile (· = '0')).reverse,
      Int.log 10 q + 1 + (Nat.toDigits 10 m).length - k) := by
    rw [shortestDigits]
    simp only [hsearch, Option.getD_some]
  obtain ⟨z, hz⟩ := strip_zeros (Nat.toDigits 10 m)
  rw [hdigits]
  dsimp only
  generalize ((Nat.toDigits 10 m).reverse.dropWhile (· = '0')).reverse = ds at hz
  have hhead := head_toDigits hm
  have hvalue : m = Nat.ofDigitChars 10 ds 0 * 10 ^ z := by
    rw [← ofDigitChars_zeros, ← Nat.ofDigitChars_append, ← hz, Nat.ofDigitChars_ten_toDigits]
  have hne : ds ≠ [] := by
    rintro rfl
    rw [Nat.ofDigitChars_nil, zero_mul] at hvalue
    omega
  refine ⟨?_, hne, ?_, ?_⟩
  · intro c hc
    apply Nat.isDigit_of_mem_toDigits (by decide) le_rfl (n := m)
    rw [hz]
    exact List.mem_append_left _ hc
  · rwa [hz, List.head?_append_of_ne_nil _ hne] at hhead
  · rw [← hround, hz, List.length_append, List.length_replicate, hvalue]
    congr 1
    push_cast
    rw [mul_assoc, ← zpow_natCast, ← zpow_add₀ (by norm_num)]
    congr 2
    ring

end Shortest

/-! ## The four layouts -/

theorem readFraction_of_ends {s : List Char} (hs : Ends s) : readFraction s = some ([], s) := by
  cases s with
  | nil => rfl
  | cons c s =>
    rw [readFraction]
    rintro s' heq
    obtain ⟨rfl, -⟩ := List.cons.inj heq
    exact (hs '.' rfl).2.1 rfl

theorem readExponent_of_ends {s : List Char} (hs : Ends s) : readExponent s = some (0, s) := by
  cases s with
  | nil => rfl
  | cons c s =>
    obtain ⟨-, -, he, hE⟩ := hs c rfl
    rw [readExponent, if_neg (by simp [he, hE])]

theorem readFraction_point {ds s : List Char} (hds : AllDigits ds) (hne : ds ≠ [])
    (hs : ∀ c, s.head? = some c → c.isDigit = false) :
    readFraction ('.' :: (ds ++ s)) = some (ds, s) := by
  rw [readFraction, splitDigits_append hds hs, if_neg hne]

/-- Digits, a fraction and an exponent, each read in its turn. -/
theorem readUnsigned_of_parts {whole fraction s t u : List Char} {e : ℤ} (hwhole : AllDigits whole)
    (hne : whole ≠ []) (hzero : whole.head? = some '0' → whole = ['0'])
    (hs : ∀ c, s.head? = some c → c.isDigit = false)
    (hfraction : readFraction s = some (fraction, t))
    (hexponent : readExponent t = some (e, u)) :
    readUnsigned (whole ++ s) = some (Nat.ofDigitChars 10 (whole ++ fraction) 0 *
      (10 : ℚ) ^ (e - fraction.length), u) := by
  rw [readUnsigned, splitDigits_append hwhole hs, if_neg]
  · rw [hfraction]
    simp [hexponent]
  · rintro (h | ⟨h, h'⟩)
    · exact hne h
    · exact h' (hzero h)

theorem Ends.head {s : List Char} (hs : Ends s) : ∀ c, s.head? = some c → c.isDigit = false :=
  fun c hc => (hs c hc).1

/-- The exponent as it is written: a sign and the digits of its size. -/
theorem readExponent_written {e : ℤ} {s : List Char} (hs : Ends s) :
    readExponent (((if 0 < e then "e+" else "e-") ++ toString e.natAbs).toList ++ s) =
      some (e, s) := by
  have hdigits : AllDigits (Nat.toDigits 10 e.natAbs) := fun c hc =>
    Nat.isDigit_of_mem_toDigits (by decide) le_rfl hc
  have hread : ∀ c, c = '+' ∨ c = '-' →
      readExponent ('e' :: c :: (Nat.toDigits 10 e.natAbs ++ s)) =
        some ((if c = '+' then 1 else -1) * (e.natAbs : ℤ), s) := by
    intro c hc
    rw [readExponent, if_pos (.inl rfl)]
    rcases hc with rfl | rfl <;>
      simp [readSign, splitDigits_append hdigits hs.head, Nat.ofDigitChars_ten_toDigits]
  rw [String.toList_append, toList_toString]
  split
  · rename_i hpos
    refine (hread '+' (.inl rfl)).trans ?_
    simp only [if_true, one_mul]
    congr 2
    omega
  · rename_i hneg
    refine (hread '-' (.inr rfl)).trans ?_
    rw [if_neg (by decide)]
    congr 2
    omega

section Layouts

variable {ds s : List Char} (hds : AllDigits ds) (hne : ds ≠ []) (hs : Ends s)

include hds hne hs

/-- The point before the digits, with zeros in between. -/
theorem readUnsigned_small (z : ℕ) :
    readUnsigned ('0' :: '.' :: (List.replicate z '0' ++ ds ++ s)) =
      some (Nat.ofDigitChars 10 ds 0 * (10 : ℚ) ^ (-(z : ℤ) - ds.length), s) := by
  have hfraction : AllDigits (List.replicate z '0' ++ ds) :=
    allDigits_append (allDigits_zeros z) hds
  have hvalue : Nat.ofDigitChars 10 (['0'] ++ (List.replicate z '0' ++ ds)) 0 =
      Nat.ofDigitChars 10 ds 0 := by
    rw [← List.append_assoc, List.singleton_append, ← List.replicate_succ, Nat.ofDigitChars_append,
      ofDigitChars_zeros, zero_mul]
  refine (readUnsigned_of_parts (allDigits_zeros 1) (by simp) (fun _ => rfl) ?_
    (readFraction_point hfraction (by simp [hne]) hs.head) (readExponent_of_ends hs)).trans ?_
  · intro c hc
    obtain rfl := Option.some.inj hc
    rfl
  · rw [List.replicate_one, hvalue, List.length_append, List.length_replicate, Nat.cast_add,
      zero_sub, neg_add, ← sub_eq_add_neg]

variable (hhead : ds.head? ≠ some '0')

include hhead

/-- All digits before the point, with zeros to fill up. -/
theorem readUnsigned_whole (z : ℕ) : readUnsigned (ds ++ List.replicate z '0' ++ s) =
    some (Nat.ofDigitChars 10 ds 0 * (10 : ℚ) ^ z, s) := by
  rw [readUnsigned_of_parts (allDigits_append hds (allDigits_zeros z)) (by simp [hne]) ?_ hs.head
    (readFraction_of_ends hs) (readExponent_of_ends hs)]
  · rw [List.append_nil, Nat.ofDigitChars_append, ofDigitChars_zeros]
    simp
  · intro h
    rw [List.head?_append_of_ne_nil _ hne] at h
    exact absurd h hhead

/-- The point among the digits. -/
theorem readUnsigned_point {k : ℕ} (hk : 0 < k) (hlt : k < ds.length) :
    readUnsigned (ds.take k ++ '.' :: (ds.drop k ++ s)) =
      some (Nat.ofDigitChars 10 ds 0 * (10 : ℚ) ^ ((k : ℤ) - ds.length), s) := by
  have htake : AllDigits (ds.take k) := fun c hc => hds c (List.mem_of_mem_take hc)
  have hdrop : AllDigits (ds.drop k) := fun c hc => hds c (List.mem_of_mem_drop hc)
  have hrest : ds.drop k ≠ [] := by
    rw [ne_eq, List.drop_eq_nil_iff]
    omega
  rw [readUnsigned_of_parts htake (by simp [hne, hk.ne']) ?_ ?_
    (readFraction_point hdrop hrest hs.head) (readExponent_of_ends hs)]
  · rw [List.take_append_drop, List.length_drop, Nat.cast_sub hlt.le, zero_sub, neg_sub]
  · intro h
    rw [List.head?_take, if_neg hk.ne'] at h
    exact absurd h hhead
  · intro c hc
    obtain rfl := Option.some.inj hc
    rfl

omit hs in
/-- One digit before the point, and an exponent `t` behind the digits. -/
theorem readUnsigned_scientific {t : List Char} {e : ℤ} (ht : t.head? = some 'e')
    (hexponent : readExponent t = some (e, s)) :
    readUnsigned ((match ds with
      | [d] => [d]
      | d :: rest => d :: '.' :: rest
      | [] => []) ++ t) =
      some (Nat.ofDigitChars 10 ds 0 * (10 : ℚ) ^ (e + 1 - ds.length), s) := by
  have hstop : ∀ c, t.head? = some c → c.isDigit = false := by
    intro c hc
    obtain rfl := Option.some.inj (ht.symm.trans hc)
    rfl
  match ds, hne with
  | [d], _ =>
    have hfraction : readFraction t = some ([], t) := by
      match t, ht with
      | c :: t, ht =>
        obtain rfl := Option.some.inj ht
        rfl
    rw [readUnsigned_of_parts hds (by simp) (fun h => absurd h hhead) hstop hfraction hexponent]
    simp
  | d :: d' :: rest, _ =>
    have hdigit : AllDigits [d] := fun c hc => hds c (by simp_all)
    have hrest : AllDigits (d' :: rest) := fun c hc => hds c (List.mem_cons_of_mem _ hc)
    have hfraction := readFraction_point hrest (by simp) hstop
    refine (readUnsigned_of_parts (s := '.' :: (d' :: rest ++ t)) hdigit (by simp)
      (fun h => absurd h hhead) ?_ hfraction hexponent).trans ?_
    · intro c hc
      obtain rfl := Option.some.inj hc
      rfl
    · simp

end Layouts

/-- The text of a positive double reads back as a decimal that rounds to it. -/
theorem readUnsigned_positiveText {q : ℚ} (hq : 0 < q) (hdouble : IsDouble (fin q)) {s : List Char}
    (hs : Ends s) : ∃ v, readUnsigned ((positiveText q).toList ++ s) = some (v, s) ∧
      roundDouble v = fin q := by
  obtain ⟨hds, hne, hhead, hround⟩ := shortestDigits_spec hq hdouble
  refine ⟨_, ?_, hround⟩
  rw [positiveText]
  generalize (shortestDigits q).1 = ds at hds hne hhead
  generalize (shortestDigits q).2 = n
  dsimp only
  by_cases hwhole : (ds.length : ℤ) ≤ n ∧ n ≤ 21
  · -- all digits stand before the point
    obtain ⟨z, hz⟩ : ∃ z : ℕ, n - ds.length = z := ⟨(n - ds.length).toNat, by omega⟩
    rw [if_pos hwhole, String.toList_ofList, hz, Int.toNat_natCast,
      readUnsigned_whole hds hne hs hhead, zpow_natCast]
  rw [if_neg hwhole]
  by_cases hpoint : 0 < n ∧ n ≤ 21
  · -- the point stands among them
    obtain ⟨k, rfl⟩ : ∃ k : ℕ, n = k := ⟨n.toNat, by omega⟩
    rw [if_pos hpoint, String.toList_ofList, Int.toNat_natCast, List.append_assoc,
      List.cons_append, readUnsigned_point hds hne hs hhead (by omega) (by omega)]
  rw [if_neg hpoint]
  by_cases hsmall : -6 < n ∧ n ≤ 0
  · -- or before them
    obtain ⟨z, rfl⟩ : ∃ z : ℕ, n = -z := ⟨(-n).toNat, by omega⟩
    rw [if_pos hsmall, String.toList_ofList, neg_neg, Int.toNat_natCast]
    exact readUnsigned_small hds hne hs z
  -- or the text has an exponent
  rw [if_neg hsmall]
  have hexponent := @readExponent_written (n - 1) s hs
  have hsign : (0 < n - 1) ↔ (0 < n) := by omega
  have hn : n = n - 1 + 1 := by omega
  simp only [hsign] at hexponent
  rw [show n - ds.length = n - 1 + 1 - ds.length by omega, ← readUnsigned_scientific hds hne hhead _
    hexponent]
  · match ds, hne with
    | [d], _ => simp
    | d :: d' :: rest, _ => simp
  · split <;> simp

/-- What is read without a sign does not begin with one. -/
theorem readNumber_of_readUnsigned {s t : List Char} {v : ℚ} (h : readUnsigned s = some (v, t)) :
    readNumber s = some (roundDouble v, t) := by
  rw [readNumber, h]
  · rfl
  · rintro s' rfl
    simp [readUnsigned, splitDigits, List.takeWhile] at h

/-- **The text of a finite double reads back as that double.** -/
theorem readNumber_text {q : ℚ} (hdouble : IsDouble (fin q)) {s : List Char} (hs : Ends s) :
    readNumber ((fin q).text.toList ++ s) = some (fin q, s) := by
  rw [text]
  split
  · rename_i hzero
    subst hzero
    have hread := readUnsigned_of_parts (allDigits_zeros 1) (by simp) (fun _ => rfl) hs.head
      (readFraction_of_ends hs) (readExponent_of_ends hs)
    refine (readNumber_of_readUnsigned hread).trans ?_
    simp [Nat.ofDigitChars_cons, roundDouble]
  split
  · rename_i hneg
    obtain ⟨v, hread, hround⟩ :=
      readUnsigned_positiveText (neg_pos.mpr hneg) (isDouble_neg.mpr hdouble) hs
    rw [String.toList_append]
    change readNumber ('-' :: ((positiveText (-q)).toList ++ s)) = _
    rw [readNumber, hread, Option.map_some, hround, neg, neg_neg]
  · rename_i hzero hneg
    have hpos : 0 < q := lt_of_le_of_ne (not_lt.mp hneg) (Ne.symm hzero)
    obtain ⟨v, hread, hround⟩ := readUnsigned_positiveText hpos hdouble hs
    rw [readNumber_of_readUnsigned hread, hround]

/-! ## The characters of a number -/

/-- A digit, or one of the other characters of a finite number. -/
def isNumberChar (c : Char) : Bool := c.isDigit || ['-', '.', 'e', '+'].contains c

theorem AllDigits.isNumberChar {ds : List Char} (hds : AllDigits ds) :
    ∀ c ∈ ds, isNumberChar c = true := fun c hc => by
  simp [JsNum.isNumberChar, hds c hc]

theorem isNumberChar_positiveText {q : ℚ} (hq : 0 < q) (hdouble : IsDouble (fin q)) :
    ∀ c ∈ (positiveText q).toList, isNumberChar c = true := by
  obtain ⟨hds, -, -, -⟩ := shortestDigits_spec hq hdouble
  rw [positiveText]
  generalize (shortestDigits q).1 = ds at hds
  generalize (shortestDigits q).2 = n
  have hdigits := hds.isNumberChar
  have hzeros : ∀ z, ∀ c ∈ List.replicate z '0', isNumberChar c = true := fun z =>
    (allDigits_zeros z).isNumberChar
  have hexponent : ∀ c ∈ ((if 0 < n then "e+" else "e-") ++ toString (n - 1).natAbs).toList,
      isNumberChar c = true := by
    have hsize : AllDigits (toString (n - 1).natAbs).toList := fun c => isDigit_of_mem_toString
    rw [String.toList_append, List.forall_mem_append]
    refine ⟨?_, hsize.isNumberChar⟩
    split
    · exact List.all_eq_true.mp (by decide : "e+".toList.all isNumberChar = true)
    · exact List.all_eq_true.mp (by decide : "e-".toList.all isNumberChar = true)
  have hpoint : isNumberChar '.' = true := by decide
  have hzero : isNumberChar '0' = true := by decide
  dsimp only
  split
  · rw [String.toList_ofList, List.forall_mem_append]
    exact ⟨hdigits, hzeros _⟩
  split
  · rw [String.toList_ofList, List.forall_mem_append, List.forall_mem_cons]
    exact ⟨fun c hc => hdigits c (List.mem_of_mem_take hc), hpoint,
      fun c hc => hdigits c (List.mem_of_mem_drop hc)⟩
  split
  · simp only [String.toList_ofList, List.forall_mem_append, List.forall_mem_cons, List.cons_append]
    exact ⟨hzero, hpoint, hzeros _, hdigits⟩
  · match ds, hdigits with
    | [], _ => exact hexponent
    | [d], hd =>
      rw [String.toList_append, String.toList_ofList, List.forall_mem_append]
      exact ⟨hd, hexponent⟩
    | d :: d' :: rest, hd =>
      rw [String.toList_append, String.toList_ofList, List.forall_mem_append, List.forall_mem_cons,
        List.forall_mem_cons]
      rw [List.forall_mem_cons] at hd
      exact ⟨⟨hd.1, hpoint, hd.2⟩, hexponent⟩

/-- **The characters of a finite number.** -/
theorem isNumberChar_text {q : ℚ} (hdouble : IsDouble (fin q)) :
    ∀ c ∈ (fin q).text.toList, isNumberChar c = true := by
  rw [text]
  split
  · exact List.all_eq_true.mp (by decide : "0".toList.all isNumberChar = true)
  split
  · rename_i hneg
    rw [String.toList_append, List.forall_mem_append]
    exact ⟨List.all_eq_true.mp (by decide : "-".toList.all isNumberChar = true),
      isNumberChar_positiveText (neg_pos.mpr hneg) (isDouble_neg.mpr hdouble)⟩
  · rename_i hzero hneg
    exact isNumberChar_positiveText (lt_of_le_of_ne (not_lt.mp hneg) (Ne.symm hzero)) hdouble

/-! ## The number of a text -/

/-- The number with the given text. -/
def ofText (s : String) : JsNum :=
  match readNumber s.toList with
  | some v => v.1
  | none => if s = "Infinity" then posInf else if s = "-Infinity" then negInf else nan

theorem ofText_text {x : JsNum} (hx : IsDouble x) : ofText x.text = x := by
  cases x with
  | fin q =>
    have hread := readNumber_text hx (fun c hc => nomatch hc : Ends [])
    rw [List.append_nil] at hread
    rw [ofText, hread]
  | nan => rfl
  | posInf => rfl
  | negInf => rfl

/-- **A number is determined by its text.** -/
theorem text_injective {x y : JsNum} (hx : IsDouble x) (hy : IsDouble y) (h : x.text = y.text) :
    x = y := by
  rw [← ofText_text hx, h, ofText_text hy]

end Nerion.JsNum
