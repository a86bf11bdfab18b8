import Mathlib.Data.Nat.Size
import Mathlib.Data.Nat.Log
import Mathlib.Data.List.Induction
import Mathlib.Algebra.Order.Ring.Nat
import Mathlib.Tactic.Ring

/-!
# Audit paths in left-filled binary trees

A library about the tree shape behind append-only logs, free of any hash. A tree
over `n ≥ 2` leaves splits at the largest power of two below `n` (`leftSize`), so
its left subtree is always complete. Three notions:

* `leafPath n m` — the turns from the root down to leaf `m` (`true` = right);
* `prefixPath n m` — the turns from the root down to the subtree that ends exactly
  at leaf `m - 1`, the point where a tree of size `m` stops being a sub-shape;
* `climb` / `climbRight` — folding sibling digests upwards along such turns, for an
  arbitrary node function.

The results tie the recursive shape to bit arithmetic: both paths are a run of
right turns followed by the bits of an index (`leafPath_eq`, `prefixPath_eq`).
-/

namespace Nerion

/-! ## The split point -/

/-- Size of the left subtree of a tree over `n` leaves: the largest power of two
strictly below `n` (meaningful for `n ≥ 2`). -/
def leftSize (n : ℕ) : ℕ := 2 ^ Nat.log 2 (n - 1)

theorem leftSize_pos (n : ℕ) : 0 < leftSize n := Nat.two_pow_pos _

theorem leftSize_lt {n : ℕ} (h : 2 ≤ n) : leftSize n < n := by
  have := Nat.pow_log_le_self 2 (x := n - 1) (by omega)
  rw [leftSize]
  omega

theorem le_two_mul_leftSize (n : ℕ) : n ≤ 2 * leftSize n := by
  have := Nat.lt_pow_succ_log_self (b := 2) (by omega) (n - 1)
  rw [leftSize]
  rw [pow_succ] at this
  omega

/-- The split point is pinned by the two inequalities that define it. -/
theorem leftSize_eq {n j : ℕ} (h1 : 2 ^ j < n) (h2 : n ≤ 2 ^ (j + 1)) :
    leftSize n = 2 ^ j := by
  rw [leftSize]
  congr 1
  rw [Nat.log_eq_iff (by omega)]
  omega

variable {n m : ℕ}

/-- Between the split point of `n` and `n` itself the split point is stable: the
two trees share their left subtree. -/
theorem leftSize_stable (hk : leftSize n < m) (hm : m ≤ n) : leftSize m = leftSize n := by
  have h2 := le_two_mul_leftSize n
  refine leftSize_eq hk ?_
  rw [pow_succ, mul_comm]
  exact hm.trans h2

section Split

variable {α : Type*}

theorem length_take_leftSize {E : List α} (h : 2 ≤ E.length) :
    (E.take (leftSize E.length)).length = leftSize E.length :=
  List.length_take_of_le (leftSize_lt h).le

/-- **Induction along the tree.** A property of lists that holds of at most one entry, and
of a list whenever it holds of the two sides of its split, holds of every list. -/
@[elab_as_elim]
theorem splitInduction {motive : List α → Prop} (nil : motive []) (single : ∀ e, motive [e])
    (split : ∀ E, 2 ≤ E.length → motive (E.take (leftSize E.length)) →
      motive (E.drop (leftSize E.length)) → motive E) (E : List α) : motive E := by
  induction hlen : E.length using Nat.strong_induction_on generalizing E with
  | _ n ih =>
    rcases E with _ | ⟨e₀, _ | ⟨e₁, es⟩⟩
    · exact nil
    · exact single e₀
    · have h2 : 2 ≤ (e₀ :: e₁ :: es).length := by simp
      have hlt := leftSize_lt h2
      have hpos := leftSize_pos (e₀ :: e₁ :: es).length
      refine split _ h2 (ih _ ?_ _ rfl) (ih _ ?_ _ rfl)
      · rw [length_take_leftSize h2, ← hlen]
        exact hlt
      · rw [List.length_drop, ← hlen]
        omega

end Split

/-! ## Paths -/

/-- The turns from the root of a tree over `n` leaves down to leaf `m`. -/
def leafPath (n m : ℕ) : List Bool :=
  if n ≤ 1 then []
  else if m < leftSize n then false :: leafPath (leftSize n) m
  else true :: leafPath (n - leftSize n) (m - leftSize n)
termination_by n
decreasing_by
  · exact leftSize_lt (by omega)
  · have := leftSize_pos n
    omega

/-- The turns from the root of a tree over `n` leaves down to the subtree whose
last leaf is leaf `m - 1`. -/
def prefixPath (n m : ℕ) : List Bool :=
  if n ≤ m ∨ n ≤ 1 then []
  else if m ≤ leftSize n then false :: prefixPath (leftSize n) m
  else true :: prefixPath (n - leftSize n) (m - leftSize n)
termination_by n
decreasing_by
  · exact leftSize_lt (by omega)
  · have := leftSize_pos n
    omega

theorem leafPath_left (hn : 2 ≤ n) (hm : m < leftSize n) :
    leafPath n m = false :: leafPath (leftSize n) m := by
  rw [leafPath, if_neg (by omega), if_pos hm]

theorem leafPath_right (hn : 2 ≤ n) (hm : leftSize n ≤ m) :
    leafPath n m = true :: leafPath (n - leftSize n) (m - leftSize n) := by
  rw [leafPath, if_neg (by omega), if_neg (by omega)]

theorem prefixPath_self (n : ℕ) : prefixPath n n = [] := by
  rw [prefixPath, if_pos (Or.inl le_rfl)]

theorem prefixPath_left (hn : m < n) (h0 : 0 < m) (hm : m ≤ leftSize n) :
    prefixPath n m = false :: prefixPath (leftSize n) m := by
  rw [prefixPath, if_neg (by omega), if_pos hm]

theorem prefixPath_right (hn : m < n) (hm : leftSize n < m) :
    prefixPath n m = true :: prefixPath (n - leftSize n) (m - leftSize n) := by
  have := leftSize_pos n
  rw [prefixPath, if_neg (by omega), if_neg (by omega)]

/-! ## Bits

The arithmetic the two path formulas rest on: what adding a top bit `2 ^ j` to a
smaller number does to `testBit`, `xor`, `size`, shifting and the bit count. -/

/-- Number of one bits. -/
def popCount (x : ℕ) : ℕ := x.bits.count true

@[simp] theorem popCount_zero : popCount 0 = 0 := rfl

theorem popCount_two_mul_add (x : ℕ) (b : Bool) :
    popCount (2 * x + b.toNat) = b.toNat + popCount x := by
  cases b with
  | false =>
    rcases Nat.eq_zero_or_pos x with rfl | hx
    · rfl
    · simp [popCount, Nat.bit0_bits x (by omega)]
  | true =>
    simp [popCount]
    omega

theorem eq_two_mul_add_toNat (x : ℕ) : x = 2 * (x / 2) + (decide (x % 2 = 1)).toNat := by
  rcases Nat.mod_two_eq_zero_or_one x with h | h <;> simp [h] <;> omega

theorem popCount_two_pow_add {j x : ℕ} (h : x < 2 ^ j) :
    popCount (2 ^ j + x) = popCount x + 1 := by
  induction j generalizing x with
  | zero =>
    obtain rfl : x = 0 := by omega
    rfl
  | succ j ih =>
    have hx := eq_two_mul_add_toNat x
    have hsum : 2 ^ (j + 1) + x = 2 * (2 ^ j + x / 2) + (decide (x % 2 = 1)).toNat := by
      rw [pow_succ]
      omega
    rw [hsum, popCount_two_mul_add, ih (by rw [pow_succ] at h; omega)]
    conv_rhs => rw [hx, popCount_two_mul_add]
    omega

theorem popCount_le_size (x : ℕ) : popCount x ≤ x.size := by
  rw [← Nat.size_eq_bits_len]
  exact List.count_le_length

theorem popCount_eq_zero {x : ℕ} (h : popCount x = 0) : x = 0 := by
  induction x using Nat.strong_induction_on with
  | _ x ih =>
    rcases Nat.eq_zero_or_pos x with hx | hx
    · exact hx
    · have hsplit := eq_two_mul_add_toNat x
      rw [hsplit, popCount_two_mul_add] at h
      have hhalf : x / 2 = 0 := ih (x / 2) (by omega) (by omega)
      omega

theorem two_pow_add_xor {j x y : ℕ} (hx : x < 2 ^ j) (hy : y < 2 ^ j) :
    (2 ^ j + x) ^^^ (2 ^ j + y) = x ^^^ y := by
  apply Nat.eq_of_testBit_eq
  intro i
  rw [Nat.testBit_xor, Nat.testBit_xor]
  rcases Nat.lt_trichotomy i j with hi | rfl | hi
  · rw [Nat.testBit_two_pow_add_gt hi, Nat.testBit_two_pow_add_gt hi]
  · rw [Nat.testBit_two_pow_add_eq, Nat.testBit_two_pow_add_eq, Nat.testBit_lt_two_pow hx,
      Nat.testBit_lt_two_pow hy]
    rfl
  · -- above the top bit every operand is zero
    have hpow : 2 ^ j + 2 ^ j ≤ 2 ^ i := by
      rw [← two_mul, ← pow_succ']
      exact Nat.pow_le_pow_right (by omega) hi
    rw [Nat.testBit_lt_two_pow (by omega), Nat.testBit_lt_two_pow (by omega),
      Nat.testBit_lt_two_pow (by omega), Nat.testBit_lt_two_pow (by omega)]

theorem two_pow_add_shiftRight {j i : ℕ} (x : ℕ) (hi : i ≤ j) :
    (2 ^ j + x) >>> i = 2 ^ (j - i) + x >>> i := by
  have hpow : 2 ^ j = 2 ^ (j - i) * 2 ^ i := by
    rw [← pow_add]
    congr 1
    omega
  rw [Nat.shiftRight_eq_div_pow, Nat.shiftRight_eq_div_pow, hpow, Nat.add_comm,
    Nat.add_mul_div_right _ _ (Nat.two_pow_pos i), Nat.add_comm]

theorem shiftRight_lt_two_pow {j i x : ℕ} (hx : x < 2 ^ j) (hi : i ≤ j) :
    x >>> i < 2 ^ (j - i) := by
  rw [Nat.shiftRight_eq_div_pow]
  apply Nat.div_lt_of_lt_mul
  rw [← pow_add]
  exact hx.trans_le (Nat.pow_le_pow_right (by omega) (by omega))

/-- A number below `2 ^ j` and one with top bit `j` first differ at bit `j`. -/
theorem size_xor_of_lt {j x y : ℕ} (hx : x < 2 ^ j) (hy : y < 2 ^ j) :
    (x ^^^ (2 ^ j + y)).size = j + 1 := by
  apply le_antisymm
  · rw [Nat.size_le]
    exact Nat.xor_lt_two_pow (by rw [pow_succ]; omega) (by rw [pow_succ]; omega)
  · have hbit : (x ^^^ (2 ^ j + y)).testBit j = true := by
      rw [Nat.testBit_xor, Nat.testBit_lt_two_pow hx, Nat.testBit_two_pow_add_eq,
        Nat.testBit_lt_two_pow hy]
      rfl
    exact Nat.lt_size.mpr (Nat.ge_two_pow_of_testBit hbit)

theorem size_xor_le {j x y : ℕ} (hx : x < 2 ^ j) (hy : y < 2 ^ j) :
    (x ^^^ y).size ≤ j := Nat.size_le.mpr (Nat.xor_lt_two_pow hx hy)

/-! ## The path formulas -/

/-- The turns a bit-wise verifier derives from an index, root first: `border` right
turns, then the low `inner` bits of the index, highest first. -/
def bitTurns (inner border index : ℕ) : List Bool :=
  List.replicate border true ++ (List.range inner).reverse.map index.testBit

theorem length_bitTurns (inner border index : ℕ) :
    (bitTurns inner border index).length = inner + border := by
  simp [bitTurns, Nat.add_comm]

theorem reverse_bitTurns (inner border index : ℕ) :
    (bitTurns inner border index).reverse =
      (List.range inner).map index.testBit ++ List.replicate border true := by
  simp [bitTurns, ← List.map_reverse]

/-- A window of bits, lowest first, is its lowest bit and the window one higher. -/
theorem map_testBit_range_succ (index i k : ℕ) :
    (List.range (k + 1)).map (fun t => index.testBit (i + t)) =
      index.testBit i :: (List.range k).map fun t => index.testBit (i + 1 + t) := by
  rw [List.range_succ_eq_map, List.map_cons, List.map_map, Nat.add_zero]
  congr 1
  apply List.map_congr_left
  intro t _
  rw [Function.comp_apply, Nat.succ_eq_add_one, Nat.add_assoc, Nat.add_comm 1 t]

/-- Shifting the window: a leading bit that is zero is a left turn. -/
theorem bitTurns_succ_of_lt {inner index : ℕ} (h : index < 2 ^ inner) :
    bitTurns (inner + 1) 0 index = false :: bitTurns inner 0 index := by
  simp [bitTurns, List.range_succ, Nat.testBit_lt_two_pow h]

/-- A leading bit that is one is a right turn. -/
theorem bitTurns_succ_two_pow_add {inner x : ℕ} (h : x < 2 ^ inner) :
    bitTurns (inner + 1) 0 (2 ^ inner + x) = true :: bitTurns inner 0 x := by
  have htop : (2 ^ inner + x).testBit inner = true := by
    rw [Nat.testBit_two_pow_add_eq, Nat.testBit_lt_two_pow h]
    rfl
  simp only [bitTurns, List.replicate_zero, List.nil_append, List.range_succ,
    List.reverse_append, List.reverse_singleton, List.singleton_append, List.map_cons, htop,
    List.cons.injEq, true_and]
  apply List.map_congr_left
  intro i hi
  exact Nat.testBit_two_pow_add_gt (by simpa using hi) x

/-- A top bit above the window is one more right turn of the border. -/
theorem bitTurns_two_pow_add {inner j x : ℕ} (h : x < 2 ^ j) (hi : inner ≤ j) :
    bitTurns inner (popCount ((2 ^ j + x) >>> inner)) (2 ^ j + x) =
      true :: bitTurns inner (popCount (x >>> inner)) x := by
  rw [two_pow_add_shiftRight x hi, popCount_two_pow_add (shiftRight_lt_two_pow h hi)]
  simp only [bitTurns, List.replicate_succ, List.cons_append, List.cons.injEq, true_and,
    List.append_cancel_left_eq]
  apply List.map_congr_left
  intro i hmem
  have hlt : i < inner := by simpa using hmem
  exact Nat.testBit_two_pow_add_gt (by omega) x

/-- In a complete tree the path to a leaf is its index in binary. -/
theorem leafPath_two_pow {j m : ℕ} (h : m < 2 ^ j) : leafPath (2 ^ j) m = bitTurns j 0 m := by
  induction j generalizing m with
  | zero =>
    rw [leafPath]
    rfl
  | succ j ih =>
    have hpos := Nat.two_pow_pos j
    have hdouble : 2 ^ (j + 1) = 2 ^ j + 2 ^ j := by rw [pow_succ, mul_two]
    have hsize : leftSize (2 ^ (j + 1)) = 2 ^ j := leftSize_eq (by omega) le_rfl
    by_cases hm : m < 2 ^ j
    · rw [leafPath_left (by omega) (by omega), hsize, ih hm, bitTurns_succ_of_lt hm]
    · obtain ⟨x, rfl⟩ := Nat.exists_eq_add_of_le (not_lt.mp hm)
      have hx : x < 2 ^ j := by omega
      rw [leafPath_right (by omega) (by omega), hsize, bitTurns_succ_two_pow_add hx,
        show 2 ^ (j + 1) - 2 ^ j = 2 ^ j by omega, show 2 ^ j + x - 2 ^ j = x by omega, ih hx]

/-- **Leaf paths are bits.** The path to leaf `m` of `n` is determined by the first
bit where `m` and `n - 1` differ: above it, one right turn per one bit of `m`; from
it downwards, the bits of `m` themselves. -/
theorem leafPath_eq (h : m < n) :
    leafPath n m =
      bitTurns (m ^^^ (n - 1)).size (popCount (m >>> (m ^^^ (n - 1)).size)) m := by
  induction n using Nat.strong_induction_on generalizing m with
  | _ n ih =>
    rcases Nat.lt_or_ge n 2 with hn | hn
    · obtain rfl : m = 0 := by omega
      obtain rfl : n = 1 := by omega
      rw [leafPath]
      rfl
    · obtain ⟨j, hj⟩ : ∃ j, leftSize n = 2 ^ j := ⟨_, rfl⟩
      have hlt := leftSize_lt hn
      have hle := le_two_mul_leftSize n
      rw [hj] at hlt hle
      obtain ⟨y, hy⟩ := Nat.exists_eq_add_of_le (show 2 ^ j ≤ n - 1 by omega)
      by_cases hm : m < 2 ^ j
      · -- left: the rest of the walk is inside a complete tree
        rw [leafPath_left hn (by omega), hj, leafPath_two_pow hm, hy,
          size_xor_of_lt hm (by omega), ← bitTurns_succ_of_lt hm,
          Nat.shiftRight_eq_zero _ _ (hm.trans (Nat.pow_lt_pow_succ (by omega)))]
        rfl
      · -- right: both `m` and `n - 1` lose their common top bit
        obtain ⟨x, rfl⟩ := Nat.exists_eq_add_of_le (not_lt.mp hm)
        have hxy : x < n - 2 ^ j := by omega
        have hrec := ih (n - 2 ^ j) (by omega) hxy
        rw [show n - 2 ^ j - 1 = y by omega] at hrec
        rw [leafPath_right hn (by omega), hj, show 2 ^ j + x - 2 ^ j = x by omega, hrec, hy,
          two_pow_add_xor (by omega) (by omega),
          bitTurns_two_pow_add (by omega) (size_xor_le (by omega) (by omega))]

/-- Number of turns down to leaf `m` of `n`. -/
theorem length_leafPath (h : m < n) :
    (leafPath n m).length =
      (m ^^^ (n - 1)).size + popCount (m >>> (m ^^^ (n - 1)).size) := by
  rw [leafPath_eq h, length_bitTurns]

/-- The root is the only node of a tree over one leaf. -/
theorem leafPath_one (m : ℕ) : leafPath 1 m = [] := by
  rw [leafPath, if_pos le_rfl]

/-- In a complete tree the prefix of size `m` ends at a subtree of size `2 ^ s`, where
`2 ^ s` is the largest power of two dividing `m`; the walk there reads the bits of
`m - 1` from the top down to bit `s`. -/
theorem prefixPath_two_pow {j m s : ℕ} (h0 : 0 < m) (h : m ≤ 2 ^ j) (hs : 2 ^ s ∣ m)
    (hs' : ¬ 2 ^ (s + 1) ∣ m) :
    prefixPath (2 ^ j) m = bitTurns (j - s) 0 ((m - 1) >>> s) := by
  induction j generalizing m with
  | zero =>
    obtain rfl : m = 1 := by omega
    rw [prefixPath]
    simp [bitTurns]
  | succ j ih =>
    have hpos := Nat.two_pow_pos j
    have hdouble : 2 ^ (j + 1) = 2 ^ j + 2 ^ j := by rw [pow_succ, mul_two]
    have hsize : leftSize (2 ^ (j + 1)) = 2 ^ j := leftSize_eq (by omega) le_rfl
    rcases Nat.eq_or_lt_of_le h with rfl | hlt
    · -- the whole tree
      have : s = j + 1 := by
        have h1 := (Nat.pow_dvd_pow_iff_le_right (by omega)).mp hs
        by_contra hne
        exact hs' ((Nat.pow_dvd_pow_iff_le_right (by omega)).mpr (by omega))
      subst this
      rw [prefixPath_self]
      simp [bitTurns]
    · have hsj : s ≤ j := by
        by_contra hne
        have := Nat.le_of_dvd h0 ((pow_dvd_pow 2 (show j + 1 ≤ s by omega)).trans hs)
        omega
      have hwin : j + 1 - s = (j - s) + 1 := by omega
      by_cases hm : m ≤ 2 ^ j
      · rw [prefixPath_left hlt h0 (by omega), hsize, ih h0 hm hs hs', hwin,
          bitTurns_succ_of_lt (shiftRight_lt_two_pow (by omega) hsj)]
      · obtain ⟨x, rfl⟩ := Nat.exists_eq_add_of_le (le_of_not_ge hm)
        have hs2 : 2 ^ s ∣ x := (Nat.dvd_add_right (pow_dvd_pow 2 hsj)).mp hs
        have hs2' : ¬ 2 ^ (s + 1) ∣ x := by
          intro hd
          rcases Nat.eq_or_lt_of_le hsj with rfl | hlt'
          · have := Nat.le_of_dvd (by omega) hd
            omega
          · exact hs' ((Nat.dvd_add_right (pow_dvd_pow 2 hlt')).mpr hd)
        rw [prefixPath_right hlt (by omega), hsize, show 2 ^ (j + 1) - 2 ^ j = 2 ^ j by omega,
          show 2 ^ j + x - 2 ^ j = x by omega, ih (by omega) (by omega) hs2 hs2', hwin,
          show 2 ^ j + x - 1 = 2 ^ j + (x - 1) by omega, two_pow_add_shiftRight _ hsj,
          bitTurns_succ_two_pow_add (shiftRight_lt_two_pow (by omega) hsj)]

/-- **Prefix paths are bits.** Same shape as `leafPath_eq`, read off `m - 1` above the
trailing zeros `s` of `m`. -/
theorem prefixPath_eq {n m s : ℕ} (h0 : 0 < m) (h : m < n) (hs : 2 ^ s ∣ m)
    (hs' : ¬ 2 ^ (s + 1) ∣ m) :
    prefixPath n m =
      bitTurns (((m - 1) ^^^ (n - 1)).size - s)
        (popCount (((m - 1) >>> s) >>> (((m - 1) ^^^ (n - 1)).size - s))) ((m - 1) >>> s) := by
  induction n using Nat.strong_induction_on generalizing m with
  | _ n ih =>
    obtain ⟨j, hj⟩ : ∃ j, leftSize n = 2 ^ j := ⟨_, rfl⟩
    have hlt := leftSize_lt (show 2 ≤ n by omega)
    have hle := le_two_mul_leftSize n
    rw [hj] at hlt hle
    obtain ⟨y, hy⟩ := Nat.exists_eq_add_of_le (show 2 ^ j ≤ n - 1 by omega)
    have hsm := Nat.le_of_dvd h0 hs
    by_cases hm : m ≤ 2 ^ j
    · have hsj : s ≤ j := (Nat.pow_le_pow_iff_right (by omega)).mp (hsm.trans hm)
      rw [prefixPath_left h h0 (by omega), hj, prefixPath_two_pow h0 hm hs hs', hy,
        size_xor_of_lt (by omega) (by omega), ← Nat.shiftRight_add,
        show s + (j + 1 - s) = j + 1 by omega,
        Nat.shiftRight_eq_zero (m - 1) (j + 1) (by rw [pow_succ]; omega), popCount_zero,
        show j + 1 - s = (j - s) + 1 by omega,
        bitTurns_succ_of_lt (shiftRight_lt_two_pow (by omega) hsj)]
    · obtain ⟨x, rfl⟩ := Nat.exists_eq_add_of_le (le_of_not_ge hm)
      have hsj : s < j := by
        by_contra hne
        have hd : 2 ^ j ∣ x :=
          (Nat.dvd_add_right dvd_rfl).mp ((pow_dvd_pow 2 (not_lt.mp hne)).trans hs)
        have := Nat.le_of_dvd (by omega) hd
        omega
      have hs2 : 2 ^ s ∣ x := (Nat.dvd_add_right (pow_dvd_pow 2 hsj.le)).mp hs
      have hs2' : ¬ 2 ^ (s + 1) ∣ x := fun hd =>
        hs' ((Nat.dvd_add_right (pow_dvd_pow 2 hsj)).mpr hd)
      have hrec := @ih (n - 2 ^ j) (by omega) x (by omega) (by omega) hs2 hs2'
      rw [show n - 2 ^ j - 1 = y by omega] at hrec
      rw [prefixPath_right h (by omega), hj, show 2 ^ j + x - 2 ^ j = x by omega, hrec, hy,
        show 2 ^ j + x - 1 = 2 ^ j + (x - 1) by omega, two_pow_add_xor (by omega) (by omega),
        two_pow_add_shiftRight _ hsj.le,
        bitTurns_two_pow_add (shiftRight_lt_two_pow (by omega) hsj.le)
          (Nat.sub_le_sub_right (size_xor_le (by omega) (by omega)) s)]

/-- A prefix path never turns right exactly when the prefix is a power of two. -/
theorem true_mem_prefixPath {n m s : ℕ} (h0 : 0 < m) (h : m < n) (hs : 2 ^ s ∣ m)
    (hs' : ¬ 2 ^ (s + 1) ∣ m) : true ∈ prefixPath n m ↔ m ≠ 2 ^ s := by
  have hsm := Nat.le_of_dvd h0 hs
  rw [prefixPath_eq h0 h hs hs']
  constructor
  · rintro hmem rfl
    rw [Nat.shiftRight_eq_zero (2 ^ s - 1) s (by omega)] at hmem
    simp [bitTurns] at hmem
  · intro hne
    -- some bit of the mask is one; it is in the window or counted by the border
    have hmask : (m - 1) >>> s ≠ 0 := by
      rw [Nat.shiftRight_eq_div_pow]
      intro hz
      have := (Nat.div_eq_zero_iff_lt (Nat.two_pow_pos s)).mp hz
      omega
    by_contra hno
    simp only [bitTurns, List.mem_append, List.mem_replicate, List.mem_map, List.mem_reverse,
      List.mem_range, not_or, not_exists, not_and, and_true, not_not] at hno
    obtain ⟨hborder, hwin⟩ := hno
    have hhigh := popCount_eq_zero hborder
    apply hmask
    apply Nat.eq_of_testBit_eq
    intro i
    rw [Nat.zero_testBit]
    by_cases hi : i < ((m - 1) ^^^ (n - 1)).size - s
    · exact Bool.eq_false_iff.mpr (hwin i hi)
    · obtain ⟨d, rfl⟩ := Nat.exists_eq_add_of_le (not_lt.mp hi)
      rw [← Nat.testBit_shiftRight, hhigh, Nat.zero_testBit]

/-! ## Climbing -/

section Climb

variable {δ : Type*} (nd : δ → δ → δ)

/-- Fold sibling digests upwards from `seed`: `true` means the sibling is on the left
(the walk came from a right child). -/
def climb (seed : δ) (steps : List (Bool × δ)) : δ :=
  steps.foldl (fun acc s => if s.1 then nd s.2 acc else nd acc s.2) seed

/-- Like `climb`, but left turns add nothing: the digest of the part of the tree up to
and including the seed. -/
def climbRight (seed : δ) (steps : List (Bool × δ)) : δ :=
  steps.foldl (fun acc s => if s.1 then nd s.2 acc else acc) seed

@[simp] theorem climb_nil (seed : δ) : climb nd seed [] = seed := rfl

@[simp] theorem climbRight_nil (seed : δ) : climbRight nd seed [] = seed := rfl

theorem climb_cons (seed : δ) (b : Bool) (p : δ) (xs : List (Bool × δ)) :
    climb nd seed ((b, p) :: xs) = climb nd (if b then nd p seed else nd seed p) xs := rfl

theorem climbRight_cons (seed : δ) (b : Bool) (p : δ) (xs : List (Bool × δ)) :
    climbRight nd seed ((b, p) :: xs) = climbRight nd (if b then nd p seed else seed) xs := rfl

theorem climb_append (seed : δ) (xs ys : List (Bool × δ)) :
    climb nd seed (xs ++ ys) = climb nd (climb nd seed xs) ys := List.foldl_append

theorem climbRight_append (seed : δ) (xs ys : List (Bool × δ)) :
    climbRight nd seed (xs ++ ys) = climbRight nd (climbRight nd seed xs) ys :=
  List.foldl_append

@[simp] theorem climb_concat (seed : δ) (xs : List (Bool × δ)) (b : Bool) (p : δ) :
    climb nd seed (xs ++ [(b, p)]) =
      if b then nd p (climb nd seed xs) else nd (climb nd seed xs) p := climb_append ..

@[simp] theorem climbRight_concat (seed : δ) (xs : List (Bool × δ)) (b : Bool) (p : δ) :
    climbRight nd seed (xs ++ [(b, p)]) =
      if b then nd p (climbRight nd seed xs) else climbRight nd seed xs := climbRight_append ..

/-- The topmost turn of a path is the last step. -/
theorem zip_cons_turn {turns : List Bool} {sibs : List δ} (h : sibs.length = turns.length)
    (b : Bool) (p : δ) :
    (b :: turns).reverse.zip (sibs ++ [p]) = turns.reverse.zip sibs ++ [(b, p)] := by
  rw [List.reverse_cons, List.zip_append (by rw [List.length_reverse, h])]
  rfl

theorem climb_cons_turn {turns : List Bool} {sibs : List δ} (h : sibs.length = turns.length)
    (seed : δ) (b : Bool) (p : δ) :
    climb nd seed ((b :: turns).reverse.zip (sibs ++ [p])) =
      if b then nd p (climb nd seed (turns.reverse.zip sibs))
      else nd (climb nd seed (turns.reverse.zip sibs)) p := by
  rw [zip_cons_turn h, climb_concat]

theorem climbRight_cons_turn {turns : List Bool} {sibs : List δ}
    (h : sibs.length = turns.length) (seed : δ) (b : Bool) (p : δ) :
    climbRight nd seed ((b :: turns).reverse.zip (sibs ++ [p])) =
      if b then nd p (climbRight nd seed (turns.reverse.zip sibs))
      else climbRight nd seed (turns.reverse.zip sibs) := by
  rw [zip_cons_turn h, climbRight_concat]

/-- The preimages `climb` feeds to the node function, when that function hashes the
encoding `enc` of its two arguments. -/
def climbInputs {ι : Type*} (enc : δ → δ → ι) (seed : δ) : List (Bool × δ) → List ι
  | [] => []
  | (b, p) :: xs =>
    (if b then enc p seed else enc seed p) ::
      climbInputs enc (if b then nd p seed else nd seed p) xs

/-- The preimages of `climbRight`. -/
def climbRightInputs {ι : Type*} (enc : δ → δ → ι) (seed : δ) : List (Bool × δ) → List ι
  | [] => []
  | (b, p) :: xs =>
    if b then enc p seed :: climbRightInputs enc (nd p seed) xs else climbRightInputs enc seed xs

theorem climbInputs_append {ι : Type*} (enc : δ → δ → ι) (seed : δ) (xs ys : List (Bool × δ)) :
    climbInputs nd enc seed (xs ++ ys) =
      climbInputs nd enc seed xs ++ climbInputs nd enc (climb nd seed xs) ys := by
  induction xs generalizing seed with
  | nil => rfl
  | cons s xs ih =>
    obtain ⟨b, p⟩ := s
    rw [List.cons_append, climbInputs, climbInputs, ih, climb_cons, List.cons_append]

theorem climbRightInputs_append {ι : Type*} (enc : δ → δ → ι) (seed : δ)
    (xs ys : List (Bool × δ)) :
    climbRightInputs nd enc seed (xs ++ ys) =
      climbRightInputs nd enc seed xs ++
        climbRightInputs nd enc (climbRight nd seed xs) ys := by
  induction xs generalizing seed with
  | nil => rfl
  | cons s xs ih =>
    obtain ⟨b, p⟩ := s
    cases b with
    | false => exact ih seed
    | true => exact congrArg (enc p seed :: ·) (ih (nd p seed))

/-- The steps a bit-wise verifier performs on a proof of any length: the first `inner`
nodes are placed by the bits of the index, the rest are left siblings. -/
def auditSteps (inner index : ℕ) (proof : List δ) : List (Bool × δ) :=
  ((List.range inner).map index.testBit).zip proof ++
    (proof.drop inner).map fun p => (true, p)

/-- On a proof of the right length the steps are the turns, bottom first. -/
theorem auditSteps_eq_zip {inner border index : ℕ} {proof : List δ}
    (h : proof.length = inner + border) :
    auditSteps inner index proof = (bitTurns inner border index).reverse.zip proof := by
  have hsplit := List.take_append_drop inner proof
  have htake : (proof.take inner).length = inner := by
    rw [List.length_take]
    omega
  have hdrop : (proof.drop inner).length = border := by
    rw [List.length_drop]
    omega
  have hmap : (proof.drop inner).map (fun p => (true, p)) =
      (List.replicate border true).zip (proof.drop inner) := by
    rw [← hdrop]
    induction proof.drop inner with
    | nil => rfl
    | cons p ps ih =>
      rw [List.map_cons, ih, List.length_cons, List.replicate_succ, List.zip_cons_cons]
  rw [auditSteps, reverse_bitTurns, hmap]
  conv_rhs => rw [← hsplit, List.zip_append (by simp [htake])]
  congr 1
  conv_lhs => rw [← hsplit, ← List.append_nil (List.map _ _), List.zip_append (by simp [htake])]
  rw [List.zip_nil_left, List.append_nil]

/-- Without right turns `climbRight` never leaves the seed. -/
theorem climbRight_of_forall_left (seed : δ) (xs : List (Bool × δ))
    (h : ∀ s ∈ xs, s.1 = false) : climbRight nd seed xs = seed := by
  induction xs using List.reverseRecOn with
  | nil => rfl
  | append_singleton xs s ih =>
    obtain ⟨b, p⟩ := s
    have hb : b = false := h (b, p) (by simp)
    rw [climbRight_concat, hb, if_neg (by simp)]
    exact ih fun t ht => h t (List.mem_append_left _ ht)

/-- With an all-zero index only the nodes beyond the window count. -/
theorem climbRight_auditSteps_zero (seed : δ) (inner : ℕ) (proof : List δ) :
    climbRight nd seed (auditSteps inner 0 proof) =
      climbRight nd seed ((proof.drop inner).map fun p => (true, p)) := by
  have hwindow :
      climbRight nd seed (((List.range inner).map (Nat.testBit 0)).zip proof) = seed := by
    apply climbRight_of_forall_left
    rintro ⟨b, p⟩ hs
    obtain ⟨i, -, rfl⟩ := List.mem_map.mp (List.of_mem_zip hs).1
    exact Nat.zero_testBit i
  rw [auditSteps, climbRight_append, hwindow]

end Climb

end Nerion
