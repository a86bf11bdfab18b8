import Mathlib.Algebra.Group.Nat.Defs
import Mathlib.Data.List.Basic

/-!
# Byte strings

A library on the byte strings that hash inputs are made of.

* `bigEndian` — the bytes of a number at a fixed width, most significant first; injective
  below the width's bound (`bigEndian_inj`); `ofBigEndian` reads a number of any width;
* `utf8` — the UTF-8 bytes of a text, injective (`utf8_injective`).
-/

namespace Nerion

/-! ## Numbers at a fixed width -/

/-- The last `width` digits of `n` in base 256, most significant first. -/
def bigEndian : (width n : ℕ) → List UInt8
  | 0, _ => []
  | width + 1, n => bigEndian width (n / 256) ++ [UInt8.ofNat (n % 256)]

@[simp] theorem length_bigEndian (width n : ℕ) : (bigEndian width n).length = width := by
  induction width generalizing n with
  | zero => rfl
  | succ width ih => rw [bigEndian, List.length_append, ih, List.length_singleton]

/-- A number below the bound is determined by its bytes. -/
theorem bigEndian_inj {width m n : ℕ} (hm : m < 256 ^ width) (hn : n < 256 ^ width)
    (h : bigEndian width m = bigEndian width n) : m = n := by
  induction width generalizing m n with
  | zero =>
    rw [Nat.pow_zero, Nat.lt_one_iff] at hm hn
    rw [hm, hn]
  | succ width ih =>
    rw [Nat.pow_succ] at hm hn
    obtain ⟨hhigh, hlow⟩ := List.append_inj h (by simp)
    have hdiv : m / 256 = n / 256 :=
      ih (Nat.div_lt_of_lt_mul (by rwa [Nat.mul_comm]))
        (Nat.div_lt_of_lt_mul (by rwa [Nat.mul_comm])) hhigh
    have hmod : m % 256 = n % 256 := by
      have hbyte := congrArg UInt8.toNat (List.cons.inj hlow).1
      rwa [UInt8.toNat_ofNat_of_lt' (Nat.mod_lt m (by decide)),
        UInt8.toNat_ofNat_of_lt' (Nat.mod_lt n (by decide))] at hbyte
    rw [← Nat.div_add_mod m 256, hdiv, hmod, Nat.div_add_mod]

/-- The number whose base 256 digits are the bytes, most significant first. -/
def ofBigEndian (bytes : List UInt8) : ℕ := bytes.foldl (fun n b => n * 256 + b.toNat) 0

-- from here on a word is opaque to unification, which would otherwise spell out its bytes
attribute [irreducible] bigEndian

/-! ## Text -/

/-- The UTF-8 bytes of a text. -/
def utf8 (s : String) : List UInt8 := s.toList.flatMap String.utf8EncodeChar

theorem utf8_injective : Function.Injective utf8 := by
  intro s t h
  have hbytes : s.toList.utf8Encode = t.toList.utf8Encode := congrArg List.toByteArray h
  rw [← String.toByteArray_inj, ← String.ofList_toList (s := s), ← String.ofList_toList (s := t),
    String.toByteArray_ofList, String.toByteArray_ofList, hbytes]

end Nerion
