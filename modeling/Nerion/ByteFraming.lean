import Mathlib.Data.Nat.Digits.Defs
import Nerion.ByteString

/-!
# Parts of a byte string

A library on byte strings that are put together from parts, and on when the parts can be told
apart again. Every result is about a part followed by an arbitrary rest.

* `append_separator_inj` — a part that ends at a separator;
* `flatMap_append_inj` — parts of one width, when there are as many on both sides;
* `utf8_append_cons_inj` — a text ends at a separator that does not occur in it;
* `netstring_append_inj` — bytes that follow their length.
-/

namespace Nerion

/-! ## Lists -/

section Lists

variable {α β γ : Type*}

/-- A list is split at the first separator. -/
theorem append_separator_inj [DecidableEq α] {c : α} {a b s t : List α} (ha : c ∉ a) (hb : c ∉ b)
    (h : a ++ c :: s = b ++ c :: t) : a = b ∧ s = t := by
  have htake : ∀ l r : List α, c ∉ l → (l ++ c :: r).takeWhile (· ≠ c) = l := by
    intro l r hl
    rw [List.takeWhile_append_of_pos]
    · simp
    · intro d hd
      simpa using ne_of_mem_of_not_mem hd hl
  obtain rfl : a = b := by rw [← htake a s ha, h, htake b t hb]
  exact ⟨rfl, (List.cons.inj (List.append_cancel_left h)).2⟩

theorem length_flatMap_of_width {f : α → List β} {width : ℕ} (hf : ∀ a, (f a).length = width)
    (xs : List α) : (xs.flatMap f).length = xs.length * width := by
  simp [List.length_flatMap, hf]

/-- As many parts of one width: what a part says of an element, the whole says of each. -/
theorem flatMap_append_inj {f : α → List β} {g : α → γ} {width : ℕ}
    (hf : ∀ a, (f a).length = width) (hinj : ∀ a a', f a = f a' → g a = g a') {xs ys : List α}
    {r r' : List β} (hlength : xs.length = ys.length)
    (h : xs.flatMap f ++ r = ys.flatMap f ++ r') : xs.map g = ys.map g ∧ r = r' := by
  induction xs generalizing ys with
  | nil =>
    obtain rfl := List.length_eq_zero_iff.mp hlength.symm
    exact ⟨rfl, h⟩
  | cons x xs ih =>
    cases ys with
    | nil => cases hlength
    | cons y ys =>
      rw [List.flatMap_cons, List.flatMap_cons, List.append_assoc, List.append_assoc] at h
      obtain ⟨hhead, htail⟩ := List.append_inj h ((hf x).trans (hf y).symm)
      obtain ⟨hrest, hr⟩ := ih (Nat.succ.inj hlength) htail
      rw [List.map_cons, List.map_cons, hinj x y hhead, hrest]
      exact ⟨rfl, hr⟩

end Lists

/-! ## Text and separators -/

@[simp] theorem utf8_append (s t : String) : utf8 (s ++ t) = utf8 s ++ utf8 t := by
  simp [utf8]

variable {c : Char}

/-- A byte below 128 encodes the character with its code, and is no part of another one. -/
theorem toNat_eq_of_mem_utf8EncodeChar {b : UInt8} (hb : b.toNat < 128)
    (h : b ∈ String.utf8EncodeChar c) : c.toNat = b.toNat := by
  have hbyte : ∀ n : ℕ, n < 256 → (UInt8.ofNat n).toNat = n := fun n hn =>
    UInt8.toNat_ofNat_of_lt' hn
  rw [String.utf8EncodeChar] at h
  change b ∈ ite (c.toNat ≤ 127) _ _ at h
  split_ifs at h with hone htwo hthree
  · rw [List.mem_singleton.mp h, hbyte]
    · rfl
    · exact hone.trans_lt (by decide)
  -- the bytes of a longer encoding are all at least 128
  · simp only [List.mem_cons, List.not_mem_nil, or_false] at h
    rcases h with rfl | rfl <;> rw [hbyte _ (by omega)] at hb <;> omega
  · simp only [List.mem_cons, List.not_mem_nil, or_false] at h
    rcases h with rfl | rfl | rfl <;> rw [hbyte _ (by omega)] at hb <;> omega
  · simp only [List.mem_cons, List.not_mem_nil, or_false] at h
    rcases h with rfl | rfl | rfl | rfl <;> rw [hbyte _ (by omega)] at hb <;> omega

theorem toNat_toUInt8 (hc : c.toNat < 128) : c.toUInt8.toNat = c.toNat :=
  UInt8.toNat_ofNat_of_lt' (hc.trans (by decide))

/-- A character below 128 occurs in a text if its byte occurs in the encoding. -/
theorem mem_toList_of_mem_utf8 (hc : c.toNat < 128) {s : String} (h : c.toUInt8 ∈ utf8 s) :
    c ∈ s.toList := by
  obtain ⟨d, hd, hmem⟩ := List.mem_flatMap.mp h
  have hcode := toNat_eq_of_mem_utf8EncodeChar (by rwa [toNat_toUInt8 hc]) hmem
  rw [toNat_toUInt8 hc] at hcode
  rwa [← Char.toNat_inj.mp hcode]

/-- **A text ends at a separator that does not occur in it.** -/
theorem utf8_append_cons_inj {s t : String} (hc : c.toNat < 128) (hs : c ∉ s.toList)
    (ht : c ∉ t.toList) {r r' : List UInt8}
    (h : utf8 s ++ c.toUInt8 :: r = utf8 t ++ c.toUInt8 :: r') : s = t ∧ r = r' := by
  obtain ⟨htext, hrest⟩ := append_separator_inj
    (fun hmem => hs (mem_toList_of_mem_utf8 hc hmem))
    (fun hmem => ht (mem_toList_of_mem_utf8 hc hmem)) h
  exact ⟨utf8_injective htext, hrest⟩

/-! ## Numbers in decimal -/

theorem toList_toString (n : ℕ) : (toString n).toList = Nat.toDigits 10 n := by
  rw [Nat.toString_eq_repr, Nat.toList_repr]

theorem isDigit_of_mem_toString {n : ℕ} (h : c ∈ (toString n).toList) : c.isDigit = true := by
  rw [toList_toString] at h
  exact Nat.isDigit_of_mem_toDigits (by decide) le_rfl h

theorem toString_injective : Function.Injective (toString : ℕ → String) := by
  intro m n h
  have hdigits : Nat.toDigits 10 m = Nat.toDigits 10 n := by
    rw [← toList_toString, h, toList_toString]
  rw [← Nat.ofDigitChars_ten_toDigits (n := m), hdigits, Nat.ofDigitChars_ten_toDigits]

/-- A digit takes one byte. -/
theorem length_utf8EncodeChar_of_isDigit (h : c.isDigit = true) :
    (String.utf8EncodeChar c).length = 1 := by
  have hle : c.toNat ≤ 57 := by
    simp only [Char.isDigit, Bool.and_eq_true, decide_eq_true_iff] at h
    exact UInt32.le_iff_toNat_le.mp h.2
  have hone : String.utf8EncodeChar c = [c.toUInt8] := if_pos (hle.trans (by decide))
  rw [hone, List.length_singleton]

/-- A number below `10 ^ e` takes at most `e` bytes. -/
theorem length_utf8_toString_le {n e : ℕ} (he : 0 < e) (h : n < 10 ^ e) :
    (utf8 (toString n)).length ≤ e := by
  have hbytes : (toString n).toList.map (fun c => (String.utf8EncodeChar c).length) =
      (toString n).toList.map fun _ => 1 :=
    List.map_congr_left fun c hc => length_utf8EncodeChar_of_isDigit (isDigit_of_mem_toString hc)
  rw [utf8, List.length_flatMap, hbytes, toList_toString]
  simpa using Nat.toDigits_length 10 n e he h

/-! ## Bytes that follow their length -/

/-- The length in decimal, a colon and the bytes. -/
def netstring (bytes : List UInt8) : List UInt8 :=
  utf8 (toString bytes.length) ++ ':'.toUInt8 :: bytes

/-- **Bytes that follow their length are told apart from what comes after them.** -/
theorem netstring_append_inj {a b r r' : List UInt8} (h : netstring a ++ r = netstring b ++ r') :
    a = b ∧ r = r' := by
  rw [netstring, netstring, List.append_assoc, List.append_assoc] at h
  have hcolon : ∀ n : ℕ, ':' ∉ (toString n).toList := fun n hmem =>
    absurd (isDigit_of_mem_toString hmem) (by decide)
  obtain ⟨hlength, hrest⟩ := utf8_append_cons_inj (by decide) (hcolon _) (hcolon _) h
  exact List.append_inj hrest (toString_injective hlength)

end Nerion
