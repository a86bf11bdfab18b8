import Mathlib.Data.Int.Notation
import Mathlib.Data.List.Basic
import Mathlib.Data.List.Lex

/-!
# JavaScript strings

A library for the places where a JavaScript string is not a sequence of characters: its
`length`, its order `<` and its slices go by UTF-16 code units, which determine it
(`codeUnits_injective`). Also the two readers of hexadecimal text, `parseInt(s, 16)`, which takes
what it can, and `BigInt('0x' + s)`, which takes all or nothing.
-/

namespace Nerion

/-- The UTF-16 code units of a character: itself, or a surrogate pair. -/
def utf16Units (c : Char) : List ℕ :=
  if c.toNat < 0x10000 then [c.toNat]
  else [0xD800 + (c.toNat - 0x10000) / 0x400, 0xDC00 + (c.toNat - 0x10000) % 0x400]

/-- The code units of a string. -/
def codeUnits (s : String) : List ℕ := s.toList.flatMap utf16Units

/-- `s.length`. -/
def jsLength (s : String) : ℕ := (codeUnits s).length

/-- `s.startsWith(t)`. -/
def jsStartsWith (s t : String) : Bool := t.toList.isPrefixOf s.toList

/-- `s.endsWith(c)` for a single character. -/
def jsEndsWith (s : String) (c : Char) : Bool := s.toList.getLast? == some c

/-- `s < t`. -/
def jsLt (s t : String) : Bool := decide (codeUnits s < codeUnits t)

/-! ## Order -/

/-- A character is read off the front of a text: the first unit tells a surrogate pair. -/
theorem utf16Units_append_inj {c d : Char} {r r' : List ℕ}
    (h : utf16Units c ++ r = utf16Units d ++ r') : c = d ∧ r = r' := by
  have hinj : c.toNat = d.toNat → c = d := fun heq => Char.ext (UInt32.toNat_inj.mp heq)
  -- no character is a surrogate
  have hc : c.toNat < 0xD800 ∨ 0xDFFF < c.toNat ∧ c.toNat < 0x110000 := c.valid
  have hd : d.toNat < 0xD800 ∨ 0xDFFF < d.toNat ∧ d.toNat < 0x110000 := d.valid
  rw [utf16Units, utf16Units] at h
  split at h <;> split at h <;> simp only [List.cons_append, List.nil_append, List.cons.injEq] at h
  · exact ⟨hinj h.1, h.2⟩
  · omega
  · omega
  · exact ⟨hinj (by omega), h.2.2⟩

theorem utf16Units_ne_nil (c : Char) : utf16Units c ≠ [] := by
  rw [utf16Units]
  split <;> simp

/-- A text is determined by its code units. -/
theorem codeUnits_injective : Function.Injective codeUnits := by
  intro s t h
  rw [codeUnits, codeUnits] at h
  rw [← String.toList_inj]
  generalize s.toList = cs at h
  generalize t.toList = ds at h
  induction cs generalizing ds with
  | nil =>
    cases ds with
    | nil => rfl
    | cons d ds => simp [utf16Units_ne_nil] at h
  | cons c cs ih =>
    cases ds with
    | nil => simp [utf16Units_ne_nil] at h
    | cons d ds =>
      rw [List.flatMap_cons, List.flatMap_cons] at h
      obtain ⟨rfl, hrest⟩ := utf16Units_append_inj h
      rw [ih ds hrest]

@[simp] theorem jsLt_irrefl (s : String) : jsLt s s = false := by simp [jsLt]

theorem jsLt_trans {s t u : String} (h : jsLt s t = true) (h' : jsLt t u = true) :
    jsLt s u = true := by
  simp only [jsLt, decide_eq_true_eq] at *
  exact lt_trans h h'

theorem jsLt_asymm {s t : String} (h : jsLt s t = true) : jsLt t s = false := by
  simp only [jsLt, decide_eq_true_eq, decide_eq_false_iff_not] at *
  exact lt_asymm h

theorem jsLt_trichotomy (s t : String) : jsLt s t = true ∨ s = t ∨ jsLt t s = true := by
  simp only [jsLt, decide_eq_true_eq]
  rcases lt_trichotomy (codeUnits s) (codeUnits t) with h | h | h
  · exact .inl h
  · exact .inr (.inl (codeUnits_injective h))
  · exact .inr (.inr h)

/-! ## Hexadecimal text -/

/-- The value of a hexadecimal digit. -/
def hexDigit? (u : ℕ) : Option ℕ :=
  if 48 ≤ u ∧ u ≤ 57 then some (u - 48)
  else if 97 ≤ u ∧ u ≤ 102 then some (u - 87)
  else if 65 ≤ u ∧ u ≤ 70 then some (u - 55)
  else none

/-- White space and line terminators. -/
def isJsSpace (u : ℕ) : Bool :=
  decide (u ∈ [0x20, 0xA0, 0x1680, 0x2028, 0x2029, 0x202F, 0x205F, 0x3000, 0xFEFF]) ||
    decide (9 ≤ u ∧ u ≤ 13) || decide (0x2000 ≤ u ∧ u ≤ 0x200A)

/-- The number with the given hexadecimal digits. -/
def ofHexDigits (ds : List ℕ) : ℕ := ds.foldl (fun n d => n * 16 + d) 0

/-- `parseInt(s, 16)` on code units; `none` is `NaN`. Leading space, a sign and `0x` are
skipped, and reading stops at the first unit that is not a digit. -/
def parseIntHex (s : List ℕ) : Option ℤ :=
  let trimmed := s.dropWhile isJsSpace
  let signed : ℤ × List ℕ :=
    match trimmed with
    | 45 :: r => (-1, r)
    | 43 :: r => (1, r)
    | r => (1, r)
  let body :=
    match signed.2 with
    | 48 :: 120 :: r => r
    | 48 :: 88 :: r => r
    | r => r
  match (body.map hexDigit?).takeWhile Option.isSome with
  | [] => none
  | ds => some (signed.1 * ofHexDigits (ds.filterMap id))

/-- `BigInt('0x' + s)`; `none` is a `SyntaxError`. -/
def bigIntHex? (s : String) : Option ℤ :=
  match (codeUnits s).mapM hexDigit? with
  | some (d :: ds) => some (ofHexDigits (d :: ds))
  | _ => none

end Nerion
