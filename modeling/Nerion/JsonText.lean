import Nerion.JsString
import Mathlib.Data.List.Forall2

/-!
# JavaScript strings as code units, and `JSON.stringify` of them

A JavaScript string is any sequence of UTF-16 code units; surrogates may stand alone. A library
for strings taken as such, and for the JSON text of a pair of strings, which escapes what has to
be escaped and every surrogate that stands alone.

* `Quoted` — the ways in which a code unit is written;
* `stringifyPair_injective` — the text of a pair determines the pair.
-/

namespace Nerion

/-- A JavaScript string. -/
abbrev JsText := List UInt16

namespace JsText

/-- The string with the given characters. -/
def ofString (s : String) : JsText := (codeUnits s).map UInt16.ofNat

/-- A leading surrogate. -/
def isLead (u : UInt16) : Bool := decide (0xD800 ≤ u.toNat ∧ u.toNat ≤ 0xDBFF)

/-- A trailing surrogate. -/
def isTrail (u : UInt16) : Bool := decide (0xDC00 ≤ u.toNat ∧ u.toNat ≤ 0xDFFF)

/-- The characters of a string, as `toWellFormed` has them: a surrogate that stands alone becomes
the replacement character. -/
def chars : JsText → List Char
  | u :: v :: us =>
    if isLead u && isTrail v then
      Char.ofNat (0x10000 + (u.toNat - 0xD800) * 0x400 + (v.toNat - 0xDC00)) :: chars us
    else (if isLead u || isTrail u then '\uFFFD' else Char.ofNat u.toNat) :: chars (v :: us)
  | [u] => [if isLead u || isTrail u then '\uFFFD' else Char.ofNat u.toNat]
  | [] => []

/-- The characters as a string. -/
def text (s : JsText) : String := String.ofList s.chars

/-! ## Quoting -/

/-- A hexadecimal digit, in lower case. -/
def hexUnit (n : ℕ) : UInt16 := UInt16.ofNat (if n < 10 then 48 + n else 87 + n)

/-- `\uXXXX`. -/
def unicodeEscape (u : UInt16) : JsText :=
  [92, 117, hexUnit (u.toNat / 4096), hexUnit (u.toNat / 256 % 16), hexUnit (u.toNat / 16 % 16),
    hexUnit (u.toNat % 16)]

/-- The code units with an escape of two characters, and the second of these. -/
def shortEscapes : List (UInt16 × UInt16) :=
  [(8, 98), (9, 116), (10, 110), (12, 102), (13, 114), (34, 34), (92, 92)]

/-- A code unit that is not part of a surrogate pair. -/
def quoteUnit (u : UInt16) : JsText :=
  match shortEscapes.lookup u with
  | some e => [92, e]
  | none =>
    if decide (u.toNat < 32) || isLead u || isTrail u then unicodeEscape u else [u]

/-- The text between the quotes. -/
def quoteUnits : JsText → JsText
  | u :: v :: us =>
    if isLead u && isTrail v then u :: v :: quoteUnits us else quoteUnit u ++ quoteUnits (v :: us)
  | [u] => quoteUnit u
  | [] => []

/-- `JSON.stringify(s)`. -/
def quote (s : JsText) : JsText := 34 :: (quoteUnits s ++ [34])

/-- `JSON.stringify([a, b])`. -/
def stringifyPair (a b : JsText) : JsText := 91 :: (quote a ++ 44 :: (quote b ++ [93]))

/-! ## What a text determines -/

/-- The ways in which a code unit is written. -/
inductive Quoted : UInt16 → JsText → Prop where
  /-- as it is -/
  | raw {u : UInt16} (hquote : u ≠ 34) (hslash : u ≠ 92) : Quoted u [u]
  /-- with an escape of two characters -/
  | short {u e : UInt16} (h : (u, e) ∈ shortEscapes) : Quoted u [92, e]
  /-- by its number -/
  | unicode (u : UInt16) : Quoted u (unicodeEscape u)

theorem mem_of_lookup {u e : UInt16} (h : shortEscapes.lookup u = some e) :
    (u, e) ∈ shortEscapes := by
  obtain ⟨l, r, heq, -⟩ := List.lookup_eq_some_iff.mp h
  rw [heq]
  simp

theorem quoted_quoteUnit (u : UInt16) : Quoted u (quoteUnit u) := by
  rw [quoteUnit]
  cases hlookup : shortEscapes.lookup u with
  | some e => exact .short (mem_of_lookup hlookup)
  | none =>
    dsimp only
    split
    · exact .unicode u
    · refine .raw ?_ ?_ <;>
      · rintro rfl
        cases hlookup

theorem quoted_surrogate {u : UInt16} (h : isLead u = true ∨ isTrail u = true) : Quoted u [u] := by
  refine .raw ?_ ?_ <;>
  · rintro rfl
    revert h
    decide

/-- The text between the quotes is made of its code units, one after the other. -/
theorem quoteUnits_quoted (s : JsText) :
    ∃ cs : List JsText, List.Forall₂ Quoted s cs ∧ quoteUnits s = cs.flatten := by
  fun_induction quoteUnits s with
  | case1 u v us hpair ih =>
    obtain ⟨cs, hcs, heq⟩ := ih
    rw [Bool.and_eq_true] at hpair
    refine ⟨[u] :: [v] :: cs, ?_, by rw [heq]; rfl⟩
    exact .cons (quoted_surrogate (.inl hpair.1)) (.cons (quoted_surrogate (.inr hpair.2)) hcs)
  | case2 u v us _ ih =>
    obtain ⟨cs, hcs, heq⟩ := ih
    exact ⟨quoteUnit u :: cs, .cons (quoted_quoteUnit u) hcs, by rw [heq]; rfl⟩
  | case3 u =>
    exact ⟨[quoteUnit u], .cons (quoted_quoteUnit u) .nil, by simp⟩
  | case4 => exact ⟨[], .nil, rfl⟩

theorem hexUnit_inj : ∀ m < 16, ∀ n < 16, hexUnit m = hexUnit n → m = n := by decide +kernel

theorem unicodeEscape_append_inj {u v : UInt16} {s t : JsText}
    (h : unicodeEscape u ++ s = unicodeEscape v ++ t) : u = v ∧ s = t := by
  simp only [unicodeEscape, List.cons_append, List.nil_append, List.cons.injEq, true_and] at h
  obtain ⟨h3, h2, h1, h0, hrest⟩ := h
  have hu := u.toNat_lt
  have hv := v.toNat_lt
  have d3 := hexUnit_inj _ (by omega) _ (by omega) h3
  have d2 := hexUnit_inj _ (Nat.mod_lt _ (by decide)) _ (Nat.mod_lt _ (by decide)) h2
  have d1 := hexUnit_inj _ (Nat.mod_lt _ (by decide)) _ (Nat.mod_lt _ (by decide)) h1
  have d0 := hexUnit_inj _ (Nat.mod_lt _ (by decide)) _ (Nat.mod_lt _ (by decide)) h0
  exact ⟨UInt16.toNat_inj.mp (by omega), hrest⟩

theorem short_ne_unicode : ∀ p ∈ shortEscapes, p.2 ≠ 117 := by simp [shortEscapes]

theorem short_inj : ∀ p ∈ shortEscapes, ∀ q ∈ shortEscapes, p.2 = q.2 → p.1 = q.1 := by
  simp [shortEscapes]

/-- No text of a code unit begins another's. -/
theorem Quoted.unique {u v : UInt16} {c d s t : JsText} (hc : Quoted u c) (hd : Quoted v d)
    (h : c ++ s = d ++ t) : u = v ∧ s = t := by
  -- the first character tells escapes from the rest, the second tells them apart
  cases hc with
  | raw hquote hslash =>
    cases hd with
    | raw _ _ => exact List.cons.inj h
    | short _ => exact absurd (List.cons.inj h).1 hslash
    | unicode => exact absurd (List.cons.inj h).1 hslash
  | short hu =>
    cases hd with
    | raw _ hslash => exact absurd (List.cons.inj h).1.symm hslash
    | short hv =>
      obtain ⟨he, hrest⟩ := List.cons.inj (List.cons.inj h).2
      exact ⟨short_inj _ hu _ hv he, hrest⟩
    | unicode => exact absurd (List.cons.inj (List.cons.inj h).2).1 (short_ne_unicode _ hu)
  | unicode =>
    cases hd with
    | raw _ hslash => exact absurd (List.cons.inj h).1.symm hslash
    | short hv =>
      exact absurd (List.cons.inj (List.cons.inj h).2).1.symm (short_ne_unicode _ hv)
    | unicode => exact unicodeEscape_append_inj h

/-- No text of a code unit begins with the closing quote. -/
theorem Quoted.ne_quote {u : UInt16} {c s t : JsText} (hc : Quoted u c) : c ++ s ≠ 34 :: t := by
  cases hc with
  | raw hquote _ => exact fun h => hquote (List.cons.inj h).1
  | short _ => exact fun h => absurd (List.cons.inj h).1 (by decide)
  | unicode => exact fun h => absurd (List.cons.inj h).1 (by decide)

theorem flatten_quoted_inj {a b : JsText} {cs ds : List JsText} {s t : JsText}
    (hcs : List.Forall₂ Quoted a cs) (hds : List.Forall₂ Quoted b ds)
    (h : cs.flatten ++ 34 :: s = ds.flatten ++ 34 :: t) : a = b ∧ s = t := by
  induction hcs generalizing b ds with
  | nil =>
    cases hds with
    | nil => exact ⟨rfl, (List.cons.inj h).2⟩
    | cons hd _ =>
      rw [List.flatten_cons, List.append_assoc] at h
      exact absurd h.symm hd.ne_quote
  | cons hc _ ih =>
    rw [List.flatten_cons, List.append_assoc] at h
    cases hds with
    | nil => exact absurd h hc.ne_quote
    | cons hd hds =>
      rw [List.flatten_cons, List.append_assoc] at h
      obtain ⟨rfl, hrest⟩ := hc.unique hd h
      obtain ⟨rfl, hst⟩ := ih hds hrest
      exact ⟨rfl, hst⟩

theorem quote_append_inj {a b s t : JsText} (h : quote a ++ s = quote b ++ t) : a = b ∧ s = t := by
  obtain ⟨cs, hcs, ha⟩ := quoteUnits_quoted a
  obtain ⟨ds, hds, hb⟩ := quoteUnits_quoted b
  simp only [quote, List.cons_append, List.append_assoc, List.cons.injEq, true_and,
    List.nil_append, ha, hb] at h
  exact flatten_quoted_inj hcs hds h

/-- **The text of a pair determines the pair**, whatever the strings contain. -/
theorem stringifyPair_injective {a b c d : JsText} (h : stringifyPair a b = stringifyPair c d) :
    a = c ∧ b = d := by
  obtain ⟨rfl, hrest⟩ := quote_append_inj (List.cons.inj h).2
  exact ⟨rfl, (quote_append_inj (List.cons.inj hrest).2).1⟩

example : stringifyPair (ofString "a\"") [0xD800] =
    ofString "[\"a\\\"\",\"\\ud800\"]" := by decide +kernel

end JsText

end Nerion
