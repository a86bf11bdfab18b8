import Nerion.Basic
import Nerion.JsString
import Nerion.NumberText

/-!
# JSON

A library on `JSON.stringify` and `JSON.parse`. A value is made of what JSON can carry, and of
leaves of a kind JSON has no text for; `Json Empty` has no such leaves. Strings are well formed: a
surrogate that stands alone is not a character, and the reader gives up where an escape spells one.

The writer and the reader are mutually recursive over arrays and objects, the reader on fuel. Each
iteration of the reader consumes a character, so the length of a text is fuel enough for it, and
that bound carries the induction over the value.

* `readChar_quoteChar`, `readString_quote` — strings are read back, whatever their characters;
* `readValue_write` — a written value is read back, whatever follows it;
* `parse_stringify` — **`JSON.parse` undoes `JSON.stringify`, up to numbers that are not finite,
  which come back as `null`**;
* `decode_parse_stringify` — so do leaves that travel as tagged objects.
-/

namespace Nerion

/-- Data as JSON has it, with leaves of another kind. -/
inductive Json (β : Type) where
  | null
  /-- a boolean -/
  | bool (b : Bool)
  /-- a number -/
  | num (x : JsNum)
  /-- a string -/
  | text (s : String)
  | array (xs : List (Json β))
  /-- an object, in the order of its properties -/
  | object (fields : List (String × Json β))
  /-- something else -/
  | leaf (b : β)

namespace Json

variable {β : Type}

/-! ## Writing -/

/-- The characters with an escape of two characters, and the second of these. -/
def shortEscapes : List (Char × Char) :=
  [('\x08', 'b'), ('\t', 't'), ('\n', 'n'), ('\x0c', 'f'), ('\r', 'r'), ('"', '"'), ('\\', '\\')]

/-- A character of a string. -/
def quoteChar (c : Char) : List Char :=
  match shortEscapes.lookup c with
  | some e => ['\\', e]
  | none =>
    if c.toNat < 32 then
      ['\\', 'u', '0', '0', Nat.digitChar (c.toNat / 16), Nat.digitChar (c.toNat % 16)]
    else [c]

/-- A string, in quotes. -/
def quote (s : List Char) : List Char := '"' :: (s.flatMap quoteChar ++ ['"'])

/-- A number; one that is not finite is written as `null`. -/
def writeNumber : JsNum → List Char
  | .fin q => (JsNum.text (.fin q)).toList
  | _ => ['n', 'u', 'l', 'l']

mutual

/-- The text of a value. -/
def write : Json Empty → List Char
  | .null => ['n', 'u', 'l', 'l']
  | .bool true => ['t', 'r', 'u', 'e']
  | .bool false => ['f', 'a', 'l', 's', 'e']
  | .num x => writeNumber x
  | .text s => quote s.toList
  | .array [] => ['[', ']']
  | .array (x :: xs) => '[' :: (write x ++ writeItems xs)
  | .object [] => ['\x7b', '\x7d']
  | .object ((k, x) :: fs) => '\x7b' :: (quote k.toList ++ ':' :: (write x ++ writeFields fs))

/-- The items after the first, and the closing bracket. -/
def writeItems : List (Json Empty) → List Char
  | [] => [']']
  | x :: xs => ',' :: (write x ++ writeItems xs)

/-- The properties after the first, and the closing brace. -/
def writeFields : List (String × Json Empty) → List Char
  | [] => ['\x7d']
  | (k, x) :: fs => ',' :: (quote k.toList ++ ':' :: (write x ++ writeFields fs))

end

/-- `JSON.stringify`. -/
def stringify (v : Json Empty) : String := String.ofList (write v)

/-! ## Reading -/

/-- White space between tokens. -/
def isSpace (c : Char) : Bool := c = ' ' || c = '\t' || c = '\n' || c = '\r'

/-- The text from its first token on. -/
def skipSpace (s : List Char) : List Char := s.dropWhile isSpace

/-- The code unit spelled by four hexadecimal digits. -/
def readUnit : List Char → Option (ℕ × List Char)
  | a :: b :: c :: d :: s =>
    ([a, b, c, d].mapM fun x => hexDigit? x.toNat).map fun ds => (ofHexDigits ds, s)
  | _ => none

/-- The character after `\u`: one code unit, or two that are a surrogate pair. -/
def readUnicode (s : List Char) : Option (Char × List Char) := do
  let first ← readUnit s
  if first.1 < 0xD800 ∨ 0xDFFF < first.1 then some (Char.ofNat first.1, first.2)
  else
    match first.2 with
    | '\\' :: 'u' :: s => do
      let second ← readUnit s
      if first.1 ≤ 0xDBFF ∧ 0xDC00 ≤ second.1 ∧ second.1 ≤ 0xDFFF then
        some (Char.ofNat (0x10000 + (first.1 - 0xD800) * 0x400 + (second.1 - 0xDC00)), second.2)
      else none
    | _ => none

/-- The character that an escape of two characters stands for. -/
def unescape (e : Char) : Option Char :=
  (('/', '/') :: shortEscapes).findSome? fun p => if p.2 = e then some p.1 else none

/-- A character of a string. -/
def readChar : List Char → Option (Char × List Char)
  | '\\' :: 'u' :: s => readUnicode s
  | '\\' :: e :: s => (unescape e).map fun c => (c, s)
  | c :: s => if c.toNat < 32 ∨ c = '\\' then none else some (c, s)
  | [] => none

/-- The characters up to the closing quote. -/
def readChars : ℕ → List Char → Option (List Char × List Char)
  | 0, _ => none
  | n + 1, s =>
    if s.head? = some '"' then some ([], s.tail)
    else do
      let first ← readChar s
      let rest ← readChars n first.2
      some (first.1 :: rest.1, rest.2)

/-- A string, after its opening quote. -/
def readString (s : List Char) : Option (String × List Char) :=
  (readChars s.length s).map fun r => (String.ofList r.1, r.2)

/-- The key of a property, and the colon. -/
def readKey (s : List Char) : Option (String × List Char) :=
  match skipSpace s with
  | '"' :: s => do
    let key ← readString s
    match skipSpace key.2 with
    | ':' :: s => some (key.1, s)
    | _ => none
  | _ => none

/-- Of properties with one key the last counts. -/
def lastWins {α : Type} : List (String × α) → List (String × α)
  | [] => []
  | f :: fs => if f.1 ∈ fs.map Prod.fst then lastWins fs else f :: lastWins fs

mutual

/-- A value at the front of a text, and the rest. -/
def readValue : ℕ → List Char → Option (Json Empty × List Char)
  | 0, _ => none
  | n + 1, s =>
    match skipSpace s with
    | 'n' :: 'u' :: 'l' :: 'l' :: s => some (.null, s)
    | 't' :: 'r' :: 'u' :: 'e' :: s => some (.bool true, s)
    | 'f' :: 'a' :: 'l' :: 's' :: 'e' :: s => some (.bool false, s)
    | '"' :: s => (readString s).map fun r => (.text r.1, r.2)
    | '[' :: s =>
      if (skipSpace s).head? = some ']' then some (.array [], (skipSpace s).tail)
      else do
        let first ← readValue n s
        let rest ← readItems n first.2
        some (.array (first.1 :: rest.1), rest.2)
    | '\x7b' :: s =>
      if (skipSpace s).head? = some '\x7d' then some (.object [], (skipSpace s).tail)
      else do
        let key ← readKey s
        let first ← readValue n key.2
        let rest ← readFields n first.2
        some (.object (lastWins ((key.1, first.1) :: rest.1)), rest.2)
    | s => (JsNum.readNumber s).map fun r => (.num r.1, r.2)

/-- The items after the first, up to the closing bracket. -/
def readItems : ℕ → List Char → Option (List (Json Empty) × List Char)
  | 0, _ => none
  | n + 1, s =>
    match skipSpace s with
    | ']' :: s => some ([], s)
    | ',' :: s => do
      let first ← readValue n s
      let rest ← readItems n first.2
      some (first.1 :: rest.1, rest.2)
    | _ => none

/-- The properties after the first, up to the closing brace. -/
def readFields : ℕ → List Char → Option (List (String × Json Empty) × List Char)
  | 0, _ => none
  | n + 1, s =>
    match skipSpace s with
    | '\x7d' :: s => some ([], s)
    | ',' :: s => do
      let key ← readKey s
      let first ← readValue n key.2
      let rest ← readFields n first.2
      some ((key.1, first.1) :: rest.1, rest.2)
    | _ => none

end

/-- `JSON.parse`; where it throws, `none`. -/
def parse (s : String) : Option (Json Empty) :=
  match readValue s.toList.length s.toList with
  | some (v, rest) => if skipSpace rest = [] then some v else none
  | none => none

/-! ## What JSON keeps of a value -/

/-- A number that is not finite becomes `null`. -/
def keptNumber : JsNum → Json β
  | .fin q => .num (.fin q)
  | _ => .null

mutual

/-- The value with its numbers as JSON keeps them. -/
def kept : Json β → Json β
  | .null => .null
  | .bool b => .bool b
  | .num x => keptNumber x
  | .text s => .text s
  | .array xs => .array (keptItems xs)
  | .object fs => .object (keptFields fs)
  | .leaf b => .leaf b

/-- The items of an array. -/
def keptItems : List (Json β) → List (Json β)
  | [] => []
  | x :: xs => kept x :: keptItems xs

/-- The properties of an object. -/
def keptFields : List (String × Json β) → List (String × Json β)
  | [] => []
  | (k, x) :: fs => (k, kept x) :: keptFields fs

end

mutual

/-- The numbers in a value. -/
def numbers : Json β → List JsNum
  | .num x => [x]
  | .array xs => numbersOfItems xs
  | .object fs => numbersOfFields fs
  | _ => []

/-- The numbers in the items of an array. -/
def numbersOfItems : List (Json β) → List JsNum
  | [] => []
  | x :: xs => numbers x ++ numbersOfItems xs

/-- The numbers in the properties of an object. -/
def numbersOfFields : List (String × Json β) → List JsNum
  | [] => []
  | (_, x) :: fs => numbers x ++ numbersOfFields fs

end

mutual

/-- The keys of each object in a value. -/
def keyLists : Json β → List (List String)
  | .array xs => keyListsOfItems xs
  | .object fs => fs.map Prod.fst :: keyListsOfFields fs
  | _ => []

/-- The keys of each object in the items of an array. -/
def keyListsOfItems : List (Json β) → List (List String)
  | [] => []
  | x :: xs => keyLists x ++ keyListsOfItems xs

/-- The keys of each object in the properties of an object. -/
def keyListsOfFields : List (String × Json β) → List (List String)
  | [] => []
  | (_, x) :: fs => keyLists x ++ keyListsOfFields fs

end

theorem map_fst_keptFields (fs : List (String × Json β)) :
    (keptFields fs).map Prod.fst = fs.map Prod.fst := by
  induction fs with
  | nil => rfl
  | cons f fs ih => rw [keptFields, List.map_cons, List.map_cons, ih]

theorem lastWins_of_nodup {α : Type} {fs : List (String × α)} (h : (fs.map Prod.fst).Nodup) :
    lastWins fs = fs := by
  induction fs with
  | nil => rfl
  | cons f fs ih =>
    obtain ⟨hnew, hrest⟩ := List.nodup_cons.mp h
    rw [lastWins, if_neg hnew, ih hrest]

/-! ## Strings are read back -/

theorem hexDigit_digitChar : ∀ d < 16, hexDigit? (Nat.digitChar d).toNat = some d := by decide

theorem mem_shortEscapes {c e : Char} (h : shortEscapes.lookup c = some e) :
    (c, e) ∈ shortEscapes := by
  obtain ⟨l, r, heq, -⟩ := List.lookup_eq_some_iff.mp h
  rw [heq]
  simp

/-- A control character is read back from its number. -/
theorem readUnicode_control {n : ℕ} (hn : n < 32) (s : List Char) :
    readUnicode ('0' :: '0' :: Nat.digitChar (n / 16) :: Nat.digitChar (n % 16) :: s) =
      some (Char.ofNat n, s) := by
  have hhigh := hexDigit_digitChar (n / 16) (by omega)
  have hlow := hexDigit_digitChar (n % 16) (by omega)
  have hunit : readUnit ('0' :: '0' :: Nat.digitChar (n / 16) :: Nat.digitChar (n % 16) :: s) =
      some (n, s) := by
    have hzero : hexDigit? '0'.toNat = some 0 := by decide
    have hvalue : ofHexDigits [0, 0, n / 16, n % 16] = n := by
      simp only [ofHexDigits, List.foldl_cons, List.foldl_nil]
      omega
    simp only [readUnit, List.mapM_cons, List.mapM_nil, hzero, hhigh, hlow, Option.pure_def,
      Option.bind_eq_bind, Option.bind_some, Option.map_some, hvalue]
  rw [readUnicode, hunit]
  exact if_pos (.inl (by omega))

/-- A written character is read back. -/
theorem readChar_quoteChar (c : Char) (s : List Char) :
    readChar (quoteChar c ++ s) = some (c, s) := by
  rw [quoteChar]
  cases hlookup : shortEscapes.lookup c with
  | some e =>
    have hmem := mem_shortEscapes hlookup
    simp only [shortEscapes, List.mem_cons, Prod.mk.injEq, List.not_mem_nil, or_false] at hmem
    rcases hmem with h | h | h | h | h | h | h <;>
    · obtain ⟨rfl, rfl⟩ := h
      rfl
  | none =>
    have hslash : c ≠ '\\' := by
      rintro rfl
      cases hlookup
    dsimp only
    split
    · rename_i hlt
      refine (readUnicode_control hlt s).trans ?_
      rw [Char.ofNat_toNat]
    · rename_i hge
      rw [List.singleton_append, readChar.eq_def]
      split
      · rename_i heq
        exact absurd (List.cons.inj heq).1 hslash
      · rename_i heq
        exact absurd (List.cons.inj heq).1 hslash
      · rename_i heq
        obtain ⟨rfl, rfl⟩ := List.cons.inj heq
        exact if_neg (not_or.mpr ⟨hge, hslash⟩)
      · rename_i heq
        cases heq

/-- A written character does not begin with the closing quote. -/
theorem head_quoteChar (c : Char) (s : List Char) : (quoteChar c ++ s).head? ≠ some '"' := by
  rw [quoteChar]
  cases hlookup : shortEscapes.lookup c with
  | some e => simp
  | none =>
    have hquote : c ≠ '"' := by
      rintro rfl
      cases hlookup
    dsimp only
    split
    · simp
    · simpa using hquote

theorem length_le_flatMap_quoteChar (cs : List Char) :
    cs.length ≤ (cs.flatMap quoteChar).length := by
  induction cs with
  | nil => exact le_rfl
  | cons c cs ih =>
    have hpos : 0 < (quoteChar c).length := by
      refine List.length_pos_iff.mpr fun hnil => ?_
      have hread := readChar_quoteChar c []
      rw [hnil] at hread
      cases hread
    rw [List.flatMap_cons, List.length_append, List.length_cons]
    omega

theorem readChars_quote {cs : List Char} {n : ℕ} (hn : cs.length < n) (s : List Char) :
    readChars n (cs.flatMap quoteChar ++ '"' :: s) = some (cs, s) := by
  induction cs generalizing n with
  | nil =>
    cases n with
    | zero => cases hn
    | succ n => rfl
  | cons c cs ih =>
    cases n with
    | zero => cases hn
    | succ n =>
      have hrest := ih (Nat.lt_of_succ_lt_succ hn)
      rw [List.flatMap_cons, List.append_assoc, readChars, if_neg (head_quoteChar c _),
        readChar_quoteChar]
      simp [hrest]

/-- **A string is read back, whatever its characters.** -/
theorem readString_quote (k : String) (s : List Char) :
    readString (k.toList.flatMap quoteChar ++ '"' :: s) = some (k, s) := by
  have hle := length_le_flatMap_quoteChar k.toList
  rw [readString, readChars_quote (by rw [List.length_append, List.length_cons]; omega),
    Option.map_some, String.ofList_toList]

theorem readKey_quote (k : String) (s : List Char) :
    readKey (quote k.toList ++ ':' :: s) = some (k, s) := by
  have hstring := readString_quote k (':' :: s)
  have htext : quote k.toList ++ ':' :: s =
      '"' :: (k.toList.flatMap quoteChar ++ '"' :: ':' :: s) := by
    simp [quote]
  rw [htext, readKey]
  change (readString _).bind _ = _
  rw [hstring]
  rfl

/-! ## Values are read back -/

theorem skipSpace_cons {c : Char} (hc : isSpace c = false) (s : List Char) :
    skipSpace (c :: s) = c :: s := by
  rw [skipSpace, List.dropWhile_cons_of_neg (by rw [hc]; exact Bool.false_ne_true)]

/-- What begins a number. -/
def StartsNumber (c : Char) : Prop := c = '-' ∨ c.isDigit = true

variable {s : List Char}

theorem startsNumber_of_readNumber {r : JsNum × List Char} (h : JsNum.readNumber s = some r) :
    ∃ c t, s = c :: t ∧ StartsNumber c := by
  have hunsigned : ∀ {t : List Char} {r : ℚ × List Char}, JsNum.readUnsigned t = some r →
      ∃ c u, t = c :: u ∧ c.isDigit = true := by
    intro t r hread
    rw [JsNum.readUnsigned] at hread
    split at hread
    · cases hread
    rename_i hwhole
    have hne : t.takeWhile Char.isDigit ≠ [] := fun h => hwhole (.inl h)
    cases t with
    | nil => exact absurd rfl hne
    | cons c u =>
      refine ⟨c, u, rfl, ?_⟩
      by_contra hc
      exact hne (List.takeWhile_cons_of_neg hc)
  rw [JsNum.readNumber.eq_def] at h
  split at h
  · exact ⟨'-', _, rfl, .inl rfl⟩
  · obtain ⟨v, hv, -⟩ := Option.map_eq_some_iff.mp h
    obtain ⟨c, u, hs, hc⟩ := hunsigned hv
    exact ⟨c, u, hs, .inr hc⟩

/-- The first characters of the other values do not begin a number. -/
theorem StartsNumber.apart {c : Char} (h : StartsNumber c) :
    isSpace c = false ∧ c ≠ ']' ∧ c ≠ 'n' ∧ c ≠ 't' ∧ c ≠ 'f' ∧ c ≠ '"' ∧ c ≠ '[' ∧
      c ≠ '\x7b' := by
  have hne : ∀ d : Char, ¬ StartsNumber d → c ≠ d := fun d hd heq => hd (heq ▸ h)
  have hspace : isSpace c = false := by
    by_contra hc
    simp only [isSpace, Bool.not_eq_false, Bool.or_eq_true, decide_eq_true_eq] at hc
    rcases hc with ((rfl | rfl) | rfl) | rfl <;> exact absurd h (by simp [StartsNumber])
  exact ⟨hspace, hne _ (by simp [StartsNumber]), hne _ (by simp [StartsNumber]),
    hne _ (by simp [StartsNumber]), hne _ (by simp [StartsNumber]),
    hne _ (by simp [StartsNumber]), hne _ (by simp [StartsNumber]),
    hne _ (by simp [StartsNumber])⟩

theorem readValue_number {n : ℕ} {r : JsNum × List Char} (h : JsNum.readNumber s = some r) :
    readValue (n + 1) s = some (.num r.1, r.2) := by
  obtain ⟨c, t, rfl, hc⟩ := startsNumber_of_readNumber h
  obtain ⟨hspace, -, hn, ht, hf, hquote, hbracket, hbrace⟩ := hc.apart
  rw [readValue, skipSpace_cons hspace]
  split
  all_goals rename_i heq
  · exact absurd (List.cons.inj heq).1 hn
  · exact absurd (List.cons.inj heq).1 ht
  · exact absurd (List.cons.inj heq).1 hf
  · exact absurd (List.cons.inj heq).1 hquote
  · exact absurd (List.cons.inj heq).1 hbracket
  · exact absurd (List.cons.inj heq).1 hbrace
  · rw [h]
    rfl

theorem readValue_array {n : ℕ} (h : (skipSpace s).head? ≠ some ']') :
    readValue (n + 1) ('[' :: s) = (readValue n s).bind fun first =>
      (readItems n first.2).bind fun rest => some (.array (first.1 :: rest.1), rest.2) := by
  rw [readValue, skipSpace_cons rfl]
  exact if_neg h

theorem readValue_object {n : ℕ} (h : (skipSpace s).head? ≠ some '\x7d') :
    readValue (n + 1) ('\x7b' :: s) = (readKey s).bind fun key =>
      (readValue n key.2).bind fun first => (readFields n first.2).bind fun rest =>
        some (.object (lastWins ((key.1, first.1) :: rest.1)), rest.2) := by
  rw [readValue, skipSpace_cons rfl]
  exact if_neg h

/-- A written number is read back, and a `null` in place of one that is not finite. -/
theorem readValue_writeNumber {x : JsNum} (hx : x.IsDouble) (hs : JsNum.Ends s) (n : ℕ) :
    readValue (n + 1) (writeNumber x ++ s) = some (keptNumber x, s) := by
  cases x with
  | fin q => exact readValue_number (JsNum.readNumber_text hx hs)
  | nan => rfl
  | posInf => rfl
  | negInf => rfl

/-- A written value begins with a token that does not close an array. -/
theorem write_head {v : Json Empty} (hv : ∀ x ∈ v.numbers, x.IsDouble) :
    ∃ c t, write v = c :: t ∧ isSpace c = false ∧ c ≠ ']' := by
  cases v with
  | null => exact ⟨_, _, rfl, rfl, by decide⟩
  | bool b => cases b <;> exact ⟨_, _, rfl, rfl, by decide⟩
  | num x =>
    have hx := hv x List.mem_cons_self
    cases x with
    | fin q =>
      have hread := JsNum.readNumber_text hx (s := []) fun c hc => absurd hc (by simp)
      rw [List.append_nil] at hread
      obtain ⟨c, t, htext, hc⟩ := startsNumber_of_readNumber hread
      exact ⟨c, t, htext, hc.apart.1, hc.apart.2.1⟩
    | nan => exact ⟨_, _, rfl, rfl, by decide⟩
    | posInf => exact ⟨_, _, rfl, rfl, by decide⟩
    | negInf => exact ⟨_, _, rfl, rfl, by decide⟩
  | text s => exact ⟨_, _, rfl, rfl, by decide⟩
  | array xs => cases xs <;> exact ⟨_, _, rfl, rfl, by decide⟩
  | object fs => rcases fs with _ | ⟨⟨k, x⟩, fs⟩ <;> exact ⟨_, _, rfl, rfl, by decide⟩
  | leaf b => exact b.elim

theorem ends_of_head {c : Char} (hc : c.isDigit = false ∧ c ≠ '.' ∧ c ≠ 'e' ∧ c ≠ 'E') :
    JsNum.Ends (c :: s) := by
  intro d hd
  obtain rfl : c = d := Option.some.inj hd
  exact hc

/-- Nothing that follows an item becomes a part of it. -/
theorem ends_writeItems (xs : List (Json Empty)) (s : List Char) :
    JsNum.Ends (writeItems xs ++ s) := by
  cases xs <;> exact ends_of_head (by decide)

theorem ends_writeFields (fs : List (String × Json Empty)) (s : List Char) :
    JsNum.Ends (writeFields fs ++ s) := by
  rcases fs with _ | ⟨⟨k, x⟩, fs⟩ <;> exact ends_of_head (by decide)

mutual

/-- **A written value is read back, whatever follows it.** -/
theorem readValue_write : ∀ (v : Json Empty) (n : ℕ) (s : List Char), (write v).length ≤ n →
    (∀ x ∈ v.numbers, x.IsDouble) → (∀ ks ∈ v.keyLists, ks.Nodup) → JsNum.Ends s →
      readValue n (write v ++ s) = some (v.kept, s)
  | .null, n + 1, s, _, _, _, _ => rfl
  | .bool true, n + 1, s, _, _, _, _ => rfl
  | .bool false, n + 1, s, _, _, _, _ => rfl
  | .num x, 0, s, hn, hx, _, _ => by
    obtain ⟨c, t, htext, -⟩ := write_head hx
    rw [htext] at hn
    cases hn
  | .num x, n + 1, s, _, hx, _, hs => readValue_writeNumber (hx x List.mem_cons_self) hs n
  | .text k, n + 1, s, _, _, _, _ => by
    have htext : write (.text k) ++ s = '"' :: (k.toList.flatMap quoteChar ++ '"' :: s) := by
      simp [write, quote]
    rw [htext]
    change (readString _).map _ = _
    rw [readString_quote]
    rfl
  | .array [], n + 1, s, _, _, _, _ => rfl
  | .array (x :: xs), n + 1, s, hn, hx, hk, _ => by
    rw [numbers, numbersOfItems, List.forall_mem_append] at hx
    rw [keyLists, keyListsOfItems, List.forall_mem_append] at hk
    rw [write, List.length_cons, List.length_append] at hn
    have hfirst := readValue_write x n (writeItems xs ++ s) (by omega) hx.1 hk.1
      (ends_writeItems xs s)
    have hrest := readItems_write xs n s (by omega) hx.2 hk.2
    -- the first item does not look like the end of an empty array
    have hopen : (skipSpace (write x ++ (writeItems xs ++ s))).head? ≠ some ']' := by
      obtain ⟨c, t, hhead, hspace, hclose⟩ := write_head hx.1
      rw [hhead, List.cons_append, skipSpace_cons hspace, List.head?_cons]
      exact fun h => hclose (Option.some.inj h)
    rw [write, List.cons_append, List.append_assoc, readValue_array hopen, hfirst,
      Option.bind_some, hrest]
    rfl
  | .object [], n + 1, s, _, _, _, _ => rfl
  | .object ((k, x) :: fs), n + 1, s, hn, hx, hk, _ => by
    rw [numbers, numbersOfFields, List.forall_mem_append] at hx
    rw [keyLists, keyListsOfFields, List.forall_mem_cons, List.forall_mem_append] at hk
    rw [write, List.length_cons, List.length_append, List.length_cons, List.length_append] at hn
    have hfirst := readValue_write x n (writeFields fs ++ s) (by omega) hx.1 hk.2.1
      (ends_writeFields fs s)
    have hrest := readFields_write fs n s (by omega) hx.2 hk.2.2
    have hopen : (skipSpace (quote k.toList ++ ':' :: (write x ++ (writeFields fs ++ s)))).head? ≠
        some '\x7d' := by
      rw [quote, List.cons_append, skipSpace_cons rfl, List.head?_cons]
      decide
    have hlast : lastWins ((k, kept x) :: keptFields fs) = (k, kept x) :: keptFields fs := by
      apply lastWins_of_nodup
      rw [List.map_cons, map_fst_keptFields]
      exact hk.1
    rw [write, List.cons_append, List.append_assoc, List.cons_append, List.append_assoc,
      readValue_object hopen, readKey_quote, Option.bind_some, hfirst, Option.bind_some, hrest,
      Option.bind_some, hlast]
    rfl
  | .leaf b, _, _, _, _, _, _ => b.elim

/-- The items after the first are read back. -/
theorem readItems_write : ∀ (xs : List (Json Empty)) (n : ℕ) (s : List Char),
    (writeItems xs).length ≤ n → (∀ x ∈ numbersOfItems xs, x.IsDouble) →
      (∀ ks ∈ keyListsOfItems xs, ks.Nodup) →
        readItems n (writeItems xs ++ s) = some (keptItems xs, s)
  | [], n + 1, s, _, _, _ => rfl
  | x :: xs, n + 1, s, hn, hx, hk => by
    rw [numbersOfItems, List.forall_mem_append] at hx
    rw [keyListsOfItems, List.forall_mem_append] at hk
    rw [writeItems, List.length_cons, List.length_append] at hn
    have hfirst := readValue_write x n (writeItems xs ++ s) (by omega) hx.1 hk.1
      (ends_writeItems xs s)
    have hrest := readItems_write xs n s (by omega) hx.2 hk.2
    rw [writeItems, List.cons_append, List.append_assoc]
    change (readValue n _).bind (fun first => (readItems n first.2).bind _) = _
    rw [hfirst, Option.bind_some, hrest]
    rfl

/-- The properties after the first are read back. -/
theorem readFields_write : ∀ (fs : List (String × Json Empty)) (n : ℕ) (s : List Char),
    (writeFields fs).length ≤ n → (∀ x ∈ numbersOfFields fs, x.IsDouble) →
      (∀ ks ∈ keyListsOfFields fs, ks.Nodup) →
        readFields n (writeFields fs ++ s) = some (keptFields fs, s)
  | [], n + 1, s, _, _, _ => rfl
  | (k, x) :: fs, n + 1, s, hn, hx, hk => by
    rw [numbersOfFields, List.forall_mem_append] at hx
    rw [keyListsOfFields, List.forall_mem_append] at hk
    rw [writeFields, List.length_cons, List.length_append, List.length_cons,
      List.length_append] at hn
    have hfirst := readValue_write x n (writeFields fs ++ s) (by omega) hx.1 hk.1
      (ends_writeFields fs s)
    have hrest := readFields_write fs n s (by omega) hx.2 hk.2
    rw [writeFields, List.cons_append, List.append_assoc, List.cons_append, List.append_assoc]
    change (readKey _).bind (fun key => (readValue n key.2).bind fun first =>
      (readFields n first.2).bind _) = _
    rw [readKey_quote, Option.bind_some, hfirst, Option.bind_some, hrest]
    rfl

end

/-- **`JSON.parse(JSON.stringify(v))`** is `v`, with `null` for the numbers that are not finite. -/
theorem parse_stringify {v : Json Empty} (hx : ∀ x ∈ v.numbers, x.IsDouble)
    (hk : ∀ ks ∈ v.keyLists, ks.Nodup) : parse (stringify v) = some v.kept := by
  have hread := readValue_write v (write v).length [] le_rfl hx hk fun c hc => absurd hc (by simp)
  rw [List.append_nil] at hread
  rw [parse, stringify, String.toList_ofList, hread]
  rfl

/-! ## Tagged leaves

A leaf travels as an object with one property, its text under a key that nothing else uses. -/

section Tagged

variable (tag : String) (enc : β → String)

mutual

/-- The value with its leaves as tagged objects. -/
def encode : Json β → Json Empty
  | .null => .null
  | .bool b => .bool b
  | .num x => .num x
  | .text s => .text s
  | .array xs => .array (encodeItems xs)
  | .object fs => .object (encodeFields fs)
  | .leaf b => .object [(tag, .text (enc b))]

/-- The items of an array. -/
def encodeItems : List (Json β) → List (Json Empty)
  | [] => []
  | x :: xs => encode x :: encodeItems xs

/-- The properties of an object. -/
def encodeFields : List (String × Json β) → List (String × Json Empty)
  | [] => []
  | (k, x) :: fs => (k, encode x) :: encodeFields fs

end

variable {ε : Type} (dec : String → Except ε β)

/-- An object with its properties decoded: a leaf, if a text stands under the tag. -/
def untag (gs : List (String × Json β)) : Except ε (Json β) :=
  match gs.lookup tag with
  | some (.text s) => do
    let b ← dec s
    .ok (.leaf b)
  | _ => .ok (.object gs)

mutual

/-- The value with its tagged objects as leaves, from the inside out. -/
def decode : Json Empty → Except ε (Json β)
  | .null => .ok .null
  | .bool b => .ok (.bool b)
  | .num x => .ok (.num x)
  | .text s => .ok (.text s)
  | .array xs => do
    let ys ← decodeItems xs
    .ok (.array ys)
  | .object fs => do
    let gs ← decodeFields fs
    untag tag dec gs
  | .leaf b => b.elim

/-- The items of an array. -/
def decodeItems : List (Json Empty) → Except ε (List (Json β))
  | [] => .ok []
  | x :: xs => do
    let y ← decode x
    let ys ← decodeItems xs
    .ok (y :: ys)

/-- The properties of an object. -/
def decodeFields : List (String × Json Empty) → Except ε (List (String × Json β))
  | [] => .ok []
  | (k, x) :: fs => do
    let y ← decode x
    let gs ← decodeFields fs
    .ok ((k, y) :: gs)

end

variable {tag enc dec}

theorem untag_of_notMem {gs : List (String × Json β)} (h : tag ∉ gs.map Prod.fst) :
    untag tag dec gs = .ok (.object gs) := by
  have hnone : gs.lookup tag = none := by
    rw [List.lookup_eq_none_iff]
    exact fun g hg => bne_iff_ne.mpr fun heq => h (heq ▸ List.mem_map_of_mem hg)
  rw [untag, hnone]

theorem untag_tagged {b : β} (hdec : dec (enc b) = .ok b) :
    untag tag dec [(tag, .text (enc b))] = .ok (.leaf b) := by
  rw [untag, List.lookup_cons_self]
  exact Except.bind_ok hdec rfl

theorem map_fst_encodeFields (fs : List (String × Json β)) :
    (encodeFields tag enc fs).map Prod.fst = fs.map Prod.fst := by
  induction fs with
  | nil => rfl
  | cons f fs ih => rw [encodeFields, List.map_cons, List.map_cons, ih]

mutual

/-- Tagged objects hold no numbers. -/
theorem numbers_encode : ∀ v : Json β, (encode tag enc v).numbers = v.numbers
  | .null | .bool _ | .num _ | .text _ | .leaf _ => rfl
  | .array xs => numbersOfItems_encode xs
  | .object fs => numbersOfFields_encode fs

theorem numbersOfItems_encode : ∀ xs : List (Json β),
    numbersOfItems (encodeItems tag enc xs) = numbersOfItems xs
  | [] => rfl
  | x :: xs => by
    rw [encodeItems, numbersOfItems, numbersOfItems, numbers_encode x, numbersOfItems_encode xs]

theorem numbersOfFields_encode : ∀ fs : List (String × Json β),
    numbersOfFields (encodeFields tag enc fs) = numbersOfFields fs
  | [] => rfl
  | (_, x) :: fs => by
    rw [encodeFields, numbersOfFields, numbersOfFields, numbers_encode x,
      numbersOfFields_encode fs]

end

mutual

/-- Tagged objects have one key. -/
theorem keyLists_encode : ∀ v : Json β,
    ∀ ks ∈ (encode tag enc v).keyLists, ks ∈ v.keyLists ∨ ks = [tag]
  | .null | .bool _ | .num _ | .text _ => fun _ h => absurd h List.not_mem_nil
  | .leaf _ => fun _ h => .inr (List.mem_singleton.mp h)
  | .array xs => keyListsOfItems_encode xs
  | .object fs => by
    intro ks h
    rw [encode, keyLists, map_fst_encodeFields] at h
    rcases List.mem_cons.mp h with rfl | h
    · exact .inl List.mem_cons_self
    · exact (keyListsOfFields_encode fs ks h).imp_left (List.mem_cons_of_mem _)

theorem keyListsOfItems_encode : ∀ xs : List (Json β),
    ∀ ks ∈ keyListsOfItems (encodeItems tag enc xs), ks ∈ keyListsOfItems xs ∨ ks = [tag]
  | [] => fun _ h => absurd h List.not_mem_nil
  | x :: xs => by
    intro ks h
    rcases List.mem_append.mp h with h | h
    · exact (keyLists_encode x ks h).imp_left (List.mem_append_left _)
    · exact (keyListsOfItems_encode xs ks h).imp_left (List.mem_append_right _)

theorem keyListsOfFields_encode : ∀ fs : List (String × Json β),
    ∀ ks ∈ keyListsOfFields (encodeFields tag enc fs), ks ∈ keyListsOfFields fs ∨ ks = [tag]
  | [] => fun _ h => absurd h List.not_mem_nil
  | (_, x) :: fs => by
    intro ks h
    rcases List.mem_append.mp h with h | h
    · exact (keyLists_encode x ks h).imp_left (List.mem_append_left _)
    · exact (keyListsOfFields_encode fs ks h).imp_left (List.mem_append_right _)

end

mutual

/-- Leaves come back from what JSON keeps of the tagged value. -/
theorem decode_kept_encode (hdec : ∀ b, dec (enc b) = .ok b) : ∀ v : Json β,
    (∀ ks ∈ v.keyLists, tag ∉ ks) → decode tag dec (encode tag enc v).kept = .ok v.kept
  | .null, _ | .bool _, _ | .text _, _ => rfl
  | .num x, _ => by cases x <;> rfl
  | .leaf b, _ => by
    rw [encode, kept, decode]
    exact untag_tagged (hdec b)
  | .array xs, hk => by
    rw [encode, kept, decode]
    exact Except.bind_ok (decodeItems_kept_encode hdec xs hk) rfl
  | .object fs, hk => by
    rw [keyLists, List.forall_mem_cons] at hk
    have htag : tag ∉ (keptFields fs).map Prod.fst := by
      rw [map_fst_keptFields]
      exact hk.1
    rw [encode, kept, decode]
    exact Except.bind_ok (decodeFields_kept_encode hdec fs hk.2) (untag_of_notMem htag)

theorem decodeItems_kept_encode (hdec : ∀ b, dec (enc b) = .ok b) : ∀ xs : List (Json β),
    (∀ ks ∈ keyListsOfItems xs, tag ∉ ks) →
      decodeItems tag dec (keptItems (encodeItems tag enc xs)) = .ok (keptItems xs)
  | [], _ => rfl
  | x :: xs, hk => by
    rw [keyListsOfItems, List.forall_mem_append] at hk
    rw [encodeItems, keptItems, decodeItems]
    exact Except.bind_ok (decode_kept_encode hdec x hk.1)
      (Except.bind_ok (decodeItems_kept_encode hdec xs hk.2) rfl)

theorem decodeFields_kept_encode (hdec : ∀ b, dec (enc b) = .ok b) :
    ∀ fs : List (String × Json β), (∀ ks ∈ keyListsOfFields fs, tag ∉ ks) →
      decodeFields tag dec (keptFields (encodeFields tag enc fs)) = .ok (keptFields fs)
  | [], _ => rfl
  | (k, x) :: fs, hk => by
    rw [keyListsOfFields, List.forall_mem_append] at hk
    rw [encodeFields, keptFields, decodeFields]
    exact Except.bind_ok (decode_kept_encode hdec x hk.1)
      (Except.bind_ok (decodeFields_kept_encode hdec fs hk.2) rfl)

end

/-- **A value with leaves comes back through JSON**, up to numbers that are not finite. -/
theorem decode_parse_stringify (hdec : ∀ b, dec (enc b) = .ok b) {v : Json β}
    (hx : ∀ x ∈ v.numbers, x.IsDouble) (hk : ∀ ks ∈ v.keyLists, ks.Nodup ∧ tag ∉ ks) :
    ∃ w, parse (stringify (encode tag enc v)) = some w ∧ decode tag dec w = .ok v.kept := by
  refine ⟨_, parse_stringify ?_ fun ks hks => ?_, decode_kept_encode hdec v fun ks h => (hk ks h).2⟩
  · rw [numbers_encode]
    exact hx
  · rcases keyLists_encode v ks hks with h | rfl
    · exact (hk ks h).1
    · simp

end Tagged

end Json

end Nerion
