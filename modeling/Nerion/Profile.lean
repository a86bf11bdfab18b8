import Nerion.Basic
import Nerion.JsDouble
import Nerion.JsString
import Nerion.Radix

/-!
# Identifiers of agents (`capabilities/src/profile.ts`)

A `did:key` identifier is the base58btc text of a multicodec number, as a varint, and a public
key. Both conversions of base58btc keep their digits in an array that starts as a single zero, and
count the zeros at the front of the input apart from it. So a byte string with nothing but zeros
gets one digit too many, on the way out and on the way back.

* `encode_zeros`, `decode_encode` — byte strings without a nonzero byte, and with one;
* `base58btc_roundtrip_iff` — exactly the latter come back;
* `base58btcEncode_injective` — the texts differ all the same;
* `varintFrom_append_inj` — a varint ends where it says;
* `didKey_injective` — so an identifier has one code and one key.
-/

namespace Nerion

/-! ## base58btc -/

/-- `B58`. -/
def b58 : List Char := "123456789ABCDEFGHJKLMNPQRSTUVWXYZabcdefghijkmnopqrstuvwxyz".toList

/-- The characters of some digits, `B58.charAt` of each. -/
def base58Chars (digits : List ℕ) : List Char := digits.flatMap fun d => b58[d]?.toList

/-- `base58btcEncode`. The digits stay below 58 and the carry below 256, so that the 32-bit
operators of the loop are those of the natural numbers. -/
def base58btcEncode (bytes : Bytes) : String :=
  let zeros := (bytes.takeWhile (· == 0)).length
  let digits := Radix.convert 58 256 ((bytes.dropWhile (· == 0)).map UInt8.toNat)
  String.ofList (List.replicate zeros '1' ++ base58Chars digits.reverse)

/-- A code unit in a message; a surrogate is shown as the replacement character. -/
def unitText (u : ℕ) : String :=
  String.singleton (if 0xD800 ≤ u ∧ u ≤ 0xDFFF then Char.ofNat 0xFFFD else Char.ofNat u)

/-- `B58.indexOf(c)`, and the throw if it is not there. -/
def base58Digit (u : ℕ) : Except JsError ℕ :=
  match (b58.map Char.toNat).idxOf? u with
  | some d => .ok d
  | none => .error (error ("invalid base58 character: " ++ unitText u))

def base58btcDecode (s : String) : Except JsError Bytes := do
  let zeros := ((codeUnits s).takeWhile (· == '1'.toNat)).length
  let values ← ((codeUnits s).dropWhile (· == '1'.toNat)).mapM base58Digit
  .ok (List.replicate zeros 0 ++ (Radix.convert 256 58 values).reverse.map UInt8.ofNat)

/-- The characters: each is one code unit and stands for its digit, and only zero is `1`. -/
theorem b58_digit : ∀ d < 58, ∃ c, b58[d]? = some c ∧ c.toNat < 0x10000 ∧
    (b58.map Char.toNat).idxOf? c.toNat = some d ∧ (c = '1' ↔ d = 0) := by
  have hall : ∀ d < 58, (b58[d]?.any fun c => decide (c.toNat < 0x10000 ∧
      (b58.map Char.toNat).idxOf? c.toNat = some d ∧ (c = '1' ↔ d = 0))) = true := by
    decide +kernel
  intro d hd
  have hdigit := hall d hd
  rcases hc : b58[d]? with _ | c
  · rw [hc] at hdigit
    cases hdigit
  · rw [hc] at hdigit
    exact ⟨c, rfl, of_decide_eq_true hdigit⟩

/-- The characters of digits, read back. -/
theorem base58Chars_read {ds : List ℕ} (h : ∀ d ∈ ds, d < 58) :
    (base58Chars ds).flatMap utf16Units = (base58Chars ds).map Char.toNat ∧
      ((base58Chars ds).map Char.toNat).mapM base58Digit = .ok ds := by
  induction ds with
  | nil => exact ⟨rfl, rfl⟩
  | cons d ds ih =>
    obtain ⟨c, hc, hsmall, hdigit, -⟩ := b58_digit d (h d List.mem_cons_self)
    obtain ⟨hunits, hread⟩ := ih fun d' hd' => h d' (List.mem_cons_of_mem _ hd')
    have hcons : base58Chars (d :: ds) = c :: base58Chars ds := by
      rw [base58Chars, List.flatMap_cons, hc]
      rfl
    rw [hcons, List.flatMap_cons, List.map_cons, hunits, utf16Units, if_pos hsmall, List.mapM_cons,
      hread, base58Digit, hdigit]
    exact ⟨rfl, rfl⟩

/-- The first character is `1` only for a leading zero. -/
theorem base58Chars_head {ds : List ℕ} (h : ∀ d ∈ ds, d < 58) (hhead : ∀ d ∈ ds.head?, d ≠ 0) :
    ∀ c ∈ (base58Chars ds).head?, c ≠ '1' := by
  cases ds with
  | nil => exact fun c hc => absurd hc (Option.not_mem_none c)
  | cons d ds =>
    obtain ⟨c, hc, -, -, hone⟩ := b58_digit d (h d List.mem_cons_self)
    intro c' hc'
    rw [base58Chars, List.flatMap_cons, hc] at hc'
    obtain rfl := Option.some.inj hc'
    exact mt hone.mp (hhead d rfl)

/-! ## The round trip -/

/-- The copies of a value at the front of a list, and the rest. -/
theorem span_replicate {α : Type} [BEq α] [LawfulBEq α] (n : ℕ) (a : α) {l : List α}
    (h : ∀ x ∈ l.head?, x ≠ a) :
    (List.replicate n a ++ l).takeWhile (· == a) = List.replicate n a ∧
      (List.replicate n a ++ l).dropWhile (· == a) = l := by
  have hpos : ∀ x ∈ List.replicate n a, (x == a) = true := fun x hx =>
    beq_iff_eq.mpr (List.eq_of_mem_replicate hx)
  rw [List.takeWhile_append_of_pos hpos, List.dropWhile_append_of_pos hpos]
  cases l with
  | nil => exact ⟨List.append_nil _, rfl⟩
  | cons x l =>
    have hx : (x == a) = false := beq_eq_false_iff_ne.mpr (h x rfl)
    rw [List.takeWhile_cons, List.dropWhile_cons, hx, if_neg Bool.false_ne_true,
      if_neg Bool.false_ne_true, List.append_nil]
    exact ⟨rfl, rfl⟩

/-- A byte string is some zeros and a rest that does not start with one. -/
theorem exists_zeros (bytes : Bytes) : ∃ n rest, bytes = List.replicate n 0 ++ rest ∧
    ∀ b ∈ rest.head?, b ≠ 0 := by
  induction bytes with
  | nil => exact ⟨0, [], rfl, fun b hb => absurd hb (Option.not_mem_none b)⟩
  | cons b bytes ih =>
    by_cases hb : b = 0
    · obtain ⟨n, rest, rfl, hrest⟩ := ih
      exact ⟨n + 1, rest, by rw [hb]; rfl, hrest⟩
    · refine ⟨0, b :: bytes, rfl, fun b' hb' => ?_⟩
      obtain rfl := Option.some.inj hb'
      exact hb

section Rest

variable {n : ℕ} {rest : Bytes} (hrest : ∀ b ∈ rest.head?, b ≠ 0)

/-- The number of the bytes after the zeros. -/
def restValue (rest : Bytes) : ℕ := Radix.ofBig 256 (rest.map UInt8.toNat)

include hrest

/-- The digits of `restValue` are the bytes. -/
theorem digits_restValue : Nat.digits 256 (restValue rest) = (rest.map UInt8.toNat).reverse := by
  refine Radix.digits_ofBig (by decide) (fun x hx => ?_) fun x hx => ?_
  · obtain ⟨b, -, rfl⟩ := List.mem_map.mp hx
    exact b.toNat_lt
  · rw [List.head?_map] at hx
    obtain ⟨b, hb, rfl⟩ := Option.map_eq_some_iff.mp hx
    exact fun h0 => hrest b hb (UInt8.toNat_inj.mp h0)

theorem restValue_eq_zero : restValue rest = 0 ↔ rest = [] := by
  refine ⟨fun h0 => ?_, fun h => by rw [h]; rfl⟩
  have hdigits := digits_restValue hrest
  rwa [h0, Nat.digits_zero, eq_comm, List.reverse_eq_nil_iff, List.map_eq_nil_iff] at hdigits

/-- What is written. -/
theorem encode_append : base58btcEncode (List.replicate n 0 ++ rest) =
    String.ofList (List.replicate n '1' ++
      base58Chars (Radix.shown 58 (restValue rest)).reverse) := by
  obtain ⟨htake, hdrop⟩ := span_replicate n 0 hrest
  rw [base58btcEncode, htake, hdrop, List.length_replicate,
    Radix.convert_eq (by decide) (by decide)]
  rfl

end Rest

/-- **Without a nonzero byte** the text is all ones, one more than there are bytes. -/
theorem encode_zeros (n : ℕ) :
    base58btcEncode (List.replicate n 0) = String.ofList (List.replicate (n + 1) '1') := by
  have hnil : ∀ b ∈ ([] : Bytes).head?, b ≠ 0 := fun b hb => absurd hb (Option.not_mem_none b)
  have hencode := encode_append (n := n) hnil
  rw [List.append_nil] at hencode
  rw [hencode, List.replicate_succ']
  rfl

/-- The digits of a number above zero, as they are written. -/
theorem digits_written {v : ℕ} (hv : v ≠ 0) : (∀ d ∈ (Nat.digits 58 v).reverse, d < 58) ∧
    ∀ d ∈ (Nat.digits 58 v).reverse.head?, d ≠ 0 := by
  refine ⟨fun d hd => Nat.digits_lt_base (by decide) (List.mem_reverse.mp hd), fun d hd => ?_⟩
  rw [List.head?_reverse,
    List.getLast?_eq_some_getLast (Nat.digits_ne_nil_iff_ne_zero.mpr hv)] at hd
  obtain rfl := Option.some.inj hd
  exact Nat.getLast_digit_ne_zero 58 hv

/-- What is read: some ones, and digits that do not start with a zero. -/
theorem decode_append (n : ℕ) {ds : List ℕ} (hlt : ∀ d ∈ ds, d < 58)
    (hhead : ∀ d ∈ ds.head?, d ≠ 0) :
    base58btcDecode (String.ofList (List.replicate n '1' ++ base58Chars ds)) =
      .ok (List.replicate n 0 ++
        (Radix.shown 256 (Radix.ofBig 58 ds)).reverse.map UInt8.ofNat) := by
  obtain ⟨hunits, hread⟩ := base58Chars_read hlt
  have hcode : codeUnits (String.ofList (List.replicate n '1' ++ base58Chars ds)) =
      List.replicate n '1'.toNat ++ (base58Chars ds).map Char.toNat := by
    rw [codeUnits, String.toList_ofList, List.flatMap_append, hunits]
    congr 1
    induction n with
    | zero => rfl
    | succ n ih => exact congrArg ('1'.toNat :: ·) ih
  -- the digits do not start with a one, so the ones are those that were put in front
  have hstop : ∀ u ∈ ((base58Chars ds).map Char.toNat).head?, u ≠ '1'.toNat := by
    intro u hu
    rw [List.head?_map] at hu
    obtain ⟨c, hc, rfl⟩ := Option.map_eq_some_iff.mp hu
    exact fun heq => base58Chars_head hlt hhead c hc (Char.toNat_inj.mp heq)
  obtain ⟨htake, hdrop⟩ := span_replicate n '1'.toNat hstop
  rw [base58btcDecode, hcode, htake, hdrop, List.length_replicate]
  refine Except.bind_ok hread ?_
  rw [Radix.convert_eq (by decide) (by decide)]

/-- **With a nonzero byte** the text is read back. -/
theorem decode_encode {n : ℕ} {rest : Bytes} (hrest : ∀ b ∈ rest.head?, b ≠ 0)
    (hne : rest ≠ []) : base58btcDecode (base58btcEncode (List.replicate n 0 ++ rest)) =
      .ok (List.replicate n 0 ++ rest) := by
  have hv : restValue rest ≠ 0 := mt (restValue_eq_zero hrest).mp hne
  have hbytes : (rest.map UInt8.toNat).map UInt8.ofNat = rest := by
    rw [List.map_map]
    refine (List.map_congr_left fun b _ => ?_).trans (List.map_id rest)
    exact UInt8.ofNat_toNat
  obtain ⟨hlt, hhead⟩ := digits_written hv
  rw [encode_append hrest, Radix.shown, if_neg hv, decode_append n hlt hhead, Radix.ofBig_digits,
    Radix.shown, if_neg hv, digits_restValue hrest, List.reverse_reverse, hbytes]

/-- Ones only: all of them are counted, and the array of the decoder has one digit more. -/
theorem decode_ones (n : ℕ) : base58btcDecode (String.ofList (List.replicate n '1')) =
    .ok (List.replicate (n + 1) 0) := by
  have hdecode := @decode_append n [] (fun d hd => absurd hd List.not_mem_nil)
    fun d hd => absurd hd (Option.not_mem_none d)
  rw [base58Chars, List.flatMap_nil, List.append_nil] at hdecode
  rw [hdecode, List.replicate_succ']
  rfl

/-- **base58btc round trip.** A byte string comes back exactly when it has a nonzero byte. -/
theorem base58btc_roundtrip_iff (bytes : Bytes) :
    base58btcDecode (base58btcEncode bytes) = .ok bytes ↔ ∃ b ∈ bytes, b ≠ 0 := by
  obtain ⟨n, rest, rfl, hrest⟩ := exists_zeros bytes
  cases rest with
  | nil =>
    rw [List.append_nil, encode_zeros, decode_ones]
    refine iff_of_false (fun h => ?_) ?_
    · have hlen := congrArg List.length (Except.ok.inj h)
      rw [List.length_replicate, List.length_replicate] at hlen
      omega
    · rintro ⟨b, hb, hne⟩
      exact hne (List.eq_of_mem_replicate hb)
  | cons b rest =>
    refine iff_of_true (decode_encode hrest (List.cons_ne_nil _ _)) ?_
    exact ⟨b, List.mem_append_right _ List.mem_cons_self, hrest b rfl⟩

/-- A single zero comes back as three. -/
theorem base58btc_zero : base58btcEncode [0] = "11" ∧
    base58btcDecode (base58btcEncode [0]) = .ok [0, 0, 0] := by
  decide +kernel

/-! ## Injectivity -/

/-- The text of bytes with a nonzero one has a character that is not `1`. -/
theorem encode_ne_ones {n m : ℕ} {rest : Bytes} (hrest : ∀ b ∈ rest.head?, b ≠ 0)
    (hne : rest ≠ []) :
    base58btcEncode (List.replicate n 0 ++ rest) ≠ String.ofList (List.replicate m '1') := by
  intro heq
  have hdecode := decode_encode (n := n) hrest hne
  rw [heq, decode_ones] at hdecode
  obtain ⟨b, rest', rfl⟩ := List.exists_cons_of_ne_nil hne
  have hmem : b ∈ List.replicate (m + 1) (0 : UInt8) := by
    rw [Except.ok.inj hdecode]
    exact List.mem_append_right _ List.mem_cons_self
  exact hrest b rfl (List.eq_of_mem_replicate hmem)

/-- **No two byte strings have one text**, those that do not come back included. -/
theorem base58btcEncode_injective : Function.Injective base58btcEncode := by
  intro a b hab
  obtain ⟨n, rest, rfl, hrest⟩ := exists_zeros a
  obtain ⟨m, rest', rfl, hrest'⟩ := exists_zeros b
  cases rest with
  | nil =>
    cases rest' with
    | nil =>
      rw [List.append_nil, List.append_nil, encode_zeros, encode_zeros] at hab
      have hlen := congrArg (List.length ∘ String.toList) hab
      simp only [Function.comp_apply, String.toList_ofList, List.length_replicate,
        Nat.add_right_cancel_iff] at hlen
      rw [hlen]
    | cons b' rest' =>
      rw [List.append_nil, encode_zeros] at hab
      exact absurd hab.symm (encode_ne_ones hrest' (List.cons_ne_nil _ _))
  | cons b rest =>
    cases rest' with
    | nil =>
      rw [List.append_nil, encode_zeros] at hab
      exact absurd hab (encode_ne_ones hrest (List.cons_ne_nil _ _))
    | cons b' rest' =>
      have ha := decode_encode (n := n) hrest (List.cons_ne_nil _ _)
      have hb := decode_encode (n := m) hrest' (List.cons_ne_nil _ _)
      rw [hab, hb] at ha
      exact (Except.ok.inj ha).symm

/-! ## Varints -/

/-- The loop of `unsignedVarint`, for at most the given number of turns. -/
def varintFrom : ℕ → JsNum → Bytes
  | 0, _ => []
  | turns + 1, v =>
    let b := (bitAnd v.toInt 0x7f).toNat
    let v' := JsNum.floor (JsNum.div v 128)
    if JsNum.lt 0 v' then UInt8.ofNat (b ||| 0x80) :: varintFrom turns v' else [UInt8.ofNat b]

/-- `unsignedVarint`. Each turn makes `v` smaller, so there are at most `n` and one more. -/
def unsignedVarint (n : JsNum) : Except JsError Bytes :=
  if JsNum.lt n 0 || !n.isInteger then
    .error (error "multicodec code must be a non-negative integer")
  else .ok (varintFrom (n.toInt.toNat + 1) n)

def didKeyFromPublicKey (multicodec : JsNum) (publicKey : Bytes) : Except JsError String := do
  let code ← unsignedVarint multicodec
  .ok ("did:key:z" ++ base58btcEncode (code ++ publicKey))

/-- The mask takes the low bits, of numbers beyond 32 bits too. -/
theorem bitAnd_mask (n : ℕ) : (bitAnd n 0x7f).toNat = n % 128 := by
  have hand : (toInt32 n &&& toInt32 0x7f).toNat = n % 128 := by
    have hmask : (toInt32 0x7f).toNat = 2 ^ 7 - 1 := by decide
    rw [BitVec.toNat_and, hmask, toInt32, BitVec.ofInt_natCast, BitVec.toNat_ofNat,
      Nat.and_two_pow_sub_one_eq_mod, Nat.mod_mod_of_dvd _ (by decide)]
  rw [bitAnd, toInt_eq_of_lt hand (by omega), Int.toNat_natCast]

theorem or_mask {n : ℕ} (h : n < 128) : n ||| 0x80 = n + 128 := by
  have hor := Nat.two_pow_add_eq_or_of_lt (i := 7) (by omega) 1
  rw [Nat.or_comm, ← hor]
  omega

/-- One turn, over the natural numbers. -/
theorem varintFrom_succ {n : ℕ} (hn : JsNum.IsDouble n) (turns : ℕ) :
    varintFrom (turns + 1) n =
      if 0 < n / 128 then UInt8.ofNat (n % 128 + 128) :: varintFrom turns ((n / 128 : ℕ) : JsNum)
      else [UInt8.ofNat (n % 128)] := by
  have hfloor : JsNum.floor (JsNum.div (n : JsNum) 128) = ((n / 128 : ℕ) : JsNum) :=
    JsNum.floor_div_two_pow (k := 7) hn (by decide)
  have hlt : JsNum.lt 0 ((n / 128 : ℕ) : JsNum) = decide (0 < n / 128) :=
    JsNum.lt_natCast (a := 0)
  rw [varintFrom, JsNum.toInt_natCast, bitAnd_mask, hfloor, hlt, or_mask (Nat.mod_lt _ (by decide))]
  simp only [decide_eq_true_iff]

/-- **A varint ends where it says**: the continuation bit is on every byte but the last. -/
theorem varintFrom_append_inj {m n : ℕ} (hm : JsNum.IsDouble m) (hn : JsNum.IsDouble n)
    {turns turns' : ℕ} (hturns : m < turns) (hturns' : n < turns') {k l : Bytes}
    (h : varintFrom turns m ++ k = varintFrom turns' n ++ l) : m = n ∧ k = l := by
  induction turns generalizing m n turns' with
  | zero => exact absurd hturns (Nat.not_lt_zero m)
  | succ turns ih =>
    obtain ⟨turns', rfl⟩ : ∃ t, turns' = t + 1 :=
      Nat.exists_eq_add_one_of_ne_zero (Nat.ne_zero_of_lt hturns')
    rw [varintFrom_succ hm, varintFrom_succ hn] at h
    -- the first byte says whether there are more, and the low bits
    have hbyte : ∀ {a b : ℕ}, a < 256 → b < 256 → UInt8.ofNat a = UInt8.ofNat b → a = b := by
      intro a b ha hb hab
      have hnat := congrArg UInt8.toNat hab
      rwa [UInt8.toNat_ofNat_of_lt' ha, UInt8.toNat_ofNat_of_lt' hb] at hnat
    split at h <;> split at h <;> rw [List.cons_append, List.cons_append] at h <;>
      obtain ⟨hfirst, hrest⟩ := List.cons.inj h <;>
      have hfirst := hbyte (by omega) (by omega) hfirst
    · obtain ⟨hquot, rfl⟩ := ih (JsNum.isDouble_natCast_div (k := 7) hm (by decide))
        (JsNum.isDouble_natCast_div (k := 7) hn (by decide)) (by omega) (by omega) hrest
      exact ⟨by omega, rfl⟩
    · omega
    · omega
    · exact ⟨by omega, hrest⟩

/-! ## Identifiers -/

theorem unsignedVarint_natCast (n : ℕ) : unsignedVarint n = .ok (varintFrom (n + 1) n) := by
  have hneg : JsNum.lt (n : JsNum) 0 = false := JsNum.lt_natCast (b := 0)
  rw [unsignedVarint, hneg, JsNum.isInteger_natCast, JsNum.toInt_natCast, Int.toNat_natCast]
  rfl

/-- **An identifier has one code and one key.** The codes are the non-negative integers among the
numbers, the keys any byte strings. -/
theorem didKey_injective {m n : JsNum} {k l : Bytes} (hm : m.IsDouble) (hn : n.IsDouble)
    (hmint : m.isInteger = true) (hnint : n.isInteger = true) (hmpos : JsNum.lt m 0 = false)
    (hnpos : JsNum.lt n 0 = false)
    (h : didKeyFromPublicKey m k = didKeyFromPublicKey n l) : m = n ∧ k = l := by
  obtain ⟨m, rfl⟩ := JsNum.exists_natCast_of_isInteger hmint hmpos
  obtain ⟨n, rfl⟩ := JsNum.exists_natCast_of_isInteger hnint hnpos
  rw [didKeyFromPublicKey, didKeyFromPublicKey, unsignedVarint_natCast, unsignedVarint_natCast] at h
  have htext := String.append_right_inj _ |>.mp (Except.ok.inj h)
  obtain ⟨rfl, rfl⟩ := varintFrom_append_inj hm hn (Nat.lt_succ_self m) (Nat.lt_succ_self n)
    (base58btcEncode_injective htext)
  exact ⟨rfl, rfl⟩

/-- `didKey_injective` for a code of two bytes and a key of zeros. -/
theorem didKey_injective_mlDsa :
    (∃ did, didKeyFromPublicKey 0x1212 [0, 0] = .ok did) ∧
      (0x1212 : JsNum) = 0x1212 ∧ ([0, 0] : Bytes) = [0, 0] := by
  have hdouble : JsNum.IsDouble 0x1212 := JsNum.isDouble_natCast (n := 0x1212) (by decide)
  have hcode := unsignedVarint_natCast 0x1212
  exact ⟨⟨_, Except.bind_ok hcode rfl⟩, didKey_injective hdouble hdouble (by decide +kernel)
    (by decide +kernel) (by decide +kernel) (by decide +kernel) rfl⟩

end Nerion
