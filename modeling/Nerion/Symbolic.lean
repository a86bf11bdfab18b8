import Mathlib.Data.UInt
import Nerion.Chain

/-!
# A symbolic instance of the externals

For runs on fixed inputs the externals are instantiated with ideal ones that compute: an
encoder that is injective, the identity as hash, hexadecimal text, and signatures that
are the signer's key followed by the message. Nothing about the code is decided here; an
example run over this instance meets the assumption that encoding and hashing are
injective and that nobody signs for somebody else.

* `cborCode_injective` — distinct values have distinct encodings.
-/

namespace Nerion

/-! ## An injective encoder -/

/-- A number in unary. -/
def natCode : ℕ → Bytes
  | 0 => [0]
  | n + 1 => 1 :: natCode n

/-- An integer: its sign, then its size. -/
def intCode : ℤ → Bytes
  | .ofNat n => 0 :: natCode n
  | .negSucc n => 1 :: natCode n

/-- A JavaScript number. -/
def numCode : JsNum → Bytes
  | .nan => [0]
  | .posInf => [1]
  | .negInf => [2]
  | .fin q => 3 :: (intCode q.num ++ natCode q.den)

/-- A character: one byte, or an escape and its number. -/
def charCode (c : Char) : Bytes :=
  if c.toNat < 254 then [UInt8.ofNat c.toNat] else 255 :: natCode c.toNat

/-- A text, closed by the byte no character starts with. -/
def textCode : List Char → Bytes
  | [] => [254]
  | c :: cs => charCode c ++ textCode cs

mutual

/-- A value: a tag for its kind, then its parts. -/
def cborCode : Cbor → Bytes
  | .null => [0]
  | .bool b => [1, if b then 1 else 0]
  | .num x => 2 :: numCode x
  | .text s => 3 :: textCode s.toList
  | .bytes b => 4 :: (natCode b.length ++ b)
  | .array xs => 5 :: itemsCode xs
  | .map kvs => 6 :: fieldsCode kvs

/-- The items of an array. -/
def itemsCode : List Cbor → Bytes
  | [] => [0]
  | x :: xs => 1 :: (cborCode x ++ itemsCode xs)

/-- The fields of an object. -/
def fieldsCode : List (String × Cbor) → Bytes
  | [] => [0]
  | kv :: kvs => 1 :: (fieldCode kv ++ fieldsCode kvs)

/-- A field of an object. -/
def fieldCode : String × Cbor → Bytes
  | (k, v) => textCode k.toList ++ cborCode v

end

/-- A code whose words can be read off the front of a string. -/
def PrefixFree {α : Type} (code : α → Bytes) : Prop :=
  ∀ x y r r', code x ++ r = code y ++ r' → x = y ∧ r = r'

theorem natCode_prefixFree : PrefixFree natCode := by
  intro x
  induction x with
  | zero =>
    intro y r r' h
    cases y with
    | zero => exact ⟨rfl, (List.cons.inj h).2⟩
    | succ y => exact absurd (List.cons.inj h).1 (by decide)
  | succ x ih =>
    intro y r r' h
    cases y with
    | zero => exact absurd (List.cons.inj h).1 (by decide)
    | succ y =>
      obtain ⟨rfl, hr⟩ := ih y r r' (List.cons.inj h).2
      exact ⟨rfl, hr⟩

theorem intCode_prefixFree : PrefixFree intCode := by
  intro x y r r' h
  cases x with
  | ofNat m =>
    cases y with
    | ofNat n =>
      obtain ⟨rfl, hr⟩ := natCode_prefixFree m n r r' (List.cons.inj h).2
      exact ⟨rfl, hr⟩
    | negSucc n => exact absurd (List.cons.inj h).1 (by decide)
  | negSucc m =>
    cases y with
    | ofNat n => exact absurd (List.cons.inj h).1 (by decide)
    | negSucc n =>
      obtain ⟨rfl, hr⟩ := natCode_prefixFree m n r r' (List.cons.inj h).2
      exact ⟨rfl, hr⟩

theorem numCode_prefixFree : PrefixFree numCode := by
  intro x y r r' h
  cases x <;> cases y <;> try exact absurd (List.cons.inj h).1 (by decide)
  case nan.nan => exact ⟨rfl, (List.cons.inj h).2⟩
  case posInf.posInf => exact ⟨rfl, (List.cons.inj h).2⟩
  case negInf.negInf => exact ⟨rfl, (List.cons.inj h).2⟩
  case fin.fin p q =>
    have htail : (intCode p.num ++ natCode p.den) ++ r = (intCode q.num ++ natCode q.den) ++ r' :=
      (List.cons.inj h).2
    rw [List.append_assoc, List.append_assoc] at htail
    obtain ⟨hnum, htail⟩ := intCode_prefixFree _ _ _ _ htail
    obtain ⟨hden, hr⟩ := natCode_prefixFree _ _ _ _ htail
    exact ⟨congrArg JsNum.fin (Rat.ext hnum hden), hr⟩

/-- Numbers below `256` are told apart by their byte. -/
theorem byte_inj {m n : ℕ} (hm : m < 256) (hn : n < 256) (h : UInt8.ofNat m = UInt8.ofNat n) :
    m = n := by
  simpa [Nat.mod_eq_of_lt hm, Nat.mod_eq_of_lt hn] using congrArg UInt8.toNat h

theorem charCode_prefixFree : PrefixFree charCode := by
  intro c d r r' h
  have hlt : ∀ {n : ℕ}, n < 254 → UInt8.ofNat n ≠ 255 := fun hn heq =>
    absurd (byte_inj (n := 255) (by omega) (by decide) heq) (by omega)
  rw [charCode, charCode] at h
  split at h <;> split at h
  · rename_i hc hd
    obtain ⟨h1, h2⟩ := List.cons.inj h
    exact ⟨Char.toNat_inj.mp (byte_inj (by omega) (by omega) h1), h2⟩
  · rename_i hc _
    exact absurd (List.cons.inj h).1 (hlt hc)
  · rename_i _ hd
    exact absurd (List.cons.inj h).1.symm (hlt hd)
  · obtain ⟨h1, h2⟩ := natCode_prefixFree _ _ _ _ (List.cons.inj h).2
    exact ⟨Char.toNat_inj.mp h1, h2⟩

/-- No character starts with the byte that closes a text. -/
theorem charCode_append_ne (c : Char) (r r' : Bytes) : charCode c ++ r ≠ 254 :: r' := by
  rw [charCode]
  split
  · rename_i hc
    intro h
    have h1 : UInt8.ofNat c.toNat = UInt8.ofNat 254 := (List.cons.inj h).1
    have := byte_inj (by omega) (by decide) h1
    omega
  · intro h
    exact absurd (List.cons.inj h).1 (by decide)

theorem textCode_prefixFree : PrefixFree textCode := by
  intro s
  induction s with
  | nil =>
    intro t r r' h
    cases t with
    | nil => exact ⟨rfl, (List.cons.inj h).2⟩
    | cons d t =>
      rw [textCode, textCode, List.append_assoc] at h
      exact absurd h.symm (charCode_append_ne d _ _)
  | cons c s ih =>
    intro t r r' h
    cases t with
    | nil =>
      rw [textCode, textCode, List.append_assoc] at h
      exact absurd h (charCode_append_ne c _ _)
    | cons d t =>
      rw [textCode, textCode, List.append_assoc, List.append_assoc] at h
      obtain ⟨rfl, htail⟩ := charCode_prefixFree _ _ _ _ h
      obtain ⟨rfl, hr⟩ := ih _ _ _ htail
      exact ⟨rfl, hr⟩

mutual

theorem cborCode_prefixFree : ∀ (x y : Cbor) (r r' : Bytes),
    cborCode x ++ r = cborCode y ++ r' → x = y ∧ r = r' := by
  intro x y r r' h
  -- the tags tell the kinds apart
  cases x <;> cases y <;> simp only [cborCode] at h <;>
    try exact absurd (List.cons.inj h).1 (by decide)
  case null.null => exact ⟨rfl, (List.cons.inj h).2⟩
  case bool.bool b c =>
    have h2 := List.cons.inj (List.cons.inj h).2
    refine ⟨?_, h2.2⟩
    cases b <;> cases c <;> first | rfl | exact absurd h2.1 (by decide)
  case num.num a b =>
    obtain ⟨rfl, hr⟩ := numCode_prefixFree _ _ _ _ (List.cons.inj h).2
    exact ⟨rfl, hr⟩
  case text.text s t =>
    obtain ⟨hst, hr⟩ := textCode_prefixFree _ _ _ _ (List.cons.inj h).2
    exact ⟨congrArg Cbor.text (String.ext hst), hr⟩
  case bytes.bytes a b =>
    have htail : (natCode a.length ++ a) ++ r = (natCode b.length ++ b) ++ r' := (List.cons.inj h).2
    rw [List.append_assoc, List.append_assoc] at htail
    obtain ⟨hlen, htail⟩ := natCode_prefixFree _ _ _ _ htail
    obtain ⟨rfl, hr⟩ := List.append_inj htail hlen
    exact ⟨rfl, hr⟩
  case array.array xs ys =>
    obtain ⟨rfl, hr⟩ := itemsCode_prefixFree xs ys r r' (List.cons.inj h).2
    exact ⟨rfl, hr⟩
  case map.map xs ys =>
    obtain ⟨rfl, hr⟩ := fieldsCode_prefixFree xs ys r r' (List.cons.inj h).2
    exact ⟨rfl, hr⟩

theorem itemsCode_prefixFree : ∀ (xs ys : List Cbor) (r r' : Bytes),
    itemsCode xs ++ r = itemsCode ys ++ r' → xs = ys ∧ r = r' := by
  intro xs ys r r' h
  cases xs <;> cases ys <;> simp only [itemsCode] at h <;>
    try exact absurd (List.cons.inj h).1 (by decide)
  case nil.nil => exact ⟨rfl, (List.cons.inj h).2⟩
  case cons.cons x xs y ys =>
    have htail : (cborCode x ++ itemsCode xs) ++ r = (cborCode y ++ itemsCode ys) ++ r' :=
      (List.cons.inj h).2
    rw [List.append_assoc, List.append_assoc] at htail
    obtain ⟨rfl, hitems⟩ := cborCode_prefixFree x y _ _ htail
    obtain ⟨rfl, hr⟩ := itemsCode_prefixFree xs ys r r' hitems
    exact ⟨rfl, hr⟩

theorem fieldsCode_prefixFree : ∀ (xs ys : List (String × Cbor)) (r r' : Bytes),
    fieldsCode xs ++ r = fieldsCode ys ++ r' → xs = ys ∧ r = r' := by
  intro xs ys r r' h
  cases xs <;> cases ys <;> simp only [fieldsCode] at h <;>
    try exact absurd (List.cons.inj h).1 (by decide)
  case nil.nil => exact ⟨rfl, (List.cons.inj h).2⟩
  case cons.cons x xs y ys =>
    have htail : (fieldCode x ++ fieldsCode xs) ++ r = (fieldCode y ++ fieldsCode ys) ++ r' :=
      (List.cons.inj h).2
    rw [List.append_assoc, List.append_assoc] at htail
    obtain ⟨rfl, hfields⟩ := fieldCode_prefixFree x y _ _ htail
    obtain ⟨rfl, hr⟩ := fieldsCode_prefixFree xs ys r r' hfields
    exact ⟨rfl, hr⟩

theorem fieldCode_prefixFree : ∀ (x y : String × Cbor) (r r' : Bytes),
    fieldCode x ++ r = fieldCode y ++ r' → x = y ∧ r = r' := by
  rintro ⟨k, v⟩ ⟨k', v'⟩ r r' h
  rw [fieldCode, fieldCode, List.append_assoc, List.append_assoc] at h
  obtain ⟨hk, h⟩ := textCode_prefixFree _ _ _ _ h
  obtain ⟨rfl, hr⟩ := cborCode_prefixFree v v' r r' h
  exact ⟨congrArg (·, v) (String.ext hk), hr⟩

end

theorem cborCode_injective : Function.Injective cborCode := by
  intro x y h
  exact (cborCode_prefixFree x y [] [] (congrArg (· ++ []) h)).1

/-! ## The instance -/

/-- The two hexadecimal digits of a byte. -/
def hexPair (x : UInt8) : List Char := [Nat.digitChar (x.toNat / 16), Nat.digitChar (x.toNat % 16)]

/-- Lower-case hexadecimal text. -/
def hexText (b : Bytes) : String := String.ofList (b.flatMap hexPair)

theorem digitChar_inj_of_lt : ∀ m < 16, ∀ n < 16, Nat.digitChar m = Nat.digitChar n → m = n := by
  decide

theorem hexPair_injective : Function.Injective hexPair := by
  intro x y h
  obtain ⟨hhi, htl⟩ := List.cons.inj h
  have hlo := (List.cons.inj htl).1
  have hx := x.toNat_lt
  have hy := y.toNat_lt
  have h1 := digitChar_inj_of_lt _ (by omega) _ (by omega) hhi
  have h2 := digitChar_inj_of_lt _ (by omega) _ (by omega) hlo
  exact UInt8.toNat_inj.mp (by omega)

theorem hexText_injective : Function.Injective hexText := by
  intro a b h
  have hlist : a.flatMap hexPair = b.flatMap hexPair := String.ofList_injective h
  clear h
  induction a generalizing b with
  | nil =>
    cases b with
    | nil => rfl
    | cons y b => cases hlist
  | cons x a ih =>
    cases b with
    | nil => cases hlist
    | cons y b =>
      obtain ⟨hxy, hab⟩ := List.append_inj (hlist : hexPair x ++ _ = hexPair y ++ _) rfl
      rw [hexPair_injective hxy, ih hab]

/-- A normalisation of texts: the Kelvin sign is the letter, as it is in canonical composition. -/
def foldKelvin (s : String) : String :=
  String.ofList (s.toList.map fun c => if c = '\u212a' then 'K' else c)

theorem foldKelvin_hexText (b : Bytes) : foldKelvin (hexText b) = hexText b := by
  have hdigit : ∀ m < 16, Nat.digitChar m ≠ '\u212a' := by decide
  rw [foldKelvin, hexText, String.toList_ofList]
  refine congrArg String.ofList ((List.map_congr_left fun c hc => if_neg ?_).trans (List.map_id _))
  obtain ⟨x, -, hx⟩ := List.mem_flatMap.mp hc
  have hlt := x.toNat_lt
  rcases List.mem_pair.mp hx with rfl | rfl
  · exact hdigit _ (by omega)
  · exact hdigit _ (by omega)

/-- Hexadecimal text reads back as a number. -/
theorem exists_bigIntHex (b : Bytes) (hb : b ≠ []) : ∃ n, bigIntHex? (hexText b) = some n := by
  have hdigit : ∀ d < 16, (utf16Units (Nat.digitChar d)).mapM hexDigit? = some [d] := by decide
  have hpair : ∀ x : UInt8, ((hexPair x).flatMap utf16Units).mapM hexDigit? =
      some [x.toNat / 16, x.toNat % 16] := by
    intro x
    have hx := x.toNat_lt
    rw [hexPair, List.flatMap_cons, List.flatMap_cons, List.flatMap_nil, List.append_nil,
      List.mapM_append, hdigit _ (by omega), hdigit _ (by omega)]
    rfl
  have hall : ∀ c : Bytes, ∃ ds, ((c.flatMap hexPair).flatMap utf16Units).mapM hexDigit? =
      some ds := by
    intro c
    induction c with
    | nil => exact ⟨[], rfl⟩
    | cons x c ih =>
      obtain ⟨ds, hds⟩ := ih
      refine ⟨[x.toNat / 16, x.toNat % 16] ++ ds, ?_⟩
      rw [List.flatMap_cons, List.flatMap_append, List.mapM_append, hpair, hds]
      rfl
  obtain ⟨x, c, rfl⟩ := List.exists_cons_of_ne_nil hb
  obtain ⟨ds, hds⟩ := hall c
  refine ⟨ofHexDigits ([x.toNat / 16, x.toNat % 16] ++ ds), ?_⟩
  rw [bigIntHex?, codeUnits, hexText, String.toList_ofList, List.flatMap_cons,
    List.flatMap_append, List.mapM_append, hpair, hds]
  rfl

/-- Reading a text of equal parts part by part. -/
theorem map_range_parts {α β : Type} {f : α → List ℕ} (g : List ℕ → β)
    (hf : ∀ a, (f a).length = 2) (as : List α) :
    (List.range ((as.flatMap f).length / 2)).map
      (fun i => g (((as.flatMap f).drop (i * 2)).take 2)) = as.map fun a => g (f a) := by
  induction as with
  | nil => simp
  | cons a as ih =>
    have hlen : ((a :: as).flatMap f).length / 2 = (as.flatMap f).length / 2 + 1 := by
      rw [List.flatMap_cons, List.length_append, hf]
      omega
    rw [hlen, List.range_succ_eq_map, List.map_cons, List.map_map, List.map_cons, ← ih,
      List.flatMap_cons]
    congr 1
    · rw [Nat.zero_mul, List.drop_zero, List.take_left' (hf a)]
    · refine List.map_congr_left fun i _ => ?_
      have hdrop : (Nat.succ i) * 2 = (f a).length + i * 2 := by
        rw [hf, Nat.succ_mul, Nat.add_comm]
      rw [Function.comp_apply, hdrop, List.drop_length_add_append]

theorem hexToBytesLocal_hexText (b : Bytes) : hexToBytesLocal (hexText b) = b := by
  have hpair : ∀ n < 256, UInt8.ofNat (((parseIntHex
      ((hexPair (UInt8.ofNat n)).flatMap utf16Units)).getD 0) % 256).toNat = UInt8.ofNat n := by
    decide +kernel
  have hlen : ∀ n < 256, ((hexPair (UInt8.ofNat n)).flatMap utf16Units).length = 2 := by
    decide +kernel
  have hunits : codeUnits (hexText b) = b.flatMap fun x => (hexPair x).flatMap utf16Units := by
    rw [codeUnits, hexText, String.toList_ofList, List.flatMap_assoc]
  rw [hexToBytesLocal, hunits]
  refine (map_range_parts (fun u => UInt8.ofNat (((parseIntHex u).getD 0) % 256).toNat)
    (fun x => ?_) b).trans ?_
  · have h := hlen x.toNat x.toNat_lt
    rwa [UInt8.ofNat_toNat] at h
  · refine (List.map_congr_left fun x _ => ?_).trans (List.map_id b)
    have h := hpair x.toNat x.toNat_lt
    rwa [UInt8.ofNat_toNat] at h

/-- Signatures that are the key followed by the message. -/
def symbolicSigner : SignatureScheme where
  sign message secretKey _ := .ok (secretKey ++ message)
  verify signature message publicKey := .ok (decide (signature = publicKey ++ message))

/-- A curve without points. -/
def emptyCurve : Ed25519 where
  Point := Unit
  base := ()
  order := 1
  fromBytes _ := .error (error "bad point")
  toBytes _ := []
  add _ _ := ()
  multiply _ _ := .error (error "invalid scalar")
  multiplyUnsafe _ _ := .error (error "invalid scalar")
  is0 _ := true
  isTorsionFree _ := true
  clearCofactor := id
  sha512 := id

/-- The symbolic externals. -/
def symbolicExternals : LedgerExternals where
  encodeCanonical c := .ok (cborCode c)
  digest := id
  bytesToHex := hexText
  hexToBytes s :=
    if hexText (hexToBytesLocal s) = s then .ok (hexToBytesLocal s)
    else .error (error "hex string expected")
  mlDsa87 := symbolicSigner
  slhDsaShake256f := symbolicSigner
  ed25519 := emptyCurve

/-! ## Blocks and attestations over the instance -/

/-- The value of a computation that does not throw. -/
def valueOr {α : Type} (d : α) : Except JsError α → α
  | .ok a => a
  | .error _ => d

/-- The hash of a block. -/
def symbolicHash (h : BlockHeader) : String := valueOr "" (blockHash symbolicExternals h)

/-- The id of a set. -/
def symbolicSetId (set : ValidatorSet) : String :=
  valueOr "" (consensusSetId symbolicExternals set)

/-- The deterministic leader. -/
def symbolicLeader (set : ValidatorSet) (prev : String) : String :=
  valueOr "" (selectLeader symbolicExternals set prev 0)

/-- The header of the leader's block at height zero. -/
def symbolicHeader (set : ValidatorSet) (prev payloadRoot : String) : BlockHeader :=
  ⟨0, prev, 0, symbolicLeader set prev, payloadRoot, 0, none⟩

/-- The leader's block at height zero. -/
def symbolicBlock (set : ValidatorSet) (prev payloadRoot : String) : Block where
  header := symbolicHeader set prev payloadRoot
  proposerSig := hexToBytesLocal (symbolicLeader set prev) ++ valueOr []
    (blockSignMessage symbolicExternals "PS-5" (symbolicHash (symbolicHeader set prev payloadRoot)))
  suite := "PS-5"
  vrfProof := none
  viewChangeCert := none

/-- A validator's attestation of a block. -/
def symbolicAttestation (set : ValidatorSet) (block : Block) (validator : String) :
    Attestation where
  blockHash := symbolicHash block.header
  height := block.header.height
  validator := validator
  suite := "PS-5"
  sig := hexToBytesLocal validator ++ valueOr [] (attestMessage symbolicExternals "PS-5"
    block.header.height (symbolicHash block.header) (symbolicSetId set))

/-- An attestation of the block without a signature. -/
def garbageAttestation (block : Block) (validator : String) : Attestation :=
  ⟨symbolicHash block.header, block.header.height, validator, "PS-5", []⟩

theorem safeVerify_symbolic (sig msg pub : Bytes) :
    safeVerify symbolicExternals "PS-5" sig msg pub = decide (sig = pub ++ msg) := by
  have hactive : "PS-5" ∈ activeSuiteIds := by decide
  rw [safeVerify, Externals.signerFor_of_active _ hactive]
  rfl

/-- What somebody signs verifies under their key. -/
theorem safeVerify_symbolic_own (msg pub : Bytes) :
    safeVerify symbolicExternals "PS-5" (pub ++ msg) msg pub = true := by
  rw [safeVerify_symbolic]
  exact decide_eq_true rfl

/-- Blocks that anchor different roots have different hashes. -/
theorem symbolicHash_ne (set : ValidatorSet) (prev : String) {p q : String} (hpq : p ≠ q) :
    symbolicHash (symbolicHeader set prev p) ≠ symbolicHash (symbolicHeader set prev q) := by
  intro heq
  have hbytes := cborCode_injective (hexText_injective heq)
  simp only [Cbor.array.injEq, List.cons.injEq, Cbor.text.injEq, symbolicHeader] at hbytes
  exact hpq hbytes.2.2.2.2.2.1

theorem blockHash_symbolic (h : BlockHeader) :
    blockHash symbolicExternals h = .ok (symbolicHash h) := rfl

theorem consensusSetId_symbolic (set : ValidatorSet) :
    consensusSetId symbolicExternals set = .ok (symbolicSetId set) := rfl

/-- A set with stake has a leader. -/
theorem selectLeader_symbolic {set : ValidatorSet} (hstake : 0 < totalStake set) (prev : String) :
    selectLeader symbolicExternals set prev 0 = .ok (symbolicLeader set prev) := by
  have hok : ∃ l, selectLeader symbolicExternals set prev 0 = .ok l := by
    obtain ⟨n, hn⟩ := exists_bigIntHex (cborCode (.array [.text "polarseek-sortition-v1",
      .text prev, .num 0])) (by rw [cborCode]; exact List.cons_ne_nil _ _)
    obtain ⟨last, hlast⟩ := Option.isSome_iff_exists.mp
      (List.getLast?_isSome.mpr (sortedByPubkey_ne_nil hstake))
    have hdraw : bigIntOfHex (hexText (cborCode (.array [.text "polarseek-sortition-v1",
        .text prev, .num 0]))) = .ok n := by
      rw [bigIntOfHex, hn]
    rw [selectLeader, if_neg (not_le.mpr hstake)]
    rcases howner : ownerFrom (n.tmod (totalStake set)) 0 (sortedByPubkey set.validators)
      with _ | v
    · refine ⟨last.pubkey, Except.bind_ok rfl (Except.bind_ok hdraw ?_)⟩
      rw [howner, hlast]
    · refine ⟨v.pubkey, Except.bind_ok rfl (Except.bind_ok hdraw ?_)⟩
      rw [howner]
  obtain ⟨l, hl⟩ := hok
  rw [symbolicLeader, hl]
  rfl

/-- A block of the leader in round zero, signed with its key. -/
structure LeaderBlock (set : ValidatorSet) (prev : String) (block : Block) : Prop where
  /-- the height is a number -/
  height : block.header.height ≠ .nan
  /-- it extends the head -/
  prevHash : block.header.prevHash = prev
  /-- the canonical round -/
  round : block.header.round = 0
  /-- the leader proposes it -/
  proposer : block.header.proposer = symbolicLeader set prev
  suite : block.suite = "PS-5"
  /-- the signature is the leader's -/
  proposerSig : block.proposerSig = hexToBytesLocal (symbolicLeader set prev) ++ valueOr []
    (blockSignMessage symbolicExternals "PS-5" (symbolicHash block.header))
  /-- there is no VRF proof -/
  vrfProof : block.vrfProof = none

theorem leaderBlock_symbolicBlock (set : ValidatorSet) (prev payloadRoot : String) :
    LeaderBlock set prev (symbolicBlock set prev payloadRoot) :=
  ⟨nofun, rfl, rfl, rfl, rfl, rfl, rfl⟩

theorem checkAttestation_symbolic (set : ValidatorSet) (block : Block) (v : String) :
    checkAttestation symbolicExternals block (symbolicHash block.header) (symbolicSetId set)
      (symbolicAttestation set block v) = .ok true := by
  refine Except.bind_ok rfl ?_
  exact congrArg Except.ok (safeVerify_symbolic_own _ _)

namespace LeaderBlock

variable {set : ValidatorSet} {prev : String} {block : Block} (hb : LeaderBlock set prev block)
include hb

/-- A block of the leader of a set without VRF keys passes every check but the stake's. -/
theorem finalizes {num den : JsNum} {atts : List Attestation} {t : Tally} (hset : set.WellFormed)
    (hvrf : vrfSet set = false) (hstake : 0 < totalStake set)
    (hthreshold : validThreshold num den = true) (hbound : atts.length ≤ maxAttestations set)
    (htally : tallyAttestations symbolicExternals block (symbolicHash block.header)
      (symbolicSetId set) set .none atts = .ok t)
    (hmet : num.toInt * totalStake set ≤ t.stake * den.toInt) :
    Finalizes symbolicExternals block atts set prev num den .none (symbolicHash block.header)
      (symbolicSetId set) t where
  hash := rfl
  bound := hbound
  setHash := rfl
  header := by
    have hround : (JsNum.isSafeInteger 0, JsNum.lt 0 0) = (true, false) := by decide +kernel
    obtain ⟨h1, h2⟩ := Prod.mk.inj hround
    simp [headerReasons, hb.prevHash, hb.round, VerifyOpts.none, h1, h2, reasonIf]
  leader := by
    rw [leaderReasons, if_neg (not_le.mpr hstake), hvrf, if_neg (by decide), hb.vrfProof,
      if_neg (by decide), hb.round, hb.proposer]
    refine Except.bind_ok (selectLeader_symbolic hstake prev) ?_
    have hround : JsNum.strictEq 0 (canonicalRound block.header.height) = true :=
      (by decide +kernel : JsNum.strictEq 0 0 = true)
    simp [hround, reasonIf]
  proposer := by
    rw [proposerReasons, hb.suite, hb.proposerSig, hb.proposer]
    refine Except.bind_ok rfl ?_
    exact congrArg (fun valid => Except.ok (reasonIf (!valid) "proposer signature is invalid"))
      (safeVerify_symbolic_own _ _)
  tally := htally
  threshold := hthreshold
  wellFormed := hset
  stake := hstake
  met := hmet

/-- One genuine attestation, then anything in the same validator's name: its stake counts. -/
theorem tally_own {v : String} {rest : List Attestation} (hv : 0 < stakeOf set v)
    (hrest : ∀ a ∈ rest, a.validator = v) :
    tallyAttestations symbolicExternals block (symbolicHash block.header) (symbolicSetId set) set
        .none (symbolicAttestation set block v :: rest) =
      .ok ⟨[v], [v], stakeOf set v⟩ := by
  have hpos : 0 < ((stakeIndex set).get? v).getD 0 := by
    rw [get?_stakeIndex]
    exact hv
  have hattests : attests block (symbolicHash block.header) .none
      (symbolicAttestation set block v) = true :=
    attests_iff.mpr ⟨rfl, JsNum.strictEq_iff.mpr ⟨hb.height, rfl⟩, hb.suite.symm, nofun⟩
  refine (tally_zero_cons hattests hpos (checkAttestation_symbolic set block v)).trans ?_
  have hattempt : Tally.zero.attempt v (((stakeIndex set).get? v).getD 0) true =
      ⟨[v], [v], stakeOf set v⟩ := by
    rw [get?_stakeIndex, Tally.attempt, if_pos rfl]
    simp [Tally.zero]
  refine (congrArg (fun t => tally _ _ _ _ t rest) hattempt).trans (tally_of_counted fun a ha => ?_)
  rw [hrest a ha]
  exact List.mem_singleton_self v

end LeaderBlock

/-! ## A ledger with one validator -/

/-- Externals for a run: the symbolic ones, with a checksum of one byte for the hash. -/
def checksumExternals : LedgerExternals := { symbolicExternals with digest := fun b => [b.sum] }

/-- One validator. -/
def pairLedger : LedgerConfig := ⟨⟨[⟨"00", 1, none⟩], none⟩, "PS-5", 2, 3⟩

/-- The block the validator proposes. -/
def pairBlock : Block where
  header := ⟨0, genesisPrev, 0, "00", "00", 0, none⟩
  proposerSig := [0] ++ valueOr [] (blockSignMessage checksumExternals "PS-5" "b6")
  suite := "PS-5"
  vrfProof := none
  viewChangeCert := none

/-- The attestation of `pairBlock`. -/
def pairAttestation : Attestation where
  blockHash := "b6"
  height := 0
  validator := "00"
  suite := "PS-5"
  sig := [0] ++ valueOr [] (attestMessage checksumExternals "PS-5" 0 "b6"
    (valueOr "" (consensusSetId checksumExternals pairLedger.set)))

end Nerion
