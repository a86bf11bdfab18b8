import Nerion.EvmMessage
import Nerion.Json
import Nerion.Portable

/-!
# Portable proofs as JSON (`ledger/src/portable.ts`)

A portable proof travels as JSON, its byte strings as objects with their hex text under `$b`. A
byte string that is a `Buffer` is an exception: it has a `toJSON` method, which `JSON.stringify`
calls before the replacer sees the value.

`JSON.parse` returns a value that nothing checks; it is read here as the verifier reads it, field
by field, and since JSON has no text for a number that is not finite, each number may have become
`null`. What the verifier does with a `null` is the instance of `WireNumber`.

* `PortableFinalityProof.revived` — a proof with `null` for the numbers that JSON loses;
* `deserialize_serialize` — **that is what comes back**, for every proof without `Buffer`s.
-/

namespace Nerion

/-! ## Writing -/

/-- A property that may be absent. -/
def optional (key : String) (v : Option (Json Bytes)) : List (String × Json Bytes) :=
  v.toList.map (key, ·)

section Writing

variable (isBuffer : Bytes → Bool)

/-- A byte string as the replacer is given it, with what `Buffer.prototype.toJSON` returns. -/
def bytesJson (b : Bytes) : Json Bytes :=
  if isBuffer b then
    .object [("type", .text "Buffer"), ("data", .array (b.map fun x => .num (x.toNat : JsNum)))]
  else .leaf b

/-- The `TimeoutVote` as a value. -/
def TimeoutVote.toJson (v : TimeoutVote) : Json Bytes :=
  .object [("height", .num v.height), ("prevHash", .text v.prevHash), ("round", .num v.round),
    ("validator", .text v.validator), ("suite", .text v.suite), ("sig", bytesJson isBuffer v.sig)]

/-- The `ViewChangeCert` as a value. -/
def ViewChangeCert.toJson (c : ViewChangeCert) : Json Bytes :=
  .object [("round", .num c.round), ("votes", .array (c.votes.map (TimeoutVote.toJson isBuffer)))]

/-- The `BlockHeader` as a value. -/
def BlockHeader.toJson (h : BlockHeader) : Json Bytes :=
  .object ([("height", .num h.height), ("prevHash", .text h.prevHash), ("round", .num h.round),
    ("proposer", .text h.proposer), ("payloadRoot", .text h.payloadRoot),
    ("timestamp", .num h.timestamp)] ++ optional "vrfOutput" (h.vrfOutput.map .text))

/-- The `Block` as a value. -/
def Block.toJson (b : Block) : Json Bytes :=
  .object ([("header", b.header.toJson), ("proposerSig", bytesJson isBuffer b.proposerSig),
    ("suite", .text b.suite)] ++ optional "vrfProof" (b.vrfProof.map (bytesJson isBuffer)) ++
    optional "viewChangeCert" (b.viewChangeCert.map (ViewChangeCert.toJson isBuffer)))

/-- The `Attestation` as a value. -/
def Attestation.toJson (a : Attestation) : Json Bytes :=
  .object [("blockHash", .text a.blockHash), ("height", .num a.height),
    ("validator", .text a.validator), ("suite", .text a.suite), ("sig", bytesJson isBuffer a.sig)]

/-- The `PortableFinalityProof` as a value. -/
def PortableFinalityProof.toJson (p : PortableFinalityProof) : Json Bytes :=
  .object ([("block", p.block.toJson isBuffer),
    ("attestations", .array (p.attestations.map (Attestation.toJson isBuffer))),
    ("expectedPrev", .text p.expectedPrev), ("finalityNum", .num p.finalityNum),
    ("finalityDen", .num p.finalityDen)] ++ optional "epoch" (p.epoch.map .num))

end Writing

/-- What `replacer` makes of a value: byte strings become `{ $b: bytesToHex(v) }`. -/
def replacer (X : Externals) : Json Bytes → Json Empty := Json.encode "$b" X.bytesToHex

/-- What `reviver` makes of a value: an object that `isByteTag` accepts, one with a string under
`$b`, becomes `hexToBytes(v.$b)`. -/
def reviver (X : Externals) : Json Empty → Except JsError (Json Bytes) :=
  Json.decode "$b" X.hexToBytes

def serializeFinalityProof (X : Externals) (isBuffer : Bytes → Bool)
    (proof : PortableFinalityProof) : String :=
  Json.stringify (replacer X (proof.toJson isBuffer))

/-- `deserializeFinalityProof`; the cast to `PortableFinalityProof` checks nothing. -/
def deserializeFinalityProof (X : Externals) (json : String) : Except JsError (Json Bytes) :=
  match Json.parse json with
  | some v => reviver X v
  | none => .error ⟨"SyntaxError", "not valid JSON"⟩

/-! ## Reading -/

/-- A number as JSON brings it: itself, or `null`. -/
abbrev NumOrNull := Option JsNum

/-- A `null` is encoded as `null` and equals only `null`. It is no integer, equals no number, and is
neither below nor above zero: `NaN` answers for it there. -/
instance : WireNumber NumOrNull where
  cbor
    | some x => .num x
    | none => .null
  strictEq
    | some a, some b => JsNum.strictEq a b
    | none, none => true
    | _, _ => false
  toNum x := x.getD .nan
  text
    | some x => x.text
    | none => "null"

namespace Json

/-- The property of an object, if it has it. -/
def get (v : Json Bytes) (key : String) : Option (Json Bytes) :=
  match v with
  | .object fs => fs.lookup key
  | _ => none

/-- A number, or `null`. -/
def asNumber : Json Bytes → Option NumOrNull
  | .num x => some (some x)
  | .null => some none
  | _ => none

/-- A string. -/
def asText : Json Bytes → Option String
  | .text s => some s
  | _ => none

/-- A byte string. -/
def asBytes : Json Bytes → Option Bytes
  | .leaf b => some b
  | _ => none

/-- An array of values of one kind. -/
def asArray {α : Type} (read : Json Bytes → Option α) : Json Bytes → Option (List α)
  | .array xs => xs.mapM read
  | _ => none

/-- A property of a kind. -/
def field {α : Type} (v : Json Bytes) (key : String) (read : Json Bytes → Option α) : Option α :=
  (v.get key).bind read

/-- A property of a kind, or none. -/
def field? {α : Type} (v : Json Bytes) (key : String) (read : Json Bytes → Option α) :
    Option (Option α) :=
  match v.get key with
  | some x => (read x).map some
  | none => some none

end Json

/-- The value as a `TimeoutVote`. -/
def TimeoutVote.ofJson (v : Json Bytes) : Option (TimeoutVote NumOrNull) := do
  let height ← v.field "height" Json.asNumber
  let prevHash ← v.field "prevHash" Json.asText
  let round ← v.field "round" Json.asNumber
  let validator ← v.field "validator" Json.asText
  let suite ← v.field "suite" Json.asText
  let sig ← v.field "sig" Json.asBytes
  some ⟨height, prevHash, round, validator, suite, sig⟩

/-- The value as a `ViewChangeCert`. -/
def ViewChangeCert.ofJson (v : Json Bytes) : Option (ViewChangeCert NumOrNull) := do
  let round ← v.field "round" Json.asNumber
  let votes ← v.field "votes" (Json.asArray TimeoutVote.ofJson)
  some ⟨round, votes⟩

/-- The value as a `BlockHeader`. -/
def BlockHeader.ofJson (v : Json Bytes) : Option (BlockHeader NumOrNull) := do
  let height ← v.field "height" Json.asNumber
  let prevHash ← v.field "prevHash" Json.asText
  let round ← v.field "round" Json.asNumber
  let proposer ← v.field "proposer" Json.asText
  let payloadRoot ← v.field "payloadRoot" Json.asText
  let timestamp ← v.field "timestamp" Json.asNumber
  let vrfOutput ← v.field? "vrfOutput" Json.asText
  some ⟨height, prevHash, round, proposer, payloadRoot, timestamp, vrfOutput⟩

/-- The value as a `Block`. -/
def Block.ofJson (v : Json Bytes) : Option (Block NumOrNull) := do
  let header ← v.field "header" BlockHeader.ofJson
  let proposerSig ← v.field "proposerSig" Json.asBytes
  let suite ← v.field "suite" Json.asText
  let vrfProof ← v.field? "vrfProof" Json.asBytes
  let viewChangeCert ← v.field? "viewChangeCert" ViewChangeCert.ofJson
  some ⟨header, proposerSig, suite, vrfProof, viewChangeCert⟩

/-- The value as an `Attestation`. -/
def Attestation.ofJson (v : Json Bytes) : Option (Attestation NumOrNull) := do
  let blockHash ← v.field "blockHash" Json.asText
  let height ← v.field "height" Json.asNumber
  let validator ← v.field "validator" Json.asText
  let suite ← v.field "suite" Json.asText
  let sig ← v.field "sig" Json.asBytes
  some ⟨blockHash, height, validator, suite, sig⟩

/-- The value as a `PortableFinalityProof`. -/
def PortableFinalityProof.ofJson (v : Json Bytes) : Option (PortableFinalityProof NumOrNull) := do
  let block ← v.field "block" Block.ofJson
  let attestations ← v.field "attestations" (Json.asArray Attestation.ofJson)
  let expectedPrev ← v.field "expectedPrev" Json.asText
  let finalityNum ← v.field "finalityNum" Json.asNumber
  let finalityDen ← v.field "finalityDen" Json.asNumber
  let epoch ← v.field? "epoch" Json.asNumber
  some ⟨block, attestations, expectedPrev, finalityNum, finalityDen, epoch⟩

/-! ## What comes back -/

/-- What comes back of a number. -/
def revivedNumber : JsNum → NumOrNull
  | .fin q => some (.fin q)
  | _ => none

/-- What comes back of a vote. -/
def TimeoutVote.revived (v : TimeoutVote) : TimeoutVote NumOrNull :=
  ⟨revivedNumber v.height, v.prevHash, revivedNumber v.round, v.validator, v.suite, v.sig⟩

/-- What comes back of a certificate. -/
def ViewChangeCert.revived (c : ViewChangeCert) : ViewChangeCert NumOrNull :=
  ⟨revivedNumber c.round, c.votes.map TimeoutVote.revived⟩

/-- What comes back of a header. -/
def BlockHeader.revived (h : BlockHeader) : BlockHeader NumOrNull :=
  ⟨revivedNumber h.height, h.prevHash, revivedNumber h.round, h.proposer, h.payloadRoot,
    revivedNumber h.timestamp, h.vrfOutput⟩

/-- What comes back of a block. -/
def Block.revived (b : Block) : Block NumOrNull :=
  ⟨b.header.revived, b.proposerSig, b.suite, b.vrfProof,
    b.viewChangeCert.map ViewChangeCert.revived⟩

/-- What comes back of an attestation. -/
def Attestation.revived (a : Attestation) : Attestation NumOrNull :=
  ⟨a.blockHash, revivedNumber a.height, a.validator, a.suite, a.sig⟩

/-- What comes back of a proof. -/
def PortableFinalityProof.revived (p : PortableFinalityProof) : PortableFinalityProof NumOrNull :=
  ⟨p.block.revived, p.attestations.map Attestation.revived, p.expectedPrev,
    revivedNumber p.finalityNum, revivedNumber p.finalityDen, p.epoch.map revivedNumber⟩

namespace Json

@[simp] theorem asNumber_keptNumber (x : JsNum) :
    asNumber (keptNumber x) = some (revivedNumber x) := by
  cases x <;> rfl

theorem asArray_kept {α γ : Type} {read : Json Bytes → Option γ} {write : α → Json Bytes}
    {back : α → γ} (h : ∀ a, read (write a).kept = some (back a)) (as : List α) :
    asArray read (.array (keptItems (as.map write))) = some (as.map back) := by
  change (keptItems (as.map write)).mapM read = _
  induction as with
  | nil => rfl
  | cons a as ih =>
    rw [List.map_cons, keptItems, List.mapM_cons, h, ih]
    rfl

end Json

/-- The byte strings of a proof. -/
def PortableFinalityProof.byteStrings (p : PortableFinalityProof) : List Bytes :=
  p.block.proposerSig :: (p.block.vrfProof.toList ++
    (p.block.viewChangeCert.toList.flatMap fun c => c.votes.map (·.sig)) ++
    p.attestations.map (·.sig))

/-- No byte string is a `Buffer`. -/
def noBuffer (_ : Bytes) : Bool := false

@[simp] theorem bytesJson_noBuffer (b : Bytes) : bytesJson noBuffer b = .leaf b := rfl

/-- Only the byte strings of the proof matter. -/
theorem PortableFinalityProof.toJson_of_plain {isBuffer : Bytes → Bool}
    {p : PortableFinalityProof} (h : ∀ b ∈ p.byteStrings, isBuffer b = false) :
    p.toJson isBuffer = p.toJson noBuffer := by
  have hleaf : ∀ b ∈ p.byteStrings, bytesJson isBuffer b = .leaf b := by
    intro b hb
    rw [bytesJson, h b hb]
    rfl
  rcases p with ⟨⟨header, sig, suite, vrfProof, cert⟩, atts, prev, num, den, epoch⟩
  simp only [byteStrings, List.forall_mem_cons, List.forall_mem_append, List.forall_mem_map,
    List.mem_flatMap, forall_exists_index, and_imp] at hleaf
  obtain ⟨hsig, ⟨hvrf, hvotes⟩, hatts⟩ := hleaf
  have hattestations : atts.map (Attestation.toJson isBuffer) =
      atts.map (Attestation.toJson noBuffer) :=
    List.map_congr_left fun a ha => by simp [Attestation.toJson, hatts a ha]
  have hproof : vrfProof.map (bytesJson isBuffer) = vrfProof.map .leaf := by
    cases vrfProof with
    | none => rfl
    | some b => simp [hvrf b (by simp)]
  have hcert : cert.map (ViewChangeCert.toJson isBuffer) =
      cert.map (ViewChangeCert.toJson noBuffer) := by
    cases cert with
    | none => rfl
    | some c =>
      have hmap : c.votes.map (TimeoutVote.toJson isBuffer) =
          c.votes.map (TimeoutVote.toJson noBuffer) :=
        List.map_congr_left fun v hv => by
          simp [TimeoutVote.toJson, hvotes v.sig c (by simp) (List.mem_map_of_mem hv)]
      simp [ViewChangeCert.toJson, hmap]
  simp only [toJson, Block.toJson, hsig, hproof, hcert, hattestations, bytesJson_noBuffer]
  rfl

section Kept

attribute [local simp] Json.kept Json.keptFields Json.field Json.field? Json.get List.lookup_cons
  Json.asText Json.asBytes

theorem TimeoutVote.ofJson_kept (v : TimeoutVote) :
    TimeoutVote.ofJson (v.toJson noBuffer).kept = some v.revived := by
  simp [TimeoutVote.ofJson, TimeoutVote.toJson, TimeoutVote.revived]

theorem ViewChangeCert.ofJson_kept (c : ViewChangeCert) :
    ViewChangeCert.ofJson (c.toJson noBuffer).kept = some c.revived := by
  simp [ViewChangeCert.ofJson, ViewChangeCert.toJson, ViewChangeCert.revived,
    Json.asArray_kept TimeoutVote.ofJson_kept]

theorem BlockHeader.ofJson_kept (h : BlockHeader) :
    BlockHeader.ofJson h.toJson.kept = some h.revived := by
  rcases h with ⟨_, _, _, _, _, _, _ | output⟩ <;>
    simp [BlockHeader.ofJson, BlockHeader.toJson, BlockHeader.revived, optional]

theorem Block.ofJson_kept (b : Block) :
    Block.ofJson (b.toJson noBuffer).kept = some b.revived := by
  rcases b with ⟨_, _, _, _ | proof, _ | cert⟩ <;>
    simp [Block.ofJson, Block.toJson, Block.revived, optional, BlockHeader.ofJson_kept,
      ViewChangeCert.ofJson_kept]

theorem Attestation.ofJson_kept (a : Attestation) :
    Attestation.ofJson (a.toJson noBuffer).kept = some a.revived := by
  simp [Attestation.ofJson, Attestation.toJson, Attestation.revived]

theorem PortableFinalityProof.ofJson_kept (p : PortableFinalityProof) :
    PortableFinalityProof.ofJson (p.toJson noBuffer).kept = some p.revived := by
  rcases p with ⟨_, _, _, _, _, _ | epoch⟩ <;>
    simp [PortableFinalityProof.ofJson, PortableFinalityProof.toJson,
      PortableFinalityProof.revived, optional, Block.ofJson_kept,
      Json.asArray_kept Attestation.ofJson_kept]

end Kept

/-- The tag is nobody's property, and no property is there twice. -/
def Untagged (v : Json Bytes) : Prop := ∀ ks ∈ v.keyLists, ks.Nodup ∧ "$b" ∉ ks

@[simp] theorem untagged_num (x : JsNum) : Untagged (.num x) := by
  simp [Untagged, Json.keyLists]

@[simp] theorem untagged_text (s : String) : Untagged (.text s) := by
  simp [Untagged, Json.keyLists]

@[simp] theorem untagged_leaf (b : Bytes) : Untagged (.leaf b) := by
  simp [Untagged, Json.keyLists]

theorem untagged_array {α : Type} {write : α → Json Bytes} (h : ∀ a, Untagged (write a))
    (as : List α) : Untagged (.array (as.map write)) := by
  induction as with
  | nil => exact fun ks hks => absurd hks List.not_mem_nil
  | cons a as ih =>
    intro ks hks
    rcases List.mem_append.mp hks with hks | hks
    · exact h a ks hks
    · exact ih ks hks

theorem untagged_object {fs : List (String × Json Bytes)}
    (hkeys : (fs.map Prod.fst).Nodup ∧ "$b" ∉ fs.map Prod.fst)
    (hfields : ∀ f ∈ fs, Untagged f.2) : Untagged (.object fs) := by
  have hrest : ∀ ks ∈ Json.keyListsOfFields fs, ks.Nodup ∧ "$b" ∉ ks := by
    clear hkeys
    induction fs with
    | nil => exact fun ks hks => absurd hks List.not_mem_nil
    | cons f fs ih =>
      rw [List.forall_mem_cons] at hfields
      intro ks hks
      rcases List.mem_append.mp hks with hks | hks
      · exact hfields.1 ks hks
      · exact ih hfields.2 ks hks
  exact List.forall_mem_cons.mpr ⟨hkeys, hrest⟩

theorem TimeoutVote.untagged (v : TimeoutVote) : Untagged (v.toJson noBuffer) := by
  simp [Untagged, TimeoutVote.toJson, Json.keyLists, Json.keyListsOfFields]

theorem ViewChangeCert.untagged (c : ViewChangeCert) : Untagged (c.toJson noBuffer) := by
  refine untagged_object (by simp) ?_
  simp [untagged_array TimeoutVote.untagged]

theorem BlockHeader.untagged (h : BlockHeader) : Untagged h.toJson := by
  rcases h with ⟨_, _, _, _, _, _, _ | output⟩ <;>
    simp [Untagged, BlockHeader.toJson, Json.keyLists, Json.keyListsOfFields, optional]

theorem Block.untagged (b : Block) : Untagged (b.toJson noBuffer) := by
  rcases b with ⟨_, _, _, _ | proof, _ | cert⟩ <;>
  · refine untagged_object (by simp [optional]) ?_
    simp [optional, BlockHeader.untagged, ViewChangeCert.untagged]

theorem Attestation.untagged (a : Attestation) : Untagged (a.toJson noBuffer) := by
  simp [Untagged, Attestation.toJson, Json.keyLists, Json.keyListsOfFields]

theorem PortableFinalityProof.untagged (p : PortableFinalityProof) :
    Untagged (p.toJson noBuffer) := by
  rcases p with ⟨_, _, _, _, _, _ | epoch⟩ <;>
  · refine untagged_object (by simp [optional]) ?_
    simp [optional, Block.untagged, untagged_array Attestation.untagged]

/-- **What comes back of a proof.** For every proof without `Buffer`s, whatever its numbers, the
text is read back as the proof with `null` for the numbers that are not finite. -/
theorem deserialize_serialize {X : Externals} (H : HexCodec X) {isBuffer : Bytes → Bool}
    {p : PortableFinalityProof} (hplain : ∀ b ∈ p.byteStrings, isBuffer b = false)
    (hx : ∀ x ∈ (p.toJson isBuffer).numbers, x.IsDouble) :
    ∃ w, deserializeFinalityProof X (serializeFinalityProof X isBuffer p) = .ok w ∧
      PortableFinalityProof.ofJson w = some p.revived := by
  rw [serializeFinalityProof, PortableFinalityProof.toJson_of_plain hplain]
  rw [PortableFinalityProof.toJson_of_plain hplain] at hx
  obtain ⟨w, hparse, hdecode⟩ := Json.decode_parse_stringify H.decode hx p.untagged
  refine ⟨(p.toJson noBuffer).kept, ?_, p.ofJson_kept⟩
  rw [deserializeFinalityProof, replacer, hparse]
  exact hdecode

end Nerion
