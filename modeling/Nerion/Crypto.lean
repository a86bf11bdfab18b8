import Nerion.Basic
import Nerion.JsNumber
import Mathlib.Data.List.Sort

/-!
# The crypto layer (`crypto/src`)

What the protocol code takes from elsewhere is a parameter, `Externals`: the
deterministic CBOR encoder, SHA3-256, the hex codec and the signature
implementations. Any of them may throw where the source lets it. The suite registry on
top of them and the comparison of secrets are translated.

* `signerFor` resolves a suite to its signature scheme and throws on an unknown or
  unimplemented one;
* `activeSuiteIds` lists the suites in use, by preference.
-/

namespace Nerion

/-- The JavaScript values the code hands to the encoder. -/
inductive Cbor where
  | null
  /-- a boolean -/
  | bool (b : Bool)
  /-- a number; deterministic encoding identifies a bigint with the integer it denotes -/
  | num (x : JsNum)
  /-- a string -/
  | text (s : String)
  /-- a `Uint8Array` -/
  | bytes (b : Bytes)
  | array (xs : List Cbor)
  /-- an object, in source order of its keys -/
  | map (kvs : List (String × Cbor))

/-- `SignatureScheme`, as far as the protocol uses it. Signing is randomised; the
randomness it draws is an explicit argument. -/
structure SignatureScheme where
  /-- `sign(message, secretKey)` -/
  sign : (message secretKey entropy : Bytes) → Except JsError Bytes
  /-- `verify(signature, message, publicKey)` -/
  verify : (signature message publicKey : Bytes) → Except JsError Bool

/-- The third-party functions the code calls. -/
structure Externals where
  /-- `encodeCanonical`: deterministic CBOR; throws on values it cannot encode -/
  encodeCanonical : Cbor → Except JsError Bytes
  /-- `SHA3_SHAKE256.digest` -/
  digest : Bytes → Bytes
  bytesToHex : Bytes → String
  /-- `hexToBytes`: throws on malformed hex -/
  hexToBytes : String → Except JsError Bytes
  /-- `ml_dsa87` -/
  mlDsa87 : SignatureScheme
  /-- `slh_dsa_shake_256f` -/
  slhDsaShake256f : SignatureScheme

/-! ## Comparing secrets -/

def constantTimeEqual (a b : Bytes) : Bool :=
  if a.length ≠ b.length then false
  else (a.zip b).foldl (fun diff p => diff ||| (p.1 ^^^ p.2)) 0 == 0

theorem foldl_or_xor_eq_zero (l : List (UInt8 × UInt8)) (diff : UInt8) :
    l.foldl (fun diff p => diff ||| (p.1 ^^^ p.2)) diff = 0 ↔
      diff = 0 ∧ ∀ p ∈ l, p.1 = p.2 := by
  induction l generalizing diff with
  | nil => simp
  | cons p l ih =>
    rw [List.foldl_cons, ih, UInt8.or_eq_zero_iff, UInt8.xor_eq_zero_iff, List.forall_mem_cons,
      and_assoc]

/-- `constantTimeEqual` decides equality. -/
theorem constantTimeEqual_iff {a b : Bytes} : constantTimeEqual a b = true ↔ a = b := by
  rw [constantTimeEqual]
  split
  · rename_i hlen
    exact ⟨nofun, fun h => absurd (congrArg List.length h) hlen⟩
  · rename_i hlen
    rw [beq_iff_eq, foldl_or_xor_eq_zero, forall_zip_eq_iff (not_not.mp hlen)]
    exact and_iff_right rfl

/-! ## Suites -/

inductive SuiteStatus where
  /-- safe to negotiate and use -/
  | active
  /-- waiting for a standard -/
  | pendingStandardization
  /-- never load-bearing -/
  | notLoadBearing
  /-- withdrawn -/
  | deprecated
  deriving DecidableEq

/-- `Suite`: the fields the protocol reads. -/
structure Suite where
  /-- the suite id -/
  id : String
  /-- whether it may be used -/
  status : SuiteStatus
  /-- the security category -/
  category : ℕ
  /-- lower is preferred -/
  preference : ℕ
  /-- the signature scheme -/
  sigId : String

/-- `SUITES`. -/
def suites : List Suite :=
  [⟨"PS-1", .active, 3, 20, "ML-DSA-87"⟩, ⟨"PS-5", .active, 5, 10, "ML-DSA-87"⟩,
    ⟨"PS-5-HQC", .pendingStandardization, 5, 90, "ML-DSA-87"⟩,
    ⟨"PS-5-FN", .notLoadBearing, 5, 95, "FN-DSA-1024"⟩]

/-- The members of `Object.prototype`. `SUITES` is a plain object, which has them too. -/
def inheritedNames : List String :=
  ["constructor", "__defineGetter__", "__defineSetter__", "hasOwnProperty", "__lookupGetter__",
    "__lookupSetter__", "isPrototypeOf", "propertyIsEnumerable", "toString", "valueOf",
    "__proto__", "toLocaleString"]

/-- `new UnknownSuiteError(id)`. -/
def unknownSuiteError (id : String) : JsError := ⟨"UnknownSuiteError", "unknown SuiteID: " ++ id⟩

/-- `new NotImplementedError(what, connect)`. -/
def notImplementedError (what connect : String) : JsError :=
  ⟨"NotImplementedError",
    what ++ " is registered but not implemented (CONNECT: " ++ connect ++ ")"⟩

/-- `getSuite`. `none` stands for an inherited member: it passes the check of the source and has
no field of a suite. -/
def getSuite (id : String) : Except JsError (Option Suite) :=
  match suites.find? (·.id == id) with
  | some suite => .ok (some suite)
  | none => if inheritedNames.contains id then .ok none else .error (unknownSuiteError id)

def activeSuiteIds : List String :=
  ((suites.filter (·.status = .active)).insertionSort
    (fun a b => a.preference ≤ b.preference)).map (·.id)

theorem activeSuiteIds_eq : activeSuiteIds = ["PS-5", "PS-1"] := by decide

namespace Externals

variable (X : Externals)

def getSigner (id : String) : Except JsError SignatureScheme :=
  if id = "ML-DSA-87" then .ok X.mlDsa87
  else if id = "SLH-DSA-SHAKE-256f" then .ok X.slhDsaShake256f
  else if id = "FN-DSA-1024" then
    .error (notImplementedError "FN-DSA-1024 (Falcon) signatures"
      ("FIPS 206 final + a hardened constant-time Falcon implementation " ++
        "(draft as of June 2026)"))
  else .error (notImplementedError ("signer \"" ++ id ++ "\"") "register it in crypto/src/sign.ts")

def signerFor (id : String) : Except JsError SignatureScheme :=
  -- the `sigId` of an inherited member is `undefined`
  (getSuite id).bind fun suite => X.getSigner ((suite.map (·.sigId)).getD "undefined")

/-- Every active suite signs with ML-DSA-87. -/
theorem signerFor_of_active {id : String} (h : id ∈ activeSuiteIds) :
    X.signerFor id = .ok X.mlDsa87 := by
  rw [activeSuiteIds_eq] at h
  rcases List.mem_cons.mp h with rfl | h
  · rfl
  · obtain rfl := List.mem_singleton.mp h
    rfl

/-- The verification that receipts, tree heads and credit grants share: false if the suite is
not an active one, and false if anything throws. Attestation does not ask for an active suite. -/
def verifies (active : Bool) (suite : String) (sig : Bytes)
    (message publicKey : Except JsError Bytes) : Bool :=
  let check : Except JsError Bool := do
    let signer ← X.signerFor suite
    let message ← message
    let publicKey ← publicKey
    signer.verify sig message publicKey
  if !active then false
  else
    match check with
    | .ok valid => valid
    | .error _ => false

end Externals

/-- Externals for concrete runs: everything encodes to the empty string, every signature
verifies, and hex is one character per byte. -/
def plainExternals : Externals where
  encodeCanonical _ := .ok []
  digest := id
  bytesToHex b := String.ofList (b.map fun x => Char.ofNat x.toNat)
  hexToBytes s := .ok (s.toList.map fun c => c.toNat.toUInt8)
  mlDsa87 := ⟨fun _ _ _ => .ok [], fun _ _ _ => .ok true⟩
  slhDsaShake256f := ⟨fun _ _ _ => .ok [], fun _ _ _ => .ok true⟩

end Nerion
