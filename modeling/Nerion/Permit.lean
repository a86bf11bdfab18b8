import Nerion.Capability
import Nerion.JsString
import Nerion.MacChain
import Nerion.Chain

/-!
# Permits (`planes/src/permit.ts`, `crypto/src/envelope.ts`)

A permit is the encoding of its claims under a message authentication code; the resource that
holds the key of its audience verifies it for one exact action. The functions are over any type of
byte strings with the operations the code uses, `PermitWorld`: the bytes of the program are one
instance (`PermitExternals.world`), the terms of a symbolic model another.

* `accepts_token_iff` — what an accepted permit has passed;
* `permitMac_issued` — the code of an issued permit is the one the resource computes.
-/

namespace Nerion

/-! ## Values over a type of byte strings -/

mutual

/-- A value of the program as data over `B`; `literal` says what its byte strings are there. -/
def Cbor.toData {B : Type} (literal : Bytes → B) : Cbor → JsData B
  | .null => .null
  | .bool b => .bool b
  | .num x => .num x
  | .text s => .text s
  | .bytes b => .bytes (literal b)
  | .array xs => .array (Cbor.toItems literal xs)
  | .map kvs => .map (Cbor.toFields literal kvs)

/-- The items of an array. -/
def Cbor.toItems {B : Type} (literal : Bytes → B) : List Cbor → List (JsData B)
  | [] => []
  | x :: xs => Cbor.toData literal x :: Cbor.toItems literal xs

/-- The fields of an object. -/
def Cbor.toFields {B : Type} (literal : Bytes → B) :
    List (String × Cbor) → List (String × JsData B)
  | [] => []
  | (k, v) :: kvs => (k, Cbor.toData literal v) :: Cbor.toFields literal kvs

end

namespace JsData

mutual

/-- Data over byte strings as a value of the program. -/
def toCbor : JsData Bytes → Cbor
  | .null => .null
  | .bool b => .bool b
  | .num x => .num x
  | .text s => .text s
  | .bytes b => .bytes b
  | .array xs => .array (toItems xs)
  | .map kvs => .map (toFields kvs)

/-- The items of an array. -/
def toItems : List (JsData Bytes) → List Cbor
  | [] => []
  | x :: xs => toCbor x :: toItems xs

/-- The fields of an object. -/
def toFields : List (String × JsData Bytes) → List (String × Cbor)
  | [] => []
  | (k, v) :: kvs => (k, toCbor v) :: toFields kvs

end

variable {B : Type}

/-- `v.key`, `none` being `undefined`; for a value that is not `null`. -/
def get (v : JsData B) (key : String) : Option (JsData B) :=
  match v with
  | .map kvs => kvs.lookup key
  | _ => none

/-- `v === s` for a string `s`. -/
def isText (v : Option (JsData B)) (s : String) : Bool :=
  match v with
  | some (.text t) => t == s
  | _ => false

mutual

/-- `String(v)`; `joined` are the bytes of an array, separated by commas. -/
def asText (joined : B → String) : JsData B → String
  | .null => "null"
  | .bool b => if b then "true" else "false"
  | .num x => x.text
  | .text s => s
  | .bytes b => joined b
  | .array xs => ",".intercalate (itemTexts joined xs)
  | .map _ => "[object Object]"

/-- The items of an array in its text; `null` is empty there. -/
def itemTexts (joined : B → String) : List (JsData B) → List String
  | [] => []
  | .null :: xs => "" :: itemTexts joined xs
  | x :: xs => asText joined x :: itemTexts joined xs

end

end JsData

/-! ## The operations on byte strings -/

/-- What the permit code does with byte strings. -/
structure PermitWorld (B : Type) where
  encodeCanonical : JsData B → Except JsError B
  decodeCbor : B → Except JsError (JsData B)
  /-- `HMAC_SHA384.compute(key, message)` -/
  hmac : (key message : B) → B
  /-- `constantTimeEqual` -/
  equal : B → B → Bool
  length : B → ℕ
  /-- a byte string that is written down -/
  literal : Bytes → B
  /-- `bytesToHex(SHA3_SHAKE256.digest(…))` -/
  digestHex : B → String
  /-- `String(bytes)` -/
  joined : B → String

/-- The third-party functions of the permit code. -/
structure PermitExternals extends Externals where
  /-- `hmac(sha384, key, message)` -/
  hmacSha384 : (key message : Bytes) → Bytes
  /-- `hkdf(sha384, ikm, salt, info, length)` -/
  hkdfSha384 : (ikm salt info : Bytes) → ℕ → Bytes
  /-- `decode` of the CBOR library -/
  decodeCbor : Bytes → Except JsError (JsData Bytes)

/-- The byte strings of the program. -/
def PermitExternals.world (X : PermitExternals) : PermitWorld Bytes where
  encodeCanonical v := X.encodeCanonical v.toCbor
  decodeCbor := X.decodeCbor
  hmac := X.hmacSha384
  equal := constantTimeEqual
  length := List.length
  literal := id
  digestHex b := X.bytesToHex (X.digest b)
  joined b := ",".intercalate (b.map fun x => toString x.toNat)

/-! ## Tokens -/

structure PermitToken (B : Type) where
  suite : String
  /-- the encoded claims -/
  body : B
  /-- the authentication code -/
  mac : B

structure PermitClaims where
  sessionId : String
  nonce : String
  /-- the resource -/
  audience : String
  actionHash : String
  /-- the risk tier -/
  tier : JsNum
  /-- last second of the permit -/
  exp : JsNum
  /-- version of the evaluator -/
  evaluator : String
  /-- effect of the decision -/
  effect : String

/-- The claims as the encoder sees them. -/
def PermitClaims.toData {B : Type} (c : PermitClaims) : JsData B :=
  .map [("sessionId", .text c.sessionId), ("nonce", .text c.nonce), ("audience", .text c.audience),
    ("actionHash", .text c.actionHash), ("tier", .num c.tier), ("exp", .num c.exp),
    ("evaluator", .text c.evaluator), ("effect", .text c.effect)]

/-- An intent as the encoder sees it. -/
def ActionIntent.toCbor (i : ActionIntent) : Cbor :=
  .map ([("type", .text i.type), ("resource", .text i.resource)] ++
    (i.counterparty.map fun c => ("counterparty", .text c)).toList ++
    (i.amount.map fun a => ("amount", .num a)).toList ++
    (i.params.map fun p => ("params", .map p)).toList)

structure PermitCheck where
  /-- this resource -/
  audience : String
  /-- the action to perform -/
  intent : ActionIntent
  /-- the time -/
  now : JsNum
  /-- the session, if it matters -/
  sessionId : Option String
  /-- the effect the resource can honour, if not a plain allow -/
  expectedEffect : Option String

structure PermitVerdict where
  /-- whether the permit is accepted -/
  ok : Bool
  /-- why it is not -/
  reasons : List String

/-- `MAX_PERMIT_BODY_BYTES`. -/
def maxPermitBodyBytes : ℕ := 8192

/-- `MAX_PERMIT_SUITE_LEN`. -/
def maxPermitSuiteLen : ℕ := 64

/-- The expiry check: a number, finite, and not passed. -/
def JsData.lasts {B : Type} (exp : Option (JsData B)) (now : JsNum) : Bool :=
  match exp with
  | some (.num (.fin q)) => JsNum.le now (.fin q)
  | _ => false

namespace PermitWorld

variable {B : Type} (W : PermitWorld B)

def toBeMaced (suite : String) (body : B) : Except JsError B :=
  W.encodeCanonical (.array [.text "PolarSeek-Permit-v1", .text suite, .bytes body])

def permitMac (suite : String) (body key : B) : Except JsError B :=
  (W.toBeMaced suite body).map (W.hmac key)

def issuePermit (claims : JsData B) (suite : String) (sessionKey : B) :
    Except JsError (PermitToken B) := do
  let body ← W.encodeCanonical claims
  let mac ← W.permitMac suite body sessionKey
  .ok ⟨suite, body, mac⟩

def verifyPermit (token : PermitToken B) (sessionKey : B) : Except JsError Bool :=
  (W.permitMac token.suite token.body sessionKey).map fun mac => W.equal mac token.mac

def readPermit (token : PermitToken B) : Except JsError (JsData B) := W.decodeCbor token.body

def actionHash (intent : ActionIntent) : Except JsError String :=
  (W.encodeCanonical (intent.toCbor.toData W.literal)).map W.digestHex

/-- The checks of the claims; `hash` is the hash of the action. -/
def claimReasons (claims : JsData B) (hash : String) (check : PermitCheck) : List String :=
  let requiredEffect := check.expectedEffect.getD "allow"
  let effectText := ((claims.get "effect").map (·.asText W.joined)).getD "undefined"
  reasonIf (!JsData.isText (claims.get "audience") check.audience)
    "permit audience does not match this resource" ++
  reasonIf (!JsData.isText (claims.get "actionHash") hash) "permit is not bound to this action" ++
  reasonIf (!JsData.lasts (claims.get "exp") check.now) "permit expired or has no valid expiry" ++
  (match check.sessionId with
    | none => []
    | some sessionId =>
      reasonIf (!JsData.isText (claims.get "sessionId") sessionId) "permit session mismatch") ++
  reasonIf (!JsData.isText (claims.get "effect") requiredEffect)
    ("permit effect \"" ++ effectText ++ "\" is not the required \"" ++ requiredEffect ++ "\"")

/-- Whether the token is over one of the size bounds. -/
def tooLarge (suite : String) (body : B) : Bool :=
  decide (W.length body > maxPermitBodyBytes) || decide (jsLength suite > maxPermitSuiteLen)

def verifyPermitForAction (token : PermitToken B) (audienceKey : B) (check : PermitCheck) :
    Except JsError PermitVerdict :=
  if W.tooLarge token.suite token.body then .ok ⟨false, ["permit token exceeds size bound"]⟩
  else do
    let genuine ← W.verifyPermit token audienceKey
    if !genuine then
      .ok ⟨false, ["permit MAC invalid (wrong audience key or tampered)"]⟩
    else
      let claims ← W.readPermit token
      match claims with
      | .null =>
        .error ⟨"TypeError", "Cannot read properties of null (reading 'audience')"⟩
      | claims =>
        let hash ← W.actionHash check.intent
        let reasons := W.claimReasons claims hash check
        .ok ⟨reasons.length == 0, reasons⟩

variable {W}

/-- The permit is accepted. -/
def Accepts (verdict : Except JsError PermitVerdict) : Prop := ∃ v, verdict = .ok v ∧ v.ok = true

theorem accepts_of_toOption {verdict : Except JsError PermitVerdict}
    (h : verdict.toOption.map (·.ok) = some true) : Accepts verdict := by
  cases verdict with
  | error e => cases h
  | ok v => exact ⟨v, rfl, Option.some.inj h⟩

/-- **What an accepted permit has passed**: the size bounds, its code, and the checks of the
claims. -/
theorem accepts_token_iff {token : PermitToken B} {key : B} {check : PermitCheck} :
    Accepts (W.verifyPermitForAction token key check) ↔
      W.tooLarge token.suite token.body = false ∧ W.verifyPermit token key = .ok true ∧
      ∃ claims hash, W.readPermit token = .ok claims ∧ claims ≠ .null ∧
        W.actionHash check.intent = .ok hash ∧ W.claimReasons claims hash check = [] := by
  constructor
  · rintro ⟨verdict, h, hok⟩
    rw [verifyPermitForAction] at h
    obtain ⟨hsize, h⟩ := Except.not_early (·.ok = true) h hok Bool.false_ne_true
    obtain ⟨genuine, hgenuine, h⟩ := Except.bind_eq_ok h
    obtain ⟨hmac, h⟩ := Except.not_early (·.ok = true) h hok Bool.false_ne_true
    obtain rfl : genuine = true := by simpa using hmac
    obtain ⟨claims, hclaims, h⟩ := Except.bind_eq_ok h
    split at h
    · cases h
    rename_i hnull
    obtain ⟨hash, hhash, h⟩ := Except.bind_eq_ok h
    obtain rfl := Except.ok.inj h
    exact ⟨Bool.eq_false_iff.mpr hsize, hgenuine, claims, hash, hclaims, hnull, hhash,
      List.length_eq_zero_iff.mp (beq_iff_eq.mp hok)⟩
  · rintro ⟨hsize, hgenuine, claims, hash, hclaims, hnull, hhash, hnil⟩
    refine ⟨⟨true, []⟩, ?_, rfl⟩
    rw [verifyPermitForAction, if_neg (Bool.eq_false_iff.mp hsize)]
    refine Except.bind_ok hgenuine ?_
    rw [Bool.not_true, if_neg Bool.false_ne_true]
    refine Except.bind_ok hclaims ?_
    split
    · exact absurd rfl hnull
    · refine Except.bind_ok hhash ?_
      rw [hnil]
      rfl

/-- The code of an issued token is the one the resource computes. -/
theorem permitMac_issued {claims : JsData B} {suite : String} {key : B} {token : PermitToken B}
    (h : W.issuePermit claims suite key = .ok token) :
    W.permitMac token.suite token.body key = .ok token.mac := by
  obtain ⟨body, -, h⟩ := Except.bind_eq_ok h
  obtain ⟨mac, hmac, h⟩ := Except.bind_eq_ok h
  obtain rfl := Except.ok.inj h
  exact hmac

end PermitWorld

/-! ## Permits of an audience -/

namespace PermitExternals

variable (X : PermitExternals)

def deriveAudiencePermitKey (sessionKey : Bytes) (audience : String) : Except JsError Bytes :=
  (X.encodeCanonical (.array [.text "PolarSeek-Permit-AudienceKDF-v1", .text audience])).map
    fun info => X.hkdfSha384 sessionKey [] info 48

def issueBoundPermit (claims : PermitClaims) (suite : String) (sessionKey : Bytes) :
    Except JsError (PermitToken Bytes) := do
  let audienceKey ← X.deriveAudiencePermitKey sessionKey claims.audience
  X.world.issuePermit claims.toData suite audienceKey

end PermitExternals

end Nerion
