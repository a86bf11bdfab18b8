import Nerion.Crypto

/-!
# The consensus VRF (`ledger/src/vrf.ts`)

ECVRF-EDWARDS25519-SHA512-TAI over a curve that is a parameter, `Ed25519`: points, their
byte encoding, the group operations and SHA-512. Decoding and the checked scalar
multiplications may throw. The byte-string arithmetic, the try-and-increment search, the
prover and the verifier are translated.

* `verify_eq_some_iff` — what an accepted proof is.
-/

namespace Nerion

/-- The curve and the hash the VRF is built on. -/
structure Ed25519 where
  /-- points of the curve -/
  Point : Type
  /-- `Point.BASE` -/
  base : Point
  /-- `Point.Fn.ORDER` -/
  order : ℤ
  /-- `Point.fromBytes`: throws on an encoding that is not a point -/
  fromBytes : Bytes → Except JsError Point
  toBytes : Point → Bytes
  add : Point → Point → Point
  /-- `multiply`: throws on a scalar out of range -/
  multiply : Point → ℤ → Except JsError Point
  /-- `multiplyUnsafe`: throws on a scalar out of range -/
  multiplyUnsafe : Point → ℤ → Except JsError Point
  is0 : Point → Bool
  isTorsionFree : Point → Bool
  clearCofactor : Point → Point
  sha512 : Bytes → Bytes

/-- What the ledger calls from outside: the crypto layer and the VRF's curve. -/
structure LedgerExternals extends Externals where
  /-- the curve of the VRF -/
  ed25519 : Ed25519

/-- `new VrfError(message)`. -/
def vrfError (message : String) : JsError := ⟨"VrfError", message⟩

def os2ipLE : Bytes → ℕ
  | [] => 0
  | b :: bs => os2ipLE bs * 256 + b.toNat

def i2ospLE (value : ℕ) : ℕ → Bytes
  | 0 => []
  | len + 1 => UInt8.ofNat (value % 256) :: i2ospLE (value / 256) len

structure VrfOutput where
  /-- the proof `Gamma ‖ c ‖ s` -/
  proof : Bytes
  /-- the output -/
  beta : Bytes

namespace Ed25519

variable (C : Ed25519)

structure Secret where
  /-- the clamped scalar -/
  x : ℤ
  /-- upper half of the hashed seed, for the nonce -/
  trunc : Bytes
  /-- the encoded public key -/
  ystr : Bytes
  /-- the public key -/
  y : C.Point

/-- `mod`: the residue in `[0, order)`, from truncated remainders. -/
def mod (n : ℤ) : ℤ := (n.tmod C.order + C.order).tmod C.order

/-- The clamping of RFC 8032. -/
def clamp (a : Bytes) : Bytes :=
  (a.modify 0 (· &&& 248)).modify 31 fun b => (b &&& 127) ||| 64

def deriveSecret (seed : Bytes) : Except JsError C.Secret :=
  if seed.length ≠ 32 then .error (vrfError "VRF seed must be 32 bytes")
  else do
    let h := C.sha512 seed
    let x := C.mod (os2ipLE (clamp (h.take 32)))
    let y ← C.multiply C.base x
    .ok ⟨x, (h.drop 32).take 32, C.toBytes y, y⟩

def vrfPublicKey (seed : Bytes) : Except JsError Bytes := do
  let secret ← C.deriveSecret seed
  .ok secret.ystr

/-- The candidate `encodeToCurveTai` tries at a counter. -/
def candidate (ystr alpha : Bytes) (ctr : ℕ) : Bytes :=
  (C.sha512 ([0x03, 0x01] ++ ystr ++ alpha ++ [UInt8.ofNat ctr, 0x00])).take 32

/-- The loop of `encodeToCurveTai`: the first counter whose candidate decodes. -/
def tryCounters (ystr alpha : Bytes) : List ℕ → Except JsError C.Point
  | [] => .error (vrfError "encode_to_curve: no valid point in 256 tries")
  | ctr :: ctrs =>
    match C.fromBytes (C.candidate ystr alpha ctr) with
    | .ok point => .ok (C.clearCofactor point)
    | .error _ => tryCounters ystr alpha ctrs

def encodeToCurveTai (ystr alpha : Bytes) : Except JsError C.Point :=
  C.tryCounters ystr alpha (List.range 256)

def challenge (points : List Bytes) : ℕ :=
  os2ipLE ((C.sha512 ([0x03, 0x02] ++ points.flatten ++ [0x00])).take 16)

def proofToHash (gamma : C.Point) : Except JsError Bytes := do
  let cleared ← C.multiply gamma 8
  .ok (C.sha512 ([0x03, 0x03] ++ C.toBytes cleared ++ [0x00]))

def prove (seed alpha : Bytes) : Except JsError VrfOutput := do
  let secret ← C.deriveSecret seed
  let h ← C.encodeToCurveTai secret.ystr alpha
  let hstr := C.toBytes h
  let gamma ← C.multiply h secret.x
  let k := C.mod (os2ipLE (C.sha512 (secret.trunc ++ hstr)))
  let kB ← C.multiply C.base k
  let kH ← C.multiply h k
  let c := C.challenge [secret.ystr, hstr, C.toBytes gamma, C.toBytes kB, C.toBytes kH]
  let s := C.mod (k + c * secret.x)
  let beta ← C.proofToHash gamma
  .ok ⟨C.toBytes gamma ++ i2ospLE c 16 ++ i2ospLE s.toNat 32, beta⟩

def isValidVrfPoint (pt : C.Point) : Bool := !C.is0 pt && C.isTorsionFree pt

/-- The challenge the verifier recomputes from `U = s·B − c·Y` and `V = s·H − c·Gamma`. -/
def recomputed (publicKey alpha : Bytes) (y gamma : C.Point) (c s : ℕ) : Except JsError ℕ := do
  let h ← C.encodeToCurveTai publicKey alpha
  let negC := C.mod (C.order - c)
  let sB ← C.multiplyUnsafe C.base s
  let cY ← C.multiplyUnsafe y negC
  let sH ← C.multiplyUnsafe h s
  let cGamma ← C.multiplyUnsafe gamma negC
  .ok (C.challenge [publicKey, C.toBytes h, C.toBytes gamma, C.toBytes (C.add sB cY),
    C.toBytes (C.add sH cGamma)])

/-- The body of `verify`'s `try`. -/
def verifyProof (publicKey alpha proof : Bytes) : Except JsError (Option Bytes) :=
  if proof.length ≠ 80 then .ok none
  else do
    let y ← C.fromBytes publicKey
    if C.isValidVrfPoint y = false then .ok none
    else do
      let gamma ← C.fromBytes (proof.take 32)
      if C.isValidVrfPoint gamma = false then .ok none
      else
        let c := os2ipLE ((proof.drop 32).take 16)
        let s := os2ipLE ((proof.drop 48).take 32)
        if C.order ≤ s then .ok none
        else do
          let cPrime ← C.recomputed publicKey alpha y gamma c s
          if cPrime ≠ c then .ok none
          else do
            let beta ← C.proofToHash gamma
            .ok (some beta)

/-- `verify`: the output, or `none` on any failure. -/
def verify (publicKey alpha proof : Bytes) : Option Bytes :=
  match C.verifyProof publicKey alpha proof with
  | .ok r => r
  | .error _ => none

/-! ## What an accepted proof is -/

/-- A proof the verifier accepts with output `beta`. -/
structure Accepts (publicKey alpha proof beta : Bytes) (y gamma : C.Point) : Prop where
  /-- the proof has 80 bytes -/
  length : proof.length = 80
  /-- the public key decodes -/
  key : C.fromBytes publicKey = .ok y
  /-- to a point of the prime-order subgroup -/
  keyValid : C.isValidVrfPoint y = true
  /-- `Gamma` decodes -/
  point : C.fromBytes (proof.take 32) = .ok gamma
  /-- to a point of the prime-order subgroup -/
  pointValid : C.isValidVrfPoint gamma = true
  /-- the scalar is reduced -/
  scalar : (os2ipLE ((proof.drop 48).take 32) : ℤ) < C.order
  /-- the challenge is the one recomputed from the proof -/
  challenge : C.recomputed publicKey alpha y gamma (os2ipLE ((proof.drop 32).take 16))
    (os2ipLE ((proof.drop 48).take 32)) = .ok (os2ipLE ((proof.drop 32).take 16))
  /-- the output is the hash of `Gamma` -/
  output : C.proofToHash gamma = .ok beta

variable {C}

theorem verify_eq_some_iff {publicKey alpha proof beta : Bytes} :
    C.verify publicKey alpha proof = some beta ↔
      ∃ y gamma, C.Accepts publicKey alpha proof beta y gamma := by
  constructor
  · intro h
    have hok : C.verifyProof publicKey alpha proof = .ok (some beta) := by
      rw [verify] at h
      rcases hr : C.verifyProof publicKey alpha proof with e | r
      · rw [hr] at h
        cases h
      · rw [hr] at h
        exact congrArg _ h
    -- each guard that fails returns `none`
    rw [verifyProof] at hok
    split at hok
    · cases hok
    rename_i hlen
    obtain ⟨y, hy, hok⟩ := Except.bind_eq_ok hok
    split at hok
    · cases hok
    rename_i hyv
    obtain ⟨gamma, hg, hok⟩ := Except.bind_eq_ok hok
    split at hok
    · cases hok
    rename_i hgv
    dsimp only at hok
    split at hok
    · cases hok
    rename_i hs
    obtain ⟨c, hc, hok⟩ := Except.bind_eq_ok hok
    split at hok
    · cases hok
    rename_i hceq
    obtain ⟨b, hb, hok⟩ := Except.bind_eq_ok hok
    cases hok
    rw [not_not] at hceq hlen
    rw [Bool.not_eq_false] at hyv hgv
    exact ⟨y, gamma, hlen, hy, hyv, hg, hgv, not_le.mp hs, hceq ▸ hc, hb⟩
  · rintro ⟨y, gamma, h⟩
    have hok : C.verifyProof publicKey alpha proof = .ok (some beta) := by
      rw [verifyProof, if_neg (not_not.mpr h.length)]
      refine Except.bind_ok h.key ?_
      rw [if_neg (by rw [h.keyValid]; decide)]
      refine Except.bind_ok h.point ?_
      rw [if_neg (by rw [h.pointValid]; decide), if_neg (not_le.mpr h.scalar)]
      refine Except.bind_ok h.challenge ?_
      rw [if_neg (not_not.mpr rfl)]
      exact Except.bind_ok h.output rfl
    rw [verify, hok]

end Ed25519

end Nerion
