import Nerion.ByteFraming
import Nerion.Chain
import Nerion.JsMap

/-!
# Sealed keys (`keystore/src/sealing-provider.ts`)

A backend that cannot hold a post-quantum key holds its seed: the provider draws a seed, has the
backend wrap it, and keeps the wrapped seed with the key's id, suite and signature scheme. To sign,
the seed is unwrapped and the key pair derived again. A backend with associated data binds the
wrapped seed to the three names; `sealedKeyAad` is what it binds.

The backend is a parameter, with the randomness of a wrapping explicit.

* `sealedKeyAad_eq_iff` — the associated data say all three names;
* `load_relabelled` — a backend that binds its associated data does not unlock a key under other
  names.
-/

namespace Nerion

/-! ## Associated data -/

/-- The names that the associated data are made of. -/
@[ext] structure SealedNames where
  id : String
  suite : String
  sigId : String

/-- `field`: a text after the length of its encoding. -/
def sealedKeyField (s : String) : String := toString (utf8 s).length ++ ":" ++ s

def sealedKeyAad (names : SealedNames) : Bytes :=
  utf8 ("polarseek-seed-seal-aad-v1|" ++ sealedKeyField names.id ++ "|" ++
    sealedKeyField names.suite ++ "|" ++ sealedKeyField names.sigId)

theorem utf8_sealedKeyField (s : String) : utf8 (sealedKeyField s) = netstring (utf8 s) := by
  have hcolon : utf8 ":" = [':'.toUInt8] := by decide
  simp only [sealedKeyField, netstring, utf8_append, hcolon, List.append_assoc,
    List.singleton_append]

/-- Each name can be read off the front of what is left. -/
theorem sealedKeyAad_injective : Function.Injective sealedKeyAad := by
  intro a b h
  simp only [sealedKeyAad, utf8_append, utf8_sealedKeyField, List.append_assoc,
    List.append_cancel_left_eq] at h
  obtain ⟨hid, h⟩ := netstring_append_inj h
  obtain ⟨hsuite, h⟩ := netstring_append_inj (List.append_cancel_left h)
  have hsigId : netstring (utf8 a.sigId) ++ [] = netstring (utf8 b.sigId) ++ [] := by
    rw [List.append_cancel_left h]
  ext1
  · exact utf8_injective hid
  · exact utf8_injective hsuite
  · exact utf8_injective (netstring_append_inj hsigId).1

/-- **The associated data of two keys are the same only if all their names are.** -/
theorem sealedKeyAad_eq_iff (id suite sigId id' suite' sigId' : String) :
    sealedKeyAad ⟨id, suite, sigId⟩ = sealedKeyAad ⟨id', suite', sigId'⟩ ↔
      id = id' ∧ suite = suite' ∧ sigId = sigId' := by
  rw [sealedKeyAad_injective.eq_iff, SealedNames.mk.injEq]

/-! ## The provider -/

structure SeedSealer where
  wrap : (seed aad entropy : Bytes) → Except JsError Bytes
  unwrap : (sealed aad : Bytes) → Except JsError Bytes
  /-- false when it is left out -/
  isPublicKeyWrap : Bool

/-- What the provider takes from elsewhere; a signature scheme is known by its id. -/
structure SealingExternals extends Externals where
  /-- `scheme.lengths.seed` -/
  seedLength : (sigId : String) → Option JsNum
  /-- `scheme.keygen(seed)` -/
  keygen : (sigId : String) → (seed : Bytes) → Except JsError KeyPair

structure SealedKey extends SealedNames where
  wrappedSeed : Bytes
  publicKey : Bytes

/-- The keys that a provider has unlocked, each with its suite. -/
abbrev Unlocked := JsMap String (String × KeyPair)

/-- `SealingKeyProvider`: what does not change. -/
structure SealingKeyProvider where
  externals : SealingExternals
  sealer : SeedSealer
  name : String

/-- `lock` and `unlocked.set`: a key takes the place of the one before. -/
def Unlocked.unlock (unlocked : Unlocked) (id suite : String) (kp : KeyPair) : Unlocked :=
  (unlocked.delete id).set id (suite, kp)

namespace SealingKeyProvider

variable (S : SealingKeyProvider)

/-- `signerFor(suite)`, with the id of the scheme. -/
def schemeFor (suite : String) : Except JsError (String × SignatureScheme) := do
  let entry ← getSuite suite
  let sigId := (entry.map (·.sigId)).getD "undefined"
  let scheme ← S.externals.getSigner sigId
  return (sigId, scheme)

def seedLengthFor (sigId : String) : Except JsError JsNum :=
  let refusal := notImplementedError ("sealed seeds for signature scheme \"" ++ sigId ++ "\"")
    "the scheme does not expose a keygen seed length via scheme.lengths.seed"
  match S.externals.seedLength sigId with
  | none => .error refusal
  | some n => if JsNum.le n 0 then .error refusal else .ok n

/-- `provision` up to the unlocking: the key pair and what is kept of it. -/
def sealNew (randomBytes : JsNum → Bytes) (entropy : Bytes) (suite id : String) :
    Except JsError (KeyPair × SealedKey) := do
  let (sigId, _) ← S.schemeFor suite
  let n ← S.seedLengthFor sigId
  let seed := randomBytes n
  let aad := sealedKeyAad ⟨id, suite, sigId⟩
  let kp ← S.externals.keygen sigId seed
  let wrappedSeed ← S.sealer.wrap seed aad entropy
  let check ← S.sealer.unwrap wrappedSeed aad
  if !constantTimeEqual check seed then
    throw (error ("seal round-trip failed for \"" ++ id ++
      "\": backend did not unwrap the wrapped seed to the original"))
  return (kp, ⟨⟨id, suite, sigId⟩, wrappedSeed, kp.publicKey⟩)

/-- `provision`; the reference it returns is the provider's name and the id. -/
def provision (randomBytes : JsNum → Bytes) (entropy : Bytes) (suite id : String)
    (unlocked : Unlocked) : Except JsError SealedKey × Unlocked :=
  match S.sealNew randomBytes entropy suite id with
  | .error e => (.error e, unlocked)
  | .ok (kp, sealed) => (.ok sealed, unlocked.unlock id suite kp)

/-- `load` up to the unlocking: the key pair. -/
def recover (sealed : SealedKey) (trustedPublicKey : Option Bytes) : Except JsError KeyPair := do
  let (schemeId, _) ← S.schemeFor sealed.suite
  if sealed.sigId ≠ schemeId then
    throw (error ("sealed key \"" ++ sealed.id ++ "\" failed metadata check: sigId \"" ++
      sealed.sigId ++ "\" does not match suite \"" ++ sealed.suite ++ "\" (scheme \"" ++
      schemeId ++ "\")"))
  let seed ← S.sealer.unwrap sealed.wrappedSeed (sealedKeyAad sealed.toSealedNames)
  let kp ← S.externals.keygen schemeId seed
  if !constantTimeEqual kp.publicKey sealed.publicKey then
    throw (error ("sealed key \"" ++ sealed.id ++
      "\" failed integrity check: re-derived public key does not match sealed.publicKey"))
  if S.sealer.isPublicKeyWrap && trustedPublicKey.isNone then
    throw (error ("sealed key \"" ++ sealed.id ++ "\" requires opts.trustedPublicKey: the \"" ++
      S.name ++ "\" backend is a public-key wrap (offline-forgeable without it) — " ++
      "CUSTODY-SEAL-002."))
  if trustedPublicKey.any fun trusted => !constantTimeEqual kp.publicKey trusted then
    throw (error ("sealed key \"" ++ sealed.id ++
      "\" failed authenticity check: re-derived public key does not match the trusted public " ++
      "key (possible blob substitution — CUSTODY-SEAL-001)"))
  return kp

/-- `load`; the reference it returns is the provider's name and the id. -/
def load (sealed : SealedKey) (trustedPublicKey : Option Bytes) (unlocked : Unlocked) :
    Except JsError Unit × Unlocked :=
  match S.recover sealed trustedPublicKey with
  | .error e => (.error e, unlocked)
  | .ok kp => (.ok (), unlocked.unlock sealed.id sealed.suite kp)

end SealingKeyProvider

/-! ## Sealed keys at rest -/

/-- The backend unwraps a seed under no associated data but those it was wrapped with. -/
def SeedSealer.BindsAad (sealer : SeedSealer) : Prop :=
  ∀ seed aad entropy blob, sealer.wrap seed aad entropy = .ok blob →
    ∀ aad', aad' ≠ aad → ∃ e, sealer.unwrap blob aad' = .error e

variable {S : SealingKeyProvider} {sealed : SealedKey}

theorem SealingKeyProvider.wrap_of_sealNew {randomBytes : JsNum → Bytes} {entropy : Bytes}
    {suite id : String} {kp : KeyPair}
    (h : S.sealNew randomBytes entropy suite id = .ok (kp, sealed)) :
    ∃ seed, S.sealer.wrap seed (sealedKeyAad sealed.toSealedNames) entropy =
      .ok sealed.wrappedSeed := by
  rw [sealNew] at h
  obtain ⟨⟨sigId, scheme⟩, -, h⟩ := Except.bind_eq_ok h
  obtain ⟨n, -, h⟩ := Except.bind_eq_ok h
  obtain ⟨kp', -, h⟩ := Except.bind_eq_ok h
  obtain ⟨wrappedSeed, hwrap, h⟩ := Except.bind_eq_ok h
  obtain ⟨check, -, h⟩ := Except.bind_eq_ok h
  split at h
  · cases h
  obtain ⟨-, rfl⟩ := Prod.mk.inj (Except.ok.inj h)
  exact ⟨_, hwrap⟩

theorem SealingKeyProvider.unwrap_of_recover {trustedPublicKey : Option Bytes} {kp : KeyPair}
    (h : S.recover sealed trustedPublicKey = .ok kp) :
    ∃ seed, S.sealer.unwrap sealed.wrappedSeed (sealedKeyAad sealed.toSealedNames) = .ok seed := by
  rw [recover] at h
  obtain ⟨⟨schemeId, scheme⟩, -, h⟩ := Except.bind_eq_ok h
  dsimp only at h
  split at h
  · cases h
  obtain ⟨seed, hseed, -⟩ := Except.bind_eq_ok h
  exact ⟨seed, hseed⟩

/-- **A wrapped seed under other names is not unlocked.** Whatever else of the sealed key was
changed, and whatever key is trusted, the load throws and unlocks nothing. -/
theorem load_relabelled {S' : SealingKeyProvider} {randomBytes : JsNum → Bytes} {entropy : Bytes}
    {suite id : String} {unlocked unlocked' : Unlocked} (hbinds : S.sealer.BindsAad)
    (hsealer : S'.sealer = S.sealer)
    (h : S.provision randomBytes entropy suite id unlocked = (.ok sealed, unlocked'))
    {relabelled : SealedKey} (hblob : relabelled.wrappedSeed = sealed.wrappedSeed)
    (hnames : relabelled.toSealedNames ≠ sealed.toSealedNames) (trustedPublicKey : Option Bytes)
    (held : Unlocked) : ∃ e, S'.load relabelled trustedPublicKey held = (.error e, held) := by
  rw [SealingKeyProvider.provision] at h
  rcases hnew : S.sealNew randomBytes entropy suite id with e | ⟨kp, sealed'⟩
  · rw [hnew] at h
    cases h
  · rw [hnew] at h
    cases h
    obtain ⟨seed, hwrap⟩ := SealingKeyProvider.wrap_of_sealNew hnew
    obtain ⟨e, he⟩ := hbinds _ _ _ _ hwrap _ (sealedKeyAad_injective.ne hnames)
    rw [SealingKeyProvider.load]
    rcases hrecover : S'.recover relabelled trustedPublicKey with e' | kp'
    · exact ⟨e', rfl⟩
    · obtain ⟨seed', hunwrap⟩ := SealingKeyProvider.unwrap_of_recover hrecover
      rw [hsealer, hblob, he] at hunwrap
      cases hunwrap

end Nerion
