import Nerion.Caveat

/-!
# Who can build an attenuated permit

The permit code over the terms of the symbolic model: `hmac` and the encoder are free, and the
audience key is the secret one. An attacker that has seen permits and attenuated permits can fold
further caveats onto them, and nothing else that the resource accepts.

* `SymbolicWorld` — what the model asks of the operations;
* `mac_eq_chain` — the code of an accepted permit is the end of the chain over its messages;
* `seen_public_or_chain` — what the attacker sees are public terms and ends of such chains;
* `attenuation_only_narrows` — an accepted permit whose base permit was not seen extends an
  attenuated permit that was.
-/

namespace Nerion

open MacTerm PermitWorld

/-- Encoding and `hmac` are free constructors; nothing is asked of the other operations. -/
structure SymbolicWorld (W : PermitWorld MacTerm) : Prop where
  /-- what is encoded is the encoding of the value, if the encoder takes it -/
  encode : ∀ v b, W.encodeCanonical v = .ok b → b = .encoded v
  /-- the authentication code is the term -/
  hmac : ∀ k m, W.hmac k m = .hmac k m
  /-- the comparison compares -/
  equal : ∀ a b, W.equal a b = true → a = b

/-- The message of the root code. -/
def rootTerm (suite : String) (body : MacTerm) : MacTerm :=
  .encoded (.array [.text "PolarSeek-Permit-v1", .text suite, .bytes body])

/-- The message of a caveat. -/
def caveatTerm (c : Caveat MacTerm) : MacTerm :=
  .encoded (.array [.text "Nerion/permit-caveat/v1", .text c.kind, c.value])

/-- The messages of the chain of an attenuated permit. -/
def chainTerms (suite : String) (body : MacTerm) (cs : List (Caveat MacTerm)) : List MacTerm :=
  rootTerm suite body :: cs.map caveatTerm

theorem rootTerm_inj {suite suite' : String} {body body' : MacTerm}
    (h : rootTerm suite body = rootTerm suite' body') : suite = suite' ∧ body = body' := by
  simpa [rootTerm] using h

theorem caveatTerm_injective : Function.Injective caveatTerm := by
  rintro ⟨kind, value⟩ ⟨kind', value'⟩ h
  simpa [caveatTerm] using h

/-- A prefix of the chain with the same root is the chain of a prefix of the caveats. -/
theorem prefix_of_chainTerms {suite suite' : String} {body body' : MacTerm}
    {cs cs' : List (Caveat MacTerm)}
    (h : chainTerms suite body cs <+: chainTerms suite' body' cs') :
    suite = suite' ∧ body = body' ∧ cs <+: cs' := by
  obtain ⟨hroot, hcs⟩ := List.cons_prefix_cons.mp h
  obtain ⟨hsuite, hbody⟩ := rootTerm_inj hroot
  exact ⟨hsuite, hbody, (List.prefix_map_iff_of_injective caveatTerm_injective).mp hcs⟩

section World

variable {W : PermitWorld MacTerm} (hW : SymbolicWorld W)
include hW

theorem permitMac_eq {suite : String} {body mac : MacTerm}
    (h : W.permitMac suite body .key = .ok mac) : mac = chain [rootTerm suite body] := by
  obtain ⟨m, hm, rfl⟩ := Except.map_eq_ok h
  rw [hW.hmac, hW.encode _ _ hm]
  rfl

theorem chainMac_eq {ms : List MacTerm} {cs : List (Caveat MacTerm)} {mac : MacTerm}
    (h : W.chainMac (chain ms) cs = .ok mac) : mac = chain (ms ++ cs.map caveatTerm) := by
  induction cs generalizing ms with
  | nil =>
    obtain rfl := Except.ok.inj h
    simp
  | cons c cs ih =>
    rw [chainMac, List.foldlM_cons] at h
    obtain ⟨acc, hacc, h⟩ := Except.bind_eq_ok h
    obtain ⟨m, hm, rfl⟩ := Except.map_eq_ok hacc
    rw [hW.hmac, hW.encode _ _ hm] at h
    rw [← chain_concat] at h
    rw [ih h, List.append_assoc]
    rfl

end World

/-! ## What is seen -/

/-- A permit issued under the audience key, for claims whose byte strings do not depend on it; the
claims of the source have none. -/
def GenuinePermit (W : PermitWorld MacTerm) (token : PermitToken MacTerm) : Prop :=
  ∃ claims suite, (∀ b, claims.Carries b → b.Public) ∧
    W.issuePermit claims suite .key = .ok token

/-- What holders make of a genuine permit, with caveats whose byte strings do not depend on the key;
the caveats of the source have none. -/
def GenuineAttenuated (W : PermitWorld MacTerm) (ap : AttenuatedPermit MacTerm) : Prop :=
  ∃ token cs, GenuinePermit W token ∧ (∀ c ∈ cs, ∀ b, c.value.Carries b → b.Public) ∧
    W.attenuateAll (.token token) cs = .ok (.attenuated ap)

/-- The terms in the permits and attenuated permits that were seen. -/
def seenTerms (bases : Set (PermitToken MacTerm)) (seen : Set (AttenuatedPermit MacTerm)) :
    Set MacTerm :=
  {t | (∃ p ∈ bases, t = p.body ∨ t = p.mac) ∨
    ∃ o ∈ seen, t = o.body ∨ t = o.mac ∨ ∃ c ∈ o.caveats, c.value.Carries t}

/-- The chains whose ends were seen. -/
def seenChains (bases : Set (PermitToken MacTerm)) (seen : Set (AttenuatedPermit MacTerm)) :
    Set (List MacTerm) :=
  {ms | (∃ p ∈ bases, ms = chainTerms p.suite p.body []) ∨
    ∃ o ∈ seen, ms = chainTerms o.suite o.body o.caveats}

/-- An attenuated permit that can be put together from derived terms. -/
structure CanBuild (K : Set MacTerm) (ap : AttenuatedPermit MacTerm) : Prop where
  /-- the body is derived -/
  body : Derives K ap.body
  /-- the byte strings in the caveats are derived -/
  caveats : ∀ c ∈ ap.caveats, ∀ b, c.value.Carries b → Derives K b
  /-- the code is derived -/
  mac : Derives K ap.mac

section Seen

variable {W : PermitWorld MacTerm} (hW : SymbolicWorld W)
include hW

theorem GenuinePermit.spec {token : PermitToken MacTerm} (h : GenuinePermit W token) :
    token.body.Public ∧ token.mac = chain (chainTerms token.suite token.body []) := by
  obtain ⟨claims, suite, hpublic, hissue⟩ := h
  refine ⟨?_, permitMac_eq hW (permitMac_issued hissue)⟩
  obtain ⟨body, hbody, h⟩ := Except.bind_eq_ok hissue
  obtain ⟨mac, -, h⟩ := Except.bind_eq_ok h
  obtain rfl := Except.ok.inj h
  obtain rfl := hW.encode _ _ hbody
  exact .encoded hpublic

theorem GenuineAttenuated.spec {ap : AttenuatedPermit MacTerm} (h : GenuineAttenuated W ap) :
    ap.body.Public ∧ (∀ c ∈ ap.caveats, ∀ b, c.value.Carries b → b.Public) ∧
      ap.mac = chain (chainTerms ap.suite ap.body ap.caveats) := by
  obtain ⟨token, cs, htoken, hcs, hfold⟩ := h
  obtain ⟨hbody, hmac⟩ := htoken.spec hW
  obtain ⟨hsuite', hbody', hcaveats, hchain⟩ := attenuateAll_eq_ok hfold
  obtain ⟨suite, body, caveats, mac⟩ := ap
  obtain rfl : suite = token.suite := hsuite'
  obtain rfl : body = token.body := hbody'
  obtain rfl : caveats = cs := hcaveats
  refine ⟨hbody, hcs, ?_⟩
  have hroot : (Permit.token token).mac = chain (chainTerms token.suite token.body []) := hmac
  rw [hroot] at hchain
  exact chainMac_eq hW hchain

/-- The attacker sees public terms and ends of chains. -/
theorem seen_public_or_chain {bases : Set (PermitToken MacTerm)}
    {seen : Set (AttenuatedPermit MacTerm)} (hbases : ∀ p ∈ bases, GenuinePermit W p)
    (hseen : ∀ o ∈ seen, GenuineAttenuated W o) :
    ∀ t ∈ seenTerms bases seen, Public t ∨ ∃ ms ∈ seenChains bases seen, t = chain ms := by
  rintro t (⟨p, hp, hpart⟩ | ⟨o, ho, hpart⟩)
  · obtain ⟨hbody, hmac⟩ := (hbases p hp).spec hW
    rcases hpart with rfl | rfl
    · exact .inl hbody
    · exact .inr ⟨_, .inl ⟨p, hp, rfl⟩, hmac⟩
  · obtain ⟨hbody, hcaveats, hmac⟩ := (hseen o ho).spec hW
    rcases hpart with rfl | rfl | ⟨c, hc, ht⟩
    · exact .inl hbody
    · exact .inr ⟨_, .inr ⟨o, ho, rfl⟩, hmac⟩
    · exact .inl (hcaveats c hc t ht)

/-- The code of an accepted permit is the end of the chain over its messages. -/
theorem mac_eq_chain {ap : AttenuatedPermit MacTerm} {check : PermitCheck}
    (h : Accepts (W.verifyAttenuatedPermit (some ap) .key check)) :
    ap.mac = chain (chainTerms ap.suite ap.body ap.caveats) := by
  obtain ⟨-, -, m0, mac, hm0, -, hmac, hequal, -⟩ := accepts_attenuated_iff.mp h
  obtain rfl := permitMac_eq hW hm0
  rw [← hW.equal _ _ hequal]
  exact chainMac_eq hW hmac

end Seen

/-- **Holders only narrow.** In the symbolic model, let an attacker see any permits and any
attenuated permits made of genuine ones. Every attenuated permit that it can build and the resource
accepts, and whose base permit it has not seen, has the suite and the body of one that it has seen,
whose caveats are a prefix of its caveats. -/
theorem attenuation_only_narrows (W : PermitWorld MacTerm) (hW : SymbolicWorld W)
    (bases : Set (PermitToken MacTerm)) (seen : Set (AttenuatedPermit MacTerm))
    (hbases : ∀ p ∈ bases, GenuinePermit W p) (hseen : ∀ o ∈ seen, GenuineAttenuated W o)
    (ap : AttenuatedPermit MacTerm) (hap : CanBuild (seenTerms bases seen) ap)
    (check : PermitCheck) (haccepts : Accepts (W.verifyAttenuatedPermit (some ap) .key check))
    (hbase : ∀ p ∈ bases, ¬ (p.suite = ap.suite ∧ p.body = ap.body)) :
    ∃ o ∈ seen, o.suite = ap.suite ∧ o.body = ap.body ∧ o.caveats <+: ap.caveats := by
  have hmac := hap.mac
  rw [mac_eq_chain hW haccepts] at hmac
  obtain ⟨ms, hms, hprefix⟩ := derives_chain (seen_public_or_chain hW hbases hseen) hmac
  rcases hms with ⟨p, hp, rfl⟩ | ⟨o, ho, rfl⟩
  · obtain ⟨hsuite, hbody, -⟩ := prefix_of_chainTerms hprefix
    exact absurd ⟨hsuite, hbody⟩ (hbase p hp)
  · exact ⟨o, ho, prefix_of_chainTerms hprefix⟩

/-- A world of free constructors. -/
noncomputable def freeWorld : PermitWorld MacTerm where
  encodeCanonical v := .ok (.encoded v)
  decodeCbor
    | .encoded v => .ok v
    | _ => .error (error "unexpected end of input")
  hmac := .hmac
  equal a b := @decide (a = b) (Classical.propDecidable _)
  length _ := 0
  literal := .data
  digestHex _ := "h"
  joined _ := ""

theorem symbolicWorld_free : SymbolicWorld freeWorld where
  encode _ _ h := (Except.ok.inj h).symm
  hmac _ _ := rfl
  equal _ _ h := @of_decide_eq_true _ (Classical.propDecidable _) h

/-- The claims of a permit have no byte strings. -/
theorem PermitClaims.not_carries {B : Type} (c : PermitClaims) (b : B) :
    ¬ c.toData.Carries b := by
  intro h
  cases h with
  | map hkv hb =>
    simp only [List.mem_cons, List.not_mem_nil, or_false] at hkv
    rcases hkv with rfl | rfl | rfl | rfl | rfl | rfl | rfl | rfl <;> cases hb

/-- The claims of a permit in the free world. -/
def freeClaims : PermitClaims := { voucherClaims with actionHash := "h" }

/-- The permit. -/
def freeToken : PermitToken MacTerm :=
  ⟨"PS-5", .encoded freeClaims.toData, chain (chainTerms "PS-5" (.encoded freeClaims.toData) [])⟩

/-- The permit with caveats. -/
def freeAttenuated (cs : List (Caveat MacTerm)) : AttenuatedPermit MacTerm :=
  ⟨"PS-5", .encoded freeClaims.toData, cs,
    chain (chainTerms "PS-5" (.encoded freeClaims.toData) cs)⟩

theorem freeToken_issued :
    freeWorld.issuePermit freeClaims.toData "PS-5" .key = .ok freeToken := rfl

theorem freeToken_accepted :
    Accepts (freeWorld.verifyPermitForAction freeToken .key (voucherCheck 1)) := by
  refine accepts_token_iff.mpr ⟨by decide +kernel, ?_, freeClaims.toData, "h", rfl, nofun, rfl,
    by decide +kernel⟩
  rw [verifyPermit, permitMac_issued freeToken_issued]
  exact congrArg Except.ok (@decide_eq_true _ (Classical.propDecidable _) rfl)

/-- A second caveat on a permit that was seen with the first. -/
theorem attenuation_only_narrows_free :
    Accepts (freeWorld.verifyAttenuatedPermit
      (some (freeAttenuated [.expiresAtMost 3, .actionPrefix "pay"])) .key (voucherCheck 1)) ∧
    ∃ o ∈ ({freeAttenuated [.expiresAtMost 3]} : Set (AttenuatedPermit MacTerm)),
      o.suite = "PS-5" ∧ o.body = .encoded freeClaims.toData ∧
        o.caveats <+: [.expiresAtMost 3, .actionPrefix "pay"] := by
  have haccepts : Accepts (freeWorld.verifyAttenuatedPermit
      (some (freeAttenuated [.expiresAtMost 3, .actionPrefix "pay"])) .key (voucherCheck 1)) := by
    have hfold : freeWorld.attenuateAll (.token freeToken) [.expiresAtMost 3, .actionPrefix "pay"] =
        .ok (.attenuated (freeAttenuated [.expiresAtMost 3, .actionPrefix "pay"])) := rfl
    refine (accepts_fold_iff (fun b => @decide_eq_true _ (Classical.propDecidable _) rfl)
      freeToken_issued hfold _).mpr ⟨by decide, freeToken_accepted, ?_⟩
    intro c hc
    rcases List.mem_pair.mp hc with rfl | rfl
    · exact .expiresAtMost (by decide +kernel) (by decide +kernel)
    · exact .actionPrefix (.inl rfl)
  have hgenuine : GenuineAttenuated freeWorld (freeAttenuated [.expiresAtMost 3]) := by
    refine ⟨freeToken, [.expiresAtMost 3], ?_, ?_, rfl⟩
    · exact ⟨freeClaims.toData, "PS-5", fun b hb => absurd hb (freeClaims.not_carries b), rfl⟩
    · intro c hc b hb
      obtain rfl := List.mem_singleton.mp hc
      cases hb
  have hbuild : CanBuild (seenTerms ∅ {freeAttenuated [.expiresAtMost 3]})
      (freeAttenuated [.expiresAtMost 3, .actionPrefix "pay"]) := by
    refine ⟨.seen (.inr ⟨_, rfl, .inl rfl⟩), ?_, ?_⟩
    · intro c hc b hb
      rcases List.mem_pair.mp hc with rfl | rfl <;> cases hb
    · refine .hmac (.seen (.inr ⟨_, rfl, .inr (.inl rfl)⟩)) (.encode fun b hb => ?_)
      cases hb with
      | array hx hb =>
        simp only [List.mem_cons, List.not_mem_nil, or_false] at hx
        rcases hx with rfl | rfl | rfl <;> cases hb
  refine ⟨haccepts, attenuation_only_narrows freeWorld symbolicWorld_free ∅
    {freeAttenuated [.expiresAtMost 3]} (fun p hp => absurd hp (Set.notMem_empty p)) ?_ _ hbuild _
    haccepts fun p hp => absurd hp (Set.notMem_empty p)⟩
  intro o ho
  obtain rfl := Set.mem_singleton_iff.mp ho
  exact hgenuine

end Nerion
