import Nerion.Counting
import Nerion.Portable

/-!
# What honest validators produce is accepted (`ledger/src/chain.ts`, `ledger/src/portable.ts`)

A block is proposed by `propose` or, where every validator carries a VRF key, by `proposeVrf`;
validators sign it with `attest`. The verifier recomputes all of it from the header and the set.

* `Proposed` — what a proposer hands over: every check of the header, the leader and the
  signature passes on the chain it was proposed for. `propose_proposed` and
  `proposeVrf_proposed` establish it, the second one also in a round above zero, with its
  certificate;
* `Proposed.finalizes` — such a block is final once the attestations of it carry the threshold;
* `ledger_accepts_honest` — so `submit` appends it, and the proof exported from it convinces
  everybody who holds the set.
-/

namespace Nerion

/-- The names of validators are read back as the keys they were made of, and are in lower
case. -/
structure HexFaithful (X : Externals) : Prop where
  /-- the ledger's decoder undoes the encoder -/
  decode : ∀ b, hexToBytesLocal (X.bytesToHex b) = b
  /-- the encoder writes lower case -/
  lower : ∀ b, (X.bytesToHex b).toLower = X.bytesToHex b

/-- A VRF key: what the seed proves verifies under the public key. -/
def VrfGenuine (E : Ed25519) (seed publicKey : Bytes) : Prop :=
  ∀ alpha out, E.prove seed alpha = .ok out → E.verify publicKey alpha out.proof = some out.beta

section Proposals

variable (X : LedgerExternals) (L : LedgerConfig)

/-- What a proposer hands over for a chain, with the hash of the block. -/
structure Proposed (chain : List FinalizedBlock) (block : Block) (h : String) : Prop where
  hash : blockHash X block.header = .ok h
  /-- the suite is the ledger's -/
  suite : block.suite = L.suite
  /-- it is for the next height -/
  height : block.header.height = ledgerHeight chain
  /-- the header passes -/
  header : headerReasons block (headHash chain) ⟨some (ledgerHeight chain), some L.suite⟩ = []
  /-- the proposer may propose -/
  leader : leaderReasons X block L.set (headHash chain) L.finalityNum L.finalityDen = .ok []
  /-- the proposer has signed -/
  proposer : proposerReasons X block h = .ok []

variable {X L} {chain : List FinalizedBlock} {block : Block} {h payloadRoot : String}
  {timestamp : JsNum} {key : KeyPair} {entropy : Bytes → Bytes} {scheme : SignatureScheme}

theorem safeVerify_of_genuine {msg sig : Bytes} (hscheme : X.signerFor L.suite = .ok scheme)
    (hkey : key.Genuine scheme) {e : Bytes} (hsig : scheme.sign msg key.secretKey e = .ok sig) :
    safeVerify X L.suite sig msg key.publicKey = true := by
  have hok : ((X.signerFor L.suite).bind fun signer => signer.verify sig msg key.publicKey) =
      .ok true := Except.bind_ok hscheme (hkey msg e sig hsig)
  rw [safeVerify, hok]

variable {cert : Option ViewChangeCert}

/-- A header that the proposer has signed passes the check of its signature. -/
theorem proposerReasons_of_signHeader (hhex : HexFaithful X.toExternals) {header : BlockHeader}
    {sig : Bytes} {vrfProof : Option Bytes} (hscheme : X.signerFor L.suite = .ok scheme)
    (hkey : key.Genuine scheme) (hname : header.proposer = X.bytesToHex key.publicKey)
    (hsig : signHeader X L header key.secretKey entropy = .ok sig) :
    ∃ h, blockHash X header = .ok h ∧
      proposerReasons X ⟨header, sig, L.suite, vrfProof, cert⟩ h = .ok [] := by
  obtain ⟨signer, hsigner, hsig⟩ := Except.bind_eq_ok hsig
  obtain ⟨h, hh, hsig⟩ := Except.bind_eq_ok hsig
  obtain ⟨msg, hmsg, hsig⟩ := Except.bind_eq_ok hsig
  cases hscheme.symm.trans hsigner
  refine ⟨h, hh, Except.bind_ok hmsg ?_⟩
  rw [hname, hhex.decode, safeVerify_of_genuine hscheme hkey hsig]
  rfl

/-- The header checks, for the header a proposer writes. -/
theorem headerReasons_eq_nil {round : JsNum} {proposer : String} {vrfOutput : Option String}
    {sig : Bytes} {vrfProof : Option Bytes} (hsafe : round.isSafeInteger = true)
    (hround : JsNum.lt round 0 = false) :
    headerReasons ⟨⟨ledgerHeight chain, headHash chain, round, proposer, payloadRoot, timestamp,
        vrfOutput⟩, sig, L.suite, vrfProof, cert⟩ (headHash chain)
      ⟨some (ledgerHeight chain), some L.suite⟩ = [] := by
  have hself : JsNum.strictEq (ledgerHeight chain) (ledgerHeight chain) = true :=
    JsNum.strictEq_natCast.trans (decide_eq_true rfl)
  have hsuite : ((some L.suite).any fun s => decide (L.suite ≠ s)) = false := by simp
  have hheight : ((some (ledgerHeight chain)).any
      fun k => !JsNum.strictEq (ledgerHeight chain) k) = false := by simp [hself]
  have hprev : decide (headHash chain ≠ headHash chain) = false := by simp
  have hrange : (!round.isSafeInteger || JsNum.lt round 0) = false := by rw [hsafe, hround]; rfl
  simp only [headerReasons, WireNumber.toNum_num]
  rw [reasonIf_eq_nil.mpr hsuite, reasonIf_eq_nil.mpr hheight,
    reasonIf_eq_nil.mpr hprev, reasonIf_eq_nil.mpr hrange]
  rfl

/-- **`propose` hands over a block that passes**, in the canonical round of a set that is not in
VRF mode. -/
theorem propose_proposed (hhex : HexFaithful X.toExternals)
    (hscheme : X.signerFor L.suite = .ok scheme) (hkey : key.Genuine scheme)
    (hstake : 0 < totalStake L.set) (hvrf : vrfSet L.set = false)
    (hblock : propose X L chain payloadRoot (canonicalRound (ledgerHeight chain)) timestamp key
      entropy = .ok block) : ∃ h, Proposed X L chain block h := by
  obtain ⟨leader, hleader, hblock⟩ := Except.bind_eq_ok hblock
  split at hblock
  · cases hblock
  rename_i heq
  rw [not_not] at heq
  obtain ⟨sig, hsig, hblock⟩ := Except.bind_eq_ok hblock
  cases hblock
  obtain ⟨h, hh, hproposer⟩ := proposerReasons_of_signHeader hhex hscheme hkey rfl hsig
  refine ⟨h, hh, rfl, rfl, headerReasons_eq_nil ?_ ?_, ?_, hproposer⟩
  · change (0 : JsNum).isSafeInteger = true
    decide +kernel
  · change JsNum.lt 0 0 = false
    decide +kernel
  · rw [leaderReasons, if_neg (not_le.mpr hstake), hvrf, if_neg Bool.false_ne_true]
    dsimp only
    rw [Option.isSome_none, if_neg Bool.false_ne_true]
    refine Except.bind_ok hleader ?_
    have hround : JsNum.strictEq (canonicalRound (ledgerHeight chain))
        (canonicalRound (ledgerHeight chain)) = true :=
      (by decide +kernel : JsNum.strictEq 0 0 = true)
    simp [hround, reasonIf, heq]

/-- What `proposeVrf` went through when it returns a block. -/
theorem proposeVrf_eq_ok {round : JsNum} {vrfSecret : Bytes}
    (h : proposeVrf X L chain payloadRoot round timestamp key vrfSecret cert entropy = .ok block) :
    round.isSafeInteger = true ∧ JsNum.lt round 0 = false ∧ ∃ alpha out sig,
      vrfAlpha X (headHash chain) round = .ok alpha ∧ X.ed25519.prove vrfSecret alpha = .ok out ∧
      vrfLeaderEligible X L.set (X.bytesToHex key.publicKey) out.beta = .ok true ∧
      (JsNum.lt 0 round = true → verifyViewChangeCert X L.set L.suite (ledgerHeight chain)
        (headHash chain) (round - 1) cert L.finalityNum L.finalityDen = .ok true) ∧
      signHeader X L ⟨ledgerHeight chain, headHash chain, round, X.bytesToHex key.publicKey,
        payloadRoot, timestamp, some (X.bytesToHex out.beta)⟩ key.secretKey entropy = .ok sig ∧
      block = ⟨⟨ledgerHeight chain, headHash chain, round, X.bytesToHex key.publicKey,
        payloadRoot, timestamp, some (X.bytesToHex out.beta)⟩, sig, L.suite, some out.proof,
        cert⟩ := by
  rw [proposeVrf] at h
  split at h
  · cases h
  rename_i hround
  obtain ⟨hsafe, hround⟩ := not_or.mp hround
  obtain ⟨alpha, halpha, h⟩ := Except.bind_eq_ok h
  obtain ⟨out, hout, h⟩ := Except.bind_eq_ok h
  obtain ⟨eligible, heligible, h⟩ := Except.bind_eq_ok h
  split at h
  · cases h
  rename_i hel
  rw [(Bool.not_eq_false _).mp hel] at heligible
  refine ⟨(Bool.not_eq_false _).mp hsafe, (Bool.not_eq_true _).mp hround, alpha, out, ?_⟩
  -- a round above zero comes with its certificate
  by_cases hpos : JsNum.lt 0 round = true
  · simp only [hpos, if_true] at h
    obtain ⟨certified, hcert, h⟩ := Except.bind_eq_ok h
    split at h
    · cases h
    rename_i hcertified
    rw [(Bool.not_eq_false _).mp hcertified] at hcert
    obtain ⟨sig, hsig, h⟩ := Except.bind_eq_ok h
    exact ⟨sig, halpha, hout, heligible, fun _ => hcert, hsig, (Except.ok.inj h).symm⟩
  · simp only [hpos] at h
    obtain ⟨_, hcert, h⟩ := Except.bind_eq_ok h
    cases hcert
    obtain ⟨sig, hsig, h⟩ := Except.bind_eq_ok h
    exact ⟨sig, halpha, hout, heligible, fun hlt => absurd hlt hpos, hsig, (Except.ok.inj h).symm⟩

/-- **`proposeVrf` hands over a block that passes**, in VRF mode, when the set lists the VRF key
of the proposer's seed. -/
theorem proposeVrf_proposed (hhex : HexFaithful X.toExternals)
    (hscheme : X.signerFor L.suite = .ok scheme) (hkey : key.Genuine scheme)
    (hstake : 0 < totalStake L.set) (hvrf : vrfSet L.set = true) {round : JsNum} {vrfSecret : Bytes}
    {listed : String}
    (hlisted : (L.set.validators.find? fun v => decide (v.pubkey = X.bytesToHex key.publicKey)).bind
      (·.vrfPubkey) = some listed)
    (hgenuine : VrfGenuine X.ed25519 vrfSecret (hexToBytesLocal listed))
    (hblock : proposeVrf X L chain payloadRoot round timestamp key vrfSecret cert entropy =
      .ok block) : ∃ h, Proposed X L chain block h := by
  obtain ⟨hsafe, hround, alpha, out, sig, halpha, hout, heligible, hcert, hsig, rfl⟩ :=
    proposeVrf_eq_ok hblock
  obtain ⟨h, hh, hproposer⟩ := proposerReasons_of_signHeader hhex hscheme hkey rfl hsig
  refine ⟨h, hh, rfl, rfl, headerReasons_eq_nil hsafe hround, ?_, hproposer⟩
  rw [leaderReasons, if_neg (not_le.mpr hstake), hvrf, if_pos rfl]
  dsimp only
  refine Except.bind_ok (a := []) ?_ (Except.bind_ok (a := []) ?_ rfl)
  · -- the certificate the proposer checked is the one the verifier checks
    rw [viewChangeReasons]
    split
    · rename_i hpos
      exact Except.bind_ok (hcert hpos) rfl
    · rfl
  · rw [drawReasons]
    dsimp only
    rw [hlisted]
    refine Except.bind_ok halpha ?_
    rw [hgenuine alpha out hout]
    dsimp only
    rw [Option.getD_some, hhex.lower, if_neg (not_not.mpr rfl)]
    exact Except.bind_ok heligible rfl

/-- What a validator attests counts for the block. -/
theorem attest_verifies (hhex : HexFaithful X.toExternals)
    (hscheme : X.signerFor L.suite = .ok scheme) (hkey : key.Genuine scheme) {a : Attestation}
    (ha : attest X L block key entropy = .ok a) : verifyAttestationSig X a L.set = .ok true := by
  obtain ⟨h, hh, ha⟩ := Except.bind_eq_ok ha
  obtain ⟨signer, hsigner, ha⟩ := Except.bind_eq_ok ha
  obtain ⟨setId, hid, ha⟩ := Except.bind_eq_ok ha
  obtain ⟨msg, hmsg, ha⟩ := Except.bind_eq_ok ha
  obtain ⟨sig, hsig, ha⟩ := Except.bind_eq_ok ha
  cases ha
  cases hscheme.symm.trans hsigner
  refine Except.bind_ok hid (Except.bind_ok hmsg ?_)
  rw [hhex.decode, safeVerify_of_genuine hscheme hkey hsig]

/-- **A proposed block is final once the attestations of it carry the threshold**, in whatever
order and however often they are listed. -/
theorem Proposed.finalizes (hb : Proposed X L chain block h) (hset : L.set.WellFormed)
    (hstake : 0 < totalStake L.set)
    (hthreshold : validThreshold L.finalityNum L.finalityDen = true) {setId : String}
    (hid : consensusSetId X L.set = .ok setId) {atts : List Attestation}
    (hbound : atts.length ≤ maxAttestations L.set)
    (hatts : ∀ a ∈ atts, a.blockHash = h ∧ a.height = block.header.height ∧ a.suite = L.suite ∧
      verifyAttestationSig X a L.set = .ok true)
    (hmet : L.finalityNum.toInt * totalStake L.set ≤
      (∑ v ∈ L.set.pubkeys.filter (· ∈ atts.map (·.validator)), stakeOf L.set v) *
        L.finalityDen.toInt) :
    ∃ t, Finalizes X block atts L.set (headHash chain) L.finalityNum L.finalityDen
      ⟨some (ledgerHeight chain), some L.suite⟩ h setId t := by
  have hrelevant : ∀ a ∈ atts, attests block h ⟨some (ledgerHeight chain), some L.suite⟩ a =
      true := by
    intro a ha
    obtain ⟨hhash, hheight, hsuite, -⟩ := hatts a ha
    refine attests_iff.mpr ⟨hhash, JsNum.strictEq_iff.mpr ⟨?_, hheight⟩,
      hsuite.trans hb.suite.symm, fun s hs => hsuite.trans (Option.some.inj hs)⟩
    rw [hheight, hb.height, ledgerHeight, JsNum.natCast_def]
    nofun
  obtain ⟨t, ht⟩ : ∃ t, (finalityPoll X L.set block h
      ⟨some (ledgerHeight chain), some L.suite⟩).count L.set atts = .ok t :=
    exists_tally_eq_ok _ fun a ha _ => ⟨true, (hatts a ha).2.2.2⟩
  -- every entry is good, so each validator's first one is
  have hall : t.stake = ∑ v ∈ L.set.pubkeys.filter (· ∈ atts.map (·.validator)),
      stakeOf L.set v := by
    have hun : (finalityPoll X L.set block h
        ⟨some (ledgerHeight chain), some L.suite⟩).Unshadowed L.set atts := by
      intro v _ hsup
      obtain ⟨a, ha, hrel, hval, -⟩ := Poll.supports_iff.mp hsup
      have hsome : (firstVote (attests block h ⟨some (ledgerHeight chain), some L.suite⟩)
          (·.validator) atts v).isSome = true :=
        List.find?_isSome.mpr ⟨a, ha, Bool.and_eq_true_iff.mpr ⟨hrel, decide_eq_true hval⟩⟩
      obtain ⟨first, hfirst⟩ := Option.isSome_iff_exists.mp hsome
      exact ⟨first, hfirst, (hatts first (firstVote_eq_some hfirst).1).2.2.2⟩
    rw [(Poll.count_stake_eq_iff ht).mpr hun, Poll.support]
    refine Finset.sum_congr (Finset.filter_congr fun v _ => ?_) fun _ _ => rfl
    rw [Poll.supports_iff, List.mem_map]
    constructor
    · rintro ⟨a, ha, -, hval, -⟩
      exact ⟨a, ha, hval⟩
    · rintro ⟨a, ha, hval⟩
      exact ⟨a, ha, hrelevant a ha, hval, (hatts a ha).2.2.2⟩
  exact ⟨t, hb.hash, hbound, hid, hb.header, hb.leader, hb.proposer,
    (tallyAttestations_eq hid atts).trans ht, hthreshold, hset, hstake, hall ▸ hmet⟩

end Proposals

/-! ## The two ways to propose, and attesting -/

section Honest

variable (X : LedgerExternals) (L : LedgerConfig) (scheme : SignatureScheme)

/-- A block that a key holder got from the ledger. -/
inductive HonestProposal (chain : List FinalizedBlock) : Block → Prop
  /-- from `propose`, in the canonical round -/
  | sortition {payloadRoot : String} {timestamp : JsNum} {key : KeyPair} {entropy : Bytes → Bytes}
      {block : Block} (hvrf : vrfSet L.set = false) (hkey : key.Genuine scheme)
      (hblock : propose X L chain payloadRoot (canonicalRound (ledgerHeight chain)) timestamp key
        entropy = .ok block) : HonestProposal chain block
  /-- from `proposeVrf`, in any round, with a seed whose public key the set lists -/
  | vrf {payloadRoot listed : String} {round timestamp : JsNum} {key : KeyPair}
      {vrfSecret : Bytes} {cert : Option ViewChangeCert} {entropy : Bytes → Bytes} {block : Block}
      (hvrf : vrfSet L.set = true) (hkey : key.Genuine scheme)
      (hlisted : (L.set.validators.find?
        fun v => decide (v.pubkey = X.bytesToHex key.publicKey)).bind (·.vrfPubkey) = some listed)
      (hgenuine : VrfGenuine X.ed25519 vrfSecret (hexToBytesLocal listed))
      (hblock : proposeVrf X L chain payloadRoot round timestamp key vrfSecret cert entropy =
        .ok block) : HonestProposal chain block

/-- An attestation that a key holder got from the ledger. -/
def HonestAttestation (block : Block) (a : Attestation) : Prop :=
  ∃ key entropy, KeyPair.Genuine key scheme ∧ attest X L block key entropy = .ok a

variable {X L scheme}

theorem HonestProposal.proposed {chain : List FinalizedBlock} {block : Block}
    (hb : HonestProposal X L scheme chain block) (hhex : HexFaithful X.toExternals)
    (hscheme : X.signerFor L.suite = .ok scheme) (hstake : 0 < totalStake L.set) :
    ∃ h, Proposed X L chain block h := by
  cases hb with
  | sortition hvrf hkey hblock => exact propose_proposed hhex hscheme hkey hstake hvrf hblock
  | vrf hvrf hkey hlisted hgenuine hblock =>
    exact proposeVrf_proposed hhex hscheme hkey hstake hvrf hlisted hgenuine hblock

end Honest

/-- The verifier of portable proofs is the ledger's, where the epochs do not differ. -/
theorem verifyPortableFinality_export {X : LedgerExternals} {block : Block}
    {atts : List Attestation} {prev : String} {num den : JsNum} {epoch : Option JsNum}
    {set : ValidatorSet} {expect : VerifyOpts}
    (hepoch : ∀ e e', epoch = some e → set.epoch = some e' → JsNum.strictEq e e' = true) :
    verifyPortableFinality X (exportFinalityProof block atts prev (some num) (some den) epoch) set
      expect = verifyFinalized X block atts set prev num den expect := by
  have hmatch : epochMismatch (exportFinalityProof block atts prev (some num) (some den) epoch)
      set = none := by
    rw [epochMismatch, exportFinalityProof]
    rcases epoch with _ | e
    · rfl
    · rcases hset : set.epoch with _ | e'
      · rfl
      · exact if_pos (hepoch e e' rfl hset)
  rw [verifyPortableFinality, hmatch]
  rfl

/-- **What honest validators produce is accepted.** A block that the ledger handed to its
proposer, by sortition or by VRF and then in whatever round, with any list within the bound of
attestations that the ledger handed to validators: when the validators named in the list hold
the threshold, `submit` appends the block, and the finality proof exported from it verifies for
everybody who holds the set. -/
theorem ledger_accepts_honest {X : LedgerExternals} {L : LedgerConfig} {scheme : SignatureScheme}
    {chain : List FinalizedBlock} {block : Block} {atts : List Attestation}
    {epoch : Option JsNum} (hhex : HexFaithful X.toExternals)
    (hscheme : X.signerFor L.suite = .ok scheme) (hset : L.set.WellFormed)
    (hstake : 0 < totalStake L.set)
    (hthreshold : validThreshold L.finalityNum L.finalityDen = true)
    (hblock : HonestProposal X L scheme chain block)
    (hatts : ∀ a ∈ atts, HonestAttestation X L scheme block a)
    (hbound : atts.length ≤ maxAttestations L.set)
    (hmet : L.finalityNum.toInt * totalStake L.set ≤
      (∑ v ∈ L.set.pubkeys.filter (· ∈ atts.map (·.validator)), stakeOf L.set v) *
        L.finalityDen.toInt)
    (hepoch : ∀ e e', epoch = some e → L.set.epoch = some e' → JsNum.strictEq e e' = true) :
    (∃ fb, submit X L chain block atts = .ok (fb, chain ++ [fb]) ∧ fb.block = block ∧
      fb.attestations = atts) ∧
    ∃ v, verifyPortableFinality X (exportFinalityProof block atts (headHash chain)
        (some L.finalityNum) (some L.finalityDen) epoch) L.set
        ⟨some (ledgerHeight chain), some L.suite⟩ = .ok v ∧ v.finalized = true := by
  obtain ⟨h, hproposed⟩ := hblock.proposed hhex hscheme hstake
  -- the threshold is positive, so somebody attested
  obtain ⟨first, hfirst⟩ : ∃ a, a ∈ atts := by
    refine List.exists_mem_of_ne_nil _ fun hnil => ?_
    obtain ⟨n, d, hn, -, hpos, -⟩ := exists_natCast_of_validThreshold hthreshold
    rw [hnil, List.map_nil, Finset.filter_false_of_mem fun v _ => List.not_mem_nil,
      Finset.sum_empty, zero_mul, hn, JsNum.toInt_natCast] at hmet
    exact absurd hmet (not_le.mpr (mul_pos (by exact_mod_cast hpos) hstake))
  obtain ⟨setId, hid⟩ : ∃ setId, consensusSetId X L.set = .ok setId := by
    obtain ⟨key, entropy, -, ha⟩ := hatts first hfirst
    obtain ⟨_, -, ha⟩ := Except.bind_eq_ok ha
    obtain ⟨_, -, ha⟩ := Except.bind_eq_ok ha
    obtain ⟨setId, hid, -⟩ := Except.bind_eq_ok ha
    exact ⟨setId, hid⟩
  obtain ⟨t, hf⟩ := hproposed.finalizes hset hstake hthreshold hid hbound (fun a ha => by
    obtain ⟨key, entropy, hkey, ha⟩ := hatts a ha
    obtain ⟨hhash, hheight, -, hsuite⟩ := attest_eq_ok ha
    exact ⟨Except.ok.inj (hhash.symm.trans hproposed.hash), hheight, hsuite,
      attest_verifies hhex hscheme hkey ha⟩) hmet
  constructor
  · obtain ⟨⟨fb, chain'⟩, hsubmit⟩ := submit_of_finalizes hf
    obtain ⟨rfl, hfb, hatts', -⟩ := submit_eq_ok hsubmit
    exact ⟨fb, hsubmit, hfb, hatts'⟩
  · obtain ⟨v, hv, hfin⟩ := verifyFinalized_finalized_iff.mpr ⟨h, setId, t, hf⟩
    exact ⟨v, (verifyPortableFinality_export hepoch).trans hv, hfin⟩

/-! ## A ledger with one validator -/

theorem toLower_hexText (b : Bytes) : (hexText b).toLower = hexText b := by
  have hdigit : ∀ n : Fin 16, (Nat.digitChar n).toLower = Nat.digitChar n := by decide
  have hpair : ∀ x : UInt8, (hexPair x).map Char.toLower = hexPair x := by
    intro x
    have hlt := x.toNat_lt
    simp only [hexPair, List.map_cons, List.map_nil,
      hdigit ⟨x.toNat / 16, by omega⟩, hdigit ⟨x.toNat % 16, by omega⟩]
  refine String.toList_injective ?_
  change ((hexText b).map Char.toLower).toList = (hexText b).toList
  rw [String.toList_map, hexText, String.toList_ofList, List.map_flatMap]
  exact congrArg List.flatten (List.map_congr_left fun x _ => hpair x)

theorem hexFaithful_checksum : HexFaithful checksumExternals.toExternals :=
  ⟨hexToBytesLocal_hexText, toLower_hexText⟩

/-- A key that is its own public half. -/
theorem genuine_symbolic (key : Bytes) : KeyPair.Genuine ⟨key, key⟩ symbolicSigner := by
  intro message entropy sig h
  cases h
  exact congrArg Except.ok (decide_eq_true rfl)

/-- The sole validator proposes. -/
theorem propose_pairBlock : propose checksumExternals pairLedger [] "00"
    (canonicalRound (ledgerHeight [])) 0 ⟨[0], [0]⟩ id = .ok pairBlock := by
  have hleader : selectLeader checksumExternals pairLedger.set (headHash []) 0 = .ok "00" := by
    decide +kernel
  have hname : checksumExternals.bytesToHex [0] = "00" := by decide +kernel
  have hsig : signHeader checksumExternals pairLedger pairBlock.header [0] id =
      .ok pairBlock.proposerSig := by decide +kernel
  refine Except.bind_ok hleader ?_
  rw [hname, if_neg (not_not.mpr rfl)]
  exact Except.bind_ok hsig rfl

/-- `ledger_accepts_honest` for its block and its attestation, listed twice. -/
theorem ledger_accepts_honest_sole :
    ∃ fb, submit checksumExternals pairLedger [] pairBlock [pairAttestation, pairAttestation] =
      .ok (fb, [fb]) ∧ fb.block = pairBlock := by
  have hattest : attest checksumExternals pairLedger pairBlock ⟨[0], [0]⟩ id =
      .ok pairAttestation := by decide +kernel
  have hatts : ∀ a ∈ [pairAttestation, pairAttestation],
      HonestAttestation checksumExternals pairLedger symbolicSigner pairBlock a := by
    intro a ha
    obtain rfl : a = pairAttestation := (List.mem_pair.mp ha).elim id id
    exact ⟨_, id, genuine_symbolic [0], hattest⟩
  have hepoch : ∀ e e', (none : Option JsNum) = some e → pairLedger.set.epoch = some e' →
      JsNum.strictEq e e' = true := nofun
  obtain ⟨⟨fb, hsubmit, hfb, -⟩, -⟩ := ledger_accepts_honest hexFaithful_checksum
    (Externals.signerFor_of_active _ (by decide))
    (ValidatorSet.isWellFormedStakeSet_iff.mp (by decide)) (by decide) (by decide +kernel)
    (.sortition (by decide) (genuine_symbolic [0]) propose_pairBlock) hatts (by decide)
    (by decide +kernel) hepoch
  exact ⟨fb, hsubmit, hfb⟩

end Nerion
