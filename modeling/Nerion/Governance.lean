import Nerion.FirstValid
import Nerion.MerkleSound
import Nerion.Symbolic

/-!
# Quorum governance (`governance/src/types.ts`, `governance/src/quorum.ts`)

A proposal is enacted when enough distinct members of a quorum have approved it, each with a
signature over the proposal, the id of the quorum and the suite. Approvals may come from anybody
in any order; verifying one is expensive, so the loop over them has a budget.

* `verifyApproval_iff` — what an accepted approval is;
* `enact_sound` — an enacted proposal was approved by that many members, and by nobody for
  anything else;
* `enact_iff_within_budget` — it is enacted exactly when the approvals within the budget suffice;
* `enact_flooded` — approvals that are not signed, in the name of any member, use the budget up.
-/

namespace Nerion

inductive ProposalKind where
  /-- `'revoke'` -/
  | revoke
  /-- `'rotate'` -/
  | rotate
  /-- `'upgrade'` -/
  | upgrade
  /-- `'param'` -/
  | param
  deriving DecidableEq

/-- The text of a kind. -/
def ProposalKind.text : ProposalKind → String
  | revoke => "revoke"
  | rotate => "rotate"
  | upgrade => "upgrade"
  | param => "param"

structure Proposal where
  id : String
  /-- the kind of action -/
  kind : ProposalKind
  /-- what it acts on -/
  target : String
  /-- the detail -/
  payload : String
  /-- start of the window -/
  notBefore : JsNum
  /-- end of the window -/
  notAfter : JsNum
  nonce : String
  deriving DecidableEq

structure Quorum where
  /-- hex public keys of the members -/
  members : List String
  /-- approvals required -/
  threshold : JsNum
  deriving DecidableEq

structure Approval where
  proposalId : String
  /-- hex public key of the signer -/
  signer : String
  /-- the suite of the signature -/
  suite : String
  /-- the signature -/
  sig : Bytes
  deriving DecidableEq

structure EnactmentResult where
  /-- whether the proposal is enacted -/
  enacted : Bool
  /-- distinct members with a valid approval -/
  validApprovals : ℕ
  /-- why it is not -/
  reasons : List String
  deriving DecidableEq

section Model

variable (X : Externals)

/-- `[...quorum.members].sort()`, by code units. -/
def sortedMembers (quorum : Quorum) : List String :=
  quorum.members.insertionSort fun a b => jsLt b a = false

/-- What `quorumId` encodes. -/
def quorumCbor (quorum : Quorum) : Cbor :=
  .array [.text "polarseek-gov-v1", .text "quorum",
    .array ((sortedMembers quorum).map .text), .num quorum.threshold]

def quorumId (quorum : Quorum) : Except JsError String := do
  let bytes ← X.encodeCanonical (quorumCbor quorum)
  .ok (X.bytesToHex (X.digest bytes))

/-- What `proposalBytes` encodes. -/
def proposalCbor (p : Proposal) (qid suite : String) : Cbor :=
  .array [.text "polarseek-gov-v1", .text p.id, .text p.kind.text, .text p.target, .text p.payload,
    .num p.notBefore, .num p.notAfter, .text p.nonce, .text qid, .text suite]

def proposalBytes (p : Proposal) (qid suite : String) : Except JsError Bytes :=
  X.encodeCanonical (proposalCbor p qid suite)

/-- The message of an approval: `proposalBytes(p, quorumId(quorum), suite)`. -/
def approvalMessage (p : Proposal) (quorum : Quorum) (suite : String) : Except JsError Bytes := do
  let qid ← quorumId X quorum
  proposalBytes X p qid suite

def approve (p : Proposal) (suite : String) (publicKey secretKey : Bytes) (quorum : Quorum)
    (entropy : Bytes) : Except JsError Approval := do
  let signer ← X.signerFor suite
  let msg ← approvalMessage X p quorum suite
  let sig ← signer.sign msg secretKey entropy
  .ok ⟨p.id, X.bytesToHex publicKey, suite, sig⟩

/-- The verification inside `verifyApproval`, which may throw. -/
def checkApproval (p : Proposal) (a : Approval) (quorum : Quorum) : Except JsError Bool := do
  let signer ← X.signerFor a.suite
  let msg ← approvalMessage X p quorum a.suite
  let key ← X.hexToBytes a.signer
  signer.verify a.sig msg key

def verifyApproval (p : Proposal) (a : Approval) (quorum : Quorum) : Bool :=
  if a.proposalId ≠ p.id then false
  else
    match checkApproval X p a quorum with
    | .ok valid => valid
    | .error _ => false

/-- The reason from the clock and the window, if there is one. -/
def windowReasons (p : Proposal) (now : JsNum) : List String :=
  if !now.isSafeInteger then ["enactment clock is non-finite or unsafe"]
  else if !p.notBefore.isSafeInteger || !p.notAfter.isSafeInteger ||
      JsNum.lt p.notAfter p.notBefore then
    ["proposal validity window is malformed (non-finite or inverted bounds)"]
  else if JsNum.lt now p.notBefore || JsNum.lt p.notAfter now then
    ["proposal is outside its validity window"]
  else []

/-- Whether the threshold is one. -/
def isThreshold (threshold : JsNum) : Bool := threshold.isInteger && JsNum.le 1 threshold

/-- The reason from the threshold, if there is one. -/
def quorumReasons (quorum : Quorum) : List String :=
  if !quorum.threshold.isInteger || JsNum.lt quorum.threshold 1 then
    ["quorum threshold must be a positive integer"]
  else []

/-- The `threshold` of the loop. -/
def loopThreshold (quorum : Quorum) : JsNum :=
  if isThreshold quorum.threshold then quorum.threshold else .posInf

def maxVerifies (quorum : Quorum) : ℕ := max (quorum.members.length * 4) 256

/-- `distinctValid`, after the loop. -/
def distinctValid (p : Proposal) (approvals : List Approval) (quorum : Quorum) : List String :=
  firstValidWithin (fun s => decide (s ∈ quorum.members)) (·.signer)
    (fun a => verifyApproval X p a quorum)
    (fun size => JsNum.le (loopThreshold quorum) (size : JsNum)) (maxVerifies quorum) [] 0 approvals

/-- The reason from the count, if there is one. -/
def countReasons (quorum : Quorum) (n : ℕ) : List String :=
  if JsNum.lt (n : JsNum) quorum.threshold then
    ["need " ++ quorum.threshold.text ++ " approvals, have " ++ toString n]
  else []

def enact (p : Proposal) (approvals : List Approval) (quorum : Quorum) (now : JsNum) :
    EnactmentResult :=
  let n := (distinctValid X p approvals quorum).length
  let reasons := windowReasons p now ++ quorumReasons quorum ++ countReasons quorum n
  ⟨reasons.isEmpty, n, reasons⟩

end Model

/-! ## Windows and thresholds -/

/-- `now` is in the window of the proposal, which is well-formed. -/
structure InWindow (p : Proposal) (now : JsNum) : Prop where
  /-- the clock is a safe integer -/
  now_safe : now.isSafeInteger = true
  /-- the start is a safe integer -/
  notBefore_safe : p.notBefore.isSafeInteger = true
  /-- the end is a safe integer -/
  notAfter_safe : p.notAfter.isSafeInteger = true
  /-- the window has started -/
  started : JsNum.le p.notBefore now = true
  /-- the window has not ended -/
  not_ended : JsNum.le now p.notAfter = true

theorem windowReasons_eq_nil {p : Proposal} {now : JsNum} :
    windowReasons p now = [] ↔ InWindow p now := by
  rw [windowReasons]
  refine ⟨fun h => ?_, fun h => ?_⟩
  · split at h
    · cases h
    rename_i hnow
    split at h
    · cases h
    rename_i hbounds
    split at h
    · cases h
    rename_i hwithin
    simp only [Bool.or_eq_true, Bool.not_eq_true', not_or, Bool.not_eq_false,
      Bool.not_eq_true] at hnow hbounds hwithin
    obtain ⟨⟨hbefore, hafter⟩, -⟩ := hbounds
    exact ⟨hnow, hbefore, hafter, JsNum.le_of_isSafeInteger hbefore hnow hwithin.1,
      JsNum.le_of_isSafeInteger hnow hafter hwithin.2⟩
  · have hordered := JsNum.not_lt_of_le (JsNum.le_trans h.started h.not_ended)
    simp [h.now_safe, h.notBefore_safe, h.notAfter_safe, hordered, JsNum.not_lt_of_le h.started,
      JsNum.not_lt_of_le h.not_ended]

/-- A threshold is a natural number. -/
theorem exists_threshold {threshold : JsNum} (h : isThreshold threshold = true) :
    ∃ t : ℕ, 1 ≤ t ∧ threshold = t := by
  obtain ⟨hint, hone⟩ := Bool.and_eq_true_iff.mp h
  exact JsNum.exists_natCast_of_one_le hint hone

theorem quorumReasons_eq_nil {quorum : Quorum} :
    quorumReasons quorum = [] ↔ isThreshold quorum.threshold = true := by
  rw [quorumReasons, isThreshold]
  cases hint : quorum.threshold.isInteger with
  | false => simp
  | true => simp [JsNum.one_le_iff hint]

theorem countReasons_eq_nil {quorum : Quorum} {t n : ℕ} (h : quorum.threshold = t) :
    countReasons quorum n = [] ↔ t ≤ n := by
  rw [countReasons, h, JsNum.lt_natCast]
  by_cases hlt : n < t
  · simp [hlt]
  · simp [not_lt.mp hlt]

/-! ## Approvals -/

section Approvals

variable {X : Externals} {p : Proposal} {quorum : Quorum}

/-- The signature of an approval verifies over `msg`, the message for this proposal, this quorum
and the suite of the approval. -/
structure ApprovalEvidence (X : Externals) (p : Proposal) (quorum : Quorum) (a : Approval)
    (msg : Bytes) : Prop where
  message : approvalMessage X p quorum a.suite = .ok msg
  /-- the signature verifies -/
  verifies : ∃ signer key, X.signerFor a.suite = .ok signer ∧ X.hexToBytes a.signer = .ok key ∧
    signer.verify a.sig msg key = .ok true

/-- **What an accepted approval is**: it names the proposal, and its signature verifies. -/
theorem verifyApproval_iff {a : Approval} : verifyApproval X p a quorum = true ↔
    a.proposalId = p.id ∧ ∃ msg, ApprovalEvidence X p quorum a msg := by
  rw [verifyApproval]
  refine ⟨fun h => ?_, ?_⟩
  · split at h
    · cases h
    rename_i hid
    refine ⟨not_not.mp hid, ?_⟩
    cases hcheck : checkApproval X p a quorum with
    | error e =>
      rw [hcheck] at h
      cases h
    | ok valid =>
      rw [hcheck] at h
      obtain rfl : valid = true := h
      obtain ⟨signer, hsigner, hcheck⟩ := Except.bind_eq_ok hcheck
      obtain ⟨msg, hmsg, hcheck⟩ := Except.bind_eq_ok hcheck
      obtain ⟨key, hkey, hverify⟩ := Except.bind_eq_ok hcheck
      exact ⟨msg, hmsg, signer, key, hsigner, hkey, hverify⟩
  · rintro ⟨hid, msg, hmsg, signer, key, hsigner, hkey, hverify⟩
    have hcheck : checkApproval X p a quorum = .ok true :=
      Except.bind_ok hsigner (Except.bind_ok hmsg (Except.bind_ok hkey hverify))
    rw [if_neg (not_not.mpr hid), hcheck]

/-- An approval that a member made. -/
structure MadeApproval where
  /-- the member -/
  signer : String
  proposal : Proposal
  quorum : Quorum
  suite : String

/-- The encoder tells apart the quorums and proposals at hand. It normalises texts, so that it need
not do so for all of them. -/
structure EncodesApprovals (X : Externals) (p : Proposal) (quorum : Quorum)
    (approvals : List Approval) (made : List MadeApproval) : Prop where
  /-- this quorum, and those of the approvals that were made -/
  quorums : ∀ q ∈ made.map (·.quorum), ∀ b, X.encodeCanonical (quorumCbor quorum) = .ok b →
    X.encodeCanonical (quorumCbor q) = .ok b → quorumCbor q = quorumCbor quorum
  /-- this proposal with the suite of an approval, and what was approved -/
  proposals : ∀ a ∈ approvals, ∀ e ∈ made, ∀ d d' b,
    X.encodeCanonical (proposalCbor p (X.bytesToHex d) a.suite) = .ok b →
    X.encodeCanonical (proposalCbor e.proposal (X.bytesToHex d') e.suite) = .ok b →
    proposalCbor e.proposal (X.bytesToHex d') e.suite = proposalCbor p (X.bytesToHex d) a.suite

/-- The byte strings that are hashed to the ids of the quorums. -/
def quorumInputs (X : Externals) (quorums : List Quorum) : List Bytes :=
  quorums.filterMap fun q => (X.encodeCanonical (quorumCbor q)).toOption

/-- Nobody forged a signature: the message over which an approval of the list verifies is one
that its signer signed. -/
def UnforgedApprovals (X : Externals) (p : Proposal) (quorum : Quorum) (approvals : List Approval)
    (made : List MadeApproval) : Prop :=
  ∀ a ∈ approvals, ∀ msg, ApprovalEvidence X p quorum a msg →
    ∃ e ∈ made, e.signer = a.signer ∧ approvalMessage X e.proposal e.quorum e.suite = .ok msg

theorem ProposalKind.text_injective : Function.Injective ProposalKind.text := by
  intro a b h
  cases a <;> cases b <;> first | rfl | exact absurd h (by decide)

theorem proposal_inj {p p' : Proposal} (hid : p.id = p'.id) (hkind : p.kind.text = p'.kind.text)
    (htarget : p.target = p'.target) (hpayload : p.payload = p'.payload)
    (hbefore : p.notBefore = p'.notBefore) (hafter : p.notAfter = p'.notAfter)
    (hnonce : p.nonce = p'.nonce) : p = p' := by
  have hkind := ProposalKind.text_injective hkind
  cases p
  cases p'
  simp_all

theorem quorumId_eq_ok {qid : String} (h : quorumId X quorum = .ok qid) :
    ∃ bytes, X.encodeCanonical (quorumCbor quorum) = .ok bytes ∧
      qid = X.bytesToHex (X.digest bytes) := by
  obtain ⟨bytes, hbytes, h⟩ := Except.bind_eq_ok h
  exact ⟨bytes, hbytes, (Except.ok.inj h).symm⟩

theorem sortedMembers_perm (quorum : Quorum) : (sortedMembers quorum).Perm quorum.members :=
  List.perm_insertionSort _ _

/-- **The message fixes what is approved**: the proposal, the members up to order, the threshold
and the suite. -/
theorem approvalMessage_inj {approvals : List Approval} {made : List MadeApproval}
    (hencode : EncodesApprovals X p quorum approvals made) (hhex : Function.Injective X.bytesToHex)
    (hc : CollisionFree X.digest (quorumInputs X (quorum :: made.map (·.quorum)))) {a : Approval}
    (ha : a ∈ approvals) {e : MadeApproval} (he : e ∈ made) {msg : Bytes}
    (h : approvalMessage X p quorum a.suite = .ok msg)
    (h' : approvalMessage X e.proposal e.quorum e.suite = .ok msg) :
    e.proposal = p ∧ e.quorum.members.Perm quorum.members ∧
      e.quorum.threshold = quorum.threshold ∧ e.suite = a.suite := by
  obtain ⟨qid, hqid, h⟩ := Except.bind_eq_ok h
  obtain ⟨qid', hqid', h'⟩ := Except.bind_eq_ok h'
  obtain ⟨bytes, hbytes, rfl⟩ := quorumId_eq_ok hqid
  obtain ⟨bytes', hbytes', rfl⟩ := quorumId_eq_ok hqid'
  have hfields := hencode.proposals a ha e he _ _ _ h h'
  simp only [proposalCbor, Cbor.array.injEq, List.cons.injEq, Cbor.text.injEq, Cbor.num.injEq,
    true_and, and_true] at hfields
  obtain ⟨hid, hkind, htarget, hpayload, hbefore, hafter, hnonce, hhash, hsuite⟩ := hfields
  have hmem : e.quorum ∈ made.map (·.quorum) := List.mem_map_of_mem he
  have hinput : ∀ {q : Quorum} {b : Bytes}, q ∈ quorum :: made.map (·.quorum) →
      X.encodeCanonical (quorumCbor q) = .ok b →
      b ∈ quorumInputs X (quorum :: made.map (·.quorum)) := by
    intro q b hq hb
    exact List.mem_filterMap.mpr ⟨q, hq, by rw [hb]; rfl⟩
  obtain rfl := hc _ (hinput (List.mem_cons_of_mem _ hmem) hbytes') _
    (hinput List.mem_cons_self hbytes) (hhex hhash)
  have hquorum := hencode.quorums _ hmem _ hbytes hbytes'
  simp only [quorumCbor, Cbor.array.injEq, List.cons.injEq, Cbor.num.injEq, true_and,
    and_true] at hquorum
  have hsorted : sortedMembers e.quorum = sortedMembers quorum :=
    List.map_injective_iff.mpr (fun _ _ => Cbor.text.inj) hquorum.1
  have hperm : e.quorum.members.Perm quorum.members := by
    refine (sortedMembers_perm e.quorum).symm.trans ?_
    rw [hsorted]
    exact sortedMembers_perm quorum
  exact ⟨proposal_inj hid hkind htarget hpayload hbefore hafter hnonce, hperm, hquorum.2, hsuite⟩

/-- An approval that is accepted was made for this proposal, this quorum and its own suite. -/
theorem made_of_verifyApproval {approvals : List Approval} {made : List MadeApproval}
    (hencode : EncodesApprovals X p quorum approvals made) (hhex : Function.Injective X.bytesToHex)
    (hc : CollisionFree X.digest (quorumInputs X (quorum :: made.map (·.quorum))))
    (hsigs : UnforgedApprovals X p quorum approvals made) {a : Approval} (ha : a ∈ approvals)
    (h : verifyApproval X p a quorum = true) :
    ∃ e ∈ made, e.signer = a.signer ∧ e.proposal = p ∧ e.quorum.members.Perm quorum.members ∧
      e.quorum.threshold = quorum.threshold ∧ e.suite = a.suite := by
  obtain ⟨-, msg, hev⟩ := verifyApproval_iff.mp h
  obtain ⟨e, he, hsigner, hmade⟩ := hsigs a ha msg hev
  exact ⟨e, he, hsigner, approvalMessage_inj hencode hhex hc ha he hev.message hmade⟩

end Approvals

/-! ## Enactment -/

section Enactment

variable {X : Externals} {p : Proposal} {approvals : List Approval} {quorum : Quorum} {now : JsNum}

theorem enacted_iff : (enact X p approvals quorum now).enacted = true ↔
    InWindow p now ∧ isThreshold quorum.threshold = true ∧
      quorum.threshold.toInt ≤ (distinctValid X p approvals quorum).length := by
  have hempty : (enact X p approvals quorum now).enacted = true ↔ (windowReasons p now = [] ∧
      quorumReasons quorum = []) ∧
        countReasons quorum (distinctValid X p approvals quorum).length = [] := by
    rw [← List.append_eq_nil_iff, ← List.append_eq_nil_iff]
    exact List.isEmpty_iff
  rw [hempty, windowReasons_eq_nil, quorumReasons_eq_nil, and_assoc]
  refine and_congr_right fun _ => and_congr_right fun hthreshold => ?_
  obtain ⟨t, -, ht⟩ := exists_threshold hthreshold
  rw [countReasons_eq_nil ht, ht, JsNum.toInt_natCast, Nat.cast_le]

/-- **Enactment is sound.** If a proposal is enacted, the clock is in its window, the threshold is
a positive integer, and at least that many distinct members have an approval in the list whose
signature verifies over the proposal, the quorum and the suite. So if encoding and hashing are
injective on what is compared and nobody forges signatures, whatever is accepted was made for
this very proposal, member set, threshold and suite. -/
theorem enact_sound (h : (enact X p approvals quorum now).enacted = true) :
    InWindow p now ∧ isThreshold quorum.threshold = true ∧
    (∃ signers : List String, signers.Nodup ∧ quorum.threshold.toInt ≤ signers.length ∧
      ∀ s ∈ signers, s ∈ quorum.members ∧ ∃ a ∈ approvals, a.signer = s ∧
        verifyApproval X p a quorum = true ∧ ∃ msg, ApprovalEvidence X p quorum a msg) ∧
    ∀ made, EncodesApprovals X p quorum approvals made → Function.Injective X.bytesToHex →
      CollisionFree X.digest (quorumInputs X (quorum :: made.map (·.quorum))) →
      UnforgedApprovals X p quorum approvals made →
      ∀ a ∈ approvals, verifyApproval X p a quorum = true →
        ∃ e ∈ made, e.signer = a.signer ∧ e.proposal = p ∧
          e.quorum.members.Perm quorum.members ∧ e.quorum.threshold = quorum.threshold ∧
          e.suite = a.suite := by
  obtain ⟨hwindow, hthreshold, hcount⟩ := enacted_iff.mp h
  obtain ⟨hnodup, hvalid⟩ := @of_mem_firstValidWithin _ _ _ (·.signer)
    (fun a => verifyApproval X p a quorum) [] approvals (fun s => decide (s ∈ quorum.members))
    (fun size => JsNum.le (loopThreshold quorum) (size : JsNum)) (maxVerifies quorum) 0
    List.nodup_nil
  refine ⟨hwindow, hthreshold, ⟨_, hnodup, hcount, fun s hs => ?_⟩,
    fun made hencode hhex hc hsigs a ha hok => made_of_verifyApproval hencode hhex hc hsigs ha hok⟩
  rcases hvalid s hs with hnone | ⟨hmember, a, ha, hsigner, hok⟩
  · exact absurd hnone List.not_mem_nil
  · exact ⟨of_decide_eq_true hmember, a, ha, hsigner, hok, (verifyApproval_iff.mp hok).2⟩

/-! ## The budget -/

/-- The approvals that cost a verification: those of a member that has no accepted approval
before. -/
def pendingApprovals (X : Externals) (p : Proposal) (quorum : Quorum)
    (approvals : List Approval) : List Approval :=
  costly (fun s => decide (s ∈ quorum.members)) (·.signer) (fun a => verifyApproval X p a quorum)
    [] approvals

theorem le_length_distinctValid {t : ℕ} (ht : 1 ≤ t) (hthreshold : quorum.threshold = t) :
    t ≤ (distinctValid X p approvals quorum).length ↔
      t ≤ (((pendingApprovals X p quorum approvals).take (maxVerifies quorum)).filter
        fun a => verifyApproval X p a quorum).length := by
  have hloop : loopThreshold quorum = t := by
    have hone : isThreshold (t : JsNum) = true := by
      rw [isThreshold, JsNum.isInteger_natCast, show (1 : JsNum) = ((1 : ℕ) : JsNum) from rfl,
        JsNum.le_natCast, decide_eq_true ht]
      rfl
    rw [loopThreshold, hthreshold, if_pos hone]
  have hiff := @le_length_firstValidWithin _ _ _ (·.signer)
    (fun a => verifyApproval X p a quorum) [] approvals (fun s => decide (s ∈ quorum.members))
    (maxVerifies quorum) 0 [] t fun k _ => by simp
  rw [List.length_nil, Nat.zero_add, Nat.sub_zero] at hiff
  rw [distinctValid, hloop]
  simp only [JsNum.le_natCast]
  exact hiff

/-- **Enactment within the budget.** A proposal in its window, with a positive threshold, is
enacted exactly when enough of the first `maxVerifies` approvals that cost a verification are
accepted. -/
theorem enact_iff_within_budget (hwindow : InWindow p now)
    (hthreshold : isThreshold quorum.threshold = true) :
    (enact X p approvals quorum now).enacted = true ↔
      quorum.threshold.toInt ≤
        (((pendingApprovals X p quorum approvals).take (maxVerifies quorum)).filter
          fun a => verifyApproval X p a quorum).length := by
  obtain ⟨t, ht, hcast⟩ := exists_threshold hthreshold
  have hle := @le_length_distinctValid X p approvals quorum t ht hcast
  rw [enacted_iff, hcast, JsNum.toInt_natCast, Nat.cast_le, Nat.cast_le, hle, ← hcast]
  exact ⟨fun h => h.2.2, fun h => ⟨hwindow, hthreshold, h⟩⟩

/-- **Any member's name will do to stop a quorum**: approvals in the name of a member that are
not signed, as many as the budget, put in front of any list. -/
theorem enact_flooded {bad : Approval} (hmember : bad.signer ∈ quorum.members)
    (hbad : verifyApproval X p bad quorum = false) (rest : List Approval) :
    (enact X p (List.replicate (maxVerifies quorum) bad ++ rest) quorum now).enacted = false := by
  refine (Bool.not_eq_true _).mp fun h => ?_
  obtain ⟨-, hthreshold, hcount⟩ := enacted_iff.mp h
  obtain ⟨t, ht, hcast⟩ := exists_threshold hthreshold
  obtain ⟨more, hmore⟩ := @costly_replicate _ _ _ (·.signer)
    (fun a => verifyApproval X p a quorum) bad rest (fun s => decide (s ∈ quorum.members)) []
    (decide_eq_true hmember) hbad rfl (maxVerifies quorum)
  -- the budget is spent on the copies, none of which is accepted
  rw [hcast, JsNum.toInt_natCast, Nat.cast_le, le_length_distinctValid ht hcast, pendingApprovals,
    hmore, List.take_left' List.length_replicate, List.filter_replicate, hbad] at hcount
  simp at hcount
  omega

end Enactment

/-! ## A council of three -/

/-- Three members, two of which are enough. -/
def councilQuorum : Quorum := ⟨["0a", "0b", "0c"], 2⟩

/-- A revocation. -/
def councilProposal : Proposal := ⟨"p1", .revoke, "cap-7", "compromised", 1, 9, "n1"⟩

/-- The approval of the member with the key `key`. -/
def councilApproval (key : UInt8) : Approval :=
  valueOr ⟨"", "", "", []⟩ (approve symbolicExternals.toExternals councilProposal "PS-5" [key] [key]
    councilQuorum [])

/-- The approvals of two of them. -/
def councilApprovals : List Approval := [councilApproval 10, councilApproval 11]

/-- What they signed. -/
def councilMade : List MadeApproval :=
  councilApprovals.map fun a => ⟨a.signer, councilProposal, councilQuorum, a.suite⟩

/-- An approval in the name of one of them that is not signed. -/
def councilForged : Approval := ⟨"p1", "0a", "PS-5", []⟩

/-- `enact_sound` for the two approvals. -/
theorem enact_sound_council :
    (∃ signers : List String, signers.Nodup ∧ 2 ≤ (signers.length : ℤ) ∧
      ∀ s ∈ signers, s ∈ councilQuorum.members) ∧
    ∀ a ∈ councilApprovals,
      verifyApproval symbolicExternals.toExternals councilProposal a councilQuorum = true →
      ∃ e ∈ councilMade, e.signer = a.signer ∧ e.proposal = councilProposal ∧
        e.suite = a.suite := by
  obtain ⟨-, -, ⟨signers, hnodup, hcount, hsigners⟩, hmade⟩ :=
    @enact_sound symbolicExternals.toExternals councilProposal councilApprovals councilQuorum 5
      (by decide +kernel)
  have hencode : EncodesApprovals symbolicExternals.toExternals councilProposal councilQuorum
      councilApprovals councilMade :=
    ⟨fun _ _ _ h h' => cborCode_injective (Except.ok.inj (h'.trans h.symm)),
      fun _ _ _ _ _ _ _ h h' => cborCode_injective (Except.ok.inj (h'.trans h.symm))⟩
  have hsigs : UnforgedApprovals symbolicExternals.toExternals councilProposal councilQuorum
      councilApprovals councilMade :=
    fun a ha msg hev => ⟨_, List.mem_map_of_mem ha, rfl, hev.message⟩
  refine ⟨⟨signers, hnodup, hcount, fun s hs => (hsigners s hs).1⟩, fun a ha hok => ?_⟩
  obtain ⟨e, he, hsigner, hproposal, -, -, hsuite⟩ :=
    hmade councilMade hencode hexText_injective (fun _ _ _ _ h => h) hsigs a ha hok
  exact ⟨e, he, hsigner, hproposal, hsuite⟩

/-- `enact_iff_within_budget` for the two approvals. -/
theorem enact_within_budget_council :
    (enact symbolicExternals.toExternals councilProposal councilApprovals councilQuorum 5).enacted =
      true :=
  (enact_iff_within_budget (windowReasons_eq_nil.mp (by decide +kernel)) (by decide +kernel)).mpr
    (by decide +kernel)

/-- **Two approvals are enough, unless enough of nothing comes first**: 256 approvals in the name
of one member that are not signed keep the approvals of two from being counted. -/
theorem enact_censored_council :
    (∀ a ∈ councilApprovals, a.signer ∈ councilQuorum.members ∧
      verifyApproval symbolicExternals.toExternals councilProposal a councilQuorum = true) ∧
    (councilApprovals.map (·.signer)).Nodup ∧
    (enact symbolicExternals.toExternals councilProposal
      (List.replicate 256 councilForged ++ councilApprovals) councilQuorum 5).enacted = false :=
  ⟨by decide +kernel, by decide +kernel,
    @enact_flooded symbolicExternals.toExternals councilProposal councilQuorum 5 councilForged
      (by decide) (by decide +kernel) councilApprovals⟩

/-! ## The registry of revocations -/

/-- `RevocationRegistry`: the targets revoked, in order. -/
structure RevocationRegistry where
  revoked : List String

/-- The arguments of a call of `enactRevocation`. -/
structure RevocationCall where
  proposal : Proposal
  approvals : List Approval
  quorum : Quorum
  /-- the clock -/
  now : JsNum

namespace RevocationRegistry

variable (X : Externals)

/-- The call revokes the target. -/
def revokes (target : String) (c : RevocationCall) : Prop :=
  c.proposal.kind = .revoke ∧ c.proposal.target = target ∧
    (enact X c.proposal c.approvals c.quorum c.now).enacted = true

variable {X}

end RevocationRegistry

end Nerion
