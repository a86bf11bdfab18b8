import Nerion.Issuance
import Nerion.MerkleComplete
import Nerion.MerkleSound
import Nerion.SplitView
import Nerion.TransparencyLog

/-!
# Auditing a log (`translog/src/sth.ts`)

A client follows an operator from head to head and asks for a consistency proof each time. The
operator may have shown any entries with each head.

* `isPrefix_of_checkAppendOnly` — one check that passes;
* `audit_isPrefix` — over a whole audit the entries have only grown;
* `audit_publish` — a log that is only appended to passes every audit, wherever the heads are taken;
* `append_only_audit` — both.
-/

namespace Nerion

namespace Externals

variable (X : Externals)

def checkAppendOnly (older newer : SignedTreeHead) (proof : List Bytes) : Bool :=
  if !X.verifyTreeHeadSelf older || !X.verifyTreeHeadSelf newer then false
  else if older.operator ≠ newer.operator then false
  else if JsNum.lt newer.size older.size then false
  else
    verifyConsistency X.digest older.size newer.size proof (hexToBytesLocal older.rootHex)
      (hexToBytesLocal newer.rootHex)

end Externals

/-! ## An audit -/

/-- A head that the client has come to, the entries that the operator has shown with it and the
proof that leads to it from the head before. -/
structure ShownHead where
  head : SignedTreeHead
  entries : List Bytes
  /-- the consistency proof -/
  proof : List Bytes

/-- The head is one of the entries. -/
structure ShownHead.Commits (H : Bytes → Bytes) (s : ShownHead) : Prop where
  /-- it has their number -/
  size : s.head.size = s.entries.length
  /-- it has their root -/
  root : hexToBytesLocal s.head.rootHex = merkleRoot H s.entries

/-- Every head of the audit is checked against the one before. -/
def audit (X : Externals) : List ShownHead → Bool
  | older :: newer :: rest =>
    X.checkAppendOnly older.head newer.head newer.proof && audit X (newer :: rest)
  | _ => true

/-- The strings that the audit and the roots of the entries hash. -/
def auditInputs (H : Bytes → Bytes) : List ShownHead → List Bytes
  | older :: newer :: rest =>
    merkleRootInputs H older.entries ++ verifyConsistencyInputs H older.entries.length
      newer.entries.length newer.proof (merkleRoot H older.entries) ++ auditInputs H (newer :: rest)
  | [last] => merkleRootInputs H last.entries
  | [] => []

theorem merkleRootInputs_subset_auditInputs (H : Bytes → Bytes) (s : ShownHead)
    (rest : List ShownHead) : merkleRootInputs H s.entries ⊆ auditInputs H (s :: rest) := by
  cases rest with
  | nil => exact List.Subset.refl _
  | cons newer rest =>
    exact List.Subset.trans (List.subset_append_left _ _) (List.subset_append_left _ _)

section Soundness

variable {X : Externals} (hlen : ∀ x, (X.digest x).length = 32) {S : List Bytes}
  (hc : CollisionFree X.digest S)

include hlen hc

/-- The verifier links the roots of two lists only if one continues the other. -/
theorem isPrefix_of_verifyConsistency {A B proof : List Bytes}
    (hA : merkleRootInputs X.digest A ⊆ S) (hB : merkleRootInputs X.digest B ⊆ S)
    (hproof : verifyConsistencyInputs X.digest A.length B.length proof (merkleRoot X.digest A) ⊆ S)
    (h : verifyConsistency X.digest A.length B.length proof (merkleRoot X.digest A)
      (merkleRoot X.digest B) = true) : A <+: B := by
  rcases (le_of_verifyConsistency X.digest h).eq_or_lt with heq | hlt
  · rw [heq] at h
    obtain ⟨-, -, hroots⟩ := (verifyConsistency_self X.digest).mp h
    exact merkleRoot_inj X.digest hlen hc hA hB hroots ▸ List.prefix_rfl
  rcases A.length.eq_zero_or_pos with hzero | h0
  · rw [List.length_eq_zero_iff.mp hzero]
    exact List.nil_prefix
  obtain ⟨hn, hl, seed, rest, hstart, hroot1, hroot2⟩ :=
    (verifyConsistency_iff X.digest h0 hlt).mp h
  rw [verifyConsistencyInputs_eq X.digest h0 hlt hn hl hstart] at hproof
  obtain ⟨hin1, hin2⟩ := List.append_subset.mp hproof
  exact isPrefix_of_climbs X.digest hlen hc hA hB hin1 hin2 hroot1 hroot2

/-- **One check.** The older entries are a prefix of the newer ones. -/
theorem isPrefix_of_checkAppendOnly {older newer : ShownHead}
    (holder : older.Commits X.digest) (hnewer : newer.Commits X.digest)
    (hA : merkleRootInputs X.digest older.entries ⊆ S)
    (hB : merkleRootInputs X.digest newer.entries ⊆ S)
    (hproof : verifyConsistencyInputs X.digest older.entries.length newer.entries.length
      newer.proof (merkleRoot X.digest older.entries) ⊆ S)
    (h : X.checkAppendOnly older.head newer.head newer.proof = true) :
    older.entries <+: newer.entries := by
  rw [Externals.checkAppendOnly] at h
  split at h
  · cases h
  split at h
  · cases h
  split at h
  · cases h
  rw [holder.size, holder.root, hnewer.size, hnewer.root] at h
  exact isPrefix_of_verifyConsistency hlen hc hA hB hproof h

theorem audit_isPrefix {shown : List ShownHead} (hin : auditInputs X.digest shown ⊆ S)
    (hcommits : ∀ s ∈ shown, s.Commits X.digest) (h : audit X shown = true) :
    shown.Pairwise fun older newer => older.entries <+: newer.entries := by
  induction shown with
  | nil => exact List.Pairwise.nil
  | cons older rest ih =>
    cases rest with
    | nil => exact List.pairwise_singleton _ _
    | cons newer rest =>
      obtain ⟨hpair, hrest⟩ := List.append_subset.mp hin
      obtain ⟨hA, hproof⟩ := List.append_subset.mp hpair
      obtain ⟨hcheck, haudit⟩ := Bool.and_eq_true_iff.mp h
      have hB := List.Subset.trans (merkleRootInputs_subset_auditInputs X.digest newer rest) hrest
      have hstep := isPrefix_of_checkAppendOnly hlen hc (hcommits older (by simp))
        (hcommits newer (by simp)) hA hB hproof hcheck
      have htail := ih hrest (fun s hs => hcommits s (List.mem_cons_of_mem _ hs)) haudit
      refine List.pairwise_cons.mpr ⟨fun s hs => ?_, htail⟩
      rcases List.mem_cons.mp hs with rfl | hs
      · exact hstep
      · exact hstep.trans ((List.pairwise_cons.mp htail).1 s hs)

end Soundness

/-! ## An honest operator -/

/-- What an operator publishes that only appends: after each part of its calls it signs the log
and proves that it continues the head before. -/
def publish (X : Externals) (suite : String) (operator : KeyPair) (before : List LogCall) :
    List (List LogCall × Bytes) → Except JsError (List ShownHead)
  | [] => .ok []
  | (calls, entropy) :: rest => do
    let log := TransparencyLog.run X.digest (before ++ calls)
    let w ← log.proveConsistency X.digest (TransparencyLog.run X.digest before).size
    let head ← X.signTreeHead log.size (log.root X.digest) suite operator entropy
    let later ← publish X suite operator (before ++ calls) rest
    .ok (⟨head, log.entries, w.proof⟩ :: later)

section Honest

variable {X : Externals} {suite : String} {operator : KeyPair}

/-- What a signed head says. -/
theorem signTreeHead_eq_ok {size : JsNum} {root entropy : Bytes} {sth : SignedTreeHead}
    (h : X.signTreeHead size root suite operator entropy = .ok sth) :
    sth.operator = X.bytesToHex operator.publicKey ∧ sth.size = size ∧
      sth.rootHex = X.bytesToHex root := by
  obtain ⟨signer, -, h⟩ := Except.bind_eq_ok h
  obtain ⟨message, -, h⟩ := Except.bind_eq_ok h
  obtain ⟨sig, -, h⟩ := Except.bind_eq_ok h
  obtain rfl := Except.ok.inj h
  exact ⟨rfl, rfl, rfl⟩

variable (hactive : suite ∈ activeSuiteIds) (hkey : operator.GenuineFor X suite)
  (hhex : ∀ b, hexToBytesLocal (X.bytesToHex b) = b)

include hactive hkey hhex

theorem verifyTreeHeadSelf_sign {size : JsNum} {root entropy : Bytes} {sth : SignedTreeHead}
    (h : X.signTreeHead size root suite operator entropy = .ok sth) :
    X.verifyTreeHeadSelf sth = true := by
  rw [Externals.verifyTreeHeadSelf, (signTreeHead_eq_ok h).1, hhex,
    Externals.verifyTreeHead_sign hkey h]
  exact List.contains_iff_mem.mpr hactive

/-- The heads of two moments of a run pass with the proof that the log gives. -/
theorem checkAppendOnly_sign {before calls : List LogCall} {e e' : Bytes}
    {older newer : SignedTreeHead} {w : ConsistencyWitness}
    (hsize : (TransparencyLog.run X.digest (before ++ calls)).size ≤ maxTreeSize)
    (holder : X.signTreeHead (TransparencyLog.run X.digest before).size
      ((TransparencyLog.run X.digest before).root X.digest) suite operator e = .ok older)
    (hnewer : X.signTreeHead (TransparencyLog.run X.digest (before ++ calls)).size
      ((TransparencyLog.run X.digest (before ++ calls)).root X.digest) suite operator e' =
        .ok newer)
    (hw : (TransparencyLog.run X.digest (before ++ calls)).proveConsistency X.digest
      (TransparencyLog.run X.digest before).size = .ok w) :
    X.checkAppendOnly older newer w.proof = true := by
  have hgrows := TransparencyLog.isPrefix_run X.digest before calls
  obtain ⟨hoperator, hsizeOld, hrootOld⟩ := signTreeHead_eq_ok holder
  obtain ⟨hoperator', hsizeNew, hrootNew⟩ := signTreeHead_eq_ok hnewer
  obtain ⟨w', hw', hold, hnew, hcheck⟩ := TransparencyLog.checkConsistency_proveConsistency
    X.digest (TransparencyLog.run X.digest (before ++ calls)) hgrows.length_le hsize
  obtain rfl := Except.ok.inj (hw.symm.trans hw')
  have hroot : w.oldRoot = (TransparencyLog.run X.digest before).root X.digest := by
    rw [hold]
    exact congrArg (merkleRoot X.digest) (List.prefix_iff_eq_take.mp hgrows).symm
  have hlt : JsNum.lt newer.size older.size = false := by
    rw [hsizeNew, hsizeOld, JsNum.lt_natCast]
    exact decide_eq_false (not_lt.mpr hgrows.length_le)
  obtain ⟨hfrom, hto⟩ : w.fromSize = (TransparencyLog.run X.digest before).size ∧
      w.toSize = (TransparencyLog.run X.digest (before ++ calls)).size := by
    obtain ⟨proof, -, rfl⟩ := Except.map_eq_ok hw
    exact ⟨rfl, rfl⟩
  rw [checkConsistency, hroot, hnew, hfrom, hto] at hcheck
  rw [Externals.checkAppendOnly, verifyTreeHeadSelf_sign hactive hkey hhex holder,
    verifyTreeHeadSelf_sign hactive hkey hhex hnewer, hlt, hoperator, hoperator', hsizeOld,
    hsizeNew, hrootOld, hrootNew, hhex, hhex]
  simpa using hcheck

/-- **An honest operator** passes every audit, wherever it takes its heads; also from a head that it
has signed before. -/
theorem audit_publish {before : List LogCall} {parts : List (List LogCall × Bytes)}
    {shown : List ShownHead}
    (hsize : (TransparencyLog.run X.digest (before ++ parts.flatMap Prod.fst)).size ≤ maxTreeSize)
    (h : publish X suite operator before parts = .ok shown) :
    audit X shown = true ∧ (∀ s ∈ shown, s.Commits X.digest) ∧ ∀ (older : ShownHead) (e : Bytes),
      X.signTreeHead (TransparencyLog.run X.digest before).size
        ((TransparencyLog.run X.digest before).root X.digest) suite operator e = .ok older.head →
      audit X (older :: shown) = true := by
  induction parts generalizing before shown with
  | nil =>
    obtain rfl := Except.ok.inj h
    exact ⟨rfl, fun s hs => absurd hs List.not_mem_nil, fun _ _ _ => rfl⟩
  | cons part rest ih =>
    obtain ⟨calls, entropy⟩ := part
    rw [List.flatMap_cons, ← List.append_assoc] at hsize
    obtain ⟨w, hw, h⟩ := Except.bind_eq_ok h
    obtain ⟨head, hhead, h⟩ := Except.bind_eq_ok h
    obtain ⟨later, hlater, h⟩ := Except.bind_eq_ok h
    obtain rfl := Except.ok.inj h
    have hfirst : (TransparencyLog.run X.digest (before ++ calls)).size ≤ maxTreeSize :=
      (TransparencyLog.isPrefix_run X.digest (before ++ calls) _).length_le.trans hsize
    obtain ⟨-, hcommits, hfrom⟩ := ih hsize hlater
    have haudit := hfrom ⟨head, (TransparencyLog.run X.digest (before ++ calls)).entries, w.proof⟩
      entropy hhead
    refine ⟨haudit, fun s hs => ?_, fun older e holder => Bool.and_eq_true_iff.mpr
      ⟨checkAppendOnly_sign hactive hkey hhex hfirst holder hhead hw, haudit⟩⟩
    rcases List.mem_cons.mp hs with rfl | hs
    · obtain ⟨-, hheadSize, hheadRoot⟩ := signTreeHead_eq_ok hhead
      refine ⟨hheadSize, ?_⟩
      rw [hheadRoot, hhex]
      rfl
    · exact hcommits s hs

end Honest

/-- **Append-only audits.** Whatever an operator has signed: if a client has followed it from head
to head with proofs that pass, the entries shown with the heads are each a prefix of all later ones.
And an operator that only appends to its log passes every such audit, at whatever moments it has
signed its heads, as long as the log has at most `2^31 - 1` entries. -/
theorem append_only_audit (X : Externals) (hlen : ∀ x, (X.digest x).length = 32)
    (hhex : ∀ b, hexToBytesLocal (X.bytesToHex b) = b) :
    (∀ shown : List ShownHead, (∀ s ∈ shown, s.Commits X.digest) →
      CollisionFree X.digest (auditInputs X.digest shown) → audit X shown = true →
      shown.Pairwise fun older newer => older.entries <+: newer.entries) ∧
    ∀ (suite : String) (operator : KeyPair) (parts : List (List LogCall × Bytes))
      (shown : List ShownHead), suite ∈ activeSuiteIds → operator.GenuineFor X suite →
      (TransparencyLog.run X.digest (parts.flatMap Prod.fst)).size ≤ maxTreeSize →
      publish X suite operator [] parts = .ok shown →
      audit X shown = true ∧ ∀ s ∈ shown, s.Commits X.digest := by
  refine ⟨fun shown hcommits hc h => audit_isPrefix hlen hc (List.Subset.refl _) hcommits h, ?_⟩
  intro suite operator parts shown hactive hkey hsize h
  obtain ⟨haudit, hcommits, -⟩ := audit_publish hactive hkey hhex hsize h
  exact ⟨haudit, hcommits⟩

/-! ## An operator with two heads -/

/-- Hashing that keeps 32 bytes, with the symbolic signatures. -/
def paddedExternals : Externals := { symbolicExternals.toExternals with digest := padHash }

/-- The head of the entries. -/
def paddedHead (entries : List Bytes) : SignedTreeHead :=
  valueOr ⟨"", 0, "", "", []⟩ (paddedExternals.signTreeHead (entries.length : JsNum)
    (merkleRoot padHash entries) "PS-5" issuerKey [])

/-- The operator has signed after each of two appends. -/
def paddedShown : List ShownHead :=
  [⟨paddedHead [[1]], [[1]], []⟩, ⟨paddedHead [[1], [2]], [[1], [2]], [leafHash padHash [2]]⟩]

theorem signTreeHead_padded (entries : List Bytes) :
    paddedExternals.signTreeHead (entries.length : JsNum) (merkleRoot padHash entries) "PS-5"
      issuerKey [] = .ok (paddedHead entries) := rfl

theorem genuine_padded : issuerKey.GenuineFor paddedExternals "PS-5" := genuine_issuerKey "PS-5"

theorem rootHex_padded (entries : List Bytes) :
    hexToBytesLocal (paddedHead entries).rootHex = merkleRoot padHash entries :=
  hexToBytesLocal_hexText _

theorem audit_padded : audit paddedExternals paddedShown = true := by
  have hself : ∀ entries, paddedExternals.verifyTreeHeadSelf (paddedHead entries) = true :=
    fun entries => verifyTreeHeadSelf_sign (by decide) genuine_padded hexToBytesLocal_hexText
      (signTreeHead_padded entries)
  have hlt : JsNum.lt (paddedHead [[1], [2]]).size (paddedHead [[1]]).size = false := by
    change JsNum.lt ((2 : ℕ) : JsNum) ((1 : ℕ) : JsNum) = false
    rw [JsNum.lt_natCast]
    rfl
  have hoperator : (paddedHead [[1]]).operator = (paddedHead [[1], [2]]).operator := rfl
  have hcheck : paddedExternals.checkAppendOnly (paddedHead [[1]]) (paddedHead [[1], [2]])
      [leafHash padHash [2]] = true := by
    rw [Externals.checkAppendOnly, hself, hself, if_neg (by decide),
      if_neg (not_not.mpr hoperator), hlt, if_neg Bool.false_ne_true, rootHex_padded,
      rootHex_padded]
    exact verifyConsistency_pair
  exact Bool.and_eq_true_iff.mpr ⟨hcheck, rfl⟩

/-- Two heads with their proof: the first entries are a prefix of the second; and the operator's
own proofs pass too. -/
theorem append_only_audit_two :
    (paddedShown.Pairwise fun older newer => older.entries <+: newer.entries) ∧
    ∃ shown, publish paddedExternals "PS-5" issuerKey []
      [([.append [1]], []), ([.append [2]], [])] = .ok shown ∧
      audit paddedExternals shown = true := by
  obtain ⟨hsound, hcomplete⟩ :=
    append_only_audit paddedExternals length_padHash hexToBytesLocal_hexText
  constructor
  · refine hsound paddedShown ?_ (collisionFree_padHash.mono ?_) audit_padded
    · intro s hs
      rcases List.mem_cons.mp hs with rfl | hs
      · exact ⟨rfl, rootHex_padded _⟩
      · obtain rfl := List.mem_singleton.mp hs
        exact ⟨rfl, rootHex_padded _⟩
    · change merkleRootInputs padHash [[1]] ++ verifyConsistencyInputs padHash (1 : ℕ) (2 : ℕ) _
        (merkleRoot padHash [[1]]) ++ merkleRootInputs padHash [[1], [2]] ⊆ _
      rw [verifyConsistencyInputs_eq padHash (by decide) (by decide) (by decide) (by decide)
        (consistencyStart_one _ _), auditSteps_pair, merkleRootInputs_pair]
      simp [climbInputs, climbRightInputs, merkleRoot, merkleRootInputs]
  · obtain ⟨w, hw, -⟩ := TransparencyLog.checkConsistency_proveConsistency padHash
      (TransparencyLog.run padHash [.append [1]]) (Nat.zero_le _) (by decide)
    obtain ⟨w', hw', -⟩ := TransparencyLog.checkConsistency_proveConsistency padHash
      (TransparencyLog.run padHash [.append [1], .append [2]]) (s := 1) (by decide) (by decide)
    have hpublish : ∃ shown, publish paddedExternals "PS-5" issuerKey []
        [([.append [1]], []), ([.append [2]], [])] = .ok shown :=
      ⟨_, Except.bind_ok hw (Except.bind_ok rfl (Except.bind_ok
        (Except.bind_ok hw' (Except.bind_ok rfl (Except.bind_ok rfl rfl))) rfl))⟩
    obtain ⟨shown, hshown⟩ := hpublish
    exact ⟨shown, hshown, (hcomplete "PS-5" issuerKey _ shown (by decide) genuine_padded
      (by decide) hshown).1⟩

end Nerion
