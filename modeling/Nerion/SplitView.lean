import Nerion.ByteFraming
import Nerion.NumberText
import Nerion.Symbolic
import Nerion.TreeHead

/-!
# The split-view monitor (`translog/src/sth.ts`)

Clients gossip signed tree heads and look for two roots that one operator has signed for one size.
The monitor drops what does not verify under the key a head names, and keeps the first root it has
seen for each operator and size, under a text made of the two.

* `key_injective` — the text determines operator and size;
* `Monitors` — what the state of the scan says about the heads read so far;
* `monitorStep_monitors`, `monitor_run` — a step and a run keep it;
* `detectEquivocation_exact` — the monitor reports exactly the split views.
-/

namespace Nerion

/-- `Equivocation`, of a log operator. -/
structure Equivocation where
  /-- hex of the operator's public key -/
  operator : String
  size : JsNum
  /-- the first root -/
  rootA : String
  /-- the other one -/
  rootB : String

/-- The state of the scan. -/
structure MonitorState where
  /-- the first root for each key -/
  seen : JsMap String String
  /-- what has been found -/
  out : List Equivocation

/-- `${sth.operator}@${sth.size}`. -/
def SignedTreeHead.key (sth : SignedTreeHead) : String := sth.operator ++ "@" ++ sth.size.text

namespace Externals

variable (X : Externals)

def verifyTreeHeadSelf (sth : SignedTreeHead) : Bool :=
  X.verifyTreeHead sth (hexToBytesLocal sth.operator)

/-- The body of the loop. -/
def monitorStep (st : MonitorState) (sth : SignedTreeHead) : MonitorState :=
  if !X.verifyTreeHeadSelf sth then st
  else
    match st.seen.get? sth.key with
    | none => { st with seen := st.seen.set sth.key sth.rootHex }
    | some prior =>
      if prior ≠ sth.rootHex then
        { st with out := st.out ++ [⟨sth.operator, sth.size, prior, sth.rootHex⟩] }
      else st

def detectEquivocation (sths : List SignedTreeHead) : List Equivocation :=
  (sths.foldl X.monitorStep ⟨JsMap.empty, []⟩).out

/-! ## Keys -/

/-- `bytesToHex` writes hexadecimal digits. -/
def WritesHex : Prop := ∀ b, ∀ c ∈ (X.bytesToHex b).toList, c ∈ "0123456789abcdef".toList

variable {X}

variable {sth : SignedTreeHead} {sths : List SignedTreeHead} {st : MonitorState}

/-- The head verifies under the key it names, so that the name is hexadecimal. -/
theorem at_notMem_operator (hhex : X.WritesHex) (h : X.verifyTreeHeadSelf sth = true) :
    '@' ∉ sth.operator.toList := by
  rw [verifyTreeHeadSelf, verifyTreeHead] at h
  split at h
  · cases h
  · rename_i hname
    rw [← not_not.mp hname]
    intro hmem
    exact absurd (hhex _ _ hmem) (by decide)

/-- **The key determines operator and size.** -/
theorem key_injective (hhex : X.WritesHex) {a b : SignedTreeHead}
    (ha : X.verifyTreeHeadSelf a = true) (hb : X.verifyTreeHeadSelf b = true)
    (hsizeA : a.size.IsDouble) (hsizeB : b.size.IsDouble) (h : a.key = b.key) :
    a.operator = b.operator ∧ a.size = b.size := by
  have hlist := congrArg String.toList h
  simp only [SignedTreeHead.key, String.toList_append, List.append_assoc] at hlist
  obtain ⟨hoperator, hsize⟩ :=
    append_separator_inj (at_notMem_operator hhex ha) (at_notMem_operator hhex hb) hlist
  exact ⟨String.toList_injective hoperator,
    JsNum.text_injective hsizeA hsizeB (String.toList_injective hsize)⟩

/-! ## The scan -/

/-- Two heads of one operator and size, each authentic, with the given roots. -/
def SplitView (X : Externals) (sths : List SignedTreeHead) (operator : String) (size : JsNum)
    (rootA rootB : String) : Prop :=
  ∃ a ∈ sths, ∃ b ∈ sths, X.verifyTreeHeadSelf a = true ∧ X.verifyTreeHeadSelf b = true ∧
    (a.operator = operator ∧ a.size = size ∧ a.rootHex = rootA) ∧
    (b.operator = operator ∧ b.size = size ∧ b.rootHex = rootB) ∧ rootA ≠ rootB

/-- What the state says about the heads read so far. -/
structure Monitors (X : Externals) (sths : List SignedTreeHead) (st : MonitorState) : Prop where
  /-- a root is kept because an authentic head has it -/
  kept : ∀ k r, st.seen.get? k = some r →
    ∃ a ∈ sths, X.verifyTreeHeadSelf a = true ∧ a.key = k ∧ a.rootHex = r
  /-- every authentic head has the root that is kept, or was reported -/
  read : ∀ a ∈ sths, X.verifyTreeHeadSelf a = true → ∃ r, st.seen.get? a.key = some r ∧
    (a.rootHex = r ∨ ∃ e ∈ st.out, e.operator = a.operator ∧ e.size = a.size)
  /-- every report is a split view -/
  reported : ∀ e ∈ st.out, X.SplitView sths e.operator e.size e.rootA e.rootB

theorem SplitView.mono {sths sths' : List SignedTreeHead} {operator : String} {size : JsNum}
    {rootA rootB : String} (hsub : sths ⊆ sths') (h : X.SplitView sths operator size rootA rootB) :
    X.SplitView sths' operator size rootA rootB := by
  obtain ⟨a, ha, b, hb, h⟩ := h
  exact ⟨a, hsub ha, b, hsub hb, h⟩

theorem kept_append (h : X.Monitors sths st) (sth : SignedTreeHead) :
    ∀ k r, st.seen.get? k = some r →
      ∃ a ∈ sths ++ [sth], X.verifyTreeHeadSelf a = true ∧ a.key = k ∧ a.rootHex = r := by
  intro k r hk
  obtain ⟨a, ha, hrest⟩ := h.kept k r hk
  exact ⟨a, List.mem_append_left _ ha, hrest⟩

/-- A head that adds nothing: it is forged, or its root is the one that is kept. -/
theorem Monitors.skip (h : X.Monitors sths st)
    (hread : X.verifyTreeHeadSelf sth = true → st.seen.get? sth.key = some sth.rootHex) :
    X.Monitors (sths ++ [sth]) st where
  kept := kept_append h sth
  read a ha hself := by
    rcases List.mem_append.mp ha with ha | ha
    · exact h.read a ha hself
    · rw [List.mem_singleton.mp ha] at hself ⊢
      exact ⟨sth.rootHex, hread hself, .inl rfl⟩
  reported e he := (h.reported e he).mono (List.subset_append_left _ _)

/-- The first head for its key. -/
theorem Monitors.first (h : X.Monitors sths st) (hauth : X.verifyTreeHeadSelf sth = true)
    (hnone : st.seen.get? sth.key = none) :
    X.Monitors (sths ++ [sth]) { st with seen := st.seen.set sth.key sth.rootHex } where
  kept k r hk := by
    rw [JsMap.get?_set] at hk
    split at hk
    · rename_i hkey
      exact ⟨sth, by simp, hauth, hkey.symm, Option.some.inj hk⟩
    · exact kept_append h sth k r hk
  read a ha hself := by
    rcases List.mem_append.mp ha with ha | ha
    · obtain ⟨r, hr, hread⟩ := h.read a ha hself
      refine ⟨r, ?_, hread⟩
      rw [JsMap.get?_set, if_neg, hr]
      intro hkey
      rw [hkey, hnone] at hr
      cases hr
    · rw [List.mem_singleton.mp ha]
      exact ⟨sth.rootHex, by simp [JsMap.get?_set], .inl rfl⟩
  reported e he := (h.reported e he).mono (List.subset_append_left _ _)

/-- Another root than the one that is kept. -/
theorem Monitors.report {prior : String} (h : X.Monitors sths st)
    (hprior : st.seen.get? sth.key = some prior)
    (hview : X.SplitView (sths ++ [sth]) sth.operator sth.size prior sth.rootHex) :
    X.Monitors (sths ++ [sth])
      { st with out := st.out ++ [⟨sth.operator, sth.size, prior, sth.rootHex⟩] } where
  kept := kept_append h sth
  read a ha hself := by
    rcases List.mem_append.mp ha with ha | ha
    · obtain ⟨r, hr, hread⟩ := h.read a ha hself
      refine ⟨r, hr, hread.imp_right ?_⟩
      rintro ⟨e, he, hof⟩
      exact ⟨e, List.mem_append_left _ he, hof⟩
    · rw [List.mem_singleton.mp ha]
      exact ⟨prior, hprior, .inr ⟨_, List.mem_append_right _ List.mem_cons_self, rfl, rfl⟩⟩
  reported e he := by
    rcases List.mem_append.mp he with he | he
    · exact (h.reported e he).mono (List.subset_append_left _ _)
    · rw [List.mem_singleton.mp he]
      exact hview

/-- One step of the scan. -/
theorem monitorStep_monitors (hhex : X.WritesHex) (hsizes : ∀ a ∈ sths ++ [sth], a.size.IsDouble)
    (h : X.Monitors sths st) : X.Monitors (sths ++ [sth]) (X.monitorStep st sth) := by
  rw [monitorStep]
  split
  · rename_i hforged
    apply h.skip
    intro hauth
    simp [hauth] at hforged
  rename_i hauth
  rw [Bool.not_eq_true, Bool.not_eq_false'] at hauth
  split
  · rename_i hnone
    exact h.first hauth hnone
  rename_i prior hprior
  split
  · -- the head that the kept root is from has the same operator and size
    rename_i hne
    obtain ⟨a, ha, hautha, hkey, hroot⟩ := h.kept _ _ hprior
    have hmem : a ∈ sths ++ [sth] := List.mem_append_left _ ha
    obtain ⟨hoperator, hsize⟩ := key_injective hhex hautha hauth (hsizes a hmem)
      (hsizes sth (by simp)) hkey
    apply h.report hprior
    exact ⟨a, hmem, sth, by simp, hautha, hauth, ⟨hoperator, hsize, hroot⟩, ⟨rfl, rfl, rfl⟩, hne⟩
  · rename_i heq
    apply h.skip
    intro _
    rw [hprior, not_not.mp heq]

/-- A whole scan. -/
theorem monitor_run (hhex : X.WritesHex) (hsizes : ∀ a ∈ sths, a.size.IsDouble) :
    X.Monitors sths (sths.foldl X.monitorStep ⟨JsMap.empty, []⟩) := by
  -- induction from the end: the last head is the last step
  induction sths using List.reverseRecOn with
  | nil => exact ⟨nofun, nofun, nofun⟩
  | append_singleton sths sth ih =>
    rw [List.foldl_append]
    exact monitorStep_monitors hhex hsizes (ih fun a ha => hsizes a (List.mem_append_left _ ha))

/-- Every split view is reported. -/
theorem Monitors.reports {operator : String} {size : JsNum} {rootA rootB : String}
    (h : X.Monitors sths st) (hview : X.SplitView sths operator size rootA rootB) :
    ∃ e ∈ st.out, e.operator = operator ∧ e.size = size := by
  obtain ⟨a, ha, b, hb, hautha, hauthb, ⟨rfl, rfl, rfl⟩, ⟨hoperator, hsize, rfl⟩, hne⟩ := hview
  have hkey : b.key = a.key := by rw [SignedTreeHead.key, hoperator, hsize, SignedTreeHead.key]
  obtain ⟨r, hr, hread⟩ := h.read a ha hautha
  obtain ⟨r', hr', hread'⟩ := h.read b hb hauthb
  rw [hkey, hr] at hr'
  obtain rfl := Option.some.inj hr'
  -- one of the two roots is not the one that is kept
  rcases hread with hroot | hreported
  · rcases hread' with hroot' | hreported'
    · exact absurd (hroot.trans hroot'.symm) hne
    · rwa [hoperator, hsize] at hreported'
  · exact hreported

/-! ## Honest operators -/

/-- Nobody forges signatures of the operator: a message over which a signature verifies under its
key is one that it signed. All active suites sign with ML-DSA-87. -/
def UnforgedBy (X : Externals) (operator : String) (signed : Bytes → Prop) : Prop :=
  ∀ sig message, X.mlDsa87.verify sig message (hexToBytesLocal operator) = .ok true →
    signed message

/-- The operator signs at most one root for each size, under whatever suite. -/
def OneRootPerSize (X : Externals) (operator : String) (signed : Bytes → Prop) : Prop :=
  ∀ size suite suite' root root' message message',
    X.treeHeadMessage operator suite size root = .ok message →
    X.treeHeadMessage operator suite' size root' = .ok message' →
    signed message → signed message' → root = root'

/-- An authentic head carries a message that its operator signed. -/
theorem signed_of_verifyTreeHeadSelf {signed : Bytes → Prop}
    (hunforged : X.UnforgedBy sth.operator signed) (h : X.verifyTreeHeadSelf sth = true) :
    ∃ message, X.treeHeadMessage sth.operator sth.suite sth.size sth.rootHex = .ok message ∧
      signed message := by
  rw [verifyTreeHeadSelf, verifyTreeHead] at h
  split at h
  · cases h
  rw [verifies] at h
  split at h
  · cases h
  rename_i hactive
  have hsuite : sth.suite ∈ activeSuiteIds := by simpa using hactive
  split at h
  · rename_i valid hcheck
    subst h
    obtain ⟨scheme, hscheme, hcheck⟩ := Except.bind_eq_ok hcheck
    obtain rfl := Except.ok.inj ((X.signerFor_of_active hsuite).symm.trans hscheme)
    obtain ⟨message, hmessage, hcheck⟩ := Except.bind_eq_ok hcheck
    exact ⟨message, hmessage, hunforged _ _ hcheck⟩
  · cases h

/-- **The monitor is exact.** For every list of tree heads: an operator and a size are reported
exactly if two authentic heads of the list have them with different roots; the roots of a report
are those of two such heads; the order of the list does not change what is reported; and an
operator that signs one root for each size is never reported, whatever else is in the list. -/
theorem detectEquivocation_exact (hhex : X.WritesHex) {sths : List SignedTreeHead}
    (hsizes : ∀ sth ∈ sths, sth.size.IsDouble) :
    (∀ operator size, (∃ e ∈ X.detectEquivocation sths, e.operator = operator ∧ e.size = size) ↔
      ∃ rootA rootB, X.SplitView sths operator size rootA rootB) ∧
    (∀ e ∈ X.detectEquivocation sths, X.SplitView sths e.operator e.size e.rootA e.rootB) ∧
    (∀ sths' : List SignedTreeHead, sths'.Perm sths → ∀ operator size,
      (∃ e ∈ X.detectEquivocation sths', e.operator = operator ∧ e.size = size) ↔
        ∃ e ∈ X.detectEquivocation sths, e.operator = operator ∧ e.size = size) ∧
    ∀ operator signed, X.UnforgedBy operator signed → X.OneRootPerSize operator signed →
      ∀ e ∈ X.detectEquivocation sths, e.operator ≠ operator := by
  have hexact : ∀ sths : List SignedTreeHead, (∀ sth ∈ sths, sth.size.IsDouble) →
      ∀ operator size, (∃ e ∈ X.detectEquivocation sths, e.operator = operator ∧ e.size = size) ↔
        ∃ rootA rootB, X.SplitView sths operator size rootA rootB := by
    intro sths hsizes operator size
    have hrun := monitor_run hhex hsizes
    constructor
    · rintro ⟨e, he, rfl, rfl⟩
      exact ⟨e.rootA, e.rootB, hrun.reported e he⟩
    · rintro ⟨rootA, rootB, hview⟩
      exact hrun.reports hview
  refine ⟨hexact sths hsizes, (monitor_run hhex hsizes).reported, ?_, ?_⟩
  · intro sths' hperm operator size
    rw [hexact sths' fun sth h => hsizes sth (hperm.mem_iff.mp h), hexact sths hsizes]
    constructor <;> rintro ⟨rootA, rootB, hview⟩
    · exact ⟨rootA, rootB, hview.mono hperm.subset⟩
    · exact ⟨rootA, rootB, hview.mono hperm.symm.subset⟩
  · rintro operator signed hunforged hone e he rfl
    obtain ⟨a, -, b, -, hautha, hauthb, ⟨hopa, hsizea, hroota⟩, ⟨hopb, hsizeb, hrootb⟩, hne⟩ :=
      (monitor_run hhex hsizes).reported e he
    obtain ⟨m, hm, hsigned⟩ := signed_of_verifyTreeHeadSelf (hopa ▸ hunforged) hautha
    obtain ⟨m', hm', hsigned'⟩ := signed_of_verifyTreeHeadSelf (hopb ▸ hunforged) hauthb
    rw [hopa, hsizea] at hm
    rw [hopb, hsizeb] at hm'
    have hroot := hone _ _ _ _ _ _ _ hm hm' hsigned hsigned'
    exact hne (by rw [← hroota, ← hrootb, hroot])

end Externals

/-! ## A list with a split view and a forgery -/

/-- The tree head with the given operator and root, signed with the operator's key. -/
def monitoredHead (operator rootHex : String) : SignedTreeHead where
  operator := operator
  size := 3
  rootHex := rootHex
  suite := "PS-5"
  sig := hexToBytesLocal operator ++
    valueOr [] (symbolicExternals.treeHeadMessage operator "PS-5" 3 rootHex)

/-- The message that the operator "0b" has signed. -/
def honestMessage : Bytes :=
  cborCode (.array [.text "polarseek-sth-v1", .text "0b", .text "PS-5", .num 3, .text "aa"])

/-- The symbolic signatures, where "0b" has signed one message only. -/
def honestSigner : SignatureScheme where
  sign := symbolicSigner.sign
  verify signature message publicKey :=
    .ok (decide (signature = publicKey ++ message ∧ (publicKey = [11] → message = honestMessage)))

/-- Externals with these signatures. -/
def monitorExternals : Externals := { symbolicExternals.toExternals with mlDsa87 := honestSigner }

theorem writesHex_hexText (b : Bytes) :
    ∀ c ∈ (hexText b).toList, c ∈ "0123456789abcdef".toList := by
  have hdigit : ∀ n < 16, Nat.digitChar n ∈ "0123456789abcdef".toList := by decide
  intro c hc
  rw [hexText, String.toList_ofList, List.mem_flatMap] at hc
  obtain ⟨x, -, hx⟩ := hc
  have hlt := x.toNat_lt
  rcases List.mem_cons.mp hx with rfl | hx
  · exact hdigit _ (by omega)
  · rw [List.mem_singleton.mp hx]
    exact hdigit _ (by omega)

/-- "0a" has signed two roots; of the heads that name "0b" the one with another root is forged. -/
theorem detectEquivocation_exact_monitored :
    let sths := [monitoredHead "0a" "aa", monitoredHead "0b" "aa", monitoredHead "0b" "bb",
      monitoredHead "0a" "bb"]
    (∃ e ∈ monitorExternals.detectEquivocation sths, e.operator = "0a" ∧ e.size = 3) ∧
      ∀ e ∈ monitorExternals.detectEquivocation sths, e.operator ≠ "0b" := by
  intro sths
  have hsizes : ∀ sth ∈ sths, sth.size.IsDouble := by
    intro sth hsth
    have hthree : sth.size = ((3 : ℕ) : JsNum) := by
      simp only [sths, List.mem_cons, List.not_mem_nil, or_false] at hsth
      rcases hsth with rfl | rfl | rfl | rfl <;> rfl
    rw [hthree]
    exact JsNum.isDouble_natCast (by decide)
  obtain ⟨hexact, -, -, hhonest⟩ :=
    @Externals.detectEquivocation_exact monitorExternals writesHex_hexText sths hsizes
  constructor
  · rw [hexact]
    refine ⟨"aa", "bb", monitoredHead "0a" "aa", by simp [sths], monitoredHead "0a" "bb",
      by simp [sths], ?_⟩
    decide +kernel
  · refine hhonest "0b" (· = honestMessage) ?_ ?_
    · intro sig message hverify
      have hboth := of_decide_eq_true (Except.ok.inj hverify)
      exact hboth.2 (by decide +kernel)
    · rintro size suite suite' root root' _ _ hmessage hmessage' rfl rfl
      have hroot := cborCode_injective (Except.ok.inj hmessage)
      have hroot' := cborCode_injective (Except.ok.inj hmessage')
      simp only [Cbor.array.injEq, List.cons.injEq, Cbor.text.injEq, and_true] at hroot hroot'
      rw [hroot.2.2.2.2, hroot'.2.2.2.2]

end Nerion
