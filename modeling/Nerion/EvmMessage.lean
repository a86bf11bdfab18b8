import Nerion.EvmProfile
import Nerion.MerkleSound

/-!
# The EVM-profile message binds all its fields

The set id is a chain of hashes over fixed-width records and the message is a hash over
seven fixed-width fields. As long as no two of the strings that are hashed collide, the
message determines the fields: a record can be told from the tag that starts the chain and
from the epoch that ends it by its length, so chains of different lengths do not meet.

* `HexCodec` — what the hex codec is documented to do;
* `memberFold_inj` — the chain determines the members;
* `evm_message_binds` — the message determines suite, height, block, target, epoch and
  members, and the set id does not depend on the order of the set.
-/

namespace Nerion

/-- The hex codec: lower case, two digits a byte, and the two directions undo each other. -/
structure HexCodec (E : Externals) : Prop where
  /-- the text is lower-case hex -/
  lower : ∀ b, isLowerHex (E.bytesToHex b) = true
  /-- two digits a byte -/
  length : ∀ b, jsLength (E.bytesToHex b) = 2 * b.length
  /-- text decodes to the bytes it was made of -/
  decode : ∀ b, E.hexToBytes (E.bytesToHex b) = .ok b
  /-- a lower-case text that decodes is the text of its bytes -/
  encode : ∀ s b, isLowerHex s = true → E.hexToBytes s = .ok b → E.bytesToHex b = s

namespace HexCodec

variable {E : Externals} (H : HexCodec E)
include H

theorem decodeHex_bytesToHex (label : String) (b : Bytes) :
    decodeHex E label (E.bytesToHex b) = .ok b := by
  refine decodeHex_eq_ok.mpr ⟨?_, H.lower b, H.decode b⟩
  rw [H.length, Nat.mul_mod_right]

/-- What the profile decodes, it decodes from the text of the bytes. -/
theorem eq_of_decodeHex {label s : String} {b : Bytes} (h : decodeHex E label s = .ok b) :
    s = E.bytesToHex b := by
  obtain ⟨-, hlower, hb⟩ := decodeHex_eq_ok.mp h
  exact (H.encode s b hlower hb).symm

end HexCodec

/-- The hash as a function to byte strings. -/
def EvmExternals.hash (X : EvmExternals) (b : Bytes) : Bytes := X.keccak256 b

/-! ## The strings that are hashed -/

/-- The record that one member adds to the chain. -/
def memberInput (X : EvmExternals) (h : Bytes) (m : CanonMember) : Bytes :=
  h ++ X.keccak256 m.pubkeyBytes ++ bigEndian 32 m.stake.toNat ++ m.vrfHash

/-- The keys and the records of a chain that starts with `h`. -/
def foldInputs (X : EvmExternals) : Bytes → List CanonMember → List Bytes
  | _, [] => []
  | h, m :: ms => m.pubkeyBytes :: memberInput X h m :: foldInputs X (memberHash X h m) ms

/-- What is hashed for the set id. -/
def setIdInputs (X : EvmExternals) (set : ValidatorSet) : List Bytes :=
  match canonicalMembers X set with
  | .error _ => []
  | .ok ms => setTag :: (foldInputs X (X.hash setTag) ms ++
      [ms.foldl (memberHash X) (X.hash setTag) ++ bigEndian 32 (set.epoch.getD 0).toInt.toNat])

/-- What is hashed for the message. -/
def messageInputs (X : EvmExternals) (suite : String) (height : JsNum) (hash : String)
    (setId : Bytes) (target : EvmTarget) : List Bytes :=
  [attTag, utf8 suite, evmMessageInput X suite target.chainId.toNat
    (valueOr [] (decodeHex X.toExternals "verifier" target.verifier)) height.toInt.toNat
    (valueOr [] (decodeHex X.toExternals "blockHash" hash)) setId]

section Fold

variable {X : EvmExternals}

theorem length_hash (b : Bytes) : (X.hash b).length = 32 := (X.keccak256 b).2

theorem length_setTag : setTag.length = 27 := by decide +kernel

theorem foldInputs_concat (h : Bytes) (ms : List CanonMember) (m : CanonMember) :
    foldInputs X h (ms ++ [m]) = foldInputs X h ms ++
      [m.pubkeyBytes, memberInput X (ms.foldl (memberHash X) h) m] := by
  induction ms generalizing h with
  | nil => rfl
  | cons m' ms ih => rw [List.cons_append, foldInputs, ih, foldInputs, List.foldl_cons]; rfl

theorem length_memberFold (ms : List CanonMember) :
    (ms.foldl (memberHash X) (X.hash setTag)).length = 32 := by
  rcases List.eq_nil_or_concat' ms with rfl | ⟨ms', m, rfl⟩
  · exact length_hash setTag
  · rw [List.foldl_concat]
    exact length_hash _

/-- A member whose fields have the widths of the record. -/
structure FitsRecord (m : CanonMember) : Prop where
  /-- the stake is a uint256 -/
  nonneg : 0 ≤ m.stake
  /-- the stake is a uint256 -/
  le_max : m.stake ≤ u256Max
  /-- the VRF key is hashed -/
  vrfHash : m.vrfHash.length = 32

theorem length_memberInput {h : Bytes} {m : CanonMember} (hh : h.length = 32) (hm : FitsRecord m) :
    (memberInput X h m).length = 128 := by
  rw [memberInput, List.length_append, List.length_append, List.length_append, hh, hm.vrfHash,
    length_bigEndian, (X.keccak256 m.pubkeyBytes).2]

/-- What the record is about. -/
def CanonMember.fields (m : CanonMember) : Bytes × ℤ × Bytes := (m.pubkeyBytes, m.stake, m.vrfHash)

/-- The record determines the hash before it and the member. -/
theorem memberInput_inj {S : List Bytes} (hc : CollisionFree X.hash S) {h h' : Bytes}
    {m m' : CanonMember} (hh : h.length = 32) (hh' : h'.length = 32) (hm : FitsRecord m)
    (hm' : FitsRecord m') (hmem : m.pubkeyBytes ∈ S) (hmem' : m'.pubkeyBytes ∈ S)
    (heq : memberInput X h m = memberInput X h' m') : h = h' ∧ m.fields = m'.fields := by
  obtain ⟨heq, hvrf⟩ := List.append_inj' heq (hm.vrfHash.trans hm'.vrfHash.symm)
  obtain ⟨heq, hstake⟩ := List.append_inj' heq (by rw [length_bigEndian, length_bigEndian])
  obtain ⟨hprev, hkey⟩ := List.append_inj heq (hh.trans hh'.symm)
  have hbound : ∀ {m : CanonMember}, FitsRecord m → m.stake.toNat < 256 ^ 32 := by
    intro m hm
    have hle := hm.le_max
    rw [← Int.toNat_of_nonneg hm.nonneg, natCast_le_u256Max] at hle
    exact hle.trans_eq (by norm_num)
  have hnat := bigEndian_inj (hbound hm) (hbound hm') hstake
  have hint : m.stake = m'.stake := by
    rw [← Int.toNat_of_nonneg hm.nonneg, ← Int.toNat_of_nonneg hm'.nonneg, hnat]
  exact ⟨hprev, by rw [CanonMember.fields, CanonMember.fields, hc _ hmem _ hmem' hkey, hint, hvrf]⟩

/-- **The chain determines the members**, their number included. -/
theorem memberFold_inj {S : List Bytes} (hc : CollisionFree X.hash S) (htag : setTag ∈ S)
    {ms ms' : List CanonMember} (hms : ∀ m ∈ ms, FitsRecord m) (hms' : ∀ m ∈ ms', FitsRecord m)
    (hin : foldInputs X (X.hash setTag) ms ⊆ S) (hin' : foldInputs X (X.hash setTag) ms' ⊆ S)
    (heq : ms.foldl (memberHash X) (X.hash setTag) = ms'.foldl (memberHash X) (X.hash setTag)) :
    ms.map (·.fields) = ms'.map (·.fields) := by
  -- a record is longer than the tag
  have hne : ∀ {ms : List CanonMember} {m : CanonMember}, FitsRecord m →
      memberInput X (ms.foldl (memberHash X) (X.hash setTag)) m ∈ S →
      X.hash (memberInput X (ms.foldl (memberHash X) (X.hash setTag)) m) ≠ X.hash setTag := by
    intro ms m hm hmem h
    have hlen := congrArg List.length (hc _ hmem _ htag h)
    rw [length_memberInput (length_memberFold ms) hm, length_setTag] at hlen
    cases hlen
  -- from the last record back
  induction ms using List.reverseRecOn generalizing ms' with
  | nil =>
    rcases List.eq_nil_or_concat' ms' with rfl | ⟨ms', m', rfl⟩
    · rfl
    · rw [foldInputs_concat] at hin'
      rw [List.foldl_concat] at heq
      exact absurd heq.symm (hne (hms' m' (by simp)) (hin' (by simp)))
  | append_singleton ms m ih =>
    rw [foldInputs_concat] at hin
    rw [List.foldl_concat] at heq
    rcases List.eq_nil_or_concat' ms' with rfl | ⟨ms', m', rfl⟩
    · exact absurd heq (hne (hms m (by simp)) (hin (by simp)))
    · rw [foldInputs_concat] at hin'
      rw [List.foldl_concat] at heq
      have hrecord : memberInput X (ms.foldl (memberHash X) (X.hash setTag)) m =
          memberInput X (ms'.foldl (memberHash X) (X.hash setTag)) m' :=
        hc _ (hin (by simp)) _ (hin' (by simp)) heq
      obtain ⟨hfold, hfields⟩ := memberInput_inj hc (length_memberFold ms) (length_memberFold ms')
        (hms m (by simp)) (hms' m' (by simp)) (hin (by simp)) (hin' (by simp)) hrecord
      have hrest := ih (fun x hx => hms x (List.mem_append_left _ hx))
        (fun x hx => hms' x (List.mem_append_left _ hx))
        (List.Subset.trans (List.subset_append_left _ _) hin)
        (List.Subset.trans (List.subset_append_left _ _) hin') hfold
      rw [List.map_append, List.map_append, hrest, List.map_singleton, List.map_singleton, hfields]

end Fold

/-! ## Sets -/

section Sets

variable {X : EvmExternals} {set set' : ValidatorSet} {ms ms' : List CanonMember}

theorem fitsRecord_of_members (h : canonicalMembers X set = .ok ms) :
    ∀ m ∈ ms, FitsRecord m := by
  intro m hm
  obtain ⟨hneg, hmax⟩ := stake_range h hm
  obtain ⟨⟨us, hus, hperm⟩, -⟩ := canonicalMembers_iff.mp h
  obtain ⟨v, -, hv⟩ := exists_of_forall₂_of_mem hus (hperm.mem_iff.mpr hm)
  obtain ⟨b, vrfHash, -, -, -, hvrf, rfl⟩ := canonMember_eq_ok.mp hv
  refine ⟨hneg, hmax, ?_⟩
  cases hk : v.vrfPubkey with
  | none =>
    rw [hk] at hvrf
    obtain rfl := Except.ok.inj hvrf
    exact (X.keccak256 []).2
  | some k =>
    rw [hk] at hvrf
    obtain ⟨b', -, hvrf⟩ := Except.bind_eq_ok hvrf
    obtain rfl := Except.ok.inj hvrf
    exact (X.keccak256 b').2

/-- The members are determined by the fields of their records. -/
theorem members_eq_of_fields (H : HexCodec X.toExternals) (h : canonicalMembers X set = .ok ms)
    (h' : canonicalMembers X set' = .ok ms') (heq : ms.map (·.fields) = ms'.map (·.fields)) :
    ms = ms' := by
  have hmake : ∀ {set : ValidatorSet} {ms : List CanonMember}, canonicalMembers X set = .ok ms →
      (ms.map (·.fields)).map (fun f => ⟨X.bytesToHex f.1, f.1, f.2.1, f.2.2⟩) = ms := by
    intro set ms h
    rw [List.map_map]
    refine (List.map_congr_left fun m hm => ?_).trans (List.map_id ms)
    obtain ⟨⟨us, hus, hperm⟩, -⟩ := canonicalMembers_iff.mp h
    obtain ⟨v, -, hv⟩ := exists_of_forall₂_of_mem hus (hperm.mem_iff.mpr hm)
    obtain ⟨b, vrfHash, hb, -, -, -, rfl⟩ := canonMember_eq_ok.mp hv
    rw [Function.comp_apply, CanonMember.fields, ← H.eq_of_decodeHex hb]
    rfl
  rw [← hmake h, ← hmake h', heq]

/-- The order of the set does not matter. -/
theorem canonicalMembers_perm {vs : List Validator} (hperm : set.validators.Perm vs)
    (h : canonicalMembers X set = .ok ms) : canonicalMembers X ⟨vs, set.epoch⟩ = .ok ms := by
  obtain ⟨⟨us, hus, husms⟩, hasc⟩ := canonicalMembers_iff.mp h
  obtain ⟨ws, hws, hwsus⟩ := List.perm_comp_forall₂ hperm.symm hus
  exact canonicalMembers_iff.mpr ⟨⟨ws, hws, hwsus.trans husms⟩, hasc⟩

theorem evmSetId_perm {vs : List Validator} (hperm : set.validators.Perm vs) {id : Bytes}
    (h : evmSetId X set = .ok id) : evmSetId X ⟨vs, set.epoch⟩ = .ok id := by
  obtain ⟨ms, epoch, hms, hepoch, hlt, rfl⟩ := evmSetId_eq_ok.mp h
  exact evmSetId_eq_ok.mpr ⟨ms, epoch, canonicalMembers_perm hperm hms, hepoch, hlt, rfl⟩

theorem lt_word {n : ℕ} (h : n < 2 ^ 256) : n < 256 ^ 32 := h.trans_eq (by norm_num)

/-- **The set id determines epoch and members.** -/
theorem evmSetId_inj (H : HexCodec X.toExternals) {S : List Bytes} (hc : CollisionFree X.hash S)
    (hS : setIdInputs X set ⊆ S) (hS' : setIdInputs X set' ⊆ S) {id : Bytes}
    (h : evmSetId X set = .ok id) (h' : evmSetId X set' = .ok id) :
    set.epoch.getD 0 = set'.epoch.getD 0 ∧ canonicalMembers X set = canonicalMembers X set' := by
  obtain ⟨ms, epoch, hms, hepoch, hlt, rfl⟩ := evmSetId_eq_ok.mp h
  obtain ⟨ms', epoch', hms', hepoch', hlt', heq⟩ := evmSetId_eq_ok.mp h'
  rw [setIdInputs, hms, hepoch, JsNum.toInt_natCast, Int.toNat_natCast] at hS
  rw [setIdInputs, hms', hepoch', JsNum.toInt_natCast, Int.toNat_natCast] at hS'
  obtain ⟨htag, hS⟩ := List.cons_subset.mp hS
  obtain ⟨hin, hlast⟩ := List.append_subset.mp hS
  obtain ⟨hin', hlast'⟩ := List.append_subset.mp (List.cons_subset.mp hS').2
  have hinput := hc _ (hlast List.mem_cons_self) _ (hlast' List.mem_cons_self) heq
  obtain ⟨hfold, hword⟩ := List.append_inj hinput
    ((length_memberFold ms).trans (length_memberFold ms').symm)
  have hnat := bigEndian_inj (lt_word (lt_two_pow_256 hlt)) (lt_word (lt_two_pow_256 hlt')) hword
  have hfields := memberFold_inj hc htag (fitsRecord_of_members hms) (fitsRecord_of_members hms')
    hin hin' hfold
  rw [hepoch, hepoch', hnat, hms, hms', members_eq_of_fields H hms hms' hfields]
  exact ⟨rfl, rfl⟩

end Sets

/-! ## Messages -/

/-- **The message determines its fields**, the set id among them. -/
theorem evmAttestMessage_inj {X : EvmExternals} (H : HexCodec X.toExternals)
    {suite suite' hash hash' : String} {height height' : JsNum} {target target' : EvmTarget}
    {id id' msg : Bytes} {T : List Bytes} (hc : CollisionFree X.hash T)
    (hT : messageInputs X suite height hash id target ⊆ T)
    (hT' : messageInputs X suite' height' hash' id' target' ⊆ T)
    (hmsg : evmAttestMessage X suite height hash id target = .ok msg)
    (hmsg' : evmAttestMessage X suite' height' hash' id' target' = .ok msg) :
    suite = suite' ∧ height = height' ∧ hash = hash' ∧ target.chainId = target'.chainId ∧
      target.verifier = target'.verifier ∧ id = id' := by
  obtain ⟨v, b, n, c, hlen, hv, hvlen, hb, hblen, hchain, hclt, rfl, hnlt, rfl⟩ :=
    evmAttestMessage_eq_ok.mp hmsg
  obtain ⟨v', b', n', c', hlen', hv', hvlen', hb', hblen', hchain', hclt', rfl, hnlt', heq⟩ :=
    evmAttestMessage_eq_ok.mp hmsg'
  rw [messageInputs, hv, hb, hchain, JsNum.toInt_natCast, Int.toNat_natCast,
    Int.toNat_natCast] at hT
  rw [messageInputs, hv', hb', hchain', JsNum.toInt_natCast, Int.toNat_natCast,
    Int.toNat_natCast] at hT'
  obtain ⟨hutf, hlast⟩ := List.cons_subset.mp (List.cons_subset.mp hT).2
  obtain ⟨hutf', hlast'⟩ := List.cons_subset.mp (List.cons_subset.mp hT').2
  -- the fields, from the last to the first
  have hinput : evmMessageInput X suite c v n b id = evmMessageInput X suite' c' v' n' b' id' :=
    hc _ (hlast List.mem_cons_self) _ (hlast' List.mem_cons_self) heq
  obtain ⟨hinput, hidEq⟩ := List.append_inj' hinput (hlen.trans hlen'.symm)
  obtain ⟨hinput, hbEq⟩ := List.append_inj' hinput (hblen.trans hblen'.symm)
  obtain ⟨hinput, hheight⟩ := List.append_inj' hinput (by rw [length_bigEndian, length_bigEndian])
  obtain ⟨hinput, hvEq⟩ := List.append_inj' hinput (hvlen.trans hvlen'.symm)
  obtain ⟨hinput, hcEq⟩ := List.append_inj' hinput (by rw [length_bigEndian, length_bigEndian])
  obtain ⟨-, hsuite⟩ := List.append_inj hinput rfl
  have hnEq : n = n' := bigEndian_inj (lt_word (lt_two_pow_256 hnlt))
    (lt_word (lt_two_pow_256 hnlt')) hheight
  have hchainEq : c = c' := bigEndian_inj (lt_word hclt) (lt_word hclt') hcEq
  refine ⟨utf8_injective (hc _ hutf _ hutf' hsuite), by rw [hnEq], ?_,
    by rw [hchain, hchain', hchainEq], ?_, hidEq⟩
  · rw [H.eq_of_decodeHex hb, H.eq_of_decodeHex hb', hbEq]
  · rw [H.eq_of_decodeHex hv, H.eq_of_decodeHex hv', hvEq]

/-- **The message binds everything it is for.** Two messages that are equal have the same
suite, height, block and target and come from sets with the same epoch and the same
canonical members, provided that no two strings hashed on the way collide. And the set id
does not depend on the order in which the set lists its validators. -/
theorem evm_message_binds {X : EvmExternals} (H : HexCodec X.toExternals)
    {S S' : ValidatorSet} {suite suite' hash hash' : String} {height height' : JsNum}
    {target target' : EvmTarget} {id id' msg : Bytes} (hid : evmSetId X S = .ok id)
    (hid' : evmSetId X S' = .ok id')
    (hmsg : evmAttestMessage X suite height hash id target = .ok msg)
    (hmsg' : evmAttestMessage X suite' height' hash' id' target' = .ok msg)
    (hc : CollisionFree X.hash (setIdInputs X S ++ messageInputs X suite height hash id target ++
      (setIdInputs X S' ++ messageInputs X suite' height' hash' id' target'))) :
    (suite = suite' ∧ height = height' ∧ hash = hash' ∧ target.chainId = target'.chainId ∧
      target.verifier = target'.verifier ∧ S.epoch.getD 0 = S'.epoch.getD 0 ∧
      canonicalMembers X S = canonicalMembers X S') ∧
    ∀ vs, S.validators.Perm vs → evmSetId X ⟨vs, S.epoch⟩ = .ok id := by
  refine ⟨?_, fun vs hperm => evmSetId_perm hperm hid⟩
  obtain ⟨hleft, hright⟩ := List.append_subset.mp (List.Subset.refl
    (setIdInputs X S ++ messageInputs X suite height hash id target ++
      (setIdInputs X S' ++ messageInputs X suite' height' hash' id' target')))
  obtain ⟨hset, hmessage⟩ := List.append_subset.mp hleft
  obtain ⟨hset', hmessage'⟩ := List.append_subset.mp hright
  obtain ⟨hsuite, hheight, hhash, hchain, hverifier, hidEq⟩ :=
    evmAttestMessage_inj H hc hmessage hmessage' hmsg hmsg'
  obtain ⟨hepoch, hmembers⟩ := evmSetId_inj H hc hset hset' hid (hidEq ▸ hid')
  exact ⟨hsuite, hheight, hhash, hchain, hverifier, hepoch, hmembers⟩

/-! ## A reordered set -/

theorem hexCodec_spell : HexCodec spellExternals.toExternals where
  lower b := by
    have hpair : ∀ n < 256, (hexPair (UInt8.ofNat n)).all (fun c =>
        decide ('0' ≤ c ∧ c ≤ '9') || decide ('a' ≤ c ∧ c ≤ 'f')) = true := by decide +kernel
    change isLowerHex (hexText b) = true
    rw [isLowerHex, hexText, String.toList_ofList, List.all_flatMap, List.all_eq_true]
    intro x _
    have h := hpair x.toNat x.toNat_lt
    rwa [UInt8.ofNat_toNat] at h
  length b := by
    have hpair : ∀ n < 256, ((hexPair (UInt8.ofNat n)).flatMap utf16Units).length = 2 := by
      decide +kernel
    change jsLength (hexText b) = 2 * b.length
    rw [jsLength, codeUnits, hexText, String.toList_ofList, List.flatMap_assoc]
    induction b with
    | nil => rfl
    | cons x b ih =>
      have h := hpair x.toNat x.toNat_lt
      rw [UInt8.ofNat_toNat] at h
      rw [List.flatMap_cons, List.length_append, ih, h, List.length_cons]
      omega
  decode b := by
    change (if hexText (hexToBytesLocal (hexText b)) = hexText b then
      Except.ok (hexToBytesLocal (hexText b)) else _) = _
    rw [hexToBytesLocal_hexText, if_pos rfl]
  encode s b _ h := by
    change (if hexText (hexToBytesLocal s) = s then _ else _) = _ at h
    split at h
    · rename_i heq
      obtain rfl := Except.ok.inj h
      exact heq
    · cases h

/-- The three validators in another order, with the epoch spelled out. -/
def trioReordered : ValidatorSet :=
  ⟨[⟨"01", 1, none⟩, ⟨"02", 1, none⟩, ⟨"00", 1, none⟩], some 0⟩

/-- `evm_message_binds` on two listings of the three validators. -/
theorem evm_message_binds_trio : ∃ id, evmSetId spellExternals trioSet = .ok id ∧
    evmSetId spellExternals trioReordered = .ok id ∧
    canonicalMembers spellExternals trioSet = canonicalMembers spellExternals trioReordered := by
  obtain ⟨id, msg, hid, hid', hmsg, hc⟩ : ∃ id msg, evmSetId spellExternals trioSet = .ok id ∧
      evmSetId spellExternals trioReordered = .ok id ∧
      evmAttestMessage spellExternals "PS-5" 4 (trioHash 8) id trioTarget = .ok msg ∧
      CollisionFree spellExternals.hash (setIdInputs spellExternals trioSet ++
        messageInputs spellExternals "PS-5" 4 (trioHash 8) id trioTarget ++
        (setIdInputs spellExternals trioReordered ++
          messageInputs spellExternals "PS-5" 4 (trioHash 8) id trioTarget)) := by
    refine ⟨valueOr [] (evmSetId spellExternals trioSet),
      valueOr [] (evmMessageOf spellExternals trioSet "PS-5" 4 (trioHash 8) trioTarget), ?_⟩
    rw [CollisionFree]
    decide +kernel
  obtain ⟨⟨-, -, -, -, -, -, hmembers⟩, -⟩ :=
    evm_message_binds hexCodec_spell hid hid' hmsg hmsg hc
  exact ⟨id, hid, hid', hmembers⟩

end Nerion
