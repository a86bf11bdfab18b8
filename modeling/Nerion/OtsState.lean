import Nerion.Basic
import Nerion.JsMap
import Nerion.JsNumber

/-!
# One-time keys (`keystore/src/hbs-state.ts`, `crypto/src/code-sign.ts`)

Hash-based signatures must never use a one-time key twice. `SoftwareOtsStateStore` hands out the
indices of the one-time keys of a key, one after the other; `HbsKeyProvider.sign` reserves one
before it calls the engine that signs. The engine is not trusted with anything: it reports what
parameters it likes, and while it signs it may throw or call back into a provider.

* `reserve_cases` — all that a reservation can do;
* `sign_indices` — at every moment of every run, the indices that the engine has been given for a
  key are the numbers from zero on, below the key's capacity; when it is used up, signing throws;
* `floor_effective_iff` — what a passed check against an external floor says about the indices
  to come.
-/

namespace Nerion

/-! ## The store -/

/-- `new PolicyError(code, message)`. -/
def policyError (message : String) : JsError := ⟨"PolicyError", message⟩

/-- `new OtsKeyExhaustedError(keyId)`. -/
def otsKeyExhaustedError (keyId : String) : JsError :=
  ⟨"OtsKeyExhaustedError", "one-time-key HBS key " ++ keyId ++
    " exhausted; rotate to a fresh single-tree key"⟩

/-- `new OtsStateRollbackError(keyId)`. -/
def otsStateRollbackError (keyId : String) : JsError :=
  ⟨"OtsStateRollbackError", "one-time-key HBS key " ++ keyId ++
    " state rolled back below its monotonic floor; a reused OTS index forges — refusing"⟩

/-- The state of a key. -/
structure OtsEntry where
  /-- height of the tree -/
  height : JsNum
  /-- number of one-time keys -/
  total : JsNum
  /-- the next index -/
  next : JsNum
  deriving DecidableEq

structure OtsCapacity where
  /-- height of the tree -/
  height : JsNum
  /-- number of one-time keys -/
  total : JsNum
  /-- how many are used -/
  consumed : JsNum

/-- `SoftwareOtsStateStore`: its `keys`. -/
structure SoftwareOtsStateStore where
  keys : JsMap String OtsEntry

/-- `2 ** height`, for a height that `state` has checked. -/
def twoPow (height : JsNum) : JsNum := ((2 ^ height.toInt.toNat : ℕ) : JsNum)

namespace SoftwareOtsStateStore

/-- A store without keys. -/
def fresh : SoftwareOtsStateStore := ⟨JsMap.empty⟩

/-- `state`: the entry of the key and the store, in which it may be new. -/
def state (s : SoftwareOtsStateStore) (keyId : String) (height : JsNum) :
    Except JsError (OtsEntry × SoftwareOtsStateStore) :=
  match s.keys.get? keyId with
  | none =>
    if !height.isInteger || JsNum.lt height 0 || JsNum.lt 32 height then
      .error (policyError ("invalid single-tree height " ++ height.text))
    else
      let e : OtsEntry := ⟨height, twoPow height, 0⟩
      .ok (e, ⟨s.keys.set keyId e⟩)
  | some e =>
    if !JsNum.strictEq e.height height then
      .error (policyError ("height for " ++ keyId ++ " changed " ++ e.height.text ++ " -> " ++
        height.text))
    else .ok (e, s)

/-- `reserve`: the index or what is thrown, and the store afterwards. -/
def reserve (s : SoftwareOtsStateStore) (keyId : String) (height : JsNum) :
    Except JsError JsNum × SoftwareOtsStateStore :=
  match s.state keyId height with
  | .error e => (.error e, s)
  | .ok (e, s') =>
    if JsNum.le e.total e.next then (.error (otsKeyExhaustedError keyId), s')
    else (.ok e.next, ⟨s'.keys.set keyId { e with next := e.next + 1 }⟩)

def capacity (s : SoftwareOtsStateStore) (keyId : String) : OtsCapacity :=
  match s.keys.get? keyId with
  | none => ⟨0, 0, 0⟩
  | some e => ⟨e.height, e.total, e.next⟩

def assertMonotonicFloor (s : SoftwareOtsStateStore) (keyId : String) (externalFloor : JsNum) :
    Except JsError Unit :=
  match s.keys.get? keyId with
  | none => .ok ()
  | some e =>
    if JsNum.lt e.next externalFloor then .error (otsStateRollbackError keyId) else .ok ()

end SoftwareOtsStateStore

/-! ## Keys as counters

What an entry of the store stands for: a counter with a capacity. -/

/-- A key of `2 ^ height` one-time keys, of which `next` are used. -/
structure OtsKey where
  /-- height of the tree -/
  height : ℕ
  /-- the next index -/
  next : ℕ
  /-- trees are small -/
  height_le : height ≤ 32
  /-- no more are used than there are -/
  next_le : next ≤ 2 ^ height

namespace OtsKey

/-- The entry that stands for the key. -/
def entry (k : OtsKey) : OtsEntry := ⟨k.height, ((2 ^ k.height : ℕ) : JsNum), k.next⟩

/-- A key none of which is used. -/
def unused (height : ℕ) (h : height ≤ 32) : OtsKey := ⟨height, 0, h, Nat.zero_le _⟩

/-- The key after one more index. -/
def advance (k : OtsKey) (h : k.next < 2 ^ k.height) : OtsKey :=
  ⟨k.height, k.next + 1, k.height_le, h⟩

theorem advance_entry (k : OtsKey) (h : k.next < 2 ^ k.height) :
    (k.advance h).entry = { k.entry with next := k.entry.next + 1 } := by
  have hexact : k.next + 1 ≤ 2 ^ 53 :=
    calc k.next + 1 ≤ 2 ^ k.height := h
      _ ≤ 2 ^ 53 := Nat.pow_le_pow_right two_pos (k.height_le.trans (by decide))
  have hadd : ((k.next + 1 : ℕ) : JsNum) = (k.next : JsNum) + 1 := (JsNum.add_natCast hexact).symm
  rw [entry, advance, entry, hadd]

theorem entry_inj {k k' : OtsKey} (h : k.entry = k'.entry) :
    k.height = k'.height ∧ k.next = k'.next := by
  obtain ⟨hheight, -, hnext⟩ := OtsEntry.mk.inj h
  exact ⟨JsNum.natCast_injective hheight, JsNum.natCast_injective hnext⟩

/-- Whether every index is used. -/
theorem total_le_next (k : OtsKey) :
    JsNum.le k.entry.total k.entry.next = true ↔ k.next = 2 ^ k.height := by
  rw [entry, JsNum.le_natCast, decide_eq_true_iff]
  exact ⟨fun h => Nat.le_antisymm k.next_le h, fun h => h.ge⟩

end OtsKey

namespace SoftwareOtsStateStore

/-- Every entry stands for a key. -/
def Sound (s : SoftwareOtsStateStore) : Prop :=
  ∀ keyId e, s.keys.get? keyId = some e → ∃ k : OtsKey, e = k.entry

theorem sound_fresh : fresh.Sound := fun keyId e h => by
  rw [fresh, JsMap.get?_empty] at h
  cases h

/-- A height that a new key may have. -/
theorem exists_height {height : JsNum}
    (h : (!height.isInteger || JsNum.lt height 0 || JsNum.lt 32 height) = false) :
    ∃ n : ℕ, n ≤ 32 ∧ height = n := by
  simp only [Bool.or_eq_false_iff, Bool.not_eq_false'] at h
  obtain ⟨⟨hint, hpos⟩, hmax⟩ := h
  obtain ⟨n, rfl⟩ := JsNum.exists_natCast_of_isInteger hint hpos
  have hle : JsNum.lt ((32 : ℕ) : JsNum) (n : JsNum) = false := hmax
  rw [JsNum.lt_natCast, decide_eq_false_iff_not, not_lt] at hle
  exact ⟨n, hle, rfl⟩

/-- What the entry of a key is when a reservation gets to it. -/
theorem state_eq_ok {s s' : SoftwareOtsStateStore} (hs : s.Sound) {keyId : String} {height : JsNum}
    {e : OtsEntry} (h : s.state keyId height = .ok (e, s')) :
    ∃ k : OtsKey, e = k.entry ∧ height = k.height ∧
      (s.keys.get? keyId = some k.entry ∧ s' = s ∨
        s.keys.get? keyId = none ∧ k.next = 0 ∧ s' = ⟨s.keys.set keyId e⟩) := by
  rw [state] at h
  cases hget : s.keys.get? keyId with
  | none =>
    simp only [hget] at h
    split at h
    · cases h
    · rename_i hheight
      obtain ⟨n, hn, rfl⟩ := exists_height (Bool.eq_false_of_not_eq_true hheight)
      obtain ⟨rfl, rfl⟩ := Prod.mk.inj (Except.ok.inj h)
      refine ⟨.unused n hn, ?_, rfl, .inr ⟨rfl, rfl, rfl⟩⟩
      rw [twoPow, JsNum.toInt_natCast, Int.toNat_natCast]
      rfl
  | some e0 =>
    simp only [hget] at h
    split at h
    · cases h
    · rename_i heq
      rw [Bool.not_eq_true, Bool.not_eq_false', JsNum.strictEq_iff] at heq
      obtain ⟨rfl, rfl⟩ := Prod.mk.inj (Except.ok.inj h)
      obtain ⟨k, rfl⟩ := hs keyId _ hget
      exact ⟨k, rfl, heq.2.symm, .inl ⟨rfl, rfl⟩⟩

variable {s : SoftwareOtsStateStore}

/-- **All that a reservation can do**: it throws and leaves the store as it is, or it hands out
the next index of a key, which is new or recorded with this height, and records the next one. -/
theorem reserve_cases (hs : s.Sound) (keyId : String) (height : JsNum) :
    (∃ err, s.reserve keyId height = (.error err, s)) ∨
    ∃ (k : OtsKey) (hlt : k.next < 2 ^ k.height), height = k.height ∧
      (s.keys.get? keyId = some k.entry ∨ s.keys.get? keyId = none ∧ k.next = 0) ∧
      (s.reserve keyId height).1 = .ok (k.next : JsNum) ∧
      ∀ keyId', (s.reserve keyId height).2.keys.get? keyId' =
        if keyId' = keyId then some (k.advance hlt).entry else s.keys.get? keyId' := by
  rw [reserve]
  cases hstate : s.state keyId height with
  | error err => exact .inl ⟨err, rfl⟩
  | ok r =>
    obtain ⟨e, s'⟩ := r
    obtain ⟨k, rfl, hheight, hkey⟩ := state_eq_ok hs hstate
    dsimp only
    by_cases hfull : JsNum.le k.entry.total k.entry.next = true
    · -- a new key has an index left, so this one was there before
      rw [if_pos hfull]
      rcases hkey with ⟨-, rfl⟩ | ⟨-, hzero, -⟩
      · exact .inl ⟨_, rfl⟩
      · have hnext := k.total_le_next.mp hfull
        rw [hzero] at hnext
        exact absurd hnext.symm (Nat.two_pow_pos _).ne'
    · rw [if_neg hfull]
      have hlt : k.next < 2 ^ k.height :=
        lt_of_le_of_ne k.next_le fun h => hfull (k.total_le_next.mpr h)
      refine .inr ⟨k, hlt, hheight, ?_, rfl, fun keyId' => ?_⟩
      · exact hkey.imp (fun h => h.1) fun h => ⟨h.1, h.2.1⟩
      · rw [JsMap.get?_set, OtsKey.advance_entry]
        rcases hkey with ⟨-, rfl⟩ | ⟨-, -, rfl⟩
        · rfl
        · split
          · rfl
          · rename_i hne
            rw [JsMap.get?_set, if_neg hne]

/-- What a reservation that returns an index says. -/
theorem reserve_ok (hs : s.Sound) {keyId : String} {height index : JsNum}
    (h : (s.reserve keyId height).1 = .ok index) :
    ∃ (k : OtsKey) (hlt : k.next < 2 ^ k.height), height = k.height ∧ index = k.next ∧
      (s.keys.get? keyId = some k.entry ∨ s.keys.get? keyId = none ∧ k.next = 0) ∧
      ∀ keyId', (s.reserve keyId height).2.keys.get? keyId' =
        if keyId' = keyId then some (k.advance hlt).entry else s.keys.get? keyId' := by
  obtain ⟨err, herr⟩ | ⟨k, hlt, hheight, hkey, hnext, hget⟩ := reserve_cases hs keyId height
  · rw [herr] at h
    cases h
  · exact ⟨k, hlt, hheight, Except.ok.inj (h.symm.trans hnext), hkey, hget⟩

/-- The key that a reservation gets to is the one recorded. -/
theorem eq_of_recorded {keyId : String} {k k' : OtsKey} (hk : s.keys.get? keyId = some k.entry)
    (hkey : s.keys.get? keyId = some k'.entry ∨ s.keys.get? keyId = none ∧ k'.next = 0) :
    k.height = k'.height ∧ k.next = k'.next := by
  rw [hk] at hkey
  rcases hkey with hsome | ⟨hnone, -⟩
  · exact OtsKey.entry_inj (Option.some.inj hsome)
  · cases hnone

/-- A reservation keeps the store sound. -/
theorem Sound.reserve (hs : s.Sound) (keyId : String) (height : JsNum) :
    (s.reserve keyId height).2.Sound := by
  obtain ⟨err, herr⟩ | ⟨k, hlt, -, -, -, hget⟩ := reserve_cases hs keyId height
  · rw [herr]
    exact hs
  · intro keyId' e he
    rw [hget] at he
    split at he
    · exact ⟨_, (Option.some.inj he).symm⟩
    · exact hs keyId' e he

end SoftwareOtsStateStore

/-! ## Signing -/

/-- The family of a hash-based signature. -/
inductive HbsFamily where
  /-- `'LMS'` -/
  | lms
  /-- `'XMSS'` -/
  | xmss
  deriving DecidableEq

/-- The text of a family. -/
def HbsFamily.text : HbsFamily → String
  | lms => "LMS"
  | xmss => "XMSS"

/-- `HbsParams`, as far as signing reads them. -/
structure HbsParams where
  family : HbsFamily
  /-- whether the engine says it is a multi-tree -/
  multiTree : Bool
  /-- height of the tree -/
  height : JsNum

/-- Whether a text, read without regard to the case of Latin letters, contains `part`. -/
def containsFolded (part text : String) : Bool :=
  (text.toList.map Char.toUpper).tails.any fun rest => part.toList.isPrefixOf rest

/-- `MULTI_TREE_ID.test`. -/
def multiTreeId (text : String) : Bool :=
  ["HSS", "XMSSMT", "_MT_", "MT-"].any fun part => containsFolded part text

def assertSingleTree (params : HbsParams) (id : String) : Except JsError Unit :=
  if params.multiTree || multiTreeId id || multiTreeId params.family.text then
    .error (policyError (params.family.text ++
      " multi-tree (HSS/XMSS^MT) is EXCLUDED by CNSA 2.0 for code/firmware signing; " ++
      "single-tree LMS/XMSS only"))
  else .ok ()

/-- A call of `engine.signWithIndex`, with the height the index was reserved for. -/
structure SignEvent where
  keyId : String
  /-- height the index was reserved for -/
  height : JsNum
  index : JsNum
  /-- what is signed -/
  message : Bytes
  deriving DecidableEq

/-- The store that the providers share and the calls of the engine so far. -/
structure HbsRun where
  store : SoftwareOtsStateStore
  /-- the calls of `signWithIndex`, oldest first -/
  signed : List SignEvent

/-- A call of `sign`, by any provider of the store, with all that the engine does in it. -/
inductive SignCall where
  /-- a call -/
  | sign
    /- the key -/
    (keyId : String)
    /- what is signed -/
    (message : Bytes)
    /- what `engine.params` returns or throws -/
    (params : Except JsError HbsParams)
    /- the calls of `sign` made while the engine signs -/
    (callbacks : List SignCall)
    /- what `engine.signWithIndex` returns or throws -/
    (result : Except JsError Bytes)

namespace HbsRun

/-- A run that begins with a fresh store. -/
def start : HbsRun := ⟨.fresh, []⟩

/-- `sign` up to the call of the engine: the index it is called with. -/
def beginSign (s : HbsRun) (keyId : String) (message : Bytes) (params : Except JsError HbsParams) :
    Except JsError JsNum × HbsRun :=
  match params with
  | .error e => (.error e, s)
  | .ok params =>
    match assertSingleTree params keyId with
    | .error e => (.error e, s)
    | .ok () =>
      match s.store.reserve keyId params.height with
      | (.error e, store) => (.error e, { s with store })
      | (.ok index, store) =>
        (.ok index, ⟨store, s.signed ++ [⟨keyId, params.height, index, message⟩]⟩)

mutual

/-- `sign`: what it returns or throws, and the run afterwards. -/
def sign (s : HbsRun) : SignCall → Except JsError Bytes × HbsRun
  | .sign keyId message params callbacks result =>
    match s.beginSign keyId message params with
    | (.error e, s') => (.error e, s')
    | (.ok _, s') => (result, signAll s' callbacks)

/-- Calls one after the other. -/
def signAll (s : HbsRun) : List SignCall → HbsRun
  | [] => s
  | c :: cs => signAll (sign s c).2 cs

end

/-- The calls of the engine for a key. -/
def signedWith (s : HbsRun) (keyId : String) : List SignEvent :=
  s.signed.filter fun e => decide (e.keyId = keyId)

/-- A run at a moment at which a call of `sign` may begin: when it starts, when a call has returned
or thrown, and while the engine signs. -/
inductive Moment : HbsRun → Prop where
  /-- the run starts -/
  | start : Moment start
  /-- a call has returned or thrown -/
  | returned {s : HbsRun} (c : SignCall) : Moment s → Moment (s.sign c).2
  /-- the engine signs -/
  | signing {s : HbsRun} {keyId : String} {message : Bytes} {params : Except JsError HbsParams}
      {index : JsNum} : Moment s → (s.beginSign keyId message params).1 = .ok index →
      Moment (s.beginSign keyId message params).2

/-! ## What holds at every moment -/

/-- What the run says about a key agrees with its history: there is no entry and the engine was
never called, or the entry is a counter, and the engine was called with the indices it counts. -/
def KeyAgrees (s : HbsRun) (keyId : String) : Prop :=
  s.store.keys.get? keyId = none ∧ s.signedWith keyId = [] ∨
  ∃ k : OtsKey, s.store.keys.get? keyId = some k.entry ∧
    (s.signedWith keyId).map (·.index) = (List.range k.next).map Nat.cast ∧
    ∀ e ∈ s.signedWith keyId, e.height = k.height

/-- Every key agrees with its history. -/
def Agrees (s : HbsRun) : Prop := ∀ keyId, s.KeyAgrees keyId

theorem agrees_start : start.Agrees := fun keyId => .inl ⟨JsMap.get?_empty keyId, rfl⟩

theorem Agrees.sound {s : HbsRun} (hs : s.Agrees) : s.store.Sound := by
  intro keyId e he
  rcases hs keyId with ⟨hnone, -⟩ | ⟨k, hk, -⟩
  · rw [hnone] at he
    cases he
  · rw [hk] at he
    exact ⟨k, (Option.some.inj he).symm⟩

/-- **All that `sign` can do before the engine signs**: it throws and nothing has changed, or it
reserves an index and calls the engine with it. -/
theorem beginSign_cases (s : HbsRun) (hs : s.store.Sound) (keyId : String) (message : Bytes)
    (params : Except JsError HbsParams) :
    (∃ err, s.beginSign keyId message params = (.error err, s)) ∨
    ∃ (p : HbsParams) (index : JsNum), (s.store.reserve keyId p.height).1 = .ok index ∧
      s.beginSign keyId message params = (.ok index, ⟨(s.store.reserve keyId p.height).2,
        s.signed ++ [⟨keyId, p.height, index, message⟩]⟩) := by
  cases params with
  | error err => exact .inl ⟨err, rfl⟩
  | ok p =>
    simp only [beginSign]
    cases assertSingleTree p keyId with
    | error err => exact .inl ⟨err, rfl⟩
    | ok _ =>
      obtain ⟨err, herr⟩ | ⟨k, -, -, -, hindex, -⟩ :=
        SoftwareOtsStateStore.reserve_cases hs keyId p.height
      · rw [herr]
        exact .inl ⟨err, rfl⟩
      · refine .inr ⟨p, k.next, hindex, ?_⟩
        rw [← Prod.mk.eta (p := s.store.reserve keyId p.height), hindex]

theorem signedWith_append (s : HbsRun) (store : SoftwareOtsStateStore) (e : SignEvent)
    (keyId : String) : signedWith ⟨store, s.signed ++ [e]⟩ keyId =
      if e.keyId = keyId then s.signedWith keyId ++ [e] else s.signedWith keyId := by
  rw [signedWith, List.filter_append, signedWith]
  by_cases h : e.keyId = keyId <;> simp [h]

/-- The step: a reservation with the call of the engine keeps keys and histories in agreement. -/
theorem Agrees.beginSign {s : HbsRun} (hs : s.Agrees) (keyId : String) (message : Bytes)
    (params : Except JsError HbsParams) : (s.beginSign keyId message params).2.Agrees := by
  obtain ⟨err, herr⟩ | ⟨p, index, hindex, hbegin⟩ :=
    beginSign_cases s hs.sound keyId message params
  · rw [herr]
    exact hs
  · rw [hbegin]
    obtain ⟨k, hlt, hheight, rfl, hkey, hget⟩ :=
      SoftwareOtsStateStore.reserve_ok hs.sound hindex
    intro keyId'
    by_cases hne : keyId' = keyId
    · subst hne
      -- the history so far is that of the counter before it is advanced
      have hold : (s.signedWith keyId').map (·.index) = (List.range k.next).map Nat.cast ∧
          ∀ e ∈ s.signedWith keyId', e.height = k.height := by
        rcases hs keyId' with ⟨hnone, hnil⟩ | ⟨k', hk', hindices, hheights⟩
        · have hzero : k.next = 0 := by
            rcases hkey with hsome | ⟨-, hzero⟩
            · rw [hnone] at hsome
              cases hsome
            · exact hzero
          rw [hnil, hzero]
          exact ⟨rfl, fun e he => absurd he List.not_mem_nil⟩
        · obtain ⟨hheight', hnext⟩ := SoftwareOtsStateStore.eq_of_recorded hk' hkey
          rw [← hnext, ← hheight']
          exact ⟨hindices, hheights⟩
      refine .inr ⟨k.advance hlt, by rw [hget, if_pos rfl], ?_, ?_⟩
      · rw [signedWith_append, if_pos rfl, List.map_append, hold.1, OtsKey.advance,
          List.range_succ, List.map_append]
        rfl
      · rw [signedWith_append, if_pos rfl]
        intro e he
        rcases List.mem_append.mp he with he | he
        · exact hold.2 e he
        · rw [List.mem_singleton.mp he]
          exact hheight
    · rcases hs keyId' with ⟨hnone, hnil⟩ | ⟨k', hk', hrest⟩
      · refine .inl ⟨by rw [hget, if_neg hne, hnone], ?_⟩
        rw [signedWith_append, if_neg (Ne.symm hne), hnil]
      · refine .inr ⟨k', by rw [hget, if_neg hne, hk'], ?_⟩
        rw [signedWith_append, if_neg (Ne.symm hne)]
        exact hrest

mutual

/-- A whole call, with the calls made while the engine signs. -/
theorem Agrees.sign {s : HbsRun} (hs : s.Agrees) : (c : SignCall) → (s.sign c).2.Agrees
  | .sign keyId message params callbacks result => by
    have hbegin := hs.beginSign keyId message params
    rw [HbsRun.sign]
    rcases hcall : s.beginSign keyId message params with ⟨_ | _, s'⟩
    · rw [hcall] at hbegin
      exact hbegin
    · rw [hcall] at hbegin
      exact Agrees.signAll hbegin callbacks

/-- Calls one after the other. -/
theorem Agrees.signAll {s : HbsRun} (hs : s.Agrees) : (cs : List SignCall) → (s.signAll cs).Agrees
  | [] => hs
  | c :: cs => Agrees.signAll (Agrees.sign hs c) cs

end

theorem Moment.agrees {s : HbsRun} (hs : Moment s) : s.Agrees := by
  induction hs with
  | start => exact agrees_start
  | returned c _ ih => exact ih.sign c
  | signing _ _ ih => exact ih.beginSign _ _ _

/-- Signing with a key that is used up throws. -/
theorem sign_of_exhausted {s : HbsRun} (hs : s.store.Sound) {keyId : String} {k : OtsKey}
    (hk : s.store.keys.get? keyId = some k.entry) (hfull : k.next = 2 ^ k.height)
    (message : Bytes) (params : Except JsError HbsParams) (callbacks : List SignCall)
    (result : Except JsError Bytes) :
    ∃ err, s.sign (.sign keyId message params callbacks result) = (.error err, s) := by
  obtain ⟨err, herr⟩ | ⟨p, index, hindex, -⟩ := beginSign_cases s hs keyId message params
  · refine ⟨err, ?_⟩
    rw [HbsRun.sign, herr]
  · obtain ⟨k', hlt, -, -, hkey, -⟩ := SoftwareOtsStateStore.reserve_ok hs hindex
    obtain ⟨hheight, hnext⟩ := SoftwareOtsStateStore.eq_of_recorded hk hkey
    rw [← hnext, ← hheight, hfull] at hlt
    exact absurd hlt (lt_irrefl _)

end HbsRun

/-- **No one-time key is used twice.** At every moment of every run, the indices that the engine
has been called with for a key are naturals in increasing order. They are below `2 ^ height` for
the height that the key's first index was reserved for, which is the one the store records; and
once there are as many of them, every further call of `sign` for the key throws, and the engine is
not called. -/
theorem sign_indices {s : HbsRun} (hs : s.Moment) (keyId : String) :
    ∃ indices : List ℕ, (s.signedWith keyId).map (·.index) = indices.map Nat.cast ∧
      indices.Pairwise (· < ·) ∧
      ∀ first ∈ (s.signedWith keyId).head?, ∃ height : ℕ, first.height = height ∧
        (s.store.capacity keyId).height = height ∧ (∀ i ∈ indices, i < 2 ^ height) ∧
        (indices.length = 2 ^ height → ∀ message params callbacks result,
          ∃ err, s.sign (.sign keyId message params callbacks result) = (.error err, s)) := by
  rcases hs.agrees keyId with ⟨-, hnil⟩ | ⟨k, hk, hindices, hheights⟩
  · refine ⟨[], by rw [hnil]; rfl, .nil, fun first hfirst => ?_⟩
    rw [hnil] at hfirst
    cases hfirst
  · refine ⟨List.range k.next, hindices, List.pairwise_lt_range, fun first hfirst => ?_⟩
    refine ⟨k.height, hheights first (List.mem_of_mem_head? hfirst), ?_, fun i hi => ?_, ?_⟩
    · rw [SoftwareOtsStateStore.capacity, hk]
      rfl
    · exact (List.mem_range.mp hi).trans_le k.next_le
    · intro hlength
      rw [List.length_range] at hlength
      exact HbsRun.sign_of_exhausted hs.agrees.sound hk hlength

/-- A call for a key of two one-time keys; while the engine signs, it signs with the same key, and
the inner call throws. -/
def reentrantCall : SignCall :=
  .sign "k" [9] (.ok ⟨.lms, false, 1⟩)
    [.sign "k" [7] (.ok ⟨.lms, false, 1⟩) [] (.error ⟨"Error", "module busy"⟩)] (.ok [1])

theorem sign_indices_reentrant :
    ((HbsRun.start.sign reentrantCall).2.signedWith "k").map (·.index) = [0, 1] ∧
    ∃ indices : List ℕ,
      ((HbsRun.start.sign reentrantCall).2.signedWith "k").map (·.index) =
        indices.map Nat.cast ∧ indices.Pairwise (· < ·) := by
  obtain ⟨indices, hindices, hsorted, -⟩ := sign_indices (.returned reentrantCall .start) "k"
  exact ⟨by decide +kernel, indices, hindices, hsorted⟩

/-! ## The external floor -/

namespace SoftwareOtsStateStore

/-- The stores that reservations lead to. -/
inductive Reachable : SoftwareOtsStateStore → Prop where
  /-- a fresh store -/
  | fresh : Reachable fresh
  /-- a reservation, whether it throws or not -/
  | reserve {s : SoftwareOtsStateStore} (keyId : String) (height : JsNum) :
      Reachable s → Reachable (s.reserve keyId height).2

variable {s : SoftwareOtsStateStore} {keyId : String} {k : OtsKey}

theorem Reachable.sound (hs : s.Reachable) : s.Sound := by
  induction hs with
  | fresh => exact sound_fresh
  | reserve keyId height _ ih => exact ih.reserve keyId height

/-- The store after reservations, of any keys and with any heights. -/
def reserveAll (s : SoftwareOtsStateStore) : List (String × JsNum) → SoftwareOtsStateStore
  | [] => s
  | (keyId, height) :: rest => reserveAll (s.reserve keyId height).2 rest

/-- Every index that a later reservation of the key returns is at least the floor. -/
def FloorHolds (s : SoftwareOtsStateStore) (keyId : String) (externalFloor : JsNum) : Prop :=
  ∀ ops height index, ((s.reserveAll ops).reserve keyId height).1 = .ok index →
    JsNum.le externalFloor index = true

theorem Sound.reserveAll (hs : s.Sound) (ops : List (String × JsNum)) :
    (s.reserveAll ops).Sound := by
  induction ops generalizing s with
  | nil => exact hs
  | cons op rest ih => exact ih (hs.reserve op.1 op.2)

/-- A reservation does not take a counter back. -/
theorem keeps_reserve (hs : s.Sound) (hk : s.keys.get? keyId = some k.entry) (keyId' : String)
    (height : JsNum) :
    ∃ k' : OtsKey, (s.reserve keyId' height).2.keys.get? keyId = some k'.entry ∧
      k'.height = k.height ∧ k.next ≤ k'.next := by
  obtain ⟨err, herr⟩ | ⟨k0, hlt, -, hkey, -, hget⟩ := reserve_cases hs keyId' height
  · rw [herr]
    exact ⟨k, hk, rfl, le_rfl⟩
  · by_cases heq : keyId = keyId'
    · subst heq
      obtain ⟨hheight, hnext⟩ := eq_of_recorded hk hkey
      refine ⟨k0.advance hlt, by rw [hget, if_pos rfl], hheight.symm, ?_⟩
      rw [hnext]
      exact Nat.le_succ _
    · exact ⟨k, by rw [hget, if_neg heq, hk], rfl, le_rfl⟩

theorem keeps_reserveAll (hs : s.Sound) (hk : s.keys.get? keyId = some k.entry)
    (ops : List (String × JsNum)) :
    ∃ k' : OtsKey, (s.reserveAll ops).keys.get? keyId = some k'.entry ∧
      k'.height = k.height ∧ k.next ≤ k'.next := by
  induction ops generalizing s k with
  | nil => exact ⟨k, hk, rfl, le_rfl⟩
  | cons op rest ih =>
    obtain ⟨k1, hk1, hheight1, hle1⟩ := keeps_reserve hs hk op.1 op.2
    obtain ⟨k2, hk2, hheight2, hle2⟩ := ih (hs.reserve op.1 op.2) hk1
    exact ⟨k2, hk2, hheight2.trans hheight1, hle1.trans hle2⟩

/-- The indices still to come from a recorded key. -/
theorem later_index (hs : s.Sound) (hk : s.keys.get? keyId = some k.entry)
    {ops : List (String × JsNum)} {height index : JsNum}
    (h : ((s.reserveAll ops).reserve keyId height).1 = .ok index) :
    ∃ n : ℕ, index = n ∧ k.next ≤ n ∧ n < 2 ^ k.height := by
  obtain ⟨k', hk', hheight, hle⟩ := keeps_reserveAll hs hk ops
  obtain ⟨k0, hlt, -, rfl, hkey, -⟩ := reserve_ok (hs.reserveAll ops) h
  obtain ⟨hheight0, hnext0⟩ := eq_of_recorded hk' hkey
  rw [← hheight0, hheight] at hlt
  rw [hnext0] at hle
  exact ⟨k0.next, rfl, hle, hlt⟩

/-- The first index of a key that is not recorded. -/
theorem reserve_new (h : s.keys.get? keyId = none) {n : ℕ} (hn : n ≤ 32) :
    (s.reserve keyId n).1 = .ok 0 := by
  have hlow : JsNum.lt n 0 = false := by
    rw [JsNum.zero_def, JsNum.lt_natCast, decide_eq_false (Nat.not_lt_zero n)]
  have hhigh : JsNum.lt 32 n = false := by
    change JsNum.lt ((32 : ℕ) : JsNum) n = false
    rw [JsNum.lt_natCast, decide_eq_false (not_lt.mpr hn)]
  have hleft : JsNum.le (twoPow n) 0 = false := by
    rw [twoPow, JsNum.zero_def, JsNum.le_natCast, decide_eq_false (not_le.mpr (Nat.two_pow_pos _))]
  simp [reserve, state, h, hlow, hhigh, hleft]

/-- The next index of a key that is recorded and not used up. -/
theorem reserve_recorded (hk : s.keys.get? keyId = some k.entry) (hlt : k.next ≠ 2 ^ k.height) :
    (s.reserve keyId k.height).1 = .ok (k.next : JsNum) := by
  have hheight : JsNum.strictEq k.entry.height k.height = true := by
    rw [OtsKey.entry, JsNum.strictEq_natCast, decide_eq_true rfl]
  have hleft : JsNum.le k.entry.total k.entry.next = false :=
    Bool.eq_false_of_not_eq_true fun h => hlt (k.total_le_next.mp h)
  simp only [reserve, state, hk, hheight, hleft, Bool.not_true, Bool.false_eq_true, if_false]
  rfl

end SoftwareOtsStateStore

open SoftwareOtsStateStore in
/-- **When a passed floor check says something.** After the check has passed, the floor holds for
every later index if the key is recorded, unless the floor is not a number and the key still has
indices; for a key that is not recorded, it holds only for floors that say nothing. -/
theorem floor_effective_iff {s : SoftwareOtsStateStore} (hs : s.Reachable) {keyId : String}
    {externalFloor : JsNum} (hpass : s.assertMonotonicFloor keyId externalFloor = .ok ()) :
    s.FloorHolds keyId externalFloor ↔
      match s.keys.get? keyId with
      | none => JsNum.le externalFloor 0 = true
      | some e => externalFloor ≠ .nan ∨ JsNum.le e.total e.next = true := by
  cases hget : s.keys.get? keyId with
  | none =>
    refine ⟨fun h => h [] 0 0 (reserve_new hget (Nat.zero_le 32)),
      fun h ops height index hindex => ?_⟩
    obtain ⟨k, -, -, rfl, -⟩ := reserve_ok (hs.sound.reserveAll ops) hindex
    refine JsNum.le_trans h ?_
    rw [JsNum.zero_def, JsNum.le_natCast, decide_eq_true (Nat.zero_le _)]
  | some e =>
    obtain ⟨k, rfl⟩ := hs.sound keyId e hget
    have hfloor : JsNum.lt k.next externalFloor = false := by
      simp only [assertMonotonicFloor, hget] at hpass
      split at hpass
      · cases hpass
      · rename_i h
        exact Bool.eq_false_of_not_eq_true h
    constructor
    · intro h
      by_cases hfull : k.next = 2 ^ k.height
      · exact .inr (k.total_le_next.mpr hfull)
      · refine .inl fun hnan => ?_
        have hle := h [] k.height k.next (reserve_recorded hget hfull)
        rw [hnan] at hle
        cases hle
    · intro h ops height index hindex
      obtain ⟨n, rfl, hle, hlt⟩ := later_index hs.sound hget hindex
      rcases h with hnan | hfull
      · refine JsNum.le_trans (JsNum.le_of_not_lt hfloor (by simp [JsNum.natCast_def]) hnan) ?_
        rw [JsNum.le_natCast, decide_eq_true hle]
      · rw [k.total_le_next] at hfull
        omega

/-- A recorded key: the floor that passes holds. -/
theorem floor_effective_recorded :
    (SoftwareOtsStateStore.fresh.reserve "k" 3).2.FloorHolds "k" 1 :=
  (floor_effective_iff (.reserve "k" 3 .fresh) (by decide +kernel)).mpr
    (.inl (by decide +kernel))

/-- A key that is not recorded: every floor passes, and the first index is zero. -/
theorem floor_passes_unrecorded :
    SoftwareOtsStateStore.fresh.assertMonotonicFloor "k" 5 = .ok () ∧
      ¬ SoftwareOtsStateStore.fresh.FloorHolds "k" 5 := by
  refine ⟨rfl, fun h => ?_⟩
  have hle := h [] 3 0 (by decide +kernel)
  revert hle
  decide +kernel

end Nerion
