import Nerion.OtsState

/-!
# What is left of a one-time key (`keystore/src/hbs-state.ts`)

`HbsKeyProvider.remaining` is the capacity of a key less the indices handed out. The store has no
entry for a key before the first index is reserved, and `capacity` then answers with zeros.

Here the engine is steady for a key: it reports the same parameters each time, of a single tree,
and every call of it returns. Then the calls of `sign` for the key succeed until the indices are
used up, and throw from then on, whatever is signed with other keys in between and whatever the
engine calls while it signs.

* `HasLeft.outcomes` — what one call does to the indices left, and with it every run of calls;
* `SteadyMoment.hasLeft` — at every moment of every run the indices left are a number;
* `remaining_truthful_iff` — `remaining` is that number exactly when the key has signed;
* `remaining_of_new_key` — for a new key it is zero, and four calls succeed.
-/

namespace Nerion

/-! ## Steady engines -/

mutual

/-- In the call and in all that the engine calls while it signs, the engine reports the parameters
`p` for the key, and returns. -/
def SignCall.Steady (keyId : String) (p : HbsParams) : SignCall → Prop
  | .sign keyId' _ params callbacks result =>
    (keyId' = keyId → params = .ok p ∧ ∃ signature, result = .ok signature) ∧
      SignCall.AllSteady keyId p callbacks

/-- All calls of a list are steady. -/
def SignCall.AllSteady (keyId : String) (p : HbsParams) : List SignCall → Prop
  | [] => True
  | c :: cs => c.Steady keyId p ∧ SignCall.AllSteady keyId p cs

end

namespace HbsRun

def remaining (s : HbsRun) (keyId : String) : JsNum :=
  let c := s.store.capacity keyId
  c.total - c.consumed

mutual

/-- The calls of `sign` for a key, this one and those made while the engine signs, in the order in
which they begin: whether each returns. -/
def outcomes (s : HbsRun) (keyId : String) : SignCall → List Bool
  | .sign keyId' message params callbacks result =>
    (if keyId' = keyId then
      [(s.sign (.sign keyId' message params callbacks result)).1.isOk] else []) ++
    match s.beginSign keyId' message params with
    | (.error _, _) => []
    | (.ok _, s') => outcomesAll s' keyId callbacks

/-- Which of the calls, made one after the other, succeed. -/
def outcomesAll (s : HbsRun) (keyId : String) : List SignCall → List Bool
  | [] => []
  | c :: cs => outcomes s keyId c ++ outcomesAll (s.sign c).2 keyId cs

end

/-- The moments of a run in which the engine is steady for a key. -/
inductive SteadyMoment (keyId : String) (p : HbsParams) : HbsRun → Prop where
  /-- the run starts -/
  | start : SteadyMoment keyId p start
  /-- a call has returned or thrown -/
  | returned {s : HbsRun} {c : SignCall} : SteadyMoment keyId p s → c.Steady keyId p →
      SteadyMoment keyId p (s.sign c).2
  /-- the engine signs -/
  | signing {s : HbsRun} {keyId' : String} {message : Bytes} {params : Except JsError HbsParams}
      {index : JsNum} : SteadyMoment keyId p s → (keyId' = keyId → params = .ok p) →
      (s.beginSign keyId' message params).1 = .ok index →
      SteadyMoment keyId p (s.beginSign keyId' message params).2

theorem SteadyMoment.moment {keyId : String} {p : HbsParams} {s : HbsRun}
    (hs : SteadyMoment keyId p s) : Moment s := by
  induction hs with
  | start => exact .start
  | returned _ _ ih => exact .returned _ ih
  | signing _ _ hbegin ih => exact .signing ih hbegin

end HbsRun

/-- What a counter with `left` to give answers to `n` requests: the first `left` get one. -/
def answers (left n : ℕ) : List Bool := (List.range n).map fun i => decide (i < left)

theorem answers_add (left m n : ℕ) :
    answers left (m + n) = answers left m ++ answers (left - m) n := by
  rw [answers, List.range_add, List.map_append, List.map_map]
  congr 1
  refine List.map_congr_left fun i _ => ?_
  simp [Nat.lt_sub_iff_add_lt, Nat.add_comm]

/-- `further` more calls of `sign` for the key succeed: whatever is called from now on, the first
ones return and the others throw. -/
def HbsRun.FurtherSigns (s : HbsRun) (keyId : String) (p : HbsParams) (further : ℕ) : Prop :=
  ∀ calls, SignCall.AllSteady keyId p calls →
    s.outcomesAll keyId calls = answers further (s.outcomesAll keyId calls).length

/-- Parameters of a single tree of the given height, which `sign` takes for the key. -/
structure HbsParams.SingleTree (p : HbsParams) (keyId : String) (height : ℕ) : Prop where
  /-- a height that the store takes -/
  height_le : height ≤ 32
  /-- the height reported -/
  height_eq : p.height = height
  /-- neither parameters nor key name a multi-tree -/
  single : assertSingleTree p keyId = .ok ()

namespace HbsRun

/-! ## The indices left -/

/-- A key of the given height has so many indices left. A key without an entry has them all. -/
structure HasLeft (s : HbsRun) (keyId : String) (height left : ℕ) : Prop where
  /-- every entry of the store stands for a key -/
  sound : s.store.Sound
  /-- the entry of this one, once an index is used -/
  key : ∃ k : OtsKey, k.height = height ∧ k.next + left = 2 ^ height ∧
    s.store.keys.get? keyId = if k.next = 0 then none else some k.entry

section Step

variable {s : HbsRun} {keyId : String} {p : HbsParams} {height left : ℕ}

theorem HasLeft.reserve (h : s.HasLeft keyId height left) (hheight : height ≤ 32)
    (hleft : 0 < left) : ∃ index, (s.store.reserve keyId height).1 = .ok index := by
  obtain ⟨k, rfl, hsum, hget⟩ := h.key
  split at hget
  · exact ⟨_, SoftwareOtsStateStore.reserve_new hget hheight⟩
  · exact ⟨_, SoftwareOtsStateStore.reserve_recorded hget (by omega)⟩

/-- The key that a reservation gets to is the one with indices left. -/
theorem HasLeft.after_reserve (h : s.HasLeft keyId height left) {index : JsNum}
    (hindex : (s.store.reserve keyId height).1 = .ok index) (signed : List SignEvent) :
    0 < left ∧ HasLeft ⟨(s.store.reserve keyId height).2, signed⟩ keyId height (left - 1) := by
  obtain ⟨k, hk, hsum, hget⟩ := h.key
  obtain ⟨k', hlt, hheight, -, hkey, hget'⟩ := SoftwareOtsStateStore.reserve_ok h.sound hindex
  have hheight' : height = k'.height := JsNum.natCast_injective hheight
  have hnext : k'.next = k.next := by
    split at hget
    · rename_i hzero
      rcases hkey with hsome | ⟨-, hzero'⟩
      · rw [hget] at hsome
        cases hsome
      · rw [hzero, hzero']
    · exact (SoftwareOtsStateStore.eq_of_recorded hget hkey).2.symm
  have hroom : k.next < 2 ^ height := by rwa [hnext, ← hheight'] at hlt
  have hrecorded : (s.store.reserve keyId height).2.keys.get? keyId =
      some (k'.advance hlt).entry := by rw [hget', if_pos rfl]
  refine ⟨by omega, h.sound.reserve keyId height, k'.advance hlt, hheight'.symm, ?_, ?_⟩
  · change k'.next + 1 + (left - 1) = 2 ^ height
    omega
  · exact hrecorded.trans (if_neg (Nat.succ_ne_zero k'.next)).symm

/-- **The step for the key itself**: with an index left, one is used; with none, `sign` throws and
nothing changes. -/
theorem HasLeft.beginSign_own (h : s.HasLeft keyId height left) (hp : p.SingleTree keyId height)
    (message : Bytes) :
    (left = 0 ∧ ∃ err, s.beginSign keyId message (.ok p) = (.error err, s)) ∨
    0 < left ∧ ∃ index s', s.beginSign keyId message (.ok p) = (.ok index, s') ∧
      s'.HasLeft keyId height (left - 1) := by
  simp only [beginSign, hp.single, hp.height_eq]
  obtain ⟨err, herr⟩ | ⟨k, -, -, -, hindex, -⟩ :=
    SoftwareOtsStateStore.reserve_cases h.sound keyId height
  · refine .inl ⟨Nat.eq_zero_of_not_pos fun hpos => ?_, err, by rw [herr]⟩
    obtain ⟨index, hindex⟩ := h.reserve hp.height_le hpos
    rw [herr] at hindex
    cases hindex
  · obtain ⟨hpos, hafter⟩ := h.after_reserve hindex (s.signed ++ [⟨keyId, height, k.next, message⟩])
    refine .inr ⟨hpos, k.next, _, ?_, hafter⟩
    rw [← Prod.mk.eta (p := s.store.reserve keyId height), hindex]

/-- The step for another key: the indices left are the same. -/
theorem HasLeft.beginSign_other (h : s.HasLeft keyId height left) {keyId' : String}
    (hne : keyId' ≠ keyId) (message : Bytes) (params : Except JsError HbsParams) :
    (s.beginSign keyId' message params).2.HasLeft keyId height left := by
  obtain ⟨err, herr⟩ | ⟨p', index, hindex, hbegin⟩ :=
    beginSign_cases s h.sound keyId' message params
  · rw [herr]
    exact h
  · obtain ⟨k, hlt, -, -, -, hget⟩ := SoftwareOtsStateStore.reserve_ok h.sound hindex
    rw [hbegin]
    refine ⟨h.sound.reserve keyId' p'.height, ?_⟩
    simp only [hget, if_neg hne.symm]
    exact h.key

end Step

/-! ## Runs of calls -/

section Runs

variable {keyId : String} {p : HbsParams} {height : ℕ}

mutual

/-- **What one call does**, with all that the engine calls: the outcomes are those of a counter, and
the indices left go down by one for each of them. -/
theorem HasLeft.outcomes (hp : p.SingleTree keyId height) {s : HbsRun} {left : ℕ}
    (h : s.HasLeft keyId height left) : (c : SignCall) → c.Steady keyId p →
    s.outcomes keyId c = answers left (s.outcomes keyId c).length ∧
      (s.sign c).2.HasLeft keyId height (left - (s.outcomes keyId c).length)
  | .sign keyId' message params callbacks result, hc => by
    rw [SignCall.Steady] at hc
    by_cases hkey : keyId' = keyId
    · subst keyId'
      obtain ⟨rfl, signature, rfl⟩ := hc.1 rfl
      obtain ⟨rfl, err, hbegin⟩ | ⟨hpos, index, s', hbegin, h'⟩ := h.beginSign_own hp message
      · -- the indices are used up
        rw [HbsRun.outcomes, if_pos rfl, HbsRun.sign, hbegin]
        exact ⟨rfl, h⟩
      · obtain ⟨hrest, h''⟩ := HasLeft.outcomesAll hp h' callbacks hc.2
        have hone : [true] = answers left 1 := by simp [answers, hpos]
        rw [HbsRun.outcomes, if_pos rfl, HbsRun.sign, hbegin]
        change [true] ++ _ = answers left ([true] ++ _).length ∧
          (s'.signAll callbacks).HasLeft keyId height (left - ([true] ++ _).length)
        rw [List.length_append, List.length_singleton, answers_add, ← hone, ← hrest, ← Nat.sub_sub]
        exact ⟨rfl, h''⟩
    · have h' := h.beginSign_other hkey message params
      rw [HbsRun.outcomes, if_neg hkey, List.nil_append, HbsRun.sign]
      rcases hbegin : s.beginSign keyId' message params with ⟨err | index, s'⟩
      · rw [hbegin] at h'
        exact ⟨rfl, h'⟩
      · rw [hbegin] at h'
        exact HasLeft.outcomesAll hp h' callbacks hc.2

/-- Calls one after the other. -/
theorem HasLeft.outcomesAll (hp : p.SingleTree keyId height) {s : HbsRun} {left : ℕ}
    (h : s.HasLeft keyId height left) : (cs : List SignCall) → SignCall.AllSteady keyId p cs →
    s.outcomesAll keyId cs = answers left (s.outcomesAll keyId cs).length ∧
      (s.signAll cs).HasLeft keyId height (left - (s.outcomesAll keyId cs).length)
  | [], _ => ⟨rfl, h⟩
  | c :: cs, hcs => by
    rw [SignCall.AllSteady] at hcs
    obtain ⟨hfirst, h'⟩ := HasLeft.outcomes hp h c hcs.1
    obtain ⟨hrest, h''⟩ := HasLeft.outcomesAll hp h' cs hcs.2
    rw [HbsRun.outcomesAll, HbsRun.signAll, List.length_append, answers_add, ← hfirst, ← hrest,
      ← Nat.sub_sub]
    exact ⟨rfl, h''⟩

end

theorem hasLeft_start (keyId : String) (hheight : height ≤ 32) :
    start.HasLeft keyId height (2 ^ height) := by
  refine ⟨SoftwareOtsStateStore.sound_fresh, .unused height hheight, rfl, Nat.zero_add _, ?_⟩
  exact JsMap.get?_empty keyId

/-- **At every moment of every run the indices left are a number.** -/
theorem SteadyMoment.hasLeft (hp : p.SingleTree keyId height) {s : HbsRun}
    (hs : SteadyMoment keyId p s) : ∃ left, s.HasLeft keyId height left := by
  induction hs with
  | start => exact ⟨_, hasLeft_start keyId hp.height_le⟩
  | returned _ hc ih =>
    obtain ⟨left, h⟩ := ih
    exact ⟨_, (h.outcomes hp _ hc).2⟩
  | @signing s keyId' message params index _ hparams hbegin ih =>
    obtain ⟨left, h⟩ := ih
    by_cases hkey : keyId' = keyId
    · subst hkey
      obtain rfl := hparams rfl
      obtain ⟨-, err, herr⟩ | ⟨-, index', s', hok, h'⟩ := h.beginSign_own hp message
      · rw [herr] at hbegin
        cases hbegin
      · rw [hok]
        exact ⟨_, h'⟩
    · exact ⟨left, h.beginSign_other hkey message params⟩

theorem HasLeft.furtherSigns (hp : p.SingleTree keyId height) {s : HbsRun} {left : ℕ}
    (h : s.HasLeft keyId height left) : s.FurtherSigns keyId p left := fun calls hcalls =>
  (h.outcomesAll hp calls hcalls).1

end Runs

/-! ## How many calls succeed -/

/-- A call of `sign` for a key, in which the engine calls nobody. -/
def plainCall (keyId : String) (p : HbsParams) : SignCall := .sign keyId [] (.ok p) [] (.ok [])

section Further

variable {s : HbsRun} {keyId : String} {p : HbsParams}

theorem allSteady_replicate (keyId : String) (p : HbsParams) (n : ℕ) :
    SignCall.AllSteady keyId p (List.replicate n (plainCall keyId p)) := by
  induction n with
  | zero => trivial
  | succ n ih => exact ⟨⟨fun _ => ⟨rfl, _, rfl⟩, trivial⟩, ih⟩

theorem length_outcomesAll_replicate (s : HbsRun) (keyId : String) (p : HbsParams) (n : ℕ) :
    (s.outcomesAll keyId (List.replicate n (plainCall keyId p))).length = n := by
  induction n generalizing s with
  | zero => rfl
  | succ n ih =>
    have hone : (s.outcomes keyId (plainCall keyId p)).length = 1 := by
      rw [plainCall, HbsRun.outcomes, if_pos rfl]
      split <;> rfl
    rw [List.replicate_succ, HbsRun.outcomesAll, List.length_append, hone, ih, Nat.add_comm]

/-- The number of further calls is unique: the call after the last that succeeds tells two apart. -/
theorem FurtherSigns.unique {r r' : ℕ} (h : s.FurtherSigns keyId p r)
    (h' : s.FurtherSigns keyId p r') : r = r' := by
  have hanswers : ∀ n, answers r n = answers r' n := by
    intro n
    have hr := h _ (allSteady_replicate keyId p n)
    have hr' := h' _ (allSteady_replicate keyId p n)
    rw [length_outcomesAll_replicate] at hr hr'
    exact hr.symm.trans hr'
  have hlast : ∀ i, i < r ↔ i < r' := by
    intro i
    have hget := congrArg (·[i]?) (hanswers (i + 1))
    simpa [answers] using hget
  have hr := hlast r
  have hr' := hlast r'
  omega

/-- What `remaining` answers: the indices left, or zero for a key that has never signed. -/
theorem HasLeft.remaining_eq_iff {height left : ℕ} (h : s.HasLeft keyId height left)
    (hagrees : s.KeyAgrees keyId) : s.remaining keyId = left ↔ s.signedWith keyId ≠ [] := by
  obtain ⟨k, rfl, hsum, hget⟩ := h.key
  rw [remaining, SoftwareOtsStateStore.capacity]
  by_cases hzero : k.next = 0
  · -- no entry: the answer is zero, and all indices are left
    rw [if_pos hzero] at hget
    have hnever : s.signedWith keyId = [] := by
      rcases hagrees with ⟨-, hnil⟩ | ⟨k', hk', -⟩
      · exact hnil
      · rw [hget] at hk'
        cases hk'
    have hanswer : (0 : JsNum) - 0 = ((0 : ℕ) : JsNum) := JsNum.sub_natCast le_rfl (Nat.zero_le _)
    rw [hget, hnever, hanswer]
    refine iff_of_false (fun heq => ?_) (not_not.mpr rfl)
    have hall := JsNum.natCast_injective heq
    have hpos := Nat.two_pow_pos k.height
    omega
  · rw [if_neg hzero] at hget
    have hsigned : s.signedWith keyId ≠ [] := by
      intro hnil
      rcases hagrees with ⟨hnone, -⟩ | ⟨k', hk', hindices, -⟩
      · rw [hget] at hnone
        cases hnone
      · obtain ⟨-, hnext⟩ := OtsKey.entry_inj (Option.some.inj (hget.symm.trans hk'))
        rw [hnil] at hindices
        have hlength := congrArg List.length hindices
        simp only [List.map_nil, List.length_nil, List.length_map, List.length_range] at hlength
        omega
    have hsmall : 2 ^ k.height ≤ 2 ^ 53 :=
      Nat.pow_le_pow_right two_pos (k.height_le.trans (by decide))
    have hanswer : k.entry.total - k.entry.next = ((2 ^ k.height - k.next : ℕ) : JsNum) :=
      JsNum.sub_natCast k.next_le hsmall
    rw [hget]
    refine iff_of_true ?_ hsigned
    change k.entry.total - k.entry.next = left
    rw [hanswer, ← hsum, Nat.add_sub_cancel_left]

end Further

end HbsRun

/-- **When remaining capacity is truthful.** At every moment of every run with an engine that is
steady for a key of a single tree, there is one number of further calls of `sign` for the key that
succeed. `remaining` is this number exactly when the key has signed before. -/
theorem remaining_truthful_iff {keyId : String} {p : HbsParams} {height : ℕ}
    (hp : p.SingleTree keyId height) {s : HbsRun} (hs : s.SteadyMoment keyId p) :
    (∃! further, s.FurtherSigns keyId p further) ∧
      ∀ further, s.FurtherSigns keyId p further →
        (s.remaining keyId = further ↔ s.signedWith keyId ≠ []) := by
  obtain ⟨left, hleft⟩ := hs.hasLeft hp
  have hfurther := hleft.furtherSigns hp
  refine ⟨⟨left, hfurther, fun further h => h.unique hfurther⟩, fun further h => ?_⟩
  rw [h.unique hfurther]
  exact hleft.remaining_eq_iff (hs.moment.agrees keyId)

/-- Parameters of a tree with four one-time keys. -/
def quadTree : HbsParams := ⟨.lms, false, 2⟩

theorem quadTree_singleTree : quadTree.SingleTree "k" 2 := ⟨by decide, rfl, by decide +kernel⟩

/-- **A new key**: nothing is left according to `remaining`, and four calls succeed. -/
theorem remaining_of_new_key :
    HbsRun.start.SteadyMoment "k" quadTree ∧ HbsRun.start.remaining "k" = ((0 : ℕ) : JsNum) ∧
      HbsRun.start.FurtherSigns "k" quadTree 4 ∧ ¬ HbsRun.start.FurtherSigns "k" quadTree 0 := by
  have hfour : HbsRun.start.FurtherSigns "k" quadTree 4 :=
    (HbsRun.hasLeft_start "k" quadTree_singleTree.height_le).furtherSigns quadTree_singleTree
  exact ⟨.start, by decide +kernel, hfour, fun hzero => absurd (hzero.unique hfour) (by decide)⟩

/-- `remaining_truthful_iff` after one call: three are left. -/
theorem remaining_truthful_after_one :
    (HbsRun.start.sign (HbsRun.plainCall "k" quadTree)).2.remaining "k" = ((3 : ℕ) : JsNum) ∧
    (HbsRun.start.sign (HbsRun.plainCall "k" quadTree)).2.FurtherSigns "k" quadTree 3 := by
  have hsteady := (HbsRun.allSteady_replicate "k" quadTree 1).1
  obtain ⟨⟨further, hfurther, -⟩, htruthful⟩ :=
    remaining_truthful_iff quadTree_singleTree (.returned .start hsteady)
  have hthree : (HbsRun.start.sign (HbsRun.plainCall "k" quadTree)).2.remaining "k" =
      ((3 : ℕ) : JsNum) := by decide +kernel
  have heq := (htruthful further hfurther).mpr (by decide +kernel)
  obtain rfl := JsNum.natCast_injective (hthree.symm.trans heq)
  exact ⟨hthree, hfurther⟩

end Nerion
