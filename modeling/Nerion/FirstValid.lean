import Mathlib.Algebra.BigOperators.Group.List.Basic
import Mathlib.Algebra.GroupWithZero.Nat
import Mathlib.Algebra.Ring.Int.Defs
import Mathlib.Data.Int.Cast.Basic
import Mathlib.Data.List.Nodup

/-!
# The first valid entry of each key

A library on loops that go through a list of entries and accept, for each key, the first
entry that is valid. Entries that are not valid leave no trace, so what is accepted does
not depend on them.

* `mem_map_firstValid` — a key is accepted when it has a valid entry anywhere in the list;
* `nodup_map_firstValid` — no key is accepted twice;
* `perm_map_firstValid` — the keys accepted, listed by the members they belong to;
* `le_length_firstValidWithin` — how many keys are accepted when the loop gives up after a
  number of checks, which depends on the entries that are not valid, and on their order.
-/

namespace Nerion

variable {α κ μ : Type} [DecidableEq κ]

/-- The entries accepted by a loop that has accepted the keys `seen`. -/
def firstValid (key : α → κ) (valid : α → Bool) : List κ → List α → List α
  | _, [] => []
  | seen, a :: as =>
    if key a ∉ seen ∧ valid a = true then a :: firstValid key valid (key a :: seen) as
    else firstValid key valid seen as

variable {key : α → κ} {valid : α → Bool} {seen : List κ} {a : α} {as : List α}

theorem firstValid_cons_pos (hnew : key a ∉ seen) (hvalid : valid a = true) :
    firstValid key valid seen (a :: as) = a :: firstValid key valid (key a :: seen) as :=
  if_pos ⟨hnew, hvalid⟩

theorem firstValid_cons_seen (h : key a ∈ seen) :
    firstValid key valid seen (a :: as) = firstValid key valid seen as :=
  if_neg fun hpos => hpos.1 h

theorem firstValid_cons_invalid (h : valid a = false) :
    firstValid key valid seen (a :: as) = firstValid key valid seen as :=
  if_neg fun hpos => Bool.false_ne_true (h.symm.trans hpos.2)

/-- What is accepted is in the list, valid, and of a new key. -/
theorem of_mem_firstValid (h : a ∈ firstValid key valid seen as) :
    a ∈ as ∧ valid a = true ∧ key a ∉ seen := by
  induction as generalizing seen with
  | nil => exact absurd h List.not_mem_nil
  | cons b as ih =>
    rw [firstValid] at h
    split at h
    · rename_i hb
      rcases List.mem_cons.mp h with rfl | h
      · exact ⟨List.mem_cons_self, hb.2, hb.1⟩
      · obtain ⟨hmem, hvalid, hnew⟩ := ih h
        exact ⟨List.mem_cons_of_mem _ hmem, hvalid, fun hs => hnew (List.mem_cons_of_mem _ hs)⟩
    · obtain ⟨hmem, hvalid, hnew⟩ := ih h
      exact ⟨List.mem_cons_of_mem _ hmem, hvalid, hnew⟩

/-- **A key is accepted when it has a valid entry**, wherever that entry stands. -/
theorem mem_map_firstValid {k : κ} : k ∈ (firstValid key valid seen as).map key ↔
    k ∉ seen ∧ ∃ a ∈ as, key a = k ∧ valid a = true := by
  constructor
  · intro h
    obtain ⟨a, ha, rfl⟩ := List.mem_map.mp h
    obtain ⟨hmem, hvalid, hnew⟩ := of_mem_firstValid ha
    exact ⟨hnew, a, hmem, rfl, hvalid⟩
  · rintro ⟨hnew, a, hmem, rfl, hvalid⟩
    induction as generalizing seen with
    | nil => exact absurd hmem List.not_mem_nil
    | cons b as ih =>
      rw [firstValid]
      split
      · -- the entry at hand is accepted, and it may be of the key we look for
        by_cases hk : key a = key b
        · rw [hk]
          exact List.mem_map_of_mem List.mem_cons_self
        · have hne : a ≠ b := fun h => hk (congrArg key h)
          have hrest := ih ((List.mem_cons.mp hmem).resolve_left hne)
            fun hs => (List.mem_cons.mp hs).elim hk hnew
          exact List.mem_cons_of_mem _ hrest
      · rename_i hb
        have hne : a ≠ b := by
          rintro rfl
          exact hb ⟨hnew, hvalid⟩
        exact ih ((List.mem_cons.mp hmem).resolve_left hne) hnew

theorem nodup_map_firstValid (key : α → κ) (valid : α → Bool) (seen : List κ) (as : List α) :
    ((firstValid key valid seen as).map key).Nodup := by
  induction as generalizing seen with
  | nil => exact List.nodup_nil
  | cons a as ih =>
    rw [firstValid]
    split
    · refine List.nodup_cons.mpr ⟨fun hmem => ?_, ih _⟩
      exact (mem_map_firstValid.mp hmem).1 List.mem_cons_self
    · exact ih seen

/-- **What is accepted, by member**: when only members have valid entries, the keys accepted
are those of the members with a valid entry. -/
theorem perm_map_firstValid {members : List μ} {name : μ → κ} (hnodup : (members.map name).Nodup)
    (hmem : ∀ a ∈ as, valid a = true → key a ∈ members.map name) :
    ((firstValid key valid [] as).map key).Perm
      ((members.filter fun m => as.any fun a => decide (key a = name m) && valid a).map name) := by
  refine (List.perm_ext_iff_of_nodup (nodup_map_firstValid _ _ _ _)
    (hnodup.sublist (List.filter_sublist.map name))).mpr fun k => ?_
  rw [mem_map_firstValid]
  refine ⟨?_, fun h => ?_⟩
  · rintro ⟨-, a, ha, rfl, hvalid⟩
    obtain ⟨m, hm, hname⟩ := List.mem_map.mp (hmem a ha hvalid)
    refine List.mem_map.mpr ⟨m, List.mem_filter.mpr ⟨hm, List.any_eq_true.mpr ⟨a, ha, ?_⟩⟩, hname⟩
    rw [hname, decide_eq_true rfl, hvalid]
    rfl
  · obtain ⟨m, hm, rfl⟩ := List.mem_map.mp h
    obtain ⟨a, ha, hok⟩ := List.any_eq_true.mp (List.mem_filter.mp hm).2
    obtain ⟨hkey, hvalid⟩ := Bool.and_eq_true_iff.mp hok
    exact ⟨List.not_mem_nil, a, ha, of_decide_eq_true hkey, hvalid⟩

/-- The keys accepted do not depend on the order of the entries. -/
theorem map_firstValid_perm {as' : List α} (h : as.Perm as') :
    ((firstValid key valid seen as).map key).Perm ((firstValid key valid seen as').map key) := by
  refine (List.perm_ext_iff_of_nodup (nodup_map_firstValid _ _ _ _)
    (nodup_map_firstValid _ _ _ _)).mpr fun k => ?_
  simp only [mem_map_firstValid, h.mem_iff]

/-! ## With a budget

The same loop when checking an entry is expensive: it looks only at entries of members, stops
once it has accepted enough, and gives up after a number of checks. -/

/-- The keys accepted, newest first, by a loop that has accepted `seen` and made `checks`
checks. -/
def firstValidWithin (member : κ → Bool) (key : α → κ) (valid : α → Bool) (enough : ℕ → Bool)
    (budget : ℕ) : (seen : List κ) → (checks : ℕ) → List α → List κ
  | seen, _, [] => seen
  | seen, checks, a :: as =>
    if enough seen.length then seen
    else if !member (key a) then
      firstValidWithin member key valid enough budget seen checks as
    else if key a ∈ seen then firstValidWithin member key valid enough budget seen checks as
    else if budget ≤ checks then seen
    else if valid a then
      firstValidWithin member key valid enough budget (key a :: seen) (checks + 1) as
    else firstValidWithin member key valid enough budget seen (checks + 1) as

/-- The entries that cost a check, after the entries `before`: those of a member that has no
valid entry yet. -/
def costly (member : κ → Bool) (key : α → κ) (valid : α → Bool) : (before as : List α) → List α
  | _, [] => []
  | before, a :: as =>
    if member (key a) && !before.any (fun b => decide (key b = key a) && valid b) then
      a :: costly member key valid (before ++ [a]) as
    else costly member key valid (before ++ [a]) as

section Budget

variable {member : κ → Bool} {enough : ℕ → Bool} {budget checks : ℕ} {before : List α}

theorem costly_cons_pos (hmember : member (key a) = true)
    (hpending : before.any (fun b => decide (key b = key a) && valid b) = false) :
    costly member key valid before (a :: as) =
      a :: costly member key valid (before ++ [a]) as := by
  rw [costly, hmember, hpending]
  rfl

theorem costly_cons_neg (h : member (key a) = true →
      before.any (fun b => decide (key b = key a) && valid b) = true) :
    costly member key valid before (a :: as) = costly member key valid (before ++ [a]) as := by
  rw [costly]
  cases hmember : member (key a) with
  | true => rw [h hmember]; rfl
  | false => rfl

/-- Every copy of an entry that is not valid costs a check. -/
theorem costly_replicate (hmember : member (key a) = true) (hinvalid : valid a = false)
    (hbefore : before.any (fun b => decide (key b = key a) && valid b) = false) (n : ℕ) :
    ∃ more, costly member key valid before (List.replicate n a ++ as) =
      List.replicate n a ++ more := by
  induction n generalizing before with
  | zero => exact ⟨_, rfl⟩
  | succ n ih =>
    have hnext : (before ++ [a]).any (fun b => decide (key b = key a) && valid b) = false := by
      simp [hbefore, hinvalid]
    obtain ⟨more, hmore⟩ := ih hnext
    refine ⟨more, ?_⟩
    rw [List.replicate_succ, List.cons_append, costly_cons_pos hmember hbefore, hmore,
      List.cons_append]

/-- What is accepted is of a member, has a valid entry, and is accepted once. -/
theorem of_mem_firstValidWithin (hnodup : seen.Nodup) :
    (firstValidWithin member key valid enough budget seen checks as).Nodup ∧
      ∀ k ∈ firstValidWithin member key valid enough budget seen checks as,
        k ∈ seen ∨ member k = true ∧ ∃ a ∈ as, key a = k ∧ valid a = true := by
  induction as generalizing seen checks with
  | nil => exact ⟨hnodup, fun k hk => .inl hk⟩
  | cons a as ih =>
    have hstep : ∀ {seen' : List κ} {checks' : ℕ}, seen'.Nodup →
        (∀ k ∈ seen', k ∈ seen ∨ member k = true ∧ key a = k ∧ valid a = true) →
        (firstValidWithin member key valid enough budget seen' checks' as).Nodup ∧
          ∀ k ∈ firstValidWithin member key valid enough budget seen' checks' as,
            k ∈ seen ∨ member k = true ∧ ∃ b ∈ a :: as, key b = k ∧ valid b = true := by
      intro seen' checks' hnodup' hseen'
      obtain ⟨hn, hmem⟩ := @ih seen' checks' hnodup'
      refine ⟨hn, fun k hk => ?_⟩
      rcases hmem k hk with hs | ⟨hm, b, hb, hk⟩
      · rcases hseen' k hs with hs | ⟨hm, hk⟩
        · exact .inl hs
        · exact .inr ⟨hm, a, List.mem_cons_self, hk⟩
      · exact .inr ⟨hm, b, List.mem_cons_of_mem a hb, hk⟩
    rw [firstValidWithin]
    split
    · exact ⟨hnodup, fun k hk => .inl hk⟩
    split
    · exact hstep hnodup fun k hk => .inl hk
    rename_i hmember
    split
    · exact hstep hnodup fun k hk => .inl hk
    rename_i hnew
    split
    · exact ⟨hnodup, fun k hk => .inl hk⟩
    split
    · rename_i hvalid
      refine hstep (List.nodup_cons.mpr ⟨hnew, hnodup⟩) fun k hk => ?_
      rcases List.mem_cons.mp hk with rfl | hk
      · exact .inr ⟨by simpa using hmember, rfl, hvalid⟩
      · exact .inl hk
    · exact hstep hnodup fun k hk => .inl hk

/-- **When the loop accepts `t` keys**: exactly when `t` of the entries within the budget that
cost a check are valid. -/
theorem le_length_firstValidWithin {t : ℕ}
    (hseen : ∀ k, member k = true →
      (k ∈ seen ↔ before.any (fun b => decide (key b = k) && valid b) = true)) :
    t ≤ (firstValidWithin member key valid (fun n => decide (t ≤ n)) budget seen checks as).length ↔
      t ≤ seen.length +
        (((costly member key valid before as).take (budget - checks)).filter valid).length := by
  induction as generalizing seen checks before with
  | nil => rw [firstValidWithin, costly, List.take_nil, List.filter_nil, List.length_nil, add_zero]
  | cons a as ih =>
    -- an entry that is not accepted leaves the keys accepted as they are
    have hskip : (member (key a) = true → key a ∈ seen ∨ valid a = false) → ∀ k, member k = true →
        (k ∈ seen ↔ (before ++ [a]).any (fun b => decide (key b = k) && valid b) = true) := by
      intro hold k hk
      rw [List.any_append, Bool.or_eq_true, ← hseen k hk]
      refine ⟨.inl, fun h => h.elim id fun ha => ?_⟩
      simp only [List.any_cons, List.any_nil, Bool.or_false, Bool.and_eq_true,
        decide_eq_true_iff] at ha
      obtain ⟨rfl, hvalid⟩ := ha
      exact (hold hk).resolve_right (by rw [hvalid]; exact Bool.noConfusion)
    rw [firstValidWithin]
    split
    · rename_i henough
      have hle := of_decide_eq_true henough
      exact ⟨fun _ => hle.trans (Nat.le_add_right _ _), fun _ => hle⟩
    rename_i henough
    split
    · rename_i hmember
      rw [Bool.not_eq_true'] at hmember
      have hnone : ∀ {Q : Prop}, member (key a) = true → Q := fun h => by
        rw [hmember] at h
        cases h
      rw [costly_cons_neg hnone]
      exact ih (hskip hnone)
    rename_i hmember
    rw [Bool.not_eq_true', Bool.not_eq_false] at hmember
    split
    · rename_i hold
      rw [costly_cons_neg fun h => (hseen _ h).mp hold]
      exact ih (hskip fun _ => .inl hold)
    rename_i hnew
    have hpending : before.any (fun b => decide (key b = key a) && valid b) = false :=
      (Bool.not_eq_true _).mp fun h => hnew ((hseen _ hmember).mpr h)
    rw [costly_cons_pos hmember hpending]
    split
    · rename_i hbudget
      rw [Nat.sub_eq_zero_of_le hbudget, List.take_zero, List.filter_nil, List.length_nil, add_zero]
    rename_i hbudget
    obtain ⟨rest, hrest⟩ : ∃ rest, budget - checks = rest + 1 := ⟨budget - checks - 1, by omega⟩
    have hnext : budget - (checks + 1) = rest := by omega
    rw [hrest, List.take_succ_cons]
    split
    · rename_i hvalid
      have hseen' : ∀ k, member k = true → (k ∈ key a :: seen ↔
          (before ++ [a]).any (fun b => decide (key b = k) && valid b) = true) := by
        intro k hk
        rw [List.any_append, Bool.or_eq_true, ← hseen k hk, List.mem_cons]
        simp [hvalid, or_comm, eq_comm]
      rw [ih hseen', hnext, List.filter_cons_of_pos hvalid, List.length_cons, List.length_cons]
      omega
    · rename_i hvalid
      rw [ih (hskip fun _ => .inr ((Bool.not_eq_true _).mp hvalid)), hnext,
        List.filter_cons_of_neg hvalid]

end Budget

/-! ## Weights -/

/-- Elements without weight make no difference to a sum. -/
theorem sum_filter_congr {l : List α} {p q : α → Bool} {w : α → ℕ}
    (h : ∀ x ∈ l, w x ≠ 0 → p x = q x) :
    ((l.filter p).map w).sum = ((l.filter q).map w).sum := by
  induction l with
  | nil => rfl
  | cons x l ih =>
    have hrest := ih fun y hy => h y (List.mem_cons_of_mem x hy)
    by_cases hx : w x = 0
    · cases hp : p x <;> cases hq : q x <;> simp [hp, hq, hx, hrest]
    · have hpq := h x List.mem_cons_self hx
      cases hq : q x <;> rw [hq] at hpq <;> simp [hpq, hq, hrest]

/-- Corresponding lists have the same sums over corresponding parts. -/
theorem sum_filter_forall₂ {β : Type} {R : α → β → Prop} {xs : List α} {ys : List β}
    {p : α → Bool} {q : β → Bool} {f : α → ℤ} {g : β → ℕ} (hxy : List.Forall₂ R xs ys)
    (hpq : ∀ x y, R x y → p x = q y) (hfg : ∀ x y, R x y → f x = g y) :
    ((xs.filter p).map f).sum = (((ys.filter q).map g).sum : ℕ) := by
  induction hxy with
  | nil => rfl
  | cons h _ ih =>
    rw [List.filter_cons, List.filter_cons, hpq _ _ h]
    split
    · rw [List.map_cons, List.map_cons, List.sum_cons, List.sum_cons, Int.natCast_add, ih,
        hfg _ _ h]
    · exact ih

end Nerion
