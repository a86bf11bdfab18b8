import Mathlib.Algebra.GroupWithZero.Nat
import Mathlib.Data.List.Nodup
import Mathlib.Data.List.Lookmap

/-!
# JavaScript maps

A library model of `Map`: entries in insertion order, at most one per key. Writing to a
key that is there keeps its place; a new key goes to the end. Keys are compared with
`SameValueZero`, which on the key types of the model is equality.

* `get?_set`, `get?_filter_eq_some` — reading back;
* `get?_writeAll`, `get?_writeNew` — filling a map from a list: the last write wins, or
  the first one does.
-/

namespace Nerion

/-- `Map<κ, β>`. -/
structure JsMap (κ β : Type) where
  /-- the entries, oldest first -/
  entries : List (κ × β)
  /-- no key occurs twice -/
  nodup : (entries.map Prod.fst).Nodup

namespace JsMap

variable {κ β α : Type}

/-- `new Map()`. -/
def empty : JsMap κ β := ⟨[], List.nodup_nil⟩

instance : Inhabited (JsMap κ β) := ⟨empty⟩

/-- `[...m.keys()]`. -/
def keys (m : JsMap κ β) : List κ := m.entries.map Prod.fst

/-- `[...m.values()]`. -/
def values (m : JsMap κ β) : List β := m.entries.map Prod.snd

/-- `m.size`. -/
def size (m : JsMap κ β) : ℕ := m.entries.length

variable [DecidableEq κ]

/-- `m.get(k)`. -/
def get? (m : JsMap κ β) (k : κ) : Option β := m.entries.lookup k

/-- `m.has(k)`. -/
def has (m : JsMap κ β) (k : κ) : Bool := (m.get? k).isSome

/-- Overwrite in place, or append. -/
def put : List (κ × β) → κ → β → List (κ × β)
  | [], k, v => [(k, v)]
  | (k', v') :: es, k, v => if k' = k then (k, v) :: es else (k', v') :: put es k v

theorem mem_keys_put {es : List (κ × β)} {k k' : κ} {v : β} :
    k' ∈ (put es k v).map Prod.fst ↔ k' = k ∨ k' ∈ es.map Prod.fst := by
  induction es with
  | nil => simp [put]
  | cons e es ih =>
    obtain ⟨k0, v0⟩ := e
    by_cases h : k0 = k
    · subst h
      simp [put]
    · rw [put, if_neg h, List.map_cons, List.mem_cons, ih, List.map_cons, List.mem_cons]
      tauto

theorem nodup_put {es : List (κ × β)} (k : κ) (v : β) (h : (es.map Prod.fst).Nodup) :
    ((put es k v).map Prod.fst).Nodup := by
  induction es with
  | nil => simp [put]
  | cons e es ih =>
    obtain ⟨k0, v0⟩ := e
    obtain ⟨h0, hes⟩ := List.nodup_cons.mp h
    by_cases hk : k0 = k
    · subst hk
      rw [put, if_pos rfl]
      exact List.nodup_cons.mpr ⟨h0, hes⟩
    · rw [put, if_neg hk]
      refine List.nodup_cons.mpr ⟨fun hmem => ?_, ih hes⟩
      rcases mem_keys_put.mp hmem with h1 | h1
      · exact hk h1
      · exact h0 h1

/-- `m.set(k, v)`. -/
def set (m : JsMap κ β) (k : κ) (v : β) : JsMap κ β := ⟨put m.entries k v, nodup_put k v m.nodup⟩

/-- Keep the entries that satisfy `p`. -/
def filter (m : JsMap κ β) (p : κ → β → Bool) : JsMap κ β :=
  ⟨m.entries.filter fun e => p e.1 e.2, m.nodup.sublist (List.filter_sublist.map _)⟩

/-- `m.delete(k)`. -/
def delete (m : JsMap κ β) (k : κ) : JsMap κ β := m.filter fun k' _ => k' ≠ k

/-! ## Reading back -/

@[simp] theorem get?_empty (k : κ) : (empty : JsMap κ β).get? k = none := rfl

theorem lookup_cons_ite (k k0 : κ) (v0 : β) (es : List (κ × β)) :
    ((k0, v0) :: es).lookup k = if k = k0 then some v0 else es.lookup k := by
  rw [List.lookup_cons]
  by_cases h : k = k0
  · rw [if_pos h, beq_iff_eq.mpr h]
  · rw [if_neg h, beq_eq_false_iff_ne.mpr h]

theorem lookup_put (es : List (κ × β)) (k k' : κ) (v : β) :
    (put es k v).lookup k' = if k' = k then some v else es.lookup k' := by
  induction es with
  | nil => exact lookup_cons_ite k' k v []
  | cons e es ih =>
    obtain ⟨k0, v0⟩ := e
    by_cases hk : k0 = k
    · subst hk
      rw [put, if_pos rfl, lookup_cons_ite, lookup_cons_ite]
      by_cases h : k' = k0 <;> simp [h]
    · rw [put, if_neg hk, lookup_cons_ite, lookup_cons_ite, ih]
      by_cases h : k' = k0
      · subst h
        simp [hk]
      · simp [h]

theorem get?_set (m : JsMap κ β) (k k' : κ) (v : β) :
    (m.set k v).get? k' = if k' = k then some v else m.get? k' :=
  lookup_put m.entries k k' v

theorem mem_entries_iff {m : JsMap κ β} {k : κ} {v : β} :
    (k, v) ∈ m.entries ↔ m.get? k = some v := by
  obtain ⟨es, hes⟩ := m
  change (k, v) ∈ es ↔ es.lookup k = some v
  induction es with
  | nil => simp
  | cons e es ih =>
    obtain ⟨k0, v0⟩ := e
    obtain ⟨h0, hes⟩ := List.nodup_cons.mp hes
    rw [lookup_cons_ite, List.mem_cons]
    by_cases h : k = k0
    · subst h
      have hnot : (k, v) ∉ es := fun hmem => h0 (List.mem_map.mpr ⟨(k, v), hmem, rfl⟩)
      simp [hnot, eq_comm]
    · simp [h, ih hes]

theorem mem_values_iff {m : JsMap κ β} {v : β} : v ∈ m.values ↔ ∃ k, m.get? k = some v := by
  rw [values, List.mem_map]
  constructor
  · rintro ⟨⟨k, v'⟩, hmem, rfl⟩
    exact ⟨k, mem_entries_iff.mp hmem⟩
  · rintro ⟨k, hk⟩
    exact ⟨(k, v), mem_entries_iff.mpr hk, rfl⟩

theorem get?_filter_eq_some {m : JsMap κ β} {p : κ → β → Bool} {k : κ} {v : β} :
    (m.filter p).get? k = some v ↔ m.get? k = some v ∧ p k v = true := by
  rw [← mem_entries_iff, ← mem_entries_iff]
  exact List.mem_filter

/-- A filter that every entry passes changes nothing. -/
theorem filter_eq_self {m : JsMap κ β} {p : κ → β → Bool}
    (h : ∀ k v, m.get? k = some v → p k v = true) : m.filter p = m := by
  obtain ⟨es, hes⟩ := m
  have hall : es.filter (fun e => p e.1 e.2) = es :=
    List.filter_eq_self.mpr fun e he => h e.1 e.2 (mem_entries_iff.mp he)
  simp only [filter, hall]

omit [DecidableEq κ] in
theorem size_filter_le (m : JsMap κ β) (p : κ → β → Bool) : (m.filter p).size ≤ m.size :=
  List.length_filter_le _ _

theorem size_delete_lt {m : JsMap κ β} {k : κ} {v : β} (h : m.get? k = some v) :
    (m.delete k).size < m.size := by
  refine List.length_filter_lt_length_iff_exists.mpr ⟨(k, v), mem_entries_iff.mpr h, ?_⟩
  simp

theorem mem_keys_iff {m : JsMap κ β} {k : κ} : k ∈ m.keys ↔ (m.get? k).isSome = true := by
  rw [keys, List.mem_map, Option.isSome_iff_exists]
  constructor
  · rintro ⟨⟨k', v⟩, hmem, rfl⟩
    exact ⟨v, mem_entries_iff.mp hmem⟩
  · rintro ⟨v, hv⟩
    exact ⟨(k, v), mem_entries_iff.mpr hv, rfl⟩

/-! ## Writing one key -/

theorem put_of_notMem {es : List (κ × β)} {k : κ} (v : β) (h : k ∉ es.map Prod.fst) :
    put es k v = es ++ [(k, v)] := by
  induction es with
  | nil => rfl
  | cons e es ih =>
    obtain ⟨k0, v0⟩ := e
    obtain ⟨h0, hes⟩ := not_or.mp (mt List.mem_cons.mpr h)
    rw [put, if_neg (Ne.symm h0), ih hes, List.cons_append]

theorem map_fst_put_of_mem {es : List (κ × β)} {k : κ} (v : β) (h : k ∈ es.map Prod.fst) :
    (put es k v).map Prod.fst = es.map Prod.fst := by
  induction es with
  | nil => exact absurd h List.not_mem_nil
  | cons e es ih =>
    obtain ⟨k0, v0⟩ := e
    by_cases hk : k0 = k
    · subst hk
      simp [put]
    · have hes : k ∈ es.map Prod.fst := (List.mem_cons.mp h).resolve_left (Ne.symm hk)
      rw [put, if_neg hk, List.map_cons, List.map_cons, ih hes]

/-- A new key goes to the end. -/
theorem entries_set_of_none {m : JsMap κ β} {k : κ} (v : β) (h : m.get? k = none) :
    (m.set k v).entries = m.entries ++ [(k, v)] := by
  refine put_of_notMem v fun hmem => ?_
  have hsome := mem_keys_iff.mp hmem
  rw [h] at hsome
  cases hsome

theorem size_set_of_none {m : JsMap κ β} {k : κ} (v : β) (h : m.get? k = none) :
    (m.set k v).size = m.size + 1 := by
  rw [size, entries_set_of_none v h, List.length_append]
  rfl

/-- A key that is there keeps its place. -/
theorem keys_set_of_some {m : JsMap κ β} {k : κ} {w : β} (v : β) (h : m.get? k = some w) :
    (m.set k v).keys = m.keys := by
  refine map_fst_put_of_mem v (mem_keys_iff.mpr ?_)
  rw [h]
  rfl

theorem size_set_of_some {m : JsMap κ β} {k : κ} {w : β} (v : β) (h : m.get? k = some w) :
    (m.set k v).size = m.size := by
  have hlen := congrArg List.length (keys_set_of_some v h)
  rwa [keys, keys, List.length_map, List.length_map] at hlen

/-- Overwriting a value exchanges its share of a sum over the values. -/
theorem sum_values_set_of_some {m : JsMap κ β} {k : κ} {w : β} (f : β → ℕ) (v : β)
    (h : m.get? k = some w) :
    ((m.set k v).values.map f).sum + f w = (m.values.map f).sum + f v := by
  obtain ⟨es, hes⟩ := m
  change es.lookup k = some w at h
  change ((put es k v).map Prod.snd |>.map f).sum + f w = ((es.map Prod.snd).map f).sum + f v
  clear hes
  induction es with
  | nil => cases h
  | cons e es ih =>
    obtain ⟨k', w'⟩ := e
    rw [lookup_cons_ite] at h
    rw [put]
    by_cases hk : k = k'
    · rw [if_pos hk] at h
      cases h
      rw [if_pos hk.symm]
      simp only [List.map_cons, List.sum_cons]
      omega
    · rw [if_neg hk] at h
      rw [if_neg (Ne.symm hk)]
      simp only [List.map_cons, List.sum_cons]
      have hrest := ih h
      omega

theorem head?_values_set_of_none {m : JsMap κ β} {k : κ} (v : β) (h : m.get? k = none) :
    (m.set k v).values.head? = m.values.head?.or (some v) := by
  rw [values, entries_set_of_none v h, List.map_append, List.head?_append]
  rfl

/-! ## Filling a map from a list -/

variable {p : α → Bool} {key : α → κ}

/-- `for (const a of xs) if (p(a)) m.set(key(a), a)`. -/
def writeAll (p : α → Bool) (key : α → κ) (xs : List α) (m : JsMap κ α) : JsMap κ α :=
  xs.foldl (fun m a => if p a then m.set (key a) a else m) m

/-- `for (const a of xs) if (!m.has(key(a))) m.set(key(a), val(a))`. -/
def writeNew (key : α → κ) (val : α → β) (xs : List α) (m : JsMap κ β) : JsMap κ β :=
  xs.foldl (fun m a => if m.has (key a) then m else m.set (key a) (val a)) m

/-- The last write wins. -/
theorem get?_writeAll (xs : List α) (m : JsMap κ α) (k : κ) :
    (writeAll p key xs m).get? k =
      (xs.reverse.find? fun a => p a && decide (key a = k)).or (m.get? k) := by
  induction xs generalizing m with
  | nil => simp [writeAll]
  | cons a xs ih =>
    change (writeAll p key xs (if p a then m.set (key a) a else m)).get? k = _
    rw [ih, List.reverse_cons, List.find?_append, Option.or_assoc]
    congr 1
    cases hp : p a with
    | false => simp [hp]
    | true =>
      by_cases hk : key a = k
      · simp [hp, hk, get?_set]
      · simp [hp, hk, get?_set, Ne.symm hk]

/-- The first write wins. -/
theorem get?_writeNew (val : α → β) (xs : List α) (m : JsMap κ β) (k : κ) :
    (writeNew key val xs m).get? k =
      (m.get? k).or ((xs.find? fun a => decide (key a = k)).map val) := by
  induction xs generalizing m with
  | nil => simp [writeNew]
  | cons a xs ih =>
    change (writeNew key val xs (if m.has (key a) then m else m.set (key a) (val a))).get? k = _
    rw [ih]
    by_cases hk : key a = k
    · subst hk
      rcases hm : m.get? (key a) with _ | v
      · simp [has, hm, get?_set]
      · simp [has, hm]
    · have hif : (if m.has (key a) then m else m.set (key a) (val a)).get? k = m.get? k := by
        split
        · rfl
        · rw [get?_set, if_neg (Ne.symm hk)]
      rw [hif, List.find?_cons_of_neg (by simpa using hk)]

end JsMap

end Nerion
