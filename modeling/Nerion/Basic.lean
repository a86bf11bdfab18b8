import Mathlib.Data.List.Forall2

/-!
# Bytes and thrown errors

The two types every module of the model shares: byte strings and JavaScript errors.
Code that can throw returns in `Except JsError`.
-/

namespace Nerion

/-- `Uint8Array`. -/
abbrev Bytes : Type := List UInt8

/-- A thrown error: its class and its message. -/
structure JsError where
  /-- the error class, e.g. `RangeError` -/
  name : String
  /-- the message given to the constructor -/
  message : String
  deriving DecidableEq

/-- `new Error(message)`. -/
def error (message : String) : JsError := ⟨"Error", message⟩

/-- `new RangeError(message)`. -/
def rangeError (message : String) : JsError := ⟨"RangeError", message⟩

namespace Except

variable {ε α β : Type}

/-- Inversion for `bind`: a computation that returns went through both halves. -/
theorem bind_eq_ok {m : Except ε α} {f : α → Except ε β} {b : β}
    (h : (m >>= f) = Except.ok b) : ∃ a, m = .ok a ∧ f a = .ok b := by
  cases m with
  | error e => cases h
  | ok a => exact ⟨a, rfl, h⟩

/-- Introduction for `bind`, the converse of `bind_eq_ok`. -/
theorem bind_ok {m : Except ε α} {f : α → Except ε β} {a : α} {b : β} (hm : m = Except.ok a)
    (hf : f a = Except.ok b) : (m >>= f) = Except.ok b := by
  rw [hm]
  exact hf

/-- What follows a computation only maps its result. -/
theorem bind_eq_map {m : Except ε α} {f : α → Except ε β} {g : α → β}
    (h : ∀ a, m = Except.ok a → f a = .ok (g a)) : (m >>= f) = m.map g := by
  cases m with
  | error e => rfl
  | ok a => exact h a rfl

/-- Inversion for `map`. -/
theorem map_eq_ok {m : Except ε α} {f : α → β} {b : β} (h : m.map f = Except.ok b) :
    ∃ a, m = .ok a ∧ f a = b := by
  cases m with
  | error e => cases h
  | ok a => exact ⟨a, rfl, Except.ok.inj h⟩

/-- An early return was not taken, if the result is not what it returns. -/
theorem not_early {c : Prop} [Decidable c] {m : Except ε α} {a b : α} (q : α → Prop)
    (h : (if c then Except.ok a else m) = .ok b) (hb : q b) (ha : ¬ q a) : ¬ c ∧ m = .ok b := by
  split at h
  · exact absurd hb (Except.ok.inj h ▸ ha)
  · rename_i hc
    exact ⟨hc, h⟩

/-- A computation that returns, returns something. -/
theorem exists_of_isOk {m : Except ε α} (h : m.isOk = true) : ∃ a, m = .ok a := by
  cases m with
  | error e => cases h
  | ok a => exact ⟨a, rfl⟩

/-- `mapM` returns when the function does on every element. -/
theorem mapM_eq_ok {f : α → Except ε β} {xs : List α} {ys : List β} :
    xs.mapM f = Except.ok ys ↔ List.Forall₂ (fun x y => f x = .ok y) xs ys := by
  induction xs generalizing ys with
  | nil =>
    rw [List.forall₂_nil_left_iff]
    exact ⟨fun h => (Except.ok.inj h).symm, fun h => congrArg Except.ok h.symm⟩
  | cons x xs ih =>
    rw [List.mapM_cons, List.forall₂_cons_left_iff]
    constructor
    · intro h
      obtain ⟨y, hy, h⟩ := bind_eq_ok h
      obtain ⟨ys', hys, h⟩ := bind_eq_ok h
      exact ⟨y, ys', hy, ih.mp hys, (Except.ok.inj h).symm⟩
    · rintro ⟨y, ys', hy, hys, rfl⟩
      exact bind_ok hy (bind_ok (ih.mpr hys) rfl)

end Except

/-- Of two lists that correspond, an element of the second has a partner in the first. -/
theorem exists_of_forall₂_of_mem {α β : Type} {R : α → β → Prop} {xs : List α} {ys : List β}
    (h : List.Forall₂ R xs ys) {y : β} (hy : y ∈ ys) : ∃ x ∈ xs, R x y := by
  induction h with
  | nil => exact absurd hy List.not_mem_nil
  | cons hxy _ ih =>
    rcases List.mem_cons.mp hy with rfl | hy
    · exact ⟨_, List.mem_cons_self, hxy⟩
    · obtain ⟨x, hx, hxy⟩ := ih hy
      exact ⟨x, List.mem_cons_of_mem _ hx, hxy⟩

/-- Lists of one length are equal when the elements at each place are. -/
theorem forall_zip_eq_iff {α : Type} {a b : List α} (hlen : a.length = b.length) :
    (∀ p ∈ a.zip b, p.1 = p.2) ↔ a = b := by
  constructor
  · intro hall
    refine List.ext_getElem hlen fun i hi hi' => ?_
    have hzip : i < (a.zip b).length := by
      rw [List.length_zip, ← hlen, Nat.min_self]
      exact hi
    exact hall (a[i], b[i]) (List.mem_iff_getElem.mpr ⟨i, hzip, List.getElem_zip⟩)
  · rintro rfl p hp
    obtain ⟨i, hi, rfl⟩ := List.mem_iff_getElem.mp hp
    simp

end Nerion
