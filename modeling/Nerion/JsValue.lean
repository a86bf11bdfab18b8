import Nerion.Basic
import Nerion.JsNumber

/-!
# JavaScript values

A library model of values whose shape nothing has checked: primitives, byte arrays, arrays
and plain objects. What is not a primitive has an identity, a number, and `===` compares
that. Reading a property of `undefined` or `null` throws; of the other values only plain
objects have properties here, so built-in ones (`length`, methods) are not for `field`.
There are no accessors, proxies or cycles.

* `strictEq_text` — a value that equals a string is that string;
* `sameValueZero_text` — nor does a set of strings hold anything else.
-/

namespace Nerion

/-- A JavaScript value. -/
inductive JsValue where
  | undefined
  | null
  /-- a boolean -/
  | bool (b : Bool)
  /-- a number -/
  | num (x : JsNum)
  | bigint (z : ℤ)
  /-- a string -/
  | text (s : String)
  /-- a `Uint8Array` -/
  | bytes (ref : ℕ) (b : Bytes)
  | array (ref : ℕ) (xs : List JsValue)
  /-- a plain object -/
  | object (ref : ℕ) (fields : List (String × JsValue))

namespace JsValue

/-- `new TypeError(…)` of a property read. -/
def readError (what key : String) : JsError :=
  ⟨"TypeError", "Cannot read properties of " ++ what ++ " (reading '" ++ key ++ "')"⟩

/-- `v.key`. -/
def field (v : JsValue) (key : String) : Except JsError JsValue :=
  match v with
  | undefined => .error (readError "undefined" key)
  | null => .error (readError "null" key)
  | object _ fields => .ok ((fields.lookup key).getD undefined)
  | _ => .ok undefined

/-- `a === b`. -/
def strictEq : JsValue → JsValue → Bool
  | undefined, undefined => true
  | null, null => true
  | bool a, bool b => decide (a = b)
  | num a, num b => JsNum.strictEq a b
  | bigint a, bigint b => decide (a = b)
  | text a, text b => decide (a = b)
  | bytes a _, bytes b _ => decide (a = b)
  | array a _, array b _ => decide (a = b)
  | object a _, object b _ => decide (a = b)
  | _, _ => false

/-- `SameValueZero`, by which a `Set` compares. -/
def sameValueZero : JsValue → JsValue → Bool
  | num a, num b => decide (a = b)
  | a, b => strictEq a b

/-- `v ?? d`. -/
def nullish (v d : JsValue) : JsValue :=
  match v with
  | undefined => d
  | null => d
  | v => v

theorem strictEq_text {v : JsValue} {s : String} : v.strictEq (text s) = true ↔ v = text s := by
  cases v with
  | text t =>
    rw [strictEq, decide_eq_true_iff]
    exact ⟨congrArg _, text.inj⟩
  | _ => exact iff_of_false Bool.false_ne_true JsValue.noConfusion

theorem text_strictEq {v : JsValue} {s : String} : (text s).strictEq v = true ↔ v = text s := by
  cases v with
  | text t =>
    rw [strictEq, decide_eq_true_iff]
    exact ⟨fun h => congrArg _ h.symm, fun h => (text.inj h).symm⟩
  | _ => exact iff_of_false Bool.false_ne_true JsValue.noConfusion

theorem sameValueZero_text {v : JsValue} {s : String} :
    (text s).sameValueZero v = true ↔ v = text s := by
  have hstrict : (text s).sameValueZero v = (text s).strictEq v := by cases v <;> rfl
  rw [hstrict, text_strictEq]

end JsValue

end Nerion
