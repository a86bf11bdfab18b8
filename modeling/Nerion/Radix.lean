import Mathlib.Data.Nat.Digits.Lemmas

/-!
# Base conversion in place

A library on the way in which programs convert a number from one base to another: the digits of
the result are kept lowest first, and each digit of the input multiplies them by the old base and
is added, with one carry loop over the digits there are and a second one that appends what is left.

* `carry`, `pushCarry`, `absorb` — the two loops, and one turn over the input;
* `absorb_digits` — a turn on the digits of `n` gives the digits of `n * mult + x`;
* `convert_eq` — the digits of the result are those of the number, except that zero has one digit.
-/

namespace Nerion.Radix

variable (base mult : ℕ)

/-- The loop over the digits there are: the digits, and the carry it ends with. -/
def carry : ℕ → List ℕ → List ℕ × ℕ
  | c, [] => ([], c)
  | c, d :: ds =>
    let r := carry ((c + d * mult) / base) ds
    ((c + d * mult) % base :: r.1, r.2)

/-- The loop that appends the carry, for at most the given number of turns. -/
def pushCarry : ℕ → ℕ → List ℕ
  | 0, _ => []
  | turns + 1, c => if c = 0 then [] else c % base :: pushCarry turns (c / base)

/-- One digit of the input. -/
def absorb (ds : List ℕ) (x : ℕ) : List ℕ :=
  let r := carry base mult x ds
  r.1 ++ pushCarry base r.2 r.2

/-- All of them; the digits start as a single zero. -/
def convert (xs : List ℕ) : List ℕ := xs.foldl (absorb base mult) [0]

/-- The number with the given digits, the highest first. -/
def ofBig (xs : List ℕ) : ℕ := xs.foldl (fun n x => n * mult + x) 0

variable {base mult}

theorem ofBig_eq (xs : List ℕ) : ofBig mult xs = Nat.ofDigits mult xs.reverse := by
  induction xs using List.reverseRecOn with
  | nil => rfl
  | append_singleton xs x ih =>
    rw [ofBig, List.foldl_concat, ← ofBig, ih, List.reverse_concat, Nat.ofDigits_cons, mul_comm,
      add_comm]

theorem ofBig_digits (base n : ℕ) : ofBig base (Nat.digits base n).reverse = n := by
  rw [ofBig_eq, List.reverse_reverse, Nat.ofDigits_digits]

/-- Digits that do not start with a zero are those of their number. -/
theorem digits_ofBig (hbase : 1 < base) {xs : List ℕ} (hlt : ∀ x ∈ xs, x < base)
    (hhead : ∀ x ∈ xs.head?, x ≠ 0) : Nat.digits base (ofBig base xs) = xs.reverse := by
  rw [ofBig_eq]
  refine Nat.digits_ofDigits base hbase _ (fun x hx => hlt x (List.mem_reverse.mp hx)) fun hne => ?_
  rw [List.getLast_reverse]
  exact hhead _ (List.head?_eq_some_head _)

/-- The loop multiplies and adds. -/
theorem carry_value (c : ℕ) (ds : List ℕ) :
    Nat.ofDigits base (carry base mult c ds).1 + base ^ ds.length * (carry base mult c ds).2 =
      Nat.ofDigits base ds * mult + c := by
  induction ds generalizing c with
  | nil => simp [carry]
  | cons d ds ih =>
    have hstep := ih ((c + d * mult) / base)
    rw [carry, Nat.ofDigits_cons, Nat.ofDigits_cons, List.length_cons, pow_succ']
    calc ((c + d * mult) % base +
          base * Nat.ofDigits base (carry base mult ((c + d * mult) / base) ds).1) +
          base * base ^ ds.length * (carry base mult ((c + d * mult) / base) ds).2
        = (c + d * mult) % base + base *
          (Nat.ofDigits base (carry base mult ((c + d * mult) / base) ds).1 +
            base ^ ds.length * (carry base mult ((c + d * mult) / base) ds).2) := by ring
      _ = ((c + d * mult) % base + base * ((c + d * mult) / base)) +
          base * Nat.ofDigits base ds * mult := by rw [hstep]; ring
      _ = (d + base * Nat.ofDigits base ds) * mult + c := by rw [Nat.mod_add_div]; ring

theorem carry_length (c : ℕ) (ds : List ℕ) : (carry base mult c ds).1.length = ds.length := by
  induction ds generalizing c with
  | nil => rfl
  | cons d ds ih => exact congrArg (· + 1) (ih _)

theorem carry_digits_lt (hbase : 0 < base) (c : ℕ) (ds : List ℕ) :
    ∀ d ∈ (carry base mult c ds).1, d < base := by
  induction ds generalizing c with
  | nil => exact fun d hd => absurd hd List.not_mem_nil
  | cons d ds ih =>
    intro d' hd'
    rcases List.mem_cons.mp hd' with rfl | hd'
    · exact Nat.mod_lt _ hbase
    · exact ih _ d' hd'

/-- If nothing is carried out, the highest digit stays one. -/
theorem carry_getLast {c : ℕ} {ds : List ℕ} (hmult : 0 < mult) (hbase : 0 < base)
    (hcarry : (carry base mult c ds).2 = 0) (hlast : ∀ d ∈ ds.getLast?, d ≠ 0) :
    ∀ d ∈ (carry base mult c ds).1.getLast?, d ≠ 0 := by
  induction ds generalizing c with
  | nil => exact fun d hd => absurd hd (Option.not_mem_none d)
  | cons d ds ih =>
    cases ds with
    | nil =>
      -- the only digit: its product fits, so the remainder is the product itself
      intro d' hd'
      have hd : d ≠ 0 := hlast d rfl
      obtain rfl : (c + d * mult) % base = d' := Option.some.inj hd'
      have hlt : c + d * mult < base :=
        (Nat.div_eq_zero_iff.mp hcarry).resolve_left hbase.ne'
      rw [Nat.mod_eq_of_lt hlt]
      have hpos : 0 < d * mult := Nat.mul_pos (Nat.pos_of_ne_zero hd) hmult
      omega
    | cons e es => exact ih hcarry hlast

theorem pushCarry_eq (hbase : 1 < base) {turns c : ℕ} (h : c ≤ turns) :
    pushCarry base turns c = Nat.digits base c := by
  induction turns generalizing c with
  | zero =>
    obtain rfl := Nat.le_zero.mp h
    rw [pushCarry, Nat.digits_zero]
  | succ turns ih =>
    rw [pushCarry]
    split
    · rename_i hc
      rw [hc, Nat.digits_zero]
    · rename_i hc
      have hlt : c / base < c := Nat.div_lt_self (Nat.pos_of_ne_zero hc) hbase
      rw [ih (by omega), Nat.digits_def' hbase (Nat.pos_of_ne_zero hc)]

theorem absorb_eq (hbase : 1 < base) (ds : List ℕ) (x : ℕ) : absorb base mult ds x =
    (carry base mult x ds).1 ++ Nat.digits base (carry base mult x ds).2 := by
  rw [absorb, pushCarry_eq hbase le_rfl]

theorem ofDigits_absorb (hbase : 1 < base) (ds : List ℕ) (x : ℕ) :
    Nat.ofDigits base (absorb base mult ds x) = Nat.ofDigits base ds * mult + x := by
  rw [absorb_eq hbase, Nat.ofDigits_append, Nat.ofDigits_digits, carry_length, carry_value]

/-- **One turn on the digits of a number.** -/
theorem absorb_digits (hbase : 1 < base) (hmult : 0 < mult) (n x : ℕ) :
    absorb base mult (Nat.digits base n) x = Nat.digits base (n * mult + x) := by
  have hvalue := @ofDigits_absorb base mult hbase (Nat.digits base n) x
  rw [Nat.ofDigits_digits] at hvalue
  rw [← hvalue]
  symm
  -- the digits are below the base, and the highest is not zero
  refine Nat.digits_ofDigits base hbase _ (fun d hd => ?_) fun hne => ?_
  · rw [absorb_eq hbase] at hd
    rcases List.mem_append.mp hd with hd | hd
    · exact carry_digits_lt (Nat.zero_lt_of_lt hbase) _ _ d hd
    · exact Nat.digits_lt_base hbase hd
  · have hlast : ∀ d ∈ (absorb base mult (Nat.digits base n) x).getLast?, d ≠ 0 := by
      rw [absorb_eq hbase]
      by_cases hcarry : (carry base mult x (Nat.digits base n)).2 = 0
      · rw [hcarry, Nat.digits_zero, List.append_nil]
        refine carry_getLast hmult (Nat.zero_lt_of_lt hbase) hcarry fun d hd => ?_
        obtain ⟨hne', rfl⟩ := List.mem_getLast?_eq_getLast hd
        exact Nat.getLast_digit_ne_zero base (Nat.digits_ne_nil_iff_ne_zero.mp hne')
      · have hne' : Nat.digits base (carry base mult x (Nat.digits base n)).2 ≠ [] :=
          Nat.digits_ne_nil_iff_ne_zero.mpr hcarry
        intro d hd
        rw [List.getLast?_append_of_ne_nil _ hne', List.getLast?_eq_some_getLast hne'] at hd
        obtain rfl := Option.some.inj hd
        exact Nat.getLast_digit_ne_zero base hcarry
    exact hlast _ (List.getLast?_eq_some_getLast hne)

/-- The digits of a number as the program keeps them: zero has one digit. -/
def shown (base n : ℕ) : List ℕ := if n = 0 then [0] else Nat.digits base n

theorem absorb_shown (hbase : 1 < base) (hmult : 0 < mult) (n x : ℕ) :
    absorb base mult (shown base n) x = shown base (n * mult + x) := by
  rw [shown]
  split
  · rename_i hn
    subst hn
    rw [zero_mul, zero_add, absorb_eq hbase, carry, carry, zero_mul, add_zero, shown]
    split
    · rename_i hx
      rw [hx, Nat.zero_mod, Nat.zero_div, Nat.digits_zero]
      rfl
    · rename_i hx
      rw [Nat.digits_def' hbase (Nat.pos_of_ne_zero hx)]
      rfl
  · rename_i hn
    have hpos : 0 < n * mult := Nat.mul_pos (Nat.pos_of_ne_zero hn) hmult
    rw [absorb_digits hbase hmult, shown, if_neg (by omega)]

/-- **The conversion.** -/
theorem convert_eq (hbase : 1 < base) (hmult : 0 < mult) (xs : List ℕ) :
    convert base mult xs = shown base (ofBig mult xs) := by
  induction xs using List.reverseRecOn with
  | nil => rfl
  | append_singleton xs x ih =>
    rw [convert, List.foldl_concat, ← convert, ih, absorb_shown hbase hmult, ofBig, ofBig,
      List.foldl_concat]

end Nerion.Radix
