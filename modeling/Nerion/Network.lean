import Mathlib.Logic.Function.Basic
import Mathlib.Logic.Relation

/-!
# Parties on an adversarial network

A library on systems of parties that meet only through messages. The network decides who
moves next and what is handed over; the one limit on it is which messages it has, and that
depends on the states of all parties.

* `Network.Reachable` — the states of all runs;
* `Network.LocalInvariant` — an invariant of one party against the messages at hand. What
  is at hand only grows, so a local argument carries to whole runs
  (`LocalInvariant.of_reachable`).
-/

namespace Nerion

/-- Parties `ι` with states `σ` that are handed messages `μ`. -/
structure Network (ι σ μ : Type) where
  /-- where each party starts -/
  init : ι → σ
  /-- the messages that can be handed over in a state -/
  available : (ι → σ) → μ → Prop
  /-- one move of a party, handed messages of a given kind only -/
  move : ι → (μ → Prop) → σ → σ → Prop

namespace Network

variable {ι σ μ : Type} [DecidableEq ι] (N : Network ι σ μ)

/-- One party moves, the others wait. -/
inductive Step : (ι → σ) → (ι → σ) → Prop
  /-- the party, and where it gets to -/
  | move {s : ι → σ} (i : ι) {n' : σ} (h : N.move i (N.available s) (s i) n') :
      Step s (Function.update s i n')

/-- The states of all runs. -/
def Reachable (s : ι → σ) : Prop := Relation.ReflTransGen N.Step N.init s

/-- An invariant of each party that speaks of the messages at hand only as a set that may
grow. -/
structure LocalInvariant (Inv : ι → (μ → Prop) → σ → Prop) : Prop where
  /-- it holds at the start -/
  init : ∀ i, Inv i (N.available N.init) (N.init i)
  /-- it keeps holding when more messages are at hand -/
  mono : ∀ {i : ι} {src src' : μ → Prop} {n : σ}, (∀ m, src m → src' m) → Inv i src n →
    Inv i src' n
  /-- a party's moves keep it -/
  move : ∀ {i : ι} {src : μ → Prop} {n n' : σ}, N.move i src n n' → Inv i src n → Inv i src n'
  /-- what is at hand stays at hand -/
  grow : ∀ {s : ι → σ} {i : ι} {n' : σ}, N.move i (N.available s) (s i) n' →
    ∀ m, N.available s m → N.available (Function.update s i n') m

variable {N}

/-- **A local invariant holds of every party, all along a run.** -/
theorem LocalInvariant.of_reachable {Inv : ι → (μ → Prop) → σ → Prop}
    (hInv : N.LocalInvariant Inv) {s : ι → σ} (hs : N.Reachable s) :
    ∀ i, Inv i (N.available s) (s i) := by
  induction hs with
  | refl => exact hInv.init
  | @tail s _ _ hstep ih =>
    obtain ⟨j, hmove⟩ := hstep
    have hgrow := hInv.grow hmove
    intro i
    -- the party that moved, and the ones that waited while more messages came up
    by_cases hij : i = j
    · subst hij
      rw [Function.update_self]
      exact hInv.mono hgrow (hInv.move hmove (ih i))
    · rw [Function.update_of_ne hij]
      exact hInv.mono hgrow (ih i)

end Network

end Nerion
