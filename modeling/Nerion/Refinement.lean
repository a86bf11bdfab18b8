import Nerion.Network

/-!
# Refinement mappings

A library on transition systems and on one of them implementing another.

* `TransitionSystem.Reachable` — the states of all runs;
* `TransitionSystem.Invariant.of_reachable` — what holds at the start and is kept by every
  step holds of every reachable state;
* `Refines` — a map of states under which each step of the implementation is a run of the
  specification, possibly an empty one. Runs go to runs (`Refines.run`), so the invariants of
  the specification hold of the implementation.
-/

namespace Nerion

/-- Where runs start, and what one step does. -/
structure TransitionSystem (σ : Type) where
  /-- the initial states -/
  init : σ → Prop
  /-- one step -/
  next : σ → σ → Prop

namespace TransitionSystem

variable {σ : Type} (A : TransitionSystem σ)

/-- The states of all runs. -/
def Reachable (s : σ) : Prop := ∃ s₀, A.init s₀ ∧ Relation.ReflTransGen A.next s₀ s

/-- An inductive invariant. -/
structure Invariant (P : σ → Prop) : Prop where
  /-- it holds at the start -/
  init : ∀ s, A.init s → P s
  /-- a step keeps it -/
  next : ∀ s s', A.next s s' → P s → P s'

variable {A} {P : σ → Prop} {s s' : σ}

theorem Reachable.run (h : A.Reachable s) (hrun : Relation.ReflTransGen A.next s s') :
    A.Reachable s' := by
  obtain ⟨s₀, h₀, hs⟩ := h
  exact ⟨s₀, h₀, hs.trans hrun⟩

/-- **The rule for reachable states.** -/
theorem Invariant.of_reachable (hP : A.Invariant P) (h : A.Reachable s) : P s := by
  obtain ⟨s₀, h₀, hs⟩ := h
  induction hs with
  | refl => exact hP.init s₀ h₀
  | tail _ hstep ih => exact hP.next _ _ hstep ih

end TransitionSystem

/-- A refinement mapping of the system `C` to the system `A`. A step from a state that no run
gets to need not be matched. -/
structure Refines {σ τ : Type} (C : TransitionSystem σ) (A : TransitionSystem τ) (f : σ → τ) :
    Prop where
  /-- it starts where the specification starts -/
  init : ∀ s, C.init s → A.init (f s)
  /-- a step is zero or more steps of the specification -/
  next : ∀ s s', C.Reachable s → C.next s s' → Relation.ReflTransGen A.next (f s) (f s')

namespace Refines

variable {σ τ : Type} {C : TransitionSystem σ} {A : TransitionSystem τ} {f : σ → τ} {s s' : σ}
  (h : Refines C A f)

include h

/-- Runs go to runs. -/
theorem run (hs : C.Reachable s) (hrun : Relation.ReflTransGen C.next s s') :
    Relation.ReflTransGen A.next (f s) (f s') := by
  induction hrun with
  | refl => exact .refl
  | tail hrun hstep ih => exact ih.trans (h.next _ _ (hs.run hrun) hstep)

/-- Reachable states go to reachable states. -/
theorem reachable (hs : C.Reachable s) : A.Reachable (f s) := by
  obtain ⟨s₀, h₀, hrun⟩ := hs
  exact ⟨f s₀, h.init s₀ h₀, h.run ⟨s₀, h₀, .refl⟩ hrun⟩

end Refines

/-- A network of parties as a transition system. -/
def Network.system {ι σ μ : Type} [DecidableEq ι] (N : Network ι σ μ) :
    TransitionSystem (ι → σ) where
  init s := s = N.init
  next := N.Step

theorem Network.reachable_system {ι σ μ : Type} [DecidableEq ι] {N : Network ι σ μ}
    {s : ι → σ} : N.system.Reachable s ↔ N.Reachable s := by
  constructor
  · rintro ⟨_, rfl, hs⟩
    exact hs
  · intro hs
    exact ⟨N.init, rfl, hs⟩

end Nerion
