import Mathlib

/-!
# Loops

A loop whose rounds are a function: a round may lead to a state, end the loop, or have no meaning
(`none`). What every round preserves holds in every state that is reached, and a measure that decreases
ends the loop.
-/

namespace Loops

variable {σ : Type*} (round : σ → Option (Option σ))

/-- One round. -/
def Step (s s' : σ) : Prop := round s = some (some s')

/-- Any number of rounds. -/
abbrev Reaches : σ → σ → Prop := Relation.ReflTransGen (Step round)

/-- The loop comes to its end. -/
def Terminates (s : σ) : Prop := ∃ s', Reaches round s s' ∧ round s' = some none

variable {round}

theorem Reaches.invariant {Inv : σ → Prop} {s s' : σ} (h : Reaches round s s') (hs : Inv s)
    (hstep : ∀ {s s'}, Inv s → Step round s s' → Inv s') : Inv s' := by
  induction h with
  | refl => exact hs
  | tail _ hlast ih => exact hstep ih hlast

theorem Terminates.step {s s' : σ} (hstep : Step round s s') (h : Terminates round s') :
    Terminates round s := by
  obtain ⟨t, hreach, hend⟩ := h
  exact ⟨t, .head hstep hreach, hend⟩

/-- Rounds that have a meaning and make a measure smaller come to an end. -/
theorem terminates_of_measure {Inv : σ → Prop} (measure : σ → Nat)
    (hround : ∀ {s}, Inv s → round s = some none ∨
      ∃ s', Step round s s' ∧ Inv s' ∧ measure s' < measure s)
    {s : σ} (hs : Inv s) : Terminates round s := by
  induction hn : measure s using Nat.strong_induction_on generalizing s with
  | _ n ih =>
  rcases hround hs with hend | ⟨s', hstep, hs', hlt⟩
  · exact ⟨s, .refl, hend⟩
  · exact (ih _ (hn ▸ hlt) hs' rfl).step hstep

end Loops
