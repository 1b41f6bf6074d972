import Mathlib

/-!
# Passes that count what they change

A pass changes something and says how much it has changed. Passes are run one after the other, with
their counts added up. `Shrinks` says that the count is accounted for by a size that goes down;
`Silent` on what a pass counts nothing, and then leaves it as it is.
-/

namespace Passes

variable {κ : Type*}

/-- One pass after the other. -/
def andThen (f h : κ → κ × Nat) (k : κ) : κ × Nat :=
  let r := f k
  let r' := h r.1
  (r'.1, r.2 + r'.2)

/-- A pass that is only made when it is asked for. -/
def onlyIf (b : Bool) (f : κ → κ × Nat) (k : κ) : κ × Nat := if b then f k else (k, 0)

/-- The size goes down by at least what is counted. -/
def Shrinks (size : κ → Nat) (f : κ → κ × Nat) : Prop := ∀ k, size (f k).1 + (f k).2 ≤ size k

/-- The pass counts nothing on exactly those with `P`, and does not change these. -/
structure Silent (P : κ → Prop) (f : κ → κ × Nat) : Prop where
  zero_iff : ∀ k, (f k).2 = 0 ↔ P k
  same : ∀ k, P k → (f k).1 = k

section

variable {size : κ → Nat} {P Q : κ → Prop} {f h : κ → κ × Nat}

theorem Shrinks.andThen (hf : Shrinks size f) (hh : Shrinks size h) : Shrinks size (andThen f h) := by
  intro k
  have h1 := hf k
  have h2 := hh (f k).1
  show size (h (f k).1).1 + ((f k).2 + (h (f k).1).2) ≤ size k
  omega

theorem Shrinks.onlyIf (hf : Shrinks size f) (b : Bool) : Shrinks size (onlyIf b f) := by
  intro k
  cases b with
  | false => exact le_rfl
  | true => exact hf k

/-- What was counted was changed. -/
theorem Shrinks.ne (hf : Shrinks size f) {k : κ} (hk : 0 < (f k).2) : (f k).1 ≠ k := by
  intro heq
  have hle := hf k
  rw [heq] at hle
  omega

theorem Silent.zero_andThen_iff (hf : Silent P f) (k : κ) :
    (andThen f h k).2 = 0 ↔ P k ∧ (h k).2 = 0 := by
  show (f k).2 + (h (f k).1).2 = 0 ↔ _
  rw [Nat.add_eq_zero_iff, hf.zero_iff]
  refine and_congr_right fun hP => ?_
  rw [hf.same k hP]

theorem Silent.andThen (hf : Silent P f) (hh : Silent Q h) :
    Silent (fun k => P k ∧ Q k) (andThen f h) where
  zero_iff := by
    intro k
    rw [hf.zero_andThen_iff, hh.zero_iff]
  same := by
    rintro k ⟨hP, hQ⟩
    show (h (f k).1).1 = k
    rw [hf.same k hP, hh.same k hQ]

theorem Silent.onlyIf (hf : Silent P f) (b : Bool) : Silent (fun k => b = true → P k) (onlyIf b f) where
  zero_iff := by
    intro k
    cases b with
    | false => simp [Passes.onlyIf]
    | true => simpa [Passes.onlyIf] using hf.zero_iff k
  same := by
    intro k hP
    cases b with
    | false => rfl
    | true => exact hf.same k (hP rfl)

end

end Passes
