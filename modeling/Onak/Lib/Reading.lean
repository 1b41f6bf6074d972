import Mathlib

/-!
# Computations that read

A computation that reads elements of lists has three ends: it gives a value, it stops with an error of
its own, or it reads where there is nothing. `Ensures` says that it does not come to the third end and
that a value has a property; its rules follow the computation from step to step.
-/

/-- A computation that reads: `none` is a read outside. -/
abbrev Reading (ε α : Type) := ExceptT ε Option α

namespace Reading

variable {ε α β : Type}

/-- Takes what was read. -/
def read (x : Option α) : Reading ε α := ExceptT.mk (x.map Except.ok)

/-- Stops with an error if a condition holds. -/
def refuse (c : Prop) [Decidable c] (e : ε) : Reading ε Unit := if c then throw e else pure ()

/-- There is no read outside, and a value has the property. -/
def Ensures (x : Reading ε α) (P : α → Prop) : Prop :=
  ∃ r, x.run = some r ∧ ∀ a, r = .ok a → P a

/-- There is no read outside. -/
def Inside (x : Reading ε α) : Prop := x.run.isSome = true

theorem Ensures.inside {x : Reading ε α} {P : α → Prop} (h : Ensures x P) : Inside x := by
  obtain ⟨r, hr, -⟩ := h
  exact Option.isSome_iff_exists.mpr ⟨r, hr⟩

theorem ensures_pure {a : α} {P : α → Prop} (h : P a) : Ensures (pure a : Reading ε α) P :=
  ⟨.ok a, rfl, fun b hb => by cases hb; exact h⟩

theorem ensures_throw (e : ε) (P : α → Prop) : Ensures (throw e : Reading ε α) P :=
  ⟨.error e, rfl, fun b hb => by cases hb⟩

theorem ensures_read {x : Option α} {a : α} {P : α → Prop} (hx : x = some a) (h : P a) :
    Ensures (read x : Reading ε α) P := by
  rw [hx]
  exact ⟨.ok a, rfl, fun b hb => by cases hb; exact h⟩

theorem ensures_refuse {c : Prop} [Decidable c] {e : ε} {P : Unit → Prop} (h : ¬ c → P ()) :
    Ensures (refuse c e) P := by
  unfold refuse
  split_ifs with hc
  · exact ensures_throw e P
  · exact ensures_pure (h hc)

theorem run_bind (x : Reading ε α) (f : α → Reading ε β) :
    (x >>= f).run = x.run.bind (ExceptT.bindCont f) := rfl

theorem Ensures.bind {x : Reading ε α} {f : α → Reading ε β} {P : α → Prop} {Q : β → Prop}
    (hx : Ensures x P) (hf : ∀ a, P a → Ensures (f a) Q) : Ensures (x >>= f) Q := by
  obtain ⟨r, hr, hP⟩ := hx
  unfold Ensures
  rw [run_bind, hr]
  cases r with
  | error e => exact ⟨.error e, rfl, fun b hb => by cases hb⟩
  | ok a => exact hf a (hP a rfl)

/-- A step behind a guard that lets it pass. -/
theorem Ensures.refuse_bind {c : Prop} [Decidable c] {e : ε} {f : Unit → Reading ε β} {Q : β → Prop}
    (h : ¬ c → Ensures (f ()) Q) : Ensures (refuse c e >>= f) Q :=
  (ensures_refuse fun hc => hc).bind fun _ hc => h hc

/-- A step behind a read that goes well. -/
theorem Ensures.read_bind {x : Option α} {a : α} {f : α → Reading ε β} {Q : β → Prop} (hx : x = some a)
    (h : Ensures (f a) Q) : Ensures (read x >>= f) Q :=
  (ensures_read hx (P := (· = a)) rfl).bind fun _ hb => hb.symm ▸ h

theorem ensures_ite {c : Prop} [Decidable c] {x y : Reading ε α} {P : α → Prop}
    (hx : c → Ensures x P) (hy : ¬ c → Ensures y P) : Ensures (if c then x else y) P := by
  split_ifs with hc
  · exact hx hc
  · exact hy hc

/-! ## What a computation comes to -/

theorem run_bind_ok {x : Reading ε α} {a : α} (f : α → Reading ε β) (h : x.run = some (.ok a)) :
    (x >>= f).run = (f a).run := by
  rw [run_bind, h]
  rfl

@[simp]
theorem run_read_bind_some {a : α} (f : α → Reading ε β) : (read (some a) >>= f).run = (f a).run := by
  rw [run_bind]
  rfl

@[simp]
theorem run_read_bind_none (f : α → Reading ε β) : (read none >>= f).run = none := by
  rw [run_bind]
  rfl

theorem run_refuse_bind {c : Prop} [Decidable c] {e : ε} (f : Unit → Reading ε β) (hc : ¬ c) :
    (refuse c e >>= f).run = (f ()).run := by
  rw [run_bind, refuse, if_neg hc]
  rfl

/-- A computation that gives a value gives one at each of its steps. -/
theorem of_run_bind {x : Reading ε α} {f : α → Reading ε β} {b : β}
    (h : (x >>= f).run = some (.ok b)) : ∃ a, x.run = some (.ok a) ∧ (f a).run = some (.ok b) := by
  rw [run_bind] at h
  obtain ⟨r, hr, hf⟩ := Option.bind_eq_some_iff.mp h
  cases r with
  | error e => exact absurd hf (by simp [ExceptT.bindCont])
  | ok a => exact ⟨a, hr, hf⟩

/-- A value behind a guard says that the guard let it pass. -/
theorem of_run_refuse_bind {c : Prop} [Decidable c] {e : ε} {f : Unit → Reading ε β} {b : β}
    (h : (refuse c e >>= f).run = some (.ok b)) : ¬ c ∧ (f ()).run = some (.ok b) := by
  by_cases hc : c
  · rw [refuse, if_pos hc, run_bind] at h
    exact absurd (Option.some.inj h) (by simp)
  · rw [run_refuse_bind f hc] at h
    exact ⟨hc, h⟩

/-- A value behind a read says that the read went well. -/
theorem of_run_read_bind {x : Option α} {f : α → Reading ε β} {b : β}
    (h : (read x >>= f).run = some (.ok b)) : ∃ a, x = some a ∧ (f a).run = some (.ok b) := by
  cases x with
  | none =>
    rw [run_read_bind_none] at h
    exact absurd h (by simp)
  | some a =>
    rw [run_read_bind_some] at h
    exact ⟨a, rfl, h⟩

end Reading
