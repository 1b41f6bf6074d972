import Mathlib

/-!
# Weakest preconditions

The computations here change a state and may fault. The weakest precondition of a computation holds in
the states from which it gives a value, with a property of the value and the state behind it. The rules
are equivalences, so what they leave is exactly what a computation needs. Much of a program leaves the
state alone: `Needs` says what such a part needs and what it gives.
-/

namespace Wp

variable {σ ε α β : Type}

/-- From the state, the computation gives a value and a state with the property. -/
def wp (x : StateT σ (Except ε) α) (Q : α → σ → Prop) (s : σ) : Prop :=
  ∃ a s', x.run s = .ok (a, s') ∧ Q a s'

section

variable {Q R : α → σ → Prop} {s : σ}

@[simp]
theorem wp_pure {a : α} : wp (pure a : StateT σ (Except ε) α) Q s ↔ Q a s := by
  constructor
  · rintro ⟨b, s', hrun, hQ⟩
    cases hrun
    exact hQ
  · intro hQ
    exact ⟨a, s, rfl, hQ⟩

@[simp]
theorem wp_throw {e : ε} : ¬ wp (throw e : StateT σ (Except ε) α) Q s := by
  rintro ⟨a, s', hrun, -⟩
  cases hrun

@[simp]
theorem wp_bind {x : StateT σ (Except ε) α} {f : α → StateT σ (Except ε) β} {Q : β → σ → Prop} :
    wp (x >>= f) Q s ↔ wp x (fun a s' => wp (f a) Q s') s := by
  have hbind : (x >>= f).run s = (x.run s).bind fun p => (f p.1).run p.2 := rfl
  constructor
  · rintro ⟨b, s'', hrun, hQ⟩
    rw [hbind] at hrun
    cases hx : x.run s with
    | error e =>
      rw [hx] at hrun
      cases hrun
    | ok p =>
      rw [hx] at hrun
      exact ⟨p.1, p.2, hx, b, s'', hrun, hQ⟩
  · rintro ⟨a, s', hx, b, s'', hrun, hQ⟩
    refine ⟨b, s'', ?_, hQ⟩
    rw [hbind, hx]
    exact hrun

@[simp]
theorem wp_get {Q : σ → σ → Prop} : wp (get : StateT σ (Except ε) σ) Q s ↔ Q s s :=
  wp_pure (ε := ε)

@[simp]
theorem wp_set {t : σ} {Q : PUnit → σ → Prop} :
    wp (set t : StateT σ (Except ε) PUnit) Q s ↔ Q ⟨⟩ t := by
  constructor
  · rintro ⟨b, s', hrun, hQ⟩
    cases hrun
    exact hQ
  · intro hQ
    exact ⟨⟨⟩, t, rfl, hQ⟩

/-- What a computation comes to, as a weakest precondition. -/
theorem run_eq_ok_iff {x : StateT σ (Except ε) α} {a : α} {s' : σ} :
    x.run s = .ok (a, s') ↔ wp x (fun b t => b = a ∧ t = s') s := by
  constructor
  · intro hrun
    exact ⟨a, s', hrun, rfl, rfl⟩
  · rintro ⟨b, t, hrun, rfl, rfl⟩
    exact hrun

end

/-! ## Parts that leave the state alone -/

/-- The computation gives the value if the condition holds, and faults otherwise. It leaves the state as
it is. -/
def Needs (x : StateT σ (Except ε) α) (c : Prop) (a : α) : Prop :=
  ∀ (Q : α → σ → Prop) (s : σ), wp x Q s ↔ c ∧ Q a s

theorem needs_pure (a : α) : Needs (pure a : StateT σ (Except ε) α) True a := by
  intro Q s
  rw [wp_pure, true_and]

theorem needs_throw (e : ε) (a : α) : Needs (throw e : StateT σ (Except ε) α) False a := by
  intro Q s
  rw [false_and, iff_false]
  exact wp_throw

theorem Needs.bind {x : StateT σ (Except ε) α} {f : α → StateT σ (Except ε) β} {c d : Prop} {a : α}
    {b : β} (hx : Needs x c a) (hf : c → Needs (f a) d b) : Needs (x >>= f) (c ∧ d) b := by
  intro Q s
  rw [wp_bind, hx, and_assoc]
  exact and_congr_right fun hc => hf hc Q s

theorem Needs.congr {x : StateT σ (Except ε) α} {c d : Prop} {a : α} (h : Needs x c a) (hcd : c ↔ d) :
    Needs x d a := by
  intro Q s
  rw [h, hcd]

/-- The computation gives a value in any case. It leaves the state as it is. -/
def Gives (x : StateT σ (Except ε) α) : Prop := ∃ a, Needs x True a

theorem gives_pure (a : α) : Gives (pure a : StateT σ (Except ε) α) := ⟨a, needs_pure a⟩

theorem Gives.bind {x : StateT σ (Except ε) α} {f : α → StateT σ (Except ε) β} (hx : Gives x)
    (hf : ∀ a, Gives (f a)) : Gives (x >>= f) := by
  obtain ⟨a, ha⟩ := hx
  obtain ⟨b, hb⟩ := hf a
  exact ⟨b, (ha.bind fun _ => hb).congr (and_self_iff)⟩

theorem gives_ite {x y : StateT σ (Except ε) α} {p : Prop} [Decidable p] (hx : Gives x)
    (hy : Gives y) : Gives (if p then x else y) := by
  split_ifs with hp
  · exact hx
  · exact hy

end Wp
