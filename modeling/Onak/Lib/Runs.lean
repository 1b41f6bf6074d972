import Mathlib

/-!
# Runs of a step function

A list of requests is handled one after the other. `Along ok` says that each request meets `ok` in
the state before it; what every such request preserves holds at the end of the run.
-/

namespace Runs

variable {σ α : Type*} (step : σ → α → σ)

/-- Each request meets `ok` in the state before it. -/
def Along (ok : σ → α → Prop) : σ → List α → Prop
  | _, [] => True
  | s, a :: l => ok s a ∧ Along ok (step s a) l

instance instDecidableAlong (ok : σ → α → Prop) [∀ s a, Decidable (ok s a)] (s : σ) (l : List α) :
    Decidable (Along step ok s l) :=
  match l with
  | [] => isTrue trivial
  | a :: l =>
    have := instDecidableAlong ok (step s a) l
    inferInstanceAs (Decidable (ok s a ∧ Along step ok (step s a) l))

variable {step}

theorem Along.invariant (Inv : σ → Prop) {ok : σ → α → Prop} {s : σ} {l : List α}
    (h : Along step ok s l) (hs : Inv s)
    (hstep : ∀ {s a}, Inv s → ok s a → Inv (step s a)) : Inv (l.foldl step s) := by
  induction l generalizing s with
  | nil => exact hs
  | cons a l ih => exact ih h.2 (hstep hs h.1)

/-- What holds at the start and is kept by every request lets each of them be met. -/
theorem along_of_invariant (Inv : σ → Prop) {ok : σ → α → Prop} {s : σ} {l : List α} (hs : Inv s)
    (hstep : ∀ {s a}, a ∈ l → Inv s → ok s a ∧ Inv (step s a)) : Along step ok s l := by
  induction l generalizing s with
  | nil => trivial
  | cons a l ih =>
    obtain ⟨hok, hinv⟩ := hstep List.mem_cons_self hs
    exact ⟨hok, ih hinv fun hmem => hstep (List.mem_cons_of_mem _ hmem)⟩

theorem Along.mono {ok ok' : σ → α → Prop} {s : σ} {l : List α} (h : Along step ok s l)
    (himp : ∀ {s a}, ok s a → ok' s a) : Along step ok' s l := by
  induction l generalizing s with
  | nil => trivial
  | cons a l ih => exact ⟨himp h.1, ih h.2⟩

end Runs
