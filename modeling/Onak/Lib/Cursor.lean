import Mathlib

/-!
# Pointers into a text

A pointer is the list of what stands at it and behind it. The end of a range is given by the number of
elements that stand behind the range, so that `p < end` is `stop < p.length`.
-/

namespace Cursor

variable {α : Type} {stop : Nat} {f : List α → Bool}

/-- `while (p < end && f(p)) p++`. -/
def advance (stop : Nat) (f : List α → Bool) : List α → List α
  | [] => []
  | c :: p => if stop < p.length + 1 ∧ f (c :: p) then advance stop f p else c :: p

theorem advance_suffix (stop : Nat) (f : List α → Bool) (p : List α) : advance stop f p <:+ p := by
  induction p with
  | nil => exact List.suffix_refl _
  | cons c p ih =>
    unfold advance
    split_ifs
    · exact ih.trans (List.suffix_cons c p)
    · exact List.suffix_refl _

/-- The loop does not run past the end of its range. -/
theorem le_advance {p : List α} (h : stop ≤ p.length) : stop ≤ (advance stop f p).length := by
  induction p with
  | nil => exact h
  | cons c p ih =>
    rw [advance]
    split_ifs with hgo
    · exact ih (Nat.le_of_lt_succ hgo.1)
    · exact h

/-- A loop that is over inside of its range is over because of what it has come to. -/
theorem advance_over {p : List α} (h : stop < (advance stop f p).length) :
    f (advance stop f p) = false := by
  induction p with
  | nil => exact absurd h (Nat.not_lt_zero stop)
  | cons c p ih =>
    rw [advance] at h ⊢
    split_ifs at h ⊢ with hgo
    · exact ih h
    · exact (Bool.not_eq_true _).mp fun hf => hgo ⟨h, hf⟩

/-- What the loop comes over is as it asks. -/
theorem of_advance {p r : List α} (hr : r <:+ p) (hlt : (advance stop f p).length < r.length) :
    f r = true := by
  induction p with
  | nil =>
    obtain rfl := List.suffix_nil.mp hr
    exact absurd hlt (Nat.not_lt_zero _)
  | cons c p ih =>
    rw [advance] at hlt
    rcases List.suffix_cons_iff.mp hr with rfl | hr
    · split_ifs at hlt with hgo
      · exact hgo.2
      · exact absurd hlt (lt_irrefl _)
    · split_ifs at hlt with hgo
      · exact ih hr hlt
      · have hle := hr.length_le
        rw [List.length_cons] at hlt
        omega

/-- A pointer at which the loop is over stays where it is. -/
theorem advance_of_not {p : List α} (h : f p = false) : advance stop f p = p := by
  cases p with
  | nil => rfl
  | cons c p => rw [advance, if_neg (by simp [h])]

/-- A loop that runs through `text` goes on behind it. -/
theorem advance_append {text q : List α} (hstop : stop ≤ q.length)
    (h : ∀ a b, text = a ++ b → b ≠ [] → f (b ++ q) = true) :
    advance stop f (text ++ q) = advance stop f q := by
  induction text with
  | nil => rfl
  | cons c text ih =>
    have hhead : f (c :: (text ++ q)) = true := h [] (c :: text) rfl (List.cons_ne_nil c text)
    have hlength : stop < (text ++ q).length + 1 := by
      rw [List.length_append]
      omega
    rw [List.cons_append, advance, if_pos ⟨hlength, hhead⟩]
    refine ih fun a b hab hb => h (c :: a) b ?_ hb
    rw [hab, List.cons_append]

/-- A loop that runs through `text` and is over behind it. -/
theorem advance_through {text q : List α} (hstop : stop ≤ q.length)
    (h : ∀ a b, text = a ++ b → b ≠ [] → f (b ++ q) = true) (hq : f q = false) :
    advance stop f (text ++ q) = q := by
  rw [advance_append hstop h, advance_of_not hq]

/-- A search for `c` stops at `c`. -/
theorem eq_of_dropWhile_ne [DecidableEq α] {c d : α} {text rest : List α}
    (h : text.dropWhile (· ≠ c) = d :: rest) : d = c := by
  have hne : text.dropWhile (· ≠ c) ≠ [] := by
    rw [h]
    exact List.cons_ne_nil d rest
  have hhead := List.head_dropWhile_not (· ≠ c) hne
  simp only [h, List.head_cons] at hhead
  simpa using hhead

end Cursor
