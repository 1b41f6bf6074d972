import Mathlib

/-!
# Prefix-free codes

A code relates elements to the lists that stand for them; an element may have more than one. In a
prefix-free code what stands at the front of a list can be told from what is behind it, so a list of
elements can be read off the words for them written one behind the other.
-/

namespace PrefixCode

variable {α β : Type*}

/-- No word of the code is empty, and none stands at the front of another one. -/
structure PrefixFree (code : α → List β → Prop) : Prop where
  ne_nil : ∀ {a l}, code a l → l ≠ []
  split : ∀ {a b l l' t t'}, code a l → code b l' → l ++ t = l' ++ t' → a = b ∧ l = l'

/-- The words for a list of elements, one behind the other. -/
inductive Words (code : α → List β → Prop) : List α → List β → Prop
  | nil : Words code [] []
  | cons {a : α} {l : List β} {as : List α} {ls : List β} :
      code a l → Words code as ls → Words code (a :: as) (l ++ ls)

theorem words_flatMap {code : α → List β → Prop} {encode : α → List β} {as : List α}
    (h : ∀ a ∈ as, code a (encode a)) : Words code as (as.flatMap encode) := by
  induction as with
  | nil => exact .nil
  | cons a as ih => exact .cons (h a (by simp)) (ih fun b hb => h b (by simp [hb]))

theorem Words.append {code : α → List β → Prop} {as bs : List α} {l l' : List β}
    (ha : Words code as l) (hb : Words code bs l') : Words code (as ++ bs) (l ++ l') := by
  induction ha with
  | nil => exact hb
  | cons hc _ ih =>
    rw [List.append_assoc]
    exact .cons hc ih

theorem words_flatten {code : α → List β → Prop} {ass : List (List α)} {ls : List (List β)}
    (h : List.Forall₂ (Words code) ass ls) : Words code ass.flatten ls.flatten := by
  induction h with
  | nil => exact .nil
  | cons ha _ ih => exact ha.append ih

/-- What stands behind the words for some elements stands for the elements behind them. -/
theorem PrefixFree.words_behind {code : α → List β → Prop} (h : PrefixFree code) {as bs : List α}
    {l t : List β} (ha : Words code as l) (hb : Words code (as ++ bs) (l ++ t)) :
    Words code bs t := by
  induction ha with
  | nil => exact hb
  | @cons a w as ls hc _ ih =>
    generalize hl : w ++ ls ++ t = l' at hb
    cases hb with
    | cons hc' hb =>
      rw [List.append_assoc] at hl
      obtain ⟨-, rfl⟩ := h.split hc hc' hl
      obtain rfl := List.append_cancel_left hl
      exact ih hb

/-- A list stands for one list of elements at most. -/
theorem PrefixFree.words_unique {code : α → List β → Prop} (h : PrefixFree code) {as bs : List α}
    {l : List β} (ha : Words code as l) (hb : Words code bs l) : as = bs := by
  induction ha generalizing bs with
  | nil =>
    generalize hl : ([] : List β) = l at hb
    cases hb with
    | nil => rfl
    | cons hc _ => exact absurd (List.append_eq_nil_iff.mp hl.symm).1 (h.ne_nil hc)
  | @cons a w as ls hc _ ih =>
    generalize hl : w ++ ls = l at hb
    cases hb with
    | nil => exact absurd (List.append_eq_nil_iff.mp hl).1 (h.ne_nil hc)
    | cons hc' hb =>
      obtain ⟨rfl, rfl⟩ := h.split hc hc' hl
      obtain rfl := List.append_cancel_left hl
      rw [ih hb]

end PrefixCode
