import Onak.Lib.Collapse
import Onak.Lib.Places

/-!
# The elements that a collapsed list keeps

Which places of a list are left when it is collapsed can be told from the comparisons of its elements
alone: those whose element nothing outranks. Between elements of which none is newer, the first one
is kept, so the elements are ranked together with their places.
-/

namespace Collapse

open Places

variable {α : Type*} {m n : α → α → Bool}

/-! ## Collapsing a part of a list before -/

theorem scan_append_of_true {o : α} {l : List α} (h : (scan m n o l).1 = true) (l' : List α) :
    (scan m n o (l ++ l')).1 = true ∧
      (scan m n o (l ++ l')).2.1 = (scan m n o l).2.1 ++ l' := by
  induction l with
  | nil => exact absurd h (by simp [scan])
  | cons i rest ih =>
    simp only [List.cons_append, scan] at h ⊢
    split_ifs at h ⊢ with hm hn
    · exact ⟨rfl, rfl⟩
    · exact ih h
    · obtain ⟨ih1, ih2⟩ := ih h
      exact ⟨ih1, by rw [ih2]; rfl⟩

theorem scan_append_of_false {o : α} {l : List α} (h : (scan m n o l).1 = false) (l' : List α) :
    (scan m n o (l ++ l')).1 = (scan m n o l').1 ∧
      (scan m n o (l ++ l')).2.1 = (scan m n o l).2.1 ++ (scan m n o l').2.1 := by
  induction l with
  | nil => exact ⟨rfl, rfl⟩
  | cons i rest ih =>
    simp only [List.cons_append, scan] at h ⊢
    split_ifs at h ⊢ with hm hn
    · exact ih h
    · obtain ⟨ih1, ih2⟩ := ih h
      exact ⟨ih1, by rw [ih2]; rfl⟩

/-- The outer element goes through a list that does not match it. -/
theorem scan_append_of_unmatched {o : α} {l : List α} (h : ∀ x ∈ l, ¬ m o x) (l' : List α) :
    (scan m n o (l ++ l')).1 = (scan m n o l').1 ∧
      (scan m n o (l ++ l')).2.1 = l ++ (scan m n o l').2.1 := by
  induction l with
  | nil => exact ⟨rfl, rfl⟩
  | cons i rest ih =>
    rw [List.forall_mem_cons] at h
    obtain ⟨ih1, ih2⟩ := ih h.2
    simp only [List.cons_append, scan, h.1, if_false, Bool.false_eq_true]
    exact ⟨ih1, by rw [ih2]⟩

/-- The front of a list can be collapsed before. -/
theorem collapse_collapse_append (l l' : List α) :
    collapse m n (collapse m n l ++ l') = collapse m n (l ++ l') := by
  induction l using outer_induction (m := m) (n := n) generalizing l' with
  | nil => rfl
  | cons o l ih =>
    rw [List.cons_append, collapse_cons, collapse_cons]
    cases hd : (scan m n o l).1 with
    | true =>
      obtain ⟨h1, h2⟩ := scan_append_of_true hd l'
      rw [h1, h2, if_pos rfl, if_pos rfl]
      exact ih l'
    | false =>
      have hkept : ∀ x ∈ collapse m n (scan m n o l).2.1, ¬ m o x :=
        fun x hx => scan_false hd x (mem_of_mem_collapse hx)
      obtain ⟨h1, h2⟩ := scan_append_of_false hd l'
      obtain ⟨h3, h4⟩ := scan_append_of_unmatched (n := n) hkept l'
      rw [if_neg Bool.false_ne_true, List.cons_append, collapse_cons, h1, h2, h3, h4, ih]

variable (hR : Ranked m n)
include hR

/-- An element that an earlier one outranks leaves no trace. -/
theorem collapse_append_cons_of_outranked {l l' : List α} {r t : α} (hr : r ∈ l) (hm : m r t)
    (hn : ¬ n r t) : collapse m n (l ++ t :: l') = collapse m n (l ++ l') := by
  induction l using outer_induction (m := m) (n := n) generalizing l' r with
  | nil => exact absurd hr (by simp)
  | cons o l ih =>
    rw [List.cons_append, List.cons_append, collapse_cons, collapse_cons]
    -- what the outer element takes away outranks no more than it does itself
    have hor : r ∈ (scan m n o l).2.1 ∨ m o t ∧ ¬ n o t := by
      rcases List.mem_cons.mp hr with rfl | hr
      · exact .inr ⟨hm, hn⟩
      · rcases mem_scan (m := m) (n := n) o hr with hmem | ⟨hor, hnor⟩
        · exact .inl hmem
        · exact .inr ⟨hR.trans hor hm, hR.not_newer_trans hor hm hnor hn⟩
    cases hd : (scan m n o l).1 with
    | true =>
      obtain ⟨h1, h2⟩ := scan_append_of_true hd (t :: l')
      obtain ⟨h3, h4⟩ := scan_append_of_true hd l'
      rw [h1, h2, h3, h4, if_pos rfl, if_pos rfl]
      rcases hor with hmem | ⟨hot, hnot⟩
      · exact ih hmem hm hn
      · obtain ⟨i, hi, hoi, hni⟩ := scan_true hd
        have hit : m i t := hR.trans (hR.symm hoi) hot
        exact ih hi hit (hR.not_newer_trans (hR.symm hoi) hot (hR.asymm hoi hni) hnot)
    | false =>
      obtain ⟨h1, h2⟩ := scan_append_of_false hd (t :: l')
      obtain ⟨h3, h4⟩ := scan_append_of_false hd l'
      rw [h1, h2, h3, h4]
      by_cases hot : m o t = true
      · have hnot : ¬ n o t := by
          rcases hor with hmem | ⟨-, hnot⟩
          · exact absurd (hR.trans hot (hR.symm hm)) (scan_false hd r hmem)
          · exact hnot
        simp only [scan, hot, hnot, if_true, if_false, Bool.false_eq_true]
      · have hmem : r ∈ (scan m n o l).2.1 := hor.resolve_right fun h => hot h.1
        simp only [scan, hot, if_false, Bool.false_eq_true]
        rw [ih hmem hm hn]

/-- So do all that elements of the front outrank. -/
theorem collapse_append_filter {l : List α} (p : α → Bool) (l' : List α)
    (h : ∀ t ∈ l', ¬ p t → ∃ r ∈ l, m r t ∧ ¬ n r t) :
    collapse m n (l ++ l'.filter p) = collapse m n (l ++ l') := by
  induction l' generalizing l with
  | nil => rfl
  | cons t l' ih =>
    rw [List.forall_mem_cons] at h
    by_cases ht : p t = true
    · have hrest := ih (l := l ++ [t]) fun x hx hpx => by
        obtain ⟨r, hr, hrx⟩ := h.2 x hx hpx
        exact ⟨r, List.mem_append_left _ hr, hrx⟩
      rw [List.append_assoc, List.append_assoc, List.singleton_append, List.singleton_append] at hrest
      rw [List.filter_cons_of_pos ht]
      exact hrest
    · obtain ⟨r, hr, hm, hn⟩ := h.1 ht
      rw [List.filter_cons_of_neg ht, ih h.2]
      exact (collapse_append_cons_of_outranked hR hr hm hn).symm

omit hR

/-! ## The places that are left -/

variable (m n) in
/-- Nothing in the list outranks the element in this place: those before it that it matches are older,
and none behind it is newer. -/
def leadsAt (l : List α) (i : Nat) : Bool :=
  l[i]?.any fun x => l.zipIdx.all fun y => !m x y.1 || (if y.2 < i then n y.1 x else !n x y.1)

variable (n) in
/-- `y` is newer than `x`, or stands before it and is not older. -/
def outranks (x y : α × Nat) : Bool := n x.1 y.1 || (!n y.1 x.1 && decide (y.2 < x.2))

theorem outranks_iff {x y : α × Nat} :
    outranks n x y = true ↔ n x.1 y.1 = true ∨ ¬ n y.1 x.1 = true ∧ y.2 < x.2 := by
  simp [outranks]

include hR in
theorem Ranked.outranks : Ranked (fun x y : α × Nat => m x.1 y.1) (outranks n) where
  symm := hR.symm
  trans := hR.trans
  asymm := by
    intro x y hm hxy hyx
    rw [outranks_iff] at hxy hyx
    rcases hxy with hxy | ⟨hxy, hlt⟩
    · rcases hyx with hyx | ⟨hyx, -⟩
      · exact hR.asymm hm hxy hyx
      · exact hyx hxy
    · rcases hyx with hyx | ⟨-, hlt'⟩
      · exact hxy hyx
      · omega
  not_newer_trans := by
    intro x y z hxy hyz h h'
    rw [outranks_iff] at h h' ⊢
    push Not at h h' ⊢
    have hzx := hR.symm (hR.trans hxy hyz)
    refine ⟨?_, fun hnzx => ?_⟩
    · simpa using hR.not_newer_trans hxy hyz (by simpa using h.1) (by simpa using h'.1)
    · have hnyx : ¬ n y.1 x.1 = true := fun hn =>
        hR.not_newer_trans hyz hzx (by simpa using h'.1) hnzx hn
      have hnzy : ¬ n z.1 y.1 = true := fun hn =>
        hR.not_newer_trans hzx hxy hnzx (by simpa using h.1) hn
      have h1 := h.2 hnyx
      have h2 := h'.2 hnzy
      omega

/-- A part of a list without repetitions is what of the list is in it. -/
theorem eq_filter_of_sublist {s l : List α} {p : α → Bool} (hs : s.Sublist l) (hl : l.Nodup)
    (hp : ∀ x ∈ l, p x = true ↔ x ∈ s) : s = l.filter p := by
  induction hs with
  | slnil => rfl
  | @cons s l a hs ih =>
    obtain ⟨ha, hl⟩ := List.nodup_cons.mp hl
    rw [List.forall_mem_cons] at hp
    rw [List.filter_cons_of_neg fun h => ha (hs.subset (hp.1.mp h))]
    exact ih hl hp.2
  | @cons_cons s l a hs ih =>
    obtain ⟨ha, hl⟩ := List.nodup_cons.mp hl
    rw [List.forall_mem_cons] at hp
    rw [List.filter_cons_of_pos (hp.1.mpr List.mem_cons_self)]
    refine congrArg (a :: ·) (ih hl fun x hx => ?_)
    rw [hp.2 x hx, List.mem_cons]
    exact or_iff_right fun h => ha (h ▸ hx)

theorem leadsAt_iff {l : List α} {x : α × Nat} (hx : x ∈ l.zipIdx) : leadsAt m n l x.2 = true ↔
    ∀ y ∈ l.zipIdx, m x.1 y.1 = true → if y.2 < x.2 then n y.1 x.1 = true else ¬ n x.1 y.1 = true := by
  have hget := List.mem_zipIdx_iff_getElem?.mp hx
  unfold leadsAt
  rw [hget, Option.any_some, List.all_eq_true]
  refine forall₂_congr fun y _ => ?_
  by_cases hm : m x.1 y.1 = true
  · split_ifs with hlt
    · simp [hm]
    · simp [hm]
  · simp [hm]

include hR in
/-- **What a collapsed list keeps.** The elements that are left are those in the places that lead. -/
theorem collapse_eq_leaders (l : List α) :
    collapse m n l = (l.zipIdx.filter fun x => leadsAt m n l x.2).map Prod.fst := by
  have hplaces : l.zipIdx.map Prod.snd = List.range' 0 l.length := List.zipIdx_map_snd 0 l
  have hordered : l.zipIdx.Pairwise fun x y => x.2 < y.2 := by
    rw [← List.pairwise_map (f := Prod.snd) (R := (· < ·)), hplaces]
    exact List.pairwise_lt_range'
  have hnodup : l.zipIdx.Nodup := hordered.imp fun {x y} hlt heq => by
    rw [heq] at hlt
    exact lt_irrefl _ hlt
  have hsame : collapse (fun x y : α × Nat => m x.1 y.1) (fun x y => n x.1 y.1) l.zipIdx =
      collapse (fun x y => m x.1 y.1) (outranks n) l.zipIdx := by
    refine collapse_congr (hordered.imp fun {x y} hlt => ?_)
    simp [outranks, hlt.not_gt]
  have htie : ∀ x ∈ l.zipIdx, ∀ y ∈ l.zipIdx, m x.1 y.1 → x ≠ y →
      outranks n x y ∨ outranks n y x := by
    intro x hx y hy _ hne
    have hlt : x.2 ≠ y.2 := by
      intro heq
      have h := List.mem_zipIdx_iff_getElem?.mp hx
      rw [heq, List.mem_zipIdx_iff_getElem?.mp hy] at h
      exact hne (Prod.ext (Option.some.inj h).symm heq)
    rw [outranks_iff, outranks_iff]
    by_cases h1 : n x.1 y.1 = true
    · exact .inl (.inl h1)
    · by_cases h2 : n y.1 x.1 = true
      · exact .inr (.inl h2)
      · rcases Nat.lt_or_gt_of_ne hlt with h | h
        · exact .inr (.inr ⟨h1, h⟩)
        · exact .inl (.inr ⟨h2, h⟩)
  have hleft : collapse (fun x y => m x.1 y.1) (outranks n) l.zipIdx =
      l.zipIdx.filter fun x => leadsAt m n l x.2 := by
    refine eq_filter_of_sublist (collapse_sublist _) hnodup fun x hx => ?_
    rw [mem_collapse_iff hR.outranks htie, and_iff_right hx, leadsAt_iff hx]
    refine forall₃_congr fun y _ hm => ?_
    rw [outranks_iff, not_or, not_and_or, not_not, Nat.not_lt]
    split_ifs with hlt
    · constructor
      · exact fun h => ⟨fun h' => hR.asymm hm h' h, .inl h⟩
      · rintro ⟨-, h | h⟩
        · exact h
        · omega
    · exact ⟨fun h => ⟨h, .inr (by omega)⟩, And.left⟩
  calc collapse m n l
    _ = collapse m n (l.zipIdx.map Prod.fst) := by rw [List.zipIdx_map_fst]
    _ = _ := by rw [collapse_map, hsame, hleft]

/-! ## Elements with a property -/

include hR

theorem mem_collapse_iff_leads {l : List α} {x : α} :
    x ∈ collapse m n l ↔ ∃ i, leadsAt m n l i = true ∧ l[i]? = some x := by
  rw [collapse_eq_leaders hR, List.mem_map]
  constructor
  · rintro ⟨⟨y, i⟩, hy, rfl⟩
    obtain ⟨hmem, hleads⟩ := List.mem_filter.mp hy
    exact ⟨i, hleads, List.mem_zipIdx_iff_getElem?.mp hmem⟩
  · rintro ⟨i, hleads, hget⟩
    exact ⟨(x, i), List.mem_filter.mpr ⟨List.mem_zipIdx_iff_getElem?.mpr hget, hleads⟩, rfl⟩

/-- Whether something is left that meets `q`. -/
theorem any_collapse_iff {l : List α} {q : α → Bool} :
    (collapse m n l).any q = true ↔ ∃ i, leadsAt m n l i = true ∧ meetsAt l q i = true := by
  rw [List.any_eq_true]
  constructor
  · rintro ⟨x, hx, hq⟩
    obtain ⟨i, hleads, hget⟩ := (mem_collapse_iff_leads hR).mp hx
    exact ⟨i, hleads, meetsAt_iff.mpr ⟨x, hget, hq⟩⟩
  · rintro ⟨i, hleads, hq⟩
    obtain ⟨x, hget, hq⟩ := meetsAt_iff.mp hq
    exact ⟨x, (mem_collapse_iff_leads hR).mpr ⟨i, hleads, hget⟩, hq⟩

/-- Whether something that meets `q` is among the first `max` elements that are left. -/
theorem any_take_collapse_iff {l : List α} {q : α → Bool} {max : Nat} :
    ((collapse m n l).take max).any q = true ↔ ∃ i, leadsAt m n l i = true ∧
      (List.range i).countP (leadsAt m n l) < max ∧ meetsAt l q i = true := by
  rw [collapse_eq_leaders hR, ← List.map_take, List.any_map, List.any_eq_true]
  constructor
  · rintro ⟨x, hx, hq⟩
    obtain ⟨hmem, hleads, hfew⟩ := mem_take_filter_zipIdx.mp hx
    exact ⟨x.2, hleads, hfew, meetsAt_iff.mpr ⟨x.1, List.mem_zipIdx_iff_getElem?.mp hmem, hq⟩⟩
  · rintro ⟨i, hleads, hfew, hq⟩
    obtain ⟨x, hget, hq⟩ := meetsAt_iff.mp hq
    exact ⟨(x, i), mem_take_filter_zipIdx.mpr ⟨List.mem_zipIdx_iff_getElem?.mpr hget, hleads, hfew⟩, hq⟩

end Collapse
