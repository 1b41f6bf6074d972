import Mathlib

/-!
# Sets as sorted lists

A list that is sorted by a comparison, searched by bisection. `position` finds the first element
that is not less than the one looked for, or the last element if all are less; `find` and `add` are
membership and insertion.
-/

namespace Bisect

variable {α : Type*} (cmp : α → α → Ordering)

/-- Strictly ascending. -/
abbrev Ascending (keys : List α) : Prop := keys.Pairwise fun x y => cmp x y = .lt

/-- Halve the range from `lo` to `top`. -/
def search (keys : List α) (x : α) : Nat → Nat → Nat → Nat
  | 0, _, top => top
  | fuel + 1, lo, top =>
    if lo < top then
      let cur := (lo + top - 1) / 2
      if keys[cur]?.map (cmp x) = some .gt then
        search keys x fuel (cur + 1) top
      else
        search keys x fuel lo cur
    else
      top

/-- The position of the first element that is not less than `x`, or the last one. -/
def position (keys : List α) (x : α) : Nat := search cmp keys x keys.length 0 (keys.length - 1)

/-- Whether `x` is in the list. -/
def find (keys : List α) (x : α) : Bool :=
  keys[position cmp keys x]?.map (cmp x) = some .eq

/-- Insert `x` unless it is there. -/
def add (keys : List α) (x : α) : List α :=
  let pos := position cmp keys x
  if find cmp keys x then keys
  else
    let pos := if keys[pos]?.map (cmp x) = some .gt then pos + 1 else pos
    keys.take pos ++ x :: keys.drop pos

/-- What the search maintains: everything in front of `lo` is less than `x`, and `top` is the last
position or holds something that is not less. -/
structure Between (keys : List α) (x : α) (lo top : Nat) : Prop where
  le : lo ≤ top
  lt : top < keys.length
  less : ∀ i (h : i < keys.length), i < lo → cmp x keys[i] = .gt
  last : top = keys.length - 1 ∨ cmp x keys[top] ≠ .gt

variable {cmp}

section

variable [Std.TransCmp cmp] {keys : List α} {x : α}

theorem gt_of_ascending (hs : Ascending cmp keys) {i j : Nat} (hij : i ≤ j)
    (hj : j < keys.length) (h : cmp x keys[j] = .gt) : cmp x keys[i] = .gt := by
  rcases Nat.lt_or_eq_of_le hij with hlt | rfl
  · have hlt' := List.pairwise_iff_getElem.mp hs i j (by omega) hj hlt
    rw [Std.OrientedCmp.gt_iff_lt] at h ⊢
    exact Std.TransCmp.lt_trans hlt' h
  · exact h

theorem search_between (hs : Ascending cmp keys) {fuel lo top : Nat}
    (h : Between cmp keys x lo top) (hfuel : top - lo ≤ fuel) :
    Between cmp keys x (search cmp keys x fuel lo top)
      (search cmp keys x fuel lo top) := by
  induction fuel generalizing lo top with
  | zero =>
    have hle := h.le
    obtain rfl : lo = top := by omega
    exact h
  | succ fuel ih =>
    have hle := h.le
    have hlen := h.lt
    rw [search]
    by_cases hlt : lo < top
    · obtain ⟨cur, hcur⟩ : ∃ cur, (lo + top - 1) / 2 = cur := ⟨_, rfl⟩
      have hcl : cur < keys.length := by omega
      simp only [hlt, if_true, hcur, List.getElem?_eq_getElem hcl, Option.map_some,
        Option.some.injEq]
      split_ifs with hgt
      · refine ih ⟨by omega, h.lt, fun i hi hic => ?_, h.last⟩ (by omega)
        exact gt_of_ascending hs (by omega) hcl hgt
      · exact ih ⟨by omega, hcl, h.less, Or.inr hgt⟩ (by omega)
    · obtain rfl : lo = top := by omega
      simp only [Nat.lt_irrefl, if_false]
      exact h

theorem position_between (hs : Ascending cmp keys) (hne : keys ≠ []) :
    Between cmp keys x (position cmp keys x) (position cmp keys x) := by
  have hlen := List.length_pos_iff.mpr hne
  refine search_between hs ⟨Nat.zero_le _, by omega, fun i _ hi => ?_, Or.inl rfl⟩ (by omega)
  omega

variable [Std.LawfulEqCmp cmp]

theorem find_iff (hs : Ascending cmp keys) : find cmp keys x = true ↔ x ∈ keys := by
  by_cases hne : keys = []
  · simp [hne, find]
  · have h := position_between (x := x) hs hne
    have hlen := h.lt
    unfold find
    rw [decide_eq_true_iff, List.getElem?_eq_getElem hlen, Option.map_some, Option.some.injEq]
    constructor
    · intro heq
      rw [Std.LawfulEqCmp.eq_of_compare heq]
      exact List.getElem_mem hlen
    · intro hmem
      obtain ⟨i, hi, rfl⟩ := List.getElem_of_mem hmem
      -- the element stands neither in front of the position nor behind it
      rcases Nat.lt_trichotomy i (position cmp keys keys[i]) with hlt | heq | hgt
      · have hself : cmp keys[i] keys[i] = .eq := Std.ReflCmp.compare_self
        rw [h.less i hi hlt] at hself
        cases hself
      · simp only [← heq]
        exact Std.ReflCmp.compare_self
      · have hlt := List.pairwise_iff_getElem.mp hs _ i hlen hi hgt
        have hgt' : cmp keys[i] keys[position cmp keys keys[i]] = .gt :=
          Std.OrientedCmp.gt_iff_lt.mpr hlt
        rcases h.last with hl | hl
        · omega
        · exact absurd hgt' hl

/-- Where a new element goes: behind everything that is less and in front of everything else. -/
theorem add_split (hs : Ascending cmp keys) (hx : x ∉ keys) :
    ∃ before after, keys = before ++ after ∧ add cmp keys x = before ++ x :: after ∧
      (∀ y ∈ before, cmp y x = .lt) ∧ ∀ y ∈ after, cmp x y = .lt := by
  have hfind : find cmp keys x = false := by
    rw [← Bool.not_eq_true, find_iff hs]
    exact hx
  by_cases hne : keys = []
  · refine ⟨[], [], by simp [hne], by simp [add, hne, find], by simp, by simp⟩
  · have h := position_between (x := x) hs hne
    have hlen := h.lt
    obtain ⟨pos, hpos⟩ : ∃ pos, pos = (if cmp x keys[position cmp keys x] = .gt then
      position cmp keys x + 1 else position cmp keys x) := ⟨_, rfl⟩
    refine ⟨keys.take pos, keys.drop pos, (List.take_append_drop pos keys).symm, ?_, ?_, ?_⟩
    · unfold add
      simp only [hfind, Bool.false_eq_true, if_false, List.getElem?_eq_getElem hlen,
        Option.map_some, Option.some.injEq, hpos]
    · intro y hy
      obtain ⟨i, hi, rfl⟩ := List.getElem_of_mem hy
      rw [List.length_take] at hi
      rw [List.getElem_take, ← Std.OrientedCmp.gt_iff_lt]
      split_ifs at hpos with hgt
      · exact gt_of_ascending hs (by omega) hlen hgt
      · exact h.less i (by omega) (by omega)
    · intro y hy
      obtain ⟨i, hi, rfl⟩ := List.getElem_of_mem hy
      rw [List.length_drop] at hi
      rw [List.getElem_drop]
      have hmem : keys[pos + i] ∈ keys := List.getElem_mem (by omega)
      have hle : cmp x keys[pos + i] ≠ .gt := by
        intro hgt
        have hall := gt_of_ascending hs (show pos ≤ pos + i by omega) (by omega) hgt
        split_ifs at hpos with hgt'
        · rcases h.last with hl | hl
          · omega
          · exact hl hgt'
        · exact hgt' (by simpa only [← hpos] using hall)
      cases hc : cmp x keys[pos + i] with
      | lt => rfl
      | eq => exact absurd (Std.LawfulEqCmp.eq_of_compare hc ▸ hmem) hx
      | gt => exact absurd hc hle

theorem mem_add (hs : Ascending cmp keys) {y : α} : y ∈ add cmp keys x ↔ y ∈ keys ∨ y = x := by
  by_cases hx : x ∈ keys
  · have hadd : add cmp keys x = keys := by
      simp [add, (find_iff hs).mpr hx]
    rw [hadd]
    constructor
    · exact Or.inl
    · rintro (h | rfl)
      · exact h
      · exact hx
  · obtain ⟨before, after, hsplit, hadd, _⟩ := add_split hs hx
    rw [hadd, hsplit]
    simp only [List.mem_append, List.mem_cons]
    tauto

omit [Std.TransCmp cmp] in
theorem mem_add_self : x ∈ add cmp keys x := by
  unfold add find
  split_ifs with hfound
  · rw [decide_eq_true_iff, Option.map_eq_some_iff] at hfound
    obtain ⟨key, hkey, heq⟩ := hfound
    rw [Std.LawfulEqCmp.eq_of_compare heq]
    exact List.mem_of_getElem? hkey
  · exact List.mem_append_right _ List.mem_cons_self

omit [Std.TransCmp cmp] [Std.LawfulEqCmp cmp] in
theorem subset_add : keys ⊆ add cmp keys x := by
  have hinsert (pos : Nat) : keys ⊆ keys.take pos ++ x :: keys.drop pos := by
    intro y hy
    rw [← List.take_append_drop pos keys] at hy
    rcases List.mem_append.mp hy with hy | hy
    · exact List.mem_append_left _ hy
    · exact List.mem_append_right _ (List.mem_cons_of_mem _ hy)
  unfold add
  simp only []
  split_ifs
  · exact List.Subset.refl _
  · exact hinsert _
  · exact hinsert _

theorem add_ascending (hs : Ascending cmp keys) : Ascending cmp (add cmp keys x) := by
  by_cases hx : x ∈ keys
  · have hadd : add cmp keys x = keys := by
      simp [add, (find_iff hs).mpr hx]
    rw [hadd]
    exact hs
  · obtain ⟨before, after, hsplit, hadd, hbefore, hafter⟩ := add_split hs hx
    rw [hsplit] at hs
    obtain ⟨hb, ha, hba⟩ := List.pairwise_append.mp hs
    rw [hadd]
    refine List.pairwise_append.mpr ⟨hb, List.pairwise_cons.mpr ⟨hafter, ha⟩, ?_⟩
    intro y hy z hz
    rcases List.mem_cons.mp hz with rfl | hz
    · exact hbefore y hy
    · exact hba y hy z hz

omit [Std.TransCmp cmp] in
theorem ascending_nodup (hs : Ascending cmp keys) : keys.Nodup := by
  refine hs.imp fun {y z} hlt heq => ?_
  subst heq
  have hself : cmp y y = .eq := Std.ReflCmp.compare_self
  rw [hlt] at hself
  cases hself

theorem length_le_add (hs : Ascending cmp keys) : keys.length ≤ (add cmp keys x).length :=
  ((ascending_nodup hs).subperm fun _ hy => (mem_add hs).mpr (.inl hy)).length_le

/-- A set is held by one sorted list. -/
theorem eq_of_mem_iff {keys' : List α} (hs : Ascending cmp keys) (hs' : Ascending cmp keys')
    (h : ∀ y, y ∈ keys ↔ y ∈ keys') : keys = keys' := by
  have hperm := (List.perm_ext_iff_of_nodup (ascending_nodup hs) (ascending_nodup hs')).mpr h
  refine hperm.eq_of_pairwise (fun y z _ _ hyz hzy => ?_) hs hs'
  have hlt : cmp y y = .lt := Std.TransCmp.lt_trans hyz hzy
  have hself : cmp y y = .eq := Std.ReflCmp.compare_self
  rw [hlt] at hself
  cases hself

end

end Bisect
