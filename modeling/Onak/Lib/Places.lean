import Mathlib

/-!
# Places in a list

Predicates on the elements of a list as predicates on their places, the first place that meets a
predicate, how many places meet one, and the places in a list without repetitions.
-/

namespace Places

variable {α : Type*} {l : List α} {k : Nat}

/-- The element in this place meets `p`. -/
def meetsAt (l : List α) (p : α → Bool) (i : Nat) : Bool := l[i]?.any p

theorem meetsAt_of_get {x : α} (h : l[k]? = some x) (p : α → Bool) : meetsAt l p k = p x := by
  simp [meetsAt, h]

theorem meetsAt_mono {p q : α → Bool} (h : ∀ x, p x = true → q x = true)
    (hp : meetsAt l p k = true) : meetsAt l q k = true := by
  unfold meetsAt at hp ⊢
  cases hk : l[k]? with
  | none => simp [hk] at hp
  | some x =>
    rw [hk] at hp
    exact h x hp

theorem meetsAt_iff {l : List α} {p : α → Bool} {i : Nat} :
    meetsAt l p i = true ↔ ∃ x, l[i]? = some x ∧ p x = true := by
  unfold meetsAt
  cases l[i]? with
  | none => simp
  | some x => simp

/-! ## The first place -/

/-- A place that is not behind the first one that meets `f` is this one exactly if it meets `f`. -/
theorem find?_range_eq_iff {f : Nat → Bool} {n : Nat} (hk : k < n)
    (h : ∀ j < k, (List.range n).find? f ≠ some j) :
    (List.range n).find? f = some k ↔ f k = true := by
  constructor
  · exact fun hf => List.find?_some hf
  · intro hf
    obtain ⟨j, hj⟩ : ∃ j, (List.range n).find? f = some j := by
      rw [← Option.isSome_iff_exists, List.find?_isSome]
      exact ⟨k, List.mem_range.mpr hk, hf⟩
    have hle : j ≤ k := by
      by_contra hlt
      have := (List.find?_range_eq_some.mp hj).2.2 k (by omega)
      simp [hf] at this
    rcases Nat.lt_or_eq_of_le hle with hlt | rfl
    · exact absurd hj (h j hlt)
    · exact hj

theorem exists_lt_succ {o : Option Nat} :
    (∃ j < k + 1, o = some j) ↔ (∃ j < k, o = some j) ∨ o = some k := by
  constructor
  · rintro ⟨j, hj, ho⟩
    rcases Nat.lt_succ_iff_lt_or_eq.mp hj with hj | rfl
    · exact Or.inl ⟨j, hj, ho⟩
    · exact Or.inr ho
  · rintro (⟨j, hj, ho⟩ | ho)
    · exact ⟨j, by omega, ho⟩
    · exact ⟨k, by omega, ho⟩

/-! ## Counting places -/

theorem countP_range_succ (p : Nat → Bool) (k : Nat) :
    (List.range (k + 1)).countP p = (List.range k).countP p + if p k then 1 else 0 := by
  rw [List.range_succ, List.countP_append, List.countP_singleton]

theorem countP_zipIdx (f : Nat → Bool) :
    (l.zipIdx.countP fun x => f x.2) = (List.range l.length).countP f := by
  rw [List.range_eq_range', ← List.zipIdx_map_snd 0 l, List.countP_map]
  rfl

theorem countP_meetsAt (l : List α) (p : α → Bool) :
    (List.range l.length).countP (meetsAt l p) = l.countP p := by
  induction l using List.reverseRecOn with
  | nil => rfl
  | append_singleton l x ih =>
    have hcongr : (List.range l.length).countP (meetsAt (l ++ [x]) p) =
        (List.range l.length).countP (meetsAt l p) := by
      refine List.countP_congr fun i hi => ?_
      rw [meetsAt, meetsAt, List.getElem?_append_left (List.mem_range.mp hi)]
    rw [List.length_append, List.length_singleton, countP_range_succ, hcongr, ih,
      List.countP_append, List.countP_singleton, meetsAt_of_get List.getElem?_concat_length]

/-- The first `d` places that meet `p`, if there are so many. -/
theorem countP_first (p : Nat → Bool) (d n : Nat) :
    ((List.range n).countP fun i => p i && (List.range i).countP p < d) =
      min d ((List.range n).countP p) := by
  induction n with
  | zero => simp
  | succ n ih =>
    rw [countP_range_succ, countP_range_succ, ih]
    cases hp : p n with
    | false => simp
    | true =>
      simp only [Bool.true_and, decide_eq_true_eq, if_true]
      split_ifs <;> omega

/-- What is among the first elements of those in the places that meet `p`. -/
theorem mem_take_filter_zipIdx {l : List α} {p : Nat → Bool} {max : Nat} {x : α × Nat} :
    x ∈ (l.zipIdx.filter fun x => p x.2).take max ↔
      x ∈ l.zipIdx ∧ p x.2 = true ∧ (List.range x.2).countP p < max := by
  induction l using List.reverseRecOn with
  | nil => simp
  | append_singleton l a ih =>
    have hlength : (l.zipIdx.filter fun x => p x.2).length = (List.range l.length).countP p := by
      rw [← List.countP_eq_length_filter, countP_zipIdx]
    rw [List.zipIdx_append, List.filter_append, List.take_append, List.mem_append, ih, hlength,
      List.mem_append, Nat.zero_add, List.zipIdx_singleton]
    have hlast : x ∈ ([(a, l.length)].filter fun x => p x.2).take (max - (List.range l.length).countP p) ↔
        x = (a, l.length) ∧ p l.length = true ∧ (List.range l.length).countP p < max := by
      by_cases hp : p l.length = true
      · have hkept : ([(a, l.length)].filter fun x => p x.2) = [(a, l.length)] := by simp [hp]
        rw [hkept]
        rcases Nat.lt_or_ge ((List.range l.length).countP p) max with hlt | hge
        · rw [List.take_of_length_le (by simp; omega), List.mem_singleton]
          simp [hp, hlt]
        · rw [Nat.sub_eq_zero_of_le hge]
          simp [hge.not_gt]
      · simp [hp]
    rw [hlast, List.mem_singleton, or_and_right]
    refine or_congr_right (and_congr_right ?_)
    rintro rfl
    exact Iff.rfl

/-- The elements that meet `p`, less the first `d` of them. -/
theorem map_filter_places {l : List α} {p : α → Bool} {P : Nat → Bool} (d : Nat)
    (hP : ∀ x ∈ l.zipIdx, P x.2 = p x.1) :
    (l.zipIdx.filter fun x => p x.1 && decide (d ≤ (List.range x.2).countP P)).map Prod.fst =
      (l.filter p).drop d := by
  induction l using List.reverseRecOn with
  | nil => simp
  | append_singleton l a ih =>
    rw [List.zipIdx_append, List.zipIdx_singleton, Nat.zero_add] at hP ⊢
    have hfront : ∀ x ∈ l.zipIdx, P x.2 = p x.1 := fun x hx => hP x (List.mem_append_left _ hx)
    have hlength : (l.filter p).length = (List.range l.length).countP P := by
      calc (l.filter p).length
        _ = (l.zipIdx.map Prod.fst).countP p := by
          rw [List.zipIdx_map_fst, List.countP_eq_length_filter]
        _ = l.zipIdx.countP fun x => P x.2 := by
          rw [List.countP_map]
          exact List.countP_congr fun x hx => by rw [hfront x hx]; rfl
        _ = (List.range l.length).countP P := countP_zipIdx P
    rw [List.filter_append, List.map_append, ih hfront, List.filter_append, List.drop_append, hlength]
    congr 1
    by_cases ha : p a = true
    · rcases Nat.lt_or_ge ((List.range l.length).countP P) d with hlt | hge
      · rw [List.drop_of_length_le (by simp [ha]; omega)]
        simp [hlt]
      · rw [Nat.sub_eq_zero_of_le hge]
        simp [ha, hge]
    · simp [ha]

theorem countP_or_le (is : List Nat) (p q : Nat → Bool) :
    (is.countP fun i => p i || q i) ≤ is.countP p + is.countP q := by
  induction is with
  | nil => simp
  | cons i is ih =>
    simp only [List.countP_cons]
    cases p i <;> cases q i <;> simp <;> omega

theorem countP_or_of_disjoint {p q : α → Bool} (l : List α)
    (h : ∀ x, p x = true → q x = false) :
    (l.countP fun x => p x || q x) = l.countP p + l.countP q := by
  induction l with
  | nil => rfl
  | cons x l ih =>
    simp only [List.countP_cons, ih]
    cases hp : p x with
    | false => cases q x <;> simp [Nat.add_assoc]
    | true =>
      simp only [h x hp, Bool.or_false, if_true, Bool.false_eq_true, if_false]
      omega

/-- Only one place is a given one. -/
theorem countP_eq_place_le (o : Option Nat) (n : Nat) :
    ((List.range n).countP fun i => some i = o) ≤ 1 := by
  cases o with
  | none => simp
  | some j =>
    have hcount := List.nodup_iff_count_le_one.mp (List.nodup_range (n := n)) j
    rw [List.count] at hcount
    refine le_trans (List.countP_mono_left fun i _ hi => ?_) hcount
    simpa using hi

/-! ## Lists without repetitions -/

/-- The places of the elements are in order. -/
theorem pairwise_idxOf [DecidableEq α] (hnodup : l.Nodup) :
    l.Pairwise fun x y => l.idxOf x < l.idxOf y := by
  rw [List.pairwise_iff_getElem]
  intro i j hi hj hij
  rw [hnodup.idxOf_getElem, hnodup.idxOf_getElem]
  exact hij

/-- The last element stays the last one as long as it stays at all. -/
theorem getLast?_sublist {l' : List α} (hsub : l'.Sublist l) (hnodup : l.Nodup) {x : α}
    (hlast : l.getLast? = some x) (hx : x ∈ l') : l'.getLast? = some x := by
  obtain ⟨front, rfl⟩ := List.getLast?_eq_some_iff.mp hlast
  obtain ⟨l₁, l₂, rfl, hl₁, hl₂⟩ := List.sublist_append_iff.mp hsub
  have hfront : x ∉ l₁ := by
    intro hmem
    have hne := (List.nodup_append.mp hnodup).2.2 x (hl₁.subset hmem) x (by simp)
    exact hne rfl
  have hback : x ∈ l₂ := (List.mem_append.mp hx).resolve_left hfront
  obtain rfl : l₂ = [x] := by
    rcases List.sublist_singleton.mp hl₂ with rfl | rfl
    · exact absurd hback (by simp)
    · rfl
  simp

end Places
