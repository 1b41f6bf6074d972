import Mathlib

/-!
# Keeping one representative per class

A list is collapsed in place by two nested loops. The outer loop takes the elements from the front;
the inner loop compares the outer element `o` with each later element `i`. Elements that do not
match are left alone. When `i` matches `o`, either `i` is newer and `o` is dropped (which ends the
inner loop), or `i` is dropped.

With matching `m` a partial equivalence and `n` (newer) a strict weak order on each class (`Ranked`), the
result has no two matching elements, and every dropped element has a representative that is not
older.
-/

namespace Collapse

variable {α : Type*} (m n : α → α → Bool)

/-- The inner loop for the outer element `o`: whether `o` is to be dropped, what is left of the rest
of the list, and how many elements were dropped from it. -/
def scan (o : α) : List α → Bool × List α × Nat
  | [] => (false, [], 0)
  | i :: rest =>
    if m o i then
      if n o i then
        (true, i :: rest, 0)
      else
        let r := scan o rest
        (r.1, r.2.1, r.2.2 + 1)
    else
      let r := scan o rest
      (r.1, i :: r.2.1, r.2.2)

/-- The outer loop: what is left of the list and how many elements were dropped. -/
def loop : Nat → List α → List α × Nat
  | 0, _ => ([], 0)
  | _ + 1, [] => ([], 0)
  | fuel + 1, o :: rest =>
    let r := scan m n o rest
    let r' := loop fuel r.2.1
    if r.1 then (r'.1, r'.2 + r.2.2 + 1) else (o :: r'.1, r'.2 + r.2.2)

/-- The collapsed list. -/
def collapse (l : List α) : List α := (loop m n l.length l).1

/-- The number of elements that collapsing drops. -/
def dropped (l : List α) : Nat := (loop m n l.length l).2

/-- Matching `m` is a partial equivalence, and on each class `n` is a strict weak order: `n x y`
says that `y` is newer than `x`. -/
structure Ranked : Prop where
  symm : ∀ {x y}, m x y → m y x
  trans : ∀ {x y z}, m x y → m y z → m x z
  asymm : ∀ {x y}, m x y → n x y → ¬ n y x
  not_newer_trans : ∀ {x y z}, m x y → m y z → ¬ n x y → ¬ n y z → ¬ n x z

/-- `x` is not older than any element of `l` that it matches. -/
def Best (l : List α) (x : α) : Prop := ∀ y ∈ l, m x y → ¬ n x y

/-- No two elements of `l` match. -/
def Unmatched (l : List α) : Prop := l.Pairwise fun x y => ¬ m x y

instance (l : List α) : Decidable (Unmatched m l) :=
  inferInstanceAs (Decidable (l.Pairwise _))

variable {m n}

/-! ## The inner loop -/

theorem scan_sublist (o : α) (l : List α) : (scan m n o l).2.1.Sublist l := by
  induction l with
  | nil => simp [scan]
  | cons i rest ih =>
    simp only [scan]
    split_ifs with hs hn
    · exact List.Sublist.refl _
    · exact ih.cons i
    · exact ih.cons_cons i

theorem mem_scan (o : α) {l : List α} {x : α} (hx : x ∈ l) :
    x ∈ (scan m n o l).2.1 ∨ (m o x ∧ ¬ n o x) := by
  induction l with
  | nil => exact absurd hx (by simp)
  | cons i rest ih =>
    simp only [scan]
    split_ifs with hs hn
    · exact Or.inl hx
    · rcases List.mem_cons.mp hx with rfl | hx
      · exact Or.inr ⟨hs, hn⟩
      · exact ih hx
    · rcases List.mem_cons.mp hx with rfl | hx
      · exact Or.inl (by simp)
      · exact (ih hx).imp_left (List.mem_cons_of_mem i)

theorem scan_true {o : α} {l : List α} (h : (scan m n o l).1 = true) :
    ∃ i ∈ (scan m n o l).2.1, m o i ∧ n o i := by
  induction l with
  | nil => exact absurd h (by simp [scan])
  | cons i rest ih =>
    simp only [scan] at h ⊢
    split_ifs at h ⊢ with hs hn
    · exact ⟨i, by simp, hs, hn⟩
    · exact ih h
    · obtain ⟨j, hj, hjo⟩ := ih h
      exact ⟨j, List.mem_cons_of_mem i hj, hjo⟩

theorem scan_false {o : α} {l : List α} (h : (scan m n o l).1 = false) :
    ∀ x ∈ (scan m n o l).2.1, ¬ m o x := by
  induction l with
  | nil => simp [scan]
  | cons i rest ih =>
    simp only [scan] at h ⊢
    split_ifs at h ⊢ with hs hn
    · exact ih h
    · intro x hx
      rcases List.mem_cons.mp hx with rfl | hx
      · exact hs
      · exact ih h x hx

/-- An outer element that no later element outranks stays, and takes its whole class away. -/
theorem scan_of_best {o : α} {l : List α} (h : Best m n l o) :
    (scan m n o l).1 = false ∧
      (scan m n o l).2.1 = l.filter fun x => !m o x := by
  induction l with
  | nil => simp [scan]
  | cons i rest ih =>
    obtain ⟨ih1, ih2⟩ := ih fun y hy => h y (List.mem_cons_of_mem i hy)
    simp only [scan]
    by_cases hs : m o i
    · have hn : ¬ n o i := h i (by simp) hs
      simp [hs, hn, ih1, ih2]
    · simp [hs, ih1, ih2]

/-! ## The outer loop -/

theorem loop_fuel {l : List α} {j k : Nat} (hj : l.length ≤ j) (hk : l.length ≤ k) :
    loop m n j l = loop m n k l := by
  induction j generalizing k l with
  | zero =>
    obtain rfl : l = [] := List.length_eq_zero_iff.mp (by omega)
    cases k <;> rfl
  | succ j ih =>
    cases l with
    | nil => cases k <;> rfl
    | cons o rest =>
      cases k with
      | zero => simp at hk
      | succ k =>
        have hlen := (scan_sublist (m := m) (n := n) o rest).length_le
        simp only [List.length_cons] at hj hk
        simp only [loop]
        rw [ih (by omega) (by omega : (scan m n o rest).2.1.length ≤ k)]

@[simp]
theorem collapse_nil : collapse m n [] = [] := rfl

theorem collapse_cons (o : α) (l : List α) :
    collapse m n (o :: l) =
      if (scan m n o l).1 then collapse m n (scan m n o l).2.1
      else o :: collapse m n (scan m n o l).2.1 := by
  have hlen := (scan_sublist (m := m) (n := n) o l).length_le
  have hf := loop_fuel (m := m) (n := n) hlen le_rfl
  simp only [collapse, List.length_cons, loop, hf]
  split_ifs <;> rfl

theorem length_scan (o : α) (l : List α) :
    (scan m n o l).2.1.length + (scan m n o l).2.2 = l.length := by
  induction l with
  | nil => rfl
  | cons i rest ih =>
    simp only [scan]
    split_ifs
    · rfl
    · rw [← Nat.add_assoc, ih, List.length_cons]
    · rw [List.length_cons, List.length_cons, Nat.add_right_comm, ih]

theorem dropped_cons (o : α) (l : List α) :
    dropped m n (o :: l) = dropped m n (scan m n o l).2.1 + (scan m n o l).2.2 +
      if (scan m n o l).1 then 1 else 0 := by
  have hlen := (scan_sublist (m := m) (n := n) o l).length_le
  have hf := loop_fuel (m := m) (n := n) hlen le_rfl
  simp only [dropped, List.length_cons, loop, hf]
  split_ifs <;> rfl

/-- Induction along the outer loop. -/
theorem outer_induction {P : List α → Prop} (nil : P [])
    (cons : ∀ o l, P (scan m n o l).2.1 → P (o :: l)) (l : List α) : P l := by
  induction hk : l.length using Nat.strong_induction_on generalizing l with
  | _ k ih =>
    cases l with
    | nil => exact nil
    | cons o rest =>
      have hlen := (scan_sublist (m := m) (n := n) o rest).length_le
      exact cons o rest (ih _ (by simp only [List.length_cons] at hk; omega) _ rfl)

theorem collapse_sublist (l : List α) : (collapse m n l).Sublist l := by
  induction l using outer_induction (m := m) (n := n) with
  | nil => simp
  | cons o l ih =>
    have hsub := ih.trans (scan_sublist o l)
    rw [collapse_cons]
    split_ifs
    · exact hsub.cons o
    · exact hsub.cons_cons o

/-- The elements that are gone are the ones that were counted. -/
theorem length_collapse_add_dropped (l : List α) :
    (collapse m n l).length + dropped m n l = l.length := by
  induction l using outer_induction (m := m) (n := n) with
  | nil => rfl
  | cons o l ih =>
    have hscan := length_scan (m := m) (n := n) o l
    rw [collapse_cons, dropped_cons, List.length_cons]
    split_ifs
    · omega
    · rw [List.length_cons]
      omega

theorem mem_of_mem_collapse {l : List α} {x : α} (hx : x ∈ collapse m n l) : x ∈ l :=
  (collapse_sublist l).subset hx

theorem scan_map {β : Type*} (m n : β → β → Bool) (f : α → β) (o : α) (l : List α) :
    scan m n (f o) (l.map f) =
      ((scan (fun a b => m (f a) (f b)) (fun a b => n (f a) (f b)) o l).1,
        (scan (fun a b => m (f a) (f b)) (fun a b => n (f a) (f b)) o l).2.1.map f,
        (scan (fun a b => m (f a) (f b)) (fun a b => n (f a) (f b)) o l).2.2) := by
  induction l with
  | nil => rfl
  | cons i rest ih =>
    simp only [List.map_cons, scan, ih]
    split_ifs <;> rfl

/-- Elements that are compared by their images are collapsed as the images are. -/
theorem collapse_map {β : Type*} (m n : β → β → Bool) (f : α → β) (l : List α) :
    collapse m n (l.map f) =
      (collapse (fun a b => m (f a) (f b)) (fun a b => n (f a) (f b)) l).map f := by
  induction l using outer_induction (m := fun a b => m (f a) (f b)) (n := fun a b => n (f a) (f b)) with
  | nil => rfl
  | cons o l ih =>
    rw [List.map_cons, collapse_cons, collapse_cons, scan_map, ih]
    split_ifs <;> rfl

/-- No two elements that are left match. -/
theorem unmatched_collapse (l : List α) : Unmatched m (collapse m n l) := by
  induction l using outer_induction (m := m) (n := n) with
  | nil => exact List.Pairwise.nil
  | cons o l ih =>
    rw [collapse_cons]
    split_ifs with hd
    · exact ih
    · refine List.Pairwise.cons (fun x hx => ?_) ih
      exact scan_false (by simpa using hd) x (mem_of_mem_collapse hx)

/-! ## Elements apart -/

section

variable {p : α → Bool} (hp : ∀ x y, m x y → p x = p y)
include hp

theorem scan_filter {o : α} (ho : p o = true) (l : List α) :
    (scan m n o (l.filter p)).1 = (scan m n o l).1 ∧
      (scan m n o (l.filter p)).2.1 = (scan m n o l).2.1.filter p := by
  induction l with
  | nil => exact ⟨rfl, rfl⟩
  | cons i rest ih =>
    by_cases hm : m o i = true
    · have hi : p i = true := (hp o i hm).symm.trans ho
      rw [List.filter_cons, if_pos hi]
      by_cases hn : n o i = true
      · simp [scan, hm, hn, hi]
      · simpa [scan, hm, hn] using ih
    · by_cases hi : p i = true
      · simpa [List.filter_cons, scan, hm, hi] using ih
      · simpa [List.filter_cons, scan, hm, hi] using ih

theorem scan_filter_other {o : α} (ho : ¬ p o = true) (l : List α) :
    (scan m n o l).2.1.filter p = l.filter p := by
  induction l with
  | nil => rfl
  | cons i rest ih =>
    by_cases hm : m o i = true
    · have hi : ¬ p i = true := by rwa [← hp o i hm]
      by_cases hn : n o i = true
      · simp [scan, hm, hn]
      · simpa [scan, hm, hn, List.filter_cons, hi] using ih
    · simp [scan, hm, List.filter_cons, ih]

/-- Elements that match none of the others can be left out before or after. -/
theorem collapse_filter (l : List α) : (collapse m n l).filter p = collapse m n (l.filter p) := by
  induction l using outer_induction (m := m) (n := n) with
  | nil => rfl
  | cons o l ih =>
    rw [collapse_cons, List.filter_cons]
    by_cases ho : p o = true
    · obtain ⟨hdrop, hrest⟩ := scan_filter (n := n) hp ho l
      rw [if_pos ho, collapse_cons, hdrop, hrest, ← ih]
      split_ifs
      · rfl
      · rw [List.filter_cons, if_pos ho]
    · rw [if_neg ho, ← scan_filter_other (n := n) hp ho l, ← ih]
      split_ifs
      · rfl
      · rw [List.filter_cons, if_neg ho]

end

/-! ## The elements that are dropped -/

variable (m n) in
/-- The elements that the inner loop drops, in this order. -/
def scanned (o : α) : List α → List α
  | [] => []
  | i :: rest =>
    if m o i then
      if n o i then [] else i :: scanned o rest
    else
      scanned o rest

variable (m n) in
/-- The elements that the outer loop drops, in this order. -/
def victimsLoop : Nat → List α → List α
  | 0, _ => []
  | _ + 1, [] => []
  | fuel + 1, o :: rest =>
    let r := scan m n o rest
    scanned m n o rest ++ ((if r.1 then [o] else []) ++ victimsLoop fuel r.2.1)

variable (m n) in
/-- The elements that collapsing drops, in this order. -/
def victims (l : List α) : List α := victimsLoop m n l.length l

theorem scanned_append_scan_perm (o : α) (l : List α) :
    (scanned m n o l ++ (scan m n o l).2.1).Perm l := by
  induction l with
  | nil => exact List.Perm.refl _
  | cons i rest ih =>
    simp only [scanned, scan]
    split_ifs
    · exact List.Perm.refl _
    · exact ih.cons i
    · exact List.perm_middle.trans (ih.cons i)

theorem victimsLoop_fuel {l : List α} {j k : Nat} (hj : l.length ≤ j) (hk : l.length ≤ k) :
    victimsLoop m n j l = victimsLoop m n k l := by
  induction j generalizing k l with
  | zero =>
    obtain rfl : l = [] := List.length_eq_zero_iff.mp (by omega)
    cases k <;> rfl
  | succ j ih =>
    cases l with
    | nil => cases k <;> rfl
    | cons o rest =>
      cases k with
      | zero => simp at hk
      | succ k =>
        have hlen := (scan_sublist (m := m) (n := n) o rest).length_le
        simp only [List.length_cons] at hj hk
        simp only [victimsLoop]
        rw [ih (by omega) (by omega : (scan m n o rest).2.1.length ≤ k)]

theorem victims_cons (o : α) (l : List α) :
    victims m n (o :: l) = scanned m n o l ++ ((if (scan m n o l).1 then [o] else []) ++
      victims m n (scan m n o l).2.1) := by
  have hlen := (scan_sublist (m := m) (n := n) o l).length_le
  have hf := victimsLoop_fuel (m := m) (n := n) hlen le_rfl
  simp only [victims, List.length_cons, victimsLoop, hf]

/-- Every element is dropped or left, and only once. -/
theorem victims_append_collapse_perm (l : List α) :
    (victims m n l ++ collapse m n l).Perm l := by
  induction l using outer_induction (m := m) (n := n) with
  | nil => exact List.Perm.refl _
  | cons o l ih =>
    have hscan := scanned_append_scan_perm (m := m) (n := n) o l
    rw [victims_cons, collapse_cons]
    split_ifs
    · rw [List.append_assoc, List.singleton_append]
      exact ((ih.cons o).append_left _).trans (List.perm_middle.trans (hscan.cons o))
    · rw [List.append_assoc, List.nil_append]
      exact ((List.perm_middle.trans (ih.cons o)).append_left _).trans
        (List.perm_middle.trans (hscan.cons o))

variable (hR : Ranked m n)
include hR

/-- Every element is kept or has a representative that is not older. -/
theorem collapse_covers {l : List α} {x : α} (hx : x ∈ l) :
    x ∈ collapse m n l ∨ ∃ r ∈ collapse m n l, m x r ∧ ¬ n r x := by
  induction l using outer_induction (m := m) (n := n) generalizing x with
  | nil => exact absurd hx (by simp)
  | cons o l ih =>
    rw [collapse_cons]
    -- the representative of the outer element itself
    have ho : (scan m n o l).1 = true →
        ∃ r ∈ collapse m n (scan m n o l).2.1, m o r ∧ ¬ n r o := by
      intro hd
      obtain ⟨i, hi, hoi, hn⟩ := scan_true hd
      have hio := hR.asymm hoi hn
      rcases ih hi with hmem | ⟨r, hr, hir, hri⟩
      · exact ⟨i, hmem, hoi, hio⟩
      · exact ⟨r, hr, hR.trans hoi hir,
          hR.not_newer_trans (hR.symm hir) (hR.symm hoi) hri hio⟩
    rcases List.mem_cons.mp hx with rfl | hx
    · split_ifs with hd
      · exact Or.inr (ho hd)
      · exact Or.inl (by simp)
    · rcases mem_scan (m := m) (n := n) o hx with hmem | ⟨hox, hnx⟩
      · split_ifs
        · exact ih hmem
        · exact (ih hmem).imp (List.mem_cons_of_mem o)
            fun ⟨r, hr, h⟩ => ⟨r, List.mem_cons_of_mem o hr, h⟩
      · -- dropped by `o`: its representative is that of `o`
        refine Or.inr ?_
        split_ifs with hd
        · obtain ⟨r, hr, hor, hro⟩ := ho hd
          exact ⟨r, hr, hR.trans (hR.symm hox) hor,
            hR.not_newer_trans (hR.symm hor) hox hro hnx⟩
        · exact ⟨o, by simp, hR.symm hox, hnx⟩

theorem eq_of_mem_unmatched {l : List α} (hl : Unmatched m l) {x y : α} (hx : x ∈ l)
    (hy : y ∈ l) (hxy : m x y) : x = y := by
  by_contra hne
  have : Std.Symm fun x y => ¬ m x y = true := ⟨fun a b h hba => h (hR.symm hba)⟩
  exact List.Pairwise.forall hl hx hy hne hxy

/-- Elements appended behind an unmatched list that outranks them all leave no trace. -/
theorem collapse_append_outranked {A B : List α} (hA : Unmatched m A)
    (hB : ∀ b ∈ B, ∃ a ∈ A, m a b ∧ ¬ n a b) : collapse m n (A ++ B) = A := by
  induction A generalizing B with
  | nil =>
    cases B with
    | nil => rfl
    | cons b B => exact absurd (hB b (by simp)) (by simp)
  | cons a A ih =>
    obtain ⟨ha, hA⟩ := List.pairwise_cons.mp hA
    have hbest : Best m n (A ++ B) a := by
      intro y hy hay
      rcases List.mem_append.mp hy with hy | hy
      · exact absurd hay (ha y hy)
      · obtain ⟨a', ha', hab, hn⟩ := hB y hy
        rcases List.mem_cons.mp ha' with rfl | ha'
        · exact hn
        · exact absurd (hR.trans hay (hR.symm hab)) (ha a' ha')
    obtain ⟨h1, h2⟩ := scan_of_best hbest
    have hkeep : A.filter (fun x => !m a x) = A :=
      List.filter_eq_self.mpr fun x hx => by simpa using ha x hx
    rw [List.cons_append, collapse_cons, h1, h2, List.filter_append, hkeep]
    simp only [Bool.false_eq_true, if_false, List.cons.injEq, true_and]
    refine ih hA fun b hb => ?_
    obtain ⟨hb, hab⟩ := List.mem_filter.mp hb
    obtain ⟨a', ha', h⟩ := hB b hb
    rcases List.mem_cons.mp ha' with rfl | ha'
    · simp [h.1] at hab
    · exact ⟨a', ha', h⟩

/-- A list is a fixed point of collapsing exactly when no two of its elements match. -/
theorem collapse_eq_self_iff {l : List α} : collapse m n l = l ↔ Unmatched m l := by
  constructor
  · intro h
    rw [← h]
    exact unmatched_collapse l
  · intro h
    simpa using collapse_append_outranked hR h (B := []) (by simp)

/-- At most one element of an unmatched list matches a given one. -/
theorem length_filter_match_le {M : List α} (hM : Unmatched m M) (a : α) :
    (M.filter fun x => m a x).length ≤ 1 := by
  by_contra hlt
  obtain ⟨x, y, rest, hxy⟩ : ∃ x y rest, M.filter (fun x => m a x) = x :: y :: rest := by
    match hf : M.filter fun x => m a x with
    | [] => simp [hf] at hlt
    | [_] => simp [hf] at hlt
    | x :: y :: rest => exact ⟨x, y, rest, rfl⟩
  have hx : m a x := (List.mem_filter.mp (hxy ▸ (by simp : x ∈ x :: y :: rest))).2
  have hy : m a y := (List.mem_filter.mp (hxy ▸ (by simp : y ∈ x :: y :: rest))).2
  have hpair : Unmatched m (x :: y :: rest) := hxy ▸ hM.sublist List.filter_sublist
  exact (List.pairwise_cons.mp hpair).1 y (by simp) (hR.trans (hR.symm hx) hy)

/-- An unmatched list whose elements match elements of `A`, but none of the kept ones, is not longer
than what is left out of `A`. -/
theorem length_add_length_le {K A M : List α} (hK : K.Sublist A) (hM : Unmatched m M)
    (hmatch : ∀ x ∈ M, ∃ a ∈ A, m a x) (hkept : ∀ a ∈ K, ∀ x ∈ M, ¬ m a x) :
    K.length + M.length ≤ A.length := by
  induction hK generalizing M with
  | slnil =>
    cases M with
    | nil => simp
    | cons x M => exact absurd (hmatch x (by simp)) (by simp)
  | @cons K A a hK ih =>
    -- `a` is left out: it accounts for at most one element of `M`
    have hone := length_filter_match_le hR hM a
    have hrest := ih (M := M.filter fun x => !m a x) (hM.sublist List.filter_sublist)
      (fun x hx => by
        obtain ⟨hx, hax⟩ := List.mem_filter.mp hx
        obtain ⟨b, hb, hbx⟩ := hmatch x hx
        rcases List.mem_cons.mp hb with rfl | hb
        · simp [hbx] at hax
        · exact ⟨b, hb, hbx⟩)
      (fun b hb x hx => hkept b hb x (List.mem_filter.mp hx).1)
    have hsplit := List.length_eq_length_filter_add (l := M) fun x => m a x
    simp only [List.length_cons]
    omega
  | @cons_cons K A a hK ih =>
    have hrest := ih hM
      (fun x hx => by
        obtain ⟨b, hb, hbx⟩ := hmatch x hx
        rcases List.mem_cons.mp hb with rfl | hb
        · exact absurd hbx (hkept b (by simp) x hx)
        · exact ⟨b, hb, hbx⟩)
      (fun b hb x hx => hkept b (List.mem_cons_of_mem a hb) x hx)
    simp only [List.length_cons]
    omega

/-- Collapsing leaves at most the elements of `A` and those of `B` that match none of them. -/
theorem length_collapse_append_le (A B : List α) :
    (collapse m n (A ++ B)).length ≤ A.length + B.countP fun b => !A.any fun a => m a b := by
  obtain ⟨K, M, heq, hK, hM⟩ := List.sublist_append_iff.mp (collapse_sublist (m := m) (n := n) (A ++ B))
  obtain ⟨-, hMM, hKM⟩ := List.pairwise_append.mp (heq ▸ unmatched_collapse (m := m) (n := n) (A ++ B))
  have hmatched := length_add_length_le hR hK (M := M.filter fun b => A.any fun a => m a b)
    (hMM.sublist List.filter_sublist)
    (fun x hx => by simpa using (List.mem_filter.mp hx).2)
    (fun a ha x hx => hKM a ha x (List.mem_filter.mp hx).1)
  have hnew : (M.filter fun b => !A.any fun a => m a b).length ≤
      B.countP fun b => !A.any fun a => m a b := by
    rw [← List.countP_eq_length_filter]
    exact hM.countP_le
  have hsplit := List.length_eq_length_filter_add (l := M) fun b => A.any fun a => m a b
  rw [heq, List.length_append]
  omega

/-- When there are no ties, the elements that are left are those that nothing outranks. -/
theorem mem_collapse_iff {l : List α}
    (htie : ∀ x ∈ l, ∀ y ∈ l, m x y → x ≠ y → n x y ∨ n y x) {x : α} :
    x ∈ collapse m n l ↔ x ∈ l ∧ Best m n l x := by
  constructor
  · intro hx
    refine ⟨mem_of_mem_collapse hx, fun y hy hxy => ?_⟩
    rcases collapse_covers hR hy with hmem | ⟨r, hr, hyr, hn⟩
    · obtain rfl := eq_of_mem_unmatched hR (unmatched_collapse l) hx hmem hxy
      exact fun hn => hR.asymm hxy hn hn
    · obtain rfl := eq_of_mem_unmatched hR (unmatched_collapse l) hx hr (hR.trans hxy hyr)
      exact hn
  · rintro ⟨hx, hbest⟩
    rcases collapse_covers hR hx with hmem | ⟨r, hr, hxr, hn⟩
    · exact hmem
    · have hrl := mem_of_mem_collapse hr
      by_cases heq : x = r
      · rw [heq]
        exact hr
      · rcases htie x hx r hrl hxr heq with hnew | hnew
        · exact absurd hnew (hbest r hrl hxr)
        · exact absurd hnew hn

omit hR

/-- Only the comparisons of an element with later ones are made. -/
theorem collapse_congr {n' : α → α → Bool} {l : List α}
    (h : l.Pairwise fun x y => n x y = n' x y) : collapse m n l = collapse m n' l := by
  have hscan : ∀ (o : α) {l : List α}, (∀ x ∈ l, n o x = n' o x) → scan m n o l = scan m n' o l := by
    intro o l hl
    induction l with
    | nil => rfl
    | cons i rest ih =>
      rw [List.forall_mem_cons] at hl
      simp only [scan, hl.1, ih hl.2]
  induction l using outer_induction (m := m) (n := n) with
  | nil => rfl
  | cons o l ih =>
    obtain ⟨ho, hl⟩ := List.pairwise_cons.mp h
    rw [collapse_cons, collapse_cons, ← hscan o ho, ih (hl.sublist (scan_sublist o l))]

/-- Collapsing does not look at more of the elements than matching and ranking do. -/
theorem map_collapse {β : Type*} {m' n' : β → β → Bool} (f : α → β) {l : List α} (hm : ∀ x ∈ l, ∀ y ∈ l, m x y = m' (f x) (f y))
    (hn : ∀ x ∈ l, ∀ y ∈ l, n x y = n' (f x) (f y)) :
    (collapse m n l).map f = collapse m' n' (l.map f) := by
  have hscan : ∀ (o : α) {l : List α}, (∀ y ∈ l, m o y = m' (f o) (f y)) →
      (∀ y ∈ l, n o y = n' (f o) (f y)) → (scan m' n' (f o) (l.map f)).1 = (scan m n o l).1 ∧
        (scan m' n' (f o) (l.map f)).2.1 = (scan m n o l).2.1.map f := by
    intro o l hm hn
    induction l with
    | nil => exact ⟨rfl, rfl⟩
    | cons i rest ih =>
      rw [List.forall_mem_cons] at hm hn
      obtain ⟨ih1, ih2⟩ := ih hm.2 hn.2
      simp only [List.map_cons, scan, ← hm.1, ← hn.1]
      split_ifs
      · exact ⟨rfl, rfl⟩
      · exact ⟨ih1, ih2⟩
      · exact ⟨ih1, congrArg (f i :: ·) ih2⟩
  induction l using outer_induction (m := m) (n := n) with
  | nil => rfl
  | cons o l ih =>
    have hsub := (scan_sublist (m := m) (n := n) o l).subset
    obtain ⟨h1, h2⟩ := hscan o (l := l) (fun y hy => hm o (by simp) y (by simp [hy]))
      (fun y hy => hn o (by simp) y (by simp [hy]))
    have hrest := ih (fun x hx y hy => hm x (List.mem_cons_of_mem o (hsub hx)) y
      (List.mem_cons_of_mem o (hsub hy))) (fun x hx y hy => hn x (List.mem_cons_of_mem o (hsub hx)) y
      (List.mem_cons_of_mem o (hsub hy)))
    rw [List.map_cons, collapse_cons, collapse_cons, h1, h2, ← hrest]
    split_ifs <;> rfl

/-! ## Collapsing in several steps

Elements are now taken up to an equivalence `e`, which matching and ranking respect. -/

variable (m n) in
/-- The equivalence `e` is respected by matching and ranking. -/
structure Respects (e : α → α → Prop) : Prop where
  refl : ∀ x, e x x
  symm : ∀ {x y}, e x y → e y x
  trans : ∀ {x y z}, e x y → e y z → e x z
  matches_congr : ∀ {x x' y y'}, e x x' → e y y' → m x y = m x' y'
  newer_congr : ∀ {x x' y y'}, e x x' → e y y' → n x y = n x' y'

variable (m n) in
/-- `r` stands for `x`: it is the same or a match that is not older. -/
def StandsFor (e : α → α → Prop) (r x : α) : Prop := e r x ∨ (m r x ∧ ¬ n r x)

variable (m n) in
/-- `l` represents `u`: it is an unmatched part of it, in which something stands for each element. -/
structure Represents (e : α → α → Prop) (l u : List α) : Prop where
  subset : l ⊆ u
  unmatched : Unmatched m l
  covers : ∀ x ∈ u, ∃ r ∈ l, StandsFor m n e r x

variable {e : α → α → Prop} (hE : Respects m n e)

include hE in
theorem represents_self {l : List α} (h : Unmatched m l) : Represents m n e l l :=
  ⟨fun _ hx => hx, h, fun x hx => ⟨x, hx, Or.inl (hE.refl x)⟩⟩

include hR hE

theorem StandsFor.trans {q r x : α} (h : StandsFor m n e q r) (h' : StandsFor m n e r x) :
    StandsFor m n e q x := by
  rcases h with h | ⟨hm, hn⟩
  · rcases h' with h' | ⟨hm', hn'⟩
    · exact Or.inl (hE.trans h h')
    · refine Or.inr ⟨?_, ?_⟩
      · rw [hE.matches_congr h (hE.refl x)]; exact hm'
      · rw [hE.newer_congr h (hE.refl x)]; exact hn'
  · rcases h' with h' | ⟨hm', hn'⟩
    · refine Or.inr ⟨?_, ?_⟩
      · rw [← hE.matches_congr (hE.refl q) h']; exact hm
      · rw [← hE.newer_congr (hE.refl q) h']; exact hn
    · exact Or.inr ⟨hR.trans hm hm', hR.not_newer_trans hm hm' hn hn'⟩

theorem exists_standsFor {l : List α} {x : α} (hx : x ∈ l) :
    ∃ r ∈ collapse m n l, StandsFor m n e r x := by
  rcases collapse_covers hR hx with hmem | ⟨r, hr, hm, hn⟩
  · exact ⟨x, hmem, Or.inl (hE.refl x)⟩
  · exact ⟨r, hr, Or.inr ⟨hR.symm hm, hn⟩⟩

/-- A representing list stays one when it is extended and collapsed again. What is not added must
already be there. -/
theorem Represents.collapse {l u l' u' : List α} (h : Represents m n e l u) (hsub : l' ⊆ u')
    (hrest : ∀ x ∈ u', x ∈ l' ∨ ∃ y ∈ l, e y x) :
    Represents m n e (Collapse.collapse m n (l ++ l')) (u ++ u') := by
  have hpool : ∀ x ∈ u ++ u', ∃ y ∈ l ++ l', StandsFor m n e y x := by
    intro x hx
    rcases List.mem_append.mp hx with hx | hx
    · obtain ⟨r, hr, hrx⟩ := h.covers x hx
      exact ⟨r, List.mem_append_left _ hr, hrx⟩
    · rcases hrest x hx with hx | ⟨y, hy, hyx⟩
      · exact ⟨x, List.mem_append_right _ hx, Or.inl (hE.refl x)⟩
      · exact ⟨y, List.mem_append_left _ hy, Or.inl hyx⟩
  refine ⟨fun x hx => ?_, unmatched_collapse _, fun x hx => ?_⟩
  · rcases List.mem_append.mp (mem_of_mem_collapse hx) with hx | hx
    · exact List.mem_append_left _ (h.subset hx)
    · exact List.mem_append_right _ (hsub hx)
  · obtain ⟨y, hy, hyx⟩ := hpool x hx
    obtain ⟨r, hr, hry⟩ := exists_standsFor hR hE hy
    exact ⟨r, hr, hry.trans hR hE hyx⟩

/-- Two lists that represent the same elements are the same up to `e`, if ties are. -/
theorem Represents.unique {l l' u u' : List α} (h : Represents m n e l u)
    (h' : Represents m n e l' u') (hu : ∀ x, x ∈ u ↔ x ∈ u')
    (htie : ∀ x ∈ u, ∀ y ∈ u, m x y → ¬ n x y → ¬ n y x → e x y) {x : α} (hx : x ∈ l) :
    ∃ y ∈ l', e y x := by
  have hxu := h.subset hx
  obtain ⟨r, hr, hrx⟩ := h'.covers x ((hu x).mp hxu)
  have hru := (hu r).mpr (h'.subset hr)
  obtain ⟨q, hq, hqr⟩ := h.covers r hru
  -- `x` and `r` stand for each other
  have hxr : StandsFor m n e x r := by
    rcases hqr.trans hR hE hrx with hqx | ⟨hqx, _⟩
    · exact StandsFor.trans hR hE (Or.inl (hE.symm hqx)) hqr
    · obtain rfl := eq_of_mem_unmatched hR h.unmatched hq hx hqx
      exact hqr
  rcases hrx with hrx | ⟨hm, hn⟩
  · exact ⟨r, hr, hrx⟩
  · rcases hxr with hxr | ⟨_, hn'⟩
    · exact ⟨r, hr, hE.symm hxr⟩
    · exact ⟨r, hr, htie r hru x hxu hm hn hn'⟩

end Collapse
