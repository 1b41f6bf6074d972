import Mathlib

/-!
# Sorting by a key, without repetitions

Insertion into a list that is sorted by a key: an element whose key is in the list already is dropped.
-/

namespace KeyedSort

variable {α κ : Type*} [LinearOrder κ] (key : α → κ)

/-- Inserts an element before the first one whose key is not smaller, unless that has the same key. -/
def insert (x : α) : List α → List α
  | [] => [x]
  | y :: ys =>
    if key y < key x then
      y :: insert x ys
    else if key y ≠ key x then
      x :: y :: ys
    else
      y :: ys

/-- Inserts the elements one after the other. -/
def sort (xs : List α) : List α := xs.foldl (fun sorted x => insert key x sorted) []

/-- The keys become larger and larger. -/
def Sorted (xs : List α) : Prop := xs.Pairwise fun x y => key x < key y

variable {key} {x : α} {xs ys : List α}

theorem mem_of_mem_insert {z : α} (h : z ∈ insert key x ys) : z = x ∨ z ∈ ys := by
  induction ys with
  | nil => exact .inl (List.mem_singleton.mp h)
  | cons y ys ih =>
    unfold insert at h
    split_ifs at h
    · rcases List.mem_cons.mp h with rfl | h
      · exact .inr List.mem_cons_self
      · exact (ih h).imp_right (List.mem_cons_of_mem _)
    · exact List.mem_cons.mp h
    · exact .inr h

theorem mem_insert_of_mem {z : α} (h : z ∈ ys) : z ∈ insert key x ys := by
  induction ys with
  | nil => cases h
  | cons y ys ih =>
    unfold insert
    split_ifs
    · rcases List.mem_cons.mp h with rfl | h
      · exact List.mem_cons_self
      · exact List.mem_cons_of_mem _ (ih h)
    · exact List.mem_cons_of_mem _ h
    · exact h

/-- The key of the element is in the list then. -/
theorem exists_mem_insert (key : α → κ) (x : α) (ys : List α) :
    ∃ z ∈ insert key x ys, key z = key x := by
  induction ys with
  | nil => exact ⟨x, List.mem_singleton_self x, rfl⟩
  | cons y ys ih =>
    unfold insert
    split_ifs with hlt hne
    · obtain ⟨z, hz, heq⟩ := ih
      exact ⟨z, List.mem_cons_of_mem _ hz, heq⟩
    · exact ⟨x, List.mem_cons_self, rfl⟩
    · exact ⟨y, List.mem_cons_self, not_not.mp hne⟩

theorem Sorted.insert (h : Sorted key ys) (x : α) : Sorted key (insert key x ys) := by
  induction ys with
  | nil => exact List.pairwise_singleton _ _
  | cons y ys ih =>
    obtain ⟨hy, hys⟩ := List.pairwise_cons.mp h
    unfold KeyedSort.insert
    split_ifs with hlt hne
    · refine List.pairwise_cons.mpr ⟨fun z hz => ?_, ih hys⟩
      rcases mem_of_mem_insert hz with rfl | hz
      · exact hlt
      · exact hy z hz
    · have hxy : key x < key y := lt_of_le_of_ne (not_lt.mp hlt) (Ne.symm hne)
      refine List.pairwise_cons.mpr ⟨fun z hz => ?_, h⟩
      rcases List.mem_cons.mp hz with rfl | hz
      · exact hxy
      · exact hxy.trans (hy z hz)
    · exact h

theorem Sorted.nodup_keys (h : Sorted key xs) : (xs.map key).Nodup :=
  List.pairwise_map.mpr (h.imp fun hlt => hlt.ne)

/-- What is sorted, and which elements are kept. -/
theorem sort_spec (key : α → κ) (xs : List α) :
    Sorted key (sort key xs) ∧ (∀ z ∈ sort key xs, z ∈ xs) ∧
      ∀ x ∈ xs, ∃ z ∈ sort key xs, key z = key x := by
  unfold sort
  induction xs using List.reverseRecOn with
  | nil => exact ⟨List.Pairwise.nil, fun z hz => hz, fun x hx => absurd hx List.not_mem_nil⟩
  | append_singleton xs x ih =>
    obtain ⟨hsorted, hsub, hkeys⟩ := ih
    rw [List.foldl_append]
    refine ⟨hsorted.insert x, fun z hz => ?_, fun y hy => ?_⟩
    · rcases mem_of_mem_insert hz with rfl | hz
      · exact List.mem_append_right _ (List.mem_singleton_self _)
      · exact List.mem_append_left _ (hsub z hz)
    · rcases List.mem_append.mp hy with hy | hy
      · obtain ⟨z, hz, heq⟩ := hkeys y hy
        exact ⟨z, mem_insert_of_mem hz, heq⟩
      · rw [List.mem_singleton.mp hy]
        exact exists_mem_insert key x _

end KeyedSort
