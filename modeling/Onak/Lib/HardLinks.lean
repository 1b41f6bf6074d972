import Mathlib.Data.List.AList

/-!
# Files with hard links

A directory tree as a finite map from paths to files. Several paths can lead to one file, whose
contents are then read and written under any of them; a file is gone when its last path is removed.
-/

namespace HardLinks

variable {P α : Type} [DecidableEq P]

/-- The paths with the numbers of their files, and the contents of the files. -/
structure Disk (P α : Type) [DecidableEq P] where
  /-- The number of the file under each path. -/
  links : AList fun _ : P => Nat
  /-- The contents of the files. -/
  file : Nat → α
  /-- A number that no file has, nor any number above it. -/
  next : Nat
  fresh : ∀ {p n}, links.lookup p = some n → n < next

namespace Disk

variable (d : Disk P α)

/-- The file under a path. -/
def inode (p : P) : Option Nat := d.links.lookup p

/-- The contents of the file under a path. -/
def read (p : P) : Option α := (d.inode p).map d.file

/-- A disk without files. -/
def empty (blank : α) : Disk P α := ⟨∅, fun _ => blank, 0, fun h => by simp at h⟩

/-- A new file under a path that led nowhere. -/
def create (p : P) (a : α) : Disk P α where
  links := d.links.insert p d.next
  file := Function.update d.file d.next a
  next := d.next + 1
  fresh := by
    intro q n h
    by_cases hq : q = p
    · subst hq
      rw [AList.lookup_insert] at h
      exact Nat.lt_succ_of_le (Nat.le_of_eq (Option.some.inj h).symm)
    · rw [AList.lookup_insert_ne hq] at h
      exact Nat.lt_succ_of_lt (d.fresh h)

/-- New contents for a file. -/
def write (n : Nat) (a : α) : Disk P α := { d with file := Function.update d.file n a }

/-- A new path to an existing file. It fails without effect if the file does not exist, or if there
is something under the new path. -/
def link (old new : P) : Disk P α :=
  match h : d.links.lookup old with
  | none => d
  | some m =>
    if (d.links.lookup new).isSome then
      d
    else
      { d with
        links := d.links.insert new m
        fresh := by
          intro q n hq
          by_cases hnew : q = new
          · subst hnew
            rw [AList.lookup_insert] at hq
            exact Option.some.inj hq ▸ d.fresh h
          · rw [AList.lookup_insert_ne hnew] at hq
            exact d.fresh hq }

/-- Removal of a path, without effect if it leads nowhere. -/
def unlink (p : P) : Disk P α where
  links := d.links.erase p
  file := d.file
  next := d.next
  fresh := by
    intro q n h
    by_cases hq : q = p
    · subst hq
      rw [AList.lookup_erase] at h
      exact absurd h (by simp)
    · rw [AList.lookup_erase_ne hq] at h
      exact d.fresh h

/-- New paths to one file. -/
def linkAll (old : P) (ps : List P) : Disk P α := ps.foldl (fun d p => d.link old p) d

/-- Removal of several paths. -/
def unlinkAll (ps : List P) : Disk P α := ps.foldl unlink d

/-! ## What the operations do -/

theorem read_eq_some_iff {d : Disk P α} {p : P} {a : α} :
    d.read p = some a ↔ ∃ n, d.inode p = some n ∧ d.file n = a := by
  simp [read]

theorem inode_lt {p : P} {n : Nat} (h : d.inode p = some n) : n < d.next := d.fresh h

@[simp] theorem inode_empty (blank : α) (p : P) : (empty blank : Disk P α).inode p = none := by
  simp [inode, empty]

theorem inode_create (p : P) (a : α) (q : P) :
    (d.create p a).inode q = if q = p then some d.next else d.inode q := by
  unfold inode create
  split_ifs with h
  · subst h
    exact AList.lookup_insert _
  · exact AList.lookup_insert_ne h

theorem file_create (p : P) (a : α) (n : Nat) :
    (d.create p a).file n = if n = d.next then a else d.file n := by
  simp only [create, Function.update_apply]

@[simp] theorem inode_write (n : Nat) (a : α) (p : P) : (d.write n a).inode p = d.inode p := rfl

theorem file_write (n : Nat) (a : α) (m : Nat) :
    (d.write n a).file m = if m = n then a else d.file m := by
  simp only [write, Function.update_apply]

theorem inode_link {old : P} {m : Nat} (hold : d.inode old = some m) (new q : P) :
    (d.link old new).inode q =
      if q = new ∧ d.inode q = none then some m else d.inode q := by
  unfold inode at hold ⊢
  unfold link
  split
  · rename_i hnone
    rw [hnone] at hold
    cases hold
  · rename_i m' hsome
    obtain rfl : m' = m := Option.some.inj (hsome.symm.trans hold)
    by_cases hq : q = new
    · subst hq
      cases hnew : d.links.lookup q with
      | none =>
        simp only [Option.isSome_none, Bool.false_eq_true, if_false, and_self, if_true]
        exact AList.lookup_insert _
      | some n => simp [hnew]
    · split_ifs
      · exact absurd (‹q = new ∧ _›).1 hq
      · rfl
      · exact absurd (‹q = new ∧ _›).1 hq
      · exact AList.lookup_insert_ne hq

@[simp] theorem file_link (old new : P) : (d.link old new).file = d.file := by
  unfold link
  split
  · rfl
  · split_ifs <;> rfl

theorem inode_unlink (p q : P) :
    (d.unlink p).inode q = if q = p then none else d.inode q := by
  unfold inode unlink
  split_ifs with h
  · subst h
    exact AList.lookup_erase _ _
  · exact AList.lookup_erase_ne h

@[simp] theorem file_unlink (p : P) : (d.unlink p).file = d.file := rfl

theorem file_linkAll (old : P) (ps : List P) : (d.linkAll old ps).file = d.file := by
  induction ps generalizing d with
  | nil => rfl
  | cons p ps ih => exact (ih (d.link old p)).trans (d.file_link old p)

/-- The paths that led nowhere lead to the file now. -/
theorem inode_linkAll {old : P} {m : Nat} (hold : d.inode old = some m) (ps : List P) (q : P) :
    (d.linkAll old ps).inode q =
      if q ∈ ps ∧ d.inode q = none then some m else d.inode q := by
  induction ps generalizing d with
  | nil => simp [linkAll]
  | cons p ps ih =>
    have hold' : (d.link old p).inode old = some m := by
      rw [d.inode_link hold, hold]
      simp
    have hrest := ih (d.link old p) hold'
    rw [d.inode_link hold] at hrest
    refine hrest.trans ?_
    by_cases hq : q = p <;> cases hn : d.inode q <;> simp [hq]

theorem file_unlinkAll (ps : List P) : (d.unlinkAll ps).file = d.file := by
  induction ps generalizing d with
  | nil => rfl
  | cons p ps ih => exact ih (d.unlink p)

theorem inode_unlinkAll (ps : List P) (q : P) :
    (d.unlinkAll ps).inode q = if q ∈ ps then none else d.inode q := by
  induction ps generalizing d with
  | nil => simp [unlinkAll]
  | cons p ps ih =>
    refine (ih (d.unlink p)).trans ?_
    rw [d.inode_unlink]
    by_cases hq : q = p <;> simp [hq]

end Disk

end HardLinks
