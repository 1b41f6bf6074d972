import Onak.Lib.Collapse

/-!
# Comparisons that may fail

The two loops of `Onak.Lib.Collapse` where the comparison of two elements may fail, and with it the
whole. An element that is dropped before it was compared with all others is as good as the one that stays
for it, so that it does not help: nothing fails if and only if no two elements of the list do.
-/

namespace Collapse

variable {α : Type} (judge : α → α → Option (Option Bool))

/-- `scan`, where the comparison of two elements may fail. It says whether they match, and if they do,
whether the second one is newer. -/
def scanIn (o : α) : List α → Option (Bool × List α)
  | [] => some (false, [])
  | i :: rest => do
    match ← judge o i with
    | none =>
      let r ← scanIn o rest
      return (r.1, i :: r.2)
    | some true => return (true, i :: rest)
    | some false => scanIn o rest

/-- `loop`, where the comparisons may fail. -/
def loopIn : Nat → List α → Option (List α)
  | 0, _ => some []
  | _ + 1, [] => some []
  | fuel + 1, o :: rest => do
    let r ← scanIn judge o rest
    let l ← loopIn fuel r.2
    return if r.1 then l else o :: l

/-- `collapse`, where the comparisons may fail. -/
def collapseIn (l : List α) : Option (List α) := loopIn judge l.length l

/-- A comparison that fails or does not in either order, and for which matching elements are alike. -/
structure Judges (m n : α → α → Bool) : Prop where
  eq_of_some : ∀ {x y v}, judge x y = some v → v = if m x y then some (n x y) else none
  symm : ∀ {x y}, judge x y = none → judge y x = none
  alike : ∀ {x y z b}, judge y z = some (some b) → judge x y = none → judge x z = none
  alike_left : ∀ {x y z b}, judge z y = some (some b) → judge x y = none → judge x z = none

variable {judge}

theorem scanIn_isSome {o : α} {l : List α} (h : ∀ i ∈ l, (judge o i).isSome) :
    (scanIn judge o l).isSome := by
  induction l with
  | nil => rfl
  | cons i rest ih =>
    rw [List.forall_mem_cons] at h
    obtain ⟨v, hv⟩ := Option.isSome_iff_exists.mp h.1
    obtain ⟨r, hr⟩ := Option.isSome_iff_exists.mp (ih h.2)
    match v, hv with
    | none, hv => simp [scanIn, hv, hr]
    | some true, hv => simp [scanIn, hv]
    | some false, hv => simp [scanIn, hv, hr]

/-- An element that the inner loop comes past is left, or matches the outer one. -/
theorem mem_scanIn {o : α} {l : List α} {r : Bool × List α} (h : scanIn judge o l = some r) {x : α}
    (hx : x ∈ l) : x ∈ r.2 ∨ judge o x = some (some false) := by
  induction l generalizing r with
  | nil => exact absurd hx List.not_mem_nil
  | cons i rest ih =>
    obtain ⟨v, hv, h⟩ := Option.bind_eq_some_iff.mp h
    match v, hv with
    | none, hv =>
      obtain ⟨r', hr', h⟩ := Option.bind_eq_some_iff.mp h
      rw [← Option.some.inj h]
      rcases List.mem_cons.mp hx with rfl | hx
      · exact .inl List.mem_cons_self
      · exact (ih hr' hx).imp_left (List.mem_cons_of_mem i)
    | some true, hv =>
      rw [← Option.some.inj h]
      exact .inl hx
    | some false, hv =>
      rcases List.mem_cons.mp hx with rfl | hx
      · exact .inr hv
      · exact ih h hx

variable {m n : α → α → Bool} (hJ : Judges judge m n)
include hJ

theorem Judges.match_iff {x y : α} {b : Bool} (h : judge x y = some (some b)) :
    m x y = true ∧ n x y = b := by
  have heq := hJ.eq_of_some h
  split_ifs at heq with hm
  exact ⟨hm, (Option.some.inj heq).symm⟩

theorem Judges.not_match {x y : α} (h : judge x y = some none) : m x y = false := by
  have heq := hJ.eq_of_some h
  split_ifs at heq with hm
  simpa using hm

/-- Where no comparison fails, it is the same loop. -/
theorem scanIn_sound {o : α} {l : List α} {r : Bool × List α} (h : scanIn judge o l = some r) :
    r = ((scan m n o l).1, (scan m n o l).2.1) := by
  induction l generalizing r with
  | nil => exact (Option.some.inj h).symm
  | cons i rest ih =>
    obtain ⟨v, hv, h⟩ := Option.bind_eq_some_iff.mp h
    match v, hv with
    | none, hv =>
      obtain ⟨r', hr', h⟩ := Option.bind_eq_some_iff.mp h
      rw [← Option.some.inj h, ih hr']
      simp [scan, hJ.not_match hv]
    | some true, hv =>
      obtain ⟨hm, hn⟩ := hJ.match_iff hv
      rw [← Option.some.inj h]
      simp [scan, hm, hn]
    | some false, hv =>
      obtain ⟨hm, hn⟩ := hJ.match_iff hv
      rw [ih h]
      simp [scan, hm, hn]

/-- What the outer element is compared with, or would be if it stayed, can be compared with it if what is
left can be compared. -/
theorem scanIn_compared {o : α} {l : List α} {r : Bool × List α} (h : scanIn judge o l = some r)
    (hr : r.2.Pairwise fun x y => (judge x y).isSome) : ∀ y ∈ l, (judge o y).isSome := by
  induction l generalizing r with
  | nil => exact fun _ hy => absurd hy List.not_mem_nil
  | cons i rest ih =>
    obtain ⟨v, hv, h⟩ := Option.bind_eq_some_iff.mp h
    rw [List.forall_mem_cons]
    refine ⟨by rw [hv]; rfl, ?_⟩
    match v, hv with
    | none, hv =>
      obtain ⟨r', hr', h⟩ := Option.bind_eq_some_iff.mp h
      rw [← Option.some.inj h] at hr
      exact ih hr' (List.pairwise_cons.mp hr).2
    | some true, hv =>
      rw [← Option.some.inj h] at hr
      intro y hy
      -- the newer element stands for the outer one
      rw [Option.isSome_iff_ne_none]
      intro hnone
      have hiy := (List.pairwise_cons.mp hr).1 y hy
      rw [hJ.symm (hJ.alike hv (hJ.symm hnone))] at hiy
      exact absurd hiy (by simp)
    | some false, hv => exact ih h hr

theorem scanIn_pairwise {o : α} {l : List α} {r : Bool × List α} (h : scanIn judge o l = some r)
    (hr : r.2.Pairwise fun x y => (judge x y).isSome) (hl : ∀ y ∈ l, (judge o y).isSome) :
    l.Pairwise fun x y => (judge x y).isSome := by
  induction l generalizing r with
  | nil => exact List.Pairwise.nil
  | cons i rest ih =>
    rw [List.forall_mem_cons] at hl
    obtain ⟨v, hv, h⟩ := Option.bind_eq_some_iff.mp h
    rw [List.pairwise_cons]
    match v, hv with
    | none, hv =>
      obtain ⟨r', hr', h⟩ := Option.bind_eq_some_iff.mp h
      rw [← Option.some.inj h] at hr
      obtain ⟨hi, hr⟩ := List.pairwise_cons.mp hr
      refine ⟨fun y hy => ?_, ih hr' hr hl.2⟩
      rcases mem_scanIn hr' hy with hy | hy
      · exact hi y hy
      · -- what matches the outer element is as good as that
        rw [Option.isSome_iff_ne_none]
        intro hnone
        rw [hJ.symm (hJ.alike_left hy hnone)] at hv
        exact absurd hv (by simp)
    | some true, hv =>
      rw [← Option.some.inj h] at hr
      exact List.pairwise_cons.mp hr
    | some false, hv =>
      refine ⟨fun y hy => ?_, ih h hr hl.2⟩
      rw [Option.isSome_iff_ne_none]
      intro hnone
      have hoy := hl.2 y hy
      rw [hJ.symm (hJ.alike_left hv (hJ.symm hnone))] at hoy
      exact absurd hoy (by simp)

omit hJ in
theorem loopIn_nil (fuel : Nat) (l' : List α) : loopIn judge fuel [] = some l' ↔
    (([] : List α).Pairwise fun x y => (judge x y).isSome) ∧ l' = collapse m n [] := by
  have hloop : loopIn judge fuel [] = some [] := by cases fuel <;> rfl
  rw [hloop, collapse_nil]
  exact ⟨fun h => ⟨.nil, (Option.some.inj h).symm⟩, fun h => by rw [h.2]⟩

theorem loopIn_eq_some_iff {fuel : Nat} {l l' : List α} (hfuel : l.length ≤ fuel) :
    loopIn judge fuel l = some l' ↔
      (l.Pairwise fun x y => (judge x y).isSome) ∧ l' = collapse m n l := by
  induction fuel generalizing l l' with
  | zero =>
    obtain rfl : l = [] := List.length_eq_zero_iff.mp (by omega)
    exact loopIn_nil 0 l'
  | succ fuel ih =>
    cases l with
    | nil => exact loopIn_nil (fuel + 1) l'
    | cons o rest =>
      have hlen := (scan_sublist (m := m) (n := n) o rest).length_le
      rw [List.length_cons] at hfuel
      unfold loopIn
      rw [Option.bind_eq_bind, Option.bind_eq_some_iff, collapse_cons]
      constructor
      · rintro ⟨r, hr, h⟩
        have hsound := scanIn_sound hJ hr
        obtain ⟨left, hleft, h⟩ := Option.bind_eq_some_iff.mp h
        subst hsound
        obtain ⟨hpair, rfl⟩ := (ih (hlen.trans (by omega))).mp hleft
        have hcompared := scanIn_compared hJ hr hpair
        exact ⟨List.pairwise_cons.mpr ⟨hcompared, scanIn_pairwise hJ hr hpair hcompared⟩,
          (Option.some.inj h).symm⟩
      · rintro ⟨hpair, rfl⟩
        obtain ⟨ho, hrest⟩ := List.pairwise_cons.mp hpair
        obtain ⟨r, hr⟩ := Option.isSome_iff_exists.mp (scanIn_isSome ho)
        have hsound := scanIn_sound hJ hr
        refine ⟨r, hr, ?_⟩
        have hleft : loopIn judge fuel (scan m n o rest).2.1 =
            some (collapse m n (scan m n o rest).2.1) :=
          (ih (hlen.trans (by omega))).mpr ⟨hrest.sublist (scan_sublist o rest), rfl⟩
        rw [hsound]
        simp only [hleft, Option.bind_eq_bind, Option.bind_some]
        rfl

/-- **Comparisons that may fail do not if and only if they do for no two elements**: an element that is
dropped early is as good as the one that stays for it. -/
theorem collapseIn_eq_some_iff {l l' : List α} :
    collapseIn judge l = some l' ↔
      (l.Pairwise fun x y => (judge x y).isSome) ∧ l' = collapse m n l :=
  loopIn_eq_some_iff hJ le_rfl

end Collapse
