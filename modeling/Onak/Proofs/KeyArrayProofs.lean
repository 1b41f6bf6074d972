import Onak.KeyArray
import Onak.Proofs.Db4FetchProofs
import Onak.Proofs.KeydSocketProofs

/-!
# Proofs: key arrays are sets

As long as there are few enough entries for the sums of the search to fit into an `int`, the array in
memory does what the sorted list of its entries does. The last entry of an array with more of them is
not found any more.
-/

namespace Onak

open Bisect Socket

namespace KeySlots

/-- The array holds some entries, in as many slots as `size` says. -/
structure Holds (array : KeySlots) (l : KeyArray) : Prop where
  /-- These are the entries. -/
  entries : array.Entries l
  /-- They fit. -/
  le : array.count ≤ array.size
  /-- `size` is the number of slots. -/
  length : array.slots.length = array.size

theorem holds_empty : empty.Holds [] := ⟨⟨rfl, rfl⟩, le_refl _, rfl⟩

section

variable {array : KeySlots} {l : KeyArray}

theorem Entries.slots_eq (h : array.Entries l) {i : Nat} (hi : i < l.length) :
    array.slots[i]? = some (some l[i]) := by
  have htake := congrArg (fun slots => slots[i]?) h.2
  simp only [h.1, List.getElem?_take_of_lt hi] at htake
  rw [htake, List.getElem?_map, List.getElem?_eq_getElem hi]
  rfl

theorem Entries.key_eq (h : array.Entries l) {i : Nat} (hi : i < l.length) :
    array.key i = some l[i] := by
  unfold key
  rw [if_pos (Int.natCast_nonneg i), Int.toNat_natCast, h.slots_eq hi]
  rfl

theorem Entries.keys_isSome (h : array.Entries l) (hne : l ≠ []) : array.keys.isSome := by
  cases hkeys : array.keys with
  | some slots => rfl
  | none =>
    have hslot := h.slots_eq (List.length_pos_iff.mpr hne)
    rw [slots, hkeys] at hslot
    cases hslot

/-! ## Few entries -/

theorem toInt_last (h : array.Entries l) (hne : l ≠ []) (hsmall : l.length ≤ 2 ^ 30 + 1) :
    toInt (sizeSub array.count 1) = ((l.length - 1 : Nat) : Int) := by
  have hlen := List.length_pos_iff.mpr hne
  unfold toInt sizeSub
  rw [h.1, if_pos (by omega), Int.bmod_eq_of_le] <;> omega

variable (fp : Fingerprint)

/-- The search is the one that `lo` and `top` bound. -/
theorem Entries.search_eq (h : array.Entries l) (hsmall : l.length ≤ 2 ^ 30 + 1) {fuel lo top : Nat}
    (hle : lo ≤ top) (htop : top < l.length) (hfuel : top - lo ≤ fuel) :
    array.search fp ((lo : Int) - 1) top =
      some ((Bisect.search fingerprintCmp l fp fuel lo top : Nat) : Int) := by
  induction fuel generalizing lo top with
  | zero =>
    rw [KeySlots.search, if_neg (by unfold InInt; omega), if_neg (by omega)]
    rfl
  | succ fuel ih =>
    rw [KeySlots.search, Bisect.search, if_neg (by unfold InInt; omega)]
    by_cases hlt : lo < top
    · have hmiddle : ((top : Int) + ((lo : Int) - 1)).tdiv 2 = (((lo + top - 1) / 2 : Nat) : Int) := by
        rw [Int.tdiv_eq_ediv_of_nonneg (by omega)]
        omega
      obtain ⟨cur, hcur⟩ : ∃ cur, (lo + top - 1) / 2 = cur := ⟨_, rfl⟩
      have hcl : cur < l.length := by omega
      rw [if_pos (by omega), if_neg (by unfold InInt; omega), hmiddle, hcur, h.key_eq hcl, if_pos hlt]
      simp only [List.getElem?_eq_getElem hcl, Option.map_some, Option.some.injEq]
      split_ifs with hgt
      · have hnext := ih (show cur + 1 ≤ top by omega) htop (by omega)
        rwa [Nat.cast_add, Nat.cast_one, add_sub_cancel_right] at hnext
      · exact ih (by omega) hcl (by omega)
    · rw [if_neg (by omega), if_neg hlt]

theorem Entries.position_eq (h : array.Entries l) (hne : l ≠ []) (hsmall : l.length ≤ 2 ^ 30 + 1) :
    array.search fp (-1) (toInt (sizeSub array.count 1)) =
      some ((position fingerprintCmp l fp : Nat) : Int) := by
  have hlen := List.length_pos_iff.mpr hne
  rw [toInt_last h hne hsmall]
  exact h.search_eq fp hsmall (Nat.zero_le _) (by omega) (by omega)

variable (hs : Ascending fingerprintCmp l)

include hs in
theorem Entries.find_eq (h : array.Entries l) (hsmall : l.length ≤ 2 ^ 30 + 1) :
    array.arrayFind fp = some (Onak.arrayFind l fp) := by
  unfold KeySlots.arrayFind Onak.arrayFind
  by_cases hne : l = []
  · rw [if_neg (by rw [h.1, hne]; simp), hne]
    rfl
  · have hlen := List.length_pos_iff.mpr hne
    have hpos := (position_between (x := fp) hs hne).lt
    rw [if_pos ⟨h.keys_isSome hne, by rw [h.1]; exact hlen⟩, h.position_eq fp hne hsmall,
      Option.bind_eq_bind, Option.bind_some, h.key_eq hpos]
    simp [Bisect.find, List.getElem?_eq_getElem hpos]

/-- Where `array_add` puts an entry. -/
def insertPos (l : KeyArray) (fp : Fingerprint) : Nat :=
  if l[position fingerprintCmp l fp]?.map (fingerprintCmp fp) = some .gt then
    position fingerprintCmp l fp + 1
  else
    position fingerprintCmp l fp

theorem arrayAdd_eq (l : KeyArray) (fp : Fingerprint) :
    Onak.arrayAdd l fp = if Onak.arrayFind l fp then l
      else l.take (insertPos l fp) ++ fp :: l.drop (insertPos l fp) := rfl

include hs in
theorem insertPos_le : insertPos l fp ≤ l.length := by
  unfold insertPos
  by_cases hne : l = []
  · rw [hne]
    exact le_refl 0
  · have hpos := (position_between (x := fp) hs hne).lt
    split_ifs
    · exact hpos
    · exact hpos.le

include hs in
theorem Entries.place_eq (h : array.Entries l) (hsize : array.size ≠ 0)
    (hsmall : l.length ≤ 2 ^ 30 + 1) :
    array.place fp = some (Onak.arrayFind l fp, ((insertPos l fp : Nat) : Int)) := by
  unfold KeySlots.place Onak.arrayFind Bisect.find insertPos
  by_cases hne : l = []
  · rw [if_neg (by rw [h.1, hne]; simp), hne]
    rfl
  · have hlen := List.length_pos_iff.mpr hne
    have hpos := (position_between (x := fp) hs hne).lt
    rw [if_pos ⟨hsize, by rw [h.1]; exact hlen⟩, h.position_eq fp hne hsmall, Option.bind_eq_bind,
      Option.bind_some, h.key_eq hpos]
    simp only [Option.bind_eq_bind, Option.bind_some, List.getElem?_eq_getElem hpos, Option.map_some,
      Option.some.injEq]
    split_ifs <;> rfl

/-! ## Growth -/

theorem Holds.grow (h : array.Holds l) (hsize : array.size ≠ 0) :
    array.grow.Holds l ∧ array.grow.count < array.grow.size := by
  unfold KeySlots.grow
  split_ifs with hfull
  · have hcount := h.le
    refine ⟨⟨⟨h.entries.1, ?_⟩, ?_, ?_⟩, ?_⟩
    · show (array.slots ++ List.replicate array.size none).take array.count = _
      rw [List.take_append_of_le_length (by rw [h.length]; exact h.le)]
      exact h.entries.2
    · show array.count ≤ array.size * 2
      omega
    · show (array.slots ++ List.replicate array.size none).length = array.size * 2
      rw [List.length_append, List.length_replicate, h.length]
      omega
    · show array.count < array.size * 2
      omega
  · exact ⟨h, by omega⟩

theorem take_set_append {slots moved back : List (Option Fingerprint)} {pos n : Nat}
    (hpos : pos < moved.length) (hfront : moved.take pos = slots.take pos)
    (hback : (moved.drop (pos + 1)).take n = back) (hlen : back.length = n) :
    (moved.set pos (some fp)).take (pos + 1 + n) = slots.take pos ++ some fp :: back := by
  have htake : (moved.take pos).length = pos := List.length_take_of_le (by omega)
  rw [List.set_eq_take_append_cons_drop, if_pos hpos, List.take_append, htake,
    List.take_of_length_le (by omega), hfront, show pos + 1 + n - pos = n + 1 by omega,
    List.take_succ_cons, hback]

/-- The slots with an entry moved in between. -/
theorem Holds.insert_eq (h : array.Holds l) (hroom : array.count < array.size) {pos : Nat}
    (hpos : pos ≤ l.length) :
    ∃ slots, array.insert fp pos = some slots ∧ slots.length = array.size ∧
      slots.take (array.count + 1) = (l.take pos ++ fp :: l.drop pos).map some := by
  have hcount := h.entries.1
  have hlen := h.length
  have hfront : array.slots.take pos = (l.take pos).map some := by
    rw [List.map_take, ← h.entries.2, List.take_take, min_eq_left (by omega)]
  have hback : (array.slots.drop pos).take (array.count - pos) = (l.drop pos).map some := by
    rw [List.map_drop, ← h.entries.2, List.drop_take]
  have hsum : array.count + 1 = pos + 1 + (array.count - pos) := by omega
  refine ⟨_, if_pos ⟨by omega, fun _ => by omega⟩, ?_, ?_⟩
  · rw [List.length_set]
    split_ifs
    · simp only [List.length_append, List.length_take, List.length_drop, hlen]
      omega
    · exact hlen
  · rw [List.map_append, List.map_cons, ← hfront, ← hback, hsum]
    have hbacklen : ((array.slots.drop pos).take (array.count - pos)).length = array.count - pos :=
      List.length_take_of_le (by rw [List.length_drop]; omega)
    split_ifs with hlt
    · have htake : (array.slots.take (pos + 1)).length = pos + 1 :=
        List.length_take_of_le (by omega)
      refine take_set_append fp (by simp only [List.length_append, htake]; omega) ?_ ?_ hbacklen
      · rw [List.append_assoc, List.take_append_of_le_length (by omega), List.take_take,
          min_eq_left (by omega)]
      · rw [List.append_assoc, List.drop_left' htake, List.take_left' hbacklen]
    · refine take_set_append fp (by omega) rfl ?_ hbacklen
      have hzero : array.count - pos = 0 := by omega
      rw [hzero, List.take_zero, List.take_zero]

include hs in
/-- **`array_add` is the insertion into the list.** -/
theorem Holds.add_eq (h : array.Holds l) (hsmall : l.length ≤ 2 ^ 30 + 1) :
    ∃ array', array.arrayAdd fp = some (array', !Onak.arrayFind l fp) ∧
      array'.Holds (Onak.arrayAdd l fp) := by
  rw [arrayAdd_eq]
  unfold KeySlots.arrayAdd
  have hcount := h.entries.1
  have hle := h.le
  by_cases hsize : array.size = 0
  · obtain rfl : l = [] := List.length_eq_zero_iff.mp (by omega)
    have hplace : array.place fp = some (false, 0) := if_neg fun hnot => hnot.1 hsize
    rw [hplace, Option.bind_eq_bind, Option.bind_some]
    refine ⟨_, if_pos hsize, ⟨rfl, rfl⟩, ?_, rfl⟩
    show 1 ≤ 16
    decide
  · obtain ⟨hgrow, hroom⟩ := h.grow hsize
    have hgrown : array.grow.count = array.count := by
      rw [hgrow.entries.1, hcount]
    rw [h.entries.place_eq fp hs hsize hsmall, Option.bind_eq_bind, Option.bind_some]
    simp only
    cases hfind : Onak.arrayFind l fp with
    | true =>
      exact ⟨array, rfl, h⟩
    | false =>
      have hpos := insertPos_le fp hs
      obtain ⟨slots, hinsert, hlen, htake⟩ := hgrow.insert_eq fp hroom hpos
      rw [if_neg Bool.false_ne_true, if_neg Bool.false_ne_true, if_neg hsize,
        if_pos (Int.natCast_nonneg _), Int.toNat_natCast, hinsert]
      refine ⟨_, rfl, ⟨?_, ?_⟩, ?_, hlen⟩
      · show array.count + 1 = _
        rw [List.length_append, List.length_cons, List.length_take, List.length_drop]
        omega
      · show slots.take (array.count + 1) = _
        rw [← hgrown]
        exact htake
      · show array.count + 1 ≤ array.grow.size
        omega

end

/-! ## Sequences of calls -/

theorem foldl_ascending (fps : List Fingerprint) {l : KeyArray} (hs : Ascending fingerprintCmp l) :
    Ascending fingerprintCmp (fps.foldl Onak.arrayAdd l) ∧
      ∀ fp, fp ∈ fps.foldl Onak.arrayAdd l ↔ fp ∈ l ∨ fp ∈ fps := by
  obtain ⟨hfold, hmem⟩ := foldl_arrayAdd (fun _ => true) fps l hs
  simp only [if_true, and_true] at hfold hmem
  exact ⟨hfold, hmem⟩

theorem length_le_foldl (fps : List Fingerprint) {l : KeyArray} (hs : Ascending fingerprintCmp l) :
    l.length ≤ (fps.foldl Onak.arrayAdd l).length :=
  ((ascending_nodup hs).subperm fun _ hfp => ((foldl_ascending fps hs).2 _).mpr (.inl hfp)).length_le

/-- A sequence of calls, from an array that holds some entries. -/
theorem Holds.addAll_eq (fps : List Fingerprint) {array : KeySlots} {l : KeyArray}
    (h : array.Holds l) (hs : Ascending fingerprintCmp l)
    (hsmall : (fps.foldl Onak.arrayAdd l).length ≤ 2 ^ 30 + 1) :
    ∃ array' results, array.addAll fps = some (array', results) ∧
      array'.Holds (fps.foldl Onak.arrayAdd l) ∧
      ∀ i fp, fps[i]? = some fp → results[i]? = some (decide (fp ∉ l ∧ fp ∉ fps.take i)) := by
  induction fps generalizing array l with
  | nil => exact ⟨array, [], rfl, h, fun i fp hfp => absurd hfp (by simp)⟩
  | cons x fps ih =>
    rw [List.foldl_cons] at hsmall ⊢
    have hs' : Ascending fingerprintCmp (Onak.arrayAdd l x) := add_ascending hs
    have hle : l.length ≤ (Onak.arrayAdd l x).length := length_le_add hs
    have hle' := length_le_foldl fps hs'
    obtain ⟨array₁, hadd, h₁⟩ := h.add_eq x hs (by omega)
    obtain ⟨array', results, hrun, h', hresults⟩ := ih h₁ hs' hsmall
    refine ⟨array', (!Onak.arrayFind l x) :: results, ?_, h', ?_⟩
    · simp only [KeySlots.addAll, hadd, hrun, Option.bind_eq_bind, Option.bind_some]
      rfl
    · intro i fp hfp
      cases i with
      | zero =>
        obtain rfl : x = fp := Option.some.inj hfp
        have hfind : Onak.arrayFind l x = true ↔ x ∈ l := find_iff hs
        rw [List.getElem?_cons_zero, Option.some.injEq, Bool.eq_iff_iff, Bool.not_eq_true',
          ← Bool.not_eq_true, hfind]
        simp
      | succ i =>
        have hmem : fp ∈ Onak.arrayAdd l x ↔ fp ∈ l ∨ fp = x := mem_add hs
        rw [List.getElem?_cons_succ, hresults i fp hfp, List.take_succ_cons, Option.some.injEq]
        simp only [hmem, List.mem_cons, not_or, and_assoc]

/-! ## Too many entries -/

theorem mem_of_mem_insert {array : KeySlots} {fp fp' : Fingerprint} {pos : Nat}
    {slots : List (Option Fingerprint)} (h : array.insert fp pos = some slots)
    (hmem : some fp' ∈ slots) : some fp' ∈ array.slots ∨ fp' = fp := by
  unfold insert at h
  split_ifs at h with hpos hlt
  all_goals
    obtain rfl := Option.some.inj h
    rcases List.mem_or_eq_of_mem_set hmem with hold | heq
  · refine .inl ?_
    rcases List.mem_append.mp hold with hold | hold
    · rcases List.mem_append.mp hold with hold | hold
      · exact List.mem_of_mem_take hold
      · exact List.mem_of_mem_drop (List.mem_of_mem_take hold)
    · exact List.mem_of_mem_drop hold
  · exact .inr (Option.some.inj heq)
  · exact .inl hold
  · exact .inr (Option.some.inj heq)

/-- Nothing but what is added is ever written. -/
theorem mem_of_arrayAdd {array array' : KeySlots} {fp fp' : Fingerprint} {added : Bool}
    (h : array.arrayAdd fp = some (array', added)) (hmem : some fp' ∈ array'.slots) :
    some fp' ∈ array.slots ∨ fp' = fp := by
  unfold KeySlots.arrayAdd at h
  obtain ⟨⟨found, curpos⟩, -, h⟩ := Option.bind_eq_some_iff.mp h
  simp only at h
  split_ifs at h with hfound hsize hcurpos
  · obtain ⟨rfl, -⟩ := Prod.mk.inj (Option.some.inj h)
    exact .inl hmem
  · obtain ⟨rfl, -⟩ := Prod.mk.inj (Option.some.inj h)
    rcases List.mem_cons.mp hmem with heq | hnone
    · exact .inr (Option.some.inj heq)
    · cases List.eq_of_mem_replicate hnone
  · obtain ⟨slots, hinsert, h⟩ := Option.bind_eq_some_iff.mp h
    obtain ⟨rfl, -⟩ := Prod.mk.inj (Option.some.inj h)
    rcases mem_of_mem_insert hinsert hmem with hgrown | heq
    · unfold grow at hgrown
      split_ifs at hgrown
      · rcases List.mem_append.mp hgrown with hold | hnone
        · exact .inl hold
        · cases List.eq_of_mem_replicate hnone
      · exact .inl hgrown
    · exact .inr heq

theorem mem_of_addAll {fps : List Fingerprint} {array array' : KeySlots} {results : List Bool}
    {fp : Fingerprint} (h : array.addAll fps = some (array', results))
    (hmem : some fp ∈ array'.slots) : some fp ∈ array.slots ∨ fp ∈ fps := by
  induction fps generalizing array results with
  | nil =>
    obtain ⟨rfl, -⟩ := Prod.mk.inj (Option.some.inj h)
    exact .inl hmem
  | cons x fps ih =>
    obtain ⟨⟨array₁, added⟩, hadd, h⟩ := Option.bind_eq_some_iff.mp h
    obtain ⟨⟨array₂, results'⟩, hrun, h⟩ := Option.bind_eq_some_iff.mp h
    obtain ⟨rfl, -⟩ := Prod.mk.inj (Option.some.inj h)
    rcases ih hrun with hold | hfps
    · rcases mem_of_arrayAdd hadd hold with hold | rfl
      · exact .inl hold
      · exact .inr List.mem_cons_self
    · exact .inr (List.mem_cons_of_mem x hfps)

section

variable {array : KeySlots} {l : KeyArray} {fp : Fingerprint}

/-- The search never goes up. -/
theorem search_le {bottom top pos : Int} (h : array.search fp bottom top = some pos) : pos ≤ top := by
  fun_induction KeySlots.search array fp bottom top with
  | case1 => cases h
  | case2 => cases h
  | case3 => cases h
  | case4 bottom top _ _ _ key _ _ ih => exact ih h
  | case5 bottom top _ hlt _ key _ _ ih =>
    have hcur := tdiv_between hlt
    have hle := ih h
    omega
  | case6 =>
    obtain rfl := Option.some.inj h
    exact le_refl _

theorem toInt_le (n : Nat) : toInt n ≤ n := by
  unfold toInt
  rw [Int.bmod_def]
  split_ifs <;> omega

/-- What is found is an entry. -/
theorem Entries.mem_of_find (h : array.Entries l) (hfind : array.arrayFind fp = some true) :
    ∃ (pos : Nat) (hpos : pos < l.length), l[pos] = fp ∧
      array.search fp (-1) (toInt (l.length - 1)) = some (pos : Int) := by
  unfold KeySlots.arrayFind at hfind
  split_ifs at hfind with hnonempty
  · obtain ⟨top, hsearch, hfind⟩ := Option.bind_eq_some_iff.mp hfind
    obtain ⟨key, hkey, hfind⟩ := Option.bind_eq_some_iff.mp hfind
    have hcount : 0 < l.length := by
      rw [← h.1]
      exact hnonempty.2
    have hlast : sizeSub array.count 1 = l.length - 1 := by
      unfold sizeSub
      rw [h.1, if_pos (by omega)]
    rw [hlast] at hsearch
    have hle := (search_le hsearch).trans (toInt_le _)
    have hzero : 0 ≤ top := by
      by_contra hneg
      unfold KeySlots.key at hkey
      rw [if_neg hneg] at hkey
      cases hkey
    obtain ⟨pos, rfl⟩ := Int.eq_ofNat_of_zero_le hzero
    have hpos : pos < l.length := by omega
    rw [h.key_eq hpos] at hkey
    obtain rfl := Option.some.inj hkey
    have heq := of_decide_eq_true (Option.some.inj hfind)
    exact ⟨pos, hpos, (Std.LawfulEqCmp.eq_of_compare heq).symm, hsearch⟩
  · cases hfind

theorem cmp_last (hs : Ascending fingerprintCmp l) (hlen : l.length - 1 < l.length) {i : Nat}
    (hi : i < l.length - 1) : fingerprintCmp l[l.length - 1] l[i] = .gt :=
  Std.OrientedCmp.gt_iff_lt.mpr (List.pairwise_iff_getElem.mp hs i (l.length - 1) (by omega) hlen hi)

/-- On the way to the last of too many entries a sum overflows. -/
theorem Entries.search_last (h : array.Entries l) (hs : Ascending fingerprintCmp l)
    (hlarge : 2 ^ 30 + 2 ≤ l.length) (hlen : l.length - 1 < l.length) (n : Nat) {bottom : Int}
    (hbottom : -1 ≤ bottom) (hlt : 1 < ((l.length - 1 : Nat) : Int) - bottom)
    (hn : ((l.length - 1 : Nat) : Int) - bottom ≤ n) :
    array.search l[l.length - 1] bottom ((l.length - 1 : Nat) : Int) = none := by
  induction n generalizing bottom with
  | zero => omega
  | succ n ih =>
    rw [KeySlots.search]
    split_ifs with hdiff hsum
    · obtain ⟨htop, hmid⟩ := tdiv_between hlt
      obtain ⟨cur, hcur⟩ : ∃ cur : Nat,
          (((l.length - 1 : Nat) : Int) + bottom).tdiv 2 = cur := by
        refine Int.eq_ofNat_of_zero_le ?_
        omega
      have hdiv := Int.tdiv_eq_ediv_of_nonneg
        (show 0 ≤ ((l.length - 1 : Nat) : Int) + bottom by omega) (b := 2)
      rw [hcur] at htop hmid hdiv ⊢
      rw [h.key_eq (show cur < l.length by omega)]
      simp only
      rw [if_pos (cmp_last hs hlen (by omega))]
      unfold InInt at hsum
      exact ih (by omega) (by omega) (by omega)
    · rfl
    · rfl

/-- **The last of too many entries is not found.** -/
theorem Entries.find_last (h : array.Entries l) (hs : Ascending fingerprintCmp l)
    (hlarge : 2 ^ 30 + 2 ≤ l.length) (hlen : l.length - 1 < l.length) :
    array.arrayFind l[l.length - 1] ≠ some true := by
  intro hfind
  obtain ⟨pos, hpos, heq, hsearch⟩ := h.mem_of_find hfind
  obtain rfl : pos = l.length - 1 := (ascending_nodup hs).getElem_inj_iff.mp heq
  have hle := search_le hsearch
  have htop : toInt (l.length - 1) = ((l.length - 1 : Nat) : Int) :=
    le_antisymm (toInt_le _) hle
  rw [htop, h.search_last hs hlarge hlen l.length (le_refl _) (by omega) (by omega)] at hsearch
  cases hsearch

end

end KeySlots

open KeySlots

/-- The entries are the fingerprints that were added. -/
theorem MakesSet.mem_iff {fps : List Fingerprint} {array : KeySlots} {results : List Bool}
    {entries : KeyArray} (h : MakesSet fps array results entries) (fp : Fingerprint) :
    fp ∈ entries ↔ fp ∈ fps := by
  constructor
  · intro hmem
    have hslot : some fp ∈ array.slots := by
      have hentry : some fp ∈ entries.map some := List.mem_map_of_mem hmem
      rw [← h.holds.2] at hentry
      exact List.mem_of_mem_take hentry
    rcases mem_of_addAll h.adds hslot with hempty | hfps
    · cases hempty
    · exact hfps
  · intro hmem
    obtain ⟨pos, hpos, rfl, -⟩ := h.holds.mem_of_find ((h.find fp).trans (by simp [hmem]))
    exact List.getElem_mem hpos

/-- Of a set that is larger the last entry would not be found. -/
theorem MakesSet.length_le {fps : List Fingerprint} {array : KeySlots} {results : List Bool}
    {entries : KeyArray} (h : MakesSet fps array results entries) :
    fps.dedup.length ≤ 2 ^ 30 + 1 := by
  have hperm : entries.Perm fps.dedup :=
    (List.perm_ext_iff_of_nodup (ascending_nodup h.ascending) fps.nodup_dedup).mpr fun fp => by
      rw [h.mem_iff, List.mem_dedup]
  by_contra hlarge
  have hlen := hperm.length_eq
  have hlast : entries.length - 1 < entries.length := by omega
  refine h.holds.find_last h.ascending (by omega) hlast ?_
  rw [h.find, Option.some.injEq, decide_eq_true_eq, ← h.mem_iff]
  exact List.getElem_mem hlast

/-- **When the key array is a set.** Exactly as long as at most 2^30 + 1 fingerprints are added. -/
theorem makesSet_iff (fps : List Fingerprint) :
    (∃ array results entries, MakesSet fps array results entries) ↔
      fps.dedup.length ≤ 2 ^ 30 + 1 := by
  constructor
  · rintro ⟨array, results, entries, h⟩
    exact h.length_le
  · intro hsmall
    have hrun : ∀ fps' : List Fingerprint, fps'.Perm fps →
        (fps'.foldl Onak.arrayAdd []).length ≤ 2 ^ 30 + 1 := by
      intro fps' hperm
      obtain ⟨hs, hmem⟩ := foldl_ascending fps' List.Pairwise.nil
      have hdedup : (fps'.foldl Onak.arrayAdd []).Perm fps.dedup :=
        (List.perm_ext_iff_of_nodup (ascending_nodup hs) fps.nodup_dedup).mpr fun fp => by
          rw [hmem, List.mem_dedup, hperm.mem_iff]
          simp
      rw [hdedup.length_eq]
      exact hsmall
    obtain ⟨array, results, hadds, hholds, hresults⟩ :=
      holds_empty.addAll_eq fps List.Pairwise.nil (hrun fps (List.Perm.refl _))
    obtain ⟨hs, hmem⟩ := foldl_ascending fps List.Pairwise.nil
    refine ⟨array, results, fps.foldl Onak.arrayAdd [], hadds, hholds.entries, hs, ?_, ?_,
      ⟨hholds.le, hholds.length⟩, ?_⟩
    · intro fp
      rw [hholds.entries.find_eq fp hs (hrun fps (List.Perm.refl _)), Option.some.injEq, Bool.eq_iff_iff]
      unfold Onak.arrayFind
      rw [find_iff hs, hmem, decide_eq_true_eq]
      simp
    · intro i fp hfp
      rw [hresults i fp hfp]
      simp
    · intro fps' hperm
      obtain ⟨array', results', hadds', hholds', -⟩ :=
        holds_empty.addAll_eq fps' List.Pairwise.nil (hrun fps' hperm)
      obtain ⟨hs', hmem'⟩ := foldl_ascending fps' List.Pairwise.nil
      have hsame : fps'.foldl Onak.arrayAdd [] = fps.foldl Onak.arrayAdd [] :=
        eq_of_mem_iff hs' hs fun fp => by rw [hmem', hmem, hperm.mem_iff]
      exact ⟨array', results', hadds', hsame ▸ hholds'.entries⟩

/-- The first fingerprints of 20 octets. -/
def manyFingerprints (n : Nat) : List Fingerprint := (List.range n).map (bigOctets 20)

theorem length_dedup_manyFingerprints {n : Nat} (hn : n < 256 ^ 20) :
    (manyFingerprints n).dedup.length = n := by
  have hnodup : (manyFingerprints n).Nodup := by
    refine List.Nodup.map_on (fun x hx y hy heq => ?_) List.nodup_range
    rw [List.mem_range] at hx hy
    rw [← beNat_bigOctets (n := 20) (v := x) (by omega), heq, beNat_bigOctets (by omega)]
  rw [hnodup.dedup, manyFingerprints, List.length_map, List.length_range]

/-- With 2^30 + 2 fingerprints of 20 octets it is no set. -/
theorem manyFingerprints_not_set :
    ¬ ∀ fps : List Fingerprint, ∃ array results entries, MakesSet fps array results entries := by
  intro hall
  obtain ⟨array, results, entries, h⟩ := hall (manyFingerprints (2 ^ 30 + 2))
  have hle := h.length_le
  rw [length_dedup_manyFingerprints (by norm_num)] at hle
  omega

end Onak
