import Onak.Lib.Source

/-!
# Octets cut up into sextets

Three octets make four sextets. `sextets` cuts up octets one by one, from any place in a group of
three; the last group is filled up with zero bits. The octets are put together again from the
sextets on both sides of their cuts.
-/

namespace Sextet

/-- The sextets that are still to come, `phase` octets into a group of which the last was `last`. -/
def sextets : Nat → UInt8 → List UInt8 → List UInt8
  | 0, _, [] => []
  | 0, _, c :: l => (c >>> 2) :: sextets 1 c l
  | 1, last, [] => [(last &&& 3) <<< 4]
  | 1, last, c :: l => (((last &&& 3) <<< 4) + (c >>> 4)) :: sextets 2 c l
  | _ + 2, last, [] => [(last &&& 0xF) <<< 2]
  | _ + 2, last, c :: l => (((last &&& 0xF) <<< 2) + (c >>> 6)) :: (c &&& 0x3F) :: sextets 0 c l

/-! ## The pieces as numbers -/

theorem toNat_and_three (c : UInt8) : (c &&& 3).toNat = c.toNat % 4 := by
  rw [UInt8.toNat_and]
  exact Nat.and_two_pow_sub_one_eq_mod c.toNat 2

theorem toNat_and_fifteen (c : UInt8) : (c &&& 0xF).toNat = c.toNat % 16 := by
  rw [UInt8.toNat_and]
  exact Nat.and_two_pow_sub_one_eq_mod c.toNat 4

theorem toNat_and_sixtythree (c : UInt8) : (c &&& 0x3F).toNat = c.toNat % 64 := by
  rw [UInt8.toNat_and]
  exact Nat.and_two_pow_sub_one_eq_mod c.toNat 6

theorem toNat_shiftLeft {k : UInt8} (hk : k.toNat < 8) (c : UInt8) :
    (c <<< k).toNat = c.toNat * 2 ^ k.toNat % 256 := by
  rw [UInt8.toNat_shiftLeft, Nat.mod_eq_of_lt hk, Nat.shiftLeft_eq]

theorem toNat_shiftRight {k : UInt8} (hk : k.toNat < 8) (c : UInt8) :
    (c >>> k).toNat = c.toNat / 2 ^ k.toNat := by
  rw [UInt8.toNat_shiftRight, Nat.mod_eq_of_lt hk, Nat.shiftRight_eq_div_pow]

theorem toNat_first (c : UInt8) : (c >>> 2).toNat = c.toNat / 4 :=
  toNat_shiftRight (by decide) c

theorem toNat_second (last c : UInt8) :
    (((last &&& 3) <<< 4) + (c >>> 4)).toNat = last.toNat % 4 * 16 + c.toNat / 16 := by
  have hc := c.toNat_lt
  rw [UInt8.toNat_add, toNat_shiftLeft (by decide), toNat_shiftRight (by decide), toNat_and_three]
  simp only [UInt8.reduceToNat]
  omega

theorem toNat_third (last c : UInt8) :
    (((last &&& 0xF) <<< 2) + (c >>> 6)).toNat = last.toNat % 16 * 4 + c.toNat / 64 := by
  have hc := c.toNat_lt
  rw [UInt8.toNat_add, toNat_shiftLeft (by decide), toNat_shiftRight (by decide),
    toNat_and_fifteen]
  simp only [UInt8.reduceToNat]
  omega

theorem toNat_second_end (last : UInt8) : ((last &&& 3) <<< 4).toNat = last.toNat % 4 * 16 := by
  rw [toNat_shiftLeft (by decide), toNat_and_three]
  simp only [UInt8.reduceToNat]
  omega

theorem toNat_third_end (last : UInt8) : ((last &&& 0xF) <<< 2).toNat = last.toNat % 16 * 4 := by
  rw [toNat_shiftLeft (by decide), toNat_and_fifteen]
  simp only [UInt8.reduceToNat]
  omega

/-! ## What is cut off an octet stands at the front of the sextets behind it -/

theorem sextets_one (last : UInt8) (l : List UInt8) :
    ∃ v vals, sextets 1 last l = v :: vals ∧ v.toNat / 16 = last.toNat % 4 ∧ v.toNat < 64 := by
  cases l with
  | nil =>
    refine ⟨_, [], rfl, ?_⟩
    rw [toNat_second_end]
    omega
  | cons c l =>
    refine ⟨_, _, rfl, ?_⟩
    have hc := c.toNat_lt
    rw [toNat_second]
    omega

theorem sextets_two (last : UInt8) (l : List UInt8) :
    ∃ v vals, sextets 2 last l = v :: vals ∧ v.toNat / 4 = last.toNat % 16 ∧ v.toNat < 64 := by
  cases l with
  | nil =>
    refine ⟨_, [], rfl, ?_⟩
    rw [toNat_third_end]
    omega
  | cons c l =>
    refine ⟨_, _, rfl, ?_⟩
    have hc := c.toNat_lt
    rw [toNat_third]
    omega

/-! ## Putting octets together -/

theorem join_first {c v : UInt8} (hv : v.toNat / 16 = c.toNat % 4) :
    ((c >>> 2) <<< 2) + (v >>> 4) = c := by
  have hc := c.toNat_lt
  apply UInt8.toNat_inj.mp
  rw [UInt8.toNat_add, toNat_shiftLeft (by decide), toNat_first, toNat_shiftRight (by decide)]
  simp only [UInt8.reduceToNat]
  omega

theorem join_second {last c v : UInt8} (hv : v.toNat / 4 = c.toNat % 16) :
    (((((last &&& 3) <<< 4) + (c >>> 4)) &&& 0xF) <<< 4) + (v >>> 2) = c := by
  have hc := c.toNat_lt
  apply UInt8.toNat_inj.mp
  rw [UInt8.toNat_add, toNat_shiftLeft (by decide), toNat_and_fifteen, toNat_second,
    toNat_shiftRight (by decide)]
  simp only [UInt8.reduceToNat]
  omega

theorem join_third (last c : UInt8) :
    (((((last &&& 0xF) <<< 2) + (c >>> 6)) &&& 3) <<< 6) + (c &&& 0x3F) = c := by
  have hc := c.toNat_lt
  apply UInt8.toNat_inj.mp
  rw [UInt8.toNat_add, toNat_shiftLeft (by decide), toNat_and_three, toNat_third,
    toNat_and_sixtythree]
  simp only [UInt8.reduceToNat]
  omega

/-! ## Sextets that are cut short -/

/-- A list with zeros behind it. -/
def pad (l : List UInt8) (i : Nat) : UInt8 := l.getD i 0

theorem pad_nil : pad [] = fun _ => 0 := by
  funext i
  simp [pad]

theorem pad_cons_zero (v : UInt8) (l : List UInt8) : pad (v :: l) 0 = v := rfl

theorem pad_cons_succ (v : UInt8) (l : List UInt8) (i : Nat) : pad (v :: l) (i + 1) = pad l i := rfl

/-- The octets that a stream of sextets comes to, `phase` octets into a group; within a group the
sextet `last` is taken already. -/
def joined : Nat → UInt8 → (Nat → UInt8) → Nat → UInt8
  | 0, _, g, 0 => (g 0 <<< 2) + (g 1 >>> 4)
  | 0, _, g, i + 1 => joined 1 (g 1) (fun j => g (j + 2)) i
  | 1, last, g, 0 => ((last &&& 0xF) <<< 4) + (g 0 >>> 2)
  | 1, _, g, i + 1 => joined 2 (g 0) (fun j => g (j + 1)) i
  | _ + 2, last, g, 0 => ((last &&& 3) <<< 6) + g 0
  | _ + 2, _, g, i + 1 => joined 0 (g 0) (fun j => g (j + 1)) i

theorem joined_zeros (phase i : Nat) : joined phase 0 (fun _ => 0) i = 0 := by
  induction i generalizing phase with
  | zero =>
    match phase with
    | 0 => rfl
    | 1 => rfl
    | _ + 2 => rfl
  | succ i ih =>
    match phase with
    | 0 => exact ih 1
    | 1 => exact ih 2
    | _ + 2 => exact ih 0

/-- The octets from some sextets of which the first is taken already, in the middle of a group. -/
def joinedBehind (phase : Nat) (vals : List UInt8) : Nat → UInt8 :=
  joined phase (pad vals 0) fun j => pad vals (j + 1)

theorem joinedBehind_nil (phase i : Nat) : joinedBehind phase [] i = 0 :=
  joined_zeros phase i

open Source

/-- The bits that fill up the second sextet come to a zero octet. -/
theorem second_end_zero (last : UInt8) :
    (((last &&& 3) <<< 4 &&& 0xF) <<< 4) + ((0 : UInt8) >>> 2) = 0 := by
  apply UInt8.toNat_inj.mp
  rw [UInt8.toNat_add, toNat_shiftLeft (by decide), toNat_shiftRight (by decide), toNat_and_fifteen,
    toNat_second_end]
  simp only [UInt8.reduceToNat]
  omega

/-- The bits that fill up the third sextet come to a zero octet. -/
theorem third_end_zero (last : UInt8) : (((last &&& 0xF) <<< 2 &&& 3) <<< 6) + 0 = 0 := by
  apply UInt8.toNat_inj.mp
  rw [UInt8.toNat_add, toNat_shiftLeft (by decide), toNat_and_three, toNat_third_end]
  simp only [UInt8.reduceToNat]
  omega

/-- A few of the sextets of some octets come to these octets, cut short. -/
theorem cutShort_joined (l : List UInt8) (k : Nat) :
    (∀ last v, CutShort 0 l (joined 0 v (pad ((sextets 0 last l).take k)))) ∧
      (∀ last, CutShort 0 l (joinedBehind 1 ((sextets 1 last l).take k))) ∧
      ∀ last, CutShort 0 l (joinedBehind 2 ((sextets 2 last l).take k)) := by
  induction l generalizing k with
  | nil =>
    refine ⟨fun last v => .all fun i => ?_, fun last => .all fun i => ?_,
      fun last => .all fun i => ?_⟩
    · have hnil : (sextets 0 last []).take k = [] := List.take_nil
      rw [hnil, pad_nil]
      cases i with
      | zero => rfl
      | succ i => exact joined_zeros 1 i
    · cases k with
      | zero => exact joinedBehind_nil 1 i
      | succ k =>
        have htake : (sextets 1 last []).take (k + 1) = [(last &&& 3) <<< 4] :=
          congrArg _ List.take_nil
        rw [htake]
        cases i with
        | zero =>
          exact second_end_zero last
        | succ i => exact joined_zeros 2 i
    · cases k with
      | zero => exact joinedBehind_nil 2 i
      | succ k =>
        have htake : (sextets 2 last []).take (k + 1) = [(last &&& 0xF) <<< 2] :=
          congrArg _ List.take_nil
        rw [htake]
        cases i with
        | zero =>
          exact third_end_zero last
        | succ i => exact joined_zeros 0 i
  | cons c l ih =>
    refine ⟨fun last v => ?_, fun last => ?_, fun last => ?_⟩
    · match k with
      | 0 => exact .cut fun i => joined_zeros 1 i
      | 1 => exact .cut fun i => joined_zeros 1 i
      | k + 2 =>
        obtain ⟨v, vals, hvals, hv, -⟩ := sextets_one c l
        have hrest := (ih (k + 1)).2.1 c
        rw [hvals] at hrest
        have htake : (sextets 0 last (c :: l)).take (k + 2) = (c >>> 2) :: v :: vals.take k := by
          show (c >>> 2) :: (sextets 1 c l).take (k + 1) = _
          rw [hvals, List.take_succ_cons]
        rw [htake]
        exact .next (join_first hv) hrest
    · match k with
      | 0 => exact .cut fun i => joined_zeros 2 i
      | 1 => exact .cut fun i => joined_zeros 2 i
      | k + 2 =>
        obtain ⟨v, vals, hvals, hv, -⟩ := sextets_two c l
        have hrest := (ih (k + 1)).2.2 c
        rw [hvals] at hrest
        have htake : (sextets 1 last (c :: l)).take (k + 2) =
            (((last &&& 3) <<< 4) + (c >>> 4)) :: v :: vals.take k := by
          show _ :: (sextets 2 c l).take (k + 1) = _
          rw [hvals, List.take_succ_cons]
        rw [htake]
        exact .next (join_second hv) hrest
    · match k with
      | 0 => exact .cut fun i => joined_zeros 0 i
      | 1 => exact .cut fun i => joined_zeros 0 i
      | k + 2 => exact .next (join_third last c) ((ih k).1 c _)

end Sextet
