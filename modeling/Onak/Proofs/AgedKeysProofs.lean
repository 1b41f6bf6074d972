import Onak.AgedKeys
import Onak.Proofs.CodecProofs

/-!
# Proofs: aged and expired keys

All arithmetic on times stays inside 64 bits, except where the age that was asked for takes it out.
-/

namespace Onak

open Conf (isspace isdigit)

/-! ## Times of a key -/

theorem ok_bind {α β : Type} (a : α) (f : α → Except Fault β) : (Except.ok a >>= f) = f a := rfl

theorem checked_of_inLong {n : Int} (h : InLong n) : checked n = .ok n := if_pos h

theorem checked_of_not_inLong {n : Int} (h : ¬ InLong n) : checked n = .error .overflow := if_neg h

theorem keyCreationTime_bounds (key : PublicKey) :
    0 ≤ keyCreationTime key ∧ keyCreationTime key < 2 ^ 32 := by
  unfold keyCreationTime
  split_ifs
  · decide
  · have hlt := beNat_lt ((key.publickey.data.drop 1).take 4)
    have hle : 256 ^ ((key.publickey.data.drop 1).take 4).length ≤ 256 ^ 4 :=
      Nat.pow_le_pow_right (by decide) (List.length_take_le _ _)
    omega

theorem beNat_readOctets_lt {data octets : List UInt8} {offset n : Nat}
    (h : readOctets data offset n = some octets) : beNat octets < 256 ^ n := by
  unfold readOctets at h
  split_ifs at h
  cases h
  exact (beNat_lt _).trans_le (Nat.pow_le_pow_right (by decide) (List.length_take_le _ _))

/-- An expiry offset has 32 bits. -/
theorem keyexpiryLoop_lt {data : List UInt8} {subLen fuel offset n : Nat}
    (h : keyexpiryLoop data subLen fuel offset = some n) : n < 2 ^ 32 := by
  induction fuel generalizing offset with
  | zero =>
    cases h
    decide
  | succ fuel ih =>
    by_cases hroom : offset + 2 < subLen
    · simp only [keyexpiryLoop, hroom, not_true_eq_false, if_false, Option.bind_eq_bind,
        Option.pure_def, Option.bind_eq_some_iff] at h
      obtain ⟨header, -, h⟩ := h
      cases header with
      | none =>
        cases h
        decide
      | some header =>
        simp only [] at h
        split_ifs at h with hbad
        · cases h
          decide
        · obtain ⟨type, -, h⟩ := Option.bind_eq_some_iff.mp h
          split_ifs at h
          · obtain ⟨octets, hread, h⟩ := Option.bind_eq_some_iff.mp h
            cases h
            exact beNat_readOctets_lt hread
          · exact ih h
    · simp only [keyexpiryLoop, hroom, not_false_eq_true, if_true] at h
      cases h
      decide

theorem findKeyexpiryInSig_lt {sig : Packet} {n : Nat} (h : findKeyexpiryInSig sig = some n) :
    n < 2 ^ 32 := by
  have hzero {n : Nat} (h : some 0 = some n) : n < 2 ^ 32 := by
    cases h
    decide
  unfold findKeyexpiryInSig at h
  simp only [Option.bind_eq_bind, Option.pure_def] at h
  by_cases hshort : sig.length < 6
  · rw [if_pos hshort] at h
    exact hzero h
  · rw [if_neg hshort] at h
    obtain ⟨version, -, h⟩ := Option.bind_eq_some_iff.mp h
    have harea : ¬ sig.length - 4 < 2 := by omega
    rw [if_neg harea] at h
    split_ifs at h
    · exact hzero h
    · obtain ⟨octets, -, h⟩ := Option.bind_eq_some_iff.mp h
      split_ifs at h
      · exact hzero h
      · exact keyexpiryLoop_lt h

/-- No time that a key expires at overflows. -/
theorem laterExpiry_ne_overflow {creation : Int} (hcreation : 0 ≤ creation ∧ creation < 2 ^ 32)
    (latest : Int) (sig : Packet) : laterExpiry creation latest sig ≠ .error .overflow := by
  unfold laterExpiry
  cases hoffset : findKeyexpiryInSig sig with
  | none =>
    intro h
    cases h
  | some offset =>
    have hlt := findKeyexpiryInSig_lt hoffset
    have hin : InLong (creation + offset) := by
      constructor <;> omega
    simp only [inside, checked_of_inLong hin, bind, Except.bind, pure, Except.pure]
    split_ifs <;> simp

theorem foldlM_ne_error {α β : Type} {f : β → α → Except Fault β} {fault : Fault}
    (hf : ∀ b a, f b a ≠ .error fault) (l : List α) (init : β) :
    l.foldlM f init ≠ .error fault := by
  induction l generalizing init with
  | nil => simp [pure, Except.pure]
  | cons a l ih =>
    rw [List.foldlM_cons]
    cases hstep : f init a with
    | error other =>
      have hother := hf init a
      rw [hstep] at hother
      exact hother
    | ok b => exact ih b

theorem keyExpirationTime_ne_overflow (key : PublicKey) :
    keyExpirationTime key ≠ .error .overflow := by
  have hcreation := keyCreationTime_bounds key
  have huids := foldlM_ne_error
    (fun latest (uid : SignedPacket) => foldlM_ne_error
      (laterExpiry_ne_overflow hcreation) uid.sigs latest) key.uids 0
  have hok {n : Int} : (pure n : Except Fault Int) ≠ .error .overflow := fun h => by cases h
  unfold keyExpirationTime
  by_cases hshort : key.publickey.length < 5
  · rw [if_pos hshort]
    exact hok
  rw [if_neg hshort]
  by_cases hnone : keyCreationTime key = 0
  · simp only [hnone, if_true]
    exact hok
  simp only [hnone, if_false]
  cases key.publickey.data[0]? with
  | none =>
    intro h
    cases h
  | some version =>
    simp only [inside, ok_bind]
    by_cases hold : version = 2 ∨ version = 3
    · rw [if_pos hold]
      by_cases hdays : key.publickey.length < 7
      · rw [if_pos hdays]
        exact hok
      rw [if_neg hdays]
      cases hread : readOctets key.publickey.data 5 2 with
      | none =>
        intro h
        cases h
      | some octets =>
        have hlt := beNat_readOctets_lt hread
        have hmul : InLong ((beNat octets : Int) * 86400) := by
          constructor <;> omega
        have hadd : InLong (keyCreationTime key + (beNat octets : Int) * 86400) := by
          constructor <;> omega
        simp only [ok_bind, checked_of_inLong hmul, checked_of_inLong hadd]
        split_ifs
        · exact hok
        · intro h
          cases h
    · rw [if_neg hold]
      exact huids

/-! ## Age strings -/

/-- A number in decimal digits, of any size. -/
structure DecimalString where
  digits : List UInt8
  ne_nil : digits ≠ []
  isdigit_of_mem : ∀ c ∈ digits, isdigit c = true

/-- The number. -/
def DecimalString.value (n : DecimalString) : Nat := decimalNumber n.digits

/-- The units of an age. -/
inductive AgeUnit where
  | none
  | y
  | d
  | h
  | s
deriving DecidableEq

/-- How a unit is written. -/
def AgeUnit.text : AgeUnit → List UInt8
  | .none => []
  | .y => ['y'.toUInt8]
  | .d => ['d'.toUInt8]
  | .h => ['h'.toUInt8]
  | .s => ['s'.toUInt8]

/-- The seconds of a unit. -/
def AgeUnit.seconds : AgeUnit → Nat
  | .none => 365 * 86400
  | .y => 365 * 86400
  | .d => 86400
  | .h => 3600
  | .s => 1

theorem isdigit_range {c : UInt8} (h : isdigit c = true) :
    isspace c = false ∧ c ≠ '-'.toUInt8 ∧ c ≠ '+'.toUInt8 := by
  have hall : ∀ k : Fin 256, isdigit (UInt8.ofFin k) = true →
      isspace (UInt8.ofFin k) = false ∧ UInt8.ofFin k ≠ '-'.toUInt8 ∧
        UInt8.ofFin k ≠ '+'.toUInt8 := by
    decide +kernel
  exact hall c.toFin h

/-- `strtol` reads the digits, and ends at the unit. -/
theorem strtol_eq (n : DecimalString) (unit : AgeUnit) :
    strtol (n.digits ++ unit.text) = (min (n.value : Int) (2 ^ 63 - 1), unit.text) := by
  obtain ⟨digits, hne, hdigits⟩ := n
  obtain ⟨c, cs, rfl⟩ := List.exists_cons_of_ne_nil hne
  obtain ⟨hspace, hminus, hplus⟩ := isdigit_range (hdigits c List.mem_cons_self)
  have htext : unit.text.takeWhile isdigit = [] := by
    cases unit <;> decide +kernel
  have htake : (c :: cs ++ unit.text).takeWhile isdigit = c :: cs := by
    rw [List.takeWhile_append_of_pos hdigits, htext, List.append_nil]
  have hdrop : (c :: cs ++ unit.text).dropWhile isdigit = unit.text := by
    have hsplit := List.takeWhile_append_dropWhile (p := isdigit) (l := c :: cs ++ unit.text)
    rw [htake] at hsplit
    exact List.append_cancel_left hsplit
  have hfront : ((c :: cs) ++ unit.text).dropWhile isspace = (c :: cs) ++ unit.text := by
    rw [List.cons_append, List.dropWhile_cons, hspace, if_neg Bool.false_ne_true]
  have hsign : ((c :: cs) ++ unit.text).getD 0 0 = c := rfl
  unfold strtol
  simp only [hfront, hsign, hminus, hplus, or_self, if_false, htake, hdrop,
    List.cons_ne_nil, DecimalString.value]

/-- A year is multiplied in two steps, of which the second overflows if the first one does. -/
theorem checked_year {val : Int} (h : 0 ≤ val) :
    (checked (val * 365) >>= fun days => checked (days * 86400)) =
      checked (val * (365 * 86400 : Nat)) := by
  have hassoc : val * 365 * 86400 = val * (365 * 86400 : Nat) := by
    push_cast
    ring
  by_cases hin : InLong (val * 365)
  · rw [checked_of_inLong hin, ok_bind, hassoc]
  · have hout : ¬ InLong (val * (365 * 86400 : Nat)) := by
      rw [← hassoc]
      intro hin'
      omega
    rw [checked_of_not_inLong hin, checked_of_not_inLong hout]
    rfl

/-- The age that a string asks for, unless it overflows. -/
theorem parseAgeString_eq (n : DecimalString) (unit : AgeUnit) :
    parseAgeString (some (n.digits ++ unit.text)) =
      if n.value = 0 then .ok 0
      else checked (min (n.value : Int) (2 ^ 63 - 1) * unit.seconds) := by
  have hne : n.digits ++ unit.text ≠ [] := List.append_ne_nil_of_left_ne_nil n.ne_nil _
  have hlen : unit.text.length ≠ (n.digits ++ unit.text).length := by
    have hpos := List.length_pos_of_ne_nil n.ne_nil
    rw [List.length_append]
    omega
  simp only [parseAgeString, strtol_eq, hne, if_false, hlen, or_false]
  obtain ⟨val, hval⟩ : ∃ val, val = min (n.value : Int) (2 ^ 63 - 1) := ⟨_, rfl⟩
  rw [← hval]
  by_cases hzero : n.value = 0
  · have hnone : val ≤ 0 := by omega
    rw [if_pos hnone, if_pos hzero]
  · have hpos : ¬ val ≤ 0 := by omega
    have hin : InLong val := by
      constructor <;> omega
    rw [if_neg hzero, if_neg hpos]
    cases unit with
    | none => exact checked_year (by omega)
    | y => exact checked_year (by omega)
    | d => rfl
    | h => rfl
    | s =>
      have hone : val * (AgeUnit.s.seconds : Nat) = val := Int.mul_one val
      rw [hone, checked_of_inLong hin]
      rfl

/-! ## Selecting by age -/

/-- A selection that computes without overflow, and selects only where it is right. -/
def SelectsSafely (result : Except Fault Bool) (right : Prop) : Prop :=
  result ≠ .error .overflow ∧ (result = .ok true → right)

theorem selectsSafely_true {right : Prop} (h : right) : SelectsSafely (.ok true) right :=
  ⟨nofun, fun _ => h⟩

theorem selectsSafely_false (right : Prop) : SelectsSafely (.ok false) right :=
  ⟨nofun, nofun⟩

theorem not_selectsSafely_overflow (right : Prop) : ¬ SelectsSafely (.error .overflow) right :=
  fun h => h.1 rfl

/-- The key has an expiration time that is past. -/
def ExpiredBefore (key : PublicKey) (now : Int) : Prop :=
  ∃ expiration, keyExpirationTime key = .ok expiration ∧ expiration ≠ 0 ∧ expiration < now

/-- With an age string for this age: no arithmetic overflows, and a key is only selected when it is
older than that or has expired. -/
def AgesSafely (key : PublicKey) (now : Int) (s : List UInt8) (age : Int) : Prop :=
  SelectsSafely (parseAgeString (some s) >>= keyIsAgedOrExpired key now)
    (keyCreationTime key + age < now ∨ ExpiredBefore key now)

/-- What is behind the test of the age. -/
theorem expired_safe (key : PublicKey) (now : Int) :
    SelectsSafely (keyExpirationTime key >>= fun expiration =>
      pure (decide (expiration ≠ 0 ∧ expiration < now))) (ExpiredBefore key now) := by
  have hno := keyExpirationTime_ne_overflow key
  unfold ExpiredBefore
  cases hexp : keyExpirationTime key with
  | error fault =>
    rw [hexp] at hno
    constructor
    · intro h
      cases h
      exact hno rfl
    · intro h
      cases h
  | ok expiration =>
    rw [ok_bind]
    constructor
    · intro h
      cases h
    · intro h
      exact ⟨expiration, rfl, of_decide_eq_true (Except.ok.inj h)⟩

/-- An age that does not take the creation time out of a `time_t`. -/
theorem keyIsAgedOrExpired_safe (key : PublicKey) (now : Int) {maxAge : Int} (hage : 0 ≤ maxAge)
    (h : keyCreationTime key + maxAge < 2 ^ 63) :
    SelectsSafely (keyIsAgedOrExpired key now maxAge)
      (keyCreationTime key + maxAge < now ∨ ExpiredBefore key now) := by
  have hcreation := keyCreationTime_bounds key
  have hin : InLong (keyCreationTime key + maxAge) := by
    constructor <;> omega
  have hexpired : SelectsSafely _ (keyCreationTime key + maxAge < now ∨ ExpiredBefore key now) :=
    (expired_safe key now).imp_right fun hright hsel => .inr (hright hsel)
  unfold keyIsAgedOrExpired
  simp only [checked_of_inLong hin, ok_bind]
  split_ifs with hnone hpos hold
  · exact selectsSafely_false _
  · exact selectsSafely_true (.inl hold)
  · exact hexpired
  · exact hexpired

/-- An age that does. -/
theorem keyIsAgedOrExpired_overflow {key : PublicKey} (now : Int) {maxAge : Int}
    (hcreation : keyCreationTime key ≠ 0) (h : 2 ^ 63 ≤ keyCreationTime key + maxAge) :
    keyIsAgedOrExpired key now maxAge = .error .overflow := by
  have hbounds := keyCreationTime_bounds key
  have hpos : 0 < maxAge := by omega
  have hout : ¬ InLong (keyCreationTime key + maxAge) := fun hin => by omega
  unfold keyIsAgedOrExpired
  simp only [checked_of_not_inLong hout, hcreation, if_false, hpos, if_true]
  rfl

/-- **When ageing is safe.** For every key with a creation time, every current time and every age string
of a number and a unit: no signed arithmetic overflows and the key is selected only if it is older than
that or has expired, if and only if the creation time and the age together are less than `2 ^ 63`. -/
theorem agesSafely_iff (key : PublicKey) (hcreation : keyCreationTime key ≠ 0) (now : Int)
    (n : DecimalString) (unit : AgeUnit) :
    AgesSafely key now (n.digits ++ unit.text) (n.value * unit.seconds) ↔
      keyCreationTime key + n.value * unit.seconds < 2 ^ 63 := by
  have hbounds := keyCreationTime_bounds key
  unfold AgesSafely
  rw [parseAgeString_eq]
  by_cases hzero : n.value = 0
  · have hsafe := keyIsAgedOrExpired_safe key now le_rfl (by omega)
    simp only [hzero, if_true, ok_bind, Nat.cast_zero, Int.zero_mul]
    exact iff_of_true hsafe (by omega)
  rw [if_neg hzero]
  -- the number that `strtol` gives is the number, or already too large
  obtain ⟨val, hval⟩ : ∃ val, val = min (n.value : Int) (2 ^ 63 - 1) := ⟨_, rfl⟩
  rw [← hval]
  have hunit : (1 : Int) ≤ unit.seconds := by
    cases unit <;> decide
  have hle : val * unit.seconds ≤ n.value * unit.seconds :=
    Int.mul_le_mul_of_nonneg_right (by omega) (by omega)
  have hpos : 0 ≤ val * unit.seconds := Int.mul_nonneg (by omega) (by omega)
  by_cases hfits : keyCreationTime key + val * unit.seconds < 2 ^ 63
  · have hsame : val = n.value := by
      by_contra hne
      have hmax : val = 2 ^ 63 - 1 := by omega
      have hge : val * 1 ≤ val * unit.seconds := Int.mul_le_mul_of_nonneg_left hunit (by omega)
      omega
    have hin : InLong (val * unit.seconds) := by
      constructor <;> omega
    rw [checked_of_inLong hin, ok_bind, ← hsame]
    exact iff_of_true (keyIsAgedOrExpired_safe key now hpos hfits) hfits
  · have hover : (checked (val * unit.seconds) >>= keyIsAgedOrExpired key now) =
        .error .overflow := by
      by_cases hin : InLong (val * unit.seconds)
      · rw [checked_of_inLong hin, ok_bind]
        exact keyIsAgedOrExpired_overflow now hcreation (by omega)
      · rw [checked_of_not_inLong hin]
        rfl
    rw [hover]
    exact iff_of_false (not_selectsSafely_overflow _) (by omega)

/-- A key that was created at 1. -/
def agedKey : PublicKey := ⟨⟨tagPublickey, true, [4, 0, 0, 0, 1]⟩, false, [], [], []⟩

/-- Ten, in digits. -/
def ten : DecimalString := ⟨Print.ascii "10", by decide, by decide +kernel⟩

theorem agesSafely_sample :
    AgesSafely agedKey 1000000000 (ten.digits ++ AgeUnit.y.text) (ten.value * AgeUnit.y.seconds) :=
  (agesSafely_iff agedKey (by decide) 1000000000 ten .y).mpr (by decide)

/-- More years than a `time_t` has. -/
def manyYears : DecimalString := ⟨Print.ascii "584942417356", by decide, by decide +kernel⟩

theorem agesSafely_many_years :
    ¬ AgesSafely agedKey 1000000000 (manyYears.digits ++ AgeUnit.y.text)
      (manyYears.value * AgeUnit.y.seconds) := by
  have hrun : (parseAgeString (some (manyYears.digits ++ AgeUnit.y.text)) >>=
      keyIsAgedOrExpired agedKey 1000000000) = .error .overflow := by
    decide +kernel
  exact fun h => h.1 hrun

end Onak
