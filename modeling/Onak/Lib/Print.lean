import Mathlib

/-!
# Texts and numbers as octets

What `printf` makes of numbers: decimal ones, with a sign where they are negative, and hexadecimal
ones with capital letters.
-/

namespace Print

/-- The octets of an ASCII text. -/
def ascii (s : String) : List UInt8 := s.toList.map Char.toUInt8

/-- `%u`. -/
def decimal (n : Nat) : List UInt8 := (Nat.toDigits 10 n).map Char.toUInt8

/-- `%d`. -/
def int (i : Int) : List UInt8 :=
  if i < 0 then '-'.toUInt8 :: decimal i.natAbs else decimal i.natAbs

/-- One digit of `%X`. -/
def hexDigit (n : Nat) : UInt8 := UInt8.ofNat (if n < 10 then 48 + n else 55 + n)

/-- `%02X`. -/
def hexOctet (c : UInt8) : List UInt8 := [hexDigit (c.toNat / 16), hexDigit (c.toNat % 16)]

/-- The last `width` digits of `%X`, with zeros in front. -/
def hex : Nat → Nat → List UInt8
  | 0, _ => []
  | width + 1, n => hex width (n / 16) ++ [hexDigit (n % 16)]

/-- A decimal digit. -/
def IsDigit (c : UInt8) : Prop := 48 ≤ c.toNat ∧ c.toNat ≤ 57

/-- A digit is the same as a character and as an octet. -/
theorem toNat_of_mem_toDigits {n : Nat} {d : Char} (h : d ∈ Nat.toDigits 10 n) :
    48 ≤ d.toNat ∧ d.toNat ≤ 57 ∧ d.toUInt8.toNat = d.toNat := by
  have hdigit := Nat.isDigit_of_mem_toDigits (by decide) (le_refl 10) h
  rw [Char.isDigit, Bool.and_eq_true, decide_eq_true_eq, decide_eq_true_eq] at hdigit
  have hlow : 48 ≤ d.val.toNat := UInt32.le_iff_toNat_le.mp hdigit.1
  have hhigh : d.val.toNat ≤ 57 := UInt32.le_iff_toNat_le.mp hdigit.2
  have hval : d.toUInt8.toNat = d.val.toNat := by
    rw [Char.toUInt8, UInt32.toNat_toUInt8]
    omega
  exact ⟨hlow, hhigh, hval⟩

theorem isDigit_of_mem_decimal {n : Nat} {c : UInt8} (h : c ∈ decimal n) : IsDigit c := by
  obtain ⟨d, hd, rfl⟩ := List.mem_map.mp h
  obtain ⟨hlow, hhigh, hval⟩ := toNat_of_mem_toDigits hd
  unfold IsDigit
  omega

/-- The digits of a number give the number. -/
theorem foldl_decimal (n : Nat) :
    (decimal n).foldl (fun n c => 10 * n + (c.toNat - 48)) 0 = n := by
  have hfold : ∀ (cs : List Char) (m : Nat), (∀ c ∈ cs, c.toUInt8.toNat = c.toNat) →
      (cs.map Char.toUInt8).foldl (fun n c => 10 * n + (c.toNat - 48)) m =
        Nat.ofDigitChars 10 cs m := by
    intro cs
    induction cs with
    | nil =>
      intro m _
      rfl
    | cons c cs ih =>
      intro m hcs
      rw [List.map_cons, List.foldl_cons, hcs c (by simp), Nat.ofDigitChars_cons,
        ih _ fun c hc => hcs c (List.mem_cons_of_mem _ hc)]
      rfl
  rw [decimal, hfold _ 0 fun c hc => (toNat_of_mem_toDigits hc).2.2, Nat.ofDigitChars_ten_toDigits]

theorem decimal_ne_nil (n : Nat) : decimal n ≠ [] := by
  unfold decimal
  rw [Ne, List.map_eq_nil_iff]
  exact List.ne_nil_of_length_pos Nat.length_toDigits_pos

theorem isDigit_of_mem_int {i : Int} {c : UInt8} (h : c ∈ int i) : c = '-'.toUInt8 ∨ IsDigit c := by
  unfold int at h
  split_ifs at h
  · rcases List.mem_cons.mp h with rfl | h
    · exact .inl rfl
    · exact .inr (isDigit_of_mem_decimal h)
  · exact .inr (isDigit_of_mem_decimal h)

/-- A hexadecimal digit, with capital letters. -/
def IsHexDigit (c : UInt8) : Prop := IsDigit c ∨ 65 ≤ c.toNat ∧ c.toNat ≤ 70

theorem isHexDigit_hexDigit {n : Nat} (h : n < 16) : IsHexDigit (hexDigit n) := by
  have hval : (hexDigit n).toNat = if n < 10 then 48 + n else 55 + n := by
    rw [hexDigit, UInt8.toNat_ofNat']
    split_ifs <;> omega
  unfold IsHexDigit IsDigit
  rw [hval]
  split_ifs <;> omega

theorem isHexDigit_of_mem_hexOctet {c d : UInt8} (h : d ∈ hexOctet c) : IsHexDigit d := by
  have hc := c.toNat_lt
  rcases List.mem_cons.mp h with rfl | h
  · exact isHexDigit_hexDigit (by omega)
  · obtain rfl := List.mem_singleton.mp h
    exact isHexDigit_hexDigit (by omega)

theorem isHexDigit_of_mem_hex {width n : Nat} {d : UInt8} (h : d ∈ hex width n) :
    IsHexDigit d := by
  induction width generalizing n with
  | zero => exact absurd h (by simp [hex])
  | succ width ih =>
    rcases List.mem_append.mp h with h | h
    · exact ih h
    · obtain rfl := List.mem_singleton.mp h
      exact isHexDigit_hexDigit (Nat.mod_lt n (by decide))

end Print
