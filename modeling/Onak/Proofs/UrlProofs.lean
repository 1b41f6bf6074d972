import Onak.Proofs.ConfigLinesProofs
import Onak.Proofs.WordScanProofs
import Onak.Url

/-!
# Proofs: escapes in query strings

What was read is followed by what is still to be read, and `left` is the length of that. So a percent
sign with one character behind it still has two left, the percent sign itself among them: it is taken for
an escape, and the scan goes on behind the terminator.
-/

namespace Onak.Url

open Conf (hexValue)
open KeySlots (InInt toInt)

/-! ## Escapes -/

/-- The two characters of an escape denote an octet, as far as they are hexadecimal digits. -/
def Denotes (c d octet : UInt8) : Prop :=
  ∀ high low, hexValue c = some high → hexValue d = some low → octet.toNat = 16 * high + low

/-- A string, and what it is without its escapes: percent signs with two more characters behind them. -/
inductive Unescapes : List UInt8 → List UInt8 → Prop
  | nil : Unescapes [] []
  | escape {c d octet : UInt8} {rest text : List UInt8} :
      Denotes c d octet → Unescapes rest text → Unescapes (percent :: c :: d :: rest) (octet :: text)
  | keep {c : UInt8} {rest text : List UInt8} :
      (c = percent → rest.length < 2) → Unescapes rest text → Unescapes (c :: rest) (c :: text)

/-- The scan comes to a percent sign with one character behind it. -/
inductive CutEscape : List UInt8 → Prop
  | cut (c : UInt8) : CutEscape [percent, c]
  | escape (c d : UInt8) {rest : List UInt8} : CutEscape rest → CutEscape (percent :: c :: d :: rest)
  | keep {c : UInt8} {rest : List UInt8} : c ≠ percent → CutEscape rest → CutEscape (c :: rest)

theorem x2cDigit_eq {c : UInt8} {n : Nat} (h : hexValue c = some n) : x2cDigit c = UInt8.ofNat n := by
  have hall : ∀ k : Fin 256, (hexValue (UInt8.ofFin k)).all
      fun n => x2cDigit (UInt8.ofFin k) == UInt8.ofNat n := by
    decide +kernel
  have hc := hall c.toFin
  rw [UInt8.ofFin_toFin, h] at hc
  simpa using hc

theorem denotes_x2c (c d : UInt8) : Denotes c d (x2c c d) := by
  intro high low hhigh hlow
  obtain ⟨hh, -⟩ := Conf.hex2bin_eq hhigh
  obtain ⟨hl, -⟩ := Conf.hex2bin_eq hlow
  rw [x2c, x2cDigit_eq hhigh, x2cDigit_eq hlow, UInt8.toNat_add, UInt8.toNat_mul, UInt8.toNat_ofNat',
    UInt8.toNat_ofNat']
  show (high % 256 * 16 % 256 + low % 256) % 256 = 16 * high + low
  omega

theorem unescapeLoop_keep {c : UInt8} (hc : c ≠ percent) (rest : List UInt8) :
    Onak.unescapeLoop (c :: rest) = (Onak.unescapeLoop rest).map (c :: ·) := by
  rw [Onak.unescapeLoop.eq_def]
  exact if_neg hc

theorem unescapeLoop_escape (c d : UInt8) (rest : List UInt8) :
    Onak.unescapeLoop (percent :: c :: d :: rest) = (Onak.unescapeLoop rest).map (x2c c d :: ·) := by
  rw [Onak.unescapeLoop, if_pos rfl]

theorem unescapes_unescapeLoop {s t : List UInt8} (h : Onak.unescapeLoop s = some t) :
    Unescapes s t := by
  induction s using Onak.unescapeLoop.induct generalizing t with
  | case1 =>
    cases h
    exact .nil
  | case2 =>
    cases h
    exact .keep (fun _ => Nat.zero_lt_two) .nil
  | case3 c => cases h
  | case4 c d rest ih =>
    rw [unescapeLoop_escape] at h
    obtain ⟨text, htext, rfl⟩ := Option.map_eq_some_iff.mp h
    exact .escape (denotes_x2c c d) (ih htext)
  | case5 c rest hc ih =>
    rw [unescapeLoop_keep hc] at h
    obtain ⟨text, htext, rfl⟩ := Option.map_eq_some_iff.mp h
    exact .keep (fun hpercent => absurd hpercent hc) (ih htext)

theorem cutEscape_iff {s : List UInt8} : CutEscape s ↔ Onak.unescapeLoop s = none := by
  constructor
  · intro h
    induction h with
    | cut c => rfl
    | escape c d _ ih => rw [unescapeLoop_escape, ih, Option.map_none]
    | keep hc _ ih => rw [unescapeLoop_keep hc, ih, Option.map_none]
  · intro h
    induction s using Onak.unescapeLoop.induct with
    | case1 => cases h
    | case2 => cases h
    | case3 c => exact .cut c
    | case4 c d rest ih =>
      rw [unescapeLoop_escape, Option.map_eq_none_iff] at h
      exact .escape c d (ih h)
    | case5 c rest hc ih =>
      rw [unescapeLoop_keep hc, Option.map_eq_none_iff] at h
      exact .keep hc (ih h)

theorem length_le_of_unescapes {s t : List UInt8} (h : Unescapes s t) : t.length ≤ s.length := by
  induction h with
  | nil => exact le_rfl
  | escape _ _ ih =>
    simp only [List.length_cons]
    omega
  | keep _ _ ih =>
    simp only [List.length_cons]
    omega

/-! ## The loop -/

theorem guard_then {α : Type} {p : Prop} [Decidable p] (h : p) (next : Option α) :
    (do guard p; next) = next := by
  rw [(Option.guard_eq_some' ()).mpr h]
  rfl

theorem of_guard_then {α : Type} {p : Prop} [Decidable p] {next : Option α} {r : α}
    (h : (do guard p; next) = some r) : p ∧ next = some r := by
  obtain ⟨u, hguard, hnext⟩ := Option.bind_eq_some_iff.mp h
  exact ⟨(Option.guard_eq_some' u).mp hguard, hnext⟩

theorem some_then {α β : Type} (x : α) (next : α → Option β) : (some x >>= next) = next x :=
  rfl

theorem set_behind {done tail : List UInt8} (h : tail ≠ []) (x : UInt8) :
    (done ++ tail).set done.length x = done ++ x :: tail.tail := by
  obtain ⟨y, tail, rfl⟩ := List.exists_cons_of_ne_nil h
  simp

/-- The octets between what is written and what is still to be read, after a character was read. -/
theorem tail_gap (gap : List UInt8) (c : UInt8) (rest : List UInt8) :
    (gap ++ c :: rest).tail = (gap ++ [c]).tail ++ rest := by
  cases gap <;> simp

theorem length_tail_gap (gap : List UInt8) (c : UInt8) : (gap ++ [c]).tail.length = gap.length := by
  simp

/-- A round of the loop, with what is written in `done` and what is to be read in `c :: rest`. -/
def unescapeRound (done gap : List UInt8) (c : UInt8) (rest : List UInt8) (left : Int) :
    Option (List UInt8 × Nat) :=
  if c = percent ∧ 2 ≤ left then do
    let d ← rest[0]?
    let e ← rest[1]?
    guard (InInt (↑(done.length + gap.length) + 3) ∧ InInt (left - 3))
    unescapeLoop (done ++ x2c d e :: ((gap ++ [c]).tail ++ rest)) (done.length + 1)
      (done.length + gap.length + 3) (left - 3)
  else do
    guard (InInt (↑(done.length + gap.length) + 1) ∧ InInt (left - 1))
    unescapeLoop (done ++ c :: ((gap ++ [c]).tail ++ rest)) (done.length + 1)
      (done.length + gap.length + 1) (left - 1)

theorem unescapeLoop_cons (done gap : List UInt8) {c : UInt8} (hc : c ≠ 0) (rest : List UInt8)
    (left : Int) :
    unescapeLoop (done ++ (gap ++ c :: rest)) done.length (done.length + gap.length) left =
      unescapeRound done gap c rest left := by
  have hread : (done ++ (gap ++ c :: rest))[done.length + gap.length]? = some c := by
    simp
  have hwrite (x : UInt8) : (done ++ (gap ++ c :: rest)).set done.length x =
      done ++ x :: ((gap ++ [c]).tail ++ rest) := by
    rw [set_behind (by simp), tail_gap]
  have hnext (k : Nat) :
      (done ++ c :: ((gap ++ [c]).tail ++ rest))[done.length + gap.length + (k + 1)]? = rest[k]? := by
    rw [List.getElem?_append_right (by omega), Nat.add_assoc, Nat.add_sub_cancel_left, ← Nat.add_assoc,
      List.getElem?_cons_succ, List.getElem?_append_right (by rw [length_tail_gap]; omega),
      length_tail_gap, Nat.add_sub_cancel_left]
  have hover (x : UInt8) : (done ++ c :: ((gap ++ [c]).tail ++ rest)).set done.length x =
      done ++ x :: ((gap ++ [c]).tail ++ rest) := by
    rw [set_behind (List.cons_ne_nil _ _), List.tail_cons]
  have hroom : done.length < (done ++ (gap ++ c :: rest)).length := by
    simp only [List.length_append, List.length_cons]
    omega
  rw [unescapeLoop]
  split
  · next hnone =>
    rw [hread] at hnone
    cases hnone
  · next c' hc' =>
    obtain rfl := Option.some.inj (hread.symm.trans hc')
    simp only [if_neg hc, hroom, guard_true, hwrite, hover]
    rw [hnext 0, hnext 1]
    rfl

/-- The loop in its middle: `done` is written, `rest` is still to be read. -/
def scanFrom (done gap rest : List UInt8) : Option (List UInt8 × Nat) :=
  unescapeLoop (done ++ (gap ++ (rest ++ [0]))) done.length (done.length + gap.length) rest.length

theorem scanFrom_nil (done gap : List UInt8) :
    scanFrom done gap [] = some (done ++ (gap ++ [0]), done.length) := by
  have hread : (done ++ (gap ++ [0]))[done.length + gap.length]? = some (0 : UInt8) := by
    simp
  rw [scanFrom, unescapeLoop, List.nil_append]
  split
  · next hnone =>
    rw [hread] at hnone
    cases hnone
  · next c hc =>
    obtain rfl := Option.some.inj (hread.symm.trans hc)
    exact if_pos rfl

/-- A character which is kept. -/
theorem scanFrom_keep {c : UInt8} {rest : List UInt8} (hc : c ≠ 0) (hkeep : c = percent → rest = [])
    {done gap : List UInt8} (hlen : done.length + gap.length + (c :: rest).length < 2 ^ 31) :
    scanFrom done gap (c :: rest) = scanFrom (done ++ [c]) (gap ++ [c]).tail rest := by
  have hshort : ¬ (c = percent ∧ (2 : Int) ≤ ↑(c :: rest).length) := by
    rintro ⟨hpercent, hleft⟩
    rw [hkeep hpercent, List.length_singleton] at hleft
    omega
  rw [List.length_cons] at hlen
  have hint : InInt (↑(done.length + gap.length) + 1) ∧ InInt (↑(c :: rest).length - 1) := by
    rw [List.length_cons]
    refine ⟨⟨?_, ?_⟩, ?_, ?_⟩ <;> omega
  have hleft : (↑(c :: rest).length - 1 : Int) = ↑rest.length := by
    rw [List.length_cons]
    omega
  rw [scanFrom, List.cons_append, unescapeLoop_cons done gap hc, unescapeRound, if_neg hshort,
    guard_then hint, hleft, scanFrom, List.length_append, List.length_singleton, length_tail_gap,
    Nat.add_right_comm, List.append_assoc]
  rfl

/-- An escape. -/
theorem scanFrom_escape (d e : UInt8) {rest done gap : List UInt8}
    (hlen : done.length + gap.length + (percent :: d :: e :: rest).length < 2 ^ 31) :
    scanFrom done gap (percent :: d :: e :: rest) =
      scanFrom (done ++ [x2c d e]) ((gap ++ [percent]).tail ++ [d, e]) rest := by
  simp only [List.length_cons] at hlen
  have hround : percent = percent ∧ (2 : Int) ≤ ↑(percent :: d :: e :: rest).length := by
    simp only [List.length_cons, true_and]
    omega
  have hleft : (↑(percent :: d :: e :: rest).length - 3 : Int) = ↑rest.length := by
    simp only [List.length_cons]
    omega
  have hint : InInt (↑(done.length + gap.length) + 3) ∧ InInt (rest.length : Int) := by
    refine ⟨⟨?_, ?_⟩, ?_, ?_⟩ <;> omega
  have hread : done.length + gap.length + 3 =
      (done ++ [x2c d e]).length + ((gap ++ [percent]).tail ++ [d, e]).length := by
    simp only [List.length_append, length_tail_gap, List.length_cons, List.length_nil]
    omega
  have hdone : (done ++ [x2c d e]).length = done.length + 1 := by
    rw [List.length_append, List.length_singleton]
  rw [scanFrom, List.cons_append, unescapeLoop_cons done gap (by decide), unescapeRound, if_pos hround,
    hleft]
  rw [List.cons_append, List.cons_append, List.getElem?_cons_zero, List.getElem?_cons_succ,
    List.getElem?_cons_zero, some_then, some_then, guard_then hint, hread, scanFrom, List.append_assoc,
    List.append_assoc, hdone, List.singleton_append, List.cons_append, List.cons_append, List.nil_append]

theorem unescapeLoop_outside {url : List UInt8} {j : Nat} (h : url.length ≤ j) (i : Nat) (left : Int) :
    unescapeLoop url i j left = none := by
  rw [unescapeLoop]
  split
  · rfl
  · next c hc =>
    rw [List.getElem?_eq_none h] at hc
    cases hc

/-- The scan goes on behind the terminator. -/
theorem scanFrom_cut (done gap : List UInt8) (d : UInt8) : scanFrom done gap [percent, d] = none := by
  have hround : percent = percent ∧ (2 : Int) ≤ ↑[percent, d].length := by
    simp only [List.length_cons, List.length_nil, true_and]
    omega
  rw [scanFrom, List.cons_append, unescapeLoop_cons done gap (by decide), unescapeRound, if_pos hround]
  rw [List.cons_append, List.getElem?_cons_zero, List.getElem?_cons_succ, List.nil_append,
    List.getElem?_cons_zero, some_then, some_then, unescapeLoop_outside (by
      simp only [List.length_append, List.length_cons, List.length_nil, length_tail_gap]
      omega)]
  exact Option.bind_fun_none _

/-- The buffer in the end, and where the terminator is put. -/
def scanned (done gap rest t : List UInt8) : List UInt8 × Nat :=
  (done ++ t ++ (gap ++ (rest ++ [0])).drop t.length, (done ++ t).length)

theorem scanned_nil (done gap : List UInt8) :
    scanned done gap [] [] = (done ++ (gap ++ [0]), done.length) := by
  simp [scanned]

theorem scanned_cons {done gap gap' rest rest' : List UInt8} (x : UInt8)
    (hgap : (gap ++ (rest ++ [0])).tail = gap' ++ (rest' ++ [0])) (t : List UInt8) :
    scanned (done ++ [x]) gap' rest' t = scanned done gap rest (x :: t) := by
  rw [scanned, scanned, List.append_cons done x t, List.length_cons, ← hgap, List.drop_tail]

/-- **The loop on the buffer does what the one on the characters does.** -/
theorem scanFrom_eq {rest : List UInt8} (h0 : 0 ∉ rest) :
    ∀ done gap : List UInt8, done.length + gap.length + rest.length < 2 ^ 31 →
      scanFrom done gap rest = (Onak.unescapeLoop rest).map (scanned done gap rest) := by
  induction rest using Onak.unescapeLoop.induct with
  | case1 =>
    intro done gap _
    rw [scanFrom_nil, Onak.unescapeLoop, Option.map_some, scanned_nil]
  | case2 =>
    intro done gap hlen
    have hscanned : scanned (done ++ [percent]) (gap ++ [percent]).tail [] [] =
        scanned done gap [percent] [percent] :=
      scanned_cons percent (tail_gap gap percent [0]) []
    rw [scanFrom_keep (by decide) (fun _ => rfl) hlen, scanFrom_nil, ← scanned_nil, hscanned]
    rfl
  | case3 d =>
    intro done gap _
    rw [cutEscape_iff.mp (.cut d), Option.map_none]
    exact scanFrom_cut done gap d
  | case4 d e rest ih =>
    intro done gap hlen
    rw [scanFrom_escape d e hlen, ih (fun h => h0 (by simp [h])), unescapeLoop_escape, Option.map_map]
    · congr 1
      funext t
      exact scanned_cons (x2c d e) (by rw [List.cons_append, tail_gap, List.append_assoc]; rfl) t
    · simp only [List.length_append, length_tail_gap, List.length_cons, List.length_nil] at hlen ⊢
      omega
  | case5 c rest hc ih =>
    intro done gap hlen
    rw [scanFrom_keep (List.ne_of_not_mem_cons h0).symm (fun h => absurd h hc) hlen,
      ih (List.not_mem_of_not_mem_cons h0), unescapeLoop_keep hc, Option.map_map]
    · congr 1
      funext t
      exact scanned_cons c (by rw [List.cons_append, tail_gap]) t
    · simp only [List.length_append, length_tail_gap, List.length_cons, List.length_nil] at hlen ⊢
      omega

/-- A scan which comes to an end has counted up to a terminator. -/
theorem exists_terminator {url : List UInt8} {i j : Nat} {left : Int} {r : List UInt8 × Nat}
    (hloop : unescapeLoop url i j left = some r) (hij : i ≤ j) (hj : j < 2 ^ 31) :
    ∃ k, j ≤ k ∧ k < 2 ^ 31 ∧ url[k]? = some 0 := by
  fun_induction unescapeLoop url i j left with
  | case1 => cases hloop
  | case2 => exact ⟨_, le_rfl, hj, ‹_›⟩
  | case3 url i j left c _ _ _ ihescape ihkeep =>
    -- What is written behind the read cursor does not move the terminators in front of it.
    have hahead (x y : UInt8) {k m : Nat} (hk : j + (m + 1) ≤ k)
        (hzero : ((url.set i x).set i y)[k]? = some 0) : url[k]? = some 0 := by
      rw [List.getElem?_set_ne (by omega), List.getElem?_set_ne (by omega)] at hzero
      exact hzero
    obtain ⟨-, hround⟩ := of_guard_then hloop
    split at hround
    · obtain ⟨d, -, hround⟩ := Option.bind_eq_some_iff.mp hround
      obtain ⟨e, -, hround⟩ := Option.bind_eq_some_iff.mp hround
      obtain ⟨⟨hint, -⟩, hrest⟩ := of_guard_then hround
      obtain ⟨k, hk, hlt, hzero⟩ := ihescape d e hrest (by omega) (by omega)
      exact ⟨k, by omega, hlt, hahead c (x2c d e) hk hzero⟩
    · obtain ⟨⟨hint, -⟩, hrest⟩ := of_guard_then hround
      obtain ⟨k, hk, hlt, hzero⟩ := ihkeep hrest (by omega) (by omega)
      exact ⟨k, by omega, hlt, hahead c c hk (by rwa [List.set_set])⟩

/-! ## `unescape_url` -/

/-- `unescape_url` stays within the string and its terminator, and leaves there the string without its
escapes. -/
def UnescapesSafely (s : List UInt8) : Prop :=
  ∃ mem t, unescapeUrl (s ++ [0]) = some mem ∧ Unescapes s t ∧
    mem = t ++ 0 :: (s ++ [0]).drop (t.length + 1)

theorem unescapeUrl_terminated {s : List UInt8} (h0 : 0 ∉ s) :
    unescapeUrl (s ++ [0]) = (do
      let (url, i) ← unescapeLoop (s ++ [0]) 0 0 (toInt s.length)
      guard (i < url.length)
      return url.set i 0) := by
  rw [unescapeUrl, cString_terminated h0]

theorem toInt_small {n : Nat} (h : n < 2 ^ 31) : toInt n = n := by
  refine Int.bmod_eq_of_le ?_ ?_ <;> omega

/-- Below the lengths where an `int` overflows, the buffer ends up with the characters as the function
makes them, a terminator, and what was behind. -/
theorem unescapeUrl_eq {s : List UInt8} (h0 : 0 ∉ s) (hlen : s.length < 2 ^ 31) :
    unescapeUrl (s ++ [0]) =
      (Onak.unescapeUrl s).map fun t => t ++ 0 :: (s ++ [0]).drop (t.length + 1) := by
  have hscan : unescapeLoop (s ++ [0]) 0 0 s.length = (Onak.unescapeLoop s).map (scanned [] [] s) :=
    scanFrom_eq h0 [] [] (by simpa using hlen)
  rw [unescapeUrl_terminated h0, toInt_small hlen, hscan, Onak.unescapeUrl, cString_of_not_mem h0]
  cases ht : Onak.unescapeLoop s with
  | none => rfl
  | some t =>
    have hle := length_le_of_unescapes (unescapes_unescapeLoop ht)
    have hroom : t.length < (t ++ (s ++ [0]).drop t.length).length := by
      simp only [List.length_append, List.length_drop, List.length_singleton]
      omega
    have hbehind : (s ++ [0]).drop t.length ≠ [] := by
      simp only [ne_eq, List.drop_eq_nil_iff, List.length_append, List.length_singleton]
      omega
    rw [Option.map_some, Option.map_some, some_then]
    show (do
      guard (t.length < (t ++ (s ++ [0]).drop t.length).length)
      some ((t ++ (s ++ [0]).drop t.length).set t.length 0)) = _
    rw [guard_then hroom, set_behind hbehind, List.tail_drop]

theorem lt_of_unescapeUrl {s mem : List UInt8} (h0 : 0 ∉ s) (h : unescapeUrl (s ++ [0]) = some mem) :
    s.length < 2 ^ 31 := by
  rw [unescapeUrl_terminated h0] at h
  obtain ⟨r, hloop, -⟩ := Option.bind_eq_some_iff.mp h
  obtain ⟨k, -, hlt, hzero⟩ := exists_terminator hloop le_rfl (by omega)
  have hbehind : s.length ≤ k := by
    by_contra hk
    rw [List.getElem?_append_left (by omega)] at hzero
    exact h0 (List.mem_of_getElem? hzero)
  omega

theorem unescapeUrl_safe_iff {s : List UInt8} (h0 : 0 ∉ s) :
    UnescapesSafely s ↔ s.length < 2 ^ 31 ∧ ¬ CutEscape s := by
  have hchars : Onak.unescapeUrl s = Onak.unescapeLoop s := by
    rw [Onak.unescapeUrl, cString_of_not_mem h0]
  constructor
  · rintro ⟨mem, t, hrun, -, -⟩
    have hlen := lt_of_unescapeUrl h0 hrun
    refine ⟨hlen, fun hcut => ?_⟩
    rw [unescapeUrl_eq h0 hlen, hchars, cutEscape_iff.mp hcut] at hrun
    cases hrun
  · rintro ⟨hlen, hcut⟩
    obtain ⟨t, ht⟩ := Option.ne_none_iff_exists'.mp fun hnone => hcut (cutEscape_iff.mpr hnone)
    refine ⟨_, t, ?_, unescapes_unescapeLoop ht, rfl⟩
    rw [unescapeUrl_eq h0 hlen, hchars, ht, Option.map_some]

/-- `%41b` -/
theorem unescapeUrl_safe_letter : UnescapesSafely [percent, 52, 49, 98] :=
  (unescapeUrl_safe_iff (by decide)).mpr ⟨by decide, by rw [cutEscape_iff]; decide⟩

/-- `%A` -/
theorem unescapeUrl_cut_unsafe : ¬ ∀ s : List UInt8, 0 ∉ s → UnescapesSafely s := by
  intro hall
  obtain ⟨mem, t, hrun, -, -⟩ := hall [percent, 65] (by decide)
  rw [unescapeUrl_eq (by decide) (by decide)] at hrun
  cases hrun

end Onak.Url
