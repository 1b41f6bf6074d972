import Onak.KeyIndex
import Onak.Lib.Cursor
import Onak.Proofs.MarshalProofs

/-!
# Proofs: the machine readable index

A user id without percent signs is written so that `unescape_url` gives it back. A percent sign is
doubled, while the decoder takes whatever two characters follow for the digits of an octet, so a user
id with a percent sign never comes back; and a line break is written as it is.
-/

namespace Onak

open Print

/-! ## Octet by octet -/

/-- The text of a user id. -/
def mrkeyBody (text : List UInt8) : List UInt8 := text.flatMap mrkeyOctet

theorem isHexDigit_ne {c d : UInt8} (h : IsHexDigit c)
    (hd : d.toNat < 48 ∨ 57 < d.toNat ∧ d.toNat < 65 ∨ 70 < d.toNat) : c ≠ d := by
  rintro rfl
  unfold IsHexDigit IsDigit at h
  omega

/-- What is written for an octet is ASCII, has no colon, and has a line break or a NUL only if the
octet is one. -/
theorem mem_mrkeyOctet {c d : UInt8} (h : d ∈ mrkeyOctet c) :
    d < 128 ∧ d ≠ ':'.toUInt8 ∧ (d = '\n'.toUInt8 → c = '\n'.toUInt8) ∧ (d = 0 → c = 0) := by
  unfold mrkeyOctet at h
  split_ifs at h with hpercent hescape
  · have hd : d = '%'.toUInt8 := by simpa [hpercent] using h
    rw [hd]
    exact ⟨by decide, by decide, fun h => absurd h (by decide), fun h => absurd h (by decide)⟩
  · rcases List.mem_cons.mp h with rfl | h
    · exact ⟨by decide, by decide, fun h => absurd h (by decide), fun h => absurd h (by decide)⟩
    · have hhex := isHexDigit_of_mem_hexOctet h
      refine ⟨?_, isHexDigit_ne hhex (by decide), fun hd => absurd hd (isHexDigit_ne hhex (by decide)),
        fun hd => absurd hd (isHexDigit_ne hhex (by decide))⟩
      have hlt : d.toNat < 128 := by
        unfold IsHexDigit IsDigit at hhex
        omega
      exact UInt8.lt_iff_toNat_lt.mpr hlt
  · obtain rfl := List.mem_singleton.mp h
    obtain ⟨hcolon, hlow⟩ := not_or.mp hescape
    refine ⟨?_, hcolon, id, id⟩
    have hle : d.toNat ≤ 127 := UInt8.le_iff_toNat_le.mp (UInt8.not_lt.mp hlow)
    exact UInt8.lt_iff_toNat_lt.mpr (by simp only [UInt8.reduceToNat]; omega)

theorem mem_mrkeyBody {text : List UInt8} {d : UInt8} (h : d ∈ mrkeyBody text) :
    d < 128 ∧ d ≠ ':'.toUInt8 ∧ (d = '\n'.toUInt8 → '\n'.toUInt8 ∈ text) ∧ (d = 0 → 0 ∈ text) := by
  obtain ⟨c, hc, hd⟩ := List.mem_flatMap.mp h
  obtain ⟨hlt, hcolon, hbreak, hnul⟩ := mem_mrkeyOctet hd
  exact ⟨hlt, hcolon, fun h => hbreak h ▸ hc, fun h => hnul h ▸ hc⟩

theorem x2cDigit_hexDigit {n : Nat} (h : n < 16) : x2cDigit (hexDigit n) = UInt8.ofNat n := by
  have hall : ∀ k : Fin 16, x2cDigit (hexDigit k.val) = UInt8.ofNat k.val := by decide
  exact hall ⟨n, h⟩

theorem x2c_hexOctet (c : UInt8) : x2c (hexDigit (c.toNat / 16)) (hexDigit (c.toNat % 16)) = c := by
  have hc := c.toNat_lt
  apply UInt8.toNat_inj.mp
  rw [x2c, x2cDigit_hexDigit (by omega), x2cDigit_hexDigit (by omega), UInt8.toNat_add,
    UInt8.toNat_mul, UInt8.toNat_ofNat', UInt8.toNat_ofNat']
  simp only [UInt8.reduceToNat]
  omega

theorem unescapeLoop_hex (a b : UInt8) (t : List UInt8) :
    unescapeLoop ('%'.toUInt8 :: a :: b :: t) = (unescapeLoop t).map (x2c a b :: ·) := by
  simp [unescapeLoop]

theorem unescapeLoop_char {c : UInt8} (h : c ≠ '%'.toUInt8) (t : List UInt8) :
    unescapeLoop (c :: t) = (unescapeLoop t).map (c :: ·) := by
  rw [unescapeLoop.eq_def]
  simp only [if_neg h]

theorem unescapeLoop_mrkeyOctet {c : UInt8} (h : c ≠ '%'.toUInt8) (t : List UInt8) :
    unescapeLoop (mrkeyOctet c ++ t) = (unescapeLoop t).map (c :: ·) := by
  unfold mrkeyOctet
  rw [if_neg h]
  split_ifs
  · show unescapeLoop ('%'.toUInt8 :: hexDigit (c.toNat / 16) :: hexDigit (c.toNat % 16) :: t) = _
    rw [unescapeLoop_hex, x2c_hexOctet]
  · rw [List.singleton_append, unescapeLoop_char h]

/-! ## The text of a user id -/

theorem unescapeLoop_append {p : List UInt8} (h : '%'.toUInt8 ∉ p) (t : List UInt8) :
    unescapeLoop (mrkeyBody p ++ t) = (unescapeLoop t).map (p ++ ·) := by
  induction p with
  | nil => simp [mrkeyBody]
  | cons c p ih =>
    obtain ⟨hc, hp⟩ := not_or.mp (List.mem_cons.not.mp h)
    have hcons : mrkeyBody (c :: p) ++ t = mrkeyOctet c ++ (mrkeyBody p ++ t) := by
      simp [mrkeyBody]
    rw [hcons, unescapeLoop_mrkeyOctet (Ne.symm hc), ih hp, Option.map_map]
    rfl

/-- Without percent signs the text comes back. -/
theorem unescapeLoop_mrkeyBody {p : List UInt8} (h : '%'.toUInt8 ∉ p) :
    unescapeLoop (mrkeyBody p) = some p := by
  have happend := unescapeLoop_append h []
  rw [List.append_nil] at happend
  rw [happend, unescapeLoop, Option.map_some, List.append_nil]

theorem x2c_percent {y : UInt8} :
    (x2c '%'.toUInt8 y = '%'.toUInt8 → y = 5) ∧ (x2c '%'.toUInt8 y = 5 → ¬ y < 128) := by
  have hall : ∀ k : Fin 256,
      (x2c '%'.toUInt8 (UInt8.ofNat k.val) = '%'.toUInt8 → UInt8.ofNat k.val = 5) ∧
        (x2c '%'.toUInt8 (UInt8.ofNat k.val) = 5 → ¬ UInt8.ofNat k.val < 128) := by decide +kernel
  have hy := hall ⟨y.toNat, y.toNat_lt⟩
  rwa [UInt8.ofNat_toNat] at hy

theorem mrkeyBody_cons (c : UInt8) (p : List UInt8) :
    mrkeyBody (c :: p) = mrkeyOctet c ++ mrkeyBody p :=
  List.flatMap_cons

/-- What `unescape_url` makes of a text with a percent sign in front of it: an octet that stands for
the percent sign and the first character of what is written behind it. -/
theorem unescapeLoop_percent {r q : List UInt8}
    (h : unescapeLoop (mrkeyBody ('%'.toUInt8 :: r)) = some q) :
    ∃ y t q', mrkeyBody r = y :: t ∧ y < 128 ∧ unescapeLoop t = some q' ∧
      q = x2c '%'.toUInt8 y :: q' := by
  have hbody : mrkeyBody ('%'.toUInt8 :: r) = '%'.toUInt8 :: '%'.toUInt8 :: mrkeyBody r := rfl
  rw [hbody] at h
  cases ht : mrkeyBody r with
  | nil =>
    rw [ht] at h
    exact absurd h (by simp [unescapeLoop])
  | cons y t =>
    rw [ht, unescapeLoop_hex] at h
    obtain ⟨q', hq', rfl⟩ := Option.map_eq_some_iff.mp h
    have hy : y ∈ mrkeyBody r := by simp [ht]
    exact ⟨y, t, q', rfl, (mem_mrkeyBody hy).1, hq', rfl⟩

/-- A 5 never gets in front of the text. -/
theorem unescapeLoop_ne_five (r tail : List UInt8) :
    unescapeLoop (mrkeyBody r) ≠ some (5 :: (r ++ tail)) := by
  induction r with
  | nil => simp [mrkeyBody, unescapeLoop]
  | cons c r ih =>
    intro h
    by_cases hc : c = '%'.toUInt8
    · rw [hc] at h
      obtain ⟨y, t, q', -, hlt, -, hq⟩ := unescapeLoop_percent h
      exact x2c_percent.2 (List.cons.inj hq).1.symm hlt
    · rw [mrkeyBody_cons, unescapeLoop_mrkeyOctet hc] at h
      obtain ⟨q, hq, heq⟩ := Option.map_eq_some_iff.mp h
      obtain ⟨rfl, rfl⟩ := List.cons.inj heq
      exact ih hq

/-- With a percent sign the text does not come back, nor does a longer one that starts with it. -/
theorem unescapeLoop_ne_of_percent {p : List UInt8} (h : '%'.toUInt8 ∈ p) (tail : List UInt8) :
    unescapeLoop (mrkeyBody p) ≠ some (p ++ tail) := by
  induction p with
  | nil => exact absurd h (by simp)
  | cons c p ih =>
    intro heq
    by_cases hc : c = '%'.toUInt8
    · rw [hc] at heq
      obtain ⟨y, t, q, hbody, -, ht, hq⟩ := unescapeLoop_percent heq
      obtain ⟨hx, rfl⟩ := List.cons.inj hq
      obtain rfl := x2c_percent.1 hx.symm
      -- the character behind the percent signs is the first octet of `p` itself
      have hp : ∃ p', p = 5 :: p' ∧ t = mrkeyBody p' := by
        cases p with
        | nil => exact absurd hbody (by simp [mrkeyBody])
        | cons d p =>
          rw [mrkeyBody_cons] at hbody
          unfold mrkeyOctet at hbody
          split_ifs at hbody with hpercent hescape
          · exact absurd (List.cons.inj hbody).1 (by decide)
          · exact absurd (List.cons.inj hbody).1 (by decide)
          · obtain ⟨rfl, rfl⟩ := List.cons.inj hbody
            exact ⟨p, rfl, rfl⟩
      obtain ⟨p', rfl, rfl⟩ := hp
      exact unescapeLoop_ne_five p' tail ht
    · rw [mrkeyBody_cons, unescapeLoop_mrkeyOctet hc] at heq
      obtain ⟨q, hq, heq⟩ := Option.map_eq_some_iff.mp heq
      obtain ⟨-, rfl⟩ := List.cons.inj heq
      exact ih ((List.mem_cons.mp h).resolve_left (Ne.symm hc)) hq

/-! ## Rows -/

theorem rowsOf_break (row rest : List UInt8) :
    rowsOf (row ++ ascii "\n" ++ rest) = rowsOf row ++ rowsOf rest := by
  rw [List.append_assoc]
  exact List.splitOnP_append_cons row rest (by decide)

theorem uidRows_break (row rest : List UInt8) :
    uidRows (row ++ ascii "\n" ++ rest) = uidRows row ++ uidRows rest := by
  rw [uidRows, rowsOf_break, List.filter_append]
  rfl

theorem rowsOf_single {row : List UInt8} (h : '\n'.toUInt8 ∉ row) : rowsOf row = [row] := by
  refine List.splitOnP_eq_singleton fun c hc => ?_
  have hne : c ≠ '\n'.toUInt8 := fun heq => h (heq ▸ hc)
  simpa using hne

/-- A `pub` row is one row. -/
theorem mrkeyPub_row (H : Hashes) (past : Packet → Nat → UInt8) (vars : IndexVars)
    (key : PublicKey) (rest : List UInt8) :
    uidRows ((mrkeyPub H past vars key).1 ++ rest) = uidRows rest := by
  have hname : '\n'.toUInt8 ∉ (mrkeyName H past vars key).1 := by
    intro hmem
    unfold mrkeyName at hmem
    simp only at hmem
    split_ifs at hmem
    · exact isHexDigit_ne (isHexDigit_of_mem_hex hmem) (by decide) rfl
    · obtain ⟨c, -, hc⟩ := List.mem_flatMap.mp hmem
      exact isHexDigit_ne (isHexDigit_of_mem_hexOctet hc) (by decide) rfl
    · exact absurd hmem (by simp)
  have hint : ∀ i : Int, '\n'.toUInt8 ∉ int i := by
    intro i hmem
    rcases isDigit_of_mem_int hmem with heq | hdigit
    · exact absurd heq (by decide)
    · exact absurd hdigit (by unfold IsDigit; decide)
  have hrevoked : '\n'.toUInt8 ∉ (if key.revoked then ascii "r" else []) := by
    split_ifs <;> decide
  have hpub : '\n'.toUInt8 ∉ ascii "pub:" := by decide
  have hcolon : '\n'.toUInt8 ∉ ascii ":" := by decide
  have hcolons : '\n'.toUInt8 ∉ ascii "::" := by decide
  unfold mrkeyPub
  simp only
  rw [uidRows_break]
  generalize hrow : ascii "pub:" ++ _ ++ _ ++ _ ++ _ ++ _ ++ _ ++ _ ++ _ ++ _ = row
  have hsingle : rowsOf row = [row] := by
    refine rowsOf_single ?_
    rw [← hrow]
    simp only [List.mem_append, not_or]
    exact ⟨⟨⟨⟨⟨⟨⟨⟨⟨hpub, hname⟩, hcolon⟩, hint _⟩, hcolon⟩, hint _⟩, hcolon⟩, hint _⟩, hcolons⟩,
      hrevoked⟩
  have hnone : uidRows row = [] := by
    rw [uidRows, hsingle, List.filter_singleton, ← hrow]
    rfl
  rw [hnone, List.nil_append]

/-- The text of a user id up to its first line break. -/
def firstLine (curuid : SignedPacket) : List UInt8 :=
  (mrkeyText curuid.packet).takeWhile (· ≠ '\n'.toUInt8)

/-- The further rows that a user id makes. -/
def moreRows (curuid : SignedPacket) : List (List UInt8) :=
  uidRows (mrkeyBody (((mrkeyText curuid.packet).dropWhile (· ≠ '\n'.toUInt8)).drop 1))

theorem not_mem_firstLine (curuid : SignedPacket) : '\n'.toUInt8 ∉ firstLine curuid := by
  intro hmem
  have hne := List.mem_takeWhile_imp hmem
  exact absurd hne (by decide)

theorem mrkeyUid_rows (curuid : SignedPacket) (rest : List UInt8) :
    uidRows (mrkeyUid curuid ++ rest) =
      ((ascii "uid:" ++ mrkeyBody (firstLine curuid)) :: moreRows curuid) ++ uidRows rest := by
  have hline : '\n'.toUInt8 ∉ ascii "uid:" ++ mrkeyBody (firstLine curuid) := by
    intro hmem
    rcases List.mem_append.mp hmem with hmem | hmem
    · exact absurd hmem (by decide)
    · exact not_mem_firstLine curuid ((mem_mrkeyBody hmem).2.2.1 rfl)
  have hfirst : uidRows (ascii "uid:" ++ mrkeyBody (firstLine curuid)) =
      [ascii "uid:" ++ mrkeyBody (firstLine curuid)] := by
    rw [uidRows, rowsOf_single hline, List.filter_singleton]
    rfl
  have htext : mrkeyText curuid.packet = firstLine curuid ++
      (mrkeyText curuid.packet).dropWhile (· ≠ '\n'.toUInt8) := List.takeWhile_append_dropWhile.symm
  unfold mrkeyUid moreRows
  rw [uidRows_break]
  congr 1
  show uidRows (ascii "uid:" ++ mrkeyBody (mrkeyText curuid.packet)) = _
  cases hrest : (mrkeyText curuid.packet).dropWhile (· ≠ '\n'.toUInt8) with
  | nil =>
    rw [hrest, List.append_nil] at htext
    rw [htext, hfirst]
    rfl
  | cons c more =>
    have hc : c = '\n'.toUInt8 := Cursor.eq_of_dropWhile_ne hrest
    have hbody : ascii "uid:" ++ mrkeyBody (mrkeyText curuid.packet) =
        (ascii "uid:" ++ mrkeyBody (firstLine curuid)) ++ ascii "\n" ++ mrkeyBody more := by
      rw [htext, hrest, hc]
      simp only [mrkeyBody, List.flatMap_append, List.flatMap_cons, List.append_assoc]
      rfl
    rw [hbody, uidRows_break, hfirst]
    rfl

theorem uidRows_mrkeyIndex (H : Hashes) (past : Packet → Nat → UInt8) (keyid : UInt64)
    (keys : List PublicKey) :
    uidRows (mrkeyIndex H past keyid keys) = (keys.flatMap listed).flatMap fun curuid =>
      (ascii "uid:" ++ mrkeyBody (firstLine curuid)) :: moreRows curuid := by
  have hnil : uidRows [] = [] := by decide
  have huids : ∀ (l : List SignedPacket) (rest : List UInt8),
      uidRows (l.flatMap mrkeyUid ++ rest) = l.flatMap (fun curuid =>
        (ascii "uid:" ++ mrkeyBody (firstLine curuid)) :: moreRows curuid) ++ uidRows rest := by
    intro l rest
    induction l with
    | nil => rfl
    | cons curuid l ih =>
      rw [List.flatMap_cons, List.append_assoc, mrkeyUid_rows, ih, List.flatMap_cons,
        List.append_assoc]
  have hloop : ∀ vars, uidRows (mrkeyLoop H past vars keys) =
      (keys.flatMap listed).flatMap fun curuid =>
        (ascii "uid:" ++ mrkeyBody (firstLine curuid)) :: moreRows curuid := by
    induction keys with
    | nil =>
      intro vars
      exact hnil
    | cons key keys ih =>
      intro vars
      unfold mrkeyLoop
      simp only
      rw [List.append_assoc, mrkeyPub_row, huids, ih, List.flatMap_cons, List.flatMap_append]
  exact hloop ⟨0, keyid⟩

/-! ## Whether the user ids can be decoded -/

section

variable {α β : Type} {R : β → α → Prop} {f : α → β} {g : α → List β} {l : List α}

theorem flatMap_cons_eq_map (h : ∀ x ∈ l, g x = []) : (l.flatMap fun x => f x :: g x) = l.map f := by
  induction l with
  | nil => rfl
  | cons x l ih =>
    rw [List.flatMap_cons, h x (by simp), ih fun y hy => h y (by simp [hy])]
    rfl

theorem length_flatMap_cons :
    (l.flatMap fun x => f x :: g x).length = l.length + (l.flatMap g).length := by
  induction l with
  | nil => rfl
  | cons x l ih =>
    simp only [List.flatMap_cons, List.length_append, List.length_cons] at ih ⊢
    omega

/-- Rows for the elements match them if there is one for each and no other. -/
theorem forall₂_flatMap_cons :
    List.Forall₂ R (l.flatMap fun x => f x :: g x) l ↔ ∀ x ∈ l, g x = [] ∧ R (f x) x := by
  constructor
  · intro h
    have hlen := h.length_eq
    rw [length_flatMap_cons] at hlen
    have hnil : l.flatMap g = [] := List.length_eq_zero_iff.mp (by omega)
    have hg := List.flatMap_eq_nil_iff.mp hnil
    rw [flatMap_cons_eq_map hg, List.forall₂_map_left_iff, List.forall₂_same] at h
    exact fun x hx => ⟨hg x hx, h x hx⟩
  · intro h
    rw [flatMap_cons_eq_map fun x hx => (h x hx).1, List.forall₂_map_left_iff, List.forall₂_same]
    exact fun x hx => (h x hx).2

end

/-- A user id that comes back: short enough for an `int`, without percent signs and line breaks. -/
def Plain (data : List UInt8) : Prop :=
  data.length < 2 ^ 31 ∧ '%'.toUInt8 ∉ data ∧ '\n'.toUInt8 ∉ data

theorem mrkeyText_initial (packet : Packet) : mrkeyText packet <+: packet.data := List.take_prefix _ _

theorem mrkeyText_eq_iff (packet : Packet) :
    mrkeyText packet = packet.data ↔ packet.data.length < 2 ^ 31 := by
  have hlen : packet.length = packet.data.length := rfl
  rw [mrkeyText, List.take_eq_self_iff, toInt32, hlen]
  split_ifs with h
  · exact iff_of_true (by omega) h
  · exact iff_of_false (by omega) h

theorem Plain.firstLine_eq {curuid : SignedPacket} (h : Plain curuid.packet.data) :
    firstLine curuid = curuid.packet.data ∧ moreRows curuid = [] := by
  have htext := (mrkeyText_eq_iff curuid.packet).mpr h.1
  have hall : ∀ c ∈ curuid.packet.data, decide (c ≠ '\n'.toUInt8) = true := by
    intro c hc
    have hne : c ≠ '\n'.toUInt8 := fun heq => h.2.2 (heq ▸ hc)
    simpa using hne
  constructor
  · rw [firstLine, htext]
    exact List.takeWhile_eq_self_iff.mpr hall
  · rw [moreRows, htext, List.dropWhile_eq_nil_iff.mpr hall]
    decide

theorem unescapeUrl_mrkeyBody {p : List UInt8} (h : 0 ∉ p) :
    unescapeUrl (mrkeyBody p) = unescapeLoop (mrkeyBody p) := by
  rw [unescapeUrl, cString_of_not_mem fun hmem => h ((mem_mrkeyBody hmem).2.2.2 rfl)]

/-- The first row that a user id makes can be decoded, and is the only one, if the user id is
plain. -/
theorem rowOf_iff {curuid : SignedPacket} (hnul : 0 ∉ curuid.packet.data) :
    (moreRows curuid = [] ∧ RowOf (ascii "uid:" ++ mrkeyBody (firstLine curuid)) curuid) ↔
      Plain curuid.packet.data := by
  have hinitial : firstLine curuid <+: curuid.packet.data :=
    (List.takeWhile_prefix _).trans (mrkeyText_initial curuid.packet)
  have hnul' : 0 ∉ firstLine curuid := fun hmem => hnul (hinitial.subset hmem)
  constructor
  · rintro ⟨-, body, hbody, -, -, hdecode⟩
    obtain rfl := List.append_cancel_left hbody
    rw [unescapeUrl_mrkeyBody hnul'] at hdecode
    have hpercent : '%'.toUInt8 ∉ firstLine curuid := by
      intro hmem
      obtain ⟨tail, htail⟩ := hinitial
      rw [← htail] at hdecode
      exact unescapeLoop_ne_of_percent hmem tail hdecode
    rw [unescapeLoop_mrkeyBody hpercent] at hdecode
    have hdata := Option.some.inj hdecode
    have htext : mrkeyText curuid.packet = curuid.packet.data := by
      refine (mrkeyText_initial curuid.packet).eq_of_length_le ?_
      calc curuid.packet.data.length = (firstLine curuid).length := by rw [hdata]
        _ ≤ (mrkeyText curuid.packet).length := (List.takeWhile_prefix _).length_le
    refine ⟨(mrkeyText_eq_iff _).mp htext, ?_, ?_⟩
    · rw [← hdata]
      exact hpercent
    · rw [← hdata]
      exact not_mem_firstLine curuid
  · intro hplain
    obtain ⟨hline, hmore⟩ := hplain.firstLine_eq
    refine ⟨hmore, mrkeyBody (firstLine curuid), rfl, fun hmem => ?_, fun hmem => ?_, ?_⟩
    · exact (mem_mrkeyBody hmem).2.1 rfl
    · exact not_mem_firstLine curuid ((mem_mrkeyBody hmem).2.2.1 rfl)
    · rw [unescapeUrl_mrkeyBody hnul', hline, unescapeLoop_mrkeyBody hplain.2.1]

/-- **Rows of the machine readable index can be decoded unless a user id has a percent sign or a line
break.** For user ids without NUL octets, there is exactly one row for each that is listed and it
gives the user id back, if and only if none of them has a percent sign, a line break or `2 ^ 31`
octets. -/
theorem mrkeyIndex_decodable_iff (H : Hashes) (past : Packet → Nat → UInt8) (keyid : UInt64)
    {keys : List PublicKey} (hnul : ∀ curuid ∈ keys.flatMap listed, 0 ∉ curuid.packet.data) :
    Decodable keys (mrkeyIndex H past keyid keys) ↔
      ∀ curuid ∈ keys.flatMap listed, Plain curuid.packet.data := by
  unfold Decodable
  rw [uidRows_mrkeyIndex, forall₂_flatMap_cons]
  exact forall₂_congr fun curuid hcuruid => rowOf_iff (hnul curuid hcuruid)

/-- A key with the given user id, for samples. -/
def keyWithUid (data : List UInt8) : PublicKey :=
  ⟨⟨tagPublickey, false, [4, 0, 0, 0, 0, 1, 0, 0]⟩, false, [], [⟨⟨tagUid, false, data⟩, []⟩], []⟩

/-- A user id with a colon and an octet above 127. -/
theorem mrkeyIndex_decodable_sample :
    Decodable [keyWithUid [65, 58, 0xE9]]
      (mrkeyIndex ⟨List.take 16, List.take 20, List.take 32⟩ (fun _ _ => 0) 0
        [keyWithUid [65, 58, 0xE9]]) :=
  (mrkeyIndex_decodable_iff _ _ 0 (by decide)).mpr (by unfold Plain; decide)

/-- The user id `%41` is written `%%41`, which is decoded into two octets. -/
theorem mrkeyIndex_percent :
    ¬ ∀ (H : Hashes) (past : Packet → Nat → UInt8) (keyid : UInt64) (keys : List PublicKey),
      (∀ curuid ∈ keys.flatMap listed, 0 ∉ curuid.packet.data) →
        Decodable keys (mrkeyIndex H past keyid keys) := by
  intro hall
  have hdecodable := hall ⟨List.take 16, List.take 20, List.take 32⟩ (fun _ _ => 0) 0
    [keyWithUid (ascii "%41")] (by decide)
  unfold Decodable at hdecodable
  rw [uidRows_mrkeyIndex, forall₂_flatMap_cons] at hdecodable
  have hplain := (rowOf_iff (by decide)).mp
    (hdecodable ⟨⟨tagUid, false, ascii "%41"⟩, []⟩ (by decide))
  exact hplain.2.1 (by decide)

end Onak
