import Onak.Armor
import Onak.Lib.Sextet
import Onak.Proofs.CodecProofs

/-!
# Proofs: ASCII armor

The armored text spells the sextets of the octets that were written, with line breaks that the
reader skips, and then an equals sign. From such a text the reader takes the octets one by one; so
it is a source that feeds them to `read_openpgp_stream`.
-/

namespace Onak

open Source Sextet

/-! ## The alphabet -/

theorem decode64_encode64 {v : UInt8} (h : v.toNat < 64) : decode64 (encode64 v) = v := by
  have hall : ∀ n : Fin 64, decode64 (encode64 (UInt8.ofNat n.val)) = UInt8.ofNat n.val := by decide
  have hv := hall ⟨v.toNat, h⟩
  rwa [UInt8.ofNat_toNat] at hv

theorem nextSextet_newline (text : List UInt8) :
    nextSextet ('\n'.toUInt8 :: text) = nextSextet text := by
  have h : decode64 '\n'.toUInt8 = 65 := by decide
  simp only [nextSextet, h, if_true]

theorem nextSextet_equals (text : List UInt8) : nextSextet ('='.toUInt8 :: text) = (64, text) := by
  have h : decode64 '='.toUInt8 = 64 := by decide
  rw [nextSextet, h]
  rfl

theorem ne_of_sextet {v w : UInt8} (hv : v.toNat < 64) (hw : 64 ≤ w.toNat) : v ≠ w := by
  rintro rfl
  omega

theorem nextSextet_encode64 {v : UInt8} (h : v.toNat < 64) (text : List UInt8) :
    nextSextet (encode64 v :: text) = (v, text) := by
  have hne : v ≠ 65 := ne_of_sextet h (by simp)
  simp only [nextSextet, decode64_encode64 h, hne, if_false]

/-! ## What a text spells -/

/-- The text spells sextets, and then its data ends. -/
def Spells : List UInt8 → List UInt8 → Prop
  | text, [] => (nextSextet text).1 = 64
  | text, v :: vals => v.toNat < 64 ∧ (nextSextet text).1 = v ∧ Spells (nextSextet text).2 vals

theorem Spells.newline {text vals : List UInt8} (h : Spells text vals) :
    Spells ('\n'.toUInt8 :: text) vals := by
  cases vals with
  | nil =>
    unfold Spells at h ⊢
    rw [nextSextet_newline]
    exact h
  | cons v vals =>
    unfold Spells at h ⊢
    rw [nextSextet_newline]
    exact h

theorem Spells.char {v : UInt8} {text vals : List UInt8} (hv : v.toNat < 64)
    (h : Spells text vals) : Spells (encode64 v :: text) (v :: vals) := by
  unfold Spells
  rw [nextSextet_encode64 hv]
  exact ⟨hv, rfl, h⟩

theorem spells_equals (text : List UInt8) : Spells ('='.toUInt8 :: text) [] := by
  unfold Spells
  rw [nextSextet_equals]

theorem Spells.next {v : UInt8} {text vals : List UInt8} (h : Spells text (v :: vals)) :
    ∃ text', nextSextet text = (v, text') ∧ v.toNat < 64 ∧ Spells text' vals := by
  obtain ⟨hlt, hv, hrest⟩ := h
  exact ⟨_, Prod.ext hv rfl, hlt, hrest⟩

/-! ## Armoring -/

/-- The line break that may stand behind the data so far. -/
def breakAt (count : Nat) : List UInt8 := if count % armorWidth = 0 then ['\n'.toUInt8] else []

theorem Spells.breakAt {text vals : List UInt8} (h : Spells text vals) (count : Nat) :
    Spells (breakAt count ++ text) vals := by
  unfold Onak.breakAt
  split_ifs
  · exact h.newline
  · exact h

theorem wrap_eq (state : ArmorContext) :
    state.wrap = { state with text := state.text ++ breakAt state.count } := by
  unfold ArmorContext.wrap breakAt
  split_ifs
  · rfl
  · simp

theorem armorPutcharInt_eq (state : ArmorContext) (c : UInt8) :
    armorPutcharInt state c =
      ⟨c, (state.curoctet + 1) % 3,
        state.count + (armorChars state.curoctet state.lastoctet c).length,
        crc24Octet state.crc24 c,
        state.text ++ (armorChars state.curoctet state.lastoctet c ++
          breakAt (state.count + (armorChars state.curoctet state.lastoctet c).length))⟩ := by
  unfold armorPutcharInt
  rw [wrap_eq]
  simp [ArmorContext.put]

theorem spells_armorChars {curoctet : Nat} {lastoctet c : UInt8} {l text : List UInt8}
    (hcur : curoctet < 3) (h : Spells text (sextets ((curoctet + 1) % 3) c l)) (count : Nat) :
    Spells (armorChars curoctet lastoctet c ++ (breakAt count ++ text))
      (sextets curoctet lastoctet (c :: l)) := by
  have hc := c.toNat_lt
  have hbreak := h.breakAt count
  match curoctet, hcur with
  | 0, _ =>
    refine Spells.char ?_ hbreak
    rw [toNat_first]
    omega
  | 1, _ =>
    refine Spells.char ?_ hbreak
    rw [toNat_second]
    omega
  | 2, _ =>
    refine Spells.char ?_ (Spells.char ?_ hbreak)
    · rw [toNat_third]
      omega
    · rw [toNat_and_sixtythree]
      omega

/-- The characters that `armor_finish` puts out for a group that is not full. -/
def padChars (curoctet : Nat) (lastoctet : UInt8) : List UInt8 :=
  match curoctet with
  | 1 => [encode64 ((lastoctet &&& 3) <<< 4), '='.toUInt8, '='.toUInt8]
  | 2 => [encode64 ((lastoctet &&& 0xF) <<< 2), '='.toUInt8]
  | _ => []

/-- The line breaks that `armor_finish` puts out behind the data. -/
def padBreaks (curoctet count : Nat) : List UInt8 :=
  (if curoctet = 1 ∨ curoctet = 2 then breakAt count else []) ++
    if count % armorWidth ≠ 0 then ['\n'.toUInt8] else []

theorem armorFinish_eq (state : ArmorContext) :
    armorFinish state =
      ⟨state.lastoctet, state.curoctet + 1,
        state.count + (padChars state.curoctet state.lastoctet).length, state.crc24 &&& 0xffffff,
        state.text ++ (padChars state.curoctet state.lastoctet ++
          (padBreaks state.curoctet
              (state.count + (padChars state.curoctet state.lastoctet).length) ++
            ('='.toUInt8 :: crc24Chars (state.crc24 &&& 0xffffff) ++ ['\n'.toUInt8])))⟩ := by
  obtain ⟨lastoctet, curoctet, count, crc24, text⟩ := state
  match curoctet with
  | 0 =>
    by_cases hfull : count % armorWidth = 0
    · simp [armorFinish, padChars, padBreaks, hfull]
    · simp [armorFinish, padChars, padBreaks, hfull]
  | 1 =>
    by_cases hfull : (count + 3) % armorWidth = 0
    · simp [armorFinish, wrap_eq, ArmorContext.put, padChars, padBreaks, hfull]
    · simp [armorFinish, wrap_eq, ArmorContext.put, padChars, padBreaks, hfull]
  | 2 =>
    by_cases hfull : (count + 2) % armorWidth = 0
    · simp [armorFinish, wrap_eq, ArmorContext.put, padChars, padBreaks, hfull]
    · simp [armorFinish, wrap_eq, ArmorContext.put, padChars, padBreaks, hfull]
  | _ + 3 =>
    by_cases hfull : count % armorWidth = 0
    · simp [armorFinish, padChars, padBreaks, hfull]
    · simp [armorFinish, padChars, padBreaks, hfull]

theorem armorFinish_text (state : ArmorContext) :
    ∃ data, (armorFinish state).text =
      data ++ ('='.toUInt8 :: crc24Chars (armorFinish state).crc24 ++ ['\n'.toUInt8]) :=
  ⟨_, List.append_assoc _ _ _⟩

theorem spells_armorFinish {curoctet : Nat} (hcur : curoctet < 3) (lastoctet : UInt8) (count : Nat)
    (text : List UInt8) :
    Spells (padChars curoctet lastoctet ++ (padBreaks curoctet count ++ '='.toUInt8 :: text))
      (sextets curoctet lastoctet []) := by
  match curoctet, hcur with
  | 0, _ =>
    have hend : Spells ('='.toUInt8 :: text) (sextets 0 lastoctet []) := spells_equals text
    by_cases hfull : count % armorWidth = 0
    · simpa [padChars, padBreaks, hfull] using hend
    · simpa [padChars, padBreaks, hfull] using hend.newline
  | 1, _ =>
    refine Spells.char ?_ (spells_equals _)
    rw [toNat_second_end]
    omega
  | 2, _ =>
    refine Spells.char ?_ (spells_equals _)
    rw [toNat_third_end]
    omega

/-- Armoring octets puts a text out that spells their sextets. -/
theorem spells_armored {state : ArmorContext} (hcur : state.curoctet < 3) (l : List UInt8) :
    ∃ t, (armorFinish (l.foldl armorPutcharInt state)).text = state.text ++ t ∧
      ∀ rest, Spells (t ++ rest) (sextets state.curoctet state.lastoctet l) := by
  induction l generalizing state with
  | nil =>
    refine ⟨_, by rw [List.foldl_nil, armorFinish_eq], fun rest => ?_⟩
    simp only [List.append_assoc, List.cons_append]
    exact spells_armorFinish hcur _ _ _
  | cons c l ih =>
    have hcur' : (armorPutcharInt state c).curoctet < 3 := by
      rw [armorPutcharInt_eq]
      exact Nat.mod_lt _ (by omega)
    obtain ⟨t, ht, hspells⟩ := ih hcur'
    rw [List.foldl_cons, ht]
    rw [armorPutcharInt_eq] at hspells ⊢
    refine ⟨_, by rw [List.append_assoc], fun rest => ?_⟩
    rw [List.append_assoc, List.append_assoc]
    exact spells_armorChars hcur (hspells rest) _

/-! ## Counting -/

/-- The context after `n` octets. -/
structure Counted (state : ArmorContext) (n : Nat) : Prop where
  curoctet : state.curoctet = n % 3
  count : state.count = 4 * n / 3

theorem Counted.putchar {state : ArmorContext} {n : Nat} (h : Counted state n) (c : UInt8) :
    Counted (armorPutcharInt state c) (n + 1) := by
  have hlen : (armorChars (n % 3) state.lastoctet c).length = if n % 3 = 2 then 2 else 1 := by
    have hlt : n % 3 < 3 := Nat.mod_lt _ (by omega)
    match n % 3, hlt with
    | 0, _ => rfl
    | 1, _ => rfl
    | 2, _ => rfl
  rw [armorPutcharInt_eq]
  refine ⟨?_, ?_⟩
  · show (state.curoctet + 1) % 3 = (n + 1) % 3
    rw [h.curoctet]
    omega
  · show state.count + (armorChars state.curoctet state.lastoctet c).length = 4 * (n + 1) / 3
    rw [h.curoctet, h.count, hlen]
    have hcases : n % 3 = 0 ∨ n % 3 = 1 ∨ n % 3 = 2 := by omega
    rcases hcases with hn | hn | hn
    · rw [hn, if_neg (by decide)]
      omega
    · rw [hn, if_neg (by decide)]
      omega
    · rw [hn, if_pos rfl]
      omega

theorem Counted.foldl {state : ArmorContext} {n : Nat} (h : Counted state n) (l : List UInt8) :
    Counted (l.foldl armorPutcharInt state) (n + l.length) := by
  induction l generalizing state n with
  | nil => exact h
  | cons c l ih =>
    have hstep := ih (h.putchar c)
    rw [List.length_cons, Nat.add_comm l.length 1, ← Nat.add_assoc]
    exact hstep

/-- The data of `n` octets is `4 * ⌈n / 3⌉` characters long. -/
theorem Counted.finish {state : ArmorContext} {n : Nat} (h : Counted state n) :
    (armorFinish state).count = 4 * ((n + 2) / 3) := by
  have hlen : (padChars (n % 3) state.lastoctet).length =
      if n % 3 = 0 then 0 else if n % 3 = 1 then 3 else 2 := by
    have hlt : n % 3 < 3 := Nat.mod_lt _ (by omega)
    match n % 3, hlt with
    | 0, _ => rfl
    | 1, _ => rfl
    | 2, _ => rfl
  rw [armorFinish_eq]
  show state.count + (padChars state.curoctet state.lastoctet).length = 4 * ((n + 2) / 3)
  rw [h.curoctet, h.count, hlen]
  split_ifs <;> omega

/-! ## The CRC -/

theorem crc24Shift_lt {crc24 : Nat} (h : crc24 < 2 ^ 24) : crc24Shift crc24 < 2 ^ 24 := by
  have hbit : (crc24 <<< 1) &&& 0x1000000 = ((crc24 <<< 1).testBit 24).toNat * 2 ^ 24 :=
    Nat.and_two_pow (crc24 <<< 1) 24
  have hlt : crc24 <<< 1 < 2 ^ 25 := by
    rw [Nat.shiftLeft_eq]
    omega
  have hhigh : ∀ i, 25 ≤ i → (crc24 <<< 1).testBit i = false := fun i hi =>
    Nat.testBit_lt_two_pow (lt_of_lt_of_le hlt (Nat.pow_le_pow_right (by omega) hi))
  have hpoly : ∀ i, 25 ≤ i → crc24Poly.testBit i = false := fun i hi =>
    Nat.testBit_lt_two_pow (lt_of_lt_of_le (by decide : crc24Poly < 2 ^ 25)
      (Nat.pow_le_pow_right (by omega) hi))
  apply Nat.lt_pow_two_of_testBit
  intro i hi
  simp only [crc24Shift, hbit]
  cases htop : (crc24 <<< 1).testBit 24 with
  | true =>
    simp only [Bool.toNat_true, one_mul]
    rw [if_pos (by decide), Nat.testBit_xor]
    rcases Nat.eq_or_lt_of_le hi with rfl | hi
    · rw [htop]
      decide
    · rw [hhigh i hi, hpoly i hi]
      rfl
  | false =>
    simp only [Bool.toNat_false, zero_mul]
    rw [if_neg (by decide)]
    rcases Nat.eq_or_lt_of_le hi with rfl | hi
    · exact htop
    · exact hhigh i hi

theorem crc24Octet_lt {crc24 : Nat} (h : crc24 < 2 ^ 24) (c : UInt8) :
    crc24Octet crc24 c < 2 ^ 24 := by
  have hc : c.toNat <<< 16 < 2 ^ 24 := by
    have := c.toNat_lt
    rw [Nat.shiftLeft_eq]
    omega
  have hiter : ∀ n, crc24Shift^[n] (crc24 ^^^ (c.toNat <<< 16)) < 2 ^ 24 := by
    intro n
    induction n with
    | zero => exact Nat.xor_lt_two_pow h hc
    | succ n ih =>
      rw [Function.iterate_succ_apply']
      exact crc24Shift_lt ih
  exact hiter 8

/-- The CRC of some octets; it never leaves 24 bits, so masking it changes nothing. -/
theorem foldl_crc24Octet_lt {crc24 : Nat} (h : crc24 < 2 ^ 24) (l : List UInt8) :
    l.foldl crc24Octet crc24 < 2 ^ 24 := by
  induction l generalizing crc24 with
  | nil => exact h
  | cons c l ih => exact ih (crc24Octet_lt h c)

theorem foldl_armorPutcharInt_crc24 (state : ArmorContext) (l : List UInt8) :
    (l.foldl armorPutcharInt state).crc24 = l.foldl crc24Octet state.crc24 := by
  induction l generalizing state with
  | nil => rfl
  | cons c l ih =>
    rw [List.foldl_cons, List.foldl_cons, ih, armorPutcharInt_eq]

/-! ## Dearmoring -/

/-- What the context has taken of a group of octets, and what its text spells. In the middle of a
group one sextet is taken in advance. -/
def Ahead (state : DearmorContext) (l : List UInt8) : Prop :=
  (state.curoctet = 0 ∧ Spells state.text (sextets 0 0 l)) ∨
    ((state.curoctet = 1 ∨ state.curoctet = 2) ∧ ∃ last vals,
      sextets state.curoctet last l = state.lastoctet :: vals ∧ Spells state.text vals)

/-- The context will deliver the octets, and end with the given CRC and count. -/
structure Delivers (crc count : Nat) (state : DearmorContext) (l : List UInt8) : Prop where
  ahead : Ahead state l
  crc24 : l.foldl crc24Octet state.crc24 = crc
  count : state.count + l.length = count

/-- The context has come to the end. -/
def Ended (crc count : Nat) (state : DearmorContext) : Prop :=
  state.crc24 = crc ∧ state.count = count

theorem ne_end {v : UInt8} (h : v.toNat < 64) : v ≠ 64 :=
  ne_of_sextet h (by simp)

theorem dearmorGetchar_next {crc count : Nat} {state : DearmorContext} {c : UInt8} {l : List UInt8}
    (h : Delivers crc count state (c :: l)) :
    ∃ state', dearmorGetchar state = (some c, state') ∧ Delivers crc count state' l := by
  obtain ⟨lastoctet, curoctet, n, crc24, text⟩ := state
  obtain ⟨hahead, hcrc, hcount⟩ := h
  have hcount' : n + 1 + l.length = count := by
    rw [← hcount, List.length_cons]
    show n + 1 + l.length = n + (l.length + 1)
    omega
  rcases hahead with ⟨rfl, hspells⟩ | ⟨rfl | rfl, last, vals, hvals, hspells⟩
  · obtain ⟨text₁, hnext₁, hlt₁, hspells₁⟩ := hspells.next
    obtain ⟨v, vals, hsext, hv, hlt⟩ := sextets_one c l
    rw [hsext] at hspells₁
    obtain ⟨text₂, hnext₂, -, hspells₂⟩ := hspells₁.next
    refine ⟨⟨v, 1, n + 1, crc24Octet crc24 c, text₂⟩, ?_,
      ⟨Or.inr ⟨Or.inl rfl, c, vals, hsext, hspells₂⟩, hcrc, hcount'⟩⟩
    simp [dearmorGetchar, hnext₁, hnext₂, ne_end hlt₁, ne_end hlt, join_first hv]
  · obtain ⟨v, vals', hsext, hv, hlt⟩ := sextets_two c l
    obtain ⟨rfl, rfl⟩ := List.cons.inj hvals
    rw [hsext] at hspells
    obtain ⟨text₁, hnext, -, hspells'⟩ := hspells.next
    refine ⟨⟨v, 2, n + 1, crc24Octet crc24 c, text₁⟩, ?_,
      ⟨Or.inr ⟨Or.inr rfl, c, vals', hsext, hspells'⟩, hcrc, hcount'⟩⟩
    simp [dearmorGetchar, hnext, ne_end hlt, join_second hv]
  · obtain ⟨rfl, rfl⟩ := List.cons.inj hvals
    obtain ⟨text₁, hnext, hlt, hspells'⟩ := hspells.next
    have hzero : sextets 0 c l = sextets 0 0 l := by cases l <;> rfl
    rw [hzero] at hspells'
    refine ⟨⟨c &&& 0x3F, 0, n + 1, crc24Octet crc24 c, text₁⟩, ?_,
      ⟨Or.inl ⟨rfl, hspells'⟩, hcrc, hcount'⟩⟩
    simp [dearmorGetchar, hnext, ne_end hlt, join_third]

theorem dearmorGetchar_stop {crc count : Nat} {state : DearmorContext}
    (h : Delivers crc count state []) :
    ∃ state', dearmorGetchar state = (none, state') ∧ Ended crc count state' := by
  have hend : (nextSextet state.text).1 = 64 := by
    rcases h.ahead with ⟨-, hspells⟩ | ⟨hcur, last, vals, hvals, hspells⟩
    · exact hspells
    · have hnil : vals = [] := by
        rcases hcur with hcur | hcur <;> rw [hcur] at hvals <;> exact (List.cons.inj hvals).2.symm
      rw [hnil] at hspells
      exact hspells
  refine ⟨{ state with text := (nextSextet state.text).2 }, ?_, h.crc24, h.count⟩
  simp [dearmorGetchar, hend]

theorem dearmorGetcharC_feeds (crc count : Nat) :
    Feeds dearmorGetcharC (Delivers crc count) (Ended crc count) :=
  eachOrNone_feeds dearmorGetchar_next dearmorGetchar_stop

theorem findHeader_data (count : Nat) (text : List UInt8) :
    findHeader .data count text = some text := by
  cases text <;> rfl

theorem findHeader_armorHeader (text : List UInt8) :
    findHeader .dashes 0 (armorHeader ++ text) = some text :=
  findHeader_data 2 text

/-! ## The round trip -/

theorem mask_crc24 {crc24 : Nat} (h : crc24 < 2 ^ 24) : crc24 &&& 0xffffff = crc24 :=
  (Nat.and_two_pow_sub_one_eq_mod crc24 24).trans (Nat.mod_eq_of_lt h)

theorem armorContext_eq {ps : List Packet} {l : List UInt8} (hl : streamOctets ps = some l) :
    armorContext ps = armorFinish (l.foldl armorPutcharInt (armorInit armorHeader)) := by
  have hput : Gathers armorPutchar := foldl_gathers armorPutcharInt
  unfold armorContext
  rw [writeOpenpgpStream_of_octets hput _ hl]
  rfl

theorem dearmor_armored (past : List Packet → UInt8) {ps : List Packet} {fuel : Nat}
    {l : List UInt8} (hl : streamOctets ps = some l) (hr : Readable past [] ps)
    (hfuel : ps.length < fuel) :
    ∃ ctx, dearmorOpenpgpStream past fuel (armorOpenpgpStream ps) [] = some ⟨ps, some ctx⟩ ∧
      ctx.crc24 = l.foldl crc24Octet crc24Init &&& 0xffffff ∧ ctx.count = l.length := by
  have hcur : (armorInit armorHeader).curoctet < 3 := by decide
  obtain ⟨t, ht, hspells⟩ := spells_armored hcur l
  have htext : armorOpenpgpStream ps = armorHeader ++ (t ++ armorFooter) := by
    unfold armorOpenpgpStream
    rw [armorContext_eq hl, ht, List.append_assoc]
    rfl
  have hdelivers : Delivers (l.foldl crc24Octet crc24Init) l.length
      (dearmorInit (t ++ armorFooter)) l :=
    ⟨Or.inl ⟨rfl, hspells armorFooter⟩, rfl, Nat.zero_add _⟩
  obtain ⟨s, hloop, hcrc, hcount⟩ :=
    readLoop_feeds (dearmorGetcharC_feeds _ _) 0 hl hr hfuel hdelivers
  refine ⟨dearmorFinish s, ?_, by rw [← hcrc]; rfl, hcount⟩
  rw [htext, dearmorOpenpgpStream, findHeader_armorHeader]
  simp [readOpenpgpStream, hloop]

/-- **Packets survive armoring and dearmoring.** The text of well-formed packets is dearmored into
exactly these packets. The CRC of the octets comes out the same on both sides and stands in the
text, and no counter overflows. -/
theorem dearmorOpenpgpStream_armorOpenpgpStream (past : List Packet → UInt8) {ps : List Packet}
    {fuel : Nat} (hps : ∀ p ∈ ps, p.WellFormed)
    (hsize : (writeOpenpgpStream (· ++ ·) [] ps).2.length < 2 ^ 30) (hfuel : ps.length < fuel) :
    ∃ ctx, dearmorOpenpgpStream past fuel (armorOpenpgpStream ps) [] = some ⟨ps, some ctx⟩ ∧
      ctx.crc24 = (armorContext ps).crc24 ∧
      ctx.crc24 = (writeOpenpgpStream (· ++ ·) [] ps).2.foldl crc24Octet crc24Init ∧
      (∃ data, armorOpenpgpStream ps =
        data ++ ('='.toUInt8 :: crc24Chars ctx.crc24 ++ ('\n'.toUInt8 :: armorFooter))) ∧
      (armorContext ps).count < 2 ^ 31 ∧ ctx.count < 2 ^ 31 := by
  obtain ⟨l, hl⟩ := streamOctets_of_wellFormed hps
  have hwritten : (writeOpenpgpStream (· ++ ·) [] ps).2 = l := by
    rw [writeOpenpgpStream_of_octets append_gathers [] hl, List.nil_append]
  rw [hwritten] at hsize ⊢
  obtain ⟨ctx, hdearmor, hcrc, hcount⟩ :=
    dearmor_armored past hl (readable_of_wellFormed hps) hfuel
  have hlt : l.foldl crc24Octet crc24Init < 2 ^ 24 := foldl_crc24Octet_lt (by decide) l
  have hctx := armorContext_eq hl
  have harmor : (armorContext ps).crc24 = ctx.crc24 := by
    rw [hctx, armorFinish_eq, hcrc]
    show _ &&& _ = _
    rw [foldl_armorPutcharInt_crc24]
    rfl
  have hstart : Counted (armorInit armorHeader) 0 := ⟨rfl, rfl⟩
  have hchars : (armorContext ps).count = 4 * ((0 + l.length + 2) / 3) := by
    rw [hctx]
    exact (hstart.foldl l).finish
  refine ⟨ctx, hdearmor, harmor.symm, by rw [hcrc, mask_crc24 hlt], ?_, by omega, by omega⟩
  obtain ⟨data, hdata⟩ := armorFinish_text (l.foldl armorPutcharInt (armorInit armorHeader))
  refine ⟨data, ?_⟩
  rw [← hctx, harmor] at hdata
  simp [armorOpenpgpStream, hdata]

/-- A user id is armored and dearmored. -/
theorem dearmorOpenpgpStream_armorOpenpgpStream_sample :
    ∃ ctx, dearmorOpenpgpStream (fun _ => 0) 2 (armorOpenpgpStream [⟨tagUid, true, [65, 66]⟩]) [] =
      some ⟨[⟨tagUid, true, [65, 66]⟩], some ctx⟩ ∧
      ctx.crc24 = (armorContext [⟨tagUid, true, [65, 66]⟩]).crc24 := by
  have hps : ∀ p ∈ [(⟨tagUid, true, [65, 66]⟩ : Packet)], p.WellFormed := by
    intro p hp
    obtain rfl := List.mem_singleton.mp hp
    exact ⟨fun _ => ⟨by decide, by decide⟩, fun h => absurd h (by simp),
      fun h => absurd h (by decide)⟩
  obtain ⟨ctx, hdearmor, hcrc, -⟩ :=
    dearmorOpenpgpStream_armorOpenpgpStream (fun _ => 0) hps (by decide) (by decide : 1 < 2)
  exact ⟨ctx, hdearmor, hcrc⟩

end Onak
