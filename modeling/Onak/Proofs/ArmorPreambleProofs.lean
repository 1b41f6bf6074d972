import Onak.Proofs.ArmorProofs
import Onak.Proofs.ReadStreamProofs

/-!
# Proofs: text in front of the armor

The search for the armor header counts dashes at the start of a line, and does not set the count back
when the line ends behind them; and a line of five dashes makes it pass over the line below. So it
depends on the lines before it whether the header line of a block is found. What is left of the
search at the start of a line is told by the lines alone.
-/

namespace Onak

open Source

/-! ## Lines -/

/-- Where the search for the header stands at the start of a line. -/
inductive LineState where
  /-- Lines of dashes alone right before this one have so many dashes. -/
  | dashes (count : Nat)
  /-- The line will be passed over. -/
  | skip
  /-- A line was taken for the header line. -/
  | headers
  /-- And another one for the empty line behind the header fields. -/
  | data
deriving DecidableEq

/-- What a line does to the search. -/
def lineStep : LineState → List UInt8 → LineState
  | .dashes count, line =>
    if count + (line.takeWhile (· = '-'.toUInt8)).length < 5 then
      if line.all (· = '-'.toUInt8) then .dashes (count + line.length) else .dashes 0
    else
      match line.drop (5 - count) with
      | [] => .skip
      | c :: _ => if c = 'B'.toUInt8 then .headers else .dashes 0
  | .skip, _ => .dashes 0
  | .headers, line => if line.all (· = '\r'.toUInt8) then .data else .headers
  | .data, _ => .data

/-- Complete lines of text. -/
def linesText (lines : List (List UInt8)) : List UInt8 := lines.flatMap (· ++ ['\n'.toUInt8])

/-- An armored block: a header line, header fields, an empty line, and data. -/
structure ArmoredBlock where
  /-- What follows the dashes and the first letter in the header line. -/
  title : List UInt8
  /-- The header fields. -/
  fields : List (List UInt8)
  /-- The empty line, which may hold carriage returns. -/
  empty : List UInt8
  /-- The data, with the checksum and the footer. -/
  data : List UInt8
  title_line : '\n'.toUInt8 ∉ title
  fields_lines : ∀ f ∈ fields, '\n'.toUInt8 ∉ f ∧ ∃ c ∈ f, c ≠ '\r'.toUInt8
  empty_line : ∀ c ∈ empty, c = '\r'.toUInt8

/-- Five dashes and the letter with which a header line starts. -/
def headerStart : List UInt8 := "-----B".toList.map Char.toUInt8

/-- The text of a block. -/
def ArmoredBlock.text (block : ArmoredBlock) : List UInt8 :=
  linesText ((headerStart ++ block.title) :: block.fields ++ [block.empty]) ++ block.data

/-! ## The search, line by line -/

/-- The search stands at the start of a line as the line state says. -/
inductive LineState.At : LineState → HeaderState → Nat → Prop
  | dashes {count : Nat} : count < 5 → At (.dashes count) .dashes count
  | skip {count : Nat} : At .skip .line count
  | headers : At .headers .headers 1
  | data {count : Nat} : At .data .data count

theorem findHeader_cons {state : HeaderState} (h : state ≠ .data) (count : Nat) (c : UInt8)
    (text : List UInt8) :
    findHeader state count (c :: text) =
      findHeader (headerStep state count c).1 (headerStep state count c).2 text := by
  cases state with
  | data => exact absurd rfl h
  | line | dashes | begin | headers => rfl

theorem findHeader_rest_of_line {line : List UInt8} (hline : '\n'.toUInt8 ∉ line) (count : Nat)
    (text : List UInt8) :
    findHeader .line count (line ++ '\n'.toUInt8 :: text) = findHeader .dashes 0 text := by
  induction line with
  | nil => rfl
  | cons c line ih =>
    rw [List.mem_cons, not_or] at hline
    rw [List.cons_append, findHeader_cons (by simp)]
    simp only [headerStep, if_neg (Ne.symm hline.1)]
    exact ih hline.2

theorem findHeader_header_line {line : List UInt8} (hline : '\n'.toUInt8 ∉ line) (count : Nat)
    (text : List UInt8) :
    findHeader .headers count (line ++ '\n'.toUInt8 :: text) =
      if line.all (· = '\r'.toUInt8) then
        findHeader (if count + 1 = 2 then .data else .headers) (count + 1) text
      else
        findHeader .headers 1 text := by
  induction line generalizing count with
  | nil => rfl
  | cons c line ih =>
    rw [List.mem_cons, not_or] at hline
    rw [List.cons_append, findHeader_cons (by simp)]
    by_cases hr : c = '\r'.toUInt8
    · have hstep : headerStep .headers count c = (.headers, count) := by
        rw [hr]
        rfl
      rw [hstep, ih hline.2]
      simp [hr]
    · simp only [headerStep, if_neg (Ne.symm hline.1), ne_eq, hr, not_false_eq_true, if_true]
      rw [ih hline.2]
      simp [hr]

theorem lineStep_dash {count : Nat} (h : count + 1 < 5) (line : List UInt8) :
    lineStep (.dashes count) ('-'.toUInt8 :: line) = lineStep (.dashes (count + 1)) line := by
  have hdrop : ('-'.toUInt8 :: line).drop (5 - count) = line.drop (5 - (count + 1)) := by
    rw [show 5 - count = 5 - (count + 1) + 1 by omega, List.drop_succ_cons]
  simp only [lineStep, hdrop, List.takeWhile_cons, List.all_cons, decide_true, if_true,
    List.length_cons, Bool.true_and]
  rw [show count + 1 + (line.takeWhile fun x => decide (x = '-'.toUInt8)).length =
    count + ((line.takeWhile fun x => decide (x = '-'.toUInt8)).length + 1) by omega,
    show count + 1 + line.length = count + (line.length + 1) by omega]

/-- The fifth dash, and what stands behind it. -/
theorem findHeader_fifth_dash {line : List UInt8} (hline : '\n'.toUInt8 ∉ line) :
    ∃ state count, (lineStep (.dashes 4) ('-'.toUInt8 :: line)).At state count ∧
      ∀ text, findHeader .dashes 4 ('-'.toUInt8 :: line ++ '\n'.toUInt8 :: text) =
        findHeader state count text := by
  cases line with
  | nil => exact ⟨.line, 5, .skip, fun _ => rfl⟩
  | cons c line =>
    rw [List.mem_cons, not_or] at hline
    have hstep : lineStep (.dashes 4) ('-'.toUInt8 :: c :: line) =
        if c = 'B'.toUInt8 then .headers else .dashes 0 := by
      have hfive : ¬ 4 + ((c :: line).takeWhile fun x => decide (x = '-'.toUInt8)).length + 1 < 5 := by
        omega
      simp only [lineStep, List.takeWhile_cons, decide_true, if_true, List.length_cons,
        ← Nat.add_assoc]
      rw [List.takeWhile_cons] at hfive
      rw [if_neg hfive]
      rfl
    rw [hstep]
    by_cases hB : c = 'B'.toUInt8
    · refine ⟨.headers, 1, by simpa [hB] using .headers, fun text => ?_⟩
      have hfind := findHeader_header_line hline.2 0 text
      rw [show (if 0 + 1 = 2 then HeaderState.data else .headers) = .headers from rfl,
        ite_self] at hfind
      rw [← hfind, hB]
      rfl
    · refine ⟨.dashes, 0, by simpa [hB] using .dashes (Nat.zero_lt_succ 4), fun text => ?_⟩
      have hbegin : headerStep .begin 5 c = (.line, 5) := if_neg hB
      have hfive : headerStep .dashes 4 '-'.toUInt8 = (.begin, 5) := rfl
      rw [← findHeader_rest_of_line hline.2 5 text, List.cons_append, List.cons_append,
        findHeader_cons (by simp), hfive, findHeader_cons (by simp), hbegin]

/-- What a line does, in the state that the line before it has left. -/
theorem LineState.At.line {st : LineState} {state : HeaderState} {count : Nat}
    (h : st.At state count) (hdata : st ≠ .data) {line : List UInt8}
    (hline : '\n'.toUInt8 ∉ line) :
    ∃ state' count', (lineStep st line).At state' count' ∧
      ∀ text, findHeader state count (line ++ '\n'.toUInt8 :: text) =
        findHeader state' count' text := by
  cases h with
  | @dashes count hcount =>
    induction line generalizing count with
    | nil =>
      refine ⟨.dashes, count, ?_, fun _ => rfl⟩
      simpa [lineStep, hcount] using .dashes hcount
    | cons c line ih =>
      rcases eq_or_ne c '-'.toUInt8 with rfl | hdash
      · rcases Nat.lt_or_ge (count + 1) 5 with hlt | hge
        · rw [List.mem_cons, not_or] at hline
          obtain ⟨state', count', hat, hfind⟩ := ih hline.2 hlt (by simp)
          refine ⟨state', count', by rwa [lineStep_dash hlt], fun text => ?_⟩
          rw [← hfind text, List.cons_append, findHeader_cons (by simp)]
          simp [headerStep, show count ≠ 4 by omega]
        · rw [List.mem_cons, not_or] at hline
          obtain rfl : count = 4 := by omega
          exact findHeader_fifth_dash hline.2
      · rw [List.mem_cons, not_or] at hline
        refine ⟨.dashes, 0, ?_, fun text => ?_⟩
        · simpa [lineStep, hdash, hcount] using .dashes (Nat.zero_lt_succ 4)
        · rw [← findHeader_rest_of_line hline.2 count text, List.cons_append,
            findHeader_cons (by simp)]
          simp only [headerStep, if_neg hdash, ne_eq, Ne.symm hline.1, not_false_eq_true, if_true]
  | @skip count =>
    exact ⟨.dashes, 0, .dashes (Nat.zero_lt_succ 4), findHeader_rest_of_line hline count⟩
  | headers =>
    by_cases hempty : line.all (· = '\r'.toUInt8) = true
    · refine ⟨.data, 2, by simpa [lineStep, hempty] using .data, fun text => ?_⟩
      rw [findHeader_header_line hline 1 text, if_pos hempty]
      rfl
    · refine ⟨.headers, 1, by simpa [lineStep, hempty] using .headers, fun text => ?_⟩
      rw [findHeader_header_line hline 1 text, if_neg hempty]
  | data => exact absurd rfl hdata

theorem foldl_lineStep_data (lines : List (List UInt8)) : lines.foldl lineStep .data = .data := by
  induction lines with
  | nil => rfl
  | cons line lines ih => exact ih

theorem linesText_cons (line : List UInt8) (lines : List (List UInt8)) (text : List UInt8) :
    linesText (line :: lines) ++ text = line ++ '\n'.toUInt8 :: (linesText lines ++ text) := by
  simp [linesText]

/-- What lines do: the search goes on behind them, or it has ended somewhere in them. -/
theorem LineState.At.lines {st : LineState} {state : HeaderState} {count : Nat}
    (h : st.At state count) {lines : List (List UInt8)}
    (hlines : ∀ line ∈ lines, '\n'.toUInt8 ∉ line) :
    (lines.foldl lineStep st ≠ .data ∧ ∃ state' count', (lines.foldl lineStep st).At state' count' ∧
      ∀ text, findHeader state count (linesText lines ++ text) = findHeader state' count' text) ∨
    (lines.foldl lineStep st = .data ∧
      ∃ t, ∀ text, findHeader state count (linesText lines ++ text) = some (t ++ text)) := by
  induction lines generalizing st state count with
  | nil =>
    by_cases hdata : st = .data
    · subst hdata
      cases h with
      | data => exact .inr ⟨rfl, [], fun text => findHeader_data _ text⟩
    · exact .inl ⟨hdata, state, count, h, fun _ => rfl⟩
  | cons line lines ih =>
    by_cases hdata : st = .data
    · subst hdata
      cases h with
      | data =>
        exact .inr ⟨foldl_lineStep_data _, linesText (line :: lines), fun _ => findHeader_data _ _⟩
    · obtain ⟨state₁, count₁, hat, hfind⟩ := h.line hdata (hlines line List.mem_cons_self)
      have hrest := ih hat fun l hl => hlines l (List.mem_cons_of_mem line hl)
      simp only [linesText_cons, hfind]
      exact hrest

/-! ## A block behind the lines -/

/-- The rest of a block behind its header line. -/
def ArmoredBlock.rest (block : ArmoredBlock) : List UInt8 :=
  linesText (block.fields ++ [block.empty]) ++ block.data

theorem ArmoredBlock.text_eq (block : ArmoredBlock) :
    block.text = (headerStart ++ block.title) ++ '\n'.toUInt8 :: block.rest :=
  linesText_cons _ _ _

theorem ArmoredBlock.header_line (block : ArmoredBlock) :
    '\n'.toUInt8 ∉ headerStart ++ block.title := by
  rw [List.mem_append, not_or]
  exact ⟨by decide, block.title_line⟩

/-- The search finds the header line of a block if no dashes are left over before it. -/
theorem findHeader_block (block : ArmoredBlock) :
    findHeader .dashes 0 block.text = findHeader .headers 1 block.rest := by
  obtain ⟨state, count, hat, hfind⟩ :=
    (LineState.At.dashes (Nat.zero_lt_succ 4)).line (by simp) block.header_line
  rw [block.text_eq, hfind]
  cases hat
  rfl

/-- Behind a line that was taken for a header line, the one of the block is one more field. -/
theorem findHeader_block_headers (block : ArmoredBlock) :
    findHeader .headers 1 block.text = findHeader .headers 1 block.rest := by
  obtain ⟨state, count, hat, hfind⟩ := LineState.At.headers.line (by simp) block.header_line
  rw [block.text_eq, hfind]
  cases hat
  rfl

/-- Behind some dashes, or when the line is passed over, the header line of a block is lost. -/
theorem findHeader_block_lost {st : LineState} {state : HeaderState} {count : Nat}
    (h : st.At state count) (hst : st = .skip ∨ ∃ n, st = .dashes n ∧ n ≠ 0)
    (block : ArmoredBlock) : findHeader state count block.text = findHeader .dashes 0 block.rest := by
  have hdata : st ≠ .data := by
    rcases hst with rfl | ⟨n, rfl, -⟩ <;> simp
  obtain ⟨state', count', hat, hfind⟩ := h.line hdata block.header_line
  have hlost : lineStep st (headerStart ++ block.title) = .dashes 0 := by
    rcases hst with rfl | ⟨n, rfl, hn⟩
    · rfl
    · cases h with
      | dashes hlt =>
        match count, hn, hlt with
        | 1, _, _ => rfl
        | 2, _, _ => rfl
        | 3, _, _ => rfl
        | 4, _, _ => rfl
  rw [hlost] at hat
  rw [block.text_eq, hfind]
  cases hat
  rfl

/-! ## Data that ends at the block -/

theorem nextSextet_dash (t : List UInt8) :
    (∀ x, (nextSextet (t ++ '-'.toUInt8 :: x)).1 = 64) ∨
      ∃ v t', v ≠ 64 ∧ t'.length < t.length ∧
        ∀ x, nextSextet (t ++ '-'.toUInt8 :: x) = (v, t' ++ '-'.toUInt8 :: x) := by
  induction t with
  | nil => exact .inl fun _ => rfl
  | cons c t ih =>
    by_cases hskip : decode64 c = 65
    · have hnext : ∀ x, nextSextet (c :: t ++ '-'.toUInt8 :: x) =
          nextSextet (t ++ '-'.toUInt8 :: x) := fun x => by
        rw [List.cons_append, nextSextet, if_pos hskip]
      simp only [hnext]
      rcases ih with hend | ⟨v, t', hv, hlen, hmore⟩
      · exact .inl hend
      · exact .inr ⟨v, t', hv, Nat.lt_succ_of_lt hlen, hmore⟩
    · have hnext : ∀ x, nextSextet (c :: t ++ '-'.toUInt8 :: x) =
          (decode64 c, t ++ '-'.toUInt8 :: x) := fun x => by
        rw [List.cons_append, nextSextet, if_neg hskip]
      simp only [hnext]
      by_cases hend : decode64 c = 64
      · exact .inl fun _ => hend
      · exact .inr ⟨decode64 c, t, hend, Nat.lt_succ_self _, fun _ => rfl⟩

theorem dearmorGetchar_dash (t : List UInt8) (lastoctet : UInt8) (curoctet count crc24 : Nat) :
    (∀ x, (dearmorGetchar ⟨lastoctet, curoctet, count, crc24, t ++ '-'.toUInt8 :: x⟩).1 = none) ∨
      ∃ c last' cur' count' crc' t', t'.length < t.length ∧
        ∀ x, dearmorGetchar ⟨lastoctet, curoctet, count, crc24, t ++ '-'.toUInt8 :: x⟩ =
          (some c, ⟨last', cur', count', crc', t' ++ '-'.toUInt8 :: x⟩) := by
  rcases nextSextet_dash t with hend | ⟨v, t₁, hv, hlt₁, hmore⟩
  · left
    intro x
    simp [dearmorGetchar, hend x]
  · have hplace : curoctet = 0 ∨ curoctet = 1 ∨ curoctet = 2 ∨ ∃ n, curoctet = n + 3 := by
      rcases Nat.lt_or_ge curoctet 3 with hlt | hge
      · omega
      · exact .inr (.inr (.inr ⟨curoctet - 3, by omega⟩))
    rcases hplace with rfl | rfl | rfl | ⟨n, rfl⟩
    · -- the first octet of a group takes two sextets
      rcases nextSextet_dash t₁ with hend | ⟨w, t₂, hw, hlt₂, hmore₂⟩
      · left
        intro x
        simp [dearmorGetchar, hmore x, hv, hend x]
      · right
        refine ⟨(v <<< 2) + (w >>> 4), w, 1, count + 1, crc24Octet crc24 ((v <<< 2) + (w >>> 4)), t₂,
          by omega, fun x => ?_⟩
        simp [dearmorGetchar, hmore x, hmore₂ x, hv, hw]
    · right
      refine ⟨((lastoctet &&& 0xF) <<< 4) + (v >>> 2), v, 2, count + 1,
        crc24Octet crc24 (((lastoctet &&& 0xF) <<< 4) + (v >>> 2)), t₁, hlt₁, fun x => ?_⟩
      simp [dearmorGetchar, hmore x, hv]
    · right
      refine ⟨((lastoctet &&& 3) <<< 6) + v, v, 0, count + 1,
        crc24Octet crc24 (((lastoctet &&& 3) <<< 6) + v), t₁, hlt₁, fun x => ?_⟩
      simp [dearmorGetchar, hmore x, hv]
    · right
      refine ⟨0, v, (n + 3 + 1) % 3, count + 1, crc24Octet crc24 0, t₁, hlt₁, fun x => ?_⟩
      simp [dearmorGetchar, hmore x, hv]

/-- A dash ends the data: which octets come before it does not depend on what is behind it. -/
theorem exists_yields_dash (t : List UInt8) (lastoctet : UInt8) (curoctet count crc24 : Nat) :
    ∃ l, ∀ x, Yields dearmorGetchar ⟨lastoctet, curoctet, count, crc24, t ++ '-'.toUInt8 :: x⟩ l := by
  -- each octet takes some of the text
  induction hn : t.length using Nat.strong_induction_on
    generalizing t lastoctet curoctet count crc24 with
  | _ n ih =>
    rcases dearmorGetchar_dash t lastoctet curoctet count crc24 with hend |
      ⟨c, last', cur', count', crc', t', hlt, hnext⟩
    · exact ⟨[], fun x => .stop (Prod.ext (hend x) rfl)⟩
    · obtain ⟨l, hl⟩ := ih t'.length (hn ▸ hlt) t' last' cur' count' crc' rfl
      exact ⟨c :: l, fun x => .next (hnext x) (hl x)⟩

/-- So from data that a dash ends, the same packets are read whatever is behind it. -/
theorem dearmor_dash (past : List Packet → UInt8) (t : List UInt8) :
    ∃ ps n, ∀ fuel > n, ∀ x, ∃ r,
      readOpenpgpStream dearmorGetcharC past fuel (dearmorInit (t ++ '-'.toUInt8 :: x)) [] 0 = some r ∧
        r.packets = ps := by
  obtain ⟨l, hl⟩ := exists_yields_dash t 0 0 0 crc24Init
  obtain ⟨ps, rest, hdecodes⟩ := @exists_decodes past 0 [] l
  obtain ⟨left, hdropped, hkept⟩ :
      ∃ left, (Stray 0 ps rest → left = ps.dropLast) ∧ (¬ Stray 0 ps rest → left = ps) := by
    by_cases hs : Stray 0 ps rest
    · exact ⟨ps.dropLast, fun _ => rfl, fun h => absurd hs h⟩
    · exact ⟨ps, fun h => absurd h hs, fun _ => rfl⟩
  refine ⟨left, l.length, fun fuel hfuel x => ?_⟩
  obtain ⟨r, hloop, hstray, hkeep⟩ :=
    readLoop_decodes_of_feeds yields_feeds yields_consumes hdecodes (hl x) hfuel
  rw [List.nil_append] at hstray hkeep
  refine ⟨{ r with packets := [] ++ r.packets }, ?_, ?_⟩
  · unfold readOpenpgpStream
    have hloop' : readLoop dearmorGetcharC past 0 fuel 0 [] (dearmorInit (t ++ '-'.toUInt8 :: x)) =
      some r := hloop
    rw [hloop']
    rfl
  · by_cases hs : Stray 0 ps rest
    · exact (hstray hs).trans (hdropped hs).symm
    · exact (hkeep hs).trans (hkept hs).symm

/-! ## The header behind a preamble -/

/-- The armored text of packets as a block. -/
def armoredBlock (ps : List Packet) : ArmoredBlock where
  title := "EGIN PGP PUBLIC KEY BLOCK-----".toList.map Char.toUInt8
  fields := []
  empty := []
  data := (armorOpenpgpStream ps).drop armorHeader.length
  title_line := by decide
  fields_lines := by simp
  empty_line := by simp

theorem armoredBlock_text {ps : List Packet} {l : List UInt8} (hl : streamOctets ps = some l) :
    (armoredBlock ps).text = armorOpenpgpStream ps := by
  have hcur : (armorInit armorHeader).curoctet < 3 := by decide
  obtain ⟨t, ht, -⟩ := spells_armored hcur l
  have htext : armorOpenpgpStream ps = armorHeader ++ (t ++ armorFooter) := by
    unfold armorOpenpgpStream
    rw [armorContext_eq hl, ht, List.append_assoc]
    rfl
  have hdata : (armoredBlock ps).data = t ++ armorFooter := by
    show (armorOpenpgpStream ps).drop armorHeader.length = _
    rw [htext, List.drop_left]
  unfold ArmoredBlock.text
  rw [hdata, htext]
  rfl

/-- Behind the lines, every block is dearmored as it is alone. -/
def DearmorsBehind (lines : List (List UInt8)) : Prop :=
  ∀ (block : ArmoredBlock) (past : List Packet → UInt8) (fuel : Nat) (packets : List Packet),
    (dearmorOpenpgpStream past fuel (linesText lines ++ block.text) packets).map (·.packets) =
      (dearmorOpenpgpStream past fuel block.text packets).map (·.packets)

/-- Behind the lines, the search waits for the start of a header line with no dashes left over, or
is already in header lines. -/
def ReadyBehind (lines : List (List UInt8)) : Prop :=
  lines.foldl lineStep (.dashes 0) = .dashes 0 ∨ lines.foldl lineStep (.dashes 0) = .headers

theorem dearmorOpenpgpStream_none {text : List UInt8} (h : findHeader .dashes 0 text = none)
    (past : List Packet → UInt8) (fuel : Nat) (packets : List Packet) :
    dearmorOpenpgpStream past fuel text packets = some ⟨packets, none⟩ := by
  rw [dearmorOpenpgpStream, h]

/-- What a block holds that is dearmored alone. -/
theorem dearmor_armoredBlock (c : UInt8) (fuel : Nat) :
    (dearmorOpenpgpStream (fun _ => 0) (fuel + 2) (armoredBlock [⟨tagUid, true, [c]⟩]).text []).map
      (·.packets) = some [⟨tagUid, true, [c]⟩] := by
  have hwell : ∀ p ∈ [(⟨tagUid, true, [c]⟩ : Packet)], p.WellFormed := by
    intro p hp
    obtain rfl := List.mem_singleton.mp hp
    have htag : tagUid < 64 ∧ tagUid ∉ versionedTags := by decide
    exact ⟨fun _ => ⟨htag.1, by simp [Packet.length]⟩, fun h => absurd h (by simp),
      fun h => absurd h htag.2⟩
  obtain ⟨l, hl⟩ := streamOctets_of_wellFormed hwell
  obtain ⟨ctx, hdearmor, -⟩ := dearmor_armored (fun _ => 0) hl (readable_of_wellFormed hwell)
    (by simp : 1 < fuel + 2)
  rw [armoredBlock_text hl, hdearmor]
  rfl

/-- **When the armor header is found behind a preamble.** Behind complete lines of text, every block
is dearmored as it is alone if and only if the lines leave no dashes over, no line to be passed over,
and no data. -/
theorem dearmor_preamble_iff {lines : List (List UInt8)}
    (hlines : ∀ line ∈ lines, '\n'.toUInt8 ∉ line) : DearmorsBehind lines ↔ ReadyBehind lines := by
  have hstart : (LineState.dashes 0).At .dashes 0 := .dashes (Nat.zero_lt_succ 4)
  rcases hstart.lines hlines with ⟨hdata, state, count, hat, hfind⟩ | ⟨hdata, t, hfind⟩
  · constructor
    · intro h
      by_contra hready
      unfold ReadyBehind at hready
      rw [not_or] at hready
      have hlost : ∀ block : ArmoredBlock, findHeader state count block.text =
          findHeader .dashes 0 block.rest := by
        refine findHeader_block_lost hat ?_
        cases hst : lines.foldl lineStep (.dashes 0) with
        | dashes n => exact .inr ⟨n, rfl, fun hn => hready.1 (hn ▸ hst)⟩
        | skip => exact .inl rfl
        | headers => exact absurd hst hready.2
        | data => exact absurd hst hdata
      have hnone : findHeader .dashes 0 (armoredBlock [⟨tagUid, true, [65]⟩]).rest = none := by
        decide +kernel
      have hsame := h (armoredBlock [⟨tagUid, true, [65]⟩]) (fun _ => 0) 2 []
      rw [dearmor_armoredBlock, dearmorOpenpgpStream_none (by rw [hfind, hlost, hnone])] at hsame
      exact absurd hsame (by simp)
    · rintro hready block past fuel packets
      have hsame : findHeader .dashes 0 (linesText lines ++ block.text) =
          findHeader .dashes 0 block.text := by
        rw [hfind]
        rcases hready with hready | hready
        · rw [hready] at hat
          cases hat
          rfl
        · rw [hready] at hat
          cases hat
          rw [findHeader_block_headers, findHeader_block]
      unfold dearmorOpenpgpStream
      rw [hsame]
  · -- the data ends at the first dash of the block, so all blocks would hold the same packets
    have hready : ¬ ReadyBehind lines := by
      unfold ReadyBehind
      rw [hdata]
      simp
    refine ⟨fun h => ?_, fun h => absurd h hready⟩
    obtain ⟨ps, n, hread⟩ := dearmor_dash (fun _ => 0) t
    have hall : ∀ c, [(⟨tagUid, true, [c]⟩ : Packet)] = ps := by
      intro c
      have hsame := h (armoredBlock [⟨tagUid, true, [c]⟩]) (fun _ => 0) (n + 2) []
      have htext : (armoredBlock [⟨tagUid, true, [c]⟩]).text = '-'.toUInt8 ::
          ((armoredBlock [⟨tagUid, true, [c]⟩]).text.drop 1) := rfl
      obtain ⟨r, hr, hps⟩ := hread (n + 2) (by omega) ((armoredBlock [⟨tagUid, true, [c]⟩]).text.drop 1)
      rw [dearmor_armoredBlock, dearmorOpenpgpStream, hfind, htext] at hsame
      simp only [hr] at hsame
      rw [← hps]
      exact (Option.some.inj hsame).symm
    have hne := (hall 65).trans (hall 66).symm
    exact absurd hne (by decide)

/-- A greeting, an empty line and a rule of six dashes before a block. -/
theorem dearmor_preamble_iff_sample :
    DearmorsBehind ["Hello".toList.map Char.toUInt8, [], "------".toList.map Char.toUInt8] :=
  (dearmor_preamble_iff (by decide)).mpr (.inl (by decide))

/-- Two dashes in the line before a block, and its header is not found. -/
theorem dearmor_preamble_lost :
    ¬ ∀ lines : List (List UInt8),
      (∀ line ∈ lines, '\n'.toUInt8 ∉ line ∧ ¬ headerStart <+: line) → DearmorsBehind lines := by
  intro hall
  have hsame := hall ["--".toList.map Char.toUInt8] (by decide) (armoredBlock [⟨tagUid, true, [65]⟩])
    (fun _ => 0) 2 []
  have hlost : findHeader .dashes 0 (linesText ["--".toList.map Char.toUInt8] ++
      (armoredBlock [⟨tagUid, true, [65]⟩]).text) = none := by
    decide +kernel
  rw [dearmor_armoredBlock, dearmorOpenpgpStream_none hlost] at hsame
  exact absurd hsame (by simp)

end Onak
