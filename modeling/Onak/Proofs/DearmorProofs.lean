import Onak.Proofs.ArmorPreambleProofs
import Onak.Proofs.TruncatedArmorProofs

/-!
# Proofs: the dearmoring of any text

Behind the end of its text `dearmor_getchar` hands out zeros for ever, so that it is not the source that
ends the reading. It ends all the same: an octet takes a character, until the octets are zeros, and no
packet starts with one.
-/

namespace Onak

open Source Sextet

/-! ## Any text is read to an end -/

/-- How many octets can come before the zeros. -/
def octetsLeft (state : DearmorContext) : Nat :=
  if state.text = [] then (if state.curoctet = 0 ∨ state.lastoctet = 0 then 0 else 1)
  else state.text.length + 1

theorem length_nextSextet (text : List UInt8) :
    (nextSextet text).2.length ≤ text.length - 1 := by
  induction text with
  | nil => exact Nat.le_refl _
  | cons c text ih =>
    unfold nextSextet
    split_ifs with hskip
    · rw [List.length_cons]
      omega
    · rw [List.length_cons]
      exact Nat.le_refl _

theorem octetsLeft_le (state : DearmorContext) : octetsLeft state ≤ state.text.length + 1 := by
  unfold octetsLeft
  split_ifs <;> omega

theorem nextSextet_nil : nextSextet [] = (0, []) := by decide

/-- Behind the text, the octet that is begun is completed with zeros. -/
theorem dearmorGetchar_nil (lastoctet : UInt8) (curoctet count crc24 : Nat) :
    ∃ c crc, dearmorGetchar ⟨lastoctet, curoctet, count, crc24, []⟩ =
        (some c, ⟨0, (curoctet + 1) % 3, count + 1, crc, []⟩) ∧
      (curoctet = 0 ∨ lastoctet = 0 → c = 0) := by
  unfold dearmorGetchar
  rw [nextSextet_nil]
  obtain _ | _ | _ | curoctet := curoctet
  · exact ⟨0, _, rfl, fun _ => rfl⟩
  · refine ⟨((lastoctet &&& 0xF) <<< 4) + ((0 : UInt8) >>> 2), _, rfl, ?_⟩
    rintro (hcur | rfl)
    · exact absurd hcur (by decide)
    · decide
  · refine ⟨((lastoctet &&& 3) <<< 6) + 0, _, rfl, ?_⟩
    rintro (hcur | rfl)
    · exact absurd hcur (by decide)
    · decide
  · exact ⟨0, _, rfl, fun _ => rfl⟩

/-- An octet takes a character with it. -/
theorem length_dearmorGetchar {state state' : DearmorContext} {c : UInt8}
    (h : dearmorGetchar state = (some c, state')) :
    state'.text.length ≤ state.text.length - 1 := by
  obtain ⟨lastoctet, curoctet, count, crc24, text⟩ := state
  have hfirst := length_nextSextet text
  have hsecond := length_nextSextet (nextSextet text).2
  by_cases hend : (nextSextet text).1 = 64
  · simp only [dearmorGetchar, hend, ne_eq, not_true_eq_false, if_false] at h
    exact absurd (Prod.mk.inj h).1 (by simp)
  · simp only [dearmorGetchar, ne_eq, hend, not_false_eq_true, if_true] at h
    obtain ⟨-, rfl⟩ := Prod.mk.inj h
    obtain _ | _ | _ | curoctet := curoctet
    · show (nextSextet (nextSextet text).2).2.length ≤ text.length - 1
      omega
    · exact hfirst
    · exact hfirst
    · exact hfirst

theorem dearmorGetchar_lowers {state state' : DearmorContext} {c : UInt8}
    (h : dearmorGetchar state = (some c, state')) :
    octetsLeft state' ≤ octetsLeft state - 1 ∧ (octetsLeft state = 0 → c = 0) := by
  by_cases hnil : state.text = []
  · obtain ⟨lastoctet, curoctet, count, crc24, text⟩ := state
    obtain rfl : text = [] := hnil
    obtain ⟨c', crc, hget, hzero⟩ := dearmorGetchar_nil lastoctet curoctet count crc24
    obtain ⟨hc, rfl⟩ := Prod.mk.inj (hget.symm.trans h)
    obtain rfl := Option.some.inj hc
    refine ⟨?_, ?_⟩
    · rw [octetsLeft, if_pos rfl, if_pos (Or.inr rfl)]
      exact Nat.zero_le _
    · intro hleft
      apply hzero
      by_contra hnot
      rw [octetsLeft, if_pos rfl, if_neg hnot] at hleft
      exact absurd hleft (by decide)
  · have hleft : octetsLeft state = state.text.length + 1 := by rw [octetsLeft, if_neg hnil]
    have hpos : 0 < state.text.length := List.length_pos_of_ne_nil hnil
    have hlen := length_dearmorGetchar h
    have hle := octetsLeft_le state'
    exact ⟨by omega, by omega⟩

theorem dearmorGetcharC_lowers :
    Consumes dearmorGetcharC fun s l s' => octetsLeft s' ≤ octetsLeft s - l.length :=
  eachOrNone_lowers fun h => (dearmorGetchar_lowers h).1

theorem getOctet_dearmor {state state' : DearmorContext} {c : UInt8}
    (h : getOctet dearmorGetcharC state = (some c, state')) :
    dearmorGetchar state = (some c, state') := by
  unfold getOctet dearmorGetcharC eachOrNone takeEach at h
  obtain ⟨o, state₁, hget⟩ : ∃ o state₁, dearmorGetchar state = (o, state₁) := ⟨_, _, rfl⟩
  rw [hget] at h ⊢
  cases o with
  | none => exact absurd (Prod.mk.inj h).1 (by simp)
  | some d => exact h

/-- One round for each octet that is left, and one more. -/
theorem readLoop_dearmor (past : List Packet → UInt8) (maxnum : Int) {fuel : Nat} (keys : Nat)
    (packets : List Packet) {state : DearmorContext} (hfuel : octetsLeft state < fuel) :
    ∃ r, readLoop dearmorGetcharC past maxnum fuel keys packets state = some r := by
  induction fuel generalizing keys packets state with
  | zero => exact absurd hfuel (Nat.not_lt_zero _)
  | succ fuel ih =>
    by_cases hbelow : maxnum = 0 ∨ keys < maxnum
    · cases hget : getOctet dearmorGetcharC state with
      | mk o s₁ =>
        cases o with
        | none => exact ⟨_, readLoop_end hbelow hget⟩
        | some c =>
          by_cases hbit : c &&& 0x80 = 0
          · exact ⟨_, readLoop_stray hbelow hget hbit⟩
          · cases hread : readPacket dearmorGetcharC (past packets) c s₁ with
            | mk result s₂ =>
              cases result with
              | error rc => exact ⟨_, readLoop_error hbelow hget hbit hread⟩
              | ok p =>
                rw [readLoop_packet hbelow hget hbit hread]
                obtain ⟨octets, -, -, hused⟩ :=
                  readPacket_consumes dearmorGetcharC_lowers hbit hread
                obtain ⟨hfirst, hzero⟩ := dearmorGetchar_lowers (getOctet_dearmor hget)
                have hleft : octetsLeft state ≠ 0 := by
                  intro hnone
                  rw [hzero hnone] at hbit
                  exact hbit (by decide)
                exact ih _ _ (by omega)
    · exact ⟨_, by simp only [readLoop, hbelow, not_false_eq_true, if_true]; rfl⟩

theorem length_findHeader {state : HeaderState} {count : Nat} {text data : List UInt8}
    (h : findHeader state count text = some data) : data.length ≤ text.length := by
  induction text generalizing state count with
  | nil =>
    cases state with
    | data => exact (Option.some.inj h).symm ▸ Nat.le_refl _
    | line | dashes | begin | headers => exact absurd h (by simp [findHeader])
  | cons c text ih =>
    by_cases hdata : state = .data
    · rw [hdata, findHeader_data] at h
      rw [Option.some.inj h]
    · rw [findHeader_cons hdata] at h
      exact (ih h).trans (Nat.le_succ _)

/-- Any text is dearmored in at most as many rounds as it has characters, and three. -/
theorem dearmorOpenpgpStream_ends (past : List Packet → UInt8) (text : List UInt8)
    (packets : List Packet) :
    ∃ r, dearmorOpenpgpStream past (text.length + 3) text packets = some r := by
  unfold dearmorOpenpgpStream
  cases hfind : findHeader .dashes 0 text with
  | none => exact ⟨_, rfl⟩
  | some data =>
    have hlen := length_findHeader hfind
    have hleft : octetsLeft (dearmorInit data) < text.length + 3 := by
      have hle := octetsLeft_le (dearmorInit data)
      have htext : (dearmorInit data).text = data := rfl
      rw [htext] at hle
      omega
    obtain ⟨r, hloop⟩ := readLoop_dearmor past 0 0 [] hleft
    simp [readOpenpgpStream, hloop]

/-- Rounds that are not needed change nothing. -/
theorem readLoop_more {σ : Type} {getchar : σ → Nat → List UInt8 × σ} {past : List Packet → UInt8}
    {maxnum : Int} {fuel keys : Nat} {packets : List Packet} {s : σ} {r : ReadResult σ}
    (h : readLoop getchar past maxnum fuel keys packets s = some r) :
    readLoop getchar past maxnum (fuel + 1) keys packets s = some r := by
  induction fuel generalizing keys packets s with
  | zero => exact absurd h (by simp [readLoop])
  | succ fuel ih =>
    by_cases hbelow : maxnum = 0 ∨ keys < maxnum
    · cases hget : getOctet getchar s with
      | mk o s₁ =>
        cases o with
        | none =>
          rw [readLoop_end hbelow hget] at h ⊢
          exact h
        | some c =>
          by_cases hbit : c &&& 0x80 = 0
          · rw [readLoop_stray hbelow hget hbit] at h ⊢
            exact h
          · cases hread : readPacket getchar (past packets) c s₁ with
            | mk result s₂ =>
              cases result with
              | error rc =>
                rw [readLoop_error hbelow hget hbit hread] at h ⊢
                exact h
              | ok p =>
                rw [readLoop_packet hbelow hget hbit hread] at h ⊢
                exact ih h
    · simp only [readLoop, hbelow, not_false_eq_true, if_true] at h ⊢
      exact h

theorem dearmorOpenpgpStream_more {past : List Packet → UInt8} {fuel : Nat} (n : Nat)
    {text : List UInt8} {packets : List Packet} {r : DearmorResult}
    (h : dearmorOpenpgpStream past fuel text packets = some r) :
    dearmorOpenpgpStream past (fuel + n) text packets = some r := by
  induction n with
  | zero => exact h
  | succ n ih =>
    unfold dearmorOpenpgpStream at ih ⊢
    cases hfind : findHeader .dashes 0 text with
    | none =>
      rw [hfind] at ih
      exact ih
    | some data =>
      rw [hfind] at ih
      cases hloop : readLoop dearmorGetcharC past 0 (fuel + n) 0 [] (dearmorInit data) with
      | none => simp [readOpenpgpStream, hloop] at ih
      | some loop =>
        have hmore := readLoop_more hloop
        simp only [readOpenpgpStream, hloop] at ih
        simp only [readOpenpgpStream, ← Nat.add_assoc, hmore]
        exact ih

/-- **Dearmoring comes to an end.** Whatever a text is, `dearmor_openpgp_stream` leaves the same behind
for any number of rounds that is greater than the number of its characters by three. -/
theorem dearmorOpenpgpStream_total (past : List Packet → UInt8) (text : List UInt8)
    (packets : List Packet) :
    ∃ r, ∀ n, dearmorOpenpgpStream past (text.length + 3 + n) text packets = some r := by
  obtain ⟨r, hends⟩ := dearmorOpenpgpStream_ends past text packets
  exact ⟨r, fun n => dearmorOpenpgpStream_more n hends⟩

/-- However many rounds it took, these are the packets of the text. -/
theorem dearmoredPackets_eq {past : List Packet → UInt8} {fuel : Nat} {text : List UInt8}
    {r : DearmorResult} (h : dearmorOpenpgpStream past fuel text [] = some r) :
    dearmoredPackets past text = r.packets := by
  obtain ⟨r', hends⟩ := dearmorOpenpgpStream_ends past text []
  have hmore := dearmorOpenpgpStream_more fuel hends
  have hmore' := dearmorOpenpgpStream_more (text.length + 3) h
  rw [Nat.add_comm] at hmore'
  rw [dearmoredPackets, hends, Option.some.inj (hmore.symm.trans hmore')]
  rfl

/-! ## An armored text with anything behind it -/

/-- What lies behind an armored text is not read. -/
theorem dearmoredPackets_armored (past : List Packet → UInt8) {ps : List Packet}
    (hps : ∀ p ∈ ps, p.WellFormed) (behind : List UInt8) :
    dearmoredPackets past (armorOpenpgpStream ps ++ behind) = ps := by
  obtain ⟨l, hl⟩ := streamOctets_of_wellFormed hps
  have hr : Readable past [] ps := readable_of_wellFormed hps
  have hcur : (armorInit armorHeader).curoctet < 3 := by decide
  obtain ⟨t, ht, hspells⟩ := spells_armored hcur l
  have htext : armorOpenpgpStream ps ++ behind = armorHeader ++ (t ++ (armorFooter ++ behind)) := by
    rw [armorOpenpgpStream, armorContext_eq hl, ht]
    simp only [List.append_assoc]
    rfl
  have hdelivers : Delivers (l.foldl crc24Octet crc24Init) l.length
      (dearmorInit (t ++ (armorFooter ++ behind))) l :=
    ⟨Or.inl ⟨rfl, hspells (armorFooter ++ behind)⟩, rfl, Nat.zero_add _⟩
  obtain ⟨s, hloop, -⟩ :=
    readLoop_feeds (dearmorGetcharC_feeds _ _) 0 hl hr (Nat.lt_succ_self ps.length) hdelivers
  have hdearmor : dearmorOpenpgpStream past (ps.length + 1) (armorOpenpgpStream ps ++ behind) [] =
      some ⟨ps, some (dearmorFinish s)⟩ := by
    rw [htext, dearmorOpenpgpStream, findHeader_armorHeader]
    simp [readOpenpgpStream, hloop]
  exact dearmoredPackets_eq hdearmor

end Onak
