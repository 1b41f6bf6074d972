import Onak.KeyringScan
import Onak.Proofs.KeyringProofs

/-!
# Proofs: the scan of a keyring file

The scan is safe as long as it goes from packet to packet and every packet ends inside the file. A
packet that does not, or a length that is not supported, leaves it behind the end or where it was.
-/

namespace Onak

open PrefixCode Loops

@[simp] theorem KeyringScan.tag_pos (tag : Nat) (s : KeyringScan) : (s.tag tag).pos = s.pos := by
  unfold KeyringScan.tag
  split_ifs <;> rfl

/-! ## The loop and its scan -/

section

variable {H : Hashes} {past : List Packet → UInt8} {pastSig : List PublicKey → Nat → UInt8}
  {file : List UInt8}

/-- What the scan has of the variables. -/
def KeyringWalk.scan (w : KeyringWalk) : KeyringScan :=
  ⟨w.len, w.pos, w.start, w.totlen, w.keys.map fun entry => (entry.start, entry.len)⟩

theorem keyringTag_scan {tag : Nat} {w w' : KeyringWalk}
    (h : keyringTag H past pastSig file tag w = some w') : w'.scan = w.scan.tag tag := by
  unfold keyringTag at h
  unfold KeyringScan.tag
  split_ifs at h with htag htotlen
  · obtain ⟨w₁, hadd, h⟩ := Option.bind_eq_some_iff.mp h
    obtain rfl := Option.some.inj h
    unfold keyringAdd at hadd
    obtain ⟨⟨_, key⟩, -, hadd⟩ := Option.bind_eq_some_iff.mp hadd
    obtain ⟨first, -, hadd⟩ := Option.bind_eq_some_iff.mp hadd
    obtain ⟨⟨_, fp⟩, -, hadd⟩ := Option.bind_eq_some_iff.mp hadd
    obtain rfl := Option.some.inj hadd
    simp [KeyringWalk.scan, htag, htotlen]
  · obtain rfl := Option.some.inj h
    simp [KeyringWalk.scan, htag, htotlen]
  · obtain rfl := Option.some.inj h
    simp [htag]

/-- When the loop of `keyring_parse_keys` ends, so does its scan, and the ranges are those in the
index. -/
theorem keyringLoop_scan {fuel : Nat} {w : KeyringWalk} {keys : List KeyringEntry}
    (h : keyringLoop H past pastSig file fuel w = some keys) :
    ∃ s, Reaches (keyringScanRound file) w.scan s ∧ keyringScanRound file s = some none ∧
      s.ranges = keys.map fun entry => (entry.start, entry.len) := by
  induction fuel generalizing w with
  | zero => exact absurd h (by simp [keyringLoop])
  | succ fuel ih =>
    unfold keyringLoop at h
    by_cases hmore : 5 < sizeSub file.length w.pos
    · rw [if_pos hmore] at h
      obtain ⟨c, hc, h⟩ := Option.bind_eq_some_iff.mp h
      by_cases hbit : c &&& 0x80 ≠ 0
      · rw [if_pos hbit] at h
        obtain ⟨⟨tag, len⟩, hpacket, h⟩ := Option.bind_eq_some_iff.mp h
        obtain ⟨w', htag, hloop⟩ := Option.bind_eq_some_iff.mp h
        obtain ⟨s, hreach, hend, hranges⟩ := ih hloop
        refine ⟨s, .head ?_ hreach, hend, hranges⟩
        have hscan := keyringTag_scan htag
        unfold Step keyringScanRound
        have hpos : w.scan.pos = w.pos := rfl
        have hlen : w.scan.len = w.len := rfl
        simp only [hpos, hlen, hmore, if_true, hc, hpacket, Option.bind_eq_bind, Option.bind_some,
          if_pos hbit, ← hscan]
        rfl
      · rw [if_neg hbit] at h
        obtain rfl := Option.some.inj h
        refine ⟨w.scan, .refl, ?_, rfl⟩
        have hpos : w.scan.pos = w.pos := rfl
        simp [keyringScanRound, hpos, hmore, hc, hbit]
    · rw [if_neg hmore] at h
      obtain rfl := Option.some.inj h
      exact ⟨w.scan, .refl, if_neg hmore, rfl⟩

end

/-! ## Safe files -/

/-- What the scan has done inside of the file. -/
structure ScanInv (file : List UInt8) (s : KeyringScan) : Prop where
  pos_le : s.pos ≤ file.length
  totlen_eq : s.start + s.totlen = s.pos
  ranges_le : ∀ range ∈ s.ranges, range.1 + range.2 ≤ s.pos

theorem scanInv_start (file : List UInt8) : ScanInv file keyringScanStart :=
  ⟨Nat.zero_le _, rfl, nofun⟩

/-- A round steps over the packet in front of it. -/
theorem keyringScanRound_packet {file : List UInt8} {s : KeyringScan} {p : Packet}
    {l rest : List UInt8} (hframed : Framed p l) (hrest : file.drop s.pos = l ++ rest)
    (hmore : 5 < sizeSub file.length s.pos) :
    keyringScanRound file s = some (some { s.tag p.tag with
      len := l.length, totlen := (s.tag p.tag).totlen + l.length, pos := s.pos + l.length }) := by
  obtain ⟨c, octets, hl, hbit⟩ := hframed.exists_cons
  have hc : file[s.pos]? = some c := by
    have hget : (file.drop s.pos)[0]? = some c := by
      rw [hrest, hl]
      rfl
    simpa using hget
  unfold keyringScanRound
  rw [if_pos hmore, hc, hrest]
  simp only [Option.bind_eq_bind, Option.bind_some, if_pos hbit, keyringPacket_framed hframed,
    KeyringScan.tag_pos, Option.pure_def]

theorem ScanInv.tag {file : List UInt8} {s : KeyringScan} (h : ScanInv file s) (tag : Nat) :
    ScanInv file (s.tag tag) := by
  obtain ⟨hpos, htotlen, hranges⟩ := h
  unfold KeyringScan.tag
  split_ifs with htag hnew
  · refine ⟨hpos, Nat.add_zero _, fun range hrange => ?_⟩
    rcases List.mem_append.mp hrange with hrange | hrange
    · exact hranges range hrange
    · rw [List.mem_singleton.mp hrange]
      exact htotlen.le
  · exact ⟨hpos, Nat.add_zero _, hranges⟩
  · exact ⟨hpos, htotlen, hranges⟩

theorem ScanInv.step {file : List UInt8} {s : KeyringScan} {l rest : List UInt8} (tag : Nat)
    (h : ScanInv file s) (hrest : file.drop s.pos = l ++ rest) :
    ScanInv file { s.tag tag with
      len := l.length, totlen := (s.tag tag).totlen + l.length, pos := s.pos + l.length } := by
  obtain ⟨hpos, htotlen, hranges⟩ := h.tag tag
  rw [KeyringScan.tag_pos] at hpos htotlen hranges
  have hlen := congrArg List.length hrest
  rw [List.length_drop, List.length_append] at hlen
  refine ⟨?_, ?_, fun range hrange => ?_⟩
  · show s.pos + l.length ≤ file.length
    omega
  · show (s.tag tag).start + ((s.tag tag).totlen + l.length) = s.pos + l.length
    omega
  · exact (hranges range hrange).trans (Nat.le_add_right _ _)

theorem sizeSub_of_le {a b : Nat} (h : b ≤ a) : sizeSub a b = a - b := if_pos h

/-- Where the loop ends. -/
theorem keyringScanRound_end_iff {file : List UInt8} {s : KeyringScan} (hpos : s.pos ≤ file.length) :
    keyringScanRound file s = some none ↔
      (file.drop s.pos).length ≤ 5 ∨ ∀ c ∈ (file.drop s.pos).head?, c &&& 0x80 = 0 := by
  rw [List.length_drop, List.head?_drop]
  unfold keyringScanRound
  rw [sizeSub_of_le hpos]
  by_cases hmore : 5 < file.length - s.pos
  · rw [if_pos hmore]
    obtain ⟨c, hc⟩ : ∃ c, file[s.pos]? = some c :=
      ⟨_, List.getElem?_eq_getElem (show s.pos < file.length by omega)⟩
    have hle : ¬ file.length - s.pos ≤ 5 := by omega
    rw [hc]
    by_cases hbit : c &&& 0x80 = 0
    · simp [hbit]
    · simp only [Option.bind_eq_bind, Option.bind_some, ne_eq, hbit, not_false_eq_true, if_true]
      cases keyringPacket s.len (file.drop s.pos) with
      | none => simp [hle, hbit]
      | some packet => simp [hle, hbit]
  · rw [if_neg hmore]
    simp [Nat.not_lt.mp hmore]

/-- The scan is in front of whole packets, behind which `rest` ends the file. -/
structure InFront (file rest : List UInt8) (s : KeyringScan) : Prop where
  inv : ScanInv file s
  words : ∃ ps l, Words Framed ps l ∧ file.drop s.pos = l ++ rest

/-- In front of whole packets a round steps over one, unless it ends the loop. -/
theorem InFront.round {file rest : List UInt8}
    (hrest : rest.length ≤ 5 ∨ ∀ c ∈ rest.head?, c &&& 0x80 = 0) {s : KeyringScan}
    (h : InFront file rest s) :
    keyringScanRound file s = some none ∨
      ∃ s', Step (keyringScanRound file) s s' ∧ InFront file rest s' ∧
        ∃ p w, Framed p w ∧ w <+: file.drop s.pos ∧ s'.pos = s.pos + w.length := by
  obtain ⟨hinv, ps, l, hwords, hdrop⟩ := h
  by_cases hmore : 5 < sizeSub file.length s.pos
  · cases hwords with
    | nil =>
      rw [List.nil_append] at hdrop
      exact .inl ((keyringScanRound_end_iff hinv.pos_le).mpr (hdrop ▸ hrest))
    | @cons p w ps' l' hframed hwords =>
      rw [List.append_assoc] at hdrop
      refine .inr ⟨_, keyringScanRound_packet hframed hdrop hmore,
        ⟨hinv.step p.tag hdrop, ps', l', hwords, ?_⟩, p, w, hframed, ⟨_, hdrop.symm⟩, rfl⟩
      show file.drop (s.pos + w.length) = l' ++ rest
      rw [← List.drop_drop, hdrop, List.drop_left]
  · exact .inl (if_neg hmore)

theorem InFront.step {file rest : List UInt8}
    (hrest : rest.length ≤ 5 ∨ ∀ c ∈ rest.head?, c &&& 0x80 = 0) {s s' : KeyringScan}
    (h : InFront file rest s) (hstep : Step (keyringScanRound file) s s') :
    InFront file rest s' ∧
      ∃ p w, Framed p w ∧ w <+: file.drop s.pos ∧ s'.pos = s.pos + w.length := by
  rcases h.round hrest with hend | ⟨t, ht, hfront, hpacket⟩
  · rw [Step, hend] at hstep
    cases hstep
  · rw [Step, ht] at hstep
    cases hstep
    exact ⟨hfront, hpacket⟩

theorem InFront.round_ne_none {file rest : List UInt8}
    (hrest : rest.length ≤ 5 ∨ ∀ c ∈ rest.head?, c &&& 0x80 = 0) {s : KeyringScan}
    (h : InFront file rest s) : keyringScanRound file s ≠ none := by
  rcases h.round hrest with hend | ⟨s', hstep, -⟩
  · rw [hend]
    exact nofun
  · rw [show keyringScanRound file s = some (some s') from hstep]
    exact nofun

/-- On whole packets the scan is safe. -/
theorem scansSafely_of_packets {file : List UInt8} (h : PacketFile file) : ScansSafely file := by
  obtain ⟨ps, l, rest, hfile, hwords, hrest⟩ := h
  have hstart : InFront file rest keyringScanStart := ⟨scanInv_start file, ps, l, hwords, hfile⟩
  have hreached {s : KeyringScan} (h : Reaches (keyringScanRound file) keyringScanStart s) :
      InFront file rest s := h.invariant hstart fun hs hstep => (hs.step hrest hstep).1
  refine ⟨?_, fun hreach => (hreached hreach).round_ne_none hrest,
    fun hreach hstep => ((hreached hreach).step hrest hstep).2, fun hreach range hrange => ?_⟩
  · refine terminates_of_measure (fun s => file.length - s.pos) (fun {s} hs => ?_) hstart
    refine (hs.round hrest).imp_right ?_
    rintro ⟨s', hstep, hs', p, w, hframed, -, hpos⟩
    have hw := List.length_pos_of_ne_nil (framed_prefixFree.ne_nil hframed)
    have hle := hs'.inv.pos_le
    exact ⟨s', hstep, hs', by omega⟩
  · have hinv := (hreached hreach).inv
    exact (hinv.ranges_le range hrange).trans hinv.pos_le

/-- From every place that a safe scan reaches on, the file is read off packet by packet. -/
theorem ScansSafely.packets {file : List UInt8} (h : ScansSafely file) {s : KeyringScan}
    (hreach : Reaches (keyringScanRound file) keyringScanStart s) (hpos : s.pos ≤ file.length) :
    ∃ ps l rest, file.drop s.pos = l ++ rest ∧ Words Framed ps l ∧
      (rest.length ≤ 5 ∨ ∀ c ∈ rest.head?, c &&& 0x80 = 0) := by
  induction hn : file.length - s.pos using Nat.strong_induction_on generalizing s with
  | _ n ih =>
  rcases hround : keyringScanRound file s with _ | _ | s'
  · exact absurd hround (h.reads hreach)
  · exact ⟨[], [], file.drop s.pos, rfl, .nil, (keyringScanRound_end_iff hpos).mp hround⟩
  · obtain ⟨p, w, hframed, ⟨behind, hbehind⟩, hpos'⟩ := h.steps hreach hround
    have hlen := congrArg List.length hbehind
    rw [List.length_drop, List.length_append] at hlen
    have hw := List.length_pos_of_ne_nil (framed_prefixFree.ne_nil hframed)
    obtain ⟨ps, l, rest, hdrop, hwords, hrest⟩ :=
      ih _ (by omega) (hreach.tail hround) (by omega) rfl
    have hbehind' : file.drop s'.pos = behind := by
      rw [hpos', ← List.drop_drop, ← hbehind, List.drop_left]
    refine ⟨p :: ps, w ++ l, rest, ?_, .cons hframed hwords, hrest⟩
    rw [← hbehind, List.append_assoc, ← hdrop, hbehind']

/-- **When indexing a keyring is safe.** For every file: the scan of `keyring_parse_keys` ends, steps from
packet to packet, reads nothing outside of the file and records no range that is not inside, if and only
if the file holds whole packets in the supported formats up to five octets at most or to an octet that
starts no packet. -/
theorem scansSafely_iff (file : List UInt8) : ScansSafely file ↔ PacketFile file :=
  ⟨fun h => h.packets .refl (Nat.zero_le _), scansSafely_of_packets⟩

/-- A public key packet that is longer than the file. -/
theorem scansSafely_long_packet : ¬ ScansSafely [0x98, 255, 4, 0, 0, 0] := by
  intro h
  have hstep : Step (keyringScanRound [0x98, 255, 4, 0, 0, 0]) keyringScanStart
      ⟨257, 257, 0, 257, []⟩ := by
    unfold Step
    decide
  have hnone : keyringScanRound [0x98, 255, 4, 0, 0, 0] ⟨257, 257, 0, 257, []⟩ = none := by
    decide
  exact h.reads (.single hstep) hnone

end Onak
