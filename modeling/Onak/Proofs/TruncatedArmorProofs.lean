import Onak.Proofs.ArmorProofs

/-!
# Proofs: armor that is cut short

At the end of its text the dearmor code does not stop: it goes on with zero bits. So a text that is
cut short delivers the octets up to the cut, one octet that may be wrong, and zeros for ever. What
the packet reader makes of the octets around the cut uses up all of them, since the octets of a
packet are no front of those of another one; and the zero behind it then takes that packet off again.
-/

namespace Onak

open Source Sextet PrefixCode

/-! ## What a text spells to its end and beyond -/

/-- The sextets that are taken from a text, one after the other. -/
def spelled (text : List UInt8) : Nat → UInt8
  | 0 => (nextSextet text).1
  | n + 1 => spelled (nextSextet text).2 n

theorem spelled_nil (n : Nat) : spelled [] n = 0 := by
  induction n with
  | zero => rfl
  | succ n ih => exact ih

theorem spelled_skip {c : UInt8} (h : decode64 c = 65) (text : List UInt8) :
    spelled (c :: text) = spelled text := by
  have hnext : nextSextet (c :: text) = nextSextet text := by
    rw [nextSextet, if_pos h]
  funext n
  cases n with
  | zero => rw [spelled, spelled, hnext]
  | succ n => rw [spelled, spelled, hnext]

theorem spelled_char {c : UInt8} (h : decode64 c ≠ 65) (text vals : List UInt8)
    (hrest : spelled text = pad vals) : spelled (c :: text) = pad (decode64 c :: vals) := by
  have hnext : nextSextet (c :: text) = (decode64 c, text) := by
    rw [nextSextet, if_neg h]
  funext n
  cases n with
  | zero => rw [spelled, hnext, pad_cons_zero]
  | succ n => rw [spelled, hnext, pad_cons_succ, hrest]

theorem Spells.lt {text vals : List UInt8} (h : Spells text vals) : ∀ v ∈ vals, v.toNat < 64 := by
  induction vals generalizing text with
  | nil => simp
  | cons v vals ih =>
    obtain ⟨hlt, -, hrest⟩ := h
    intro w hw
    rcases List.mem_cons.mp hw with rfl | hw
    · exact hlt
    · exact ih hrest w hw

/-- The front of a text spells all that the text does, or some of it and then zeros. -/
theorem Spells.front {text vals front : List UInt8} (h : Spells text vals) (hf : front <+: text) :
    Spells front vals ∨ ∃ k, spelled front = pad (vals.take k) := by
  induction front generalizing text vals with
  | nil =>
    refine .inr ⟨0, ?_⟩
    rw [List.take_zero, pad_nil]
    exact funext spelled_nil
  | cons c front ih =>
    obtain ⟨tail, rfl⟩ := hf
    have hfront : front <+: front ++ tail := List.prefix_append _ _
    by_cases hskip : decode64 c = 65
    · have hsame : ∀ t, nextSextet (c :: t) = nextSextet t := by
        intro t
        rw [nextSextet, if_pos hskip]
      have hspells : ∀ t, Spells (c :: t) vals ↔ Spells t vals := by
        intro t
        cases vals with
        | nil => rw [Spells, Spells, hsame]
        | cons v vals => rw [Spells, Spells, hsame]
      rw [hspells, spelled_skip hskip]
      exact ih ((hspells (front ++ tail)).mp h) hfront
    · have hnext : ∀ t, nextSextet (c :: t) = (decode64 c, t) := by
        intro t
        rw [nextSextet, if_neg hskip]
      cases vals with
      | nil =>
        left
        rw [List.cons_append, Spells, hnext] at h
        rw [Spells, hnext]
        exact h
      | cons v vals =>
        rw [List.cons_append, Spells, hnext] at h
        obtain ⟨hlt, rfl, hrest⟩ := h
        rcases ih hrest hfront with hall | ⟨k, hk⟩
        · left
          rw [Spells, hnext]
          exact ⟨hlt, rfl, hall⟩
        · exact .inr ⟨k + 1, spelled_char hskip front _ hk⟩

/-! ## The octets that are delivered -/

/-- The data of the text never ends, and comes to the octets of the stream. -/
structure Endless (state : DearmorContext) (f : Nat → UInt8) : Prop where
  curoctet : state.curoctet < 3
  sextet : ∀ n, (spelled state.text n).toNat < 64
  octets : f = joined state.curoctet state.lastoctet (spelled state.text)

theorem dearmorGetchar_endless {state : DearmorContext} {f : Nat → UInt8} (h : Endless state f) :
    ∃ state', dearmorGetchar state = (some (f 0), state') ∧ Endless state' fun i => f (i + 1) := by
  obtain ⟨lastoctet, curoctet, count, crc24, text⟩ := state
  obtain ⟨hcur, hsextet, rfl⟩ := h
  have hfirst : (nextSextet text).1 ≠ 64 := ne_end (hsextet 0)
  match curoctet, hcur with
  | 0, _ =>
    have hsecond : (nextSextet (nextSextet text).2).1 ≠ 64 := ne_end (hsextet 1)
    refine ⟨⟨spelled text 1, 1, count + 1, crc24Octet crc24 (joined 0 lastoctet (spelled text) 0),
      (nextSextet (nextSextet text).2).2⟩, ?_, Nat.lt_of_sub_eq_succ rfl, fun n => hsextet (n + 2), rfl⟩
    simp only [dearmorGetchar, ne_eq, hfirst, not_false_eq_true, if_true, hsecond, if_false]
    rfl
  | 1, _ =>
    refine ⟨⟨spelled text 0, 2, count + 1, crc24Octet crc24 (joined 1 lastoctet (spelled text) 0),
      (nextSextet text).2⟩, ?_, Nat.lt_of_sub_eq_succ rfl, fun n => hsextet (n + 1), rfl⟩
    simp only [dearmorGetchar, ne_eq, hfirst, not_false_eq_true, if_true, if_false]
    rfl
  | 2, _ =>
    refine ⟨⟨spelled text 0, 0, count + 1, crc24Octet crc24 (joined 2 lastoctet (spelled text) 0),
      (nextSextet text).2⟩, ?_, Nat.lt_of_sub_eq_succ rfl, fun n => hsextet (n + 1), rfl⟩
    simp only [dearmorGetchar, ne_eq, hfirst, not_false_eq_true, if_true, if_false]
    rfl

theorem dearmorGetcharC_streams : Streams dearmorGetcharC Endless :=
  eachOrNone_streams dearmorGetchar_endless

theorem endless_of_cut {text vals : List UInt8} {k : Nat} (h : spelled text = pad (vals.take k))
    (hvals : ∀ v ∈ vals, v.toNat < 64) :
    Endless (dearmorInit text) (joined 0 0 (pad (vals.take k))) where
  curoctet := Nat.zero_lt_succ 2
  sextet := by
    intro n
    show (spelled text n).toNat < 64
    rw [h, pad, List.getD_eq_getElem?_getD]
    cases hget : (vals.take k)[n]? with
    | none => decide
    | some v => exact hvals v (List.mem_of_mem_take (List.mem_of_getElem? hget))
  octets := by
    show _ = joined 0 0 (spelled text)
    rw [h]

/-! ## What the packet reader makes of them -/

theorem dropLast_prefix_append (packets ps : List Packet) : packets.dropLast <+: packets ++ ps :=
  (List.dropLast_prefix packets).trans (List.prefix_append packets ps)

section

variable {σ : Type} {getchar : σ → Nat → List UInt8 × σ} {T : σ → (Nat → UInt8) → Prop}
  (hT : Streams getchar T) (hle : ∀ {s s' n l}, getchar s n = (l, s') → l.length ≤ n)
  {past : List Packet → UInt8}
include hT

theorem getOctet_streams {s : σ} {f : Nat → UInt8} (hs : T s f) :
    ∃ s', getOctet getchar s = (some (f 0), s') ∧ T s' fun i => f (i + 1) := by
  obtain ⟨s', hget, hs'⟩ := hT 1 hs
  refine ⟨s', ?_, by simpa only [Nat.add_comm 1] using hs'⟩
  rw [getOctet, hget]
  rfl

/-- Zeros take the last packet off. -/
theorem readLoop_zeros {s : σ} {f : Nat → UInt8} (hs : T s f) (hzero : f 0 = 0) {fuel keys : Nat}
    {packets : List Packet} :
    ∃ r, readLoop getchar past 0 (fuel + 1) keys packets s = some r ∧
      r.packets = packets.dropLast := by
  obtain ⟨s', hget, -⟩ := getOctet_streams hT hs
  rw [hzero] at hget
  exact ⟨_, readLoop_stray (.inl rfl) hget (by decide), rfl⟩

include hle

/-- If the octets of a packet are cut short, nothing comes of them. -/
theorem readLoop_cut {p : Packet} {w : List UInt8} (hframed : Framed p w) {s : σ} {f : Nat → UInt8}
    (hs : T s f) {m : Nat} (hm : m < w.length) (hw : w.take m = (List.range m).map f)
    (hzero : ∀ i, m < i → f i = 0) {fuel keys : Nat} {packets : List Packet} :
    ∃ r, readLoop getchar past 0 (fuel + 2) keys packets s = some r ∧
      (r.packets = packets.dropLast ∨ r.packets = packets) := by
  obtain ⟨s₁, hget, hs₁⟩ := getOctet_streams hT hs
  by_cases hbit : f 0 &&& 0x80 = 0
  · exact ⟨_, readLoop_stray (.inl rfl) hget hbit, .inl rfl⟩
  · cases hread : readPacket getchar (past packets) (f 0) s₁ with
    | mk result s₂ =>
      cases result with
      | error rc => exact ⟨_, readLoop_error (.inl rfl) hget hbit hread, .inr rfl⟩
      | ok q =>
        rw [readLoop_packet (.inl rfl) hget hbit hread]
        obtain ⟨octets, hframed', -, hused⟩ :=
          readPacket_consumes (hT.consumes hle) hbit hread
        obtain ⟨hoctets, hs₂⟩ := hused _ hs₁
        have hw' : f 0 :: octets = (List.range (octets.length + 1)).map f := by
          rw [List.range_succ_eq_map, List.map_cons, List.map_map]
          exact congrArg _ hoctets
        -- the octets of `q` are not a front of those of `p`
        have hlong : m < octets.length + 1 := by
          by_contra hshort
          have htake : w.take (octets.length + 1) = f 0 :: octets := by
            rw [hw', ← min_eq_left (not_lt.mp hshort), ← List.take_take, hw, ← List.map_take,
              List.take_range]
          have hsplit : (f 0 :: octets) ++ w.drop (octets.length + 1) = w ++ [] := by
            rw [← htake, List.take_append_drop, List.append_nil]
          obtain ⟨-, rfl⟩ := framed_prefixFree.split hframed' hframed hsplit
          simp only [List.length_cons] at hm
          omega
        obtain ⟨r, hloop, hr⟩ := readLoop_zeros hT hs₂ (hzero (octets.length + 0 + 1) (by omega))
        exact ⟨r, hloop, .inr (by rw [hr, List.dropLast_concat])⟩

/-- From octets that are cut short, some of the packets are read. -/
theorem readLoop_cutShort {ps packets : List Packet} {l : List UInt8} (hwords : Words Framed ps l)
    (hr : Readable past packets ps) {f : Nat → UInt8} (hcut : CutShort 0 l f) {s : σ} (hs : T s f)
    {fuel : Nat} (keys : Nat) (hfuel : ps.length < fuel) :
    ∃ r, readLoop getchar past 0 fuel keys packets s = some r ∧ r.packets <+: packets ++ ps := by
  induction hwords generalizing packets f s fuel keys with
  | nil =>
    obtain ⟨fuel, rfl⟩ : ∃ k, fuel = k + 1 := ⟨fuel - 1, by simp at hfuel; omega⟩
    cases hcut with
    | all hzero =>
      obtain ⟨r, hloop, hpackets⟩ := readLoop_zeros hT hs (hzero 0)
      exact ⟨r, hloop, hpackets ▸ dropLast_prefix_append packets []⟩
  | @cons p w ps rest hframed _ ih =>
    obtain ⟨fuel, rfl⟩ : ∃ k, fuel = k + 2 := ⟨fuel - 2, by simp at hfuel; omega⟩
    obtain ⟨-, hsane, hr⟩ := hr
    rcases hcut.append with ⟨hw, hrest⟩ | ⟨m, hm, hw, hzero⟩
    · obtain ⟨c, octets, rfl, hbit⟩ := hframed.exists_cons
      have hfront := hT.supplies f (c :: octets).length
      obtain ⟨s₁, hget, hs₁⟩ := getOctet_supplies hfront (s := s) (c := c) (l := octets)
        ⟨0, Nat.zero_add _, by simpa only [Nat.zero_add] using hw,
          by simpa only [Nat.zero_add] using hs⟩
      obtain ⟨s₂, hread, k, hk, -, hs₂⟩ := readPacket_supplies hfront hframed hsane (l := [])
        (by simpa only [List.append_nil] using hs₁)
      obtain rfl : k = (c :: octets).length := by simpa using hk
      have hfuel' : ps.length < fuel + 1 := by
        simp only [List.length_cons] at hfuel
        omega
      obtain ⟨r, hloop, hprefix⟩ :=
        ih hr hrest hs₂ (if p.tag = tagPublickey then keys + 1 else keys) hfuel'
      refine ⟨r, ?_, by simpa using hprefix⟩
      rw [readLoop_packet (.inl rfl) hget hbit hread]
      exact hloop
    · obtain ⟨r, hloop, hpackets⟩ := readLoop_cut hT hle hframed hs hm hw hzero
      refine ⟨r, hloop, ?_⟩
      rcases hpackets with hpackets | hpackets
      · rw [hpackets]
        exact dropLast_prefix_append packets _
      · rw [hpackets]
        exact List.prefix_append packets _

end

/-! ## The text of some packets, cut short -/

theorem findHeader_cut (n : Nat) (hn : n < armorHeader.length) :
    findHeader .dashes 0 (armorHeader.take n) = none := by
  have hall : ∀ k : Fin armorHeader.length,
      findHeader .dashes 0 (armorHeader.take k.val) = none := by decide
  exact hall ⟨n, hn⟩

/-- **Armor that is cut short yields no packets that were not there.** From any front of the text of
some well-formed packets, `dearmor_openpgp_stream` comes to an end with the first few of them. -/
theorem dearmorOpenpgpStream_truncated (past : List Packet → UInt8) {ps : List Packet}
    (hps : ∀ p ∈ ps, p.WellFormed) {text : List UInt8} (htext : text <+: armorOpenpgpStream ps)
    {fuel : Nat} (hfuel : ps.length < fuel) :
    ∃ r, dearmorOpenpgpStream past fuel text [] = some r ∧ r.packets <+: ps := by
  obtain ⟨l, hl⟩ := streamOctets_of_wellFormed hps
  have hr : Readable past [] ps := readable_of_wellFormed hps
  have hcur : (armorInit armorHeader).curoctet < 3 := by decide
  obtain ⟨t, ht, hspells⟩ := spells_armored hcur l
  have harmored : armorOpenpgpStream ps = armorHeader ++ (t ++ armorFooter) := by
    unfold armorOpenpgpStream
    rw [armorContext_eq hl, ht, List.append_assoc]
    rfl
  rw [harmored] at htext
  rcases Nat.lt_or_ge text.length armorHeader.length with hshort | hlong
  · -- the cut is in the header
    have htake : text = armorHeader.take text.length := by
      have := List.prefix_iff_eq_take.mp htext
      rwa [List.take_append_of_le_length hshort.le] at this
    refine ⟨⟨[], none⟩, ?_, List.nil_prefix⟩
    rw [dearmorOpenpgpStream, htake, findHeader_cut _ hshort]
  · obtain ⟨data, rfl⟩ : armorHeader <+: text :=
      List.prefix_of_prefix_length_le (List.prefix_append _ _) htext hlong
    have hdata : data <+: t ++ armorFooter := (List.prefix_append_right_inj _).mp htext
    rw [dearmorOpenpgpStream, findHeader_armorHeader]
    rcases (hspells armorFooter).front hdata with hall | ⟨k, hk⟩
    · have hdelivers : Delivers (l.foldl crc24Octet crc24Init) l.length (dearmorInit data) l :=
        ⟨Or.inl ⟨rfl, hall⟩, rfl, Nat.zero_add _⟩
      obtain ⟨s, hloop, -⟩ := readLoop_feeds (dearmorGetcharC_feeds _ _) 0 hl hr hfuel hdelivers
      refine ⟨⟨ps, some (dearmorFinish s)⟩, ?_, List.prefix_rfl⟩
      simp [readOpenpgpStream, hloop]
    · have hcut : CutShort 0 l (joined 0 0 (pad ((sextets 0 0 l).take k))) :=
        (cutShort_joined l k).1 0 0
      obtain ⟨r, hloop, hprefix⟩ := readLoop_cutShort dearmorGetcharC_streams eachOrNone_le
        (words_of_readable hl hr) hr hcut (endless_of_cut hk (hspells armorFooter).lt) 0 hfuel
      have hloop' : readLoop dearmorGetcharC past 0 fuel 0 [] (dearmorInit data) = some r := hloop
      refine ⟨⟨r.packets, some (dearmorFinish r.ctx)⟩, ?_, hprefix⟩
      simp [readOpenpgpStream, hloop']

/-- The text of two user ids, cut in the middle of its data. -/
theorem dearmorOpenpgpStream_truncated_sample :
    ∃ r, dearmorOpenpgpStream (fun _ => 0) 3
        ((armorOpenpgpStream [⟨tagUid, true, [65, 66]⟩, ⟨tagUid, true, [67]⟩]).take 45) [] = some r ∧
      r.packets <+: [⟨tagUid, true, [65, 66]⟩, ⟨tagUid, true, [67]⟩] := by
  refine dearmorOpenpgpStream_truncated (fun _ => 0) ?_ (List.take_prefix _ _) (by decide)
  intro p hp
  have htag : p.tag = tagUid ∧ p.newformat = true ∧ p.length < 3 := by
    rcases List.mem_cons.mp hp with rfl | hp
    · exact ⟨rfl, rfl, by decide⟩
    · obtain rfl := List.mem_singleton.mp hp
      exact ⟨rfl, rfl, by decide⟩
  obtain ⟨htag, hnew, hlen⟩ := htag
  refine ⟨fun _ => ⟨by rw [htag]; decide, by omega⟩, fun hold => ?_, fun hv => ?_⟩
  · rw [hnew] at hold
    exact absurd hold (by simp)
  · rw [htag] at hv
    exact absurd hv (by decide)

end Onak
