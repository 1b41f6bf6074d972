import Onak.Proofs.FramingProofs

/-!
# Proofs: what the packet reader keeps

Octets hold a list of packets up to the place where reading has to stop, and only one. The reader
keeps that list, but for one way to stop: when the octet behind a packet starts no packet, the
clean-up at the end takes the last good packet for the failed one.
-/

namespace Onak

open Source PrefixCode

/-! ## What octets hold -/

theorem numKeys_concat (packets : List Packet) (p : Packet) :
    numKeys (packets ++ [p]) =
      if p.tag = tagPublickey then numKeys packets + 1 else numKeys packets := by
  simp only [numKeys, List.countP_append, List.countP_singleton]
  by_cases htag : p.tag = tagPublickey
  · simp [htag]
  · simp [htag]

section

variable {past : List Packet → UInt8} {maxnum : Int}

theorem exists_decodes (before : List Packet) (octets : List UInt8) :
    ∃ ps rest, Decodes past maxnum before octets ps rest := by
  -- each packet takes octets away
  induction hn : octets.length using Nat.strong_induction_on generalizing before octets with
  | _ n ih =>
    by_cases hbelow : Below maxnum before
    · by_cases hpacket : ∃ p l t, octets = l ++ t ∧ Framed p l ∧ p.Sane (past before)
      · obtain ⟨p, l, t, rfl, hframed, hsane⟩ := hpacket
        have hpos : 0 < l.length := List.length_pos_of_ne_nil (framed_prefixFree.ne_nil hframed)
        have hlt : t.length < n := by
          rw [← hn, List.length_append]
          omega
        obtain ⟨ps, rest, hrest⟩ := ih _ hlt (before ++ [p]) t rfl
        exact ⟨p :: ps, rest, .packet hbelow hframed hsane hrest⟩
      · by_cases hnil : octets = []
        · rw [hnil]
          exact ⟨[], [], .done hbelow⟩
        · refine ⟨[], octets, .fail hbelow hnil fun p l t heq hframed hsane => ?_⟩
          exact hpacket ⟨p, l, t, heq, hframed, hsane⟩
    · exact ⟨[], octets, .limit hbelow⟩

theorem Decodes.unique {before : List Packet} {octets : List UInt8} {ps ps' : List Packet}
    {rest rest' : List UInt8} (h : Decodes past maxnum before octets ps rest)
    (h' : Decodes past maxnum before octets ps' rest') : ps = ps' ∧ rest = rest' := by
  induction h generalizing ps' rest' with
  | limit hlimit =>
    cases h' with
    | limit => exact ⟨rfl, rfl⟩
    | done hbelow => exact absurd hbelow hlimit
    | fail hbelow => exact absurd hbelow hlimit
    | packet hbelow => exact absurd hbelow hlimit
  | done hbelow =>
    generalize hl : ([] : List UInt8) = l at h'
    cases h' with
    | limit hlimit => exact absurd hbelow hlimit
    | done => exact ⟨rfl, rfl⟩
    | fail _ hne => exact absurd hl.symm hne
    | packet _ hframed =>
      exact absurd (List.append_eq_nil_iff.mp hl.symm).1 (framed_prefixFree.ne_nil hframed)
  | fail hbelow hne hnone =>
    cases h' with
    | limit hlimit => exact absurd hbelow hlimit
    | done => exact absurd rfl hne
    | fail => exact ⟨rfl, rfl⟩
    | packet _ hframed hsane => exact absurd hsane (hnone _ _ _ rfl hframed)
  | @packet before p l octets ps rest hbelow hframed hsane _ ih =>
    generalize hl : l ++ octets = l' at h'
    cases h' with
    | limit hlimit => exact absurd hbelow hlimit
    | done =>
      exact absurd (List.append_eq_nil_iff.mp hl).1 (framed_prefixFree.ne_nil hframed)
    | fail _ _ hnone => exact absurd hsane (hnone _ _ _ hl.symm hframed)
    | packet _ hframed' _ hrest' =>
      obtain ⟨rfl, rfl⟩ := framed_prefixFree.split hframed hframed' hl
      obtain rfl := List.append_cancel_left hl
      obtain ⟨rfl, rfl⟩ := ih hrest'
      exact ⟨rfl, rfl⟩

/-! ## What the reader does with them -/

/-- The reader goes on behind some packets, and finds an octet that starts no packet. -/
def Stray (maxnum : Int) (packets : List Packet) (rest : List UInt8) : Prop :=
  Below maxnum packets ∧ ∃ c t, rest = c :: t ∧ c &&& 0x80 = 0

/-- From any source that feeds the octets, the packets are read that they hold. -/
theorem readLoop_decodes_of_feeds {σ : Type} {getchar : σ → Nat → List UInt8 × σ}
    {R : σ → List UInt8 → Prop} {E : σ → Prop} (hF : Feeds getchar R E)
    (hC : Consumes getchar fun s l s' => ∀ t, R s t → ∃ t', t = l ++ t' ∧ R s' t')
    {before : List Packet} {octets : List UInt8} {ps : List Packet} {rest : List UInt8}
    {fuel : Nat} (h : Decodes past maxnum before octets ps rest) {s : σ} (hs : R s octets)
    (hfuel : octets.length < fuel) :
    ∃ r, readLoop getchar past maxnum fuel (numKeys before) before s = some r ∧
      (Stray maxnum (before ++ ps) rest → r.packets = (before ++ ps).dropLast) ∧
      (¬ Stray maxnum (before ++ ps) rest → r.packets = before ++ ps) := by
  induction h generalizing fuel s with
  | @limit before octets hlimit =>
    obtain ⟨fuel, rfl⟩ := Nat.exists_eq_succ_of_ne_zero (Nat.ne_of_gt (Nat.zero_lt_of_lt hfuel))
    refine ⟨⟨.ok, before, s⟩, if_pos hlimit, fun hstray => ?_, fun _ => ?_⟩
    · rw [List.append_nil] at hstray
      exact absurd hstray.1 hlimit
    · rw [List.append_nil]
  | @done before hbelow =>
    obtain ⟨fuel, rfl⟩ := Nat.exists_eq_succ_of_ne_zero (Nat.ne_of_gt (Nat.zero_lt_of_lt hfuel))
    obtain ⟨s', hget, -⟩ := hF.stop hs
    have hend : getOctet getchar s = (none, s') := by
      rw [getOctet, hget]
      rfl
    refine ⟨⟨.ok, before, s'⟩, readLoop_end hbelow hend, fun hstray => ?_, fun _ => ?_⟩
    · obtain ⟨-, c, t, hct, -⟩ := hstray
      exact absurd hct (by simp)
    · rw [List.append_nil]
  | @fail before octets hbelow hne hnone =>
    obtain ⟨fuel, rfl⟩ := Nat.exists_eq_succ_of_ne_zero (Nat.ne_of_gt (Nat.zero_lt_of_lt hfuel))
    obtain ⟨c, t, rfl⟩ := List.exists_cons_of_ne_nil hne
    obtain ⟨s₁, hget, hs₁⟩ := getOctet_supplies hF.supplies hs
    rw [List.append_nil]
    by_cases hbit : c &&& 0x80 = 0
    · refine ⟨⟨.invalidPkt, before.dropLast, s₁⟩, readLoop_stray hbelow hget hbit, fun _ => rfl,
        fun hstray => ?_⟩
      exact absurd ⟨hbelow, c, t, rfl, hbit⟩ hstray
    · -- the packet cannot have been read
      cases hread : readPacket getchar (past before) c s₁ with
      | mk result s₂ =>
        cases result with
        | ok p =>
          obtain ⟨l, hframed, hsane, hused⟩ := readPacket_consumes hC hbit hread
          obtain ⟨t', rfl, -⟩ := hused t hs₁
          exact absurd hsane (hnone p (c :: l) t' rfl hframed)
        | error rc =>
          refine ⟨⟨rc, before, s₂⟩, readLoop_error hbelow hget hbit hread, fun hstray => ?_,
            fun _ => rfl⟩
          obtain ⟨-, c', t', hct, hbit'⟩ := hstray
          obtain ⟨rfl, rfl⟩ := List.cons.inj hct
          exact absurd hbit' hbit
  | @packet before p l octets ps rest hbelow hframed hsane _ ih =>
    obtain ⟨fuel, rfl⟩ := Nat.exists_eq_succ_of_ne_zero (Nat.ne_of_gt (Nat.zero_lt_of_lt hfuel))
    obtain ⟨c, lengths, rfl, hbit⟩ := hframed.exists_cons
    obtain ⟨s₁, hget, hs₁⟩ := getOctet_supplies hF.supplies hs
    obtain ⟨s₂, hread, hs₂⟩ := readPacket_supplies hF.supplies hframed hsane hs₁
    have hfuel' : octets.length < fuel := by
      simp only [List.length_append, List.length_cons] at hfuel
      omega
    obtain ⟨r, hloop, hstray, hkeep⟩ := ih hs₂ hfuel'
    rw [List.append_assoc, List.singleton_append] at hstray hkeep
    refine ⟨r, ?_, hstray, hkeep⟩
    rw [readLoop_packet hbelow hget hbit hread, ← numKeys_concat]
    exact hloop

theorem readLoop_decodes {before : List Packet} {octets : List UInt8} {ps : List Packet}
    {rest : List UInt8} {fuel : Nat} (h : Decodes past maxnum before octets ps rest)
    (hfuel : octets.length < fuel) :
    ∃ r, readLoop buffer past maxnum fuel (numKeys before) before octets = some r ∧
      (Stray maxnum (before ++ ps) rest → r.packets = (before ++ ps).dropLast) ∧
      (¬ Stray maxnum (before ++ ps) rest → r.packets = before ++ ps) :=
  readLoop_decodes_of_feeds buffer_feeds buffer_consumes h rfl hfuel

end

/-- The list that is left is the initial list with the packets that the octets hold. -/
def KeepsDecoded (past : List Packet → UInt8) (maxnum : Int) (octets : List UInt8)
    (init left : List Packet) : Prop :=
  ∃ ps rest, Decodes past maxnum [] octets ps rest ∧ left = init ++ ps

/-- One or more packets, short of the limit, with an octet behind them that starts no packet. -/
def StrayBehindPacket (past : List Packet → UInt8) (maxnum : Int) (octets : List UInt8) : Prop :=
  ∃ ps rest, Decodes past maxnum [] octets ps rest ∧ ps ≠ [] ∧ Stray maxnum ps rest

/-- **The packet reader keeps what it decoded, unless a stray octet follows a packet.** Octets hold
one list of packets, and the reader comes to an end with that list behind the initial one if and only
if there is no octet behind a packet that starts none. -/
theorem readOpenpgpStream_keeps_iff (past : List Packet → UInt8) (maxnum : Int)
    (octets : List UInt8) (init : List Packet) {fuel : Nat} (hfuel : octets.length < fuel) :
    (∃! d : List Packet × List UInt8, Decodes past maxnum [] octets d.1 d.2) ∧
    ∃ r, readOpenpgpStream buffer past fuel octets init maxnum = some r ∧
      (KeepsDecoded past maxnum octets init r.packets ↔
        ¬ StrayBehindPacket past maxnum octets) := by
  obtain ⟨ps, rest, hdecodes⟩ := @exists_decodes past maxnum [] octets
  obtain ⟨r, hloop, hstray, hkeep⟩ := readLoop_decodes hdecodes hfuel
  rw [List.nil_append] at hstray hkeep
  refine ⟨⟨(ps, rest), hdecodes, fun d hd => Prod.ext_iff.mpr (hd.unique hdecodes)⟩,
    { r with packets := init ++ r.packets }, ?_, ?_⟩
  · unfold readOpenpgpStream
    rw [show readLoop buffer past maxnum fuel 0 [] octets = some r from hloop]
    rfl
  · constructor
    · rintro ⟨ps₁, rest₁, h₁, hleft⟩ ⟨ps₂, rest₂, h₂, hne, hbad⟩
      obtain ⟨rfl, rfl⟩ := h₁.unique hdecodes
      obtain ⟨rfl, rfl⟩ := h₂.unique hdecodes
      have hdrop : ps₂.dropLast = ps₂ := by
        rw [← hstray hbad]
        exact List.append_cancel_left hleft
      have hlen := congrArg List.length hdrop
      have hpos := List.length_pos_of_ne_nil hne
      rw [List.length_dropLast] at hlen
      omega
    · intro hgood
      refine ⟨ps, rest, hdecodes, congrArg (init ++ ·) ?_⟩
      by_cases hbad : Stray maxnum ps rest
      · have hnil : ps = [] := by
          by_contra hne
          exact hgood ⟨ps, rest, hdecodes, hne, hbad⟩
        rw [hstray hbad, hnil]
        rfl
      · exact hkeep hbad

theorem not_framed_zero {p : Packet} {l t t' : List UInt8} (h : 0 :: t = l ++ t') :
    ¬ Framed p l := by
  intro hframed
  obtain ⟨c, octets, rfl, hbit⟩ := hframed.exists_cons
  obtain ⟨rfl, -⟩ := List.cons.inj h
  exact hbit (by decide)

theorem framed_uid : Framed ⟨tagUid, true, [65]⟩ [0xCD, 1, 65] :=
  @Framed.new 0xCD [1] [65] (by decide) (by decide) (@NewLength.one 1 (by decide))

/-- A user id is kept behind the initial list. -/
theorem readOpenpgpStream_keeps_iff_sample :
    ∃ r, readOpenpgpStream buffer (fun _ => 0) 4 [0xCD, 1, 65] [⟨tagUid, true, [66]⟩] 0 = some r ∧
      KeepsDecoded (fun _ => 0) 0 [0xCD, 1, 65] [⟨tagUid, true, [66]⟩] r.packets := by
  obtain ⟨⟨d, -, hunique⟩, r, hread, hiff⟩ := readOpenpgpStream_keeps_iff (fun _ => 0) 0
    [0xCD, 1, 65] [⟨tagUid, true, [66]⟩] (by decide : 3 < 4)
  have hdecodes : Decodes (fun _ => 0) 0 [] [0xCD, 1, 65] [⟨tagUid, true, [65]⟩] [] :=
    .packet (.inl rfl) framed_uid rfl (.done (.inl rfl))
  refine ⟨r, hread, hiff.mpr ?_⟩
  rintro ⟨ps, rest, h, -, -, c, t, rfl, -⟩
  exact absurd (h.unique hdecodes).2 (by simp)

/-- A user id with a zero octet behind it is dropped. -/
theorem readOpenpgpStream_drops_good_packet :
    ¬ ∀ (past : List Packet → UInt8) (maxnum : Int) (octets : List UInt8) (init : List Packet)
      (fuel : Nat) (r : ReadResult (List UInt8)),
      readOpenpgpStream buffer past fuel octets init maxnum = some r →
        KeepsDecoded past maxnum octets init r.packets := by
  intro hall
  obtain ⟨ps, rest, h, hleft⟩ := hall (fun _ => 0) 0 [0xCD, 1, 65, 0] [] 5 _ rfl
  have hdecodes : Decodes (fun _ => 0) 0 [] [0xCD, 1, 65, 0] [⟨tagUid, true, [65]⟩] [0] :=
    .packet (.inl rfl) framed_uid rfl
      (.fail (.inl rfl) (by simp) fun _ _ _ heq hframed => absurd hframed (not_framed_zero heq))
  obtain ⟨rfl, -⟩ := h.unique hdecodes
  exact absurd hleft (by decide)

end Onak
