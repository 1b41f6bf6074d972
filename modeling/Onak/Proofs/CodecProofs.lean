import Onak.Proofs.FramingProofs

/-!
# Proofs: the packet codec

What `write_openpgp_stream` writes is read back by `read_openpgp_stream`, from any source that
delivers the written octets and then ends. The octets of a packet list are `streamOctets`; the
writer hands exactly these to its sink, and they are octets of the packets, so that the reader
consumes them packet by packet.
-/

namespace Onak

open Source

/-! ## Octets and numbers -/

theorem and_ff (n : Nat) : n &&& 0xFF = n % 256 :=
  Nat.and_two_pow_sub_one_eq_mod n 8

theorem and_ff00 (n : Nat) : (n &&& 0xFF00) >>> 8 = n / 256 % 256 := by
  have h : (0xFF00 : Nat) >>> 8 = 0xFF := rfl
  rw [Nat.shiftRight_and_distrib, h, and_ff, Nat.shiftRight_eq_div_pow]

theorem beNat_append (l : List UInt8) (b : UInt8) : beNat (l ++ [b]) = beNat l * 256 + b.toNat := by
  simp [beNat]

theorem beNat_lt (l : List UInt8) : beNat l < 256 ^ l.length := by
  induction l using List.reverseRecOn with
  | nil => decide
  | append_singleton l b ih =>
    have hb : b.toNat < 256 := b.toNat_lt
    rw [beNat_append, List.length_append, List.length_singleton, pow_succ]
    omega

theorem beNat_two {n : Nat} (h : n < 2 ^ 16) :
    beNat [UInt8.ofNat (n >>> 8), UInt8.ofNat (n &&& 0xFF)] = n := by
  simp only [beNat, List.foldl_cons, List.foldl_nil, UInt8.toNat_ofNat', and_ff,
    Nat.shiftRight_eq_div_pow]
  omega

theorem beNat_four {n : Nat} (h : n < 2 ^ 32) :
    beNat [UInt8.ofNat (n >>> 24), UInt8.ofNat (n >>> 16), UInt8.ofNat (n >>> 8),
      UInt8.ofNat n] = n := by
  simp only [beNat, List.foldl_cons, List.foldl_nil, UInt8.toNat_ofNat',
    Nat.shiftRight_eq_div_pow]
  omega

theorem ofNat_and_ff (n : Nat) : UInt8.ofNat (n &&& 0xFF) = UInt8.ofNat n := by
  apply UInt8.toNat_inj.mp
  simp only [UInt8.toNat_ofNat', and_ff]
  omega

/-! ## The first octet of a header -/

theorem newHeader_octet {tag : Nat} (h : tag < 64) :
    (UInt8.ofNat (0x80 ||| 0x40 ||| tag)) &&& 0x80 ≠ 0 ∧
      (UInt8.ofNat (0x80 ||| 0x40 ||| tag)) &&& 0x40 ≠ 0 ∧
      ((UInt8.ofNat (0x80 ||| 0x40 ||| tag)) &&& 0x3F).toNat = tag := by
  have hall : ∀ t : Fin 64, (UInt8.ofNat (0x80 ||| 0x40 ||| t.val)) &&& 0x80 ≠ 0 ∧
      (UInt8.ofNat (0x80 ||| 0x40 ||| t.val)) &&& 0x40 ≠ 0 ∧
      ((UInt8.ofNat (0x80 ||| 0x40 ||| t.val)) &&& 0x3F).toNat = t.val := by decide
  exact hall ⟨tag, h⟩

theorem oldHeader_octet {tag type : Nat} (h : tag < 16) (ht : type < 3) :
    (UInt8.ofNat (0x80 ||| (tag <<< 2) ||| type)) &&& 0x80 ≠ 0 ∧
      (UInt8.ofNat (0x80 ||| (tag <<< 2) ||| type)) &&& 0x40 = 0 ∧
      (((UInt8.ofNat (0x80 ||| (tag <<< 2) ||| type)) &&& 0x3C) >>> 2).toNat = tag ∧
      (UInt8.ofNat (0x80 ||| (tag <<< 2) ||| type)) &&& 3 = UInt8.ofNat type := by
  have hall : ∀ t : Fin 16, ∀ k : Fin 3,
      (UInt8.ofNat (0x80 ||| (t.val <<< 2) ||| k.val)) &&& 0x80 ≠ 0 ∧
      (UInt8.ofNat (0x80 ||| (t.val <<< 2) ||| k.val)) &&& 0x40 = 0 ∧
      (((UInt8.ofNat (0x80 ||| (t.val <<< 2) ||| k.val)) &&& 0x3C) >>> 2).toNat = t.val ∧
      (UInt8.ofNat (0x80 ||| (t.val <<< 2) ||| k.val)) &&& 3 = UInt8.ofNat k.val := by decide
  exact hall ⟨tag, h⟩ ⟨type, ht⟩

/-! ## What is written -/

/-- The header of a packet. -/
def headerOctets (p : Packet) : Option (List UInt8) :=
  if p.newformat then
    (newFormatHeader p.length).map fun octets => UInt8.ofNat (0x80 ||| 0x40 ||| p.tag) :: octets
  else
    some (oldFormatHeader p.tag p.length)

/-- The octets of a list of packets, if they can all be written. -/
def streamOctets : List Packet → Option (List UInt8)
  | [] => some []
  | p :: ps => (headerOctets p).bind fun header =>
      (streamOctets ps).map fun rest => header ++ (p.data ++ rest)

theorem streamOctets_cons {p : Packet} {ps : List Packet} {l : List UInt8}
    (h : streamOctets (p :: ps) = some l) :
    ∃ header rest, headerOctets p = some header ∧ streamOctets ps = some rest ∧
      l = header ++ (p.data ++ rest) := by
  obtain ⟨header, hh, hrest⟩ := Option.bind_eq_some_iff.mp h
  obtain ⟨rest, hr, hl⟩ := Option.map_eq_some_iff.mp hrest
  exact ⟨header, rest, hh, hr, hl.symm⟩

/-- The writer hands the octets of the packets to its sink, or fails. -/
theorem writeOpenpgpStream_eq {τ : Type} {putchar : τ → List UInt8 → τ} (hput : Gathers putchar)
    (t : τ) (ps : List Packet) :
    (∃ l, streamOctets ps = some l ∧ writeOpenpgpStream putchar t ps = (.ok, putchar t l)) ∨
      (streamOctets ps = none ∧ (writeOpenpgpStream putchar t ps).1 ≠ .ok) := by
  induction ps generalizing t with
  | nil => exact Or.inl ⟨[], rfl, by rw [hput.nil]; rfl⟩
  | cons p ps ih =>
    unfold writeOpenpgpStream streamOctets headerOctets
    by_cases hnew : p.newformat = true
    · simp only [hnew, if_true]
      cases hh : newFormatHeader p.length with
      | none => exact Or.inr ⟨rfl, by simp⟩
      | some octets =>
        simp only [Option.map_some, Option.bind_some, hput.append]
        rcases ih (putchar t ([UInt8.ofNat (0x80 ||| 0x40 ||| p.tag)] ++ octets ++ p.data)) with
          ⟨l, hl, hw⟩ | ⟨hl, hw⟩
        · refine Or.inl ⟨_, by rw [hl]; rfl, ?_⟩
          rw [hw, hput.append]
          simp
        · exact Or.inr ⟨by rw [hl]; rfl, hw⟩
    · simp only [hnew, if_false, Option.bind_some, hput.append, Bool.false_eq_true]
      rcases ih (putchar t (oldFormatHeader p.tag p.length ++ p.data)) with ⟨l, hl, hw⟩ | ⟨hl, hw⟩
      · refine Or.inl ⟨_, by rw [hl]; rfl, ?_⟩
        rw [hw, hput.append, List.append_assoc]
      · exact Or.inr ⟨by rw [hl]; rfl, hw⟩

theorem writeOpenpgpStream_of_octets {τ : Type} {putchar : τ → List UInt8 → τ}
    (hput : Gathers putchar) (t : τ) {ps : List Packet} {l : List UInt8}
    (hl : streamOctets ps = some l) : writeOpenpgpStream putchar t ps = (.ok, putchar t l) := by
  rcases writeOpenpgpStream_eq hput t ps with ⟨l', hl', heq⟩ | ⟨hnone, _⟩
  · rw [hl] at hl'
    obtain rfl := Option.some.inj hl'
    exact heq
  · rw [hl] at hnone
    exact absurd hnone (by simp)

/-! ## What is written are octets of the packets -/

theorem newLength_of_header {n : Nat} {octets : List UInt8}
    (h : newFormatHeader n = some octets) : NewLength n octets := by
  unfold newFormatHeader at h
  split_ifs at h with h1 h2 h3
  · obtain rfl := Option.some.inj h
    have hc : (UInt8.ofNat n).toNat = n := by
      rw [UInt8.toNat_ofNat']
      omega
    have hlt : UInt8.ofNat n < 192 := by
      rw [UInt8.lt_iff_toNat_lt, hc]
      exact h1
    have hone := NewLength.one hlt
    rwa [hc] at hone
  · obtain rfl := Option.some.inj h
    have hc : (UInt8.ofNat ((((n - 192) &&& 0xFF00) >>> 8) + 192)).toNat = (n - 192) / 256 + 192 := by
      rw [UInt8.toNat_ofNat', and_ff00]
      omega
    have hd : (UInt8.ofNat ((n - 192) &&& 0xFF)).toNat = (n - 192) % 256 := by
      rw [UInt8.toNat_ofNat', and_ff]
      omega
    have hle : (192 : UInt8) ≤ UInt8.ofNat ((((n - 192) &&& 0xFF00) >>> 8) + 192) := by
      rw [UInt8.le_iff_toNat_le, hc]
      simp only [UInt8.reduceToNat]
      omega
    have hlt : UInt8.ofNat ((((n - 192) &&& 0xFF00) >>> 8) + 192) < 224 := by
      rw [UInt8.lt_iff_toNat_lt, hc]
      simp only [UInt8.reduceToNat]
      omega
    have htwo := NewLength.two (d := UInt8.ofNat ((n - 192) &&& 0xFF)) hle hlt
    have hval : ((n - 192) / 256 + 192 - 192) * 256 + (n - 192) % 256 + 192 = n := by omega
    rwa [hc, hd, hval] at htwo
  · obtain rfl := Option.some.inj h
    have hfive := @NewLength.five [UInt8.ofNat (n >>> 24), UInt8.ofNat (n >>> 16),
      UInt8.ofNat (n >>> 8), UInt8.ofNat n] rfl
    rwa [beNat_four (by omega)] at hfive

/-- A packet that fits its format. -/
structure Fits (p : Packet) : Prop where
  new : p.newformat = true → p.tag < 64
  old : p.newformat = false → p.tag < 16 ∧ p.length < 2 ^ 32

theorem oldLength_of_header {tag n : Nat} (htag : tag < 16) (hn : n < 2 ^ 32) :
    ∃ c octets, oldFormatHeader tag n = c :: octets ∧ c &&& 0x80 ≠ 0 ∧ c &&& 0x40 = 0 ∧
      ((c &&& 0x3C) >>> 2).toNat = tag ∧ OldLength (c &&& 3) n octets := by
  -- one case for each of the three length types
  have hcase : ∃ type octets, type < 3 ∧
      oldFormatHeader tag n = UInt8.ofNat (0x80 ||| (tag <<< 2) ||| type) :: octets ∧
      octets.length = lengthOctets (UInt8.ofNat type) ∧ beNat octets = n := by
    unfold oldFormatHeader
    split_ifs with g1 g2
    · refine ⟨0, [UInt8.ofNat n], by omega, by rw [Nat.or_zero], rfl, ?_⟩
      simp only [beNat, List.foldl_cons, List.foldl_nil, UInt8.toNat_ofNat']
      omega
    · exact ⟨1, _, by omega, rfl, rfl, beNat_two (by omega)⟩
    · refine ⟨2, _, by omega, rfl, rfl, ?_⟩
      rw [ofNat_and_ff, ofNat_and_ff, ofNat_and_ff]
      exact beNat_four hn
  obtain ⟨type, octets, htype, heq, hlen, rfl⟩ := hcase
  obtain ⟨h1, h2, h3, h4⟩ := oldHeader_octet htag htype
  refine ⟨_, octets, heq, h1, h2, h3, ?_⟩
  rw [h4]
  have hne : UInt8.ofNat type ≠ 3 := by
    intro hc
    have := congrArg UInt8.toNat hc
    rw [UInt8.toNat_ofNat'] at this
    have h3n : (3 : UInt8).toNat = 3 := rfl
    omega
  exact .intro hne hlen

theorem framed_of_headerOctets {p : Packet} (hp : Fits p) {header : List UInt8}
    (hh : headerOctets p = some header) : Framed p (header ++ p.data) := by
  obtain ⟨tag, newformat, data⟩ := p
  unfold headerOctets at hh
  cases newformat with
  | true =>
    simp only [if_true] at hh
    obtain ⟨octets, ho, rfl⟩ := Option.map_eq_some_iff.mp hh
    obtain ⟨h1, h2, h3⟩ := newHeader_octet (hp.new rfl)
    have hlen : NewLength data.length octets := newLength_of_header ho
    have hframed := Framed.new h1 h2 hlen
    rwa [h3] at hframed
  | false =>
    simp only [if_false, Bool.false_eq_true] at hh
    obtain rfl := Option.some.inj hh
    obtain ⟨htag, hlen⟩ := hp.old rfl
    obtain ⟨c, octets, heq, h1, h2, h3, h4⟩ := oldLength_of_header htag hlen
    have hlen' : OldLength (c &&& 3) data.length octets := h4
    have hframed := Framed.old h1 h2 hlen'
    rw [h3] at hframed
    rw [heq]
    exact hframed

/-- The packets can be read, the first of them behind `packets`. -/
def Readable (past : List Packet → UInt8) (packets : List Packet) : List Packet → Prop
  | [] => True
  | p :: ps => Fits p ∧ versionSane p.tag (p.data.head?.getD (past packets)) = true ∧
      Readable past (packets ++ [p]) ps

/-- The octets of packets that can be read. -/
theorem words_of_readable {past : List Packet → UInt8} {ps packets : List Packet} {l : List UInt8}
    (hl : streamOctets ps = some l) (hr : Readable past packets ps) :
    PrefixCode.Words Framed ps l := by
  induction ps generalizing packets l with
  | nil =>
    obtain rfl := Option.some.inj hl
    exact .nil
  | cons p ps ih =>
    obtain ⟨header, rest, hh, hrest, rfl⟩ := streamOctets_cons hl
    obtain ⟨hp, -, hr⟩ := hr
    rw [← List.append_assoc]
    exact .cons (framed_of_headerOctets hp hh) (ih hrest hr)

/-- The loop of the reader on the octets of a packet list. -/
theorem readLoop_feeds {σ : Type} {getchar : σ → Nat → List UInt8 × σ}
    {R : σ → List UInt8 → Prop} {E : σ → Prop} (hR : Feeds getchar R E)
    {past : List Packet → UInt8} {ps packets : List Packet} {l : List UInt8} {s : σ} {fuel : Nat}
    (keys : Nat) (hl : streamOctets ps = some l) (hr : Readable past packets ps)
    (hfuel : ps.length < fuel) (hs : R s l) :
    ∃ s', readLoop getchar past 0 fuel keys packets s = some ⟨.ok, packets ++ ps, s'⟩ ∧ E s' := by
  have hwords := words_of_readable hl hr
  clear hl
  induction hwords generalizing packets s fuel keys with
  | nil =>
    obtain ⟨s', hget, hs'⟩ := hR.stop hs
    obtain ⟨fuel, rfl⟩ : ∃ k, fuel = k + 1 := ⟨fuel - 1, by simp at hfuel; omega⟩
    exact ⟨s', by rw [readLoop_end (.inl rfl) (by rw [getOctet, hget]; rfl), List.append_nil], hs'⟩
  | @cons p w ps rest hframed _ ih =>
    obtain ⟨-, hv, hr⟩ := hr
    obtain ⟨fuel, rfl⟩ : ∃ k, fuel = k + 1 := ⟨fuel - 1, by simp at hfuel; omega⟩
    obtain ⟨c, octets, rfl, hbit⟩ := hframed.exists_cons
    obtain ⟨s₁, hget, hs₁⟩ := getOctet_supplies hR.supplies hs
    obtain ⟨s₂, hpkt, hs₂⟩ := readPacket_supplies hR.supplies hframed hv hs₁
    have hfuel' : ps.length < fuel := by
      simp only [List.length_cons] at hfuel
      omega
    obtain ⟨s', hloop, hs'⟩ := ih (if p.tag = tagPublickey then keys + 1 else keys) hr hfuel' hs₂
    refine ⟨s', ?_, hs'⟩
    rw [readLoop_packet (.inl rfl) hget hbit hpkt, hloop, List.append_assoc, List.singleton_append]

/-! ## What was read fits -/

section

variable {σ : Type} {getchar : σ → Nat → List UInt8 × σ}

theorem getLength_lt {n length len : Nat} {s s' : σ}
    (h : getLength getchar n length s = (some len, s')) : len < (length + 1) * 256 ^ n := by
  induction n generalizing length s with
  | zero =>
    obtain ⟨hlen, -⟩ := Prod.mk.inj h
    obtain rfl := Option.some.inj hlen
    omega
  | succ n ih =>
    unfold getLength at h
    split at h
    · exact absurd h (by simp)
    · rename_i c s₁ hget
      have hlt := ih h
      have hc : c.toNat < 256 := c.toNat_lt
      have hle : (length <<< 8) + c.toNat + 1 ≤ (length + 1) * 256 := by
        rw [Nat.shiftLeft_eq]
        omega
      calc len < ((length <<< 8) + c.toNat + 1) * 256 ^ n := hlt
        _ ≤ (length + 1) * 256 * 256 ^ n := Nat.mul_le_mul_right _ hle
        _ = (length + 1) * 256 ^ (n + 1) := by rw [Nat.pow_succ', Nat.mul_assoc]

theorem oldFormatLength_lt {type : UInt8} {length : Nat} {s s' : σ}
    (h : oldFormatLength getchar type s = (.ok length, s')) : length < 2 ^ 32 := by
  unfold oldFormatLength at h
  by_cases htype : type = 3
  · rw [if_pos htype] at h
    exact absurd h (by simp)
  · rw [if_neg htype] at h
    simp only at h
    split at h
    · exact absurd h (by simp)
    · rename_i len s₁ hget
      obtain ⟨hlen, -⟩ := Prod.mk.inj h
      obtain rfl := Except.ok.inj hlen
      have hlt := getLength_lt hget
      have hle : (256 : Nat) ^ (if type = 0 then 1 else if type = 1 then 2 else 4) ≤ 256 ^ 4 := by
        refine Nat.pow_le_pow_right (by omega) ?_
        split_ifs <;> omega
      have h32 : (256 : Nat) ^ 4 = 2 ^ 32 := by norm_num
      omega

theorem newFormatLength_lt {length : Nat} {s s' : σ}
    (h : newFormatLength getchar s = (.ok length, s')) : length < 2 ^ 32 := by
  unfold newFormatLength at h
  split at h
  · exact absurd h (by simp)
  · rename_i c s₁ hget
    have hc : c.toNat < 256 := c.toNat_lt
    split_ifs at h with htwo hpartial hfive
    · split at h
      · exact absurd h (by simp)
      · rename_i second s₂ hget₂
        have hsecond : second.toNat < 256 := second.toNat_lt
        obtain ⟨hlen, -⟩ := Prod.mk.inj h
        obtain rfl := Except.ok.inj hlen
        rw [Nat.shiftLeft_eq]
        omega
    · exact absurd h (by simp)
    · split at h
      · exact absurd h (by simp)
      · rename_i len s₂ hget₂
        obtain ⟨hlen, -⟩ := Prod.mk.inj h
        obtain rfl := Except.ok.inj hlen
        have hlt := getLength_lt hget₂
        omega
    · obtain ⟨hlen, -⟩ := Prod.mk.inj h
      obtain rfl := Except.ok.inj hlen
      omega

/-- The length of a packet is a number of 32 bits. -/
theorem readPacket_length_lt {past c : UInt8} {p : Packet} {s s' : σ}
    (h : readPacket getchar past c s = (.ok p, s')) : p.length < 2 ^ 32 := by
  unfold readPacket at h
  simp only at h
  split at h
  · exact absurd h (by simp)
  · rename_i length s₁ hr
    have hlt : length < 2 ^ 32 := by
      split_ifs at hr
      · exact newFormatLength_lt hr
      · exact oldFormatLength_lt hr
    by_cases hdata : (getchar s₁ length).1.length ≠ length
    · rw [if_pos hdata] at h
      exact absurd h (by simp)
    · rw [if_neg hdata] at h
      generalize versionSane _ _ = sane at h
      cases sane
      · exact absurd h (by simp)
      · obtain ⟨hp, -⟩ := Prod.mk.inj h
        obtain rfl := Except.ok.inj hp
        show (getchar s₁ length).1.length < 2 ^ 32
        omega

theorem readLoop_length_lt {past : List Packet → UInt8} {maxnum : Int} {fuel keys : Nat}
    {packets : List Packet} {s : σ} {r : ReadResult σ}
    (hpackets : ∀ p ∈ packets, p.length < 2 ^ 32)
    (h : readLoop getchar past maxnum fuel keys packets s = some r) :
    ∀ p ∈ r.packets, p.length < 2 ^ 32 := by
  induction fuel generalizing keys packets s with
  | zero => exact absurd h (by simp [readLoop])
  | succ fuel ih =>
    unfold readLoop at h
    split_ifs at h with hmax
    · split at h
      · obtain rfl := Option.some.inj h
        exact hpackets
      · split_ifs at h with hbit
        · obtain rfl := Option.some.inj h
          exact fun p hp => hpackets p (List.mem_of_mem_dropLast hp)
        · split at h
          · obtain rfl := Option.some.inj h
            exact hpackets
          · rename_i packet s₂ hpkt
            refine ih (fun p hp => ?_) h
            rcases List.mem_append.mp hp with hp | hp
            · exact hpackets p hp
            · obtain rfl := List.mem_singleton.mp hp
              exact readPacket_length_lt hpkt
    · obtain rfl := Option.some.inj h
      exact hpackets

/-- No packet of a stream is longer than 32 bits can say. -/
theorem length_lt_of_read {past : List Packet → UInt8} {maxnum : Int} {fuel : Nat} {s : σ}
    {r : ReadResult σ} (h : readOpenpgpStream getchar past fuel s [] maxnum = some r) {p : Packet}
    (hp : p ∈ r.packets) : p.length < 2 ^ 32 := by
  obtain ⟨r', hloop, rfl⟩ := Option.map_eq_some_iff.mp h
  exact readLoop_length_lt (by simp) hloop p (by simpa using hp)

theorem readPacket_ok {past c : UInt8} {p : Packet} {s s' : σ}
    (h : readPacket getchar past c s = (.ok p, s')) :
    Fits p ∧ versionSane p.tag (p.data.head?.getD past) = true := by
  unfold readPacket at h
  by_cases hc : c &&& 0x40 = 0
  · simp only [hc, ne_eq, not_true_eq_false, decide_false, if_false] at h
    split at h
    · exact absurd h (by simp)
    · rename_i length s₁ hlen
      split_ifs at h with hdata hv
      · obtain ⟨hp, -⟩ := Prod.mk.inj h
        obtain rfl := Except.ok.inj hp
        refine ⟨⟨fun hnew => absurd hnew (by simp), fun _ => ⟨?_, ?_⟩⟩, hv⟩
        · show ((c &&& 0x3C) >>> 2).toNat < 16
          rw [UInt8.toNat_shiftRight, UInt8.toNat_and]
          have hle : c.toNat &&& (0x3C : UInt8).toNat ≤ 60 := Nat.and_le_right
          have hshift : (2 : UInt8).toNat % 8 = 2 := rfl
          rw [hshift, Nat.shiftRight_eq_div_pow]
          omega
        · have heq : (getchar s₁ length).1.length = length := by simpa using hdata
          show (getchar s₁ length).1.length < 2 ^ 32
          rw [heq]
          exact oldFormatLength_lt hlen
      · exact absurd h (by simp)
      · exact absurd h (by simp)
  · simp only [hc, ne_eq, not_false_eq_true, decide_true, if_true] at h
    split at h
    · exact absurd h (by simp)
    · rename_i length s₁ hlen
      split_ifs at h with hdata hv
      · obtain ⟨hp, -⟩ := Prod.mk.inj h
        obtain rfl := Except.ok.inj hp
        refine ⟨⟨fun _ => ?_, fun hold => absurd hold (by simp)⟩, hv⟩
        show (c &&& 0x3F).toNat < 64
        rw [UInt8.toNat_and]
        exact lt_of_le_of_lt Nat.and_le_right (by decide)
      · exact absurd h (by simp)
      · exact absurd h (by simp)

theorem newFormatLength_error {rc : Status} {s s' : σ}
    (h : newFormatLength getchar s = (.error rc, s')) : rc ≠ .ok := by
  unfold newFormatLength at h
  split at h
  · cases h; simp
  · split_ifs at h
    · split at h
      · cases h; simp
      · exact absurd h (by simp)
    · cases h; simp
    · split at h
      · cases h; simp
      · exact absurd h (by simp)
    · exact absurd h (by simp)

theorem oldFormatLength_error {type : UInt8} {rc : Status} {s s' : σ}
    (h : oldFormatLength getchar type s = (.error rc, s')) : rc ≠ .ok := by
  unfold oldFormatLength at h
  by_cases htype : type = 3
  · rw [if_pos htype] at h
    cases h; simp
  · rw [if_neg htype] at h
    simp only at h
    split at h
    · cases h; simp
    · exact absurd h (by simp)

theorem readPacket_error {past c : UInt8} {rc : Status} {s s' : σ}
    (h : readPacket getchar past c s = (.error rc, s')) : rc ≠ .ok := by
  unfold readPacket at h
  simp only at h
  split at h
  · rename_i rc' s₁ hlen
    cases h
    by_cases hc : c &&& 0x40 ≠ 0
    · rw [if_pos hc] at hlen
      exact newFormatLength_error hlen
    · rw [if_neg hc] at hlen
      exact oldFormatLength_error hlen
  · rename_i length s₁ hlen
    by_cases hdata : (getchar s₁ length).1.length ≠ length
    · rw [if_pos hdata] at h
      cases h; simp
    · rw [if_neg hdata] at h
      generalize versionSane _ _ = sane at h
      cases sane
      · cases h; simp
      · exact absurd h (by simp)

theorem readLoop_readable {past : List Packet → UInt8} {maxnum : Int} {fuel keys : Nat}
    {packets packets' : List Packet} {s s' : σ}
    (h : readLoop getchar past maxnum fuel keys packets s = some ⟨.ok, packets', s'⟩) :
    ∃ ps, packets' = packets ++ ps ∧ Readable past packets ps := by
  induction fuel generalizing keys packets s with
  | zero => exact absurd h (by simp [readLoop])
  | succ fuel ih =>
    unfold readLoop at h
    split_ifs at h with hmax
    · split at h
      · simp only [Option.some.injEq, ReadResult.mk.injEq, true_and] at h
        exact ⟨[], by rw [← h.1, List.append_nil], trivial⟩
      · split_ifs at h with hbit
        · simp at h
        · split at h
          · rename_i rc s₂ hpkt
            simp only [Option.some.injEq, ReadResult.mk.injEq] at h
            exact absurd h.1 (readPacket_error hpkt)
          · rename_i p s₂ hpkt
            obtain ⟨ps, hps, hr⟩ := ih h
            obtain ⟨hfit, hv⟩ := readPacket_ok hpkt
            exact ⟨p :: ps, by rw [hps]; simp, hfit, hv, hr⟩
    · simp only [Option.some.injEq, ReadResult.mk.injEq, true_and] at h
      exact ⟨[], by rw [← h.1, List.append_nil], trivial⟩

end

/-! ## Round trips -/

theorem versionSane_of_not_mem {tag : Nat} (h : tag ∉ versionedTags) (v : UInt8) :
    versionSane tag v = true := by
  unfold versionSane
  split <;> first | rfl | exact absurd (by decide) h

theorem readable_of_wellFormed {past : List Packet → UInt8} {packets ps : List Packet}
    (h : ∀ p ∈ ps, p.WellFormed) : Readable past packets ps := by
  induction ps generalizing packets with
  | nil => trivial
  | cons p ps ih =>
    have hp := h p (by simp)
    refine ⟨⟨fun hnew => (hp.new hnew).1, hp.old⟩, ?_, ih fun q hq => h q (by simp [hq])⟩
    by_cases hv : p.tag ∈ versionedTags
    · obtain ⟨v, hv, hsane⟩ := hp.version hv
      rw [hv]
      exact hsane
    · exact versionSane_of_not_mem hv _

theorem streamOctets_of_wellFormed {ps : List Packet} (h : ∀ p ∈ ps, p.WellFormed) :
    ∃ l, streamOctets ps = some l := by
  induction ps with
  | nil => exact ⟨[], rfl⟩
  | cons p ps ih =>
    obtain ⟨l, hl⟩ := ih fun q hq => h q (by simp [hq])
    have hheader : ∃ header, headerOctets p = some header := by
      unfold headerOctets
      by_cases hnew : p.newformat = true
      · obtain ⟨-, hlen⟩ := (h p (by simp)).new hnew
        have hsome : ∃ octets, newFormatHeader p.length = some octets := by
          unfold newFormatHeader
          split_ifs
          · exact ⟨_, rfl⟩
          · exact ⟨_, rfl⟩
          · exact ⟨_, rfl⟩
        obtain ⟨octets, ho⟩ := hsome
        rw [if_pos hnew, ho]
        exact ⟨_, rfl⟩
      · rw [if_neg hnew]
        exact ⟨_, rfl⟩
    obtain ⟨header, hh⟩ := hheader
    exact ⟨header ++ (p.data ++ l), by simp [streamOctets, hh, hl]⟩

theorem read_written {past : List Packet → UInt8} {ps : List Packet} (hr : Readable past [] ps)
    (hw : (writeOpenpgpStream (· ++ ·) [] ps).1 = .ok) {fuel : Nat} (hfuel : ps.length < fuel) :
    readOpenpgpStream buffer past fuel (writeOpenpgpStream (· ++ ·) [] ps).2 [] 0 =
      some ⟨.ok, ps, []⟩ := by
  rcases writeOpenpgpStream_eq append_gathers [] ps with ⟨l, hl, heq⟩ | ⟨_, hne⟩
  · obtain ⟨s', hloop, rfl⟩ := readLoop_feeds buffer_feeds 0 hl hr hfuel rfl
    rw [heq, List.nil_append]
    unfold readOpenpgpStream
    rw [hloop]
    rfl
  · exact absurd hw hne

theorem versionSane_zero {tag : Nat} (h : tag ∈ versionedTags) : versionSane tag 0 = false := by
  simp only [versionedTags, List.mem_cons, List.not_mem_nil, or_false] at h
  rcases h with rfl | rfl | rfl | rfl | rfl | rfl | rfl <;> rfl

/-- With zeros in memory, a packet whose version is checked is read only if it has data. -/
theorem Readable.data_ne_nil {packets ps : List Packet} (h : Readable (fun _ => 0) packets ps) :
    ∀ p ∈ ps, p.tag ∈ versionedTags → p.data ≠ [] := by
  induction ps generalizing packets with
  | nil => simp
  | cons p ps ih =>
    obtain ⟨-, hsane, hrest⟩ := h
    intro q hq htag hdata
    rcases List.mem_cons.mp hq with rfl | hq
    · rw [hdata, List.head?_nil, Option.getD_none, versionSane_zero htag] at hsane
      exact absurd hsane (by simp)
    · exact ih hrest q hq htag hdata

/-- The version of a packet with data does not depend on what lies in memory. -/
theorem Readable.of_data_ne_nil {past past' : List Packet → UInt8} {packets packets' ps : List Packet}
    (h : Readable past packets ps) (hne : ∀ p ∈ ps, p.tag ∈ versionedTags → p.data ≠ []) :
    Readable past' packets' ps := by
  induction ps generalizing packets packets' with
  | nil => trivial
  | cons p ps ih =>
    obtain ⟨hfits, hsane, hrest⟩ := h
    refine ⟨hfits, ?_, ih hrest fun q hq => hne q (by simp [hq])⟩
    by_cases htag : p.tag ∈ versionedTags
    · obtain ⟨v, l, hdata⟩ := List.exists_cons_of_ne_nil (hne p (by simp) htag)
      rw [hdata] at hsane ⊢
      exact hsane
    · exact versionSane_of_not_mem htag _

theorem readable_of_read {σ : Type} {getchar : σ → Nat → List UInt8 × σ}
    {past : List Packet → UInt8} {n : Nat} {s s' : σ} {maxnum : Int} {ps : List Packet}
    (h : readOpenpgpStream getchar past n s [] maxnum = some ⟨.ok, ps, s'⟩) :
    Readable past [] ps := by
  obtain ⟨⟨rc, packets, ctx⟩, hloop, hr⟩ := Option.map_eq_some_iff.mp h
  simp only [ReadResult.mk.injEq, List.nil_append] at hr
  obtain ⟨rfl, rfl, rfl⟩ := hr
  obtain ⟨ps', hps, hreadable⟩ := readLoop_readable hloop
  rw [List.nil_append] at hps
  rw [hps]
  exact hreadable

/-- **Packets survive writing and reading, up to octets behind empty packets.** Well-formed packets
are written and read back exactly. Whatever was read from some source, if it can be written, is read
back from what is written, whatever lies in memory then, if and only if no packet whose version is
checked is empty. -/
theorem readOpenpgpStream_writeOpenpgpStream_iff (past : List Packet → UInt8) (ps : List Packet) :
    ((∀ p ∈ ps, p.WellFormed) → (writeOpenpgpStream (· ++ ·) [] ps).1 = .ok ∧
      ∀ fuel, ps.length < fuel →
        readOpenpgpStream buffer past fuel (writeOpenpgpStream (· ++ ·) [] ps).2 [] 0 =
          some ⟨.ok, ps, []⟩) ∧
    ∀ {σ : Type} (getchar : σ → Nat → List UInt8 × σ) (s s' : σ) (n : Nat) (maxnum : Int),
      readOpenpgpStream getchar past n s [] maxnum = some ⟨.ok, ps, s'⟩ →
      (writeOpenpgpStream (· ++ ·) [] ps).1 = .ok →
      ((∀ (past' : List Packet → UInt8) (fuel : Nat), ps.length < fuel →
          readOpenpgpStream buffer past' fuel (writeOpenpgpStream (· ++ ·) [] ps).2 [] 0 =
            some ⟨.ok, ps, []⟩) ↔
        ∀ p ∈ ps, p.tag ∈ versionedTags → p.data ≠ []) := by
  constructor
  · intro hps
    obtain ⟨l, hl⟩ := streamOctets_of_wellFormed hps
    have hw : (writeOpenpgpStream (· ++ ·) [] ps).1 = .ok := by
      rw [writeOpenpgpStream_of_octets append_gathers [] hl]
    exact ⟨hw, fun fuel hfuel => read_written (readable_of_wellFormed hps) hw hfuel⟩
  · intro σ getchar s s' n maxnum hread hw
    constructor
    · intro hback
      exact (readable_of_read (hback (fun _ => 0) (ps.length + 1) (Nat.lt_succ_self _))).data_ne_nil
    · intro hne past' fuel hfuel
      exact read_written ((readable_of_read hread).of_data_ne_nil hne) hw hfuel

/-- A user id and a signature are written and read back; a user id read with a five octet length is
written with one. -/
theorem readOpenpgpStream_writeOpenpgpStream_sample :
    readOpenpgpStream buffer (fun _ => 0) 3 [0xCD, 2, 65, 66, 0x88, 1, 4] [] 0 =
        some ⟨.ok, [⟨tagUid, true, [65, 66]⟩, ⟨tagSignature, false, [4]⟩], []⟩ ∧
      readOpenpgpStream buffer (fun _ => 0) 2 [0xCD, 1, 65] [] 0 =
        some ⟨.ok, [⟨tagUid, true, [65]⟩], []⟩ := by
  constructor
  · refine ((readOpenpgpStream_writeOpenpgpStream_iff (fun _ => 0)
      [⟨tagUid, true, [65, 66]⟩, ⟨tagSignature, false, [4]⟩]).1 ?_).2 3 (by decide)
    intro p hp
    rcases List.mem_cons.mp hp with rfl | hp
    · exact ⟨fun _ => ⟨by decide, by decide⟩, fun h => absurd h (by simp),
        fun h => absurd h (by decide)⟩
    · obtain rfl := List.mem_singleton.mp hp
      exact ⟨fun h => absurd h (by simp), fun _ => ⟨by decide, by decide⟩, fun _ => ⟨4, rfl, rfl⟩⟩
  · exact ((readOpenpgpStream_writeOpenpgpStream_iff (fun _ => 4) [⟨tagUid, true, [65]⟩]).2 buffer
      [0xCD, 255, 0, 0, 0, 1, 65] [] 2 0 rfl rfl).mpr (by decide) (fun _ => 0) 2 (by decide)

/-- An empty signature that is read while there is a 4 behind it in memory is not read back while
there is a 0. -/
theorem readOpenpgpStream_reads_behind :
    ¬ ∀ (past past' : List Packet → UInt8) (octets : List UInt8) (n fuel : Nat) (ps : List Packet),
      readOpenpgpStream buffer past n octets [] 0 = some ⟨.ok, ps, []⟩ →
      (writeOpenpgpStream (· ++ ·) [] ps).1 = .ok → ps.length < fuel →
        readOpenpgpStream buffer past' fuel (writeOpenpgpStream (· ++ ·) [] ps).2 [] 0 =
          some ⟨.ok, ps, []⟩ := by
  intro hall
  have hback := hall (fun _ => 4) (fun _ => 0) [0x88, 0] 2 2 [⟨tagSignature, false, []⟩] rfl rfl
    (by decide)
  exact absurd (congrArg (Option.map ReadResult.packets) hback) (by decide)

end Onak
