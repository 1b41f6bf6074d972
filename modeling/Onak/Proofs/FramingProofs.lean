import Onak.Framing

/-!
# Proofs: packets as octets

The octets of packets form a prefix-free code. From any source that delivers the octets of a packet
the reader takes that packet; and whatever packet it takes from a source, the octets it used up are
octets of that packet.
-/

namespace Onak

open Source PrefixCode

/-! ## The code is prefix-free -/

theorem NewLength.split {n n' : Nat} {l l' t t' : List UInt8} (h : NewLength n l)
    (h' : NewLength n' l') (heq : l ++ t = l' ++ t') : n = n' ∧ l = l' := by
  -- the first octet tells the form
  have hcmp : ∀ {c c' : UInt8}, c < 192 → 192 ≤ c' → c ≠ c' := by
    rintro c c' hlt hle rfl
    exact absurd hlt (UInt8.not_lt.mpr hle)
  have hlast : ∀ {c : UInt8}, c < 224 → c ≠ 255 := by
    rintro c hlt rfl
    exact absurd hlt (by decide)
  cases h with
  | one hc =>
    cases h' with
    | one hc' =>
      obtain ⟨rfl, -⟩ := List.cons.inj heq
      exact ⟨rfl, rfl⟩
    | two hc' hd' => exact absurd (List.cons.inj heq).1 (hcmp hc hc')
    | five hlen' => exact absurd (List.cons.inj heq).1 (hcmp hc (by decide))
  | two hc hd =>
    cases h' with
    | one hc' => exact absurd (List.cons.inj heq).1.symm (hcmp hc' hc)
    | two hc' hd' =>
      obtain ⟨rfl, hrest⟩ := List.cons.inj heq
      obtain ⟨rfl, -⟩ := List.cons.inj hrest
      exact ⟨rfl, rfl⟩
    | five hlen' => exact absurd (List.cons.inj heq).1 (hlast hd)
  | five hlen =>
    cases h' with
    | one hc' => exact absurd (List.cons.inj heq).1.symm (hcmp hc' (by decide))
    | two hc' hd' => exact absurd (List.cons.inj heq).1.symm (hlast hd')
    | five hlen' =>
      obtain ⟨rfl, -⟩ := List.append_inj (List.cons.inj heq).2 (hlen.trans hlen'.symm)
      exact ⟨rfl, rfl⟩

theorem OldLength.split {type : UInt8} {n n' : Nat} {l l' t t' : List UInt8}
    (h : OldLength type n l) (h' : OldLength type n' l') (heq : l ++ t = l' ++ t') :
    n = n' ∧ l = l' := by
  obtain ⟨-, hlen⟩ := h
  obtain ⟨-, hlen'⟩ := h'
  obtain ⟨rfl, -⟩ := List.append_inj heq (hlen.trans hlen'.symm)
  exact ⟨rfl, rfl⟩

theorem framed_prefixFree : PrefixFree Framed where
  ne_nil := by
    intro p l h
    cases h with
    | new => simp
    | old => simp
  split := by
    intro p p' l l' t t' h h' heq
    cases h with
    | new htop hnew hlen =>
      cases h' with
      | new htop' hnew' hlen' =>
        obtain ⟨rfl, hrest⟩ := List.cons.inj heq
        simp only [List.append_eq, List.append_assoc] at hrest
        obtain ⟨hn, rfl⟩ := hlen.split hlen' hrest
        obtain ⟨rfl, -⟩ := List.append_inj (List.append_cancel_left hrest) hn
        exact ⟨rfl, rfl⟩
      | old htop' hold' hlen' =>
        obtain ⟨rfl, -⟩ := List.cons.inj heq
        exact absurd hold' hnew
    | old htop hold hlen =>
      cases h' with
      | new htop' hnew' hlen' =>
        obtain ⟨rfl, -⟩ := List.cons.inj heq
        exact absurd hold hnew'
      | old htop' hold' hlen' =>
        obtain ⟨rfl, hrest⟩ := List.cons.inj heq
        simp only [List.append_eq, List.append_assoc] at hrest
        obtain ⟨hn, rfl⟩ := hlen.split hlen' hrest
        obtain ⟨rfl, -⟩ := List.append_inj (List.append_cancel_left hrest) hn
        exact ⟨rfl, rfl⟩

theorem Framed.exists_cons {p : Packet} {l : List UInt8} (h : Framed p l) :
    ∃ c octets, l = c :: octets ∧ c &&& 0x80 ≠ 0 := by
  cases h with
  | new htop => exact ⟨_, _, rfl, htop⟩
  | old htop => exact ⟨_, _, rfl, htop⟩

/-! ## Lengths -/

/-- A length read octet by octet. -/
def lengthOf (length : Nat) (octets : List UInt8) : Nat :=
  octets.foldl (fun n b => (n <<< 8) + b.toNat) length

theorem lengthOf_zero (octets : List UInt8) : lengthOf 0 octets = beNat octets := by
  simp only [lengthOf, beNat, Nat.shiftLeft_eq, Nat.reducePow]

/-! ## Reading from a source that supplies octets -/

section

variable {σ : Type} {getchar : σ → Nat → List UInt8 × σ} {R : σ → List UInt8 → Prop}
  (hR : Supplies getchar R)
include hR

theorem getOctet_supplies {s : σ} {c : UInt8} {l : List UInt8} (hs : R s (c :: l)) :
    ∃ s', getOctet getchar s = (some c, s') ∧ R s' l := by
  obtain ⟨s', hget, hs'⟩ := hR.next_one hs
  exact ⟨s', by simp [getOctet, hget], hs'⟩

theorem getLength_supplies {octets l : List UInt8} {s : σ} (length : Nat)
    (hs : R s (octets ++ l)) :
    ∃ s', getLength getchar octets.length length s = (some (lengthOf length octets), s') ∧
      R s' l := by
  induction octets generalizing length s with
  | nil => exact ⟨s, rfl, hs⟩
  | cons c octets ih =>
    obtain ⟨s₁, hget, hs₁⟩ := getOctet_supplies hR hs
    obtain ⟨s₂, hlen, hs₂⟩ := ih ((length <<< 8) + c.toNat) hs₁
    refine ⟨s₂, ?_, hs₂⟩
    simp only [List.length_cons, getLength, hget]
    exact hlen

theorem newFormatLength_supplies {n : Nat} {octets l : List UInt8} {s : σ}
    (h : NewLength n octets) (hs : R s (octets ++ l)) :
    ∃ s', newFormatLength getchar s = (.ok n, s') ∧ R s' l := by
  cases h with
  | @one c hc =>
    obtain ⟨s₁, hget, hs₁⟩ := getOctet_supplies hR hs
    refine ⟨s₁, ?_, hs₁⟩
    have hlt : c.toNat < 192 := UInt8.lt_iff_toNat_lt.mp hc
    have n1 : ¬ (191 < c.toNat ∧ c.toNat < 224) := by omega
    have n2 : ¬ (223 < c.toNat ∧ c.toNat < 255) := by omega
    have n3 : ¬ c.toNat = 255 := by omega
    simp only [newFormatLength, hget, UInt8.lt_iff_toNat_lt, UInt8.reduceToNat, ← UInt8.toNat_inj,
      n1, n2, n3, if_false]
  | @two c d hc hd =>
    obtain ⟨s₁, hget, hs₁⟩ := getOctet_supplies hR hs
    obtain ⟨s₂, hget₂, hs₂⟩ := getOctet_supplies hR hs₁
    refine ⟨s₂, ?_, hs₂⟩
    have hle : (192 : UInt8).toNat ≤ c.toNat := UInt8.le_iff_toNat_le.mp hc
    have h192 : (192 : UInt8).toNat = 192 := rfl
    have hlow : 191 < c := UInt8.lt_iff_toNat_lt.mpr (by simp only [UInt8.reduceToNat]; omega)
    simp only [newFormatLength, hget, hget₂, hlow, hd, and_self, if_true, Nat.shiftLeft_eq,
      Nat.reducePow]
  | @five octets hlen =>
    obtain ⟨s₁, hget, hs₁⟩ := getOctet_supplies hR hs
    obtain ⟨s₂, hlength, hs₂⟩ := getLength_supplies hR 0 hs₁
    rw [hlen, lengthOf_zero] at hlength
    refine ⟨s₂, ?_, hs₂⟩
    have n1 : ¬ ((191 : UInt8) < 255 ∧ (255 : UInt8) < 224) := by decide
    have n2 : ¬ ((223 : UInt8) < 255 ∧ (255 : UInt8) < 255) := by decide
    simp only [newFormatLength, hget, n1, n2, if_false, if_true, hlength]

theorem oldFormatLength_supplies {type : UInt8} {n : Nat} {octets l : List UInt8} {s : σ}
    (h : OldLength type n octets) (hs : R s (octets ++ l)) :
    ∃ s', oldFormatLength getchar type s = (.ok n, s') ∧ R s' l := by
  obtain ⟨htype, hlen⟩ := h
  obtain ⟨s', hget, hs'⟩ := getLength_supplies hR 0 hs
  rw [hlen, lengthOf_zero, lengthOctets] at hget
  refine ⟨s', ?_, hs'⟩
  simp only [oldFormatLength, htype, if_false, hget]

/-- A packet that passes the version check is read from its octets. -/
theorem readPacket_supplies {p : Packet} {octets : List UInt8} {c past : UInt8}
    (h : Framed p (c :: octets)) (hp : p.Sane past) {s : σ} {l : List UInt8}
    (hs : R s (octets ++ l)) : ∃ s', readPacket getchar past c s = (.ok p, s') ∧ R s' l := by
  have hframe : ∃ lengths, octets = lengths ++ p.data ∧
      (if c &&& 0x40 ≠ 0 then (c &&& 0x3F).toNat else ((c &&& 0x3C) >>> 2).toNat) = p.tag ∧
      decide (c &&& 0x40 ≠ 0) = p.newformat ∧
      ∀ {s l}, R s (lengths ++ l) → ∃ s',
        (if c &&& 0x40 ≠ 0 then newFormatLength getchar s
          else oldFormatLength getchar (c &&& 3) s) = (.ok p.length, s') ∧ R s' l := by
    cases h with
    | new htop hnew hlen =>
      refine ⟨_, rfl, if_pos hnew, decide_eq_true hnew, fun {s l} hs => ?_⟩
      rw [if_pos hnew]
      exact newFormatLength_supplies hR hlen hs
    | old htop hold hlen =>
      have hnot : ¬ c &&& 0x40 ≠ 0 := not_not.mpr hold
      refine ⟨_, rfl, if_neg hnot, decide_eq_false hnot, fun {s l} hs => ?_⟩
      rw [if_neg hnot]
      exact oldFormatLength_supplies hR hlen hs
  obtain ⟨lengths, rfl, htag, hformat, hread⟩ := hframe
  rw [List.append_assoc] at hs
  obtain ⟨s₁, hlen, hs₁⟩ := hread hs
  obtain ⟨s₂, hdata, hs₂⟩ := hR.next hs₁
  have hdata' : getchar s₁ p.length = (p.data, s₂) := hdata
  have hsane : versionSane p.tag (p.data.head?.getD past) = true := hp
  refine ⟨s₂, ?_, hs₂⟩
  unfold readPacket
  simp only [hlen, htag, hdata', hsane, if_true, hformat]
  simp [Packet.length]

end

/-! ## What was used up -/

section

variable {σ : Type} {getchar : σ → Nat → List UInt8 × σ} {C : σ → List UInt8 → σ → Prop}
  (hC : Consumes getchar C)
include hC

theorem getOctet_consumes {s s' : σ} {c : UInt8} (h : getOctet getchar s = (some c, s')) :
    C s [c] s' := by
  obtain ⟨hhead, rfl⟩ := Prod.mk.inj h
  have hle := hC.le (rfl : getchar s 1 = ((getchar s 1).1, (getchar s 1).2))
  have hget : (getchar s 1).1 = [c] := by
    cases hl : (getchar s 1).1 with
    | nil =>
      rw [hl] at hhead
      exact absurd hhead (by simp)
    | cons d l =>
      rw [hl] at hhead hle
      obtain rfl := Option.some.inj hhead
      have hnil : l = [] := List.length_eq_zero_iff.mp (by simp at hle; simpa using hle)
      rw [hnil]
  refine hC.full (Prod.ext hget rfl) rfl

theorem getLength_consumes {n length len : Nat} {s s' : σ}
    (h : getLength getchar n length s = (some len, s')) :
    ∃ octets, octets.length = n ∧ len = lengthOf length octets ∧ C s octets s' := by
  induction n generalizing length s with
  | zero =>
    obtain ⟨hlen, rfl⟩ := Prod.mk.inj h
    obtain rfl := Option.some.inj hlen
    exact ⟨[], rfl, rfl, hC.nil s⟩
  | succ n ih =>
    unfold getLength at h
    split at h
    · exact absurd h (by simp)
    · rename_i c s₁ hget
      obtain ⟨octets, hoctets, hlen, hrest⟩ := ih h
      exact ⟨c :: octets, by rw [List.length_cons, hoctets], hlen,
        hC.append (getOctet_consumes hC hget) hrest⟩

theorem newFormatLength_consumes {n : Nat} {s s' : σ}
    (h : newFormatLength getchar s = (.ok n, s')) : ∃ octets, NewLength n octets ∧ C s octets s' := by
  unfold newFormatLength at h
  split at h
  · exact absurd h (by simp)
  · rename_i c s₁ hget
    have hfirst := getOctet_consumes hC hget
    by_cases htwo : 191 < c ∧ c < 224
    · rw [if_pos htwo] at h
      split at h
      · exact absurd h (by simp)
      · rename_i d s₂ hget₂
        obtain ⟨hn, rfl⟩ := Prod.mk.inj h
        obtain rfl := Except.ok.inj hn
        rw [Nat.shiftLeft_eq]
        have hle : 192 ≤ c := by
          have := UInt8.lt_iff_toNat_lt.mp htwo.1
          rw [UInt8.le_iff_toNat_le]
          simp only [UInt8.reduceToNat] at this ⊢
          omega
        exact ⟨[c, d], .two hle htwo.2, hC.append hfirst (getOctet_consumes hC hget₂)⟩
    · rw [if_neg htwo] at h
      by_cases hpartial : 223 < c ∧ c < 255
      · rw [if_pos hpartial] at h
        exact absurd h (by simp)
      · rw [if_neg hpartial] at h
        by_cases hfive : c = 255
        · rw [if_pos hfive] at h
          split at h
          · exact absurd h (by simp)
          · rename_i len s₂ hlen
            obtain ⟨hn, rfl⟩ := Prod.mk.inj h
            obtain rfl := Except.ok.inj hn
            obtain ⟨octets, hoctets, rfl, hrest⟩ := getLength_consumes hC hlen
            rw [lengthOf_zero]
            rw [hfive] at hfirst
            exact ⟨255 :: octets, .five hoctets, hC.append hfirst hrest⟩
        · rw [if_neg hfive] at h
          obtain ⟨hn, rfl⟩ := Prod.mk.inj h
          obtain rfl := Except.ok.inj hn
          have hc := c.toNat_lt
          have hne : c.toNat ≠ 255 := fun h => hfive (UInt8.toNat_inj.mp h)
          simp only [UInt8.lt_iff_toNat_lt, UInt8.reduceToNat] at htwo hpartial
          refine ⟨[c], .one (UInt8.lt_iff_toNat_lt.mpr ?_), hfirst⟩
          simp only [UInt8.reduceToNat]
          omega

theorem oldFormatLength_consumes {type : UInt8} {n : Nat} {s s' : σ}
    (h : oldFormatLength getchar type s = (.ok n, s')) :
    ∃ octets, OldLength type n octets ∧ C s octets s' := by
  unfold oldFormatLength at h
  by_cases htype : type = 3
  · rw [if_pos htype] at h
    exact absurd h (by simp)
  · rw [if_neg htype] at h
    simp only at h
    split at h
    · exact absurd h (by simp)
    · rename_i len s₁ hlen
      obtain ⟨hn, rfl⟩ := Prod.mk.inj h
      obtain rfl := Except.ok.inj hn
      obtain ⟨octets, hoctets, rfl, hrest⟩ := getLength_consumes hC hlen
      rw [lengthOf_zero]
      exact ⟨octets, .intro htype hoctets, hrest⟩

/-- What was used up for a packet are octets of that packet. -/
theorem readPacket_consumes {past c : UInt8} {p : Packet} {s s' : σ} (htop : c &&& 0x80 ≠ 0)
    (h : readPacket getchar past c s = (.ok p, s')) :
    ∃ octets, Framed p (c :: octets) ∧ p.Sane past ∧ C s octets s' := by
  unfold readPacket at h
  simp only at h
  split at h
  · exact absurd h (by simp)
  · rename_i length s₁ hlen
    by_cases hdata : (getchar s₁ length).1.length = length
    · rw [if_neg (not_not.mpr hdata)] at h
      have hused := hC.full (rfl : getchar s₁ length = ((getchar s₁ length).1, _)) hdata
      by_cases hnew : c &&& 0x40 ≠ 0
      · simp only [if_pos hnew, decide_eq_true hnew] at h hlen
        obtain ⟨octets, hoctets, hfirst⟩ := newFormatLength_consumes hC hlen
        rw [← hdata] at hoctets
        split at h
        · rename_i hsane
          obtain ⟨hp, rfl⟩ := Prod.mk.inj h
          obtain rfl := Except.ok.inj hp
          exact ⟨_, .new htop hnew hoctets, hsane, hC.append hfirst hused⟩
        · exact absurd h (by simp)
      · simp only [if_neg hnew, decide_eq_false hnew] at h hlen
        obtain ⟨octets, hoctets, hfirst⟩ := oldFormatLength_consumes hC hlen
        rw [← hdata] at hoctets
        split at h
        · rename_i hsane
          obtain ⟨hp, rfl⟩ := Prod.mk.inj h
          obtain rfl := Except.ok.inj hp
          exact ⟨_, .old htop (not_not.mp hnew) hoctets, hsane, hC.append hfirst hused⟩
        · exact absurd h (by simp)
    · rw [if_pos hdata] at h
      exact absurd h (by simp)

end

/-! ## One round of the loop -/

section

variable {σ : Type} {getchar : σ → Nat → List UInt8 × σ} {past : List Packet → UInt8}
  {maxnum : Int} {fuel keys : Nat} {packets : List Packet} {s s₁ s₂ : σ} {c : UInt8}
  (hbelow : maxnum = 0 ∨ keys < maxnum)
include hbelow

theorem readLoop_end (hget : getOctet getchar s = (none, s₁)) :
    readLoop getchar past maxnum (fuel + 1) keys packets s = some ⟨.ok, packets, s₁⟩ := by
  simp only [readLoop, hbelow, not_true_eq_false, if_false, hget]

variable (hget : getOctet getchar s = (some c, s₁))
include hget

theorem readLoop_stray (hbit : c &&& 0x80 = 0) :
    readLoop getchar past maxnum (fuel + 1) keys packets s =
      some ⟨.invalidPkt, packets.dropLast, s₁⟩ := by
  simp only [readLoop, hbelow, not_true_eq_false, if_false, hget, hbit, if_true]

theorem readLoop_error (hbit : c &&& 0x80 ≠ 0) {rc : Status}
    (hread : readPacket getchar (past packets) c s₁ = (.error rc, s₂)) :
    readLoop getchar past maxnum (fuel + 1) keys packets s = some ⟨rc, packets, s₂⟩ := by
  simp only [readLoop, hbelow, not_true_eq_false, if_false, hget, hbit, hread]

theorem readLoop_packet (hbit : c &&& 0x80 ≠ 0) {p : Packet}
    (hread : readPacket getchar (past packets) c s₁ = (.ok p, s₂)) :
    readLoop getchar past maxnum (fuel + 1) keys packets s =
      readLoop getchar past maxnum fuel (if p.tag = tagPublickey then keys + 1 else keys)
        (packets ++ [p]) s₂ := by
  simp only [readLoop, hbelow, not_true_eq_false, if_false, hget, hbit, hread]

end

end Onak
