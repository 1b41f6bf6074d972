import Onak.Proofs.SubpacketProofs

/-!
# Proofs: decoding an encoded subpacket area

Whatever form the length of each subpacket is written in, the loop of `parse_subpackets` comes to
exactly the subpackets that were encoded, and what follows the area is not looked at.
-/

namespace Onak

/-! ## Lengths -/

theorem beNat_four_octets (n : Nat) (h : n < 2 ^ 32) :
    beNat [UInt8.ofNat (n / 2 ^ 24), UInt8.ofNat (n / 2 ^ 16), UInt8.ofNat (n / 2 ^ 8), UInt8.ofNat n] =
      n := by
  simp only [beNat, List.foldl_cons, List.foldl_nil, UInt8.toNat_ofNat']
  omega

theorem getElem?_of_drop {data rest : List UInt8} {offset : Nat} (i : Nat)
    (h : data.drop offset = rest) : data[offset + i]? = rest[i]? := by
  rw [← h, List.getElem?_drop]

section

variable {data rest : List UInt8} {length offset n : Nat}

theorem subpacketLen_oneOctet (hfirst : data[offset]? = some (UInt8.ofNat n)) (hn : n < 192) :
    subpacketLen data length offset = some (some (n, offset + 1)) := by
  have hvalue : (UInt8.ofNat n).toNat = n := by
    rw [UInt8.toNat_ofNat']
    omega
  have htwo : ¬ (191 < UInt8.ofNat n ∧ UInt8.ofNat n < 255) := by
    rintro ⟨hlow, -⟩
    rw [UInt8.lt_iff_toNat_lt, hvalue] at hlow
    have hlow' : 191 < n := hlow
    omega
  have hfive : UInt8.ofNat n ≠ 255 := by
    intro heq
    rw [heq] at hvalue
    have hvalue' : 255 = n := hvalue
    omega
  unfold subpacketLen
  simp only [hfirst, Option.bind_eq_bind, Option.bind_some, if_neg htwo, if_neg hfive, hvalue]
  rfl

theorem subpacketLen_twoOctets
    (hfirst : data[offset]? = some (UInt8.ofNat ((n - 192) / 256 + 192)))
    (hsecond : data[offset + 1]? = some (UInt8.ofNat ((n - 192) % 256)))
    (hlow : 192 ≤ n) (hhigh : n < 16320) :
    subpacketLen data length offset = some (some (n, offset + 2)) := by
  have hvalue : (UInt8.ofNat ((n - 192) / 256 + 192)).toNat = (n - 192) / 256 + 192 := by
    rw [UInt8.toNat_ofNat']
    omega
  have hvalue2 : (UInt8.ofNat ((n - 192) % 256)).toNat = (n - 192) % 256 := by
    rw [UInt8.toNat_ofNat']
    omega
  have htwo : 191 < UInt8.ofNat ((n - 192) / 256 + 192) ∧
      UInt8.ofNat ((n - 192) / 256 + 192) < 255 := by
    rw [UInt8.lt_iff_toNat_lt, UInt8.lt_iff_toNat_lt, hvalue]
    show 191 < (n - 192) / 256 + 192 ∧ (n - 192) / 256 + 192 < 255
    omega
  have hsum : (((n - 192) / 256 + 192 - 192) <<< 8) + (n - 192) % 256 + 192 = n := by
    rw [Nat.shiftLeft_eq]
    omega
  unfold subpacketLen
  simp only [hfirst, hsecond, Option.bind_eq_bind, Option.bind_some, if_pos htwo, hvalue, hvalue2,
    hsum]
  rfl

theorem subpacketLen_fiveOctets {octets : List UInt8} (hfirst : data[offset]? = some 255)
    (hoctets : readOctets data (offset + 1) 4 = some octets) (hfits : offset + 6 ≤ length) :
    subpacketLen data length offset = some (some (beNat octets, offset + 5)) := by
  have htwo : ¬ (191 < (255 : UInt8) ∧ (255 : UInt8) < 255) := by decide
  unfold subpacketLen
  simp only [hfirst, Option.bind_eq_bind, Option.bind_some, if_neg htwo, if_true,
    if_neg (not_lt.mpr hfits), hoctets]
  rfl

/-- The length of a subpacket is read back from each of its forms. -/
theorem subpacketLen_octets {form : LengthForm}
    (hdata : data.drop offset = form.octets n ++ rest) (hn : n ≠ 0) (hform : form.Represents n)
    (hfits : offset + (form.octets n).length + n ≤ length) :
    subpacketLen data length offset = some (some (n, offset + (form.octets n).length)) := by
  have hfirst := getElem?_of_drop 0 hdata
  have hsecond := getElem?_of_drop 1 hdata
  rw [Nat.add_zero] at hfirst
  cases form with
  | oneOctet =>
    rw [LengthForm.octets, List.singleton_append, List.getElem?_cons_zero] at hfirst
    exact subpacketLen_oneOctet hfirst hform
  | twoOctets =>
    rw [LengthForm.octets, List.cons_append, List.getElem?_cons_zero] at hfirst
    rw [LengthForm.octets, List.cons_append, List.cons_append, List.getElem?_cons_succ,
      List.getElem?_cons_zero] at hsecond
    exact subpacketLen_twoOctets hfirst hsecond hform.1 hform.2
  | fiveOctets =>
    have hfit : offset + 5 + n ≤ length := hfits
    have hlength := congrArg List.length hdata
    rw [List.length_drop, List.length_append] at hlength
    have hfive : (LengthForm.fiveOctets.octets n).length = 5 := rfl
    have hoctets : readOctets data (offset + 1) 4 = some [UInt8.ofNat (n / 2 ^ 24),
        UInt8.ofNat (n / 2 ^ 16), UInt8.ofNat (n / 2 ^ 8), UInt8.ofNat n] := by
      unfold readOctets
      rw [if_pos (by omega), ← List.drop_drop, hdata]
      rfl
    rw [LengthForm.octets, List.cons_append, List.getElem?_cons_zero] at hfirst
    have hlen := @subpacketLen_fiveOctets data length offset _ hfirst hoctets (by omega)
    rw [beNat_four_octets n hform] at hlen
    exact hlen

end

/-! ## Areas -/

theorem one_le_length_octets (form : LengthForm) (n : Nat) : 1 ≤ (form.octets n).length := by
  cases form with
  | oneOctet => exact Nat.le_refl 1
  | twoOctets => exact Nat.le_succ 1
  | fiveOctets => exact Nat.le_add_left 1 4

namespace EncodedSubpacket

theorem length_octets (e : EncodedSubpacket) :
    e.octets.length = (e.form.octets (e.subpacket.body.length + 1)).length +
      (e.subpacket.body.length + 1) := by
  unfold octets
  rw [List.length_append, List.length_cons]

theorem three_le (e : EncodedSubpacket) : 3 ≤ e.octets.length := by
  have hform := one_le_length_octets e.form (e.subpacket.body.length + 1)
  have hbody := List.length_pos_of_ne_nil e.body_ne
  rw [length_octets]
  omega

end EncodedSubpacket

/-- The subpackets of an encoded area are found wherever the area stands. -/
theorem visits_areaOctets (l : List EncodedSubpacket) (front behind : List UInt8) :
    Visits (front ++ (areaOctets l ++ behind)) (front.length + (areaOctets l).length) front.length
      (l.map EncodedSubpacket.subpacket) := by
  induction l generalizing front with
  | nil => exact .done (by simp [areaOctets])
  | cons e l ih =>
    have harea : areaOctets (e :: l) = e.octets ++ areaOctets l := rfl
    have hdata : front ++ (areaOctets (e :: l) ++ behind) =
        (front ++ e.octets) ++ (areaOctets l ++ behind) := by
      rw [harea, List.append_assoc, List.append_assoc]
    have hlength : front.length + (areaOctets (e :: l)).length =
        (front ++ e.octets).length + (areaOctets l).length := by
      rw [harea, List.length_append, List.length_append, Nat.add_assoc]
    have hoctets := e.length_octets
    have hthree := e.three_le
    set n := e.subpacket.body.length + 1 with hn
    set header := e.form.octets n with hheader
    -- the area from its first subpacket on, and from the type octet of that on
    have hfront : (front ++ (areaOctets (e :: l) ++ behind)).drop front.length =
        header ++ (e.subpacket.type :: e.subpacket.body ++ (areaOctets l ++ behind)) := by
      rw [List.drop_left, harea, EncodedSubpacket.octets]
      simp only [List.append_assoc, List.cons_append, ← hn, ← hheader]
    have htype : (front ++ (areaOctets (e :: l) ++ behind)).drop (front.length + header.length) =
        e.subpacket.type :: e.subpacket.body ++ (areaOctets l ++ behind) := by
      rw [← List.drop_drop, hfront, List.drop_left]
    have hbody : (front ++ (areaOctets (e :: l) ++ behind)).drop (front.length + header.length + 1) =
        e.subpacket.body ++ (areaOctets l ++ behind) := by
      rw [← List.drop_drop, htype]
      rfl
    have hat : SubpacketAt (front ++ (areaOctets (e :: l) ++ behind))
        (front.length + (areaOctets (e :: l)).length) front.length n
        (front.length + header.length) := by
      have htotal : (areaOctets (e :: l)).length = e.octets.length + (areaOctets l).length := by
        rw [harea, List.length_append]
      refine ⟨by omega, ?_, by omega, by omega⟩
      exact subpacketLen_octets hfront (by omega) e.represents (by rw [← hheader]; omega)
    have hsp : subpacketAt (front ++ (areaOctets (e :: l) ++ behind)) e.subpacket.type
        (front.length + header.length) n = e.subpacket := by
      unfold subpacketAt
      rw [hbody, hn, Nat.add_sub_cancel, List.take_left]
    have hget : (front ++ (areaOctets (e :: l) ++ behind))[front.length + header.length]? =
        some e.subpacket.type := by
      have hzero := getElem?_of_drop 0 htype
      rwa [Nat.add_zero, List.cons_append, List.getElem?_cons_zero] at hzero
    rw [List.map_cons, ← hsp]
    refine .next hat hget ?_
    have hnext : front.length + header.length + n = (front ++ e.octets).length := by
      rw [List.length_append]
      omega
    rw [hnext, hlength, hdata]
    exact ih (front ++ e.octets)

/-- The length in front of an area is that of its subpackets. -/
theorem beNat_encodeArea {l : List EncodedSubpacket} (htotal : (areaOctets l).length < 65536)
    (behind : List UInt8) :
    beNat ((encodeArea l ++ behind).take 2) = (areaOctets l).length := by
  unfold encodeArea
  simp only [List.cons_append, List.take_succ_cons, List.take_zero, beNat, List.foldl_cons,
    List.foldl_nil, UInt8.toNat_ofNat']
  omega

/-- `parse_subpackets` comes to the encoded subpackets. -/
theorem visits_encodeArea {l : List EncodedSubpacket} (behind : List UInt8) :
    Visits (encodeArea l ++ behind) ((areaOctets l).length + 2) 2 (l.map EncodedSubpacket.subpacket) := by
  have h := visits_areaOctets l
    [UInt8.ofNat ((areaOctets l).length / 256), UInt8.ofNat (areaOctets l).length] behind
  rw [Nat.add_comm] at h
  exact h

/-- **Decoding an encoded area.** Subpackets with at least one octet in their body, each written with
its length in any form, below 65536 octets in all, with their length in front and any octets behind,
are decoded when there are four octets or more: the whole area is reported as parsed, there is an error
exactly if one of the subpackets is to be refused, and otherwise the creation time and the key id are
those of the last subpacket that gives one. And whatever the octets are, none behind those that were
given is read. -/
theorem parseSubpackets_encodeArea :
    (∀ (l : List EncodedSubpacket) (behind : List UInt8) (len : Nat) (keyid : Option UInt64)
      (creation : Option Int), (areaOctets l).length < 65536 → 4 ≤ len →
      (encodeArea l).length ≤ len → len ≤ (encodeArea l ++ behind).length →
      ∃ r, parseSubpackets (encodeArea l ++ behind) len keyid creation =
          some ((areaOctets l).length + 2, r) ∧
        (r.status ≠ .ok ↔ ∃ e ∈ l, e.subpacket.Refused) ∧
        (r.status = .ok →
          r.keyid = keyid.map (lastGiven Subpacket.keyid? (l.map EncodedSubpacket.subpacket)) ∧
          r.creation =
            creation.map (lastGiven Subpacket.creation? (l.map EncodedSubpacket.subpacket)))) ∧
    ∀ (data : List UInt8) (keyid : Option UInt64) (creation : Option Int),
      (parseSubpackets data data.length keyid creation).isSome = true := by
  constructor
  · intro l behind len keyid creation htotal hfour harea hlen
    have hlength : (encodeArea l).length = (areaOctets l).length + 2 := rfl
    have hmem : (areaOctets l).length + 2 ≤ (encodeArea l ++ behind).length := by
      rw [List.length_append]
      omega
    have hnumber := beNat_encodeArea htotal behind
    rcases parseSubpackets_cases hlen keyid creation with ⟨length, -, heq, -, hparse⟩ | ⟨-, hshort⟩
    · rw [hnumber] at heq
      subst heq
      have hvisits := @visits_encodeArea l behind
      have hfuel : (areaOctets l).length + 2 ≤ 2 + ((areaOctets l).length + 2) := Nat.le_add_left _ _
      rcases subpacketLoop_cases hmem hfuel keyid creation with ⟨sps, hsps, hok⟩ | ⟨r, hr, hstatus⟩
      · obtain rfl := hvisits.unique hmem hsps
        rw [hparse, hvisits.subpacketLoop_eq hmem hfuel hok]
        refine ⟨_, rfl, iff_of_false (by simp) ?_, fun _ => ⟨rfl, rfl⟩⟩
        rintro ⟨e, he, hrefused⟩
        exact hok _ (List.mem_map_of_mem he) hrefused
      · rw [hparse, hr]
        refine ⟨r, rfl, iff_of_true hstatus ?_, fun h => absurd h hstatus⟩
        by_contra hnone
        push Not at hnone
        have hok : ∀ sp ∈ l.map EncodedSubpacket.subpacket, ¬ sp.Refused := by
          intro sp hsp
          obtain ⟨e, he, rfl⟩ := List.mem_map.mp hsp
          exact hnone e he
        rw [hvisits.subpacketLoop_eq hmem hfuel hok] at hr
        exact hstatus (Option.some.inj hr ▸ rfl)
    · rw [hnumber] at hshort
      omega
  · intro data keyid creation
    obtain ⟨r, hr, -⟩ := parseSubpackets_isSome (Nat.le_refl data.length) keyid creation
    rw [hr]
    rfl

/-- A creation time, with its length in five octets. -/
def sampleCreation : EncodedSubpacket :=
  ⟨⟨2, [0, 0, 1, 2]⟩, .fiveOctets, by decide, show 5 < 2 ^ 32 by decide⟩

/-- A critical issuer. -/
def sampleIssuer : EncodedSubpacket :=
  ⟨⟨0x90, [0, 0, 0, 0, 0, 0, 0, 9]⟩, .oneOctet, by decide, show 9 < 192 by decide⟩

theorem parseSubpackets_encodeArea_sample :
    ∃ r, parseSubpackets (encodeArea [sampleCreation, sampleIssuer] ++ [7]) 22 (some 0) (some 0) =
      some (22, r) ∧ r.keyid = some 9 ∧ r.creation = some 258 := by
  obtain ⟨r, hr, hstatus, hvalues⟩ := parseSubpackets_encodeArea.1 [sampleCreation, sampleIssuer] [7] 22
    (some 0) (some 0) (by decide) (by decide) (by decide) (by decide)
  have hok : r.status = .ok := by
    by_contra hbad
    obtain ⟨e, he, hrefused⟩ := hstatus.mp hbad
    rcases List.mem_cons.mp he with rfl | he
    · revert hrefused
      unfold Subpacket.Refused
      decide
    · obtain rfl := List.mem_singleton.mp he
      revert hrefused
      unfold Subpacket.Refused
      decide
  obtain ⟨hkeyid, hcreation⟩ := hvalues hok
  exact ⟨r, hr, hkeyid.trans (by decide), hcreation.trans (by decide)⟩

/-- An empty area at the end of the octets is refused, for want of some data behind its length. -/
theorem parseSubpackets_empty_area :
    ¬ ∀ (l : List EncodedSubpacket) (behind : List UInt8) (len : Nat) (keyid : Option UInt64)
      (creation : Option Int), (areaOctets l).length < 65536 →
      (encodeArea l).length ≤ len → len ≤ (encodeArea l ++ behind).length →
      ∃ r, parseSubpackets (encodeArea l ++ behind) len keyid creation =
          some ((areaOctets l).length + 2, r) ∧
        (r.status ≠ .ok ↔ ∃ e ∈ l, e.subpacket.Refused) := by
  intro hall
  obtain ⟨r, hr, -⟩ := hall [] [] 2 none none (by decide) (by decide) (by decide)
  have hcode : parseSubpackets (encodeArea [] ++ []) 2 none none =
      some (0, ⟨.invalidPkt, none, none⟩) := by decide
  have hparsed : 0 = 2 := congrArg Prod.fst (Option.some.inj (hcode.symm.trans hr))
  exact absurd hparsed (by decide)

end Onak
