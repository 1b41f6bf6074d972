import Onak.ParseKey
import Onak.Proofs.SigClassProofs
import Onak.Proofs.SigCompareProofs

/-!
# Proofs: reads inside a packet

`read_openpgp_stream` looks at the first octet of a packet and at no other. `sig_info`,
`get_fingerprint` and `get_packetid` look at octets further behind, some of them at places that other
octets give. For each of them there is a least number of octets with which all that it looks at is
inside the packet.
-/

namespace Onak

open Source

theorem readOctets_isSome_iff {data : List UInt8} {offset n : Nat} :
    (readOctets data offset n).isSome = true ↔ offset + n ≤ data.length := by
  unfold readOctets
  split_ifs with h
  · exact iff_of_true rfl h
  · exact iff_of_false (by simp) h

/-! ## Signatures -/

/-- The octets that `sig_info` looks at are there: the first one, 15 for an old signature, and four for
one with subpackets. -/
def SigReadable (p : Packet) : Prop :=
  ∃ version, p.data[0]? = some version ∧ (version = 2 ∨ version = 3 → 15 ≤ p.length) ∧
    (version = 4 ∨ version = 5 → 4 ≤ p.length)

/-- A signature of version 4 or 5 with at least four octets: both subpacket areas are inside. -/
theorem sigInfo_isSome_of_subpackets {p : Packet} {version : UInt8}
    (hfirst : p.data[0]? = some version) (hversion : version = 4 ∨ version = 5) (hlen : 4 ≤ p.length)
    (keyid : Option UInt64) (creation : Option Int) : (sigInfo p keyid creation).isSome = true := by
  have hold : ¬ (version = 2 ∨ version = 3) := by
    rcases hversion with rfl | rfl <;> decide
  have hsize : sizeSub p.length 4 = (p.data.drop 4).length := by
    unfold sizeSub
    rw [if_pos hlen, List.length_drop]
    rfl
  obtain ⟨⟨length, r⟩, hparse, hle⟩ := parseSubpackets_isSome hsize.le (keyid.map fun _ => 0) creation
  unfold sigInfo
  simp only [hfirst, hold, hversion, hparse, Option.bind_eq_bind, Option.bind_some, if_false, if_true]
  by_cases hok : r.status = .ok
  · have hle' : length ≤ sizeSub p.length 4 := hle hok
    have hbehind : 4 + length ≤ p.length := by
      rw [hsize, List.length_drop] at hle'
      unfold Packet.length at hlen ⊢
      omega
    have hsize' : sizeSub p.length (4 + length) = (p.data.drop (length + 4)).length := by
      unfold sizeSub
      rw [if_pos hbehind, List.length_drop, Nat.add_comm 4]
      rfl
    obtain ⟨⟨length', r'⟩, hparse', -⟩ := parseSubpackets_isSome hsize'.le r.keyid none
    by_cases hzero : r.keyid = some 0
    · rw [hzero] at hparse'
      simp [hok, hzero, hparse']
    · simp [hok, hzero]
  · simp [hok]

/-- **When `sig_info` reads inside the packet.** Whichever of the key id and the creation time are
asked for, all octets read lie inside the packet if and only if it has the octets for its version: 15
for version 2 or 3, four for version 4 or 5, one for any other. -/
theorem sigInfo_inside_iff (p : Packet) : Inside p ↔ SigReadable p := by
  constructor
  · intro hinside
    obtain ⟨version, hfirst⟩ : ∃ version, p.data[0]? = some version := by
      cases hfirst : p.data[0]? with
      | none => exact absurd (hinside none none) (by simp [sigInfo, hfirst])
      | some version => exact ⟨version, rfl⟩
    refine ⟨version, hfirst, fun hold => ?_, fun hnew => ?_⟩
    · have hkeyid := hinside (some 0) none
      simp only [sigInfo, hfirst, Option.bind_eq_bind, Option.bind_some, if_pos hold] at hkeyid
      by_contra hshort
      have hnone : readOctets p.data 7 8 = none := if_neg (by unfold Packet.length at hshort; omega)
      simp [hnone] at hkeyid
    · have hnone := hinside none none
      by_contra hshort
      have hold : ¬ (version = 2 ∨ version = 3) := by
        rcases hnew with rfl | rfl <;> decide
      simp [sigInfo, hfirst, hold, hnew, parseSubpackets_wrapped (not_le.mp hshort)] at hnone
  · rintro ⟨version, hfirst, hold, hnew⟩ keyid creation
    by_cases h23 : version = 2 ∨ version = 3
    · have hlen := hold h23
      unfold Packet.length at hlen
      obtain ⟨octets, hoctets⟩ := @readOctets_of_le p.data 7 8 (by omega)
      obtain ⟨times, htimes⟩ := @readOctets_of_le p.data 3 4 (by omega)
      unfold sigInfo
      simp only [hfirst, Option.bind_eq_bind, Option.bind_some, if_pos h23]
      cases keyid <;> cases creation <;> simp [hoctets, htimes]
    · by_cases h45 : version = 4 ∨ version = 5
      · exact sigInfo_isSome_of_subpackets hfirst h45 (hnew h45) keyid creation
      · simp [sigInfo, hfirst, h23, h45]

/-- A signature of one octet is accepted, and `sig_info` reads behind it. -/
theorem sigInfo_reads_behind :
    ¬ ∀ (past : List Packet → UInt8) (fuel : Nat) (octets : List UInt8) (r : ReadResult (List UInt8)),
      readOpenpgpStream buffer past fuel octets [] 0 = some r → ∀ p ∈ r.packets,
        p.tag = tagSignature → 1 ≤ p.length → Inside p := by
  intro hall
  have hinside : Inside ⟨tagSignature, false, [4]⟩ :=
    hall (fun _ => 0) 2 [0x88, 1, 4] ⟨.ok, [⟨tagSignature, false, [4]⟩], []⟩ rfl _
      (List.mem_singleton_self _) rfl (by decide)
  exact absurd (hinside none none) (by decide)

/-! ## Keys -/

/-- The number of octets of the integer that stands at an offset, by the number of its bits. -/
def mpiOctets (data : List UInt8) (offset : Nat) : Nat :=
  (beNat ((data.drop offset).take 2) + 7) / 8

/-- An integer that stands at an offset lies inside the data. -/
def MpiAt (data : List UInt8) (offset : Nat) : Prop :=
  offset + 2 + mpiOctets data offset ≤ data.length

/-- The octets that `get_fingerprint` and `get_packetid` look at are there: the first one, and for a
key of version 2 or 3 those of its modulus and of its exponent. -/
def KeyReadable (p : Packet) : Prop :=
  ∃ version, p.data[0]? = some version ∧ (version = 2 ∨ version = 3 →
    MpiAt p.data 8 ∧ MpiAt p.data (10 + mpiOctets p.data 8))

/-- `get_fingerprint` and `get_packetid` read inside the packet. -/
def KeyInside (H : Hashes) (p : Packet) : Prop :=
  (getFingerprint H p).isSome = true ∧ (getPacketid H p).isSome = true

/-- An integer is read in two steps: its number of bits, and then its octets. -/
theorem mpiAt_iff {data : List UInt8} {offset : Nat} : MpiAt data offset ↔
    ∃ bits, readOctets data offset 2 = some bits ∧ (beNat bits + 7) >>> 3 = mpiOctets data offset ∧
      ∃ octets, readOctets data (offset + 2) (mpiOctets data offset) = some octets := by
  unfold MpiAt
  constructor
  · intro hfits
    have hbits : offset + 2 ≤ data.length := by omega
    exact ⟨_, if_pos hbits, Nat.shiftRight_eq_div_pow _ 3, _, if_pos hfits⟩
  · rintro ⟨bits, -, -, octets, hoctets⟩
    exact readOctets_isSome_iff.mp (by rw [hoctets]; rfl)

/-- A read of an integer that does not lie inside the data fails. -/
theorem readOctets_of_not_mpiAt {data : List UInt8} {offset : Nat} (h : ¬ MpiAt data offset) :
    readOctets data offset 2 = none ∨
      ∃ bits, readOctets data offset 2 = some bits ∧
        readOctets data (offset + 2) ((beNat bits + 7) >>> 3) = none := by
  by_cases hbits : offset + 2 ≤ data.length
  · refine .inr ⟨_, if_pos hbits, if_neg fun hfits => h ?_⟩
    rw [Nat.shiftRight_eq_div_pow] at hfits
    exact hfits
  · exact .inl (if_neg hbits)

/-- `get_fingerprint` reads the modulus and the exponent of an old key. -/
theorem getFingerprint_old_isSome {H : Hashes} {p : Packet} {version : UInt8}
    (hfirst : p.data[0]? = some version) (hold : version = 2 ∨ version = 3) :
    (getFingerprint H p).isSome = true ↔
      MpiAt p.data 8 ∧ MpiAt p.data (10 + mpiOctets p.data 8) := by
  unfold getFingerprint
  simp only [hfirst, Option.bind_eq_bind, Option.bind_some, if_pos hold]
  by_cases hmod : MpiAt p.data 8
  · obtain ⟨bits, hbits, hmodlen, modulus, hmodulus⟩ := mpiAt_iff.mp hmod
    simp only [hbits, Option.bind_some, hmodlen, hmodulus]
    by_cases hexp : MpiAt p.data (10 + mpiOctets p.data 8)
    · obtain ⟨bits', hbits', hexplen, exponent, hexponent⟩ := mpiAt_iff.mp hexp
      have hplace : 12 + mpiOctets p.data 8 = 10 + mpiOctets p.data 8 + 2 := by omega
      simp only [hbits', Option.bind_some, hexplen, hplace, hexponent]
      exact iff_of_true rfl ⟨hmod, hexp⟩
    · refine iff_of_false ?_ fun h => hexp h.2
      have hplace : 12 + mpiOctets p.data 8 = 10 + mpiOctets p.data 8 + 2 := by omega
      rcases readOctets_of_not_mpiAt hexp with hnone | ⟨bits', hbits', hnone⟩
      · simp [hnone]
      · simp [hbits', hplace, hnone]
  · refine iff_of_false ?_ fun h => hmod h.1
    rcases readOctets_of_not_mpiAt hmod with hnone | ⟨bits, hbits, hnone⟩
    · simp [hnone]
    · simp [hbits, hnone]

/-- Where the fingerprint is computed from octets of the packet, so is the key id. -/
theorem getPacketid_isSome {H : Hashes} {p : Packet} (h : (getFingerprint H p).isSome = true) :
    (getPacketid H p).isSome = true := by
  cases hfirst : p.data[0]? with
  | none => exact absurd h (by simp [getFingerprint, hfirst])
  | some version =>
    by_cases hold : version = 2 ∨ version = 3
    · obtain ⟨hmod, hexp⟩ := (getFingerprint_old_isSome hfirst hold).mp h
      obtain ⟨bits, hbits, hmodlen, -⟩ := mpiAt_iff.mp hmod
      unfold MpiAt at hmod hexp
      obtain ⟨algo, halgo⟩ := @getElem?_of_lt p.data 7 (by omega)
      -- the key id lies in front of the end of the modulus
      have hplace : (beNat bits + 7) / 8 = mpiOctets p.data 8 :=
        (Nat.shiftRight_eq_div_pow _ 3).symm.trans hmodlen
      obtain ⟨octets, hoctets⟩ := @readOctets_of_le p.data (mpiOctets p.data 8 + 2) 8 (by omega)
      unfold getPacketid
      simp only [hfirst, halgo, hbits, hplace, hoctets, Option.bind_eq_bind, Option.bind_some,
        if_pos hold]
      split_ifs <;> rfl
    · by_cases h4 : version = 4
      · simp [getFingerprint, getPacketid, hfirst, h4]
      · by_cases h5 : version = 5
        · simp [getFingerprint, getPacketid, hfirst, h5]
        · simp [getPacketid, hfirst, hold, h4, h5]

/-- **When the fingerprint and the key id are computed from octets of the packet.** `get_fingerprint`
and `get_packetid` read inside a public key or subkey packet if and only if it is not empty and, for
version 2 or 3, holds the two integers of an RSA key. -/
theorem keyInside_iff (H : Hashes) (p : Packet) : KeyInside H p ↔ KeyReadable p := by
  cases hfirst : p.data[0]? with
  | none =>
    refine iff_of_false (fun h => ?_) ?_
    · exact absurd h.1 (by simp [getFingerprint, hfirst])
    · rintro ⟨version, hversion, -⟩
      exact absurd (hfirst.symm.trans hversion) (by simp)
  | some version =>
    have hreadable : KeyReadable p ↔ (version = 2 ∨ version = 3 →
        MpiAt p.data 8 ∧ MpiAt p.data (10 + mpiOctets p.data 8)) := by
      unfold KeyReadable
      rw [hfirst]
      simp
    rw [hreadable]
    have hinside : KeyInside H p ↔ (getFingerprint H p).isSome = true :=
      and_iff_left_of_imp getPacketid_isSome
    rw [hinside]
    by_cases hold : version = 2 ∨ version = 3
    · rw [getFingerprint_old_isSome hfirst hold, imp_iff_right hold]
    · refine iff_of_true ?_ fun h => absurd h hold
      by_cases h4 : version = 4
      · simp [getFingerprint, hfirst, h4]
      · by_cases h5 : version = 5
        · simp [getFingerprint, hfirst, h5]
        · simp [getFingerprint, hfirst, hold, h4, h5]

/-- A key of version 3 with nothing else is accepted and parsed, and its fingerprint is computed from
what lies behind it. -/
theorem keyInside_short_key :
    ¬ ∀ (H : Hashes) (past : List Packet → UInt8) (past' : List PublicKey → Nat → UInt8) (fuel : Nat)
      (octets : List UInt8) (r : ReadResult (List UInt8)),
      readOpenpgpStream buffer past fuel octets [] 0 = some r →
      ∀ k ∈ (parseKeys past' r.packets []).keys,
        KeyInside H k.publickey ∧ ∀ sp ∈ k.subkeys, KeyInside H sp.packet := by
  intro hall
  have hinside := (hall ⟨id, id, id⟩ (fun _ => 0) (fun _ _ => 0) 2 [0x98, 1, 3]
    ⟨.ok, [⟨tagPublickey, false, [3]⟩], []⟩ rfl ⟨⟨tagPublickey, false, [3]⟩, false, [], [], []⟩
    (List.mem_singleton_self _)).1
  exact absurd hinside.1 (by decide)

end Onak
