import Onak.Lib.PrefixCode
import Onak.ParseKey

/-!
# Packets as octets

Which octets stand for a packet: what `read_openpgp_stream` is for, and what every reader of packets
should agree on. A length may be written in more than one way.
-/

namespace Onak

/-- The octets of a length in a new format header: one below 192, two from 192 to 223 on, or 255
with four octets behind it. Partial lengths are not supported. -/
inductive NewLength : Nat → List UInt8 → Prop
  | one {c : UInt8} : c < 192 → NewLength c.toNat [c]
  | two {c d : UInt8} :
      192 ≤ c → c < 224 → NewLength ((c.toNat - 192) * 256 + d.toNat + 192) [c, d]
  | five {octets : List UInt8} : octets.length = 4 → NewLength (beNat octets) (255 :: octets)

/-- The number of length octets for each length type of the old format. -/
def lengthOctets (type : UInt8) : Nat := if type = 0 then 1 else if type = 1 then 2 else 4

/-- The octets of a length in an old format header. Indeterminate lengths are not supported. -/
inductive OldLength (type : UInt8) : Nat → List UInt8 → Prop
  | intro {octets : List UInt8} :
      type ≠ 3 → octets.length = lengthOctets type → OldLength type (beNat octets) octets

/-- The octets of a packet, in one of the formats that `read_openpgp_stream` supports. -/
inductive Framed : Packet → List UInt8 → Prop
  | new {c : UInt8} {octets data : List UInt8} :
      c &&& 0x80 ≠ 0 → c &&& 0x40 ≠ 0 → NewLength data.length octets →
      Framed ⟨(c &&& 0x3F).toNat, true, data⟩ (c :: (octets ++ data))
  | old {c : UInt8} {octets data : List UInt8} :
      c &&& 0x80 ≠ 0 → c &&& 0x40 = 0 → OldLength (c &&& 3) data.length octets →
      Framed ⟨((c &&& 0x3C) >>> 2).toNat, false, data⟩ (c :: (octets ++ data))

/-- The version check of `read_openpgp_stream`; an empty packet is judged by `past`. -/
def Packet.Sane (past : UInt8) (p : Packet) : Prop :=
  versionSane p.tag (p.data.head?.getD past) = true

/-! ## What there is to be read -/

/-- The number of keys among some packets. -/
def numKeys (packets : List Packet) : Nat := packets.countP fun p => p.tag = tagPublickey

/-- Whether more is to be read behind some packets. -/
def Below (maxnum : Int) (packets : List Packet) : Prop := maxnum = 0 ∨ numKeys packets < maxnum

/-- Behind the packets `before`, the octets hold the packets `ps` that are complete and pass the
version check, up to the limit, the end, or the first place where there is no such packet; the last
argument is what is left. -/
inductive Decodes (past : List Packet → UInt8) (maxnum : Int) :
    List Packet → List UInt8 → List Packet → List UInt8 → Prop
  | limit {before : List Packet} {octets : List UInt8} :
      ¬ Below maxnum before → Decodes past maxnum before octets [] octets
  | done {before : List Packet} : Below maxnum before → Decodes past maxnum before [] [] []
  | fail {before : List Packet} {octets : List UInt8} :
      Below maxnum before → octets ≠ [] →
      (∀ p l t, octets = l ++ t → Framed p l → ¬ p.Sane (past before)) →
      Decodes past maxnum before octets [] octets
  | packet {before : List Packet} {p : Packet} {l octets : List UInt8} {ps : List Packet}
      {rest : List UInt8} :
      Below maxnum before → Framed p l → p.Sane (past before) →
      Decodes past maxnum (before ++ [p]) octets ps rest →
      Decodes past maxnum before (l ++ octets) (p :: ps) rest

end Onak
