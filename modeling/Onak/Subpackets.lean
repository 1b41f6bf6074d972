import Onak.Aged
import Onak.CleanKey

/-!
# What subpackets stand for

A subpacket is a type octet and a body. A subpacket area is a list of subpackets, each behind its
length, which is written in one, two or five octets. What a list of subpackets says about a signature
does not depend on how it is encoded.
-/

namespace Onak

/-- A signature subpacket. -/
structure Subpacket where
  /-- The type octet, with the critical bit. -/
  type : UInt8
  /-- The octets behind the type octet. -/
  body : List UInt8
deriving DecidableEq

namespace Subpacket

/-- The type without the critical bit. -/
def kind (sp : Subpacket) : UInt8 := sp.type &&& 0x7F

/-- The types that `parse_subpackets` knows. -/
def knownKinds : List UInt8 := 2 :: 16 :: 33 :: ignoredSubpackets

/-- A subpacket that `parse_subpackets` rejects: an issuer or a creation time that is too short, or one
of an unknown type with the critical bit. -/
def Refused (sp : Subpacket) : Prop :=
  sp.kind = 16 ∧ sp.body.length < 8 ∨ sp.kind = 2 ∧ sp.body.length < 4 ∨
    sp.kind ∉ knownKinds ∧ sp.type &&& 0x80 ≠ 0

/-- The last octets of the body. -/
def lastOctets (sp : Subpacket) (n : Nat) : List UInt8 := sp.body.drop (sp.body.length - n)

/-- The creation time that a subpacket gives. -/
def creation? (sp : Subpacket) : Option Int :=
  if sp.kind = 2 then some (beNat (sp.lastOctets 4)) else none

/-- The key id that a subpacket gives: of an issuer, or of an issuer fingerprint that fits. In front of
the fingerprint is an octet for the version of the key. -/
def keyid? (sp : Subpacket) : Option UInt64 :=
  if sp.kind = 16 then
    some (UInt64.ofNat (beNat (sp.lastOctets 8)))
  else if sp.kind = 33 ∧ 1 ≤ sp.body.length ∧ sp.body.length ≤ 1 + maxFingerprintLen then
    some (fingerprint2keyid (sp.body.drop 1))
  else
    none

/-- A time after which the key expires, with all of its octets. -/
def isKeyexpiry (sp : Subpacket) : Bool := sp.kind = 9 ∧ 4 ≤ sp.body.length

/-- A flag for the primary user id that is set. -/
def isPrimary (sp : Subpacket) : Bool := sp.kind = 25 ∧ sp.body.head?.any (· ≠ 0)

end Subpacket

/-- The first time after which the key expires, 0 if there is none. -/
def keyexpiryOf (sps : List Subpacket) : Nat :=
  ((sps.find? Subpacket.isKeyexpiry).map fun sp => beNat (sp.body.take 4)).getD 0

/-- The last value that a list of subpackets gives, else the one from before. -/
def lastGiven {α : Type} (value? : Subpacket → Option α) (sps : List Subpacket) (before : α) : α :=
  (sps.filterMap value?).getLast?.getD before

/-! ## Subpackets in an area -/

/-- The subpackets from `offset` on that the loop of `parse_subpackets` comes to as long as it rejects
none. -/
def visitLoop (data : List UInt8) (length : Nat) : Nat → Nat → List Subpacket
  | 0, _ => []
  | fuel + 1, offset =>
    if length ≤ offset + 2 then
      []
    else
      match subpacketLen data length offset with
      | some (some (packetlen, offset)) =>
        if packetlen = 0 ∨ length - offset < packetlen then
          []
        else
          ⟨data[offset]?.getD 0, (data.drop (offset + 1)).take (packetlen - 1)⟩ ::
            visitLoop data length fuel (offset + packetlen)
      | _ => []

/-- The subpackets that `parse_subpackets` comes to in an area that starts with its length. -/
def visited (data : List UInt8) : List Subpacket :=
  let length := beNat (data.take 2) + 2
  visitLoop data length length 2

/-! ## Encoding -/

/-- The ways to write the length of a subpacket. -/
inductive LengthForm where
  | oneOctet
  | twoOctets
  | fiveOctets

/-- Whether a length can be written in a form. -/
def LengthForm.Represents : LengthForm → Nat → Prop
  | .oneOctet, n => n < 192
  | .twoOctets, n => 192 ≤ n ∧ n < 16320
  | .fiveOctets, n => n < 2 ^ 32

/-- A length in a form that can represent it. -/
def LengthForm.octets : LengthForm → Nat → List UInt8
  | .oneOctet, n => [UInt8.ofNat n]
  | .twoOctets, n => [UInt8.ofNat ((n - 192) / 256 + 192), UInt8.ofNat ((n - 192) % 256)]
  | .fiveOctets, n =>
    [255, UInt8.ofNat (n / 2 ^ 24), UInt8.ofNat (n / 2 ^ 16), UInt8.ofNat (n / 2 ^ 8), UInt8.ofNat n]

/-- A subpacket with at least one octet in its body, and a form for its length. -/
structure EncodedSubpacket where
  /-- The subpacket. -/
  subpacket : Subpacket
  /-- The form of its length. -/
  form : LengthForm
  body_ne : subpacket.body ≠ []
  represents : form.Represents (subpacket.body.length + 1)

/-- The octets of an encoded subpacket. -/
def EncodedSubpacket.octets (e : EncodedSubpacket) : List UInt8 :=
  e.form.octets (e.subpacket.body.length + 1) ++ e.subpacket.type :: e.subpacket.body

/-- The octets of some encoded subpackets. -/
def areaOctets (l : List EncodedSubpacket) : List UInt8 := l.flatMap EncodedSubpacket.octets

/-- A subpacket area: two octets of length and the subpackets. -/
def encodeArea (l : List EncodedSubpacket) : List UInt8 :=
  let total := (areaOctets l).length
  UInt8.ofNat (total / 256) :: UInt8.ofNat total :: areaOctets l

end Onak
