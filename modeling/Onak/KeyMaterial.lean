import Onak.KeydSocket
import Onak.SigCheck

/-!
# Public key packets

What a public key packet of version 4 or 5 is for: numbers, written in the format of OpenPGP. Each
number that has no fixed size is written as an integer with the number of its bits in front. This is
the purpose of `onak_parse_key_material` and not translated from the source; where an integer runs past
the end of a packet is read off the same format.
-/

namespace Onak

open Socket

/-! ## Integers -/

/-- A number whose bits can be counted in two octets. -/
abbrev Mpi := { n : Nat // n.size < 2 ^ 16 }

/-- A number in the format of OpenPGP: the number of its bits, and its octets. -/
def Mpi.octets (n : Mpi) : List UInt8 := bigOctets 2 n.val.size ++ mpzExport n

/-- The number of octets of an integer, by the number of bits in front of it. -/
def mpiLength (octets : List UInt8) : Nat := 2 + (beNat (octets.take 2) + 7) / 8

/-- One of the next `count` integers runs past the end. -/
def MpisPastEnd : Nat → List UInt8 → Prop
  | 0, _ => False
  | count + 1, octets =>
    octets.length < 2 ∨ octets.length < mpiLength octets ∨
      MpisPastEnd count (octets.drop (mpiLength octets))

/-- One of the integers of a key packet runs past its end. For a point, the integer stands behind the
object id of its curve. -/
def Packet.MpiPastEnd (pk : Packet) : Prop :=
  let ofs := if pk.data[0]? = some 4 then 6 else 10
  match pk.data[5]? with
  | none => False
  | some type =>
    if type = pkalgoEcdsa ∨ type = pkalgoEddsa then
      MpisPastEnd 1 (pk.data.drop (ofs + ((pk.data[ofs]?.getD 0).toNat + 1)))
    else if type = pkalgoDsa then
      MpisPastEnd 4 (pk.data.drop ofs)
    else if type = pkalgoRsa ∨ type = pkalgoRsaEnc ∨ type = pkalgoRsaSign then
      MpisPastEnd 2 (pk.data.drop ofs)
    else
      False

/-! ## Keys -/

/-- The NIST curves. -/
inductive NistCurve where
  | p256
  | p384
  | p521
deriving DecidableEq

/-- The object id of a curve. -/
def NistCurve.oid : NistCurve → Oid
  | .p256 => .nistp256
  | .p384 => .nistp384
  | .p521 => .nistp521

/-- The octets of the object id, with their number in front. -/
def NistCurve.oidOctets : NistCurve → List UInt8
  | .p256 => [8, 0x2A, 0x86, 0x48, 0xCE, 0x3D, 0x03, 0x01, 0x07]
  | .p384 => [5, 0x2B, 0x81, 0x04, 0x00, 0x22]
  | .p521 => [5, 0x2B, 0x81, 0x04, 0x00, 0x23]

/-- The number of octets of a coordinate. -/
def NistCurve.width : NistCurve → Nat
  | .p256 => 32
  | .p384 => 48
  | .p521 => 66

/-- The object id of Ed25519, with the number of its octets in front. -/
def ed25519Oid : List UInt8 := [9, 0x2B, 0x06, 0x01, 0x04, 0x01, 0xDA, 0x47, 0x0F, 0x01]

/-- The numbers of a public key. -/
inductive KeyNumbers where
  | rsa (n e : Mpi)
  | dsa (p q g y : Mpi)
  | ecdsa (curve : NistCurve) (x y : Fin (256 ^ curve.width))
  | ed25519 (point : { octets : List UInt8 // octets.length = 32 })

/-- The types of key that have such numbers. -/
def KeyNumbers.types : KeyNumbers → List UInt8
  | .rsa _ _ => [pkalgoRsa, pkalgoRsaEnc, pkalgoRsaSign]
  | .dsa _ _ _ _ => [pkalgoDsa]
  | .ecdsa _ _ _ => [pkalgoEcdsa]
  | .ed25519 _ => [pkalgoEddsa]

/-- The numbers as they are written. An uncompressed point is an integer of a 4 and two coordinates, a
point of Ed25519 one of a 0x40 and its octets. -/
def KeyNumbers.octets : KeyNumbers → List UInt8
  | .rsa n e => n.octets ++ e.octets
  | .dsa p q g y => p.octets ++ q.octets ++ g.octets ++ y.octets
  | .ecdsa curve x y =>
    curve.oidOctets ++ (bigOctets 2 (3 + 8 * (curve.width + curve.width)) ++ [4] ++
      bigOctets curve.width x ++ bigOctets curve.width y)
  | .ed25519 point => ed25519Oid ++ (bigOctets 2 263 ++ [0x40] ++ point.val)

/-- What is to be parsed from them. The size of an RSA key is the number of octets of `n`. -/
def KeyNumbers.material : KeyNumbers → KeyMaterial
  | .rsa n e => .rsa (mpzExport n).length n e
  | .dsa p q g y => .dsa p q g y
  | .ecdsa curve x y => .ecdsa curve.oid x y
  | .ed25519 point => .ed25519 point

/-- A public key of version 4 or 5. -/
structure KeyContents where
  /-- Whether the version is 5. -/
  version5 : Bool
  /-- The creation time. -/
  created : { octets : List UInt8 // octets.length = 4 }
  /-- The numbers. -/
  numbers : KeyNumbers
  /-- The type. -/
  type : UInt8
  type_mem : type ∈ numbers.types

/-- The octets in front of the numbers. In version 5 the number of octets of these is written, too. -/
def KeyContents.header (key : KeyContents) : List UInt8 :=
  if key.version5 then 5 :: (key.created ++ key.type :: bigOctets 4 key.numbers.octets.length)
  else 4 :: (key.created ++ [key.type])

/-- The packet of a public key. -/
def KeyContents.packet (key : KeyContents) : Packet :=
  ⟨tagPublickey, false, key.header ++ key.numbers.octets⟩

end Onak
