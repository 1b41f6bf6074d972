import Mathlib

/-!
# OpenPGP packets and keys

The data model of `keystructs.h`, with the constants of `openpgp.h` and the status codes of
`onak.h`. A `struct openpgp_packet` holds a length and a pointer to that many octets; here the
octets are a list, so the length is the length of the list. The singly linked lists with their tail
pointers (`sigs`/`last_sig`, `uids`/`last_uid`, `subkeys`/`last_subkey`) are lists, the tail pointer
being the last element.
-/

namespace Onak

/-- The status codes of `onak.h`. -/
inductive Status where
  | ok
  | nomem
  | notFound
  | invalidParam
  | invalidPkt
  | unknownVer
  | unsupportedFeature
  | badSignature
  | weakSignature
  | ioError
deriving DecidableEq

/-- The numeric value of a status code, for the functions that return it as an `int`. -/
def Status.toInt : Status → Int
  | .ok => 0
  | .nomem => 1
  | .notFound => 2
  | .invalidParam => 3
  | .invalidPkt => 4
  | .unknownVer => 5
  | .unsupportedFeature => 6
  | .badSignature => 7
  | .weakSignature => 8
  | .ioError => 9

/-! ## Packet tags and signature types -/

@[match_pattern] abbrev tagPksessionkey : Nat := 1
@[match_pattern] abbrev tagSignature : Nat := 2
@[match_pattern] abbrev tagSymsessionkey : Nat := 3
@[match_pattern] abbrev tagOnepasssig : Nat := 4
@[match_pattern] abbrev tagSecretkey : Nat := 5
@[match_pattern] abbrev tagPublickey : Nat := 6
@[match_pattern] abbrev tagUid : Nat := 13
@[match_pattern] abbrev tagPublicsubkey : Nat := 14
@[match_pattern] abbrev tagUat : Nat := 17
@[match_pattern] abbrev tagEncryptedMdc : Nat := 18

abbrev sigtypeKeyRev : UInt8 := 0x20
abbrev sigtypeSubkeyRev : UInt8 := 0x28
abbrev sigtypeCertRev : UInt8 := 0x30

/-! ## Structures -/

/-- A fingerprint: 16 octets for v3, 20 for v4, 32 for v5, none when it could not be computed. -/
abbrev Fingerprint := List UInt8

/-- The most octets a `struct openpgp_fingerprint` can hold. -/
abbrev maxFingerprintLen : Nat := 32

/-- An OpenPGP packet. -/
structure Packet where
  /-- The packet tag. -/
  tag : Nat
  /-- Whether the header is written in the new format. -/
  newformat : Bool
  /-- The packet data. -/
  data : List UInt8
deriving DecidableEq

/-- The length field of a packet. -/
def Packet.length (p : Packet) : Nat := p.data.length

/-- A packet (a user id or a subkey) with the signatures over it. -/
structure SignedPacket where
  /-- The packet that is signed. -/
  packet : Packet
  /-- The signatures over it. -/
  sigs : List Packet
deriving DecidableEq

/-- A public key with its signatures, user ids and subkeys. -/
structure PublicKey where
  /-- The public key packet. -/
  publickey : Packet
  /-- Whether the key is revoked. -/
  revoked : Bool
  /-- The signatures directly on the public key packet. -/
  sigs : List Packet
  /-- The user ids and user attributes. -/
  uids : List SignedPacket
  /-- The subkeys. -/
  subkeys : List SignedPacket
deriving DecidableEq

/-! ## Octet strings -/

/-- The value of a big-endian octet string. -/
def beNat (l : List UInt8) : Nat := l.foldl (fun n b => n * 256 + b.toNat) 0

/-- The `n` octets of `data` from `offset` on; `none` when they do not all lie inside it. -/
def readOctets (data : List UInt8) (offset n : Nat) : Option (List UInt8) :=
  if offset + n ≤ data.length then some ((data.drop offset).take n) else none

/-- Subtraction on `size_t`: it wraps around below zero. -/
def sizeSub (a b : Nat) : Nat := if b ≤ a then a - b else 2 ^ 64 + a - b

end Onak
