import Onak.KeyStructs

/-!
# Key ids and fingerprints

`fingerprint2keyid`, `get_fingerprint`, `get_packetid` and `get_keyid` of `keyid.c`, as built with
nettle (`HAVE_NETTLE`; the build never defines `NETTLE_WITH_RIPEMD160`). The digests come from
nettle and are parameters. A function that would read outside its packet returns `none`.
-/

namespace Onak

/-- The digests that nettle provides. -/
structure Hashes where
  /-- MD5, for the fingerprint of v2 and v3 keys. -/
  md5 : List UInt8 → List UInt8
  /-- SHA-1, for the fingerprint of v4 keys. -/
  sha1 : List UInt8 → List UInt8
  /-- SHA2-256, for the fingerprint of v5 keys. -/
  sha256 : List UInt8 → List UInt8

/-- `fingerprint2keyid`: the last 64 bits of a v4 fingerprint, the first 64 bits of a v5 one. -/
def fingerprint2keyid (fp : Fingerprint) : UInt64 :=
  if fp.length = 20 then
    UInt64.ofNat (beNat ((fp.drop 12).take 8))
  else if fp.length = 32 then
    UInt64.ofNat (beNat (fp.take 8))
  else
    UInt64.ofNat (2 ^ 64 - 1)

/-- The octets hashed for a v4 fingerprint: `0x99`, two octets of length, the packet. -/
def sha1Preimage (p : Packet) : List UInt8 :=
  [0x99, UInt8.ofNat (p.length >>> 8), UInt8.ofNat (p.length &&& 0xFF)] ++ p.data

/-- The octets hashed for a v5 fingerprint: `0x9A`, four octets of length, the packet. -/
def sha256Preimage (p : Packet) : List UInt8 :=
  [0x9A, UInt8.ofNat (p.length >>> 24), UInt8.ofNat (p.length >>> 16),
    UInt8.ofNat (p.length >>> 8), UInt8.ofNat (p.length &&& 0xFF)] ++ p.data

variable (H : Hashes)

/-- `get_fingerprint`: the status and the fingerprint, which stays empty for an unknown version. -/
def getFingerprint (p : Packet) : Option (Status × Fingerprint) := do
  let version ← p.data[0]?
  if version = 2 ∨ version = 3 then
    -- MD5 the modulus and the exponent, each an MPI with its bit count in front
    let modlen := (beNat (← readOctets p.data 8 2) + 7) >>> 3
    let modulus ← readOctets p.data 10 modlen
    let explen := (beNat (← readOctets p.data (10 + modlen) 2) + 7) >>> 3
    let exponent ← readOctets p.data (12 + modlen) explen
    return (.ok, H.md5 (modulus ++ exponent))
  else if version = 4 then
    return (.ok, H.sha1 (sha1Preimage p))
  else if version = 5 then
    return (.ok, H.sha256 (sha256Preimage p))
  else
    return (.unknownVer, [])

/-- `get_packetid`: the status and the 64 bit key id, left at zero when there is none. -/
def getPacketid (p : Packet) : Option (Status × UInt64) := do
  let version ← p.data[0]?
  if version = 2 ∨ version = 3 then
    -- only RSA keys have an id: the last 64 bits of the modulus
    let algo ← p.data[7]?
    if algo < 1 ∨ 3 < algo then
      return (.invalidPkt, 0)
    let offset := (beNat (← readOctets p.data 8 2) + 7) / 8 + 2
    let octets ← readOctets p.data offset 8
    return (.ok, UInt64.ofNat (beNat octets))
  else if version = 4 ∨ version = 5 then
    let (_, fp) ← getFingerprint H p
    return (.ok, fingerprint2keyid fp)
  else
    return (.unknownVer, 0)

/-- The fingerprint of a packet when `get_fingerprint` succeeds. -/
def fingerprint? (p : Packet) : Option Fingerprint :=
  match getFingerprint H p with
  | some (.ok, fp) => some fp
  | _ => none

/-- `get_keyid`: the key id of a public key when `get_packetid` succeeds on its packet. There is none
either when `get_packetid` would read outside of the packet; `KeyNode.keyid` has what it returns then. -/
def getKeyid (k : PublicKey) : Option UInt64 :=
  match getPacketid H k.publickey with
  | some (.ok, keyid) => some keyid
  | _ => none

end Onak
