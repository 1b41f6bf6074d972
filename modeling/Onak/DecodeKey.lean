import Onak.KeyId

/-!
# Signature subpackets

`parse_subpackets` and `sig_info` of `decodekey.c`. The output parameters `keyid` and `creation` are
threaded through: `none` is a `NULL` pointer, `some v` is a variable that holds `v` before (and
possibly still after) the call. As in `Onak.KeyId`, a read outside the packet gives `none`.
-/

namespace Onak

/-- What a call leaves in its output parameters, with its status. -/
structure SigInfo where
  /-- The returned status. -/
  status : Status
  /-- The issuer's key id. -/
  keyid : Option UInt64
  /-- The signature creation time. -/
  creation : Option Int
deriving DecidableEq

/-- The length header of the subpacket at `offset`: its length and the offset behind the header, or
`some none` for a five octet header that runs over the end of the area. -/
def subpacketLen (data : List UInt8) (length offset : Nat) : Option (Option (Nat × Nat)) := do
  let first ← data[offset]?
  if 191 < first ∧ first < 255 then
    let second ← data[offset + 1]?
    return some (((first.toNat - 192) <<< 8) + second.toNat + 192, offset + 2)
  else if first = 255 then
    if offset + 6 > length then
      return none
    let octets ← readOctets data (offset + 1) 4
    return some (beNat octets, offset + 5)
  else
    return some (first.toNat, offset + 1)

/-- The subpacket types that are known but carry nothing we look at. -/
def ignoredSubpackets : List UInt8 :=
  [3, 4, 5, 6, 7, 8, 9, 10, 11, 12, 17, 18, 19, 20, 21, 22, 23, 24, 25, 26, 27, 28, 29, 30, 31, 32]

/-- The `switch` on the type of the subpacket of `packetlen` octets at `offset`. -/
def subpacketBody (data : List UInt8) (offset packetlen : Nat) (keyid : Option UInt64)
    (creation : Option Int) : Option SigInfo := do
  let type ← data[offset]?
  if type &&& 0x7F = 2 then
    if packetlen < 5 then
      return ⟨.invalidPkt, keyid, creation⟩
    if creation.isNone then
      return ⟨.ok, keyid, none⟩
    let octets ← readOctets data (offset + packetlen - 4) 4
    return ⟨.ok, keyid, some (beNat octets)⟩
  else if type &&& 0x7F = 16 then
    if packetlen < 9 then
      return ⟨.invalidPkt, keyid, creation⟩
    if keyid.isNone then
      return ⟨.ok, none, creation⟩
    let octets ← readOctets data (offset + packetlen - 8) 8
    return ⟨.ok, some (UInt64.ofNat (beNat octets)), creation⟩
  else if type &&& 0x7F = 33 then
    -- `packetlen - 2` is unsigned: a one octet subpacket wraps around and is skipped
    if packetlen < 2 ∨ maxFingerprintLen < packetlen - 2 ∨ keyid.isNone then
      return ⟨.ok, keyid, creation⟩
    let fp ← readOctets data (offset + 2) (packetlen - 2)
    return ⟨.ok, some (fingerprint2keyid fp), creation⟩
  else if type &&& 0x7F ∈ ignoredSubpackets then
    return ⟨.ok, keyid, creation⟩
  else if type &&& 0x80 ≠ 0 then
    return ⟨.unsupportedFeature, keyid, creation⟩
  else
    return ⟨.ok, keyid, creation⟩

/-- The loop of `parse_subpackets`. Each round advances by at least two octets, so `length` rounds
are enough. -/
def subpacketLoop (data : List UInt8) (length : Nat) :
    Nat → Nat → Option UInt64 → Option Int → Option SigInfo
  | 0, _, keyid, creation => some ⟨.ok, keyid, creation⟩
  | fuel + 1, offset, keyid, creation => do
    if length ≤ offset + 2 then
      return ⟨.ok, keyid, creation⟩
    match ← subpacketLen data length offset with
    | none => return ⟨.invalidPkt, keyid, creation⟩
    | some (packetlen, offset) =>
      if packetlen = 0 ∨ length - offset < packetlen then
        return ⟨.invalidPkt, keyid, creation⟩
      let r ← subpacketBody data offset packetlen keyid creation
      if r.status ≠ .ok then
        return r
      subpacketLoop data length fuel (offset + packetlen) r.keyid r.creation

/-- `parse_subpackets` on the octets `data`, of which the caller says `len` are there: the parsed
length and the outputs. -/
def parseSubpackets (data : List UInt8) (len : Nat) (keyid : Option UInt64)
    (creation : Option Int) : Option (Nat × SigInfo) := do
  if len < 4 then
    return (0, ⟨.invalidPkt, keyid, creation⟩)
  let length := beNat (← readOctets data 0 2) + 2
  if len < length then
    return (0, ⟨.invalidPkt, keyid, creation⟩)
  let r ← subpacketLoop data length length 2 keyid creation
  return (length, r)

/-- `sig_info`. Versions other than 2 to 5 leave both outputs as they were. -/
def sigInfo (p : Packet) (keyid : Option UInt64) (creation : Option Int) : Option SigInfo := do
  let version ← p.data[0]?
  if version = 2 ∨ version = 3 then
    let keyid ← if keyid.isNone then pure none else
      (readOctets p.data 7 8).map fun octets => some (UInt64.ofNat (beNat octets))
    let creation ← if creation.isNone then pure none else
      (readOctets p.data 3 4).map fun octets => some (beNat octets : Int)
    return ⟨.ok, keyid, creation⟩
  else if version = 4 ∨ version = 5 then
    let (length, r) ← parseSubpackets (p.data.drop 4) (sizeSub p.length 4)
      (keyid.map fun _ => 0) creation
    if r.status ≠ .ok then
      return r
    -- the unhashed subpackets are looked at only for a key id that the hashed ones did not give
    if r.keyid = some 0 then
      let (_, r') ← parseSubpackets (p.data.drop (length + 4)) (sizeSub p.length (4 + length))
        r.keyid none
      return ⟨r'.status, r'.keyid, r.creation⟩
    return r
  else
    return ⟨.ok, keyid, creation⟩

/-- `sig_keyid`: the issuer of a signature; zero (no issuer) when it lies outside the packet. -/
def sigKeyid (packet : Packet) : UInt64 := ((sigInfo packet (some 0) none).bind SigInfo.keyid).getD 0

/-- What the variables handed to `sig_info` hold before the call, for a packet with the given data.
The callers in `merge.c` do not initialise them, so this is arbitrary. -/
structure Stale where
  /-- The key id variable. -/
  keyid : List UInt8 → UInt64
  /-- The creation time variable. -/
  creation : List UInt8 → Int

/-- The issuer that `sig_info(p, &keyid, NULL)` leaves in the caller's variable; zero (no issuer)
when it lies outside the packet. -/
def issuer (g : Stale) (p : Packet) : UInt64 :=
  ((sigInfo p (some (g.keyid p.data)) none).bind SigInfo.keyid).getD 0

/-- The creation time that `sig_info(p, NULL, &creation)` leaves in the caller's variable; zero when
it lies outside the packet. -/
def created (g : Stale) (p : Packet) : Int :=
  ((sigInfo p none (some (g.creation p.data))).bind SigInfo.creation).getD 0

end Onak
