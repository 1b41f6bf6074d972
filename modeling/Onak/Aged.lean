import Onak.DecodeKey

/-!
# The age of a key

`find_keyexpiry_in_sig` of `aged.c`. It walks over the hashed subpackets of a signature with a loop of
its own. As in `Onak.DecodeKey`, a read outside the packet gives `none`.
-/

namespace Onak

/-- The length header of the subpacket at `offset`: its length and the offset behind the header, or
`some none` for a five octet header that runs over the end of the area. Unlike in `parse_subpackets`
the header may end where the area ends. -/
def keyexpiryLen (data : List UInt8) (subLen offset : Nat) : Option (Option (Nat × Nat)) := do
  let first ← data[offset]?
  if 191 < first ∧ first < 255 then
    let second ← data[offset + 1]?
    return some (((first.toNat - 192) <<< 8) + second.toNat + 192, offset + 2)
  else if first = 255 then
    if offset + 1 + 4 > subLen then
      return none
    let octets ← readOctets data (offset + 1) 4
    return some (beNat octets, offset + 5)
  else
    return some (first.toNat, offset + 1)

/-- The loop of `find_keyexpiry_in_sig`. Each round advances by at least two octets. -/
def keyexpiryLoop (data : List UInt8) (subLen : Nat) : Nat → Nat → Option Nat
  | 0, _ => some 0
  | fuel + 1, offset => do
    if ¬ offset + 2 < subLen then
      return 0
    match ← keyexpiryLen data subLen offset with
    | none => return 0
    | some (packetLen, offset) =>
      if packetLen = 0 ∨ subLen - offset < packetLen then
        return 0
      let type ← data[offset]?
      if type &&& 0x7F = 9 ∧ 5 ≤ packetLen then
        return beNat (← readOctets data (offset + 1) 4)
      keyexpiryLoop data subLen fuel (offset + packetLen)

/-- `find_keyexpiry_in_sig`: the time after its creation at which the key expires, 0 if there is
none. -/
def findKeyexpiryInSig (sig : Packet) : Option Nat := do
  if sig.length < 6 then
    return 0
  let version ← sig.data[0]?
  if version ≠ 4 ∧ version ≠ 5 then
    return 0
  let data := sig.data.drop 4
  let dataLen := sig.length - 4
  if dataLen < 2 then
    return 0
  let subLen := beNat (← readOctets data 0 2) + 2
  if dataLen < subLen then
    return 0
  keyexpiryLoop data subLen subLen 2

end Onak
