import Onak.KeyStructs
import Onak.Lib.Source

/-!
# Reading and writing packets

`read_openpgp_stream`, `write_openpgp_stream`, `parse_keys` and `flatten_publickey` of `parsekey.c`.
The character functions are parameters: a source answers a request for some octets with those it
could deliver, a sink takes octets.
-/

namespace Onak

/-! ## Reading -/

section

variable {σ : Type} (getchar : σ → Nat → List UInt8 × σ)

/-- One call of `getchar_func(ctx, 1, &curchar)`. -/
def getOctet (s : σ) : Option UInt8 × σ :=
  let r := getchar s 1
  (r.1.head?, r.2)

/-- Reads `n` more octets of a big-endian length of which `length` is read already. -/
def getLength : Nat → Nat → σ → Option Nat × σ
  | 0, length, s => (some length, s)
  | n + 1, length, s =>
    match getOctet getchar s with
    | (none, s) => (none, s)
    | (some curchar, s) => getLength n ((length <<< 8) + curchar.toNat) s

/-- The length octets of a new format header. -/
def newFormatLength (s : σ) : Except Status Nat × σ :=
  match getOctet getchar s with
  | (none, s) => (.error .invalidPkt, s)
  | (some curchar, s) =>
    if 191 < curchar ∧ curchar < 224 then
      match getOctet getchar s with
      | (none, s) => (.error .ioError, s)
      | (some second, s) => (.ok (((curchar.toNat - 192) <<< 8) + second.toNat + 192), s)
    else if 223 < curchar ∧ curchar < 255 then
      (.error .unsupportedFeature, s)
    else if curchar = 255 then
      match getLength getchar 4 0 s with
      | (none, s) => (.error .invalidPkt, s)
      | (some length, s) => (.ok length, s)
    else
      (.ok curchar.toNat, s)

/-- The length octets of an old format header whose first octet ends in the given length type. -/
def oldFormatLength (type : UInt8) (s : σ) : Except Status Nat × σ :=
  if type = 3 then
    (.error .unsupportedFeature, s)
  else
    let n := if type = 0 then 1 else if type = 1 then 2 else 4
    match getLength getchar n 0 s with
    | (none, s) => (.error .invalidPkt, s)
    | (some length, s) => (.ok length, s)

/-- Whether the version octet of a packet is sane for its tag. -/
def versionSane (tag : Nat) (version : UInt8) : Bool :=
  match tag with
  | tagEncryptedMdc => version == 1
  | tagPksessionkey | tagOnepasssig => version == 3
  | tagSymsessionkey => version == 4
  | tagSignature | tagSecretkey | tagPublickey => 2 ≤ version
  | _ => true

/-- The rest of a packet whose first header octet is `curchar`. The version check looks at the first
octet of the data; for a packet without data it finds there what happens to lie in memory, `past`. -/
def readPacket (past : UInt8) (curchar : UInt8) (s : σ) : Except Status Packet × σ :=
  let newformat := curchar &&& 0x40 ≠ 0
  let tag := if newformat then (curchar &&& 0x3F).toNat else ((curchar &&& 0x3C) >>> 2).toNat
  let r := if newformat then newFormatLength getchar s else oldFormatLength getchar (curchar &&& 3) s
  match r with
  | (.error rc, s) => (.error rc, s)
  | (.ok length, s) =>
    let (data, s) := getchar s length
    if data.length ≠ length then
      (.error .ioError, s)
    else if versionSane tag (data.head?.getD past) then
      (.ok ⟨tag, newformat, data⟩, s)
    else
      (.error .invalidPkt, s)

/-- What `read_openpgp_stream` returns and leaves behind. -/
structure ReadResult (σ : Type) where
  /-- The status. -/
  rc : Status
  /-- The packet list. -/
  packets : List Packet
  /-- The state of the source. -/
  ctx : σ

/-- The loop of `read_openpgp_stream` with its clean-up, for the packets read by this call. A packet
that could not be read is taken off the list again; an octet that starts no packet ends the loop
with the last packet still in place, and takes that one off. -/
def readLoop (past : List Packet → UInt8) (maxnum : Int) :
    Nat → Nat → List Packet → σ → Option (ReadResult σ)
  | 0, _, _, _ => none
  | fuel + 1, keys, packets, s =>
    if ¬ (maxnum = 0 ∨ keys < maxnum) then
      some ⟨.ok, packets, s⟩
    else
      match getOctet getchar s with
      | (none, s) => some ⟨.ok, packets, s⟩
      | (some curchar, s) =>
        if curchar &&& 0x80 = 0 then
          some ⟨.invalidPkt, packets.dropLast, s⟩
        else
          match readPacket getchar (past packets) curchar s with
          | (.error rc, s) => some ⟨rc, packets, s⟩
          | (.ok packet, s) =>
            let keys := if packet.tag = tagPublickey then keys + 1 else keys
            readLoop past maxnum fuel keys (packets ++ [packet]) s

/-- `read_openpgp_stream`, in at most `fuel` rounds. What lies in memory behind a packet without
data may depend on the packets read before it. -/
def readOpenpgpStream (past : List Packet → UInt8) (fuel : Nat) (s : σ) (packets : List Packet)
    (maxnum : Int) : Option (ReadResult σ) :=
  (readLoop getchar past maxnum fuel 0 [] s).map fun r => { r with packets := packets ++ r.packets }

end

/-! ## Writing -/

/-- The header of a new format packet behind its first octet. -/
def newFormatHeader (length : Nat) : Option (List UInt8) :=
  if length < 192 then
    some [UInt8.ofNat length]
  else if length < 8383 then
    some [UInt8.ofNat ((((length - 192) &&& 0xFF00) >>> 8) + 192),
      UInt8.ofNat ((length - 192) &&& 0xFF)]
  else if length < 0xFFFFFFFF then
    some [255, UInt8.ofNat (length >>> 24), UInt8.ofNat (length >>> 16),
      UInt8.ofNat (length >>> 8), UInt8.ofNat length]
  else
    none

/-- The header of an old format packet. -/
def oldFormatHeader (tag length : Nat) : List UInt8 :=
  if length < 256 then
    [UInt8.ofNat (0x80 ||| (tag <<< 2)), UInt8.ofNat length]
  else if length < 0x10000 then
    [UInt8.ofNat (0x80 ||| (tag <<< 2) ||| 1), UInt8.ofNat (length >>> 8),
      UInt8.ofNat (length &&& 0xFF)]
  else
    [UInt8.ofNat (0x80 ||| (tag <<< 2) ||| 2), UInt8.ofNat (length >>> 24),
      UInt8.ofNat ((length >>> 16) &&& 0xFF), UInt8.ofNat ((length >>> 8) &&& 0xFF),
      UInt8.ofNat (length &&& 0xFF)]

/-- `write_openpgp_stream`. A new format packet that is too long is noticed only when its first
octet is written. -/
def writeOpenpgpStream {τ : Type} (putchar : τ → List UInt8 → τ) (t : τ) :
    List Packet → Status × τ
  | [] => (.ok, t)
  | packet :: packets =>
    if packet.newformat then
      let t := putchar t [UInt8.ofNat (0x80 ||| 0x40 ||| packet.tag)]
      match newFormatHeader packet.length with
      | none => (.unsupportedFeature, t)
      | some octets => writeOpenpgpStream putchar (putchar (putchar t octets) packet.data) packets
    else
      let t := putchar t (oldFormatHeader packet.tag packet.length)
      writeOpenpgpStream putchar (putchar t packet.data) packets

/-! ## Parsing -/

/-- The octet of a packet at an offset, `data[i]`; behind the end it is what lies in memory there. -/
def Packet.octetAt (packet : Packet) (past : Nat → UInt8) (i : Nat) : UInt8 :=
  packet.data[i]?.getD (past i)

/-- Whether `parse_keys` takes a direct signature for a revocation of the key. It looks at the first
three octets without a look at the length. -/
def revokesKey (past : Nat → UInt8) (packet : Packet) : Bool :=
  (packet.octetAt past 0 = 3 ∧ packet.octetAt past 2 = sigtypeKeyRev) ∨
    (packet.octetAt past 0 = 4 ∧ packet.octetAt past 1 = sigtypeKeyRev)

/-- `ADD_PACKET_TO_LIST_END` for a signature on the last packet of a list. -/
def addSigToLast (l : List SignedPacket) (packet : Packet) : List SignedPacket :=
  match l.getLast? with
  | none => []
  | some last => l.dropLast ++ [{ last with sigs := last.sigs ++ [packet] }]

/-- Adds a signature to the last subkey, else to the last user id, else to the key itself. -/
def addSignature (past : Nat → UInt8) (key : PublicKey) (packet : Packet) : PublicKey :=
  if key.subkeys ≠ [] then
    { key with subkeys := addSigToLast key.subkeys packet }
  else if key.uids ≠ [] then
    { key with uids := addSigToLast key.uids packet }
  else
    { key with sigs := key.sigs ++ [packet], revoked := key.revoked || revokesKey past packet }

/-- The tags of the packets that `parse_keys` puts on a key. -/
def keyTags : List Nat := [tagSignature, tagPublickey, tagUid, tagPublicsubkey, tagUat]

section

variable (past : List PublicKey → Nat → UInt8)

/-- One round of the loop of `parse_keys`: the key list after the packet, or `none` when it cannot
be placed. What lies in memory behind a packet may depend on what was parsed before. -/
def parsePacket (keys : List PublicKey) (packet : Packet) : Option (List PublicKey) :=
  match packet.tag with
  | tagSignature => do
    let curkey ← keys.getLast?
    return keys.dropLast ++ [addSignature (past keys) curkey packet]
  | tagPublickey => some (keys ++ [⟨packet, false, [], [], []⟩])
  | tagUid | tagUat => do
    let curkey ← keys.getLast?
    if curkey.subkeys ≠ [] then
      none
    else
      return keys.dropLast ++ [{ curkey with uids := curkey.uids ++ [⟨packet, []⟩] }]
  | tagPublicsubkey => do
    let curkey ← keys.getLast?
    return keys.dropLast ++ [{ curkey with subkeys := curkey.subkeys ++ [⟨packet, []⟩] }]
  | _ => some keys

/-- What `parse_keys` returns and leaves behind. -/
structure ParseResult where
  /-- Whether the packet list was processed to its end. -/
  done : Bool
  /-- The key list. -/
  keys : List PublicKey
  /-- The returned value: the number of keys, or `ONAK_E_INVALID_PARAM`. -/
  ret : Int

/-- The loop of `parse_keys`, with the number of keys counted so far. -/
def parseLoop (count : Nat) (keys : List PublicKey) : List Packet → ParseResult
  | [] => ⟨true, keys, count⟩
  | packet :: packets =>
    match parsePacket past keys packet with
    | none => ⟨false, keys, Status.invalidParam.toInt⟩
    | some keys =>
      parseLoop (if packet.tag = tagPublickey then count + 1 else count) keys packets

/-- `parse_keys`. -/
def parseKeys (packets : List Packet) (keys : List PublicKey) : ParseResult :=
  parseLoop past 0 keys packets

end

/-- The packets of a user id or subkey. -/
def flattenSigned (sp : SignedPacket) : List Packet := sp.packet :: sp.sigs

/-- The packets of one key. -/
def flattenKey (key : PublicKey) : List Packet :=
  key.publickey :: key.sigs ++ key.uids.flatMap flattenSigned ++ key.subkeys.flatMap flattenSigned

/-- `flatten_publickey`, onto an empty packet list. -/
def flattenPublickey (keys : List PublicKey) : List Packet := keys.flatMap flattenKey

/-- A signature by which its key is revoked: a version 3 or 4 signature of the type for that. -/
def Packet.isKeyRevocation (packet : Packet) : Bool :=
  (packet.data[0]? = some 3 ∧ packet.data[2]? = some sigtypeKeyRev) ∨
    (packet.data[0]? = some 4 ∧ packet.data[1]? = some sigtypeKeyRev)

/-- A signature that ends before the octets that `parse_keys` looks at. -/
def Packet.Cut (packet : Packet) : Prop :=
  packet.data = [] ∨ (packet.data[0]? = some 3 ∧ packet.length < 3) ∨
    (packet.data[0]? = some 4 ∧ packet.length < 2)

/-- The form in which a flattened key is read back: the `revoked` flag is worked out again from the
direct signatures. -/
def reread (key : PublicKey) : PublicKey := { key with revoked := key.sigs.any Packet.isKeyRevocation }

/-! ## Well-formed packets -/

/-- The tags whose version octet is checked. -/
def versionedTags : List Nat :=
  [tagEncryptedMdc, tagPksessionkey, tagOnepasssig, tagSymsessionkey, tagSignature, tagSecretkey,
    tagPublickey]

/-- A packet that fits its format, and has a sane version octet if its tag is checked. -/
structure Packet.WellFormed (p : Packet) : Prop where
  new : p.newformat = true → p.tag < 64 ∧ p.length < 0xFFFFFFFF
  old : p.newformat = false → p.tag < 16 ∧ p.length < 2 ^ 32
  version : p.tag ∈ versionedTags → ∃ v, p.data.head? = some v ∧ versionSane p.tag v

/-- A key whose packets have the tags of their places. -/
structure PublicKey.WellTagged (k : PublicKey) : Prop where
  publickey : k.publickey.tag = tagPublickey
  sigs : ∀ s ∈ k.sigs, s.tag = tagSignature
  uids : ∀ sp ∈ k.uids, sp.packet.tag = tagUid ∨ sp.packet.tag = tagUat
  uidSigs : ∀ sp ∈ k.uids, ∀ s ∈ sp.sigs, s.tag = tagSignature
  subkeys : ∀ sp ∈ k.subkeys, sp.packet.tag = tagPublicsubkey
  subkeySigs : ∀ sp ∈ k.subkeys, ∀ s ∈ sp.sigs, s.tag = tagSignature

end Onak
