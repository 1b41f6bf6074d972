import Onak.CleanKey
import Onak.Lib.Print
import Onak.Marshal

/-!
# The machine readable index

`mrkey_index` and `keylength` of `keyindex.c` with the search for a revocation of `build_one_key`,
`onak_parse_oid` of `decodekey.c`, and the decoder `unescape_url` of `getcgi.c`. What a function
reads behind the data of a packet is a parameter.
-/

namespace Onak

open Print

/-! ## The length of a key -/

/-- `enum onak_oid`. -/
inductive Oid where
  | unknown
  | invalid
  | curve25519
  | ed25519
  | nistp256
  | nistp384
  | nistp521
  | brainpoolp256r1
  | brainpoolp384r1
  | brainpoolp512r1
  | secp256k1
deriving DecidableEq

/-- The octets that `onak_parse_oid` compares with, in its order: a length and an object id. -/
def oidOctets : List (Oid × List UInt8) :=
  [(.curve25519, [10, 0x2B, 0x06, 0x01, 0x04, 0x01, 0x97, 0x55, 0x01, 0x05, 0x01]),
    (.ed25519, [9, 0x2B, 0x06, 0x01, 0x04, 0x01, 0xDA, 0x47, 0x0F, 0x01]),
    (.nistp256, [8, 0x2A, 0x86, 0x48, 0xCE, 0x3D, 0x03, 0x01, 0x07]),
    (.nistp384, [5, 0x2B, 0x81, 0x04, 0x00, 0x22]),
    (.nistp521, [5, 0x2B, 0x81, 0x04, 0x00, 0x23]),
    (.brainpoolp256r1, [9, 0x2B, 0x24, 0x03, 0x03, 0x02, 0x08, 0x01, 0x01, 0x07]),
    (.brainpoolp384r1, [9, 0x2B, 0x24, 0x03, 0x03, 0x02, 0x08, 0x01, 0x01, 0x0B]),
    (.brainpoolp512r1, [9, 0x2B, 0x24, 0x03, 0x03, 0x02, 0x08, 0x01, 0x01, 0x0D]),
    (.secp256k1, [5, 0x2B, 0x81, 0x04, 0x00, 0x0A])]

/-- `onak_parse_oid`, on a buffer given by its octets. -/
def onakParseOid (buf : Nat → UInt8) (len : Nat) : Oid :=
  if len = 0 ∨ len ≤ (buf 0).toNat then
    .invalid
  else
    match oidOctets.find? fun entry => entry.2 == (List.range entry.2.length).map buf with
    | some entry => entry.1
    | none => .unknown

/-- The size that `keylength` gives for an elliptic curve. -/
def Oid.size : Oid → Nat
  | .curve25519 | .ed25519 => 255
  | .nistp256 | .brainpoolp256r1 | .secp256k1 => 256
  | .nistp384 | .brainpoolp384r1 => 384
  | .nistp521 => 521
  | .brainpoolp512r1 => 512
  | .unknown | .invalid => 0

/-- `keylength`. -/
def keylength (past : Nat → UInt8) (keydata : Packet) : Nat :=
  let octet := keydata.octetAt past
  if octet 0 = 2 ∨ octet 0 = 3 then
    ((octet 8).toNat <<< 8) + (octet 9).toNat
  else if octet 0 = 4 ∨ octet 0 = 5 then
    let keyofs := if octet 0 = 4 then 6 else 10
    -- EC, ECDSA and EdDSA
    if octet 5 = 18 ∨ octet 5 = 19 ∨ octet 5 = 22 then
      (onakParseOid (fun i => octet (keyofs + i)) (sizeSub keydata.length keyofs)).size
    else
      ((octet keyofs).toNat <<< 8) + (octet (keyofs + 1)).toNat
  else
    0

/-! ## The index -/

/-- The variables of `mrkey_index` that keep their value from key to key. -/
structure IndexVars where
  /-- The algorithm. -/
  type : Nat
  /-- The key id. -/
  keyid : UInt64

section

variable (H : Hashes) (past : Packet → Nat → UInt8)

/-- The part of a `pub` row that names the key, with the algorithm. For a key of an unknown version
there is nothing, and the algorithm is that of the key before it. -/
def mrkeyName (vars : IndexVars) (key : PublicKey) : List UInt8 × IndexVars :=
  let octet := key.publickey.octetAt (past key.publickey)
  if octet 0 = 2 ∨ octet 0 = 3 then
    let keyid := (getKeyid H key).getD vars.keyid
    (hex 16 keyid.toNat, ⟨(octet 7).toNat, keyid⟩)
  else if octet 0 = 4 ∨ octet 0 = 5 then
    let fp := ((getFingerprint H key.publickey).map Prod.snd).getD []
    (fp.flatMap hexOctet, { vars with type := (octet 5).toNat })
  else
    ([], vars)

/-- The `pub` row of a key. -/
def mrkeyPub (vars : IndexVars) (key : PublicKey) : List UInt8 × IndexVars :=
  let octet := key.publickey.octetAt (past key.publickey)
  let createdTime := toInt32 (beNat [octet 1, octet 2, octet 3, octet 4])
  let (name, vars) := mrkeyName H past vars key
  (ascii "pub:" ++ name ++ ascii ":" ++ int vars.type ++ ascii ":" ++
      int (keylength (past key.publickey) key.publickey) ++ ascii ":" ++ int createdTime ++
      ascii "::" ++ (if key.revoked then ascii "r" else []) ++ ascii "\n", vars)

/-- The user ids that are listed: no user attributes, and none that are revoked. -/
def listed (key : PublicKey) : List SignedPacket :=
  key.uids.filter fun curuid => curuid.packet.tag = tagUid ∧ !signedpacketIsRevoked curuid

/-- How an octet of a user id is written. -/
def mrkeyOctet (c : UInt8) : List UInt8 :=
  if c = '%'.toUInt8 then
    ['%'.toUInt8, c]
  else if c = ':'.toUInt8 ∨ 127 < c then
    '%'.toUInt8 :: hexOctet c
  else
    [c]

/-- The octets of a user id that are written: `length` is taken for an `int`. -/
def mrkeyText (packet : Packet) : List UInt8 := packet.data.take (toInt32 packet.length).toNat

/-- The `uid` row of a user id. -/
def mrkeyUid (curuid : SignedPacket) : List UInt8 :=
  ascii "uid:" ++ (mrkeyText curuid.packet).flatMap mrkeyOctet ++ ascii "\n"

/-- The loop of `mrkey_index`. -/
def mrkeyLoop : IndexVars → List PublicKey → List UInt8
  | _, [] => []
  | vars, key :: keys =>
    let (row, vars) := mrkeyPub H past vars key
    row ++ (listed key).flatMap mrkeyUid ++ mrkeyLoop vars keys

/-- `mrkey_index`: what it prints. The key id is not initialised. -/
def mrkeyIndex (keyid : UInt64) (keys : List PublicKey) : List UInt8 :=
  mrkeyLoop H past ⟨0, keyid⟩ keys

end

/-! ## Revocations -/

/-- `is_rev` of `build_one_key`: whether a direct signature is the one whose date is shown for the
revocation of the key. -/
def isRev (packet : Packet) : Bool :=
  if packet.length < 2 then
    false
  else if packet.data[0]? = some 3 ∧ 3 ≤ packet.length ∧ packet.data[2]? = some sigtypeKeyRev then
    true
  else
    (packet.data[0]? = some 4 ∨ packet.data[0]? = some 5) ∧ packet.data[1]? = some sigtypeKeyRev

/-! ## Decoding -/

/-- The value of a character in `x2c`, with `char` signed. -/
def x2cDigit (c : UInt8) : UInt8 :=
  if 'A'.toUInt8 ≤ c ∧ c < 128 then ((c &&& 0xdf) - 'A'.toUInt8) + 10 else c - '0'.toUInt8

/-- `x2c`. -/
def x2c (a b : UInt8) : UInt8 := x2cDigit a * 16 + x2cDigit b

/-- The loop of `unescape_url` on the characters in front of the terminator. With one character
behind a percent sign it jumps over the terminator, which has no result. -/
def unescapeLoop : List UInt8 → Option (List UInt8)
  | [] => some []
  | c :: url =>
    if c = '%'.toUInt8 then
      match url with
      | [] => some [c]
      | [_] => none
      | a :: b :: url => (unescapeLoop url).map (x2c a b :: ·)
    else
      (unescapeLoop url).map (c :: ·)

/-- `unescape_url`. -/
def unescapeUrl (url : List UInt8) : Option (List UInt8) := unescapeLoop (cString url)

/-! ## What the index should be -/

/-- The rows of an output. -/
def rowsOf (output : List UInt8) : List (List UInt8) := output.splitOnP (· = '\n'.toUInt8)

/-- The rows that start with `uid:`. -/
def uidRows (output : List UInt8) : List (List UInt8) :=
  (rowsOf output).filter fun row => (ascii "uid:").isPrefixOf row

/-- A row from which the user id can be decoded. -/
def RowOf (row : List UInt8) (curuid : SignedPacket) : Prop :=
  ∃ body, row = ascii "uid:" ++ body ∧ ':'.toUInt8 ∉ body ∧ '\n'.toUInt8 ∉ body ∧
    unescapeUrl body = some curuid.packet.data

/-- There is exactly one row for each user id that is listed, and it can be decoded. -/
def Decodable (keys : List PublicKey) (output : List UInt8) : Prop :=
  List.Forall₂ RowOf (uidRows output) (keys.flatMap listed)

end Onak
