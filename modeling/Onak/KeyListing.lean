import Onak.KeyIndex
import Onak.Lib.Reading
import Onak.Template

/-!
# The listing of user ids

`html_escape`, `list_sigs`, `list_uids` and `build_uid_list` of `keyindex.c`, with what
`key_index_legacy` and `build_one_key` do to call the last two, and `getphoto` of `photoid.c`. A
function that writes to a buffer gives no result when it would write outside. What is printed is a
list of texts, one for each packet.
-/

namespace Onak

open Print

/-! ## Escaping -/

/-- Octets assigned to a buffer, one after the other from a position on. -/
def store (dst : List UInt8) (pos : Nat) (octets : List UInt8) : Option (List UInt8) :=
  if pos + octets.length ≤ dst.length then
    some (dst.take pos ++ octets ++ dst.drop (pos + octets.length))
  else
    none

/-- The characters that `html_escape` replaces. -/
def htmlEntity (c : UInt8) : Option (List UInt8) :=
  if c = '<'.toUInt8 then some (ascii "&lt;")
  else if c = '>'.toUInt8 then some (ascii "&gt;")
  else if c = '"'.toUInt8 then some (ascii "&quot;")
  else if c = 39 then some (ascii "&#39;")
  else if c = '&'.toUInt8 then some (ascii "&amp;")
  else none

/-- The loop of `html_escape`, with its decremented `dst_len`. The `break` of an entity that does not
fit leaves the `switch` and not the loop: the position is passed over. -/
def htmlEscapeLoop (dstLen : Nat) :
    List UInt8 → Nat → List UInt8 → Option (Nat × List UInt8)
  | [], outPos, dst => some (outPos, dst)
  | c :: src, outPos, dst =>
    if outPos < sizeSub dstLen 1 then
      match htmlEntity c with
      | some entity =>
        if dstLen ≤ outPos + entity.length then
          htmlEscapeLoop dstLen src (outPos + 1) dst
        else do
          htmlEscapeLoop dstLen src (outPos + entity.length) (← store dst outPos entity)
      | none => do
        htmlEscapeLoop dstLen src (outPos + 1) (← store dst outPos [c])
    else
      some (outPos, dst)

/-- `html_escape`: the destination afterwards. -/
def htmlEscape (src dst : List UInt8) : Option (List UInt8) := do
  let (outPos, dst) ← htmlEscapeLoop (sizeSub dst.length 1) src 0 dst
  store dst outPos [0]

/-! ## Printing -/

section

variable (keyid2uid : Option (UInt64 → Option (List UInt8))) (past : Packet → Nat → UInt8)

/-- `0x%016X`. -/
def hexKeyid (keyid : UInt64) : List UInt8 := ascii "0x" ++ hex 16 keyid.toNat

/-- Whether `list_sigs` and `build_sigs_list` take a signature for a revocation. -/
def listedRevocation (sig : Packet) : Bool :=
  sig.octetAt (past sig) 0 = 4 ∧ sig.octetAt (past sig) 1 = sigtypeCertRev

/-- One round of `list_sigs`: the line, and the buffer afterwards. -/
def listSig (html : Bool) (buf : List UInt8) (packet : Packet) : Option (List UInt8 × List UInt8) :=
  let sigid := sigKeyid packet
  let sig := ascii (if listedRevocation past packet then "rev" else "sig")
  match keyid2uid.bind fun lookup => lookup sigid with
  | some uid =>
    if html then do
      let buf ← htmlEscape uid buf
      return (sig ++ ascii "         <a href=\"lookup?op=get&search=" ++ hexKeyid sigid ++ ascii "\">" ++
        hexKeyid sigid ++ ascii "</a>             <a href=\"lookup?op=vindex&search=" ++
        hexKeyid sigid ++ ascii "\">" ++ cString buf ++ ascii "</a>\n", buf)
    else
      some (sig ++ ascii "         " ++ hexKeyid sigid ++ ascii "             " ++ uid ++ ascii "\n", buf)
  | none =>
    some (sig ++ ascii "         " ++ hexKeyid sigid ++
      ascii "             [User id not found]\n", buf)

/-- `list_sigs`. The buffer is not initialised. -/
def listSigs (html : Bool) : List UInt8 → List Packet → Option (List UInt8)
  | _, [] => some []
  | buf, packet :: sigs => do
    let (line, buf) ← listSig keyid2uid past html buf packet
    return line ++ (← listSigs html buf sigs)

/-- The image tag of a photo. -/
def photoTag (keyid : UInt64) (imgindx : Nat) : List UInt8 :=
  ascii "<img src=\"lookup?op=photo&search=" ++ hexKeyid keyid ++ ascii "&idx=" ++ int imgindx ++
    ascii "\" alt=\"[photo id]\">\n"

/-- The indentation of a user id. -/
def indent : List UInt8 := ascii "                                "

/-- What `list_uids` prints for a packet in front of its signatures, and the buffer afterwards. A text is
copied to the buffer before it is escaped into it. -/
def listUid (keyid : UInt64) (verbose html : Bool) (imgindx : Nat) (buf : List UInt8)
    (uid : SignedPacket) : Option (List UInt8 × List UInt8) :=
  if uid.packet.tag = tagUid then do
    let text := cString uid.packet.data
    let buf ← store buf 0 (text.take 1022 ++ [0])
    if html then
      let buf ← htmlEscape uid.packet.data buf
      return (indent ++ cString buf ++ ascii "\n", buf)
    else
      return (indent ++ text ++ ascii "\n", buf)
  else if uid.packet.tag = tagUat then
    if !verbose && signedpacketIsRevoked uid then
      some ([], buf)
    else
      some (indent ++ (if html then photoTag keyid imgindx else ascii "[photo id]\n"), buf)
  else
    some ([], buf)

/-- The index of the next photo. -/
def nextIndex (imgindx : Nat) (uid : SignedPacket) : Nat :=
  if uid.packet.tag = tagUat then imgindx + 1 else imgindx

variable (sigsBuf : List SignedPacket → List UInt8)

/-- The signatures that `list_uids` prints behind a packet, the first of some. -/
def listedSigs (verbose html : Bool) (behind : List SignedPacket) (uid : SignedPacket) :
    Option (List UInt8) :=
  if verbose then listSigs keyid2uid past html (sigsBuf behind) uid.sigs else some []

/-- The loop of `list_uids`. -/
def listUidsLoop (keyid : UInt64) (verbose html : Bool) :
    Nat → List UInt8 → List SignedPacket → Option (List (List UInt8))
  | _, _, [] => some []
  | imgindx, buf, uid :: uids => do
    let (line, buf) ← listUid keyid verbose html imgindx buf uid
    let sigs ← listedSigs keyid2uid past sigsBuf verbose html (uid :: uids) uid
    return (line ++ sigs) :: (← listUidsLoop keyid verbose html (nextIndex imgindx uid) buf uids)

/-- `list_uids`, with what its buffer holds before, and that of `list_sigs` before each call. -/
def listUids (buf : List UInt8) (keyid : UInt64) (uids : List SignedPacket) (verbose html : Bool) :
    Option (List (List UInt8)) :=
  listUidsLoop keyid2uid past sigsBuf keyid verbose html 0 buf uids

/-- How many packets `key_index_legacy` shows on the line of the key: the first one, if it is a user
id. -/
def pubLineUids (key : PublicKey) : Nat :=
  match key.uids with
  | [] => 0
  | curuid :: _ => if curuid.packet.tag = tagUid then 1 else 0

/-- The call of `list_uids` in `key_index_legacy`. -/
def keyIndexUids (buf : List UInt8) (keyid : UInt64) (key : PublicKey) (verbose html : Bool) :
    Option (List (List UInt8)) :=
  listUids keyid2uid past sigsBuf buf keyid (key.uids.drop (pubLineUids key)) verbose html

end

/-! ## Values for templates -/

section

open Template

/-- `extract_uid_email`. -/
def extractUidEmail (text : List UInt8) : Option (List UInt8) :=
  match text.dropWhile (· ≠ '<'.toUInt8) with
  | [] => none
  | _ :: behind =>
    let inside := behind.takeWhile (· ≠ '>'.toUInt8)
    if inside.length = behind.length ∨ inside = [] ∨ '@'.toUInt8 ∉ inside then none
    else some (cString inside)

variable (keyid2uid : Option (UInt64 → Option (List UInt8))) (past : Packet → Nat → UInt8)
  (isoDate : Int → List UInt8)

/-- The value of a signature in `build_sigs_list`, with the date that `gmtime_r` and `strdup_printf`
make of a time. -/
def sigValue (packet : Packet) : Value :=
  let created := match sigInfo packet none (some 0) with
    | some ⟨.ok, _, some created⟩ => created
    | _ => 0
  let sigid := sigKeyid packet
  let isRev := listedRevocation past packet
  .map ([(ascii "kind", .string (ascii (if isRev then "rev" else "sig"))),
      (ascii "kind_is_rev", .bool isRev), (ascii "keyid_hex16", .string (hex 16 sigid.toNat))] ++
    (if 0 < created then
      [(ascii "has_date", .bool true), (ascii "date_str_iso", .string (isoDate created))]
    else []) ++
    match keyid2uid.bind fun lookup => lookup sigid with
    | some resolved => [(ascii "signer_uid_known", .bool true), (ascii "signer_uid", .string resolved)]
    | none => [(ascii "signer_uid_known", .bool false)])

/-- `build_sigs_list`. -/
def buildSigsList (sigs : List Packet) : Value := .list (sigs.map (sigValue keyid2uid past isoDate))

/-- The value of a user id or attribute in `build_uid_list`. -/
def uidValue (thisIdx : Nat) (uid : SignedPacket) : Value :=
  let isUat : Bool := uid.packet.tag = tagUat
  .map ([(ascii "is_uat", .bool isUat), (ascii "revoked", .bool (signedpacketIsRevoked uid))] ++
    (if isUat then
      [(ascii "uat_index", .int (Int64.ofNat thisIdx))]
    else
      (ascii "text", .string uid.packet.data) ::
        match extractUidEmail uid.packet.data with
        | some email => [(ascii "has_email", .bool true), (ascii "email", .string email)]
        | none => [(ascii "has_email", .bool false)]) ++
    [(ascii "sig_count", .int (Int64.ofNat uid.sigs.length)),
      (ascii "sigs", buildSigsList keyid2uid past isoDate uid.sigs)])

/-- The loop of `build_uid_list`: for each packet, the entry that is made for it. The packet to skip is
given by its position. -/
def buildUidLoop (skip : Option Nat) (verbose : Bool) :
    Nat → Nat → List SignedPacket → List (Option Value)
  | _, _, [] => []
  | pos, imgindx, uid :: uids =>
    (if uid.packet.tag ≠ tagUid ∧ uid.packet.tag ≠ tagUat then none
      else if some pos = skip then none
      else if !verbose && signedpacketIsRevoked uid then none
      else some (uidValue keyid2uid past isoDate (if uid.packet.tag = tagUat then imgindx else 0) uid)) ::
      buildUidLoop skip verbose (pos + 1) (nextIndex imgindx uid) uids

/-- `build_uid_list`. -/
def buildUidList (uids : List SignedPacket) (skip : Option Nat) (verbose : Bool) : Value :=
  .list ((buildUidLoop keyid2uid past isoDate skip verbose 0 0 uids).filterMap id)

/-- The user id that `build_one_key` shows on the line of the key. -/
def primaryUid (key : PublicKey) : Option Nat :=
  key.uids.findIdx? fun curuid => curuid.packet.tag = tagUid ∧ !signedpacketIsRevoked curuid

/-- `other_uids` of `build_one_key`. -/
def otherUids (key : PublicKey) (verbose : Bool) : Value :=
  buildUidList keyid2uid past isoDate key.uids (primaryUid key) verbose

end

/-! ## Photos -/

open Reading in
/-- The length in front of the data of an attribute, and the offset behind it. -/
def photoLength (packet : Packet) : Reading Status (Nat × Nat) := do
  let first ← read packet.data[0]?
  if first < 192 then
    return (first.toNat, 1)
  else if first < 255 then
    let second ← read packet.data[1]?
    return (((first.toNat - 192) <<< 8) + second.toNat + 192, 2)
  else
    return (beNat (← read (readOctets packet.data 1 4)), 5)

/-- A photo as `getphoto` points to it: the offset of its data in the packet, and their length. -/
structure Photo where
  /-- The offset of `*photo`. -/
  offset : Nat
  /-- `*length`. -/
  length : Nat
deriving DecidableEq

open Reading in
/-- What `getphoto` does to the packet it examines. -/
def readPhoto (packet : Packet) : Reading Status Photo := do
  refuse (packet.length < 17) .invalidPkt
  let (length, j) ← photoLength packet
  refuse (length < 17) .invalidPkt
  refuse (sizeSub packet.length j < length) .invalidPkt
  refuse ((← read packet.data[j]?) ≠ 1) .invalidPkt
  -- the header of an image: its length (little endian), version 1 and subtype 1
  refuse ((← read (readOctets packet.data (j + 1) 4)) ≠ [0x10, 0, 1, 1]) .invalidPkt
  return ⟨j + 1 + 16, length - 17⟩

/-- The loop of `getphoto`: the attribute that it examines, with its position in the list. -/
def photoUat (index : Int) : Nat → Nat → List SignedPacket → Option (Nat × SignedPacket)
  | _, _, [] => none
  | pos, i, curuid :: uids =>
    if i ≤ index then
      if curuid.packet.tag = tagUat then
        if i = index then some (pos, curuid) else photoUat index (pos + 1) (i + 1) uids
      else
        photoUat index (pos + 1) i uids
    else
      none

/-- `getphoto`: the position of the packet that `*photo` points into, and where. -/
def getphoto (key : PublicKey) (index : Int) : Reading Status (Nat × Photo) :=
  match photoUat index 0 0 key.uids with
  | none => throw .notFound
  | some (pos, uat) => do
    let photo ← readPhoto uat.packet
    return (pos, photo)

end Onak
