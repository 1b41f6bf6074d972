import Onak.DecodeKey
import Onak.Lib.Collapse

/-!
# Merging keys

The functions of `merge.c`. The lists are spliced in place by the source; here each function returns
the lists it leaves behind. Every function that calls `sig_info` on uninitialised variables takes
their contents as a parameter `g`.
-/

namespace Onak

/-! ## Comparing packets and signatures -/

/-- `memcmp` on the first `n` octets: negative, zero or positive. -/
def memcmp : Nat → List UInt8 → List UInt8 → Int
  | n + 1, a :: as, b :: bs => if a < b then -1 else if b < a then 1 else memcmp n as bs
  | _, _, _ => 0

/-- `compare_packets`: by tag, then by data. The header format does not matter. The number of octets
that are compared is a natural number here; in the source it is an `int`, which two packets of 2³¹
octets or more make negative (`HugePair`). -/
def comparePackets (a b : Packet) : Int :=
  if a.tag > b.tag then
    1
  else if b.tag > a.tag then
    -1
  else
    let len := if a.length < b.length then a.length else b.length
    let ret := memcmp len a.data b.data
    if ret = 0 ∧ a.length ≠ b.length then
      if a.length < b.length then -1 else 1
    else
      ret

/-- `sig_sigtype`: `0xFF` for a version other than 3 to 5 and for a packet of fewer than three
octets. -/
def sigSigtype (p : Packet) : UInt8 :=
  match p.data with
  | version :: octet1 :: octet2 :: _ =>
    if version = 3 then octet2 else if version = 4 ∨ version = 5 then octet1 else 0xFF
  | _ => 0xFF

/-- `sig_is_revocation`. -/
def sigIsRevocation (sigtype : UInt8) : Bool :=
  sigtype == sigtypeKeyRev || sigtype == sigtypeSubkeyRev || sigtype == sigtypeCertRev

section

variable (g : Stale)

/-- `signatures_match_signer`: same version, same type, same non-zero issuer. -/
def signaturesMatchSigner (a b : Packet) : Bool :=
  if a.tag ≠ tagSignature ∨ b.tag ≠ tagSignature then
    false
  else if a.data[0]? ≠ b.data[0]? then
    false
  else if sigSigtype a ≠ sigSigtype b then
    false
  else if issuer g a = 0 ∨ issuer g b = 0 then
    false
  else
    issuer g a = issuer g b

/-- The choice in `dedupe_sigs` between two matching signatures: whether the inner one is kept. The
first revocation wins, otherwise the later creation time. -/
def innerWins (outer inner : Packet) : Bool :=
  if sigIsRevocation (sigSigtype outer) then
    false
  else
    created g inner > created g outer

/-- `dedupe_sigs`: the signatures that are left. -/
def dedupeSigs (sigs : List Packet) : List Packet :=
  Collapse.collapse (signaturesMatchSigner g) (innerWins g) sigs

/-- The return value of `dedupe_sigs`: the number of signatures dropped. -/
def dedupeSigsDropped (sigs : List Packet) : Nat :=
  Collapse.dropped (signaturesMatchSigner g) (innerWins g) sigs

/-- `compare_signatures`. The signature type is compared for version 4 only. In the source, a version 4
signature of one octet has its type read behind it, and each of the two creation times has a variable
of its own, which `sig_info` need not set: `compareSignaturesIn` has no result where one of these
matters. -/
def compareSignatures (a b : Packet) : Bool :=
  if a.data[0]? ≠ b.data[0]? then
    false
  else if a.data[0]? = some 4 ∧ a.data[1]? ≠ b.data[1]? then
    false
  else
    created g a = created g b ∧ issuer g a = issuer g b

/-! ## Searching lists -/

/-- `find_packet`. -/
def findPacket (packets : List Packet) (packet : Packet) : Bool :=
  packets.any fun p => comparePackets p packet == 0

/-- `find_signature`. -/
def findSignature (sigs : List Packet) (packet : Packet) : Option Packet :=
  sigs.find? fun s => compareSignatures g s packet

/-- `find_signed_packet`. -/
def findSignedPacket (list : List SignedPacket) (packet : Packet) : Option SignedPacket :=
  list.find? fun sp => comparePackets sp.packet packet == 0

/-- `remove_signed_packet`: takes the first occurrence of the packet out. -/
def removeSignedPacket (list : List SignedPacket) (packet : Packet) : List SignedPacket :=
  list.eraseP fun sp => comparePackets sp.packet packet == 0

/-- The list after the element that `find_signed_packet` found in it was changed to `elem`. -/
def replaceSignedPacket (list : List SignedPacket) (elem : SignedPacket) : List SignedPacket :=
  match list with
  | [] => []
  | sp :: rest =>
    if comparePackets sp.packet elem.packet == 0 then elem :: rest
    else sp :: replaceSignedPacket rest elem

/-! ## Merging -/

/-- The signatures that `merge_packet_sigs` leaves in the difference: those not on the old packet. -/
def newSigs (old new : List Packet) : List Packet :=
  new.filter fun s => (findSignature g old s).isNone

/-- `merge_packet_sigs`: the merged packet and the difference. -/
def mergePacketSigs (old new : SignedPacket) : SignedPacket × SignedPacket :=
  let diff := newSigs g old.sigs new.sigs
  ({ old with sigs := dedupeSigs g (old.sigs ++ diff) }, { new with sigs := diff })

/-- The first loop of `merge_signed_packets`: merges the signatures of each old packet that is also
in the new list, and takes it out of the new list when no new signature is left on it. -/
def mergeCommon : List SignedPacket → List SignedPacket → List SignedPacket × List SignedPacket
  | [], new => ([], new)
  | curelem :: old, new =>
    match findSignedPacket new curelem.packet with
    | none =>
      let r := mergeCommon old new
      (curelem :: r.1, r.2)
    | some newelem =>
      let (merged, diff) := mergePacketSigs g curelem newelem
      let new := if diff.sigs = [] then removeSignedPacket new newelem.packet
        else replaceSignedPacket new diff
      let r := mergeCommon old new
      (merged :: r.1, r.2)

/-- The second loop of `merge_signed_packets`: appends the new packets that are not on the old
list, with their signatures. -/
def addMissing : List SignedPacket → List SignedPacket → List SignedPacket
  | old, [] => old
  | old, curelem :: new =>
    if (findSignedPacket old curelem.packet).isNone then addMissing (old ++ [curelem]) new
    else addMissing old new

/-- `merge_signed_packets`: the merged list and the difference. -/
def mergeSignedPackets (old new : List SignedPacket) : List SignedPacket × List SignedPacket :=
  let r := mergeCommon g old new
  (addMissing r.1 r.2, r.2)

end

/-- What `merge_keys` returns and leaves in its two arguments. -/
structure MergeResult where
  /-- The return code. -/
  rc : Int
  /-- The merged key. -/
  a : PublicKey
  /-- The difference. -/
  b : PublicKey

/-- `merge_keys`. -/
def mergeKeys (H : Hashes) (g : Stale) (a b : PublicKey) : MergeResult :=
  match getKeyid H a, getKeyid H b with
  | none, _ => ⟨1, a, b⟩
  | some _, none => ⟨1, a, b⟩
  | some keya, some keyb =>
    let (rc, a, b) :=
      if keya ≠ keyb then
        (-1, a, b)
      else
        let diff := b.sigs.filter fun s => !findPacket a.sigs s
        let uids := mergeSignedPackets g a.uids b.uids
        let subkeys := mergeSignedPackets g a.subkeys b.subkeys
        (0, { a with sigs := a.sigs ++ diff, uids := uids.1, subkeys := subkeys.1 },
          { b with sigs := diff, uids := uids.2, subkeys := subkeys.2 })
    -- the revoked flag spreads to both keys, also when the key ids differ
    let revoked := a.revoked || b.revoked
    ⟨rc, { a with revoked := revoked }, { b with revoked := revoked }⟩

end Onak
