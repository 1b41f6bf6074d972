import Onak.CleanKey
import Onak.ParseKey
import Onak.Lib.Linked

/-!
# Keys with their tail pointers

A `struct openpgp_publickey` has a tail pointer beside each of its lists (`last_sig`, `last_uid`,
`last_subkey`), and so has each user id and subkey (`last_sig`). Here are the operations that build,
merge and clean keys, with what each of them does to the tail pointers. What they do to the contents
of the lists is in `Onak.ParseKey`, `Onak.Merge` and `Onak.CleanKey`, and so are the numbers they
return.

An operation that writes through a tail pointer to a node that is not on the list gives `none`.
-/

namespace Onak.Tails

/-- `struct openpgp_signedpacket_list`: a packet with its signatures and `last_sig`. -/
structure LSigned where
  /-- The packet that is signed. -/
  packet : Packet
  /-- The signatures over it. -/
  sigs : Linked Packet

/-- `struct openpgp_publickey`. -/
structure LKey where
  /-- The public key packet. -/
  publickey : Packet
  /-- Whether the key is revoked. -/
  revoked : Bool
  /-- The signatures directly on the public key packet. -/
  sigs : Linked Packet
  /-- The user ids and user attributes. -/
  uids : Linked LSigned
  /-- The subkeys. -/
  subkeys : Linked LSigned

/-- The packet with its signatures, without the tail pointer. -/
def LSigned.contents (sp : LSigned) : SignedPacket := ⟨sp.packet, sp.sigs.vals⟩

/-- The packets on a list, without the tail pointers. -/
def packetsOf (l : Linked LSigned) : List SignedPacket := l.vals.map LSigned.contents

/-- The key without the tail pointers. -/
def LKey.contents (key : LKey) : PublicKey :=
  ⟨key.publickey, key.revoked, key.sigs.vals, packetsOf key.uids, packetsOf key.subkeys⟩

/-- The tail pointers of a list and of the packets on it are valid. -/
structure ValidList (l : Linked LSigned) : Prop where
  list : l.Valid
  sigs : ∀ n ∈ l.nodes, n.val.sigs.Valid

/-- All tail pointers of the key are valid. -/
structure LKey.Valid (key : LKey) : Prop where
  sigs : key.sigs.Valid
  uids : ValidList key.uids
  subkeys : ValidList key.subkeys

/-! ## Parsing -/

/-- `ADD_PACKET_TO_LIST_END` for a signature on the packet that the tail pointer points to. -/
def addSigAt (m : Malloc) (l : Linked LSigned) (packet : Packet) : Option (Linked LSigned) := do
  let p ← l.last
  let front ← Linked.upTo p l.nodes
  let sigs ← (← front.getLast?).val.sigs.addEnd m packet
  return { l with nodes := l.nodes.map fun n => if n.addr = p then ⟨p, { n.val with sigs := sigs }⟩ else n }

/-- Adds a signature to the last subkey, else to the last user id, else to the key itself. -/
def addSignature (m : Malloc) (past : Nat → UInt8) (key : LKey) (packet : Packet) : Option LKey :=
  if !key.subkeys.nodes.isEmpty then
    (addSigAt m key.subkeys packet).map fun l => { key with subkeys := l }
  else if !key.uids.nodes.isEmpty then
    (addSigAt m key.uids packet).map fun l => { key with uids := l }
  else
    (key.sigs.addEnd m packet).map fun l =>
      { key with sigs := l, revoked := key.revoked || revokesKey past packet }

/-- Changes the last key of a list. Without a key the packet cannot be placed. -/
def changeLast (keys : List LKey) (f : LKey → Option LKey) : Option (Bool × List LKey) :=
  match keys.getLast? with
  | none => some (false, keys)
  | some curkey => (f curkey).map fun key => (true, keys.dropLast ++ [key])

section

variable (m : Malloc) (past : List PublicKey → Nat → UInt8)

/-- One round of the loop of `parse_keys`: whether the packet could be placed, and the keys. -/
def parsePacket (keys : List LKey) (packet : Packet) : Option (Bool × List LKey) :=
  match packet.tag with
  | tagSignature =>
    changeLast keys fun curkey => addSignature m (past (keys.map LKey.contents)) curkey packet
  | tagPublickey => some (true, keys ++ [⟨packet, false, .empty, .empty, .empty⟩])
  | tagUid | tagUat =>
    if keys.getLast?.any fun curkey => !curkey.subkeys.nodes.isEmpty then
      some (false, keys)
    else
      changeLast keys fun curkey =>
        (curkey.uids.addEnd m ⟨packet, .empty⟩).map fun l => { curkey with uids := l }
  | tagPublicsubkey =>
    changeLast keys fun curkey =>
      (curkey.subkeys.addEnd m ⟨packet, .empty⟩).map fun l => { curkey with subkeys := l }
  | _ => some (true, keys)

/-- `parse_keys`: the key list it leaves. It stops at a packet that cannot be placed. -/
def parseKeys (keys : List LKey) : List Packet → Option (List LKey)
  | [] => some keys
  | packet :: packets => do
    let r ← parsePacket m past keys packet
    if r.1 then parseKeys r.2 packets else return r.2

end

/-! ## Merging -/

section

variable (m : Malloc) (g : Stale)

/-- `dedupe_sigs`. If the tail pointer points to a node that is dropped, it is set to `NULL` and in
the end found again by a walk through the list. -/
def dedupeSigs (l : Linked Packet) : Linked Packet :=
  let same := fun a b : Node Packet => signaturesMatchSigner g a.val b.val
  let newer := fun a b : Node Packet => innerWins g a.val b.val
  let left := Collapse.collapse same newer l.nodes
  let tailDirty := (Collapse.victims same newer l.nodes).any fun n => l.last = some n.addr
  ⟨left, if tailDirty then left.getLast?.map Node.addr else l.last⟩

/-- `merge_packet_sigs`. -/
def mergePacketSigs (old new : LSigned) : Option (LSigned × LSigned) := do
  let left := new.sigs.nodes.filter fun n => (findSignature g old.sigs.vals n.val).isNone
  -- `lastpacket` is the last of the signatures that stay
  let diff : Linked Packet := ⟨left, left.getLast?.map Node.addr⟩
  let sigs ← old.sigs.addAll m diff.vals
  return ({ old with sigs := dedupeSigs g sigs }, { new with sigs := diff })

/-- `find_signed_packet`. -/
def findSignedPacket (nodes : List (Node LSigned)) (packet : Packet) : Option (Node LSigned) :=
  nodes.find? fun n => comparePackets n.val.packet packet == 0

/-- `remove_signed_packet`. -/
def removeSignedPacket (l : Linked LSigned) (packet : Packet) : Linked LSigned :=
  l.unlinkFirst fun sp => comparePackets sp.packet packet == 0

/-- The nodes after the one that `find_signed_packet` found was changed to hold `elem`. -/
def replaceSignedPacket (nodes : List (Node LSigned)) (elem : LSigned) : List (Node LSigned) :=
  match nodes with
  | [] => []
  | n :: rest =>
    if comparePackets n.val.packet elem.packet == 0 then ⟨n.addr, elem⟩ :: rest
    else n :: replaceSignedPacket rest elem

/-- The first loop of `merge_signed_packets`. -/
def mergeCommon : List (Node LSigned) → Linked LSigned →
    Option (List (Node LSigned) × Linked LSigned)
  | [], new => some ([], new)
  | curelem :: old, new =>
    match findSignedPacket new.nodes curelem.val.packet with
    | none => do
      let r ← mergeCommon old new
      return (curelem :: r.1, r.2)
    | some newelem => do
      let p ← mergePacketSigs m g curelem.val newelem.val
      let new := if p.2.sigs.nodes.isEmpty then removeSignedPacket new newelem.val.packet
        else { new with nodes := replaceSignedPacket new.nodes p.2 }
      let r ← mergeCommon old new
      return (⟨curelem.addr, p.1⟩ :: r.1, r.2)

/-- The second loop of `merge_signed_packets`. -/
def addMissing : Linked LSigned → List (Node LSigned) → Option (Linked LSigned)
  | old, [] => some old
  | old, curelem :: new =>
    if (findSignedPacket old.nodes curelem.val.packet).isNone then do
      let sigs ← Linked.empty.addAll m curelem.val.sigs.vals
      let old ← old.add m ⟨curelem.val.packet, sigs⟩
      addMissing old new
    else
      addMissing old new

/-- `merge_signed_packets`. -/
def mergeSignedPackets (old new : Linked LSigned) : Option (Linked LSigned × Linked LSigned) := do
  let r ← mergeCommon m g old.nodes new
  let old ← addMissing m { old with nodes := r.1 } r.2.nodes
  return (old, r.2)

/-- What `merge_keys` does to the lists of two keys with the same key id. -/
def mergeLists (a b : LKey) : Option (LKey × LKey) := do
  let left := b.sigs.nodes.filter fun n => !findPacket a.sigs.vals n.val
  let diff : Linked Packet := ⟨left, left.getLast?.map Node.addr⟩
  let sigs ← a.sigs.addAll m diff.vals
  let uids ← mergeSignedPackets m g a.uids b.uids
  let subkeys ← mergeSignedPackets m g a.subkeys b.subkeys
  return ({ a with sigs := sigs, uids := uids.1, subkeys := subkeys.1 },
    { b with sigs := diff, uids := uids.2, subkeys := subkeys.2 })

/-- `merge_keys`: the merged key and the difference. -/
def mergeKeys (H : Hashes) (a b : LKey) : Option (LKey × LKey) :=
  match getKeyid H a.contents, getKeyid H b.contents with
  | some keya, some keyb =>
    (if keya ≠ keyb then some (a, b) else mergeLists m g a b).map fun r =>
      let revoked := r.1.revoked || r.2.revoked
      ({ r.1 with revoked := revoked }, { r.2 with revoked := revoked })
  | _, _ => some (a, b)

/-! ## Cleaning -/

/-- The inner loop of `dedupuids` and `dedupsubkeys`. -/
def absorbDups (cur : LSigned) : List (Node LSigned) → Option (LSigned × List (Node LSigned))
  | [] => some (cur, [])
  | dup :: rest =>
    if comparePackets dup.val.packet cur.packet == 0 then do
      let p ← mergePacketSigs m g cur dup.val
      absorbDups p.1 rest
    else do
      let r ← absorbDups cur rest
      return (r.1, dup :: r.2)

/-- The outer loop. -/
def dedupLoop : Nat → List (Node LSigned) → Option (List (Node LSigned))
  | 0, _ => some []
  | _ + 1, [] => some []
  | fuel + 1, cur :: rest => do
    let r ← absorbDups m g cur.val rest
    let rest ← dedupLoop fuel r.2
    return ⟨cur.addr, r.1⟩ :: rest

/-- `dedupuids` and `dedupsubkeys` on their list. The tail pointer stays as it is. -/
def dedupSigned (l : Linked LSigned) : Option (Linked LSigned) :=
  (dedupLoop m g l.nodes.length l.nodes).map fun nodes => { l with nodes := nodes }

/-- `dedupuids`. -/
def dedupuids (key : LKey) : Option LKey :=
  (dedupSigned m g key.uids).map fun l => { key with uids := l }

/-- `dedupsubkeys`. -/
def dedupsubkeys (key : LKey) : Option LKey :=
  (dedupSigned m g key.subkeys).map fun l => { key with subkeys := l }

end

/-- `clean_large_packets`. The tail pointer stays as it is. -/
def cleanLargePackets (key : LKey) : LKey :=
  { key with uids := key.uids.keep fun sp => ¬ packetLimit sp.packet.tag < sp.packet.length }

/-- The second pass of `cap_packet_type`. -/
def capLoop (tag : Nat) (s : CapState) : List (Node LSigned) → List (Node LSigned)
  | [] => []
  | n :: rest =>
    if s.dropActive = 0 ∧ s.dropRevoked = 0 then
      n :: rest
    else
      let r := capStep tag s n.val.contents
      if r.1 then n :: capLoop tag r.2 rest else capLoop tag r.2 rest

/-- `cap_packet_type`. The tail pointer stays as it is. -/
def capPacketType (key : LKey) (tag maxActive maxRevoked : Nat) : LKey :=
  let dropActive := (packetsOf key.uids).countP (isActive tag) - maxActive
  let dropRevoked := (packetsOf key.uids).countP (isRevoked tag) - maxRevoked
  if dropActive = 0 ∧ dropRevoked = 0 then
    key
  else
    { key with uids := { key.uids with
        nodes := capLoop tag ⟨dropActive, dropRevoked, false, false⟩ key.uids.nodes } }

/-- `cap_sigs_per_packet` on one list of signatures. -/
def capSigsOf (max : Nat) (l : Linked Packet) : Linked Packet :=
  if l.nodes.length ≤ max then l
  else ⟨l.nodes.take max, (l.nodes.take max).getLast?.map Node.addr⟩

/-- Changes the signatures of each packet of a list. -/
def mapSigs (f : Node LSigned → Linked Packet) (l : Linked LSigned) : Linked LSigned :=
  { l with nodes := l.nodes.map fun n => ⟨n.addr, { n.val with sigs := f n }⟩ }

/-- `dedupe_sigs` on the signatures of the packet at an address. -/
def dedupeSigsAt (g : Stale) (p : Nat) (l : Linked LSigned) : Linked LSigned :=
  mapSigs (fun n => if n.addr = p then dedupeSigs g n.val.sigs else n.val.sigs) l

/-- `cap_sigs_per_packet`. -/
def capSigsPerPacket (key : LKey) (tag max : Nat) : LKey :=
  if max = 0 then
    key
  else
    { key with uids := mapSigs (fun n =>
        if n.val.packet.tag = tag then capSigsOf max n.val.sigs else n.val.sigs) key.uids }

section

variable (H : Hashes) (g : Stale) (C : SigCheck) (D : Lookups)

/-- `clean_sighashes`. The tail pointer stays as it is. -/
def cleanSighashes (publickey : Packet) (sigdata : Option Packet) (fullverify : Bool)
    (sigs : Linked Packet) : Linked Packet :=
  sigs.keep fun s => !(sigVerdict H g C D publickey sigdata fullverify s).remove

/-- `clean_list_sighashes`. The tail pointer of the list stays as it is. -/
def cleanListSighashes (publickey : Packet) (fullverify needother : Bool) (l : Linked LSigned) :
    Linked LSigned :=
  let result := fun sp : LSigned =>
    Onak.cleanSighashes H g C D publickey (some sp.packet) fullverify sp.sigs.vals
  let cleaned := mapSigs
    (fun n => cleanSighashes H g C D publickey (some n.val.packet) fullverify n.val.sigs)
    (l.keep fun sp => !(fullverify && !(result sp).selfsig))
  let othersig := l.vals.any fun sp => (result sp).othersig
  if needother && fullverify && !othersig then { l with nodes := [] } else cleaned

/-- `clean_key_signatures`. -/
def cleanKeySignatures (key : LKey) (fullverify needother : Bool) : LKey :=
  { key with
    sigs := cleanSighashes H g C D key.publickey none fullverify key.sigs,
    uids := cleanListSighashes H g C D key.publickey fullverify needother key.uids,
    subkeys := cleanListSighashes H g C D key.publickey fullverify false key.subkeys }

/-! ## Runs -/

/-- The operations on a key, with the allocator they meet. A key that is merged with it has valid tail
pointers. -/
inductive Step where
  /-- `merge_keys` with the key as the old one, which becomes the merged key. -/
  | mergeOld (m : Malloc) (new : LKey) (valid : new.Valid)
  /-- `merge_keys` with the key as the new one, which becomes the difference. -/
  | mergeNew (m : Malloc) (old : LKey) (valid : old.Valid)
  | dedupuids (m : Malloc)
  | dedupsubkeys (m : Malloc)
  | cleanLargePackets
  | capUidsPerKey
  | capUatsPerKey
  /-- `dedupe_sigs` on the direct signatures. -/
  | dedupeSigs
  /-- `dedupe_sigs` on the signatures of the user id at an address. -/
  | dedupeUidSigs (p : Nat)
  /-- `dedupe_sigs` on the signatures of the subkey at an address. -/
  | dedupeSubkeySigs (p : Nat)
  | capSigsPerPacket (tag max : Nat)
  | cleanKeySignatures (fullverify needother : Bool)

/-- What an operation makes of a key. -/
def Step.run (key : LKey) : Step → Option LKey
  | mergeOld m new _ => (mergeKeys m g H key new).map Prod.fst
  | mergeNew m old _ => (mergeKeys m g H old key).map Prod.snd
  | dedupuids m => Tails.dedupuids m g key
  | dedupsubkeys m => Tails.dedupsubkeys m g key
  | cleanLargePackets => some (Tails.cleanLargePackets key)
  | capUidsPerKey => some (capPacketType key tagUid maxUidsPerKey maxUidsPerKey)
  | capUatsPerKey => some (capPacketType key tagUat maxUatsPerKey maxUatsPerKey)
  | dedupeSigs => some { key with sigs := Tails.dedupeSigs g key.sigs }
  | dedupeUidSigs p => some { key with uids := dedupeSigsAt g p key.uids }
  | dedupeSubkeySigs p => some { key with subkeys := dedupeSigsAt g p key.subkeys }
  | capSigsPerPacket tag max => some (Tails.capSigsPerPacket key tag max)
  | cleanKeySignatures fullverify needother =>
    some (Tails.cleanKeySignatures H g C D key fullverify needother)

end

end Onak.Tails
