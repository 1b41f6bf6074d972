import Onak.Lib.CollapseIn
import Onak.MergeSpec

/-!
# Merging, and what it reads

The functions of `merge.c` once more, with what they rely on: `compare_packets` counts octets in an
`int`, `compare_signatures` looks at two octets of a signature whatever its length is, and `sig_info`
need not set the variables that it is given. A function that would read outside of a packet, or whose
result would depend on a variable that was not set, returns `none`, as in `Onak.KeyId`. Otherwise it
does what the function of `Onak.Merge` does.
-/

namespace Onak

/-! ## Comparing packets and signatures -/

/-- A packet whose length is negative as an `int`. All lengths are less than 2³², as they are read. -/
def Packet.Huge (p : Packet) : Prop := 2 ^ 31 ≤ p.length

instance (p : Packet) : Decidable p.Huge := inferInstanceAs (Decidable (_ ≤ _))

/-- `compare_packets` would compare the two packets on a negative number of octets: `memcmp` takes that
for almost all of memory. -/
def HugePair (a b : Packet) : Prop := a.tag = b.tag ∧ a.Huge ∧ b.Huge

instance (a b : Packet) : Decidable (HugePair a b) := inferInstanceAs (Decidable (_ ∧ _))

/-- `compare_packets`: whether the packets are the same. -/
def samePacketIn (a b : Packet) : Option Bool :=
  if HugePair a b then none else some (comparePackets a b == 0)

/-- What the callers of `sig_info` find in their variables, if the packet tells. -/
structure SigReading where
  /-- The key id. -/
  keyid : Packet → Option UInt64
  /-- The creation time. -/
  creation : Packet → Option Int

/-- Variables of which the octets of the packet tell the contents in any case. -/
def Stale.reading (g : Stale) : SigReading where
  keyid p := some (issuer g p)
  creation p := some (created g p)

/-- Variables that `sig_info` sets, with octets of the packet: what they held before does not show. -/
def setBySigInfo : SigReading where
  keyid p := do
    let r ← sigInfo p (some 0) none
    let r' ← sigInfo p (some 1) none
    if r.keyid = r'.keyid then r.keyid else none
  creation p := do
    let r ← sigInfo p none (some 0)
    let r' ← sigInfo p none (some 1)
    if r.creation = r'.creation then r.creation else none

section

variable (R : SigReading)

/-- `compare_signatures`. Where the key ids differ, the creation times do not matter. -/
def compareSignaturesIn (a b : Packet) : Option Bool := do
  let aVersion ← a.data[0]?
  let bVersion ← b.data[0]?
  if aVersion ≠ bVersion then
    return false
  if aVersion = 4 then
    let aType ← a.data[1]?
    let bType ← b.data[1]?
    if aType ≠ bType then
      return false
  let aKeyid ← R.keyid a
  let bKeyid ← R.keyid b
  if aKeyid ≠ bKeyid then
    return false
  let aCreation ← R.creation a
  let bCreation ← R.creation b
  return aCreation == bCreation

/-- What `dedupe_sigs` does with two signatures: whether `signatures_match_signer`, and then whether the
inner one is newer. The first of two revocations wins. -/
def judgeSigsIn (outer inner : Packet) : Option (Option Bool) := do
  if outer.tag ≠ tagSignature ∨ inner.tag ≠ tagSignature then
    return none
  let outerVersion ← outer.data[0]?
  let innerVersion ← inner.data[0]?
  if outerVersion ≠ innerVersion then
    return none
  if sigSigtype outer ≠ sigSigtype inner then
    return none
  let outerKeyid ← R.keyid outer
  let innerKeyid ← R.keyid inner
  if outerKeyid = 0 ∨ innerKeyid = 0 ∨ outerKeyid ≠ innerKeyid then
    return none
  if sigIsRevocation (sigSigtype outer) then
    return some false
  let outerT ← R.creation outer
  let innerT ← R.creation inner
  return some (innerT > outerT)

/-- `dedupe_sigs`: the signatures that are left. -/
def dedupeSigsIn (sigs : List Packet) : Option (List Packet) := Collapse.collapseIn (judgeSigsIn R) sigs

/-! ## Searching lists -/

/-- `find_packet`. -/
def findPacketIn (packets : List Packet) (packet : Packet) : Option (Option Packet) :=
  packets.findM? fun p => samePacketIn p packet

/-- `find_signature`. -/
def findSignatureIn (sigs : List Packet) (packet : Packet) : Option (Option Packet) :=
  sigs.findM? fun s => compareSignaturesIn R s packet

/-- `find_signed_packet`. -/
def findSignedPacketIn (list : List SignedPacket) (packet : Packet) : Option (Option SignedPacket) :=
  list.findM? fun sp => samePacketIn sp.packet packet

/-- `remove_signed_packet`. -/
def removeSignedPacketIn (list : List SignedPacket) (packet : Packet) : Option (List SignedPacket) :=
  match list with
  | [] => some []
  | sp :: rest => do
    if ← samePacketIn sp.packet packet then
      return rest
    return sp :: (← removeSignedPacketIn rest packet)

/-! ## Merging -/

/-- The packets of `new` that a search does not find. -/
def missingIn (find : Packet → Option (Option Packet)) : List Packet → Option (List Packet)
  | [] => some []
  | s :: new => do
    let found ← find s
    let rest ← missingIn find new
    return if found.isNone then s :: rest else rest

/-- `merge_packet_sigs`: the merged packet and the difference. -/
def mergePacketSigsIn (old new : SignedPacket) : Option (SignedPacket × SignedPacket) := do
  let diff ← missingIn (findSignatureIn R old.sigs) new.sigs
  let sigs ← dedupeSigsIn R (old.sigs ++ diff)
  return ({ old with sigs := sigs }, { new with sigs := diff })

/-- The first loop of `merge_signed_packets`. -/
def mergeCommonIn :
    List SignedPacket → List SignedPacket → Option (List SignedPacket × List SignedPacket)
  | [], new => some ([], new)
  | curelem :: old, new => do
    match ← findSignedPacketIn new curelem.packet with
    | none =>
      let r ← mergeCommonIn old new
      return (curelem :: r.1, r.2)
    | some newelem =>
      let m ← mergePacketSigsIn R curelem newelem
      let new ← (if m.2.sigs = [] then removeSignedPacketIn new newelem.packet
        else some (replaceSignedPacket new m.2))
      let r ← mergeCommonIn old new
      return (m.1 :: r.1, r.2)

/-- The second loop of `merge_signed_packets`. -/
def addMissingIn : List SignedPacket → List SignedPacket → Option (List SignedPacket)
  | old, [] => some old
  | old, curelem :: new => do
    let found ← findSignedPacketIn old curelem.packet
    addMissingIn (if found.isNone then old ++ [curelem] else old) new

/-- `merge_signed_packets`: the merged list and the difference. -/
def mergeSignedPacketsIn (old new : List SignedPacket) :
    Option (List SignedPacket × List SignedPacket) := do
  let r ← mergeCommonIn R old new
  return (← addMissingIn r.1 r.2, r.2)

/-- `merge_keys`, given what `get_keyid` says of the two keys, which is nothing for an error. -/
def mergeKeysWith (keya keyb : Option (Option UInt64)) (a b : PublicKey) : Option MergeResult := do
  match ← keya with
  | none => return ⟨1, a, b⟩
  | some keya =>
    match ← keyb with
    | none => return ⟨1, a, b⟩
    | some keyb =>
      let (rc, a, b) ←
        if keya ≠ keyb then
          pure (-1, a, b)
        else do
          let diff ← missingIn (findPacketIn a.sigs) b.sigs
          let uids ← mergeSignedPacketsIn R a.uids b.uids
          let subkeys ← mergeSignedPacketsIn R a.subkeys b.subkeys
          pure (0, { a with sigs := a.sigs ++ diff, uids := uids.1, subkeys := subkeys.1 },
            { b with sigs := diff, uids := uids.2, subkeys := subkeys.2 })
      let revoked := a.revoked || b.revoked
      return ⟨rc, { a with revoked := revoked }, { b with revoked := revoked }⟩

end

/-- `get_keyid`, with octets of the packet. -/
def keyidIn (H : Hashes) (k : PublicKey) : Option (Option UInt64) :=
  (getPacketid H k.publickey).map fun r => if r.1 = .ok then some r.2 else none

/-- `merge_keys`. -/
def mergeKeysIn (H : Hashes) (R : SigReading) (a b : PublicKey) : Option MergeResult :=
  mergeKeysWith R (keyidIn H a) (keyidIn H b) a b

/-! ## What has to be inside -/

section

variable (R : SigReading) (g : Stale)

/-- A search comes over tests only that have a result, up to the one that finds. -/
def SearchReads {α : Type} (test : α → Option Bool) : List α → Prop
  | [] => True
  | x :: l => ∃ found, test x = some found ∧ (found = false → SearchReads test l)

/-- The new signatures can be looked up among the old ones, and any two of those that are then on the
packet can be compared by `dedupe_sigs`. -/
structure SigsRead (old new : List Packet) : Prop where
  found : ∀ s ∈ new, SearchReads (fun o => compareSignaturesIn R o s) old
  judged : (pool g old new).Pairwise fun s t => (judgeSigsIn R s t).isSome

/-- The signatures of a new packet that `compare_signatures` equates with none on the same packets of
`old`. -/
def unequated (old : List SignedPacket) (n : SignedPacket) : List Packet :=
  n.sigs.filter fun s => ¬ Equated g old n.packet s

/-- Two lists of user ids or subkeys can be merged: no two packets that are compared are huge, and on
each packet of the old list, the signatures can be merged that are equated with none before. When all
were equated, the packet is not looked at any more. -/
structure SignedRead (old new : List SignedPacket) : Prop where
  pairs : ∀ o ∈ old, ∀ n ∈ new, ¬ HugePair n.packet o.packet
  news : new.Pairwise fun n n' => ¬ HugePair n.packet n'.packet
  sigs : ∀ l₁ o l₂, old = l₁ ++ o :: l₂ → ∀ n ∈ new, n.packet.Same o.packet →
    (OnSigned l₁ n.packet → unequated g l₁ n ≠ []) → SigsRead R g o.sigs (unequated g l₁ n)

/-- Two keys can be merged. -/
structure KeysRead (a b : PublicKey) : Prop where
  sigs : ∀ s ∈ a.sigs, ∀ t ∈ b.sigs, ¬ HugePair s t
  uids : SignedRead R g a.uids b.uids
  subkeys : SignedRead R g a.subkeys b.subkeys

end

/-! ## Keys in memory -/

/-- `get_packetid` on a packet behind whose data `behind` lies in memory. -/
def getPacketidAt (H : Hashes) (p : Packet) (behind : List UInt8) : Option (Status × UInt64) := do
  let memory := p.data ++ behind
  let version ← memory[0]?
  if version = 2 ∨ version = 3 then
    let algo ← memory[7]?
    if algo < 1 ∨ 3 < algo then
      return (.invalidPkt, 0)
    let offset := (beNat (← readOctets memory 8 2) + 7) / 8 + 2
    let octets ← readOctets memory offset 8
    return (.ok, UInt64.ofNat (beNat octets))
  else if version = 4 then
    return (.ok, fingerprint2keyid (H.sha1 (sha1Preimage p)))
  else if version = 5 then
    return (.ok, fingerprint2keyid (H.sha256 (sha256Preimage p)))
  else
    return (.unknownVer, 0)

/-- A key in memory. -/
structure KeyNode where
  /-- The key. -/
  key : PublicKey
  /-- What lies in memory behind the data of its packet. -/
  behind : List UInt8
  /-- It can be read as far as the length of a number can lead. -/
  readable : 0x2010 ≤ behind.length

/-- `get_keyid`, whatever it reads. -/
def KeyNode.keyid (H : Hashes) (k : KeyNode) : Option UInt64 :=
  match getPacketidAt H k.key.publickey k.behind with
  | some (.ok, keyid) => some keyid
  | _ => none

/-- `merge_keys` on keys in memory. -/
def mergeKeysAt (H : Hashes) (R : SigReading) (a b : KeyNode) : Option MergeResult :=
  mergeKeysWith R (some (a.keyid H)) (some (b.keyid H)) a.key b.key

end Onak
