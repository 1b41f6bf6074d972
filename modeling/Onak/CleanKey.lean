import Onak.KeyDb

/-!
# Cleaning keys

The functions of `cleankey.c` with `signedpacket_is_revoked` of `decodekey.c`. Like those of
`merge.c` they splice lists in place; here each function returns the lists it leaves behind and the
number it returns. Computing and checking the hash of a signature is `sigcheck.c` on top of the
crypto library, and a parameter.
-/

namespace Onak

/-! ## What is known about a packet -/

/-- The test of `signedpacket_is_revoked` on one signature: a v4 or v5 certification revocation. -/
def sigRevokesPacket (sig : Packet) : Bool :=
  (sig.data[0]? = some 4 ∨ sig.data[0]? = some 5) ∧ sig.data[1]? = some sigtypeCertRev

/-- `signedpacket_is_revoked`. -/
def signedpacketIsRevoked (sp : SignedPacket) : Bool := sp.sigs.any sigRevokesPacket

/-- The loop over the hashed subpackets of `signedpacket_is_primary`: whether one of them flags the
user id as primary. `data` starts with the two octets of length, `subLen` is the length of the
area. Each round advances by at least two octets. -/
def primaryLoop (data : List UInt8) (subLen : Nat) : Nat → Nat → Bool
  | 0, _ => false
  | fuel + 1, offset =>
    if ¬ offset + 2 < subLen then
      false
    else
      let octet := fun i => data[i]?.getD 0
      let first := octet offset
      let header :=
        if 191 < first ∧ first < 255 then
          some (((first.toNat - 192) <<< 8) + (octet (offset + 1)).toNat + 192, offset + 2)
        else if first = 255 then
          if offset + 1 + 4 > subLen then none
          else some (beNat ((data.drop (offset + 1)).take 4), offset + 5)
        else
          some (first.toNat, offset + 1)
      match header with
      | none => false
      | some (packetLen, offset) =>
        if packetLen = 0 ∨ subLen - offset < packetLen then
          false
        else if octet offset &&& 0x7F = 25 ∧ 2 ≤ packetLen ∧ octet (offset + 1) ≠ 0 then
          true
        else
          primaryLoop data subLen fuel (offset + packetLen)

/-- The body of the loop over the signatures of `signedpacket_is_primary`. -/
def sigFlagsPrimary (sig : Packet) : Bool :=
  match sig.data with
  | version :: type :: _ :: _ :: data =>
    if sig.length < 6 ∨ (version ≠ 4 ∧ version ≠ 5) ∨ type < 0x10 ∨ 0x13 < type then
      false
    else
      let subLen := beNat (data.take 2) + 2
      if data.length < subLen then false else primaryLoop data subLen subLen 2
  | _ => false

/-- `signedpacket_is_primary`. -/
def signedpacketIsPrimary (sp : SignedPacket) : Bool := sp.sigs.any sigFlagsPrimary

/-- The octets of `UID:urn:`. -/
def urnPrefix : List UInt8 := [0x55, 0x49, 0x44, 0x3A, 0x75, 0x72, 0x6E, 0x3A]

/-- `signedpacket_is_urn_anchor`. -/
def signedpacketIsUrnAnchor (sp : SignedPacket) : Bool :=
  sp.packet.tag = tagUid ∧ sp.packet.data.take 8 = urnPrefix

/-! ## Duplicate packets -/

section

variable (g : Stale)

/-- The inner loop of `dedupuids` and `dedupsubkeys` for the packet `cur`: merges the signatures of
each later occurrence into it and takes the occurrence out. -/
def absorbDups (cur : SignedPacket) : List SignedPacket → SignedPacket × List SignedPacket × Nat
  | [] => (cur, [], 0)
  | dup :: rest =>
    if comparePackets dup.packet cur.packet == 0 then
      let r := absorbDups (mergePacketSigs g cur dup).1 rest
      (r.1, r.2.1, r.2.2 + 1)
    else
      let r := absorbDups cur rest
      (r.1, dup :: r.2.1, r.2.2)

/-- The outer loop, in at most as many rounds as there are packets. -/
def dedupLoop : Nat → List SignedPacket → List SignedPacket × Nat
  | 0, _ => ([], 0)
  | _ + 1, [] => ([], 0)
  | fuel + 1, cur :: rest =>
    let r := absorbDups g cur rest
    let r' := dedupLoop fuel r.2.1
    (r.1 :: r'.1, r.2.2 + r'.2)

/-- The packets that `dedupuids` and `dedupsubkeys` leave, and the number of duplicates merged. -/
def dedupSigned (l : List SignedPacket) : List SignedPacket × Nat := dedupLoop g l.length l

/-- `dedupuids`. -/
def dedupuids (key : PublicKey) : PublicKey × Nat :=
  let r := dedupSigned g key.uids
  ({ key with uids := r.1 }, r.2)

/-- `dedupsubkeys`. -/
def dedupsubkeys (key : PublicKey) : PublicKey × Nat :=
  let r := dedupSigned g key.subkeys
  ({ key with subkeys := r.1 }, r.2)

/-- The `dedupe_sigs` pass of `cleankeys` over one list of packets. -/
def dedupeListSigs (l : List SignedPacket) : List SignedPacket × Nat :=
  (l.map fun sp => { sp with sigs := dedupeSigs g sp.sigs },
    (l.map fun sp => dedupeSigsDropped g sp.sigs).sum)

/-- The `dedupe_sigs` pass of `cleankeys` over every signature list of a key. -/
def dedupeKeySigs (key : PublicKey) : PublicKey × Nat :=
  let uids := dedupeListSigs g key.uids
  let subkeys := dedupeListSigs g key.subkeys
  ({ key with sigs := dedupeSigs g key.sigs, uids := uids.1, subkeys := subkeys.1 },
    dedupeSigsDropped g key.sigs + uids.2 + subkeys.2)

end

/-! ## Limits -/

/-- The largest packet that `clean_large_packets` keeps: `UID_LIMIT`, `UAT_LIMIT` or
`PACKET_LIMIT`. -/
def packetLimit (tag : Nat) : Nat :=
  match tag with
  | tagUid => 1024
  | tagUat => 0xFFFF
  | _ => 8383

/-- `clean_large_packets`. -/
def cleanLargePackets (key : PublicKey) : PublicKey × Nat :=
  let large := fun sp : SignedPacket => packetLimit sp.packet.tag < sp.packet.length
  ({ key with uids := key.uids.filter fun sp => !large sp }, key.uids.countP fun sp => large sp)

/-- The packets of a tag that `cap_packet_type` counts as active. -/
def isActive (tag : Nat) (sp : SignedPacket) : Bool :=
  sp.packet.tag = tag ∧ !signedpacketIsRevoked sp

/-- The packets of a tag that `cap_packet_type` counts as revoked. -/
def isRevoked (tag : Nat) (sp : SignedPacket) : Bool :=
  sp.packet.tag = tag ∧ signedpacketIsRevoked sp

/-- What the second pass of `cap_packet_type` remembers. -/
structure CapState where
  /-- How many active packets are still to be dropped. -/
  dropActive : Nat
  /-- How many revoked packets are still to be dropped. -/
  dropRevoked : Nat
  /-- Whether a primary user id was kept. -/
  primaryKept : Bool
  /-- Whether a URN anchor was kept. -/
  anchorKept : Bool

/-- One round of the second pass of `cap_packet_type`: whether the packet is kept, and what is
remembered then. -/
def capStep (tag : Nat) (s : CapState) (sp : SignedPacket) : Bool × CapState :=
  if sp.packet.tag ≠ tag then
    (true, s)
  else if signedpacketIsRevoked sp then
    if s.dropRevoked = 0 then (true, s) else (false, { s with dropRevoked := s.dropRevoked - 1 })
  else if s.dropActive = 0 then
    (true, s)
  else if !s.primaryKept ∧ signedpacketIsPrimary sp then
    (true, { s with primaryKept := true })
  else if !s.anchorKept ∧ signedpacketIsUrnAnchor sp then
    (true, { s with anchorKept := true })
  else
    (false, { s with dropActive := s.dropActive - 1 })

/-- The second pass of `cap_packet_type`. It stops once there is nothing left to drop. -/
def capLoop (tag : Nat) (s : CapState) : List SignedPacket → List SignedPacket × Nat
  | [] => ([], 0)
  | sp :: rest =>
    if s.dropActive = 0 ∧ s.dropRevoked = 0 then
      (sp :: rest, 0)
    else
      let r := capStep tag s sp
      let r' := capLoop tag r.2 rest
      if r.1 then (sp :: r'.1, r'.2) else (r'.1, r'.2 + 1)

/-- `cap_packet_type`. -/
def capPacketType (key : PublicKey) (tag maxActive maxRevoked : Nat) : PublicKey × Nat :=
  let dropActive := key.uids.countP (isActive tag) - maxActive
  let dropRevoked := key.uids.countP (isRevoked tag) - maxRevoked
  if dropActive = 0 ∧ dropRevoked = 0 then
    (key, 0)
  else
    let r := capLoop tag ⟨dropActive, dropRevoked, false, false⟩ key.uids
    ({ key with uids := r.1 }, r.2)

abbrev maxUidsPerKey : Nat := 32
abbrev maxUatsPerKey : Nat := 4

/-- `cap_uids_per_key`. -/
def capUidsPerKey (key : PublicKey) : PublicKey × Nat :=
  capPacketType key tagUid maxUidsPerKey maxUidsPerKey

/-- `cap_uats_per_key`. -/
def capUatsPerKey (key : PublicKey) : PublicKey × Nat :=
  capPacketType key tagUat maxUatsPerKey maxUatsPerKey

/-- What `cap_sigs_per_packet` does to one packet. -/
def capSigs (tag max : Nat) (sp : SignedPacket) : SignedPacket :=
  if sp.packet.tag = tag then { sp with sigs := sp.sigs.take max } else sp

/-- `cap_sigs_per_packet`. -/
def capSigsPerPacket (key : PublicKey) (tag max : Nat) : PublicKey × Nat :=
  if max = 0 then
    (key, 0)
  else
    ({ key with uids := key.uids.map (capSigs tag max) },
      (key.uids.map fun sp => if sp.packet.tag = tag then sp.sigs.length - max else 0).sum)

/-! ## Checking signatures -/

/-- What `calculate_packet_sighash` computes. -/
structure SigHash where
  /-- The status. -/
  status : Status
  /-- The hash type. -/
  hashtype : UInt8
  /-- The hash. -/
  hash : List UInt8
  /-- The two octets of the hash that the signature carries. -/
  sighash : List UInt8

/-- The functions of `sigcheck.c` that cleaning calls. -/
structure SigCheck where
  /-- `calculate_packet_sighash` for the key packet, the signed packet and the signature. -/
  calculatePacketSighash : Packet → Option Packet → Packet → SigHash
  /-- `onak_check_hash_sig` for the packet of the signing key, the signature and its hash. -/
  checkHashSig : Packet → Packet → SigHash → Status

/-- The lookups that cleaning makes. -/
structure Lookups where
  /-- `fetch_key_id`. -/
  fetchKeyId : UInt64 → List PublicKey
  /-- `fetch_key`: whether there is a key with the fingerprint. -/
  fetchKey : Fingerprint → Bool

/-- What is decided about one signature. -/
structure SigVerdict where
  /-- Whether it is removed. -/
  remove : Bool
  /-- Whether it is a valid signature of the key itself. -/
  selfsig : Bool
  /-- Whether it is a valid signature of a key in the database. -/
  othersig : Bool

section

variable (H : Hashes) (g : Stale) (C : SigCheck) (D : Lookups)

/-- The body of the loop of `clean_sighashes` for the key with packet `publickey`. -/
def sigVerdict (publickey : Packet) (sigdata : Option Packet) (fullverify : Bool) (sig : Packet) :
    SigVerdict :=
  let h := C.calculatePacketSighash publickey sigdata sig
  let remove :=
    if h.status = .unsupportedFeature then fullverify
    else h.status ≠ .ok || (!fullverify && h.hash.take 2 ≠ h.sighash.take 2)
  if fullverify && !remove then
    let keyid := ((getPacketid H publickey).map Prod.snd).getD 0
    let sigid := issuer g sig
    let selfsig := sigid == keyid && C.checkHashSig publickey sig h = .ok
    let othersig := !selfsig &&
      (D.fetchKeyId sigid).any fun k => C.checkHashSig k.publickey sig h = .ok
    ⟨!selfsig && !othersig, selfsig, othersig⟩
  else
    ⟨remove, false, false⟩

/-- What `clean_sighashes` leaves and returns. -/
structure SigsResult where
  /-- The signatures that are kept. -/
  sigs : List Packet
  /-- The number of signatures removed. -/
  removed : Nat
  /-- Whether there is a valid signature of the key itself. -/
  selfsig : Bool
  /-- Whether there is a valid signature of a key in the database. -/
  othersig : Bool

/-- `clean_sighashes`. -/
def cleanSighashes (publickey : Packet) (sigdata : Option Packet) (fullverify : Bool)
    (sigs : List Packet) : SigsResult :=
  let verdict := sigVerdict H g C D publickey sigdata fullverify
  ⟨sigs.filter fun s => !(verdict s).remove, sigs.countP fun s => (verdict s).remove,
    sigs.any fun s => (verdict s).selfsig, sigs.any fun s => (verdict s).othersig⟩

/-- `clean_list_sighashes`: the packets that are left and the number of signatures removed. A
signature of another key counts even when its packet is removed for want of a self signature. -/
def cleanListSighashes (publickey : Packet) (fullverify needother : Bool)
    (siglist : List SignedPacket) : List SignedPacket × Nat :=
  let clean := fun sp : SignedPacket =>
    cleanSighashes H g C D publickey (some sp.packet) fullverify sp.sigs
  let kept := siglist.filter fun sp => !(fullverify && !(clean sp).selfsig)
  let othersig := siglist.any fun sp => (clean sp).othersig
  (if needother && fullverify && !othersig then []
    else kept.map fun sp => { sp with sigs := (clean sp).sigs },
    (siglist.map fun sp => (clean sp).removed).sum)

/-- `clean_key_signatures`. -/
def cleanKeySignatures (key : PublicKey) (fullverify needother : Bool) : PublicKey × Nat :=
  let sigs := cleanSighashes H g C D key.publickey none fullverify key.sigs
  let uids := cleanListSighashes H g C D key.publickey fullverify needother key.uids
  let subkeys := cleanListSighashes H g C D key.publickey fullverify false key.subkeys
  ({ key with sigs := sigs.sigs, uids := uids.1, subkeys := subkeys.1 },
    sigs.removed + uids.2 + subkeys.2)

/-! ## All of it -/

/-- The `ONAK_CLEAN` policies that `cleankeys` looks at, with the caps of the configuration. -/
structure Policies where
  /-- `ONAK_CLEAN_CHECK_SIGHASH`. -/
  checkSighash : Bool
  /-- `ONAK_CLEAN_LARGE_PACKETS`. -/
  largePackets : Bool
  /-- `ONAK_CLEAN_VERIFY_SIGNATURES`. -/
  verifySignatures : Bool
  /-- `ONAK_CLEAN_NEED_OTHER_SIG`. -/
  needOtherSig : Bool
  /-- `ONAK_CLEAN_CAP_UIDS`. -/
  capUids : Bool
  /-- `ONAK_CLEAN_CAP_UATS`. -/
  capUats : Bool
  /-- `config.max_sigs_per_uid`. -/
  maxSigsPerUid : Nat
  /-- `config.max_sigs_per_uat`. -/
  maxSigsPerUat : Nat

variable (policies : Policies)

/-- The passes of `cleankeys` over the packets of one key, up to the caps on their number. -/
def cleanPackets (key : PublicKey) : PublicKey × Nat :=
  let large := if policies.largePackets then cleanLargePackets key else (key, 0)
  let uids := dedupuids g large.1
  let subkeys := dedupsubkeys g uids.1
  let capUids := if policies.capUids then capUidsPerKey subkeys.1 else (subkeys.1, 0)
  let capUats := if policies.capUats then capUatsPerKey capUids.1 else (capUids.1, 0)
  (capUats.1, large.2 + uids.2 + subkeys.2 + capUids.2 + capUats.2)

/-- The passes of `cleankeys` over the signatures of one key. -/
def cleanSigs (key : PublicKey) : PublicKey × Nat :=
  let deduped := dedupeKeySigs g key
  let capUid := capSigsPerPacket deduped.1 tagUid policies.maxSigsPerUid
  let capUat := capSigsPerPacket capUid.1 tagUat policies.maxSigsPerUat
  let checked :=
    if policies.checkSighash || policies.verifySignatures then
      let needother := policies.needOtherSig && !D.fetchKey (fingerprintOf H key.publickey)
      cleanKeySignatures H g C D capUat.1 policies.verifySignatures needother
    else
      (capUat.1, 0)
  (checked.1, deduped.2 + capUid.2 + capUat.2 + checked.2)

/-- What `cleankeys` does to one key that it does not drop at once. -/
def cleanKey (key : PublicKey) : PublicKey × Nat :=
  let packets := cleanPackets g policies key
  let sigs := cleanSigs H g C D policies packets.1
  (sigs.1, packets.2 + sigs.2)

/-- A key of version 3 or older. A packet without data, where the source reads what lies behind it, is
taken to start with a zero. -/
def PublicKey.isOld (key : PublicKey) : Bool := key.publickey.data.headD 0 < 4

/-- The loop of `cleankeys`: the keys that are left and the value of `changed`. The count of changes
is not set back between keys. -/
def cleanLoop (count : Nat) : List PublicKey → List PublicKey × Nat
  | [] => ([], 0)
  | key :: keys =>
    if key.isOld then
      let r := cleanLoop count keys
      (r.1, r.2 + 1)
    else
      let c := cleanKey H g C D policies key
      let r := cleanLoop (count + c.2) keys
      (if c.1.uids = [] then r.1 else c.1 :: r.1, if 0 < count + c.2 then r.2 + 1 else r.2)

/-- `cleankeys`. -/
def cleankeys (keys : List PublicKey) : List PublicKey × Nat := cleanLoop H g C D policies 0 keys

end

end Onak
