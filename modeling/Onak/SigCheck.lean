import Onak.KeyIndex
import Onak.Lib.Reading

/-!
# Checking signatures

`calculate_packet_sighash`, `onak_parse_key_material` and `onak_check_hash_sig` of `sigcheck.c`, with
`onak_hash` of `hash-helper.c`. They are computations that read: one that reads outside a packet comes
to nothing, and one that gives up comes to a status. The digests and the checks of signature values are
those of the crypto library, and parameters. The macro `MPI_TO_MPZ` is `mpiToMpz`.
-/

namespace Onak

open Reading

/-! ## Hashing -/

abbrev hashMd5 : UInt8 := 1
abbrev hashSha1 : UInt8 := 2
abbrev hashRipemd160 : UInt8 := 3
abbrev hashSha1x : UInt8 := 4
abbrev hashSha256 : UInt8 := 8
abbrev hashSha384 : UInt8 := 9
abbrev hashSha512 : UInt8 := 10
abbrev hashSha224 : UInt8 := 11

/-- The hash types that `onak_hash` knows. -/
def knownHashes : List UInt8 :=
  [hashMd5, hashSha1, hashSha1x, hashRipemd160, hashSha224, hashSha256, hashSha384, hashSha512]

abbrev maxHashChunks : Nat := 8

/-- `onak_hash`: the digest of the chunks, which are fed to the hash function one after the other. -/
def onakHash (digest : UInt8 → List (List UInt8) → List UInt8) (hashtype : UInt8)
    (chunks : List (List UInt8)) : Reading Status (List UInt8) := do
  refuse (maxHashChunks < chunks.length) .invalidParam
  refuse (¬ knownHashes.contains hashtype) .unsupportedFeature
  return digest hashtype chunks

/-- What `calculate_packet_sighash` hashes, and where the octets of the hash stand in the signature. -/
structure HashData where
  /-- The hash type. -/
  hashtype : UInt8
  /-- The chunks. -/
  chunks : List (List UInt8)
  /-- The offset of the two octets of the hash in the signature packet. -/
  sighash : Nat

/-- The header of a key packet in a hash for a signature up to version 4. -/
def keyHeader (packet : Packet) : List UInt8 :=
  [0x99, UInt8.ofNat (packet.length >>> 8), UInt8.ofNat (packet.length &&& 0xFF)]

/-- The header of a key packet in a hash for a signature of version 5. -/
def keyHeader5 (packet : Packet) : List UInt8 :=
  [0x9A, 0, 0, UInt8.ofNat (packet.length >>> 8), UInt8.ofNat (packet.length &&& 0xFF)]

/-- The header of a user id or attribute in a hash for a signature from version 4 on. -/
def uidHeader (packet : Packet) : List UInt8 :=
  [if packet.tag = tagUid then 0xB4 else 0xD1, UInt8.ofNat (packet.length >>> 24),
    UInt8.ofNat ((packet.length >>> 16) &&& 0xFF), UInt8.ofNat ((packet.length >>> 8) &&& 0xFF),
    UInt8.ofNat (packet.length &&& 0xFF)]

/-- The chunks for the packet that is signed, for a signature up to version 3. -/
def packetChunks3 : Option Packet → List (List UInt8)
  | none => []
  | some packet =>
    if packet.tag = tagPublicsubkey then [keyHeader packet, packet.data] else [packet.data]

/-- The chunks for the packet that is signed, for a signature from version 4 on, with the header that
subkeys get. -/
def packetChunks (subkeyHeader : Packet → List UInt8) : Option Packet → List (List UInt8)
  | none => []
  | some packet =>
    if packet.tag = tagPublicsubkey then [subkeyHeader packet, packet.data]
    else if packet.tag = tagUid ∨ packet.tag = tagUat then [uidHeader packet, packet.data]
    else [packet.data]

/-- The four octets of the length of the hashed part in a trailer. -/
def trailerLength (siglen : Nat) : List UInt8 :=
  [UInt8.ofNat (siglen >>> 24), UInt8.ofNat ((siglen >>> 16) &&& 0xFF),
    UInt8.ofNat ((siglen >>> 8) &&& 0xFF), UInt8.ofNat (siglen &&& 0xFF)]

/-- The check for an X509 based signature of version 4. -/
def refuseX509 (sig : Packet) : Reading Status Unit := do
  let algo ← read sig.data[2]?
  if algo = 0 ∨ algo = 100 then
    let (len, r) ← read (parseSubpackets (sig.data.drop 4) (sizeSub sig.length 4) (some 0) none)
    refuse (r.status ≠ .ok) r.status
    refuse (sig.length < 11 + len) .invalidPkt
    if r.keyid = some 0 then
      -- no unhashed data, a dummy checksum of 0 and a dummy integer of 1
      let octets ← read (readOctets sig.data (4 + len) 7)
      refuse (octets = [0, 0, 0, 0, 0, 1, 1]) .unsupportedFeature
    else
      pure ()
  else
    pure ()

/-- The part of `calculate_packet_sighash` for the signature itself that the cases of version 4 and 5
share: the hashed part, the trailer, and the octets of the hash behind the unhashed part. -/
def sigChunks (sig : Packet) (hashtype : UInt8) (chunks : List (List UInt8)) (trailer : List UInt8) :
    Reading Status HashData := do
  let siglen := beNat (← read (readOctets sig.data 4 2)) + 6
  refuse (sig.length < siglen) .invalidPkt
  let hashed ← read (readOctets sig.data 0 siglen)
  let unhashedlen := beNat (← read (readOctets sig.data siglen 2))
  refuse (sig.length < unhashedlen + siglen + 4) .invalidPkt
  return ⟨hashtype, chunks ++ [hashed, trailer ++ trailerLength siglen], siglen + unhashedlen + 2⟩

/-- `calculate_packet_sighash` up to the call of `onak_hash`, for the packet of the key. -/
def hashData (publickey : Packet) (packet : Option Packet) (sig : Packet) :
    Reading Status HashData := do
  refuse (sig.length < 10) .invalidPkt
  let version ← read sig.data[0]?
  if version = 2 ∨ version = 3 then
    refuse (sig.length < 19) .invalidPkt
    let hashtype ← read sig.data[16]?
    let hashed ← read (readOctets sig.data 2 5)
    return ⟨hashtype,
      [keyHeader publickey, publickey.data] ++ packetChunks3 packet ++ [hashed], 17⟩
  else if version = 4 then
    refuseX509 sig
    let hashtype ← read sig.data[3]?
    sigChunks sig hashtype ([keyHeader publickey, publickey.data] ++ packetChunks keyHeader packet)
      [4, 0xFF]
  else if version = 5 then
    let hashtype ← read sig.data[3]?
    sigChunks sig hashtype ([keyHeader5 publickey, publickey.data] ++ packetChunks keyHeader5 packet)
      [5, 0xFF, 0, 0, 0, 0]
  else
    throw .unsupportedFeature

/-- What `calculate_packet_sighash` leaves in its output parameters when it succeeds. -/
structure PacketSighash where
  /-- The hash type. -/
  hashtype : UInt8
  /-- The hash. -/
  hash : List UInt8
  /-- The offset of the two octets of the hash in the signature packet. -/
  sighash : Nat

/-- `calculate_packet_sighash`. -/
def calculatePacketSighash (digest : UInt8 → List (List UInt8) → List UInt8) (publickey : Packet)
    (packet : Option Packet) (sig : Packet) : Reading Status PacketSighash := do
  let hashdata ← hashData publickey packet sig
  let hash ← onakHash digest hashdata.hashtype hashdata.chunks
  return ⟨hashdata.hashtype, hash, hashdata.sighash⟩

/-! ## Key material -/

abbrev pkalgoRsa : UInt8 := 1
abbrev pkalgoRsaEnc : UInt8 := 2
abbrev pkalgoRsaSign : UInt8 := 3
abbrev pkalgoDsa : UInt8 := 17
abbrev pkalgoEcdsa : UInt8 := 19
abbrev pkalgoEddsa : UInt8 := 22

/-- The values of a public key. -/
inductive KeyMaterial where
  /-- A point on one of the curves. -/
  | ecdsa (curve : Oid) (x y : Nat)
  /-- The octets of an Ed25519 key. -/
  | ed25519 (octets : List UInt8)
  /-- The parameters and the key of DSA. -/
  | dsa (p q g y : Nat)
  /-- The size, the modulus and the exponent of RSA. -/
  | rsa (size n e : Nat)
deriving DecidableEq

/-- `MPI_TO_MPZ`: the integer at an offset and the offset behind it. -/
def mpiToMpz (pk : Packet) (ofs : Nat) : Reading Status (Nat × Nat) := do
  refuse (pk.length < ofs + 2) .invalidPkt
  let len := (beNat (← read (readOctets pk.data ofs 2)) + 7) >>> 3
  refuse (pk.length < ofs + len + 2) .invalidPkt
  let octets ← read (readOctets pk.data (ofs + 2) len)
  return (beNat octets, ofs + len + 2)

/-- `onak_parse_oid` on the `len` octets at an offset. The octets that are compared are those of the
object id and its length. -/
def parseOidAt (data : List UInt8) (ofs len : Nat) : Reading Status Oid := do
  if len = 0 then
    return .invalid
  else
    let first ← read data[ofs]?
    if len ≤ first.toNat then
      return .invalid
    else
      let octets ← read (readOctets data ofs (first.toNat + 1))
      return ((oidOctets.find? fun entry => entry.2 == octets).map Prod.fst).getD .unknown

/-- The integers of a point in the branches of `onak_parse_key_material` for ECDSA: behind the object
id at `ofs` stands an integer of `bits` bits, an octet 4 and two coordinates of `n` octets, with
`total` octets in all. -/
def ecPoint (pk : Packet) (ofs total bits n : Nat) : Reading Status (Nat × Nat) := do
  refuse (sizeSub pk.length ofs ≠ total) .invalidPkt
  let oidLen ← read pk.data[ofs]?
  let ofs := ofs + (oidLen.toNat + 1)
  let len := beNat (← read (readOctets pk.data ofs 2))
  refuse (len ≠ bits) .invalidPkt
  let form ← read pk.data[ofs + 2]?
  refuse (form ≠ 4) .invalidPkt
  let x ← read (readOctets pk.data (ofs + 3) n)
  let y ← read (readOctets pk.data (ofs + 3 + n) n)
  return (beNat x, beNat y)

/-- The point of a key on one of the three curves that are supported. -/
def ecdsaPoint (pk : Packet) (ofs : Nat) (oid : Oid) : Reading Status (Nat × Nat) :=
  if oid = .nistp256 then ecPoint pk ofs 76 515 32
  else if oid = .nistp384 then ecPoint pk ofs 105 771 48
  else if oid = .nistp521 then ecPoint pk ofs 141 1059 66
  else throw .unsupportedFeature

/-- The branch of `onak_parse_key_material` for ECDSA. -/
def parseEcdsa (pk : Packet) (ofs : Nat) : Reading Status KeyMaterial := do
  let oid ← parseOidAt pk.data ofs (sizeSub pk.length ofs)
  refuse (oid = .invalid) .invalidPkt
  refuse (oid = .unknown) .unsupportedFeature
  let (x, y) ← ecdsaPoint pk ofs oid
  return .ecdsa oid x y

/-- The branch of `onak_parse_key_material` for EdDSA. -/
def parseEddsa (pk : Packet) (ofs : Nat) : Reading Status KeyMaterial := do
  refuse (sizeSub pk.length ofs ≠ 45) .invalidPkt
  let oid ← parseOidAt pk.data ofs (sizeSub pk.length ofs)
  refuse (oid = .invalid) .invalidPkt
  refuse (oid = .unknown) .unsupportedFeature
  let oidLen ← read pk.data[ofs]?
  let ofs := ofs + (oidLen.toNat + 1)
  refuse (oid ≠ .ed25519) .unsupportedFeature
  let len := beNat (← read (readOctets pk.data ofs 2))
  refuse (len ≠ 263) .invalidPkt
  let form ← read pk.data[ofs + 2]?
  refuse (form ≠ 0x40) .invalidPkt
  let octets ← read (readOctets pk.data (ofs + 3) 32)
  return .ed25519 octets

/-- The branch of `onak_parse_key_material` for DSA. -/
def parseDsa (pk : Packet) (ofs : Nat) : Reading Status KeyMaterial := do
  let (p, ofs) ← mpiToMpz pk ofs
  let (q, ofs) ← mpiToMpz pk ofs
  let (g, ofs) ← mpiToMpz pk ofs
  let (y, _) ← mpiToMpz pk ofs
  return .dsa p q g y

/-- The branch of `onak_parse_key_material` for RSA. The size is read at a fixed offset. -/
def parseRsa (pk : Packet) (ofs : Nat) : Reading Status KeyMaterial := do
  let size := (beNat (← read (readOctets pk.data 6 2)) + 7) >>> 3
  let (n, ofs) ← mpiToMpz pk ofs
  let (e, _) ← mpiToMpz pk ofs
  return .rsa size n e

/-- The `switch` of `onak_parse_key_material`. -/
def parseKeyValues (pk : Packet) (ofs : Nat) (type : UInt8) : Reading Status KeyMaterial :=
  if type = pkalgoEcdsa then parseEcdsa pk ofs
  else if type = pkalgoEddsa then parseEddsa pk ofs
  else if type = pkalgoDsa then parseDsa pk ofs
  else if type = pkalgoRsa ∨ type = pkalgoRsaEnc ∨ type = pkalgoRsaSign then parseRsa pk ofs
  else throw .unsupportedFeature

/-- `onak_parse_key_material`: the type of the key and its values. -/
def onakParseKeyMaterial (pk : Packet) : Reading Status (UInt8 × KeyMaterial) := do
  refuse (pk.length < 51) .invalidPkt
  let version ← read pk.data[0]?
  refuse (version ≠ 4 ∧ version ≠ 5) .unsupportedFeature
  let type ← read pk.data[5]?
  let key ← parseKeyValues pk (if version = 4 then 6 else 10) type
  return (type, key)

/-! ## Signature values -/

/-- The values of a signature. -/
inductive SigValues where
  /-- Those of DSA and ECDSA. -/
  | dsa (r s : Nat)
  /-- The octets of an EdDSA signature. -/
  | eddsa (edsig : List UInt8)
  /-- That of RSA. -/
  | rsa (s : Nat)
  /-- None, for another type. -/
  | none

/-- The octets of an integer, as `mpz_export` writes them: none for 0. -/
def mpzExport (v : Nat) : List UInt8 := (Nat.digits 256 v).reverse.map UInt8.ofNat

/-- A buffer after some octets were written to it. -/
def writeAt (buf : List UInt8) (i : Nat) (octets : List UInt8) : List UInt8 :=
  buf.take i ++ octets ++ buf.drop (i + octets.length)

/-- The loop that writes zeros in front of the `count` octets at the end of the half at `base`. -/
def zeroLoop (base : Nat) : Nat → Nat → List UInt8 → List UInt8
  | 0, _, edsig => edsig
  | fuel + 1, count, edsig =>
    if count < 32 then zeroLoop base fuel (count + 1) (writeAt edsig (base + 32 - (count + 1)) [0])
    else edsig

/-- Writes an integer to the half of `edsig` at `base`: its octets are moved to the end, and zeros
written in front of them. -/
def exportTo (edsig : List UInt8) (base v : Nat) : List UInt8 :=
  let octets := mpzExport v
  let count := octets.length
  let edsig := writeAt edsig base octets
  if count < 32 then
    zeroLoop base (32 - count) count
      (writeAt edsig (base + 32 - count) ((edsig.drop base).take count))
  else
    edsig

/-- The `switch` of `onak_check_hash_sig` that parses the values of a signature. -/
def sigValues (edsig : List UInt8) (sig : Packet) (sigkeytype : UInt8) (ofs : Nat) :
    Reading Status SigValues := do
  if sigkeytype = pkalgoEcdsa ∨ sigkeytype = pkalgoDsa then
    let (r, ofs) ← mpiToMpz sig ofs
    let (s, _) ← mpiToMpz sig ofs
    return .dsa r s
  else if sigkeytype = pkalgoEddsa then
    let (r, ofs) ← mpiToMpz sig ofs
    let (s, _) ← mpiToMpz sig ofs
    refuse (32 * 8 < Nat.size r ∨ 32 * 8 < Nat.size s) .invalidParam
    return .eddsa (exportTo (exportTo edsig 0 r) 32 s)
  else if sigkeytype = pkalgoRsa ∨ sigkeytype = pkalgoRsaSign then
    let (s, _) ← mpiToMpz sig ofs
    return .rsa s
  else
    return .none

/-- Where the values of a signature start, and the type of the key that made it. -/
def sigStart (sig : Packet) : Reading Status (Nat × UInt8) := do
  let version ← read sig.data[0]?
  if version = 3 then
    let hashedLen ← read sig.data[1]?
    refuse (hashedLen ≠ 5) .invalidParam
    refuse (sig.length < 19) .invalidPkt
    let sigkeytype ← read sig.data[15]?
    return (19, sigkeytype)
  else if 4 ≤ version then
    let ofs := beNat (← read (readOctets sig.data 4 2)) + 6
    refuse (sig.length < ofs + 2) .invalidPkt
    let ofs := ofs + (beNat (← read (readOctets sig.data ofs 2)) + 2)
    refuse (sig.length < ofs + 2) .invalidPkt
    let sigkeytype ← read sig.data[2]?
    return (ofs + 2, sigkeytype)
  else
    throw .unsupportedFeature

/-- What `onak_check_hash_sig` returns for a good signature of a key type and a hash type, with the size
of the digest that is checked; `none` for a combination that is not supported. -/
def keyhash (type hashtype : UInt8) : Option (Status × Nat) :=
  if type = pkalgoDsa then
    if hashtype = hashMd5 then some (.weakSignature, 16)
    else if hashtype = hashRipemd160 ∨ hashtype = hashSha1 then some (.ok, 20)
    else if hashtype = hashSha1x then some (.ok, 40)
    else if hashtype = hashSha224 then some (.ok, 28)
    else if hashtype = hashSha256 then some (.ok, 32)
    else if hashtype = hashSha384 then some (.ok, 48)
    else if hashtype = hashSha512 then some (.ok, 64)
    else none
  else if type = pkalgoEcdsa then
    if hashtype = hashSha1 then some (.ok, 20)
    else if hashtype = hashSha256 then some (.ok, 32)
    else if hashtype = hashSha384 then some (.ok, 48)
    else if hashtype = hashSha512 then some (.ok, 64)
    else none
  else if type = pkalgoEddsa then
    if hashtype = hashRipemd160 then some (.ok, 20)
    else if hashtype = hashSha256 then some (.ok, 32)
    else if hashtype = hashSha384 then some (.ok, 48)
    else if hashtype = hashSha512 then some (.ok, 64)
    else none
  else if type = pkalgoRsa then
    if hashtype = hashMd5 then some (.weakSignature, 16)
    else if hashtype = hashRipemd160 ∨ hashtype = hashSha1 then some (.ok, 20)
    else if hashtype = hashSha224 then some (.ok, 28)
    else if hashtype = hashSha256 then some (.ok, 32)
    else if hashtype = hashSha384 then some (.ok, 48)
    else if hashtype = hashSha512 then some (.ok, 64)
    else none
  else
    none

/-- `onak_check_hash_sig`. The check of the values against the digest is that of the crypto library;
`edsig` is what the buffer for an EdDSA signature holds before. -/
def onakCheckHashSig (verify : KeyMaterial → UInt8 → List UInt8 → SigValues → Bool)
    (edsig : List UInt8) (sigkey sig : Packet) (hash : List UInt8) (hashtype : UInt8) :
    Reading Status Status := do
  let (type, pubkey) ← onakParseKeyMaterial sigkey
  refuse (sig.length < 8) .invalidPkt
  let (ofs, sigkeytype) ← sigStart sig
  refuse (type ≠ sigkeytype) .invalidParam
  let values ← sigValues edsig sig sigkeytype ofs
  match keyhash (if type = pkalgoRsaSign then pkalgoRsa else type) hashtype with
  | none => throw .unsupportedFeature
  | some (good, size) =>
    return if verify pubkey hashtype (hash.take size) values then good else .badSignature

end Onak
