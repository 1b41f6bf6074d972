import Onak.Framing
import Onak.KeyId

/-!
# The keyring file backend

`keyring_parse_keys`, `keyring_fetch_key_idx` and `keyring_iterate_keys` of `keydb_keyring.c`. The
file is mapped into memory; a read outside of it, or through a null pointer, gives `none`. The
pointer to a key is a list of keys, `NULL` the empty one.
-/

namespace Onak

open Source

/-- An entry of the index. -/
structure KeyringEntry where
  /-- The fingerprint of the key. -/
  fp : Fingerprint
  /-- Where the key starts in the file. -/
  start : Nat
  /-- The number of octets of its packets. -/
  len : Nat

/-- The tag of the packet that starts in front of `file`, and the number of its octets. For an old
format packet of indeterminate length the length `len` of the packet before it is left as it is. -/
def keyringPacket (len : Nat) (file : List UInt8) : Option (Nat × Nat) := do
  let c ← file[0]?
  if c &&& 0x40 ≠ 0 then
    let tag := (c &&& 0x3F).toNat
    let first ← file[1]?
    if 191 < first ∧ first < 224 then
      let second ← file[2]?
      return (tag, ((first.toNat - 192) <<< 8) + second.toNat + 192 + 1 + 2)
    else if 223 < first ∧ first < 255 then
      return (tag, first.toNat + 2)
    else if first = 255 then
      return (tag, beNat (← readOctets file 2 4) + 4 + 2)
    else
      return (tag, first.toNat + 2)
  else
    let tag := ((c &&& 0x3C) >>> 2).toNat
    if c &&& 3 = 0 then
      return (tag, beNat (← readOctets file 1 1) + 2)
    else if c &&& 3 = 1 then
      return (tag, beNat (← readOctets file 1 2) + 3)
    else if c &&& 3 = 2 then
      return (tag, beNat (← readOctets file 1 4) + 5)
    else
      return (tag, len)

section

variable (H : Hashes) (past : List Packet → UInt8) (pastSig : List PublicKey → Nat → UInt8)

/-- What `read_openpgp_stream` and `parse_keys` make of a buffer, behind the keys of a list. There
are at most as many packets as octets. -/
def readKeys (octets : List UInt8) (publickey : List PublicKey) : List PublicKey :=
  match readOpenpgpStream buffer past (octets.length + 1) octets [] 0 with
  | none => publickey
  | some r => (parseKeys pastSig r.packets publickey).keys

variable (file : List UInt8)

/-- `keyring_fetch_key_idx`: what it returns, and the keys. -/
def keyringFetchKeyIdx (keys : List KeyringEntry) (index : Nat) (publickey : List PublicKey) :
    Option (Nat × List PublicKey) :=
  if keys.length < index then
    some (0, publickey)
  else do
    let entry ← keys[index]?
    return (1, readKeys past pastSig ((file.drop entry.start).take entry.len) publickey)

/-- The variables of `keyring_parse_keys`. -/
structure KeyringWalk where
  /-- The length of the packet. -/
  len : Nat
  /-- The place in the file. -/
  pos : Nat
  /-- Where the current key starts. -/
  start : Nat
  /-- The length of the current key so far. -/
  totlen : Nat
  /-- The index so far. -/
  keys : List KeyringEntry
  /-- The key that is fetched to calculate its fingerprint. -/
  key : List PublicKey

/-- Adds the key that ends at the place in the file to the index. -/
def keyringAdd (w : KeyringWalk) : Option KeyringWalk := do
  let keys := w.keys ++ [⟨[], w.start, w.totlen⟩]
  let (_, key) ← keyringFetchKeyIdx past pastSig file keys (keys.length - 1) w.key
  let first ← key.head?
  let (_, fp) ← getFingerprint H first.publickey
  return { w with keys := w.keys ++ [⟨fp, w.start, w.totlen⟩], key := [] }

/-- What is done when a packet with some tag starts: the key before it, if any, is added, and a new
one begins. -/
def keyringTag (tag : Nat) (w : KeyringWalk) : Option KeyringWalk :=
  if tag = tagPublickey then do
    let w ← if 0 < w.totlen then keyringAdd H past pastSig file w else some w
    return { w with start := w.pos, totlen := 0 }
  else
    some w

/-- The loop of `keyring_parse_keys`, in at most `fuel` rounds. -/
def keyringLoop : Nat → KeyringWalk → Option (List KeyringEntry)
  | 0, _ => none
  | fuel + 1, w =>
    if 5 < sizeSub file.length w.pos then do
      let c ← file[w.pos]?
      if c &&& 0x80 ≠ 0 then
        let (tag, len) ← keyringPacket w.len (file.drop w.pos)
        let w ← keyringTag H past pastSig file tag w
        keyringLoop fuel { w with len := len, totlen := w.totlen + len, pos := w.pos + len }
      else
        return w.keys
    else
      some w.keys

/-- `keyring_parse_keys`. The pointer `key` is not initialised: it is taken for a list `stale` of
keys that happens to lie in memory. -/
def keyringParseKeys (stale : List PublicKey) (fuel : Nat) : Option (List KeyringEntry) :=
  keyringLoop H past pastSig file fuel ⟨0, 0, 0, 0, [], stale⟩

/-- `keyring_iterate_keys`: what `iterfunc` is called with. -/
def keyringIterateKeys (keys : List KeyringEntry) : Option (List (List PublicKey)) :=
  ((List.range keys.length).mapM fun i => keyringFetchKeyIdx past pastSig file keys i []).map
    fun fetched => (fetched.filter fun r => r.1 ≠ 0).map Prod.snd

/-- The index agrees with the stream reader: the keys that are delivered are those in the file, one
by one, and the fingerprints in the index are theirs. -/
def KeyringAgrees (stale : List PublicKey) (fuel : Nat) : Prop :=
  ∃ keys, keyringParseKeys H past pastSig file stale fuel = some keys ∧
    keyringIterateKeys past pastSig file keys =
      some ((readKeys past pastSig file []).map fun key => [key]) ∧
    keys.map (fun entry => some entry.fp) =
      (readKeys past pastSig file []).map fun key => fingerprint? H key.publickey

end

/-- A file that holds the packets of one or more keys, each in any of the encodings that
`read_openpgp_stream` supports. -/
structure KeyringFile (keys : List PublicKey) (file : List UInt8) : Prop where
  ne_nil : keys ≠ []
  wellTagged : ∀ key ∈ keys, key.WellTagged
  version : ∀ p ∈ flattenPublickey keys, p.tag ∈ versionedTags →
    ∃ v, p.data.head? = some v ∧ versionSane p.tag v
  words : PrefixCode.Words Framed (flattenPublickey keys) file

end Onak
