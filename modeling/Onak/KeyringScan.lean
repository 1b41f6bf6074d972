import Onak.Keyring
import Onak.Lib.Loops

/-!
# The scan of a keyring file

The loop of `keyring_parse_keys` as far as it depends on the file alone: where it reads, and which
ranges it records. The fingerprints, for which the keys are parsed, have no part in that.
-/

namespace Onak

/-- The variables of the scan. -/
structure KeyringScan where
  /-- The length of the packet. -/
  len : Nat
  /-- The place in the file. -/
  pos : Nat
  /-- Where the current key starts. -/
  start : Nat
  /-- The length of the current key so far. -/
  totlen : Nat
  /-- The ranges of the keys in the index, by start and length. -/
  ranges : List (Nat × Nat)
deriving DecidableEq

/-- The variables at the start. -/
def keyringScanStart : KeyringScan := ⟨0, 0, 0, 0, []⟩

/-- What is done when a packet with some tag starts. -/
def KeyringScan.tag (tag : Nat) (s : KeyringScan) : KeyringScan :=
  if tag = tagPublickey then
    { s with
      ranges := if 0 < s.totlen then s.ranges ++ [(s.start, s.totlen)] else s.ranges
      start := s.pos
      totlen := 0 }
  else
    s

/-- A round. The number of octets that are left is a `size_t`: behind the end it wraps around. -/
def keyringScanRound (file : List UInt8) (s : KeyringScan) : Option (Option KeyringScan) :=
  if 5 < sizeSub file.length s.pos then do
    let c ← file[s.pos]?
    if c &&& 0x80 ≠ 0 then
      let (tag, len) ← keyringPacket s.len (file.drop s.pos)
      let s := s.tag tag
      return some { s with len := len, totlen := s.totlen + len, pos := s.pos + len }
    else
      return none
  else
    some none

/-- Indexing is safe: the scan comes to an end, and in every state that it reaches it reads nothing
outside of the file, steps over one packet, and has recorded no range that is not inside. -/
structure ScansSafely (file : List UInt8) : Prop where
  terminates : Loops.Terminates (keyringScanRound file) keyringScanStart
  reads : ∀ {s}, Loops.Reaches (keyringScanRound file) keyringScanStart s →
    keyringScanRound file s ≠ none
  steps : ∀ {s s'}, Loops.Reaches (keyringScanRound file) keyringScanStart s →
    Loops.Step (keyringScanRound file) s s' →
    ∃ p l, Framed p l ∧ l <+: file.drop s.pos ∧ s'.pos = s.pos + l.length
  records : ∀ {s}, Loops.Reaches (keyringScanRound file) keyringScanStart s →
    ∀ range ∈ s.ranges, range.1 + range.2 ≤ file.length

/-- A file of whole packets in the supported formats, up to the end or to something else: no more than
five octets, or an octet that starts no packet. -/
def PacketFile (file : List UInt8) : Prop :=
  ∃ ps l rest, file = l ++ rest ∧ PrefixCode.Words Framed ps l ∧
    (rest.length ≤ 5 ∨ ∀ c ∈ rest.head?, c &&& 0x80 = 0)

end Onak
