import Onak.WordList

/-!
# SKS marshalling

`marshal_skshash`, `marshal_string`, `marshal_array` of `marshal.c` and their counterparts, with the
character functions and the functions for the elements as parameters. A pointer that may be `NULL` is an
`Option`. Memory is always to be had, as far as it can be counted.
-/

namespace Onak

/-- `struct skshash`. -/
structure Skshash where
  /-- The 128 bit MD5 hash of the sorted packet list from the key. -/
  hash : List UInt8
  length_hash : hash.length = 16
deriving DecidableEq

/-- `ntohl`, of octets. -/
def ntohl (octets : List UInt8) : Nat := beNat octets

/-- A number of 32 bits as an `int`. -/
def toInt32 (n : Nat) : Int := if n < 2 ^ 31 then n else n - 2 ^ 32

/-- `strlen` and the octets it counts: a C string ends before its first NUL. -/
def cString (octets : List UInt8) : List UInt8 := octets.takeWhile (· ≠ 0)

/-! ## Marshalling -/

section

variable {τ : Type} (putchar : τ → List UInt8 → τ)

/-- `marshal_skshash`. -/
def marshalSkshash (t : τ) (hash : Skshash) : τ := putchar (putchar t (htonl 16)) hash.hash

/-- `marshal_string`. The length is kept in 32 bits. -/
def marshalString (t : τ) (string : List UInt8) : τ :=
  let len := (cString string).length % 2 ^ 32
  putchar (putchar t (htonl len)) ((cString string).take len)

/-- `marshal_array`. -/
def marshalArray {α : Type} (marshal : (τ → List UInt8 → τ) → τ → α → τ) (t : τ)
    (array : List α) : τ :=
  array.foldl (marshal putchar) (putchar t (htonl array.length))

end

/-! ## Unmarshalling -/

section

variable {σ : Type} (getchar : σ → Nat → List UInt8 × σ)

/-- Reads four octets as a number in network byte order. -/
def getUint32 (s : σ) : Option Nat × σ :=
  let (octets, s) := getchar s 4
  (if octets.length ≠ 4 then none else some (ntohl octets), s)

/-- The octets of a hash that was cleared before they were read into it. -/
def Skshash.ofOctets (octets : List UInt8) (h : octets.length ≤ 16) : Skshash where
  hash := octets ++ List.replicate (16 - octets.length) 0
  length_hash := by
    rw [List.length_append, List.length_replicate]
    omega

theorem length_le_of_eq {octets : List UInt8} {len : Nat} (h : octets.length = len)
    (hlen : ¬ 16 < len) : octets.length ≤ 16 := by
  omega

/-- `unmarshal_skshash`. -/
def unmarshalSkshash (s : σ) : Option (Option Skshash × σ) :=
  match getUint32 getchar s with
  | (none, s) => some (none, s)
  | (some len, s) =>
    if hlen : 16 < len then
      some (none, s)
    else
      let (octets, s) := getchar s len
      if h : octets.length = len then
        some (some (Skshash.ofOctets octets (length_le_of_eq h hlen)), s)
      else
        some (none, s)

/-- `unmarshal_string`: the octets that a terminator is put behind. The size to be allocated is
counted in 32 bits, so that for the greatest length there is no memory at all: what is read then is
written where it does not belong, for which there is no result. -/
def unmarshalString (s : σ) : Option (Option (List UInt8) × σ) :=
  match getUint32 getchar s with
  | (none, s) => some (none, s)
  | (some len, s) =>
    if (len + 1) % 2 ^ 32 = 0 then
      none
    else
      let (string, s) := getchar s len
      if string.length ≠ len then some (none, s) else some (some string, s)

section

variable {α : Type} (unmarshal : (σ → Nat → List UInt8 × σ) → σ → Option (Option α × σ))

/-- The loop of `unmarshal_array`. -/
def unmarshalElems : Nat → σ → Option (List (Option α) × σ)
  | 0, s => some ([], s)
  | n + 1, s => do
    let (elem, s) ← unmarshal getchar s
    let (array, s) ← unmarshalElems n s
    return (elem :: array, s)

/-- `unmarshal_array`: the size and the elements. A size from `2 ^ 31` on is negative as an `int`. For
it `calloc` is asked for more octets than can be counted, and gives `NULL`. -/
def unmarshalArray (s : σ) : Option (Option (Int × List (Option α)) × σ) :=
  match getUint32 getchar s with
  | (none, s) => some (none, s)
  | (some len, s) =>
    if toInt32 len < 0 then
      some (none, s)
    else do
      let (array, s) ← unmarshalElems getchar unmarshal (toInt32 len).toNat s
      return (some (toInt32 len, array), s)

end

end

end Onak
