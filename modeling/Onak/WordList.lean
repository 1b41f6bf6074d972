import Onak.KeyDb
import Onak.ParseKey

/-!
# What a key is indexed under

`keyuids` of `decodekey.c`, `makewordlist` and `makewordlistfromkey` of `wordlist.c` and
`get_skshash` of `keyid.c`. No program of the repository sets a locale, so `ispunct`, `isspace` and
`tolower` are those of the C locale. A C string is the list of its octets up to the terminator.
-/

namespace Onak

/-- A word of the index. -/
abbrev Word := List UInt8

/-- `ispunct(c) || isspace(c)`. -/
def isDelim (c : UInt8) : Bool :=
  (33 ≤ c && c ≤ 47) || (58 ≤ c && c ≤ 64) || (91 ≤ c && c ≤ 96) || (123 ≤ c && c ≤ 126) ||
    (9 ≤ c && c ≤ 13) || c == 32

/-- `tolower`. -/
def tolower (c : UInt8) : UInt8 := if 65 ≤ c ∧ c ≤ 90 then c + 32 else c

/-- `lladdend`, unless `llfind` finds the word. -/
def addWord (wordlist : List Word) (word : Word) : List Word :=
  if wordlist.contains word then wordlist else wordlist ++ [word]

/-- The loop of `makewordlist`. Each round uses up at least one octet of the string, so there are at
most as many rounds as octets. -/
def makewordlistLoop : Nat → List Word → List UInt8 → List Word
  | 0, wordlist, _ => wordlist
  | _ + 1, wordlist, [] => wordlist
  | fuel + 1, wordlist, c :: s =>
    let start := (c :: s).dropWhile isDelim
    let word := (start.takeWhile (!isDelim ·)).map tolower
    let rest := start.dropWhile (!isDelim ·)
    if 1 < word.length then
      -- the delimiter behind the word is overwritten by a terminator and skipped
      makewordlistLoop fuel (addWord wordlist word) (rest.drop 1)
    else
      makewordlistLoop fuel wordlist rest

/-- `makewordlist`. -/
def makewordlist (wordlist : List Word) (words : List UInt8) : List Word :=
  makewordlistLoop words.length wordlist words

/-- What `makewordlist` is for: the runs of more than one octet between delimiters, in lower
case. -/
def wordsOf (words : List UInt8) : List Word :=
  ((words.splitOnP isDelim).filter fun w => 1 < w.length).map fun w => w.map tolower

/-- `keyuids`: the user ids as C strings, each cut to the 1022 octets that `snprintf` leaves room
for. User attributes are skipped. -/
def keyuids (key : PublicKey) : List (List UInt8) :=
  (key.uids.filter fun sp => sp.packet.tag = tagUid).map fun sp =>
    (sp.packet.data.takeWhile (· ≠ 0)).take 1022

/-- The words of a key as the db4 backend collects them, in one list from user id to user id. -/
def keywords (key : PublicKey) : List Word := (keyuids key).foldl makewordlist []

/-- `makewordlistfromkey`: a list for each user id, whose words are added in front. -/
def makewordlistfromkey (wordlist : List Word) (key : PublicKey) : List Word :=
  (keyuids key).foldl (fun wordlist uid =>
    (makewordlist [] uid).foldl (fun wordlist word =>
      if wordlist.contains word then wordlist else word :: wordlist) wordlist) wordlist

/-! ## The SKS hash -/

/-- `htonl`, as octets. -/
def htonl (n : Nat) : List UInt8 :=
  [UInt8.ofNat (n >>> 24), UInt8.ofNat (n >>> 16), UInt8.ofNat (n >>> 8), UInt8.ofNat n]

/-- One round of `sortpackets`: the packet goes in front of the first one that is not less. -/
def insertPacket (sorted : List Packet) (packet : Packet) : List Packet :=
  sorted.takeWhile (fun cur => comparePackets cur packet < 0) ++
    packet :: sorted.dropWhile (fun cur => comparePackets cur packet < 0)

/-- `sortpackets`. -/
def sortpackets (packets : List Packet) : List Packet := packets.foldl insertPacket []

/-- The octets that `get_skshash` hashes. -/
def skshashPreimage (key : PublicKey) : List UInt8 :=
  (sortpackets (flattenKey key)).flatMap fun packet =>
    htonl packet.tag ++ htonl packet.length ++ packet.data

/-- `get_skshash`. -/
def getSkshash (H : Hashes) (key : PublicKey) : List UInt8 := H.md5 (skshashPreimage key)

end Onak
