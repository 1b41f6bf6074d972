import Onak.Armor
import Onak.KeyDb
import Onak.KeydSocket
import Onak.Lib.Print

/-!
# Keys from another keyserver

The operations of `keydb/keydb_hkp.c`. The requests go out through libcurl and the replies come in
through it; of its functions only `curl_easy_escape` is called here. A write outside of an array has
no meaning. The buffer that a reply is gathered in is allocated without being cleared.
-/

namespace Onak.Hkp

open Print
open Socket (Memory maxFingerprintLen)

/-! ## The location -/

/-- `[a-z]`. -/
def protoChar (c : UInt8) : Bool := 'a'.toUInt8 ≤ c ∧ c ≤ 'z'.toUInt8

/-- `[a-zA-Z0-9.-]`. -/
def hostChar (c : UInt8) : Bool :=
  'a'.toUInt8 ≤ c ∧ c ≤ 'z'.toUInt8 ∨ 'A'.toUInt8 ≤ c ∧ c ≤ 'Z'.toUInt8 ∨
    '0'.toUInt8 ≤ c ∧ c ≤ '9'.toUInt8 ∨ c = '.'.toUInt8 ∨ c = '-'.toUInt8

/-- `:%u`, which leaves the port at 0 where it does not match. A number that does not fit has no
meaning. -/
def scanPort (s : List UInt8) : Option Nat :=
  if s.head? = some ':'.toUInt8 then do
    let number := (s.drop 1).dropWhile fun c => c = ' '.toUInt8 ∨ 9 ≤ c ∧ c ≤ 13
    let sign := number.getD 0 0
    let number := if sign = '-'.toUInt8 ∨ sign = '+'.toUInt8 then number.drop 1 else number
    let digits := number.takeWhile fun c => '0'.toUInt8 ≤ c ∧ c ≤ '9'.toUInt8
    let port : Nat := digits.foldl (fun n c => 10 * n + (c.toNat - 48)) 0
    guard (port < 2 ^ 32)
    return if sign = '-'.toUInt8 then (2 ^ 32 - port) % 2 ^ 32 else port
  else
    some 0

/-- `%256[a-zA-Z0-9.-]:%u`: the host and the port. `host` has room for 255 characters. -/
def scanHost (s : List UInt8) : Option (List UInt8 × Nat) := do
  let host := (s.take 256).takeWhile hostChar
  guard (host.length < 256)
  if host = [] then
    return (host, 0)
  else
    let port ← scanPort (s.drop host.length)
    return (host, port)

/-- The base of the URLs for a protocol, a host and a port. -/
def hkpbase (proto host : List UInt8) (port : Nat) : Option (List UInt8) :=
  let url := fun proto port =>
    proto ++ (ascii "://" ++ (host ++ ':'.toUInt8 :: (decimal port ++ ascii "/pks")))
  if host = [] then
    none
  else if proto = [] ∨ proto = ascii "hkp" then
    some (url (ascii "http") (if port = 0 then 11371 else port))
  else if proto = ascii "hkps" then
    some (url (ascii "https") (if port = 0 then 11372 else port))
  else if proto ≠ ascii "http" ∧ proto ≠ ascii "https" then
    none
  else if port = 0 then
    some (proto ++ (ascii "://" ++ (host ++ ascii "/pks")))
  else
    some (url proto port)

/-- `%5[a-z]`. -/
def scanProto (url : List UInt8) : List UInt8 := (url.take 5).takeWhile protoChar

/-- `%5[a-z]://%256[a-zA-Z0-9.-]:%u`: the host and the port. The host stays empty where it is not
reached. -/
def scanUrl (url : List UInt8) : Option (List UInt8 × Nat) :=
  let behind := url.drop (scanProto url).length
  if scanProto url ≠ [] ∧ behind.take 3 = ascii "://" then scanHost (behind.drop 3) else some ([], 0)

/-- `hkp_parse_url`: the base, if it does not fail. -/
def hkpParseUrl (url : List UInt8) : Option (Option (List UInt8)) := do
  let first ← scanUrl url
  if first.1 ≠ [] then
    return hkpbase (scanProto url) first.1 first.2
  else
    let second ← scanHost url
    return hkpbase [] second.1 second.2

/-! ## Fetching -/

/-- `struct buffer_ctx` while it is filled: what has been put into it, and its size. -/
structure Buffer where
  text : List UInt8
  size : Nat

/-- The size that `buffer_putchar` grows a buffer to. The loop does not end for a buffer without any
room. -/
def growSize (size need : Nat) : Nat :=
  if 0 < size ∧ size < need then growSize (2 * size) need else size
termination_by need - size

/-- `buffer_putchar`. -/
def Buffer.put (buffer : Buffer) (c : List UInt8) : Buffer where
  text := buffer.text ++ c
  size := growSize buffer.size (buffer.text.length + c.length)

/-- The buffer that a reply is gathered in, piece by piece. -/
def gathered (reply : List (List UInt8)) : Buffer := reply.foldl Buffer.put ⟨[], 8192⟩

/-- `hkp_fetch_key_url`, for a reply that comes in pieces, if any comes. The whole buffer is dearmored,
with what lies in it behind the reply. -/
def hkpFetchKeyUrl (memory : Memory) (behind : Nat → UInt8) (reply : Option (List (List UInt8)))
    (publickey : List PublicKey) : Int × List PublicKey :=
  match reply with
  | none => (0, publickey)
  | some reply =>
    let buffer := gathered reply
    let text := buffer.text ++ (List.range (buffer.size - buffer.text.length)).map behind
    let parsed := parseKeys memory.sig (dearmoredPackets memory.packet text) publickey
    (parsed.ret, parsed.keys)

/-- The URL of `hkp_fetch_key_fp`, unless it returns at once. -/
def fpUrl (hkpbase : List UInt8) (fingerprint : Fingerprint) : Option (List UInt8) :=
  if maxFingerprintLen < fingerprint.length then
    none
  else
    let keyurl := hkpbase ++ ascii "/lookup?op=get&search=0x"
    if 1024 < keyurl.length + fingerprint.length * 2 + 1 then none
    else some (keyurl ++ fingerprint.flatMap hexOctet)

/-- `%08PRIX64`. -/
def hexKeyid (keyid : UInt64) : List UInt8 :=
  let digits := (hex 16 keyid.toNat).dropWhile (· = '0'.toUInt8)
  List.replicate (8 - digits.length) '0'.toUInt8 ++ digits

/-- The URL of `hkp_fetch_key_id`. -/
def idUrl (hkpbase : List UInt8) (keyid : UInt64) : List UInt8 :=
  (hkpbase ++ (ascii "/lookup?op=get&search=0x" ++ hexKeyid keyid)).take 1023

/-- `hkp_fetch_key_fp`, with what the requests bring back. -/
def hkpFetchKeyFp (memory : Memory) (behind : Nat → UInt8) (hkpbase : List UInt8)
    (get : List UInt8 → Option (List (List UInt8))) (fingerprint : Fingerprint)
    (publickey : List PublicKey) : Int × List PublicKey :=
  match fpUrl hkpbase fingerprint with
  | none => (0, publickey)
  | some keyurl => hkpFetchKeyUrl memory behind (get keyurl) publickey

/-- `hkp_fetch_key_id`, with what the requests bring back. -/
def hkpFetchKeyId (memory : Memory) (behind : Nat → UInt8) (hkpbase : List UInt8)
    (get : List UInt8 → Option (List (List UInt8))) (keyid : UInt64) (publickey : List PublicKey) :
    Int × List PublicKey :=
  hkpFetchKeyUrl memory behind (get (idUrl hkpbase keyid)) publickey

/-! ## Storing -/

/-- What `hkp_store_key` posts for a key list: all keys of the list, from the one that is to be stored
to the last. -/
def addform (escape : List UInt8 → List UInt8) (publickey : List PublicKey) : List UInt8 :=
  (escape (ascii "keytextz" ++ armorOpenpgpStream (flattenPublickey publickey))).set 7 '='.toUInt8

end Onak.Hkp
