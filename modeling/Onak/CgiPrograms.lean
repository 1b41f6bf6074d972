import Onak.Armor
import Onak.Cgi
import Onak.KeydSocket
import Onak.Upload

/-!
# The CGI programs

`main` of `cgi/add.c`, and `main` of `cgi/lookup.c` as far as it hands out keys. What is logged is left
out, and so is what `add` prints; an output is what a program writes to its standard output. A program
whose database does not open is left out.
-/

namespace Onak.Cgi

open Print
open Socket (Memory Query)

/-- The policies of a configuration. -/
def policiesOf (config : Conf.Config) : Policies where
  checkSighash := config.cleanPolicies .checkSighash
  largePackets := config.cleanPolicies .largePackets
  verifySignatures := config.cleanPolicies .verifySignatures
  needOtherSig := config.cleanPolicies .needOtherSig
  capUids := config.cleanPolicies .capUids
  capUats := config.cleanPolicies .capUats
  maxSigsPerUid := (config.number .maxSigsPerUid).toNat
  maxSigsPerUat := (config.number .maxSigsPerUat).toNat

/-- The keys that `parse_keys` takes from the packets of a text. -/
def dearmoredKeys (memory : Memory) (text : List UInt8) : List PublicKey :=
  (parseKeys memory.sig (dearmoredPackets memory.packet text) []).keys

/-! ## Adding keys -/

/-- The loop of `add` over its parameters: the last `keytext` is taken. -/
def keytext (params : List (List UInt8 × List UInt8)) : Option (List UInt8) :=
  params.foldl (fun buffer param => if param.1 = ascii "keytext" then some param.2 else buffer) none

section

variable (H : Hashes) (g : Stale) (C : SigCheck) {B : Backend} (D : B.DB → Lookups)
  (config : Conf.Config) (memory : Memory)

/-- What `add` makes of the text it has been sent. -/
def addText (db : B.DB) (text : List UInt8) : B.DB :=
  if dearmoredPackets memory.packet text = [] then
    db
  else
    upload H g C D db
      { keys := dearmoredKeys memory text
        policies := policiesOf config
        blacklist := config.blacklist
        updateonly := config.cleanPolicies .updateOnly
        sendsync := true }

/-- `main` of `cgi/add.c`. -/
def add (env : Environment) (db : B.DB) : Option B.DB := do
  match ← getcgivars env with
  | .null | .exit => return db
  | .list params =>
    match keytext params with
    | none => return db
    | some text => return addText H g C D config memory db text

end

/-! ## Looking keys up -/

/-- `isxdigit`, with the value of the digit. -/
def xdigit (c : UInt8) : Option Nat :=
  if '0'.toUInt8 ≤ c ∧ c ≤ '9'.toUInt8 then some (c.toNat - 48)
  else if 'a'.toUInt8 ≤ c ∧ c ≤ 'f'.toUInt8 then some (c.toNat - 87)
  else if 'A'.toUInt8 ≤ c ∧ c ≤ 'F'.toUInt8 then some (c.toNat - 55)
  else none

/-- The digits that `strtoull` reads in base 16, and what is left behind them. -/
def hexDigits : List UInt8 → List Nat × List UInt8
  | [] => ([], [])
  | c :: s =>
    match xdigit c with
    | none => ([], c :: s)
    | some v => (v :: (hexDigits s).1, (hexDigits s).2)

/-- `strtoull` in base 16: the value, and what is left of the string. -/
def strtoull (s : List UInt8) : UInt64 × List UInt8 :=
  let digits := s.dropWhile Conf.isspace
  let sign := digits.getD 0 0
  let digits := if sign = '-'.toUInt8 ∨ sign = '+'.toUInt8 then digits.drop 1 else digits
  let digits :=
    if (digits.take 2 = ascii "0x" ∨ digits.take 2 = ascii "0X") ∧ (xdigit (digits.getD 2 0)).isSome
    then digits.drop 2 else digits
  let (digits, rest) := hexDigits digits
  let n := digits.foldl (fun n v => 16 * n + v) 0
  if digits = [] then (0, s)
  else if 2 ^ 64 ≤ n then (UInt64.ofNat (2 ^ 64 - 1), rest)
  else (if sign = '-'.toUInt8 then 0 - UInt64.ofNat n else UInt64.ofNat n, rest)

/-- `hexdigit`. -/
def hexdigit (c : UInt8) : UInt8 := UInt8.ofNat ((xdigit c).getD 0)

/-- `parse_skshash`, with what the hash holds before. The character behind the search is its zero. -/
def parseSkshash (search hash : List UInt8) : List UInt8 :=
  if 32 < search.length then
    hash
  else
    (List.range hash.length).map fun i =>
      if 2 * i < search.length then
        hexdigit (search.getD (2 * i) 0) <<< 4 + hexdigit (search.getD (2 * i + 1) 0)
      else hash.getD i 0

/-- What `lookup` is asked to do. -/
inductive LookupOp where
  | unknown
  | get
  | index
  | vindex
  | photo
  | hget
deriving DecidableEq

/-- The variables that `lookup` sets from its parameters. -/
structure LookupParams where
  op : LookupOp
  search : Option (List UInt8)
  ishex : Bool
  isfp : Bool
  keyid : UInt64
  fingerprint : Fingerprint
  indx : Int
  dispfp : Bool
  skshash : Bool
  exact : Bool
  mrhkp : Bool

/-- The variables before the parameters are read. The fingerprint is not read before it is set. -/
def lookupStart : LookupParams :=
  ⟨.unknown, none, false, false, 0, [], 0, false, false, false, false⟩

/-- The octets behind `0x`, for a fingerprint of that length. -/
def searchFp (search : List UInt8) (length : Nat) : Fingerprint :=
  (List.range length).map fun j =>
    Conf.hex2bin (search.getD (2 + j * 2) 0) <<< 4 + Conf.hex2bin (search.getD (3 + j * 2) 0)

/-- `lookup` gets something to search for. -/
def LookupParams.setSearch (params : LookupParams) (search : List UInt8) : LookupParams :=
  let params := { params with search := some search }
  if search.length = 42 ∧ search.take 2 = ascii "0x" then
    { params with fingerprint := searchFp search 20, isfp := true }
  else if search.length = 66 ∧ search.take 2 = ascii "0x" then
    { params with fingerprint := searchFp search 32, isfp := true }
  else
    let (keyid, rest) := strtoull search
    { params with keyid, ishex := params.ishex || (search ≠ [] && rest = []) }

/-- The operation of a name, if there is one. -/
def lookupOp (name : List UInt8) (op : LookupOp) : LookupOp :=
  if name = ascii "get" then .get
  else if name = ascii "hget" then .hget
  else if name = ascii "index" then .index
  else if name = ascii "vindex" then .vindex
  else if name = ascii "photo" then .photo
  else op

/-- `lookup` reads one parameter. -/
def LookupParams.set (params : LookupParams) (param : List UInt8 × List UInt8) : LookupParams :=
  let (name, value) := param
  let on := value = ascii "on"
  if name = ascii "op" then { params with op := lookupOp value params.op }
  else if name = ascii "search" then params.setSearch value
  else if name = ascii "idx" then { params with indx := Conf.atoi value }
  else if name = ascii "fingerprint" then { params with dispfp := params.dispfp || on }
  else if name = ascii "hash" then { params with skshash := params.skshash || on }
  else if name = ascii "exact" then { params with exact := params.exact || on }
  else if name = ascii "options" then { params with mrhkp := params.mrhkp || value = ascii "mr" }
  else params

/-- The lookup that `lookup` makes to hand out keys. The hash is not set before it is parsed. -/
def LookupParams.query (params : LookupParams) (search hash : List UInt8) : Query :=
  if params.op = .hget then .fetchKeySkshash (parseSkshash search hash)
  else if params.ishex then .fetchKeyId params.keyid
  else if params.isfp then .fetchKeyFp params.fingerprint
  else .fetchKeyText search

/-- `puts`. -/
def puts (s : String) : List UInt8 := ascii s ++ ['\n'.toUInt8]

section

variable (H : Hashes) (g : Stale) (C : SigCheck) {DB : Type} (D : DB → Lookups)
  (fetch : DB → Query → Int × List PublicKey) (config : Conf.Config)

/-- The headers of a download. -/
def downloadHeaders (publickey : PublicKey) : Option (List UInt8) := do
  let (status, fp) ← getFingerprint H publickey.publickey
  if status = .ok then
    return ascii "Content-Type: application/pgp-keys\nContent-Disposition: attachment; filename=\"0x" ++
      (fp.flatMap hexOctet ++ ascii ".asc\"\n\n")
  else
    return puts "Content-Type: application/pgp-keys\n"

/-- What `lookup` does with the result of its lookup. If keys are announced but none are there, it
reads through a null pointer. -/
def handOut (db : DB) (found : Int × List PublicKey) : Option (List UInt8) :=
  if found.1 = 0 then
    some (puts "Content-Type: text/plain\n" ++ puts "Key not found")
  else
    match found.2 with
    | [] => none
    | publickey :: keys =>
      (downloadHeaders H publickey).map (· ++ armorOpenpgpStream
        (flattenPublickey (cleankeys H g C (D db) (policiesOf config) (publickey :: keys)).1))

/-- What `lookup` prints for a request to hand out keys. -/
def lookupDownload (db : DB) (params : LookupParams) (hash : List UInt8) : Option (List UInt8) :=
  let mr := if params.mrhkp then puts "Content-Type: text/plain\n" else []
  match params.search with
  | none =>
    some (mr ++ (puts "Content-Type: text/plain\n" ++ puts "Error: No key to search for supplied."))
  | some search =>
    (handOut H g C D config db (fetch db (params.query search hash))).map (mr ++ ·)

/-- `main` of `cgi/lookup.c`, for the requests to hand out keys. -/
def lookup (db : DB) (hash : List UInt8) (env : Environment) : Option (List UInt8) := do
  match ← getcgivars env with
  | .exit | .null => none
  | .list vars =>
    let params := vars.foldl LookupParams.set lookupStart
    guard (params.op = .get ∨ params.op = .hget)
    let page ← lookupDownload H g C D fetch config db params hash
    return puts "Access-Control-Allow-Origin: *" ++ page

end

end Onak.Cgi
