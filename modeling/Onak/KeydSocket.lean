import Onak.KeyDb
import Onak.ParseKey
import Onak.Lib.Source
import Onak.Lib.Duplex
import Onak.Lib.Runs
import Mathlib.Data.List.AList

/-!
# The keyd connection

The client backend of `keydb_keyd.c` and `sock_do` of `keyd.c` as programs that exchange octets.
Every `read` and `write` completes, so a loop that reads a message in pieces reads it in one, and a
client waits for what a server that has closed the connection does not send any more. Both ends are
on one host and agree on the sizes of its types. What the client functions return besides the keys
is left out, and so are the statistics, which are only sent.
-/

namespace Onak.Socket

open Duplex Source

/-! ## Numbers in memory -/

/-- The byte order of the host. -/
inductive ByteOrder where
  | little
  | big
deriving DecidableEq

/-- A number in `n` octets, the most significant first. -/
def bigOctets : Nat → Nat → List UInt8
  | 0, _ => []
  | n + 1, v => bigOctets n (v / 256) ++ [UInt8.ofNat v]

/-- A number as it lies in memory. -/
def ByteOrder.octets (order : ByteOrder) (n v : Nat) : List UInt8 :=
  match order with
  | .little => (bigOctets n v).reverse
  | .big => bigOctets n v

/-- The number that lies in memory. -/
def ByteOrder.number (order : ByteOrder) (l : List UInt8) : Nat :=
  match order with
  | .little => beNat l.reverse
  | .big => beNat l

/-- An unsigned 64 bit number as a signed one. -/
def toSsize (n : Nat) : Int := if n < 2 ^ 63 then n else n - 2 ^ 64

/-- A signed number as an unsigned 64 bit one. -/
def toSize (n : Int) : Nat := (n % 2 ^ 64).toNat

/-- `MAX_FINGERPRINT_LEN`. -/
abbrev maxFingerprintLen : Nat := 32

/-- What lies in memory where the program reads behind its data. -/
structure Memory where
  /-- Behind a packet without data. -/
  packet : List Packet → UInt8
  /-- Behind a short signature. -/
  sig : List PublicKey → Nat → UInt8
  /-- Behind a short fingerprint in its array. -/
  fp : Nat → UInt8

/-- The host that client and server run on. -/
structure Host where
  /-- Its byte order. -/
  order : ByteOrder
  /-- The memory of the client. -/
  client : Memory
  /-- The memory of the server. -/
  server : Memory

/-! ## Commands -/

/-- `enum keyd_ops`. -/
inductive KeydOp where
  | unknown
  | version
  | getId
  | store
  | delete
  | getText
  | getfullkeyid
  | keyiter
  | close
  | quit
  | stats
  | getSkshash
  | getFp
  | update
  | get
deriving DecidableEq

/-- The commands in the order of their numbers. -/
def keydOps : List KeydOp :=
  [.unknown, .version, .getId, .store, .delete, .getText, .getfullkeyid, .keyiter, .close, .quit,
    .stats, .getSkshash, .getFp, .update, .get]

/-- The number of a command. -/
def KeydOp.toNat (op : KeydOp) : Nat := keydOps.idxOf op

/-- `KEYD_REPLY_OK`. -/
def keydReplyOk : Nat := 0

/-- `KEYD_REPLY_UNKNOWN_CMD`. -/
def keydReplyUnknownCmd : Nat := 1

/-- `keyd_version`. -/
def keydVersion : Nat := 5

/-! ## Keys as octets -/

/-- What `flatten_publickey` and `write_openpgp_stream` put into a buffer. -/
def keyOctets (keys : List PublicKey) : List UInt8 :=
  (writeOpenpgpStream (· ++ ·) [] (flattenPublickey keys)).2

/-- What `read_openpgp_stream` and `parse_keys` make of a buffer, behind the keys of a list. There
are at most as many packets as octets. -/
def keysOf (memory : Memory) (octets : List UInt8) (keys : List PublicKey) : List PublicKey :=
  match readOpenpgpStream buffer memory.packet (octets.length + 1) octets [] 0 with
  | none => keys
  | some r => (parseKeys memory.sig r.packets keys).keys

/-! ## The server -/

/-- A lookup. -/
inductive Query where
  | fetchKey (fp : Fingerprint)
  | fetchKeyFp (fp : Fingerprint)
  | fetchKeyId (keyid : UInt64)
  | fetchKeyText (search : List UInt8)
  | fetchKeySkshash (hash : List UInt8)

/-- The backend of the server. -/
structure ServerDb where
  /-- What it can have stored. -/
  DB : Type
  /-- The keys that a lookup finds. -/
  fetch : DB → Query → List PublicKey
  /-- The keys that `iterate_keys` hands out. -/
  iterate : DB → List PublicKey
  /-- `store_key`, whose last argument is `update`. -/
  store : DB → PublicKey → Bool → DB
  /-- `delete_key`. -/
  delete : DB → Fingerprint → DB
  /-- Only packets are stored, not the `revoked` flag. -/
  store_reread : ∀ db key update, store db (reread key) update = store db key update

section

variable (host : Host) (B : ServerDb) (stats : List UInt8)

/-- A `uint32_t`. -/
def Host.word (v : Nat) : List UInt8 := host.order.octets 4 v

/-- A `size_t`. -/
def Host.size (v : Nat) : List UInt8 := host.order.octets 8 v

/-- `sock_do` comes to its end with the value it returns, which says whether the connection is to
be closed. -/
abbrev Server := Proc UInt8 (Bool × B.DB)

/-- `keyd_write_key`. -/
def keydWriteKey (keys : List PublicKey) (p : Server B) : Server B :=
  .write (host.size (keyOctets keys).length) (.write (keyOctets keys) p)

/-- What `sock_do` sends for a lookup. -/
def writeFound (db : B.DB) (keys : List PublicKey) : Server B :=
  match keys with
  | [] => .write (host.size 0) (.done (false, db))
  | _ => keydWriteKey host B keys (.done (false, db))

/-- `sock_do` reads a fingerprint: its length comes as one octet, which is read into the first octet
of the `ssize_t` that holds the 4 of the last `read`. -/
def readFingerprint (db : B.DB) (k : Fingerprint → Server B) : Server B :=
  .read 1 fun octet =>
    let bytes := toSsize (host.order.number (octet ++ (host.size 4).drop 1))
    if maxFingerprintLen < bytes then .done (true, db) else .read (toSize bytes) k

/-- `iterate_keys` with `iteratefunc`. -/
def writeKeys (p : Server B) : List PublicKey → Server B
  | [] => p
  | key :: keys => keydWriteKey host B [key] (writeKeys p keys)

/-- `sock_do` stores or updates a key. -/
def readStore (db : B.DB) (update : Bool) : Server B :=
  .read 8 fun size =>
    if host.order.number size = 0 then
      .done (false, db)
    else
      .read (host.order.number size) fun octets =>
        match keysOf host.server octets [] with
        | [] => .done (true, db)  -- `store_key` gets a null pointer
        | key :: _ => .done (false, B.store db key update)

/-- `sock_do` behind the command. -/
def sockCmd (db : B.DB) (op : Option KeydOp) : Server B :=
  let replyOk := fun p : Server B => Proc.write (host.word keydReplyOk) p
  match op with
  | some .version =>
    replyOk (.write (host.word 4) (.write (host.word keydVersion) (.done (false, db))))
  | some .get =>
    replyOk (readFingerprint host B db fun fp =>
      writeFound host B db (B.fetch db (.fetchKey fp)))
  | some .getId =>
    replyOk (.read 8 fun keyid =>
      writeFound host B db (B.fetch db (.fetchKeyId (UInt64.ofNat (host.order.number keyid)))))
  | some .getFp =>
    replyOk (readFingerprint host B db fun fp =>
      writeFound host B db (B.fetch db (.fetchKeyFp fp)))
  | some .getText =>
    replyOk (.read 8 fun count => .read (host.order.number count) fun search =>
      writeFound host B db (B.fetch db (.fetchKeyText search)))
  | some .store => replyOk (readStore host B db false)
  | some .update => replyOk (readStore host B db true)
  | some .delete =>
    replyOk (.read 40 fun octets =>
      .done (false, B.delete db ((octets.drop 8).take (host.order.number (octets.take 8)))))
  | some .keyiter =>
    replyOk (writeKeys host B (.write (host.size 0) (.done (false, db))) (B.iterate db))
  | some .close => replyOk (.done (true, db))
  | some .quit => replyOk (.done (true, db))
  | some .stats =>
    replyOk (.write (host.word stats.length) (.write stats (.done (false, db))))
  | some .getSkshash =>
    replyOk (.read 16 fun hash => writeFound host B db (B.fetch db (.fetchKeySkshash hash)))
  | _ => .write (host.word keydReplyUnknownCmd) (.done (false, db))

/-- `sock_do`. -/
def sockDo (db : B.DB) : Server B :=
  .read 4 fun cmd => sockCmd host B stats db keydOps[host.order.number cmd]?

/-- The loop of the server over `sock_do`. -/
def serverLoop (r : Bool × B.DB) : Option (Server B) :=
  if r.1 then none else some (sockDo host B stats r.2)

/-! ## The client -/

/-- A call of the client's backend. A lookup comes with the caller's list of keys. -/
inductive KeydCall where
  | fetch (query : Query) (publickey : List PublicKey)
  | store (publickey : PublicKey) (update : Bool)
  | delete (fp : Fingerprint)
  | iterate

/-- How far the client has come with its calls. -/
structure ClientState where
  /-- The calls it has not made yet. -/
  calls : List KeydCall
  /-- What the calls have delivered that have returned. -/
  delivered : List (List PublicKey)
  /-- What the loop of `keyd_iterate_keys` has handed out, while it runs. -/
  iterating : Option (List PublicKey)

/-- A client function, which goes on with what is behind it. -/
abbrev Client := Proc UInt8 ClientState

/-- `keyd_send_cmd`, and what the caller does if it fails and if not. -/
def keydSendCmd (cmd : KeydOp) (failed ok : Client) : Client :=
  .write (host.word cmd.toNat) (.read 4 fun reply =>
    if host.order.number reply = keydReplyOk then ok else failed)

/-- The end of the lookups: the keys come behind their size. -/
def readKeys (publickey : List PublicKey) (k : List PublicKey → Client) : Client :=
  .read 8 fun size =>
    if host.order.number size = 0 then k publickey
    else .read (host.order.number size) fun octets => k (keysOf host.client octets publickey)

/-- What `keyd_fetch_key` and `keyd_fetch_key_fp` have in common. -/
def keydFetchBy (cmd : KeydOp) (fp : Fingerprint) (publickey : List PublicKey)
    (k : List PublicKey → Client) : Client :=
  if maxFingerprintLen < fp.length then
    k publickey
  else
    keydSendCmd host cmd (k publickey) (.write [UInt8.ofNat fp.length] (.write fp
      (readKeys host publickey k)))

/-- `keyd_fetch_key`. -/
def keydFetchKey := keydFetchBy host .get

/-- `keyd_fetch_key_fp`. -/
def keydFetchKeyFp := keydFetchBy host .getFp

/-- `keyd_fetch_key_id`. -/
def keydFetchKeyId (keyid : UInt64) (publickey : List PublicKey) (k : List PublicKey → Client) :
    Client :=
  keydSendCmd host .getId (k publickey) (.write (host.order.octets 8 keyid.toNat)
    (readKeys host publickey k))

/-- `keyd_fetch_key_text`. -/
def keydFetchKeyText (search : List UInt8) (publickey : List PublicKey)
    (k : List PublicKey → Client) : Client :=
  keydSendCmd host .getText (k publickey) (.write (host.size search.length) (.write search
    (readKeys host publickey k)))

/-- `keyd_fetch_key_skshash`. -/
def keydFetchKeySkshash (hash : List UInt8) (publickey : List PublicKey)
    (k : List PublicKey → Client) : Client :=
  keydSendCmd host .getSkshash (k publickey) (.write hash (readKeys host publickey k))

/-- `struct openpgp_fingerprint`, with what lies in its array behind the fingerprint. -/
def fingerprintStruct (fp : Fingerprint) : List UInt8 :=
  host.size fp.length ++ (fp ++ (List.range (maxFingerprintLen - fp.length)).map host.client.fp)

/-- `keyd_delete_key`. -/
def keydDeleteKey (fp : Fingerprint) (k : Client) : Client :=
  keydSendCmd host .delete k (.write (fingerprintStruct host fp) k)

/-- `keyd_store_key`. -/
def keydStoreKey (H : Hashes) (publickey : PublicKey) (update : Bool) (k : Client) : Client :=
  match getKeyid H publickey with
  | none => k
  | some _ =>
    keydSendCmd host (if update then .update else .store) k
      (.write (host.size (keyOctets [publickey]).length) (.write (keyOctets [publickey]) k))

/-- `keyd_iterate_keys` up to its loop. -/
def keydIterateKeys (failed loop : Client) : Client := keydSendCmd host .keyiter failed loop

/-- One round of the loop of `keyd_iterate_keys`. -/
def iterateRound (k done : List PublicKey → Client) (keys : List PublicKey) : Client :=
  .read 8 fun size =>
    if host.order.number size = 0 then done keys
    else .read (host.order.number size) fun octets => k (keys ++ keysOf host.client octets [])

/-- What the client does next. -/
def clientNext (H : Hashes) (s : ClientState) : Option Client :=
  let returned := fun calls keys => Proc.done (ClientState.mk calls (s.delivered ++ [keys]) none)
  match s.iterating with
  | some keys =>
    some (iterateRound host (fun keys => .done { s with iterating := some keys })
      (returned s.calls) keys)
  | none =>
    match s.calls with
    | [] => none
    | .fetch (.fetchKey fp) publickey :: calls =>
      some (keydFetchKey host fp publickey (returned calls))
    | .fetch (.fetchKeyFp fp) publickey :: calls =>
      some (keydFetchKeyFp host fp publickey (returned calls))
    | .fetch (.fetchKeyId keyid) publickey :: calls =>
      some (keydFetchKeyId host keyid publickey (returned calls))
    | .fetch (.fetchKeyText search) publickey :: calls =>
      some (keydFetchKeyText host search publickey (returned calls))
    | .fetch (.fetchKeySkshash hash) publickey :: calls =>
      some (keydFetchKeySkshash host hash publickey (returned calls))
    | .store publickey update :: calls =>
      some (keydStoreKey host H publickey update (returned calls []))
    | .delete fp :: calls => some (keydDeleteKey host fp (returned calls []))
    | .iterate :: calls =>
      some (keydIterateKeys host (returned calls []) (.done ⟨calls, s.delivered, some []⟩))

end

/-! ## The file backend -/

/-- The files of `keydb_file.c`, under the lower half of the key id, each with the key that is read
back from it, in the order of the directory. -/
abbrev KeyFiles := AList fun _ : UInt32 => PublicKey

/-- `file_fetch_key_id`. -/
def fileFetchKeyId (files : KeyFiles) (keyid : UInt64) : List PublicKey :=
  (files.lookup keyid.toUInt32).toList

/-- The key id that `generic_fetch_key_fp` takes from a fingerprint. If that is short, it reads on
behind it. -/
def genericKeyid (memory : Memory) (fp : Fingerprint) : UInt64 :=
  if fp.length = 20 then UInt64.ofNat (beNat (fp.drop 12))
  else UInt64.ofNat (beNat ((fp ++ (List.range 8).map memory.fp).take 8))

/-- `generic_fetch_key_fp` for this backend. -/
def genericFetchKeyFp (memory : Memory) (files : KeyFiles) (fp : Fingerprint) : List PublicKey :=
  if maxFingerprintLen < fp.length then [] else fileFetchKeyId files (genericKeyid memory fp)

/-- `file_store_key`. -/
def fileStoreKey (H : Hashes) (files : KeyFiles) (publickey : PublicKey) : KeyFiles :=
  match getKeyid H publickey with
  | none => files
  | some keyid => files.insert keyid.toUInt32 (reread publickey)

/-- `file_delete_key`. -/
def fileDeleteKey (files : KeyFiles) (fp : Fingerprint) : KeyFiles :=
  files.erase (fingerprint2keyid fp).toUInt32

/-- The file backend. Its `fetch_key_text` finds nothing, and it has no `fetch_key_skshash`. -/
def fileServer (H : Hashes) (memory : Memory) : ServerDb where
  DB := KeyFiles
  fetch files
    | .fetchKey fp => genericFetchKeyFp memory files fp
    | .fetchKeyFp fp => genericFetchKeyFp memory files fp
    | .fetchKeyId keyid => fileFetchKeyId files keyid
    | .fetchKeyText _ => []
    | .fetchKeySkshash _ => []
  iterate files := files.entries.map Sigma.snd
  store files publickey _ := fileStoreKey H files publickey
  delete files fp := fileDeleteKey files fp
  store_reread _ _ _ := rfl

/-! ## What the connection is for -/

/-- The call made directly on the server's backend: what it delivers, and the database behind it. -/
def KeydCall.direct (B : ServerDb) (db : B.DB) : KeydCall → List PublicKey × B.DB
  | .fetch query publickey => (publickey ++ B.fetch db query, db)
  | .store publickey update => ([], B.store db publickey update)
  | .delete fp => ([], B.delete db fp)
  | .iterate => (B.iterate db, db)

/-- The calls made directly, one after the other. -/
def directly (B : ServerDb) (db : B.DB) : List KeydCall → List (List PublicKey) × B.DB
  | [] => ([], db)
  | call :: calls =>
    let r := call.direct B db
    let rest := directly B r.2 calls
    (r.1 :: rest.1, rest.2)

/-- A key that is read back from its octets: its packets have the tags of their places and fit their
formats, and no direct signature is cut short. -/
structure Sendable (key : PublicKey) : Prop where
  tagged : key.WellTagged
  packets : ∀ p ∈ flattenKey key, p.WellFormed
  sigs : ∀ s ∈ key.sigs, ¬ s.Cut

/-- Keys that the server can send in one message. -/
structure Delivered (keys : List PublicKey) : Prop where
  sendable : ∀ key ∈ keys, Sendable key
  flags : ∀ key ∈ keys, reread key = key
  fits : (keyOctets keys).length < 2 ^ 64

/-- The arguments of the lookup are what its types promise. -/
def Query.WellFormed : Query → Prop
  | .fetchKey fp => fp.length ≤ maxFingerprintLen
  | .fetchKeyFp fp => fp.length ≤ maxFingerprintLen
  | .fetchKeyId _ => True
  | .fetchKeyText search => 0 ∉ search ∧ search.length < 2 ^ 63
  | .fetchKeySkshash hash => hash.length = 16

/-- The keys of the call are well formed, those it is made with as well as those that the backend
has for it, and so are its other arguments. -/
def KeydCall.WellFormed (H : Hashes) (B : ServerDb) (db : B.DB) : KeydCall → Prop
  | .fetch query _ => query.WellFormed ∧ Delivered (B.fetch db query)
  | .store key _ =>
    Sendable key ∧ (getKeyid H key).isSome ∧ (keyOctets [key]).length < 2 ^ 64
  | .delete fp => fp.length ≤ maxFingerprintLen
  | .iterate => ∀ key ∈ B.iterate db, Delivered [key]

/-- The arguments of the call are well formed. -/
def KeydCall.ArgsWellFormed (H : Hashes) : KeydCall → Prop
  | .fetch query _ => query.WellFormed
  | .store key _ =>
    Sendable key ∧ (getKeyid H key).isSome ∧ (keyOctets [key]).length < 2 ^ 64
  | .delete fp => fp.length ≤ maxFingerprintLen
  | .iterate => True

/-- The call sends a fingerprint behind an octet of length. -/
def KeydCall.sendsLength : KeydCall → Bool
  | .fetch (.fetchKey _) _ => true
  | .fetch (.fetchKeyFp _) _ => true
  | _ => false

/-- The client and the server with nothing on the way between them. -/
def quiet (host : Host) (B : ServerDb) (stats : List UInt8) (db : B.DB) (s : ClientState) :
    Config UInt8 ClientState (Bool × B.DB) :=
  ⟨.done s, sockDo host B stats db, [], []⟩

/-- However the steps of client and server fall, the calls come to an end, have delivered what they
deliver when made directly, and leave the same database and nothing unread. -/
def Refines (host : Host) (H : Hashes) (B : ServerDb) (stats : List UInt8) (db : B.DB)
    (calls : List KeydCall) : Prop :=
  Ends (Step (clientNext host H) (serverLoop host B stats)) (quiet host B stats db ⟨calls, [], none⟩)
    (quiet host B stats (directly B db calls).2 ⟨[], (directly B db calls).1, none⟩)

end Onak.Socket
