import Onak.Db4Fetch

/-!
# Transactions of the db4 backend

The functions of `keydb_db4.c` that start and end transactions, on the pointers of `struct
onak_db4_dbctx` that they check. What the operations of Berkeley DB return and find is given for each
call: any return codes, and any keys and fingerprints. Only `txn_begin` and `commit` always succeed. The
process ends at a failed assertion and where a null pointer is used.
-/

namespace Onak.Db4Session

/-- How the process ends. -/
inductive Fault where
  | assertion
  | nullCursor
  | nullKey
deriving DecidableEq

/-- Whether the pointers of the context are set. -/
structure PrivCtx where
  dbenv : Bool
  txn : Bool
deriving DecidableEq

/-- A computation on the context. -/
abbrev Session (α : Type) := StateT PrivCtx (Except Fault) α

/-- `log_assert`. -/
def logAssert (expr : Bool) : Session Unit := if expr then pure () else throw .assertion

/-- `db4_starttrans`. -/
def starttrans : Session Unit := do
  let privctx ← get
  logAssert privctx.dbenv
  logAssert (!privctx.txn)
  set { privctx with txn := true }

/-- `db4_endtrans`. -/
def endtrans : Session Unit := do
  let privctx ← get
  logAssert privctx.dbenv
  logAssert privctx.txn
  set { privctx with txn := false }

/-! ## Berkeley DB -/

/-- What an operation returns: 0, `DB_NOTFOUND`, `DB_LOCK_DEADLOCK` or something else. -/
inductive Code where
  | ok
  | notFound
  | deadlock
  | other (errno : Int)
deriving DecidableEq

/-- The operations of a call. The lookups of keys, the words of a search, and the entries that are
removed or put are numbered in the order of the code. -/
inductive Operation where
  | keyGet (n : Nat) (fp : Fingerprint)
  | subkeyGet (n : Nat) (fp : Fingerprint)
  | ownerGet (n : Nat) (fp : Fingerprint)
  | wordCursor (n : Nat)
  | id32Cursor
  | id64Cursor
  | skshashCursor
  | entryGet (i : Nat) (e : Entry)
  | entryDel (i : Nat) (e : Entry)
  | entryPut (i : Nat) (e : Entry)
  | keyPut (fp : Fingerprint)
deriving DecidableEq

/-- What the operations of a call return and find. -/
structure Answers where
  /-- The return codes. -/
  code : Operation → Code
  /-- The keys that the data of a `get` parse to. -/
  keys : Operation → List PublicKey
  /-- The fingerprint that the subkey index has for the one of a lookup. -/
  owner : Nat → Fingerprint → Fingerprint
  /-- The fingerprints that the cursor for a key id goes through. -/
  ids : UInt64 → List Fingerprint
  /-- The entries that the cursor for a word goes through, from the first one with this word on. -/
  words : Nat → Word → List (Word × Fingerprint)

/-- Uses a cursor, which is a null pointer if it could not be opened. -/
def useCursor (opened : Bool) : Session Unit := if opened then pure () else throw .nullCursor

variable (H : Hashes) (db : Answers)

/-! ## Lookups -/

/-- The operations of `db4_fetch_key_int`: the code of the last one, and the keys. -/
def lookup (n : Nat) (fingerprint : Fingerprint) (dosubkey : Bool) : Code × List PublicKey :=
  let get := Operation.keyGet n fingerprint
  if db.code get = .notFound ∧ dosubkey then
    let ret := db.code (.subkeyGet n fingerprint)
    let get := Operation.ownerGet n (db.owner n fingerprint)
    if ret = .ok then (db.code get, db.keys get) else (ret, [])
  else
    (db.code get, db.keys get)

/-- `db4_fetch_key_int`: the keys that are added to the caller's list, when it counts a key as found. -/
def fetchKeyInt (n : Nat) (fingerprint : Fingerprint) (intrans dosubkey : Bool) :
    Session (Option (List PublicKey)) := do
  unless intrans do starttrans
  let (ret, keys) := lookup db n fingerprint dosubkey
  unless intrans do endtrans
  return if ret = .ok then some keys else none

/-- `db4_fetch_key`. -/
def fetchKey (n : Nat) (fingerprint : Fingerprint) (intrans : Bool) :
    Session (Option (List PublicKey)) :=
  fetchKeyInt db n fingerprint intrans false

/-- `db4_fetch_key_fp`. -/
def fetchKeyFp (n : Nat) (fingerprint : Fingerprint) (intrans : Bool) :
    Session (Option (List PublicKey)) :=
  fetchKeyInt db n fingerprint intrans true

/-- The calls of `db4_fetch_key_fp` for the fingerprints of a lookup, and what those add that count. -/
def fetchAll : Nat → List Fingerprint → Session (List (List PublicKey))
  | _, [] => return []
  | n, fingerprint :: fingerprints => do
    let found ← fetchKeyFp db n fingerprint true
    let rest ← fetchAll (n + 1) fingerprints
    return found.toList ++ rest

/-- The cursor of `db4_fetch_key_id`. -/
def idCursor (keyid : UInt64) : Operation := if keyid < 0x100000000 then .id32Cursor else .id64Cursor

/-- `db4_fetch_key_id`. -/
def fetchKeyId (keyid : UInt64) (intrans : Bool) : Session (List (List PublicKey)) := do
  unless intrans do starttrans
  if db.code (idCursor keyid) ≠ .ok then
    return []
  else
    let found ← fetchAll db 0 (db.ids keyid)
    unless intrans do endtrans
    return found

/-- The cursor's walk over the entries of one word. -/
def textPass (firstpass : Bool) (keylist : KeyArray) (word : Word) (entries : List (Word × Fingerprint)) :
    KeyArray :=
  (entries.takeWhile fun entry => entry.1 = word).foldl (fun newkeylist entry =>
    if firstpass || arrayFind keylist entry.2 then arrayAdd newkeylist entry.2 else newkeylist) []

/-- The loop of `db4_fetch_key_text` over the words. -/
def textLoop : Nat → Bool → KeyArray → List Word → Session KeyArray
  | _, _, keylist, [] => return keylist
  | n, firstpass, keylist, word :: words => do
    starttrans
    if db.code (.wordCursor n) ≠ .ok then
      endtrans
      return keylist
    else
      let newkeylist := textPass firstpass keylist word (db.words n word)
      endtrans
      textLoop (n + 1) false newkeylist words

/-- `db4_fetch_key_text`, with `config.maxkeys`. -/
def fetchKeyText (maxkeys : Nat) (search : List UInt8) : Session (List (List PublicKey)) := do
  let keylist ← textLoop db 0 true [] (makewordlist [] search)
  starttrans
  let found ← fetchAll db 0 (keylist.take maxkeys)
  endtrans
  return found

/-! ## Loops over entries -/

/-- A loop over entries that ends with the first deadlock. -/
def untilDeadlock (op : Nat → Entry → Session Code) : Nat → List Entry → Session Bool
  | _, [] => return false
  | i, e :: es => do
    if (← op i e) = .deadlock then return true else untilDeadlock op (i + 1) es

/-- A loop over entries that notes deadlocks and goes on. -/
def throughDeadlock (op : Nat → Entry → Session Code) : Nat → List Entry → Session Bool
  | _, [] => return false
  | i, e :: es => do
    let ret ← op i e
    let rest ← throughDeadlock op (i + 1) es
    return ret = .deadlock || rest

/-- The `c_get` and `c_del` for entry number `i`, or the `del` if it is a subkey; `opened` says which
cursors are open. -/
def remove (opened : Entry → Bool) (i : Nat) (e : Entry) : Session Code :=
  if e.byCursor then do
    useCursor (opened e)
    let ret := db.code (.entryGet i e)
    return if ret = .ok then db.code (.entryDel i e) else ret
  else
    return db.code (.entryDel i e)

/-- The `put` for entry number `i`. -/
def insert (i : Nat) (e : Entry) : Session Code := return db.code (.entryPut i e)

/-! ## Deleting and storing -/

section

variable (publickey : PublicKey) (keyid : UInt64)

/-- `db4_delete_key`, from `keyuids` to the end of the words: whether there was a deadlock. `keyuids`
gives a null pointer for a key without user ids. -/
def removeWords : Session Bool :=
  if publickey.uids = [] then
    return false
  else do
    let deadlock ← untilDeadlock (remove db fun _ => db.code (.wordCursor 0) = .ok) 0
      (wordEntries publickey)
    useCursor (db.code (.wordCursor 0) = .ok)
    return deadlock

/-- Whether the cursor for the 32 bit or the 64 bit key ids is open. -/
def idCursors : Entry → Bool
  | .id32 _ => db.code .id32Cursor = .ok
  | _ => db.code .id64Cursor = .ok

/-- `db4_delete_key`, the key ids and the subkeys. -/
def removeIds : Session Bool := do
  let deadlock ← throughDeadlock (remove db (idCursors db)) (wordEntries publickey).length
    (keyidEntries keyid ++ subkeyRemovals H publickey)
  useCursor (db.code .id64Cursor = .ok)
  useCursor (db.code .id32Cursor = .ok)
  return deadlock

/-- `db4_delete_key`, the SKS hash: whether there was a deadlock, and the last return code. -/
def removeSkshash : Session (Bool × Code) := do
  let i := (wordEntries publickey).length + (keyidEntries keyid ++ subkeyRemovals H publickey).length
  if db.code .skshashCursor = .ok then
    let ret ← remove db (fun _ => true) i (skshashEntry H publickey)
    return (ret = .deadlock, ret)
  else
    return (false, db.code .skshashCursor)

/-- `db4_delete_key`, from the words to the key data, whose `del` is not checked. -/
def removeKey : Session Int := do
  if ← removeWords db publickey then
    return -1
  else if ← removeIds H db publickey keyid then
    return -1
  else
    let (deadlock, ret) ← removeSkshash H db publickey keyid
    return if deadlock then -1 else if ret = .notFound then 1 else 0

end

/-- `db4_delete_key`. -/
def deleteKey (fp : Fingerprint) (intrans : Bool) : Session Int := do
  unless intrans do starttrans
  match ← fetchKeyFp db 0 fp true with
  | none =>
    unless intrans do endtrans
    return 1
  | some [] => throw .nullKey
  | some (publickey :: _) =>
    match getKeyid H publickey with
    | none => return 1
    | some keyid =>
      let ret ← removeKey H db publickey keyid
      unless intrans do endtrans
      return ret

/-- `db4_store_key`, from the key data on: whether there was a deadlock. The words are collected only
if the key data could be put. -/
def addKey (publickey : PublicKey) (keyid : UInt64) (fingerprint : Fingerprint) : Session Bool := do
  let ret := db.code (.keyPut fingerprint)
  let heads := (if ret = .ok then wordEntries publickey else []) ++ keyidEntries keyid
  let subkeys := subkeyInsertions H publickey
  if ret = .deadlock then
    return true
  else if ← untilDeadlock (insert db) 0 heads then
    return true
  else if ← throughDeadlock (insert db) heads.length subkeys then
    return true
  else
    let ret ← insert db (heads.length + subkeys.length) (skshashEntry H publickey)
    return ret = .deadlock

/-- `db4_store_key` between the start and the end of the transaction: whether there was a deadlock. -/
def replaceKey (publickey : PublicKey) (keyid : UInt64) (fingerprint : Fingerprint) (update : Bool) :
    Session Bool :=
  if update then do
    if (← deleteKey H db fingerprint true) = -1 then
      return true
    else
      addKey H db publickey keyid fingerprint
  else
    addKey H db publickey keyid fingerprint

/-- `db4_store_key`. -/
def storeKey (publickey : PublicKey) (intrans update : Bool) : Session Int :=
  match getKeyid H publickey, fingerprint? H publickey.publickey with
  | some keyid, some fingerprint => do
    unless intrans do starttrans
    let deadlock ← replaceKey H db publickey keyid fingerprint update
    unless intrans do endtrans
    return if deadlock then -1 else 0
  | _, _ => return 0

/-! ## Calls outside a transaction -/

/-- A call, with `intrans` false. -/
inductive Call where
  | fetchKey (fingerprint : Fingerprint)
  | fetchKeyFp (fingerprint : Fingerprint)
  | fetchKeyId (keyid : UInt64)
  | fetchKeyText (search : List UInt8)
  | storeKey (publickey : PublicKey) (update : Bool)
  | deleteKey (fp : Fingerprint)

variable (maxkeys : Nat)

/-- What a call returns: the number of keys that were found, or the status. -/
def Call.run : Call → Session Int
  | .fetchKey fingerprint => do
    let found ← Db4Session.fetchKey db 0 fingerprint false
    return found.toList.length
  | .fetchKeyFp fingerprint => do
    let found ← Db4Session.fetchKeyFp db 0 fingerprint false
    return found.toList.length
  | .fetchKeyId keyid => do
    let found ← Db4Session.fetchKeyId db keyid false
    return found.length
  | .fetchKeyText search => do
    let found ← Db4Session.fetchKeyText db maxkeys search
    return found.length
  | .storeKey publickey update => Db4Session.storeKey H db publickey false update
  | .deleteKey fp => Db4Session.deleteKey H db fp false

/-- A call, and what Berkeley DB answers in it. -/
structure Request where
  call : Call
  answers : Answers

/-! ## A working database -/

/-- The answers of the tables when no operation fails. -/
def tablesAnswers (t : Tables) : Answers where
  code
    | .keyGet _ fp | .ownerGet _ fp => if (t.keydb fp).isSome then .ok else .notFound
    | .subkeyGet _ fp => if (t.subkeydb fp).isSome then .ok else .notFound
    | _ => .ok
  keys
    | .keyGet _ fp | .ownerGet _ fp => (t.keydb fp).toList
    | _ => []
  owner _ fp := (t.subkeydb fp).getD []
  ids keyid := if keyid < 0x100000000 then t.id32db keyid.toUInt32 else t.id64db keyid
  words _ word := (t.worddb word).map fun fp => (word, fp)

end Onak.Db4Session
