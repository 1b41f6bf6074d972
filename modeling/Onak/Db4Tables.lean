import Onak.KeyDbDb4
import Onak.WordList
import Onak.Lib.Runs

/-!
# All tables of the db4 backend

`db4_delete_key` and `db4_store_key` of `keydb_db4.c` in full: the word, key id and SKS hash tables
beside those of `Onak.KeyDbDb4`, and operations that report `DB_LOCK_DEADLOCK`. `worddb`, `id32db`
and `id64db` are opened with `DB_DUP`, so a `put` adds an entry even if there is an equal one.
Creating a cursor always succeeds, and no error other than a deadlock is reported.
-/

namespace Onak

/-- The tables of the database. -/
structure Tables extends Db4 where
  /-- The primary fingerprints by word. -/
  worddb : Word → List Fingerprint
  /-- The primary fingerprints by 32 bit key id. -/
  id32db : UInt32 → List Fingerprint
  /-- The primary fingerprints by 64 bit key id. -/
  id64db : UInt64 → List Fingerprint
  /-- The primary fingerprints by SKS hash. -/
  skshashdb : List UInt8 → Option Fingerprint

/-- The tables without entries. -/
def emptyTables : Tables := ⟨emptyDb4, fun _ => [], fun _ => [], fun _ => [], fun _ => none⟩

/-- Where an index entry is filed: the table and the key in it. -/
inductive Entry where
  | word (w : Word)
  | id32 (id : UInt32)
  | id64 (id : UInt64)
  | subkey (fp : Fingerprint)
  | skshash (hash : List UInt8)
deriving DecidableEq

/-- `put` of the fingerprint. -/
def Tables.put (t : Tables) (fp : Fingerprint) : Entry → Tables
  | .word w => { t with worddb := Function.update t.worddb w (t.worddb w ++ [fp]) }
  | .id32 id => { t with id32db := Function.update t.id32db id (t.id32db id ++ [fp]) }
  | .id64 id => { t with id64db := Function.update t.id64db id (t.id64db id ++ [fp]) }
  | .subkey f => { t with subkeydb := t.subkeydb.put f fp }
  | .skshash hash => { t with skshashdb := Function.update t.skshashdb hash (some fp) }

/-- How many entries a removal can find. A subkey is deleted without a look at its owner, the others
are looked up with `DB_GET_BOTH`. -/
def Tables.found (t : Tables) (fp : Fingerprint) : Entry → Nat
  | .word w => (t.worddb w).count fp
  | .id32 id => (t.id32db id).count fp
  | .id64 id => (t.id64db id).count fp
  | .subkey f => if (t.subkeydb f).isSome then 1 else 0
  | .skshash hash => if t.skshashdb hash = some fp then 1 else 0

/-- The removal of one such entry, which changes nothing if there is none. -/
def Tables.del (t : Tables) (fp : Fingerprint) : Entry → Tables
  | .word w => { t with worddb := Function.update t.worddb w ((t.worddb w).erase fp) }
  | .id32 id => { t with id32db := Function.update t.id32db id ((t.id32db id).erase fp) }
  | .id64 id => { t with id64db := Function.update t.id64db id ((t.id64db id).erase fp) }
  | .subkey f => { t with subkeydb := t.subkeydb.del f }
  | .skshash hash =>
    if t.skshashdb hash = some fp then
      { t with skshashdb := Function.update t.skshashdb hash none }
    else
      t

/-- Whether a cursor looks the entry up before it is deleted. -/
def Entry.byCursor : Entry → Bool
  | .subkey _ => false
  | _ => true

/-! ## Operations in a transaction -/

/-- The operations of a call. The entries that `db4_delete_key` removes and those that
`db4_store_key` puts are numbered in the order of the code. -/
inductive Point where
  | lookup (n : Nat)
  | removeGet (i : Nat)
  | removeDel (i : Nat)
  | keyDel
  | keyPut
  | insertPut (i : Nat)
deriving DecidableEq

/-- What an operation returns. -/
inductive Ret where
  | ok
  | notFound
  | deadlock
deriving DecidableEq

/-- A transaction: the tables as it sees them, and how many of its operations have changed them. -/
structure Txn where
  tables : Tables
  writes : Nat

/-- `db4_starttrans`. -/
def starttrans (t : Tables) : Txn := ⟨t, 0⟩

variable (deadlocks : Point → Bool) (fp : Fingerprint)

/-- The `c_get` and `c_del` for entry number `i`, or the `del` if it is a subkey. -/
def Txn.remove (txn : Txn) (i : Nat) (e : Entry) : Ret × Txn :=
  if e.byCursor && deadlocks (.removeGet i) then
    (.deadlock, txn)
  else if e.byCursor && txn.tables.found fp e == 0 then
    (.notFound, txn)
  else if deadlocks (.removeDel i) then
    (.deadlock, txn)
  else if txn.tables.found fp e = 0 then
    (.notFound, txn)
  else
    (.ok, ⟨txn.tables.del fp e, txn.writes + 1⟩)

/-- The `put` for entry number `i`. -/
def Txn.insert (txn : Txn) (i : Nat) (e : Entry) : Ret × Txn :=
  if deadlocks (.insertPut i) then
    (.deadlock, txn)
  else
    (.ok, ⟨txn.tables.put fp e, txn.writes + 1⟩)

/-- A loop over entries that ends with the first deadlock. -/
def untilDeadlock (op : Txn → Nat → Entry → Ret × Txn) : Nat → List Entry → Txn → Bool × Txn
  | _, [], txn => (false, txn)
  | i, e :: es, txn =>
    match op txn i e with
    | (.deadlock, txn) => (true, txn)
    | (_, txn) => untilDeadlock op (i + 1) es txn

/-- A loop over entries that notes deadlocks and goes on. -/
def throughDeadlock (op : Txn → Nat → Entry → Ret × Txn) : Nat → List Entry → Txn → Bool × Txn
  | _, [], txn => (false, txn)
  | i, e :: es, txn =>
    let r := op txn i e
    let rest := throughDeadlock op (i + 1) es r.2
    (r.1 == .deadlock || rest.1, rest.2)

/-- `db4_fetch_key_fp` in the transaction. A deadlock counts as a key that is not there. -/
def Txn.fetchKeyFp (txn : Txn) : Option PublicKey :=
  if deadlocks (.lookup 0) then
    none
  else
    match txn.tables.keydb fp with
    | some key => some key
    | none =>
      if deadlocks (.lookup 1) then
        none
      else
        match txn.tables.subkeydb fp with
        | none => none
        | some owner => if deadlocks (.lookup 2) then none else txn.tables.keydb owner

/-- `del` of the key data, whose result is ignored. -/
def Txn.delKey (txn : Txn) : Txn :=
  if deadlocks .keyDel || (txn.tables.keydb fp).isNone then
    txn
  else
    ⟨{ txn.tables with keydb := txn.tables.keydb.del fp }, txn.writes + 1⟩

/-- `put` of the key data. -/
def Txn.putKey (txn : Txn) (key : PublicKey) : Txn :=
  ⟨{ txn.tables with keydb := txn.tables.keydb.put fp key }, txn.writes + 1⟩

/-! ## The entries of a key -/

/-- The 32 bit and the 64 bit key id. -/
def keyidEntries (keyid : UInt64) : List Entry := [.id32 keyid.toUInt32, .id64 keyid]

/-- The words of a key. -/
def wordEntries (key : PublicKey) : List Entry := (keywords key).map .word

variable (H : Hashes)

/-- What `db4_delete_key` removes for each subkey. -/
def subkeyRemovals (key : PublicKey) : List Entry :=
  (keysubkeys H key).flatMap fun f => .subkey f :: keyidEntries (fingerprint2keyid f)

/-- What `db4_store_key` puts for each subkey. -/
def subkeyInsertions (key : PublicKey) : List Entry :=
  (keysubkeys H key).flatMap fun f =>
    [.subkey f, .id64 (fingerprint2keyid f), .id32 (fingerprint2keyid f).toUInt32]

/-- The SKS hash of a key. -/
def skshashEntry (key : PublicKey) : Entry := .skshash (getSkshash H key)

/-- The key ids of a key and its subkeys, as `db4_delete_key` removes them. -/
def idEntries (key : PublicKey) : List Entry :=
  (getKeyid H key).toList.flatMap keyidEntries ++ subkeyRemovals H key

/-- All entries of a key, in the order in which `db4_delete_key` removes them. -/
def keyEntries (key : PublicKey) : List Entry :=
  wordEntries key ++ (idEntries H key ++ [skshashEntry H key])

/-- All entries of a key, in the order in which `db4_store_key` puts them. -/
def newEntries (key : PublicKey) (keyid : UInt64) : List Entry :=
  (wordEntries key ++ keyidEntries keyid) ++ (subkeyInsertions H key ++ [skshashEntry H key])

/-! ## Deleting and storing -/

/-- `db4_delete_key` in a transaction: the return value and the transaction behind it. The entries
are removed under the fingerprint that the caller gave. When the key that was found has no key id,
the function returns without ending the transaction, in which nothing has changed. -/
def Txn.deleteKey (txn : Txn) : Int × Txn :=
  match txn.fetchKeyFp deadlocks fp with
  | none => (1, txn)
  | some publickey =>
    match getKeyid H publickey with
    | none => (1, txn)
    | some keyid =>
      let words := wordEntries publickey
      let ids := keyidEntries keyid ++ subkeyRemovals H publickey
      let r := untilDeadlock (Txn.remove deadlocks fp) 0 words txn
      if r.1 then
        (-1, r.2)
      else
        let r := throughDeadlock (Txn.remove deadlocks fp) words.length ids r.2
        if r.1 then
          (-1, r.2)
        else
          let r := r.2.remove deadlocks fp (words.length + ids.length) (skshashEntry H publickey)
          if r.1 = .deadlock then
            (-1, r.2)
          else
            (if r.1 = .notFound then 1 else 0, r.2.delKey deadlocks fp)

/-- The part of `db4_store_key` behind the deletion of the old key. -/
def Txn.addKey (txn : Txn) (publickey : PublicKey) (keyid : UInt64) : Int × Txn :=
  if deadlocks .keyPut then
    (-1, txn)
  else
    let heads := wordEntries publickey ++ keyidEntries keyid
    let subkeys := subkeyInsertions H publickey
    let r := untilDeadlock (Txn.insert deadlocks fp) 0 heads (txn.putKey fp (reread publickey))
    if r.1 then
      (-1, r.2)
    else
      let r := throughDeadlock (Txn.insert deadlocks fp) heads.length subkeys r.2
      if r.1 then
        (-1, r.2)
      else
        let r := r.2.insert deadlocks fp (heads.length + subkeys.length) (skshashEntry H publickey)
        (if r.1 = .deadlock then -1 else 0, r.2)

/-- `db4_store_key` in a transaction. -/
def Txn.storeKey (txn : Txn) (publickey : PublicKey) (update : Bool) : Int × Txn :=
  match getKeyid H publickey, fingerprint? H publickey.publickey with
  | some keyid, some fingerprint =>
    let r := if update then txn.deleteKey deadlocks fingerprint H else (0, txn)
    if r.1 = -1 then (-1, r.2) else r.2.addKey deadlocks fingerprint H publickey keyid
  | _, _ => (0, txn)

/-! ## Calls with their own transaction -/

/-- A call of one of the two functions with `intrans` false. -/
inductive Db4Call where
  | store (publickey : PublicKey) (update : Bool)
  | delete (fp : Fingerprint)

/-- The return value of a call and its transaction, which `db4_endtrans` commits whatever has
happened in it. -/
def Tables.call (t : Tables) : Db4Call → Int × Txn
  | .store publickey update => (starttrans t).storeKey deadlocks H publickey update
  | .delete fp => (starttrans t).deleteKey deadlocks fp H

/-- The tables after a call all of whose operations succeed. -/
def Tables.after (t : Tables) (c : Db4Call) : Tables := (t.call (fun _ => false) H c).2.tables

/-- `db4_fetch_key_fp`. -/
def Tables.fetchKeyFp (t : Tables) (fp : Fingerprint) : Option PublicKey :=
  db4FetchKeyFp t.toDb4 fp

/-! ## What the tables are for -/

/-- The ids that lead to a key: its own key id and those of the subkeys that are listed. -/
def keyids (key : PublicKey) : List UInt64 :=
  (getKeyid H key).toList ++ (keysubkeys H key).map fingerprint2keyid

/-- The entries of `worddb`, `id32db` and `id64db` are exactly those of the stored keys. -/
structure Tables.Exact (t : Tables) : Prop where
  worddb : ∀ w f, (t.worddb w).count f =
    ((t.keydb f).map fun k => if w ∈ keywords k then 1 else 0).getD 0
  id32db : ∀ id f, (t.id32db id).count f =
    ((t.keydb f).map fun k => ((keyids H k).map UInt64.toUInt32).count id).getD 0
  id64db : ∀ id f, (t.id64db id).count f =
    ((t.keydb f).map fun k => (keyids H k).count id).getD 0

/-- A key is stored with `update` exactly if its primary fingerprint is stored. -/
def Db4Call.UpdateRight (t : Tables) : Db4Call → Prop
  | .store key update => update = ((fingerprint? H key.publickey).bind t.keydb).isSome
  | .delete _ => True

/-- A key that is stored without `update` is not there yet, as `db4_store_key` trusts. -/
def Db4Call.NoOverwrite (t : Tables) : Db4Call → Prop
  | .store key update =>
    update = true ∨ ((fingerprint? H key.publickey).bind t.keydb).isNone
  | .delete _ => True

/-- What is deleted is the primary fingerprint of a stored key. -/
def Db4Call.DeletesStored (t : Tables) : Db4Call → Prop
  | .store _ _ => True
  | .delete fp => (t.keydb fp).isSome

instance (t : Tables) (c : Db4Call) : Decidable (c.UpdateRight H t) :=
  match c with
  | .store _ _ => inferInstanceAs (Decidable (_ = _))
  | .delete _ => isTrue trivial

instance (t : Tables) (c : Db4Call) : Decidable (c.NoOverwrite H t) :=
  match c with
  | .store _ _ => inferInstanceAs (Decidable (_ ∨ _ = true))
  | .delete _ => isTrue trivial

instance (t : Tables) (c : Db4Call) : Decidable (c.DeletesStored t) :=
  match c with
  | .store _ _ => isTrue trivial
  | .delete _ => inferInstanceAs (Decidable (_ = true))

/-- The tables after a sequence of calls on empty ones. -/
def Tables.afterAll (calls : List Db4Call) : Tables := calls.foldl (Tables.after H) emptyTables

/-! ### Lookups of subkeys -/

/-- The key has a subkey whose fingerprint can be computed and is `f`. -/
def HasSubkey (k : PublicKey) (f : Fingerprint) : Prop :=
  ∃ sp ∈ k.subkeys, fingerprint? H sp.packet = some f

/-- Lookups find the stored keys by the fingerprints of their subkeys, and what they find is stored
and has the fingerprint. -/
structure Tables.SubkeysFound (t : Tables) : Prop where
  complete : ∀ {f p k}, t.keydb p = some k → HasSubkey H k f → (t.fetchKeyFp f).isSome
  sound : ∀ {f k}, t.fetchKeyFp f = some k →
    ∃ p, t.keydb p = some k ∧ (fingerprint? H k.publickey = some f ∨ HasSubkey H k f)

/-- No stored key but the one under `p` has the subkey `f`. -/
def Tables.OnlyOwner (t : Tables) (p f : Fingerprint) : Prop :=
  ∀ p' k, t.keydb p' = some k → HasSubkey H k f → p' = p

/-- The call leaves the subkey index complete: the key that is stored lists all its subkeys, and the
subkeys that the call takes out of the index are on no other stored key. -/
def Db4Call.KeepsSubkeys (t : Tables) : Db4Call → Prop
  | .store key _ =>
    (∀ f, HasSubkey H key f → f ∈ keysubkeys H key) ∧
      ∀ p old, fingerprint? H key.publickey = some p → t.keydb p = some old →
        ∀ f ∈ keysubkeys H old, f ∉ keysubkeys H key → t.OnlyOwner H p f
  | .delete fp => ∀ old, t.keydb fp = some old → ∀ f ∈ keysubkeys H old, t.OnlyOwner H fp f

/-! ### Deletions -/

/-- No entry refers to the key under `p`. -/
structure Tables.Unreferenced (t : Tables) (p : Fingerprint) : Prop where
  worddb : ∀ w, p ∉ t.worddb w
  id32db : ∀ id, p ∉ t.id32db id
  id64db : ∀ id, p ∉ t.id64db id
  subkeydb : ∀ f, t.subkeydb f ≠ some p
  skshashdb : ∀ hash, t.skshashdb hash ≠ some p

/-- The tables without the key under `p` and without the entries that refer to it. -/
def Tables.without (t : Tables) (p : Fingerprint) : Tables where
  keydb := t.keydb.del p
  subkeydb f := if t.subkeydb f = some p then none else t.subkeydb f
  worddb w := (t.worddb w).filter (· ≠ p)
  id32db id := (t.id32db id).filter (· ≠ p)
  id64db id := (t.id64db id).filter (· ≠ p)
  skshashdb hash := if t.skshashdb hash = some p then none else t.skshashdb hash

/-- The step from `t` to `t'` removes one stored key with every entry that refers to it and nothing
else, or changes nothing. -/
def AllOrNothing (t t' : Tables) : Prop :=
  (∃ p, (t.keydb p).isSome ∧ t' = t.without p) ∨ t' = t

/-- All that a deletion of the fingerprint finds to remove belongs together: it is the primary
fingerprint of a stored key whose subkeys the index has under no other key, or one that is nowhere. -/
def Tables.DeletesWhole (t : Tables) (fp : Fingerprint) : Prop :=
  match t.keydb fp with
  | some k => ∀ f ∈ keysubkeys H k, t.subkeydb f = none ∨ t.subkeydb f = some fp
  | none => t.subkeydb fp = none

end Onak
