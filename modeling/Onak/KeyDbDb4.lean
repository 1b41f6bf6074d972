import Onak.KeyDb
import Onak.ParseKey

/-!
# The db4 backend

`db4_fetch_key_fp`, `db4_delete_key` and `db4_store_key` of `keydb_db4.c` on the two tables that
decide what a lookup by fingerprint finds: the key data (split over several files by some octets of
the fingerprint, which is one table here) and the subkey index. The word, key id and SKS hash tables
are not read by these lookups and left out. The key data is the flattened key; it is represented by
the key that reading it gives, and all Berkeley DB operations succeed.
-/

namespace Onak

/-- A table without duplicates. -/
def Table (α : Type) := Fingerprint → Option α

/-- `put`. -/
def Table.put {α : Type} (t : Table α) (k : Fingerprint) (v : α) : Table α :=
  fun x => if x = k then some v else t x

/-- `del`. -/
def Table.del {α : Type} (t : Table α) (k : Fingerprint) : Table α :=
  fun x => if x = k then none else t x

/-- The database. -/
structure Db4 where
  /-- The keys by primary fingerprint. -/
  keydb : Table PublicKey
  /-- The primary fingerprints by subkey fingerprint. -/
  subkeydb : Table Fingerprint

/-- The database without keys. -/
def emptyDb4 : Db4 := ⟨fun _ => none, fun _ => none⟩

/-- `db4_fetch_key_int` with `dosubkey`: by primary fingerprint, else through the subkey index. -/
def db4FetchKeyFp (db : Db4) (fingerprint : Fingerprint) : Option PublicKey :=
  match db.keydb fingerprint with
  | some key => some key
  | none => (db.subkeydb fingerprint).bind db.keydb

variable (H : Hashes)

/-- `db4_delete_key`. The key is looked up like any other, so a subkey fingerprint finds the key it
belongs to. -/
def db4DeleteKey (db : Db4) (fp : Fingerprint) : Db4 :=
  match db4FetchKeyFp db fp with
  | none => db
  | some publickey =>
    if (getKeyid H publickey).isNone then
      db
    else
      ⟨db.keydb.del fp, (keysubkeys H publickey).foldl Table.del db.subkeydb⟩

/-- `db4_store_key`. -/
def db4StoreKey (db : Db4) (publickey : PublicKey) (update : Bool) : Db4 :=
  match getKeyid H publickey, fingerprint? H publickey.publickey with
  | some _, some fingerprint =>
    let db := if update then db4DeleteKey H db fingerprint else db
    ⟨db.keydb.put fingerprint (reread publickey),
      (keysubkeys H publickey).foldl (fun t fp => t.put fp fingerprint) db.subkeydb⟩
  | _, _ => db

/-- The db4 backend. -/
def db4 : Backend := ⟨Db4, db4FetchKeyFp, db4StoreKey H⟩

/-- The tables agree: keys are stored under their own fingerprints, have a key id, and an entry of
the subkey index leads to a stored key that has this subkey. -/
structure Db4.Consistent (db : Db4) : Prop where
  keydb_fp : ∀ {f k}, db.keydb f = some k → fingerprint? H k.publickey = some f
  keydb_keyid : ∀ {f k}, db.keydb f = some k → (getKeyid H k).isSome
  subkeydb_key : ∀ {s f}, db.subkeydb s = some f → ∃ k, db.keydb f = some k ∧ s ∈ keysubkeys H k

end Onak
