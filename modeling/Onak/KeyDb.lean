import Onak.MergeSpec

/-!
# Updating keys in a database

`generic_update_keys` of `keydb.c`, over the operations of a database backend that it calls. A
backend's `starttrans` and `endtrans` bracket each round; what happens when other clients work on
the database at the same time is the subject of `Onak.Keyd`.
-/

namespace Onak

variable (H : Hashes)

/-- The fingerprint that `get_fingerprint` leaves behind when its status is ignored: empty for an
unknown version. -/
def fingerprintOf (p : Packet) : Fingerprint :=
  ((getFingerprint H p).map Prod.snd).getD []

/-- `keysubkeys`, read up to the entry of length zero that ends the array. A subkey of unknown
version gets such an entry, and hides the subkeys behind it. -/
def keysubkeys (key : PublicKey) : List Fingerprint :=
  (key.subkeys.map fun sp => fingerprintOf H sp.packet).takeWhile (· ≠ [])

/-- The operations of a backend that `generic_update_keys` calls. -/
structure Backend where
  /-- The state of the database. -/
  DB : Type
  /-- `fetch_key_fp`: the key found for a fingerprint. -/
  fetchKeyFp : DB → Fingerprint → Option PublicKey
  /-- `store_key`, whose last argument is `update`. -/
  storeKey : DB → PublicKey → Bool → DB

/-- What `generic_update_keys` does with one key once the lookup has answered. -/
structure UpdateAction where
  /-- The key to store and the `update` flag, if anything is to be stored. -/
  store : Option (PublicKey × Bool)
  /-- What stays of the key in the list. -/
  left : Option PublicKey
  /-- What is added to the count of new keys. -/
  newkeys : Nat

/-- The body of the loop of `generic_update_keys` behind `fetch_key_fp`: skip, merge or add. The
result of `merge_keys` is not looked at. -/
def updateAction (g : Stale) (updateonly : Bool) (oldkey : Option PublicKey) (curkey : PublicKey) :
    UpdateAction :=
  match oldkey with
  | none => if updateonly then ⟨none, some curkey, 0⟩ else ⟨some (curkey, false), some curkey, 1⟩
  | some oldkey =>
    let m := mergeKeys H g oldkey curkey
    if m.b.sigs = [] ∧ m.b.uids = [] ∧ m.b.subkeys = [] then
      ⟨none, none, 0⟩
    else
      ⟨some (m.a, true), some m.b, 0⟩

/-- The effect of an action on the database. -/
def applyAction (B : Backend) (db : B.DB) (act : UpdateAction) : B.DB :=
  match act.store with
  | none => db
  | some (key, update) => B.storeKey db key update

/-- What `generic_update_keys` leaves behind. -/
structure UpdateResult (B : Backend) where
  /-- The database. -/
  db : B.DB
  /-- The key list, reduced to what was new. -/
  keys : List PublicKey
  /-- The number of entirely new keys. -/
  newkeys : Nat
  /-- The keys handed to `sendkeysync`. -/
  sync : List PublicKey

section

variable (B : Backend) (g : Stale) (blacklist : List Fingerprint) (updateonly : Bool)

/-- One round of the loop of `generic_update_keys`. -/
def updateKey (db : B.DB) (curkey : PublicKey) : B.DB × Option PublicKey × Nat :=
  let fp := fingerprintOf H curkey.publickey
  if fp ∈ blacklist then
    (db, none, 0)
  else
    let act := updateAction H g updateonly (B.fetchKeyFp db fp) curkey
    (applyAction B db act, act.left, act.newkeys)

/-- The loop of `generic_update_keys`. -/
def updateLoop (db : B.DB) : List PublicKey → B.DB × List PublicKey × Nat
  | [] => (db, [], 0)
  | curkey :: keys =>
    let r := updateKey H B g blacklist updateonly db curkey
    let rest := updateLoop r.1 keys
    (rest.1, r.2.1.toList ++ rest.2.1, r.2.2 + rest.2.2)

/-- `generic_update_keys`. -/
def genericUpdateKeys (sendsync : Bool) (db : B.DB) (keys : List PublicKey) : UpdateResult B :=
  let r := updateLoop H B g blacklist updateonly db keys
  ⟨r.1, r.2.1, r.2.2, if sendsync then r.2.1 else []⟩

end

/-! ## What a backend promises -/

/-- What the updates rely on in a backend, in terms of the keys that are stored under their primary
fingerprints. `Inv` are the states the backend can be in. Only packets are stored: the `revoked`
flag is worked out again when a key is read. -/
structure Backend.Lawful (B : Backend) where
  /-- The states that the backend can be in. -/
  Inv : B.DB → Prop
  /-- The key stored under a primary fingerprint. -/
  stored : B.DB → Fingerprint → Option PublicKey
  /-- The form in which a key is read back. -/
  reread : PublicKey → PublicKey
  reread_packets : ∀ k, reread k = { k with revoked := (reread k).revoked }
  stored_fp : ∀ {db f k}, Inv db → stored db f = some k → fingerprint? H k.publickey = some f
  stored_keyid : ∀ {db f k}, Inv db → stored db f = some k → (getKeyid H k).isSome
  /-- A stored key is found by its fingerprint. -/
  fetch_stored : ∀ {db f k}, Inv db → stored db f = some k → B.fetchKeyFp db f = some k
  /-- What is found is a stored key that has the fingerprint, as primary key or as subkey. -/
  fetch_sound : ∀ {db f k}, Inv db → B.fetchKeyFp db f = some k →
    ∃ f', stored db f' = some k ∧ (f' = f ∨ f ∈ keysubkeys H k)
  /-- A key without a key id is not stored. -/
  store_no_keyid : ∀ {db k} u, getKeyid H k = none → B.storeKey db k u = db
  /-- Storing a key with the right `update` flag changes this one entry. -/
  store : ∀ {db f k u}, Inv db → fingerprint? H k.publickey = some f → (getKeyid H k).isSome →
    u = (stored db f).isSome → Inv (B.storeKey db k u) ∧
      ∀ f', stored (B.storeKey db k u) f' = if f' = f then some (reread k) else stored db f'

/-- Every user id and every subkey of `k` is on `k'`. -/
def Carries (k k' : PublicKey) : Prop := OnAll k.uids k'.uids ∧ OnAll k.subkeys k'.subkeys

section

variable {B : Backend} (L : B.Lawful H) (g : Stale) (blacklist : List Fingerprint)

/-- Each key that is not blacklisted is stored under its own fingerprint, with its user ids and
subkeys and with those that were stored there before. -/
def Uploaded (db db' : B.DB) (keys : List PublicKey) : Prop :=
  ∀ key ∈ keys, fingerprintOf H key.publickey ∉ blacklist →
    ∃ k, L.stored db' (fingerprintOf H key.publickey) = some k ∧ Carries key k ∧
      ∀ old, L.stored db (fingerprintOf H key.publickey) = some old → Carries old k

/-- The stored keys whose fingerprints are not in the list are the same. -/
def OthersKept (db db' : B.DB) (keys : List PublicKey) : Prop :=
  ∀ f, (∀ key ∈ keys, fingerprintOf H key.publickey ≠ f) → L.stored db' f = L.stored db f

/-- What an update of `db` with `keys` is for, in the database `db'` it leaves. -/
structure UpdateMeets (db db' : B.DB) (keys : List PublicKey) : Prop where
  uploaded : Uploaded H L blacklist db db' keys
  others : OthersKept H L db db' keys

/-- The round for `key` in the state `db` comes out right: the lookup finds nothing and the key has
a key id, or it finds a key with the same primary fingerprint that has the same key id or already
carries everything. -/
def RoundSafe (db : B.DB) (key : PublicKey) : Prop :=
  match B.fetchKeyFp db (fingerprintOf H key.publickey) with
  | none => (getKeyid H key).isSome
  | some old => fingerprint? H old.publickey = fingerprint? H key.publickey ∧
      (SameKeyid H old key ∨ Carries key old)

/-- Each round for a key that is not blacklisted comes out right in the state before it. -/
def RoundsSafe (db : B.DB) : List PublicKey → Prop
  | [] => True
  | key :: keys =>
    (fingerprintOf H key.publickey ∉ blacklist → RoundSafe H db key) ∧
      RoundsSafe (updateKey H B g blacklist false db key).1 keys

end

end Onak
