import Onak.KeyDb
import Onak.ParseKey

/-!
# Clients of one keyd server

The requests of `keyd.c` that an update makes, the backend that `keydb_keyd.c` builds on them, and
several clients that each run `generic_update_keys` on one key. Each request is handled by the
server in one go. The client's `starttrans` and `endtrans` do nothing, so between the two requests
of one client the server may handle those of others.
-/

namespace Onak

/-- The requests that an update makes. -/
inductive Request where
  | getFp (fingerprint : Fingerprint)
  | store (key : PublicKey)
  | update (key : PublicKey)

/-- `sock_do` for one request: the database after it, and the key that is sent back. Keys travel as
flattened packets. -/
def sockDo (B : Backend) (db : B.DB) : Request → B.DB × Option PublicKey
  | .getFp fingerprint => (db, (B.fetchKeyFp db fingerprint).map reread)
  | .store key => (B.storeKey db (reread key) false, none)
  | .update key => (B.storeKey db (reread key) true, none)

/-- `keyd_store_key`: the request that is sent, unless the key has no key id. -/
def keydStoreKey (H : Hashes) (publickey : PublicKey) (update : Bool) : Option Request :=
  match getKeyid H publickey with
  | none => none
  | some _ => some (if update then .update publickey else .store publickey)

/-- The keyd backend in front of a server that runs on `B`. -/
def keyd (H : Hashes) (B : Backend) : Backend where
  DB := B.DB
  fetchKeyFp := fun db fingerprint => (sockDo B db (.getFp fingerprint)).2
  storeKey := fun db publickey update =>
    match keydStoreKey H publickey update with
    | none => db
    | some request => (sockDo B db request).1

/-! ## Several clients -/

/-- How far a client has come with its update. -/
inductive Client where
  | start
  | fetched (oldkey : Option PublicKey)
  | done

/-- A database with the clients that work on it. -/
structure Clients (C : Backend) (ι : Type) where
  /-- The database. -/
  db : C.DB
  /-- The clients. -/
  client : ι → Client

section

variable (H : Hashes) (g : Stale) {C : Backend} {ι : Type} [DecidableEq ι] (updateonly : Bool)
  (upload : ι → PublicKey)

/-- Client `i` looks its key up. -/
def Clients.fetch (s : Clients C ι) (i : ι) : Clients C ι :=
  ⟨s.db, Function.update s.client i
    (.fetched (C.fetchKeyFp s.db (fingerprintOf H (upload i).publickey)))⟩

/-- Client `i` goes on with the key that it has fetched. -/
def Clients.finish (s : Clients C ι) (i : ι) (oldkey : Option PublicKey) : Clients C ι :=
  ⟨applyAction C s.db (updateAction H g updateonly oldkey (upload i)),
    Function.update s.client i .done⟩

/-- One step of one client, where `ok` restricts the states in which a client may finish. -/
inductive ClientStep (ok : Clients C ι → ι → Option PublicKey → Prop) :
    Clients C ι → Clients C ι → Prop
  | fetch {s : Clients C ι} {i : ι} (h : s.client i = .start) :
      ClientStep ok s (s.fetch H upload i)
  | finish {s : Clients C ι} {i : ι} {oldkey : Option PublicKey} (h : s.client i = .fetched oldkey)
      (hok : ok s i oldkey) : ClientStep ok s (s.finish H g updateonly upload i oldkey)

/-- The steps of any interleaving. -/
abbrev AnyStep : Clients C ι → Clients C ι → Prop :=
  ClientStep H g updateonly upload fun _ _ _ => True

/-- A client that is about to store something has fetched what a lookup would still find. -/
def Current (s : Clients C ι) (i : ι) (oldkey : Option PublicKey) : Prop :=
  (updateAction H g updateonly oldkey (upload i)).store.isSome →
    C.fetchKeyFp s.db (fingerprintOf H (upload i).publickey) = oldkey

/-- The steps of interleavings in which no client stores over what it has not seen. -/
abbrev CurrentStep : Clients C ι → Clients C ι → Prop :=
  ClientStep H g updateonly upload (Current H g updateonly upload)

/-- All clients are about to start. -/
def Clients.init (db : C.DB) : Clients C ι := ⟨db, fun _ => .start⟩

end

/-- The stored key carries the user ids and subkeys of `orig` and of the uploads of the clients that
have finished. -/
def UploadsKept {C : Backend} {ι : Type} (stored : C.DB → Option PublicKey) (orig : PublicKey)
    (upload : ι → PublicKey) (s : Clients C ι) : Prop :=
  ∃ k, stored s.db = some k ∧ Carries orig k ∧
    ∀ i, s.client i = .done → Carries (upload i) k

end Onak
