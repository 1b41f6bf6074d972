import Onak.CleanKey
import Onak.Db4Fetch

/-!
# Stacked backends

The lookups of `keydb_stacked.c`. They ask the backends one after the other, and store what comes
back in the first one if `store_on_fallback` says so. A backend's own lookups only read its data;
stacks are not put into stacks.
-/

namespace Onak

/-- A lookup with its arguments. -/
inductive FetchRequest where
  | fetchKey (fp : Fingerprint) (intrans : Bool)
  | fetchKeyFp (fp : Fingerprint) (intrans : Bool)
  | fetchKeyId (keyid : UInt64) (intrans : Bool)
  | fetchKeyText (search : List UInt8)
  | fetchKeySkshash (hash : List UInt8)

/-- `struct onak_dbctx`, with the operations that the stack's lookups call. -/
structure DbCtx where
  /-- What the backend can have stored. -/
  DB : Type
  /-- What it has stored. -/
  db : DB
  /-- The lookups: what is returned, and the caller's list of keys behind the call. -/
  fetch : DB → FetchRequest → List PublicKey → Int × List PublicKey
  /-- `store_key`, with the arguments `intrans` and `update`. -/
  storeKey : DB → PublicKey → Bool → Bool → DB

/-- The backend's answer to a request. -/
def DbCtx.answer (ctx : DbCtx) (request : FetchRequest) (keys : List PublicKey) :
    Int × List PublicKey :=
  ctx.fetch ctx.db request keys

/-- The lookups that `cleankeys` makes in the backend. -/
def DbCtx.lookups (ctx : DbCtx) : Lookups where
  fetchKeyId keyid := (ctx.answer (.fetchKeyId keyid false) []).2
  fetchKey fp := (ctx.answer (.fetchKey fp false) []).1 ≠ 0

/-- The backend behind a call of its `store_key`, not as an update. -/
def DbCtx.store (ctx : DbCtx) (intrans : Bool) (key : PublicKey) : DbCtx :=
  { ctx with db := ctx.storeKey ctx.db key intrans false }

/-- The backend while the keys are stored one after the other: at first, and behind each call. -/
def DbCtx.storeAll (ctx : DbCtx) (intrans : Bool) (keys : List PublicKey) : List DbCtx :=
  keys.scanl (fun ctx key => ctx.store intrans key) ctx

/-- `struct onak_stacked_dbctx`. There is at least one backend, or `keydb_stacked_init` installs no
lookups. -/
structure StackedDbCtx where
  /-- The first backend. -/
  first : DbCtx
  /-- The backends behind it. -/
  rest : List DbCtx
  /-- Whether keys are stored in the first backend. `keydb_stacked_init` sets it. -/
  storeOnFallback : Bool

/-- The stack. -/
def StackedDbCtx.backends (S : StackedDbCtx) : List DbCtx := S.first :: S.rest

/-- What a lookup in the stack leaves behind. -/
structure StackedResult where
  /-- What it returns. -/
  res : Int
  /-- The list that the caller's pointer leads to, or nothing if the memory was freed. -/
  keys : Option (List PublicKey)
  /-- The stack as it goes on: behind the lookups of the backends, and behind each call of
  `store_key`. -/
  passed : List StackedDbCtx

/-- The loop of the lookups: the result, the caller's list, and where `cur` has got to. -/
def stackedLoop (request : FetchRequest) :
    Int → List PublicKey → List DbCtx → Int × List PublicKey × List DbCtx
  | res, keys, [] => (res, keys, [])
  | res, keys, backend :: cur =>
    if res = 0 then
      let r := backend.answer request keys
      stackedLoop request r.1 r.2 cur
    else
      (res, keys, backend :: cur)

section

variable (H : Hashes) (g : Stale) (C : SigCheck) (policies : Policies)

/-- `store_on_fallback`. The keys are cleaned in place, but the pointer to the first of them is the
function's own: when that key is dropped, the caller's pointer is left to freed memory. -/
def storeOnFallback (S : StackedDbCtx) (publickey : List PublicKey) (intrans : Bool) :
    Option (List PublicKey) × List StackedDbCtx :=
  let clean := fun keys => (cleankeys H g C S.first.lookups policies keys).1
  let caller :=
    match publickey with
    | [] => some []
    | key :: _ => if clean [key] = [] then none else some (clean publickey)
  (caller, (S.first.storeAll intrans (clean publickey)).map fun first => { S with first := first })

/-- What the five lookups have in common. `intrans` is handed on to `store_on_fallback`. -/
def stackedFetch (S : StackedDbCtx) (request : FetchRequest) (intrans : Bool)
    (keys : List PublicKey) : StackedResult :=
  let r := stackedLoop request 0 keys S.backends
  -- `cur` is compared with the head of the list behind the loop, so one round is enough.
  if S.storeOnFallback ∧ r.2.2.length ≠ S.backends.length then
    let stored := storeOnFallback H g C policies S r.2.1 intrans
    ⟨r.1, stored.1, stored.2⟩
  else
    ⟨r.1, some r.2.1, [S]⟩

/-- `stacked_fetch_key`. -/
def stackedFetchKey (S : StackedDbCtx) (fingerprint : Fingerprint) (keys : List PublicKey)
    (intrans : Bool) : StackedResult :=
  stackedFetch H g C policies S (.fetchKey fingerprint intrans) intrans keys

/-- `stacked_fetch_key_fp`. -/
def stackedFetchKeyFp (S : StackedDbCtx) (fingerprint : Fingerprint) (keys : List PublicKey)
    (intrans : Bool) : StackedResult :=
  stackedFetch H g C policies S (.fetchKeyFp fingerprint intrans) intrans keys

/-- `stacked_fetch_key_id`. -/
def stackedFetchKeyId (S : StackedDbCtx) (keyid : UInt64) (keys : List PublicKey)
    (intrans : Bool) : StackedResult :=
  stackedFetch H g C policies S (.fetchKeyId keyid intrans) intrans keys

/-- `stacked_fetch_key_text`. -/
def stackedFetchKeyText (S : StackedDbCtx) (search : List UInt8) (keys : List PublicKey) :
    StackedResult :=
  stackedFetch H g C policies S (.fetchKeyText search) false keys

/-- `stacked_fetch_key_skshash`. -/
def stackedFetchKeySkshash (S : StackedDbCtx) (hash : List UInt8) (keys : List PublicKey) :
    StackedResult :=
  stackedFetch H g C policies S (.fetchKeySkshash hash) false keys

/-- The lookup that a request calls. -/
def StackedDbCtx.lookup (S : StackedDbCtx) (request : FetchRequest) (keys : List PublicKey) :
    StackedResult :=
  match request with
  | .fetchKey fp intrans => stackedFetchKey H g C policies S fp keys intrans
  | .fetchKeyFp fp intrans => stackedFetchKeyFp H g C policies S fp keys intrans
  | .fetchKeyId keyid intrans => stackedFetchKeyId H g C policies S keyid keys intrans
  | .fetchKeyText search => stackedFetchKeyText H g C policies S search keys
  | .fetchKeySkshash hash => stackedFetchKeySkshash H g C policies S hash keys

/-! ## What a lookup should do -/

/-- The lookup changes the data of no backend at any time, and gives the caller what the first backend
has answered. -/
def StackedDbCtx.OnlyReads (S : StackedDbCtx) (request : FetchRequest) (keys : List PublicKey) :
    Prop :=
  (∀ S' ∈ (S.lookup H g C policies request keys).passed, S'.backends = S.backends) ∧
    (S.lookup H g C policies request keys).keys = some (S.first.answer request keys).2

end

/-- The argument `intrans` of a request. A search for text or by hash does not have it, and hands
on `false`. -/
def FetchRequest.intrans : FetchRequest → Bool
  | .fetchKey _ intrans => intrans
  | .fetchKeyFp _ intrans => intrans
  | .fetchKeyId _ intrans => intrans
  | .fetchKeyText _ => false
  | .fetchKeySkshash _ => false

/-! ## db4 as a backend of a stack -/

/-- The keys that a lookup of the db4 backend finds. -/
def Tables.find (t : Tables) (maxkeys : Nat) : FetchRequest → List PublicKey
  | .fetchKey fp _ => t.fetchKey fp
  | .fetchKeyFp fp _ => (t.fetchKeyFp fp).toList
  | .fetchKeyId keyid _ => t.fetchKeyId keyid
  | .fetchKeyText search => t.fetchKeyText maxkeys search
  | .fetchKeySkshash hash => t.fetchKeySkshash hash

/-- The db4 backend. Its lookups add to the caller's list and return how much they have added. -/
def db4Ctx (H : Hashes) (maxkeys : Nat) (t : Tables) : DbCtx where
  DB := Tables
  db := t
  fetch t request keys := ((t.find maxkeys request).length, keys ++ t.find maxkeys request)
  storeKey t key _ update := t.after H (.store key update)

end Onak
