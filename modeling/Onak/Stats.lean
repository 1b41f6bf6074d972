import Onak.DecodeKey

/-!
# The graph of signatures

The hash of `hash.c`, the cache of signatures that `generic_getkeysigs` and `generic_cached_getkeysigs`
of `keydb.c` keep in it, and the searches of `stats.c` and `sixdegrees.c`. A `struct stats_key` has an
address, and lists of them are lists of addresses. The counters are natural numbers, and `cleanup` does
not ask for an end. A loop that is not over when the fuel is used up gives no result.
-/

namespace Onak

/-- `struct stats_key`. -/
structure StatsKey where
  /-- The key id. -/
  keyid : UInt64
  /-- The mark of a search. -/
  colour : Nat := 0
  /-- The key that led to this one. -/
  parent : UInt64 := 0
  /-- The keys that have signed this one. -/
  sigs : List Nat := []
  /-- The keys that this one is known to have signed. -/
  signs : List Nat := []
  /-- Whether `sigs` has been set. -/
  gotsigs : Bool := false
  /-- Whether searches leave the key out. -/
  disabled : Bool := false
  /-- Whether the key is revoked. -/
  revoked : Bool := false

/-! ## The hash -/

/-- `hashtable` and `elements`, and the keys in memory. -/
structure Hash where
  /-- The key at an address. -/
  node : Nat → StatsKey
  /-- The number of addresses in use; the next key gets this one. -/
  allocated : Nat
  /-- The entries of `hashtable`. -/
  hashtable : Nat → List Nat
  /-- `elements`. -/
  elements : Nat

abbrev hashsize : Nat := 1024

abbrev hashmask : UInt64 := 0x3FF

namespace Hash

/-- `inithash`. -/
def inithash : Hash := ⟨fun _ => ⟨0, 0, 0, [], [], false, false, false⟩, 0, fun _ => [], 0⟩

/-- An assignment to a key. -/
def set (h : Hash) (a : Nat) (key : StatsKey) : Hash := { h with node := Function.update h.node a key }

/-- The entry of a key id. -/
def bucket (keyid : UInt64) : Nat := (keyid &&& hashmask).toNat

/-- `findinhash`. -/
def findinhash (h : Hash) (keyid : UInt64) : Option Nat :=
  (h.hashtable (bucket keyid)).find? fun a => (h.node a).keyid = keyid

/-- `addtohash`. -/
def addtohash (h : Hash) (key : Nat) : Hash :=
  let entry := bucket (h.node key).keyid
  { h with
    elements := h.elements + 1
    hashtable := Function.update h.hashtable entry (key :: h.hashtable entry) }

/-- The new key of `createandaddtohash`. -/
def create (h : Hash) (keyid : UInt64) : Hash :=
  { h with
    node := Function.update h.node h.allocated { keyid }
    allocated := h.allocated + 1 }

/-- `createandaddtohash`. -/
def createandaddtohash (h : Hash) (keyid : UInt64) : Hash × Nat :=
  match h.findinhash keyid with
  | some a => (h, a)
  | none => ((h.create keyid).addtohash h.allocated, h.allocated)

/-- `hashelements`. -/
def hashelements (h : Hash) : Nat := h.elements

/-- `gethashtableentry`. -/
def gethashtableentry (h : Hash) (entry : Nat) : List Nat := h.hashtable entry

/-! ## The cache -/

section

variable (fetchKeyId : UInt64 → Option PublicKey)

/-- The signatures that `generic_getkeysigs` goes through. -/
def uidSigs (publickey : PublicKey) : List Packet := publickey.uids.flatMap SignedPacket.sigs

/-- The loops of `generic_getkeysigs`. -/
def getkeysigsLoop : Hash → List Nat → List Packet → Hash × List Nat
  | h, sigs, [] => (h, sigs)
  | h, sigs, cursig :: cursigs =>
    let (h, key) := h.createandaddtohash (sigKeyid cursig)
    getkeysigsLoop h (key :: sigs) cursigs

/-- `generic_getkeysigs`, with `*revoked` false before. -/
def getkeysigs (h : Hash) (keyid : UInt64) : Hash × List Nat × Bool :=
  match fetchKeyId keyid with
  | none => (h, [], false)
  | some publickey =>
    let (h, sigs) := getkeysigsLoop h [] (uidSigs publickey)
    (h, sigs, publickey.revoked)

/-- A key is put in front of the list of what a signer has signed. -/
def addSigns (key : Nat) (h : Hash) (signedkey : Nat) : Hash :=
  h.set signedkey { h.node signedkey with signs := key :: (h.node signedkey).signs }

/-- What `generic_cached_getkeysigs` does with the signatures of a key that it has got. -/
def fill (h : Hash) (key : Nat) (sigs : List Nat) (revoked : Bool) : Hash :=
  let h := h.set key { h.node key with sigs, revoked }
  let h := sigs.foldl (addSigns key) h
  h.set key { h.node key with gotsigs := true }

/-- `generic_cached_getkeysigs`. -/
def cachedGetkeysigs (h : Hash) (keyid : UInt64) : Hash × List Nat :=
  if keyid = 0 then
    (h, [])
  else
    let key := h.findinhash keyid
    match key.filter fun a => (h.node a).gotsigs with
    | some a => (h, (h.node a).sigs)
    | none =>
      let (h, sigs, revoked) := getkeysigs fetchKeyId h keyid
      if sigs = [] then
        (h, [])
      else
        let (h, key) :=
          match key with
          | none => h.createandaddtohash keyid
          | some a => (h, a)
        (h.fill key sigs revoked, sigs)

end

/-! ## Searches -/

/-- `initcolour`. -/
def initcolour (parent : Bool) (h : Hash) : Hash :=
  (List.range hashsize).foldl (fun h loop =>
    (h.gethashtableentry loop).foldl (fun h curkey =>
      let key := h.node curkey
      h.set curkey { key with colour := 0, parent := if parent then 0 else key.parent }) h) h

/-- A search: the hash, the keys of the next level, the number of keys that were found, and the one that
was found last. -/
structure Search where
  /-- The hash. -/
  hash : Hash
  /-- `nextkeys`. -/
  nextkeys : List Nat := []
  /-- `count`. -/
  count : Nat := 0
  /-- `max`. -/
  max : Nat

/-- The mark of a key that is found. -/
def mark (h : Hash) (curdegree key sig : Nat) : Hash :=
  h.set sig { h.node sig with colour := curdegree, parent := (h.node key).keyid }

section

variable (stop : Hash → Bool) (ok : StatsKey → Bool)

/-- The loop of a search over the signatures on a key, or by a key. -/
def searchSigs (curdegree key : Nat) : List Nat → Search → Search
  | [], s => s
  | sig :: sigs, s =>
    if stop s.hash then
      s
    else if ok (s.hash.node sig) && (s.hash.node sig).colour = 0 then
      searchSigs curdegree key sigs
        ⟨s.hash.mark curdegree key sig, sig :: s.nextkeys, s.count + 1, sig⟩
    else
      searchSigs curdegree key sigs s

variable (go : Nat → Hash → Bool) (expand : Hash → UInt64 → Hash × List Nat)

/-- The loop of a search over keys. -/
def searchLoop : Nat → Nat → List Nat → Search → Option Search
  | 0, _, _, _ => none
  | _ + 1, _, [], s => some s
  | fuel + 1, curdegree, key :: keys, s =>
    if go curdegree s.hash then
      let (hash, sigs) := expand s.hash (s.hash.node key).keyid
      let s := searchSigs stop ok curdegree key sigs { s with hash }
      if keys = [] then
        searchLoop fuel (curdegree + 1) s.nextkeys { s with nextkeys := [] }
      else
        searchLoop fuel curdegree keys s
    else
      some s

end

variable (fetchKeyId : UInt64 → Option PublicKey)

/-- `findpath`. -/
def findpath (fuel : Nat) (h : Hash) (haveKey want : Nat) : Option Search :=
  searchLoop (fun h => (h.node haveKey).colour ≠ 0) (fun key => !key.disabled && !key.revoked)
    (fun _ h => (h.node haveKey).colour = 0) (cachedGetkeysigs fetchKeyId) fuel 1 [want]
    { hash := h, max := want }

/-- `furthestkey`. -/
def furthestkey (fuel : Nat) (h : Hash) (haveKey : Nat) : Option Search :=
  searchLoop (fun _ => false) (fun _ => true) (fun _ _ => true) (cachedGetkeysigs fetchKeyId) fuel 1
    [haveKey] { hash := h, max := haveKey }

/-- The keys that a key has signed, as far as that is known. -/
def cachedSigns (h : Hash) (keyid : UInt64) : Hash × List Nat :=
  match h.findinhash keyid with
  | none => (h, [])
  | some key => (h, (h.node key).signs)

/-- `countdegree`. The comparison of the degree with `maxdegree` is one of `unsigned long`s. -/
def countdegree (fuel : Nat) (h : Hash) (haveKey : Nat) (sigs : Bool) (maxdegree : Int) :
    Option Search :=
  searchLoop (fun _ => false) (fun _ => true) (fun curdegree _ => curdegree ≤ (maxdegree % 2 ^ 64).toNat)
    (if sigs then cachedGetkeysigs fetchKeyId else cachedSigns) fuel 1 [haveKey]
    { hash := h, max := haveKey }

/-! ## Paths -/

/-- What `dofindpath` prints. -/
inductive PathLine
  /-- A key that is not in the cache. -/
  | couldntFind (keyid : UInt64)
  /-- The numbers of a search. -/
  | examined (nodes elements : Nat)
  /-- There is no path. -/
  | noLink
  /-- There are no more paths. -/
  | noFurther
  /-- The length of a path. -/
  | steps (colour : Nat)
  /-- The keys of a path, each of which signs the next. -/
  | path (keyids : List UInt64)
  /-- The list of the key ids of a path. -/
  | keyids (keyids : List UInt64)

/-- The loop that prints a path and disables the keys on it. -/
def printPath (keyinfoa keyinfob : Nat) : Nat → Hash → Option Nat → Option (Hash × List UInt64)
  | _, h, none => some (h, [])
  | 0, _, some _ => none
  | fuel + 1, h, some curkey =>
    if (h.node curkey).keyid = 0 then
      some (h, [])
    else do
      let h :=
        if curkey ≠ keyinfoa ∧ curkey ≠ keyinfob then
          h.set curkey { h.node curkey with disabled := true }
        else
          h
      let (h', keyids) ← printPath keyinfoa keyinfob fuel h (h.findinhash (h.node curkey).parent)
      return (h', (h.node curkey).keyid :: keyids)

/-- The loop that prints the list of the key ids. -/
def printKeyids (h : Hash) : Nat → Option Nat → Option (List UInt64)
  | _, none => some []
  | 0, some _ => none
  | fuel + 1, some curkey =>
    if (h.node curkey).keyid = 0 then
      some []
    else do
      return (h.node curkey).keyid :: (← printKeyids h fuel (h.findinhash (h.node curkey).parent))

/-- The search of a round of `dofindpath`: the number of keys it has found, and the hash with the parent of
the last key of a path cleared. -/
def findpathRound (fuel : Nat) (h : Hash) (keyinfoa keyinfob : Nat) : Option (Nat × Hash) := do
  let s ← findpath fetchKeyId fuel (initcolour true h) keyinfoa keyinfob
  return (s.count, s.hash.set keyinfob { s.hash.node keyinfob with parent := 0 })

/-- The loop of `dofindpath`, with the rounds that are left of `count`, and whether this is the first. -/
def dofindpathLoop (fuel keyinfoa keyinfob : Nat) :
    Nat → Bool → Hash → Option (Hash × List PathLine)
  | 0, _, h => some (h, [])
  | rounds + 1, first, h => do
    let (count, h) ← findpathRound fetchKeyId fuel h keyinfoa keyinfob
    let colour := (h.node keyinfoa).colour
    if colour = 0 then
      return (h, [.examined count h.hashelements, if first then .noLink else .noFurther])
    else
      let (h, keys) ← printPath keyinfoa keyinfob fuel h (some keyinfoa)
      let ids ← printKeyids h fuel (some keyinfoa)
      let printed := [.examined count h.hashelements, .steps colour, .path keys, .keyids ids]
      -- a path of one step has no key to disable
      if colour = 1 then
        return (h, printed)
      else
        let (h, lines) ← dofindpathLoop fuel keyinfoa keyinfob rounds false h
        return (h, printed ++ lines)

/-- `dofindpath`. -/
def dofindpath (fuel : Nat) (h : Hash) (haveId want : UInt64) (count : Int) :
    Option (Hash × List PathLine) :=
  let h := (cachedGetkeysigs fetchKeyId h haveId).1
  let h := (cachedGetkeysigs fetchKeyId h want).1
  match h.findinhash haveId, h.findinhash want with
  | none, _ => some (h, [.couldntFind haveId])
  | some _, none => some (h, [.couldntFind want])
  | some keyinfoa, some keyinfob =>
    dofindpathLoop fetchKeyId fuel keyinfoa keyinfob count.toNat true h

end Hash

end Onak
