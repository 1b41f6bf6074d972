import Onak.Lib.KeyedSort
import Onak.Stats

/-!
# The archive for wotsap

`wotsap` of `wotsap.c` with `sortkeyll` and `output_key`, and `generic_keyid2uid` of `keydb.c`. The files
are their octets. `sortkeyll` links the cells of a list anew, and the pointer of the key to its list still
points to the cell that was the first one.
-/

namespace Onak

namespace Hash

/-! ## The lists of signers -/

/-- `sortkeyll`. -/
def sortkeyll (h : Hash) (keys : List Nat) : List Nat :=
  KeyedSort.sort (fun key => (h.node key).keyid.toNat) keys

/-- `sortkeyll` on the list of the key with a key id: the sorted list, and what the key has of it. -/
def sortSigs (h : Hash) (keyid : UInt64) (sigll : List Nat) : Hash × List Nat :=
  let sorted := h.sortkeyll sigll
  match sigll, h.findinhash keyid with
  | first :: _, some key =>
    (h.set key { h.node key with sigs := sorted.dropWhile fun cell => cell ≠ first }, sorted)
  | _, _ => (h, sorted)

end Hash

namespace Wotsap

open Hash

/-! ## The files -/

/-- The variables of `wotsap`. -/
structure State where
  /-- The hash. -/
  hash : Hash
  /-- `curidx`. -/
  curidx : Nat := 0
  /-- `pending`. -/
  pending : List Nat := []
  /-- `names`. -/
  names : List UInt8 := []
  /-- `keys`. -/
  keys : List UInt8 := []
  /-- `sigs`. -/
  sigs : List UInt8 := []

/-- The four octets of a number of 32 bits, after `htonl`. -/
def htonl (n : Nat) : List UInt8 :=
  [UInt8.ofNat (n >>> 24), UInt8.ofNat (n >>> 16), UInt8.ofNat (n >>> 8), UInt8.ofNat n]

/-- `snprintf(buf, 1023, "%.*s", length, data)`. -/
def uidText (data : List UInt8) : List UInt8 := (data.takeWhile fun c => c ≠ 0).take 1022

section

variable (fetchKeyId : UInt64 → Option PublicKey) (printNull : Option (List UInt8))

/-- `generic_keyid2uid`. -/
def keyid2uid (keyid : UInt64) : Option (List UInt8) :=
  match fetchKeyId keyid with
  | none => none
  | some publickey =>
    ((publickey.uids.filter fun curuid => curuid.packet.tag = tagUid).map fun curuid =>
      uidText curuid.packet.data).find? fun buf => buf ≠ []

/-- `output_key`. What is printed for a null pointer is up to the C library, and may have no meaning. -/
def outputKey (keyid : UInt64) (s : State) : Option State := do
  let uid ← (keyid2uid fetchKeyId keyid).or printNull
  return { s with
    names := s.names ++ (uid ++ [10])
    keys := s.keys ++ htonl (keyid.toNat % 2 ^ 32) }

/-! ## Signatures -/

/-- A signer is numbered if it is new, has a name, and is not revoked. -/
def addSigner (s : State) (addkey : Nat) : Option State :=
  let key := s.hash.node addkey
  if key.colour = 0 ∧ key.revoked = false then
    match keyid2uid fetchKeyId key.keyid with
    | none => some s
    | some _ =>
      let hash := (cachedGetkeysigs fetchKeyId s.hash key.keyid).1
      if (hash.node addkey).revoked then
        some { s with hash }
      else
        outputKey fetchKeyId printNull key.keyid
          { s with
            hash := hash.set addkey { hash.node addkey with colour := s.curidx + 1 }
            curidx := s.curidx + 1
            pending := s.pending ++ [addkey] }
  else
    some s

/-- The loop that counts the signatures. -/
def countSigs : List Nat → Nat → State → Option (Nat × State)
  | [], sigcount, s => some (sigcount, s)
  | addkey :: sigll, sigcount, s => do
    let s ← addSigner fetchKeyId printNull s addkey
    countSigs sigll (if (s.hash.node addkey).colour ≠ 0 then sigcount + 1 else sigcount) s

/-- The loop that writes the signatures. -/
def entries (h : Hash) (sigll : List Nat) : List UInt8 :=
  (sigll.filter fun addkey => (h.node addkey).colour ≠ 0).flatMap fun addkey =>
    htonl (((h.node addkey).colour - 1) ||| 0x40000000)

/-- The loop over the pending keys. -/
def pendingLoop : Nat → State → Option State
  | 0, _ => none
  | fuel + 1, s =>
    match s.pending with
    | [] => some s
    | curkey :: _ => do
      let keyid := (s.hash.node curkey).keyid
      let (hash, sigll) := cachedGetkeysigs fetchKeyId s.hash keyid
      let (hash, sigll) := hash.sortSigs keyid sigll
      let (sigcount, s) ← countSigs fetchKeyId printNull sigll 0 { s with hash }
      pendingLoop fuel { s with
        sigs := s.sigs ++ (htonl sigcount ++ entries s.hash sigll)
        pending := s.pending.tail }

/-- `wotsap`, up to the loop over the pending keys. -/
def start (keyid : UInt64) : Option State :=
  let hash := (cachedGetkeysigs fetchKeyId inithash keyid).1
  match hash.findinhash keyid with
  | none => none
  | some curkey =>
    outputKey fetchKeyId printNull (hash.node curkey).keyid
      { hash := hash.set curkey { hash.node curkey with colour := 1 }
        curidx := 1
        pending := [curkey] }

/-- `wotsap`. -/
def wotsap (fuel : Nat) (keyid : UInt64) : Option State := do
  pendingLoop fetchKeyId printNull fuel (← start fetchKeyId printNull keyid)

end

end Wotsap

end Onak
