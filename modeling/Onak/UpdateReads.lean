import Onak.KeyDb
import Onak.MergeReads

/-!
# Updating, and what merging reads

`generic_update_keys` of `Onak.KeyDb` once more, over the `merge_keys` of `Onak.MergeReads`: it has no
result where a merge on the way has none.
-/

namespace Onak

section

variable (H : Hashes) (R : SigReading)

/-- The body of the loop of `generic_update_keys` behind `fetch_key_fp`. -/
def updateActionIn (updateonly : Bool) (oldkey : Option PublicKey) (curkey : PublicKey) :
    Option UpdateAction :=
  match oldkey with
  | none =>
    some (if updateonly then ⟨none, some curkey, 0⟩ else ⟨some (curkey, false), some curkey, 1⟩)
  | some oldkey => do
    let m ← mergeKeysIn H R oldkey curkey
    return if m.b.sigs = [] ∧ m.b.uids = [] ∧ m.b.subkeys = [] then ⟨none, none, 0⟩
      else ⟨some (m.a, true), some m.b, 0⟩

variable (B : Backend) (blacklist : List Fingerprint) (updateonly : Bool)

/-- One round of the loop of `generic_update_keys`. -/
def updateKeyIn (db : B.DB) (curkey : PublicKey) : Option (B.DB × Option PublicKey × Nat) :=
  let fp := fingerprintOf H curkey.publickey
  if blacklist.contains fp then
    some (db, none, 0)
  else do
    let act ← updateActionIn H R updateonly (B.fetchKeyFp db fp) curkey
    return (applyAction B db act, act.left, act.newkeys)

/-- The loop of `generic_update_keys`. -/
def updateLoopIn (db : B.DB) : List PublicKey → Option (B.DB × List PublicKey × Nat)
  | [] => some (db, [], 0)
  | curkey :: keys => do
    let r ← updateKeyIn H R B blacklist updateonly db curkey
    let rest ← updateLoopIn r.1 keys
    return (rest.1, r.2.1.toList ++ rest.2.1, r.2.2 + rest.2.2)

/-- `generic_update_keys`. -/
def genericUpdateKeysIn (sendsync : Bool) (db : B.DB) (keys : List PublicKey) :
    Option (UpdateResult B) := do
  let r ← updateLoopIn H R B blacklist updateonly db keys
  return ⟨r.1, r.2.1, r.2.2, if sendsync then r.2.1 else []⟩

end

end Onak
