import Onak.Merge

/-!
# Comparing signatures in memory

`signatures_match_signer`, `compare_signatures` and `dedupe_sigs` of `merge.c` as they work on list
nodes in memory, with the local variables that they hand to `sig_info` without setting them, and with
what lies in memory behind a packet that is too short. `Onak.Merge` has these functions on lists of
packets.
-/

namespace Onak

/-- `sig_info` on a packet of `length` octets that `data` starts with; `data` goes on with what lies
in memory behind the packet. -/
def sigInfoAt (data : List UInt8) (length : Nat) (keyid : Option UInt64) (creation : Option Int) :
    Option SigInfo := do
  let version ← data[0]?
  if version = 2 ∨ version = 3 then
    let keyid ← if keyid.isNone then pure none else
      (readOctets data 7 8).map fun octets => some (UInt64.ofNat (beNat octets))
    let creation ← if creation.isNone then pure none else
      (readOctets data 3 4).map fun octets => some (beNat octets : Int)
    return ⟨.ok, keyid, creation⟩
  else if version = 4 ∨ version = 5 then
    let (parsed, r) ← parseSubpackets (data.drop 4) (sizeSub length 4)
      (keyid.map fun _ => 0) creation
    if r.status ≠ .ok then
      return r
    if r.keyid = some 0 then
      let (_, r') ← parseSubpackets (data.drop (parsed + 4)) (sizeSub length (4 + parsed))
        r.keyid none
      return ⟨r'.status, r'.keyid, r.creation⟩
    return r
  else
    return ⟨.ok, keyid, creation⟩

/-- A node of a list of signatures. -/
structure SigNode where
  /-- The address of the node. -/
  addr : Nat
  /-- The packet. -/
  packet : Packet
  /-- What lies in memory behind the data of the packet. -/
  behind : List UInt8
  /-- It can be read as far as two length fields of two octets can lead. -/
  readable : 0x30000 ≤ behind.length
deriving DecidableEq

namespace SigNode

variable (s : SigNode)

/-- The octets that can be read from the start of the data on. -/
def memory : List UInt8 := s.packet.data ++ s.behind

/-- What `sig_info(s, &keyid, NULL)` leaves in a variable that holds `junk` before. -/
def keyidAfter (junk : UInt64) : Option UInt64 :=
  (sigInfoAt s.memory s.packet.length (some junk) none).bind SigInfo.keyid

/-- What `sig_info(s, NULL, &creation)` leaves in a variable that holds `junk` before. -/
def creationAfter (junk : Int) : Option Int :=
  (sigInfoAt s.memory s.packet.length none (some junk)).bind SigInfo.creation

end SigNode

/-- `signatures_match_signer`, where `a_keyid` and `b_keyid` hold `aKeyid` and `bKeyid` before. -/
def signaturesMatchSignerAt (a b : SigNode) (aKeyid bKeyid : UInt64) : Option Bool := do
  if a.packet.tag ≠ tagSignature ∨ b.packet.tag ≠ tagSignature then
    return false
  let aVersion ← a.memory[0]?
  let bVersion ← b.memory[0]?
  if aVersion ≠ bVersion then
    return false
  if sigSigtype a.packet ≠ sigSigtype b.packet then
    return false
  let aKeyid ← a.keyidAfter aKeyid
  let bKeyid ← b.keyidAfter bKeyid
  if aKeyid = 0 ∨ bKeyid = 0 then
    return false
  return aKeyid == bKeyid

/-- What the variables of `compare_signatures` hold before. -/
structure CompareVars where
  /-- `a_keyid`. -/
  aKeyid : UInt64
  /-- `b_keyid`. -/
  bKeyid : UInt64
  /-- `a_creation`. -/
  aCreation : Int
  /-- `b_creation`. -/
  bCreation : Int

/-- `compare_signatures`. -/
def compareSignaturesAt (a b : SigNode) (vars : CompareVars) : Option Bool := do
  let aVersion ← a.memory[0]?
  let bVersion ← b.memory[0]?
  if aVersion ≠ bVersion then
    return false
  if aVersion = 4 ∧ a.memory[1]? ≠ b.memory[1]? then
    return false
  let ra ← sigInfoAt a.memory a.packet.length (some vars.aKeyid) (some vars.aCreation)
  let rb ← sigInfoAt b.memory b.packet.length (some vars.bKeyid) (some vars.bCreation)
  return ra.creation = rb.creation ∧ ra.keyid = rb.keyid

/-! ## Dropping repeated signatures -/

/-- The variables of `dedupe_sigs` besides the list and the places in it. -/
structure DedupeVars where
  /-- The tail pointer, if `last_sig` is not `NULL`; the tail pointer itself can be `NULL`. -/
  lastSig : Option (Option Nat)
  /-- `tail_dirty`. -/
  tailDirty : Bool
  /-- `dropped`. -/
  dropped : Nat
  /-- `outer_t`. -/
  outerT : Int
  /-- `inner_t`. -/
  innerT : Int
  /-- The number of calls of `signatures_match_signer` so far. -/
  calls : Nat

/-- What happens to the variables when a node is dropped: the test of the tail pointer, `drop_sig`
and the count. -/
def DedupeVars.drop (vars : DedupeVars) (victim : SigNode) : DedupeVars :=
  if vars.lastSig = some (some victim.addr) then
    { vars with lastSig := some none, tailDirty := true, dropped := vars.dropped + 1 }
  else
    { vars with dropped := vars.dropped + 1 }

section

variable (junk : Nat → UInt64 × UInt64)

/-- The inner loop of `dedupe_sigs`: whether the outer node is to be dropped, and the nodes behind it
that are left. The variables of the `n`th call of `signatures_match_signer` hold `junk n` before. -/
def dedupeInner (outer : SigNode) :
    List SigNode → DedupeVars → Option (Bool × List SigNode × DedupeVars)
  | [], vars => some (false, [], vars)
  | inner :: rest, vars => do
    let same ← signaturesMatchSignerAt outer inner (junk vars.calls).1 (junk vars.calls).2
    let vars := { vars with calls := vars.calls + 1 }
    if !same then
      let r ← dedupeInner outer rest vars
      return (r.1, inner :: r.2.1, r.2.2)
    else if sigIsRevocation (sigSigtype outer.packet) then
      dedupeInner outer rest (vars.drop inner)
    else
      let outerT ← outer.creationAfter vars.outerT
      let innerT ← inner.creationAfter vars.innerT
      let vars := { vars with outerT := outerT, innerT := innerT }
      if innerT > outerT then
        return (true, inner :: rest, vars)
      else
        dedupeInner outer rest (vars.drop inner)

/-- The outer loop of `dedupe_sigs`, in at most as many rounds as there are nodes. -/
def dedupeOuter : Nat → List SigNode → DedupeVars → Option (List SigNode × DedupeVars)
  | 0, _, vars => some ([], vars)
  | _ + 1, [], vars => some ([], vars)
  | fuel + 1, outer :: rest, vars => do
    let r ← dedupeInner junk outer rest vars
    if r.1 then
      dedupeOuter fuel r.2.1 (r.2.2.drop outer)
    else
      let r' ← dedupeOuter fuel r.2.1 r.2.2
      return (outer :: r'.1, r'.2)

/-- What `dedupe_sigs` leaves and returns. -/
structure DedupeResult where
  /-- The nodes that are left. -/
  sigs : List SigNode
  /-- The tail pointer, if `last_sig` is not `NULL`. -/
  lastSig : Option (Option Nat)
  /-- The number of nodes dropped. -/
  dropped : Nat

/-- `dedupe_sigs`, whose variables `outer_t` and `inner_t` hold `outerT` and `innerT` before. -/
def dedupeSigsAt (outerT innerT : Int) (lastSig : Option (Option Nat)) (sigs : List SigNode) :
    Option DedupeResult := do
  let r ← dedupeOuter junk sigs.length sigs ⟨lastSig, false, 0, outerT, innerT, 0⟩
  let lastSig :=
    if r.2.tailDirty then r.2.lastSig.map fun _ => r.1.getLast?.map SigNode.addr else r.2.lastSig
  return ⟨r.1, lastSig, r.2.dropped⟩

end

end Onak
