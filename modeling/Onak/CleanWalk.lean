import Onak.CleanKey

/-!
# The loops of `clean_key_signatures`

`clean_sighashes`, `clean_list_sighashes` and `clean_key_signatures` of `cleankey.c` as the loops
they are. `Onak.CleanKey` says which signatures and packets they leave; here each loop moves a
pointer to the link that it looks at next, and unlinks from under it. What the pointer has moved past
is `kept`, and the flags and counters go from round to round.
-/

namespace Onak.Walk

/-- A flag that is set through a pointer; `none` is the `NULL` pointer. -/
abbrev Flag := Option Bool

/-- Stores a value through the pointer, if it is not `NULL`. -/
def Flag.store (f : Flag) (b : Bool) : Flag := f.map fun _ => b

/-- The variables of `clean_sighashes` that outlive a round. -/
structure SigsVars where
  /-- The signatures that `sigs` has moved past. -/
  kept : List Packet
  /-- `removed`. -/
  removed : Nat
  /-- `*selfsig`. -/
  selfsig : Flag
  /-- `*othersig`. -/
  othersig : Flag

/-- The variables of `clean_list_sighashes` that outlive a round. -/
structure ListVars where
  /-- The packets that `siglist` has moved past. -/
  kept : List SignedPacket
  /-- `removed`. -/
  removed : Nat
  /-- `othersig`. -/
  othersig : Bool

section

variable (H : Hashes) (g : Stale) (C : SigCheck) (D : Lookups)

/-- The key id that `get_keyid` leaves in a variable that held `stale`. -/
def keyidOf (stale : UInt64) (publickey : Packet) : UInt64 :=
  match getPacketid H publickey with
  | some (.ok, keyid) => keyid
  | _ => stale

/-- The loop over the keys that were fetched, up to the first that verifies the signature. -/
def tryKeys (sig : Packet) (h : SigHash) : List PublicKey → Bool
  | [] => false
  | curkey :: rest =>
    if C.checkHashSig curkey.publickey sig h = .ok then true else tryKeys sig h rest

/-- One round of the loop of `clean_sighashes`, for the signature that `sigs` points to. -/
def sigRound (publickey : Packet) (keyid : UInt64) (sigdata : Option Packet) (fullverify : Bool)
    (v : SigsVars) (sig : Packet) : SigsVars :=
  let h := C.calculatePacketSighash publickey sigdata sig
  let remove :=
    if h.status = .unsupportedFeature then
      fullverify
    else
      h.status ≠ .ok ∨
        (!fullverify ∧ ¬ (h.hash[0]? = h.sighash[0]? ∧ h.hash[1]? = h.sighash[1]?))
  let (remove, v) :=
    if fullverify ∧ !remove then
      let sigid := issuer g sig
      -- a bad signature, unless one of the two checks says otherwise
      let (remove, v) :=
        if sigid = keyid ∧ C.checkHashSig publickey sig h = .ok then
          (false, { v with selfsig := v.selfsig.store true })
        else
          (true, v)
      let sigkeys := if remove then D.fetchKeyId sigid else []
      if tryKeys C sig h sigkeys then (false, { v with othersig := v.othersig.store true })
      else (remove, v)
    else
      (remove, v)
  if remove then { v with removed := v.removed + 1 } else { v with kept := v.kept ++ [sig] }

/-- The loop of `clean_sighashes`. -/
def sigsLoop (publickey : Packet) (keyid : UInt64) (sigdata : Option Packet) (fullverify : Bool) :
    SigsVars → List Packet → SigsVars
  | v, [] => v
  | v, sig :: rest =>
    sigsLoop publickey keyid sigdata fullverify
      (sigRound g C D publickey keyid sigdata fullverify v sig) rest

/-- `clean_sighashes`; `stale` is what the variable for the key id holds at first. -/
def cleanSighashes (stale : UInt64) (publickey : Packet) (sigdata : Option Packet)
    (fullverify : Bool) (selfsig othersig : Flag) (sigs : List Packet) : SigsVars :=
  sigsLoop g C D publickey (keyidOf H stale publickey) sigdata fullverify
    ⟨[], 0, selfsig.store false, othersig⟩ sigs

/-- One round of the first loop of `clean_list_sighashes`. -/
def listRound (stale : UInt64) (publickey : Packet) (fullverify : Bool) (v : ListVars)
    (sp : SignedPacket) : ListVars :=
  let r := cleanSighashes H g C D stale publickey (some sp.packet) fullverify (some false)
    (some v.othersig) sp.sigs
  let v := { v with removed := v.removed + r.removed, othersig := r.othersig.getD v.othersig }
  if fullverify ∧ r.selfsig = some false then
    v
  else
    { v with kept := v.kept ++ [{ sp with sigs := r.kept }] }

/-- The first loop of `clean_list_sighashes`. -/
def listLoop (stale : UInt64) (publickey : Packet) (fullverify : Bool) :
    ListVars → List SignedPacket → ListVars
  | v, [] => v
  | v, sp :: rest =>
    listLoop stale publickey fullverify (listRound H g C D stale publickey fullverify v sp) rest

/-- The second loop of `clean_list_sighashes`: unlinks the first packet until there is none. -/
def unlinkAll : List SignedPacket → List SignedPacket
  | [] => []
  | _ :: rest => unlinkAll rest

/-- `clean_list_sighashes`: the list that is left and the returned value. -/
def cleanListSighashes (stale : UInt64) (publickey : Packet) (fullverify needother : Bool)
    (siglist : List SignedPacket) : List SignedPacket × Nat :=
  let v := listLoop H g C D stale publickey fullverify ⟨[], 0, false⟩ siglist
  (if needother ∧ fullverify ∧ !v.othersig then unlinkAll v.kept else v.kept, v.removed)

/-- `clean_key_signatures`: the key that is left and the returned value. -/
def cleanKeySignatures (stale : UInt64) (key : PublicKey) (fullverify needother : Bool) :
    PublicKey × Nat :=
  let sigs := cleanSighashes H g C D stale key.publickey none fullverify none none key.sigs
  let uids := cleanListSighashes H g C D stale key.publickey fullverify needother key.uids
  let subkeys := cleanListSighashes H g C D stale key.publickey fullverify false key.subkeys
  ({ key with sigs := sigs.kept, uids := uids.1, subkeys := subkeys.1 },
    sigs.removed + uids.2 + subkeys.2)

end

end Onak.Walk
