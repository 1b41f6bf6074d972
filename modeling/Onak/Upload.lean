import Onak.CleanKey

/-!
# Uploads

An upload goes through `cleankeys` and then through `generic_update_keys`. The caps and the removal
of repeated signatures are part of the cleaning, so they see the upload before it is merged with
what is stored.
-/

namespace Onak

/-- An upload with the settings under which it is handled. -/
structure Upload where
  /-- The uploaded keys. -/
  keys : List PublicKey
  /-- The cleaning policies and caps. -/
  policies : Policies
  /-- The blacklist. -/
  blacklist : List Fingerprint
  /-- Whether only known keys are updated. -/
  updateonly : Bool
  /-- Whether the changes are sent to other servers. -/
  sendsync : Bool

section

variable (H : Hashes) (g : Stale) (C : SigCheck) {B : Backend} (D : B.DB → Lookups)

/-- The keys of the upload that `cleankeys` hands on. -/
def Upload.cleaned (u : Upload) (db : B.DB) : List PublicKey :=
  (cleankeys H g C (D db) u.policies u.keys).1

/-- One upload. -/
def upload (db : B.DB) (u : Upload) : B.DB :=
  (genericUpdateKeys H B g u.blacklist u.updateonly u.sendsync db (u.cleaned H g C D db)).db

/-- A sequence of uploads. -/
def uploads (db : B.DB) (us : List Upload) : B.DB := us.foldl (upload H g C D) db

/-- Whenever the loop of `generic_update_keys` finds the stored key `old` for a key, the two
meet `ok`. -/
def RoundsMeet (ok : PublicKey → PublicKey → Prop) (blacklist : List Fingerprint)
    (updateonly : Bool) (db : B.DB) : List PublicKey → Prop
  | [] => True
  | key :: keys =>
    (fingerprintOf H key.publickey ∉ blacklist →
      ∀ old, B.fetchKeyFp db (fingerprintOf H key.publickey) = some old → ok old key) ∧
    RoundsMeet ok blacklist updateonly (updateKey H B g blacklist updateonly db key).1 keys

/-- Each upload meets `ok` in the state before it. -/
def UploadsMeet (ok : B.DB → Upload → Prop) (db : B.DB) : List Upload → Prop
  | [] => True
  | u :: us => ok db u ∧ UploadsMeet ok (upload H g C D db u) us

/-- Every stored key meets `P`. -/
def AllStored (L : B.Lawful H) (P : PublicKey → Prop) (db : B.DB) : Prop :=
  ∀ f k, L.stored db f = some k → P k

/-- A database without keys. -/
def Backend.Lawful.Empty {H : Hashes} (L : B.Lawful H) (db : B.DB) : Prop :=
  L.Inv db ∧ ∀ f, L.stored db f = none

end

/-! ## One signature per signer -/

/-- No two signatures of the list are equated by `signatures_match_signer`. -/
abbrev SignersDiffer (g : Stale) (sigs : List Packet) : Prop :=
  Collapse.Unmatched (signaturesMatchSigner g) sigs

/-- No signature list of the key has two signatures of one signer. -/
structure OneSigPerSigner (g : Stale) (k : PublicKey) : Prop where
  sigs : SignersDiffer g k.sigs
  uids : ∀ sp ∈ k.uids, SignersDiffer g sp.sigs
  subkeys : ∀ sp ∈ k.subkeys, SignersDiffer g sp.sigs

/-- No direct signature that `key` has and `old` does not have is of a signer who has a direct
signature on `old`. -/
def NewDirectSigners (g : Stale) (old key : PublicKey) : Prop :=
  ∀ s ∈ key.sigs, ¬ OnList old.sigs s → ∀ s' ∈ old.sigs, ¬ signaturesMatchSigner g s' s

instance (g : Stale) (old key : PublicKey) : Decidable (NewDirectSigners g old key) :=
  inferInstanceAs (Decidable (∀ s ∈ key.sigs, _ → ∀ s' ∈ old.sigs, _))

section

variable (H : Hashes) (g : Stale) (C : SigCheck) {B : Backend} (D : B.DB → Lookups)

/-- Each round that finds a stored key with the same key id brings direct signatures of new signers
only. -/
def DirectSignersNew (db : B.DB) (u : Upload) : Prop :=
  RoundsMeet H g (fun old key => SameKeyid H old key → NewDirectSigners g old key) u.blacklist
    u.updateonly db (u.cleaned H g C D db)

end

/-! ## Caps -/

/-- The key is within the caps, with at most `maxUid` and `maxUat` signatures on a packet. -/
structure Capped (maxUid maxUat : Nat) (k : PublicKey) : Prop where
  activeUids : k.uids.countP (isActive tagUid) ≤ maxUidsPerKey
  revokedUids : k.uids.countP (isRevoked tagUid) ≤ maxUidsPerKey
  activeUats : k.uids.countP (isActive tagUat) ≤ maxUatsPerKey
  revokedUats : k.uids.countP (isRevoked tagUat) ≤ maxUatsPerKey
  uidSigs : ∀ sp ∈ k.uids, sp.packet.tag = tagUid → sp.sigs.length ≤ maxUid
  uatSigs : ∀ sp ∈ k.uids, sp.packet.tag = tagUat → sp.sigs.length ≤ maxUat

section

variable (g : Stale)

/-- How many packets of the tag two lists have together that are revoked, or that are not. A packet
that is on both is revoked by any of the signatures that compete for a place on it. -/
def countTogether (tag : Nat) (revoked : Bool) (old new : List SignedPacket) : Nat :=
  (old.countP fun o => o.packet.tag = tag ∧
    (pool g o.sigs (sigsOn new o.packet)).any sigRevokesPacket = revoked) +
  new.countP fun n => n.packet.tag = tag ∧ ¬ OnSigned old n.packet ∧
    signedpacketIsRevoked n = revoked

/-- How many signers two signature lists have together, where signatures that
`compare_signatures` equates with an old one do not count, and those without an issuer count one by
one. -/
def signersTogether (old new : List Packet) : Nat :=
  old.length + (newSigs g old new).countP fun s => !old.any fun x => signaturesMatchSigner g x s

/-- The stored key and the upload fit into the caps together. -/
structure FitTogether (maxUid maxUat : Nat) (old key : PublicKey) : Prop where
  activeUids : countTogether g tagUid false old.uids key.uids ≤ maxUidsPerKey
  revokedUids : countTogether g tagUid true old.uids key.uids ≤ maxUidsPerKey
  activeUats : countTogether g tagUat false old.uids key.uids ≤ maxUatsPerKey
  revokedUats : countTogether g tagUat true old.uids key.uids ≤ maxUatsPerKey
  uidSigs : ∀ o ∈ old.uids, o.packet.tag = tagUid →
    signersTogether g o.sigs (sigsOn key.uids o.packet) ≤ maxUid
  uatSigs : ∀ o ∈ old.uids, o.packet.tag = tagUat →
    signersTogether g o.sigs (sigsOn key.uids o.packet) ≤ maxUat

variable (H : Hashes) (C : SigCheck) {B : Backend} (D : B.DB → Lookups)

/-- No packet that counts as revoked when the packets are capped loses its revocations to the cap on
signatures or to their check. -/
def RevocationsStay (D : Lookups) (policies : Policies) (key : PublicKey) : Prop :=
  let packets := (cleanPackets g policies key).1
  ∀ sp ∈ packets.uids, signedpacketIsRevoked sp →
    ∀ sp' ∈ (cleanSigs H g C D policies packets).1.uids, sp'.packet.Same sp.packet →
      signedpacketIsRevoked sp'

instance (D : Lookups) (policies : Policies) (key : PublicKey) :
    Decidable (RevocationsStay g H C D policies key) :=
  inferInstanceAs (Decidable (∀ sp ∈ (cleanPackets g policies key).1.uids, _ → ∀ sp' ∈ _, _ → _))

/-- The keys of the upload that are neither too old nor blacklisted keep their revocations, and each
round that finds a stored key with the same key id fits into the caps together with it. -/
def FitsCaps (maxUid maxUat : Nat) (db : B.DB) (u : Upload) : Prop :=
  (∀ key ∈ u.keys, key.isOld = false → fingerprintOf H key.publickey ∉ u.blacklist →
      RevocationsStay g H C (D db) u.policies key) ∧
    RoundsMeet H g (fun old key => SameKeyid H old key → FitTogether g maxUid maxUat old key)
      u.blacklist u.updateonly db (u.cleaned H g C D db)

/-- The settings that the caps need. -/
structure Upload.Capping (maxUid maxUat : Nat) (u : Upload) : Prop where
  capUids : u.policies.capUids = true
  capUats : u.policies.capUats = true
  maxSigsPerUid : u.policies.maxSigsPerUid = maxUid
  maxSigsPerUat : u.policies.maxSigsPerUat = maxUat

end

end Onak
