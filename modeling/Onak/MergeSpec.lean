import Onak.Merge

/-!
# What merging is for

The vocabulary in which the properties of `merge.c` are stated. Two packets are the same when
`compare_packets` says so: same tag and same data, whatever the header format.
-/

namespace Onak

/-- The two packets have the same tag and the same data. -/
def Packet.Same (p q : Packet) : Prop := p.tag = q.tag ∧ p.data = q.data

instance (p q : Packet) : Decidable (p.Same q) :=
  inferInstanceAs (Decidable (_ ∧ _))

/-- The packet is on the list. -/
def OnList (l : List Packet) (p : Packet) : Prop := ∃ q ∈ l, q.Same p

instance (l : List Packet) (p : Packet) : Decidable (OnList l p) :=
  inferInstanceAs (Decidable (∃ q ∈ l, q.Same p))

/-- The user id or subkey is on the list. -/
def OnSigned (l : List SignedPacket) (p : Packet) : Prop := ∃ sp ∈ l, sp.packet.Same p

instance (l : List SignedPacket) (p : Packet) : Decidable (OnSigned l p) :=
  inferInstanceAs (Decidable (∃ sp ∈ l, sp.packet.Same p))

/-- Every user id or subkey of `l` is on `l'`. -/
def OnAll (l l' : List SignedPacket) : Prop := ∀ sp ∈ l, OnSigned l' sp.packet

instance (l l' : List SignedPacket) : Decidable (OnAll l l') :=
  inferInstanceAs (Decidable (∀ sp ∈ l, OnSigned l' sp.packet))

/-- No user id or subkey is repeated. -/
def NoRepeats (l : List SignedPacket) : Prop :=
  l.Pairwise fun x y => ¬ x.packet.Same y.packet

instance (l : List SignedPacket) : Decidable (NoRepeats l) :=
  inferInstanceAs (Decidable (l.Pairwise _))

/-- No user id and no subkey of the key is repeated. -/
def PublicKey.NoRepeats (k : PublicKey) : Prop :=
  Onak.NoRepeats k.uids ∧ Onak.NoRepeats k.subkeys

instance (k : PublicKey) : Decidable k.NoRepeats :=
  inferInstanceAs (Decidable (_ ∧ _))

/-- The two keys have a key id, and it is the same. -/
def SameKeyid (H : Hashes) (a b : PublicKey) : Prop :=
  (getKeyid H a).isSome ∧ getKeyid H a = getKeyid H b

instance (H : Hashes) (a b : PublicKey) : Decidable (SameKeyid H a b) :=
  inferInstanceAs (Decidable (_ ∧ _))

/-- The signature type octet: octet 2 of a v2 or v3 signature, octet 1 of any later one. -/
def sigTypeOctet (s : Packet) : Option UInt8 :=
  if s.data[0]? = some 2 ∨ s.data[0]? = some 3 then s.data[2]? else s.data[1]?

/-- The signature is a revocation, by its type octet. -/
def IsRevocation (s : Packet) : Prop := (sigTypeOctet s).any sigIsRevocation = true

instance (s : Packet) : Decidable (IsRevocation s) :=
  inferInstanceAs (Decidable (_ = true))

/-- `r` may stand in for `s`: a signature of the same version, type and non-zero issuer that, unless
it is a revocation, is not older. -/
structure Supersedes (g : Stale) (r s : Packet) : Prop where
  tag : r.tag = s.tag
  version : r.data[0]? = s.data[0]?
  type : sigTypeOctet r = sigTypeOctet s
  keyid : issuer g r = issuer g s
  keyid_ne : issuer g s ≠ 0
  time : ¬ IsRevocation s → created g s ≤ created g r

instance (g : Stale) (r s : Packet) : Decidable (Supersedes g r s) :=
  decidable_of_iff (r.tag = s.tag ∧ r.data[0]? = s.data[0]? ∧ sigTypeOctet r = sigTypeOctet s ∧
      issuer g r = issuer g s ∧ issuer g s ≠ 0 ∧ (¬ IsRevocation s → created g s ≤ created g r))
    ⟨fun ⟨h1, h2, h3, h4, h5, h6⟩ => ⟨h1, h2, h3, h4, h5, h6⟩,
      fun ⟨h1, h2, h3, h4, h5, h6⟩ => ⟨h1, h2, h3, h4, h5, h6⟩⟩

/-- Every signature that `l` carries on a packet is on that packet of `merged`, or superseded
there. -/
def SigsKept (g : Stale) (l merged : List SignedPacket) : Prop :=
  ∀ sp ∈ l, ∀ s ∈ sp.sigs, ∃ m ∈ merged, m.packet.Same sp.packet ∧
    ∃ r ∈ m.sigs, r.Same s ∨ Supersedes g r s

instance (g : Stale) (l merged : List SignedPacket) : Decidable (SigsKept g l merged) :=
  inferInstanceAs (Decidable (∀ sp ∈ l, ∀ s ∈ sp.sigs, ∃ m ∈ merged, _ ∧ ∃ r ∈ m.sigs, _ ∨ _))

/-- Nothing that `a` or `b` carried is lost in `merged`: no direct signature, no user id, no subkey,
and no signature on one of these that is not superseded. -/
structure LosesNothing (g : Stale) (a b merged : PublicKey) : Prop where
  sigs : ∀ s ∈ a.sigs ++ b.sigs, OnList merged.sigs s
  uids : OnAll (a.uids ++ b.uids) merged.uids
  subkeys : OnAll (a.subkeys ++ b.subkeys) merged.subkeys
  uidSigs : SigsKept g (a.uids ++ b.uids) merged.uids
  subkeySigs : SigsKept g (a.subkeys ++ b.subkeys) merged.subkeys

/-- The signatures that a list has on a packet. -/
def sigsOn (l : List SignedPacket) (p : Packet) : List Packet :=
  ((findSignedPacket l p).map SignedPacket.sigs).getD []

/-- The signatures that compete for a place on a packet: the old ones, and the new ones that
`compare_signatures` equates with none of them. -/
def pool (g : Stale) (old new : List Packet) : List Packet := old ++ newSigs g old new

/-- The two signature lists of a packet do not clash: a new signature that `compare_signatures`
equates with an old one is itself in the pool or superseded by a signature of the pool, and no two
signatures of the pool that `signatures_match_signer` equates differ in their type octet. -/
structure NoClash (g : Stale) (old new : List Packet) : Prop where
  equated : ∀ s ∈ new, (findSignature g old s).isSome →
    ∃ x ∈ pool g old new, x.Same s ∨ Supersedes g x s
  matched : ∀ x ∈ pool g old new, ∀ y ∈ pool g old new,
    signaturesMatchSigner g x y → sigTypeOctet x = sigTypeOctet y

/-- The signature lists do not clash on any packet that is on both lists. -/
def SignedNoClash (g : Stale) (old new : List SignedPacket) : Prop :=
  ∀ o ∈ old, ∀ n ∈ new, o.packet.Same n.packet → NoClash g o.sigs n.sigs

/-- Every signature list on `l` is a fixed point of `dedupe_sigs`. -/
def Deduped (g : Stale) (l : List SignedPacket) : Prop := ∀ sp ∈ l, dedupeSigs g sp.sigs = sp.sigs

instance (g : Stale) (l : List SignedPacket) : Decidable (Deduped g l) :=
  inferInstanceAs (Decidable (∀ sp ∈ l, dedupeSigs g sp.sigs = sp.sigs))

/-- Every user id and subkey signature list of the key is a fixed point of `dedupe_sigs`. -/
def PublicKey.Deduped (g : Stale) (k : PublicKey) : Prop :=
  Onak.Deduped g k.uids ∧ Onak.Deduped g k.subkeys

instance (g : Stale) (k : PublicKey) : Decidable (k.Deduped g) :=
  inferInstanceAs (Decidable (_ ∧ _))

/-- Every signature on `l` is a version 4 signature packet. -/
def AllV4 (l : List SignedPacket) : Prop :=
  ∀ sp ∈ l, ∀ s ∈ sp.sigs, s.tag = tagSignature ∧ s.data[0]? = some 4

instance (l : List SignedPacket) : Decidable (AllV4 l) :=
  inferInstanceAs (Decidable (∀ sp ∈ l, ∀ s ∈ sp.sigs, _ ∧ _))

/-- No two different signatures on one packet of `l` (which may repeat packets) are equated by
`compare_signatures`, and no two different revocations by `signatures_match_signer`. -/
structure Distinct (g : Stale) (l : List SignedPacket) : Prop where
  compared : ∀ sp ∈ l, ∀ sp' ∈ l, sp.packet.Same sp'.packet → ∀ s ∈ sp.sigs, ∀ s' ∈ sp'.sigs,
    compareSignatures g s s' → s.Same s'
  revocations : ∀ sp ∈ l, ∀ sp' ∈ l, sp.packet.Same sp'.packet → ∀ s ∈ sp.sigs, ∀ s' ∈ sp'.sigs,
    sigIsRevocation (sigSigtype s) → sigIsRevocation (sigSigtype s') →
    signaturesMatchSigner g s s' → s.Same s'

instance (g : Stale) (l : List SignedPacket) : Decidable (Distinct g l) :=
  decidable_of_iff (_ ∧ _) ⟨fun ⟨h1, h2⟩ => ⟨h1, h2⟩, fun ⟨h1, h2⟩ => ⟨h1, h2⟩⟩

/-- The two lists have the same packets with the same signatures, in any order. -/
structure SameSigned (l l' : List SignedPacket) : Prop where
  packets : ∀ p, OnSigned l p ↔ OnSigned l' p
  sigs : ∀ sp ∈ l, ∀ sp' ∈ l', sp.packet.Same sp'.packet → ∀ s, OnList sp.sigs s ↔ OnList sp'.sigs s

/-- The two keys have the same direct signatures, user ids and subkeys with the same signatures, in
any order. -/
structure SameContents (k k' : PublicKey) : Prop where
  sigs : ∀ s, OnList k.sigs s ↔ OnList k'.sigs s
  uids : SameSigned k.uids k'.uids
  subkeys : SameSigned k.subkeys k'.subkeys

/-! ## Quiet merges -/

/-- `compare_signatures` equates the signature with one that `l` carries on the packet. -/
def Equated (g : Stale) (l : List SignedPacket) (p s : Packet) : Prop :=
  ∃ o ∈ l, o.packet.Same p ∧ (findSignature g o.sigs s).isSome

instance (g : Stale) (l : List SignedPacket) (p s : Packet) : Decidable (Equated g l p s) :=
  inferInstanceAs (Decidable (∃ o ∈ l, _ ∧ _))

/-- The signature list has one of the same signer that `dedupe_sigs` prefers. -/
def Outranked (g : Stale) (sigs : List Packet) (s : Packet) : Prop :=
  ∃ r ∈ sigs, signaturesMatchSigner g r s ∧ ¬ innerWins g r s

/-- Every signature of `new` is equated with one on the old packet or, where it is not, outranked by
one. When `old` repeats a packet, a signature that is equated at one of them is no longer looked at
by the ones behind it. -/
def Quiet (g : Stale) (old new : List SignedPacket) : Prop :=
  ∀ l₁ o l₂, old = l₁ ++ o :: l₂ → ∀ n ∈ new, n.packet.Same o.packet → ∀ s ∈ n.sigs,
    Equated g (l₁ ++ [o]) o.packet s ∨ Outranked g o.sigs s

/-- Every packet of `new` is on `old`, and every signature on it is equated with one there. -/
def AllEquated (g : Stale) (old new : List SignedPacket) : Prop :=
  ∀ n ∈ new, OnSigned old n.packet ∧ ∀ s ∈ n.sigs, Equated g old n.packet s

instance (g : Stale) (old new : List SignedPacket) : Decidable (AllEquated g old new) :=
  inferInstanceAs (Decidable (∀ n ∈ new, _ ∧ ∀ s ∈ n.sigs, _))

/-- The key `b` has nothing for `a` that `a` would keep. -/
structure NothingToAdd (g : Stale) (a b : PublicKey) : Prop where
  sigs : ∀ s ∈ b.sigs, OnList a.sigs s
  uids : OnAll b.uids a.uids
  subkeys : OnAll b.subkeys a.subkeys
  uidSigs : Quiet g a.uids b.uids
  subkeySigs : Quiet g a.subkeys b.subkeys

/-- The key has the packets it had before. -/
def SamePackets (k k' : PublicKey) : Prop :=
  k'.sigs = k.sigs ∧ k'.uids = k.uids ∧ k'.subkeys = k.subkeys

end Onak
