import Onak.Proofs.OccurrenceProofs

/-!
# Proofs: revocations and the passes over signatures

The packets of a key are capped before its signatures are, and what counts as revoked is decided by
the signatures. When the passes over the signatures take the last revocation from a packet it counts as
active again. Which revocations they take is told here on the signatures of the key as it was uploaded.
-/

namespace Onak

open Collapse Places

variable {H : Hashes} {g : Stale} {C : SigCheck} {D : Lookups}

/-! ## The signatures that the caps leave -/

section

variable (g : Stale) (max : Nat) (sigs : List Packet)

/-- The number of signatures before this place that nothing outranks: they are newer than those of
their signer class before them, and none behind them is newer. -/
def leadersBefore (i : Nat) : Nat :=
  (List.range i).countP (leadsAt (signaturesMatchSigner g) (innerWins g) sigs)

/-- The signature in this place is outranked by none, and one of the first `max` of these. -/
def leftAt (i : Nat) : Bool :=
  leadsAt (signaturesMatchSigner g) (innerWins g) sigs i &&
    decide (max = 0 ∨ leadersBefore g sigs i < max)

/-- Some signature that is left meets `q`. -/
def someLeft (q : Packet → Bool) : Bool :=
  (List.range sigs.length).any fun i => leftAt g max sigs i && meetsAt sigs q i

/-- There is no cap, or a revocation has fewer signatures than it before it that nothing outranks. -/
def RevocationEarly : Prop :=
  max = 0 ∨ ∃ i < sigs.length, meetsAt sigs sigRevokesPacket i = true ∧ leadersBefore g sigs i < max

instance : Decidable (RevocationEarly g max sigs) := inferInstanceAs (Decidable (_ ∨ _))

end

theorem lt_length_of_meetsAt {sigs : List Packet} {q : Packet → Bool} {i : Nat}
    (h : meetsAt sigs q i = true) : i < sigs.length := by
  obtain ⟨s, hget, -⟩ := meetsAt_iff.mp h
  exact (List.getElem?_eq_some_iff.mp hget).1

theorem someLeft_iff {max : Nat} {sigs : List Packet} {q : Packet → Bool} :
    someLeft g max sigs q = true ↔ ∃ i, leadsAt (signaturesMatchSigner g) (innerWins g) sigs i = true ∧
      (max = 0 ∨ leadersBefore g sigs i < max) ∧ meetsAt sigs q i = true := by
  unfold someLeft leftAt
  rw [List.any_eq_true]
  constructor
  · rintro ⟨i, -, h⟩
    rw [Bool.and_eq_true, Bool.and_eq_true, decide_eq_true_eq] at h
    exact ⟨i, h.1.1, h.1.2, h.2⟩
  · rintro ⟨i, hleads, hfew, hq⟩
    refine ⟨i, List.mem_range.mpr (lt_length_of_meetsAt hq), ?_⟩
    rw [Bool.and_eq_true, Bool.and_eq_true, decide_eq_true_eq]
    exact ⟨⟨hleads, hfew⟩, hq⟩

/-- What `dedupe_sigs` and the cap leave of the signatures. -/
theorem any_upTo_dedupeSigs (max : Nat) (sigs : List Packet) (q : Packet → Bool) :
    (upTo max (dedupeSigs g sigs)).any q = someLeft g max sigs q := by
  rw [Bool.eq_iff_iff, someLeft_iff]
  unfold upTo dedupeSigs
  split_ifs with hmax
  · rw [any_collapse_iff ranked]
    simp [hmax]
  · rw [any_take_collapse_iff ranked]
    simp [hmax, leadersBefore]

/-- The first revocation is outranked by nothing. -/
theorem leadsAt_of_first_revocation {sigs : List Packet} {i : Nat}
    (hrev : meetsAt sigs sigRevokesPacket i = true)
    (hfirst : ∀ j < i, ¬ meetsAt sigs sigRevokesPacket j = true) :
    leadsAt (signaturesMatchSigner g) (innerWins g) sigs i = true := by
  obtain ⟨s, hget, hs⟩ := meetsAt_iff.mp hrev
  have hmem : (s, i) ∈ sigs.zipIdx := List.mem_zipIdx_iff_getElem?.mpr hget
  refine (leadsAt_iff hmem).mpr fun y hy hm => ?_
  have hy' : meetsAt sigs sigRevokesPacket y.2 = true :=
    meetsAt_iff.mpr ⟨y.1, List.mem_zipIdx_iff_getElem?.mp hy, sigRevokesPacket_of_match hm hs⟩
  split_ifs with hlt
  · exact absurd hy' (hfirst y.2 hlt)
  · -- of two revocations the first one wins
    obtain ⟨hver, htype⟩ := sigRevokesPacket_iff.mp hs
    have hoctet : sigTypeOctet s = some sigtypeCertRev := by
      unfold sigTypeOctet
      rcases hver with hv | hv <;> simp [hv, htype]
    have hi := (signaturesMatchSigner_iff.mp hm).2.2.2.1
    rw [sigTypeOctet_eq hi (by tauto)] at hoctet
    rw [innerWins_iff, Option.some.inj hoctet]
    rintro ⟨hno, -⟩
    exact absurd hno (by decide)

theorem someLeft_revokes_iff {max : Nat} {sigs : List Packet} (h : sigs.any sigRevokesPacket = true) :
    someLeft g max sigs sigRevokesPacket = true ↔ RevocationEarly g max sigs := by
  by_cases hmax : max = 0
  · refine iff_of_true ?_ (.inl hmax)
    rw [← any_upTo_dedupeSigs, upTo, if_pos hmax, any_revokes_dedupeSigs]
    exact h
  rw [someLeft_iff]
  unfold RevocationEarly
  simp only [hmax, false_or]
  constructor
  · rintro ⟨i, -, hfew, hrev⟩
    exact ⟨i, lt_length_of_meetsAt hrev, hrev, hfew⟩
  · rintro ⟨i, -, hrev, hfew⟩
    -- the first revocation comes no later
    have hex : ∃ j, meetsAt sigs sigRevokesPacket j = true := ⟨i, hrev⟩
    have hle : Nat.find hex ≤ i := Nat.find_min' hex hrev
    refine ⟨Nat.find hex, leadsAt_of_first_revocation (Nat.find_spec hex) fun j hj => Nat.find_min hex hj,
      ?_, Nat.find_spec hex⟩
    have hsub : (List.range (Nat.find hex)).Sublist (List.range i) := List.range_sublist.mpr hle
    exact lt_of_le_of_lt hsub.countP_le hfew

/-! ## Packets that stay revoked -/

section

variable (g : Stale) (policies : Policies)

/-- A packet keeps a revocation: the signatures of its occurrences are told apart, and a revocation comes
early enough among them. -/
structure KeepsRevocation (uids : List SignedPacket) (packet : Packet) : Prop where
  apart : ToldApart (occurrences uids packet)
  early : RevocationEarly g (policies.maxSigs packet.tag) (gather g [] (occurrences uids packet))

variable {policies}

theorem occurrences_congr {l : List SignedPacket} {p q : Packet} (h : p.Same q) :
    occurrences l p = occurrences l q := by
  unfold occurrences
  refine List.filter_congr fun o _ => decide_eq_decide.mpr ?_
  exact ⟨fun ho => ho.trans h, fun ho => ho.trans h.symm⟩

variable {g}

variable (policies) in
/-- What is left of the signatures of a merged packet. -/
theorem any_cappedOn {sp : SignedPacket} {first : SignedPacket} {dups : List SignedPacket}
    (hsp : sp = mergeOccurrences g first dups) (hapart : ToldApart (first :: dups)) (q : Packet → Bool) :
    (cappedOn g policies sp).any q =
      someLeft g (policies.maxSigs sp.packet.tag) (gather g [] (first :: dups)) q := by
  unfold cappedOn
  rw [hsp, dedupeSigs_mergeOccurrences hapart, any_upTo_dedupeSigs]

end

section

variable (H : Hashes) (g : Stale) (C : SigCheck) (D : Lookups) (policies : Policies) (key : PublicKey)

/-- The packet is there after cleaning. -/
def StillPresent (packet : Packet) : Prop :=
  ∃ k ∈ (cleankeys H g C D policies [key]).1, OnSigned k.uids packet

/-- Where the packet is there after cleaning, it is revoked. -/
def StillRevoked (packet : Packet) : Prop :=
  ∀ k ∈ (cleankeys H g C D policies [key]).1, ∀ sp ∈ k.uids, sp.packet.Same packet →
    signedpacketIsRevoked sp = true

variable {policies key}

/-- Without a check, a packet is there with the signatures that the caps leave of its occurrences. -/
theorem exists_occurrences_of_cleaned (hcheck : policies.checkSighash = false)
    (hverify : policies.verifySignatures = false) {k : PublicKey}
    (hk : k ∈ (cleankeys H g C D policies [key]).1) {sp : SignedPacket} (hsp : sp ∈ k.uids) :
    ∃ merged first dups, sp = { merged with sigs := cappedOn g policies merged } ∧
      occurrences key.uids sp.packet = first :: dups ∧ merged = mergeOccurrences g first dups := by
  have hno : policies.checks = false := by
    unfold Policies.checks
    rw [hcheck, hverify]
    rfl
  obtain ⟨key', hkey', -, rfl, -⟩ := mem_cleankeys.mp hk
  obtain rfl := List.mem_singleton.mp hkey'
  have huids : (cleanKey H g C D policies key').1.uids =
      (cleanPackets g policies key').1.uids.map fun sp =>
        { sp with sigs := cappedOn g policies sp } := by
    show (cleanSigs H g C D policies (cleanPackets g policies key').1).1.uids = _
    rw [cleanSigs_uids]
    have hstays : stays H g C D policies (cleanPackets g policies key').1.publickey = fun _ => true := by
      funext sp
      simp [stays, hverify]
    simp [allGo, sigsLeftOn, hno, hverify, hstays]
  rw [huids] at hsp
  obtain ⟨merged, hmerged, rfl⟩ := List.mem_map.mp hsp
  obtain ⟨first, dups, hocc, heq⟩ := occurrences_cleanPackets g policies hmerged
  exact ⟨merged, first, dups, rfl, hocc, heq⟩

end

end Onak
