import Onak.Proofs.UploadProofs

/-!
# Proofs: caps over histories of uploads

A merge looks at no cap, so what is stored can grow beyond them from upload to upload. The caps hold
along every history in which the stored key and the upload fit into them together each time.
-/

namespace Onak

variable {H : Hashes} {g : Stale} {C : SigCheck}

/-! ## Revocations in a merge -/

theorem sigRevokesPacket_iff {s : Packet} : sigRevokesPacket s = true ↔
    (s.data[0]? = some 4 ∨ s.data[0]? = some 5) ∧ s.data[1]? = some sigtypeCertRev := by
  simp [sigRevokesPacket]

/-- Whether a signature revokes its packet only depends on its version and type. -/
theorem sigRevokesPacket_of_match {s r : Packet} (h : signaturesMatchSigner g s r = true)
    (hs : sigRevokesPacket s = true) : sigRevokesPacket r = true := by
  obtain ⟨-, hv, ht, hi, hir⟩ := signaturesMatchSigner_iff.mp h
  obtain ⟨hver, htype⟩ := sigRevokesPacket_iff.mp hs
  have hoctet : ∀ {p : Packet}, p.data[0]? = some 4 ∨ p.data[0]? = some 5 → issuer g p ≠ 0 →
      p.data[1]? = some (sigSigtype p) := by
    intro p hp hip
    rw [← sigTypeOctet_eq hip (by tauto)]
    unfold sigTypeOctet
    rcases hp with hp | hp <;> simp [hp]
  have hver' : r.data[0]? = some 4 ∨ r.data[0]? = some 5 := hv ▸ hver
  rw [sigRevokesPacket_iff]
  refine ⟨hver', ?_⟩
  rw [hoctet hver' (hir ▸ hi), ← ht, ← hoctet hver hi]
  exact htype

/-- Deduplication keeps a signature of each kind that matching signatures share. -/
theorem any_dedupeSigs {P : Packet → Bool}
    (hP : ∀ {s r : Packet}, signaturesMatchSigner g s r = true → P s = true → P r = true)
    (sigs : List Packet) : (dedupeSigs g sigs).any P = sigs.any P := by
  rw [Bool.eq_iff_iff, List.any_eq_true, List.any_eq_true]
  constructor
  · rintro ⟨s, hs, hrev⟩
    exact ⟨s, Collapse.mem_of_mem_collapse hs, hrev⟩
  · rintro ⟨s, hs, hrev⟩
    rcases Collapse.collapse_covers ranked hs with hmem | ⟨r, hr, hsr, -⟩
    · exact ⟨s, hmem, hrev⟩
    · exact ⟨r, hr, hP hsr hrev⟩

theorem any_revokes_dedupeSigs (sigs : List Packet) :
    (dedupeSigs g sigs).any sigRevokesPacket = sigs.any sigRevokesPacket :=
  any_dedupeSigs sigRevokesPacket_of_match sigs

theorem mergedEntry_isRevoked (new : List SignedPacket) (o : SignedPacket) :
    signedpacketIsRevoked (mergedEntry g new o) =
      (pool g o.sigs (sigsOn new o.packet)).any sigRevokesPacket := by
  unfold mergedEntry sigsOn
  cases findSignedPacket new o.packet with
  | none => simp [signedpacketIsRevoked, pool, newSigs]
  | some n => exact any_revokes_dedupeSigs _

theorem mergedEntry_length_le (new : List SignedPacket) (o : SignedPacket) :
    (mergedEntry g new o).sigs.length ≤ signersTogether g o.sigs (sigsOn new o.packet) := by
  unfold mergedEntry sigsOn
  cases findSignedPacket new o.packet with
  | none => simp [signersTogether]
  | some n => exact Collapse.length_collapse_append_le ranked _ _

/-! ## Counting merged packets -/

section

variable {old new : List SignedPacket} (ho : NoRepeats old) (hn : NoRepeats new)
include ho hn

theorem countP_merged (tag : Nat) (revoked : Bool) :
    ((mergeSignedPackets g old new).1.countP fun sp =>
      sp.packet.tag = tag ∧ signedpacketIsRevoked sp = revoked) =
      countTogether g tag revoked old new := by
  rw [mergeSignedPackets_fst ho hn, List.countP_append, List.countP_map, List.countP_filter]
  unfold countTogether
  congr 1
  · refine List.countP_congr fun o _ => ?_
    simp only [Function.comp_apply, mergedEntry_packet, mergedEntry_isRevoked]
  · refine List.countP_congr fun n _ => ?_
    simp only [Bool.and_eq_true, decide_eq_true_eq, findSignedPacket_isNone]
    tauto

theorem countP_active_merged (tag : Nat) :
    (mergeSignedPackets g old new).1.countP (isActive tag) = countTogether g tag false old new := by
  rw [← countP_merged ho hn]
  refine List.countP_congr fun sp _ => ?_
  simp [isActive]

theorem countP_revoked_merged (tag : Nat) :
    (mergeSignedPackets g old new).1.countP (isRevoked tag) = countTogether g tag true old new := by
  rw [← countP_merged ho hn]
  refine List.countP_congr fun sp _ => ?_
  simp [isRevoked]

/-- The signatures on a merged packet stay within a cap that both lists fit into. -/
theorem sigs_merged_le {tag max : Nat}
    (hfit : ∀ o ∈ old, o.packet.tag = tag → signersTogether g o.sigs (sigsOn new o.packet) ≤ max)
    (hnew : ∀ n ∈ new, n.packet.tag = tag → n.sigs.length ≤ max) :
    ∀ sp ∈ (mergeSignedPackets g old new).1, sp.packet.tag = tag → sp.sigs.length ≤ max := by
  intro sp hsp ht
  rw [mergeSignedPackets_fst ho hn] at hsp
  rcases List.mem_append.mp hsp with hsp | hsp
  · obtain ⟨o, hom, rfl⟩ := List.mem_map.mp hsp
    rw [mergedEntry_packet] at ht
    exact (mergedEntry_length_le new o).trans (hfit o hom ht)
  · exact hnew sp (List.mem_filter.mp hsp).1 ht

end

/-! ## The caps along uploads -/

variable (maxUid maxUat : Nat)

theorem capped_kept : KeptByMerging (fun k => Capped maxUid maxUat k ∧ NoRepeats k.uids)
    (fun k => Capped maxUid maxUat k ∧ NoRepeats k.uids) (FitTogether g maxUid maxUat) H g where
  revoked := by
    rintro k r ⟨hc, hr⟩
    exact ⟨⟨hc.activeUids, hc.revokedUids, hc.activeUats, hc.revokedUats, hc.uidSigs, hc.uatSigs⟩, hr⟩
  new := id
  merge := by
    rintro old key ⟨-, ho⟩ ⟨hck, hk⟩ hid hfit
    rw [mergeKeys_eq hid]
    refine ⟨?_, noRepeats_merged ho hk⟩
    exact
      { activeUids := (countP_active_merged ho hk _).trans_le hfit.activeUids
        revokedUids := (countP_revoked_merged ho hk _).trans_le hfit.revokedUids
        activeUats := (countP_active_merged ho hk _).trans_le hfit.activeUats
        revokedUats := (countP_revoked_merged ho hk _).trans_le hfit.revokedUats
        uidSigs := sigs_merged_le ho hk hfit.uidSigs hck.uidSigs
        uatSigs := sigs_merged_le ho hk hfit.uatSigs hck.uatSigs }

variable {maxUid maxUat}

/-- A cleaned key is within the caps as long as cleaning takes no packet its revocations. -/
theorem cleanKey_capped {D : Lookups} {u : Upload} {key : PublicKey}
    (hu : u.Capping maxUid maxUat) (h1 : 0 < maxUid) (h2 : 0 < maxUat)
    (hstay : RevocationsStay g H C D u.policies key) :
    Capped maxUid maxUat (cleanKey H g C D u.policies key).1 ∧
      NoRepeats (cleanKey H g C D u.policies key).1.uids := by
  set packets := (cleanPackets g u.policies key).1 with hpackets
  have hthin : Thins packets.uids (cleanSigs H g C D u.policies packets).1.uids :=
    thins_cleanSigs u.policies packets
  have hnum := (numbersCapped_cleanPackets u.policies key hu.capUids hu.capUats).thins hthin hstay
  refine ⟨?_, hthin.noRepeats (noRepeats_cleanPackets u.policies key)⟩
  -- the caps on signatures hold from the time they are applied
  have huid : ∀ sp ∈ cappedSigs u.policies packets g, sp.packet.tag = tagUid →
      sp.sigs.length ≤ maxUid := by
    intro sp hsp ht
    obtain ⟨x, hx, hpk, hsub⟩ := (thins_capSigsPerPacket _ tagUat _).exists_of_mem hsp
    refine hsub.length_le.trans ?_
    rw [← hu.maxSigsPerUid]
    exact capSigsPerPacket_length (hu.maxSigsPerUid.symm ▸ h1) hx (hpk ▸ ht)
  have huat : ∀ sp ∈ cappedSigs u.policies packets g, sp.packet.tag = tagUat →
      sp.sigs.length ≤ maxUat := by
    intro sp hsp ht
    rw [← hu.maxSigsPerUat]
    exact capSigsPerPacket_length (hu.maxSigsPerUat.symm ▸ h2) hsp ht
  have hlater : ∀ {tag max : Nat}, (∀ sp ∈ cappedSigs u.policies packets g, sp.packet.tag = tag →
      sp.sigs.length ≤ max) → ∀ sp ∈ (cleanSigs H g C D u.policies packets).1.uids,
      sp.packet.tag = tag → sp.sigs.length ≤ max := by
    intro tag max hcap sp hsp ht
    obtain ⟨x, hx, hpk, hsub⟩ := (thins_cleanSigs_capped u.policies packets).exists_of_mem hsp
    exact hsub.length_le.trans (hcap x hx (hpk ▸ ht))
  exact
    { activeUids := hnum.activeUids
      revokedUids := hnum.revokedUids
      activeUats := hnum.activeUats
      revokedUats := hnum.revokedUats
      uidSigs := hlater huid
      uatSigs := hlater huat }

end Onak
