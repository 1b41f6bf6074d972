import Onak.Proofs.MergeProofs

/-!
# Proofs: what a merge can lose

`merge_keys` keeps every packet, but a signature can disappear in two ways: `compare_signatures`
takes it for one that is already there, or `dedupe_sigs` collapses it into another one. Both are
meant to happen only between signatures of one version, type and issuer. `compare_signatures` looks
at the type of v4 signatures only and also equates signatures without an issuer; `sig_sigtype` does
not know the type of v2 signatures, nor that of versions above 5. `NoClash` says that none of this
matters on a given pair of lists, and is exactly what is needed.
-/

namespace Onak

variable {g : Stale}

theorem mem_of_mem_pool {old new : List Packet} {x : Packet} (h : x ∈ pool g old new) :
    x ∈ old ++ new := by
  rcases List.mem_append.mp h with h | h
  · exact List.mem_append_left _ h
  · exact List.mem_append_right _ (mem_newSigs.mp h).1

theorem mem_pool_or_found (old : List Packet) {new : List Packet} {s : Packet} (h : s ∈ new) :
    s ∈ pool g old new ∨ (findSignature g old s).isSome = true := by
  cases hf : findSignature g old s with
  | none =>
    refine Or.inl (List.mem_append_right _ (List.mem_filter.mpr ⟨h, ?_⟩))
    rw [hf]
    rfl
  | some r => exact Or.inr rfl

/-- In a pool without type clashes every signature survives deduplication or is superseded. -/
theorem dedupeSigs_keeps {l : List Packet}
    (hl : ∀ x ∈ l, ∀ y ∈ l, signaturesMatchSigner g x y → sigTypeOctet x = sigTypeOctet y)
    {x : Packet} (hx : x ∈ l) : ∃ r ∈ dedupeSigs g l, r = x ∨ Supersedes g r x := by
  rcases Collapse.collapse_covers ranked hx with hmem | ⟨r, hr, hm, hn⟩
  · exact ⟨x, hmem, Or.inl rfl⟩
  · have hrl := Collapse.mem_of_mem_collapse hr
    exact ⟨r, hr, Or.inr (supersedes_of_match hm hn (hl x hx r hrl hm).symm)⟩

/-- If every signature of `l` survives deduplication or is superseded, matching signatures of `l`
have the same type: there is only one of them left to stand in for both. -/
theorem type_eq_of_kept {l : List Packet}
    (hl : ∀ x ∈ l, ∃ r ∈ dedupeSigs g l, r.Same x ∨ Supersedes g r x) {x y : Packet}
    (hx : x ∈ l) (hy : y ∈ l) (hxy : signaturesMatchSigner g x y) :
    sigTypeOctet x = sigTypeOctet y := by
  have hxx := ranked.trans hxy (ranked.symm hxy)
  obtain ⟨d, hd, hxd⟩ : ∃ d ∈ dedupeSigs g l, signaturesMatchSigner g x d := by
    rcases Collapse.collapse_covers ranked hx with hmem | ⟨r, hr, hm, _⟩
    · exact ⟨x, hmem, hxx⟩
    · exact ⟨r, hr, hm⟩
  -- whatever stands in for a signature of this class is the one survivor `d`
  have htype : ∀ z ∈ l, signaturesMatchSigner g z d → sigTypeOctet z = sigTypeOctet d := by
    intro z hz hzd
    obtain ⟨r, hr, hsame | hsup⟩ := hl z hz
    · have hrd : signaturesMatchSigner g r d := by
        rw [signaturesMatchSigner_congr hsame (Packet.Same.refl d)]
        exact hzd
      have h := Collapse.eq_of_mem_unmatched ranked (Collapse.unmatched_collapse l) hr hd hrd
      rw [← h, sigTypeOctet_congr hsame.2]
    · have hzr := hsup.matches (signaturesMatchSigner_iff.mp hzd).1.1
      have hrd := ranked.trans (ranked.symm hzr) hzd
      have h := Collapse.eq_of_mem_unmatched ranked (Collapse.unmatched_collapse l) hr hd hrd
      rw [← h, hsup.type]
  exact (htype x hx hxd).trans (htype y hy (ranked.trans (ranked.symm hxy) hxd)).symm

/-- Merging the signatures of one packet keeps or supersedes them all exactly when they do not
clash. -/
theorem sigs_kept_iff {old new : List Packet} :
    (∀ s ∈ old ++ new, ∃ r ∈ dedupeSigs g (pool g old new), r.Same s ∨ Supersedes g r s) ↔
      NoClash g old new := by
  constructor
  · intro h
    have hpool : ∀ x ∈ pool g old new, ∃ r ∈ dedupeSigs g (pool g old new),
        r.Same x ∨ Supersedes g r x := fun x hx => h x (mem_of_mem_pool hx)
    refine ⟨fun s hs _ => ?_, fun x hx y hy hxy => type_eq_of_kept hpool hx hy hxy⟩
    obtain ⟨r, hr, hrs⟩ := h s (List.mem_append_right _ hs)
    exact ⟨r, Collapse.mem_of_mem_collapse hr, hrs⟩
  · intro h s hs
    obtain ⟨x, hx, hxs⟩ : ∃ x ∈ pool g old new, x.Same s ∨ Supersedes g x s := by
      rcases List.mem_append.mp hs with hs | hs
      · exact ⟨s, List.mem_append_left _ hs, Or.inl (Packet.Same.refl s)⟩
      · rcases mem_pool_or_found (g := g) old hs with hp | hf
        · exact ⟨s, hp, Or.inl (Packet.Same.refl s)⟩
        · exact h.equated s hs hf
    obtain ⟨r, hr, hrx⟩ := dedupeSigs_keeps h.matched hx
    refine ⟨r, hr, ?_⟩
    rcases hrx with rfl | hrx
    · exact hxs
    · rcases hxs with hxs | hxs
      · exact Or.inr (hrx.same_right hxs)
      · exact Or.inr (hrx.trans hxs)

section

variable {old new : List SignedPacket} (ho : NoRepeats old) (hn : NoRepeats new)
include ho hn

theorem merged_of_common {o n : SignedPacket} (hom : o ∈ old) (hnm : n ∈ new)
    (h : o.packet.Same n.packet) :
    { o with sigs := dedupeSigs g (pool g o.sigs n.sigs) } ∈ (mergeSignedPackets g old new).1 := by
  rw [mergeSignedPackets_fst ho hn]
  refine List.mem_append_left _ (List.mem_map.mpr ⟨o, hom, ?_⟩)
  unfold mergedEntry
  rw [findSignedPacket_of_mem hn hnm h.symm]
  rfl

theorem merged_of_old_only {o : SignedPacket} (hom : o ∈ old) (h : ¬ OnSigned new o.packet) :
    o ∈ (mergeSignedPackets g old new).1 := by
  rw [mergeSignedPackets_fst ho hn]
  refine List.mem_append_left _ (List.mem_map.mpr ⟨o, hom, ?_⟩)
  unfold mergedEntry
  rw [findSignedPacket_none.mpr h]

theorem merged_of_new_only {n : SignedPacket} (hnm : n ∈ new) (h : ¬ OnSigned old n.packet) :
    n ∈ (mergeSignedPackets g old new).1 := by
  rw [mergeSignedPackets_fst ho hn]
  exact List.mem_append_right _ (List.mem_filter.mpr ⟨hnm, findSignedPacket_isNone.mpr h⟩)

/-- Where the entries of the merged list come from. -/
theorem merged_cases {m : SignedPacket} (hm : m ∈ (mergeSignedPackets g old new).1) :
    (m ∈ old ∧ ¬ OnSigned new m.packet) ∨
      (∃ o ∈ old, ∃ n ∈ new, o.packet.Same n.packet ∧
        m = { o with sigs := dedupeSigs g (pool g o.sigs n.sigs) }) ∨
      (m ∈ new ∧ ¬ OnSigned old m.packet) := by
  rw [mergeSignedPackets_fst ho hn] at hm
  rcases List.mem_append.mp hm with hm | hm
  · obtain ⟨o, hom, rfl⟩ := List.mem_map.mp hm
    unfold mergedEntry
    cases hf : findSignedPacket new o.packet with
    | none => exact Or.inl ⟨hom, findSignedPacket_none.mp hf⟩
    | some n =>
      obtain ⟨hnm, hsame⟩ := findSignedPacket_some hf
      exact Or.inr (Or.inl ⟨o, hom, n, hnm, hsame.symm, rfl⟩)
  · obtain ⟨hnm, hnot⟩ := List.mem_filter.mp hm
    exact Or.inr (Or.inr ⟨hnm, findSignedPacket_isNone.mp hnot⟩)

theorem merged_common_unique {o n m : SignedPacket} (hom : o ∈ old) (hnm : n ∈ new)
    (h : o.packet.Same n.packet) (hm : m ∈ (mergeSignedPackets g old new).1)
    (hmo : m.packet.Same o.packet) : m.sigs = dedupeSigs g (pool g o.sigs n.sigs) := by
  rcases merged_cases ho hn hm with ⟨_, hnot⟩ | ⟨o', ho', n', hn', hs', rfl⟩ | ⟨_, hnot⟩
  · exact absurd ⟨n, hnm, (hmo.trans h).symm⟩ hnot
  · obtain rfl := ho.unique ho' hom hmo
    obtain rfl := hn.unique hn' hnm (hs'.symm.trans h)
    rfl
  · exact absurd ⟨o, hom, hmo.symm⟩ hnot

/-- Merging two lists keeps or supersedes all signatures exactly when the signature lists do not
clash on any common packet. -/
theorem sigsKept_iff :
    SigsKept g (old ++ new) (mergeSignedPackets g old new).1 ↔ SignedNoClash g old new := by
  constructor
  · intro h o hom n hnm hon
    refine sigs_kept_iff.mp fun s hs => ?_
    obtain ⟨sp, hsp, hsps, hspo⟩ : ∃ sp ∈ old ++ new, s ∈ sp.sigs ∧ sp.packet.Same o.packet := by
      rcases List.mem_append.mp hs with hs | hs
      · exact ⟨o, List.mem_append_left _ hom, hs, Packet.Same.refl _⟩
      · exact ⟨n, List.mem_append_right _ hnm, hs, hon.symm⟩
    obtain ⟨m, hm, hmsp, r, hr, hrs⟩ := h sp hsp s hsps
    rw [merged_common_unique ho hn hom hnm hon hm (hmsp.trans hspo)] at hr
    exact ⟨r, hr, hrs⟩
  · intro h sp hsp s hs
    -- a packet of one list only is carried over with its signatures
    have halone : sp ∈ (mergeSignedPackets g old new).1 →
        ∃ m ∈ (mergeSignedPackets g old new).1, m.packet.Same sp.packet ∧
          ∃ r ∈ m.sigs, r.Same s ∨ Supersedes g r s := fun hm =>
      ⟨sp, hm, Packet.Same.refl _, s, hs, Or.inl (Packet.Same.refl _)⟩
    have hcommon : ∀ o ∈ old, ∀ n ∈ new, o.packet.Same n.packet → o.packet.Same sp.packet →
        s ∈ o.sigs ++ n.sigs → ∃ m ∈ (mergeSignedPackets g old new).1,
          m.packet.Same sp.packet ∧ ∃ r ∈ m.sigs, r.Same s ∨ Supersedes g r s := by
      intro o hom n hnm hon hosp hmem
      obtain ⟨r, hr, hrs⟩ := sigs_kept_iff.mpr (h o hom n hnm hon) s hmem
      exact ⟨_, merged_of_common ho hn hom hnm hon, hosp, r, hr, hrs⟩
    rcases List.mem_append.mp hsp with hsp | hsp
    · by_cases hon : OnSigned new sp.packet
      · obtain ⟨n, hnm, hns⟩ := hon
        exact hcommon sp hsp n hnm hns.symm (Packet.Same.refl _) (List.mem_append_left _ hs)
      · exact halone (merged_of_old_only ho hn hsp hon)
    · by_cases hon : OnSigned old sp.packet
      · obtain ⟨o, hom, hos⟩ := hon
        exact hcommon o hom sp hsp hos hos (List.mem_append_right _ hs)
      · exact halone (merged_of_new_only ho hn hsp hon)

end

theorem onAll_append {l l' m : List SignedPacket} (h : OnAll l m) (h' : OnAll l' m) :
    OnAll (l ++ l') m := fun sp hsp =>
  (List.mem_append.mp hsp).elim (h sp) (h' sp)

theorem onList_merge_sigs {a b : List Packet} {s : Packet} (hs : s ∈ a ++ b) :
    OnList (a ++ b.filter fun s => !findPacket a s) s := by
  rcases List.mem_append.mp hs with hs | hs
  · exact onList_of_mem (List.mem_append_left _ hs)
  · by_cases hf : findPacket a s = true
    · exact (findPacket_iff.mp hf).mono (List.subset_append_left _ _)
    · refine onList_of_mem (List.mem_append_right _ (List.mem_filter.mpr ⟨hs, ?_⟩))
      simpa using hf

/-- **What a merge keeps.** For keys with the same key id and without repeated packets, `merge_keys`
loses nothing exactly when the signature lists of the two keys do not clash on any user id or subkey
that both keys have. -/
theorem mergeKeys_losesNothing_iff {H : Hashes} {a b : PublicKey} (hk : SameKeyid H a b)
    (ha : a.NoRepeats) (hb : b.NoRepeats) :
    LosesNothing g a b (mergeKeys H g a b).a ↔
      SignedNoClash g a.uids b.uids ∧ SignedNoClash g a.subkeys b.subkeys := by
  rw [mergeKeys_eq hk]
  constructor
  · intro h
    exact ⟨(sigsKept_iff ha.1 hb.1).mp h.uidSigs, (sigsKept_iff ha.2 hb.2).mp h.subkeySigs⟩
  · rintro ⟨h1, h2⟩
    exact
      { sigs := fun s hs => onList_merge_sigs hs
        uids := onAll_append (onAll_merge_old _ _) (onAll_merge_new _ _)
        subkeys := onAll_append (onAll_merge_old _ _) (onAll_merge_new _ _)
        uidSigs := (sigsKept_iff ha.1 hb.1).mpr h1
        subkeySigs := (sigsKept_iff ha.2 hb.2).mpr h2 }

/-! ## Sample keys

Small v3 RSA keys, whose key id is the modulus itself. -/

/-- MD5 on the modulus and exponent of the sample keys. -/
def sampleMd5 (l : List UInt8) : List UInt8 :=
  if l = [1, 2, 3, 4, 5, 6, 7, 8, 0x11] then
    [0x22, 0x0D, 0x3A, 0xD7, 0x0D, 0x8E, 0xF5, 0x47,
      0xCE, 0xC2, 0x27, 0xC7, 0xD2, 0x9E, 0x52, 0x4E]
  else if l = [8, 7, 6, 5, 4, 3, 2, 1, 0x11] then
    [0x2E, 0xD3, 0xC2, 0xC9, 0xF6, 0x64, 0xC7, 0xBA,
      0xA2, 0xE6, 0x51, 0x40, 0xFC, 0x4D, 0xFB, 0x38]
  else []

/-- The digests as far as the sample keys need them. -/
def sampleHashes : Hashes := ⟨sampleMd5, fun _ => [], fun _ => []⟩

/-- Variables that happen to hold zero. -/
def zeroStale : Stale := ⟨fun _ => 0, fun _ => 0⟩

/-- A v3 RSA key packet with a 64 bit modulus and exponent 17. -/
def sampleKeyPacket (tag : Nat) (modulus : List UInt8) : Packet :=
  ⟨tag, false, [3, 0, 0, 0, 1, 0, 0, 1, 0, 64] ++ modulus ++ [0, 5, 0x11]⟩

/-- A user id. -/
def sampleUid (name : UInt8) : Packet := ⟨tagUid, false, [name]⟩

/-- A signature of version 4 or 5 by key `0807060504030201` with the given type and creation
time. -/
def sampleSig (version type time : UInt8) : Packet :=
  ⟨tagSignature, false, [version, type, 1, 8, 0, 16, 5, 2, 0, 0, 0, time,
    9, 16, 8, 7, 6, 5, 4, 3, 2, 1, 0, 0]⟩

/-- The key `0102030405060708` with the given user ids and subkeys. -/
def sampleKey (uids subkeys : List SignedPacket) : PublicKey :=
  ⟨sampleKeyPacket tagPublickey [1, 2, 3, 4, 5, 6, 7, 8], false, [], uids, subkeys⟩

theorem mergeKeys_losesNothing_sample :
    LosesNothing zeroStale (sampleKey [⟨sampleUid 65, [sampleSig 4 0x10 1]⟩] [])
        (sampleKey [⟨sampleUid 65, [sampleSig 4 0x10 2]⟩] [])
        (mergeKeys sampleHashes zeroStale (sampleKey [⟨sampleUid 65, [sampleSig 4 0x10 1]⟩] [])
          (sampleKey [⟨sampleUid 65, [sampleSig 4 0x10 2]⟩] [])).a ↔
      SignedNoClash zeroStale [⟨sampleUid 65, [sampleSig 4 0x10 1]⟩]
        [⟨sampleUid 65, [sampleSig 4 0x10 2]⟩] ∧ SignedNoClash zeroStale [] [] :=
  mergeKeys_losesNothing_iff (by decide) (by decide) (by decide)

/-- A v5 revocation made in the same second as the certification it revokes is taken for it and
dropped: `compare_signatures` does not look at the type of v5 signatures. -/
theorem mergeKeys_drops_v5_revocation :
    SameKeyid sampleHashes (sampleKey [⟨sampleUid 65, [sampleSig 5 0x10 1]⟩] [])
        (sampleKey [⟨sampleUid 65, [sampleSig 5 0x30 1]⟩] []) ∧
      (sampleKey [⟨sampleUid 65, [sampleSig 5 0x10 1]⟩] []).NoRepeats ∧
      (sampleKey [⟨sampleUid 65, [sampleSig 5 0x30 1]⟩] []).NoRepeats ∧
      ¬ LosesNothing zeroStale (sampleKey [⟨sampleUid 65, [sampleSig 5 0x10 1]⟩] [])
        (sampleKey [⟨sampleUid 65, [sampleSig 5 0x30 1]⟩] [])
        (mergeKeys sampleHashes zeroStale (sampleKey [⟨sampleUid 65, [sampleSig 5 0x10 1]⟩] [])
          (sampleKey [⟨sampleUid 65, [sampleSig 5 0x30 1]⟩] [])).a := by
  refine ⟨by decide, by decide, by decide, fun h => absurd h.uidSigs (by decide)⟩

end Onak
