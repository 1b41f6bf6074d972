import Onak.Proofs.MergeLossProofs
import Onak.Proofs.UpdateProofs

/-!
# Proofs: merging again, and merging in another order

The difference reproduces the merge, merging the same key a second time changes nothing, and two
uploads can be merged in either order. `Onak.Proofs.MergeRunsProofs` and `Onak.Proofs.MergeOrderProofs`
say when this holds of runs of `merge_keys`, which may read what is not defined.
-/

namespace Onak

variable {H : Hashes} {g : Stale}

/-! ## Merging the difference -/

theorem newSigs_newSigs (old new : List Packet) :
    newSigs g old (newSigs g old new) = newSigs g old new := by
  unfold newSigs
  rw [List.filter_filter]
  exact List.filter_congr fun s _ => Bool.and_self _

section

variable {old new : List SignedPacket} (ho : NoRepeats old) (hn : NoRepeats new)
include ho hn

/-- Merging a packet with what is left of its counterpart gives what merging it with the counterpart
itself gives. -/
theorem mergedEntry_diff (hd : Deduped g old) {o : SignedPacket} (hmem : o ∈ old) :
    mergedEntry g (new.filterMap (diffEntry g old)) o = mergedEntry g new o := by
  unfold mergedEntry
  rw [findSignedPacket_diff hn]
  cases hf : findSignedPacket new o.packet with
  | none => rfl
  | some n =>
    have hon : o.packet.Same n.packet := (findSignedPacket_some hf).2.symm
    rw [Option.bind_some, diffEntry_of_mem ho hmem hon]
    by_cases hnil : newSigs g o.sigs n.sigs = []
    · have hsigs : dedupeSigs g (o.sigs ++ newSigs g o.sigs n.sigs) = o.sigs := by
        rw [hnil, List.append_nil]
        exact hd o hmem
      rw [if_pos hnil]
      show o = ⟨o.packet, dedupeSigs g (o.sigs ++ newSigs g o.sigs n.sigs)⟩
      rw [hsigs]
    · rw [if_neg hnil]
      show (⟨o.packet, dedupeSigs g (o.sigs ++ newSigs g o.sigs (newSigs g o.sigs n.sigs))⟩ :
        SignedPacket) = ⟨o.packet, dedupeSigs g (o.sigs ++ newSigs g o.sigs n.sigs)⟩
      rw [newSigs_newSigs]

theorem merge_diff (hd : Deduped g old) :
    (mergeSignedPackets g old (mergeSignedPackets g old new).2).1 =
      (mergeSignedPackets g old new).1 := by
  rw [mergeSignedPackets_snd old hn, mergeSignedPackets_fst ho (hn.diff old),
    mergeSignedPackets_fst ho hn, diff_filter_not_on,
    List.map_congr_left fun o hmem => mergedEntry_diff ho hn hd hmem]

end

theorem sameKeyid_congr {a b a' b' : PublicKey} (h : SameKeyid H a b)
    (ha : a'.publickey = a.publickey) (hb : b'.publickey = b.publickey) : SameKeyid H a' b' := by
  unfold SameKeyid at h ⊢
  rwa [getKeyid_congr ha, getKeyid_congr hb]

/-- **The difference reproduces the merge.** Merging the difference into the original key gives
exactly the merged key. -/
theorem mergeKeys_diff {a b : PublicKey} (hk : SameKeyid H a b) (ha : a.NoRepeats)
    (hb : b.NoRepeats) (hd : a.Deduped g) :
    (mergeKeys H g a (mergeKeys H g a b).b).a = (mergeKeys H g a b).a := by
  have hk' : SameKeyid H a (mergeKeys H g a b).b := sameKeyid_congr hk rfl (mergeKeys_b_publickey a b)
  have hsigs : (b.sigs.filter fun s => !findPacket a.sigs s).filter (fun s => !findPacket a.sigs s) =
      b.sigs.filter fun s => !findPacket a.sigs s := by
    rw [List.filter_filter]
    exact List.filter_congr fun s _ => Bool.and_self _
  rw [mergeKeys_eq hk', mergeKeys_eq hk]
  simp only [merge_diff ha.1 hb.1 hd.1, merge_diff ha.2 hb.2 hd.2, hsigs, ← Bool.or_assoc,
    Bool.or_self]

/-! ## Merging twice -/

/-- What outranks a signature also outranks a v4 signature that `compare_signatures` equates with
it. -/
theorem outranks_of_equated {r x s : Packet} (hm : signaturesMatchSigner g r x)
    (hn : ¬ innerWins g r x) (hc : compareSignatures g x s) (ht : s.tag = tagSignature)
    (hv : s.data[0]? = some 4) : signaturesMatchSigner g r s ∧ ¬ innerWins g r s := by
  obtain ⟨⟨htr, htx⟩, hv1, hs1, hi1, he1⟩ := signaturesMatchSigner_iff.mp hm
  obtain ⟨hv2, hty, hcr, hi2⟩ := compareSignatures_iff.mp hc
  have hx4 : x.data[0]? = some 4 := hv2.trans hv
  have hoct : sigTypeOctet x = sigTypeOctet s := by
    rw [sigTypeOctet_v4 hx4, sigTypeOctet_v4 hv]
    exact hty hx4
  have hix : issuer g x ≠ 0 := he1 ▸ hi1
  have his : issuer g s ≠ 0 := hi2 ▸ hix
  have hst : sigSigtype x = sigSigtype s := sigSigtype_eq_of_type hv2 hoct hix his
  refine ⟨signaturesMatchSigner_iff.mpr
    ⟨⟨htr, ht⟩, hv1.trans hv2, hs1.trans hst, hi1, he1.trans hi2⟩, ?_⟩
  rw [innerWins_iff, ← hcr]
  rwa [innerWins_iff] at hn

/-- Merging v4 signatures a second time leaves no trace. -/
theorem dedupeSigs_again {old new : List Packet}
    (hv : ∀ s ∈ new, s.tag = tagSignature ∧ s.data[0]? = some 4) :
    dedupeSigs g (dedupeSigs g (pool g old new) ++
      newSigs g (dedupeSigs g (pool g old new)) new) = dedupeSigs g (pool g old new) := by
  refine Collapse.collapse_append_outranked ranked (Collapse.unmatched_collapse _) fun s hs => ?_
  obtain ⟨hsn, hnot⟩ := mem_newSigs.mp hs
  obtain ⟨ht, h4⟩ := hv s hsn
  rcases mem_pool_or_found (g := g) old hsn with hp | hf
  · -- `s` was merged the first time, and dropped
    rcases Collapse.collapse_covers (ranked (g := g)) hp with hmem | ⟨r, hr, hm, hn⟩
    · exact absurd (compareSignatures_of_same (Packet.Same.refl s)) (hnot s hmem)
    · exact ⟨r, hr, ranked.symm hm, hn⟩
  · -- an old signature stood in for `s`, and was dropped itself
    obtain ⟨x, hx⟩ := Option.isSome_iff_exists.mp hf
    obtain ⟨hxold, hxs⟩ := findSignature_some hx
    rcases Collapse.collapse_covers (ranked (g := g)) (List.mem_append_left (newSigs g old new) hxold)
      with hmem | ⟨r, hr, hm, hn⟩
    · exact absurd hxs (hnot x hmem)
    · obtain ⟨hm', hn'⟩ := outranks_of_equated (ranked.symm hm) hn hxs ht h4
      exact ⟨r, hr, hm', hn'⟩

theorem newSigs_self (l : List Packet) : newSigs g l l = [] := by
  refine List.filter_eq_nil_iff.mpr fun s hs => ?_
  have hf : (findSignature g l s).isSome = true :=
    List.find?_isSome.mpr ⟨s, hs, compareSignatures_of_same (Packet.Same.refl s)⟩
  simpa using Option.isSome_iff_ne_none.mp hf

section

variable {old new : List SignedPacket} (ho : NoRepeats old) (hn : NoRepeats new)
include ho hn

theorem noRepeats_merged : NoRepeats (mergeSignedPackets g old new).1 := by
  rw [mergeSignedPackets_fst ho hn]
  refine List.pairwise_append.mpr ⟨ho.map_packet fun o _ => mergedEntry_packet new o,
    hn.sublist List.filter_sublist, fun x hx y hy hxy => ?_⟩
  obtain ⟨o, hom, rfl⟩ := List.mem_map.mp hx
  have hnot := findSignedPacket_isNone.mp (List.mem_filter.mp hy).2
  rw [mergedEntry_packet] at hxy
  exact hnot ⟨o, hom, hxy⟩

theorem merge_again (hd : Deduped g new) (hv : AllV4 new) :
    (mergeSignedPackets g (mergeSignedPackets g old new).1 new).1 =
      (mergeSignedPackets g old new).1 := by
  have hall : OnAll new (mergeSignedPackets g old new).1 := onAll_merge_new old new
  have hnone : new.filter (fun n => (findSignedPacket (mergeSignedPackets g old new).1
      n.packet).isNone) = [] :=
    List.filter_eq_nil_iff.mpr fun n hmem => by
      rw [findSignedPacket_isNone, not_not]
      exact hall n hmem
  have hsame : ∀ m ∈ (mergeSignedPackets g old new).1, mergedEntry g new m = m := by
    intro m hm
    rcases merged_cases ho hn hm with ⟨_, hnot⟩ | ⟨o, _, n, hnm, hon, rfl⟩ | ⟨hmn, _⟩
    · unfold mergedEntry
      rw [findSignedPacket_none.mpr hnot]
    · unfold mergedEntry
      rw [findSignedPacket_of_mem hn hnm hon.symm]
      show (⟨o.packet, _⟩ : SignedPacket) = ⟨o.packet, _⟩
      congr 1
      exact dedupeSigs_again (hv n hnm)
    · unfold mergedEntry
      rw [findSignedPacket_of_mem hn hmn (Packet.Same.refl _)]
      show (⟨m.packet, dedupeSigs g (m.sigs ++ newSigs g m.sigs m.sigs)⟩ : SignedPacket) = m
      rw [newSigs_self, List.append_nil, hd m hmn]
  rw [mergeSignedPackets_fst (noRepeats_merged ho hn) hn, hnone, List.append_nil,
    List.map_congr_left hsame, List.map_id']

end

/-- **Uploading again changes nothing.** Merging a key with deduplicated v4 signatures a second time
gives exactly the key that the first merge gave. -/
theorem mergeKeys_again {a b : PublicKey} (hk : SameKeyid H a b) (ha : a.NoRepeats)
    (hb : b.NoRepeats) (hd : b.Deduped g) (hu : AllV4 b.uids) (hs : AllV4 b.subkeys) :
    (mergeKeys H g (mergeKeys H g a b).a b).a = (mergeKeys H g a b).a := by
  have hk' : SameKeyid H (mergeKeys H g a b).a b := sameKeyid_congr hk (mergeKeys_a_publickey a b) rfl
  have hsigs : b.sigs.filter (fun s => !findPacket
      (a.sigs ++ b.sigs.filter fun s => !findPacket a.sigs s) s) = [] := by
    refine List.filter_eq_nil_iff.mpr fun s hmem => ?_
    have hon := onList_merge_sigs (a := a.sigs) (List.mem_append_right a.sigs hmem)
    simpa using findPacket_iff.mpr hon
  rw [mergeKeys_eq hk', mergeKeys_eq hk]
  simp only [merge_again ha.1 hb.1 hd.1 hu, merge_again ha.2 hb.2 hd.2 hs, hsigs,
    List.append_nil, Bool.or_assoc, Bool.or_self]

/-! ## Merging in another order -/

theorem same_respects :
    Collapse.Respects (signaturesMatchSigner g) (innerWins g) Packet.Same where
  refl := Packet.Same.refl
  symm := Packet.Same.symm
  trans := Packet.Same.trans
  matches_congr := signaturesMatchSigner_congr
  newer_congr := innerWins_congr

theorem sigsOn_of_mem {l : List SignedPacket} (hl : NoRepeats l) {sp : SignedPacket} (h : sp ∈ l)
    {p : Packet} (hp : sp.packet.Same p) : sigsOn l p = sp.sigs := by
  unfold sigsOn
  rw [findSignedPacket_of_mem hl h hp]
  rfl

theorem sigsOn_of_not_on {l : List SignedPacket} {p : Packet} (h : ¬ OnSigned l p) :
    sigsOn l p = [] := by
  unfold sigsOn
  rw [findSignedPacket_none.mpr h]
  rfl

theorem sigsOn_congr (l : List SignedPacket) {p q : Packet} (h : p.Same q) :
    sigsOn l p = sigsOn l q := by
  unfold sigsOn
  rw [findSignedPacket_congr l h]

theorem exists_of_mem_sigsOn {l : List SignedPacket} {p s : Packet} (h : s ∈ sigsOn l p) :
    ∃ sp ∈ l, sp.packet.Same p ∧ s ∈ sp.sigs := by
  unfold sigsOn at h
  cases hf : findSignedPacket l p with
  | none => simp [hf] at h
  | some sp =>
    obtain ⟨hmem, hs⟩ := findSignedPacket_some hf
    exact ⟨sp, hmem, hs, by simpa [hf] using h⟩

/-- `l` holds the best of the signatures `u p` that were seen on each packet `p`. -/
structure HoldsBest (g : Stale) (l : List SignedPacket) (u : Packet → List Packet) : Prop where
  noRepeats : NoRepeats l
  represents : ∀ sp ∈ l, Collapse.Represents (signaturesMatchSigner g) (innerWins g) Packet.Same
    sp.sigs (u sp.packet)
  absent : ∀ p, ¬ OnSigned l p → u p = []
  congr : ∀ {p q : Packet}, p.Same q → u p = u q

theorem holdsBest_self {l : List SignedPacket} (hl : NoRepeats l) (hd : Deduped g l) :
    HoldsBest g l (sigsOn l) := by
  refine ⟨hl, fun sp hsp => ?_, fun p => sigsOn_of_not_on, sigsOn_congr l⟩
  rw [sigsOn_of_mem hl hsp (Packet.Same.refl _)]
  exact Collapse.represents_self same_respects
    ((Collapse.collapse_eq_self_iff ranked).mp (hd sp hsp))

theorem onSigned_merged {old new : List SignedPacket} (ho : NoRepeats old) (hn : NoRepeats new)
    (p : Packet) :
    OnSigned (mergeSignedPackets g old new).1 p ↔ OnSigned old p ∨ OnSigned new p := by
  constructor
  · rintro ⟨m, hm, hp⟩
    rcases merged_cases ho hn hm with ⟨hmo, _⟩ | ⟨o, hom, _, _, _, rfl⟩ | ⟨hmn, _⟩
    · exact Or.inl ⟨m, hmo, hp⟩
    · exact Or.inl ⟨o, hom, hp⟩
    · exact Or.inr ⟨m, hmn, hp⟩
  · rintro (⟨o, hom, hp⟩ | ⟨n, hnm, hp⟩)
    · exact (onAll_merge_old old new o hom).congr hp
    · exact (onAll_merge_new old new n hnm).congr hp

/-- A merge keeps the best of what was seen on either side, if `compare_signatures` equates no
different signatures. -/
theorem HoldsBest.merge {old new : List SignedPacket} {u : Packet → List Packet}
    (h : HoldsBest g old u) (hn : NoRepeats new) (hd : Deduped g new)
    (hc : ∀ o ∈ old, ∀ n ∈ new, o.packet.Same n.packet → ∀ r ∈ o.sigs, ∀ s ∈ n.sigs,
      compareSignatures g r s → r.Same s) :
    HoldsBest g (mergeSignedPackets g old new).1 fun p => u p ++ sigsOn new p := by
  refine ⟨noRepeats_merged h.noRepeats hn, fun m hm => ?_, fun p hp => ?_, fun {p q} hpq => ?_⟩
  · rcases merged_cases h.noRepeats hn hm with ⟨hmo, hnot⟩ | ⟨o, hom, n, hnm, hon, rfl⟩ | ⟨hmn, hnot⟩
    · simp only [sigsOn_of_not_on hnot, List.append_nil]
      exact h.represents m hmo
    · simp only [sigsOn_of_mem hn hnm hon.symm]
      refine (h.represents o hom).collapse ranked same_respects (fun s hs => (mem_newSigs.mp hs).1)
        fun s hs => ?_
      rcases mem_pool_or_found (g := g) o.sigs hs with hp | hf
      · rcases List.mem_append.mp hp with hp | hp
        · exact Or.inr ⟨s, hp, Packet.Same.refl s⟩
        · exact Or.inl hp
      · obtain ⟨r, hr⟩ := Option.isSome_iff_exists.mp hf
        obtain ⟨hro, hrs⟩ := findSignature_some hr
        exact Or.inr ⟨r, hro, hc o hom n hnm hon r hro s hs hrs⟩
    · simp only [h.absent _ hnot, List.nil_append, sigsOn_of_mem hn hmn (Packet.Same.refl _)]
      exact Collapse.represents_self same_respects
        ((Collapse.collapse_eq_self_iff ranked).mp (hd m hmn))
  · rw [onSigned_merged h.noRepeats hn, not_or] at hp
    simp only [h.absent p hp.1, sigsOn_of_not_on hp.2, List.append_nil]
  · simp only [h.congr hpq, sigsOn_congr new hpq]

/-- Matching signatures neither of which is newer are the same, if no different ones are equated. -/
theorem same_of_tie {l : List SignedPacket} (hl : Distinct g l) {sp sp' : SignedPacket}
    (hsp : sp ∈ l) (hsp' : sp' ∈ l) (hp : sp.packet.Same sp'.packet) {x y : Packet}
    (hx : x ∈ sp.sigs) (hy : y ∈ sp'.sigs) (hm : signaturesMatchSigner g x y)
    (hn : ¬ innerWins g x y) (hn' : ¬ innerWins g y x) : x.Same y := by
  obtain ⟨_, hv, hs, hi, he⟩ := signaturesMatchSigner_iff.mp hm
  by_cases hr : sigIsRevocation (sigSigtype x) = true
  · exact hl.revocations sp hsp sp' hsp' hp x hx y hy hr (hs ▸ hr) hm
  · have hr' : sigIsRevocation (sigSigtype x) = false := by simpa using hr
    rw [innerWins_iff] at hn hn'
    have h1 : ¬ created g x < created g y := fun h => hn ⟨hr', h⟩
    have h2 : ¬ created g y < created g x := fun h => hn' ⟨hs ▸ hr', h⟩
    refine hl.compared sp hsp sp' hsp' hp x hx y hy (compareSignatures_iff.mpr
      ⟨hv, fun h4 => ?_, by omega, he⟩)
    have hy4 : y.data[0]? = some 4 := hv ▸ h4
    have hox := sigTypeOctet_eq hi (Or.inr (Or.inl h4))
    have hoy := sigTypeOctet_eq (he ▸ hi) (Or.inr (Or.inl hy4))
    rw [← sigTypeOctet_v4 h4, ← sigTypeOctet_v4 hy4, hox, hoy, hs]

section

variable {a b c : List SignedPacket} (ha : NoRepeats a) (hb : NoRepeats b) (hc : NoRepeats c)
  (hda : Deduped g a) (hdb : Deduped g b) (hdc : Deduped g c) (hl : Distinct g (a ++ b ++ c))
include ha hb hc hda hdb hdc hl

theorem holdsBest_merge_merge :
    HoldsBest g (mergeSignedPackets g (mergeSignedPackets g a b).1 c).1
      fun p => sigsOn a p ++ sigsOn b p ++ sigsOn c p := by
  have hab : HoldsBest g (mergeSignedPackets g a b).1 fun p => sigsOn a p ++ sigsOn b p :=
    (holdsBest_self ha hda).merge hb hdb fun o ho n hn hon r hr s hs =>
      hl.compared o (by simp [ho]) n (by simp [hn]) hon r hr s hs
  refine hab.merge hc hdc fun m hm n hn hmn r hr s hs => ?_
  -- a signature of the first merge comes from one of the two lists
  rcases List.mem_append.mp ((hab.represents m hm).subset hr) with hr' | hr'
  · obtain ⟨sp, hsp, hp, hrs⟩ := exists_of_mem_sigsOn hr'
    exact hl.compared sp (by simp [hsp]) n (by simp [hn]) (hp.trans hmn) r hrs s hs
  · obtain ⟨sp, hsp, hp, hrs⟩ := exists_of_mem_sigsOn hr'
    exact hl.compared sp (by simp [hsp]) n (by simp [hn]) (hp.trans hmn) r hrs s hs

end

theorem exists_of_mem_three {a b c : List SignedPacket} {p s : Packet}
    (h : s ∈ sigsOn a p ++ sigsOn b p ++ sigsOn c p) :
    ∃ sp ∈ a ++ b ++ c, sp.packet.Same p ∧ s ∈ sp.sigs := by
  simp only [List.mem_append] at h
  rcases h with (h | h) | h
  · obtain ⟨sp, hsp, hs⟩ := exists_of_mem_sigsOn h
    exact ⟨sp, by simp [hsp], hs⟩
  · obtain ⟨sp, hsp, hs⟩ := exists_of_mem_sigsOn h
    exact ⟨sp, by simp [hsp], hs⟩
  · obtain ⟨sp, hsp, hs⟩ := exists_of_mem_sigsOn h
    exact ⟨sp, by simp [hsp], hs⟩

theorem Distinct.mono {l l' : List SignedPacket} (h : Distinct g l) (hsub : l' ⊆ l) :
    Distinct g l' :=
  ⟨fun sp hsp sp' hsp' => h.compared sp (hsub hsp) sp' (hsub hsp'),
    fun sp hsp sp' hsp' => h.revocations sp (hsub hsp) sp' (hsub hsp')⟩

theorem HoldsBest.sigs_subset {l l' all : List SignedPacket} {u u' : Packet → List Packet}
    (h : HoldsBest g l u) (h' : HoldsBest g l' u') (hu : ∀ p x, x ∈ u p ↔ x ∈ u' p)
    (hall : ∀ p, ∀ s ∈ u p, ∃ sp ∈ all, sp.packet.Same p ∧ s ∈ sp.sigs) (hd : Distinct g all)
    {sp sp' : SignedPacket} (hsp : sp ∈ l) (hsp' : sp' ∈ l') (hp : sp.packet.Same sp'.packet)
    {s : Packet} (hs : OnList sp.sigs s) : OnList sp'.sigs s := by
  obtain ⟨x, hx, hxs⟩ := hs
  have hrep' := h'.represents sp' hsp'
  rw [← h'.congr hp] at hrep'
  have htie : ∀ x ∈ u sp.packet, ∀ y ∈ u sp.packet, signaturesMatchSigner g x y →
      ¬ innerWins g x y → ¬ innerWins g y x → x.Same y := by
    intro x hx y hy hm hn hn'
    obtain ⟨q, hq, hqp, hxq⟩ := hall _ x hx
    obtain ⟨r, hr, hrp, hyr⟩ := hall _ y hy
    exact same_of_tie hd hq hr (hqp.trans hrp.symm) hxq hyr hm hn hn'
  obtain ⟨y, hy, hyx⟩ := (h.represents sp hsp).unique ranked same_respects hrep' (hu sp.packet)
    htie hx
  exact ⟨y, hy, hyx.trans hxs⟩

theorem merge_merge_comm {a b c : List SignedPacket} (ha : NoRepeats a) (hb : NoRepeats b)
    (hc : NoRepeats c) (hda : Deduped g a) (hdb : Deduped g b) (hdc : Deduped g c)
    (hl : Distinct g (a ++ b ++ c)) :
    SameSigned (mergeSignedPackets g (mergeSignedPackets g a b).1 c).1
      (mergeSignedPackets g (mergeSignedPackets g a c).1 b).1 := by
  have hl' : Distinct g (a ++ c ++ b) := hl.mono fun x hx => by
    simp only [List.mem_append] at hx ⊢
    tauto
  have h1 := holdsBest_merge_merge ha hb hc hda hdb hdc hl
  have h2 := holdsBest_merge_merge ha hc hb hda hdc hdb hl'
  refine ⟨fun p => ?_, fun sp hsp sp' hsp' hp s => ⟨fun h => ?_, fun h => ?_⟩⟩
  · rw [onSigned_merged (noRepeats_merged ha hb) hc, onSigned_merged ha hb,
      onSigned_merged (noRepeats_merged ha hc) hb, onSigned_merged ha hc]
    tauto
  · refine h1.sigs_subset h2 (fun p x => ?_) (fun p s => exists_of_mem_three) hl hsp hsp' hp h
    simp only [List.mem_append]
    tauto
  · refine h2.sigs_subset h1 (fun p x => ?_) (fun p s => exists_of_mem_three) hl' hsp' hsp hp.symm h
    simp only [List.mem_append]
    tauto

theorem onList_merged_sigs {a b : List Packet} {s : Packet} :
    OnList (a ++ b.filter fun s => !findPacket a s) s ↔ OnList a s ∨ OnList b s := by
  constructor
  · rintro ⟨q, hq, hs⟩
    rcases List.mem_append.mp hq with hq | hq
    · exact Or.inl ⟨q, hq, hs⟩
    · exact Or.inr ⟨q, (List.mem_filter.mp hq).1, hs⟩
  · rintro (⟨q, hq, hs⟩ | ⟨q, hq, hs⟩)
    · exact (onList_merge_sigs (List.mem_append_left b hq)).congr hs
    · exact (onList_merge_sigs (List.mem_append_right a hq)).congr hs

/-- **Replicas converge.** Two uploads give a key with the same contents in whichever order they are
merged. -/
theorem mergeKeys_comm {a b c : PublicKey} (hab : SameKeyid H a b) (hac : SameKeyid H a c)
    (ha : a.NoRepeats) (hb : b.NoRepeats) (hc : c.NoRepeats) (hda : a.Deduped g)
    (hdb : b.Deduped g) (hdc : c.Deduped g) (huids : Distinct g (a.uids ++ b.uids ++ c.uids))
    (hsubkeys : Distinct g (a.subkeys ++ b.subkeys ++ c.subkeys)) :
    SameContents (mergeKeys H g (mergeKeys H g a b).a c).a
      (mergeKeys H g (mergeKeys H g a c).a b).a := by
  have hbc : SameKeyid H (mergeKeys H g a b).a c := sameKeyid_congr hac (mergeKeys_a_publickey a b) rfl
  have hcb : SameKeyid H (mergeKeys H g a c).a b := sameKeyid_congr hab (mergeKeys_a_publickey a c) rfl
  rw [mergeKeys_eq hbc, mergeKeys_eq hcb, mergeKeys_eq hab, mergeKeys_eq hac]
  refine ⟨fun s => ?_, merge_merge_comm ha.1 hb.1 hc.1 hda.1 hdb.1 hdc.1 huids,
    merge_merge_comm ha.2 hb.2 hc.2 hda.2 hdb.2 hdc.2 hsubkeys⟩
  simp only [onList_merged_sigs]
  tauto

end Onak
