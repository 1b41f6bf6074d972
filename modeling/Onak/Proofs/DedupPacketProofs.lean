import Onak.Proofs.CleanCountProofs

/-!
# Proofs: merging repeated packets

`dedupuids` and `dedupsubkeys` leave the first occurrence of each packet and merge the signatures of
the others into it. Between signatures with an issuer nothing is lost that is not superseded. Two
signatures without one are taken for the same by `compare_signatures` when type and time agree, while
`signatures_match_signer` never matches them: of such signatures the ones on the first occurrence
that has any are kept, and those on later ones are lost (`sigsKept_dedupSigned_iff`).
-/

namespace Onak

variable {g : Stale}

/-! ## The packets -/

/-- The first occurrence of each packet of a list, in order. -/
def firstOccurrences : List Packet → List Packet
  | [] => []
  | p :: l => p :: (firstOccurrences l).filter fun q => ¬ q.Same p

theorem firstOccurrences_filter (p : Packet) (l : List Packet) :
    firstOccurrences (l.filter fun q => ¬ q.Same p) =
      (firstOccurrences l).filter fun q => ¬ q.Same p := by
  induction l with
  | nil => rfl
  | cons q l ih =>
    by_cases hq : q.Same p
    · -- what differs from `p` differs from `q`
      have hpq : ∀ r : Packet, r.Same q ↔ r.Same p := fun r =>
        ⟨fun h => h.trans hq, fun h => h.trans hq.symm⟩
      rw [List.filter_cons_of_neg (by simpa using hq), ih, firstOccurrences,
        List.filter_cons_of_neg (by simpa using hq), List.filter_filter]
      simp only [hpq, Bool.and_self]
    · rw [List.filter_cons_of_pos (by simpa using hq), firstOccurrences, ih, firstOccurrences,
        List.filter_cons_of_pos (by simpa using hq), List.filter_filter, List.filter_filter]
      simp only [Bool.and_comm]

theorem packets_dedupLoop {fuel : Nat} {l : List SignedPacket} (hfuel : l.length ≤ fuel) :
    (dedupLoop g fuel l).1.map SignedPacket.packet =
      firstOccurrences (l.map SignedPacket.packet) := by
  induction fuel generalizing l with
  | zero =>
    obtain rfl : l = [] := List.length_eq_zero_iff.mp (by omega)
    rfl
  | succ fuel ih =>
    cases l with
    | nil => rfl
    | cons cur rest =>
      obtain ⟨-, hrest⟩ := absorbDups_eq g cur rest
      have hlen := (absorbDups_sublist (g := g) cur rest).length_le
      rw [List.length_cons] at hfuel
      simp only [dedupLoop, List.map_cons]
      rw [absorbDups_packet, ih (by omega), hrest, firstOccurrences, ← firstOccurrences_filter,
        List.filter_map]
      rfl

theorem length_dedupLoop {fuel : Nat} {l : List SignedPacket} (hfuel : l.length ≤ fuel) :
    (dedupLoop g fuel l).1.length + (dedupLoop g fuel l).2 = l.length := by
  induction fuel generalizing l with
  | zero =>
    obtain rfl : l = [] := List.length_eq_zero_iff.mp (by omega)
    rfl
  | succ fuel ih =>
    cases l with
    | nil => rfl
    | cons cur rest =>
      obtain ⟨-, hrest⟩ := absorbDups_eq g cur rest
      have hcount := absorbDups_count (g := g) cur rest
      have hsplit := List.length_eq_length_filter_add (l := rest) fun sp => sp.packet.Same cur.packet
      have hlen := (absorbDups_sublist (g := g) cur rest).length_le
      rw [List.length_cons] at hfuel ⊢
      have ih := ih (l := (absorbDups g cur rest).2.1) (by omega)
      have hleft : (absorbDups g cur rest).2.1.length + (occurrences rest cur.packet).length =
          rest.length := by
        rw [hrest, hsplit, Nat.add_comm]
        simp [occurrences]
      simp only [dedupLoop, List.length_cons]
      omega

/-! ## Signatures without an issuer -/

/-- Some signature on the packet passes for `s` with `compare_signatures`. -/
def passesOn (g : Stale) (s : Packet) (sp : SignedPacket) : Bool :=
  sp.sigs.any fun x => compareSignatures g x s

theorem passesOn_iff {s : Packet} {sp : SignedPacket} :
    passesOn g s sp = true ↔ ∃ x ∈ sp.sigs, compareSignatures g x s = true := by
  simp [passesOn]

theorem passesOn_of_mem {s : Packet} {sp : SignedPacket} (h : s ∈ sp.sigs) :
    passesOn g s sp = true :=
  passesOn_iff.mpr ⟨s, h, compareSignatures_of_same (Packet.Same.refl s)⟩

theorem passesOn_congr {r s : Packet} (h : r.Same s) : passesOn g r = passesOn g s := by
  funext sp
  unfold passesOn
  congr 1
  funext x
  rw [Bool.eq_iff_iff, compareSignatures_iff, compareSignatures_iff, h.2, created_congr h.2,
    issuer_congr h.2]

/-- `dedupe_sigs` never drops a signature without an issuer. -/
theorem mem_dedupeSigs_of_issuer_zero {l : List Packet} {s : Packet} (h : issuer g s = 0) :
    s ∈ dedupeSigs g l ↔ s ∈ l := by
  refine ⟨Collapse.mem_of_mem_collapse, fun hs => ?_⟩
  rcases Collapse.collapse_covers (ranked (g := g)) hs with hmem | ⟨r, -, hm, -⟩
  · exact hmem
  · exact absurd h (signaturesMatchSigner_iff.mp hm).2.2.2.1

theorem mem_mergePacketSigs_of_issuer_zero {cur dup : SignedPacket} {s : Packet}
    (h : issuer g s = 0) :
    s ∈ (mergePacketSigs g cur dup).1.sigs ↔
      s ∈ cur.sigs ∨ (s ∈ dup.sigs ∧ passesOn g s cur = false) := by
  show s ∈ dedupeSigs g (cur.sigs ++ newSigs g cur.sigs dup.sigs) ↔ _
  rw [mem_dedupeSigs_of_issuer_zero h, List.mem_append, mem_newSigs, ← Bool.not_eq_true,
    passesOn_iff]
  push Not
  rfl

theorem passesOn_mergePacketSigs {cur dup : SignedPacket} {s : Packet} (h : issuer g s = 0) :
    passesOn g s (mergePacketSigs g cur dup).1 = (passesOn g s cur || passesOn g s dup) := by
  rw [Bool.eq_iff_iff, Bool.or_eq_true, passesOn_iff, passesOn_iff, passesOn_iff]
  have hzero : ∀ x, compareSignatures g x s = true → issuer g x = 0 := fun x hx =>
    (compareSignatures_iff.mp hx).2.2.2.trans h
  constructor
  · rintro ⟨x, hx, hxs⟩
    rcases (mem_mergePacketSigs_of_issuer_zero (hzero x hxs)).mp hx with hx | ⟨hx, -⟩
    · exact .inl ⟨x, hx, hxs⟩
    · exact .inr ⟨x, hx, hxs⟩
  · rintro (⟨x, hx, hxs⟩ | ⟨x, hx, hxs⟩)
    · exact ⟨x, (mem_mergePacketSigs_of_issuer_zero (hzero x hxs)).mpr (.inl hx), hxs⟩
    · cases hcur : passesOn g x cur with
      | true =>
        -- what stands in for `x` stands in for `s`
        obtain ⟨y, hy, hyx⟩ := passesOn_iff.mp hcur
        have hys := compareSignatures_trans hyx hxs
        exact ⟨y, (mem_mergePacketSigs_of_issuer_zero (hzero y hys)).mpr (.inl hy), hys⟩
      | false =>
        exact ⟨x, (mem_mergePacketSigs_of_issuer_zero (hzero x hxs)).mpr (.inr ⟨hx, hcur⟩), hxs⟩

/-- Of the signatures without an issuer that pass for each other, those on the first occurrence with
any are kept. -/
theorem mem_mergeOccurrences_of_issuer_zero {first : SignedPacket} {dups : List SignedPacket}
    {s : Packet} (h : issuer g s = 0) :
    s ∈ (mergeOccurrences g first dups).sigs ↔
      ∃ o, (first :: dups).find? (passesOn g s) = some o ∧ s ∈ o.sigs := by
  induction dups generalizing first with
  | nil =>
    show s ∈ first.sigs ↔ _
    constructor
    · intro hs
      exact ⟨first, by simp [passesOn_of_mem hs], hs⟩
    · rintro ⟨o, ho, hs⟩
      rwa [← List.mem_singleton.mp (List.mem_of_find?_eq_some ho)]
  | cons dup dups ih =>
    have hstep : mergeOccurrences g first (dup :: dups) =
        mergeOccurrences g (mergePacketSigs g first dup).1 dups := rfl
    rw [hstep, ih]
    cases hfirst : passesOn g s first with
    | true =>
      have hmerged : passesOn g s (mergePacketSigs g first dup).1 = true := by
        rw [passesOn_mergePacketSigs h, hfirst, Bool.true_or]
      rw [List.find?_cons_of_pos hmerged, List.find?_cons_of_pos hfirst]
      simp [mem_mergePacketSigs_of_issuer_zero h, hfirst]
    | false =>
      have hnot : s ∉ first.sigs := fun hs => by simp [passesOn_of_mem hs] at hfirst
      rw [List.find?_cons_of_neg (by simp [hfirst]) (l := dup :: dups)]
      cases hdup : passesOn g s dup with
      | true =>
        have hmerged : passesOn g s (mergePacketSigs g first dup).1 = true := by
          rw [passesOn_mergePacketSigs h, hdup, Bool.or_true]
        rw [List.find?_cons_of_pos hmerged, List.find?_cons_of_pos hdup]
        simp [mem_mergePacketSigs_of_issuer_zero h, hfirst, hnot]
      | false =>
        have hmerged : passesOn g s (mergePacketSigs g first dup).1 = false := by
          rw [passesOn_mergePacketSigs h, hfirst, hdup, Bool.or_false]
        rw [List.find?_cons_of_neg (by simp [hmerged]), List.find?_cons_of_neg (by simp [hdup])]

/-! ## Signatures with an issuer -/

/-- Every signature is a version 4 signature packet. -/
abbrev SigsV4 (sigs : List Packet) : Prop := ∀ s ∈ sigs, s.tag = tagSignature ∧ s.data[0]? = some 4

theorem mergePacketSigs_sigs_subset (cur dup : SignedPacket) :
    (mergePacketSigs g cur dup).1.sigs ⊆ cur.sigs ++ dup.sigs := by
  intro s hs
  exact mem_of_mem_pool (Collapse.mem_of_mem_collapse hs)

/-- A version 4 signature with an issuer is merged or superseded. -/
theorem mergePacketSigs_keeps {cur dup : SignedPacket} (hcur : SigsV4 cur.sigs)
    (hdup : SigsV4 dup.sigs) {s : Packet} (hs : s ∈ cur.sigs ++ dup.sigs) (hi : issuer g s ≠ 0) :
    ∃ r ∈ (mergePacketSigs g cur dup).1.sigs, r = s ∨ Supersedes g r s := by
  have hall : SigsV4 (cur.sigs ++ dup.sigs) := List.forall_mem_append.mpr ⟨hcur, hdup⟩
  have htypes : ∀ x ∈ pool g cur.sigs dup.sigs, ∀ y ∈ pool g cur.sigs dup.sigs,
      signaturesMatchSigner g x y → sigTypeOctet x = sigTypeOctet y := by
    intro x hx y hy hxy
    obtain ⟨-, -, ht, hix, hiy⟩ := signaturesMatchSigner_iff.mp hxy
    have hx4 := (hall x (mem_of_mem_pool hx)).2
    have hy4 := (hall y (mem_of_mem_pool hy)).2
    rw [sigTypeOctet_eq hix (.inr (.inl hx4)), sigTypeOctet_eq (hiy ▸ hix) (.inr (.inl hy4)), ht]
  have hpool : ∃ x ∈ pool g cur.sigs dup.sigs, x = s ∨ Supersedes g x s := by
    rcases List.mem_append.mp hs with hs' | hs'
    · exact ⟨s, List.mem_append_left _ hs', .inl rfl⟩
    · rcases mem_pool_or_found (g := g) cur.sigs hs' with hp | hf
      · exact ⟨s, hp, .inl rfl⟩
      · obtain ⟨x, hx⟩ := Option.isSome_iff_exists.mp hf
        obtain ⟨hxm, hxs⟩ := findSignature_some hx
        obtain ⟨hv, ht, hc, hi'⟩ := compareSignatures_iff.mp hxs
        have hx4 := hcur x hxm
        have hs4 := hdup s hs'
        refine ⟨x, List.mem_append_left _ hxm, .inr ⟨hx4.1.trans hs4.1.symm, hv, ?_, hi', hi,
          fun _ => hc.ge⟩⟩
        rw [sigTypeOctet_v4 hx4.2, sigTypeOctet_v4 hs4.2]
        exact ht hx4.2
  obtain ⟨x, hx, hxs⟩ := hpool
  obtain ⟨r, hr, hrx⟩ := dedupeSigs_keeps htypes hx
  refine ⟨r, hr, ?_⟩
  rcases hrx with rfl | hrx
  · exact hxs
  · rcases hxs with rfl | hxs
    · exact .inr hrx
    · exact .inr (hrx.trans hxs)

theorem mergeOccurrences_keeps {first : SignedPacket} {dups : List SignedPacket}
    (hfirst : SigsV4 first.sigs) (hdups : ∀ d ∈ dups, SigsV4 d.sigs) {o : SignedPacket}
    (ho : o ∈ first :: dups) {s : Packet} (hs : s ∈ o.sigs) (hi : issuer g s ≠ 0) :
    ∃ r ∈ (mergeOccurrences g first dups).sigs, r = s ∨ Supersedes g r s := by
  induction dups generalizing first o s with
  | nil =>
    obtain rfl := List.mem_singleton.mp ho
    exact ⟨s, hs, .inl rfl⟩
  | cons dup dups ih =>
    obtain ⟨hdup, hdups⟩ := List.forall_mem_cons.mp hdups
    have hmerged : SigsV4 (mergePacketSigs g first dup).1.sigs := fun x hx =>
      List.forall_mem_append.mpr ⟨hfirst, hdup⟩ x (mergePacketSigs_sigs_subset first dup hx)
    show ∃ r ∈ (mergeOccurrences g (mergePacketSigs g first dup).1 dups).sigs, _
    have hboth : ∀ x ∈ first.sigs ++ dup.sigs, issuer g x ≠ 0 →
        ∃ r ∈ (mergeOccurrences g (mergePacketSigs g first dup).1 dups).sigs,
          r = x ∨ Supersedes g r x := by
      intro x hx hix
      obtain ⟨r, hr, hrx⟩ := mergePacketSigs_keeps hfirst hdup hx hix
      have hir : issuer g r ≠ 0 := by
        rcases hrx with rfl | hrx
        · exact hix
        · exact hrx.keyid ▸ hix
      obtain ⟨r', hr', hrr'⟩ := ih hmerged hdups List.mem_cons_self hr hir
      refine ⟨r', hr', ?_⟩
      rcases hrr' with rfl | hrr'
      · exact hrx
      · rcases hrx with rfl | hrx
        · exact .inr hrr'
        · exact .inr (hrr'.trans hrx)
    rcases List.mem_cons.mp ho with rfl | ho
    · exact hboth s (List.mem_append_left _ hs) hi
    rcases List.mem_cons.mp ho with rfl | ho
    · exact hboth s (List.mem_append_right _ hs) hi
    · exact ih hmerged hdups (List.mem_cons_of_mem _ ho) hs hi

/-! ## The list -/

theorem exists_mem_firstOccurrences {l : List Packet} {p : Packet} (h : p ∈ l) :
    ∃ q ∈ firstOccurrences l, q.Same p := by
  induction l with
  | nil => exact absurd h List.not_mem_nil
  | cons q l ih =>
    by_cases hq : q.Same p
    · exact ⟨q, List.mem_cons_self, hq⟩
    · rcases List.mem_cons.mp h with rfl | h
      · exact absurd (Packet.Same.refl p) hq
      · obtain ⟨r, hr, hrp⟩ := ih h
        refine ⟨r, List.mem_cons_of_mem q (List.mem_filter.mpr ⟨hr, ?_⟩), hrp⟩
        simpa using fun hrq : r.Same q => hq (hrq.symm.trans hrp)

/-- What is left of a packet is its occurrences merged. -/
theorem exists_mem_dedupSigned {l : List SignedPacket} {sp : SignedPacket} (h : sp ∈ l) :
    ∃ first dups, occurrences l sp.packet = first :: dups ∧
      ∀ Q : List Packet → Prop,
        (∃ m ∈ (dedupSigned g l).1, m.packet.Same sp.packet ∧ Q m.sigs) ↔
          Q (mergeOccurrences g first dups).sigs := by
  obtain ⟨q, hq, hqs⟩ := exists_mem_firstOccurrences (List.mem_map_of_mem (f := SignedPacket.packet) h)
  rw [← packets_dedupLoop (g := g) (le_refl l.length)] at hq
  obtain ⟨m, hm, rfl⟩ := List.mem_map.mp hq
  obtain ⟨first, dups, hocc, hmerged⟩ := exists_occurrences g hm
  refine ⟨first, dups, ?_, fun Q => ⟨?_, fun hQ => ⟨m, hm, hqs, hmerged ▸ hQ⟩⟩⟩
  · rw [← hocc]
    refine List.filter_congr fun x _ => ?_
    exact decide_eq_decide.mpr ⟨fun hx => hx.trans hqs.symm, fun hx => hx.trans hqs⟩
  · rintro ⟨m', hm', hsame, hQ⟩
    have heq : m' = m :=
      (noRepeats_dedupLoop l.length l).unique hm' hm (hsame.trans hqs.symm)
    rwa [← hmerged, ← heq]

/-- Every signature without an issuer is on the first occurrence of its packet that has one with its
type and creation time. -/
def IssuerlessFirst (g : Stale) (l : List SignedPacket) : Prop :=
  ∀ sp ∈ l, ∀ s ∈ sp.sigs, issuer g s = 0 →
    ∃ o, l.find? (fun o => decide (o.packet.Same sp.packet) && passesOn g s o) = some o ∧
      OnList o.sigs s

theorem sigsKept_dedupSigned_iff {l : List SignedPacket} (hl : AllV4 l) :
    SigsKept g l (dedupSigned g l).1 ↔ IssuerlessFirst g l := by
  unfold SigsKept IssuerlessFirst
  refine forall₂_congr fun sp hsp => forall₂_congr fun s hs => ?_
  obtain ⟨first, dups, hocc, hiff⟩ := exists_mem_dedupSigned (g := g) hsp
  rw [hiff fun sigs => ∃ r ∈ sigs, r.Same s ∨ Supersedes g r s]
  have hmem : ∀ o ∈ first :: dups, o ∈ l := by
    intro o ho
    rw [← hocc] at ho
    exact (List.mem_filter.mp ho).1
  by_cases hi : issuer g s = 0
  · have hfind : l.find? (fun o => decide (o.packet.Same sp.packet) && passesOn g s o) =
        (first :: dups).find? (passesOn g s) := by
      rw [← hocc, occurrences, List.find?_filter]
      simp only [decide_eq_true_eq, Bool.decide_and, Bool.decide_eq_true]
    rw [hfind]
    constructor
    · rintro ⟨r, hr, hrs | hrs⟩ -
      · have hir : issuer g r = 0 := (issuer_congr hrs.2).trans hi
        obtain ⟨o, ho, hro⟩ := (mem_mergeOccurrences_of_issuer_zero hir).mp hr
        rw [passesOn_congr hrs] at ho
        exact ⟨o, ho, r, hro, hrs⟩
      · exact absurd hi hrs.keyid_ne
    · intro h
      obtain ⟨o, ho, r, hro, hrs⟩ := h hi
      have hir : issuer g r = 0 := (issuer_congr hrs.2).trans hi
      rw [← passesOn_congr hrs] at ho
      exact ⟨r, (mem_mergeOccurrences_of_issuer_zero hir).mpr ⟨o, ho, hro⟩, .inl hrs⟩
  · refine iff_of_true ?_ fun h => absurd h hi
    have hspocc : sp ∈ first :: dups := by
      rw [← hocc]
      exact List.mem_filter.mpr ⟨hsp, by simpa using Packet.Same.refl sp.packet⟩
    obtain ⟨r, hr, hrs⟩ := mergeOccurrences_keeps (fun x hx => hl first (hmem _ List.mem_cons_self) x hx)
      (fun d hd x hx => hl d (hmem d (List.mem_cons_of_mem _ hd)) x hx) hspocc hs hi
    refine ⟨r, hr, ?_⟩
    rcases hrs with rfl | hrs
    · exact .inl (Packet.Same.refl r)
    · exact .inr hrs

/-- The list `l'` is `l` with the occurrences of each packet merged into the first, and `n` is the
number of packets that went away. -/
structure MergedExactly (g : Stale) (l l' : List SignedPacket) (n : Nat) : Prop where
  packets : l'.map SignedPacket.packet = firstOccurrences (l.map SignedPacket.packet)
  count : n + l'.length = l.length
  sigs : SigsKept g l l'

theorem mergedExactly_dedupSigned_iff {l : List SignedPacket} (hl : AllV4 l) :
    MergedExactly g l (dedupSigned g l).1 (dedupSigned g l).2 ↔ IssuerlessFirst g l := by
  rw [← sigsKept_dedupSigned_iff hl]
  refine ⟨MergedExactly.sigs, fun h => ⟨packets_dedupLoop le_rfl, ?_, h⟩⟩
  rw [Nat.add_comm]
  exact length_dedupLoop le_rfl

/-- **Merging repeated user ids and subkeys.** With version 4 signatures, `dedupuids` and
`dedupsubkeys` are exact if and only if no signature without an issuer comes behind an occurrence of
its packet that has another one with its type and time. -/
theorem dedup_mergedExactly_iff (g : Stale) (key : PublicKey) (hu : AllV4 key.uids)
    (hs : AllV4 key.subkeys) :
    (MergedExactly g key.uids (dedupuids g key).1.uids (dedupuids g key).2 ↔
        IssuerlessFirst g key.uids) ∧
      (MergedExactly g key.subkeys (dedupsubkeys g key).1.subkeys (dedupsubkeys g key).2 ↔
        IssuerlessFirst g key.subkeys) :=
  ⟨mergedExactly_dedupSigned_iff hu, mergedExactly_dedupSigned_iff hs⟩

/-- Three occurrences of a user id, with signatures by one issuer. -/
theorem dedup_mergedExactly_iff_sample :
    MergedExactly zeroStale
      [⟨sampleUid 65, [sampleSig 4 0x10 1]⟩, ⟨sampleUid 65, [sampleSig 4 0x10 3]⟩,
        ⟨sampleUid 65, [sampleSig 4 0x10 2]⟩] [⟨sampleUid 65, [sampleSig 4 0x10 3]⟩] 2 := by
  refine (dedup_mergedExactly_iff zeroStale (sampleKey
    [⟨sampleUid 65, [sampleSig 4 0x10 1]⟩, ⟨sampleUid 65, [sampleSig 4 0x10 3]⟩,
      ⟨sampleUid 65, [sampleSig 4 0x10 2]⟩] []) (by decide) (by decide)).1.mpr ?_
  have hissued : ∀ sp ∈ ([⟨sampleUid 65, [sampleSig 4 0x10 1]⟩, ⟨sampleUid 65, [sampleSig 4 0x10 3]⟩,
      ⟨sampleUid 65, [sampleSig 4 0x10 2]⟩] : List SignedPacket), ∀ s ∈ sp.sigs,
      issuer zeroStale s ≠ 0 := by
    decide
  intro sp hsp s hs hi
  exact absurd hi (hissued sp hsp s hs)

/-- `sig_info` leaves an issuer and a creation time that do not depend on what the variables held
before. -/
def Settled (s : Packet) : Prop :=
  ∃ keyid creation, ∀ k c, ∃ rc, sigInfo s (some k) (some c) = some ⟨rc, some keyid, some creation⟩

/-- A version 4 certification without an issuer. -/
def sampleIssuerless (time last : UInt8) : Packet :=
  ⟨tagSignature, false, [4, 0x10, 1, 8, 0, 6, 5, 2, 0, 0, 0, time, 0, 0, 0xAB, last, 0, 1, 1]⟩

theorem settled_sampleIssuerless (time last : UInt8) : Settled (sampleIssuerless time last) :=
  ⟨0, beNat [0, 0, 0, time], fun _ _ => ⟨.ok, rfl⟩⟩

/-- Of two signatures without an issuer, of one type and time, on two occurrences of a user id, the
second is lost. -/
theorem dedupuids_loses_issuerless :
    ¬ ∀ (g : Stale) (key : PublicKey), AllV4 key.uids → AllV4 key.subkeys →
      (∀ sp ∈ key.uids ++ key.subkeys, ∀ s ∈ sp.sigs, Settled s) →
      MergedExactly g key.uids (dedupuids g key).1.uids (dedupuids g key).2 ∧
        MergedExactly g key.subkeys (dedupsubkeys g key).1.subkeys (dedupsubkeys g key).2 := by
  intro hall
  have hexact := hall zeroStale (sampleKey [⟨sampleUid 65, [sampleIssuerless 1 0xCD]⟩,
    ⟨sampleUid 65, [sampleIssuerless 1 0xEF]⟩] []) (by decide) (by decide) ?_
  · exact absurd hexact.1.sigs (by decide)
  · intro sp hsp s hs
    rcases List.mem_cons.mp hsp with rfl | hsp
    · obtain rfl := List.mem_singleton.mp hs
      exact settled_sampleIssuerless 1 0xCD
    · obtain rfl := List.mem_singleton.mp hsp
      obtain rfl := List.mem_singleton.mp hs
      exact settled_sampleIssuerless 1 0xEF

end Onak
