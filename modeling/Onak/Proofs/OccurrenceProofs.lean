import Onak.Lib.Leaders
import Onak.Proofs.CleanPassesProofs
import Onak.Proofs.SigReadsProofs

/-!
# Proofs: packets that occur more than once

`dedupuids` merges the occurrences of a packet one after another, and each merge deduplicates what was
merged by then. As long as `compare_signatures` tells the signatures of the occurrences apart, the
outcome is that of a single deduplication of all of them (`dedupeSigs_mergeOccurrences`), and which
signatures are left can be told on the key as it was uploaded.
-/

namespace Onak

open Collapse Places

variable {g : Stale}

/-! ## The signatures of all occurrences -/

/-- `compare_signatures` tells the signatures of different occurrences of a packet apart: it relies on
nothing that `sig_info` leaves unset, and equates only signatures of one type. -/
def ToldApart (occs : List SignedPacket) : Prop :=
  occs.Pairwise fun o o' => ∀ s ∈ o.sigs, ∀ t ∈ o'.sigs,
    compareSignaturesIn setBySigInfo s t = some false ∨
      compareSignaturesIn setBySigInfo s t = some true ∧ s.tag = t.tag ∧ sigTypeOctet s = sigTypeOctet t

instance (occs : List SignedPacket) : Decidable (ToldApart occs) :=
  inferInstanceAs (Decidable (occs.Pairwise _))

variable (g) in
/-- The signatures of the occurrences in order, less those that `compare_signatures` equates with one
of an earlier occurrence. -/
def gather (earlier : List Packet) : List SignedPacket → List Packet
  | [] => []
  | o :: occs =>
    (o.sigs.filter fun s => !earlier.any fun e => compareSignatures g e s) ++ gather (earlier ++ o.sigs) occs

theorem gather_single (o : SignedPacket) : gather g [] [o] = o.sigs := by
  simp [gather]

variable (g) in
/-- The two signatures are equated, and of one type. -/
def Alike (s t : Packet) : Prop :=
  compareSignatures g s t = true ∧ s.tag = t.tag ∧ sigTypeOctet s = sigTypeOctet t

theorem Alike.refl (s : Packet) : Alike g s s :=
  ⟨compareSignatures_of_same (Packet.Same.refl s), rfl, rfl⟩

/-- What outranks a signature outranks one like it. -/
theorem outranks_of_alike {r s t : Packet} (hm : signaturesMatchSigner g r s = true)
    (hn : ¬ innerWins g r s = true) (h : Alike g s t) :
    signaturesMatchSigner g r t = true ∧ ¬ innerWins g r t = true := by
  obtain ⟨⟨hr, hs⟩, hv, hty, hi, hii⟩ := signaturesMatchSigner_iff.mp hm
  obtain ⟨hcompare, htag, hoctet⟩ := h
  obtain ⟨hv', -, hcreated, hissuer⟩ := compareSignatures_iff.mp hcompare
  have hst : sigSigtype s = sigSigtype t :=
    sigSigtype_eq_of_type (g := g) hv' hoctet (hii ▸ hi) (hissuer ▸ hii ▸ hi)
  refine ⟨signaturesMatchSigner_iff.mpr ⟨⟨hr, htag ▸ hs⟩, hv.trans hv', hty.trans hst, hi,
    hii.trans hissuer⟩, ?_⟩
  rw [innerWins_iff] at hn ⊢
  rwa [← hcreated]

theorem Alike.revokes {s t : Packet} (h : Alike g s t) (ht : sigRevokesPacket t = true) :
    sigRevokesPacket s = true := by
  obtain ⟨hcompare, -, hoctet⟩ := h
  obtain ⟨hv, -⟩ := compareSignatures_iff.mp hcompare
  obtain ⟨hver, htype⟩ := sigRevokesPacket_iff.mp ht
  rw [sigRevokesPacket_iff, hv]
  refine ⟨hver, ?_⟩
  unfold sigTypeOctet at hoctet
  rw [hv] at hoctet
  rcases hver with h4 | h5
  · simpa [h4, htype] using hoctet
  · simpa [h5, htype] using hoctet

/-! ## One occurrence after another -/

variable (g) in
/-- Each of the signatures is on the list `l`, or one like it, or one that outranks it. -/
def Covers (l earlier : List Packet) : Prop :=
  ∀ e ∈ earlier, ∃ r ∈ l, Alike g r e ∨ signaturesMatchSigner g r e = true ∧ ¬ innerWins g r e = true

/-- What stands between two lists of signatures is told apart. -/
def ApartFrom (earlier : List Packet) (o : SignedPacket) : Prop :=
  ∀ e ∈ earlier, ∀ t ∈ o.sigs, compareSignaturesIn setBySigInfo e t = some false ∨
    compareSignaturesIn setBySigInfo e t = some true ∧ e.tag = t.tag ∧ sigTypeOctet e = sigTypeOctet t

theorem ApartFrom.alike {earlier : List Packet} {o : SignedPacket} (h : ApartFrom earlier o)
    {e t : Packet} (he : e ∈ earlier) (ht : t ∈ o.sigs) (hequated : compareSignatures g e t = true) :
    Alike g e t := by
  rcases h e he t ht with hno | ⟨-, hsame⟩
  · have hfalse := compareSignaturesIn_sound (setBySigInfo_of g) hno
    rw [hequated] at hfalse
    exact absurd hfalse (by simp)
  · exact ⟨hequated, hsame⟩

/-- Merging a further occurrence gives what deduplicating its new signatures with the others gives. -/
theorem dedupeSigs_mergePacketSigs {cur dup : SignedPacket} {earlier gathered : List Packet}
    (hcur : cur.sigs ⊆ earlier) (hcovers : Covers g cur.sigs earlier) (hapart : ApartFrom earlier dup)
    (hsame : dedupeSigs g cur.sigs = dedupeSigs g gathered) :
    dedupeSigs g (mergePacketSigs g cur dup).1.sigs =
      dedupeSigs g (gathered ++ dup.sigs.filter fun s => !earlier.any fun e => compareSignatures g e s) := by
  set fresh := dup.sigs.filter fun s => !earlier.any fun e => compareSignatures g e s with hfresh
  have hpart : (newSigs g cur.sigs dup.sigs).filter
      (fun s => !earlier.any fun e => compareSignatures g e s) = fresh := by
    rw [newSigs, List.filter_filter, hfresh]
    refine List.filter_congr fun s _ => ?_
    rw [Bool.and_eq_left_iff_imp]
    intro hnone
    rw [Bool.not_eq_true', List.any_eq_false] at hnone
    rw [Option.isNone_iff_eq_none, findSignature, List.find?_eq_none]
    exact fun r hr => hnone r (hcur hr)
  have hrest : ∀ t ∈ newSigs g cur.sigs dup.sigs,
      ¬ (!earlier.any fun e => compareSignatures g e t) = true →
        ∃ r ∈ cur.sigs, signaturesMatchSigner g r t = true ∧ ¬ innerWins g r t = true := by
    intro t ht hequated
    obtain ⟨htmem, hnone⟩ := List.mem_filter.mp ht
    rw [Bool.not_eq_true, Bool.not_eq_false', List.any_eq_true] at hequated
    obtain ⟨e, he, het⟩ := hequated
    have halike := hapart.alike he htmem het
    obtain ⟨r, hr, hre | ⟨hm, hn⟩⟩ := hcovers e he
    · rw [Option.isNone_iff_eq_none, findSignature, List.find?_eq_none] at hnone
      exact absurd (compareSignatures_trans hre.1 het) (hnone r hr)
    · exact ⟨r, hr, outranks_of_alike hm hn halike⟩
  have hidem : ∀ l : List Packet, dedupeSigs g (dedupeSigs g l) = dedupeSigs g l :=
    fun l => (collapse_eq_self_iff ranked).mpr (unmatched_collapse l)
  calc dedupeSigs g (mergePacketSigs g cur dup).1.sigs
    _ = dedupeSigs g (dedupeSigs g (cur.sigs ++ newSigs g cur.sigs dup.sigs)) := rfl
    _ = dedupeSigs g (cur.sigs ++ newSigs g cur.sigs dup.sigs) := hidem _
    _ = dedupeSigs g (cur.sigs ++ fresh) := by
      rw [← hpart]
      exact (collapse_append_filter ranked _ _ hrest).symm
    _ = dedupeSigs g (dedupeSigs g cur.sigs ++ fresh) := (collapse_collapse_append _ _).symm
    _ = dedupeSigs g (gathered ++ fresh) := by
      rw [hsame]
      exact collapse_collapse_append _ _

theorem Covers.mergePacketSigs {cur dup : SignedPacket} {earlier : List Packet}
    (hcur : cur.sigs ⊆ earlier) (hcovers : Covers g cur.sigs earlier) (hapart : ApartFrom earlier dup) :
    Covers g (mergePacketSigs g cur dup).1.sigs (earlier ++ dup.sigs) := by
  -- what is merged is on the list then, or outranked by something on it
  have hmerged : ∀ r ∈ cur.sigs ++ newSigs g cur.sigs dup.sigs,
      ∃ r' ∈ (Onak.mergePacketSigs g cur dup).1.sigs,
        r' = r ∨ signaturesMatchSigner g r' r = true ∧ ¬ innerWins g r' r = true := by
    intro r hr
    rcases collapse_covers ranked hr with hmem | ⟨r', hr', hm, hn⟩
    · exact ⟨r, hmem, .inl rfl⟩
    · exact ⟨r', hr', .inr ⟨ranked.symm hm, hn⟩⟩
  have hpass : ∀ {r e : Packet}, r ∈ cur.sigs ++ newSigs g cur.sigs dup.sigs →
      Alike g r e ∨ signaturesMatchSigner g r e = true ∧ ¬ innerWins g r e = true →
        ∃ r' ∈ (Onak.mergePacketSigs g cur dup).1.sigs,
          Alike g r' e ∨ signaturesMatchSigner g r' e = true ∧ ¬ innerWins g r' e = true := by
    intro r e hr hre
    obtain ⟨r', hr', rfl | ⟨hm, hn⟩⟩ := hmerged r hr
    · exact ⟨r', hr', hre⟩
    · rcases hre with halike | ⟨hm', hn'⟩
      · exact ⟨r', hr', .inr (outranks_of_alike hm hn halike)⟩
      · exact ⟨r', hr', .inr ⟨ranked.trans hm hm', ranked.not_newer_trans hm hm' hn hn'⟩⟩
  intro e he
  rcases List.mem_append.mp he with he | he
  · obtain ⟨r, hr, hre⟩ := hcovers e he
    exact hpass (List.mem_append_left _ hr) hre
  · cases hfind : findSignature g cur.sigs e with
    | none =>
      have hnew : e ∈ newSigs g cur.sigs dup.sigs := List.mem_filter.mpr ⟨he, by rw [hfind]; rfl⟩
      exact hpass (List.mem_append_right _ hnew) (.inl (Alike.refl e))
    | some r =>
      have hr := List.mem_of_find?_eq_some hfind
      have hre := List.find?_some hfind
      exact hpass (List.mem_append_left _ hr) (.inl (hapart.alike (hcur hr) he hre))

theorem dedupeSigs_mergeOccurrences_append {cur : SignedPacket} {dups : List SignedPacket}
    {earlier gathered : List Packet} (hcur : cur.sigs ⊆ earlier) (hcovers : Covers g cur.sigs earlier)
    (hapart : ∀ dup ∈ dups, ApartFrom earlier dup) (hdups : ToldApart dups)
    (hsame : dedupeSigs g cur.sigs = dedupeSigs g gathered) :
    dedupeSigs g (mergeOccurrences g cur dups).sigs = dedupeSigs g (gathered ++ gather g earlier dups) := by
  induction dups generalizing cur earlier gathered with
  | nil =>
    rw [gather, List.append_nil]
    exact hsame
  | cons dup dups ih =>
    rw [List.forall_mem_cons] at hapart
    obtain ⟨hdup, hdups⟩ := List.pairwise_cons.mp hdups
    have hsub : (mergePacketSigs g cur dup).1.sigs ⊆ earlier ++ dup.sigs := by
      intro s hs
      rcases List.mem_append.mp (mem_of_mem_collapse hs) with hs | hs
      · exact List.mem_append_left _ (hcur hs)
      · exact List.mem_append_right _ (List.mem_filter.mp hs).1
    have hnext : ∀ d ∈ dups, ApartFrom (earlier ++ dup.sigs) d := by
      intro d hd e he
      rcases List.mem_append.mp he with he | he
      · exact hapart.2 d hd e he
      · exact hdup d hd e he
    have hstep := ih hsub (hcovers.mergePacketSigs hcur hapart.1) hnext hdups
      (dedupeSigs_mergePacketSigs hcur hcovers hapart.1 hsame)
    rw [List.append_assoc] at hstep
    exact hstep

/-- **Merging one after another** comes to the same as deduplicating all signatures at once, where the
occurrences are told apart. -/
theorem dedupeSigs_mergeOccurrences {first : SignedPacket} {dups : List SignedPacket}
    (h : ToldApart (first :: dups)) :
    dedupeSigs g (mergeOccurrences g first dups).sigs = dedupeSigs g (gather g [] (first :: dups)) := by
  obtain ⟨hfirst, hdups⟩ := List.pairwise_cons.mp h
  have hall : (first.sigs.filter fun s => !([] : List Packet).any fun e => compareSignatures g e s) =
      first.sigs := by
    simp
  rw [gather, hall, List.nil_append]
  exact dedupeSigs_mergeOccurrences_append (List.Subset.refl _)
    (fun e he => ⟨e, he, .inl (Alike.refl e)⟩) hfirst hdups rfl

/-! ## Revocations among them -/

theorem any_revokes_gather {earlier : List Packet} {occs : List SignedPacket}
    (hapart : ∀ o ∈ occs, ApartFrom earlier o) (hoccs : ToldApart occs)
    (hno : earlier.any sigRevokesPacket = false) :
    (gather g earlier occs).any sigRevokesPacket = occs.any signedpacketIsRevoked := by
  induction occs generalizing earlier with
  | nil => rfl
  | cons o occs ih =>
    rw [List.forall_mem_cons] at hapart
    obtain ⟨ho, hoccs⟩ := List.pairwise_cons.mp hoccs
    have hhead : (o.sigs.filter fun s => !earlier.any fun e => compareSignatures g e s).any
        sigRevokesPacket = signedpacketIsRevoked o := by
      rw [Bool.eq_iff_iff, List.any_eq_true, signedpacketIsRevoked, List.any_eq_true]
      constructor
      · rintro ⟨s, hs, hrev⟩
        exact ⟨s, (List.mem_filter.mp hs).1, hrev⟩
      · rintro ⟨s, hs, hrev⟩
        refine ⟨s, List.mem_filter.mpr ⟨hs, ?_⟩, hrev⟩
        rw [Bool.not_eq_true', List.any_eq_false]
        intro e he hequated
        have hearlier := (hapart.1.alike he hs hequated).revokes hrev
        exact List.any_eq_false.mp hno e he hearlier
    rw [gather, List.any_append, List.any_cons, hhead]
    cases hrev : signedpacketIsRevoked o with
    | true => rfl
    | false =>
      rw [Bool.false_or, Bool.false_or]
      refine ih (fun d hd e he => ?_) hoccs ?_
      · rcases List.mem_append.mp he with he | he
        · exact hapart.2 d hd e he
        · exact ho d hd e he
      · rw [List.any_append, hno]
        exact hrev

/-- Where the occurrences are told apart, a revocation of any of them is gathered. -/
theorem any_revokes_gathered {occs : List SignedPacket} (h : ToldApart occs) :
    (gather g [] occs).any sigRevokesPacket = occs.any signedpacketIsRevoked :=
  any_revokes_gather (fun _ _ _ he => absurd he List.not_mem_nil) h rfl

end Onak
