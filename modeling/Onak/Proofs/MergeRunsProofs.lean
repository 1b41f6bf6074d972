import Onak.Proofs.MergeAlgebraProofs
import Onak.Proofs.MergeReadsProofs

/-!
# Proofs: runs of merges

The laws of `Onak.Proofs.MergeAlgebraProofs` hold for runs that read nothing undefined. For each of them,
this module says for which keys the runs do: the difference reproduces the merge (`mergeKeys_diff_iff`),
merging a key a second time changes nothing (`mergeKeys_again_iff`), and two uploads can be merged in
either order (`mergeKeys_comm_iff`).
-/

namespace Onak

variable {H : Hashes} {R : SigReading} {g : Stale}

/-- Every signature list on `l` is a fixed point of `dedupe_sigs`. -/
def DedupedIn (R : SigReading) (l : List SignedPacket) : Prop :=
  ∀ sp ∈ l, dedupeSigsIn R sp.sigs = some sp.sigs

instance (R : SigReading) (l : List SignedPacket) : Decidable (DedupedIn R l) :=
  inferInstanceAs (Decidable (∀ sp ∈ l, _))

/-- Every user id and subkey signature list of the key is a fixed point of `dedupe_sigs`. -/
def PublicKey.DedupedIn (R : SigReading) (k : PublicKey) : Prop :=
  Onak.DedupedIn R k.uids ∧ Onak.DedupedIn R k.subkeys

instance (R : SigReading) (k : PublicKey) : Decidable (k.DedupedIn R) :=
  inferInstanceAs (Decidable (_ ∧ _))

theorem DedupedIn.deduped (hR : R.Of g) {l : List SignedPacket} (h : DedupedIn R l) : Deduped g l :=
  fun sp hsp => ((dedupeSigsIn_eq_some_iff hR).mp (h sp hsp)).2.symm

theorem PublicKey.DedupedIn.deduped (hR : R.Of g) {k : PublicKey} (h : k.DedupedIn R) : k.Deduped g :=
  ⟨h.1.deduped hR, h.2.deduped hR⟩

/-! ## What has to be inside, packet by packet -/

/-- On lists without repeats, each packet is merged with its counterpart. -/
theorem leftRead_iff_of_noRepeats {old new : List SignedPacket} (ho : NoRepeats old) :
    LeftRead R g old new ↔
      ∀ o ∈ old, ∀ n ∈ new, n.packet.Same o.packet → SigsRead R g o.sigs n.sigs := by
  have hfirst : ∀ {l₁ o l₂}, old = l₁ ++ o :: l₂ → ∀ n : SignedPacket, n.packet.Same o.packet →
      diffEntry g l₁ n = some n := by
    intro l₁ o l₂ hsplit n hsame
    refine diffEntry_of_not_on fun ⟨x, hx, hxn⟩ => ?_
    rw [hsplit] at ho
    exact (List.pairwise_append.mp ho).2.2 x hx o List.mem_cons_self (hxn.trans hsame)
  constructor
  · intro h o hmem n hn hsame
    obtain ⟨l₁, l₂, hsplit⟩ := List.append_of_mem hmem
    exact h l₁ o l₂ hsplit n hn hsame n (hfirst hsplit n hsame)
  · intro h l₁ o l₂ hsplit n hn hsame d hd
    rw [hfirst hsplit n hsame] at hd
    rw [← Option.some.inj hd]
    exact h o (by rw [hsplit]; simp) n hn hsame

theorem signedRead_iff {old new : List SignedPacket} (ho : NoRepeats old) :
    SignedRead R g old new ↔ PairsRead old new ∧
      (new.Pairwise fun n n' => ¬ HugePair n.packet n'.packet) ∧
      ∀ o ∈ old, ∀ n ∈ new, n.packet.Same o.packet → SigsRead R g o.sigs n.sigs := by
  rw [← leftRead_iff_of_noRepeats ho]
  exact ⟨fun h => ⟨h.pairs, h.news, leftRead_iff.mpr h.sigs⟩,
    fun ⟨hpairs, hnews, hsigs⟩ => ⟨hpairs, hnews, leftRead_iff.mp hsigs⟩⟩

/-! ## Merging the difference -/

theorem SigsRead.diff {old new : List Packet} (h : SigsRead R g old new) :
    SigsRead R g old (newSigs g old new) := by
  refine ⟨fun s hs => h.found s (mem_newSigs.mp hs).1, ?_⟩
  rw [pool, newSigs_newSigs]
  exact h.judged

theorem SignedRead.diff {old new : List SignedPacket} (ho : NoRepeats old) (hn : NoRepeats new)
    (h : SignedRead R g old new) : SignedRead R g old (mergeSignedPackets g old new).2 := by
  rw [mergeSignedPackets_snd old hn]
  obtain ⟨hpairs, hnews, hsigs⟩ := (signedRead_iff ho).mp h
  refine (signedRead_iff ho).mpr ⟨fun o hmem d hd => ?_, ?_, fun o hmem d hd hsame => ?_⟩
  · obtain ⟨n, hn, hnd⟩ := List.mem_filterMap.mp hd
    rw [diffEntry_packet hnd]
    exact hpairs o hmem n hn
  · rw [List.pairwise_filterMap]
    refine hnews.imp fun {n n'} h d hd d' hd' => ?_
    rw [diffEntry_packet hd, diffEntry_packet hd']
    exact h
  · obtain ⟨n, hn, hnd⟩ := List.mem_filterMap.mp hd
    rw [diffEntry_packet hnd] at hsame
    rw [diffEntry_of_mem ho hmem hsame.symm] at hnd
    split_ifs at hnd
    rw [← Option.some.inj hnd]
    exact (hsigs o hmem n hn hsame).diff

theorem KeysRead.diff {a b : PublicKey} (hk : SameKeyid H a b) (ha : a.NoRepeats) (hb : b.NoRepeats)
    (h : KeysRead R g a b) : KeysRead R g a (mergeKeys H g a b).b := by
  rw [mergeKeys_eq hk]
  exact ⟨fun s hs t ht => h.sigs s hs t (List.mem_filter.mp ht).1, h.uids.diff ha.1 hb.1,
    h.subkeys.diff ha.2 hb.2⟩

theorem noRepeats_diff {a b : PublicKey} (hk : SameKeyid H a b) (hb : b.NoRepeats) :
    (mergeKeys H g a b).b.NoRepeats := by
  rw [mergeKeys_eq hk]
  refine ⟨?_, ?_⟩
  · show NoRepeats (mergeSignedPackets g a.uids b.uids).2
    rw [mergeSignedPackets_snd _ hb.1]
    exact hb.1.diff a.uids
  · show NoRepeats (mergeSignedPackets g a.subkeys b.subkeys).2
    rw [mergeSignedPackets_snd _ hb.2]
    exact hb.2.diff a.subkeys

/-- Merging `b` into `a`, and merging the difference of the two into `a`, give the same key. -/
def Reproduces (H : Hashes) (R : SigReading) (a b : PublicKey) : Prop :=
  ∃ r r', mergeKeysIn H R a b = some r ∧ mergeKeysIn H R a r.b = some r' ∧ r'.a = r.a

/-- **When the difference reproduces the merge**: whenever the two keys can be merged. -/
theorem mergeKeys_diff_iff {a b : PublicKey} (hk : SameKeyid H a b) (ha : a.NoRepeats)
    (hb : b.NoRepeats) (hd : a.DedupedIn g.reading) :
    Reproduces H g.reading a b ↔ KeysRead g.reading g a b := by
  have hR := g.reading_of
  have hk' : SameKeyid H a (mergeKeys H g a b).b := sameKeyid_congr hk rfl (mergeKeys_b_publickey a b)
  constructor
  · rintro ⟨r, r', hr, -, -⟩
    exact ((mergeKeysIn_eq_some_iff hR hk hb).mp hr).1
  · intro h
    refine ⟨mergeKeys H g a b, mergeKeys H g a (mergeKeys H g a b).b,
      (mergeKeysIn_eq_some_iff hR hk hb).mpr ⟨h, rfl⟩, ?_, mergeKeys_diff hk ha hb (hd.deduped hR)⟩
    exact (mergeKeysIn_eq_some_iff hR hk' (noRepeats_diff hk hb)).mpr ⟨h.diff hk ha hb, rfl⟩

theorem mergeKeys_diff_iff_sample :
    Reproduces sampleHashes zeroStale.reading (sampleKey [⟨sampleUid 65, [sampleSig 4 0x10 1]⟩] [])
      (sampleKey [⟨sampleUid 65, [sampleSig 4 0x10 2]⟩, ⟨sampleUid 66, []⟩] []) :=
  (mergeKeys_diff_iff (by decide) (by decide) (by decide) (by decide)).mpr
    (keysRead_of_isSome (H := sampleHashes) zeroStale.reading_of (by decide) (by decide) (by decide))

/-- A signature of one octet. -/
def shortSig : Packet := ⟨tagSignature, false, [4]⟩

/-- The signature of one octet is on both keys: `compare_signatures` reads behind it. -/
theorem mergeKeys_diff_reads_behind :
    SameKeyid sampleHashes (sampleKey [⟨sampleUid 65, [shortSig]⟩] [])
        (sampleKey [⟨sampleUid 65, [shortSig]⟩] []) ∧
      (sampleKey [⟨sampleUid 65, [shortSig]⟩] []).NoRepeats ∧
      (sampleKey [⟨sampleUid 65, [shortSig]⟩] []).DedupedIn zeroStale.reading ∧
      ¬ Reproduces sampleHashes zeroStale.reading (sampleKey [⟨sampleUid 65, [shortSig]⟩] [])
        (sampleKey [⟨sampleUid 65, [shortSig]⟩] []) := by
  refine ⟨by decide, by decide, by decide, ?_⟩
  rintro ⟨r, -, hr, -⟩
  exact absurd (Option.isSome_of_eq_some hr) (by decide)

/-! ## Merging a second time -/

/-- A version 4 signature whose octets determine the issuer and the creation time. -/
structure Told (s : Packet) : Prop where
  tag : s.tag = tagSignature
  version : s.data[0]? = some 4
  keyid : (setBySigInfo.keyid s).isSome
  creation : (setBySigInfo.creation s).isSome

instance (s : Packet) : Decidable (Told s) :=
  decidable_of_iff (s.tag = tagSignature ∧ s.data[0]? = some 4 ∧ (setBySigInfo.keyid s).isSome ∧
      (setBySigInfo.creation s).isSome)
    ⟨fun ⟨h1, h2, h3, h4⟩ => ⟨h1, h2, h3, h4⟩, fun ⟨h1, h2, h3, h4⟩ => ⟨h1, h2, h3, h4⟩⟩

/-- All signatures of the list are told. -/
def AllTold (l : List SignedPacket) : Prop := ∀ sp ∈ l, ∀ s ∈ sp.sigs, Told s

instance (l : List SignedPacket) : Decidable (AllTold l) :=
  inferInstanceAs (Decidable (∀ sp ∈ l, ∀ s ∈ sp.sigs, _))

/-- No direct signature, user id or subkey of the key is huge. -/
structure NoneHuge (k : PublicKey) : Prop where
  sigs : ∀ s ∈ k.sigs, ¬ s.Huge
  uids : ∀ sp ∈ k.uids, ¬ sp.packet.Huge
  subkeys : ∀ sp ∈ k.subkeys, ¬ sp.packet.Huge

namespace Told

variable {s t : Packet} (hs : Told s) (ht : Told t)
include hs

theorem type : ∃ type, s.data[1]? = some type := by
  refine getElem?_of_lt ?_
  by_contra hshort
  obtain ⟨k, hk⟩ := Option.isSome_iff_exists.mp hs.keyid
  obtain ⟨r, hr, -⟩ := Option.bind_eq_some_iff.mp hk
  have hnone := @parseSubpackets_wrapped s (show s.data.length < 4 by omega) (some 0) none
  rw [sigInfo, hs.version] at hr
  simp [hnone] at hr

include ht

theorem compared : (compareSignaturesIn setBySigInfo s t).isSome = true := by
  obtain ⟨type, htype⟩ := hs.type
  obtain ⟨type', htype'⟩ := ht.type
  obtain ⟨k, hk⟩ := Option.isSome_iff_exists.mp hs.keyid
  obtain ⟨k', hk'⟩ := Option.isSome_iff_exists.mp ht.keyid
  obtain ⟨c, hc⟩ := Option.isSome_iff_exists.mp hs.creation
  obtain ⟨c', hc'⟩ := Option.isSome_iff_exists.mp ht.creation
  unfold compareSignaturesIn
  simp only [hs.version, ht.version, htype, htype', hk, hk', hc, hc', Option.bind_eq_bind,
    Option.bind_some, ne_eq, not_true_eq_false, if_false, if_true]
  split_ifs <;> rfl

theorem judged : (judgeSigsIn setBySigInfo s t).isSome = true := by
  rw [Option.isSome_iff_ne_none, ne_eq, judgeSigsIn_eq_none_iff (setBySigInfo_of zeroStale)]
  rintro ⟨-, h | h | ⟨-, -, h | h | ⟨-, -, -, h | h⟩⟩⟩
  · exact absurd (hs.version.symm.trans h) (by simp)
  · exact absurd (ht.version.symm.trans h) (by simp)
  · exact absurd hs.keyid (by rw [h]; simp)
  · exact absurd ht.keyid (by rw [h]; simp)
  · exact absurd hs.creation (by rw [h]; simp)
  · exact absurd ht.creation (by rw [h]; simp)

end Told

theorem sigsRead_of_told {old new : List Packet} (ho : ∀ s ∈ old, Told s) (hn : ∀ s ∈ new, Told s) :
    SigsRead setBySigInfo g old new := by
  have hpool : ∀ s ∈ pool g old new, Told s := fun s hs => by
    rcases List.mem_append.mp hs with hs | hs
    · exact ho s hs
    · exact hn s (mem_newSigs.mp hs).1
  refine ⟨fun s hs => searchReads_of_forall fun x hx => (ho x hx).compared (hn s hs), ?_⟩
  exact List.pairwise_of_forall_mem_list fun x hx y hy => (hpool x hx).judged (hpool y hy)

section

variable {old new : List SignedPacket} (ho : NoRepeats old) (hn : NoRepeats new)
include ho

theorem signedRead_of_told (hto : AllTold old) (htn : AllTold new)
    (hhuge : ∀ sp ∈ new, ¬ sp.packet.Huge) : SignedRead setBySigInfo g old new := by
  refine (signedRead_iff ho).mpr ⟨fun o _ n hn hpair => hhuge n hn hpair.2.1, ?_, ?_⟩
  · exact List.pairwise_of_forall_mem_list fun x _ y hy => not_hugePair_of_not_huge (hhuge y hy)
  · exact fun o hmem n hn _ => sigsRead_of_told (hto o hmem) (htn n hn)

include hn

theorem allTold_merge (hto : AllTold old) (htn : AllTold new) :
    AllTold (mergeSignedPackets g old new).1 := by
  intro m hm
  rcases merged_cases ho hn hm with ⟨hmo, -⟩ | ⟨o, hom, n, hnm, -, rfl⟩ | ⟨hmn, -⟩
  · exact hto m hmo
  · intro s hs
    rcases mem_dedupeSigs_append hs with hs | hs
    · exact hto o hom s hs
    · exact htn n hnm s (mem_newSigs.mp hs).1
  · exact htn m hmn

end

/-- What is on the merged list is compared with itself when it is merged again. -/
theorem not_huge_of_merged {old new : List SignedPacket}
    (h : PairsRead (mergeSignedPackets g old new).1 new) : ∀ sp ∈ new, ¬ sp.packet.Huge := by
  intro n hn
  obtain ⟨m, hm, hsame⟩ := onAll_merge_new (g := g) old new n hn
  exact not_huge_of_same hsame fun hpair => h m hm n hn hpair.symm

theorem AllTold.allV4 {l : List SignedPacket} (h : AllTold l) : AllV4 l :=
  fun sp hsp s hs => ⟨(h sp hsp s hs).tag, (h sp hsp s hs).version⟩

theorem allTold_append {l l' : List SignedPacket} : AllTold (l ++ l') ↔ AllTold l ∧ AllTold l' :=
  List.forall_mem_append

/-- Merging `b` into `a` a second time leaves `a` as the first time has left it. -/
def Settles (H : Hashes) (R : SigReading) (a b : PublicKey) : Prop :=
  ∃ r r', mergeKeysIn H R a b = some r ∧ mergeKeysIn H R r.a b = some r' ∧ r'.a = r.a

theorem noneHuge_of_settles {a b : PublicKey} (hk : SameKeyid H a b) (hb : b.NoRepeats)
    (h : Settles H setBySigInfo a b) : NoneHuge b := by
  have hR := setBySigInfo_of zeroStale
  have hk' : SameKeyid H (mergeKeys H zeroStale a b).a b :=
    sameKeyid_congr hk (mergeKeys_a_publickey a b) rfl
  obtain ⟨r, r', hr, hr', -⟩ := h
  obtain ⟨-, rfl⟩ := (mergeKeysIn_eq_some_iff hR hk hb).mp hr
  obtain ⟨hread, -⟩ := (mergeKeysIn_eq_some_iff hR hk' hb).mp hr'
  rw [mergeKeys_eq hk] at hread
  refine ⟨fun t ht => ?_, not_huge_of_merged hread.uids.pairs, not_huge_of_merged hread.subkeys.pairs⟩
  obtain ⟨x, hx, hsame⟩ := onList_merge_sigs (a := a.sigs) (List.mem_append_right a.sigs ht)
  exact not_huge_of_same hsame (hread.sigs x hx t ht)

section

variable {a b : PublicKey} (ha : a.NoRepeats)
  (hta : AllTold (a.uids ++ a.subkeys)) (htb : AllTold (b.uids ++ b.subkeys))
include ha hta htb

theorem keysRead_of_told (hhuge : NoneHuge b) : KeysRead setBySigInfo g a b := by
  rw [allTold_append] at hta htb
  exact ⟨fun _ _ t ht => not_hugePair_of_not_huge (hhuge.sigs t ht),
    signedRead_of_told ha.1 hta.1 htb.1 hhuge.uids, signedRead_of_told ha.2 hta.2 htb.2 hhuge.subkeys⟩

/-- **When uploading again changes nothing**: for version 4 signatures, unless a packet of the upload is
huge. -/
theorem mergeKeys_again_iff (hk : SameKeyid H a b) (hb : b.NoRepeats) (hd : b.DedupedIn setBySigInfo) :
    Settles H setBySigInfo a b ↔ NoneHuge b := by
  have hR := setBySigInfo_of zeroStale
  have hk' : SameKeyid H (mergeKeys H zeroStale a b).a b :=
    sameKeyid_congr hk (mergeKeys_a_publickey a b) rfl
  constructor
  · exact noneHuge_of_settles hk hb
  · intro hhuge
    have hread : KeysRead setBySigInfo zeroStale (mergeKeys H zeroStale a b).a b := by
      refine keysRead_of_told ?_ ?_ htb hhuge
      · rw [mergeKeys_eq hk]
        exact ⟨noRepeats_merged ha.1 hb.1, noRepeats_merged ha.2 hb.2⟩
      · rw [mergeKeys_eq hk]
        rw [allTold_append] at hta htb ⊢
        exact ⟨allTold_merge ha.1 hb.1 hta.1 htb.1, allTold_merge ha.2 hb.2 hta.2 htb.2⟩
    refine ⟨mergeKeys H zeroStale a b, mergeKeys H zeroStale (mergeKeys H zeroStale a b).a b,
      (mergeKeysIn_eq_some_iff hR hk hb).mpr ⟨keysRead_of_told ha hta htb hhuge, rfl⟩,
      (mergeKeysIn_eq_some_iff hR hk' hb).mpr ⟨hread, rfl⟩, ?_⟩
    rw [allTold_append] at htb
    exact mergeKeys_again hk ha hb (hd.deduped hR) htb.1.allV4 htb.2.allV4

end

theorem mergeKeys_again_iff_sample :
    Settles sampleHashes setBySigInfo (sampleKey [⟨sampleUid 65, [sampleSig 4 0x10 2]⟩] [])
      (sampleKey [⟨sampleUid 65, [sampleSig 4 0x10 1]⟩, ⟨sampleUid 66, []⟩] []) :=
  (mergeKeys_again_iff (by decide) (by decide) (by decide) (by decide) (by decide) (by decide)).mpr
    ⟨by decide, by decide, by decide⟩

/-- A user id of 2³¹ octets. -/
def hugeUid : Packet := ⟨tagUid, false, List.replicate (2 ^ 31) 65⟩

theorem hugeUid_huge : hugeUid.Huge := by
  unfold Packet.Huge Packet.length hugeUid
  rw [List.length_replicate]

/-- The second merge compares the huge user id with itself. -/
theorem mergeKeys_again_huge :
    SameKeyid sampleHashes (sampleKey [] []) (sampleKey [⟨hugeUid, []⟩] []) ∧
      (sampleKey [⟨hugeUid, []⟩] []).NoRepeats ∧
      (sampleKey [⟨hugeUid, []⟩] []).DedupedIn setBySigInfo ∧
      AllTold ((sampleKey [⟨hugeUid, []⟩] []).uids ++ (sampleKey [⟨hugeUid, []⟩] []).subkeys) ∧
      ¬ Settles sampleHashes setBySigInfo (sampleKey [] []) (sampleKey [⟨hugeUid, []⟩] []) := by
  have hk : SameKeyid sampleHashes (sampleKey [] []) (sampleKey [⟨hugeUid, []⟩] []) := by decide
  have hb : (sampleKey [⟨hugeUid, []⟩] []).NoRepeats := ⟨List.pairwise_singleton _ _, List.Pairwise.nil⟩
  refine ⟨hk, hb, ⟨?_, ?_⟩, ?_, ?_⟩
  · exact List.forall_mem_singleton.mpr rfl
  · exact fun _ h => absurd h List.not_mem_nil
  · exact List.forall_mem_singleton.mpr fun _ h => absurd h List.not_mem_nil
  · exact fun h => (noneHuge_of_settles hk hb h).uids _ List.mem_cons_self hugeUid_huge

/-! ## Refused merges -/

/-- Where `get_packetid` reads nothing behind the packet, it does not matter what is there. -/
theorem getPacketidAt_of_inside {p : Packet} {r : Status × UInt64} (h : getPacketid H p = some r)
    (behind : List UInt8) : getPacketidAt H p behind = some r := by
  have hoctet : ∀ {i x}, p.data[i]? = some x → (p.data ++ behind)[i]? = some x := fun {i x} h =>
    getElem?_extends p.data behind i x h
  have hoctets : ∀ {i n o}, readOctets p.data i n = some o → readOctets (p.data ++ behind) i n = some o :=
    fun {i n o} h => readOctets_extends p.data behind i n o h
  obtain ⟨version, hversion, h⟩ := Option.bind_eq_some_iff.mp h
  unfold getPacketidAt
  simp only [hoctet hversion, Option.bind_eq_bind, Option.bind_some]
  by_cases hold : version = 2 ∨ version = 3
  · rw [if_pos hold] at h ⊢
    obtain ⟨algo, halgo, h⟩ := Option.bind_eq_some_iff.mp h
    rw [hoctet halgo, Option.bind_some]
    split_ifs at h ⊢ with hrsa
    · exact h
    · obtain ⟨bits, hbits, h⟩ := Option.bind_eq_some_iff.mp h
      obtain ⟨octets, hread, h⟩ := Option.bind_eq_some_iff.mp h
      rw [hoctets hbits, Option.bind_some, hoctets hread]
      exact h
  · rw [if_neg hold] at h ⊢
    by_cases hnew : version = 4 ∨ version = 5
    · rw [if_pos hnew] at h
      obtain ⟨fp, hfp, h⟩ := Option.bind_eq_some_iff.mp h
      rw [getFingerprint, hversion] at hfp
      simp only [Option.bind_eq_bind, Option.bind_some, if_neg hold] at hfp
      rcases hnew with rfl | rfl
      · rw [if_pos rfl] at hfp ⊢
        rw [← Option.some.inj hfp] at h
        exact h
      · rw [if_neg (by decide), if_pos rfl] at hfp ⊢
        rw [← Option.some.inj hfp] at h
        exact h
    · rw [if_neg hnew] at h
      rw [not_or] at hnew
      rw [if_neg hnew.1, if_neg hnew.2]
      exact h

theorem KeyNode.keyid_of_inside {k : KeyNode} {keyid : UInt64} (h : getKeyid H k.key = some keyid) :
    k.keyid H = some keyid := by
  rw [← keyidIn_eq_some_iff] at h
  obtain ⟨r, hr, hok⟩ := Option.map_eq_some_iff.mp h
  obtain ⟨status, keyid'⟩ := r
  split_ifs at hok with hstatus
  obtain rfl : status = .ok := hstatus
  obtain rfl : keyid' = keyid := Option.some.inj hok
  unfold KeyNode.keyid
  rw [getPacketidAt_of_inside hr]

/-- A merge that is refused leaves both keys alone. -/
def RefusalKeeps (H : Hashes) (R : SigReading) (a b : KeyNode) : Prop :=
  ∀ r, mergeKeysAt H R a b = some r → r.rc ≠ 0 → r.a = a.key ∧ r.b = b.key

/-- The keys have different key ids, and one of them is revoked. -/
def OthersRevoked (H : Hashes) (a b : KeyNode) : Prop :=
  ∃ keya keyb, a.keyid H = some keya ∧ b.keyid H = some keyb ∧ keya ≠ keyb ∧
    a.key.revoked ≠ b.key.revoked

/-- What a merge of keys with different key ids leaves. -/
theorem mergeKeysAt_of_ne {a b : KeyNode} {keya keyb : UInt64} (ha : a.keyid H = some keya)
    (hb : b.keyid H = some keyb) (hne : keya ≠ keyb) :
    mergeKeysAt H R a b = some ⟨-1, { a.key with revoked := a.key.revoked || b.key.revoked },
      { b.key with revoked := a.key.revoked || b.key.revoked }⟩ := by
  unfold mergeKeysAt mergeKeysWith
  simp only [ha, hb, hne, Option.bind_eq_bind, Option.bind_some, ne_eq, not_false_eq_true, if_true]
  rfl

/-- A merge of keys with the same key id is not refused. -/
theorem rc_of_keyid_eq {a b : KeyNode} {keyid : UInt64} (ha : a.keyid H = some keyid)
    (hb : b.keyid H = some keyid) {r : MergeResult} (h : mergeKeysAt H R a b = some r) : r.rc = 0 := by
  unfold mergeKeysAt mergeKeysWith at h
  simp only [ha, hb, Option.bind_eq_bind, Option.bind_some, ne_eq, not_true_eq_false, if_false] at h
  obtain ⟨diff, -, h⟩ := Option.bind_eq_some_iff.mp h
  obtain ⟨uids, -, h⟩ := Option.bind_eq_some_iff.mp h
  obtain ⟨subkeys, -, h⟩ := Option.bind_eq_some_iff.mp h
  rw [← Option.some.inj h]

/-- **When a refused merge changes something.** It leaves both keys alone, unless their key ids
differ and one of them is revoked: then both are marked so. -/
theorem mergeKeys_refusal_iff (H : Hashes) (R : SigReading) (a b : KeyNode) :
    RefusalKeeps H R a b ↔ ¬ OthersRevoked H a b := by
  constructor
  · rintro h ⟨keya, keyb, ha, hb, hne, hrevoked⟩
    obtain ⟨hka, hkb⟩ := h _ (mergeKeysAt_of_ne ha hb hne) (Int.neg_ne_zero.mpr Int.one_ne_zero)
    have hra := congrArg PublicKey.revoked hka
    have hrb := congrArg PublicKey.revoked hkb
    exact hrevoked (hra.symm.trans hrb)
  · intro h r hr hrc
    cases ha : a.keyid H with
    | none =>
      unfold mergeKeysAt mergeKeysWith at hr
      rw [ha] at hr
      rw [← Option.some.inj hr]
      exact ⟨rfl, rfl⟩
    | some keya =>
      cases hb : b.keyid H with
      | none =>
        unfold mergeKeysAt mergeKeysWith at hr
        rw [ha, hb] at hr
        rw [← Option.some.inj hr]
        exact ⟨rfl, rfl⟩
      | some keyb =>
        by_cases hid : keya = keyb
        · exact absurd (rc_of_keyid_eq ha (hid ▸ hb) hr) hrc
        · have hsame : a.key.revoked = b.key.revoked := by
            by_contra hrevoked
            exact h ⟨keya, keyb, ha, hb, hid, hrevoked⟩
          rw [mergeKeysAt_of_ne ha hb hid] at hr
          rw [← Option.some.inj hr, hsame, Bool.or_self]
          exact ⟨by rw [← hsame], rfl⟩

/-- The key in memory, with zeros behind its packet. -/
def nodeOf (k : PublicKey) : KeyNode := ⟨k, List.replicate 0x2010 0, List.length_replicate.ge⟩

/-- A key that is not revoked is marked as revoked by the refused merge with another one. -/
theorem mergeKeys_refusal_revokes :
    ¬ ∀ (H : Hashes) (R : SigReading) (a b : KeyNode), RefusalKeeps H R a b := by
  intro hall
  have hkeeps := hall sampleHashes setBySigInfo (nodeOf (sampleKey [⟨sampleUid 65, []⟩] []))
    (nodeOf { sampleOtherKey [⟨sampleUid 66, []⟩] with revoked := true })
  have ha : (nodeOf (sampleKey [⟨sampleUid 65, []⟩] [])).keyid sampleHashes = some 0x0102030405060708 :=
    KeyNode.keyid_of_inside (by decide)
  have hb : (nodeOf { sampleOtherKey [⟨sampleUid 66, []⟩] with revoked := true }).keyid sampleHashes =
      some 0x0807060504030201 := KeyNode.keyid_of_inside (by decide)
  obtain ⟨hkept, -⟩ := hkeeps _ (mergeKeysAt_of_ne ha hb (by decide)) (Int.neg_ne_zero.mpr Int.one_ne_zero)
  exact absurd (congrArg PublicKey.revoked hkept) (by decide)

end Onak
