import Onak.Proofs.MergeAddedProofs
import Onak.Proofs.SigReadsProofs

/-!
# Proofs: merging where nothing undefined is read

`mergeKeysIn_eq_some_iff`: where `merge_keys` has a result, it is that of `Onak.Merge`, and it has one if
and only if all comparisons on the way can be made, which is said on the two keys themselves.
-/

namespace Onak

variable {R : SigReading} {g : Stale}

theorem findSignatureIn_eq_some_iff (hR : R.Of g) {l : List Packet} {s : Packet} {r : Option Packet} :
    findSignatureIn R l s = some r ↔
      SearchReads (fun o => compareSignaturesIn R o s) l ∧ r = findSignature g l s :=
  findM?_eq_some_iff (compareSignaturesIn_sound hR)

theorem mergePacketSigsIn_eq_some_iff (hR : R.Of g) {o n : SignedPacket}
    {r : SignedPacket × SignedPacket} :
    mergePacketSigsIn R o n = some r ↔ SigsRead R g o.sigs n.sigs ∧ r = mergePacketSigs g o n := by
  unfold mergePacketSigsIn
  rw [Option.bind_eq_bind, Option.bind_eq_some_iff]
  constructor
  · rintro ⟨diff, hdiff, h⟩
    obtain ⟨hfound, rfl⟩ := (missingIn_eq_some_iff (findSignatureIn_eq_some_iff hR)).mp hdiff
    obtain ⟨sigs, hsigs, h⟩ := Option.bind_eq_some_iff.mp h
    obtain ⟨hjudged, rfl⟩ := (dedupeSigsIn_eq_some_iff hR).mp hsigs
    exact ⟨⟨hfound, hjudged⟩, (Option.some.inj h).symm⟩
  · rintro ⟨h, rfl⟩
    refine ⟨newSigs g o.sigs n.sigs,
      (missingIn_eq_some_iff (findSignatureIn_eq_some_iff hR)).mpr ⟨h.found, rfl⟩, ?_⟩
    have hsigs := (dedupeSigsIn_eq_some_iff hR).mpr ⟨h.judged, rfl⟩
    rw [pool] at hsigs
    rw [hsigs]
    rfl

/-! ## The two loops -/

theorem diffEntry_eq_some_iff {old : List SignedPacket} {n d : SignedPacket} :
    diffEntry g old n = some d ↔
      (OnSigned old n.packet → unequated g old n ≠ []) ∧ d = { n with sigs := unequated g old n } := by
  unfold diffEntry
  simp only
  split_ifs with h
  · exact iff_of_false (by simp) fun hd => hd.1 h.1 h.2
  · rw [not_and] at h
    exact ⟨fun hd => ⟨h, (Option.some.inj hd).symm⟩, fun hd => congrArg some hd.2.symm⟩

/-- The condition on signatures, by what is left of the new packets. -/
def LeftRead (R : SigReading) (g : Stale) (old new : List SignedPacket) : Prop :=
  ∀ l₁ o l₂, old = l₁ ++ o :: l₂ → ∀ n ∈ new, n.packet.Same o.packet →
    ∀ d, diffEntry g l₁ n = some d → SigsRead R g o.sigs d.sigs

theorem leftRead_iff {old new : List SignedPacket} : LeftRead R g old new ↔
    ∀ l₁ o l₂, old = l₁ ++ o :: l₂ → ∀ n ∈ new, n.packet.Same o.packet →
      (OnSigned l₁ n.packet → unequated g l₁ n ≠ []) → SigsRead R g o.sigs (unequated g l₁ n) := by
  unfold LeftRead
  simp only [diffEntry_eq_some_iff]
  constructor
  · intro h l₁ o l₂ hsplit n hn hsame hleft
    exact h l₁ o l₂ hsplit n hn hsame _ ⟨hleft, rfl⟩
  · rintro h l₁ o l₂ hsplit n hn hsame d ⟨hleft, rfl⟩
    exact h l₁ o l₂ hsplit n hn hsame hleft

theorem diffEntry_nil (n : SignedPacket) : diffEntry g [] n = some n :=
  diffEntry_of_not_on fun ⟨_, h, _⟩ => absurd h List.not_mem_nil

theorem leftRead_cons {cur : SignedPacket} {old new : List SignedPacket} :
    LeftRead R g (cur :: old) new ↔
      (∀ n ∈ new, n.packet.Same cur.packet → SigsRead R g cur.sigs n.sigs) ∧
        LeftRead R g old (new.filterMap (diffEntry g [cur])) := by
  constructor
  · refine fun h => ⟨fun n hn hsame => h [] cur old rfl n hn hsame n (diffEntry_nil n), ?_⟩
    intro l₁ o l₂ hsplit d hd hsame d' hd'
    obtain ⟨n, hn, hnd⟩ := List.mem_filterMap.mp hd
    rw [diffEntry_packet hnd] at hsame
    refine h (cur :: l₁) o l₂ (by rw [hsplit]; rfl) n hn hsame d' ?_
    rw [diffEntry_cons, hnd]
    exact hd'
  · rintro ⟨hcur, h⟩ l₁ o l₂ hsplit n hn hsame d hd
    cases l₁ with
    | nil =>
      obtain ⟨rfl, rfl⟩ := List.cons.inj hsplit
      rw [diffEntry_nil] at hd
      rw [← Option.some.inj hd]
      exact hcur n hn hsame
    | cons x l₁ =>
      obtain ⟨rfl, rfl⟩ := List.cons.inj hsplit
      rw [diffEntry_cons] at hd
      obtain ⟨d', hd', hd⟩ := Option.bind_eq_some_iff.mp hd
      refine h l₁ o l₂ rfl d' (List.mem_filterMap.mpr ⟨n, hn, hd'⟩) ?_ d hd
      rw [diffEntry_packet hd']
      exact hsame

/-- No packet of the one list and none of the other are both huge and of one tag. -/
def PairsRead (old new : List SignedPacket) : Prop :=
  ∀ o ∈ old, ∀ n ∈ new, ¬ HugePair n.packet o.packet

/-- A packet that leaves the new list is not huge. -/
theorem pairsRead_diff {cur : SignedPacket} {old new : List SignedPacket}
    (hcur : ∀ n ∈ new, ¬ HugePair n.packet cur.packet) :
    PairsRead old (new.filterMap (diffEntry g [cur])) ↔ PairsRead old new := by
  constructor
  · intro h o ho n hn
    cases hd : diffEntry g [cur] n with
    | none =>
      obtain ⟨x, hx, hsame⟩ := (diffEntry_eq_none.mp hd).1
      rw [List.mem_singleton.mp hx] at hsame
      have hnot := not_huge_of_same hsame fun hpair => hcur n hn hpair.symm
      exact fun hpair => hnot hpair.2.1
    | some d =>
      have hpair := h o ho d (List.mem_filterMap.mpr ⟨n, hn, hd⟩)
      rwa [diffEntry_packet hd] at hpair
  · intro h o ho d hd
    obtain ⟨n, hn, hnd⟩ := List.mem_filterMap.mp hd
    rw [diffEntry_packet hnd]
    exact h o ho n hn

theorem mergeCommonIn_eq_some_iff (hR : R.Of g) {old new : List SignedPacket} (hn : NoRepeats new)
    {r : List SignedPacket × List SignedPacket} :
    mergeCommonIn R old new = some r ↔
      (PairsRead old new ∧ LeftRead R g old new) ∧ r = mergeCommon g old new := by
  induction old generalizing new r with
  | nil =>
    refine ⟨fun h => ⟨⟨?_, ?_⟩, (Option.some.inj h).symm⟩, fun h => by rw [h.2]; rfl⟩
    · exact fun _ ho => absurd ho List.not_mem_nil
    · exact fun l₁ o l₂ h => absurd h (by simp)
  | cons cur old ih =>
    have hpairs : PairsRead (cur :: old) new ↔
        (∀ n ∈ new, ¬ HugePair n.packet cur.packet) ∧ PairsRead old new := List.forall_mem_cons
    unfold mergeCommonIn
    rw [Option.bind_eq_bind, Option.bind_eq_some_iff, mergeCommon_cons cur old hn, leftRead_cons, hpairs]
    cases hf : findSignedPacket new cur.packet with
    | none =>
      -- the packet is not on the new list: nothing is left out
      have hno : ∀ n ∈ new, ¬ n.packet.Same cur.packet := fun n hmem hsame =>
        findSignedPacket_none.mp hf ⟨n, hmem, hsame⟩
      have hall : ∀ n ∈ new, diffEntry g [cur] n = some n := fun n hmem =>
        diffEntry_of_not_on (by simpa [OnSigned] using fun hs => hno n hmem (Packet.Same.symm hs))
      have hnew : new.filterMap (diffEntry g [cur]) = new := by
        rw [List.filterMap_congr hall, List.filterMap_some]
      have hentry : mergedEntry g new cur = cur := by rw [mergedEntry, hf]
      rw [hnew, hentry]
      constructor
      · rintro ⟨found, hfound, h⟩
        obtain ⟨hcur, rfl⟩ := findSignedPacketIn_eq_some_iff.mp hfound
        rw [hf] at h
        obtain ⟨r', hr', h⟩ := Option.bind_eq_some_iff.mp h
        obtain ⟨⟨hold, hleft⟩, rfl⟩ := (ih hn).mp hr'
        exact ⟨⟨⟨hcur, hold⟩, fun n hmem hsame => absurd hsame (hno n hmem), hleft⟩,
          (Option.some.inj h).symm⟩
      · rintro ⟨⟨⟨hcur, hold⟩, -, hleft⟩, rfl⟩
        refine ⟨none, findSignedPacketIn_eq_some_iff.mpr ⟨hcur, hf.symm⟩, ?_⟩
        rw [(ih hn).mpr ⟨⟨hold, hleft⟩, rfl⟩]
        rfl
    | some n =>
      obtain ⟨hmem, hsame⟩ := findSignedPacket_some hf
      have hentry : mergedEntry g new cur = (mergePacketSigs g cur n).1 := by rw [mergedEntry, hf]
      have honly : (∀ n' ∈ new, n'.packet.Same cur.packet → SigsRead R g cur.sigs n'.sigs) ↔
          SigsRead R g cur.sigs n.sigs := by
        refine ⟨fun h => h n hmem hsame, fun h n' hmem' hsame' => ?_⟩
        rwa [hn.unique hmem' hmem (hsame'.trans hsame.symm)]
      have hround : (∀ n ∈ new, ¬ HugePair n.packet cur.packet) →
          (if (mergePacketSigs g cur n).2.sigs = [] then removeSignedPacketIn new n.packet
            else some (replaceSignedPacket new (mergePacketSigs g cur n).2)) =
            some (new.filterMap (diffEntry g [cur])) := by
        intro hcur
        have hnot := not_huge_of_same hsame.symm fun hpair => hcur n hmem hpair.symm
        rw [← round_eq hn hf, removeSignedPacketIn_eq hnot]
        split_ifs <;> rfl
      rw [honly, hentry]
      constructor
      · rintro ⟨found, hfound, h⟩
        obtain ⟨hcur, rfl⟩ := findSignedPacketIn_eq_some_iff.mp hfound
        rw [hf] at h
        obtain ⟨merged, hmerged, h⟩ := Option.bind_eq_some_iff.mp h
        obtain ⟨hsigs, rfl⟩ := (mergePacketSigsIn_eq_some_iff hR).mp hmerged
        obtain ⟨new', hnew', h⟩ := Option.bind_eq_some_iff.mp h
        obtain rfl := Option.some.inj ((hround hcur).symm.trans hnew')
        obtain ⟨r', hr', h⟩ := Option.bind_eq_some_iff.mp h
        obtain ⟨⟨hold, hleft⟩, rfl⟩ := (ih (hn.diff [cur])).mp hr'
        exact ⟨⟨⟨hcur, (pairsRead_diff hcur).mp hold⟩, hsigs, hleft⟩, (Option.some.inj h).symm⟩
      · rintro ⟨⟨⟨hcur, hold⟩, hsigs, hleft⟩, rfl⟩
        refine ⟨some n, findSignedPacketIn_eq_some_iff.mpr ⟨hcur, hf.symm⟩, ?_⟩
        simp only [(mergePacketSigsIn_eq_some_iff hR).mpr ⟨hsigs, rfl⟩, Option.bind_some,
          Option.bind_eq_bind]
        rw [hround hcur, Option.bind_some,
          (ih (hn.diff [cur])).mpr ⟨⟨(pairsRead_diff hcur).mpr hold, hleft⟩, rfl⟩]
        rfl

theorem addMissingIn_eq_some_iff {old new r : List SignedPacket} :
    addMissingIn old new = some r ↔
      (PairsRead old new ∧ new.Pairwise fun n n' => ¬ HugePair n.packet n'.packet) ∧
        r = addMissing old new := by
  induction new generalizing old with
  | nil =>
    refine ⟨fun h => ⟨⟨?_, .nil⟩, (Option.some.inj h).symm⟩, fun h => by rw [h.2]; rfl⟩
    exact fun _ _ _ hn => absurd hn List.not_mem_nil
  | cons c new ih =>
    have hpairs : PairsRead old (c :: new) ↔
        (∀ x ∈ old, ¬ HugePair x.packet c.packet) ∧ PairsRead old new := by
      unfold PairsRead
      simp only [List.forall_mem_cons, forall_and]
      exact and_congr_left fun _ => forall₂_congr fun _ _ =>
        not_congr ⟨HugePair.symm, HugePair.symm⟩
    have hlast : PairsRead (old ++ [c]) new ↔
        PairsRead old new ∧ ∀ n ∈ new, ¬ HugePair c.packet n.packet := by
      unfold PairsRead
      rw [List.forall_mem_append]
      refine and_congr_right fun _ => ?_
      rw [List.forall_mem_singleton]
      exact forall₂_congr fun _ _ => not_congr ⟨HugePair.symm, HugePair.symm⟩
    unfold addMissingIn addMissing
    rw [Option.bind_eq_bind, Option.bind_eq_some_iff, hpairs, List.pairwise_cons]
    constructor
    · rintro ⟨found, hfound, h⟩
      obtain ⟨hc, rfl⟩ := findSignedPacketIn_eq_some_iff.mp hfound
      rw [ih] at h
      obtain ⟨⟨hold, hnew⟩, rfl⟩ := h
      split_ifs at hold ⊢ with hf
      · obtain ⟨hold, hcn⟩ := hlast.mp hold
        exact ⟨⟨⟨hc, hold⟩, hcn, hnew⟩, rfl⟩
      · obtain ⟨x, hx, hsame⟩ := not_not.mp (mt findSignedPacket_isNone.mpr hf)
        have hnot := not_huge_of_same hsame (hc x hx)
        exact ⟨⟨⟨hc, hold⟩, fun _ _ hpair => hnot hpair.2.1, hnew⟩, rfl⟩
    · rintro ⟨⟨⟨hc, hold⟩, hcn, hnew⟩, rfl⟩
      refine ⟨findSignedPacket old c.packet, findSignedPacketIn_eq_some_iff.mpr ⟨hc, rfl⟩, ?_⟩
      rw [ih]
      split_ifs with hf
      · exact ⟨⟨hlast.mpr ⟨hold, hcn⟩, hnew⟩, rfl⟩
      · exact ⟨⟨hold, hnew⟩, rfl⟩

theorem pairsRead_congr {old old' new : List SignedPacket} (h : OnAll old old') (h' : PairsRead old' new) :
    PairsRead old new := by
  intro o ho n hn hpair
  obtain ⟨o', ho', hsame⟩ := h o ho
  exact h' o' ho' n hn ⟨hpair.1.trans hsame.1.symm, hpair.2.1, hsame.huge_iff.mpr hpair.2.2⟩

/-- What the second loop compares is what the first one does, and the new packets with one another. -/
theorem pairsRead_merged {old new : List SignedPacket} (hn : NoRepeats new)
    (hpairs : PairsRead old new) :
    (PairsRead (mergeCommon g old new).1 (mergeCommon g old new).2 ∧
      (mergeCommon g old new).2.Pairwise fun n n' => ¬ HugePair n.packet n'.packet) ↔
      new.Pairwise fun n n' => ¬ HugePair n.packet n'.packet := by
  have hmerged : PairsRead (mergeCommon g old new).1 (mergeCommon g old new).2 := by
    have hall : OnAll (mergeCommon g old new).1 old := fun o ho =>
      (onSigned_mergeCommon old new _).mp (onSigned_of_mem ho)
    refine pairsRead_congr hall fun o ho d hd => ?_
    rw [mergeCommon_diff old hn] at hd
    obtain ⟨n, hmem, hnd⟩ := List.mem_filterMap.mp hd
    rw [diffEntry_packet hnd]
    exact hpairs o ho n hmem
  rw [and_iff_right hmerged, mergeCommon_diff old hn, List.pairwise_filterMap]
  constructor
  · refine List.Pairwise.imp_of_mem fun {n n'} hmem hmem' h hpair => ?_
    have hleft : ∀ {m}, m ∈ new → m.packet.Huge → ∃ d, diffEntry g old m = some d := by
      intro m hm hhuge
      rw [← Option.isSome_iff_exists, Option.isSome_iff_ne_none]
      intro hd
      obtain ⟨x, hx, hsame⟩ := (diffEntry_eq_none.mp hd).1
      exact not_huge_of_same hsame (fun hpair => hpairs x hx m hm hpair.symm) hhuge
    obtain ⟨d, hd⟩ := hleft hmem hpair.2.1
    obtain ⟨d', hd'⟩ := hleft hmem' hpair.2.2
    have hnot := h d hd d' hd'
    rw [diffEntry_packet hd, diffEntry_packet hd'] at hnot
    exact hnot hpair
  · refine List.Pairwise.imp fun {n n'} h d hd d' hd' => ?_
    rw [diffEntry_packet hd, diffEntry_packet hd']
    exact h

theorem mergeSignedPacketsIn_eq_some_iff (hR : R.Of g) {old new : List SignedPacket}
    (hn : NoRepeats new) {r : List SignedPacket × List SignedPacket} :
    mergeSignedPacketsIn R old new = some r ↔
      SignedRead R g old new ∧ r = mergeSignedPackets g old new := by
  unfold mergeSignedPacketsIn
  rw [Option.bind_eq_bind, Option.bind_eq_some_iff]
  constructor
  · rintro ⟨m, hm, h⟩
    obtain ⟨⟨hpairs, hleft⟩, rfl⟩ := (mergeCommonIn_eq_some_iff hR hn).mp hm
    obtain ⟨l, hl, h⟩ := Option.bind_eq_some_iff.mp h
    obtain ⟨hread, rfl⟩ := addMissingIn_eq_some_iff.mp hl
    exact ⟨⟨hpairs, (pairsRead_merged hn hpairs).mp hread, leftRead_iff.mp hleft⟩,
      (Option.some.inj h).symm⟩
  · rintro ⟨h, rfl⟩
    refine ⟨mergeCommon g old new,
      (mergeCommonIn_eq_some_iff hR hn).mpr ⟨⟨h.pairs, leftRead_iff.mpr h.sigs⟩, rfl⟩, ?_⟩
    rw [addMissingIn_eq_some_iff.mpr ⟨(pairsRead_merged hn h.pairs).mpr h.news, rfl⟩]
    rfl

/-! ## Keys -/

variable {H : Hashes}

theorem keyidIn_eq_some_iff {k : PublicKey} {keyid : UInt64} :
    keyidIn H k = some (some keyid) ↔ getKeyid H k = some keyid := by
  unfold keyidIn getKeyid
  rcases getPacketid H k.publickey with _ | ⟨status, keyid'⟩
  · simp
  · cases status <;> simp

/-- **When two keys can be merged**, and what comes out then. -/
theorem mergeKeysIn_eq_some_iff (hR : R.Of g) {a b : PublicKey} (hid : SameKeyid H a b)
    (hb : b.NoRepeats) {r : MergeResult} :
    mergeKeysIn H R a b = some r ↔ KeysRead R g a b ∧ r = mergeKeys H g a b := by
  obtain ⟨keyid, ha⟩ := Option.isSome_iff_exists.mp hid.1
  have hb' := hid.2.symm.trans ha
  have hsigs : ∀ {diff}, missingIn (findPacketIn a.sigs) b.sigs = some diff ↔
      (∀ s ∈ b.sigs, ∀ x ∈ a.sigs, ¬ HugePair x s) ∧ diff = b.sigs.filter fun s => !findPacket a.sigs s := by
    intro diff
    have hnone : ∀ s, (a.sigs.find? fun x => comparePackets x s == 0).isNone = !findPacket a.sigs s :=
      fun s => by rw [findPacket, ← List.isSome_find?, Option.not_isSome]
    rw [missingIn_eq_some_iff findPacketIn_eq_some_iff]
    simp only [hnone]
  unfold mergeKeysIn mergeKeysWith
  rw [keyidIn_eq_some_iff.mpr ha, keyidIn_eq_some_iff.mpr hb', mergeKeys_eq hid]
  simp only [Option.bind_eq_bind, Option.bind_some, ne_eq, not_true_eq_false, if_false]
  constructor
  · intro h
    obtain ⟨diff, hdiff, h⟩ := Option.bind_eq_some_iff.mp h
    obtain ⟨uids, huids, h⟩ := Option.bind_eq_some_iff.mp h
    obtain ⟨subkeys, hsubkeys, h⟩ := Option.bind_eq_some_iff.mp h
    obtain ⟨hpairs, rfl⟩ := hsigs.mp hdiff
    obtain ⟨huidsRead, rfl⟩ := (mergeSignedPacketsIn_eq_some_iff hR hb.1).mp huids
    obtain ⟨hsubkeysRead, rfl⟩ := (mergeSignedPacketsIn_eq_some_iff hR hb.2).mp hsubkeys
    exact ⟨⟨fun s hs t ht => hpairs t ht s hs, huidsRead, hsubkeysRead⟩, (Option.some.inj h).symm⟩
  · rintro ⟨h, rfl⟩
    rw [hsigs.mpr ⟨fun s hs x hx => h.sigs x hx s hs, rfl⟩,
      (mergeSignedPacketsIn_eq_some_iff hR hb.1).mpr ⟨h.uids, rfl⟩,
      (mergeSignedPacketsIn_eq_some_iff hR hb.2).mpr ⟨h.subkeys, rfl⟩]
    rfl

theorem keysRead_of_isSome (hR : R.Of g) {a b : PublicKey} (hid : SameKeyid H a b) (hb : b.NoRepeats)
    (h : (mergeKeysIn H R a b).isSome = true) : KeysRead R g a b := by
  obtain ⟨r, hr⟩ := Option.isSome_iff_exists.mp h
  exact ((mergeKeysIn_eq_some_iff hR hid hb).mp hr).1

end Onak
