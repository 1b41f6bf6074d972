import Onak.Proofs.MergeQuietProofs

/-!
# Proofs: what a merge adds

The difference that `merge_keys` reports is not always what it adds to the old key: a new signature
can be dropped by `dedupe_sigs` at once. `Reported` says on the old and the new list when the
difference is exactly what was added. The old lists may repeat packets here.
-/

namespace Onak

variable {H : Hashes} {g : Stale}

/-! ## Data that was added -/

/-- The list has the signature on the packet. -/
def SigOn (l : List SignedPacket) (p s : Packet) : Prop :=
  ∃ sp ∈ l, sp.packet.Same p ∧ OnList sp.sigs s

/-- `d` is what `new` has more than `old`: the packets, and the packets with signatures, and on each
of them the signatures. -/
structure AddedSigned (old new d : List SignedPacket) : Prop where
  packets : ∀ p, OnSigned d p ↔
    OnSigned new p ∧ ¬ OnSigned old p ∨ ∃ s, SigOn new p s ∧ ¬ SigOn old p s
  sigs : ∀ p s, SigOn d p s ↔ SigOn new p s ∧ ¬ SigOn old p s

/-- `d` is what `new` has more than `old`. -/
structure Added (old new d : PublicKey) : Prop where
  sigs : ∀ s, OnList d.sigs s ↔ OnList new.sigs s ∧ ¬ OnList old.sigs s
  uids : AddedSigned old.uids new.uids d.uids
  subkeys : AddedSigned old.subkeys new.subkeys d.subkeys

variable (g) in
/-- The signatures that are on the old packet `o` behind `l₁` when those of `n` have been added that
are equated with none on `l₁` or on `o` itself. -/
def sigsAt (l₁ : List SignedPacket) (o n : SignedPacket) : List Packet :=
  dedupeSigs g (o.sigs ++ n.sigs.filter fun s => ¬ Equated g (l₁ ++ [o]) n.packet s)

variable (g) in
/-- Of the new signatures on a packet that is on `old`, those that are equated with none there are
kept by `dedupe_sigs`, and no others. When `old` repeats a packet, a signature may be kept at one
occurrence and be equated with one at a later occurrence. -/
structure Reported (old new : List SignedPacket) : Prop where
  kept : ∀ n ∈ new, OnSigned old n.packet → ∀ s ∈ n.sigs, ¬ Equated g old n.packet s →
    ∃ l₁ o l₂, old = l₁ ++ o :: l₂ ∧ o.packet.Same n.packet ∧ OnList (sigsAt g l₁ o n) s
  told : ∀ n ∈ new, ∀ l₁ o l₂, old = l₁ ++ o :: l₂ → o.packet.Same n.packet → ∀ s ∈ n.sigs,
    s ∈ sigsAt g l₁ o n → ¬ SigOn old n.packet s → ¬ Equated g old n.packet s

theorem SigOn.congr {l : List SignedPacket} {p q s t : Packet} (h : SigOn l p s) (hp : p.Same q)
    (hs : s.Same t) : SigOn l q t := by
  obtain ⟨sp, hsp, hpacket, hon⟩ := h
  exact ⟨sp, hsp, hpacket.trans hp, hon.congr hs⟩

theorem SigOn.equated {l : List SignedPacket} {p s : Packet} (h : SigOn l p s) :
    Equated g l p s := by
  obtain ⟨sp, hsp, hpacket, r, hr, hs⟩ := h
  refine ⟨sp, hsp, hpacket, ?_⟩
  rw [findSignature, List.find?_isSome]
  exact ⟨r, hr, compareSignatures_of_same hs⟩

theorem Equated.congr {l : List SignedPacket} {p q s t : Packet} (h : Equated g l p s)
    (hp : p.Same q) (hs : s.Same t) : Equated g l q t := by
  obtain ⟨o, ho, hpacket, hfind⟩ := h
  refine ⟨o, ho, hpacket.trans hp, ?_⟩
  rw [findSignature, List.find?_isSome] at hfind ⊢
  obtain ⟨r, hr, hcompare⟩ := hfind
  refine ⟨r, hr, ?_⟩
  rw [compareSignatures_iff] at hcompare ⊢
  rw [← hs.2, ← created_congr hs.2, ← issuer_congr hs.2]
  exact hcompare

/-! ## The merged list -/

theorem equated_append {l₁ l₂ : List SignedPacket} {p s : Packet} :
    Equated g (l₁ ++ l₂) p s ↔ Equated g l₁ p s ∨ Equated g l₂ p s := by
  unfold Equated
  simp only [List.mem_append, or_and_right, exists_or]

/-- What the first loop makes of the old packets, whether these are repeated or not. -/
theorem mem_mergeCommon {old new : List SignedPacket} (hn : NoRepeats new) {x : SignedPacket} :
    x ∈ (mergeCommon g old new).1 ↔ ∃ l₁ o l₂, old = l₁ ++ o :: l₂ ∧
      x = mergedEntry g (new.filterMap (diffEntry g l₁)) o := by
  induction old generalizing new with
  | nil => simp [mergeCommon]
  | cons cur old ih =>
    have hfirst : new.filterMap (diffEntry g []) = new := by
      have hall : ∀ n ∈ new, diffEntry g [] n = some n :=
        fun n _ => diffEntry_of_not_on (by simp [OnSigned])
      rw [List.filterMap_congr hall, List.filterMap_some]
    have hrest : ∀ l₁, (new.filterMap (diffEntry g [cur])).filterMap (diffEntry g l₁) =
        new.filterMap (diffEntry g (cur :: l₁)) := by
      intro l₁
      rw [List.filterMap_filterMap]
      exact List.filterMap_congr fun n _ => (diffEntry_cons cur l₁ n).symm
    rw [mergeCommon_cons cur old hn, List.mem_cons, ih (hn.diff [cur])]
    constructor
    · rintro (rfl | ⟨l₁, o, l₂, rfl, rfl⟩)
      · exact ⟨[], cur, old, rfl, by rw [hfirst]⟩
      · exact ⟨cur :: l₁, o, l₂, rfl, by rw [hrest]⟩
    · rintro ⟨l₁, o, l₂, hsplit, rfl⟩
      cases l₁ with
      | nil =>
        obtain ⟨rfl, rfl⟩ := List.cons.inj hsplit
        rw [hfirst]
        exact .inl rfl
      | cons y l₁ =>
        obtain ⟨rfl, rfl⟩ := List.cons.inj hsplit
        exact .inr ⟨l₁, o, l₂, rfl, by rw [hrest]⟩

theorem onSigned_merge {old new : List SignedPacket} (hn : NoRepeats new) (p : Packet) :
    OnSigned (mergeSignedPackets g old new).1 p ↔ OnSigned old p ∨ OnSigned new p := by
  constructor
  · rintro ⟨sp, hsp, hp⟩
    rw [mergeSignedPackets_fst_append old hn] at hsp
    rcases List.mem_append.mp hsp with hsp | hsp
    · exact .inl ((onSigned_mergeCommon old new p).mp ⟨sp, hsp, hp⟩)
    · exact .inr ⟨sp, (List.mem_filter.mp hsp).1, hp⟩
  · rintro (⟨sp, hsp, hp⟩ | ⟨sp, hsp, hp⟩)
    · exact (onAll_merge_old old new sp hsp).congr hp
    · exact (onAll_merge_new old new sp hsp).congr hp

theorem mem_dedupeSigs_append {l l' : List Packet} {s : Packet} (h : s ∈ dedupeSigs g (l ++ l')) :
    s ∈ l ∨ s ∈ l' :=
  List.mem_append.mp (Collapse.mem_of_mem_collapse h)

theorem diffEntry_sigs {old : List SignedPacket} {n d : SignedPacket}
    (h : diffEntry g old n = some d) :
    d.sigs = n.sigs.filter fun s => ¬ Equated g old n.packet s := by
  unfold diffEntry at h
  simp only at h
  split_ifs at h
  obtain rfl := Option.some.inj h
  rfl

theorem newSigs_diffEntry {l₁ : List SignedPacket} {o n d : SignedPacket}
    (hd : diffEntry g l₁ n = some d) (hsame : o.packet.Same n.packet) :
    newSigs g o.sigs d.sigs = n.sigs.filter fun s => ¬ Equated g (l₁ ++ [o]) n.packet s := by
  unfold newSigs
  rw [diffEntry_sigs hd, List.filter_filter]
  refine List.filter_congr fun s _ => ?_
  have hone : Equated g [o] n.packet s ↔ (findSignature g o.sigs s).isSome = true := by
    simp [Equated, hsame]
  simp only [equated_append, hone, not_or]
  cases findSignature g o.sigs s <;> simp

/-- The signatures that an old packet gets. -/
theorem onList_mergedEntry {new : List SignedPacket} (hn : NoRepeats new) (l₁ : List SignedPacket)
    (o : SignedPacket) {s : Packet} (hs : ¬ OnList o.sigs s) :
    OnList (mergedEntry g (new.filterMap (diffEntry g l₁)) o).sigs s ↔
      ∃ n ∈ new, n.packet.Same o.packet ∧ OnList (sigsAt g l₁ o n) s := by
  unfold mergedEntry
  rw [findSignedPacket_diff hn]
  cases hfind : findSignedPacket new o.packet with
  | none =>
    refine iff_of_false hs ?_
    rintro ⟨n, hmem, hsame, -⟩
    exact findSignedPacket_none.mp hfind ⟨n, hmem, hsame⟩
  | some n =>
    obtain ⟨hmem, hsame⟩ := findSignedPacket_some hfind
    have honly : (∃ n' ∈ new, n'.packet.Same o.packet ∧ OnList (sigsAt g l₁ o n') s) ↔
        OnList (sigsAt g l₁ o n) s := by
      constructor
      · rintro ⟨n', hmem', hsame', hon⟩
        rwa [hn.unique hmem' hmem (hsame'.trans hsame.symm)] at hon
      · intro hon
        exact ⟨n, hmem, hsame, hon⟩
    rw [honly, Option.bind_some]
    cases hd : diffEntry g l₁ n with
    | none =>
      -- all signatures are equated before: nothing is added
      refine iff_of_false hs ?_
      rintro ⟨r, hr, hrs⟩
      rcases mem_dedupeSigs_append hr with hr | hr
      · exact hs ⟨r, hr, hrs⟩
      · obtain ⟨hrn, hne⟩ := List.mem_filter.mp hr
        rw [decide_eq_true_eq, equated_append] at hne
        exact hne (.inl ((diffEntry_eq_none.mp hd).2 r hrn))
    | some d =>
      have hsigs : newSigs g o.sigs d.sigs =
          n.sigs.filter fun s => ¬ Equated g (l₁ ++ [o]) n.packet s := newSigs_diffEntry hd hsame.symm
      show OnList (dedupeSigs g (o.sigs ++ newSigs g o.sigs d.sigs)) s ↔ _
      rw [hsigs]
      rfl

/-- The signatures that the merged list has and the old one has not. -/
theorem sigOn_merge {old new : List SignedPacket} (hn : NoRepeats new) {p s : Packet}
    (hs : ¬ SigOn old p s) :
    SigOn (mergeSignedPackets g old new).1 p s ↔ ∃ n ∈ new, n.packet.Same p ∧
      (¬ OnSigned old p ∧ OnList n.sigs s ∨
        ∃ l₁ o l₂, old = l₁ ++ o :: l₂ ∧ o.packet.Same p ∧ OnList (sigsAt g l₁ o n) s) := by
  have hold : ∀ {l₁ o l₂}, old = l₁ ++ o :: l₂ → o.packet.Same p → ¬ OnList o.sigs s :=
    fun {l₁ o l₂} hsplit ho hon => hs ⟨o, by rw [hsplit]; simp, ho, hon⟩
  unfold SigOn
  rw [mergeSignedPackets_fst_append old hn]
  constructor
  · rintro ⟨sp, hsp, hp, hon⟩
    rcases List.mem_append.mp hsp with hsp | hsp
    · obtain ⟨l₁, o, l₂, hsplit, rfl⟩ := (mem_mergeCommon hn).mp hsp
      rw [mergedEntry_packet] at hp
      obtain ⟨n, hmem, hsame, hat⟩ := (onList_mergedEntry hn l₁ o (hold hsplit hp)).mp hon
      exact ⟨n, hmem, hsame.trans hp, .inr ⟨l₁, o, l₂, hsplit, hp, hat⟩⟩
    · obtain ⟨hmem, hnot⟩ := List.mem_filter.mp hsp
      rw [findSignedPacket_isNone] at hnot
      exact ⟨sp, hmem, hp, .inl ⟨fun h => hnot (h.congr hp.symm), hon⟩⟩
  · rintro ⟨n, hmem, hp, ⟨hnot, hon⟩ | ⟨l₁, o, l₂, hsplit, ho, hat⟩⟩
    · refine ⟨n, List.mem_append_right _ (List.mem_filter.mpr ⟨hmem, ?_⟩), hp, hon⟩
      rw [findSignedPacket_isNone]
      exact fun h => hnot (h.congr hp)
    · refine ⟨_, List.mem_append_left _ ((mem_mergeCommon hn).mpr ⟨l₁, o, l₂, hsplit, rfl⟩), ?_, ?_⟩
      · rw [mergedEntry_packet]
        exact ho
      · exact (onList_mergedEntry hn l₁ o (hold hsplit ho)).mpr ⟨n, hmem, hp.trans ho.symm, hat⟩

/-! ## The difference -/

theorem onSigned_diff {old new : List SignedPacket} (hn : NoRepeats new) (p : Packet) :
    OnSigned (mergeSignedPackets g old new).2 p ↔ ∃ n ∈ new, n.packet.Same p ∧
      (¬ OnSigned old p ∨ ∃ s ∈ n.sigs, ¬ Equated g old p s) := by
  rw [mergeSignedPackets_snd old hn]
  constructor
  · rintro ⟨d, hd, hp⟩
    obtain ⟨n, hmem, hnd⟩ := List.mem_filterMap.mp hd
    rw [diffEntry_packet hnd] at hp
    refine ⟨n, hmem, hp, ?_⟩
    by_contra hall
    push Not at hall
    have hnone : diffEntry g old n = none := diffEntry_eq_none.mpr
      ⟨hall.1.congr hp.symm, fun s hs => (hall.2 s hs).congr hp.symm (Packet.Same.refl s)⟩
    rw [hnone] at hnd
    exact absurd hnd (by simp)
  · rintro ⟨n, hmem, hp, hor⟩
    cases hnd : diffEntry g old n with
    | none =>
      obtain ⟨hon, hall⟩ := diffEntry_eq_none.mp hnd
      rcases hor with hnot | ⟨s, hs, hne⟩
      · exact absurd (hon.congr hp) hnot
      · exact absurd ((hall s hs).congr hp (Packet.Same.refl s)) hne
    | some d =>
      refine ⟨d, List.mem_filterMap.mpr ⟨n, hmem, hnd⟩, ?_⟩
      rw [diffEntry_packet hnd]
      exact hp

theorem sigOn_diff {old new : List SignedPacket} (hn : NoRepeats new) (p s : Packet) :
    SigOn (mergeSignedPackets g old new).2 p s ↔
      (∃ n ∈ new, n.packet.Same p ∧ OnList n.sigs s) ∧ ¬ Equated g old p s := by
  rw [mergeSignedPackets_snd old hn]
  constructor
  · rintro ⟨d, hd, hp, r, hr, hrs⟩
    obtain ⟨n, hmem, hnd⟩ := List.mem_filterMap.mp hd
    obtain ⟨hrn, hne⟩ := (mem_diffEntry hnd).mp hr
    rw [diffEntry_packet hnd] at hp
    exact ⟨⟨n, hmem, hp, r, hrn, hrs⟩, fun h => hne (h.congr hp.symm hrs.symm)⟩
  · rintro ⟨⟨n, hmem, hp, r, hrn, hrs⟩, hne⟩
    have hne' : ¬ Equated g old n.packet r := fun h => hne (h.congr hp hrs)
    cases hnd : diffEntry g old n with
    | none => exact absurd ((diffEntry_eq_none.mp hnd).2 r hrn) hne'
    | some d =>
      refine ⟨d, List.mem_filterMap.mpr ⟨n, hmem, hnd⟩, ?_, r, (mem_diffEntry hnd).mpr ⟨hrn, hne'⟩,
        hrs⟩
      rw [diffEntry_packet hnd]
      exact hp

/-- The difference is what was added to the old list, if and only if what is new is kept. -/
theorem addedSigned_iff {old new : List SignedPacket} (hn : NoRepeats new) :
    AddedSigned old (mergeSignedPackets g old new).1 (mergeSignedPackets g old new).2 ↔
      Reported g old new := by
  constructor
  · intro h
    refine ⟨fun n hmem hon s hs hne => ?_, fun n hmem l₁ o l₂ hsplit ho s hs hat hnot heq => ?_⟩
    · have hdiff := (sigOn_diff hn n.packet s).mpr
        ⟨⟨n, hmem, Packet.Same.refl _, onList_of_mem hs⟩, hne⟩
      obtain ⟨hmerged, hnot⟩ := (h.sigs n.packet s).mp hdiff
      obtain ⟨n', hmem', hsame, ⟨hnew, -⟩ | ⟨l₁, o, l₂, hsplit, ho, hat⟩⟩ := (sigOn_merge hn hnot).mp hmerged
      · exact absurd hon hnew
      · rw [hn.unique hmem' hmem hsame] at hat
        exact ⟨l₁, o, l₂, hsplit, ho, hat⟩
    · have hmerged := (sigOn_merge (g := g) hn hnot).mpr
        ⟨n, hmem, Packet.Same.refl _, .inr ⟨l₁, o, l₂, hsplit, ho, onList_of_mem hat⟩⟩
      have hdiff := (h.sigs n.packet s).mpr ⟨hmerged, hnot⟩
      exact ((sigOn_diff hn n.packet s).mp hdiff).2 heq
  · intro h
    have hsigs : ∀ p s, SigOn (mergeSignedPackets g old new).2 p s ↔
        SigOn (mergeSignedPackets g old new).1 p s ∧ ¬ SigOn old p s := by
      intro p s
      rw [sigOn_diff hn]
      constructor
      · rintro ⟨⟨n, hmem, hp, r, hr, hrs⟩, hne⟩
        have hnot : ¬ SigOn old p s := fun hon => hne hon.equated
        refine ⟨(sigOn_merge hn hnot).mpr ⟨n, hmem, hp, ?_⟩, hnot⟩
        by_cases hon : OnSigned old p
        · obtain ⟨l₁, o, l₂, hsplit, ho, hat⟩ := h.kept n hmem (hon.congr hp.symm) r hr
            fun heq => hne (heq.congr hp hrs)
          exact .inr ⟨l₁, o, l₂, hsplit, ho.trans hp, hat.congr hrs⟩
        · exact .inl ⟨hon, r, hr, hrs⟩
      · rintro ⟨hmerged, hnot⟩
        obtain ⟨n, hmem, hp, ⟨hnew, hon⟩ | ⟨l₁, o, l₂, hsplit, ho, r, hr, hrs⟩⟩ :=
          (sigOn_merge hn hnot).mp hmerged
        · exact ⟨⟨n, hmem, hp, hon⟩, not_equated_of_not_on hnew⟩
        · have hrn : r ∈ n.sigs := by
            rcases mem_dedupeSigs_append hr with hro | hrn
            · exact absurd ⟨o, by rw [hsplit]; simp, ho, r, hro, hrs⟩ hnot
            · exact (List.mem_filter.mp hrn).1
          refine ⟨⟨n, hmem, hp, r, hrn, hrs⟩, fun heq => ?_⟩
          exact h.told n hmem l₁ o l₂ hsplit (ho.trans hp.symm) r hrn hr
            (fun hon => hnot (hon.congr hp hrs)) (heq.congr hp.symm hrs.symm)
    refine ⟨fun p => ?_, hsigs⟩
    simp only [← hsigs, onSigned_diff hn, onSigned_merge hn, sigOn_diff hn]
    constructor
    · rintro ⟨n, hmem, hp, hnot | ⟨s, hs, hne⟩⟩
      · exact .inl ⟨.inr ⟨n, hmem, hp⟩, hnot⟩
      · exact .inr ⟨s, ⟨n, hmem, hp, onList_of_mem hs⟩, hne⟩
    · rintro (⟨hold | ⟨n, hmem, hp⟩, hnot⟩ | ⟨s, ⟨n, hmem, hp, r, hr, hrs⟩, hne⟩)
      · exact absurd hold hnot
      · exact ⟨n, hmem, hp, .inl hnot⟩
      · exact ⟨n, hmem, hp, .inr ⟨r, hr, fun heq => hne (heq.congr (Packet.Same.refl p) hrs)⟩⟩

/-- The difference of two keys is what was added to the old one, if and only if what is new on its
user ids and subkeys is kept. -/
theorem added_iff {old key : PublicKey} (hid : SameKeyid H old key) (hkey : key.NoRepeats) :
    Added old (mergeKeys H g old key).a (mergeKeys H g old key).b ↔
      Reported g old.uids key.uids ∧ Reported g old.subkeys key.subkeys := by
  rw [mergeKeys_eq hid]
  constructor
  · intro h
    exact ⟨(addedSigned_iff hkey.1).mp h.uids, (addedSigned_iff hkey.2).mp h.subkeys⟩
  · rintro ⟨huids, hsubkeys⟩
    refine ⟨fun s => ?_, (addedSigned_iff hkey.1).mpr huids, (addedSigned_iff hkey.2).mpr hsubkeys⟩
    constructor
    · rintro ⟨r, hr, hrs⟩
      obtain ⟨hrb, hnot⟩ := List.mem_filter.mp hr
      rw [Bool.not_eq_true', ← Bool.not_eq_true, findPacket_iff] at hnot
      exact ⟨⟨r, List.mem_append_right _ hr, hrs⟩, fun hon => hnot (hon.congr hrs.symm)⟩
    · rintro ⟨⟨r, hr, hrs⟩, hnot⟩
      rcases List.mem_append.mp hr with hr | hr
      · exact absurd ⟨r, hr, hrs⟩ hnot
      · exact ⟨r, hr, hrs⟩

end Onak
