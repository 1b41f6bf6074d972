import Onak.MergeReads
import Onak.Proofs.MergeProofs
import Onak.Proofs.ReadSafetyProofs

/-!
# Proofs: comparing where nothing undefined is read

Wherever the comparisons and searches of `Onak.MergeReads` have a result, it is that of the functions of
`Onak.Merge`. A search for a packet has one if and only if it can be compared with every packet of the
list. `dedupe_sigs` has one if and only if any two signatures of the list can be compared
(`dedupeSigsIn_eq_some_iff`): that it drops signatures as it goes makes no difference.
-/

namespace Onak

/-! ## Searches -/

section

variable {α : Type} {test : α → Option Bool} {p : α → Bool}

theorem findM?_eq_some_iff (htest : ∀ {x found}, test x = some found → found = p x) {l : List α}
    {r : Option α} : l.findM? test = some r ↔ SearchReads test l ∧ r = l.find? p := by
  induction l with
  | nil =>
    exact ⟨fun h => ⟨trivial, (Option.some.inj h).symm⟩, fun h => by rw [h.2]; rfl⟩
  | cons x l ih =>
    unfold List.findM? SearchReads
    rw [Option.bind_eq_bind, Option.bind_eq_some_iff, List.find?_cons]
    constructor
    · rintro ⟨found, hfound, h⟩
      rw [← htest hfound]
      cases found with
      | true => exact ⟨⟨true, hfound, fun h => absurd h (by simp)⟩, (Option.some.inj h).symm⟩
      | false =>
        obtain ⟨hreads, hr⟩ := ih.mp h
        exact ⟨⟨false, hfound, fun _ => hreads⟩, hr⟩
    · rintro ⟨⟨found, hfound, hreads⟩, hr⟩
      rw [← htest hfound] at hr
      refine ⟨found, hfound, ?_⟩
      cases found with
      | true => rw [hr]; rfl
      | false => exact ih.mpr ⟨hreads rfl, hr⟩

theorem searchReads_of_forall {l : List α} (h : ∀ x ∈ l, (test x).isSome) : SearchReads test l := by
  induction l with
  | nil => trivial
  | cons x l ih =>
    rw [List.forall_mem_cons] at h
    obtain ⟨found, hfound⟩ := Option.isSome_iff_exists.mp h.1
    exact ⟨found, hfound, fun _ => ih h.2⟩

end

/-! ## Huge packets -/

theorem HugePair.symm {a b : Packet} (h : HugePair a b) : HugePair b a := ⟨h.1.symm, h.2.2, h.2.1⟩

theorem Packet.Same.huge_iff {a b : Packet} (h : a.Same b) : a.Huge ↔ b.Huge := by
  unfold Packet.Huge Packet.length
  rw [h.2]

/-- What is the same as another packet, and can be compared with it, can be compared with all. -/
theorem not_huge_of_same {a b : Packet} (h : a.Same b) (hpair : ¬ HugePair a b) : ¬ b.Huge :=
  fun hb => hpair ⟨h.1, h.huge_iff.mpr hb, hb⟩

theorem not_hugePair_of_not_huge {a b : Packet} (h : ¬ b.Huge) : ¬ HugePair a b := fun hpair => h hpair.2.2

theorem samePacketIn_eq_some_iff {a b : Packet} {found : Bool} :
    samePacketIn a b = some found ↔ ¬ HugePair a b ∧ found = (comparePackets a b == 0) := by
  unfold samePacketIn
  split_ifs with h
  · simp [h]
  · simp [h, eq_comm]

/-- A search for a packet comes over no two huge ones if and only if there are none: a huge packet that
is equal is not found either. -/
theorem searchReads_samePacketIn_iff {α : Type} {f : α → Packet} {l : List α} {p : Packet} :
    SearchReads (fun x => samePacketIn (f x) p) l ↔ ∀ x ∈ l, ¬ HugePair (f x) p := by
  constructor
  · intro h
    induction l with
    | nil => exact fun _ hx => absurd hx List.not_mem_nil
    | cons x l ih =>
      obtain ⟨found, hfound, hreads⟩ := h
      obtain ⟨hpair, hsame⟩ := samePacketIn_eq_some_iff.mp hfound
      cases found with
      | false => exact List.forall_mem_cons.mpr ⟨hpair, ih (hreads rfl)⟩
      | true =>
        have hnot := not_huge_of_same (comparePackets_eq_zero_iff.mp (beq_iff_eq.mp hsame.symm)) hpair
        exact fun _ _ => not_hugePair_of_not_huge hnot
  · intro h
    refine searchReads_of_forall fun x hx => ?_
    rw [samePacketIn_eq_some_iff.mpr ⟨h x hx, rfl⟩]
    rfl

theorem findPacketIn_eq_some_iff {l : List Packet} {p : Packet} {r : Option Packet} :
    findPacketIn l p = some r ↔
      (∀ x ∈ l, ¬ HugePair x p) ∧ r = l.find? fun x => comparePackets x p == 0 := by
  rw [findPacketIn, findM?_eq_some_iff fun h => (samePacketIn_eq_some_iff.mp h).2]
  exact and_congr_left fun _ => searchReads_samePacketIn_iff (f := id)

theorem findSignedPacketIn_eq_some_iff {l : List SignedPacket} {p : Packet} {r : Option SignedPacket} :
    findSignedPacketIn l p = some r ↔
      (∀ x ∈ l, ¬ HugePair x.packet p) ∧ r = findSignedPacket l p := by
  rw [findSignedPacketIn, findM?_eq_some_iff fun h => (samePacketIn_eq_some_iff.mp h).2]
  exact and_congr_left fun _ => searchReads_samePacketIn_iff

theorem removeSignedPacketIn_eq {p : Packet} (hp : ¬ p.Huge) (l : List SignedPacket) :
    removeSignedPacketIn l p = some (removeSignedPacket l p) := by
  induction l with
  | nil => rfl
  | cons sp l ih =>
    have hsame := samePacketIn_eq_some_iff.mpr
      ⟨not_hugePair_of_not_huge hp, rfl (a := comparePackets sp.packet p == 0)⟩
    unfold removeSignedPacketIn removeSignedPacket
    rw [List.eraseP_cons]
    cases hfound : comparePackets sp.packet p == 0 with
    | true => simp [hsame, hfound]
    | false => simp [hsame, hfound, ih, removeSignedPacket]

theorem missingIn_eq_some_iff {find : Packet → Option (Option Packet)} {reads : Packet → Prop}
    {found : Packet → Option Packet} (hfind : ∀ {s r}, find s = some r ↔ reads s ∧ r = found s)
    {new r : List Packet} :
    missingIn find new = some r ↔
      (∀ s ∈ new, reads s) ∧ r = new.filter fun s => (found s).isNone := by
  induction new generalizing r with
  | nil =>
    exact ⟨fun h => ⟨fun _ hs => absurd hs List.not_mem_nil, (Option.some.inj h).symm⟩,
      fun h => by rw [h.2]; rfl⟩
  | cons s new ih =>
    unfold missingIn
    rw [Option.bind_eq_bind, Option.bind_eq_some_iff, List.forall_mem_cons, List.filter_cons]
    constructor
    · rintro ⟨f, hf, h⟩
      obtain ⟨hs, rfl⟩ := hfind.mp hf
      obtain ⟨rest, hrest, h⟩ := Option.bind_eq_some_iff.mp h
      obtain ⟨hnew, rfl⟩ := ih.mp hrest
      exact ⟨⟨hs, hnew⟩, (Option.some.inj h).symm⟩
    · rintro ⟨⟨hs, hnew⟩, rfl⟩
      refine ⟨found s, hfind.mpr ⟨hs, rfl⟩, ?_⟩
      rw [ih.mpr ⟨hnew, rfl⟩]
      rfl

/-! ## Signatures -/

/-- Where the variables are set, they are what `Onak.Merge` takes them for. -/
structure SigReading.Of (R : SigReading) (g : Stale) : Prop where
  keyid : ∀ {p k}, R.keyid p = some k → issuer g p = k
  creation : ∀ {p t}, R.creation p = some t → created g p = t

theorem Stale.reading_of (g : Stale) : g.reading.Of g := ⟨Option.some.inj, Option.some.inj⟩

variable {R : SigReading} {g : Stale}

variable (R) in
/-- Two signatures that `dedupe_sigs` cannot compare. -/
structure Undecided (x y : Packet) : Prop where
  tags : x.tag = tagSignature ∧ y.tag = tagSignature
  unread : x.data[0]? = none ∨ y.data[0]? = none ∨
    (x.data[0]? = y.data[0]? ∧ sigSigtype x = sigSigtype y ∧ (R.keyid x = none ∨ R.keyid y = none ∨
      (R.keyid x = R.keyid y ∧ R.keyid x ≠ some 0 ∧ sigIsRevocation (sigSigtype x) = false ∧
        (R.creation x = none ∨ R.creation y = none))))

variable (R) in
/-- Two signatures of one signer, between which `dedupe_sigs` decides. -/
structure Decided (x y : Packet) : Prop where
  tags : x.tag = tagSignature ∧ y.tag = tagSignature
  version : ∃ v, x.data[0]? = some v ∧ y.data[0]? = some v
  type : sigSigtype x = sigSigtype y
  keyid : ∃ k, k ≠ 0 ∧ R.keyid x = some k ∧ R.keyid y = some k
  creation : sigIsRevocation (sigSigtype x) = false →
    (∃ t, R.creation x = some t) ∧ ∃ t, R.creation y = some t

theorem Decided.not_undecided {x y : Packet} (h : Decided R x y) : ¬ Undecided R x y := by
  intro hu
  obtain ⟨v, hvx, hvy⟩ := h.version
  obtain ⟨k, -, hkx, hky⟩ := h.keyid
  rcases hu.unread with hu | hu | ⟨-, -, hu | hu | ⟨-, -, hrev, hu⟩⟩
  · exact absurd (hvx.symm.trans hu) (by simp)
  · exact absurd (hvy.symm.trans hu) (by simp)
  · exact absurd (hkx.symm.trans hu) (by simp)
  · exact absurd (hky.symm.trans hu) (by simp)
  · obtain ⟨⟨t, ht⟩, t', ht'⟩ := h.creation hrev
    rcases hu with hu | hu
    · exact absurd (ht.symm.trans hu) (by simp)
    · exact absurd (ht'.symm.trans hu) (by simp)

theorem Decided.matched (hR : R.Of g) {x y : Packet} (h : Decided R x y) :
    signaturesMatchSigner g x y = true := by
  obtain ⟨v, hvx, hvy⟩ := h.version
  obtain ⟨k, hzero, hkx, hky⟩ := h.keyid
  rw [signaturesMatchSigner_iff, hR.keyid hkx, hR.keyid hky]
  exact ⟨h.tags, hvx.trans hvy.symm, h.type, hzero, rfl⟩

/-- The three ways in which `dedupe_sigs` can look at two signatures. -/
theorem judgeSigsIn_cases (hR : R.Of g) (x y : Packet) :
    (judgeSigsIn R x y = none ∧ Undecided R x y) ∨
      (judgeSigsIn R x y = some none ∧ ¬ Undecided R x y ∧ signaturesMatchSigner g x y = false) ∨
      (judgeSigsIn R x y = some (some (innerWins g x y)) ∧ Decided R x y) := by
  have hnot : ∀ {P : Prop}, (signaturesMatchSigner g x y = true → ¬ P) → P →
      signaturesMatchSigner g x y = false := fun h hP => by simpa using fun hm => h hm hP
  unfold judgeSigsIn
  by_cases htags : x.tag ≠ tagSignature ∨ y.tag ≠ tagSignature
  · refine .inr (.inl ⟨if_pos htags, fun h => htags.elim (· h.tags.1) (· h.tags.2), hnot ?_ htags⟩)
    rw [signaturesMatchSigner_iff, not_or, not_not, not_not]
    exact fun h => h.1
  rw [if_neg htags]
  rw [not_or, not_not, not_not] at htags
  cases hx : x.data[0]? with
  | none => exact .inl ⟨rfl, htags, .inl hx⟩
  | some vx =>
  cases hy : y.data[0]? with
  | none => exact .inl ⟨rfl, htags, .inr (.inl hy)⟩
  | some vy =>
  have hread : Undecided R x y → vx = vy ∧ sigSigtype x = sigSigtype y ∧
      (R.keyid x = none ∨ R.keyid y = none ∨
        (R.keyid x = R.keyid y ∧ R.keyid x ≠ some 0 ∧ sigIsRevocation (sigSigtype x) = false ∧
          (R.creation x = none ∨ R.creation y = none))) := by
    intro h
    rcases h.unread with h | h | h
    · exact absurd (hx.symm.trans h) (by simp)
    · exact absurd (hy.symm.trans h) (by simp)
    · exact ⟨Option.some.inj (hx.symm.trans (h.1.trans hy)), h.2⟩
  simp only [Option.bind_eq_bind, Option.bind_some]
  by_cases hversion : vx = vy
  swap
  · refine .inr (.inl ⟨if_pos hversion, fun h => hversion (hread h).1, hnot ?_ hversion⟩)
    rw [signaturesMatchSigner_iff, hx, hy]
    exact fun h => not_not.mpr (Option.some.inj h.2.1)
  subst hversion
  rw [if_neg (not_not.mpr rfl)]
  by_cases htype : sigSigtype x = sigSigtype y
  swap
  · refine .inr (.inl ⟨if_pos htype, fun h => htype (hread h).2.1, hnot ?_ htype⟩)
    rw [signaturesMatchSigner_iff]
    exact fun h => not_not.mpr h.2.2.1
  rw [if_neg (not_not.mpr htype)]
  cases hkx : R.keyid x with
  | none => exact .inl ⟨rfl, htags, .inr (.inr ⟨hx.trans hy.symm, htype, .inl hkx⟩)⟩
  | some kx =>
  cases hky : R.keyid y with
  | none => exact .inl ⟨rfl, htags, .inr (.inr ⟨hx.trans hy.symm, htype, .inr (.inl hky)⟩)⟩
  | some ky =>
  have hstored : Undecided R x y → kx = ky ∧ kx ≠ 0 ∧ sigIsRevocation (sigSigtype x) = false ∧
      (R.creation x = none ∨ R.creation y = none) := by
    intro h
    rcases (hread h).2.2 with h | h | ⟨hkeyid, hzero, h⟩
    · exact absurd (hkx.symm.trans h) (by simp)
    · exact absurd (hky.symm.trans h) (by simp)
    · rw [hkx] at hkeyid hzero
      exact ⟨Option.some.inj (hkeyid.trans hky), fun h0 => hzero (congrArg some h0), h⟩
  simp only [Option.bind_some]
  by_cases hkeyid : kx = 0 ∨ ky = 0 ∨ kx ≠ ky
  · refine .inr (.inl ⟨if_pos hkeyid, fun h => ?_, hnot ?_ hkeyid⟩)
    · obtain ⟨rfl, hzero, -⟩ := hstored h
      exact hkeyid.elim hzero (·.elim hzero (· rfl))
    · rw [signaturesMatchSigner_iff, hR.keyid hkx, hR.keyid hky]
      rintro ⟨-, -, -, hzero, rfl⟩ h
      exact h.elim hzero (·.elim hzero (· rfl))
  rw [if_neg hkeyid]
  rw [not_or, not_or, not_not] at hkeyid
  obtain ⟨hzero, -, rfl⟩ := hkeyid
  have hdecided : (sigIsRevocation (sigSigtype x) = false →
      (∃ t, R.creation x = some t) ∧ ∃ t, R.creation y = some t) → Decided R x y :=
    fun h => ⟨htags, ⟨vx, hx, hy⟩, htype, ⟨kx, hzero, hkx, hky⟩, h⟩
  have hundecided : sigIsRevocation (sigSigtype x) = false →
      R.creation x = none ∨ R.creation y = none → Undecided R x y :=
    fun hrev h => ⟨htags, .inr (.inr ⟨hx.trans hy.symm, htype, .inr (.inr
      ⟨hkx.trans hky.symm, by rw [hkx]; exact fun h0 => hzero (Option.some.inj h0), hrev, h⟩)⟩)⟩
  unfold innerWins
  cases hrev : sigIsRevocation (sigSigtype x) with
  | true => exact .inr (.inr ⟨rfl, hdecided fun h => absurd (hrev.symm.trans h) (by simp)⟩)
  | false =>
  cases htx : R.creation x with
  | none => exact .inl ⟨rfl, hundecided hrev (.inl htx)⟩
  | some tx =>
  cases hty : R.creation y with
  | none => exact .inl ⟨rfl, hundecided hrev (.inr hty)⟩
  | some ty =>
    rw [hR.creation htx, hR.creation hty]
    exact .inr (.inr ⟨rfl, hdecided fun _ => ⟨⟨tx, htx⟩, ty, hty⟩⟩)

theorem Decided.symm {x y : Packet} (h : Decided R x y) : Decided R y x := by
  obtain ⟨v, hx, hy⟩ := h.version
  obtain ⟨k, hzero, hkx, hky⟩ := h.keyid
  exact ⟨h.tags.symm, ⟨v, hy, hx⟩, h.type.symm, ⟨k, hzero, hky, hkx⟩,
    fun hrev => (h.creation (by rw [h.type]; exact hrev)).symm⟩

theorem Undecided.symm {x y : Packet} (h : Undecided R x y) : Undecided R y x := by
  refine ⟨h.tags.symm, ?_⟩
  rcases h.unread with h | h | ⟨hversion, htype, h⟩
  · exact .inr (.inl h)
  · exact .inl h
  · refine .inr (.inr ⟨hversion.symm, htype.symm, ?_⟩)
    rcases h with h | h | ⟨hkeyid, hzero, hrev, h⟩
    · exact .inr (.inl h)
    · exact .inl h
    · exact .inr (.inr ⟨hkeyid.symm, by rw [← hkeyid]; exact hzero, by rw [← htype]; exact hrev, h.symm⟩)

/-- What cannot be compared with a signature cannot be compared with another one of the same signer. -/
theorem Undecided.alike {x y z : Packet} (h : Undecided R x y) (hyz : Decided R y z) :
    Undecided R x z := by
  obtain ⟨v, hvy, hvz⟩ := hyz.version
  obtain ⟨k, hzero, hky, hkz⟩ := hyz.keyid
  refine ⟨⟨h.tags.1, hyz.tags.2⟩, ?_⟩
  rcases h.unread with h | h | ⟨hversion, htype, h⟩
  · exact .inl h
  · exact absurd (hvy.symm.trans h) (by simp)
  · refine .inr (.inr ⟨hversion.trans (hvy.trans hvz.symm), htype.trans hyz.type, ?_⟩)
    rcases h with h | h | ⟨hkeyid, hne, hrev, h⟩
    · exact .inl h
    · exact absurd (hky.symm.trans h) (by simp)
    · refine .inr (.inr ⟨hkeyid.trans (hky.trans hkz.symm), hne, hrev, h.imp_right fun h => ?_⟩)
      obtain ⟨⟨t, ht⟩, -⟩ := hyz.creation (by rw [← htype]; exact hrev)
      exact absurd (ht.symm.trans h) (by simp)

theorem judgeSigsIn_eq_none_iff (hR : R.Of g) {x y : Packet} :
    judgeSigsIn R x y = none ↔ Undecided R x y := by
  rcases judgeSigsIn_cases hR x y with ⟨h, hu⟩ | ⟨h, hu, -⟩ | ⟨h, hd⟩
  · exact iff_of_true h hu
  · exact iff_of_false (by rw [h]; simp) hu
  · exact iff_of_false (by rw [h]; simp) hd.not_undecided

theorem Decided.of_judge (hR : R.Of g) {x y : Packet} {b : Bool}
    (h : judgeSigsIn R x y = some (some b)) : Decided R x y := by
  rcases judgeSigsIn_cases hR x y with ⟨h', -⟩ | ⟨h', -⟩ | ⟨-, hd⟩
  · exact absurd (h'.symm.trans h) (by simp)
  · exact absurd (h'.symm.trans h) (by simp)
  · exact hd

theorem judges_judgeSigsIn (hR : R.Of g) :
    Collapse.Judges (judgeSigsIn R) (signaturesMatchSigner g) (innerWins g) where
  eq_of_some := by
    intro x y v h
    rcases judgeSigsIn_cases hR x y with ⟨h', -⟩ | ⟨h', -, hm⟩ | ⟨h', hd⟩
    · exact absurd (h'.symm.trans h) (by simp)
    · rw [hm, if_neg (by simp)]
      exact (Option.some.inj (h'.symm.trans h)).symm
    · rw [if_pos (hd.matched hR)]
      exact (Option.some.inj (h'.symm.trans h)).symm
  symm := by
    intro x y h
    exact (judgeSigsIn_eq_none_iff hR).mpr ((judgeSigsIn_eq_none_iff hR).mp h).symm
  alike := by
    intro x y z b h hu
    exact (judgeSigsIn_eq_none_iff hR).mpr
      (((judgeSigsIn_eq_none_iff hR).mp hu).alike (Decided.of_judge hR h))
  alike_left := by
    intro x y z b h hu
    exact (judgeSigsIn_eq_none_iff hR).mpr
      (((judgeSigsIn_eq_none_iff hR).mp hu).alike (Decided.of_judge hR h).symm)

theorem dedupeSigsIn_eq_some_iff (hR : R.Of g) {l l' : List Packet} :
    dedupeSigsIn R l = some l' ↔
      (l.Pairwise fun s t => (judgeSigsIn R s t).isSome) ∧ l' = dedupeSigs g l :=
  Collapse.collapseIn_eq_some_iff (judges_judgeSigsIn hR)

/-- What `compare_signatures` does with two signatures whose versions, and types for version 4, are the
same. -/
theorem compareSignaturesIn_tail (hR : R.Of g) {a b : Packet} {same : Bool}
    (h : (do
      let aKeyid ← R.keyid a
      let bKeyid ← R.keyid b
      if aKeyid ≠ bKeyid then
        return false
      let aCreation ← R.creation a
      let bCreation ← R.creation b
      return aCreation == bCreation) = some same) :
    same = decide (created g a = created g b ∧ issuer g a = issuer g b) := by
  obtain ⟨ka, hka, h⟩ := Option.bind_eq_some_iff.mp h
  obtain ⟨kb, hkb, h⟩ := Option.bind_eq_some_iff.mp h
  rw [hR.keyid hka, hR.keyid hkb]
  split_ifs at h with hkeyid
  · rw [decide_eq_false fun h => hkeyid h.2]
    exact (Option.some.inj h).symm
  · obtain ⟨ta, hta, h⟩ := Option.bind_eq_some_iff.mp h
    obtain ⟨tb, htb, h⟩ := Option.bind_eq_some_iff.mp h
    rw [hR.creation hta, hR.creation htb, ← Option.some.inj h, not_not.mp hkeyid]
    simp [beq_eq_decide]

theorem compareSignaturesIn_sound (hR : R.Of g) {a b : Packet} {same : Bool}
    (h : compareSignaturesIn R a b = some same) : same = compareSignatures g a b := by
  unfold compareSignaturesIn at h
  obtain ⟨va, ha, h⟩ := Option.bind_eq_some_iff.mp h
  obtain ⟨vb, hb, h⟩ := Option.bind_eq_some_iff.mp h
  unfold compareSignatures
  rw [ha, hb]
  by_cases hversion : va = vb
  swap
  · rw [if_pos hversion] at h
    rw [if_pos (by simpa using hversion)]
    exact (Option.some.inj h).symm
  subst hversion
  rw [if_neg (not_not.mpr rfl)] at h ⊢
  by_cases hfour : va = 4
  swap
  · rw [if_neg hfour] at h
    rw [if_neg fun h => hfour (Option.some.inj h.1)]
    exact compareSignaturesIn_tail hR h
  rw [if_pos hfour] at h
  obtain ⟨ta, hta, h⟩ := Option.bind_eq_some_iff.mp h
  obtain ⟨tb, htb, h⟩ := Option.bind_eq_some_iff.mp h
  rw [hta, htb]
  by_cases htype : ta = tb
  swap
  · rw [if_pos htype] at h
    rw [if_pos ⟨congrArg some hfour, by simpa using htype⟩]
    exact (Option.some.inj h).symm
  rw [if_neg (not_not.mpr htype)] at h
  rw [if_neg fun h => h.2 (congrArg some htype)]
  exact compareSignaturesIn_tail hR h

/-! ## What `sig_info` sets -/

/-- What becomes of the creation time that a function is handed: it is set, whatever it was, or left as
it was, unless there is no result at all. -/
inductive SetsOrLeaves (f : Int → Option SigInfo) : Prop where
  | none : (∀ c, f c = .none) → SetsOrLeaves f
  | sets (status : Status) (keyid : Option UInt64) (t : Int) :
      (∀ c, f c = some ⟨status, keyid, some t⟩) → SetsOrLeaves f
  | leaves (status : Status) (keyid : Option UInt64) :
      (∀ c, f c = some ⟨status, keyid, some c⟩) → SetsOrLeaves f

theorem SetsOrLeaves.of_octets {octets : Option (List UInt8)} {f : List UInt8 → Int → Option SigInfo}
    (h : ∀ o, SetsOrLeaves (f o)) : SetsOrLeaves fun c => octets.bind fun o => f o c := by
  cases octets with
  | none => exact .none fun _ => rfl
  | some o => exact h o

/-- Handed a fixed time, it sets one. -/
theorem SetsOrLeaves.fixed {f : Int → Option SigInfo} (h : SetsOrLeaves f) (t : Int) :
    SetsOrLeaves fun _ => f t := by
  rcases h with h | ⟨status, keyid, t', h⟩ | ⟨status, keyid, h⟩
  · exact .none fun _ => h t
  · exact .sets status keyid t' fun _ => h t
  · exact .sets status keyid t fun _ => h t

theorem subpacketBody_setsOrLeaves (data : List UInt8) (offset packetlen : Nat)
    (keyid : Option UInt64) :
    SetsOrLeaves fun c => subpacketBody data offset packetlen keyid (some c) := by
  unfold subpacketBody
  cases data[offset]? with
  | none => exact .none fun _ => rfl
  | some type =>
    simp only [Option.bind_eq_bind, Option.bind_some]
    split_ifs with h1 h2 h3 h4 h5 h6 h7 h8
    · exact .leaves _ _ fun _ => rfl
    · exact .of_octets fun _ => .sets _ _ _ fun _ => rfl
    · exact .leaves _ _ fun _ => rfl
    · exact .leaves _ _ fun _ => rfl
    · exact .of_octets fun _ => .leaves _ _ fun _ => rfl
    · exact .leaves _ _ fun _ => rfl
    · exact .of_octets fun _ => .leaves _ _ fun _ => rfl
    · exact .leaves _ _ fun _ => rfl
    · exact .leaves _ _ fun _ => rfl
    · exact .leaves _ _ fun _ => rfl

theorem subpacketLoop_setsOrLeaves (data : List UInt8) (length fuel offset : Nat)
    (keyid : Option UInt64) :
    SetsOrLeaves fun c => subpacketLoop data length fuel offset keyid (some c) := by
  induction fuel generalizing offset keyid with
  | zero => exact .leaves _ _ fun _ => rfl
  | succ fuel ih =>
    unfold subpacketLoop
    by_cases hend : length ≤ offset + 2
    · simp only [if_pos hend]
      exact .leaves _ _ fun _ => rfl
    simp only [if_neg hend, Option.bind_eq_bind]
    cases subpacketLen data length offset with
    | none => exact .none fun _ => rfl
    | some header =>
    cases header with
    | none => exact .leaves _ _ fun _ => rfl
    | some header =>
    simp only [Option.bind_some]
    by_cases hbad : header.1 = 0 ∨ length - header.2 < header.1
    · simp only [if_pos hbad]
      exact .leaves _ _ fun _ => rfl
    simp only [if_neg hbad]
    rcases subpacketBody_setsOrLeaves data header.2 header.1 keyid with
      hbody | ⟨status, keyid', t, hbody⟩ | ⟨status, keyid', hbody⟩
    · simp only [hbody]
      exact .none fun _ => rfl
    · simp only [hbody, Option.bind_some]
      split_ifs
      · exact .sets status keyid' t fun _ => rfl
      · exact (ih (header.2 + header.1) keyid').fixed t
    · simp only [hbody, Option.bind_some]
      split_ifs
      · exact .leaves status keyid' fun _ => rfl
      · exact ih (header.2 + header.1) keyid'

theorem parseSubpackets_setsOrLeaves (data : List UInt8) (len : Nat) (keyid : Option UInt64) :
    SetsOrLeaves fun c => (parseSubpackets data len keyid (some c)).map Prod.snd := by
  unfold parseSubpackets
  by_cases hshort : len < 4
  · simp only [if_pos hshort]
    exact .leaves _ _ fun _ => rfl
  simp only [if_neg hshort, Option.bind_eq_bind]
  cases readOctets data 0 2 with
  | none => exact .none fun _ => rfl
  | some octets =>
  simp only [Option.bind_some]
  by_cases hover : len < beNat octets + 2
  · simp only [if_pos hover]
    exact .leaves _ _ fun _ => rfl
  simp only [if_neg hover]
  have hloop := subpacketLoop_setsOrLeaves data (beNat octets + 2) (beNat octets + 2) 2 keyid
  have hmap : ∀ r : Option SigInfo,
      (r.bind fun r => some (beNat octets + 2, r)).map Prod.snd = r := fun r => by cases r <;> rfl
  simp only [Option.pure_def, hmap]
  exact hloop

theorem subpacketBody_keyid_none {data : List UInt8} {offset packetlen : Nat} {creation : Option Int}
    {r : SigInfo} (h : subpacketBody data offset packetlen none creation = some r) : r.keyid = none := by
  obtain ⟨type, -, h⟩ := Option.bind_eq_some_iff.mp h
  simp only [Option.isNone_none, or_true, if_true] at h
  split_ifs at h
  · exact congrArg SigInfo.keyid (Option.some.inj h).symm
  · exact congrArg SigInfo.keyid (Option.some.inj h).symm
  · obtain ⟨octets, -, h⟩ := Option.bind_eq_some_iff.mp h
    exact congrArg SigInfo.keyid (Option.some.inj h).symm
  all_goals exact congrArg SigInfo.keyid (Option.some.inj h).symm

theorem subpacketLoop_keyid_none {data : List UInt8} {length fuel offset : Nat} {creation : Option Int}
    {r : SigInfo} (h : subpacketLoop data length fuel offset none creation = some r) :
    r.keyid = none := by
  induction fuel generalizing offset creation with
  | zero => exact congrArg SigInfo.keyid (Option.some.inj h).symm
  | succ fuel ih =>
    unfold subpacketLoop at h
    split_ifs at h
    · exact congrArg SigInfo.keyid (Option.some.inj h).symm
    · obtain ⟨header, -, h⟩ := Option.bind_eq_some_iff.mp h
      cases header with
      | none => exact congrArg SigInfo.keyid (Option.some.inj h).symm
      | some header =>
        simp only at h
        split_ifs at h
        · exact congrArg SigInfo.keyid (Option.some.inj h).symm
        · obtain ⟨body, hbody, h⟩ := Option.bind_eq_some_iff.mp h
          have hnone := subpacketBody_keyid_none hbody
          split_ifs at h
          · rw [← Option.some.inj h]
            exact hnone
          · rw [hnone] at h
            exact ih h

theorem parseSubpackets_keyid_none {data : List UInt8} {len : Nat} {creation : Option Int}
    {r : Nat × SigInfo} (h : parseSubpackets data len none creation = some r) :
    r.2.keyid = none := by
  unfold parseSubpackets at h
  split_ifs at h
  · exact congrArg (SigInfo.keyid ∘ Prod.snd) (Option.some.inj h).symm
  · obtain ⟨octets, -, h⟩ := Option.bind_eq_some_iff.mp h
    simp only at h
    split_ifs at h
    · exact congrArg (SigInfo.keyid ∘ Prod.snd) (Option.some.inj h).symm
    · obtain ⟨info, hinfo, h⟩ := Option.bind_eq_some_iff.mp h
      rw [← Option.some.inj h]
      exact subpacketLoop_keyid_none hinfo

/-- Without a key id, only the hashed subpackets are looked at. -/
theorem sigInfo_of_subpackets {p : Packet} {version : UInt8} (hversion : p.data[0]? = some version)
    (hold : ¬ (version = 2 ∨ version = 3)) (hnew : version = 4 ∨ version = 5) (creation : Option Int) :
    sigInfo p none creation =
      (parseSubpackets (p.data.drop 4) (sizeSub p.length 4) none creation).map Prod.snd := by
  unfold sigInfo
  simp only [hversion, Option.bind_eq_bind, Option.bind_some, if_neg hold, if_pos hnew, Option.map_none]
  cases hparse : parseSubpackets (p.data.drop 4) (sizeSub p.length 4) none creation with
  | none => rfl
  | some r =>
    have hnone := parseSubpackets_keyid_none hparse
    simp [hnone]


/-- What `sig_info` does with the creation time, when no key id is asked for. -/
theorem sigInfo_setsOrLeaves (p : Packet) : SetsOrLeaves fun c => sigInfo p none (some c) := by
  cases hversion : p.data[0]? with
  | none =>
    refine .none fun c => ?_
    rw [sigInfo, hversion]
    rfl
  | some version =>
    by_cases hold : version = 2 ∨ version = 3
    · unfold sigInfo
      simp only [hversion, Option.bind_eq_bind, Option.bind_some, if_pos hold, Option.isNone_none,
        if_true, Option.isNone_some, Bool.false_eq_true, if_false, Option.pure_def]
      cases readOctets p.data 3 4 with
      | none => exact .none fun _ => rfl
      | some octets => exact .sets _ _ _ fun _ => rfl
    · by_cases hnew : version = 4 ∨ version = 5
      · simp only [sigInfo_of_subpackets hversion hold hnew]
        exact parseSubpackets_setsOrLeaves _ _ none
      · unfold sigInfo
        simp only [hversion, Option.bind_eq_bind, Option.bind_some, if_neg hold, if_neg hnew]
        exact .leaves _ _ fun _ => rfl

/-- What `sig_info` does with the key id: for the known versions it does not look at it. -/
theorem sigInfo_keyid (p : Packet) :
    (∀ k, sigInfo p (some k) none = sigInfo p (some 0) none) ∨
      ∀ k, sigInfo p (some k) none = some ⟨.ok, some k, none⟩ := by
  unfold sigInfo
  cases p.data[0]? with
  | none => exact .inl fun _ => rfl
  | some version =>
    simp only [Option.bind_eq_bind, Option.bind_some]
    by_cases hold : version = 2 ∨ version = 3
    · simp only [if_pos hold]
      exact .inl fun _ => rfl
    · by_cases hnew : version = 4 ∨ version = 5
      · simp only [if_neg hold, if_pos hnew]
        exact .inl fun _ => rfl
      · simp only [if_neg hold, if_neg hnew]
        exact .inr fun _ => rfl

/-- Where the octets of the packet determine what `sig_info` sets, that is what it sets. -/
theorem setBySigInfo_of (g : Stale) : setBySigInfo.Of g where
  keyid := by
    intro p k h
    obtain ⟨r, hr, h⟩ := Option.bind_eq_some_iff.mp h
    obtain ⟨r', hr', h⟩ := Option.bind_eq_some_iff.mp h
    split_ifs at h with heq
    unfold issuer
    rcases sigInfo_keyid p with hset | hleft
    · rw [hset, hr, Option.bind_some, h]
      rfl
    · obtain rfl := Option.some.inj (hr.symm.trans (hleft 0))
      obtain rfl := Option.some.inj (hr'.symm.trans (hleft 1))
      exact absurd heq (by decide)
  creation := by
    intro p t h
    obtain ⟨r, hr, h⟩ := Option.bind_eq_some_iff.mp h
    obtain ⟨r', hr', h⟩ := Option.bind_eq_some_iff.mp h
    split_ifs at h with heq
    unfold created
    rcases sigInfo_setsOrLeaves p with hset | ⟨status, keyid, t', hset⟩ | ⟨status, keyid, hset⟩
    · exact absurd (hr.symm.trans (hset 0)) (by simp)
    · obtain rfl := Option.some.inj (hr.symm.trans (hset 0))
      rw [hset]
      exact Option.some.inj h
    · obtain rfl := Option.some.inj (hr.symm.trans (hset 0))
      obtain rfl := Option.some.inj (hr'.symm.trans (hset 1))
      exact absurd heq (by simp)

end Onak
