import Onak.Proofs.MergeRunsProofs

/-!
# Proofs: merging two uploads in either order

`mergeKeys_comm_iff`: two uploads can be merged into a key in either order, with the same contents as
result, if and only if any two of the three keys can be merged. Where the variables of `sig_info` are
taken for functions of the octets of a signature, only a signature that is too short for a comparison
stands in the way. It is equated with none, so that whether a search comes to it depends on the order
in which the signatures are merged only by way of what `dedupe_sigs` drops before it, and that is of
another version.
-/

namespace Onak

variable {H : Hashes} {g : Stale}

/-! ## Signatures that can be compared -/

/-- `compare_signatures` finds the octets that it looks at. -/
def Comparable (x y : Packet) : Prop :=
  x.data ≠ [] ∧ y.data ≠ [] ∧
    (x.data[0]? = some 4 → y.data[0]? = some 4 → 2 ≤ x.length ∧ 2 ≤ y.length)

theorem Comparable.symm {x y : Packet} (h : Comparable x y) : Comparable y x :=
  ⟨h.2.1, h.1, fun hy hx => (h.2.2 hx hy).symm⟩

theorem Comparable.of_self {x y : Packet} (hx : Comparable x x) (hy : Comparable y y) :
    Comparable x y :=
  ⟨hx.1, hy.1, fun hvx hvy => ⟨(hx.2.2 hvx hvx).1, (hy.2.2 hvy hvy).1⟩⟩

theorem comparable_congr {x y z : Packet} (h : x.Same y) : Comparable x z ↔ Comparable y z := by
  unfold Comparable Packet.length
  rw [h.2]

/-- Where the variables are known, the comparison has a result whatever they hold. -/
theorem compareSignaturesIn_tail_isSome (x y : Packet) : (do
      let aKeyid ← g.reading.keyid x
      let bKeyid ← g.reading.keyid y
      if aKeyid ≠ bKeyid then
        return false
      let aCreation ← g.reading.creation x
      let bCreation ← g.reading.creation y
      return aCreation == bCreation).isSome = true := by
  simp only [Stale.reading, Option.bind_eq_bind, Option.bind_some]
  split_ifs <;> rfl

theorem compareSignaturesIn_isSome_iff {x y : Packet} :
    (compareSignaturesIn g.reading x y).isSome = true ↔ Comparable x y := by
  unfold compareSignaturesIn Comparable Packet.length
  cases hx : x.data with
  | nil => exact iff_of_false (by simp) fun h => h.1 rfl
  | cons v xs =>
  cases hy : y.data with
  | nil => exact iff_of_false (by simp) fun h => h.2.1 rfl
  | cons w ys =>
  simp only [List.getElem?_cons_zero, List.getElem?_cons_succ, Option.bind_eq_bind, Option.bind_some]
  by_cases hversion : v = w
  swap
  · rw [if_pos hversion]
    refine iff_of_true rfl ⟨List.cons_ne_nil v xs, List.cons_ne_nil w ys, fun hv hw => ?_⟩
    exact absurd ((Option.some.inj hv).trans (Option.some.inj hw).symm) hversion
  subst hversion
  rw [if_neg (not_not.mpr rfl)]
  by_cases hfour : v = 4
  swap
  · rw [if_neg hfour]
    refine iff_of_true (compareSignaturesIn_tail_isSome x y)
      ⟨List.cons_ne_nil v xs, List.cons_ne_nil v ys, fun hv => ?_⟩
    exact absurd (Option.some.inj hv) hfour
  rw [if_pos hfour]
  cases xs with
  | nil => exact iff_of_false (by simp) fun h => by simpa using h.2.2 (by rw [hfour]) (by rw [hfour])
  | cons t xs =>
  cases ys with
  | nil => exact iff_of_false (by simp) fun h => by simpa using h.2.2 (by rw [hfour]) (by rw [hfour])
  | cons u ys =>
  refine iff_of_true ?_ ⟨List.cons_ne_nil _ _, List.cons_ne_nil _ _, fun _ _ => by simp⟩
  simp only [List.getElem?_cons_zero, Option.bind_some]
  by_cases htype : t = u
  · rw [if_neg (not_not.mpr htype)]
    exact compareSignaturesIn_tail_isSome x y
  · rw [if_pos htype]
    rfl
theorem compareSignaturesIn_reading {x y : Packet} {same : Bool} :
    compareSignaturesIn g.reading x y = some same ↔
      Comparable x y ∧ same = compareSignatures g x y := by
  constructor
  · intro h
    exact ⟨compareSignaturesIn_isSome_iff.mp (by rw [h]; rfl), compareSignaturesIn_sound g.reading_of h⟩
  · rintro ⟨h, rfl⟩
    obtain ⟨same, hsame⟩ := Option.isSome_iff_exists.mp (compareSignaturesIn_isSome_iff (g := g).mpr h)
    rw [hsame, compareSignaturesIn_sound g.reading_of hsame]

theorem judgeSigsIn_reading {x y : Packet} : (judgeSigsIn g.reading x y).isSome = true ↔
    (x.tag = tagSignature → y.tag = tagSignature → x.data ≠ [] ∧ y.data ≠ []) := by
  rw [Option.isSome_iff_ne_none, ne_eq, judgeSigsIn_eq_none_iff g.reading_of]
  have hnone : ∀ p : Packet, p.data[0]? = none ↔ p.data = [] := fun p => by
    rw [List.getElem?_eq_none_iff, Nat.le_zero, List.length_eq_zero_iff]
  constructor
  · intro h hx hy
    exact ⟨fun hnil => h ⟨⟨hx, hy⟩, .inl ((hnone x).mpr hnil)⟩,
      fun hnil => h ⟨⟨hx, hy⟩, .inr (.inl ((hnone y).mpr hnil))⟩⟩
  · rintro h ⟨⟨hx, hy⟩, hunread⟩
    obtain ⟨hxne, hyne⟩ := h hx hy
    rcases hunread with h | h | ⟨-, -, h | h | ⟨-, -, -, h | h⟩⟩
    · exact hxne ((hnone x).mp h)
    · exact hyne ((hnone y).mp h)
    · exact absurd h (by simp [Stale.reading])
    · exact absurd h (by simp [Stale.reading])
    · exact absurd h (by simp [Stale.reading])
    · exact absurd h (by simp [Stale.reading])

/-! ## Searches -/

/-- A search for a signature in a list has a result. -/
abbrev Searched (g : Stale) (l : List Packet) (s : Packet) : Prop :=
  SearchReads (fun o => compareSignaturesIn g.reading o s) l

theorem searched_of_comparable {l : List Packet} {s : Packet} (h : ∀ y ∈ l, Comparable y s) :
    Searched g l s :=
  searchReads_of_forall fun y hy => compareSignaturesIn_isSome_iff.mpr (h y hy)

/-- A search that finds nothing comes over the whole list. -/
theorem comparable_of_searched {l : List Packet} {s : Packet} (h : Searched g l s)
    (hnot : ∀ x ∈ l, Comparable x s → ¬ compareSignatures g x s = true) : ∀ y ∈ l, Comparable y s := by
  induction l with
  | nil => exact fun _ hy => absurd hy List.not_mem_nil
  | cons x l ih =>
    rw [List.forall_mem_cons] at hnot ⊢
    obtain ⟨found, hfound, hrest⟩ := h
    obtain ⟨hx, rfl⟩ := compareSignaturesIn_reading.mp hfound
    exact ⟨hx, ih (hrest (by simpa using hnot.1 hx)) hnot.2⟩

/-- What is of another version makes no difference to a search. -/
theorem searched_filter {l : List Packet} {s : Packet} {p : Packet → Bool}
    (hp : ∀ y, ¬ p y = true → compareSignaturesIn g.reading y s = some false) :
    Searched g (l.filter p) s ↔ Searched g l s := by
  induction l with
  | nil => rfl
  | cons y l ih =>
    rw [List.filter_cons]
    unfold Searched at ih ⊢
    split_ifs with hy
    · unfold SearchReads
      simp only [ih]
    · rw [ih]
      constructor
      · exact fun h => ⟨false, hp y hy, fun _ => h⟩
      · rintro ⟨found, hfound, h⟩
        exact h (Option.some.inj (hfound.symm.trans (hp y hy)))

/-! ## Three signature lists -/

/-- A signature that cannot even be compared with itself, but with another one: it is the version octet
of a signature of version 4, and the other one is of another version. -/
theorem lone_version {x y : Packet} (hx : ¬ Comparable x x) (hxy : Comparable x y) :
    x.data[0]? = some 4 ∧ y.data[0]? ≠ some 4 := by
  have hlone : x.data[0]? = some 4 ∧ x.length < 2 := by
    by_contra hnot
    refine hx ⟨hxy.1, hxy.1, fun hv _ => ?_⟩
    have hlen : ¬ x.length < 2 := fun hlen => hnot ⟨hv, hlen⟩
    omega
  refine ⟨hlone.1, fun hy => ?_⟩
  have hlen := (hxy.2.2 hlone.1 hy).1
  omega

/-- `compare_signatures` equates only signatures of the two lists that are the same. -/
def Equates (g : Stale) (l l' : List Packet) : Prop :=
  ∀ x ∈ l, ∀ y ∈ l', compareSignatures g x y → x.Same y

theorem Equates.symm {l l' : List Packet} (h : Equates g l l') : Equates g l' l := by
  intro x hx y hy hxy
  refine (h y hy x hx ?_).symm
  rw [compareSignatures_iff] at hxy ⊢
  obtain ⟨hversion, htype, hcreated, hissuer⟩ := hxy
  exact ⟨hversion.symm, fun hy4 => (htype (hversion.trans hy4)).symm, hcreated.symm, hissuer.symm⟩

section

variable {l l' : List Packet}

/-- A signature that cannot be compared with itself is found nowhere. -/
theorem comparable_of_weak {s : Packet} (h : Searched g l s) (heq : Equates g l l')
    (hs : s ∈ l') (hweak : ¬ Comparable s s) : ∀ y ∈ l, Comparable y s :=
  comparable_of_searched h fun x hx hxs hsame => hweak ((comparable_congr (heq x hx s hs hsame)).mp hxs)

theorem comparable_of_new {s : Packet} (h : Searched g l s) (hs : s ∈ newSigs g l l') :
    ∀ y ∈ l, Comparable y s :=
  comparable_of_searched h fun x hx _ => (mem_newSigs.mp hs).2 x hx

variable (g l l') in
/-- Each signature of two lists is in the pool, or one of the same version is. -/
theorem exists_version_pool {x : Packet} (hx : x ∈ l ∨ x ∈ l') :
    ∃ r ∈ dedupeSigs g (pool g l l'), r.data[0]? = x.data[0]? := by
  have hpool : ∃ y ∈ pool g l l', y.data[0]? = x.data[0]? := by
    rcases hx with hx | hx
    · exact ⟨x, List.mem_append_left _ hx, rfl⟩
    · rcases mem_pool_or_found (g := g) l hx with h | h
      · exact ⟨x, h, rfl⟩
      · obtain ⟨r, hr⟩ := Option.isSome_iff_exists.mp h
        obtain ⟨hrl, hrx⟩ := findSignature_some hr
        exact ⟨r, List.mem_append_left _ hrl, (compareSignatures_iff.mp hrx).1⟩
  obtain ⟨y, hy, hyx⟩ := hpool
  rcases Collapse.collapse_covers (ranked (g := g)) hy with hmem | ⟨r, hr, hm, -⟩
  · exact ⟨y, hmem, hyx⟩
  · exact ⟨r, hr, (signaturesMatchSigner_iff.mp hm).2.1.symm.trans hyx⟩

end

section

variable {a b c : List Packet} (hda : dedupeSigs g a = a)
  (hab : SigsRead g.reading g a b) (hac : SigsRead g.reading g a c)

/-- Signatures of another version can be left out of a search. -/
theorem searched_version {l : List Packet} {s : Packet} (hs : s.data[0]? = some 4) :
    Searched g (l.filter fun y => y.data[0]? = none ∨ y.data[0]? = some 4) s ↔ Searched g l s := by
  refine searched_filter fun y hy => ?_
  rw [decide_eq_true_eq, not_or] at hy
  obtain ⟨v, hv⟩ := Option.ne_none_iff_exists'.mp hy.1
  have hne : v ≠ 4 := fun h => hy.2 (by rw [hv, h])
  rw [compareSignaturesIn, hv, hs]
  simp [hne]

/-- Where the signatures of the one list stand in the way of a search, the signatures that a merge adds
to it are of other versions. -/
theorem version_of_new (hab : SigsRead g.reading g a b) {y s : Packet} (hy : y ∈ a) (hweak : ¬ Comparable y y)
    (hs : Comparable s s) (hys : ¬ Comparable y s) {n : Packet} (hn : n ∈ newSigs g a b) :
    s.data[0]? = some 4 ∧ n.data ≠ [] ∧ n.data[0]? ≠ some 4 := by
  have hyn := comparable_of_new (hab.found n (mem_newSigs.mp hn).1) hn y hy
  obtain ⟨hy4, hn4⟩ := lone_version hweak hyn
  refine ⟨?_, hyn.2.1, hn4⟩
  by_contra hs4
  exact hys ⟨hyn.1, hs.1, fun _ h => absurd h hs4⟩

include hda hab hac in
/-- If each two of the lists can be merged, what merging the first two gives can be searched for what is
on the third one. -/
theorem searched_merged (hbc : SigsRead g.reading g b c) (hcb : SigsRead g.reading g c b)
    (eac : Equates g a c) (ebc : Equates g b c) {s : Packet} (hs : s ∈ c) :
    Searched g (dedupeSigs g (pool g a b)) s := by
  have hnew : ∀ t ∈ b, Comparable t s := by
    intro t ht
    by_cases hss : Comparable s s
    · by_cases htt : Comparable t t
      · exact htt.of_self hss
      · exact (comparable_of_weak (hcb.found t ht) ebc.symm ht htt s hs).symm
    · exact comparable_of_weak (hbc.found s hs) ebc hs hss t ht
  by_cases hall : ∀ y ∈ a, Comparable y s
  · refine searched_of_comparable fun y hy => ?_
    rcases mem_dedupeSigs_append hy with hy | hy
    · exact hall y hy
    · exact hnew y (mem_newSigs.mp hy).1
  · push Not at hall
    obtain ⟨y, hy, hys⟩ := hall
    have hss : Comparable s s := by
      by_contra hss
      exact hys (comparable_of_weak (hac.found s hs) eac hs hss y hy)
    have hyy : ¬ Comparable y y := fun hyy => hys (hyy.of_self hss)
    -- nothing that was merged is of the version of `s`
    have hother := fun {n} (hn : n ∈ newSigs g a b) => version_of_new hab hy hyy hss hys hn
    by_cases hs4 : s.data[0]? = some 4
    · have hnone : (newSigs g a b).filter
          (fun y => decide (y.data[0]? = none ∨ y.data[0]? = some 4)) = [] := by
        refine List.filter_eq_nil_iff.mpr fun n hn => ?_
        obtain ⟨-, hne, hn4⟩ := hother hn
        rw [decide_eq_true_eq, not_or, List.getElem?_eq_none_iff, not_le]
        exact ⟨List.length_pos_of_ne_nil hne, hn4⟩
      have hversion : ∀ x y, signaturesMatchSigner g x y → decide (x.data[0]? = none ∨ x.data[0]? = some 4) =
          decide (y.data[0]? = none ∨ y.data[0]? = some 4) := fun x y hxy => by
        rw [(signaturesMatchSigner_iff.mp hxy).2.1]
      rw [← searched_version hs4, dedupeSigs, Collapse.collapse_filter hversion, pool, List.filter_append,
        hnone, List.append_nil, ← Collapse.collapse_filter hversion, ← dedupeSigs, hda,
        searched_version hs4]
      exact hac.found s hs
    · have hnil : newSigs g a b = [] := List.eq_nil_iff_forall_not_mem.mpr fun n hn => hs4 (hother hn).1
      rw [pool, hnil, List.append_nil, hda]
      exact hac.found s hs

/-- A list of signatures with an empty one among them is merged with nothing. -/
theorem eq_nil_of_empty {l l' : List Packet} (h : SigsRead g.reading g l l') (heq : Equates g l l') {e : Packet} (he : e ∈ l')
    (hnil : e.data = []) : l = [] := by
  refine List.eq_nil_iff_forall_not_mem.mpr fun y hy => ?_
  exact (comparable_of_weak (h.found e he) heq he (fun hee => hee.1 hnil) y hy).2.1 hnil

/-- Any two signatures that are merged into a list can be compared by `dedupe_sigs`. -/
theorem judged_of_sigsRead {l l' : List Packet} (h : SigsRead g.reading g l l') (heq : Equates g l l') :
    l'.Pairwise fun x y => (judgeSigsIn g.reading x y).isSome = true := by
  by_cases hempty : ∃ e ∈ l', e.data = []
  · obtain ⟨e, he, hnil⟩ := hempty
    have hl := eq_nil_of_empty h heq he hnil
    have hj := h.judged
    have hpool : pool g l l' = l' := by
      rw [pool, hl, List.nil_append]
      exact List.filter_eq_self.mpr fun _ _ => rfl
    rwa [hpool] at hj
  · push Not at hempty
    refine List.pairwise_of_forall_mem_list fun x hx y hy => ?_
    exact judgeSigsIn_reading.mpr fun _ _ => ⟨hempty x hx, hempty y hy⟩

/-- A search that has a result although it does not get over an element finds one before that. -/
theorem exists_found_before {l : List Packet} {r : Packet → Packet → Prop} (hr : l.Pairwise r) {s y : Packet}
    (h : Searched g l s) (hy : y ∈ l) (hys : ¬ Comparable y s) :
    ∃ x ∈ l, compareSignatures g x s = true ∧ r x y := by
  induction l with
  | nil => exact absurd hy List.not_mem_nil
  | cons x l ih =>
    obtain ⟨hx, hl⟩ := List.pairwise_cons.mp hr
    obtain ⟨found, hfound, hrest⟩ := h
    obtain ⟨hxs, rfl⟩ := compareSignaturesIn_reading.mp hfound
    rcases List.mem_cons.mp hy with rfl | hy
    · exact absurd hxs hys
    · cases hsame : compareSignatures g x s with
      | true => exact ⟨x, List.mem_cons_self, hsame, hx y hy⟩
      | false =>
        obtain ⟨z, hz, hzs, hzy⟩ := ih hl (hrest hsame) hy
        exact ⟨z, List.mem_cons_of_mem x hz, hzs, hzy⟩

include hab hac in
theorem judged_merged (hcb : SigsRead g.reading g c b) (hbc : SigsRead g.reading g b c)
    (eac : Equates g a c) (ebc : Equates g b c) :
    (pool g (dedupeSigs g (pool g a b)) c).Pairwise fun x y => (judgeSigsIn g.reading x y).isSome = true := by
  refine List.pairwise_append.mpr ⟨hab.judged.sublist (Collapse.collapse_sublist _),
    (judged_of_sigsRead hac eac).sublist List.filter_sublist, fun x hx y hy => ?_⟩
  have hyc := (mem_newSigs.mp hy).1
  refine judgeSigsIn_reading.mpr fun hxt hyt => ⟨fun hnil => ?_, fun hnil => ?_⟩
  · rcases mem_dedupeSigs_append hx with hx | hx
    · -- the signature would be found before the empty one, which cannot be compared with it
      have hpair := (List.pairwise_append.mp hac.judged).1
      have hxy : ¬ Comparable x y := fun h => h.1 hnil
      obtain ⟨z, hz, hzy, hzx⟩ := exists_found_before hpair (hac.found y hyc) hx hxy
      have hzt : z.tag = tagSignature := (eac z hz y hyc hzy).1.trans hyt
      exact (judgeSigsIn_reading.mp hzx hzt hxt).2 hnil
    · have hc := eq_nil_of_empty hcb ebc.symm (mem_newSigs.mp hx).1 hnil
      rw [hc] at hyc
      exact absurd hyc List.not_mem_nil
  · rcases mem_dedupeSigs_append hx with hx | hx
    · rw [eq_nil_of_empty hac eac hyc hnil] at hx
      exact absurd hx List.not_mem_nil
    · have hxb := (mem_newSigs.mp hx).1
      rw [eq_nil_of_empty hbc ebc hyc hnil] at hxb
      exact absurd hxb List.not_mem_nil

/-- **Merging in a row**: if each two of three lists can be merged, the third one can be merged into what
merging the first two gives. -/
theorem SigsRead.merged (hda : dedupeSigs g a = a) (hab : SigsRead g.reading g a b)
    (hac : SigsRead g.reading g a c) (hbc : SigsRead g.reading g b c) (hcb : SigsRead g.reading g c b)
    (eac : Equates g a c) (ebc : Equates g b c) :
    SigsRead g.reading g (dedupeSigs g (pool g a b)) c :=
  ⟨fun _ hs => searched_merged hda hab hac hbc hcb eac ebc hs, judged_merged hab hac hcb hbc eac ebc⟩

/-- Conversely, where two lists can be merged into a third one in either order, they can be merged. -/
theorem SigsRead.of_merged (hab : SigsRead g.reading g a b) (hac : SigsRead g.reading g a c)
    (habc : SigsRead g.reading g (dedupeSigs g (pool g a b)) c)
    (hacb : SigsRead g.reading g (dedupeSigs g (pool g a c)) b)
    (eab : Equates g a b) (eac : Equates g a c) (ebc : Equates g b c) : SigsRead g.reading g b c := by
  have hmerged : Equates g (dedupeSigs g (pool g a b)) c := by
    intro x hx y hy
    rcases mem_dedupeSigs_append hx with hx | hx
    · exact eac x hx y hy
    · exact ebc x (mem_newSigs.mp hx).1 y hy
  have hmerged' : Equates g (dedupeSigs g (pool g a c)) b := by
    intro x hx y hy
    rcases mem_dedupeSigs_append hx with hx | hx
    · exact eab x hx y hy
    · exact ebc.symm x (mem_newSigs.mp hx).1 y hy
  refine ⟨fun s hs => searched_of_comparable fun y hy => ?_, ?_⟩
  · by_cases hss : Comparable s s
    · by_cases hyy : Comparable y y
      · exact hyy.of_self hss
      · -- a signature of the version of `s` is compared with `y`
        obtain ⟨r, hr, hrs⟩ := exists_version_pool g a c (.inr hs)
        have hry := comparable_of_weak (hacb.found y hy) hmerged' hy hyy r hr
        obtain ⟨hy4, hr4⟩ := lone_version hyy hry.symm
        exact ⟨hry.2.1, hss.1, fun _ hs4 => absurd (hrs.trans hs4) hr4⟩
    · obtain ⟨r, hr, hry⟩ := exists_version_pool g a b (.inr hy)
      have hrs := comparable_of_weak (habc.found s hs) hmerged hs hss r hr
      obtain ⟨hs4, hr4⟩ := lone_version hss hrs.symm
      refine ⟨fun hnil => ?_, hrs.2.1, fun hy4 => absurd (hry.trans hy4) hr4⟩
      rw [hnil, List.getElem?_nil, List.getElem?_eq_none_iff, Nat.le_zero, List.length_eq_zero_iff] at hry
      exact hrs.1 hry
  · refine List.pairwise_append.mpr ⟨judged_of_sigsRead hab eab,
      (judged_of_sigsRead hac eac).sublist List.filter_sublist, fun x hx y hy => ?_⟩
    have hyc := (mem_newSigs.mp hy).1
    refine judgeSigsIn_reading.mpr fun _ _ => ⟨fun hnil => ?_, fun hnil => ?_⟩
    · obtain ⟨r, hr, -⟩ := exists_version_pool g a c (.inr hyc)
      rw [eq_nil_of_empty hacb hmerged' hx hnil] at hr
      exact absurd hr List.not_mem_nil
    · obtain ⟨r, hr, -⟩ := exists_version_pool g a b (.inr hx)
      rw [eq_nil_of_empty habc hmerged hyc hnil] at hr
      exact absurd hr List.not_mem_nil

end

/-! ## Three keys -/

theorem Distinct.equates {l : List SignedPacket} (h : Distinct g l) {o n : SignedPacket} (ho : o ∈ l)
    (hn : n ∈ l) (hsame : o.packet.Same n.packet) : Equates g o.sigs n.sigs :=
  h.compared o ho n hn hsame

/-- What is on a merged list comes from the one list or the other. -/
theorem pairsRead_merge {a b c : List SignedPacket} (ha : NoRepeats a) (hb : NoRepeats b) :
    PairsRead (mergeSignedPackets g a b).1 c ↔ PairsRead a c ∧ PairsRead b c := by
  constructor
  · exact fun h => ⟨pairsRead_congr (onAll_merge_old a b) h, pairsRead_congr (onAll_merge_new a b) h⟩
  · rintro ⟨hac, hbc⟩ m hm
    rcases merged_cases ha hb hm with ⟨hma, -⟩ | ⟨o, ho, n, -, -, rfl⟩ | ⟨hmb, -⟩
    · exact hac m hma
    · exact hac o ho
    · exact hbc m hmb

section

variable {a b c : List SignedPacket} (ha : NoRepeats a) (hb : NoRepeats b) (hc : NoRepeats c)
  (hl : Distinct g (a ++ b ++ c)) (hab : SignedRead g.reading g a b) (hac : SignedRead g.reading g a c)
include ha hb hc hl hab hac

theorem SignedRead.merged (hda : Deduped g a) (hbc : SignedRead g.reading g b c)
    (hcb : SignedRead g.reading g c b) :
    SignedRead g.reading g (mergeSignedPackets g a b).1 c := by
  obtain ⟨-, -, sab⟩ := (signedRead_iff ha).mp hab
  obtain ⟨pac, nc, sac⟩ := (signedRead_iff ha).mp hac
  obtain ⟨pbc, -, sbc⟩ := (signedRead_iff hb).mp hbc
  obtain ⟨-, -, scb⟩ := (signedRead_iff hc).mp hcb
  refine (signedRead_iff (noRepeats_merged ha hb)).mpr
    ⟨(pairsRead_merge ha hb).mpr ⟨pac, pbc⟩, nc, fun m hm n hn hsame => ?_⟩
  rcases merged_cases ha hb hm with ⟨hma, -⟩ | ⟨o, ho, o', ho', hoo', rfl⟩ | ⟨hmb, -⟩
  · exact sac m hma n hn hsame
  · have hon : o.packet.Same n.packet := Packet.Same.symm hsame
    have hn' := hoo'.symm.trans hon
    exact SigsRead.merged (hda o ho) (sab o ho o' ho' hoo'.symm) (sac o ho n hn hsame)
      (sbc o' ho' n hn hn'.symm) (scb n hn o' ho' hn')
      (hl.equates (by simp [ho]) (by simp [hn]) hon) (hl.equates (by simp [ho']) (by simp [hn]) hn')
  · exact sbc m hmb n hn hsame

theorem SignedRead.of_merged (habc : SignedRead g.reading g (mergeSignedPackets g a b).1 c)
    (hacb : SignedRead g.reading g (mergeSignedPackets g a c).1 b) :
    SignedRead g.reading g b c := by
  obtain ⟨-, -, sab⟩ := (signedRead_iff ha).mp hab
  obtain ⟨-, nc, sac⟩ := (signedRead_iff ha).mp hac
  obtain ⟨pabc, -, sabc⟩ := (signedRead_iff (noRepeats_merged ha hb)).mp habc
  obtain ⟨-, -, sacb⟩ := (signedRead_iff (noRepeats_merged ha hc)).mp hacb
  refine (signedRead_iff hb).mpr ⟨((pairsRead_merge ha hb).mp pabc).2, nc, fun o ho n hn hsame => ?_⟩
  by_cases hon : OnSigned a o.packet
  · obtain ⟨x, hx, hxo⟩ := hon
    have hxn := hxo.trans hsame.symm
    -- both merges come to the packet
    have hmn := sabc _ (merged_of_common (g := g) ha hb hx ho hxo) n hn hxn.symm
    have hmo := sacb _ (merged_of_common (g := g) ha hc hx hn hxn) o ho hxo.symm
    exact SigsRead.of_merged (sab x hx o ho hxo.symm) (sac x hx n hn hxn.symm) hmn hmo
      (hl.equates (by simp [hx]) (by simp [ho]) hxo) (hl.equates (by simp [hx]) (by simp [hn]) hxn)
      (hl.equates (by simp [ho]) (by simp [hn]) hsame.symm)
  · exact sabc o (merged_of_new_only (g := g) ha hb ho hon) n hn hsame

end

/-- The three keys have a key id, and it is the same; none of them repeats a user id or subkey, and their
signature lists are fixed points of `dedupe_sigs`. -/
structure Replicas (H : Hashes) (R : SigReading) (a b c : PublicKey) : Prop where
  ab : SameKeyid H a b
  ac : SameKeyid H a c
  noRepeats : a.NoRepeats ∧ b.NoRepeats ∧ c.NoRepeats
  deduped : a.DedupedIn R ∧ b.DedupedIn R ∧ c.DedupedIn R

/-- Each two of the three keys can be merged. -/
structure AllRead (R : SigReading) (g : Stale) (a b c : PublicKey) : Prop where
  ab : KeysRead R g a b
  ac : KeysRead R g a c
  bc : KeysRead R g b c
  cb : KeysRead R g c b

theorem AllRead.swap {R : SigReading} {a b c : PublicKey} (h : AllRead R g a b c) : AllRead R g a c b :=
  ⟨h.ac, h.ab, h.cb, h.bc⟩

/-- No two different signatures on one packet of the three keys are equated by `compare_signatures`, and no
two different revocations by `signatures_match_signer`. -/
structure DistinctSigs (g : Stale) (a b c : PublicKey) : Prop where
  uids : Distinct g (a.uids ++ b.uids ++ c.uids)
  subkeys : Distinct g (a.subkeys ++ b.subkeys ++ c.subkeys)

section

variable {a b c : PublicKey} (hk : SameKeyid H a b)
  (ha : a.NoRepeats) (hb : b.NoRepeats) (hc : c.NoRepeats) (hl : DistinctSigs g a b c)
include hk ha hb hc hl

theorem AllRead.merged (hda : a.Deduped g) (h : AllRead g.reading g a b c) :
    KeysRead g.reading g (mergeKeys H g a b).a c := by
  rw [mergeKeys_eq hk]
  refine ⟨fun s hs t ht => ?_, ?_, ?_⟩
  · rcases List.mem_append.mp hs with hs | hs
    · exact h.ac.sigs s hs t ht
    · exact h.bc.sigs s (List.mem_filter.mp hs).1 t ht
  · exact h.ab.uids.merged ha.1 hb.1 hc.1 hl.uids h.ac.uids hda.1 h.bc.uids h.cb.uids
  · exact h.ab.subkeys.merged ha.2 hb.2 hc.2 hl.subkeys h.ac.subkeys hda.2 h.bc.subkeys h.cb.subkeys

theorem KeysRead.of_merged (hk' : SameKeyid H a c) (hab : KeysRead g.reading g a b)
    (hac : KeysRead g.reading g a c) (habc : KeysRead g.reading g (mergeKeys H g a b).a c)
    (hacb : KeysRead g.reading g (mergeKeys H g a c).a b) : KeysRead g.reading g b c := by
  rw [mergeKeys_eq hk] at habc
  rw [mergeKeys_eq hk'] at hacb
  refine ⟨fun s hs t ht hpair => ?_, ?_, ?_⟩
  · obtain ⟨x, hx, hxs⟩ := onList_merge_sigs (a := a.sigs) (List.mem_append_right a.sigs hs)
    exact habc.sigs x hx t ht ⟨hxs.1.trans hpair.1, hxs.huge_iff.mpr hpair.2.1, hpair.2.2⟩
  · exact hab.uids.of_merged ha.1 hb.1 hc.1 hl.uids hac.uids habc.uids hacb.uids
  · exact hab.subkeys.of_merged ha.2 hb.2 hc.2 hl.subkeys hac.subkeys habc.subkeys hacb.subkeys

end

/-- Merging `b` and `c` into `a` in either order gives keys with the same contents. -/
def Converges (H : Hashes) (R : SigReading) (a b c : PublicKey) : Prop :=
  ∃ ab abc ac acb, mergeKeysIn H R a b = some ab ∧ mergeKeysIn H R ab.a c = some abc ∧
    mergeKeysIn H R a c = some ac ∧ mergeKeysIn H R ac.a b = some acb ∧ SameContents abc.a acb.a

theorem DistinctSigs.swap {a b c : PublicKey} (h : DistinctSigs g a b c) : DistinctSigs g a c b := by
  refine ⟨h.uids.mono fun x hx => ?_, h.subkeys.mono fun x hx => ?_⟩
  · simp only [List.mem_append] at hx ⊢
    tauto
  · simp only [List.mem_append] at hx ⊢
    tauto

/-- **When replicas converge**: whenever each two of the three keys can be merged. -/
theorem mergeKeys_comm_iff {a b c : PublicKey} (h : Replicas H g.reading a b c)
    (hl : DistinctSigs g a b c) : Converges H g.reading a b c ↔ AllRead g.reading g a b c := by
  have hR := g.reading_of
  obtain ⟨ha, hb, hc⟩ := h.noRepeats
  obtain ⟨hda, hdb, hdc⟩ := h.deduped
  have hbc : SameKeyid H (mergeKeys H g a b).a c :=
    sameKeyid_congr h.ac (mergeKeys_a_publickey a b) rfl
  have hcb : SameKeyid H (mergeKeys H g a c).a b :=
    sameKeyid_congr h.ab (mergeKeys_a_publickey a c) rfl
  constructor
  · rintro ⟨ab, abc, ac, acb, hab, habc, hac, hacb, -⟩
    obtain ⟨rab, rfl⟩ := (mergeKeysIn_eq_some_iff hR h.ab hb).mp hab
    obtain ⟨rac, rfl⟩ := (mergeKeysIn_eq_some_iff hR h.ac hc).mp hac
    obtain ⟨rabc, rfl⟩ := (mergeKeysIn_eq_some_iff hR hbc hc).mp habc
    obtain ⟨racb, rfl⟩ := (mergeKeysIn_eq_some_iff hR hcb hb).mp hacb
    exact ⟨rab, rac, KeysRead.of_merged h.ab ha hb hc hl h.ac rab rac rabc racb,
      KeysRead.of_merged h.ac ha hc hb hl.swap h.ab rac rab racb rabc⟩
  · intro hread
    refine ⟨mergeKeys H g a b, mergeKeys H g (mergeKeys H g a b).a c, mergeKeys H g a c,
      mergeKeys H g (mergeKeys H g a c).a b, (mergeKeysIn_eq_some_iff hR h.ab hb).mpr ⟨hread.ab, rfl⟩,
      (mergeKeysIn_eq_some_iff hR hbc hc).mpr ⟨?_, rfl⟩,
      (mergeKeysIn_eq_some_iff hR h.ac hc).mpr ⟨hread.ac, rfl⟩,
      (mergeKeysIn_eq_some_iff hR hcb hb).mpr ⟨?_, rfl⟩, ?_⟩
    · exact hread.merged h.ab ha hb hc hl (hda.deduped hR)
    · exact hread.swap.merged h.ac ha hc hb hl.swap (hda.deduped hR)
    · exact mergeKeys_comm h.ab h.ac ha hb hc (hda.deduped hR) (hdb.deduped hR) (hdc.deduped hR)
        hl.uids hl.subkeys

/-- Two uploads that meet on a user id of the stored key. -/
theorem mergeKeys_comm_iff_sample :
    Converges sampleHashes zeroStale.reading (sampleKey [⟨sampleUid 65, [sampleSig 4 0x10 2]⟩] [])
      (sampleKey [⟨sampleUid 65, [sampleSig 4 0x10 1]⟩, ⟨sampleUid 66, []⟩] [])
      (sampleKey [⟨sampleUid 65, [sampleSig 4 0x10 3, sampleSig 4 0x30 3]⟩] []) := by
  refine (mergeKeys_comm_iff ⟨by decide, by decide, by decide, by decide⟩ ⟨by decide, by decide⟩).mpr
    ⟨?_, ?_, ?_, ?_⟩
  · exact keysRead_of_isSome (H := sampleHashes) zeroStale.reading_of (by decide) (by decide) (by decide)
  · exact keysRead_of_isSome (H := sampleHashes) zeroStale.reading_of (by decide) (by decide) (by decide)
  · exact keysRead_of_isSome (H := sampleHashes) zeroStale.reading_of (by decide) (by decide) (by decide)
  · exact keysRead_of_isSome (H := sampleHashes) zeroStale.reading_of (by decide) (by decide) (by decide)

/-- Two uploads bring a signature of one octet for a user id of the stored key: the second merge compares
it with itself. -/
theorem mergeKeys_comm_reads_behind :
    Replicas sampleHashes zeroStale.reading (sampleKey [⟨sampleUid 65, []⟩] [])
        (sampleKey [⟨sampleUid 65, [shortSig]⟩] []) (sampleKey [⟨sampleUid 65, [shortSig]⟩] []) ∧
      DistinctSigs zeroStale (sampleKey [⟨sampleUid 65, []⟩] [])
        (sampleKey [⟨sampleUid 65, [shortSig]⟩] []) (sampleKey [⟨sampleUid 65, [shortSig]⟩] []) ∧
      ¬ Converges sampleHashes zeroStale.reading (sampleKey [⟨sampleUid 65, []⟩] [])
        (sampleKey [⟨sampleUid 65, [shortSig]⟩] []) (sampleKey [⟨sampleUid 65, [shortSig]⟩] []) := by
  refine ⟨⟨by decide, by decide, by decide, by decide⟩, ⟨by decide, by decide⟩, ?_⟩
  rintro ⟨ab, abc, -, -, hab, habc, -⟩
  have hmerged := ((mergeKeysIn_eq_some_iff zeroStale.reading_of (by decide) (by decide)).mp hab).2
  rw [hmerged] at habc
  exact absurd (Option.isSome_of_eq_some habc) (by decide)

end Onak
