import Onak.Proofs.SigClassProofs

/-!
# Proofs: merging lists of signed packets

`merge_signed_packets` walks the old list and edits the new list as it goes. On lists without
repeated packets the two loops have a closed form (`mergeSignedPackets_fst`): each old packet is
merged with its counterpart, the packets that only the new list has are appended, and the difference
is computed packet by packet. That no packet is lost holds without that assumption.
-/

namespace Onak

/-! ## Looking packets up -/

theorem findSignedPacket_some {l : List SignedPacket} {p : Packet} {sp : SignedPacket}
    (h : findSignedPacket l p = some sp) : sp ∈ l ∧ sp.packet.Same p := by
  refine ⟨List.mem_of_find?_eq_some h, comparePackets_eq_zero_iff.mp ?_⟩
  simpa using List.find?_some h

theorem findSignedPacket_isNone {l : List SignedPacket} {p : Packet} :
    (findSignedPacket l p).isNone = true ↔ ¬ OnSigned l p := by
  simp [findSignedPacket, OnSigned, comparePackets_eq_zero_iff]

theorem findSignedPacket_none {l : List SignedPacket} {p : Packet} :
    findSignedPacket l p = none ↔ ¬ OnSigned l p := by
  rw [← findSignedPacket_isNone, Option.isNone_iff_eq_none]

theorem findSignedPacket_congr (l : List SignedPacket) {p q : Packet} (h : p.Same q) :
    findSignedPacket l p = findSignedPacket l q := by
  unfold findSignedPacket
  congr 1
  funext sp
  have hiff : comparePackets sp.packet p = 0 ↔ comparePackets sp.packet q = 0 := by
    rw [comparePackets_eq_zero_iff, comparePackets_eq_zero_iff]
    exact ⟨fun hp => hp.trans h, fun hq => hq.trans h.symm⟩
  rw [Bool.eq_iff_iff, beq_iff_eq, beq_iff_eq]
  exact hiff

theorem findSignedPacket_cons (sp : SignedPacket) (l : List SignedPacket) (p : Packet) :
    findSignedPacket (sp :: l) p =
      if sp.packet.Same p then some sp else findSignedPacket l p := by
  unfold findSignedPacket
  rw [List.find?_cons]
  by_cases h : sp.packet.Same p
  · simp [h, comparePackets_eq_zero_iff.mpr h]
  · have h' : (comparePackets sp.packet p == 0) = false := by
      simpa using fun h0 => h (comparePackets_eq_zero_iff.mp h0)
    simp [h, h']

theorem findSignedPacket_append (l l' : List SignedPacket) (p : Packet) :
    findSignedPacket (l ++ l') p = (findSignedPacket l p).or (findSignedPacket l' p) :=
  List.find?_append

theorem findSignedPacket_of_mem {l : List SignedPacket} (hl : NoRepeats l) {sp : SignedPacket}
    {p : Packet} (h : sp ∈ l) (hp : sp.packet.Same p) : findSignedPacket l p = some sp := by
  induction l with
  | nil => exact absurd h (by simp)
  | cons x l ih =>
    obtain ⟨hx, hl⟩ := List.pairwise_cons.mp hl
    rw [findSignedPacket_cons]
    rcases List.mem_cons.mp h with rfl | h
    · rw [if_pos hp]
    · rw [if_neg fun hxp => hx sp h (hxp.trans hp.symm)]
      exact ih hl h

theorem NoRepeats.unique {l : List SignedPacket} (hl : NoRepeats l) {x y : SignedPacket}
    (hx : x ∈ l) (hy : y ∈ l) (h : x.packet.Same y.packet) : x = y := by
  have h1 := findSignedPacket_of_mem hl hx h
  rw [findSignedPacket_of_mem hl hy (Packet.Same.refl _)] at h1
  exact (Option.some.inj h1).symm

theorem findSignedPacket_split {l : List SignedPacket} (hl : NoRepeats l) {p : Packet}
    {sp : SignedPacket} (h : findSignedPacket l p = some sp) :
    ∃ l₁ l₂, l = l₁ ++ sp :: l₂ ∧ ∀ x ∈ l₁ ++ l₂, ¬ x.packet.Same p := by
  obtain ⟨hmem, hsame⟩ := findSignedPacket_some h
  obtain ⟨l₁, l₂, rfl⟩ := List.append_of_mem hmem
  refine ⟨l₁, l₂, rfl, fun x hx hxp => ?_⟩
  obtain ⟨_, h2, h3⟩ := List.pairwise_append.mp hl
  have hxs := hxp.trans hsame.symm
  rcases List.mem_append.mp hx with hx | hx
  · exact h3 x hx sp (by simp) hxs
  · exact (List.pairwise_cons.mp h2).1 x hx hxs.symm

theorem removeSignedPacket_split {l₁ l₂ : List SignedPacket} {sp : SignedPacket} {p : Packet}
    (h : ∀ x ∈ l₁ ++ l₂, ¬ x.packet.Same p) (hsp : sp.packet.Same p) :
    removeSignedPacket (l₁ ++ sp :: l₂) sp.packet = l₁ ++ l₂ := by
  have h1 : ∀ x ∈ l₁, ¬ (comparePackets x.packet sp.packet == 0) = true := fun x hx hc =>
    h x (List.mem_append_left _ hx) ((comparePackets_eq_zero_iff.mp (by simpa using hc)).trans hsp)
  have h2 : (comparePackets sp.packet sp.packet == 0) = true := by
    simpa using comparePackets_eq_zero_iff.mpr (Packet.Same.refl sp.packet)
  unfold removeSignedPacket
  rw [List.eraseP_append_right _ h1, List.eraseP_cons, h2, cond_true]

theorem replaceSignedPacket_split {l₁ l₂ : List SignedPacket} {sp elem : SignedPacket} {p : Packet}
    (h : ∀ x ∈ l₁ ++ l₂, ¬ x.packet.Same p) (hsp : sp.packet.Same p)
    (helem : elem.packet = sp.packet) :
    replaceSignedPacket (l₁ ++ sp :: l₂) elem = l₁ ++ elem :: l₂ := by
  induction l₁ with
  | nil =>
    simp [replaceSignedPacket, helem, comparePackets_eq_zero_iff.mpr (Packet.Same.refl sp.packet)]
  | cons x l₁ ih =>
    have hx : (comparePackets x.packet elem.packet == 0) = false := by
      simp only [beq_eq_false_iff_ne, ne_eq, comparePackets_eq_zero_iff, helem]
      exact fun hc => h x (by simp) (hc.trans hsp)
    simp only [List.cons_append, replaceSignedPacket, hx, Bool.false_eq_true, if_false]
    rw [ih fun y hy => h y (by simp only [List.cons_append, List.mem_cons]; exact Or.inr hy)]

/-! ## The closed form -/

section

variable (g : Stale)

/-- The merged form of an old packet. -/
def mergedEntry (new : List SignedPacket) (o : SignedPacket) : SignedPacket :=
  match findSignedPacket new o.packet with
  | none => o
  | some n => (mergePacketSigs g o n).1

/-- What is left of a new packet in the difference: the signatures that `compare_signatures` equates
with none on the old packet. It disappears when it is on the old list and no signature is left. -/
def diffEntry (old : List SignedPacket) (n : SignedPacket) : Option SignedPacket :=
  let sigs := n.sigs.filter fun s => ¬ Equated g old n.packet s
  if OnSigned old n.packet ∧ sigs = [] then none else some { n with sigs := sigs }

variable {g}

theorem mergedEntry_packet (new : List SignedPacket) (o : SignedPacket) :
    (mergedEntry g new o).packet = o.packet := by
  unfold mergedEntry
  split <;> rfl

theorem onSigned_cons {cur : SignedPacket} {l : List SignedPacket} {p : Packet} :
    OnSigned (cur :: l) p ↔ cur.packet.Same p ∨ OnSigned l p := by
  simp [OnSigned]

theorem equated_cons {cur : SignedPacket} {l : List SignedPacket} {p s : Packet} :
    Equated g (cur :: l) p s ↔
      (cur.packet.Same p ∧ (findSignature g cur.sigs s).isSome) ∨ Equated g l p s := by
  simp [Equated]

theorem not_equated_of_not_on {l : List SignedPacket} {p s : Packet} (h : ¬ OnSigned l p) :
    ¬ Equated g l p s := fun ⟨o, ho, hs, _⟩ => h ⟨o, ho, hs⟩

theorem diffEntry_packet {old : List SignedPacket} {n d : SignedPacket}
    (h : diffEntry g old n = some d) : d.packet = n.packet := by
  unfold diffEntry at h
  simp only at h
  split_ifs at h
  obtain rfl := Option.some.inj h
  rfl

theorem diffEntry_of_not_on {old : List SignedPacket} {n : SignedPacket}
    (h : ¬ OnSigned old n.packet) : diffEntry g old n = some n := by
  have hall : n.sigs.filter (fun s => decide ¬ Equated g old n.packet s) = n.sigs :=
    List.filter_eq_self.mpr fun s _ => by simpa using not_equated_of_not_on h
  unfold diffEntry
  simp only [h, false_and, if_false, hall]

/-- On a list without repeats, one old packet decides what is left. -/
theorem diffEntry_of_mem {old : List SignedPacket} (ho : NoRepeats old) {o n : SignedPacket}
    (hmem : o ∈ old) (h : o.packet.Same n.packet) :
    diffEntry g old n = if newSigs g o.sigs n.sigs = [] then none
      else some { n with sigs := newSigs g o.sigs n.sigs } := by
  have heq : ∀ s, Equated g old n.packet s ↔ (findSignature g o.sigs s).isSome = true := by
    intro s
    refine ⟨fun ⟨o', ho', hs, hf⟩ => ?_, fun hf => ⟨o, hmem, h, hf⟩⟩
    obtain rfl := ho.unique ho' hmem (hs.trans h.symm)
    exact hf
  have hsigs : n.sigs.filter (fun s => decide ¬ Equated g old n.packet s) =
      newSigs g o.sigs n.sigs := by
    refine List.filter_congr fun s _ => ?_
    simp only [heq s]
    cases findSignature g o.sigs s <;> rfl
  have hon : OnSigned old n.packet := ⟨o, hmem, h⟩
  unfold diffEntry
  simp only [hsigs, hon, true_and]

/-- What is left after one old packet, and then after the others. -/
theorem diffEntry_cons (cur : SignedPacket) (old : List SignedPacket) (n : SignedPacket) :
    diffEntry g (cur :: old) n = (diffEntry g [cur] n).bind (diffEntry g old) := by
  by_cases h : cur.packet.Same n.packet
  · rw [diffEntry_of_mem (List.pairwise_singleton _ _) (List.mem_singleton_self _) h]
    have hon : OnSigned (cur :: old) n.packet := onSigned_cons.mpr (Or.inl h)
    have hsigs : n.sigs.filter (fun s => decide ¬ Equated g (cur :: old) n.packet s) =
        (newSigs g cur.sigs n.sigs).filter (fun s => decide ¬ Equated g old n.packet s) := by
      unfold newSigs
      rw [List.filter_filter]
      refine List.filter_congr fun s _ => ?_
      simp only [equated_cons, h, true_and, not_or]
      cases findSignature g cur.sigs s <;> simp
    unfold diffEntry
    simp only [hsigs, hon, true_and]
    by_cases hnil : newSigs g cur.sigs n.sigs = []
    · simp [hnil]
    · rw [if_neg hnil, Option.bind_some]
      by_cases hold : OnSigned old n.packet
      · simp only [hold, true_and]
      · have hall : (newSigs g cur.sigs n.sigs).filter
            (fun s => decide ¬ Equated g old n.packet s) = newSigs g cur.sigs n.sigs :=
          List.filter_eq_self.mpr fun s _ => by simpa using not_equated_of_not_on hold
        simp only [hall, hnil, hold, false_and, if_false]
  · have hnot : ¬ OnSigned [cur] n.packet := by simpa [OnSigned] using h
    rw [diffEntry_of_not_on hnot, Option.bind_some]
    unfold diffEntry
    simp only [equated_cons, onSigned_cons, h, false_and, false_or]

theorem NoRepeats.map_packet {l : List SignedPacket} (h : NoRepeats l)
    {f : SignedPacket → SignedPacket} (hf : ∀ x ∈ l, (f x).packet = x.packet) :
    NoRepeats (l.map f) := by
  unfold NoRepeats
  rw [List.pairwise_map]
  refine List.Pairwise.imp_of_mem (fun hx hy hxy => ?_) h
  rwa [hf _ hx, hf _ hy]

theorem NoRepeats.filterMap_packet {l : List SignedPacket} (h : NoRepeats l)
    {f : SignedPacket → Option SignedPacket}
    (hf : ∀ x ∈ l, ∀ y, f x = some y → y.packet = x.packet) : NoRepeats (l.filterMap f) := by
  unfold NoRepeats
  rw [List.pairwise_filterMap]
  refine List.Pairwise.imp_of_mem (fun hx hy hxy x' hx' y' hy' => ?_) h
  rwa [hf _ hx _ hx', hf _ hy _ hy']

/-- The new list after one round of the first loop. -/
theorem round_eq {new : List SignedPacket} {cur n : SignedPacket} (hn : NoRepeats new)
    (hf : findSignedPacket new cur.packet = some n) :
    (if (mergePacketSigs g cur n).2.sigs = [] then removeSignedPacket new n.packet
      else replaceSignedPacket new (mergePacketSigs g cur n).2) =
      new.filterMap (diffEntry g [cur]) := by
  obtain ⟨l₁, l₂, rfl, hl⟩ := findSignedPacket_split hn hf
  have hsame := (findSignedPacket_some hf).2
  have hside : ∀ x ∈ l₁ ++ l₂, diffEntry g [cur] x = some x := fun x hx =>
    diffEntry_of_not_on (by simpa [OnSigned] using fun hs => hl x hx (Packet.Same.symm hs))
  have hmid : diffEntry g [cur] n = if newSigs g cur.sigs n.sigs = [] then none
      else some { n with sigs := newSigs g cur.sigs n.sigs } :=
    diffEntry_of_mem (List.pairwise_singleton _ _) (List.mem_singleton_self _) hsame.symm
  have hs : (mergePacketSigs g cur n).2.sigs = newSigs g cur.sigs n.sigs := rfl
  rw [List.filterMap_append, List.filterMap_cons, hmid,
    List.filterMap_congr fun x hx => hside x (List.mem_append_left _ hx),
    List.filterMap_congr fun x hx => hside x (List.mem_append_right _ hx),
    List.filterMap_some, List.filterMap_some]
  by_cases hnil : newSigs g cur.sigs n.sigs = []
  · rw [if_pos (hs.trans hnil), if_pos hnil, removeSignedPacket_split hl hsame]
  · rw [if_neg (hs ▸ hnil), if_neg hnil]
    exact replaceSignedPacket_split hl hsame rfl

/-- One round of the first loop. -/
theorem mergeCommon_cons (cur : SignedPacket) (old : List SignedPacket) {new : List SignedPacket}
    (hn : NoRepeats new) :
    mergeCommon g (cur :: old) new =
      (mergedEntry g new cur :: (mergeCommon g old (new.filterMap (diffEntry g [cur]))).1,
        (mergeCommon g old (new.filterMap (diffEntry g [cur]))).2) := by
  cases hf : findSignedPacket new cur.packet with
  | none =>
    have hall : ∀ n ∈ new, diffEntry g [cur] n = some n := fun n hmem =>
      diffEntry_of_not_on (by
        simpa [OnSigned] using fun hs =>
          findSignedPacket_none.mp hf ⟨n, hmem, Packet.Same.symm hs⟩)
    rw [List.filterMap_congr hall, List.filterMap_some]
    simp only [mergeCommon, hf, mergedEntry]
  | some n =>
    simp only [mergeCommon, hf, mergedEntry]
    rw [round_eq hn hf]

theorem NoRepeats.diff {new : List SignedPacket} (hn : NoRepeats new) (old : List SignedPacket) :
    NoRepeats (new.filterMap (diffEntry g old)) :=
  hn.filterMap_packet fun _ _ _ h => diffEntry_packet h

theorem mergeCommon_diff (old : List SignedPacket) {new : List SignedPacket} (hn : NoRepeats new) :
    (mergeCommon g old new).2 = new.filterMap (diffEntry g old) := by
  induction old generalizing new with
  | nil =>
    have hall : ∀ n ∈ new, diffEntry g [] n = some n := fun n _ =>
      diffEntry_of_not_on (by simp [OnSigned])
    simp [mergeCommon, List.filterMap_congr hall]
  | cons cur old ih =>
    rw [mergeCommon_cons cur old hn, ih (hn.diff [cur]), List.filterMap_filterMap]
    exact List.filterMap_congr fun n _ => (diffEntry_cons cur old n).symm

theorem findSignedPacket_filterMap {l : List SignedPacket} (hl : NoRepeats l)
    {f : SignedPacket → Option SignedPacket} (hf : ∀ x y, f x = some y → y.packet = x.packet)
    (p : Packet) : findSignedPacket (l.filterMap f) p = (findSignedPacket l p).bind f := by
  induction l with
  | nil => rfl
  | cons x l ih =>
    obtain ⟨hx, hl⟩ := List.pairwise_cons.mp hl
    rw [findSignedPacket_cons, List.filterMap_cons]
    by_cases hxp : x.packet.Same p
    · have hnone : findSignedPacket l p = none := findSignedPacket_none.mpr fun ⟨y, hy, hyp⟩ =>
        hx y hy (hxp.trans hyp.symm)
      rw [if_pos hxp, Option.bind_some]
      cases hfx : f x with
      | none => simp only [ih hl, hnone, Option.bind_none]
      | some y => simp only [findSignedPacket_cons, hf x y hfx, hxp, if_true]
    · rw [if_neg hxp, ← ih hl]
      cases hfx : f x with
      | none => rfl
      | some y => simp only [findSignedPacket_cons, hf x y hfx, hxp, if_false]

theorem findSignedPacket_diff {new : List SignedPacket} (hn : NoRepeats new)
    (old : List SignedPacket) (p : Packet) :
    findSignedPacket (new.filterMap (diffEntry g old)) p =
      (findSignedPacket new p).bind (diffEntry g old) :=
  findSignedPacket_filterMap hn (fun _ _ h => diffEntry_packet h) p

theorem mergeCommon_merged {old new : List SignedPacket} (ho : NoRepeats old) (hn : NoRepeats new) :
    (mergeCommon g old new).1 = old.map (mergedEntry g new) := by
  induction old generalizing new with
  | nil => rfl
  | cons cur old ih =>
    obtain ⟨hcur, ho⟩ := List.pairwise_cons.mp ho
    have htail : old.map (mergedEntry g (new.filterMap (diffEntry g [cur]))) =
        old.map (mergedEntry g new) := by
      refine List.map_congr_left fun o hmem => ?_
      unfold mergedEntry
      rw [findSignedPacket_diff hn]
      cases hf : findSignedPacket new o.packet with
      | none => rfl
      | some n =>
        have hno : ¬ OnSigned [cur] n.packet := by
          simpa [OnSigned] using fun hs =>
            hcur o hmem (Packet.Same.trans hs (findSignedPacket_some hf).2)
        rw [Option.bind_some, diffEntry_of_not_on hno]
    rw [mergeCommon_cons cur old hn, ih ho (hn.diff [cur]), htail, List.map_cons]

theorem addMissing_eq {old new : List SignedPacket} (hn : NoRepeats new) :
    addMissing old new = old ++ new.filter fun n => (findSignedPacket old n.packet).isNone := by
  induction new generalizing old with
  | nil => simp [addMissing]
  | cons c new ih =>
    obtain ⟨hc, hn⟩ := List.pairwise_cons.mp hn
    unfold addMissing
    by_cases hf : (findSignedPacket old c.packet).isNone = true
    · have hcongr : ∀ n ∈ new, (findSignedPacket (old ++ [c]) n.packet).isNone =
          (findSignedPacket old n.packet).isNone := by
        intro n hn'
        rw [findSignedPacket_append, findSignedPacket_cons, if_neg (hc n hn')]
        simp [findSignedPacket]
      rw [if_pos hf, ih hn, List.filter_congr hcongr, List.filter_cons, if_pos hf]
      simp
    · rw [if_neg hf, ih hn, List.filter_cons, if_neg hf]

theorem diff_filter_not_on (old new : List SignedPacket) :
    (new.filterMap (diffEntry g old)).filter (fun n => (findSignedPacket old n.packet).isNone) =
      new.filter fun n => (findSignedPacket old n.packet).isNone := by
  induction new with
  | nil => rfl
  | cons n new ih =>
    by_cases h : OnSigned old n.packet
    · have hfalse : ∀ d : SignedPacket, d.packet = n.packet →
          ¬ (findSignedPacket old d.packet).isNone = true := fun d hd => by
        rw [findSignedPacket_isNone, hd]
        exact not_not.mpr h
      rw [List.filter_cons, if_neg (hfalse n rfl), ← ih]
      cases hd : diffEntry g old n with
      | none => rw [List.filterMap_cons_none hd]
      | some d =>
        rw [List.filterMap_cons_some hd, List.filter_cons, if_neg (hfalse d (diffEntry_packet hd))]
    · have htrue : (findSignedPacket old n.packet).isNone = true := findSignedPacket_isNone.mpr h
      rw [List.filterMap_cons_some (diffEntry_of_not_on h), List.filter_cons, if_pos htrue, ih,
        List.filter_cons, if_pos htrue]

theorem onSigned_mergeCommon (old new : List SignedPacket) (p : Packet) :
    OnSigned (mergeCommon g old new).1 p ↔ OnSigned old p := by
  induction old generalizing new with
  | nil => simp [mergeCommon]
  | cons cur old ih =>
    cases hf : findSignedPacket new cur.packet with
    | none =>
      have := ih new
      simp only [OnSigned, mergeCommon, hf, List.mem_cons, exists_eq_or_imp] at this ⊢
      rw [this]
    | some n =>
      simp only [OnSigned, mergeCommon, hf, List.mem_cons, exists_eq_or_imp] at ih ⊢
      rw [ih]
      rfl

/-- A merged list: the old packets, and the new packets that are not on the old list. -/
theorem mergeSignedPackets_fst_append (old : List SignedPacket) {new : List SignedPacket}
    (hn : NoRepeats new) :
    (mergeSignedPackets g old new).1 = (mergeCommon g old new).1 ++
      new.filter fun n => (findSignedPacket old n.packet).isNone := by
  have hon : ∀ n ∈ new.filterMap (diffEntry g old),
      (findSignedPacket (mergeCommon g old new).1 n.packet).isNone =
        (findSignedPacket old n.packet).isNone := by
    intro n _
    rw [Bool.eq_iff_iff, findSignedPacket_isNone, findSignedPacket_isNone, onSigned_mergeCommon]
  show addMissing (mergeCommon g old new).1 (mergeCommon g old new).2 = _
  rw [mergeCommon_diff old hn, addMissing_eq (hn.diff old), List.filter_congr hon,
    diff_filter_not_on]

theorem mergeSignedPackets_fst {old new : List SignedPacket} (ho : NoRepeats old)
    (hn : NoRepeats new) :
    (mergeSignedPackets g old new).1 = old.map (mergedEntry g new) ++
      new.filter fun n => (findSignedPacket old n.packet).isNone := by
  rw [mergeSignedPackets_fst_append old hn, mergeCommon_merged ho hn]

theorem mergeSignedPackets_snd (old : List SignedPacket) {new : List SignedPacket}
    (hn : NoRepeats new) : (mergeSignedPackets g old new).2 = new.filterMap (diffEntry g old) :=
  mergeCommon_diff old hn

/-! ## What the merge carries -/

theorem findSignature_some {l : List Packet} {r s : Packet} (h : findSignature g l s = some r) :
    r ∈ l ∧ compareSignatures g r s = true :=
  ⟨List.mem_of_find?_eq_some h, List.find?_some (p := fun x => compareSignatures g x s) h⟩

theorem mem_newSigs {old new : List Packet} {s : Packet} :
    s ∈ newSigs g old new ↔ s ∈ new ∧ ∀ r ∈ old, ¬ compareSignatures g r s = true := by
  simp [newSigs, findSignature]

theorem OnAll.trans {l₁ l₂ l₃ : List SignedPacket} (h : OnAll l₁ l₂) (h' : OnAll l₂ l₃) :
    OnAll l₁ l₃ := by
  intro sp hsp
  obtain ⟨x, hx, hs⟩ := h sp hsp
  exact (h' x hx).congr hs

theorem onSigned_of_mem {l : List SignedPacket} {sp : SignedPacket} (h : sp ∈ l) :
    OnSigned l sp.packet := ⟨sp, h, Packet.Same.refl _⟩

theorem onAll_refl (l : List SignedPacket) : OnAll l l := fun _ => onSigned_of_mem

theorem onSigned_remove_or {l : List SignedPacket} {p q : Packet} (h : OnSigned l p) :
    OnSigned (removeSignedPacket l q) p ∨ p.Same q := by
  obtain ⟨sp, hsp, hs⟩ := h
  by_cases hq : sp.packet.Same q
  · exact Or.inr (hs.symm.trans hq)
  · refine Or.inl ⟨sp, (List.mem_eraseP_of_neg ?_).mpr hsp, hs⟩
    simpa [comparePackets_eq_zero_iff] using hq

theorem onSigned_replace {l : List SignedPacket} {p : Packet} (h : OnSigned l p)
    (elem : SignedPacket) : OnSigned (replaceSignedPacket l elem) p := by
  induction l with
  | nil => exact h
  | cons x l ih =>
    obtain ⟨sp, hsp, hs⟩ := h
    unfold replaceSignedPacket
    split_ifs with hx
    · have hxe := comparePackets_eq_zero_iff.mp (by simpa using hx)
      rcases List.mem_cons.mp hsp with rfl | hsp
      · exact ⟨elem, by simp, hxe.symm.trans hs⟩
      · exact ⟨sp, by simp [hsp], hs⟩
    · rcases List.mem_cons.mp hsp with rfl | hsp
      · exact ⟨sp, by simp, hs⟩
      · obtain ⟨y, hy, hys⟩ := ih ⟨sp, hsp, hs⟩
        exact ⟨y, by simp [hy], hys⟩

/-- A packet leaves the new list in the first loop only when it is on the old one. -/
theorem mergeCommon_covers (old : List SignedPacket) {new : List SignedPacket} {p : Packet}
    (h : OnSigned new p) : OnSigned (mergeCommon g old new).2 p ∨ OnSigned old p := by
  induction old generalizing new with
  | nil => exact Or.inl h
  | cons cur old ih =>
    have hold : OnSigned old p → OnSigned (cur :: old) p := fun ⟨x, hx, hs⟩ => ⟨x, by simp [hx], hs⟩
    cases hf : findSignedPacket new cur.packet with
    | none =>
      simp only [mergeCommon, hf]
      exact (ih h).imp_right hold
    | some n =>
      simp only [mergeCommon, hf]
      split_ifs with hd
      · rcases onSigned_remove_or (q := n.packet) h with h | h
        · exact (ih h).imp_right hold
        · exact Or.inr ⟨cur, by simp, (h.trans (findSignedPacket_some hf).2).symm⟩
      · exact (ih (onSigned_replace h _)).imp_right hold

theorem onAll_addMissing_left (old new : List SignedPacket) : OnAll old (addMissing old new) := by
  induction new generalizing old with
  | nil => exact onAll_refl old
  | cons c new ih =>
    unfold addMissing
    split_ifs
    · exact fun sp hsp => ih (old ++ [c]) sp (by simp [hsp])
    · exact ih old

theorem onAll_addMissing_right (old new : List SignedPacket) : OnAll new (addMissing old new) := by
  induction new generalizing old with
  | nil => exact fun _ h => absurd h (by simp)
  | cons c new ih =>
    unfold addMissing
    intro sp hsp
    split_ifs with hf
    · rcases List.mem_cons.mp hsp with rfl | hsp
      · exact onAll_addMissing_left _ new sp (by simp)
      · exact ih _ sp hsp
    · rcases List.mem_cons.mp hsp with rfl | hsp
      · rw [findSignedPacket_isNone, not_not] at hf
        obtain ⟨x, hx, hs⟩ := hf
        exact (onAll_addMissing_left old new x hx).congr hs
      · exact ih _ sp hsp

theorem onAll_merge_old (old new : List SignedPacket) :
    OnAll old (mergeSignedPackets g old new).1 := by
  intro sp hsp
  obtain ⟨x, hx, hs⟩ := (onSigned_mergeCommon (g := g) old new _).mpr (onSigned_of_mem hsp)
  exact (onAll_addMissing_left _ _ x hx).congr hs

theorem onAll_merge_new (old new : List SignedPacket) :
    OnAll new (mergeSignedPackets g old new).1 := by
  intro sp hsp
  rcases mergeCommon_covers (g := g) old (onSigned_of_mem hsp) with ⟨x, hx, hs⟩ | h
  · exact (onAll_addMissing_right _ _ x hx).congr hs
  · obtain ⟨x, hx, hs⟩ := h
    exact (onAll_merge_old old new x hx).congr hs

end

/-! ## Merging keys -/

theorem mergeKeys_eq {H : Hashes} {g : Stale} {a b : PublicKey} (h : SameKeyid H a b) :
    mergeKeys H g a b =
      ⟨0, { a with
            sigs := a.sigs ++ b.sigs.filter fun s => !findPacket a.sigs s
            uids := (mergeSignedPackets g a.uids b.uids).1
            subkeys := (mergeSignedPackets g a.subkeys b.subkeys).1
            revoked := a.revoked || b.revoked },
          { b with
            sigs := b.sigs.filter fun s => !findPacket a.sigs s
            uids := (mergeSignedPackets g a.uids b.uids).2
            subkeys := (mergeSignedPackets g a.subkeys b.subkeys).2
            revoked := a.revoked || b.revoked }⟩ := by
  obtain ⟨hsome, heq⟩ := h
  obtain ⟨k, hk⟩ := Option.isSome_iff_exists.mp hsome
  have hb : getKeyid H b = some k := heq ▸ hk
  simp [mergeKeys, hk, hb]

end Onak
