import Onak.Lib.Collapse
import Onak.Lib.Places
import Onak.Proofs.SigClassProofs
import Onak.Proofs.SigCompareProofs

/-!
# Proofs: dropping repeated signatures in memory

On signatures that set the variables, the loops of `dedupe_sigs` collapse the list as in
`Onak.Lib.Collapse` (`dedupeSigsAt_eq`), whatever the variables hold before. So what is left can be
said without the loops: of each version, type and issuer one signature, the first revocation or the
first of the latest certifications.
-/

namespace Onak

open SigNode (Determined SetsTime)

/-! ## The loops of `dedupe_sigs` -/

namespace DedupeVars

/-- The same up to the local variables of the inner loop. -/
structure Alike (v w : DedupeVars) : Prop where
  lastSig : v.lastSig = w.lastSig
  tailDirty : v.tailDirty = w.tailDirty
  dropped : v.dropped = w.dropped

theorem Alike.refl (v : DedupeVars) : v.Alike v := ⟨rfl, rfl, rfl⟩

theorem alike_locals (v : DedupeVars) (outerT innerT : Int) (calls : Nat) :
    Alike { v with outerT := outerT, innerT := innerT, calls := calls } v := ⟨rfl, rfl, rfl⟩

theorem Alike.trans {u v w : DedupeVars} (h : u.Alike v) (h' : v.Alike w) : u.Alike w :=
  ⟨h.lastSig.trans h'.lastSig, h.tailDirty.trans h'.tailDirty, h.dropped.trans h'.dropped⟩

theorem Alike.drop {v w : DedupeVars} (h : v.Alike w) (s : SigNode) :
    (v.drop s).Alike (w.drop s) := by
  have hcount : v.dropped + 1 = w.dropped + 1 := by rw [h.dropped]
  by_cases hs : w.lastSig = some (some s.addr)
  · rw [DedupeVars.drop, DedupeVars.drop, if_pos (h.lastSig.trans hs), if_pos hs]
    exact ⟨rfl, rfl, hcount⟩
  · rw [DedupeVars.drop, DedupeVars.drop, if_neg fun hv => hs (h.lastSig.symm.trans hv), if_neg hs]
    exact ⟨h.lastSig, h.tailDirty, hcount⟩

theorem Alike.drops {v w : DedupeVars} (h : v.Alike w) (l : List SigNode) :
    (l.foldl DedupeVars.drop v).Alike (l.foldl DedupeVars.drop w) := by
  induction l generalizing v w with
  | nil => exact h
  | cons s l ih => exact ih (h.drop s)

/-- What dropping some nodes one after the other does to the tail pointer and to the count. -/
theorem drops_eq (v : DedupeVars) (l : List SigNode) :
    (l.foldl DedupeVars.drop v).dropped = v.dropped + l.length ∧
      if ∃ s ∈ l, v.lastSig = some (some s.addr) then
        (l.foldl DedupeVars.drop v).lastSig = some none ∧
          (l.foldl DedupeVars.drop v).tailDirty = true
      else
        (l.foldl DedupeVars.drop v).lastSig = v.lastSig ∧
          (l.foldl DedupeVars.drop v).tailDirty = v.tailDirty := by
  induction l generalizing v with
  | nil => simp
  | cons s l ih =>
    obtain ⟨ihcount, ihtail⟩ := ih (v.drop s)
    rw [List.foldl_cons, List.length_cons]
    by_cases hs : v.lastSig = some (some s.addr)
    · have hdrop : v.drop s =
          { v with lastSig := some none, tailDirty := true, dropped := v.dropped + 1 } := if_pos hs
      rw [hdrop] at ihcount ihtail ⊢
      refine ⟨by rw [ihcount, Nat.add_right_comm, Nat.add_assoc], ?_⟩
      rw [if_pos ⟨s, List.mem_cons_self, hs⟩]
      simpa using ihtail
    · have hdrop : v.drop s = { v with dropped := v.dropped + 1 } := if_neg hs
      rw [hdrop] at ihcount ihtail ⊢
      refine ⟨by rw [ihcount, Nat.add_right_comm, Nat.add_assoc], ?_⟩
      have hiff : (∃ x ∈ s :: l, v.lastSig = some (some x.addr)) ↔
          ∃ x ∈ l, v.lastSig = some (some x.addr) := by
        simp [hs]
      simpa only [hiff] using ihtail

end DedupeVars

open Collapse

section

variable (junk : Nat → UInt64 × UInt64)

/-- The inner loop is the one of `Collapse`, and drops the nodes one after the other. -/
theorem dedupeInner_eq {outer : SigNode} (ho : outer.Determined) {l : List SigNode}
    (hl : ∀ s ∈ l, s.Determined) (v : DedupeVars) :
    ∃ v', dedupeInner junk outer l v = some ((scan sameSigner newerThan outer l).1,
        (scan sameSigner newerThan outer l).2.1, v') ∧
      v'.Alike ((scanned sameSigner newerThan outer l).foldl DedupeVars.drop v) := by
  induction l generalizing v with
  | nil => exact ⟨v, rfl, .refl v⟩
  | cons inner rest ih =>
    obtain ⟨hinner, hrest⟩ := List.forall_mem_cons.mp hl
    have hmatch := signaturesMatchSignerAt_eq ho hinner (junk v.calls).1 (junk v.calls).2
    simp only [dedupeInner, hmatch, Option.bind_eq_bind, Option.bind_some, scan, scanned]
    by_cases hm : sameSigner outer inner
    · by_cases hrev : sigIsRevocation (sigSigtype outer.packet)
      · have hnew : ¬ newerThan outer inner := by simp [newerThan, hrev]
        obtain ⟨v', heq, halike⟩ := ih hrest (({ v with calls := v.calls + 1 } : DedupeVars).drop inner)
        refine ⟨v', by simp [hm, hrev, hnew, heq], halike.trans ?_⟩
        rw [if_pos hm, if_neg hnew]
        exact ((v.alike_locals _ _ _).drop inner).drops _
      · by_cases htime : outer.created < inner.created
        · have hnew : newerThan outer inner := by simp [newerThan, hrev, htime]
          refine ⟨{ v with calls := v.calls + 1, outerT := outer.created, innerT := inner.created },
            by simp [hm, hrev, hnew, htime, ho.created, hinner.created], ?_⟩
          rw [if_pos hm, if_pos hnew]
          exact v.alike_locals _ _ _
        · have hnew : ¬ newerThan outer inner := by simp [newerThan, htime]
          obtain ⟨v', heq, halike⟩ := ih hrest
            (({ v with calls := v.calls + 1, outerT := outer.created,
                       innerT := inner.created } : DedupeVars).drop inner)
          refine ⟨v', by simp [hm, hrev, hnew, htime, ho.created, hinner.created, heq],
            halike.trans ?_⟩
          rw [if_pos hm, if_neg hnew]
          exact ((v.alike_locals _ _ _).drop inner).drops _
    · obtain ⟨v', heq, halike⟩ := ih hrest { v with calls := v.calls + 1 }
      refine ⟨v', by simp [hm, heq], halike.trans ?_⟩
      rw [if_neg hm]
      exact (v.alike_locals _ _ _).drops _

theorem dedupeOuter_eq {fuel : Nat} {l : List SigNode} (hfuel : l.length ≤ fuel)
    (hl : ∀ s ∈ l, s.Determined) (v : DedupeVars) :
    ∃ v', dedupeOuter junk fuel l v = some (collapse sameSigner newerThan l, v') ∧
      v'.Alike ((victims sameSigner newerThan l).foldl DedupeVars.drop v) := by
  induction fuel generalizing l v with
  | zero =>
    obtain rfl : l = [] := List.length_eq_zero_iff.mp (by omega)
    exact ⟨v, rfl, .refl v⟩
  | succ fuel ih =>
    cases l with
    | nil => exact ⟨v, rfl, .refl v⟩
    | cons outer rest =>
      obtain ⟨ho, hrest⟩ := List.forall_mem_cons.mp hl
      obtain ⟨v₁, hinner, halike₁⟩ := dedupeInner_eq junk ho hrest v
      have hsub := @scan_sublist _ sameSigner newerThan outer rest
      have hlen := hsub.length_le
      rw [List.length_cons] at hfuel
      have hstep := ih (l := (scan sameSigner newerThan outer rest).2.1) (by omega)
        (fun s hs => hrest s (hsub.subset hs))
      simp only [dedupeOuter, hinner, Option.bind_eq_bind, Option.bind_some, victims_cons,
        collapse_cons, List.foldl_append]
      by_cases hdrop : (scan sameSigner newerThan outer rest).1
      · obtain ⟨v₂, houter, halike₂⟩ := hstep (v₁.drop outer)
        refine ⟨v₂, by simp [hdrop, houter], halike₂.trans ?_⟩
        simp only [hdrop, if_true, List.foldl_cons, List.foldl_nil]
        exact (halike₁.drop outer).drops _
      · obtain ⟨v₂, houter, halike₂⟩ := hstep v₁
        refine ⟨v₂, by simp [hdrop, houter], halike₂.trans ?_⟩
        simp only [hdrop]
        exact halike₁.drops _

/-- `dedupe_sigs` on signatures that set the variables: what is left, and the tail pointer, which is
looked for again when its node is dropped. -/
theorem dedupeSigsAt_eq {sigs : List SigNode} (hsigs : ∀ s ∈ sigs, s.Determined)
    (outerT innerT : Int) (lastSig : Option (Option Nat)) :
    dedupeSigsAt junk outerT innerT lastSig sigs =
      some ⟨collapse sameSigner newerThan sigs,
        if ∃ s ∈ victims sameSigner newerThan sigs, lastSig = some (some s.addr) then
          some ((collapse sameSigner newerThan sigs).getLast?.map SigNode.addr)
        else lastSig,
        (victims sameSigner newerThan sigs).length⟩ := by
  obtain ⟨v', houter, hlast, hdirty, hcount⟩ := dedupeOuter_eq junk le_rfl hsigs
    ⟨lastSig, false, 0, outerT, innerT, 0⟩
  obtain ⟨hcount', htail⟩ := DedupeVars.drops_eq ⟨lastSig, false, 0, outerT, innerT, 0⟩
    (victims sameSigner newerThan sigs)
  rw [hcount', Nat.zero_add] at hcount
  unfold dedupeSigsAt
  simp only [houter, Option.bind_eq_bind, Option.bind_some, hlast, hdirty, hcount]
  split_ifs at htail ⊢ <;> simp_all

end

/-! ## What is left -/

section

theorem sameSigner_iff {x y : SigNode} : sameSigner x y = true ↔
    x.packet.tag = tagSignature ∧ y.packet.tag = tagSignature ∧ x.memory[0]? = y.memory[0]? ∧
      sigSigtype x.packet = sigSigtype y.packet ∧ x.issuer ≠ 0 ∧ x.issuer = y.issuer := by
  unfold sameSigner
  exact decide_eq_true_iff

variable (sigs : List SigNode)

/-- Of two signatures of one signer, neither of which is newer, the first one of the list wins. -/
def newerAt (x y : SigNode) : Bool :=
  newerThan x y || !newerThan y x && decide (sigs.idxOf y < sigs.idxOf x)

variable {sigs}

theorem newerAt_iff {x y : SigNode} (h : sigSigtype x.packet = sigSigtype y.packet) :
    newerAt sigs x y = true ↔ if sigIsRevocation (sigSigtype x.packet) then
        sigs.idxOf y < sigs.idxOf x
      else x.created < y.created ∨ x.created = y.created ∧ sigs.idxOf y < sigs.idxOf x := by
  unfold newerAt newerThan
  rw [← h]
  by_cases hrev : sigIsRevocation (sigSigtype x.packet) = true
  · simp [hrev]
  · simp only [hrev, Bool.not_false, Bool.true_and, Bool.or_eq_true, Bool.and_eq_true,
      Bool.not_eq_true', decide_eq_true_eq, decide_eq_false_iff_not]
    simp only [Bool.false_eq_true, if_false]
    omega

variable (sigs) in
theorem ranked_newerAt : Ranked sameSigner (newerAt sigs) where
  symm {x y} h := by
    rw [sameSigner_iff] at h ⊢
    obtain ⟨hx, hy, hversion, htype, hne, hissuer⟩ := h
    exact ⟨hy, hx, hversion.symm, htype.symm, hissuer ▸ hne, hissuer.symm⟩
  trans {x y z} h h' := by
    rw [sameSigner_iff] at h h' ⊢
    obtain ⟨hx, -, hversion, htype, hne, hissuer⟩ := h
    obtain ⟨-, hz, hversion', htype', -, hissuer'⟩ := h'
    exact ⟨hx, hz, hversion.trans hversion', htype.trans htype', hne, hissuer.trans hissuer'⟩
  asymm {x y} h hn := by
    have htype := (sameSigner_iff.mp h).2.2.2.1
    rw [newerAt_iff htype] at hn
    rw [newerAt_iff htype.symm, ← htype]
    split_ifs at hn ⊢ <;> omega
  not_newer_trans {x y z} h h' hn hn' := by
    have htype := (sameSigner_iff.mp h).2.2.2.1
    have htype' := (sameSigner_iff.mp h').2.2.2.1
    rw [newerAt_iff htype] at hn
    rw [newerAt_iff htype', ← htype] at hn'
    rw [newerAt_iff (htype.trans htype')]
    split_ifs at hn hn' ⊢ <;> omega

/-- The loops only compare a signature with later ones, so ties do not matter. -/
theorem collapse_newerAt (hnodup : sigs.Nodup) :
    collapse sameSigner newerThan sigs = collapse sameSigner (newerAt sigs) sigs := by
  refine collapse_congr ((Places.pairwise_idxOf hnodup).imp fun {x y} hlt => ?_)
  unfold newerAt
  rw [decide_eq_false (not_lt.mpr hlt.le), Bool.and_false, Bool.or_false]

theorem newerAt_total {x y : SigNode} (hx : x ∈ sigs) (hm : sameSigner x y) (hne : x ≠ y) :
    newerAt sigs x y ∨ newerAt sigs y x := by
  have htype := (sameSigner_iff.mp hm).2.2.2.1
  have hidx : sigs.idxOf x ≠ sigs.idxOf y := fun h => hne ((List.idxOf_inj hx).mp h)
  rw [newerAt_iff htype, newerAt_iff htype.symm, ← htype]
  split_ifs <;> omega

/-- Signatures of one class: the same version, type and issuer. -/
structure SameClass (s t : SigNode) : Prop where
  version : s.packet.data[0]? = t.packet.data[0]?
  sigtype : sigSigtype s.packet = sigSigtype t.packet
  issuer : s.issuer = t.issuer

variable (sigs) in
/-- The signature that stands for its class: the first revocation, or the first of the latest
certifications. -/
def Chosen (s : SigNode) : Prop :=
  ∀ t ∈ sigs, SameClass s t →
    if sigIsRevocation (sigSigtype s.packet) then sigs.idxOf s ≤ sigs.idxOf t
    else t.created < s.created ∨ t.created = s.created ∧ sigs.idxOf s ≤ sigs.idxOf t

/-- What `dedupe_sigs` leaves of a list, for a tail pointer before it. -/
structure DedupedAt (sigs : List SigNode) (lastSig : Option (Option Nat)) (r : DedupeResult) :
    Prop where
  /-- The order is kept. -/
  sublist : r.sigs.Sublist sigs
  /-- Signatures without an issuer and the one that stands for its class stay, and no others. -/
  mem_iff : ∀ s ∈ sigs, s ∈ r.sigs ↔ s.issuer = 0 ∨ Chosen sigs s
  /-- A signature alone in its class stays. -/
  alone : ∀ s ∈ sigs, (∀ t ∈ sigs, SameClass s t → t = s) → s ∈ r.sigs
  /-- Of each class with an issuer, exactly one stays. -/
  unique : ∀ s ∈ sigs, s.issuer ≠ 0 → ∃! t, t ∈ r.sigs ∧ SameClass s t
  /-- What is returned. -/
  count : r.sigs.length + r.dropped = sigs.length
  /-- A tail pointer to the last node points to the last node again. -/
  tail : lastSig = some (sigs.getLast?.map SigNode.addr) →
    r.lastSig = some (r.sigs.getLast?.map SigNode.addr)

/-- Signatures as `dedupe_sigs` expects them: each in a node of its own, with a type and with an
issuer and a creation time that `sig_info` gives. -/
structure SigListOk (sigs : List SigNode) : Prop where
  nodes : (sigs.map SigNode.addr).Nodup
  tag : ∀ s ∈ sigs, s.packet.tag = tagSignature
  length : ∀ s ∈ sigs, 3 ≤ s.packet.length
  determined : ∀ s ∈ sigs, s.Determined

theorem memory_head {s : SigNode} (h : 3 ≤ s.packet.length) :
    s.memory[0]? = s.packet.data[0]? := by
  rw [SigNode.memory, List.getElem?_append_left (by unfold Packet.length at h; omega)]

theorem SigListOk.sameClass_iff (h : SigListOk sigs) {s t : SigNode} (hs : s ∈ sigs)
    (ht : t ∈ sigs) : sameSigner s t = true ↔ s.issuer ≠ 0 ∧ SameClass s t := by
  rw [sameSigner_iff, memory_head (h.length s hs), memory_head (h.length t ht)]
  constructor
  · rintro ⟨-, -, hversion, htype, hne, hissuer⟩
    exact ⟨hne, hversion, htype, hissuer⟩
  · rintro ⟨hne, hclass⟩
    exact ⟨h.tag s hs, h.tag t ht, hclass.version, hclass.sigtype, hne, hclass.issuer⟩

theorem SigListOk.best_iff (h : SigListOk sigs) {s : SigNode} (hs : s ∈ sigs) :
    Best sameSigner (newerAt sigs) sigs s ↔ s.issuer = 0 ∨ Chosen sigs s := by
  have hpair : ∀ t, SameClass s t → (¬ newerAt sigs s t = true ↔
      if sigIsRevocation (sigSigtype s.packet) then sigs.idxOf s ≤ sigs.idxOf t
      else t.created < s.created ∨ t.created = s.created ∧ sigs.idxOf s ≤ sigs.idxOf t) := by
    intro t hclass
    rw [newerAt_iff hclass.sigtype]
    split_ifs <;> omega
  constructor
  · intro hbest
    by_cases hzero : s.issuer = 0
    · exact .inl hzero
    · refine .inr fun t ht hclass => (hpair t hclass).mp ?_
      exact hbest t ht ((h.sameClass_iff hs ht).mpr ⟨hzero, hclass⟩)
  · rintro hor t ht hm
    obtain ⟨hne, hclass⟩ := (h.sameClass_iff hs ht).mp hm
    rcases hor with hzero | hchosen
    · exact absurd hzero hne
    · exact (hpair t hclass).mpr (hchosen t ht hclass)

theorem SigListOk.mem_collapse_iff (h : SigListOk sigs) {s : SigNode} (hs : s ∈ sigs) :
    s ∈ collapse sameSigner newerThan sigs ↔ s.issuer = 0 ∨ Chosen sigs s := by
  rw [collapse_newerAt h.nodes.of_map, Collapse.mem_collapse_iff (ranked_newerAt sigs)
    fun x hx y _ hm hne => newerAt_total hx hm hne]
  exact ⟨fun hmem => (h.best_iff hs).mp hmem.2, fun hor => ⟨hs, (h.best_iff hs).mpr hor⟩⟩

theorem SameClass.refl (s : SigNode) : SameClass s s := ⟨rfl, rfl, rfl⟩

theorem SameClass.symm {s t : SigNode} (h : SameClass s t) : SameClass t s :=
  ⟨h.version.symm, h.sigtype.symm, h.issuer.symm⟩

theorem SameClass.trans {s t u : SigNode} (h : SameClass s t) (h' : SameClass t u) :
    SameClass s u :=
  ⟨h.version.trans h'.version, h.sigtype.trans h'.sigtype, h.issuer.trans h'.issuer⟩

theorem SigListOk.existsUnique (h : SigListOk sigs) {s : SigNode} (hs : s ∈ sigs)
    (hne : s.issuer ≠ 0) :
    ∃! t, t ∈ collapse sameSigner newerThan sigs ∧ SameClass s t := by
  have hR := ranked_newerAt sigs
  rw [collapse_newerAt h.nodes.of_map]
  have hmem : ∀ {t}, t ∈ collapse sameSigner (newerAt sigs) sigs → t ∈ sigs :=
    fun ht => mem_of_mem_collapse ht
  obtain ⟨t, ht, hclass⟩ :
      ∃ t ∈ collapse sameSigner (newerAt sigs) sigs, SameClass s t := by
    rcases collapse_covers hR hs with hleft | ⟨r, hr, hm, -⟩
    · exact ⟨s, hleft, .refl s⟩
    · exact ⟨r, hr, ((h.sameClass_iff hs (hmem hr)).mp hm).2⟩
  refine ⟨t, ⟨ht, hclass⟩, ?_⟩
  rintro t' ⟨ht', hclass'⟩
  refine eq_of_mem_unmatched hR (unmatched_collapse sigs) ht' ht ?_
  refine (h.sameClass_iff (hmem ht') (hmem ht)).mpr ⟨?_, hclass'.symm.trans hclass⟩
  rw [← hclass'.issuer]
  exact hne

theorem SigListOk.tail (h : SigListOk sigs) :
    (if ∃ s ∈ victims sameSigner newerThan sigs,
        some (sigs.getLast?.map SigNode.addr) = some (some s.addr) then
      some ((collapse sameSigner newerThan sigs).getLast?.map SigNode.addr)
    else some (sigs.getLast?.map SigNode.addr)) =
      some ((collapse sameSigner newerThan sigs).getLast?.map SigNode.addr) := by
  split_ifs with hvictim
  · rfl
  · -- the last node stays, if there is one
    have hperm := @victims_append_collapse_perm _ sameSigner newerThan sigs
    have hsub := @collapse_sublist _ sameSigner newerThan sigs
    cases hlast : sigs.getLast? with
    | none =>
      obtain rfl := List.getLast?_eq_none_iff.mp hlast
      rfl
    | some s =>
      have hs : s ∈ sigs := List.mem_of_getLast? hlast
      rcases List.mem_append.mp (hperm.mem_iff.mpr hs) with hgone | hleft
      · exact absurd ⟨s, hgone, by rw [hlast]; rfl⟩ hvictim
      · rw [Places.getLast?_sublist hsub h.nodes.of_map hlast hleft]

end

/-- `dedupe_sigs` leaves of each class the signature that stands for it. -/
theorem dedupeSigsAt_deduped {sigs : List SigNode} (h : SigListOk sigs)
    (junk : Nat → UInt64 × UInt64) (outerT innerT : Int) (lastSig : Option (Option Nat)) :
    ∃ r, dedupeSigsAt junk outerT innerT lastSig sigs = some r ∧ DedupedAt sigs lastSig r := by
  refine ⟨_, dedupeSigsAt_eq junk h.determined outerT innerT lastSig, ?_⟩
  exact
    { sublist := collapse_sublist sigs
      mem_iff := fun s hs => h.mem_collapse_iff hs
      alone := by
        intro s hs halone
        refine (h.mem_collapse_iff hs).mpr (.inr fun t ht hclass => ?_)
        rw [halone t ht hclass]
        split_ifs <;> omega
      unique := fun s hs hne => h.existsUnique hs hne
      count := by
        have hlen := (@victims_append_collapse_perm _ sameSigner newerThan sigs).length_eq
        rw [List.length_append] at hlen
        rwa [Nat.add_comm] at hlen
      tail := by
        intro hlast
        subst hlast
        exact h.tail }

/-- A certification of version 3 that was made at a time. -/
def certVersion3 (addr : Nat) (time : UInt8) : SigNode where
  addr := addr
  packet := ⟨tagSignature, true, [3, 5, 0x10, 0, 0, 0, time, 0, 0, 0, 0, 0, 0, 0, 7, 1, 2, 0, 0]⟩
  behind := List.replicate 0x30000 0
  readable := by rw [List.length_replicate]

theorem dedupeSigsAt_deduped_certs :
    ∃ r, dedupeSigsAt (fun _ => (3, 4)) 5 6 (some (some 2)) [certVersion3 1 9, certVersion3 2 8] =
        some r ∧
      DedupedAt [certVersion3 1 9, certVersion3 2 8] (some (some 2)) r := by
  have htag : ∀ addr time, (certVersion3 addr time).packet.tag = tagSignature := fun _ _ => rfl
  have hlength : ∀ addr time, (certVersion3 addr time).packet.length = 19 := fun _ _ => rfl
  have hsets : ∀ addr time, (certVersion3 addr time).SetsTime :=
    fun _ _ => ⟨3, rfl, .inr (.inl rfl)⟩
  refine dedupeSigsAt_deduped ⟨?_, ?_, ?_, ?_⟩ _ _ _ _
  · show [1, 2].Nodup
    decide
  · simp [htag]
  · simp [hlength]
  · simp [(hsets _ _).determined]

/-! ## Two runs -/

/-- The results of comparing signatures of the list, and of dropping repeated ones from it, are the
same whatever the local variables hold before. -/
structure JunkFree (sigs : List SigNode) : Prop where
  signaturesMatchSigner : ∀ a ∈ sigs, ∀ b ∈ sigs, ∀ aKeyid bKeyid aKeyid' bKeyid',
    signaturesMatchSignerAt a b aKeyid bKeyid = signaturesMatchSignerAt a b aKeyid' bKeyid'
  compareSignatures : ∀ a ∈ sigs, ∀ b ∈ sigs, ∀ vars vars',
    compareSignaturesAt a b vars = compareSignaturesAt a b vars'
  dedupeSigs : ∀ lastSig junk outerT innerT junk' outerT' innerT',
    dedupeSigsAt junk outerT innerT lastSig sigs = dedupeSigsAt junk' outerT' innerT' lastSig sigs

theorem compareSignaturesAt_congr {a b : SigNode} (ha : a.SetsTime) (hb : b.SetsTime)
    (vars vars' : CompareVars) : compareSignaturesAt a b vars = compareSignaturesAt a b vars' := by
  obtain ⟨_, _, _, _, hinfo⟩ := ha.sigInfo true
  obtain ⟨_, _, _, _, hinfo'⟩ := hb.sigInfo true
  unfold compareSignaturesAt
  rw [hinfo _ _ rfl, hinfo' _ _ rfl, hinfo _ _ rfl, hinfo' _ _ rfl]
  rfl

/-- The local variables do not matter if and only if every signature of the list gives a creation
time. -/
theorem junkFree_iff (sigs : List SigNode) : JunkFree sigs ↔ ∀ s ∈ sigs, s.SetsTime := by
  constructor
  · intro hfree s hs
    by_contra hsets
    have hsame := hfree.compareSignatures s hs s hs ⟨0, 0, 0, 0⟩ ⟨0, 0, 0, 1⟩
    rw [SigNode.compareSignaturesAt_self hsets, SigNode.compareSignaturesAt_self hsets] at hsame
    exact absurd hsame (by decide)
  · intro hsets
    have hdet : ∀ s ∈ sigs, s.Determined := fun s hs => (hsets s hs).determined
    refine ⟨fun a ha b hb _ _ _ _ => ?_, fun a ha b hb vars vars' => ?_, fun lastSig _ _ _ _ _ _ => ?_⟩
    · rw [signaturesMatchSignerAt_eq (hdet a ha) (hdet b hb),
        signaturesMatchSignerAt_eq (hdet a ha) (hdet b hb)]
    · exact compareSignaturesAt_congr (hsets a ha) (hsets b hb) vars vars'
    · rw [dedupeSigsAt_eq _ hdet, dedupeSigsAt_eq _ hdet]

/-- A certification of version 6. -/
def sigVersion6 : SigNode where
  addr := 1
  packet := ⟨tagSignature, true, [6, 0x10, 27, 10, 0, 0, 0, 0]⟩
  behind := List.replicate 0x30000 0
  readable := by rw [List.length_replicate]

theorem not_junkFree_version6 : ¬ JunkFree [sigVersion6] := by
  intro hfree
  have hunknown : ¬ sigVersion6.SetsTime := by
    intro hsets
    obtain ⟨version, hfirst, hversion⟩ := hsets.knownVersion
    obtain rfl : 6 = version := Option.some.inj hfirst
    exact absurd hversion (by decide)
  have hsame := hfree.compareSignatures sigVersion6 List.mem_cons_self sigVersion6 List.mem_cons_self
    ⟨0, 0, 0, 0⟩ ⟨0, 0, 0, 1⟩
  rw [SigNode.compareSignaturesAt_self hunknown, SigNode.compareSignaturesAt_self hunknown] at hsame
  exact absurd hsame (by decide)

/-! ## Lists of packets -/

section

variable (g : Stale)

theorem sameSigner_packets {a b : SigNode} (ha : Inside a.packet) (hb : Inside b.packet)
    (hda : a.Determined) (hdb : b.Determined) :
    sameSigner a b = signaturesMatchSigner g a.packet b.packet := by
  rw [Bool.eq_iff_iff, sameSigner_iff, signaturesMatchSigner_iff, ha.issuer g hda, hb.issuer g hdb,
    ha.head, hb.head, and_assoc]

theorem newerThan_packets {a b : SigNode} (ha : Inside a.packet) (hb : Inside b.packet)
    (hda : a.Determined) (hdb : b.Determined) :
    newerThan a b = innerWins g a.packet b.packet := by
  unfold newerThan innerWins
  rw [ha.created g hda, hb.created g hdb]
  cases sigIsRevocation (sigSigtype a.packet) <;> simp

/-- On packets that `sig_info` can read, the loops over nodes do what `dedupeSigs` does. -/
theorem dedupeSigsAt_packets {sigs : List SigNode} (hdet : ∀ s ∈ sigs, s.Determined)
    (hin : ∀ s ∈ sigs, Inside s.packet) (junk : Nat → UInt64 × UInt64) (outerT innerT : Int)
    (lastSig : Option (Option Nat)) :
    ∃ r, dedupeSigsAt junk outerT innerT lastSig sigs = some r ∧
      r.sigs.map SigNode.packet = dedupeSigs g (sigs.map SigNode.packet) ∧
      r.dropped = dedupeSigsDropped g (sigs.map SigNode.packet) := by
  have hleft : (collapse sameSigner newerThan sigs).map SigNode.packet =
      dedupeSigs g (sigs.map SigNode.packet) :=
    map_collapse SigNode.packet
      (fun a ha b hb => sameSigner_packets g (hin a ha) (hin b hb) (hdet a ha) (hdet b hb))
      (fun a ha b hb => newerThan_packets g (hin a ha) (hin b hb) (hdet a ha) (hdet b hb))
  refine ⟨_, dedupeSigsAt_eq junk hdet outerT innerT lastSig, hleft, ?_⟩
  have hgone := (@victims_append_collapse_perm _ sameSigner newerThan sigs).length_eq
  have hcount := @length_collapse_add_dropped _ (signaturesMatchSigner g) (innerWins g)
    (sigs.map SigNode.packet)
  have hlen := congrArg List.length hleft
  rw [List.length_append] at hgone
  rw [List.length_map] at hcount hlen
  unfold dedupeSigs at hlen
  show (victims sameSigner newerThan sigs).length = dropped _ _ _
  omega

end

theorem dedupeSigsAt_packets_certs :
    ∃ r, dedupeSigsAt (fun _ => (3, 4)) 5 6 (some (some 2)) [certVersion3 1 9, certVersion3 2 8] =
        some r ∧
      r.sigs.map SigNode.packet = [(certVersion3 1 9).packet] ∧ r.dropped = 1 := by
  have hdet : ∀ addr time, (certVersion3 addr time).Determined :=
    fun _ _ => SigNode.SetsTime.determined ⟨3, rfl, .inr (.inl rfl)⟩
  have hin : ∀ addr time, Inside (certVersion3 addr time).packet :=
    fun addr time keyid creation => by cases keyid <;> cases creation <;> rfl
  obtain ⟨r, hrun, hsigs, hdropped⟩ := dedupeSigsAt_packets ⟨fun _ => 0, fun _ => 0⟩
    (by simp [hdet] : ∀ s ∈ [certVersion3 1 9, certVersion3 2 8], s.Determined) (by simp [hin])
    (fun _ => (3, 4)) 5 6 (some (some 2))
  exact ⟨r, hrun, hsigs.trans (by decide), hdropped.trans (by decide)⟩

end Onak
