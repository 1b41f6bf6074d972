import Onak.Proofs.Db4Proofs

/-!
# Proofs: when a merge changes nothing

The difference that `merge_keys` reports is what `compare_signatures` does not equate with anything
on the old key; what is added to the old key is that, less what `dedupe_sigs` drops again. So a
merge that changes nothing may still report a difference, which is then stored and sent to the
peers. The old lists may repeat packets here.
-/

namespace Onak

variable {H : Hashes} {g : Stale}

/-! ## The difference -/

theorem diffEntry_eq_none {old : List SignedPacket} {n : SignedPacket} :
    diffEntry g old n = none ↔
      OnSigned old n.packet ∧ ∀ s ∈ n.sigs, Equated g old n.packet s := by
  unfold diffEntry
  simp only
  split_ifs with h
  · simpa [List.filter_eq_nil_iff] using h
  · simpa [List.filter_eq_nil_iff] using h

theorem mem_diffEntry {old : List SignedPacket} {n d : SignedPacket}
    (h : diffEntry g old n = some d) {s : Packet} :
    s ∈ d.sigs ↔ s ∈ n.sigs ∧ ¬ Equated g old n.packet s := by
  unfold diffEntry at h
  simp only at h
  split_ifs at h
  obtain rfl := Option.some.inj h
  simp

theorem diff_eq_nil_iff (old : List SignedPacket) {new : List SignedPacket} (hn : NoRepeats new) :
    (mergeSignedPackets g old new).2 = [] ↔ AllEquated g old new := by
  rw [mergeSignedPackets_snd old hn, List.filterMap_eq_nil_iff]
  simp only [diffEntry_eq_none, AllEquated]

/-! ## The merged list -/

/-- New signatures leave no trace on a deduplicated list exactly when they are outranked. -/
theorem dedupeSigs_append_eq_iff {old : List Packet} (hd : dedupeSigs g old = old)
    (new : List Packet) :
    dedupeSigs g (old ++ newSigs g old new) = old ↔
      ∀ s ∈ new, (findSignature g old s).isSome ∨ Outranked g old s := by
  constructor
  · intro h s hs
    by_cases hf : (findSignature g old s).isSome = true
    · exact Or.inl hf
    have hnew : s ∈ newSigs g old new := List.mem_filter.mpr ⟨hs, by simpa using hf⟩
    have hx := Collapse.collapse_covers (ranked (g := g)) (List.mem_append_right old hnew)
    change s ∈ dedupeSigs g _ ∨ ∃ r ∈ dedupeSigs g _, _ at hx
    rw [h] at hx
    rcases hx with hmem | ⟨r, hr, hm, hn⟩
    · exact absurd (compareSignatures_of_same (Packet.Same.refl s)) ((mem_newSigs.mp hnew).2 s hmem)
    · exact Or.inr ⟨r, hr, ranked.symm hm, hn⟩
  · intro h
    refine Collapse.collapse_append_outranked ranked ((Collapse.collapse_eq_self_iff ranked).mp hd)
      fun s hs => ?_
    obtain ⟨hs, hnf⟩ := List.mem_filter.mp hs
    exact (h s hs).resolve_left (by simpa using hnf)

theorem length_mergeCommon (old new : List SignedPacket) :
    (mergeCommon g old new).1.length = old.length := by
  induction old generalizing new with
  | nil => rfl
  | cons cur old ih =>
    cases hf : findSignedPacket new cur.packet <;> simp [mergeCommon, hf, ih]

theorem addMissing_append (old new : List SignedPacket) : ∃ t, addMissing old new = old ++ t := by
  induction new generalizing old with
  | nil => exact ⟨[], by simp [addMissing]⟩
  | cons c new ih =>
    unfold addMissing
    split_ifs
    · obtain ⟨t, ht⟩ := ih (old ++ [c])
      exact ⟨[c] ++ t, by rw [ht, List.append_assoc]⟩
    · exact ih old

theorem addMissing_of_onAll {old new : List SignedPacket} (h : OnAll new old) :
    addMissing old new = old := by
  induction new with
  | nil => rfl
  | cons c new ih =>
    have hc : ¬ (findSignedPacket old c.packet).isNone = true := by
      rw [findSignedPacket_isNone, not_not]
      exact h c (by simp)
    unfold addMissing
    rw [if_neg hc]
    exact ih fun sp hsp => h sp (by simp [hsp])

/-- The first loop leaves an old packet as it is exactly when its new signatures are equated or
outranked. -/
theorem mergedEntry_eq_iff {new : List SignedPacket} (hn : NoRepeats new) {o : SignedPacket}
    (hd : dedupeSigs g o.sigs = o.sigs) :
    mergedEntry g new o = o ↔ ∀ n ∈ new, n.packet.Same o.packet → ∀ s ∈ n.sigs,
      (findSignature g o.sigs s).isSome ∨ Outranked g o.sigs s := by
  unfold mergedEntry
  cases hf : findSignedPacket new o.packet with
  | none =>
    refine iff_of_true rfl fun n hmem hs => ?_
    exact absurd ⟨n, hmem, hs⟩ (findSignedPacket_none.mp hf)
  | some n =>
    obtain ⟨hmem, hsame⟩ := findSignedPacket_some hf
    have huniq : ∀ n' ∈ new, n'.packet.Same o.packet → n' = n := fun n' hmem' hs =>
      hn.unique hmem' hmem (hs.trans hsame.symm)
    have hiff := dedupeSigs_append_eq_iff hd n.sigs
    have hsigs : (mergePacketSigs g o n).1 = o ↔
        dedupeSigs g (o.sigs ++ newSigs g o.sigs n.sigs) = o.sigs :=
      ⟨fun h => congrArg SignedPacket.sigs h, fun h => by
        show (⟨o.packet, dedupeSigs g (o.sigs ++ newSigs g o.sigs n.sigs)⟩ : SignedPacket) = o
        rw [h]⟩
    show (mergePacketSigs g o n).1 = o ↔ _
    rw [hsigs, hiff]
    constructor
    · intro h n' hmem' hs
      rw [huniq n' hmem' hs]
      exact h
    · exact fun h => h n hmem hsame

/-- Signatures that a round takes out of the new list no longer count for the packets behind. -/
theorem quiet_cons {cur : SignedPacket} {old new : List SignedPacket} :
    Quiet g (cur :: old) new ↔
      (∀ n ∈ new, n.packet.Same cur.packet → ∀ s ∈ n.sigs,
        (findSignature g cur.sigs s).isSome ∨ Outranked g cur.sigs s) ∧
      Quiet g old (new.filterMap (diffEntry g [cur])) := by
  have hone : ∀ s, Equated g [cur] cur.packet s ↔ (findSignature g cur.sigs s).isSome = true := by
    intro s
    simp [Equated, Packet.Same.refl]
  constructor
  · intro h
    refine ⟨fun n hn hs s hsn => ?_, fun l₁ o l₂ hsplit d hd hdo s hsd => ?_⟩
    · rw [← hone]
      exact h [] cur old rfl n hn hs s hsn
    · obtain ⟨n, hn, hnd⟩ := List.mem_filterMap.mp hd
      obtain ⟨hsn, hne⟩ := (mem_diffEntry hnd).mp hsd
      rw [diffEntry_packet hnd] at hdo
      refine (h (cur :: l₁) o l₂ (by rw [hsplit]; rfl) n hn hdo s hsn).imp_left fun heq => ?_
      rcases equated_cons.mp heq with ⟨hs, hf⟩ | heq
      · exact absurd ⟨cur, by simp, hs.trans hdo.symm, hf⟩ hne
      · exact heq
  · rintro ⟨hcur, hold⟩ l₁ o l₂ hsplit n hn hno s hsn
    cases l₁ with
    | nil =>
      obtain ⟨rfl, rfl⟩ := List.cons.inj hsplit
      show Equated g [cur] cur.packet s ∨ _
      rw [hone]
      exact hcur n hn hno s hsn
    | cons x l₁ =>
      obtain ⟨rfl, hsplit'⟩ := List.cons.inj hsplit
      by_cases hx : Equated g [cur] n.packet s
      · obtain ⟨y, hy, hys, hf⟩ := hx
        obtain rfl := List.mem_singleton.mp hy
        exact Or.inl ⟨y, by simp, hys.trans hno, hf⟩
      · cases hd : diffEntry g [cur] n with
        | none => exact absurd ((diffEntry_eq_none.mp hd).2 s hsn) hx
        | some d =>
          have hdo : d.packet.Same o.packet := by rw [diffEntry_packet hd]; exact hno
          refine (hold l₁ o l₂ hsplit' d (List.mem_filterMap.mpr ⟨n, hn, hd⟩) hdo s
            ((mem_diffEntry hd).mpr ⟨hsn, hx⟩)).imp_left fun heq => ?_
          exact equated_cons.mpr (Or.inr heq)

/-- The first loop leaves the old list as it is exactly when all new signatures are equated or
outranked. -/
theorem mergeCommon_eq_iff {old new : List SignedPacket} (hd : Deduped g old) (hn : NoRepeats new) :
    (mergeCommon g old new).1 = old ↔ Quiet g old new := by
  induction old generalizing new with
  | nil =>
    refine iff_of_true rfl fun l₁ o l₂ h => ?_
    exact absurd h (by simp)
  | cons cur old ih =>
    have hdc : dedupeSigs g cur.sigs = cur.sigs := hd cur (by simp)
    have hdo : Deduped g old := fun sp hsp => hd sp (by simp [hsp])
    rw [mergeCommon_cons cur old hn, quiet_cons, ← ih hdo (hn.diff [cur]),
      ← mergedEntry_eq_iff hn hdc]
    exact List.cons_eq_cons

/-- A merge leaves a deduplicated list as it is exactly when nothing is new or everything that is
new is outranked. -/
theorem merged_eq_iff {old new : List SignedPacket} (hd : Deduped g old) (hn : NoRepeats new) :
    (mergeSignedPackets g old new).1 = old ↔ OnAll new old ∧ Quiet g old new := by
  have hdef : (mergeSignedPackets g old new).1 =
      addMissing (mergeCommon g old new).1 (mergeCommon g old new).2 := rfl
  constructor
  · intro h
    have hon : OnAll new old := by
      have := onAll_merge_new (g := g) old new
      rwa [h] at this
    obtain ⟨t, ht⟩ := addMissing_append (mergeCommon g old new).1 (mergeCommon g old new).2
    have happ : (mergeCommon g old new).1 ++ t = old := by rw [← ht, ← hdef, h]
    have ht0 : t = [] := by
      have hlen := congrArg List.length happ
      rw [List.length_append, length_mergeCommon] at hlen
      exact List.length_eq_zero_iff.mp (by omega)
    rw [ht0, List.append_nil] at happ
    exact ⟨hon, (mergeCommon_eq_iff hd hn).mp happ⟩
  · rintro ⟨hon, hq⟩
    rw [hdef, (mergeCommon_eq_iff hd hn).mpr hq]
    refine addMissing_of_onAll fun d hmem => ?_
    rw [mergeCommon_diff old hn] at hmem
    obtain ⟨n, hnm, hnd⟩ := List.mem_filterMap.mp hmem
    rw [diffEntry_packet hnd]
    exact hon n hnm

/-! ## Keys -/

section

variable {a b : PublicKey} (hk : SameKeyid H a b) (hb : b.NoRepeats)
include hk hb

theorem samePackets_iff (ha : a.Deduped g) :
    SamePackets a (mergeKeys H g a b).a ↔ NothingToAdd g a b := by
  have hsigs : a.sigs ++ b.sigs.filter (fun s => !findPacket a.sigs s) = a.sigs ↔
      ∀ s ∈ b.sigs, OnList a.sigs s := by
    rw [List.append_right_eq_self, List.filter_eq_nil_iff]
    simp only [Bool.not_eq_true', Bool.not_eq_false, findPacket_iff]
  rw [mergeKeys_eq hk]
  unfold SamePackets
  rw [hsigs, merged_eq_iff ha.1 hb.1, merged_eq_iff ha.2 hb.2]
  exact ⟨fun ⟨h1, ⟨h2, h3⟩, h4, h5⟩ => ⟨h1, h2, h4, h3, h5⟩,
    fun h => ⟨h.sigs, ⟨h.uids, h.uidSigs⟩, h.subkeys, h.subkeySigs⟩⟩

theorem diffEmpty_iff :
    ((mergeKeys H g a b).b.sigs = [] ∧ (mergeKeys H g a b).b.uids = [] ∧
        (mergeKeys H g a b).b.subkeys = []) ↔
      (∀ s ∈ b.sigs, OnList a.sigs s) ∧ AllEquated g a.uids b.uids ∧
        AllEquated g a.subkeys b.subkeys := by
  rw [mergeKeys_eq hk]
  simp only [diff_eq_nil_iff _ hb.1, diff_eq_nil_iff _ hb.2, List.filter_eq_nil_iff,
    Bool.not_eq_true', Bool.not_eq_false, findPacket_iff]

end

end Onak
