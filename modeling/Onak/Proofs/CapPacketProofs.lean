import Onak.Lib.Places
import Onak.Proofs.UploadProofs

/-!
# Proofs: which packets `cap_packet_type` evicts

The packets of a tag have places in the list of user ids. Of the active ones the first that is
flagged primary and the first other one that is a URN anchor are protected; the oldest excess of the
others goes, and the oldest excess of the revoked ones.
-/

namespace Onak

open Places

variable (tag : Nat) (l : List SignedPacket)

/-! ## Places in the list -/

/-- The first packet of the tag that is not revoked and flagged primary. -/
def primaryAt : Option Nat :=
  (List.range l.length).find? (meetsAt l fun sp => isActive tag sp && signedpacketIsPrimary sp)

/-- The first user id in another place that is not revoked and starts with the URN prefix. -/
def anchorAt : Option Nat :=
  (List.range l.length).find? fun i => some i ≠ primaryAt tag l &&
    meetsAt l (fun sp => isActive tagUid sp && signedpacketIsUrnAnchor sp) i

/-- The packet in this place is of the tag, not revoked and not protected. -/
def evictable (i : Nat) : Bool :=
  meetsAt l (isActive tag) i && some i ≠ primaryAt tag l && some i ≠ anchorAt tag l

/-- The packet in this place belongs to the oldest excess of revoked packets, or to that of active
packets that are not protected. -/
def evicted (maxActive maxRevoked i : Nat) : Bool :=
  (meetsAt l (isRevoked tag) i &&
    (List.range i).countP (meetsAt l (isRevoked tag)) < l.countP (isRevoked tag) - maxRevoked) ||
  (evictable tag l i &&
    (List.range i).countP (evictable tag l) < l.countP (isActive tag) - maxActive)

/-- The list less the packets that are evicted. -/
def afterEviction (maxActive maxRevoked : Nat) : List SignedPacket :=
  (l.zipIdx.filter fun x => !evicted tag l maxActive maxRevoked x.2).map Prod.fst

variable {tag l}

theorem isActive_iff {sp : SignedPacket} :
    isActive tag sp = true ↔ sp.packet.tag = tag ∧ signedpacketIsRevoked sp = false := by
  simp [isActive]

theorem isRevoked_iff {sp : SignedPacket} :
    isRevoked tag sp = true ↔ sp.packet.tag = tag ∧ signedpacketIsRevoked sp = true := by
  simp [isRevoked]

/-! ## The second pass -/

/-- What the second pass remembers when it has come to the place `k`, with `dropActive` and
`dropRevoked` packets to drop in all. What is protected is of interest only as long as there are
active packets to drop. -/
structure CapInv (tag : Nat) (l : List SignedPacket) (dropActive dropRevoked k : Nat) (s : CapState) :
    Prop where
  active : s.dropActive = dropActive - (List.range k).countP (evictable tag l)
  revoked : s.dropRevoked = dropRevoked - (List.range k).countP (meetsAt l (isRevoked tag))
  primary : s.dropActive ≠ 0 → (s.primaryKept = true ↔ ∃ j < k, primaryAt tag l = some j)
  anchor : s.dropActive ≠ 0 → tag = tagUid →
    (s.anchorKept = true ↔ ∃ j < k, anchorAt tag l = some j)

variable {dropActive dropRevoked k : Nat} {s : CapState} {sp : SignedPacket}

/-- The test for a primary packet finds the one that is protected. -/
theorem CapInv.primaryAt_iff (h : CapInv tag l dropActive dropRevoked k s) (hget : l[k]? = some sp)
    (hact : isActive tag sp = true) (hd : s.dropActive ≠ 0) :
    primaryAt tag l = some k ↔ (!s.primaryKept) = true ∧ signedpacketIsPrimary sp = true := by
  have hk : k < l.length := (List.getElem?_eq_some_iff.mp hget).1
  have hprim := h.primary hd
  constructor
  · intro hp
    have hmeets := List.find?_some hp
    rw [meetsAt_of_get hget, Bool.and_eq_true] at hmeets
    refine ⟨?_, hmeets.2⟩
    rw [Bool.not_eq_true', Bool.eq_false_iff]
    intro hkept
    obtain ⟨j, hj, hpj⟩ := hprim.mp hkept
    have : j = k := Option.some.inj (hpj.symm.trans hp)
    omega
  · rintro ⟨hkept, hp⟩
    refine (find?_range_eq_iff hk fun j hj hpj => ?_).mpr ?_
    · rw [hprim.mpr ⟨j, hj, hpj⟩] at hkept
      exact absurd hkept (by simp)
    · rw [meetsAt_of_get hget, hact, hp]
      rfl

/-- The test for a URN anchor finds the one that is protected. -/
theorem CapInv.anchorAt_iff (h : CapInv tag l dropActive dropRevoked k s) (hget : l[k]? = some sp)
    (hact : isActive tag sp = true) (hd : s.dropActive ≠ 0) (hp : primaryAt tag l ≠ some k) :
    anchorAt tag l = some k ↔ (!s.anchorKept) = true ∧ signedpacketIsUrnAnchor sp = true := by
  have hk : k < l.length := (List.getElem?_eq_some_iff.mp hget).1
  have hmeets : meetsAt l (fun sp => isActive tagUid sp && signedpacketIsUrnAnchor sp) k = true ↔
      signedpacketIsUrnAnchor sp = true := by
    rw [meetsAt_of_get hget, Bool.and_eq_true, and_iff_right_iff_imp]
    intro hu
    have huid : sp.packet.tag = tagUid := by
      simp only [signedpacketIsUrnAnchor, decide_eq_true_eq] at hu
      exact hu.1
    exact isActive_iff.mpr ⟨huid, (isActive_iff.mp hact).2⟩
  have htag : signedpacketIsUrnAnchor sp = true → tag = tagUid := by
    intro hu
    simp only [signedpacketIsUrnAnchor, decide_eq_true_eq] at hu
    exact (isActive_iff.mp hact).1.symm.trans hu.1
  constructor
  · intro ha
    have hfound := List.find?_some ha
    rw [Bool.and_eq_true] at hfound
    have hu := hmeets.mp hfound.2
    refine ⟨?_, hu⟩
    rw [Bool.not_eq_true', Bool.eq_false_iff]
    intro hkept
    obtain ⟨j, hj, haj⟩ := (h.anchor hd (htag hu)).mp hkept
    have : j = k := Option.some.inj (haj.symm.trans ha)
    omega
  · rintro ⟨hkept, hu⟩
    refine (find?_range_eq_iff hk fun j hj haj => ?_).mpr ?_
    · rw [(h.anchor hd (htag hu)).mpr ⟨j, hj, haj⟩] at hkept
      exact absurd hkept (by simp)
    · rw [Bool.and_eq_true]
      exact ⟨by simpa using fun h => hp h.symm, hmeets.mpr hu⟩

theorem active_of_primaryAt (h : primaryAt tag l = some k) : meetsAt l (isActive tag) k = true :=
  meetsAt_mono (fun _ hsp => (Bool.and_eq_true _ _ ▸ hsp : _ ∧ _).1) (List.find?_some h)

theorem active_of_anchorAt (h : anchorAt tagUid l = some k) :
    meetsAt l (isActive tagUid) k = true := by
  have hfound := List.find?_some h
  rw [Bool.and_eq_true] at hfound
  exact meetsAt_mono (fun _ hsp => (Bool.and_eq_true _ _ ▸ hsp : _ ∧ _).1) hfound.2

theorem anchorAt_ne_primaryAt (h : primaryAt tag l = some k) : anchorAt tag l ≠ some k := by
  intro ha
  have hfound := List.find?_some ha
  rw [Bool.and_eq_true] at hfound
  simp [h] at hfound

theorem evictable_iff : evictable tag l k = true ↔
    meetsAt l (isActive tag) k = true ∧ primaryAt tag l ≠ some k ∧ anchorAt tag l ≠ some k := by
  unfold evictable
  simp only [Bool.and_eq_true, decide_eq_true_eq, ne_eq, and_assoc, eq_comm (a := some k)]

/-- A place at which nothing is dropped or protected leaves everything as it was. -/
theorem CapInv.pass (h : CapInv tag l dropActive dropRevoked k s)
    (hrev : meetsAt l (isRevoked tag) k = true → s.dropRevoked = 0)
    (hact : meetsAt l (isActive tag) k = true → s.dropActive = 0) :
    CapInv tag l dropActive dropRevoked (k + 1) s := by
  have hA := h.active
  have hR := h.revoked
  refine ⟨?_, ?_, fun hd => ?_, fun hd htag => ?_⟩
  · rw [countP_range_succ]
    split_ifs with hev
    · have := hact (evictable_iff.mp hev).1
      omega
    · exact hA
  · rw [countP_range_succ]
    split_ifs with hk
    · have := hrev hk
      omega
    · exact hR
  · have hp : primaryAt tag l ≠ some k := fun hp => hd (hact (active_of_primaryAt hp))
    rw [exists_lt_succ, h.primary hd]
    simp [hp]
  · have ha : anchorAt tag l ≠ some k := by
      subst htag
      exact fun ha => hd (hact (active_of_anchorAt ha))
    rw [exists_lt_succ, h.anchor hd htag]
    simp [ha]

/-- A revoked packet of the excess is dropped. -/
theorem CapInv.afterRevoked (h : CapInv tag l dropActive dropRevoked k s)
    (hrev : meetsAt l (isRevoked tag) k = true) (hna : meetsAt l (isActive tag) k ≠ true) :
    CapInv tag l dropActive dropRevoked (k + 1) { s with dropRevoked := s.dropRevoked - 1 } := by
  have hne : evictable tag l k ≠ true := fun he => hna (evictable_iff.mp he).1
  have hnp : primaryAt tag l ≠ some k := fun hp => hna (active_of_primaryAt hp)
  have hR := h.revoked
  refine ⟨?_, ?_, fun hd => ?_, fun hd ht => ?_⟩
  · rw [countP_range_succ, if_neg hne]
    exact h.active
  · rw [countP_range_succ, if_pos hrev]
    simp only
    omega
  · rw [exists_lt_succ, ← h.primary hd]
    simp [hnp]
  · have hnu : anchorAt tag l ≠ some k := by
      subst ht
      exact fun hu => hna (active_of_anchorAt hu)
    rw [exists_lt_succ, ← h.anchor hd ht]
    simp [hnu]

/-- The primary packet is protected. -/
theorem CapInv.afterPrimary (h : CapInv tag l dropActive dropRevoked k s)
    (hnr : meetsAt l (isRevoked tag) k ≠ true) (hpk : primaryAt tag l = some k) :
    CapInv tag l dropActive dropRevoked (k + 1) { s with primaryKept := true } := by
  have hnu := anchorAt_ne_primaryAt hpk
  have hne : evictable tag l k ≠ true := fun he => (evictable_iff.mp he).2.1 hpk
  refine ⟨?_, ?_, fun hd => ?_, fun hd ht => ?_⟩
  · rw [countP_range_succ, if_neg hne]
    exact h.active
  · rw [countP_range_succ, if_neg hnr]
    exact h.revoked
  · rw [exists_lt_succ]
    simp [hpk]
  · rw [exists_lt_succ, ← h.anchor hd ht]
    simp [hnu]

/-- The URN anchor is protected. -/
theorem CapInv.afterAnchor (h : CapInv tag l dropActive dropRevoked k s)
    (hnr : meetsAt l (isRevoked tag) k ≠ true) (hnp : primaryAt tag l ≠ some k)
    (huk : anchorAt tag l = some k) :
    CapInv tag l dropActive dropRevoked (k + 1) { s with anchorKept := true } := by
  have hne : evictable tag l k ≠ true := fun he => (evictable_iff.mp he).2.2 huk
  refine ⟨?_, ?_, fun hd => ?_, fun hd ht => ?_⟩
  · rw [countP_range_succ, if_neg hne]
    exact h.active
  · rw [countP_range_succ, if_neg hnr]
    exact h.revoked
  · rw [exists_lt_succ, ← h.primary hd]
    simp [hnp]
  · rw [exists_lt_succ]
    simp [huk]

/-- An active packet of the excess that is not protected is dropped. -/
theorem CapInv.afterActive (h : CapInv tag l dropActive dropRevoked k s)
    (hnr : meetsAt l (isRevoked tag) k ≠ true) (hev : evictable tag l k = true)
    (hd : s.dropActive ≠ 0) :
    CapInv tag l dropActive dropRevoked (k + 1) { s with dropActive := s.dropActive - 1 } := by
  obtain ⟨-, hnp, hnu⟩ := evictable_iff.mp hev
  have hA := h.active
  refine ⟨?_, ?_, fun _ => ?_, fun _ ht => ?_⟩
  · rw [countP_range_succ, if_pos hev]
    simp only
    omega
  · rw [countP_range_succ, if_neg hnr]
    exact h.revoked
  · rw [exists_lt_succ, ← h.primary hd]
    simp [hnp]
  · rw [exists_lt_succ, ← h.anchor hd ht]
    simp [hnu]

section

variable {maxActive maxRevoked : Nat}

/-- A place is evicted exactly when it is one to drop and there are still packets to drop. -/
theorem CapInv.evicted_iff
    (h : CapInv tag l (l.countP (isActive tag) - maxActive) (l.countP (isRevoked tag) - maxRevoked)
      k s) : evicted tag l maxActive maxRevoked k = true ↔
        (meetsAt l (isRevoked tag) k = true ∧ s.dropRevoked ≠ 0) ∨
          (evictable tag l k = true ∧ s.dropActive ≠ 0) := by
  have hA : s.dropActive ≠ 0 ↔
      (List.range k).countP (evictable tag l) < l.countP (isActive tag) - maxActive := by
    rw [h.active]
    omega
  have hR : s.dropRevoked ≠ 0 ↔
      (List.range k).countP (meetsAt l (isRevoked tag)) < l.countP (isRevoked tag) - maxRevoked := by
    rw [h.revoked]
    omega
  rw [hA, hR, evicted]
  simp only [Bool.or_eq_true, Bool.and_eq_true, decide_eq_true_eq]

/-- A round keeps the packet exactly when its place is not evicted. -/
theorem CapInv.step
    (h : CapInv tag l (l.countP (isActive tag) - maxActive) (l.countP (isRevoked tag) - maxRevoked)
      k s) (hget : l[k]? = some sp) :
    (capStep tag s sp).1 = !evicted tag l maxActive maxRevoked k ∧
      CapInv tag l (l.countP (isActive tag) - maxActive) (l.countP (isRevoked tag) - maxRevoked)
        (k + 1) (capStep tag s sp).2 := by
  have hevicted := h.evicted_iff
  rw [meetsAt_of_get hget] at hevicted
  have hrevk := meetsAt_of_get hget (isRevoked tag)
  have hactk := meetsAt_of_get hget (isActive tag)
  -- a packet stays when its place is not one to drop, or when nothing is left to drop
  have hkeep : (isRevoked tag sp = true → s.dropRevoked = 0) →
      (evictable tag l k = true → s.dropActive = 0) →
      true = !evicted tag l maxActive maxRevoked k := by
    intro hr he
    have hnot : ¬ evicted tag l maxActive maxRevoked k = true := by
      rw [hevicted]
      rintro (⟨hrev, hd⟩ | ⟨hev, hd⟩)
      · exact hd (hr hrev)
      · exact hd (he hev)
    rw [Bool.eq_false_iff.mpr hnot]
    rfl
  have hdrop : (isRevoked tag sp = true ∧ s.dropRevoked ≠ 0) ∨
      (evictable tag l k = true ∧ s.dropActive ≠ 0) →
      false = !evicted tag l maxActive maxRevoked k := by
    intro hd
    rw [hevicted.mpr hd]
    rfl
  unfold capStep
  split_ifs with htag hrev hr0 ha0 hp ha
  · -- a packet of another tag
    have hna : meetsAt l (isActive tag) k ≠ true := fun hk =>
      htag (isActive_iff.mp (hactk.symm.trans hk)).1
    have hnr : isRevoked tag sp ≠ true := fun hk => htag (isRevoked_iff.mp hk).1
    refine ⟨hkeep (fun hk => absurd hk hnr) fun he => absurd (evictable_iff.mp he).1 hna, ?_⟩
    exact h.pass (fun hk => absurd (hrevk.symm.trans hk) hnr) fun hk => absurd hk hna
  · -- a revoked packet, when enough of them are dropped
    have hna : meetsAt l (isActive tag) k ≠ true := fun hk => by
      simp [(isActive_iff.mp (hactk.symm.trans hk)).2] at hrev
    refine ⟨hkeep (fun _ => hr0) fun he => absurd (evictable_iff.mp he).1 hna, ?_⟩
    exact h.pass (fun _ => hr0) fun hk => absurd hk hna
  · have hna : meetsAt l (isActive tag) k ≠ true := fun hk => by
      simp [(isActive_iff.mp (hactk.symm.trans hk)).2] at hrev
    have hr : isRevoked tag sp = true := isRevoked_iff.mpr ⟨not_not.mp htag, hrev⟩
    exact ⟨hdrop (.inl ⟨hr, hr0⟩), h.afterRevoked (hrevk.trans hr) hna⟩
  · -- an active packet, when enough of them are dropped
    have hnr : isRevoked tag sp ≠ true := fun hk => hrev (isRevoked_iff.mp hk).2
    refine ⟨hkeep (fun hk => absurd hk hnr) fun _ => ha0, ?_⟩
    exact h.pass (fun hk => absurd (hrevk.symm.trans hk) hnr) fun _ => ha0
  all_goals
    have hnr : isRevoked tag sp ≠ true := fun hk => hrev (isRevoked_iff.mp hk).2
    have hnrk : meetsAt l (isRevoked tag) k ≠ true := fun hk => hnr (hrevk.symm.trans hk)
    have hact : isActive tag sp = true := isActive_iff.mpr ⟨not_not.mp htag, by simpa using hrev⟩
  · have hpk := (h.primaryAt_iff hget hact ha0).mpr hp
    have hne : evictable tag l k ≠ true := fun he => (evictable_iff.mp he).2.1 hpk
    refine ⟨hkeep (fun hk => absurd hk hnr) fun he => absurd he hne, h.afterPrimary hnrk hpk⟩
  · have hnp : primaryAt tag l ≠ some k := fun hpk => hp ((h.primaryAt_iff hget hact ha0).mp hpk)
    have huk := (h.anchorAt_iff hget hact ha0 hnp).mpr ha
    have hne : evictable tag l k ≠ true := fun he => (evictable_iff.mp he).2.2 huk
    refine ⟨hkeep (fun hk => absurd hk hnr) fun he => absurd he hne, h.afterAnchor hnrk hnp huk⟩
  · have hnp : primaryAt tag l ≠ some k := fun hpk => hp ((h.primaryAt_iff hget hact ha0).mp hpk)
    have hnu : anchorAt tag l ≠ some k := fun huk =>
      ha ((h.anchorAt_iff hget hact ha0 hnp).mp huk)
    have hev : evictable tag l k = true := evictable_iff.mpr ⟨hactk.trans hact, hnp, hnu⟩
    exact ⟨hdrop (.inr ⟨hev, ha0⟩), h.afterActive hnrk hev ha0⟩

end

theorem capStep_idle (h : s.dropActive = 0 ∧ s.dropRevoked = 0) (sp : SignedPacket) :
    capStep tag s sp = (true, s) := by
  unfold capStep
  simp [h.1, h.2]

theorem capLoop_idle (h : s.dropActive = 0 ∧ s.dropRevoked = 0) (rest : List SignedPacket) :
    capLoop tag s rest = (rest, 0) := by
  cases rest with
  | nil => rfl
  | cons sp rest => simp [capLoop, h]

/-- Stopping early makes no difference. -/
theorem capLoop_cons (s : CapState) (sp : SignedPacket) (rest : List SignedPacket) :
    capLoop tag s (sp :: rest) =
      if (capStep tag s sp).1 then
        (sp :: (capLoop tag (capStep tag s sp).2 rest).1, (capLoop tag (capStep tag s sp).2 rest).2)
      else
        ((capLoop tag (capStep tag s sp).2 rest).1,
          (capLoop tag (capStep tag s sp).2 rest).2 + 1) := by
  by_cases h : s.dropActive = 0 ∧ s.dropRevoked = 0
  · rw [capLoop_idle h, capStep_idle h, capLoop_idle h]
    rfl
  · rw [capLoop, if_neg h]

/-- The second pass leaves the places that are not evicted, and counts the others. -/
theorem capLoop_eq {maxActive maxRevoked : Nat} {front rest : List SignedPacket}
    (hl : l = front ++ rest)
    (h : CapInv tag l (l.countP (isActive tag) - maxActive) (l.countP (isRevoked tag) - maxRevoked)
      front.length s) :
    capLoop tag s rest =
      (((rest.zipIdx front.length).filter fun x =>
          !evicted tag l maxActive maxRevoked x.2).map Prod.fst,
        (rest.zipIdx front.length).countP fun x => evicted tag l maxActive maxRevoked x.2) := by
  induction rest generalizing front s with
  | nil => rfl
  | cons sp rest ih =>
    have hget : l[front.length]? = some sp := by simp [hl]
    obtain ⟨hkeep, hnext⟩ := h.step hget
    have ih := @ih _ (front ++ [sp]) (by simp [hl]) (by simpa using hnext)
    rw [List.length_append, List.length_singleton] at ih
    rw [capLoop_cons, ih, hkeep, List.zipIdx_cons]
    cases hev : evicted tag l maxActive maxRevoked front.length with
    | false => simp [hev]
    | true => simp [hev]

/-! ## The whole function -/

/-- At most two active packets are protected. -/
theorem countP_active_le (tag : Nat) (l : List SignedPacket) :
    l.countP (isActive tag) ≤ (List.range l.length).countP (evictable tag l) + 2 := by
  have hprimary := countP_eq_place_le (primaryAt tag l) l.length
  have hanchor := countP_eq_place_le (anchorAt tag l) l.length
  have hone := countP_or_le (List.range l.length) (fun i => some i = primaryAt tag l)
    fun i => some i = anchorAt tag l
  have htwo := countP_or_le (List.range l.length) (evictable tag l)
    fun i => some i = primaryAt tag l || some i = anchorAt tag l
  have hall : (List.range l.length).countP (meetsAt l (isActive tag)) ≤
      (List.range l.length).countP fun i => evictable tag l i ||
        (some i = primaryAt tag l || some i = anchorAt tag l) := by
    refine List.countP_mono_left fun i _ hi => ?_
    simp only [evictable, hi, Bool.true_and]
    by_cases hp : some i = primaryAt tag l <;> by_cases ha : some i = anchorAt tag l <;> simp [hp, ha]
  rw [countP_meetsAt] at hall
  omega

theorem countP_evicted {maxActive : Nat} (h : 2 ≤ maxActive) (maxRevoked : Nat) :
    (List.range l.length).countP (evicted tag l maxActive maxRevoked) =
      (l.countP (isActive tag) - maxActive) + (l.countP (isRevoked tag) - maxRevoked) := by
  have hactive := countP_active_le tag l
  have hrevoked := countP_meetsAt l (isRevoked tag)
  unfold evicted
  rw [countP_or_of_disjoint, countP_first, countP_first, hrevoked]
  · omega
  · -- a packet that is revoked is not active
    intro i hi
    rw [Bool.and_eq_true] at hi
    rw [Bool.and_eq_false_iff]
    refine Or.inl (Bool.eq_false_iff.mpr fun he => ?_)
    have hact := (evictable_iff.mp he).1
    unfold meetsAt at hi hact
    cases hget : l[i]? with
    | none => simp [hget] at hact
    | some sp =>
      rw [hget] at hi hact
      have hrev := (isRevoked_iff.mp hi.1).2
      rw [(isActive_iff.mp hact).2] at hrev
      exact absurd hrev (by simp)

theorem afterEviction_length (maxActive maxRevoked : Nat) :
    (afterEviction tag l maxActive maxRevoked).length +
      (List.range l.length).countP (evicted tag l maxActive maxRevoked) = l.length := by
  have hsplit := List.length_eq_countP_add_countP
    (fun x : SignedPacket × Nat => evicted tag l maxActive maxRevoked x.2) (l := l.zipIdx)
  rw [countP_zipIdx, List.length_zipIdx] at hsplit
  rw [afterEviction, List.length_map, ← List.countP_eq_length_filter]
  simp only [Bool.not_eq_true, Bool.decide_eq_false] at hsplit
  omega

theorem afterEviction_of_fits {maxActive maxRevoked : Nat}
    (ha : l.countP (isActive tag) ≤ maxActive) (hr : l.countP (isRevoked tag) ≤ maxRevoked) :
    afterEviction tag l maxActive maxRevoked = l := by
  have hnone : ∀ i, evicted tag l maxActive maxRevoked i = false := by
    intro i
    have h1 : l.countP (isActive tag) - maxActive = 0 := by omega
    have h2 : l.countP (isRevoked tag) - maxRevoked = 0 := by omega
    simp [evicted, h1, h2]
  simp [afterEviction, hnone]

theorem capPacketType_eq (key : PublicKey) (tag : Nat) {maxActive : Nat} (maxRevoked : Nat)
    (h : 2 ≤ maxActive) :
    capPacketType key tag maxActive maxRevoked =
      ({ key with uids := afterEviction tag key.uids maxActive maxRevoked },
        (key.uids.countP (isActive tag) - maxActive) +
          (key.uids.countP (isRevoked tag) - maxRevoked)) := by
  have hcount := @countP_evicted tag key.uids maxActive h maxRevoked
  unfold capPacketType
  simp only
  split_ifs with h0
  · rw [afterEviction_of_fits (by omega) (by omega), h0.1, h0.2]
  · have hinv : CapInv tag key.uids (key.uids.countP (isActive tag) - maxActive)
        (key.uids.countP (isRevoked tag) - maxRevoked) ([] : List SignedPacket).length
        ⟨key.uids.countP (isActive tag) - maxActive, key.uids.countP (isRevoked tag) - maxRevoked,
          false, false⟩ := ⟨by simp, by simp, by simp, by simp⟩
    rw [capLoop_eq (List.nil_append _).symm hinv, List.length_nil, countP_zipIdx, hcount]
    rfl

/-! ## The packets that stay -/

theorem not_active_of_revoked {sp : SignedPacket} (h : isRevoked tag sp = true) :
    ¬ isActive tag sp = true := by
  intro hact
  have hrev := (isRevoked_iff.mp h).2
  rw [(isActive_iff.mp hact).2] at hrev
  exact absurd hrev (by simp)

/-- Of the revoked packets, the last ones stay. -/
theorem filter_revoked_afterEviction (maxActive maxRevoked : Nat) :
    (afterEviction tag l maxActive maxRevoked).filter (isRevoked tag) =
      (l.filter (isRevoked tag)).drop (l.countP (isRevoked tag) - maxRevoked) := by
  rw [← map_filter_places (P := meetsAt l (isRevoked tag)) _ fun x hx =>
    meetsAt_of_get (List.mem_zipIdx_iff_getElem?.mp hx) _]
  unfold afterEviction
  rw [List.filter_map, List.filter_filter]
  refine congrArg (List.map Prod.fst) (List.filter_congr fun x hx => ?_)
  have hget := List.mem_zipIdx_iff_getElem?.mp hx
  have hev : isRevoked tag x.1 = true → evictable tag l x.2 = false := by
    intro hrev
    rw [Bool.eq_false_iff]
    intro hev
    exact not_active_of_revoked hrev ((meetsAt_of_get hget _).symm.trans (evictable_iff.mp hev).1)
  simp only [Function.comp_apply, evicted, meetsAt_of_get hget]
  cases hrev : isRevoked tag x.1 with
  | false => rfl
  | true =>
    rw [hev hrev]
    simp only [Bool.true_and, Bool.false_and, Bool.or_false, ← decide_not, Nat.not_lt]

/-- Packets of another tag stay. -/
theorem filter_afterEviction_of_tag {p : SignedPacket → Bool} (maxActive maxRevoked : Nat)
    (hp : ∀ sp, p sp = true → sp.packet.tag ≠ tag) :
    (afterEviction tag l maxActive maxRevoked).filter p = l.filter p := by
  have hall : l.filter p = ((l.zipIdx).filter fun x => p x.1).map Prod.fst := by
    conv_lhs => rw [← List.zipIdx_map_fst 0 l, List.filter_map]
    rfl
  rw [hall]
  unfold afterEviction
  rw [List.filter_map, List.filter_filter]
  refine congrArg (List.map Prod.fst) (List.filter_congr fun x hx => ?_)
  have hget := List.mem_zipIdx_iff_getElem?.mp hx
  rw [Function.comp_apply, Bool.and_eq_left_iff_imp]
  intro hpx
  have hact : meetsAt l (isActive tag) x.2 = false := by
    rw [meetsAt_of_get hget, Bool.eq_false_iff]
    exact fun h => hp _ hpx (isActive_iff.mp h).1
  have hrev : meetsAt l (isRevoked tag) x.2 = false := by
    rw [meetsAt_of_get hget, Bool.eq_false_iff]
    exact fun h => hp _ hpx (isRevoked_iff.mp h).1
  simp [evicted, evictable, hact, hrev]

/-- As many active packets stay as fit under the cap. -/
theorem countP_active_afterEviction {maxActive : Nat} (h : 2 ≤ maxActive) (maxRevoked : Nat) :
    (afterEviction tag l maxActive maxRevoked).countP (isActive tag) =
      min (l.countP (isActive tag)) maxActive := by
  have hall : l.countP (isActive tag) = l.zipIdx.countP fun x => isActive tag x.1 := by
    conv_lhs => rw [← List.zipIdx_map_fst 0 l, List.countP_map]
    rfl
  have hgone : (l.zipIdx.countP fun x => isActive tag x.1 && evicted tag l maxActive maxRevoked x.2) =
      l.countP (isActive tag) - maxActive := by
    have hsame : (l.zipIdx.countP fun x => isActive tag x.1 && evicted tag l maxActive maxRevoked x.2) =
        l.zipIdx.countP fun x => evictable tag l x.2 &&
          decide ((List.range x.2).countP (evictable tag l) < l.countP (isActive tag) - maxActive) := by
      refine List.countP_congr fun x hx => ?_
      have hget := List.mem_zipIdx_iff_getElem?.mp hx
      have hact := meetsAt_of_get hget (isActive tag)
      have hrev := meetsAt_of_get hget (isRevoked tag)
      rw [Bool.and_eq_true, evicted, Bool.or_eq_true, Bool.and_eq_true, hrev, Bool.and_eq_true]
      constructor
      · rintro ⟨ha, ⟨hr, -⟩ | hev⟩
        · exact absurd ha (not_active_of_revoked hr)
        · exact hev
      · intro hev
        exact ⟨hact.symm.trans (evictable_iff.mp hev.1).1, .inr hev⟩
    rw [hsame, countP_zipIdx fun i => evictable tag l i &&
      decide ((List.range i).countP (evictable tag l) < l.countP (isActive tag) - maxActive), countP_first]
    have := countP_active_le tag l
    omega
  have hsplit := List.countP_eq_countP_filter_add l.zipIdx (fun x => isActive tag x.1)
    fun x => evicted tag l maxActive maxRevoked x.2
  rw [List.countP_filter, List.countP_filter, hgone, ← hall] at hsplit
  unfold afterEviction
  rw [List.countP_map, List.countP_filter]
  simp only [Function.comp_def] at hsplit ⊢
  omega

/-- The packets that are gone are the ones that were counted. -/
theorem capPacketType_length (key : PublicKey) (tag : Nat) {maxActive : Nat} (maxRevoked : Nat)
    (h : 2 ≤ maxActive) :
    (capPacketType key tag maxActive maxRevoked).1.uids.length +
      (capPacketType key tag maxActive maxRevoked).2 = key.uids.length := by
  have hcount := @countP_evicted tag key.uids maxActive h maxRevoked
  have hlength := @afterEviction_length tag key.uids maxActive maxRevoked
  rw [capPacketType_eq key tag maxRevoked h]
  simp only
  omega

/-- **What `cap_packet_type` evicts.** It takes out exactly the oldest excess of the revoked packets
of the tag and the oldest excess of the active ones, where the first primary packet and the first
other URN anchor do not count among those to go; it returns the number of packets taken out, which is
the excess of both kinds. -/
theorem capPacketType_evicts (key : PublicKey) (tag : Nat) {maxActive : Nat} (maxRevoked : Nat)
    (h : 2 ≤ maxActive) :
    (capPacketType key tag maxActive maxRevoked).1 =
        { key with uids := afterEviction tag key.uids maxActive maxRevoked } ∧
      (capPacketType key tag maxActive maxRevoked).2 =
        (key.uids.countP (isActive tag) - maxActive) +
          (key.uids.countP (isRevoked tag) - maxRevoked) ∧
      (capPacketType key tag maxActive maxRevoked).1.uids.length +
        (capPacketType key tag maxActive maxRevoked).2 = key.uids.length := by
  have heq := capPacketType_eq key tag maxRevoked h
  exact ⟨congrArg Prod.fst heq, congrArg Prod.snd heq, capPacketType_length key tag maxRevoked h⟩

/-- The oldest user id is primary and the next one an anchor: of the four the other two go. -/
theorem capPacketType_evicts_sample :
    let primary : SignedPacket :=
      ⟨sampleUid 65, [⟨tagSignature, false, [4, 0x13, 1, 2, 0, 3, 2, 25, 1, 0, 0]⟩]⟩
    let anchor : SignedPacket := ⟨⟨tagUid, false, urnPrefix ++ [66]⟩, []⟩
    (capPacketType (sampleV4Key [] [primary, anchor, ⟨sampleUid 67, []⟩, ⟨sampleUid 68, []⟩])
      tagUid 2 2).1.uids = [primary, anchor] := by
  intro primary anchor
  rw [(capPacketType_evicts (sampleV4Key [] [primary, anchor, ⟨sampleUid 67, []⟩,
    ⟨sampleUid 68, []⟩]) tagUid 2 (le_refl 2)).1]
  decide

end Onak
