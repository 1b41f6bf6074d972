import Onak.CleanKey
import Onak.Proofs.MergeProofs

/-!
# Proofs: cleaning keys

What one cleaned key looks like: no user id or subkey is repeated, no signature list has two
signatures of one signer, and the packets that the caps count are within the caps at the time they
are counted. The passes over the signatures come later and can still turn a revoked packet into an
active one.
-/

namespace Onak

variable {g : Stale}

/-! ## Duplicate packets -/

theorem absorbDups_packet (cur : SignedPacket) (l : List SignedPacket) :
    (absorbDups g cur l).1.packet = cur.packet := by
  induction l generalizing cur with
  | nil => rfl
  | cons dup rest ih =>
    simp only [absorbDups]
    split_ifs
    · exact ih (mergePacketSigs g cur dup).1
    · exact ih cur

theorem absorbDups_sublist (cur : SignedPacket) (l : List SignedPacket) :
    (absorbDups g cur l).2.1.Sublist l := by
  induction l generalizing cur with
  | nil => exact List.Sublist.refl _
  | cons dup rest ih =>
    simp only [absorbDups]
    split_ifs
    · exact (ih _).cons dup
    · exact (ih cur).cons_cons dup

theorem absorbDups_not_same {cur : SignedPacket} {l : List SignedPacket} {sp : SignedPacket}
    (h : sp ∈ (absorbDups g cur l).2.1) : ¬ cur.packet.Same sp.packet := by
  induction l generalizing cur with
  | nil => exact absurd h (by simp [absorbDups])
  | cons dup rest ih =>
    simp only [absorbDups] at h
    split_ifs at h with hdup
    · have hpacket : (mergePacketSigs g cur dup).1.packet = cur.packet := rfl
      rw [← hpacket]
      exact ih h
    · rcases List.mem_cons.mp h with rfl | h
      · intro hs
        exact hdup (by simpa using comparePackets_eq_zero_iff.mpr hs.symm)
      · exact ih h

theorem mem_dedupLoop {fuel : Nat} {l : List SignedPacket} {sp : SignedPacket}
    (h : sp ∈ (dedupLoop g fuel l).1) : ∃ x ∈ l, x.packet = sp.packet := by
  induction fuel generalizing l with
  | zero => exact absurd h (by simp [dedupLoop])
  | succ fuel ih =>
    cases l with
    | nil => exact absurd h (by simp [dedupLoop])
    | cons cur rest =>
      simp only [dedupLoop] at h
      rcases List.mem_cons.mp h with rfl | h
      · exact ⟨cur, by simp, (absorbDups_packet cur rest).symm⟩
      · obtain ⟨x, hx, hxs⟩ := ih h
        exact ⟨x, List.mem_cons_of_mem cur ((absorbDups_sublist cur rest).subset hx), hxs⟩

theorem noRepeats_dedupLoop (fuel : Nat) (l : List SignedPacket) :
    NoRepeats (dedupLoop g fuel l).1 := by
  induction fuel generalizing l with
  | zero => exact List.Pairwise.nil
  | succ fuel ih =>
    cases l with
    | nil => exact List.Pairwise.nil
    | cons cur rest =>
      refine List.Pairwise.cons (fun sp hsp => ?_) (ih (absorbDups g cur rest).2.1)
      obtain ⟨x, hx, hxs⟩ := mem_dedupLoop hsp
      rw [absorbDups_packet, ← hxs]
      exact absorbDups_not_same hx

/-! ## Capping packets -/

theorem capLoop_sublist (tag : Nat) (s : CapState) (l : List SignedPacket) :
    (capLoop tag s l).1.Sublist l := by
  induction l generalizing s with
  | nil => exact List.Sublist.refl _
  | cons sp rest ih =>
    simp only [capLoop]
    split_ifs
    · exact List.Sublist.refl _
    · exact (ih _).cons_cons sp
    · exact (ih _).cons sp

/-- How many packets may still be protected. -/
def CapState.protects (s : CapState) : Nat :=
  (if s.primaryKept then 0 else 1) + if s.anchorKept then 0 else 1

/-- What a round does that keeps a packet: it is not one to drop, or it is protected. -/
theorem capStep_keep {tag : Nat} {s : CapState} {sp : SignedPacket}
    (h : (capStep tag s sp).1 = true) :
    (capStep tag s sp).2 = s ∧ (isActive tag sp → s.dropActive = 0) ∧
        (isRevoked tag sp → s.dropRevoked = 0) ∨
      isActive tag sp ∧ ¬ isRevoked tag sp ∧ (capStep tag s sp).2.dropActive = s.dropActive ∧
        (capStep tag s sp).2.dropRevoked = s.dropRevoked ∧
        (capStep tag s sp).2.protects + 1 = s.protects := by
  unfold capStep at h ⊢
  split_ifs at h ⊢ with htag hrev hr0 ha0 hp ha
  · exact Or.inl ⟨rfl, by simp [isActive, htag], by simp [isRevoked, htag]⟩
  · exact Or.inl ⟨rfl, by simp [isActive, hrev], fun _ => hr0⟩
  · exact Or.inl ⟨rfl, fun _ => ha0, by simp [isRevoked, hrev]⟩
  · refine Or.inr ⟨by simpa [isActive, hrev] using htag, by simp [isRevoked, hrev], rfl, rfl, ?_⟩
    have hk : s.primaryKept = false := by simpa using hp.1
    simp only [CapState.protects, hk, Bool.false_eq_true, if_false, if_true]
    omega
  · refine Or.inr ⟨by simpa [isActive, hrev] using htag, by simp [isRevoked, hrev], rfl, rfl, ?_⟩
    have hk : s.anchorKept = false := by simpa using ha.1
    simp only [CapState.protects, hk, Bool.false_eq_true, if_false, if_true]

/-- What a round does that drops a packet. -/
theorem capStep_drop {tag : Nat} {s : CapState} {sp : SignedPacket}
    (h : (capStep tag s sp).1 = false) :
    isRevoked tag sp ∧ ¬ isActive tag sp ∧
        (capStep tag s sp).2 = { s with dropRevoked := s.dropRevoked - 1 } ∧ s.dropRevoked ≠ 0 ∨
      isActive tag sp ∧ ¬ isRevoked tag sp ∧
        (capStep tag s sp).2 = { s with dropActive := s.dropActive - 1 } ∧ s.dropActive ≠ 0 := by
  unfold capStep at h ⊢
  split_ifs at h ⊢ with htag hrev hr0 ha0 hp ha
  · exact Or.inl ⟨by simpa [isRevoked, hrev] using htag, by simp [isActive, hrev], rfl, hr0⟩
  · exact Or.inr ⟨by simpa [isActive, hrev] using htag, by simp [isRevoked, hrev], rfl, ha0⟩

/-- As many revoked packets are dropped as are to be dropped. -/
theorem countP_revoked_capLoop (tag : Nat) (s : CapState) (l : List SignedPacket) :
    (capLoop tag s l).1.countP (isRevoked tag) ≤ l.countP (isRevoked tag) - s.dropRevoked := by
  induction l generalizing s with
  | nil => simp [capLoop]
  | cons sp rest ih =>
    have hall : (sp :: (capLoop tag (capStep tag s sp).2 rest).1).countP (isRevoked tag) ≤
        (sp :: rest).countP (isRevoked tag) :=
      ((capLoop_sublist tag _ rest).cons_cons sp).countP_le
    have ih := ih (capStep tag s sp).2
    simp only [capLoop]
    split_ifs with hdone hkeep
    · show (sp :: rest).countP (isRevoked tag) ≤ _
      omega
    · rcases capStep_keep hkeep with ⟨hs, -, hr⟩ | ⟨-, hr, -, hd, -⟩
      · by_cases hrev : isRevoked tag sp = true
        · rw [hr hrev]
          omega
        · rw [hs] at ih ⊢
          rw [List.countP_cons_of_neg hrev, List.countP_cons_of_neg hrev]
          exact ih
      · rw [hd] at ih
        rw [List.countP_cons_of_neg hr, List.countP_cons_of_neg hr]
        exact ih
    · rcases capStep_drop (by simpa using hkeep) with ⟨hr, -, hs, h0⟩ | ⟨-, hr, hs, -⟩
      · rw [hs] at ih ⊢
        rw [List.countP_cons_of_pos hr]
        simp only at ih ⊢
        omega
      · rw [hs] at ih ⊢
        rw [List.countP_cons_of_neg hr]
        exact ih

/-- As many active packets are dropped as are to be dropped, unless only protected ones are left. -/
theorem countP_active_capLoop (tag : Nat) (s : CapState) (l : List SignedPacket) :
    (capLoop tag s l).1.countP (isActive tag) + s.dropActive ≤ l.countP (isActive tag) ∨
      (capLoop tag s l).1.countP (isActive tag) ≤ s.protects := by
  induction l generalizing s with
  | nil => exact Or.inr (by simp [capLoop])
  | cons sp rest ih =>
    have hall : (sp :: (capLoop tag (capStep tag s sp).2 rest).1).countP (isActive tag) ≤
        (sp :: rest).countP (isActive tag) :=
      ((capLoop_sublist tag _ rest).cons_cons sp).countP_le
    have ih := ih (capStep tag s sp).2
    simp only [capLoop]
    split_ifs with hdone hkeep
    · refine Or.inl ?_
      show (sp :: rest).countP (isActive tag) + s.dropActive ≤ _
      omega
    · rcases capStep_keep hkeep with ⟨hs, ha, -⟩ | ⟨ha, -, hd, -, hp⟩
      · by_cases hact : isActive tag sp = true
        · exact Or.inl (by rw [ha hact]; omega)
        · rw [hs] at ih ⊢
          rw [List.countP_cons_of_neg hact, List.countP_cons_of_neg hact]
          exact ih
      · rw [hd] at ih
        rw [List.countP_cons_of_pos ha, List.countP_cons_of_pos ha]
        omega
    · rcases capStep_drop (by simpa using hkeep) with ⟨-, ha, hs, -⟩ | ⟨ha, -, hs, h0⟩
      · rw [hs] at ih ⊢
        rw [List.countP_cons_of_neg ha]
        exact ih
      · rw [hs] at ih ⊢
        rw [List.countP_cons_of_pos ha]
        simp only [CapState.protects] at ih ⊢
        omega

section

variable (key : PublicKey) (tag maxActive maxRevoked : Nat)

theorem capPacketType_sublist :
    (capPacketType key tag maxActive maxRevoked).1.uids.Sublist key.uids := by
  unfold capPacketType
  simp only
  split_ifs
  · exact List.Sublist.refl _
  · exact capLoop_sublist _ _ _

theorem countP_active_capPacketType (h : 2 ≤ maxActive) :
    (capPacketType key tag maxActive maxRevoked).1.uids.countP (isActive tag) ≤ maxActive := by
  have hle := (capPacketType_sublist key tag maxActive maxRevoked).countP_le (p := isActive tag)
  unfold capPacketType at hle ⊢
  simp only at hle ⊢
  split_ifs at hle ⊢ with h0
  · omega
  · -- at most two packets are protected, which is not more than may stay
    rcases countP_active_capLoop tag ⟨key.uids.countP (isActive tag) - maxActive,
      key.uids.countP (isRevoked tag) - maxRevoked, false, false⟩ key.uids with hc | hc
    · simp only at hc ⊢
      omega
    · exact hc.trans h

theorem countP_revoked_capPacketType :
    (capPacketType key tag maxActive maxRevoked).1.uids.countP (isRevoked tag) ≤ maxRevoked := by
  unfold capPacketType
  simp only
  split_ifs with h0
  · show key.uids.countP (isRevoked tag) ≤ maxRevoked
    omega
  · have hc := countP_revoked_capLoop tag ⟨key.uids.countP (isActive tag) - maxActive,
      key.uids.countP (isRevoked tag) - maxRevoked, false, false⟩ key.uids
    simp only at hc ⊢
    omega

end

/-! ## The packets of a cleaned key -/

section

variable (policies : Policies) (key : PublicKey)

/-- The number caps as `cleankeys` applies them. -/
structure NumbersCapped (l : List SignedPacket) : Prop where
  activeUids : l.countP (isActive tagUid) ≤ maxUidsPerKey
  revokedUids : l.countP (isRevoked tagUid) ≤ maxUidsPerKey
  activeUats : l.countP (isActive tagUat) ≤ maxUatsPerKey
  revokedUats : l.countP (isRevoked tagUat) ≤ maxUatsPerKey

theorem cleanPackets_sublist : (cleanPackets g policies key).1.uids.Sublist (dedupSigned g
    (if policies.largePackets then cleanLargePackets key else (key, 0)).1.uids).1 := by
  have hsub : ∀ (capped : Bool) (k : PublicKey) (tag max : Nat),
      (if capped then capPacketType k tag max max else (k, 0)).1.uids.Sublist k.uids := by
    intro capped k tag max
    cases capped with
    | false => exact List.Sublist.refl _
    | true => exact capPacketType_sublist _ _ _ _
  exact (hsub policies.capUats _ _ _).trans (hsub policies.capUids _ _ _)

theorem noRepeats_cleanPackets : NoRepeats (cleanPackets g policies key).1.uids :=
  (noRepeats_dedupLoop _ _).sublist (cleanPackets_sublist policies key)

theorem numbersCapped_cleanPackets (hu : policies.capUids = true) (ha : policies.capUats = true) :
    NumbersCapped (cleanPackets g policies key).1.uids := by
  set k := (dedupsubkeys g (dedupuids g
    (if policies.largePackets then cleanLargePackets key else (key, 0)).1).1).1 with hk
  have heq : (cleanPackets g policies key).1 = (capUatsPerKey (capUidsPerKey k).1).1 := by
    unfold cleanPackets
    simp only [hu, ha, if_true]
    rw [← hk]
  -- the second cap only takes packets away
  have hsub := capPacketType_sublist (capUidsPerKey k).1 tagUat maxUatsPerKey maxUatsPerKey
  rw [heq]
  exact
    { activeUids := hsub.countP_le.trans (countP_active_capPacketType k _ _ _ (by decide))
      revokedUids := hsub.countP_le.trans (countP_revoked_capPacketType k _ _ _)
      activeUats := countP_active_capPacketType _ _ _ _ (by decide)
      revokedUats := countP_revoked_capPacketType _ _ _ _ }

end

/-! ## Thinning

The passes over the signatures keep some of the packets, and some of the signatures on each. -/

/-- `l'` consists of some packets of `l`, each with some of its signatures. -/
def Thins (l l' : List SignedPacket) : Prop :=
  ∃ f : SignedPacket → SignedPacket, (∀ sp, (f sp).packet = sp.packet ∧
    (f sp).sigs.Sublist sp.sigs) ∧ ∃ l₀, List.Sublist l₀ l ∧ l' = l₀.map f

namespace Thins

theorem refl (l : List SignedPacket) : Thins l l :=
  ⟨id, fun _ => ⟨rfl, List.Sublist.refl _⟩, l, List.Sublist.refl _, by simp⟩

theorem nil (l : List SignedPacket) : Thins l [] :=
  ⟨id, fun _ => ⟨rfl, List.Sublist.refl _⟩, [], List.nil_sublist l, rfl⟩

theorem map {f : SignedPacket → SignedPacket}
    (hf : ∀ sp, (f sp).packet = sp.packet ∧ (f sp).sigs.Sublist sp.sigs) (l : List SignedPacket) :
    Thins l (l.map f) := ⟨f, hf, l, List.Sublist.refl _, rfl⟩

theorem sublist {l l' : List SignedPacket} (h : l'.Sublist l) : Thins l l' :=
  ⟨id, fun _ => ⟨rfl, List.Sublist.refl _⟩, l', h, by simp⟩

theorem trans {l l' l'' : List SignedPacket} (h : Thins l l') (h' : Thins l' l'') :
    Thins l l'' := by
  obtain ⟨f, hf, l₀, hl₀, rfl⟩ := h
  obtain ⟨f', hf', l₁, hl₁, rfl⟩ := h'
  obtain ⟨l₂, hl₂, rfl⟩ := List.sublist_map_iff.mp hl₁
  refine ⟨f' ∘ f, fun sp => ⟨?_, ?_⟩, l₂, hl₂.trans hl₀, by simp⟩
  · exact (hf' (f sp)).1.trans (hf sp).1
  · exact (hf' (f sp)).2.trans (hf sp).2

theorem exists_of_mem {l l' : List SignedPacket} (h : Thins l l') {sp' : SignedPacket}
    (hmem : sp' ∈ l') : ∃ sp ∈ l, sp'.packet = sp.packet ∧ sp'.sigs.Sublist sp.sigs := by
  obtain ⟨f, hf, l₀, hl₀, rfl⟩ := h
  obtain ⟨sp, hsp, rfl⟩ := List.mem_map.mp hmem
  exact ⟨sp, hl₀.subset hsp, (hf sp).1, (hf sp).2⟩

theorem noRepeats {l l' : List SignedPacket} (h : Thins l l') (hl : NoRepeats l) :
    NoRepeats l' := by
  obtain ⟨f, hf, l₀, hl₀, rfl⟩ := h
  exact NoRepeats.map_packet (List.Pairwise.sublist hl₀ hl) fun sp _ => (hf sp).1

/-- A property of the packets is counted less often when thinning does not bring it about. -/
theorem countP_le {l l' : List SignedPacket} (h : Thins l l') {p : SignedPacket → Bool}
    (hp : ∀ sp ∈ l, ∀ sp' ∈ l', sp'.packet = sp.packet → sp'.sigs.Sublist sp.sigs →
      p sp' = true → p sp = true) : l'.countP p ≤ l.countP p := by
  obtain ⟨f, hf, l₀, hl₀, rfl⟩ := h
  rw [List.countP_map]
  calc l₀.countP (p ∘ f) ≤ l₀.countP p := by
        refine List.countP_mono_left fun sp hsp hact => ?_
        exact hp sp (hl₀.subset hsp) (f sp) (List.mem_map_of_mem hsp) (hf sp).1 (hf sp).2 hact
    _ ≤ l.countP p := hl₀.countP_le

end Thins

theorem signedpacketIsRevoked_of_sublist {sp sp' : SignedPacket} (h : sp'.sigs.Sublist sp.sigs)
    (hr : signedpacketIsRevoked sp' = true) : signedpacketIsRevoked sp = true := by
  unfold signedpacketIsRevoked at hr ⊢
  obtain ⟨s, hs, hrev⟩ := List.any_eq_true.mp hr
  exact List.any_eq_true.mpr ⟨s, h.subset hs, hrev⟩

/-- Thinning revokes no packet. -/
theorem Thins.countP_revoked_le {l l' : List SignedPacket} (h : Thins l l') (tag : Nat) :
    l'.countP (isRevoked tag) ≤ l.countP (isRevoked tag) := by
  refine h.countP_le fun sp _ sp' _ hpk hsub hrev => ?_
  simp only [isRevoked, decide_eq_true_eq] at hrev ⊢
  exact ⟨hpk ▸ hrev.1, signedpacketIsRevoked_of_sublist hsub hrev.2⟩

/-- Thinning keeps the numbers within the caps as long as it takes no packet its revocations. -/
theorem NumbersCapped.thins {l l' : List SignedPacket} (hc : NumbersCapped l) (h : Thins l l')
    (hstay : ∀ sp ∈ l, signedpacketIsRevoked sp → ∀ sp' ∈ l', sp'.packet.Same sp.packet →
      signedpacketIsRevoked sp') : NumbersCapped l' := by
  have hactive : ∀ tag, l'.countP (isActive tag) ≤ l.countP (isActive tag) := by
    intro tag
    refine h.countP_le fun sp hsp sp' hsp' hpk _ hact => ?_
    simp only [isActive, Bool.not_eq_true', decide_eq_true_eq] at hact ⊢
    refine ⟨hpk ▸ hact.1, ?_⟩
    by_contra hrev
    have := hstay sp hsp (by simpa using hrev) sp' hsp' (by rw [hpk]; exact Packet.Same.refl _)
    rw [hact.2] at this
    exact absurd this (by simp)
  exact
    { activeUids := (hactive _).trans hc.activeUids
      revokedUids := (h.countP_revoked_le _).trans hc.revokedUids
      activeUats := (hactive _).trans hc.activeUats
      revokedUats := (h.countP_revoked_le _).trans hc.revokedUats }

/-! ## The signatures of a cleaned key -/

section

variable {H : Hashes} {C : SigCheck} {D : Lookups}

theorem thins_dedupeListSigs (l : List SignedPacket) : Thins l (dedupeListSigs g l).1 := by
  refine Thins.map (f := fun sp => { sp with sigs := dedupeSigs g sp.sigs }) (fun sp => ?_) l
  exact ⟨rfl, Collapse.collapse_sublist _⟩

theorem thins_capSigsPerPacket (key : PublicKey) (tag max : Nat) :
    Thins key.uids (capSigsPerPacket key tag max).1.uids := by
  unfold capSigsPerPacket
  split_ifs
  · exact Thins.refl _
  · refine Thins.map (fun sp => ?_) _
    unfold capSigs
    split_ifs
    · exact ⟨rfl, List.take_sublist _ _⟩
    · exact ⟨rfl, List.Sublist.refl _⟩

theorem capSigsPerPacket_length {key : PublicKey} {tag max : Nat} (h : 0 < max) {sp : SignedPacket}
    (hsp : sp ∈ (capSigsPerPacket key tag max).1.uids) (ht : sp.packet.tag = tag) :
    sp.sigs.length ≤ max := by
  have hne : max ≠ 0 := by omega
  simp only [capSigsPerPacket, hne, if_false] at hsp
  obtain ⟨x, -, rfl⟩ := List.mem_map.mp hsp
  unfold capSigs at ht ⊢
  split_ifs at ht ⊢
  · simp
  · contradiction

theorem thins_cleanListSighashes (publickey : Packet) (fullverify needother : Bool)
    (l : List SignedPacket) :
    Thins l (cleanListSighashes H g C D publickey fullverify needother l).1 := by
  unfold cleanListSighashes
  simp only
  split_ifs
  · exact Thins.nil l
  · refine (Thins.sublist List.filter_sublist).trans (Thins.map (f := fun sp =>
      { sp with sigs := (cleanSighashes H g C D publickey (some sp.packet) fullverify sp.sigs).sigs })
      (fun sp => ?_) _)
    exact ⟨rfl, List.filter_sublist⟩

variable (policies : Policies) (key : PublicKey)

/-- The uids as the signature caps leave them. -/
def cappedSigs (g : Stale) : List SignedPacket :=
  (capSigsPerPacket (capSigsPerPacket (dedupeKeySigs g key).1 tagUid policies.maxSigsPerUid).1
    tagUat policies.maxSigsPerUat).1.uids

theorem thins_cappedSigs : Thins (dedupeListSigs g key.uids).1 (cappedSigs policies key g) :=
  (thins_capSigsPerPacket (dedupeKeySigs g key).1 _ _).trans (thins_capSigsPerPacket _ _ _)

theorem thins_cleanSigs_capped :
    Thins (cappedSigs policies key g) (cleanSigs H g C D policies key).1.uids := by
  unfold cleanSigs
  simp only
  split_ifs
  · exact thins_cleanListSighashes _ _ _ _
  · exact Thins.refl _

theorem thins_cleanSigs : Thins key.uids (cleanSigs H g C D policies key).1.uids :=
  ((thins_dedupeListSigs key.uids).trans (thins_cappedSigs policies key)).trans
    (thins_cleanSigs_capped policies key)

theorem thins_cleanSigs_subkeys :
    Thins (dedupeListSigs g key.subkeys).1 (cleanSigs H g C D policies key).1.subkeys := by
  have hcap : ∀ (k : PublicKey) (tag max : Nat), (capSigsPerPacket k tag max).1.subkeys =
      k.subkeys := by
    intro k tag max
    unfold capSigsPerPacket
    split_ifs <;> rfl
  have hsub : (capSigsPerPacket (capSigsPerPacket (dedupeKeySigs g key).1 tagUid
      policies.maxSigsPerUid).1 tagUat policies.maxSigsPerUat).1.subkeys =
      (dedupeListSigs g key.subkeys).1 := by
    rw [hcap, hcap]
    rfl
  unfold cleanSigs
  simp only
  split_ifs
  · rw [← hsub]
    exact thins_cleanListSighashes (H := H) (C := C) (D := D) _ policies.verifySignatures false _
  · rw [← hsub]
    exact Thins.refl _

theorem cleanSigs_sigs_sublist :
    (cleanSigs H g C D policies key).1.sigs.Sublist (dedupeSigs g key.sigs) := by
  have hcap : ∀ (k : PublicKey) (tag max : Nat), (capSigsPerPacket k tag max).1.sigs = k.sigs := by
    intro k tag max
    unfold capSigsPerPacket
    split_ifs <;> rfl
  have hsub : (capSigsPerPacket (capSigsPerPacket (dedupeKeySigs g key).1 tagUid
      policies.maxSigsPerUid).1 tagUat policies.maxSigsPerUat).1.sigs = dedupeSigs g key.sigs := by
    rw [hcap, hcap]
    rfl
  unfold cleanSigs
  simp only
  split_ifs
  · rw [← hsub]
    exact List.filter_sublist
  · rw [← hsub]

end

end Onak
