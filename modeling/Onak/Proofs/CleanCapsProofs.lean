import Onak.Proofs.CleanRevocationProofs

/-!
# Proofs: the caps on packets in the end

`cleankeys` counts active and revoked packets before the passes over the signatures take revocations
away. In the end the caps hold as long as the packets that lose their revocation fit in with the active
ones. Both are counted on the key as it was uploaded, where a packet may occur more than once.
-/

namespace Onak

open Places

variable {H : Hashes} {g : Stale} {C : SigCheck} {D : Lookups}

/-! ## Each packet once -/

/-- The first occurrence of each packet. -/
def firsts (l : List SignedPacket) : List SignedPacket :=
  l.eraseDupsBy fun o first => decide (o.packet.Same first.packet)

theorem firsts_cons (o : SignedPacket) (l : List SignedPacket) :
    firsts (o :: l) = o :: firsts (l.filter fun x => ¬ x.packet.Same o.packet) := by
  unfold firsts
  rw [List.eraseDupsBy_cons]
  simp only [decide_eq_false_iff_not]

theorem firsts_induction {P : List SignedPacket → Prop} (nil : P [])
    (cons : ∀ o l, P (l.filter fun x => ¬ x.packet.Same o.packet) → P (o :: l)) (l : List SignedPacket) :
    P l := by
  induction hk : l.length using Nat.strong_induction_on generalizing l with
  | _ k ih =>
    cases l with
    | nil => exact nil
    | cons o l =>
      have hlen := List.length_filter_le (fun x : SignedPacket => ¬ x.packet.Same o.packet) l
      exact cons o l (ih _ (by simp only [List.length_cons] at hk; omega) _ rfl)

/-- Behind a packet, the occurrences of another one are those among the others. -/
theorem occurrences_cons_of_not_same {o : SignedPacket} {l : List SignedPacket} {p : Packet}
    (h : ¬ p.Same o.packet) :
    occurrences (o :: l) p = occurrences (l.filter fun x => ¬ x.packet.Same o.packet) p := by
  unfold occurrences
  rw [List.filter_cons_of_neg (by simpa using fun ho => h ho.symm), List.filter_filter]
  refine List.filter_congr fun y _ => ?_
  by_cases hy : y.packet.Same p
  · have hyo : ¬ y.packet.Same o.packet := fun ho => h (hy.symm.trans ho)
    simp [hy, hyo]
  · simp [hy]

theorem mem_of_mem_firsts {l : List SignedPacket} {o : SignedPacket} (h : o ∈ firsts l) : o ∈ l := by
  induction l using firsts_induction with
  | nil => exact h
  | cons x l ih =>
    rw [firsts_cons, List.mem_cons] at h
    rcases h with rfl | h
    · exact List.mem_cons_self
    · exact List.mem_cons_of_mem _ (List.mem_filter.mp (ih h)).1

theorem occurrences_of_mem_firsts {l : List SignedPacket} {o : SignedPacket} (h : o ∈ firsts l) :
    occurrences l o.packet = o :: (occurrences l o.packet).tail := by
  induction l using firsts_induction with
  | nil => exact absurd h List.not_mem_nil
  | cons x l ih =>
    rw [firsts_cons, List.mem_cons] at h
    rcases h with rfl | h
    · unfold occurrences
      rw [List.filter_cons_of_pos (by simpa using Packet.Same.refl o.packet), List.tail_cons]
    · have hnot := (List.mem_filter.mp (mem_of_mem_firsts h)).2
      rw [decide_eq_true_eq] at hnot
      rw [occurrences_cons_of_not_same hnot]
      exact ih h

variable (g) in
/-- A packet with the signatures of all its occurrences merged into the first one. -/
def mergedAt (l : List SignedPacket) (o : SignedPacket) : SignedPacket :=
  mergeOccurrences g o (occurrences l o.packet).tail

theorem mergedAt_packet (l : List SignedPacket) (o : SignedPacket) : (mergedAt g l o).packet = o.packet := by
  unfold mergedAt
  generalize (occurrences l o.packet).tail = dups
  induction dups generalizing o with
  | nil => rfl
  | cons dup dups ih => exact ih (mergePacketSigs g o dup).1

theorem dedupLoop_eq {fuel : Nat} {l : List SignedPacket} (h : l.length ≤ fuel) :
    (dedupLoop g fuel l).1 = (firsts l).map (mergedAt g l) := by
  induction fuel generalizing l with
  | zero =>
    obtain rfl := List.length_eq_zero_iff.mp (Nat.le_zero.mp h)
    rfl
  | succ fuel ih =>
    cases l with
    | nil => rfl
    | cons o l =>
      obtain ⟨hfst, hrest⟩ := absorbDups_eq g o l
      have hlen := List.length_filter_le (fun x : SignedPacket => ¬ x.packet.Same o.packet) l
      rw [List.length_cons] at h
      have hocc : occurrences (o :: l) o.packet = o :: occurrences l o.packet :=
        List.filter_cons_of_pos (by simpa using Packet.Same.refl o.packet)
      simp only [dedupLoop]
      rw [hfst, hrest, ih (by omega), firsts_cons, List.map_cons]
      congr 1
      · unfold mergedAt
        rw [hocc, List.tail_cons]
      · refine List.map_congr_left fun x hx => ?_
        have hnot := (List.mem_filter.mp (mem_of_mem_firsts hx)).2
        rw [decide_eq_true_eq] at hnot
        unfold mergedAt
        rw [occurrences_cons_of_not_same hnot]

theorem dedupSigned_eq (l : List SignedPacket) : (dedupSigned g l).1 = (firsts l).map (mergedAt g l) :=
  dedupLoop_eq (le_refl l.length)

/-! ## The packets of the upload -/

section

variable (H : Hashes) (g : Stale) (C : SigCheck) (D : Lookups) (policies : Policies) (tag : Nat)
  (key : PublicKey)

/-- Some occurrence of the packet is revoked. -/
def someRevoked (o : SignedPacket) : Bool := (occurrences key.uids o.packet).any signedpacketIsRevoked

/-- The packets of the tag, each once, that are not revoked in the upload. -/
def activeOnes : List SignedPacket :=
  (firsts (smallUids policies key)).filter fun o => o.packet.tag = tag && !someRevoked key o

/-- The packets of the tag, each once, that are revoked in the upload. -/
def revokedOnes : List SignedPacket :=
  (firsts (smallUids policies key)).filter fun o => o.packet.tag = tag && someRevoked key o

/-- The packet stays, with a signature of the key itself if there has to be one, but no revocation that
passes the check is left on it. -/
def losesRevocation (o : SignedPacket) : Bool :=
  let sigs := gather g [] (occurrences key.uids o.packet)
  let max := policies.maxSigs o.packet.tag
  let verdict := sigVerdict H g C D key.publickey (some o.packet) policies.verifySignatures
  (!policies.verifySignatures || someLeft g max sigs fun s => (verdict s).selfsig) &&
    !someLeft g max sigs fun s => sigRevokesPacket s && !(policies.checks && (verdict s).remove)

/-- Of the last revoked packets of the upload, as many as the cap, those that lose their revocation. -/
def lostOnes (max : Nat) : Nat :=
  ((revokedOnes policies tag key).drop ((revokedOnes policies tag key).length - max)).countP
    (losesRevocation H g C D policies key)

/-- The signatures of every packet are told apart. -/
def AllToldApart : Prop := ∀ o ∈ key.uids, ToldApart (occurrences key.uids o.packet)

instance : Decidable (AllToldApart key) := inferInstanceAs (Decidable (∀ o ∈ key.uids, _))

/-- The packets that lose their revocation fit in with the active ones, and the signatures of every packet
are told apart. -/
structure LossesFit : Prop where
  apart : AllToldApart key
  uids : min (activeOnes policies tagUid key).length maxUidsPerKey +
    lostOnes H g C D policies tagUid key maxUidsPerKey ≤ maxUidsPerKey
  uats : min (activeOnes policies tagUat key).length maxUatsPerKey +
    lostOnes H g C D policies tagUat key maxUatsPerKey ≤ maxUatsPerKey

end

section

variable {policies : Policies} {key : PublicKey} {tag : Nat}

theorem occurrences_of_first {o : SignedPacket} (h : o ∈ firsts (smallUids policies key)) :
    occurrences (smallUids policies key) o.packet = occurrences key.uids o.packet :=
  occurrences_smallUids policies (mem_of_mem_firsts h) (Packet.Same.refl o.packet)

theorem toldApart_of_first (h : AllToldApart key) {o : SignedPacket}
    (ho : o ∈ firsts (smallUids policies key)) : ToldApart (occurrences key.uids o.packet) :=
  h o (List.mem_filter.mp (mem_of_mem_firsts ho)).1

/-- The occurrences of a packet in the upload start with its first one. -/
theorem occurrences_eq_cons {o : SignedPacket} (ho : o ∈ firsts (smallUids policies key)) :
    occurrences key.uids o.packet = o :: (occurrences (smallUids policies key) o.packet).tail := by
  rw [← occurrences_of_first ho]
  exact occurrences_of_mem_firsts ho

/-- A merged packet is revoked if some occurrence is. -/
theorem mergedAt_revoked (h : AllToldApart key) {o : SignedPacket}
    (ho : o ∈ firsts (smallUids policies key)) :
    signedpacketIsRevoked (mergedAt g (smallUids policies key) o) = someRevoked key o := by
  have hapart := toldApart_of_first h ho
  have hocc := occurrences_eq_cons ho
  rw [hocc] at hapart
  unfold someRevoked
  rw [hocc, ← any_revokes_gathered (g := g) hapart, ← any_revokes_dedupeSigs (g := g),
    ← dedupeSigs_mergeOccurrences hapart, any_revokes_dedupeSigs]
  rfl

theorem filter_revoked_dedupSigned (h : AllToldApart key) :
    (dedupSigned g (smallUids policies key)).1.filter (isRevoked tag) =
      (revokedOnes policies tag key).map (mergedAt g (smallUids policies key)) := by
  rw [dedupSigned_eq, List.filter_map]
  unfold revokedOnes
  refine congrArg (List.map _) (List.filter_congr fun o ho => ?_)
  unfold isRevoked
  simp only [Function.comp_apply, mergedAt_packet, mergedAt_revoked h ho, Bool.decide_and,
    Bool.decide_eq_true]

theorem countP_active_dedupSigned (h : AllToldApart key) :
    (dedupSigned g (smallUids policies key)).1.countP (isActive tag) =
      (activeOnes policies tag key).length := by
  rw [dedupSigned_eq, List.countP_map]
  unfold activeOnes
  rw [← List.countP_eq_length_filter]
  refine List.countP_congr fun o ho => ?_
  unfold isActive
  simp only [Function.comp_apply, mergedAt_packet, mergedAt_revoked h ho, Bool.decide_and,
    Bool.decide_eq_true]

/-! ## The packets that the caps leave -/

theorem cleanPackets_uids (hu : policies.capUids = true) (ha : policies.capUats = true) :
    (cleanPackets g policies key).1.uids = afterEviction tagUat (afterEviction tagUid
      (dedupSigned g (smallUids policies key)).1 maxUidsPerKey maxUidsPerKey) maxUatsPerKey maxUatsPerKey := by
  unfold cleanPackets
  simp only [hu, ha, if_true, capUidsPerKey, capUatsPerKey]
  rw [capPacketType_eq _ _ _ (by decide), capPacketType_eq _ _ _ (by decide), ← cleanLarge_uids]
  rfl

theorem isRevoked_tag {tag' : Nat} (hne : tag' ≠ tag) (sp : SignedPacket)
    (h : isRevoked tag' sp = true) : sp.packet.tag ≠ tag := by
  rw [(isRevoked_iff.mp h).1]
  exact hne

theorem isActive_tag {tag' : Nat} (hne : tag' ≠ tag) (sp : SignedPacket)
    (h : isActive tag' sp = true) : sp.packet.tag ≠ tag := by
  rw [(isActive_iff.mp h).1]
  exact hne

/-- Of the revoked packets, the last ones stay. -/
theorem filter_revoked_cleanPackets (h : AllToldApart key) (hu : policies.capUids = true)
    (ha : policies.capUats = true) {max : Nat}
    (htag : tag = tagUid ∧ max = maxUidsPerKey ∨ tag = tagUat ∧ max = maxUatsPerKey) :
    (cleanPackets g policies key).1.uids.filter (isRevoked tag) =
      ((revokedOnes policies tag key).drop ((revokedOnes policies tag key).length - max)).map
        (mergedAt g (smallUids policies key)) := by
  rw [cleanPackets_uids hu ha, List.map_drop, ← filter_revoked_dedupSigned h,
    ← List.length_map (f := mergedAt g (smallUids policies key)), ← filter_revoked_dedupSigned h,
    ← List.countP_eq_length_filter]
  rcases htag with ⟨rfl, rfl⟩ | ⟨rfl, rfl⟩
  · rw [filter_afterEviction_of_tag _ _ (isRevoked_tag (by decide)), filter_revoked_afterEviction]
  · have hother := filter_afterEviction_of_tag (l := (dedupSigned g (smallUids policies key)).1)
      maxUidsPerKey maxUidsPerKey (isRevoked_tag (by decide : tagUat ≠ tagUid))
    rw [filter_revoked_afterEviction, List.countP_eq_length_filter, hother, List.countP_eq_length_filter]

/-- As many active packets stay as fit under the cap. -/
theorem countP_active_cleanPackets (h : AllToldApart key) (hu : policies.capUids = true)
    (ha : policies.capUats = true) {max : Nat}
    (htag : tag = tagUid ∧ max = maxUidsPerKey ∨ tag = tagUat ∧ max = maxUatsPerKey) :
    (cleanPackets g policies key).1.uids.countP (isActive tag) =
      min (activeOnes policies tag key).length max := by
  rw [cleanPackets_uids hu ha, ← countP_active_dedupSigned (g := g) h]
  rcases htag with ⟨rfl, rfl⟩ | ⟨rfl, rfl⟩
  · rw [List.countP_eq_length_filter, filter_afterEviction_of_tag _ _ (isActive_tag (by decide)),
      ← List.countP_eq_length_filter, countP_active_afterEviction (by decide)]
  · have hother := filter_afterEviction_of_tag (l := (dedupSigned g (smallUids policies key)).1)
      maxUidsPerKey maxUidsPerKey (isActive_tag (by decide : tagUat ≠ tagUid))
    rw [countP_active_afterEviction (by decide), List.countP_eq_length_filter, hother,
      ← List.countP_eq_length_filter]

end

/-! ## The packets that end up active -/

section

variable (H : Hashes) (g : Stale) (C : SigCheck) (D : Lookups) {policies : Policies} {key : PublicKey}
  {tag : Nat}

variable (policies) in
/-- The packets of a tag that end up active: those that stay and are active when they are counted,
and those that stay and are revoked then but lose their last revocation. -/
def endActive (tag : Nat) (key : PublicKey) : Nat :=
  (key.uids.countP fun sp => stays H g C D policies key.publickey sp && isActive tag sp) +
  key.uids.countP fun sp => stays H g C D policies key.publickey sp && (isRevoked tag sp &&
    !(sigsLeftOn H g C D policies key.publickey sp).any sigRevokesPacket)

theorem countP_active_cleanSigs (key : PublicKey) (tag : Nat) :
    (cleanSigs H g C D policies key).1.uids.countP (isActive tag) =
      if allGo H g C D policies key.publickey key.uids then 0
      else endActive H g C D policies tag key := by
  rw [cleanSigs_uids]
  split_ifs
  · rfl
  · unfold endActive
    rw [List.countP_map, List.countP_filter, ← countP_or_of_disjoint]
    · refine List.countP_congr fun sp _ => ?_
      set left := sigsLeftOn H g C D policies key.publickey sp with hleft
      have hsub : left.any sigRevokesPacket = true → signedpacketIsRevoked sp = true :=
        @signedpacketIsRevoked_of_sublist sp ⟨sp.packet, left⟩ (sigsLeftOn_sublist H g C D policies sp)
      have hnew : signedpacketIsRevoked ⟨sp.packet, left⟩ = left.any sigRevokesPacket := rfl
      simp only [Function.comp_apply, isActive, isRevoked, ← hleft, hnew]
      cases hany : left.any sigRevokesPacket with
      | false => cases signedpacketIsRevoked sp <;> simp [and_comm]
      | true => simp [hsub hany]
    · intro sp hsp
      have hactive := (isActive_iff.mp (Bool.and_eq_true_iff.mp hsp).2).2
      simp [isRevoked, hactive]

/-- Whether a merged packet loses its revocation can be told on the upload. -/
theorem losesRevocation_eq (h : AllToldApart key) {o : SignedPacket}
    (ho : o ∈ firsts (smallUids policies key)) :
    (stays H g C D policies key.publickey (mergedAt g (smallUids policies key) o) &&
        !(sigsLeftOn H g C D policies key.publickey (mergedAt g (smallUids policies key) o)).any
          sigRevokesPacket) = losesRevocation H g C D policies key o := by
  have hocc := occurrences_eq_cons ho
  have hapart := toldApart_of_first h ho
  have hpacket := mergedAt_packet (g := g) (smallUids policies key) o
  have hany : ∀ q : Packet → Bool, (cappedOn g policies (mergedAt g (smallUids policies key) o)).any q =
      someLeft g (policies.maxSigs o.packet.tag) (gather g [] (occurrences key.uids o.packet)) q := by
    intro q
    rw [hocc] at hapart ⊢
    have hmerged : mergedAt g (smallUids policies key) o = mergeOccurrences g o _ := rfl
    rw [any_cappedOn policies hmerged hapart q, hpacket]
  unfold losesRevocation
  simp only [← hany]
  congr 1
  · unfold stays checkedOn
    rw [hpacket, Bool.not_and, Bool.not_not]
    rfl
  · unfold sigsLeftOn checkedOn
    rw [hpacket]
    cases hchecks : policies.checks with
    | false => simp
    | true =>
      rw [if_pos rfl]
      show (!((cappedOn g policies _).filter _).any sigRevokesPacket) = _
      rw [List.any_filter]
      simp [Bool.and_comm]

theorem endActive_eq (h : AllToldApart key) (hu : policies.capUids = true)
    (ha : policies.capUats = true) {max : Nat}
    (htag : tag = tagUid ∧ max = maxUidsPerKey ∨ tag = tagUat ∧ max = maxUatsPerKey) :
    endActive H g C D policies tag (cleanPackets g policies key).1 =
      ((cleanPackets g policies key).1.uids.countP fun sp =>
        stays H g C D policies key.publickey sp && isActive tag sp) +
        lostOnes H g C D policies tag key max := by
  have hkey : (cleanPackets g policies key).1.publickey = key.publickey :=
    (sameHead_cleanPackets policies key).publickey
  unfold endActive
  rw [hkey]
  congr 1
  set loses := fun sp => stays H g C D policies key.publickey sp &&
    !(sigsLeftOn H g C D policies key.publickey sp).any sigRevokesPacket with hloses
  calc (cleanPackets g policies key).1.uids.countP (fun sp => stays H g C D policies key.publickey sp &&
        (isRevoked tag sp && !(sigsLeftOn H g C D policies key.publickey sp).any sigRevokesPacket))
    _ = ((cleanPackets g policies key).1.uids.filter (isRevoked tag)).countP loses := by
      rw [List.countP_filter]
      refine List.countP_congr fun sp _ => ?_
      rw [hloses]
      simp only [Bool.and_eq_true]
      tauto
    _ = lostOnes H g C D policies tag key max := by
      rw [filter_revoked_cleanPackets h hu ha htag, List.countP_map]
      unfold lostOnes
      refine List.countP_congr fun o ho => ?_
      have hfirst : o ∈ firsts (smallUids policies key) :=
        (List.mem_filter.mp (List.mem_of_mem_drop ho)).1
      rw [← losesRevocation_eq H g C D h hfirst]
      rfl

/-- At most as many packets end up active as the upload has active ones, up to the cap, and lose their
revocation. Where no packet has to have a signature of the key itself, they are as many. -/
theorem endActive_le (h : AllToldApart key) (hu : policies.capUids = true)
    (ha : policies.capUats = true) {max : Nat}
    (htag : tag = tagUid ∧ max = maxUidsPerKey ∨ tag = tagUat ∧ max = maxUatsPerKey) :
    endActive H g C D policies tag (cleanPackets g policies key).1 ≤
        min (activeOnes policies tag key).length max + lostOnes H g C D policies tag key max ∧
      (policies.verifySignatures = false →
        endActive H g C D policies tag (cleanPackets g policies key).1 =
          min (activeOnes policies tag key).length max + lostOnes H g C D policies tag key max) := by
  rw [endActive_eq H g C D h hu ha htag, ← countP_active_cleanPackets (g := g) h hu ha htag]
  constructor
  · refine Nat.add_le_add_right (List.countP_mono_left fun sp _ hsp => ?_) _
    exact (Bool.and_eq_true_iff.mp hsp).2
  · intro hverify
    congr 1
    refine List.countP_congr fun sp _ => ?_
    simp [stays, hverify]

variable (policies) in
theorem numbersCapped_of_lossesFit (hu : policies.capUids = true) (ha : policies.capUats = true)
    (h : LossesFit H g C D policies key) : NumbersCapped (cleanKey H g C D policies key).1.uids := by
  have hcapped := numbersCapped_cleanPackets (g := g) policies key hu ha
  have hthin := thins_cleanSigs (H := H) (g := g) (C := C) (D := D) policies
    (cleanPackets g policies key).1
  have hactive : ∀ {tag max : Nat}, (tag = tagUid ∧ max = maxUidsPerKey ∨ tag = tagUat ∧ max = maxUatsPerKey) →
      min (activeOnes policies tag key).length max + lostOnes H g C D policies tag key max ≤ max →
        (cleanKey H g C D policies key).1.uids.countP (isActive tag) ≤ max := by
    intro tag max htag hfit
    show (cleanSigs H g C D policies (cleanPackets g policies key).1).1.uids.countP _ ≤ max
    rw [countP_active_cleanSigs]
    split_ifs
    · exact Nat.zero_le max
    · exact (endActive_le H g C D h.apart hu ha htag).1.trans hfit
  exact
    { activeUids := hactive (.inl ⟨rfl, rfl⟩) h.uids
      revokedUids := (hthin.countP_revoked_le _).trans hcapped.revokedUids
      activeUats := hactive (.inr ⟨rfl, rfl⟩) h.uats
      revokedUats := (hthin.countP_revoked_le _).trans hcapped.revokedUats }

variable (policies) in
theorem lossesFit_of_numbersCapped (hu : policies.capUids = true) (ha : policies.capUats = true)
    (hverify : policies.verifySignatures = false) (hapart : AllToldApart key)
    (h : NumbersCapped (cleanKey H g C D policies key).1.uids) : LossesFit H g C D policies key := by
  have hactive : ∀ {tag max : Nat}, (tag = tagUid ∧ max = maxUidsPerKey ∨ tag = tagUat ∧ max = maxUatsPerKey) →
      (cleanKey H g C D policies key).1.uids.countP (isActive tag) ≤ max →
        min (activeOnes policies tag key).length max + lostOnes H g C D policies tag key max ≤ max := by
    intro tag max htag hle
    have hcount : (cleanKey H g C D policies key).1.uids.countP (isActive tag) = _ :=
      countP_active_cleanSigs H g C D (cleanPackets g policies key).1 tag
    have hstay : allGo H g C D policies (cleanPackets g policies key).1.publickey
        (cleanPackets g policies key).1.uids = false := by
      simp [allGo, hverify]
    rw [hcount, hstay, if_neg Bool.false_ne_true, (endActive_le H g C D hapart hu ha htag).2 hverify] at hle
    exact hle
  exact ⟨hapart, hactive (.inl ⟨rfl, rfl⟩) h.activeUids, hactive (.inr ⟨rfl, rfl⟩) h.activeUats⟩

end

/-- A user attribute with two signatures: a certification, and then what may be a revocation. -/
def sampleUat (name type : UInt8) : SignedPacket :=
  ⟨⟨tagUat, false, [name]⟩, [sampleSig 4 0x10 1, sampleSig 4 type 2]⟩

end Onak
