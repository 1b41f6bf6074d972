import Onak.Lib.Passes
import Onak.Proofs.CleanPassesProofs

/-!
# Proofs: what cleaning counts

Every pass of `cleankeys` over a key takes packets or signatures away and returns how many. On which
keys a pass counts nothing can be read off the key; the passes up to the check of signatures then
leave the key as it is. The check also drops whole packets, and these it does not count.
-/

namespace Onak

open Passes Places

variable {H : Hashes} {g : Stale} {C : SigCheck} {D : Lookups}

/-! ## The size of a key -/

/-- The number of packets in a list, with their signatures. -/
def signedSize (l : List SignedPacket) : Nat := (l.map fun sp => sp.sigs.length + 1).sum

/-- The number of packets of a key, signatures included, besides the key packet. -/
def keySize (key : PublicKey) : Nat :=
  key.sigs.length + signedSize key.uids + signedSize key.subkeys

theorem signedSize_cons (sp : SignedPacket) (l : List SignedPacket) :
    signedSize (sp :: l) = sp.sigs.length + 1 + signedSize l := rfl

theorem signedSize_sublist {l' l : List SignedPacket} (h : l'.Sublist l) :
    signedSize l' + l.length ≤ signedSize l + l'.length := by
  induction h with
  | slnil => exact le_rfl
  | cons sp _ ih =>
    rw [signedSize_cons, List.length_cons]
    omega
  | cons_cons sp _ ih =>
    rw [signedSize_cons, signedSize_cons, List.length_cons, List.length_cons]
    omega

theorem signedSize_map {f : SignedPacket → SignedPacket} {c : SignedPacket → Nat}
    (hf : ∀ sp, (f sp).sigs.length + c sp ≤ sp.sigs.length) (l : List SignedPacket) :
    signedSize (l.map f) + (l.map c).sum ≤ signedSize l := by
  induction l with
  | nil => exact le_rfl
  | cons sp l ih =>
    have hsp := hf sp
    rw [List.map_cons, List.map_cons, signedSize_cons, signedSize_cons, List.sum_cons]
    omega

/-! ## Large packets -/

theorem shrinks_cleanLargePackets : Shrinks keySize cleanLargePackets := by
  intro key
  have hsize := signedSize_sublist (List.filter_sublist (l := key.uids)
    (p := fun sp => !decide (packetLimit sp.packet.tag < sp.packet.length)))
  have hsplit := List.length_eq_countP_add_countP (l := key.uids)
    fun sp => decide (packetLimit sp.packet.tag < sp.packet.length)
  rw [← List.countP_eq_length_filter] at hsize
  simp only [keySize, cleanLargePackets]
  simp only [Bool.not_eq_true, Bool.decide_eq_false] at hsplit
  omega

theorem silent_cleanLargePackets : Silent (fun key => ∀ sp ∈ key.uids,
    sp.packet.length ≤ packetLimit sp.packet.tag) cleanLargePackets where
  zero_iff := by
    intro key
    show key.uids.countP _ = 0 ↔ _
    rw [List.countP_eq_zero]
    simp only [decide_eq_true_eq, not_lt]
  same := by
    intro key h
    have huids : key.uids.filter (fun sp => !decide (packetLimit sp.packet.tag < sp.packet.length)) =
        key.uids := List.filter_eq_self.mpr fun sp hsp => by simpa using h sp hsp
    show { key with uids := key.uids.filter _ } = key
    rw [huids]

/-! ## Duplicate packets -/

theorem signedSize_absorbDups (cur : SignedPacket) (l : List SignedPacket) :
    signedSize ((absorbDups g cur l).1 :: (absorbDups g cur l).2.1) + (absorbDups g cur l).2.2 ≤
      signedSize (cur :: l) := by
  induction l generalizing cur with
  | nil => exact le_rfl
  | cons dup l ih =>
    simp only [absorbDups]
    split_ifs
    · have hmerged : (mergePacketSigs g cur dup).1.sigs.length ≤ cur.sigs.length + dup.sigs.length := by
        have hdedupe := (Collapse.collapse_sublist (m := signaturesMatchSigner g) (n := innerWins g)
          (cur.sigs ++ newSigs g cur.sigs dup.sigs)).length_le
        have hnew : (newSigs g cur.sigs dup.sigs).length ≤ dup.sigs.length := List.length_filter_le _ _
        rw [List.length_append] at hdedupe
        exact hdedupe.trans (Nat.add_le_add_left hnew _)
      have ih := ih (mergePacketSigs g cur dup).1
      simp only [signedSize_cons] at ih ⊢
      omega
    · have ih := ih cur
      simp only [signedSize_cons] at ih ⊢
      omega

theorem signedSize_dedupLoop (fuel : Nat) (l : List SignedPacket) :
    signedSize (dedupLoop g fuel l).1 + (dedupLoop g fuel l).2 ≤ signedSize l := by
  induction fuel generalizing l with
  | zero => exact Nat.zero_le _
  | succ fuel ih =>
    cases l with
    | nil => exact le_rfl
    | cons cur rest =>
      have habsorb := signedSize_absorbDups (g := g) cur rest
      have ih := ih (absorbDups g cur rest).2.1
      simp only [dedupLoop]
      rw [signedSize_cons] at habsorb ⊢
      omega

theorem absorbDups_count (cur : SignedPacket) (l : List SignedPacket) :
    (absorbDups g cur l).2.2 = (occurrences l cur.packet).length := by
  induction l generalizing cur with
  | nil => rfl
  | cons dup l ih =>
    simp only [absorbDups]
    by_cases hsame : dup.packet.Same cur.packet
    · have hocc : occurrences (dup :: l) cur.packet = dup :: occurrences l cur.packet :=
        List.filter_cons_of_pos (by simpa using hsame)
      rw [if_pos (by simpa using comparePackets_eq_zero_iff.mpr hsame), hocc, List.length_cons]
      exact congrArg (· + 1) (ih (mergePacketSigs g cur dup).1)
    · have hocc : occurrences (dup :: l) cur.packet = occurrences l cur.packet :=
        List.filter_cons_of_neg (by simpa using hsame)
      rw [if_neg (by simpa using fun h => hsame (comparePackets_eq_zero_iff.mp h)), hocc]
      exact ih cur

theorem silent_dedupLoop {fuel : Nat} {l : List SignedPacket} (hfuel : l.length ≤ fuel) :
    ((dedupLoop g fuel l).2 = 0 ↔ NoRepeats l) ∧ (NoRepeats l → (dedupLoop g fuel l).1 = l) := by
  induction fuel generalizing l with
  | zero =>
    obtain rfl : l = [] := List.length_eq_zero_iff.mp (by omega)
    exact ⟨iff_of_true rfl List.Pairwise.nil, fun _ => rfl⟩
  | succ fuel ih =>
    cases l with
    | nil => exact ⟨iff_of_true rfl List.Pairwise.nil, fun _ => rfl⟩
    | cons cur rest =>
      have hcount := absorbDups_count (g := g) cur rest
      have hlen := (absorbDups_sublist (g := g) cur rest).length_le
      obtain ⟨hfst, hrest⟩ := absorbDups_eq g cur rest
      -- nothing is absorbed if and only if the packet does not occur again
      have hzero : (absorbDups g cur rest).2.2 = 0 ↔ ∀ sp ∈ rest, ¬ cur.packet.Same sp.packet := by
        rw [hcount, List.length_eq_zero_iff, occurrences, List.filter_eq_nil_iff]
        refine forall₂_congr fun sp _ => ?_
        rw [decide_eq_true_eq]
        exact not_congr ⟨Packet.Same.symm, Packet.Same.symm⟩
      have hkeep : (∀ sp ∈ rest, ¬ cur.packet.Same sp.packet) →
          (absorbDups g cur rest).1 = cur ∧ (absorbDups g cur rest).2.1 = rest := by
        intro h
        have hnone : occurrences rest cur.packet = [] :=
          List.filter_eq_nil_iff.mpr fun sp hsp => by simpa using fun hs => h sp hsp hs.symm
        rw [hfst, hrest, hnone]
        exact ⟨rfl, List.filter_eq_self.mpr fun sp hsp => by simpa using fun hs => h sp hsp hs.symm⟩
      have hfuel' : (absorbDups g cur rest).2.1.length ≤ fuel := by
        rw [List.length_cons] at hfuel
        omega
      obtain ⟨hiff, hsame⟩ := ih hfuel'
      simp only [dedupLoop]
      unfold NoRepeats at hiff hsame ⊢
      rw [List.pairwise_cons, Nat.add_eq_zero_iff, hzero, hiff]
      constructor
      · refine and_congr_right fun h => ?_
        rw [(hkeep h).2]
      · rintro ⟨h, hpair⟩
        rw [(hkeep h).1, hsame ((hkeep h).2.symm ▸ hpair), (hkeep h).2]

theorem shrinks_dedupuids : Shrinks keySize (dedupuids g) := by
  intro key
  have hsize := signedSize_dedupLoop (g := g) key.uids.length key.uids
  simp only [keySize, dedupuids, dedupSigned]
  omega

theorem shrinks_dedupsubkeys : Shrinks keySize (dedupsubkeys g) := by
  intro key
  have hsize := signedSize_dedupLoop (g := g) key.subkeys.length key.subkeys
  simp only [keySize, dedupsubkeys, dedupSigned]
  omega

theorem silent_dedupuids : Silent (fun key => NoRepeats key.uids) (dedupuids g) where
  zero_iff := fun key => (silent_dedupLoop le_rfl).1
  same := by
    intro key h
    show { key with uids := (dedupLoop g key.uids.length key.uids).1 } = key
    rw [(silent_dedupLoop le_rfl).2 h]

theorem silent_dedupsubkeys : Silent (fun key => NoRepeats key.subkeys) (dedupsubkeys g) where
  zero_iff := fun key => (silent_dedupLoop le_rfl).1
  same := by
    intro key h
    show { key with subkeys := (dedupLoop g key.subkeys.length key.subkeys).1 } = key
    rw [(silent_dedupLoop le_rfl).2 h]

/-! ## Caps on packets -/

theorem shrinks_capPacketType (tag : Nat) {max : Nat} (h : 2 ≤ max) :
    Shrinks keySize fun key => capPacketType key tag max max := by
  intro key
  have hsize := signedSize_sublist (capPacketType_sublist key tag max max)
  have hlen := capPacketType_length key tag max h
  show keySize (capPacketType key tag max max).1 + (capPacketType key tag max max).2 ≤ keySize key
  rw [capPacketType_eq key tag max h] at hsize hlen ⊢
  simp only [keySize] at hsize hlen ⊢
  omega

theorem silent_capPacketType (tag : Nat) {max : Nat} (h : 2 ≤ max) :
    Silent (fun key => key.uids.countP (isActive tag) ≤ max ∧ key.uids.countP (isRevoked tag) ≤ max)
      fun key => capPacketType key tag max max where
  zero_iff := by
    intro key
    rw [capPacketType_eq key tag max h]
    simp only
    omega
  same := by
    rintro key ⟨ha, hr⟩
    rw [capPacketType_eq key tag max h, afterEviction_of_fits ha hr]

/-! ## Repeated signatures -/

theorem dedupeSigsDropped_eq_zero_iff (sigs : List Packet) :
    dedupeSigsDropped g sigs = 0 ↔ SignersDiffer g sigs := by
  have hlen := Collapse.length_collapse_add_dropped (m := signaturesMatchSigner g)
    (n := innerWins g) sigs
  unfold SignersDiffer
  rw [← Collapse.collapse_eq_self_iff ranked]
  constructor
  · intro h
    have hzero : Collapse.dropped (signaturesMatchSigner g) (innerWins g) sigs = 0 := h
    exact (Collapse.collapse_sublist sigs).eq_of_length (by omega)
  · intro h
    rw [h] at hlen
    show Collapse.dropped _ _ sigs = 0
    omega

theorem dedupeSigs_of_signersDiffer {sigs : List Packet} (h : SignersDiffer g sigs) :
    dedupeSigs g sigs = sigs :=
  (Collapse.collapse_eq_self_iff ranked).mpr h

theorem shrinks_dedupeKeySigs : Shrinks keySize (dedupeKeySigs g) := by
  intro key
  have hlist : ∀ l, signedSize (dedupeListSigs g l).1 + (dedupeListSigs g l).2 ≤ signedSize l :=
    signedSize_map fun sp => (Collapse.length_collapse_add_dropped sp.sigs).le
  have hdirect := (Collapse.length_collapse_add_dropped (m := signaturesMatchSigner g)
    (n := innerWins g) key.sigs).le
  have huids := hlist key.uids
  have hsubkeys := hlist key.subkeys
  simp only [keySize, dedupeKeySigs]
  show (Collapse.collapse _ _ _).length + _ + _ + (Collapse.dropped _ _ _ + _ + _) ≤ _
  omega

theorem silent_dedupeKeySigs : Silent (OneSigPerSigner g) (dedupeKeySigs g) where
  zero_iff := by
    intro key
    have hlist : ∀ l : List SignedPacket, (dedupeListSigs g l).2 = 0 ↔
        ∀ sp ∈ l, SignersDiffer g sp.sigs := by
      intro l
      show (l.map _).sum = 0 ↔ _
      rw [List.sum_eq_zero_iff]
      simp only [List.forall_mem_map, dedupeSigsDropped_eq_zero_iff]
    show dedupeSigsDropped g key.sigs + _ + _ = 0 ↔ _
    rw [Nat.add_eq_zero_iff, Nat.add_eq_zero_iff, dedupeSigsDropped_eq_zero_iff, hlist, hlist]
    exact ⟨fun h => ⟨h.1.1, h.1.2, h.2⟩, fun h => ⟨⟨h.sigs, h.uids⟩, h.subkeys⟩⟩
  same := by
    intro key h
    have hlist : ∀ l : List SignedPacket, (∀ sp ∈ l, SignersDiffer g sp.sigs) →
        (dedupeListSigs g l).1 = l := by
      intro l hl
      conv_rhs => rw [← List.map_id l]
      refine List.map_congr_left fun sp hsp => ?_
      rw [dedupeSigs_of_signersDiffer (hl sp hsp)]
      rfl
    show { key with sigs := _, uids := _, subkeys := _ } = key
    rw [dedupeSigs_of_signersDiffer h.sigs, hlist _ h.uids, hlist _ h.subkeys]

/-! ## Caps on signatures -/

theorem shrinks_capSigsPerPacket (tag max : Nat) :
    Shrinks keySize fun key => capSigsPerPacket key tag max := by
  intro key
  unfold capSigsPerPacket
  split_ifs
  · exact le_rfl
  · have hsize := signedSize_map (f := capSigs tag max)
      (c := fun sp => if sp.packet.tag = tag then sp.sigs.length - max else 0) (fun sp => by
        unfold capSigs
        split_ifs
        · rw [List.length_take]
          omega
        · exact le_rfl) key.uids
    simp only [keySize]
    omega

theorem silent_capSigsPerPacket (tag max : Nat) :
    Silent (fun key => max ≠ 0 → ∀ sp ∈ key.uids, sp.packet.tag = tag → sp.sigs.length ≤ max)
      fun key => capSigsPerPacket key tag max where
  zero_iff := by
    intro key
    unfold capSigsPerPacket
    split_ifs with hmax
    · simp [hmax]
    · show (key.uids.map _).sum = 0 ↔ _
      rw [List.sum_eq_zero_iff, List.forall_mem_map]
      simp only [ne_eq, hmax, not_false_eq_true, true_implies]
      refine forall₂_congr fun sp _ => ?_
      split_ifs with htag
      · simp only [htag, true_implies]
        omega
      · simp [htag]
  same := by
    intro key h
    unfold capSigsPerPacket
    split_ifs with hmax
    · rfl
    · have huids : key.uids.map (capSigs tag max) = key.uids := by
        conv_rhs => rw [← List.map_id key.uids]
        refine List.map_congr_left fun sp hsp => ?_
        unfold capSigs
        split_ifs with htag
        · rw [List.take_of_length_le (h hmax sp hsp htag)]
          rfl
        · rfl
      show { key with uids := _ } = key
      rw [huids]

/-! ## The check of signatures -/

section

variable (H : Hashes) (g : Stale) (C : SigCheck) (D : Lookups) (policies : Policies)

/-- The last pass over a key. -/
def checkPass (key : PublicKey) : PublicKey × Nat :=
  cleanKeySignatures H g C D key policies.verifySignatures
    (policies.needOtherSig && !D.fetchKey (fingerprintOf H key.publickey))

/-- No signature on the packet is removed. -/
def PassesCheck (publickey : Packet) (sigdata : Option Packet) (sigs : List Packet) : Prop :=
  ∀ s ∈ sigs, (sigVerdict H g C D publickey sigdata policies.verifySignatures s).remove = false

/-- No signature on the key is removed. -/
structure AllPassCheck (key : PublicKey) : Prop where
  sigs : PassesCheck H g C D policies key.publickey none key.sigs
  uids : ∀ sp ∈ key.uids, PassesCheck H g C D policies key.publickey (some sp.packet) sp.sigs
  subkeys : ∀ sp ∈ key.subkeys, PassesCheck H g C D policies key.publickey (some sp.packet) sp.sigs

/-- Whether there is a valid signature of the key itself on the packet. -/
def selfSigned (publickey : Packet) (sp : SignedPacket) : Bool :=
  (cleanSighashes H g C D publickey (some sp.packet) policies.verifySignatures sp.sigs).selfsig

/-- Whether there is a valid signature of a key in the database on the packet. -/
def otherSigned (publickey : Packet) (sp : SignedPacket) : Bool :=
  (cleanSighashes H g C D publickey (some sp.packet) policies.verifySignatures sp.sigs).othersig

variable {H g C D policies}

theorem cleanSighashes_length (publickey : Packet) (sigdata : Option Packet) (fullverify : Bool)
    (sigs : List Packet) :
    (cleanSighashes H g C D publickey sigdata fullverify sigs).sigs.length +
      (cleanSighashes H g C D publickey sigdata fullverify sigs).removed = sigs.length := by
  have hsplit := List.length_eq_countP_add_countP (l := sigs)
    fun s => (sigVerdict H g C D publickey sigdata fullverify s).remove
  simp only [cleanSighashes]
  rw [← List.countP_eq_length_filter]
  simp only [Bool.not_eq_true, Bool.decide_eq_false] at hsplit
  omega

theorem signedSize_cleanListSighashes (publickey : Packet) (fullverify needother : Bool)
    (l : List SignedPacket) :
    signedSize (cleanListSighashes H g C D publickey fullverify needother l).1 +
      (cleanListSighashes H g C D publickey fullverify needother l).2 ≤ signedSize l := by
  have hmap := signedSize_map (f := fun sp => { sp with
      sigs := (cleanSighashes H g C D publickey (some sp.packet) fullverify sp.sigs).sigs })
    (fun sp => (cleanSighashes_length publickey (some sp.packet) fullverify sp.sigs).le) l
  have hle : signedSize (cleanListSighashes H g C D publickey fullverify needother l).1 ≤
      signedSize (l.map fun sp => { sp with
        sigs := (cleanSighashes H g C D publickey (some sp.packet) fullverify sp.sigs).sigs }) := by
    unfold cleanListSighashes
    simp only
    split_ifs
    · exact Nat.zero_le _
    · have hsub := signedSize_sublist ((List.filter_sublist (l := l) (p := fun sp =>
        !(fullverify && !(cleanSighashes H g C D publickey (some sp.packet) fullverify
          sp.sigs).selfsig))).map fun sp => { sp with
            sigs := (cleanSighashes H g C D publickey (some sp.packet) fullverify sp.sigs).sigs })
      have hlen := List.length_filter_le (fun sp : SignedPacket =>
        !(fullverify && !(cleanSighashes H g C D publickey (some sp.packet) fullverify
          sp.sigs).selfsig)) l
      simp only [List.length_map] at hsub
      omega
  refine le_trans (Nat.add_le_add_right hle _) hmap

theorem shrinks_checkPass : Shrinks keySize (checkPass H g C D policies) := by
  intro key
  have hdirect := cleanSighashes_length (H := H) (g := g) (C := C) (D := D) key.publickey none
    policies.verifySignatures key.sigs
  have huids := signedSize_cleanListSighashes (H := H) (g := g) (C := C) (D := D) key.publickey
    policies.verifySignatures
    (policies.needOtherSig && !D.fetchKey (fingerprintOf H key.publickey)) key.uids
  have hsubkeys := signedSize_cleanListSighashes (H := H) (g := g) (C := C) (D := D) key.publickey
    policies.verifySignatures false key.subkeys
  simp only [keySize, checkPass, cleanKeySignatures]
  omega

theorem cleanSighashes_removed_eq_zero_iff {publickey : Packet} {sigdata : Option Packet}
    {sigs : List Packet} :
    (cleanSighashes H g C D publickey sigdata policies.verifySignatures sigs).removed = 0 ↔
      PassesCheck H g C D policies publickey sigdata sigs := by
  show List.countP _ sigs = 0 ↔ _
  rw [List.countP_eq_zero]
  simp only [PassesCheck, Bool.not_eq_true]

theorem cleanSighashes_of_passes {publickey : Packet} {sigdata : Option Packet}
    {sigs : List Packet} (h : PassesCheck H g C D policies publickey sigdata sigs) :
    (cleanSighashes H g C D publickey sigdata policies.verifySignatures sigs).sigs = sigs :=
  List.filter_eq_self.mpr fun s hs => by simpa using h s hs

theorem checkPass_eq_zero_iff (key : PublicKey) :
    (checkPass H g C D policies key).2 = 0 ↔ AllPassCheck H g C D policies key := by
  have hlist : ∀ (needother : Bool) (l : List SignedPacket),
      (cleanListSighashes H g C D key.publickey policies.verifySignatures needother l).2 = 0 ↔
        ∀ sp ∈ l, PassesCheck H g C D policies key.publickey (some sp.packet) sp.sigs := by
    intro needother l
    show (l.map _).sum = 0 ↔ _
    rw [List.sum_eq_zero_iff, List.forall_mem_map]
    exact forall₂_congr fun sp _ => cleanSighashes_removed_eq_zero_iff
  show SigsResult.removed _ + _ + _ = 0 ↔ _
  rw [Nat.add_eq_zero_iff, Nat.add_eq_zero_iff, cleanSighashes_removed_eq_zero_iff, hlist, hlist]
  exact ⟨fun h => ⟨h.1.1, h.1.2, h.2⟩, fun h => ⟨⟨h.sigs, h.uids⟩, h.subkeys⟩⟩

/-- When no signature is removed, packets are dropped as they are. -/
theorem cleanListSighashes_of_passes {publickey : Packet} {l : List SignedPacket}
    (h : ∀ sp ∈ l, PassesCheck H g C D policies publickey (some sp.packet) sp.sigs)
    (needother : Bool) :
    (cleanListSighashes H g C D publickey policies.verifySignatures needother l).1 =
      if needother && policies.verifySignatures &&
          !l.any (otherSigned H g C D policies publickey) then []
      else l.filter fun sp =>
        !(policies.verifySignatures && !selfSigned H g C D policies publickey sp) := by
  have hmap : (l.filter fun sp =>
      !(policies.verifySignatures && !selfSigned H g C D policies publickey sp)).map (fun sp =>
        { sp with sigs := (cleanSighashes H g C D publickey (some sp.packet)
          policies.verifySignatures sp.sigs).sigs }) = l.filter fun sp =>
      !(policies.verifySignatures && !selfSigned H g C D policies publickey sp) := by
    conv_rhs => rw [← List.map_id (l.filter _)]
    refine List.map_congr_left fun sp hsp => ?_
    rw [cleanSighashes_of_passes (h sp (List.mem_filter.mp hsp).1)]
    rfl
  rw [← hmap]
  rfl

end

/-! ## All passes over a key -/

section

variable (H : Hashes) (g : Stale) (C : SigCheck) (D : Lookups) (policies : Policies)

/-- The passes over a key before the check of signatures. -/
def passesBefore : PublicKey → PublicKey × Nat :=
  andThen (cleanPackets g policies) (andThen (andThen (dedupeKeySigs g)
    fun key => capSigsPerPacket key tagUid policies.maxSigsPerUid)
    fun key => capSigsPerPacket key tagUat policies.maxSigsPerUat)

theorem cleanKey_eq (key : PublicKey) :
    cleanKey H g C D policies key =
      andThen (passesBefore g policies) (onlyIf policies.checks (checkPass H g C D policies)) key := by
  have hkey : (passesBefore g policies key).1.publickey =
      (cleanPackets g policies key).1.publickey :=
    (sameHead_cappedSigs policies (cleanPackets g policies key).1).publickey
  unfold andThen onlyIf checkPass
  simp only [hkey]
  unfold cleanKey cleanSigs Policies.checks
  simp only
  split_ifs
  · exact Prod.ext rfl (Nat.add_assoc _ _ _).symm
  · rfl

/-- There is nothing on the key that a pass would count. -/
structure NothingToCount (key : PublicKey) : Prop where
  large : policies.largePackets = true → ∀ sp ∈ key.uids, sp.packet.length ≤ packetLimit sp.packet.tag
  uids : NoRepeats key.uids
  subkeys : NoRepeats key.subkeys
  capUids : policies.capUids = true → key.uids.countP (isActive tagUid) ≤ maxUidsPerKey ∧
    key.uids.countP (isRevoked tagUid) ≤ maxUidsPerKey
  capUats : policies.capUats = true → key.uids.countP (isActive tagUat) ≤ maxUatsPerKey ∧
    key.uids.countP (isRevoked tagUat) ≤ maxUatsPerKey
  signers : OneSigPerSigner g key
  sigsPerUid : policies.maxSigsPerUid ≠ 0 → ∀ sp ∈ key.uids, sp.packet.tag = tagUid →
    sp.sigs.length ≤ policies.maxSigsPerUid
  sigsPerUat : policies.maxSigsPerUat ≠ 0 → ∀ sp ∈ key.uids, sp.packet.tag = tagUat →
    sp.sigs.length ≤ policies.maxSigsPerUat
  checked : policies.checks = true → AllPassCheck H g C D policies key

variable {H g C D policies}

theorem shrinks_cleanKey : Shrinks keySize (cleanKey H g C D policies) := by
  have hpackets : Shrinks keySize (cleanPackets g policies) :=
    ((((shrinks_cleanLargePackets.onlyIf _).andThen shrinks_dedupuids).andThen
      shrinks_dedupsubkeys).andThen ((shrinks_capPacketType _ (by decide)).onlyIf _)).andThen
      ((shrinks_capPacketType _ (by decide)).onlyIf _)
  have hsigs := (shrinks_dedupeKeySigs (g := g)).andThen
    (shrinks_capSigsPerPacket tagUid policies.maxSigsPerUid)
  have hall := (hpackets.andThen (hsigs.andThen
    (shrinks_capSigsPerPacket tagUat policies.maxSigsPerUat))).andThen
    ((@shrinks_checkPass H g C D policies).onlyIf policies.checks)
  intro key
  rw [cleanKey_eq H g C D policies key]
  exact hall key

theorem silent_passesBefore : Silent (fun key =>
    ((((((policies.largePackets = true → ∀ sp ∈ key.uids,
      sp.packet.length ≤ packetLimit sp.packet.tag) ∧ NoRepeats key.uids) ∧ NoRepeats key.subkeys) ∧
      (policies.capUids = true → key.uids.countP (isActive tagUid) ≤ maxUidsPerKey ∧
        key.uids.countP (isRevoked tagUid) ≤ maxUidsPerKey)) ∧
      (policies.capUats = true → key.uids.countP (isActive tagUat) ≤ maxUatsPerKey ∧
        key.uids.countP (isRevoked tagUat) ≤ maxUatsPerKey)) ∧
      (OneSigPerSigner g key ∧ (policies.maxSigsPerUid ≠ 0 → ∀ sp ∈ key.uids, sp.packet.tag = tagUid →
        sp.sigs.length ≤ policies.maxSigsPerUid)) ∧
      (policies.maxSigsPerUat ≠ 0 → ∀ sp ∈ key.uids, sp.packet.tag = tagUat →
        sp.sigs.length ≤ policies.maxSigsPerUat))) (passesBefore g policies) :=
  (((((silent_cleanLargePackets.onlyIf _).andThen silent_dedupuids).andThen
    silent_dedupsubkeys).andThen ((silent_capPacketType _ (by decide)).onlyIf _)).andThen
    ((silent_capPacketType _ (by decide)).onlyIf _)).andThen
    ((silent_dedupeKeySigs.andThen (silent_capSigsPerPacket _ _)).andThen
      (silent_capSigsPerPacket _ _))

theorem cleanKey_eq_zero_iff (key : PublicKey) :
    (cleanKey H g C D policies key).2 = 0 ↔ NothingToCount H g C D policies key := by
  rw [cleanKey_eq, silent_passesBefore.zero_andThen_iff]
  have hcheck : (onlyIf policies.checks (checkPass H g C D policies) key).2 = 0 ↔
      (policies.checks = true → AllPassCheck H g C D policies key) := by
    unfold onlyIf
    split_ifs with hchecks
    · rw [checkPass_eq_zero_iff]
      exact ⟨fun h _ => h, fun h => h hchecks⟩
    · exact iff_of_true rfl fun h => absurd h hchecks
  rw [hcheck]
  constructor
  · rintro ⟨⟨⟨⟨⟨⟨h1, h2⟩, h3⟩, h4⟩, h5⟩, ⟨h6, h7⟩, h8⟩, h9⟩
    exact ⟨h1, h2, h3, h4, h5, h6, h7, h8, h9⟩
  · rintro ⟨h1, h2, h3, h4, h5, h6, h7, h8, h9⟩
    exact ⟨⟨⟨⟨⟨⟨h1, h2⟩, h3⟩, h4⟩, h5⟩, ⟨h6, h7⟩, h8⟩, h9⟩

/-- On a key with nothing to count, the check of signatures is the only pass that can change it. -/
theorem cleanKey_fst_of_nothing {key : PublicKey} (h : NothingToCount H g C D policies key) :
    (cleanKey H g C D policies key).1 =
      (onlyIf policies.checks (checkPass H g C D policies) key).1 := by
  have hsame : (passesBefore g policies key).1 = key :=
    silent_passesBefore.same key ⟨⟨⟨⟨⟨h.large, h.uids⟩, h.subkeys⟩, h.capUids⟩, h.capUats⟩,
      ⟨h.signers, h.sigsPerUid⟩, h.sigsPerUat⟩
  rw [cleanKey_eq]
  show (onlyIf policies.checks (checkPass H g C D policies) (passesBefore g policies key).1).1 = _
  rw [hsame]

end

/-! ## What is changed without being counted -/

section

variable (H : Hashes) (g : Stale) (C : SigCheck) (D : Lookups) (policies : Policies)

/-- The key has no user ids, or packets without a valid signature of the key itself, or needs a
signature of another key and has none. -/
def Stripped (key : PublicKey) : Prop :=
  key.uids = [] ∨ policies.verifySignatures = true ∧
    ((∃ sp ∈ key.uids, selfSigned H g C D policies key.publickey sp = false) ∨
      (∃ sp ∈ key.subkeys, selfSigned H g C D policies key.publickey sp = false) ∨
      (policies.needOtherSig = true ∧ D.fetchKey (fingerprintOf H key.publickey) = false ∧
        ∀ sp ∈ key.uids, otherSigned H g C D policies key.publickey sp = false))

/-- The key is modified or removed by `cleankeys`. -/
def touched (key : PublicKey) : Bool :=
  key.isOld || (cleanKey H g C D policies key).1.uids = [] || (cleanKey H g C D policies key).1 ≠ key

variable {H g C D policies}

theorem touched_of_counted {key : PublicKey} (h : ¬ NothingToCount H g C D policies key) :
    touched H g C D policies key = true := by
  rw [← cleanKey_eq_zero_iff] at h
  have hne := shrinks_cleanKey.ne (Nat.pos_of_ne_zero h)
  simp [touched, hne]

theorem checkPass_fst_of_passes {key : PublicKey} (h : AllPassCheck H g C D policies key) :
    (checkPass H g C D policies key).1 =
      { key with
        uids :=
          if policies.needOtherSig && !D.fetchKey (fingerprintOf H key.publickey) &&
            policies.verifySignatures && !key.uids.any (otherSigned H g C D policies key.publickey)
          then []
          else key.uids.filter fun sp =>
            !(policies.verifySignatures && !selfSigned H g C D policies key.publickey sp)
        subkeys := key.subkeys.filter fun sp =>
          !(policies.verifySignatures && !selfSigned H g C D policies key.publickey sp) } := by
  have huids := cleanListSighashes_of_passes h.uids
    (policies.needOtherSig && !D.fetchKey (fingerprintOf H key.publickey))
  have hsubkeys := cleanListSighashes_of_passes h.subkeys false
  simp only [Bool.false_and, Bool.false_eq_true, if_false] at hsubkeys
  show { key with sigs := _, uids := _, subkeys := _ } = _
  rw [cleanSighashes_of_passes h.sigs, huids, hsubkeys]

theorem touched_iff_stripped {key : PublicKey} (hold : key.isOld = false)
    (h : NothingToCount H g C D policies key) :
    touched H g C D policies key = true ↔ Stripped H g C D policies key := by
  have hkey := cleanKey_fst_of_nothing h
  simp only [touched, hold, Bool.false_or, Bool.or_eq_true, decide_eq_true_eq]
  by_cases hverify : policies.verifySignatures = true
  · have hchecks : policies.checks = true := by
      unfold Policies.checks
      rw [hverify, Bool.or_true]
    rw [hkey, onlyIf, if_pos hchecks, checkPass_fst_of_passes (h.checked hchecks)]
    have hself : ∀ l : List SignedPacket, (l.filter fun sp =>
        !(policies.verifySignatures && !selfSigned H g C D policies key.publickey sp)) = l ↔
        ¬ ∃ sp ∈ l, selfSigned H g C D policies key.publickey sp = false := by
      intro l
      rw [List.filter_eq_self, hverify]
      simp
    by_cases hgo : (policies.needOtherSig && !D.fetchKey (fingerprintOf H key.publickey) &&
        policies.verifySignatures && !key.uids.any (otherSigned H g C D policies key.publickey)) = true
    · -- all user ids go
      rw [if_pos hgo]
      refine iff_of_true (.inl rfl) (.inr ⟨hverify, .inr (.inr ?_)⟩)
      simpa [hverify, and_assoc] using hgo
    · rw [if_neg hgo]
      have hother : ¬ (policies.needOtherSig = true ∧
          D.fetchKey (fingerprintOf H key.publickey) = false ∧
          ∀ sp ∈ key.uids, otherSigned H g C D policies key.publickey sp = false) := by
        simpa [hverify, and_assoc] using hgo
      constructor
      · rintro (hempty | hne)
        · by_cases huids : key.uids = []
          · exact .inl huids
          · refine .inr ⟨hverify, .inl ?_⟩
            by_contra hall
            exact huids (((hself key.uids).mpr hall).symm.trans hempty)
        · refine .inr ⟨hverify, ?_⟩
          by_contra hnone
          rw [not_or, not_or] at hnone
          rw [(hself _).mpr hnone.1, (hself _).mpr hnone.2.1] at hne
          exact hne rfl
      · rintro (huids | ⟨-, hsp | hsp | hneed⟩)
        · left
          rw [huids]
          rfl
        · refine .inr fun heq => ?_
          exact (hself _).mp (congrArg PublicKey.uids heq) hsp
        · refine .inr fun heq => ?_
          exact (hself _).mp (congrArg PublicKey.subkeys heq) hsp
        · exact absurd hneed hother
  · -- then no packet is dropped either
    have hsame : (cleanKey H g C D policies key).1 = key := by
      rw [hkey, onlyIf]
      split_ifs with hchecks
      · rw [checkPass_fst_of_passes (h.checked hchecks)]
        simp [hverify]
      · rfl
    rw [hsame]
    unfold Stripped
    simp [hverify]

end

/-! ## The count over all keys -/

section

variable (H : Hashes) (g : Stale) (C : SigCheck) (D : Lookups) (policies : Policies)

/-- The return value of `cleankeys` is the number of keys that it modified or removed; it is 0 if
and only if the list is left unchanged. -/
def CountsKeys (keys : List PublicKey) : Prop :=
  (cleankeys H g C D policies keys).2 = keys.countP (touched H g C D policies) ∧
    ((cleankeys H g C D policies keys).2 = 0 ↔ (cleankeys H g C D policies keys).1 = keys)

open Classical in
/-- A key that leaves the count of changes at 0. -/
noncomputable def quiet (key : PublicKey) : Bool :=
  key.isOld || NothingToCount H g C D policies key

open Classical in
/-- A key that is modified or removed without a change that is counted. -/
noncomputable def missed (key : PublicKey) : Bool :=
  !key.isOld && NothingToCount H g C D policies key && Stripped H g C D policies key

open Classical in
/-- A key that is left as it is. -/
noncomputable def spared (key : PublicKey) : Bool :=
  !key.isOld && NothingToCount H g C D policies key && !Stripped H g C D policies key

variable {H g C D policies}

theorem cleanLoop_snd_of_pos {count : Nat} (h : 0 < count) (keys : List PublicKey) :
    (cleanLoop H g C D policies count keys).2 = keys.length := by
  induction keys generalizing count with
  | nil => rfl
  | cons key keys ih =>
    simp only [cleanLoop]
    by_cases hold : key.isOld = true
    · rw [if_pos hold, List.length_cons]
      exact congrArg (· + 1) (ih h)
    · rw [if_neg hold, List.length_cons]
      simp only
      rw [if_pos (by omega), ih (by omega)]

/-- Up to the first change that is counted, only the old keys count; from then on all keys do. -/
theorem cleanLoop_snd (keys : List PublicKey) :
    (cleanLoop H g C D policies 0 keys).2 =
      (keys.takeWhile (quiet H g C D policies)).countP PublicKey.isOld +
        (keys.dropWhile (quiet H g C D policies)).length := by
  induction keys with
  | nil => rfl
  | cons key keys ih =>
    simp only [cleanLoop]
    by_cases hold : key.isOld = true
    · have hquiet : quiet H g C D policies key = true := by simp [quiet, hold]
      rw [if_pos hold, List.takeWhile_cons_of_pos hquiet, List.dropWhile_cons_of_pos hquiet,
        List.countP_cons_of_pos hold, ih]
      omega
    · rw [if_neg hold]
      by_cases hnothing : NothingToCount H g C D policies key
      · have hquiet : quiet H g C D policies key = true := by simp [quiet, hnothing]
        have hzero := (cleanKey_eq_zero_iff key).mpr hnothing
        rw [List.takeWhile_cons_of_pos hquiet, List.dropWhile_cons_of_pos hquiet,
          List.countP_cons_of_neg hold, ← ih]
        simp [hzero]
      · have hquiet : ¬ quiet H g C D policies key = true := by simp [quiet, hnothing, hold]
        have hpos : 0 < 0 + (cleanKey H g C D policies key).2 := by
          rw [Nat.zero_add]
          exact Nat.pos_of_ne_zero fun hzero => hnothing ((cleanKey_eq_zero_iff key).mp hzero)
        rw [List.takeWhile_cons_of_neg hquiet, List.dropWhile_cons_of_neg hquiet]
        simp only
        rw [if_pos hpos, cleanLoop_snd_of_pos hpos]
        simp

theorem touched_eq_not_spared (key : PublicKey) :
    touched H g C D policies key = !spared H g C D policies key := by
  by_cases hold : key.isOld = true
  · simp [touched, spared, hold]
  · by_cases hnothing : NothingToCount H g C D policies key
    · have hiff := touched_iff_stripped (by simpa using hold) hnothing
      by_cases hstripped : Stripped H g C D policies key
      · simp [hiff.mpr hstripped, spared, hstripped]
      · have huntouched : touched H g C D policies key = false := by
          rw [Bool.eq_false_iff]
          exact fun h => hstripped (hiff.mp h)
        simp [huntouched, spared, hold, hnothing, hstripped]
    · simp [touched_of_counted hnothing, spared, hnothing]

/-- A quiet key is touched if it is old or missed. -/
theorem touched_of_quiet {key : PublicKey} (h : quiet H g C D policies key = true) :
    touched H g C D policies key = (key.isOld || missed H g C D policies key) := by
  rw [touched_eq_not_spared]
  by_cases hold : key.isOld = true
  · simp [spared, hold]
  · have hnothing : NothingToCount H g C D policies key := by simpa [quiet, hold] using h
    by_cases hstripped : Stripped H g C D policies key
    · simp [spared, missed, hold, hnothing, hstripped]
    · simp [spared, missed, hold, hnothing, hstripped]

theorem countP_touched (keys : List PublicKey) :
    keys.countP (touched H g C D policies) + (keys.dropWhile (quiet H g C D policies)).countP
        (spared H g C D policies) =
      (keys.takeWhile (quiet H g C D policies)).countP PublicKey.isOld +
        (keys.takeWhile (quiet H g C D policies)).countP (missed H g C D policies) +
        (keys.dropWhile (quiet H g C D policies)).length := by
  have hfront : (keys.takeWhile (quiet H g C D policies)).countP (touched H g C D policies) =
      (keys.takeWhile (quiet H g C D policies)).countP PublicKey.isOld +
        (keys.takeWhile (quiet H g C D policies)).countP (missed H g C D policies) := by
    rw [← countP_or_of_disjoint]
    · refine List.countP_congr fun key hkey => ?_
      rw [touched_of_quiet (List.mem_takeWhile_imp hkey)]
    · intro key hold
      simp [missed, hold]
  have hback := List.length_eq_countP_add_countP (touched H g C D policies)
    (l := keys.dropWhile (quiet H g C D policies))
  have hspared : (fun key => decide ¬ touched H g C D policies key = true) =
      spared H g C D policies := by
    funext key
    simp [touched_eq_not_spared]
  have hsplit : keys.countP (touched H g C D policies) =
      (keys.takeWhile (quiet H g C D policies)).countP (touched H g C D policies) +
        (keys.dropWhile (quiet H g C D policies)).countP (touched H g C D policies) := by
    rw [← List.countP_append, List.takeWhile_append_dropWhile]
  rw [hspared] at hback
  omega

theorem cleankeys_fst_eq_iff (keys : List PublicKey) :
    (cleankeys H g C D policies keys).1 = keys ↔ keys.countP (touched H g C D policies) = 0 := by
  rw [List.countP_eq_zero, cleankeys, cleanLoop_fst]
  constructor
  · intro heq
    -- nothing can have been removed
    have hle1 := List.length_filter_le (fun k : PublicKey => decide (k.uids ≠ []))
      ((keys.filter fun key => !key.isOld).map fun key => (cleanKey H g C D policies key).1)
    have hle2 := List.length_filter_le (fun key : PublicKey => !key.isOld) keys
    rw [heq, List.length_map] at hle1
    have hyoung : keys.filter (fun key => !key.isOld) = keys :=
      List.filter_sublist.eq_of_length (by omega)
    rw [hyoung] at heq
    have hmap : keys.map (fun key => (cleanKey H g C D policies key).1) = keys := by
      have hlen : (keys.map fun key => (cleanKey H g C D policies key).1).length = keys.length :=
        List.length_map _
      refine (List.filter_sublist.eq_of_length ?_).symm.trans heq
      exact (congrArg List.length heq).trans hlen.symm
    intro key hkey
    have hold : key.isOld = false := by simpa using List.filter_eq_self.mp hyoung key hkey
    have hsame : (cleanKey H g C D policies key).1 = key :=
      List.map_inj_left.mp (hmap.trans (List.map_id keys).symm) key hkey
    have huids : key.uids ≠ [] := by
      rw [hmap] at heq
      simpa using List.filter_eq_self.mp heq key hkey
    simp [touched, hold, hsame, huids]
  · intro hall
    have hparts : ∀ key ∈ keys, key.isOld = false ∧ (cleanKey H g C D policies key).1 = key ∧
        key.uids ≠ [] := by
      intro key hkey
      have huntouched := hall key hkey
      simp only [touched, Bool.or_eq_true, decide_eq_true_eq, not_or, not_not] at huntouched
      exact ⟨by simpa using huntouched.1.1, huntouched.2, huntouched.2 ▸ huntouched.1.2⟩
    have hyoung : keys.filter (fun key => !key.isOld) = keys :=
      List.filter_eq_self.mpr fun key hkey => by simp [(hparts key hkey).1]
    have hmap : keys.map (fun key => (cleanKey H g C D policies key).1) = keys := by
      conv_rhs => rw [← List.map_id keys]
      exact List.map_congr_left fun key hkey => (hparts key hkey).2.1
    rw [hyoung, hmap]
    exact List.filter_eq_self.mpr fun key hkey => by simpa using (hparts key hkey).2.2

end

/-- **When cleaning counts the keys that it changed.** The return value of `cleankeys` is the number
of keys that were modified or removed if and only if, before the first key with a change that is
counted, as many keys are changed without being counted as keys are left alone behind it. -/
theorem cleankeys_counts_iff (H : Hashes) (g : Stale) (C : SigCheck) (D : Lookups)
    (policies : Policies) (keys : List PublicKey) :
    CountsKeys H g C D policies keys ↔
      (keys.takeWhile (quiet H g C D policies)).countP (missed H g C D policies) =
        (keys.dropWhile (quiet H g C D policies)).countP (spared H g C D policies) := by
  have hreturn : (cleankeys H g C D policies keys).2 = _ := cleanLoop_snd keys
  have htouched := @countP_touched H g C D policies keys
  have hsame := @cleankeys_fst_eq_iff H g C D policies keys
  unfold CountsKeys
  constructor
  · rintro ⟨hcount, -⟩
    omega
  · intro h
    have hcount : (cleankeys H g C D policies keys).2 = keys.countP (touched H g C D policies) := by
      omega
    exact ⟨hcount, by rw [hcount, hsame]⟩

/-- A key that is left alone behind one with a repeated user id is counted all the same. -/
theorem cleankeys_counts_untouched :
    ¬ ∀ (H : Hashes) (g : Stale) (C : SigCheck) (D : Lookups) (policies : Policies)
      (keys : List PublicKey), CountsKeys H g C D policies keys := by
  intro hall
  have hcount := (hall sampleV4Hashes zeroStale noCheck ⟨fun _ => [], fun _ => false⟩
    ⟨false, false, false, false, false, false, 0, 0⟩
    [sampleV4Key [] [⟨sampleUid 65, []⟩, ⟨sampleUid 65, []⟩], sampleV4Key [] [⟨sampleUid 66, []⟩]]).1
  exact absurd hcount (by decide +kernel)

end Onak
