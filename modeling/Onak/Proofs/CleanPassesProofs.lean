import Onak.Proofs.CapPacketProofs
import Onak.Proofs.CapProofs

/-!
# Proofs: the passes of cleaning

What `cleankeys` leaves: the keys, the packets of each key with the signatures of all their
occurrences, and of these signatures the first few that `dedupe_sigs` leaves and that pass the check.
-/

namespace Onak

open Places

variable {H : Hashes} {g : Stale} {C : SigCheck} {D : Lookups}

/-! ## The keys that are left -/

theorem cleanLoop_fst (policies : Policies) (count : Nat) (keys : List PublicKey) :
    (cleanLoop H g C D policies count keys).1 =
      ((keys.filter fun key => !key.isOld).map fun key => (cleanKey H g C D policies key).1).filter
        fun k => k.uids ≠ [] := by
  induction keys generalizing count with
  | nil => rfl
  | cons key keys ih =>
    simp only [cleanLoop]
    by_cases hold : key.isOld = true
    · rw [if_pos hold, List.filter_cons_of_neg (by simp [hold])]
      exact ih count
    · rw [if_neg hold, List.filter_cons_of_pos (by simp [hold]), List.map_cons]
      simp only [ih]
      by_cases huids : (cleanKey H g C D policies key).1.uids = []
      · rw [if_pos huids, List.filter_cons_of_neg (by simp [huids])]
      · rw [if_neg huids, List.filter_cons_of_pos (by simp [huids])]

theorem mem_cleankeys {policies : Policies} {keys : List PublicKey} {k : PublicKey} :
    k ∈ (cleankeys H g C D policies keys).1 ↔
      ∃ key ∈ keys, key.isOld = false ∧ (cleanKey H g C D policies key).1 = k ∧ k.uids ≠ [] := by
  rw [cleankeys, cleanLoop_fst, List.mem_filter, List.mem_map]
  constructor
  · rintro ⟨⟨key, hkey, rfl⟩, huids⟩
    obtain ⟨hmem, hold⟩ := List.mem_filter.mp hkey
    exact ⟨key, hmem, by simpa using hold, rfl, by simpa using huids⟩
  · rintro ⟨key, hmem, hold, rfl, huids⟩
    exact ⟨⟨key, List.mem_filter.mpr ⟨hmem, by simp [hold]⟩, rfl⟩, by simpa using huids⟩

/-! ## The signatures that are left on a packet -/

/-- The cap on the signatures on packets of a tag; 0 is none. -/
def Policies.maxSigs (policies : Policies) (tag : Nat) : Nat :=
  if tag = tagUid then policies.maxSigsPerUid else if tag = tagUat then policies.maxSigsPerUat else 0

/-- The first signatures up to a cap. -/
def upTo (max : Nat) (sigs : List Packet) : List Packet := if max = 0 then sigs else sigs.take max

section

variable (g : Stale) (policies : Policies)

/-- The signatures on a packet behind `dedupe_sigs` and the cap. -/
def cappedOn (sp : SignedPacket) : List Packet :=
  upTo (policies.maxSigs sp.packet.tag) (dedupeSigs g sp.sigs)

theorem cappedSigs_eq (key : PublicKey) :
    cappedSigs policies key g = key.uids.map fun sp => { sp with sigs := cappedOn g policies sp } := by
  have hcap : ∀ (k : PublicKey) (tag max : Nat), (capSigsPerPacket k tag max).1.uids =
      k.uids.map fun sp => if sp.packet.tag = tag then { sp with sigs := upTo max sp.sigs } else sp := by
    intro k tag max
    by_cases hmax : max = 0
    · simp [capSigsPerPacket, upTo, hmax]
    · simp only [capSigsPerPacket, upTo, hmax, if_false]
      rfl
  have hne : tagUat ≠ tagUid := by decide
  unfold cappedSigs
  rw [hcap, hcap]
  simp only [dedupeKeySigs, dedupeListSigs, List.map_map]
  refine List.map_congr_left fun sp _ => ?_
  simp only [Function.comp_apply, cappedOn, Policies.maxSigs]
  by_cases huid : sp.packet.tag = tagUid
  · simp [huid, hne.symm]
  · by_cases huat : sp.packet.tag = tagUat
    · simp [huat, hne]
    · simp [huid, huat, upTo]

end

section

variable (H : Hashes) (g : Stale) (C : SigCheck) (D : Lookups) (policies : Policies)
  (publickey : Packet)

/-- Whether the signatures are checked at all. -/
def Policies.checks (policies : Policies) : Bool := policies.checkSighash || policies.verifySignatures

/-- What the check makes of the signatures on a packet. -/
def checkedOn (sp : SignedPacket) : SigsResult :=
  cleanSighashes H g C D publickey (some sp.packet) policies.verifySignatures (cappedOn g policies sp)

/-- The signatures that are left on a packet. -/
def sigsLeftOn (sp : SignedPacket) : List Packet :=
  if policies.checks then (checkedOn H g C D policies publickey sp).sigs else cappedOn g policies sp

/-- Whether a packet stays: when signatures are verified, it needs one of the key itself. -/
def stays (sp : SignedPacket) : Bool :=
  !(policies.verifySignatures && !(checkedOn H g C D policies publickey sp).selfsig)

/-- Whether all user ids go, for want of a signature of another key. -/
def allGo (uids : List SignedPacket) : Bool :=
  policies.needOtherSig && !D.fetchKey (fingerprintOf H publickey) && policies.verifySignatures &&
    !uids.any fun sp => (checkedOn H g C D policies publickey sp).othersig

variable {publickey} in
theorem cleanSigs_uids (key : PublicKey) :
    (cleanSigs H g C D policies key).1.uids =
      if allGo H g C D policies key.publickey key.uids then []
      else (key.uids.filter (stays H g C D policies key.publickey)).map fun sp =>
        { sp with sigs := sigsLeftOn H g C D policies key.publickey sp } := by
  have hcapped := cappedSigs_eq g policies key
  have hkey : (capSigsPerPacket (capSigsPerPacket (dedupeKeySigs g key).1 tagUid
      policies.maxSigsPerUid).1 tagUat policies.maxSigsPerUat).1.publickey = key.publickey :=
    (sameHead_cappedSigs policies key).publickey
  unfold cappedSigs at hcapped
  by_cases hchecks : policies.checks = true
  · have hchecks' : (policies.checkSighash || policies.verifySignatures) = true := hchecks
    simp only [cleanSigs, hchecks', if_true, cleanKeySignatures, cleanListSighashes, hcapped, hkey]
    simp only [List.any_map, List.filter_map, List.map_map]
    simp only [allGo, sigsLeftOn, hchecks, if_true]
    rfl
  · have hno : policies.verifySignatures = false := by
      unfold Policies.checks at hchecks
      simp only [Bool.or_eq_true, not_or, Bool.not_eq_true] at hchecks
      exact hchecks.2
    have hchecks' : ¬ (policies.checkSighash || policies.verifySignatures) = true := hchecks
    have hstays : key.uids.filter (stays H g C D policies key.publickey) = key.uids :=
      List.filter_eq_self.mpr fun sp _ => by simp [stays, hno]
    simp only [cleanSigs, hchecks']
    simp only [allGo, sigsLeftOn, hno, hchecks, hstays, Bool.false_and, Bool.and_false, if_false,
      Bool.false_eq_true]
    exact hcapped

variable {publickey}

theorem sigsLeftOn_sublist (sp : SignedPacket) :
    (sigsLeftOn H g C D policies publickey sp).Sublist sp.sigs := by
  have hcapped : (cappedOn g policies sp).Sublist sp.sigs := by
    unfold cappedOn upTo
    split_ifs
    · exact Collapse.collapse_sublist _
    · exact (List.take_sublist _ _).trans (Collapse.collapse_sublist _)
  unfold sigsLeftOn
  split_ifs
  · exact List.filter_sublist.trans hcapped
  · exact hcapped

end

/-! ## Packets that occur more than once -/

section

variable (g : Stale)

/-- The places where a packet occurs in a list. -/
def occurrences (l : List SignedPacket) (packet : Packet) : List SignedPacket :=
  l.filter fun sp => sp.packet.Same packet

/-- The first occurrence of a packet with the signatures of the others merged into it. -/
def mergeOccurrences (first : SignedPacket) (dups : List SignedPacket) : SignedPacket :=
  dups.foldl (fun cur dup => (mergePacketSigs g cur dup).1) first

theorem absorbDups_eq (cur : SignedPacket) (l : List SignedPacket) :
    (absorbDups g cur l).1 = mergeOccurrences g cur (occurrences l cur.packet) ∧
      (absorbDups g cur l).2.1 = l.filter fun sp => ¬ sp.packet.Same cur.packet := by
  induction l generalizing cur with
  | nil => exact ⟨rfl, rfl⟩
  | cons dup l ih =>
    unfold absorbDups
    by_cases hsame : dup.packet.Same cur.packet
    · have hzero : (comparePackets dup.packet cur.packet == 0) = true := by
        simpa using comparePackets_eq_zero_iff.mpr hsame
      rw [if_pos hzero]
      obtain ⟨hfst, hrest⟩ := ih (mergePacketSigs g cur dup).1
      refine ⟨hfst.trans ?_, hrest.trans ?_⟩
      · have hocc : occurrences (dup :: l) cur.packet = dup :: occurrences l cur.packet :=
          List.filter_cons_of_pos (by simpa using hsame)
        rw [hocc]
        rfl
      · rw [List.filter_cons_of_neg (by simpa using hsame)]
        rfl
    · have hzero : ¬ (comparePackets dup.packet cur.packet == 0) = true := by
        simpa using fun h => hsame (comparePackets_eq_zero_iff.mp h)
      rw [if_neg hzero]
      obtain ⟨hfst, hrest⟩ := ih cur
      refine ⟨hfst.trans ?_, ?_⟩
      · have hocc : occurrences (dup :: l) cur.packet = occurrences l cur.packet :=
          List.filter_cons_of_neg (by simpa using hsame)
        rw [hocc]
      · rw [List.filter_cons_of_pos (by simpa using hsame), ← hrest]

/-- A packet that is left has the signatures of all its occurrences merged. -/
theorem exists_occurrences {fuel : Nat} {l : List SignedPacket} {sp : SignedPacket}
    (h : sp ∈ (dedupLoop g fuel l).1) :
    ∃ first dups, occurrences l sp.packet = first :: dups ∧ sp = mergeOccurrences g first dups := by
  induction fuel generalizing l with
  | zero => exact absurd h (by simp [dedupLoop])
  | succ fuel ih =>
    cases l with
    | nil => exact absurd h (by simp [dedupLoop])
    | cons cur rest =>
      obtain ⟨hfst, hrest⟩ := absorbDups_eq g cur rest
      have hpacket := absorbDups_packet (g := g) cur rest
      simp only [dedupLoop] at h
      rcases List.mem_cons.mp h with rfl | h
      · refine ⟨cur, occurrences rest cur.packet, ?_, hfst⟩
        rw [hpacket, occurrences, List.filter_cons_of_pos (by simpa using Packet.Same.refl _)]
        rfl
      · obtain ⟨first, dups, hocc, hsp⟩ := ih h
        obtain ⟨x, hx, hxp⟩ := mem_dedupLoop h
        have hcur := absorbDups_not_same hx
        rw [hxp] at hcur
        refine ⟨first, dups, ?_, hsp⟩
        rw [← hocc, hrest]
        unfold occurrences
        rw [List.filter_cons_of_neg (by simpa using hcur), List.filter_filter]
        refine List.filter_congr fun y _ => ?_
        -- what is the same as `sp` is not the same as `cur`
        by_cases hy : y.packet.Same sp.packet
        · have : ¬ y.packet.Same cur.packet := fun h => hcur (h.symm.trans hy)
          simp [hy, this]
        · simp [hy]

variable (policies : Policies)

/-- The user ids and attributes that are not taken out for their size. -/
def smallUids (key : PublicKey) : List SignedPacket :=
  key.uids.filter fun sp =>
    !(policies.largePackets && decide (packetLimit sp.packet.tag < sp.packet.length))

theorem cleanLarge_uids (key : PublicKey) :
    (if policies.largePackets then cleanLargePackets key else (key, 0)).1.uids = smallUids policies key := by
  unfold smallUids
  cases policies.largePackets with
  | false => simp
  | true => rfl

/-- Packets that are the same are large together. -/
theorem occurrences_smallUids {key : PublicKey} {o : SignedPacket} (ho : o ∈ smallUids policies key)
    {p : Packet} (hp : o.packet.Same p) : occurrences (smallUids policies key) p = occurrences key.uids p := by
  obtain ⟨-, hsmall⟩ := List.mem_filter.mp ho
  unfold occurrences smallUids
  rw [List.filter_filter]
  refine List.filter_congr fun y _ => ?_
  by_cases hy : y.packet.Same p
  · have hyo : y.packet.Same o.packet := hy.trans hp.symm
    have hlen : y.packet.length = o.packet.length := congrArg List.length hyo.2
    simp only [hy, decide_true, Bool.true_and]
    rw [hyo.1, hlen]
    exact hsmall
  · simp [hy]

/-- The occurrences of a packet that is left are those in the key. -/
theorem occurrences_cleanPackets {key : PublicKey} {sp : SignedPacket}
    (h : sp ∈ (cleanPackets g policies key).1.uids) :
    ∃ first dups, occurrences key.uids sp.packet = first :: dups ∧
      sp = mergeOccurrences g first dups := by
  have hdedup := (cleanPackets_sublist policies key).subset h
  rw [cleanLarge_uids] at hdedup
  obtain ⟨first, dups, hocc, hsp⟩ := exists_occurrences g hdedup
  have hfirst : first ∈ occurrences (smallUids policies key) sp.packet := by
    rw [hocc]
    exact List.mem_cons_self
  obtain ⟨hsmall, hsame⟩ := List.mem_filter.mp hfirst
  rw [decide_eq_true_eq] at hsame
  rw [occurrences_smallUids policies hsmall hsame] at hocc
  exact ⟨first, dups, hocc, hsp⟩

end

end Onak
