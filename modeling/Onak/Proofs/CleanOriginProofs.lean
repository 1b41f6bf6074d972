import Onak.Proofs.CleanPassesProofs
import Onak.Proofs.MergeAddedProofs
import Onak.Proofs.UploadProofs

/-!
# Proofs: where cleaned keys come from

Cleaning takes packets and signatures away and merges packets that are there twice. It adds none, and
it leaves every signature on the packet it was on.
-/

namespace Onak

variable {g : Stale}

/-! ## Packets that stem from others -/

/-- Every packet of `l'` is one of `l`, and each signature on it stands in `l` on the same packet. -/
def Stems (l l' : List SignedPacket) : Prop :=
  ∀ sp ∈ l', (∃ o ∈ l, o.packet = sp.packet) ∧
    ∀ s ∈ sp.sigs, ∃ o ∈ l, o.packet.Same sp.packet ∧ s ∈ o.sigs

theorem Stems.trans {l l' l'' : List SignedPacket} (h : Stems l l') (h' : Stems l' l'') :
    Stems l l'' := by
  intro sp hsp
  obtain ⟨⟨m, hm, hpacket⟩, hsigs⟩ := h' sp hsp
  refine ⟨?_, fun s hs => ?_⟩
  · obtain ⟨⟨o, ho, hopacket⟩, -⟩ := h m hm
    exact ⟨o, ho, hopacket.trans hpacket⟩
  · obtain ⟨n, hn, hnsame, hns⟩ := hsigs s hs
    obtain ⟨-, hnsigs⟩ := h n hn
    obtain ⟨o, ho, hosame, hos⟩ := hnsigs s hns
    exact ⟨o, ho, hosame.trans hnsame, hos⟩

theorem Thins.stems {l l' : List SignedPacket} (h : Thins l l') : Stems l l' := by
  intro sp hsp
  obtain ⟨o, ho, hpacket, hsigs⟩ := h.exists_of_mem hsp
  refine ⟨⟨o, ho, hpacket.symm⟩, fun s hs => ⟨o, ho, ?_, hsigs.subset hs⟩⟩
  rw [hpacket]
  exact Packet.Same.refl _

/-- A signature that is merged into a packet stood on one of its occurrences. -/
theorem mem_mergeOccurrences {first : SignedPacket} {dups : List SignedPacket} {s : Packet}
    (h : s ∈ (mergeOccurrences g first dups).sigs) : ∃ o ∈ first :: dups, s ∈ o.sigs := by
  induction dups generalizing first with
  | nil => exact ⟨first, List.mem_singleton_self first, h⟩
  | cons dup dups ih =>
    obtain ⟨o, ho, hs⟩ := ih h
    rcases List.mem_cons.mp ho with rfl | ho
    · rcases mem_dedupeSigs_append hs with hs | hs
      · exact ⟨first, List.mem_cons_self .., hs⟩
      · exact ⟨dup, by simp, (mem_newSigs.mp hs).1⟩
    · exact ⟨o, by simp [ho], hs⟩

theorem stems_dedupSigned (l : List SignedPacket) : Stems l (dedupSigned g l).1 := by
  intro sp hsp
  refine ⟨mem_dedupLoop hsp, fun s hs => ?_⟩
  obtain ⟨first, dups, hocc, hmerged⟩ := exists_occurrences g hsp
  rw [hmerged] at hs
  obtain ⟨o, ho, hos⟩ := mem_mergeOccurrences hs
  rw [← hocc, occurrences, List.mem_filter] at ho
  exact ⟨o, ho.1, by simpa using ho.2, hos⟩

/-! ## Cleaned keys -/

/-- Whatever is on the key `c` is on the key `key`, and the signatures are where they were. -/
structure StemsFrom (key c : PublicKey) : Prop where
  publickey : c.publickey = key.publickey
  revoked : c.revoked = key.revoked
  sigs : c.sigs.Sublist key.sigs
  uids : Stems key.uids c.uids
  subkeys : Stems key.subkeys c.subkeys

section

variable (H : Hashes) (g : Stale) (C : SigCheck) (D : Lookups) (policies : Policies)

theorem stems_cleanPackets (key : PublicKey) :
    Stems key.uids (cleanPackets g policies key).1.uids ∧
      Stems key.subkeys (cleanPackets g policies key).1.subkeys := by
  have hlarge : Stems key.uids
      (if policies.largePackets then cleanLargePackets key else (key, 0)).1.uids ∧
      (if policies.largePackets then cleanLargePackets key else (key, 0)).1.subkeys =
        key.subkeys := by
    split_ifs
    · exact ⟨(Thins.sublist List.filter_sublist).stems, rfl⟩
    · exact ⟨(Thins.refl _).stems, rfl⟩
  refine ⟨?_, ?_⟩
  · exact (hlarge.1.trans (stems_dedupSigned _)).trans
      (Thins.sublist (cleanPackets_sublist policies key)).stems
  · have hcap : ∀ (capped : Bool) (k : PublicKey) (tag max : Nat),
        (if capped then capPacketType k tag max max else (k, 0)).1.subkeys = k.subkeys := by
      intro capped k tag max
      cases capped with
      | false => rfl
      | true =>
        simp only [if_true, capPacketType]
        split_ifs <;> rfl
    show Stems key.subkeys (if policies.capUats then capPacketType _ _ _ _ else (_, 0)).1.subkeys
    rw [hcap]
    show Stems key.subkeys (if policies.capUids then capPacketType _ _ _ _ else (_, 0)).1.subkeys
    rw [hcap]
    show Stems key.subkeys (dedupSigned g
      (if policies.largePackets then cleanLargePackets key else (key, 0)).1.subkeys).1
    rw [hlarge.2]
    exact stems_dedupSigned _

theorem stemsFrom_cleanKey (key : PublicKey) : StemsFrom key (cleanKey H g C D policies key).1 := by
  obtain ⟨huids, hsubkeys⟩ := stems_cleanPackets g policies key
  have hhead := sameHead_cleanPackets (g := g) policies key
  refine ⟨cleanKey_publickey D policies key, ?_, ?_, ?_, ?_⟩
  · have hcapped := (sameHead_cappedSigs (g := g) policies (cleanPackets g policies key).1).revoked
    have hsigs : (cleanSigs H g C D policies (cleanPackets g policies key).1).1.revoked =
        (cleanPackets g policies key).1.revoked := by
      unfold cleanSigs
      simp only
      split_ifs <;> exact hcapped
    exact hsigs.trans hhead.revoked
  · have hsigs := (cleanSigs_sigs_sublist (H := H) (g := g) (C := C) (D := D) policies
      (cleanPackets g policies key).1).trans (Collapse.collapse_sublist ..)
    rw [hhead.sigs] at hsigs
    exact hsigs
  · exact huids.trans (thins_cleanSigs policies _).stems
  · exact hsubkeys.trans ((thins_dedupeListSigs _).trans (thins_cleanSigs_subkeys policies _)).stems

/-- **Cleaning invents nothing.** Some of the keys are left, in their order. Each has its own packet
still, some of its direct signatures, and some of its user ids and subkeys with signatures that were
on the same packet before. -/
theorem cleankeys_stemFrom (keys : List PublicKey) :
    ∃ kept, kept.Sublist keys ∧
      List.Forall₂ StemsFrom kept (cleankeys H g C D policies keys).1 := by
  have hloop : ∀ (keys : List PublicKey) (count : Nat), ∃ kept, kept.Sublist keys ∧
      List.Forall₂ StemsFrom kept (cleanLoop H g C D policies count keys).1 := by
    intro keys
    induction keys with
    | nil => exact fun count => ⟨[], List.Sublist.refl _, .nil⟩
    | cons key keys ih =>
      intro count
      rw [cleanLoop]
      by_cases hold : key.isOld = true
      · rw [if_pos hold]
        obtain ⟨kept, hkept, hall⟩ := ih count
        exact ⟨kept, hkept.cons key, hall⟩
      · rw [if_neg hold]
        obtain ⟨kept, hkept, hall⟩ := ih (count + (cleanKey H g C D policies key).2)
        by_cases hempty : (cleanKey H g C D policies key).1.uids = []
        · refine ⟨kept, hkept.cons key, ?_⟩
          simp only [if_pos hempty]
          exact hall
        · refine ⟨key :: kept, hkept.cons_cons key, ?_⟩
          simp only [if_neg hempty]
          exact .cons (stemsFrom_cleanKey H g C D policies key) hall
  exact hloop keys 0

end

end Onak
