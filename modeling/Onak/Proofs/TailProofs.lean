import Onak.Tails
import Onak.Proofs.CleanPassesProofs

/-!
# Proofs: tail pointers

From a key with valid tail pointers every operation that adds nodes goes through without a fault and
does to the contents of the lists what `Onak.ParseKey`, `Onak.Merge` and `Onak.CleanKey` say. The
tail pointers stay valid unless `dedupuids`, `dedupsubkeys`, `clean_large_packets` or
`clean_key_signatures` unlinks the last node of a list: these leave the tail pointer of the list
where it was (`Step.KeepsTails`).
-/

namespace Onak.Tails

variable {m : Malloc} {g : Stale} {H : Hashes} {C : SigCheck} {D : Lookups}

theorem packetsOf_eq (l : Linked LSigned) : packetsOf l = l.nodes.map fun n => n.val.contents :=
  List.map_map

/-! ## Signatures -/

theorem dedupeSigs_vals (l : Linked Packet) : (dedupeSigs g l).vals = Onak.dedupeSigs g l.vals :=
  (Collapse.collapse_map (signaturesMatchSigner g) (innerWins g) Node.val l.nodes).symm

theorem dedupeSigs_valid {l : Linked Packet} (h : l.Valid) : (dedupeSigs g l).Valid := by
  set same := fun a b : Node Packet => signaturesMatchSigner g a.val b.val with hsame
  set newer := fun a b : Node Packet => innerWins g a.val b.val with hnewer
  have hsub := (Collapse.collapse_sublist (m := same) (n := newer) l.nodes).map Node.addr
  show Linked.Valid ⟨Collapse.collapse same newer l.nodes,
    if ((Collapse.victims same newer l.nodes).any fun n => l.last = some n.addr) = true then
      (Collapse.collapse same newer l.nodes).getLast?.map Node.addr else l.last⟩
  by_cases hdirty : ((Collapse.victims same newer l.nodes).any fun n => l.last = some n.addr) = true
  · rw [if_pos hdirty]
    exact Linked.valid_of_walk (h.distinct.sublist hsub)
  · rw [if_neg hdirty]
    refine h.unlink hsub ?_
    cases hp : l.last with
    | none => simp [Linked.addrs, h.nodes_eq_nil hp, Collapse.collapse_nil]
    | some p =>
      obtain ⟨front, n, hnodes, hn, -⟩ := h.exists_last hp
      have hlast : l.addrs.getLast? = some p := by rw [← h.tail, hp]
      -- the last node is not a victim, so it is left
      have hmem : n ∈ Collapse.victims same newer l.nodes ++ Collapse.collapse same newer l.nodes := by
        rw [(Collapse.victims_append_collapse_perm l.nodes).mem_iff, hnodes]
        exact List.mem_append_right _ (List.mem_singleton_self n)
      rcases List.mem_append.mp hmem with hv | hc
      · exact absurd (List.any_eq_true.mpr ⟨n, hv, by simp [hp, hn]⟩) hdirty
      · rw [hlast]
        exact Linked.getLast?_of_sublist hsub h.distinct hlast (hn ▸ List.mem_map_of_mem hc)

theorem filter_valid {l : Linked Packet} (h : l.Valid) (p : Node Packet → Bool) :
    Linked.Valid ⟨l.nodes.filter p, (l.nodes.filter p).getLast?.map Node.addr⟩ :=
  Linked.valid_of_walk (h.distinct.sublist (List.filter_sublist.map Node.addr))

theorem vals_filter (l : Linked Packet) (p : Packet → Bool) (last : Option Nat) :
    Linked.vals ⟨l.nodes.filter fun n => p n.val, last⟩ = l.vals.filter p := by
  unfold Linked.vals
  rw [List.filter_map]
  rfl

/-- `merge_packet_sigs` goes through on valid lists, and leaves valid lists. -/
theorem mergePacketSigs_valid {old new : LSigned} (ho : old.sigs.Valid) (hn : new.sigs.Valid) :
    ∃ r, mergePacketSigs m g old new = some r ∧ r.1.sigs.Valid ∧ r.2.sigs.Valid ∧
      (r.1.contents, r.2.contents) = Onak.mergePacketSigs g old.contents new.contents := by
  set p : Packet → Bool := fun s => (findSignature g old.sigs.vals s).isNone with hp
  set diff : Linked Packet := ⟨new.sigs.nodes.filter fun n => p n.val,
    (new.sigs.nodes.filter fun n => p n.val).getLast?.map Node.addr⟩ with hdiff
  obtain ⟨sigs, hadd, hvalid, hvals⟩ := ho.addAll m diff.vals
  have hdiffvals : diff.vals = newSigs g old.sigs.vals new.sigs.vals := vals_filter new.sigs p _
  refine ⟨({ old with sigs := dedupeSigs g sigs }, { new with sigs := diff }), ?_,
    dedupeSigs_valid hvalid, filter_valid hn _, ?_⟩
  · show (old.sigs.addAll m diff.vals).bind _ = _
    rw [hadd]
    rfl
  · show ((⟨old.packet, (dedupeSigs g sigs).vals⟩ : SignedPacket), (⟨new.packet, diff.vals⟩ :
      SignedPacket)) = _
    rw [dedupeSigs_vals, hvals, hdiffvals]
    rfl

/-! ## Lists of packets -/

theorem ValidList.of_addrs {l l' : Linked LSigned} (h : ValidList l) (haddrs : l'.addrs = l.addrs)
    (hlast : l'.last = l.last) (hsigs : ∀ n ∈ l'.nodes, n.val.sigs.Valid) : ValidList l' :=
  ⟨⟨by rw [hlast, haddrs]; exact h.list.tail, haddrs ▸ h.list.distinct⟩, hsigs⟩

/-- A valid list with one more packet, whose own tail pointer is valid. -/
theorem ValidList.snoc {l l' : Linked LSigned} (h : ValidList l) (h' : l'.Valid) {sp : LSigned}
    (hsp : sp.sigs.Valid) (hvals : l'.vals = l.vals ++ [sp]) : ValidList l' := by
  refine ⟨h', fun n hn => ?_⟩
  have hmem : n.val ∈ l'.vals := List.mem_map_of_mem hn
  rw [hvals] at hmem
  rcases List.mem_append.mp hmem with hmem | hmem
  · obtain ⟨x, hx, hxn⟩ := List.mem_map.mp hmem
    rw [← hxn]
    exact h.sigs x hx
  · rw [List.mem_singleton.mp hmem]
    exact hsp

theorem findSignedPacket_contents (nodes : List (Node LSigned)) (packet : Packet) :
    (findSignedPacket nodes packet).map (fun n => n.val.contents) =
      Onak.findSignedPacket (nodes.map fun n => n.val.contents) packet := by
  unfold findSignedPacket Onak.findSignedPacket
  rw [List.find?_map]
  rfl

theorem replaceSignedPacket_addrs (nodes : List (Node LSigned)) (elem : LSigned) :
    (replaceSignedPacket nodes elem).map Node.addr = nodes.map Node.addr := by
  induction nodes with
  | nil => rfl
  | cons n rest ih =>
    unfold replaceSignedPacket
    split_ifs
    · rfl
    · rw [List.map_cons, ih, List.map_cons]

theorem replaceSignedPacket_contents (nodes : List (Node LSigned)) (elem : LSigned) :
    (replaceSignedPacket nodes elem).map (fun n => n.val.contents) =
      Onak.replaceSignedPacket (nodes.map fun n => n.val.contents) elem.contents := by
  induction nodes with
  | nil => rfl
  | cons n rest ih =>
    rw [List.map_cons, replaceSignedPacket, Onak.replaceSignedPacket]
    show (if comparePackets n.val.packet elem.packet == 0 then _ else _ : List (Node LSigned)).map _ =
      if comparePackets n.val.packet elem.packet == 0 then _ else _
    split_ifs
    · rfl
    · rw [List.map_cons, ih]

theorem mem_replaceSignedPacket {nodes : List (Node LSigned)} {elem : LSigned} {n : Node LSigned}
    (h : n ∈ replaceSignedPacket nodes elem) : n ∈ nodes ∨ n.val = elem := by
  induction nodes with
  | nil => exact absurd h List.not_mem_nil
  | cons x rest ih =>
    unfold replaceSignedPacket at h
    split_ifs at h
    · rcases List.mem_cons.mp h with rfl | h
      · exact .inr rfl
      · exact .inl (List.mem_cons_of_mem x h)
    · rcases List.mem_cons.mp h with rfl | h
      · exact .inl List.mem_cons_self
      · exact (ih h).imp_left (List.mem_cons_of_mem x)

theorem removeSignedPacket_valid {l : Linked LSigned} (h : ValidList l) (packet : Packet) :
    ValidList (removeSignedPacket l packet) := by
  refine ⟨h.list.unlinkFirst _, fun n hn => h.sigs n ?_⟩
  unfold removeSignedPacket at hn
  rw [Linked.unlinkFirst_nodes] at hn
  exact List.mem_of_mem_eraseP hn

theorem removeSignedPacket_contents (l : Linked LSigned) (packet : Packet) :
    packetsOf (removeSignedPacket l packet) = Onak.removeSignedPacket (packetsOf l) packet := by
  rw [packetsOf_eq, packetsOf_eq, removeSignedPacket, Linked.unlinkFirst_nodes,
    Onak.removeSignedPacket, List.eraseP_map]
  rfl

/-- The new list behind a merge of two entries, whose difference is `diff`, is valid. -/
theorem mergedNew_valid {new : Linked LSigned} (h : ValidList new) {diff : LSigned}
    (hdiff : diff.sigs.Valid) (packet : Packet) :
    ValidList (if diff.sigs.nodes.isEmpty then removeSignedPacket new packet
      else { new with nodes := replaceSignedPacket new.nodes diff }) := by
  split_ifs
  · exact removeSignedPacket_valid h packet
  · refine h.of_addrs (replaceSignedPacket_addrs new.nodes diff) rfl fun n hn => ?_
    rcases mem_replaceSignedPacket hn with hn | hn
    · exact h.sigs n hn
    · rw [hn]
      exact hdiff

theorem mergedNew_contents (new : Linked LSigned) (diff : LSigned) (packet : Packet) :
    packetsOf (if diff.sigs.nodes.isEmpty then removeSignedPacket new packet
        else { new with nodes := replaceSignedPacket new.nodes diff }) =
      if diff.contents.sigs = [] then Onak.removeSignedPacket (packetsOf new) packet
      else Onak.replaceSignedPacket (packetsOf new) diff.contents := by
  have hempty : diff.sigs.nodes.isEmpty = true ↔ diff.contents.sigs = [] := by
    simp [LSigned.contents, Linked.vals]
  by_cases h : diff.sigs.nodes.isEmpty = true
  · rw [if_pos h, if_pos (hempty.mp h), removeSignedPacket_contents]
  · rw [if_neg h, if_neg (mt hempty.mpr h), packetsOf_eq, packetsOf_eq]
    exact replaceSignedPacket_contents new.nodes diff

/-- The first loop of `merge_signed_packets` goes through on valid lists. The old list keeps its
nodes. -/
theorem mergeCommon_valid {old : List (Node LSigned)} (ho : ∀ n ∈ old, n.val.sigs.Valid)
    {new : Linked LSigned} (hn : ValidList new) :
    ∃ r, mergeCommon m g old new = some r ∧ r.1.map Node.addr = old.map Node.addr ∧
      (∀ n ∈ r.1, n.val.sigs.Valid) ∧ ValidList r.2 ∧
      (r.1.map (fun n => n.val.contents), packetsOf r.2) =
        Onak.mergeCommon g (old.map fun n => n.val.contents) (packetsOf new) := by
  induction old generalizing new with
  | nil => exact ⟨([], new), rfl, rfl, by simp, hn, rfl⟩
  | cons curelem old ih =>
    obtain ⟨hcur, ho⟩ := List.forall_mem_cons.mp ho
    have hfind := findSignedPacket_contents new.nodes curelem.val.packet
    rw [← packetsOf_eq] at hfind
    have hpacket : curelem.val.contents.packet = curelem.val.packet := rfl
    simp only [mergeCommon, List.map_cons, Onak.mergeCommon, hpacket, ← hfind]
    cases hf : findSignedPacket new.nodes curelem.val.packet with
    | none =>
      obtain ⟨r, hr, haddrs, hsigs, hnew, hcontents⟩ := ih ho hn
      refine ⟨(curelem :: r.1, r.2), ?_, ?_, List.forall_mem_cons.mpr ⟨hcur, hsigs⟩, hnew, ?_⟩
      · rw [hr]
        rfl
      · rw [List.map_cons, haddrs]
      · simp only [Option.map_none, ← hcontents]
        rfl
    | some newelem =>
      have hmem := List.mem_of_find?_eq_some hf
      obtain ⟨p, hp, hp1, hp2, hmerged⟩ := mergePacketSigs_valid (m := m) (g := g) hcur
        (hn.sigs newelem hmem)
      have hold : p.1.contents = (Onak.mergePacketSigs g curelem.val.contents
          newelem.val.contents).1 := congrArg Prod.fst hmerged
      have hdiff : p.2.contents = (Onak.mergePacketSigs g curelem.val.contents
          newelem.val.contents).2 := congrArg Prod.snd hmerged
      have hvalid := mergedNew_valid hn hp2 newelem.val.packet
      have hnewpacket : newelem.val.contents.packet = newelem.val.packet := rfl
      have hpackets := mergedNew_contents new p.2 newelem.val.packet
      rw [hdiff] at hpackets
      obtain ⟨r, hr, haddrs, hsigs, hnew, hcontents⟩ := ih ho hvalid
      rw [hpackets] at hcontents
      refine ⟨(⟨curelem.addr, p.1⟩ :: r.1, r.2), ?_, ?_, List.forall_mem_cons.mpr ⟨hp1, hsigs⟩, hnew,
        ?_⟩
      · simp only [hp, Option.bind_eq_bind, Option.bind_some]
        rw [hr]
        rfl
      · rw [List.map_cons, haddrs]
      · simp only [Option.map_some, hnewpacket, ← hcontents, List.map_cons, hold]

/-- The second loop of `merge_signed_packets` goes through on a valid list. -/
theorem addMissing_valid {old : Linked LSigned} (ho : ValidList old) (new : List (Node LSigned)) :
    ∃ l, addMissing m old new = some l ∧ ValidList l ∧
      packetsOf l = Onak.addMissing (packetsOf old) (new.map fun n => n.val.contents) := by
  induction new generalizing old with
  | nil => exact ⟨old, rfl, ho, rfl⟩
  | cons curelem new ih =>
    have hfind := findSignedPacket_contents old.nodes curelem.val.packet
    rw [← packetsOf_eq] at hfind
    have hpacket : curelem.val.contents.packet = curelem.val.packet := rfl
    have hnone : (Onak.findSignedPacket (packetsOf old) curelem.val.packet).isNone =
        (findSignedPacket old.nodes curelem.val.packet).isNone := by
      rw [← hfind, Option.isNone_map]
    simp only [addMissing, List.map_cons, Onak.addMissing, hpacket, hnone]
    split_ifs with h
    · obtain ⟨sigs, hsigs, hsigsValid, hsigsVals⟩ :=
        (Linked.valid_empty (α := Packet)).addAll m curelem.val.sigs.vals
      obtain ⟨old', hadd, -, hvalid, hvals⟩ := ho.list.add m ⟨curelem.val.packet, sigs⟩
      have hcontents : packetsOf old' = packetsOf old ++ [curelem.val.contents] := by
        rw [packetsOf, hvals, List.map_append, List.map_singleton]
        show _ = packetsOf old ++ [⟨curelem.val.packet, curelem.val.sigs.vals⟩]
        rw [LSigned.contents, hsigsVals]
        rfl
      have hlist : ValidList old' := ho.snoc hvalid hsigsValid hvals
      obtain ⟨l, hl, hlvalid, hlcontents⟩ := ih hlist
      refine ⟨l, ?_, hlvalid, ?_⟩
      · rw [hsigs]
        simp only [Option.bind_eq_bind, Option.bind_some, hadd]
        exact hl
      · rw [hlcontents, hcontents]
    · exact ih ho

theorem mergeSignedPackets_valid {old new : Linked LSigned} (ho : ValidList old)
    (hn : ValidList new) :
    ∃ r, mergeSignedPackets m g old new = some r ∧ ValidList r.1 ∧ ValidList r.2 ∧
      (packetsOf r.1, packetsOf r.2) =
        Onak.mergeSignedPackets g (packetsOf old) (packetsOf new) := by
  obtain ⟨r, hr, haddrs, hsigs, hnew, hcontents⟩ := mergeCommon_valid (m := m) (g := g) ho.sigs hn
  have hold : ValidList { old with nodes := r.1 } := ho.of_addrs haddrs rfl hsigs
  obtain ⟨l, hl, hvalid, hlcontents⟩ := addMissing_valid (m := m) hold r.2.nodes
  refine ⟨(l, r.2), ?_, hvalid, hnew, ?_⟩
  · unfold mergeSignedPackets
    rw [hr]
    simp only [Option.bind_eq_bind, Option.bind_some, hl]
    rfl
  · rw [← packetsOf_eq] at hcontents
    unfold Onak.mergeSignedPackets
    simp only [← hcontents]
    rw [hlcontents, packetsOf_eq, packetsOf_eq]

/-- Merging the lists goes through on keys with valid tail pointers. -/
theorem mergeLists_valid {a b : LKey} (ha : a.Valid) (hb : b.Valid) :
    ∃ r, mergeLists m g a b = some r ∧ r.1.Valid ∧ r.2.Valid ∧
      r.1.contents = { a.contents with
        sigs := a.sigs.vals ++ b.sigs.vals.filter fun s => !findPacket a.sigs.vals s,
        uids := (Onak.mergeSignedPackets g (packetsOf a.uids) (packetsOf b.uids)).1,
        subkeys := (Onak.mergeSignedPackets g (packetsOf a.subkeys) (packetsOf b.subkeys)).1 } ∧
      r.2.contents = { b.contents with
        sigs := b.sigs.vals.filter fun s => !findPacket a.sigs.vals s,
        uids := (Onak.mergeSignedPackets g (packetsOf a.uids) (packetsOf b.uids)).2,
        subkeys := (Onak.mergeSignedPackets g (packetsOf a.subkeys) (packetsOf b.subkeys)).2 } := by
  set p : Packet → Bool := fun s => !findPacket a.sigs.vals s with hp
  set diff : Linked Packet := ⟨b.sigs.nodes.filter fun n => p n.val,
    (b.sigs.nodes.filter fun n => p n.val).getLast?.map Node.addr⟩ with hdiff
  obtain ⟨sigs, hadd, hvalid, hvals⟩ := ha.sigs.addAll m diff.vals
  have hdiffvals : diff.vals = b.sigs.vals.filter p := vals_filter b.sigs p _
  obtain ⟨uids, huids, hu1, hu2, hucontents⟩ :=
    mergeSignedPackets_valid (m := m) (g := g) ha.uids hb.uids
  obtain ⟨subkeys, hsubkeys, hs1, hs2, hscontents⟩ :=
    mergeSignedPackets_valid (m := m) (g := g) ha.subkeys hb.subkeys
  refine ⟨({ a with sigs := sigs, uids := uids.1, subkeys := subkeys.1 },
    { b with sigs := diff, uids := uids.2, subkeys := subkeys.2 }), ?_, ⟨hvalid, hu1, hs1⟩,
    ⟨filter_valid hb.sigs _, hu2, hs2⟩, ?_, ?_⟩
  · show (a.sigs.addAll m diff.vals).bind _ = _
    rw [hadd, Option.bind_some, huids, hsubkeys]
    rfl
  · show (⟨a.publickey, a.revoked, sigs.vals, packetsOf uids.1, packetsOf subkeys.1⟩ : PublicKey) = _
    rw [hvals, hdiffvals, ← hucontents, ← hscontents]
    rfl
  · show (⟨b.publickey, b.revoked, diff.vals, packetsOf uids.2, packetsOf subkeys.2⟩ : PublicKey) = _
    rw [hdiffvals, ← hucontents, ← hscontents]
    rfl

/-- `merge_keys` goes through on keys with valid tail pointers, leaves valid tail pointers on both,
and does what it does to the lists. -/
theorem mergeKeys_valid {a b : LKey} (ha : a.Valid) (hb : b.Valid) :
    ∃ r, mergeKeys m g H a b = some r ∧ r.1.Valid ∧ r.2.Valid ∧
      r.1.contents = (Onak.mergeKeys H g a.contents b.contents).a ∧
      r.2.contents = (Onak.mergeKeys H g a.contents b.contents).b := by
  unfold mergeKeys Onak.mergeKeys
  cases getKeyid H a.contents with
  | none => exact ⟨(a, b), rfl, ha, hb, rfl, rfl⟩
  | some keya =>
    cases getKeyid H b.contents with
    | none => exact ⟨(a, b), rfl, ha, hb, rfl, rfl⟩
    | some keyb =>
      by_cases hne : keya ≠ keyb
      · simp only [if_pos hne]
        exact ⟨_, rfl, ⟨ha.sigs, ha.uids, ha.subkeys⟩, ⟨hb.sigs, hb.uids, hb.subkeys⟩, rfl, rfl⟩
      · obtain ⟨r, hr, h1, h2, hc1, hc2⟩ := mergeLists_valid (m := m) (g := g) ha hb
        have hrev1 : r.1.revoked = a.revoked := congrArg PublicKey.revoked hc1
        have hrev2 : r.2.revoked = b.revoked := congrArg PublicKey.revoked hc2
        simp only [if_neg hne, hr]
        refine ⟨_, rfl, ⟨h1.sigs, h1.uids, h1.subkeys⟩, ⟨h2.sigs, h2.uids, h2.subkeys⟩, ?_, ?_⟩
        · show { r.1.contents with revoked := r.1.revoked || r.2.revoked } = _
          rw [hc1, hrev1, hrev2]
          rfl
        · show { r.2.contents with revoked := r.1.revoked || r.2.revoked } = _
          rw [hc2, hrev1, hrev2]
          rfl

/-! ## Repeated packets -/

theorem absorbDups_valid {cur : LSigned} (hc : cur.sigs.Valid) {l : List (Node LSigned)}
    (hl : ∀ n ∈ l, n.val.sigs.Valid) :
    ∃ r, absorbDups m g cur l = some r ∧ r.1.packet = cur.packet ∧ r.1.sigs.Valid ∧
      r.2 = l.filter (fun n => ¬ n.val.packet.Same cur.packet) ∧
      r.1.contents = (Onak.absorbDups g cur.contents (l.map fun n => n.val.contents)).1 := by
  induction l generalizing cur with
  | nil => exact ⟨(cur, []), rfl, rfl, hc, rfl, rfl⟩
  | cons dup rest ih =>
    obtain ⟨hdup, hl⟩ := List.forall_mem_cons.mp hl
    have hpacket : comparePackets dup.val.contents.packet cur.contents.packet =
        comparePackets dup.val.packet cur.packet := rfl
    simp only [absorbDups, List.map_cons, Onak.absorbDups, hpacket]
    by_cases hsame : dup.val.packet.Same cur.packet
    · have hzero : (comparePackets dup.val.packet cur.packet == 0) = true := by
        simpa using comparePackets_eq_zero_iff.mpr hsame
      obtain ⟨p, hp, hp1, -, hmerged⟩ := mergePacketSigs_valid (m := m) (g := g) hc hdup
      have hpp : p.1.packet = cur.packet := congrArg (fun q => q.1.packet) hmerged
      obtain ⟨r, hr, hrp, hrv, hrest, hrc⟩ := ih hp1 hl
      refine ⟨r, ?_, hrp.trans hpp, hrv, ?_, ?_⟩
      · simp only [hzero, if_true, hp, Option.bind_eq_bind, Option.bind_some]
        exact hr
      · rw [hrest, List.filter_cons_of_neg (by simpa using hsame), hpp]
      · simp only [hzero, if_true]
        rw [hrc, ← hmerged]
    · have hzero : ¬ (comparePackets dup.val.packet cur.packet == 0) = true := by
        simpa using fun h => hsame (comparePackets_eq_zero_iff.mp h)
      obtain ⟨r, hr, hrp, hrv, hrest, hrc⟩ := ih hc hl
      refine ⟨(r.1, dup :: r.2), ?_, hrp, hrv, ?_, ?_⟩
      · simp only [if_neg hzero, hr]
        rfl
      · rw [hrest, List.filter_cons_of_pos (by simpa using hsame)]
      · simp only [if_neg hzero]
        exact hrc

theorem dedupLoop_valid {fuel : Nat} {l : List (Node LSigned)} (hl : ∀ n ∈ l, n.val.sigs.Valid) :
    ∃ r, dedupLoop m g fuel l = some r ∧ (∀ n ∈ r, n.val.sigs.Valid) ∧
      (r.map Node.addr).Sublist (l.map Node.addr) ∧
      r.map (fun n => n.val.contents) = (Onak.dedupLoop g fuel (l.map fun n => n.val.contents)).1 := by
  induction fuel generalizing l with
  | zero => exact ⟨[], rfl, by simp, List.nil_sublist _, rfl⟩
  | succ fuel ih =>
    cases l with
    | nil => exact ⟨[], rfl, by simp, List.nil_sublist _, rfl⟩
    | cons cur rest =>
      obtain ⟨hcur, hl⟩ := List.forall_mem_cons.mp hl
      obtain ⟨r, hr, -, hrv, hrest, hrc⟩ := absorbDups_valid (m := m) (g := g) hcur hl
      have hsub : r.2.Sublist rest := hrest ▸ List.filter_sublist
      obtain ⟨r', hr', hvalid, haddrs, hcontents⟩ := ih fun n hn => hl n (hsub.subset hn)
      refine ⟨⟨cur.addr, r.1⟩ :: r', ?_, List.forall_mem_cons.mpr ⟨hrv, hvalid⟩, ?_, ?_⟩
      · simp only [dedupLoop, hr, Option.bind_eq_bind, Option.bind_some, hr']
        rfl
      · exact (haddrs.trans (hsub.map Node.addr)).cons_cons cur.addr
      · obtain ⟨-, hleft⟩ := absorbDups_eq g cur.val.contents (rest.map fun n => n.val.contents)
        have hrest' : r.2.map (fun n => n.val.contents) =
            (Onak.absorbDups g cur.val.contents (rest.map fun n => n.val.contents)).2.1 := by
          rw [hleft, hrest, List.filter_map]
          rfl
        simp only [List.map_cons, Onak.dedupLoop]
        rw [hcontents, hrest', hrc]

theorem dedupLoop_cons {fuel : Nat} {cur : Node LSigned} {rest r : List (Node LSigned)}
    (h : dedupLoop m g (fuel + 1) (cur :: rest) = some r) :
    ∃ p r', absorbDups m g cur.val rest = some p ∧ dedupLoop m g fuel p.2 = some r' ∧
      r = ⟨cur.addr, p.1⟩ :: r' := by
  obtain ⟨p, hp, h⟩ := Option.bind_eq_some_iff.mp h
  obtain ⟨r', hr', h⟩ := Option.bind_eq_some_iff.mp h
  exact ⟨p, r', hp, hr', (Option.some.inj h).symm⟩

/-- A last packet that is no repetition is still there, under its address. -/
theorem addr_mem_dedupLoop {fuel : Nat} {front : List (Node LSigned)} {last : Node LSigned}
    (hl : ∀ n ∈ front ++ [last], n.val.sigs.Valid)
    (hnew : ∀ x ∈ front, ¬ x.val.packet.Same last.val.packet) (hfuel : front.length < fuel)
    {r : List (Node LSigned)} (hr : dedupLoop m g fuel (front ++ [last]) = some r) :
    last.addr ∈ r.map Node.addr := by
  induction fuel generalizing front r with
  | zero => exact absurd hfuel (Nat.not_lt_zero _)
  | succ fuel ih =>
    cases front with
    | nil =>
      obtain ⟨p, r', -, -, rfl⟩ := dedupLoop_cons hr
      exact List.mem_cons_self
    | cons cur front =>
      rw [List.cons_append] at hl hr
      obtain ⟨p, r', hp, hr', rfl⟩ := dedupLoop_cons hr
      obtain ⟨hcur, hl⟩ := List.forall_mem_cons.mp hl
      obtain ⟨hcurnew, hnew⟩ := List.forall_mem_cons.mp hnew
      obtain ⟨p', hp', -, -, hrest, -⟩ := absorbDups_valid (m := m) (g := g) hcur hl
      obtain rfl := Option.some.inj (hp'.symm.trans hp)
      -- the last packet differs from this one, so it is not absorbed
      have hlast : ¬ last.val.packet.Same cur.val.packet := fun h => hcurnew h.symm
      have hsplit : p'.2 = front.filter (fun n => ¬ n.val.packet.Same cur.val.packet) ++ [last] := by
        rw [hrest, List.filter_append, List.filter_cons_of_pos (by simpa using hlast), List.filter_nil]
      have hlen := List.length_filter_le (fun n : Node LSigned => ¬ n.val.packet.Same cur.val.packet)
        front
      rw [List.length_cons] at hfuel
      rw [hsplit] at hr'
      refine List.mem_cons_of_mem _ (ih ?_ ?_ (by omega) hr')
      · intro n hn
        rw [← hsplit, hrest] at hn
        exact hl n (List.mem_filter.mp hn).1
      · exact fun x hx => hnew x (List.mem_filter.mp hx).1

/-- The last packet does not repeat one before it. -/
def LastNew (l : List SignedPacket) : Prop :=
  ∀ sp ∈ l.getLast?, ∀ x ∈ l.dropLast, ¬ x.packet.Same sp.packet

/-- `dedupuids` and `dedupsubkeys` go through on a valid list. They leave a valid list when the last
packet is not taken away. -/
theorem dedupSigned_valid {l : Linked LSigned} (h : ValidList l) (hlast : LastNew (packetsOf l)) :
    ∃ r, dedupSigned m g l = some r ∧ ValidList r ∧
      packetsOf r = (Onak.dedupSigned g (packetsOf l)).1 := by
  obtain ⟨nodes, hr, hsigs, haddrs, hcontents⟩ := @dedupLoop_valid m g l.nodes.length _ h.sigs
  refine ⟨{ l with nodes := nodes }, ?_, ⟨h.list.unlink haddrs ?_, hsigs⟩, ?_⟩
  · rw [dedupSigned, hr]
    rfl
  · cases hp : l.last with
    | none =>
      have hnil := h.list.nodes_eq_nil hp
      rw [hnil] at haddrs
      rw [List.sublist_nil.mp haddrs, Linked.addrs, hnil]
      rfl
    | some p =>
      obtain ⟨front, n, hnodes, hn, -⟩ := h.list.exists_last hp
      have hend : l.addrs.getLast? = some p := by rw [← h.list.tail, hp]
      have hnew : ∀ x ∈ front, ¬ x.val.packet.Same n.val.packet := by
        intro x hx
        have hcontent : packetsOf l = front.map (fun n => n.val.contents) ++ [n.val.contents] := by
          rw [packetsOf_eq, hnodes, List.map_append, List.map_singleton]
        rw [LastNew, hcontent, List.getLast?_concat, List.dropLast_concat] at hlast
        exact hlast n.val.contents rfl x.val.contents (List.mem_map_of_mem hx)
      rw [hend]
      refine Linked.getLast?_of_sublist haddrs h.list.distinct hend ?_
      rw [hnodes] at hr
      rw [← hn]
      refine addr_mem_dedupLoop (fun x hx => h.sigs x (hnodes ▸ hx)) hnew ?_ hr
      simp
  · rw [packetsOf_eq, hcontents, packetsOf_eq, Onak.dedupSigned, List.length_map]

/-! ## Limits -/

theorem ValidList.keep {l : Linked LSigned} (h : ValidList l) {p : LSigned → Bool}
    (hlast : ∀ sp ∈ l.vals.getLast?, p sp = true) : ValidList (l.keep p) :=
  ⟨h.list.keep hlast, fun n hn => h.sigs n (List.mem_filter.mp hn).1⟩

theorem ValidList.mapSigs {l : Linked LSigned} (h : ValidList l) {f : Node LSigned → Linked Packet}
    (hf : ∀ n ∈ l.nodes, (f n).Valid) : ValidList (mapSigs f l) := by
  refine h.of_addrs ?_ rfl fun n hn => ?_
  · simp [Tails.mapSigs, Linked.addrs, Function.comp_def]
  · obtain ⟨x, hx, rfl⟩ := List.mem_map.mp hn
    exact hf x hx

theorem cleanLargePackets_valid {key : LKey} (h : key.Valid)
    (hlast : ∀ sp ∈ (packetsOf key.uids).getLast?,
      sp.packet.length ≤ packetLimit sp.packet.tag) : (cleanLargePackets key).Valid := by
  have hkeep := h.uids.keep (p := fun sp => ¬ packetLimit sp.packet.tag < sp.packet.length) ?_
  · exact ⟨h.sigs, hkeep, h.subkeys⟩
  intro sp hsp
  have hmem : sp.contents ∈ (packetsOf key.uids).getLast? := by
    rw [packetsOf, List.getLast?_map]
    exact Option.mem_map_of_mem LSigned.contents hsp
  have hle : sp.packet.length ≤ packetLimit sp.packet.tag := hlast sp.contents hmem
  simpa using hle

theorem capLoop_sublist (tag : Nat) (s : CapState) (l : List (Node LSigned)) :
    (capLoop tag s l).Sublist l := by
  induction l generalizing s with
  | nil => exact List.Sublist.refl _
  | cons n rest ih =>
    simp only [capLoop]
    split_ifs
    · exact List.Sublist.refl _
    · exact (ih _).cons_cons n
    · exact (ih _).cons n

/-- There are more packets of each kind on the list than can be dropped or protected. -/
structure Margin (tag : Nat) (s : CapState) (l : List SignedPacket) : Prop where
  active : s.dropActive = 0 ∨ s.dropActive + s.protects < l.countP (isActive tag)
  revoked : s.dropRevoked = 0 ∨ s.dropRevoked < l.countP (isRevoked tag)

theorem Margin.step {tag : Nat} {s : CapState} {sp : SignedPacket} {rest : List SignedPacket}
    (h : Margin tag s (sp :: rest)) : Margin tag (capStep tag s sp).2 rest := by
  obtain ⟨ha, hr⟩ := h
  rw [List.countP_cons] at ha hr
  unfold capStep
  split_ifs with htag hrev hr0 ha0 hp hanchor
  · have h1 : isActive tag sp = false := by simp [isActive, htag]
    have h2 : isRevoked tag sp = false := by simp [isRevoked, htag]
    simp only [h1, h2, Bool.false_eq_true, if_false, Nat.add_zero] at ha hr
    exact ⟨ha, hr⟩
  · have h1 : isActive tag sp = false := by simp [isActive, hrev]
    simp only [h1, Bool.false_eq_true, if_false, Nat.add_zero] at ha
    exact ⟨ha, .inl hr0⟩
  · have h1 : isActive tag sp = false := by simp [isActive, hrev]
    have h2 : isRevoked tag sp = true := by simp_all [isRevoked]
    simp only [h1, h2, if_true, Bool.false_eq_true, if_false, Nat.add_zero] at ha hr
    refine ⟨ha, ?_⟩
    show s.dropRevoked - 1 = 0 ∨ s.dropRevoked - 1 < _
    omega
  all_goals
    have h1 : isActive tag sp = true := by simp_all [isActive]
    have h2 : isRevoked tag sp = false := by simp_all [isRevoked]
    simp only [h1, h2, if_true, Bool.false_eq_true, if_false, Nat.add_zero] at ha hr
  · exact ⟨.inl ha0, hr⟩
  · have hpk : s.primaryKept = false := by simpa using hp.1
    refine ⟨?_, hr⟩
    simp only [CapState.protects, hpk, Bool.false_eq_true, if_false, if_true] at ha ⊢
    omega
  · have hak : s.anchorKept = false := by simpa using hanchor.1
    refine ⟨?_, hr⟩
    simp only [CapState.protects, hak, Bool.false_eq_true, if_false, if_true] at ha ⊢
    omega
  · refine ⟨?_, hr⟩
    show s.dropActive - 1 = 0 ∨ s.dropActive - 1 + s.protects < _
    omega

/-- With a margin the last packet stays. -/
theorem Margin.keeps {tag : Nat} {s : CapState} {sp : SignedPacket} (h : Margin tag s [sp]) :
    (capStep tag s sp).1 = true := by
  obtain ⟨ha, hr⟩ := h
  rw [List.countP_singleton] at ha hr
  unfold capStep
  split_ifs with htag hrev hr0 ha0
  · rfl
  · rfl
  · have hle : (if isRevoked tag sp = true then 1 else 0) ≤ 1 := by split_ifs <;> omega
    exact absurd (by omega) hr0
  · rfl
  all_goals
    have hle : (if isActive tag sp = true then 1 else 0) ≤ 1 := by split_ifs <;> omega
    exact absurd (by omega) ha0

theorem capLoop_getLast? {tag : Nat} {s : CapState} {l : List (Node LSigned)}
    (h : Margin tag s (l.map fun n => n.val.contents)) :
    (capLoop tag s l).getLast? = l.getLast? := by
  induction l generalizing s with
  | nil => rfl
  | cons n rest ih =>
    have ih := ih h.step
    simp only [capLoop]
    split_ifs with hstop hkeep
    · rfl
    · rw [List.getLast?_cons, List.getLast?_cons, ih]
    · cases rest with
      | nil => exact absurd h.keeps hkeep
      | cons x rest => rw [ih, List.getLast?_cons_cons]

/-- `cap_packet_type` never takes the last packet of a list: the two protected packets and the limit
leave a margin. -/
theorem capPacketType_valid {key : LKey} (h : key.Valid) {tag maxActive maxRevoked : Nat}
    (ha : 3 ≤ maxActive) (hr : 1 ≤ maxRevoked) :
    (capPacketType key tag maxActive maxRevoked).Valid := by
  unfold capPacketType
  extract_lets dropActive dropRevoked
  split_ifs with hstop
  · exact h
  · refine ⟨h.sigs, ⟨?_, fun n hn => h.uids.sigs n ((capLoop_sublist _ _ _).subset hn)⟩, h.subkeys⟩
    refine h.uids.list.unlink ((capLoop_sublist _ _ _).map Node.addr) ?_
    have hmargin : Margin tag ⟨dropActive, dropRevoked, false, false⟩
        (key.uids.nodes.map fun n => n.val.contents) := by
      rw [← packetsOf_eq]
      refine ⟨?_, ?_⟩
      · show _ - _ = 0 ∨ _ - _ + 2 < _
        omega
      · show _ - _ = 0 ∨ _ - _ < _
        omega
    rw [Linked.addrs, List.getLast?_map, List.getLast?_map, capLoop_getLast? hmargin]

theorem capSigsOf_valid {l : Linked Packet} (h : l.Valid) (max : Nat) : (capSigsOf max l).Valid := by
  unfold capSigsOf
  split_ifs
  · exact h
  · exact Linked.valid_of_walk (h.distinct.sublist ((List.take_sublist _ _).map Node.addr))

theorem capSigsPerPacket_valid {key : LKey} (h : key.Valid) (tag max : Nat) :
    (capSigsPerPacket key tag max).Valid := by
  unfold capSigsPerPacket
  split_ifs
  · exact h
  · refine ⟨h.sigs, h.uids.mapSigs fun n hn => ?_, h.subkeys⟩
    split_ifs
    · exact capSigsOf_valid (h.uids.sigs n hn) max
    · exact h.uids.sigs n hn

theorem dedupeSigsAt_valid {l : Linked LSigned} (h : ValidList l) (p : Nat) :
    ValidList (dedupeSigsAt g p l) := by
  refine h.mapSigs fun n hn => ?_
  split_ifs
  · exact dedupeSigs_valid (h.sigs n hn)
  · exact h.sigs n hn

/-! ## Checking signatures -/

section

variable (H : Hashes) (g : Stale) (C : SigCheck) (D : Lookups) (publickey : Packet) (fullverify : Bool)

/-- The last signature of a list passes the check. -/
def LastPasses (sigdata : Option Packet) (sigs : List Packet) : Prop :=
  ∀ s ∈ sigs.getLast?, (sigVerdict H g C D publickey sigdata fullverify s).remove = false

/-- The packet is not taken away for want of a self signature. -/
def Stays (sp : SignedPacket) : Prop :=
  fullverify = true →
    ∃ s ∈ sp.sigs, (sigVerdict H g C D publickey (some sp.packet) fullverify s).selfsig = true

/-- The packet has a valid signature of another key. -/
def OtherSigned (sp : SignedPacket) : Prop :=
  ∃ s ∈ sp.sigs, (sigVerdict H g C D publickey (some sp.packet) fullverify s).othersig = true

/-- The check takes neither the last packet of a list nor the last signature of a packet that
stays. -/
structure LastChecked (needother : Bool) (l : List SignedPacket) : Prop where
  last : ∀ sp ∈ l.getLast?, Stays H g C D publickey fullverify sp
  sigs : ∀ sp ∈ l, Stays H g C D publickey fullverify sp →
    LastPasses H g C D publickey fullverify (some sp.packet) sp.sigs
  other : needother = true → fullverify = true → l = [] ∨
    ∃ sp ∈ l, OtherSigned H g C D publickey fullverify sp

end

theorem cleanSighashes_valid {publickey : Packet} {sigdata : Option Packet} {fullverify : Bool}
    {l : Linked Packet} (h : l.Valid)
    (hlast : LastPasses H g C D publickey fullverify sigdata l.vals) :
    (cleanSighashes H g C D publickey sigdata fullverify l).Valid :=
  h.keep fun s hs => by simpa using hlast s hs

theorem stays_iff {publickey : Packet} {fullverify : Bool} {sp : LSigned} :
    Stays H g C D publickey fullverify sp.contents ↔
      (!(fullverify && !(Onak.cleanSighashes H g C D publickey (some sp.packet) fullverify
        sp.sigs.vals).selfsig)) = true := by
  cases fullverify with
  | false => simp [Stays]
  | true => simp [Stays, LSigned.contents, Onak.cleanSighashes]

theorem mem_packetsOf {l : Linked LSigned} {n : Node LSigned} (h : n ∈ l.nodes) :
    n.val.contents ∈ packetsOf l := by
  rw [packetsOf_eq]
  exact List.mem_map_of_mem h

theorem cleanListSighashes_valid {publickey : Packet} {fullverify needother : Bool}
    {l : Linked LSigned} (h : ValidList l)
    (hlast : LastChecked H g C D publickey fullverify needother (packetsOf l)) :
    ValidList (cleanListSighashes H g C D publickey fullverify needother l) := by
  unfold cleanListSighashes
  extract_lets result cleaned othersig
  split_ifs with hall
  · -- all packets are taken away, so there were none
    simp only [Bool.and_eq_true, Bool.not_eq_true'] at hall
    rcases hlast.other hall.1.1 hall.1.2 with hnil | ⟨sp, hsp, s, hs, hother⟩
    · have hnodes : l.nodes = [] := by simpa [packetsOf, Linked.vals] using hnil
      rw [← hnodes]
      exact h
    · obtain ⟨x, hx, rfl⟩ := List.mem_map.mp hsp
      have htrue : othersig = true :=
        List.any_eq_true.mpr ⟨x, hx, List.any_eq_true.mpr ⟨s, hs, hother⟩⟩
      exact absurd (hall.2.symm.trans htrue) (by decide)
  · have hkeep : ValidList (l.keep fun sp => !(fullverify && !(result sp).selfsig)) := by
      refine h.keep fun sp hsp => stays_iff.mp (hlast.last sp.contents ?_)
      rw [packetsOf, List.getLast?_map]
      exact Option.mem_map_of_mem LSigned.contents hsp
    refine hkeep.mapSigs fun n hn => ?_
    obtain ⟨hn, hstays⟩ := List.mem_filter.mp hn
    exact cleanSighashes_valid (h.sigs n hn)
      (hlast.sigs n.val.contents (mem_packetsOf hn) (stays_iff.mpr hstays))

/-! ## Runs -/

section

variable (H : Hashes) (g : Stale) (C : SigCheck) (D : Lookups)

/-- The operation does not unlink the last node of a list without setting the tail pointer. -/
def Step.KeepsTails (key : LKey) : Step → Prop
  | dedupuids _ => LastNew (packetsOf key.uids)
  | dedupsubkeys _ => LastNew (packetsOf key.subkeys)
  | cleanLargePackets =>
    ∀ sp ∈ (packetsOf key.uids).getLast?, sp.packet.length ≤ packetLimit sp.packet.tag
  | cleanKeySignatures fullverify needother =>
    LastPasses H g C D key.publickey fullverify none key.sigs.vals ∧
      LastChecked H g C D key.publickey fullverify needother (packetsOf key.uids) ∧
      LastChecked H g C D key.publickey fullverify false (packetsOf key.subkeys)
  | _ => True

/-- The keys that operations which meet the condition can make of a key. -/
inductive Reaches (start : LKey) : LKey → Prop
  | refl : Reaches start start
  | step {key key' : LKey} (s : Step) (reached : Reaches start key)
      (keeps : s.KeepsTails H g C D key) (run : s.run H g C D key = some key') : Reaches start key'

end

/-- An operation that meets the condition goes through and keeps the tail pointers valid. -/
theorem Step.run_valid {key : LKey} (h : key.Valid) (s : Step) (hs : s.KeepsTails H g C D key) :
    ∃ key', s.run H g C D key = some key' ∧ key'.Valid := by
  cases s with
  | mergeOld m new valid =>
    obtain ⟨r, hr, hvalid, -⟩ := mergeKeys_valid (m := m) (g := g) (H := H) h valid
    exact ⟨r.1, by rw [Step.run, hr]; rfl, hvalid⟩
  | mergeNew m old valid =>
    obtain ⟨r, hr, -, hvalid, -⟩ := mergeKeys_valid (m := m) (g := g) (H := H) valid h
    exact ⟨r.2, by rw [Step.run, hr]; rfl, hvalid⟩
  | dedupuids m =>
    obtain ⟨l, hl, hvalid, -⟩ := dedupSigned_valid (m := m) (g := g) h.uids hs
    exact ⟨{ key with uids := l }, by rw [Step.run, Tails.dedupuids, hl]; rfl,
      ⟨h.sigs, hvalid, h.subkeys⟩⟩
  | dedupsubkeys m =>
    obtain ⟨l, hl, hvalid, -⟩ := dedupSigned_valid (m := m) (g := g) h.subkeys hs
    exact ⟨{ key with subkeys := l }, by rw [Step.run, Tails.dedupsubkeys, hl]; rfl,
      ⟨h.sigs, h.uids, hvalid⟩⟩
  | cleanLargePackets => exact ⟨_, rfl, cleanLargePackets_valid h hs⟩
  | capUidsPerKey => exact ⟨_, rfl, capPacketType_valid h (by decide) (by decide)⟩
  | capUatsPerKey => exact ⟨_, rfl, capPacketType_valid h (by decide) (by decide)⟩
  | dedupeSigs => exact ⟨_, rfl, dedupeSigs_valid h.sigs, h.uids, h.subkeys⟩
  | dedupeUidSigs p => exact ⟨_, rfl, h.sigs, dedupeSigsAt_valid h.uids p, h.subkeys⟩
  | dedupeSubkeySigs p => exact ⟨_, rfl, h.sigs, h.uids, dedupeSigsAt_valid h.subkeys p⟩
  | capSigsPerPacket tag max => exact ⟨_, rfl, capSigsPerPacket_valid h tag max⟩
  | cleanKeySignatures fullverify needother =>
    obtain ⟨hsigs, huids, hsubkeys⟩ := hs
    exact ⟨_, rfl, cleanSighashes_valid h.sigs hsigs, cleanListSighashes_valid h.uids huids,
      cleanListSighashes_valid h.subkeys hsubkeys⟩

theorem Reaches.valid {start key : LKey} (hstart : start.Valid) (h : Reaches H g C D start key) :
    key.Valid := by
  induction h with
  | refl => exact hstart
  | step s reached keeps run ih =>
    obtain ⟨key', hrun, hvalid⟩ := s.run_valid ih keeps
    obtain rfl := Option.some.inj (hrun.symm.trans run)
    exact hvalid

/-! ## Parsed keys -/

theorem addSigAt_valid {l : Linked LSigned} (h : ValidList l) (hne : l.nodes ≠ [])
    (packet : Packet) :
    ∃ l', addSigAt m l packet = some l' ∧ ValidList l' ∧
      packetsOf l' = addSigToLast (packetsOf l) packet := by
  cases hp : l.last with
  | none => exact absurd (h.list.nodes_eq_nil hp) hne
  | some p =>
    obtain ⟨front, n, hnodes, hn, hfront⟩ := h.list.exists_last hp
    have hupTo : Linked.upTo p l.nodes = some l.nodes := by
      rw [hnodes]
      exact Linked.upTo_last hn hfront
    have hlast : l.nodes.getLast? = some n := by rw [hnodes, List.getLast?_concat]
    have hmem : n ∈ l.nodes := by simp [hnodes]
    obtain ⟨sigs, -, hadd, hvalid, hvals⟩ := (h.sigs n hmem).add m packet
    have hmap : (l.nodes.map fun x => if x.addr = p then
        (⟨p, { x.val with sigs := sigs }⟩ : Node LSigned) else x) =
        front ++ [⟨p, { n.val with sigs := sigs }⟩] := by
      rw [hnodes, List.map_append, List.map_singleton, if_pos hn]
      congr 1
      exact (List.map_congr_left fun x hx => if_neg (hfront x hx)).trans (List.map_id _)
    refine ⟨{ l with nodes := front ++ [⟨p, { n.val with sigs := sigs }⟩] }, ?_, ?_, ?_⟩
    · rw [addSigAt, hp]
      simp only [Option.bind_eq_bind, Option.bind_some, hupTo, hlast, hadd]
      rw [← hmap]
      rfl
    · refine h.of_addrs ?_ rfl fun x hx => ?_
      · simp [Linked.addrs, hnodes, hn]
      · rcases List.mem_append.mp hx with hx | hx
        · exact h.sigs x (by simp [hnodes, hx])
        · rw [List.mem_singleton.mp hx]
          exact hvalid
    · rw [packetsOf_eq, packetsOf_eq, hnodes]
      simp [addSigToLast, LSigned.contents, hvals]

theorem validList_empty : ValidList .empty := ⟨Linked.valid_empty, by simp [Linked.empty]⟩

theorem nodes_isEmpty {l : Linked LSigned} : l.nodes.isEmpty = true ↔ packetsOf l = [] := by
  simp [packetsOf, Linked.vals]

theorem addEnd_valid {l : Linked LSigned} (h : ValidList l) (packet : Packet) :
    ∃ l', l.addEnd m ⟨packet, .empty⟩ = some l' ∧ ValidList l' ∧
      packetsOf l' = packetsOf l ++ [⟨packet, []⟩] := by
  obtain ⟨l', -, hadd, hvalid, hvals⟩ := h.list.add m ⟨packet, .empty⟩
  refine ⟨l', hadd, h.snoc hvalid Linked.valid_empty hvals, ?_⟩
  rw [packetsOf, hvals, List.map_append]
  rfl

theorem addSignature_valid {key : LKey} (h : key.Valid) (past : Nat → UInt8) (packet : Packet) :
    ∃ key', addSignature m past key packet = some key' ∧ key'.Valid ∧
      key'.contents = Onak.addSignature past key.contents packet := by
  unfold addSignature Onak.addSignature
  by_cases hs : packetsOf key.subkeys = []
  · have hse : (!key.subkeys.nodes.isEmpty) = false := by simpa using nodes_isEmpty.mpr hs
    have hsc : ¬ key.contents.subkeys ≠ [] := not_not_intro hs
    by_cases hu : packetsOf key.uids = []
    · have hue : (!key.uids.nodes.isEmpty) = false := by simpa using nodes_isEmpty.mpr hu
      have huc : ¬ key.contents.uids ≠ [] := not_not_intro hu
      obtain ⟨l, -, hadd, hvalid, hvals⟩ := h.sigs.add m packet
      refine ⟨{ key with sigs := l, revoked := key.revoked || revokesKey past packet }, ?_,
        ⟨hvalid, h.uids, h.subkeys⟩, ?_⟩
      · simp [hse, hue, hadd]
      · rw [if_neg hsc, if_neg huc]
        simp [LKey.contents, hvals]
    · have hue : (!key.uids.nodes.isEmpty) = true := by simpa using mt nodes_isEmpty.mp hu
      have huc : key.contents.uids ≠ [] := hu
      obtain ⟨l, hadd, hvalid, hcontents⟩ := addSigAt_valid (m := m) h.uids
        (fun hnil => hu (nodes_isEmpty.mp (by simp [hnil]))) packet
      refine ⟨{ key with uids := l }, ?_, ⟨h.sigs, hvalid, h.subkeys⟩, ?_⟩
      · simp [hse, hue, hadd]
      · rw [if_neg hsc, if_pos huc]
        simp [LKey.contents, hcontents]
  · have hse : (!key.subkeys.nodes.isEmpty) = true := by simpa using mt nodes_isEmpty.mp hs
    have hsc : key.contents.subkeys ≠ [] := hs
    obtain ⟨l, hadd, hvalid, hcontents⟩ := addSigAt_valid (m := m) h.subkeys
      (fun hnil => hs (nodes_isEmpty.mp (by simp [hnil]))) packet
    refine ⟨{ key with subkeys := l }, ?_, ⟨h.sigs, h.uids, hvalid⟩, ?_⟩
    · simp [hse, hadd]
    · rw [if_pos hsc]
      simp [LKey.contents, hcontents]

/-- What a round of `parse_keys` comes to, for keys without tail pointers. -/
def Agrees (keys : List LKey) (r : Bool × List LKey) (result : Option (List PublicKey)) : Prop :=
  (∀ k ∈ r.2, k.Valid) ∧
    if r.1 then result = some (r.2.map LKey.contents) else result = none ∧ r.2 = keys

theorem changeLast_valid {keys : List LKey} (hk : ∀ k ∈ keys, k.Valid) {f : LKey → Option LKey}
    {h : PublicKey → PublicKey}
    (hf : ∀ k, keys.getLast? = some k → ∃ k', f k = some k' ∧ k'.Valid ∧ k'.contents = h k.contents) :
    ∃ r, changeLast keys f = some r ∧
      Agrees keys r ((keys.map LKey.contents).getLast?.bind fun k =>
        some ((keys.map LKey.contents).dropLast ++ [h k])) := by
  unfold changeLast
  cases hlast : keys.getLast? with
  | none => exact ⟨(false, keys), rfl, hk, by simp [List.getLast?_map, hlast]⟩
  | some curkey =>
    obtain ⟨k', hfk, hvalid, hcontents⟩ := hf curkey hlast
    refine ⟨(true, keys.dropLast ++ [k']), by simp [hfk], fun k hmem => ?_, ?_⟩
    · rcases List.mem_append.mp hmem with hmem | hmem
      · exact hk k (List.mem_of_mem_dropLast hmem)
      · rw [List.mem_singleton.mp hmem]
        exact hvalid
    · simp [List.getLast?_map, hlast, hcontents, List.map_dropLast]

/-- A user id is put behind the user ids of the last key, unless that has subkeys already. -/
theorem changeLast_addUid {keys : List LKey} (hk : ∀ k ∈ keys, k.Valid) (packet : Packet) :
    ∃ r, (if keys.getLast?.any fun curkey => !curkey.subkeys.nodes.isEmpty then some (false, keys)
      else changeLast keys fun curkey =>
        (curkey.uids.addEnd m ⟨packet, .empty⟩).map fun l => { curkey with uids := l }) = some r ∧
      Agrees keys r (do
        let curkey ← (keys.map LKey.contents).getLast?
        if curkey.subkeys ≠ [] then none
        else return (keys.map LKey.contents).dropLast ++
          [{ curkey with uids := curkey.uids ++ [⟨packet, []⟩] }]) := by
  by_cases hany : (keys.getLast?.any fun curkey => !curkey.subkeys.nodes.isEmpty) = true
  · obtain ⟨k, hlast, hne⟩ := (Option.any_eq_true _ _).mp hany
    have hsub : k.contents.subkeys ≠ [] := fun hnil => by simp [nodes_isEmpty.mpr hnil] at hne
    refine ⟨(false, keys), if_pos hany, hk, ?_, rfl⟩
    rw [List.getLast?_map, hlast]
    exact if_pos hsub
  · rw [if_neg hany]
    obtain ⟨r, hr, hagrees⟩ := changeLast_valid hk
      (f := fun curkey => (curkey.uids.addEnd m ⟨packet, .empty⟩).map fun l =>
        { curkey with uids := l })
      (h := fun curkey => { curkey with uids := curkey.uids ++ [⟨packet, []⟩] }) fun k hlast => by
        have hvalid := hk k (List.mem_of_getLast? hlast)
        obtain ⟨l, hl, hlvalid, hcontents⟩ := addEnd_valid (m := m) hvalid.uids packet
        exact ⟨{ k with uids := l }, by rw [hl]; rfl, ⟨hvalid.sigs, hlvalid, hvalid.subkeys⟩,
          by simp [LKey.contents, hcontents]⟩
    refine ⟨r, hr, ?_⟩
    convert hagrees using 1
    rw [List.getLast?_map]
    cases hlast : keys.getLast? with
    | none => rfl
    | some k =>
      have hsub : k.contents.subkeys = [] := by
        refine nodes_isEmpty.mp ?_
        simpa [hlast] using hany
      exact if_neg (not_not_intro hsub)

/-- A subkey is put behind the subkeys of the last key. -/
theorem changeLast_addSubkey {keys : List LKey} (hk : ∀ k ∈ keys, k.Valid) (packet : Packet) :
    ∃ r, (changeLast keys fun curkey =>
        (curkey.subkeys.addEnd m ⟨packet, .empty⟩).map fun l => { curkey with subkeys := l }) =
          some r ∧
      Agrees keys r ((keys.map LKey.contents).getLast?.bind fun k =>
        some ((keys.map LKey.contents).dropLast ++
          [{ k with subkeys := k.subkeys ++ [⟨packet, []⟩] }])) := by
  refine changeLast_valid hk (h := fun k => { k with subkeys := k.subkeys ++ [⟨packet, []⟩] }) ?_
  intro k hlast
  have hvalid := hk k (List.mem_of_getLast? hlast)
  obtain ⟨l, hl, hlvalid, hcontents⟩ := addEnd_valid (m := m) hvalid.subkeys packet
  exact ⟨{ k with subkeys := l }, by rw [hl]; rfl, ⟨hvalid.sigs, hvalid.uids, hlvalid⟩,
    by simp [LKey.contents, hcontents]⟩

theorem parsePacket_valid (past : List PublicKey → Nat → UInt8) {keys : List LKey}
    (hk : ∀ k ∈ keys, k.Valid) (packet : Packet) :
    ∃ r, parsePacket m past keys packet = some r ∧
      Agrees keys r (Onak.parsePacket past (keys.map LKey.contents) packet) := by
  by_cases h2 : packet.tag = tagSignature
  · obtain ⟨r, hr, hagrees⟩ := changeLast_valid hk
      (f := fun curkey => addSignature m (past (keys.map LKey.contents)) curkey packet)
      (h := fun curkey => Onak.addSignature (past (keys.map LKey.contents)) curkey packet)
      fun k hlast => addSignature_valid (hk k (List.mem_of_getLast? hlast))
        (past (keys.map LKey.contents)) packet
    refine ⟨r, by simp only [parsePacket, h2]; exact hr, ?_⟩
    simp only [Onak.parsePacket, h2]
    exact hagrees
  by_cases h6 : packet.tag = tagPublickey
  · refine ⟨(true, keys ++ [⟨packet, false, .empty, .empty, .empty⟩]), ?_, ?_, ?_⟩
    · simp only [parsePacket, h6]
    · refine List.forall_mem_append.mpr ⟨hk, fun k hmem => ?_⟩
      rw [List.mem_singleton.mp hmem]
      exact ⟨Linked.valid_empty, validList_empty, validList_empty⟩
    · simp only [Onak.parsePacket, h6, if_true, List.map_append]
      rfl
  by_cases h14 : packet.tag = tagPublicsubkey
  · obtain ⟨r, hr, hagrees⟩ := changeLast_addSubkey (m := m) hk packet
    refine ⟨r, by simp only [parsePacket, h14]; exact hr, ?_⟩
    simp only [Onak.parsePacket, h14]
    exact hagrees
  by_cases h13 : packet.tag = tagUid
  · obtain ⟨r, hr, hagrees⟩ := changeLast_addUid (m := m) hk packet
    exact ⟨r, by simp only [parsePacket, h13]; exact hr, by simpa only [Onak.parsePacket, h13] using hagrees⟩
  by_cases h17 : packet.tag = tagUat
  · obtain ⟨r, hr, hagrees⟩ := changeLast_addUid (m := m) hk packet
    exact ⟨r, by simp only [parsePacket, h17]; exact hr, by simpa only [Onak.parsePacket, h17] using hagrees⟩
  · refine ⟨(true, keys), ?_, hk, ?_⟩
    · unfold parsePacket
      split <;> first | rfl | contradiction
    · rw [if_pos rfl]
      unfold Onak.parsePacket
      split <;> first | rfl | contradiction

/-- `parse_keys` never writes through a bad pointer, and the keys it leaves have valid tail
pointers. -/
theorem parseKeys_valid (past : List PublicKey → Nat → UInt8) {keys : List LKey}
    (hk : ∀ k ∈ keys, k.Valid) (packets : List Packet) :
    ∃ keys', parseKeys m past keys packets = some keys' ∧ (∀ k ∈ keys', k.Valid) ∧
      keys'.map LKey.contents =
        (Onak.parseKeys past packets (keys.map LKey.contents)).keys := by
  unfold Onak.parseKeys
  generalize 0 = count
  induction packets generalizing keys count with
  | nil => exact ⟨keys, rfl, hk, rfl⟩
  | cons packet packets ih =>
    obtain ⟨r, hr, hvalid, hagrees⟩ := parsePacket_valid (m := m) past hk packet
    simp only [parseKeys, hr, Option.bind_eq_bind, Option.bind_some, Onak.parseLoop]
    cases hplaced : r.1 with
    | true =>
      rw [hplaced, if_pos rfl] at hagrees
      rw [if_pos rfl, hagrees]
      exact ih hvalid _
    | false =>
      rw [hplaced, if_neg (by simp)] at hagrees
      rw [if_neg (by simp), hagrees.1]
      exact ⟨r.2, rfl, hvalid, by rw [hagrees.2]⟩

/-! ## Merging later -/

/-- The packets of `old` come first in `merged`, and those of `new` are all there. -/
def LandsBehind (old new merged : List SignedPacket) : Prop :=
  old.map SignedPacket.packet <+: merged.map SignedPacket.packet ∧ OnAll new merged

/-- What `b` brings is put behind what `a` has, and nothing of it is lost. -/
structure Appended (a b merged : PublicKey) : Prop where
  sigs : a.sigs <+: merged.sigs
  newSigs : ∀ s ∈ b.sigs, OnList merged.sigs s
  uids : LandsBehind a.uids b.uids merged.uids
  subkeys : LandsBehind a.subkeys b.subkeys merged.subkeys

theorem mergeCommon_packets (old new : List SignedPacket) :
    (Onak.mergeCommon g old new).1.map SignedPacket.packet = old.map SignedPacket.packet := by
  induction old generalizing new with
  | nil => rfl
  | cons curelem old ih =>
    unfold Onak.mergeCommon
    cases Onak.findSignedPacket new curelem.packet with
    | none => simp only [List.map_cons, ih]
    | some newelem =>
      simp only [List.map_cons, ih]
      rfl

theorem addMissing_extends (old new : List SignedPacket) : old <+: Onak.addMissing old new := by
  induction new generalizing old with
  | nil => exact List.prefix_refl old
  | cons curelem new ih =>
    unfold Onak.addMissing
    split_ifs
    · exact (List.prefix_append old [curelem]).trans (ih _)
    · exact ih old

theorem landsBehind_mergeSignedPackets (old new : List SignedPacket) :
    LandsBehind old new (Onak.mergeSignedPackets g old new).1 := by
  refine ⟨?_, onAll_merge_new old new⟩
  rw [← mergeCommon_packets (g := g) old new]
  exact (addMissing_extends _ _).map SignedPacket.packet

theorem appended_mergeKeys {a b : PublicKey} (h : SameKeyid H a b) :
    Appended a b (Onak.mergeKeys H g a b).a := by
  rw [mergeKeys_eq h]
  exact ⟨List.prefix_append _ _, fun s hs => onList_merge_sigs (List.mem_append_right _ hs),
    landsBehind_mergeSignedPackets _ _, landsBehind_mergeSignedPackets _ _⟩

/-- **Tail pointers of parsed keys.** In every run from a parsed key whose operations do not unlink
the last node of a list behind the back of its tail pointer, all tail pointers are valid, the next
such operation goes through, and what `merge_keys` adds lands behind what is there. -/
theorem parsed_reaches_valid (H : Hashes) (g : Stale) (C : SigCheck) (D : Lookups) (m : Malloc)
    (past : List PublicKey → Nat → UInt8) (packets : List Packet) :
    ∃ keys, parseKeys m past [] packets = some keys ∧
      keys.map LKey.contents = (Onak.parseKeys past packets []).keys ∧
      ∀ start ∈ keys, ∀ key, Reaches H g C D start key → key.Valid ∧
        (∀ s : Step, s.KeepsTails H g C D key → ∃ key', s.run H g C D key = some key') ∧
        ∀ (m' : Malloc) (new : LKey), new.Valid → SameKeyid H key.contents new.contents →
          ∃ r, mergeKeys m' g H key new = some r ∧ r.1.Valid ∧
            Appended key.contents new.contents r.1.contents := by
  obtain ⟨keys, hkeys, hvalid, hcontents⟩ := parseKeys_valid (m := m) past
    (List.forall_mem_nil LKey.Valid) packets
  refine ⟨keys, hkeys, hcontents, fun start hstart key hreach => ?_⟩
  have hkey : key.Valid := hreach.valid (hvalid start hstart)
  refine ⟨hkey, fun s hs => (s.run_valid hkey hs).imp fun _ h => h.1, fun m' new hnew hid => ?_⟩
  obtain ⟨r, hr, hr1, -, hmerged, -⟩ := mergeKeys_valid (m := m') (g := g) (H := H) hkey hnew
  refine ⟨r, hr, hr1, ?_⟩
  rw [hmerged]
  exact appended_mergeKeys hid

/-- An allocator that goes beyond all addresses in use. -/
def beyondAll : Malloc where
  alloc used := used.sum + 1
  fresh := Malloc.sum_succ_not_mem

/-- A key with the given user ids, one after the other in memory. -/
def keyWith (uids : List UInt8) : LKey :=
  ⟨sampleV4Packet tagPublickey 1 0xC1, false, .empty,
    ⟨uids.zipIdx.map fun x => ⟨2 ^ x.2, ⟨sampleUid x.1, .empty⟩⟩,
      uids.zipIdx.getLast?.map fun x => 2 ^ x.2⟩, .empty⟩

/-- Two different user ids: `dedupuids` keeps the tail pointers valid. -/
theorem parsed_reaches_valid_sample :
    Reaches sampleV4Hashes zeroStale noCheck ⟨fun _ => [], fun _ => false⟩ (keyWith [65, 66])
        (keyWith [65, 66]) ∧ (keyWith [65, 66]).Valid := by
  have hreach : Reaches sampleV4Hashes zeroStale noCheck ⟨fun _ => [], fun _ => false⟩
      (keyWith [65, 66]) (keyWith [65, 66]) := by
    refine .step (.dedupuids beyondAll) .refl ?_ rfl
    intro sp hsp x hx
    obtain rfl := Option.some.inj (show some (⟨sampleUid 66, []⟩ : SignedPacket) = some sp from hsp)
    obtain rfl := List.mem_singleton.mp (show x ∈ [(⟨sampleUid 65, []⟩ : SignedPacket)] from hx)
    decide
  refine ⟨hreach, ?_⟩
  obtain ⟨keys, hkeys, -, hall⟩ := parsed_reaches_valid sampleV4Hashes zeroStale noCheck
    ⟨fun _ => [], fun _ => false⟩ beyondAll (fun _ _ => 0)
    [sampleV4Packet tagPublickey 1 0xC1, sampleUid 65, sampleUid 66]
  obtain rfl : [keyWith [65, 66]] = keys := Option.some.inj hkeys
  exact (hall (keyWith [65, 66]) (List.mem_singleton_self _) _ hreach).1

/-- A user id twice: `dedupuids` frees the second and leaves `last_uid` pointing to it. -/
theorem dedupuids_leaves_tail :
    ¬ ∀ (H : Hashes) (g : Stale) (C : SigCheck) (D : Lookups) (m : Malloc)
        (past : List PublicKey → Nat → UInt8) (packets : List Packet) (keys : List LKey) (start : LKey),
      parseKeys m past [] packets = some keys → start ∈ keys →
      ∀ (steps : List Step) (key : LKey), steps.foldlM (Step.run H g C D) start = some key →
        key.Valid ∧ ∀ new : LKey, new.Valid → SameKeyid H key.contents new.contents →
          (mergeKeys m g H key new).isSome := by
  intro hall
  have hkey := hall sampleV4Hashes zeroStale noCheck ⟨fun _ => [], fun _ => false⟩ beyondAll
    (fun _ _ => 0) [sampleV4Packet tagPublickey 1 0xC1, sampleUid 65, sampleUid 65]
    [keyWith [65, 65]] (keyWith [65, 65]) rfl (List.mem_singleton_self _) [.dedupuids beyondAll]
    { keyWith [65] with uids := { (keyWith [65]).uids with last := some 2 } } rfl
  have htail : some 2 = some 1 := hkey.1.uids.list.tail
  exact absurd htail (by decide)

-- A merge that brings another user id then writes to the freed node.
example : mergeKeys beyondAll zeroStale sampleV4Hashes
    { keyWith [65] with uids := { (keyWith [65]).uids with last := some 2 } } (keyWith [66]) = none :=
  rfl

end Onak.Tails
