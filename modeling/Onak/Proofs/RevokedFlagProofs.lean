import Onak.KeyIndex
import Onak.Lib.Leaders
import Onak.Proofs.CleanPassesProofs
import Onak.Proofs.ParseKeysProofs

/-!
# Proofs: the revoked flag and the signatures it stands for

`parse_keys` raises the flag when it puts a revocation on a key, and nothing lowers it again.
`build_one_key` looks among the direct signatures for the revocation when the flag is up. The two
agree on a parsed key unless the revocation is of version 5, which only the second knows, or a
signature is cut short. Cleaning keeps them in agreement as long as a revocation passes its check.
-/

namespace Onak

variable {H : Hashes} {g : Stale} {C : SigCheck} {D : Lookups}

/-! ## The two tests -/

theorem isRev_iff {s : Packet} : isRev s = true ↔
    (s.data[0]? = some 3 ∨ s.data[0]? = some 4 ∨ s.data[0]? = some 5) ∧
      sigTypeOctet s = some sigtypeKeyRev := by
  unfold isRev sigTypeOctet Packet.length
  rcases s.data with _ | ⟨x, _ | ⟨y, _ | ⟨z, l⟩⟩⟩
  · simp
  · simp
  · simp
    grind
  · simp
    grind

/-- A version 5 revocation of the key. -/
def Packet.isKeyRevocation5 (s : Packet) : Bool :=
  s.data[0]? = some 5 ∧ s.data[1]? = some sigtypeKeyRev

/-- `build_one_key` knows the revocations that `parse_keys` knows, and those of version 5. -/
theorem isRev_eq (s : Packet) : isRev s = (s.isKeyRevocation || s.isKeyRevocation5) := by
  rw [Bool.eq_iff_iff, isRev_iff]
  simp only [Packet.isKeyRevocation, Packet.isKeyRevocation5, sigTypeOctet, Bool.or_eq_true,
    decide_eq_true_eq]
  grind

theorem isRev_of_match {s r : Packet} (h : signaturesMatchSigner g s r = true)
    (hs : isRev s = true) : isRev r = true := by
  obtain ⟨-, hv, ht, hi, hir⟩ := signaturesMatchSigner_iff.mp h
  obtain ⟨hver, htype⟩ := isRev_iff.mp hs
  have hver' := hver
  rw [hv] at hver'
  rw [isRev_iff]
  refine ⟨hver', ?_⟩
  rw [sigTypeOctet_eq (hir ▸ hi) hver', ← ht, ← sigTypeOctet_eq hi hver]
  exact htype

/-- Nothing that matches a revocation wins against it. -/
theorem not_innerWins_of_isRev {s r : Packet} (h : signaturesMatchSigner g s r = true)
    (hs : isRev s = true) : ¬ innerWins g s r = true := by
  obtain ⟨-, -, -, hi, -⟩ := signaturesMatchSigner_iff.mp h
  obtain ⟨hver, htype⟩ := isRev_iff.mp hs
  rw [sigTypeOctet_eq hi hver] at htype
  rw [innerWins_iff, Option.some.inj htype]
  rintro ⟨hno, -⟩
  exact absurd hno (by decide)

/-- Of the revocations of one signer, `dedupe_sigs` leaves the first. -/
theorem mem_dedupeSigs_revocation {sigs : List Packet} {s : Packet} (hs : isRev s = true) :
    s ∈ dedupeSigs g sigs ↔
      ∃ i, sigs[i]? = some s ∧ ∀ x ∈ sigs.take i, ¬ signaturesMatchSigner g x s = true := by
  unfold dedupeSigs
  rw [Collapse.mem_collapse_iff_leads ranked]
  refine exists_congr fun i => ?_
  rw [and_comm]
  refine and_congr_right fun hget => ?_
  have hmem : (s, i) ∈ sigs.zipIdx := List.mem_zipIdx_iff_getElem?.mpr hget
  rw [Collapse.leadsAt_iff hmem]
  constructor
  · intro hleads x hx hm
    obtain ⟨j, hj⟩ := List.mem_iff_getElem?.mp hx
    have hlt : j < i := by
      by_contra hge
      have hlen : (sigs.take i).length ≤ j := (List.length_take_le i sigs).trans (by omega)
      rw [List.getElem?_eq_none hlen] at hj
      exact absurd hj (by simp)
    rw [List.getElem?_take_of_lt hlt] at hj
    have hsx := ranked.symm hm
    have hwins := hleads (x, j) (List.mem_zipIdx_iff_getElem?.mpr hj) hsx
    rw [if_pos hlt] at hwins
    exact not_innerWins_of_isRev hm (isRev_of_match hsx hs) hwins
  · intro hfirst y hy hm
    have hget' := List.mem_zipIdx_iff_getElem?.mp hy
    split_ifs with hlt
    · refine absurd (ranked.symm hm) (hfirst y.1 (List.mem_iff_getElem?.mpr ⟨y.2, ?_⟩))
      rw [List.getElem?_take_of_lt hlt]
      exact hget'
    · exact not_innerWins_of_isRev hm hs

/-! ## The direct signatures in a packet list -/

/-- The tags of the packets that end the signatures directly on a key. -/
def partTags : List Nat := [tagPublickey, tagUid, tagUat, tagPublicsubkey]

/-- The signatures directly on a public key, in what follows it. -/
def directSigs (rest : List Packet) : List Packet :=
  (rest.takeWhile fun p => !partTags.contains p.tag).filter fun p => p.tag = tagSignature

/-- Whether a packet cannot be placed, by what is known of the last key. -/
def noPlace (cur : Option Bool) (p : Packet) : Bool :=
  ([tagSignature, tagUid, tagUat, tagPublicsubkey].contains p.tag && cur == none) ||
    ([tagUid, tagUat].contains p.tag && cur == some true)

/-- The public key packets that are taken up, up to the first packet that cannot be placed, each with
what follows it. -/
def headsLoop (cur : Option Bool) : List Packet → List (Packet × List Packet)
  | [] => []
  | p :: packets =>
    if noPlace cur p then []
    else if p.tag = tagPublickey then (p, packets) :: headsLoop (lastKeyStep cur p) packets
    else headsLoop (lastKeyStep cur p) packets

/-- The public keys that `parse_keys` takes up from a packet list, each with its direct signatures. -/
def keysIn (packets : List Packet) : List (Packet × List Packet) :=
  (headsLoop none packets).map fun h => (h.1, directSigs h.2)

theorem directSigs_part {p : Packet} (h : p.tag ∈ partTags) (packets : List Packet) :
    directSigs (p :: packets) = [] := by
  unfold directSigs
  rw [List.takeWhile_cons_of_neg (by simpa using h)]
  rfl

theorem directSigs_signature {p : Packet} (h : p.tag = tagSignature) (packets : List Packet) :
    directSigs (p :: packets) = p :: directSigs packets := by
  unfold directSigs
  rw [List.takeWhile_cons_of_pos (by simp [h, partTags]), List.filter_cons_of_pos (by simp [h])]

theorem directSigs_other {p : Packet} (h : p.tag ∉ partTags) (hs : p.tag ≠ tagSignature)
    (packets : List Packet) : directSigs (p :: packets) = directSigs packets := by
  unfold directSigs
  rw [List.takeWhile_cons_of_pos (by simpa using h), List.filter_cons_of_neg (by simpa using hs)]

/-- The signatures that a key still gets from the packets that follow. -/
def moreSigs (k : PublicKey) (packets : List Packet) : List Packet :=
  if k.uids = [] ∧ k.subkeys = [] then directSigs packets else []

theorem moreSigs_nil (k : PublicKey) : moreSigs k [] = [] := by
  unfold moreSigs
  split_ifs <;> rfl

theorem moreSigs_part {p : Packet} (h : p.tag ∈ partTags) (k : PublicKey) (packets : List Packet) :
    moreSigs k (p :: packets) = [] := by
  unfold moreSigs
  rw [directSigs_part h, ite_self]

theorem moreSigs_closed {k : PublicKey} (h : k.uids ≠ [] ∨ k.subkeys ≠ []) (packets : List Packet) :
    moreSigs k packets = [] := by
  unfold moreSigs
  rw [if_neg (by tauto)]

/-- A signature is either the next one directly on the key, or leaves the direct signatures and what
they are followed by as they are. -/
theorem addSignature_moreSigs {p : Packet} (h : p.tag = tagSignature) (m : Nat → UInt8) (k : PublicKey)
    (packets : List Packet) :
    (addSignature m k p).publickey = k.publickey ∧
      (addSignature m k p).sigs ++ moreSigs (addSignature m k p) packets =
        k.sigs ++ moreSigs k (p :: packets) := by
  unfold addSignature
  by_cases hs : k.subkeys = []
  · by_cases hu : k.uids = []
    · simp [hs, hu, moreSigs, directSigs_signature h]
    · obtain ⟨init, last, hl⟩ := k.uids.eq_nil_or_concat.resolve_left hu
      rw [if_neg (not_not.mpr hs), if_pos hu, moreSigs_closed (.inl hu), moreSigs_closed]
      · exact ⟨rfl, rfl⟩
      · simp [hl, addSigToLast]
  · obtain ⟨init, last, hl⟩ := k.subkeys.eq_nil_or_concat.resolve_left hs
    rw [if_pos hs, moreSigs_closed (.inr hs), moreSigs_closed]
    · exact ⟨rfl, rfl⟩
    · simp [hl, addSigToLast]

section

variable (past : List PublicKey → Nat → UInt8)

/-- What a round of `parse_keys` does to a list that ends with the key `k`. -/
theorem parsePacket_concat (init : List PublicKey) (k : PublicKey) (p : Packet) :
    (p.tag = tagSignature ∧ parsePacket past (init ++ [k]) p =
      some (init ++ [addSignature (past (init ++ [k])) k p])) ∨
    (p.tag = tagPublickey ∧
      parsePacket past (init ++ [k]) p = some ((init ++ [k]) ++ [⟨p, false, [], [], []⟩])) ∨
    ((p.tag = tagUid ∨ p.tag = tagUat) ∧ k.subkeys ≠ [] ∧ parsePacket past (init ++ [k]) p = none) ∨
    ((p.tag = tagUid ∨ p.tag = tagUat) ∧ k.subkeys = [] ∧ parsePacket past (init ++ [k]) p =
      some (init ++ [{ k with uids := k.uids ++ [⟨p, []⟩] }])) ∨
    (p.tag = tagPublicsubkey ∧ parsePacket past (init ++ [k]) p =
      some (init ++ [{ k with subkeys := k.subkeys ++ [⟨p, []⟩] }])) ∨
    ((p.tag ≠ tagSignature ∧ p.tag ∉ partTags) ∧
      parsePacket past (init ++ [k]) p = some (init ++ [k])) := by
  unfold parsePacket
  simp only [List.getLast?_concat, List.dropLast_concat, Option.bind_eq_bind, Option.bind_some]
  split
  · rename_i htag
    exact .inl ⟨htag, rfl⟩
  · rename_i htag
    exact .inr (.inl ⟨htag, rfl⟩)
  · rename_i htag
    by_cases hs : k.subkeys = []
    · exact .inr (.inr (.inr (.inl ⟨.inl htag, hs, by simp [hs]⟩)))
    · exact .inr (.inr (.inl ⟨.inl htag, hs, by simp [hs]⟩))
  · rename_i htag
    by_cases hs : k.subkeys = []
    · exact .inr (.inr (.inr (.inl ⟨.inr htag, hs, by simp [hs]⟩)))
    · exact .inr (.inr (.inl ⟨.inr htag, hs, by simp [hs]⟩))
  · rename_i htag
    exact .inr (.inr (.inr (.inr (.inl ⟨htag, rfl⟩))))
  · rename_i h1 h2 h3 h4 h5
    exact .inr (.inr (.inr (.inr (.inr ⟨⟨h1, by simpa [partTags] using ⟨h2, h3, h4, h5⟩⟩, rfl⟩))))

/-- A public key with its direct signatures. -/
def PublicKey.direct (k : PublicKey) : Packet × List Packet := (k.publickey, k.sigs)

/-- The direct signatures of the keys that are parsed onto a list that ends with the key `k`. -/
theorem parseLoop_direct_eq (packets : List Packet) (count : Nat) (init : List PublicKey)
    (k : PublicKey) :
    (parseLoop past count (init ++ [k]) packets).keys.map PublicKey.direct =
      init.map PublicKey.direct ++ (k.publickey, k.sigs ++ moreSigs k packets) ::
        (headsLoop (some (decide (k.subkeys ≠ []))) packets).map fun h => (h.1, directSigs h.2) := by
  induction packets generalizing count init k with
  | nil => simp [parseLoop, headsLoop, moreSigs_nil, PublicKey.direct]
  | cons p packets ih =>
    unfold parseLoop headsLoop
    rcases parsePacket_concat past init k p with ⟨htag, hp⟩ | ⟨htag, hp⟩ | ⟨htag, hs, hp⟩ |
      ⟨htag, hs, hp⟩ | ⟨htag, hp⟩ | ⟨htag, hp⟩
    · -- a signature
      obtain ⟨hpk, hmore⟩ := addSignature_moreSigs htag (past (init ++ [k])) k packets
      rw [hp]
      simp only
      rw [ih, hpk, hmore]
      simp [noPlace, lastKeyStep, htag, addSignature_subkeys]
    · -- the next key
      rw [hp]
      simp only
      rw [ih, moreSigs_part (by simp [htag, partTags])]
      simp [noPlace, lastKeyStep, htag, moreSigs, PublicKey.direct]
    · -- a user id behind a subkey
      have hno : noPlace (some (decide (k.subkeys ≠ []))) p = true := by
        rcases htag with htag | htag <;> simp [noPlace, htag, hs]
      have hpart : p.tag ∈ partTags := by
        rcases htag with htag | htag <;> simp [htag, partTags]
      rw [hp, if_pos hno, moreSigs_part hpart]
      simp [PublicKey.direct]
    · -- a user id
      have hpart : p.tag ∈ partTags := by
        rcases htag with htag | htag <;> simp [htag, partTags]
      rw [hp]
      simp only
      rw [ih, moreSigs_part hpart, moreSigs_closed (.inl (by simp))]
      rcases htag with htag | htag <;> simp [noPlace, lastKeyStep, htag, hs]
    · -- a subkey
      rw [hp]
      simp only
      rw [ih, moreSigs_part (by simp [htag, partTags]), moreSigs_closed (.inr (by simp))]
      simp [noPlace, lastKeyStep, htag]
    · -- a packet that has no place on a key
      have hmore : moreSigs k (p :: packets) = moreSigs k packets := by
        unfold moreSigs
        rw [directSigs_other htag.2 htag.1]
      have hothers := htag.2
      simp only [partTags, List.mem_cons, List.not_mem_nil, or_false, not_or] at hothers
      rw [hp]
      simp only
      rw [ih, hmore]
      simp [noPlace, lastKeyStep, htag.1, hothers]

/-- What a round of `parse_keys` does to the empty list. -/
theorem parsePacket_nil (p : Packet) :
    (p.tag = tagPublickey ∧ parsePacket past [] p = some [⟨p, false, [], [], []⟩]) ∨
    (noPlace none p = true ∧ parsePacket past [] p = none) ∨
    ((p.tag ≠ tagSignature ∧ p.tag ∉ partTags) ∧ parsePacket past [] p = some []) := by
  unfold parsePacket
  split
  · rename_i htag
    exact .inr (.inl ⟨by simp [noPlace, htag], rfl⟩)
  · rename_i htag
    exact .inl ⟨htag, rfl⟩
  · rename_i htag
    exact .inr (.inl ⟨by simp [noPlace, htag], rfl⟩)
  · rename_i htag
    exact .inr (.inl ⟨by simp [noPlace, htag], rfl⟩)
  · rename_i htag
    exact .inr (.inl ⟨by simp [noPlace, htag], rfl⟩)
  · rename_i h1 h2 h3 h4 h5
    exact .inr (.inr ⟨⟨h1, by simpa [partTags] using ⟨h2, h3, h4, h5⟩⟩, rfl⟩)

/-- The keys that `parse_keys` makes of a packet list, with their direct signatures. -/
theorem parseKeys_direct (packets : List Packet) :
    (parseKeys past packets []).keys.map PublicKey.direct = keysIn packets := by
  unfold parseKeys keysIn
  generalize 0 = count
  induction packets generalizing count with
  | nil => rfl
  | cons p packets ih =>
    unfold parseLoop headsLoop
    rcases parsePacket_nil past p with ⟨htag, hp⟩ | ⟨hno, hp⟩ | ⟨htag, hp⟩
    · have hdirect := parseLoop_direct_eq past packets (count + 1) [] ⟨p, false, [], [], []⟩
      rw [List.nil_append] at hdirect
      rw [hp]
      simp only [if_pos htag]
      rw [hdirect]
      simp [noPlace, lastKeyStep, htag, moreSigs]
    · rw [hp, if_pos hno]
      rfl
    · have hothers := htag.2
      simp only [partTags, List.mem_cons, List.not_mem_nil, or_false, not_or] at hothers
      rw [hp]
      simp only
      rw [ih]
      simp [noPlace, lastKeyStep, htag.1, hothers]

/-! ## The flag of a parsed key -/

/-- A signature that is put on a key accounts for a flag that goes up. -/
theorem RevokedBy.addSignature {k : PublicKey} (h : RevokedBy past k.sigs k.revoked) (p : Packet)
    (keys : List PublicKey) :
    RevokedBy past (addSignature (past keys) k p).sigs (addSignature (past keys) k p).revoked := by
  unfold Onak.addSignature
  split_ifs
  · exact h
  · exact h
  · refine ⟨fun hr => ?_, fun s hs hall => ?_⟩
    · rcases Bool.or_eq_true_iff.mp hr with hr | hr
      · obtain ⟨s, hs, hrev⟩ := h.some hr
        exact ⟨s, List.mem_append_left _ hs, hrev⟩
      · exact ⟨p, by simp, keys, hr⟩
    · rcases List.mem_append.mp hs with hs | hs
      · simp [h.all s hs hall]
      · rw [List.mem_singleton.mp hs] at hall
        simp [hall keys]

/-- The flags of the keys are accounted for by their direct signatures. -/
def FlagsBy (keys : List PublicKey) : Prop := ∀ k ∈ keys, RevokedBy past k.sigs k.revoked

theorem FlagsBy.parsePacket {keys keys' : List PublicKey} {p : Packet} (h : FlagsBy past keys)
    (hp : parsePacket past keys p = some keys') : FlagsBy past keys' := by
  have hnew : RevokedBy past [] false := ⟨by simp, by simp⟩
  rcases keys.eq_nil_or_concat with rfl | ⟨init, k, rfl⟩
  · rcases parsePacket_nil past p with ⟨-, hp'⟩ | ⟨-, hp'⟩ | ⟨-, hp'⟩
    · obtain rfl := Option.some.inj (hp'.symm.trans hp)
      intro k hk
      rw [List.mem_singleton.mp hk]
      exact hnew
    · exact absurd (hp'.symm.trans hp) (by simp)
    · obtain rfl := Option.some.inj (hp'.symm.trans hp)
      exact h
  · rw [List.concat_eq_append] at h hp
    obtain ⟨hinit, hall⟩ := List.forall_mem_append.mp h
    have hk : RevokedBy past k.sigs k.revoked := hall k (List.mem_singleton_self k)
    -- the keys before the last one stay, and the last one is as it was or got a signature
    have hlast : ∀ k', RevokedBy past k'.sigs k'.revoked → FlagsBy past (init ++ [k']) := by
      intro k' hk'
      refine List.forall_mem_append.mpr ⟨hinit, fun x hx => ?_⟩
      rw [List.mem_singleton.mp hx]
      exact hk'
    rcases parsePacket_concat past init k p with ⟨-, hp'⟩ | ⟨-, hp'⟩ | ⟨-, -, hp'⟩ | ⟨-, -, hp'⟩ |
      ⟨-, hp'⟩ | ⟨-, hp'⟩
    · obtain rfl := Option.some.inj (hp'.symm.trans hp)
      exact hlast _ (hk.addSignature past p _)
    · obtain rfl := Option.some.inj (hp'.symm.trans hp)
      refine List.forall_mem_append.mpr ⟨h, fun x hx => ?_⟩
      rw [List.mem_singleton.mp hx]
      exact hnew
    · exact absurd (hp'.symm.trans hp) (by simp)
    · obtain rfl := Option.some.inj (hp'.symm.trans hp)
      exact hlast _ hk
    · obtain rfl := Option.some.inj (hp'.symm.trans hp)
      exact hlast _ hk
    · obtain rfl := Option.some.inj (hp'.symm.trans hp)
      exact h

theorem FlagsBy.parseLoop {keys : List PublicKey} (h : FlagsBy past keys) (packets : List Packet)
    (count : Nat) : FlagsBy past (parseLoop past count keys packets).keys := by
  induction packets generalizing keys count with
  | nil => exact h
  | cons p packets ih =>
    unfold Onak.parseLoop
    cases hp : Onak.parsePacket past keys p with
    | none => exact h
    | some keys' => exact ih (h.parsePacket past hp) _

end

/-- The flag of each key is up if and only if one of its direct signatures is a revocation. -/
def FlagsShow (keys : List PublicKey) : Prop :=
  ∀ k ∈ keys, (k.revoked = true ↔ ∃ s ∈ k.sigs, isRev s = true)

/-- Direct signatures on which both tests agree, whatever lies in memory behind them: there is a
revocation of version 3 or 4, or there is none of version 5 and no signature that is cut short. -/
def Agreed (sigs : List Packet) : Prop :=
  (∃ s ∈ sigs, s.isKeyRevocation = true) ∨ ∀ s ∈ sigs, s.isKeyRevocation5 = false ∧ ¬ s.Cut

theorem isKeyRevocation_of_zeros {s : Packet} (h : revokesKey (fun _ => 0) s = true) :
    s.isKeyRevocation = true := by
  simp only [revokesKey, Packet.octetAt] at h
  simp only [Packet.isKeyRevocation, decide_eq_true_eq]
  rcases hp : s.data with _ | ⟨x, _ | ⟨y, _ | ⟨z, l⟩⟩⟩ <;> simp [hp] at h ⊢ <;> tauto

theorem Agreed.revoked_iff {past : List PublicKey → Nat → UInt8} {sigs : List Packet} {r : Bool}
    (h : Agreed sigs) (hr : RevokedBy past sigs r) : r = true ↔ ∃ s ∈ sigs, isRev s = true := by
  have hany : sigs.any Packet.isKeyRevocation = true ∨ ∀ s ∈ sigs, ¬ s.Cut :=
    h.imp List.any_eq_true.mpr fun hall s hs => (hall s hs).2
  rw [hr.eq_of_not_cut rfl hany, List.any_eq_true]
  constructor
  · rintro ⟨s, hs, hrev⟩
    exact ⟨s, hs, by simp [isRev_eq, hrev]⟩
  · rintro ⟨s, hs, hrev⟩
    rcases h with h | hall
    · exact h
    · refine ⟨s, hs, ?_⟩
      rw [isRev_eq, (hall s hs).1, Bool.or_false] at hrev
      exact hrev

/-- The flags of the parsed keys are right, whatever lies in memory, if and only if the two tests agree
on the direct signatures of each key. -/
theorem flagsShow_parseKeys_iff (packets : List Packet) :
    (∀ past, FlagsShow (parseKeys past packets []).keys) ↔
      ∀ key ∈ keysIn packets, Agreed key.2 := by
  have hby : ∀ past, FlagsBy past (parseKeys past packets []).keys := by
    intro past
    exact FlagsBy.parseLoop past (by simp [FlagsBy]) packets 0
  constructor
  · intro hall key hkey
    -- the same key, parsed with any memory
    have hparsed : ∀ past, ∃ k ∈ (parseKeys past packets []).keys, k.sigs = key.2 := by
      intro past
      rw [← parseKeys_direct past] at hkey
      obtain ⟨k, hk, rfl⟩ := List.mem_map.mp hkey
      exact ⟨k, hk, rfl⟩
    by_cases hrev : ∃ s ∈ key.2, s.isKeyRevocation = true
    · exact .inl hrev
    · refine .inr fun s hs => ?_
      have hnot : ∀ s ∈ key.2, isRev s = false := by
        obtain ⟨k, hk, hsigs⟩ := hparsed fun _ _ => 0
        have hdown : ¬ k.revoked = true := by
          intro hup
          obtain ⟨s, hs, _, hrevokes⟩ := (hby _ k hk).some hup
          exact hrev ⟨s, hsigs ▸ hs, isKeyRevocation_of_zeros hrevokes⟩
        intro s hs
        rw [Bool.eq_false_iff]
        intro hs'
        exact hdown ((hall _ k hk).mpr ⟨s, hsigs ▸ hs, hs'⟩)
      constructor
      · have hs' := hnot s hs
        rw [isRev_eq, Bool.or_eq_false_iff] at hs'
        exact hs'.2
      · intro hcut
        obtain ⟨k, hk, hsigs⟩ := hparsed fun _ => worstPast
        have hup := (hby _ k hk).all s (hsigs ▸ hs) fun _ => revokesKey_worstPast hcut
        obtain ⟨t, ht, hrevt⟩ := (hall _ k hk).mp hup
        exact absurd hrevt (by simp [hnot t (hsigs ▸ ht)])
  · intro hagreed past k hk
    have hkey : k.direct ∈ keysIn packets := by
      rw [← parseKeys_direct past]
      exact List.mem_map_of_mem hk
    exact (hagreed _ hkey).revoked_iff (hby past k hk)

/-! ## The flag of a cleaned key -/

/-- A call of `cleankeys`: what it finds in its variables and in the database, and its policies. -/
structure Cleaning where
  /-- What lies in the variables that are not initialised. -/
  g : Stale
  /-- The database. -/
  D : Lookups
  /-- The policies. -/
  policies : Policies

namespace Cleaning

variable (H : Hashes) (C : SigCheck) (c : Cleaning)

/-- The key list that the call leaves. -/
def clean (keys : List PublicKey) : List PublicKey := (cleankeys H c.g C c.D c.policies keys).1

/-- Whether a direct signature passes the check. -/
def Passes (key : PublicKey) (s : Packet) : Prop :=
  (sigVerdict H c.g C c.D key.publickey none c.policies.verifySignatures s).remove = false

/-- The key is not on the list afterwards: it is too old, or no user id of it stays. -/
def Drops (key : PublicKey) : Prop :=
  let packets := (cleanPackets c.g c.policies key).1
  key.isOld = true ∨ allGo H c.g C c.D c.policies packets.publickey packets.uids = true ∨
    ∀ sp ∈ packets.uids, stays H c.g C c.D c.policies packets.publickey sp = false

/-- A revoked key keeps a revocation: if signatures are checked and the key is not dropped, one of
its revocations that are the first of their signer passes. -/
def SparesRevocation (key : PublicKey) : Prop :=
  c.policies.checks = true → ¬ c.Drops H C key → key.revoked = true →
    ∃ i s, key.sigs[i]? = some s ∧ isRev s = true ∧
      (∀ x ∈ key.sigs.take i, ¬ signaturesMatchSigner c.g x s = true) ∧ c.Passes H C key s

variable {H C c}

theorem uids_eq_nil_iff {key : PublicKey} :
    (cleanKey H c.g C c.D c.policies key).1.uids = [] ↔
      allGo H c.g C c.D c.policies (cleanPackets c.g c.policies key).1.publickey
          (cleanPackets c.g c.policies key).1.uids = true ∨
        ∀ sp ∈ (cleanPackets c.g c.policies key).1.uids,
          stays H c.g C c.D c.policies (cleanPackets c.g c.policies key).1.publickey sp = false := by
  show (cleanSigs H c.g C c.D c.policies (cleanPackets c.g c.policies key).1).1.uids = [] ↔ _
  rw [cleanSigs_uids]
  split_ifs with hgo
  · simp [hgo]
  · simp [hgo]

/-- The flag and the direct signatures that are left on a key. -/
theorem cleanKey_head (key : PublicKey) :
    (cleanKey H c.g C c.D c.policies key).1.revoked = key.revoked ∧
      ∀ s, s ∈ (cleanKey H c.g C c.D c.policies key).1.sigs ↔
        s ∈ dedupeSigs c.g key.sigs ∧ (c.policies.checks = true → c.Passes H C key s) := by
  have hpackets := sameHead_cleanPackets (g := c.g) c.policies key
  have hcapped := sameHead_cappedSigs (g := c.g) c.policies (cleanPackets c.g c.policies key).1
  unfold Passes Policies.checks cleanKey cleanSigs
  simp only
  split_ifs with hchecks
  · refine ⟨hcapped.revoked.trans hpackets.revoked, fun s => ?_⟩
    simp only [cleanKeySignatures, cleanSighashes, hcapped.sigs, hcapped.publickey, hpackets.sigs,
      hpackets.publickey, List.mem_filter, hchecks, true_imp_iff, Bool.not_eq_true_eq_eq_false]
  · refine ⟨hcapped.revoked.trans hpackets.revoked, fun s => ?_⟩
    rw [hcapped.sigs, hpackets.sigs]
    exact (and_iff_left fun h => absurd h hchecks).symm

/-- **One cleaning.** Where the flags are right, they are right afterwards if and only if each revoked
key that is left keeps a revocation. -/
theorem flagsShow_clean_iff {keys : List PublicKey} (h : FlagsShow keys) :
    FlagsShow (c.clean H C keys) ↔ ∀ key ∈ keys, c.SparesRevocation H C key := by
  constructor
  · intro hafter key hkey hchecks hdrops hrev
    have hold : key.isOld = false := by
      rw [Bool.eq_false_iff]
      exact fun hold => hdrops (.inl hold)
    have huids : (cleanKey H c.g C c.D c.policies key).1.uids ≠ [] :=
      fun hnil => hdrops (.inr (uids_eq_nil_iff.mp hnil))
    obtain ⟨hflag, hsigs⟩ := cleanKey_head (H := H) (C := C) (c := c) key
    have hmem := mem_cleankeys.mpr ⟨key, hkey, hold, rfl, huids⟩
    obtain ⟨s, hs, hsrev⟩ := (hafter _ hmem).mp (hflag.trans hrev)
    obtain ⟨hdedup, hpass⟩ := (hsigs s).mp hs
    obtain ⟨i, hget, hfirst⟩ := (mem_dedupeSigs_revocation hsrev).mp hdedup
    exact ⟨i, s, hget, hsrev, hfirst, hpass hchecks⟩
  · intro hspares k hk
    obtain ⟨key, hkey, hold, rfl, huids⟩ := mem_cleankeys.mp hk
    obtain ⟨hflag, hsigs⟩ := cleanKey_head (H := H) (C := C) (c := c) key
    rw [hflag]
    constructor
    · intro hrev
      by_cases hchecks : c.policies.checks = true
      · have hdrops : ¬ c.Drops H C key := by
          rintro (hold' | hnil)
          · exact absurd hold' (by simp [hold])
          · exact huids (uids_eq_nil_iff.mpr hnil)
        obtain ⟨i, s, hget, hsrev, hfirst, hpass⟩ := hspares key hkey hchecks hdrops hrev
        have hdedup := (mem_dedupeSigs_revocation hsrev).mpr ⟨i, hget, hfirst⟩
        exact ⟨s, (hsigs s).mpr ⟨hdedup, fun _ => hpass⟩, hsrev⟩
      · -- without a check, deduplication leaves one of the revocations
        have hany : (dedupeSigs c.g key.sigs).any isRev = true := by
          rw [any_dedupeSigs isRev_of_match]
          exact List.any_eq_true.mpr ((h key hkey).mp hrev)
        obtain ⟨s, hs, hsrev⟩ := List.any_eq_true.mp hany
        exact ⟨s, (hsigs s).mpr ⟨hs, fun hc => absurd hc hchecks⟩, hsrev⟩
    · rintro ⟨s, hs, hsrev⟩
      exact (h key hkey).mpr ⟨s, Collapse.mem_of_mem_collapse ((hsigs s).mp hs).1, hsrev⟩

variable (H C)

/-- The flags are right before, between and after the cleanings. -/
def AllShow : List Cleaning → List PublicKey → Prop
  | [], keys => FlagsShow keys
  | c :: cs, keys => FlagsShow keys ∧ AllShow cs (c.clean H C keys)

/-- Each cleaning spares a revocation of each key that it finds revoked. -/
def AllSpare : List Cleaning → List PublicKey → Prop
  | [], _ => True
  | c :: cs, keys => (∀ key ∈ keys, c.SparesRevocation H C key) ∧ AllSpare cs (c.clean H C keys)

variable {H C}

theorem allShow_iff (cs : List Cleaning) (keys : List PublicKey) :
    AllShow H C cs keys ↔ FlagsShow keys ∧ AllSpare H C cs keys := by
  induction cs generalizing keys with
  | nil => exact (and_iff_left trivial).symm
  | cons c cs ih =>
    unfold AllShow AllSpare
    rw [ih]
    constructor
    · rintro ⟨hshow, hafter, hrest⟩
      exact ⟨hshow, (flagsShow_clean_iff hshow).mp hafter, hrest⟩
    · rintro ⟨hshow, hspares, hrest⟩
      exact ⟨hshow, (flagsShow_clean_iff hshow).mpr hspares, hrest⟩

end Cleaning

/-- **When the revoked flag means what the index page says.** Behind `parse_keys` and any calls of
`cleankeys`, each key has its flag set if and only if one of its direct signatures is a revocation,
exactly when each key in the packet list has among its direct signatures a revocation of version 3 or
4, or none of version 5 and none that is cut short, and on each revoked key that a cleaning checks and
does not drop a revocation that is the first of its signer passes. -/
theorem revoked_flag_iff (H : Hashes) (C : SigCheck) (packets : List Packet) (cs : List Cleaning) :
    (∀ past, Cleaning.AllShow H C cs (parseKeys past packets []).keys) ↔
      (∀ key ∈ keysIn packets, Agreed key.2) ∧
        ∀ past, Cleaning.AllSpare H C cs (parseKeys past packets []).keys := by
  rw [← flagsShow_parseKeys_iff, ← forall_and]
  apply forall_congr'
  intro past
  exact Cleaning.allShow_iff cs (parseKeys past packets []).keys

/-- A key with a revocation of version 5: with no subpackets, and a signature of one bit. -/
def revokedByVersion5 : List Packet :=
  [⟨tagPublickey, false, [4, 0, 0, 0, 1, 1, 0, 1, 1, 0, 1, 1]⟩,
    ⟨tagSignature, false, [5, 0x20, 1, 8, 0, 0, 0, 0, 0, 0, 0, 1, 1]⟩,
    ⟨tagUid, false, [65]⟩]

/-- It is parsed without the flag, though its signature is the revocation that the page would show. -/
theorem parseKeys_misses_version5 :
    ¬ ∀ (H : Hashes) (C : SigCheck) (packets : List Packet) (cs : List Cleaning)
      (past : List PublicKey → Nat → UInt8),
      Cleaning.AllShow H C cs (parseKeys past packets []).keys := by
  intro hall
  have hshow : FlagsShow (parseKeys (fun _ _ => 0) revokedByVersion5 []).keys :=
    hall sampleV4Hashes noCheck revokedByVersion5 [] fun _ _ => 0
  have hkey := hshow _ (List.mem_of_mem_head? rfl)
  exact absurd (hkey.mpr ⟨_, List.mem_of_mem_head? rfl, by decide⟩) (by decide)

end Onak
