import Onak.MergeSpec

/-!
# Proofs: comparing packets and signatures

`compare_packets` decides `Packet.Same`, and `signatures_match_signer` with the choice made by
`dedupe_sigs` is a ranked partial equivalence, so that `dedupe_sigs` is an instance of
`Onak.Lib.Collapse`.
-/

namespace Onak

/-! ## Packets -/

namespace Packet.Same

theorem refl (p : Packet) : p.Same p := ⟨rfl, rfl⟩

theorem symm {p q : Packet} (h : p.Same q) : q.Same p := ⟨h.1.symm, h.2.symm⟩

theorem trans {p q r : Packet} (h : p.Same q) (h' : q.Same r) : p.Same r :=
  ⟨h.1.trans h'.1, h.2.trans h'.2⟩

end Packet.Same

theorem memcmp_eq_zero_iff {a b : List UInt8} (h : a.length = b.length) :
    memcmp a.length a b = 0 ↔ a = b := by
  induction a generalizing b with
  | nil =>
    obtain rfl : b = [] := List.length_eq_zero_iff.mp h.symm
    simp [memcmp]
  | cons x a ih =>
    cases b with
    | nil => simp at h
    | cons y b =>
      simp only [List.length_cons, Nat.add_right_cancel_iff] at h
      simp only [List.length_cons, memcmp]
      split_ifs with h1 h2
      · have hne : x ≠ y := UInt8.ne_of_lt h1
        simp [hne]
      · have hne : x ≠ y := (UInt8.ne_of_lt h2).symm
        simp [hne]
      · have hxy : x = y := UInt8.le_antisymm (UInt8.not_lt.mp h2) (UInt8.not_lt.mp h1)
        simp [hxy, ih h]

theorem comparePackets_eq_zero_iff {a b : Packet} : comparePackets a b = 0 ↔ a.Same b := by
  unfold Packet.Same
  rcases lt_trichotomy a.tag b.tag with h | h | h
  · simp [comparePackets, h, h.ne, h.not_gt]
  · by_cases hlen : a.length = b.length
    · have hlen' : a.data.length = b.data.length := hlen
      simp only [comparePackets, h, lt_irrefl, if_false, hlen, ne_eq, not_true_eq_false, and_false,
        true_and, ← memcmp_eq_zero_iff hlen']
      simp [Packet.length, hlen']
    · have hne : a.data ≠ b.data := fun h => hlen (by rw [Packet.length, Packet.length, h])
      simp only [comparePackets, h, gt_iff_lt, lt_irrefl, if_false, hne, and_false, iff_false]
      split_ifs <;> simp_all
  · simp [comparePackets, h, h.ne']

theorem findPacket_iff {l : List Packet} {p : Packet} : findPacket l p = true ↔ OnList l p := by
  simp [findPacket, OnList, comparePackets_eq_zero_iff]

theorem OnList.congr {l : List Packet} {p q : Packet} (h : OnList l p) (hpq : p.Same q) :
    OnList l q := by
  obtain ⟨r, hr, hrp⟩ := h
  exact ⟨r, hr, hrp.trans hpq⟩

theorem OnList.mono {l l' : List Packet} {p : Packet} (h : OnList l p) (hsub : l ⊆ l') :
    OnList l' p := by
  obtain ⟨r, hr, hrp⟩ := h
  exact ⟨r, hsub hr, hrp⟩

theorem onList_of_mem {l : List Packet} {p : Packet} (h : p ∈ l) : OnList l p :=
  ⟨p, h, Packet.Same.refl p⟩

theorem OnSigned.congr {l : List SignedPacket} {p q : Packet} (h : OnSigned l p)
    (hpq : p.Same q) : OnSigned l q := by
  obtain ⟨r, hr, hrp⟩ := h
  exact ⟨r, hr, hrp.trans hpq⟩

/-! ## Signatures -/

section

variable {g : Stale}

theorem sigInfo_congr {p q : Packet} (h : p.data = q.data) : sigInfo p = sigInfo q := by
  unfold sigInfo Packet.length
  rw [h]

theorem issuer_congr {p q : Packet} (h : p.data = q.data) : issuer g p = issuer g q := by
  unfold issuer
  rw [sigInfo_congr h, h]

theorem created_congr {p q : Packet} (h : p.data = q.data) : created g p = created g q := by
  unfold created
  rw [sigInfo_congr h, h]

theorem sigSigtype_congr {p q : Packet} (h : p.data = q.data) : sigSigtype p = sigSigtype q := by
  unfold sigSigtype
  rw [h]

theorem sigTypeOctet_congr {p q : Packet} (h : p.data = q.data) :
    sigTypeOctet p = sigTypeOctet q := by
  unfold sigTypeOctet
  rw [h]

theorem sigTypeOctet_v4 {p : Packet} (h : p.data[0]? = some 4) : sigTypeOctet p = p.data[1]? := by
  unfold sigTypeOctet
  rw [h]
  rfl

/-- `parse_subpackets` behind four octets that are not there. -/
theorem parseSubpackets_wrapped {p : Packet} (h : p.length < 4) (keyid : Option UInt64)
    (creation : Option Int) :
    parseSubpackets (p.data.drop 4) (sizeSub p.length 4) keyid creation = none := by
  have hdrop : p.data.drop 4 = [] := List.drop_eq_nil_of_le (by unfold Packet.length at h; omega)
  have hsize : ¬ sizeSub p.length 4 < 4 := by
    unfold sizeSub
    split_ifs <;> omega
  rw [hdrop]
  simp [parseSubpackets, hsize, readOctets]

/-- A signature too short to hold a type has no issuer: `sig_info` would look for it outside the
packet. -/
theorem issuer_eq_zero_of_short {p : Packet} (hlen : p.data.length < 3)
    (hv : p.data[0]? = some 3 ∨ p.data[0]? = some 4 ∨ p.data[0]? = some 5) :
    issuer g p = 0 := by
  have hnone : sigInfo p (some (g.keyid p.data)) none = none := by
    have h8 : readOctets p.data 7 8 = none := by simp [readOctets]; omega
    have hparse := @parseSubpackets_wrapped p (show p.data.length < 4 by omega) (some 0) none
    rcases hv with hv | hv | hv
    · simp [sigInfo, hv, h8]
    · simp [sigInfo, hv, hparse]
    · simp [sigInfo, hv, hparse]
  simp [issuer, hnone]

/-- For versions 3 to 5 `sig_sigtype` reads the type octet. -/
theorem sigTypeOctet_eq {p : Packet} (hi : issuer g p ≠ 0)
    (hv : p.data[0]? = some 3 ∨ p.data[0]? = some 4 ∨ p.data[0]? = some 5) :
    sigTypeOctet p = some (sigSigtype p) := by
  have hlen : ¬ p.data.length < 3 := fun h => hi (issuer_eq_zero_of_short h hv)
  unfold sigTypeOctet sigSigtype
  match hp : p.data with
  | a :: b :: c :: l =>
    rw [hp] at hv
    simp only [List.getElem?_cons_zero, List.getElem?_cons_succ, Option.some.injEq] at hv ⊢
    rcases hv with rfl | rfl | rfl <;> simp
  | [] | [_] | [_, _] => simp [hp] at hlen

theorem sigSigtype_eq_unknown {p : Packet}
    (hv : ¬ (p.data[0]? = some 3 ∨ p.data[0]? = some 4 ∨ p.data[0]? = some 5)) :
    sigSigtype p = 0xFF := by
  unfold sigSigtype
  split
  · rename_i hd
    rw [hd] at hv
    simp only [List.getElem?_cons_zero, Option.some.injEq, not_or] at hv
    simp [hv]
  · rfl

/-- Between signatures of one version with an issuer, the type octet determines `sig_sigtype`. -/
theorem sigSigtype_eq_of_type {r s : Packet} (hv : r.data[0]? = s.data[0]?)
    (ht : sigTypeOctet r = sigTypeOctet s) (hr : issuer g r ≠ 0) (hs : issuer g s ≠ 0) :
    sigSigtype r = sigSigtype s := by
  by_cases hk : s.data[0]? = some 3 ∨ s.data[0]? = some 4 ∨ s.data[0]? = some 5
  · rw [sigTypeOctet_eq hr (hv ▸ hk), sigTypeOctet_eq hs hk] at ht
    exact Option.some.inj ht
  · rw [sigSigtype_eq_unknown hk, sigSigtype_eq_unknown (hv ▸ hk)]

theorem isRevocation_of_sigSigtype {s : Packet} (h : sigIsRevocation (sigSigtype s) = true)
    (hi : issuer g s ≠ 0) : IsRevocation s := by
  by_cases hk : s.data[0]? = some 3 ∨ s.data[0]? = some 4 ∨ s.data[0]? = some 5
  · unfold IsRevocation
    rw [sigTypeOctet_eq hi hk]
    simpa using h
  · rw [sigSigtype_eq_unknown hk] at h
    exact absurd h (by decide)

theorem signaturesMatchSigner_iff {a b : Packet} :
    signaturesMatchSigner g a b = true ↔ (a.tag = tagSignature ∧ b.tag = tagSignature) ∧
      a.data[0]? = b.data[0]? ∧ sigSigtype a = sigSigtype b ∧ issuer g a ≠ 0 ∧
      issuer g a = issuer g b := by
  unfold signaturesMatchSigner
  split_ifs with h1 h2 h3 h4
  · simp only [false_iff]; tauto
  · simp [h2]
  · simp [h3]
  · simp only [false_iff]
    rintro ⟨_, _, _, h5, h6⟩
    rcases h4 with h4 | h4
    · exact h5 h4
    · exact h5 (h6.trans h4)
  · simp only [decide_eq_true_eq]
    tauto

theorem innerWins_iff {outer inner : Packet} :
    innerWins g outer inner = true ↔
      sigIsRevocation (sigSigtype outer) = false ∧ created g outer < created g inner := by
  unfold innerWins
  split_ifs with h <;> simp [h]

/-- Matching signers is a partial equivalence, ranked by creation time except for revocations. -/
theorem ranked : Collapse.Ranked (signaturesMatchSigner g) (innerWins g) where
  symm := by
    intro x y h
    rw [signaturesMatchSigner_iff] at h ⊢
    obtain ⟨⟨t1, t2⟩, hv, hs, hi, he⟩ := h
    exact ⟨⟨t2, t1⟩, hv.symm, hs.symm, he ▸ hi, he.symm⟩
  trans := by
    intro x y z h h'
    rw [signaturesMatchSigner_iff] at h h' ⊢
    obtain ⟨⟨t1, _⟩, hv, hs, hi, he⟩ := h
    obtain ⟨⟨_, t2⟩, hv', hs', _, he'⟩ := h'
    exact ⟨⟨t1, t2⟩, hv.trans hv', hs.trans hs', hi, he.trans he'⟩
  asymm := by
    intro x y _ h h'
    rw [innerWins_iff] at h h'
    omega
  not_newer_trans := by
    intro x y z h _ hn hn'
    have hs := (signaturesMatchSigner_iff.mp h).2.2.1
    rw [innerWins_iff, ← hs] at hn'
    rw [innerWins_iff] at hn ⊢
    rintro ⟨hr, hlt⟩
    have h1 : ¬ created g x < created g y := fun h => hn ⟨hr, h⟩
    have h2 : ¬ created g y < created g z := fun h => hn' ⟨hr, h⟩
    omega

theorem compareSignatures_iff {a b : Packet} :
    compareSignatures g a b = true ↔ a.data[0]? = b.data[0]? ∧
      (a.data[0]? = some 4 → a.data[1]? = b.data[1]?) ∧
      created g a = created g b ∧ issuer g a = issuer g b := by
  unfold compareSignatures
  split_ifs with h1 h2
  · simp [h1]
  · simp only [false_iff]; tauto
  · simp only [decide_eq_true_eq]
    tauto

theorem compareSignatures_of_same {a b : Packet} (h : a.Same b) : compareSignatures g a b = true :=
  compareSignatures_iff.mpr
    ⟨by rw [h.2], fun _ => by rw [h.2], created_congr h.2, issuer_congr h.2⟩

theorem compareSignatures_trans {x y z : Packet} (h : compareSignatures g x y = true)
    (h' : compareSignatures g y z = true) : compareSignatures g x z = true := by
  obtain ⟨hv, ht, hc, hi⟩ := compareSignatures_iff.mp h
  obtain ⟨hv', ht', hc', hi'⟩ := compareSignatures_iff.mp h'
  exact compareSignatures_iff.mpr ⟨hv.trans hv', fun h4 => (ht h4).trans (ht' (hv ▸ h4)),
    hc.trans hc', hi.trans hi'⟩

theorem signaturesMatchSigner_congr {a a' b b' : Packet} (ha : a.Same a') (hb : b.Same b') :
    signaturesMatchSigner g a b = signaturesMatchSigner g a' b' := by
  rw [Bool.eq_iff_iff, signaturesMatchSigner_iff, signaturesMatchSigner_iff, ha.1, ha.2, hb.1, hb.2,
    sigSigtype_congr ha.2, sigSigtype_congr hb.2, issuer_congr ha.2, issuer_congr hb.2]

theorem innerWins_congr {a a' b b' : Packet} (ha : a.Same a') (hb : b.Same b') :
    innerWins g a b = innerWins g a' b' := by
  rw [Bool.eq_iff_iff, innerWins_iff, innerWins_iff, sigSigtype_congr ha.2, created_congr ha.2,
    created_congr hb.2]

theorem supersedes_of_match {r s : Packet} (hm : signaturesMatchSigner g s r = true)
    (hn : ¬ innerWins g r s = true) (ht : sigTypeOctet r = sigTypeOctet s) : Supersedes g r s := by
  obtain ⟨⟨t1, t2⟩, hv, hs, hi, he⟩ := signaturesMatchSigner_iff.mp hm
  refine ⟨t2.trans t1.symm, hv.symm, ht, he.symm, hi, fun hrev => ?_⟩
  by_contra hlt
  refine hn (innerWins_iff.mpr ⟨?_, by omega⟩)
  rw [← hs]
  by_contra hr
  exact hrev (isRevocation_of_sigSigtype (by simpa using hr) hi)

theorem Supersedes.matches {r s : Packet} (h : Supersedes g r s) (ht : s.tag = tagSignature) :
    signaturesMatchSigner g s r = true := by
  have hr : issuer g r ≠ 0 := h.keyid ▸ h.keyid_ne
  exact signaturesMatchSigner_iff.mpr ⟨⟨ht, h.tag.trans ht⟩, h.version.symm,
    (sigSigtype_eq_of_type h.version h.type hr h.keyid_ne).symm, h.keyid_ne, h.keyid.symm⟩

theorem Supersedes.trans {q r s : Packet} (h : Supersedes g q r) (h' : Supersedes g r s) :
    Supersedes g q s := by
  refine ⟨h.tag.trans h'.tag, h.version.trans h'.version, h.type.trans h'.type,
    h.keyid.trans h'.keyid, h'.keyid_ne, fun hs => ?_⟩
  have hr : ¬ IsRevocation r := by
    unfold IsRevocation at hs ⊢
    rwa [h'.type]
  exact le_trans (h'.time hs) (h.time hr)

theorem Supersedes.same_right {r s t : Packet} (h : Supersedes g r s) (hs : s.Same t) :
    Supersedes g r t := by
  refine ⟨h.tag.trans hs.1, ?_, h.type.trans (sigTypeOctet_congr hs.2),
    h.keyid.trans (issuer_congr hs.2), ?_, fun ht => ?_⟩
  · rw [← hs.2]; exact h.version
  · rw [← issuer_congr hs.2]; exact h.keyid_ne
  · rw [← created_congr hs.2]
    refine h.time fun hrev => ht ?_
    unfold IsRevocation at hrev ⊢
    rwa [← sigTypeOctet_congr hs.2]

end

end Onak
