import Onak.Upload
import Onak.Proofs.CleanKeyProofs
import Onak.Proofs.MergeAlgebraProofs
import Onak.Proofs.Db4Proofs

/-!
# Proofs: histories of uploads

What a stored key can look like after any sequence of uploads. Cleaning leaves one signature per
signer on every list of the uploaded key and keeps the caps on it. Merging it with the stored key
keeps one signature per signer on user ids and subkeys, but not on the key itself, and looks at no
cap.
-/

namespace Onak

variable {H : Hashes} {g : Stale} {C : SigCheck}

/-! ## The keys that cleaning hands on -/

theorem mem_cleanLoop {D : Lookups} {policies : Policies} {count : Nat} {keys : List PublicKey}
    {c : PublicKey} (h : c ∈ (cleanLoop H g C D policies count keys).1) :
    ∃ key ∈ keys, key.isOld = false ∧ c = (cleanKey H g C D policies key).1 := by
  induction keys generalizing count with
  | nil => exact absurd h (by simp [cleanLoop])
  | cons key keys ih =>
    simp only [cleanLoop] at h
    by_cases hold : key.isOld = true
    · rw [if_pos hold] at h
      obtain ⟨k, hk, hkc⟩ := ih h
      exact ⟨k, List.mem_cons_of_mem key hk, hkc⟩
    · rw [if_neg hold] at h
      have hrest : c ∈ (cleanLoop H g C D policies
          (count + (cleanKey H g C D policies key).2) keys).1 →
          ∃ k ∈ key :: keys, k.isOld = false ∧ c = (cleanKey H g C D policies k).1 := by
        intro h
        obtain ⟨k, hk, hkc⟩ := ih h
        exact ⟨k, List.mem_cons_of_mem key hk, hkc⟩
      simp only at h
      split_ifs at h
      · exact hrest h
      · rcases List.mem_cons.mp h with rfl | h
        · exact ⟨key, by simp, by simpa using hold, rfl⟩
        · exact hrest h

/-- The second key has the packet, the flag and the direct signatures of the first. -/
structure SameHead (k k' : PublicKey) : Prop where
  publickey : k'.publickey = k.publickey
  revoked : k'.revoked = k.revoked
  sigs : k'.sigs = k.sigs

theorem SameHead.refl (k : PublicKey) : SameHead k k := ⟨rfl, rfl, rfl⟩

theorem SameHead.trans {k k' k'' : PublicKey} (h : SameHead k k') (h' : SameHead k' k'') :
    SameHead k k'' :=
  ⟨h'.publickey.trans h.publickey, h'.revoked.trans h.revoked, h'.sigs.trans h.sigs⟩

theorem sameHead_capPacketType (key : PublicKey) (tag maxActive maxRevoked : Nat) :
    SameHead key (capPacketType key tag maxActive maxRevoked).1 := by
  unfold capPacketType
  simp only
  split_ifs
  · exact .refl key
  · exact ⟨rfl, rfl, rfl⟩

theorem sameHead_capSigsPerPacket (key : PublicKey) (tag max : Nat) :
    SameHead key (capSigsPerPacket key tag max).1 := by
  unfold capSigsPerPacket
  split_ifs
  · exact .refl key
  · exact ⟨rfl, rfl, rfl⟩

theorem sameHead_cleanPackets (policies : Policies) (key : PublicKey) :
    SameHead key (cleanPackets g policies key).1 := by
  have hcap : ∀ (capped : Bool) (k : PublicKey) (tag max : Nat),
      SameHead k (if capped then capPacketType k tag max max else (k, 0)).1 := by
    intro capped k tag max
    cases capped with
    | false => exact .refl k
    | true => exact sameHead_capPacketType _ _ _ _
  refine .trans ?_ ((hcap policies.capUids _ _ _).trans (hcap policies.capUats _ _ _))
  show SameHead key (dedupsubkeys g (dedupuids g
    (if policies.largePackets then cleanLargePackets key else (key, 0)).1).1).1
  split_ifs <;> exact ⟨rfl, rfl, rfl⟩

/-- The passes over the signatures up to their check deduplicate the direct signatures. -/
theorem sameHead_cappedSigs (policies : Policies) (key : PublicKey) :
    SameHead { key with sigs := dedupeSigs g key.sigs } (capSigsPerPacket (capSigsPerPacket
      (dedupeKeySigs g key).1 tagUid policies.maxSigsPerUid).1 tagUat policies.maxSigsPerUat).1 := by
  have hdedupe : SameHead { key with sigs := dedupeSigs g key.sigs } (dedupeKeySigs g key).1 :=
    ⟨rfl, rfl, rfl⟩
  exact hdedupe.trans ((sameHead_capSigsPerPacket _ _ _).trans (sameHead_capSigsPerPacket _ _ _))

theorem cleanKey_publickey (D : Lookups) (policies : Policies) (key : PublicKey) :
    (cleanKey H g C D policies key).1.publickey = key.publickey := by
  have hsigs : ∀ k, (cleanSigs H g C D policies k).1.publickey = k.publickey := by
    intro k
    have hcapped := (sameHead_cappedSigs (g := g) policies k).publickey
    unfold cleanSigs
    simp only
    split_ifs
    · exact hcapped
    · exact hcapped
  exact (hsigs _).trans (sameHead_cleanPackets policies key).publickey

/-- A key that is not dropped for its version and has a key id has a fingerprint. -/
theorem fingerprint_of_keyid {key : PublicKey} (hold : key.isOld = false)
    (hid : (getKeyid H key).isSome) : (fingerprint? H key.publickey).isSome := by
  unfold PublicKey.isOld at hold
  unfold getKeyid getPacketid at hid
  unfold fingerprint? getFingerprint
  cases hd : key.publickey.data with
  | nil => simp [hd] at hid
  | cons v rest =>
    rw [hd] at hold hid
    have hv : ¬ v < 4 := by simpa using hold
    have h23 : ¬ (v = 2 ∨ v = 3) := by
      rintro (rfl | rfl)
      · exact hv (by decide)
      · exact hv (by decide)
    by_cases h4 : v = 4
    · simp [h4]
    · by_cases h5 : v = 5
      · simp [h5]
      · simp [h23, h4, h5] at hid

theorem cleanKey_oneSigPerSigner (D : Lookups) (policies : Policies) (key : PublicKey) :
    OneSigPerSigner g (cleanKey H g C D policies key).1 := by
  set packets := (cleanPackets g policies key).1
  have hlist : ∀ {l l' : List SignedPacket}, Thins (dedupeListSigs g l).1 l' →
      ∀ sp ∈ l', SignersDiffer g sp.sigs := by
    intro l l' h sp hsp
    obtain ⟨x, hx, -, hsub⟩ := h.exists_of_mem hsp
    obtain ⟨y, -, rfl⟩ := List.mem_map.mp hx
    exact (Collapse.unmatched_collapse y.sigs).sublist hsub
  exact
    { sigs := (Collapse.unmatched_collapse packets.sigs).sublist
        (cleanSigs_sigs_sublist policies packets)
      uids := hlist ((thins_cappedSigs policies packets).trans
        (thins_cleanSigs_capped policies packets))
      subkeys := hlist (thins_cleanSigs_subkeys policies packets) }

theorem cleaned_fingerprint {B : Backend} {D : B.DB → Lookups} {db : B.DB} {u : Upload} {key : PublicKey}
    (h : key ∈ u.cleaned H g C D db) (hid : (getKeyid H key).isSome) :
    (fingerprint? H key.publickey).isSome := by
  obtain ⟨k, -, hold, rfl⟩ := mem_cleanLoop h
  have hpk := cleanKey_publickey (H := H) (g := g) (C := C) (D db) u.policies k
  rw [hpk]
  rw [getKeyid_congr hpk] at hid
  exact fingerprint_of_keyid hold hid

theorem cleaned_oneSigPerSigner {B : Backend} {D : B.DB → Lookups} {db : B.DB} {u : Upload} {key : PublicKey}
    (h : key ∈ u.cleaned H g C D db) : OneSigPerSigner g key := by
  obtain ⟨k, -, -, rfl⟩ := mem_cleanLoop h
  exact cleanKey_oneSigPerSigner _ _ _

/-! ## One round

What a round of `generic_update_keys` does to the stored keys. -/

section

variable {B : Backend} (L : B.Lawful H)

/-- A round changes nothing, and then brings no new direct signature; or it adds the key; or it
replaces the key that the lookup found by the merged one. -/
theorem updateKey_effect {db : B.DB} (hI : L.Inv db) {key : PublicKey}
    (hfp : (getKeyid H key).isSome → (fingerprint? H key.publickey).isSome)
    (blacklist : List Fingerprint) (updateonly : Bool) :
    let fp := fingerprintOf H key.publickey
    let db' := (updateKey H B g blacklist updateonly db key).1
    L.Inv db' ∧
      (((∀ f, L.stored db' f = L.stored db f) ∧ (fp ∉ blacklist → ∀ old,
          B.fetchKeyFp db fp = some old → SameKeyid H old key → ∀ s ∈ key.sigs, OnList old.sigs s)) ∨
        (B.fetchKeyFp db fp = none ∧ ∃ f, L.stored db f = none ∧
          ∀ f', L.stored db' f' = if f' = f then some (L.reread key) else L.stored db f') ∨
        (fp ∉ blacklist ∧ ∃ f old, B.fetchKeyFp db fp = some old ∧ L.stored db f = some old ∧
          ∀ f', L.stored db' f' =
            if f' = f then some (L.reread (mergeKeys H g old key).a) else L.stored db f')) := by
  intro fp db'
  by_cases hbl : fp ∈ blacklist
  · have hdb : db' = db := by
      show (updateKey H B g blacklist updateonly db key).1 = db
      unfold updateKey
      rw [if_pos hbl]
    rw [hdb]
    exact ⟨hI, Or.inl ⟨fun _ => rfl, fun h => absurd hbl h⟩⟩
  have hdb : db' = applyAction B db (updateAction H g updateonly (B.fetchKeyFp db fp) key) := by
    show (updateKey H B g blacklist updateonly db key).1 = _
    unfold updateKey
    rw [if_neg hbl]
  rw [hdb]
  cases hfetch : B.fetchKeyFp db fp with
  | none =>
    cases updateonly with
    | true => exact ⟨hI, Or.inl ⟨fun _ => rfl, fun _ old h => absurd h (by simp)⟩⟩
    | false =>
      cases hid : getKeyid H key with
      | none =>
        rw [apply_new_no_keyid L db hid]
        exact ⟨hI, Or.inl ⟨fun _ => rfl, fun _ old h => absurd h (by simp)⟩⟩
      | some keyid =>
        obtain ⟨f, hf⟩ := Option.isSome_iff_exists.mp (hfp (by rw [hid]; rfl))
        have hfpf : fp = f := fingerprintOf_eq hf
        have hnone := stored_none_of_fetch L hI (hfpf ▸ hfetch)
        obtain ⟨hI', hst⟩ := apply_new (g := g) L hI hf hnone (by rw [hid]; rfl)
        exact ⟨hI', Or.inr (Or.inl ⟨rfl, f, hnone, hst⟩)⟩
  | some old =>
    obtain ⟨f, hf, hstored⟩ := fetch_fp L hI hfetch
    unfold updateAction
    simp only
    split_ifs with hnew
    · refine ⟨hI, Or.inl ⟨fun _ => rfl, ?_⟩⟩
      rintro - old' hold' hk s hs
      obtain rfl := Option.some.inj hold'
      rw [mergeKeys_eq hk] at hnew
      have hfind := List.filter_eq_nil_iff.mp hnew.1 s hs
      exact findPacket_iff.mp (by simpa using hfind)
    · have hpk := mergeKeys_a_publickey (H := H) (g := g) old key
      have hid : (getKeyid H (mergeKeys H g old key).a).isSome := by
        rw [getKeyid_congr hpk]
        exact L.stored_keyid hI hstored
      obtain ⟨hI', hst⟩ := store_merged L hI key hf hstored hid
      exact ⟨hI', Or.inr (Or.inr ⟨hbl, f, old, rfl, hstored, hst⟩)⟩

/-! ## Invariants of whole histories -/

variable (P : PublicKey → Prop) (Q : PublicKey → Prop) (ok : PublicKey → PublicKey → Prop)

/-- A property of keys that can be proved along uploads: it does not depend on the `revoked` flag,
uploaded keys have it, and merging keeps it where `ok` holds. -/
structure KeptByMerging (H : Hashes) (g : Stale) : Prop where
  revoked : ∀ {k : PublicKey} (r : Bool), P k → P { k with revoked := r }
  new : ∀ {k : PublicKey}, Q k → P k
  merge : ∀ {old key : PublicKey}, P old → Q key → SameKeyid H old key → ok old key →
    P (mergeKeys H g old key).a

variable {P Q ok} (hP : KeptByMerging P Q ok H g)
include hP

theorem KeptByMerging.merged {old key : PublicKey} (hold : P old) (hkey : Q key)
    (hok : SameKeyid H old key → ok old key) : P (mergeKeys H g old key).a := by
  by_cases hk : SameKeyid H old key
  · exact hP.merge hold hkey hk (hok hk)
  · obtain ⟨r, hr⟩ := (mergeKeys_refused (g := g) hk).1
    rw [hr]
    exact hP.revoked r hold

theorem KeptByMerging.reread {k : PublicKey} (h : P k) : P (L.reread k) := by
  rw [L.reread_packets]
  exact hP.revoked _ h

theorem KeptByMerging.updateKey {db : B.DB} (hI : L.Inv db) (hstored : AllStored H L P db)
    {key : PublicKey} (hfp : (getKeyid H key).isSome → (fingerprint? H key.publickey).isSome)
    {blacklist : List Fingerprint} (hkey : fingerprintOf H key.publickey ∉ blacklist → Q key)
    (updateonly : Bool)
    (hok : fingerprintOf H key.publickey ∉ blacklist → ∀ old,
      B.fetchKeyFp db (fingerprintOf H key.publickey) = some old → SameKeyid H old key → ok old key) :
    L.Inv (updateKey H B g blacklist updateonly db key).1 ∧
      AllStored H L P (updateKey H B g blacklist updateonly db key).1 := by
  by_cases hbl : fingerprintOf H key.publickey ∈ blacklist
  · have hdb : (Onak.updateKey H B g blacklist updateonly db key).1 = db := by
      unfold Onak.updateKey
      rw [if_pos hbl]
    rw [hdb]
    exact ⟨hI, hstored⟩
  replace hkey := hkey hbl
  obtain ⟨hI', heff⟩ := updateKey_effect (g := g) L hI hfp blacklist updateonly
  refine ⟨hI', fun f k hk => ?_⟩
  rcases heff with ⟨hsame, -⟩ | ⟨-, f₀, -, hst⟩ | ⟨-, f₀, old, hfetch, hold, hst⟩
  · rw [hsame] at hk
    exact hstored f k hk
  · rw [hst] at hk
    split_ifs at hk
    · obtain rfl := Option.some.inj hk
      exact hP.reread L (hP.new hkey)
    · exact hstored f k hk
  · rw [hst] at hk
    split_ifs at hk
    · obtain rfl := Option.some.inj hk
      exact hP.reread L (hP.merged (hstored _ old hold) hkey (hok hbl old hfetch))
    · exact hstored f k hk

theorem KeptByMerging.updateLoop {keys : List PublicKey} {db : B.DB} (hI : L.Inv db)
    (hdb : AllStored H L P db)
    (hfp : ∀ key ∈ keys, (getKeyid H key).isSome → (fingerprint? H key.publickey).isSome)
    {blacklist : List Fingerprint} {updateonly : Bool}
    (hkeys : ∀ key ∈ keys, fingerprintOf H key.publickey ∉ blacklist → Q key)
    (hok : RoundsMeet H g (fun old key => SameKeyid H old key → ok old key) blacklist updateonly db
      keys) :
    L.Inv (updateLoop H B g blacklist updateonly db keys).1 ∧
      AllStored H L P (updateLoop H B g blacklist updateonly db keys).1 := by
  induction keys generalizing db with
  | nil => exact ⟨hI, hdb⟩
  | cons key keys ih =>
    obtain ⟨hI', hdb'⟩ := hP.updateKey L hI hdb (hfp key (by simp)) (hkeys key (by simp))
      updateonly hok.1
    exact ih hI' hdb' (fun k hk => hfp k (List.mem_cons_of_mem key hk))
      (fun k hk => hkeys k (List.mem_cons_of_mem key hk)) hok.2

theorem KeptByMerging.uploads {D : B.DB → Lookups} {us : List Upload} {db : B.DB} (hI : L.Inv db)
    (hdb : AllStored H L P db) {meets : B.DB → Upload → Prop}
    (hQ : ∀ u ∈ us, ∀ db, meets db u → ∀ key ∈ u.cleaned H g C D db,
      fingerprintOf H key.publickey ∉ u.blacklist → Q key)
    (hok : ∀ u db, meets db u → RoundsMeet H g
      (fun old key => SameKeyid H old key → ok old key) u.blacklist u.updateonly db
      (u.cleaned H g C D db))
    (hmeets : UploadsMeet H g C D meets db us) :
    L.Inv (uploads H g C D db us) ∧ AllStored H L P (uploads H g C D db us) := by
  induction us generalizing db with
  | nil => exact ⟨hI, hdb⟩
  | cons u us ih =>
    obtain ⟨hI', hdb'⟩ := hP.updateLoop L hI hdb (fun _ hk => cleaned_fingerprint hk)
      (hQ u (by simp) db hmeets.1) (hok u db hmeets.1)
    exact ih hI' hdb' (fun u' hu' => hQ u' (List.mem_cons_of_mem u hu')) hmeets.2

omit hP in
theorem Backend.Lawful.allStored_empty {db : B.DB} (h : L.Empty db) (P : PublicKey → Prop) :
    AllStored H L P db := by
  intro f k hk
  rw [h.2] at hk
  exact absurd hk (by simp)

end

/-! ## One signature per signer -/

theorem mem_replaceSignedPacket {l : List SignedPacket} {elem sp : SignedPacket}
    (h : sp ∈ replaceSignedPacket l elem) : sp = elem ∨ sp ∈ l := by
  induction l with
  | nil => exact absurd h (by simp [replaceSignedPacket])
  | cons x l ih =>
    simp only [replaceSignedPacket] at h
    split_ifs at h
    · rcases List.mem_cons.mp h with rfl | h
      · exact Or.inl rfl
      · exact Or.inr (List.mem_cons_of_mem x h)
    · rcases List.mem_cons.mp h with rfl | h
      · exact Or.inr (by simp)
      · exact (ih h).imp_right (List.mem_cons_of_mem x)

theorem mem_addMissing {old new : List SignedPacket} {sp : SignedPacket}
    (h : sp ∈ addMissing old new) : sp ∈ old ∨ sp ∈ new := by
  induction new generalizing old with
  | nil => exact Or.inl h
  | cons cur new ih =>
    simp only [addMissing] at h
    split_ifs at h
    · rcases ih h with h | h
      · rcases List.mem_append.mp h with h | h
        · exact Or.inl h
        · exact Or.inr (by simpa using Or.inl (List.mem_singleton.mp h))
      · exact Or.inr (List.mem_cons_of_mem cur h)
    · exact (ih h).imp_right (List.mem_cons_of_mem cur)

/-- The first loop of a merge leaves one signature per signer in both lists. -/
theorem signersDiffer_mergeCommon {old new : List SignedPacket}
    (ho : ∀ sp ∈ old, SignersDiffer g sp.sigs) (hn : ∀ sp ∈ new, SignersDiffer g sp.sigs) :
    (∀ sp ∈ (mergeCommon g old new).1, SignersDiffer g sp.sigs) ∧
      ∀ sp ∈ (mergeCommon g old new).2, SignersDiffer g sp.sigs := by
  induction old generalizing new with
  | nil => exact ⟨fun _ h => absurd h (by simp [mergeCommon]), hn⟩
  | cons cur old ih =>
    have ho' : ∀ sp ∈ old, SignersDiffer g sp.sigs :=
      fun sp hsp => ho sp (List.mem_cons_of_mem cur hsp)
    simp only [mergeCommon]
    cases hfind : findSignedPacket new cur.packet with
    | none =>
      obtain ⟨h1, h2⟩ := ih ho' hn
      refine ⟨fun sp hsp => ?_, h2⟩
      rcases List.mem_cons.mp hsp with rfl | hsp
      · exact ho _ (by simp)
      · exact h1 sp hsp
    | some newelem =>
      have hnew := hn newelem (findSignedPacket_some hfind).1
      set merged := (mergePacketSigs g cur newelem).1 with hmerged
      set diff := (mergePacketSigs g cur newelem).2 with hdiff
      have hmg : SignersDiffer g merged.sigs := Collapse.unmatched_collapse _
      have hdf : SignersDiffer g diff.sigs := hnew.sublist List.filter_sublist
      have hn' : ∀ sp ∈ (if diff.sigs = [] then removeSignedPacket new newelem.packet
          else replaceSignedPacket new diff), SignersDiffer g sp.sigs := by
        intro sp hsp
        split_ifs at hsp
        · exact hn sp (List.eraseP_subset hsp)
        · rcases mem_replaceSignedPacket hsp with rfl | hsp
          · exact hdf
          · exact hn sp hsp
      obtain ⟨h1, h2⟩ := ih ho' hn'
      refine ⟨fun sp hsp => ?_, h2⟩
      rcases List.mem_cons.mp hsp with rfl | hsp
      · exact hmg
      · exact h1 sp hsp

theorem signersDiffer_mergeSigned {old new : List SignedPacket}
    (ho : ∀ sp ∈ old, SignersDiffer g sp.sigs) (hn : ∀ sp ∈ new, SignersDiffer g sp.sigs) :
    ∀ sp ∈ (mergeSignedPackets g old new).1, SignersDiffer g sp.sigs := by
  obtain ⟨h1, h2⟩ := signersDiffer_mergeCommon ho hn
  intro sp hsp
  rcases mem_addMissing hsp with hsp | hsp
  · exact h1 sp hsp
  · exact h2 sp hsp

/-- Merging direct signatures keeps one per signer exactly when the new ones are of new signers. -/
theorem signersDiffer_direct_iff {old key : PublicKey} (ho : SignersDiffer g old.sigs)
    (hk : SignersDiffer g key.sigs) :
    SignersDiffer g (old.sigs ++ key.sigs.filter fun s => !findPacket old.sigs s) ↔
      NewDirectSigners g old key := by
  have hnew : ∀ s, s ∈ key.sigs.filter (fun s => !findPacket old.sigs s) ↔
      s ∈ key.sigs ∧ ¬ OnList old.sigs s := by
    intro s
    rw [List.mem_filter, Bool.not_eq_true', ← Bool.not_eq_true, findPacket_iff]
  constructor
  · intro h s hs hon s' hs'
    exact (List.pairwise_append.mp h).2.2 s' hs' s ((hnew s).mpr ⟨hs, hon⟩)
  · intro h
    refine List.pairwise_append.mpr ⟨ho, hk.sublist List.filter_sublist, fun s' hs' s hs => ?_⟩
    obtain ⟨hs, hon⟩ := (hnew s).mp hs
    exact h s hs hon s' hs'

theorem oneSigPerSigner_kept :
    KeptByMerging (OneSigPerSigner g) (OneSigPerSigner g) (NewDirectSigners g) H g where
  revoked := fun _ h => ⟨h.sigs, h.uids, h.subkeys⟩
  new := id
  merge := by
    intro old key ho hk hid hok
    rw [mergeKeys_eq hid]
    exact
      { sigs := (signersDiffer_direct_iff ho.sigs hk.sigs).mpr hok
        uids := signersDiffer_mergeSigned ho.uids hk.uids
        subkeys := signersDiffer_mergeSigned ho.subkeys hk.subkeys }

section

variable {B : Backend} (L : B.Lawful H)

/-- Some stored key has two direct signatures of one signer. -/
def DirectClash (g : Stale) (db : B.DB) : Prop :=
  ∃ f k, L.stored db f = some k ∧ ¬ SignersDiffer g k.sigs

theorem DirectClash.not_allStored {db : B.DB} (h : DirectClash L g db) :
    ¬ AllStored H L (OneSigPerSigner g) db := by
  obtain ⟨f, k, hk, hclash⟩ := h
  exact fun hall => hclash (hall f k hk).sigs

theorem mergeKeys_sigs_sublist (old key : PublicKey) :
    old.sigs.Sublist (mergeKeys H g old key).a.sigs := by
  by_cases hk : SameKeyid H old key
  · rw [mergeKeys_eq hk]
    exact List.sublist_append_left _ _
  · obtain ⟨r, hr⟩ := (mergeKeys_refused (g := g) hk).1
    rw [hr]

theorem reread_sigs (k : PublicKey) : (L.reread k).sigs = k.sigs := by
  rw [L.reread_packets]

variable {db : B.DB} (hI : L.Inv db) (blacklist : List Fingerprint) (updateonly : Bool)
include hI

/-- Direct signatures are never removed, so a clash stays. -/
theorem DirectClash.updateKey (h : DirectClash L g db) {key : PublicKey}
    (hfp : (getKeyid H key).isSome → (fingerprint? H key.publickey).isSome) :
    DirectClash L g (updateKey H B g blacklist updateonly db key).1 := by
  obtain ⟨f, k, hk, hclash⟩ := h
  rcases (updateKey_effect (g := g) L hI hfp blacklist updateonly).2 with
    ⟨hsame, -⟩ | ⟨-, f₀, hnone, hst⟩ | ⟨-, f₀, old, -, hold, hst⟩
  · exact ⟨f, k, by rw [hsame]; exact hk, hclash⟩
  · have hne : f ≠ f₀ := by
      rintro rfl
      rw [hnone] at hk
      exact absurd hk (by simp)
    exact ⟨f, k, by rw [hst, if_neg hne]; exact hk, hclash⟩
  · by_cases hf : f = f₀
    · subst hf
      obtain rfl := Option.some.inj (hold.symm.trans hk)
      refine ⟨f, _, by rw [hst, if_pos rfl], fun hd => hclash ?_⟩
      rw [reread_sigs] at hd
      exact hd.sublist (mergeKeys_sigs_sublist old key)
    · exact ⟨f, k, by rw [hst, if_neg hf]; exact hk, hclash⟩

theorem updateLoop_inv {keys : List PublicKey}
    (hfp : ∀ key ∈ keys, (getKeyid H key).isSome → (fingerprint? H key.publickey).isSome) :
    L.Inv (updateLoop H B g blacklist updateonly db keys).1 := by
  induction keys generalizing db with
  | nil => exact hI
  | cons key keys ih =>
    have hI' := (updateKey_effect (g := g) L hI (hfp key (by simp)) blacklist updateonly).1
    exact ih hI' fun k hk => hfp k (List.mem_cons_of_mem key hk)

theorem DirectClash.updateLoop {keys : List PublicKey} (h : DirectClash L g db)
    (hfp : ∀ key ∈ keys, (getKeyid H key).isSome → (fingerprint? H key.publickey).isSome) :
    DirectClash L g (updateLoop H B g blacklist updateonly db keys).1 := by
  induction keys generalizing db with
  | nil => exact h
  | cons key keys ih =>
    have hI' := (updateKey_effect (g := g) L hI (hfp key (by simp)) blacklist updateonly).1
    exact ih hI' (h.updateKey L hI blacklist updateonly (hfp key (by simp)))
      fun k hk => hfp k (List.mem_cons_of_mem key hk)

/-- A round that brings a direct signature of a known signer leaves a clash. -/
theorem directClash_of_round (hdb : AllStored H L (OneSigPerSigner g) db) {key old : PublicKey}
    (hfp : (getKeyid H key).isSome → (fingerprint? H key.publickey).isSome)
    (hkey : OneSigPerSigner g key) (hbl : fingerprintOf H key.publickey ∉ blacklist)
    (hfetch : B.fetchKeyFp db (fingerprintOf H key.publickey) = some old)
    (hk : SameKeyid H old key) (hno : ¬ NewDirectSigners g old key) :
    DirectClash L g (updateKey H B g blacklist updateonly db key).1 := by
  rcases (updateKey_effect (g := g) L hI hfp blacklist updateonly).2 with
    ⟨-, hon⟩ | ⟨hnone, -⟩ | ⟨-, f, old', hfetch', hold, hst⟩
  · exact absurd (fun s hs hnot => absurd (hon hbl old hfetch hk s hs) hnot) hno
  · exact absurd (hnone.symm.trans hfetch) (by simp)
  · obtain rfl := Option.some.inj (hfetch'.symm.trans hfetch)
    refine ⟨f, _, by rw [hst, if_pos rfl], fun hd => hno ?_⟩
    rw [reread_sigs, mergeKeys_eq hk] at hd
    exact (signersDiffer_direct_iff (hdb f old' hold).sigs hkey.sigs).mp hd

/-- Each round brings direct signatures of new signers only, or there is a clash in the end. -/
theorem updateLoop_meets_or_clashes {keys : List PublicKey}
    (hdb : AllStored H L (OneSigPerSigner g) db)
    (hfp : ∀ key ∈ keys, (getKeyid H key).isSome → (fingerprint? H key.publickey).isSome)
    (hkeys : ∀ key ∈ keys, OneSigPerSigner g key) :
    RoundsMeet H g (fun old key => SameKeyid H old key → NewDirectSigners g old key) blacklist
        updateonly db keys ∨
      DirectClash L g (updateLoop H B g blacklist updateonly db keys).1 := by
  induction keys generalizing db with
  | nil => exact Or.inl trivial
  | cons key keys ih =>
    have hfp₀ := hfp key (by simp)
    have hfp' := fun k hk => hfp k (List.mem_cons_of_mem key hk)
    have hI' := (updateKey_effect (g := g) L hI hfp₀ blacklist updateonly).1
    by_cases hround : fingerprintOf H key.publickey ∉ blacklist → ∀ old,
        B.fetchKeyFp db (fingerprintOf H key.publickey) = some old →
        SameKeyid H old key → NewDirectSigners g old key
    · have hdb' := (oneSigPerSigner_kept.updateKey L hI hdb hfp₀ (fun _ => hkeys key (by simp)) updateonly
        hround).2
      rcases ih hI' hdb' hfp' fun k hk => hkeys k (List.mem_cons_of_mem key hk) with h | h
      · exact Or.inl ⟨hround, h⟩
      · exact Or.inr h
    · push Not at hround
      obtain ⟨hbl, old, hfetch, hk, hno⟩ := hround
      have hclash := directClash_of_round L hI blacklist updateonly hdb hfp₀ (hkeys key (by simp)) hbl hfetch
        hk hno
      exact Or.inr (hclash.updateLoop L hI' blacklist updateonly hfp')

/-- Some stored key keeps its clash, whatever is uploaded. -/
theorem DirectClash.uploads {D : B.DB → Lookups} {us : List Upload} (h : DirectClash L g db) :
    DirectClash L g (uploads H g C D db us) := by
  induction us generalizing db with
  | nil => exact h
  | cons u us ih =>
    have hfp : ∀ key ∈ u.cleaned H g C D db, _ := fun _ hk => cleaned_fingerprint hk
    exact ih (updateLoop_inv L hI u.blacklist u.updateonly hfp) (h.updateLoop L hI u.blacklist u.updateonly hfp)

theorem uploads_meet_or_clash {D : B.DB → Lookups} {us : List Upload}
    (hdb : AllStored H L (OneSigPerSigner g) db) :
    UploadsMeet H g C D (DirectSignersNew H g C D) db us ∨
      DirectClash L g (uploads H g C D db us) := by
  induction us generalizing db with
  | nil => exact Or.inl trivial
  | cons u us ih =>
    have hfp : ∀ key ∈ u.cleaned H g C D db, _ := fun _ hk => cleaned_fingerprint hk
    have hsigs : ∀ key ∈ u.cleaned H g C D db, OneSigPerSigner g key :=
      fun _ hk => cleaned_oneSigPerSigner hk
    have hI' := updateLoop_inv (g := g) L hI u.blacklist u.updateonly hfp
    rcases updateLoop_meets_or_clashes L hI u.blacklist u.updateonly hdb hfp hsigs with h | h
    · have hdb' := (oneSigPerSigner_kept.updateLoop L hI hdb hfp (fun k hk _ => hsigs k hk) h).2
      rcases ih hI' hdb' with h' | h'
      · exact Or.inl ⟨h, h'⟩
      · exact Or.inr h'
    · exact Or.inr (h.uploads L hI')

omit hI in
/-- **One signature per signer.** After a sequence of uploads to an empty database, no signature list
of a stored key has two signatures of one signer, if and only if every upload of a stored key
brought direct signatures of new signers only. -/
theorem uploads_oneSigPerSigner_iff (D : B.DB → Lookups) (hempty : L.Empty db) (us : List Upload) :
    AllStored H L (OneSigPerSigner g) (uploads H g C D db us) ↔
      UploadsMeet H g C D (DirectSignersNew H g C D) db us := by
  constructor
  · intro h
    rcases uploads_meet_or_clash L hempty.1 (L.allStored_empty hempty _) with h' | h'
    · exact h'
    · exact absurd h (h'.not_allStored L)
  · intro h
    exact (oneSigPerSigner_kept.uploads L hempty.1 (L.allStored_empty hempty _)
      (fun _ _ _ _ _ hkey _ => cleaned_oneSigPerSigner hkey) (fun _ _ h => h) h).2

end

/-! ## Sample uploads

Small v4 RSA keys; v3 keys do not get through the cleaning. -/

/-- The packet of a v4 RSA key with an 8 bit modulus and exponent 17. -/
def sampleV4Packet (tag : Nat) (time modulus : UInt8) : Packet :=
  ⟨tag, false, [4, 0, 0, 0, time, 1, 0, 8, modulus, 0, 5, 0x11]⟩

/-- SHA-1 on the octets hashed for the sample keys. -/
def sampleSha1 (l : List UInt8) : List UInt8 :=
  if l = sha1Preimage (sampleV4Packet tagPublickey 1 0xC1) then
    [0xF5, 0xF9, 0xAD, 0xE7, 0x74, 0xBC, 0x41, 0x4D, 0x6F, 0x8A, 0xD1, 0xA0, 0x7C, 0x35, 0xF1, 0xB2,
      0x64, 0xFA, 0x76, 0x43]
  else if l = sha1Preimage (sampleV4Packet tagPublickey 2 0xC5) then
    [0x50, 0x10, 0xA3, 0xB7, 0xC5, 0x29, 0xBD, 0x12, 0xD6, 0x61, 0x4A, 0x57, 0xC5, 0xDA, 0xD5, 0x50,
      0xA6, 0x60, 0x5F, 0x33]
  else if l = sha1Preimage (sampleV4Packet tagPublickey 3 0xC7) then
    [0x07, 0xD7, 0x98, 0xBA, 0xAD, 0x4E, 0x4E, 0x82, 0x54, 0x2E, 0xE6, 0x37, 0xE7, 0xCC, 0xE3, 0xC8,
      0xB3, 0xF1, 0x8A, 0xC2]
  else []

/-- The digests as far as the v4 sample keys need them. -/
def sampleV4Hashes : Hashes := ⟨fun _ => [], sampleSha1, fun _ => []⟩

/-- The first v4 sample key with the given direct signatures and user ids. -/
def sampleV4Key (sigs : List Packet) (uids : List SignedPacket) : PublicKey :=
  ⟨sampleV4Packet tagPublickey 1 0xC1, false, sigs, uids, []⟩

/-- A check that is never made. -/
def noCheck : SigCheck := ⟨fun _ _ _ => ⟨.ok, 0, [], []⟩, fun _ _ _ => .badSignature⟩

/-- Lookups that find nothing. -/
def noLookups : Db4 → Lookups := fun _ => ⟨fun _ => [], fun _ => false⟩

/-- An upload of one key, with caps of one signature on a packet. -/
def sampleUploadOf (key : PublicKey) : Upload :=
  ⟨[key], ⟨false, false, false, false, true, true, 1, 1⟩, [], false, false⟩

theorem emptyDb4_empty {H : Hashes} : (db4Lawful H).Empty emptyDb4 :=
  ⟨emptyDb4_consistent, fun _ => rfl⟩

/-- A second upload with a direct signature of another signer. -/
theorem uploads_oneSigPerSigner_sample :
    AllStored sampleV4Hashes (db4Lawful sampleV4Hashes) (OneSigPerSigner zeroStale)
      (uploads sampleV4Hashes zeroStale noCheck noLookups emptyDb4
        [sampleUploadOf (sampleV4Key [sampleSig 4 0x1F 1] [⟨sampleUid 65, []⟩]),
          sampleUploadOf (sampleV4Key [sampleSig 4 0x20 2] [⟨sampleUid 65, []⟩])]) := by
  refine (uploads_oneSigPerSigner_iff (db4Lawful sampleV4Hashes) noLookups emptyDb4_empty _).mpr
    ⟨⟨fun _ old hfetch => ?_, trivial⟩, ⟨fun _ old hfetch _ => ?_, trivial⟩, trivial⟩
  · exact absurd hfetch (by simp [db4, db4FetchKeyFp, emptyDb4])
  · have hold : old = sampleV4Key [sampleSig 4 0x1F 1] [⟨sampleUid 65, []⟩] := by
      refine Option.some.inj (hfetch.symm.trans ?_)
      decide
    subst hold
    decide

/-- A second upload with a later direct signature of the same signer. -/
theorem uploads_keep_repeated_direct :
    (db4Lawful sampleV4Hashes).Empty emptyDb4 ∧
      ¬ AllStored sampleV4Hashes (db4Lawful sampleV4Hashes) (OneSigPerSigner zeroStale)
        (uploads sampleV4Hashes zeroStale noCheck noLookups emptyDb4
          [sampleUploadOf (sampleV4Key [sampleSig 4 0x1F 1] [⟨sampleUid 65, []⟩]),
            sampleUploadOf (sampleV4Key [sampleSig 4 0x1F 2] [⟨sampleUid 65, []⟩])]) := by
  refine ⟨emptyDb4_empty, fun hall => ?_⟩
  have hkey := hall (fingerprintOf sampleV4Hashes (sampleV4Packet tagPublickey 1 0xC1))
    (sampleV4Key [sampleSig 4 0x1F 1, sampleSig 4 0x1F 2] [⟨sampleUid 65, []⟩]) (by decide)
  exact absurd hkey.sigs (by decide)

end Onak
