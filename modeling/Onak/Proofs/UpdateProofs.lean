import Onak.KeyDb
import Onak.Proofs.MergeProofs

/-!
# Proofs: updating keys

One round of `generic_update_keys` changes at most one entry of the database, the one of the key
that the lookup found or, when it found nothing, of the uploaded key. Since the lookup also answers
for subkeys, the entry can be that of another key; the uploaded key is then lost.
-/

namespace Onak

variable {H : Hashes} {g : Stale}

/-! ## Refused merges -/

theorem getKeyid_congr {k k' : PublicKey} (h : k.publickey = k'.publickey) :
    getKeyid H k = getKeyid H k' := by
  unfold getKeyid
  rw [h]

theorem mergeKeys_a_publickey (a b : PublicKey) :
    (mergeKeys H g a b).a.publickey = a.publickey := by
  unfold mergeKeys
  split
  · rfl
  · rfl
  · simp only
    split_ifs <;> rfl

theorem mergeKeys_b_publickey (a b : PublicKey) :
    (mergeKeys H g a b).b.publickey = b.publickey := by
  unfold mergeKeys
  split
  · rfl
  · rfl
  · simp only
    split_ifs <;> rfl

/-- `merge_keys` on keys that do not have the same key id changes no packets. -/
theorem mergeKeys_refused {a b : PublicKey} (h : ¬ SameKeyid H a b) :
    (∃ r, (mergeKeys H g a b).a = { a with revoked := r }) ∧
      ∃ r, (mergeKeys H g a b).b = { b with revoked := r } := by
  unfold SameKeyid at h
  unfold mergeKeys
  split
  · exact ⟨⟨a.revoked, rfl⟩, b.revoked, rfl⟩
  · exact ⟨⟨a.revoked, rfl⟩, b.revoked, rfl⟩
  · rename_i keya keyb ha hb
    have hne : keya ≠ keyb := by
      rintro rfl
      exact h ⟨by rw [ha]; rfl, by rw [ha, hb]⟩
    simp only [hne, ne_eq, not_false_eq_true, if_true]
    exact ⟨⟨_, rfl⟩, _, rfl⟩

/-! ## What keys carry -/

theorem Carries.refl (k : PublicKey) : Carries k k := ⟨onAll_refl _, onAll_refl _⟩

theorem Carries.trans {k₁ k₂ k₃ : PublicKey} (h : Carries k₁ k₂) (h' : Carries k₂ k₃) :
    Carries k₁ k₃ := ⟨h.1.trans h'.1, h.2.trans h'.2⟩

theorem carries_mergeKeys {a b : PublicKey} (h : SameKeyid H a b) :
    Carries a (mergeKeys H g a b).a ∧ Carries b (mergeKeys H g a b).a := by
  rw [mergeKeys_eq h]
  exact ⟨⟨onAll_merge_old _ _, onAll_merge_old _ _⟩, ⟨onAll_merge_new _ _, onAll_merge_new _ _⟩⟩

theorem onAll_of_diff_nil {old new : List SignedPacket} (h : (mergeSignedPackets g old new).2 = []) :
    OnAll new old := by
  intro sp hsp
  rcases mergeCommon_covers (g := g) old (onSigned_of_mem hsp) with ⟨x, hx, _⟩ | hold
  · have hnil : (mergeCommon g old new).2 = [] := h
    rw [hnil] at hx
    exact absurd hx (by simp)
  · exact hold

/-- When nothing is left of the uploaded key, the old key already carries it. -/
theorem carries_of_diff_nil {a b : PublicKey} (hu : (mergeKeys H g a b).b.uids = [])
    (hs : (mergeKeys H g a b).b.subkeys = []) : Carries b a := by
  by_cases h : SameKeyid H a b
  · rw [mergeKeys_eq h] at hu hs
    exact ⟨onAll_of_diff_nil hu, onAll_of_diff_nil hs⟩
  · obtain ⟨r, hr⟩ := (mergeKeys_refused (g := g) h).2
    rw [hr] at hu hs
    have hu' : b.uids = [] := hu
    have hs' : b.subkeys = [] := hs
    constructor
    · rw [hu']
      exact fun _ h => absurd h (by simp)
    · rw [hs']
      exact fun _ h => absurd h (by simp)

/-! ## One round -/

theorem fingerprintOf_eq {p : Packet} {f : Fingerprint} (h : fingerprint? H p = some f) :
    fingerprintOf H p = f := by
  unfold fingerprint? at h
  unfold fingerprintOf
  split at h
  · rename_i fp hfp
    rw [hfp]
    simpa using h
  · exact absurd h (by simp)

section

variable {B : Backend} (L : B.Lawful H)

theorem carries_reread {k k' : PublicKey} : Carries k (L.reread k') ↔ Carries k k' := by
  rw [L.reread_packets k']
  rfl

include L in
theorem fetch_fp {db : B.DB} (hI : L.Inv db) {f : Fingerprint} {k : PublicKey}
    (h : B.fetchKeyFp db f = some k) :
    ∃ f', fingerprint? H k.publickey = some f' ∧ L.stored db f' = some k := by
  obtain ⟨f', hf', _⟩ := L.fetch_sound hI h
  exact ⟨f', L.stored_fp hI hf', hf'⟩

theorem stored_none_of_fetch {db : B.DB} (hI : L.Inv db) {f : Fingerprint}
    (h : B.fetchKeyFp db f = none) : L.stored db f = none := by
  cases hs : L.stored db f with
  | none => rfl
  | some k =>
    have := L.fetch_stored hI hs
    rw [h] at this
    exact absurd this (by simp)

/-- A key that is found under a fingerprint that is not its own is found through a subkey. -/
theorem stored_none_of_fetch_other {db : B.DB} (hI : L.Inv db) {f : Fingerprint} {old : PublicKey}
    (hfetch : B.fetchKeyFp db f = some old) (hne : fingerprint? H old.publickey ≠ some f) :
    L.stored db f = none := by
  cases hs : L.stored db f with
  | none => rfl
  | some k =>
    have hk := L.fetch_stored hI hs
    rw [hfetch] at hk
    obtain rfl := Option.some.inj hk
    exact absurd (L.stored_fp hI hs) hne

theorem apply_new {db : B.DB} (hI : L.Inv db) {key : PublicKey} {f : Fingerprint}
    (hf : fingerprint? H key.publickey = some f) (h : L.stored db f = none)
    (hid : (getKeyid H key).isSome) :
    let db' := applyAction B db (updateAction H g false none key)
    L.Inv db' ∧ ∀ x, L.stored db' x = if x = f then some (L.reread key) else L.stored db x :=
  L.store hI hf hid (by rw [h]; rfl)

include L in
theorem apply_new_no_keyid (db : B.DB) {key : PublicKey} (hid : getKeyid H key = none) :
    applyAction B db (updateAction H g false none key) = db :=
  L.store_no_keyid false hid

/-- The merged key takes the place of the stored one. -/
theorem store_merged {db : B.DB} (hI : L.Inv db) {old : PublicKey} (key : PublicKey)
    {f : Fingerprint} (hf : fingerprint? H old.publickey = some f) (h : L.stored db f = some old)
    (hid : (getKeyid H (mergeKeys H g old key).a).isSome) :
    let db' := B.storeKey db (mergeKeys H g old key).a true
    L.Inv db' ∧ ∀ x, L.stored db' x =
      if x = f then some (L.reread (mergeKeys H g old key).a) else L.stored db x := by
  have hf' : fingerprint? H (mergeKeys H g old key).a.publickey = some f := by
    rw [mergeKeys_a_publickey]
    exact hf
  exact L.store hI hf' hid (by rw [h]; rfl)

/-- The effect of the round for a key for which `old` is found: only the entry of `old` changes. It
carries what it carried and, if the keys have the same key id, the uploaded key too; otherwise
nothing new. -/
theorem apply_old {db : B.DB} (hI : L.Inv db) {old : PublicKey} (key : PublicKey)
    {f : Fingerprint} (u : Bool)
    (hf : fingerprint? H old.publickey = some f) (h : L.stored db f = some old) :
    let db' := applyAction B db (updateAction H g u (some old) key)
    L.Inv db' ∧ (∀ x, x ≠ f → L.stored db' x = L.stored db x) ∧
      ∃ k, L.stored db' f = some k ∧ k.publickey = old.publickey ∧ Carries old k ∧
        (Carries key k ↔ SameKeyid H old key ∨ Carries key old) := by
  intro db'
  set m := mergeKeys H g old key with hm
  by_cases hd : m.b.sigs = [] ∧ m.b.uids = [] ∧ m.b.subkeys = []
  · have hdb : db' = db := by
      simp only [db', updateAction, ← hm, hd, and_self, if_true, applyAction]
    have hc : Carries key old := carries_of_diff_nil hd.2.1 hd.2.2
    rw [hdb]
    exact ⟨hI, fun _ _ => rfl, old, h, rfl, Carries.refl old, fun _ => Or.inr hc, fun _ => hc⟩
  · have hdb : db' = B.storeKey db m.a true := by
      simp only [db', updateAction, ← hm, hd, if_false, applyAction]
    have hpk : m.a.publickey = old.publickey := mergeKeys_a_publickey old key
    have hrpk : (L.reread m.a).publickey = old.publickey := by
      rw [L.reread_packets]
      exact hpk
    by_cases hk : SameKeyid H old key
    · have hid : (getKeyid H m.a).isSome := by
        rw [getKeyid_congr hpk]
        exact hk.1
      obtain ⟨hI', hst⟩ := store_merged L hI key hf h hid
      obtain ⟨hc1, hc2⟩ := carries_mergeKeys (g := g) hk
      rw [hdb]
      refine ⟨hI', fun x hx => by rw [hst, if_neg hx], L.reread m.a, by rw [hst, if_pos rfl],
        hrpk, ?_, ?_⟩
      · exact (carries_reread L).mpr hc1
      · exact ⟨fun _ => Or.inl hk, fun _ => (carries_reread L).mpr hc2⟩
    · -- a refused merge: at most `old` itself is stored again
      obtain ⟨r, hr⟩ := (mergeKeys_refused (g := g) hk).1
      have hsame : ∀ k, Carries k m.a ↔ Carries k old := fun k => by
        rw [hm, hr]
        rfl
      cases hid : getKeyid H m.a with
      | none =>
        rw [hdb, L.store_no_keyid true hid]
        refine ⟨hI, fun _ _ => rfl, old, h, rfl, Carries.refl old, fun hc => Or.inr hc, ?_⟩
        rintro (h' | h')
        · exact absurd h' hk
        · exact h'
      | some keyid =>
        obtain ⟨hI', hst⟩ := store_merged (g := g) L hI key hf h (by rw [hid]; rfl)
        rw [hdb]
        refine ⟨hI', fun x hx => by rw [hst, if_neg hx], L.reread m.a, by rw [hst, if_pos rfl],
          hrpk, ?_, ?_⟩
        · exact (carries_reread L).mpr ((hsame old).mpr (Carries.refl old))
        · rw [carries_reread, hsame]
          exact ⟨fun hc => Or.inr hc, fun h' => h'.resolve_left hk⟩

/-! ## The whole upload -/

variable (blacklist : List Fingerprint)

/-- What a round of `generic_update_keys` does to the entries, where `f` is that of the key and `safe` says
that the round comes out right. -/
inductive RoundEffect (before after : Fingerprint → Option PublicKey) (key : PublicKey)
    (f : Fingerprint) (safe : Prop) : Prop
  /-- The key is blacklisted. -/
  | blacklisted : f ∈ blacklist → after = before → RoundEffect before after key f safe
  /-- The key is lost, and no entry appears. -/
  | lost : f ∉ blacklist → ¬ safe → before f = none → (∀ x, before x = none → after x = none) →
      RoundEffect before after key f safe
  /-- Only the entry of the key changes, and it carries what it carried. -/
  | own {k : PublicKey} : f ∉ blacklist → (∀ x, x ≠ f → after x = before x) → after f = some k →
      (Carries key k ↔ safe) → (∀ old, before f = some old → Carries old k) →
      RoundEffect before after key f safe

/-- The round for a key that is not found. -/
theorem roundEffect_new {db : B.DB} (hI : L.Inv db) {key : PublicKey} {f : Fingerprint}
    (hf : fingerprint? H key.publickey = some f) (hb : f ∉ blacklist) (hnone : L.stored db f = none) :
    let db' := applyAction B db (updateAction H g false none key)
    L.Inv db' ∧
      RoundEffect blacklist (L.stored db) (L.stored db') key f ((getKeyid H key).isSome : Prop) := by
  cases hid : getKeyid H key with
  | none =>
    rw [apply_new_no_keyid L db hid]
    exact ⟨hI, .lost hb (by simp) hnone fun _ hx => hx⟩
  | some keyid =>
    obtain ⟨hI', hst⟩ := apply_new (g := g) L hI hf hnone (by rw [hid]; rfl)
    refine ⟨hI', .own hb (fun x hx => by rw [hst, if_neg hx]) (by rw [hst, if_pos rfl]) ?_ ?_⟩
    · simp [carries_reread, Carries.refl]
    · rw [hnone]
      exact fun old h => absurd h (by simp)

/-- The round for a key for which `old` is found, under its own fingerprint or as one that has it as a
subkey. -/
theorem roundEffect_old {db : B.DB} (hI : L.Inv db) {key old : PublicKey} {f : Fingerprint}
    (hf : fingerprint? H key.publickey = some f) (hb : f ∉ blacklist)
    (hfetch : B.fetchKeyFp db f = some old) :
    let db' := applyAction B db (updateAction H g false (some old) key)
    L.Inv db' ∧ RoundEffect blacklist (L.stored db) (L.stored db') key f
      (fingerprint? H old.publickey = fingerprint? H key.publickey ∧
        (SameKeyid H old key ∨ Carries key old)) := by
  obtain ⟨f', hf', hst⟩ := fetch_fp L hI hfetch
  obtain ⟨hI', hother, k, hk, _, hold, hcarry⟩ := apply_old (g := g) L hI key false hf' hst
  refine ⟨hI', ?_⟩
  by_cases hff : f' = f
  · subst hff
    refine .own hb hother hk ?_ ?_
    · simp only [hcarry, hf', hf, true_and]
    · intro old' hst'
      rw [hst] at hst'
      obtain rfl := Option.some.inj hst'
      exact hold
  · refine .lost hb ?_ ?_ fun x hx => ?_
    · simp only [hf', hf, Option.some.injEq, hff, false_and, not_false_eq_true]
    · exact stored_none_of_fetch_other L hI hfetch fun h => hff (Option.some.inj (hf'.symm.trans h))
    · have hne : x ≠ f' := by
        rintro rfl
        rw [hst] at hx
        exact absurd hx (by simp)
      rw [hother x hne]
      exact hx

/-- What a round of `generic_update_keys` can do. -/
theorem updateKey_cases {db : B.DB} (hI : L.Inv db) {key : PublicKey} {f : Fingerprint}
    (hf : fingerprint? H key.publickey = some f) :
    let db' := (updateKey H B g blacklist false db key).1
    L.Inv db' ∧ RoundEffect blacklist (L.stored db) (L.stored db') key f (RoundSafe H db key) := by
  unfold updateKey RoundSafe
  rw [fingerprintOf_eq hf]
  by_cases hb : f ∈ blacklist
  · simp only [hb, if_true]
    exact ⟨hI, .blacklisted hb rfl⟩
  simp only [hb, if_false]
  cases hfetch : B.fetchKeyFp db f with
  | none => exact roundEffect_new L blacklist hI hf hb (stored_none_of_fetch L hI hfetch)
  | some old => exact roundEffect_old L blacklist hI hf hb hfetch

/-- An upload creates no entry except under the fingerprints of its keys. -/
theorem updateLoop_none {keys : List PublicKey} {db : B.DB} (hI : L.Inv db) {x : Fingerprint}
    (hfp : ∀ key ∈ keys, (fingerprint? H key.publickey).isSome)
    (hx : ∀ key ∈ keys, fingerprintOf H key.publickey ≠ x) (h : L.stored db x = none) :
    L.stored (updateLoop H B g blacklist false db keys).1 x = none := by
  induction keys generalizing db with
  | nil => exact h
  | cons key keys ih =>
    rw [List.forall_mem_cons] at hfp hx
    obtain ⟨f, hf⟩ := Option.isSome_iff_exists.mp hfp.1
    have hxf : x ≠ f := fun h => hx.1 (by rw [fingerprintOf_eq hf, h])
    obtain ⟨hI', heffect⟩ := updateKey_cases (g := g) L blacklist hI hf
    refine ih hI' hfp.2 hx.2 ?_
    cases heffect with
    | blacklisted _ heq => rw [heq, h]
    | lost _ _ _ hstay => exact hstay x h
    | own _ hround => rw [hround x hxf, h]

section

variable {L blacklist} {db db₁ db' : B.DB} {key : PublicKey} {keys : List PublicKey}

theorem uploaded_cons_iff : Uploaded H L blacklist db db' (key :: keys) ↔
    (fingerprintOf H key.publickey ∉ blacklist →
      ∃ k, L.stored db' (fingerprintOf H key.publickey) = some k ∧ Carries key k ∧
        ∀ old, L.stored db (fingerprintOf H key.publickey) = some old → Carries old k) ∧
      Uploaded H L blacklist db db' keys :=
  List.forall_mem_cons

/-- Of the database before the upload only the entries of the keys matter. -/
theorem uploaded_congr (heq : ∀ k ∈ keys, L.stored db₁ (fingerprintOf H k.publickey) =
      L.stored db (fingerprintOf H k.publickey)) :
    Uploaded H L blacklist db₁ db' keys ↔ Uploaded H L blacklist db db' keys :=
  forall₂_congr fun k hk => by rw [heq k hk]

theorem OthersKept.cons (h : OthersKept H L db₁ db' keys)
    (hround : ∀ x, x ≠ fingerprintOf H key.publickey → L.stored db₁ x = L.stored db x) :
    OthersKept H L db db' (key :: keys) := by
  intro x hx
  rw [List.forall_mem_cons] at hx
  rw [h x hx.2, hround x hx.1.symm]

end

/-- The rounds of an upload all come out right exactly when every key is stored, and then the other
entries are left alone. -/
theorem updateLoop_iff {keys : List PublicKey} {db : B.DB} (hI : L.Inv db)
    (hfp : ∀ key ∈ keys, (fingerprint? H key.publickey).isSome)
    (hne : keys.Pairwise fun x y => fingerprintOf H x.publickey ≠ fingerprintOf H y.publickey) :
    let db' := (updateLoop H B g blacklist false db keys).1
    (Uploaded H L blacklist db db' keys ↔ RoundsSafe H g blacklist db keys) ∧
      (RoundsSafe H g blacklist db keys → OthersKept H L db db' keys) := by
  induction keys generalizing db with
  | nil => exact ⟨by simp [Uploaded, RoundsSafe], fun _ f _ => rfl⟩
  | cons key keys ih =>
    obtain ⟨hkey, hne⟩ := List.pairwise_cons.mp hne
    rw [List.forall_mem_cons] at hfp
    obtain ⟨f, hf⟩ := Option.isSome_iff_exists.mp hfp.1
    obtain rfl := fingerprintOf_eq hf
    obtain ⟨hI', heffect⟩ := updateKey_cases (g := g) L blacklist hI hf
    obtain ⟨ih1, ih2⟩ := ih hI' hfp.2 hne
    simp only [updateLoop, RoundsSafe]
    rw [uploaded_cons_iff]
    set db₁ := (updateKey H B g blacklist false db key).1
    set db' := (updateLoop H B g blacklist false db₁ keys).1
    cases heffect with
    | blacklisted hb heq =>
      rw [← uploaded_congr fun k _ => congrFun heq _, ih1]
      refine ⟨and_congr_left fun _ => ?_, fun h => (ih2 h.2).cons fun x _ => congrFun heq x⟩
      exact iff_of_true (fun hnb => absurd hb hnb) fun hnb => absurd hb hnb
    | lost hb hunsafe hnone hstay =>
      -- the key has no entry, also not later
      have hlost : L.stored db' (fingerprintOf H key.publickey) = none :=
        updateLoop_none L blacklist hI' hfp.2 (fun k hk => (hkey k hk).symm) (hstay _ hnone)
      refine ⟨⟨fun h => ?_, fun h => absurd (h.1 hb) hunsafe⟩, fun h => absurd (h.1 hb) hunsafe⟩
      obtain ⟨k, hk, -⟩ := h.1 hb
      rw [hlost] at hk
      cases hk
    | @own k hb hround hk hcarry hold =>
      have hkeep : RoundsSafe H g blacklist db₁ keys →
          L.stored db' (fingerprintOf H key.publickey) = some k := fun h => by
        rw [ih2 h _ fun k' hk' => (hkey k' hk').symm, hk]
      rw [← uploaded_congr fun k' hk' => hround _ (hkey k' hk').symm, ih1]
      refine ⟨and_congr_left fun h => ?_, fun h => (ih2 h.2).cons hround⟩
      rw [hkeep h]
      constructor
      · intro hup hnb
        obtain ⟨k', hk', hc, -⟩ := hup hnb
        obtain rfl := Option.some.inj hk'
        exact hcarry.mp hc
      · intro hsafe hnb
        exact ⟨k, rfl, hcarry.mpr (hsafe hnb), hold⟩

/-- **What an upload stores.** For an upload of keys of known versions with distinct fingerprints,
`generic_update_keys` stores every key that is not blacklisted under its own fingerprint, and leaves
the other stored keys alone, exactly when in each round the lookup by fingerprint answers with the
key of that primary fingerprint, if any, and not with one that has it as a subkey (and the key ids
can be computed and agree). -/
theorem genericUpdateKeys_meets_iff {keys : List PublicKey} {db : B.DB} (sendsync : Bool)
    (hI : L.Inv db) (hfp : ∀ key ∈ keys, (fingerprint? H key.publickey).isSome)
    (hne : keys.Pairwise fun x y => fingerprintOf H x.publickey ≠ fingerprintOf H y.publickey) :
    UpdateMeets H L blacklist db (genericUpdateKeys H B g blacklist false sendsync db keys).db keys ↔
      RoundsSafe H g blacklist db keys := by
  obtain ⟨h1, h2⟩ := updateLoop_iff (g := g) L blacklist hI hfp hne
  exact ⟨fun h => h1.mp h.uploaded, fun h => ⟨h1.mpr h, h2 h⟩⟩

end

end Onak
