import Onak.Proofs.Db4TablesProofs
import Onak.Proofs.UploadProofs

/-!
# Proofs: the indexes of the db4 backend

The invariant of the tables under stores and deletions, and what follows for the word and key id
tables, for lookups by subkey and for deletions.
-/

namespace Onak

open Runs

variable {H : Hashes}

/-! ## Sample keys -/

/-- A v4 key with one user id. -/
def sampleMember (time modulus : UInt8) (uid : List UInt8) (subkeys : List SignedPacket) : PublicKey :=
  ⟨sampleV4Packet tagPublickey time modulus, false, [], [⟨⟨tagUid, false, uid⟩, []⟩], subkeys⟩

/-- A subkey. -/
def sampleSubkey : SignedPacket := ⟨sampleV4Packet tagPublicsubkey 3 0xC7, []⟩

/-- "Al" with the subkey. -/
def sampleAl : PublicKey := sampleMember 1 0xC1 [65, 108] [sampleSubkey]

/-- The same key with the user id "Ann Al". -/
def sampleAnnAl : PublicKey := sampleMember 1 0xC1 [65, 110, 110, 32, 65, 108] [sampleSubkey]

/-- "Bo", another key with the same subkey. -/
def sampleBo : PublicKey := sampleMember 2 0xC5 [66, 111] [sampleSubkey]

/-- "Bo" without the subkey. -/
def sampleBoAlone : PublicKey := sampleMember 2 0xC5 [66, 111] []

/-- MD5 on the octets hashed for the sample keys. -/
def sampleSksMd5 (l : List UInt8) : List UInt8 :=
  if l = skshashPreimage sampleAl then
    [0x09, 0x9E, 0x4B, 0xF0, 0x96, 0x62, 0x75, 0x06, 0xE5, 0x29, 0x73, 0x10, 0x04, 0xF9, 0x10, 0x61]
  else if l = skshashPreimage sampleAnnAl then
    [0x4F, 0x3C, 0x12, 0x9A, 0xF4, 0x40, 0xD2, 0xA2, 0xB8, 0xE7, 0x84, 0xE0, 0x9D, 0x99, 0x17, 0x0D]
  else if l = skshashPreimage sampleBo then
    [0xA5, 0xE8, 0xE7, 0xA5, 0x4E, 0x01, 0xDD, 0x7A, 0xEB, 0xBA, 0xA2, 0xCD, 0x73, 0x21, 0x2F, 0x0F]
  else if l = skshashPreimage sampleBoAlone then
    [0x58, 0xF1, 0x8C, 0xCD, 0xC5, 0x62, 0x55, 0x85, 0xEE, 0x42, 0xBE, 0xB4, 0xFC, 0x82, 0x9A, 0x00]
  else []

/-- The digests as far as the sample histories need them. -/
def sampleSksHashes : Hashes := ⟨sampleSksMd5, sampleSha1, fun _ => []⟩

/-- The fingerprint of a sample key. -/
def sampleFp (k : PublicKey) : Fingerprint := fingerprintOf sampleSksHashes k.publickey

/-! ## Counting entries -/

theorem count_word_keyEntries (k : PublicKey) (w : Word) :
    (keyEntries H k).count (.word w) = if w ∈ keywords k then 1 else 0 := by
  have hids : (idEntries H k ++ [skshashEntry H k]).count (.word w) = 0 := by
    rw [List.count_eq_zero]
    simp [idEntries, keyidEntries, subkeyRemovals, skshashEntry]
  rw [keyEntries, List.count_append, hids, Nat.add_zero, wordEntries,
    List.count_map_of_injective _ _ fun _ _ => Entry.word.inj]
  split_ifs with h
  · exact List.count_eq_one_of_mem (keywords_nodup k) h
  · exact List.count_eq_zero.mpr h

/-- Entries of one kind, for the keys whose ids are entered. -/
theorem count_subkeyEntries {e : Entry} (g : UInt64 → Bool)
    (hsub : ∀ f, Entry.subkey f ≠ e)
    (hid : ∀ id, (keyidEntries id).count e = if g id then 1 else 0) (l : List Fingerprint) :
    (l.flatMap fun f => .subkey f :: keyidEntries (fingerprint2keyid f)).count e =
      (l.map fingerprint2keyid).countP g := by
  induction l with
  | nil => rfl
  | cons f l ih =>
    rw [List.flatMap_cons, List.count_append, ih, List.count_cons, hid, List.map_cons,
      List.countP_cons]
    simp [hsub f]
    omega

theorem count_ids_keyEntries {e : Entry} (g : UInt64 → Bool) (k : PublicKey)
    (hword : ∀ w, Entry.word w ≠ e) (hsub : ∀ f, Entry.subkey f ≠ e)
    (hsks : ∀ hash, Entry.skshash hash ≠ e)
    (hid : ∀ id, (keyidEntries id).count e = if g id then 1 else 0) :
    (keyEntries H k).count e = (keyids H k).countP g := by
  have hwords : (wordEntries k).count e = 0 := by
    rw [List.count_eq_zero, wordEntries, List.mem_map]
    rintro ⟨w, _, h⟩
    exact hword w h
  have hskshash : [skshashEntry H k].count e = 0 := by
    rw [List.count_eq_zero, List.mem_singleton]
    exact fun h => hsks _ h.symm
  rw [keyEntries, List.count_append, List.count_append, idEntries, List.count_append, hwords,
    hskshash, subkeyRemovals, count_subkeyEntries g hsub hid, keyids, List.countP_append]
  cases getKeyid H k with
  | none => simp
  | some keyid => simp [hid]

theorem count_id64_keyEntries (k : PublicKey) (id : UInt64) :
    (keyEntries H k).count (.id64 id) = (keyids H k).count id := by
  refine count_ids_keyEntries (· == id) k (by simp) (by simp) (by simp) fun id' => ?_
  simp [keyidEntries, List.count_cons]

theorem count_id32_keyEntries (k : PublicKey) (id : UInt32) :
    (keyEntries H k).count (.id32 id) = ((keyids H k).map UInt64.toUInt32).count id := by
  rw [List.count_eq_countP (l := (keyids H k).map UInt64.toUInt32), List.countP_map]
  refine count_ids_keyEntries _ k (by simp) (by simp) (by simp) fun id' => ?_
  simp [keyidEntries, List.count_cons]

/-- The entries of the stored keys, for the tables with duplicates together. -/
theorem Tables.exact_iff {t : Tables} :
    t.Exact H ↔ ∀ e f, e.isDup → (t.dups e).count f =
      ((t.keydb f).map fun k => (keyEntries H k).count e).getD 0 := by
  constructor
  · intro h e f he
    cases e with
    | word w => simpa only [Tables.dups, count_word_keyEntries] using h.worddb w f
    | id32 id => simpa only [Tables.dups, count_id32_keyEntries] using h.id32db id f
    | id64 id => simpa only [Tables.dups, count_id64_keyEntries] using h.id64db id f
    | subkey f => cases he
    | skshash hash => cases he
  · intro h
    refine ⟨fun w f => ?_, fun id f => ?_, fun id f => ?_⟩
    · simpa only [Tables.dups, count_word_keyEntries] using h (.word w) f rfl
    · simpa only [Tables.dups, count_id32_keyEntries] using h (.id32 id) f rfl
    · simpa only [Tables.dups, count_id64_keyEntries] using h (.id64 id) f rfl

theorem Tables.Exact.minus {t : Tables} (hx : t.Exact H) {fp : Fingerprint} {k : PublicKey}
    (h : t.keydb fp = some k ∨ t.keydb fp = none) : (t.minus H fp k).Exact H := by
  rw [Tables.exact_iff] at hx ⊢
  intro e f he
  show (((keyEntries H k).foldl (Tables.del · fp) t).dups e).count f =
    ((t.keydb.del fp f).map fun k => (keyEntries H k).count e).getD 0
  rw [count_dups_foldl_del, hx e f he]
  by_cases hf : f = fp
  · subst hf
    rcases h with h | h <;> simp [h, Table.del]
  · simp [hf, Table.del]

theorem Tables.Exact.plus {t : Tables} (hx : t.Exact H) {fp : Fingerprint} {k : PublicKey}
    {keyid : UInt64} (hid : getKeyid H k = some keyid) (h : t.keydb fp = none) :
    (t.plus H fp k keyid).Exact H := by
  rw [Tables.exact_iff] at hx ⊢
  intro e f he
  have hkey : (t.plus H fp k keyid).keydb f = t.keydb.put fp (reread k) f := by
    simp [Tables.plus]
  have hdups : ((t.plus H fp k keyid).dups e).count f =
      (t.dups e).count f + if f = fp then (keyEntries H k).count e else 0 := by
    rw [Tables.plus, count_dups_foldl_put _ _ _ _ he, (newEntries_perm hid).count_eq]
    cases e <;> rfl
  rw [hkey, hdups, hx e f he]
  by_cases hf : f = fp
  · subst hf
    simp only [h, Table.put, if_true, Option.map_none, Option.map_some, Option.getD_none,
      Option.getD_some, Nat.zero_add]
    rfl
  · simp [hf, Table.put]

/-! ## The invariant -/

/-- The invariant of the tables. -/
structure Tables.Sound (H : Hashes) (t : Tables) : Prop where
  exact : t.Exact H
  consistent : t.toDb4.Consistent H
  skshash : ∀ {hash f}, t.skshashdb hash = some f →
    ∃ k, t.keydb f = some k ∧ getSkshash H k = hash

theorem emptyTables_sound : emptyTables.Sound H where
  exact := ⟨fun _ _ => rfl, fun _ _ => rfl, fun _ _ => rfl⟩
  consistent := emptyDb4_consistent
  skshash := by
    intro hash f h
    exact absurd h (by simp [emptyTables])

/-- A lookup finds the key under the fingerprint, or the owner that the subkey index names. -/
theorem Tables.fetchKeyFp_cases {t : Tables} {fp : Fingerprint} {k : PublicKey}
    (h : t.fetchKeyFp fp = some k) :
    t.keydb fp = some k ∨
      (t.keydb fp = none ∧ ∃ p, t.subkeydb fp = some p ∧ t.keydb p = some k) := by
  unfold Tables.fetchKeyFp db4FetchKeyFp at h
  cases hkey : t.keydb fp with
  | some key =>
    rw [hkey] at h
    exact Or.inl h
  | none =>
    rw [hkey] at h
    obtain ⟨p, hp, hk⟩ := Option.bind_eq_some_iff.mp h
    exact Or.inr ⟨rfl, p, hp, hk⟩

theorem Tables.Sound.keyid {t : Tables} (hs : t.Sound H) {fp : Fingerprint} {k : PublicKey}
    (h : t.fetchKeyFp fp = some k) : (getKeyid H k).isSome := by
  rcases Tables.fetchKeyFp_cases h with hk | ⟨_, p, _, hk⟩
  · exact hs.consistent.keydb_keyid hk
  · exact hs.consistent.keydb_keyid hk

theorem skshashdb_minus (t : Tables) (fp : Fingerprint) (k : PublicKey) (hash : List UInt8) :
    (t.minus H fp k).skshashdb hash =
      if hash = getSkshash H k ∧ t.skshashdb hash = some fp then none
      else t.skshashdb hash := by
  show ((keyEntries H k).foldl (Tables.del · fp) t).skshashdb hash = _
  rw [skshashdb_foldl_del]
  simp only [skshash_mem_keyEntries]

theorem skshashdb_plus (t : Tables) (fp : Fingerprint) {k : PublicKey} {keyid : UInt64}
    (hid : getKeyid H k = some keyid) (hash : List UInt8) :
    (t.plus H fp k keyid).skshashdb hash =
      if hash = getSkshash H k then some fp else t.skshashdb hash := by
  rw [Tables.plus, skshashdb_foldl_put]
  simp only [(newEntries_perm hid).mem_iff, skshash_mem_keyEntries]

theorem subkeydb_minus (t : Tables) (fp : Fingerprint) (k : PublicKey) (f : Fingerprint) :
    (t.minus H fp k).subkeydb f =
      if f ∈ keysubkeys H k then none else t.subkeydb f := by
  have h := congrArg Db4.subkeydb (toDb4_minus (H := H) t fp k)
  exact (congrFun h f).trans (Table.foldl_del _ _ _)

theorem subkeydb_plus (t : Tables) (fp : Fingerprint) {k : PublicKey} {keyid : UInt64}
    (hid : getKeyid H k = some keyid) (f : Fingerprint) :
    (t.plus H fp k keyid).subkeydb f =
      if f ∈ keysubkeys H k then some fp else t.subkeydb f := by
  have h := congrArg Db4.subkeydb (toDb4_plus (H := H) t fp hid)
  exact (congrFun h f).trans (Table.foldl_put _ _ _ _)

@[simp] theorem keydb_plus (t : Tables) (fp : Fingerprint) (k : PublicKey) (keyid : UInt64) :
    (t.plus H fp k keyid).keydb = t.keydb.put fp (reread k) := by
  simp [Tables.plus]

@[simp] theorem keydb_minus (t : Tables) (fp : Fingerprint) (k : PublicKey) :
    (t.minus H fp k).keydb = t.keydb.del fp := rfl

/-- The entries of a key are gone, or those of its subkeys when it was found by one of them. -/
theorem Tables.Sound.minus {t : Tables} (hs : t.Sound H) {fp : Fingerprint} {k : PublicKey}
    (h : t.keydb fp = some k ∨ t.keydb fp = none) : (t.minus H fp k).Sound H := by
  have hdel : ∀ {f k'}, t.keydb.del fp f = some k' → t.keydb f = some k' := by
    intro f k' hf
    unfold Table.del at hf
    split_ifs at hf
    exact hf
  have hstay : ∀ {f k'}, t.keydb f = some k' → k' ≠ k → t.keydb.del fp f = some k' := by
    intro f k' hf hne
    have hf' : f ≠ fp := by
      rintro rfl
      rcases h with h | h <;> rw [hf] at h
      · exact hne (Option.some.inj h)
      · cases h
    simp [Table.del, hf', hf]
  refine ⟨hs.exact.minus h, ⟨fun hk => ?_, fun hk => ?_, fun {s f} hsub => ?_⟩, fun {hash f} hh => ?_⟩
  · exact hs.consistent.keydb_fp (hdel hk)
  · exact hs.consistent.keydb_keyid (hdel hk)
  · rw [subkeydb_minus] at hsub
    split_ifs at hsub with hmem
    obtain ⟨k', hk', hsk'⟩ := hs.consistent.subkeydb_key hsub
    refine ⟨k', hstay hk' ?_, hsk'⟩
    rintro rfl
    exact hmem hsk'
  · rw [skshashdb_minus] at hh
    split_ifs at hh with hcond
    obtain ⟨k', hk', hsk'⟩ := hs.skshash hh
    refine ⟨k', ?_, hsk'⟩
    have hf : f ≠ fp := by
      rintro rfl
      rcases h with h | h <;> rw [hk'] at h
      · obtain rfl := Option.some.inj h
        exact hcond ⟨hsk'.symm, hh⟩
      · cases h
    show t.keydb.del fp f = some k'
    simp [Table.del, hf, hk']

theorem Tables.Sound.plus {t : Tables} (hs : t.Sound H) {fp : Fingerprint} {k : PublicKey}
    {keyid : UInt64} (hid : getKeyid H k = some keyid)
    (hf : fingerprint? H k.publickey = some fp) (h : t.keydb fp = none) :
    (t.plus H fp k keyid).Sound H := by
  refine ⟨hs.exact.plus hid h, ?_, fun {hash f} hh => ?_⟩
  · rw [toDb4_plus t fp hid]
    exact hs.consistent.put h hf (by simp [hid])
  · rw [skshashdb_plus t fp hid] at hh
    rw [keydb_plus]
    split_ifs at hh with hhash
    · obtain rfl := Option.some.inj hh
      exact ⟨reread k, by simp [Table.put], hhash.symm⟩
    · obtain ⟨k', hk', hsk'⟩ := hs.skshash hh
      have hne : f ≠ fp := by
        rintro rfl
        rw [h] at hk'
        cases hk'
      exact ⟨k', by simp [Table.put, hne, hk'], hsk'⟩

/-- What a deletion does, whatever fingerprint it is given. -/
theorem Tables.Sound.delete_cases {t : Tables} (hs : t.Sound H) (fp : Fingerprint) :
    (t.fetchKeyFp fp = none ∧ t.after H (.delete fp) = t) ∨
      ∃ k, t.after H (.delete fp) = t.minus H fp k ∧
        (t.keydb fp = some k ∨
          (t.keydb fp = none ∧ ∃ p, t.subkeydb fp = some p ∧ t.keydb p = some k)) := by
  cases h : t.fetchKeyFp fp with
  | none => exact Or.inl ⟨rfl, Tables.after_delete_none h⟩
  | some k => exact Or.inr ⟨k, Tables.after_delete h (hs.keyid h), Tables.fetchKeyFp_cases h⟩

theorem Tables.Sound.delete_stored {t : Tables} (hs : t.Sound H) {fp : Fingerprint}
    {k : PublicKey} (h : t.keydb fp = some k) : t.after H (.delete fp) = t.minus H fp k :=
  have hfetch : t.fetchKeyFp fp = some k := db4FetchKeyFp_of_keydb h
  Tables.after_delete hfetch (hs.keyid hfetch)

theorem Db4Call.UpdateRight.noOverwrite {t : Tables} {c : Db4Call} (h : c.UpdateRight H t) :
    c.NoOverwrite H t := by
  cases c with
  | store k u =>
    change u = ((fingerprint? H k.publickey).bind t.keydb).isSome at h
    change u = true ∨ ((fingerprint? H k.publickey).bind t.keydb).isNone
    cases hb : (fingerprint? H k.publickey).bind t.keydb with
    | none => exact Or.inr rfl
    | some old =>
      rw [hb] at h
      exact Or.inl h
  | delete fp => trivial

/-- What a store does that overwrites nothing. -/
theorem Tables.store_cases {t : Tables} {k : PublicKey} {u : Bool}
    (hn : (Db4Call.store k u).NoOverwrite H t) :
    t.after H (.store k u) = t ∨
      ∃ fp keyid, getKeyid H k = some keyid ∧ fingerprint? H k.publickey = some fp ∧
        ((u = false ∧ t.keydb fp = none ∧ t.after H (.store k u) = t.plus H fp k keyid) ∨
          (u = true ∧ t.after H (.store k u) = (t.after H (.delete fp)).plus H fp k keyid)) := by
  cases hid : getKeyid H k with
  | none => exact Or.inl (Tables.after_store_none t u (Or.inl hid))
  | some keyid =>
    cases hf : fingerprint? H k.publickey with
    | none => exact Or.inl (Tables.after_store_none t u (Or.inr hf))
    | some fp =>
      change u = true ∨ ((fingerprint? H k.publickey).bind t.keydb).isNone at hn
      rw [hf] at hn
      refine Or.inr ⟨fp, keyid, rfl, rfl, ?_⟩
      cases u with
      | false =>
        have hnone : t.keydb fp = none := Option.isNone_iff_eq_none.mp (hn.resolve_left (by simp))
        exact Or.inl ⟨rfl, hnone, Tables.after_store_new t hid hf⟩
      | true => exact Or.inr ⟨rfl, Tables.after_store_update t hid hf⟩

theorem keydb_minus_self (t : Tables) (fp : Fingerprint) (k : PublicKey) :
    (t.minus H fp k).keydb fp = none := by
  simp [Table.del]

/-- A deletion, whatever fingerprint it is given. -/
theorem Tables.Sound.delete {t : Tables} (hs : t.Sound H) (fp : Fingerprint) :
    (t.after H (.delete fp)).Sound H ∧ (t.after H (.delete fp)).keydb fp = none := by
  rcases hs.delete_cases fp with ⟨hfetch, h⟩ | ⟨k, h, hk | ⟨hnone, _⟩⟩
  · rw [h]
    refine ⟨hs, ?_⟩
    cases hkey : t.keydb fp with
    | none => rfl
    | some k => exact absurd ((db4FetchKeyFp_of_keydb hkey).symm.trans hfetch) (by simp)
  · rw [h]
    exact ⟨hs.minus (Or.inl hk), keydb_minus_self t fp k⟩
  · rw [h]
    exact ⟨hs.minus (Or.inr hnone), keydb_minus_self t fp k⟩

theorem Tables.Sound.after {t : Tables} (hs : t.Sound H) {c : Db4Call}
    (hn : c.NoOverwrite H t) : (t.after H c).Sound H := by
  cases c with
  | store k u =>
    rcases Tables.store_cases hn with h | ⟨fp, keyid, hid, hf, ⟨_, hnone, h⟩ | ⟨_, h⟩⟩
    · rw [h]
      exact hs
    · rw [h]
      exact hs.plus hid hf hnone
    · obtain ⟨hs', hnone⟩ := hs.delete fp
      rw [h]
      exact hs'.plus hid hf hnone
  | delete fp => exact (hs.delete fp).1

/-- The tables of a history that overwrites nothing are sound, whatever it deletes. -/
theorem afterAll_sound {calls : List Db4Call}
    (h : Along (Tables.after H) (fun t c => c.NoOverwrite H t) emptyTables calls) :
    (Tables.afterAll H calls).Sound H :=
  h.invariant (Tables.Sound H) emptyTables_sound fun hs hc => hs.after hc

/-- Only an unknown version makes `get_fingerprint` fail inside the packet, and then the fingerprint
is empty. -/
theorem getFingerprint_status {p : Packet} {status : Status} {fp : Fingerprint}
    (h : getFingerprint H p = some (status, fp)) : status = .ok ∨ fp = [] := by
  unfold getFingerprint at h
  obtain ⟨version, hv, h⟩ := Option.bind_eq_some_iff.mp h
  split_ifs at h with h23 h4 h5
  · simp only [Option.bind_eq_bind, Option.bind_eq_some_iff] at h
    obtain ⟨_, _, _, _, _, _, _, _, h⟩ := h
    exact Or.inl (Prod.mk.inj (Option.some.inj h)).1.symm
  · exact Or.inl (Prod.mk.inj (Option.some.inj h)).1.symm
  · exact Or.inl (Prod.mk.inj (Option.some.inj h)).1.symm
  · exact Or.inr (Prod.mk.inj (Option.some.inj h)).2.symm

theorem fingerprint?_of_ne_nil {p : Packet} (h : fingerprintOf H p ≠ []) :
    fingerprint? H p = some (fingerprintOf H p) := by
  unfold fingerprintOf at h ⊢
  unfold fingerprint?
  cases hp : getFingerprint H p with
  | none =>
    rw [hp] at h
    exact absurd rfl h
  | some r =>
    obtain ⟨status, fp⟩ := r
    rw [hp] at h
    rcases getFingerprint_status hp with rfl | rfl
    · rfl
    · exact absurd rfl h

theorem hasSubkey_of_mem {k : PublicKey} {f : Fingerprint} (h : f ∈ keysubkeys H k) :
    HasSubkey H k f := by
  have hne : f ≠ [] := by
    simpa using List.mem_takeWhile_imp h
  obtain ⟨sp, hsp, rfl⟩ := List.mem_map.mp (List.takeWhile_subset _ h)
  exact ⟨sp, hsp, fingerprint?_of_ne_nil hne⟩

/-- The subkey index leads to every stored key that has subkeys, and lists them all. -/
def Tables.Complete (H : Hashes) (t : Tables) : Prop :=
  ∀ p k f, t.keydb p = some k → HasSubkey H k f →
    f ∈ keysubkeys H k ∧ (t.subkeydb f).isSome

theorem Tables.Sound.subkeysFound {t : Tables} (hs : t.Sound H) (hc : t.Complete H) :
    t.SubkeysFound H := by
  refine ⟨fun {f p k} hk hf => ?_, fun {f k} h => ?_⟩
  · cases hfetch : t.fetchKeyFp f with
    | some _ => rfl
    | none =>
      obtain ⟨o, ho⟩ := Option.isSome_iff_exists.mp (hc p k f hk hf).2
      obtain ⟨k', hk', _⟩ := hs.consistent.subkeydb_key ho
      unfold Tables.fetchKeyFp db4FetchKeyFp at hfetch
      split at hfetch
      · cases hfetch
      · rw [ho] at hfetch
        exact absurd (hk'.symm.trans hfetch) (by simp)
  · rcases Tables.fetchKeyFp_cases h with hk | ⟨_, p, hp, hk⟩
    · exact ⟨f, hk, Or.inl (hs.consistent.keydb_fp hk)⟩
    · obtain ⟨k', hk', hsk'⟩ := hs.consistent.subkeydb_key hp
      rw [hk] at hk'
      obtain rfl := Option.some.inj hk'
      exact ⟨p, hk, Or.inr (hasSubkey_of_mem hsk')⟩

/-- The index stays complete for the other keys when the subkeys that only `old` has go. -/
theorem Tables.Complete.minus {t : Tables} (hc : t.Complete H) {fp : Fingerprint}
    {old : PublicKey} {kept : List Fingerprint}
    (h : ∀ f ∈ keysubkeys H old, f ∉ kept → t.OnlyOwner H fp f) :
    ∀ p k f, (t.minus H fp old).keydb p = some k → HasSubkey H k f →
      f ∈ keysubkeys H k ∧ (((t.minus H fp old).subkeydb f).isSome ∨ f ∈ kept) := by
  intro p k f hk hf
  rw [keydb_minus] at hk
  unfold Table.del at hk
  split_ifs at hk with hp
  obtain ⟨hlist, hsome⟩ := hc p k f hk hf
  refine ⟨hlist, ?_⟩
  rw [subkeydb_minus]
  split_ifs with hold
  · by_cases hkept : f ∈ kept
    · exact Or.inr hkept
    · exact absurd (h f hold hkept p k hk hf) hp
  · exact Or.inl hsome

theorem Tables.Complete.plus {t : Tables} {fp : Fingerprint} {k : PublicKey} {keyid : UInt64}
    (hid : getKeyid H k = some keyid)
    (hall : ∀ f, HasSubkey H k f → f ∈ keysubkeys H k)
    (hc : ∀ p k' f, t.keydb p = some k' → HasSubkey H k' f →
      f ∈ keysubkeys H k' ∧ ((t.subkeydb f).isSome ∨ f ∈ keysubkeys H k)) :
    (t.plus H fp k keyid).Complete H := by
  intro p k' f hk' hf
  rw [keydb_plus] at hk'
  rw [subkeydb_plus t fp hid]
  unfold Table.put at hk'
  split_ifs at hk' with hp
  · obtain rfl := Option.some.inj hk'
    have hlist : f ∈ keysubkeys H k := hall f hf
    exact ⟨hlist, by simp [hlist]⟩
  · obtain ⟨hlist, hsome⟩ := hc p k' f hk' hf
    refine ⟨hlist, ?_⟩
    split_ifs with hnew
    · rfl
    · exact hsome.resolve_right hnew

theorem Tables.Complete.after {t : Tables} (hc : t.Complete H) (hs : t.Sound H) {c : Db4Call}
    (hu : c.UpdateRight H t) (hd : c.DeletesStored t) (hk : c.KeepsSubkeys H t) :
    (t.after H c).Complete H := by
  cases c with
  | store k u =>
    obtain ⟨hall, hkeep⟩ := hk
    rcases Tables.store_cases hu.noOverwrite with h | ⟨fp, keyid, hid, hf, ⟨_, _, h⟩ | ⟨htrue, h⟩⟩
    · rw [h]
      exact hc
    · rw [h]
      refine Tables.Complete.plus hid hall fun p k' f hk' hsub => ?_
      obtain ⟨hlist, hsome⟩ := hc p k' f hk' hsub
      exact ⟨hlist, Or.inl hsome⟩
    · change u = ((fingerprint? H k.publickey).bind t.keydb).isSome at hu
      rw [hf, htrue] at hu
      obtain ⟨old, hold⟩ := Option.isSome_iff_exists.mp hu.symm
      rw [h, hs.delete_stored hold]
      exact Tables.Complete.plus hid hall
        (hc.minus fun f hmem hnew => hkeep fp old hf hold f hmem hnew)
  | delete fp =>
    obtain ⟨old, hold⟩ := Option.isSome_iff_exists.mp hd
    rw [hs.delete_stored hold]
    intro p k f hkey hsub
    have hkeep : ∀ f ∈ keysubkeys H old, f ∉ [] → t.OnlyOwner H fp f :=
      fun f hmem _ => hk old hold f hmem
    obtain ⟨hlist, hsome⟩ := hc.minus hkeep p k f hkey hsub
    exact ⟨hlist, hsome.resolve_right (by simp)⟩

/-- Once the entries of a stored key are removed, nothing refers to it. -/
theorem Tables.Sound.unreferenced {t : Tables} (hs : t.Sound H) {p : Fingerprint}
    (h : t.keydb p = none) : t.Unreferenced p := by
  refine ⟨fun w => ?_, fun id => ?_, fun id => ?_, fun f hf => ?_, fun hash hh => ?_⟩
  · rw [← List.count_eq_zero, hs.exact.worddb w p, h]
    rfl
  · rw [← List.count_eq_zero, hs.exact.id32db id p, h]
    rfl
  · rw [← List.count_eq_zero, hs.exact.id64db id p, h]
    rfl
  · obtain ⟨k, hk, _⟩ := hs.consistent.subkeydb_key hf
    rw [h] at hk
    cases hk
  · obtain ⟨k, hk, _⟩ := hs.skshash hh
    rw [h] at hk
    cases hk

theorem Table.del_ne_self {α : Type} {t : Table α} {k : Fingerprint} (h : (t k).isSome) :
    t.del k ≠ t := by
  intro heq
  have hk : t.del k k = t k := by rw [heq]
  simp only [Table.del, if_true] at hk
  rw [← hk] at h
  cases h

/-- A removal under `fp` leaves what is filed under other fingerprints. -/
theorem filter_dups_foldl_del (fp : Fingerprint) (e : Entry) (es : List Entry) (t : Tables) :
    ((es.foldl (Tables.del · fp) t).dups e).filter (· ≠ fp) = (t.dups e).filter (· ≠ fp) := by
  induction es generalizing t with
  | nil => rfl
  | cons e' es ih =>
    rw [List.foldl_cons, ih, Tables.dups_del]
    split_ifs with he
    · rw [← List.erase_filter]
      exact List.erase_of_not_mem (by simp)
    · rfl

/-- In the tables with duplicates, a deletion of a stored key takes out its entries and no others. -/
theorem Tables.Sound.dups_minus {t : Tables} (hs : t.Sound H) {fp : Fingerprint} {k : PublicKey}
    (h : t.keydb fp = some k) : (t.minus H fp k).dups = (t.without fp).dups := by
  have hunreferenced := (hs.minus (Or.inl h)).unreferenced (keydb_minus_self t fp k)
  funext e
  have hgone : fp ∉ (t.minus H fp k).dups e := by
    cases e with
    | word w => exact hunreferenced.worddb w
    | id32 id => exact hunreferenced.id32db id
    | id64 id => exact hunreferenced.id64db id
    | subkey f => exact List.not_mem_nil
    | skshash hash => exact List.not_mem_nil
  have hwithout : (t.without fp).dups e = (t.dups e).filter (· ≠ fp) := by
    cases e <;> rfl
  have hself : ((t.minus H fp k).dups e).filter (· ≠ fp) = (t.minus H fp k).dups e := by
    rw [List.filter_eq_self]
    intro f hf
    apply decide_eq_true
    rintro rfl
    exact hgone hf
  rw [hwithout, ← hself]
  exact filter_dups_foldl_del fp e (keyEntries H k) t

/-- A deletion of a stored key takes it out with its entries, and with them all the entries of its
subkeys in the subkey index, whosever they are. -/
theorem Tables.Sound.minus_eq_without_iff {t : Tables} (hs : t.Sound H) {fp : Fingerprint}
    {k : PublicKey} (h : t.keydb fp = some k) :
    t.minus H fp k = t.without fp ↔
      ∀ f ∈ keysubkeys H k, t.subkeydb f = none ∨ t.subkeydb f = some fp := by
  constructor
  · intro heq f hf
    have hsub := subkeydb_minus (H := H) t fp k f
    rw [heq, if_pos hf] at hsub
    change (if t.subkeydb f = some fp then none else t.subkeydb f) = none at hsub
    split_ifs at hsub with hfp
    · exact Or.inr hfp
    · exact Or.inl hsub
  · intro hown
    refine Tables.ext_dups rfl (hs.dups_minus h) ?_ ?_
    · funext f
      rw [subkeydb_minus]
      change _ = if t.subkeydb f = some fp then none else t.subkeydb f
      have hfp : t.subkeydb f = some fp → f ∈ keysubkeys H k := by
        intro hf
        obtain ⟨k', hk', hsk'⟩ := hs.consistent.subkeydb_key hf
        obtain rfl := Option.some.inj (h.symm.trans hk')
        exact hsk'
      split_ifs with hmem hf hf
      · rfl
      · exact ((hown f hmem).resolve_right hf).symm
      · exact absurd (hfp hf) hmem
      · rfl
    · funext hash
      rw [skshashdb_minus]
      have hown' : t.skshashdb hash = some fp → hash = getSkshash H k := by
        intro hfp
        obtain ⟨k', hk', hsk'⟩ := hs.skshash hfp
        obtain rfl := Option.some.inj (h.symm.trans hk')
        exact hsk'.symm
      have hiff : hash = getSkshash H k ∧ t.skshashdb hash = some fp ↔
          t.skshashdb hash = some fp := and_iff_right_of_imp hown'
      simp only [hiff]
      rfl

theorem Tables.Sound.delete_primary_iff {t : Tables} (hs : t.Sound H) {fp : Fingerprint}
    {k : PublicKey} (h : t.keydb fp = some k) :
    AllOrNothing t (t.after H (.delete fp)) ↔
      ∀ f ∈ keysubkeys H k, t.subkeydb f = none ∨ t.subkeydb f = some fp := by
  rw [hs.delete_stored h, ← hs.minus_eq_without_iff h]
  have hstored : (t.keydb fp).isSome := by
    rw [h]
    rfl
  constructor
  · rintro (⟨p, hp, heq⟩ | heq)
    · have hdel : t.keydb.del fp = t.keydb.del p := congrArg (fun t' : Tables => t'.keydb) heq
      have hfp : p = fp := by
        by_contra hne
        have hat := congrFun hdel p
        simp only [Table.del, if_true, if_neg hne] at hat
        rw [hat] at hp
        cases hp
      rw [heq, hfp]
    · exact absurd (congrArg (fun t' : Tables => t'.keydb) heq) (Table.del_ne_self hstored)
  · intro heq
    exact Or.inl ⟨fp, hstored, heq⟩

/-- A subkey fingerprint takes the owner's subkeys out of the index and leaves the key. -/
theorem Tables.Sound.delete_subkey {t : Tables} (hs : t.Sound H) {fp p : Fingerprint}
    (hnone : t.keydb fp = none) (hp : t.subkeydb fp = some p) :
    ¬ AllOrNothing t (t.after H (.delete fp)) := by
  obtain ⟨k, hk, hmem⟩ := hs.consistent.subkeydb_key hp
  have hfetch : t.fetchKeyFp fp = some k := by
    unfold Tables.fetchKeyFp db4FetchKeyFp
    rw [hnone, hp]
    exact hk
  rw [Tables.after_delete hfetch (hs.keyid hfetch)]
  rintro (⟨p', hp', hwithout⟩ | heq)
  · have hkeydb : t.keydb.del fp = t.keydb.del p' := congrArg (fun t' : Tables => t'.keydb) hwithout
    rw [Table.del_of_none hnone] at hkeydb
    exact Table.del_ne_self hp' hkeydb.symm
  · have hsub := subkeydb_minus (H := H) t fp k fp
    rw [heq, hp] at hsub
    simp [hmem] at hsub

end Onak
