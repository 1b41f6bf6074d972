import Onak.KeyDbDb4
import Onak.Proofs.MergeLossProofs
import Onak.Proofs.UpdateProofs

/-!
# Proofs: the db4 backend

The tables of the db4 backend stay consistent under `db4_store_key`, which makes it a backend in the
sense of `Backend.Lawful`.
-/

namespace Onak

variable {H : Hashes}

theorem Table.foldl_del {α : Type} (l : List Fingerprint) (t : Table α) (x : Fingerprint) :
    l.foldl Table.del t x = if x ∈ l then none else t x := by
  induction l generalizing t with
  | nil => simp
  | cons y l ih =>
    rw [List.foldl_cons, ih]
    by_cases hl : x ∈ l
    · simp [hl]
    · by_cases hxy : x = y <;> simp [hl, hxy, Table.del]

theorem Table.foldl_put {α : Type} (l : List Fingerprint) (t : Table α) (v : α) (x : Fingerprint) :
    l.foldl (fun t k => t.put k v) t x = if x ∈ l then some v else t x := by
  induction l generalizing t with
  | nil => simp
  | cons y l ih =>
    rw [List.foldl_cons, ih]
    by_cases hl : x ∈ l
    · simp [hl]
    · by_cases hxy : x = y <;> simp [hl, hxy, Table.put]

theorem emptyDb4_consistent : emptyDb4.Consistent H where
  keydb_fp := fun h => absurd h (by simp [emptyDb4])
  keydb_keyid := fun h => absurd h (by simp [emptyDb4])
  subkeydb_key := fun h => absurd h (by simp [emptyDb4])

theorem db4FetchKeyFp_of_keydb {db : Db4} {f : Fingerprint} {k : PublicKey}
    (h : db.keydb f = some k) : db4FetchKeyFp db f = some k := by
  unfold db4FetchKeyFp
  rw [h]

/-- Deleting a stored key takes it and its subkeys out of the tables. -/
theorem Db4.Consistent.delete {db : Db4} (hc : db.Consistent H) {f : Fingerprint} {old : PublicKey}
    (h : db.keydb f = some old) :
    (db4DeleteKey H db f).Consistent H ∧ (db4DeleteKey H db f).keydb = db.keydb.del f := by
  have hid : ¬ (getKeyid H old).isNone = true := by
    obtain ⟨keyid, hkeyid⟩ := Option.isSome_iff_exists.mp (hc.keydb_keyid h)
    rw [hkeyid]
    simp
  have heq : db4DeleteKey H db f =
      ⟨db.keydb.del f, (keysubkeys H old).foldl Table.del db.subkeydb⟩ := by
    unfold db4DeleteKey
    rw [db4FetchKeyFp_of_keydb h]
    simp only [hid, if_false, Bool.false_eq_true]
  have hmem : ∀ {x k}, db.keydb.del f x = some k → db.keydb x = some k := by
    intro x k hx
    unfold Table.del at hx
    split_ifs at hx
    exact hx
  rw [heq]
  refine ⟨⟨fun h => hc.keydb_fp (hmem h), fun h => hc.keydb_keyid (hmem h), fun {s f'} hs => ?_⟩, rfl⟩
  simp only [Table.foldl_del] at hs
  split_ifs at hs with hso
  obtain ⟨k, hk, hsk⟩ := hc.subkeydb_key hs
  refine ⟨k, ?_, hsk⟩
  have hne : f' ≠ f := by
    rintro rfl
    rw [h] at hk
    obtain rfl := Option.some.inj hk
    exact hso hsk
  simp [Table.del, hne, hk]

theorem Db4.Consistent.put {db : Db4} (hc : db.Consistent H) {f : Fingerprint} {k : PublicKey}
    (h : db.keydb f = none) (hf : fingerprint? H k.publickey = some f)
    (hid : (getKeyid H k).isSome) :
    Db4.Consistent H ⟨db.keydb.put f (reread k),
      (keysubkeys H k).foldl (fun t fp => t.put fp f) db.subkeydb⟩ := by
  refine ⟨fun {x k'} hx => ?_, fun {x k'} hx => ?_, fun {s f'} hs => ?_⟩
  · simp only [Table.put] at hx
    split_ifs at hx with hxf
    · obtain rfl := Option.some.inj hx
      rw [hxf]
      exact hf
    · exact hc.keydb_fp hx
  · simp only [Table.put] at hx
    split_ifs at hx with hxf
    · obtain rfl := Option.some.inj hx
      exact hid
    · exact hc.keydb_keyid hx
  · simp only [Table.foldl_put] at hs
    split_ifs at hs with hsk
    · obtain rfl := Option.some.inj hs
      exact ⟨reread k, by simp [Table.put], hsk⟩
    · obtain ⟨k', hk', hsk'⟩ := hc.subkeydb_key hs
      have hne : f' ≠ f := by
        rintro rfl
        rw [h] at hk'
        exact absurd hk' (by simp)
      exact ⟨k', by simp [Table.put, hne, hk'], hsk'⟩

theorem db4StoreKey_spec {db : Db4} (hc : db.Consistent H) {f : Fingerprint} {k : PublicKey}
    {u : Bool} (hf : fingerprint? H k.publickey = some f) (hid : (getKeyid H k).isSome)
    (hu : u = (db.keydb f).isSome) :
    (db4StoreKey H db k u).Consistent H ∧
      ∀ x, (db4StoreKey H db k u).keydb x = if x = f then some (reread k) else db.keydb x := by
  obtain ⟨keyid, hkeyid⟩ := Option.isSome_iff_exists.mp hid
  unfold db4StoreKey
  rw [hkeyid, hf]
  cases hold : db.keydb f with
  | none =>
    have hu' : u = false := by rw [hu, hold]; rfl
    simp only [hu', Bool.false_eq_true, if_false]
    exact ⟨hc.put hold hf hid, fun x => rfl⟩
  | some old =>
    have hu' : u = true := by rw [hu, hold]; rfl
    obtain ⟨hc', hdel⟩ := hc.delete hold
    have hnone : (db4DeleteKey H db f).keydb f = none := by
      rw [hdel]
      simp [Table.del]
    simp only [hu', if_true]
    refine ⟨hc'.put hnone hf hid, fun x => ?_⟩
    rw [hdel]
    by_cases hx : x = f <;> simp [Table.put, Table.del, hx]

/-- The db4 backend does what updates rely on. -/
def db4Lawful (H : Hashes) : (db4 H).Lawful H where
  Inv := Db4.Consistent H
  stored := Db4.keydb
  reread := reread
  reread_packets := fun _ => rfl
  stored_fp := fun hc h => hc.keydb_fp h
  stored_keyid := fun hc h => hc.keydb_keyid h
  fetch_stored := fun _ h => db4FetchKeyFp_of_keydb h
  fetch_sound := by
    intro db f k hc h
    change db4FetchKeyFp db f = some k at h
    unfold db4FetchKeyFp at h
    split at h
    · rename_i key hkey
      obtain rfl := Option.some.inj h
      exact ⟨f, hkey, Or.inl rfl⟩
    · obtain ⟨p, hp, hk⟩ := Option.bind_eq_some_iff.mp h
      obtain ⟨k', hk', hsk⟩ := hc.subkeydb_key hp
      rw [hk] at hk'
      obtain rfl := Option.some.inj hk'
      exact ⟨p, hk, Or.inr hsk⟩
  store_no_keyid := by
    intro db k u h
    change db4StoreKey H db k u = db
    unfold db4StoreKey
    rw [h]
  store := fun hc hf hid hu => db4StoreKey_spec hc hf hid hu

/-! ## Samples -/

/-- The key `0807060504030201` with the given user ids. -/
def sampleOtherKey (uids : List SignedPacket) : PublicKey :=
  ⟨sampleKeyPacket tagPublickey [8, 7, 6, 5, 4, 3, 2, 1], false, [], uids, []⟩

/-- A database with one key. -/
def sampleDb4 (key : PublicKey) : Db4 := db4StoreKey sampleHashes emptyDb4 key false

theorem sampleDb4_consistent {key : PublicKey}
    (hf : (fingerprint? sampleHashes key.publickey).isSome)
    (hid : (getKeyid sampleHashes key).isSome) : (sampleDb4 key).Consistent sampleHashes := by
  obtain ⟨f, hf⟩ := Option.isSome_iff_exists.mp hf
  exact (db4StoreKey_spec emptyDb4_consistent hf hid rfl).1

/-- The key `0102030405060708` with the other key as its subkey. -/
def sampleOwner : PublicKey :=
  sampleKey [⟨sampleUid 65, []⟩] [⟨sampleKeyPacket tagPublicsubkey [8, 7, 6, 5, 4, 3, 2, 1], []⟩]

/-- An upload of a user id for a stored key and of a new key. -/
theorem genericUpdateKeys_meets_sample :
    UpdateMeets sampleHashes (db4Lawful sampleHashes) []
      (sampleDb4 (sampleKey [⟨sampleUid 65, []⟩] []))
      (genericUpdateKeys sampleHashes (db4 sampleHashes) zeroStale [] false true
        (sampleDb4 (sampleKey [⟨sampleUid 65, []⟩] []))
        [sampleKey [⟨sampleUid 66, []⟩] [], sampleOtherKey [⟨sampleUid 67, []⟩]]).db
      [sampleKey [⟨sampleUid 66, []⟩] [], sampleOtherKey [⟨sampleUid 67, []⟩]] := by
  refine (genericUpdateKeys_meets_iff (db4Lawful sampleHashes) [] true
    (sampleDb4_consistent (by decide) (by decide)) (by decide) (by decide)).mpr
    ⟨fun _ => ?_, fun _ => ?_, trivial⟩
  · exact ⟨by decide, Or.inl (by decide)⟩
  · show (getKeyid sampleHashes (sampleOtherKey [⟨sampleUid 67, []⟩])).isSome
    decide

/-- A key that is known as a subkey of another stored key is not stored. -/
theorem genericUpdateKeys_loses_subkey :
    (sampleDb4 sampleOwner).Consistent sampleHashes ∧
      (fingerprint? sampleHashes (sampleOtherKey [⟨sampleUid 67, []⟩]).publickey).isSome ∧
      ¬ UpdateMeets sampleHashes (db4Lawful sampleHashes) [] (sampleDb4 sampleOwner)
        (genericUpdateKeys sampleHashes (db4 sampleHashes) zeroStale [] false true
          (sampleDb4 sampleOwner) [sampleOtherKey [⟨sampleUid 67, []⟩]]).db
        [sampleOtherKey [⟨sampleUid 67, []⟩]] := by
  refine ⟨sampleDb4_consistent (by decide) (by decide), by decide, fun h => ?_⟩
  obtain ⟨k, hk, _⟩ := h.uploaded _ (List.mem_singleton_self _) (by simp)
  have hnone : ((genericUpdateKeys sampleHashes (db4 sampleHashes) zeroStale [] false true
      (sampleDb4 sampleOwner) [sampleOtherKey [⟨sampleUid 67, []⟩]]).db : Db4).keydb
      (fingerprintOf sampleHashes (sampleOtherKey [⟨sampleUid 67, []⟩]).publickey) = none := by
    decide
  exact absurd (hnone.symm.trans hk) (by simp)

end Onak
