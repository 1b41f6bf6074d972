import Onak.Db4Tables
import Onak.Proofs.Db4Proofs
import Onak.Proofs.WordListProofs

/-!
# Proofs: the tables of the db4 backend

What `db4_store_key` and `db4_delete_key` do to each table when all operations succeed, and from it
the invariants of the tables.
-/

namespace Onak

/-! ## Single entries -/

/-- Whether the table of the entry allows duplicates. -/
def Entry.isDup : Entry → Bool
  | .word _ => true
  | .id32 _ => true
  | .id64 _ => true
  | _ => false

/-- The fingerprints that are filed under an entry of a table with duplicates. -/
def Tables.dups (t : Tables) : Entry → List Fingerprint
  | .word w => t.worddb w
  | .id32 id => t.id32db id
  | .id64 id => t.id64db id
  | _ => []

theorem Tables.ext_dups {t t' : Tables} (hkey : t.keydb = t'.keydb) (hdups : t.dups = t'.dups)
    (hsub : t.subkeydb = t'.subkeydb) (hsks : t.skshashdb = t'.skshashdb) : t = t' := by
  obtain ⟨⟨keydb, subkeydb⟩, worddb, id32db, id64db, skshashdb⟩ := t
  have hword : worddb = t'.worddb := funext fun w => congrFun hdups (.word w)
  have hid32 : id32db = t'.id32db := funext fun id => congrFun hdups (.id32 id)
  have hid64 : id64db = t'.id64db := funext fun id => congrFun hdups (.id64 id)
  simp only at hkey hsub hsks
  rw [hkey, hsub, hsks, hword, hid32, hid64]

section

variable (t : Tables) (fp : Fingerprint)

theorem Tables.found_eq_count {e : Entry} (h : e.isDup) : t.found fp e = (t.dups e).count fp := by
  cases e with
  | subkey f => cases h
  | skshash hash => cases h
  | _ => rfl

@[simp] theorem Tables.keydb_del (e : Entry) : (t.del fp e).keydb = t.keydb := by
  cases e with
  | skshash hash =>
    simp only [Tables.del]
    split_ifs <;> rfl
  | _ => rfl

@[simp] theorem Tables.keydb_put (e : Entry) : (t.put fp e).keydb = t.keydb := by
  cases e <;> rfl

theorem Tables.dups_del (e e' : Entry) :
    (t.del fp e).dups e' = if e = e' then (t.dups e').erase fp else t.dups e' := by
  cases e <;> cases e' <;> simp only [Tables.del, Tables.dups, Function.update_apply] <;> grind

theorem Tables.dups_put (e e' : Entry) :
    (t.put fp e).dups e' = if e = e' ∧ e.isDup then t.dups e' ++ [fp] else t.dups e' := by
  cases e <;> cases e' <;> simp only [Tables.put, Tables.dups, Function.update_apply] <;>
    grind [Entry.isDup]

theorem Tables.subkeydb_del (e : Entry) (f : Fingerprint) :
    (t.del fp e).subkeydb f = if e = .subkey f then none else t.subkeydb f := by
  cases e <;> simp only [Tables.del, Table.del] <;> grind

theorem Tables.subkeydb_put (e : Entry) (f : Fingerprint) :
    (t.put fp e).subkeydb f = if e = .subkey f then some fp else t.subkeydb f := by
  cases e <;> simp only [Tables.put, Table.put] <;> grind

theorem Tables.skshashdb_del (e : Entry) (hash : List UInt8) :
    (t.del fp e).skshashdb hash =
      if e = .skshash hash ∧ t.skshashdb hash = some fp then none else t.skshashdb hash := by
  cases e with
  | skshash hash' =>
    simp only [Tables.del]
    split_ifs with hs h h
    · simp [(Entry.skshash.inj h.1)]
    · have hne : hash ≠ hash' := by
        rintro rfl
        exact h ⟨rfl, hs⟩
      simp [Function.update_of_ne hne]
    · obtain rfl := Entry.skshash.inj h.1
      exact absurd h.2 hs
    · rfl
  | _ => simp [Tables.del]

theorem Tables.skshashdb_put (e : Entry) (hash : List UInt8) :
    (t.put fp e).skshashdb hash = if e = .skshash hash then some fp else t.skshashdb hash := by
  cases e <;> simp only [Tables.put, Function.update_apply] <;> grind

/-- A removal takes one entry of the fingerprint away. -/
theorem Tables.found_del (e e' : Entry) :
    (t.del fp e).found fp e' = t.found fp e' - if e = e' then 1 else 0 := by
  cases e' with
  | subkey f =>
    simp only [Tables.found, Tables.subkeydb_del]
    grind
  | skshash hash =>
    simp only [Tables.found, Tables.skshashdb_del]
    grind
  | _ =>
    rw [Tables.found_eq_count _ _ rfl, Tables.found_eq_count _ _ rfl, Tables.dups_del]
    split_ifs
    · rw [List.count_erase_self]
    · rfl

theorem Tables.del_of_found_eq_zero {e : Entry} (h : t.found fp e = 0) : t.del fp e = t := by
  refine Tables.ext_dups (t.keydb_del fp e) (funext fun e' => ?_) (funext fun f => ?_)
    (funext fun hash => ?_)
  · rw [Tables.dups_del]
    split_ifs with he
    · subst he
      cases hd : e.isDup with
      | true =>
        rw [Tables.found_eq_count t fp hd] at h
        exact List.erase_of_not_mem (List.count_eq_zero.mp h)
      | false => cases e <;> first | rfl | cases hd
    · rfl
  · rw [Tables.subkeydb_del]
    split_ifs with he
    · subst he
      have hnone : ¬ (t.subkeydb f).isSome = true := by
        simpa [Tables.found] using h
      exact (Option.not_isSome_iff_eq_none.mp hnone).symm
    · rfl
  · rw [Tables.skshashdb_del]
    split_ifs with he
    · obtain ⟨rfl, hs⟩ := he
      simp [Tables.found, hs] at h
    · rfl

end

/-! ## Lists of entries -/

section

variable (fp : Fingerprint) (es : List Entry) (t : Tables)

@[simp] theorem keydb_foldl_del : (es.foldl (Tables.del · fp) t).keydb = t.keydb := by
  induction es generalizing t with
  | nil => rfl
  | cons e es ih => rw [List.foldl_cons, ih, Tables.keydb_del]

@[simp] theorem keydb_foldl_put : (es.foldl (Tables.put · fp) t).keydb = t.keydb := by
  induction es generalizing t with
  | nil => rfl
  | cons e es ih => rw [List.foldl_cons, ih, Tables.keydb_put]

theorem subkeydb_foldl_del (f : Fingerprint) :
    (es.foldl (Tables.del · fp) t).subkeydb f =
      if Entry.subkey f ∈ es then none else t.subkeydb f := by
  induction es generalizing t with
  | nil => simp
  | cons e es ih =>
    rw [List.foldl_cons, ih, Tables.subkeydb_del]
    simp only [List.mem_cons]
    grind

theorem subkeydb_foldl_put (f : Fingerprint) :
    (es.foldl (Tables.put · fp) t).subkeydb f =
      if Entry.subkey f ∈ es then some fp else t.subkeydb f := by
  induction es generalizing t with
  | nil => simp
  | cons e es ih =>
    rw [List.foldl_cons, ih, Tables.subkeydb_put]
    simp only [List.mem_cons]
    grind

theorem skshashdb_foldl_del (hash : List UInt8) :
    (es.foldl (Tables.del · fp) t).skshashdb hash =
      if Entry.skshash hash ∈ es ∧ t.skshashdb hash = some fp then none
      else t.skshashdb hash := by
  induction es generalizing t with
  | nil => simp
  | cons e es ih =>
    rw [List.foldl_cons, ih, Tables.skshashdb_del]
    simp only [List.mem_cons]
    grind

theorem skshashdb_foldl_put (hash : List UInt8) :
    (es.foldl (Tables.put · fp) t).skshashdb hash =
      if Entry.skshash hash ∈ es then some fp else t.skshashdb hash := by
  induction es generalizing t with
  | nil => simp
  | cons e es ih =>
    rw [List.foldl_cons, ih, Tables.skshashdb_put]
    simp only [List.mem_cons]
    grind

/-- The removals take away as many entries of their fingerprint as they name. -/
theorem count_dups_foldl_del (fp' : Fingerprint) (e' : Entry) :
    ((es.foldl (Tables.del · fp) t).dups e').count fp' =
      (t.dups e').count fp' - if fp' = fp then es.count e' else 0 := by
  induction es generalizing t with
  | nil => simp
  | cons e es ih =>
    rw [List.foldl_cons, ih, Tables.dups_del, List.count_cons]
    by_cases hfp : fp' = fp
    · subst hfp
      by_cases he : e = e'
      · subst he
        simp [List.count_erase_self]
        omega
      · simp [he]
    · by_cases he : e = e'
      · simp [he, hfp, List.count_erase_of_ne hfp]
      · simp [he, hfp]

theorem count_dups_foldl_put (fp' : Fingerprint) {e' : Entry} (he' : e'.isDup) :
    ((es.foldl (Tables.put · fp) t).dups e').count fp' =
      (t.dups e').count fp' + if fp' = fp then es.count e' else 0 := by
  induction es generalizing t with
  | nil => simp
  | cons e es ih =>
    rw [List.foldl_cons, ih, Tables.dups_put, List.count_cons]
    by_cases he : e = e'
    · subst he
      by_cases hfp : fp' = fp
      · subst hfp
        simp [he']
        omega
      · simp [hfp, Ne.symm hfp, he']
    · simp [he]

end

/-! ## Calls whose operations all succeed -/

section

variable {op : Txn → Nat → Entry → Ret × Txn} {f : Tables → Entry → Tables}

theorem untilDeadlock_quiet
    (h : ∀ txn i e, (op txn i e).1 ≠ .deadlock ∧ (op txn i e).2.tables = f txn.tables e)
    (i : Nat) (es : List Entry) (txn : Txn) :
    (untilDeadlock op i es txn).1 = false ∧
      (untilDeadlock op i es txn).2.tables = es.foldl f txn.tables := by
  induction es generalizing i txn with
  | nil => exact ⟨rfl, rfl⟩
  | cons e es ih =>
    obtain ⟨hret, htables⟩ := h txn i e
    rw [untilDeadlock, List.foldl_cons, ← htables]
    split
    · rename_i hop
      rw [hop] at hret
      exact absurd rfl hret
    · rename_i hop
      rw [hop]
      exact ih _ _

theorem throughDeadlock_quiet
    (h : ∀ txn i e, (op txn i e).1 ≠ .deadlock ∧ (op txn i e).2.tables = f txn.tables e)
    (i : Nat) (es : List Entry) (txn : Txn) :
    (throughDeadlock op i es txn).1 = false ∧
      (throughDeadlock op i es txn).2.tables = es.foldl f txn.tables := by
  induction es generalizing i txn with
  | nil => exact ⟨rfl, rfl⟩
  | cons e es ih =>
    obtain ⟨hret, htables⟩ := h txn i e
    obtain ⟨hrest, hrest'⟩ := ih (i + 1) (op txn i e).2
    rw [throughDeadlock, List.foldl_cons, ← htables]
    exact ⟨by simp [hret, hrest], hrest'⟩

end

section

variable (fp : Fingerprint)

theorem Txn.remove_quiet (txn : Txn) (i : Nat) (e : Entry) :
    (txn.remove (fun _ => false) fp i e).1 ≠ .deadlock ∧
      (txn.remove (fun _ => false) fp i e).2.tables = txn.tables.del fp e := by
  by_cases hfound : txn.tables.found fp e = 0
  · have hdel := txn.tables.del_of_found_eq_zero fp hfound
    cases hcur : e.byCursor <;> simp [Txn.remove, hcur, hfound, hdel]
  · simp [Txn.remove, hfound]

theorem Txn.insert_quiet (txn : Txn) (i : Nat) (e : Entry) :
    (txn.insert (fun _ => false) fp i e).1 ≠ .deadlock ∧
      (txn.insert (fun _ => false) fp i e).2.tables = txn.tables.put fp e := by
  simp [Txn.insert]

theorem Txn.fetchKeyFp_quiet (txn : Txn) :
    txn.fetchKeyFp (fun _ => false) fp = txn.tables.fetchKeyFp fp := by
  unfold Txn.fetchKeyFp Tables.fetchKeyFp db4FetchKeyFp
  simp only [Bool.false_eq_true, if_false]
  cases txn.tables.keydb fp with
  | some key => rfl
  | none => cases txn.tables.subkeydb fp <;> rfl

theorem Table.del_of_none {α : Type} {t : Table α} {k : Fingerprint} (h : t k = none) :
    t.del k = t := by
  funext x
  by_cases hx : x = k
  · simp [Table.del, hx, h]
  · simp [Table.del, hx]

theorem Txn.delKey_quiet (txn : Txn) :
    (txn.delKey (fun _ => false) fp).tables =
      { txn.tables with keydb := txn.tables.keydb.del fp } := by
  unfold Txn.delKey
  cases h : txn.tables.keydb fp with
  | none => simp [Table.del_of_none h]
  | some key => simp

end

variable {H : Hashes}

/-- The tables when the entries of the key `k` are removed under the fingerprint `fp`. -/
def Tables.minus (H : Hashes) (t : Tables) (fp : Fingerprint) (k : PublicKey) : Tables :=
  { (keyEntries H k).foldl (Tables.del · fp) t with keydb := t.keydb.del fp }

/-- The tables when the key `k` is added under the fingerprint `fp`. -/
def Tables.plus (H : Hashes) (t : Tables) (fp : Fingerprint) (k : PublicKey) (keyid : UInt64) :
    Tables :=
  (newEntries H k keyid).foldl (Tables.put · fp) { t with keydb := t.keydb.put fp (reread k) }

theorem Txn.deleteKey_quiet (txn : Txn) {fp : Fingerprint} {k : PublicKey}
    (h : txn.tables.fetchKeyFp fp = some k) (hid : (getKeyid H k).isSome) :
    (txn.deleteKey (fun _ => false) fp H).1 ≠ -1 ∧
      (txn.deleteKey (fun _ => false) fp H).2.tables = txn.tables.minus H fp k := by
  obtain ⟨keyid, hkeyid⟩ := Option.isSome_iff_exists.mp hid
  have hops := Txn.remove_quiet fp
  obtain ⟨hw, hwt⟩ := untilDeadlock_quiet (f := (Tables.del · fp)) hops 0 (wordEntries k) txn
  obtain ⟨hi, hit⟩ := throughDeadlock_quiet (f := (Tables.del · fp)) hops (wordEntries k).length
    (keyidEntries keyid ++ subkeyRemovals H k)
    (untilDeadlock (Txn.remove (fun _ => false) fp) 0 (wordEntries k) txn).2
  obtain ⟨hs, hst⟩ := hops
    (throughDeadlock (Txn.remove (fun _ => false) fp) (wordEntries k).length
      (keyidEntries keyid ++ subkeyRemovals H k)
      (untilDeadlock (Txn.remove (fun _ => false) fp) 0 (wordEntries k) txn).2).2
    ((wordEntries k).length + (keyidEntries keyid ++ subkeyRemovals H k).length)
    (skshashEntry H k)
  have hentries : keyEntries H k =
      wordEntries k ++ ((keyidEntries keyid ++ subkeyRemovals H k) ++ [skshashEntry H k]) := by
    simp [keyEntries, idEntries, hkeyid]
  unfold Txn.deleteKey
  rw [Txn.fetchKeyFp_quiet, h]
  simp only [hkeyid, hw, hi, hs, Bool.false_eq_true, if_false]
  refine ⟨by split_ifs <;> simp, ?_⟩
  rw [Txn.delKey_quiet, hst, hit, hwt, Tables.minus, hentries]
  simp [List.foldl_append]

theorem Txn.deleteKey_none (txn : Txn) {fp : Fingerprint}
    (h : txn.tables.fetchKeyFp fp = none) :
    txn.deleteKey (fun _ => false) fp H = (1, txn) := by
  unfold Txn.deleteKey
  rw [Txn.fetchKeyFp_quiet, h]

theorem Txn.deleteKey_no_keyid (txn : Txn) {fp : Fingerprint} {k : PublicKey}
    (h : txn.tables.fetchKeyFp fp = some k) (hid : getKeyid H k = none) :
    txn.deleteKey (fun _ => false) fp H = (1, txn) := by
  unfold Txn.deleteKey
  rw [Txn.fetchKeyFp_quiet, h]
  simp only [hid]

theorem Txn.deleteKey_rc (txn : Txn) (fp : Fingerprint) :
    (txn.deleteKey (fun _ => false) fp H).1 ≠ -1 := by
  cases hfetch : txn.tables.fetchKeyFp fp with
  | none => simp [Txn.deleteKey_none txn hfetch]
  | some old =>
    cases hold : getKeyid H old with
    | none => simp [Txn.deleteKey_no_keyid txn hfetch hold]
    | some _ => exact (Txn.deleteKey_quiet txn hfetch (by simp [hold])).1

theorem Txn.addKey_quiet (txn : Txn) (fp : Fingerprint) (k : PublicKey) (keyid : UInt64) :
    (txn.addKey (fun _ => false) fp H k keyid).2.tables = txn.tables.plus H fp k keyid := by
  have hops := Txn.insert_quiet fp
  obtain ⟨hh, hht⟩ := untilDeadlock_quiet (f := (Tables.put · fp)) hops 0
    (wordEntries k ++ keyidEntries keyid) (txn.putKey fp (reread k))
  obtain ⟨hs, hst⟩ := throughDeadlock_quiet (f := (Tables.put · fp)) hops
    (wordEntries k ++ keyidEntries keyid).length (subkeyInsertions H k)
    (untilDeadlock (Txn.insert (fun _ => false) fp) 0 (wordEntries k ++ keyidEntries keyid)
      (txn.putKey fp (reread k))).2
  unfold Txn.addKey
  simp only [hh, hs, Bool.false_eq_true, if_false]
  rw [(hops _ _ _).2, hst, hht, Tables.plus, newEntries]
  simp only [List.foldl_append]
  rfl

theorem Tables.after_delete {t : Tables} {fp : Fingerprint} {k : PublicKey}
    (h : t.fetchKeyFp fp = some k) (hid : (getKeyid H k).isSome) :
    t.after H (.delete fp) = t.minus H fp k :=
  (Txn.deleteKey_quiet (starttrans t) h hid).2

theorem Tables.after_delete_none {t : Tables} {fp : Fingerprint} (h : t.fetchKeyFp fp = none) :
    t.after H (.delete fp) = t := by
  show ((starttrans t).deleteKey (fun _ => false) fp H).2.tables = t
  rw [Txn.deleteKey_none (starttrans t) h]
  rfl

theorem Tables.after_store_new (t : Tables) {fp : Fingerprint} {k : PublicKey} {keyid : UInt64}
    (hid : getKeyid H k = some keyid) (hf : fingerprint? H k.publickey = some fp) :
    t.after H (.store k false) = t.plus H fp k keyid := by
  show ((starttrans t).storeKey (fun _ => false) H k false).2.tables = _
  unfold Txn.storeKey
  rw [hid, hf]
  simp only [Bool.false_eq_true, if_false]
  exact Txn.addKey_quiet (starttrans t) fp k keyid

/-- An update deletes the old key and adds the new one. -/
theorem Tables.after_store_update (t : Tables) {fp : Fingerprint} {k : PublicKey}
    {keyid : UInt64} (hid : getKeyid H k = some keyid)
    (hf : fingerprint? H k.publickey = some fp) :
    t.after H (.store k true) = (t.after H (.delete fp)).plus H fp k keyid := by
  show ((starttrans t).storeKey (fun _ => false) H k true).2.tables = _
  unfold Txn.storeKey
  rw [hid, hf]
  simp only [if_true, Txn.deleteKey_rc, if_false]
  exact Txn.addKey_quiet _ fp k keyid

theorem Tables.after_store_none (t : Tables) {k : PublicKey} (u : Bool)
    (h : getKeyid H k = none ∨ fingerprint? H k.publickey = none) :
    t.after H (.store k u) = t := by
  show ((starttrans t).storeKey (fun _ => false) H k u).2.tables = t
  unfold Txn.storeKey
  cases h with
  | inl h =>
    rw [h]
    rfl
  | inr h =>
    rw [h]
    cases getKeyid H k <;> rfl

/-! ## The entries of a key -/

theorem subkey_mem_keyEntries {k : PublicKey} {f : Fingerprint} :
    Entry.subkey f ∈ keyEntries H k ↔ f ∈ keysubkeys H k := by
  simp [keyEntries, wordEntries, idEntries, keyidEntries, subkeyRemovals, skshashEntry]

theorem skshash_mem_keyEntries {k : PublicKey} {hash : List UInt8} :
    Entry.skshash hash ∈ keyEntries H k ↔ hash = getSkshash H k := by
  simp [keyEntries, wordEntries, idEntries, keyidEntries, subkeyRemovals, skshashEntry]

/-- Storing puts what deleting removes, in another order. -/
theorem newEntries_perm {k : PublicKey} {keyid : UInt64} (hid : getKeyid H k = some keyid) :
    (newEntries H k keyid).Perm (keyEntries H k) := by
  have hsub : (subkeyInsertions H k).Perm (subkeyRemovals H k) := by
    refine List.Perm.flatMap_left _ fun f _ => ?_
    exact (List.Perm.swap _ _ _).cons _
  have hentries : keyEntries H k =
      (wordEntries k ++ keyidEntries keyid) ++ (subkeyRemovals H k ++ [skshashEntry H k]) := by
    simp [keyEntries, idEntries, hid]
  rw [hentries]
  exact (hsub.append_right _).append_left _

theorem toDb4_minus (t : Tables) (fp : Fingerprint) (k : PublicKey) :
    (t.minus H fp k).toDb4 =
      ⟨t.keydb.del fp, (keysubkeys H k).foldl Table.del t.subkeydb⟩ := by
  have hsub : (t.minus H fp k).subkeydb = (keysubkeys H k).foldl Table.del t.subkeydb := by
    funext f
    rw [Table.foldl_del]
    show ((keyEntries H k).foldl (Tables.del · fp) t).subkeydb f = _
    rw [subkeydb_foldl_del]
    simp only [subkey_mem_keyEntries]
  rw [← hsub]
  rfl

theorem toDb4_plus (t : Tables) (fp : Fingerprint) {k : PublicKey} {keyid : UInt64}
    (hid : getKeyid H k = some keyid) :
    (t.plus H fp k keyid).toDb4 =
      ⟨t.keydb.put fp (reread k),
        (keysubkeys H k).foldl (fun t f => t.put f fp) t.subkeydb⟩ := by
  have hkey : (t.plus H fp k keyid).keydb = t.keydb.put fp (reread k) := by
    simp [Tables.plus]
  have hsub : (t.plus H fp k keyid).subkeydb =
      (keysubkeys H k).foldl (fun t f => t.put f fp) t.subkeydb := by
    funext f
    rw [Table.foldl_put, Tables.plus, subkeydb_foldl_put]
    simp only [(newEntries_perm hid).mem_iff, subkey_mem_keyEntries]
  rw [← hkey, ← hsub]

/-- On the key data and the subkeys, a deletion is the one of `Onak.KeyDbDb4`. -/
theorem toDb4_after_delete (t : Tables) (fp : Fingerprint) :
    (t.after H (.delete fp)).toDb4 = db4DeleteKey H t.toDb4 fp := by
  unfold db4DeleteKey
  cases hfetch : db4FetchKeyFp t.toDb4 fp with
  | none => rw [Tables.after_delete_none hfetch]
  | some k =>
    cases hid : getKeyid H k with
    | none =>
      have h := Txn.deleteKey_no_keyid (starttrans t) hfetch hid
      show ((starttrans t).deleteKey (fun _ => false) fp H).2.tables.toDb4 = _
      rw [h]
      simp [hid, starttrans]
    | some keyid =>
      rw [Tables.after_delete hfetch (by simp [hid]), toDb4_minus]
      simp [hid]

/-- On the key data and the subkeys, storing is `db4StoreKey`. -/
theorem toDb4_after_store (t : Tables) (k : PublicKey) (u : Bool) :
    (t.after H (.store k u)).toDb4 = db4StoreKey H t.toDb4 k u := by
  unfold db4StoreKey
  cases hid : getKeyid H k with
  | none => rw [Tables.after_store_none t u (Or.inl hid)]
  | some keyid =>
    cases hf : fingerprint? H k.publickey with
    | none => rw [Tables.after_store_none t u (Or.inr hf)]
    | some fp =>
      cases u with
      | false =>
        rw [Tables.after_store_new t hid hf, toDb4_plus t fp hid]
        rfl
      | true =>
        rw [Tables.after_store_update t hid hf, toDb4_plus _ fp hid]
        simp only [if_true, ← toDb4_after_delete]

variable (H) in
/-- A call, on the key data and the subkeys alone. -/
def db4Call (db : Db4) : Db4Call → Db4
  | .store key update => db4StoreKey H db key update
  | .delete fp => db4DeleteKey H db fp

theorem toDb4_after (t : Tables) (c : Db4Call) : (t.after H c).toDb4 = db4Call H t.toDb4 c := by
  cases c with
  | store key update => exact toDb4_after_store t key update
  | delete fp => exact toDb4_after_delete t fp

theorem toDb4_foldl_after (t : Tables) (calls : List Db4Call) :
    (calls.foldl (Tables.after H) t).toDb4 = calls.foldl (db4Call H) t.toDb4 := by
  induction calls generalizing t with
  | nil => rfl
  | cons c calls ih =>
    rw [List.foldl_cons, List.foldl_cons, ih, toDb4_after]

/-- **The tables refine the key data.** After any calls the six tables hold the key data and the subkeys
that `db4StoreKey` and `db4DeleteKey` leave, and a fingerprint is looked up with the same result. -/
theorem toDb4_afterAll (calls : List Db4Call) (fp : Fingerprint) :
    (Tables.afterAll H calls).toDb4 = calls.foldl (db4Call H) emptyDb4 ∧
      (Tables.afterAll H calls).fetchKeyFp fp = db4FetchKeyFp (calls.foldl (db4Call H) emptyDb4) fp := by
  have htables : (Tables.afterAll H calls).toDb4 = calls.foldl (db4Call H) emptyDb4 :=
    toDb4_foldl_after emptyTables calls
  exact ⟨htables, congrArg (db4FetchKeyFp · fp) htables⟩

end Onak
