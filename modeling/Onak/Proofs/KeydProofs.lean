import Onak.Keyd
import Onak.Proofs.Db4Proofs

/-!
# Proofs: clients of one keyd server

A backend behind keyd is still a backend, so everything that holds of updates holds of updates
through keyd, as long as one client runs alone. With several clients, an update is lost when a
client stores a key that it merged into an older version than the one that is stored by then; if
this never happens in a run, the stored key only grows.
-/

namespace Onak

variable {H : Hashes} {g : Stale}

/-- A backend behind keyd is a backend. -/
def keydLawful {B : Backend} (L : B.Lawful H) : (keyd H B).Lawful H where
  Inv := L.Inv
  stored := fun db f => (L.stored db f).map reread
  reread := fun k => reread (L.reread (reread k))
  reread_packets := by
    intro k
    rw [L.reread_packets]
    rfl
  stored_fp := by
    intro db f k hI h
    obtain ⟨k', hk', rfl⟩ := Option.map_eq_some_iff.mp h
    have h' : fingerprint? H k'.publickey = some f := L.stored_fp hI hk'
    exact h'
  stored_keyid := by
    intro db f k hI h
    obtain ⟨k', hk', rfl⟩ := Option.map_eq_some_iff.mp h
    have h' : (getKeyid H k').isSome := L.stored_keyid hI hk'
    exact h'
  fetch_stored := by
    intro db f k hI h
    obtain ⟨k', hk', rfl⟩ := Option.map_eq_some_iff.mp h
    show (B.fetchKeyFp db f).map reread = some (reread k')
    rw [L.fetch_stored hI hk']
    rfl
  fetch_sound := by
    intro db f k hI h
    obtain ⟨k', hk', rfl⟩ := Option.map_eq_some_iff.mp h
    obtain ⟨f', hf', hor⟩ := L.fetch_sound hI hk'
    refine ⟨f', ?_, hor⟩
    rw [hf']
    rfl
  store_no_keyid := by
    intro db k u h
    have hreq : keydStoreKey H k u = none := by
      unfold keydStoreKey
      rw [h]
    simp only [keyd, hreq]
    rfl
  store := by
    intro db f k u hI hf hid hu
    obtain ⟨keyid, hkeyid⟩ := Option.isSome_iff_exists.mp hid
    have hst : (keyd H B).storeKey db k u = B.storeKey db (reread k) u := by
      cases u <;> simp [keyd, keydStoreKey, hkeyid, sockDo]
    obtain ⟨hI', hstored⟩ := L.store hI (k := reread k) hf hid (u := u) (by simpa using hu)
    rw [hst]
    refine ⟨hI', fun f' => ?_⟩
    rw [hstored f']
    by_cases hf' : f' = f <;> simp [hf']

section

variable {C : Backend} {ι : Type} [DecidableEq ι] {updateonly : Bool} {upload : ι → PublicKey}

variable (L : C.Lawful H) (f : Fingerprint) (orig : PublicKey)

/-- The invariant of runs in which no client stores over what it has not seen: the stored key
carries the original one, all that was fetched, and the uploads of the clients that are done. -/
structure RunInv (upload : ι → PublicKey) (s : Clients C ι) (k : PublicKey) : Prop where
  inv : L.Inv s.db
  stored : L.stored s.db f = some k
  publickey : k.publickey = orig.publickey
  orig : Carries orig k
  fetched : ∀ {i oldkey}, s.client i = .fetched oldkey → ∃ old, oldkey = some old ∧ Carries old k
  done : ∀ {i}, s.client i = .done → Carries (upload i) k

variable {L f orig} (hfp : ∀ i, fingerprint? H (upload i).publickey = some f)
  (hid : ∀ i, getKeyid H (upload i) = getKeyid H orig)
include hfp

theorem RunInv.fetch {s : Clients C ι} {k : PublicKey} (h : RunInv L f orig upload s k) (i : ι) :
    RunInv L f orig upload (s.fetch H upload i) k := by
  have hk : C.fetchKeyFp s.db (fingerprintOf H (upload i).publickey) = some k := by
    rw [fingerprintOf_eq (hfp i)]
    exact L.fetch_stored h.inv h.stored
  refine ⟨h.inv, h.stored, h.publickey, h.orig, fun {j oldkey} hj => ?_, fun {j} hj => ?_⟩
  · by_cases hji : j = i
    · subst hji
      simp only [Clients.fetch, Function.update_self, Client.fetched.injEq] at hj
      exact ⟨k, by rw [← hj, hk], Carries.refl k⟩
    · simp only [Clients.fetch, Function.update_of_ne hji] at hj
      exact h.fetched hj
  · by_cases hji : j = i
    · subst hji
      simp [Clients.fetch] at hj
    · simp only [Clients.fetch, Function.update_of_ne hji] at hj
      exact h.done hj

include hid

theorem RunInv.finish {s : Clients C ι} {k : PublicKey} (h : RunInv L f orig upload s k) {i : ι}
    {oldkey : Option PublicKey} (hi : s.client i = .fetched oldkey)
    (hcur : Current H g updateonly upload s i oldkey) :
    ∃ k', RunInv L f orig upload (s.finish H g updateonly upload i oldkey) k' := by
  obtain ⟨old, rfl, hold⟩ := h.fetched hi
  -- whatever the new entry is, it carries the old one and the upload
  suffices hstep : ∃ k', L.Inv (s.finish H g updateonly upload i (some old)).db ∧
      L.stored (s.finish H g updateonly upload i (some old)).db f = some k' ∧
      k'.publickey = orig.publickey ∧ Carries k k' ∧ Carries (upload i) k' by
    obtain ⟨k', hI', hst', hpk', hk', hup⟩ := hstep
    refine ⟨k', hI', hst', hpk', h.orig.trans hk', fun {j oldkey} hj => ?_, fun {j} hj => ?_⟩
    · by_cases hji : j = i
      · subst hji
        simp [Clients.finish] at hj
      · simp only [Clients.finish, Function.update_of_ne hji] at hj
        obtain ⟨o, ho, hok⟩ := h.fetched hj
        exact ⟨o, ho, hok.trans hk'⟩
    · by_cases hji : j = i
      · subst hji
        exact hup
      · simp only [Clients.finish, Function.update_of_ne hji] at hj
        exact (h.done hj).trans hk'
  by_cases hst : (updateAction H g updateonly (some old) (upload i)).store.isSome
  · have hold' := hcur hst
    rw [fingerprintOf_eq (hfp i), L.fetch_stored h.inv h.stored] at hold'
    obtain rfl := Option.some.inj hold'
    have hsame : SameKeyid H k (upload i) := by
      refine ⟨L.stored_keyid h.inv h.stored, ?_⟩
      rw [hid i, getKeyid_congr h.publickey]
    obtain ⟨hI', _, k', hk', hpk', hc, hcarry⟩ := apply_old (g := g) L h.inv (upload i)
      updateonly (L.stored_fp h.inv h.stored) h.stored
    exact ⟨k', hI', hk', hpk'.trans h.publickey, hc, hcarry.mpr (Or.inl hsame)⟩
  · have hnone : (updateAction H g updateonly (some old) (upload i)).store = none := by simpa using hst
    have hdb : (s.finish H g updateonly upload i (some old)).db = s.db := by
      simp only [Clients.finish, applyAction, hnone]
    rw [hdb]
    refine ⟨k, h.inv, h.stored, h.publickey, Carries.refl k, Carries.trans ?_ hold⟩
    unfold updateAction at hnone
    simp only at hnone
    split_ifs at hnone with hd
    exact carries_of_diff_nil hd.2.1 hd.2.2

theorem RunInv.run {s t : Clients C ι} (hrun : Relation.ReflTransGen
      (CurrentStep H g updateonly upload) s t) {k : PublicKey} (h : RunInv L f orig upload s k) :
    ∃ k', RunInv L f orig upload t k' := by
  induction hrun with
  | refl => exact ⟨k, h⟩
  | tail _ hstep ih =>
    obtain ⟨k', hk'⟩ := ih
    cases hstep with
    | fetch _ => exact ⟨k', hk'.fetch hfp _⟩
    | finish hi hcur => exact hk'.finish hfp hid hi hcur

end

/-- **No update is lost.** Clients of one keyd server upload keys for the same stored key. In every
run in which no client stores over a version that it has not seen, the stored key carries, in every
state, the user ids and subkeys of the original key and of all uploads that are finished. -/
theorem keyd_uploads_kept {B : Backend} (L : B.Lawful H) {ι : Type} [DecidableEq ι]
    {upload : ι → PublicKey} (db : (keyd H B).DB) {f : Fingerprint} {orig : PublicKey}
    (updateonly : Bool)
    (hI : L.Inv db) (horig : L.stored db f = some orig)
    (hfp : ∀ i, fingerprint? H (upload i).publickey = some f)
    (hid : ∀ i, getKeyid H (upload i) = getKeyid H orig) {s : Clients (keyd H B) ι}
    (hrun : Relation.ReflTransGen (CurrentStep H g updateonly upload) (Clients.init db) s) :
    UploadsKept (C := keyd H B) (fun db => L.stored db f) orig upload s := by
  have hinit : RunInv (keydLawful L) f orig upload (Clients.init db) (reread orig) := by
    refine ⟨hI, ?_, rfl, Carries.refl orig, fun h => ?_, fun h => ?_⟩
    · show (L.stored db f).map reread = some (reread orig)
      rw [horig]
      rfl
    · exact absurd h (by simp [Clients.init])
    · exact absurd h (by simp [Clients.init])
  obtain ⟨k, hk⟩ := hinit.run hfp hid hrun
  obtain ⟨k', hk', rfl⟩ := Option.map_eq_some_iff.mp hk.stored
  exact ⟨k', hk', hk.orig, fun i hi => hk.done hi⟩

/-! ## Samples -/

/-- Two clients that each add a user id to the stored key. -/
def sampleUpload (i : Bool) : PublicKey := sampleKey [⟨sampleUid (if i then 66 else 67), []⟩] []

/-- The server with the key that both clients update. -/
def sampleClients : Clients (keyd sampleHashes (db4 sampleHashes)) Bool :=
  Clients.init (C := keyd sampleHashes (db4 sampleHashes))
    (sampleDb4 (sampleKey [⟨sampleUid 65, []⟩] []))

/-- Client `i` goes on with what is stored in `t`. -/
def sampleFinish (s t : Clients (keyd sampleHashes (db4 sampleHashes)) Bool) (i : Bool) :
    Clients (keyd sampleHashes (db4 sampleHashes)) Bool :=
  s.finish sampleHashes zeroStale false sampleUpload i
    (Backend.fetchKeyFp (keyd sampleHashes (db4 sampleHashes)) t.db
      (fingerprintOf sampleHashes (sampleUpload i).publickey))

/-- One client after the other. -/
def sampleSequential : Clients (keyd sampleHashes (db4 sampleHashes)) Bool :=
  let s := sampleFinish (sampleClients.fetch sampleHashes sampleUpload false) sampleClients false
  sampleFinish (s.fetch sampleHashes sampleUpload true) s true

/-- Both clients fetch before the first of them stores. -/
def sampleRace : Clients (keyd sampleHashes (db4 sampleHashes)) Bool :=
  let s := (sampleClients.fetch sampleHashes sampleUpload false).fetch sampleHashes sampleUpload true
  sampleFinish (sampleFinish s sampleClients false) sampleClients true

theorem keyd_uploads_kept_sequential :
    UploadsKept (C := keyd sampleHashes (db4 sampleHashes))
      (fun db => Db4.keydb db (fingerprintOf sampleHashes (sampleUpload true).publickey))
      (sampleKey [⟨sampleUid 65, []⟩] []) sampleUpload sampleSequential := by
  refine keyd_uploads_kept (g := zeroStale) (db4Lawful sampleHashes)
    (sampleDb4 (sampleKey [⟨sampleUid 65, []⟩] [])) false
    (sampleDb4_consistent (by decide) (by decide)) (by decide) (by decide) (by decide) ?_
  refine ((((Relation.ReflTransGen.refl.tail (.fetch rfl)).tail (.finish rfl ?_)).tail
    (.fetch rfl)).tail (.finish rfl ?_))
  · exact fun _ => rfl
  · exact fun _ => rfl

/-- When both clients fetch before one of them stores, the first upload is lost. -/
theorem keyd_loses_upload :
    (∀ i, fingerprint? sampleHashes (sampleUpload i).publickey =
        fingerprint? sampleHashes (sampleKey [⟨sampleUid 65, []⟩] []).publickey ∧
      SameKeyid sampleHashes (sampleKey [⟨sampleUid 65, []⟩] []) (sampleUpload i)) ∧
    ¬ ∀ s, Relation.ReflTransGen (AnyStep sampleHashes zeroStale false sampleUpload) sampleClients s →
      (∀ i, s.client i = .done) →
      UploadsKept (C := keyd sampleHashes (db4 sampleHashes))
        (fun db => Db4.keydb db (fingerprintOf sampleHashes (sampleUpload true).publickey))
        (sampleKey [⟨sampleUid 65, []⟩] []) sampleUpload s := by
  refine ⟨by decide, fun h => ?_⟩
  have hrun : Relation.ReflTransGen (AnyStep sampleHashes zeroStale false sampleUpload)
      sampleClients sampleRace :=
    (((Relation.ReflTransGen.refl.tail (.fetch rfl)).tail (.fetch rfl)).tail
      (.finish rfl trivial)).tail (.finish rfl trivial)
  have hdone : ∀ i, sampleRace.client i = .done := by
    intro i
    cases i <;> rfl
  obtain ⟨k, hk, _, hup⟩ := h _ hrun hdone
  have hfirst := (hup false (hdone false)).1
  have hraced : Db4.keydb sampleRace.db
      (fingerprintOf sampleHashes (sampleUpload true).publickey) =
      some (sampleKey [⟨sampleUid 65, []⟩, ⟨sampleUid 66, []⟩] []) := by decide
  obtain rfl := Option.some.inj (hraced.symm.trans hk)
  exact absurd hfirst (by decide)

end Onak
