import Onak.Proofs.MergeRunsProofs
import Onak.Proofs.UpdateReportProofs
import Onak.UpdateReads

/-!
# Proofs: updates where nothing undefined is read

When synchronisation comes to rest (`mergeKeys_quiescent_iff`), and when an update reports what it did
(`genericUpdateKeys_reports_iff`): what `Onak.Proofs.MergeQuietProofs` and
`Onak.Proofs.UpdateReportProofs` say of the merges of an update, for those that read nothing undefined.
-/

namespace Onak

variable {H : Hashes} {R : SigReading} {g : Stale}

/-! ## Merges of any two keys -/

/-- A key that has a fingerprint has its key id inside its packet. -/
theorem keyidIn_isSome {k : PublicKey} {f : Fingerprint} (h : fingerprint? H k.publickey = some f) :
    (keyidIn H k).isSome = true := by
  unfold keyidIn
  rw [Option.isSome_map]
  refine getPacketid_isSome ?_
  unfold fingerprint? at h
  cases hfp : getFingerprint H k.publickey with
  | none => rw [hfp] at h; exact absurd h (by simp)
  | some r => rfl

theorem getKeyid_of_keyidIn {k : PublicKey} {keyid : Option UInt64} (h : keyidIn H k = some keyid) :
    getKeyid H k = keyid := by
  cases keyid with
  | some keyid => exact keyidIn_eq_some_iff.mp h
  | none =>
    cases hk : getKeyid H k with
    | none => rfl
    | some keyid => exact absurd (h.symm.trans (keyidIn_eq_some_iff.mpr hk)) (by simp)

/-- **When two keys can be merged**, whether their key ids are the same or not. -/
theorem mergeKeysIn_iff (hR : R.Of g) {a b : PublicKey} (ha : (keyidIn H a).isSome = true)
    (hb : (keyidIn H b).isSome = true) (hn : b.NoRepeats) {r : MergeResult} :
    mergeKeysIn H R a b = some r ↔
      (SameKeyid H a b → KeysRead R g a b) ∧ r = mergeKeys H g a b := by
  by_cases hid : SameKeyid H a b
  · rw [mergeKeysIn_eq_some_iff hR hid hn]
    exact and_congr_left fun _ => ⟨fun h _ => h, fun h => h hid⟩
  · rw [and_iff_right fun h => absurd h hid]
    obtain ⟨keya, ha⟩ := Option.isSome_iff_exists.mp ha
    obtain ⟨keyb, hb⟩ := Option.isSome_iff_exists.mp hb
    have hga := getKeyid_of_keyidIn ha
    have hgb := getKeyid_of_keyidIn hb
    unfold mergeKeysIn mergeKeysWith mergeKeys
    rw [ha, hb, hga, hgb]
    have hsome : ∀ {x : MergeResult}, some x = some r ↔ r = x := ⟨fun h => (Option.some.inj h).symm, fun h => by rw [h]⟩
    cases keya with
    | none => exact hsome
    | some keya =>
      cases keyb with
      | none => exact hsome
      | some keyb =>
        have hne : keya ≠ keyb := by
          rintro rfl
          exact hid ⟨by rw [hga]; rfl, hga.trans hgb.symm⟩
        simp only [Option.bind_eq_bind, Option.bind_some, if_pos hne]
        exact hsome

/-! ## Quiet merges -/

/-- Synchronisation comes to rest: when merging `b` leaves `a` as it was, the difference is empty,
and an update with `b` of a database that has `a` stores nothing and leaves nothing to broadcast. -/
def Quiescent (H : Hashes) (R : SigReading) (a b : PublicKey) : Prop :=
  ∃ r, mergeKeysIn H R a b = some r ∧ (SamePackets a r.a →
    (r.b.sigs = [] ∧ r.b.uids = [] ∧ r.b.subkeys = []) ∧
    ∀ (B : Backend) (db : B.DB) (blacklist : List Fingerprint) (updateonly sendsync : Bool),
      B.fetchKeyFp db (fingerprintOf H b.publickey) = some a →
        genericUpdateKeysIn H R B blacklist updateonly sendsync db [b] = some ⟨db, [], 0, []⟩)

theorem genericUpdateKeysIn_of_diff_nil {a b : PublicKey} {r : MergeResult}
    (hr : mergeKeysIn H R a b = some r) (hdiff : r.b.sigs = [] ∧ r.b.uids = [] ∧ r.b.subkeys = [])
    {B : Backend} {db : B.DB} (blacklist : List Fingerprint) (updateonly sendsync : Bool)
    (hf : B.fetchKeyFp db (fingerprintOf H b.publickey) = some a) :
    genericUpdateKeysIn H R B blacklist updateonly sendsync db [b] = some ⟨db, [], 0, []⟩ := by
  have hact : updateActionIn H R updateonly (some a) b = some ⟨none, none, 0⟩ := by
    simp only [updateActionIn, hr, Option.bind_eq_bind, Option.bind_some, if_pos hdiff]
    rfl
  have hround : updateKeyIn H R B blacklist updateonly db b = some (db, none, 0) := by
    unfold updateKeyIn
    simp only
    split_ifs
    · rfl
    · rw [hf, hact]
      rfl
  cases sendsync <;> simp [genericUpdateKeysIn, updateLoopIn, hround]

/-- **When synchronisation comes to rest.** For a stored key with deduplicated signature lists and
an upload without repeated packets, a merge that changes nothing also reports nothing exactly when
the keys can be merged, and not all of the upload is there already with some signature that is merely
outranked. -/
theorem mergeKeys_quiescent_iff {a b : PublicKey} (hk : SameKeyid H a b) (ha : a.DedupedIn setBySigInfo)
    (hb : b.NoRepeats) :
    Quiescent H setBySigInfo a b ↔ KeysRead setBySigInfo g a b ∧
      (NothingToAdd g a b → AllEquated g a.uids b.uids ∧ AllEquated g a.subkeys b.subkeys) := by
  have hR := setBySigInfo_of g
  have hsame := samePackets_iff (g := g) hk hb (ha.deduped hR)
  have hdiff := diffEmpty_iff (g := g) hk hb
  constructor
  · rintro ⟨r, hr, hquiet⟩
    obtain ⟨hread, rfl⟩ := (mergeKeysIn_eq_some_iff hR hk hb).mp hr
    exact ⟨hread, fun hq => (hdiff.mp (hquiet (hsame.mpr hq)).1).2⟩
  · rintro ⟨hread, hall⟩
    have hr := (mergeKeysIn_eq_some_iff hR hk hb).mpr ⟨hread, rfl⟩
    refine ⟨mergeKeys H g a b, hr, fun hsp => ?_⟩
    have hq := hsame.mp hsp
    have hnil := hdiff.mpr ⟨hq.sigs, hall hq⟩
    exact ⟨hnil, fun B db blacklist updateonly sendsync hf =>
      genericUpdateKeysIn_of_diff_nil hr hnil blacklist updateonly sendsync hf⟩

/-- Uploading what is stored is quiet. -/
theorem mergeKeys_quiescent_sample :
    Quiescent sampleHashes setBySigInfo (sampleKey [⟨sampleUid 65, [sampleSig 4 0x10 2]⟩] [])
      (sampleKey [⟨sampleUid 65, [sampleSig 4 0x10 2]⟩] []) := by
  refine (mergeKeys_quiescent_iff (g := zeroStale) (by decide) (by decide) (by decide)).mpr ⟨?_, fun _ => ?_⟩
  · exact keysRead_of_isSome (setBySigInfo_of zeroStale) (by decide : SameKeyid sampleHashes _ _) (by decide)
      (by decide)
  · exact ⟨by decide, by decide⟩

/-- An older certification by the same signer changes nothing, but is reported as new. -/
theorem mergeKeys_reports_outranked :
    SameKeyid sampleHashes (sampleKey [⟨sampleUid 65, [sampleSig 4 0x10 2]⟩] [])
        (sampleKey [⟨sampleUid 65, [sampleSig 4 0x10 1]⟩] []) ∧
      (sampleKey [⟨sampleUid 65, [sampleSig 4 0x10 2]⟩] []).DedupedIn setBySigInfo ∧
      (sampleKey [⟨sampleUid 65, [sampleSig 4 0x10 1]⟩] []).NoRepeats ∧
      ¬ Quiescent sampleHashes setBySigInfo (sampleKey [⟨sampleUid 65, [sampleSig 4 0x10 2]⟩] [])
        (sampleKey [⟨sampleUid 65, [sampleSig 4 0x10 1]⟩] []) := by
  refine ⟨by decide, by decide, by decide, ?_⟩
  rintro ⟨r, hr, hquiet⟩
  obtain ⟨-, rfl⟩ :=
    (mergeKeysIn_eq_some_iff (setBySigInfo_of zeroStale) (by decide) (by decide)).mp hr
  exact absurd (hquiet ⟨by decide, by decide, by decide⟩).1.2.1 (by decide)

/-! ## Updates -/

section

variable {B : Backend} (L : B.Lawful H) (blacklist : List Fingerprint) (updateonly : Bool)

variable (H g) in
/-- Each upload can be merged with the stored key that the lookup finds, if they have the same key id. -/
def RoundsRead (db : B.DB) (keys : List PublicKey) : Prop :=
  RoundsMeet H g (fun old key => SameKeyid H old key → KeysRead setBySigInfo g old key) blacklist
    updateonly db keys

include L in
theorem updateKeyIn_eq_some_iff (hR : R.Of g) {db : B.DB} (hI : L.Inv db) {key : PublicKey}
    {f : Fingerprint} (hf : fingerprint? H key.publickey = some f)
    (hkey : f ∉ blacklist → ∀ old, B.fetchKeyFp db f = some old → key.NoRepeats)
    {r : B.DB × Option PublicKey × Nat} :
    updateKeyIn H R B blacklist updateonly db key = some r ↔
      (f ∉ blacklist → ∀ old, B.fetchKeyFp db f = some old → SameKeyid H old key → KeysRead R g old key) ∧
        r = updateKey H B g blacklist updateonly db key := by
  unfold updateKeyIn updateKey
  simp only [fingerprintOf_eq hf, List.contains_iff_mem]
  by_cases hb : f ∈ blacklist
  · simp only [hb, if_true, not_true_eq_false, false_implies, true_and]
    exact ⟨fun h => (Option.some.inj h).symm, fun h => by rw [h]⟩
  simp only [hb, if_false, not_false_eq_true, forall_const]
  cases hfetch : B.fetchKeyFp db f with
  | none =>
    simp only [updateActionIn, updateAction, Option.bind_eq_bind, Option.bind_some, reduceCtorEq,
      false_implies, implies_true, true_and]
    exact ⟨fun h => (Option.some.inj h).symm, fun h => by rw [h]; rfl⟩
  | some old =>
    obtain ⟨f', hstored, -⟩ := L.fetch_sound hI hfetch
    have hmerge := fun {m} => mergeKeysIn_iff hR (keyidIn_isSome (L.stored_fp hI hstored))
      (keyidIn_isSome hf) (hkey hb old hfetch) (r := m)
    unfold updateActionIn updateAction
    simp only [Option.bind_eq_bind, Option.bind_eq_some_iff, Option.some.injEq, forall_eq']
    constructor
    · rintro ⟨act, ⟨m, hm, hact⟩, h⟩
      obtain ⟨hread, rfl⟩ := hmerge.mp hm
      refine ⟨hread, ?_⟩
      rw [← Option.some.inj h, ← Option.some.inj hact]
    · rintro ⟨hread, rfl⟩
      exact ⟨_, ⟨_, hmerge.mpr ⟨hread, rfl⟩, rfl⟩, rfl⟩

/-- Where the uploads can be merged, it is the same loop. -/
theorem updateLoopIn_eq_some_iff {keys : List PublicKey} {db : B.DB} (hI : L.Inv db)
    (hfp : ∀ key ∈ keys, (fingerprint? H key.publickey).isSome)
    (hplain : RoundsPlain H g blacklist updateonly db keys) {r : B.DB × List PublicKey × Nat} :
    updateLoopIn H setBySigInfo B blacklist updateonly db keys = some r ↔
      RoundsRead H g blacklist updateonly db keys ∧ r = updateLoop H B g blacklist updateonly db keys := by
  induction keys generalizing db r with
  | nil => exact ⟨fun h => ⟨trivial, (Option.some.inj h).symm⟩, fun h => by rw [h.2]; rfl⟩
  | cons key keys ih =>
    rw [List.forall_mem_cons] at hfp
    obtain ⟨f, hf⟩ := Option.isSome_iff_exists.mp hfp.1
    obtain ⟨hkey, hplain⟩ := hplain
    rw [fingerprintOf_eq hf] at hkey
    obtain ⟨hI', -⟩ := updateKey_reports (g := g) L blacklist updateonly hI hf hkey
    have hround := fun {m} => updateKeyIn_eq_some_iff L blacklist updateonly (setBySigInfo_of g) hI hf
      hkey (r := m)
    have hrest := fun {m} => ih hI' hfp.2 hplain (r := m)
    unfold updateLoopIn updateLoop RoundsRead RoundsMeet
    rw [fingerprintOf_eq hf, Option.bind_eq_bind, Option.bind_eq_some_iff]
    constructor
    · rintro ⟨m, hm, h⟩
      obtain ⟨hread, rfl⟩ := hround.mp hm
      obtain ⟨m', hm', h⟩ := Option.bind_eq_some_iff.mp h
      obtain ⟨hreads, rfl⟩ := hrest.mp hm'
      exact ⟨⟨hread, hreads⟩, (Option.some.inj h).symm⟩
    · rintro ⟨⟨hread, hreads⟩, rfl⟩
      refine ⟨_, hround.mpr ⟨hread, rfl⟩, ?_⟩
      rw [hrest.mpr ⟨hreads, rfl⟩]
      rfl

variable (H) in
/-- `generic_update_keys` has a result, and reports with it what it did. -/
def UpdateReports (sendsync : Bool) (db : B.DB) (keys : List PublicKey) : Prop :=
  ∃ r, genericUpdateKeysIn H setBySigInfo B blacklist updateonly sendsync db keys = some r ∧
    ReportsUpdate H L sendsync db keys r

variable (H g) in
/-- In each round, what is merged repeats nothing and can be merged, and the round reports what it does. -/
structure RoundsHold (db : B.DB) (keys : List PublicKey) : Prop where
  plain : RoundsPlain H g blacklist updateonly db keys
  read : RoundsRead H g blacklist updateonly db keys
  report : RoundsReport H g blacklist updateonly db keys

end

end Onak
