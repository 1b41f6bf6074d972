import Onak.Proofs.MergeAddedProofs
import Onak.Upload

/-!
# Proofs: what an update reports

`generic_update_keys` looks neither at what `merge_keys` returns nor at what `store_key` does. The
keys that it leaves in the list, broadcasts and counts are therefore not always those for which it
added something: a key that is skipped or refused stays in the list, and so does a signature that the
stored key does not keep.
-/

namespace Onak

variable {H : Hashes} {g : Stale}

/-! ## What one round reports -/

/-- A key without anything. -/
def noKey : PublicKey := ⟨⟨0, false, []⟩, false, [], [], []⟩

/-- `new` has a packet or a signature that `old` has not. -/
def MoreSigned (old new : List SignedPacket) : Prop :=
  (∃ p, OnSigned new p ∧ ¬ OnSigned old p) ∨ ∃ p s, SigOn new p s ∧ ¬ SigOn old p s

/-- `new` has something that `old` has not. -/
def HasMore (old new : PublicKey) : Prop :=
  (∃ s, OnList new.sigs s ∧ ¬ OnList old.sigs s) ∨ MoreSigned old.uids new.uids ∨
    MoreSigned old.subkeys new.subkeys

/-- Data was added to an entry of the database: a key, or something to the key. -/
def DataAdded (before after : Option PublicKey) : Prop :=
  before = none ∧ after.isSome ∨ HasMore (before.getD noKey) (after.getD noKey)

/-- A key is left if and only if data was added to its entry, and it is reduced to that. -/
structure RoundReported (before after left : Option PublicKey) : Prop where
  left_iff : left.isSome = true ↔ DataAdded before after
  reduced : ∀ k, left = some k → Added (before.getD noKey) (after.getD noKey) k

theorem MoreSigned.irrefl (l : List SignedPacket) : ¬ MoreSigned l l := by
  rintro (⟨p, hon, hnot⟩ | ⟨p, s, hon, hnot⟩)
  · exact hnot hon
  · exact hnot hon

theorem not_hasMore_of_samePackets {old new : PublicKey} (h : SamePackets old new) :
    ¬ HasMore old new := by
  obtain ⟨hsigs, huids, hsubkeys⟩ := h
  unfold HasMore
  rw [hsigs, huids, hsubkeys]
  rintro (⟨s, hon, hnot⟩ | hmore | hmore)
  · exact hnot hon
  · exact MoreSigned.irrefl _ hmore
  · exact MoreSigned.irrefl _ hmore

theorem not_dataAdded_self (k : Option PublicKey) : ¬ DataAdded k k := by
  rintro (⟨hnone, hsome⟩ | hmore)
  · rw [hnone] at hsome
    exact absurd hsome (by simp)
  · exact not_hasMore_of_samePackets ⟨rfl, rfl, rfl⟩ hmore

theorem roundReported_self (k : Option PublicKey) : RoundReported k k none :=
  ⟨iff_of_false (by simp) (not_dataAdded_self k), fun _ h => absurd h (by simp)⟩

theorem AddedSigned.moreSigned {old new d : List SignedPacket} (h : AddedSigned old new d)
    (hd : d ≠ []) : MoreSigned old new := by
  obtain ⟨sp, hsp⟩ := List.exists_mem_of_ne_nil d hd
  rcases (h.packets sp.packet).mp (onSigned_of_mem hsp) with hpacket | ⟨s, hs⟩
  · exact .inl ⟨sp.packet, hpacket⟩
  · exact .inr ⟨sp.packet, s, hs⟩

theorem Added.hasMore {old new d : PublicKey} (h : Added old new d)
    (hd : ¬ (d.sigs = [] ∧ d.uids = [] ∧ d.subkeys = [])) : HasMore old new := by
  by_cases hsigs : d.sigs = []
  · by_cases huids : d.uids = []
    · exact .inr (.inr (h.subkeys.moreSigned fun hsubkeys => hd ⟨hsigs, huids, hsubkeys⟩))
    · exact .inr (.inl (h.uids.moreSigned huids))
  · obtain ⟨s, hs⟩ := List.exists_mem_of_ne_nil d.sigs hsigs
    exact .inl ⟨s, (h.sigs s).mp (onList_of_mem hs)⟩

theorem addedSigned_new (l : List SignedPacket) : AddedSigned [] l l := by
  refine ⟨fun p => ?_, fun p s => ?_⟩
  · simp only [OnSigned, SigOn, List.not_mem_nil, false_and, exists_false, not_false_eq_true, and_true]
    refine ⟨.inl, ?_⟩
    rintro (hon | ⟨s, sp, hsp, hp, -⟩)
    · exact hon
    · exact ⟨sp, hsp, hp⟩
  · simp [SigOn]

theorem added_new {key key' : PublicKey} (h : SamePackets key key') : Added noKey key' key := by
  obtain ⟨hsigs, huids, hsubkeys⟩ := h
  refine ⟨fun s => ?_, ?_, ?_⟩
  · rw [hsigs]
    simp [noKey, OnList]
  · rw [huids]
    exact addedSigned_new key.uids
  · rw [hsubkeys]
    exact addedSigned_new key.subkeys

variable (H g) in
/-- The old key has everything of the uploaded one, as far as `merge_keys` sees. -/
def NothingNew (old key : PublicKey) : Prop :=
  if SameKeyid H old key then
    (∀ s ∈ key.sigs, OnList old.sigs s) ∧ AllEquated g old.uids key.uids ∧
      AllEquated g old.subkeys key.subkeys
  else
    key.sigs = [] ∧ key.uids = [] ∧ key.subkeys = []

theorem nothingNew_iff {old key : PublicKey} (hkey : key.NoRepeats) :
    ((mergeKeys H g old key).b.sigs = [] ∧ (mergeKeys H g old key).b.uids = [] ∧
      (mergeKeys H g old key).b.subkeys = []) ↔ NothingNew H g old key := by
  unfold NothingNew
  split_ifs with hid
  · exact diffEmpty_iff hid hkey
  · obtain ⟨r, hr⟩ := (mergeKeys_refused (g := g) hid).2
    rw [hr]

theorem SamePackets.symm {k k' : PublicKey} (h : SamePackets k k') : SamePackets k' k :=
  ⟨h.1.symm, h.2.1.symm, h.2.2.symm⟩

theorem Added.congr {old new new' d : PublicKey} (h : Added old new d)
    (hnew : SamePackets new new') : Added old new' d := by
  obtain ⟨hsigs, huids, hsubkeys⟩ := hnew
  refine ⟨?_, ?_, ?_⟩
  · rw [hsigs]
    exact h.sigs
  · rw [huids]
    exact h.uids
  · rw [hsubkeys]
    exact h.subkeys

/-- What a merge that is stored reports. -/
theorem roundReported_merge_iff {old key new : PublicKey} (hkey : key.NoRepeats)
    (hnew : SamePackets (mergeKeys H g old key).a new) (hdiff : ¬ NothingNew H g old key) :
    RoundReported (some old) (some new) (some (mergeKeys H g old key).b) ↔
      SameKeyid H old key ∧ Reported g old.uids key.uids ∧ Reported g old.subkeys key.subkeys := by
  have hadded : ∀ {d}, Added old new d ↔ Added old (mergeKeys H g old key).a d :=
    ⟨fun h => h.congr hnew.symm, fun h => h.congr hnew⟩
  by_cases hid : SameKeyid H old key
  · rw [← added_iff hid hkey, ← hadded]
    constructor
    · exact fun h => ⟨hid, h.reduced _ rfl⟩
    · rintro ⟨-, h⟩
      refine ⟨iff_of_true rfl (.inr (h.hasMore ?_)), fun k hk => ?_⟩
      · rw [nothingNew_iff hkey]
        exact hdiff
      · obtain rfl := Option.some.inj hk
        exact h
  · -- a refused merge: the packets are stored as they were
    refine iff_of_false (fun h => ?_) (fun h => hid h.1)
    obtain ⟨r, hr⟩ := (mergeKeys_refused (g := g) hid).1
    rw [hr] at hnew
    rcases h.left_iff.mp rfl with ⟨hnone, -⟩ | hmore
    · exact absurd hnone (by simp)
    · exact not_hasMore_of_samePackets hnew hmore

/-! ## One round -/

section

variable {B : Backend} (L : B.Lawful H) (blacklist : List Fingerprint) (updateonly : Bool)

variable (H g) in
/-- The round for `key` in the state `db` reports what it does. If the lookup finds nothing, the key
is to be added and can be. If it finds a key, then that has everything already, or it is the one with
the same primary fingerprint and key id and keeps what is new. -/
def RoundReports (db : B.DB) (key : PublicKey) : Prop :=
  match B.fetchKeyFp db (fingerprintOf H key.publickey) with
  | none => updateonly = false ∧ (getKeyid H key).isSome
  | some old => NothingNew H g old key ∨
      fingerprint? H old.publickey = fingerprint? H key.publickey ∧ SameKeyid H old key ∧
        Reported g old.uids key.uids ∧ Reported g old.subkeys key.subkeys

theorem samePackets_reread (k : PublicKey) : SamePackets k (L.reread k) := by
  rw [L.reread_packets k]
  exact ⟨rfl, rfl, rfl⟩

/-- What is added to the count of new keys by a round that changes an entry. -/
def newEntry (before after : Option PublicKey) : Nat :=
  if before.isNone && after.isSome then 1 else 0

/-- What comes of a round for the entry `f`, where `left` is what stays of the key and `new` is what it
counts for. -/
inductive RoundOutcome (before after : Fingerprint → Option PublicKey) (f : Fingerprint) (fine : Prop)
    (left : Option PublicKey) (new : Nat) : Prop
  /-- The entry is the only one that changes, and this is reported or not. -/
  | own : (∀ x, x ≠ f → after x = before x) → (RoundReported (before f) (after f) left ↔ fine) →
      new = newEntry (before f) (after f) → RoundOutcome before after f fine left new
  /-- The key is left, but there is no entry for it, and no other entry is new. -/
  | lost : ¬ fine → left.isSome = true → before f = none →
      (∀ x, before x = none → after x = none) → RoundOutcome before after f fine left new

theorem RoundOutcome.unchanged (before : Fingerprint → Option PublicKey) (f : Fingerprint)
    {fine : Prop} (h : fine) : RoundOutcome before before f fine none 0 := by
  refine .own (fun _ _ => rfl) (iff_of_true (roundReported_self _) h) ?_
  cases before f <;> rfl

theorem RoundOutcome.none_of_none {before after : Fingerprint → Option PublicKey} {f : Fingerprint}
    {fine : Prop} {left : Option PublicKey} {new : Nat}
    (h : RoundOutcome before after f fine left new) {x : Fingerprint} (hne : x ≠ f)
    (hx : before x = none) : after x = none := by
  cases h with
  | own hround => rw [hround x hne, hx]
  | lost _ _ _ hstay => exact hstay x hx

/-- The round for a key that is not found. -/
theorem roundOutcome_new {db : B.DB} (hI : L.Inv db) {key : PublicKey} {f : Fingerprint}
    (hf : fingerprint? H key.publickey = some f) (hnone : L.stored db f = none) :
    let act := updateAction H g updateonly none key
    L.Inv (applyAction B db act) ∧ act.left = some key ∧
      RoundOutcome (L.stored db) (L.stored (applyAction B db act)) f
        (updateonly = false ∧ (getKeyid H key).isSome) act.left act.newkeys := by
  cases updateonly with
  | true => exact ⟨hI, rfl, .lost (by simp) rfl hnone fun _ hx => hx⟩
  | false =>
    cases hid : getKeyid H key with
    | none =>
      intro act
      have hdb : applyAction B db act = db := apply_new_no_keyid L db hid
      rw [hdb]
      exact ⟨hI, rfl, .lost (by simp) rfl hnone fun _ hx => hx⟩
    | some keyid =>
      obtain ⟨hI', hst⟩ := apply_new (g := g) L hI hf hnone (by rw [hid]; rfl)
      have hown : L.stored (applyAction B db (updateAction H g false none key)) f =
          some (L.reread key) := by rw [hst, if_pos rfl]
      refine ⟨hI', rfl, .own (fun x hx => by rw [hst, if_neg hx]) ?_ ?_⟩
      · rw [hown, hnone]
        refine iff_of_true ⟨iff_of_true rfl (.inl ⟨rfl, rfl⟩), fun k hk => ?_⟩ ⟨rfl, rfl⟩
        obtain rfl := Option.some.inj hk
        exact added_new (samePackets_reread L key)
      · rw [hown, hnone]
        rfl

/-- The round for a key for which `old` is found that has not everything of it. -/
theorem roundOutcome_merge {db : B.DB} (hI : L.Inv db) {old key : PublicKey} {f : Fingerprint}
    (hf : fingerprint? H key.publickey = some f) (hkey : key.NoRepeats)
    (hfetch : B.fetchKeyFp db f = some old) (hdiff : ¬ NothingNew H g old key) :
    let db' := B.storeKey db (mergeKeys H g old key).a true
    L.Inv db' ∧ RoundOutcome (L.stored db) (L.stored db') f
      (fingerprint? H old.publickey = fingerprint? H key.publickey ∧ SameKeyid H old key ∧
        Reported g old.uids key.uids ∧ Reported g old.subkeys key.subkeys)
      (some (mergeKeys H g old key).b) 0 := by
  obtain ⟨f', hf', hst⟩ := fetch_fp L hI hfetch
  have hid : (getKeyid H (mergeKeys H g old key).a).isSome := by
    rw [getKeyid_congr (mergeKeys_a_publickey old key)]
    exact L.stored_keyid hI hst
  obtain ⟨hI', hst'⟩ := store_merged (g := g) L hI key hf' hst hid
  refine ⟨hI', ?_⟩
  by_cases hff : f' = f
  · subst hff
    have hown : L.stored (B.storeKey db (mergeKeys H g old key).a true) f' =
        some (L.reread (mergeKeys H g old key).a) := by rw [hst', if_pos rfl]
    refine .own (fun x hx => by rw [hst', if_neg hx]) ?_ ?_
    · rw [hown, hst, roundReported_merge_iff hkey (samePackets_reread L _) hdiff, hf', hf]
      exact (and_iff_right rfl).symm
    · rw [hown, hst]
      rfl
  · -- the key is found through a subkey
    have hne : fingerprint? H old.publickey ≠ some f := by
      rw [hf']
      exact fun h => hff (Option.some.inj h)
    refine .lost (fun h => hne (h.1.trans hf)) rfl (stored_none_of_fetch_other L hI hfetch hne) ?_
    intro x hx
    have hxf : x ≠ f' := by
      rintro rfl
      rw [hst] at hx
      exact absurd hx (by simp)
    rw [hst', if_neg hxf]
    exact hx

/-- A round changes its own entry only, and reports this or not, or the key is left in the list
though nothing is stored under its fingerprint. -/
theorem updateKey_reports {db : B.DB} (hI : L.Inv db) {key : PublicKey} {f : Fingerprint}
    (hf : fingerprint? H key.publickey = some f)
    (hkey : f ∉ blacklist → ∀ old, B.fetchKeyFp db f = some old → key.NoRepeats) :
    let r := updateKey H B g blacklist updateonly db key
    L.Inv r.1 ∧ (∀ k, r.2.1 = some k → k.publickey = key.publickey) ∧
      RoundOutcome (L.stored db) (L.stored r.1) f
        (f ∉ blacklist → RoundReports H g updateonly db key) r.2.1 r.2.2 := by
  unfold updateKey RoundReports
  rw [fingerprintOf_eq hf]
  by_cases hb : f ∈ blacklist
  · simp only [hb, if_true]
    exact ⟨hI, fun _ h => absurd h (by simp), .unchanged _ f fun h => absurd trivial h⟩
  simp only [hb, if_false, not_false_eq_true, forall_const]
  cases hfetch : B.fetchKeyFp db f with
  | none =>
    obtain ⟨hI', hleft, hround⟩ := roundOutcome_new (g := g) L updateonly hI hf
      (stored_none_of_fetch L hI hfetch)
    refine ⟨hI', fun k hk => ?_, hround⟩
    rw [← Option.some.inj (hleft.symm.trans hk)]
  | some old =>
    have hkey := hkey hb old hfetch
    by_cases hdiff : NothingNew H g old key
    · have hact : updateAction H g updateonly (some old) key = ⟨none, none, 0⟩ :=
        if_pos ((nothingNew_iff hkey).mpr hdiff)
      simp only [hact, applyAction]
      exact ⟨hI, fun _ h => absurd h (by simp), .unchanged _ f (.inl hdiff)⟩
    · have hact : updateAction H g updateonly (some old) key =
          ⟨some ((mergeKeys H g old key).a, true), some (mergeKeys H g old key).b, 0⟩ :=
        if_neg fun h => hdiff ((nothingNew_iff hkey).mp h)
      obtain ⟨hI', hround⟩ := roundOutcome_merge L hI hf hkey hfetch hdiff
      simp only [hact, applyAction, hdiff, false_or]
      refine ⟨hI', fun k hk => ?_, hround⟩
      rw [← Option.some.inj hk]
      exact mergeKeys_b_publickey old key

/-! ## The whole upload -/

variable (H g) in
/-- Each round for a key that is not blacklisted reports what it does in the state before it. -/
def RoundsReport (db : B.DB) : List PublicKey → Prop
  | [] => True
  | key :: keys =>
    (fingerprintOf H key.publickey ∉ blacklist → RoundReports H g updateonly db key) ∧
      RoundsReport (updateKey H B g blacklist updateonly db key).1 keys

variable (H g) in
/-- No key that is merged with a stored one repeats a user id or a subkey. -/
def RoundsPlain (db : B.DB) (keys : List PublicKey) : Prop :=
  RoundsMeet H g (fun _ key => key.NoRepeats) blacklist updateonly db keys

variable (H) in
/-- The keys that are left are those for which data was added to the database, in the order of the
upload, and each is reduced to that. -/
structure Reports (before after : Fingerprint → Option PublicKey) (keys left : List PublicKey) :
    Prop where
  order : (left.map PublicKey.publickey).Sublist (keys.map PublicKey.publickey)
  left_iff : ∀ key ∈ keys, (∃ k ∈ left, k.publickey = key.publickey) ↔
    DataAdded (before (fingerprintOf H key.publickey)) (after (fingerprintOf H key.publickey))
  reduced : ∀ key ∈ keys, ∀ k ∈ left, k.publickey = key.publickey →
    Added ((before (fingerprintOf H key.publickey)).getD noKey)
      ((after (fingerprintOf H key.publickey)).getD noKey) k

theorem Reports.congr {before after before' after' : Fingerprint → Option PublicKey}
    {keys left : List PublicKey} (h : Reports H before after keys left)
    (hbefore : ∀ key ∈ keys, before' (fingerprintOf H key.publickey) =
      before (fingerprintOf H key.publickey))
    (hafter : ∀ key ∈ keys, after' (fingerprintOf H key.publickey) =
      after (fingerprintOf H key.publickey)) : Reports H before' after' keys left := by
  refine ⟨h.order, fun key hkey => ?_, fun key hkey => ?_⟩
  · rw [hbefore key hkey, hafter key hkey]
    exact h.left_iff key hkey
  · rw [hbefore key hkey, hafter key hkey]
    exact h.reduced key hkey

theorem reports_cons_iff {before after : Fingerprint → Option PublicKey} {key : PublicKey}
    {keys rest : List PublicKey} {head : Option PublicKey}
    (hhead : ∀ k, head = some k → k.publickey = key.publickey)
    (hrest : (rest.map PublicKey.publickey).Sublist (keys.map PublicKey.publickey))
    (hne : ∀ k ∈ keys, fingerprintOf H key.publickey ≠ fingerprintOf H k.publickey) :
    Reports H before after (key :: keys) (head.toList ++ rest) ↔
      RoundReported (before (fingerprintOf H key.publickey)) (after (fingerprintOf H key.publickey))
        head ∧ Reports H before after keys rest := by
  have hown : ∀ k ∈ head.toList ++ rest, k.publickey = key.publickey → head = some k := by
    intro k hk heq
    rcases List.mem_append.mp hk with hk | hk
    · exact Option.mem_toList.mp hk
    · obtain ⟨k', hk', heq'⟩ := List.mem_map.mp (hrest.subset (List.mem_map_of_mem hk))
      exact absurd (by rw [heq', heq]) (hne k' hk')
  have hothers : ∀ k' ∈ keys, ∀ k ∈ head.toList ++ rest, k.publickey = k'.publickey → k ∈ rest := by
    intro k' hk' k hk heq
    rcases List.mem_append.mp hk with hk | hk
    · exact absurd (by rw [← heq, hhead k (Option.mem_toList.mp hk)]) (hne k' hk')
    · exact hk
  have hown_iff : (∃ k ∈ head.toList ++ rest, k.publickey = key.publickey) ↔ head.isSome = true := by
    constructor
    · rintro ⟨k, hk, heq⟩
      rw [hown k hk heq]
      rfl
    · intro hsome
      obtain ⟨k, hk⟩ := Option.isSome_iff_exists.mp hsome
      exact ⟨k, List.mem_append_left _ (Option.mem_toList.mpr hk), hhead k hk⟩
  have hothers_iff : ∀ k' ∈ keys, (∃ k ∈ head.toList ++ rest, k.publickey = k'.publickey) ↔
      ∃ k ∈ rest, k.publickey = k'.publickey := by
    intro k' hk'
    constructor
    · rintro ⟨k, hk, heq⟩
      exact ⟨k, hothers k' hk' k hk heq, heq⟩
    · rintro ⟨k, hk, heq⟩
      exact ⟨k, List.mem_append_right _ hk, heq⟩
  constructor
  · intro h
    refine ⟨⟨?_, fun k hk => ?_⟩, hrest, fun k' hk' => ?_, fun k' hk' k hk heq => ?_⟩
    · rw [← h.left_iff key List.mem_cons_self, hown_iff]
    · exact h.reduced key List.mem_cons_self k
        (List.mem_append_left _ (Option.mem_toList.mpr hk)) (hhead k hk)
    · rw [← h.left_iff k' (List.mem_cons_of_mem _ hk'), hothers_iff k' hk']
    · exact h.reduced k' (List.mem_cons_of_mem _ hk') k (List.mem_append_right _ hk) heq
  · rintro ⟨hround, h⟩
    refine ⟨?_, fun k' hk' => ?_, fun k' hk' k hk heq => ?_⟩
    · cases hcase : head with
      | none => exact hrest.cons _
      | some k =>
        rw [Option.toList_some, List.singleton_append, List.map_cons, List.map_cons, hhead k hcase]
        exact hrest.cons_cons _
    · rcases List.mem_cons.mp hk' with rfl | hk'
      · rw [← hround.left_iff, hown_iff]
      · rw [← h.left_iff k' hk', hothers_iff k' hk']
    · rcases List.mem_cons.mp hk' with rfl | hk'
      · exact hround.reduced k (hown k hk heq)
      · exact h.reduced k' hk' k (hothers k' hk' k hk heq) heq

/-- An upload creates no entry except under the fingerprints of its keys, and leaves no other keys in
the list. -/
theorem updateLoop_keeps_none {keys : List PublicKey} {db : B.DB} (hI : L.Inv db)
    (hfp : ∀ key ∈ keys, (fingerprint? H key.publickey).isSome)
    (hplain : RoundsPlain H g blacklist updateonly db keys) :
    let r := updateLoop H B g blacklist updateonly db keys
    (r.2.1.map PublicKey.publickey).Sublist (keys.map PublicKey.publickey) ∧
      ∀ x, (∀ key ∈ keys, fingerprintOf H key.publickey ≠ x) → L.stored db x = none →
        L.stored r.1 x = none := by
  induction keys generalizing db with
  | nil => exact ⟨List.Sublist.refl _, fun _ _ h => h⟩
  | cons key keys ih =>
    rw [List.forall_mem_cons] at hfp
    obtain ⟨f, hf⟩ := Option.isSome_iff_exists.mp hfp.1
    obtain ⟨hkey, hplain⟩ := hplain
    rw [fingerprintOf_eq hf] at hkey
    obtain ⟨hI', hhead, houtcome⟩ := updateKey_reports (g := g) L blacklist updateonly hI hf hkey
    obtain ⟨horder, hnone⟩ := ih hI' hfp.2 hplain
    refine ⟨?_, fun x hx h => ?_⟩
    · simp only [updateLoop, List.map_append, List.map_cons]
      cases hleft : (updateKey H B g blacklist updateonly db key).2.1 with
      | none => exact horder.cons _
      | some k =>
        rw [Option.toList_some, List.map_singleton, List.singleton_append, hhead k hleft]
        exact horder.cons_cons _
    · rw [List.forall_mem_cons, fingerprintOf_eq hf] at hx
      exact hnone x hx.2 (houtcome.none_of_none hx.1.symm h)

variable (H) in
/-- The number of keys that are stored in `after` and not in `before`. -/
def newlyStored (before after : Fingerprint → Option PublicKey) (keys : List PublicKey) : Nat :=
  keys.countP fun key => (before (fingerprintOf H key.publickey)).isNone &&
    (after (fingerprintOf H key.publickey)).isSome

theorem newlyStored_cons {before before' after : Fingerprint → Option PublicKey} {key : PublicKey}
    {keys : List PublicKey} {f : Fingerprint} (hf : fingerprintOf H key.publickey = f)
    (h : ∀ k ∈ keys, before' (fingerprintOf H k.publickey) = before (fingerprintOf H k.publickey)) :
    newlyStored H before after (key :: keys) =
      newEntry (before f) (after f) + newlyStored H before' after keys := by
  have htail : newlyStored H before' after keys = newlyStored H before after keys :=
    List.countP_congr fun k hk => by rw [h k hk]
  unfold newEntry
  rw [htail, newlyStored, List.countP_cons, hf, Nat.add_comm]
  rfl

theorem updateLoop_reports_iff {keys : List PublicKey} {db : B.DB} (hI : L.Inv db)
    (hfp : ∀ key ∈ keys, (fingerprint? H key.publickey).isSome)
    (hplain : RoundsPlain H g blacklist updateonly db keys)
    (hne : keys.Pairwise fun x y => fingerprintOf H x.publickey ≠ fingerprintOf H y.publickey) :
    let r := updateLoop H B g blacklist updateonly db keys
    (Reports H (L.stored db) (L.stored r.1) keys r.2.1 ↔
        RoundsReport H g blacklist updateonly db keys) ∧
      (RoundsReport H g blacklist updateonly db keys → OthersKept H L db r.1 keys ∧
        r.2.2 = newlyStored H (L.stored db) (L.stored r.1) keys) := by
  induction keys generalizing db with
  | nil =>
    refine ⟨iff_of_true ⟨List.Sublist.refl _, ?_, ?_⟩ trivial, fun _ => ⟨fun _ _ => rfl, rfl⟩⟩
    · exact fun _ h => absurd h (by simp)
    · exact fun _ h => absurd h (by simp)
  | cons key keys ih =>
    obtain ⟨hkey, hne⟩ := List.pairwise_cons.mp hne
    rw [List.forall_mem_cons] at hfp
    obtain ⟨f, hf⟩ := Option.isSome_iff_exists.mp hfp.1
    have hfk := fingerprintOf_eq hf
    obtain ⟨hplainKey, hplain⟩ := hplain
    rw [hfk] at hplainKey
    obtain ⟨hI', hhead, houtcome⟩ := updateKey_reports (g := g) L blacklist updateonly hI hf hplainKey
    obtain ⟨horder, hnone⟩ := updateLoop_keeps_none (g := g) L blacklist updateonly hI' hfp.2 hplain
    obtain ⟨ih1, ih2⟩ := ih hI' hfp.2 hplain hne
    simp only [updateLoop, RoundsReport]
    rw [reports_cons_iff hhead horder hkey]
    rw [hfk] at hkey ⊢
    set r := updateKey H B g blacklist updateonly db key with hr
    set db' := (updateLoop H B g blacklist updateonly r.1 keys).1 with hdb'
    cases houtcome with
    | own hround hreport hcount =>
      -- the entries of the other keys are as they were before the round
      have heq : ∀ k ∈ keys, L.stored r.1 (fingerprintOf H k.publickey) =
          L.stored db (fingerprintOf H k.publickey) := fun k hk => hround _ (hkey k hk).symm
      have htail : Reports H (L.stored db) (L.stored db') keys
            (updateLoop H B g blacklist updateonly r.1 keys).2.1 ↔
          RoundsReport H g blacklist updateonly r.1 keys := by
        rw [← ih1]
        exact ⟨fun h => h.congr heq fun _ _ => rfl,
          fun h => h.congr (fun k hk => (heq k hk).symm) fun _ _ => rfl⟩
      have hkept : RoundsReport H g blacklist updateonly r.1 keys →
          L.stored db' f = L.stored r.1 f :=
        fun h => (ih2 h).1 f fun k hk => (hkey k hk).symm
      rw [htail]
      refine ⟨and_congr_left fun h => by rw [hkept h, hreport], ?_⟩
      rintro ⟨-, h⟩
      obtain ⟨hothers, htotal⟩ := ih2 h
      refine ⟨hothers.cons (by rw [hfk]; exact hround), ?_⟩
      rw [htotal, hcount, ← hkept h]
      exact (newlyStored_cons hfk heq).symm
    | lost hbad hleft hbefore hstay =>
      -- there is no entry for the key, also not later
      have hlost : L.stored db' f = none :=
        hnone f (fun k hk => (hkey k hk).symm) (hstay f hbefore)
      refine ⟨⟨fun h => ?_, fun h => absurd h.1 hbad⟩, fun h => absurd h.1 hbad⟩
      have hadded := h.1.left_iff.mp hleft
      rw [hbefore, hlost] at hadded
      exact absurd hadded (not_dataAdded_self none)

variable (H) in
/-- `generic_update_keys` reports what it did to the database `db`: it leaves and broadcasts what was
added, and returns the number of keys that are stored now and were not before. -/
structure ReportsUpdate (sendsync : Bool) (db : B.DB) (keys : List PublicKey) (r : UpdateResult B) :
    Prop where
  left : Reports H (L.stored db) (L.stored r.db) keys r.keys
  sync : r.sync = if sendsync then r.keys else []
  newkeys : r.newkeys = newlyStored H (L.stored db) (L.stored r.db) keys

/-- An update of keys with distinct fingerprints reports what it did if and only if each round does, as
far as those that are merged repeat no user id and no subkey. -/
theorem reportsUpdate_iff {keys : List PublicKey} {db : B.DB} (sendsync : Bool)
    (hI : L.Inv db) (hfp : ∀ key ∈ keys, (fingerprint? H key.publickey).isSome)
    (hplain : RoundsPlain H g blacklist updateonly db keys)
    (hne : keys.Pairwise fun x y => fingerprintOf H x.publickey ≠ fingerprintOf H y.publickey) :
    ReportsUpdate H L sendsync db keys
        (genericUpdateKeys H B g blacklist updateonly sendsync db keys) ↔
      RoundsReport H g blacklist updateonly db keys := by
  obtain ⟨h1, h2⟩ := updateLoop_reports_iff (g := g) L blacklist updateonly hI hfp hplain hne
  constructor
  · exact fun h => h1.mp h.left
  · exact fun h => ⟨h1.mpr h, rfl, (h2 h).2⟩

end

end Onak
