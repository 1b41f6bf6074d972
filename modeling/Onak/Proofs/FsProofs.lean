import Onak.Fs
import Onak.Proofs.Db4FetchProofs

/-!
# Proofs: the links of the fs backend

Every link under a subkey id or an SKS hash leads to a file that is also the file of a key id, and
what the link says holds of the key in it. Storing keeps this if an update leaves no outdated link
to the file, and deleting does if it finds all of them.
-/

namespace Onak

open HardLinks Runs

variable {V : Volume} {H : Hashes}

/-! ## The invariant -/

/-- What the links say about the files. -/
structure FsState.Linked (H : Hashes) (s : FsState) : Prop where
  key : ∀ {keyid n}, s.fs.inode (.key keyid) = some n →
    getKeyid H (s.fs.file n) = some keyid ∧ s.live keyid = some (s.fs.file n)
  subkey : ∀ {sub n}, s.fs.inode (.subkey sub) = some n →
    sub ∈ subkeyids H (s.fs.file n) ∧ ∃ keyid, s.fs.inode (.key keyid) = some n
  skshash : ∀ {hash n}, s.fs.inode (.skshash hash) = some n →
    getSkshash H (s.fs.file n) = hash ∧ ∃ keyid, s.fs.inode (.key keyid) = some n
  word : ∀ {w keyid n}, s.fs.inode (.word w keyid) = some n →
    w ∈ makewordlistfromkey [] (s.fs.file n) ∧ s.fs.inode (.key keyid) = some n

theorem emptyFs_linked : emptyFs.Linked H where
  word h := absurd h (by simp [emptyFs])
  key h := absurd h (by simp [emptyFs])
  subkey h := absurd h (by simp [emptyFs])
  skshash h := absurd h (by simp [emptyFs])

section

variable {s : FsState}

/-- A file of a key id is stored. -/
theorem FsState.Linked.live_file (h : s.Linked H) {n : Nat}
    (hn : ∃ keyid, s.fs.inode (.key keyid) = some n) : s.Live (s.fs.file n) := by
  obtain ⟨keyid, hkeyid⟩ := hn
  exact ⟨keyid, (h.key hkeyid).2⟩

theorem FsState.Linked.live_id (h : s.Linked H) {keyid : UInt64} {k : PublicKey}
    (hk : fsFetchKeyId V s.fs keyid = some k) : s.Live k := by
  unfold fsFetchKeyId at hk
  simp only at hk
  generalize (if keyid >>> 32 = 0 then fsGetfullkeyid V s.fs keyid else keyid) = full at hk
  split at hk
  · rename_i key hread
    obtain ⟨n, hn, rfl⟩ := Disk.read_eq_some_iff.mp (hread.trans hk)
    exact h.live_file ⟨full, hn⟩
  · obtain ⟨n, hn, rfl⟩ := Disk.read_eq_some_iff.mp hk
    exact h.live_file (h.subkey hn).2

theorem mem_fsAddLoop {fs : Fs} {maxkeys addedkeys : Nat} {keylist : List UInt64} {k : PublicKey}
    (hk : k ∈ fsAddLoop V fs maxkeys addedkeys keylist) :
    ∃ keyid ∈ keylist, fsFetchKeyId V fs keyid = some k := by
  induction keylist generalizing addedkeys with
  | nil => exact absurd hk (by simp [fsAddLoop])
  | cons keyid keylist ih =>
    simp only [fsAddLoop, List.mem_append, Option.mem_toList] at hk
    rcases hk with hfound | hrest
    · exact ⟨keyid, by simp, hfound⟩
    · split_ifs at hrest with hmax
      · exact absurd hrest (by simp)
      · obtain ⟨keyid', hmem, hfetch⟩ := ih hrest
        exact ⟨keyid', List.mem_cons_of_mem _ hmem, hfetch⟩

theorem FsState.Linked.live_text (h : s.Linked H) {maxkeys : Nat} {search : List UInt8}
    {keys : List PublicKey} (hkeys : fsFetchKeyText V s.fs maxkeys search = some keys) :
    ∀ k ∈ keys, s.Live k := by
  intro k hk
  unfold fsFetchKeyText at hkeys
  split at hkeys
  · cases hkeys
  · simp only at hkeys
    split_ifs at hkeys
    · cases hkeys
      exact absurd hk (by simp)
    · cases hkeys
      obtain ⟨keyid, -, hfetch⟩ := mem_fsAddLoop hk
      exact h.live_id hfetch

theorem FsState.Linked.sound (h : s.Linked H) : s.Sound V H where
  skshash := by
    intro hash k hk
    obtain ⟨n, hn, rfl⟩ := Disk.read_eq_some_iff.mp hk
    exact (h.skshash hn).1
  live_skshash := by
    intro hash k hk
    obtain ⟨n, hn, rfl⟩ := Disk.read_eq_some_iff.mp hk
    exact h.live_file (h.skshash hn).2
  live_id := h.live_id
  live_text := h.live_text

/-! ## Storing -/

theorem mem_indexPaths_subkey {k : PublicKey} {words : List Word} {keyid sub : UInt64} :
    Path.subkey sub ∈ indexPaths H k words keyid ↔ sub ∈ subkeyids H k := by
  simp [indexPaths]

theorem mem_indexPaths_skshash {k : PublicKey} {words : List Word} {keyid : UInt64}
    {hash : List UInt8} :
    Path.skshash hash ∈ indexPaths H k words keyid ↔ hash = getSkshash H k := by
  simp [indexPaths]

theorem mem_indexPaths_word {k : PublicKey} {words : List Word} {keyid id : UInt64} {w : Word} :
    Path.word w id ∈ indexPaths H k words keyid ↔ w ∈ words ∧ keyid = id := by
  simp [indexPaths]

theorem key_not_mem_indexPaths {k : PublicKey} {words : List Word} {keyid keyid' : UInt64} :
    Path.key keyid' ∉ indexPaths H k words keyid := by
  simp [indexPaths]

/-- A key that has the user ids of another has its words. -/
theorem PublicKey.ExtendedBy.words {old new : PublicKey} (h : old.ExtendedBy new) {w : Word}
    (hw : w ∈ makewordlistfromkey [] old) : w ∈ makewordlistfromkey [] new := by
  obtain ⟨uid, huid, hword⟩ := mem_makewordlistfromkey.mp hw
  obtain ⟨sp, hsp, rfl⟩ := List.mem_map.mp huid
  obtain ⟨hmem, htag⟩ := List.mem_filter.mp hsp
  obtain ⟨sp', hsp', hpacket⟩ := h.1 sp hmem
  refine mem_makewordlistfromkey.mpr ⟨_, List.mem_map.mpr ⟨sp', ?_, rfl⟩, ?_⟩
  · exact List.mem_filter.mpr ⟨hsp', by rw [hpacket]; exact htag⟩
  · rw [hpacket]
    exact hword

/-- A file that holds the key already gets all the links of the key. -/
theorem FsState.Linked.linkAll (h : s.Linked H) {keyid : UInt64} {n : Nat} {k : PublicKey}
    (hn : s.fs.inode (.key keyid) = some n) (hk : s.fs.file n = reread k) {words : List Word}
    (hwords : ∀ w ∈ words, w ∈ makewordlistfromkey [] k) :
    FsState.Linked H ⟨s.fs.linkAll (.key keyid) (indexPaths H k words keyid), s.live⟩ := by
  have hinode := s.fs.inode_linkAll hn (indexPaths H k words keyid)
  have hfile := s.fs.file_linkAll (.key keyid) (indexPaths H k words keyid)
  have hkey : ∀ id, (s.fs.linkAll (.key keyid) (indexPaths H k words keyid)).inode (.key id) =
      s.fs.inode (.key id) := by
    intro id
    rw [hinode, if_neg fun hmem => key_not_mem_indexPaths hmem.1]
  refine ⟨?_, ?_, ?_, ?_⟩
  · intro id m hm
    rw [hkey] at hm
    rw [hfile]
    exact h.key hm
  · intro sub m hm
    simp only [hkey, hfile]
    rw [hinode] at hm
    split_ifs at hm with hnew
    · obtain rfl := Option.some.inj hm
      rw [hk]
      exact ⟨mem_indexPaths_subkey.mp hnew.1, keyid, hn⟩
    · exact h.subkey hm
  · intro hash m hm
    simp only [hkey, hfile]
    rw [hinode] at hm
    split_ifs at hm with hnew
    · obtain rfl := Option.some.inj hm
      rw [hk]
      exact ⟨(mem_indexPaths_skshash.mp hnew.1).symm, keyid, hn⟩
    · exact h.skshash hm
  · intro w id m hm
    simp only [hkey, hfile]
    rw [hinode] at hm
    split_ifs at hm with hnew
    · obtain rfl := Option.some.inj hm
      obtain ⟨hw, rfl⟩ := mem_indexPaths_word.mp hnew.1
      rw [hk]
      exact ⟨hwords w hw, hn⟩
    · exact h.word hm

/-- A new file for a key id that has none. -/
theorem FsState.Linked.create (h : s.Linked H) {keyid : UInt64} {k : PublicKey}
    (hid : getKeyid H k = some keyid) (hnone : s.fs.inode (.key keyid) = none) :
    FsState.Linked H ⟨s.fs.create (.key keyid) (reread k),
      Function.update s.live keyid (some (reread k))⟩ := by
  have hold : ∀ {p n}, s.fs.inode p = some n →
      (s.fs.create (.key keyid) (reread k)).inode p = some n ∧
        (s.fs.create (.key keyid) (reread k)).file n = s.fs.file n := by
    intro p n hp
    have hne : p ≠ .key keyid := by
      rintro rfl
      rw [hnone] at hp
      cases hp
    have hlt := s.fs.inode_lt hp
    rw [s.fs.inode_create, if_neg hne, s.fs.file_create, if_neg (by omega)]
    exact ⟨hp, rfl⟩
  refine ⟨?_, ?_, ?_, ?_⟩
  · intro id n hn
    by_cases hkeyid : id = keyid
    · subst hkeyid
      rw [s.fs.inode_create, if_pos rfl] at hn
      obtain rfl := Option.some.inj hn
      rw [s.fs.file_create, if_pos rfl]
      exact ⟨hid, Function.update_self ..⟩
    · rw [s.fs.inode_create, if_neg (fun heq => hkeyid (Path.key.inj heq))] at hn
      rw [(hold hn).2]
      obtain ⟨hown, hlive⟩ := h.key hn
      exact ⟨hown, (Function.update_of_ne hkeyid _ _).trans hlive⟩
  · intro sub n hn
    rw [s.fs.inode_create, if_neg (by simp)] at hn
    obtain ⟨hsub, id, hkey⟩ := h.subkey hn
    rw [(hold hn).2]
    exact ⟨hsub, id, (hold hkey).1⟩
  · intro hash n hn
    rw [s.fs.inode_create, if_neg (by simp)] at hn
    obtain ⟨hsks, id, hkey⟩ := h.skshash hn
    rw [(hold hn).2]
    exact ⟨hsks, id, (hold hkey).1⟩
  · intro w id n hn
    rw [s.fs.inode_create, if_neg (by simp)] at hn
    obtain ⟨hw, hkey⟩ := h.word hn
    rw [(hold hn).2]
    exact ⟨hw, (hold hkey).1⟩

/-- The file of a key id is rewritten with a key that has all the links that lead there. -/
theorem FsState.Linked.write (h : s.Linked H) {keyid : UInt64} {n : Nat} {k : PublicKey}
    (hid : getKeyid H k = some keyid) (hn : s.fs.inode (.key keyid) = some n)
    (hsks : ∀ hash, s.fs.inode (.skshash hash) = some n → hash = getSkshash H k)
    (hsub : ∀ sub, s.fs.inode (.subkey sub) = some n → sub ∈ subkeyids H k)
    (hext : (s.fs.file n).ExtendedBy k) :
    FsState.Linked H ⟨s.fs.write n (reread k),
      Function.update s.live keyid (some (reread k))⟩ := by
  refine ⟨?_, ?_, ?_, ?_⟩
  · intro id m hm
    simp only [Disk.inode_write] at hm
    rw [s.fs.file_write]
    obtain ⟨hown, hlive⟩ := h.key hm
    by_cases hmn : m = n
    · subst hmn
      -- two key ids do not share a file, for it says which one it belongs to
      have hsame : id = keyid := Option.some.inj (hown.symm.trans (h.key hn).1)
      subst hsame
      rw [if_pos rfl]
      exact ⟨hid, Function.update_self ..⟩
    · have hne : id ≠ keyid := by
        rintro rfl
        exact hmn (Option.some.inj (hm.symm.trans hn))
      rw [if_neg hmn]
      exact ⟨hown, (Function.update_of_ne hne _ _).trans hlive⟩
  · intro sub m hm
    simp only [Disk.inode_write] at hm ⊢
    rw [s.fs.file_write]
    refine ⟨?_, (h.subkey hm).2⟩
    split_ifs with hmn
    · exact hsub sub (hmn ▸ hm)
    · exact (h.subkey hm).1
  · intro hash m hm
    simp only [Disk.inode_write] at hm ⊢
    rw [s.fs.file_write]
    refine ⟨?_, (h.skshash hm).2⟩
    split_ifs with hmn
    · exact (hsks hash (hmn ▸ hm)).symm
    · exact (h.skshash hm).1
  · intro w id m hm
    simp only [Disk.inode_write] at hm ⊢
    rw [s.fs.file_write]
    obtain ⟨hw, hkey⟩ := h.word hm
    refine ⟨?_, hkey⟩
    split_ifs with hmn
    · exact hext.words (hmn ▸ hw)
    · exact hw

theorem FsState.after_store_none {k : PublicKey} (update : Bool) (hid : getKeyid H k = none) :
    s.after V H (.store k update) = s := by
  simp [FsState.after, fsStoreKey, hid]

theorem FsState.after_store_new {k : PublicKey} {keyid : UInt64} (hid : getKeyid H k = some keyid)
    (hn : s.fs.inode (.key keyid) = none) :
    s.after V H (.store k false) =
      ⟨(s.fs.create (.key keyid) (reread k)).linkAll (.key keyid)
          (indexPaths H k ((makewordlistfromkey [] k).filter V.fits) keyid),
        Function.update s.live keyid (some (reread k))⟩ := by
  simp [FsState.after, fsStoreKey, fsWriteKey, hid, hn]

theorem FsState.after_store_update {k : PublicKey} {keyid : UInt64} {n : Nat}
    (hid : getKeyid H k = some keyid) (hn : s.fs.inode (.key keyid) = some n) :
    s.after V H (.store k true) =
      ⟨(s.fs.write n (reread k)).linkAll (.key keyid)
          (indexPaths H k ((makewordlistfromkey [] k).filter V.fits) keyid),
        Function.update s.live keyid (some (reread k))⟩ := by
  simp [FsState.after, fsStoreKey, fsWriteKey, hid, hn]

theorem FsState.Linked.store (h : s.Linked H) {k : PublicKey} {update : Bool}
    (hreg : FsCall.Regular H s (.store k update))
    (hlinks : FsCall.LeavesNoLink V H s (.store k update)) :
    (s.after V H (.store k update)).Linked H := by
  cases hid : getKeyid H k with
  | none =>
    rw [FsState.after_store_none update hid]
    exact h
  | some keyid =>
    obtain ⟨hupdate, hext⟩ := hreg keyid hid
    have hwords : ∀ w ∈ (makewordlistfromkey [] k).filter V.fits, w ∈ makewordlistfromkey [] k :=
      fun w hw => (List.mem_filter.mp hw).1
    cases hn : s.fs.inode (.key keyid) with
    | none =>
      obtain rfl : update = false := by simpa [hn] using hupdate
      rw [FsState.after_store_new hid hn]
      refine (h.create hid hn).linkAll (n := s.fs.next) ?_ ?_ hwords
      · exact (s.fs.inode_create _ _ _).trans (if_pos rfl)
      · exact (s.fs.file_create _ _ _).trans (if_pos rfl)
    | some n =>
      obtain rfl : update = true := by simpa [hn] using hupdate
      obtain ⟨hsks, hsub⟩ := hlinks keyid n hid hn
      rw [FsState.after_store_update hid hn]
      have hold := hext _ (Disk.read_eq_some_iff.mpr ⟨n, hn, rfl⟩)
      refine (h.write hid hn hsks hsub hold).linkAll hn ?_ hwords
      exact (s.fs.file_write _ _ _).trans (if_pos rfl)

/-! ## Deleting -/

/-- The paths that `fs_delete_key` removes for a key id. -/
def deletedPaths (V : Volume) (H : Hashes) (fs : Fs) (keyid : UInt64) : List Path :=
  ((fsFetchKeyId V fs keyid).elim [] fun pk =>
    indexPaths H pk (makewordlistfromkey [] pk) keyid) ++ [.key keyid]

theorem fsDeleteKey_eq {fs : Fs} {fp : Fingerprint} (h : fingerprint2keyid fp ≠ 0) :
    fsDeleteKey V H fs fp = fs.unlinkAll (deletedPaths V H fs (fingerprint2keyid fp)) := by
  unfold fsDeleteKey deletedPaths
  simp only [if_neg h]
  cases fsFetchKeyId V fs (fingerprint2keyid fp) <;> rfl

theorem key_mem_deletedPaths {fs : Fs} {keyid id : UInt64} :
    Path.key id ∈ deletedPaths V H fs keyid ↔ id = keyid := by
  unfold deletedPaths
  cases fsFetchKeyId V fs keyid with
  | none => simp
  | some pk => simp [key_not_mem_indexPaths]

/-- If the key id leads to its own key, all links to this key are among the paths. -/
theorem FsState.Linked.mem_deletedPaths (h : s.Linked H) {keyid : UInt64} {n : Nat}
    (hfetch : fsFetchKeyId V s.fs keyid = some (s.fs.file n)) :
    (∀ sub, s.fs.inode (.subkey sub) = some n → .subkey sub ∈ deletedPaths V H s.fs keyid) ∧
      (∀ hash, s.fs.inode (.skshash hash) = some n →
        .skshash hash ∈ deletedPaths V H s.fs keyid) ∧
      ∀ w, s.fs.inode (.word w keyid) = some n → .word w keyid ∈ deletedPaths V H s.fs keyid := by
  unfold deletedPaths
  rw [hfetch]
  refine ⟨?_, ?_, ?_⟩
  · intro sub hsub
    exact List.mem_append_left _ (mem_indexPaths_subkey.mpr (h.subkey hsub).1)
  · intro hash hhash
    exact List.mem_append_left _ (mem_indexPaths_skshash.mpr (h.skshash hhash).1.symm)
  · intro w hw
    exact List.mem_append_left _ (mem_indexPaths_word.mpr ⟨(h.word hw).1, rfl⟩)

/-- A file with another key id than the deleted one belongs to a key that stays stored. -/
theorem FsState.Linked.key_stays (h : s.Linked H) {fp : Fingerprint}
    (hlinks : FsCall.LeavesNoLink V H s (.delete fp)) {id : UInt64} {n : Nat}
    (hn : s.fs.inode (.key id) = some n) (hid : id ≠ fingerprint2keyid fp ∨ id = 0) :
    getKeyid H (s.fs.file n) = some id ∧
      (s.live id).filter (fun k => fingerprint? H k.publickey ≠ some fp) = some (s.fs.file n) := by
  obtain ⟨hown, hlive⟩ := h.key hn
  refine ⟨hown, ?_⟩
  rw [hlive, Option.filter_some, if_pos]
  simp only [ne_eq, decide_eq_true_eq]
  intro hfp
  obtain ⟨heq, hne⟩ := hlinks.1 id _ (Disk.read_eq_some_iff.mpr ⟨n, hn, rfl⟩) hfp
  exact hid.elim (fun h => h heq) hne

/-- The file of a link that stays keeps its key id. -/
theorem inode_key_unlinkAll {keyid id : UInt64} {p : Path} {n : Nat}
    (hstays : p ∉ deletedPaths V H s.fs keyid)
    (hgone : s.fs.inode (.key keyid) = some n → p ∈ deletedPaths V H s.fs keyid)
    (hid : s.fs.inode (.key id) = some n) :
    (s.fs.unlinkAll (deletedPaths V H s.fs keyid)).inode (.key id) = some n := by
  rw [Disk.inode_unlinkAll, if_neg, hid]
  rw [key_mem_deletedPaths]
  rintro rfl
  exact hstays (hgone hid)

theorem FsState.Linked.delete (h : s.Linked H) {fp : Fingerprint}
    (hlinks : FsCall.LeavesNoLink V H s (.delete fp)) :
    (s.after V H (.delete fp)).Linked H := by
  by_cases hzero : fingerprint2keyid fp = 0
  · have hafter : s.after V H (.delete fp) = ⟨s.fs,
        fun id => (s.live id).filter fun k => fingerprint? H k.publickey ≠ some fp⟩ := by
      simp [FsState.after, fsDeleteKey, hzero]
    rw [hafter]
    refine ⟨fun hn => h.key_stays hlinks hn ?_, h.subkey, h.skshash, h.word⟩
    rw [hzero]
    exact (em _).symm
  · have hafter : s.after V H (.delete fp) =
        ⟨s.fs.unlinkAll (deletedPaths V H s.fs (fingerprint2keyid fp)),
          fun id => (s.live id).filter fun k => fingerprint? H k.publickey ≠ some fp⟩ := by
      simp [FsState.after, fsDeleteKey_eq hzero]
    have hinode := s.fs.inode_unlinkAll (deletedPaths V H s.fs (fingerprint2keyid fp))
    have hfile := s.fs.file_unlinkAll (deletedPaths V H s.fs (fingerprint2keyid fp))
    -- all links to the file of the key id are removed with it
    have hpaths : ∀ {n}, s.fs.inode (.key (fingerprint2keyid fp)) = some n → _ := fun hid =>
      h.mem_deletedPaths (hlinks.2 _ (Disk.read_eq_some_iff.mpr ⟨_, hid, rfl⟩) hzero)
    rw [hafter]
    refine ⟨?_, ?_, ?_, ?_⟩
    · intro id n hn
      simp only [hfile]
      rw [hinode] at hn
      split_ifs at hn with hmem
      exact h.key_stays hlinks hn (Or.inl fun heq => hmem (key_mem_deletedPaths.mpr heq))
    · intro sub n hn
      simp only [hfile]
      rw [hinode] at hn
      split_ifs at hn with hmem
      obtain ⟨hsub, id, hid⟩ := h.subkey hn
      exact ⟨hsub, id, inode_key_unlinkAll hmem (fun hgone => (hpaths hgone).1 sub hn) hid⟩
    · intro hash n hn
      simp only [hfile]
      rw [hinode] at hn
      split_ifs at hn with hmem
      obtain ⟨hsks, id, hid⟩ := h.skshash hn
      exact ⟨hsks, id, inode_key_unlinkAll hmem (fun hgone => (hpaths hgone).2.1 hash hn) hid⟩
    · intro w id n hn
      simp only [hfile]
      rw [hinode] at hn
      split_ifs at hn with hmem
      obtain ⟨hw, hid⟩ := h.word hn
      refine ⟨hw, ?_⟩
      rw [hinode, if_neg, hid]
      rw [key_mem_deletedPaths]
      rintro rfl
      exact hmem ((hpaths hid).2.2 w hn)

end

/-! ## Histories -/

theorem FsState.Linked.after {s : FsState} (h : s.Linked H) {c : FsCall}
    (hreg : c.Regular H s) (hlinks : c.LeavesNoLink V H s) : (s.after V H c).Linked H := by
  cases c with
  | store k update => exact h.store hreg hlinks
  | delete fp => exact h.delete hlinks

/-- A file system with short names that lists the names as they are. -/
def sampleVolume : Volume := ⟨fun w => w.length ≤ 255, id, fun _ => .refl _, fun _ => reread⟩

/-- What a history of sample keys leaves behind. -/
def sampleFs (calls : List FsCall) : FsState :=
  calls.foldl (FsState.after sampleVolume sampleSksHashes) emptyFs

theorem emptyFs_regular (k : PublicKey) :
    FsCall.Regular H emptyFs (.store k false) ∧ FsCall.LeavesNoLink V H emptyFs (.store k false) := by
  constructor
  · intro keyid _
    exact ⟨by simp [emptyFs], fun old hold => absurd hold (by simp [emptyFs, Disk.read])⟩
  · intro keyid n _ hn
    exact absurd hn (by simp [emptyFs])

/-- The only key that is stored first is the only one there. -/
theorem read_sampleFs {k k' : PublicKey} {id keyid : UInt64}
    (hid : getKeyid sampleSksHashes k = some id)
    (hread : (sampleFs [.store k false]).fs.read (.key keyid) = some k') :
    keyid = id ∧ k' = reread k := by
  have hstore := emptyFs_regular (V := sampleVolume) (H := sampleSksHashes) k
  have hlinked := emptyFs_linked.after hstore.1 hstore.2
  obtain ⟨n, hn, rfl⟩ := Disk.read_eq_some_iff.mp hread
  have hlive : (sampleFs [.store k false]).live keyid = some _ := (hlinked.key hn).2
  have hupdate : (sampleFs [.store k false]).live =
      Function.update (fun _ => none) id (some (reread k)) := by
    simp [sampleFs, FsState.after, hid, emptyFs]
  rw [hupdate, Function.update_apply] at hlive
  split_ifs at hlive with heq
  exact ⟨heq, (Option.some.inj hlive).symm⟩

end Onak
