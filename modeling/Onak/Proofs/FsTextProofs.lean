import Onak.Proofs.FsProofs

/-!
# Proofs: searches in the fs backend

The search arrives at the key ids that are linked under all words. What it delivers is what
`fs_fetch_key_id` finds for them, which need not be the key of that id: a key id that fits into 32
bits is taken for a short one.
-/

namespace Onak

open HardLinks

section

variable {V : Volume} {fs : Fs}

/-! ## Directories -/

theorem mem_names {name : Path → Option UInt64} {keyid : UInt64} :
    keyid ∈ fs.names V name ↔ ∃ p, (fs.inode p).isSome ∧ name p = some keyid := by
  unfold Fs.names
  rw [(V.order_perm _).mem_iff, List.mem_filterMap]
  refine exists_congr fun p => and_congr_left fun _ => ?_
  rw [← AList.mem_keys, ← AList.lookup_isSome]
  rfl

theorem names_nodup {name : Path → Option UInt64}
    (h : ∀ p q keyid, name p = some keyid → name q = some keyid → p = q) :
    (fs.names V name).Nodup := by
  unfold Fs.names
  rw [(V.order_perm _).nodup_iff]
  exact fs.links.keys_nodup.filterMap fun p q keyid hp hq => h p q keyid hp hq

theorem inKeydir_eq_some {short : UInt32} {p : Path} {keyid : UInt64} :
    p.inKeydir short = some keyid ↔ p = .key keyid ∧ keyid.toUInt32 = short := by
  cases p <;> simp only [Path.inKeydir, reduceCtorEq, false_and]
  rw [Option.ite_none_right_eq_some, Option.some.injEq, Path.key.injEq]
  constructor
  · rintro ⟨hshort, rfl⟩
    exact ⟨rfl, hshort⟩
  · rintro ⟨rfl, hshort⟩
    exact ⟨hshort, rfl⟩

theorem inSubkeydir_eq_some {short : UInt32} {p : Path} {keyid : UInt64} :
    p.inSubkeydir short = some keyid ↔ p = .subkey keyid ∧ keyid.toUInt32 = short := by
  cases p <;> simp only [Path.inSubkeydir, reduceCtorEq, false_and]
  rw [Option.ite_none_right_eq_some, Option.some.injEq, Path.subkey.injEq]
  constructor
  · rintro ⟨hshort, rfl⟩
    exact ⟨rfl, hshort⟩
  · rintro ⟨rfl, hshort⟩
    exact ⟨hshort, rfl⟩

theorem inWorddir_eq_some {word : Word} {p : Path} {keyid : UInt64} :
    p.inWorddir word = some keyid ↔ p = .word word keyid := by
  cases p <;> simp only [Path.inWorddir, reduceCtorEq]
  rw [Option.ite_none_right_eq_some, Option.some.injEq, Path.word.injEq]

theorem mem_worddir {w : Word} {keyid : UInt64} :
    keyid ∈ fs.names V (Path.inWorddir w) ↔ (fs.inode (.word w keyid)).isSome := by
  rw [mem_names]
  constructor
  · rintro ⟨p, hp, hname⟩
    rwa [inWorddir_eq_some.mp hname] at hp
  · intro h
    exact ⟨_, h, inWorddir_eq_some.mpr rfl⟩

/-! ## Lookups by key id -/

/-- If the key id itself has a file, `fs_getfullkeyid` finds a name that has one. -/
theorem fsGetfullkeyid_exists {keyid : UInt64} (h : (fs.inode (.key keyid)).isSome) :
    (fs.inode (.key (fsGetfullkeyid V fs keyid))).isSome ∨
      (fs.inode (.subkey (fsGetfullkeyid V fs keyid))).isSome := by
  unfold fsGetfullkeyid
  simp only
  have hself : keyid ∈ fs.names V (Path.inKeydir keyid.toUInt32) :=
    mem_names.mpr ⟨_, h, inKeydir_eq_some.mpr ⟨rfl, rfl⟩⟩
  cases hdir : fs.names V (Path.inKeydir keyid.toUInt32) with
  | nil =>
    rw [hdir] at hself
    exact absurd hself (by simp)
  | cons full names =>
    obtain ⟨p, hp, hname⟩ := mem_names.mp (show full ∈ fs.names V _ by rw [hdir]; simp)
    rw [(inKeydir_eq_some.mp hname).1] at hp
    rw [List.headD_cons]
    split_ifs with hzero
    · cases hsub : fs.names V (Path.inSubkeydir keyid.toUInt32) with
      | nil => exact Or.inl (hzero ▸ hp)
      | cons sub subs =>
        obtain ⟨q, hq, hname'⟩ := mem_names.mp (show sub ∈ fs.names V _ by rw [hsub]; simp)
        rw [(inSubkeydir_eq_some.mp hname').1] at hq
        exact Or.inr hq
    · exact Or.inl hp

/-- A key id with a file leads to some key. -/
theorem fsFetchKeyId_isSome {keyid : UInt64} (h : (fs.inode (.key keyid)).isSome) :
    (fsFetchKeyId V fs keyid).isSome := by
  unfold fsFetchKeyId
  generalize hfull : (if keyid >>> 32 = 0 then fsGetfullkeyid V fs keyid else keyid) = full
  have hthere : (fs.inode (.key full)).isSome ∨ (fs.inode (.subkey full)).isSome := by
    rw [← hfull]
    split_ifs
    · exact fsGetfullkeyid_exists h
    · exact Or.inl h
  cases hkey : fs.inode (.key full) with
  | some n => simp [Disk.read, hkey]
  | none =>
    rw [hkey] at hthere
    obtain ⟨n, hn⟩ := Option.isSome_iff_exists.mp (hthere.resolve_left (by simp))
    simp [Disk.read, hkey, hn]

/-- A key id that does not fit into 32 bits leads to its own key. -/
theorem fsFetchKeyId_own {keyid : UInt64} (hlong : keyid >>> 32 ≠ 0)
    (h : (fs.inode (.key keyid)).isSome) : fsFetchKeyId V fs keyid = fs.read (.key keyid) := by
  obtain ⟨n, hn⟩ := Option.isSome_iff_exists.mp h
  have hread : fs.read (.key keyid) = some (fs.file n) := Disk.read_eq_some_iff.mpr ⟨n, hn, rfl⟩
  simp only [fsFetchKeyId, if_neg hlong, hread]

/-! ## The words -/

theorem internalGetKeyByWord_eq (word : Word) (mct : List UInt64) :
    internalGetKeyByWord V fs word mct =
      ((fs.names V (Path.inWorddir word)).filter fun keyid =>
        decide (mct = [] ∨ keyid ∈ mct)).reverse := by
  have hloop : ∀ names keys : List UInt64,
      names.foldl (fun keys keyid => if mct = [] ∨ keyid ∈ mct then keyid :: keys else keys) keys =
        (names.filter fun keyid => decide (mct = [] ∨ keyid ∈ mct)).reverse ++ keys := by
    intro names
    induction names with
    | nil => exact fun keys => rfl
    | cons keyid names ih =>
      intro keys
      rw [List.foldl_cons, ih, List.filter_cons]
      by_cases h : mct = [] ∨ keyid ∈ mct
      · simp [h]
      · simp [h]
  exact (hloop _ []).trans (List.append_nil _)

theorem mem_internalGetKeyByWord {word : Word} {mct : List UInt64} (hmct : mct ≠ [])
    {keyid : UInt64} :
    keyid ∈ internalGetKeyByWord V fs word mct ↔
      (fs.inode (.word word keyid)).isSome ∧ keyid ∈ mct := by
  rw [internalGetKeyByWord_eq, List.mem_reverse, List.mem_filter, mem_worddir]
  simp [hmct]

theorem fsTextLoop_eq {keylist : List UInt64} (hne : keylist ≠ []) {words : List Word} {last : Word}
    (hlast : words.getLast? = some last) :
    fsTextLoop V fs keylist words =
      ((fs.names V (Path.inWorddir last)).filter fun keyid =>
        decide (keyid ∈ keylist) && words.all fun w => (fs.inode (.word w keyid)).isSome).reverse := by
  induction words generalizing keylist with
  | nil => cases hlast
  | cons word words ih =>
    rw [fsTextLoop]
    split_ifs with hempty
    · -- no name of the last directory passes, as it would have passed this one
      symm
      rw [List.reverse_eq_nil_iff, List.filter_eq_nil_iff]
      intro keyid _ hpass
      simp only [List.all_cons, Bool.and_eq_true, decide_eq_true_eq] at hpass
      have hmem := (mem_internalGetKeyByWord (V := V) hne).mpr ⟨hpass.2.1, hpass.1⟩
      rw [hempty] at hmem
      exact absurd hmem (by simp)
    · cases words with
      | nil =>
        obtain rfl : word = last := by simpa using hlast
        rw [fsTextLoop, internalGetKeyByWord_eq]
        congr 1
        refine List.filter_congr fun keyid hkeyid => ?_
        simp [hne, mem_worddir.mp hkeyid]
      | cons word' words =>
        rw [List.getLast?_cons_cons] at hlast
        rw [ih hempty hlast]
        congr 1
        refine List.filter_congr fun keyid _ => ?_
        rw [List.all_cons (a := word), ← Bool.and_assoc]
        congr 1
        rw [Bool.eq_iff_iff]
        simp only [decide_eq_true_eq, Bool.and_eq_true]
        rw [mem_internalGetKeyByWord hne, and_comm]

/-- The first word and the loop over the others arrive at the hits. -/
theorem fsTextLoop_hits (word : Word) (words : List Word) :
    (if internalGetKeyByWord V fs word [] = [] then []
      else fsTextLoop V fs (internalGetKeyByWord V fs word []) words) =
      fs.hits V (word :: words) := by
  have hfirst : internalGetKeyByWord V fs word [] = (fs.names V (Path.inWorddir word)).reverse := by
    rw [internalGetKeyByWord_eq]
    simp
  have hmem : ∀ {keyid}, keyid ∈ internalGetKeyByWord V fs word [] ↔
      (fs.inode (.word word keyid)).isSome := by
    intro keyid
    rw [hfirst, List.mem_reverse, mem_worddir]
  unfold Fs.hits
  cases words with
  | nil =>
    have hall : ((fs.names V (Path.inWorddir word)).filter fun keyid =>
        [word].all fun w => (fs.inode (.word w keyid)).isSome) =
          fs.names V (Path.inWorddir word) := by
      rw [List.filter_eq_self]
      intro keyid hkeyid
      simp [mem_worddir.mp hkeyid]
    simp only [List.getLast?_singleton, Option.elim_some, hall, fsTextLoop]
    split_ifs with hempty
    · exact (hfirst.symm.trans hempty).symm
    · exact hfirst
  | cons word' words =>
    obtain ⟨last, hlast⟩ : ∃ last, (word' :: words).getLast? = some last :=
      ⟨_, List.getLast?_eq_some_getLast (List.cons_ne_nil _ _)⟩
    rw [List.getLast?_cons_cons, hlast, Option.elim_some]
    split_ifs with hempty
    · symm
      rw [List.reverse_eq_nil_iff, List.filter_eq_nil_iff]
      intro keyid _ hpass
      simp only [List.all_cons, Bool.and_eq_true] at hpass
      have hkeyid := hmem.mpr hpass.1
      rw [hempty] at hkeyid
      exact absurd hkeyid (by simp)
    · rw [fsTextLoop_eq hempty hlast]
      congr 1
      refine List.filter_congr fun keyid _ => ?_
      rw [List.all_cons (a := word)]
      congr 1
      rw [Bool.eq_iff_iff, decide_eq_true_eq]
      exact hmem

theorem mem_hits {words : List Word} (hne : words ≠ []) {keyid : UInt64} :
    keyid ∈ fs.hits V words ↔ ∀ w ∈ words, (fs.inode (.word w keyid)).isSome := by
  obtain ⟨last, hlast⟩ : ∃ last, words.getLast? = some last :=
    ⟨_, List.getLast?_eq_some_getLast hne⟩
  unfold Fs.hits
  rw [hlast, Option.elim_some, List.mem_reverse, List.mem_filter, mem_worddir, List.all_eq_true]
  constructor
  · exact And.right
  · intro hall
    exact ⟨hall last (List.mem_of_getLast? hlast), hall⟩

theorem hits_nodup (words : List Word) : (fs.hits V words).Nodup := by
  unfold Fs.hits
  rw [List.nodup_reverse]
  refine List.Nodup.filter _ ?_
  cases words.getLast? with
  | none => exact List.nodup_nil
  | some w =>
    refine names_nodup fun p q keyid hp hq => ?_
    rw [inWorddir_eq_some.mp hp, inWorddir_eq_some.mp hq]

/-! ## What is delivered -/

theorem lookedUp_front {ι : Type} (found : ι → Option PublicKey) (left : Nat) (ids : List ι) :
    lookedUp found left ids <+: ids := by
  induction ids generalizing left with
  | nil => exact List.prefix_refl _
  | cons id ids ih =>
    rw [lookedUp]
    refine List.prefix_cons_inj id |>.mpr ?_
    split_ifs
    · exact List.nil_prefix
    · exact ih _

/-- Where every lookup finds a key, as many are made as there is room for keys. -/
theorem lookedUp_eq_take {ι : Type} {found : ι → Option PublicKey} {left : Nat} (hleft : 0 < left)
    {ids : List ι} (hfound : ∀ id ∈ ids, (found id).isSome) : lookedUp found left ids = ids.take left := by
  induction ids generalizing left with
  | nil => rw [lookedUp, List.take_nil]
  | cons id ids ih =>
    obtain ⟨k, hk⟩ := Option.isSome_iff_exists.mp (hfound id List.mem_cons_self)
    obtain ⟨rest, rfl⟩ : ∃ rest, left = rest + 1 := ⟨left - 1, by omega⟩
    have hrest : rest + 1 - (found id).toList.length = rest := by
      rw [hk]
      rfl
    rw [lookedUp, hrest, List.take_succ_cons]
    congr 1
    split_ifs with hzero
    · rw [hzero, List.take_zero]
    · exact ih (Nat.pos_of_ne_zero hzero) fun id' hid' => hfound id' (List.mem_cons_of_mem _ hid')

/-- The loop delivers what is found for the hits that are looked up. -/
theorem fsAddLoop_eq (maxkeys addedkeys : Nat) (keylist : List UInt64) :
    fsAddLoop V fs maxkeys addedkeys keylist =
      (lookedUp (fsFetchKeyId V fs) (maxkeys - addedkeys) keylist).filterMap (fsFetchKeyId V fs) := by
  induction keylist generalizing addedkeys with
  | nil => rfl
  | cons keyid keylist ih =>
    have hleft : maxkeys - addedkeys - (fsFetchKeyId V fs keyid).toList.length =
        maxkeys - (addedkeys + (fsFetchKeyId V fs keyid).toList.length) := Nat.sub_sub _ _ _
    have hfull : maxkeys ≤ addedkeys + (fsFetchKeyId V fs keyid).toList.length ↔
        maxkeys - (addedkeys + (fsFetchKeyId V fs keyid).toList.length) = 0 :=
      Nat.sub_eq_zero_iff_le.symm
    rw [fsAddLoop, lookedUp, hleft]
    simp only [hfull, List.filterMap_cons, ih,
      apply_ite (List.filterMap (fsFetchKeyId V fs)), List.filterMap_nil]
    cases fsFetchKeyId V fs keyid with
    | none => rfl
    | some k => rfl

/-- The answer to a search with words: what is found for the hits, up to the limit, but at least for
the first of them. -/
theorem fsFetchKeyText_eq {maxkeys : Nat} {search : List UInt8} (hwords : wordsOf search ≠ []) :
    fsFetchKeyText V fs maxkeys search =
      some (fsAddLoop V fs maxkeys 0 (fs.hits V (makewordlist [] search))) := by
  unfold fsFetchKeyText
  cases hlist : makewordlist [] search with
  | nil => exact absurd (makewordlist_eq_nil.mp hlist) hwords
  | cons word words =>
    rw [← fsTextLoop_hits]
    simp only
    split_ifs with hempty
    · rfl
    · rfl

/-! ## The answer -/

/-- When `fs_fetch_key_text` answers a search. -/
theorem fsFetchKeyText_answers_iff (V : Volume) (fs : Fs) (maxkeys : Nat) (search : List UInt8) :
    (∃ answer, fsFetchKeyText V fs maxkeys search = some answer ∧
        fs.AnswersSearch maxkeys search answer) ↔
      wordsOf search ≠ [] ∧ fs.HitsFound V maxkeys (makewordlist [] search) := by
  by_cases hwords : wordsOf search = []
  · simp [fsFetchKeyText, makewordlist_eq_nil.mpr hwords, hwords]
  · have hne : makewordlist [] search ≠ [] := fun hnil => hwords (makewordlist_eq_nil.mp hnil)
    have hlooked := (hits_nodup (V := V) (makewordlist [] search)).sublist
      (lookedUp_front (fsFetchKeyId V fs) maxkeys (fs.hits V (makewordlist [] search))).sublist
    have hanswer : fs.AnswersSearch maxkeys search
        ((lookedUp (fsFetchKeyId V fs) maxkeys (fs.hits V (makewordlist [] search))).filterMap
          (fsFetchKeyId V fs)) ↔ fs.HitsFound V maxkeys (makewordlist [] search) :=
      answersSearch_iff hwords (fun keyid => mem_hits hne) hlooked
    rw [fsFetchKeyText_eq hwords, fsAddLoop_eq, Nat.sub_zero]
    constructor
    · rintro ⟨answer, hsome, hexact⟩
      obtain rfl := Option.some.inj hsome
      exact ⟨hwords, hanswer.mp hexact⟩
    · rintro ⟨-, hfound⟩
      exact ⟨_, rfl, hanswer.mpr hfound⟩

/-- The lookups find the hits if the words lead to stored keys, unless the key id of one can be taken
for a short one. -/
theorem hitsFound_of_long {H : Hashes} (hstored : fs.IndexStored) (hown : fs.OwnKeyids H)
    {words : List Word} (hne : words ≠ []) (hlong : ∀ keyid ∈ fs.hits V words, keyid >>> 32 ≠ 0)
    {maxkeys : Nat} (hmax : 0 < maxkeys) : fs.HitsFound V maxkeys words := by
  have hinode : ∀ keyid ∈ fs.hits V words, (fs.inode (.key keyid)).isSome := by
    intro keyid hkeyid
    obtain ⟨w, hw⟩ := List.exists_mem_of_ne_nil _ hne
    exact hstored w keyid ((mem_hits hne).mp hkeyid w hw)
  have hfetch : ∀ keyid ∈ fs.hits V words, fsFetchKeyId V fs keyid = fs.read (.key keyid) :=
    fun keyid hkeyid => fsFetchKeyId_own (hlong keyid hkeyid) (hinode keyid hkeyid)
  have hfound : ∀ keyid ∈ fs.hits V words, (fsFetchKeyId V fs keyid).isSome :=
    fun keyid hkeyid => fsFetchKeyId_isSome (hinode keyid hkeyid)
  unfold Fs.HitsFound
  rw [lookedUp_eq_take hmax hfound]
  refine hitsFound_of_own (List.take_sublist _ _)
    (fun keyid hkeyid => hfetch keyid (List.mem_of_mem_take hkeyid))
    (fun keyid hkeyid => hfound keyid (List.mem_of_mem_take hkeyid)) (fun x y k hx hy => ?_)
    (List.length_take_le _ _) ?_
  · exact Option.some.inj ((hown x k hx).symm.trans (hown y k hy))
  · rcases Nat.le_total maxkeys (fs.hits V words).length with hle | hle
    · exact Or.inl (List.length_take_of_le hle)
    · exact Or.inr (List.take_of_length_le hle)

/-! ## Histories -/

/-- In every history that leaves no outdated link behind, the words lead to stored keys, which are
stored under their own key ids. -/
theorem FsState.Linked.indexStored {H : Hashes} {s : FsState} (h : s.Linked H) :
    s.fs.IndexStored ∧ s.fs.OwnKeyids H := by
  constructor
  · intro w keyid hword
    obtain ⟨n, hn⟩ := Option.isSome_iff_exists.mp hword
    rw [(h.word hn).2]
    rfl
  · intro keyid k hk
    obtain ⟨n, hn, rfl⟩ := Disk.read_eq_some_iff.mp hk
    exact (h.key hn).1

end

/-- The tables of the db4 backend with the key of "Al". -/
def sampleTables : Tables := Tables.afterAll sampleSksHashes [.store sampleAl false]

/-- The files of the fs backend with the key of "Al". -/
def sampleFiles : Fs := (sampleFs [.store sampleAl false]).fs

theorem sampleTables_sound : sampleTables.Sound sampleSksHashes :=
  afterAll_sound (H := sampleSksHashes) (by decide)

theorem sampleFiles_indexStored :
    sampleFiles.IndexStored ∧ sampleFiles.OwnKeyids sampleSksHashes := by
  have hstore := emptyFs_regular (V := sampleVolume) (H := sampleSksHashes) sampleAl
  exact (emptyFs_linked.after hstore.1 hstore.2).indexStored

end Onak
