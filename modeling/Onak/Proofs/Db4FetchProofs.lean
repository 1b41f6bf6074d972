import Onak.Db4Fetch
import Onak.Proofs.Db4IndexProofs

/-!
# Proofs: lookups in the db4 backend

The passes of `db4_fetch_key_text` compute the intersection of the entries of all words.
-/

namespace Onak

open Bisect

theorem fingerprintCmp_eq : fingerprintCmp = compareLex (compareOn List.length) compare := by
  funext a b
  unfold fingerprintCmp compareLex compareOn
  split_ifs with hlt hgt
  · rw [Nat.compare_eq_lt.mpr hlt]
    rfl
  · rw [Nat.compare_eq_gt.mpr hgt]
    rfl
  · rw [Nat.compare_eq_eq.mpr (by omega)]
    rfl

instance : Std.TransCmp fingerprintCmp := by
  rw [fingerprintCmp_eq]
  infer_instance

instance : Std.LawfulEqCmp fingerprintCmp where
  compare_self := Std.ReflCmp.compare_self
  eq_of_compare := by
    intro a b h
    unfold fingerprintCmp at h
    split_ifs at h
    exact Std.LawfulEqCmp.eq_of_compare h

/-- One pass adds the fingerprints that meet the condition. -/
theorem foldl_arrayAdd (p : Fingerprint → Bool) (l : List Fingerprint) (keys : KeyArray)
    (hs : Ascending fingerprintCmp keys) :
    let r := l.foldl (fun keys f => if p f then arrayAdd keys f else keys) keys
    Ascending fingerprintCmp r ∧ ∀ f, f ∈ r ↔ f ∈ keys ∨ (f ∈ l ∧ p f) := by
  induction l generalizing keys with
  | nil => exact ⟨hs, by simp⟩
  | cons x l ih =>
    rw [List.foldl_cons]
    by_cases hx : p x = true
    · rw [if_pos hx]
      obtain ⟨hs', hmem⟩ := ih (arrayAdd keys x) (add_ascending hs)
      refine ⟨hs', fun f => (hmem f).trans ?_⟩
      unfold arrayAdd
      rw [mem_add hs, List.mem_cons]
      constructor
      · rintro ((h | rfl) | ⟨h, hp⟩)
        · exact Or.inl h
        · exact Or.inr ⟨Or.inl rfl, hx⟩
        · exact Or.inr ⟨Or.inr h, hp⟩
      · rintro (h | ⟨rfl | h, hp⟩)
        · exact Or.inl (Or.inl h)
        · exact Or.inl (Or.inr rfl)
        · exact Or.inr ⟨h, hp⟩
    · rw [if_neg hx]
      obtain ⟨hs', hmem⟩ := ih keys hs
      refine ⟨hs', fun f => (hmem f).trans ?_⟩
      rw [List.mem_cons]
      constructor
      · rintro (h | ⟨h, hp⟩)
        · exact Or.inl h
        · exact Or.inr ⟨Or.inr h, hp⟩
      · rintro (h | ⟨rfl | h, hp⟩)
        · exact Or.inl h
        · exact absurd hp hx
        · exact Or.inr ⟨h, hp⟩

theorem textPass_first (t : Tables) (keylist : KeyArray) (word : Word) :
    Ascending fingerprintCmp (t.textPass true keylist word) ∧
      ∀ f, f ∈ t.textPass true keylist word ↔ f ∈ t.worddb word := by
  obtain ⟨hs, hmem⟩ := foldl_arrayAdd (fun f => true || arrayFind keylist f) (t.worddb word) []
    List.Pairwise.nil
  refine ⟨hs, fun f => (hmem f).trans ?_⟩
  simp

theorem textPass_next (t : Tables) {keylist : KeyArray} (hs : Ascending fingerprintCmp keylist)
    (word : Word) :
    Ascending fingerprintCmp (t.textPass false keylist word) ∧
      ∀ f, f ∈ t.textPass false keylist word ↔ f ∈ t.worddb word ∧ f ∈ keylist := by
  obtain ⟨hs', hmem⟩ := foldl_arrayAdd (fun f => false || arrayFind keylist f) (t.worddb word) []
    List.Pairwise.nil
  refine ⟨hs', fun f => (hmem f).trans ?_⟩
  simp [arrayFind, find_iff hs]

theorem textLoop_next (t : Tables) (words : List Word) {keylist : KeyArray}
    (hs : Ascending fingerprintCmp keylist) :
    Ascending fingerprintCmp (t.textLoop false keylist words) ∧
      ∀ f, f ∈ t.textLoop false keylist words ↔ f ∈ keylist ∧ ∀ w ∈ words, f ∈ t.worddb w := by
  induction words generalizing keylist with
  | nil => exact ⟨hs, by simp [Tables.textLoop]⟩
  | cons word words ih =>
    obtain ⟨hpass, hmem⟩ := textPass_next t hs word
    obtain ⟨hs', hmem'⟩ := ih hpass
    refine ⟨hs', fun f => ?_⟩
    rw [Tables.textLoop, hmem' f, hmem f, List.forall_mem_cons]
    tauto

/-- The words of a search lead to the fingerprints that are filed under all of them. -/
theorem textLoop_spec (t : Tables) {words : List Word} (hne : words ≠ []) :
    Ascending fingerprintCmp (t.textLoop true [] words) ∧
      ∀ f, f ∈ t.textLoop true [] words ↔ ∀ w ∈ words, f ∈ t.worddb w := by
  cases words with
  | nil => exact absurd rfl hne
  | cons word words =>
    obtain ⟨hpass, hmem⟩ := textPass_first t [] word
    obtain ⟨hs, hmem'⟩ := textLoop_next t words hpass
    refine ⟨hs, fun f => ?_⟩
    rw [Tables.textLoop, hmem' f, hmem f, List.forall_mem_cons]

theorem makewordlist_eq_nil {search : List UInt8} :
    makewordlist [] search = [] ↔ wordsOf search = [] := by
  simp only [List.eq_nil_iff_forall_not_mem, mem_makewordlist, List.not_mem_nil, false_or]

/-! ## Hits -/

section

variable {ι : Type} {stored found : ι → Option PublicKey} {hits looked : List ι} {maxkeys : Nat}

theorem nodup_filterMap_iff (h : looked.Nodup) :
    (looked.filterMap found).Nodup ↔
      ∀ id ∈ looked, ∀ id' ∈ looked, ∀ k, found id = some k → found id' = some k → id = id' := by
  constructor
  · intro hnodup id hid id' hid' k hk hk'
    by_contra hne
    obtain ⟨before, after, rfl⟩ := List.append_of_mem hid
    rw [List.filterMap_append, List.filterMap_cons_some hk, List.nodup_append] at hnodup
    obtain ⟨-, hafter, hbefore⟩ := hnodup
    rcases List.mem_append.mp hid' with hmem | hmem
    · exact hbefore k (List.mem_filterMap.mpr ⟨id', hmem, hk'⟩) k List.mem_cons_self rfl
    · rcases List.mem_cons.mp hmem with rfl | hmem
      · exact hne rfl
      · exact (List.nodup_cons.mp hafter).1 (List.mem_filterMap.mpr ⟨id', hmem, hk'⟩)
  · intro hdistinct
    induction looked with
    | nil => exact List.nodup_nil
    | cons id looked ih =>
      obtain ⟨hnot, hrest⟩ := List.nodup_cons.mp h
      have htail := ih hrest fun id hid id' hid' =>
        hdistinct id (List.mem_cons_of_mem _ hid) id' (List.mem_cons_of_mem _ hid')
      cases hk : found id with
      | none => rwa [List.filterMap_cons_none hk]
      | some k =>
        rw [List.filterMap_cons_some hk, List.nodup_cons]
        refine ⟨fun hmem => ?_, htail⟩
        obtain ⟨id', hid', hk'⟩ := List.mem_filterMap.mp hmem
        have hsame := hdistinct id List.mem_cons_self id' (List.mem_cons_of_mem _ hid') k hk hk'
        exact hnot (hsame ▸ hid')

/-- What is found for the hits that are looked up answers the search exactly if it is found as it
should be. -/
theorem answersSearch_iff {indexed : Word → ι → Prop} {search : List UInt8}
    (hwords : wordsOf search ≠ [])
    (hhits : ∀ id, id ∈ hits ↔ ∀ w ∈ makewordlist [] search, indexed w id) (h : looked.Nodup) :
    AnswersSearch stored indexed maxkeys search (looked.filterMap found) ↔
      HitsFound stored found hits looked maxkeys := by
  have hlength : (looked.filterMap found).length = looked.countP fun id => (found id).isSome :=
    List.length_filterMap_eq_countP
  unfold AnswersSearch
  rw [if_neg hwords, nodup_filterMap_iff h, hlength]
  constructor
  · rintro ⟨hdistinct, hhit, hle, hcomplete⟩
    refine ⟨fun id hid k hk => ?_, hdistinct, hle, hcomplete.imp_right fun hall id hid k hk => ?_⟩
    · obtain ⟨id', hid', hindexed⟩ := hhit k (List.mem_filterMap.mpr ⟨id, hid, hk⟩)
      exact ⟨id', (hhits id').mpr hindexed, hid'⟩
    · exact List.mem_filterMap.mp (hall id k hk ((hhits id).mp hid))
  · rintro ⟨hhit, hdistinct, hle, hcomplete⟩
    refine ⟨hdistinct, fun k hk => ?_, hle, hcomplete.imp_right fun hall id k hk hindexed => ?_⟩
    · obtain ⟨id, hid, hfound⟩ := List.mem_filterMap.mp hk
      obtain ⟨id', hid', hstored⟩ := hhit id hid k hfound
      exact ⟨id', hstored, (hhits id').mp hid'⟩
    · exact List.mem_filterMap.mpr (hall id ((hhits id).mpr hindexed) k hk)

/-- Where the lookups find the keys that are stored under the hits themselves, they are found. -/
theorem hitsFound_of_own (hsub : looked.Sublist hits) (hown : ∀ id ∈ looked, found id = stored id)
    (hsome : ∀ id ∈ looked, (found id).isSome)
    (hinj : ∀ id id' k, stored id = some k → stored id' = some k → id = id')
    (hle : looked.length ≤ maxkeys) (hall : looked.length = maxkeys ∨ looked = hits) :
    HitsFound stored found hits looked maxkeys := by
  have hcount : looked.countP (fun id => (found id).isSome) = looked.length :=
    List.countP_eq_length.mpr hsome
  refine ⟨fun id hid k hk => ⟨id, hsub.subset hid, (hown id hid).symm.trans hk⟩,
    fun id hid id' hid' k hk hk' => ?_, by rwa [hcount], ?_⟩
  · exact hinj id id' k ((hown id hid).symm.trans hk) ((hown id' hid').symm.trans hk')
  · rw [hcount]
    rcases hall with hlength | rfl
    · exact Or.inl hlength
    · exact Or.inr fun id hid k hk => ⟨id, hid, (hown id hid).trans hk⟩

end

/-! ## Searches -/

theorem foldl_arrayAdd_mem (l : List Fingerprint) :
    Ascending fingerprintCmp (l.foldl arrayAdd []) ∧ ∀ f, f ∈ l.foldl arrayAdd [] ↔ f ∈ l := by
  obtain ⟨hs, hmem⟩ := foldl_arrayAdd (fun _ => true) l [] List.Pairwise.nil
  refine ⟨hs, fun f => (hmem f).trans ?_⟩
  simp

theorem Tables.mem_hits (t : Tables) {words : List Word} (hne : words ≠ []) {f : Fingerprint} :
    f ∈ t.hits words ↔ ∀ w ∈ words, f ∈ t.worddb w := by
  obtain ⟨word, words, rfl⟩ := List.exists_cons_of_ne_nil hne
  unfold Tables.hits
  rw [(foldl_arrayAdd_mem _).2, List.mem_filter, List.all_eq_true]
  simp only [List.head?_cons, Option.elim_some, List.contains_iff_mem]
  constructor
  · exact And.right
  · intro hall
    exact ⟨hall word List.mem_cons_self, hall⟩

/-- The loop over the words arrives at the hits. -/
theorem textLoop_eq_hits (t : Tables) {words : List Word} (hne : words ≠ []) :
    t.textLoop true [] words = t.hits words := by
  obtain ⟨hs, hmem⟩ := textLoop_spec t hne
  refine eq_of_mem_iff hs (foldl_arrayAdd_mem _).1 fun f => ?_
  rw [hmem f, t.mem_hits hne]

theorem Tables.hits_nodup (t : Tables) (words : List Word) : (t.hits words).Nodup :=
  ascending_nodup (foldl_arrayAdd_mem _).1

/-- A search without words has no answer. -/
theorem Tables.answersSearch_nil (t : Tables) (maxkeys : Nat) {search : List UInt8}
    (hwords : wordsOf search = []) :
    AnswersSearch t.keydb (fun w f => f ∈ t.worddb w) maxkeys search
      (t.fetchKeyText maxkeys search) := by
  unfold AnswersSearch
  rw [if_pos hwords, Tables.fetchKeyText, makewordlist_eq_nil.mpr hwords, Tables.textLoop,
    List.take_nil, List.filterMap_nil]

/-- When `db4_fetch_key_text` answers a search with words. -/
theorem Tables.answersSearch_iff (t : Tables) (maxkeys : Nat) {search : List UInt8}
    (hwords : wordsOf search ≠ []) :
    AnswersSearch t.keydb (fun w f => f ∈ t.worddb w) maxkeys search
        (t.fetchKeyText maxkeys search) ↔
      t.HitsFound maxkeys (makewordlist [] search) := by
  have hne : makewordlist [] search ≠ [] := fun hnil => hwords (makewordlist_eq_nil.mp hnil)
  unfold Tables.fetchKeyText
  rw [textLoop_eq_hits t hne]
  exact Onak.answersSearch_iff hwords (fun f => t.mem_hits hne)
    ((t.hits_nodup _).sublist (List.take_sublist _ _))

/-- The lookups find the hits if all entries of the words lead to stored keys. -/
theorem Tables.hitsFound_of_stored {H : Hashes} {t : Tables} (h : t.IndexStored) (hown : t.OwnFps H)
    (maxkeys : Nat) {words : List Word} (hne : words ≠ []) : t.HitsFound maxkeys words := by
  have hstored : ∀ f ∈ (t.hits words).take maxkeys,
      t.fetchKeyFp f = t.keydb f ∧ (t.fetchKeyFp f).isSome := by
    intro f hf
    obtain ⟨w, hw⟩ := List.exists_mem_of_ne_nil _ hne
    have hsome := h w f ((t.mem_hits hne).mp (List.mem_of_mem_take hf) w hw)
    obtain ⟨k, hk⟩ := Option.isSome_iff_exists.mp hsome
    have hfetch : t.fetchKeyFp f = t.keydb f := (db4FetchKeyFp_of_keydb hk).trans hk.symm
    exact ⟨hfetch, hfetch ▸ hsome⟩
  refine hitsFound_of_own (List.take_sublist _ _) (fun f hf => (hstored f hf).1)
    (fun f hf => (hstored f hf).2) (fun f f' k hk hk' => ?_) (List.length_take_le _ _) ?_
  · exact Option.some.inj ((hown f k hk).symm.trans (hown f' k hk'))
  · rcases Nat.le_total maxkeys (t.hits words).length with hle | hle
    · exact Or.inl (List.length_take_of_le hle)
    · exact Or.inr (List.take_of_length_le hle)

/-- In every history that overwrites nothing, the word index leads to stored keys. -/
theorem Tables.Sound.indexStored {H : Hashes} {t : Tables} (hs : t.Sound H) : t.IndexStored := by
  intro w f hf
  cases hk : t.keydb f with
  | some k => rfl
  | none => exact absurd hf ((hs.unreferenced hk).worddb w)

end Onak
