import Onak.WordList

/-!
# Proofs: words

`makewordlist` adds the words of a string to a list, each of them once.
-/

namespace Onak

theorem wordsOf_nil : wordsOf [] = [] := by
  simp [wordsOf]

theorem wordsOf_delim {c : UInt8} (hc : isDelim c) (s : List UInt8) :
    wordsOf (c :: s) = wordsOf s := by
  simp [wordsOf, List.splitOnP_cons_eq_if_modifyHead, hc]

theorem wordsOf_dropWhile (s : List UInt8) : wordsOf (s.dropWhile isDelim) = wordsOf s := by
  induction s with
  | nil => rfl
  | cons c s ih =>
    rw [List.dropWhile_cons]
    split_ifs with hc
    · rw [ih, wordsOf_delim hc]
    · rfl

/-- The first run of octets that are no delimiters is a word, if it is long enough. -/
theorem wordsOf_takeWhile (s : List UInt8) :
    wordsOf s =
      (if 1 < (s.takeWhile (!isDelim ·)).length then [(s.takeWhile (!isDelim ·)).map tolower]
        else []) ++ wordsOf (s.dropWhile (!isDelim ·)) := by
  have hword : ∀ x ∈ s.takeWhile (!isDelim ·), isDelim x = false := by
    intro x hx
    simpa using List.mem_takeWhile_imp hx
  have hsplit := (List.takeWhile_append_dropWhile (p := (!isDelim ·)) (l := s)).symm
  cases hrest : s.dropWhile (!isDelim ·) with
  | nil =>
    rw [hrest, List.append_nil] at hsplit
    have hpieces : s.splitOnP isDelim = [s.takeWhile (!isDelim ·)] := by
      rw [List.splitOnP_eq_singleton (hsplit ▸ hword), ← hsplit]
    rw [wordsOf_nil, List.append_nil, wordsOf, hpieces]
    split_ifs with h <;> simp [h]
  | cons d rest =>
    have hd : isDelim d = true := by
      have h := List.head?_dropWhile_not (!isDelim ·) s
      rw [hrest] at h
      simpa using h
    rw [hrest] at hsplit
    have hpieces : s.splitOnP isDelim =
        s.takeWhile (!isDelim ·) :: rest.splitOnP isDelim := by
      conv_lhs => rw [hsplit]
      exact List.splitOnP_append_cons_of_forall_mem hword d hd rest
    rw [wordsOf_delim hd, wordsOf, hpieces]
    split_ifs with h <;> simp [h, wordsOf]

/-- The string that is left after a round. -/
theorem length_rest_le (c : UInt8) (s : List UInt8) :
    (((c :: s).dropWhile isDelim).dropWhile (!isDelim ·)).length ≤ s.length := by
  by_cases hc : isDelim c = true
  · rw [List.dropWhile_cons_of_pos hc]
    exact (List.length_dropWhile_le _ _).trans (List.length_dropWhile_le _ _)
  · rw [List.dropWhile_cons_of_neg hc, List.dropWhile_cons_of_pos (by simpa using hc)]
    exact List.length_dropWhile_le _ _

theorem wordsOf_drop_rest (s : List UInt8) :
    wordsOf ((s.dropWhile (!isDelim ·)).drop 1) = wordsOf (s.dropWhile (!isDelim ·)) := by
  cases hrest : s.dropWhile (!isDelim ·) with
  | nil => rfl
  | cons d rest =>
    have hd : isDelim d = true := by
      have h := List.head?_dropWhile_not (!isDelim ·) s
      rw [hrest] at h
      simpa using h
    rw [wordsOf_delim hd, List.drop_one, List.tail_cons]

theorem makewordlistLoop_eq (fuel : Nat) (wordlist : List Word) (s : List UInt8)
    (h : s.length ≤ fuel) :
    makewordlistLoop fuel wordlist s = (wordsOf s).foldl addWord wordlist := by
  induction fuel generalizing wordlist s with
  | zero =>
    rw [List.length_eq_zero_iff.mp (Nat.le_zero.mp h), wordsOf_nil]
    rfl
  | succ fuel ih =>
    cases s with
    | nil =>
      rw [wordsOf_nil]
      rfl
    | cons c s =>
      have hlen := length_rest_le c s
      simp only [List.length_cons] at h
      rw [makewordlistLoop, ← wordsOf_dropWhile (c :: s),
        wordsOf_takeWhile ((c :: s).dropWhile isDelim)]
      simp only [List.length_map]
      split_ifs with hword
      · rw [ih _ _ (by rw [List.length_drop]; omega), wordsOf_drop_rest]
        rfl
      · rw [ih _ _ (by omega)]
        rfl

/-- `makewordlist` adds the words of the string that are not there. -/
theorem makewordlist_eq (wordlist : List Word) (s : List UInt8) :
    makewordlist wordlist s = (wordsOf s).foldl addWord wordlist :=
  makewordlistLoop_eq _ _ _ le_rfl

theorem addWord_nodup {wordlist : List Word} (h : wordlist.Nodup) (word : Word) :
    (addWord wordlist word).Nodup := by
  unfold addWord
  split_ifs with hmem
  · exact h
  · exact List.Nodup.append h (List.nodup_singleton _) (by simpa using hmem)

theorem mem_addWord {wordlist : List Word} {word w : Word} :
    w ∈ addWord wordlist word ↔ w ∈ wordlist ∨ w = word := by
  unfold addWord
  split_ifs with hmem
  · constructor
    · exact Or.inl
    · rintro (h | rfl)
      · exact h
      · exact List.contains_iff_mem.mp hmem
  · simp

/-- A list that grows in each round by the words of that round. -/
theorem mem_foldl_of_mem_step {α : Type} {step : List Word → α → List Word} {new : α → List Word}
    {w : Word} (hstep : ∀ wordlist a, w ∈ step wordlist a ↔ w ∈ wordlist ∨ w ∈ new a)
    (l : List α) (wordlist : List Word) :
    w ∈ l.foldl step wordlist ↔ w ∈ wordlist ∨ ∃ a ∈ l, w ∈ new a := by
  induction l generalizing wordlist with
  | nil => simp
  | cons a l ih =>
    rw [List.foldl_cons, ih, hstep, or_assoc, List.exists_mem_cons_iff]

theorem mem_foldl_addWord {words wordlist : List Word} {w : Word} :
    w ∈ words.foldl addWord wordlist ↔ w ∈ wordlist ∨ w ∈ words := by
  have hstep : ∀ wordlist word, w ∈ addWord wordlist word ↔ w ∈ wordlist ∨ w ∈ [word] := by
    intro wordlist word
    rw [mem_addWord, List.mem_singleton]
  rw [mem_foldl_of_mem_step hstep]
  simp

theorem makewordlist_nodup {wordlist : List Word} (h : wordlist.Nodup) (s : List UInt8) :
    (makewordlist wordlist s).Nodup := by
  rw [makewordlist_eq]
  generalize wordsOf s = words
  induction words generalizing wordlist with
  | nil => exact h
  | cons word words ih => exact ih (addWord_nodup h word)

theorem mem_makewordlist {wordlist : List Word} {s : List UInt8} {w : Word} :
    w ∈ makewordlist wordlist s ↔ w ∈ wordlist ∨ w ∈ wordsOf s := by
  rw [makewordlist_eq, mem_foldl_addWord]

theorem keywords_nodup (key : PublicKey) : (keywords key).Nodup := by
  unfold keywords
  generalize hl : ([] : List Word) = wordlist
  have h : wordlist.Nodup := by
    rw [← hl]
    exact List.nodup_nil
  clear hl
  induction keyuids key generalizing wordlist with
  | nil => exact h
  | cons uid uids ih => exact ih _ (makewordlist_nodup h uid)

theorem mem_makewordlistfromkey {k : PublicKey} {w : Word} :
    w ∈ makewordlistfromkey [] k ↔ ∃ uid ∈ keyuids k, w ∈ wordsOf uid := by
  have hword : ∀ (wordlist : List Word) (word : Word),
      w ∈ (if wordlist.contains word then wordlist else word :: wordlist) ↔
        w ∈ wordlist ∨ w ∈ [word] := by
    intro wordlist word
    rw [List.mem_singleton]
    split_ifs with hmem
    · constructor
      · exact Or.inl
      · rintro (h | rfl)
        · exact h
        · exact List.contains_iff_mem.mp hmem
    · rw [List.mem_cons, or_comm]
  have huid : ∀ (wordlist : List Word) (uid : List UInt8),
      w ∈ (makewordlist [] uid).foldl (fun wordlist word =>
        if wordlist.contains word then wordlist else word :: wordlist) wordlist ↔
        w ∈ wordlist ∨ w ∈ wordsOf uid := by
    intro wordlist uid
    rw [mem_foldl_of_mem_step hword]
    simp [mem_makewordlist]
  unfold makewordlistfromkey
  rw [mem_foldl_of_mem_step huid]
  simp

end Onak
