import Onak.WordScan
import Onak.Proofs.WordListProofs

/-!
# Proofs: splitting a string in place

The scan in memory reads nothing outside of the string, ends, and leaves the words that `makewordlist`
adds to a list.
-/

namespace Onak

/-! ## The inner loops -/

theorem getElem?_behind (done rest : List UInt8) : (done ++ rest)[done.length]? = rest.head? := by
  rw [List.getElem?_append_right le_rfl, Nat.sub_self, List.head?_eq_getElem?]

theorem skipDelims_step {mem : List UInt8} {start : Nat} {c : UInt8} (h : mem[start]? = some c) :
    skipDelims mem start =
      if c ≠ 0 ∧ isDelim c then skipDelims mem (start + 1) else some start := by
  rw [skipDelims]
  split
  next hnone => rw [h] at hnone; cases hnone
  next c' hsome =>
    rw [h, Option.some.injEq] at hsome
    rw [hsome]

theorem lowerRun_step {mem : List UInt8} {stop : Nat} {c : UInt8} (h : mem[stop]? = some c) :
    lowerRun mem stop =
      if c ≠ 0 ∧ ¬ isDelim c then lowerRun (mem.set stop (tolower c)) (stop + 1)
      else some (mem, stop) := by
  rw [lowerRun]
  split
  next hnone => rw [h] at hnone; cases hnone
  next c' hsome =>
    rw [h, Option.some.injEq] at hsome
    rw [hsome]

theorem skipDelims_eq (done rest : List UInt8) (hnul : 0 ∉ rest) :
    skipDelims (done ++ rest ++ [0]) done.length =
      some (done.length + (rest.takeWhile isDelim).length) := by
  induction rest generalizing done with
  | nil =>
    rw [skipDelims_step (c := 0) (by simp)]
    simp
  | cons c rest ih =>
    have hc : c ≠ 0 := fun h => hnul (h ▸ List.mem_cons_self)
    have hmem : done ++ c :: rest ++ [0] = done ++ [c] ++ rest ++ [0] := by simp
    rw [skipDelims_step (c := c) (by simp)]
    by_cases hd : isDelim c = true
    · have hrest := ih (done ++ [c]) fun h => hnul (List.mem_cons_of_mem _ h)
      rw [List.length_append, List.length_singleton] at hrest
      rw [if_pos ⟨hc, hd⟩, hmem, hrest, List.takeWhile_cons_of_pos hd, List.length_cons]
      congr 1
      omega
    · rw [if_neg fun h => hd h.2, List.takeWhile_cons_of_neg hd]
      rfl

theorem lowerRun_eq (done rest : List UInt8) (hnul : 0 ∉ rest) :
    lowerRun (done ++ rest ++ [0]) done.length =
      some (done ++ (rest.takeWhile (!isDelim ·)).map tolower ++ rest.dropWhile (!isDelim ·) ++ [0],
        done.length + (rest.takeWhile (!isDelim ·)).length) := by
  induction rest generalizing done with
  | nil =>
    rw [lowerRun_step (c := 0) (by simp)]
    simp
  | cons c rest ih =>
    have hc : c ≠ 0 := fun h => hnul (h ▸ List.mem_cons_self)
    have hset : (done ++ c :: rest ++ [0]).set done.length (tolower c) =
        done ++ [tolower c] ++ rest ++ [0] := by simp
    rw [lowerRun_step (c := c) (by simp)]
    by_cases hd : isDelim c = true
    · rw [if_neg fun h => h.2 hd]
      simp [hd]
    · have hrest := ih (done ++ [tolower c]) fun h => hnul (List.mem_cons_of_mem _ h)
      rw [List.length_append, List.length_singleton] at hrest
      rw [if_pos ⟨hc, hd⟩, hset, hrest]
      simp only [List.takeWhile_cons, List.dropWhile_cons, hd, Bool.not_false, if_true,
        List.map_cons, List.length_cons, List.append_assoc, List.cons_append]
      congr 2
      omega

/-! ## Pointers into the string -/

theorem cString_terminated {word : List UInt8} (h : 0 ∉ word) (behind : List UInt8) :
    cString (word ++ 0 :: behind) = word := by
  rw [cString, List.takeWhile_append_of_pos]
  · simp
  · intro c hc
    have hne : c ≠ 0 := fun hzero => h (hzero ▸ hc)
    simpa using hne

theorem cString_append_of_mem {octets : List UInt8} (h : 0 ∈ octets) (behind : List UInt8) :
    cString (octets ++ behind) = cString octets := by
  obtain ⟨word, rest, rfl, hword⟩ := List.eq_append_cons_of_mem h
  rw [List.append_assoc, List.cons_append, cString_terminated hword, cString_terminated hword]

/-- A pointer that nothing written behind `done` changes the word of: the word is terminated before. -/
def WordPtr.Settled (done : List UInt8) : WordPtr → Prop
  | .elsewhere _ => True
  | .inside start => 0 ∈ done.drop start

theorem WordPtr.Settled.append {done : List UInt8} {ptr : WordPtr} (h : ptr.Settled done)
    (behind : List UInt8) : ptr.Settled (done ++ behind) := by
  cases ptr with
  | elsewhere word => trivial
  | inside start =>
    rw [WordPtr.Settled, List.drop_append]
    exact List.mem_append_left _ h

theorem WordPtr.Settled.read_append {done : List UInt8} {ptr : WordPtr} (h : ptr.Settled done)
    (behind : List UInt8) : ptr.read (done ++ behind) = ptr.read done := by
  cases ptr with
  | elsewhere word => rfl
  | inside start =>
    rw [WordPtr.read, WordPtr.read, stringAt, stringAt, List.drop_append]
    exact cString_append_of_mem h _

theorem map_read_append {done : List UInt8} {wordlist : List WordPtr}
    (h : ∀ ptr ∈ wordlist, ptr.Settled done) (behind : List UInt8) :
    wordlist.map (·.read (done ++ behind)) = wordlist.map (·.read done) :=
  List.map_congr_left fun ptr hptr => (h ptr hptr).read_append behind

theorem addWordPtr_map (mem : List UInt8) (wordlist : List WordPtr) (start : Nat) :
    (addWordPtr mem wordlist start).map (·.read mem) =
      addWord (wordlist.map (·.read mem)) (stringAt mem start) := by
  have hany : (wordlist.any fun ptr => ptr.read mem == stringAt mem start) =
      (wordlist.map (·.read mem)).contains (stringAt mem start) := by
    rw [List.contains_eq_any_beq, List.any_map]
    refine congrArg (wordlist.any ·) (funext fun ptr => ?_)
    rw [Function.comp_apply, Bool.beq_comm]
  rw [addWordPtr, addWord, hany]
  split_ifs
  · rfl
  · rw [List.map_append]
    rfl

theorem stringAt_terminated (done behind : List UInt8) {word : List UInt8} (h : 0 ∉ word) :
    stringAt (done ++ word ++ 0 :: behind) done.length = word := by
  rw [stringAt, List.append_assoc, List.drop_left, cString_terminated h]

theorem addWordPtr_settled {done word behind : List UInt8} {wordlist : List WordPtr}
    (h : ∀ ptr ∈ wordlist, ptr.Settled done) :
    ∀ ptr ∈ addWordPtr (done ++ word ++ 0 :: behind) wordlist done.length,
      ptr.Settled (done ++ word ++ [0]) := by
  have hold : ∀ ptr ∈ wordlist, ptr.Settled (done ++ word ++ [0]) := by
    intro ptr hptr
    rw [List.append_assoc]
    exact (h ptr hptr).append _
  unfold addWordPtr
  split_ifs
  · exact hold
  · intro ptr hptr
    rcases List.mem_append.mp hptr with hptr | hptr
    · exact hold ptr hptr
    · rw [List.mem_singleton.mp hptr, WordPtr.Settled, List.append_assoc, List.drop_left]
      simp

/-- The list of pointers stands for the words with the new one. -/
theorem addWordPtr_read {done word : List UInt8} {wordlist : List WordPtr}
    (h : ∀ ptr ∈ wordlist, ptr.Settled done) (hword : 0 ∉ word) (behind : List UInt8) :
    (addWordPtr (done ++ word ++ 0 :: behind) wordlist done.length).map
        (·.read (done ++ word ++ 0 :: behind)) =
      addWord (wordlist.map (·.read done)) word := by
  rw [addWordPtr_map, stringAt_terminated _ _ hword, List.append_assoc, map_read_append h]

/-! ## The scan -/

theorem tolower_ne_zero (c : UInt8) (h : c ≠ 0) : tolower c ≠ 0 := by
  unfold tolower
  split_ifs with hupper
  · intro hzero
    have := congrArg UInt8.toNat hzero
    have := UInt8.le_iff_toNat_le.mp hupper.1
    have := UInt8.le_iff_toNat_le.mp hupper.2
    simp at *
    omega
  · exact h

theorem zero_not_mem_map_tolower {word : List UInt8} (h : 0 ∉ word) : 0 ∉ word.map tolower := by
  intro hmem
  obtain ⟨c, hc, hzero⟩ := List.mem_map.mp hmem
  exact tolower_ne_zero c (fun hz => h (hz ▸ hc)) hzero

theorem scanWords_end (fuel : Nat) (done : List UInt8) (wordlist : List WordPtr) :
    scanWords (fuel + 1) (done ++ [0]) done.length wordlist = some (done ++ [0], wordlist) := by
  rw [scanWords, getElem?_behind]
  rfl

/-- One round, from the first octet of `c :: cs` on: `start` is what the delimiters in front leave. -/
theorem scanWords_round (fuel : Nat) (done : List UInt8) (c : UInt8) (cs : List UInt8)
    (wordlist : List WordPtr) (hnul : 0 ∉ c :: cs) :
    let front := done ++ (c :: cs).takeWhile isDelim
    let start := (c :: cs).dropWhile isDelim
    let word := (start.takeWhile (!isDelim ·)).map tolower
    let rest := start.dropWhile (!isDelim ·)
    scanWords (fuel + 1) (done ++ c :: cs ++ [0]) done.length wordlist =
      if 1 < word.length then
        match rest with
        | [] => scanWords fuel (front ++ word ++ [0]) (front ++ word).length
            (addWordPtr (front ++ word ++ [0]) wordlist front.length)
        | _ :: rest => scanWords fuel (front ++ word ++ [0] ++ rest ++ [0])
            (front ++ word ++ [0]).length
            (addWordPtr (front ++ word ++ 0 :: (rest ++ [0])) wordlist front.length)
      else
        scanWords fuel (front ++ word ++ rest ++ [0]) (front ++ word).length wordlist := by
  intro front start word rest
  have hhead : (done ++ c :: cs ++ [0])[done.length]? = some c := by simp
  have hc : c ≠ 0 := fun h => hnul (h ▸ List.mem_cons_self)
  have hmem : done ++ c :: cs ++ [0] = front ++ start ++ [0] := by
    simp only [front, start, List.append_assoc done, List.takeWhile_append_dropWhile]
  have hskip : skipDelims (done ++ c :: cs ++ [0]) done.length = some front.length := by
    rw [skipDelims_eq _ _ hnul, List.length_append]
  have hstart : 0 ∉ start := fun h => hnul ((List.dropWhile_sublist _).subset h)
  have hrest : 0 ∉ rest := fun h => hstart ((List.dropWhile_sublist _).subset h)
  have hlower : lowerRun (done ++ c :: cs ++ [0]) front.length =
      some (front ++ word ++ rest ++ [0], (front ++ word).length) := by
    have hword : (front ++ word).length =
        front.length + (start.takeWhile (!isDelim ·)).length := by
      rw [List.length_append, List.length_map]
    rw [hmem, lowerRun_eq _ _ hstart, hword]
  have hlen : (front ++ word).length - front.length = word.length := by
    rw [List.length_append, Nat.add_sub_cancel_left]
  simp only [scanWords, hhead, hc, hskip, hlower, hlen, Option.bind_eq_bind, Option.bind_some,
    if_false, gt_iff_lt]
  split_ifs
  · cases hrests : rest with
    | nil => simp
    | cons d rest' =>
      have hd : d ≠ 0 := fun h => hrest (by rw [hrests, h]; exact List.mem_cons_self)
      simp [hd, Nat.add_assoc]
  · rfl

/-- The scan from somewhere in the string: the words of the rest are added. -/
theorem scanWords_eq (fuel : Nat) (done rest : List UInt8) (wordlist : List WordPtr)
    (hnul : 0 ∉ rest) (hfuel : rest.length < fuel) (hset : ∀ ptr ∈ wordlist, ptr.Settled done) :
    ∃ mem words, scanWords fuel (done ++ rest ++ [0]) done.length wordlist = some (mem, words) ∧
      words.map (·.read mem) = (wordsOf rest).foldl addWord (wordlist.map (·.read done)) := by
  induction fuel generalizing done rest wordlist with
  | zero => omega
  | succ fuel ih =>
    cases rest with
    | nil =>
      refine ⟨done ++ [0], wordlist, ?_, ?_⟩
      · rw [List.append_nil, scanWords_end]
      · rw [map_read_append hset, wordsOf_nil]
        rfl
    | cons c cs =>
      set front := done ++ (c :: cs).takeWhile isDelim with hfront
      set start := (c :: cs).dropWhile isDelim with hstart
      set word := (start.takeWhile (!isDelim ·)).map tolower with hword
      set rest := start.dropWhile (!isDelim ·) with hrest
      have hstart0 : 0 ∉ start := fun h => hnul ((List.dropWhile_sublist _).subset h)
      have hrest0 : 0 ∉ rest := fun h => hstart0 ((List.dropWhile_sublist _).subset h)
      have hword0 : 0 ∉ word :=
        zero_not_mem_map_tolower fun h => hstart0 ((List.takeWhile_sublist _).subset h)
      have hlen : rest.length < fuel := by
        have hle : rest.length ≤ cs.length := length_rest_le c cs
        rw [List.length_cons] at hfuel
        omega
      have hset' : ∀ ptr ∈ wordlist, ptr.Settled front := fun ptr h => (hset ptr h).append _
      have hread : wordlist.map (·.read front) = wordlist.map (·.read done) :=
        map_read_append hset _
      have hwords : wordsOf (c :: cs) =
          (if 1 < word.length then [word] else []) ++ wordsOf rest := by
        rw [← wordsOf_dropWhile, wordsOf_takeWhile, hword, List.length_map]
      have hround := scanWords_round fuel done c cs wordlist hnul
      simp only [← hfront, ← hstart, ← hword, ← hrest] at hround
      rw [hround, hwords]
      split_ifs with hlong
      · cases hrests : rest with
        | nil =>
          -- the word ends with the string
          obtain ⟨fuel', rfl⟩ := Nat.exists_eq_succ_of_ne_zero (Nat.ne_of_gt (Nat.zero_lt_of_lt hlen))
          refine ⟨_, _, scanWords_end _ _ _, ?_⟩
          rw [addWordPtr_read hset' hword0 [], hread, wordsOf_nil]
          rfl
        | cons d rest' =>
          have hrest' : 0 ∉ rest' := fun h => hrest0 (hrests ▸ List.mem_cons_of_mem _ h)
          have hlen' : rest'.length < fuel := by
            rw [hrests, List.length_cons] at hlen
            omega
          have hnew : ∀ ptr ∈ addWordPtr (front ++ word ++ 0 :: (rest' ++ [0])) wordlist front.length,
              ptr.Settled (front ++ word ++ [0]) := addWordPtr_settled hset'
          obtain ⟨mem, words, hscan, hmap⟩ := ih _ rest' _ hrest' hlen' hnew
          refine ⟨mem, words, hscan, ?_⟩
          have hd : wordsOf (d :: rest') = wordsOf rest' := by
            have hdrop := wordsOf_drop_rest start
            rw [← hrest, hrests] at hdrop
            exact hdrop.symm
          have hbefore := map_read_append hnew (rest' ++ [0])
          rw [List.append_assoc (front ++ word), List.singleton_append] at hbefore
          rw [hmap, hd, ← hbefore, addWordPtr_read hset' hword0, hread]
          rfl
      · obtain ⟨mem, words, hscan, hmap⟩ := ih (front ++ word) rest wordlist hrest0 hlen
          fun ptr h => (hset' ptr h).append _
        refine ⟨mem, words, hscan, ?_⟩
        rw [hmap, map_read_append hset', hread]
        rfl

/-! ## The words that are added -/

/-- The words are added once each, in the order in which they come first. -/
theorem foldl_addWord_eq (words wordlist : List Word) :
    words.foldl addWord wordlist =
      wordlist ++ words.eraseDups.filter fun word => !wordlist.contains word := by
  induction words using List.reverseRecOn with
  | nil => simp
  | append_singleton words word ih =>
    have hmem : (words.foldl addWord wordlist).contains word =
        (wordlist.contains word || words.contains word) := by
      rw [Bool.eq_iff_iff]
      simp [mem_foldl_addWord]
    rw [List.foldl_append, List.foldl_cons, List.foldl_nil, addWord, hmem, ih, List.eraseDups_append,
      List.filter_append, List.append_assoc]
    by_cases hold : word ∈ words
    · simp [List.removeAll, hold]
    · by_cases hthere : word ∈ wordlist
      · simp [List.removeAll, List.eraseDups_cons, hold, hthere]
      · simp [List.removeAll, List.eraseDups_cons, hold, hthere]

/-- A string of ASCII characters. -/
structure AsciiString where
  octets : List UInt8
  ascii : ∀ c ∈ octets, 0 < c ∧ c < 128

theorem AsciiString.zero_not_mem (s : AsciiString) : 0 ∉ s.octets := fun h =>
  absurd (s.ascii 0 h).1 (by decide)

/-- In memory it comes to what `makewordlist` is. -/
theorem makewordlistInPlace_eq (wordlist : List Word) (s : List UInt8) (hnul : 0 ∉ s) :
    ∃ mem words, makewordlistInPlace (wordlist.map .elsewhere) s = some (mem, words) ∧
      words.map (·.read mem) = makewordlist wordlist s := by
  obtain ⟨mem, words, hscan, hmap⟩ := scanWords_eq (s.length + 1) [] s (wordlist.map .elsewhere)
    hnul (Nat.lt_succ_self _) (by simp [WordPtr.Settled])
  refine ⟨mem, words, hscan, ?_⟩
  rw [hmap, makewordlist_eq, List.map_map]
  congr 1
  exact List.map_id' wordlist

theorem isDelim_tolower (c : UInt8) (h : isDelim c = false) : isDelim (tolower c) = false := by
  revert h
  obtain ⟨n, rfl⟩ : ∃ n : Fin 256, c = UInt8.ofFin n := ⟨c.toFin, rfl⟩
  revert n
  decide +kernel

theorem tolower_tolower (c : UInt8) : tolower (tolower c) = tolower c := by
  obtain ⟨n, rfl⟩ : ∃ n : Fin 256, c = UInt8.ofFin n := ⟨c.toFin, rfl⟩
  revert n
  decide +kernel

theorem mem_splitOnP {α : Type} {p : α → Bool} {s run : List α} (h : run ∈ s.splitOnP p) :
    ∀ c ∈ run, c ∈ s ∧ p c = false := by
  induction s generalizing run with
  | nil =>
    rw [List.splitOnP_nil, List.mem_singleton] at h
    simp [h]
  | cons x xs ih =>
    have hbehind {run : List α} (h : run ∈ xs.splitOnP p) : ∀ c ∈ run, c ∈ x :: xs ∧ p c = false :=
      fun c hc => (ih h c hc).imp_left (List.mem_cons_of_mem _)
    rw [List.splitOnP_cons_eq_if_modifyHead] at h
    split_ifs at h with hx
    · rcases List.mem_cons.mp h with rfl | h
      · simp
      · exact hbehind h
    · cases hruns : xs.splitOnP p with
      | nil => exact absurd hruns (List.splitOnP_ne_nil _ _)
      | cons first runs =>
        rw [hruns] at h hbehind
        rcases List.mem_cons.mp h with rfl | h
        · intro c hc
          rcases List.mem_cons.mp hc with rfl | hc
          · exact ⟨List.mem_cons_self, by simpa using hx⟩
          · exact hbehind List.mem_cons_self c hc
        · exact hbehind (List.mem_cons_of_mem _ h)

/-- A word is its own only word. -/
theorem wordsOf_word {s : List UInt8} {word : Word} (h : word ∈ wordsOf s) :
    wordsOf word = [word] := by
  obtain ⟨run, hrun, rfl⟩ := List.mem_map.mp h
  obtain ⟨hmem, hlong⟩ := List.mem_filter.mp hrun
  have hdelim : ∀ c ∈ run.map tolower, isDelim c = false := by
    intro c hc
    obtain ⟨d, hd, rfl⟩ := List.mem_map.mp hc
    exact isDelim_tolower d (mem_splitOnP hmem d hd).2
  have hlen : 1 < (run.map tolower).length := by simpa using hlong
  have hlower : (run.map tolower).map tolower = run.map tolower := by simp [tolower_tolower]
  rw [wordsOf, List.splitOnP_eq_singleton hdelim, List.filter_cons_of_pos (by simpa using hlen),
    List.filter_nil, List.map_singleton, hlower]

theorem zero_not_mem_wordsOf {s : List UInt8} {word : Word} (hnul : 0 ∉ s) (h : word ∈ wordsOf s) :
    0 ∉ word := by
  obtain ⟨run, hrun, rfl⟩ := List.mem_map.mp h
  exact zero_not_mem_map_tolower fun hzero =>
    hnul (mem_splitOnP (List.mem_filter.mp hrun).1 0 hzero).1

/-- **Splitting into words.** For every word list and every string of ASCII characters, `makewordlist`
ends without reading outside of the string, and gives the list followed by the lower-cased runs of at
least two characters between delimiters, each once, in the order in which they come first, without those
that were there. From an empty list, each of them gives itself. -/
theorem makewordlist_splits (wordlist : List Word) (s : AsciiString) :
    (∃ mem words, makewordlistInPlace (wordlist.map .elsewhere) s.octets = some (mem, words) ∧
      words.map (·.read mem) =
        wordlist ++ (wordsOf s.octets).eraseDups.filter fun word => !wordlist.contains word) ∧
    ∀ word ∈ wordsOf s.octets, ∃ mem words, makewordlistInPlace [] word = some (mem, words) ∧
      words.map (·.read mem) = [word] := by
  constructor
  · obtain ⟨mem, words, hscan, hmap⟩ := makewordlistInPlace_eq wordlist s.octets s.zero_not_mem
    refine ⟨mem, words, hscan, ?_⟩
    rw [hmap, makewordlist_eq, foldl_addWord_eq]
  · intro word hword
    obtain ⟨mem, words, hscan, hmap⟩ :=
      makewordlistInPlace_eq [] word (zero_not_mem_wordsOf s.zero_not_mem hword)
    refine ⟨mem, words, hscan, ?_⟩
    rw [hmap, makewordlist_eq, wordsOf_word hword]
    rfl

end Onak
