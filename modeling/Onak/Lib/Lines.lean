import Mathlib

/-!
# Reading a file line by line

`fgets` on the text of a file, and the loop that reads until the end of the file is met. A line that
does not fit into the buffer is read in pieces; a last line without a line break meets the end of
the file, and the loop does not get to see it.
-/

namespace Lines

variable {α : Type} [DecidableEq α] (nl : α)

/-- `fgets`: the characters read, at most `max` of them and none behind a line break, the rest of the
file, and whether its end was met. -/
def fgets : Nat → List α → List α × List α × Bool
  | 0, text => ([], text, false)
  | _ + 1, [] => ([], [], true)
  | max + 1, c :: text =>
    if c = nl then ([c], text, false) else (c :: (fgets max text).1, (fgets max text).2)

theorem fgets_append (max : Nat) (text : List α) :
    (fgets nl max text).1 ++ (fgets nl max text).2.1 = text := by
  induction max generalizing text with
  | zero => rfl
  | succ max ih =>
    cases text with
    | nil => rfl
    | cons c text =>
      rw [fgets]
      split_ifs
      · rfl
      · rw [List.cons_append, ih]

theorem fgets_ne_nil {max : Nat} {text : List α} (h : (fgets nl (max + 1) text).2.2 = false) :
    (fgets nl (max + 1) text).1 ≠ [] := by
  cases text with
  | nil => exact absurd h (by simp [fgets])
  | cons c text =>
    rw [fgets]
    split_ifs
    · exact List.cons_ne_nil _ _
    · exact List.cons_ne_nil _ _

/-- `for (fgets(..); !feof(..); fgets(..))`: what the body of the loop gets to see, with a buffer for
`max + 1` characters. -/
def chunks (max : Nat) (text : List α) : List (List α) :=
  if h : (fgets nl (max + 1) text).2.2 then
    []
  else
    (fgets nl (max + 1) text).1 :: chunks max (fgets nl (max + 1) text).2.1
termination_by text.length
decreasing_by
  have happend := congrArg List.length (fgets_append nl (max + 1) text)
  have hpos := List.length_pos_of_ne_nil (fgets_ne_nil nl (Bool.eq_false_iff.mpr h))
  rw [List.length_append] at happend
  omega

/-! ## What is read -/

/-- A piece of a line: it fits into the buffer, and a line break can only be its end. -/
def Piece (max : Nat) (chunk : List α) : Prop :=
  chunk.length ≤ max ∧ ∀ front back, chunk = front ++ nl :: back → back = []

variable {nl}

theorem piece_fgets (max : Nat) (text : List α) : Piece nl max (fgets nl max text).1 := by
  induction max generalizing text with
  | zero =>
    refine ⟨le_refl 0, fun front back h => ?_⟩
    exact absurd h.symm (by simp [fgets])
  | succ max ih =>
    cases text with
    | nil =>
      refine ⟨Nat.zero_le _, fun front back h => ?_⟩
      exact absurd h.symm (by simp [fgets])
    | cons c text =>
      rw [fgets]
      split_ifs with hc
      · refine ⟨Nat.le_add_left 1 max, fun front back h => ?_⟩
        have hlength := congrArg List.length h
        simp only [List.length_append, List.length_cons, List.length_nil] at hlength
        exact List.eq_nil_of_length_eq_zero (by omega)
      · obtain ⟨hlength, hbreak⟩ := ih text
        refine ⟨Nat.succ_le_succ hlength, fun front back h => ?_⟩
        cases front with
        | nil => exact absurd (List.cons.inj h).1 hc
        | cons d front => exact hbreak front back (List.cons.inj h).2

theorem piece_of_mem_chunks {max : Nat} {text chunk : List α} (h : chunk ∈ chunks nl max text) :
    Piece nl (max + 1) chunk := by
  fun_induction chunks nl max text with
  | case1 text heof => exact absurd h List.not_mem_nil
  | case2 text heof ih =>
    rcases List.mem_cons.mp h with rfl | h
    · exact piece_fgets (max + 1) text
    · exact ih h

/-! ## Reading what was written line by line -/

theorem fgets_line {max : Nat} {line rest : List α} (hnl : nl ∉ line) (h : line.length < max) :
    fgets nl max (line ++ nl :: rest) = (line ++ [nl], rest, false) := by
  induction line generalizing max with
  | nil =>
    obtain ⟨max, rfl⟩ := Nat.exists_eq_add_of_lt h
    rw [List.nil_append, fgets, if_pos rfl]
    rfl
  | cons c line ih =>
    obtain ⟨hc, hnl⟩ := not_or.mp (mt List.mem_cons.mpr hnl)
    cases max with
    | zero => exact absurd h (Nat.not_lt_zero _)
    | succ max =>
      rw [List.cons_append, fgets, if_neg (Ne.symm hc), ih hnl (Nat.lt_of_succ_lt_succ h)]
      rfl

theorem fgets_full {line rest : List α} (hnl : nl ∉ line) :
    fgets nl line.length (line ++ rest) = (line, rest, false) := by
  induction line with
  | nil => rfl
  | cons c line ih =>
    obtain ⟨hc, hnl⟩ := not_or.mp (mt List.mem_cons.mpr hnl)
    rw [List.length_cons, List.cons_append, fgets, if_neg (Ne.symm hc), ih hnl]

theorem fgets_last {max : Nat} {line : List α} (hnl : nl ∉ line) (h : line.length < max) :
    fgets nl max line = (line, [], true) := by
  induction line generalizing max with
  | nil =>
    cases max with
    | zero => exact absurd h (Nat.not_lt_zero _)
    | succ max => rfl
  | cons c line ih =>
    obtain ⟨hc, hnl⟩ := not_or.mp (mt List.mem_cons.mpr hnl)
    cases max with
    | zero => exact absurd h (Nat.not_lt_zero _)
    | succ max => rw [fgets, if_neg (Ne.symm hc), ih hnl (Nat.lt_of_succ_lt_succ h)]

theorem chunks_nil (max : Nat) : chunks nl max [] = [] := by
  have heof : (fgets nl (max + 1) []).2.2 = true := rfl
  rw [chunks, dif_pos heof]

theorem chunks_line {max : Nat} {line rest : List α} (hnl : nl ∉ line) (h : line.length ≤ max) :
    chunks nl max (line ++ nl :: rest) = (line ++ [nl]) :: chunks nl max rest := by
  rw [chunks, fgets_line hnl (Nat.lt_succ_of_le h), dif_neg Bool.false_ne_true]

/-- A line that just fits leaves its line break behind. -/
theorem chunks_full {max : Nat} {line rest : List α} (hnl : nl ∉ line) (h : line.length = max + 1) :
    chunks nl max (line ++ nl :: rest) = line :: [nl] :: chunks nl max rest := by
  have hfull : fgets nl (max + 1) (line ++ nl :: rest) = (line, nl :: rest, false) :=
    h ▸ fgets_full hnl
  have hbreak : chunks nl max (nl :: rest) = [nl] :: chunks nl max rest :=
    @chunks_line α _ nl max [] rest List.not_mem_nil (Nat.zero_le max)
  rw [chunks, hfull, dif_neg Bool.false_ne_true, hbreak]

theorem chunks_last {max : Nat} {line : List α} (hnl : nl ∉ line) (h : line.length ≤ max) :
    chunks nl max line = [] := by
  rw [chunks, fgets_last hnl (Nat.lt_succ_of_le h), dif_pos rfl]

/-! ## The lines of any text -/

/-- Induction along the line breaks. -/
theorem induction_on_lines {motive : List α → Prop} (last : ∀ line, nl ∉ line → motive line)
    (line : ∀ line rest, nl ∉ line → motive rest → motive (line ++ nl :: rest)) (text : List α) :
    motive text := by
  induction hn : text.length using Nat.strong_induction_on generalizing text with
  | _ n ih =>
  by_cases hmem : nl ∈ text
  · obtain ⟨front, rest, rfl, hnl⟩ := List.eq_append_cons_of_mem hmem
    have hlt : rest.length < n := by
      rw [← hn, List.length_append, List.length_cons]
      omega
    exact line front rest hnl (ih _ hlt rest rfl)
  · exact last text hmem

theorem splitOn_of_not_mem {text : List α} (h : nl ∉ text) : text.splitOn nl = [text] := by
  have hne : ∀ c ∈ text, (c == nl) = false := fun c hc => beq_false_of_ne fun heq => h (heq ▸ hc)
  rw [List.splitOn_eq_splitOnP, List.splitOnP_eq_singleton hne]

theorem splitOn_line {line : List α} (h : nl ∉ line) (rest : List α) :
    (line ++ nl :: rest).splitOn nl = line :: rest.splitOn nl := by
  have hne : ∀ c ∈ line, (c == nl) = false := fun c hc => beq_false_of_ne fun heq => h (heq ▸ hc)
  rw [List.splitOn_eq_splitOnP, List.splitOn_eq_splitOnP,
    List.splitOnP_append_cons_of_forall_mem hne nl (beq_self_eq_true nl) rest]

theorem splitOn_ne_nil (text : List α) : text.splitOn nl ≠ [] := by
  rw [List.splitOn_eq_splitOnP]
  exact List.splitOnP_ne_nil _ _

/-- Where every line fits into the buffer, the loop gets to see the lines that end with a line break. -/
theorem chunks_eq_splitOn {max : Nat} (text : List α)
    (h : ∀ line ∈ text.splitOn nl, line.length ≤ max) :
    chunks nl max text = (text.splitOn nl).dropLast.map (· ++ [nl]) := by
  induction text using @induction_on_lines _ _ nl with
  | last line hnl =>
    rw [splitOn_of_not_mem hnl] at h ⊢
    exact chunks_last hnl (h line (List.mem_singleton_self _))
  | line line rest hnl ih =>
    rw [splitOn_line hnl] at h ⊢
    rw [chunks_line hnl (h line List.mem_cons_self), List.dropLast_cons_of_ne_nil (splitOn_ne_nil rest),
      List.map_cons, ih fun line hline => h line (List.mem_cons_of_mem _ hline)]

/-- There is nothing behind the last line break if and only if the text ends with it. -/
theorem getLast?_splitOn (text : List α) :
    (text.splitOn nl).getLast? = some [] ↔ text = [] ∨ text.getLast? = some nl := by
  induction text using @induction_on_lines _ _ nl with
  | last line hnl =>
    rw [splitOn_of_not_mem hnl, List.getLast?_singleton, Option.some.injEq]
    exact ⟨.inl, fun h => h.resolve_right fun hlast => hnl (List.mem_of_getLast? hlast)⟩
  | line line rest hnl ih =>
    have hpieces : (line :: rest.splitOn nl).getLast? = (rest.splitOn nl).getLast? := by
      cases hrest : rest.splitOn nl with
      | nil => exact absurd hrest (splitOn_ne_nil rest)
      | cons first pieces => rw [List.getLast?_cons_cons]
    rw [splitOn_line hnl, hpieces, ih]
    cases rest with
    | nil => simp
    | cons c rest => simp [List.getLast?_append, List.getLast?_cons_cons]

theorem mem_of_mem_splitOn {text line : List α} (h : line ∈ text.splitOn nl) : line ⊆ text := by
  induction text using @induction_on_lines _ _ nl with
  | last text hnl =>
    rw [splitOn_of_not_mem hnl, List.mem_singleton] at h
    rw [h]
    exact List.Subset.refl _
  | line front rest hnl ih =>
    rw [splitOn_line hnl] at h
    rcases List.mem_cons.mp h with rfl | h
    · exact List.subset_append_left _ _
    · exact fun c hc => List.mem_append_right _ (List.mem_cons_of_mem _ (ih h hc))

/-- The text of some lines. -/
def unlines (nl : α) (lines : List (List α)) : List α := lines.flatMap (· ++ [nl])

/-- A loop that takes a line with or without its line break for the same, and does nothing on a line
break alone, gets to see the lines that were written. -/
theorem foldl_chunks {σ : Type} {f : σ → List α → σ} {max : Nat} (hbreak : ∀ s, f s [nl] = s)
    {lines : List (List α)}
    (h : ∀ line ∈ lines, nl ∉ line ∧ line.length ≤ max + 1 ∧ ∀ s, f s (line ++ [nl]) = f s line)
    (s : σ) : (chunks nl max (unlines nl lines)).foldl f s = lines.foldl f s := by
  induction lines generalizing s with
  | nil => rw [unlines, List.flatMap_nil, chunks_nil]
  | cons line lines ih =>
    obtain ⟨hnl, hlength, hline⟩ := h line (by simp)
    have ih := ih fun line hline => h line (List.mem_cons_of_mem _ hline)
    have htext : unlines nl (line :: lines) = line ++ nl :: unlines nl lines := by
      rw [unlines, List.flatMap_cons, List.append_assoc]
      rfl
    rcases Nat.lt_or_eq_of_le hlength with hlt | heq
    · rw [htext, chunks_line hnl (Nat.le_of_lt_succ hlt), List.foldl_cons, hline, ih,
        List.foldl_cons]
    · rw [htext, chunks_full hnl heq, List.foldl_cons, List.foldl_cons, hbreak, ih,
        List.foldl_cons]

/-! ## Lines of any length -/

variable (nl) in
/-- The lines of a text, each with its line break. -/
def lines : List α → List (List α)
  | [] => []
  | c :: text =>
    if c = nl then
      [c] :: lines text
    else
      match lines text with
      | [] => [[c]]
      | line :: rest => (c :: line) :: rest

theorem flatten_lines (text : List α) : (lines nl text).flatten = text := by
  induction text with
  | nil => rfl
  | cons c text ih =>
    rw [lines]
    split_ifs
    · rw [List.flatten_cons, ih]
      rfl
    · cases hlines : lines nl text with
      | nil =>
        rw [hlines] at ih
        rw [← ih]
        rfl
      | cons line rest =>
        rw [hlines] at ih
        rw [← ih]
        rfl

theorem lines_line {line : List α} (h : nl ∉ line) (text : List α) :
    lines nl (line ++ nl :: text) = (line ++ [nl]) :: lines nl text := by
  induction line with
  | nil => rw [List.nil_append, lines, if_pos rfl, List.nil_append]
  | cons c line ih =>
    obtain ⟨hc, hline⟩ := not_or.mp (mt List.mem_cons.mpr h)
    rw [List.cons_append, lines, if_neg (Ne.symm hc), ih hline]
    rfl

end Lines
