import Onak.Proofs.ConfigProofs
import Onak.Proofs.Db4FetchProofs

/-!
# Which lines of a file count

`array_load` and `readconfig` test for the end of the file before they look at the line that was read
last. A last line without a line break is read together with the end of the file.
-/

namespace Onak.Conf

/-- A text file with lines that fit into the buffers. -/
structure TextFile where
  text : List UInt8
  no_nul : 0 ∉ text
  short : ∀ line ∈ text.splitOn '\n'.toUInt8, line.length < 1022

/-- What stands in front of, between and behind the line breaks. -/
def TextFile.pieces (file : TextFile) : List (List UInt8) := file.text.splitOn '\n'.toUInt8

/-- The lines. Behind the last line break there is a line only if there is anything. -/
def TextFile.lines (file : TextFile) : List (List UInt8) :=
  if file.pieces.getLast? = some [] then file.pieces.dropLast else file.pieces

/-- The file is empty or ends with a line break. -/
def TextFile.Terminated (file : TextFile) : Prop :=
  file.text = [] ∨ file.text.getLast? = some '\n'.toUInt8

/-! ## What the line parser is given -/

/-- The loop of `readconfig`, for any line parser. -/
def readLines {σ : Type} (parse : σ → List UInt8 → σ) (s : σ) (text : List UInt8) : σ :=
  if text = [] then s
  else (Lines.chunks '\n'.toUInt8 1021 text).foldl (fun s curline => parse s (strip curline)) s

/-- The line parser that keeps what it is given. -/
def parsedLines (text : List UInt8) : List (List UInt8) :=
  readLines (fun lines line => lines ++ [line]) [] text

theorem foldl_append_singleton {α β : Type} (f : α → β) (l : List α) (init : List β) :
    l.foldl (fun acc a => acc ++ [f a]) init = init ++ l.map f := by
  induction l generalizing init with
  | nil => simp
  | cons a l ih => rw [List.foldl_cons, ih, List.map_cons, List.append_assoc, List.singleton_append]

theorem parsedLines_eq (text : List UInt8) :
    parsedLines text = (Lines.chunks '\n'.toUInt8 1021 text).map strip := by
  unfold parsedLines readLines
  split_ifs with h
  · rw [h, Lines.chunks_nil, List.map_nil]
  · rw [foldl_append_singleton, List.nil_append]

/-- `readconfig` parses these lines, and then looks for the backend. -/
theorem readconfig_eq (files : List UInt8 → Option (List UInt8)) (haveCrypto : Bool) (s : ParseState)
    {text : List UInt8} (h : text ≠ []) :
    readconfig files haveCrypto s text =
      let s := (parsedLines text).foldl (fun s line => (parseconfigline files haveCrypto s line).2) s
      match s.config.text .dbBackend with
      | none => s
      | some name =>
        { s with config := { s.config with backend := findDbBackendConfig s.config.backends name } } := by
  rw [readconfig, if_neg h, parsedLines_eq, List.foldl_map]
  rfl

/-! ## The lines that are seen -/

theorem TextFile.chunks_eq (file : TextFile) :
    Lines.chunks '\n'.toUInt8 1021 file.text = file.pieces.dropLast.map (· ++ ['\n'.toUInt8]) :=
  Lines.chunks_eq_splitOn file.text fun line hline => Nat.le_of_lt_succ (file.short line hline)

theorem TextFile.no_nul_of_mem (file : TextFile) {line : List UInt8} (h : line ∈ file.pieces) :
    0 ∉ line :=
  fun hzero => file.no_nul (Lines.mem_of_mem_splitOn h hzero)

theorem TextFile.terminated_iff (file : TextFile) :
    file.Terminated ↔ file.pieces.getLast? = some [] := (Lines.getLast?_splitOn file.text).symm

theorem TextFile.parsedLines_eq (file : TextFile) :
    parsedLines file.text = file.pieces.dropLast.map strip := by
  rw [Onak.Conf.parsedLines_eq, file.chunks_eq, List.map_map]
  exact List.map_congr_left fun line hline =>
    strip_break (file.no_nul_of_mem (List.dropLast_subset _ hline))

/-- A terminated file has the lines that are seen, any other one has one more. -/
theorem TextFile.lines_eq (file : TextFile) (h : file.Terminated) :
    file.lines = file.pieces.dropLast := if_pos (file.terminated_iff.mp h)

theorem TextFile.length_lines (file : TextFile) (h : ¬ file.Terminated) :
    file.lines.length = file.pieces.dropLast.length + 1 := by
  have hpos := List.length_pos_of_ne_nil (@Lines.splitOn_ne_nil _ _ '\n'.toUInt8 file.text)
  rw [lines, if_neg (fun hlast => h (file.terminated_iff.mpr hlast)), List.length_dropLast]
  exact (Nat.succ_pred_eq_of_pos hpos).symm

/-! ## Fingerprints in lines -/

/-- The value of a hexadecimal digit. -/
def hexValue (c : UInt8) : Option Nat :=
  if '0'.toNat ≤ c.toNat ∧ c.toNat ≤ '9'.toNat then some (c.toNat - '0'.toNat)
  else if 'a'.toNat ≤ c.toNat ∧ c.toNat ≤ 'f'.toNat then some (c.toNat - 'a'.toNat + 10)
  else if 'A'.toNat ≤ c.toNat ∧ c.toNat ≤ 'F'.toNat then some (c.toNat - 'A'.toNat + 10)
  else none

/-- A line of hexadecimal digits, white space behind them aside, that spells a fingerprint. -/
def Spells (line : List UInt8) (fp : Fingerprint) : Prop :=
  (fp.length = 16 ∨ fp.length = 20 ∨ fp.length = 32) ∧
    (line.rdropWhile isspace).length = 2 * fp.length ∧
    ∀ i (h : i < fp.length), ∃ high low,
      hexValue ((line.rdropWhile isspace).getD (2 * i) 0) = some high ∧
      hexValue ((line.rdropWhile isspace).getD (2 * i + 1) 0) = some low ∧
      fp[i].toNat = 16 * high + low

theorem hex2bin_eq {c : UInt8} {n : Nat} (h : hexValue c = some n) :
    n < 16 ∧ hex2bin c = UInt8.ofNat n := by
  have hall : ∀ k : Fin 256, (hexValue (UInt8.ofFin k)).all
      fun n => n < 16 && hex2bin (UInt8.ofFin k) == UInt8.ofNat n := by
    decide +kernel
  have hc := hall c.toFin
  rw [UInt8.ofFin_toFin, h] at hc
  simpa using hc

/-- The octet of two digits. -/
theorem octet_eq {octet high low : UInt8} {h l : Nat} (hhigh : hexValue high = some h)
    (hlow : hexValue low = some l) (hoctet : octet.toNat = 16 * h + l) :
    hex2bin high <<< 4 ||| hex2bin low = octet := by
  obtain ⟨hh, hhigh⟩ := hex2bin_eq hhigh
  obtain ⟨hl, hlow⟩ := hex2bin_eq hlow
  have hall : ∀ h l : Fin 16,
      (UInt8.ofNat h.val <<< 4 ||| UInt8.ofNat l.val).toNat = 16 * h.val + l.val := by
    decide +kernel
  rw [hhigh, hlow]
  exact UInt8.toNat_inj.mp ((hall ⟨h, hh⟩ ⟨l, hl⟩).trans hoctet.symm)

theorem arrayLoadLine_spells {line : List UInt8} {fp : Fingerprint} (hnul : 0 ∉ line)
    (h : Spells line fp) (array : KeyArray) :
    arrayLoadLine array (line ++ ['\n'.toUInt8]) = arrayAdd array fp := by
  obtain ⟨hfp, hlen, hdigits⟩ := h
  have hbreak : 0 ∉ line ++ ['\n'.toUInt8] := List.not_mem_append hnul (by decide)
  have hdrop : (cString (line ++ ['\n'.toUInt8])).rdropWhile isspace = line.rdropWhile isspace := by
    rw [cString_of_not_mem hbreak, List.rdropWhile_concat_pos isspace line '\n'.toUInt8 (by decide)]
  have hhalf : (line.rdropWhile isspace).length / 2 = fp.length := by omega
  have hcomment : (line.rdropWhile isspace).getD 0 0 ≠ '#'.toUInt8 := by
    intro heq
    obtain ⟨high, low, hhigh, -⟩ := hdigits 0 (by omega)
    have hnone : hexValue '#'.toUInt8 = none := by decide
    rw [Nat.mul_zero, heq, hnone] at hhigh
    cases hhigh
  have hoctets : (List.range fp.length).map (fun i =>
      hex2bin ((line.rdropWhile isspace).getD (2 * i) 0) <<< 4 |||
        hex2bin ((line.rdropWhile isspace).getD (2 * i + 1) 0)) = fp := by
    apply List.ext_getElem
    · simp
    · intro i hi hi'
      obtain ⟨high, low, hhigh, hlow, hoctet⟩ := hdigits i hi'
      rw [List.getElem_map, List.getElem_range]
      exact octet_eq hhigh hlow hoctet
  unfold arrayLoadLine
  simp only [hdrop, hhalf, if_neg hcomment, if_pos hfp, hoctets]

theorem subset_arrayLoadLine (array : KeyArray) (curline : List UInt8) :
    array ⊆ arrayLoadLine array curline := by
  unfold arrayLoadLine
  simp only []
  split_ifs
  · exact List.Subset.refl _
  · exact Bisect.subset_add
  · exact List.Subset.refl _

theorem subset_foldl_arrayLoadLine (chunks : List (List UInt8)) (array : KeyArray) :
    array ⊆ chunks.foldl arrayLoadLine array := by
  induction chunks generalizing array with
  | nil => exact List.Subset.refl _
  | cons chunk chunks ih =>
    rw [List.foldl_cons]
    exact List.Subset.trans (subset_arrayLoadLine array chunk) (ih _)

/-- What a line spells that was seen is there in the end. -/
theorem mem_foldl_arrayLoadLine {chunks : List (List UInt8)} {line : List UInt8} {fp : Fingerprint}
    (hmem : line ++ ['\n'.toUInt8] ∈ chunks) (hnul : 0 ∉ line) (h : Spells line fp)
    (array : KeyArray) : fp ∈ chunks.foldl arrayLoadLine array := by
  obtain ⟨before, after, rfl⟩ := List.append_of_mem hmem
  rw [List.foldl_append, List.foldl_cons, arrayLoadLine_spells hnul h]
  exact subset_foldl_arrayLoadLine after _ Bisect.mem_add_self

/-! ## When every line counts -/

/-- `array_load` adds every fingerprint that a line spells, whatever the array held. -/
def BlacklistCounts (file : TextFile) : Prop :=
  ∀ array, ∀ line ∈ file.lines, ∀ fp, Spells line fp → fp ∈ arrayLoad array (some file.text)

/-- `readconfig` gives the line parser every line once and in order, stripped at both ends. -/
def ConfigCounts (file : TextFile) : Prop := parsedLines file.text = file.lines.map strip

/-- **When every line counts.** For every text file with lines that fit into the buffers: `array_load`
adds the fingerprint of every line that spells one, and `readconfig` has every line parsed, if and only
if the file is empty or its last line ends with a line break. -/
theorem lines_count_iff (file : TextFile) :
    BlacklistCounts file ∧ ConfigCounts file ↔ file.Terminated := by
  constructor
  · rintro ⟨-, hconfig⟩
    by_contra hterm
    rw [ConfigCounts, file.parsedLines_eq] at hconfig
    have hlen := congrArg List.length hconfig
    rw [List.length_map, List.length_map, file.length_lines hterm] at hlen
    omega
  · intro hterm
    constructor
    · intro array line hline fp hspells
      rw [file.lines_eq hterm] at hline
      rw [arrayLoad, file.chunks_eq]
      exact mem_foldl_arrayLoadLine (List.mem_map.mpr ⟨line, hline, rfl⟩)
        (file.no_nul_of_mem (List.dropLast_subset _ hline)) hspells array
    · rw [ConfigCounts, file.parsedLines_eq, file.lines_eq hterm]

/-- A blacklist of one fingerprint, without a line break behind it. -/
def blacklistWithoutBreak : TextFile where
  text := List.replicate 32 '1'.toUInt8
  no_nul := by decide
  short := by decide +kernel

theorem lines_count_without_break :
    ¬ BlacklistCounts blacklistWithoutBreak ∧ ¬ ConfigCounts blacklistWithoutBreak := by
  have hpieces : blacklistWithoutBreak.pieces = [blacklistWithoutBreak.text] :=
    Lines.splitOn_of_not_mem (by decide)
  have hlines : blacklistWithoutBreak.lines = [blacklistWithoutBreak.text] := by
    rw [TextFile.lines, hpieces]
    decide
  constructor
  · intro h
    have hspells : Spells blacklistWithoutBreak.text (List.replicate 16 0x11) := by
      refine ⟨.inl rfl, by decide, fun i hi => ⟨1, 1, ?_⟩⟩
      have hall : ∀ i < 16,
          hexValue ((blacklistWithoutBreak.text.rdropWhile isspace).getD (2 * i) 0) = some 1 ∧
          hexValue ((blacklistWithoutBreak.text.rdropWhile isspace).getD (2 * i + 1) 0) = some 1 := by
        decide +kernel
      rw [List.length_replicate] at hi
      exact ⟨(hall i hi).1, (hall i hi).2, by rw [List.getElem_replicate]; rfl⟩
    have hmem := h [] _ (hlines ▸ List.mem_singleton_self _) _ hspells
    rw [arrayLoad, blacklistWithoutBreak.chunks_eq, hpieces] at hmem
    cases hmem
  · intro h
    rw [ConfigCounts, blacklistWithoutBreak.parsedLines_eq, hpieces, hlines] at h
    cases h

end Onak.Conf
