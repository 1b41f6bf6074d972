import Onak.Config
import Onak.Lib.Cursor
import Onak.Proofs.MarshalProofs

/-!
# Configurations that can be read

What a line can be after its white space is stripped, and what a configuration that was read from a
file satisfies: each of its texts stood in such a line, its numbers are of type `int`, and no two
backends have the same name.
-/

namespace Onak.Conf

open Print

/-! ## Lines -/

/-- A line that fits into the buffer and has no white space at its ends. -/
structure LineOk (line : List UInt8) : Prop where
  no_break : '\n'.toUInt8 ∉ line
  no_nul : 0 ∉ line
  length_le : line.length ≤ 1022
  head : ∀ c, line.head? = some c → isspace c = false
  last : ∀ c, line.getLast? = some c → isspace c = false

/-- A character that a line may have anywhere. -/
def isInner (c : UInt8) : Bool := !isspace c && c ≠ 0

theorem LineOk.of_all {line : List UInt8} (h : line.all isInner = true) (hlength : line.length ≤ 1022) :
    LineOk line := by
  have hchar : ∀ c ∈ line, isspace c = false ∧ c ≠ 0 := by
    intro c hc
    have hinner := List.all_eq_true.mp h c hc
    simpa [isInner] using hinner
  exact ⟨fun hmem => absurd (hchar _ hmem).1 (by decide), fun hmem => (hchar 0 hmem).2 rfl, hlength,
    fun c hc => (hchar c (List.mem_of_head? hc)).1, fun c hc => (hchar c (List.mem_of_getLast? hc)).1⟩

theorem strip_of_lineOk {line : List UInt8} (h : LineOk line) : strip line = line := by
  have hback : line.rdropWhile isspace = line := by
    rw [List.rdropWhile_eq_self_iff]
    intro hne
    rw [h.last _ (List.getLast?_eq_some_getLast hne)]
    exact Bool.false_ne_true
  have hfront : line.dropWhile isspace = line := by
    cases line with
    | nil => rfl
    | cons c line => rw [List.dropWhile_cons, h.head c rfl, if_neg Bool.false_ne_true]
  rw [strip, cString_of_not_mem h.no_nul, hback, hfront]

/-- The line break at the end of a line is stripped. -/
theorem strip_break {line : List UInt8} (h : 0 ∉ line) : strip (line ++ ['\n'.toUInt8]) = strip line := by
  have hbreak : 0 ∉ line ++ ['\n'.toUInt8] := List.not_mem_append h (by decide)
  have hdrop := List.rdropWhile_concat_pos isspace line '\n'.toUInt8 (by decide)
  rw [strip, strip, cString_of_not_mem hbreak, cString_of_not_mem h, hdrop]

theorem lineOk_strip {chunk : List UInt8} (h : Lines.Piece '\n'.toUInt8 1022 chunk) :
    LineOk (strip chunk) := by
  obtain ⟨hlength, hbreak⟩ := h
  obtain ⟨behind, hbehind⟩ : (cString chunk).rdropWhile isspace <+: chunk :=
    (List.rdropWhile_prefix isspace _).trans (List.takeWhile_prefix _)
  have hsuffix : strip chunk <:+ (cString chunk).rdropWhile isspace := List.dropWhile_suffix _
  have hlast : ∀ c, ((cString chunk).rdropWhile isspace).getLast? = some c → isspace c = false := by
    intro c hc
    have hne := List.ne_nil_of_mem (List.mem_of_getLast? hc)
    have hnot := List.rdropWhile_last_not isspace (cString chunk) hne
    rw [List.getLast?_eq_some_getLast hne] at hc
    rw [Option.some.inj hc] at hnot
    exact Bool.eq_false_iff.mpr hnot
  refine ⟨fun hmem => ?_, fun hmem => ?_, ?_, fun c hc => ?_, fun c hc => ?_⟩
  · -- a line break would be the last character, which is no white space
    obtain ⟨front, back, hsplit⟩ := List.append_of_mem (hsuffix.subset hmem)
    have hback : back ++ behind = [] := by
      refine hbreak front (back ++ behind) ?_
      rw [← hbehind, hsplit, List.append_assoc, List.cons_append]
    obtain ⟨rfl, -⟩ := List.append_eq_nil_iff.mp hback
    have hspace := hlast '\n'.toUInt8 (by rw [hsplit, List.getLast?_concat])
    exact absurd hspace (by decide)
  · have hchunk := (List.rdropWhile_prefix isspace _).subset (hsuffix.subset hmem)
    exact absurd (List.mem_takeWhile_imp hchunk) (by decide)
  · have hle := congrArg List.length hbehind
    have hsuffixle := hsuffix.length_le
    rw [List.length_append] at hle
    omega
  · have hhead : (((cString chunk).rdropWhile isspace).dropWhile isspace).head? = some c := hc
    have hnot := List.head?_dropWhile_not isspace ((cString chunk).rdropWhile isspace)
    rw [hhead] at hnot
    exact hnot
  · obtain ⟨front, hfront⟩ := hsuffix
    refine hlast c ?_
    rw [← hfront, List.getLast?_append, hc]
    rfl

/-- A line with an equals sign, by its name and its value. -/
theorem line_eq {line : List UInt8} (h : line.contains '='.toUInt8 = true) :
    line = line.takeWhile (· ≠ '='.toUInt8) ++ ascii "=" ++
      (line.dropWhile (· ≠ '='.toUInt8)).drop 1 := by
  have happend := List.takeWhile_append_dropWhile (p := (· ≠ '='.toUInt8)) (l := line)
  cases hdrop : line.dropWhile (· ≠ '='.toUInt8) with
  | nil =>
    have hall := List.dropWhile_eq_nil_iff.mp hdrop _ (List.contains_iff_mem.mp h)
    exact absurd hall (by simp)
  | cons c value =>
    have hc : c = '='.toUInt8 := Cursor.eq_of_dropWhile_ne hdrop
    rw [hdrop, hc] at happend
    rw [List.append_assoc]
    exact happend.symm

/-! ## What is read -/

/-- A number that fits into an `int`. -/
def IsInt (i : Int) : Prop := -2 ^ 31 ≤ i ∧ i < 2 ^ 31

theorem isInt_atoi (s : List UInt8) : IsInt (atoi s) := by
  have hm : 0 < 2 ^ 32 := by decide
  exact ⟨Int.le_bmod hm, Int.bmod_lt hm⟩

/-- The line of a name and a value. -/
def entry (name value : List UInt8) : List UInt8 := name ++ ascii "=" ++ value

/-- The line that opens a section. -/
def header (secname : List UInt8) : List UInt8 := ascii "[" ++ secname ++ ascii "]"

/-- A section that can have been opened. -/
def HeaderOk (secname : List UInt8) : Prop :=
  LineOk (header secname) ∧ (header secname).length ≤ 32

/-- A backend that can have been read. -/
structure BackendOk (backend : DbConfig) : Prop where
  name : HeaderOk (ascii "backend:" ++ backend.name)
  fields : ∀ field value, backend.fields field = some value → LineOk (entry field.key value)

/-- A configuration that can have been read. -/
structure Sound (config : Config) : Prop where
  text : ∀ s value, config.text s = some value → LineOk (entry (Setting.text s).key.2 value)
  number : ∀ s, IsInt (config.number s)
  syncsites : ∀ site ∈ config.syncsites, LineOk (entry Setting.syncsite.key.2 site)
  backends : ∀ backend ∈ config.backends, BackendOk backend
  names : (config.backends.map DbConfig.name).Nodup

theorem sound_fresh : Sound fresh where
  text _ _ h := absurd h (Option.some_ne_none _).symm
  number s := by cases s <;> exact ⟨by decide, by decide⟩
  syncsites _ h := absurd h List.not_mem_nil
  backends _ h := absurd h List.not_mem_nil
  names := List.nodup_nil

/-! ### Backends -/

theorem setField_name (key value : List UInt8) (backend : DbConfig) :
    (setField key value backend).name = backend.name := by
  unfold setField
  split <;> rfl

theorem BackendOk.setField {key value : List UInt8} {backend : DbConfig} (h : BackendOk backend)
    (hline : LineOk (entry key value)) : BackendOk (setField key value backend) := by
  refine ⟨?_, fun field v hv => ?_⟩
  · rw [setField_name]
    exact h.name
  · unfold Conf.setField at hv
    split at hv
    · exact h.fields field v hv
    · rename_i found hfound
      have hbeq := List.find?_some hfound
      have hkey : found.key = key := eq_of_beq hbeq
      change Function.update backend.fields found (some value) field = some v at hv
      by_cases hfield : field = found
      · subst hfield
        rw [Function.update_self] at hv
        obtain rfl := Option.some.inj hv
        exact hkey ▸ hline
      · rw [Function.update_of_ne hfield] at hv
        exact h.fields field v hv

section

variable {name : List UInt8} {f : DbConfig → DbConfig} {backends : List DbConfig}

theorem map_name_updateBackend (hf : ∀ backend, (f backend).name = backend.name) :
    (updateBackend name f backends).map DbConfig.name = backends.map DbConfig.name := by
  induction backends with
  | nil => rfl
  | cons backend backends ih =>
    unfold updateBackend
    split_ifs
    · rw [List.map_cons, hf, List.map_cons]
    · rw [List.map_cons, ih, List.map_cons]

theorem mem_updateBackend {backend : DbConfig} (h : backend ∈ updateBackend name f backends) :
    backend ∈ backends ∨ ∃ old ∈ backends, backend = f old := by
  induction backends with
  | nil => exact absurd h List.not_mem_nil
  | cons first backends ih =>
    unfold updateBackend at h
    split_ifs at h
    · rcases List.mem_cons.mp h with rfl | h
      · exact .inr ⟨first, by simp, rfl⟩
      · exact .inl (List.mem_cons_of_mem _ h)
    · rcases List.mem_cons.mp h with rfl | h
      · exact .inl (by simp)
      · rcases ih h with h | ⟨old, hold, rfl⟩
        · exact .inl (List.mem_cons_of_mem _ h)
        · exact .inr ⟨old, List.mem_cons_of_mem _ hold, rfl⟩

theorem findDbBackendConfig_eq_none :
    findDbBackendConfig backends name = none ↔ name ∉ backends.map DbConfig.name := by
  unfold findDbBackendConfig
  rw [List.find?_eq_none]
  simp only [List.mem_map, not_exists, not_and, beq_iff_eq]

end

theorem Sound.parseBackendLine {config : Config} {name key value : List UInt8} (h : Sound config)
    (hname : HeaderOk (ascii "backend:" ++ name)) (hline : LineOk (entry key value)) :
    Sound { config with backends := parseBackendLine config.backends name key value } := by
  have hnew : BackendOk ⟨name, fun _ => none⟩ :=
    ⟨hname, fun _ _ hv => absurd hv (Option.some_ne_none _).symm⟩
  refine ⟨h.text, h.number, h.syncsites, ?_, ?_⟩
  · intro backend hbackend
    unfold Conf.parseBackendLine at hbackend
    split at hbackend
    · rcases List.mem_cons.mp hbackend with rfl | hbackend
      · exact hnew.setField hline
      · exact h.backends backend hbackend
    · rcases mem_updateBackend hbackend with hbackend | ⟨old, hold, rfl⟩
      · exact h.backends backend hbackend
      · exact (h.backends old hold).setField hline
  · unfold Conf.parseBackendLine
    split
    · rename_i hfind
      rw [List.map_cons, setField_name, List.nodup_cons]
      exact ⟨findDbBackendConfig_eq_none.mp hfind, h.names⟩
    · rw [map_name_updateBackend (setField_name key value)]
      exact h.names

/-! ### The other sections -/

section

variable (files : List UInt8 → Option (List UInt8)) (haveCrypto : Bool)

theorem Sound.set {config : Config} {value : List UInt8} {setting : Setting} (h : Sound config)
    (hline : LineOk (entry setting.key.2 value)) :
    Sound (setting.set files haveCrypto config value) := by
  cases setting with
  | text s =>
    refine ⟨fun s' v hv => ?_, h.number, h.syncsites, h.backends, h.names⟩
    change Function.update config.text s (some value) s' = some v at hv
    by_cases hs : s' = s
    · subst hs
      rw [Function.update_self] at hv
      exact Option.some.inj hv ▸ hline
    · rw [Function.update_of_ne hs] at hv
      exact h.text s' v hv
  | number s =>
    refine ⟨h.text, fun s' => ?_, h.syncsites, h.backends, h.names⟩
    show IsInt (Function.update config.number s (atoi value) s')
    by_cases hs : s' = s
    · subst hs
      rw [Function.update_self]
      exact isInt_atoi value
    · rw [Function.update_of_ne hs]
      exact h.number s'
  | useKeyd => exact ⟨h.text, h.number, h.syncsites, h.backends, h.names⟩
  | syncsite =>
    refine ⟨h.text, h.number, fun site hsite => ?_, h.backends, h.names⟩
    rcases List.mem_cons.mp hsite with rfl | hsite
    · exact hline
    · exact h.syncsites site hsite
  | blacklist => exact ⟨h.text, h.number, h.syncsites, h.backends, h.names⟩
  | dropV3 => exact h
  | policy p =>
    rw [Setting.set]
    split_ifs
    · exact h
    · exact ⟨h.text, h.number, h.syncsites, h.backends, h.names⟩

theorem backend_set (config : Config) (value : List UInt8) (setting : Setting) :
    (setting.set files haveCrypto config value).backend = config.backend := by
  cases setting with
  | text | number | useKeyd | syncsite | blacklist | dropV3 => rfl
  | policy p =>
    rw [Setting.set]
    split_ifs <;> rfl

theorem key_of_matchSetting {secname name : List UInt8} {setting : Setting}
    (h : matchSetting secname name = some setting) : setting.key = (secname, name) := by
  have hbeq := List.find?_some h
  exact eq_of_beq hbeq

/-- What holds between two lines. -/
structure StateOk (s : ParseState) : Prop where
  config : Sound s.config
  secname : HeaderOk s.secname
  backend : s.config.backend = none

theorem StateOk.parseHeader {s : ParseState} {line : List UInt8} (h : StateOk s)
    (hline : LineOk line) (hopen : line.getD 0 0 = '['.toUInt8) : StateOk (parseHeader s line).2 := by
  unfold Conf.parseHeader
  split_ifs with hclose hlength
  · exact h
  · exact h
  · have hsplit : line = header ((line.drop 1).dropLast) := by
      cases line with
      | nil => exact absurd hopen (by decide)
      | cons c rest =>
        obtain rfl : c = '['.toUInt8 := hopen
        have hlast := not_not.mp hclose
        cases hrest : rest using List.reverseRecOn with
        | nil =>
          subst hrest
          exact absurd hlast (by decide)
        | append_singleton front d =>
          subst hrest
          rw [← List.cons_append, List.getLast?_concat] at hlast
          obtain rfl := Option.some.inj hlast
          rw [List.drop_one, List.tail_cons, List.dropLast_concat]
          rfl
    refine ⟨h.config, ⟨?_, ?_⟩, h.backend⟩
    · rw [← hsplit]
      exact hline
    · rw [← hsplit]
      exact not_lt.mp hlength

theorem StateOk.parseValue {s : ParseState} {name value : List UInt8} (h : StateOk s)
    (hline : LineOk (entry name value)) : StateOk (parseValue files haveCrypto s name value).2 := by
  unfold Conf.parseValue
  split_ifs with hbackend
  · obtain ⟨rest, hrest⟩ := List.isPrefixOf_iff_prefix.mp hbackend
    have hdrop : ascii "backend:" ++ s.secname.drop 8 = s.secname := by
      rw [← hrest]
      rfl
    exact ⟨h.config.parseBackendLine (hdrop ▸ h.secname) hline, h.secname, h.backend⟩
  · split
    · exact h
    · rename_i setting hsetting
      have hname : setting.key.2 = name := by rw [key_of_matchSetting hsetting]
      refine ⟨h.config.set files haveCrypto (hname ▸ hline), h.secname, ?_⟩
      exact (backend_set files haveCrypto s.config value setting).trans h.backend

theorem StateOk.parseconfigline {s : ParseState} {line : List UInt8} (h : StateOk s)
    (hline : LineOk line) : StateOk (parseconfigline files haveCrypto s line).2 := by
  unfold Conf.parseconfigline
  split_ifs with hcomment hopen hequals
  · exact h
  · exact h.parseHeader hline hopen
  · refine h.parseValue files haveCrypto ?_
    unfold entry
    rw [← line_eq hequals]
    exact hline
  · exact h

theorem StateOk.foldl {s : ParseState} (h : StateOk s) {chunks : List (List UInt8)}
    (hchunks : ∀ chunk ∈ chunks, Lines.Piece '\n'.toUInt8 1022 chunk) :
    StateOk (chunks.foldl (readLine files haveCrypto) s) := by
  induction chunks generalizing s with
  | nil => exact h
  | cons chunk chunks ih =>
    have hchunk := lineOk_strip (hchunks chunk (by simp))
    exact ih (h.parseconfigline files haveCrypto hchunk)
      fun chunk hchunk => hchunks chunk (List.mem_cons_of_mem _ hchunk)

/-- The backend that is used is the one of its name. -/
def BackendFound (config : Config) : Prop :=
  ∀ backend, config.backend = some backend →
    config.text .dbBackend = some backend.name ∧
      findDbBackendConfig config.backends backend.name = some backend

theorem stateOk_fresh : StateOk ⟨fresh, []⟩ :=
  ⟨sound_fresh, ⟨LineOk.of_all (by decide) (by decide), by decide⟩, rfl⟩

theorem sound_readconfig (text : List UInt8) :
    Sound (readconfig files haveCrypto ⟨fresh, []⟩ text).config ∧
      BackendFound (readconfig files haveCrypto ⟨fresh, []⟩ text).config := by
  have hnone : ∀ {config : Config}, config.backend = none → BackendFound config := by
    intro config hconfig backend hbackend
    exact absurd (hconfig.symm.trans hbackend) (Option.some_ne_none _).symm
  have hfold : StateOk ((Lines.chunks '\n'.toUInt8 1021 text).foldl (readLine files haveCrypto)
      ⟨fresh, []⟩) :=
    stateOk_fresh.foldl files haveCrypto fun chunk hchunk => Lines.piece_of_mem_chunks hchunk
  unfold readconfig
  split_ifs
  · exact ⟨sound_fresh, hnone rfl⟩
  · revert hfold
    generalize (Lines.chunks '\n'.toUInt8 1021 text).foldl _ _ = s
    intro hfold
    simp only
    split
    · exact ⟨hfold.config, hnone hfold.backend⟩
    · rename_i name hname
      obtain ⟨htext, hnumber, hsyncsites, hbackends, hnames⟩ := hfold.config
      refine ⟨⟨htext, hnumber, hsyncsites, hbackends, hnames⟩, fun backend hbackend => ?_⟩
      change findDbBackendConfig s.config.backends name = some backend at hbackend
      have hbeq := List.find?_some hbackend
      obtain rfl : backend.name = name := eq_of_beq hbeq
      exact ⟨hname, hbackend⟩

end

end Onak.Conf
