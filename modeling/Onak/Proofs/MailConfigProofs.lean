import Onak.Proofs.ConfigRoundTripProofs
import Onak.Proofs.SyncMailProofs

/-!
# Proofs: one configuration file for both programs

What `onak-mail.pl` reads from the file that `writeconfig` writes.
-/

namespace Onak.Mail

open Print
open Conf (isspace Config DbConfig Setting Sound entry header written writtenField LineOk)

/-! ## Lines that set something -/

/-- The rest of a line loses the blanks in front of it. -/
theorem dots_dropWhile {value : List UInt8} (h : '\n'.toUInt8 ∉ value) :
    dots ((value ++ ['\n'.toUInt8]).dropWhile isspace) = value.dropWhile isspace := by
  induction value with
  | nil => decide
  | cons c value ih =>
    cases hc : isspace c with
    | true =>
      rw [List.cons_append, List.dropWhile_cons_of_pos hc, List.dropWhile_cons_of_pos hc]
      exact ih fun hmem => h (List.mem_cons_of_mem _ hmem)
    | false =>
      have hneg : ¬ isspace c = true := by
        rw [hc]
        exact Bool.false_ne_true
      rw [List.cons_append, List.dropWhile_cons_of_neg hneg, List.dropWhile_cons_of_neg hneg]
      exact dots_line h []

/-- A line that sets what it is looked at for. -/
theorem matchSetting_entry {name : String} {value : List UInt8} (h : '\n'.toUInt8 ∉ value) :
    matchSetting name (entry (ascii name) value ++ ['\n'.toUInt8]) = some (value.dropWhile isspace) := by
  have hdrop : (entry (ascii name) value ++ ['\n'.toUInt8]).drop (ascii name).length =
      '='.toUInt8 :: (value ++ ['\n'.toUInt8]) := by
    rw [entry, List.append_assoc, List.append_assoc, List.drop_left]
    rfl
  have hstart : (ascii name).isPrefixOf (entry (ascii name) value ++ ['\n'.toUInt8]) = true := by
    rw [List.isPrefixOf_iff_prefix, entry, List.append_assoc, List.append_assoc]
    exact List.prefix_append ..
  rw [matchSetting, hdrop, List.dropWhile_cons_of_neg (by decide), if_pos ⟨hstart, rfl⟩]
  exact congrArg some (dots_dropWhile h)

theorem matchSetting_other {name : String} {line : List UInt8}
    (h : (ascii name).isPrefixOf line = false) : matchSetting name line = none := by
  rw [matchSetting]
  exact if_neg fun hand => absurd (h.symm.trans hand.1) (by decide)

theorem set_other {config : MailConfig} {line : List UInt8} {name : String}
    {setting : Option MailSetting} {settings : List (String × Option MailSetting)}
    (h : (ascii name).isPrefixOf line = false) :
    config.set line ((name, setting) :: settings) = config.set line settings := by
  simp only [MailConfig.set, matchSetting_other h]

theorem set_text {config : MailConfig} {value : List UInt8} {name : String} {setting : MailSetting}
    {settings : List (String × Option MailSetting)} (h : '\n'.toUInt8 ∉ value) :
    config.set (entry (ascii name) value ++ ['\n'.toUInt8]) ((name, some setting) :: settings) =
      { config with text := Function.update config.text setting (some (value.dropWhile isspace)) } := by
  simp only [MailConfig.set, matchSetting_entry h]

theorem set_site {config : MailConfig} {value : List UInt8} {name : String}
    {settings : List (String × Option MailSetting)} (h : '\n'.toUInt8 ∉ value) :
    config.set (entry (ascii name) value ++ ['\n'.toUInt8]) ((name, none) :: settings) =
      { config with syncsites := config.syncsites ++ [value.dropWhile isspace] } := by
  simp only [MailConfig.set, matchSetting_entry h]

/-! ## Lines in their sections -/

/-- The lines of a part of the file, one after the other. -/
def readLines (s : MailConfig × List UInt8) (lines : List (List UInt8)) : MailConfig × List UInt8 :=
  (lines.map (· ++ ['\n'.toUInt8])).foldl configLine s

theorem readLines_append (s : MailConfig × List UInt8) (first last : List (List UInt8)) :
    readLines s (first ++ last) = readLines (readLines s first) last := by
  rw [readLines, List.map_append, List.foldl_append]
  rfl

/-- A line that begins with a letter. -/
structure Begins (line : List UInt8) : Prop where
  nonempty : line ≠ []
  hash : line.head? ≠ some '#'.toUInt8
  bracket : line.head? ≠ some '['.toUInt8

theorem begins_entry {key : List UInt8} (value : List UInt8)
    (h : key ≠ [] ∧ key.head? ≠ some '#'.toUInt8 ∧ key.head? ≠ some '['.toUInt8) :
    Begins (entry key value) := by
  obtain ⟨hne, hhash, hbracket⟩ := h
  obtain ⟨c, rest, rfl⟩ := List.exists_cons_of_ne_nil hne
  exact ⟨List.cons_ne_nil _ _, hhash, hbracket⟩

theorem configLine_begins {s : MailConfig × List UInt8} {line : List UInt8} (h : Begins line) :
    configLine s (line ++ ['\n'.toUInt8]) =
      if s.2 = ascii "main" then
        (s.1.set (line ++ ['\n'.toUInt8]) [("logfile", some .logfile)], s.2)
      else if s.2 = ascii "mail" then (s.1.set (line ++ ['\n'.toUInt8]) mailSettings, s.2)
      else s := by
  have hhead : (line ++ ['\n'.toUInt8]).head? = line.head? := by
    obtain ⟨c, rest, rfl⟩ := List.exists_cons_of_ne_nil h.nonempty
    rfl
  have hsection : matchSection (line ++ ['\n'.toUInt8]) = none := by
    rw [matchSection, hhead]
    exact if_neg fun hand => h.bracket hand.1
  have hnot : ¬ ((line ++ ['\n'.toUInt8]).head? = some '#'.toUInt8 ∨
      emptyLine (line ++ ['\n'.toUInt8]) = true) := by
    rw [hhead, emptyLine_line h.nonempty]
    exact fun hor => hor.elim h.hash (absurd · (by decide))
  rw [configLine, if_neg hnot, hsection]

theorem main_ne_mail : ascii "mail" ≠ ascii "main" := by decide

theorem verification_ne :
    ascii "verification" ≠ ascii "main" ∧ ascii "verification" ≠ ascii "mail" := by
  decide

/-- The setting of the mail program that a text is. -/
def mailText : MailSetting → Conf.TextSetting
  | .logfile => .logfile
  | .thissite => .thissite
  | .adminemail => .adminemail
  | .mta => .mta
  | .pksBinDir => .binDir
  | .mailDir => .mailDir

/-- A value as the mail program reads it, without the blanks in front of it. -/
def mailValue (config : Config) (setting : MailSetting) : Option (List UInt8) :=
  (config.text (mailText setting)).map (List.dropWhile isspace)

theorem newline_notMem_value {key value : List UInt8} (h : LineOk (entry key value)) :
    '\n'.toUInt8 ∉ value :=
  fun hmem => h.no_break (List.mem_append_right _ hmem)

section

variable {config : Config} (h : Sound config)
include h

/-- A text in the section `main`. -/
theorem readLines_main (m : MailConfig) :
    ∀ setting ∈ Conf.mainSettings, readLines (m, ascii "main") (written config setting) =
      if setting = .text .logfile then
        ({ m with
            text := Function.update m.text .logfile ((mailValue config .logfile).or (m.text .logfile)) },
          ascii "main")
      else (m, ascii "main") := by
  have hline : ∀ {line : List UInt8}, Begins line →
      (ascii "logfile").isPrefixOf (line ++ ['\n'.toUInt8]) = false →
        configLine (m, ascii "main") (line ++ ['\n'.toUInt8]) = (m, ascii "main") := by
    intro line hbegins hstart
    rw [configLine_begins hbegins, if_pos rfl, set_other hstart]
    rfl
  have hentry : ∀ {key : List UInt8} (value : List UInt8),
      (key ≠ [] ∧ key.head? ≠ some '#'.toUInt8 ∧ key.head? ≠ some '['.toUInt8) →
        (ascii "logfile").isPrefixOf (entry key value ++ ['\n'.toUInt8]) = false →
          readLines (m, ascii "main") [entry key value] = (m, ascii "main") :=
    fun value hkey hstart => hline (begins_entry value hkey) hstart
  have htext : ∀ (s : Conf.TextSetting), ((Setting.text s).key.2 ≠ [] ∧
      (Setting.text s).key.2.head? ≠ some '#'.toUInt8 ∧
        (Setting.text s).key.2.head? ≠ some '['.toUInt8) →
      (∀ value, (ascii "logfile").isPrefixOf
        (entry (Setting.text s).key.2 value ++ ['\n'.toUInt8]) = false) →
        readLines (m, ascii "main") (written config (.text s)) = (m, ascii "main") := by
    intro s hkey hstart
    cases hvalue : config.text s with
    | none =>
      rw [written, hvalue]
      rfl
    | some value =>
      rw [written, hvalue]
      exact hentry value hkey (hstart value)
  intro setting hsetting
  simp only [Conf.mainSettings, List.mem_cons, List.not_mem_nil, or_false] at hsetting
  rcases hsetting with rfl | rfl | rfl | rfl | rfl | rfl | rfl | rfl | rfl
  · exact htext _ (by decide) fun value => rfl
  · exact htext _ (by decide) fun value => rfl
  · exact htext _ (by decide) fun value => rfl
  · -- the log file is the only setting that counts
    rw [if_pos rfl, written, mailValue, mailText]
    cases hvalue : config.text .logfile with
    | none =>
      rw [Option.map_none, Option.map_none, Option.none_or, Function.update_eq_self]
      rfl
    | some value =>
      have hset : m.set (entry (ascii "logfile") value ++ ['\n'.toUInt8]) [("logfile", some .logfile)] =
          { m with text := Function.update m.text .logfile (some (value.dropWhile isspace)) } :=
        set_text (newline_notMem_value (h.text _ _ hvalue))
      show configLine (m, ascii "main") (entry (ascii "logfile") value ++ ['\n'.toUInt8]) = _
      rw [configLine_begins (begins_entry value (by decide)), if_pos rfl, hset]
      rfl
  · exact hentry _ (by decide) rfl
  · exact hentry _ (by decide) rfl
  · exact htext _ (by decide) fun value => rfl
  · exact hentry _ (by decide) rfl
  · exact htext _ (by decide) fun value => rfl

/-- What the lines of a setting in the section `mail` set. -/
def restored (config : Config) (m : MailConfig) (setting : MailSetting) : MailConfig :=
  { m with
    text := Function.update m.text setting ((mailValue config setting).or (m.text setting)) }

/-- A text in the section `mail`, with the settings that are tried before it. -/
theorem readLines_mail (m : MailConfig) (name : String) (setting : MailSetting)
    (hkey : ascii name ≠ [] ∧ (ascii name).head? ≠ some '#'.toUInt8 ∧
      (ascii name).head? ≠ some '['.toUInt8)
    (hset : ∀ value, '\n'.toUInt8 ∉ value →
      m.set (entry (ascii name) value ++ ['\n'.toUInt8]) mailSettings =
        { m with text := Function.update m.text setting (some (value.dropWhile isspace)) }) :
    readLines (m, ascii "mail") ((config.text (mailText setting)).map (entry (ascii name))).toList =
      (restored config m setting, ascii "mail") := by
  unfold restored mailValue
  cases hvalue : config.text (mailText setting) with
  | none =>
    rw [Option.map_none, Option.map_none, Option.none_or, Function.update_eq_self]
    rfl
  | some value =>
    show configLine (m, ascii "mail") (entry (ascii name) value ++ ['\n'.toUInt8]) = _
    rw [configLine_begins (begins_entry value hkey), if_neg main_ne_mail, if_pos rfl,
      hset value (newline_notMem_value (h.text _ _ hvalue))]
    rfl

omit h in
/-- The sites, in their order. -/
theorem readLines_syncsites {sites : List (List UInt8)} (h : ∀ site ∈ sites, '\n'.toUInt8 ∉ site)
    (m : MailConfig) :
    readLines (m, ascii "mail") (sites.map (entry (ascii "syncsite"))) =
      ({ m with syncsites := m.syncsites ++ sites.map (List.dropWhile isspace) }, ascii "mail") := by
  induction sites generalizing m with
  | nil =>
    rw [List.map_nil, List.map_nil, List.append_nil]
    rfl
  | cons site sites ih =>
    have hset : m.set (entry (ascii "syncsite") site ++ ['\n'.toUInt8]) mailSettings =
        { m with syncsites := m.syncsites ++ [site.dropWhile isspace] } := by
      rw [mailSettings, set_other rfl, set_other rfl, set_other rfl, set_other rfl, set_other rfl,
        set_site (h site (List.mem_cons_self ..))]
    have hline : configLine (m, ascii "mail") (entry (ascii "syncsite") site ++ ['\n'.toUInt8]) =
        ({ m with syncsites := m.syncsites ++ [site.dropWhile isspace] }, ascii "mail") := by
      rw [configLine_begins (begins_entry site (by decide)), if_neg main_ne_mail, if_pos rfl, hset]
    have hrest := ih (fun other hother => h other (List.mem_cons_of_mem _ hother))
      { m with syncsites := m.syncsites ++ [site.dropWhile isspace] }
    rw [List.append_assoc] at hrest
    have hone : readLines (m, ascii "mail") [entry (ascii "syncsite") site] =
        ({ m with syncsites := m.syncsites ++ [site.dropWhile isspace] }, ascii "mail") := hline
    rw [List.map_cons, ← List.singleton_append, readLines_append, hone, hrest]
    rfl

omit h in
theorem readLines_header {secname : List UInt8} (hopen : (header secname ++ ['\n'.toUInt8]).head? ≠
      some '#'.toUInt8 ∧ emptyLine (header secname ++ ['\n'.toUInt8]) = false)
    (h : matchSection (header secname ++ ['\n'.toUInt8]) = some secname) (s : MailConfig × List UInt8)
    (lines : List (List UInt8)) :
    readLines s (header secname :: lines) = readLines (s.1, secname) lines := by
  have hnot : ¬ ((header secname ++ ['\n'.toUInt8]).head? = some '#'.toUInt8 ∨
      emptyLine (header secname ++ ['\n'.toUInt8]) = true) := by
    rw [hopen.2]
    exact fun hor => hor.elim hopen.1 (absurd · (by decide))
  have hline : configLine s (header secname ++ ['\n'.toUInt8]) = (s.1, secname) := by
    rw [configLine, if_neg hnot, h]
  rw [readLines, List.map_cons, List.foldl_cons, hline]
  rfl

/-- The section `mail`. -/
theorem readLines_writeMail (s : MailConfig × List UInt8) :
    readLines s (Conf.writeMail config) =
      ({ [MailSetting.adminemail, .mailDir, .mta, .pksBinDir, .thissite].foldl (restored config) s.1 with
          syncsites := s.1.syncsites ++ config.syncsites.map (List.dropWhile isspace) }, ascii "mail") := by
  have hadminemail : ∀ m, readLines (m, ascii "mail") (written config (.text .adminemail)) =
      (restored config m .adminemail, ascii "mail") := fun m =>
    readLines_mail h m "maintainer_email" .adminemail (by decide) fun value hvalue => by
      rw [mailSettings, set_other rfl, set_text hvalue]
  have hmailDir : ∀ m, readLines (m, ascii "mail") (written config (.text .mailDir)) =
      (restored config m .mailDir, ascii "mail") := fun m =>
    readLines_mail h m "mail_dir" .mailDir (by decide) fun value hvalue => by
      rw [mailSettings, set_other rfl, set_other rfl, set_other rfl, set_other rfl, set_text hvalue]
  have hmta : ∀ m, readLines (m, ascii "mail") (written config (.text .mta)) =
      (restored config m .mta, ascii "mail") := fun m =>
    readLines_mail h m "mta" .mta (by decide) fun value hvalue => by
      rw [mailSettings, set_other rfl, set_other rfl, set_text hvalue]
  have hbinDir : ∀ m, readLines (m, ascii "mail") (written config (.text .binDir)) =
      (restored config m .pksBinDir, ascii "mail") := fun m =>
    readLines_mail h m "bin_dir" .pksBinDir (by decide) fun value hvalue => by
      rw [mailSettings, set_other rfl, set_other rfl, set_other rfl, set_text hvalue]
  have hthissite : ∀ m, readLines (m, ascii "mail") (written config (.text .thissite)) =
      (restored config m .thissite, ascii "mail") := fun m =>
    readLines_mail h m "this_site" .thissite (by decide) fun value hvalue => by
      rw [mailSettings, set_text hvalue]
  rw [Conf.writeMail_eq, readLines_header (by decide) (by decide)]
  simp only [Conf.mailSettings, List.flatMap_cons, List.flatMap_nil, List.append_nil, readLines_append,
    hadminemail, hmailDir, hmta, hbinDir, hthissite]
  exact readLines_syncsites (fun site hsite => newline_notMem_value (h.syncsites site hsite)) _

omit h in
/-- The section `verification` says nothing to the mail program. -/
theorem readLines_writeVerification (s : MailConfig × List UInt8) :
    readLines s (Conf.writeVerification config) = (s.1, ascii "verification") := by
  have hentry : ∀ {key : List UInt8} (value : List UInt8),
      (key ≠ [] ∧ key.head? ≠ some '#'.toUInt8 ∧ key.head? ≠ some '['.toUInt8) →
        readLines (s.1, ascii "verification") [entry key value] = (s.1, ascii "verification") := by
    intro key value hkey
    show configLine (s.1, ascii "verification") (entry key value ++ ['\n'.toUInt8]) = _
    rw [configLine_begins (begins_entry value hkey), if_neg verification_ne.1, if_neg verification_ne.2]
  have hwritten : ∀ setting ∈ Conf.verificationSettings,
      readLines (s.1, ascii "verification") (written config setting) =
        (s.1, ascii "verification") := by
    intro setting hsetting
    simp only [Conf.verificationSettings, List.mem_cons, List.not_mem_nil, or_false] at hsetting
    rcases hsetting with rfl | rfl | rfl | rfl | rfl
    all_goals exact hentry _ (by decide)
  rw [Conf.writeVerification_eq, readLines_header (by decide) (by decide)]
  simp only [Conf.verificationSettings, List.forall_mem_cons] at hwritten
  simp only [Conf.verificationSettings, List.flatMap_cons, List.flatMap_nil, List.append_nil,
    readLines_append, hwritten]
  rfl

/-- The section `main`. -/
theorem readLines_writeMain (s : MailConfig × List UInt8) {backend : DbConfig}
    (hname : config.text .dbBackend = some backend.name) :
    readLines s (Conf.writeMain config backend) = (restored config s.1 .logfile, ascii "main") := by
  have hmain := fun m => readLines_main h m
  simp only [Conf.mainSettings, List.forall_mem_cons] at hmain
  rw [Conf.writeMain_eq hname, readLines_header (by decide) (by decide)]
  simp only [Conf.mainSettings, List.flatMap_cons, List.flatMap_nil, List.append_nil,
    List.append_assoc, readLines_append, hmain, Setting.text.injEq, reduceCtorEq, if_true, if_false]
  rfl

omit h in
/-- The sections of the backends say nothing to the mail program either. -/
theorem readLines_writeBackend (m : MailConfig) (backend : DbConfig) :
    readLines (m, ascii "mail") (Conf.writeBackend backend) = (m, ascii "mail") := by
  have hblank : readLines (m, ascii "mail") [[]] = (m, ascii "mail") := rfl
  have hheader : readLines (m, ascii "mail") [header (ascii "backend:" ++ backend.name)] =
      (m, ascii "mail") := by
    have hsection : matchSection (header (ascii "backend:" ++ backend.name) ++ ['\n'.toUInt8]) = none :=
      rfl
    have hnot : ¬ ((header (ascii "backend:" ++ backend.name) ++ ['\n'.toUInt8]).head? =
        some '#'.toUInt8 ∨
          emptyLine (header (ascii "backend:" ++ backend.name) ++ ['\n'.toUInt8]) = true) := by
      have hne : header (ascii "backend:" ++ backend.name) ≠ [] := List.cons_ne_nil _ _
      have hhead : (header (ascii "backend:" ++ backend.name) ++ ['\n'.toUInt8]).head? =
          some '['.toUInt8 := rfl
      rw [emptyLine_line hne, hhead]
      exact fun hor => hor.elim (absurd · (by decide)) (absurd · (by decide))
    show configLine (m, ascii "mail") (header (ascii "backend:" ++ backend.name) ++ ['\n'.toUInt8]) = _
    rw [configLine, if_neg hnot, hsection]
    dsimp only
    rw [if_neg main_ne_mail, if_pos rfl, mailSettings, set_other rfl, set_other rfl, set_other rfl,
      set_other rfl, set_other rfl, set_other rfl]
    rfl
  have hfield : ∀ field, readLines (m, ascii "mail") (writtenField backend field) =
      (m, ascii "mail") := by
    intro field
    have hkey : field.key ≠ [] ∧ field.key.head? ≠ some '#'.toUInt8 ∧
        field.key.head? ≠ some '['.toUInt8 := by
      cases field <;> decide
    unfold writtenField
    cases backend.fields field with
    | none => rfl
    | some value =>
      have hset : m.set (entry field.key value ++ ['\n'.toUInt8]) mailSettings = m := by
        cases field
        all_goals
          rw [mailSettings, set_other rfl, set_other rfl, set_other rfl, set_other rfl, set_other rfl,
            set_other rfl]
          rfl
      show configLine (m, ascii "mail") (entry field.key value ++ ['\n'.toUInt8]) = _
      rw [configLine_begins (begins_entry value hkey), if_neg main_ne_mail, if_pos rfl, hset]
  have hfields : ∀ fields : List Conf.DbField,
      readLines (m, ascii "mail") (fields.flatMap (writtenField backend)) = (m, ascii "mail") := by
    intro fields
    induction fields with
    | nil => rfl
    | cons field fields ih => rw [List.flatMap_cons, readLines_append, hfield, ih]
  rw [Conf.writeBackend_eq, readLines_append, ← List.singleton_append, readLines_append, hblank, hheader,
    hfields]

omit h in
theorem readLines_backends (m : MailConfig) (backends : List DbConfig) :
    readLines (m, ascii "mail") (backends.flatMap Conf.writeBackend) = (m, ascii "mail") := by
  induction backends with
  | nil => rfl
  | cons backend backends ih =>
    rw [List.flatMap_cons, readLines_append, readLines_writeBackend, ih]

/-- No line of the file has a line break in it. -/
theorem newline_notMem_written {backend : DbConfig}
    (hname : config.text .dbBackend = some backend.name) :
    ∀ l ∈ Conf.writeMain config backend ++ Conf.writeVerification config ++ Conf.writeMail config ++
      config.backends.flatMap Conf.writeBackend, '\n'.toUInt8 ∉ l := by
  have hwritten : ∀ (settings : List Setting), ∀ l ∈ settings.flatMap (written config),
      '\n'.toUInt8 ∉ l := by
    intro settings l hl
    obtain ⟨setting, -, hl⟩ := List.mem_flatMap.mp hl
    exact (Conf.lineOk_written h setting l hl).no_break
  have hblank : '\n'.toUInt8 ∉ ([] : List UInt8) := List.not_mem_nil
  intro l hl
  rw [Conf.writeMain_eq hname, Conf.writeVerification_eq, Conf.writeMail_eq] at hl
  simp only [List.mem_append, List.mem_cons, List.not_mem_nil, or_false] at hl
  rcases hl with (((rfl | hl | rfl) | rfl | hl | rfl) | rfl | hl) | hl
  · decide
  · exact hwritten _ l hl
  · exact hblank
  · decide
  · exact hwritten _ l hl
  · exact hblank
  · decide
  · exact hwritten _ l hl
  · obtain ⟨other, hother, hl⟩ := List.mem_flatMap.mp hl
    have hok := h.backends other hother
    rw [Conf.writeBackend_eq] at hl
    simp only [List.mem_append, List.mem_cons, List.not_mem_nil, or_false] at hl
    rcases hl with (rfl | rfl) | hl
    · exact hblank
    · exact hok.name.1.no_break
    · obtain ⟨field, -, hl⟩ := List.mem_flatMap.mp hl
      obtain ⟨value, hvalue, rfl⟩ := Option.map_eq_some_iff.mp (Option.mem_toList.mp hl)
      exact (hok.fields field value hvalue).no_break

/-- What the mail program reads from the file that is written. -/
theorem readconfig_written {backend : DbConfig} (hbackend : config.backend = some backend)
    (hname : config.text .dbBackend = some backend.name) {output : List UInt8}
    (hwrite : Conf.writeconfig config = some output) :
    readconfig output =
      ⟨mailValue config, config.syncsites.map (List.dropWhile isspace)⟩ := by
  rw [Conf.writeconfig, hbackend] at hwrite
  obtain rfl := Option.some.inj hwrite
  have hlines := lines_front (newline_notMem_written h hname) []
  rw [List.append_nil, Lines.lines, List.append_nil] at hlines
  have hread : readconfig (Lines.unlines '\n'.toUInt8 (Conf.writeMain config backend ++
      Conf.writeVerification config ++ Conf.writeMail config ++
        config.backends.flatMap Conf.writeBackend)) =
      { [MailSetting.adminemail, .mailDir, .mta, .pksBinDir, .thissite].foldl (restored config)
          (restored config ⟨fun _ => none, []⟩ .logfile) with
        syncsites := config.syncsites.map (List.dropWhile isspace) } := by
    rw [readconfig, Lines.unlines, hlines]
    show (readLines _ _).1 = _
    rw [readLines_append, readLines_append, readLines_append, readLines_writeMain h _ hname,
      readLines_writeVerification, readLines_writeMail h, readLines_backends]
    rfl
  have htext : ([MailSetting.adminemail, .mailDir, .mta, .pksBinDir, .thissite].foldl (restored config)
      (restored config ⟨fun _ => none, []⟩ .logfile)).text = mailValue config := by
    funext setting
    cases setting
    all_goals simp [restored]
  rw [hread]
  dsimp only
  rw [htext]

end

/-- **One file for both programs.** From the file that `writeconfig` writes of a configuration that
was read, `onak-mail.pl` reads the values that `onak` has, without the blanks in front of them, and
the sync sites in their order. -/
theorem mail_reads_written (files : List UInt8 → Option (List UInt8)) (haveCrypto : Bool)
    (text : List UInt8) {output : List UInt8}
    (hwrite : Conf.writeconfig (Conf.readconfig files haveCrypto ⟨Conf.fresh, []⟩ text).config =
      some output) :
    (∀ setting, (readconfig output).text setting =
      ((Conf.readconfig files haveCrypto ⟨Conf.fresh, []⟩ text).config.text (mailText setting)).map
        (List.dropWhile isspace)) ∧
      (readconfig output).syncsites =
        (Conf.readconfig files haveCrypto ⟨Conf.fresh, []⟩ text).config.syncsites.map
          (List.dropWhile isspace) := by
  obtain ⟨hsound, hfound⟩ := Conf.sound_readconfig files haveCrypto text
  revert hwrite hsound hfound
  generalize (Conf.readconfig files haveCrypto ⟨Conf.fresh, []⟩ text).config = config
  intro hwrite hsound hfound
  cases hbackend : config.backend with
  | none =>
    rw [Conf.writeconfig, hbackend] at hwrite
    cases hwrite
  | some backend =>
    rw [readconfig_written hsound hbackend (hfound backend hbackend).1 hwrite]
    exact ⟨fun _ => rfl, rfl⟩

/-- A file of a site with two peers. -/
def mailLines : List (List UInt8) :=
  [ascii "[main]", ascii "backend=files", ascii "[mail]", ascii "this_site=keys@one.example",
    ascii "syncsite=keys@two.example", ascii "syncsite=keys@three.example",
    ascii "[backend:files]", ascii "type=fs", ascii "location=/var/lib/onak"]

/-- `onak` has the peers the other way round, and the mail program gets them as `onak` has them. -/
theorem mail_reads_written_sample :
    ∃ output,
      Conf.writeconfig (Conf.readconfig (fun _ => none) true ⟨Conf.fresh, []⟩
        (Lines.unlines '\n'.toUInt8 mailLines)).config = some output ∧
      (readconfig output).text .thissite = some (ascii "keys@one.example") ∧
      (readconfig output).syncsites = [ascii "keys@three.example", ascii "keys@two.example"] := by
  have hall : mailLines.all (fun line => line.all Conf.isInner && line.length ≤ 1022) = true := by
    decide
  have hlines : ∀ line ∈ mailLines, LineOk line := by
    intro line hline
    have hline := List.all_eq_true.mp hall line hline
    rw [Bool.and_eq_true] at hline
    exact LineOk.of_all hline.1 (of_decide_eq_true hline.2)
  have hne : Lines.unlines '\n'.toUInt8 mailLines ≠ [] := List.cons_ne_nil _ _
  have hwritten : ∃ output, Conf.writeconfig (Conf.readconfig (fun _ => none) true ⟨Conf.fresh, []⟩
      (Lines.unlines '\n'.toUInt8 mailLines)).config = some output := by
    rw [Conf.readconfig, if_neg hne, Conf.readconfig_unlines hlines]
    exact ⟨_, rfl⟩
  obtain ⟨output, houtput⟩ := hwritten
  obtain ⟨htext, hsites⟩ := mail_reads_written (fun _ => none) true
    (Lines.unlines '\n'.toUInt8 mailLines) houtput
  refine ⟨output, houtput, ?_, ?_⟩
  · rw [htext, Conf.readconfig, if_neg hne, Conf.readconfig_unlines hlines]
    rfl
  · rw [hsites, Conf.readconfig, if_neg hne, Conf.readconfig_unlines hlines]
    rfl

end Onak.Mail
