import Onak.Proofs.ConfigProofs

/-!
# Saving and loading the configuration

Each line that `writeconfig` writes is read back as the setting it was written for, so what a fresh
configuration becomes can be said setting by setting. Four of the policies and the blacklist are not
written at all, the sync sites and the backends come back in reverse, and a backend without any field
does not come back.
-/

namespace Onak.Conf

open Print

section

variable {files : List UInt8 → Option (List UInt8)} {haveCrypto : Bool}

/-! ## Reading single lines -/

/-- A name that stands in front of an equals sign. -/
def KeyOk (key : List UInt8) : Prop :=
  key ≠ [] ∧ '='.toUInt8 ∉ key ∧ key.all isInner = true ∧ key.length ≤ 32 ∧
    key.getD 0 0 ≠ '#'.toUInt8 ∧ key.getD 0 0 ≠ ';'.toUInt8 ∧ key.getD 0 0 ≠ '['.toUInt8

instance (key : List UInt8) : Decidable (KeyOk key) :=
  inferInstanceAs (Decidable (key ≠ [] ∧ _ ∧ _ ∧ _ ∧ _ ∧ _ ∧ _))

/-- What holds of all settings that are parsed holds of every setting. -/
theorem forall_setting {motive : Setting → Prop} (h : ∀ setting ∈ settings, motive setting)
    (setting : Setting) : motive setting := by
  refine h setting ?_
  rcases setting with s | s | _ | _ | _ | _ | p
  · cases s <;> decide
  · cases s <;> decide
  · decide
  · decide
  · decide
  · decide
  · cases p <;> decide

theorem keyOk_setting : ∀ setting : Setting, KeyOk setting.key.2 :=
  forall_setting (by decide)

theorem keyOk_field (field : DbField) : KeyOk field.key := by
  cases field <;> decide

theorem readLine_entry {key value : List UInt8} (hkey : KeyOk key) (hline : LineOk (entry key value))
    (s : ParseState) :
    readLine files haveCrypto s (entry key value) = (parseValue files haveCrypto s key value).2 := by
  obtain ⟨hne, hequals, -, -, hhash, hsemicolon, hbracket⟩ := hkey
  have hfirst : (entry key value).getD 0 0 = key.getD 0 0 := by
    cases key with
    | nil => exact absurd rfl hne
    | cons c key => rfl
  have hnil : entry key value ≠ [] := by
    unfold entry
    simp [ascii]
  have hcontains : (entry key value).contains '='.toUInt8 = true := by
    refine List.contains_iff_mem.mpr ?_
    unfold entry
    simp [ascii]
  have hname : ∀ c ∈ key, decide (c ≠ '='.toUInt8) = true :=
    fun c hc => decide_eq_true fun hc' => hequals (hc' ▸ hc)
  have htake : (entry key value).takeWhile (· ≠ '='.toUInt8) = key := by
    unfold entry
    rw [List.append_assoc, List.takeWhile_append_of_pos hname]
    exact List.append_nil key
  have hdrop : ((entry key value).dropWhile (· ≠ '='.toUInt8)).drop 1 = value := by
    unfold entry
    rw [List.append_assoc, List.dropWhile_append_of_pos hname]
    rfl
  unfold readLine parseconfigline
  rw [strip_of_lineOk hline, hfirst, if_neg (not_or.mpr ⟨hhash, not_or.mpr ⟨hsemicolon, hnil⟩⟩),
    if_neg hbracket, if_pos hcontains, htake, hdrop]

theorem matchSetting_key : ∀ setting : Setting,
    matchSetting setting.key.1 setting.key.2 = some setting :=
  forall_setting (by decide)

theorem not_backend_section : ∀ setting : Setting,
    (ascii "backend:").isPrefixOf setting.key.1 = false :=
  forall_setting (by decide)

theorem readLine_setting (setting : Setting) {value : List UInt8}
    (hline : LineOk (entry setting.key.2 value)) (config : Config) :
    readLine files haveCrypto ⟨config, setting.key.1⟩ (entry setting.key.2 value) =
      ⟨setting.set files haveCrypto config value, setting.key.1⟩ := by
  have hnot : ¬ (ascii "backend:").isPrefixOf setting.key.1 = true :=
    Bool.eq_false_iff.mp (not_backend_section setting)
  rw [readLine_entry (keyOk_setting setting) hline, parseValue, if_neg hnot]
  simp only [matchSetting_key]

theorem readLine_header {secname : List UInt8} (h : HeaderOk secname) (s : ParseState) :
    readLine files haveCrypto s (header secname) = { s with secname := secname } := by
  have hlast : (header secname).getLast? = some ']'.toUInt8 := by
    unfold header
    rw [List.getLast?_append]
    rfl
  have hinner : ((header secname).drop 1).dropLast = secname := by
    show (secname ++ [']'.toUInt8]).dropLast = secname
    rw [List.dropLast_concat]
  have hcomment : ¬ ((header secname).getD 0 0 = '#'.toUInt8 ∨
      (header secname).getD 0 0 = ';'.toUInt8 ∨ header secname = []) := by
    show ¬ ('['.toUInt8 = '#'.toUInt8 ∨ '['.toUInt8 = ';'.toUInt8 ∨ header secname = [])
    rintro (h | h | h)
    · exact absurd h (by decide)
    · exact absurd h (by decide)
    · exact absurd h (List.cons_ne_nil _ _)
  have hopen : (header secname).getD 0 0 = '['.toUInt8 := rfl
  unfold readLine parseconfigline
  rw [strip_of_lineOk h.1, if_neg hcomment, if_pos hopen, parseHeader, if_neg (not_not.mpr hlast),
    if_neg (not_lt.mpr h.2), hinner]

theorem readLine_nil (s : ParseState) : readLine files haveCrypto s [] = s := rfl

/-! ## Values that are read back -/

theorem isdigit_of_mem_decimal {n : Nat} {c : UInt8} (h : c ∈ decimal n) : isdigit c = true := by
  obtain ⟨hlow, hhigh⟩ := isDigit_of_mem_decimal h
  exact decide_eq_true ⟨UInt8.le_iff_toNat_le.mpr hlow, UInt8.le_iff_toNat_le.mpr hhigh⟩

theorem not_isspace_of_isdigit {c : UInt8} (h : isdigit c = true) : isspace c = false := by
  obtain ⟨hlow, hhigh⟩ := of_decide_eq_true h
  have hlow : 48 ≤ c.toNat := UInt8.le_iff_toNat_le.mp hlow
  refine decide_eq_false ?_
  rintro (rfl | ⟨-, hle⟩)
  · exact absurd hlow (by decide)
  · have hle : c.toNat ≤ 13 := UInt8.le_iff_toNat_le.mp hle
    omega

theorem atoi_int {i : Int} (h : IsInt i) : atoi (int i) = i := by
  obtain ⟨hlow, hhigh⟩ := h
  have hbmod : i.bmod (2 ^ 32) = i := Int.bmod_eq_of_le (by omega) (by omega)
  have htake : (decimal i.natAbs).takeWhile isdigit = decimal i.natAbs :=
    List.takeWhile_eq_self_iff.mpr fun c hc => isdigit_of_mem_decimal hc
  obtain ⟨d, ds, hds⟩ := List.exists_cons_of_ne_nil (decimal_ne_nil i.natAbs)
  have hd : isdigit d = true := isdigit_of_mem_decimal (by rw [hds]; simp)
  have hsign : d ≠ '-'.toUInt8 ∧ d ≠ '+'.toUInt8 := by
    constructor
    · rintro rfl
      exact absurd hd (by decide)
    · rintro rfl
      exact absurd hd (by decide)
  unfold atoi int
  split_ifs with hneg
  · have hspace : ('-'.toUInt8 :: decimal i.natAbs).dropWhile isspace =
        '-'.toUInt8 :: decimal i.natAbs := rfl
    have hmax : max (-((i.natAbs : Nat) : Int)) (-2 ^ 63) = i := by omega
    simp only [hspace, List.getD_cons_zero, true_or, if_true, List.drop_one, List.tail_cons, htake,
      foldl_decimal, hmax, hbmod]
  · have hspace : (decimal i.natAbs).dropWhile isspace = decimal i.natAbs := by
      rw [hds, List.dropWhile_cons, not_isspace_of_isdigit hd, if_neg Bool.false_ne_true]
    have hfirst : (decimal i.natAbs).getD 0 0 = d := by rw [hds, List.getD_cons_zero]
    have hmin : min ((i.natAbs : Nat) : Int) (2 ^ 63 - 1) = i := by omega
    simp only [hspace, hfirst, hsign.1, hsign.2, or_self, if_false, htake, foldl_decimal, hmin,
      hbmod]

/-- How a Boolean is written. -/
def boolText (b : Bool) : List UInt8 := if b then ascii "true" else ascii "false"

theorem parsebool_boolText (b fallback : Bool) : parsebool (boolText b) fallback = b := by
  cases b <;> rfl

/-- A value without white space, of some length, makes a line of any name. -/
theorem lineOk_entry {key value : List UInt8} (hkey : KeyOk key) (hvalue : value.all isInner = true)
    (hlength : value.length ≤ 64) : LineOk (entry key value) := by
  obtain ⟨-, -, hinner, hkeylength, -⟩ := hkey
  refine LineOk.of_all ?_ ?_
  · unfold entry
    rw [List.all_append, List.all_append, hinner, hvalue]
    rfl
  · have hequals : (ascii "=").length = 1 := rfl
    unfold entry
    rw [List.length_append, List.length_append, hequals]
    omega

theorem lineOk_int {key : List UInt8} (hkey : KeyOk key) {i : Int} (h : IsInt i) :
    LineOk (entry key (int i)) := by
  obtain ⟨hlow, hhigh⟩ := h
  have hdigits : (decimal i.natAbs).all isInner = true := by
    refine List.all_eq_true.mpr fun c hc => ?_
    have hdigit := isdigit_of_mem_decimal hc
    have hzero : c ≠ 0 := by
      rintro rfl
      exact absurd hdigit (by decide)
    simp only [isInner, not_isspace_of_isdigit hdigit, Bool.not_false, Bool.true_and,
      decide_eq_true hzero]
  have hlength : (decimal i.natAbs).length ≤ 10 := by
    rw [decimal, List.length_map]
    exact Nat.toDigits_length 10 i.natAbs 10 (by decide) (by omega)
  unfold int
  split_ifs
  · refine lineOk_entry hkey ?_ ?_
    · rw [List.all_cons, hdigits]
      rfl
    · rw [List.length_cons]
      omega
  · exact lineOk_entry hkey hdigits (hlength.trans (by decide))

theorem lineOk_bool {key : List UInt8} (hkey : KeyOk key) (b : Bool) :
    LineOk (entry key (boolText b)) := by
  cases b <;> exact lineOk_entry hkey (by decide) (by decide)

/-! ## Settings that are read back -/

/-- The lines that are written for a setting. -/
def written (config : Config) : Setting → List (List UInt8)
  | .text s => ((config.text s).map (entry (Setting.text s).key.2)).toList
  | .number s => [entry (Setting.number s).key.2 (int (config.number s))]
  | .useKeyd => [entry Setting.useKeyd.key.2 (boolText config.useKeyd)]
  | .syncsite => config.syncsites.map (entry Setting.syncsite.key.2)
  | .policy p => [entry (Setting.policy p).key.2 (boolText (config.cleanPolicies p))]
  | .blacklist | .dropV3 => []

/-- What another configuration becomes when these lines are read. -/
def restore (config : Config) (d : Config) : Setting → Config
  | .text s => { d with text := Function.update d.text s ((config.text s).or (d.text s)) }
  | .number s => { d with number := Function.update d.number s (config.number s) }
  | .useKeyd => { d with useKeyd := config.useKeyd }
  | .syncsite => { d with syncsites := config.syncsites.reverse ++ d.syncsites }
  | .policy p =>
    { d with cleanPolicies := Function.update d.cleanPolicies p (config.cleanPolicies p) }
  | .blacklist | .dropV3 => d

/-- A setting that does not need crypto support. -/
def NoCrypto (setting : Setting) : Prop :=
  setting ≠ .policy .needOtherSig ∧ setting ≠ .policy .verifySignatures

theorem lineOk_written {config : Config} (h : Sound config) (setting : Setting) :
    ∀ line ∈ written config setting, LineOk line := by
  intro line hline
  have hkey := keyOk_setting setting
  cases setting with
  | text s =>
    obtain ⟨value, hvalue, rfl⟩ := Option.map_eq_some_iff.mp (Option.mem_toList.mp hline)
    exact h.text s value hvalue
  | number s =>
    obtain rfl := List.mem_singleton.mp hline
    exact lineOk_int hkey (h.number s)
  | useKeyd =>
    obtain rfl := List.mem_singleton.mp hline
    exact lineOk_bool hkey _
  | syncsite =>
    obtain ⟨site, hsite, rfl⟩ := List.mem_map.mp hline
    exact h.syncsites site hsite
  | policy p =>
    obtain rfl := List.mem_singleton.mp hline
    exact lineOk_bool hkey _
  | blacklist => exact absurd hline List.not_mem_nil
  | dropV3 => exact absurd hline List.not_mem_nil

theorem foldl_syncsites {sites : List (List UInt8)}
    (h : ∀ site ∈ sites, LineOk (entry Setting.syncsite.key.2 site)) (d : Config) :
    (sites.map (entry Setting.syncsite.key.2)).foldl (readLine files haveCrypto)
        ⟨d, Setting.syncsite.key.1⟩ =
      ⟨{ d with syncsites := sites.reverse ++ d.syncsites }, Setting.syncsite.key.1⟩ := by
  induction sites generalizing d with
  | nil => rfl
  | cons site sites ih =>
    have hsites := fun site hsite => h site (List.mem_cons_of_mem _ hsite)
    rw [List.map_cons, List.foldl_cons, readLine_setting .syncsite (h site (by simp)), ih hsites,
      List.reverse_cons, List.append_assoc]
    rfl

/-- The lines of a setting restore it. -/
theorem foldl_written {config : Config} (h : Sound config) {setting : Setting}
    (hsetting : NoCrypto setting) (d : Config) :
    (written config setting).foldl (readLine files haveCrypto) ⟨d, setting.key.1⟩ =
      ⟨restore config d setting, setting.key.1⟩ := by
  have hlines := lineOk_written h setting
  cases setting with
  | text s =>
    rw [written] at hlines ⊢
    rw [restore]
    cases hvalue : config.text s with
    | none =>
      rw [Option.none_or, Function.update_eq_self]
      rfl
    | some value =>
      rw [hvalue] at hlines
      exact readLine_setting (.text s) (hlines _ (by simp)) d
  | number s =>
    refine (readLine_setting (.number s) (hlines _ (by simp [written])) d).trans ?_
    rw [Setting.set, atoi_int (h.number s)]
    rfl
  | useKeyd =>
    refine (readLine_setting .useKeyd (hlines _ (by simp [written])) d).trans ?_
    rw [Setting.set, parsebool_boolText]
    rfl
  | syncsite => exact foldl_syncsites h.syncsites d
  | policy p =>
    have hcrypto : ¬ ((p = .needOtherSig ∨ p = .verifySignatures) ∧ (!haveCrypto) = true) := by
      rintro ⟨rfl | rfl, -⟩
      · exact hsetting.1 rfl
      · exact hsetting.2 rfl
    refine (readLine_setting (.policy p) (hlines _ (by simp [written])) d).trans ?_
    rw [Setting.set, if_neg hcrypto, parsebool_boolText]
    rfl
  | blacklist => rfl
  | dropV3 => rfl

/-- The lines of a section restore its settings one after another. -/
theorem foldl_section {config : Config} (h : Sound config) {secname : List UInt8}
    {list : List Setting} (hlist : ∀ setting ∈ list, setting.key.1 = secname ∧ NoCrypto setting)
    (d : Config) :
    (list.flatMap (written config)).foldl (readLine files haveCrypto) ⟨d, secname⟩ =
      ⟨list.foldl (restore config) d, secname⟩ := by
  induction list generalizing d with
  | nil => rfl
  | cons setting list ih =>
    obtain ⟨hsec, hcrypto⟩ := hlist setting (by simp)
    have ih := ih fun setting hsetting => hlist setting (List.mem_cons_of_mem _ hsetting)
    subst hsec
    rw [List.flatMap_cons, List.foldl_append, foldl_written h hcrypto, ih, List.foldl_cons]

/-! ## Backends that are read back -/

/-- A backend with some field, in front of others. -/
def withBackend (name : List UInt8) (fields : DbField → Option (List UInt8))
    (backends : List DbConfig) : List DbConfig :=
  if dbFields.any fun field => (fields field).isSome then ⟨name, fields⟩ :: backends else backends

theorem mem_dbFields (field : DbField) : field ∈ dbFields := by
  cases field <;> decide

theorem any_isSome {fields : DbField → Option (List UInt8)} :
    (dbFields.any fun field => (fields field).isSome) = true ↔ ∃ field, fields field ≠ none := by
  rw [List.any_eq_true]
  constructor
  · rintro ⟨field, -, hfield⟩
    exact ⟨field, Option.isSome_iff_ne_none.mp hfield⟩
  · rintro ⟨field, hfield⟩
    exact ⟨field, mem_dbFields field, Option.isSome_iff_ne_none.mpr hfield⟩

theorem find_field_key (field : DbField) :
    (dbFields.find? fun found => found.key == field.key) = some field := by
  cases field <;> rfl

theorem setField_key (field : DbField) (value : List UInt8) (backend : DbConfig) :
    setField field.key value backend =
      { backend with fields := Function.update backend.fields field (some value) } := by
  unfold setField
  rw [find_field_key]

/-- A line of a backend that stands in front, or is not there yet. -/
theorem parseBackendLine_withBackend {name : List UInt8} {backends : List DbConfig}
    (hname : name ∉ backends.map DbConfig.name) (fields : DbField → Option (List UInt8))
    (field : DbField) (value : List UInt8) :
    parseBackendLine (withBackend name fields backends) name field.key value =
      withBackend name (Function.update fields field (some value)) backends := by
  have hsome : (dbFields.any fun f => (Function.update fields field (some value) f).isSome) = true :=
    any_isSome.mpr ⟨field, by rw [Function.update_self]; exact Option.some_ne_none value⟩
  unfold parseBackendLine withBackend
  rw [if_pos hsome]
  by_cases hany : (dbFields.any fun field => (fields field).isSome) = true
  · have hfind : findDbBackendConfig (⟨name, fields⟩ :: backends) name = some ⟨name, fields⟩ := by
      simp [findDbBackendConfig]
    rw [if_pos hany, hfind]
    simp only [updateBackend, if_true, setField_key]
  · have hnone : fields = fun _ => none := by
      funext field
      by_contra hfield
      exact hany (any_isSome.mpr ⟨field, hfield⟩)
    rw [if_neg hany, findDbBackendConfig_eq_none.mpr hname]
    simp only [setField_key, hnone]

/-- The lines that are written for a field. -/
def writtenField (backend : DbConfig) (field : DbField) : List (List UInt8) :=
  ((backend.fields field).map (entry field.key)).toList

/-- What the fields of a backend become when these lines are read. -/
def restoreField (backend : DbConfig) (fields : DbField → Option (List UInt8)) (field : DbField) :
    DbField → Option (List UInt8) :=
  Function.update fields field ((backend.fields field).or (fields field))

theorem readLine_field {name value : List UInt8} {field : DbField}
    (hline : LineOk (entry field.key value)) (d : Config) :
    readLine files haveCrypto ⟨d, ascii "backend:" ++ name⟩ (entry field.key value) =
      ⟨{ d with backends := parseBackendLine d.backends name field.key value },
        ascii "backend:" ++ name⟩ := by
  have hsec : (ascii "backend:").isPrefixOf (ascii "backend:" ++ name) = true :=
    List.isPrefixOf_iff_prefix.mpr (List.prefix_append _ _)
  have hname : (ascii "backend:" ++ name).drop 8 = name := rfl
  rw [readLine_entry (keyOk_field field) hline, parseValue, if_pos hsec]
  simp only [hname]

theorem foldl_writtenField {backend : DbConfig} (h : BackendOk backend) {d : Config}
    (hname : backend.name ∉ d.backends.map DbConfig.name) (list : List DbField)
    (fields : DbField → Option (List UInt8)) :
    (list.flatMap (writtenField backend)).foldl (readLine files haveCrypto)
        ⟨{ d with backends := withBackend backend.name fields d.backends },
          ascii "backend:" ++ backend.name⟩ =
      ⟨{ d with
          backends :=
            withBackend backend.name (list.foldl (restoreField backend) fields) d.backends },
        ascii "backend:" ++ backend.name⟩ := by
  induction list generalizing fields with
  | nil => rfl
  | cons field list ih =>
    rw [List.flatMap_cons, List.foldl_append, List.foldl_cons, ← ih]
    congr 1
    unfold writtenField restoreField
    cases hvalue : backend.fields field with
    | none =>
      rw [Option.none_or, Function.update_eq_self]
      rfl
    | some value =>
      have hline := @readLine_field files haveCrypto backend.name value field
        (h.fields field value hvalue)
        { d with backends := withBackend backend.name fields d.backends }
      rw [parseBackendLine_withBackend hname] at hline
      exact hline

theorem foldl_restoreField (backend : DbConfig) :
    dbFields.foldl (restoreField backend) (fun _ => none) = backend.fields := by
  funext field
  cases field <;> simp [dbFields, restoreField, Function.update]

theorem writeBackend_eq (backend : DbConfig) :
    writeBackend backend = [[], header (ascii "backend:" ++ backend.name)] ++
      dbFields.flatMap (writtenField backend) := by
  have hheader : header (ascii "backend:" ++ backend.name) =
      ascii "[backend:" ++ backend.name ++ ascii "]" := by
    unfold header
    rw [← List.append_assoc]
    rfl
  rw [hheader]
  simp only [writeBackend, dbFields, List.flatMap_cons, List.flatMap_nil, List.append_nil,
    List.append_assoc]
  rfl

/-- A backend is put in front if it has some field. -/
def restoreBackend (backends : List DbConfig) (backend : DbConfig) : List DbConfig :=
  withBackend backend.name backend.fields backends

theorem foldl_writeBackend {backend : DbConfig} (h : BackendOk backend) {d : Config}
    (hname : backend.name ∉ d.backends.map DbConfig.name) (secname : List UInt8) :
    (writeBackend backend).foldl (readLine files haveCrypto) ⟨d, secname⟩ =
      ⟨{ d with backends := restoreBackend d.backends backend }, ascii "backend:" ++ backend.name⟩ := by
  have hfields := @foldl_writtenField files haveCrypto backend h d hname dbFields fun _ => none
  rw [foldl_restoreField] at hfields
  rw [writeBackend_eq, List.foldl_append, List.foldl_cons, List.foldl_cons, List.foldl_nil,
    readLine_nil, readLine_header h.name]
  exact hfields

/-- The backends that come back. -/
def restoredBackends (backends : List DbConfig) : List DbConfig :=
  (backends.filter fun backend => dbFields.any fun field => (backend.fields field).isSome).reverse

theorem foldl_restoreBackend (backends rest : List DbConfig) :
    backends.foldl restoreBackend rest = restoredBackends backends ++ rest := by
  induction backends generalizing rest with
  | nil => rfl
  | cons backend backends ih =>
    rw [List.foldl_cons, ih]
    unfold restoreBackend withBackend restoredBackends
    rw [List.filter_cons]
    split_ifs
    · rw [List.reverse_cons, List.append_assoc]
      rfl
    · rfl

theorem mem_restoreBackend {backends : List DbConfig} {backend other : DbConfig}
    (h : other ∈ restoreBackend backends backend) : other = backend ∨ other ∈ backends := by
  unfold restoreBackend withBackend at h
  split_ifs at h
  · exact List.mem_cons.mp h
  · exact .inr h

theorem foldl_backends {backends : List DbConfig} (h : ∀ backend ∈ backends, BackendOk backend)
    (hnames : (backends.map DbConfig.name).Nodup) {d : Config}
    (hd : ∀ name ∈ backends.map DbConfig.name, name ∉ d.backends.map DbConfig.name)
    (secname : List UInt8) :
    ((backends.flatMap writeBackend).foldl (readLine files haveCrypto) ⟨d, secname⟩).config =
      { d with backends := backends.foldl restoreBackend d.backends } := by
  induction backends generalizing d secname with
  | nil => rfl
  | cons backend backends ih =>
    rw [List.map_cons, List.nodup_cons] at hnames
    have hbackend := h backend (by simp)
    have hname : backend.name ∉ d.backends.map DbConfig.name := hd backend.name (by simp)
    rw [List.flatMap_cons, List.foldl_append, foldl_writeBackend hbackend hname, ih]
    · rfl
    · exact fun backend hbackend => h backend (List.mem_cons_of_mem _ hbackend)
    · exact hnames.2
    · intro name hmem hmem'
      obtain ⟨other, hother, rfl⟩ := List.mem_map.mp hmem'
      rcases mem_restoreBackend hother with rfl | hother
      · exact hnames.1 hmem
      · exact hd other.name (List.mem_cons_of_mem _ hmem) (List.mem_map_of_mem hother)

end

/-! ## The whole file -/

/-- The settings of each section, in the order in which they are written. -/
def mainSettings : List Setting :=
  [.text .dbBackend, .text .backendsDir, .text .templateDir, .text .logfile, .number .loglevel,
    .useKeyd, .text .sockDir, .number .maxkeys, .text .serverContact]

@[inherit_doc mainSettings]
def verificationSettings : List Setting :=
  [.policy .checkSighash, .policy .capUids, .policy .capUats, .number .maxSigsPerUid,
    .number .maxSigsPerUat]

@[inherit_doc mainSettings]
def mailSettings : List Setting :=
  [.text .adminemail, .text .mailDir, .text .mta, .text .binDir, .text .thissite, .syncsite]

theorem writeMain_eq {config : Config} {backend : DbConfig}
    (h : config.text .dbBackend = some backend.name) :
    writeMain config backend =
      header (ascii "main") :: (mainSettings.flatMap (written config) ++ [[]]) := by
  simp only [writeMain, mainSettings, List.flatMap_cons, List.flatMap_nil, List.append_nil,
    List.append_assoc, written, h]
  rfl

theorem writeVerification_eq (config : Config) :
    writeVerification config =
      header (ascii "verification") :: (verificationSettings.flatMap (written config) ++ [[]]) := by
  simp only [writeVerification, verificationSettings, List.flatMap_cons, List.flatMap_nil,
    List.append_nil, List.append_assoc, written]
  rfl

theorem writeMail_eq (config : Config) :
    writeMail config = header (ascii "mail") :: mailSettings.flatMap (written config) := by
  simp only [writeMail, mailSettings, List.flatMap_cons, List.flatMap_nil, List.append_nil,
    List.append_assoc, written]
  rfl

/-- The policies that are written. -/
def writtenPolicy : CleanPolicy → Bool
  | .checkSighash | .capUids | .capUats => true
  | _ => false

/-- What a fresh configuration becomes from the first three sections. -/
def restoredSettings (config : Config) : Config where
  text := config.text
  number := config.number
  useKeyd := config.useKeyd
  syncsites := config.syncsites.reverse
  backends := []
  backend := none
  blacklist := []
  cleanPolicies p := writtenPolicy p && config.cleanPolicies p

theorem foldl_restore (config : Config) :
    mailSettings.foldl (restore config) (verificationSettings.foldl (restore config)
      (mainSettings.foldl (restore config) fresh)) = restoredSettings config := by
  ext1
  · funext s
    cases s <;> simp [mailSettings, verificationSettings, mainSettings, restore, Function.update,
      restoredSettings, fresh]
  · funext s
    cases s <;> rfl
  · rfl
  · exact List.append_nil _
  · rfl
  · rfl
  · rfl
  · funext p
    cases p <;> rfl

/-- The configuration that comes back. -/
def reloaded (config : Config) : Config :=
  { restoredSettings config with
    backends := restoredBackends config.backends
    backend :=
      (config.text .dbBackend).bind (findDbBackendConfig (restoredBackends config.backends)) }

section

variable {files : List UInt8 → Option (List UInt8)} {haveCrypto : Bool} {config : Config}

theorem headerOk_of_all {secname : List UInt8} (h : secname.all isInner = true)
    (hlength : secname.length ≤ 30) : HeaderOk secname := by
  have hlength' : (header secname).length = secname.length + 2 := by
    unfold header
    rw [List.length_append, List.length_append]
    show 1 + secname.length + 1 = _
    omega
  refine ⟨LineOk.of_all ?_ (by omega), by omega⟩
  unfold header
  rw [List.all_append, List.all_append, h]
  rfl

theorem headerOk_main : HeaderOk (ascii "main") := headerOk_of_all (by decide) (by decide)

theorem headerOk_verification : HeaderOk (ascii "verification") :=
  headerOk_of_all (by decide) (by decide)

theorem headerOk_mail : HeaderOk (ascii "mail") := headerOk_of_all (by decide) (by decide)

/-- A section with its header. -/
theorem foldl_headed (h : Sound config) {secname : List UInt8} (hsecname : HeaderOk secname)
    {list : List Setting} (hlist : ∀ setting ∈ list, setting.key.1 = secname ∧ NoCrypto setting)
    (s : ParseState) :
    (header secname :: list.flatMap (written config)).foldl (readLine files haveCrypto) s =
      ⟨list.foldl (restore config) s.config, secname⟩ := by
  rw [List.foldl_cons, readLine_header hsecname]
  exact foldl_section h hlist s.config

theorem foldl_blank (lines : List (List UInt8)) (s : ParseState) :
    (lines ++ [[]]).foldl (readLine files haveCrypto) s =
      lines.foldl (readLine files haveCrypto) s := by
  rw [List.foldl_append, List.foldl_cons, readLine_nil, List.foldl_nil]

theorem foldl_lines (h : Sound config) {backend : DbConfig}
    (hbackend : config.text .dbBackend = some backend.name) (s : ParseState)
    (hs : s.config = fresh) :
    ((writeMain config backend ++ writeVerification config ++ writeMail config ++
        config.backends.flatMap writeBackend).foldl (readLine files haveCrypto) s).config =
      { restoredSettings config with backends := restoredBackends config.backends } := by
  have hmain : ∀ setting ∈ mainSettings, setting.key.1 = ascii "main" ∧ NoCrypto setting := by
    unfold NoCrypto
    decide
  have hverification : ∀ setting ∈ verificationSettings,
      setting.key.1 = ascii "verification" ∧ NoCrypto setting := by
    unfold NoCrypto
    decide
  have hmail : ∀ setting ∈ mailSettings, setting.key.1 = ascii "mail" ∧ NoCrypto setting := by
    unfold NoCrypto
    decide
  rw [writeMain_eq hbackend, writeVerification_eq, writeMail_eq, ← List.cons_append,
    ← List.cons_append, List.foldl_append, List.foldl_append, List.foldl_append, foldl_blank,
    foldl_blank, foldl_headed h headerOk_main hmain, foldl_headed h headerOk_verification hverification,
    foldl_headed h headerOk_mail hmail, hs, foldl_restore,
    foldl_backends h.backends h.names (fun _ _ => List.not_mem_nil), foldl_restoreBackend]
  exact congrArg (fun backends => { restoredSettings config with backends := backends })
    (List.append_nil _)

/-- Every line that is written is a line as it is read. -/
theorem lineOk_lines (h : Sound config) {backend : DbConfig}
    (hbackend : config.text .dbBackend = some backend.name) :
    ∀ line ∈ writeMain config backend ++ writeVerification config ++ writeMail config ++
      config.backends.flatMap writeBackend, LineOk line := by
  have hnil : LineOk [] := LineOk.of_all rfl (by decide)
  have hsettings : ∀ (list : List Setting), ∀ line ∈ list.flatMap (written config), LineOk line := by
    intro list line hline
    obtain ⟨setting, -, hline⟩ := List.mem_flatMap.mp hline
    exact lineOk_written h setting line hline
  rw [writeMain_eq hbackend, writeVerification_eq, writeMail_eq]
  intro line hline
  simp only [List.mem_append, List.mem_cons, List.not_mem_nil, or_false] at hline
  rcases hline with ((hline | hline) | hline) | hline
  · rcases hline with rfl | hline | rfl
    · exact headerOk_main.1
    · exact hsettings _ line hline
    · exact hnil
  · rcases hline with rfl | hline | rfl
    · exact headerOk_verification.1
    · exact hsettings _ line hline
    · exact hnil
  · rcases hline with rfl | hline
    · exact headerOk_mail.1
    · exact hsettings _ line hline
  · obtain ⟨other, hother, hline⟩ := List.mem_flatMap.mp hline
    have hok := h.backends other hother
    rw [writeBackend_eq] at hline
    simp only [List.mem_append, List.mem_cons, List.not_mem_nil, or_false] at hline
    rcases hline with (rfl | rfl) | hline
    · exact hnil
    · exact hok.name.1
    · obtain ⟨field, -, hline⟩ := List.mem_flatMap.mp hline
      obtain ⟨value, hvalue, rfl⟩ := Option.map_eq_some_iff.mp (Option.mem_toList.mp hline)
      exact hok.fields field value hvalue

theorem readconfig_unlines {lines : List (List UInt8)} (hlines : ∀ line ∈ lines, LineOk line)
    (s : ParseState) :
    (Lines.chunks '\n'.toUInt8 1021 (Lines.unlines '\n'.toUInt8 lines)).foldl
      (readLine files haveCrypto) s = lines.foldl (readLine files haveCrypto) s := by
  refine Lines.foldl_chunks (fun s => rfl) (fun line hline => ?_) s
  have hok := hlines line hline
  refine ⟨hok.no_break, hok.length_le, fun s => ?_⟩
  unfold readLine
  rw [strip_break hok.no_nul]

/-- What a fresh configuration becomes from the file that is written. -/
theorem readconfig_writeconfig (h : Sound config) (hfound : BackendFound config)
    {backend : DbConfig} (hbackend : config.backend = some backend) (secname : List UInt8) :
    ∃ output, writeconfig config = some output ∧
      (readconfig files haveCrypto ⟨fresh, secname⟩ output).config = reloaded config := by
  have hname := (hfound backend hbackend).1
  have hlines := lineOk_lines h hname
  refine ⟨_, by rw [writeconfig, hbackend]; rfl, ?_⟩
  have hne : Lines.unlines '\n'.toUInt8 (writeMain config backend ++ writeVerification config ++
      writeMail config ++ config.backends.flatMap writeBackend) ≠ [] := List.cons_ne_nil _ _
  have hconfig := @foldl_lines files haveCrypto config h backend hname ⟨fresh, secname⟩ rfl
  rw [readconfig, if_neg hne, readconfig_unlines hlines]
  revert hconfig
  generalize List.foldl _ _ _ = s
  intro hconfig
  have htext : s.config.text .dbBackend = some backend.name := by
    rw [hconfig]
    exact hname
  simp only [htext]
  rw [hconfig, reloaded, hname]
  rfl

/-! ## Whether the settings are the same -/

theorem findDbBackendConfig_of_mem {backends : List DbConfig} {backend : DbConfig}
    (hnames : (backends.map DbConfig.name).Nodup) (h : backend ∈ backends) :
    findDbBackendConfig backends backend.name = some backend := by
  cases hfind : findDbBackendConfig backends backend.name with
  | none => exact absurd (List.mem_map_of_mem h) (findDbBackendConfig_eq_none.mp hfind)
  | some found =>
    have hbeq := List.find?_some hfind
    have hname : found.name = backend.name := eq_of_beq hbeq
    rw [List.inj_on_of_nodup_map hnames (List.mem_of_find?_eq_some hfind) h hname]

theorem restoredBackends_eq {backends : List DbConfig}
    (h : ∀ backend ∈ backends, ∃ field, backend.fields field ≠ none) :
    restoredBackends backends = backends.reverse := by
  unfold restoredBackends
  rw [List.filter_eq_self.mpr fun backend hbackend => any_isSome.mpr (h backend hbackend)]

theorem fields_of_perm {backends : List DbConfig}
    (h : (restoredBackends backends).Perm backends) :
    ∀ backend ∈ backends, ∃ field, backend.fields field ≠ none := by
  have hlength := h.length_eq
  unfold restoredBackends at hlength
  rw [List.length_reverse, List.length_filter_eq_length_iff] at hlength
  exact fun backend hbackend => any_isSome.mp (hlength backend hbackend)

theorem restoredPolicies_iff :
    (restoredSettings config).cleanPolicies = config.cleanPolicies ↔
      config.cleanPolicies .largePackets = false ∧ config.cleanPolicies .updateOnly = false ∧
        config.cleanPolicies .verifySignatures = false ∧
        config.cleanPolicies .needOtherSig = false := by
  constructor
  · intro h
    exact ⟨(congrFun h .largePackets).symm, (congrFun h .updateOnly).symm,
      (congrFun h .verifySignatures).symm, (congrFun h .needOtherSig).symm⟩
  · rintro ⟨h₁, h₂, h₃, h₄⟩
    funext p
    cases p with
    | checkSighash | capUids | capUats => rfl
    | largePackets => exact h₁.symm
    | updateOnly => exact h₂.symm
    | verifySignatures => exact h₃.symm
    | needOtherSig => exact h₄.symm

theorem sameSettings_reloaded (h : Sound config) (hfound : BackendFound config)
    (hwritable : Writable config) : SameSettings (reloaded config) config := by
  obtain ⟨hbackend, h₁, h₂, h₃, h₄, hblacklist, hsyncsites, hfields⟩ := hwritable
  obtain ⟨backend, hbackend⟩ := Option.ne_none_iff_exists'.mp hbackend
  obtain ⟨hname, hfind⟩ := hfound backend hbackend
  have hbackends := restoredBackends_eq hfields
  refine ⟨rfl, rfl, rfl, hsyncsites, ?_, ?_, hblacklist.symm, ?_⟩
  · show (restoredBackends config.backends).Perm config.backends
    rw [hbackends]
    exact List.reverse_perm _
  · show (config.text .dbBackend).bind _ = config.backend
    have hnames : (config.backends.reverse.map DbConfig.name).Nodup := by
      rw [List.map_reverse, List.nodup_reverse]
      exact h.names
    have hmem : backend ∈ config.backends.reverse :=
      List.mem_reverse.mpr (List.mem_of_find?_eq_some hfind)
    rw [hname, Option.bind_some, hbackends, hbackend, findDbBackendConfig_of_mem hnames hmem]
  · exact restoredPolicies_iff.mpr ⟨h₁, h₂, h₃, h₄⟩

theorem restores_iff (h : Sound config) (hfound : BackendFound config) (secname : List UInt8) :
    Restores files haveCrypto secname config ↔ Writable config := by
  constructor
  · rintro ⟨output, houtput, hsame⟩
    obtain ⟨backend, hbackend, -⟩ := Option.map_eq_some_iff.mp houtput
    obtain ⟨output', houtput', hconfig⟩ :=
      @readconfig_writeconfig files haveCrypto config h hfound backend hbackend secname
    obtain rfl := Option.some.inj (houtput.symm.trans houtput')
    rw [hconfig] at hsame
    obtain ⟨h₁, h₂, h₃, h₄⟩ := restoredPolicies_iff.mp hsame.cleanPolicies
    exact ⟨Option.ne_none_iff_exists'.mpr ⟨backend, hbackend⟩, h₁, h₂, h₃, h₄,
      hsame.blacklist.symm, hsame.syncsites, fields_of_perm hsame.backends⟩
  · intro hwritable
    obtain ⟨backend, hbackend⟩ := Option.ne_none_iff_exists'.mp hwritable.backend
    obtain ⟨output, houtput, hconfig⟩ :=
      @readconfig_writeconfig files haveCrypto config h hfound backend hbackend secname
    refine ⟨output, houtput, ?_⟩
    rw [hconfig]
    exact sameSettings_reloaded h hfound hwritable

end

/-- **Saving and loading keeps what can be written.** A configuration that was read from a file comes
back from the file written from it if and only if there is nothing in it that is lost. -/
theorem readconfig_restores_iff (files : List UInt8 → Option (List UInt8)) (haveCrypto : Bool)
    (text secname : List UInt8) :
    Restores files haveCrypto secname (readconfig files haveCrypto ⟨fresh, []⟩ text).config ↔
      Writable (readconfig files haveCrypto ⟨fresh, []⟩ text).config := by
  obtain ⟨hsound, hfound⟩ := sound_readconfig files haveCrypto text
  exact restores_iff hsound hfound secname

/-- A file that switches `update_only` on. -/
def updateOnlyLines : List (List UInt8) :=
  [ascii "[main]", ascii "backend=files", ascii "[verification]", ascii "update_only=true",
    ascii "[backend:files]", ascii "type=fs", ascii "location=/var/lib/onak"]

/-- `update_only` is not in the file that is written, and is off when that is read. -/
theorem readconfig_loses_update_only :
    ¬ Restores (fun _ => none) true []
      (readconfig (fun _ => none) true ⟨fresh, []⟩
        (Lines.unlines '\n'.toUInt8 updateOnlyLines)).config := by
  obtain ⟨hsound, hfound⟩ :=
    sound_readconfig (fun _ => none) true (Lines.unlines '\n'.toUInt8 updateOnlyLines)
  rw [restores_iff hsound hfound]
  intro hwritable
  have hon : (readconfig (fun _ => none) true ⟨fresh, []⟩
      (Lines.unlines '\n'.toUInt8 updateOnlyLines)).config.cleanPolicies .updateOnly = true := by
    have hall : updateOnlyLines.all (fun line => line.all isInner && line.length ≤ 1022) = true := by
      decide
    have hlines : ∀ line ∈ updateOnlyLines, LineOk line := by
      intro line hline
      have hline := List.all_eq_true.mp hall line hline
      rw [Bool.and_eq_true] at hline
      exact LineOk.of_all hline.1 (of_decide_eq_true hline.2)
    have hne : Lines.unlines '\n'.toUInt8 updateOnlyLines ≠ [] := List.cons_ne_nil _ _
    rw [readconfig, if_neg hne, readconfig_unlines hlines]
    rfl
  exact absurd (hwritable.updateOnly.symm.trans hon) Bool.false_ne_true

end Onak.Conf
