import Onak.Db4Fetch
import Onak.Lib.Lines
import Onak.Lib.Print
import Onak.Marshal

/-!
# The configuration

`onak-conf.c`: the parser for configuration files of the new style and `writeconfig`, with
`array_load` of `keyarray.c` for the blacklist. The settings that are texts or numbers are kept by
name, and with them the log threshold of `log.c`. Files are their octets, which can be read without
errors, and memory is always to be had.
-/

namespace Onak.Conf

open Print

/-! ## Characters -/

/-- `isspace`, in the C locale. -/
def isspace (c : UInt8) : Bool := c = ' '.toUInt8 ∨ 9 ≤ c ∧ c ≤ 13

/-- `isdigit`. -/
def isdigit (c : UInt8) : Bool := '0'.toUInt8 ≤ c ∧ c ≤ '9'.toUInt8

/-- `tolower`. -/
def tolower (c : UInt8) : UInt8 := if 'A'.toUInt8 ≤ c ∧ c ≤ 'Z'.toUInt8 then c + 32 else c

/-- `atoi`: the `long` that `strtol` gives, at most and at least what a `long` can be, as an `int`. -/
def atoi (s : List UInt8) : Int :=
  let s := s.dropWhile isspace
  let sign := s.getD 0 0
  let digits := if sign = '-'.toUInt8 ∨ sign = '+'.toUInt8 then s.drop 1 else s
  let n : Nat := (digits.takeWhile isdigit).foldl (fun n c => 10 * n + (c.toNat - 48)) 0
  let long : Int := if sign = '-'.toUInt8 then max (-(n : Int)) (-2 ^ 63) else min n (2 ^ 63 - 1)
  long.bmod (2 ^ 32)

/-- `!strcasecmp`. -/
def strcaseeq (a b : List UInt8) : Bool := a.map tolower = b.map tolower

/-- `parsebool`. -/
def parsebool (str : List UInt8) (fallback : Bool) : Bool :=
  if strcaseeq str (ascii "false") ∨ strcaseeq str (ascii "no") ∨ strcaseeq str (ascii "0") then
    false
  else if strcaseeq str (ascii "true") ∨ strcaseeq str (ascii "yes") ∨ strcaseeq str (ascii "1") then
    true
  else
    fallback

/-- A line without the white space at its ends. -/
def strip (curline : List UInt8) : List UInt8 :=
  ((cString curline).rdropWhile isspace).dropWhile isspace

/-! ## Settings -/

/-- The fields of `struct onak_db_config` behind the name. -/
inductive DbField where
  | type
  | location
  | hostname
  | username
  | password
deriving DecidableEq

/-- `struct onak_db_config`. -/
structure DbConfig where
  name : List UInt8
  fields : DbField → Option (List UInt8)

/-- The texts of `struct onak_config`. -/
inductive TextSetting where
  | dbBackend
  | backendsDir
  | templateDir
  | logfile
  | sockDir
  | serverContact
  | adminemail
  | mailDir
  | mta
  | binDir
  | thissite
deriving DecidableEq

/-- The numbers of `struct onak_config`, and the log threshold. -/
inductive NumberSetting where
  | loglevel
  | maxkeys
  | maxSigsPerUid
  | maxSigsPerUat
deriving DecidableEq

/-- The `ONAK_CLEAN` policies. -/
inductive CleanPolicy where
  | checkSighash
  | largePackets
  | updateOnly
  | verifySignatures
  | needOtherSig
  | capUids
  | capUats
deriving DecidableEq

/-- `struct onak_config`. -/
@[ext]
structure Config where
  text : TextSetting → Option (List UInt8)
  number : NumberSetting → Int
  useKeyd : Bool
  syncsites : List (List UInt8)
  backends : List DbConfig
  /-- The backend to use, one of `backends`. -/
  backend : Option DbConfig
  blacklist : KeyArray
  cleanPolicies : CleanPolicy → Bool

/-- The configuration that `config` is initialised with. -/
def fresh : Config where
  text _ := none
  number
    | .loglevel => 3
    | .maxkeys => 128
    | .maxSigsPerUid => 512
    | .maxSigsPerUat => 512
  useKeyd := false
  syncsites := []
  backends := []
  backend := none
  blacklist := []
  cleanPolicies
    | .checkSighash | .capUids | .capUats => true
    | _ => false

/-! ## The blacklist -/

/-- `hex2bin`. -/
def hex2bin (c : UInt8) : UInt8 :=
  if '0'.toUInt8 ≤ c ∧ c ≤ '9'.toUInt8 then c - '0'.toUInt8
  else if 'a'.toUInt8 ≤ c ∧ c ≤ 'f'.toUInt8 then c - 'a'.toUInt8 + 10
  else if 'A'.toUInt8 ≤ c ∧ c ≤ 'F'.toUInt8 then c - 'A'.toUInt8 + 10
  else 255

/-- A line of `array_load`. -/
def arrayLoadLine (array : KeyArray) (curline : List UInt8) : KeyArray :=
  let curline := (cString curline).rdropWhile isspace
  let length := curline.length / 2
  if curline.getD 0 0 = '#'.toUInt8 then
    array
  else if length = 16 ∨ length = 20 ∨ length = 32 then
    arrayAdd array ((List.range length).map fun i =>
      hex2bin (curline.getD (2 * i) 0) <<< 4 ||| hex2bin (curline.getD (2 * i + 1) 0))
  else
    array

/-- `array_load`, with the octets of the file if it can be opened. -/
def arrayLoad (array : KeyArray) : Option (List UInt8) → KeyArray
  | none => array
  | some text => (Lines.chunks '\n'.toUInt8 1021 text).foldl arrayLoadLine array

/-! ## Parsing -/

/-- `find_db_backend_config`. -/
def findDbBackendConfig (backends : List DbConfig) (name : List UInt8) : Option DbConfig :=
  backends.find? fun backend => backend.name == name

/-- Change the first backend of a name. -/
def updateBackend (name : List UInt8) (f : DbConfig → DbConfig) : List DbConfig → List DbConfig
  | [] => []
  | backend :: backends =>
    if backend.name = name then f backend :: backends
    else backend :: updateBackend name f backends

/-- The name a field is parsed by. -/
def DbField.key : DbField → List UInt8
  | .type => ascii "type"
  | .location => ascii "location"
  | .hostname => ascii "hostname"
  | .username => ascii "username"
  | .password => ascii "password"

/-- The fields that are parsed, in this order. -/
def dbFields : List DbField := [.type, .location, .hostname, .username, .password]

/-- `backend->field = strdup(value)`, for the field of that name if there is one. -/
def setField (key value : List UInt8) (backend : DbConfig) : DbConfig :=
  match dbFields.find? fun field => field.key == key with
  | none => backend
  | some field => { backend with fields := Function.update backend.fields field (some value) }

/-- A line of a `backend:` section. -/
def parseBackendLine (backends : List DbConfig) (name key value : List UInt8) : List DbConfig :=
  match findDbBackendConfig backends name with
  | none => setField key value ⟨name, fun _ => none⟩ :: backends
  | some _ => updateBackend name (setField key value) backends

/-- What the lines of the other sections set. -/
inductive Setting where
  | text (s : TextSetting)
  | number (s : NumberSetting)
  | useKeyd
  | syncsite
  | blacklist
  | dropV3
  | policy (p : CleanPolicy)
deriving DecidableEq

/-- The section and the name that a setting is parsed by. -/
def Setting.key : Setting → List UInt8 × List UInt8
  | .text .dbBackend => (ascii "main", ascii "backend")
  | .text .backendsDir => (ascii "main", ascii "backends_dir")
  | .text .templateDir => (ascii "main", ascii "template_dir")
  | .text .logfile => (ascii "main", ascii "logfile")
  | .number .loglevel => (ascii "main", ascii "loglevel")
  | .useKeyd => (ascii "main", ascii "use_keyd")
  | .text .sockDir => (ascii "main", ascii "sock_dir")
  | .number .maxkeys => (ascii "main", ascii "max_reply_keys")
  | .text .serverContact => (ascii "main", ascii "server_contact")
  | .text .adminemail => (ascii "mail", ascii "maintainer_email")
  | .text .mailDir => (ascii "mail", ascii "mail_dir")
  | .text .mta => (ascii "mail", ascii "mta")
  | .text .binDir => (ascii "mail", ascii "bin_dir")
  | .text .thissite => (ascii "mail", ascii "this_site")
  | .syncsite => (ascii "mail", ascii "syncsite")
  | .blacklist => (ascii "verification", ascii "blacklist")
  | .dropV3 => (ascii "verification", ascii "drop_v3")
  | .policy .checkSighash => (ascii "verification", ascii "check_sighash")
  | .policy .largePackets => (ascii "verification", ascii "check_packet_size")
  | .policy .capUids => (ascii "verification", ascii "cap_uids_per_key")
  | .policy .capUats => (ascii "verification", ascii "cap_uats_per_key")
  | .number .maxSigsPerUid => (ascii "verification", ascii "max_sigs_per_uid")
  | .number .maxSigsPerUat => (ascii "verification", ascii "max_sigs_per_uat")
  | .policy .needOtherSig => (ascii "verification", ascii "require_other_sig")
  | .policy .updateOnly => (ascii "verification", ascii "update_only")
  | .policy .verifySignatures => (ascii "verification", ascii "verify_signatures")

/-- The settings that are parsed, in this order. -/
def settings : List Setting :=
  [.text .dbBackend, .text .backendsDir, .text .templateDir, .text .logfile, .number .loglevel,
    .useKeyd, .text .sockDir, .number .maxkeys, .text .serverContact, .text .adminemail,
    .text .mailDir, .text .mta, .text .binDir, .text .thissite, .syncsite, .blacklist, .dropV3,
    .policy .checkSighash, .policy .largePackets, .policy .capUids, .policy .capUats,
    .number .maxSigsPerUid, .number .maxSigsPerUat, .policy .needOtherSig, .policy .updateOnly,
    .policy .verifySignatures]

/-- `MATCH`, over all settings. -/
def matchSetting (secname name : List UInt8) : Option Setting :=
  settings.find? fun setting => setting.key == (secname, name)

section

variable (files : List UInt8 → Option (List UInt8)) (haveCrypto : Bool)

/-- What a setting does with its value. Two of the policies need crypto support. -/
def Setting.set (config : Config) (value : List UInt8) : Setting → Config
  | .text s => { config with text := Function.update config.text s (some value) }
  | .number s => { config with number := Function.update config.number s (atoi value) }
  | .useKeyd => { config with useKeyd := parsebool value config.useKeyd }
  | .syncsite => { config with syncsites := value :: config.syncsites }
  | .blacklist => { config with blacklist := arrayLoad config.blacklist (files value) }
  | .dropV3 => config
  | .policy p =>
    if (p = .needOtherSig ∨ p = .verifySignatures) ∧ !haveCrypto then
      config
    else
      { config with
        cleanPolicies :=
          Function.update config.cleanPolicies p (parsebool value (config.cleanPolicies p)) }

/-- The configuration, and the `section` that `parseconfigline` keeps. -/
structure ParseState where
  config : Config
  secname : List UInt8

/-- A line that opens a section. -/
def parseHeader (s : ParseState) (line : List UInt8) : Bool × ParseState :=
  if line.getLast? ≠ some ']'.toUInt8 then
    (false, s)
  else if 32 < line.length then
    (false, s)
  else
    (true, { s with secname := (line.drop 1).dropLast })

/-- A line with a name and a value. -/
def parseValue (s : ParseState) (name value : List UInt8) : Bool × ParseState :=
  if (ascii "backend:").isPrefixOf s.secname then
    (true, { s with
      config := { s.config with
        backends := parseBackendLine s.config.backends (s.secname.drop 8) name value } })
  else
    match matchSetting s.secname name with
    | none => (false, s)
    | some setting => (true, { s with config := setting.set files haveCrypto s.config value })

/-- `parseconfigline`: whether the line is known, and what it does. -/
def parseconfigline (s : ParseState) (line : List UInt8) : Bool × ParseState :=
  if line.getD 0 0 = '#'.toUInt8 ∨ line.getD 0 0 = ';'.toUInt8 ∨ line = [] then
    (true, s)
  else if line.getD 0 0 = '['.toUInt8 then
    parseHeader s line
  else if line.contains '='.toUInt8 then
    parseValue files haveCrypto s (line.takeWhile (· ≠ '='.toUInt8))
      ((line.dropWhile (· ≠ '='.toUInt8)).drop 1)
  else
    (false, s)

/-- A round of the loop of `readconfig`. Lines that are not known are only logged. -/
def readLine (s : ParseState) (curline : List UInt8) : ParseState :=
  (parseconfigline files haveCrypto s (strip curline)).2

/-- `readconfig`, on a file of the new style. -/
def readconfig (s : ParseState) (text : List UInt8) : ParseState :=
  if text = [] then
    s
  else
    let s := (Lines.chunks '\n'.toUInt8 1021 text).foldl (readLine files haveCrypto) s
    match s.config.text .dbBackend with
    | none => s
    | some name =>
      { s with config := { s.config with backend := findDbBackendConfig s.config.backends name } }

end

/-! ## Writing -/

/-- `WRITE_IF_NOT_NULL`. -/
def writeIfNotNull (c : Option (List UInt8)) (s : String) : List (List UInt8) :=
  (c.map fun c => ascii s ++ ascii "=" ++ c).toList

/-- `WRITE_BOOL`. -/
def writeBool (c : Bool) (s : String) : List (List UInt8) :=
  [ascii s ++ ascii "=" ++ (if c then ascii "true" else ascii "false")]

/-- `fprintf(conffile, s "=%d\n", c)`. -/
def writeNumber (c : Int) (s : String) : List (List UInt8) := [ascii s ++ ascii "=" ++ int c]

/-- The lines for a backend. -/
def writeBackend (backend : DbConfig) : List (List UInt8) :=
  [[], ascii "[backend:" ++ backend.name ++ ascii "]"] ++
    writeIfNotNull (backend.fields .type) "type" ++
    writeIfNotNull (backend.fields .location) "location" ++
    writeIfNotNull (backend.fields .hostname) "hostname" ++
    writeIfNotNull (backend.fields .username) "username" ++
    writeIfNotNull (backend.fields .password) "password"

/-- The lines of the `main` section. -/
def writeMain (config : Config) (backend : DbConfig) : List (List UInt8) :=
  [ascii "[main]"] ++ writeIfNotNull (some backend.name) "backend" ++
    writeIfNotNull (config.text .backendsDir) "backends_dir" ++
    writeIfNotNull (config.text .templateDir) "template_dir" ++
    writeIfNotNull (config.text .logfile) "logfile" ++
    writeNumber (config.number .loglevel) "loglevel" ++
    writeBool config.useKeyd "use_keyd" ++
    writeIfNotNull (config.text .sockDir) "sock_dir" ++
    writeNumber (config.number .maxkeys) "max_reply_keys" ++
    writeIfNotNull (config.text .serverContact) "server_contact" ++ [[]]

/-- The lines of the `verification` section. -/
def writeVerification (config : Config) : List (List UInt8) :=
  [ascii "[verification]"] ++ writeBool (config.cleanPolicies .checkSighash) "check_sighash" ++
    writeBool (config.cleanPolicies .capUids) "cap_uids_per_key" ++
    writeBool (config.cleanPolicies .capUats) "cap_uats_per_key" ++
    writeNumber (config.number .maxSigsPerUid) "max_sigs_per_uid" ++
    writeNumber (config.number .maxSigsPerUat) "max_sigs_per_uat" ++ [[]]

/-- The lines of the `mail` section. -/
def writeMail (config : Config) : List (List UInt8) :=
  [ascii "[mail]"] ++ writeIfNotNull (config.text .adminemail) "maintainer_email" ++
    writeIfNotNull (config.text .mailDir) "mail_dir" ++
    writeIfNotNull (config.text .mta) "mta" ++
    writeIfNotNull (config.text .binDir) "bin_dir" ++
    writeIfNotNull (config.text .thissite) "this_site" ++
    config.syncsites.map fun site => ascii "syncsite=" ++ site

/-- `writeconfig`. It reads the name of the backend that is used, which has no result if there is
none. -/
def writeconfig (config : Config) : Option (List UInt8) :=
  config.backend.map fun backend =>
    Lines.unlines '\n'.toUInt8 (writeMain config backend ++ writeVerification config ++
      writeMail config ++ config.backends.flatMap writeBackend)

/-! ## Saving and loading -/

/-- The same settings. The order of the backends, which are found by their names, is left out. -/
structure SameSettings (a b : Config) : Prop where
  text : a.text = b.text
  number : a.number = b.number
  useKeyd : a.useKeyd = b.useKeyd
  syncsites : a.syncsites = b.syncsites
  backends : a.backends.Perm b.backends
  backend : a.backend = b.backend
  blacklist : a.blacklist = b.blacklist
  cleanPolicies : a.cleanPolicies = b.cleanPolicies

/-- The configuration can be written, and reading the file gives the same settings. -/
def Restores (files : List UInt8 → Option (List UInt8)) (haveCrypto : Bool) (secname : List UInt8)
    (config : Config) : Prop :=
  ∃ output, writeconfig config = some output ∧
    SameSettings (readconfig files haveCrypto ⟨fresh, secname⟩ output).config config

/-- A configuration in which there is nothing that a file written from it loses: a backend is used,
the policies that are not written are off, there is no blacklist, the sync sites are the same in
reverse, and each backend has some field. -/
structure Writable (config : Config) : Prop where
  backend : config.backend ≠ none
  largePackets : config.cleanPolicies .largePackets = false
  updateOnly : config.cleanPolicies .updateOnly = false
  verifySignatures : config.cleanPolicies .verifySignatures = false
  needOtherSig : config.cleanPolicies .needOtherSig = false
  blacklist : config.blacklist = []
  syncsites : config.syncsites.reverse = config.syncsites
  fields : ∀ backend ∈ config.backends, ∃ field, backend.fields field ≠ none

end Onak.Conf
