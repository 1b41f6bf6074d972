import Onak.CgiPrograms
import Onak.Lib.Lines

/-!
# Updates by mail

`sendkeysync` of `sendsync.c`, the command `add` of `onak.c` with its option `-u`, and `onak-mail.pl`, as
far as it handles mails that bring keys. A mail is handed to the mail transfer agent with its
recipients in its `To:` line. What is logged is left out, and so are the answers to those who wrote.
-/

namespace Onak.Mail

open Print
open Socket (Memory)
open Conf (isspace tolower)

/-! ## Sending -/

/-- A mail that is handed to the mail transfer agent. -/
structure Outgoing where
  recipients : List (List UInt8)
  text : List UInt8

/-- `%s`, as it prints a null pointer too. -/
def printed (s : Option (List UInt8)) : List UInt8 := s.getD (ascii "(null)")

/-- The recipients with commas between them. -/
def commas (recipients : List (List UInt8)) : List UInt8 := List.intercalate (ascii ", ") recipients

/-- `sendkeysync`, where the mail transfer agent can be run. -/
def sendkeysync (config : Conf.Config) (keys : List PublicKey) : Option Outgoing :=
  if config.syncsites = [] then
    none
  else
    some {
      recipients := config.syncsites
      text :=
        ascii "From: " ++ printed (config.text .adminemail) ++ ascii "\n" ++
        ascii "To: " ++ commas config.syncsites ++ ascii "\n" ++
        ascii "Subject: incremental\n" ++
        ascii "X-Keyserver-Sent: " ++ printed (config.text .thissite) ++ ascii "\n" ++
        ascii "Precedence: list\n" ++
        ascii "MIME-Version: 1.0\n" ++
        ascii "Content-Type: application/pgp-keys\n\n" ++
        armorOpenpgpStream (flattenPublickey keys) }

/-! ## Adding keys -/

section

variable (H : Hashes) (g : Stale) (C : SigCheck) {B : Backend} (D : B.DB → Lookups)
  (config : Conf.Config) (memory : Memory)

/-- What `add` does with the keys that it has read, whether they came by mail or from a form. -/
def addKeys (sendsync : Bool) (db : B.DB) (keys : List PublicKey) : UpdateResult B :=
  genericUpdateKeys H B g config.blacklist (config.cleanPolicies .updateOnly) sendsync db
    (cleankeys H g C (D db) (Cgi.policiesOf config) keys).1

/-- The text that has been sent to `cgi/add.c`: the database, and the mail that `update_keys` sends. -/
def cgiAdd (db : B.DB) (text : List UInt8) : B.DB × Option Outgoing :=
  if dearmoredPackets memory.packet text = [] then
    (db, none)
  else
    let r := addKeys H g C D config true db (Cgi.dearmoredKeys memory text)
    (r.db, if r.sync = [] then none else sendkeysync config r.sync)

/-- `onak add`: the database, and what it prints with `-u`. -/
def onakAdd (update : Bool) (db : B.DB) (stdin : List UInt8) : B.DB × List UInt8 :=
  if dearmoredPackets memory.packet stdin = [] then
    (db, [])
  else
    let r := addKeys H g C D config false db (Cgi.dearmoredKeys memory stdin)
    (r.db, if r.keys ≠ [] ∧ update then armorOpenpgpStream (flattenPublickey r.keys) else [])

end

/-! ## The settings of the mail program -/

/-- The settings of `onak-mail.pl` that are texts. -/
inductive MailSetting where
  | logfile
  | thissite
  | adminemail
  | mta
  | pksBinDir
  | mailDir
deriving DecidableEq

/-- `%config`. -/
structure MailConfig where
  text : MailSetting → Option (List UInt8)
  syncsites : List (List UInt8)

/-- `.`, as often as it matches. -/
def dots (s : List UInt8) : List UInt8 := s.takeWhile (· ≠ '\n'.toUInt8)

/-- `/^name\s*=\s*(.*)/`. -/
def matchSetting (name : String) (line : List UInt8) : Option (List UInt8) :=
  let rest := (line.drop (ascii name).length).dropWhile isspace
  if (ascii name).isPrefixOf line ∧ rest.head? = some '='.toUInt8 then
    some (dots ((rest.drop 1).dropWhile isspace))
  else
    none

/-- `\w`. -/
def wordChar (c : UInt8) : Bool :=
  'a'.toUInt8 ≤ c ∧ c ≤ 'z'.toUInt8 ∨ 'A'.toUInt8 ≤ c ∧ c ≤ 'Z'.toUInt8 ∨
    '0'.toUInt8 ≤ c ∧ c ≤ '9'.toUInt8 ∨ c = '_'.toUInt8

/-- `/^\[(\w+)\]/`. -/
def matchSection (line : List UInt8) : Option (List UInt8) :=
  let name := (line.drop 1).takeWhile wordChar
  if line.head? = some '['.toUInt8 ∧ name ≠ [] ∧
      (line.drop (1 + name.length)).head? = some ']'.toUInt8 then
    some name
  else
    none

/-- The settings of the section `mail`, in the order in which they are tried. -/
def mailSettings : List (String × Option MailSetting) :=
  [("this_site", some .thissite), ("maintainer_email", some .adminemail), ("mta", some .mta),
    ("bin_dir", some .pksBinDir), ("mail_dir", some .mailDir), ("syncsite", none)]

/-- A line that may set something. The setting of several values is the one without a name. -/
def MailConfig.set (config : MailConfig) (line : List UInt8) :
    List (String × Option MailSetting) → MailConfig
  | [] => config
  | (name, setting) :: settings =>
    match matchSetting name line, setting with
    | none, _ => config.set line settings
    | some value, some setting =>
      { config with text := Function.update config.text setting (some value) }
    | some value, none => { config with syncsites := config.syncsites ++ [value] }

/-- `/^$/`. -/
def emptyLine (line : List UInt8) : Bool := line = [] ∨ line = ['\n'.toUInt8]

/-- A round of the loop of `readconfig`, with `$section`. -/
def configLine (s : MailConfig × List UInt8) (line : List UInt8) : MailConfig × List UInt8 :=
  if line.head? = some '#'.toUInt8 ∨ emptyLine line then
    s
  else
    match matchSection line with
    | some name => (s.1, name)
    | none =>
      if s.2 = ascii "main" then (s.1.set line [("logfile", some .logfile)], s.2)
      else if s.2 = ascii "mail" then (s.1.set line mailSettings, s.2)
      else s

/-- `readconfig`, on a file of the new style. -/
def readconfig (text : List UInt8) : MailConfig :=
  ((Lines.lines '\n'.toUInt8 text).foldl configLine (⟨fun _ => none, []⟩, [])).1

/-! ## Receiving -/

/-- What is known of a mail while it is read. -/
structure Received where
  inheader : Bool
  subject : List UInt8
  sender : List UInt8
  replyto : List UInt8
  /-- The keys of `%seenby`. -/
  seenby : List (List UInt8)
  /-- The lines of `@body`, one behind the other. -/
  body : List UInt8

/-- `/^name:\s*(.*)\s*$/i`. -/
def matchHeader (name : String) (line : List UInt8) : Option (List UInt8) :=
  let header := ascii name ++ ascii ":"
  if (line.take header.length).map tolower = header.map tolower then
    some (dots ((line.drop header.length).dropWhile isspace))
  else
    none

/-- What a line of the header says. -/
def Received.header (mail : Received) (line : List UInt8) : Received :=
  match matchHeader "Subject" line, matchHeader "X-KeyServer-Sent" line, matchHeader "From" line,
    matchHeader "Reply-To" line with
  | some subject, _, _, _ => { mail with subject }
  | none, some site, _, _ =>
    { mail with seenby := if mail.seenby.contains site then mail.seenby else mail.seenby ++ [site] }
  | none, none, some sender, _ => { mail with sender }
  | none, none, none, some replyto => { mail with replyto }
  | none, none, none, none => if emptyLine line then { mail with inheader := false } else mail

/-- A line of a mail. The line that ends the header stands in the body too. -/
def Received.line (mail : Received) (line : List UInt8) : Received :=
  let mail := if mail.inheader then mail.header line else mail
  if mail.inheader then mail else { mail with body := mail.body ++ line }

/-- A mail as `onak-mail.pl` reads it from its file. -/
def readMail (text : List UInt8) : Received :=
  let mail := (Lines.lines '\n'.toUInt8 text).foldl Received.line ⟨true, [], [], [], [], []⟩
  if mail.replyto = [] then { mail with replyto := mail.sender } else mail

/-- `/^(INCREMENTAL|ADD)$/i`. -/
def Received.isUpdate (mail : Received) : Bool :=
  mail.subject.map tolower = ascii "incremental" ∨ mail.subject.map tolower = ascii "add"

/-- The sites that the keys of a mail go on to. -/
def MailConfig.unseen (config : MailConfig) (seenby : List (List UInt8)) : List (List UInt8) :=
  config.syncsites.filter fun site => !seenby.contains site

/-- The mail that `processmail` sends on, where `seenby` are the keys of `%seenby` in the order of the
hash. -/
def syncmail (config : MailConfig) (seenby : List (List UInt8)) (newupdate : List UInt8) : Outgoing where
  recipients := config.unseen seenby
  text :=
    ascii "From: " ++ (config.text .adminemail).getD [] ++ ascii "\n" ++
    ascii "To: " ++ commas (config.unseen seenby) ++ ascii "\n" ++
    ascii "Subject: incremental\n" ++
    (seenby.flatMap fun site => ascii "X-KeyServer-Sent: " ++ site ++ ascii "\n") ++
    ascii "X-KeyServer-Sent: " ++ (config.text .thissite).getD [] ++ ascii "\n" ++
    ascii "Precedence: list\n" ++
    ascii "MIME-Version: 1.0\n" ++
    ascii "Content-Type: application/pgp-keys\n" ++
    ascii "\n" ++
    newupdate

section

variable (H : Hashes) (g : Stale) (C : SigCheck) {B : Backend} (D : B.DB → Lookups)
  (config : Conf.Config) (mailConfig : MailConfig) (memory : Memory)

/-- `processmail` for a mail that has been read: the database, and the mail that is sent on. The order
of the hash is `order`. -/
def processmail (order : List (List UInt8) → List (List UInt8)) (db : B.DB) (mail : Received) :
    B.DB × Option Outgoing :=
  if mail.isUpdate then
    let r := onakAdd H g C D config memory true db mail.body
    (r.1, if r.2 = [] ∨ mailConfig.unseen mail.seenby = [] then none
      else some (syncmail mailConfig (order mail.seenby) r.2))
  else
    (db, none)

end

end Onak.Mail
