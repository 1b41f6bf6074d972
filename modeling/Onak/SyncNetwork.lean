import Onak.SyncMail

/-!
# Keyservers that exchange updates

A network of keyservers with their mails. Texts get in through the forms of the sites and by the mails
of users, and a site handles one of them after the other; what is on its way arrives in any order. Each
site has its own backend and its own settings.
-/

namespace Onak.Mail

open Print
open Conf (isspace)
open Socket (Memory)

/-! ## Mails on their way -/

/-- A value that a header line keeps as it is. -/
structure Plain (s : List UInt8) : Prop where
  line : '\n'.toUInt8 ∉ s
  front : ∀ c ∈ s.head?, isspace c = false

instance (s : List UInt8) : Decidable (Plain s) :=
  decidable_of_iff ('\n'.toUInt8 ∉ s ∧ ∀ c ∈ s.head?, isspace c = false)
    ⟨fun h => ⟨h.1, h.2⟩, fun h => ⟨h.line, h.front⟩⟩

/-- A header line that says neither what a mail is about nor where it has been. -/
structure Neutral (line : List UInt8) : Prop where
  subject : matchHeader "Subject" line = none
  sent : matchHeader "X-KeyServer-Sent" line = none

/-- Such a line without its line break. -/
structure NeutralLine (l : List UInt8) : Prop where
  nonempty : l ≠ []
  line : '\n'.toUInt8 ∉ l
  neutral : Neutral (l ++ ['\n'.toUInt8])

/-- A mail may get other header lines in front on its way. -/
def Arrives (sent received : List UInt8) : Prop :=
  ∃ front : List (List UInt8), (∀ l ∈ front, NeutralLine l) ∧
    received = front.flatMap (· ++ ['\n'.toUInt8]) ++ sent

/-! ## Sites -/

/-- A keyserver. Its two configurations are read from one file, and it names itself there by the address
that the other sites have for it. -/
structure Site where
  B : Backend
  D : B.DB → Lookups
  config : Conf.Config
  mailConfig : MailConfig
  memory : Memory
  /-- The address under which it gets its mails. -/
  address : List UInt8
  plain : Plain address
  thissite : config.text .thissite = some address
  mailThissite : mailConfig.text .thissite = some address
  syncsites : ∀ site, site ∈ mailConfig.syncsites ↔ site ∈ config.syncsites
  oneLine : ∀ site ∈ config.syncsites, '\n'.toUInt8 ∉ site
  adminemail : '\n'.toUInt8 ∉ printed (config.text .adminemail)
  mailAdminemail : '\n'.toUInt8 ∉ (mailConfig.text .adminemail).getD []

/-- Databases, and the mails that are on their way with the addresses they go to. -/
structure State {ι : Type} (site : ι → Site) where
  db : ∀ i, (site i).B.DB
  mails : Multiset (List UInt8 × List UInt8)

/-- A mail goes to each of its recipients. -/
def posted : Option Outgoing → Multiset (List UInt8 × List UInt8)
  | none => 0
  | some mail => (mail.recipients.map fun address => (address, mail.text) : List _)

/-- What can happen. -/
inductive Event where
  | add
  | write
  | deliver
deriving DecidableEq

section

variable (H : Hashes) (g : Stale) (C : SigCheck) {ι : Type} (site : ι → Site)

/-- What the form of a site makes of a text. -/
def addedAt (i : ι) (db : (site i).B.DB) (text : List UInt8) : UpdateResult (site i).B :=
  addKeys H g C (site i).D (site i).config true db (Cgi.dearmoredKeys (site i).memory text)

/-- A text from the form of a site. -/
def cgiAddAt (i : ι) (db : (site i).B.DB) (text : List UInt8) : (site i).B.DB × Option Outgoing :=
  cgiAdd H g C (site i).D (site i).config (site i).memory db text

/-- What a site makes of the keys of a mail. -/
def updatedAt (i : ι) (db : (site i).B.DB) (mail : Received) : UpdateResult (site i).B :=
  addKeys H g C (site i).D (site i).config false db (Cgi.dearmoredKeys (site i).memory mail.body)

/-- A mail that a site reads. -/
def processmailAt (i : ι) (order : List (List UInt8) → List (List UInt8)) (db : (site i).B.DB)
    (mail : Received) : (site i).B.DB × Option Outgoing :=
  processmail H g C (site i).D (site i).config (site i).mailConfig (site i).memory order db mail

/-- A mail that began at the form of a site and has passed the sites of a path, with the keys that the
last of them sent on. -/
inductive SentVia : List ι → Outgoing → List PublicKey → Prop
  | add (i : ι) (db : (site i).B.DB) (text : List UInt8) (mail : Outgoing)
      (hmail : (cgiAddAt H g C site i db text).2 = some mail) :
      SentVia [i] mail (addedAt H g C site i db text).sync
  | pass (path : List ι) (sent : Outgoing) (keys : List PublicKey) (h : SentVia path sent keys) (i : ι)
      (hto : (site i).address ∈ sent.recipients) (received : List UInt8)
      (harrives : Arrives sent.text received)
      (order : List (List UInt8) → List (List UInt8)) (horder : ∀ l, (order l).Perm l)
      (db : (site i).B.DB) (mail : Outgoing)
      (hmail : (processmailAt H g C site i order db (readMail received)).2 = some mail) :
      SentVia (path ++ [i]) mail (updatedAt H g C site i db (readMail received)).keys

variable [DecidableEq ι]

/-- Steps of the network. -/
inductive Step : State site → Event → State site → Prop
  /-- A text is sent with the form of a site. -/
  | add (s : State site) (i : ι) (text : List UInt8) :
      Step s .add
        ⟨Function.update s.db i (cgiAddAt H g C site i (s.db i) text).1,
          s.mails + posted (cgiAddAt H g C site i (s.db i) text).2⟩
  /-- Someone writes a mail. -/
  | write (s : State site) (address text : List UInt8) :
      Step s .write ⟨s.db, (address, text) ::ₘ s.mails⟩
  /-- A mail arrives at a site. -/
  | deliver (db : ∀ i, (site i).B.DB) (mails : Multiset (List UInt8 × List UInt8)) (i : ι)
      (sent received : List UInt8) (harrives : Arrives sent received)
      (order : List (List UInt8) → List (List UInt8)) (horder : ∀ l, (order l).Perm l) :
      Step ⟨db, ((site i).address, sent) ::ₘ mails⟩ .deliver
        ⟨Function.update db i (processmailAt H g C site i order (db i) (readMail received)).1,
          mails + posted (processmailAt H g C site i order (db i) (readMail received)).2⟩

/-- Runs of the network. -/
inductive Run (s : State site) : List Event → State site → Prop
  | refl : Run s [] s
  | step {events : List Event} {t u : State site} {e : Event} (h : Run s events t)
      (hstep : Step H g C site t e u) : Run s (events ++ [e]) u

end

end Onak.Mail
