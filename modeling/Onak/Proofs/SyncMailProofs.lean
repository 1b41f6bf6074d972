import Onak.SyncNetwork
import Onak.Proofs.HkpProofs

/-!
# Proofs: updates that come by mail

What `onak-mail.pl` makes of the mails that `sendkeysync` and `processmail` send.
-/

namespace Onak.Mail

open Print
open Conf (isspace tolower)
open Socket (Memory Sendable)

/-! ## Lines -/

theorem dots_line {s : List UInt8} (h : '\n'.toUInt8 ∉ s) (rest : List UInt8) :
    dots (s ++ '\n'.toUInt8 :: rest) = s := by
  have hne : ∀ c ∈ s, decide (c ≠ '\n'.toUInt8) = true := by
    intro c hc
    apply decide_eq_true
    rintro rfl
    exact h hc
  rw [dots, List.takeWhile_append_of_pos hne, List.takeWhile_cons_of_neg (by decide),
    List.append_nil]

/-- The value behind a blank or an equals sign. -/
theorem dots_plain {s : List UInt8} (h : Plain s) :
    dots ((s ++ ['\n'.toUInt8]).dropWhile isspace) = s := by
  cases s with
  | nil => decide
  | cons c s =>
    have hc : isspace c = false := h.front c rfl
    rw [List.cons_append, List.dropWhile_cons_of_neg (by rw [hc]; decide)]
    exact dots_line h.line []

theorem plain_dots (s : List UInt8) : Plain (dots (s.dropWhile isspace)) where
  line := by
    intro hmem
    exact absurd (List.mem_takeWhile_imp hmem) (by simp)
  front := by
    intro c hc
    have hhead : (s.dropWhile isspace).head? = some c := by
      cases hs : s.dropWhile isspace with
      | nil =>
        rw [hs] at hc
        exact absurd hc (by simp [dots])
      | cons d rest =>
        rw [hs, dots] at hc
        by_cases hd : d = '\n'.toUInt8
        · rw [List.takeWhile_cons_of_neg (by simp [hd])] at hc
          exact absurd hc (by simp)
        · rw [List.takeWhile_cons_of_pos (by simp [hd])] at hc
          exact hc
    have hnot := List.head?_dropWhile_not isspace s
    rw [hhead] at hnot
    simpa using hnot

/-! ## Headers -/

/-- The value of a header, in whatever case its name is written. -/
theorem matchHeader_value {name : String} {written : List UInt8} {value : List UInt8}
    (h : written.map tolower = (ascii name ++ ascii ":").map tolower) (hvalue : Plain value) :
    matchHeader name (written ++ ' '.toUInt8 :: value ++ ['\n'.toUInt8]) = some value := by
  have hlen : (ascii name ++ ascii ":").length = written.length := by
    have hmap := congrArg List.length h
    rw [List.length_map, List.length_map] at hmap
    exact hmap.symm
  rw [matchHeader, hlen, List.append_assoc, List.take_left, if_pos h, List.drop_left,
    List.cons_append, List.dropWhile_cons_of_pos (by decide), dots_plain hvalue]

/-- A line that starts with another letter. -/
theorem matchHeader_other {name : String} {line : List UInt8}
    (h : (line.head?.map tolower) ≠ ((ascii name ++ ascii ":").head?.map tolower)) :
    matchHeader name line = none := by
  rw [matchHeader, if_neg]
  intro heq
  refine h ?_
  have hpos : (ascii name ++ ascii ":") ≠ [] := by simp [ascii]
  have hhead := congrArg List.head? heq
  obtain ⟨c, rest, hcons⟩ := List.exists_cons_of_ne_nil hpos
  rw [List.head?_map, List.head?_map, hcons] at hhead
  rw [hcons]
  cases line with
  | nil => simp at hhead
  | cons d line => simpa using hhead

/-- The keys of a hash with one more. -/
def addSeen (seenby : List (List UInt8)) (site : List UInt8) : List (List UInt8) :=
  if seenby.contains site then seenby else seenby ++ [site]

theorem mem_addSeen {seenby : List (List UInt8)} {site other : List UInt8} :
    site ∈ addSeen seenby other ↔ site ∈ seenby ∨ site = other := by
  unfold addSeen
  split_ifs with hmem
  · exact ⟨Or.inl, fun h => h.elim id fun heq => heq ▸ List.contains_iff_mem.mp hmem⟩
  · rw [List.mem_append, List.mem_singleton]

theorem mem_foldl_addSeen {seenby sites : List (List UInt8)} {site : List UInt8} :
    site ∈ sites.foldl addSeen seenby ↔ site ∈ seenby ∨ site ∈ sites := by
  induction sites generalizing seenby with
  | nil => simp
  | cons other sites ih => rw [List.foldl_cons, ih, mem_addSeen, List.mem_cons, or_assoc]

/-! ### What a header line does -/

theorem emptyLine_line {l : List UInt8} (h : l ≠ []) : emptyLine (l ++ ['\n'.toUInt8]) = false := by
  obtain ⟨c, l, rfl⟩ := List.exists_cons_of_ne_nil h
  simp [emptyLine]

/-- A header line that is not empty does not end the header. -/
theorem header_inheader {l : List UInt8} (h : l ≠ []) (mail : Received) :
    (mail.header (l ++ ['\n'.toUInt8])).inheader = mail.inheader ∧
      (mail.header (l ++ ['\n'.toUInt8])).body = mail.body := by
  unfold Received.header
  rw [emptyLine_line h]
  split
  all_goals exact ⟨rfl, rfl⟩

theorem Neutral.header {l : List UInt8} (hl : l ≠ []) (h : Neutral (l ++ ['\n'.toUInt8]))
    (mail : Received) :
    (mail.header (l ++ ['\n'.toUInt8])).subject = mail.subject ∧
      (mail.header (l ++ ['\n'.toUInt8])).seenby = mail.seenby := by
  unfold Received.header
  rw [h.subject, h.sent, emptyLine_line hl]
  cases matchHeader "From" (l ++ ['\n'.toUInt8]) with
  | some sender => exact ⟨rfl, rfl⟩
  | none =>
    cases matchHeader "Reply-To" (l ++ ['\n'.toUInt8]) with
    | some replyto => exact ⟨rfl, rfl⟩
    | none => exact ⟨rfl, rfl⟩

/-- A line that starts with a letter other than S and X. -/
theorem neutral_of_head {line : List UInt8} {c : UInt8} (h : line.head? = some c)
    (hs : tolower c ≠ 's'.toUInt8) (hx : tolower c ≠ 'x'.toUInt8) : Neutral line where
  subject := by
    refine matchHeader_other fun heq => hs ?_
    rw [h] at heq
    exact Option.some.inj heq
  sent := by
    refine matchHeader_other fun heq => hx ?_
    rw [h] at heq
    exact Option.some.inj heq

theorem header_subject {value : List UInt8} (h : Plain value) (mail : Received) :
    mail.header (ascii "Subject:" ++ ' '.toUInt8 :: value ++ ['\n'.toUInt8]) =
      { mail with subject := value } := by
  rw [Received.header, matchHeader_value (by decide) h]

theorem header_sent {written value : List UInt8}
    (hw : written.map tolower = (ascii "X-KeyServer-Sent" ++ ascii ":").map tolower)
    (h : Plain value) (mail : Received) :
    mail.header (written ++ ' '.toUInt8 :: value ++ ['\n'.toUInt8]) =
      { mail with seenby := addSeen mail.seenby value } := by
  have hother : matchHeader "Subject" (written ++ ' '.toUInt8 :: value ++ ['\n'.toUInt8]) = none := by
    refine matchHeader_other ?_
    have hhead := congrArg List.head? hw
    rw [List.head?_map] at hhead
    cases written with
    | nil => exact absurd hhead (by decide)
    | cons c written =>
      rw [List.head?_cons] at hhead
      rw [List.cons_append, List.cons_append, List.head?_cons, hhead]
      decide
  rw [Received.header, hother, matchHeader_value hw h]
  rfl

/-! ## Reading a mail -/

theorem foldl_body (text : List (List UInt8)) {mail : Received} (h : mail.inheader = false) :
    text.foldl Received.line mail = { mail with body := mail.body ++ text.flatten } := by
  induction text generalizing mail with
  | nil =>
    rw [List.flatten_nil, List.append_nil]
    rfl
  | cons line text ih =>
    have hline : mail.line line = { mail with body := mail.body ++ line } := by
      rw [Received.line]
      simp [h]
    have hrest := @ih { mail with body := mail.body ++ line } h
    rw [List.foldl_cons, hline, hrest, List.flatten_cons, ← List.append_assoc]

/-- The header of a mail is read line by line, and what is behind it becomes the body. -/
theorem foldl_line {ls : List (List UInt8)} (h : ∀ l ∈ ls, l ≠ []) (text : List (List UInt8))
    {mail : Received} (hin : mail.inheader = true) :
    (ls.map (· ++ ['\n'.toUInt8]) ++ ['\n'.toUInt8] :: text).foldl Received.line mail =
      { (ls.map (· ++ ['\n'.toUInt8])).foldl Received.header mail with
        inheader := false
        body := mail.body ++ '\n'.toUInt8 :: text.flatten } := by
  induction ls generalizing mail with
  | nil =>
    have hblank : mail.line ['\n'.toUInt8] =
        { mail with inheader := false, body := mail.body ++ ['\n'.toUInt8] } := by
      have hnone : mail.header ['\n'.toUInt8] = { mail with inheader := false } := rfl
      rw [Received.line, if_pos hin, hnone]
      rfl
    rw [List.map_nil, List.nil_append, List.foldl_cons, hblank, foldl_body text rfl, List.append_assoc]
    rfl
  | cons l ls ih =>
    have hl := h l (List.mem_cons_self ..)
    obtain ⟨hkeep, hbody⟩ := header_inheader hl mail
    have hline : mail.line (l ++ ['\n'.toUInt8]) = mail.header (l ++ ['\n'.toUInt8]) := by
      rw [Received.line, if_pos hin]
      simp [hkeep, hin]
    rw [List.map_cons, List.cons_append, List.foldl_cons, hline,
      ih (fun m hm => h m (List.mem_cons_of_mem _ hm)) (hkeep.trans hin), hbody]
    rfl

theorem lines_front {ls : List (List UInt8)} (h : ∀ l ∈ ls, '\n'.toUInt8 ∉ l) (text : List UInt8) :
    Lines.lines '\n'.toUInt8 (ls.flatMap (· ++ ['\n'.toUInt8]) ++ text) =
      ls.map (· ++ ['\n'.toUInt8]) ++ Lines.lines '\n'.toUInt8 text := by
  induction ls with
  | nil => rfl
  | cons l ls ih =>
    rw [List.flatMap_cons, List.append_assoc, List.append_assoc, List.singleton_append,
      Lines.lines_line (h l (List.mem_cons_self ..)), ih fun m hm => h m (List.mem_cons_of_mem _ hm)]
    rfl

theorem readMail_lines {ls : List (List UInt8)} (h : ∀ l ∈ ls, l ≠ [] ∧ '\n'.toUInt8 ∉ l)
    (text : List UInt8) :
    let mail := (ls.map (· ++ ['\n'.toUInt8])).foldl Received.header ⟨true, [], [], [], [], []⟩
    let read := readMail (ls.flatMap (· ++ ['\n'.toUInt8]) ++ '\n'.toUInt8 :: text)
    read.subject = mail.subject ∧ read.seenby = mail.seenby ∧ read.body = '\n'.toUInt8 :: text := by
  intro mail read
  have hlines : Lines.lines '\n'.toUInt8 (ls.flatMap (· ++ ['\n'.toUInt8]) ++ '\n'.toUInt8 :: text) =
      ls.map (· ++ ['\n'.toUInt8]) ++ ['\n'.toUInt8] :: Lines.lines '\n'.toUInt8 text := by
    rw [lines_front fun l hl => (h l hl).2]
    exact congrArg _ (Lines.lines_line List.not_mem_nil text)
  have hfold := foldl_line (fun l hl => (h l hl).1) (Lines.lines '\n'.toUInt8 text)
    (rfl : (⟨true, [], [], [], [], []⟩ : Received).inheader = true)
  have hread : read = readMail (ls.flatMap (· ++ ['\n'.toUInt8]) ++ '\n'.toUInt8 :: text) := rfl
  rw [Lines.flatten_lines] at hfold
  rw [readMail, hlines, hfold] at hread
  rw [hread]
  dsimp only
  split_ifs
  · exact ⟨rfl, rfl, rfl⟩
  · exact ⟨rfl, rfl, rfl⟩

/-! ## The mails between sites -/

theorem neutralLine_of_head {l : List UInt8} {c : UInt8} (h : l.head? = some c)
    (hs : tolower c ≠ 's'.toUInt8) (hx : tolower c ≠ 'x'.toUInt8) (hl : '\n'.toUInt8 ∉ l) :
    NeutralLine l where
  nonempty := by
    rintro rfl
    cases h
  line := hl
  neutral := by
    refine neutral_of_head ?_ hs hx
    rw [List.head?_append, h]
    rfl

theorem foldl_neutral {ls : List (List UInt8)} (h : ∀ l ∈ ls, NeutralLine l) (mail : Received) :
    ((ls.map (· ++ ['\n'.toUInt8])).foldl Received.header mail).subject = mail.subject ∧
      ((ls.map (· ++ ['\n'.toUInt8])).foldl Received.header mail).seenby = mail.seenby := by
  induction ls generalizing mail with
  | nil => exact ⟨rfl, rfl⟩
  | cons l ls ih =>
    have hl := h l (List.mem_cons_self ..)
    obtain ⟨hsubject, hseenby⟩ := hl.neutral.header hl.nonempty mail
    obtain ⟨hsubject', hseenby'⟩ := ih (fun m hm => h m (List.mem_cons_of_mem _ hm))
      (mail.header (l ++ ['\n'.toUInt8]))
    exact ⟨hsubject'.trans hsubject, hseenby'.trans hseenby⟩

theorem foldl_sent {sites : List (List UInt8)} (h : ∀ site ∈ sites, Plain site) (mail : Received) :
    ((sites.map (ascii "X-KeyServer-Sent: " ++ ·)).map (· ++ ['\n'.toUInt8])).foldl Received.header mail =
      { mail with seenby := sites.foldl addSeen mail.seenby } := by
  induction sites generalizing mail with
  | nil => rfl
  | cons site sites ih =>
    have hline : mail.header (ascii "X-KeyServer-Sent: " ++ site ++ ['\n'.toUInt8]) =
        { mail with seenby := addSeen mail.seenby site } :=
      header_sent (by decide : (ascii "X-KeyServer-Sent:").map tolower = _)
        (h site (List.mem_cons_self ..)) mail
    rw [List.map_cons, List.map_cons, List.foldl_cons, hline,
      ih fun other hother => h other (List.mem_cons_of_mem _ hother)]
    rfl

/-- What the lines of a header come to, if only those in the middle say what the mail is about and where
it has been. -/
theorem foldl_sync {first last : List (List UInt8)} (hfirst : ∀ l ∈ first, NeutralLine l)
    (hlast : ∀ l ∈ last, NeutralLine l) {sent thissite : List UInt8} {seenby : List (List UInt8)}
    (hlower : sent.map tolower = (ascii "X-KeyServer-Sent" ++ ascii ":").map tolower)
    (hseenby : ∀ site ∈ seenby, Plain site) (hthis : Plain thissite) (start : Received) :
    let mail := ((first ++ (ascii "Subject: incremental" ::
      (seenby.map (ascii "X-KeyServer-Sent: " ++ ·) ++ (sent ++ ' '.toUInt8 :: thissite) :: last))).map
        (· ++ ['\n'.toUInt8])).foldl Received.header start
    mail.subject = ascii "incremental" ∧
      ∀ site, site ∈ mail.seenby ↔ site ∈ start.seenby ∨ site ∈ seenby ++ [thissite] := by
  intro mail
  obtain ⟨-, hstart⟩ := foldl_neutral hfirst start
  generalize hm : (first.map (· ++ ['\n'.toUInt8])).foldl Received.header start = front at hstart
  have hsubject : front.header (ascii "Subject: incremental" ++ ['\n'.toUInt8]) =
      { front with subject := ascii "incremental" } := by
    have hplain : Plain (ascii "incremental") := by
      refine ⟨by decide, fun c hc => ?_⟩
      obtain rfl := Option.some.inj hc
      decide
    have htext : ascii "Subject: incremental" =
        ascii "Subject:" ++ ' '.toUInt8 :: ascii "incremental" := rfl
    rw [htext, header_subject hplain]
  set sofar : Received :=
    { front with
      subject := ascii "incremental"
      seenby := addSeen (seenby.foldl addSeen front.seenby) thissite } with hsofar
  have hmail : mail = (last.map (· ++ ['\n'.toUInt8])).foldl Received.header sofar := by
    show List.foldl _ _ _ = _
    rw [List.map_append, List.foldl_append, hm, List.map_cons, List.foldl_cons, hsubject,
      List.map_append, List.foldl_append, foldl_sent hseenby, List.map_cons, List.foldl_cons,
      header_sent hlower hthis]
  obtain ⟨hsubjectlast, hseenlast⟩ := foldl_neutral hlast sofar
  rw [hmail, hsubjectlast, hseenlast]
  refine ⟨rfl, fun site => ?_⟩
  rw [hsofar]
  show site ∈ addSeen (seenby.foldl addSeen front.seenby) thissite ↔ _
  rw [mem_addSeen, mem_foldl_addSeen, hstart, List.mem_append, List.mem_singleton, or_assoc]

/-- The header lines of a mail between sites. `sent` is the name that this site is sent with. -/
def syncHeader (sender recipients sent : List UInt8) (seenby : List (List UInt8))
    (thissite : List UInt8) : List (List UInt8) :=
  [ascii "From: " ++ sender, ascii "To: " ++ recipients] ++
    (ascii "Subject: incremental" :: (seenby.map (ascii "X-KeyServer-Sent: " ++ ·) ++
      (sent ++ ' '.toUInt8 :: thissite) ::
        [ascii "Precedence: list", ascii "MIME-Version: 1.0",
          ascii "Content-Type: application/pgp-keys"]))

/-- What a site reads from a mail of another. -/
structure ReadAs (text : List UInt8) (seenby : List (List UInt8)) (update : List UInt8) : Prop where
  isUpdate : (readMail text).isUpdate = true
  seenby : ∀ site, site ∈ (readMail text).seenby ↔ site ∈ seenby
  body : (readMail text).body = '\n'.toUInt8 :: update

theorem readAs_syncHeader {sender recipients sent thissite : List UInt8} {seenby : List (List UInt8)}
    (hsender : '\n'.toUInt8 ∉ sender) (hrecipients : '\n'.toUInt8 ∉ recipients)
    (hsent : sent = ascii "X-KeyServer-Sent:" ∨ sent = ascii "X-Keyserver-Sent:")
    (hseenby : ∀ site ∈ seenby, Plain site) (hthis : Plain thissite) (update : List UInt8) :
    ReadAs ((syncHeader sender recipients sent seenby thissite).flatMap (· ++ ['\n'.toUInt8]) ++
      '\n'.toUInt8 :: update) (seenby ++ [thissite]) update := by
  have hfirst : ∀ l ∈ [ascii "From: " ++ sender, ascii "To: " ++ recipients], NeutralLine l := by
    intro l hl
    simp only [List.mem_cons, List.not_mem_nil, or_false] at hl
    have hfrom : '\n'.toUInt8 ∉ ascii "From: " := by decide
    have hto : '\n'.toUInt8 ∉ ascii "To: " := by decide
    obtain rfl | rfl := hl
    · refine neutralLine_of_head (c := 'F'.toUInt8) rfl (by decide) (by decide) ?_
      rw [List.mem_append, not_or]
      exact ⟨hfrom, hsender⟩
    · refine neutralLine_of_head (c := 'T'.toUInt8) rfl (by decide) (by decide) ?_
      rw [List.mem_append, not_or]
      exact ⟨hto, hrecipients⟩
  have hlast : ∀ l ∈ [ascii "Precedence: list", ascii "MIME-Version: 1.0",
      ascii "Content-Type: application/pgp-keys"], NeutralLine l := by
    intro l hl
    simp only [List.mem_cons, List.not_mem_nil, or_false] at hl
    obtain rfl | rfl | rfl := hl
    · exact neutralLine_of_head (c := 'P'.toUInt8) rfl (by decide) (by decide) (by decide)
    · exact neutralLine_of_head (c := 'M'.toUInt8) rfl (by decide) (by decide) (by decide)
    · exact neutralLine_of_head (c := 'C'.toUInt8) rfl (by decide) (by decide) (by decide)
  have hlower : sent.map tolower = (ascii "X-KeyServer-Sent" ++ ascii ":").map tolower := by
    obtain rfl | rfl := hsent
    · decide
    · decide
  have hnosent : '\n'.toUInt8 ∉ sent := by
    obtain rfl | rfl := hsent
    · decide
    · decide
  rw [syncHeader]
  generalize [ascii "From: " ++ sender, ascii "To: " ++ recipients] = first at hfirst
  generalize [ascii "Precedence: list", ascii "MIME-Version: 1.0",
    ascii "Content-Type: application/pgp-keys"] = last at hlast
  have hall : ∀ l ∈ first ++ (ascii "Subject: incremental" ::
      (seenby.map (ascii "X-KeyServer-Sent: " ++ ·) ++ (sent ++ ' '.toUInt8 :: thissite) :: last)),
      l ≠ [] ∧ '\n'.toUInt8 ∉ l := by
    intro l hl
    rcases List.mem_append.mp hl with hl | hl
    · exact ⟨(hfirst l hl).nonempty, (hfirst l hl).line⟩
    rcases List.mem_cons.mp hl with rfl | hl
    · decide
    rcases List.mem_append.mp hl with hl | hl
    · obtain ⟨site, hsite, rfl⟩ := List.mem_map.mp hl
      have hname : '\n'.toUInt8 ∉ ascii "X-KeyServer-Sent: " := by decide
      refine ⟨by simp [ascii], ?_⟩
      rw [List.mem_append, not_or]
      exact ⟨hname, (hseenby site hsite).line⟩
    · rcases List.mem_cons.mp hl with rfl | hl
      · refine ⟨by simp, ?_⟩
        simp only [List.mem_append, List.mem_cons, not_or]
        exact ⟨hnosent, by decide, hthis.line⟩
      · exact ⟨(hlast l hl).nonempty, (hlast l hl).line⟩
  obtain ⟨hsubject, hseen, hbody⟩ := readMail_lines hall update
  obtain ⟨hincremental, hsites⟩ := foldl_sync hfirst hlast hlower hseenby hthis
    ⟨true, [], [], [], [], []⟩
  refine ⟨?_, fun site => ?_, hbody⟩
  · rw [Received.isUpdate, hsubject, hincremental]
    decide
  · rw [hseen, hsites]
    simp

theorem newline_notMem_commas {sites : List (List UInt8)} (h : ∀ site ∈ sites, '\n'.toUInt8 ∉ site) :
    '\n'.toUInt8 ∉ commas sites := by
  unfold commas
  induction sites with
  | nil => decide
  | cons site sites ih =>
    have hsite := h site (List.mem_cons_self ..)
    have hrest := ih fun other hother => h other (List.mem_cons_of_mem _ hother)
    cases sites with
    | nil => rwa [List.intercalate_singleton]
    | cons other sites =>
      have hcomma : '\n'.toUInt8 ∉ ascii ", " := by decide
      rw [List.intercalate_cons_cons, List.mem_append, List.mem_append]
      tauto

theorem sendkeysync_text {config : Conf.Config} {keys : List PublicKey} {mail : Outgoing}
    (h : sendkeysync config keys = some mail) :
    mail.recipients = config.syncsites ∧
      mail.text = (syncHeader (printed (config.text .adminemail)) (commas config.syncsites)
        (ascii "X-Keyserver-Sent:") [] (printed (config.text .thissite))).flatMap
          (· ++ ['\n'.toUInt8]) ++ '\n'.toUInt8 :: armorOpenpgpStream (flattenPublickey keys) := by
  unfold sendkeysync at h
  split_ifs at h
  obtain rfl := Option.some.inj h
  refine ⟨rfl, ?_⟩
  have hsubject : ascii "Subject: incremental\n" = ascii "Subject: incremental" ++ ['\n'.toUInt8] := rfl
  have hsent : ascii "X-Keyserver-Sent: " = ascii "X-Keyserver-Sent:" ++ [' '.toUInt8] := rfl
  have hlist : ascii "Precedence: list\n" = ascii "Precedence: list" ++ ['\n'.toUInt8] := rfl
  have hversion : ascii "MIME-Version: 1.0\n" = ascii "MIME-Version: 1.0" ++ ['\n'.toUInt8] := rfl
  have htype : ascii "Content-Type: application/pgp-keys\n\n" =
      ascii "Content-Type: application/pgp-keys" ++ ['\n'.toUInt8, '\n'.toUInt8] := rfl
  have hnewline : ascii "\n" = ['\n'.toUInt8] := rfl
  simp only [syncHeader, List.map_nil, List.nil_append, List.cons_append, List.flatMap_cons,
    List.flatMap_nil, List.append_nil, List.append_assoc, hsubject, hsent, hlist, hversion, htype,
    hnewline]

theorem syncmail_text (config : MailConfig) (seenby : List (List UInt8)) (newupdate : List UInt8) :
    (syncmail config seenby newupdate).text =
      (syncHeader ((config.text .adminemail).getD []) (commas (config.unseen seenby))
        (ascii "X-KeyServer-Sent:") seenby ((config.text .thissite).getD [])).flatMap
          (· ++ ['\n'.toUInt8]) ++ '\n'.toUInt8 :: newupdate := by
  have hsubject : ascii "Subject: incremental\n" = ascii "Subject: incremental" ++ ['\n'.toUInt8] := rfl
  have hsent : ascii "X-KeyServer-Sent: " = ascii "X-KeyServer-Sent:" ++ [' '.toUInt8] := rfl
  have hlist : ascii "Precedence: list\n" = ascii "Precedence: list" ++ ['\n'.toUInt8] := rfl
  have hversion : ascii "MIME-Version: 1.0\n" = ascii "MIME-Version: 1.0" ++ ['\n'.toUInt8] := rfl
  have htype : ascii "Content-Type: application/pgp-keys\n" =
      ascii "Content-Type: application/pgp-keys" ++ ['\n'.toUInt8] := rfl
  have hnewline : ascii "\n" = ['\n'.toUInt8] := rfl
  simp only [syncmail, syncHeader, List.nil_append, List.cons_append, List.flatMap_cons,
    List.flatMap_append, List.flatMap_map, List.flatMap_nil, List.append_nil, List.append_assoc,
    hsubject, hsent, hlist, hversion, htype, hnewline]

/-! ## Mails on their way -/

/-- Two mails that differ at most in whom the answer goes to. -/
structure SameNews (mail mail' : Received) : Prop where
  inheader : mail.inheader = mail'.inheader
  subject : mail.subject = mail'.subject
  seenby : mail.seenby = mail'.seenby
  body : mail.body = mail'.body

theorem SameNews.refl (mail : Received) : SameNews mail mail := ⟨rfl, rfl, rfl, rfl⟩

theorem SameNews.symm {mail mail' : Received} (h : SameNews mail mail') : SameNews mail' mail :=
  ⟨h.inheader.symm, h.subject.symm, h.seenby.symm, h.body.symm⟩

theorem SameNews.trans {mail mail' mail'' : Received} (h : SameNews mail mail')
    (h' : SameNews mail' mail'') : SameNews mail mail'' :=
  ⟨h.inheader.trans h'.inheader, h.subject.trans h'.subject, h.seenby.trans h'.seenby,
    h.body.trans h'.body⟩

theorem SameNews.header {mail mail' : Received} (h : SameNews mail mail') (line : List UInt8) :
    SameNews (mail.header line) (mail'.header line) := by
  unfold Received.header
  cases matchHeader "Subject" line with
  | some subject => exact ⟨h.inheader, rfl, h.seenby, h.body⟩
  | none =>
    cases matchHeader "X-KeyServer-Sent" line with
    | some site => exact ⟨h.inheader, h.subject, by rw [h.seenby], h.body⟩
    | none =>
      cases matchHeader "From" line with
      | some sender => exact ⟨h.inheader, h.subject, h.seenby, h.body⟩
      | none =>
        cases matchHeader "Reply-To" line with
        | some replyto => exact ⟨h.inheader, h.subject, h.seenby, h.body⟩
        | none =>
          dsimp only
          split_ifs
          · exact ⟨rfl, h.subject, h.seenby, h.body⟩
          · exact h

theorem SameNews.line {mail mail' : Received} (h : SameNews mail mail') (line : List UInt8) :
    SameNews (mail.line line) (mail'.line line) := by
  -- first what the line says, then whether it belongs to the body
  have hread : SameNews (if mail.inheader then mail.header line else mail)
      (if mail'.inheader then mail'.header line else mail') := by
    rw [h.inheader]
    split_ifs
    · exact h.header line
    · exact h
  unfold Received.line
  dsimp only
  generalize (if mail.inheader then mail.header line else mail) = read at hread ⊢
  generalize (if mail'.inheader then mail'.header line else mail') = read' at hread ⊢
  rw [hread.inheader]
  split_ifs
  · exact hread
  · exact ⟨rfl, hread.subject, hread.seenby, by rw [hread.body]⟩

theorem SameNews.foldl {mail mail' : Received} (h : SameNews mail mail') (text : List (List UInt8)) :
    SameNews (text.foldl Received.line mail) (text.foldl Received.line mail') := by
  induction text generalizing mail mail' with
  | nil => exact h
  | cons line text ih => exact ih (h.line line)

theorem SameNews.isUpdate {mail mail' : Received} (h : SameNews mail mail') :
    mail.isUpdate = mail'.isUpdate := by rw [Received.isUpdate, Received.isUpdate, h.subject]

theorem NeutralLine.sameNews {l : List UInt8} (hl : NeutralLine l) {mail : Received}
    (h : mail.inheader = true) : SameNews (mail.line (l ++ ['\n'.toUInt8])) mail := by
  obtain ⟨hinheader, hbody⟩ := header_inheader hl.nonempty mail
  obtain ⟨hsubject, hseenby⟩ := hl.neutral.header hl.nonempty mail
  have hline : mail.line (l ++ ['\n'.toUInt8]) = mail.header (l ++ ['\n'.toUInt8]) := by
    rw [Received.line, if_pos h]
    simp [hinheader, h]
  rw [hline]
  exact ⟨hinheader, hsubject, hseenby, hbody⟩

theorem sameNews_front {front : List (List UInt8)} (hfront : ∀ l ∈ front, NeutralLine l)
    {mail : Received} (h : mail.inheader = true) :
    SameNews ((front.map (· ++ ['\n'.toUInt8])).foldl Received.line mail) mail := by
  induction front generalizing mail with
  | nil => exact .refl mail
  | cons l front ih =>
    have hl := (hfront l (List.mem_cons_self ..)).sameNews h
    exact (ih (fun m hm => hfront m (List.mem_cons_of_mem _ hm)) (hl.inheader.trans h)).trans hl

theorem sameNews_readMail (text : List UInt8) :
    SameNews (readMail text)
      ((Lines.lines '\n'.toUInt8 text).foldl Received.line ⟨true, [], [], [], [], []⟩) := by
  unfold readMail
  dsimp only
  split_ifs
  · exact ⟨rfl, rfl, rfl, rfl⟩
  · exact .refl _

/-- Header lines that are put in front on the way change nothing. -/
theorem Arrives.sameNews {sent received : List UInt8} (h : Arrives sent received) :
    SameNews (readMail received) (readMail sent) := by
  obtain ⟨front, hfront, rfl⟩ := h
  have hread := sameNews_readMail (front.flatMap (· ++ ['\n'.toUInt8]) ++ sent)
  rw [lines_front fun l hl => (hfront l hl).line, List.foldl_append] at hread
  exact hread.trans (((sameNews_front hfront rfl).foldl _).trans (sameNews_readMail sent).symm)

/-- The names that a mail has are values of header lines. -/
theorem matchHeader_plain {name : String} {line value : List UInt8}
    (h : matchHeader name line = some value) : Plain value := by
  unfold matchHeader at h
  dsimp only at h
  split_ifs at h
  obtain rfl := Option.some.inj h
  exact plain_dots _

theorem plain_header {mail : Received} (h : ∀ site ∈ mail.seenby, Plain site) (line : List UInt8) :
    ∀ site ∈ (mail.header line).seenby, Plain site := by
  unfold Received.header
  cases matchHeader "Subject" line with
  | some subject => exact h
  | none =>
    cases hsent : matchHeader "X-KeyServer-Sent" line with
    | some other =>
      intro site hsite
      rcases mem_addSeen.mp hsite with hsite | rfl
      · exact h site hsite
      · exact matchHeader_plain hsent
    | none =>
      cases matchHeader "From" line with
      | some sender => exact h
      | none =>
        cases matchHeader "Reply-To" line with
        | some replyto => exact h
        | none =>
          dsimp only
          split_ifs <;> exact h

theorem plain_line {mail : Received} (h : ∀ site ∈ mail.seenby, Plain site) (line : List UInt8) :
    ∀ site ∈ (mail.line line).seenby, Plain site := by
  unfold Received.line
  dsimp only
  split_ifs
  all_goals first | exact plain_header h line | exact h

theorem plain_seenby (text : List UInt8) : ∀ site ∈ (readMail text).seenby, Plain site := by
  have hfold : ∀ (ls : List (List UInt8)) (mail : Received), (∀ site ∈ mail.seenby, Plain site) →
      ∀ site ∈ (ls.foldl Received.line mail).seenby, Plain site := by
    intro ls
    induction ls with
    | nil => exact fun mail h => h
    | cons line ls ih => exact fun mail h => ih _ (plain_line h line)
  rw [(sameNews_readMail text).seenby]
  exact hfold _ _ fun site hsite => absurd hsite List.not_mem_nil

/-! ## What comes out of a mail -/

theorem mem_unseen {config : MailConfig} {seenby : List (List UInt8)} {name : List UInt8} :
    name ∈ config.unseen seenby ↔ name ∈ config.syncsites ∧ name ∉ seenby := by
  rw [MailConfig.unseen, List.mem_filter, Bool.not_eq_true', ← Bool.not_eq_true,
    List.contains_iff_mem]

theorem dearmoredPackets_newline (past : List Packet → UInt8) (text : List UInt8) :
    dearmoredPackets past ('\n'.toUInt8 :: text) = dearmoredPackets past text := by
  have hfind : findHeader .dashes 0 ('\n'.toUInt8 :: text) = findHeader .dashes 0 text := rfl
  obtain ⟨r, hr⟩ := dearmorOpenpgpStream_ends past text []
  have hr' : dearmorOpenpgpStream past (text.length + 3) ('\n'.toUInt8 :: text) [] = some r := by
    rw [← hr]
    unfold dearmorOpenpgpStream
    rw [hfind]
  rw [dearmoredPackets_eq hr', dearmoredPackets_eq hr]

/-- The keys of a mail that has been read. -/
theorem ReadAs.dearmoredKeys {text : List UInt8} {seenby : List (List UInt8)} {keys : List PublicKey}
    (h : ReadAs text seenby (armorOpenpgpStream (flattenPublickey keys)))
    (hkeys : ∀ key ∈ keys, Sendable key) (memory : Memory) :
    Cgi.dearmoredKeys memory (readMail text).body = keys.map reread := by
  have hparse := Hkp.parseKeys_armored hkeys memory [] []
  rw [List.append_nil] at hparse
  rw [Cgi.dearmoredKeys, h.body, dearmoredPackets_newline, hparse]
  rfl

end Onak.Mail
