import Onak.Lib.Gossip
import Onak.Proofs.CleanOriginProofs
import Onak.Proofs.HkpFetchProofs
import Onak.Proofs.SyncMailProofs

/-!
# Proofs: keyservers that exchange updates

What a mail between sites says wherever it has been, what does not get to the peers, and that the
mails die out.
-/

namespace Onak.Mail

open Print
open Conf (isspace)
open Socket (Memory Sendable sampleAl_sendable)

section

variable (H : Hashes) (g : Stale) (C : SigCheck) {ι : Type} (site : ι → Site)

/-! ## What a mail says -/

theorem processmail_sent {i : ι} {order : List (List UInt8) → List (List UInt8)}
    {db : (site i).B.DB} {mail : Received} {out : Outgoing}
    (h : (processmailAt H g C site i order db mail).2 = some out) :
    out = syncmail (site i).mailConfig (order mail.seenby)
      (armorOpenpgpStream (flattenPublickey (updatedAt H g C site i db mail).keys)) := by
  unfold processmailAt processmail onakAdd at h
  dsimp only at h
  split_ifs at h with hupdate hpackets hnone hkeys hnone' hnone''
  · exact absurd (.inl rfl) hnone
  · exact (Option.some.inj h).symm
  · exact absurd (.inl rfl) hnone''

/-- A mail that is sent on names the sites of the one that was got, and this site too. -/
theorem readAs_syncmail (i : ι) {seenby : List (List UInt8)} (hplain : ∀ name ∈ seenby, Plain name)
    (update : List UInt8) :
    ReadAs (syncmail (site i).mailConfig seenby update).text (seenby ++ [(site i).address]) update := by
  have hsites : ∀ name ∈ (site i).mailConfig.unseen seenby, '\n'.toUInt8 ∉ name := by
    intro name hname
    exact (site i).oneLine name (((site i).syncsites name).mp (mem_unseen.mp hname).1)
  have hread := readAs_syncHeader (site i).mailAdminemail (newline_notMem_commas hsites)
    (.inl rfl) hplain (site i).plain update
  rwa [syncmail_text, (site i).mailThissite, Option.getD_some]

theorem readAs_sendkeysync {i : ι} {keys : List PublicKey} {mail : Outgoing}
    (h : sendkeysync (site i).config keys = some mail) :
    ReadAs mail.text [(site i).address] (armorOpenpgpStream (flattenPublickey keys)) := by
  obtain ⟨-, htext⟩ := sendkeysync_text h
  have hread := readAs_syncHeader (site i).adminemail (newline_notMem_commas (site i).oneLine)
    (.inr rfl) (fun name hname => absurd hname List.not_mem_nil) (site i).plain
    (armorOpenpgpStream (flattenPublickey keys))
  rw [htext, (site i).thissite]
  exact hread

theorem cgiAdd_sent {i : ι} {db : (site i).B.DB} {text : List UInt8} {mail : Outgoing}
    (h : (cgiAddAt H g C site i db text).2 = some mail) :
    sendkeysync (site i).config (addedAt H g C site i db text).sync = some mail := by
  unfold cgiAddAt cgiAdd at h
  dsimp only at h
  split_ifs at h with hpackets hsync
  exact h

theorem ReadAs.arrives {sent received update : List UInt8} {seenby : List (List UInt8)}
    (h : ReadAs sent seenby update) (harrives : Arrives sent received) :
    ReadAs received seenby update where
  isUpdate := harrives.sameNews.isUpdate.trans h.isUpdate
  seenby := by
    intro name
    rw [harrives.sameNews.seenby]
    exact h.seenby name
  body := harrives.sameNews.body.trans h.body

theorem ReadAs.congr {text update : List UInt8} {seenby seenby' : List (List UInt8)}
    (h : ReadAs text seenby update) (heq : ∀ name, name ∈ seenby ↔ name ∈ seenby') :
    ReadAs text seenby' update :=
  ⟨h.isUpdate, fun name => (h.seenby name).trans (heq name), h.body⟩

variable {H g C site}

/-- Every mail names the sites of its path. -/
theorem SentVia.readAs {path : List ι} {mail : Outgoing} {keys : List PublicKey}
    (h : SentVia H g C site path mail keys) :
    ReadAs mail.text (path.map fun i => (site i).address)
      (armorOpenpgpStream (flattenPublickey keys)) := by
  induction h with
  | add i db text mail hmail => exact readAs_sendkeysync site (cgiAdd_sent H g C site hmail)
  | pass path sent keys _ i _ received harrives order horder db mail hmail ih =>
    have hseenby := (ih.arrives harrives).seenby
    have hplain : ∀ name ∈ order (readMail received).seenby, Plain name := by
      intro name hname
      exact plain_seenby received name ((horder _).mem_iff.mp hname)
    rw [processmail_sent H g C site hmail]
    refine (readAs_syncmail site i hplain _).congr fun name => ?_
    rw [List.map_append, List.mem_append, List.mem_append, (horder _).mem_iff, hseenby]
    rfl

/-- No mail goes to a site that it has passed before the last one. -/
theorem SentVia.recipients {path : List ι} {mail : Outgoing} {keys : List PublicKey}
    (h : SentVia H g C site path mail keys)
    (hself : ∀ i, (site i).address ∉ (site i).config.syncsites) :
    ∀ i ∈ path, (site i).address ∉ mail.recipients := by
  cases h with
  | add i db text mail hmail =>
    obtain ⟨hrecipients, -⟩ := sendkeysync_text (cgiAdd_sent H g C site hmail)
    intro j hj
    rw [List.mem_singleton.mp hj, hrecipients]
    exact hself i
  | pass path sent keys h i _ received harrives order horder db mail hmail =>
    rw [processmail_sent H g C site hmail]
    intro j hj hmem
    obtain ⟨hpeer, hunseen⟩ := mem_unseen.mp hmem
    rcases List.mem_append.mp hj with hj | hj
    · refine hunseen ?_
      rw [(horder _).mem_iff, (h.readAs.arrives harrives).seenby]
      exact List.mem_map_of_mem hj
    · rw [List.mem_singleton.mp hj, (site i).syncsites] at hpeer
      exact hself i hpeer

theorem SentVia.nodup {path : List ι} {mail : Outgoing} {keys : List PublicKey}
    (h : SentVia H g C site path mail keys)
    (hself : ∀ i, (site i).address ∉ (site i).config.syncsites) : path.Nodup := by
  induction h with
  | add i db text mail hmail => exact List.nodup_singleton i
  | pass path sent keys h i hto received harrives order horder db mail hmail ih =>
    refine List.nodup_append.mpr ⟨ih, List.nodup_singleton i, fun j hj j' hj' => ?_⟩
    rw [List.mem_singleton.mp hj']
    rintro rfl
    exact h.recipients hself j hj hto

/-- **What goes from site to site.** A mail that began at a form is an update wherever it arrives and
whatever header lines it gets on its way. It names the sites that it has passed and no others, brings
the keys that the last of them sent, and has passed no site twice where no site is a peer of its own. -/
theorem sentVia_arrives {path : List ι} {mail : Outgoing} {keys : List PublicKey}
    (h : SentVia H g C site path mail keys) {received : List UInt8}
    (harrives : Arrives mail.text received) :
    (readMail received).isUpdate = true ∧
      (∀ name, name ∈ (readMail received).seenby ↔ ∃ i ∈ path, (site i).address = name) ∧
      ((∀ key ∈ keys, Sendable key) →
        ∀ memory, Cgi.dearmoredKeys memory (readMail received).body = keys.map reread) ∧
      ((∀ i, (site i).address ∉ (site i).config.syncsites) → path.Nodup) := by
  have hread := h.readAs.arrives harrives
  refine ⟨hread.isUpdate, fun name => ?_, hread.dearmoredKeys, h.nodup⟩
  rw [hread.seenby, List.mem_map]

end

/-! ## Updates without user ids -/

section

variable {H : Hashes} {g : Stale} {C : SigCheck} {ι : Type} {site : ι → Site}

/-- Cleaning leaves nothing of keys without user ids. -/
theorem cleankeys_noUids {D : Lookups} {policies : Policies} {keys : List PublicKey}
    (h : ∀ key ∈ keys, key.uids = []) : (cleankeys H g C D policies keys).1 = [] := by
  rw [List.eq_nil_iff_forall_not_mem]
  intro k hk
  obtain ⟨key, hkey, -, rfl, huids⟩ := mem_cleankeys.mp hk
  have hstems := (stemsFrom_cleanKey H g C D policies key).uids
  rw [h key hkey] at hstems
  obtain ⟨sp, hsp⟩ := List.exists_mem_of_ne_nil _ huids
  obtain ⟨⟨o, ho, -⟩, -⟩ := hstems sp hsp
  exact absurd ho List.not_mem_nil

theorem addKeys_noUids {B : Backend} {D : B.DB → Lookups} {config : Conf.Config} {sendsync : Bool}
    {db : B.DB} {keys : List PublicKey} (h : ∀ key ∈ keys, key.uids = []) :
    addKeys H g C D config sendsync db keys = ⟨db, [], 0, []⟩ := by
  rw [addKeys, cleankeys_noUids h, genericUpdateKeys]
  cases sendsync with
  | true => rfl
  | false => rfl

/-- **What has no user id does not get to the peers.** When the keys that are sent have no user ids,
because only subkeys or signatures of the keys themselves were new, a site that gets the mail drops
them: its database stays as it is, and nothing is sent on. -/
theorem update_without_uids {path : List ι} {mail : Outgoing} {keys : List PublicKey}
    (h : SentVia H g C site path mail keys) (hsend : ∀ key ∈ keys, Sendable key)
    (huids : ∀ key ∈ keys, key.uids = []) {received : List UInt8}
    (harrives : Arrives mail.text received) (i : ι)
    (order : List (List UInt8) → List (List UInt8)) (db : (site i).B.DB) :
    processmailAt H g C site i order db (readMail received) = (db, none) := by
  have hkeys := (h.readAs.arrives harrives).dearmoredKeys hsend (site i).memory
  have hnone : ∀ key ∈ keys.map reread, key.uids = [] := by
    intro key hkey
    obtain ⟨key', hkey', rfl⟩ := List.mem_map.mp hkey
    exact huids key' hkey'
  have hadd : onakAdd H g C (site i).D (site i).config (site i).memory true db
      (readMail received).body = (db, []) := by
    unfold onakAdd
    rw [hkeys, addKeys_noUids hnone]
    split_ifs with hpackets
    · rfl
    · rfl
  unfold processmailAt processmail
  rw [hadd]
  cases (readMail received).isUpdate with
  | false => rfl
  | true => exact congrArg (Prod.mk db) (if_pos (.inl rfl))

end

/-! ## The mails die out -/

section

variable {H : Hashes} {g : Stale} {C : SigCheck} {ι : Type} [Fintype ι] [DecidableEq ι]
  {site : ι → Site}

/-- Where a mail goes, and the sites that it names. -/
noncomputable def post (site : ι → Site) : Gossip.Post ι (List UInt8 × List UInt8) where
  dest mail := Function.partialInv (fun i => (site i).address) mail.1
  seen mail := Finset.univ.filter fun i => (readMail mail.2).seenby.contains (site i).address

omit [DecidableEq ι] in
theorem mem_seen {mail : List UInt8 × List UInt8} {i : ι} :
    i ∈ (post site).seen mail ↔ (site i).address ∈ (readMail mail.2).seenby := by
  rw [post, Finset.mem_filter, and_iff_right (Finset.mem_univ i), List.contains_iff_mem]

omit [DecidableEq ι] in
theorem dest_iff (haddr : Function.Injective fun i => (site i).address)
    {mail : List UInt8 × List UInt8} {i : ι} :
    (post site).dest mail = some i ↔ (site i).address = mail.1 :=
  haddr.isPartialInv i mail.1

theorem card_posted (mail : Option Outgoing) {k : ℕ} (h : ∀ out ∈ mail, out.recipients.length ≤ k) :
    (posted mail).card ≤ k := by
  cases mail with
  | none => exact Nat.zero_le k
  | some out =>
    rw [posted, Multiset.coe_card, List.length_map]
    exact h out rfl

theorem mem_posted {out : Outgoing} {mail : List UInt8 × List UInt8} :
    mail ∈ posted (some out) ↔ mail.1 ∈ out.recipients ∧ mail.2 = out.text := by
  rw [posted, Multiset.mem_coe, List.mem_map]
  constructor
  · rintro ⟨address, haddress, rfl⟩
    exact ⟨haddress, rfl⟩
  · rintro ⟨haddress, htext⟩
    exact ⟨mail.1, haddress, by rw [← htext]⟩

/-- What a site sends when a mail gets to it. -/
theorem sentOn_processmail (haddr : Function.Injective fun i => (site i).address) {k : ℕ}
    (hk : ∀ i, (site i).mailConfig.syncsites.length ≤ k) (i : ι) {sent received : List UInt8}
    (harrives : Arrives sent received) {order : List (List UInt8) → List (List UInt8)}
    (horder : ∀ l, (order l).Perm l) (db : (site i).B.DB) :
    Gossip.SentOn (post site) k ((site i).address, sent) i
      (posted (processmailAt H g C site i order db (readMail received)).2) := by
  have hseenby : (readMail received).seenby = (readMail sent).seenby := harrives.sameNews.seenby
  have hsent : ∀ j, j ∈ (post site).seen ((site i).address, sent) ↔
      (site j).address ∈ (readMail sent).seenby := fun j => mem_seen
  cases hout : (processmailAt H g C site i order db (readMail received)).2 with
  | none =>
    exact ⟨Nat.zero_le k, fun n hn => absurd hn (Multiset.notMem_zero n),
      fun n hn => absurd hn (Multiset.notMem_zero n)⟩
  | some out =>
    have hsyncmail := processmail_sent H g C site hout
    have hplain : ∀ name ∈ order (readMail received).seenby, Plain name := by
      intro name hname
      exact plain_seenby received name ((horder _).mem_iff.mp hname)
    refine ⟨card_posted _ ?_, fun n hn => ?_, fun n hn j hj => ?_⟩
    · intro out' hout'
      rw [← Option.some.inj hout', hsyncmail]
      exact (List.length_filter_le _ _).trans (hk i)
    · -- the names of the mail that was got, and the one of this site
      obtain ⟨-, htext⟩ := mem_posted.mp hn
      ext j
      rw [mem_seen, Finset.mem_insert, mem_seen, htext, hsyncmail,
        (readAs_syncmail site i hplain _).seenby, List.mem_append, List.mem_singleton,
        (horder _).mem_iff, hseenby, or_comm, haddr.eq_iff]
    · obtain ⟨hto, -⟩ := mem_posted.mp hn
      rw [← (dest_iff haddr).mp hj, hsyncmail] at hto
      have hunseen := (mem_unseen.mp hto).2
      rwa [(horder _).mem_iff, hseenby, ← hsent] at hunseen

/-- A run of the network, as far as the mails go. -/
theorem Run.gossip (haddr : Function.Injective fun i => (site i).address) {k : ℕ} (hpos : 0 < k)
    (hk : ∀ i, (site i).config.syncsites.length ≤ k ∧ (site i).mailConfig.syncsites.length ≤ k)
    {s t : State site} {events : List Event} (h : Run H g C site s events t) :
    Gossip.Run (post site) k s.mails (events.count .add + events.count .write)
      (events.count .deliver) t.mails := by
  induction h with
  | refl => exact .refl
  | @step events u _ _ h hstep ih =>
    cases hstep with
    | add _ i text =>
      have hfew : (posted (cgiAddAt H g C site i (u.db i) text).2).card ≤ k := by
        refine card_posted _ fun out hout => ?_
        obtain ⟨hrecipients, -⟩ := sendkeysync_text (cgiAdd_sent H g C site hout)
        rw [hrecipients]
        exact (hk i).1
      have hrun := ih.submit hfew
      rw [Nat.add_right_comm] at hrun
      simpa [List.count_singleton] using hrun
    | write _ address text =>
      have hfew : ({(address, text)} : Multiset (List UInt8 × List UInt8)).card ≤ k := hpos
      have hrun := ih.submit hfew
      rw [Nat.add_assoc, add_comm _ {(address, text)}, Multiset.singleton_add] at hrun
      simpa [List.count_singleton] using hrun
    | deliver db mails i sent received harrives order horder =>
      have hrun := ih.deliver ((dest_iff haddr).mpr rfl) (sentOn_processmail (H := H) (g := g) (C := C)
        haddr (fun i => (hk i).2) i harrives horder (db i))
      simpa [List.count_singleton] using hrun

/-- **The mails die out.** Whatever texts and mails users send, whatever the databases hold, and in
whatever order the mails arrive: what gets in leads to a bounded number of deliveries. -/
theorem mails_die_out (haddr : Function.Injective fun i => (site i).address) {k : ℕ} (hpos : 0 < k)
    (hk : ∀ i, (site i).config.syncsites.length ≤ k ∧ (site i).mailConfig.syncsites.length ≤ k)
    {s t : State site} {events : List Event} (h : Run H g C site s events t) :
    events.count .deliver ≤
      (s.mails.card + (events.count .add + events.count .write) * k) *
        (k + 1) ^ (2 * Fintype.card ι + 1) := by
  have hrun := (h.gossip haddr hpos hk).deliveries_le
  have hstart := Gossip.sum_le_of_forall_le s.mails (Gossip.weight (post site) k) fun mail _ =>
    Gossip.weight_le (post site) k mail
  rw [Nat.add_mul, Nat.mul_assoc]
  omega

end

/-- The keys that a form gets begin their way. -/
theorem sentVia_add (H : Hashes) (g : Stale) (C : SigCheck) {ι : Type} (site : ι → Site) {i : ι}
    {db : (site i).B.DB} {text : List UInt8} {keys : List PublicKey} {mail : Outgoing}
    (hpackets : dearmoredPackets (site i).memory.packet text ≠ [])
    (hsync : (addedAt H g C site i db text).sync = keys) (hkeys : keys ≠ [])
    (hsent : sendkeysync (site i).config keys = some mail) : SentVia H g C site [i] mail keys := by
  have hmail : (cgiAddAt H g C site i db text).2 = some mail := by
    unfold cgiAddAt cgiAdd
    rw [if_neg hpackets, ← hsent, ← hsync]
    exact if_neg (hsync.symm ▸ hkeys)
  have hvia := SentVia.add i db text mail hmail
  rwa [hsync] at hvia

/-! ## Samples -/

/-- The address of a site. -/
def sampleAddress (i : Fin 2) : List UInt8 := if i = 0 then ascii "a@x" else ascii "b@x"

theorem sampleAddress_plain (i : Fin 2) : Plain (sampleAddress i) := by
  have hall : ∀ i : Fin 2, '\n'.toUInt8 ∉ sampleAddress i ∧
      ∀ c ∈ (sampleAddress i).head?, isspace c = false := by
    set_option maxRecDepth 4000 in decide
  exact ⟨(hall i).1, (hall i).2⟩

theorem no_address : '\n'.toUInt8 ∉ printed none := by decide

/-- Two sites that are peers. -/
def sampleSite (i : Fin 2) : Site where
  B := db4 sampleSksHashes
  D := noLookups
  config :=
    { Conf.fresh with
      text := Function.update Conf.fresh.text .thissite (some (sampleAddress i))
      syncsites := [sampleAddress (1 - i)] }
  mailConfig :=
    ⟨Function.update (fun _ => none) .thissite (some (sampleAddress i)), [sampleAddress (1 - i)]⟩
  memory := Socket.zeroMemory
  address := sampleAddress i
  plain := sampleAddress_plain i
  thissite := rfl
  mailThissite := rfl
  syncsites _ := Iff.rfl
  oneLine := by
    intro site hsite
    rw [List.mem_singleton.mp hsite]
    exact (sampleAddress_plain (1 - i)).line
  adminemail := no_address
  mailAdminemail := List.not_mem_nil

theorem sampleSite_injective : Function.Injective fun i => (sampleSite i).address := by
  have hall : ∀ i j : Fin 2, sampleAddress i = sampleAddress j → i = j := by decide
  exact hall

/-- Someone writes a mail to a site, and it arrives there. -/
theorem sampleRun (text : List UInt8) (db : ∀ i, (sampleSite i).B.DB) :
    ∃ t, Run sampleSksHashes zeroStale noCheck sampleSite ⟨db, 0⟩ [.write, .deliver] t := by
  have hwrite : Step sampleSksHashes zeroStale noCheck sampleSite ⟨db, 0⟩ .write
      ⟨db, ((sampleSite 0).address, text) ::ₘ 0⟩ := .write ⟨db, 0⟩ (sampleSite 0).address text
  have hdeliver := Step.deliver (H := sampleSksHashes) (g := zeroStale) (C := noCheck) db 0 0 text text
    ⟨[], fun l hl => absurd hl List.not_mem_nil, rfl⟩ id fun l => .refl l
  exact ⟨_, (Run.refl.step hwrite).step hdeliver⟩

theorem sampleSite_syncsites (i : Fin 2) : (sampleSite i).config.syncsites.length ≤ 1 ∧
    (sampleSite i).mailConfig.syncsites.length ≤ 1 := ⟨le_refl 1, le_refl 1⟩

/-- The mail that someone writes to a site. -/
theorem mails_die_out_sample :
    [Event.write, Event.deliver].count .deliver ≤
      (0 + ([Event.write, Event.deliver].count .add + [Event.write, Event.deliver].count .write) * 1) *
        (1 + 1) ^ (2 * Fintype.card (Fin 2) + 1) := by
  obtain ⟨t, hrun⟩ := sampleRun (ascii "Subject: add\n\n") fun _ => emptyDb4
  have hbound := mails_die_out sampleSite_injective Nat.one_pos sampleSite_syncsites hrun
  rwa [Multiset.card_zero] at hbound

theorem sendable_sampleAl : ∀ key ∈ [sampleAl], Sendable key := by
  intro key hkey
  rw [List.mem_singleton.mp hkey]
  exact sampleAl_sendable

/-- What the form of the first site makes of the key. -/
theorem sampleAdded (db : (sampleSite 0).B.DB) :
    (addedAt sampleSksHashes zeroStale noCheck sampleSite 0 db
        (armorOpenpgpStream (flattenPublickey [sampleAl]))).sync =
      (addKeys sampleSksHashes zeroStale noCheck (B := db4 sampleSksHashes) noLookups
        (sampleSite 0).config true db [sampleAl]).sync := by
  have hkeys := Hkp.parseKeys_armored sendable_sampleAl Socket.zeroMemory [] []
  rw [List.append_nil] at hkeys
  have hdearmored : Cgi.dearmoredKeys (sampleSite 0).memory
      (armorOpenpgpStream (flattenPublickey [sampleAl])) = [sampleAl] := by
    show Cgi.dearmoredKeys Socket.zeroMemory _ = _
    rw [Cgi.dearmoredKeys, hkeys]
    decide
  rw [addedAt, hdearmored]
  rfl

/-- The text of the key begins its way. -/
theorem sampleVia {db : (sampleSite 0).B.DB} {key : PublicKey}
    (h : (addKeys sampleSksHashes zeroStale noCheck (B := db4 sampleSksHashes) noLookups
      (sampleSite 0).config true db [sampleAl]).sync = [key]) :
    ∃ mail, SentVia sampleSksHashes zeroStale noCheck sampleSite [0] mail [key] := by
  have hflat : flattenPublickey [sampleAl] ≠ [] := by simp [flattenPublickey, flattenKey]
  have hpackets := dearmoredPackets_armored (sampleSite 0).memory.packet
    (Hkp.wellFormed_flatten sendable_sampleAl) []
  rw [List.append_nil] at hpackets
  rw [← hpackets] at hflat
  obtain ⟨mail, hsent⟩ : ∃ mail, sendkeysync (sampleSite 0).config [key] = some mail := ⟨_, rfl⟩
  exact ⟨mail, sentVia_add sampleSksHashes zeroStale noCheck sampleSite hflat
    ((sampleAdded db).trans h) (List.cons_ne_nil key []) hsent⟩

/-- The key that the form of the first site gets, as it is mailed to the second one. -/
theorem sentVia_arrives_sample :
    ∃ mail, SentVia sampleSksHashes zeroStale noCheck sampleSite [0] mail [sampleAl] ∧
      (readMail mail.text).isUpdate = true ∧
      (∀ name, name ∈ (readMail mail.text).seenby ↔
        ∃ i ∈ [(0 : Fin 2)], (sampleSite i).address = name) ∧
      Cgi.dearmoredKeys Socket.zeroMemory (readMail mail.text).body = [sampleAl].map reread ∧
      [(0 : Fin 2)].Nodup := by
  have hadded : (addKeys sampleSksHashes zeroStale noCheck (B := db4 sampleSksHashes) noLookups
      (sampleSite 0).config true emptyDb4 [sampleAl]).sync = [sampleAl] := by decide
  obtain ⟨mail, hvia⟩ := sampleVia hadded
  have hself : ∀ i, (sampleSite i).address ∉ (sampleSite i).config.syncsites := by
    have hall : ∀ i : Fin 2, sampleAddress i ∉ [sampleAddress (1 - i)] := by decide
    exact hall
  obtain ⟨hupdate, hnames, hbrought, hnodup⟩ := sentVia_arrives hvia
    ⟨[], fun l hl => absurd hl List.not_mem_nil, rfl⟩
  exact ⟨mail, hvia, hupdate, hnames, hbrought sendable_sampleAl Socket.zeroMemory, hnodup hself⟩

/-- The key without its subkeys is stored, and the form gets all of it: the subkey is not stored by the
second site. -/
theorem update_without_uids_sample :
    ∃ mail, SentVia sampleSksHashes zeroStale noCheck sampleSite [0] mail
        [{ sampleAl with sigs := [], uids := [] }] ∧
      sampleAl.subkeys ≠ [] ∧
      processmailAt sampleSksHashes zeroStale noCheck sampleSite 1 id emptyDb4 (readMail mail.text) =
        (emptyDb4, none) := by
  have hadded : (addKeys sampleSksHashes zeroStale noCheck (B := db4 sampleSksHashes) noLookups
      (sampleSite 0).config true
      (db4StoreKey sampleSksHashes emptyDb4 { sampleAl with subkeys := [] } false)
      [sampleAl]).sync = [{ sampleAl with sigs := [], uids := [] }] := by decide
  obtain ⟨mail, hvia⟩ := sampleVia hadded
  have hstems : StemsFrom sampleAl { sampleAl with sigs := [], uids := [] } :=
    ⟨rfl, rfl, List.nil_sublist _, fun sp hsp => absurd hsp List.not_mem_nil,
      fun sp hsp => ⟨⟨sp, hsp, rfl⟩, fun s hs => ⟨sp, hsp, .refl _, hs⟩⟩⟩
  have hsend : ∀ key ∈ [{ sampleAl with sigs := [], uids := [] }], Sendable key := by
    intro key hkey
    rw [List.mem_singleton.mp hkey]
    exact Hkp.StemsFrom.sendable hstems sampleAl_sendable
  have huids : ∀ key ∈ [{ sampleAl with sigs := [], uids := [] }], key.uids = [] := by
    intro key hkey
    rw [List.mem_singleton.mp hkey]
  refine ⟨mail, hvia, by decide, ?_⟩
  exact update_without_uids hvia hsend huids ⟨[], fun l hl => absurd hl List.not_mem_nil, rfl⟩ 1 id
    emptyDb4

end Onak.Mail
