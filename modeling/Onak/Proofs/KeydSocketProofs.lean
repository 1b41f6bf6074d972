import Onak.KeydSocket
import Onak.Proofs.CodecProofs
import Onak.Proofs.Db4IndexProofs
import Onak.Proofs.ParseKeysProofs

/-!
# Proofs: the keyd connection

Each call is a chain of exchanges in which one party waits for exactly what the other one sends. The
one octet of length that `sock_do` reads into a wider variable is all that depends on the host.
-/

namespace Onak.Socket

open Duplex Source Runs

/-! ## Numbers -/

theorem length_bigOctets (n v : Nat) : (bigOctets n v).length = n := by
  induction n generalizing v with
  | zero => rfl
  | succ n ih => simp [bigOctets, ih]

theorem beNat_bigOctets {n v : Nat} (h : v < 256 ^ n) : beNat (bigOctets n v) = v := by
  induction n generalizing v with
  | zero =>
    have hzero : v = 0 := by simpa using h
    rw [hzero]
    rfl
  | succ n ih =>
    have hdiv : v / 256 < 256 ^ n := by
      rw [Nat.pow_succ] at h
      exact Nat.div_lt_of_lt_mul (by omega)
    rw [bigOctets, beNat_append, ih hdiv, UInt8.toNat_ofNat']
    omega

@[simp] theorem length_octets (order : ByteOrder) (n v : Nat) : (order.octets n v).length = n := by
  cases order <;> simp [ByteOrder.octets, length_bigOctets]

/-- A number is read as it was written. -/
theorem number_octets (order : ByteOrder) {n v : Nat} (h : v < 256 ^ n) :
    order.number (order.octets n v) = v := by
  cases order with
  | little => simp [ByteOrder.number, ByteOrder.octets, beNat_bigOctets h]
  | big => simp [ByteOrder.number, ByteOrder.octets, beNat_bigOctets h]

theorem number_word (host : Host) {v : Nat} (h : v < 2 ^ 32) :
    host.order.number (host.word v) = v :=
  number_octets host.order (by omega)

theorem number_size (host : Host) {v : Nat} (h : v < 2 ^ 64) :
    host.order.number (host.size v) = v :=
  number_octets host.order (by omega)

@[simp] theorem length_word (host : Host) (v : Nat) : (host.word v).length = 4 :=
  length_octets _ _ _

@[simp] theorem length_size (host : Host) (v : Nat) : (host.size v).length = 8 :=
  length_octets _ _ _

/-! ## Keys -/

theorem length_headerOctets {p : Packet} {header : List UInt8} (h : headerOctets p = some header) :
    1 ≤ header.length := by
  unfold headerOctets at h
  split_ifs at h
  · obtain ⟨octets, _, rfl⟩ := Option.map_eq_some_iff.mp h
    simp
  · cases h
    unfold oldFormatHeader
    split_ifs <;> simp

/-- Every packet has at least one octet. -/
theorem length_le_streamOctets {ps : List Packet} {l : List UInt8} (h : streamOctets ps = some l) :
    ps.length ≤ l.length := by
  induction ps generalizing l with
  | nil => exact Nat.zero_le _
  | cons p ps ih =>
    obtain ⟨header, rest, hheader, hrest, rfl⟩ := streamOctets_cons h
    have hpos := length_headerOctets hheader
    have hle := ih hrest
    simp only [List.length_append, List.length_cons]
    omega

/-- The keys come back from their packets, with their flags worked out again. -/
theorem parseLoop_sendable {keys : List PublicKey} (h : ∀ key ∈ keys, Sendable key)
    (past : List PublicKey → Nat → UInt8) (count : Nat) (publickey : List PublicKey) :
    parseLoop past count publickey (flattenPublickey keys) =
      ⟨true, publickey ++ keys.map reread, (count + keys.length : Nat)⟩ := by
  obtain ⟨keys', hkeys', hparse⟩ := parseLoop_flattenPublickey past count publickey
    fun key hkey => (h key hkey).tagged
  have heq : keys.map reread = keys' := by
    have hboth := (List.forall₂_and_left _ _).mpr ⟨h, hkeys'⟩
    rw [← List.forall₂_eq_eq_eq, List.forall₂_map_left_iff]
    refine hboth.imp fun key key' hkey => ?_
    obtain ⟨hsend, r, hr, rfl⟩ := hkey
    rw [hr.eq_of_not_cut rfl (Or.inr hsend.sigs)]
    rfl
  rw [hparse, heq]

/-- The keys come back from their octets, with their flags worked out again. -/
theorem keysOf_keyOctets {keys : List PublicKey} (h : ∀ key ∈ keys, Sendable key)
    (memory : Memory) (publickey : List PublicKey) :
    keysOf memory (keyOctets keys) publickey = publickey ++ keys.map reread := by
  have hps : ∀ p ∈ flattenPublickey keys, p.WellFormed := by
    intro p hp
    obtain ⟨key, hkey, hp⟩ := List.mem_flatMap.mp hp
    exact (h key hkey).packets p hp
  obtain ⟨l, hl⟩ := streamOctets_of_wellFormed hps
  have hwrite := writeOpenpgpStream_of_octets append_gathers [] hl
  have hoctets : keyOctets keys = l := by
    unfold keyOctets
    rw [hwrite]
    rfl
  have hreadable : Readable memory.packet [] (flattenPublickey keys) := readable_of_wellFormed hps
  have hread := read_written hreadable (by rw [hwrite])
    (Nat.lt_succ_of_le (length_le_streamOctets hl))
  have hread' : readOpenpgpStream buffer memory.packet (l.length + 1) l [] 0 =
      some ⟨.ok, flattenPublickey keys, []⟩ := by
    rw [hwrite] at hread
    exact hread
  unfold keysOf
  rw [hoctets, hread']
  show (parseLoop memory.sig 0 publickey (flattenPublickey keys)).keys = _
  rw [parseLoop_sendable h]

theorem Delivered.keysOf_eq {keys : List PublicKey} (h : Delivered keys) (memory : Memory)
    (publickey : List PublicKey) :
    keysOf memory (keyOctets keys) publickey = publickey ++ keys := by
  rw [keysOf_keyOctets h.sendable, List.map_congr_left h.flags, List.map_id']

/-- A key is not sent as nothing, which would stand for no key. -/
theorem keyOctets_ne_nil {keys : List PublicKey} (h : ∀ key ∈ keys, Sendable key)
    (hne : keys ≠ []) : (keyOctets keys).length ≠ 0 := by
  intro hzero
  have hnil : keyOctets keys = [] := List.length_eq_zero_iff.mp hzero
  have hkeys := keysOf_keyOctets h ⟨fun _ => 0, fun _ _ => 0, fun _ => 0⟩ []
  rw [hnil] at hkeys
  have hempty : keys.map reread = [] := hkeys.symm
  exact hne (List.map_eq_nil_iff.mp hempty)

/-! ## The file backend -/

section

variable {H : Hashes} {files : KeyFiles}

theorem delivered_toList {o : Option PublicKey} (h : ∀ key ∈ o, Delivered [key]) :
    Delivered o.toList := by
  cases o with
  | none => exact ⟨by simp, by simp, by decide⟩
  | some key => exact h key rfl

/-- What is read back from a file can be sent if the key could. -/
theorem delivered_reread {key : PublicKey} (h : Sendable key)
    (hfits : (keyOctets [key]).length < 2 ^ 64) : Delivered [reread key] where
  sendable := by
    intro k hk
    rw [List.mem_singleton.mp hk]
    exact ⟨⟨h.tagged.publickey, h.tagged.sigs, h.tagged.uids, h.tagged.uidSigs, h.tagged.subkeys,
      h.tagged.subkeySigs⟩, h.packets, h.sigs⟩
  flags := by
    intro k hk
    rw [List.mem_singleton.mp hk]
    rfl
  fits := hfits

/-- All files can be sent. -/
def FilesDelivered (files : KeyFiles) : Prop := ∀ e ∈ files.entries, Delivered [e.2]

theorem FilesDelivered.fetchKeyId (h : FilesDelivered files) (keyid : UInt64) :
    Delivered (fileFetchKeyId files keyid) := by
  refine delivered_toList fun key hkey => ?_
  exact h _ (AList.mem_lookup_iff.mp hkey)

theorem FilesDelivered.fetchKeyFp (h : FilesDelivered files) (memory : Memory) (fp : Fingerprint) :
    Delivered (genericFetchKeyFp memory files fp) := by
  unfold genericFetchKeyFp
  split_ifs with hlong
  · exact delivered_toList fun key hkey => absurd hkey (Option.not_mem_none key)
  · exact h.fetchKeyId _

theorem FilesDelivered.store (h : FilesDelivered files) {key : PublicKey} (hkey : Sendable key)
    (hfits : (keyOctets [key]).length < 2 ^ 64) : FilesDelivered (fileStoreKey H files key) := by
  unfold fileStoreKey
  cases getKeyid H key with
  | none => exact h
  | some keyid =>
    intro e he
    simp only [AList.entries_insert, List.mem_cons] at he
    rcases he with rfl | he
    · exact delivered_reread hkey hfits
    · exact h e ((List.kerase_sublist _ _).subset he)

theorem FilesDelivered.delete (h : FilesDelivered files) (fp : Fingerprint) :
    FilesDelivered (fileDeleteKey files fp) :=
  fun e he => h e ((List.kerase_sublist _ _).subset he)

/-- In front of the file backend it is enough that the arguments are well formed: what the server
then has to send has been stored before. -/
theorem fileServer_wellFormed {memory : Memory} (hfiles : FilesDelivered files)
    {calls : List KeydCall} (hcalls : ∀ call ∈ calls, call.ArgsWellFormed H) :
    Along (fun db call => (call.direct (fileServer H memory) db).2)
      (fun db call => call.WellFormed H (fileServer H memory) db) files calls := by
  refine along_of_invariant FilesDelivered hfiles ?_
  intro files call hmem hfiles
  have hcall := hcalls call hmem
  cases call with
  | fetch query publickey =>
    refine ⟨⟨hcall, ?_⟩, hfiles⟩
    cases query with
    | fetchKey fp => exact hfiles.fetchKeyFp memory fp
    | fetchKeyFp fp => exact hfiles.fetchKeyFp memory fp
    | fetchKeyId keyid => exact hfiles.fetchKeyId keyid
    | fetchKeyText search => exact delivered_toList (o := none) (by simp)
    | fetchKeySkshash hash => exact delivered_toList (o := none) (by simp)
  | store key update => exact ⟨hcall, hfiles.store hcall.1 hcall.2.2⟩
  | delete fp => exact ⟨hcall, hfiles.delete fp⟩
  | iterate =>
    refine ⟨?_, hfiles⟩
    intro key hkey
    obtain ⟨e, he, rfl⟩ := List.mem_map.mp hkey
    exact hfiles e he

end

/-! ## Parts of the calls -/

theorem keydOps_toNat (cmd : KeydOp) : keydOps[cmd.toNat]? = some cmd ∧ cmd.toNat < 2 ^ 32 := by
  cases cmd <;> decide

section

variable {host : Host} {H : Hashes} {B : ServerDb} {stats : List UInt8} {db : B.DB}

/-- A command that the server answers with `KEYD_REPLY_OK`. -/
theorem reach_sendCmd {cmd : KeydOp} {failed ok : Client} {p : Server B}
    (h : sockCmd host B stats db (some cmd) = .write (host.word keydReplyOk) p) :
    Reach (clientNext host H) (serverLoop host B stats)
      ⟨keydSendCmd host cmd failed ok, sockDo host B stats db, [], []⟩ ⟨ok, p, [], []⟩ := by
  obtain ⟨hop, hlt⟩ := keydOps_toNat cmd
  refine (reach_send _ _ _ _ (length_word host _)).trans ?_
  rw [number_word host hlt, hop, h]
  refine (reach_reply _ _ _ _ (length_word host _)).trans ?_
  rw [number_word host (by decide), if_pos rfl]
  exact .refl _

/-- The keys that a lookup has found are read by the client. -/
theorem reach_readKeys {keys : List PublicKey} (hkeys : Delivered keys)
    (publickey : List PublicKey) (k : List PublicKey → Client) :
    Reach (clientNext host H) (serverLoop host B stats)
      ⟨readKeys host publickey k, writeFound host B db keys, [], []⟩
      ⟨k (publickey ++ keys), .done (false, db), [], []⟩ := by
  cases keys with
  | nil =>
    refine (reach_reply _ _ _ _ (length_size host _)).trans ?_
    rw [number_size host (by decide), if_pos rfl, List.append_nil]
    exact .refl _
  | cons key keys =>
    refine (reach_reply _ _ _ _ (length_size host _)).trans ?_
    rw [number_size host hkeys.fits,
      if_neg (keyOctets_ne_nil hkeys.sendable (List.cons_ne_nil _ _))]
    refine (reach_reply _ _ _ _ rfl).trans ?_
    rw [hkeys.keysOf_eq]
    exact .refl _

/-- The keys that `iterate_keys` hands out are read one after the other. -/
theorem reach_iterate {keys : List PublicKey} (hkeys : ∀ key ∈ keys, Delivered [key])
    (calls : List KeydCall) (delivered : List (List PublicKey)) (got : List PublicKey) :
    Reach (clientNext host H) (serverLoop host B stats)
      ⟨.done ⟨calls, delivered, some got⟩,
        writeKeys host B (.write (host.size 0) (.done (false, db))) keys, [], []⟩
      ⟨.done ⟨calls, delivered ++ [got ++ keys], none⟩, .done (false, db), [], []⟩ := by
  induction keys generalizing got with
  | nil =>
    refine (reach_next _ _ _ rfl).trans ?_
    refine (reach_reply _ _ _ _ (length_size host _)).trans ?_
    rw [number_size host (by decide), if_pos rfl, List.append_nil]
    exact .refl _
  | cons key keys ih =>
    have hkey := hkeys key List.mem_cons_self
    refine (reach_next _ _ _ rfl).trans ?_
    refine (reach_reply _ _ _ _ (length_size host _)).trans ?_
    rw [number_size host hkey.fits,
      if_neg (keyOctets_ne_nil hkey.sendable (List.cons_ne_nil _ _))]
    refine (reach_reply _ _ _ _ rfl).trans ?_
    rw [hkey.keysOf_eq]
    have hrest := ih (fun key' hmem => hkeys key' (List.mem_cons_of_mem _ hmem)) (got ++ [key])
    rw [List.append_assoc] at hrest
    exact hrest

/-! ## Fingerprints -/

/-- On a little-endian host the octet of length is the number that `sock_do` finds. -/
theorem number_length_little (h : host.order = .little) {n : Nat} (hn : n < 256) :
    host.order.number ([UInt8.ofNat n] ++ (host.size 4).drop 1) = n := by
  have hmem : (host.size 4).drop 1 = [0, 0, 0, 0, 0, 0, 0] := by
    unfold Host.size
    rw [h]
    decide
  rw [hmem, h]
  simp [ByteOrder.number, beNat]
  omega

/-- On a big-endian host it is the upper octet of a number that ends with the 4. -/
theorem number_length_big (h : host.order = .big) {n : Nat} (hn : n < 256) :
    host.order.number ([UInt8.ofNat n] ++ (host.size 4).drop 1) = n * 2 ^ 56 + 4 := by
  have hmem : (host.size 4).drop 1 = [0, 0, 0, 0, 0, 0, 4] := by
    unfold Host.size
    rw [h]
    decide
  rw [hmem, h]
  simp [ByteOrder.number, beNat]
  omega

theorem toSize_toSsize {n : Nat} (h : n < 2 ^ 63) : toSsize n = n ∧ toSize n = n := by
  refine ⟨if_pos h, ?_⟩
  unfold toSize
  omega

/-- On a little-endian host a fingerprint arrives. -/
theorem reach_fingerprint (h : host.order = .little) {fp : Fingerprint}
    (hfp : fp.length ≤ maxFingerprintLen) (p : Client) (k : Fingerprint → Server B) :
    Reach (clientNext host H) (serverLoop host B stats)
      ⟨.write [UInt8.ofNat fp.length] (.write fp p), readFingerprint host B db k, [], []⟩
      ⟨p, k fp, [], []⟩ := by
  have hlt : fp.length < 256 := Nat.lt_of_le_of_lt hfp (by decide)
  obtain ⟨hsigned, hsize⟩ := toSize_toSsize (show fp.length < 2 ^ 63 by omega)
  refine (reach_send _ _ _ _ rfl).trans ?_
  simp only [number_length_little h hlt, hsigned, hsize]
  rw [if_neg (by omega)]
  exact reach_send _ _ _ _ rfl

/-! ## Calls -/

/-- A call from one quiet state to the next. -/
theorem reach_call {s s' : ClientState} {p : Client} {db' : B.DB}
    (hnext : clientNext host H s = some p)
    (hrun : Reach (clientNext host H) (serverLoop host B stats)
      ⟨p, sockDo host B stats db, [], []⟩ ⟨.done s', .done (false, db'), [], []⟩) :
    Reach (clientNext host H) (serverLoop host B stats) (quiet host B stats db s)
      (quiet host B stats db' s') :=
  ((reach_next _ _ _ hnext).trans hrun).trans (reach_again _ _ _ rfl)

/-- On a little-endian host the lookups by fingerprint come to their end. -/
theorem reach_fetchBy (hlittle : host.order = .little) (found : Fingerprint → List PublicKey)
    {cmd : KeydOp} {fp : Fingerprint} (hfp : fp.length ≤ maxFingerprintLen)
    (hsock : sockCmd host B stats db (some cmd) = .write (host.word keydReplyOk)
      (readFingerprint host B db fun fp => writeFound host B db (found fp)))
    (hkeys : Delivered (found fp)) (publickey : List PublicKey) (k : List PublicKey → Client) :
    Reach (clientNext host H) (serverLoop host B stats)
      ⟨keydFetchBy host cmd fp publickey k, sockDo host B stats db, [], []⟩
      ⟨k (publickey ++ found fp), .done (false, db), [], []⟩ := by
  unfold keydFetchBy
  rw [if_neg (Nat.not_lt.mpr hfp)]
  exact ((reach_sendCmd hsock).trans (reach_fingerprint hlittle hfp _ _)).trans
    (reach_readKeys hkeys _ _)

theorem reach_fetch (query : Query) (publickey : List PublicKey) (calls : List KeydCall)
    (delivered : List (List PublicKey))
    (hok : host.order = .little ∨ (KeydCall.fetch query publickey).sendsLength = false)
    (hquery : query.WellFormed) (hkeys : Delivered (B.fetch db query)) :
    Reach (clientNext host H) (serverLoop host B stats)
      (quiet host B stats db ⟨.fetch query publickey :: calls, delivered, none⟩)
      (quiet host B stats db ⟨calls, delivered ++ [publickey ++ B.fetch db query], none⟩) := by
  cases query with
  | fetchKey fp =>
    have hlittle : host.order = .little := hok.resolve_right (by simp [KeydCall.sendsLength])
    refine reach_call rfl ?_
    exact reach_fetchBy hlittle (fun fp => B.fetch db (.fetchKey fp)) hquery rfl hkeys _ _
  | fetchKeyFp fp =>
    have hlittle : host.order = .little := hok.resolve_right (by simp [KeydCall.sendsLength])
    refine reach_call rfl ?_
    exact reach_fetchBy hlittle (fun fp => B.fetch db (.fetchKeyFp fp)) hquery rfl hkeys _ _
  | fetchKeyId keyid =>
    refine reach_call rfl ?_
    refine ((reach_sendCmd rfl).trans (reach_send _ _ _ _ (length_octets _ _ _))).trans ?_
    rw [number_octets host.order (by have := keyid.toNat_lt; omega), UInt64.ofNat_toNat]
    exact reach_readKeys hkeys _ _
  | fetchKeyText search =>
    refine reach_call rfl ?_
    have hsearch : search.length < 2 ^ 63 := hquery.2
    refine ((reach_sendCmd rfl).trans (reach_send _ _ _ _ (length_size host _))).trans ?_
    rw [number_size host (by omega)]
    exact (reach_send _ _ _ _ rfl).trans (reach_readKeys hkeys _ _)
  | fetchKeySkshash hash =>
    refine reach_call rfl ?_
    exact ((reach_sendCmd rfl).trans (reach_send _ _ _ _ hquery)).trans (reach_readKeys hkeys _ _)

theorem reach_store {key : PublicKey} (hkey : Sendable key) (hid : (getKeyid H key).isSome)
    (hfits : (keyOctets [key]).length < 2 ^ 64) (update : Bool) (calls : List KeydCall)
    (delivered : List (List PublicKey)) :
    Reach (clientNext host H) (serverLoop host B stats)
      (quiet host B stats db ⟨.store key update :: calls, delivered, none⟩)
      (quiet host B stats (B.store db key update) ⟨calls, delivered ++ [[]], none⟩) := by
  obtain ⟨keyid, hkeyid⟩ := Option.isSome_iff_exists.mp hid
  have hkeys : ∀ k ∈ [key], Sendable k := by
    intro k hk
    rw [List.mem_singleton.mp hk]
    exact hkey
  -- the octets of the key behind the command
  have hdata : ∀ p : Client, Reach (clientNext host H) (serverLoop host B stats)
      ⟨.write (host.size (keyOctets [key]).length) (.write (keyOctets [key]) p),
        readStore host B db update, [], []⟩
      ⟨p, .done (false, B.store db key update), [], []⟩ := by
    intro p
    refine (reach_send _ _ _ _ (length_size host _)).trans ?_
    rw [number_size host hfits, if_neg (keyOctets_ne_nil hkeys (List.cons_ne_nil _ _))]
    refine (reach_send _ _ _ _ rfl).trans ?_
    rw [keysOf_keyOctets hkeys]
    simp only [List.map_cons, List.map_nil, List.nil_append, B.store_reread]
    exact .refl _
  refine reach_call rfl ?_
  unfold keydStoreKey
  rw [hkeyid]
  cases update with
  | false => exact (reach_sendCmd rfl).trans (hdata _)
  | true => exact (reach_sendCmd rfl).trans (hdata _)

theorem length_fingerprintStruct {fp : Fingerprint} (hfp : fp.length ≤ maxFingerprintLen) :
    (fingerprintStruct host fp).length = 40 := by
  simp only [fingerprintStruct, List.length_append, length_size, List.length_map, List.length_range]
  show 8 + (fp.length + (32 - fp.length)) = 40
  have hle : fp.length ≤ 32 := hfp
  omega

theorem reach_delete {fp : Fingerprint} (hfp : fp.length ≤ maxFingerprintLen)
    (calls : List KeydCall) (delivered : List (List PublicKey)) :
    Reach (clientNext host H) (serverLoop host B stats)
      (quiet host B stats db ⟨.delete fp :: calls, delivered, none⟩)
      (quiet host B stats (B.delete db fp) ⟨calls, delivered ++ [[]], none⟩) := by
  refine reach_call rfl ?_
  refine ((reach_sendCmd rfl).trans
    (reach_send _ _ _ _ (length_fingerprintStruct hfp))).trans ?_
  have hread : ((fingerprintStruct host fp).drop 8).take
      (host.order.number ((fingerprintStruct host fp).take 8)) = fp := by
    have hlen : fp.length < 2 ^ 64 := Nat.lt_of_le_of_lt hfp (by decide)
    unfold fingerprintStruct
    rw [List.take_left' (length_size host _), List.drop_left' (length_size host _),
      number_size host hlen, List.take_left]
  rw [hread]
  exact .refl _

variable (host stats) in
/-- A call that is not caught by the byte order of the host does what it does directly. -/
theorem reach_direct {call : KeydCall} (hok : host.order = .little ∨ call.sendsLength = false)
    (hcall : call.WellFormed H B db) (calls : List KeydCall) (delivered : List (List PublicKey)) :
    Reach (clientNext host H) (serverLoop host B stats)
      (quiet host B stats db ⟨call :: calls, delivered, none⟩)
      (quiet host B stats (call.direct B db).2
        ⟨calls, delivered ++ [(call.direct B db).1], none⟩) := by
  cases call with
  | fetch query publickey => exact reach_fetch query publickey calls delivered hok hcall.1 hcall.2
  | store key update => exact reach_store hcall.1 hcall.2.1 hcall.2.2 update calls delivered
  | delete fp => exact reach_delete hcall calls delivered
  | iterate =>
    refine reach_call rfl ?_
    exact (reach_sendCmd rfl).trans (reach_iterate hcall calls delivered [])

variable (stats) in
theorem reach_directly {calls : List KeydCall} (hok : host.order = .little ∨
      ∀ call ∈ calls, call.sendsLength = false)
    (hcalls : Along (fun db call => (call.direct B db).2) (fun db call => call.WellFormed H B db) db
      calls) (rest : List KeydCall) (delivered : List (List PublicKey)) :
    Reach (clientNext host H) (serverLoop host B stats)
      (quiet host B stats db ⟨calls ++ rest, delivered, none⟩)
      (quiet host B stats (directly B db calls).2
        ⟨rest, delivered ++ (directly B db calls).1, none⟩) := by
  induction calls generalizing db delivered with
  | nil =>
    rw [directly, List.append_nil]
    exact .refl _
  | cons call calls ih =>
    have hcall := reach_direct host stats
      (hok.imp_right fun h => h call List.mem_cons_self) hcalls.1 (calls ++ rest) delivered
    have hrest := ih (hok.imp_right fun h c hc => h c (List.mem_cons_of_mem _ hc)) hcalls.2
      (delivered ++ [(call.direct B db).1])
    rw [List.append_assoc] at hrest
    exact hcall.trans hrest

/-! ## Sequences of calls -/

/-- In a quiet state without calls nothing moves. -/
theorem quiet_terminal (db : B.DB) (delivered : List (List PublicKey))
    (c : Config UInt8 ClientState (Bool × B.DB)) :
    ¬ Step (clientNext host H) (serverLoop host B stats)
      (quiet host B stats db ⟨[], delivered, none⟩) c :=
  not_step rfl (act_read_of_lt (by decide)) c

variable (stats H db) in
/-- On a big-endian host the server does not get past the length of a fingerprint. -/
theorem reach_fingerprint_big (hbig : host.order = .big) {fp : Fingerprint}
    (hfp : fp.length ≤ maxFingerprintLen) (p : Client) (k : Fingerprint → Server B) :
    ∃ q toServer, act (serverLoop host B stats) q toServer = none ∧
      Reach (clientNext host H) (serverLoop host B stats)
        ⟨.write [UInt8.ofNat fp.length] (.write fp p), readFingerprint host B db k, [], []⟩
        ⟨p, q, toServer, []⟩ := by
  have hle : fp.length ≤ 32 := hfp
  obtain ⟨hsigned, hsize⟩ := toSize_toSsize (show fp.length * 2 ^ 56 + 4 < 2 ^ 63 by omega)
  have hsend : Reach (clientNext host H) (serverLoop host B stats)
      ⟨.write [UInt8.ofNat fp.length] (.write fp p), readFingerprint host B db k, [], []⟩
      ⟨p, if (maxFingerprintLen : Int) < (fp.length * 2 ^ 56 + 4 : Nat) then .done (true, db)
        else .read (fp.length * 2 ^ 56 + 4) k, fp, []⟩ := by
    refine (reach_send _ _ _ _ rfl).trans ?_
    simp only [number_length_big hbig (show fp.length < 256 by omega), hsigned, hsize]
    exact reach_client_write p _ fp [] []
  refine ⟨_, _, ?_, hsend⟩
  by_cases hzero : fp.length = 0
  · -- an empty fingerprint: the server waits for four octets
    rw [if_neg (by rw [hzero]; decide)]
    exact act_read_of_lt (by omega)
  · -- the length is too large, and the server closes the connection
    have hlarge : (maxFingerprintLen : Int) < (fp.length * 2 ^ 56 + 4 : Nat) := by
      show (32 : Int) < _
      omega
    rw [if_pos hlarge]
    rfl

variable (host H B stats) in
/-- A run comes to a state in which neither party can move and the client is in the middle of a
call. -/
def Halts (c : Config UInt8 ClientState (Bool × B.DB)) : Prop :=
  ∃ d, Reach (clientNext host H) (serverLoop host B stats) c d ∧
    (∀ e, ¬ Step (clientNext host H) (serverLoop host B stats) d e) ∧ ∀ s, d.client ≠ .done s

theorem Halts.of_reach {c d : Config UInt8 ClientState (Bool × B.DB)}
    (hcd : Reach (clientNext host H) (serverLoop host B stats) c d)
    (h : Halts host H B stats d) : Halts host H B stats c := by
  obtain ⟨e, hde, hend⟩ := h
  exact ⟨e, hcd.trans hde, hend⟩

/-- On a big-endian host the client waits for an answer to the fingerprint that does not come. -/
theorem halts_fetchBy (hbig : host.order = .big) {cmd : KeydOp} {fp : Fingerprint}
    (hfp : fp.length ≤ maxFingerprintLen) {k' : Fingerprint → Server B}
    (hsock : sockCmd host B stats db (some cmd) =
      .write (host.word keydReplyOk) (readFingerprint host B db k'))
    {s : ClientState} {publickey : List PublicKey} {k : List PublicKey → Client}
    (hnext : clientNext host H s = some (keydFetchBy host cmd fp publickey k)) :
    Halts host H B stats (quiet host B stats db s) := by
  unfold keydFetchBy at hnext
  rw [if_neg (Nat.not_lt.mpr hfp)] at hnext
  obtain ⟨q, toServer, hq, hreach⟩ := reach_fingerprint_big H stats db hbig hfp
    (readKeys host publickey k) k'
  refine ⟨_, ((reach_next _ _ _ hnext).trans (reach_sendCmd hsock)).trans hreach, ?_, ?_⟩
  · exact not_step (act_read_of_lt (by decide)) hq
  · intro s hs
    cases hs

theorem halts_of_sendsLength (hbig : host.order = .big) {call : KeydCall}
    (hsends : call.sendsLength = true) (hcall : call.WellFormed H B db) (calls : List KeydCall)
    (delivered : List (List PublicKey)) :
    Halts host H B stats (quiet host B stats db ⟨call :: calls, delivered, none⟩) := by
  match call, hsends with
  | .fetch (.fetchKey _) _, _ => exact halts_fetchBy hbig hcall.1 rfl rfl
  | .fetch (.fetchKeyFp _) _, _ => exact halts_fetchBy hbig hcall.1 rfl rfl

/-- The calls before it go well. -/
theorem halts_of_mem (hbig : host.order = .big) {calls : List KeydCall}
    (hsends : ∃ call ∈ calls, call.sendsLength = true)
    (hcalls : Along (fun db call => (call.direct B db).2) (fun db call => call.WellFormed H B db) db
      calls) (delivered : List (List PublicKey)) :
    Halts host H B stats (quiet host B stats db ⟨calls, delivered, none⟩) := by
  induction calls generalizing db delivered with
  | nil =>
    obtain ⟨call, hmem, -⟩ := hsends
    exact absurd hmem List.not_mem_nil
  | cons call calls ih =>
    cases hlength : call.sendsLength with
    | true => exact halts_of_sendsLength hbig hlength hcalls.1 calls delivered
    | false =>
      have hrest : ∃ call ∈ calls, call.sendsLength = true := by
        obtain ⟨call', hmem, hsends'⟩ := hsends
        rcases List.mem_cons.mp hmem with rfl | hmem
        · exact absurd (hlength.symm.trans hsends') (by simp)
        · exact ⟨call', hmem, hsends'⟩
      have hcall := reach_direct host stats (Or.inr hlength) hcalls.1 calls delivered
      exact (ih hrest hcalls.2 (delivered ++ [(call.direct B db).1])).of_reach hcall

/-- On a big-endian host a lookup of a fingerprint brings the connection to a halt. -/
theorem not_refines (hbig : host.order = .big) {calls : List KeydCall}
    (hsends : ∃ call ∈ calls, call.sendsLength = true)
    (hcalls : Along (fun db call => (call.direct B db).2) (fun db call => call.WellFormed H B db) db
      calls) : ¬ Refines host H B stats db calls := by
  intro hrefines
  have hhalts : Halts host H B stats (quiet host B stats db ⟨calls, [], none⟩) :=
    halts_of_mem hbig hsends hcalls []
  obtain ⟨c, hreach, hterm, hclient⟩ := hhalts
  have hend := hrefines.eq_of_reach hreach hterm
  exact hclient _ (congrArg Config.client hend)

/-- **The client backend refines the server's backend, except for lengths on big-endian hosts.** For
every sequence of calls with well-formed keys, all runs of client and server end with what the calls
deliver directly, the same database and nothing unread, if and only if the host is little-endian or
no call looks up a fingerprint. -/
theorem keyd_refines_iff (host : Host) (H : Hashes) (B : ServerDb) (stats : List UInt8) (db : B.DB)
    (calls : List KeydCall)
    (hcalls : Along (fun db call => (call.direct B db).2) (fun db call => call.WellFormed H B db) db
      calls) :
    Refines host H B stats db calls ↔
      host.order = .little ∨ ∀ call ∈ calls, call.sendsLength = false := by
  constructor
  · intro hrefines
    cases horder : host.order with
    | little => exact Or.inl rfl
    | big =>
      right
      intro call hmem
      by_contra hsends
      rw [Bool.not_eq_false] at hsends
      exact not_refines horder ⟨call, hmem, hsends⟩ hcalls hrefines
  · intro hok
    have hreach := reach_directly stats hok hcalls [] []
    rw [List.append_nil, List.nil_append] at hreach
    exact hreach.ends (quiet_terminal _ _)

end

/-! ## Samples -/

/-- Memory that holds zeros. -/
def zeroMemory : Memory := ⟨fun _ => 0, fun _ _ => 0, fun _ => 0⟩

/-- A host of either byte order. -/
def sampleHost (order : ByteOrder) : Host := ⟨order, zeroMemory, zeroMemory⟩

/-- A server with the file backend. -/
def sampleServer : ServerDb := fileServer sampleSksHashes zeroMemory

/-- A key is stored, looked up, handed out and deleted, and looked up once more. -/
def sampleCalls : List KeydCall :=
  [.store sampleAl false, .fetch (.fetchKeyFp (sampleFp sampleAl)) [], .iterate,
    .delete (sampleFp sampleAl), .fetch (.fetchKey (sampleFp sampleAl)) []]

theorem sampleAl_sendable : Sendable sampleAl where
  tagged := by constructor <;> decide
  packets := by
    intro p hp
    have hcases : p = sampleV4Packet tagPublickey 1 0xC1 ∨ p = ⟨tagUid, false, [65, 108]⟩ ∨
        p = sampleV4Packet tagPublicsubkey 3 0xC7 := by
      simpa [sampleAl, sampleMember, sampleSubkey, flattenKey, flattenSigned] using hp
    obtain rfl | rfl | rfl := hcases
    · exact ⟨by decide, by decide, fun _ => ⟨4, rfl, by decide⟩⟩
    · exact ⟨by decide, by decide, by decide⟩
    · exact ⟨by decide, by decide, by decide⟩
  sigs := by
    intro s hs
    exact absurd hs List.not_mem_nil

theorem sampleCalls_wellFormed :
    Along (fun db call => (call.direct sampleServer db).2)
      (fun db call => call.WellFormed sampleSksHashes sampleServer db) (∅ : KeyFiles)
      sampleCalls := by
  have hfiles : FilesDelivered ∅ := fun e he => absurd he List.not_mem_nil
  have hfp : (sampleFp sampleAl).length ≤ maxFingerprintLen := by decide
  have hid : (getKeyid sampleSksHashes sampleAl).isSome := by decide
  have hfits : (keyOctets [sampleAl]).length < 2 ^ 64 := by decide
  refine fileServer_wellFormed hfiles ?_
  intro call hcall
  simp only [sampleCalls, List.mem_cons, List.not_mem_nil, or_false] at hcall
  obtain rfl | rfl | rfl | rfl | rfl := hcall
  · exact ⟨sampleAl_sendable, hid, hfits⟩
  · exact hfp
  · trivial
  · exact hfp
  · exact hfp

/-- On a little-endian host the calls deliver what they deliver directly: the key twice, and nothing
after it is deleted. -/
theorem keyd_refines_sample :
    (directly sampleServer (∅ : KeyFiles) sampleCalls).1 = [[], [sampleAl], [sampleAl], [], []] ∧
      Refines (sampleHost .little) sampleSksHashes sampleServer [] (∅ : KeyFiles) sampleCalls :=
  ⟨by decide, (keyd_refines_iff _ _ _ _ _ _ sampleCalls_wellFormed).mpr (Or.inl rfl)⟩

/-- On a big-endian host they do not. -/
theorem keyd_fetch_big_endian :
    Along (fun db call => (call.direct sampleServer db).2)
        (fun db call => call.WellFormed sampleSksHashes sampleServer db) (∅ : KeyFiles)
        sampleCalls ∧
      ¬ Refines (sampleHost .big) sampleSksHashes sampleServer [] (∅ : KeyFiles) sampleCalls :=
  ⟨sampleCalls_wellFormed, not_refines rfl ⟨_, .tail _ (.head _), rfl⟩ sampleCalls_wellFormed⟩

end Onak.Socket
