import Onak.Keyring
import Onak.Proofs.CodecProofs
import Onak.Proofs.ParseKeysProofs
import Onak.Proofs.ReadStreamProofs

/-!
# Proofs: the keyring file backend

The walk over the file cuts it where the stream reader does, whatever the lengths are written in. A
key is added to the index only when the next one starts, so there is always one entry less than there
are keys, or fewer.
-/

namespace Onak

open Source PrefixCode

/-! ## Packet by packet -/

theorem readOctets_middle (a b t : List UInt8) {i n : Nat} (hi : a.length = i) (hn : b.length = n) :
    readOctets (a ++ (b ++ t)) i n = some b := by
  have hle : i + n ≤ (a ++ (b ++ t)).length := by
    simp only [List.length_append]
    omega
  rw [readOctets, if_pos hle, ← hi, List.drop_left, ← hn, List.take_left]

theorem keyringPacket_framed {p : Packet} {l : List UInt8} (h : Framed p l) (len : Nat)
    (t : List UInt8) : keyringPacket len (l ++ t) = some (p.tag, l.length) := by
  cases h with
  | @new c octets data htop hnew hlen =>
    generalize hdata : data.length = n at hlen
    cases hlen with
    | @one d hd =>
      have hlt : d.toNat < 192 := UInt8.lt_iff_toNat_lt.mp hd
      have n1 : ¬ (191 < d ∧ d < 224) := by
        simp only [UInt8.lt_iff_toNat_lt, UInt8.reduceToNat]
        omega
      have n2 : ¬ (223 < d ∧ d < 255) := by
        simp only [UInt8.lt_iff_toNat_lt, UInt8.reduceToNat]
        omega
      have n3 : d ≠ 255 := by
        rintro rfl
        exact absurd hlt (by decide)
      simp [keyringPacket, hnew, n1, n2, n3, hdata]
    | @two d e hd hd' =>
      have hle : (192 : UInt8).toNat ≤ d.toNat := UInt8.le_iff_toNat_le.mp hd
      have hlow : 191 < d := by
        rw [UInt8.lt_iff_toNat_lt]
        simp only [UInt8.reduceToNat] at hle ⊢
        omega
      simp [keyringPacket, hnew, hlow, hd', hdata, Nat.shiftLeft_eq]
    | @five octets hoctets =>
      have hread : readOctets (c :: 255 :: (octets ++ (data ++ t))) 2 4 = some octets :=
        readOctets_middle [c, 255] octets (data ++ t) rfl hoctets
      simp [keyringPacket, hnew, hread, hdata, hoctets]
      omega
  | @old c octets data htop hold hlen =>
    generalize hdata : data.length = n at hlen
    generalize htype : c &&& 3 = type at hlen
    obtain ⟨hne, hoctets⟩ := hlen
    have hread : readOctets (c :: (octets ++ (data ++ t))) 1 octets.length = some octets :=
      readOctets_middle [c] octets (data ++ t) rfl rfl
    have hlt : (c &&& 3).toNat < 4 := by
      rw [UInt8.toNat_and]
      exact lt_of_le_of_lt Nat.and_le_right (by decide)
    have hcases : type = 0 ∨ type = 1 ∨ type = 2 := by
      rw [htype] at hlt
      have h3 : type.toNat ≠ 3 := fun h => hne (UInt8.toNat_inj.mp h)
      simp only [← UInt8.toNat_inj, UInt8.reduceToNat]
      omega
    rcases hcases with rfl | rfl | rfl
    · have hone : octets.length = 1 := hoctets
      rw [hone] at hread
      simp [keyringPacket, hold, htype, hread, hdata, hone]
      omega
    · have htwo : octets.length = 2 := hoctets
      rw [htwo] at hread
      simp [keyringPacket, hold, htype, hread, hdata, htwo]
      omega
    · have hfour : octets.length = 4 := hoctets
      rw [hfour] at hread
      simp [keyringPacket, hold, htype, hread, hdata, hfour]
      omega

/-! ## The walk -/

section

variable {H : Hashes} {past : List Packet → UInt8} {pastSig : List PublicKey → Nat → UInt8}
  {file : List UInt8}

theorem keyringAdd_keys {w w' : KeyringWalk} (h : keyringAdd H past pastSig file w = some w') :
    w'.pos = w.pos ∧ w'.keys.length = w.keys.length + 1 := by
  unfold keyringAdd at h
  obtain ⟨⟨_, key⟩, -, h⟩ := Option.bind_eq_some_iff.mp h
  obtain ⟨first, -, h⟩ := Option.bind_eq_some_iff.mp h
  obtain ⟨⟨_, fp⟩, -, h⟩ := Option.bind_eq_some_iff.mp h
  obtain rfl := Option.some.inj h
  exact ⟨rfl, by simp⟩

theorem keyringTag_keys {tag : Nat} {w w' : KeyringWalk}
    (h : keyringTag H past pastSig file tag w = some w') :
    w'.pos = w.pos ∧
      w'.keys.length ≤ w.keys.length + if tag = tagPublickey ∧ 0 < w.totlen then 1 else 0 := by
  unfold keyringTag at h
  by_cases htag : tag = tagPublickey
  · rw [if_pos htag] at h
    by_cases htotlen : 0 < w.totlen
    · rw [if_pos htotlen] at h
      obtain ⟨w₁, hadd, h⟩ := Option.bind_eq_some_iff.mp h
      obtain ⟨hpos, hlen⟩ := keyringAdd_keys hadd
      obtain rfl := Option.some.inj h
      refine ⟨hpos, ?_⟩
      rw [if_pos ⟨htag, htotlen⟩]
      exact hlen.le
    · rw [if_neg htotlen] at h
      obtain rfl := Option.some.inj h
      exact ⟨rfl, Nat.le_add_right _ _⟩
  · rw [if_neg htag] at h
    obtain rfl := Option.some.inj h
    exact ⟨rfl, Nat.le_add_right _ _⟩

/-- A round of the walk in front of a packet steps over that packet. -/
theorem keyringLoop_packet {fuel : Nat} {w : KeyringWalk} {keys : List KeyringEntry} {p : Packet}
    {l rest : List UInt8} (h : keyringLoop H past pastSig file (fuel + 1) w = some keys)
    (hframed : Framed p l) (hrest : file.drop w.pos = l ++ rest) :
    keys = w.keys ∨ ∃ w', keyringTag H past pastSig file p.tag w = some w' ∧
      keyringLoop H past pastSig file fuel
        { w' with len := l.length, totlen := w'.totlen + l.length, pos := w'.pos + l.length } =
        some keys := by
  unfold keyringLoop at h
  by_cases hmore : 5 < sizeSub file.length w.pos
  · rw [if_pos hmore] at h
    obtain ⟨c, octets, hl, hbit⟩ := hframed.exists_cons
    have hc : file[w.pos]? = some c := by
      have hget : (file.drop w.pos)[0]? = some c := by
        rw [hrest, hl]
        rfl
      simpa using hget
    rw [hc, hrest] at h
    simp only [Option.bind_eq_bind, Option.bind_some, if_pos hbit,
      keyringPacket_framed hframed] at h
    obtain ⟨w', htag, hloop⟩ := Option.bind_eq_some_iff.mp h
    exact .inr ⟨w', htag, hloop⟩
  · rw [if_neg hmore] at h
    exact .inl (Option.some.inj h).symm

/-- Each public key packet adds one entry to the index at most. -/
theorem keyringLoop_length {ps : List Packet} {rest : List UInt8} (hwords : Words Framed ps rest)
    {fuel : Nat} {w : KeyringWalk} {keys : List KeyringEntry}
    (h : keyringLoop H past pastSig file fuel w = some keys) (hrest : file.drop w.pos = rest) :
    keys.length ≤ w.keys.length + numKeys ps := by
  induction hwords generalizing fuel w with
  | nil =>
    obtain ⟨fuel, rfl⟩ : ∃ k, fuel = k + 1 := by
      cases fuel with
      | zero => exact absurd h (by simp [keyringLoop])
      | succ fuel => exact ⟨fuel, rfl⟩
    unfold keyringLoop at h
    by_cases hmore : 5 < sizeSub file.length w.pos
    · have hnone : file[w.pos]? = none := by
        have hlen := congrArg List.length hrest
        rw [List.length_drop, List.length_nil] at hlen
        exact List.getElem?_eq_none (by omega)
      rw [if_pos hmore, hnone] at h
      exact absurd h (by simp)
    · rw [if_neg hmore] at h
      obtain rfl := Option.some.inj h
      exact Nat.le_add_right _ _
  | @cons p l ps rest hframed _ ih =>
    cases fuel with
    | zero => exact absurd h (by simp [keyringLoop])
    | succ fuel =>
      rcases keyringLoop_packet h hframed hrest with rfl | ⟨w', htag, hloop⟩
      · exact Nat.le_add_right _ _
      · obtain ⟨hpos, hlen⟩ := keyringTag_keys htag
        have hdrop : file.drop (w'.pos + l.length) = rest := by
          rw [hpos, ← List.drop_drop, hrest, List.drop_left]
        have hih := ih hloop hdrop
        have hcount : numKeys (p :: ps) = numKeys ps + if p.tag = tagPublickey then 1 else 0 := by
          simp [numKeys, List.countP_cons]
        rw [hcount]
        by_cases hkey : p.tag = tagPublickey
        · rw [if_pos hkey]
          split_ifs at hlen
          · simp only at hih
            omega
          · simp only at hih
            omega
        · rw [if_neg hkey]
          rw [if_neg fun hc => hkey hc.1] at hlen
          simp only at hih
          omega

end

/-! ## What is in the file -/

theorem numKeys_flattenKey {key : PublicKey} (h : key.WellTagged) : numKeys (flattenKey key) = 1 := by
  have hsigned : ∀ l : List SignedPacket, (∀ sp ∈ l, sp.packet.tag ≠ tagPublickey) →
      (∀ sp ∈ l, ∀ s ∈ sp.sigs, s.tag = tagSignature) → numKeys (l.flatMap flattenSigned) = 0 := by
    intro l hpacket hsigs
    refine List.countP_eq_zero.mpr fun p hp => ?_
    obtain ⟨sp, hsp, hp⟩ := List.mem_flatMap.mp hp
    rcases List.mem_cons.mp hp with rfl | hp
    · simpa using hpacket sp hsp
    · simp [hsigs sp hsp p hp]
  have hsigs : numKeys key.sigs = 0 := by
    refine List.countP_eq_zero.mpr fun p hp => ?_
    simp [h.sigs p hp]
  have huids := hsigned key.uids (fun sp hsp => by
    rcases h.uids sp hsp with htag | htag <;> rw [htag] <;> decide) h.uidSigs
  have hsubkeys := hsigned key.subkeys (fun sp hsp => by rw [h.subkeys sp hsp]; decide) h.subkeySigs
  simp only [numKeys] at hsigs huids hsubkeys
  simp only [numKeys, flattenKey, List.countP_append, List.countP_cons, hsigs, huids, hsubkeys,
    h.publickey]
  rfl

theorem numKeys_flattenPublickey {keys : List PublicKey} (h : ∀ key ∈ keys, key.WellTagged) :
    numKeys (flattenPublickey keys) = keys.length := by
  induction keys with
  | nil => rfl
  | cons key keys ih =>
    have hrest := ih fun k hk => h k (by simp [hk])
    have hkey := numKeys_flattenKey (h key (by simp))
    have hcons : flattenPublickey (key :: keys) = flattenKey key ++ flattenPublickey keys := rfl
    simp only [numKeys] at hrest hkey
    rw [hcons, numKeys, List.countP_append, hkey, hrest, List.length_cons, Nat.add_comm]

section

variable {keys : List PublicKey} {file : List UInt8} (h : KeyringFile keys file)
  (past : List Packet → UInt8) (pastSig : List PublicKey → Nat → UInt8)
include h

theorem KeyringFile.sane : ∀ p ∈ flattenPublickey keys, ∀ m, p.Sane m := by
  intro p hp m
  by_cases hv : p.tag ∈ versionedTags
  · obtain ⟨v, hhead, hsane⟩ := h.version p hp hv
    rw [Packet.Sane, hhead]
    exact hsane
  · exact versionSane_of_not_mem hv _

omit h in
theorem decodes_words {ps before : List Packet} {l : List UInt8} (hwords : Words Framed ps l)
    (hsane : ∀ p ∈ ps, ∀ m, p.Sane m) : Decodes past 0 before l ps [] := by
  induction hwords generalizing before with
  | nil => exact .done (.inl rfl)
  | cons hframed _ ih =>
    exact .packet (.inl rfl) hframed (hsane _ (by simp) _) (ih fun p hp => hsane p (by simp [hp]))

/-- The stream reader yields as many keys as there are. -/
theorem KeyringFile.length_readKeys : (readKeys past pastSig file []).length = keys.length := by
  have hdecodes : Decodes past 0 [] file (flattenPublickey keys) [] :=
    decodes_words past h.words h.sane
  obtain ⟨r, hloop, -, hkeep⟩ := readLoop_decodes hdecodes (Nat.lt_succ_self file.length)
  have hpackets : r.packets = flattenPublickey keys := by
    refine hkeep ?_
    rintro ⟨-, c, t, hct, -⟩
    exact absurd hct (by simp)
  obtain ⟨parsed, hparsed, hparse⟩ := parseLoop_flattenPublickey pastSig 0 [] h.wellTagged
  have hread : readOpenpgpStream buffer past (file.length + 1) file [] 0 = some r := by
    unfold readOpenpgpStream
    rw [show readLoop buffer past 0 (file.length + 1) 0 [] file = some r from hloop]
    rfl
  rw [readKeys, hread]
  simp only [parseKeys, hpackets, hparse, List.nil_append]
  exact hparsed.length_eq.symm

/-- The index has fewer entries than there are keys. -/
theorem KeyringFile.length_parseKeys {H : Hashes} {stale : List PublicKey} {fuel : Nat}
    {entries : List KeyringEntry}
    (hparse : keyringParseKeys H past pastSig file stale fuel = some entries) :
    entries.length < keys.length := by
  obtain ⟨key, rest, rfl⟩ := List.exists_cons_of_ne_nil h.ne_nil
  have hcount := numKeys_flattenPublickey h.wellTagged
  have htag := (h.wellTagged key (by simp)).publickey
  have hwords := h.words
  obtain ⟨tail, htail⟩ : ∃ tail, flattenPublickey (key :: rest) = key.publickey :: tail :=
    ⟨_, rfl⟩
  rw [htail] at hwords hcount
  generalize hfile : file = octets at hwords
  cases hwords with
  | @cons p l ps octets hframed hwords =>
    have hnum : numKeys tail + 1 = (key :: rest).length := by
      rw [← hcount]
      simp [numKeys, htag]
    unfold keyringParseKeys at hparse
    cases fuel with
    | zero => exact absurd hparse (by simp [keyringLoop])
    | succ fuel =>
      rcases keyringLoop_packet hparse hframed (by rw [hfile]; rfl) with rfl | ⟨w', htag', hloop⟩
      · simp
      · obtain ⟨hpos, hlen⟩ := keyringTag_keys htag'
        have hdrop : file.drop (w'.pos + l.length) = octets := by
          rw [hpos, hfile, Nat.zero_add, List.drop_left]
        have hle := keyringLoop_length hwords hloop hdrop
        have hnone : ¬ (key.publickey.tag = tagPublickey ∧ 0 < 0) := by simp
        rw [if_neg hnone] at hlen
        simp only [List.length_nil] at hlen hle
        omega

end

/-! ## What is delivered -/

theorem length_of_mapM {α β : Type} {f : α → Option β} {l : List α} {l' : List β}
    (h : l.mapM f = some l') : l'.length = l.length := by
  induction l generalizing l' with
  | nil =>
    obtain rfl := Option.some.inj h
    rfl
  | cons x l ih =>
    rw [List.mapM_cons] at h
    obtain ⟨y, -, h⟩ := Option.bind_eq_some_iff.mp h
    obtain ⟨ys, hys, h⟩ := Option.bind_eq_some_iff.mp h
    obtain rfl := Option.some.inj h
    rw [List.length_cons, List.length_cons, ih hys]

theorem length_keyringIterateKeys {past : List Packet → UInt8}
    {pastSig : List PublicKey → Nat → UInt8} {file : List UInt8} {entries : List KeyringEntry}
    {delivered : List (List PublicKey)}
    (h : keyringIterateKeys past pastSig file entries = some delivered) :
    delivered.length ≤ entries.length := by
  obtain ⟨fetched, hfetched, rfl⟩ := Option.map_eq_some_iff.mp h
  have hlen := length_of_mapM hfetched
  rw [List.length_range] at hlen
  rw [List.length_map, ← hlen]
  exact List.length_filter_le _ _

/-- **The keyring index never has all the keys.** For every file that holds the packets of one or
more keys the index comes out shorter than the list of keys, so fewer keys are delivered than the
stream reader yields. -/
theorem not_keyringAgrees (H : Hashes) (past : List Packet → UInt8)
    (pastSig : List PublicKey → Nat → UInt8) (stale : List PublicKey) (fuel : Nat)
    {keys : List PublicKey} {file : List UInt8} (h : KeyringFile keys file) :
    ¬ KeyringAgrees H past pastSig file stale fuel ∧
    ∀ entries delivered, keyringParseKeys H past pastSig file stale fuel = some entries →
      keyringIterateKeys past pastSig file entries = some delivered →
      delivered.length < (readKeys past pastSig file []).length := by
  have hfewer : ∀ entries delivered,
      keyringParseKeys H past pastSig file stale fuel = some entries →
      keyringIterateKeys past pastSig file entries = some delivered →
      delivered.length < (readKeys past pastSig file []).length := by
    intro entries delivered hparse hiterate
    have hlt := h.length_parseKeys past pastSig hparse
    have hle := length_keyringIterateKeys hiterate
    rw [h.length_readKeys past pastSig]
    omega
  refine ⟨?_, hfewer⟩
  rintro ⟨entries, hparse, hiterate, -⟩
  have hlt := hfewer entries _ hparse hiterate
  rw [List.length_map] at hlt
  exact absurd hlt (lt_irrefl _)

/-- Two public key packets, in the old and in the new format. -/
theorem keyringFile_pair :
    KeyringFile [⟨⟨tagPublickey, false, [4, 0, 0, 0, 0, 1]⟩, false, [], [], []⟩,
        ⟨⟨tagPublickey, true, [4, 0, 0, 0, 0, 2]⟩, false, [], [], []⟩]
      [0x98, 6, 4, 0, 0, 0, 0, 1, 0xC6, 6, 4, 0, 0, 0, 0, 2] where
  ne_nil := by simp
  wellTagged := by
    intro key hkey
    have hkeys : key.publickey.tag = tagPublickey ∧ key.sigs = [] ∧ key.uids = [] ∧
        key.subkeys = [] := by
      rcases List.mem_cons.mp hkey with rfl | hkey
      · exact ⟨rfl, rfl, rfl, rfl⟩
      · obtain rfl := List.mem_singleton.mp hkey
        exact ⟨rfl, rfl, rfl, rfl⟩
    obtain ⟨htag, hsigs, huids, hsubkeys⟩ := hkeys
    constructor <;> simp [htag, hsigs, huids, hsubkeys]
  version := by
    intro p hp _
    rcases List.mem_cons.mp hp with rfl | hp
    · exact ⟨4, rfl, rfl⟩
    · obtain rfl := List.mem_singleton.mp hp
      exact ⟨4, rfl, rfl⟩
  words := by
    have hold : Framed ⟨tagPublickey, false, [4, 0, 0, 0, 0, 1]⟩ [0x98, 6, 4, 0, 0, 0, 0, 1] :=
      @Framed.old 0x98 [6] [4, 0, 0, 0, 0, 1] (by decide) (by decide)
        (@OldLength.intro _ [6] (by decide) (by decide))
    have hnew : Framed ⟨tagPublickey, true, [4, 0, 0, 0, 0, 2]⟩ [0xC6, 6, 4, 0, 0, 0, 0, 2] :=
      @Framed.new 0xC6 [6] [4, 0, 0, 0, 0, 2] (by decide) (by decide)
        (@NewLength.one 6 (by decide))
    exact .cons hold (.cons hnew .nil)

/-- Of two keys, fewer than two are delivered. -/
theorem not_keyringAgrees_sample :
    ¬ KeyringAgrees ⟨List.take 16, List.take 20, List.take 32⟩ (fun _ => 0) (fun _ _ => 0)
      [0x98, 6, 4, 0, 0, 0, 0, 1, 0xC6, 6, 4, 0, 0, 0, 0, 2] [] 17 :=
  (not_keyringAgrees _ (fun _ => 0) (fun _ _ => 0) [] 17 keyringFile_pair).1

/-- The index of two keys lacks one of them. -/
theorem keyringParseKeys_misses_last_key :
    ¬ ∀ (H : Hashes) (past : List Packet → UInt8) (pastSig : List PublicKey → Nat → UInt8)
      (keys : List PublicKey) (file : List UInt8) (stale : List PublicKey), KeyringFile keys file →
        ∃ fuel, KeyringAgrees H past pastSig file stale fuel := by
  intro hall
  obtain ⟨fuel, entries, hparse, -, hfps⟩ := hall ⟨List.take 16, List.take 20, List.take 32⟩ (fun _ => 0) (fun _ _ => 0) _ _ []
    keyringFile_pair
  have hlt := keyringFile_pair.length_parseKeys _ _ hparse
  have hlen := congrArg List.length hfps
  rw [List.length_map, List.length_map, keyringFile_pair.length_readKeys] at hlen
  omega

end Onak
