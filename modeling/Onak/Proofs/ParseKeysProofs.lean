import Onak.ParseKey

/-!
# Proofs: parsing keys

`parse_keys` puts each packet on the last key of the list, behind everything that is there already;
so flattening the keys after a round gives what it gave before, with the packet at the end. In the
other direction, the packets of a flattened key are taken up in the order of its lists.
-/

namespace Onak

/-! ## Flattening what was parsed -/

theorem flatMap_addSigToLast {l : List SignedPacket} (h : l ≠ []) (p : Packet) :
    (addSigToLast l p).flatMap flattenSigned = l.flatMap flattenSigned ++ [p] := by
  obtain ⟨init, last, rfl⟩ := l.eq_nil_or_concat.resolve_left h
  simp [addSigToLast, flattenSigned]

theorem flattenKey_addSignature (m : Nat → UInt8) (k : PublicKey) (p : Packet) :
    flattenKey (addSignature m k p) = flattenKey k ++ [p] := by
  unfold addSignature
  by_cases hs : k.subkeys = []
  · by_cases hu : k.uids = []
    · simp [hs, hu, flattenKey]
    · simp [hs, hu, flattenKey, flatMap_addSigToLast hu]
  · simp [hs, flattenKey, flatMap_addSigToLast hs]

theorem flattenKey_addUid {k : PublicKey} (h : k.subkeys = []) (p : Packet) :
    flattenKey { k with uids := k.uids ++ [⟨p, []⟩] } = flattenKey k ++ [p] := by
  simp [flattenKey, h, flattenSigned]

theorem flattenKey_addSubkey (k : PublicKey) (p : Packet) :
    flattenKey { k with subkeys := k.subkeys ++ [⟨p, []⟩] } = flattenKey k ++ [p] := by
  simp [flattenKey, flattenSigned]

theorem flattenPublickey_last {keys : List PublicKey} {k k' : PublicKey} {p : Packet}
    (hk : keys.getLast? = some k) (h : flattenKey k' = flattenKey k ++ [p]) :
    flattenPublickey (keys.dropLast ++ [k']) = flattenPublickey keys ++ [p] := by
  obtain ⟨init, rfl⟩ := List.getLast?_eq_some_iff.mp hk
  simp [flattenPublickey, h]

theorem flatten_parseUid {keys keys' : List PublicKey} {p : Packet}
    (h : (do
      let curkey ← keys.getLast?
      if curkey.subkeys ≠ [] then
        none
      else
        return keys.dropLast ++ [{ curkey with uids := curkey.uids ++ [⟨p, []⟩] }]) = some keys') :
    flattenPublickey keys' = flattenPublickey keys ++ [p] := by
  obtain ⟨k, hk, hkeys⟩ := Option.bind_eq_some_iff.mp h
  by_cases hs : k.subkeys = []
  · rw [if_neg (not_not.mpr hs)] at hkeys
    obtain rfl := Option.some.inj hkeys
    exact flattenPublickey_last hk (flattenKey_addUid hs p)
  · rw [if_pos hs] at hkeys
    exact absurd hkeys (by simp)

section

variable {past : List PublicKey → Nat → UInt8}

/-- One round of `parse_keys` adds its packet to the flattened keys, if it has a place there. -/
theorem flatten_parsePacket {keys keys' : List PublicKey} {p : Packet}
    (h : parsePacket past keys p = some keys') :
    flattenPublickey keys' = flattenPublickey keys ++ [p].filter fun p => p.tag ∈ keyTags := by
  have hplaced : ∀ {t}, p.tag = t → t ∈ keyTags → [p].filter (fun p => p.tag ∈ keyTags) = [p] := by
    intro t htag hmem
    simp [htag, hmem]
  unfold parsePacket at h
  split at h
  · rename_i htag
    obtain ⟨k, hk, hkeys⟩ := Option.bind_eq_some_iff.mp h
    obtain rfl := Option.some.inj hkeys
    rw [hplaced htag (by simp [keyTags])]
    exact flattenPublickey_last hk (flattenKey_addSignature (past keys) k p)
  · rename_i htag
    obtain rfl := Option.some.inj h
    rw [hplaced htag (by simp [keyTags])]
    simp [flattenPublickey, flattenKey]
  · rename_i htag
    rw [hplaced htag (by simp [keyTags])]
    exact flatten_parseUid h
  · rename_i htag
    rw [hplaced htag (by simp [keyTags])]
    exact flatten_parseUid h
  · rename_i htag
    obtain ⟨k, hk, hkeys⟩ := Option.bind_eq_some_iff.mp h
    obtain rfl := Option.some.inj hkeys
    rw [hplaced htag (by simp [keyTags])]
    exact flattenPublickey_last hk (flattenKey_addSubkey k p)
  · rename_i h1 h2 h3 h4 h5
    obtain rfl := Option.some.inj h
    have hnot : p.tag ∉ keyTags := by
      simp only [keyTags, List.mem_cons, List.not_mem_nil, or_false, not_or]
      exact ⟨h1, h2, h3, h5, h4⟩
    simp [hnot]

/-- A parse that comes to the end of the packets has taken up all that have a place on a key. -/
theorem flatten_parseLoop {packets : List Packet} {keys : List PublicKey} {count : Nat}
    (h : (parseLoop past count keys packets).done = true) :
    flattenPublickey (parseLoop past count keys packets).keys =
      flattenPublickey keys ++ packets.filter fun p => p.tag ∈ keyTags := by
  induction packets generalizing keys count with
  | nil => simp [parseLoop]
  | cons p packets ih =>
    unfold parseLoop at h ⊢
    cases hp : parsePacket past keys p with
    | none => simp [hp] at h
    | some keys' =>
      simp only [hp] at h ⊢
      have hone : (p :: packets).filter (fun p => p.tag ∈ keyTags) =
          [p].filter (fun p => p.tag ∈ keyTags) ++ packets.filter fun p => p.tag ∈ keyTags :=
        List.filter_append [p] packets
      rw [ih h, flatten_parsePacket hp, hone, List.append_assoc]

end

/-! ## Key revocations -/

theorem revokesKey_of_isKeyRevocation {p : Packet} (h : p.isKeyRevocation = true)
    (m : Nat → UInt8) : revokesKey m p = true := by
  simp only [Packet.isKeyRevocation, decide_eq_true_eq] at h
  simp only [revokesKey, Packet.octetAt]
  rcases h with ⟨h0, h2⟩ | ⟨h0, h1⟩
  · simp [h0, h2]
  · simp [h0, h1]

/-- On a signature that is not cut short, memory behind it is not looked at. -/
theorem isKeyRevocation_or_cut {p : Packet} {m : Nat → UInt8} (h : revokesKey m p = true) :
    p.isKeyRevocation = true ∨ p.Cut := by
  simp only [revokesKey, Packet.octetAt] at h
  simp only [Packet.isKeyRevocation, Packet.Cut, Packet.length]
  -- cut short are `[]`, `[3]`, `[3, _]` and `[4]`
  rcases hp : p.data with _ | ⟨x, _ | ⟨y, _ | ⟨z, l⟩⟩⟩ <;> simp [hp] at h ⊢ <;> tauto

/-- Octets behind a packet that make a revocation of every signature that is cut short. -/
def worstPast (i : Nat) : UInt8 := if i = 0 then 3 else sigtypeKeyRev

theorem revokesKey_worstPast {p : Packet} (h : p.Cut) : revokesKey worstPast p = true := by
  simp only [Packet.Cut, Packet.length] at h
  simp only [revokesKey, Packet.octetAt, worstPast]
  rcases h with hp | ⟨h0, hlen⟩ | ⟨h0, hlen⟩
  · simp [hp]
  · have h2 : p.data[2]? = none := List.getElem?_eq_none (by omega)
    simp [h0, h2]
  · have h1 : p.data[1]? = none := List.getElem?_eq_none (by omega)
    simp [h0, h1]

/-- What is known of the `revoked` flag of a key that is parsed with the given direct signatures. -/
structure RevokedBy (past : List PublicKey → Nat → UInt8) (sigs : List Packet) (r : Bool) : Prop where
  some : r = true → ∃ s ∈ sigs, ∃ keys, revokesKey (past keys) s = true
  all : ∀ s ∈ sigs, (∀ keys, revokesKey (past keys) s = true) → r = true

/-! ## Parsing what was flattened -/

theorem addSigToLast_append (l : List SignedPacket) (sp : SignedPacket) (s : Packet) :
    addSigToLast (l ++ [sp]) s = l ++ [{ sp with sigs := sp.sigs ++ [s] }] := by
  simp [addSigToLast]

section

variable (past : List PublicKey → Nat → UInt8) (count : Nat) (keys : List PublicKey)
  (rest : List Packet)

theorem parseLoop_step {p : Packet} {keys keys' : List PublicKey} (hp : p.tag ≠ tagPublickey)
    (h : parsePacket past keys p = some keys') :
    parseLoop past count keys (p :: rest) = parseLoop past count keys' rest := by
  simp only [parseLoop, h, hp, if_false]

theorem parseLoop_signature {p : Packet} (h : p.tag = tagSignature) (k : PublicKey) :
    parseLoop past count (keys ++ [k]) (p :: rest) =
      parseLoop past count (keys ++ [addSignature (past (keys ++ [k])) k p]) rest := by
  have hp : parsePacket past (keys ++ [k]) p =
      some (keys ++ [addSignature (past (keys ++ [k])) k p]) := by
    unfold parsePacket
    rw [h]
    simp
  exact parseLoop_step past count rest (by rw [h]; decide) hp

/-- Signatures that come before any user id or subkey go on the key itself. -/
theorem parseLoop_direct {sigs : List Packet} (h : ∀ s ∈ sigs, s.tag = tagSignature) (pk : Packet)
    (revoked : Bool) (direct : List Packet) :
    ∃ r, RevokedBy past sigs r ∧
      parseLoop past count (keys ++ [⟨pk, revoked, direct, [], []⟩]) (sigs ++ rest) =
        parseLoop past count (keys ++ [⟨pk, revoked || r, direct ++ sigs, [], []⟩]) rest := by
  induction sigs generalizing revoked direct with
  | nil => exact ⟨false, ⟨by simp, by simp⟩, by simp⟩
  | cons s sigs ih =>
    obtain ⟨m, hm⟩ : ∃ m, m = past (keys ++ [⟨pk, revoked, direct, [], []⟩]) := ⟨_, rfl⟩
    have hadd : addSignature m ⟨pk, revoked, direct, [], []⟩ s =
        ⟨pk, revoked || revokesKey m s, direct ++ [s], [], []⟩ := by
      simp [addSignature]
    obtain ⟨r, hr, hloop⟩ := ih (fun t ht => h t (by simp [ht])) (revoked || revokesKey m s)
      (direct ++ [s])
    refine ⟨revokesKey m s || r, ⟨fun htrue => ?_, fun t ht hall => ?_⟩, ?_⟩
    · rcases Bool.or_eq_true_iff.mp htrue with hs | hs
      · exact ⟨s, by simp, _, by rw [← hm]; exact hs⟩
      · obtain ⟨t, ht, hrev⟩ := hr.some hs
        exact ⟨t, by simp [ht], hrev⟩
    · rcases List.mem_cons.mp ht with rfl | ht
      · rw [hm, hall, Bool.true_or]
      · rw [hr.all t ht hall, Bool.or_true]
    · rw [List.cons_append, parseLoop_signature past count keys _ (h s (by simp)), ← hm, hadd, hloop]
      simp [Bool.or_assoc]

theorem parseLoop_uidSigs {sigs : List Packet} (h : ∀ s ∈ sigs, s.tag = tagSignature) (pk : Packet)
    (revoked : Bool) (direct : List Packet) (uids : List SignedPacket) (uid : Packet)
    (uidsigs : List Packet) :
    parseLoop past count (keys ++ [⟨pk, revoked, direct, uids ++ [⟨uid, uidsigs⟩], []⟩])
        (sigs ++ rest) =
      parseLoop past count (keys ++ [⟨pk, revoked, direct, uids ++ [⟨uid, uidsigs ++ sigs⟩], []⟩])
        rest := by
  induction sigs generalizing uidsigs with
  | nil => simp
  | cons s sigs ih =>
    have hadd (m : Nat → UInt8) :
        addSignature m ⟨pk, revoked, direct, uids ++ [⟨uid, uidsigs⟩], []⟩ s =
          ⟨pk, revoked, direct, uids ++ [⟨uid, uidsigs ++ [s]⟩], []⟩ := by
      simp [addSignature, addSigToLast_append]
    rw [List.cons_append, parseLoop_signature past count keys _ (h s (by simp)), hadd,
      ih fun t ht => h t (by simp [ht])]
    simp

theorem parseLoop_subkeySigs {sigs : List Packet} (h : ∀ s ∈ sigs, s.tag = tagSignature)
    (pk : Packet) (revoked : Bool) (direct : List Packet) (uids subkeys : List SignedPacket)
    (subkey : Packet) (subkeysigs : List Packet) :
    parseLoop past count
        (keys ++ [⟨pk, revoked, direct, uids, subkeys ++ [⟨subkey, subkeysigs⟩]⟩]) (sigs ++ rest) =
      parseLoop past count
        (keys ++ [⟨pk, revoked, direct, uids, subkeys ++ [⟨subkey, subkeysigs ++ sigs⟩]⟩]) rest := by
  induction sigs generalizing subkeysigs with
  | nil => simp
  | cons s sigs ih =>
    have hadd (m : Nat → UInt8) :
        addSignature m ⟨pk, revoked, direct, uids, subkeys ++ [⟨subkey, subkeysigs⟩]⟩ s =
          ⟨pk, revoked, direct, uids, subkeys ++ [⟨subkey, subkeysigs ++ [s]⟩]⟩ := by
      simp [addSignature, addSigToLast_append]
    rw [List.cons_append, parseLoop_signature past count keys _ (h s (by simp)), hadd,
      ih fun t ht => h t (by simp [ht])]
    simp

theorem parseLoop_uids {l : List SignedPacket}
    (ht : ∀ sp ∈ l, sp.packet.tag = tagUid ∨ sp.packet.tag = tagUat)
    (hs : ∀ sp ∈ l, ∀ s ∈ sp.sigs, s.tag = tagSignature) (pk : Packet) (revoked : Bool)
    (direct : List Packet) (uids : List SignedPacket) :
    parseLoop past count (keys ++ [⟨pk, revoked, direct, uids, []⟩])
        (l.flatMap flattenSigned ++ rest) =
      parseLoop past count (keys ++ [⟨pk, revoked, direct, uids ++ l, []⟩]) rest := by
  induction l generalizing uids with
  | nil => simp
  | cons sp l ih =>
    have hp : parsePacket past (keys ++ [⟨pk, revoked, direct, uids, []⟩]) sp.packet =
        some (keys ++ [⟨pk, revoked, direct, uids ++ [⟨sp.packet, []⟩], []⟩]) := by
      unfold parsePacket
      rcases ht sp (by simp) with h | h
      · rw [h]; simp
      · rw [h]; simp
    have hne : sp.packet.tag ≠ tagPublickey := by
      rcases ht sp (by simp) with h | h <;> rw [h] <;> decide
    simp only [List.flatMap_cons, flattenSigned, List.cons_append, List.append_assoc]
    rw [parseLoop_step past count _ hne hp, parseLoop_uidSigs past count keys _ (hs sp (by simp)),
      ih (fun x hx => ht x (by simp [hx])) (fun x hx => hs x (by simp [hx]))]
    simp

theorem parseLoop_subkeys {l : List SignedPacket}
    (ht : ∀ sp ∈ l, sp.packet.tag = tagPublicsubkey)
    (hs : ∀ sp ∈ l, ∀ s ∈ sp.sigs, s.tag = tagSignature) (pk : Packet) (revoked : Bool)
    (direct : List Packet) (uids subkeys : List SignedPacket) :
    parseLoop past count (keys ++ [⟨pk, revoked, direct, uids, subkeys⟩])
        (l.flatMap flattenSigned ++ rest) =
      parseLoop past count (keys ++ [⟨pk, revoked, direct, uids, subkeys ++ l⟩]) rest := by
  induction l generalizing subkeys with
  | nil => simp
  | cons sp l ih =>
    have htag := ht sp (by simp)
    have hp : parsePacket past (keys ++ [⟨pk, revoked, direct, uids, subkeys⟩]) sp.packet =
        some (keys ++ [⟨pk, revoked, direct, uids, subkeys ++ [⟨sp.packet, []⟩]⟩]) := by
      unfold parsePacket
      rw [htag]
      simp
    have hne : sp.packet.tag ≠ tagPublickey := by rw [htag]; decide
    simp only [List.flatMap_cons, flattenSigned, List.cons_append, List.append_assoc]
    rw [parseLoop_step past count _ hne hp,
      parseLoop_subkeySigs past count keys _ (hs sp (by simp)),
      ih (fun x hx => ht x (by simp [hx])) (fun x hx => hs x (by simp [hx]))]
    simp

/-- A flattened key is parsed into the key it was, with the `revoked` flag worked out again. -/
theorem parseLoop_flattenKey {k : PublicKey} (hk : k.WellTagged) :
    ∃ r, RevokedBy past k.sigs r ∧ parseLoop past count keys (flattenKey k ++ rest) =
      parseLoop past (count + 1) (keys ++ [{ k with revoked := r }]) rest := by
  have hstart : parsePacket past keys k.publickey =
      some (keys ++ [⟨k.publickey, false, [], [], []⟩]) := by
    unfold parsePacket
    rw [hk.publickey]
    rfl
  have hpk : parseLoop past count keys (flattenKey k ++ rest) =
      parseLoop past (count + 1) (keys ++ [⟨k.publickey, false, [], [], []⟩])
        (k.sigs ++ (k.uids.flatMap flattenSigned ++ (k.subkeys.flatMap flattenSigned ++ rest))) := by
    simp only [flattenKey, List.cons_append, List.append_assoc, parseLoop, hstart, hk.publickey,
      if_true]
  obtain ⟨r, hr, hloop⟩ := parseLoop_direct past (count + 1) keys
    (k.uids.flatMap flattenSigned ++ (k.subkeys.flatMap flattenSigned ++ rest)) hk.sigs k.publickey
    false []
  refine ⟨r, hr, ?_⟩
  rw [hpk, hloop, parseLoop_uids past _ _ _ hk.uids hk.uidSigs,
    parseLoop_subkeys past _ _ _ hk.subkeys hk.subkeySigs]
  simp

theorem parseLoop_flattenPublickey {l : List PublicKey} (h : ∀ k ∈ l, k.WellTagged) :
    ∃ l', List.Forall₂ (fun k k' => ∃ r, RevokedBy past k.sigs r ∧ k' = { k with revoked := r })
        l l' ∧
      parseLoop past count keys (flattenPublickey l) =
        ⟨true, keys ++ l', (count + l.length : Nat)⟩ := by
  induction l generalizing count keys with
  | nil => exact ⟨[], .nil, by simp [flattenPublickey, parseLoop]⟩
  | cons k l ih =>
    have hcons : flattenPublickey (k :: l) = flattenKey k ++ flattenPublickey l := rfl
    obtain ⟨r, hr, hkey⟩ := parseLoop_flattenKey past count keys (flattenPublickey l) (h k (by simp))
    obtain ⟨l', hl', hloop⟩ := ih (count + 1) (keys ++ [{ k with revoked := r }])
      fun x hx => h x (by simp [hx])
    refine ⟨{ k with revoked := r } :: l', .cons ⟨r, hr, rfl⟩ hl', ?_⟩
    have hcount : count + 1 + l.length = count + (k :: l).length := by
      rw [List.length_cons]
      omega
    rw [hcons, hkey, hloop, List.append_assoc, hcount]
    rfl

end

/-- The flag of a key comes out right whatever lies in memory if the key is revoked by a signature,
or by none that might be taken for one. -/
theorem RevokedBy.eq_of_not_cut {past : List PublicKey → Nat → UInt8} {sigs : List Packet}
    {r r' : Bool} (h : RevokedBy past sigs r) (hr' : r' = sigs.any Packet.isKeyRevocation)
    (hcut : r' = true ∨ ∀ s ∈ sigs, ¬ s.Cut) : r = r' := by
  by_cases htrue : r' = true
  · rw [htrue] at hr' ⊢
    obtain ⟨s, hs, hrev⟩ := List.any_eq_true.mp hr'.symm
    exact h.all s hs fun keys => revokesKey_of_isKeyRevocation hrev (past keys)
  · rw [Bool.not_eq_true] at htrue
    rw [htrue] at hr' ⊢
    rw [Bool.eq_false_iff]
    intro hr
    obtain ⟨s, hs, keys, hrev⟩ := h.some hr
    rcases isKeyRevocation_or_cut hrev with hrev | hs'
    · exact absurd hr'.symm (by simpa using ⟨s, hs, hrev⟩)
    · exact hcut.elim (by simp [htrue]) fun hno => hno s hs hs'

/-- **Parsing and flattening are inverse to each other, up to octets behind short signatures.**
Well-tagged keys with the right `revoked` flags come back from their flattened form, whatever lies in
memory, if and only if no key that is not revoked has a direct signature that is cut short; and a
packet list that is parsed to its end comes back from the parsed keys, less the packets that have no
place on a key. -/
theorem parseKeys_flattenPublickey_iff (keys : List PublicKey) (packets : List Packet) :
    ((∀ k ∈ keys, k.WellTagged ∧ k.revoked = k.sigs.any Packet.isKeyRevocation) →
      ((∀ past, parseKeys past (flattenPublickey keys) [] = ⟨true, keys, keys.length⟩) ↔
        ∀ k ∈ keys, k.revoked = true ∨ ∀ s ∈ k.sigs, ¬ s.Cut)) ∧
    ∀ past, (parseKeys past packets []).done = true →
      flattenPublickey (parseKeys past packets []).keys = packets.filter fun p => p.tag ∈ keyTags := by
  constructor
  · intro hkeys
    constructor
    · intro hall k hk
      obtain ⟨l', hl', hloop⟩ := parseLoop_flattenPublickey (fun _ => worstPast) 0 []
        fun k hk => (hkeys k hk).1
      have heq : l' = keys := by
        have hparse := hall fun _ => worstPast
        unfold parseKeys at hparse
        rw [hloop] at hparse
        simpa using congrArg ParseResult.keys hparse
      subst heq
      obtain ⟨r, hr, hrk⟩ := List.forall₂_same.mp hl' k hk
      have hflag : k.revoked = r := congrArg PublicKey.revoked hrk
      by_cases hcut : ∀ s ∈ k.sigs, ¬ s.Cut
      · exact Or.inr hcut
      · obtain ⟨s, hs, hscut⟩ : ∃ s ∈ k.sigs, s.Cut := by simpa using hcut
        exact Or.inl (hflag.trans (hr.all s hs fun _ => revokesKey_worstPast hscut))
    · intro hcut past
      obtain ⟨l', hl', hloop⟩ := parseLoop_flattenPublickey past 0 [] fun k hk => (hkeys k hk).1
      have heq : keys = l' := by
        have hboth := (List.forall₂_and_left _ _).mpr
          ⟨fun k hk => And.intro (hkeys k hk) (hcut k hk), hl'⟩
        rw [← List.forall₂_eq_eq_eq]
        refine hboth.imp fun k k' hk => ?_
        obtain ⟨⟨⟨-, hflag⟩, hkcut⟩, r, hr, rfl⟩ := hk
        rw [hr.eq_of_not_cut hflag hkcut]
      unfold parseKeys
      rw [hloop, ← heq]
      simp
  · intro past h
    unfold parseKeys at h ⊢
    rw [flatten_parseLoop h]
    rfl

/-- A key with a direct signature of one octet. -/
def keyWithCutSig : PublicKey :=
  ⟨⟨tagPublickey, false, [4]⟩, false, [⟨tagSignature, false, [4]⟩], [], []⟩

/-- A signature of one octet with the type of a revocation behind it in memory revokes the key. -/
theorem parseKeys_reads_behind :
    ¬ ∀ (past : List PublicKey → Nat → UInt8) (keys : List PublicKey),
      (∀ k ∈ keys, k.WellTagged ∧ k.revoked = k.sigs.any Packet.isKeyRevocation) →
      parseKeys past (flattenPublickey keys) [] = ⟨true, keys, keys.length⟩ := by
  intro hall
  have hkey : ∀ k ∈ [keyWithCutSig],
      k.WellTagged ∧ k.revoked = k.sigs.any Packet.isKeyRevocation := by
    intro k hk
    obtain rfl := List.mem_singleton.mp hk
    exact ⟨⟨rfl, by simp [keyWithCutSig], by simp [keyWithCutSig], by simp [keyWithCutSig],
      by simp [keyWithCutSig], by simp [keyWithCutSig]⟩, by decide⟩
  have hkeys := congrArg ParseResult.keys (hall (fun _ => worstPast) [keyWithCutSig] hkey)
  exact absurd hkeys (by decide)

/-- A revoked key with a user id comes back; a trust packet is left out. -/
theorem parseKeys_flattenPublickey_sample :
    (∀ past, parseKeys past [⟨tagPublickey, false, [4]⟩, ⟨tagSignature, false, [4, 0x20]⟩,
        ⟨tagUid, true, [65]⟩, ⟨tagSignature, false, [4, 0x10]⟩] [] =
      ⟨true, [⟨⟨tagPublickey, false, [4]⟩, true, [⟨tagSignature, false, [4, 0x20]⟩],
        [⟨⟨tagUid, true, [65]⟩, [⟨tagSignature, false, [4, 0x10]⟩]⟩], []⟩], 1⟩) ∧
    ∀ past, flattenPublickey (parseKeys past
        [⟨tagPublickey, false, [4]⟩, ⟨12, false, [1]⟩, ⟨tagUid, true, [65]⟩] []).keys =
      [⟨tagPublickey, false, [4]⟩, ⟨tagUid, true, [65]⟩] := by
  constructor
  · refine ((parseKeys_flattenPublickey_iff [⟨⟨tagPublickey, false, [4]⟩, true,
      [⟨tagSignature, false, [4, 0x20]⟩],
      [⟨⟨tagUid, true, [65]⟩, [⟨tagSignature, false, [4, 0x10]⟩]⟩], []⟩] []).1 ?_).mpr (by simp)
    intro k hk
    obtain rfl := List.mem_singleton.mp hk
    exact ⟨⟨rfl, by simp, by simp, by simp, by simp, by simp⟩, by decide⟩
  · intro past
    exact (parseKeys_flattenPublickey_iff [] _).2 past rfl

/-! ## The returned value -/

/-- What `parse_keys` has to know of the last key of a list: whether there is one, and whether it
has a subkey. -/
def lastKey (keys : List PublicKey) : Option Bool := keys.getLast?.map fun k => k.subkeys ≠ []

/-- What is to be known of the last key behind one more packet. -/
def lastKeyStep (cur : Option Bool) (p : Packet) : Option Bool :=
  if p.tag = tagPublickey then some false
  else if p.tag = tagPublicsubkey then cur.map fun _ => true
  else cur

/-- The packet cannot be placed behind the packets `front`, on a list that starts with `keys`: a
signature, user id or subkey without a key, or a user id on a key that has a subkey. -/
def Misplaced (keys : List PublicKey) (front : List Packet) (p : Packet) : Prop :=
  let cur := front.foldl lastKeyStep (lastKey keys)
  (p.tag ∈ [tagSignature, tagUid, tagUat, tagPublicsubkey] ∧ cur = none) ∨
    (p.tag ∈ [tagUid, tagUat] ∧ cur = some true)

/-- The packets `front` are those before the first one that cannot be placed. -/
def StopsBehind (keys : List PublicKey) (packets front : List Packet) : Prop :=
  ∃ p rest, packets = front ++ p :: rest ∧ Misplaced keys front p ∧
    ∀ front' p' rest', front = front' ++ p' :: rest' → ¬ Misplaced keys front' p'

theorem lastKey_append (keys : List PublicKey) (k : PublicKey) :
    lastKey (keys ++ [k]) = some (decide (k.subkeys ≠ [])) := by
  simp [lastKey]

theorem addSignature_subkeys (m : Nat → UInt8) (k : PublicKey) (p : Packet) :
    (addSignature m k p).subkeys = [] ↔ k.subkeys = [] := by
  unfold addSignature
  by_cases hs : k.subkeys = []
  · by_cases hu : k.uids = [] <;> simp [hs, hu]
  · obtain ⟨init, last, hl⟩ := k.subkeys.eq_nil_or_concat.resolve_left hs
    simp [hl, addSigToLast]

section

variable (past : List PublicKey → Nat → UInt8)

/-- What a round of `parse_keys` can do: the packet cannot be placed, or the list has one more key
if it is a public key and the last key is known. -/
theorem parsePacket_cases (keys : List PublicKey) (p : Packet) :
    (Misplaced keys [] p ∧ parsePacket past keys p = none) ∨
    (¬ Misplaced keys [] p ∧ ∃ keys', parsePacket past keys p = some keys' ∧
      lastKey keys' = lastKeyStep (lastKey keys) p ∧
      keys'.length = keys.length + if p.tag = tagPublickey then 1 else 0) := by
  unfold Misplaced parsePacket lastKeyStep
  simp only [List.foldl_nil]
  rcases keys.eq_nil_or_concat with rfl | ⟨init, k, rfl⟩
  · -- without a key only a public key or a packet of another kind can follow
    split <;> rename_i htag <;> simp_all [lastKey]
  · have hsub : decide (k.subkeys ≠ []) = true ↔ k.subkeys ≠ [] := decide_eq_true_iff
    rw [List.concat_eq_append]
    simp only [lastKey_append, List.getLast?_concat, List.dropLast_concat, Option.bind_eq_bind,
      Option.bind_some, reduceCtorEq, and_false, false_or, Option.some.injEq, hsub]
    split
    · rename_i htag
      refine Or.inr ⟨by simp [htag], _, rfl, ?_, by simp [htag]⟩
      simp [htag, lastKey_append, addSignature_subkeys]
    · rename_i htag
      refine Or.inr ⟨by simp [htag], _, rfl, ?_, by simp [htag]⟩
      rw [lastKey_append]
      simp [htag]
    · rename_i htag
      by_cases hs : k.subkeys = []
      · exact Or.inr ⟨by simp [hs], init ++ [{ k with uids := k.uids ++ [⟨p, []⟩] }],
          by simp [hs], by simp [htag, lastKey_append], by simp [htag]⟩
      · exact Or.inl ⟨⟨by simp [htag], hs⟩, by simp [hs]⟩
    · rename_i htag
      by_cases hs : k.subkeys = []
      · exact Or.inr ⟨by simp [hs], init ++ [{ k with uids := k.uids ++ [⟨p, []⟩] }],
          by simp [hs], by simp [htag, lastKey_append], by simp [htag]⟩
      · exact Or.inl ⟨⟨by simp [htag], hs⟩, by simp [hs]⟩
    · rename_i htag
      refine Or.inr ⟨by simp [htag], _, rfl, ?_, by simp [htag]⟩
      simp [htag, lastKey_append]
    · rename_i h1 h2 h3 h4 h5
      have hkey : p.tag ≠ tagPublickey := h2
      have hsubkey : p.tag ≠ tagPublicsubkey := h5
      have huid : p.tag ∉ [tagUid, tagUat] := by simpa using ⟨h3, h4⟩
      refine Or.inr ⟨fun h => huid h.1, _, rfl, ?_, by simp [hkey]⟩
      rw [lastKey_append, if_neg hkey, if_neg hsubkey]

theorem misplaced_cons {keys keys' : List PublicKey} {q : Packet}
    (h : lastKey keys' = lastKeyStep (lastKey keys) q) (front : List Packet) (p : Packet) :
    Misplaced keys (q :: front) p ↔ Misplaced keys' front p := by
  unfold Misplaced
  rw [List.foldl_cons, h]

theorem stopsBehind_nil {keys : List PublicKey} {q : Packet} {packets front : List Packet}
    (hq : Misplaced keys [] q) : StopsBehind keys (q :: packets) front ↔ front = [] := by
  constructor
  · rintro ⟨p, rest, hsplit, -, hfirst⟩
    cases front with
    | nil => rfl
    | cons q' front =>
      obtain ⟨rfl, -⟩ := List.cons.inj hsplit
      exact absurd hq (hfirst [] q front rfl)
  · rintro rfl
    exact ⟨q, packets, rfl, hq, by simp⟩

theorem stopsBehind_cons {keys keys' : List PublicKey} {q : Packet} {packets front : List Packet}
    (hq : ¬ Misplaced keys [] q) (h : lastKey keys' = lastKeyStep (lastKey keys) q) :
    StopsBehind keys (q :: packets) front ↔
      ∃ front', front = q :: front' ∧ StopsBehind keys' packets front' := by
  constructor
  · rintro ⟨p, rest, hsplit, hp, hfirst⟩
    cases front with
    | nil =>
      obtain ⟨rfl, -⟩ := List.cons.inj hsplit
      exact absurd hp hq
    | cons q' front =>
      obtain ⟨rfl, hrest⟩ := List.cons.inj hsplit
      refine ⟨front, rfl, p, rest, hrest, (misplaced_cons h front p).mp hp, ?_⟩
      intro front' p' rest' hfront hmis
      exact hfirst (q :: front') p' rest' (by rw [hfront]; rfl) ((misplaced_cons h _ _).mpr hmis)
  · rintro ⟨front, rfl, p, rest, hrest, hp, hfirst⟩
    refine ⟨p, rest, by rw [hrest]; rfl, (misplaced_cons h front p).mpr hp, ?_⟩
    intro front' p' rest' hfront hmis
    cases front' with
    | nil =>
      obtain ⟨rfl, -⟩ := List.cons.inj hfront
      exact hq hmis
    | cons q' front' =>
      obtain ⟨rfl, htail⟩ := List.cons.inj hfront
      exact hfirst front' p' rest' htail ((misplaced_cons h _ _).mp hmis)

/-- The loop comes to the end and returns the number of keys, or it stops behind some packets and
returns an error. Either way the list has one more key for each public key packet it took up. -/
theorem parseLoop_ret (packets : List Packet) (keys : List PublicKey) (count : Nat) :
    let r := parseLoop past count keys packets
    ((∀ front, ¬ StopsBehind keys packets front) ∧
      r.ret - count = r.keys.length - keys.length) ∨
    (∃ front, StopsBehind keys packets front ∧ r.ret = Status.invalidParam.toInt ∧
      r.keys.length = keys.length + front.countP fun p => p.tag = tagPublickey) := by
  induction packets generalizing keys count with
  | nil =>
    refine Or.inl ⟨?_, by simp [parseLoop]⟩
    rintro front ⟨p, rest, hsplit, -⟩
    exact absurd hsplit (by simp)
  | cons q packets ih =>
    unfold parseLoop
    rcases parsePacket_cases past keys q with ⟨hmis, hq⟩ | ⟨hmis, keys', hq, hlast, hlen⟩
    · rw [hq]
      exact Or.inr ⟨[], (stopsBehind_nil hmis).mpr rfl, rfl, by simp⟩
    · rw [hq]
      rcases ih keys' (if q.tag = tagPublickey then count + 1 else count) with
        ⟨hnone, hret⟩ | ⟨front, hstop, hret, hkeys⟩
      · refine Or.inl ⟨fun front hstop => ?_, ?_⟩
        · obtain ⟨front', -, hstop⟩ := (stopsBehind_cons hmis hlast).mp hstop
          exact hnone front' hstop
        · simp only at hret ⊢
          rw [hlen] at hret
          split_ifs at hret ⊢ <;> push_cast at hret ⊢ <;> omega
      · refine Or.inr ⟨q :: front, (stopsBehind_cons hmis hlast).mpr ⟨front, rfl, hstop⟩, hret, ?_⟩
        simp only at hkeys ⊢
        rw [hkeys, hlen, List.countP_cons]
        simp only [decide_eq_true_eq]
        omega

theorem StopsBehind.unique {keys : List PublicKey} {packets front front' : List Packet}
    (h : StopsBehind keys packets front) (h' : StopsBehind keys packets front') :
    front = front' := by
  induction packets generalizing keys front front' with
  | nil =>
    obtain ⟨p, rest, hsplit, -⟩ := h
    exact absurd hsplit (by simp)
  | cons q packets ih =>
    rcases parsePacket_cases (fun _ _ => 0) keys q with ⟨hmis, -⟩ | ⟨hmis, keys', -, hlast, -⟩
    · rw [(stopsBehind_nil hmis).mp h, (stopsBehind_nil hmis).mp h']
    · obtain ⟨f, rfl, hf⟩ := (stopsBehind_cons hmis hlast).mp h
      obtain ⟨f', rfl, hf'⟩ := (stopsBehind_cons hmis hlast).mp h'
      rw [ih hf hf']

/-- **The returned value counts the keys only when all packets have a place.** `parse_keys` returns
the number of keys that it appended if and only if every packet can be placed or there happen to be
as many public keys as `ONAK_E_INVALID_PARAM` says, three, before the first one that cannot. -/
theorem parseKeys_ret_iff (packets : List Packet) (keys : List PublicKey) :
    (parseKeys past packets keys).ret =
        ((parseKeys past packets keys).keys.length : Int) - keys.length ↔
      ∀ front, StopsBehind keys packets front →
        (front.countP fun p => p.tag = tagPublickey) = 3 := by
  unfold parseKeys
  rcases parseLoop_ret past packets keys 0 with ⟨hnone, hret⟩ | ⟨front, hstop, hret, hkeys⟩
  · refine iff_of_true ?_ fun front hstop => absurd hstop (hnone front)
    simpa using hret
  · have h3 : Status.invalidParam.toInt = 3 := rfl
    rw [hret, hkeys, h3]
    constructor
    · intro h front' hstop'
      rw [hstop'.unique hstop]
      push_cast at h
      omega
    · intro h
      have hthree := h front hstop
      push_cast
      omega

end

/-- Two keys and then a user id behind a subkey: there are two keys on the list, and the value
returned is three. -/
theorem parseKeys_ret_misplaced :
    ¬ ∀ (past : List PublicKey → Nat → UInt8) (packets : List Packet) (keys : List PublicKey),
      (parseKeys past packets keys).ret =
        ((parseKeys past packets keys).keys.length : Int) - keys.length := by
  intro hall
  exact absurd (hall (fun _ _ => 0) [⟨tagPublickey, false, [4]⟩, ⟨tagPublickey, false, [4, 1]⟩,
    ⟨tagPublicsubkey, false, [4, 2]⟩, ⟨tagUid, false, [65]⟩] []) (by decide)

end Onak
