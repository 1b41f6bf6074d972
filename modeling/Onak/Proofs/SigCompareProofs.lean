import Onak.Proofs.SubpacketProofs
import Onak.SigCompare

/-!
# Proofs: signatures that are compared in memory

`sig_info` sets the variables of its caller for a signature of version 2 or 3, the key id for one of
version 4 or 5, and the creation time of such a signature when it comes across a creation subpacket.
In all other cases a variable keeps what it held, and the callers compare that.
-/

namespace Onak

/-! ## Subpackets -/

/-- From an offset on, there is a creation time that `parse_subpackets` gets to. -/
inductive CreationFound (data : List UInt8) (length : Nat) : Nat → Prop
  | here {offset len start : Nat} {type : UInt8} :
      SubpacketAt data length offset len start → data[start]? = some type →
      type &&& 0x7F = 2 → 5 ≤ len → CreationFound data length offset
  | next {offset len start : Nat} {type : UInt8} :
      SubpacketAt data length offset len start → data[start]? = some type → ¬ Rejected type len →
      CreationFound data length (start + len) → CreationFound data length offset

/-- What a subpacket does: it may set the key id, and a creation time, whatever they were before. -/
theorem subpacketBody_effect {data : List UInt8} {start len : Nat} {type : UInt8}
    (htype : data[start]? = some type) (hmem : start + len ≤ data.length) (hlen : len ≠ 0)
    (keyid : Option UInt64) :
    ∃ (status : Status) (keyid' : Option UInt64) (time : Option Int),
      keyid'.isSome = keyid.isSome ∧ (status = .ok ↔ ¬ Rejected type len) ∧
      (time.isSome = true ↔ type &&& 0x7F = 2 ∧ 5 ≤ len) ∧
      ∀ creation, subpacketBody data start len keyid creation =
        some ⟨status, keyid', creation.map fun c => time.getD c⟩ := by
  have hlength := length_body_subpacketAt type hmem hlen
  by_cases hbad : (subpacketAt data type start len).Refused
  · obtain ⟨status, hstatus, hbody⟩ := subpacketBody_refused htype hmem hlen hbad
    rw [Subpacket.refused_iff hlength] at hbad
    refine ⟨status, keyid, none, rfl, iff_of_false hstatus (not_not.mpr hbad), ?_, fun creation => ?_⟩
    · refine iff_of_false (by simp) fun h => ?_
      have hkind : type &&& 0x7F = 2 := h.1
      rcases hbad with ⟨-, hshort⟩ | ⟨h16, -⟩ | ⟨h2, -⟩
      · exact absurd h.2 (by omega)
      · exact absurd (hkind.symm.trans h16) (by decide)
      · exact h2 h.1
    · rw [hbody]
      simp
  · have hlong : type &&& 0x7F = 2 → 5 ≤ len := by
      intro h2
      rw [Subpacket.refused_iff hlength] at hbad
      by_contra hshort
      exact hbad (.inl ⟨h2, by omega⟩)
    have hok := hbad
    rw [Subpacket.refused_iff hlength] at hok
    refine ⟨.ok, keyid.map fun k => (Onak.subpacketAt data type start len).keyid?.getD k,
      (Onak.subpacketAt data type start len).creation?, by simp, iff_of_true rfl hok, ?_,
      subpacketBody_eq htype hmem hlen hbad keyid⟩
    have htime : (Onak.subpacketAt data type start len).creation?.isSome = true ↔ type &&& 0x7F = 2 := by
      show (if type &&& 0x7F = 2 then _ else none).isSome = true ↔ _
      split_ifs with h2
      · exact iff_of_true rfl h2
      · exact iff_of_false (by simp) h2
    rw [htime]
    exact ⟨fun h2 => ⟨h2, hlong h2⟩, fun h => h.1⟩

theorem CreationFound.subpacketAt {data : List UInt8} {length offset : Nat}
    (h : CreationFound data length offset) :
    ∃ len start, SubpacketAt data length offset len start := by
  cases h with
  | here hat | next hat => exact ⟨_, _, hat⟩

theorem creationFound_iff {data : List UInt8} {length offset len start : Nat} {type : UInt8}
    (hat : SubpacketAt data length offset len start) (htype : data[start]? = some type) :
    CreationFound data length offset ↔
      (type &&& 0x7F = 2 ∧ 5 ≤ len) ∨ (¬ Rejected type len ∧ CreationFound data length (start + len)) := by
  have hunique : ∀ {len' start' type'}, SubpacketAt data length offset len' start' →
      data[start']? = some type' → len' = len ∧ start' = start ∧ type' = type := by
    intro len' start' type' hat' htype'
    have hpair := hat'.header.symm.trans hat.header
    simp only [Option.some.injEq, Prod.mk.injEq] at hpair
    obtain ⟨rfl, rfl⟩ := hpair
    exact ⟨rfl, rfl, Option.some.inj (htype'.symm.trans htype)⟩
  constructor
  · intro h
    cases h with
    | here hat' htype' h2 hlen =>
      obtain ⟨rfl, rfl, rfl⟩ := hunique hat' htype'
      exact .inl ⟨h2, hlen⟩
    | next hat' htype' hrej hrest =>
      obtain ⟨rfl, rfl, rfl⟩ := hunique hat' htype'
      exact .inr ⟨hrej, hrest⟩
  · rintro (⟨h2, hlen⟩ | ⟨hrej, hrest⟩)
    · exact .here hat htype h2 hlen
    · exact .next hat htype hrej hrest

/-- A loop that stops where there is no subpacket leaves the creation time alone. -/
theorem time_isSome_none {data : List UInt8} {length offset : Nat}
    (h : ∀ len start, ¬ SubpacketAt data length offset len start) :
    (none : Option Int).isSome = true ↔ CreationFound data length offset := by
  refine iff_of_false (by simp) fun hfound => ?_
  obtain ⟨len, start, hat⟩ := hfound.subpacketAt
  exact h len start hat

/-- The loop comes to an end with a status and a key id that do not depend on the creation time
before it. It sets the creation time if and only if it gets to one. -/
theorem subpacketLoop_effect {data : List UInt8} {length : Nat} (hmem : length ≤ data.length)
    {fuel offset : Nat} (hfuel : length ≤ offset + fuel) (keyid : Option UInt64) :
    ∃ (status : Status) (keyid' : Option UInt64) (time : Option Int),
      keyid'.isSome = keyid.isSome ∧ (time.isSome = true ↔ CreationFound data length offset) ∧
      ∀ creation, subpacketLoop data length fuel offset keyid creation =
        some ⟨status, keyid', creation.map fun c => time.getD c⟩ := by
  induction fuel generalizing offset keyid with
  | zero =>
    refine ⟨.ok, keyid, none, rfl, time_isSome_none fun len start hat => ?_,
      fun creation => by simp [subpacketLoop]⟩
    have hroom := hat.room
    omega
  | succ fuel ih =>
    by_cases hroom : offset + 2 < length
    · rcases subpacketLen_of_room hroom hmem with hnone | ⟨len, start, hsome, hstart⟩
      · -- the length octets run over the end
        refine ⟨.invalidPkt, keyid, none, rfl, time_isSome_none fun len start hat => ?_,
          fun creation => by simp [subpacketLoop, hroom, hnone]⟩
        exact absurd (hat.header.symm.trans hnone) (by simp)
      · by_cases hbad : len = 0 ∨ length - start < len
        · refine ⟨.invalidPkt, keyid, none, rfl, time_isSome_none fun len' start' hat => ?_,
            fun creation => by simp [subpacketLoop, hroom, hsome, hbad]⟩
          have hpair := hat.header.symm.trans hsome
          simp only [Option.some.injEq, Prod.mk.injEq] at hpair
          obtain ⟨rfl, rfl⟩ := hpair
          have hnonempty := hat.nonempty
          have hfits := hat.fits
          omega
        · have hat : SubpacketAt data length offset len start :=
            ⟨hroom, hsome, by omega, by omega⟩
          obtain ⟨type, htype⟩ := @getElem?_of_lt data start (by omega)
          obtain ⟨status, keyid₁, time₁, hkeyid₁, hstatus, htime₁, hbody⟩ :=
            @subpacketBody_effect data start len type htype (by omega) (by omega) keyid
          have hround : ∀ creation, subpacketLoop data length (fuel + 1) offset keyid creation =
              if status ≠ .ok then some ⟨status, keyid₁, creation.map fun c => time₁.getD c⟩
              else subpacketLoop data length fuel (start + len) keyid₁
                (creation.map fun c => time₁.getD c) := by
            intro creation
            simp [subpacketLoop, hroom, hsome, hbad, hbody]
          simp only [hround, creationFound_iff hat htype]
          by_cases hok : status = .ok
          · obtain ⟨status₂, keyid₂, time₂, hkeyid₂, htime₂, hloop⟩ :=
              @ih (start + len) (by omega) keyid₁
            refine ⟨status₂, keyid₂, time₂.or time₁, hkeyid₂.trans hkeyid₁, ?_, fun creation => ?_⟩
            · rw [Option.isSome_or, Bool.or_eq_true, htime₁, htime₂, and_iff_right (hstatus.mp hok)]
              exact or_comm
            · rw [if_neg (not_not.mpr hok), hloop, Option.map_map]
              cases time₂ <;> cases time₁ <;> rfl
          · -- an error, which leaves the creation time alone
            have hrej : Rejected type len := by
              by_contra hrej
              exact hok (hstatus.mpr hrej)
            refine ⟨status, keyid₁, time₁, hkeyid₁, ?_, fun creation => if_pos hok⟩
            rw [htime₁]
            exact (or_iff_left fun h => h.1 hrej).symm
    · refine ⟨.ok, keyid, none, rfl, time_isSome_none fun len start hat => hroom hat.room,
        fun creation => ?_⟩
      simp [subpacketLoop, not_lt.mp hroom]

/-! ## What a signature sets -/

/-- The subpackets at the start of `data`, of which `len` octets belong to the packet, have a creation
time that `parse_subpackets` gets to. -/
def CreationParsed (data : List UInt8) (len : Nat) : Prop :=
  ∃ octets, readOctets data 0 2 = some octets ∧ 4 ≤ len ∧ beNat octets + 2 ≤ len ∧
    CreationFound data (beNat octets + 2) 2

theorem parseSubpackets_effect {data : List UInt8} (hmem : 0x10001 ≤ data.length) (len : Nat)
    (keyid : Option UInt64) :
    ∃ (parsed : Nat) (status : Status) (keyid' : Option UInt64) (time : Option Int),
      parsed ≤ 0x10001 ∧ keyid'.isSome = keyid.isSome ∧
      (time.isSome = true ↔ CreationParsed data len) ∧
      ∀ creation, parseSubpackets data len keyid creation =
        some (parsed, ⟨status, keyid', creation.map fun c => time.getD c⟩) := by
  obtain ⟨octets, hoctets⟩ := @readOctets_of_le data 0 2 (by omega)
  have hlength : beNat octets + 2 ≤ 0x10001 := beNat_two_octets hoctets
  have hparsed : CreationParsed data len ↔ 4 ≤ len ∧ beNat octets + 2 ≤ len ∧
      CreationFound data (beNat octets + 2) 2 := by
    unfold CreationParsed
    rw [hoctets]
    simp
  rw [hparsed]
  by_cases hshort : len < 4
  · refine ⟨0, .invalidPkt, keyid, none, Nat.zero_le _, rfl, iff_of_false (by simp) (by omega),
      fun creation => ?_⟩
    simp [parseSubpackets, hshort]
  · by_cases hover : len < beNat octets + 2
    · refine ⟨0, .invalidPkt, keyid, none, Nat.zero_le _, rfl, iff_of_false (by simp) (by omega),
        fun creation => ?_⟩
      simp [parseSubpackets, hshort, hoctets, hover]
    · obtain ⟨status, keyid', time, hkeyid, htime, hloop⟩ := @subpacketLoop_effect data
        (beNat octets + 2) (by omega) (beNat octets + 2) 2 (by omega) keyid
      refine ⟨beNat octets + 2, status, keyid', time, hlength, hkeyid, ?_, fun creation => ?_⟩
      · rw [htime]
        exact ⟨fun h => ⟨by omega, by omega, h⟩, fun h => h.2.2⟩
      · simp [parseSubpackets, hshort, hoctets, hover, hloop]

/-- A signature of version 2 or 3, or one of version 4 or 5 with a creation time in its hashed
subpackets that `parse_subpackets` gets to. -/
def SetsTime (data : List UInt8) (length : Nat) : Prop :=
  ∃ version, data[0]? = some version ∧ (version = 2 ∨ version = 3 ∨
    (version = 4 ∨ version = 5) ∧ CreationParsed (data.drop 4) (sizeSub length 4))

/-- A signature of a version that is known. -/
def KnownVersion (data : List UInt8) : Prop :=
  ∃ version, data[0]? = some version ∧
    (version = 2 ∨ version = 3 ∨ version = 4 ∨ version = 5)

/-- `sig_info` sets the key id of its caller for the known versions, and the creation time as far as
it is there. -/
theorem sigInfoAt_effect {data : List UInt8} (hmem : 0x30000 ≤ data.length) (length : Nat)
    (hversion : KnownVersion data) (wanted : Bool) :
    ∃ (status : Status) (keyid' : Option UInt64) (time : Option Int),
      keyid'.isSome = wanted ∧ (time.isSome = true ↔ SetsTime data length) ∧
      ∀ keyid creation, keyid.isSome = wanted → sigInfoAt data length keyid creation =
        some ⟨status, keyid', creation.map fun c => time.getD c⟩ := by
  obtain ⟨version, hfirst, hknown⟩ := hversion
  have hsets : SetsTime data length ↔ version = 2 ∨ version = 3 ∨
      (version = 4 ∨ version = 5) ∧ CreationParsed (data.drop 4) (sizeSub length 4) := by
    unfold SetsTime
    rw [hfirst]
    simp
  rw [hsets]
  by_cases hold : version = 2 ∨ version = 3
  · obtain ⟨keyidOctets, hkeyid⟩ := @readOctets_of_le data 7 8 (by omega)
    obtain ⟨timeOctets, htime⟩ := @readOctets_of_le data 3 4 (by omega)
    refine ⟨.ok, if wanted then some (UInt64.ofNat (beNat keyidOctets)) else none,
      some (beNat timeOctets), by cases wanted <;> rfl,
      iff_of_true rfl (hold.elim .inl fun h => .inr (.inl h)),
      fun keyid creation hwanted => ?_⟩
    unfold sigInfoAt
    simp only [hfirst, Option.bind_eq_bind, Option.bind_some, if_pos hold, hkeyid, htime]
    cases keyid <;> cases creation <;> cases wanted <;> simp_all
  · have hnew : version = 4 ∨ version = 5 := by
      rcases hknown with h | h | h
      · exact absurd (.inl h) hold
      · exact absurd (.inr h) hold
      · exact h
    obtain ⟨parsed, status, keyid₁, time, hle, hkeyid₁, htime, hparse⟩ :=
      @parseSubpackets_effect (data.drop 4) (by rw [List.length_drop]; omega) (sizeSub length 4)
        (if wanted then some 0 else none)
    obtain ⟨parsed₂, status₂, keyid₂, time₂, -, hkeyid₂, -, hparse₂⟩ :=
      @parseSubpackets_effect (data.drop (parsed + 4)) (by rw [List.length_drop]; omega)
        (sizeSub length (4 + parsed)) keyid₁
    have hzero : ∀ keyid : Option UInt64, keyid.isSome = wanted →
        (keyid.map fun _ => (0 : UInt64)) = if wanted then some 0 else none := by
      rintro keyid rfl
      cases keyid <;> rfl
    have hiff : time.isSome = true ↔ version = 2 ∨ version = 3 ∨
        (version = 4 ∨ version = 5) ∧ CreationParsed (data.drop 4) (sizeSub length 4) := by
      rw [htime]
      constructor
      · exact fun h => .inr (.inr ⟨hnew, h⟩)
      · rintro (h | h | ⟨-, h⟩)
        · exact absurd (.inl h) hold
        · exact absurd (.inr h) hold
        · exact h
    have hwanted : keyid₁.isSome = wanted := by
      rw [hkeyid₁]
      cases wanted <;> rfl
    by_cases hok : status = .ok
    · by_cases hlook : keyid₁ = some 0
      · refine ⟨status₂, keyid₂, time, hkeyid₂.trans hwanted, hiff, fun keyid creation hk => ?_⟩
        unfold sigInfoAt
        simp only [hfirst, Option.bind_eq_bind, Option.bind_some, if_neg hold, if_pos hnew,
          hzero keyid hk, hparse, ne_eq, hok, not_true_eq_false, if_false, if_pos hlook, hparse₂]
        rfl
      · refine ⟨status, keyid₁, time, hwanted, hiff, fun keyid creation hk => ?_⟩
        unfold sigInfoAt
        simp only [hfirst, Option.bind_eq_bind, Option.bind_some, if_neg hold, if_pos hnew,
          hzero keyid hk, hparse, ne_eq, hok, not_true_eq_false, if_false, if_neg hlook]
        rfl
    · refine ⟨status, keyid₁, time, hwanted, hiff, fun keyid creation hk => ?_⟩
      unfold sigInfoAt
      simp only [hfirst, Option.bind_eq_bind, Option.bind_some, if_neg hold, if_pos hnew,
        hzero keyid hk, hparse, ne_eq, hok, not_false_eq_true, if_true]
      rfl

/-- A signature of an unknown version leaves both variables alone. -/
theorem sigInfoAt_unknown {data : List UInt8} (hmem : data ≠ []) (length : Nat)
    (hversion : ¬ KnownVersion data) (keyid : Option UInt64) (creation : Option Int) :
    sigInfoAt data length keyid creation = some ⟨.ok, keyid, creation⟩ := by
  obtain ⟨version, rest, rfl⟩ := List.exists_cons_of_ne_nil hmem
  have hnone : ¬ (version = 2 ∨ version = 3 ∨ version = 4 ∨ version = 5) :=
    fun h => hversion ⟨version, rfl, h⟩
  have h1 : ¬ (version = 2 ∨ version = 3) := fun h => hnone (h.imp_right .inl)
  have h2 : ¬ (version = 4 ∨ version = 5) := fun h => hnone (.inr (.inr h))
  simp [sigInfoAt, h1, h2]

/-! ## Signatures that set both variables -/

namespace SigNode

/-- The issuer that `sig_info` gives for a variable that holds zero before. -/
def issuer (s : SigNode) : UInt64 := (s.keyidAfter 0).getD 0

/-- The creation time that `sig_info` gives for a variable that holds zero before. -/
def created (s : SigNode) : Int := (s.creationAfter 0).getD 0

/-- `sig_info` gives the issuer and the creation time, whatever the variables hold before. -/
structure Determined (s : SigNode) : Prop where
  issuer : ∀ junk, s.keyidAfter junk = some s.issuer
  created : ∀ junk, s.creationAfter junk = some s.created

/-- The signature gives a creation time, and with it an issuer. -/
def SetsTime (s : SigNode) : Prop := Onak.SetsTime s.memory s.packet.length

theorem memory_length (s : SigNode) : 0x30000 ≤ s.memory.length := by
  have h := s.readable
  rw [memory, List.length_append]
  omega

theorem memory_ne_nil (s : SigNode) : s.memory ≠ [] := by
  have h := s.memory_length
  exact List.ne_nil_of_length_pos (by omega)

theorem exists_version (s : SigNode) : ∃ version, s.memory[0]? = some version :=
  getElem?_of_lt (List.length_pos_of_ne_nil s.memory_ne_nil)

theorem SetsTime.knownVersion {s : SigNode} (h : s.SetsTime) : KnownVersion s.memory := by
  obtain ⟨version, hfirst, hversion⟩ := h
  exact ⟨version, hfirst, by tauto⟩

/-- What `sig_info` gives for a signature of a known version. -/
theorem sigInfo_effect {s : SigNode} (h : KnownVersion s.memory) (wanted : Bool) :
    ∃ (status : Status) (keyid' : Option UInt64) (time : Option Int),
      keyid'.isSome = wanted ∧ (time.isSome = true ↔ s.SetsTime) ∧
      ∀ keyid creation, keyid.isSome = wanted →
        sigInfoAt s.memory s.packet.length keyid creation =
          some ⟨status, keyid', creation.map fun c => time.getD c⟩ :=
  sigInfoAt_effect s.memory_length s.packet.length h wanted

theorem SetsTime.sigInfo {s : SigNode} (h : s.SetsTime) (wanted : Bool) :
    ∃ (status : Status) (keyid' : Option UInt64) (time : Int), keyid'.isSome = wanted ∧
      ∀ keyid creation, keyid.isSome = wanted →
        sigInfoAt s.memory s.packet.length keyid creation =
          some ⟨status, keyid', creation.map fun _ => time⟩ := by
  obtain ⟨status, keyid', time, hkeyid, htime, hinfo⟩ := sigInfo_effect h.knownVersion wanted
  obtain ⟨t, rfl⟩ := Option.isSome_iff_exists.mp (htime.mpr h)
  exact ⟨status, keyid', t, hkeyid, hinfo⟩

theorem SetsTime.determined {s : SigNode} (h : s.SetsTime) : s.Determined := by
  obtain ⟨_, keyid', _, hkeyid, hinfo⟩ := h.sigInfo true
  obtain ⟨_, _, time, _, hinfo'⟩ := h.sigInfo false
  obtain ⟨k, rfl⟩ := Option.isSome_iff_exists.mp hkeyid
  have hk : ∀ junk, s.keyidAfter junk = some k := by
    intro junk
    unfold keyidAfter
    rw [hinfo _ _ rfl]
    rfl
  have ht : ∀ junk, s.creationAfter junk = some time := by
    intro junk
    unfold creationAfter
    rw [hinfo' _ _ rfl]
    rfl
  refine ⟨fun junk => ?_, fun junk => ?_⟩
  · rw [hk, issuer, hk]
    rfl
  · rw [ht, created, ht]
    rfl

/-- A signature that gives no creation time is not even equal to itself for every content of the
variables. -/
theorem compareSignaturesAt_self {s : SigNode} (h : ¬ s.SetsTime) (t t' : Int) :
    compareSignaturesAt s s ⟨0, 0, t, t'⟩ = some (decide (t = t')) := by
  obtain ⟨version, hversion⟩ := s.exists_version
  obtain ⟨status, keyid', hinfo⟩ : ∃ (status : Status) (keyid' : Option UInt64), ∀ creation,
      sigInfoAt s.memory s.packet.length (some 0) (some creation) =
        some ⟨status, keyid', some creation⟩ := by
    by_cases hknown : KnownVersion s.memory
    · obtain ⟨status, keyid', time, _, htime, hinfo⟩ := sigInfo_effect hknown true
      obtain rfl : time = none := by
        cases time with
        | none => rfl
        | some t => exact absurd (htime.mp rfl) h
      exact ⟨status, keyid', fun creation => hinfo _ _ rfl⟩
    · exact ⟨.ok, some 0, fun creation =>
        sigInfoAt_unknown s.memory_ne_nil s.packet.length hknown (some 0) (some creation)⟩
  unfold compareSignaturesAt
  simp [hversion, hinfo]

end SigNode

/-! ## Comparing signatures -/

open SigNode (Determined SetsTime)

/-- Two signatures with the same version, type and issuer, where there is an issuer. -/
def sameSigner (a b : SigNode) : Bool :=
  a.packet.tag = tagSignature ∧ b.packet.tag = tagSignature ∧ a.memory[0]? = b.memory[0]? ∧
    sigSigtype a.packet = sigSigtype b.packet ∧ a.issuer ≠ 0 ∧ a.issuer = b.issuer

/-- The choice between two signatures of one signer: whether the inner one is kept. -/
def newerThan (outer inner : SigNode) : Bool :=
  !sigIsRevocation (sigSigtype outer.packet) && decide (outer.created < inner.created)

theorem signaturesMatchSignerAt_eq {a b : SigNode} (ha : a.Determined) (hb : b.Determined)
    (aKeyid bKeyid : UInt64) :
    signaturesMatchSignerAt a b aKeyid bKeyid = some (sameSigner a b) := by
  obtain ⟨aVersion, haVersion⟩ := a.exists_version
  obtain ⟨bVersion, hbVersion⟩ := b.exists_version
  unfold signaturesMatchSignerAt sameSigner
  simp only [haVersion, hbVersion, ha.issuer, hb.issuer, Option.bind_eq_bind, Option.bind_some]
  split_ifs with htag hversion htype hzero
  · simp only [Option.pure_def, Option.some.injEq]
    symm
    rw [decide_eq_false_iff_not]
    tauto
  · simp [hversion]
  · simp [htype]
  · rcases hzero with hzero | hzero
    · simp [hzero]
    · simp only [Option.pure_def, Option.some.injEq]
      symm
      rw [decide_eq_false_iff_not, hzero]
      tauto
  · have hne : a.issuer ≠ 0 := fun h => hzero (.inl h)
    rw [not_or, not_not, not_not] at htag
    rw [not_not] at hversion htype
    simp only [htag, hversion, htype, hne, true_and, ne_eq, not_false_eq_true]
    rw [beq_eq_decide]
    rfl

/-! ## Reading more than the packet

What `sig_info` finds inside a packet does not change with what lies behind it. -/

/-- `y` is at least as defined as `x`. -/
def Extends {α : Type} (x y : Option α) : Prop := ∀ r, x = some r → y = some r

theorem Extends.refl {α : Type} (x : Option α) : Extends x x := fun _ h => h

theorem Extends.bind {α β : Type} {x y : Option α} {f f' : α → Option β} (h : Extends x y)
    (hf : ∀ a, Extends (f a) (f' a)) : Extends (x.bind f) (y.bind f') := by
  intro r hr
  obtain ⟨a, ha, hfa⟩ := Option.bind_eq_some_iff.mp hr
  rw [h a ha]
  exact hf a r hfa

theorem Extends.ite {α : Type} {c : Prop} [Decidable c] {x y x' y' : Option α} (h : Extends x y)
    (h' : Extends x' y') : Extends (if c then x else x') (if c then y else y') := by
  split_ifs
  · exact h
  · exact h'

theorem Extends.map {α β : Type} {x y : Option α} (f : α → β) (h : Extends x y) :
    Extends (x.map f) (y.map f) := by
  intro r hr
  obtain ⟨a, ha, rfl⟩ := Option.map_eq_some_iff.mp hr
  rw [h a ha]
  rfl

section

variable (data behind : List UInt8)

theorem getElem?_extends (i : Nat) : Extends data[i]? (data ++ behind)[i]? := by
  intro c hc
  obtain ⟨hi, -⟩ := List.getElem?_eq_some_iff.mp hc
  rw [List.getElem?_append_left hi]
  exact hc

theorem readOctets_extends (offset n : Nat) :
    Extends (readOctets data offset n) (readOctets (data ++ behind) offset n) := by
  intro octets h
  unfold readOctets at h ⊢
  split_ifs at h with hle
  obtain rfl := Option.some.inj h
  rw [if_pos (by rw [List.length_append]; omega), List.drop_append_of_le_length (by omega),
    List.take_append_of_le_length (by rw [List.length_drop]; omega)]

theorem subpacketLen_extends (length offset : Nat) :
    Extends (subpacketLen data length offset) (subpacketLen (data ++ behind) length offset) := by
  refine .bind (getElem?_extends data behind offset) fun first => ?_
  refine .ite ?_ (.ite (.ite (.refl _) ?_) (.refl _))
  · exact .bind (getElem?_extends data behind (offset + 1)) fun _ => .refl _
  · exact .bind (readOctets_extends data behind (offset + 1) 4) fun _ => .refl _

theorem subpacketBody_extends (offset packetlen : Nat) (keyid : Option UInt64)
    (creation : Option Int) :
    Extends (subpacketBody data offset packetlen keyid creation)
      (subpacketBody (data ++ behind) offset packetlen keyid creation) := by
  refine .bind (getElem?_extends data behind offset) fun type => ?_
  refine .ite (.ite (.refl _) (.ite (.refl _) ?_)) (.ite (.ite (.refl _) (.ite (.refl _) ?_))
    (.ite (.ite (.refl _) ?_) (.refl _)))
  · exact .bind (readOctets_extends data behind _ _) fun _ => .refl _
  · exact .bind (readOctets_extends data behind _ _) fun _ => .refl _
  · exact .bind (readOctets_extends data behind _ _) fun _ => .refl _

theorem subpacketLoop_extends (length fuel offset : Nat) (keyid : Option UInt64)
    (creation : Option Int) :
    Extends (subpacketLoop data length fuel offset keyid creation)
      (subpacketLoop (data ++ behind) length fuel offset keyid creation) := by
  induction fuel generalizing offset keyid creation with
  | zero => exact .refl _
  | succ fuel ih =>
    refine .ite (.refl _) (.bind (subpacketLen_extends data behind length offset) fun header => ?_)
    cases header with
    | none => exact .refl _
    | some header =>
      refine .ite (.refl _) (.bind (subpacketBody_extends data behind _ _ _ _) fun r => ?_)
      exact .ite (.refl _) (ih _ _ _)

theorem parseSubpackets_extends (len : Nat) (keyid : Option UInt64) (creation : Option Int) :
    Extends (parseSubpackets data len keyid creation)
      (parseSubpackets (data ++ behind) len keyid creation) := by
  refine .ite (.refl _) (.bind (readOctets_extends data behind 0 2) fun octets => ?_)
  refine .ite (.refl _) (.bind (subpacketLoop_extends data behind _ _ _ _ _) fun r => .refl _)

end

theorem drop_append_extends (data behind : List UInt8) (n len : Nat) (keyid : Option UInt64)
    (creation : Option Int) :
    Extends (parseSubpackets (data.drop n) len keyid creation)
      (parseSubpackets ((data ++ behind).drop n) len keyid creation) := by
  rw [List.drop_append]
  exact parseSubpackets_extends _ _ _ _ _

theorem sigInfoAt_extends (data behind : List UInt8) (length : Nat) (keyid : Option UInt64)
    (creation : Option Int) :
    Extends (sigInfoAt data length keyid creation) (sigInfoAt (data ++ behind) length keyid creation) := by
  refine .bind (getElem?_extends data behind 0) fun version => .ite ?_ (.ite ?_ (.refl _))
  · refine .ite (.bind (.refl _) fun _ => ?_) (.bind (.map _ (readOctets_extends data behind 7 8)) fun _ => ?_)
    · exact .ite (.refl _) (.bind (.map _ (readOctets_extends data behind 3 4)) fun _ => .refl _)
    · exact .ite (.refl _) (.bind (.map _ (readOctets_extends data behind 3 4)) fun _ => .refl _)
  · refine .bind (drop_append_extends data behind 4 _ _ _) fun r => .ite (.refl _) (.ite ?_ (.refl _))
    exact .bind (drop_append_extends data behind _ _ _ _) fun _ => .refl _

/-- `sig_info` finds everything it looks for inside the packet. -/
def Inside (p : Packet) : Prop := ∀ keyid creation, (sigInfo p keyid creation).isSome

theorem Inside.sigInfoAt {s : SigNode} (h : Inside s.packet) (keyid : Option UInt64)
    (creation : Option Int) :
    sigInfoAt s.memory s.packet.length keyid creation = sigInfo s.packet keyid creation := by
  obtain ⟨r, hr⟩ := Option.isSome_iff_exists.mp (h keyid creation)
  rw [hr]
  exact sigInfoAt_extends s.packet.data s.behind s.packet.length keyid creation r hr

theorem Inside.head {s : SigNode} (h : Inside s.packet) : s.memory[0]? = s.packet.data[0]? := by
  obtain ⟨r, hr⟩ := Option.isSome_iff_exists.mp (h none none)
  obtain ⟨version, hversion, -⟩ := Option.bind_eq_some_iff.mp hr
  rw [hversion]
  exact getElem?_extends s.packet.data s.behind 0 version hversion

theorem Inside.issuer (g : Stale) {s : SigNode} (h : Inside s.packet) (hs : s.Determined) :
    issuer g s.packet = s.issuer := by
  have hat := hs.issuer (g.keyid s.packet.data)
  unfold SigNode.keyidAfter at hat
  rw [h.sigInfoAt] at hat
  rw [Onak.issuer, hat]
  rfl

theorem Inside.created (g : Stale) {s : SigNode} (h : Inside s.packet) (hs : s.Determined) :
    created g s.packet = s.created := by
  have hat := hs.created (g.creation s.packet.data)
  unfold SigNode.creationAfter at hat
  rw [h.sigInfoAt] at hat
  rw [Onak.created, hat]
  rfl

end Onak
