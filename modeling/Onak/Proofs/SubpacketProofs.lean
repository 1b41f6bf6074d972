import Onak.Subpackets

/-!
# Proofs: subpackets in an area

The loop of `parse_subpackets` goes from subpacket to subpacket, and what it computes is determined by
the list of those that it comes to. Two further loops, of `find_keyexpiry_in_sig` and of
`signedpacket_is_primary`, go the same way through every area that the first one accepts.
-/

namespace Onak

theorem readOctets_of_le {data : List UInt8} {offset n : Nat} (h : offset + n ≤ data.length) :
    ∃ octets, readOctets data offset n = some octets :=
  ⟨_, if_pos h⟩

theorem getElem?_of_lt {data : List UInt8} {i : Nat} (h : i < data.length) :
    ∃ c, data[i]? = some c :=
  ⟨_, List.getElem?_eq_getElem h⟩

theorem beNat_two_octets {data octets : List UInt8} {offset : Nat}
    (h : readOctets data offset 2 = some octets) : beNat octets + 2 ≤ 0x10001 := by
  unfold readOctets at h
  split_ifs at h with hle
  obtain rfl := Option.some.inj h
  obtain ⟨x, y, hxy⟩ := List.length_eq_two.mp
    (show ((data.drop offset).take 2).length = 2 by rw [List.length_take, List.length_drop]; omega)
  rw [hxy]
  have hx := x.toNat_lt
  have hy := y.toNat_lt
  simp only [beNat, List.foldl_cons, List.foldl_nil]
  omega

/-! ## One subpacket -/

/-- A subpacket of `len` octets from its type octet on, which stands at `start` behind the length
octets at `offset`. -/
structure SubpacketAt (data : List UInt8) (length offset len start : Nat) : Prop where
  room : offset + 2 < length
  header : subpacketLen data length offset = some (some (len, start))
  nonempty : len ≠ 0
  fits : len ≤ length - start

/-- `parse_subpackets` stops with an error at a subpacket of this type and length: a creation time or
an issuer that is too short, or an unknown subpacket with the critical bit. -/
def Rejected (type : UInt8) (len : Nat) : Prop :=
  type &&& 0x7F = 2 ∧ len < 5 ∨ type &&& 0x7F = 16 ∧ len < 9 ∨
    type &&& 0x7F ≠ 2 ∧ type &&& 0x7F ≠ 16 ∧ type &&& 0x7F ≠ 33 ∧
      type &&& 0x7F ∉ ignoredSubpackets ∧ type &&& 0x80 ≠ 0

theorem Subpacket.refused_iff {sp : Subpacket} {len : Nat} (hlen : sp.body.length + 1 = len) :
    sp.Refused ↔ Rejected sp.type len := by
  unfold Refused Rejected kind knownKinds
  simp only [List.mem_cons, not_or]
  have h8 : sp.body.length < 8 ↔ len < 9 := by omega
  have h4 : sp.body.length < 4 ↔ len < 5 := by omega
  rw [h8, h4]
  tauto

theorem subpacketLen_of_room {data : List UInt8} {length offset : Nat} (hroom : offset + 2 < length)
    (hmem : length ≤ data.length) :
    subpacketLen data length offset = some none ∨
      ∃ len start, subpacketLen data length offset = some (some (len, start)) ∧ offset < start := by
  obtain ⟨first, hfirst⟩ := @getElem?_of_lt data offset (by omega)
  obtain ⟨second, hsecond⟩ := @getElem?_of_lt data (offset + 1) (by omega)
  unfold subpacketLen
  simp only [hfirst, hsecond, Option.bind_eq_bind, Option.bind_some]
  split_ifs with htwo hfive hover
  · exact .inr ⟨_, _, rfl, by omega⟩
  · exact .inl rfl
  · obtain ⟨octets, hoctets⟩ := @readOctets_of_le data (offset + 1) 4 (by omega)
    rw [hoctets]
    exact .inr ⟨_, _, rfl, by omega⟩
  · exact .inr ⟨_, _, rfl, by omega⟩

theorem SubpacketAt.not_bad {data : List UInt8} {length offset len start : Nat}
    (h : SubpacketAt data length offset len start) : ¬ (len = 0 ∨ length - start < len) :=
  not_or.mpr ⟨h.nonempty, not_lt.mpr h.fits⟩

theorem SubpacketAt.lt {data : List UInt8} {length offset len start : Nat}
    (h : SubpacketAt data length offset len start) (hmem : length ≤ data.length) : offset < start := by
  rcases subpacketLen_of_room h.room hmem with hnone | ⟨len', start', hsome, hlt⟩
  · exact absurd (h.header.symm.trans hnone) (by simp)
  · have hpair := h.header.symm.trans hsome
    simp only [Option.some.injEq, Prod.mk.injEq] at hpair
    rw [hpair.2]
    exact hlt

/-- The subpacket of `len` octets at `start`. -/
def subpacketAt (data : List UInt8) (type : UInt8) (start len : Nat) : Subpacket :=
  ⟨type, (data.drop (start + 1)).take (len - 1)⟩

section

variable {data : List UInt8} {start len : Nat}

theorem length_body_subpacketAt (type : UInt8) (hmem : start + len ≤ data.length) (hlen : len ≠ 0) :
    (subpacketAt data type start len).body.length + 1 = len := by
  unfold subpacketAt
  simp only [List.length_take, List.length_drop]
  omega

/-- The last octets of a subpacket, counted from its end. -/
theorem readOctets_lastOctets (type : UInt8) {n : Nat} (hmem : start + len ≤ data.length)
    (hn : n < len) :
    readOctets data (start + len - n) n = some ((subpacketAt data type start len).lastOctets n) := by
  have hlength := length_body_subpacketAt type hmem (show len ≠ 0 by omega)
  have hdrop : start + 1 + ((subpacketAt data type start len).body.length - n) = start + len - n := by
    omega
  have htake : len - 1 - ((subpacketAt data type start len).body.length - n) = n := by omega
  unfold readOctets Subpacket.lastOctets
  rw [if_pos (by omega)]
  show _ = some (((data.drop (start + 1)).take (len - 1)).drop
    ((subpacketAt data type start len).body.length - n))
  rw [List.drop_take, List.drop_drop, hdrop, htake]

/-- The octets of a subpacket behind the first one of its body. -/
theorem readOctets_body_drop (type : UInt8) (hmem : start + len ≤ data.length) (hlen : 2 ≤ len) :
    readOctets data (start + 2) (len - 2) =
      some ((subpacketAt data type start len).body.drop 1) := by
  unfold readOctets subpacketAt
  rw [if_pos (by omega), List.drop_take, List.drop_drop]
  rfl

/-- A subpacket that is not rejected gives its values. -/
theorem subpacketBody_eq {type : UInt8} (htype : data[start]? = some type)
    (hmem : start + len ≤ data.length) (hlen : len ≠ 0)
    (hok : ¬ (subpacketAt data type start len).Refused) (keyid : Option UInt64)
    (creation : Option Int) :
    subpacketBody data start len keyid creation =
      some ⟨.ok, keyid.map fun k => (subpacketAt data type start len).keyid?.getD k,
        creation.map fun c => (subpacketAt data type start len).creation?.getD c⟩ := by
  have hlength := length_body_subpacketAt type hmem hlen
  rw [Subpacket.refused_iff hlength] at hok
  unfold Rejected at hok
  unfold subpacketBody Subpacket.keyid? Subpacket.creation? Subpacket.kind
  simp only [htype, Option.bind_eq_bind, Option.bind_some]
  show _ = some (SigInfo.mk .ok (keyid.map fun k => Option.getD (if type &&& 0x7F = 16 then _ else
    if type &&& 0x7F = 33 ∧ _ then _ else _) k) (creation.map fun c => Option.getD
      (if type &&& 0x7F = 2 then _ else _) c))
  by_cases h2 : type &&& 0x7F = 2
  · have hlong : ¬ len < 5 := fun h => hok (.inl ⟨h2, h⟩)
    cases creation with
    | none => simp [h2, hlong]
    | some c => simp [h2, hlong, readOctets_lastOctets type hmem (show 4 < len by omega)]
  · by_cases h16 : type &&& 0x7F = 16
    · have hlong : ¬ len < 9 := fun h => hok (.inr (.inl ⟨h16, h⟩))
      cases keyid with
      | none => simp [h16, hlong]
      | some k => simp [h16, hlong, readOctets_lastOctets type hmem (show 8 < len by omega)]
    · by_cases h33 : type &&& 0x7F = 33
      · by_cases hskip : len < 2 ∨ maxFingerprintLen < len - 2
        · have hskip' : len < 2 ∨ maxFingerprintLen < len - 2 ∨ keyid.isNone = true := by tauto
          have hno : ¬ (1 ≤ (subpacketAt data type start len).body.length ∧
              (subpacketAt data type start len).body.length ≤ 1 + maxFingerprintLen) := by omega
          rw [if_neg h2, if_neg h16, if_pos h33, if_pos hskip']
          simp [h33, hno]
        · have hyes : 1 ≤ (subpacketAt data type start len).body.length ∧
              (subpacketAt data type start len).body.length ≤ 1 + maxFingerprintLen := by omega
          cases keyid with
          | none => simp [h33]
          | some k =>
            have hskip' : ¬ (len < 2 ∨ maxFingerprintLen < len - 2 ∨ (some k).isNone = true) := by
              simpa using hskip
            rw [if_neg h2, if_neg h16, if_pos h33, if_neg hskip',
              readOctets_body_drop type hmem (by omega)]
            simp [h33, hyes]
      · have hok' : type &&& 0x7F ∈ ignoredSubpackets ∨ type &&& 0x80 = 0 := by
          by_contra hno
          rw [not_or] at hno
          exact hok (.inr (.inr ⟨h2, h16, h33, hno.1, hno.2⟩))
        rcases hok' with hign | hcrit
        · simp [h2, h16, h33, hign]
        · simp [h2, h16, h33, hcrit]

/-- A subpacket that is rejected stops the loop, and leaves the variables as they were. -/
theorem subpacketBody_refused {type : UInt8} (htype : data[start]? = some type)
    (hmem : start + len ≤ data.length) (hlen : len ≠ 0)
    (hbad : (subpacketAt data type start len).Refused) :
    ∃ status, status ≠ .ok ∧ ∀ keyid creation,
      subpacketBody data start len keyid creation = some ⟨status, keyid, creation⟩ := by
  have hrejected : Rejected type len :=
    (Subpacket.refused_iff (length_body_subpacketAt type hmem hlen)).mp hbad
  unfold Rejected at hrejected
  unfold subpacketBody
  simp only [htype, Option.bind_eq_bind, Option.bind_some]
  rcases hrejected with ⟨h2, hshort⟩ | ⟨h16, hshort⟩ | ⟨h2, h16, h33, hign, hcrit⟩
  · exact ⟨.invalidPkt, by simp, fun keyid creation => by simp [h2, hshort]⟩
  · exact ⟨.invalidPkt, by simp, fun keyid creation => by simp [h16, hshort]⟩
  · exact ⟨.unsupportedFeature, by simp, fun keyid creation => by simp [h2, h16, h33, hign, hcrit]⟩

end

/-! ## The subpackets of an area -/

theorem lastGiven_nil {α : Type} (value? : Subpacket → Option α) : lastGiven value? [] = id := rfl

theorem lastGiven_cons {α : Type} (value? : Subpacket → Option α) (sp : Subpacket)
    (sps : List Subpacket) (before : α) :
    lastGiven value? (sp :: sps) before = lastGiven value? sps ((value? sp).getD before) := by
  unfold lastGiven
  cases hv : value? sp with
  | none => rw [List.filterMap_cons_none hv, Option.getD_none]
  | some v =>
    rw [List.filterMap_cons_some hv, List.getLast?_cons, Option.getD_some, Option.getD_some]

/-- From an offset on, an area holds these subpackets. -/
inductive Visits (data : List UInt8) (length : Nat) : Nat → List Subpacket → Prop
  | done {offset : Nat} : length ≤ offset + 2 → Visits data length offset []
  | next {offset len start : Nat} {type : UInt8} {sps : List Subpacket} :
      SubpacketAt data length offset len start → data[start]? = some type →
      Visits data length (start + len) sps →
      Visits data length offset (subpacketAt data type start len :: sps)

section

variable {data : List UInt8} {length : Nat} (hmem : length ≤ data.length)
include hmem

theorem SubpacketAt.le_length {offset len start : Nat} (h : SubpacketAt data length offset len start) :
    start + len ≤ data.length := by
  have hfits := h.fits
  have hnonempty := h.nonempty
  omega

/-- A round at a subpacket takes one unit of fuel, and what is left is enough behind it. -/
theorem SubpacketAt.exists_fuel {offset len start fuel : Nat}
    (h : SubpacketAt data length offset len start) (hfuel : length ≤ offset + fuel) :
    ∃ n, fuel = n + 1 ∧ length ≤ start + len + n := by
  have hroom := h.room
  have hlt := h.lt hmem
  exact ⟨fuel - 1, by omega, by omega⟩

theorem Visits.visitLoop_eq {offset fuel : Nat} {sps : List Subpacket}
    (h : Visits data length offset sps) (hfuel : length ≤ offset + fuel) :
    visitLoop data length fuel offset = sps := by
  induction h generalizing fuel with
  | done hend =>
    cases fuel with
    | zero => rfl
    | succ fuel => rw [visitLoop, if_pos hend]
  | @next offset len start type sps hat htype _ ih =>
    obtain ⟨fuel, rfl, hrest⟩ := hat.exists_fuel hmem hfuel
    rw [visitLoop, if_neg (not_le.mpr hat.room), hat.header]
    simp only
    rw [if_neg hat.not_bad, ih hrest, htype]
    rfl

/-- What the loop computes from the subpackets that it comes to, if it rejects none. -/
theorem Visits.subpacketLoop_eq {offset fuel : Nat} {sps : List Subpacket}
    (h : Visits data length offset sps) (hfuel : length ≤ offset + fuel)
    (hok : ∀ sp ∈ sps, ¬ sp.Refused) (keyid : Option UInt64) (creation : Option Int) :
    subpacketLoop data length fuel offset keyid creation =
      some ⟨.ok, keyid.map (lastGiven Subpacket.keyid? sps),
        creation.map (lastGiven Subpacket.creation? sps)⟩ := by
  induction h generalizing fuel keyid creation with
  | done hend =>
    cases fuel with
    | zero => simp [subpacketLoop, lastGiven_nil]
    | succ fuel => simp [subpacketLoop, hend, lastGiven_nil]
  | @next offset len start type sps hat htype _ ih =>
    obtain ⟨fuel, rfl, hleft⟩ := hat.exists_fuel hmem hfuel
    obtain ⟨hfirst, hrest⟩ := List.forall_mem_cons.mp hok
    have hbody := subpacketBody_eq htype (hat.le_length hmem) hat.nonempty hfirst keyid creation
    have hrun := @ih fuel hleft hrest
      (keyid.map fun k => (subpacketAt data type start len).keyid?.getD k)
      (creation.map fun c => (subpacketAt data type start len).creation?.getD c)
    simp only [subpacketLoop, not_le.mpr hat.room, hat.header, hat.not_bad, hbody,
      Option.bind_eq_bind, Option.bind_some, if_false, ne_eq, not_true_eq_false, hrun, Option.map_map]
    congr 2
    · refine congrArg (keyid.map ·) (funext fun k => ?_)
      rw [lastGiven_cons]
      rfl
    · refine congrArg (creation.map ·) (funext fun c => ?_)
      rw [lastGiven_cons]
      rfl

/-- The loop comes to the end without rejecting anything, or it stops with an error. -/
theorem subpacketLoop_cases {offset fuel : Nat} (hfuel : length ≤ offset + fuel)
    (keyid : Option UInt64) (creation : Option Int) :
    (∃ sps, Visits data length offset sps ∧ ∀ sp ∈ sps, ¬ sp.Refused) ∨
      ∃ r, subpacketLoop data length fuel offset keyid creation = some r ∧ r.status ≠ .ok := by
  induction fuel generalizing offset keyid creation with
  | zero => exact .inl ⟨[], .done (by omega), by simp⟩
  | succ fuel ih =>
    by_cases hroom : offset + 2 < length
    · rcases subpacketLen_of_room hroom hmem with hnone | ⟨len, start, hsome, hlt⟩
      · exact .inr ⟨⟨.invalidPkt, keyid, creation⟩, by simp [subpacketLoop, hroom, hnone], by simp⟩
      · by_cases hbad : len = 0 ∨ length - start < len
        · exact .inr ⟨⟨.invalidPkt, keyid, creation⟩, by simp [subpacketLoop, hroom, hsome, hbad],
            by simp⟩
        · have hat : SubpacketAt data length offset len start := ⟨hroom, hsome, by omega, by omega⟩
          obtain ⟨type, htype⟩ := @getElem?_of_lt data start (by omega)
          by_cases href : (subpacketAt data type start len).Refused
          · obtain ⟨status, hstatus, hbody⟩ :=
              subpacketBody_refused htype (hat.le_length hmem) hat.nonempty href
            refine .inr ⟨⟨status, keyid, creation⟩, ?_, hstatus⟩
            simp [subpacketLoop, hroom, hsome, hbad, hbody, hstatus]
          · have hbody := subpacketBody_eq htype (hat.le_length hmem) hat.nonempty href keyid creation
            rcases @ih (start + len) (by omega)
              (keyid.map fun k => (subpacketAt data type start len).keyid?.getD k)
              (creation.map fun c => (subpacketAt data type start len).creation?.getD c) with
              ⟨sps, hsps, hok⟩ | ⟨r, hr, hstatus⟩
            · exact .inl ⟨_, .next hat htype hsps, List.forall_mem_cons.mpr ⟨href, hok⟩⟩
            · refine .inr ⟨r, ?_, hstatus⟩
              simp [subpacketLoop, hroom, hsome, hbad, hbody, hr]
    · exact .inl ⟨[], .done (by omega), by simp⟩

/-- The loop does not read outside the area. -/
theorem subpacketLoop_isSome {offset fuel : Nat} (hfuel : length ≤ offset + fuel)
    (keyid : Option UInt64) (creation : Option Int) :
    (subpacketLoop data length fuel offset keyid creation).isSome = true := by
  rcases subpacketLoop_cases hmem hfuel keyid creation with ⟨sps, hsps, hok⟩ | ⟨r, hr, -⟩
  · rw [hsps.subpacketLoop_eq hmem hfuel hok]
    rfl
  · rw [hr]
    rfl

theorem Visits.unique {offset : Nat} {sps sps' : List Subpacket} (h : Visits data length offset sps)
    (h' : Visits data length offset sps') : sps = sps' := by
  rw [← h.visitLoop_eq hmem (Nat.le_add_left length offset),
    ← h'.visitLoop_eq hmem (Nat.le_add_left length offset)]

end

/-! ## Whole areas -/

/-- **`parse_subpackets` stays inside the given octets.** -/
theorem parseSubpackets_cases {data : List UInt8} {len : Nat} (hlen : len ≤ data.length)
    (keyid : Option UInt64) (creation : Option Int) :
    (∃ length, 4 ≤ len ∧ length = beNat (data.take 2) + 2 ∧ length ≤ len ∧
      parseSubpackets data len keyid creation =
        (subpacketLoop data length length 2 keyid creation).map fun r => (length, r)) ∨
    (parseSubpackets data len keyid creation = some (0, ⟨.invalidPkt, keyid, creation⟩) ∧
      (len < 4 ∨ len < beNat (data.take 2) + 2)) := by
  unfold parseSubpackets
  by_cases hshort : len < 4
  · exact .inr ⟨by simp [hshort], .inl hshort⟩
  · have hoctets : readOctets data 0 2 = some (data.take 2) := if_pos (by omega)
    by_cases hover : len < beNat (data.take 2) + 2
    · exact .inr ⟨by simp [hshort, hoctets, hover], .inr hover⟩
    · refine .inl ⟨_, by omega, rfl, by omega, ?_⟩
      simp only [hshort, hoctets, hover, if_false, Option.bind_eq_bind, Option.bind_some]
      cases subpacketLoop data (beNat (data.take 2) + 2) (beNat (data.take 2) + 2) 2 keyid creation with
      | none => rfl
      | some r => rfl

/-- `parse_subpackets` does not read behind the octets that it is given. -/
theorem parseSubpackets_isSome {data : List UInt8} {len : Nat} (hlen : len ≤ data.length)
    (keyid : Option UInt64) (creation : Option Int) :
    ∃ r, parseSubpackets data len keyid creation = some r ∧ (r.2.status = .ok → r.1 ≤ len) := by
  rcases parseSubpackets_cases hlen keyid creation with ⟨length, h4, -, hle, hparse⟩ | ⟨hparse, -⟩
  · obtain ⟨r, hr⟩ := Option.isSome_iff_exists.mp (subpacketLoop_isSome (hle.trans hlen)
      (Nat.le_add_left length 2) keyid creation)
    rw [hparse, hr]
    exact ⟨(length, r), rfl, fun _ => hle⟩
  · exact ⟨_, hparse, by simp⟩

/-- What is known of an area that `parse_subpackets` accepts. -/
structure AcceptedArea (data : List UInt8) (len length : Nat) : Prop where
  four : 4 ≤ len
  length_eq : length = beNat (data.take 2) + 2
  length_le : length ≤ len
  visits : Visits data length 2 (visited data)
  ok : ∀ sp ∈ visited data, ¬ sp.Refused

theorem acceptedArea_of_ok {data : List UInt8} {len : Nat} (hlen : len ≤ data.length)
    {keyid : Option UInt64} {creation : Option Int} {parsed : Nat} {r : SigInfo}
    (hparse : parseSubpackets data len keyid creation = some (parsed, r)) (hok : r.status = .ok) :
    AcceptedArea data len parsed := by
  rcases parseSubpackets_cases hlen keyid creation with ⟨length, h4, heq, hle, hcase⟩ | ⟨hcase, -⟩
  · rw [hcase] at hparse
    obtain ⟨r', hloop, hpair⟩ := Option.map_eq_some_iff.mp hparse
    obtain ⟨rfl, rfl⟩ := Prod.mk.inj hpair
    rcases subpacketLoop_cases (hle.trans hlen) (Nat.le_add_left length 2) keyid creation with
      ⟨sps, hsps, hnone⟩ | ⟨r'', hr'', hbad⟩
    · have hvisited : visited data = sps := by
        unfold visited
        rw [← heq]
        exact hsps.visitLoop_eq (hle.trans hlen) (Nat.le_add_left length 2)
      rw [← hvisited] at hsps hnone
      exact ⟨h4, heq, hle, hsps, hnone⟩
    · rw [hloop] at hr''
      rw [← Option.some.inj hr''] at hbad
      exact absurd hok hbad
  · rw [hcase] at hparse
    obtain ⟨-, rfl⟩ := Prod.mk.inj (Option.some.inj hparse)
    exact absurd hok (by simp)

/-- The outcome of `parse_subpackets` is determined by the subpackets that it comes to. -/
theorem AcceptedArea.parseSubpackets_eq {data : List UInt8} {len length : Nat}
    (h : AcceptedArea data len length) (hlen : len ≤ data.length) (keyid : Option UInt64)
    (creation : Option Int) :
    parseSubpackets data len keyid creation =
      some (length, ⟨.ok, keyid.map (lastGiven Subpacket.keyid? (visited data)),
        creation.map (lastGiven Subpacket.creation? (visited data))⟩) := by
  have heq := h.length_eq
  have hle := h.length_le
  have hfour := h.four
  rcases parseSubpackets_cases hlen keyid creation with ⟨length', -, heq', -, hcase⟩ | ⟨-, hshort⟩
  · obtain rfl : length' = length := by rw [heq', heq]
    rw [hcase, h.visits.subpacketLoop_eq (h.length_le.trans hlen) (Nat.le_add_left length' 2) h.ok]
    rfl
  · omega

/-- An area with a creation time and an issuer. -/
def datedArea : List UInt8 := [0, 16, 5, 2, 0, 0, 0, 7, 9, 16, 0, 0, 0, 0, 0, 0, 0, 1]

theorem AcceptedArea.parseSubpackets_eq_dated :
    parseSubpackets datedArea 18 (some 0) (some 0) = some (18, ⟨.ok, some 1, some 7⟩) := by
  have harea := @acceptedArea_of_ok datedArea 18 (by decide) none none 18 ⟨.ok, none, none⟩
    (by decide) rfl
  have hvisited : visited datedArea = [⟨2, [0, 0, 0, 7]⟩, ⟨16, [0, 0, 0, 0, 0, 0, 0, 1]⟩] := by decide
  refine (harea.parseSubpackets_eq (by decide) (some 0) (some 0)).trans ?_
  rw [hvisited]
  rfl

/-! ## The other two loops -/

theorem Subpacket.isKeyexpiry_iff {sp : Subpacket} :
    sp.isKeyexpiry = true ↔ sp.kind = 9 ∧ 4 ≤ sp.body.length :=
  decide_eq_true_iff

theorem Subpacket.isPrimary_iff {sp : Subpacket} :
    sp.isPrimary = true ↔ sp.kind = 25 ∧ ∃ octet, sp.body.head? = some octet ∧ octet ≠ 0 := by
  refine decide_eq_true_iff.trans (and_congr_right fun _ => ?_)
  cases sp.body.head? <;> simp

theorem keyexpiryLen_eq {data : List UInt8} {length offset : Nat} {h : Nat × Nat}
    (hheader : subpacketLen data length offset = some (some h)) :
    keyexpiryLen data length offset = some (some h) := by
  unfold subpacketLen at hheader
  unfold keyexpiryLen
  cases hfirst : data[offset]? with
  | none => simp [hfirst] at hheader
  | some first =>
    simp only [hfirst, Option.bind_eq_bind, Option.bind_some] at hheader ⊢
    split_ifs at hheader with htwo hfive hover
    · rw [if_pos htwo]
      exact hheader
    · exact absurd hheader (by simp)
    · -- a header that ends before the area does not run over its end
      rw [if_neg htwo, if_pos hfive, if_neg (by omega)]
      exact hheader
    · rw [if_neg htwo, if_neg hfive]
      exact hheader

section

variable {data : List UInt8} {length : Nat} (hmem : length ≤ data.length)
include hmem

theorem Visits.keyexpiryLoop_eq {offset fuel : Nat} {sps : List Subpacket}
    (h : Visits data length offset sps) (hfuel : length ≤ offset + fuel) :
    keyexpiryLoop data length fuel offset = some (keyexpiryOf sps) := by
  induction h generalizing fuel with
  | done hend =>
    cases fuel with
    | zero => rfl
    | succ fuel => simp [keyexpiryLoop, not_lt.mpr hend, keyexpiryOf]
  | @next offset len start type sps hat htype _ ih =>
    obtain ⟨fuel, rfl, hleft⟩ := hat.exists_fuel hmem hfuel
    have hle := hat.le_length hmem
    have hlength := length_body_subpacketAt type hle hat.nonempty
    have hround : keyexpiryLoop data length (fuel + 1) offset =
        if type &&& 0x7F = 9 ∧ 5 ≤ len then (readOctets data (start + 1) 4).map beNat
        else keyexpiryLoop data length fuel (start + len) := by
      simp only [keyexpiryLoop, hat.room, keyexpiryLen_eq hat.header, hat.not_bad, htype,
        Option.bind_eq_bind, Option.bind_some, if_false, not_true_eq_false]
      split_ifs
      · cases readOctets data (start + 1) 4 <;> rfl
      · rfl
    rw [hround]
    unfold keyexpiryOf
    by_cases hexpiry : type &&& 0x7F = 9 ∧ 5 ≤ len
    · have hfind : (subpacketAt data type start len).isKeyexpiry = true :=
        Subpacket.isKeyexpiry_iff.mpr ⟨hexpiry.1, by omega⟩
      have htake : readOctets data (start + 1) 4 =
          some ((subpacketAt data type start len).body.take 4) := by
        unfold readOctets subpacketAt
        rw [if_pos (by omega), List.take_take, min_eq_left (by omega)]
      rw [if_pos hexpiry, htake, List.find?_cons_of_pos hfind]
      rfl
    · have hfind : ¬ (subpacketAt data type start len).isKeyexpiry = true := by
        intro hfind
        obtain ⟨hkind, hlong⟩ := Subpacket.isKeyexpiry_iff.mp hfind
        exact hexpiry ⟨hkind, by omega⟩
      rw [if_neg hexpiry, List.find?_cons_of_neg hfind]
      exact ih hleft

/-- A round of the loop of `signedpacket_is_primary` at a subpacket. -/
theorem primaryLoop_round {offset len start fuel : Nat} {type : UInt8}
    (hat : SubpacketAt data length offset len start) (htype : data[start]? = some type) :
    primaryLoop data length (fuel + 1) offset =
      ((subpacketAt data type start len).isPrimary || primaryLoop data length fuel (start + len)) := by
  have hle := hat.le_length hmem
  have hbad := hat.not_bad
  have hheader := hat.header
  unfold subpacketLen at hheader
  obtain ⟨first, hfirst⟩ := @getElem?_of_lt data offset (by have := hat.room; omega)
  simp only [hfirst, Option.bind_eq_bind, Option.bind_some] at hheader
  -- the flag is in the first octet of the body
  have hflag : (subpacketAt data type start len).isPrimary = true ↔
      type &&& 0x7F = 25 ∧ 2 ≤ len ∧ data[start + 1]?.getD 0 ≠ 0 := by
    rw [Subpacket.isPrimary_iff]
    refine and_congr_right fun _ => ?_
    show (∃ octet, ((data.drop (start + 1)).take (len - 1)).head? = some octet ∧ octet ≠ 0) ↔ _
    rw [List.head?_take, List.head?_drop]
    by_cases htwo : 2 ≤ len
    · obtain ⟨octet, hoctet⟩ := @getElem?_of_lt data (start + 1) (by omega)
      rw [if_neg (by omega), hoctet]
      simp [htwo]
    · rw [if_pos (by omega)]
      simp [htwo]
  have hround : primaryLoop data length (fuel + 1) offset =
      if type &&& 0x7F = 25 ∧ 2 ≤ len ∧ data[start + 1]?.getD 0 ≠ 0 then true
      else primaryLoop data length fuel (start + len) := by
    rw [primaryLoop, if_neg (not_not.mpr hat.room)]
    simp only [hfirst, Option.getD_some]
    split_ifs at hheader with htwo hfive hover
    · obtain ⟨second, hsecond⟩ := @getElem?_of_lt data (offset + 1) (by have := hat.room; omega)
      simp only [hsecond, Option.bind_some, Option.pure_def, Option.some.injEq, Prod.mk.injEq] at hheader
      obtain ⟨rfl, rfl⟩ := hheader
      simp only [if_pos htwo, hsecond, Option.getD_some, if_neg hbad, htype]
    · exact absurd hheader (by simp)
    · have hoctets : readOctets data (offset + 1) 4 = some ((data.drop (offset + 1)).take 4) :=
        if_pos (by omega)
      simp only [hoctets, Option.bind_some, Option.pure_def, Option.some.injEq, Prod.mk.injEq] at hheader
      obtain ⟨rfl, rfl⟩ := hheader
      have hover' : ¬ offset + 1 + 4 > length := by omega
      simp only [if_neg htwo, if_pos hfive, if_neg hover', if_neg hbad, htype, Option.getD_some]
    · simp only [Option.pure_def, Option.some.injEq, Prod.mk.injEq] at hheader
      obtain ⟨rfl, rfl⟩ := hheader
      simp only [if_neg htwo, if_neg hfive, if_neg hbad, htype, Option.getD_some]
  rw [hround]
  by_cases hprimary : (subpacketAt data type start len).isPrimary = true
  · rw [if_pos (hflag.mp hprimary), hprimary, Bool.true_or]
  · rw [if_neg fun h => hprimary (hflag.mpr h), Bool.eq_false_iff.mpr hprimary, Bool.false_or]

theorem Visits.primaryLoop_eq {offset fuel : Nat} {sps : List Subpacket}
    (h : Visits data length offset sps) (hfuel : length ≤ offset + fuel) :
    primaryLoop data length fuel offset = sps.any Subpacket.isPrimary := by
  induction h generalizing fuel with
  | done hend =>
    cases fuel with
    | zero => rfl
    | succ fuel => simp [primaryLoop, hend]
  | @next offset len start type sps hat htype _ ih =>
    obtain ⟨fuel, rfl, hleft⟩ := hat.exists_fuel hmem hfuel
    rw [primaryLoop_round hmem hat htype, ih hleft, List.any_cons]

end

/-- **The three loops over subpackets agree.** On a signature of version 4 or 5 whose hashed
subpackets `parse_subpackets` accepts, `find_keyexpiry_in_sig` returns the first key expiry time among
the subpackets that `parse_subpackets` comes to, and on a certification `signedpacket_is_primary` finds
the flag if and only if it is set in one of them. -/
theorem subpacket_loops_agree {sig : Packet}
    (hversion : sig.data[0]? = some 4 ∨ sig.data[0]? = some 5) {keyid : Option UInt64}
    {creation : Option Int} {parsed : Nat} {r : SigInfo}
    (hparse : parseSubpackets (sig.data.drop 4) (sig.length - 4) keyid creation = some (parsed, r))
    (hok : r.status = .ok) :
    findKeyexpiryInSig sig = some (keyexpiryOf (visited (sig.data.drop 4))) ∧
      ∀ type, sig.data[1]? = some type → 0x10 ≤ type ∧ type ≤ 0x13 →
        (sigFlagsPrimary sig = true ↔ ∃ sp ∈ visited (sig.data.drop 4), sp.isPrimary = true) := by
  have hdrop : (sig.data.drop 4).length = sig.length - 4 := List.length_drop
  have harea := acceptedArea_of_ok hdrop.ge hparse hok
  have hfour := harea.four
  have hle := harea.length_le
  have heq := harea.length_eq
  have hmem : parsed ≤ (sig.data.drop 4).length := hle.trans hdrop.ge
  have hoctets : readOctets (sig.data.drop 4) 0 2 = some ((sig.data.drop 4).take 2) :=
    if_pos (by omega)
  constructor
  · have hrun := harea.visits.keyexpiryLoop_eq hmem (Nat.le_add_left parsed 2)
    have hlong : ¬ sig.length < 6 := by omega
    have htwo : ¬ sig.length - 4 < 2 := by omega
    have hfits : ¬ sig.length - 4 < parsed := by omega
    unfold findKeyexpiryInSig
    rcases hversion with hv | hv <;>
      simp [hlong, hv, htwo, hoctets, ← heq, hfits, hrun]
  · intro type htype hcert
    have hrun := harea.visits.primaryLoop_eq hmem (Nat.le_add_left parsed 2)
    rw [← List.any_eq_true, ← hrun]
    have hlong : ¬ sig.length < 6 := by omega
    obtain ⟨v, t, x, y, data, hd⟩ : ∃ v t x y data, sig.data = v :: t :: x :: y :: data := by
      unfold Packet.length at hlong
      rcases hd : sig.data with _ | ⟨v, _ | ⟨t, _ | ⟨x, _ | ⟨y, data⟩⟩⟩⟩
      iterate 4 simp [hd] at hlong
      exact ⟨v, t, x, y, data, rfl⟩
    unfold sigFlagsPrimary
    simp only [hd, List.getElem?_cons_zero, List.getElem?_cons_succ, Option.some.injEq,
      List.drop_succ_cons, List.drop_zero] at hversion htype heq hmem ⊢
    have hskip : ¬ (sig.length < 6 ∨ v ≠ 4 ∧ v ≠ 5 ∨ t < 0x10 ∨ 0x13 < t) := by
      rintro (h | h | h | h)
      · exact hlong h
      · rcases hversion with hv | hv
        · exact h.1 hv
        · exact h.2 hv
      · exact absurd (htype ▸ hcert.1) (UInt8.not_le.mpr h)
      · exact absurd (htype ▸ hcert.2) (UInt8.not_le.mpr h)
    rw [if_neg hskip, ← heq, if_neg (by omega)]

/-- A certification with two hashed subpackets: the key expires after seven seconds, and the user id is
the primary one. -/
def expiringCert : Packet :=
  ⟨tagSignature, false, [4, 0x13, 1, 8, 0, 9, 5, 9, 0, 0, 0, 7, 2, 25, 1, 0, 0, 1, 2]⟩

theorem subpacket_loops_agree_sample :
    findKeyexpiryInSig expiringCert = some (keyexpiryOf (visited (expiringCert.data.drop 4))) ∧
      keyexpiryOf (visited (expiringCert.data.drop 4)) = 7 ∧ sigFlagsPrimary expiringCert = true := by
  have hagree := @subpacket_loops_agree expiringCert (.inl rfl) none none 11 ⟨.ok, none, none⟩
    (by decide) rfl
  refine ⟨hagree.1, by decide, (hagree.2 0x13 rfl (by decide)).mpr ⟨⟨25, [1]⟩, by decide, by decide⟩⟩

end Onak
