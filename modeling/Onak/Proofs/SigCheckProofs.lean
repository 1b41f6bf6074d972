import Onak.Proofs.ReadSafetyProofs
import Onak.SigCheck

/-!
# Proofs: signature checks read inside their packets

Every length that `sigcheck.c` takes from a packet is compared with the length of the packet before
anything behind it is read, except for that of the unhashed subpackets in
`calculate_packet_sighash`: there only the end of the hashed part is compared.
-/

namespace Onak

open Reading Source

/-! ## Steps -/

theorem readOctets_some {data : List UInt8} {offset n : Nat} (h : offset + n ≤ data.length) :
    readOctets data offset n = some ((data.drop offset).take n) :=
  if_pos h

/-- An integer is read only as far as the packet goes. -/
theorem ensures_mpiToMpz (pk : Packet) (ofs : Nat) : Ensures (mpiToMpz pk ofs) fun _ => True := by
  unfold mpiToMpz Packet.length
  refine .refuse_bind fun hbits => ?_
  refine .read_bind (readOctets_some (by omega)) ?_
  refine .refuse_bind fun hfits => ?_
  refine .read_bind (readOctets_some (by omega)) ?_
  exact ensures_pure trivial

/-- The octets of the object id that `onak_parse_oid` finds stand where it looked. -/
theorem ensures_parseOidAt {data : List UInt8} {ofs len : Nat} (hlen : ofs + len ≤ data.length) :
    Ensures (parseOidAt data ofs len) fun oid => oid ≠ .invalid → oid ≠ .unknown →
      ∃ octets, (oid, octets) ∈ oidOctets ∧ readOctets data ofs octets.length = some octets := by
  unfold parseOidAt
  refine ensures_ite (fun _ => ensures_pure fun h => absurd rfl h) fun hne => ?_
  obtain ⟨first, hfirst⟩ := @getElem?_of_lt data ofs (by omega)
  refine .read_bind hfirst (ensures_ite (fun _ => ensures_pure fun h => absurd rfl h) fun hlt => ?_)
  have hread := readOctets_some (show ofs + (first.toNat + 1) ≤ data.length by omega)
  refine .read_bind hread (ensures_pure fun _ hknown => ?_)
  set octets := (data.drop ofs).take (first.toNat + 1) with hoctets
  cases hfind : oidOctets.find? fun entry => entry.2 == octets with
  | none =>
    rw [hfind] at hknown
    exact absurd rfl hknown
  | some entry =>
    have hmem := List.mem_of_find?_eq_some hfind
    have hbeq := List.find?_some hfind
    have heq : entry.2 = octets := eq_of_beq hbeq
    refine ⟨entry.2, hmem, ?_⟩
    have hlength : entry.2.length = first.toNat + 1 := by
      rw [heq, hoctets, List.length_take, List.length_drop]
      omega
    rw [hlength, heq]
    exact hread

/-- The number of octets of an object id that is looked for. -/
def oidLength : Oid → UInt8
  | .curve25519 => 10
  | .ed25519 | .brainpoolp256r1 | .brainpoolp384r1 | .brainpoolp512r1 => 9
  | .nistp256 => 8
  | .nistp384 | .nistp521 | .secp256k1 => 5
  | .unknown | .invalid => 0

theorem head_of_mem_oidOctets {oid : Oid} {octets : List UInt8} (h : (oid, octets) ∈ oidOctets) :
    octets.head? = some (oidLength oid) := by
  have hall : ∀ entry ∈ oidOctets, entry.2.head? = some (oidLength entry.1) := by decide
  exact hall _ h

/-- The length of an object id that was found stands in front of it. -/
theorem getElem?_of_oid {data octets : List UInt8} {ofs : Nat} {oid : Oid}
    (hmem : (oid, octets) ∈ oidOctets) (hread : readOctets data ofs octets.length = some octets) :
    data[ofs]? = some (oidLength oid) := by
  have hhead := head_of_mem_oidOctets hmem
  unfold readOctets at hread
  split_ifs at hread with hle
  have hdrop := Option.some.inj hread
  have hpos : octets.length ≠ 0 := by
    intro hzero
    rw [List.length_eq_zero_iff.mp hzero] at hhead
    exact absurd hhead (by simp)
  rw [← hdrop, List.head?_take, if_neg hpos, List.head?_drop] at hhead
  exact hhead

/-- The octets of a buffer, as far as they lie inside the data that it points into. -/
theorem map_range_octets {data : List UInt8} {ofs n : Nat} (h : ofs + n ≤ data.length) :
    ((List.range n).map fun i => data[ofs + i]?.getD 0) = (data.drop ofs).take n := by
  apply List.ext_getElem?
  intro i
  rw [List.getElem?_map, List.getElem?_take, List.getElem?_drop]
  by_cases hi : i < n
  · rw [List.getElem?_range hi, if_pos hi]
    obtain ⟨c, hc⟩ := @getElem?_of_lt data (ofs + i) (by omega)
    rw [Option.map_some, hc, Option.getD_some]
  · rw [List.getElem?_eq_none (by simpa using hi), if_neg hi]
    rfl

/-- `onak_parse_oid` reads the octets that it is given and no others. -/
theorem parseOidAt_eq {data : List UInt8} {ofs len : Nat} (hlen : ofs + len ≤ data.length) :
    (parseOidAt data ofs len).run =
      some (.ok (onakParseOid (fun i => data[ofs + i]?.getD 0) len)) := by
  unfold parseOidAt onakParseOid
  by_cases hzero : len = 0
  · simp [hzero]
  · obtain ⟨first, hfirst⟩ := @getElem?_of_lt data ofs (by omega)
    simp only [hzero, Nat.add_zero, hfirst, Option.getD_some, if_false, false_or, run_read_bind_some]
    by_cases hle : len ≤ first.toNat
    · simp only [hle, if_true]
      rfl
    · have hread := readOctets_some (show ofs + (first.toNat + 1) ≤ data.length by omega)
      have hwhole := map_range_octets (show ofs + (first.toNat + 1) ≤ data.length by omega)
      -- each object id is as long as its first octet says
      have hlengths : ∀ entry ∈ oidOctets, entry.2.length = (entry.2.headD 0).toNat + 1 := by
        decide
      have hfind : (oidOctets.find? fun entry =>
            entry.2 == (List.range entry.2.length).map fun i => data[ofs + i]?.getD 0) =
          oidOctets.find? fun entry => entry.2 == (data.drop ofs).take (first.toNat + 1) := by
        refine List.find?_congr fun entry hentry => ?_
        have hlength := hlengths entry hentry
        rw [Bool.eq_iff_iff, beq_iff_eq, beq_iff_eq, ← hwhole]
        constructor
        · intro h
          have hhead : entry.2.headD 0 = first := by
            rw [h, hlength, List.range_succ_eq_map]
            simp [hfirst]
          rw [hlength, hhead] at h
          exact h
        · intro h
          have hn : entry.2.length = first.toNat + 1 := by
            rw [h, List.length_map, List.length_range]
          rw [hn]
          exact h
      simp only [hle, if_false, hread, run_read_bind_some, hfind]
      cases oidOctets.find? fun entry => entry.2 == (data.drop ofs).take (first.toNat + 1) <;> rfl

theorem parseOidAt_eq_nistp256 :
    (parseOidAt [0, 8, 0x2A, 0x86, 0x48, 0xCE, 0x3D, 0x03, 0x01, 0x07] 1 9).run =
      some (.ok .nistp256) := by
  refine (parseOidAt_eq (by decide)).trans ?_
  decide

/-- The coordinates of a point lie inside the packet when the length of the object id is as expected. -/
theorem ensures_ecPoint {pk : Packet} {ofs total bits n : Nat} {oidLen : UInt8}
    (hofs : ofs ≤ pk.length) (hoid : pk.data[ofs]? = some oidLen)
    (htotal : total = oidLen.toNat + 1 + 3 + n + n) :
    Ensures (ecPoint pk ofs total bits n) fun _ => True := by
  unfold ecPoint
  refine .refuse_bind fun hsize => ?_
  have hlength : pk.data.length = ofs + total := by
    unfold sizeSub at hsize
    rw [if_pos hofs, not_not] at hsize
    unfold Packet.length at hsize hofs
    omega
  refine .read_bind hoid ?_
  refine .read_bind (readOctets_some (by omega)) ?_
  refine .refuse_bind fun _ => ?_
  obtain ⟨form, hform⟩ := @getElem?_of_lt pk.data (ofs + (oidLen.toNat + 1) + 2) (by omega)
  refine .read_bind hform ?_
  refine .refuse_bind fun _ => ?_
  refine .read_bind (readOctets_some (by omega)) ?_
  refine .read_bind (readOctets_some (by omega)) ?_
  exact ensures_pure trivial

theorem ensures_parseEcdsa {pk : Packet} {ofs : Nat} (hofs : ofs ≤ pk.length) :
    Ensures (parseEcdsa pk ofs) fun _ => True := by
  have hsize : sizeSub pk.length ofs = pk.length - ofs := if_pos hofs
  unfold parseEcdsa
  refine (ensures_parseOidAt (by rw [hsize]; unfold Packet.length at hofs ⊢; omega)).bind ?_
  intro oid hoid
  refine .refuse_bind fun hvalid => .refuse_bind fun hknown => ?_
  obtain ⟨octets, hmem, hread⟩ := hoid hvalid hknown
  have hlen := getElem?_of_oid hmem hread
  have hpoint : Ensures (ecdsaPoint pk ofs oid) fun _ => True := by
    unfold ecdsaPoint
    refine ensures_ite (fun heq => ?_) fun _ => ensures_ite (fun heq => ?_) fun _ =>
      ensures_ite (fun heq => ?_) fun _ => ensures_throw _ _
    · exact ensures_ecPoint hofs hlen (by rw [heq]; rfl)
    · exact ensures_ecPoint hofs hlen (by rw [heq]; rfl)
    · exact ensures_ecPoint hofs hlen (by rw [heq]; rfl)
  exact hpoint.bind fun point _ => ensures_pure trivial

theorem ensures_parseEddsa {pk : Packet} {ofs : Nat} (hofs : ofs ≤ pk.length) :
    Ensures (parseEddsa pk ofs) fun _ => True := by
  have hsize : sizeSub pk.length ofs = pk.length - ofs := if_pos hofs
  unfold parseEddsa
  refine .refuse_bind fun htotal => ?_
  have hlength : pk.data.length = ofs + 45 := by
    rw [hsize, not_not] at htotal
    unfold Packet.length at htotal hofs
    omega
  refine (ensures_parseOidAt (by rw [hsize]; unfold Packet.length; omega)).bind ?_
  intro oid hoid
  refine .refuse_bind fun hvalid => .refuse_bind fun hknown => ?_
  obtain ⟨octets, hmem, hread⟩ := hoid hvalid hknown
  refine .read_bind (getElem?_of_oid hmem hread) ?_
  refine .refuse_bind fun hed => ?_
  have hnine : (oidLength oid).toNat = 9 := by
    rw [not_not] at hed
    rw [hed]
    rfl
  refine .read_bind (readOctets_some (by omega)) ?_
  refine .refuse_bind fun _ => ?_
  obtain ⟨form, hform⟩ := @getElem?_of_lt pk.data (ofs + ((oidLength oid).toNat + 1) + 2) (by omega)
  refine .read_bind hform ?_
  refine .refuse_bind fun _ => ?_
  refine .read_bind (readOctets_some (by omega)) ?_
  exact ensures_pure trivial

theorem ensures_parseDsa (pk : Packet) (ofs : Nat) : Ensures (parseDsa pk ofs) fun _ => True := by
  unfold parseDsa
  refine (ensures_mpiToMpz pk ofs).bind fun p _ => ?_
  refine (ensures_mpiToMpz pk p.2).bind fun q _ => ?_
  refine (ensures_mpiToMpz pk q.2).bind fun g _ => ?_
  exact (ensures_mpiToMpz pk g.2).bind fun y _ => ensures_pure trivial

theorem ensures_parseRsa {pk : Packet} (hlen : 8 ≤ pk.length) (ofs : Nat) :
    Ensures (parseRsa pk ofs) fun _ => True := by
  unfold parseRsa
  refine .read_bind (readOctets_some hlen) ?_
  refine (ensures_mpiToMpz pk ofs).bind fun n _ => ?_
  exact (ensures_mpiToMpz pk n.2).bind fun e _ => ensures_pure trivial

theorem ensures_parseKeyValues {pk : Packet} (hlen : 8 ≤ pk.length) {ofs : Nat} (hofs : ofs ≤ pk.length)
    (type : UInt8) : Ensures (parseKeyValues pk ofs type) fun _ => True := by
  unfold parseKeyValues
  refine ensures_ite (fun _ => ensures_parseEcdsa hofs) fun _ => ?_
  refine ensures_ite (fun _ => ensures_parseEddsa hofs) fun _ => ?_
  refine ensures_ite (fun _ => ensures_parseDsa pk ofs) fun _ => ?_
  exact ensures_ite (fun _ => ensures_parseRsa hlen ofs) fun _ => ensures_throw _ _

/-- **Key material is read inside the packet.** -/
theorem ensures_onakParseKeyMaterial (pk : Packet) :
    Ensures (onakParseKeyMaterial pk) fun _ => True := by
  unfold onakParseKeyMaterial
  refine .refuse_bind fun hshort => ?_
  have hlen : 51 ≤ pk.data.length := not_lt.mp hshort
  obtain ⟨version, hversion⟩ := @getElem?_of_lt pk.data 0 (by omega)
  obtain ⟨type, htype⟩ := @getElem?_of_lt pk.data 5 (by omega)
  refine .read_bind hversion (.refuse_bind fun _ => .read_bind htype ?_)
  have hofs : (if version = 4 then 6 else 10) ≤ pk.length := by
    unfold Packet.length
    split_ifs <;> omega
  exact (ensures_parseKeyValues (show 8 ≤ pk.data.length by omega) hofs type).bind fun key _ =>
    ensures_pure trivial

/-! ## The signature -/

theorem ensures_sigStart {sig : Packet} (hlen : 8 ≤ sig.length) :
    Ensures (sigStart sig) fun _ => True := by
  unfold Packet.length at hlen
  obtain ⟨version, hversion⟩ := @getElem?_of_lt sig.data 0 (by omega)
  obtain ⟨hashedLen, hhashed⟩ := @getElem?_of_lt sig.data 1 (by omega)
  obtain ⟨algo, halgo⟩ := @getElem?_of_lt sig.data 2 (by omega)
  unfold sigStart
  refine .read_bind hversion (ensures_ite (fun _ => ?_) fun _ => ensures_ite (fun _ => ?_) fun _ =>
    ensures_throw _ _)
  · refine .read_bind hhashed (.refuse_bind fun _ => .refuse_bind fun hshort => ?_)
    obtain ⟨type, htype⟩ := @getElem?_of_lt sig.data 15 (by unfold Packet.length at hshort; omega)
    exact .read_bind htype (ensures_pure trivial)
  · refine .read_bind (readOctets_some (by omega)) (.refuse_bind fun hhashed => ?_)
    unfold Packet.length at hhashed
    refine .read_bind (readOctets_some (by omega)) (.refuse_bind fun _ => ?_)
    exact .read_bind halgo (ensures_pure trivial)

theorem ensures_sigValues (edsig : List UInt8) (sig : Packet) (type : UInt8) (ofs : Nat) :
    Ensures (sigValues edsig sig type ofs) fun _ => True := by
  unfold sigValues
  refine ensures_ite (fun _ => ?_) fun _ => ensures_ite (fun _ => ?_) fun _ =>
    ensures_ite (fun _ => ?_) fun _ => ensures_pure trivial
  · refine (ensures_mpiToMpz sig ofs).bind fun r _ => ?_
    exact (ensures_mpiToMpz sig r.2).bind fun s _ => ensures_pure trivial
  · refine (ensures_mpiToMpz sig ofs).bind fun r _ => ?_
    exact (ensures_mpiToMpz sig r.2).bind fun s _ => .refuse_bind fun _ => ensures_pure trivial
  · exact (ensures_mpiToMpz sig ofs).bind fun s _ => ensures_pure trivial

/-- **Signature values are read inside the packets**, whatever the packets are. -/
theorem ensures_onakCheckHashSig (verify : KeyMaterial → UInt8 → List UInt8 → SigValues → Bool)
    (edsig : List UInt8) (sigkey sig : Packet) (hash : List UInt8) (hashtype : UInt8) :
    Ensures (onakCheckHashSig verify edsig sigkey sig hash hashtype) fun _ => True := by
  unfold onakCheckHashSig
  refine (ensures_onakParseKeyMaterial sigkey).bind fun key _ => ?_
  refine .refuse_bind fun hshort => ?_
  refine (ensures_sigStart (not_lt.mp hshort)).bind fun start _ => ?_
  refine .refuse_bind fun _ => ?_
  refine (ensures_sigValues edsig sig start.2 start.1).bind fun values _ => ?_
  cases keyhash (if key.1 = pkalgoRsaSign then pkalgoRsa else key.1) hashtype with
  | none => exact ensures_throw _ _
  | some good => exact ensures_pure trivial

/-! ## The hash of a signature -/

/-- The number of octets of a signature that are hashed, by the length of its hashed subpackets. -/
def siglenOf (sig : Packet) : Nat := beNat ((sig.data.drop 4).take 2) + 6

/-- The signatures for which `calculate_packet_sighash` comes to read the length of the unhashed
subpackets: those of version 5, and those of version 4 that are not checked for being based on X509. -/
def ReadsUnhashed (sig : Packet) : Prop :=
  10 ≤ sig.length ∧ (sig.data[0]? = some 5 ∨
    sig.data[0]? = some 4 ∧ sig.data[2]? ≠ some 0 ∧ sig.data[2]? ≠ some 100)

/-- The length of the unhashed subpackets is in the packet, or the hashed part is too long already. -/
def SighashReadable (sig : Packet) : Prop :=
  ReadsUnhashed sig → sig.length < siglenOf sig ∨ siglenOf sig + 2 ≤ sig.length

section

variable {sig : Packet}

theorem readOctets_siglen (hlen : 10 ≤ sig.length) :
    readOctets sig.data 4 2 = some ((sig.data.drop 4).take 2) :=
  readOctets_some (show 4 + 2 ≤ sig.length by omega)

theorem ensures_sigChunks (hlen : 10 ≤ sig.length)
    (h : sig.length < siglenOf sig ∨ siglenOf sig + 2 ≤ sig.length) (hashtype : UInt8)
    (chunks : List (List UInt8)) (trailer : List UInt8) :
    Ensures (sigChunks sig hashtype chunks trailer) fun d => d.sighash + 2 ≤ sig.length := by
  have hsiglen : beNat ((sig.data.drop 4).take 2) + 6 = siglenOf sig := rfl
  unfold sigChunks
  refine .read_bind (readOctets_siglen hlen) ?_
  simp only [hsiglen]
  refine .refuse_bind fun hfits => ?_
  have hroom : siglenOf sig + 2 ≤ sig.data.length := h.resolve_left hfits
  refine .read_bind (readOctets_some (show 0 + siglenOf sig ≤ sig.data.length by omega)) ?_
  refine .read_bind (readOctets_some hroom) ?_
  refine .refuse_bind fun hunhashed => ensures_pure ?_
  show siglenOf sig + beNat ((sig.data.drop (siglenOf sig)).take 2) + 2 + 2 ≤ sig.length
  omega

/-- A hashed part that ends with the packet, or one octet in front of its end, is not refused. -/
theorem sigChunks_run_none (hlen : 10 ≤ sig.length) (hfits : siglenOf sig ≤ sig.length)
    (hroom : sig.length < siglenOf sig + 2) (hashtype : UInt8) (chunks : List (List UInt8))
    (trailer : List UInt8) : (sigChunks sig hashtype chunks trailer).run = none := by
  have hsiglen : beNat ((sig.data.drop 4).take 2) + 6 = siglenOf sig := rfl
  have hhashed : readOctets sig.data 0 (siglenOf sig) = some ((sig.data.drop 0).take (siglenOf sig)) :=
    readOctets_some ((Nat.zero_add _).trans_le hfits)
  have hnone : readOctets sig.data (siglenOf sig) 2 = none := if_neg (not_le.mpr hroom)
  unfold sigChunks
  rw [readOctets_siglen hlen, run_read_bind_some]
  simp only [hsiglen]
  rw [run_refuse_bind _ (not_lt.mpr hfits), hhashed, run_read_bind_some, hnone, run_read_bind_none]

/-- The check for an X509 based signature reads inside the packet; behind it, the unhashed subpackets
are known to be there. -/
theorem ensures_refuseX509 (hlen : 10 ≤ sig.length) :
    Ensures (refuseX509 sig) fun _ =>
      sig.data[2]? = some 0 ∨ sig.data[2]? = some 100 → siglenOf sig + 2 ≤ sig.length := by
  obtain ⟨algo, halgo⟩ := @getElem?_of_lt sig.data 2 (by unfold Packet.length at hlen; omega)
  have hsize : sizeSub sig.length 4 = (sig.data.drop 4).length := by
    unfold sizeSub
    rw [if_pos (by omega), List.length_drop]
    rfl
  obtain ⟨⟨len, r⟩, hparse, -⟩ := parseSubpackets_isSome hsize.le (some 0) none
  unfold refuseX509
  refine .read_bind halgo (ensures_ite (fun _ => ?_) fun hother => ensures_pure fun h => ?_)
  · refine .read_bind hparse ?_
    refine .refuse_bind fun hok => .refuse_bind fun hshort => ?_
    have harea := acceptedArea_of_ok hsize.le hparse (not_not.mp hok)
    have hsiglen : siglenOf sig = len + 4 := by
      unfold siglenOf
      rw [harea.length_eq]
    refine ensures_ite (fun _ => ?_) fun _ => ensures_pure fun _ => by omega
    refine .read_bind (readOctets_some (show 4 + len + 7 ≤ sig.length by omega)) ?_
    exact ensures_refuse fun _ _ => by omega
  · rw [halgo] at h
    simp only [Option.some.injEq] at h
    exact absurd h hother

theorem refuseX509_run_ok {algo : UInt8} (halgo : sig.data[2]? = some algo) (h0 : algo ≠ 0)
    (h100 : algo ≠ 100) : (refuseX509 sig).run = some (.ok ()) := by
  unfold refuseX509
  rw [halgo, run_read_bind_some, if_neg (by simp [h0, h100])]
  rfl

variable (publickey : Packet) (packet : Option Packet)

theorem ensures_hashData (h : SighashReadable sig) :
    Ensures (hashData publickey packet sig) fun d => d.sighash + 2 ≤ sig.length := by
  unfold hashData
  refine .refuse_bind fun hshort => ?_
  have hlen : 10 ≤ sig.length := not_lt.mp hshort
  have hlen' : 10 ≤ sig.data.length := hlen
  obtain ⟨version, hversion⟩ := @getElem?_of_lt sig.data 0 (by omega)
  obtain ⟨hashtype, hhashtype⟩ := @getElem?_of_lt sig.data 3 (by omega)
  refine .read_bind hversion (ensures_ite (fun _ => ?_) fun _ => ensures_ite (fun h4 => ?_) fun _ =>
    ensures_ite (fun h5 => ?_) fun _ => ensures_throw _ _)
  · -- versions 2 and 3
    refine .refuse_bind fun hshort' => ?_
    have hlen19 : 19 ≤ sig.data.length := not_lt.mp hshort'
    obtain ⟨hashtype3, hhashtype3⟩ := @getElem?_of_lt sig.data 16 (by omega)
    refine .read_bind hhashtype3 (.read_bind (readOctets_some (by omega)) ?_)
    exact ensures_pure hlen19
  · -- version 4
    refine (ensures_refuseX509 hlen).bind fun _ hx509 => .read_bind hhashtype ?_
    refine ensures_sigChunks hlen ?_ hashtype _ _
    by_cases halgo : sig.data[2]? = some 0 ∨ sig.data[2]? = some 100
    · exact .inr (hx509 halgo)
    · rw [not_or] at halgo
      exact h ⟨hlen, .inr ⟨h4 ▸ hversion, halgo⟩⟩
  · -- version 5
    exact .read_bind hhashtype (ensures_sigChunks hlen (h ⟨hlen, .inl (h5 ▸ hversion)⟩) hashtype _ _)

theorem hashData_run_none (h : ¬ SighashReadable sig) : (hashData publickey packet sig).run = none := by
  unfold SighashReadable at h
  push Not at h
  obtain ⟨⟨hlen, hversion⟩, hfits, hroom⟩ := h
  have hlen' : 10 ≤ sig.data.length := hlen
  obtain ⟨hashtype, hhashtype⟩ := @getElem?_of_lt sig.data 3 (by omega)
  unfold hashData
  rw [run_refuse_bind _ (not_lt.mpr hlen)]
  rcases hversion with h5 | ⟨h4, h0, h100⟩
  · rw [h5, run_read_bind_some, if_neg (by decide), if_neg (by decide), if_pos rfl, hhashtype,
      run_read_bind_some]
    exact sigChunks_run_none hlen hfits hroom hashtype _ _
  · obtain ⟨algo, halgo⟩ := @getElem?_of_lt sig.data 2 (by omega)
    rw [halgo] at h0 h100
    have hx509 := refuseX509_run_ok halgo (fun h => h0 (by rw [h])) fun h => h100 (by rw [h])
    rw [h4, run_read_bind_some, if_neg (by decide), if_pos rfl, run_bind, hx509]
    show (read sig.data[3]? >>= _).run = none
    rw [hhashtype, run_read_bind_some]
    exact sigChunks_run_none hlen hfits hroom hashtype _ _

end

/-- `onak_hash` reads nothing but its chunks. -/
theorem ensures_onakHash (digest : UInt8 → List (List UInt8) → List UInt8) (hashtype : UInt8)
    (chunks : List (List UInt8)) : Ensures (onakHash digest hashtype chunks) fun _ => True := by
  unfold onakHash
  exact .refuse_bind fun _ => .refuse_bind fun _ => ensures_pure trivial

/-- **When signature checks stay inside their packets.** For any key, signed packet and signature, and
any key that is to have made the signature: `calculate_packet_sighash` and `onak_check_hash_sig` read
only octets of the packets, and the two octets of the hash lie inside the signature when it succeeds, if
and only if the signature is not one whose hashed part leaves less than two octets. -/
theorem sigcheck_inside_iff (digest : UInt8 → List (List UInt8) → List UInt8)
    (verify : KeyMaterial → UInt8 → List UInt8 → SigValues → Bool) (edsig hash : List UInt8)
    (hashtype : UInt8) (publickey sigkey sig : Packet) (packet : Option Packet) :
    (Ensures (calculatePacketSighash digest publickey packet sig) fun r =>
        r.sighash + 2 ≤ sig.length) ∧
      Reading.Inside (onakCheckHashSig verify edsig sigkey sig hash hashtype) ↔ SighashReadable sig := by
  constructor
  · rintro ⟨hcalc, -⟩
    by_contra hbad
    have hinside := hcalc.inside
    unfold Reading.Inside calculatePacketSighash at hinside
    rw [run_bind, hashData_run_none publickey packet hbad] at hinside
    exact absurd hinside (by simp)
  · intro h
    refine ⟨?_, (ensures_onakCheckHashSig verify edsig sigkey sig hash hashtype).inside⟩
    unfold calculatePacketSighash
    refine (ensures_hashData publickey packet h).bind fun d hd => ?_
    exact (ensures_onakHash digest d.hashtype d.chunks).bind fun _ _ => ensures_pure hd

/-- A signature of version 4 and ten octets, all of them hashed. -/
def allHashedSig : Packet := ⟨tagSignature, false, [4, 0x13, 1, 8, 0, 4, 3, 27, 1, 0]⟩

/-- It is accepted by the reader, and the length of its unhashed subpackets is read behind it. -/
theorem calculatePacketSighash_reads_behind :
    ¬ ∀ (digest : UInt8 → List (List UInt8) → List UInt8) (past : List Packet → UInt8) (fuel : Nat)
      (octets : List UInt8) (r : ReadResult (List UInt8)),
      readOpenpgpStream buffer past fuel octets [] 0 = some r →
      ∀ publickey ∈ r.packets, ∀ packet ∈ r.packets, ∀ sig ∈ r.packets,
        publickey.tag = tagPublickey → packet.tag = tagUid → sig.tag = tagSignature →
        Reading.Inside (calculatePacketSighash digest publickey (some packet) sig) := by
  intro hall
  have hinside := hall (fun _ _ => []) (fun _ => 0) 4
    [0x98, 1, 4, 0xB4, 1, 65, 0x88, 10, 4, 0x13, 1, 8, 0, 4, 3, 27, 1, 0]
    ⟨.ok, [⟨tagPublickey, false, [4]⟩, ⟨tagUid, false, [65]⟩, allHashedSig], []⟩ rfl
    ⟨tagPublickey, false, [4]⟩ (by simp) ⟨tagUid, false, [65]⟩ (by simp) allHashedSig (by simp) rfl rfl
    rfl
  exact absurd hinside (by unfold Reading.Inside; decide)

end Onak
