import Onak.KeyMaterial
import Onak.Proofs.KeydSocketProofs
import Onak.Proofs.KeyringProofs
import Onak.Proofs.SigCheckProofs

/-!
# Proofs: key material

`onak_parse_key_material` undoes the encoding of a key, but for the size of an RSA key of version 5:
this it reads where the first integer of a version 4 key stands.
-/

namespace Onak

open Reading Socket Source

/-! ## Integers -/

theorem length_mpzExport (n : Nat) : (mpzExport n).length = (n.size + 7) / 8 := by
  unfold mpzExport
  rw [List.length_map, List.length_reverse]
  refine eq_of_forall_ge_iff fun k => ?_
  have h256 : (256 : Nat) ^ k = 2 ^ (8 * k) := by rw [Nat.pow_mul]
  rw [Nat.digits_length_le_iff (by norm_num), h256, ← Nat.size_le]
  omega

theorem beNat_mpzExport (n : Nat) : beNat (mpzExport n) = n := by
  have hdigits (l : List Nat) (hl : ∀ d ∈ l, d < 256) :
      beNat (l.reverse.map UInt8.ofNat) = Nat.ofDigits 256 l := by
    induction l with
    | nil => rfl
    | cons d l ih =>
      have hd : d < 256 := hl d List.mem_cons_self
      rw [List.reverse_cons, List.map_append, List.map_singleton, beNat_append,
        ih fun d hd => hl d (List.mem_cons_of_mem _ hd), Nat.ofDigits_cons, UInt8.toNat_ofNat']
      show _ * 256 + d % 256 = d + 256 * _
      omega
  unfold mpzExport
  rw [hdigits _ fun d hd => Nat.digits_lt_base (by norm_num) hd, Nat.ofDigits_digits]

theorem length_mpi (n : Mpi) : n.octets.length = 2 + (mpzExport n).length := by
  unfold Mpi.octets
  rw [List.length_append, length_bigOctets]

theorem beNat_size (n : Mpi) : beNat (bigOctets 2 n.val.size) = n.val.size :=
  beNat_bigOctets n.property

/-- An integer is read as it was written, and what is behind it is read next. -/
theorem mpiToMpz_octets {pk : Packet} (n : Mpi) (before behind : List UInt8)
    (hdata : pk.data = before ++ (n.octets ++ behind)) {ofs : Nat} (hofs : before.length = ofs) :
    (mpiToMpz pk ofs).run = some (.ok (n.val, ofs + n.octets.length)) := by
  have hlength : pk.length = ofs + (2 + (mpzExport n).length + behind.length) := by
    unfold Packet.length
    rw [hdata, List.length_append, List.length_append, length_mpi, hofs]
  have hbits : readOctets pk.data ofs 2 = some (bigOctets 2 n.val.size) := by
    rw [hdata, Mpi.octets, List.append_assoc]
    exact readOctets_middle before _ _ hofs (length_bigOctets 2 _)
  have hoctets : readOctets pk.data (ofs + 2) (mpzExport n).length = some (mpzExport n) := by
    rw [hdata, Mpi.octets, List.append_assoc, ← List.append_assoc]
    refine readOctets_middle _ _ _ ?_ rfl
    rw [List.length_append, length_bigOctets, hofs]
  have hlen : (beNat (bigOctets 2 n.val.size) + 7) >>> 3 = (mpzExport n).length := by
    rw [beNat_size, length_mpzExport, Nat.shiftRight_eq_div_pow]
  unfold mpiToMpz
  rw [run_refuse_bind _ (by omega), hbits, run_read_bind_some]
  simp only [hlen]
  rw [run_refuse_bind _ (by omega), hoctets, run_read_bind_some, beNat_mpzExport, length_mpi]
  show some (Except.ok _) = _
  congr 3
  omega

theorem readOctets_eq_some {data octets : List UInt8} {offset n : Nat}
    (h : readOctets data offset n = some octets) :
    offset + n ≤ data.length ∧ octets = (data.drop offset).take n := by
  unfold readOctets at h
  split_ifs at h with hle
  exact ⟨hle, (Option.some.inj h).symm⟩

/-- An integer that is read lies inside the packet, and the next one is read behind it. -/
theorem mpiToMpz_inside {pk : Packet} {ofs : Nat} {v : Nat × Nat}
    (h : (mpiToMpz pk ofs).run = some (.ok v)) {count : Nat}
    (hpast : MpisPastEnd (count + 1) (pk.data.drop ofs)) : MpisPastEnd count (pk.data.drop v.2) := by
  unfold mpiToMpz at h
  obtain ⟨-, h⟩ := of_run_refuse_bind h
  obtain ⟨bits, hbits, h⟩ := of_run_read_bind h
  obtain ⟨hfits, h⟩ := of_run_refuse_bind h
  obtain ⟨octets, -, h⟩ := of_run_read_bind h
  cases h
  obtain ⟨hroom, hbits⟩ := readOctets_eq_some hbits
  have hlen : (beNat bits + 7) >>> 3 + 2 = mpiLength (pk.data.drop ofs) := by
    rw [mpiLength, ← hbits, Nat.shiftRight_eq_div_pow]
    omega
  unfold Packet.length at hfits
  have hnext : pk.data.drop (ofs + (beNat bits + 7) >>> 3 + 2) =
      (pk.data.drop ofs).drop (mpiLength (pk.data.drop ofs)) := by
    rw [List.drop_drop, ← hlen, Nat.add_assoc]
  rcases hpast with hpast | hpast | hpast
  · rw [List.length_drop] at hpast
    omega
  · rw [← hlen, List.length_drop] at hpast
    omega
  · rwa [hnext]

/-! ## Integers that run past the end -/

section

variable {pk : Packet} {ofs : Nat} {key : KeyMaterial}

theorem parseDsa_inside (h : (parseDsa pk ofs).run = some (.ok key)) :
    ¬ MpisPastEnd 4 (pk.data.drop ofs) := by
  intro hpast
  unfold parseDsa at h
  obtain ⟨p, hp, h⟩ := of_run_bind h
  obtain ⟨q, hq, h⟩ := of_run_bind h
  obtain ⟨g, hg, h⟩ := of_run_bind h
  obtain ⟨y, hy, h⟩ := of_run_bind h
  exact mpiToMpz_inside hy (mpiToMpz_inside hg (mpiToMpz_inside hq (mpiToMpz_inside hp hpast)))

theorem parseRsa_inside (h : (parseRsa pk ofs).run = some (.ok key)) :
    ¬ MpisPastEnd 2 (pk.data.drop ofs) := by
  intro hpast
  unfold parseRsa at h
  obtain ⟨octets, -, h⟩ := of_run_read_bind h
  obtain ⟨n, hn, h⟩ := of_run_bind h
  obtain ⟨e, he, h⟩ := of_run_bind h
  exact mpiToMpz_inside he (mpiToMpz_inside hn hpast)

/-- The integer of a point is as long as what is left for it. -/
theorem not_mpisPastEnd_point {bits : List UInt8} (hread : readOctets pk.data ofs 2 = some bits)
    (hlength : pk.length = ofs + (2 + (beNat bits + 7) / 8)) :
    ¬ MpisPastEnd 1 (pk.data.drop ofs) := by
  obtain ⟨hroom, hbits⟩ := readOctets_eq_some hread
  unfold Packet.length at hlength
  have hmpi : mpiLength (pk.data.drop ofs) = (pk.data.drop ofs).length := by
    rw [mpiLength, ← hbits, List.length_drop]
    omega
  rintro (hpast | hpast | hpast)
  · rw [List.length_drop] at hpast
    omega
  · omega
  · exact hpast

theorem ecPoint_inside {total bits n : Nat} {oidLen : UInt8} {point : Nat × Nat}
    (hofs : ofs ≤ pk.length) (hoid : pk.data[ofs]? = some oidLen)
    (htotal : total = oidLen.toNat + 1 + 2 + (bits + 7) / 8)
    (h : (ecPoint pk ofs total bits n).run = some (.ok point)) :
    ¬ MpisPastEnd 1 (pk.data.drop (ofs + (oidLen.toNat + 1))) := by
  unfold ecPoint at h
  obtain ⟨hsize, h⟩ := of_run_refuse_bind h
  rw [hoid, run_read_bind_some] at h
  obtain ⟨len, hlen, h⟩ := of_run_read_bind h
  obtain ⟨hbits, -⟩ := of_run_refuse_bind h
  refine not_mpisPastEnd_point hlen ?_
  rw [not_not] at hsize hbits
  rw [sizeSub, if_pos hofs] at hsize
  rw [hbits]
  omega

/-- The object id that was found stands where the key starts. -/
theorem parseOidAt_found {oid : Oid} (hofs : ofs ≤ pk.length)
    (h : (parseOidAt pk.data ofs (sizeSub pk.length ofs)).run = some (.ok oid))
    (hvalid : oid ≠ .invalid) (hknown : oid ≠ .unknown) : pk.data[ofs]? = some (oidLength oid) := by
  have hlen : ofs + sizeSub pk.length ofs ≤ pk.data.length := by
    rw [sizeSub, if_pos hofs]
    unfold Packet.length at hofs ⊢
    omega
  obtain ⟨r, hr, hoid⟩ := ensures_parseOidAt hlen
  obtain rfl := Option.some.inj (hr.symm.trans h)
  obtain ⟨octets, hmem, hread⟩ := hoid oid rfl hvalid hknown
  exact getElem?_of_oid hmem hread

theorem parseEcdsa_inside (hofs : ofs ≤ pk.length) (h : (parseEcdsa pk ofs).run = some (.ok key)) :
    ¬ MpisPastEnd 1 (pk.data.drop (ofs + ((pk.data[ofs]?.getD 0).toNat + 1))) := by
  unfold parseEcdsa at h
  obtain ⟨oid, hoid, h⟩ := of_run_bind h
  obtain ⟨hvalid, h⟩ := of_run_refuse_bind h
  obtain ⟨hknown, h⟩ := of_run_refuse_bind h
  obtain ⟨point, hpoint, -⟩ := of_run_bind h
  have hlen := parseOidAt_found hofs hoid hvalid hknown
  rw [hlen, Option.getD_some]
  unfold ecdsaPoint at hpoint
  split_ifs at hpoint with h256 h384 h521
  · exact ecPoint_inside hofs hlen (by rw [h256]; rfl) hpoint
  · exact ecPoint_inside hofs hlen (by rw [h384]; rfl) hpoint
  · exact ecPoint_inside hofs hlen (by rw [h521]; rfl) hpoint
  · exact absurd (Option.some.inj hpoint) (by simp)

theorem parseEddsa_inside (hofs : ofs ≤ pk.length) (h : (parseEddsa pk ofs).run = some (.ok key)) :
    ¬ MpisPastEnd 1 (pk.data.drop (ofs + ((pk.data[ofs]?.getD 0).toNat + 1))) := by
  unfold parseEddsa at h
  obtain ⟨hsize, h⟩ := of_run_refuse_bind h
  obtain ⟨oid, hoid, h⟩ := of_run_bind h
  obtain ⟨hvalid, h⟩ := of_run_refuse_bind h
  obtain ⟨hknown, h⟩ := of_run_refuse_bind h
  have hlen := parseOidAt_found hofs hoid hvalid hknown
  rw [hlen, run_read_bind_some] at h
  rw [hlen, Option.getD_some]
  obtain ⟨hed, h⟩ := of_run_refuse_bind h
  obtain ⟨bits, hbits, h⟩ := of_run_read_bind h
  obtain ⟨h263, -⟩ := of_run_refuse_bind h
  refine not_mpisPastEnd_point hbits ?_
  rw [not_not] at hsize hed h263
  rw [sizeSub, if_pos hofs] at hsize
  rw [h263, hed, show ((oidLength .ed25519).toNat = 9) from rfl]
  omega

end

/-- **No key is parsed of a packet with an integer that runs past its end.** -/
theorem onakParseKeyMaterial_inside {pk : Packet} {r : UInt8 × KeyMaterial}
    (h : (onakParseKeyMaterial pk).run = some (.ok r)) : ¬ pk.MpiPastEnd := by
  unfold onakParseKeyMaterial at h
  obtain ⟨hshort, h⟩ := of_run_refuse_bind h
  obtain ⟨version, hversion, h⟩ := of_run_read_bind h
  obtain ⟨-, h⟩ := of_run_refuse_bind h
  obtain ⟨type, htype, h⟩ := of_run_read_bind h
  obtain ⟨key, hkey, -⟩ := of_run_bind h
  have hofs : (if version = 4 then 6 else 10) ≤ pk.length := by
    split_ifs <;> omega
  unfold Packet.MpiPastEnd
  simp only [hversion, htype, Option.some.injEq]
  unfold parseKeyValues at hkey
  by_cases hec : type = pkalgoEcdsa
  · rw [if_pos hec] at hkey
    rw [if_pos (.inl hec)]
    exact parseEcdsa_inside hofs hkey
  rw [if_neg hec] at hkey
  by_cases hed : type = pkalgoEddsa
  · rw [if_pos hed] at hkey
    rw [if_pos (.inr hed)]
    exact parseEddsa_inside hofs hkey
  rw [if_neg hed] at hkey
  rw [if_neg (not_or.mpr ⟨hec, hed⟩)]
  by_cases hdsa : type = pkalgoDsa
  · rw [if_pos hdsa] at hkey
    rw [if_pos hdsa]
    exact parseDsa_inside hkey
  rw [if_neg hdsa] at hkey
  rw [if_neg hdsa]
  by_cases hrsa : type = pkalgoRsa ∨ type = pkalgoRsaEnc ∨ type = pkalgoRsaSign
  · rw [if_pos hrsa] at hkey
    rw [if_pos hrsa]
    exact parseRsa_inside hkey
  · rw [if_neg hrsa]
    exact not_false

theorem onakParseKeyMaterial_error {pk : Packet} (h : pk.MpiPastEnd) :
    ∃ e, (onakParseKeyMaterial pk).run = some (.error e) := by
  obtain ⟨r, hr, -⟩ := ensures_onakParseKeyMaterial pk
  cases r with
  | error e => exact ⟨e, hr⟩
  | ok key => exact absurd h (onakParseKeyMaterial_inside hr)

/-! ## What was encoded -/

section

variable {pk : Packet} {before : List UInt8} {ofs : Nat}

theorem parseDsa_octets (p q g y : Mpi) (hdata : pk.data = before ++ (KeyNumbers.dsa p q g y).octets)
    (hofs : before.length = ofs) : (parseDsa pk ofs).run = some (.ok (.dsa p q g y)) := by
  have hp := mpiToMpz_octets p _ (q.octets ++ g.octets ++ y.octets)
    (by rw [hdata, KeyNumbers.octets]; simp only [List.append_assoc]) hofs
  have hq := mpiToMpz_octets q (before ++ p.octets) (g.octets ++ y.octets)
    (by rw [hdata, KeyNumbers.octets]; simp only [List.append_assoc])
    (by rw [List.length_append, hofs])
  have hg := mpiToMpz_octets g (before ++ p.octets ++ q.octets) y.octets
    (by rw [hdata, KeyNumbers.octets]; simp only [List.append_assoc])
    (by rw [List.length_append, List.length_append, hofs])
  have hy := mpiToMpz_octets y (before ++ p.octets ++ q.octets ++ g.octets) []
    (by rw [hdata, KeyNumbers.octets]; simp only [List.append_assoc, List.append_nil])
    (by rw [List.length_append, List.length_append, List.length_append, hofs])
  unfold parseDsa
  rw [run_bind_ok _ hp, run_bind_ok _ hq, run_bind_ok _ hg, run_bind_ok _ hy]
  rfl

/-- The size of an RSA key is what the octets at offset 6 say. -/
theorem parseRsa_octets (n e : Mpi) (hdata : pk.data = before ++ (KeyNumbers.rsa n e).octets)
    (hofs : before.length = ofs) {size : List UInt8} (hsize : readOctets pk.data 6 2 = some size) :
    (parseRsa pk ofs).run = some (.ok (.rsa ((beNat size + 7) / 8) n e)) := by
  have hn := mpiToMpz_octets n _ e.octets hdata hofs
  have he := mpiToMpz_octets e (before ++ n.octets) []
    (by rw [hdata, KeyNumbers.octets]; simp only [List.append_assoc, List.append_nil])
    (by rw [List.length_append, hofs])
  unfold parseRsa
  rw [hsize, run_read_bind_some]
  simp only [Nat.shiftRight_eq_div_pow]
  rw [run_bind_ok _ hn, run_bind_ok _ he]
  rfl

/-- An object id that is looked for is found. -/
theorem parseOidAt_octets {oid : Oid} {octets behind : List UInt8} (hmem : (oid, octets) ∈ oidOctets)
    (hdata : pk.data = before ++ (octets ++ behind)) (hofs : before.length = ofs)
    (hbehind : behind ≠ []) :
    (parseOidAt pk.data ofs (sizeSub pk.length ofs)).run = some (.ok oid) := by
  have hall : ∀ entry ∈ oidOctets,
      entry.2.length = (entry.2.headD 0).toNat + 1 ∧
        (oidOctets.find? fun other => other.2 == entry.2) = some entry := by decide
  obtain ⟨hlength, hfind⟩ := hall _ hmem
  have hpos := List.length_pos_of_ne_nil hbehind
  have hsize : sizeSub pk.length ofs = octets.length + behind.length := by
    unfold sizeSub Packet.length
    rw [hdata, List.length_append, List.length_append, hofs, if_pos (by omega)]
    omega
  have hfirst : pk.data[ofs]? = some (octets.headD 0) := by
    rw [hdata, ← hofs, List.getElem?_append_right (le_refl _), Nat.sub_self]
    cases octets with
    | nil => exact absurd hlength (by simp)
    | cons c octets => rfl
  have hread : readOctets pk.data ofs ((octets.headD 0).toNat + 1) = some octets := by
    rw [hdata]
    exact readOctets_middle before octets behind hofs hlength
  unfold parseOidAt
  rw [hsize, if_neg (by omega), hfirst, run_read_bind_some, if_neg (by simp only at hlength; omega),
    hread, run_read_bind_some]
  simp only [hfind]
  rfl

/-- A part of the packet is read where it stands. -/
theorem readOctets_part {data octets : List UInt8} {n : Nat} (before behind : List UInt8)
    (hdata : data = before ++ (octets ++ behind)) (hofs : before.length = ofs)
    (hn : octets.length = n) : readOctets data ofs n = some octets := by
  rw [hdata]
  exact readOctets_middle before octets behind hofs hn

theorem getElem?_part {data : List UInt8} {c : UInt8} (before behind : List UInt8)
    (hdata : data = before ++ c :: behind) (hofs : before.length = ofs) : data[ofs]? = some c := by
  rw [hdata, ← hofs, List.getElem?_append_right (le_refl _), Nat.sub_self]
  rfl

theorem ecPoint_octets (oidLen : UInt8) {oid : List UInt8} (hoid : oid.length = oidLen.toNat)
    {width bits : Nat} (hbits : bits < 256 ^ 2) {x y : Nat} (hx : x < 256 ^ width)
    (hy : y < 256 ^ width)
    (hdata : pk.data = before ++ (oidLen :: oid ++
      (bigOctets 2 bits ++ [4] ++ bigOctets width x ++ bigOctets width y)))
    (hofs : before.length = ofs) :
    (ecPoint pk ofs (oidLen.toNat + 1 + 3 + width + width) bits width).run = some (.ok (x, y)) := by
  have hlength : pk.length = ofs + (oidLen.toNat + 1 + 3 + width + width) := by
    unfold Packet.length
    rw [hdata]
    simp only [List.length_append, List.length_cons, List.length_nil, length_bigOctets]
    omega
  have hsize : sizeSub pk.length ofs = oidLen.toNat + 1 + 3 + width + width := by
    unfold sizeSub
    rw [if_pos (by omega)]
    omega
  have hfirst : pk.data[ofs]? = some oidLen := getElem?_part _ _ hdata hofs
  have hlen : readOctets pk.data (ofs + (oidLen.toNat + 1)) 2 = some (bigOctets 2 bits) :=
    readOctets_part (before ++ oidLen :: oid)
      ([4] ++ bigOctets width x ++ bigOctets width y)
      (by rw [hdata]; simp only [List.append_assoc])
      (by rw [List.length_append, List.length_cons, hofs, hoid]) (length_bigOctets 2 bits)
  have hform : pk.data[ofs + (oidLen.toNat + 1) + 2]? = some 4 :=
    getElem?_part (before ++ oidLen :: oid ++ bigOctets 2 bits)
      (bigOctets width x ++ bigOctets width y)
      (by rw [hdata]; simp only [List.append_assoc, List.cons_append, List.nil_append])
      (by rw [List.length_append, List.length_append, List.length_cons, hofs, hoid, length_bigOctets])
  have hxs : readOctets pk.data (ofs + (oidLen.toNat + 1) + 3) width = some (bigOctets width x) :=
    readOctets_part (before ++ oidLen :: oid ++ bigOctets 2 bits ++ [4])
      (bigOctets width y) (by rw [hdata]; simp only [List.append_assoc])
      (by simp only [List.length_append, List.length_cons, List.length_nil, hofs, hoid,
        length_bigOctets]) (length_bigOctets width x)
  have hys : readOctets pk.data (ofs + (oidLen.toNat + 1) + 3 + width) width =
      some (bigOctets width y) :=
    readOctets_part (before ++ oidLen :: oid ++ bigOctets 2 bits ++ [4] ++ bigOctets width x)
      [] (by rw [hdata]; simp only [List.append_assoc, List.append_nil])
      (by simp only [List.length_append, List.length_cons, List.length_nil, hofs, hoid,
        length_bigOctets]) (length_bigOctets width y)
  unfold ecPoint
  rw [run_refuse_bind _ (not_not.mpr hsize), hfirst, run_read_bind_some]
  simp only
  rw [hlen, run_read_bind_some, run_refuse_bind _ (not_not.mpr (beNat_bigOctets hbits)), hform, run_read_bind_some,
    run_refuse_bind _ (not_not.mpr rfl), hxs, run_read_bind_some, hys, run_read_bind_some,
    beNat_bigOctets hx, beNat_bigOctets hy]
  rfl

theorem parseEcdsa_octets (curve : NistCurve) (x y : Fin (256 ^ curve.width))
    (hdata : pk.data = before ++ (KeyNumbers.ecdsa curve x y).octets) (hofs : before.length = ofs) :
    (parseEcdsa pk ofs).run = some (.ok (.ecdsa curve.oid x y)) := by
  have hmem : (curve.oid, curve.oidOctets) ∈ oidOctets := by
    cases curve <;> decide
  have hoid := parseOidAt_octets hmem hdata hofs (by simp)
  have hpoint : (ecdsaPoint pk ofs curve.oid).run = some (.ok (x.val, y.val)) := by
    cases curve with
    | p256 => exact ecPoint_octets 8 rfl (by decide) x.isLt y.isLt hdata hofs
    | p384 => exact ecPoint_octets 5 rfl (by decide) x.isLt y.isLt hdata hofs
    | p521 => exact ecPoint_octets 5 rfl (by decide) x.isLt y.isLt hdata hofs
  unfold parseEcdsa
  rw [run_bind_ok _ hoid, run_refuse_bind _ (by cases curve <;> decide),
    run_refuse_bind _ (by cases curve <;> decide), run_bind_ok _ hpoint]
  rfl

theorem parseEddsa_octets (point : { octets : List UInt8 // octets.length = 32 })
    (hdata : pk.data = before ++ (KeyNumbers.ed25519 point).octets) (hofs : before.length = ofs) :
    (parseEddsa pk ofs).run = some (.ok (.ed25519 point)) := by
  obtain ⟨octets, hpoint⟩ := point
  have hmem : (Oid.ed25519, ed25519Oid) ∈ oidOctets := by decide
  have hoid := parseOidAt_octets hmem hdata hofs (by simp)
  have hlength : pk.length = ofs + 45 := by
    unfold Packet.length
    rw [hdata, List.length_append, hofs]
    simp only [KeyNumbers.octets, List.length_append, length_bigOctets, List.length_singleton, hpoint]
    rfl
  have hsize : sizeSub pk.length ofs = 45 := by
    unfold sizeSub
    rw [if_pos (by omega)]
    omega
  have hfirst : pk.data[ofs]? = some 9 := getElem?_part _ _ hdata hofs
  have hlen : readOctets pk.data (ofs + 10) 2 = some (bigOctets 2 263) :=
    readOctets_part (before ++ ed25519Oid) ([0x40] ++ octets)
      (by rw [hdata]; simp only [KeyNumbers.octets, List.append_assoc])
      (by rw [List.length_append, hofs]; rfl) rfl
  have hform : pk.data[ofs + 10 + 2]? = some 0x40 :=
    getElem?_part (before ++ ed25519Oid ++ bigOctets 2 263) octets
      (by rw [hdata]; simp only [KeyNumbers.octets, List.append_assoc, List.singleton_append])
      (by rw [List.length_append, List.length_append, hofs]; rfl)
  have hoctets : readOctets pk.data (ofs + 10 + 3) 32 = some octets :=
    readOctets_part (before ++ ed25519Oid ++ bigOctets 2 263 ++ [0x40]) []
      (by rw [hdata]; simp only [KeyNumbers.octets, List.append_assoc, List.append_nil])
      (by rw [List.length_append, List.length_append, List.length_append, hofs]; rfl) hpoint
  unfold parseEddsa
  rw [run_refuse_bind _ (not_not.mpr hsize), run_bind_ok _ hoid, run_refuse_bind _ (by decide),
    run_refuse_bind _ (by decide), hfirst, run_read_bind_some, run_refuse_bind _ (by decide)]
  simp only [show ((9 : UInt8).toNat + 1) = 10 from rfl]
  rw [hlen, run_read_bind_some, run_refuse_bind _ (by decide), hform, run_read_bind_some,
    run_refuse_bind _ (by decide), hoctets, run_read_bind_some]
  rfl

end

/-! ## The packet of a key -/

theorem length_mpi_le (n : Mpi) : n.octets.length ≤ 8194 := by
  have hn : n.val.size < 2 ^ 16 := n.property
  rw [length_mpi, length_mpzExport]
  omega

theorem KeyNumbers.length_octets_lt (numbers : KeyNumbers) : numbers.octets.length < 65536 := by
  cases numbers with
  | rsa n e =>
    have hn := length_mpi_le n
    have he := length_mpi_le e
    simp only [KeyNumbers.octets, List.length_append]
    omega
  | dsa p q g y =>
    have hp := length_mpi_le p
    have hq := length_mpi_le q
    have hg := length_mpi_le g
    have hy := length_mpi_le y
    simp only [KeyNumbers.octets, List.length_append]
    omega
  | ecdsa curve x y =>
    simp only [KeyNumbers.octets, List.length_append, length_bigOctets]
    cases curve <;> decide
  | ed25519 point =>
    simp only [KeyNumbers.octets, List.length_append, length_bigOctets, point.property]
    decide

/-- What is parsed from the packet of a key: the numbers, but for the size of an RSA key of version 5
the octets at offset 6 are the first two of the number of octets that follow, and these are 0. -/
def KeyContents.parsed (key : KeyContents) : KeyMaterial :=
  match key.numbers with
  | .rsa n e => .rsa (if key.version5 then 0 else (mpzExport n).length) n e
  | numbers => numbers.material

section

variable (key : KeyContents)

theorem KeyContents.length_header :
    key.header.length = if key.version5 then 10 else 6 := by
  unfold KeyContents.header
  split_ifs <;> simp [key.created.property, length_bigOctets]

theorem KeyContents.version_octet :
    key.packet.data[0]? = some (if key.version5 then 5 else 4) := by
  unfold KeyContents.packet KeyContents.header
  split_ifs <;> rfl

theorem KeyContents.type_octet : key.packet.data[5]? = some key.type := by
  obtain ⟨version5, ⟨created, hcreated⟩, numbers, type, hmem⟩ := key
  unfold KeyContents.packet KeyContents.header
  split_ifs
  · exact getElem?_part (5 :: created)
      (bigOctets 4 numbers.octets.length ++ numbers.octets) (by simp) (by simp [hcreated])
  · exact getElem?_part (4 :: created)
      numbers.octets (by simp) (by simp [hcreated])

/-- The octets at offset 6 are the number of bits of `n` in version 4, and two zeros in version 5. -/
theorem KeyContents.size_octets {n e : Mpi} (hnumbers : key.numbers = .rsa n e) :
    readOctets key.packet.data 6 2 =
      some (if key.version5 then [0, 0] else bigOctets 2 n.val.size) := by
  obtain ⟨version5, ⟨created, hcreated⟩, numbers, type, hmem⟩ := key
  obtain rfl : numbers = .rsa n e := hnumbers
  have hlt := (KeyNumbers.rsa n e).length_octets_lt
  unfold KeyContents.packet KeyContents.header
  simp only
  split_ifs
  · have hfour : ∀ v < 65536, bigOctets 4 v = [0, 0] ++ [UInt8.ofNat (v / 256), UInt8.ofNat v] := by
      intro v hv
      have hzero : v / 256 / 256 = 0 := by omega
      simp [bigOctets, hzero]
    rw [hfour _ hlt]
    exact readOctets_part (5 :: (created ++ [type]))
      ([UInt8.ofNat ((KeyNumbers.rsa n e).octets.length / 256),
        UInt8.ofNat (KeyNumbers.rsa n e).octets.length] ++ (KeyNumbers.rsa n e).octets)
      (by simp) (by simp [hcreated]) rfl
  · exact readOctets_part (4 :: (created ++ [type]))
      (mpzExport n ++ e.octets)
      (by simp [KeyNumbers.octets, Mpi.octets]) (by simp [hcreated]) (length_bigOctets 2 _)

theorem KeyContents.parseKeyValues_run :
    (parseKeyValues key.packet (if key.version5 then 10 else 6) key.type).run =
      some (.ok key.parsed) := by
  have hdata : key.packet.data = key.header ++ key.numbers.octets := rfl
  have hofs := key.length_header
  have hmem := key.type_mem
  unfold parseKeyValues KeyContents.parsed
  cases hnumbers : key.numbers with
  | rsa n e =>
    rw [hnumbers] at hdata hmem
    have hrun := parseRsa_octets n e hdata hofs (key.size_octets hnumbers)
    have hsize : (beNat (if key.version5 then [0, 0] else bigOctets 2 n.val.size) + 7) / 8 =
        if key.version5 then 0 else (mpzExport n).length := by
      split_ifs
      · rfl
      · rw [beNat_size, length_mpzExport]
    rw [hsize] at hrun
    have htypes : key.type = pkalgoRsa ∨ key.type = pkalgoRsaEnc ∨ key.type = pkalgoRsaSign := by
      simpa [KeyNumbers.types] using hmem
    rw [if_neg, if_neg, if_neg, if_pos htypes, hrun]
    all_goals rcases htypes with h | h | h <;> rw [h] <;> decide
  | dsa p q g y =>
    rw [hnumbers] at hdata hmem
    obtain htype : key.type = pkalgoDsa := by simpa [KeyNumbers.types] using hmem
    rw [htype, if_neg (by decide), if_neg (by decide), if_pos rfl, parseDsa_octets p q g y hdata hofs]
    rfl
  | ecdsa curve x y =>
    rw [hnumbers] at hdata hmem
    obtain htype : key.type = pkalgoEcdsa := by simpa [KeyNumbers.types] using hmem
    rw [htype, if_pos rfl, parseEcdsa_octets curve x y hdata hofs]
    rfl
  | ed25519 point =>
    rw [hnumbers] at hdata hmem
    obtain htype : key.type = pkalgoEddsa := by simpa [KeyNumbers.types] using hmem
    rw [htype, if_neg (by decide), if_pos rfl, parseEddsa_octets point hdata hofs]
    rfl

theorem KeyContents.parse_run (hlen : 51 ≤ key.packet.length) :
    (onakParseKeyMaterial key.packet).run = some (.ok (key.type, key.parsed)) := by
  have hversion : ((if key.version5 then 5 else 4 : UInt8) = 4) ↔ ¬ key.version5 := by
    split_ifs with h <;> simp [h]
  have hrun := key.parseKeyValues_run
  unfold onakParseKeyMaterial
  rw [run_refuse_bind _ (by omega), key.version_octet, run_read_bind_some,
    run_refuse_bind _ (by split_ifs <;> decide), key.type_octet, run_read_bind_some]
  simp only [hversion, ite_not]
  rw [run_bind_ok _ hrun]
  rfl

/-- The numbers are parsed as they were encoded unless the key is an RSA key of version 5 with a size. -/
theorem KeyContents.parsed_eq_iff :
    key.parsed = key.numbers.material ↔
      ¬ (key.version5 = true ∧ ∃ n e : Mpi, key.numbers = .rsa n e ∧ n.val ≠ 0) := by
  unfold KeyContents.parsed
  cases hnumbers : key.numbers with
  | rsa n e =>
    have hzero : (mpzExport n).length = 0 ↔ n.val = 0 := by
      have hsize := Nat.size_eq_zero (n := n.val)
      rw [length_mpzExport]
      omega
    cases hversion : key.version5 with
    | false => simp [KeyNumbers.material]
    | true => simp [KeyNumbers.material, eq_comm (a := 0), hzero]
  | dsa p q g y => simp
  | ecdsa curve x y => simp
  | ed25519 point => simp

end

/-- **When key material is parsed as it was encoded.** For every public key of version 4 or 5 whose
packet has at least 51 octets: `onak_parse_key_material` gives its type and exactly its numbers, and the
number of octets of `n` as the size of an RSA key, if and only if it is not an RSA key of version 5 (with
`n` other than 0). For every packet at all, an integer that runs past its end makes it fail. -/
theorem onakParseKeyMaterial_undoes_iff (key : KeyContents) (hlen : 51 ≤ key.packet.length) :
    ((onakParseKeyMaterial key.packet).run = some (.ok (key.type, key.numbers.material)) ↔
      ¬ (key.version5 = true ∧ ∃ n e : Mpi, key.numbers = .rsa n e ∧ n.val ≠ 0)) ∧
    ∀ pk : Packet, pk.MpiPastEnd → ∃ e, (onakParseKeyMaterial pk).run = some (.error e) := by
  refine ⟨?_, fun pk hpast => onakParseKeyMaterial_error hpast⟩
  rw [key.parse_run hlen, ← key.parsed_eq_iff]
  simp

/-- An Ed25519 key of version 4. -/
def sampleEd25519 : KeyContents :=
  ⟨false, ⟨[0, 0, 0, 0], rfl⟩, .ed25519 ⟨List.replicate 32 7, rfl⟩, pkalgoEddsa, by decide⟩

theorem onakParseKeyMaterial_undoes_sample :
    (onakParseKeyMaterial sampleEd25519.packet).run =
        some (.ok (pkalgoEddsa, .ed25519 (List.replicate 32 7))) ∧
      ∃ e, (onakParseKeyMaterial ⟨tagPublickey, false, [4, 0, 0, 0, 0, 1, 0xFF, 0xFF]⟩).run =
        some (.error e) := by
  obtain ⟨hundoes, herror⟩ := onakParseKeyMaterial_undoes_iff sampleEd25519 (by decide)
  constructor
  · exact hundoes.mpr fun h => absurd h.1 (by decide)
  · refine herror _ ?_
    show MpisPastEnd 2 [0xFF, 0xFF]
    exact .inr (.inl (by decide))

/-- A power of two. -/
def powMpi (k : Nat) (hk : k + 1 < 2 ^ 16) : Mpi := ⟨2 ^ k, by rw [Nat.size_pow]; exact hk⟩

theorem length_powMpi (k : Nat) (hk : k + 1 < 2 ^ 16) :
    (powMpi k hk).octets.length = 2 + (k + 8) / 8 := by
  rw [length_mpi, length_mpzExport]
  show 2 + ((2 ^ k).size + 7) / 8 = _
  rw [Nat.size_pow]

/-- An RSA key of version 5, with an `n` of 401 bits. -/
def sampleRsa5 : KeyContents :=
  ⟨true, ⟨[0, 0, 0, 0], rfl⟩, .rsa (powMpi 400 (by decide)) ⟨65537, by decide⟩, pkalgoRsa, by decide⟩

/-- It is parsed with the size 0. -/
theorem onakParseKeyMaterial_size_zero :
    ¬ ∀ key : KeyContents, 51 ≤ key.packet.length →
      (onakParseKeyMaterial key.packet).run = some (.ok (key.type, key.numbers.material)) := by
  intro hall
  have hlen : 51 ≤ sampleRsa5.packet.length := by
    unfold KeyContents.packet Packet.length sampleRsa5 KeyNumbers.octets
    rw [List.length_append, List.length_append, length_powMpi]
    omega
  have hrun := hall sampleRsa5 hlen
  rw [sampleRsa5.parse_run hlen, Option.some.injEq, Except.ok.injEq, Prod.mk.injEq,
    sampleRsa5.parsed_eq_iff] at hrun
  exact hrun.2 ⟨rfl, _, _, rfl, pow_ne_zero _ (by norm_num)⟩

end Onak
