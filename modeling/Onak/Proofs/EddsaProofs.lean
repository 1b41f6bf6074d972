import Onak.Proofs.KeyMaterialProofs

/-!
# Proofs: the values of EdDSA signatures

Each half of the buffer ends up as the value in 32 octets: its octets are moved to the end of the half,
and the loop writes zeros in front of them from the back to the front.
-/

namespace Onak

open Reading Socket

/-! ## Padding -/

theorem writeAt_part {old new : List UInt8} (h : old.length = new.length) (before behind : List UInt8) :
    writeAt (before ++ (old ++ behind)) before.length new = before ++ (new ++ behind) := by
  rw [writeAt, List.take_left, ← h, List.append_assoc, List.drop_length_add_append, List.drop_left]

/-- The loop fills what is left of the half from the back to the front. -/
theorem zeroLoop_fills (before : List UInt8) {gap octets : List UInt8}
    (h32 : gap.length + octets.length = 32) (behind : List UInt8) :
    zeroLoop before.length gap.length octets.length (before ++ (gap ++ (octets ++ behind))) =
      before ++ (List.replicate gap.length 0 ++ (octets ++ behind)) := by
  induction gap using List.reverseRecOn generalizing octets with
  | nil => rfl
  | append_singleton gap x ih =>
    rw [List.length_append, List.length_singleton] at h32 ⊢
    have hplace : before.length + 32 - (octets.length + 1) = (before ++ gap).length := by
      rw [List.length_append]
      omega
    have hwrite : writeAt (before ++ (gap ++ [x] ++ (octets ++ behind))) (before ++ gap).length [0] =
        before ++ (gap ++ (0 :: octets ++ behind)) := by
      have hone : [x].length = ([0] : List UInt8).length := rfl
      rw [List.append_assoc gap, ← List.append_assoc before, writeAt_part hone, List.append_assoc]
      rfl
    rw [zeroLoop, if_pos (by omega), hplace, hwrite, ← List.length_cons (a := 0), ih (by
      rw [List.length_cons]
      omega), List.replicate_succ', List.append_assoc]
    rfl

theorem bigOctets_beNat (l : List UInt8) : bigOctets l.length (beNat l) = l := by
  induction l using List.reverseRecOn with
  | nil => rfl
  | append_singleton l b ih =>
    have hb : b.toNat < 256 := b.toNat_lt
    have hdiv : (beNat l * 256 + b.toNat) / 256 = beNat l := by omega
    have hlow : UInt8.ofNat (beNat l * 256 + b.toNat) = b := by
      apply UInt8.toNat_inj.mp
      rw [UInt8.toNat_ofNat']
      omega
    rw [List.length_append, List.length_singleton, bigOctets, beNat_append, hdiv, ih, hlow]

theorem beNat_zeros (k : Nat) (l : List UInt8) : beNat (List.replicate k 0 ++ l) = beNat l := by
  induction k with
  | zero => rfl
  | succ k ih =>
    rw [← ih]
    rfl

/-- An integer in so many octets is its own octets behind zeros. -/
theorem zeros_mpzExport {n v : Nat} (h : (mpzExport v).length ≤ n) :
    List.replicate (n - (mpzExport v).length) 0 ++ mpzExport v = bigOctets n v := by
  rw [← bigOctets_beNat (_ ++ _), beNat_zeros, beNat_mpzExport, List.length_append, List.length_replicate,
    Nat.sub_add_cancel h]

theorem length_mpzExport_le {v : Nat} (h : v < 2 ^ 256) : (mpzExport v).length ≤ 32 := by
  have hsize : v.size ≤ 256 := Nat.size_le.mpr h
  rw [length_mpzExport]
  omega

/-- A list in two parts, the second one of a given length. -/
theorem exists_parts (half : List UInt8) (k : Nat) {n : Nat} (h : half.length = k + n) :
    ∃ front rear, half = front ++ rear ∧ front.length = k ∧ rear.length = n := by
  refine ⟨half.take k, half.drop k, (List.take_append_drop k half).symm, ?_, ?_⟩
  · rw [List.length_take]
    omega
  · rw [List.length_drop]
    omega

/-- The octets are moved to the end of the half, and zeros written in front of them. -/
theorem move_and_fill {octets half : List UInt8} (hle : octets.length ≤ 32) (hhalf : half.length = 32)
    (before behind : List UInt8) :
    zeroLoop before.length (32 - octets.length) octets.length
        (writeAt (before ++ (half ++ behind)) (before.length + 32 - octets.length) octets) =
      before ++ (List.replicate (32 - octets.length) 0 ++ (octets ++ behind)) := by
  obtain ⟨gap, old, rfl, hgap, hold⟩ :=
    exists_parts half (32 - octets.length) (show _ = _ + octets.length by omega)
  have hplace : before.length + 32 - octets.length = (before ++ gap).length := by
    rw [List.length_append]
    omega
  rw [hplace, List.append_assoc, ← List.append_assoc, writeAt_part hold, List.append_assoc, ← hgap]
  exact zeroLoop_fills before (by omega) behind

/-- A half of the buffer, whatever it held before. -/
theorem exportTo_half {v : Nat} (hv : v < 2 ^ 256) (before : List UInt8) {half : List UInt8}
    (hhalf : half.length = 32) (behind : List UInt8) :
    exportTo (before ++ (half ++ behind)) before.length v = before ++ (bigOctets 32 v ++ behind) := by
  have hle := length_mpzExport_le hv
  have hvalue := zeros_mpzExport hle
  set octets := mpzExport v with hoctets
  obtain ⟨old, rest, rfl, hold, hrest⟩ :=
    exists_parts half octets.length (show _ = _ + (32 - octets.length) by omega)
  have hexport : writeAt (before ++ (old ++ rest ++ behind)) before.length octets =
      before ++ (octets ++ rest ++ behind) := by
    rw [List.append_assoc, writeAt_part hold, List.append_assoc]
  have hsource : ((before ++ (octets ++ rest ++ behind)).drop before.length).take octets.length =
      octets := by
    rw [List.drop_left, List.append_assoc, List.take_left]
  rw [exportTo, ← hoctets]
  simp only [hexport, hsource]
  split_ifs with hshort
  · rw [move_and_fill hle (by rw [List.length_append]; omega), ← hvalue, List.append_assoc]
  · have hzero : 32 - octets.length = 0 := by
      omega
    rw [← hvalue, hzero, List.eq_nil_of_length_eq_zero (hrest.trans hzero), List.append_nil]
    rfl

/-! ## The integers -/

/-- Octets that encode an integer: a number of bits, and as many octets as they need. The number of bits
is not that of the integer when its first octets are zero. -/
def MpiEncodes (octets : List UInt8) (v : Nat) : Prop :=
  ∃ bits value, octets = bigOctets 2 bits ++ value ∧ bits < 2 ^ 16 ∧ value.length = (bits + 7) / 8 ∧
    beNat value = v

theorem mpiToMpz_encodes {pk : Packet} {ofs v : Nat} {octets behind : List UInt8}
    (h : MpiEncodes octets v) (hdata : pk.data.drop ofs = octets ++ behind) :
    (mpiToMpz pk ofs).run = some (.ok (v, ofs + octets.length)) := by
  obtain ⟨bits, value, rfl, hbits, hlength, rfl⟩ := h
  have hroom : pk.length = ofs + (2 + value.length + behind.length) := by
    have hdrop := congrArg List.length hdata
    rw [List.length_drop, List.length_append, List.length_append, length_bigOctets] at hdrop
    unfold Packet.length
    omega
  have hfirst : readOctets pk.data ofs 2 = some (bigOctets 2 bits) := by
    rw [readOctets_some (show _ ≤ pk.length by omega), hdata, List.append_assoc]
    exact congrArg some (List.take_left' (length_bigOctets 2 bits))
  have hvalue : readOctets pk.data (ofs + 2) value.length = some value := by
    rw [readOctets_some (show _ ≤ pk.length by omega), ← List.drop_drop, hdata, List.append_assoc,
      List.drop_left' (length_bigOctets 2 bits), List.take_left]
  have hlen : (beNat (bigOctets 2 bits) + 7) >>> 3 = value.length := by
    rw [beNat_bigOctets (by omega), hlength, Nat.shiftRight_eq_div_pow]
  unfold mpiToMpz
  rw [run_refuse_bind _ (by omega), hfirst, run_read_bind_some]
  simp only [hlen]
  rw [run_refuse_bind _ (by omega), hvalue, run_read_bind_some, List.length_append, length_bigOctets]
  show some (Except.ok _) = _
  congr 3
  omega

/-! ## The buffer -/

/-- A signature of EdDSA whose values stand at an offset, and are two integers. -/
structure EddsaSignature (sig : Packet) (ofs r s : Nat) : Prop where
  /-- It is long enough for `onak_check_hash_sig`, -/
  long : 8 ≤ sig.length
  /-- which finds its values. -/
  start : (sigStart sig).run = some (.ok (ofs, pkalgoEddsa))
  /-- They encode the integers. -/
  values : ∃ first second behind, sig.data.drop ofs = first ++ (second ++ behind) ∧
    MpiEncodes first r ∧ MpiEncodes second s

section

variable {sig : Packet} {ofs r s : Nat} (hsig : EddsaSignature sig ofs r s) (hr : r < 2 ^ 256)
  (hs : s < 2 ^ 256) {edsig : List UInt8} (hedsig : edsig.length = 64)
include hr hs hedsig

theorem exportTo_both :
    exportTo (exportTo edsig 0 r) 32 s = bigOctets 32 r ++ bigOctets 32 s := by
  obtain ⟨low, high, rfl, hlow, hhigh⟩ := exists_parts edsig 32 (show _ = _ + 32 from hedsig)
  have hfirst := exportTo_half hr [] hlow high
  have hsecond := exportTo_half hs (bigOctets 32 r) hhigh []
  rw [List.length_nil, List.nil_append, List.nil_append] at hfirst
  rw [length_bigOctets, List.append_nil, List.append_nil] at hsecond
  rw [hfirst, hsecond]

include hsig

theorem sigValues_padded :
    (sigValues edsig sig pkalgoEddsa ofs).run =
      some (.ok (.eddsa (bigOctets 32 r ++ bigOctets 32 s))) := by
  obtain ⟨first, second, behind, hdata, hfirst, hsecond⟩ := hsig.values
  have hbehind : sig.data.drop (ofs + first.length) = second ++ behind := by
    rw [← List.drop_drop, hdata, List.drop_left]
  have hsizes : ¬ (32 * 8 < r.size ∨ 32 * 8 < s.size) := by
    rw [not_or, not_lt, not_lt, Nat.size_le, Nat.size_le]
    exact ⟨hr, hs⟩
  unfold sigValues
  rw [if_neg (by decide), if_pos rfl, run_bind_ok _ (mpiToMpz_encodes hfirst hdata),
    run_bind_ok _ (mpiToMpz_encodes hsecond hbehind), run_refuse_bind _ hsizes, exportTo_both hr hs hedsig]
  rfl

/-- **The values of an EdDSA signature are padded correctly**, whatever the buffer held before. -/
theorem eddsa_padded (verify : KeyMaterial → UInt8 → List UInt8 → SigValues → Bool) {sigkey : Packet}
    {pubkey : KeyMaterial} (hkey : (onakParseKeyMaterial sigkey).run = some (.ok (pkalgoEddsa, pubkey)))
    (hash : List UInt8) (hashtype : UInt8) :
    (sigValues edsig sig pkalgoEddsa ofs).run =
        some (.ok (.eddsa (bigOctets 32 r ++ bigOctets 32 s))) ∧
      (onakCheckHashSig verify edsig sigkey sig hash hashtype).run =
        some (match keyhash pkalgoEddsa hashtype with
          | none => .error .unsupportedFeature
          | some (good, size) =>
            .ok (if verify pubkey hashtype (hash.take size) (.eddsa (bigOctets 32 r ++ bigOctets 32 s))
              then good else .badSignature)) := by
  have hvalues := sigValues_padded hsig hr hs hedsig
  refine ⟨hvalues, ?_⟩
  unfold onakCheckHashSig
  rw [run_bind_ok _ hkey, run_refuse_bind _ (not_lt.mpr hsig.long), run_bind_ok _ hsig.start,
    run_refuse_bind _ (by decide), run_bind_ok _ hvalues, if_neg (by decide)]
  rcases keyhash pkalgoEddsa hashtype with _ | ⟨good, size⟩
  · rfl
  · rfl

end

/-- The packet of an Ed25519 key. -/
def eddsaKey : Packet :=
  ⟨tagPublickey, false,
    [4, 0, 0, 0, 0, 22] ++ (ed25519Oid ++ (bigOctets 2 263 ++ [0x40] ++ List.replicate 32 9))⟩

theorem eddsaKey_parsed :
    (onakParseKeyMaterial eddsaKey).run = some (.ok (pkalgoEddsa, .ed25519 (List.replicate 32 9))) :=
  rfl

/-- The packet of a signature: `r` is 5 with a zero octet in front of it, and `s` is 0. -/
def eddsaSig : Packet :=
  ⟨tagSignature, false, [4, 0x13, 22, 8, 0, 0, 0, 0, 27, 1, 0, 11, 0, 5, 0, 0]⟩

theorem eddsaSig_values : EddsaSignature eddsaSig 10 5 0 where
  long := by decide
  start := rfl
  values := by
    refine ⟨[0, 11, 0, 5], [0, 0], [], rfl, ?_, ?_⟩
    · exact ⟨11, [0, 5], rfl, by decide, rfl, rfl⟩
    · exact ⟨0, [], rfl, by decide, rfl, rfl⟩

/-- A check that takes only the values 5 and 0 in 32 octets each. -/
def takesFive : KeyMaterial → UInt8 → List UInt8 → SigValues → Bool
  | _, _, _, .eddsa edsig => edsig == List.replicate 31 0 ++ [5] ++ List.replicate 32 0
  | _, _, _, _ => false

theorem eddsa_padded_small :
    (onakCheckHashSig takesFive (List.replicate 64 0xFF) eddsaKey eddsaSig [] hashSha256).run =
      some (.ok .ok) :=
  (eddsa_padded eddsaSig_values (by decide) (by decide) List.length_replicate takesFive eddsaKey_parsed
    [] hashSha256).2

end Onak
