import Onak.Proofs.CodecProofs
import Onak.Proofs.SigCheckProofs

/-!
# Proofs: the key in the hash of a signature

A key goes into the hash of a signature with the header that it has in its fingerprint. The two are
written in two places: `get_fingerprint` writes the four octets of the length of a version 5 key, and
`calculate_packet_sighash` two zeros and the last two of them.
-/

namespace Onak

open Reading Source

/-! ## The first two chunks -/

section

variable {sig publickey : Packet} {packet : Option Packet} {d : HashData}

theorem sigChunks_chunks {hashtype : UInt8} {chunks : List (List UInt8)} {trailer : List UInt8}
    (h : (sigChunks sig hashtype chunks trailer).run = some (.ok d)) :
    ∃ rest, d.chunks = chunks ++ rest := by
  unfold sigChunks at h
  obtain ⟨octets, -, h⟩ := of_run_read_bind h
  obtain ⟨-, h⟩ := of_run_refuse_bind h
  obtain ⟨hashed, -, h⟩ := of_run_read_bind h
  obtain ⟨unhashed, -, h⟩ := of_run_read_bind h
  obtain ⟨-, h⟩ := of_run_refuse_bind h
  cases h
  exact ⟨_, rfl⟩

theorem hashData_chunks_four (hsig : sig.data[0]? = some 4)
    (h : (hashData publickey packet sig).run = some (.ok d)) :
    (d.chunks.take 2).flatten = keyHeader publickey ++ publickey.data := by
  unfold hashData at h
  obtain ⟨-, h⟩ := of_run_refuse_bind h
  rw [hsig, run_read_bind_some, if_neg (by decide), if_pos rfl] at h
  obtain ⟨-, -, h⟩ := of_run_bind h
  obtain ⟨hashtype, -, h⟩ := of_run_read_bind h
  obtain ⟨rest, hrest⟩ := sigChunks_chunks h
  rw [hrest]
  simp

theorem hashData_chunks_five (hsig : sig.data[0]? = some 5)
    (h : (hashData publickey packet sig).run = some (.ok d)) :
    (d.chunks.take 2).flatten = keyHeader5 publickey ++ publickey.data := by
  unfold hashData at h
  obtain ⟨-, h⟩ := of_run_refuse_bind h
  rw [hsig, run_read_bind_some, if_neg (by decide), if_neg (by decide), if_pos rfl] at h
  obtain ⟨hashtype, -, h⟩ := of_run_read_bind h
  obtain ⟨rest, hrest⟩ := sigChunks_chunks h
  rw [hrest]
  simp

end

/-! ## The fingerprint -/

/-- The octets are those whose digest `get_fingerprint` returns for a key of version 4 or 5: they are
what it hands to the digest, whichever function that is. -/
def FingerprintPreimage (publickey : Packet) (octets : List UInt8) : Prop :=
  ∀ H : Hashes, getFingerprint H publickey =
    some (.ok, (if publickey.data[0]? = some 4 then H.sha1 else H.sha256) octets)

section

variable {publickey : Packet} {octets : List UInt8}

theorem fingerprintPreimage_four (hkey : publickey.data[0]? = some 4) :
    FingerprintPreimage publickey octets ↔ octets = sha1Preimage publickey := by
  have hfp (H : Hashes) : getFingerprint H publickey = some (.ok, H.sha1 (sha1Preimage publickey)) := by
    unfold getFingerprint
    rw [hkey]
    rfl
  unfold FingerprintPreimage
  simp only [hfp, if_pos hkey, Option.some.injEq, Prod.mk.injEq, true_and]
  constructor
  · intro h
    exact (h ⟨id, id, id⟩).symm
  · rintro rfl H
    rfl

theorem fingerprintPreimage_five (hkey : publickey.data[0]? = some 5) :
    FingerprintPreimage publickey octets ↔ octets = sha256Preimage publickey := by
  have hfp (H : Hashes) :
      getFingerprint H publickey = some (.ok, H.sha256 (sha256Preimage publickey)) := by
    unfold getFingerprint
    rw [hkey]
    rfl
  have hne : publickey.data[0]? ≠ some 4 := by
    rw [hkey]
    decide
  unfold FingerprintPreimage
  simp only [hfp, if_neg hne, Option.some.injEq, Prod.mk.injEq, true_and]
  constructor
  · intro h
    exact (h ⟨id, id, id⟩).symm
  · rintro rfl H
    rfl

theorem ofNat_eq_zero_iff {n : Nat} : UInt8.ofNat n = 0 ↔ n % 256 = 0 := by
  rw [← UInt8.toNat_inj, UInt8.toNat_ofNat']
  rfl

/-- The two octets that are always 0 are right for a length below 65536. -/
theorem keyHeader5_append_iff (hlen : publickey.length < 2 ^ 32) :
    keyHeader5 publickey ++ publickey.data = sha256Preimage publickey ↔
      publickey.length < 65536 := by
  unfold keyHeader5 sha256Preimage
  rw [List.append_cancel_right_eq]
  simp only [List.cons.injEq, true_and, and_true]
  rw [eq_comm, ofNat_eq_zero_iff, @eq_comm _ 0 (UInt8.ofNat _), ofNat_eq_zero_iff,
    Nat.shiftRight_eq_div_pow, Nat.shiftRight_eq_div_pow]
  omega

/-- A key and a signature of one version: what is hashed for the key is what its fingerprint is the
digest of, unless the version is 5 and the key too long. -/
theorem fingerprintPreimage_chunks_iff (hlen : publickey.length < 2 ^ 32) {version : UInt8}
    (hversion : version = 4 ∨ version = 5) (hkey : publickey.data[0]? = some version) {sig : Packet}
    (hsig : sig.data[0]? = some version) {packet : Option Packet} {d : HashData}
    (hd : (hashData publickey packet sig).run = some (.ok d)) :
    FingerprintPreimage publickey (d.chunks.take 2).flatten ↔
      version = 4 ∨ publickey.length < 65536 := by
  rcases hversion with rfl | rfl
  · rw [fingerprintPreimage_four hkey, hashData_chunks_four hsig hd]
    exact iff_of_true rfl (.inl rfl)
  · rw [fingerprintPreimage_five hkey, hashData_chunks_five hsig hd, keyHeader5_append_iff hlen,
      or_iff_right (by decide)]

end

/-- **When a key is hashed for signatures as for its fingerprint.** For every key packet that
`read_openpgp_stream` reads from any source, and every signature of its version, 4 or 5: the first two
chunks that `calculate_packet_sighash` hashes are the octets whose digest `get_fingerprint` returns if
and only if the version is 4 or the packet is shorter than 65536 octets. -/
theorem sighash_fingerprint_iff {σ : Type} (getchar : σ → Nat → List UInt8 × σ)
    (past : List Packet → UInt8) (fuel : Nat) (s : σ) (maxnum : Int) (r : ReadResult σ)
    (hread : readOpenpgpStream getchar past fuel s [] maxnum = some r) (publickey sig : Packet)
    (hmem : publickey ∈ r.packets) (version : UInt8) (hversion : version = 4 ∨ version = 5)
    (hkey : publickey.data[0]? = some version) (hsig : sig.data[0]? = some version)
    (packet : Option Packet) (d : HashData)
    (hd : (hashData publickey packet sig).run = some (.ok d)) :
    FingerprintPreimage publickey (d.chunks.take 2).flatten ↔
      version = 4 ∨ publickey.length < 65536 :=
  fingerprintPreimage_chunks_iff (length_lt_of_read hread hmem) hversion hkey hsig hd

/-- A signature of version 5 without subpackets. -/
def bareSig5 : Packet := ⟨tagSignature, false, [5, 0x13, 1, 8, 0, 0, 0, 0, 0, 0]⟩

/-- What is hashed for it. -/
def bareSig5Data (publickey : Packet) : HashData :=
  ⟨8, [keyHeader5 publickey, publickey.data, [5, 0x13, 1, 8, 0, 0], [5, 0xFF, 0, 0, 0, 0, 0, 0, 0, 6]],
    8⟩

theorem hashData_bareSig5 (publickey : Packet) :
    (hashData publickey none bareSig5).run = some (.ok (bareSig5Data publickey)) := rfl

theorem sighash_fingerprint_sample :
    FingerprintPreimage ⟨tagPublickey, false, [5, 0]⟩
        ((bareSig5Data ⟨tagPublickey, false, [5, 0]⟩).chunks.take 2).flatten ↔
      (5 : UInt8) = 4 ∨ (⟨tagPublickey, false, [5, 0]⟩ : Packet).length < 65536 :=
  sighash_fingerprint_iff buffer (fun _ => 0) 2 [0x98, 2, 5, 0] 0
    ⟨.ok, [⟨tagPublickey, false, [5, 0]⟩], []⟩ rfl ⟨tagPublickey, false, [5, 0]⟩ bareSig5
    (List.mem_singleton.mpr rfl) 5 (.inr rfl) rfl rfl none _ (hashData_bareSig5 _)

/-- A key of version 5 with 65536 octets. -/
def longKey : Packet := ⟨tagPublickey, false, 5 :: List.replicate 65535 0⟩

theorem longKey_length : longKey.length = 65536 := by
  unfold longKey Packet.length
  rw [List.length_cons, List.length_replicate]

/-- It is read, and hashed for a signature as if it had no octets. -/
theorem sighash_fingerprint_long :
    ¬ ∀ (octets : List UInt8) (fuel : Nat) (r : ReadResult (List UInt8)),
      readOpenpgpStream buffer (fun _ => 0) fuel octets [] 0 = some r →
      ∀ publickey ∈ r.packets, ∀ (sig : Packet) (version : UInt8), version = 4 ∨ version = 5 →
        publickey.data[0]? = some version → sig.data[0]? = some version →
        ∀ (packet : Option Packet) (d : HashData),
          (hashData publickey packet sig).run = some (.ok d) →
          FingerprintPreimage publickey (d.chunks.take 2).flatten := by
  intro hall
  have hfits : Fits longKey := ⟨fun h => absurd h (by decide), fun _ => ⟨by decide, by
    show longKey.length < 2 ^ 32
    rw [longKey_length]
    decide⟩⟩
  have hreadable : Readable (fun _ => 0) [] [longKey] := ⟨hfits, rfl, trivial⟩
  have hread := read_written hreadable rfl (show [longKey].length < 2 by decide)
  have hpreimage := hall _ 2 _ hread longKey (List.mem_singleton.mpr rfl) bareSig5 5 (.inr rfl) rfl rfl
    none _ (hashData_bareSig5 longKey)
  rw [fingerprintPreimage_chunks_iff (by rw [longKey_length]; decide) (.inr rfl) rfl rfl
    (hashData_bareSig5 longKey), longKey_length] at hpreimage
  exact absurd hpreimage (by decide)

end Onak
