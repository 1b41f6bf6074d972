import Onak.CleanWalk

/-!
# Proofs: full verification

The loops of `clean_key_signatures` with `fullverify` keep the signatures that verify, and the user
ids and subkeys with a self signature that does (`cleanKeySignatures_sound_complete`). A signature
of another key counts for `needother` even when it goes away with its user id: `OtherSigLost` says
when the user ids that are left do not bear out the requirement.

Each round acts on a signature by a verdict that does not depend on the rounds before it
(`sigRound_eq`), so the loops leave what `Onak.CleanKey` says they leave (`cleanKeySignatures_eq`).
-/

namespace Onak.Walk

/-! ## What it is to verify -/

section

variable (H : Hashes) (g : Stale) (C : SigCheck) (D : Lookups) (stale : UInt64) (publickey : Packet)
  (sigdata : Option Packet)

/-- The signature is one that the key itself has made: its hash can be computed, its issuer is the
key and it verifies against it. -/
def BySelf (sig : Packet) : Prop :=
  (C.calculatePacketSighash publickey sigdata sig).status = .ok ∧
    issuer g sig = keyidOf H stale publickey ∧
    C.checkHashSig publickey sig (C.calculatePacketSighash publickey sigdata sig) = .ok

/-- The signature verifies against a key that the database returns for its issuer. -/
def ByStored (sig : Packet) : Prop :=
  (C.calculatePacketSighash publickey sigdata sig).status = .ok ∧
    ∃ k ∈ D.fetchKeyId (issuer g sig),
      C.checkHashSig k.publickey sig (C.calculatePacketSighash publickey sigdata sig) = .ok

instance (sig : Packet) : Decidable (BySelf H g C stale publickey sigdata sig) :=
  inferInstanceAs (Decidable (_ ∧ _))

instance (sig : Packet) : Decidable (ByStored g C D publickey sigdata sig) :=
  inferInstanceAs (Decidable (_ ∧ _))

/-- The signature verifies against the key itself or against one of the database. -/
abbrev Verifies (sig : Packet) : Prop :=
  BySelf H g C stale publickey sigdata sig ∨ ByStored g C D publickey sigdata sig

/-- A user id or subkey with a signature of the key itself. -/
abbrev SelfSigned (sp : SignedPacket) : Prop :=
  ∃ s ∈ sp.sigs, BySelf H g C stale publickey (some sp.packet) s

/-- A user id with a signature that a key of the database has made and the key itself has not. -/
abbrev OtherSigned (sp : SignedPacket) : Prop :=
  ∃ s ∈ sp.sigs, ¬ BySelf H g C stale publickey (some sp.packet) s ∧
    ByStored g C D publickey (some sp.packet) s

/-- The packet with only those signatures that verify. -/
def verified (sp : SignedPacket) : SignedPacket :=
  { sp with sigs := sp.sigs.filter fun s => Verifies H g C D stale publickey (some sp.packet) s }

end

variable {H : Hashes} {g : Stale} {C : SigCheck} {D : Lookups} {stale : UInt64} {publickey : Packet}

/-! ## The loops go by a verdict on each signature -/

section

variable (g : Stale) (C : SigCheck) (D : Lookups) (publickey : Packet) (keyid : UInt64)
  (sigdata : Option Packet) (fullverify : Bool)

/-- What a round decides about a signature. -/
def verdict (sig : Packet) : SigVerdict :=
  let h := C.calculatePacketSighash publickey sigdata sig
  let remove :=
    if h.status = .unsupportedFeature then fullverify
    else h.status ≠ .ok || (!fullverify && h.hash.take 2 ≠ h.sighash.take 2)
  if fullverify && !remove then
    let selfsig := issuer g sig == keyid && C.checkHashSig publickey sig h = .ok
    let othersig := !selfsig &&
      (D.fetchKeyId (issuer g sig)).any fun k => C.checkHashSig k.publickey sig h = .ok
    ⟨!selfsig && !othersig, selfsig, othersig⟩
  else
    ⟨remove, false, false⟩

/-- What the verdicts on the signatures of a list come to. -/
def judged (sigs : List Packet) : SigsResult :=
  let d := verdict g C D publickey keyid sigdata fullverify
  ⟨sigs.filter fun s => !(d s).remove, sigs.countP fun s => (d s).remove,
    sigs.any fun s => (d s).selfsig, sigs.any fun s => (d s).othersig⟩

/-- The verdicts on the signatures of a user id or subkey. -/
def judgedOn (sp : SignedPacket) : SigsResult :=
  judged g C D publickey keyid (some sp.packet) fullverify sp.sigs

end

/-- Stores `true` if the condition holds. -/
def Flag.raise (f : Flag) (b : Bool) : Flag := if b then f.store true else f

@[simp]
theorem Flag.raise_raise (f : Flag) (a b : Bool) : (f.raise a).raise b = f.raise (a || b) := by
  cases f <;> cases a <;> cases b <;> rfl

@[simp]
theorem Flag.raise_some (a b : Bool) : Flag.raise (some a) b = some (a || b) := by
  cases a <;> cases b <;> rfl

@[simp]
theorem Flag.store_some (a b : Bool) : Flag.store (some a) b = some b := rfl

/-- Follows a verdict on the signature that `sigs` points to. -/
def SigsVars.follow (v : SigsVars) (d : SigVerdict) (sig : Packet) : SigsVars :=
  { kept := if d.remove then v.kept else v.kept ++ [sig],
    removed := if d.remove then v.removed + 1 else v.removed,
    selfsig := v.selfsig.raise d.selfsig,
    othersig := v.othersig.raise d.othersig }

theorem take_two_eq_iff {a b : List UInt8} :
    a.take 2 = b.take 2 ↔ a[0]? = b[0]? ∧ a[1]? = b[1]? := by
  rcases a with _ | ⟨a0, _ | ⟨a1, a⟩⟩ <;> rcases b with _ | ⟨b0, _ | ⟨b1, b⟩⟩ <;> simp

theorem tryKeys_eq_any (sig : Packet) (h : SigHash) (keys : List PublicKey) :
    tryKeys C sig h keys = keys.any fun k => C.checkHashSig k.publickey sig h = .ok := by
  induction keys with
  | nil => rfl
  | cons k keys ih =>
    rw [tryKeys, List.any_cons]
    split_ifs with hk
    · simp [hk]
    · simp [hk, ih]

theorem sigRound_eq (keyid : UInt64) (sigdata : Option Packet) (fullverify : Bool) (v : SigsVars)
    (sig : Packet) :
    sigRound g C D publickey keyid sigdata fullverify v sig =
      v.follow (verdict g C D publickey keyid sigdata fullverify sig) sig := by
  set h := C.calculatePacketSighash publickey sigdata sig with hh
  cases fullverify with
  | false =>
    by_cases hu : h.status = .unsupportedFeature
    · simp [sigRound, verdict, SigsVars.follow, Flag.raise, ← hh, hu]
    · have htake := take_two_eq_iff (a := h.hash) (b := h.sighash)
      by_cases hr : h.status = .ok ∧ h.hash.take 2 = h.sighash.take 2
      · simp [sigRound, verdict, SigsVars.follow, Flag.raise, ← hh, hr, htake.mp hr.2]
      · have hr' : h.status = .ok → h.hash[0]? = h.sighash[0]? → ¬ h.hash[1]? = h.sighash[1]? :=
          fun hok h0 h1 => hr ⟨hok, htake.mpr ⟨h0, h1⟩⟩
        rw [not_and_or] at hr
        simpa [sigRound, verdict, SigsVars.follow, Flag.raise, ← hh, hu, hr] using hr'
  | true =>
    by_cases hok : h.status = .ok
    · by_cases hself : issuer g sig = keyid ∧ C.checkHashSig publickey sig h = .ok
      · -- no key is fetched, so there is none to try
        simp [sigRound, verdict, SigsVars.follow, Flag.raise, ← hh, hok, hself, tryKeys]
      · have hself' : (issuer g sig == keyid && decide (C.checkHashSig publickey sig h = .ok)) =
            false := by simpa using hself
        have hany := tryKeys_eq_any (C := C) sig h (D.fetchKeyId (issuer g sig))
        simp only [sigRound, verdict, SigsVars.follow, Flag.raise, ← hh, hok, if_neg hself, hself', ← hany]
        cases hkeys : tryKeys C sig h (D.fetchKeyId (issuer g sig)) with
        | true => simp [hkeys]
        | false => simp [hkeys]
    · simp [sigRound, verdict, SigsVars.follow, Flag.raise, ← hh, hok]

theorem sigsLoop_eq (keyid : UInt64) (sigdata : Option Packet) (fullverify : Bool) (v : SigsVars)
    (sigs : List Packet) :
    sigsLoop g C D publickey keyid sigdata fullverify v sigs =
      let d := verdict g C D publickey keyid sigdata fullverify
      { kept := v.kept ++ sigs.filter fun s => !(d s).remove,
        removed := v.removed + sigs.countP fun s => (d s).remove,
        selfsig := v.selfsig.raise (sigs.any fun s => (d s).selfsig),
        othersig := v.othersig.raise (sigs.any fun s => (d s).othersig) } := by
  induction sigs generalizing v with
  | nil => simp [sigsLoop, Flag.raise]
  | cons s rest ih =>
    rw [sigsLoop, sigRound_eq, ih]
    cases hr : (verdict g C D publickey keyid sigdata fullverify s).remove with
    | true => simp [SigsVars.follow, hr, Nat.add_assoc, Nat.add_comm 1]
    | false => simp [SigsVars.follow, hr]

theorem cleanSighashes_eq (sigdata : Option Packet) (fullverify : Bool) (selfsig othersig : Flag)
    (sigs : List Packet) :
    cleanSighashes H g C D stale publickey sigdata fullverify selfsig othersig sigs =
      let r := judged g C D publickey (keyidOf H stale publickey) sigdata fullverify sigs
      ⟨r.sigs, r.removed, selfsig.store r.selfsig, othersig.raise r.othersig⟩ := by
  rw [cleanSighashes, sigsLoop_eq]
  simp only [judged, List.nil_append, Nat.zero_add, SigsVars.mk.injEq, true_and, and_true]
  generalize sigs.any _ = b
  cases selfsig <;> cases b <;> rfl

theorem listRound_eq (fullverify : Bool) (v : ListVars) (sp : SignedPacket) :
    listRound H g C D stale publickey fullverify v sp =
      let r := judgedOn g C D publickey (keyidOf H stale publickey) fullverify sp
      { kept := v.kept ++ if fullverify && !r.selfsig then [] else [{ sp with sigs := r.sigs }],
        removed := v.removed + r.removed,
        othersig := v.othersig || r.othersig } := by
  rw [listRound, cleanSighashes_eq]
  simp only [judgedOn]
  by_cases hself : (judged g C D publickey (keyidOf H stale publickey) (some sp.packet) fullverify
      sp.sigs).selfsig = true
  · simp [hself]
  · cases fullverify with
    | false => simp
    | true => simp [hself]

theorem listLoop_eq (fullverify : Bool) (v : ListVars) (l : List SignedPacket) :
    listLoop H g C D stale publickey fullverify v l =
      let r := judgedOn g C D publickey (keyidOf H stale publickey) fullverify
      { kept := v.kept ++ (l.filter fun sp => !(fullverify && !(r sp).selfsig)).map fun sp =>
          { sp with sigs := (r sp).sigs },
        removed := v.removed + (l.map fun sp => (r sp).removed).sum,
        othersig := v.othersig || l.any fun sp => (r sp).othersig } := by
  induction l generalizing v with
  | nil => simp [listLoop]
  | cons sp rest ih =>
    rw [listLoop, ih, listRound_eq]
    cases hkeep : fullverify &&
        !(judgedOn g C D publickey (keyidOf H stale publickey) fullverify sp).selfsig with
    | true => simp [hkeep, Nat.add_assoc, Bool.or_assoc, -Bool.not_and]
    | false => simp [hkeep, Nat.add_assoc, Bool.or_assoc, -Bool.not_and]

@[simp]
theorem unlinkAll_eq_nil (l : List SignedPacket) : unlinkAll l = [] := by
  induction l with
  | nil => rfl
  | cons sp rest ih => exact ih

theorem cleanListSighashes_eq (fullverify needother : Bool) (l : List SignedPacket) :
    cleanListSighashes H g C D stale publickey fullverify needother l =
      let r := judgedOn g C D publickey (keyidOf H stale publickey) fullverify
      (if needother && fullverify && !l.any fun sp => (r sp).othersig then []
        else (l.filter fun sp => !(fullverify && !(r sp).selfsig)).map fun sp =>
          { sp with sigs := (r sp).sigs },
        (l.map fun sp => (r sp).removed).sum) := by
  simp only [cleanListSighashes, listLoop_eq, unlinkAll_eq_nil, List.nil_append, Nat.zero_add,
    Bool.false_or, Bool.and_eq_true, and_assoc]

theorem getPacketid_eq_zero {p : Packet} {rc : Status} {keyid : UInt64}
    (h : getPacketid H p = some (rc, keyid)) (hrc : rc ≠ .ok) : keyid = 0 := by
  unfold getPacketid at h
  obtain ⟨version, -, h⟩ := Option.bind_eq_some_iff.mp h
  split_ifs at h with h1 h2
  · obtain ⟨algo, -, h⟩ := Option.bind_eq_some_iff.mp h
    split_ifs at h with halgo
    · simp_all
    · obtain ⟨len, -, h⟩ := Option.bind_eq_some_iff.mp h
      obtain ⟨octets, -, h⟩ := Option.bind_eq_some_iff.mp h
      simp_all
  · obtain ⟨fp, -, h⟩ := Option.bind_eq_some_iff.mp h
    simp_all
  · simp_all

theorem keyidOf_zero (publickey : Packet) :
    keyidOf H 0 publickey = ((getPacketid H publickey).map Prod.snd).getD 0 := by
  unfold keyidOf
  split
  · rename_i keyid h
    rw [h]
    rfl
  · rename_i h
    rcases hid : getPacketid H publickey with _ | ⟨rc, keyid⟩
    · rfl
    · exact (getPacketid_eq_zero hid fun hrc => h keyid (hrc ▸ hid)).symm

/-- A variable for the key id that is zero at first gives the functions of `Onak.CleanKey`. -/
theorem cleanKeySignatures_eq (key : PublicKey) (fullverify needother : Bool) :
    cleanKeySignatures H g C D 0 key fullverify needother =
      Onak.cleanKeySignatures H g C D key fullverify needother := by
  simp only [cleanKeySignatures, cleanSighashes_eq, cleanListSighashes_eq, keyidOf_zero]
  rfl

/-! ## Full verification -/

theorem verdict_fullverify (sigdata : Option Packet) (sig : Packet) :
    verdict g C D publickey (keyidOf H stale publickey) sigdata true sig =
      ⟨!decide (Verifies H g C D stale publickey sigdata sig),
        BySelf H g C stale publickey sigdata sig,
        ¬ BySelf H g C stale publickey sigdata sig ∧ ByStored g C D publickey sigdata sig⟩ := by
  set h := C.calculatePacketSighash publickey sigdata sig with hh
  by_cases hok : h.status = .ok
  · have hself : BySelf H g C stale publickey sigdata sig ↔
        (issuer g sig == keyidOf H stale publickey &&
          decide (C.checkHashSig publickey sig h = .ok)) = true := by
      simp [BySelf, ← hh, hok]
    have hstored : ByStored g C D publickey sigdata sig ↔
        ((D.fetchKeyId (issuer g sig)).any fun k =>
          decide (C.checkHashSig k.publickey sig h = .ok)) = true := by
      simp [ByStored, ← hh, hok]
    by_cases h1 : BySelf H g C stale publickey sigdata sig
    · simp [verdict, ← hh, hok, hself.mp h1, h1]
    · have h1' := eq_false_of_ne_true (mt hself.mpr h1)
      by_cases h2 : ByStored g C D publickey sigdata sig
      · simp only [verdict, ← hh, hok, h1', hstored.mp h2]
        simp [h1, h2]
      · simp only [verdict, ← hh, hok, h1', eq_false_of_ne_true (mt hstored.mpr h2)]
        simp [h1, h2]
  · have h1 : ¬ BySelf H g C stale publickey sigdata sig := fun h => hok h.1
    have h2 : ¬ ByStored g C D publickey sigdata sig := fun h => hok h.1
    simp [verdict, ← hh, hok, h1, h2]

theorem judged_fullverify (sigdata : Option Packet) (sigs : List Packet) :
    judged g C D publickey (keyidOf H stale publickey) sigdata true sigs =
      ⟨sigs.filter fun s => Verifies H g C D stale publickey sigdata s,
        sigs.countP fun s => ¬ Verifies H g C D stale publickey sigdata s,
        ∃ s ∈ sigs, BySelf H g C stale publickey sigdata s,
        ∃ s ∈ sigs, ¬ BySelf H g C stale publickey sigdata s ∧
          ByStored g C D publickey sigdata s⟩ := by
  simp only [judged, verdict_fullverify, List.any_eq, SigsResult.mk.injEq]
  simp

theorem cleanListSighashes_fullverify (needother : Bool) (l : List SignedPacket) :
    (cleanListSighashes H g C D stale publickey true needother l).1 =
      if needother = true ∧ ¬ ∃ sp ∈ l, OtherSigned H g C D stale publickey sp then []
      else (l.filter fun sp => SelfSigned H g C stale publickey sp).map
        (verified H g C D stale publickey) := by
  simp only [cleanListSighashes_eq, judgedOn, judged_fullverify]
  simp only [Bool.true_and, Bool.and_true, Bool.not_not, Bool.and_eq_true, Bool.not_eq_true',
    ← Bool.not_eq_true, List.any_eq_true, decide_eq_true_eq]
  rfl

/-- Full verification keeps exactly the signatures that verify, in order, and of the user ids and
subkeys exactly those with a valid self signature. -/
theorem cleanKeySignatures_sound_complete (H : Hashes) (g : Stale) (C : SigCheck) (D : Lookups)
    (stale : UInt64) (key : PublicKey) :
    (cleanKeySignatures H g C D stale key true false).1 =
      { key with
        sigs := key.sigs.filter fun s => Verifies H g C D stale key.publickey none s,
        uids := (key.uids.filter fun sp => SelfSigned H g C stale key.publickey sp).map
          (verified H g C D stale key.publickey),
        subkeys := (key.subkeys.filter fun sp => SelfSigned H g C stale key.publickey sp).map
          (verified H g C D stale key.publickey) } := by
  simp only [cleanKeySignatures, cleanListSighashes_fullverify, cleanSighashes_eq,
    judged_fullverify, Bool.false_eq_true, false_and, if_false]

/-! ## Signatures of other keys -/

section

variable (H : Hashes) (g : Stale) (C : SigCheck) (D : Lookups) (stale : UInt64) (key : PublicKey)

/-- The key has no user ids, or one with a signature that verifies against a key that the database
returns for its issuer. -/
def BorneOut (key : PublicKey) : Prop :=
  key.uids = [] ∨
    ∃ sp ∈ key.uids, ∃ s ∈ sp.sigs, ByStored g C D key.publickey (some sp.packet) s

/-- The signatures of other keys are all on user ids without a self signature, and there are user
ids with one. -/
def OtherSigLost : Prop :=
  (∃ sp ∈ key.uids, OtherSigned H g C D stale key.publickey sp) ∧
    (∃ sp ∈ key.uids, SelfSigned H g C stale key.publickey sp) ∧
    ∀ sp ∈ key.uids, SelfSigned H g C stale key.publickey sp →
      ∀ s ∈ sp.sigs, ¬ ByStored g C D key.publickey (some sp.packet) s

instance : Decidable (OtherSigLost H g C D stale key) := inferInstanceAs (Decidable (_ ∧ _))

instance (key : PublicKey) : Decidable (BorneOut g C D key) := inferInstanceAs (Decidable (_ ∨ _))

end

theorem mem_verified_sigs {sp : SignedPacket} {s : Packet} :
    s ∈ (verified H g C D stale publickey sp).sigs ↔
      s ∈ sp.sigs ∧ Verifies H g C D stale publickey (some sp.packet) s := by
  simp [verified]

theorem mem_kept_iff {l : List SignedPacket} {sp' : SignedPacket} :
    sp' ∈ (l.filter fun sp => SelfSigned H g C stale publickey sp).map
        (verified H g C D stale publickey) ↔
      ∃ sp ∈ l, SelfSigned H g C stale publickey sp ∧ verified H g C D stale publickey sp = sp' := by
  simp only [List.mem_map, List.mem_filter, decide_eq_true_eq, and_assoc]

/-- The user ids that are left after a call that asks for a signature of another key bear that out,
except when the other signatures have all gone with their user ids. -/
theorem borneOut_cleanKeySignatures_iff (H : Hashes) (g : Stale) (C : SigCheck) (D : Lookups)
    (stale : UInt64) (key : PublicKey) :
    BorneOut g C D (cleanKeySignatures H g C D stale key true true).1 ↔
      ¬ OtherSigLost H g C D stale key := by
  have huids : (cleanKeySignatures H g C D stale key true true).1.uids =
      if ¬ ∃ sp ∈ key.uids, OtherSigned H g C D stale key.publickey sp then []
      else (key.uids.filter fun sp => SelfSigned H g C stale key.publickey sp).map
        (verified H g C D stale key.publickey) := by
    show (cleanListSighashes H g C D stale key.publickey true true key.uids).1 = _
    rw [cleanListSighashes_fullverify]
    simp only [true_and]
  have hkey : (cleanKeySignatures H g C D stale key true true).1.publickey = key.publickey := rfl
  unfold BorneOut OtherSigLost
  rw [huids, hkey]
  by_cases hother : ∃ sp ∈ key.uids, OtherSigned H g C D stale key.publickey sp
  · rw [if_neg (not_not_intro hother)]
    constructor
    · rintro (hnil | ⟨sp', hsp', s, hs, hstored⟩) ⟨-, ⟨sp, hsp, hself⟩, hnone⟩
      · have hmem := mem_kept_iff (D := D).mpr ⟨sp, hsp, hself, rfl⟩
        rw [hnil] at hmem
        exact List.not_mem_nil hmem
      · obtain ⟨sp, hsp, hself, rfl⟩ := mem_kept_iff.mp hsp'
        exact hnone sp hsp hself s (mem_verified_sigs.mp hs).1 hstored
    · intro hlost
      by_cases hself : ∃ sp ∈ key.uids, SelfSigned H g C stale key.publickey sp
      · right
        have hsome : ¬ ∀ sp ∈ key.uids, SelfSigned H g C stale key.publickey sp →
            ∀ s ∈ sp.sigs, ¬ ByStored g C D key.publickey (some sp.packet) s :=
          fun hnone => hlost ⟨hother, hself, hnone⟩
        push Not at hsome
        obtain ⟨sp, hsp, hself, s, hs, hstored⟩ := hsome
        refine ⟨verified H g C D stale key.publickey sp, ?_, s, ?_, hstored⟩
        · exact mem_kept_iff.mpr ⟨sp, hsp, hself, rfl⟩
        · exact mem_verified_sigs.mpr ⟨hs, .inr hstored⟩
      · left
        apply List.eq_nil_iff_forall_not_mem.mpr
        intro sp' hsp'
        obtain ⟨sp, hsp, hsp'', -⟩ := mem_kept_iff.mp hsp'
        exact hself ⟨sp, hsp, hsp''⟩
  · rw [if_pos hother]
    exact ⟨fun _ h => hother h.1, fun _ => .inl rfl⟩

/-- A digest of twenty octets of which the last is that of the text. -/
def lastOctetHashes : Hashes :=
  ⟨fun _ => [], fun text => List.replicate 19 0 ++ [text.getLastD 0], fun _ => []⟩

/-- A v4 key packet with the given octet as its key id under `lastOctetHashes`. -/
def keyPacket (keyid : UInt8) : Packet := ⟨tagPublickey, false, [4, 0, 0, 0, 1, 1, keyid]⟩

/-- A v3 certification by the given key. -/
def certBy (keyid : UInt8) : Packet :=
  ⟨tagSignature, false, [3, 5, 0x10, 0, 0, 0, 1, 0, 0, 0, 0, 0, 0, 0, keyid, 1, 2, 0, 0]⟩

/-- A check that goes by the key id. -/
def keyidCheck : SigCheck :=
  ⟨fun _ _ _ => ⟨.ok, 2, [0, 0], [0, 0]⟩,
    fun k sig _ => if k.data[6]? = sig.data[14]? then .ok else .badSignature⟩

/-- A database with the key 9. -/
def keyNine : Lookups :=
  ⟨fun keyid => if keyid = 9 then [⟨keyPacket 9, false, [], [], []⟩] else [], fun _ => false⟩

/-- The key 7 with a user id that only the key 9 has signed, and one that only itself has signed. -/
def halfSigned : PublicKey :=
  ⟨keyPacket 7, false, [], [⟨⟨tagUid, false, [65]⟩, [certBy 9]⟩, ⟨⟨tagUid, false, [66]⟩, [certBy 7]⟩],
    []⟩

/-- The user id with the signature of the other key goes, and the other user id stays without
one. -/
theorem cleanKeySignatures_other_sig_lost :
    ¬ ∀ (H : Hashes) (g : Stale) (C : SigCheck) (D : Lookups) (stale : UInt64) (key : PublicKey),
      BorneOut g C D (cleanKeySignatures H g C D stale key true true).1 := by
  intro hall
  have hleft : (cleanKeySignatures lastOctetHashes ⟨fun _ => 0, fun _ => 0⟩ keyidCheck keyNine 0
      halfSigned true true).1 =
      { halfSigned with uids := [⟨⟨tagUid, false, [66]⟩, [certBy 7]⟩] } := by
    decide +kernel
  have hborne := hall lastOctetHashes ⟨fun _ => 0, fun _ => 0⟩ keyidCheck keyNine 0 halfSigned
  rw [hleft] at hborne
  exact absurd hborne (by decide +kernel)

end Onak.Walk
