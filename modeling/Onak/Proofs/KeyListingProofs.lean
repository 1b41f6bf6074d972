import Onak.Proofs.HtmlEscapeProofs
import Onak.Proofs.SigCheckProofs

/-!
# Proofs: photos have one index

`list_uids`, `build_uid_list` and `getphoto` each count the user attributes on their own. What they pass
over in other ways are never user attributes: the first user id, the primary one, and packets with other
tags. Revoked attributes may be left out of a listing, but all of them count.
-/

namespace Onak

open Reading Print Template

/-- The number of user attributes among some packets. -/
def countUats (uids : List SignedPacket) : Nat := uids.countP fun uid => uid.packet.tag = tagUat

theorem countUats_cons (uid : SignedPacket) (uids : List SignedPacket) (imgindx : Nat) :
    imgindx + countUats (uid :: uids) = nextIndex imgindx uid + countUats uids := by
  unfold countUats nextIndex
  rw [List.countP_cons]
  by_cases huat : uid.packet.tag = tagUat
  · rw [if_pos (by simpa using huat), if_pos huat]
    omega
  · rw [if_neg (by simpa using huat), if_neg huat]
    omega

/-! ## The packet that is examined -/

theorem photoUat_eq {uids : List SignedPacket} {i : Nat} (pos k : Nat) {sp : SignedPacket}
    (hsp : uids[i]? = some sp) (huat : sp.packet.tag = tagUat) :
    photoUat ((k + countUats (uids.take i) : Nat) : Int) pos k uids = some (pos + i, sp) := by
  induction uids generalizing i pos k with
  | nil => exact absurd hsp (by simp)
  | cons uid uids ih =>
    cases i with
    | zero =>
      obtain rfl : uid = sp := Option.some.inj hsp
      rw [photoUat, List.take_zero, if_pos (by simp [countUats]), if_pos huat, if_pos (by simp [countUats])]
      rfl
    | succ i =>
      have hnext := ih (pos + 1) (nextIndex k uid) hsp
      rw [List.take_succ_cons, countUats_cons]
      have hle : (k : Int) ≤ ((nextIndex k uid + countUats (uids.take i) : Nat) : Int) := by
        unfold nextIndex
        split_ifs <;> omega
      rw [photoUat, if_pos hle, show pos + (i + 1) = pos + 1 + i by omega, ← hnext]
      unfold nextIndex
      split_ifs with htag hindex
      · omega
      · rfl
      · rfl

theorem photoUat_some {uids : List SignedPacket} {index : Int} {pos k i : Nat} {sp : SignedPacket}
    (h : photoUat index pos k uids = some (i, sp)) :
    pos ≤ i ∧ uids[i - pos]? = some sp ∧ sp.packet.tag = tagUat := by
  induction uids generalizing pos k with
  | nil => exact absurd h (by simp [photoUat])
  | cons uid uids ih =>
    have hbehind {k' : Nat} (h : photoUat index (pos + 1) k' uids = some (i, sp)) :
        pos ≤ i ∧ (uid :: uids)[i - pos]? = some sp ∧ sp.packet.tag = tagUat := by
      obtain ⟨hle, hget, htag⟩ := ih h
      refine ⟨by omega, ?_, htag⟩
      rw [show i - pos = (i - (pos + 1)) + 1 by omega, List.getElem?_cons_succ]
      exact hget
    rw [photoUat] at h
    split_ifs at h with hle htag hindex
    · obtain ⟨rfl, rfl⟩ := Prod.mk.inj (Option.some.inj h)
      exact ⟨le_refl _, by simp, htag⟩
    · exact hbehind h
    · exact hbehind h

/-! ## The photo -/

/-- A photo that is found lies inside its packet. -/
theorem readPhoto_inside {packet : Packet} {photo : Photo}
    (h : (readPhoto packet).run = some (.ok photo)) : photo.offset + photo.length ≤ packet.length := by
  unfold readPhoto at h
  obtain ⟨hshort, h⟩ := of_run_refuse_bind h
  obtain ⟨⟨length, j⟩, hlength, h⟩ := of_run_bind h
  obtain ⟨hheader, h⟩ := of_run_refuse_bind h
  obtain ⟨hfits, h⟩ := of_run_refuse_bind h
  obtain ⟨type, -, h⟩ := of_run_read_bind h
  obtain ⟨-, h⟩ := of_run_refuse_bind h
  obtain ⟨octets, -, h⟩ := of_run_read_bind h
  obtain ⟨-, h⟩ := of_run_refuse_bind h
  cases h
  have hj : j ≤ 5 := by
    unfold photoLength at hlength
    obtain ⟨first, -, hlength⟩ := of_run_read_bind hlength
    split_ifs at hlength
    · cases hlength
      omega
    · obtain ⟨second, -, hlength⟩ := of_run_read_bind hlength
      cases hlength
      omega
    · obtain ⟨octets, -, hlength⟩ := of_run_read_bind hlength
      cases hlength
      omega
  unfold sizeSub at hfits
  rw [if_pos (by omega)] at hfits
  show j + 1 + 16 + (length - 17) ≤ packet.length
  omega

theorem getphoto_inside {key : PublicKey} {index : Int} {pos : Nat} {photo : Photo}
    (h : (getphoto key index).run = some (.ok (pos, photo))) :
    ∃ sp, key.uids[pos]? = some sp ∧ sp.packet.tag = tagUat ∧
      photo.offset + photo.length ≤ sp.packet.length := by
  unfold getphoto at h
  cases huat : photoUat index 0 0 key.uids with
  | none =>
    rw [huat] at h
    exact absurd (Option.some.inj h) (by simp)
  | some found =>
    obtain ⟨i, sp⟩ := found
    rw [huat] at h
    obtain ⟨photo', hphoto, h⟩ := of_run_bind h
    cases h
    obtain ⟨-, hget, htag⟩ := photoUat_some huat
    exact ⟨sp, hget, htag, readPhoto_inside hphoto⟩

/-! ## The printed listing -/

section

variable (keyid2uid : Option (UInt64 → Option (List UInt8))) (past : Packet → Nat → UInt8)
  (keyid : UInt64) (verbose html : Bool)

theorem listSig_isSome {buf : List UInt8} (hbuf : buf.length = 1024) (packet : Packet) :
    ∃ line buf', listSig keyid2uid past html buf packet = some (line, buf') ∧ buf'.length = 1024 := by
  unfold listSig
  cases hlookup : keyid2uid.bind fun lookup => lookup (sigKeyid packet) with
  | none =>
    simp only [hlookup]
    exact ⟨_, buf, rfl, hbuf⟩
  | some uid =>
    simp only [hlookup]
    cases html with
    | false => exact ⟨_, buf, rfl, hbuf⟩
    | true =>
      obtain ⟨buf', hescape, hlen⟩ := htmlEscape_isSome uid buf (by omega)
      simp only [hescape]
      exact ⟨_, buf', rfl, hlen.trans hbuf⟩

theorem listSigs_isSome (sigs : List Packet) {buf : List UInt8} (hbuf : buf.length = 1024) :
    ∃ text, listSigs keyid2uid past html buf sigs = some text := by
  induction sigs generalizing buf with
  | nil => exact ⟨[], rfl⟩
  | cons packet sigs ih =>
    obtain ⟨line, buf', hline, hbuf'⟩ := listSig_isSome keyid2uid past html hbuf packet
    obtain ⟨text, htext⟩ := ih hbuf'
    refine ⟨line ++ text, ?_⟩
    simp only [listSigs, hline, Option.bind_eq_bind, Option.bind_some, htext]
    rfl

theorem listUid_isSome (imgindx : Nat) {buf : List UInt8} (hbuf : buf.length = 1024)
    (uid : SignedPacket) :
    ∃ line buf', listUid keyid verbose html imgindx buf uid = some (line, buf') ∧
      buf'.length = 1024 := by
  unfold listUid
  by_cases huid : uid.packet.tag = tagUid
  · have hroom : 0 + ((cString uid.packet.data).take 1022 ++ [0]).length ≤ buf.length := by
      rw [List.length_append, List.length_take, List.length_singleton]
      omega
    obtain ⟨buf₁, hstore, hlen₁, -⟩ := store_eq_some _ _ _ hroom
    simp only [if_pos huid, hstore, Option.bind_eq_bind, Option.bind_some]
    cases html with
    | false => exact ⟨_, buf₁, rfl, hlen₁.trans hbuf⟩
    | true =>
      obtain ⟨buf', hescape, hlen⟩ := htmlEscape_isSome uid.packet.data buf₁ (by omega)
      simp only [hescape]
      exact ⟨_, buf', rfl, (hlen.trans hlen₁).trans hbuf⟩
  · rw [if_neg huid]
    split_ifs
    · exact ⟨_, buf, rfl, hbuf⟩
    · exact ⟨_, buf, rfl, hbuf⟩
    · exact ⟨_, buf, rfl, hbuf⟩
    · exact ⟨_, buf, rfl, hbuf⟩

/-- What is printed for a photo in front of its signatures. -/
def photoLine (imgindx : Nat) (uid : SignedPacket) : List UInt8 :=
  if !verbose && signedpacketIsRevoked uid then []
  else indent ++ if html then photoTag keyid imgindx else ascii "[photo id]\n"

theorem listUid_uat (imgindx : Nat) (buf : List UInt8) {uid : SignedPacket}
    (huat : uid.packet.tag = tagUat) :
    listUid keyid verbose html imgindx buf uid =
      some (photoLine keyid verbose html imgindx uid, buf) := by
  unfold listUid photoLine
  rw [if_neg (by rw [huat]; decide), if_pos huat]
  split_ifs <;> rfl

variable (sigsBuf : List SignedPacket → List UInt8)

theorem listedSigs_isSome (hsigsBuf : ∀ behind, (sigsBuf behind).length = 1024)
    (behind : List SignedPacket) (uid : SignedPacket) :
    ∃ sigs, listedSigs keyid2uid past sigsBuf verbose html behind uid = some sigs := by
  cases verbose with
  | false => exact ⟨[], rfl⟩
  | true => exact listSigs_isSome keyid2uid past html uid.sigs (hsigsBuf behind)

theorem listUidsLoop_isSome (hsigsBuf : ∀ behind, (sigsBuf behind).length = 1024)
    (uids : List SignedPacket) (imgindx : Nat) {buf : List UInt8} (hbuf : buf.length = 1024) :
    ∃ pieces, listUidsLoop keyid2uid past sigsBuf keyid verbose html imgindx buf uids = some pieces ∧
      pieces.length = uids.length := by
  induction uids generalizing imgindx buf with
  | nil => exact ⟨[], rfl, rfl⟩
  | cons uid uids ih =>
    obtain ⟨line, buf', hline, hbuf'⟩ := listUid_isSome keyid verbose html imgindx hbuf uid
    obtain ⟨pieces, hpieces, hlen⟩ := ih (nextIndex imgindx uid) hbuf'
    obtain ⟨sigs, hsigs⟩ := listedSigs_isSome keyid2uid past verbose html sigsBuf hsigsBuf
      (uid :: uids) uid
    refine ⟨(line ++ sigs) :: pieces, ?_, by rw [List.length_cons, List.length_cons, hlen]⟩
    simp only [listUidsLoop, hline, hsigs, hpieces, Option.bind_eq_bind, Option.bind_some]
    rfl

/-- The index in a piece of the listing counts the attributes in front. -/
theorem listUidsLoop_uat {uids : List SignedPacket} {imgindx : Nat} {buf : List UInt8}
    {pieces : List (List UInt8)}
    (h : listUidsLoop keyid2uid past sigsBuf keyid verbose html imgindx buf uids = some pieces)
    {i : Nat} {sp : SignedPacket} (hsp : uids[i]? = some sp) (huat : sp.packet.tag = tagUat) :
    ∃ sigs, listedSigs keyid2uid past sigsBuf verbose html (uids.drop i) sp = some sigs ∧
      pieces[i]? =
        some (photoLine keyid verbose html (imgindx + countUats (uids.take i)) sp ++ sigs) := by
  induction uids generalizing imgindx buf pieces i with
  | nil => exact absurd hsp (by simp)
  | cons uid uids ih =>
    rw [listUidsLoop] at h
    obtain ⟨⟨line, buf'⟩, hline, h⟩ := Option.bind_eq_some_iff.mp h
    obtain ⟨sigs, hsigs, h⟩ := Option.bind_eq_some_iff.mp h
    obtain ⟨rest, hrest, h⟩ := Option.bind_eq_some_iff.mp h
    obtain rfl := Option.some.inj h
    cases i with
    | zero =>
      obtain rfl : uid = sp := Option.some.inj hsp
      rw [listUid_uat keyid verbose html imgindx buf huat] at hline
      obtain ⟨rfl, -⟩ := Prod.mk.inj (Option.some.inj hline)
      exact ⟨sigs, hsigs, rfl⟩
    | succ i =>
      rw [List.take_succ_cons, countUats_cons, List.drop_succ_cons, List.getElem?_cons_succ]
      exact ih hrest hsp

end

/-! ## The list for templates -/

section

variable (keyid2uid : Option (UInt64 → Option (List UInt8))) (past : Packet → Nat → UInt8)
  (isoDate : Int → List UInt8) (skip : Option Nat) (verbose : Bool)

theorem buildUidLoop_uat {uids : List SignedPacket} (pos imgindx : Nat) {i : Nat} {sp : SignedPacket}
    (hsp : uids[i]? = some sp) (huat : sp.packet.tag = tagUat) (hskip : skip ≠ some (pos + i)) :
    (buildUidLoop keyid2uid past isoDate skip verbose pos imgindx uids)[i]? =
      some (if !verbose && signedpacketIsRevoked sp then none
        else some (uidValue keyid2uid past isoDate (imgindx + countUats (uids.take i)) sp)) := by
  induction uids generalizing pos imgindx i with
  | nil => exact absurd hsp (by simp)
  | cons uid uids ih =>
    cases i with
    | zero =>
      obtain rfl : uid = sp := Option.some.inj hsp
      rw [buildUidLoop, List.getElem?_cons_zero, if_neg (fun h => h.2 huat),
        if_neg (fun h => hskip h.symm), if_pos huat]
      rfl
    | succ i =>
      rw [buildUidLoop, List.getElem?_cons_succ, List.take_succ_cons, countUats_cons]
      exact ih _ _ hsp (by rwa [show pos + 1 + i = pos + (i + 1) by omega])

theorem uidValue_index {uid : SignedPacket} (huat : uid.packet.tag = tagUat) (idx : Nat) :
    mapGet (ascii "uat_index") (some (uidValue keyid2uid past isoDate idx uid)) =
      some (.int (Int64.ofNat idx)) := by
  unfold uidValue
  rw [huat]
  rfl

theorem primaryUid_ne {key : PublicKey} {i : Nat} {sp : SignedPacket} (hsp : key.uids[i]? = some sp)
    (huat : sp.packet.tag = tagUat) : primaryUid key ≠ some i := by
  intro h
  obtain ⟨hlt, huid, -⟩ := List.findIdx?_eq_some_iff_getElem.mp h
  rw [List.getElem?_eq_getElem hlt] at hsp
  rw [Option.some.inj hsp, huat, decide_eq_true_eq] at huid
  exact absurd huid.1 (by decide)

end

/-! ## One index -/

theorem pubLineUids_le {key : PublicKey} {i : Nat} {sp : SignedPacket} (hsp : key.uids[i]? = some sp)
    (huat : sp.packet.tag = tagUat) :
    pubLineUids key ≤ i ∧
      countUats ((key.uids.drop (pubLineUids key)).take (i - pubLineUids key)) =
        countUats (key.uids.take i) := by
  unfold pubLineUids
  cases huids : key.uids with
  | nil => exact absurd hsp (by simp [huids])
  | cons uid uids =>
    rw [huids] at hsp
    simp only
    split_ifs with huid
    · cases i with
      | zero =>
        obtain rfl : uid = sp := Option.some.inj hsp
        exact absurd (huid.symm.trans huat) (by decide)
      | succ i =>
        refine ⟨by omega, ?_⟩
        have hcount := countUats_cons uid (uids.take i) 0
        unfold nextIndex at hcount
        rw [if_neg (by rw [huid]; decide)] at hcount
        rw [List.take_succ_cons, Nat.add_sub_cancel, List.drop_succ_cons, List.drop_zero]
        omega
    · exact ⟨Nat.zero_le i, rfl⟩

/-- **Photos have one index.** For every key and every user attribute on it there is one index: it is the
one for which `getphoto` reads that attribute and no other, the one that `key_index` prints for it, and
the `uat_index` that templates get, in verbose mode and else. And a photo that `getphoto` finds, for any
index, lies inside the user attribute that it points into. -/
theorem photo_indexes_agree (key : PublicKey) :
    (∀ (i : Nat) (sp : SignedPacket), key.uids[i]? = some sp → sp.packet.tag = tagUat →
      ∃ idx : Nat, photoUat idx 0 0 key.uids = some (i, sp) ∧
        (getphoto key idx).run = (do let photo ← readPhoto sp.packet; return (i, photo)).run ∧
        (∀ (keyid2uid : Option (UInt64 → Option (List UInt8))) (past : Packet → Nat → UInt8)
          (sigsBuf : List SignedPacket → List UInt8) (buf : List UInt8) (keyid : UInt64)
          (verbose html : Bool), buf.length = 1024 → (∀ behind, (sigsBuf behind).length = 1024) →
          ∃ pieces sigs,
            keyIndexUids keyid2uid past sigsBuf buf keyid key verbose html = some pieces ∧
            listedSigs keyid2uid past sigsBuf verbose html (key.uids.drop i) sp = some sigs ∧
            pubLineUids key ≤ i ∧
            pieces[i - pubLineUids key]? = some (photoLine keyid verbose html idx sp ++ sigs)) ∧
        ∀ (keyid2uid : Option (UInt64 → Option (List UInt8))) (past : Packet → Nat → UInt8)
          (isoDate : Int → List UInt8) (verbose : Bool),
          ∃ (entries : List (Option Value)) (value : Value),
            otherUids keyid2uid past isoDate key verbose = .list (entries.filterMap id) ∧
            entries[i]? =
              some (if !verbose && signedpacketIsRevoked sp then none else some value) ∧
            mapGet (ascii "uat_index") (some value) = some (.int (Int64.ofNat idx))) ∧
    ∀ (index : Int) (pos : Nat) (photo : Photo),
      (getphoto key index).run = some (.ok (pos, photo)) →
      ∃ sp, key.uids[pos]? = some sp ∧ sp.packet.tag = tagUat ∧
        photo.offset + photo.length ≤ sp.packet.length := by
  refine ⟨fun i sp hsp huat => ?_, fun index pos photo h => getphoto_inside h⟩
  have hexamined := photoUat_eq 0 0 hsp huat
  rw [Nat.zero_add, Nat.zero_add] at hexamined
  refine ⟨countUats (key.uids.take i), hexamined, by rw [getphoto, hexamined], ?_, ?_⟩
  · intro keyid2uid past sigsBuf buf keyid verbose html hbuf hsigsBuf
    obtain ⟨hle, hcount⟩ := pubLineUids_le hsp huat
    obtain ⟨pieces, hpieces, -⟩ := listUidsLoop_isSome keyid2uid past keyid verbose html sigsBuf
      hsigsBuf (key.uids.drop (pubLineUids key)) 0 hbuf
    have htail : (key.uids.drop (pubLineUids key))[i - pubLineUids key]? = some sp := by
      rw [List.getElem?_drop, Nat.add_sub_cancel' hle]
      exact hsp
    obtain ⟨sigs, hsigs, hpiece⟩ :=
      listUidsLoop_uat keyid2uid past keyid verbose html sigsBuf hpieces htail huat
    rw [List.drop_drop, Nat.add_sub_cancel' hle] at hsigs
    rw [Nat.zero_add, hcount] at hpiece
    exact ⟨pieces, sigs, hpieces, hsigs, hle, hpiece⟩
  · intro keyid2uid past isoDate verbose
    have hentry := buildUidLoop_uat keyid2uid past isoDate (primaryUid key) verbose 0 0
      hsp huat (by rw [Nat.zero_add]; exact primaryUid_ne hsp huat)
    rw [Nat.zero_add] at hentry
    exact ⟨_, _, rfl, hentry, uidValue_index keyid2uid past isoDate huat _⟩

/-- An attribute with a photo of one octet. -/
def samplePhoto : SignedPacket :=
  ⟨⟨tagUat, true, [18, 1, 0x10, 0, 1, 1] ++ List.replicate 12 0 ++ [0xFF]⟩, []⟩

/-- A key with a user id and a photo. -/
def samplePhotoKey : PublicKey :=
  ⟨⟨tagPublickey, false, []⟩, false, [], [⟨⟨tagUid, true, ascii "a"⟩, []⟩, samplePhoto], []⟩

theorem photo_indexes_agree_sample :
    (∃ idx : Nat, photoUat idx 0 0 samplePhotoKey.uids = some (1, samplePhoto) ∧
      (getphoto samplePhotoKey idx).run = some (.ok (1, ⟨18, 1⟩)) ∧
      ∃ pieces sigs,
        keyIndexUids none (fun _ _ => 0) (fun _ => List.replicate 1024 0) (List.replicate 1024 0) 1
          samplePhotoKey false true = some pieces ∧
        pieces[1 - pubLineUids samplePhotoKey]? =
          some (photoLine 1 false true idx samplePhoto ++ sigs)) ∧
    ∃ sp, samplePhotoKey.uids[1]? = some sp ∧ sp.packet.tag = tagUat ∧ 18 + 1 ≤ sp.packet.length := by
  obtain ⟨hindex, hinside⟩ := photo_indexes_agree samplePhotoKey
  constructor
  · obtain ⟨idx, hexamined, hread, hlisted, -⟩ := hindex 1 samplePhoto rfl rfl
    obtain ⟨pieces, sigs, hpieces, -, -, hpiece⟩ :=
      hlisted none (fun _ _ => 0) (fun _ => List.replicate 1024 0) (List.replicate 1024 0) 1 false true
        List.length_replicate fun _ => List.length_replicate
    exact ⟨idx, hexamined, hread.trans (by decide), pieces, sigs, hpieces, hpiece⟩
  · exact hinside 0 1 ⟨18, 1⟩ (by decide)

end Onak
