import Onak.Proofs.StatsProofs
import Onak.Wotsap

/-!
# Proofs: lists of signers that were linked anew

`sortkeyll` changes a list of the cache behind its back. A hash in which some lists were changed behaves as
it did before, as long as the keys of these lists are not loaded again.
-/

namespace Onak

namespace Hash

/-- The hash with other lists of signers for some keys. -/
def withSigs (r : Nat → Option (List Nat)) (h : Hash) : Hash :=
  { h with node := fun a => { h.node a with sigs := (r a).getD (h.node a).sigs } }

section

variable {fetchKeyId : UInt64 → Option PublicKey} {r : Nat → Option (List Nat)} {h : Hash}

theorem withSigs_none (hr : ∀ a, r a = none) (h : Hash) : h.withSigs r = h := by
  unfold withSigs
  simp only [hr, Option.getD_none]

theorem findinhash_withSigs (keyid : UInt64) :
    (h.withSigs r).findinhash keyid = h.findinhash keyid := rfl

theorem createandaddtohash_withSigs (hr : r h.allocated = none) (keyid : UInt64) :
    (h.withSigs r).createandaddtohash keyid =
      ((h.createandaddtohash keyid).1.withSigs r, (h.createandaddtohash keyid).2) := by
  unfold createandaddtohash
  rw [findinhash_withSigs]
  cases h.findinhash keyid with
  | some a => rfl
  | none =>
    have hcreate : (h.withSigs r).create keyid = (h.create keyid).withSigs r := by
      unfold create withSigs
      simp only [Hash.mk.injEq, and_true]
      funext a
      by_cases ha : a = h.allocated
      · subst ha
        simp only [Function.update_self, hr, Option.getD_none]
      · simp only [Function.update_of_ne ha]
    simp only [hcreate]
    rfl

theorem le_createandaddtohash (h : Hash) (keyid : UInt64) :
    h.allocated ≤ (h.createandaddtohash keyid).1.allocated := by
  unfold createandaddtohash
  cases h.findinhash keyid with
  | some a => exact le_rfl
  | none => exact Nat.le_succ _

theorem getkeysigsLoop_withSigs (hr : ∀ a, h.allocated ≤ a → r a = none) (sigs : List Nat)
    (packets : List Packet) :
    getkeysigsLoop (h.withSigs r) sigs packets =
      ((getkeysigsLoop h sigs packets).1.withSigs r, (getkeysigsLoop h sigs packets).2) := by
  induction packets generalizing h sigs with
  | nil => rfl
  | cons cursig packets ih =>
    simp only [getkeysigsLoop, createandaddtohash_withSigs (hr _ le_rfl)]
    exact ih (fun a ha => hr a ((le_createandaddtohash h _).trans ha)) _

theorem getkeysigs_withSigs (hr : ∀ a, h.allocated ≤ a → r a = none) (keyid : UInt64) :
    getkeysigs fetchKeyId (h.withSigs r) keyid =
      ((getkeysigs fetchKeyId h keyid).1.withSigs r, (getkeysigs fetchKeyId h keyid).2) := by
  unfold getkeysigs
  cases fetchKeyId keyid with
  | none => rfl
  | some publickey => simp only [getkeysigsLoop_withSigs hr]

theorem fill_withSigs {key : Nat} (hkey : r key = none) (sigs : List Nat) (revoked : Bool) :
    (h.withSigs r).fill key sigs revoked = (h.fill key sigs revoked).withSigs r := by
  obtain ⟨halloc, htable, helements⟩ := fill_allocated h key sigs revoked
  obtain ⟨halloc', htable', helements'⟩ := fill_allocated (h.withSigs r) key sigs revoked
  have hnode : ((h.withSigs r).fill key sigs revoked).node =
      ((h.fill key sigs revoked).withSigs r).node := by
    funext a
    show _ = { (h.fill key sigs revoked).node a with
      sigs := (r a).getD ((h.fill key sigs revoked).node a).sigs }
    rw [fill_node, fill_node]
    by_cases ha : a = key
    · subst ha
      simp only [if_true, hkey, Option.getD_none, withSigs]
    · simp only [ha, if_false, withSigs]
  unfold withSigs at halloc' htable' helements' hnode ⊢
  simp only at halloc' htable' helements' hnode
  cases hfill : fill { h with node := fun a => { h.node a with sigs := (r a).getD (h.node a).sigs } }
      key sigs revoked with
  | mk node allocated hashtable elements =>
    rw [hfill] at halloc' htable' helements' hnode
    simp only at halloc' htable' helements' hnode
    rw [hnode, halloc', htable', helements', halloc, htable, helements]

theorem set_colour_idOf (h : Hash) (key colour : Nat) :
    (h.set key { h.node key with colour }).idOf = h.idOf := set_idOf rfl

theorem set_colour_withSigs (key colour : Nat) :
    (h.withSigs r).set key { (h.withSigs r).node key with colour } =
      (h.set key { h.node key with colour }).withSigs r := by
  unfold set withSigs
  simp only [Hash.mk.injEq, and_true]
  funext a
  by_cases ha : a = key
  · subst ha
    simp only [Function.update_self]
  · simp only [Function.update_of_ne ha]

/-- A key whose list was not changed is loaded as before. -/
theorem cachedGetkeysigs_withSigs (hc : h.Consistent fetchKeyId)
    (hr : ∀ a, h.allocated ≤ a → r a = none) {keyid : UInt64}
    (hkey : ∀ a < h.allocated, h.idOf a = keyid → r a = none) :
    cachedGetkeysigs fetchKeyId (h.withSigs r) keyid =
      ((cachedGetkeysigs fetchKeyId h keyid).1.withSigs r,
        (cachedGetkeysigs fetchKeyId h keyid).2) := by
  unfold cachedGetkeysigs
  by_cases hzero : keyid = 0
  · simp only [hzero, if_true]
  simp only [hzero, if_false, findinhash_withSigs]
  have hgot : (fun a => ((h.withSigs r).node a).gotsigs) = fun a => (h.node a).gotsigs := rfl
  rw [hgot]
  cases hfilter : (h.findinhash keyid).filter fun a => (h.node a).gotsigs with
  | some a =>
    obtain ⟨ha, hid⟩ := of_findinhash hc (Option.filter_eq_some_iff.mp hfilter).1
    have hsigs : ((h.withSigs r).node a).sigs = (h.node a).sigs := by
      simp only [withSigs, hkey a ha hid, Option.getD_none]
    simp only [hsigs]
  | none =>
    obtain ⟨⟨h₁, sigs, revoked⟩, hget⟩ : ∃ x, getkeysigs fetchKeyId h keyid = x := ⟨_, rfl⟩
    obtain ⟨hc₁, hg₁, -, -⟩ := hc.getkeysigs hget
    simp only [getkeysigs_withSigs hr, hget]
    split_ifs with hnil
    · rfl
    · cases hfind : h.findinhash keyid with
      | some a =>
        obtain ⟨ha, hid⟩ := of_findinhash hc hfind
        simp only [fill_withSigs (hkey a ha hid)]
      | none =>
        obtain ⟨⟨h₂, a⟩, hcreate⟩ : ∃ x, h₁.createandaddtohash keyid = x := ⟨_, rfl⟩
        obtain ⟨hc₂, hg₂, ha, hid⟩ := hc₁.createandaddtohash hcreate
        -- it was not in the hash
        have hnone : r a = none := by
          rcases Nat.lt_or_ge a h.allocated with hlt | hge
          · have hida := (hg₁.trans hg₂).idOf_eq hlt
            exact absurd (hida.symm.trans hid) ((findinhash_eq_none hc).mp hfind a hlt)
          · exact hr a hge
        simp only [createandaddtohash_withSigs (hr _ hg₁.le), hcreate, fill_withSigs hnone]

/-- `sortkeyll` changes the list of one key. -/
theorem sortSigs_withSigs (hc : h.Consistent fetchKeyId) {key : Nat} (hkey : key < h.allocated)
    (sigll : List Nat) :
    ∃ l, (h.withSigs r).sortSigs (h.idOf key) sigll =
      (h.withSigs (Function.update r key l), h.sortkeyll sigll) := by
  have hfind : (h.withSigs r).findinhash (h.idOf key) = some key :=
    (findinhash_eq_some hc).mpr ⟨hkey, rfl⟩
  have hsort : (h.withSigs r).sortkeyll sigll = h.sortkeyll sigll := rfl
  cases sigll with
  | nil =>
    refine ⟨r key, ?_⟩
    rw [Function.update_eq_self]
    rfl
  | cons first sigll =>
    refine ⟨some ((h.sortkeyll (first :: sigll)).dropWhile fun cell => cell ≠ first), ?_⟩
    unfold sortSigs
    simp only [hfind, hsort]
    refine Prod.ext ?_ rfl
    unfold set withSigs
    simp only [Hash.mk.injEq, and_true]
    funext a
    by_cases ha : a = key
    · subst ha
      simp only [Function.update_self, Option.getD_some]
    · simp only [Function.update_of_ne ha]

end

end Hash

end Onak
