import Onak.Proofs.DegreeProofs
import Onak.Proofs.RelinkProofs

/-!
# Proofs: the archive for wotsap

A key is numbered at the time when it is hung behind the pending keys, and it is numbered once. So the keys
that are written are those that are found from the first one, each with its place among them, and the record
of a key is about the keys that have a place when it is written: no other signer of the key gets one later.
-/

namespace Onak

namespace Wotsap

open Hash

/-! ## What is to be written -/

section

variable (fetchKeyId : UInt64 → Option PublicKey) (printNull : Option (List UInt8)) (src : UInt64)

/-- A key that is numbered when it is found: it has a name, and is not found to be revoked. Of a key
without signatures that is not found out. -/
def Counts (keyid : UInt64) : Prop :=
  keyid2uid fetchKeyId keyid ≠ none ∧
    ¬ (signers fetchKeyId keyid ≠ [] ∧ storedRevoked fetchKeyId keyid = true)

/-- The keys that are found from the first one over signatures. -/
inductive Reached : UInt64 → Prop
  | start : Reached src
  | step {keyid signer : UInt64} : Reached keyid → signer ∈ signers fetchKeyId keyid →
      Counts fetchKeyId signer → Reached signer

/-- What is printed as the name of a key. -/
def nameText (keyid : UInt64) : Option (List UInt8) := (keyid2uid fetchKeyId keyid).or printNull

/-- The line of a key in `names`. -/
def nameRecord (keyid : UInt64) : List UInt8 :=
  (nameText fetchKeyId printNull keyid).getD [] ++ [10]

/-- The record of a key in `keys`. -/
def keyRecord (keyid : UInt64) : List UInt8 := htonl (keyid.toNat % 2 ^ 32)

/-- The record of a key in `signatures`: a count, and so many indices with a mark. -/
def sigRecord (indices : List Nat) : List UInt8 :=
  htonl indices.length ++ indices.flatMap fun i => htonl (i ||| 0x40000000)

/-- The record is about the signers of a key among the keys `keyids`. -/
structure RecordOf (keyids : List UInt64) (keyid : UInt64) (indices : List Nat) : Prop where
  nodup : indices.Nodup
  signs : ∀ i ∈ indices, ∃ signer ∈ signers fetchKeyId keyid, keyids[i]? = some signer
  all : ∀ signer ∈ signers fetchKeyId keyid, signer = src ∨ Counts fetchKeyId signer →
    ∃ i ∈ indices, keyids[i]? = some signer

/-- What has been written: the keys `written` in this order, and the first of their records. The lists of
the keys in `changed` are in another order in the cache than the hash `h` has them. -/
structure Writing (changed : List Nat) (h : Hash) (r : Nat → Option (List Nat)) (written : List Nat)
    (records : List (List Nat)) (s : State) : Prop where
  consistent : h.Consistent fetchKeyId
  hash_eq : s.hash = h.withSigs r
  unchanged : ∀ a, a ∉ changed → r a = none
  changed_sub : ∀ a ∈ changed, a ∈ written
  lt : ∀ a ∈ written, a < h.allocated
  nodup : (written.map h.idOf).Nodup
  head : (written.map h.idOf).head? = some src
  pending_eq : s.pending = written.drop records.length
  curidx_eq : s.curidx = written.length
  colour : ∀ k, h.colourOf k =
    if k ∈ written.map h.idOf then (written.map h.idOf).idxOf k + 1 else 0
  revoked : ∀ k, (h.lookup k).revoked = true → signers fetchKeyId k ≠ []
  reached : ∀ k ∈ written.map h.idOf, Reached fetchKeyId src k
  named : ∀ k ∈ written.map h.idOf, nameText fetchKeyId printNull k ≠ none
  names_eq : s.names = (written.map h.idOf).flatMap (nameRecord fetchKeyId printNull)
  keys_eq : s.keys = (written.map h.idOf).flatMap keyRecord
  sigs_eq : s.sigs = records.flatMap sigRecord
  le : records.length ≤ written.length
  record : ∀ (i : Nat) k indices, (written.map h.idOf)[i]? = some k → records[i]? = some indices →
    RecordOf fetchKeyId src (written.map h.idOf) k indices

end

section

variable {fetchKeyId : UInt64 → Option PublicKey} {printNull : Option (List UInt8)} {src : UInt64}
  {changed : List Nat} {h : Hash} {r : Nat → Option (List Nat)} {written : List Nat}
  {records : List (List Nat)} {s : State}

/-! ## The keys that are numbered -/

theorem Reached.eq_or_counts {keyid : UInt64} (hk : Reached fetchKeyId src keyid) :
    keyid = src ∨ Counts fetchKeyId keyid := by
  cases hk with
  | start => exact .inl rfl
  | step _ _ hcounts => exact .inr hcounts

theorem Writing.src_mem (hw : Writing fetchKeyId printNull src changed h r written records s) :
    src ∈ written.map h.idOf := by
  obtain ⟨tail, htail⟩ := List.head?_eq_some_iff.mp hw.head
  rw [htail]
  exact List.mem_cons_self

theorem Writing.colour_eq_zero (hw : Writing fetchKeyId printNull src changed h r written records s)
    {a : Nat} (ha : a < h.allocated) :
    (s.hash.node a).colour = 0 ↔ h.idOf a ∉ written.map h.idOf := by
  have hcolour : (s.hash.node a).colour = h.colourOf (h.idOf a) := by
    rw [colourOf_idOf hw.consistent ha, hw.hash_eq]
    rfl
  rw [hcolour, hw.colour]
  split_ifs with hmem
  · simp [hmem]
  · simp [hmem]

/-- A key that is revoked before it is loaded does not count. -/
theorem Writing.not_counts (hw : Writing fetchKeyId printNull src changed h r written records s)
    {a : Nat} (ha : a < h.allocated) (hrevoked : (h.node a).revoked = true) :
    ¬ Counts fetchKeyId (h.idOf a) := by
  rintro ⟨-, hcounts⟩
  refine hcounts ⟨hw.revoked _ (by rw [lookup_idOf hw.consistent ha]; exact hrevoked), ?_⟩
  rw [hw.consistent.revoked_eq a ha] at hrevoked
  exact (Bool.and_eq_true_iff.mp hrevoked).2

theorem getElem?_of_isPrefix {α : Type} {l l' : List α} (hfront : l <+: l') {i : Nat} {a : α}
    (h : l[i]? = some a) : l'[i]? = some a := by
  obtain ⟨hi, rfl⟩ := List.getElem?_eq_some_iff.mp h
  exact List.prefix_iff_getElem?.mp hfront i hi

/-- A record stays right when more keys are numbered. -/
theorem RecordOf.append {keyids : List UInt64} {keyid : UInt64} {indices : List Nat}
    (hr : RecordOf fetchKeyId src keyids keyid indices) (more : List UInt64) :
    RecordOf fetchKeyId src (keyids ++ more) keyid indices := by
  have hfront : keyids <+: keyids ++ more := List.prefix_append _ _
  refine ⟨hr.nodup, fun i hi => ?_, fun signer hsigner hcounts => ?_⟩
  · obtain ⟨signer, hsigner, hat⟩ := hr.signs i hi
    exact ⟨signer, hsigner, getElem?_of_isPrefix hfront hat⟩
  · obtain ⟨i, hi, hat⟩ := hr.all signer hsigner hcounts
    exact ⟨i, hi, getElem?_of_isPrefix hfront hat⟩

/-- The keys that are written have the same key ids in a later hash. -/
theorem Writing.ids_eq (hw : Writing fetchKeyId printNull src changed h r written records s) {h' : Hash}
    (hext : Hash.Extends h h') : written.map h'.idOf = written.map h.idOf :=
  List.map_congr_left fun a ha => hext.idOf_eq a (hw.lt a ha)

/-- A later hash in which the same keys have the same colours. -/
theorem Writing.extend (hw : Writing fetchKeyId printNull src changed h r written records s)
    {h' : Hash} (hc : h'.Consistent fetchKeyId) (hext : Hash.Extends h h')
    (hcolour : ∀ k, h'.colourOf k = h.colourOf k)
    (hrevoked : ∀ k, (h'.lookup k).revoked = true → signers fetchKeyId k ≠ []) :
    Writing fetchKeyId printNull src changed h' r written records { s with hash := h'.withSigs r } := by
  have hids := hw.ids_eq hext
  exact
    { hw with
      consistent := hc
      hash_eq := rfl
      lt := fun a ha => (hw.lt a ha).trans_le hext.le
      nodup := hids ▸ hw.nodup
      head := hids ▸ hw.head
      colour := fun k => by
        rw [hcolour, hids]
        exact hw.colour k
      revoked := hrevoked
      reached := hids ▸ hw.reached
      named := hids ▸ hw.named
      names_eq := hids ▸ hw.names_eq
      keys_eq := hids ▸ hw.keys_eq
      record := hids ▸ hw.record }

/-- A key whose list is as it was when it was loaded may be loaded again. -/
theorem Writing.load (hw : Writing fetchKeyId printNull src changed h r written records s) {a : Nat}
    (ha : a < h.allocated) (hchanged : a ∉ changed) :
    ∃ h' sigs, cachedGetkeysigs fetchKeyId s.hash (h.idOf a) = (h'.withSigs r, sigs) ∧
      Hash.Extends h h' ∧
      Writing fetchKeyId printNull src changed h' r written records
        { s with hash := h'.withSigs r } ∧
      (∀ b ∈ sigs, b < h'.allocated) ∧ sigs.map h'.idOf = signers fetchKeyId (h.idOf a) ∧
      ((h'.node a).revoked = true ↔
        signers fetchKeyId (h.idOf a) ≠ [] ∧ storedRevoked fetchKeyId (h.idOf a) = true) := by
  obtain ⟨⟨h', sigs⟩, hcall⟩ : ∃ x, cachedGetkeysigs fetchKeyId h (h.idOf a) = x := ⟨_, rfl⟩
  obtain ⟨hc', hloads, hsettled, hlt, hmap⟩ := hw.consistent.cachedGetkeysigs hcall
  have hrevoked : ∀ k, (h'.lookup k).revoked = true → signers fetchKeyId k ≠ [] := by
    intro k hk
    by_cases hother : k ≠ h.idOf a ∨ h.Settled fetchKeyId k
    · rw [hloads.revoked k hother] at hk
      exact hw.revoked k hk
    · exact fun hnil => hother (.inr (.inl hnil))
  have hid : h'.idOf a = h.idOf a := hloads.idOf_eq a ha
  have ha' : a < h'.allocated := ha.trans_le hloads.le
  have hlookup : h'.lookup (h.idOf a) = h'.node a := by
    rw [← hid]
    exact lookup_idOf hc' ha'
  refine ⟨h', sigs, ?_, hloads.extends, hw.extend hc' hloads.extends hloads.colour hrevoked, hlt, hmap, ?_⟩
  · have hnew : ∀ b, h.allocated ≤ b → r b = none := fun b hb => hw.unchanged b fun hmem =>
      absurd (hw.lt b (hw.changed_sub b hmem)) (Nat.not_lt.mpr hb)
    have hsame : ∀ b < h.allocated, h.idOf b = h.idOf a → r b = none := by
      intro b hb heq
      rw [hw.consistent.unique b hb a ha heq]
      exact hw.unchanged a hchanged
    rw [hw.hash_eq, cachedGetkeysigs_withSigs hw.consistent hnew hsame, hcall]
  · have hequal := hc'.revoked_eq a ha'
    rw [hid] at hequal
    constructor
    · intro hyes
      refine ⟨hrevoked _ (by rw [hlookup]; exact hyes), ?_⟩
      rw [hequal] at hyes
      exact (Bool.and_eq_true_iff.mp hyes).2
    · rintro ⟨hne, hstored⟩
      rcases hsettled with hnil | hgot
      · exact absurd hnil hne
      · rw [hlookup] at hgot
        rw [hequal, hgot, hstored]
        rfl

/-- The numbers of the keys of a list, behind which one more key is hung. -/
theorem number_append {keyids : List UInt64} {new : UInt64} (hnew : new ∉ keyids) (k : UInt64) :
    (if k ∈ keyids ++ [new] then (keyids ++ [new]).idxOf k + 1 else 0) =
      if k = new then keyids.length + 1 else if k ∈ keyids then keyids.idxOf k + 1 else 0 := by
  by_cases hk : k = new
  · rw [hk, if_pos rfl, if_pos (List.mem_append_right _ (List.mem_singleton_self _)),
      List.idxOf_append_of_notMem hnew, List.idxOf_cons_self, Nat.add_zero]
  · have hmem : k ∈ keyids ++ [new] ↔ k ∈ keyids := by simp [hk]
    rw [if_neg hk]
    by_cases hin : k ∈ keyids
    · rw [if_pos hin, if_pos (hmem.mpr hin), List.idxOf_append_of_mem hin]
    · rw [if_neg hin, if_neg fun hc => hin (hmem.mp hc)]

/-- A key gets the next number. -/
theorem Writing.number (hw : Writing fetchKeyId printNull src changed h r written records s) {a : Nat}
    (ha : a < h.allocated) (hnew : h.idOf a ∉ written.map h.idOf)
    (hreached : Reached fetchKeyId src (h.idOf a)) {uid : List UInt8}
    (hname : nameText fetchKeyId printNull (h.idOf a) = some uid) :
    ∃ s', outputKey fetchKeyId printNull (h.idOf a)
        { s with
          hash := s.hash.set a { s.hash.node a with colour := s.curidx + 1 }
          curidx := s.curidx + 1
          pending := s.pending ++ [a] } = some s' ∧
      Writing fetchKeyId printNull src changed (h.set a { h.node a with colour := s.curidx + 1 }) r
        (written ++ [a]) records s' := by
  have hsame : SameEdges (h.node a) { h.node a with colour := s.curidx + 1 } :=
    ⟨rfl, rfl, rfl, rfl, rfl⟩
  have hids : (written ++ [a]).map (h.set a { h.node a with colour := s.curidx + 1 }).idOf =
      written.map h.idOf ++ [h.idOf a] := by
    rw [set_colour_idOf, List.map_append, List.map_singleton]
  have hname' : (keyid2uid fetchKeyId (h.idOf a)).or printNull = some uid := hname
  refine ⟨_, by rw [outputKey, hname']; rfl, ?_⟩
  exact
    { consistent := hw.consistent.set hsame
      hash_eq := by
        rw [hw.hash_eq]
        exact set_colour_withSigs a _
      unchanged := hw.unchanged
      changed_sub := fun b hb => List.mem_append_left _ (hw.changed_sub b hb)
      lt := List.forall_mem_append.mpr ⟨hw.lt, List.forall_mem_singleton.mpr ha⟩
      nodup := by
        rw [hids]
        exact List.nodup_append.mpr ⟨hw.nodup, List.nodup_singleton _, fun k hk k' hk' heq =>
          hnew (List.mem_singleton.mp hk' ▸ heq ▸ hk)⟩
      head := by
        rw [hids, List.head?_append, hw.head]
        rfl
      pending_eq := by
        rw [hw.pending_eq, List.drop_append_of_le_length hw.le]
      curidx_eq := by
        rw [hw.curidx_eq, List.length_append, List.length_singleton]
      colour := fun k => by
        rw [hids, number_append hnew, ← hw.colour, List.length_map, ← hw.curidx_eq]
        unfold colourOf
        rw [hw.consistent.lookup_set ha hsame]
        split_ifs <;> rfl
      revoked := fun k hk => by
        rw [hw.consistent.lookup_set ha hsame] at hk
        split_ifs at hk with hka
        · refine hka ▸ hw.revoked _ ?_
          rw [lookup_idOf hw.consistent ha]
          exact hk
        · exact hw.revoked k hk
      reached := by
        rw [hids]
        exact List.forall_mem_append.mpr ⟨hw.reached, List.forall_mem_singleton.mpr hreached⟩
      named := by
        rw [hids]
        exact List.forall_mem_append.mpr
          ⟨hw.named, List.forall_mem_singleton.mpr (hname ▸ Option.some_ne_none uid)⟩
      names_eq := by
        rw [hids, List.flatMap_append, ← hw.names_eq, List.flatMap_singleton, nameRecord, hname]
        rfl
      keys_eq := by
        rw [hids, List.flatMap_append, ← hw.keys_eq, List.flatMap_singleton]
        rfl
      sigs_eq := hw.sigs_eq
      le := by
        rw [List.length_append]
        exact hw.le.trans (Nat.le_add_right _ _)
      record := by
        rw [hids]
        intro i k indices hk hindices
        have hi : i < (written.map h.idOf).length := by
          rw [List.length_map]
          exact (List.getElem?_eq_some_iff.mp hindices).1.trans_le hw.le
        rw [List.getElem?_append_left hi] at hk
        exact (hw.record i k indices hk hindices).append _ }

/-! ## The signers of a key -/

/-- After a signer was looked at it has a number if it should have one. -/
theorem Writing.addSigner (hw : Writing fetchKeyId printNull src changed h r written records s)
    {addkey : Nat} (ha : addkey < h.allocated) {keyid : UInt64} (hkey : keyid ∈ written.map h.idOf)
    (hsigner : h.idOf addkey ∈ signers fetchKeyId keyid) :
    ∃ s' h' written', addSigner fetchKeyId printNull s addkey = some s' ∧
      Writing fetchKeyId printNull src changed h' r written' records s' ∧ Hash.Extends h h' ∧
      written <+: written' ∧
      (h.idOf addkey = src ∨ Counts fetchKeyId (h.idOf addkey) →
        h.idOf addkey ∈ written'.map h'.idOf) := by
  have hnode : s.hash.node addkey = (h.withSigs r).node addkey := by rw [hw.hash_eq]
  have hkeyid : (s.hash.node addkey).keyid = h.idOf addkey := by rw [hnode]; rfl
  have hrev : (s.hash.node addkey).revoked = (h.node addkey).revoked := by rw [hnode]; rfl
  -- nothing is done for a key that has a number or does not count
  have hsame : (h.idOf addkey ∉ written.map h.idOf → ¬ Counts fetchKeyId (h.idOf addkey)) →
      h.idOf addkey = src ∨ Counts fetchKeyId (h.idOf addkey) → h.idOf addkey ∈ written.map h.idOf := by
    intro hnot hcounts
    by_contra hnew
    rcases hcounts with heq | hcounts
    · exact hnew (heq ▸ hw.src_mem)
    · exact hnot hnew hcounts
  unfold Wotsap.addSigner
  simp only [hkeyid, hrev]
  by_cases hlook : (s.hash.node addkey).colour = 0 ∧ (h.node addkey).revoked = false
  · obtain ⟨hcolour, hrevoked⟩ := hlook
    have hnew := (hw.colour_eq_zero ha).mp hcolour
    rw [if_pos ⟨hcolour, hrevoked⟩]
    cases huid : keyid2uid fetchKeyId (h.idOf addkey) with
    | none =>
      exact ⟨s, h, written, rfl, hw, .refl h, List.prefix_refl _, hsame fun _ hcounts => hcounts.1 huid⟩
    | some uid =>
      have hchanged : addkey ∉ changed := fun hmem =>
        hnew (List.mem_map_of_mem (hw.changed_sub _ hmem))
      obtain ⟨h', sigs, hload, hext, hw', -, -, hrevoked'⟩ := hw.load ha hchanged
      have hid : h'.idOf addkey = h.idOf addkey := hext.idOf_eq addkey ha
      have hids := hw.ids_eq hext
      have hrevoked'' : ((h'.withSigs r).node addkey).revoked = (h'.node addkey).revoked := rfl
      simp only [hload, hrevoked'']
      by_cases hbad : (h'.node addkey).revoked = true
      · rw [if_pos hbad]
        refine ⟨_, h', written, rfl, hw', hext, List.prefix_refl _, ?_⟩
        rw [hids]
        exact hsame fun _ hcounts => hcounts.2 (hrevoked'.mp hbad)
      · rw [if_neg hbad]
        have hcounts : Counts fetchKeyId (h.idOf addkey) :=
          ⟨by rw [huid]; exact nofun, fun hc => hbad (hrevoked'.mpr hc)⟩
        have hreached : Reached fetchKeyId src (h'.idOf addkey) :=
          hid ▸ .step (hw.reached keyid hkey) hsigner hcounts
        have hname : nameText fetchKeyId printNull (h'.idOf addkey) = some uid := by
          rw [hid, nameText, huid]
          rfl
        obtain ⟨s', hout, hw''⟩ := hw'.number (ha.trans_le hext.le) (by rwa [hids, hid]) hreached hname
        rw [hid] at hout
        refine ⟨s', _, written ++ [addkey], hout, hw'', ?_, List.prefix_append _ _, fun _ => ?_⟩
        · have hset : Hash.Extends h' (h'.set addkey { h'.node addkey with colour := s.curidx + 1 }) :=
            ⟨le_rfl, fun b _ => congrFun (set_colour_idOf h' addkey _) b⟩
          exact hext.trans hset
        · rw [set_colour_idOf, List.map_append, ← hid]
          exact List.mem_append_right _ (List.mem_singleton_self _)
  · rw [if_neg hlook]
    refine ⟨s, h, written, rfl, hw, .refl h, List.prefix_refl _, hsame fun hnew => ?_⟩
    have hcolour := (hw.colour_eq_zero ha).mpr hnew
    refine hw.not_counts ha ?_
    by_contra hrevoked
    exact hlook ⟨hcolour, (Bool.not_eq_true _).mp hrevoked⟩

theorem Writing.mem_of_isPrefix (hw : Writing fetchKeyId printNull src changed h r written records s)
    {h' : Hash} (hext : Hash.Extends h h') {written' : List Nat} (hfront : written <+: written') {k : UInt64}
    (hk : k ∈ written.map h.idOf) : k ∈ written'.map h'.idOf := by
  obtain ⟨a, ha, rfl⟩ := List.mem_map.mp hk
  exact List.mem_map.mpr ⟨a, hfront.subset ha, hext.idOf_eq a (hw.lt a ha)⟩

/-- The count is the number of signers that have a number in the end, and these are all that should have
one. -/
theorem Writing.countSigs (hw : Writing fetchKeyId printNull src changed h r written records s)
    {sigll : List Nat} (hlt : ∀ a ∈ sigll, a < h.allocated) {keyid : UInt64}
    (hkey : keyid ∈ written.map h.idOf) (hsigners : ∀ a ∈ sigll, h.idOf a ∈ signers fetchKeyId keyid)
    (sigcount : Nat) :
    ∃ s' h' written', countSigs fetchKeyId printNull sigll sigcount s =
        some (sigcount + (sigll.filter fun a => (s'.hash.node a).colour ≠ 0).length, s') ∧
      Writing fetchKeyId printNull src changed h' r written' records s' ∧ Hash.Extends h h' ∧
      written <+: written' ∧
      ∀ a ∈ sigll, h.idOf a = src ∨ Counts fetchKeyId (h.idOf a) →
        h.idOf a ∈ written'.map h'.idOf := by
  induction sigll generalizing s h written sigcount with
  | nil => exact ⟨s, h, written, rfl, hw, .refl h, List.prefix_refl _, fun a ha => absurd ha List.not_mem_nil⟩
  | cons addkey sigll ih =>
    have ha := hlt addkey List.mem_cons_self
    obtain ⟨s₁, h₁, written₁, hadd, hw₁, hext₁, hfront₁, hall₁⟩ :=
      hw.addSigner ha hkey (hsigners addkey List.mem_cons_self)
    have hid₁ : ∀ a ∈ addkey :: sigll, h₁.idOf a = h.idOf a := fun a ha => hext₁.idOf_eq a (hlt a ha)
    have hlt₁ : ∀ a ∈ sigll, a < h₁.allocated := fun a ha =>
      (hlt a (List.mem_cons_of_mem _ ha)).trans_le hext₁.le
    have hsigners₁ : ∀ a ∈ sigll, h₁.idOf a ∈ signers fetchKeyId keyid := fun a ha =>
      hid₁ a (List.mem_cons_of_mem _ ha) ▸ hsigners a (List.mem_cons_of_mem _ ha)
    obtain ⟨s', h', written', hcount, hw', hext', hfront', hall'⟩ :=
      ih hw₁ hlt₁ (hw.mem_of_isPrefix hext₁ hfront₁ hkey) hsigners₁
        (if (s₁.hash.node addkey).colour ≠ 0 then sigcount + 1 else sigcount)
    have ha₁ : addkey < h₁.allocated := ha.trans_le hext₁.le
    have hid' : h'.idOf addkey = h₁.idOf addkey := hext'.idOf_eq addkey ha₁
    -- the later signers give this one no number
    have hcolour : (s'.hash.node addkey).colour = 0 ↔ (s₁.hash.node addkey).colour = 0 := by
      rw [hw'.colour_eq_zero (ha₁.trans_le hext'.le), hw₁.colour_eq_zero ha₁, not_iff_not, hid']
      constructor
      · intro hmem
        rw [hid₁ addkey List.mem_cons_self] at hmem ⊢
        exact hall₁ (hw'.reached _ hmem).eq_or_counts
      · exact hw₁.mem_of_isPrefix hext' hfront'
    refine ⟨s', h', written', ?_, hw', hext₁.trans hext', hfront₁.trans hfront', ?_⟩
    · simp only [Wotsap.countSigs, hadd, Option.bind_eq_bind, Option.bind_some, hcount]
      by_cases hzero : (s₁.hash.node addkey).colour = 0
      · simp [hzero, hcolour.mpr hzero]
      · have hzero' : (s'.hash.node addkey).colour ≠ 0 := fun hc => hzero (hcolour.mp hc)
        simp [hzero, hzero']
        omega
    · intro a hmem hcounts
      rcases List.mem_cons.mp hmem with rfl | hmem'
      · rw [← hid₁ a hmem]
        exact hw₁.mem_of_isPrefix hext' hfront' (hid₁ a hmem ▸ hall₁ hcounts)
      · rw [← hid₁ a hmem] at hcounts ⊢
        exact hall' a hmem' hcounts

/-! ## Records -/

theorem Writing.relink (hw : Writing fetchKeyId printNull src changed h r written records s) {a : Nat}
    (ha : a ∈ written) (l : Option (List Nat)) :
    Writing fetchKeyId printNull src (a :: changed) h (Function.update r a l) written records
      { s with hash := h.withSigs (Function.update r a l) } := by
  exact
    { hw with
      hash_eq := rfl
      unchanged := fun b hb => by
        obtain ⟨hne, hb⟩ := not_or.mp (mt List.mem_cons.mpr hb)
        rw [Function.update_of_ne hne]
        exact hw.unchanged b hb
      changed_sub := List.forall_mem_cons.mpr ⟨ha, hw.changed_sub⟩ }

/-- The indices of the keys of a list that have a number. -/
def indicesOf (h : Hash) (sigll : List Nat) : List Nat :=
  (sigll.filter fun a => (h.node a).colour ≠ 0).map fun a => (h.node a).colour - 1

theorem entries_eq (h : Hash) (sigll : List Nat) :
    entries h sigll = (indicesOf h sigll).flatMap fun i => htonl (i ||| 0x40000000) := by
  unfold entries indicesOf
  rw [List.flatMap_map]

/-- A key with a number is at its index. -/
theorem Writing.getElem?_index (hw : Writing fetchKeyId printNull src changed h r written records s)
    {a : Nat} (ha : a < h.allocated) (hcolour : (s.hash.node a).colour ≠ 0) :
    (written.map h.idOf)[(s.hash.node a).colour - 1]? = some (h.idOf a) := by
  have hmem : h.idOf a ∈ written.map h.idOf := by
    by_contra hnot
    exact hcolour ((hw.colour_eq_zero ha).mpr hnot)
  have heq : (s.hash.node a).colour = h.colourOf (h.idOf a) := by
    rw [colourOf_idOf hw.consistent ha, hw.hash_eq]
    rfl
  rw [heq, hw.colour, if_pos hmem, Nat.add_sub_cancel]
  exact List.getElem?_idxOf hmem

/-- The record of a key, from its signers without repetitions. -/
theorem Writing.recordOf (hw : Writing fetchKeyId printNull src changed h r written records s)
    {sigll : List Nat} (hlt : ∀ a ∈ sigll, a < h.allocated) (hnodup : sigll.Nodup) {keyid : UInt64}
    (hsigners : ∀ k, k ∈ sigll.map h.idOf ↔ k ∈ signers fetchKeyId keyid)
    (hall : ∀ a ∈ sigll, h.idOf a = src ∨ Counts fetchKeyId (h.idOf a) → h.idOf a ∈ written.map h.idOf) :
    RecordOf fetchKeyId src (written.map h.idOf) keyid (indicesOf s.hash sigll) := by
  have hfilter : ∀ a ∈ sigll.filter fun a => (s.hash.node a).colour ≠ 0,
      a ∈ sigll ∧ (s.hash.node a).colour ≠ 0 := fun a ha => by simpa using ha
  refine ⟨?_, fun i hi => ?_, fun signer hsigner hcounts => ?_⟩
  · refine (hnodup.filter _).map_on fun a ha b hb heq => ?_
    obtain ⟨ha, hca⟩ := hfilter a ha
    obtain ⟨hb, hcb⟩ := hfilter b hb
    have hida := hw.getElem?_index (hlt a ha) hca
    rw [heq, hw.getElem?_index (hlt b hb) hcb] at hida
    exact hw.consistent.unique a (hlt a ha) b (hlt b hb) (Option.some.inj hida).symm
  · obtain ⟨a, ha, rfl⟩ := List.mem_map.mp hi
    obtain ⟨ha, hca⟩ := hfilter a ha
    exact ⟨h.idOf a, (hsigners _).mp (List.mem_map_of_mem ha), hw.getElem?_index (hlt a ha) hca⟩
  · obtain ⟨a, ha, rfl⟩ := List.mem_map.mp ((hsigners signer).mpr hsigner)
    have hcolour : (s.hash.node a).colour ≠ 0 := fun hzero =>
      (hw.colour_eq_zero (hlt a ha)).mp hzero (hall a ha hcounts)
    refine ⟨_, List.mem_map_of_mem (List.mem_filter.mpr ⟨ha, by simpa using hcolour⟩), ?_⟩
    exact hw.getElem?_index (hlt a ha) hcolour

/-- What is sorted are the same keys, each of them once. -/
theorem sortkeyll_spec (h : Hash) (sigs : List Nat) :
    (h.sortkeyll sigs).Nodup ∧ (∀ a ∈ h.sortkeyll sigs, a ∈ sigs) ∧
      ∀ k, k ∈ (h.sortkeyll sigs).map h.idOf ↔ k ∈ sigs.map h.idOf := by
  obtain ⟨hsorted, hsub, hkeys⟩ := KeyedSort.sort_spec (fun key => (h.node key).keyid.toNat) sigs
  refine ⟨hsorted.nodup_keys.of_map _, hsub, fun k => ⟨fun hk => ?_, fun hk => ?_⟩⟩
  · obtain ⟨a, ha, rfl⟩ := List.mem_map.mp hk
    exact List.mem_map_of_mem (hsub a ha)
  · obtain ⟨a, ha, rfl⟩ := List.mem_map.mp hk
    obtain ⟨z, hz, heq⟩ := hkeys a ha
    have hid : h.idOf z = h.idOf a := UInt64.toNat_inj.mp heq
    exact hid ▸ List.mem_map_of_mem hz

/-! ## The pending keys -/

/-- Only lists of keys were linked anew whose records are written. -/
def ChangedBefore (changed written : List Nat) (n : Nat) : Prop :=
  ∀ a ∈ changed, ∃ i < n, written[i]? = some a

/-- The list of a key whose record is not written is as it was when it was loaded. -/
theorem ChangedBefore.not_mem {n : Nat} (hchanged : ChangedBefore changed written n)
    (hnodup : written.Nodup) {a : Nat} (ha : written[n]? = some a) : a ∉ changed := by
  intro hin
  obtain ⟨i, hi, hat⟩ := hchanged a hin
  have hinj := (List.getElem?_inj (List.getElem?_eq_some_iff.mp hat).1 hnodup).mp (hat.trans ha.symm)
  omega

theorem ChangedBefore.next {n : Nat} (hchanged : ChangedBefore changed written n) {written' : List Nat}
    (hfront : written <+: written') {a : Nat} (ha : written'[n]? = some a) :
    ChangedBefore (a :: changed) written' (n + 1) := by
  intro b hb
  rcases List.mem_cons.mp hb with rfl | hb
  · exact ⟨n, Nat.lt_succ_self n, ha⟩
  · obtain ⟨i, hi, hat⟩ := hchanged b hb
    exact ⟨i, Nat.lt_succ_of_lt hi, getElem?_of_isPrefix hfront hat⟩

/-- The record of the next key is written. -/
theorem Writing.writeRecord (hw : Writing fetchKeyId printNull src changed h r written records s)
    {curkey : Nat} (hcur : written[records.length]? = some curkey) {sigll : List Nat}
    (hrecord : RecordOf fetchKeyId src (written.map h.idOf) (h.idOf curkey) (indicesOf s.hash sigll)) :
    Writing fetchKeyId printNull src changed h r written (records ++ [indicesOf s.hash sigll])
      { s with
        sigs := s.sigs ++ (htonl ((sigll.filter fun a => (s.hash.node a).colour ≠ 0).length) ++
          entries s.hash sigll)
        pending := s.pending.tail } := by
  have hlen : (records ++ [indicesOf s.hash sigll]).length = records.length + 1 := List.length_append
  exact
    { hw with
      pending_eq := by
        rw [hw.pending_eq, List.tail_drop, hlen]
      sigs_eq := by
        rw [hw.sigs_eq, List.flatMap_append, List.flatMap_singleton, sigRecord, entries_eq, indicesOf,
          List.length_map]
      le := by
        rw [hlen]
        exact (List.getElem?_eq_some_iff.mp hcur).1
      record := fun i k indices hk hindices => by
        rcases Nat.lt_or_ge i records.length with hi | hi
        · rw [List.getElem?_append_left hi] at hindices
          exact hw.record i k indices hk hindices
        · rw [List.getElem?_append_right hi, List.getElem?_singleton] at hindices
          split_ifs at hindices with hi'
          obtain rfl := Option.some.inj hindices
          obtain rfl : i = records.length := by omega
          rw [List.getElem?_map, hcur, Option.map_some] at hk
          exact Option.some.inj hk ▸ hrecord }

theorem pendingLoop_succ {curkey : Nat} {pending : List Nat} (hpending : s.pending = curkey :: pending)
    (fuel : Nat) :
    pendingLoop fetchKeyId printNull (fuel + 1) s = (do
      let keyid := (s.hash.node curkey).keyid
      let (hash, sigll) := cachedGetkeysigs fetchKeyId s.hash keyid
      let (hash, sigll) := hash.sortSigs keyid sigll
      let (sigcount, s) ← countSigs fetchKeyId printNull sigll 0 { s with hash }
      pendingLoop fetchKeyId printNull fuel { s with
        sigs := s.sigs ++ (htonl sigcount ++ entries s.hash sigll)
        pending := s.pending.tail }) := by
  rw [pendingLoop]
  split
  · next hnil =>
    rw [hnil] at hpending
    cases hpending
  · next c rest hcons =>
    obtain ⟨rfl, -⟩ := List.cons.inj (hcons.symm.trans hpending)
    rfl

/-- A round writes the record of the next key. -/
theorem Writing.pendingRound (hw : Writing fetchKeyId printNull src changed h r written records s)
    (hchanged : ChangedBefore changed written records.length) {curkey : Nat} {pending : List Nat}
    (hpending : s.pending = curkey :: pending) (fuel : Nat) :
    ∃ changed' h' r' written' indices s', pendingLoop fetchKeyId printNull (fuel + 1) s =
        pendingLoop fetchKeyId printNull fuel s' ∧
      Writing fetchKeyId printNull src changed' h' r' written' (records ++ [indices]) s' ∧
      ChangedBefore changed' written' (records ++ [indices]).length := by
  have hcur : written[records.length]? = some curkey := by
    rw [← List.head?_drop, ← hw.pending_eq, hpending, List.head?_cons]
  have hmem : curkey ∈ written := List.mem_of_getElem? hcur
  have hlt := hw.lt curkey hmem
  have hkeyid : (s.hash.node curkey).keyid = h.idOf curkey := by rw [hw.hash_eq]; rfl
  -- the signers are loaded and sorted
  obtain ⟨h₁, sigs, hload, hext₁, hw₁, hlt₁, hmap₁, -⟩ :=
    hw.load hlt (hchanged.not_mem (hw.nodup.of_map _) hcur)
  have hid₁ : h₁.idOf curkey = h.idOf curkey := hext₁.idOf_eq curkey hlt
  obtain ⟨l, hsort⟩ := sortSigs_withSigs (r := r) hw₁.consistent (hlt.trans_le hext₁.le) sigs
  rw [hid₁] at hsort
  obtain ⟨hnodup, hsub, hkeys⟩ := sortkeyll_spec h₁ sigs
  rw [hmap₁] at hkeys
  -- and get their numbers
  obtain ⟨s₂, h₂, written₂, hcount, hw₂, hext₂, hfront, hall⟩ :=
    (hw₁.relink hmem l).countSigs (fun a ha => hlt₁ a (hsub a ha)) (hid₁ ▸ List.mem_map_of_mem hmem)
      (fun a ha => (hkeys _).mp (List.mem_map_of_mem ha)) 0
  rw [Nat.zero_add] at hcount
  have hid₂ : ∀ a ∈ h₁.sortkeyll sigs, h₂.idOf a = h₁.idOf a := fun a ha =>
    hext₂.idOf_eq a (hlt₁ a (hsub a ha))
  have hcurid : h₂.idOf curkey = h.idOf curkey :=
    (hext₂.idOf_eq curkey (hlt.trans_le hext₁.le)).trans hid₁
  have hrecord : RecordOf fetchKeyId src (written₂.map h₂.idOf) (h₂.idOf curkey)
      (indicesOf s₂.hash (h₁.sortkeyll sigs)) := by
    refine hw₂.recordOf (fun a ha => (hlt₁ a (hsub a ha)).trans_le hext₂.le) hnodup ?_ ?_
    · intro k
      rw [List.map_congr_left hid₂, hcurid]
      exact hkeys k
    · intro a ha hcounts
      rw [hid₂ a ha] at hcounts ⊢
      exact hall a ha hcounts
  have hcur₂ := getElem?_of_isPrefix hfront hcur
  refine ⟨curkey :: changed, h₂, Function.update r curkey l, written₂, _, _, ?_,
    hw₂.writeRecord hcur₂ hrecord, ?_⟩
  · rw [pendingLoop_succ hpending]
    simp only [hkeyid, hload, hsort, hcount, Option.bind_eq_bind, Option.bind_some]
  · rw [List.length_append]
    exact hchanged.next hfront hcur₂

/-! ## Runs -/

/-- Everything is written. -/
def Finished (fetchKeyId : UInt64 → Option PublicKey) (printNull : Option (List UInt8)) (src : UInt64)
    (s : State) : Prop :=
  ∃ changed h r written records, Writing fetchKeyId printNull src changed h r written records s ∧
    records.length = written.length

/-- Only stored keys are written. -/
theorem Writing.length_le (hw : Writing fetchKeyId printNull src changed h r written records s)
    (hsrc : signers fetchKeyId src ≠ []) :
    written.length ≤ {k | fetchKeyId k ≠ none}.ncard := by
  have hstored : ((written.map h.idOf).toFinset : Set UInt64) ⊆ {k | fetchKeyId k ≠ none} := by
    intro k hk hnone
    rw [List.coe_toFinset] at hk
    rcases (hw.reached k hk).eq_or_counts with rfl | ⟨hname, -⟩
    · refine hsrc ?_
      unfold signers issuers
      rw [hnone]
      split_ifs <;> rfl
    · unfold keyid2uid at hname
      rw [hnone] at hname
      exact hname rfl
  have hle := Set.ncard_le_ncard hstored
  rwa [Set.ncard_coe_finset, List.toFinset_card_of_nodup hw.nodup, List.length_map] at hle

/-- The loop ends when everything is written, and it ends. -/
theorem Writing.pendingLoop (hw : Writing fetchKeyId printNull src changed h r written records s)
    (hchanged : ChangedBefore changed written records.length) (hsrc : signers fetchKeyId src ≠ [])
    (fuel : Nat) :
    (∀ s', pendingLoop fetchKeyId printNull fuel s = some s' → Finished fetchKeyId printNull src s') ∧
      ({k | fetchKeyId k ≠ none}.ncard < fuel + records.length →
        ∃ s', pendingLoop fetchKeyId printNull fuel s = some s') := by
  induction fuel generalizing changed h r written records s with
  | zero =>
    refine ⟨nofun, fun hlt => ?_⟩
    have hle := hw.length_le hsrc
    have hle' := hw.le
    omega
  | succ fuel ih =>
    cases hpending : s.pending with
    | nil =>
      have hend : Wotsap.pendingLoop fetchKeyId printNull (fuel + 1) s = some s := by
        rw [Wotsap.pendingLoop]
        split
        · rfl
        · next c rest hcons =>
          rw [hpending] at hcons
          cases hcons
      refine ⟨fun s' hs' => ?_, fun _ => ⟨s, hend⟩⟩
      obtain rfl := Option.some.inj (hend.symm.trans hs')
      refine ⟨changed, h, r, written, records, hw, ?_⟩
      have hle := List.drop_eq_nil_iff.mp (hw.pending_eq.symm.trans hpending)
      exact Nat.le_antisymm hw.le hle
    | cons curkey pending =>
      obtain ⟨changed', h', r', written', indices, s', hround, hw', hchanged'⟩ :=
        hw.pendingRound hchanged hpending fuel
      rw [hround]
      obtain ⟨hdone, hends⟩ := ih hw' hchanged'
      refine ⟨hdone, fun hlt => hends ?_⟩
      rw [List.length_append, List.length_singleton]
      omega

/-- A key that has signers is in the hash once it has been loaded. -/
theorem exists_loaded (hsrc : signers fetchKeyId src ≠ []) :
    ∃ h a, (cachedGetkeysigs fetchKeyId inithash src).1 = h ∧ h.findinhash src = some a ∧
      h.Consistent fetchKeyId ∧ Loads fetchKeyId src inithash h := by
  obtain ⟨⟨h, sigs⟩, hcall⟩ : ∃ x, cachedGetkeysigs fetchKeyId inithash src = x := ⟨_, rfl⟩
  obtain ⟨hc, hloads, hsettled, -, -⟩ := (consistent_inithash fetchKeyId).cachedGetkeysigs hcall
  have hgot := hsettled.resolve_left hsrc
  unfold lookup at hgot
  cases hfind : h.findinhash src with
  | none =>
    rw [hfind] at hgot
    cases hgot
  | some a => exact ⟨h, a, by rw [hcall], hfind, hc, hloads⟩

/-- The archive begins with the line and the record of the first key, which is pending. -/
theorem writing_first {a : Nat} (hc : h.Consistent fetchKeyId)
    (hloads : Loads fetchKeyId src inithash h) (ha : a < h.allocated) (hid : h.idOf a = src)
    (hsrc : signers fetchKeyId src ≠ []) {uid : List UInt8}
    (huid : nameText fetchKeyId printNull src = some uid) :
    Writing fetchKeyId printNull src [] (h.set a { h.node a with colour := 1 }) (fun _ => none) [a] []
      { hash := h.set a { h.node a with colour := 1 }
        curidx := 1
        pending := [a]
        names := uid ++ [10]
        keys := keyRecord src } := by
  have hsame : SameEdges (h.node a) { h.node a with colour := 1 } := ⟨rfl, rfl, rfl, rfl, rfl⟩
  have hids : [a].map (h.set a { h.node a with colour := 1 }).idOf = [src] := by
    rw [set_colour_idOf, List.map_singleton, hid]
  exact
    { consistent := hc.set hsame
      hash_eq := (withSigs_none (fun _ => rfl) _).symm
      unchanged := fun _ _ => rfl
      changed_sub := fun b hb => absurd hb List.not_mem_nil
      lt := List.forall_mem_singleton.mpr ha
      nodup := by
        rw [hids]
        exact List.nodup_singleton _
      head := by
        rw [hids]
        rfl
      pending_eq := rfl
      curidx_eq := rfl
      colour := by
        intro k
        have hzero : (h.lookup k).colour = 0 := hloads.colour k
        rw [hids]
        unfold colourOf
        rw [hc.lookup_set ha hsame, hid]
        by_cases hk : k = src
        · simp [hk]
        · simp [hk, hzero]
      revoked := by
        intro k hk
        rw [hc.lookup_set ha hsame, hid] at hk
        split_ifs at hk with hsrc'
        · exact hsrc' ▸ hsrc
        · have hfalse : (h.lookup k).revoked = false := hloads.revoked k (.inl hsrc')
          rw [hfalse] at hk
          cases hk
      reached := by
        rw [hids]
        exact List.forall_mem_singleton.mpr .start
      named := by
        rw [hids]
        exact List.forall_mem_singleton.mpr (by rw [huid]; exact nofun)
      names_eq := by
        rw [hids, List.flatMap_singleton, nameRecord, huid]
        rfl
      keys_eq := by
        rw [hids, List.flatMap_singleton]
      sigs_eq := rfl
      le := Nat.zero_le _
      record := nofun }

/-- The first key is written if there is a name to print. -/
theorem start_spec (hsrc : signers fetchKeyId src ≠ []) :
    (nameText fetchKeyId printNull src = none → start fetchKeyId printNull src = none) ∧
    (nameText fetchKeyId printNull src ≠ none → ∃ s h a, start fetchKeyId printNull src = some s ∧
      Writing fetchKeyId printNull src [] h (fun _ => none) [a] [] s) := by
  obtain ⟨h, a, hcall, hfind, hc, hloads⟩ := exists_loaded hsrc
  obtain ⟨ha, hid⟩ := of_findinhash hc hfind
  have hkeyid : (h.node a).keyid = src := hid
  have hstart : start fetchKeyId printNull src = outputKey fetchKeyId printNull src
      { hash := h.set a { h.node a with colour := 1 }
        curidx := 1
        pending := [a] } := by
    unfold start
    simp only [hcall, hfind, hkeyid]
  constructor
  · intro hnone
    have hname : (keyid2uid fetchKeyId src).or printNull = none := hnone
    rw [hstart, outputKey, hname]
    rfl
  · intro hsome
    obtain ⟨uid, huid⟩ := Option.ne_none_iff_exists'.mp hsome
    have hname : (keyid2uid fetchKeyId src).or printNull = some uid := huid
    refine ⟨_, _, a, ?_, writing_first hc hloads ha hid hsrc huid⟩
    rw [hstart, outputKey, hname]
    rfl

/-! ## The archive -/

/-- The files make up an archive of the keys `keyids`, with the records `records`: there is a line for each
key and a record for each, and the record of a key has the indices of those of its signers that are in the
archive, each of them once. -/
structure IsArchive (fetchKeyId : UInt64 → Option PublicKey) (files : State) (keyids : List UInt64)
    (records : List (List Nat)) : Prop where
  lines : files.names.count 10 = keyids.length
  keys : files.keys = keyids.flatMap keyRecord
  sigs : files.sigs = records.flatMap sigRecord
  length_eq : records.length = keyids.length
  length_lt : keyids.length < 2 ^ 30
  nodup : keyids.Nodup
  record : ∀ (i : Nat) k indices, keyids[i]? = some k → records[i]? = some indices →
    indices.Nodup ∧ (∀ j ∈ indices, j < keyids.length) ∧
      ∀ signer, (∃ j ∈ indices, keyids[j]? = some signer) ↔
        signer ∈ signers fetchKeyId k ∧ signer ∈ keyids

/-- A name takes one line if it has no line break. -/
theorem count_names (keyids : List UInt64) :
    (keyids.flatMap (nameRecord fetchKeyId printNull)).count 10 = keyids.length ↔
      ∀ k ∈ keyids, 10 ∉ (nameText fetchKeyId printNull k).getD [] := by
  have hone : ∀ k, (nameRecord fetchKeyId printNull k).count 10 =
      ((nameText fetchKeyId printNull k).getD []).count 10 + 1 := by
    intro k
    rw [nameRecord, List.count_append, List.count_singleton_self]
  have hle : ∀ keyids : List UInt64,
      keyids.length ≤ (keyids.flatMap (nameRecord fetchKeyId printNull)).count 10 := by
    intro keyids
    induction keyids with
    | nil => exact Nat.zero_le _
    | cons k keyids ih =>
      rw [List.flatMap_cons, List.count_append, List.length_cons, hone]
      omega
  induction keyids with
  | nil => simp
  | cons k keyids ih =>
    have hrest := hle keyids
    rw [List.flatMap_cons, List.count_append, List.length_cons, hone, List.forall_mem_cons]
    constructor
    · intro hcount
      exact ⟨List.count_eq_zero.mp (by omega), ih.mp (by omega)⟩
    · rintro ⟨hno, hnames⟩
      have hzero := List.count_eq_zero.mpr hno
      have hlines := ih.mpr hnames
      omega

/-- Every key that is found is written. -/
theorem Writing.mem_of_reached {keyid : UInt64}
    (hw : Writing fetchKeyId printNull src changed h r written records s)
    (hlen : records.length = written.length) (hk : Reached fetchKeyId src keyid) :
    keyid ∈ written.map h.idOf := by
  induction hk with
  | start => exact hw.src_mem
  | @step keyid signer _ hsigner hcounts ih =>
    obtain ⟨i, hi⟩ := List.mem_iff_getElem?.mp ih
    have hlt : i < records.length := by
      have hlt := (List.getElem?_eq_some_iff.mp hi).1
      rwa [List.length_map, ← hlen] at hlt
    obtain ⟨j, -, hj⟩ := (hw.record i keyid _ hi (List.getElem?_eq_getElem hlt)).all signer hsigner
      (.inr hcounts)
    exact List.mem_of_getElem? hj

/-- What is written makes up an archive if the names have no line breaks. -/
theorem Writing.isArchive_iff (hw : Writing fetchKeyId printNull src changed h r written records s)
    (hlen : records.length = written.length) (hlt : written.length < 2 ^ 30) :
    (∃ keyids records, IsArchive fetchKeyId s keyids records) ↔
      ∀ k, Reached fetchKeyId src k → ∃ uid, nameText fetchKeyId printNull k = some uid ∧ 10 ∉ uid := by
  have hlines : s.names.count 10 = written.length ↔
      ∀ k ∈ written.map h.idOf, 10 ∉ (nameText fetchKeyId printNull k).getD [] := by
    rw [hw.names_eq, ← count_names, List.length_map]
  constructor
  · rintro ⟨keyids, records', harch⟩ k hk
    have hcount : keyids.length = written.length := by
      have hkeys := congrArg List.length (harch.keys.symm.trans hw.keys_eq)
      have hfour : ∀ ids : List UInt64, (ids.flatMap keyRecord).length = 4 * ids.length := by
        intro ids
        induction ids with
        | nil => rfl
        | cons id ids ih =>
          rw [List.flatMap_cons, List.length_append, ih, List.length_cons, keyRecord, htonl]
          simp only [List.length_cons, List.length_nil]
          omega
      rw [hfour, hfour, List.length_map] at hkeys
      omega
    have hmem := hw.mem_of_reached hlen hk
    obtain ⟨uid, huid⟩ := Option.ne_none_iff_exists'.mp (hw.named k hmem)
    refine ⟨uid, huid, ?_⟩
    have hno := hlines.mp (harch.lines.trans hcount) k hmem
    rwa [huid] at hno
  · intro hnames
    refine ⟨written.map h.idOf, records, ?_, hw.keys_eq, hw.sigs_eq, ?_, ?_, hw.nodup, ?_⟩
    · rw [List.length_map]
      refine hlines.mpr fun k hk => ?_
      obtain ⟨uid, huid, hno⟩ := hnames k (hw.reached k hk)
      rwa [huid]
    · rw [hlen, List.length_map]
    · rwa [List.length_map]
    · intro i k indices hk hindices
      have hrecord := hw.record i k indices hk hindices
      refine ⟨hrecord.nodup, fun j hj => ?_, fun signer => ⟨?_, ?_⟩⟩
      · obtain ⟨signer, -, hat⟩ := hrecord.signs j hj
        exact (List.getElem?_eq_some_iff.mp hat).1
      · rintro ⟨j, hj, hat⟩
        obtain ⟨signer', hsigner, hat'⟩ := hrecord.signs j hj
        obtain rfl := Option.some.inj (hat.symm.trans hat')
        exact ⟨hsigner, List.mem_of_getElem? hat⟩
      · rintro ⟨hsigner, hmem⟩
        exact hrecord.all signer hsigner (hw.reached signer hmem).eq_or_counts

/-- wotsap comes to its end, and its files make up an archive. -/
def WritesArchive (fetchKeyId : UInt64 → Option PublicKey) (printNull : Option (List UInt8))
    (keyid : UInt64) : Prop :=
  ∃ fuel files, wotsap fetchKeyId printNull fuel keyid = some files ∧
    ∃ keyids records, IsArchive fetchKeyId files keyids records

theorem changedBefore_nil (written : List Nat) (n : Nat) : ChangedBefore [] written n :=
  fun _ hb => absurd hb List.not_mem_nil

theorem WritesArchive.names (harch : WritesArchive fetchKeyId printNull src)
    (hsigs : signers fetchKeyId src ≠ []) (hkeys : {k | fetchKeyId k ≠ none}.ncard < 2 ^ 30) :
    ∀ k, Reached fetchKeyId src k → ∃ uid, nameText fetchKeyId printNull k = some uid ∧ 10 ∉ uid := by
  obtain ⟨fuel, files, hrun, harch⟩ := harch
  obtain ⟨hbad, hgood⟩ := @start_spec fetchKeyId printNull _ hsigs
  have hname : nameText fetchKeyId printNull src ≠ none := by
    intro hnone
    rw [wotsap, hbad hnone] at hrun
    cases hrun
  obtain ⟨s, h, a, hstart, hw⟩ := hgood hname
  have hloop : pendingLoop fetchKeyId printNull fuel s = some files := by
    rwa [wotsap, hstart] at hrun
  obtain ⟨changed, h', r, written, records, hw', hlen⟩ :=
    (hw.pendingLoop (changedBefore_nil _ _) hsigs fuel).1 files hloop
  exact (hw'.isArchive_iff hlen ((hw'.length_le hsigs).trans_lt hkeys)).mp harch

theorem writesArchive_of_names (hsigs : signers fetchKeyId src ≠ [])
    (hkeys : {k | fetchKeyId k ≠ none}.ncard < 2 ^ 30)
    (hnames : ∀ k, Reached fetchKeyId src k →
      ∃ uid, nameText fetchKeyId printNull k = some uid ∧ 10 ∉ uid) :
    WritesArchive fetchKeyId printNull src := by
  obtain ⟨uid, huid, -⟩ := hnames src .start
  obtain ⟨s, h, a, hstart, hw⟩ := (@start_spec fetchKeyId printNull _ hsigs).2 (by rw [huid]; exact nofun)
  obtain ⟨hdone, hends⟩ := hw.pendingLoop (changedBefore_nil _ _) hsigs (2 ^ 30)
  obtain ⟨files, hloop⟩ := hends (hkeys.trans_le (Nat.le_add_right _ _))
  obtain ⟨changed, h', r, written, records, hw', hlen⟩ := hdone files hloop
  refine ⟨2 ^ 30, files, ?_, ?_⟩
  · rw [wotsap, hstart]
    exact hloop
  · exact (hw'.isArchive_iff hlen ((hw'.length_le hsigs).trans_lt hkeys)).mpr hnames

end

/-- **When wotsap writes an archive.** For every database with fewer than 2^30 keys in which the first key
has signatures: as many names, keys and records of signatures are written, in the same order and no key
twice, and each record counts its entries, which are indices of different keys, if and only if each key
that is found has a name that is printed, and no line break is in it. -/
theorem wotsap_writesArchive_iff (fetchKeyId : UInt64 → Option PublicKey)
    (printNull : Option (List UInt8)) {keyid : UInt64} (hsigs : signers fetchKeyId keyid ≠ [])
    (hkeys : {k | fetchKeyId k ≠ none}.ncard < 2 ^ 30) :
    WritesArchive fetchKeyId printNull keyid ↔
      ∀ k, Reached fetchKeyId keyid k →
        ∃ uid, nameText fetchKeyId printNull k = some uid ∧ 10 ∉ uid :=
  ⟨fun harch => harch.names hsigs hkeys, writesArchive_of_names hsigs hkeys⟩

/-- A database of one key, which has signed itself. -/
def oneKey (name : List UInt8) (keyid : UInt64) : Option PublicKey :=
  if keyid = 1 then
    some ⟨⟨tagPublickey, false, []⟩, false, [], [⟨⟨tagUid, false, name⟩, [signatureBy 1]⟩], []⟩
  else
    none

theorem signers_oneKey (name : List UInt8) : signers (oneKey name) 1 = [1] := by
  have hkeyid : sigKeyid (signatureBy 1) = 1 := by decide +kernel
  have hsigners : signers (oneKey name) 1 = [sigKeyid (signatureBy 1)] := rfl
  rw [hsigners, hkeyid]

theorem ncard_oneKey (name : List UInt8) : {k | oneKey name k ≠ none}.ncard < 2 ^ 30 := by
  have hset : {k | oneKey name k ≠ none} = {1} := by
    ext k
    by_cases hk : k = 1 <;> simp [oneKey, hk]
  rw [hset, Set.ncard_singleton]
  decide

theorem reached_oneKey {name : List UInt8} {k : UInt64} (hk : Reached (oneKey name) 1 k) : k = 1 := by
  induction hk with
  | start => rfl
  | step _ hsigner _ ih =>
    rw [ih, signers_oneKey] at hsigner
    exact List.mem_singleton.mp hsigner

/-- The key gets an archive of its own. -/
theorem wotsap_writesArchive_oneKey : WritesArchive (oneKey [65]) none 1 := by
  refine (wotsap_writesArchive_iff (oneKey [65]) none (by rw [signers_oneKey]; exact nofun)
    (ncard_oneKey [65])).mpr fun k hk => ?_
  rw [reached_oneKey hk]
  exact ⟨[65], by decide, by decide⟩

/-- A name with a line break takes two lines. -/
theorem wotsap_lineBreak :
    ¬ ∀ (fetchKeyId : UInt64 → Option PublicKey) (printNull : Option (List UInt8)) (keyid : UInt64),
      signers fetchKeyId keyid ≠ [] → {k | fetchKeyId k ≠ none}.ncard < 2 ^ 30 →
      WritesArchive fetchKeyId printNull keyid := by
  intro hall
  have hsigs : signers (oneKey [65, 10, 66]) 1 ≠ [] := by
    rw [signers_oneKey]
    exact nofun
  have harch := hall _ none 1 hsigs (ncard_oneKey _)
  obtain ⟨uid, huid, hno⟩ := harch.names hsigs (ncard_oneKey _) 1 .start
  have hname : nameText (oneKey [65, 10, 66]) none 1 = some [65, 10, 66] := by decide
  obtain rfl := Option.some.inj (hname.symm.trans huid)
  exact absurd hno (by decide)

end Wotsap

end Onak
