import Onak.Stats

/-!
# Proofs: the cache of signatures is a consistent graph

What is in the hash between calls is the invariant `Consistent`. New keys only ever come to the hash in
`createandaddtohash`, and `fill` is the one place where edges are made: for each signature one in the
list of the key and one in the list of the signer.
-/

namespace Onak

namespace Hash

/-! ## Lookups -/

/-- The key with a key id, or the one that would be made for it. -/
def lookup (h : Hash) (keyid : UInt64) : StatsKey :=
  match h.findinhash keyid with
  | some a => h.node a
  | none => { keyid }

/-- The key id at an address. -/
def idOf (h : Hash) (a : Nat) : UInt64 := (h.node a).keyid

section

variable (fetchKeyId : UInt64 → Option PublicKey)

/-- The issuers of the signatures over the user ids of a stored key, the last one first. -/
def issuers (keyid : UInt64) : List UInt64 :=
  match fetchKeyId keyid with
  | none => []
  | some publickey => ((uidSigs publickey).map sigKeyid).reverse

/-- The signers of a key. There is no key with the key id zero. -/
def signers (keyid : UInt64) : List UInt64 := if keyid = 0 then [] else issuers fetchKeyId keyid

/-- Whether a stored key is revoked. -/
def storedRevoked (keyid : UInt64) : Bool := (fetchKeyId keyid).any PublicKey.revoked

/-- The invariant of the hash. -/
structure Consistent (h : Hash) : Prop where
  /-- A key is in the entry of its key id. -/
  entry_iff : ∀ entry a, a ∈ h.hashtable entry ↔ a < h.allocated ∧ bucket (h.idOf a) = entry
  /-- It is there once. -/
  nodup : ∀ entry, (h.hashtable entry).Nodup
  /-- There is one key for a key id. -/
  unique : ∀ a < h.allocated, ∀ b < h.allocated, h.idOf a = h.idOf b → a = b
  /-- The keys are counted. -/
  elements_eq : h.elements = h.allocated
  /-- Signers are keys of the hash. -/
  sigs_lt : ∀ a < h.allocated, ∀ s ∈ (h.node a).sigs, s < h.allocated
  /-- And so are the keys that are signed. -/
  signs_lt : ∀ a < h.allocated, ∀ s ∈ (h.node a).signs, s < h.allocated
  /-- Each signature is in both lists. -/
  count_eq : ∀ k < h.allocated, ∀ s < h.allocated,
    (h.node s).signs.count k = (h.node k).sigs.count s
  /-- The signers of a key that is loaded are the issuers. -/
  sigs_eq : ∀ a < h.allocated,
    (h.node a).sigs.map h.idOf = if (h.node a).gotsigs then signers fetchKeyId (h.idOf a) else []
  /-- A key that is loaded is revoked if it is stored so. -/
  revoked_eq : ∀ a < h.allocated,
    (h.node a).revoked = ((h.node a).gotsigs && storedRevoked fetchKeyId (h.idOf a))

theorem consistent_inithash : inithash.Consistent fetchKeyId where
  entry_iff entry a := by simp [inithash]
  nodup entry := List.nodup_nil
  unique a ha := absurd ha (Nat.not_lt_zero a)
  elements_eq := rfl
  sigs_lt a ha := absurd ha (Nat.not_lt_zero a)
  signs_lt a ha := absurd ha (Nat.not_lt_zero a)
  count_eq a ha := absurd ha (Nat.not_lt_zero a)
  sigs_eq a ha := absurd ha (Nat.not_lt_zero a)
  revoked_eq a ha := absurd ha (Nat.not_lt_zero a)

end

section

variable {fetchKeyId : UInt64 → Option PublicKey} {h h' : Hash}

theorem findinhash_eq_none (hc : h.Consistent fetchKeyId) {keyid : UInt64} :
    h.findinhash keyid = none ↔ ∀ a < h.allocated, h.idOf a ≠ keyid := by
  unfold findinhash
  rw [List.find?_eq_none]
  constructor
  · intro hnone a ha heq
    exact hnone a ((hc.entry_iff _ a).mpr ⟨ha, by rw [heq]⟩) (decide_eq_true heq)
  · intro hnone a ha heq
    exact hnone a ((hc.entry_iff _ a).mp ha).1 (of_decide_eq_true heq)

theorem of_findinhash (hc : h.Consistent fetchKeyId) {keyid : UInt64} {a : Nat}
    (hfind : h.findinhash keyid = some a) : a < h.allocated ∧ h.idOf a = keyid := by
  have hid := List.find?_some hfind
  exact ⟨((hc.entry_iff _ a).mp (List.mem_of_find?_eq_some hfind)).1, of_decide_eq_true hid⟩

theorem findinhash_eq_some (hc : h.Consistent fetchKeyId) {keyid : UInt64} {a : Nat} :
    h.findinhash keyid = some a ↔ a < h.allocated ∧ h.idOf a = keyid := by
  constructor
  · exact of_findinhash hc
  · rintro ⟨ha, rfl⟩
    cases hfind : h.findinhash (h.idOf a) with
    | none => exact absurd rfl ((findinhash_eq_none hc).mp hfind a ha)
    | some b =>
      obtain ⟨hb, hid⟩ := of_findinhash hc hfind
      rw [hc.unique b hb a ha hid]

theorem lookup_idOf (hc : h.Consistent fetchKeyId) {a : Nat} (ha : a < h.allocated) :
    h.lookup (h.idOf a) = h.node a := by
  unfold lookup
  rw [(findinhash_eq_some hc).mpr ⟨ha, rfl⟩]

/-! ## New keys -/

/-- Keys have come to the hash, and all others are as they were. -/
structure Grows (h h' : Hash) : Prop where
  /-- No key is lost. -/
  le : h.allocated ≤ h'.allocated
  /-- The keys are as they were. -/
  same : ∀ a < h.allocated, h'.node a = h.node a
  /-- The others are new. -/
  fresh : ∀ a, h.allocated ≤ a → a < h'.allocated → h'.node a = { keyid := h'.idOf a }

theorem Grows.refl (h : Hash) : h.Grows h where
  le := le_refl _
  same _ _ := rfl
  fresh a ha ha' := absurd ha' (by omega)

theorem Grows.trans {h'' : Hash} (hg : h.Grows h') (hg' : h'.Grows h'') : h.Grows h'' where
  le := hg.le.trans hg'.le
  same a ha := (hg'.same a (ha.trans_le hg.le)).trans (hg.same a ha)
  fresh a ha ha' := by
    rcases Nat.lt_or_ge a h'.allocated with hlt | hge
    · have hsame := hg'.same a hlt
      have hfresh := hg.fresh a ha hlt
      unfold idOf at hfresh ⊢
      rw [hsame]
      exact hfresh
    · exact hg'.fresh a hge ha'

theorem Grows.idOf_eq (hg : h.Grows h') {a : Nat} (ha : a < h.allocated) : h'.idOf a = h.idOf a := by
  unfold idOf
  rw [hg.same a ha]

theorem Grows.map_idOf (hg : h.Grows h') {keys : List Nat} (hlt : ∀ a ∈ keys, a < h.allocated) :
    keys.map h'.idOf = keys.map h.idOf :=
  List.map_congr_left fun a ha => hg.idOf_eq (hlt a ha)

theorem Grows.lookup_eq (hg : h.Grows h') (hc : h.Consistent fetchKeyId)
    (hc' : h'.Consistent fetchKeyId) (keyid : UInt64) : h'.lookup keyid = h.lookup keyid := by
  unfold lookup
  cases hfind : h.findinhash keyid with
  | some a =>
    obtain ⟨ha, hid⟩ := (findinhash_eq_some hc).mp hfind
    have hfind' : h'.findinhash keyid = some a :=
      (findinhash_eq_some hc').mpr ⟨ha.trans_le hg.le, (hg.idOf_eq ha).trans hid⟩
    rw [hfind']
    exact hg.same a ha
  | none =>
    cases hfind' : h'.findinhash keyid with
    | none => rfl
    | some a =>
      obtain ⟨ha, hid⟩ := (findinhash_eq_some hc').mp hfind'
      have hge : h.allocated ≤ a := by
        by_contra hlt
        have hlt : a < h.allocated := by omega
        exact (findinhash_eq_none hc).mp hfind a hlt ((hg.idOf_eq hlt).symm.trans hid)
      show h'.node a = { keyid }
      rw [hg.fresh a hge ha, hid]

/-- A key has come to the hash, at the next address. -/
structure Adds (h h' : Hash) (keyid : UInt64) : Prop where
  allocated : h'.allocated = h.allocated + 1
  elements : h'.elements = h.elements + 1
  old : ∀ a < h.allocated, h'.node a = h.node a
  new : h'.node h.allocated = { keyid }
  table : ∀ entry, h'.hashtable entry =
    if entry = bucket keyid then h.allocated :: h.hashtable entry else h.hashtable entry

theorem adds_create (h : Hash) (keyid : UInt64) :
    h.Adds ((h.create keyid).addtohash h.allocated) keyid where
  allocated := rfl
  elements := rfl
  old a ha := Function.update_of_ne (Nat.ne_of_lt ha) _ _
  new := Function.update_self _ _ _
  table entry := by
    unfold addtohash create
    simp only [Function.update_self, Function.update_apply]
    split_ifs with hentry
    · rw [hentry]
    · rfl

section

variable {keyid : UInt64} (hadds : h.Adds h' keyid)

include hadds

theorem Adds.lt_or_eq {a : Nat} (ha : a < h'.allocated) : a < h.allocated ∨ a = h.allocated := by
  rw [hadds.allocated] at ha
  exact Nat.lt_succ_iff_lt_or_eq.mp ha

theorem Adds.idOf_old {a : Nat} (ha : a < h.allocated) : h'.idOf a = h.idOf a := by
  unfold idOf
  rw [hadds.old a ha]

theorem Adds.idOf_new : h'.idOf h.allocated = keyid := by
  unfold idOf
  rw [hadds.new]

theorem Adds.grows : h.Grows h' where
  le := hadds.allocated ▸ Nat.le_succ _
  same := hadds.old
  fresh a ha ha' := by
    obtain rfl := (hadds.lt_or_eq ha').resolve_left (Nat.not_lt.mpr ha)
    rw [hadds.idOf_new, hadds.new]

/-- The new key is in the entry of its key id, and all others are where they were. -/
theorem Adds.entry_iff (hc : h.Consistent fetchKeyId) (entry a : Nat) :
    a ∈ h'.hashtable entry ↔ a < h'.allocated ∧ bucket (h'.idOf a) = entry := by
  have hmem : a ∈ h'.hashtable entry ↔
      (a = h.allocated ∧ entry = bucket keyid) ∨ a ∈ h.hashtable entry := by
    rw [hadds.table]
    split_ifs with hentry
    · simp [hentry]
    · simp [hentry]
  rw [hmem, hc.entry_iff, hadds.allocated]
  rcases Nat.lt_trichotomy a h.allocated with hlt | rfl | hgt
  · rw [hadds.idOf_old hlt]
    exact ⟨fun hin => (hin.resolve_left fun hnew => hlt.ne hnew.1).imp_left Nat.lt_succ_of_lt,
      fun hin => .inr ⟨hlt, hin.2⟩⟩
  · rw [hadds.idOf_new]
    exact ⟨fun hin => (hin.resolve_right fun hold => Nat.lt_irrefl _ hold.1).imp
      (fun _ => Nat.lt_succ_self _) Eq.symm, fun hin => .inl ⟨rfl, hin.2.symm⟩⟩
  · exact ⟨fun hin => by omega, fun hin => by omega⟩

theorem Adds.nodup (hc : h.Consistent fetchKeyId) (entry : Nat) : (h'.hashtable entry).Nodup := by
  rw [hadds.table]
  split_ifs
  · refine List.nodup_cons.mpr ⟨fun hmem => ?_, hc.nodup entry⟩
    exact absurd ((hc.entry_iff entry _).mp hmem).1 (Nat.lt_irrefl _)
  · exact hc.nodup entry

/-- The new key is the only one with its key id if there was none. -/
theorem Adds.unique (hc : h.Consistent fetchKeyId) (hnone : h.findinhash keyid = none) {a b : Nat}
    (ha : a < h'.allocated) (hb : b < h'.allocated) (heq : h'.idOf a = h'.idOf b) : a = b := by
  have hne {a : Nat} (ha : a < h.allocated) : h.idOf a ≠ keyid := (findinhash_eq_none hc).mp hnone a ha
  rcases hadds.lt_or_eq ha with ha | rfl
  · rcases hadds.lt_or_eq hb with hb | rfl
    · rw [hadds.idOf_old ha, hadds.idOf_old hb] at heq
      exact hc.unique a ha b hb heq
    · rw [hadds.idOf_old ha, hadds.idOf_new] at heq
      exact absurd heq (hne ha)
  · rcases hadds.lt_or_eq hb with hb | rfl
    · rw [hadds.idOf_old hb, hadds.idOf_new] at heq
      exact absurd heq.symm (hne hb)
    · rfl

/-- No signature is about the new key yet. -/
theorem Adds.count_eq (hc : h.Consistent fetchKeyId) {k s : Nat} (hk : k < h'.allocated)
    (hs : s < h'.allocated) : (h'.node s).signs.count k = (h'.node k).sigs.count s := by
  rcases hadds.lt_or_eq hk with hk | rfl
  · rcases hadds.lt_or_eq hs with hs | rfl
    · rw [hadds.old k hk, hadds.old s hs]
      exact hc.count_eq k hk s hs
    · rw [hadds.new, hadds.old k hk, List.count_nil, eq_comm, List.count_eq_zero]
      exact fun hmem => absurd (hc.sigs_lt k hk _ hmem) (Nat.lt_irrefl _)
  · rcases hadds.lt_or_eq hs with hs | rfl
    · rw [hadds.new, hadds.old s hs, List.count_nil, List.count_eq_zero]
      exact fun hmem => absurd (hc.signs_lt s hs _ hmem) (Nat.lt_irrefl _)
    · rw [hadds.new]

/-- A new key is in no list, and its own lists are empty. -/
theorem Adds.list_lt {list : StatsKey → List Nat} (hempty : list { keyid } = [])
    (hlt : ∀ a < h.allocated, ∀ s ∈ list (h.node a), s < h.allocated) {a : Nat} (ha : a < h'.allocated) :
    ∀ s ∈ list (h'.node a), s < h'.allocated := by
  rcases hadds.lt_or_eq ha with ha | rfl
  · rw [hadds.old a ha]
    exact fun s hs => (hlt a ha s hs).trans_le hadds.grows.le
  · rw [hadds.new, hempty]
    exact nofun

end

/-- A new key is added. -/
theorem Consistent.add (hc : h.Consistent fetchKeyId) {keyid : UInt64}
    (hnone : h.findinhash keyid = none) :
    ((h.create keyid).addtohash h.allocated).Consistent fetchKeyId ∧
      h.Grows ((h.create keyid).addtohash h.allocated) := by
  have hadds := h.adds_create keyid
  refine ⟨?_, hadds.grows⟩
  exact
    { entry_iff := hadds.entry_iff hc
      nodup := hadds.nodup hc
      unique := fun a ha b hb heq => hadds.unique hc hnone ha hb heq
      elements_eq := by
        rw [hadds.elements, hadds.allocated, hc.elements_eq]
      sigs_lt := fun a ha => @Adds.list_lt _ _ _ hadds StatsKey.sigs rfl hc.sigs_lt a ha
      signs_lt := fun a ha => @Adds.list_lt _ _ _ hadds StatsKey.signs rfl hc.signs_lt a ha
      count_eq := fun k hk s hs => hadds.count_eq hc hk hs
      sigs_eq := fun a ha => by
        rcases hadds.lt_or_eq ha with ha | rfl
        · rw [hadds.old a ha, hadds.idOf_old ha, ← hc.sigs_eq a ha]
          exact List.map_congr_left fun s hs => hadds.idOf_old (hc.sigs_lt a ha s hs)
        · rw [hadds.new]
          rfl
      revoked_eq := fun a ha => by
        rcases hadds.lt_or_eq ha with ha | rfl
        · rw [hadds.old a ha, hadds.idOf_old ha]
          exact hc.revoked_eq a ha
        · rw [hadds.new]
          rfl }

/-- **`createandaddtohash` gives the key with a key id.** -/
theorem Consistent.createandaddtohash (hc : h.Consistent fetchKeyId) {keyid : UInt64} {a : Nat}
    (hcreate : h.createandaddtohash keyid = (h', a)) :
    h'.Consistent fetchKeyId ∧ h.Grows h' ∧ a < h'.allocated ∧ h'.idOf a = keyid := by
  unfold Hash.createandaddtohash at hcreate
  cases hfind : h.findinhash keyid with
  | some b =>
    rw [hfind] at hcreate
    obtain ⟨rfl, rfl⟩ := Prod.mk.inj hcreate
    exact ⟨hc, .refl h, (findinhash_eq_some hc).mp hfind⟩
  | none =>
    rw [hfind] at hcreate
    obtain ⟨rfl, rfl⟩ := Prod.mk.inj hcreate
    obtain ⟨hc', hg⟩ := hc.add hfind
    refine ⟨hc', hg, Nat.lt_succ_self _, ?_⟩
    show (Function.update h.node h.allocated _ h.allocated).keyid = keyid
    rw [Function.update_self]

/-- The signers are created. -/
theorem Consistent.getkeysigsLoop (hc : h.Consistent fetchKeyId) {packets : List Packet}
    {sigs sigs' : List Nat} (hlt : ∀ a ∈ sigs, a < h.allocated)
    (hloop : Hash.getkeysigsLoop h sigs packets = (h', sigs')) :
    h'.Consistent fetchKeyId ∧ h.Grows h' ∧ (∀ a ∈ sigs', a < h'.allocated) ∧
      sigs'.map h'.idOf = (packets.map sigKeyid).reverse ++ sigs.map h.idOf := by
  induction packets generalizing h sigs with
  | nil =>
    obtain ⟨rfl, rfl⟩ := Prod.mk.inj hloop
    exact ⟨hc, .refl h, hlt, rfl⟩
  | cons cursig packets ih =>
    obtain ⟨⟨h₁, key⟩, hcreate⟩ : ∃ r, h.createandaddtohash (sigKeyid cursig) = r := ⟨_, rfl⟩
    obtain ⟨hc₁, hg₁, hkey, hid⟩ := hc.createandaddtohash hcreate
    rw [Hash.getkeysigsLoop, hcreate] at hloop
    have hlt₁ : ∀ a ∈ key :: sigs, a < h₁.allocated := by
      intro a ha
      rcases List.mem_cons.mp ha with rfl | ha
      · exact hkey
      · exact (hlt a ha).trans_le hg₁.le
    obtain ⟨hc', hg', hlt', hmap⟩ := ih hc₁ hlt₁ hloop
    refine ⟨hc', hg₁.trans hg', hlt', ?_⟩
    rw [hmap, List.map_cons, hid, hg₁.map_idOf hlt, List.map_cons, List.reverse_cons, List.append_assoc]
    rfl

/-! ## Edges -/

theorem foldl_addSigns (key : Nat) (sigs : List Nat) (h : Hash) :
    sigs.foldl (addSigns key) h =
      { h with
        node := fun a =>
          { h.node a with signs := List.replicate (sigs.count a) key ++ (h.node a).signs } } := by
  induction sigs generalizing h with
  | nil => rfl
  | cons sig sigs ih =>
    rw [List.foldl_cons, ih]
    unfold addSigns set
    simp only [Hash.mk.injEq, and_true]
    funext a
    by_cases ha : a = sig
    · rw [ha, Function.update_self, List.count_cons_self, List.replicate_succ']
      simp
    · rw [Function.update_of_ne ha, List.count_cons_of_ne (Ne.symm ha)]

/-- A key that its signatures have been filled into. -/
theorem fill_node (h : Hash) (key : Nat) (sigs : List Nat) (revoked : Bool) (a : Nat) :
    (h.fill key sigs revoked).node a =
      let signs := List.replicate (sigs.count a) key ++ (h.node a).signs
      if a = key then { h.node a with sigs, signs, revoked, gotsigs := true }
      else { h.node a with signs } := by
  unfold fill
  simp only [foldl_addSigns]
  unfold set
  by_cases ha : a = key
  · rw [ha, if_pos rfl]
    simp only [Function.update_self]
  · rw [if_neg ha]
    simp only [Function.update_of_ne ha]

theorem fill_allocated (h : Hash) (key : Nat) (sigs : List Nat) (revoked : Bool) :
    (h.fill key sigs revoked).allocated = h.allocated ∧
      (h.fill key sigs revoked).hashtable = h.hashtable ∧
      (h.fill key sigs revoked).elements = h.elements := by
  unfold fill
  simp only [foldl_addSigns]
  exact ⟨rfl, rfl, rfl⟩

theorem fill_idOf (h : Hash) (key : Nat) (sigs : List Nat) (revoked : Bool) (a : Nat) :
    (h.fill key sigs revoked).idOf a = h.idOf a := by
  unfold idOf
  rw [fill_node]
  simp only
  split_ifs <;> rfl

theorem fill_sigs (h : Hash) (key : Nat) (sigs : List Nat) (revoked : Bool) (a : Nat) :
    ((h.fill key sigs revoked).node a).sigs = if a = key then sigs else (h.node a).sigs := by
  rw [fill_node]
  simp only
  split_ifs <;> rfl

/-- Each time that `a` is a signer of `key`, it gets `key` as one of those it has signed. -/
theorem fill_signs (h : Hash) (key : Nat) (sigs : List Nat) (revoked : Bool) (a : Nat) :
    ((h.fill key sigs revoked).node a).signs =
      List.replicate (sigs.count a) key ++ (h.node a).signs := by
  rw [fill_node]
  simp only
  split_ifs <;> rfl

theorem fill_gotsigs (h : Hash) (key : Nat) (sigs : List Nat) (revoked : Bool) (a : Nat) :
    ((h.fill key sigs revoked).node a).gotsigs = if a = key then true else (h.node a).gotsigs := by
  rw [fill_node]
  simp only
  split_ifs <;> rfl

theorem fill_revoked (h : Hash) (key : Nat) (sigs : List Nat) (revoked : Bool) (a : Nat) :
    ((h.fill key sigs revoked).node a).revoked = if a = key then revoked else (h.node a).revoked := by
  rw [fill_node]
  simp only
  split_ifs <;> rfl

/-- **Loading a key adds each edge to both lists.** -/
theorem Consistent.fill (hc : h.Consistent fetchKeyId) {key : Nat} (hkey : key < h.allocated)
    (hnew : (h.node key).gotsigs = false) {sigs : List Nat} (hlt : ∀ a ∈ sigs, a < h.allocated)
    (hsigs : sigs.map h.idOf = signers fetchKeyId (h.idOf key)) :
    (h.fill key sigs (storedRevoked fetchKeyId (h.idOf key))).Consistent fetchKeyId := by
  obtain ⟨halloc, htable, helements⟩ :=
    fill_allocated h key sigs (storedRevoked fetchKeyId (h.idOf key))
  have hidfun : (h.fill key sigs (storedRevoked fetchKeyId (h.idOf key))).idOf = h.idOf :=
    funext (fill_idOf h key sigs _)
  have hnone : (h.node key).sigs = [] := by
    have hmap := hc.sigs_eq key hkey
    rw [hnew] at hmap
    exact List.map_eq_nil_iff.mp hmap
  exact
    { entry_iff := by
        rw [htable, halloc, hidfun]
        exact hc.entry_iff
      nodup := by
        rw [htable]
        exact hc.nodup
      unique := by
        rw [halloc, hidfun]
        exact hc.unique
      elements_eq := by
        rw [helements, halloc]
        exact hc.elements_eq
      sigs_lt := by
        intro a ha s hs
        rw [halloc] at ha ⊢
        rw [fill_sigs] at hs
        split_ifs at hs
        · exact hlt s hs
        · exact hc.sigs_lt a ha s hs
      signs_lt := by
        intro a ha s hs
        rw [halloc] at ha ⊢
        rw [fill_signs] at hs
        rcases List.mem_append.mp hs with hs | hs
        · rw [List.eq_of_mem_replicate hs]
          exact hkey
        · exact hc.signs_lt a ha s hs
      count_eq := by
        intro k hk s hs
        rw [halloc] at hk hs
        rw [fill_signs, fill_sigs, List.count_append, List.count_replicate, hc.count_eq k hk s hs]
        by_cases hkk : k = key
        · rw [hkk, if_pos rfl, if_pos (beq_self_eq_true key), hnone, List.count_nil, Nat.add_zero]
        · rw [if_neg hkk, if_neg (by simpa using Ne.symm hkk), Nat.zero_add]
      sigs_eq := by
        intro a ha
        rw [halloc] at ha
        rw [hidfun, fill_sigs, fill_gotsigs]
        by_cases hkk : a = key
        · rw [if_pos hkk, if_pos hkk, if_pos rfl, hkk]
          exact hsigs
        · rw [if_neg hkk, if_neg hkk]
          exact hc.sigs_eq a ha
      revoked_eq := by
        intro a ha
        rw [halloc] at ha
        rw [hidfun, fill_revoked, fill_gotsigs]
        split_ifs with hkk
        · rw [hkk, Bool.true_and]
        · exact hc.revoked_eq a ha }

theorem Consistent.lookup_fill (hc : h.Consistent fetchKeyId) {key : Nat} {sigs : List Nat}
    {revoked : Bool} (hc' : (h.fill key sigs revoked).Consistent fetchKeyId) (keyid : UInt64) :
    (h.fill key sigs revoked).lookup keyid =
      match h.findinhash keyid with
      | some a => (h.fill key sigs revoked).node a
      | none => { keyid } := by
  have hfind : (h.fill key sigs revoked).findinhash keyid = h.findinhash keyid := by
    refine Option.ext fun a => ?_
    rw [findinhash_eq_some hc', findinhash_eq_some hc, (fill_allocated h key sigs revoked).1, fill_idOf]
  unfold lookup
  rw [hfind]

/-! ## Loading -/

variable (fetchKeyId) in
/-- Loading the key would not change it: it is loaded, or there are no signatures to load. -/
def Settled (h : Hash) (keyid : UInt64) : Prop :=
  signers fetchKeyId keyid = [] ∨ (h.lookup keyid).gotsigs = true

variable (fetchKeyId) in
/-- What loading a key leaves as it was. -/
structure Loads (keyid : UInt64) (h h' : Hash) : Prop where
  /-- No key is lost. -/
  le : h.allocated ≤ h'.allocated
  /-- The key ids are the same. -/
  idOf_eq : ∀ a < h.allocated, h'.idOf a = h.idOf a
  /-- The colours are the same. -/
  colour : ∀ k, (h'.lookup k).colour = (h.lookup k).colour
  /-- The parents are the same. -/
  parent : ∀ k, (h'.lookup k).parent = (h.lookup k).parent
  /-- The same keys are disabled. -/
  disabled : ∀ k, (h'.lookup k).disabled = (h.lookup k).disabled
  /-- No other key is found to be revoked. -/
  revoked : ∀ k, k ≠ keyid ∨ h.Settled fetchKeyId k → (h'.lookup k).revoked = (h.lookup k).revoked
  /-- What is loaded stays so. -/
  settled : ∀ k, h.Settled fetchKeyId k → h'.Settled fetchKeyId k

theorem Grows.loads (hg : h.Grows h') (hc : h.Consistent fetchKeyId)
    (hc' : h'.Consistent fetchKeyId) (keyid : UInt64) : Loads fetchKeyId keyid h h' where
  le := hg.le
  idOf_eq _ ha := hg.idOf_eq ha
  colour k := by rw [hg.lookup_eq hc hc']
  parent k := by rw [hg.lookup_eq hc hc']
  disabled k := by rw [hg.lookup_eq hc hc']
  revoked k _ := by rw [hg.lookup_eq hc hc']
  settled k hk := by
    unfold Settled
    rw [hg.lookup_eq hc hc']
    exact hk

theorem Loads.trans {keyid : UInt64} {h'' : Hash} (hl : Loads fetchKeyId keyid h h')
    (hl' : Loads fetchKeyId keyid h' h'') : Loads fetchKeyId keyid h h'' where
  le := hl.le.trans hl'.le
  idOf_eq a ha := (hl'.idOf_eq a (ha.trans_le hl.le)).trans (hl.idOf_eq a ha)
  colour k := (hl'.colour k).trans (hl.colour k)
  parent k := (hl'.parent k).trans (hl.parent k)
  disabled k := (hl'.disabled k).trans (hl.disabled k)
  revoked k hk := (hl'.revoked k (hk.imp_right (hl.settled k))).trans (hl.revoked k hk)
  settled k hk := hl'.settled k (hl.settled k hk)

theorem Consistent.fill_loads (hc : h.Consistent fetchKeyId) {key : Nat} (hkey : key < h.allocated)
    (hnew : (h.node key).gotsigs = false) (hne : signers fetchKeyId (h.idOf key) ≠ [])
    {sigs : List Nat} {revoked : Bool} (hc' : (h.fill key sigs revoked).Consistent fetchKeyId) :
    Loads fetchKeyId (h.idOf key) h (h.fill key sigs revoked) ∧
      (h.fill key sigs revoked).Settled fetchKeyId (h.idOf key) := by
  have hlookup := hc.lookup_fill hc'
  have hkeyfind := (findinhash_eq_some hc).mpr ⟨hkey, rfl⟩
  have hself : ((h.fill key sigs revoked).lookup (h.idOf key)).gotsigs = true := by
    rw [hlookup, hkeyfind]
    exact (fill_gotsigs h key sigs revoked key).trans (if_pos rfl)
  have hfields (k : UInt64) : ∃ signs, (h.fill key sigs revoked).lookup k =
      if k = h.idOf key then { h.lookup k with sigs, signs, revoked, gotsigs := true }
      else { h.lookup k with signs } := by
    rw [hlookup]
    unfold lookup
    cases hfind : h.findinhash k with
    | none =>
      have hk : k ≠ h.idOf key := fun heq => by
        rw [heq, hkeyfind] at hfind
        cases hfind
      exact ⟨[], by rw [if_neg hk]⟩
    | some a =>
      obtain ⟨ha, hid⟩ := of_findinhash hc hfind
      have hiff : a = key ↔ k = h.idOf key :=
        ⟨fun heq => by rw [← hid, heq], fun heq => hc.unique a ha key hkey (hid.trans heq)⟩
      refine ⟨List.replicate (sigs.count a) key ++ (h.node a).signs, ?_⟩
      simp only [fill_node, hiff]
  have hloads : Loads fetchKeyId (h.idOf key) h (h.fill key sigs revoked) :=
    { le := by rw [(fill_allocated h key sigs revoked).1]
      idOf_eq := fun a _ => fill_idOf h key sigs revoked a
      colour := by
        intro k
        obtain ⟨signs, hk⟩ := hfields k
        rw [hk]
        split_ifs <;> rfl
      parent := by
        intro k
        obtain ⟨signs, hk⟩ := hfields k
        rw [hk]
        split_ifs <;> rfl
      disabled := by
        intro k
        obtain ⟨signs, hk⟩ := hfields k
        rw [hk]
        split_ifs <;> rfl
      revoked := by
        intro k hother
        obtain ⟨signs, hk⟩ := hfields k
        have hkid : k ≠ h.idOf key := by
          rcases hother with hother | hsettled
          · exact hother
          · rintro rfl
            rcases hsettled with hnil | hgot
            · exact hne hnil
            · rw [lookup_idOf hc hkey, hnew] at hgot
              cases hgot
        rw [hk, if_neg hkid]
      settled := by
        intro k hsettled
        obtain ⟨signs, hk⟩ := hfields k
        refine hsettled.imp_right fun hgot => ?_
        rw [hk]
        split_ifs
        · rfl
        · exact hgot }
  exact ⟨hloads, .inr hself⟩

/-- A key that is not loaded yet gets its signatures, after its signers have come to the hash. -/
theorem Consistent.load (hc : h.Consistent fetchKeyId) (hc' : h'.Consistent fetchKeyId)
    (hg : h.Grows h') {keyid : UInt64} (hnew : (h.lookup keyid).gotsigs = false) {key : Nat}
    (hkey : key < h'.allocated) (hid : h'.idOf key = keyid) {sigs : List Nat}
    (hlt : ∀ a ∈ sigs, a < h'.allocated) (hmap : sigs.map h'.idOf = signers fetchKeyId keyid)
    (hne : signers fetchKeyId keyid ≠ []) :
    let loaded := h'.fill key sigs (storedRevoked fetchKeyId keyid)
    loaded.Consistent fetchKeyId ∧ Loads fetchKeyId keyid h loaded ∧ loaded.Settled fetchKeyId keyid ∧
      (∀ a ∈ sigs, a < loaded.allocated) ∧ sigs.map loaded.idOf = signers fetchKeyId keyid := by
  have hnew' : (h'.node key).gotsigs = false := by
    rw [← lookup_idOf hc' hkey, hid, hg.lookup_eq hc hc']
    exact hnew
  subst hid
  have hfilled := hc'.fill hkey hnew' hlt hmap
  obtain ⟨hl, hself⟩ := hc'.fill_loads hkey hnew' hne hfilled
  refine ⟨hfilled, (hg.loads hc hc' _).trans hl, hself, ?_, ?_⟩
  · rw [(fill_allocated ..).1]
    exact hlt
  · rw [← hmap]
    exact List.map_congr_left fun a _ => fill_idOf ..

theorem Consistent.getkeysigs (hc : h.Consistent fetchKeyId) {keyid : UInt64} {sigs : List Nat}
    {revoked : Bool} (hget : Hash.getkeysigs fetchKeyId h keyid = (h', sigs, revoked)) :
    h'.Consistent fetchKeyId ∧ h.Grows h' ∧ (∀ a ∈ sigs, a < h'.allocated) ∧
      sigs.map h'.idOf = issuers fetchKeyId keyid ∧ revoked = storedRevoked fetchKeyId keyid := by
  unfold Hash.getkeysigs at hget
  unfold issuers storedRevoked
  cases hfetch : fetchKeyId keyid with
  | none =>
    rw [hfetch] at hget
    obtain ⟨rfl, hrest⟩ := Prod.mk.inj hget
    obtain ⟨rfl, rfl⟩ := Prod.mk.inj hrest
    exact ⟨hc, .refl h, fun a ha => absurd ha List.not_mem_nil, rfl, rfl⟩
  | some publickey =>
    rw [hfetch] at hget
    obtain ⟨⟨h₁, sigs₁⟩, hloop⟩ : ∃ r, Hash.getkeysigsLoop h [] (uidSigs publickey) = r := ⟨_, rfl⟩
    simp only [hloop] at hget
    obtain ⟨rfl, hrest⟩ := Prod.mk.inj hget
    obtain ⟨rfl, rfl⟩ := Prod.mk.inj hrest
    obtain ⟨hc', hg, hlt, hmap⟩ :=
      hc.getkeysigsLoop (fun a ha => absurd ha List.not_mem_nil) hloop
    rw [List.map_nil, List.append_nil] at hmap
    exact ⟨hc', hg, hlt, hmap, rfl⟩

/-- **What `generic_cached_getkeysigs` does**: the invariant is kept, the list is that of the signers, and
no mark of a search is touched. -/
theorem Consistent.cachedGetkeysigs (hc : h.Consistent fetchKeyId) {keyid : UInt64} {sigs : List Nat}
    (hcall : Hash.cachedGetkeysigs fetchKeyId h keyid = (h', sigs)) :
    h'.Consistent fetchKeyId ∧ Loads fetchKeyId keyid h h' ∧ h'.Settled fetchKeyId keyid ∧
      (∀ a ∈ sigs, a < h'.allocated) ∧ sigs.map h'.idOf = signers fetchKeyId keyid := by
  unfold Hash.cachedGetkeysigs at hcall
  have hrefl := (Grows.refl h).loads hc hc keyid
  by_cases hzero : keyid = 0
  · rw [if_pos hzero] at hcall
    obtain ⟨rfl, rfl⟩ := Prod.mk.inj hcall
    have hnil : signers fetchKeyId keyid = [] := if_pos hzero
    exact ⟨hc, hrefl, .inl hnil, fun a ha => absurd ha List.not_mem_nil, hnil.symm⟩
  rw [if_neg hzero] at hcall
  have hsigners : signers fetchKeyId keyid = issuers fetchKeyId keyid := if_neg hzero
  cases hgot : (h.findinhash keyid).filter fun a => (h.node a).gotsigs with
  | some a =>
    simp only [hgot] at hcall
    obtain ⟨rfl, rfl⟩ := Prod.mk.inj hcall
    obtain ⟨hfind, hgotsigs⟩ := Option.filter_eq_some_iff.mp hgot
    obtain ⟨ha, hid⟩ := of_findinhash hc hfind
    have hmap := hc.sigs_eq a ha
    rw [if_pos hgotsigs, hid] at hmap
    refine ⟨hc, hrefl, .inr ?_, hc.sigs_lt a ha, hmap⟩
    rw [← hid, lookup_idOf hc ha]
    exact hgotsigs
  | none =>
    simp only [hgot] at hcall
    have hnew : (h.lookup keyid).gotsigs = false := by
      rw [Option.filter_eq_none_iff] at hgot
      unfold lookup
      cases hfind : h.findinhash keyid with
      | none => rfl
      | some a => exact (Bool.not_eq_true _).mp (hgot a hfind)
    obtain ⟨⟨h₁, sigs₁, revoked⟩, hget⟩ : ∃ r, Hash.getkeysigs fetchKeyId h keyid = r := ⟨_, rfl⟩
    obtain ⟨hc₁, hg₁, hlt₁, hmap₁, rfl⟩ := hc.getkeysigs hget
    simp only [hget] at hcall
    by_cases hnil : sigs₁ = []
    · rw [if_pos hnil] at hcall
      obtain ⟨rfl, rfl⟩ := Prod.mk.inj hcall
      have hempty : signers fetchKeyId keyid = [] := by
        rw [hsigners, ← hmap₁, hnil, List.map_nil]
      exact ⟨hc₁, hg₁.loads hc hc₁ keyid, .inl hempty, fun a ha => absurd ha List.not_mem_nil,
        hempty.symm⟩
    · rw [if_neg hnil] at hcall
      have hne : signers fetchKeyId keyid ≠ [] := by
        rw [hsigners, ← hmap₁]
        exact fun h => hnil (List.map_eq_nil_iff.mp h)
      cases hfind : h.findinhash keyid with
      | none =>
        -- the key may be one of its own signers by now
        obtain ⟨⟨h₂, key⟩, hcreate⟩ : ∃ r, h₁.createandaddtohash keyid = r := ⟨_, rfl⟩
        obtain ⟨hc₂, hg₂, hkey, hid⟩ := hc₁.createandaddtohash hcreate
        simp only [hfind, hcreate] at hcall
        obtain ⟨rfl, rfl⟩ := Prod.mk.inj hcall
        refine hc.load hc₂ (hg₁.trans hg₂) hnew hkey hid (fun a ha => (hlt₁ a ha).trans_le hg₂.le) ?_ hne
        rw [hg₂.map_idOf hlt₁, hmap₁, hsigners]
      | some key =>
        obtain ⟨ha, hid⟩ := of_findinhash hc hfind
        simp only [hfind] at hcall
        obtain ⟨rfl, rfl⟩ := Prod.mk.inj hcall
        refine hc.load hc₁ hg₁ hnew (ha.trans_le hg₁.le) ((hg₁.idOf_eq ha).trans hid) hlt₁ ?_ hne
        rw [hmap₁, hsigners]

/-! ## Sequences of calls -/

variable (fetchKeyId) in
/-- The hash after a sequence of calls. -/
def afterCalls (keyids : List UInt64) (h : Hash) : Hash :=
  keyids.foldl (fun h keyid => (Hash.cachedGetkeysigs fetchKeyId h keyid).1) h

theorem Consistent.afterCalls (keyids : List UInt64) (hc : h.Consistent fetchKeyId) :
    (Hash.afterCalls fetchKeyId keyids h).Consistent fetchKeyId := by
  induction keyids generalizing h with
  | nil => exact hc
  | cons keyid keyids ih => exact ih (hc.cachedGetkeysigs rfl).1

/-- The keys of the hash. -/
def nodes (h : Hash) : List Nat := (List.range hashsize).flatMap h.gethashtableentry

theorem bucket_lt (keyid : UInt64) : bucket keyid < hashsize := by
  unfold bucket
  have hle : (keyid &&& hashmask).toNat ≤ hashmask.toNat := by
    rw [UInt64.toNat_and]
    exact Nat.and_le_right
  exact Nat.lt_of_le_of_lt hle (by decide)

theorem Consistent.mem_nodes (hc : h.Consistent fetchKeyId) {a : Nat} :
    a ∈ h.nodes ↔ a < h.allocated := by
  unfold nodes gethashtableentry
  rw [List.mem_flatMap]
  constructor
  · rintro ⟨entry, -, ha⟩
    exact ((hc.entry_iff entry a).mp ha).1
  · intro ha
    exact ⟨bucket (h.idOf a), List.mem_range.mpr (bucket_lt _), (hc.entry_iff _ a).mpr ⟨ha, rfl⟩⟩

theorem Consistent.nodup_nodes (hc : h.Consistent fetchKeyId) : h.nodes.Nodup := by
  refine List.nodup_flatMap.mpr ⟨fun entry _ => hc.nodup entry, ?_⟩
  refine List.nodup_range.imp fun {x y} hne a hx hy => hne ?_
  rw [← ((hc.entry_iff x a).mp hx).2]
  exact ((hc.entry_iff y a).mp hy).2

theorem Consistent.length_nodes (hc : h.Consistent fetchKeyId) : h.nodes.length = h.allocated := by
  have hperm : h.nodes.Perm (List.range h.allocated) :=
    (List.perm_ext_iff_of_nodup hc.nodup_nodes List.nodup_range).mpr fun a => by
      rw [hc.mem_nodes, List.mem_range]
  rw [hperm.length_eq, List.length_range]

end

/-- **The cache is a consistent graph.** After every sequence of calls the hash has at most one key for
a key id and as many as `hashelements` says, each edge is in the list of both its ends, and the list of
signers of a key is empty or gives the issuer of each signature over a user id of the stored key. -/
theorem cache_consistent (fetchKeyId : UInt64 → Option PublicKey) (keyids : List UInt64) :
    let h := afterCalls fetchKeyId keyids inithash
    (h.nodes.map h.idOf).Nodup ∧
    h.hashelements = h.nodes.length ∧
    (∀ k ∈ h.nodes, ∀ s ∈ h.nodes, (h.node s).signs.count k = (h.node k).sigs.count s) ∧
    ∀ k ∈ h.nodes, (∀ s ∈ (h.node k).sigs, s ∈ h.nodes) ∧
      ((h.node k).sigs = [] ∨ ∃ publickey, fetchKeyId (h.idOf k) = some publickey ∧
        ((h.node k).sigs.map h.idOf).Perm ((uidSigs publickey).map sigKeyid)) := by
  intro h
  have hc : h.Consistent fetchKeyId := (consistent_inithash fetchKeyId).afterCalls keyids
  refine ⟨?_, ?_, ?_, ?_⟩
  · exact hc.nodup_nodes.map_on fun a ha b hb heq =>
      hc.unique a (hc.mem_nodes.mp ha) b (hc.mem_nodes.mp hb) heq
  · exact hc.elements_eq.trans hc.length_nodes.symm
  · intro k hk s hs
    exact hc.count_eq k (hc.mem_nodes.mp hk) s (hc.mem_nodes.mp hs)
  · intro k hk
    have hk' := hc.mem_nodes.mp hk
    refine ⟨fun s hs => hc.mem_nodes.mpr (hc.sigs_lt k hk' s hs), ?_⟩
    have hsigs := hc.sigs_eq k hk'
    by_cases hnil : (h.node k).sigs = []
    · exact .inl hnil
    · right
      have hne : (h.node k).sigs.map h.idOf ≠ [] := fun hmap => hnil (List.map_eq_nil_iff.mp hmap)
      rw [hsigs] at hne ⊢
      split_ifs at hne ⊢ with hgot
      · unfold signers issuers at hne ⊢
        split_ifs at hne ⊢ with hzero
        · exact absurd rfl hne
        · cases hfetch : fetchKeyId (h.idOf k) with
          | none =>
            rw [hfetch] at hne
            exact absurd rfl hne
          | some publickey => exact ⟨publickey, rfl, List.reverse_perm _⟩
      · exact absurd rfl hne

end Hash

end Onak
