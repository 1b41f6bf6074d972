import Onak.Lib.Bfs
import Onak.Proofs.HashProofs

/-!
# Proofs: searches in the graph of signatures

`searchLoop` is a breadth-first search over key ids, whether the keys are in the hash when it begins or
come to it on the way. What a search asks of the loop that it is made of is `Explores`.
-/

namespace Onak

namespace Hash

/-- The colour of a key. -/
def colourOf (h : Hash) (keyid : UInt64) : Nat := (h.lookup keyid).colour

/-- The parent of a key. -/
def parentOf (h : Hash) (keyid : UInt64) : UInt64 := (h.lookup keyid).parent

/-! ## Marks -/

section

variable {fetchKeyId : UInt64 → Option PublicKey} {h : Hash}

/-- An assignment that leaves the key id, the lists and the flags of loading as they are. -/
structure SameEdges (key key' : StatsKey) : Prop where
  /-- The key id is the same. -/
  keyid : key'.keyid = key.keyid
  /-- The signers are the same. -/
  sigs : key'.sigs = key.sigs
  /-- The keys that are signed are the same. -/
  signs : key'.signs = key.signs
  /-- It is loaded or not, as before. -/
  gotsigs : key'.gotsigs = key.gotsigs
  /-- It is revoked or not, as before. -/
  revoked : key'.revoked = key.revoked

theorem SameEdges.refl (key : StatsKey) : SameEdges key key := ⟨rfl, rfl, rfl, rfl, rfl⟩

/-- The invariant is about the edges. -/
theorem Consistent.of_sameEdges (hc : h.Consistent fetchKeyId) {h' : Hash}
    (halloc : h'.allocated = h.allocated) (htable : h'.hashtable = h.hashtable)
    (helements : h'.elements = h.elements) (hsame : ∀ a, SameEdges (h.node a) (h'.node a)) :
    h'.Consistent fetchKeyId := by
  have hid : h'.idOf = h.idOf := funext fun a => (hsame a).keyid
  exact
    { entry_iff := by
        rw [htable, halloc, hid]
        exact hc.entry_iff
      nodup := by
        rw [htable]
        exact hc.nodup
      unique := by
        rw [halloc, hid]
        exact hc.unique
      elements_eq := by
        rw [helements, halloc]
        exact hc.elements_eq
      sigs_lt := by
        intro a ha
        rw [halloc] at ha ⊢
        rw [(hsame a).sigs]
        exact hc.sigs_lt a ha
      signs_lt := by
        intro a ha
        rw [halloc] at ha ⊢
        rw [(hsame a).signs]
        exact hc.signs_lt a ha
      count_eq := by
        intro k hk s hs
        rw [halloc] at hk hs
        rw [(hsame s).signs, (hsame k).sigs]
        exact hc.count_eq k hk s hs
      sigs_eq := by
        intro a ha
        rw [halloc] at ha
        rw [hid, (hsame a).sigs, (hsame a).gotsigs]
        exact hc.sigs_eq a ha
      revoked_eq := by
        intro a ha
        rw [halloc] at ha
        rw [hid, (hsame a).revoked, (hsame a).gotsigs]
        exact hc.revoked_eq a ha }

theorem set_node (h : Hash) (a : Nat) (key : StatsKey) :
    (h.set a key).node = Function.update h.node a key := rfl

theorem Consistent.set (hc : h.Consistent fetchKeyId) {a : Nat} {key : StatsKey}
    (hsame : SameEdges (h.node a) key) : (h.set a key).Consistent fetchKeyId := by
  refine hc.of_sameEdges rfl rfl rfl fun b => ?_
  rw [set_node]
  by_cases hb : b = a
  · rw [hb, Function.update_self]
    exact hsame
  · rw [Function.update_of_ne hb]
    exact .refl _

theorem set_idOf {a : Nat} {key : StatsKey} (hid : key.keyid = h.idOf a) :
    (h.set a key).idOf = h.idOf := by
  funext b
  unfold idOf
  rw [set_node]
  by_cases hb : b = a
  · rw [hb, Function.update_self]
    exact hid
  · rw [Function.update_of_ne hb]

/-- What is found after an assignment. -/
theorem Consistent.lookup_set (hc : h.Consistent fetchKeyId) {a : Nat} {key : StatsKey}
    (ha : a < h.allocated) (hsame : SameEdges (h.node a) key) (keyid : UInt64) :
    (h.set a key).lookup keyid = if keyid = h.idOf a then key else h.lookup keyid := by
  have hc' := hc.set hsame
  have hid : (h.set a key).idOf = h.idOf := set_idOf hsame.keyid
  have hfind : (h.set a key).findinhash keyid = h.findinhash keyid := by
    refine Option.ext fun b => ?_
    rw [findinhash_eq_some hc', findinhash_eq_some hc, hid]
    rfl
  unfold lookup
  rw [hfind]
  cases hb : h.findinhash keyid with
  | none =>
    have hne : keyid ≠ h.idOf a := fun heq => (findinhash_eq_none hc).mp hb a ha heq.symm
    rw [if_neg hne]
  | some b =>
    obtain ⟨hlt, hidb⟩ := of_findinhash hc hb
    show Function.update h.node a key b = _
    by_cases heq : b = a
    · rw [if_pos (by rw [← hidb, heq]), heq, Function.update_self]
    · have hne : keyid ≠ h.idOf a := fun hk => heq (hc.unique b hlt a ha (hidb.trans hk))
      rw [if_neg hne, Function.update_of_ne heq]

theorem sameEdges_mark (h : Hash) (curdegree key sig : Nat) :
    SameEdges (h.node sig)
      { h.node sig with colour := curdegree, parent := (h.node key).keyid } :=
  ⟨rfl, rfl, rfl, rfl, rfl⟩

theorem Consistent.colourOf_mark (hc : h.Consistent fetchKeyId) {sig : Nat} (hsig : sig < h.allocated)
    (curdegree key : Nat) :
    (h.mark curdegree key sig).colourOf = Function.update h.colourOf (h.idOf sig) curdegree := by
  funext k
  unfold colourOf mark
  rw [hc.lookup_set hsig (sameEdges_mark h curdegree key sig), Function.update_apply]
  split_ifs <;> rfl

theorem Consistent.parentOf_mark (hc : h.Consistent fetchKeyId) {sig : Nat} (hsig : sig < h.allocated)
    (curdegree key : Nat) :
    (h.mark curdegree key sig).parentOf = Function.update h.parentOf (h.idOf sig) (h.idOf key) := by
  funext k
  unfold parentOf mark
  rw [hc.lookup_set hsig (sameEdges_mark h curdegree key sig), Function.update_apply]
  split_ifs <;> rfl

theorem colourOf_idOf (hc : h.Consistent fetchKeyId) {a : Nat} (ha : a < h.allocated) :
    h.colourOf (h.idOf a) = (h.node a).colour := by
  unfold colourOf
  rw [lookup_idOf hc ha]

end

/-! ## Searches -/

section

variable (fetchKeyId : UInt64 → Option PublicKey)
  -- the graph that is searched
  (next : UInt64 → List UInt64) (okId : UInt64 → Prop) (src : UInt64)
  -- the parts of the loop, and what they keep
  (stop : Hash → Bool) (ok : StatsKey → Bool) (expand : Hash → UInt64 → Hash × List Nat)
  (Kept : Hash → Prop)

/-- What looking at a key does to the hash. -/
structure Expands (h h' : Hash) (keyid : UInt64) (sigs : List Nat) : Prop where
  /-- The invariant is kept. -/
  consistent : h'.Consistent fetchKeyId
  /-- And what else is to be kept. -/
  kept : Kept h'
  /-- No key is lost. -/
  le : h.allocated ≤ h'.allocated
  /-- The key ids are the same. -/
  idOf_eq : ∀ a < h.allocated, h'.idOf a = h.idOf a
  /-- The colours are the same. -/
  colourOf_eq : h'.colourOf = h.colourOf
  /-- The parents are the same. -/
  parentOf_eq : h'.parentOf = h.parentOf
  /-- What is found are keys. -/
  sigs_lt : ∀ a ∈ sigs, a < h'.allocated
  /-- They are those next to it. -/
  sigs_eq : sigs.map h'.idOf = next keyid

/-- A search of a graph: the parts of the loop do what they should as long as something is kept. -/
structure Explores : Prop where
  /-- A key that has been found, or the one the search begins with, is looked at. -/
  expand : ∀ (h : Hash) (keyid : UInt64), h.Consistent fetchKeyId → Kept h →
    keyid = src ∨ h.colourOf keyid ≠ 0 →
    Expands fetchKeyId next Kept h (expand h keyid).1 keyid (expand h keyid).2
  /-- A key is marked. -/
  mark : ∀ (h : Hash) (curdegree key sig : Nat), h.Consistent fetchKeyId → Kept h →
    sig < h.allocated → curdegree ≠ 0 → Kept (h.mark curdegree key sig)
  /-- The keys that are let in. -/
  ok_iff : ∀ (h : Hash) (a : Nat), h.Consistent fetchKeyId → Kept h → a < h.allocated →
    (h.node a).colour = 0 → (ok (h.node a) = true ↔ okId (h.idOf a))

/-- The loop in the middle of a search. -/
structure Searching (level : Nat) (cur : List Nat) (s : Search) (found : List UInt64) : Prop where
  /-- The hash is consistent. -/
  consistent : s.hash.Consistent fetchKeyId
  /-- What else is kept. -/
  kept : Kept s.hash
  /-- The search is one by levels. -/
  bfs : Bfs.Inv next okId src level (cur.map s.hash.idOf) (s.nextkeys.map s.hash.idOf) found
    s.hash.colourOf s.hash.parentOf
  /-- What is left are keys. -/
  cur_lt : ∀ a ∈ cur, a < s.hash.allocated
  /-- What is found on this level are keys. -/
  next_lt : ∀ a ∈ s.nextkeys, a < s.hash.allocated
  /-- What is found is counted. -/
  count_eq : s.count = found.length
  /-- The last one is a key. -/
  max_lt : s.max < s.hash.allocated
  /-- No other has a greater colour. -/
  le_max : ∀ v, s.hash.colourOf v ≤ s.hash.colourOf (s.hash.idOf s.max)
  /-- It is the one the search began with as long as nothing is found. -/
  max_eq : found = [] → s.hash.idOf s.max = src

/-- What the loop over the signatures does to a search. -/
structure Scanned (s s' : Search) (found found' : List UInt64) : Prop where
  /-- No key comes to the hash. -/
  allocated_eq : s'.hash.allocated = s.hash.allocated
  /-- The key ids are the same. -/
  idOf_eq : s'.hash.idOf = s.hash.idOf
  /-- What was found stays so. -/
  keeps : ∀ v, s.hash.colourOf v ≠ 0 → s'.hash.colourOf v ≠ 0
  /-- What is found is of the next level. -/
  length_eq : found'.length + s.nextkeys.length = found.length + s'.nextkeys.length

/-- The end of a search. -/
structure Searched (bound : Nat → Bool) (r : Search) (level : Nat) (cur nxt found : List UInt64) :
    Prop where
  /-- The hash is consistent. -/
  consistent : r.hash.Consistent fetchKeyId
  /-- What else is kept. -/
  kept : Kept r.hash
  /-- The search is one by levels. -/
  bfs : Bfs.Inv next okId src level cur nxt found r.hash.colourOf r.hash.parentOf
  /-- What is found is counted. -/
  count_eq : r.count = found.length
  /-- The last one is a key. -/
  max_lt : r.max < r.hash.allocated
  /-- No other has a greater colour. -/
  le_max : ∀ v, r.hash.colourOf v ≤ r.hash.colourOf (r.hash.idOf r.max)
  /-- It is the one the search began with if nothing is found. -/
  max_eq : found = [] → r.hash.idOf r.max = src
  /-- Levels are begun as long as they are within the bound. -/
  before : level = 1 ∨ bound (level - 1) = true
  /-- Why it is over. -/
  ended : stop r.hash = true ∨ cur = [] ∧ nxt = [] ∨ bound level = false ∧ nxt = []

variable {fetchKeyId next okId src stop ok expand Kept}

/-- A key is looked at. -/
theorem Searching.look (he : Explores fetchKeyId next okId src ok expand Kept) {level : Nat}
    {key : Nat} {keys : List Nat} {s : Search} {found : List UInt64}
    (hs : Searching fetchKeyId next okId src Kept level (key :: keys) s found) :
    let r := expand s.hash (s.hash.node key).keyid
    Searching fetchKeyId next okId src Kept level (key :: keys) { s with hash := r.1 } found ∧
      (∀ a ∈ r.2, a < r.1.allocated) ∧ r.2.map r.1.idOf = next (r.1.idOf key) := by
  obtain ⟨hash, hhash⟩ : ∃ hash, s.hash = hash := ⟨_, rfl⟩
  obtain ⟨hc, hkept, hbfs, hcur, hnxt, hcount, hmax, hle, hmaxeq⟩ := hs
  simp only [hhash] at hc hkept hbfs hcur hnxt hmax hle hmaxeq ⊢
  have hkey := hcur key List.mem_cons_self
  have hpos := hbfs.pos
  have hfound : hash.idOf key = src ∨ hash.colourOf (hash.idOf key) ≠ 0 := by
    have hat := hbfs.cur_at (hash.idOf key) (List.mem_map_of_mem List.mem_cons_self)
    unfold Bfs.At at hat
    split_ifs at hat with hone
    · exact .inl hat
    · exact .inr (by omega)
  have hx := he.expand hash (hash.idOf key) hc hkept hfound
  obtain ⟨r, hr⟩ : ∃ r, expand hash (hash.node key).keyid = r := ⟨_, rfl⟩
  have hr' : expand hash (hash.idOf key) = r := hr
  rw [hr'] at hx
  rw [hr]
  have hmap {l : List Nat} (hl : ∀ a ∈ l, a < hash.allocated) : l.map r.1.idOf = l.map hash.idOf :=
    List.map_congr_left fun a ha => hx.idOf_eq a (hl a ha)
  refine ⟨⟨hx.consistent, hx.kept, ?_, fun a ha => (hcur a ha).trans_le hx.le,
    fun a ha => (hnxt a ha).trans_le hx.le, hcount, hmax.trans_le hx.le, ?_, ?_⟩, hx.sigs_lt, ?_⟩
  · rw [hmap hcur, hmap hnxt, hx.colourOf_eq, hx.parentOf_eq]
    exact hbfs
  · intro v
    rw [hx.colourOf_eq, hx.idOf_eq _ hmax]
    exact hle v
  · intro hnil
    rw [hx.idOf_eq _ hmax]
    exact hmaxeq hnil
  · rw [hx.idOf_eq _ hkey]
    exact hx.sigs_eq

/-- A key is found. -/
theorem Searching.find (he : Explores fetchKeyId next okId src ok expand Kept) {level key sig : Nat}
    {keys : List Nat} {s : Search} {found : List UInt64}
    (hs : Searching fetchKeyId next okId src Kept level (key :: keys) s found)
    (hsig : sig < s.hash.allocated) (hnext : s.hash.idOf sig ∈ next (s.hash.idOf key))
    (hok : ok (s.hash.node sig) = true) (hnew : (s.hash.node sig).colour = 0) :
    Searching fetchKeyId next okId src Kept level (key :: keys)
      ⟨s.hash.mark level key sig, sig :: s.nextkeys, s.count + 1, sig⟩
      (s.hash.idOf sig :: found) := by
  have hc := hs.consistent
  have hid : (s.hash.mark level key sig).idOf = s.hash.idOf := set_idOf rfl
  have hcolour := hc.colourOf_mark hsig level key
  have hbfs := hs.bfs.find (u := s.hash.idOf key) (v := s.hash.idOf sig)
    (List.mem_map_of_mem List.mem_cons_self) hnext
    ((he.ok_iff s.hash sig hc hs.kept hsig hnew).mp hok) (by rw [colourOf_idOf hc hsig, hnew])
  have hpos := hs.bfs.pos
  refine ⟨hc.set (sameEdges_mark ..), he.mark s.hash level key sig hc hs.kept hsig (by omega), ?_,
    hs.cur_lt, ?_, ?_, hsig, ?_, fun h => absurd h (List.cons_ne_nil _ _)⟩
  · simp only [hid, hcolour, hc.parentOf_mark hsig, List.map_cons]
    exact hbfs
  · intro a ha
    rcases List.mem_cons.mp ha with rfl | ha
    · exact hsig
    · exact hs.next_lt a ha
  · show s.count + 1 = _
    rw [hs.count_eq, List.length_cons]
  · intro v
    simp only [hid, hcolour, Function.update_self]
    exact hbfs.le v

/-- The loop over the signatures finds all that are next to the key, unless it stops. -/
theorem Searching.searchSigs (stop : Hash → Bool) (he : Explores fetchKeyId next okId src ok expand Kept) {level key : Nat}
    {keys sigs : List Nat} {s : Search} {found : List UInt64}
    (hs : Searching fetchKeyId next okId src Kept level (key :: keys) s found)
    (hlt : ∀ a ∈ sigs, a < s.hash.allocated)
    (hnext : ∀ a ∈ sigs, s.hash.idOf a ∈ next (s.hash.idOf key)) :
    ∃ found', Searching fetchKeyId next okId src Kept level (key :: keys)
        (Hash.searchSigs stop ok level key sigs s) found' ∧
      Scanned s (Hash.searchSigs stop ok level key sigs s) found found' ∧
      (stop (Hash.searchSigs stop ok level key sigs s).hash = false → ∀ a ∈ sigs, okId (s.hash.idOf a) →
        (Hash.searchSigs stop ok level key sigs s).hash.colourOf (s.hash.idOf a) ≠ 0) := by
  induction sigs generalizing s found with
  | nil => exact ⟨found, hs, ⟨rfl, rfl, fun _ => id, rfl⟩, fun _ a ha => absurd ha List.not_mem_nil⟩
  | cons sig sigs ih =>
    have hsig := hlt sig List.mem_cons_self
    have hlt' : ∀ a ∈ sigs, a < s.hash.allocated := fun a ha => hlt a (List.mem_cons_of_mem _ ha)
    have hnext' : ∀ a ∈ sigs, s.hash.idOf a ∈ next (s.hash.idOf key) :=
      fun a ha => hnext a (List.mem_cons_of_mem _ ha)
    rw [Hash.searchSigs]
    by_cases hstop : stop s.hash = true
    · rw [if_pos hstop]
      exact ⟨found, hs, ⟨rfl, rfl, fun _ => id, rfl⟩, fun hgo => absurd hgo (by rw [hstop]; simp)⟩
    rw [if_neg hstop]
    by_cases hin : (ok (s.hash.node sig) && (s.hash.node sig).colour = 0) = true
    · rw [if_pos hin]
      obtain ⟨hok, hnew⟩ := Bool.and_eq_true_iff.mp hin
      have hfind := hs.find he hsig (hnext sig List.mem_cons_self) hok (of_decide_eq_true hnew)
      have hid : (s.hash.mark level key sig).idOf = s.hash.idOf := set_idOf rfl
      have hpos := hs.bfs.pos
      have hcolour := hs.consistent.colourOf_mark hsig level key
      obtain ⟨found', hs', hscan, hall⟩ := ih hfind hlt' (by simpa only [hid] using hnext')
      have hkeep (v : UInt64) (hv : s.hash.colourOf v ≠ 0) :
          (s.hash.mark level key sig).colourOf v ≠ 0 := by
        rw [hcolour, Function.update_apply]
        split_ifs
        · omega
        · exact hv
      refine ⟨found', hs', ⟨hscan.allocated_eq, hscan.idOf_eq.trans hid,
        fun v hv => hscan.keeps v (hkeep v hv), ?_⟩, ?_⟩
      · have hlen := hscan.length_eq
        simp only [List.length_cons] at hlen
        omega
      · intro hgo a ha hoka
        rcases List.mem_cons.mp ha with rfl | ha
        · refine hscan.keeps _ ?_
          show (s.hash.mark level key a).colourOf _ ≠ 0
          rw [hcolour, Function.update_self]
          omega
        · simp only [hid] at hall
          exact hall hgo a ha hoka
    · rw [if_neg hin]
      obtain ⟨found', hs', hscan, hall⟩ := ih hs hlt' hnext'
      refine ⟨found', hs', hscan, ?_⟩
      intro hgo a ha hoka
      rcases List.mem_cons.mp ha with rfl | ha
      · refine hscan.keeps _ fun hzero => hin ?_
        rw [colourOf_idOf hs.consistent hsig] at hzero
        rw [(he.ok_iff s.hash a hs.consistent hs.kept hsig hzero).mpr hoka, hzero]
        rfl
      · exact hall hgo a ha hoka

theorem Searching.advance {level key : Nat} {keys : List Nat} {s : Search} {found : List UInt64}
    (hs : Searching fetchKeyId next okId src Kept level (key :: keys) s found)
    (hall : ∀ v ∈ next (s.hash.idOf key), okId v → s.hash.colourOf v ≠ 0) :
    Searching fetchKeyId next okId src Kept level keys s found :=
  { hs with
    bfs := hs.bfs.advance hall
    cur_lt := fun a ha => hs.cur_lt a (List.mem_cons_of_mem key ha) }

theorem Searching.nextLevel {level : Nat} {s : Search} {found : List UInt64}
    (hs : Searching fetchKeyId next okId src Kept level [] s found) :
    Searching fetchKeyId next okId src Kept (level + 1) s.nextkeys { s with nextkeys := [] } found :=
  { hs with
    bfs := hs.bfs.nextLevel
    cur_lt := hs.next_lt
    next_lt := fun _ ha => absurd ha List.not_mem_nil }

/-- Where a search is when it ends. -/
theorem Searching.searched {bound : Nat → Bool} {level : Nat} {cur : List Nat} {s r : Search}
    {found : List UInt64} (hs : Searching fetchKeyId next okId src Kept level cur s found)
    (hhash : r.hash = s.hash) (hcount : r.count = s.count) (hmax : r.max = s.max)
    (hbefore : level = 1 ∨ bound (level - 1) = true)
    (hended : stop s.hash = true ∨ cur = [] ∧ s.nextkeys = [] ∨ bound level = false ∧ s.nextkeys = []) :
    Searched fetchKeyId next okId src stop Kept bound r level (cur.map s.hash.idOf)
      (s.nextkeys.map s.hash.idOf) found where
  consistent := by
    rw [hhash]
    exact hs.consistent
  kept := by
    rw [hhash]
    exact hs.kept
  bfs := by
    rw [hhash]
    exact hs.bfs
  count_eq := by
    rw [hcount]
    exact hs.count_eq
  max_lt := by
    rw [hhash, hmax]
    exact hs.max_lt
  le_max := by
    rw [hhash, hmax]
    exact hs.le_max
  max_eq := by
    rw [hhash, hmax]
    exact hs.max_eq
  before := hbefore
  ended := by
    rw [hhash, List.map_eq_nil_iff, List.map_eq_nil_iff]
    exact hended

variable {go : Nat → Hash → Bool} {bound : Nat → Bool}

theorem searchLoop_of_stop (hgo : ∀ level h, go level h = (bound level && !stop h)) (fuel level : Nat)
    (cur : List Nat) {s : Search} (hstop : stop s.hash = true) :
    searchLoop stop ok go expand (fuel + 1) level cur s = some s := by
  cases cur with
  | nil => rfl
  | cons key keys => rw [searchLoop, hgo, hstop, Bool.not_true, Bool.and_false, if_neg Bool.false_ne_true]

variable (stop bound) in
/-- **A search ends.** As often as it looks at a key there are fewer keys that are not found or still to be
looked at. -/
theorem Searching.searchLoop (he : Explores fetchKeyId next okId src ok expand Kept)
    (hgo : ∀ level h, go level h = (bound level && !stop h)) {n : Nat}
    (hn : ∀ l : List UInt64, l.Nodup → l.length ≤ n) (fuel : Nat) {level : Nat} {cur : List Nat}
    {s : Search} {found : List UInt64}
    (hs : Searching fetchKeyId next okId src Kept level cur s found)
    (hcur : cur = [] → s.nextkeys = []) (hbound : s.nextkeys ≠ [] → bound level = true)
    (hbefore : level = 1 ∨ bound (level - 1) = true)
    (hfuel : cur.length + s.nextkeys.length + (n - found.length) < fuel) :
    ∃ r level' cur' nxt' found', searchLoop stop ok go expand fuel level cur s = some r ∧
      Searched fetchKeyId next okId src stop Kept bound r level' cur' nxt' found' := by
  induction fuel generalizing level cur s found with
  | zero => omega
  | succ fuel ih =>
    cases cur with
    | nil =>
      exact ⟨s, level, _, _, found, rfl, hs.searched rfl rfl rfl hbefore (.inr (.inl ⟨rfl, hcur rfl⟩))⟩
    | cons key keys =>
      rw [Hash.searchLoop]
      by_cases hrun : go level s.hash = true
      · rw [if_pos hrun]
        rw [hgo, Bool.and_eq_true] at hrun
        obtain ⟨hlook, hlt, hmap⟩ := hs.look he
        obtain ⟨⟨hash, sigs⟩, hexpand⟩ : ∃ r, expand s.hash (s.hash.node key).keyid = r := ⟨_, rfl⟩
        simp only [hexpand] at hlook hlt hmap ⊢
        obtain ⟨found', hscan, hsame, hall⟩ := hlook.searchSigs stop he hlt fun _ ha => by
          rw [← hmap]
          exact List.mem_map_of_mem ha
        obtain ⟨s', hs'⟩ : ∃ s', s' = Hash.searchSigs stop ok level key sigs { s with hash } := ⟨_, rfl⟩
        rw [← hs'] at hscan hsame hall ⊢
        have hlen := hsame.length_eq
        have hfound := hn found' hscan.bfs.nodup
        simp only [List.length_cons] at hfuel hlen
        by_cases hstop : stop s'.hash = true
        · obtain ⟨fuel, rfl⟩ : ∃ fuel', fuel = fuel' + 1 := ⟨fuel - 1, by omega⟩
          have hend := hscan.searched (r := s') rfl rfl rfl hbefore (.inl hstop)
          split_ifs with hkeys
          · rw [searchLoop_of_stop hgo fuel _ _ (s := { s' with nextkeys := [] }) hstop]
            exact ⟨_, level, _, _, found', rfl, hscan.searched rfl rfl rfl hbefore (.inl hstop)⟩
          · rw [searchLoop_of_stop hgo fuel _ _ hstop]
            exact ⟨s', level, _, _, found', rfl, hend⟩
        · have hdone := hscan.advance fun v hv hok => by
            rw [hsame.idOf_eq, ← hmap] at hv
            obtain ⟨a, ha, rfl⟩ := List.mem_map.mp hv
            exact hall ((Bool.not_eq_true _).mp hstop) a ha hok
          split_ifs with hkeys
          · subst hkeys
            refine ih hdone.nextLevel (fun _ => rfl) (fun hne => absurd rfl hne)
              (.inr (by rw [Nat.add_sub_cancel]; exact hrun.1)) ?_
            simp only [List.length_nil] at hfuel ⊢
            omega
          · exact ih hdone (fun hnil => absurd hnil hkeys) (fun _ => hrun.1) hbefore (by omega)
      · rw [if_neg hrun]
        refine ⟨s, level, _, _, found, rfl, hs.searched rfl rfl rfl hbefore ?_⟩
        rw [hgo] at hrun
        by_cases hstop : stop s.hash = true
        · exact .inl hstop
        · have hno : bound level ≠ true := fun hb => hrun (by rw [hb, (Bool.not_eq_true _).mp hstop]; rfl)
          refine .inr (.inr ⟨(Bool.not_eq_true _).mp hno, ?_⟩)
          by_contra hne
          exact hno (hbound hne)

end

/-- There are not more than so many key ids. -/
theorem length_le_of_nodup {l : List UInt64} (hl : l.Nodup) : l.length ≤ 2 ^ 64 := by
  have hmap : (l.map UInt64.toFin).Nodup := hl.map UInt64.toFin_injective
  have hcard := hmap.length_le_card
  rwa [List.length_map, Fintype.card_fin] at hcard

end Hash

end Onak
