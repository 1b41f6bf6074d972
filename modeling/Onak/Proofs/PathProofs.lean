import Onak.Proofs.DegreeProofs

/-!
# Proofs: paths

`findpath` lets in the keys that were neither disabled nor known to be revoked when it began: what it
finds out about a key while it runs is about a key that it has found already. The two loops that print
a path follow the parents of the search, and what they disable is not found again.
-/

namespace Onak

namespace Hash

open Bfs

/-! ## Clearing the colours -/

/-- What `initcolour` makes of a key. -/
def clearColour (parent : Bool) (key : StatsKey) : StatsKey :=
  { key with colour := 0, parent := if parent then 0 else key.parent }

section

variable {fetchKeyId : UInt64 → Option PublicKey} {h : Hash} (parent : Bool)

theorem sameEdges_clearColour (key : StatsKey) : SameEdges key (clearColour parent key) :=
  ⟨rfl, rfl, rfl, rfl, rfl⟩

theorem foldl_clearColour (l : List Nat) (h : Hash) :
    l.foldl (fun h curkey => h.set curkey (clearColour parent (h.node curkey))) h =
      { h with node := fun a => if a ∈ l then clearColour parent (h.node a) else h.node a } := by
  induction l generalizing h with
  | nil => simp
  | cons x l ih =>
    rw [List.foldl_cons, ih]
    unfold set
    simp only [Hash.mk.injEq, and_true]
    funext a
    by_cases hx : a = x
    · rw [hx, Function.update_self]
      have htwice : clearColour parent (clearColour parent (h.node x)) = clearColour parent (h.node x) := by
        unfold clearColour
        cases parent <;> rfl
      simp [htwice]
    · rw [Function.update_of_ne hx]
      simp [hx]

theorem initcolour_eq_foldl (h : Hash) :
    initcolour parent h =
      h.nodes.foldl (fun h curkey => h.set curkey (clearColour parent (h.node curkey))) h := by
  unfold initcolour nodes
  generalize List.range hashsize = entries
  induction entries generalizing h with
  | nil => rfl
  | cons entry entries ih =>
    rw [List.foldl_cons, List.flatMap_cons, List.foldl_append, ih]
    have htable : ((h.gethashtableentry entry).foldl (fun h curkey =>
        h.set curkey (clearColour parent (h.node curkey))) h).gethashtableentry =
          h.gethashtableentry := by
      rw [foldl_clearColour]
      rfl
    exact congrArg (fun table => (entries.flatMap table).foldl (fun h curkey =>
      h.set curkey (clearColour parent (h.node curkey))) ((h.gethashtableentry entry).foldl
        (fun h curkey => h.set curkey (clearColour parent (h.node curkey))) h)) htable

theorem initcolour_eq (h : Hash) :
    initcolour parent h =
      { h with node := fun a => if a ∈ h.nodes then clearColour parent (h.node a) else h.node a } :=
  (initcolour_eq_foldl parent h).trans (foldl_clearColour parent h.nodes h)

/-- The colours of all keys are cleared. -/
structure Cleared (parent : Bool) (h h' : Hash) : Prop where
  /-- The keys of the hash are cleared. -/
  node : ∀ a, h'.node a = if a ∈ h.nodes then clearColour parent (h.node a) else h.node a
  /-- There are no others. -/
  allocated : h'.allocated = h.allocated
  /-- They are where they were. -/
  hashtable : h'.hashtable = h.hashtable
  /-- They are as many. -/
  elements : h'.elements = h.elements

-- the entries of the hash table are too many to compute with
theorem cleared_initcolour (h : Hash) : Cleared parent h (initcolour parent h) := by
  have hnode (a : Nat) : (initcolour parent h).node a =
      if a ∈ h.nodes then clearColour parent (h.node a) else h.node a := by
    rw [initcolour_eq]
  have hallocated : (initcolour parent h).allocated = h.allocated := by rw [initcolour_eq]
  have hhashtable : (initcolour parent h).hashtable = h.hashtable := by rw [initcolour_eq]
  have helements : (initcolour parent h).elements = h.elements := by rw [initcolour_eq]
  exact ⟨hnode, hallocated, hhashtable, helements⟩

variable {parent} {h' : Hash}

theorem Cleared.idOf_eq (hcl : Cleared parent h h') : h'.idOf = h.idOf := by
  funext a
  unfold idOf
  rw [hcl.node]
  split_ifs <;> rfl

theorem Cleared.consistent (hcl : Cleared parent h h') (hc : h.Consistent fetchKeyId) :
    h'.Consistent fetchKeyId := by
  refine hc.of_sameEdges hcl.allocated hcl.hashtable hcl.elements fun a => ?_
  rw [hcl.node]
  split_ifs
  · exact sameEdges_clearColour parent _
  · exact .refl _

theorem Cleared.lookup_eq (hcl : Cleared parent h h') (hc : h.Consistent fetchKeyId) (keyid : UInt64) :
    h'.lookup keyid = clearColour parent (h.lookup keyid) := by
  have hfind : h'.findinhash keyid = h.findinhash keyid := by
    refine Option.ext fun a => ?_
    rw [findinhash_eq_some (hcl.consistent hc), findinhash_eq_some hc, hcl.idOf_eq, hcl.allocated]
  unfold lookup
  rw [hfind]
  cases ha : h.findinhash keyid with
  | none =>
    unfold clearColour
    cases parent <;> rfl
  | some a =>
    show h'.node a = clearColour parent (h.node a)
    rw [hcl.node, if_pos (hc.mem_nodes.mpr (of_findinhash hc ha).1)]

end

/-! ## The search for a path -/

/-- A key that a search lets in. -/
def Allowed (h : Hash) (keyid : UInt64) : Prop :=
  (h.lookup keyid).disabled = false ∧ (h.lookup keyid).revoked = false

section

variable (fetchKeyId : UInt64 → Option PublicKey)

/-- What the search for a path keeps: the flags of the keys that it has not found, and the key that it
begins with loaded. -/
structure PathKept (h₀ : Hash) (src : UInt64) (h : Hash) : Prop where
  /-- No key is lost. -/
  extends_ : Extends h₀ h
  /-- The same keys are disabled. -/
  disabled : ∀ k, (h.lookup k).disabled = (h₀.lookup k).disabled
  /-- Only of keys that are found it becomes known that they are revoked. -/
  revoked : ∀ k, h.colourOf k = 0 → (h.lookup k).revoked = (h₀.lookup k).revoked
  /-- The key that the search begins with is loaded. -/
  settled : h.Settled fetchKeyId src

variable {fetchKeyId} {h₀ h : Hash} {src : UInt64}

theorem PathKept.loads (hk : PathKept fetchKeyId h₀ src h) {h' : Hash} {keyid : UInt64}
    (hfound : keyid = src ∨ h.colourOf keyid ≠ 0) (hl : Loads fetchKeyId keyid h h') :
    PathKept fetchKeyId h₀ src h' where
  extends_ := hk.extends_.trans hl.extends
  disabled k := (hl.disabled k).trans (hk.disabled k)
  revoked k hk' := by
    have hcolour : h.colourOf k = 0 := (hl.colour k).symm.trans hk'
    refine (hl.revoked k ?_).trans (hk.revoked k hcolour)
    by_cases heq : k = keyid
    · rcases hfound with rfl | hne
      · exact .inr (heq ▸ hk.settled)
      · exact absurd (heq ▸ hcolour) hne
    · exact .inl heq
  settled := hl.settled src hk.settled

theorem PathKept.mark (hc : h.Consistent fetchKeyId) (hk : PathKept fetchKeyId h₀ src h)
    {curdegree : Nat} (key : Nat) {sig : Nat} (hsig : sig < h.allocated) (hdegree : curdegree ≠ 0) :
    PathKept fetchKeyId h₀ src (h.mark curdegree key sig) := by
  have hlookup := hc.lookup_set hsig (sameEdges_mark h curdegree key sig)
  refine ⟨hk.extends_.mark curdegree key sig, fun k => ?_, fun k hcolour => ?_, ?_⟩
  · unfold Hash.mark
    rw [hlookup, ← hk.disabled k]
    split_ifs with heq
    · rw [heq, lookup_idOf hc hsig]
    · rfl
  · rw [hc.colourOf_mark hsig, Function.update_apply] at hcolour
    split_ifs at hcolour with heq
    · exact absurd hcolour hdegree
    · unfold Hash.mark
      rw [hlookup, if_neg heq]
      exact hk.revoked k hcolour
  · refine hk.settled.imp_right fun hgot => ?_
    unfold Hash.mark
    rw [hlookup]
    split_ifs with heq
    · rw [heq, lookup_idOf hc hsig] at hgot
      exact hgot
    · exact hgot

/-- The search for a path is one among the keys that are allowed when it begins. -/
theorem explores_path (h₀ : Hash) (src : UInt64) :
    Explores fetchKeyId (signers fetchKeyId) h₀.Allowed src (fun key => !key.disabled && !key.revoked)
      (cachedGetkeysigs fetchKeyId) (PathKept fetchKeyId h₀ src) where
  expand _ keyid hc hk hfound := expands_cachedGetkeysigs hc keyid fun _ hl => hk.loads hfound hl
  mark _ _ key _ hc hk hsig hdegree := hk.mark hc key hsig hdegree
  ok_iff h a hc hk ha hcolour := by
    unfold Allowed
    rw [← hk.disabled, ← hk.revoked _ ((colourOf_idOf hc ha).trans hcolour), lookup_idOf hc ha]
    simp

variable {keyinfoa keyinfob : Nat}

/-- The end of a search for a path. -/
abbrev PathSearched (fetchKeyId : UInt64 → Option PublicKey) (h₀ : Hash) (keyinfoa keyinfob : Nat)
    (r : Search) (level : Nat) (cur nxt found : List UInt64) : Prop :=
  Searched fetchKeyId (signers fetchKeyId) h₀.Allowed (h₀.idOf keyinfob)
    (fun h => (h.node keyinfoa).colour ≠ 0) (PathKept fetchKeyId h₀ (h₀.idOf keyinfob)) (fun _ => true) r
    level cur nxt found

variable (keyinfoa) in
theorem searched_findpath (hc : h.Consistent fetchKeyId) (hb : keyinfob < h.allocated)
    (hcolour : ∀ keyid, h.colourOf keyid = 0) (hsettled : h.Settled fetchKeyId (h.idOf keyinfob))
    {fuel : Nat} (hfuel : 2 ^ 64 + 2 ≤ fuel) :
    ∃ r level cur nxt found, findpath fetchKeyId fuel h keyinfoa keyinfob = some r ∧
      PathSearched fetchKeyId h keyinfoa keyinfob r level cur nxt found :=
  Searching.searchLoop _ (fun _ => true) (explores_path h (h.idOf keyinfob))
    (fun _ h => by by_cases hzero : (h.node keyinfoa).colour = 0 <;> simp [hzero])
    (fun _ => length_le_of_nodup) fuel
    (searching_init hc hb hcolour _ _ ⟨.refl h, fun _ => rfl, fun _ _ => rfl, hsettled⟩)
    (fun _ => rfl) (fun hne => absurd rfl hne) (.inl rfl)
    (by simp only [List.length_singleton, List.length_nil]; omega)

/-- **What a search for a path finds out**: whether there is a chain, and a shortest one. -/
theorem PathSearched.result {r : Search} {level : Nat} {cur nxt found : List UInt64}
    (hr : PathSearched fetchKeyId h keyinfoa keyinfob r level cur nxt found)
    (ha : keyinfoa < h.allocated) :
    let colour := (r.hash.node keyinfoa).colour
    (colour = 0 ↔ ∀ n, ¬ Reach (signers fetchKeyId) h.Allowed (h.idOf keyinfob) n (h.idOf keyinfoa)) ∧
    (colour ≠ 0 →
      Reach (signers fetchKeyId) h.Allowed (h.idOf keyinfob) colour (h.idOf keyinfoa) ∧
      Chain (signers fetchKeyId) h.Allowed (h.idOf keyinfob)
        (ancestors r.hash.parentOf colour (h.idOf keyinfoa)) ∧
      ∀ n, Reach (signers fetchKeyId) h.Allowed (h.idOf keyinfob) n (h.idOf keyinfoa) → colour ≤ n) := by
  have hid := hr.kept.extends_.idOf_eq keyinfoa ha
  have hcol := colourOf_idOf hr.consistent (ha.trans_le hr.kept.extends_.le)
  rw [hid] at hcol
  simp only
  rw [← hcol]
  refine ⟨⟨fun hzero n hreach => ?_, fun hnone => ?_⟩, fun hne => ⟨hr.bfs.reach _ hne, ?_, fun n hreach =>
    hr.bfs.shortest hreach⟩⟩
  · rcases hr.ended with hstop | ⟨rfl, rfl⟩ | ⟨hbound, -⟩
    · exact absurd (hcol.symm.trans hzero) (of_decide_eq_true hstop)
    · exact hr.bfs.complete hreach hzero
    · cases hbound
  · by_contra hne
    exact hnone _ (hr.bfs.reach _ hne)
  · exact hr.bfs.chain_ancestors rfl hne

end

/-! ## Printing -/

/-- The two hashes differ in what is disabled only, and nothing is enabled. -/
structure OnlyDisabled (h h' : Hash) : Prop where
  /-- All else is the same. -/
  node : ∀ a, h'.node a = { h.node a with disabled := (h'.node a).disabled }
  /-- The keys are the same. -/
  allocated : h'.allocated = h.allocated
  /-- They are where they were. -/
  hashtable : h'.hashtable = h.hashtable
  /-- They are as many. -/
  elements : h'.elements = h.elements
  /-- Nothing is enabled. -/
  mono : ∀ a, (h.node a).disabled = true → (h'.node a).disabled = true

section

variable {fetchKeyId : UInt64 → Option PublicKey} {h h' : Hash}

theorem OnlyDisabled.refl (h : Hash) : OnlyDisabled h h := ⟨fun _ => rfl, rfl, rfl, rfl, fun _ => id⟩

theorem OnlyDisabled.trans {h'' : Hash} (hd : OnlyDisabled h h') (hd' : OnlyDisabled h' h'') :
    OnlyDisabled h h'' where
  node a := by
    rw [hd'.node a, hd.node a]
  allocated := hd'.allocated.trans hd.allocated
  hashtable := hd'.hashtable.trans hd.hashtable
  elements := hd'.elements.trans hd.elements
  mono a ha := hd'.mono a (hd.mono a ha)

theorem OnlyDisabled.disable (h : Hash) (a : Nat) :
    OnlyDisabled h (h.set a { h.node a with disabled := true }) := by
  refine ⟨fun b => ?_, rfl, rfl, rfl, fun b hb => ?_⟩
  · rw [set_node]
    by_cases hba : b = a
    · rw [hba, Function.update_self]
    · rw [Function.update_of_ne hba]
  · rw [set_node]
    by_cases hba : b = a
    · rw [hba, Function.update_self]
    · rw [Function.update_of_ne hba]
      exact hb

theorem OnlyDisabled.idOf_eq (hd : OnlyDisabled h h') : h'.idOf = h.idOf := by
  funext a
  unfold idOf
  rw [hd.node]

theorem OnlyDisabled.consistent (hd : OnlyDisabled h h') (hc : h.Consistent fetchKeyId) :
    h'.Consistent fetchKeyId := by
  refine hc.of_sameEdges hd.allocated hd.hashtable hd.elements fun a => ?_
  rw [hd.node]
  exact ⟨rfl, rfl, rfl, rfl, rfl⟩

theorem OnlyDisabled.findinhash_eq (hd : OnlyDisabled h h') (keyid : UInt64) :
    h'.findinhash keyid = h.findinhash keyid := by
  have hid := hd.idOf_eq
  unfold findinhash
  rw [hd.hashtable]
  refine congrArg (fun p => List.find? p _) (funext fun a => ?_)
  rw [show (h'.node a).keyid = (h.node a).keyid from congrFun hid a]

theorem OnlyDisabled.lookup_eq (hd : OnlyDisabled h h') (keyid : UInt64) :
    h'.lookup keyid = { h.lookup keyid with disabled := (h'.lookup keyid).disabled } := by
  unfold lookup
  rw [hd.findinhash_eq]
  cases h.findinhash keyid with
  | none => rfl
  | some a => exact hd.node a

theorem OnlyDisabled.lookup_mono (hd : OnlyDisabled h h') {keyid : UInt64}
    (hdisabled : (h.lookup keyid).disabled = true) : (h'.lookup keyid).disabled = true := by
  unfold lookup at hdisabled ⊢
  rw [hd.findinhash_eq]
  cases hfind : h.findinhash keyid with
  | none =>
    rw [hfind] at hdisabled
    exact hdisabled
  | some a =>
    rw [hfind] at hdisabled
    exact hd.mono a hdisabled

theorem OnlyDisabled.printKeyids_eq (hd : OnlyDisabled h h') (fuel : Nat) (curkey : Option Nat) :
    h'.printKeyids fuel curkey = h.printKeyids fuel curkey := by
  induction fuel generalizing curkey with
  | zero => cases curkey <;> rfl
  | succ fuel ih =>
    cases curkey with
    | none => rfl
    | some a =>
      have hid : (h'.node a).keyid = (h.node a).keyid := congrFun hd.idOf_eq a
      have hparent : (h'.node a).parent = (h.node a).parent := by rw [hd.node]
      rw [printKeyids, printKeyids, hid, hparent, hd.findinhash_eq, ih]

/-- The loop that prints a path prints the list of its key ids, and disables all but the ends. -/
theorem printPath_eq (keyinfoa keyinfob fuel : Nat) {curkey : Option Nat} {keyids : List UInt64}
    (hc : h.Consistent fetchKeyId) (hcur : ∀ a, curkey = some a → a < h.allocated)
    (hprint : h.printKeyids fuel curkey = some keyids) :
    ∃ h', printPath keyinfoa keyinfob fuel h curkey = some (h', keyids) ∧ OnlyDisabled h h' ∧
      ∀ a < h.allocated, h.idOf a ∈ keyids → a ≠ keyinfoa → a ≠ keyinfob →
        (h'.node a).disabled = true := by
  induction fuel generalizing h curkey keyids with
  | zero =>
    cases curkey with
    | none =>
      obtain rfl : [] = keyids := Option.some.inj hprint
      exact ⟨h, rfl, .refl h, fun _ _ hmem => absurd hmem List.not_mem_nil⟩
    | some a => cases hprint
  | succ fuel ih =>
    cases curkey with
    | none =>
      obtain rfl : [] = keyids := Option.some.inj hprint
      exact ⟨h, rfl, .refl h, fun _ _ hmem => absurd hmem List.not_mem_nil⟩
    | some a =>
      have ha := hcur a rfl
      rw [printKeyids] at hprint
      rw [printPath]
      by_cases hzero : (h.node a).keyid = 0
      · rw [if_pos hzero] at hprint ⊢
        obtain rfl : [] = keyids := Option.some.inj hprint
        exact ⟨h, rfl, .refl h, fun _ _ hmem => absurd hmem List.not_mem_nil⟩
      · rw [if_neg hzero] at hprint ⊢
        obtain ⟨rest, hrest, hprint⟩ := Option.bind_eq_some_iff.mp hprint
        obtain rfl := Option.some.inj hprint
        obtain ⟨h₁, hh₁⟩ : ∃ h₁, h₁ = if a ≠ keyinfoa ∧ a ≠ keyinfob then
          h.set a { h.node a with disabled := true } else h := ⟨_, rfl⟩
        have hd : OnlyDisabled h h₁ := by
          rw [hh₁]
          split_ifs
          · exact .disable h a
          · exact .refl h
        have hself (hne : a ≠ keyinfoa) (hne' : a ≠ keyinfob) : (h₁.node a).disabled = true := by
          rw [hh₁, if_pos ⟨hne, hne'⟩, set_node, Function.update_self]
        have hc₁ := hd.consistent hc
        have hid : (h₁.node a).keyid = (h.node a).keyid := congrFun hd.idOf_eq a
        have hparent : (h₁.node a).parent = (h.node a).parent := by rw [hd.node]
        have hcur₁ : ∀ b, h₁.findinhash (h₁.node a).parent = some b → b < h₁.allocated :=
          fun b hb => (of_findinhash hc₁ hb).1
        obtain ⟨h', hloop, hd', hdis⟩ := ih hc₁ hcur₁ (by
          rw [hd.printKeyids_eq, hparent, hd.findinhash_eq]
          exact hrest)
        refine ⟨h', ?_, hd.trans hd', ?_⟩
        · simp only [← hh₁, hloop, Option.bind_eq_bind, Option.bind_some, hid]
          rfl
        · intro b hb hmem hne hne'
          rcases List.mem_cons.mp hmem with heq | hmem
          · obtain rfl := hc.unique b hb a ha heq
            exact hd'.mono b (hself hne hne')
          · refine hdis b (by rw [hd.allocated]; exact hb) ?_ hne hne'
            rw [hd.idOf_eq]
            exact hmem

end

/-! ## A round -/

section

variable {fetchKeyId : UInt64 → Option PublicKey}

theorem ne_zero_of_mem_signers {v keyid : UInt64} (h : v ∈ signers fetchKeyId keyid) : keyid ≠ 0 := by
  intro hzero
  unfold signers at h
  rw [if_pos hzero] at h
  exact List.not_mem_nil h

variable {h : Hash} {keyinfob : Nat}

/-- The last key of a path. -/
theorem printKeyids_last (hc : h.Consistent fetchKeyId) (hparent : (h.node keyinfob).parent = 0)
    (hne : h.idOf keyinfob ≠ 0) (fuel : Nat) :
    h.printKeyids (fuel + 2) (some keyinfob) = some [h.idOf keyinfob] := by
  have hend : h.printKeyids (fuel + 1) (h.findinhash 0) = some [] := by
    cases hfind : h.findinhash 0 with
    | none => rfl
    | some a =>
      rw [printKeyids]
      exact if_pos (of_findinhash hc hfind).2
  have hid : (h.node keyinfob).keyid ≠ 0 := hne
  rw [printKeyids, if_neg hid, hparent, hend]
  rfl

/-- From a key that the search has found, the parents up to the end are printed. -/
theorem printKeyids_ancestors (hc : h.Consistent fetchKeyId) (hb : keyinfob < h.allocated)
    {okId : UInt64 → Prop} {level : Nat} {cur nxt found : List UInt64}
    (hbfs : Bfs.Inv (signers fetchKeyId) okId (h.idOf keyinfob) level cur nxt found h.colourOf h.parentOf)
    (n : Nat) {v : UInt64} {a fuel : Nat} (hfind : h.findinhash v = some a) (hv : h.colourOf v = n)
    (hn : n ≠ 0) (hsrc : v ≠ h.idOf keyinfob) (hzero : v ≠ 0) (hfuel : n + 2 ≤ fuel) :
    (h.set keyinfob { h.node keyinfob with parent := 0 }).printKeyids fuel (some a) =
      some (ancestors h.parentOf n v) := by
  have hsame : SameEdges (h.node keyinfob) { h.node keyinfob with parent := 0 } :=
    ⟨rfl, rfl, rfl, rfl, rfl⟩
  obtain ⟨h', hh'⟩ : ∃ h', h' = h.set keyinfob { h.node keyinfob with parent := 0 } := ⟨_, rfl⟩
  have hc' : h'.Consistent fetchKeyId := hh' ▸ hc.set hsame
  have hid : h'.idOf = h.idOf := hh' ▸ set_idOf rfl
  have halloc : h'.allocated = h.allocated := by rw [hh']; rfl
  have hother {x : Nat} (hx : x ≠ keyinfob) : h'.node x = h.node x := by
    rw [hh', set_node, Function.update_of_ne hx]
  have hlast : (h'.node keyinfob).parent = 0 := by rw [hh', set_node, Function.update_self]
  have hfind' (keyid : UInt64) : h'.findinhash keyid = h.findinhash keyid := by
    refine Option.ext fun x => ?_
    rw [findinhash_eq_some hc', findinhash_eq_some hc, hid, halloc]
  rw [← hh']
  clear hh'
  induction n generalizing v a fuel with
  | zero => exact absurd rfl hn
  | succ n ih =>
    obtain ⟨fuel, rfl⟩ : ∃ f, fuel = f + 1 := ⟨fuel - 1, by omega⟩
    obtain ⟨ha, hida⟩ := of_findinhash hc hfind
    have hab : a ≠ keyinfob := fun heq => hsrc (by rw [← hida, heq])
    obtain ⟨hnext, hpar⟩ := hbfs.parent_at v (by omega)
    rw [hv, Nat.add_sub_cancel] at hpar
    have hparent : (h'.node a).parent = h.parentOf v := by
      rw [hother hab]
      unfold parentOf
      rw [← hida, lookup_idOf hc ha]
    have hpzero := ne_zero_of_mem_signers hnext
    have hkeyid : (h'.node a).keyid = v := by
      rw [hother hab]
      exact hida
    rw [printKeyids, hkeyid, if_neg hzero, hparent, hfind', ancestors]
    by_cases hone : n = 0
    · obtain ⟨fuel, rfl⟩ : ∃ f, fuel = f + 2 := ⟨fuel - 2, by omega⟩
      rw [hone, at_zero] at hpar
      have hidb := congrFun hid keyinfob
      rw [hpar] at hpzero ⊢
      rw [(findinhash_eq_some hc).mpr ⟨hb, rfl⟩, hone,
        printKeyids_last hc' hlast (by rw [hidb]; exact hpzero), hidb]
      rfl
    · rw [at_of_ne_zero hone] at hpar
      have hpsrc := hbfs.parent_ne (v := v) (by omega)
      cases hp : h.findinhash (h.parentOf v) with
      | none =>
        unfold colourOf lookup at hpar
        rw [hp] at hpar
        exact absurd hpar.symm hone
      | some x =>
        rw [ih hp hpar hone hpsrc hpzero (by omega)]
        rfl

/-- A shortest chain from one key to another, by way of keys that a search lets in. -/
structure ShortestChain (fetchKeyId : UInt64 → Option PublicKey) (h : Hash) (haveId want : UInt64)
    (chain : List UInt64) : Prop where
  /-- It is a chain. -/
  isChain : Chain (signers fetchKeyId) h.Allowed want chain
  /-- The beginning. -/
  head : chain.head? = some haveId
  /-- No other is shorter. -/
  shortest : ∀ other, Chain (signers fetchKeyId) h.Allowed want other → other.head? = some haveId →
    chain.length ≤ other.length

variable {keyinfoa : Nat}

/-- What a search for a path leaves, that began with all colours cleared. -/
structure PathFound (fetchKeyId : UInt64 → Option PublicKey) (keyinfoa keyinfob : Nat) (h : Hash)
    (r : Search) : Prop where
  /-- The hash is consistent. -/
  consistent : r.hash.Consistent fetchKeyId
  /-- No key is lost. -/
  extends_ : Extends h r.hash
  /-- The key at the end is loaded. -/
  settled : r.hash.Settled fetchKeyId (h.idOf keyinfob)
  /-- The same keys are disabled. -/
  disabled : ∀ k, (r.hash.lookup k).disabled = (h.lookup k).disabled
  /-- The search is one by levels. -/
  bfs : ∃ level cur nxt found, Bfs.Inv (signers fetchKeyId) h.Allowed (h.idOf keyinfob) level cur nxt found
    r.hash.colourOf r.hash.parentOf
  /-- There is no path. -/
  none_iff : (r.hash.node keyinfoa).colour = 0 ↔ ¬ ∃ chain,
    Chain (signers fetchKeyId) h.Allowed (h.idOf keyinfob) chain ∧ chain.head? = some (h.idOf keyinfoa)
  /-- Or the parents are a shortest one. -/
  path : (r.hash.node keyinfoa).colour ≠ 0 →
    ShortestChain fetchKeyId h (h.idOf keyinfoa) (h.idOf keyinfob)
      (ancestors r.hash.parentOf (r.hash.node keyinfoa).colour (h.idOf keyinfoa))

theorem pathFound_of_cleared (hc : h.Consistent fetchKeyId) (ha : keyinfoa < h.allocated)
    (hb : keyinfob < h.allocated) (hsettled : h.Settled fetchKeyId (h.idOf keyinfob)) {h₀ : Hash}
    (hcl : Cleared true h h₀) {fuel : Nat} (hfuel : 2 ^ 64 + 2 ≤ fuel) :
    ∃ r, findpath fetchKeyId fuel h₀ keyinfoa keyinfob = some r ∧
      PathFound fetchKeyId keyinfoa keyinfob h r := by
  have hc₀ := hcl.consistent hc
  have hlookup₀ := hcl.lookup_eq hc
  have hid₀ := hcl.idOf_eq
  have halloc₀ := hcl.allocated
  have hcolour₀ : ∀ k, h₀.colourOf k = 0 := fun k => by
    unfold colourOf
    rw [hlookup₀]
    rfl
  have hallowed : h₀.Allowed = h.Allowed := by
    funext k
    unfold Allowed
    rw [hlookup₀]
    rfl
  have hsettled₀ : h₀.Settled fetchKeyId (h₀.idOf keyinfob) := by
    rw [hid₀]
    unfold Settled
    rw [hlookup₀]
    exact hsettled
  obtain ⟨r, level, cur, nxt, found, hrun, hr⟩ := searched_findpath keyinfoa hc₀
    (by rw [halloc₀]; exact hb) hcolour₀ hsettled₀ hfuel
  obtain ⟨hzero, hfound⟩ := hr.result (by rw [halloc₀]; exact ha)
  have hbfs := hr.bfs
  have hset := hr.kept.settled
  have hext := hr.kept.extends_
  rw [hallowed, hid₀] at hzero hfound hbfs
  rw [hid₀] at hset
  refine ⟨r, hrun, hr.consistent, ⟨halloc₀ ▸ hext.le, ?_⟩, hset, ?_, ⟨level, cur, nxt, found, hbfs⟩, ?_, ?_⟩
  · intro x hx
    rw [hext.idOf_eq x (by rw [halloc₀]; exact hx), hid₀]
  · intro k
    have hdis := hr.kept.disabled k
    rw [hlookup₀] at hdis
    exact hdis
  · rw [hzero]
    constructor
    · rintro hnone ⟨chain, hchain, hhead⟩
      have htwo := hchain.two_le
      exact hnone (chain.length - 1) (reach_iff_chain.mpr ⟨chain, hchain, hhead, by omega⟩)
    · intro hnone n hreach
      obtain ⟨chain, hchain, hhead, -⟩ := reach_iff_chain.mp hreach
      exact hnone ⟨chain, hchain, hhead⟩
  · intro hne
    obtain ⟨-, hchain, hshort⟩ := hfound hne
    obtain ⟨rest, hrest⟩ := ancestors_head r.hash.parentOf (r.hash.node keyinfoa).colour (h.idOf keyinfoa)
    refine ⟨hchain, by rw [hrest]; rfl, fun other hother hhead => ?_⟩
    have htwo := hother.two_le
    have hle := hshort (other.length - 1) (reach_iff_chain.mpr ⟨other, hother, hhead, by omega⟩)
    rw [length_ancestors]
    omega

/-- **What `findpath` finds out.** -/
theorem pathFound (hc : h.Consistent fetchKeyId) (ha : keyinfoa < h.allocated)
    (hb : keyinfob < h.allocated) (hsettled : h.Settled fetchKeyId (h.idOf keyinfob)) {fuel : Nat}
    (hfuel : 2 ^ 64 + 2 ≤ fuel) :
    ∃ r, findpath fetchKeyId fuel (initcolour true h) keyinfoa keyinfob = some r ∧
      PathFound fetchKeyId keyinfoa keyinfob h r :=
  pathFound_of_cleared hc ha hb hsettled (cleared_initcolour true h) hfuel

/-- What is printed of a chain: nothing if it begins with the key id zero, and the one key if it goes
from a key to itself, as its parent is cleared. -/
def printedPath (haveId want : UInt64) (chain : List UInt64) : List UInt64 :=
  if haveId = 0 then [] else if haveId = want then [haveId] else chain

/-- The search of a round. -/
structure RoundSearch (fetchKeyId : UInt64 → Option PublicKey) (fuel keyinfoa keyinfob : Nat)
    (h h' : Hash) : Prop where
  /-- The hash is consistent. -/
  consistent : h'.Consistent fetchKeyId
  /-- No key is lost. -/
  extends_ : Extends h h'
  /-- The key at the end is loaded. -/
  settled : h'.Settled fetchKeyId (h.idOf keyinfob)
  /-- The same keys are disabled. -/
  disabled : ∀ k, (h'.lookup k).disabled = (h.lookup k).disabled
  /-- There is no path. -/
  none_iff : (h'.node keyinfoa).colour = 0 ↔ ¬ ∃ chain,
    Chain (signers fetchKeyId) h.Allowed (h.idOf keyinfob) chain ∧ chain.head? = some (h.idOf keyinfoa)
  /-- Or a shortest one is printed. -/
  path : (h'.node keyinfoa).colour ≠ 0 → ∃ chain,
    ShortestChain fetchKeyId h (h.idOf keyinfoa) (h.idOf keyinfob) chain ∧
    h'.printKeyids fuel (some keyinfoa) =
      some (printedPath (h.idOf keyinfoa) (h.idOf keyinfob) chain)

/-- The parent of the last key of a path is cleared. -/
theorem PathFound.roundSearch {r : Search} (hr : PathFound fetchKeyId keyinfoa keyinfob h r)
    (hc : h.Consistent fetchKeyId) (ha : keyinfoa < h.allocated) (hb : keyinfob < h.allocated)
    {fuel : Nat} (hfuel : 2 ^ 64 + 2 ≤ fuel) :
    RoundSearch fetchKeyId fuel keyinfoa keyinfob h
      (r.hash.set keyinfob { r.hash.node keyinfob with parent := 0 }) := by
  have hext := hr.extends_
  have hcr := hr.consistent
  have har : keyinfoa < r.hash.allocated := ha.trans_le hext.le
  have hbr : keyinfob < r.hash.allocated := hb.trans_le hext.le
  have hida := hext.idOf_eq keyinfoa ha
  have hidb := hext.idOf_eq keyinfob hb
  have hsame : SameEdges (r.hash.node keyinfob) { r.hash.node keyinfob with parent := 0 } :=
    ⟨rfl, rfl, rfl, rfl, rfl⟩
  have hlookup := hcr.lookup_set hbr hsame
  have hid : (r.hash.set keyinfob { r.hash.node keyinfob with parent := 0 }).idOf = r.hash.idOf :=
    set_idOf rfl
  have hcolour : ((r.hash.set keyinfob { r.hash.node keyinfob with parent := 0 }).node keyinfoa).colour =
      (r.hash.node keyinfoa).colour := by
    rw [set_node]
    by_cases hab : keyinfoa = keyinfob
    · rw [hab, Function.update_self]
    · rw [Function.update_of_ne hab]
  refine ⟨hcr.set hsame, ⟨hext.le, fun x hx => by rw [hid, hext.idOf_eq x hx]⟩, ?_, ?_, ?_, ?_⟩
  · refine hr.settled.imp_right fun hgot => ?_
    rw [hlookup]
    split_ifs with heq
    · rw [heq, lookup_idOf hcr hbr] at hgot
      exact hgot
    · exact hgot
  · intro k
    refine Eq.trans ?_ (hr.disabled k)
    rw [hlookup]
    split_ifs with heq
    · rw [heq, lookup_idOf hcr hbr]
    · rfl
  · rw [hcolour]
    exact hr.none_iff
  · intro hne
    rw [hcolour] at hne
    refine ⟨_, hr.path hne, ?_⟩
    obtain ⟨level, cur, nxt, found, hbfs⟩ := hr.bfs
    have hcola := colourOf_idOf hcr har
    rw [hida] at hcola
    have hbound : (r.hash.node keyinfoa).colour ≤ 2 ^ 64 := by
      rw [← hcola]
      exact (hbfs.colour_le_length _).trans (length_le_of_nodup hbfs.nodup)
    have hkeyid : ((r.hash.set keyinfob { r.hash.node keyinfob with parent := 0 }).node keyinfoa).keyid =
        h.idOf keyinfoa := (congrFun hid keyinfoa).trans hida
    obtain ⟨fuel, rfl⟩ : ∃ f, fuel = f + 2 := ⟨fuel - 2, by omega⟩
    unfold printedPath
    split_ifs with hnull hself
    · rw [printKeyids, if_pos (hkeyid.trans hnull)]
    · obtain rfl : keyinfoa = keyinfob := hc.unique _ ha _ hb hself
      rw [printKeyids_last (hcr.set hsame) (by rw [set_node, Function.update_self])
        (by rw [hid, hida]; exact hnull), hid, hida]
    · rw [← hida, ← hidb] at hself
      rw [← hidb] at hbfs
      rw [← hida] at hnull hcola ⊢
      exact printKeyids_ancestors hcr hbr hbfs _ ((findinhash_eq_some hcr).mpr ⟨har, rfl⟩) hcola hne
        hself hnull (by omega)

theorem roundSearch (hc : h.Consistent fetchKeyId) (ha : keyinfoa < h.allocated)
    (hb : keyinfob < h.allocated) (hsettled : h.Settled fetchKeyId (h.idOf keyinfob)) {fuel : Nat}
    (hfuel : 2 ^ 64 + 2 ≤ fuel) :
    ∃ count h', findpathRound fetchKeyId fuel h keyinfoa keyinfob = some (count, h') ∧
      RoundSearch fetchKeyId fuel keyinfoa keyinfob h h' := by
  obtain ⟨r, hrun, hr⟩ := pathFound hc ha hb hsettled hfuel
  refine ⟨r.count, _, ?_, hr.roundSearch hc ha hb hfuel⟩
  unfold findpathRound
  rw [hrun]
  rfl

end

end Hash

end Onak
