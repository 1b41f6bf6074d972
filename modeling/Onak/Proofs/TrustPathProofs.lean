import Onak.Proofs.PathProofs

/-!
# Proofs: the rounds of `dofindpath`

A round prints a shortest chain among the keys that are not disabled and not yet known to be revoked,
and disables the keys in its middle, so that no later round finds them again.
-/

namespace Onak

namespace Hash

open Bfs

/-- The paths that are printed. -/
def paths (lines : List PathLine) : List (List UInt64) :=
  lines.filterMap fun line =>
    match line with
    | .path keyids => some keyids
    | _ => none

section

variable (fetchKeyId : UInt64 → Option PublicKey) (fuel keyinfoa keyinfob : Nat)

/-- A round that prints a path: the hash after it, and the path. -/
def roundEnd (h : Hash) : Option (Hash × List UInt64) := do
  let (_, h) ← findpathRound fetchKeyId fuel h keyinfoa keyinfob
  if (h.node keyinfoa).colour = 0 then none else printPath keyinfoa keyinfob fuel h (some keyinfoa)

/-- The hash before a round, after so many others. A path of one step is the last one. -/
def beforeRound : Nat → Hash → Option Hash
  | 0, h => some h
  | n + 1, h => do
    let (h', _) ← roundEnd fetchKeyId fuel keyinfoa keyinfob h
    if (h'.node keyinfoa).colour = 1 then none else beforeRound n h'

/-- The paths that so many rounds print. -/
def roundPaths : Nat → Hash → List (List UInt64)
  | 0, _ => []
  | rounds + 1, h =>
    match roundEnd fetchKeyId fuel keyinfoa keyinfob h with
    | none => []
    | some (h', keyids) => keyids :: if (h'.node keyinfoa).colour = 1 then [] else roundPaths rounds h'

/-- The hash between two rounds. -/
structure Ready (haveId want : UInt64) (h : Hash) : Prop where
  /-- The hash is consistent. -/
  consistent : h.Consistent fetchKeyId
  /-- The path begins with a key of the hash. -/
  have_lt : keyinfoa < h.allocated
  /-- It ends with one. -/
  want_lt : keyinfob < h.allocated
  /-- The end is loaded. -/
  settled : h.Settled fetchKeyId want
  /-- The key id of the beginning. -/
  have_eq : h.idOf keyinfoa = haveId
  /-- The key id of the end. -/
  want_eq : h.idOf keyinfob = want

/-- What a round does that prints a path. -/
structure RoundPath (haveId want : UInt64) (h h' : Hash) (keyids : List UInt64) : Prop where
  /-- What is printed is a shortest chain. -/
  chain : ∃ chain, ShortestChain fetchKeyId h haveId want chain ∧ keyids = printedPath haveId want chain
  /-- No key is enabled. -/
  disabled_mono : ∀ k, (h.lookup k).disabled = true → (h'.lookup k).disabled = true
  /-- The keys in the middle are disabled. -/
  disabled_path : ∀ k ∈ keyids, k ≠ haveId → k ≠ want → (h'.lookup k).disabled = true

end

section

variable {fetchKeyId : UInt64 → Option PublicKey} {fuel keyinfoa keyinfob : Nat} {haveId want : UInt64}
  {h h' : Hash}

/-- The keys in the middle of a path are among those that are let in. -/
theorem ShortestChain.allowed {chain : List UInt64} (hs : ShortestChain fetchKeyId h haveId want chain)
    {k : UInt64} (hk : k ∈ printedPath haveId want chain) (hhave : k ≠ haveId) (hwant : k ≠ want) :
    h.Allowed k := by
  unfold printedPath at hk
  split_ifs at hk with hzero hself
  · exact absurd hk List.not_mem_nil
  · exact absurd (List.mem_singleton.mp hk) hhave
  · apply hs.isChain.ok
    obtain ⟨init, hinit⟩ := List.getLast?_eq_some_iff.mp hs.isChain.last
    rw [hinit, List.mem_append, List.mem_singleton] at hk
    rw [hinit, List.dropLast_concat]
    exact hk.resolve_right hwant

/-- The key ids that are printed are those of keys. -/
theorem printKeyids_mem (hc : h.Consistent fetchKeyId) {curkey : Option Nat} {keyids : List UInt64}
    (hcur : ∀ a, curkey = some a → a < h.allocated)
    (hprint : h.printKeyids fuel curkey = some keyids) :
    ∀ k ∈ keyids, ∃ a < h.allocated, h.idOf a = k := by
  induction fuel generalizing curkey keyids with
  | zero =>
    cases curkey with
    | none =>
      obtain rfl : [] = keyids := Option.some.inj hprint
      exact fun k hk => absurd hk List.not_mem_nil
    | some a => cases hprint
  | succ fuel ih =>
    cases curkey with
    | none =>
      obtain rfl : [] = keyids := Option.some.inj hprint
      exact fun k hk => absurd hk List.not_mem_nil
    | some a =>
      rw [printKeyids] at hprint
      by_cases hzero : (h.node a).keyid = 0
      · rw [if_pos hzero] at hprint
        obtain rfl : [] = keyids := Option.some.inj hprint
        exact fun k hk => absurd hk List.not_mem_nil
      · rw [if_neg hzero] at hprint
        obtain ⟨rest, hrest, hprint⟩ := Option.bind_eq_some_iff.mp hprint
        obtain rfl := Option.some.inj hprint
        intro k hk
        rcases List.mem_cons.mp hk with rfl | hk
        · exact ⟨a, hcur a rfl, rfl⟩
        · exact ih (fun b hb => (of_findinhash hc hb).1) hrest k hk

/-- **What a round does**: there is no chain and no path, or a shortest chain is printed. -/
theorem Ready.round (hr : Ready fetchKeyId keyinfoa keyinfob haveId want h) (hfuel : 2 ^ 64 + 2 ≤ fuel) :
    ∃ count h₁, findpathRound fetchKeyId fuel h keyinfoa keyinfob = some (count, h₁) ∧
      ((h₁.node keyinfoa).colour = 0 ∧
          (¬ ∃ chain, Chain (signers fetchKeyId) h.Allowed want chain ∧ chain.head? = some haveId) ∨
        (h₁.node keyinfoa).colour ≠ 0 ∧ ∃ h' keyids,
          printPath keyinfoa keyinfob fuel h₁ (some keyinfoa) = some (h', keyids) ∧
          printKeyids h' fuel (some keyinfoa) = some keyids ∧
          (h'.node keyinfoa).colour = (h₁.node keyinfoa).colour ∧
          Ready fetchKeyId keyinfoa keyinfob haveId want h' ∧
          RoundPath fetchKeyId haveId want h h' keyids) := by
  obtain ⟨hc, ha, hb, hsettled, rfl, rfl⟩ := hr
  obtain ⟨count, h₁, hround, hs⟩ := roundSearch hc ha hb hsettled hfuel
  refine ⟨count, h₁, hround, ?_⟩
  by_cases hzero : (h₁.node keyinfoa).colour = 0
  · exact .inl ⟨hzero, hs.none_iff.mp hzero⟩
  obtain ⟨chain, hshort, hprint⟩ := hs.path hzero
  have ha₁ := ha.trans_le hs.extends_.le
  have hb₁ := hb.trans_le hs.extends_.le
  have hida := hs.extends_.idOf_eq keyinfoa ha
  have hidb := hs.extends_.idOf_eq keyinfob hb
  obtain ⟨h', hpath, hd, hdis⟩ := printPath_eq keyinfoa keyinfob fuel hs.consistent
    (fun a heq => Option.some.inj heq ▸ ha₁) hprint
  refine .inr ⟨hzero, h', _, hpath, ?_, ?_, ?_, ⟨chain, hshort, rfl⟩, ?_, ?_⟩
  · rw [hd.printKeyids_eq]
    exact hprint
  · rw [hd.node]
  · refine ⟨hd.consistent hs.consistent, ?_, ?_, ?_, ?_, ?_⟩
    · rw [hd.allocated]
      exact ha₁
    · rw [hd.allocated]
      exact hb₁
    · have hset := hs.settled
      unfold Settled at hset ⊢
      rw [hd.lookup_eq]
      exact hset
    · rw [hd.idOf_eq, hida]
    · rw [hd.idOf_eq, hidb]
  · intro k hk
    apply hd.lookup_mono
    rw [hs.disabled]
    exact hk
  · intro k hk hhave hwant
    obtain ⟨x, hx, rfl⟩ := printKeyids_mem hs.consistent (fun a heq => Option.some.inj heq ▸ ha₁) hprint k hk
    have hdisabled := hdis x hx hk (fun heq => hhave (by rw [heq, hida])) fun heq =>
      hwant (by rw [heq, hidb])
    have hlookup := lookup_idOf (hd.consistent hs.consistent) (a := x) (by rw [hd.allocated]; exact hx)
    rw [hd.idOf_eq] at hlookup
    rw [hlookup]
    exact hdisabled

/-- A round ends, with a path or with none. -/
theorem Ready.roundEnd (hr : Ready fetchKeyId keyinfoa keyinfob haveId want h)
    (hfuel : 2 ^ 64 + 2 ≤ fuel) :
    (roundEnd fetchKeyId fuel keyinfoa keyinfob h = none ∧
        ¬ ∃ chain, Chain (signers fetchKeyId) h.Allowed want chain ∧ chain.head? = some haveId) ∨
      ∃ h' keyids, Hash.roundEnd fetchKeyId fuel keyinfoa keyinfob h = some (h', keyids) ∧
        Ready fetchKeyId keyinfoa keyinfob haveId want h' ∧
        RoundPath fetchKeyId haveId want h h' keyids := by
  obtain ⟨count, h₁, hround, ⟨hzero, hnone⟩ | ⟨hne, h', keyids, hpath, -, -, hr', hp⟩⟩ := hr.round hfuel
  · refine .inl ⟨?_, hnone⟩
    unfold Hash.roundEnd
    rw [hround]
    exact if_pos hzero
  · refine .inr ⟨h', keyids, ?_, hr', hp⟩
    unfold Hash.roundEnd
    rw [hround]
    exact (if_neg hne).trans hpath

/-- **The loop of `dofindpath` ends**, and prints the paths of its rounds. -/
theorem Ready.dofindpathLoop (hr : Ready fetchKeyId keyinfoa keyinfob haveId want h)
    (hfuel : 2 ^ 64 + 2 ≤ fuel) (rounds : Nat) (first : Bool) :
    ∃ h' lines, dofindpathLoop fetchKeyId fuel keyinfoa keyinfob rounds first h = some (h', lines) ∧
      paths lines = roundPaths fetchKeyId fuel keyinfoa keyinfob rounds h := by
  induction rounds generalizing h first with
  | zero => exact ⟨h, [], rfl, rfl⟩
  | succ rounds ih =>
    rw [Hash.dofindpathLoop, roundPaths]
    unfold Hash.roundEnd
    obtain ⟨count, h₁, hround, ⟨hzero, -⟩ | ⟨hne, h', keyids, hpath, hids, hcolour, hr', -⟩⟩ :=
      hr.round hfuel
    · simp only [hround, Option.bind_eq_bind, Option.bind_some, if_pos hzero]
      refine ⟨_, _, rfl, ?_⟩
      cases first <;> rfl
    · simp only [hround, Option.bind_eq_bind, Option.bind_some, if_neg hne, hpath, hids, hcolour]
      by_cases hone : (h₁.node keyinfoa).colour = 1
      · simp only [if_pos hone]
        exact ⟨h', _, rfl, rfl⟩
      · simp only [if_neg hone]
        obtain ⟨h'', lines, hloop, hlines⟩ := ih hr' false
        refine ⟨h'', _, by rw [hloop]; rfl, ?_⟩
        rw [← hlines]
        rfl

/-! ## Runs of rounds -/

/-- **The hash before a round** is as the first one was. -/
theorem Ready.beforeRound (hr : Ready fetchKeyId keyinfoa keyinfob haveId want h)
    (hfuel : 2 ^ 64 + 2 ≤ fuel) {n : Nat} {h₁ : Hash}
    (hbefore : beforeRound fetchKeyId fuel keyinfoa keyinfob n h = some h₁) :
    Ready fetchKeyId keyinfoa keyinfob haveId want h₁ := by
  induction n generalizing h with
  | zero =>
    obtain rfl := Option.some.inj hbefore
    exact hr
  | succ n ih =>
    rw [Hash.beforeRound] at hbefore
    obtain ⟨⟨h', keyids⟩, hend, hbefore⟩ := Option.bind_eq_some_iff.mp hbefore
    rcases hr.roundEnd hfuel with ⟨hnone, -⟩ | ⟨h'', keyids', hend', hr', -⟩
    · rw [hnone] at hend
      cases hend
    · obtain ⟨rfl, rfl⟩ := Prod.mk.inj (Option.some.inj (hend'.symm.trans hend))
      simp only at hbefore
      split_ifs at hbefore
      exact ih hr' hbefore

/-- The paths that are printed are those of the rounds. -/
theorem mem_roundPaths {rounds : Nat} {keyids : List UInt64} :
    keyids ∈ roundPaths fetchKeyId fuel keyinfoa keyinfob rounds h ↔
      ∃ n < rounds, ∃ h₁ h', beforeRound fetchKeyId fuel keyinfoa keyinfob n h = some h₁ ∧
        roundEnd fetchKeyId fuel keyinfoa keyinfob h₁ = some (h', keyids) := by
  induction rounds generalizing h with
  | zero =>
    constructor
    · exact fun hmem => absurd hmem List.not_mem_nil
    · rintro ⟨n, hn, -⟩
      exact absurd hn (Nat.not_lt_zero n)
  | succ rounds ih =>
    rw [roundPaths]
    cases hend : roundEnd fetchKeyId fuel keyinfoa keyinfob h with
    | none =>
      constructor
      · exact fun hmem => absurd hmem List.not_mem_nil
      · rintro ⟨n, -, h₁, h', hbefore, hend₁⟩
        cases n with
        | zero =>
          obtain rfl := Option.some.inj hbefore
          rw [hend] at hend₁
          cases hend₁
        | succ n =>
          rw [beforeRound, hend] at hbefore
          cases hbefore
    | some r =>
      obtain ⟨h₂, keyids₂⟩ := r
      simp only [List.mem_cons]
      constructor
      · rintro (rfl | hmem)
        · exact ⟨0, Nat.succ_pos _, h, h₂, rfl, hend⟩
        · split_ifs at hmem with hone
          · exact absurd hmem List.not_mem_nil
          · obtain ⟨n, hn, h₁, h', hbefore, hend₁⟩ := ih.mp hmem
            refine ⟨n + 1, Nat.succ_lt_succ hn, h₁, h', ?_, hend₁⟩
            rw [beforeRound, hend]
            exact (if_neg hone).trans hbefore
      · rintro ⟨n, hn, h₁, h', hbefore, hend₁⟩
        cases n with
        | zero =>
          obtain rfl := Option.some.inj hbefore
          rw [hend] at hend₁
          exact .inl (Prod.mk.inj (Option.some.inj hend₁)).2.symm
        | succ n =>
          rw [beforeRound, hend] at hbefore
          simp only [Option.bind_eq_bind, Option.bind_some] at hbefore
          right
          split_ifs at hbefore ⊢ with hone
          exact ih.mpr ⟨n, Nat.lt_of_succ_lt_succ hn, h₁, h', hbefore, hend₁⟩

/-- No key in the middle of a path was disabled when the rounds began. -/
theorem Ready.enabled (hr : Ready fetchKeyId keyinfoa keyinfob haveId want h) (hfuel : 2 ^ 64 + 2 ≤ fuel)
    {rounds : Nat} : ∀ keyids ∈ roundPaths fetchKeyId fuel keyinfoa keyinfob rounds h, ∀ k ∈ keyids,
      k ≠ haveId → k ≠ want → (h.lookup k).disabled = false := by
  induction rounds generalizing h with
  | zero => exact fun keyids hmem => absurd hmem List.not_mem_nil
  | succ rounds ih =>
    rw [roundPaths]
    rcases hr.roundEnd hfuel with ⟨hnone, -⟩ | ⟨h', keyids', hend, hr', hp⟩
    · rw [hnone]
      exact fun keyids hmem => absurd hmem List.not_mem_nil
    · simp only [hend]
      intro keyids hmem k hk hhave hwant
      rcases List.mem_cons.mp hmem with rfl | hmem
      · obtain ⟨chain, hchain, rfl⟩ := hp.chain
        exact (hchain.allowed hk hhave hwant).1
      · split_ifs at hmem
        · exact absurd hmem List.not_mem_nil
        · have henabled := ih hr' keyids hmem k hk hhave hwant
          by_contra hdisabled
          rw [hp.disabled_mono k ((Bool.not_eq_false _).mp hdisabled)] at henabled
          cases henabled

/-- **No two paths share a key in their middle.** -/
theorem Ready.disjoint (hr : Ready fetchKeyId keyinfoa keyinfob haveId want h)
    (hfuel : 2 ^ 64 + 2 ≤ fuel) (rounds : Nat) :
    (roundPaths fetchKeyId fuel keyinfoa keyinfob rounds h).Pairwise
      fun path path' => ∀ k ∈ path, k ∈ path' → k = haveId ∨ k = want := by
  induction rounds generalizing h with
  | zero => exact .nil
  | succ rounds ih =>
    rw [roundPaths]
    rcases hr.roundEnd hfuel with ⟨hnone, -⟩ | ⟨h', keyids, hend, hr', hp⟩
    · rw [hnone]
      exact .nil
    · simp only [hend]
      split_ifs
      · exact List.pairwise_singleton _ _
      · refine .cons (fun path' hmem k hk hk' => ?_) (ih hr')
        by_contra hmiddle
        rw [not_or] at hmiddle
        have henabled := hr'.enabled hfuel path' hmem k hk' hmiddle.1 hmiddle.2
        rw [hp.disabled_path k hk hmiddle.1 hmiddle.2] at henabled
        cases henabled

/-! ## Paths between two keys -/

/-- The two keys are got first. -/
theorem Consistent.ready (hc : h.Consistent fetchKeyId)
    (ha : (Hash.afterCalls fetchKeyId [haveId, want] h).findinhash haveId = some keyinfoa)
    (hb : (Hash.afterCalls fetchKeyId [haveId, want] h).findinhash want = some keyinfob) :
    Ready fetchKeyId keyinfoa keyinfob haveId want (Hash.afterCalls fetchKeyId [haveId, want] h) := by
  have hc' := hc.afterCalls [haveId, want]
  obtain ⟨hc₁, -⟩ := hc.cachedGetkeysigs (Eq.refl (Hash.cachedGetkeysigs fetchKeyId h haveId))
  obtain ⟨-, -, hsettled, -⟩ := hc₁.cachedGetkeysigs (Eq.refl (Hash.cachedGetkeysigs fetchKeyId _ want))
  exact ⟨hc', (of_findinhash hc' ha).1, (of_findinhash hc' hb).1, hsettled, (of_findinhash hc' ha).2,
    (of_findinhash hc' hb).2⟩

/-- **What `dofindpath` prints**: no path if one of the two keys is not found, and else those of the
rounds. -/
theorem Consistent.dofindpath (hc : h.Consistent fetchKeyId) (hfuel : 2 ^ 64 + 2 ≤ fuel)
    (haveId want : UInt64) (count : Int) :
    ∃ h' lines, dofindpath fetchKeyId fuel h haveId want count = some (h', lines) ∧
      (paths lines = [] ∧ (∀ keyinfoa keyinfob,
          (Hash.afterCalls fetchKeyId [haveId, want] h).findinhash haveId = some keyinfoa →
          (Hash.afterCalls fetchKeyId [haveId, want] h).findinhash want ≠ some keyinfob) ∨
        ∃ keyinfoa keyinfob,
          (Hash.afterCalls fetchKeyId [haveId, want] h).findinhash haveId = some keyinfoa ∧
          (Hash.afterCalls fetchKeyId [haveId, want] h).findinhash want = some keyinfob ∧
          paths lines = roundPaths fetchKeyId fuel keyinfoa keyinfob count.toNat
            (Hash.afterCalls fetchKeyId [haveId, want] h)) := by
  set h₂ := Hash.afterCalls fetchKeyId [haveId, want] h with hh₂
  have hcalls :
      (Hash.cachedGetkeysigs fetchKeyId (Hash.cachedGetkeysigs fetchKeyId h haveId).1 want).1 = h₂ := rfl
  unfold Hash.dofindpath
  simp only [hcalls]
  cases ha : h₂.findinhash haveId with
  | none =>
    refine ⟨_, _, rfl, .inl ⟨rfl, fun _ _ hfind => ?_⟩⟩
    cases hfind
  | some keyinfoa =>
    cases hb : h₂.findinhash want with
    | none =>
      refine ⟨_, _, rfl, .inl ⟨rfl, fun _ _ _ hfind => ?_⟩⟩
      cases hfind
    | some keyinfob =>
      obtain ⟨h', lines, hloop, hlines⟩ := (hc.ready ha hb).dofindpathLoop hfuel count.toNat true
      exact ⟨h', lines, hloop, .inr ⟨keyinfoa, keyinfob, rfl, rfl, hlines⟩⟩

/-- **Path finding is a correct breadth-first search.** In a hash whose keys are all loaded, `findpath`
after `initcolour` finds the length of a shortest chain of at least one step, and zero if there is none,
and the parents from the beginning on are such a chain; and `dofindpath` ends, with paths that have no
key in common but the two that they begin and end with. -/
theorem findpath_shortest (fetchKeyId : UInt64 → Option PublicKey) (h : Hash)
    (hc : h.Consistent fetchKeyId)
    (hloaded : ∀ a < h.allocated, (h.node a).sigs.map h.idOf = signers fetchKeyId (h.idOf a)) :
    ∃ enough, ∀ fuel ≥ enough,
      (∀ keyinfoa < h.allocated, ∀ keyinfob < h.allocated, ∃ r,
        findpath fetchKeyId fuel (initcolour true h) keyinfoa keyinfob = some r ∧
        let colour := (r.hash.node keyinfoa).colour
        let path := ancestors r.hash.parentOf colour (h.idOf keyinfoa)
        (colour = 0 ↔ ¬ ∃ chain, Chain (signers fetchKeyId) h.Allowed (h.idOf keyinfob) chain ∧
          chain.head? = some (h.idOf keyinfoa)) ∧
        (colour ≠ 0 → ShortestChain fetchKeyId h (h.idOf keyinfoa) (h.idOf keyinfob) path ∧
          path.length = colour + 1)) ∧
      ∀ haveId want count, ∃ h' lines, dofindpath fetchKeyId fuel h haveId want count = some (h', lines) ∧
        (paths lines).Pairwise fun path path' => ∀ k ∈ path, k ∈ path' → k = haveId ∨ k = want := by
  refine ⟨2 ^ 64 + 2, fun fuel hfuel => ⟨fun keyinfoa ha keyinfob hb => ?_, fun haveId want count => ?_⟩⟩
  · have hsettled : h.Settled fetchKeyId (h.idOf keyinfob) := by
      have hsigs := hc.sigs_eq keyinfob hb
      rw [hloaded keyinfob hb] at hsigs
      unfold Settled
      rw [lookup_idOf hc hb]
      cases hgot : (h.node keyinfob).gotsigs with
      | true => exact .inr rfl
      | false =>
        rw [hgot] at hsigs
        exact .inl hsigs
    obtain ⟨r, hrun, hr⟩ := pathFound hc ha hb hsettled hfuel
    exact ⟨r, hrun, hr.none_iff, fun hne => ⟨hr.path hne, length_ancestors ..⟩⟩
  · obtain ⟨h', lines, hdo, ⟨hnil, -⟩ | ⟨keyinfoa, keyinfob, ha, hb, hpaths⟩⟩ :=
      hc.dofindpath hfuel haveId want count
    · refine ⟨h', lines, hdo, ?_⟩
      rw [hnil]
      exact .nil
    · refine ⟨h', lines, hdo, ?_⟩
      rw [hpaths]
      exact (hc.ready ha hb).disjoint hfuel _

/-- Four keys: the first signs the second, which is revoked, and the third, and both sign the fourth. -/
def fourKeys (keyid : UInt64) : Option PublicKey :=
  if keyid = 1 then some (keySignedBy false [1])
  else if keyid = 2 then some (keySignedBy true [2, 1])
  else if keyid = 3 then some (keySignedBy false [3, 1])
  else if keyid = 4 then some (keySignedBy false [4, 2, 3])
  else none

set_option maxRecDepth 20000 in
/-- The shortest chain from the first of four keys to the last one goes through the third. -/
theorem findpath_shortest_fourKeys :
    ∃ enough, ∀ fuel ≥ enough,
      (∃ r, findpath fourKeys fuel (initcolour true (afterCalls fourKeys [4, 3, 2, 1] inithash)) 3 0 =
          some r ∧
        (r.hash.node 3).colour = 2 ∧ ancestors r.hash.parentOf 2 1 = [1, 3, 4]) ∧
      ∃ h' lines,
        dofindpath fourKeys fuel (afterCalls fourKeys [4, 3, 2, 1] inithash) 1 4 2 = some (h', lines) ∧
        (paths lines).Pairwise fun path path' => ∀ k ∈ path, k ∈ path' → k = 1 ∨ k = 4 := by
  have hloaded : ∀ a < (afterCalls fourKeys [4, 3, 2, 1] inithash).allocated,
      ((afterCalls fourKeys [4, 3, 2, 1] inithash).node a).sigs.map
          (afterCalls fourKeys [4, 3, 2, 1] inithash).idOf =
        signers fourKeys ((afterCalls fourKeys [4, 3, 2, 1] inithash).idOf a) := by
    decide +kernel
  have hhash : (afterCalls fourKeys [4, 3, 2, 1] inithash).allocated = 4 ∧
      (afterCalls fourKeys [4, 3, 2, 1] inithash).idOf 3 = 1 ∧
      (afterCalls fourKeys [4, 3, 2, 1] inithash).idOf 0 = 4 ∧
      ([1, 2, 3].map fun k => ((afterCalls fourKeys [4, 3, 2, 1] inithash).lookup k).disabled) =
        [false, false, false] ∧
      ([1, 2, 3].map fun k => ((afterCalls fourKeys [4, 3, 2, 1] inithash).lookup k).revoked) =
        [false, true, false] ∧
      ([4, 3].map (signers fourKeys)) = [[3, 2, 4], [1, 3]] := by
    decide +kernel
  obtain ⟨enough, hall⟩ := findpath_shortest fourKeys (afterCalls fourKeys [4, 3, 2, 1] inithash)
    ((consistent_inithash fourKeys).afterCalls [4, 3, 2, 1]) hloaded
  revert hall hhash
  generalize afterCalls fourKeys [4, 3, 2, 1] inithash = h
  rintro ⟨hall', hone, hfour, hdisabled, hrevoked, hsigners⟩ hall
  simp only [List.map_cons, List.map_nil, List.cons.injEq, and_true] at hdisabled hrevoked hsigners
  refine ⟨enough, fun fuel hfuel => ⟨?_, (hall fuel hfuel).2 1 4 2⟩⟩
  obtain ⟨r, hrun, hnone, hpath⟩ := (hall fuel hfuel).1 3 (by omega) 0 (by omega)
  rw [hone, hfour] at hnone hpath
  have hchain : Chain (signers fourKeys) h.Allowed 4 [1, 3, 4] :=
    { two_le := by decide
      isChain := by simp [hsigners]
      last := rfl
      ok := by simp [Allowed, hdisabled, hrevoked] }
  have hne : (r.hash.node 3).colour ≠ 0 := fun hzero => hnone.mp hzero ⟨_, hchain, rfl⟩
  obtain ⟨hshort, hlen⟩ := hpath hne
  have hle := hshort.shortest _ hchain rfl
  -- no other chain is as short
  have honly : ∀ chain, Chain (signers fourKeys) h.Allowed 4 chain → chain.head? = some 1 →
      chain.length ≤ 3 → chain = [1, 3, 4] := by
    intro chain hc hhead hthree
    match chain, hc.two_le with
    | [a, b], _ =>
      obtain rfl := Option.some.inj hhead
      obtain rfl := Option.some.inj hc.last
      have hsigns := hc.isChain
      simp [hsigners] at hsigns
    | [a, b, c], _ =>
      obtain rfl := Option.some.inj hhead
      obtain rfl := Option.some.inj hc.last
      have hsigns := hc.isChain
      have hok := hc.ok b (by simp)
      simp only [List.isChain_cons_cons, hsigners] at hsigns
      have hb : b = 3 ∨ b = 2 ∨ b = 4 := by simpa using hsigns.2.1
      rcases hb with rfl | rfl | rfl
      · rfl
      · rw [Allowed, hrevoked.2.1] at hok
        exact absurd hok.2 (by decide)
      · rw [hsigners.1] at hsigns
        exact absurd hsigns.1 (by decide)
    | a :: b :: c :: d :: l, _ =>
      simp only [List.length_cons] at hthree
      omega
  have hthree := honly _ hshort.isChain hshort.head hle
  have hcolour : (r.hash.node 3).colour = 2 := by
    rw [hthree] at hlen
    simpa using hlen.symm
  rw [hcolour] at hthree
  exact ⟨r, hrun, hcolour, hthree⟩

/-! ## Revoked keys -/

/-- No key in the middle of a path is stored as revoked. -/
def AvoidsRevoked (fetchKeyId : UInt64 → Option PublicKey) (haveId want : UInt64) (keyids : List UInt64) :
    Prop :=
  ∀ k ∈ keyids, k ≠ haveId → k ≠ want → storedRevoked fetchKeyId k = false

/-- A hash before one of the rounds of `dofindpath`, when the cache was empty before. -/
def BeforeRound (fetchKeyId : UInt64 → Option PublicKey) (fuel : Nat) (haveId want : UInt64) (count : Int)
    (h : Hash) : Prop :=
  ∃ keyinfoa keyinfob,
    (afterCalls fetchKeyId [haveId, want] inithash).findinhash haveId = some keyinfoa ∧
    (afterCalls fetchKeyId [haveId, want] inithash).findinhash want = some keyinfob ∧
    ∃ n < count.toNat,
      beforeRound fetchKeyId fuel keyinfoa keyinfob n (afterCalls fetchKeyId [haveId, want] inithash) = some h

set_option maxRecDepth 20000 in
/-- The second of three keys is revoked, which is not known before it is loaded. -/
theorem dofindpath_revoked :
    ¬ ∀ (fetchKeyId : UInt64 → Option PublicKey) (fuel : Nat) (haveId want : UInt64) (count : Int)
      (h : Hash) (lines : List PathLine),
      dofindpath fetchKeyId fuel inithash haveId want count = some (h, lines) →
        ∀ keyids ∈ paths lines, AvoidsRevoked fetchKeyId haveId want keyids := by
  intro hall
  have hrun : (dofindpath threeKeys 20 inithash 1 3 1).map (fun r => paths r.2) = some [[1, 2, 3]] := by
    decide +kernel
  obtain ⟨⟨h, lines⟩, hdo, hpaths⟩ := Option.map_eq_some_iff.mp hrun
  have havoids := hall threeKeys 20 1 3 1 h lines hdo [1, 2, 3] (by
    rw [show paths lines = [[1, 2, 3]] from hpaths]
    exact List.mem_singleton_self _)
  have hrevoked := havoids 2 (by decide) (by decide) (by decide)
  exact absurd hrevoked (by decide)

/-- **When trust paths avoid revoked keys.** From an empty cache they do if before each round no shortest
chain, among the keys that are not disabled and not known to be revoked, has a revoked key in its middle.
They do not if before some round all shortest chains have one. -/
theorem dofindpath_avoidsRevoked (fetchKeyId : UInt64 → Option PublicKey) (haveId want : UInt64)
    (count : Int) :
    ∃ enough, ∀ fuel ≥ enough, ∃ h lines,
      dofindpath fetchKeyId fuel inithash haveId want count = some (h, lines) ∧
      ((∀ h₁, BeforeRound fetchKeyId fuel haveId want count h₁ →
          ∀ chain, ShortestChain fetchKeyId h₁ haveId want chain →
            AvoidsRevoked fetchKeyId haveId want (printedPath haveId want chain)) →
        ∀ keyids ∈ paths lines, AvoidsRevoked fetchKeyId haveId want keyids) ∧
      ((∃ h₁, BeforeRound fetchKeyId fuel haveId want count h₁ ∧
          (∃ chain, ShortestChain fetchKeyId h₁ haveId want chain) ∧
          ∀ chain, ShortestChain fetchKeyId h₁ haveId want chain →
            ¬ AvoidsRevoked fetchKeyId haveId want (printedPath haveId want chain)) →
        ∃ keyids ∈ paths lines, ¬ AvoidsRevoked fetchKeyId haveId want keyids) := by
  refine ⟨2 ^ 64 + 2, fun fuel hfuel => ?_⟩
  have hc := consistent_inithash fetchKeyId
  obtain ⟨h, lines, hdo, ⟨hnil, hnone⟩ | ⟨keyinfoa, keyinfob, ha, hb, hpaths⟩⟩ :=
    hc.dofindpath hfuel haveId want count
  · refine ⟨h, lines, hdo, fun _ keyids hmem => ?_, ?_⟩
    · rw [hnil] at hmem
      exact absurd hmem List.not_mem_nil
    · rintro ⟨h₁, ⟨keyinfoa, keyinfob, ha, hb, -⟩, -⟩
      exact absurd hb (hnone keyinfoa keyinfob ha)
  have hr := hc.ready ha hb
  refine ⟨h, lines, hdo, fun hall keyids hmem => ?_, ?_⟩
  · rw [hpaths] at hmem
    obtain ⟨n, hn, h₁, h', hbefore, hend⟩ := mem_roundPaths.mp hmem
    rcases (hr.beforeRound hfuel hbefore).roundEnd hfuel with ⟨hnone, -⟩ | ⟨h'', keyids', hend', -, hp⟩
    · rw [hnone] at hend
      cases hend
    · obtain ⟨rfl, rfl⟩ := Prod.mk.inj (Option.some.inj (hend'.symm.trans hend))
      obtain ⟨chain, hchain, rfl⟩ := hp.chain
      exact hall h₁ ⟨keyinfoa, keyinfob, ha, hb, n, hn, hbefore⟩ chain hchain
  · rintro ⟨h₁, ⟨keyinfoa', keyinfob', ha', hb', n, hn, hbefore⟩, ⟨chain, hchain⟩, hall⟩
    obtain rfl := Option.some.inj (ha.symm.trans ha')
    obtain rfl := Option.some.inj (hb.symm.trans hb')
    rcases (hr.beforeRound hfuel hbefore).roundEnd hfuel with ⟨-, hnone⟩ | ⟨h', keyids, hend, -, hp⟩
    · exact absurd ⟨chain, hchain.isChain, hchain.head⟩ hnone
    · obtain ⟨chain', hchain', rfl⟩ := hp.chain
      refine ⟨_, ?_, hall chain' hchain'⟩
      rw [hpaths]
      exact mem_roundPaths.mpr ⟨n, hn, h₁, h', hbefore, hend⟩

end

end Hash

end Onak
