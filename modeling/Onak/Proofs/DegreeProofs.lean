import Onak.Proofs.StatsProofs

/-!
# Proofs: degree statistics

`countdegree` counts the keys of the first levels of a search, and `furthestkey` gives one of the last.
-/

namespace Onak

namespace Hash

open Bfs

section

variable {fetchKeyId : UInt64 → Option PublicKey}

/-- A later state of a hash: no key is lost. -/
structure Extends (h₀ h : Hash) : Prop where
  /-- No key is lost. -/
  le : h₀.allocated ≤ h.allocated
  /-- The key ids are the same. -/
  idOf_eq : ∀ a < h₀.allocated, h.idOf a = h₀.idOf a

theorem Extends.refl (h : Hash) : Extends h h := ⟨le_refl _, fun _ _ => rfl⟩

theorem Extends.trans {h₀ h h' : Hash} (he : Extends h₀ h) (he' : Extends h h') : Extends h₀ h' :=
  ⟨he.le.trans he'.le, fun a ha => (he'.idOf_eq a (ha.trans_le he.le)).trans (he.idOf_eq a ha)⟩

theorem Extends.mark {h₀ h : Hash} (he : Extends h₀ h) (curdegree key sig : Nat) :
    Extends h₀ (h.mark curdegree key sig) :=
  ⟨he.le, fun a ha => by
    have hid : (h.mark curdegree key sig).idOf = h.idOf := set_idOf rfl
    rw [hid]
    exact he.idOf_eq a ha⟩

theorem Loads.extends {keyid : UInt64} {h h' : Hash} (hl : Loads fetchKeyId keyid h h') :
    Extends h h' := ⟨hl.le, hl.idOf_eq⟩

/-- What `generic_cached_getkeysigs` does for a search. -/
theorem expands_cachedGetkeysigs {h : Hash} (hc : h.Consistent fetchKeyId) (keyid : UInt64)
    {Kept : Hash → Prop} (hkept : ∀ h', Loads fetchKeyId keyid h h' → Kept h') :
    Expands fetchKeyId (signers fetchKeyId) Kept h (cachedGetkeysigs fetchKeyId h keyid).1 keyid
      (cachedGetkeysigs fetchKeyId h keyid).2 := by
  obtain ⟨hc', hl, -, hlt, hmap⟩ := hc.cachedGetkeysigs (Eq.refl (cachedGetkeysigs fetchKeyId h keyid))
  exact ⟨hc', hkept _ hl, hl.le, hl.idOf_eq, funext hl.colour, funext hl.parent, hlt, hmap⟩

/-- The search for signers. -/
theorem explores_signers (h₀ : Hash) (src : UInt64) :
    Explores fetchKeyId (signers fetchKeyId) (fun _ => True) src (fun _ => true)
      (cachedGetkeysigs fetchKeyId) (Extends h₀) where
  expand _ keyid hc hk _ := expands_cachedGetkeysigs hc keyid fun _ hl => hk.trans hl.extends
  mark _ curdegree key sig _ hk _ _ := hk.mark curdegree key sig
  ok_iff _ _ _ _ _ _ := by simp

/-- The keys that a key is known to have signed. -/
def signed (h : Hash) (keyid : UInt64) : List UInt64 := (h.lookup keyid).signs.map h.idOf

/-- The search for keys that are signed. Nothing is loaded. -/
theorem explores_signed (h₀ : Hash) (src : UInt64) :
    Explores fetchKeyId (signed h₀) (fun _ => True) src (fun _ => true) cachedSigns
      (fun h => Extends h₀ h ∧ ∀ k, h.signed k = h₀.signed k) where
  expand h keyid hc hk _ := by
    unfold cachedSigns
    have hsigned := hk.2 keyid
    unfold signed lookup at hsigned
    cases hfind : h.findinhash keyid with
    | none =>
      rw [hfind] at hsigned
      exact ⟨hc, hk, le_refl _, fun _ _ => rfl, rfl, rfl, fun a ha => absurd ha List.not_mem_nil, hsigned⟩
    | some a =>
      rw [hfind] at hsigned
      exact ⟨hc, hk, le_refl _, fun _ _ => rfl, rfl, rfl, hc.signs_lt a (of_findinhash hc hfind).1,
        hsigned⟩
  mark h curdegree key sig hc hk hsig _ := by
    refine ⟨hk.1.mark curdegree key sig, fun k => ?_⟩
    have hid : (h.mark curdegree key sig).idOf = h.idOf := set_idOf rfl
    rw [← hk.2 k]
    unfold signed
    rw [hid]
    unfold mark
    rw [hc.lookup_set hsig (sameEdges_mark h curdegree key sig)]
    split_ifs with heq
    · rw [heq, lookup_idOf hc hsig]
    · rfl
  ok_iff _ _ _ _ _ _ := by simp

/-! ## Degrees -/

variable {h : Hash} {haveKey : Nat}

theorem colourOf_eq_zero (hc : h.Consistent fetchKeyId)
    (hcolour : ∀ a < h.allocated, (h.node a).colour = 0) (keyid : UInt64) : h.colourOf keyid = 0 := by
  unfold colourOf lookup
  cases hfind : h.findinhash keyid with
  | none => rfl
  | some a => exact hcolour a (of_findinhash hc hfind).1

/-- A search begins. -/
theorem searching_init (hc : h.Consistent fetchKeyId) (hhave : haveKey < h.allocated)
    (hcolour : ∀ keyid, h.colourOf keyid = 0) (next : UInt64 → List UInt64) (okId : UInt64 → Prop)
    {Kept : Hash → Prop} (hkept : Kept h) :
    Searching fetchKeyId next okId (h.idOf haveKey) Kept 1 [haveKey] { hash := h, max := haveKey } [] where
  consistent := hc
  kept := hkept
  bfs := Bfs.Inv.init h.parentOf hcolour
  cur_lt a ha := by
    obtain rfl := List.mem_singleton.mp ha
    exact hhave
  next_lt a ha := absurd ha List.not_mem_nil
  count_eq := rfl
  max_lt := hhave
  le_max v := by rw [hcolour]; exact Nat.zero_le _
  max_eq _ := rfl

variable (fetchKeyId) in
/-- The graph in one of its directions. -/
def direction (h : Hash) (sigs : Bool) : UInt64 → List UInt64 :=
  if sigs then signers fetchKeyId else h.signed

/-- The levels that `countdegree` counts. -/
theorem searched_countdegree (hc : h.Consistent fetchKeyId) (hhave : haveKey < h.allocated)
    (hcolour : ∀ keyid, h.colourOf keyid = 0) (sigs : Bool) {n : Nat} (hn : n < 2 ^ 31) {fuel : Nat}
    (hfuel : 2 ^ 64 + 2 ≤ fuel) :
    ∃ r level cur nxt found Kept, countdegree fetchKeyId fuel h haveKey sigs n = some r ∧
      Searched fetchKeyId (direction fetchKeyId h sigs) (fun _ => True) (h.idOf haveKey)
        (fun _ => false) Kept (fun level => level ≤ n) r level cur nxt found := by
  have hmax : ((n : Int) % 2 ^ 64).toNat = n := by omega
  have hgo : ∀ level (h : Hash), (decide (level ≤ ((n : Int) % 2 ^ 64).toNat)) =
      ((decide (level ≤ n)) && !(false : Bool)) := by
    intro level h
    rw [hmax, Bool.not_false, Bool.and_true]
  unfold countdegree direction
  cases sigs with
  | true =>
    obtain ⟨r, level, cur, nxt, found, hrun, hr⟩ := Searching.searchLoop (fun _ => false)
      (fun level => level ≤ n) (explores_signers h (h.idOf haveKey)) hgo (fun _ => length_le_of_nodup) fuel
      (searching_init hc hhave hcolour _ _ (Extends.refl h)) (fun _ => rfl) (fun hne => absurd rfl hne) (.inl rfl)
      (by simp only [List.length_singleton, List.length_nil]; omega)
    exact ⟨r, level, cur, nxt, found, _, hrun, hr⟩
  | false =>
    obtain ⟨r, level, cur, nxt, found, hrun, hr⟩ := Searching.searchLoop (fun _ => false)
      (fun level => level ≤ n) (explores_signed h (h.idOf haveKey)) hgo (fun _ => length_le_of_nodup) fuel
      (searching_init hc hhave hcolour _ _ ⟨Extends.refl h, fun _ => rfl⟩) (fun _ => rfl)
      (fun hne => absurd rfl hne) (.inl rfl)
      (by simp only [List.length_singleton, List.length_nil]; omega)
    exact ⟨r, level, cur, nxt, found, _, hrun, hr⟩

/-- The number of keys that are found within so many levels. -/
theorem Searched.count_eq_ncard {next : UInt64 → List UInt64} {src : UInt64} {Kept : Hash → Prop}
    {n level : Nat} {cur nxt found : List UInt64} {r : Search}
    (hr : Searched fetchKeyId next (fun _ => True) src (fun _ => false) Kept (fun level => level ≤ n) r
      level cur nxt found) :
    r.count = {keyid | ∃ m ≤ n, Reach next (fun _ => True) src m keyid}.ncard := by
  have hlevel : level ≤ n + 1 := by
    rcases hr.before with rfl | hbefore
    · exact Nat.le_add_left 1 n
    · have hle := of_decide_eq_true hbefore
      omega
  have hset : {keyid | ∃ m ≤ n, Reach next (fun _ => True) src m keyid} = (found.toFinset : Set UInt64) := by
    ext keyid
    rw [List.coe_toFinset, Set.mem_ofPred_eq, Set.mem_ofPred_eq]
    rcases hr.ended with hstop | ⟨rfl, rfl⟩ | ⟨hbound, rfl⟩
    · cases hstop
    · -- the keys have run out before the levels have
      rw [hr.bfs.found_iff]
      constructor
      · rintro ⟨m, -, hreach⟩
        exact hr.bfs.complete hreach
      · intro hcolour
        have hle := hr.bfs.le keyid
        have hne : r.hash.colourOf keyid ≠ level := fun heq =>
          List.not_mem_nil ((hr.bfs.nxt_iff keyid).mpr heq)
        exact ⟨_, by omega, hr.bfs.reach keyid hcolour⟩
    · obtain rfl : level = n + 1 := by
        have hgt := of_decide_eq_false hbound
        omega
      exact (hr.bfs.reach_iff keyid).symm
  rw [hset, Set.ncard_coe_finset, List.toFinset_card_of_nodup hr.bfs.nodup]
  exact hr.count_eq

/-! ## The furthest key -/

/-- The length of a shortest walk from one key to another. -/
def IsShortest (next : UInt64 → List UInt64) (src : UInt64) (n : Nat) (keyid : UInt64) : Prop :=
  Reach next (fun _ => True) src n keyid ∧ ∀ m, Reach next (fun _ => True) src m keyid → n ≤ m

theorem searched_furthestkey (hc : h.Consistent fetchKeyId) (hhave : haveKey < h.allocated)
    (hcolour : ∀ keyid, h.colourOf keyid = 0) {fuel : Nat} (hfuel : 2 ^ 64 + 2 ≤ fuel) :
    ∃ r level cur nxt found, furthestkey fetchKeyId fuel h haveKey = some r ∧
      Searched fetchKeyId (signers fetchKeyId) (fun _ => True) (h.idOf haveKey) (fun _ => false)
        (Extends h) (fun _ => true) r level cur nxt found :=
  Searching.searchLoop (fun _ => false) (fun _ => true) (explores_signers h (h.idOf haveKey))
    (fun _ _ => rfl) (fun _ => length_le_of_nodup) fuel (searching_init hc hhave hcolour _ _ (Extends.refl h))
    (fun _ => rfl) (fun hne => absurd rfl hne) (.inl rfl)
    (by simp only [List.length_singleton, List.length_nil]; omega)

/-- **Degree statistics are exact.** In the graph of a consistent hash and a database, with all colours
zero: `countdegree` counts the keys that can be reached in at least one and at most `n` steps, and
`furthestkey` ends with a key whose shortest walk is the longest one, or with the key that it began with
if that has no signers. -/
theorem degree_statistics (fetchKeyId : UInt64 → Option PublicKey) (h : Hash)
    (hc : h.Consistent fetchKeyId) (hcolour : ∀ a < h.allocated, (h.node a).colour = 0) (haveKey : Nat)
    (hhave : haveKey < h.allocated) :
    ∃ enough, ∀ fuel ≥ enough,
      (∀ (sigs : Bool) (n : Nat), n < 2 ^ 31 → ∃ r, countdegree fetchKeyId fuel h haveKey sigs n = some r ∧
        r.count = {keyid | ∃ m ≤ n,
          Reach (direction fetchKeyId h sigs) (fun _ => True) (h.idOf haveKey) m keyid}.ncard) ∧
      ∃ r, furthestkey fetchKeyId fuel h haveKey = some r ∧ r.max < r.hash.allocated ∧
        (signers fetchKeyId (h.idOf haveKey) = [] ∧ r.max = haveKey ∨
          ∃ n, IsShortest (signers fetchKeyId) (h.idOf haveKey) n (r.hash.idOf r.max) ∧
            ∀ m keyid, IsShortest (signers fetchKeyId) (h.idOf haveKey) m keyid → m ≤ n) := by
  have hzero := colourOf_eq_zero hc hcolour
  refine ⟨2 ^ 64 + 2, fun fuel hfuel => ⟨fun sigs n hn => ?_, ?_⟩⟩
  · obtain ⟨r, level, cur, nxt, found, Kept, hrun, hr⟩ :=
      searched_countdegree hc hhave hzero sigs hn hfuel
    exact ⟨r, hrun, hr.count_eq_ncard⟩
  · obtain ⟨r, level, cur, nxt, found, hrun, hr⟩ := searched_furthestkey hc hhave hzero hfuel
    refine ⟨r, hrun, hr.max_lt, ?_⟩
    obtain ⟨rfl, rfl⟩ : cur = [] ∧ nxt = [] := by
      rcases hr.ended with hstop | hend | ⟨hbound, -⟩
      · cases hstop
      · exact hend
      · cases hbound
    by_cases hnil : found = []
    · left
      have hreach (keyid : UInt64) : keyid ∉ signers fetchKeyId (h.idOf haveKey) := fun hmem =>
        hr.bfs.complete (.first hmem trivial) (by
          by_contra hne
          exact List.not_mem_nil (hnil ▸ (hr.bfs.found_iff keyid).mpr hne))
      refine ⟨List.eq_nil_iff_forall_not_mem.mpr hreach, ?_⟩
      refine hr.consistent.unique _ hr.max_lt _ (hhave.trans_le hr.kept.le) ?_
      rw [hr.max_eq hnil, hr.kept.idOf_eq _ hhave]
    · right
      have hmax : r.hash.colourOf (r.hash.idOf r.max) ≠ 0 := by
        obtain ⟨keyid, hmem⟩ := List.exists_mem_of_ne_nil found hnil
        have hcol := (hr.bfs.found_iff keyid).mp hmem
        have hle := hr.le_max keyid
        omega
      refine ⟨_, ⟨hr.bfs.reach _ hmax, fun m hm => hr.bfs.shortest hm⟩, fun m keyid hm => ?_⟩
      exact (hm.2 _ (hr.bfs.reach _ (hr.bfs.complete hm.1))).trans (hr.le_max keyid)

end

/-! ## A small database -/

/-- A version 3 signature by a key with a small key id. -/
def signatureBy (k : UInt8) : Packet :=
  ⟨tagSignature, false, [3, 5, 0x10, 0, 0, 0, 0, 0, 0, 0, 0, 0, 0, 0, k, 1, 8, 0, 0]⟩

/-- A key with one user id, and signatures over it. -/
def keySignedBy (revoked : Bool) (ks : List UInt8) : PublicKey :=
  ⟨⟨tagPublickey, false, []⟩, revoked, [], [⟨⟨tagUid, false, []⟩, ks.map signatureBy⟩], []⟩

/-- Three keys: the first signs the second, which is revoked, and the second signs the third. -/
def threeKeys (keyid : UInt64) : Option PublicKey :=
  if keyid = 1 then some (keySignedBy false [1])
  else if keyid = 2 then some (keySignedBy true [2, 1])
  else if keyid = 3 then some (keySignedBy false [3, 2])
  else none

set_option maxRecDepth 20000 in
theorem degree_statistics_threeKeys :
    ∃ enough, ∀ fuel ≥ enough, ∃ r,
      countdegree threeKeys fuel (afterCalls threeKeys [3] inithash) 0 true 2 = some r ∧
        r.count = {keyid | ∃ m ≤ 2, Reach (direction threeKeys (afterCalls threeKeys [3] inithash) true)
          (fun _ => True) ((afterCalls threeKeys [3] inithash).idOf 0) m keyid}.ncard := by
  have hcolour : ∀ a < (afterCalls threeKeys [3] inithash).allocated,
      ((afterCalls threeKeys [3] inithash).node a).colour = 0 := by
    decide +kernel
  obtain ⟨enough, hall⟩ := degree_statistics threeKeys (afterCalls threeKeys [3] inithash)
    ((consistent_inithash threeKeys).afterCalls [3]) hcolour 0 (by decide +kernel)
  exact ⟨enough, fun fuel hfuel => (hall fuel hfuel).1 true 2 (by omega)⟩

end Hash

end Onak
