import Mathlib

/-!
# Breadth-first search by levels

A search from `src` along `next`, for vertices that are `ok`. It keeps a list of the vertices of the last
level that are still to be looked at, a list of those it has found of the next level, and a colour and a
parent for each vertex; the colour of a vertex that is not found yet is zero. What it may do to them are
the rules below: find a vertex, be done with a vertex, and begin a level. The list of what is found and
the lists of the levels grow in any order, and a search may stop after any of these.
-/

namespace Bfs

variable {V : Type*} (next : V → List V) (ok : V → Prop) (src : V)

/-- `v` can be reached from `src` in `n` steps, by way of vertices that are `ok`, and is `ok`. -/
inductive Reach : Nat → V → Prop
  | first {v : V} : v ∈ next src → ok v → Reach 1 v
  | step {n : Nat} {u v : V} : Reach n u → v ∈ next u → ok v → Reach (n + 1) v

/-- `v` is of a level. The level zero is `src`, whatever colour that has got since. -/
def At (colour : V → Nat) (level : Nat) (v : V) : Prop :=
  if level = 0 then v = src else colour v = level

/-- What holds when a level is looked at: `cur` is what is left of the level before `level`, `found` are
all vertices that are found, and those of this level are `nxt`. -/
structure Inv (level : Nat) (cur nxt found : List V) (colour : V → Nat) (parent : V → V) : Prop where
  /-- The first level is one. -/
  pos : 0 < level
  /-- No higher level is found. -/
  le : ∀ v, colour v ≤ level
  /-- These are found. -/
  found_iff : ∀ v, v ∈ found ↔ colour v ≠ 0
  /-- None is found twice. -/
  nodup : found.Nodup
  /-- What is left is of the level before. -/
  cur_at : ∀ v ∈ cur, At src colour (level - 1) v
  /-- These are of this level. -/
  nxt_iff : ∀ v, v ∈ nxt ↔ colour v = level
  /-- What is found can be reached. -/
  reach : ∀ v, colour v ≠ 0 → Reach next ok src (colour v) v
  /-- The parent is of the level before. -/
  parent_at : ∀ v, colour v ≠ 0 → v ∈ next (parent v) ∧ At src colour (colour v - 1) (parent v)
  /-- All vertices next to those of earlier levels are found. -/
  closed : ∀ d u v, d + 1 < level → At src colour d u → v ∈ next u → ok v →
    colour v ≠ 0 ∧ colour v ≤ d + 1
  /-- And those next to the ones of the level before that are done with. -/
  done : ∀ u v, At src colour (level - 1) u → u ∉ cur → v ∈ next u → ok v → colour v ≠ 0

variable {next ok src}

@[simp]
theorem at_zero {colour : V → Nat} {v : V} : At src colour 0 v ↔ v = src := by
  unfold At
  rw [if_pos rfl]

theorem at_of_ne_zero {colour : V → Nat} {level : Nat} {v : V} (h : level ≠ 0) :
    At src colour level v ↔ colour v = level := by
  unfold At
  rw [if_neg h]

theorem Reach.ok_end {n : Nat} {v : V} (h : Reach next ok src n v) : ok v := by
  cases h with
  | first _ hok => exact hok
  | step _ _ hok => exact hok

/-- The search begins with `src`. -/
theorem Inv.init {colour : V → Nat} (parent : V → V) (hcolour : ∀ v, colour v = 0) :
    Inv next ok src 1 [src] [] [] colour parent where
  pos := Nat.one_pos
  le v := by rw [hcolour]; exact Nat.zero_le 1
  found_iff v := by simp [hcolour]
  nodup := List.nodup_nil
  cur_at v hv := at_zero.mpr (List.mem_singleton.mp hv)
  nxt_iff v := by simp [hcolour]
  reach v hv := absurd (hcolour v) hv
  parent_at v hv := absurd (hcolour v) hv
  closed d u v hd := absurd hd (by omega)
  done u v hu hcur := absurd (List.mem_singleton.mpr (at_zero.mp hu)) hcur

variable {level : Nat} {cur nxt found : List V} {colour : V → Nat} {parent : V → V}

/-- What can be reached in fewer steps is found, with a colour that is no greater. -/
theorem Inv.colour_le (h : Inv next ok src level cur nxt found colour parent) {n : Nat} {v : V}
    (hreach : Reach next ok src n v) (hn : n < level) : colour v ≠ 0 ∧ colour v ≤ n := by
  induction hreach with
  | first hnext hok => exact h.closed 0 src _ hn (at_zero.mpr rfl) hnext hok
  | @step n u v hreach hnext hok ih =>
    obtain ⟨hu, hle⟩ := ih (by omega)
    obtain ⟨hv, hle'⟩ := h.closed (colour u) u v (by omega) ((at_of_ne_zero hu).mpr rfl) hnext hok
    exact ⟨hv, by omega⟩

/-- **Colours are distances.** -/
theorem Inv.shortest (h : Inv next ok src level cur nxt found colour parent) {n : Nat} {v : V}
    (hreach : Reach next ok src n v) : colour v ≤ n := by
  by_contra hlt
  have hle := h.le v
  exact hlt (h.colour_le hreach (by omega)).2

/-- **A search that runs out of vertices has found all that can be reached.** -/
theorem Inv.complete (h : Inv next ok src level [] [] found colour parent) {n : Nat} {v : V}
    (hreach : Reach next ok src n v) : colour v ≠ 0 := by
  have hstep {d : Nat} {u v : V} (hd : d < level) (hu : At src colour d u) (hnext : v ∈ next u)
      (hok : ok v) : colour v ≠ 0 := by
    rcases Nat.lt_or_eq_of_le (Nat.succ_le_of_lt hd) with hlt | heq
    · exact (h.closed d u v hlt hu hnext hok).1
    · exact h.done u v (by rwa [show level - 1 = d by omega]) List.not_mem_nil hnext hok
  induction hreach with
  | first hnext hok => exact hstep h.pos (at_zero.mpr rfl) hnext hok
  | @step n u v hreach hnext hok ih =>
    have hle := h.le u
    have hne : colour u ≠ level := fun heq => List.not_mem_nil ((h.nxt_iff u).mpr heq)
    exact hstep (by omega) ((at_of_ne_zero ih).mpr rfl) hnext hok

/-- What is next to the level before can be reached in as many steps as there are levels. -/
theorem Inv.reach_next (h : Inv next ok src level cur nxt found colour parent) {u v : V}
    (hu : At src colour (level - 1) u) (hnext : v ∈ next u) (hok : ok v) :
    Reach next ok src level v := by
  have hpos := h.pos
  rcases Nat.lt_or_eq_of_le hpos with hlt | heq
  · rw [at_of_ne_zero (by omega)] at hu
    have hreach := h.reach u (by omega)
    rw [hu] at hreach
    have hstep := hreach.step hnext hok
    rwa [Nat.sub_add_cancel hpos] at hstep
  · rw [← heq, at_zero] at hu
    rw [hu] at hnext
    rw [← heq]
    exact .first hnext hok

section

variable [DecidableEq V]

/-- Earlier levels do not change when a vertex gets its colour. -/
theorem at_update {v w : V} {d : Nat} (hv : colour v = 0) (hd : d < level) :
    At src (Function.update colour v level) d w ↔ At src colour d w := by
  unfold At
  by_cases hw : w = v
  · rw [hw, Function.update_self, hv]
    split_ifs
    · rfl
    · constructor <;> intro heq <;> omega
  · rw [Function.update_of_ne hw]

/-- A vertex is found. -/
theorem Inv.find (h : Inv next ok src level cur nxt found colour parent) {u v : V} (hu : u ∈ cur)
    (hnext : v ∈ next u) (hok : ok v) (hv : colour v = 0) :
    Inv next ok src level cur (v :: nxt) (v :: found) (Function.update colour v level)
      (Function.update parent v u) := by
  have hpos := h.pos
  have hself : Function.update colour v level v = level := Function.update_self v level colour
  have hother {w : V} (hw : w ≠ v) : Function.update colour v level w = colour w :=
    Function.update_of_ne hw level colour
  exact
    { pos := hpos
      le := by
        intro w
        by_cases hw : w = v
        · rw [hw, hself]
        · rw [hother hw]
          exact h.le w
      found_iff := by
        intro w
        rw [List.mem_cons, h.found_iff]
        by_cases hw : w = v
        · rw [hw, hself]
          simp only [true_or, true_iff]
          omega
        · rw [hother hw]
          simp [hw]
      nodup := List.nodup_cons.mpr ⟨fun hmem => (h.found_iff v).mp hmem hv, h.nodup⟩
      cur_at := fun w hw => (at_update hv (by omega)).mpr (h.cur_at w hw)
      nxt_iff := by
        intro w
        rw [List.mem_cons, h.nxt_iff]
        by_cases hw : w = v
        · rw [hw, hself]
          simp
        · rw [hother hw]
          simp [hw]
      reach := by
        intro w hw
        by_cases hwv : w = v
        · rw [hwv, hself]
          exact h.reach_next (h.cur_at u hu) hnext hok
        · rw [hother hwv] at hw ⊢
          exact h.reach w hw
      parent_at := by
        intro w hw
        by_cases hwv : w = v
        · rw [hwv, hself, Function.update_self]
          exact ⟨hnext, (at_update hv (by omega)).mpr (h.cur_at u hu)⟩
        · rw [hother hwv] at hw ⊢
          rw [Function.update_of_ne hwv]
          obtain ⟨hmem, hpar⟩ := h.parent_at w hw
          have hle := h.le w
          exact ⟨hmem, (at_update hv (by omega)).mpr hpar⟩
      closed := by
        intro d x w hd hx hnext' hok'
        obtain ⟨hw, hle⟩ := h.closed d x w hd ((at_update hv (by omega)).mp hx) hnext' hok'
        have hwv : w ≠ v := fun heq => hw (heq ▸ hv)
        rw [hother hwv]
        exact ⟨hw, hle⟩
      done := by
        intro x w hx hxcur hnext' hok'
        have hw := h.done x w ((at_update hv (by omega)).mp hx) hxcur hnext' hok'
        have hwv : w ≠ v := fun heq => hw (heq ▸ hv)
        rw [hother hwv]
        exact hw }

end

/-- A vertex is done with, since all that are next to it are found. -/
theorem Inv.advance {u : V} (h : Inv next ok src level (u :: cur) nxt found colour parent)
    (hall : ∀ v ∈ next u, ok v → colour v ≠ 0) :
    Inv next ok src level cur nxt found colour parent :=
  { h with
    cur_at := fun v hv => h.cur_at v (List.mem_cons_of_mem u hv)
    done := by
      intro w v hw hcur hnext hok
      by_cases hwu : w = u
      · exact hall v (hwu ▸ hnext) hok
      · exact h.done w v hw (fun hmem => (List.mem_cons.mp hmem).elim hwu hcur) hnext hok }

/-- The next level begins. -/
theorem Inv.nextLevel (h : Inv next ok src level [] nxt found colour parent) :
    Inv next ok src (level + 1) nxt [] found colour parent where
  pos := Nat.succ_pos level
  le v := (h.le v).trans (Nat.le_succ level)
  found_iff := h.found_iff
  nodup := h.nodup
  cur_at v hv := (at_of_ne_zero (by have := h.pos; omega)).mpr ((h.nxt_iff v).mp hv)
  nxt_iff v := by
    have hle := h.le v
    simp only [List.not_mem_nil, false_iff]
    omega
  reach := h.reach
  parent_at := h.parent_at
  closed d u v hd hu hnext hok := by
    rcases Nat.lt_or_eq_of_le (Nat.le_of_lt_succ hd) with hlt | heq
    · exact h.closed d u v hlt hu hnext hok
    · have hv := h.done u v (by rwa [show level - 1 = d by omega]) List.not_mem_nil hnext hok
      exact ⟨hv, heq ▸ h.le v⟩
  done u v hu hnxt hnext hok := by
    have hpos := h.pos
    rw [Nat.add_sub_cancel, at_of_ne_zero (by omega), ← h.nxt_iff] at hu
    exact absurd hu hnxt

/-- What is found within `n` levels is what can be reached in as many steps. -/
theorem Inv.reach_iff {n : Nat} (h : Inv next ok src (n + 1) cur [] found colour parent) (v : V) :
    v ∈ found ↔ ∃ m ≤ n, Reach next ok src m v := by
  rw [h.found_iff]
  constructor
  · intro hv
    have hle := h.le v
    have hne : colour v ≠ n + 1 := fun heq => List.not_mem_nil ((h.nxt_iff v).mpr heq)
    exact ⟨colour v, by omega, h.reach v hv⟩
  · rintro ⟨m, hm, hreach⟩
    exact (h.colour_le hreach (by omega)).1

/-- Distances are not greater than the number of vertices that are found. -/
theorem Inv.colour_le_length (h : Inv next ok src level cur nxt found colour parent) (v : V) :
    colour v ≤ found.length := by
  have hpath (n : Nat) : ∀ v, colour v = n →
      ∃ l : List V, l.Nodup ∧ l.length = n ∧ ∀ u ∈ l, u ∈ found ∧ colour u ≤ n := by
    induction n with
    | zero => exact fun v _ => ⟨[], List.nodup_nil, rfl, fun u hu => absurd hu List.not_mem_nil⟩
    | succ n ih =>
      intro v hv
      have hfound : v ∈ found := (h.found_iff v).mpr (by omega)
      obtain ⟨-, hpar⟩ := h.parent_at v (by omega)
      rw [hv, Nat.add_sub_cancel] at hpar
      obtain ⟨l, hnodup, hlen, hl⟩ : ∃ l : List V, l.Nodup ∧ l.length = n ∧
          ∀ u ∈ l, u ∈ found ∧ colour u ≤ n := by
        by_cases hn : n = 0
        · rw [hn]
          exact ⟨[], List.nodup_nil, rfl, fun u hu => absurd hu List.not_mem_nil⟩
        · exact ih (parent v) ((at_of_ne_zero hn).mp hpar)
      refine ⟨v :: l, List.nodup_cons.mpr ⟨fun hmem => ?_, hnodup⟩, by rw [List.length_cons, hlen], ?_⟩
      · have hle := (hl v hmem).2
        omega
      · intro u hu
        rcases List.mem_cons.mp hu with rfl | hu
        · exact ⟨hfound, by omega⟩
        · exact ⟨(hl u hu).1, by have := (hl u hu).2; omega⟩
  obtain ⟨l, hnodup, hlen, hl⟩ := hpath (colour v) v rfl
  rw [← hlen]
  exact (hnodup.subperm fun u hu => (hl u hu).1).length_le

/-- Only vertices of the first level have `src` as their parent. -/
theorem Inv.parent_ne (h : Inv next ok src level cur nxt found colour parent) {v : V}
    (hv : 2 ≤ colour v) : parent v ≠ src := by
  intro heq
  obtain ⟨hnext, -⟩ := h.parent_at v (by omega)
  rw [heq] at hnext
  have hle := h.shortest (.first hnext (h.reach v (by omega)).ok_end)
  omega

/-! ## Chains -/

variable (next ok src) in
/-- A chain of at least one step to `src`: each vertex is next to the one behind it, and all but the
last are `ok`. -/
structure Chain (chain : List V) : Prop where
  /-- There is a step. -/
  two_le : 2 ≤ chain.length
  /-- Each vertex is next to the one behind it. -/
  isChain : chain.IsChain fun v u => v ∈ next u
  /-- The end. -/
  last : chain.getLast? = some src
  /-- All others are `ok`. -/
  ok : ∀ v ∈ chain.dropLast, ok v

theorem Chain.cons {u v : V} {chain : List V} (h : Chain next ok src (u :: chain)) (hnext : v ∈ next u)
    (hok : ok v) : Chain next ok src (v :: u :: chain) where
  two_le := Nat.le_add_left 2 chain.length
  isChain := .cons_cons hnext h.isChain
  last := by rw [List.getLast?_cons_cons]; exact h.last
  ok w hw := by
    rw [List.dropLast_cons_cons] at hw
    rcases List.mem_cons.mp hw with rfl | hw
    · exact hok
    · exact h.ok w hw

theorem chain_pair {v : V} (hnext : v ∈ next src) (hok : ok v) : Chain next ok src [v, src] where
  two_le := le_refl 2
  isChain := .cons_cons hnext (.singleton src)
  last := rfl
  ok w hw := by
    obtain rfl := List.mem_singleton.mp hw
    exact hok

/-- A vertex is reached by chains. -/
theorem reach_iff_chain {n : Nat} {v : V} :
    Reach next ok src n v ↔
      ∃ chain, Chain next ok src chain ∧ chain.head? = some v ∧ chain.length = n + 1 := by
  constructor
  · intro h
    induction h with
    | @first v hnext hok => exact ⟨[v, src], chain_pair hnext hok, rfl, rfl⟩
    | @step n u v _ hnext hok ih =>
      obtain ⟨chain, hchain, hhead, hlen⟩ := ih
      cases chain with
      | nil => cases hhead
      | cons u' chain =>
        obtain rfl : u' = u := Option.some.inj hhead
        exact ⟨v :: u' :: chain, hchain.cons hnext hok, rfl, by rw [List.length_cons, hlen]⟩
  · rintro ⟨chain, hchain, hhead, hlen⟩
    induction n generalizing v chain with
    | zero =>
      have htwo := hchain.two_le
      omega
    | succ n ih =>
      rcases chain with _ | ⟨v', _ | ⟨u, chain⟩⟩
      · cases hhead
      · simp only [List.length_singleton] at hlen
        omega
      · obtain rfl : v' = v := Option.some.inj hhead
        obtain ⟨hnext, htail⟩ := List.isChain_cons_cons.mp hchain.isChain
        have hok : ok v' := hchain.ok v' (by simp)
        cases chain with
        | nil =>
          obtain rfl : u = src := Option.some.inj hchain.last
          obtain rfl : n = 0 := by simpa using hlen
          exact .first hnext hok
        | cons w chain =>
          have hlast := hchain.last
          rw [List.getLast?_cons_cons] at hlast
          refine .step (ih (v := u) (u :: w :: chain) ⟨Nat.le_add_left 2 _, htail, hlast, ?_⟩ rfl ?_)
            hnext hok
          · intro x hx
            exact hchain.ok x (by rw [List.dropLast_cons_cons]; exact List.mem_cons_of_mem _ hx)
          · simpa using hlen

/-- A vertex, its parent, and so on, `n` steps. -/
def ancestors (parent : V → V) : Nat → V → List V
  | 0, v => [v]
  | n + 1, v => v :: ancestors parent n (parent v)

theorem ancestors_head (parent : V → V) (n : Nat) (v : V) :
    ∃ rest, ancestors parent n v = v :: rest := by
  cases n with
  | zero => exact ⟨[], rfl⟩
  | succ n => exact ⟨_, rfl⟩

theorem length_ancestors (parent : V → V) (n : Nat) (v : V) :
    (ancestors parent n v).length = n + 1 := by
  induction n generalizing v with
  | zero => rfl
  | succ n ih => rw [ancestors, List.length_cons, ih]

/-- **The parents are a chain.** -/
theorem Inv.chain_ancestors (h : Inv next ok src level cur nxt found colour parent) {n : Nat} {v : V}
    (hv : colour v = n) (hn : n ≠ 0) : Chain next ok src (ancestors parent n v) := by
  induction n generalizing v with
  | zero => exact absurd rfl hn
  | succ n ih =>
    obtain ⟨hnext, hpar⟩ := h.parent_at v (by omega)
    have hok := (h.reach v (by omega)).ok_end
    rw [hv, Nat.add_sub_cancel] at hpar
    cases n with
    | zero =>
      rw [at_zero] at hpar
      show Chain next ok src [v, parent v]
      rw [hpar] at hnext ⊢
      exact chain_pair hnext hok
    | succ n =>
      rw [at_of_ne_zero (Nat.succ_ne_zero n)] at hpar
      have hchain := ih hpar (Nat.succ_ne_zero n)
      obtain ⟨rest, hrest⟩ := ancestors_head parent (n + 1) (parent v)
      rw [hrest] at hchain
      rw [ancestors, hrest]
      exact hchain.cons hnext hok

end Bfs
