import Mathlib

/-!
# Singly linked lists with a tail pointer

A list is known by the nodes that can be reached from its head pointer, and by a tail pointer that is
kept beside it. Nothing makes the tail pointer point to the last node: an operation that unlinks
nodes may leave it where it was. `Valid` says that it does point there, and is `NULL` for an empty
list.

A node is written to through the tail pointer only, when another node is hung behind it. If the
tail pointer points to a node that is not on the list, which has been freed then, the write is a
fault (`none`).
-/

/-- A node: its address and what it holds. -/
structure Node (α : Type*) where
  /-- The address. -/
  addr : Nat
  /-- What the node holds. -/
  val : α

/-- A linked list with its tail pointer. -/
structure Linked (α : Type*) where
  /-- The nodes from the head pointer on. -/
  nodes : List (Node α)
  /-- The tail pointer; `none` is the `NULL` pointer. -/
  last : Option Nat

/-- An allocator: it gives an address that is not in use. -/
structure Malloc where
  /-- The address for a new node, given those in use. -/
  alloc : List Nat → Nat
  /-- It is not one of those. -/
  fresh : ∀ used, alloc used ∉ used

theorem Malloc.sum_succ_not_mem (used : List Nat) : used.sum + 1 ∉ used := by
  intro h
  have hle := List.le_sum_of_mem h
  omega

namespace Linked

variable {α β : Type*}

/-- The list with both pointers `NULL`. -/
def empty : Linked α := ⟨[], none⟩

/-- What the nodes hold, in order. -/
def vals (l : Linked α) : List α := l.nodes.map Node.val

/-- The addresses of the nodes, in order. -/
def addrs (l : Linked α) : List Nat := l.nodes.map Node.addr

/-- The tail pointer points to the last node, and is `NULL` if there is none; no two nodes have the
same address. -/
structure Valid (l : Linked α) : Prop where
  tail : l.last = l.addrs.getLast?
  distinct : l.addrs.Nodup

/-! ## Adding nodes -/

/-- The nodes up to the one at an address, if there is one. -/
def upTo (p : Nat) : List (Node α) → Option (List (Node α))
  | [] => none
  | n :: rest => if n.addr = p then some [n] else (upTo p rest).map (n :: ·)

/-- Hangs a node behind the one at address `p`, and moves the tail pointer to it. What was behind
that one before is no longer on the list. -/
def hang (l : Linked α) (p : Nat) (n : Node α) : Option (Linked α) :=
  (upTo p l.nodes).map fun front => ⟨front ++ [n], some n.addr⟩

/-- Adds a node behind the tail pointer. With a tail pointer that is `NULL` only the tail pointer is
set, and the head pointer if that is `NULL` as well. -/
def add (m : Malloc) (l : Linked α) (x : α) : Option (Linked α) :=
  let n : Node α := ⟨m.alloc l.addrs, x⟩
  match l.last with
  | some p => l.hang p n
  | none => some ⟨if l.nodes.isEmpty then [n] else l.nodes, some n.addr⟩

/-- Adds a node as the first one if the head pointer is `NULL`, else behind the tail pointer. -/
def addEnd (m : Malloc) (l : Linked α) (x : α) : Option (Linked α) :=
  let n : Node α := ⟨m.alloc l.addrs, x⟩
  if l.nodes.isEmpty then some ⟨[n], some n.addr⟩ else l.last.bind fun p => l.hang p n

/-- Adds a node for each element of a list. -/
def addAll (m : Malloc) (l : Linked α) : List α → Option (Linked α)
  | [] => some l
  | x :: xs => (l.add m x).bind fun l => addAll m l xs

/-! ## Unlinking nodes -/

/-- Unlinks the nodes that do not satisfy a condition, and leaves the tail pointer alone. -/
def keep (p : α → Bool) (l : Linked α) : Linked α := { l with nodes := l.nodes.filter fun n => p n.val }

/-- The loop that unlinks the first node with `p`, where `prev` is the address of the node before. If
it was the last one, the tail pointer goes back to the node before it. -/
def unlinkLoop (p : α → Bool) (last prev : Option Nat) : List (Node α) → Linked α
  | [] => ⟨[], last⟩
  | cur :: rest =>
    if p cur.val then
      ⟨rest, if rest.isEmpty then prev else last⟩
    else
      let r := unlinkLoop p last (some cur.addr) rest
      { r with nodes := cur :: r.nodes }

/-- Unlinks the first node with `p`. -/
def unlinkFirst (p : α → Bool) (l : Linked α) : Linked α := unlinkLoop p l.last none l.nodes

/-! ## Valid lists -/

@[simp]
theorem vals_empty : (empty : Linked α).vals = [] := rfl

theorem valid_empty : (empty : Linked α).Valid := ⟨rfl, List.nodup_nil⟩

/-- A valid tail pointer that is not `NULL` points to the last of some nodes. -/
theorem Valid.exists_last {l : Linked α} (h : l.Valid) {p : Nat} (hp : l.last = some p) :
    ∃ front n, l.nodes = front ++ [n] ∧ n.addr = p ∧ ∀ x ∈ front, x.addr ≠ p := by
  have htail := h.tail
  rw [hp, addrs, List.getLast?_map] at htail
  obtain ⟨n, hn, hnp⟩ := Option.map_eq_some_iff.mp htail.symm
  obtain ⟨front, hfront⟩ := List.getLast?_eq_some_iff.mp hn
  refine ⟨front, n, hfront, hnp, fun x hx hxp => ?_⟩
  have hnodup := h.distinct
  rw [addrs, hfront, List.map_append, List.map_singleton, List.nodup_append] at hnodup
  exact hnodup.2.2 x.addr (List.mem_map_of_mem hx) n.addr (List.mem_singleton_self _)
    (hxp.trans hnp.symm)

theorem Valid.nodes_eq_nil {l : Linked α} (h : l.Valid) (hp : l.last = none) : l.nodes = [] := by
  have htail := h.tail
  rw [hp] at htail
  simpa [addrs] using List.getLast?_eq_none_iff.mp htail.symm

theorem upTo_last {p : Nat} {front : List (Node α)} {n : Node α} (hn : n.addr = p)
    (hfront : ∀ x ∈ front, x.addr ≠ p) : upTo p (front ++ [n]) = some (front ++ [n]) := by
  induction front with
  | nil => simp [upTo, hn]
  | cons x front ih =>
    obtain ⟨hx, hfront⟩ := List.forall_mem_cons.mp hfront
    simp [upTo, hx, ih hfront]

theorem valid_snoc {nodes : List (Node α)} {n : Node α} (hd : (nodes.map Node.addr).Nodup)
    (hn : n.addr ∉ nodes.map Node.addr) : Valid ⟨nodes ++ [n], some n.addr⟩ := by
  refine ⟨by simp [addrs], ?_⟩
  rw [addrs, List.map_append, List.map_singleton]
  exact List.nodup_append.mpr ⟨hd, List.nodup_singleton _, fun a ha b hb hab => by
    rw [List.mem_singleton.mp hb] at hab
    exact hn (hab ▸ ha)⟩

/-- On a valid list, both ways of adding a node put it at the end. -/
theorem Valid.add {l : Linked α} (h : l.Valid) (m : Malloc) (x : α) :
    ∃ l', l.add m x = some l' ∧ l.addEnd m x = some l' ∧ l'.Valid ∧ l'.vals = l.vals ++ [x] := by
  cases hp : l.last with
  | none =>
    have hnil := h.nodes_eq_nil hp
    refine ⟨⟨[⟨m.alloc l.addrs, x⟩], some (m.alloc l.addrs)⟩, ?_, ?_, ?_, ?_⟩
    · simp [Linked.add, hp, hnil]
    · simp [addEnd, hnil]
    · show Valid ⟨[] ++ [⟨m.alloc l.addrs, x⟩], some (m.alloc l.addrs)⟩
      exact valid_snoc List.nodup_nil List.not_mem_nil
    · simp [vals, hnil]
  | some p =>
    obtain ⟨front, n, hnodes, hn, hfront⟩ := h.exists_last hp
    have hupTo : upTo p l.nodes = some l.nodes := by
      rw [hnodes]
      exact upTo_last hn hfront
    refine ⟨⟨l.nodes ++ [⟨m.alloc l.addrs, x⟩], some (m.alloc l.addrs)⟩, ?_, ?_, ?_, ?_⟩
    · simp [Linked.add, hp, hang, hupTo]
    · have hne : l.nodes.isEmpty = false := by rw [hnodes]; simp
      simp [addEnd, hp, hang, hupTo, hne]
    · exact valid_snoc h.distinct (m.fresh _)
    · simp [vals]

theorem Valid.addAll {l : Linked α} (h : l.Valid) (m : Malloc) (xs : List α) :
    ∃ l', l.addAll m xs = some l' ∧ l'.Valid ∧ l'.vals = l.vals ++ xs := by
  induction xs generalizing l with
  | nil => exact ⟨l, rfl, h, (List.append_nil _).symm⟩
  | cons x xs ih =>
    obtain ⟨l₁, hadd, -, hvalid, hvals⟩ := h.add m x
    obtain ⟨l', hall, hvalid', hvals'⟩ := ih hvalid
    refine ⟨l', ?_, hvalid', ?_⟩
    · rw [Linked.addAll, hadd]
      exact hall
    · rw [hvals', hvals, List.append_assoc]
      rfl

/-- Unlinking nodes but not the last one keeps the tail pointer valid. -/
theorem Valid.unlink {l : Linked α} (h : l.Valid) {nodes : List (Node β)}
    (hsub : (nodes.map Node.addr).Sublist l.addrs)
    (hlast : (nodes.map Node.addr).getLast? = l.addrs.getLast?) : Valid ⟨nodes, l.last⟩ :=
  ⟨h.tail.trans hlast.symm, h.distinct.sublist hsub⟩

/-- A part of a list without repetitions that has its last element ends in it. -/
theorem getLast?_of_sublist {xs ys : List α} (h : xs.Sublist ys) (hy : ys.Nodup) {y : α}
    (hlast : ys.getLast? = some y) (hmem : y ∈ xs) : xs.getLast? = some y := by
  obtain ⟨front, rfl⟩ := List.getLast?_eq_some_iff.mp hlast
  obtain ⟨xs₁, xs₂, rfl, h₁, h₂⟩ := List.sublist_append_iff.mp h
  rcases List.sublist_singleton.mp h₂ with rfl | rfl
  · rw [List.append_nil] at hmem
    exact absurd rfl ((List.nodup_append.mp hy).2.2 y (h₁.subset hmem) y (List.mem_singleton_self y))
  · exact List.getLast?_concat

/-- Unlinking without a look at the tail pointer is safe as long as the last node stays. -/
theorem Valid.keep {l : Linked α} (h : l.Valid) {p : α → Bool}
    (hlast : ∀ x ∈ l.vals.getLast?, p x = true) : (l.keep p).Valid := by
  have hsub : ((l.keep p).nodes.map Node.addr).Sublist l.addrs := List.filter_sublist.map Node.addr
  refine h.unlink hsub ?_
  cases hq : l.last with
  | none => simp [addrs, h.nodes_eq_nil hq]
  | some q =>
    obtain ⟨front, n, hnodes, hn, -⟩ := h.exists_last hq
    have hend : l.addrs.getLast? = some q := by rw [← h.tail, hq]
    have hp : p n.val = true := hlast n.val (by simp [vals, hnodes])
    rw [hend]
    refine getLast?_of_sublist hsub h.distinct hend (hn ▸ List.mem_map_of_mem ?_)
    exact List.mem_filter.mpr ⟨by simp [hnodes], hp⟩

/-- A walk to the end of the list makes the tail pointer valid. -/
theorem valid_of_walk {nodes : List (Node α)} (h : (nodes.map Node.addr).Nodup) :
    Valid ⟨nodes, nodes.getLast?.map Node.addr⟩ :=
  ⟨(List.getLast?_map).symm, h⟩

theorem unlinkLoop_nodes (p : α → Bool) (last prev : Option Nat) (nodes : List (Node α)) :
    (unlinkLoop p last prev nodes).nodes = nodes.eraseP fun n => p n.val := by
  induction nodes generalizing prev with
  | nil => rfl
  | cons cur rest ih =>
    by_cases h : p cur.val
    · rw [unlinkLoop, if_pos h, List.eraseP_cons_of_pos (p := fun n : Node α => p n.val) h]
    · rw [unlinkLoop, if_neg h, List.eraseP_cons_of_neg (p := fun n : Node α => p n.val) h, ← ih (some cur.addr)]

theorem unlinkLoop_last (p : α → Bool) {last prev : Option Nat} {nodes : List (Node α)}
    (h : last = (nodes.map Node.addr).getLast?.or prev) :
    (unlinkLoop p last prev nodes).last =
      ((unlinkLoop p last prev nodes).nodes.map Node.addr).getLast?.or prev := by
  induction nodes generalizing prev with
  | nil => simpa [unlinkLoop] using h
  | cons cur rest ih =>
    have hcur : last = (rest.map Node.addr).getLast?.or (some cur.addr) := by
      rw [h, List.map_cons, List.getLast?_cons]
      cases (rest.map Node.addr).getLast? <;> rfl
    rw [unlinkLoop]
    split_ifs with hp hnil
    · obtain rfl : rest = [] := by simpa using hnil
      rfl
    · obtain ⟨x, hx⟩ : ∃ x, (rest.map Node.addr).getLast? = some x := by
        cases rest with
        | nil => simp at hnil
        | cons y rest => exact ⟨_, List.getLast?_cons⟩
      show last = (rest.map Node.addr).getLast?.or prev
      rw [hcur, hx]
      rfl
    · have ih := ih hcur
      simp only [ih, List.map_cons, List.getLast?_cons]
      cases ((unlinkLoop p last (some cur.addr) rest).nodes.map Node.addr).getLast? <;> rfl

theorem Valid.unlinkFirst {l : Linked α} (h : l.Valid) (p : α → Bool) : (l.unlinkFirst p).Valid := by
  have htail : l.last = (l.nodes.map Node.addr).getLast?.or none := by
    rw [Option.or_none]
    exact h.tail
  refine ⟨?_, ?_⟩
  · have hlast := unlinkLoop_last p htail
    rwa [Option.or_none] at hlast
  · refine h.distinct.sublist ?_
    rw [addrs, Linked.unlinkFirst, unlinkLoop_nodes]
    exact List.eraseP_sublist.map _

theorem unlinkFirst_nodes (p : α → Bool) (l : Linked α) :
    (l.unlinkFirst p).nodes = l.nodes.eraseP fun n => p n.val := unlinkLoop_nodes p l.last none l.nodes

end Linked
