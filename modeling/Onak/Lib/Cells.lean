import Onak.Lib.Linked

/-!
# Lists of cells in memory

Cells that are allocated, linked and freed one by one. A pointer to a cell that has been freed is still a
pointer, but a look at that cell has no meaning (`none`); its address may be given out again. A walk that
takes more steps than there are cells would never end.
-/

/-- A cell: what it holds, and the pointer to the next one. -/
structure Cell (α : Type*) where
  /-- What the cell holds. -/
  val : α
  /-- The next cell; `none` is the `NULL` pointer. -/
  next : Option Nat

/-- The cells that are allocated, by their addresses. -/
abbrev Cells (α : Type*) := AList fun _ : Nat => Cell α

namespace Cells

variable {α : Type*}

/-- A new cell, with no cell behind it. -/
def new (m : Malloc) (x : α) (mem : Cells α) : Nat × Cells α :=
  (m.alloc mem.keys, mem.insert (m.alloc mem.keys) ⟨x, none⟩)

/-- An assignment to the pointer of a cell. -/
def setNext (p : Nat) (next : Option Nat) (mem : Cells α) : Option (Cells α) :=
  (mem.lookup p).map fun c => mem.insert p { c with next }

/-- The nodes that are reached from a pointer in so many steps, up to `NULL`. -/
def walk (mem : Cells α) : Nat → Option Nat → Option (List (Node α))
  | _, none => some []
  | 0, some _ => none
  | steps + 1, some p => do
    let c ← mem.lookup p
    let rest ← walk mem steps c.next
    return ⟨p, c.val⟩ :: rest

/-- The nodes that are reached from a pointer. -/
def nodes (mem : Cells α) (p : Option Nat) : Option (List (Node α)) := walk mem mem.keys.length p

/-- Hangs new cells behind the one that `cur` points to, or makes them the list if there is none. -/
def append (m : Malloc) : List α → Option Nat → Option Nat → Cells α → Option (Option Nat × Cells α)
  | [], head, _, mem => some (head, mem)
  | x :: xs, head, cur, mem =>
    let (p, mem) := new m x mem
    match cur with
    | none => append m xs (some p) (some p) mem
    | some c => do append m xs head (some p) (← setNext c (some p) mem)

/-- Frees the cells that are reached from a pointer in so many steps. -/
def freeWalk : Nat → Option Nat → Cells α → Option (Cells α)
  | _, none, mem => some mem
  | 0, some _, _ => none
  | steps + 1, some p, mem => do
    let c ← mem.lookup p
    freeWalk steps c.next (mem.erase p)

/-- Frees the cells that are reached from a pointer. -/
def free (p : Option Nat) (mem : Cells α) : Option (Cells α) := freeWalk mem.keys.length p mem

/-! ## Lists -/

/-- From the pointer `p` the nodes are reached, and then the pointer `q`. -/
def Segment (mem : Cells α) : Option Nat → List (Node α) → Option Nat → Prop
  | p, [], q => p = q
  | p, n :: ns, q => p = some n.addr ∧ ∃ next, mem.lookup n.addr = some ⟨n.val, next⟩ ∧
      Segment mem next ns q

/-- The nodes are a list with the head pointer `p`. -/
structure IsList (mem : Cells α) (p : Option Nat) (ns : List (Node α)) : Prop where
  segment : Segment mem p ns none
  nodup : (ns.map Node.addr).Nodup

variable {mem mem' : Cells α} {p q : Option Nat} {ns : List (Node α)}

theorem Segment.congr (h : Segment mem p ns q)
    (heq : ∀ a ∈ ns.map Node.addr, mem'.lookup a = mem.lookup a) : Segment mem' p ns q := by
  induction ns generalizing p with
  | nil => exact h
  | cons n ns ih =>
    obtain ⟨hp, next, hn, hrest⟩ := h
    refine ⟨hp, next, ?_, ih hrest fun a ha => heq a (List.mem_cons_of_mem _ ha)⟩
    rw [heq n.addr List.mem_cons_self, hn]

theorem segment_append {ms : List (Node α)} :
    Segment mem p (ms ++ ns) q ↔ ∃ r, Segment mem p ms r ∧ Segment mem r ns q := by
  induction ms generalizing p with
  | nil => exact ⟨fun h => ⟨p, rfl, h⟩, fun ⟨_, hr, h⟩ => hr ▸ h⟩
  | cons n ms ih =>
    constructor
    · rintro ⟨hp, next, hn, hrest⟩
      obtain ⟨r, hms, hns⟩ := ih.mp hrest
      exact ⟨r, ⟨hp, next, hn, hms⟩, hns⟩
    · rintro ⟨r, ⟨hp, next, hn, hms⟩, hns⟩
      exact ⟨hp, next, hn, ih.mpr ⟨r, hms, hns⟩⟩

theorem Segment.mem_keys (h : Segment mem p ns q) : ∀ a ∈ ns.map Node.addr, a ∈ mem := by
  induction ns generalizing p with
  | nil => simp
  | cons n ns ih =>
    obtain ⟨-, next, hn, hrest⟩ := h
    intro a ha
    rcases List.mem_cons.mp ha with rfl | ha
    · exact AList.lookup_isSome.mp (hn ▸ rfl)
    · exact ih hrest a ha

/-- The cells behind the first one. -/
theorem IsList.tail {n : Node α} (h : IsList mem p (n :: ns)) :
    ∃ next, mem.lookup n.addr = some ⟨n.val, next⟩ ∧ IsList mem next ns := by
  obtain ⟨-, next, hn, hrest⟩ := h.segment
  exact ⟨next, hn, hrest, (List.nodup_cons.mp h.nodup).2⟩

theorem isList_nil : IsList mem none [] := ⟨rfl, List.nodup_nil⟩

theorem isList_singleton {n : Node α} (h : mem.lookup n.addr = some ⟨n.val, none⟩) :
    IsList mem (some n.addr) [n] :=
  ⟨⟨rfl, none, h, rfl⟩, List.nodup_singleton _⟩

theorem IsList.congr (h : IsList mem p ns)
    (heq : ∀ a ∈ ns.map Node.addr, mem'.lookup a = mem.lookup a) : IsList mem' p ns :=
  ⟨h.segment.congr heq, h.nodup⟩

theorem Segment.head (h : Segment mem p ns none) : p = ns.head?.map Node.addr := by
  cases ns with
  | nil => exact h
  | cons n ns => exact h.1

/-- What a cell of a list holds. -/
theorem IsList.lookup {front back : List (Node α)} {n : Node α}
    (h : IsList mem p (front ++ n :: back)) :
    mem.lookup n.addr = some ⟨n.val, back.head?.map Node.addr⟩ := by
  obtain ⟨_, -, -, next, hn, hback⟩ := segment_append.mp h.segment
  rw [hn, hback.head]

/-- A list that is cut behind a cell ends there, and nothing else changes. -/
theorem IsList.cut {front back : List (Node α)} {n : Node α} (h : IsList mem p (front ++ n :: back)) :
    ∃ mem', setNext n.addr none mem = some mem' ∧ IsList mem' p (front ++ [n]) ∧
      ∀ a, a ≠ n.addr → mem'.lookup a = mem.lookup a := by
  have hkept : ∀ a, a ≠ n.addr → (mem.insert n.addr ⟨n.val, none⟩).lookup a = mem.lookup a :=
    fun a ha => AList.lookup_insert_ne ha
  have hnodup := h.nodup
  rw [List.map_append, List.map_cons, List.nodup_append] at hnodup
  obtain ⟨hfront, -, hne⟩ := hnodup
  have hnotMem : n.addr ∉ front.map Node.addr := fun hmem =>
    hne _ hmem _ List.mem_cons_self rfl
  obtain ⟨r, hseg, rfl, -⟩ := segment_append.mp h.segment
  refine ⟨mem.insert n.addr ⟨n.val, none⟩, ?_, ⟨segment_append.mpr ⟨_, ?_, rfl, none, ?_, rfl⟩, ?_⟩,
    hkept⟩
  · rw [setNext, h.lookup]
    rfl
  · exact hseg.congr fun a ha => hkept a (ne_of_mem_of_not_mem ha hnotMem)
  · exact AList.lookup_insert mem
  · rw [List.map_append, List.map_singleton, List.nodup_append]
    refine ⟨hfront, List.nodup_singleton _, fun a ha b hb hab => ?_⟩
    rw [hab, List.mem_singleton.mp hb] at ha
    exact hnotMem ha

/-! ## Walks -/

theorem IsList.length_le (h : IsList mem p ns) : ns.length ≤ mem.keys.length := by
  have hsub : ns.map Node.addr ⊆ mem.keys := fun a ha => h.segment.mem_keys a ha
  simpa using (List.subperm_of_subset h.nodup hsub).length_le

theorem Segment.walk (h : Segment mem p ns none) {steps : Nat} (hsteps : ns.length ≤ steps) :
    mem.walk steps p = some ns := by
  induction ns generalizing p steps with
  | nil =>
    obtain rfl : p = none := h
    cases steps <;> rfl
  | cons n ns ih =>
    obtain ⟨rfl, next, hn, hrest⟩ := h
    cases steps with
    | zero => exact absurd hsteps (by simp)
    | succ steps =>
      simp only [Cells.walk, hn, Option.bind_eq_bind, Option.bind_some,
        ih hrest (Nat.le_of_succ_le_succ hsteps)]
      rfl

theorem IsList.nodes (h : IsList mem p ns) : mem.nodes p = some ns := h.segment.walk h.length_le

/-- A pointer to a cell that has been freed leads nowhere. -/
theorem nodes_freed {a : Nat} (h : a ∉ mem) : mem.nodes (some a) = none := by
  unfold Cells.nodes
  cases mem.keys.length with
  | zero => rfl
  | succ steps => simp [Cells.walk, AList.lookup_eq_none.mpr h]

theorem IsList.freeWalk (h : IsList mem p ns) {steps : Nat} (hsteps : ns.length ≤ steps) :
    ∃ mem', freeWalk steps p mem = some mem' ∧
      ∀ a, mem'.lookup a = if a ∈ ns.map Node.addr then none else mem.lookup a := by
  induction ns generalizing p mem steps with
  | nil =>
    obtain rfl : p = none := h.segment
    exact ⟨mem, by cases steps <;> rfl, fun a => rfl⟩
  | cons n ns ih =>
    obtain ⟨rfl, -⟩ := h.segment
    obtain ⟨next, hn, hrest⟩ := h.tail
    have hnotMem := (List.nodup_cons.mp h.nodup).1
    cases steps with
    | zero => exact absurd hsteps (by simp)
    | succ steps =>
      have hkept : IsList (mem.erase n.addr) next ns :=
        hrest.congr fun a ha => AList.lookup_erase_ne (ne_of_mem_of_not_mem ha hnotMem)
      obtain ⟨mem', hfree, hlookup⟩ := ih hkept (Nat.le_of_succ_le_succ hsteps)
      refine ⟨mem', ?_, fun a => ?_⟩
      · simp only [Cells.freeWalk, hn, Option.bind_eq_bind, Option.bind_some, hfree]
      · rw [hlookup a]
        by_cases ha : a = n.addr
        · subst ha
          simp [hnotMem]
        · simp [ha, AList.lookup_erase_ne ha]

/-- Freeing a list frees its cells, and no others. -/
theorem IsList.free (h : IsList mem p ns) : ∃ mem', mem.free p = some mem' ∧
    ∀ a, mem'.lookup a = if a ∈ ns.map Node.addr then none else mem.lookup a :=
  h.freeWalk h.length_le

/-! ## New cells -/

/-- One new cell. -/
theorem IsList.snoc (h : IsList mem p ns) (m : Malloc) (x : α) :
    ∃ n p' mem', n.val = x ∧ IsList mem' p' (ns ++ [n]) ∧
      (∀ a ∉ (ns ++ [n]).map Node.addr, mem'.lookup a = mem.lookup a) ∧
      ∀ xs, append m (x :: xs) p (ns.map Node.addr).getLast? mem =
        append m xs p' (some n.addr) mem' := by
  have hfresh : m.alloc mem.keys ∉ ns.map Node.addr := fun ha =>
    m.fresh mem.keys (h.segment.mem_keys _ ha)
  rcases List.eq_nil_or_concat ns with rfl | ⟨front, last, rfl⟩
  · have hnew : IsList (new m x mem).2 (some (m.alloc mem.keys)) [⟨m.alloc mem.keys, x⟩] :=
      ⟨⟨rfl, none, AList.lookup_insert mem, rfl⟩, List.nodup_singleton _⟩
    refine ⟨⟨m.alloc mem.keys, x⟩, some (m.alloc mem.keys), _, rfl, hnew, fun a ha => ?_,
      fun xs => rfl⟩
    exact AList.lookup_insert_ne (by simpa using ha)
  · rw [List.concat_eq_append] at *
    obtain ⟨r, hfront, rfl, next, hlast, hnext⟩ := segment_append.mp h.segment
    obtain rfl : next = none := hnext
    have hnodup := h.nodup
    rw [List.map_append, List.map_singleton] at hfresh hnodup
    have hne : last.addr ≠ m.alloc mem.keys := fun heq => hfresh (by simp [heq])
    have hnotMem : last.addr ∉ front.map Node.addr := fun hmem =>
      (List.nodup_append.mp hnodup).2.2 _ hmem _ (List.mem_singleton_self _) rfl
    obtain ⟨mem', hmem'⟩ : ∃ mem' : Cells α, mem' =
        (new m x mem).2.insert last.addr ⟨last.val, some (m.alloc mem.keys)⟩ := ⟨_, rfl⟩
    have hset : setNext last.addr (some (m.alloc mem.keys)) (new m x mem).2 = some mem' := by
      rw [setNext, new, AList.lookup_insert_ne hne, hlast, hmem']
      rfl
    have hkept : ∀ a, a ≠ last.addr → a ≠ m.alloc mem.keys → mem'.lookup a = mem.lookup a := by
      intro a ha ha'
      rw [hmem', AList.lookup_insert_ne ha, new, AList.lookup_insert_ne ha']
    have hlast' : mem'.lookup last.addr = some ⟨last.val, some (m.alloc mem.keys)⟩ := by
      rw [hmem', AList.lookup_insert]
    have hnew : mem'.lookup (m.alloc mem.keys) = some ⟨x, none⟩ := by
      rw [hmem', AList.lookup_insert_ne hne.symm, new, AList.lookup_insert]
    refine ⟨⟨m.alloc mem.keys, x⟩, p, mem', rfl, ⟨?_, ?_⟩, fun a ha => ?_, fun xs => ?_⟩
    · rw [List.append_assoc, segment_append]
      refine ⟨_, hfront.congr fun a ha => ?_, rfl, _, hlast', rfl, none, hnew, rfl⟩
      exact hkept a (ne_of_mem_of_not_mem ha hnotMem)
        (fun heq => hfresh (List.mem_append_left _ (heq ▸ ha)))
    · rw [List.map_append, List.map_append, List.map_singleton, List.map_singleton]
      refine List.nodup_append.mpr ⟨hnodup, List.nodup_singleton _, fun a ha b hb hab => ?_⟩
      rw [hab, List.mem_singleton.mp hb] at ha
      exact hfresh ha
    · simp only [List.map_append, List.map_singleton, List.mem_append, List.mem_singleton,
        not_or] at ha
      exact hkept a ha.1.2 ha.2
    · have hlast? : ((front ++ [last]).map Node.addr).getLast? = some last.addr := by simp
      rw [hlast?]
      have hfirst : (new m x mem).1 = m.alloc mem.keys := rfl
      simp only [Cells.append, hfirst, hset, Option.bind_eq_bind, Option.bind_some]

/-- New cells come behind the last one, and nothing else changes. -/
theorem IsList.append (h : IsList mem p ns) (m : Malloc) (xs : List α) :
    ∃ new p' mem', append m xs p (ns.map Node.addr).getLast? mem = some (p', mem') ∧
      IsList mem' p' (ns ++ new) ∧ new.map Node.val = xs ∧
      ∀ a ∉ (ns ++ new).map Node.addr, mem'.lookup a = mem.lookup a := by
  induction xs generalizing p ns mem with
  | nil => exact ⟨[], p, mem, rfl, by rwa [List.append_nil], rfl, fun _ _ => rfl⟩
  | cons x xs ih =>
    obtain ⟨n, p₁, mem₁, hval, hlist, hframe, heq⟩ := h.snoc m x
    obtain ⟨new, p', mem', happ, hlist', hvals, hframe'⟩ := ih hlist
    have hlast? : ((ns ++ [n]).map Node.addr).getLast? = some n.addr := by simp
    rw [hlast?] at happ
    rw [List.append_assoc, List.singleton_append] at hlist' hframe'
    refine ⟨n :: new, p', mem', (heq xs).trans happ, hlist', by simp [hval, hvals], fun a ha => ?_⟩
    rw [hframe' a ha, hframe a]
    intro hmem
    apply ha
    simp only [List.map_append, List.map_cons, List.map_nil, List.mem_append, List.mem_cons,
      List.not_mem_nil, or_false] at hmem ⊢
    rcases hmem with hmem | hmem
    · exact .inl hmem
    · exact .inr (.inl hmem)

end Cells
