import Onak.Db4Fetch

/-!
# Key arrays in memory

`array_find` and `array_add` of `keyarray.c` with the slots that are allocated and the arithmetic on
`int` that finds a place in them. What has no meaning in C, an overflow of an `int` or an access outside
of the slots or to one that was never written, gives no result.
-/

namespace Onak

/-- `struct keyarray`. -/
structure KeySlots where
  /-- The slots that `keys` points to, with what is written in them; `NULL` at first. -/
  keys : Option (List (Option Fingerprint))
  /-- `count`. -/
  count : Nat
  /-- `size`. -/
  size : Nat

namespace KeySlots

/-- An array that is initially empty. -/
def empty : KeySlots := ⟨none, 0, 0⟩

/-- The values of an `int`. -/
abbrev InInt (n : Int) : Prop := -2 ^ 31 ≤ n ∧ n < 2 ^ 31

/-- A `size_t` that is assigned to an `int`. -/
def toInt (n : Nat) : Int := (n : Int).bmod (2 ^ 32)

variable (array : KeySlots) (fp : Fingerprint)

/-- The slots. -/
def slots : List (Option Fingerprint) := array.keys.getD []

/-- `array->keys[pos]`. -/
def key (pos : Int) : Option Fingerprint :=
  if 0 ≤ pos then array.slots[pos.toNat]?.join else none

/-- The middle, with the division of C, is strictly between the ends. -/
theorem tdiv_between {bottom top : Int} (h : 1 < top - bottom) :
    bottom < (top + bottom).tdiv 2 ∧ (top + bottom).tdiv 2 < top := by
  rcases Int.le_total 0 (top + bottom) with hsum | hsum
  · rw [Int.tdiv_eq_ediv_of_nonneg hsum]
    omega
  · have hneg := Int.neg_tdiv (a := -(top + bottom)) (b := 2)
    rw [Int.neg_neg, Int.tdiv_eq_ediv_of_nonneg (a := -(top + bottom)) (by omega)] at hneg
    rw [hneg]
    omega

/-- The loop of both searches: the last `top`. -/
def search (bottom top : Int) : Option Int :=
  if ¬ InInt (top - bottom) then
    none
  else if 1 < top - bottom then
    if ¬ InInt (top + bottom) then
      none
    else
      match array.key ((top + bottom).tdiv 2) with
      | none => none
      | some key =>
        if fingerprintCmp fp key = .gt then search ((top + bottom).tdiv 2) top
        else search bottom ((top + bottom).tdiv 2)
  else
    some top
termination_by (top - bottom).toNat
decreasing_by
  all_goals
    have hcur := tdiv_between ‹1 < top - bottom›
    omega

/-- `array_find`. -/
def arrayFind : Option Bool :=
  if array.keys.isSome ∧ 0 < array.count then do
    let top ← array.search fp (-1) (toInt (sizeSub array.count 1))
    return fingerprintCmp fp (← array.key top) = .eq
  else
    some false

/-- The search of `array_add`: `found` and `curpos`. -/
def place : Option (Bool × Int) :=
  if array.size ≠ 0 ∧ 0 < array.count then do
    let top ← array.search fp (-1) (toInt (sizeSub array.count 1))
    let order := fingerprintCmp fp (← array.key top)
    return (order = .eq, if order = .gt then top + 1 else top)
  else
    some (false, 0)

/-- The `realloc` of a full array. -/
def grow : KeySlots :=
  if array.size ≤ array.count then
    { array with
      keys := some (array.slots ++ List.replicate array.size none)
      size := array.size * 2 }
  else
    array

/-- The `memmove` and the assignment behind it. -/
def insert (curpos : Nat) : Option (List (Option Fingerprint)) :=
  let moved :=
    if curpos < array.count then
      array.slots.take (curpos + 1) ++ (array.slots.drop curpos).take (array.count - curpos) ++
        array.slots.drop (array.count + 1)
    else
      array.slots
  if curpos < array.slots.length ∧ (curpos < array.count → array.count < array.slots.length) then
    some (moved.set curpos (some fp))
  else
    none

/-- `array_add`. -/
def arrayAdd : Option (KeySlots × Bool) := do
  let (found, curpos) ← array.place fp
  if found then
    return (array, false)
  else if array.size = 0 then
    return (⟨some (some fp :: List.replicate 15 none), 1, 16⟩, true)
  else if 0 ≤ curpos then
    let slots ← array.grow.insert fp curpos.toNat
    return ({ array.grow with keys := some slots, count := array.count + 1 }, true)
  else
    none

/-- A sequence of calls of `array_add`: the array afterwards, and what the calls return. -/
def addAll : KeySlots → List Fingerprint → Option (KeySlots × List Bool)
  | array, [] => some (array, [])
  | array, fp :: fps => do
    let (array, added) ← array.arrayAdd fp
    let (array, results) ← addAll array fps
    return (array, added :: results)

/-- The array holds some entries. -/
def Entries (entries : KeyArray) : Prop :=
  array.count = entries.length ∧ array.slots.take array.count = entries.map some

end KeySlots

/-- What a key array is for: a sequence of calls of `array_add` makes a set. -/
structure MakesSet (fps : List Fingerprint) (array : KeySlots) (results : List Bool)
    (entries : KeyArray) : Prop where
  /-- All calls return. -/
  adds : KeySlots.empty.addAll fps = some (array, results)
  /-- These are the entries. -/
  holds : array.Entries entries
  /-- They are strictly increasing. -/
  ascending : Bisect.Ascending fingerprintCmp entries
  /-- `array_find` finds what was added. -/
  find : ∀ fp, array.arrayFind fp = some (decide (fp ∈ fps))
  /-- `array_add` returns whether it was not present. -/
  returns : ∀ i fp, fps[i]? = some fp → results[i]? = some (decide (fp ∉ fps.take i))
  /-- The entries fit into what is allocated. -/
  fits : array.count ≤ array.size ∧ array.slots.length = array.size
  /-- In any other order the entries are the same. -/
  order : ∀ fps', fps'.Perm fps → ∃ array' results',
    KeySlots.empty.addAll fps' = some (array', results') ∧ array'.Entries entries

end Onak
