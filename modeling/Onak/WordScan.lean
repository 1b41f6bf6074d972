import Onak.Marshal

/-!
# Splitting a string in place

`makewordlist` of `wordlist.c` as it works in memory. The string is put into lower case and terminated
behind its words where it lies, and the word list gets pointers into it.
-/

namespace Onak

/-- A pointer of the word list. -/
inductive WordPtr where
  /-- To a word that lies elsewhere. -/
  | elsewhere (word : Word)
  /-- Into the string that is split. -/
  | inside (start : Nat)
deriving DecidableEq

/-- The C string at an address. -/
def stringAt (mem : List UInt8) (start : Nat) : Word := cString (mem.drop start)

/-- The word that a pointer points to. -/
def WordPtr.read (mem : List UInt8) : WordPtr → Word
  | .elsewhere word => word
  | .inside start => stringAt mem start

/-- The first inner loop: where the delimiters end. There is none where it reads outside. -/
def skipDelims (mem : List UInt8) (start : Nat) : Option Nat :=
  match h : mem[start]? with
  | none => none
  | some c =>
    if c ≠ 0 ∧ isDelim c then
      have : start < mem.length := (List.getElem?_eq_some_iff.mp h).1
      skipDelims mem (start + 1)
    else
      some start
termination_by mem.length - start

/-- The second inner loop: what is no delimiter is put into lower case. -/
def lowerRun (mem : List UInt8) (stop : Nat) : Option (List UInt8 × Nat) :=
  match h : mem[stop]? with
  | none => none
  | some c =>
    if c ≠ 0 ∧ ¬ isDelim c then
      have : stop < mem.length := (List.getElem?_eq_some_iff.mp h).1
      lowerRun (mem.set stop (tolower c)) (stop + 1)
    else
      some (mem, stop)
termination_by mem.length - stop
decreasing_by
  rw [List.length_set]
  omega

/-- `lladdend`, unless `llfind` finds the word. -/
def addWordPtr (mem : List UInt8) (wordlist : List WordPtr) (start : Nat) : List WordPtr :=
  if wordlist.any fun ptr => ptr.read mem == stringAt mem start then wordlist
  else wordlist ++ [.inside start]

/-- The loop of `makewordlist`, for so many rounds. -/
def scanWords : Nat → List UInt8 → Nat → List WordPtr → Option (List UInt8 × List WordPtr)
  | 0, _, _, _ => none
  | fuel + 1, mem, stop, wordlist => do
    if (← mem[stop]?) = 0 then return (mem, wordlist)
    let start ← skipDelims mem stop
    let (mem, stop) ← lowerRun mem start
    if stop - start > 1 then
      let (mem, stop) := if (← mem[stop]?) ≠ 0 then (mem.set stop 0, stop + 1) else (mem, stop)
      scanWords fuel mem stop (addWordPtr mem wordlist start)
    else
      -- a single octet is not terminated
      scanWords fuel mem stop wordlist

/-- `makewordlist`, with the memory it leaves. Each round but the last uses up an octet. -/
def makewordlistInPlace (wordlist : List WordPtr) (word : List UInt8) :
    Option (List UInt8 × List WordPtr) :=
  scanWords (word.length + 1) (word ++ [0]) 0 wordlist

end Onak
