import Onak.Framing
import Onak.Lib.Cells

/-!
# Splitting a keyring

`main` of `splitkeys.c`. The lists of packets are cells in memory: a list is cut before its last packet,
and what is cut off is kept while the rest is freed. The files are new, and all of a file is written.
-/

namespace Onak

open Source

namespace SplitKeys

/-- The variables of `main`. `list_end` is set in every round. -/
structure State where
  /-- What is left of the standard input. -/
  stdin : List UInt8
  /-- The packet lists. -/
  mem : Cells Packet
  /-- `packets`. -/
  packets : Option Nat
  /-- `tmp`. -/
  tmp : Option Nat
  /-- `splitfile-0.pgp`, `splitfile-1.pgp` and so on, `count` of them. -/
  files : List (List UInt8)

/-- The loop that looks for the end of the list, and cuts off a public key that is there. -/
def findEnd : Nat → Cells Packet → Option Nat → Nat → Option (Cells Packet × Option Nat × Nat)
  | 0, _, _, _ => none
  | steps + 1, mem, tmp, listEnd => do
    let c ← mem.lookup listEnd
    match c.next with
    | none => return (mem, tmp, listEnd)
    | some next => do
      let e ← mem.lookup next
      if e.next = none ∧ e.val.tag = tagPublickey then
        findEnd steps (← mem.setNext listEnd none) (some listEnd) next
      else
        findEnd steps mem (some listEnd) next

/-- `tmp != NULL && tmp->next != NULL`. -/
def goesOn (mem : Cells Packet) : Option Nat → Option Bool
  | none => some false
  | some tmp => (mem.lookup tmp).map fun c => c.next.isSome

/-- What a round does with the packets that were read. -/
def writeFile (s : State) : Option State :=
  match s.packets with
  | none => some s
  | some packets => do
    let (mem, tmp, listEnd) ← findEnd s.mem.keys.length s.mem s.tmp packets
    let listEnd := if ← goesOn mem tmp then none else some listEnd
    let ns ← mem.nodes packets
    let file := (writeOpenpgpStream (· ++ ·) [] (ns.map Node.val)).2
    let mem ← mem.free packets
    return ⟨s.stdin, mem, listEnd, tmp, s.files ++ [file]⟩

section

variable (m : Malloc) (past : List Packet → UInt8) (maxkeys : Int)

/-- `read_openpgp_stream`, which hangs the packets it reads behind those that are there. -/
def readStream (s : State) : Option State := do
  let ns ← s.mem.nodes s.packets
  let r ← readOpenpgpStream buffer past (s.stdin.length + 1) s.stdin [] maxkeys
  let (packets, mem) ← Cells.append m r.packets s.packets (ns.map Node.addr).getLast? s.mem
  return { s with stdin := r.ctx, mem, packets }

/-- A round of the loop. -/
def round (s : State) : Option State := do writeFile (← readStream m past maxkeys s)

/-- The loop. -/
def mainLoop : Nat → State → Option (List (List UInt8))
  | 0, _ => none
  | fuel + 1, s => do
    let s ← round m past maxkeys s
    if s.packets = none then
      return s.files
    else
      mainLoop fuel s

/-- The files that `main` writes. With zero for `maxkeys` it exits. -/
def splitkeys (fuel : Nat) (stdin : List UInt8) : Option (List (List UInt8)) :=
  if maxkeys = 0 then some [] else mainLoop m past maxkeys fuel ⟨stdin, ∅, none, none, []⟩

end

end SplitKeys

end Onak
