import Onak.KeydSocket
import Onak.Lib.Loops

/-!
# Receiving from a peer that may go away

The loops in which `sock_do` of `keyd.c` receives a key to store, and the functions of
`keydb_keyd.c` the keys they fetch. The octets come in pieces of any size, and behind them the end of
file: from then on `read` returns 0. No `read` fails.
-/

namespace Onak.Socket

/-! ## A connection -/

/-- Octets that arrive together, at least one of them. -/
structure Piece where
  first : UInt8
  rest : List UInt8
deriving DecidableEq

/-- What arrives, up to the end of file. -/
abbrev Delivery := List Piece

/-- The octets of a piece. -/
def Piece.octets (piece : Piece) : List UInt8 := piece.first :: piece.rest

/-- All octets that arrive. -/
def Delivery.octets (fd : Delivery) : List UInt8 := List.flatMap Piece.octets fd

/-- What is left of a piece, in front of the others. -/
def Delivery.behind (fd : Delivery) : List UInt8 → Delivery
  | [] => fd
  | c :: rest => ⟨c, rest⟩ :: fd

/-- `read`, with a buffer for so many octets. -/
def Delivery.read : Nat → Delivery → List UInt8 × Delivery
  | 0, fd => ([], fd)
  | _ + 1, [] => ([], [])
  | n + 1, piece :: fd => (piece.first :: piece.rest.take n, behind fd (piece.rest.drop n))

/-! ## The receive loop -/

/-- The variables of a receive loop. -/
structure Receiving where
  /-- What the last `read` returned. -/
  bytes : Int
  /-- What is in the buffer, of which `count` is the length. -/
  data : List UInt8
  /-- What is still to arrive. -/
  fd : Delivery
deriving DecidableEq

/-- A round of the receive loop, for an announced size. -/
def recvRound (size : Nat) (s : Receiving) : Option (Option Receiving) :=
  if 0 ≤ s.bytes ∧ s.data.length < size then
    let (octets, fd) := s.fd.read (size - s.data.length)
    some (some ⟨octets.length, s.data ++ octets, fd⟩)
  else
    some none

/-- The loop ends with these variables. -/
def Receives (size : Nat) (fd : Delivery) (s : Receiving) : Prop :=
  Loops.Reaches (recvRound size) ⟨0, [], fd⟩ s ∧ recvRound size s = some none

section

variable (order : ByteOrder)

/-! ## The server -/

/-- How `sock_do` is done with `KEYD_CMD_STORE` or `KEYD_CMD_UPDATE`. -/
inductive StoreResult where
  /-- It returns 1. -/
  | refused
  /-- The announced size is 0. -/
  | nothing
  /-- All octets are there. They are parsed, and the first key that they hold, or `NULL` where they hold none,
  goes to the backend. -/
  | stored (octets : List UInt8)

/-- `sock_do` stores or updates a key. -/
def StoreEnds (fd : Delivery) (result : StoreResult) : Prop :=
  let (size, fd) := fd.read 8
  if size.length ≠ 8 then
    result = .refused
  else if order.number size = 0 then
    result = .nothing
  else
    ∃ s, Receives (order.number size) fd s ∧
      result = if s.bytes < 0 then .refused else .stored s.data

/-- Fewer octets arrive than are announced. -/
def StoreShort (fd : Delivery) : Prop :=
  (fd.read 8).1.length = 8 ∧ (fd.read 8).2.octets.length < order.number (fd.read 8).1

/-- The server gets done with the request, and what is shorter than announced is refused. -/
def StoreSurvives (fd : Delivery) : Prop :=
  (∃ result, StoreEnds order fd result) ∧
    ∀ result, StoreEnds order fd result → StoreShort order fd → result = .refused

/-! ## The client -/

/-- `read` of `keybuf.size`, which is kept as far as it does not arrive. -/
def readSize (keybufSize : List UInt8) (fd : Delivery) : Nat × Delivery :=
  let (octets, fd) := fd.read 8
  (order.number (octets ++ keybufSize.drop octets.length), fd)

/-- The functions that fetch keys, behind the request: what they parse, if they do. At first
`keybuf.size` is what happens to lie in memory. -/
def FetchEnds (keybufSize : List UInt8) (fd : Delivery) (result : Option (List UInt8)) : Prop :=
  let (size, fd) := readSize order keybufSize fd
  if size = 0 then result = none else ∃ s, Receives size fd s ∧ result = some s.data

/-- A fetch gets done, and what is shorter than announced is not parsed. -/
def FetchSurvives (keybufSize : List UInt8) (fd : Delivery) : Prop :=
  (∃ result, FetchEnds order keybufSize fd result) ∧
    ∀ result, FetchEnds order keybufSize fd result →
      (readSize order keybufSize fd).2.octets.length < (readSize order keybufSize fd).1 →
      result = none

/-- The loop of `keyd_iterate_keys`: what it parses, with the sizes that were announced. Behind a key
`keybuf.size` is 0. -/
inductive IterateEnds : Nat → Delivery → List (Nat × List UInt8) → Prop
  | done {fd : Delivery} : IterateEnds 0 fd []
  | key {size : Nat} {fd : Delivery} {s : Receiving} {keys : List (Nat × List UInt8)} :
      size ≠ 0 → Receives size fd s →
      IterateEnds (readSize order (List.replicate 8 0) s.fd).1
        (readSize order (List.replicate 8 0) s.fd).2 keys →
      IterateEnds size fd ((size, s.data) :: keys)

/-- `keyd_iterate_keys` gets done, and what is shorter than announced is not parsed. -/
def IterateSurvives (keybufSize : List UInt8) (fd : Delivery) : Prop :=
  (∃ keys, IterateEnds order (readSize order keybufSize fd).1 (readSize order keybufSize fd).2 keys) ∧
    ∀ keys, IterateEnds order (readSize order keybufSize fd).1 (readSize order keybufSize fd).2 keys →
      ∀ key ∈ keys, key.2.length = key.1

end

end Onak.Socket
