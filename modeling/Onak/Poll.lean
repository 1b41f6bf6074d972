import Onak.Lib.Runs

/-!
# The poll loop of keyd

The main loop of `keyd.c`: an array of client slots and an array of descriptors to poll, rebuilt from
it in every round. What the outside world does in a round is a parameter of the round. An access
outside of one of the arrays gives `none`.
-/

namespace Onak.Poll

/-- `MAX_CLIENTS`. -/
def maxClients : Nat := 16

/-- `struct pollfd`, as far as `POLLIN` goes. -/
structure PollFd where
  /-- The descriptor. -/
  fd : Int
  /-- Whether `POLLIN` is asked for. -/
  events : Bool
  /-- Whether `POLLIN` is reported. -/
  revents : Bool
deriving DecidableEq

/-- An entry that is cleared. -/
def PollFd.zero : PollFd := ⟨0, false, false⟩

/-- An entry for a descriptor. -/
def PollFd.ask (fd : Int) : PollFd := ⟨fd, true, false⟩

/-- The variables of the loop. -/
structure State where
  /-- The descriptors of the clients, -1 in a slot that is free. -/
  clients : List Int
  /-- The descriptors to poll. -/
  rfds : List PollFd
  /-- The number of descriptors to poll. -/
  fdcount : Nat
deriving DecidableEq

/-- The clients that are connected, in the order of their slots. -/
def State.live (s : State) : List Int := s.clients.filter (· ≠ -1)

/-- What happens in a round. -/
structure Round where
  /-- The descriptors that there is something to read from. -/
  ready : Int → Bool
  /-- The clients that `sock_do` is through with. -/
  done : Int → Bool
  /-- What `sock_accept` returns: a new descriptor or -1. -/
  accepted : Int

/-- `poll`: reports on the first `fdcount` descriptors. -/
def poll (round : Round) (s : State) : List PollFd :=
  s.rfds.mapIdx fun k entry =>
    if k < s.fdcount then { entry with revents := entry.events && round.ready entry.fd } else entry

/-- The scan over the client slots. Besides the slots it gives which entry was looked at for which
client. -/
def handleClients (rfds : List PollFd) (round : Round) :
    Nat → List Int → Option (List Int × List (Int × PollFd))
  | _, [] => some ([], [])
  | curfd, client :: clients =>
    if client = -1 then do
      let (clients, looks) ← handleClients rfds round curfd clients
      return (client :: clients, looks)
    else do
      let entry ← rfds[curfd + 1]?
      let (clients, looks) ← handleClients rfds round (curfd + 1) clients
      return ((if entry.revents ∧ round.done client then -1 else client) :: clients,
        (client, entry) :: looks)

/-- Puts a new client into the first free slot, if there is one. -/
def acceptClient (accepted : Int) : List Int → List Int
  | [] => []
  | client :: clients =>
    if client = -1 then accepted :: clients else client :: acceptClient accepted clients

/-- One round of the loop that fills the descriptors to poll. -/
def addClient (set : List PollFd × Nat) (client : Int) : Option (List PollFd × Nat) :=
  if client = -1 then
    some set
  else if set.2 < set.1.length then
    some (set.1.set set.2 (.ask client), set.2 + 1)
  else
    none

/-- The descriptors to poll and their number: the listening socket and the clients. -/
def pollSet (fd : Int) (clients : List Int) : Option (List PollFd × Nat) :=
  clients.foldlM addClient (.ask fd :: List.replicate (maxClients - 1) .zero, 1)

/-- The state before the first `poll`. -/
def init (fd : Int) : State :=
  ⟨List.replicate maxClients (-1), .ask fd :: List.replicate (maxClients - 1) .zero, 1⟩

/-- From one `poll` to the next. -/
def step (fd : Int) (round : Round) (s : State) : Option State := do
  let rfds := poll round s
  let (clients, _) ← handleClients rfds round 0 s.clients
  let listener ← rfds[0]?
  let clients := if listener.revents then acceptClient round.accepted clients else clients
  let (rfds, fdcount) ← pollSet fd clients
  return ⟨clients, rfds, fdcount⟩

/-- The state at the `poll` behind some rounds; `none` once there was an access out of range. -/
def run (fd : Int) (rounds : List Round) : Option State :=
  rounds.foldl (fun s round => s.bind (step fd round)) (some (init fd))

/-! ## What the poll set should be -/

/-- The poll set is that of the clients, and it fits into its array. -/
structure Consistent (fd : Int) (s : State) : Prop where
  fdcount : s.fdcount = 1 + s.live.length
  fits : s.fdcount ≤ s.rfds.length
  rfds : s.rfds.length = maxClients
  clients : s.clients.length = maxClients
  listener : s.rfds[0]?.map PollFd.fd = some fd
  client : ∀ k < s.live.length, s.rfds[k + 1]?.map PollFd.fd = s.live[k]?
  /-- Whatever happens, each client is looked at, through the entry of its own descriptor. -/
  paired : ∀ round : Round, ∃ clients looks,
    handleClients (poll round s) round 0 s.clients = some (clients, looks) ∧
      looks.map Prod.fst = s.live ∧
      ∀ look ∈ looks, look.2.fd = look.1 ∧ look.2.revents = round.ready look.1

/-- The clients that are left when a round has dealt with them. -/
def State.left (s : State) (round : Round) : List Int :=
  s.live.filter fun client => !(round.ready client && round.done client)

/-- A round that does not bring the number of clients up to the limit. -/
def Room (fd : Int) (s : State) (round : Round) : Prop :=
  round.ready fd = true → round.accepted ≠ -1 → (s.left round).length + 1 < maxClients

end Onak.Poll
