import Onak.Poll

/-!
# Proofs: the poll loop of keyd

At every `poll` the array holds the listening socket, the clients in the order of their slots, and
cleared entries. The scan walks over slots and entries in step. The array has as many entries as
there are slots, and one of them is the listening socket: with a client in every slot there is no
room.
-/

namespace Onak.Poll

open Runs

/-- The clients of some slots. -/
abbrev liveOf (clients : List Int) : List Int := clients.filter (· ≠ -1)

theorem liveOf_free (clients : List Int) : liveOf (-1 :: clients) = liveOf clients := by
  simp [liveOf]

theorem liveOf_client {client : Int} (h : client ≠ -1) (clients : List Int) :
    liveOf (client :: clients) = client :: liveOf clients := by
  simp [liveOf, h]

/-! ## Filling the array -/

theorem foldlM_addClient (clients : List Int) (front : List PollFd) (n : Nat) :
    clients.foldlM addClient
        (front ++ List.replicate ((liveOf clients).length + n) PollFd.zero, front.length) =
      some (front ++ ((liveOf clients).map PollFd.ask ++ List.replicate n PollFd.zero),
        front.length + (liveOf clients).length) := by
  induction clients generalizing front with
  | nil => simp
  | cons client clients ih =>
    rw [List.foldlM_cons]
    by_cases hfree : client = -1
    · rw [hfree, liveOf_free]
      exact ih front
    · rw [liveOf_client hfree, List.length_cons, Nat.add_right_comm]
      have hroom : front.length <
          (front ++ List.replicate ((liveOf clients).length + n + 1) PollFd.zero).length := by
        rw [List.length_append, List.length_replicate]
        omega
      have hset : (front ++ List.replicate ((liveOf clients).length + n + 1) PollFd.zero).set
          front.length (PollFd.ask client) =
            (front ++ [PollFd.ask client]) ++
              List.replicate ((liveOf clients).length + n) PollFd.zero := by
        rw [List.set_append_right _ _ (le_refl _), Nat.sub_self, List.replicate_succ,
          List.set_cons_zero, List.append_assoc, List.singleton_append]
      have hlen : front.length + 1 = (front ++ [PollFd.ask client]).length := by simp
      have hadd : addClient (front ++ List.replicate ((liveOf clients).length + n + 1) PollFd.zero,
          front.length) client = some ((front ++ [PollFd.ask client]) ++
            List.replicate ((liveOf clients).length + n) PollFd.zero,
              (front ++ [PollFd.ask client]).length) := by
        rw [addClient, if_neg hfree, if_pos hroom, hset, hlen]
      rw [hadd, Option.bind_eq_bind, Option.bind_some, ih]
      simp only [List.length_append, List.length_cons, List.length_nil, List.map_cons,
        List.append_assoc, List.nil_append, List.cons_append]
      rw [Nat.add_assoc, Nat.zero_add, Nat.add_comm 1]

theorem pollSet_eq {fd : Int} {clients : List Int} (h : (liveOf clients).length < maxClients) :
    pollSet fd clients =
      some (PollFd.ask fd :: (liveOf clients).map PollFd.ask ++
          List.replicate (maxClients - 1 - (liveOf clients).length) PollFd.zero,
        1 + (liveOf clients).length) := by
  have hall : maxClients - 1 =
      (liveOf clients).length + (maxClients - 1 - (liveOf clients).length) := by omega
  have hfill := foldlM_addClient clients [PollFd.ask fd] (maxClients - 1 - (liveOf clients).length)
  rw [← hall] at hfill
  exact hfill

/-! ## Looking at the clients -/

/-- The entry of a descriptor as `poll` reports on it. -/
def polled (round : Round) (fd : Int) : PollFd := ⟨fd, true, round.ready fd⟩

/-- What becomes of a slot. -/
def handled (round : Round) (client : Int) : Int :=
  if client ≠ -1 ∧ round.ready client ∧ round.done client then -1 else client

/-- Slots and entries are walked over in step. -/
theorem handleClients_eq {rfds : List PollFd} {round : Round} {curfd : Nat} {clients : List Int}
    {rest : List PollFd}
    (h : rfds.drop (curfd + 1) = (liveOf clients).map (polled round) ++ rest) :
    handleClients rfds round curfd clients =
      some (clients.map (handled round), (liveOf clients).map fun c => (c, polled round c)) := by
  induction clients generalizing curfd with
  | nil => rfl
  | cons client clients ih =>
    unfold handleClients
    by_cases hfree : client = -1
    · rw [hfree, liveOf_free] at h
      rw [if_pos hfree, ih h, hfree, liveOf_free]
      simp [handled]
    · rw [liveOf_client hfree, List.map_cons, List.cons_append] at h
      have hget : rfds[curfd + 1]? = some (polled round client) := by
        have hhead := congrArg (·[0]?) h
        simpa using hhead
      have hdrop : rfds.drop (curfd + 1 + 1) = (liveOf clients).map (polled round) ++ rest := by
        rw [← List.drop_drop, h]
        rfl
      rw [if_neg hfree, hget, ih hdrop, liveOf_client hfree]
      simp [handled, hfree, polled]

theorem liveOf_handled (round : Round) (clients : List Int) :
    liveOf (clients.map (handled round)) =
      (liveOf clients).filter fun client => !(round.ready client && round.done client) := by
  induction clients with
  | nil => rfl
  | cons client clients ih =>
    rw [List.map_cons]
    by_cases hfree : client = -1
    · have hout : handled round client = -1 := by
        rw [handled, if_neg fun h => h.1 hfree, hfree]
      rw [hout, hfree, liveOf_free, liveOf_free, ih]
    · rw [liveOf_client hfree]
      by_cases hdone : round.ready client = true ∧ round.done client = true
      · have hout : handled round client = -1 := by
          rw [handled, if_pos ⟨hfree, hdone⟩]
        rw [hout, liveOf_free, ih, List.filter_cons_of_neg (by simp [hdone])]
      · have hout : handled round client = client := by
          rw [handled, if_neg fun h => hdone h.2]
        rw [hout, liveOf_client hfree, ih, List.filter_cons_of_pos]
        rw [Bool.not_eq_true', ← Bool.not_eq_true, Bool.and_eq_true]
        exact hdone

/-! ## Accepting a client -/

theorem length_acceptClient (accepted : Int) (clients : List Int) :
    (acceptClient accepted clients).length = clients.length := by
  induction clients with
  | nil => rfl
  | cons client clients ih =>
    unfold acceptClient
    split_ifs
    · rfl
    · rw [List.length_cons, List.length_cons, ih]

theorem length_liveOf_acceptClient (accepted : Int) (clients : List Int) :
    (liveOf (acceptClient accepted clients)).length ≤
      (liveOf clients).length + if accepted = -1 then 0 else 1 := by
  induction clients with
  | nil => simp [acceptClient, liveOf]
  | cons client clients ih =>
    unfold acceptClient
    by_cases hfree : client = -1
    · rw [if_pos hfree]
      by_cases hfailed : accepted = -1
      · simp [liveOf, hfree, hfailed]
      · simp [liveOf, hfree, hfailed]
    · rw [if_neg hfree, liveOf_client hfree, liveOf_client hfree, List.length_cons,
        List.length_cons]
      omega

/-! ## From one poll to the next -/

/-- The invariant: what the loop that fills the array leaves behind. -/
structure Filled (fd : Int) (s : State) : Prop where
  clients : s.clients.length = maxClients
  room : s.live.length < maxClients
  rfds : s.rfds = .ask fd :: s.live.map .ask ++
    List.replicate (maxClients - 1 - s.live.length) .zero
  fdcount : s.fdcount = 1 + s.live.length

theorem Filled.poll_eq {fd : Int} {s : State} (h : Filled fd s) (round : Round) :
    poll round s = polled round fd :: s.live.map (polled round) ++
      List.replicate (maxClients - 1 - s.live.length) .zero := by
  have hfront : (PollFd.ask fd :: s.live.map .ask).length = s.fdcount := by
    rw [h.fdcount, List.length_cons, List.length_map, Nat.add_comm]
  have hmap : (PollFd.ask fd :: s.live.map .ask).map
      (fun entry => { entry with revents := entry.events && round.ready entry.fd }) =
      polled round fd :: s.live.map (polled round) := by
    simp [PollFd.ask, polled]
  unfold poll
  rw [h.rfds, List.mapIdx_append, ← hmap]
  congr 1
  · refine List.ext_getElem (by simp) fun i hi hi' => ?_
    have hlt : i < s.fdcount := by
      rw [List.length_mapIdx, hfront] at hi
      exact hi
    rw [List.getElem_mapIdx, List.getElem_map, if_pos hlt]
  · refine List.ext_getElem (by simp) fun i hi hi' => ?_
    simp [hfront]

theorem Filled.handleClients_eq {fd : Int} {s : State} (h : Filled fd s) (round : Round) :
    handleClients (poll round s) round 0 s.clients =
      some (s.clients.map (handled round), s.live.map fun c => (c, polled round c)) := by
  have hdrop : (poll round s).drop (0 + 1) = (liveOf s.clients).map (polled round) ++
      List.replicate (maxClients - 1 - s.live.length) .zero := by
    rw [h.poll_eq]
    rfl
  exact Poll.handleClients_eq hdrop

theorem Filled.consistent {fd : Int} {s : State} (h : Filled fd s) : Consistent fd s where
  fdcount := h.fdcount
  fits := by
    rw [h.fdcount, h.rfds]
    simp only [List.length_append, List.length_cons, List.length_map]
    omega
  rfds := by
    have hroom := h.room
    rw [h.rfds]
    simp only [List.length_append, List.length_cons, List.length_map, List.length_replicate]
    omega
  clients := h.clients
  listener := by
    rw [h.rfds]
    rfl
  client := by
    intro k hk
    rw [h.rfds, List.cons_append, List.getElem?_cons_succ,
      List.getElem?_append_left (by simpa using hk), List.getElem?_map, Option.map_map]
    exact Option.map_id'
  paired := by
    intro round
    refine ⟨_, _, h.handleClients_eq round, ?_, ?_⟩
    · rw [List.map_map]
      exact List.map_id' _
    · intro look hlook
      obtain ⟨c, -, rfl⟩ := List.mem_map.mp hlook
      exact ⟨rfl, rfl⟩

theorem init_filled (fd : Int) : Filled fd (init fd) :=
  ⟨rfl, Nat.zero_lt_succ 15, rfl, rfl⟩

theorem Filled.step {fd : Int} {s : State} (h : Filled fd s) {round : Round}
    (hroom : Room fd s round) : ∃ s', step fd round s = some s' ∧ Filled fd s' := by
  have hlistener : (poll round s)[0]? = some (polled round fd) := by
    rw [h.poll_eq]
    rfl
  -- the clients when the listening socket has been looked at
  obtain ⟨clients, hclients⟩ : ∃ clients, clients = if (polled round fd).revents = true then
      acceptClient round.accepted (s.clients.map (handled round)) else
      s.clients.map (handled round) := ⟨_, rfl⟩
  have hlength : clients.length = maxClients := by
    rw [hclients]
    split_ifs
    · rw [length_acceptClient, List.length_map, h.clients]
    · rw [List.length_map, h.clients]
  have hleft : (liveOf (s.clients.map (handled round))).length = (s.left round).length := by
    rw [liveOf_handled]
    rfl
  have hle : (s.left round).length ≤ s.live.length := List.length_filter_le _ _
  have hlive : (liveOf clients).length < maxClients := by
    have hlt := h.room
    rw [hclients]
    split_ifs with hready
    · have haccept := length_liveOf_acceptClient round.accepted (s.clients.map (handled round))
      rw [hleft] at haccept
      by_cases hfailed : round.accepted = -1
      · rw [if_pos hfailed] at haccept
        omega
      · rw [if_neg hfailed] at haccept
        have := hroom hready hfailed
        omega
    · omega
  refine ⟨⟨clients, .ask fd :: (liveOf clients).map .ask ++
    List.replicate (maxClients - 1 - (liveOf clients).length) .zero, 1 + (liveOf clients).length⟩,
    ?_, ⟨hlength, hlive, rfl, rfl⟩⟩
  unfold Poll.step
  simp only [h.handleClients_eq, hlistener, Option.bind_eq_bind, Option.bind_some]
  rw [← hclients, pollSet_eq hlive]
  rfl

/-- **The poll set of keyd is consistent, as long as no client takes the last slot.** In every run
whose rounds leave a slot free, the poll set at each `poll` is that of the clients and no access is
out of range. -/
theorem run_consistent {fd : Int} {rounds : List Round}
    (h : Along (fun s round => s.bind (step fd round))
      (fun s round => ∀ t, s = some t → Room fd t round) (some (init fd)) rounds) :
    ∃ s, run fd rounds = some s ∧ Consistent fd s := by
  have hfilled : ∃ s, run fd rounds = some s ∧ Filled fd s := by
    refine h.invariant (fun s => ∃ t, s = some t ∧ Filled fd t) ⟨_, rfl, init_filled fd⟩ ?_
    rintro s round ⟨t, rfl, ht⟩ hroom
    exact ht.step (hroom t rfl)
  obtain ⟨s, hrun, hs⟩ := hfilled
  exact ⟨s, hrun, hs.consistent⟩

/-- Two clients connect, the first of them leaves while a third one comes, and an `accept` fails. -/
theorem run_consistent_sample :
    ∃ s, run 3 [⟨fun _ => true, fun _ => false, 4⟩, ⟨fun _ => true, fun _ => false, 5⟩,
      ⟨fun _ => true, fun client => client == 4, 6⟩, ⟨fun _ => true, fun _ => false, -1⟩] = some s ∧
      Consistent 3 s := by
  refine run_consistent ⟨?_, ?_, ?_, ?_, trivial⟩
  · rintro t ht
    obtain rfl := Option.some.inj ht
    intro _ _
    decide
  · rintro t ht
    obtain rfl := Option.some.inj ht
    intro _ _
    decide
  · rintro t ht
    obtain rfl := Option.some.inj ht
    intro _ _
    decide
  · rintro t ht _ hfailed
    exact absurd rfl hfailed

/-- With the sixteenth client an entry is written behind the array. -/
theorem run_overflows :
    ¬ ∀ (fd : Int) (rounds : List Round), ∃ s, run fd rounds = some s ∧ Consistent fd s := by
  intro hall
  obtain ⟨s, hrun, -⟩ := hall 3
    ((List.range 16).map fun i => ⟨fun fd => fd == 3, fun _ => false, 4 + (i : Int)⟩)
  have hnone : run 3 ((List.range 16).map fun i =>
      ⟨fun fd => fd == 3, fun _ => false, 4 + (i : Int)⟩) = none := by decide
  rw [hnone] at hrun
  exact absurd hrun (by simp)

end Onak.Poll
