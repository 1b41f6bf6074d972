import Onak.KeydReceive

/-!
# Proofs: receiving from a peer that may go away

The end of file adds nothing to what was received, and nothing else ends a receive loop than that
everything is there. So it ends exactly when as much arrives as was announced.
-/

namespace Onak.Socket

open Loops

/-! ## Octet by octet -/

/-- The delivery without its first octet. -/
def Delivery.next : Delivery → Delivery
  | [] => []
  | piece :: fd => Delivery.behind fd piece.rest

/-- The delivery without some octets at its front. -/
def Delivery.skip (n : Nat) (fd : Delivery) : Delivery := Delivery.next^[n] fd

theorem Delivery.skip_add (m n : Nat) (fd : Delivery) : fd.skip (m + n) = (fd.skip m).skip n := by
  rw [skip, Nat.add_comm, Function.iterate_add_apply]
  rfl

theorem Delivery.octets_behind (fd : Delivery) (rest : List UInt8) :
    (fd.behind rest).octets = rest ++ fd.octets := by
  cases rest <;> rfl

theorem Delivery.skip_behind (fd : Delivery) {rest : List UInt8} {n : Nat} (h : n ≤ rest.length) :
    (fd.behind rest).skip n = fd.behind (rest.drop n) := by
  induction n generalizing rest with
  | zero => rfl
  | succ n ih =>
    cases rest with
    | nil => exact absurd h (by simp)
    | cons c rest => exact ih (Nat.le_of_succ_le_succ h)

/-- What `read` delivers, and what it leaves. -/
theorem Delivery.read_spec (n : Nat) (fd : Delivery) :
    (fd.read n).1 ++ (fd.read n).2.octets = fd.octets ∧ (fd.read n).1.length ≤ n ∧
      (fd.read n).2 = fd.skip (fd.read n).1.length := by
  cases n with
  | zero => exact ⟨rfl, le_rfl, rfl⟩
  | succ n =>
    cases fd with
    | nil => exact ⟨rfl, Nat.zero_le _, rfl⟩
    | cons piece fd =>
      have hlen : (piece.first :: piece.rest.take n).length = min n piece.rest.length + 1 := by
        rw [List.length_cons, List.length_take]
      refine ⟨?_, ?_, ?_⟩
      · show piece.first :: piece.rest.take n ++ (behind fd (piece.rest.drop n)).octets =
          piece.first :: piece.rest ++ octets fd
        rw [octets_behind, List.cons_append, ← List.append_assoc, List.take_append_drop,
          List.cons_append]
      · show (piece.first :: piece.rest.take n).length ≤ n + 1
        rw [hlen]
        omega
      · show behind fd (piece.rest.drop n) =
          (behind fd piece.rest).skip (piece.rest.take n).length
        rw [List.length_take, skip_behind fd (Nat.min_le_right _ _)]
        rcases Nat.le_total n piece.rest.length with hle | hle
        · rw [Nat.min_eq_left hle]
        · rw [Nat.min_eq_right hle, List.drop_of_length_le hle, List.drop_length]

theorem Delivery.read_pos {n : Nat} {fd : Delivery} (hn : 0 < n) (hfd : fd ≠ []) :
    0 < (fd.read n).1.length := by
  obtain ⟨n, rfl⟩ := Nat.exists_eq_succ_of_ne_zero hn.ne'
  obtain ⟨piece, fd, rfl⟩ := List.exists_cons_of_ne_nil hfd
  exact Nat.succ_pos _

/-! ## The receive loop -/

/-- What a receive loop has done. -/
structure RecvInv (size : Nat) (fd : Delivery) (s : Receiving) : Prop where
  bytes : 0 ≤ s.bytes
  octets : s.data ++ s.fd.octets = fd.octets
  length_le : s.data.length ≤ size
  fd_eq : s.fd = fd.skip s.data.length

theorem recvInv_start (size : Nat) (fd : Delivery) : RecvInv size fd ⟨0, [], fd⟩ :=
  ⟨le_rfl, rfl, Nat.zero_le _, rfl⟩

theorem recvRound_of_lt {size : Nat} {s : Receiving} (hbytes : 0 ≤ s.bytes)
    (hlt : s.data.length < size) :
    recvRound size s = some (some ⟨(s.fd.read (size - s.data.length)).1.length,
      s.data ++ (s.fd.read (size - s.data.length)).1,
      (s.fd.read (size - s.data.length)).2⟩) := if_pos ⟨hbytes, hlt⟩

theorem RecvInv.read {size : Nat} {fd : Delivery} {s : Receiving} (h : RecvInv size fd s) :
    RecvInv size fd ⟨(s.fd.read (size - s.data.length)).1.length,
      s.data ++ (s.fd.read (size - s.data.length)).1,
      (s.fd.read (size - s.data.length)).2⟩ := by
  obtain ⟨hoctets, hle, hfd⟩ := s.fd.read_spec (size - s.data.length)
  have hsize := h.length_le
  refine ⟨Int.natCast_nonneg _, ?_, ?_, ?_⟩
  · rw [List.append_assoc, hoctets, h.octets]
  · rw [List.length_append]
    omega
  · rw [List.length_append, Delivery.skip_add, ← h.fd_eq]
    exact hfd

theorem RecvInv.step {size : Nat} {fd : Delivery} {s s' : Receiving} (h : RecvInv size fd s)
    (hstep : Step (recvRound size) s s') : RecvInv size fd s' := by
  by_cases hlt : s.data.length < size
  · rw [Step, recvRound_of_lt h.bytes hlt] at hstep
    cases hstep
    exact h.read
  · rw [Step, recvRound, if_neg fun hc => hlt hc.2] at hstep
    cases hstep

/-- A receive loop that ends has received what was announced. -/
theorem Receives.spec {size : Nat} {fd : Delivery} {s : Receiving} (h : Receives size fd s) :
    0 ≤ s.bytes ∧ s.data.length = size ∧ s.data = fd.octets.take size ∧ s.fd = fd.skip size := by
  obtain ⟨hreach, hend⟩ := h
  have hinv : RecvInv size fd s :=
    hreach.invariant (recvInv_start size fd) fun hs hstep => hs.step hstep
  have hlen : s.data.length = size := by
    by_contra hne
    have hlt := lt_of_le_of_ne hinv.length_le hne
    rw [recvRound_of_lt hinv.bytes hlt] at hend
    cases hend
  refine ⟨hinv.bytes, hlen, ?_, hlen ▸ hinv.fd_eq⟩
  rw [← hinv.octets, ← hlen, List.take_left]

/-- A receive loop ends if and only if as much arrives as was announced. -/
theorem receives_iff (size : Nat) (fd : Delivery) :
    (∃ s, Receives size fd s) ↔ size ≤ fd.octets.length := by
  constructor
  · rintro ⟨s, h⟩
    obtain ⟨-, hlen, hdata, -⟩ := h.spec
    rw [← hlen, hdata]
    exact List.length_take_le' _ _
  · intro hle
    refine terminates_of_measure (fun s => size - s.data.length) (fun {s} hs => ?_)
      (recvInv_start size fd)
    by_cases hlt : s.data.length < size
    · refine .inr ⟨_, recvRound_of_lt hs.bytes hlt, hs.read, ?_⟩
      -- more is to arrive, or there were fewer octets than announced
      have hmore : s.fd ≠ [] := by
        intro hnil
        have hoctets := congrArg List.length hs.octets
        rw [hnil, List.length_append] at hoctets
        have hnone : Delivery.octets [] = [] := rfl
        rw [hnone, List.length_nil] at hoctets
        omega
      have hpos := Delivery.read_pos (n := size - s.data.length) (by omega) hmore
      simp only [List.length_append]
      omega
    · exact .inl (if_neg fun hc => hlt hc.2)

/-! ## Peers that go away -/

section

variable (order : ByteOrder)

/-- Everything arrives that `keyd_iterate_keys` waits for: each key of an announced size, until the size
is 0. -/
inductive KeysComplete : Nat → Delivery → Prop
  | done {fd : Delivery} : KeysComplete 0 fd
  | key {size : Nat} {fd : Delivery} : size ≠ 0 → size ≤ fd.octets.length →
      KeysComplete (readSize order (List.replicate 8 0) (fd.skip size)).1
        (readSize order (List.replicate 8 0) (fd.skip size)).2 →
      KeysComplete size fd

theorem storeSurvives_iff (fd : Delivery) : StoreSurvives order fd ↔ ¬ StoreShort order fd := by
  unfold StoreSurvives StoreEnds StoreShort
  by_cases hlen : (fd.read 8).1.length = 8
  · simp only [hlen, ne_eq, not_true_eq_false, if_false, true_and]
    by_cases hzero : order.number (fd.read 8).1 = 0
    · simp [hzero]
    · simp only [hzero, if_false, Nat.not_lt, ← receives_iff]
      constructor
      · rintro ⟨⟨_, s, hs, -⟩, -⟩
        exact ⟨s, hs⟩
      · rintro ⟨s, hs⟩
        refine ⟨⟨_, s, hs, rfl⟩, fun _ _ hshort => ?_⟩
        have hle := (receives_iff _ _).mp ⟨s, hs⟩
        omega
  · simp [hlen]

theorem fetchSurvives_iff (keybufSize : List UInt8) (fd : Delivery) :
    FetchSurvives order keybufSize fd ↔
      (readSize order keybufSize fd).1 ≤ (readSize order keybufSize fd).2.octets.length := by
  unfold FetchSurvives FetchEnds
  by_cases hzero : (readSize order keybufSize fd).1 = 0
  · simp [hzero]
  · simp only [hzero, if_false]
    constructor
    · rintro ⟨⟨_, s, hs, -⟩, -⟩
      exact (receives_iff _ _).mp ⟨s, hs⟩
    · intro hle
      obtain ⟨s, hs⟩ := (receives_iff _ _).mpr hle
      exact ⟨⟨_, s, hs, rfl⟩, fun _ _ hshort => absurd hshort (Nat.not_lt.mpr hle)⟩

theorem iterateEnds_iff (size : Nat) (fd : Delivery) :
    (∃ keys, IterateEnds order size fd keys) ↔ KeysComplete order size fd := by
  constructor
  · rintro ⟨keys, h⟩
    induction h with
    | done => exact .done
    | @key size fd s keys hsize hs _ ih =>
      obtain ⟨-, -, -, hfd⟩ := hs.spec
      rw [hfd] at ih
      exact .key hsize ((receives_iff _ _).mp ⟨s, hs⟩) ih
  · intro h
    induction h with
    | done => exact ⟨[], .done⟩
    | @key size fd hsize hle _ ih =>
      obtain ⟨s, hs⟩ := (receives_iff _ _).mpr hle
      obtain ⟨keys, hkeys⟩ := ih
      obtain ⟨-, -, -, hfd⟩ := hs.spec
      rw [← hfd] at hkeys
      exact ⟨_, .key hsize hs hkeys⟩

theorem length_of_iterateEnds {size : Nat} {fd : Delivery} {keys : List (Nat × List UInt8)}
    (h : IterateEnds order size fd keys) : ∀ key ∈ keys, key.2.length = key.1 := by
  induction h with
  | done => exact nofun
  | key _ hs _ ih =>
    intro key hkey
    rcases List.mem_cons.mp hkey with rfl | hkey
    · exact hs.spec.2.1
    · exact ih key hkey

/-- **When a peer may go away.** For all octets in all pieces, with the end of file behind them: the
server gets done with a key to store, the client with a key it fetches or with all of them, and what is
shorter than announced is not taken for a key, if and only if as many octets arrive as are announced. -/
theorem receives_survive_iff (keybufSize : List UInt8) (fd : Delivery) :
    (StoreSurvives order fd ↔ ¬ StoreShort order fd) ∧
    (FetchSurvives order keybufSize fd ↔
      (readSize order keybufSize fd).1 ≤ (readSize order keybufSize fd).2.octets.length) ∧
    (IterateSurvives order keybufSize fd ↔
      KeysComplete order (readSize order keybufSize fd).1 (readSize order keybufSize fd).2) := by
  refine ⟨storeSurvives_iff order fd, fetchSurvives_iff order keybufSize fd, ?_⟩
  rw [← iterateEnds_iff]
  exact and_iff_left fun keys hkeys => length_of_iterateEnds order hkeys

end

/-- Five octets are announced, and the peer goes away behind three of them. -/
def shortDelivery : Delivery := [⟨5, List.replicate 7 0⟩, ⟨1, [2, 3]⟩]

/-- The server waits for the other two forever, and so does a client. -/
theorem receives_hang :
    ¬ StoreSurvives .little shortDelivery ∧
      ¬ FetchSurvives .little (List.replicate 8 0) shortDelivery ∧
      ¬ IterateSurvives .little (List.replicate 8 0) shortDelivery := by
  have hsize : (readSize .little (List.replicate 8 0) shortDelivery).1 = 5 := by decide
  have hoctets : (readSize .little (List.replicate 8 0) shortDelivery).2.octets.length = 3 := by decide
  refine ⟨?_, ?_, ?_⟩
  · rw [storeSurvives_iff]
    exact not_not_intro (by unfold StoreShort; decide)
  · rw [fetchSurvives_iff, hsize, hoctets]
    omega
  · rintro ⟨hends, -⟩
    have hcomplete := (iterateEnds_iff _ _ _).mp hends
    rw [hsize] at hcomplete
    cases hcomplete with
    | key _ hle _ => omega

end Onak.Socket
