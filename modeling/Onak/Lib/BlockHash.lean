import Mathlib

/-!
# Hashing block by block

A compression function takes a state and a block of `n` elements to a state. `absorb` runs it over
the complete blocks of a message. Between the pieces of a message a hash keeps the state behind the
blocks that it has taken and the elements that follow them; `Hashed` says that it does.
-/

namespace BlockHash

variable {α σ : Type*} (n : Nat) (f : σ → List α → σ)

/-- The state behind the complete blocks of a message. -/
def absorb (s : σ) (msg : List α) : σ :=
  if _ : 0 < n ∧ n ≤ msg.length then absorb (f s (msg.take n)) (msg.drop n) else s
termination_by msg.length
decreasing_by
  rw [List.length_drop]
  omega

variable {n}

@[simp] theorem absorb_nil (s : σ) : absorb n f s [] = s := by
  rw [absorb, dif_neg (by simp [Nat.pos_iff_ne_zero])]

theorem absorb_block_append {block : List α} (s : σ) (msg : List α) (hn : 0 < n)
    (h : block.length = n) : absorb n f s (block ++ msg) = absorb n f (f s block) msg := by
  have hle : n ≤ (block ++ msg).length := by
    rw [List.length_append]
    omega
  rw [absorb, dif_pos ⟨hn, hle⟩, List.take_left' h, List.drop_left' h]

theorem absorb_block {block : List α} (s : σ) (hn : 0 < n) (h : block.length = n) :
    absorb n f s block = f s block := by
  have happ := absorb_block_append f s [] hn h
  rwa [List.append_nil, absorb_nil] at happ

/-- Whole blocks in front are taken first. -/
theorem absorb_append {front : List α} (s : σ) (msg : List α) (h : n ∣ front.length) :
    absorb n f s (front ++ msg) = absorb n f (absorb n f s front) msg := by
  fun_induction absorb n f s front with
  | case1 s front hfull ih =>
    have hsplit : front ++ msg = front.take n ++ (front.drop n ++ msg) := by
      rw [← List.append_assoc, List.take_append_drop]
    have htake : (front.take n).length = n := by
      rw [List.length_take]
      omega
    have hdrop : n ∣ (front.drop n).length := by
      rw [List.length_drop]
      exact Nat.dvd_sub h (dvd_refl n)
    rw [hsplit, absorb_block_append f s _ hfull.1 htake, ih hdrop]
  | case2 s front hfull =>
    have hnil : front = [] := by
      rcases Nat.eq_zero_or_pos n with rfl | hn
      · exact List.eq_nil_of_length_eq_zero (Nat.eq_zero_of_zero_dvd h)
      · apply List.eq_nil_of_length_eq_zero
        apply Nat.eq_zero_of_dvd_of_lt h
        omega
    rw [hnil, List.nil_append]

variable (n)

/-- The state stands behind whole blocks of the message, and `pending` is the rest of it. -/
def Hashed (init : σ) (msg : List α) (state : σ) (pending : List α) : Prop :=
  ∃ taken, msg = taken ++ pending ∧ n ∣ taken.length ∧ state = absorb n f init taken

variable {n f} {init state : σ} {msg pending : List α}

theorem Hashed.start (init : σ) : Hashed n f init [] init [] :=
  ⟨[], rfl, dvd_zero n, (absorb_nil f init).symm⟩

/-- More of the message is more to be taken. -/
theorem Hashed.append (h : Hashed n f init msg state pending) (data : List α) :
    Hashed n f init (msg ++ data) state (pending ++ data) := by
  obtain ⟨taken, hmsg, hdvd, hstate⟩ := h
  exact ⟨taken, by rw [hmsg, List.append_assoc], hdvd, hstate⟩

/-- Whole blocks at the front of what is pending can be taken. -/
theorem Hashed.flush {front : List α} (h : Hashed n f init msg state (front ++ pending))
    (hfront : n ∣ front.length) : Hashed n f init msg (absorb n f state front) pending := by
  obtain ⟨taken, hmsg, hdvd, hstate⟩ := h
  refine ⟨taken ++ front, by rw [hmsg, List.append_assoc], ?_, ?_⟩
  · rw [List.length_append]
    exact dvd_add hdvd hfront
  · rw [absorb_append f init front hdvd, hstate]

/-- When nothing is pending, the message is hashed. -/
theorem Hashed.state_eq (h : Hashed n f init msg state []) : state = absorb n f init msg := by
  obtain ⟨taken, hmsg, -, hstate⟩ := h
  rw [hstate, hmsg, List.append_nil]

theorem Hashed.length_pending_mod (h : Hashed n f init msg state pending) :
    pending.length % n = msg.length % n := by
  obtain ⟨taken, hmsg, ⟨k, hk⟩, -⟩ := h
  rw [hmsg, List.length_append, hk, Nat.mul_add_mod]

/-- What is pending is as long as the message says. -/
theorem Hashed.length_pending (h : Hashed n f init msg state pending) (hlt : pending.length < n) :
    pending.length = msg.length % n := by
  rw [← h.length_pending_mod, Nat.mod_eq_of_lt hlt]

/-! ## Padding -/

/-- The zeros between the mark and the length, so that blocks of 64 are filled. -/
def padZeros (length : Nat) : Nat := (119 - length % 64) % 64

theorem padZeros_lt (length : Nat) : padZeros length < 64 := Nat.mod_lt _ (by decide)

theorem length_add_padZeros (length : Nat) : (length + 1 + padZeros length) % 64 = 56 := by
  rw [padZeros]
  omega

/-- The message with the mark, the zeros and the octets that hold its length. -/
def padded (field : Nat → List UInt8) (msg : List UInt8) : List UInt8 :=
  msg ++ (0x80 :: List.replicate (padZeros msg.length) 0) ++ field msg.length

theorem length_padded {field : Nat → List UInt8} (hfield : ∀ k, (field k).length = 8)
    (msg : List UInt8) : 64 ∣ (padded field msg).length := by
  have hzeros := length_add_padZeros msg.length
  simp only [padded, List.length_append, List.length_cons, List.length_replicate, hfield]
  omega

end BlockHash
