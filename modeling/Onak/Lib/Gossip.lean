import Mathlib

/-!
# Mails that are passed on

A mail names the sites that it has passed. A site that gets a mail sends something on to sites that the
mail does not name, and names itself too, or it sends nothing on. In whatever order the mails arrive,
they die out.
-/

namespace Gossip

variable {ι M : Type*}

/-- What counts of a mail. -/
structure Post (ι M : Type*) where
  /-- The site that the mail gets to, if it gets to one. -/
  dest : M → Option ι
  /-- The sites that it names. -/
  seen : M → Finset ι

section

variable [Fintype ι] [DecidableEq ι] (V : Post ι M) (k : ℕ)

/-- How far a mail can still get: twice the number of sites that it does not name and does not get to,
and once more if it does not name the site it gets to. -/
def rank (m : M) (i : ι) : ℕ :=
  2 * (Fintype.card ι - (insert i (V.seen m)).card) + if i ∈ V.seen m then 0 else 1

/-- How many deliveries a mail can lead to where `k` mails are sent on at most. -/
def weight (m : M) : ℕ :=
  match V.dest m with
  | none => 0
  | some i => (k + 1) ^ rank V m i

/-- The mails that are sent on when `m` gets to `i`. -/
structure SentOn (m : M) (i : ι) (out : Multiset M) : Prop where
  few : out.card ≤ k
  named : ∀ n ∈ out, V.seen n = insert i (V.seen m)
  unnamed : ∀ n ∈ out, ∀ j, V.dest n = some j → j ∉ V.seen m

variable {V k}

theorem SentOn.rank_lt {m n : M} {i j : ι} {out : Multiset M} (h : SentOn V k m i out)
    (hn : n ∈ out) (hto : V.dest n = some j) : rank V n j < rank V m i := by
  have hseen := h.named n hn
  have hj := h.unnamed n hn j hto
  unfold rank
  by_cases hji : j = i
  · -- a site that is a peer of its own: it is named now
    subst hji
    rw [hseen, Finset.insert_idem, if_pos (Finset.mem_insert_self ..), if_neg hj]
    omega
  · have hnew : j ∉ insert i (V.seen m) := by simp [hji, hj]
    have hcard : (insert j (insert i (V.seen m))).card = (insert i (V.seen m)).card + 1 :=
      Finset.card_insert_of_notMem hnew
    have hle := Finset.card_le_univ (insert j (insert i (V.seen m)))
    rw [hseen, hcard, if_neg hnew]
    rw [hcard] at hle
    omega

theorem sum_le_of_forall_le {α : Type*} (s : Multiset α) (f : α → ℕ) {b : ℕ}
    (h : ∀ a ∈ s, f a ≤ b) : (s.map f).sum ≤ s.card * b := by
  have hle := Multiset.sum_le_card_nsmul (s.map f) b fun x hx => by
    obtain ⟨a, ha, rfl⟩ := Multiset.mem_map.mp hx
    exact h a ha
  rwa [Multiset.card_map, smul_eq_mul] at hle

/-- What is sent on weighs less than what was got. -/
theorem SentOn.weight_lt {m : M} {i : ι} {out : Multiset M} (h : SentOn V k m i out)
    (hto : V.dest m = some i) : (out.map (weight V k)).sum < weight V k m := by
  have hm : weight V k m = (k + 1) ^ rank V m i := by rw [weight, hto]
  rw [hm]
  cases hrank : rank V m i with
  | zero =>
    have hzero : ∀ n ∈ out, weight V k n ≤ 0 := by
      intro n hn
      rw [weight]
      cases hton : V.dest n with
      | none => exact le_refl 0
      | some j =>
        have hlt := h.rank_lt hn hton
        omega
    have hsum := sum_le_of_forall_le out (weight V k) hzero
    rw [pow_zero]
    omega
  | succ r =>
    have hbound : ∀ n ∈ out, weight V k n ≤ (k + 1) ^ r := by
      intro n hn
      rw [weight]
      cases hton : V.dest n with
      | none => exact Nat.zero_le _
      | some j =>
        have hlt := h.rank_lt hn hton
        exact Nat.pow_le_pow_right (Nat.succ_pos k) (by omega)
    have hpos : 0 < (k + 1) ^ r := Nat.pow_pos (Nat.succ_pos k)
    calc (out.map (weight V k)).sum ≤ out.card * (k + 1) ^ r := sum_le_of_forall_le _ _ hbound
      _ ≤ k * (k + 1) ^ r := Nat.mul_le_mul_right _ h.few
      _ < (k + 1) ^ (r + 1) := by
        rw [pow_succ, Nat.mul_comm _ (k + 1), Nat.add_mul]
        omega

variable (V k) in
/-- The most that a mail can weigh. -/
theorem weight_le (m : M) : weight V k m ≤ (k + 1) ^ (2 * Fintype.card ι + 1) := by
  rw [weight]
  cases V.dest m with
  | none => exact Nat.zero_le _
  | some i =>
    refine Nat.pow_le_pow_right (Nat.succ_pos k) ?_
    unfold rank
    split_ifs <;> omega

variable (V k) in
/-- Runs from some mails to others, with the number of times that mails were brought in, and the
number of mails that were delivered. -/
inductive Run (s : Multiset M) : ℕ → ℕ → Multiset M → Prop
  | refl : Run s 0 0 s
  | submit {a d : ℕ} {t out : Multiset M} (h : Run s a d t) (hfew : out.card ≤ k) :
      Run s (a + 1) d (t + out)
  | deliver {a d : ℕ} {m : M} {t out : Multiset M} {i : ι} (h : Run s a d (m ::ₘ t))
      (hto : V.dest m = some i) (hsent : SentOn V k m i out) : Run s a (d + 1) (t + out)

/-- The number of deliveries is bounded by what there was at the start and what was brought in. -/
theorem Run.deliveries_le {s t : Multiset M} {a d : ℕ} (h : Run V k s a d t) :
    d + (t.map (weight V k)).sum ≤
      (s.map (weight V k)).sum + a * (k * (k + 1) ^ (2 * Fintype.card ι + 1)) := by
  induction h with
  | refl => omega
  | @submit a d t out _ hfew ih =>
    have hout := sum_le_of_forall_le out (weight V k) fun m _ => weight_le V k m
    have hk := Nat.mul_le_mul_right ((k + 1) ^ (2 * Fintype.card ι + 1)) hfew
    rw [Multiset.map_add, Multiset.sum_add, Nat.add_mul, Nat.one_mul]
    omega
  | @deliver a d m t out i _ hto hsent ih =>
    have hlt := hsent.weight_lt hto
    rw [Multiset.map_cons, Multiset.sum_cons] at ih
    rw [Multiset.map_add, Multiset.sum_add]
    omega

end

end Gossip
