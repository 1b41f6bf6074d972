import Mathlib.Logic.Relation
import Mathlib.Data.List.Basic

/-!
# Two parties and a connection

Two programs that read from and write to the two ends of a connection. A read takes as many elements
as it asks for and waits until they are there; a write does not wait. Which of the two moves next is
open, but it does not matter: their steps commute, so if one run ends, all runs end, after the same
number of steps and in the same state.
-/

namespace Duplex

/-! ## Relations whose steps commute -/

section

variable {σ : Type*} {r : σ → σ → Prop}

/-- A run with its number of steps. -/
inductive Steps (r : σ → σ → Prop) : Nat → σ → σ → Prop
  | refl (a : σ) : Steps r 0 a a
  | step {n : Nat} {a b c : σ} (h : r a b) (hrest : Steps r n b c) : Steps r (n + 1) a c

/-- All runs from `a` end, and they end in `t`. -/
def Ends (r : σ → σ → Prop) (a t : σ) : Prop :=
  (∀ b, ¬ r t b) ∧ ∃ n, ∀ m b, Steps r m a b → ∃ k, m + k = n ∧ Steps r k b t

theorem Steps.of_reflTransGen {a b : σ} (h : Relation.ReflTransGen r a b) : ∃ n, Steps r n a b := by
  induction h using Relation.ReflTransGen.head_induction_on with
  | refl => exact ⟨0, .refl b⟩
  | head hstep _ ih =>
    obtain ⟨n, hn⟩ := ih
    exact ⟨n + 1, .step hstep hn⟩

theorem Steps.eq_of_terminal {n : Nat} {a b : σ} (h : Steps r n a b) (hterm : ∀ b, ¬ r a b) :
    n = 0 ∧ a = b := by
  cases h with
  | refl => exact ⟨rfl, rfl⟩
  | step hstep => exact absurd hstep (hterm _)

variable (hcomm : ∀ {a b c}, r a b → r a c → b = c ∨ ∃ d, r b d ∧ r c d)
include hcomm

/-- After any first step there is one step less to go. -/
theorem Steps.descend {n : Nat} {a t : σ} (h : Steps r n a t) (hterm : ∀ b, ¬ r t b) {b : σ}
    (hb : r a b) : ∃ m, n = m + 1 ∧ Steps r m b t := by
  induction h generalizing b with
  | refl t => exact absurd hb (hterm b)
  | step hstep hrest ih =>
    rename_i n a a' t
    refine ⟨n, rfl, ?_⟩
    rcases hcomm hstep hb with rfl | ⟨d, ha'd, hbd⟩
    · exact hrest
    · obtain ⟨m, rfl, hm⟩ := ih hterm ha'd
      exact .step hbd hm

theorem ends_of_reflTransGen {a t : σ} (h : Relation.ReflTransGen r a t)
    (hterm : ∀ b, ¬ r t b) : Ends r a t := by
  obtain ⟨n, hn⟩ := Steps.of_reflTransGen h
  refine ⟨hterm, n, fun m b hrun => ?_⟩
  clear h
  induction hrun generalizing n with
  | refl => exact ⟨n, Nat.zero_add n, hn⟩
  | step hstep _ ih =>
    obtain ⟨m, rfl, hm⟩ := hn.descend hcomm hterm hstep
    obtain ⟨k, hk, hkt⟩ := ih m hm
    exact ⟨k, by omega, hkt⟩

end

/-- The runs do not end anywhere else. -/
theorem Ends.eq_of_reach {σ : Type*} {r : σ → σ → Prop} {a t b : σ} (h : Ends r a t)
    (hb : Relation.ReflTransGen r a b) (hterm : ∀ c, ¬ r b c) : b = t := by
  obtain ⟨m, hm⟩ := Steps.of_reflTransGen hb
  obtain ⟨n, hall⟩ := h.2
  obtain ⟨k, _, hk⟩ := hall m b hm
  exact (hk.eq_of_terminal hterm).2

/-! ## Programs -/

/-- A program that reads and writes elements of `β` and returns a value. -/
inductive Proc (β α : Type) where
  | done (a : α)
  | read (n : Nat) (k : List β → Proc β α)
  | write (l : List β) (p : Proc β α)

/-- Both programs, and what is on the way between them. -/
structure Config (β α γ : Type) where
  /-- The one party. -/
  client : Proc β α
  /-- The other party. -/
  server : Proc β γ
  /-- What the client has written and the server has not read. -/
  toServer : List β
  /-- What the server has written and the client has not read. -/
  toClient : List β

variable {β α γ : Type}

/-- One step of a program that may go on with another one when it is done: what is left of it and
of what it can read, and what it has written. -/
def act (next : α → Option (Proc β α)) (p : Proc β α) (inbox : List β) :
    Option (Proc β α × List β × List β) :=
  match p with
  | .done a => (next a).map fun p => (p, inbox, [])
  | .read n k => if n ≤ inbox.length then some (k (inbox.take n), inbox.drop n, []) else none
  | .write l p => some (p, inbox, l)

variable (next : α → Option (Proc β α)) (again : γ → Option (Proc β γ))

/-- A step of the client. -/
def clientStep (c : Config β α γ) : Option (Config β α γ) :=
  (act next c.client c.toClient).map fun r => ⟨r.1, c.server, c.toServer ++ r.2.2, r.2.1⟩

/-- A step of the server. -/
def serverStep (c : Config β α γ) : Option (Config β α γ) :=
  (act again c.server c.toServer).map fun r => ⟨c.client, r.1, r.2.1, c.toClient ++ r.2.2⟩

/-- A step of one of the two. -/
def Step (c d : Config β α γ) : Prop :=
  clientStep next c = some d ∨ serverStep again c = some d

/-- A run. -/
def Reach : Config β α γ → Config β α γ → Prop := Relation.ReflTransGen (Step next again)

variable {next again}

/-- More to read does not change a step. -/
theorem act_append {p p' : Proc β α} {inbox inbox' written : List β}
    (h : act next p inbox = some (p', inbox', written)) (l : List β) :
    act next p (inbox ++ l) = some (p', inbox' ++ l, written) := by
  cases p with
  | done a =>
    obtain ⟨q, hq, heq⟩ := Option.map_eq_some_iff.mp h
    cases heq
    exact Option.map_eq_some_iff.mpr ⟨_, hq, rfl⟩
  | read n k =>
    simp only [act] at h ⊢
    split_ifs at h with hn
    cases h
    have hle : n ≤ (inbox ++ l).length := by
      rw [List.length_append]
      omega
    rw [if_pos hle, List.take_append_of_le_length hn, List.drop_append_of_le_length hn]
  | write l' q =>
    cases h
    rfl

/-- The steps of the two parties commute. -/
theorem steps_commute {c d e : Config β α γ} (hd : clientStep next c = some d)
    (he : serverStep again c = some e) :
    ∃ f, serverStep again d = some f ∧ clientStep next e = some f := by
  obtain ⟨⟨p, inbox, written⟩, hp, rfl⟩ := Option.map_eq_some_iff.mp hd
  obtain ⟨⟨q, inbox', written'⟩, hq, rfl⟩ := Option.map_eq_some_iff.mp he
  refine ⟨⟨p, q, inbox' ++ written, inbox ++ written'⟩, ?_, ?_⟩
  · exact Option.map_eq_some_iff.mpr ⟨_, act_append hq written, rfl⟩
  · exact Option.map_eq_some_iff.mpr ⟨_, act_append hp written', rfl⟩

theorem step_commutes {a b c : Config β α γ} (hb : Step next again a b) (hc : Step next again a c) :
    b = c ∨ ∃ d, Step next again b d ∧ Step next again c d := by
  rcases hb with hb | hb <;> rcases hc with hc | hc
  · exact Or.inl (Option.some.inj (hb.symm.trans hc))
  · obtain ⟨d, hbd, hcd⟩ := steps_commute hb hc
    exact Or.inr ⟨d, Or.inr hbd, Or.inl hcd⟩
  · obtain ⟨d, hcd, hbd⟩ := steps_commute hc hb
    exact Or.inr ⟨d, Or.inl hbd, Or.inr hcd⟩
  · exact Or.inl (Option.some.inj (hb.symm.trans hc))

/-- One run to a state in which neither party can move is enough. -/
theorem Reach.ends {a t : Config β α γ} (h : Reach next again a t)
    (hterm : ∀ b, ¬ Step next again t b) : Ends (Step next again) a t :=
  ends_of_reflTransGen (fun hb hc => step_commutes hb hc) h hterm

/-! ## Exchanges -/

theorem Reach.trans {a b c : Config β α γ} (hab : Reach next again a b)
    (hbc : Reach next again b c) : Reach next again a c :=
  Relation.ReflTransGen.trans hab hbc

theorem Reach.refl (a : Config β α γ) : Reach next again a a := Relation.ReflTransGen.refl

section

variable (p : Proc β α) (q : Proc β γ) (k : List β → Proc β α) (k' : List β → Proc β γ)
  (l s t : List β)

theorem reach_client_write :
    Reach next again ⟨.write l p, q, s, t⟩ ⟨p, q, s ++ l, t⟩ :=
  .single (Or.inl rfl)

theorem reach_next {a : α} {p : Proc β α} (h : next a = some p) :
    Reach next again ⟨.done a, q, s, t⟩ ⟨p, q, s, t⟩ := by
  refine .single (Or.inl ?_)
  simp [clientStep, act, h]

theorem reach_again {a : γ} {q : Proc β γ} (h : again a = some q) :
    Reach next again ⟨p, .done a, s, t⟩ ⟨p, q, s, t⟩ := by
  refine .single (Or.inr ?_)
  simp [serverStep, act, h]

theorem reach_server_read {n : Nat} (h : l.length = n) :
    Reach next again ⟨p, .read n k', l ++ s, t⟩ ⟨p, k' l, s, t⟩ := by
  refine .single (Or.inr ?_)
  subst h
  simp [serverStep, act]

theorem reach_client_read {n : Nat} (h : l.length = n) :
    Reach next again ⟨.read n k, q, s, l ++ t⟩ ⟨k l, q, s, t⟩ := by
  refine .single (Or.inl ?_)
  subst h
  simp [clientStep, act]

/-- The client sends what the server waits for. -/
theorem reach_send {n : Nat} (h : l.length = n) :
    Reach next again ⟨.write l p, .read n k', [], t⟩ ⟨p, k' l, [], t⟩ := by
  have hread : Reach next again ⟨p, .read n k', l ++ [], t⟩ ⟨p, k' l, [], t⟩ :=
    reach_server_read p k' l [] t h
  rw [List.append_nil] at hread
  exact (reach_client_write p _ l [] t).trans hread

/-- The server sends what the client waits for. -/
theorem reach_reply {n : Nat} (h : l.length = n) :
    Reach next again ⟨.read n k, .write l q, s, []⟩ ⟨k l, q, s, []⟩ := by
  have hread : Reach next again ⟨.read n k, q, s, l ++ []⟩ ⟨k l, q, s, []⟩ :=
    reach_client_read q k l s [] h
  rw [List.append_nil] at hread
  exact Reach.trans (.single (Or.inr rfl)) hread

end

theorem act_read_of_lt {n : Nat} {k : List β → Proc β α} {inbox : List β} (h : inbox.length < n) :
    act next (.read n k) inbox = none := if_neg (Nat.not_le.mpr h)

/-- A state in which neither party can move. -/
theorem not_step {p : Proc β α} {q : Proc β γ} {s t : List β} (hclient : act next p t = none)
    (hserver : act again q s = none) (d : Config β α γ) : ¬ Step next again ⟨p, q, s, t⟩ d := by
  rintro (h | h)
  · simp [clientStep, hclient] at h
  · simp [serverStep, hserver] at h

end Duplex
