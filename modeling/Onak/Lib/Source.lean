import Mathlib

/-!
# Sources and sinks of elements

A source hands out elements on demand: `get s n` asks a source in state `s` for `n` elements and
gives those that were delivered, with the next state. A sink takes lists of elements one after the
other. `Feeds` says, through a relation between states and lists, that a source delivers what the
list holds and then nothing; `Gathers` that a sink does not care how its input is cut up.
-/

namespace Source

variable {α σ τ : Type*}

/-- Read from a list, as many elements as there are. -/
def buffer (s : List α) (n : Nat) : List α × List α := (s.take n, s.drop n)

/-- In a state related to a list, the source delivers that list: any number of elements that are
still there, and nothing once they are used up, which leaves it in a state with `E`. -/
structure Feeds (get : σ → Nat → List α × σ) (R : σ → List α → Prop) (E : σ → Prop) : Prop where
  next : ∀ {s l l'}, R s (l ++ l') → ∃ s', get s l.length = (l, s') ∧ R s' l'
  stop : ∀ {s}, R s [] → ∃ s', get s 1 = ([], s') ∧ E s'

theorem buffer_feeds : Feeds (@buffer α) Eq (· = []) where
  next := by
    rintro s l l' rfl
    exact ⟨l', by simp [buffer], rfl⟩
  stop := by
    rintro s rfl
    exact ⟨[], rfl, rfl⟩

/-- In a state related to a list, the source delivers what the list holds, whatever it does behind
its end. -/
structure Supplies (get : σ → Nat → List α × σ) (R : σ → List α → Prop) : Prop where
  next : ∀ {s l l'}, R s (l ++ l') → ∃ s', get s l.length = (l, s') ∧ R s' l'

theorem Feeds.supplies {get : σ → Nat → List α × σ} {R : σ → List α → Prop} {E : σ → Prop}
    (h : Feeds get R E) : Supplies get R :=
  ⟨h.next⟩

theorem Supplies.next_one {get : σ → Nat → List α × σ} {R : σ → List α → Prop}
    (h : Supplies get R) {s : σ} {x : α} {l : List α} (hs : R s (x :: l)) :
    ∃ s', get s 1 = ([x], s') ∧ R s' l :=
  h.next (l := [x]) hs

/-- What a source delivers when it delivers all it was asked for is accounted for by `C`, from state
to state. -/
structure Consumes (get : σ → Nat → List α × σ) (C : σ → List α → σ → Prop) : Prop where
  nil : ∀ s, C s [] s
  append : ∀ {s s' s'' l l'}, C s l s' → C s' l' s'' → C s (l ++ l') s''
  full : ∀ {s s' n l}, get s n = (l, s') → l.length = n → C s l s'
  le : ∀ {s s' n l}, get s n = (l, s') → l.length ≤ n

theorem buffer_consumes :
    Consumes (@buffer α) fun s l s' => ∀ t, s = t → ∃ t', t = l ++ t' ∧ s' = t' where
  nil := fun _ t ht => ⟨t, rfl, ht⟩
  append := by
    intro s s' s'' l l' hl hl' t ht
    obtain ⟨t', rfl, ht'⟩ := hl t ht
    obtain ⟨t'', rfl, ht''⟩ := hl' t' ht'
    exact ⟨t'', (List.append_assoc _ _ _).symm, ht''⟩
  full := by
    rintro s s' n l hget - t rfl
    obtain ⟨rfl, rfl⟩ := Prod.mk.inj hget
    exact ⟨_, (List.take_append_drop n s).symm, rfl⟩
  le := by
    intro s s' n l hget
    obtain ⟨rfl, -⟩ := Prod.mk.inj hget
    exact List.length_take_le n s

/-- In a state related to a stream, the source delivers that stream, and never comes to an end. -/
def Streams (get : σ → Nat → List α × σ) (T : σ → (Nat → α) → Prop) : Prop :=
  ∀ {s f} (n : Nat), T s f →
    ∃ s', get s n = ((List.range n).map f, s') ∧ T s' fun i => f (n + i)

/-- What a source delivers that delivers a stream stands at the front of that stream. -/
theorem Streams.consumes {get : σ → Nat → List α × σ} {T : σ → (Nat → α) → Prop}
    (h : Streams get T) (hle : ∀ {s s' n l}, get s n = (l, s') → l.length ≤ n) :
    Consumes get fun s l s' =>
      ∀ f, T s f → l = (List.range l.length).map f ∧ T s' fun i => f (l.length + i) where
  nil := by
    intro s f hf
    simpa using hf
  append := by
    intro s s' s'' l l' hl hl' f hf
    obtain ⟨heq, hf'⟩ := hl f hf
    obtain ⟨heq', hf''⟩ := hl' _ hf'
    constructor
    · rw [List.length_append, List.range_add, List.map_append, List.map_map, ← heq]
      exact congrArg (l ++ ·) heq'
    · simpa only [List.length_append, Nat.add_assoc] using hf''
  full := by
    rintro s s' n l hget rfl f hf
    obtain ⟨s'', hget', hf'⟩ := h l.length hf
    obtain ⟨heq, rfl⟩ := Prod.mk.inj (hget.symm.trans hget')
    exact ⟨heq, hf'⟩
  le := hle

/-- The front of a stream is supplied, and behind it the rest of the stream. -/
theorem Streams.supplies {get : σ → Nat → List α × σ} {T : σ → (Nat → α) → Prop}
    (h : Streams get T) (f : Nat → α) (n : Nat) :
    Supplies get fun s l => ∃ k, k + l.length = n ∧
      l = (List.range l.length).map (fun i => f (k + i)) ∧ T s fun i => f (k + i) where
  next := by
    rintro s l l' ⟨k, hk, heq, hs⟩
    rw [List.length_append] at hk heq
    rw [List.range_add, List.map_append, List.map_map] at heq
    obtain ⟨hl, hl'⟩ := List.append_inj heq (by simp)
    obtain ⟨s', hget, hs'⟩ := h l.length hs
    rw [← hl] at hget
    refine ⟨s', hget, k + l.length, by omega, ?_, ?_⟩
    · simpa only [Function.comp_def, Nat.add_assoc] using hl'
    · simpa only [Nat.add_assoc] using hs'

/-! ## Lists that are cut short

A reader that does not notice the end of its input goes on with some element `z`. -/

/-- The stream is the list up to some place, one more element, and then `z` for ever. -/
inductive CutShort (z : α) : List α → (Nat → α) → Prop
  | all {f : Nat → α} : (∀ i, f i = z) → CutShort z [] f
  | cut {x : α} {l : List α} {f : Nat → α} : (∀ i, f (i + 1) = z) → CutShort z (x :: l) f
  | next {x : α} {l : List α} {f : Nat → α} :
      f 0 = x → CutShort z l (fun i => f (i + 1)) → CutShort z (x :: l) f

/-- The cut is behind the front of a list, or it is in it. -/
theorem CutShort.append {z : α} {w l : List α} {f : Nat → α} (h : CutShort z (w ++ l) f) :
    (w = (List.range w.length).map f ∧ CutShort z l fun i => f (w.length + i)) ∨
      ∃ m < w.length, w.take m = (List.range m).map f ∧ ∀ i, m < i → f i = z := by
  induction w generalizing f with
  | nil => exact .inl ⟨rfl, by simpa using h⟩
  | cons x w ih =>
    rw [List.cons_append] at h
    cases h with
    | cut hz =>
      refine .inr ⟨0, by simp, rfl, fun i hi => ?_⟩
      obtain ⟨j, rfl⟩ := Nat.exists_eq_succ_of_ne_zero hi.ne'
      exact hz j
    | next hx hrest =>
      have hfront : ∀ n, (List.range (n + 1)).map f =
          x :: (List.range n).map fun i => f (i + 1) := by
        intro n
        rw [List.range_succ_eq_map, List.map_cons, List.map_map, hx]
        rfl
      rcases ih hrest with ⟨hw, hl⟩ | ⟨m, hm, hw, hz⟩
      · refine .inl ⟨?_, ?_⟩
        · rw [List.length_cons, hfront, ← hw]
        · simpa only [List.length_cons, Nat.add_right_comm] using hl
      · refine .inr ⟨m + 1, by simpa using hm, ?_, fun i hi => ?_⟩
        · rw [hfront, ← hw, List.take_succ_cons]
        · obtain ⟨j, rfl⟩ := Nat.exists_eq_succ_of_ne_zero (Nat.ne_of_gt (Nat.zero_lt_of_lt hi))
          exact hz j (by omega)

/-! ## Sources that work element by element -/

section

variable (step : σ → Option α × σ)

/-- Take `n` elements one by one, unless one of them cannot be had. -/
def takeEach : Nat → σ → Option (List α) × σ
  | 0, s => (some [], s)
  | n + 1, s =>
    match step s with
    | (none, s) => (none, s)
    | (some x, s) =>
      match takeEach n s with
      | (none, s) => (none, s)
      | (some l, s) => (some (x :: l), s)

/-- A source that delivers all the elements it is asked for or none. -/
def eachOrNone (s : σ) (n : Nat) : List α × σ :=
  let r := takeEach step n s
  (r.1.getD [], r.2)

variable {step} {R : σ → List α → Prop}

theorem takeEach_eq (hnext : ∀ {s x l}, R s (x :: l) → ∃ s', step s = (some x, s') ∧ R s' l)
    {l l' : List α} {s : σ} (hs : R s (l ++ l')) :
    ∃ s', takeEach step l.length s = (some l, s') ∧ R s' l' := by
  induction l generalizing s with
  | nil => exact ⟨s, rfl, hs⟩
  | cons x l ih =>
    obtain ⟨s₁, hstep, hs₁⟩ := hnext hs
    obtain ⟨s₂, htake, hs₂⟩ := ih hs₁
    exact ⟨s₂, by simp [takeEach, hstep, htake], hs₂⟩

theorem eachOrNone_feeds {E : σ → Prop}
    (hnext : ∀ {s x l}, R s (x :: l) → ∃ s', step s = (some x, s') ∧ R s' l)
    (hstop : ∀ {s}, R s [] → ∃ s', step s = (none, s') ∧ E s') :
    Feeds (eachOrNone step) R E where
  next := by
    intro s l l' hs
    obtain ⟨s', htake, hs'⟩ := takeEach_eq hnext hs
    exact ⟨s', by simp [eachOrNone, htake], hs'⟩
  stop := by
    intro s hs
    obtain ⟨s', hstep, hs'⟩ := hstop hs
    exact ⟨s', by simp [eachOrNone, takeEach, hstep], hs'⟩

theorem takeEach_length {n : Nat} {s s' : σ} {l : List α}
    (h : takeEach step n s = (some l, s')) : l.length = n := by
  induction n generalizing s s' l with
  | zero =>
    obtain ⟨hl, -⟩ := Prod.mk.inj h
    obtain rfl := Option.some.inj hl
    rfl
  | succ n ih =>
    unfold takeEach at h
    split at h
    · exact absurd h (by simp)
    · split at h
      · exact absurd h (by simp)
      · rename_i l' s₂ htake
        obtain ⟨hl, -⟩ := Prod.mk.inj h
        obtain rfl := Option.some.inj hl
        rw [List.length_cons, ih htake]

theorem eachOrNone_le {n : Nat} {s s' : σ} {l : List α} (h : eachOrNone step s n = (l, s')) :
    l.length ≤ n := by
  obtain ⟨rfl, -⟩ := Prod.mk.inj h
  cases htake : takeEach step n s with
  | mk r s'' =>
    cases r with
    | none => simp
    | some l => simpa using (takeEach_length htake).le

theorem eachOrNone_streams {T : σ → (Nat → α) → Prop}
    (hstep : ∀ {s f}, T s f → ∃ s', step s = (some (f 0), s') ∧ T s' fun i => f (i + 1)) :
    Streams (eachOrNone step) T := by
  have htake : ∀ (n : Nat) {s f}, T s f → ∃ s',
      takeEach step n s = (some ((List.range n).map f), s') ∧ T s' fun i => f (n + i) := by
    intro n
    induction n with
    | zero =>
      intro s f hf
      exact ⟨s, rfl, by simpa using hf⟩
    | succ n ih =>
      intro s f hf
      obtain ⟨s₁, hget, hf₁⟩ := hstep hf
      obtain ⟨s₂, hrest, hf₂⟩ := ih hf₁
      refine ⟨s₂, ?_, ?_⟩
      · simp only [takeEach, hget, hrest]
        rw [List.range_succ_eq_map, List.map_cons, List.map_map]
        rfl
      · simpa only [Nat.add_right_comm] using hf₂
  intro s f n hf
  obtain ⟨s', hget, hf'⟩ := htake n hf
  exact ⟨s', by simp [eachOrNone, hget], hf'⟩

/-- A source each of whose elements lowers a rank. -/
theorem eachOrNone_lowers {rank : σ → Nat}
    (hstep : ∀ {s s' x}, step s = (some x, s') → rank s' ≤ rank s - 1) :
    Consumes (eachOrNone step) fun s l s' => rank s' ≤ rank s - l.length where
  nil := fun s => Nat.le_refl _
  append := by
    intro s s' s'' l l' hl hl'
    rw [List.length_append]
    omega
  full := by
    have htake : ∀ (n : Nat) {s s' l}, takeEach step n s = (some l, s') → rank s' ≤ rank s - n := by
      intro n
      induction n with
      | zero =>
        intro s s' l h
        obtain ⟨-, rfl⟩ := Prod.mk.inj h
        exact Nat.le_refl _
      | succ n ih =>
        intro s s' l h
        unfold takeEach at h
        split at h
        · exact absurd h (by simp)
        · rename_i x s₁ hx
          split at h
          · exact absurd h (by simp)
          · rename_i l' s₂ hrest
            obtain ⟨-, rfl⟩ := Prod.mk.inj h
            have hfirst := hstep hx
            have hothers := ih hrest
            omega
    rintro s s' n l hget rfl
    obtain ⟨hl, rfl⟩ := Prod.mk.inj hget
    cases htaken : takeEach step l.length s with
    | mk r s₁ =>
      cases r with
      | none =>
        rw [htaken] at hl
        obtain rfl : [] = l := hl
        exact absurd htaken (by simp [takeEach])
      | some l' => exact htake _ htaken
  le := eachOrNone_le

/-! ### Sources that run dry -/

/-- From a state, the elements of a list are handed out and then no more. -/
inductive Yields (step : σ → Option α × σ) : σ → List α → Prop
  | stop {s s' : σ} : step s = (none, s') → Yields step s []
  | next {s s' : σ} {x : α} {l : List α} :
      step s = (some x, s') → Yields step s' l → Yields step s (x :: l)

theorem yields_feeds : Feeds (eachOrNone step) (Yields step) fun _ => True := by
  apply eachOrNone_feeds
  · intro s x l h
    cases h with
    | next hstep hrest => exact ⟨_, hstep, hrest⟩
  · intro s h
    cases h with
    | stop hstep => exact ⟨_, hstep, trivial⟩

theorem takeEach_yields {n : Nat} {s s' : σ} {l t : List α}
    (h : takeEach step n s = (some l, s')) (ht : Yields step s t) :
    ∃ t', t = l ++ t' ∧ Yields step s' t' := by
  induction n generalizing s l t with
  | zero =>
    obtain ⟨hl, rfl⟩ := Prod.mk.inj h
    obtain rfl := Option.some.inj hl
    exact ⟨t, rfl, ht⟩
  | succ n ih =>
    unfold takeEach at h
    cases ht with
    | stop hstep =>
      rw [hstep] at h
      exact absurd h (by simp)
    | next hstep hrest =>
      rw [hstep] at h
      simp only at h
      split at h
      · exact absurd h (by simp)
      · rename_i l' s₂ htake
        obtain ⟨hl, rfl⟩ := Prod.mk.inj h
        obtain rfl := Option.some.inj hl
        obtain ⟨t', rfl, hrest'⟩ := ih htake hrest
        exact ⟨t', rfl, hrest'⟩

/-- What was delivered in full stood at the front of what there was. -/
theorem yields_consumes :
    Consumes (eachOrNone step) fun s l s' =>
      ∀ t, Yields step s t → ∃ t', t = l ++ t' ∧ Yields step s' t' where
  nil := fun _ t ht => ⟨t, rfl, ht⟩
  append := by
    intro s s' s'' l l' hl hl' t ht
    obtain ⟨t', rfl, ht'⟩ := hl t ht
    obtain ⟨t'', rfl, ht''⟩ := hl' t' ht'
    exact ⟨t'', (List.append_assoc _ _ _).symm, ht''⟩
  full := by
    intro s s' n l hget hlen t ht
    obtain ⟨hl, rfl⟩ := Prod.mk.inj hget
    cases htake : takeEach step n s with
    | mk r s'' =>
      cases r with
      | none =>
        rw [htake] at hl
        obtain rfl : [] = l := hl
        obtain rfl : 0 = n := hlen
        exact absurd htake (by simp [takeEach])
      | some l' =>
        rw [htake] at hl
        obtain rfl : l' = l := hl
        exact takeEach_yields htake ht
  le := eachOrNone_le

end

/-! ## Sinks -/

/-- Putting two lists one after the other is putting them together. -/
structure Gathers (put : τ → List α → τ) : Prop where
  nil : ∀ t, put t [] = t
  append : ∀ t l l', put (put t l) l' = put t (l ++ l')

theorem append_gathers : Gathers fun (t : List α) l => t ++ l where
  nil := List.append_nil
  append := List.append_assoc

/-- A sink that works element by element. -/
theorem foldl_gathers (f : τ → α → τ) : Gathers fun t l => List.foldl f t l where
  nil := fun _ => rfl
  append := fun _ _ _ => List.foldl_append.symm

end Source
