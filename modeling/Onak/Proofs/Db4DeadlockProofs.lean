import Onak.Db4Deadlock
import Onak.Proofs.Db4IndexProofs

/-!
# Proofs: deadlocks in the db4 backend

For each loop over entries: when it meets a deadlock, and when it changes nothing. From that, when a
call that returns -1 has committed a change.
-/

namespace Onak

section

variable {deadlocks : Point → Bool} {fp : Fingerprint}

theorem Txn.remove_struck {txn : Txn} {i : Nat} {e : Entry}
    (h : e.strikes deadlocks i (txn.tables.found fp e)) :
    txn.remove deadlocks fp i e = (.deadlock, txn) := by
  unfold Entry.strikes at h
  unfold Txn.remove
  cases hcur : e.byCursor <;> cases hget : deadlocks (.removeGet i) <;> simp_all

theorem Txn.remove_absent {txn : Txn} {i : Nat} {e : Entry}
    (h : ¬ e.strikes deadlocks i (txn.tables.found fp e)) (hfound : txn.tables.found fp e = 0) :
    txn.remove deadlocks fp i e = (.notFound, txn) := by
  unfold Entry.strikes at h
  unfold Txn.remove
  cases hcur : e.byCursor <;> cases hget : deadlocks (.removeGet i) <;> simp_all

theorem Txn.remove_found {txn : Txn} {i : Nat} {e : Entry}
    (h : ¬ e.strikes deadlocks i (txn.tables.found fp e)) (hfound : txn.tables.found fp e ≠ 0) :
    txn.remove deadlocks fp i e = (.ok, ⟨txn.tables.del fp e, txn.writes + 1⟩) := by
  unfold Entry.strikes at h
  unfold Txn.remove
  cases hcur : e.byCursor <;> cases hget : deadlocks (.removeGet i) <;> simp_all

/-! ## What the removals meet -/

theorem Tables.struck_cons {t : Tables} {i : Nat} {e : Entry} {es : List Entry} :
    t.Struck deadlocks fp i (e :: es) ↔
      e.strikes deadlocks i (t.found fp e) ∨ (t.del fp e).Struck deadlocks fp (i + 1) es := by
  have hnext : ∀ (j : Nat) (e' : Entry),
      t.found fp e' - ((e :: es).take (j + 1)).count e' =
        (t.del fp e).found fp e' - (es.take j).count e' := by
    intro j e'
    rw [Tables.found_del, List.take_succ_cons, List.count_cons]
    by_cases h : e = e'
    · simp [h]
      omega
    · simp [h]
  constructor
  · rintro ⟨j, e', hj, hstrike⟩
    cases j with
    | zero =>
      obtain rfl : e = e' := by simpa using hj
      exact Or.inl (by simpa using hstrike)
    | succ j =>
      rw [hnext, ← Nat.add_assoc, Nat.add_right_comm] at hstrike
      exact Or.inr ⟨j, e', by simpa using hj, hstrike⟩
  · rintro (hstrike | ⟨j, e', hj, hstrike⟩)
    · exact ⟨0, e, rfl, by simpa using hstrike⟩
    · refine ⟨j + 1, e', by simpa using hj, ?_⟩
      rw [hnext, ← Nat.add_assoc, Nat.add_right_comm]
      exact hstrike

theorem Tables.struck_append {t : Tables} {i : Nat} {es es' : List Entry} :
    t.Struck deadlocks fp i (es ++ es') ↔
      t.Struck deadlocks fp i es ∨
        (es.foldl (Tables.del · fp) t).Struck deadlocks fp (i + es.length) es' := by
  induction es generalizing t i with
  | nil => simp [Tables.Struck]
  | cons e es ih =>
    rw [List.cons_append, Tables.struck_cons, Tables.struck_cons, ih, or_assoc, List.foldl_cons,
      List.length_cons, Nat.add_right_comm, Nat.add_assoc i es.length 1]

theorem Tables.spared_cons {t : Tables} {i : Nat} {e : Entry} {es : List Entry} :
    t.Spared deadlocks fp i (e :: es) ↔
      (t.found fp e = 0 ∨ e.strikes deadlocks i (t.found fp e)) ∧
        t.Spared deadlocks fp (i + 1) es := by
  constructor
  · intro h
    refine ⟨h 0 e rfl, fun j e' hj => ?_⟩
    have hnext := h (j + 1) e' (by simpa using hj)
    rwa [← Nat.add_assoc, Nat.add_right_comm] at hnext
  · rintro ⟨hhead, htail⟩ j e' hj
    cases j with
    | zero =>
      obtain rfl : e = e' := by simpa using hj
      exact hhead
    | succ j =>
      rw [← Nat.add_assoc, Nat.add_right_comm]
      exact htail j e' (by simpa using hj)

theorem Tables.sparedUntil_cons {t : Tables} {i : Nat} {e : Entry} {es : List Entry} :
    t.SparedUntil deadlocks fp i (e :: es) ↔
      e.strikes deadlocks i (t.found fp e) ∨
        (t.found fp e = 0 ∧ t.SparedUntil deadlocks fp (i + 1) es) := by
  constructor
  · intro h
    by_cases hstrike : e.strikes deadlocks i (t.found fp e)
    · exact Or.inl hstrike
    · -- the first entry does not end the loop, so it is absent and the others come next
      have hhead : ∀ l e', (e :: es)[l]? = some e' →
          e'.strikes deadlocks (i + l) (t.found fp e') → ∃ l', l = l' + 1 := by
        intro l e' hl hl'
        cases l with
        | zero =>
          obtain rfl : e = e' := by simpa using hl
          exact absurd hl' hstrike
        | succ l => exact ⟨l, rfl⟩
      refine Or.inr ⟨?_, fun j e' hj => ?_⟩
      · rcases h 0 e rfl with hfound | ⟨l, hl, e', he', hl'⟩
        · exact hfound
        · obtain ⟨l', rfl⟩ := hhead l e' he' hl'
          omega
      · rcases h (j + 1) e' (by simpa using hj) with hfound | ⟨l, hl, e'', he'', hl'⟩
        · exact Or.inl hfound
        · obtain ⟨l', rfl⟩ := hhead l e'' he'' hl'
          rw [← Nat.add_assoc, Nat.add_right_comm] at hl'
          exact Or.inr ⟨l', by omega, e'', by simpa using he'', hl'⟩
  · rintro (hstrike | ⟨hfound, htail⟩) j e' hj
    · exact Or.inr ⟨0, Nat.zero_le j, e, rfl, hstrike⟩
    · cases j with
      | zero =>
        obtain rfl : e = e' := by simpa using hj
        exact Or.inl hfound
      | succ j =>
        rcases htail j e' (by simpa using hj) with hfound | ⟨l, hl, e'', he'', hl'⟩
        · exact Or.inl hfound
        · rw [Nat.add_right_comm, Nat.add_assoc] at hl'
          exact Or.inr ⟨l + 1, by omega, e'', by simpa using he'', hl'⟩

/-! ## The loops -/

/-- What removals come to: whether they meet a deadlock, what they leave if they meet none, and
whether they leave everything as it was. -/
structure RemovalRun (deadlocks : Point → Bool) (fp : Fingerprint) (i : Nat) (es : List Entry)
    (spared : Prop) (txn : Txn) (r : Bool × Txn) : Prop where
  struck : r.1 = true ↔ txn.tables.Struck deadlocks fp i es
  tables : r.1 = false → r.2.tables = es.foldl (Tables.del · fp) txn.tables
  changed : (spared ∧ r.2 = txn) ∨ (¬ spared ∧ txn.writes < r.2.writes)
  idle : r.1 = false → (spared ↔ ∀ e ∈ es, txn.tables.found fp e = 0)

theorem RemovalRun.nil {i : Nat} {spared : Prop} {txn : Txn} (h : spared) :
    RemovalRun deadlocks fp i [] spared txn (false, txn) :=
  ⟨by simp [Tables.Struck], fun _ => rfl, Or.inl ⟨h, rfl⟩, fun _ => by simp [h]⟩

section

variable {i : Nat} {e : Entry} {es : List Entry} {spared spared' : Prop} {txn : Txn}
  {r : Bool × Txn}

/-- A removal that finds nothing, in front of others. -/
theorem RemovalRun.absent (hrest : RemovalRun deadlocks fp (i + 1) es spared txn r)
    (hstrike : ¬ e.strikes deadlocks i (txn.tables.found fp e))
    (hfound : txn.tables.found fp e = 0) (hspared : spared' ↔ spared) :
    RemovalRun deadlocks fp i (e :: es) spared' txn r := by
  have hdel := txn.tables.del_of_found_eq_zero fp hfound
  refine ⟨?_, ?_, ?_, fun hr => ?_⟩
  · rw [hrest.struck, Tables.struck_cons, hdel]
    exact (or_iff_right hstrike).symm
  · rw [List.foldl_cons, hdel]
    exact hrest.tables
  · rw [hspared]
    exact hrest.changed
  · rw [hspared, hrest.idle hr, List.forall_mem_cons, and_iff_right hfound]

/-- A removal that takes an entry away, in front of others. -/
theorem RemovalRun.found
    (hrest : RemovalRun deadlocks fp (i + 1) es spared
      ⟨txn.tables.del fp e, txn.writes + 1⟩ r)
    (hstrike : ¬ e.strikes deadlocks i (txn.tables.found fp e))
    (hfound : txn.tables.found fp e ≠ 0) (hspared : ¬ spared') :
    RemovalRun deadlocks fp i (e :: es) spared' txn r := by
  refine ⟨?_, hrest.tables, Or.inr ⟨hspared, ?_⟩, fun _ => ?_⟩
  · rw [hrest.struck, Tables.struck_cons]
    exact (or_iff_right hstrike).symm
  · rcases hrest.changed with ⟨_, h⟩ | ⟨_, h⟩
    · rw [h]
      exact Nat.lt_succ_self _
    · exact (Nat.lt_succ_self _).trans h
  · exact iff_of_false hspared fun h => hfound (h e List.mem_cons_self)

theorem RemovalRun.congr (h : RemovalRun deadlocks fp i es spared txn r)
    (hspared : spared ↔ spared') : RemovalRun deadlocks fp i es spared' txn r :=
  propext hspared ▸ h

theorem RemovalRun.not_struck (h : RemovalRun deadlocks fp i es spared txn r)
    (hr : r.1 = false) : ¬ txn.tables.Struck deadlocks fp i es := by
  rw [← h.struck, hr]
  simp

/-- Spared removals leave the transaction as it was. -/
theorem RemovalRun.unchanged (h : RemovalRun deadlocks fp i es spared txn r) (hsp : spared) :
    r.2 = txn := by
  rcases h.changed with ⟨_, htxn⟩ | ⟨hnot, _⟩
  · exact htxn
  · exact absurd hsp hnot

/-- A deadlock ends the removals. -/
theorem RemovalRun.stop {es' : List Entry} (h : RemovalRun deadlocks fp i es spared txn r)
    (hr : r.1 = true) : RemovalRun deadlocks fp i (es ++ es') spared txn r := by
  refine ⟨?_, fun hf => ?_, h.changed, fun hf => ?_⟩
  · rw [Tables.struck_append, ← h.struck]
    exact iff_of_true hr (Or.inl hr)
  · rw [hr] at hf
    cases hf
  · rw [hr] at hf
    cases hf

/-- Removals without a deadlock, with others behind them. -/
theorem RemovalRun.append {es' : List Entry} (spare : Tables → Prop) {r' : Bool × Txn}
    (h : RemovalRun deadlocks fp i es spared txn r) (hr : r.1 = false)
    (h' : RemovalRun deadlocks fp (i + es.length) es' (spare r.2.tables) r.2 r') :
    RemovalRun deadlocks fp i (es ++ es') (spared ∧ spare txn.tables) txn r' := by
  refine ⟨?_, fun hr' => ?_, ?_, fun hr' => ?_⟩
  · rw [Tables.struck_append, or_iff_right (h.not_struck hr), ← h.tables hr]
    exact h'.struck
  · rw [List.foldl_append, ← h.tables hr]
    exact h'.tables hr'
  · rcases h.changed with ⟨hsp, htxn⟩ | ⟨hsp, hlt⟩
    · rw [htxn] at h'
      rw [and_iff_right hsp]
      exact h'.changed
    · refine Or.inr ⟨fun hc => hsp hc.1, ?_⟩
      rcases h'.changed with ⟨_, htxn'⟩ | ⟨_, hlt'⟩
      · rw [htxn']
        exact hlt
      · exact hlt.trans hlt'
  · rw [List.forall_mem_append, ← h.idle hr]
    refine and_congr_right fun hsp => ?_
    rcases h.changed with ⟨_, htxn⟩ | ⟨hnsp, _⟩
    · rw [htxn] at h'
      exact h'.idle hr'
    · exact absurd hsp hnsp

end

variable (deadlocks fp) in
theorem untilDeadlock_remove (i : Nat) (es : List Entry) (txn : Txn) :
    RemovalRun deadlocks fp i es (txn.tables.SparedUntil deadlocks fp i es) txn
      (untilDeadlock (Txn.remove deadlocks fp) i es txn) := by
  induction es generalizing i txn with
  | nil => exact RemovalRun.nil fun j e hj => by simp at hj
  | cons e es ih =>
    rw [untilDeadlock]
    by_cases hstrike : e.strikes deadlocks i (txn.tables.found fp e)
    · rw [Txn.remove_struck hstrike]
      exact ⟨by simp [Tables.struck_cons, hstrike], fun h => by simp at h,
        Or.inl ⟨Tables.sparedUntil_cons.mpr (Or.inl hstrike), rfl⟩, fun h => by simp at h⟩
    · by_cases hfound : txn.tables.found fp e = 0
      · rw [Txn.remove_absent hstrike hfound]
        refine (ih (i + 1) txn).absent hstrike hfound ?_
        rw [Tables.sparedUntil_cons, or_iff_right hstrike, and_iff_right hfound]
      · rw [Txn.remove_found hstrike hfound]
        refine (ih (i + 1) ⟨txn.tables.del fp e, txn.writes + 1⟩).found hstrike hfound ?_
        rw [Tables.sparedUntil_cons, or_iff_right hstrike]
        exact fun h => hfound h.1

variable (deadlocks fp) in
theorem throughDeadlock_remove (i : Nat) (es : List Entry) (txn : Txn) :
    RemovalRun deadlocks fp i es (txn.tables.Spared deadlocks fp i es) txn
      (throughDeadlock (Txn.remove deadlocks fp) i es txn) := by
  induction es generalizing i txn with
  | nil => exact RemovalRun.nil fun j e hj => by simp at hj
  | cons e es ih =>
    rw [throughDeadlock]
    by_cases hstrike : e.strikes deadlocks i (txn.tables.found fp e)
    · rw [Txn.remove_struck hstrike]
      refine ⟨by simp [Tables.struck_cons, hstrike], fun h => by simp at h, ?_,
        fun h => by simp at h⟩
      rw [Tables.spared_cons, and_iff_right (Or.inr hstrike)]
      exact (ih (i + 1) txn).changed
    · by_cases hfound : txn.tables.found fp e = 0
      · rw [Txn.remove_absent hstrike hfound]
        refine (ih (i + 1) txn).absent hstrike hfound ?_
        rw [Tables.spared_cons, and_iff_right (Or.inl hfound)]
      · rw [Txn.remove_found hstrike hfound]
        refine (ih (i + 1) ⟨txn.tables.del fp e, txn.writes + 1⟩).found hstrike hfound ?_
        rw [Tables.spared_cons]
        exact fun h => h.1.elim hfound hstrike

variable (deadlocks fp) in
/-- A single removal is a loop over one entry. -/
theorem remove_run (i : Nat) (e : Entry) (txn : Txn) :
    RemovalRun deadlocks fp i [e] (txn.tables.Spared deadlocks fp i [e]) txn
      ((txn.remove deadlocks fp i e).1 == .deadlock, (txn.remove deadlocks fp i e).2) := by
  have h := throughDeadlock_remove deadlocks fp i [e] txn
  simpa [throughDeadlock] using h

/-! ## Deletions -/

variable {H : Hashes}

variable (deadlocks fp H) in
/-- The removals of `db4_delete_key`, up to the deletion of the key data. -/
def deletionRemovals (k : PublicKey) (txn : Txn) : Bool × Txn :=
  let w := untilDeadlock (Txn.remove deadlocks fp) 0 (wordEntries k) txn
  if w.1 then w
  else
    let i := throughDeadlock (Txn.remove deadlocks fp) (wordEntries k).length (idEntries H k) w.2
    if i.1 then i
    else
      let s := i.2.remove deadlocks fp ((wordEntries k).length + (idEntries H k).length)
        (skshashEntry H k)
      (s.1 == .deadlock, s.2)

theorem deletionSpared_iff {t : Tables} {k : PublicKey} (hk : t.victim deadlocks fp H = some k) :
    t.DeletionSpared deadlocks fp H ↔
      t.SparedUntil deadlocks fp 0 (wordEntries k) ∧
        (¬ t.Struck deadlocks fp 0 (wordEntries k) →
          t.Spared deadlocks fp (wordEntries k).length (idEntries H k) ∧
            (¬ t.Struck deadlocks fp (wordEntries k).length (idEntries H k) →
              t.Spared deadlocks fp ((wordEntries k).length + (idEntries H k).length)
                [skshashEntry H k])) := by
  simp [Tables.DeletionSpared, hk]

theorem deletionRemovals_run {t : Tables} {k : PublicKey}
    (hk : t.victim deadlocks fp H = some k) :
    RemovalRun deadlocks fp 0 (keyEntries H k) (t.DeletionSpared deadlocks fp H) (starttrans t)
      (deletionRemovals deadlocks fp H k (starttrans t)) := by
  have hspared := deletionSpared_iff hk
  obtain ⟨w, hweq⟩ : ∃ w, untilDeadlock (Txn.remove deadlocks fp) 0 (wordEntries k)
    (starttrans t) = w := ⟨_, rfl⟩
  obtain ⟨i, hieq⟩ : ∃ i, throughDeadlock (Txn.remove deadlocks fp) (wordEntries k).length
    (idEntries H k) w.2 = i := ⟨_, rfl⟩
  have hw := untilDeadlock_remove deadlocks fp 0 (wordEntries k) (starttrans t)
  have hi := throughDeadlock_remove deadlocks fp (wordEntries k).length (idEntries H k) w.2
  have hs := remove_run deadlocks fp ((wordEntries k).length + (idEntries H k).length)
    (skshashEntry H k) i.2
  rw [hweq] at hw
  rw [hieq] at hi
  -- while nothing has been removed, the next entries are looked for in the tables of the beginning
  have hsame : t.SparedUntil deadlocks fp 0 (wordEntries k) → w.2.tables = t := fun hsp =>
    congrArg Txn.tables (hw.unchanged hsp)
  unfold deletionRemovals
  simp only [hweq, hieq]
  cases hw1 : w.1 with
  | true =>
    rw [if_pos rfl]
    refine (hw.stop hw1).congr ?_
    rw [hspared]
    exact (and_iff_left fun h => absurd (hw.struck.mp hw1) h).symm
  | false =>
    have hns : ¬ t.Struck deadlocks fp 0 (wordEntries k) := hw.not_struck hw1
    have hwi := hw.append (Tables.Spared deadlocks fp · (wordEntries k).length (idEntries H k))
      hw1 (by rw [Nat.zero_add]; exact hi)
    rw [if_neg Bool.false_ne_true, keyEntries, ← List.append_assoc]
    cases hi1 : i.1 with
    | true =>
      rw [if_pos rfl]
      refine (hwi.stop hi1).congr ?_
      rw [hspared]
      refine and_congr_right fun hsp => ?_
      have hstruck := hi.struck.mp hi1
      rw [hsame hsp] at hstruck
      rw [imp_iff_right hns]
      exact (and_iff_left fun h => absurd hstruck h).symm
    | false =>
      rw [if_neg Bool.false_ne_true]
      refine (hwi.append (Tables.Spared deadlocks fp ·
        ((wordEntries k).length + (idEntries H k).length) [skshashEntry H k]) hi1
        (by rw [List.length_append, Nat.zero_add]; exact hs)).congr ?_
      rw [hspared, and_assoc]
      refine and_congr_right fun hsp => ?_
      have hni := hi.not_struck hi1
      rw [hsame hsp] at hni
      rw [imp_iff_right hns, imp_iff_right hni]
      rfl

theorem deleteKey_no_victim {t : Tables} (hk : t.victim deadlocks fp H = none) :
    (starttrans t).deleteKey deadlocks fp H = (1, starttrans t) := by
  unfold Tables.victim at hk
  unfold Txn.deleteKey
  cases hfetch : (starttrans t).fetchKeyFp deadlocks fp with
  | none => rfl
  | some k =>
    rw [hfetch] at hk
    cases hid : getKeyid H k with
    | none => simp only [hid]
    | some keyid => simp [Option.filter, hid] at hk

/-- With a victim, `db4_delete_key` is its removals and, unless they met a deadlock, the deletion of
the key data. -/
theorem deleteKey_victim {t : Tables} {k : PublicKey} (hk : t.victim deadlocks fp H = some k) :
    ∃ rc : Int, rc ≠ -1 ∧ (starttrans t).deleteKey deadlocks fp H =
      let q := deletionRemovals deadlocks fp H k (starttrans t)
      if q.1 then (-1, q.2) else (rc, q.2.delKey deadlocks fp) := by
  obtain ⟨hfetch, hid⟩ := Option.filter_eq_some_iff.mp hk
  obtain ⟨keyid, hkeyid⟩ := Option.isSome_iff_exists.mp hid
  have hids : keyidEntries keyid ++ subkeyRemovals H k = idEntries H k := by
    simp [idEntries, hkeyid]
  unfold Txn.deleteKey deletionRemovals
  simp only [hfetch, hkeyid, hids]
  generalize untilDeadlock (Txn.remove deadlocks fp) 0 (wordEntries k) (starttrans t) = w
  generalize throughDeadlock (Txn.remove deadlocks fp) (wordEntries k).length (idEntries H k) w.2 = i
  generalize i.2.remove deadlocks fp ((wordEntries k).length + (idEntries H k).length)
    (skshashEntry H k) = s
  refine ⟨if s.1 = .notFound then 1 else 0, by split_ifs <;> simp, ?_⟩
  obtain ⟨wstruck, w⟩ := w
  obtain ⟨istruck, i⟩ := i
  obtain ⟨ret, s⟩ := s
  cases wstruck with
  | true => rfl
  | false =>
    cases istruck with
    | true => rfl
    | false => cases ret <;> rfl

/-- What a deletion comes to. -/
structure DeletionRun (deadlocks : Point → Bool) (fp : Fingerprint) (H : Hashes) (t : Tables)
    (r : Int × Txn) : Prop where
  struck : r.1 = -1 ↔ t.DeletionStruck deadlocks fp H
  spared : t.DeletionStruck deadlocks fp H →
    (t.DeletionSpared deadlocks fp H ∧ r.2 = starttrans t) ∨
      (¬ t.DeletionSpared deadlocks fp H ∧ 0 < r.2.writes)
  idle : ¬ t.DeletionStruck deadlocks fp H →
    (t.DeletionIdle deadlocks fp H ∧ r.2 = starttrans t) ∨
      (¬ t.DeletionIdle deadlocks fp H ∧ 0 < r.2.writes)

variable (deadlocks fp) in
theorem Txn.delKey_cases (txn : Txn) :
    ((deadlocks .keyDel ∨ txn.tables.keydb fp = none) ∧ txn.delKey deadlocks fp = txn) ∨
      (¬ (deadlocks .keyDel ∨ txn.tables.keydb fp = none) ∧
        txn.writes < (txn.delKey deadlocks fp).writes) := by
  unfold Txn.delKey
  cases deadlocks .keyDel <;> cases txn.tables.keydb fp <;> simp

theorem deleteKey_run (t : Tables) :
    DeletionRun deadlocks fp H t ((starttrans t).deleteKey deadlocks fp H) := by
  cases hk : t.victim deadlocks fp H with
  | none =>
    have hns : ¬ t.DeletionStruck deadlocks fp H := by
      rintro ⟨k, hk', _⟩
      rw [hk] at hk'
      cases hk'
    rw [deleteKey_no_victim hk]
    refine ⟨iff_of_false (by simp) hns, fun h => absurd h hns, fun _ => Or.inl ⟨?_, rfl⟩⟩
    intro k hk'
    rw [hk] at hk'
    cases hk'
  | some k =>
    obtain ⟨rc, hrc, heq⟩ := deleteKey_victim hk
    have hrun := deletionRemovals_run hk
    have hstruck : t.DeletionStruck deadlocks fp H ↔
        t.Struck deadlocks fp 0 (keyEntries H k) := by
      simp [Tables.DeletionStruck, hk]
    have hidle : t.DeletionIdle deadlocks fp H ↔
        (∀ e ∈ keyEntries H k, t.found fp e = 0) ∧ (deadlocks .keyDel ∨ t.keydb fp = none) := by
      simp [Tables.DeletionIdle, hk]
    rw [heq]
    generalize deletionRemovals deadlocks fp H k (starttrans t) = q at hrun ⊢
    obtain ⟨hit, txn⟩ := q
    cases hit with
    | true =>
      have hs : t.DeletionStruck deadlocks fp H := hstruck.mpr (hrun.struck.mp rfl)
      exact ⟨iff_of_true rfl hs, fun _ => hrun.changed, fun h => absurd hs h⟩
    | false =>
      have hns : ¬ t.DeletionStruck deadlocks fp H := fun h => hrun.not_struck rfl (hstruck.mp h)
      show DeletionRun deadlocks fp H t (rc, txn.delKey deadlocks fp)
      refine ⟨iff_of_false hrc hns, fun h => absurd h hns, fun _ => ?_⟩
      rw [hidle]
      rcases hrun.changed with ⟨hsp, htxn⟩ | ⟨hsp, hlt⟩
      · have hall := (hrun.idle rfl).mp hsp
        simp only at htxn
        rw [htxn]
        rcases Txn.delKey_cases deadlocks fp (starttrans t) with ⟨hdel, h⟩ | ⟨hdel, h⟩
        · exact Or.inl ⟨⟨hall, hdel⟩, h⟩
        · exact Or.inr ⟨fun hc => hdel hc.2, h⟩
      · refine Or.inr ⟨fun hc => hsp ((hrun.idle rfl).mpr hc.1), ?_⟩
        rcases Txn.delKey_cases deadlocks fp txn with ⟨_, h⟩ | ⟨_, h⟩
        · rw [h]
          exact hlt
        · exact hlt.trans h

/-! ## Insertions -/

theorem exists_lt_add {P : Nat → Prop} {a b : Nat} :
    (∃ j < a + b, P j) ↔ (∃ j < a, P j) ∨ ∃ j < b, P (a + j) := by
  constructor
  · rintro ⟨j, hj, h⟩
    by_cases hja : j < a
    · exact Or.inl ⟨j, hja, h⟩
    · obtain ⟨l, rfl⟩ := Nat.exists_eq_add_of_le (Nat.le_of_not_lt hja)
      exact Or.inr ⟨l, by omega, h⟩
  · rintro (⟨j, hj, h⟩ | ⟨j, hj, h⟩)
    · exact ⟨j, by omega, h⟩
    · exact ⟨a + j, by omega, h⟩

/-- What `n` insertions, numbered from `i` on, come to. -/
structure InsertionRun (deadlocks : Point → Bool) (i n : Nat) (txn : Txn) (r : Bool × Txn) :
    Prop where
  struck : r.1 = true ↔ ∃ j < n, deadlocks (.insertPut (i + j)) = true
  writes : txn.writes ≤ r.2.writes

theorem exists_insertPut_succ {i n : Nat} :
    (∃ j < n + 1, deadlocks (.insertPut (i + j)) = true) ↔
      deadlocks (.insertPut i) = true ∨ ∃ j < n, deadlocks (.insertPut (i + 1 + j)) = true := by
  rw [Nat.add_comm n 1, exists_lt_add]
  simp [Nat.add_assoc]

variable (deadlocks fp) in
theorem untilDeadlock_insert (i : Nat) (es : List Entry) (txn : Txn) :
    InsertionRun deadlocks i es.length txn
      (untilDeadlock (Txn.insert deadlocks fp) i es txn) := by
  induction es generalizing i txn with
  | nil => exact ⟨by simp [untilDeadlock], le_rfl⟩
  | cons e es ih =>
    rw [untilDeadlock, Txn.insert]
    cases hput : deadlocks (.insertPut i) with
    | true => exact ⟨iff_of_true rfl (exists_insertPut_succ.mpr (Or.inl hput)), le_rfl⟩
    | false =>
      have hrest := ih (i + 1) ⟨txn.tables.put fp e, txn.writes + 1⟩
      refine ⟨?_, (Nat.le_succ _).trans hrest.writes⟩
      rw [List.length_cons, exists_insertPut_succ, hput]
      exact hrest.struck.trans (or_iff_right Bool.false_ne_true).symm

variable (deadlocks fp) in
theorem throughDeadlock_insert (i : Nat) (es : List Entry) (txn : Txn) :
    InsertionRun deadlocks i es.length txn
      (throughDeadlock (Txn.insert deadlocks fp) i es txn) := by
  induction es generalizing i txn with
  | nil => exact ⟨by simp [throughDeadlock], le_rfl⟩
  | cons e es ih =>
    rw [throughDeadlock, Txn.insert]
    cases hput : deadlocks (.insertPut i) with
    | true =>
      exact ⟨iff_of_true rfl (exists_insertPut_succ.mpr (Or.inl hput)), (ih (i + 1) txn).writes⟩
    | false =>
      have hrest := ih (i + 1) ⟨txn.tables.put fp e, txn.writes + 1⟩
      refine ⟨?_, (Nat.le_succ _).trans hrest.writes⟩
      rw [List.length_cons, exists_insertPut_succ, hput]
      exact hrest.struck.trans (or_iff_right Bool.false_ne_true).symm

variable (deadlocks fp) in
theorem insert_run (i : Nat) (e : Entry) (txn : Txn) :
    InsertionRun deadlocks i 1 txn
      ((txn.insert deadlocks fp i e).1 == .deadlock, (txn.insert deadlocks fp i e).2) := by
  have h := throughDeadlock_insert deadlocks fp i [e] txn
  simpa [throughDeadlock] using h

theorem addKey_keyPut {txn : Txn} {k : PublicKey} {keyid : UInt64} (h : deadlocks .keyPut = true) :
    txn.addKey deadlocks fp H k keyid = (-1, txn) := by
  simp [Txn.addKey, h]

variable (fp H) in
/-- Behind the key data, every deadlock comes too late. -/
theorem addKey_run (txn : Txn) (k : PublicKey) (keyid : UInt64) (h : deadlocks .keyPut = false) :
    ((txn.addKey deadlocks fp H k keyid).1 = -1 ↔
        ∃ j < (newEntries H k keyid).length, deadlocks (.insertPut j) = true) ∧
      txn.writes < (txn.addKey deadlocks fp H k keyid).2.writes := by
  have hh := untilDeadlock_insert deadlocks fp 0 (wordEntries k ++ keyidEntries keyid)
    (txn.putKey fp (reread k))
  unfold Txn.addKey
  simp only [h, Bool.false_eq_true, if_false]
  generalize untilDeadlock (Txn.insert deadlocks fp) 0 (wordEntries k ++ keyidEntries keyid)
    (txn.putKey fp (reread k)) = r at hh ⊢
  have hs := throughDeadlock_insert deadlocks fp (wordEntries k ++ keyidEntries keyid).length
    (subkeyInsertions H k) r.2
  generalize throughDeadlock (Txn.insert deadlocks fp)
    (wordEntries k ++ keyidEntries keyid).length (subkeyInsertions H k) r.2 = r' at hs ⊢
  have hwrites : txn.writes < r.2.writes := Nat.lt_of_succ_le hh.writes
  have hlen : (newEntries H k keyid).length =
      (wordEntries k ++ keyidEntries keyid).length + ((subkeyInsertions H k).length + 1) := by
    simp only [newEntries, List.length_append, List.length_singleton]
  rw [hlen, exists_lt_add, exists_lt_add]
  obtain ⟨hit, txn₁⟩ := r
  obtain ⟨hit', txn₂⟩ := r'
  cases hit with
  | true =>
    obtain ⟨j, hj, hput⟩ := hh.struck.mp rfl
    rw [Nat.zero_add] at hput
    exact ⟨iff_of_true rfl (Or.inl ⟨j, hj, hput⟩), hwrites⟩
  | false =>
    have hheads : ¬ ∃ j < (wordEntries k ++ keyidEntries keyid).length,
        deadlocks (.insertPut j) = true := by
      intro hput
      have hstruck := hh.struck.mpr (by simpa only [Nat.zero_add] using hput)
      cases hstruck
    rw [or_iff_right hheads]
    cases hit' with
    | true =>
      exact ⟨iff_of_true rfl (Or.inl (hs.struck.mp rfl)), hwrites.trans_le hs.writes⟩
    | false =>
      have hsubs := fun hput => Bool.false_ne_true (hs.struck.mpr hput)
      have hlast := insert_run deadlocks fp
        ((wordEntries k ++ keyidEntries keyid).length + (subkeyInsertions H k).length)
        (skshashEntry H k) txn₂
      rw [or_iff_right hsubs]
      simp only [← Nat.add_assoc]
      generalize (txn₂.insert deadlocks fp
        ((wordEntries k ++ keyidEntries keyid).length + (subkeyInsertions H k).length)
        (skshashEntry H k)) = last at hlast ⊢
      refine ⟨?_, (hwrites.trans_le hs.writes).trans_le hlast.writes⟩
      rw [← hlast.struck]
      by_cases hret : last.1 = .deadlock <;> simp [hret]

/-! ## Calls -/

theorem DeletionRun.atomic_iff {t : Tables} {r : Int × Txn}
    (h : DeletionRun deadlocks fp H t r) :
    (r.1 = -1 → r.2.writes = 0 ∧ r.2.tables = t) ↔
      (t.DeletionStruck deadlocks fp H → t.DeletionSpared deadlocks fp H) := by
  rw [h.struck]
  refine forall_congr' fun hstruck => ?_
  rcases h.spared hstruck with ⟨hsp, htxn⟩ | ⟨hsp, hlt⟩
  · rw [htxn]
    exact iff_of_true ⟨rfl, rfl⟩ hsp
  · refine iff_of_false (fun hw => ?_) hsp
    have hzero := hw.1
    omega

/-- The part behind the deletion, which has left `txn`. -/
theorem addKey_atomic_iff {t : Tables} {txn : Txn} {k : PublicKey} {keyid : UInt64} {idle : Prop}
    (hidle : (idle ∧ txn = starttrans t) ∨ (¬ idle ∧ 0 < txn.writes)) :
    ((txn.addKey deadlocks fp H k keyid).1 = -1 →
        (txn.addKey deadlocks fp H k keyid).2.writes = 0 ∧
          (txn.addKey deadlocks fp H k keyid).2.tables = t) ↔
      if deadlocks .keyPut then idle
      else ∀ i < (newEntries H k keyid).length, deadlocks (.insertPut i) = false := by
  cases hput : deadlocks .keyPut with
  | true =>
    rw [addKey_keyPut hput, if_pos rfl, imp_iff_right rfl]
    rcases hidle with ⟨hi, htxn⟩ | ⟨hi, hlt⟩
    · rw [htxn]
      exact iff_of_true ⟨rfl, rfl⟩ hi
    · refine iff_of_false (fun hw => ?_) hi
      have hzero : txn.writes = 0 := hw.1
      omega
  | false =>
    obtain ⟨hrc, hlt⟩ := addKey_run fp H txn k keyid hput
    rw [if_neg Bool.false_ne_true, hrc]
    constructor
    · intro h i hi
      cases hi' : deadlocks (.insertPut i) with
      | false => rfl
      | true =>
        have hzero := (h ⟨i, hi, hi'⟩).1
        omega
    · rintro h ⟨j, hj, hj'⟩
      rw [h j hj] at hj'
      cases hj'

theorem storeKey_of_none {txn : Txn} {k : PublicKey} {u : Bool}
    (h : getKeyid H k = none ∨ fingerprint? H k.publickey = none) :
    txn.storeKey deadlocks H k u = (0, txn) := by
  unfold Txn.storeKey
  rcases h with h | h
  · rw [h]
  · rw [h]
    cases getKeyid H k <;> rfl

theorem storeKey_of_some {txn : Txn} {k : PublicKey} {u : Bool} {keyid : UInt64}
    (hid : getKeyid H k = some keyid) (hf : fingerprint? H k.publickey = some fp) :
    txn.storeKey deadlocks H k u =
      let r := if u then txn.deleteKey deadlocks fp H else (0, txn)
      if r.1 = -1 then (-1, r.2) else r.2.addKey deadlocks fp H k keyid := by
  unfold Txn.storeKey
  rw [hid, hf]

theorem store_atomic_iff {t : Tables} {k : PublicKey} {u : Bool} {keyid : UInt64}
    (hid : getKeyid H k = some keyid) (hf : fingerprint? H k.publickey = some fp) :
    t.Atomic deadlocks H (.store k u) ↔
      (u → t.DeletionStruck deadlocks fp H → t.DeletionSpared deadlocks fp H) ∧
      (¬ (u ∧ t.DeletionStruck deadlocks fp H) →
        if deadlocks .keyPut then u → t.DeletionIdle deadlocks fp H
        else ∀ i < (newEntries H k keyid).length, deadlocks (.insertPut i) = false) := by
  unfold Tables.Atomic
  show (((starttrans t).storeKey deadlocks H k u).1 = -1 →
    ((starttrans t).storeKey deadlocks H k u).2.writes = 0 ∧
      ((starttrans t).storeKey deadlocks H k u).2.tables = t) ↔ _
  rw [storeKey_of_some hid hf]
  cases u with
  | false =>
    simp only [Bool.false_eq_true, if_false, false_and, not_false_eq_true, true_imp_iff,
      false_imp_iff, true_and]
    exact addKey_atomic_iff (Or.inl ⟨trivial, rfl⟩)
  | true =>
    have hdel : DeletionRun deadlocks fp H t ((starttrans t).deleteKey deadlocks fp H) :=
      deleteKey_run t
    simp only [if_true, true_and, true_imp_iff]
    by_cases hstruck : t.DeletionStruck deadlocks fp H
    · have hrc := hdel.struck.mpr hstruck
      rw [if_pos hrc, and_iff_left fun h => absurd hstruck h, ← hdel.atomic_iff, hrc]
    · have hrc := hdel.struck.not.mpr hstruck
      rw [if_neg hrc, imp_iff_right hstruck, and_iff_right (fun h => absurd h hstruck)]
      exact addKey_atomic_iff (hdel.idle hstruck)

variable (deadlocks H) in
/-- A call that returns -1 has committed no change exactly if the deadlock is harmless. -/
theorem call_atomic_iff (t : Tables) (c : Db4Call) :
    t.Atomic deadlocks H c ↔ t.DeadlockHarmless deadlocks H c := by
  cases c with
  | delete fp => exact (deleteKey_run t).atomic_iff
  | store key update =>
    have hnone : getKeyid H key = none ∨ fingerprint? H key.publickey = none →
        t.Atomic deadlocks H (.store key update) := by
      intro h hrc
      change ((starttrans t).storeKey deadlocks H key update).1 = -1 at hrc
      rw [storeKey_of_none h] at hrc
      exact absurd hrc (by simp)
    cases hid : getKeyid H key with
    | none =>
      refine iff_of_true (hnone (Or.inl hid)) fun keyid fp hkeyid _ => ?_
      rw [hid] at hkeyid
      cases hkeyid
    | some keyid =>
      cases hf : fingerprint? H key.publickey with
      | none =>
        refine iff_of_true (hnone (Or.inr hf)) fun keyid fp _ hfp => ?_
        rw [hf] at hfp
        cases hfp
      | some fp =>
        rw [store_atomic_iff hid hf]
        constructor
        · intro h keyid' fp' hkeyid hfp
          obtain rfl := Option.some.inj (hid.symm.trans hkeyid)
          obtain rfl := Option.some.inj (hf.symm.trans hfp)
          exact h
        · intro h
          exact h keyid fp hid hf

/-- The first word of a new key meets a deadlock: the key data is committed. -/
theorem call_commits_part :
    ¬ emptyTables.Atomic (fun p => p = .insertPut 0) sampleSksHashes (.store sampleAl false) := by
  intro h
  have hrc : (emptyTables.call (fun p => p = .insertPut 0) sampleSksHashes
      (.store sampleAl false)).1 = -1 := by
    decide
  have hwrites := (h hrc).1
  revert hwrites
  decide

end

end Onak
