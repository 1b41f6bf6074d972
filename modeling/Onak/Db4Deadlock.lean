import Onak.Db4Tables

/-!
# Deadlocks in the db4 backend

When an operation reports `DB_LOCK_DEADLOCK`, `db4_store_key` and `db4_delete_key` return -1 and
commit the transaction all the same. Here stands when that does no harm: which of the operations
before the deadlock, and behind it, change a table.
-/

namespace Onak

section

variable (deadlocks : Point → Bool) (fp : Fingerprint)

/-- Whether the removal of entry number `i` reports a deadlock when there are `n` such entries. -/
def Entry.strikes (e : Entry) (i n : Nat) : Bool :=
  (e.byCursor && deadlocks (.removeGet i)) ||
    ((!e.byCursor || n != 0) && deadlocks (.removeDel i))

/-- One of the removals, numbered from `i` on, reports a deadlock. A removal finds what the ones
before it have left. -/
def Tables.Struck (t : Tables) (i : Nat) (es : List Entry) : Prop :=
  ∃ (j : Nat) (e : Entry), es[j]? = some e ∧
    e.strikes deadlocks (i + j) (t.found fp e - (es.take j).count e)

/-- None of the removals changes a table when all of them are made. -/
def Tables.Spared (t : Tables) (i : Nat) (es : List Entry) : Prop :=
  ∀ (j : Nat) (e : Entry), es[j]? = some e →
    t.found fp e = 0 ∨ e.strikes deadlocks (i + j) (t.found fp e)

/-- None of the removals changes a table when a deadlock ends them. -/
def Tables.SparedUntil (t : Tables) (i : Nat) (es : List Entry) : Prop :=
  ∀ (j : Nat) (e : Entry), es[j]? = some e → t.found fp e = 0 ∨
    ∃ l ≤ j, ∃ e' : Entry, es[l]? = some e' ∧ e'.strikes deadlocks (i + l) (t.found fp e')

variable (H : Hashes)

/-- The key whose entries `db4_delete_key` removes. -/
def Tables.victim (t : Tables) : Option PublicKey :=
  ((starttrans t).fetchKeyFp deadlocks fp).filter fun k => (getKeyid H k).isSome

/-- The removals of the deletion meet a deadlock. -/
def Tables.DeletionStruck (t : Tables) : Prop :=
  ∃ k, t.victim deadlocks fp H = some k ∧ t.Struck deadlocks fp 0 (keyEntries H k)

/-- The deletion is struck before it changes anything, and nothing that it does after the deadlock
changes anything either. -/
def Tables.DeletionSpared (t : Tables) : Prop :=
  ∀ k, t.victim deadlocks fp H = some k →
    let words := wordEntries k
    let ids := idEntries H k
    t.SparedUntil deadlocks fp 0 words ∧
      (¬ t.Struck deadlocks fp 0 words →
        t.Spared deadlocks fp words.length ids ∧
          (¬ t.Struck deadlocks fp words.length ids →
            t.Spared deadlocks fp (words.length + ids.length) [skshashEntry H k]))

/-- The deletion finds nothing to delete. -/
def Tables.DeletionIdle (t : Tables) : Prop :=
  ∀ k, t.victim deadlocks fp H = some k →
    (∀ e ∈ keyEntries H k, t.found fp e = 0) ∧ (deadlocks .keyDel ∨ t.keydb fp = none)

end

variable (deadlocks : Point → Bool) (H : Hashes)

/-- A deadlock does no harm to the call. -/
def Tables.DeadlockHarmless (t : Tables) : Db4Call → Prop
  | .delete fp => t.DeletionStruck deadlocks fp H → t.DeletionSpared deadlocks fp H
  | .store key update =>
    ∀ keyid fp, getKeyid H key = some keyid → fingerprint? H key.publickey = some fp →
      (update → t.DeletionStruck deadlocks fp H → t.DeletionSpared deadlocks fp H) ∧
      (¬ (update ∧ t.DeletionStruck deadlocks fp H) →
        if deadlocks .keyPut then
          update → t.DeletionIdle deadlocks fp H
        else
          ∀ i < (newEntries H key keyid).length, deadlocks (.insertPut i) = false)

/-- When the call returns -1, what it has committed changes nothing. -/
def Tables.Atomic (t : Tables) (c : Db4Call) : Prop :=
  (t.call deadlocks H c).1 = -1 →
    (t.call deadlocks H c).2.writes = 0 ∧ (t.call deadlocks H c).2.tables = t

end Onak
