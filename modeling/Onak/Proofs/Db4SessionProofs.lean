import Onak.Db4Session
import Onak.Lib.Wp

/-!
# Proofs: transactions of the db4 backend

A part that runs inside a transaction leaves the context as it is, so each function is a start, such a
part and an end. `db4_fetch_key_id` and `db4_delete_key` miss the end on one early return each; besides,
`db4_delete_key` uses cursors, and the key that it has fetched, without a look at whether they are there.
-/

namespace Onak.Db4Session

open Wp

/-! ## The start and the end -/

/-- The context of an open database without a transaction. -/
def idle : PrivCtx := ⟨true, false⟩

/-- The context in a transaction. -/
def busy : PrivCtx := ⟨true, true⟩

theorem needs_logAssert (expr : Bool) : Needs (logAssert expr) (expr = true) () := by
  cases expr with
  | false => exact (needs_throw _ ()).congr (by simp)
  | true => exact (needs_pure ()).congr (by simp)

theorem needs_useCursor (opened : Bool) : Needs (useCursor opened) (opened = true) () := by
  cases opened with
  | false => exact (needs_throw _ ()).congr (by simp)
  | true => exact (needs_pure ()).congr (by simp)

@[simp]
theorem wp_starttrans {Q : Unit → PrivCtx → Prop} : wp starttrans Q idle ↔ Q () busy := by
  unfold starttrans
  simp only [wp_bind, wp_get, needs_logAssert _ _ _, wp_set]
  simp [idle, busy]

@[simp]
theorem wp_endtrans {Q : Unit → PrivCtx → Prop} : wp endtrans Q busy ↔ Q () idle := by
  unfold endtrans
  simp only [wp_bind, wp_get, needs_logAssert _ _ _, wp_set]
  simp [idle, busy]

/-! ## Lookups -/

variable (H : Hashes) (db : Answers)

/-- What a lookup finds, if it counts. -/
def Answers.found (n : Nat) (fingerprint : Fingerprint) (dosubkey : Bool) : Option (List PublicKey) :=
  if (lookup db n fingerprint dosubkey).1 = .ok then some (lookup db n fingerprint dosubkey).2 else none

theorem needs_fetchKeyInt (n : Nat) (fingerprint : Fingerprint) (dosubkey : Bool) :
    Needs (fetchKeyInt db n fingerprint true dosubkey) True (db.found n fingerprint dosubkey) :=
  needs_pure _

theorem wp_fetchKeyInt (n : Nat) (fingerprint : Fingerprint) (dosubkey : Bool)
    {Q : Option (List PublicKey) → PrivCtx → Prop} :
    wp (fetchKeyInt db n fingerprint false dosubkey) Q idle ↔
      Q (db.found n fingerprint dosubkey) idle := by
  unfold fetchKeyInt
  simp only [Bool.false_eq_true, if_false, wp_bind, wp_starttrans, wp_endtrans, wp_pure]
  rfl

theorem gives_fetchAll (n : Nat) (fingerprints : List Fingerprint) :
    Gives (fetchAll db n fingerprints) := by
  induction fingerprints generalizing n with
  | nil => exact gives_pure []
  | cons fingerprint fingerprints ih =>
    exact .bind ⟨_, needs_fetchKeyInt db n fingerprint true⟩ fun found =>
      (ih (n + 1)).bind fun rest => gives_pure _

theorem wp_textLoop (n : Nat) (firstpass : Bool) (keylist : KeyArray) (words : List Word) :
    ∃ keylist', ∀ Q, wp (textLoop db n firstpass keylist words) Q idle ↔ Q keylist' idle := by
  induction words generalizing n firstpass keylist with
  | nil => exact ⟨keylist, fun Q => wp_pure⟩
  | cons word words ih =>
    by_cases hcursor : db.code (.wordCursor n) ≠ .ok
    · refine ⟨keylist, fun Q => ?_⟩
      rw [textLoop, if_pos hcursor]
      simp only [wp_bind, wp_starttrans, wp_endtrans, wp_pure]
    · obtain ⟨keylist', hloop⟩ := ih (n + 1) false (textPass firstpass keylist word (db.words n word))
      refine ⟨keylist', fun Q => ?_⟩
      rw [textLoop, if_neg hcursor]
      simp only [wp_bind, wp_starttrans, wp_endtrans, hloop]

theorem wp_fetchKeyText (maxkeys : Nat) (search : List UInt8) :
    ∃ found, ∀ Q, wp (fetchKeyText db maxkeys search) Q idle ↔ Q found idle := by
  obtain ⟨keylist, hloop⟩ := wp_textLoop db 0 true [] (makewordlist [] search)
  obtain ⟨found, hfound⟩ := gives_fetchAll db 0 (keylist.take maxkeys)
  refine ⟨found, fun Q => ?_⟩
  unfold fetchKeyText
  simp only [wp_bind, hloop, wp_starttrans, hfound _ _, true_and, wp_endtrans, wp_pure]

/-- Without its cursor, `db4_fetch_key_id` returns in its transaction. -/
theorem wp_fetchKeyId (keyid : UInt64) :
    ∃ found, ∀ Q, (∀ a, ¬ Q a busy) →
      (wp (fetchKeyId db keyid false) Q idle ↔ db.code (idCursor keyid) = .ok ∧ Q found idle) := by
  obtain ⟨found, hfound⟩ := gives_fetchAll db 0 (db.ids keyid)
  refine ⟨found, fun Q hbusy => ?_⟩
  unfold fetchKeyId
  by_cases hcursor : db.code (idCursor keyid) = .ok
  · simp only [hcursor, Bool.false_eq_true, if_false, ne_eq, not_true_eq_false, wp_bind, wp_starttrans,
      hfound _ _, true_and, wp_endtrans, wp_pure]
  · simp only [hcursor, Bool.false_eq_true, if_false, ne_eq, not_false_eq_true, if_true, wp_bind,
      wp_starttrans, wp_pure, hbusy, false_and]

/-! ## Loops over entries -/

/-- One of the return codes for a list of entries is a deadlock. -/
def struck (ret : Nat → Entry → Code) : Nat → List Entry → Bool
  | _, [] => false
  | i, e :: es => ret i e = .deadlock || struck ret (i + 1) es

theorem needs_untilDeadlock {op : Nat → Entry → Session Code} {ret : Nat → Entry → Code} {c : Prop}
    {es : List Entry} (hop : ∀ i, ∀ e ∈ es, Needs (op i e) c (ret i e)) (i : Nat) :
    Needs (untilDeadlock op i es) (es ≠ [] → c) (struck ret i es) := by
  induction es generalizing i with
  | nil => exact (needs_pure false).congr (by simp)
  | cons e es ih =>
    have hrest := ih (fun i e he => hop i e (List.mem_cons_of_mem _ he)) (i + 1)
    intro Q s
    rw [untilDeadlock, wp_bind, hop i e List.mem_cons_self]
    by_cases hret : ret i e = .deadlock
    · simp [hret, struck]
    · simp only [hret, if_false, hrest _ _, struck, decide_false, Bool.false_or, ne_eq,
        List.cons_ne_nil, not_false_eq_true, true_imp_iff]
      exact ⟨fun ⟨hc, _, hQ⟩ => ⟨hc, hQ⟩, fun ⟨hc, hQ⟩ => ⟨hc, fun _ => hc, hQ⟩⟩

theorem needs_throughDeadlock {op : Nat → Entry → Session Code} {ret : Nat → Entry → Code}
    {c : Entry → Prop} {es : List Entry} (hop : ∀ i, ∀ e ∈ es, Needs (op i e) (c e) (ret i e)) (i : Nat) :
    Needs (throughDeadlock op i es) (∀ e ∈ es, c e) (struck ret i es) := by
  induction es generalizing i with
  | nil => exact (needs_pure false).congr (by simp)
  | cons e es ih =>
    have hrest := ih (fun i e he => hop i e (List.mem_cons_of_mem _ he)) (i + 1)
    intro Q s
    rw [throughDeadlock, wp_bind, hop i e List.mem_cons_self]
    simp only [wp_bind, hrest _ _, wp_pure, List.forall_mem_cons, and_assoc, struck]

/-- What the removal of an entry reports. -/
def Answers.removed (i : Nat) (e : Entry) : Code :=
  if e.byCursor then
    if db.code (.entryGet i e) = .ok then db.code (.entryDel i e) else db.code (.entryGet i e)
  else
    db.code (.entryDel i e)

theorem needs_remove (opened : Entry → Bool) (i : Nat) (e : Entry) :
    Needs (remove db opened i e) (e.byCursor = true → opened e = true) (db.removed i e) := by
  intro Q s
  cases hcursor : e.byCursor with
  | false => simp [remove, Answers.removed, hcursor]
  | true =>
    simp only [remove, Answers.removed, hcursor, if_true, wp_bind, needs_useCursor _ _ _, wp_pure,
      true_imp_iff]

/-! ## Deleting -/

theorem wordEntries_nil {publickey : PublicKey} (h : publickey.uids = []) :
    wordEntries publickey = [] := by
  rw [wordEntries, keywords, keyuids, h]
  rfl

theorem byCursor_wordEntries {publickey : PublicKey} {e : Entry} (he : e ∈ wordEntries publickey) :
    e.byCursor = true := by
  obtain ⟨w, -, rfl⟩ := List.mem_map.mp he
  rfl

theorem needs_removeWords (publickey : PublicKey) :
    Needs (removeWords db publickey) (publickey.uids ≠ [] → db.code (.wordCursor 0) = .ok)
      (struck db.removed 0 (wordEntries publickey)) := by
  unfold removeWords
  by_cases huids : publickey.uids = []
  · rw [if_pos huids, wordEntries_nil huids]
    exact (needs_pure false).congr (by simp [huids])
  · rw [if_neg huids]
    have hremove (i : Nat) (e : Entry) (he : e ∈ wordEntries publickey) :
        Needs (remove db (fun _ => decide (db.code (.wordCursor 0) = .ok)) i e)
          (db.code (.wordCursor 0) = .ok) (db.removed i e) :=
      (needs_remove db _ i e).congr (by simp [byCursor_wordEntries he])
    intro Q s
    simp only [wp_bind, needs_untilDeadlock hremove 0 _ _, needs_useCursor _ _ _, wp_pure,
      decide_eq_true_eq, huids, ne_eq, not_false_eq_true, true_imp_iff]
    exact ⟨fun h => h.2, fun h => ⟨fun _ => h.1, h⟩⟩

/-- All entries for key ids and subkeys. -/
theorem needs_removeIds (publickey : PublicKey) (keyid : UInt64) :
    Needs (removeIds H db publickey keyid)
      (db.code .id32Cursor = .ok ∧ db.code .id64Cursor = .ok)
      (struck db.removed (wordEntries publickey).length
        (keyidEntries keyid ++ subkeyRemovals H publickey)) := by
  unfold removeIds
  intro Q s
  simp only [wp_bind, needs_throughDeadlock (fun i e _ => needs_remove db (idCursors db) i e) _ _ _,
    needs_useCursor _ _ _, wp_pure, decide_eq_true_eq]
  constructor
  · rintro ⟨-, h64, h32, hQ⟩
    exact ⟨⟨h32, h64⟩, hQ⟩
  · rintro ⟨⟨h32, h64⟩, hQ⟩
    refine ⟨fun e _ _ => ?_, h64, h32, hQ⟩
    unfold idCursors
    cases e <;> simp [h32, h64]

theorem gives_removeSkshash (publickey : PublicKey) (keyid : UInt64) :
    Gives (removeSkshash H db publickey keyid) := by
  unfold removeSkshash
  refine gives_ite (.bind ?_ fun ret => gives_pure _) (gives_pure _)
  exact ⟨_, (needs_remove db (fun _ => true) _ _).congr (by simp)⟩

/-- The cursors that the removal of a key's entries uses are open. The key ids come behind the words, if
there was no deadlock. -/
def Answers.CursorsOpen (publickey : PublicKey) : Prop :=
  (publickey.uids ≠ [] → db.code (.wordCursor 0) = .ok) ∧
    (struck db.removed 0 (wordEntries publickey) = false →
      db.code .id32Cursor = .ok ∧ db.code .id64Cursor = .ok)

theorem needs_removeKey (publickey : PublicKey) (keyid : UInt64) :
    ∃ ret, Needs (removeKey H db publickey keyid) (db.CursorsOpen publickey) ret := by
  obtain ⟨⟨deadlock, ret⟩, hskshash⟩ := gives_removeSkshash H db publickey keyid
  have hwords := needs_removeWords db publickey
  have hids := needs_removeIds H db publickey keyid
  unfold removeKey Answers.CursorsOpen
  cases hword : struck db.removed 0 (wordEntries publickey) with
  | true =>
    refine ⟨-1, fun Q s => ?_⟩
    rw [wp_bind, hwords, hword, if_pos rfl, wp_pure]
    simp
  | false =>
    cases hid : struck db.removed (wordEntries publickey).length
        (keyidEntries keyid ++ subkeyRemovals H publickey) with
    | true =>
      refine ⟨-1, fun Q s => ?_⟩
      rw [wp_bind, hwords, hword, if_neg Bool.false_ne_true, wp_bind, hids, hid, if_pos rfl, wp_pure]
      simp [and_assoc]
    | false =>
      refine ⟨if deadlock then -1 else if ret = .notFound then 1 else 0, fun Q s => ?_⟩
      rw [wp_bind, hwords, hword, if_neg Bool.false_ne_true, wp_bind, hids, hid,
        if_neg Bool.false_ne_true, wp_bind, hskshash, wp_pure]
      simp [and_assoc]

/-- What a deletion finds is a key, and the cursors that it uses are open. -/
def Answers.DeletionRuns (fp : Fingerprint) : Prop :=
  ∀ keys, db.found 0 fp true = some keys → ∃ publickey, keys.head? = some publickey ∧
    ((getKeyid H publickey).isSome → db.CursorsOpen publickey)

/-- What a deletion finds has a key id. -/
def Answers.DeletionNamed (fp : Fingerprint) : Prop :=
  ∀ keys publickey, db.found 0 fp true = some keys → keys.head? = some publickey →
    (getKeyid H publickey).isSome

section

variable {H db} {fp : Fingerprint}

theorem deletionRuns_none (hfound : db.found 0 fp true = none) : db.DeletionRuns H fp := by
  intro keys hkeys
  rw [hfound] at hkeys
  cases hkeys

theorem deletionNamed_none (hfound : db.found 0 fp true = none) : db.DeletionNamed H fp := by
  intro keys publickey hkeys
  rw [hfound] at hkeys
  cases hkeys

theorem not_deletionRuns_nil (hfound : db.found 0 fp true = some []) : ¬ db.DeletionRuns H fp := by
  intro h
  obtain ⟨publickey, hhead, -⟩ := h [] hfound
  cases hhead

variable {publickey : PublicKey} {rest : List PublicKey}
  (hfound : db.found 0 fp true = some (publickey :: rest))
include hfound

theorem deletionRuns_iff :
    db.DeletionRuns H fp ↔ ((getKeyid H publickey).isSome → db.CursorsOpen publickey) := by
  constructor
  · intro h
    obtain ⟨_, hhead, hopen⟩ := h _ hfound
    cases hhead
    exact hopen
  · intro hopen keys hkeys
    rw [hfound] at hkeys
    cases hkeys
    exact ⟨publickey, rfl, hopen⟩

theorem deletionNamed_iff : db.DeletionNamed H fp ↔ (getKeyid H publickey).isSome := by
  constructor
  · intro h
    exact h _ publickey hfound rfl
  · intro hsome keys publickey' hkeys hhead
    rw [hfound] at hkeys
    cases hkeys
    cases hhead
    exact hsome

end

/-- In a transaction of its caller, a deletion leaves it open. -/
theorem needs_deleteKey (fp : Fingerprint) :
    ∃ ret, Needs (deleteKey H db fp true) (db.DeletionRuns H fp) ret := by
  have hfetch := needs_fetchKeyInt db 0 fp true
  unfold deleteKey fetchKeyFp
  match hfound : db.found 0 fp true with
  | none =>
    refine ⟨1, fun Q s => ?_⟩
    simp only [if_true, wp_bind, wp_pure, hfetch _ _, hfound, deletionRuns_none hfound]
  | some [] =>
    refine ⟨1, fun Q s => ?_⟩
    simp only [if_true, wp_bind, hfetch _ _, hfound, not_deletionRuns_nil hfound, wp_throw, false_and,
      and_false]
  | some (publickey :: rest) =>
    cases hkeyid : getKeyid H publickey with
    | none =>
      refine ⟨1, fun Q s => ?_⟩
      simp only [if_true, wp_bind, wp_pure, hfetch _ _, hfound, deletionRuns_iff hfound, hkeyid,
        Option.isSome_none, Bool.false_eq_true, false_imp_iff]
    | some keyid =>
      obtain ⟨ret, hremove⟩ := needs_removeKey H db publickey keyid
      refine ⟨ret, fun Q s => ?_⟩
      simp only [if_true, wp_bind, wp_pure, hfetch _ _, hfound, deletionRuns_iff hfound, hkeyid,
        hremove _ _, Option.isSome_some, true_imp_iff, true_and]

/-- When what it finds has no key id, a deletion returns in its transaction. -/
theorem wp_deleteKey (fp : Fingerprint) :
    ∃ ret, ∀ Q, (∀ a, ¬ Q a busy) →
      (wp (deleteKey H db fp false) Q idle ↔
        (db.DeletionRuns H fp ∧ db.DeletionNamed H fp) ∧ Q ret idle) := by
  have hfetch := needs_fetchKeyInt db 0 fp true
  unfold deleteKey fetchKeyFp
  match hfound : db.found 0 fp true with
  | none =>
    refine ⟨1, fun Q hbusy => ?_⟩
    simp only [Bool.false_eq_true, if_false, wp_bind, wp_starttrans, hfetch _ _, hfound, wp_endtrans,
      wp_pure, deletionRuns_none hfound, deletionNamed_none hfound, true_and]
  | some [] =>
    refine ⟨1, fun Q hbusy => ?_⟩
    simp only [Bool.false_eq_true, if_false, wp_bind, wp_starttrans, hfetch _ _, hfound, wp_throw,
      not_deletionRuns_nil hfound, false_and, and_false]
  | some (publickey :: rest) =>
    cases hkeyid : getKeyid H publickey with
    | none =>
      refine ⟨1, fun Q hbusy => ?_⟩
      simp only [Bool.false_eq_true, if_false, wp_bind, wp_starttrans, hfetch _ _, hfound, hkeyid, wp_pure,
        hbusy, deletionNamed_iff hfound, Option.isSome_none, and_false, false_and]
    | some keyid =>
      obtain ⟨ret, hremove⟩ := needs_removeKey H db publickey keyid
      refine ⟨ret, fun Q hbusy => ?_⟩
      simp only [Bool.false_eq_true, if_false, wp_bind, wp_starttrans, hfetch _ _, hfound, hkeyid, wp_pure,
        hremove _ _, wp_endtrans, deletionRuns_iff hfound, deletionNamed_iff hfound, Option.isSome_some,
        true_imp_iff, true_and, and_true]

/-! ## Storing -/

theorem gives_addKey (publickey : PublicKey) (keyid : UInt64) (fingerprint : Fingerprint) :
    Gives (addKey H db publickey keyid fingerprint) := by
  have hinsert (es : List Entry) (i : Nat) (e : Entry) (_ : e ∈ es) :
      Needs (insert db i e) True (db.code (.entryPut i e)) :=
    needs_pure _
  have huntil (es : List Entry) : Gives (untilDeadlock (insert db) 0 es) :=
    ⟨_, (needs_untilDeadlock (hinsert es) 0).congr (by simp)⟩
  have hthrough (es : List Entry) (i : Nat) : Gives (throughDeadlock (insert db) i es) :=
    ⟨_, (needs_throughDeadlock (hinsert es) i).congr (by simp)⟩
  unfold addKey
  refine gives_ite (gives_pure _) (.bind (huntil _) fun _ => gives_ite (gives_pure _) ?_)
  refine .bind (hthrough _ _) fun _ => gives_ite (gives_pure _) ?_
  exact .bind ⟨_, needs_pure _⟩ fun _ => gives_pure _

theorem needs_replaceKey (publickey : PublicKey) (keyid : UInt64) (fingerprint : Fingerprint)
    (update : Bool) :
    ∃ deadlock, Needs (replaceKey H db publickey keyid fingerprint update)
      (update = true → db.DeletionRuns H fingerprint) deadlock := by
  obtain ⟨deadlock, hadd⟩ := gives_addKey H db publickey keyid fingerprint
  unfold replaceKey
  cases update with
  | false => exact ⟨deadlock, hadd.congr (by simp)⟩
  | true =>
    obtain ⟨deleted, hdelete⟩ := needs_deleteKey H db fingerprint
    obtain ⟨deadlock, hrest⟩ :
        Gives (if deleted = -1 then pure true else addKey H db publickey keyid fingerprint) :=
      gives_ite (gives_pure true) ⟨deadlock, hadd⟩
    exact ⟨deadlock, (hdelete.bind fun _ => hrest).congr (by simp)⟩

/-- The deletion that storing a key with `update` starts with. -/
def Answers.UpdateRuns (publickey : PublicKey) : Prop :=
  ∀ keyid fingerprint, getKeyid H publickey = some keyid →
    fingerprint? H publickey.publickey = some fingerprint → db.DeletionRuns H fingerprint

theorem wp_storeKey (publickey : PublicKey) (update : Bool) :
    ∃ ret, ∀ Q, wp (storeKey H db publickey false update) Q idle ↔
      (update = true → db.UpdateRuns H publickey) ∧ Q ret idle := by
  have hnone (h : getKeyid H publickey = none ∨ fingerprint? H publickey.publickey = none) :
      db.UpdateRuns H publickey := by
    intro keyid fingerprint hkeyid hfp
    rcases h with h | h
    · rw [h] at hkeyid
      cases hkeyid
    · rw [h] at hfp
      cases hfp
  unfold storeKey
  match hkeyid : getKeyid H publickey, hfp : fingerprint? H publickey.publickey with
  | none, _ =>
    refine ⟨0, fun Q => ?_⟩
    simp only [wp_pure, hnone (.inl hkeyid), implies_true, true_and]
  | some keyid, none =>
    refine ⟨0, fun Q => ?_⟩
    simp only [wp_pure, hnone (.inr hfp), implies_true, true_and]
  | some keyid, some fingerprint =>
    have hupdate : db.UpdateRuns H publickey ↔ db.DeletionRuns H fingerprint := by
      constructor
      · intro h
        exact h keyid fingerprint hkeyid hfp
      · intro h keyid' fingerprint' _ hfp'
        rw [hfp] at hfp'
        cases hfp'
        exact h
    obtain ⟨deadlock, hreplace⟩ := needs_replaceKey H db publickey keyid fingerprint update
    refine ⟨if deadlock then -1 else 0, fun Q => ?_⟩
    simp only [Bool.false_eq_true, if_false, wp_bind, wp_starttrans, hreplace _ _, hupdate, wp_endtrans,
      wp_pure]

/-! ## Runs -/

/-- The condition under which a call returns without a transaction. -/
def Call.Balanced : Call → Prop
  | .fetchKey _ | .fetchKeyFp _ | .fetchKeyText _ => True
  | .fetchKeyId keyid => db.code (idCursor keyid) = .ok
  | .storeKey publickey update => update = true → db.UpdateRuns H publickey
  | .deleteKey fp => db.DeletionRuns H fp ∧ db.DeletionNamed H fp

variable (maxkeys : Nat)

theorem wp_run (call : Call) :
    ∃ ret, ∀ Q, (∀ a, ¬ Q a busy) →
      (wp (call.run H db maxkeys) Q idle ↔ call.Balanced H db ∧ Q ret idle) := by
  cases call with
  | fetchKey fingerprint =>
    refine ⟨(db.found 0 fingerprint false).toList.length, fun Q _ => ?_⟩
    simp only [Call.run, fetchKey, wp_bind, wp_fetchKeyInt, wp_pure, Call.Balanced, true_and]
  | fetchKeyFp fingerprint =>
    refine ⟨(db.found 0 fingerprint true).toList.length, fun Q _ => ?_⟩
    simp only [Call.run, fetchKeyFp, wp_bind, wp_fetchKeyInt, wp_pure, Call.Balanced, true_and]
  | fetchKeyId keyid =>
    obtain ⟨found, hfetch⟩ := wp_fetchKeyId db keyid
    refine ⟨found.length, fun Q hbusy => ?_⟩
    rw [Call.run, wp_bind, hfetch _ fun a => by rw [wp_pure]; exact hbusy _, wp_pure]
    rfl
  | fetchKeyText search =>
    obtain ⟨found, hfetch⟩ := wp_fetchKeyText db maxkeys search
    refine ⟨found.length, fun Q _ => ?_⟩
    rw [Call.run, wp_bind, hfetch, wp_pure, Call.Balanced, true_and]
  | storeKey publickey update =>
    obtain ⟨ret, hstore⟩ := wp_storeKey H db publickey update
    exact ⟨ret, fun Q _ => hstore Q⟩
  | deleteKey fp =>
    obtain ⟨ret, hdelete⟩ := wp_deleteKey H db fp
    exact ⟨ret, hdelete⟩

/-- The requests are made one after the other, and each of the calls returns with no transaction open. -/
def EachCloses : List Request → PrivCtx → Prop
  | [], _ => True
  | request :: requests, privctx =>
    wp (request.call.run H request.answers maxkeys)
      (fun _ privctx => privctx.txn = false ∧ EachCloses requests privctx) privctx

/-- **When transactions are bracketed.** Every call of a run returns with no transaction open, so that no
assertion fails, if and only if every call meets its condition. -/
theorem eachCloses_iff (requests : List Request) :
    EachCloses H maxkeys requests idle ↔ ∀ request ∈ requests, request.call.Balanced H request.answers := by
  induction requests with
  | nil => simp [EachCloses]
  | cons request requests ih =>
    obtain ⟨ret, hrun⟩ := wp_run H request.answers maxkeys request.call
    rw [EachCloses, hrun _ fun a h => Bool.noConfusion h.1, ih, List.forall_mem_cons]
    exact and_congr_right fun _ => and_iff_right rfl

/-- No operation succeeds. -/
def lockedOut : Answers := ⟨fun _ => .other 12, fun _ => [], fun _ _ => [], fun _ => [], fun _ _ => []⟩

/-- A lookup by key id whose cursor cannot be opened. -/
theorem fetchKeyId_uncursored :
    ¬ ∀ (H : Hashes) (maxkeys : Nat) (requests : List Request), EachCloses H maxkeys requests idle := by
  intro hall
  have hclosed := hall ⟨fun _ => [], fun _ => [], fun _ => []⟩ 0 [⟨.fetchKeyId 1, lockedOut⟩]
  obtain ⟨found, hrun⟩ := wp_fetchKeyId lockedOut 1
  rw [EachCloses, Call.run, wp_bind, hrun _ fun a h => ?_] at hclosed
  · exact absurd hclosed.1 (by decide)
  · rw [wp_pure] at h
    exact Bool.noConfusion h.1

/-- The next call fails the assertion that no transaction is open. -/
example : (do
    discard <| fetchKeyId lockedOut 1 false
    fetchKey lockedOut 0 [] false).run idle = .error .assertion :=
  rfl

/-! ## A working database -/

section

variable (t : Tables)

theorem found_tables (n : Nat) (fp : Fingerprint) :
    (tablesAnswers t).found n fp true = (t.fetchKeyFp fp).map fun key => [key] := by
  unfold Answers.found lookup Tables.fetchKeyFp db4FetchKeyFp tablesAnswers
  cases hkey : t.keydb fp with
  | some key => simp [hkey]
  | none =>
    cases howner : t.subkeydb fp with
    | none =>
      simp [hkey, howner]
      rfl
    | some owner =>
      cases hfound : t.keydb owner with
      | none =>
        simp [hkey, howner, hfound]
        exact hfound
      | some key =>
        simp [hkey, howner, hfound]
        exact hfound

theorem needs_fetchAll_tables (n : Nat) (fps : List Fingerprint) :
    Needs (fetchAll (tablesAnswers t) n fps) True
      ((fps.filterMap t.fetchKeyFp).map fun key => [key]) := by
  induction fps generalizing n with
  | nil => exact needs_pure _
  | cons fp fps ih =>
    intro Q s
    rw [fetchAll, fetchKeyFp, wp_bind, needs_fetchKeyInt, true_and, wp_bind, ih, true_and, wp_pure,
      found_tables, true_and]
    cases hfound : t.fetchKeyFp fp <;> simp [hfound]

theorem textPass_tables (firstpass : Bool) (keylist : KeyArray) (n : Nat) (word : Word) :
    textPass firstpass keylist word ((tablesAnswers t).words n word) =
      t.textPass firstpass keylist word := by
  have hword (entry : Word × Fingerprint) (hentry : entry ∈ (t.worddb word).map fun fp => (word, fp)) :
      decide (entry.1 = word) = true := by
    obtain ⟨fp, -, rfl⟩ := List.mem_map.mp hentry
    exact decide_eq_true rfl
  unfold textPass Tables.textPass tablesAnswers
  rw [List.takeWhile_eq_self_iff.mpr hword, List.foldl_map]

theorem wp_textLoop_tables (n : Nat) (firstpass : Bool) (keylist : KeyArray) (words : List Word)
    (Q : KeyArray → PrivCtx → Prop) :
    wp (textLoop (tablesAnswers t) n firstpass keylist words) Q idle ↔
      Q (t.textLoop firstpass keylist words) idle := by
  induction words generalizing n firstpass keylist with
  | nil => exact wp_pure
  | cons word words ih =>
    have hcursor : ¬ (tablesAnswers t).code (.wordCursor n) ≠ .ok := not_not.mpr rfl
    rw [textLoop, if_neg hcursor, textPass_tables, Tables.textLoop]
    simp only [wp_bind, wp_starttrans, wp_endtrans, ih]

end

end Onak.Db4Session
