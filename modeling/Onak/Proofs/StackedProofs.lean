import Onak.Stacked
import Onak.Proofs.Db4FetchProofs
import Onak.Proofs.CleanCountProofs

/-!
# Proofs: lookups in a stack of backends

When the first backend answers, the loop ends behind its first round, and the comparison of `cur`
with the head of the list still finds them different.
-/

namespace Onak

section

variable {H : Hashes} {g : Stale} {C : SigCheck} {policies : Policies}

/-! ## Cleaning -/

variable (H g C policies) in
theorem cleanLoop_length_le (D : Lookups) (count : Nat) (keys : List PublicKey) :
    (cleanLoop H g C D policies count keys).1.length ≤ keys.length := by
  induction keys generalizing count with
  | nil => exact Nat.le_refl 0
  | cons key keys ih =>
    simp only [cleanLoop]
    split_ifs
    · exact Nat.le_succ_of_le (ih count)
    · exact Nat.le_succ_of_le (ih _)
    · exact Nat.le_succ_of_le (ih _)
    · exact Nat.succ_le_succ (ih _)
    · exact Nat.succ_le_succ (ih _)

/-- A key that is dropped makes the list shorter. -/
theorem cleankeys_length_lt {D : Lookups} {key : PublicKey} (keys : List PublicKey)
    (h : (cleankeys H g C D policies [key]).1 = []) :
    (cleankeys H g C D policies (key :: keys)).1.length < (key :: keys).length := by
  have hrest : ∀ count, (cleanLoop H g C D policies count keys).1.length < (key :: keys).length :=
    fun count => Nat.lt_succ_of_le (cleanLoop_length_le H g C policies D count keys)
  simp only [cleankeys, cleanLoop] at h ⊢
  split_ifs at h ⊢
  · exact hrest _
  · exact hrest _
  · exact hrest _

/-- A list that cleaning leaves as it is keeps its first key. -/
theorem cleankeys_head_kept {D : Lookups} {key : PublicKey} {keys : List PublicKey}
    (h : (cleankeys H g C D policies (key :: keys)).1 = key :: keys) :
    (cleankeys H g C D policies [key]).1 ≠ [] := by
  intro hdropped
  have hlt := cleankeys_length_lt keys hdropped
  rw [h] at hlt
  exact Nat.lt_irrefl _ hlt

/-! ## The loop -/

/-- A backend that answers ends the loop, with `cur` behind it. -/
theorem stackedLoop_answered {ctx : DbCtx} {request : FetchRequest} {keys : List PublicKey}
    (answered : (ctx.answer request keys).1 ≠ 0) (cur : List DbCtx) :
    stackedLoop request 0 keys (ctx :: cur) =
      ((ctx.answer request keys).1, (ctx.answer request keys).2, cur) := by
  rw [stackedLoop, if_pos rfl]
  cases cur with
  | nil => rfl
  | cons backend cur => simp only [stackedLoop, if_neg answered]

/-! ## Storing -/

/-- A backend stays as it is all the time while keys are stored exactly if it does for each of them. -/
theorem DbCtx.storeAll_iff (ctx : DbCtx) (intrans : Bool) (keys : List PublicKey) :
    (∀ ctx' ∈ ctx.storeAll intrans keys, ctx' = ctx) ↔ ∀ key ∈ keys, ctx.store intrans key = ctx := by
  induction keys with
  | nil => simp [DbCtx.storeAll]
  | cons key keys ih =>
    have hcons : ctx.storeAll intrans (key :: keys) =
        ctx :: (ctx.store intrans key).storeAll intrans keys := List.scanl_cons
    have hhead : ctx.store intrans key ∈ (ctx.store intrans key).storeAll intrans keys := by
      cases keys <;> simp [DbCtx.storeAll]
    rw [hcons, List.forall_mem_cons, List.forall_mem_cons]
    constructor
    · rintro ⟨-, hrest⟩
      have hstore := hrest _ hhead
      rw [hstore] at hrest
      exact ⟨hstore, ih.mp hrest⟩
    · rintro ⟨hstore, hrest⟩
      rw [hstore]
      exact ⟨rfl, ih.mpr hrest⟩

/-! ## Lookups -/

variable (H g C policies) in
theorem StackedDbCtx.lookup_eq (S : StackedDbCtx) (request : FetchRequest) (keys : List PublicKey) :
    S.lookup H g C policies request keys =
      stackedFetch H g C policies S request request.intrans keys := by
  cases request <;> rfl

/-- The lookup when the first backend answers. -/
theorem lookup_answered {S : StackedDbCtx} {request : FetchRequest}
    {keys : List PublicKey} (answered : (S.first.answer request keys).1 ≠ 0) :
    S.lookup H g C policies request keys =
      if S.storeOnFallback then
        let stored := storeOnFallback H g C policies S (S.first.answer request keys).2
          request.intrans
        ⟨(S.first.answer request keys).1, stored.1, stored.2⟩
      else
        ⟨(S.first.answer request keys).1, some (S.first.answer request keys).2, [S]⟩ := by
  rw [StackedDbCtx.lookup_eq, stackedFetch, StackedDbCtx.backends, stackedLoop_answered answered]
  simp only [ne_eq, List.length_cons, Nat.left_eq_add, Nat.succ_ne_self, not_false_eq_true,
    and_true]

variable (H g C policies) in
/-- What is behind the caller's pointer is the list as it was exactly if cleaning keeps it. -/
theorem storeOnFallback_keys_iff (S : StackedDbCtx) (publickey : List PublicKey) (intrans : Bool) :
    (storeOnFallback H g C policies S publickey intrans).1 = some publickey ↔
      (cleankeys H g C S.first.lookups policies publickey).1 = publickey := by
  cases publickey with
  | nil => simp [storeOnFallback, cleankeys, cleanLoop]
  | cons key keys =>
    simp only [storeOnFallback]
    constructor
    · intro h
      split_ifs at h
      exact Option.some.inj h
    · intro h
      rw [if_neg (cleankeys_head_kept h), h]

theorem onlyReads_of_not_stored {S : StackedDbCtx} (hflag : S.storeOnFallback = false)
    {request : FetchRequest} {keys : List PublicKey}
    (answered : (S.first.answer request keys).1 ≠ 0) :
    S.OnlyReads H g C policies request keys := by
  unfold StackedDbCtx.OnlyReads
  rw [lookup_answered answered, hflag]
  refine ⟨fun S' hS' => ?_, rfl⟩
  rw [List.mem_singleton.mp hS']

/-- A list of keys is left as it is by cleaning exactly if each of the keys is. -/
theorem cleankeys_eq_iff (D : Lookups) (keys : List PublicKey) :
    (cleankeys H g C D policies keys).1 = keys ↔ ∀ key ∈ keys, spared H g C D policies key = true := by
  rw [cleankeys_fst_eq_iff, List.countP_eq_zero]
  refine forall₂_congr fun key _ => ?_
  rw [touched_eq_not_spared, Bool.not_eq_true, Bool.not_eq_false']

theorem onlyReads_iff_of_stored {S : StackedDbCtx} (hflag : S.storeOnFallback = true)
    {request : FetchRequest} {keys : List PublicKey}
    (answered : (S.first.answer request keys).1 ≠ 0) :
    S.OnlyReads H g C policies request keys ↔
      ∀ key ∈ (S.first.answer request keys).2,
        spared H g C S.first.lookups policies key = true ∧
          S.first.store request.intrans key = S.first := by
  have hkeys := storeOnFallback_keys_iff H g C policies S (S.first.answer request keys).2
    request.intrans
  have hstates : ∀ keys', (∀ S' ∈ (S.first.storeAll request.intrans keys').map fun first =>
      { S with first := first }, S'.backends = S.backends) ↔
        ∀ key ∈ keys', S.first.store request.intrans key = S.first := by
    intro keys'
    rw [← DbCtx.storeAll_iff, List.forall_mem_map]
    simp only [StackedDbCtx.backends, List.cons.injEq, and_true]
  unfold StackedDbCtx.OnlyReads
  rw [lookup_answered answered, hflag]
  simp only [if_true]
  rw [forall₂_and, ← cleankeys_eq_iff, hkeys]
  constructor
  · rintro ⟨hstack, hclean⟩
    simp only [storeOnFallback, hclean] at hstack
    exact ⟨hclean, (hstates _).mp hstack⟩
  · rintro ⟨hclean, hidle⟩
    refine ⟨?_, hclean⟩
    simp only [storeOnFallback, hclean]
    exact (hstates _).mpr hidle

/-- A lookup that the first backend answers only reads if keys are not stored at all, or if each of the
keys is one that cleaning leaves alone and that the first backend can store over itself. -/
theorem stacked_onlyReads_iff (S : StackedDbCtx) (request : FetchRequest) (keys : List PublicKey)
    (answered : (S.first.answer request keys).1 ≠ 0) :
    S.OnlyReads H g C policies request keys ↔
      S.storeOnFallback = false ∨ ∀ key ∈ (S.first.answer request keys).2,
        spared H g C S.first.lookups policies key = true ∧
          S.first.store request.intrans key = S.first := by
  cases hflag : S.storeOnFallback with
  | false => exact iff_of_true (onlyReads_of_not_stored hflag answered) (Or.inl rfl)
  | true =>
    rw [onlyReads_iff_of_stored hflag answered]
    simp

/-- The db4 backend with the key of "Al", on its own in a stack. -/
def sampleStack (storeOnFallback : Bool) : StackedDbCtx :=
  ⟨db4Ctx sampleSksHashes 128 (Tables.afterAll sampleSksHashes [.store sampleAl false]), [],
    storeOnFallback⟩

/-- No cleaning beyond what is always done. -/
def noPolicies : Policies := ⟨false, false, false, false, false, false, 0, 0⟩

/-- "Al" is found by fingerprint, and not stored again. -/
theorem stacked_onlyReads_sample :
    ((sampleStack false).first.answer (.fetchKeyFp (sampleFp sampleAl) false) []).1 ≠ 0 ∧
      (sampleStack false).OnlyReads sampleSksHashes zeroStale noCheck noPolicies
        (.fetchKeyFp (sampleFp sampleAl) false) [] := by
  have answered :
      ((sampleStack false).first.answer (.fetchKeyFp (sampleFp sampleAl) false) []).1 ≠ 0 := by
    decide
  exact ⟨answered, (stacked_onlyReads_iff _ _ _ answered).mpr (Or.inl rfl)⟩

/-! ## With db4 in front -/

/-- Storing adds the entries for the key ids, also when they are there already. -/
theorem Tables.count_id64db_store (t : Tables) {k : PublicKey} {fp : Fingerprint} {keyid : UInt64}
    (hf : fingerprint? H k.publickey = some fp) (hid : getKeyid H k = some keyid) (id : UInt64)
    (f : Fingerprint) :
    ((t.after H (.store k false)).id64db id).count f =
      (t.id64db id).count f + if f = fp then (newEntries H k keyid).count (.id64 id) else 0 := by
  rw [t.after_store_new hid hf]
  exact count_dups_foldl_put fp (newEntries H k keyid)
    { t with keydb := t.keydb.put fp (reread k) } f (show (Entry.id64 id).isDup = true from rfl)

/-- A key with a key id that is stored leaves a trace. -/
theorem db4Ctx_store_ne {maxkeys : Nat} {t : Tables} {intrans : Bool} {k : PublicKey}
    {fp : Fingerprint} (hf : fingerprint? H k.publickey = some fp) (hid : (getKeyid H k).isSome) :
    (db4Ctx H maxkeys t).store intrans k ≠ db4Ctx H maxkeys t := by
  intro heq
  obtain ⟨keyid, hkeyid⟩ := Option.isSome_iff_exists.mp hid
  have hdb : t.after H (.store k false) = t := eq_of_heq (DbCtx.mk.inj heq).2.1
  have hcount := t.count_id64db_store hf hkeyid keyid fp
  have hpos : 0 < (newEntries H k keyid).count (.id64 keyid) :=
    List.count_pos_iff.mpr (by simp [newEntries, keyidEntries])
  rw [hdb, if_pos rfl] at hcount
  omega

/-- What a lookup of the db4 backend finds is stored. -/
theorem Tables.find_stored {t : Tables} {maxkeys : Nat} {request : FetchRequest} {k : PublicKey}
    (h : k ∈ t.find maxkeys request) : ∃ fp, t.keydb fp = some k := by
  have hfp : ∀ {fp}, t.fetchKeyFp fp = some k → ∃ fp, t.keydb fp = some k := by
    intro fp hfetch
    rcases Tables.fetchKeyFp_cases hfetch with hk | ⟨_, p, _, hk⟩
    · exact ⟨fp, hk⟩
    · exact ⟨p, hk⟩
  cases request with
  | fetchKey fp intrans => exact ⟨fp, Option.mem_toList.mp h⟩
  | fetchKeyFp fp intrans => exact hfp (Option.mem_toList.mp h)
  | fetchKeyId keyid intrans =>
    obtain ⟨fp, _, hfetch⟩ := List.mem_filterMap.mp h
    exact hfp hfetch
  | fetchKeyText search =>
    obtain ⟨fp, _, hfetch⟩ := List.mem_filterMap.mp h
    exact hfp hfetch
  | fetchKeySkshash hash =>
    obtain ⟨fp, _, hfetch⟩ := Option.bind_eq_some_iff.mp (Option.mem_toList.mp h)
    exact hfp hfetch

/-- With db4 in front every lookup that it answers writes to it, unless keys are not stored at
all. -/
theorem db4_first_onlyReads_iff {S : StackedDbCtx} {t : Tables} {maxkeys : Nat} (hs : t.Sound H)
    (hfirst : S.first = db4Ctx H maxkeys t) {request : FetchRequest}
    (answered : (S.first.answer request []).1 ≠ 0) :
    S.OnlyReads H g C policies request [] ↔ S.storeOnFallback = false := by
  refine ⟨fun hreads => ?_, fun hflag => onlyReads_of_not_stored hflag answered⟩
  cases hflag : S.storeOnFallback with
  | false => rfl
  | true =>
    have hkeys := (onlyReads_iff_of_stored hflag answered).mp hreads
    rw [hfirst] at answered hkeys
    have hanswer : ((db4Ctx H maxkeys t).answer request []).2 = t.find maxkeys request := rfl
    cases hfind : t.find maxkeys request with
    | nil =>
      refine absurd ?_ answered
      show ((t.find maxkeys request).length : Int) = 0
      rw [hfind]
      rfl
    | cons k keys =>
      obtain ⟨fp, hk⟩ := t.find_stored (show k ∈ t.find maxkeys request by simp [hfind])
      have hstore := (hkeys k (by rw [hanswer, hfind]; exact List.mem_cons_self)).2
      exact absurd hstore
        (db4Ctx_store_ne (hs.consistent.keydb_fp hk) (hs.consistent.keydb_keyid hk))

end

/-- "Al" is found in the first backend, and the lookup files it there a second time. -/
theorem stacked_hit_writes :
    ((sampleStack true).first.answer (.fetchKeyFp (sampleFp sampleAl) false) []).1 ≠ 0 ∧
      ¬ (sampleStack true).OnlyReads sampleSksHashes zeroStale noCheck noPolicies
        (.fetchKeyFp (sampleFp sampleAl) false) [] := by
  have answered :
      ((sampleStack true).first.answer (.fetchKeyFp (sampleFp sampleAl) false) []).1 ≠ 0 := by
    decide
  have hsound : (Tables.afterAll sampleSksHashes [.store sampleAl false]).Sound sampleSksHashes :=
    afterAll_sound (by decide)
  refine ⟨answered, fun hreads => ?_⟩
  exact absurd ((db4_first_onlyReads_iff hsound rfl answered).mp hreads) (by decide)

end Onak
