import Onak.Db4Tables
import Onak.Lib.Bisect

/-!
# Lookups in the db4 backend

The lookups of `keydb_db4.c`, with the key arrays of `keyarray.c` that the search for text collects
its results in. Each lookup gives the keys that it adds to the caller's list; what it returns is
their number. All Berkeley DB operations succeed.
-/

namespace Onak

/-! ## Key arrays -/

/-- `fingerprint_cmp`: by length, then by `memcmp`. -/
def fingerprintCmp (a b : Fingerprint) : Ordering :=
  if a.length < b.length then .lt
  else if b.length < a.length then .gt
  else compare a b

/-- `struct keyarray`. -/
abbrev KeyArray := List Fingerprint

/-- `array_find`. -/
def arrayFind (array : KeyArray) (fp : Fingerprint) : Bool := Bisect.find fingerprintCmp array fp

/-- `array_add`. -/
def arrayAdd (array : KeyArray) (fp : Fingerprint) : KeyArray :=
  Bisect.add fingerprintCmp array fp

/-! ## Lookups -/

/-- `db4_fetch_key`. -/
def Tables.fetchKey (t : Tables) (fp : Fingerprint) : List PublicKey := (t.keydb fp).toList

/-- `db4_fetch_key_id`. A key id that fits into 32 bits is taken for a short one. -/
def Tables.fetchKeyId (t : Tables) (keyid : UInt64) : List PublicKey :=
  (if keyid < 0x100000000 then t.id32db keyid.toUInt32 else t.id64db keyid).filterMap t.fetchKeyFp

/-- `db4_fetch_key_skshash`. -/
def Tables.fetchKeySkshash (t : Tables) (hash : List UInt8) : List PublicKey :=
  ((t.skshashdb hash).bind t.fetchKeyFp).toList

/-- The cursor's walk over the entries of one word. -/
def Tables.textPass (t : Tables) (firstpass : Bool) (keylist : KeyArray) (word : Word) : KeyArray :=
  (t.worddb word).foldl (fun newkeylist fp =>
    if firstpass || arrayFind keylist fp then arrayAdd newkeylist fp else newkeylist) []

/-- The loop of `db4_fetch_key_text` over the words. -/
def Tables.textLoop (t : Tables) : Bool → KeyArray → List Word → KeyArray
  | _, keylist, [] => keylist
  | firstpass, keylist, word :: words =>
    t.textLoop false (t.textPass firstpass keylist word) words

/-- `db4_fetch_key_text`, with `config.maxkeys`. -/
def Tables.fetchKeyText (t : Tables) (maxkeys : Nat) (search : List UInt8) : List PublicKey :=
  ((t.textLoop true [] (makewordlist [] search)).take maxkeys).filterMap t.fetchKeyFp

/-! ## What a search for text is for -/

/-- The keys of the answer are exactly those that are stored and indexed under all words of the
search, each of them once, or `maxkeys` of them if there are more. A search without words has no
answer. -/
def AnswersSearch {ι : Type} (stored : ι → Option PublicKey) (indexed : Word → ι → Prop)
    (maxkeys : Nat) (search : List UInt8) (answer : List PublicKey) : Prop :=
  if wordsOf search = [] then
    answer = []
  else
    answer.Nodup ∧
      (∀ k ∈ answer, ∃ id, stored id = some k ∧ ∀ w ∈ makewordlist [] search, indexed w id) ∧
      answer.length ≤ maxkeys ∧
      (answer.length = maxkeys ∨ ∀ id k, stored id = some k →
        (∀ w ∈ makewordlist [] search, indexed w id) → k ∈ answer)

/-- Of the hits of a search some are looked up one by one. What is found for them is the key of a hit,
never the same key for two of them, and no more than `maxkeys` keys. If it is fewer, no hit that is
stored is left out. -/
structure HitsFound {ι : Type} (stored found : ι → Option PublicKey) (hits looked : List ι)
    (maxkeys : Nat) : Prop where
  hit : ∀ id ∈ looked, ∀ k, found id = some k → ∃ id' ∈ hits, stored id' = some k
  distinct : ∀ id ∈ looked, ∀ id' ∈ looked, ∀ k, found id = some k → found id' = some k → id = id'
  le_maxkeys : looked.countP (fun id => (found id).isSome) ≤ maxkeys
  complete : looked.countP (fun id => (found id).isSome) = maxkeys ∨
    ∀ id ∈ hits, ∀ k, stored id = some k → ∃ id' ∈ looked, found id' = some k

/-- The entries of the word table lead to stored keys. -/
def Tables.IndexStored (t : Tables) : Prop := ∀ w, ∀ f ∈ t.worddb w, (t.keydb f).isSome

/-- The keys are stored under their own fingerprints. -/
def Tables.OwnFps (H : Hashes) (t : Tables) : Prop :=
  ∀ f k, t.keydb f = some k → fingerprint? H k.publickey = some f

/-- The fingerprints that are filed under all words, in their order. -/
def Tables.hits (t : Tables) (words : List Word) : KeyArray :=
  ((words.head?.elim [] t.worddb).filter fun f =>
    words.all fun w => (t.worddb w).contains f).foldl arrayAdd []

/-- `db4_fetch_key_text` looks the first `maxkeys` of the hits up, with `db4_fetch_key_fp`. -/
def Tables.HitsFound (t : Tables) (maxkeys : Nat) (words : List Word) : Prop :=
  Onak.HitsFound t.keydb t.fetchKeyFp (t.hits words) ((t.hits words).take maxkeys) maxkeys

end Onak
