import Onak.Db4Fetch
import Onak.Lib.HardLinks

/-!
# The fs backend

`keydb_fs.c`: a file for each key under its key id, with hard links to it under the words of its
user ids, the ids of its subkeys and its SKS hash. The lock is left out, and so are the directories,
which are made as they are needed. A file is known by the key that is read back from it.
-/

namespace Onak

open HardLinks

/-- The paths that `keypath`, `wordpath`, `subkeypath` and `skshashpath` build. Each of them can be
read off the text: the hash of a word is a function of the word, and the upper directories of a key
id are made of its lower half. -/
inductive Path where
  | key (keyid : UInt64)
  | word (w : Word) (keyid : UInt64)
  | subkey (keyid : UInt64)
  | skshash (hash : List UInt8)
deriving DecidableEq

/-- What is below the location of the database. -/
abbrev Fs := Disk Path PublicKey

/-- What the file system decides. -/
structure Volume where
  /-- Whether the directory of a word can be made; its name may be too long. -/
  fits : Word → Bool
  /-- The order in which `readdir` comes across the names in a directory. -/
  order : List UInt64 → List UInt64
  order_perm : ∀ names, (order names).Perm names
  /-- What is read back when a key is written over the start of a file that is not truncated. -/
  overlay : PublicKey → PublicKey → PublicKey

/-! ## Directories -/

/-- The name of a path in `keydir`. -/
def Path.inKeydir (short : UInt32) : Path → Option UInt64
  | .key keyid => if keyid.toUInt32 = short then some keyid else none
  | _ => none

/-- The name of a path in `subkeydir`. -/
def Path.inSubkeydir (short : UInt32) : Path → Option UInt64
  | .subkey keyid => if keyid.toUInt32 = short then some keyid else none
  | _ => none

/-- The name of a path in `worddir`. -/
def Path.inWorddir (word : Word) : Path → Option UInt64
  | .word w keyid => if w = word then some keyid else none
  | _ => none

section

variable (V : Volume)

/-- The names that `readdir` returns, as numbers. -/
def Fs.names (fs : Fs) (name : Path → Option UInt64) : List UInt64 :=
  V.order (fs.links.keys.filterMap name)

/-- `fs_getfullkeyid`: the first name in the directory, or else in that of the subkeys. -/
def fsGetfullkeyid (fs : Fs) (keyid : UInt64) : UInt64 :=
  let ret := (fs.names V (Path.inKeydir keyid.toUInt32)).headD 0
  if ret = 0 then (fs.names V (Path.inSubkeydir keyid.toUInt32)).headD 0 else ret

/-! ## Lookups -/

/-- `fs_fetch_key_id`. -/
def fsFetchKeyId (fs : Fs) (keyid : UInt64) : Option PublicKey :=
  let keyid := if keyid >>> 32 = 0 then fsGetfullkeyid V fs keyid else keyid
  match fs.read (.key keyid) with
  | some key => some key
  | none => fs.read (.subkey keyid)

/-- `fs_fetch_key_skshash`. -/
def fsFetchKeySkshash (fs : Fs) (hash : List UInt8) : Option PublicKey := fs.read (.skshash hash)

/-- `internal_get_key_by_word`. Without a list `mct` all keys are taken. -/
def internalGetKeyByWord (fs : Fs) (word : Word) (mct : List UInt64) : List UInt64 :=
  (fs.names V (Path.inWorddir word)).foldl (fun keys keyid =>
    if mct = [] ∨ keyid ∈ mct then keyid :: keys else keys) []

/-- The loop of `fs_fetch_key_text` over the words behind the first. It gives up once no key is
left. -/
def fsTextLoop (fs : Fs) : List UInt64 → List Word → List UInt64
  | keylist, [] => keylist
  | keylist, word :: words =>
    let nkl := internalGetKeyByWord V fs word keylist
    if nkl = [] then [] else fsTextLoop fs nkl words

/-- The loop of `fs_fetch_key_text` that adds the keys. -/
def fsAddLoop (fs : Fs) (maxkeys : Nat) : Nat → List UInt64 → List PublicKey
  | _, [] => []
  | addedkeys, keyid :: keylist =>
    let found := (fsFetchKeyId V fs keyid).toList
    let addedkeys := addedkeys + found.length
    found ++ if maxkeys ≤ addedkeys then [] else fsAddLoop fs maxkeys addedkeys keylist

/-- `fs_fetch_key_text`, which reads the first word through a null pointer if there is none. -/
def fsFetchKeyText (fs : Fs) (maxkeys : Nat) (search : List UInt8) : Option (List PublicKey) :=
  match makewordlist [] search with
  | [] => none
  | word :: words =>
    let keylist := internalGetKeyByWord V fs word []
    if keylist = [] then some []
    else some (fsAddLoop V fs maxkeys 0 (fsTextLoop V fs keylist words))

/-! ## Storing and deleting -/

variable (H : Hashes)

/-- The key ids of the subkeys that are listed. -/
def subkeyids (key : PublicKey) : List UInt64 := (keysubkeys H key).map fingerprint2keyid

/-- The paths to a key besides that of its key id. -/
def indexPaths (key : PublicKey) (words : List Word) (keyid : UInt64) : List Path :=
  words.map (.word · keyid) ++ ((subkeyids H key).map .subkey ++ [.skshash (getSkshash H key)])

/-- The file that `fs_store_key` opens and writes: truncated for an update, and otherwise created
if it is not there. -/
def fsWriteKey (fs : Fs) (publickey : PublicKey) (keyid : UInt64) (update : Bool) : Option Fs :=
  match fs.inode (.key keyid) with
  | none => if update then none else some (fs.create (.key keyid) (reread publickey))
  | some n =>
    some (fs.write n (if update then reread publickey else V.overlay (fs.file n) publickey))

/-- `fs_store_key`. -/
def fsStoreKey (fs : Fs) (publickey : PublicKey) (update : Bool) : Fs :=
  match getKeyid H publickey with
  | none => fs
  | some keyid =>
    match fsWriteKey V fs publickey keyid update with
    | none => fs
    | some fs =>
      let words := (makewordlistfromkey [] publickey).filter V.fits
      fs.linkAll (.key keyid) (indexPaths H publickey words keyid)

/-- `fs_delete_key`. The paths are those of the key that is found by the key id. -/
def fsDeleteKey (fs : Fs) (fp : Fingerprint) : Fs :=
  let keyid := fingerprint2keyid fp
  if keyid = 0 then
    fs
  else
    let paths :=
      match fsFetchKeyId V fs keyid with
      | none => []
      | some pk => indexPaths H pk (makewordlistfromkey [] pk) keyid
    fs.unlinkAll (paths ++ [.key keyid])

/-! ## Histories -/

/-- A call of one of the two functions. -/
inductive FsCall where
  | store (publickey : PublicKey) (update : Bool)
  | delete (fp : Fingerprint)

/-- The files, and what was last stored under each key id and has not been deleted since. -/
structure FsState where
  /-- The files. -/
  fs : Fs
  /-- The stored keys. -/
  live : UInt64 → Option PublicKey

/-- The state before the first call. -/
def emptyFs : FsState := ⟨Disk.empty ⟨⟨0, false, []⟩, false, [], [], []⟩, fun _ => none⟩

/-- The state after a call. -/
def FsState.after (s : FsState) : FsCall → FsState
  | .store publickey update =>
    ⟨fsStoreKey V H s.fs publickey update,
      match getKeyid H publickey with
      | none => s.live
      | some keyid => Function.update s.live keyid (some (reread publickey))⟩
  | .delete fp =>
    ⟨fsDeleteKey V H s.fs fp,
      fun keyid => (s.live keyid).filter fun k => fingerprint? H k.publickey ≠ some fp⟩

/-- The key is stored, in the form in which it was stored last. -/
def FsState.Live (s : FsState) (key : PublicKey) : Prop := ∃ keyid, s.live keyid = some key

/-- What is found by SKS hash has that hash, and no lookup finds a key that is not stored. -/
structure FsState.Sound (s : FsState) : Prop where
  skshash : ∀ {hash k}, fsFetchKeySkshash s.fs hash = some k → getSkshash H k = hash
  live_skshash : ∀ {hash k}, fsFetchKeySkshash s.fs hash = some k → s.Live k
  live_id : ∀ {keyid k}, fsFetchKeyId V s.fs keyid = some k → s.Live k
  live_text : ∀ {maxkeys search keys}, fsFetchKeyText V s.fs maxkeys search = some keys →
    ∀ k ∈ keys, s.Live k

/-- All user ids and subkeys of the one key are on the other. -/
def PublicKey.ExtendedBy (old new : PublicKey) : Prop :=
  (∀ sp ∈ old.uids, ∃ sp' ∈ new.uids, sp'.packet = sp.packet) ∧
    ∀ sp ∈ old.subkeys, ∃ sp' ∈ new.subkeys, sp'.packet = sp.packet

/-- A key is stored with `update` exactly if its key id is there, and then extends the stored key. -/
def FsCall.Regular (s : FsState) : FsCall → Prop
  | .store publickey update => ∀ keyid, getKeyid H publickey = some keyid →
    update = (s.fs.inode (.key keyid)).isSome ∧
      ∀ old, s.fs.read (.key keyid) = some old → old.ExtendedBy publickey
  | .delete _ => True

/-- An update leaves no link to the key under a hash or a subkey that it does not have any more. A
deleted key is stored under the key id that is made of its fingerprint, and found under it. -/
def FsCall.LeavesNoLink (s : FsState) : FsCall → Prop
  | .store publickey _ => ∀ keyid n, getKeyid H publickey = some keyid →
    s.fs.inode (.key keyid) = some n →
      (∀ hash, s.fs.inode (.skshash hash) = some n → hash = getSkshash H publickey) ∧
        ∀ sub, s.fs.inode (.subkey sub) = some n → sub ∈ subkeyids H publickey
  | .delete fp =>
    (∀ keyid k, s.fs.read (.key keyid) = some k → fingerprint? H k.publickey = some fp →
      keyid = fingerprint2keyid fp ∧ keyid ≠ 0) ∧
      ∀ k, s.fs.read (.key (fingerprint2keyid fp)) = some k → fingerprint2keyid fp ≠ 0 →
        fsFetchKeyId V s.fs (fingerprint2keyid fp) = some k

/-! ## Searches -/

/-- The files under the words of the index are keys. -/
def Fs.IndexStored (fs : Fs) : Prop :=
  ∀ w keyid, (fs.inode (.word w keyid)).isSome → (fs.inode (.key keyid)).isSome

/-- Keys are stored under their own key ids. -/
def Fs.OwnKeyids (fs : Fs) : Prop :=
  ∀ keyid k, fs.read (.key keyid) = some k → getKeyid H k = some keyid

/-- The answer to a search of the files, where keys are stored under key ids and indexed under the
words they are linked under. -/
def Fs.AnswersSearch (fs : Fs) (maxkeys : Nat) (search : List UInt8) (answer : List PublicKey) :
    Prop :=
  Onak.AnswersSearch (fun keyid => fs.read (.key keyid))
    (fun w keyid => (fs.inode (.word w keyid)).isSome) maxkeys search answer

/-- The key ids that are linked under all words, in the order in which the search arrives at them:
the directory of the last word is read, and each name is added in front. -/
def Fs.hits (fs : Fs) (words : List Word) : List UInt64 :=
  ((words.getLast?.elim [] fun w => fs.names V (Path.inWorddir w)).filter fun keyid =>
    words.all fun w => (fs.inode (.word w keyid)).isSome).reverse

/-- The hits that are looked up for `left` keys: up to the one at which that many are found, and at
least the first. -/
def lookedUp {ι : Type} (found : ι → Option PublicKey) : Nat → List ι → List ι
  | _, [] => []
  | left, id :: ids =>
    let left := left - (found id).toList.length
    id :: if left = 0 then [] else lookedUp found left ids

/-- `fs_fetch_key_text` looks hits up with `fs_fetch_key_id`, until it has `maxkeys` keys. -/
def Fs.HitsFound (fs : Fs) (maxkeys : Nat) (words : List Word) : Prop :=
  Onak.HitsFound (fun keyid => fs.read (.key keyid)) (fsFetchKeyId V fs) (fs.hits V words)
    (lookedUp (fsFetchKeyId V fs) maxkeys (fs.hits V words)) maxkeys

end

end Onak
