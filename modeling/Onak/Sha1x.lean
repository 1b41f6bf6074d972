import Mathlib

/-!
# SHA1X

`sha1x_init`, `sha1x_update` and `sha1x_digest` of `sha1x.c`. A context of SHA-1 is the octets that
were fed to it, and SHA-1 itself a function from octets to digests.
-/

namespace Onak

/-- `BUFSIZE`. -/
abbrev sha1xBufsize : Nat := 64

/-- `SHA1_DIGEST_SIZE`. -/
abbrev sha1DigestSize : Nat := 20

/-- `SHA1X_DIGEST_SIZE`. -/
abbrev sha1xDigestSize : Nat := 2 * sha1DigestSize

/-- `struct sha1x_ctx`. -/
structure Sha1xCtx where
  /-- What the four contexts of SHA-1 were fed. -/
  a : List UInt8
  b : List UInt8
  c : List UInt8
  d : List UInt8
  /-- Whether the next octet is at an odd position. -/
  odd : Bool
deriving DecidableEq

/-- The octets of one call: `length` has 32 bits. -/
structure Sha1xPiece where
  data : List UInt8
  length_lt : data.length < 2 ^ 32

/-- `sha1x_init`. -/
def sha1xInit : Sha1xCtx where
  a := []
  b := [0]
  c := [0, 0]
  d := [0, 0, 0]
  odd := false

/-- The inner loop of `sha1x_update`: the two buffers and the octets that are left. -/
def fillBufs (evenbuf oddbuf : List UInt8) : List UInt8 → List UInt8 × List UInt8 × List UInt8
  | [] => (evenbuf, oddbuf, [])
  | even :: data =>
    if oddbuf.length < sha1xBufsize then
      match data with
      | [] => (evenbuf ++ [even], oddbuf, [])
      | odd :: data => fillBufs (evenbuf ++ [even]) (oddbuf ++ [odd]) data
    else
      (evenbuf, oddbuf, even :: data)

/-- The four updates behind the inner loop. -/
def Sha1xCtx.feed (ctx : Sha1xCtx) (evenbuf oddbuf : List UInt8) : Sha1xCtx :=
  { ctx with
    a := ctx.a ++ evenbuf
    b := ctx.b ++ evenbuf
    c := ctx.c ++ oddbuf
    d := ctx.d ++ oddbuf }

theorem length_fillBufs_le (evenbuf oddbuf data : List UInt8) :
    (fillBufs evenbuf oddbuf data).2.2.length ≤ data.length := by
  induction evenbuf, oddbuf, data using fillBufs.induct with
  | case1 evenbuf oddbuf => simp [fillBufs]
  | case2 evenbuf oddbuf even h => simp [fillBufs, h]
  | case3 evenbuf oddbuf even h odd data ih =>
    rw [fillBufs, if_pos h]
    simp only [List.length_cons]
    omega
  | case4 evenbuf oddbuf even data h =>
    rw [fillBufs.eq_def]
    simp [h]

/-- As long as the odd buffer has room, a round uses up an octet. -/
theorem length_fillBufs_lt (evenbuf oddbuf : List UInt8) (even : UInt8) (data : List UInt8)
    (h : oddbuf.length < sha1xBufsize) :
    (fillBufs evenbuf oddbuf (even :: data)).2.2.length < (even :: data).length := by
  cases data with
  | nil => simp [fillBufs, h]
  | cons odd data =>
    have hrest := length_fillBufs_le (evenbuf ++ [even]) (oddbuf ++ [odd]) data
    rw [fillBufs, if_pos h]
    simp only [List.length_cons]
    omega

/-- The outer loop of `sha1x_update`. -/
def sha1xLoop (ctx : Sha1xCtx) (oddbuf : List UInt8) (_hodd : oddbuf.length < sha1xBufsize) :
    List UInt8 → Sha1xCtx
  | [] => ctx
  | even :: data =>
    sha1xLoop (ctx.feed (fillBufs [] oddbuf (even :: data)).1
        (fillBufs [] oddbuf (even :: data)).2.1) [] (by decide)
      (fillBufs [] oddbuf (even :: data)).2.2
termination_by data => data.length
decreasing_by exact length_fillBufs_lt [] oddbuf even data _hodd

/-- `sha1x_update`. -/
def sha1xUpdate (ctx : Sha1xCtx) (piece : Sha1xPiece) : Sha1xCtx :=
  let newodd := ctx.odd ^^ piece.data.length % 2 == 1
  match ctx.odd, piece.data with
  | true, odd :: data => sha1xLoop { ctx with odd := newodd } [odd] (by simp) data
  | _, data => sha1xLoop { ctx with odd := newodd } [] (by decide) data

/-- The `sha1x_update` calls of `onak_hash`, one for each piece. -/
def sha1xUpdates (pieces : List Sha1xPiece) : Sha1xCtx := pieces.foldl sha1xUpdate sha1xInit

/-- What `sha1_digest` writes. -/
abbrev Sha1Digest := Vector UInt8 sha1DigestSize

/-- The exclusive or of two digests. -/
def Sha1Digest.xor (x y : Sha1Digest) : Sha1Digest := x.zipWith (· ^^^ ·) y

section

variable (H : List UInt8 → Sha1Digest)

/-- `sha1x_digest`. -/
def sha1xDigest (ctx : Sha1xCtx) (length : Nat) : List UInt8 :=
  let zeros := List.replicate 7 (0 : UInt8)
  let final0 := (H ctx.a).xor (H ctx.c)
  let final1 := (H ctx.b).xor (H ctx.d)
  let final4 := H (zeros.take 4 ++ final0.toList)
  let final5 := H (zeros.take 5 ++ final0.toList)
  let final6 := H (zeros.take 6 ++ final1.toList)
  let final7 := H (zeros.take 7 ++ final1.toList)
  let final4 := final4.xor final6
  let _final5 := final5.xor final7
  -- the second half is copied from `sha1final[6]`, not from `sha1final[5]`
  (List.range (min length sha1xDigestSize)).map fun i =>
    if i < sha1DigestSize then final4.toList[i]! else final6.toList[i - sha1DigestSize]!

end

end Onak
