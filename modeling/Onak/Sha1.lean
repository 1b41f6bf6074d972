import Onak.KeydSocket
import Onak.SigCheck
import Onak.Sha1x

/-!
# SHA-1

`sha1_init`, `sha1_update`, `SHA1Transform` and `sha1_digest` of `sha1.c`, on machines of either byte
order.
-/

namespace Onak

open Socket

/-- The word that the four octets from place `i` on make in memory. -/
def wordAt (order : ByteOrder) (octets : List UInt8) (i : Nat) : UInt32 :=
  let b := fun k => (octets.getD (i + k) 0).toBitVec
  match order with
  | .big => ⟨b 0 ++ b 1 ++ b 2 ++ b 3⟩
  | .little => ⟨b 3 ++ b 2 ++ b 1 ++ b 0⟩

/-- `rol`. -/
def rol (value bits : UInt32) : UInt32 := (value <<< bits) ||| (value >>> (32 - bits))

/-- `struct sha1_ctx`. -/
structure Sha1Ctx where
  state : Fin 5 → UInt32
  count0 : UInt32
  count1 : UInt32
  buffer : List UInt8

/-- What `SHA1Transform` works on: the variables `a` to `e` and its copy of the block. -/
structure Sha1Work where
  var : Fin 5 → UInt32
  l : Fin 16 → UInt32

theorem neZero_five : NeZero 5 := ⟨by decide⟩

theorem neZero_four : NeZero 4 := ⟨by decide⟩

theorem neZero_sixteen : NeZero 16 := ⟨by decide⟩

namespace Sha1Work

variable (order : ByteOrder)

/-- `blk0`: the value, and the block behind it. -/
def blk0 (work : Sha1Work) (i : Nat) : UInt32 × (Fin 16 → UInt32) :=
  let l := work.l (Fin.ofNat 16 i)
  match order with
  | .big => (l, work.l)
  | .little =>
    let value := (rol l 24 &&& 0xFF00FF00) ||| (rol l 8 &&& 0x00FF00FF)
    (value, Function.update work.l (Fin.ofNat 16 i) value)

/-- `blk`. -/
def blk (work : Sha1Work) (i : Nat) : UInt32 × (Fin 16 → UInt32) :=
  let l := fun k => work.l (Fin.ofNat 16 k)
  let value := rol (l (i + 13) ^^^ l (i + 8) ^^^ l (i + 2) ^^^ l i) 1
  (value, Function.update work.l (Fin.ofNat 16 i) value)

/-- What `R0` to `R4` have in common. -/
def round (mix : UInt32 → UInt32 → UInt32 → UInt32)
    (expand : Sha1Work → Nat → UInt32 × (Fin 16 → UInt32)) (constant : UInt32)
    (v w x y z : Fin 5) (i : Nat) (work : Sha1Work) : Sha1Work :=
  let blk := expand work i
  let sum := work.var z +
    (mix (work.var w) (work.var x) (work.var y) + blk.1 + constant + rol (work.var v) 5)
  { var := Function.update (Function.update work.var z sum) w (rol (work.var w) 30)
    l := blk.2 }

/-- `R0`. -/
def R0 : Fin 5 → Fin 5 → Fin 5 → Fin 5 → Fin 5 → Nat → Sha1Work → Sha1Work :=
  round (fun w x y => (w &&& (x ^^^ y)) ^^^ y) (blk0 order) 0x5A827999

/-- `R1`. -/
def R1 : Fin 5 → Fin 5 → Fin 5 → Fin 5 → Fin 5 → Nat → Sha1Work → Sha1Work :=
  round (fun w x y => (w &&& (x ^^^ y)) ^^^ y) blk 0x5A827999

/-- `R2`. -/
def R2 : Fin 5 → Fin 5 → Fin 5 → Fin 5 → Fin 5 → Nat → Sha1Work → Sha1Work :=
  round (fun w x y => w ^^^ x ^^^ y) blk 0x6ED9EBA1

/-- `R3`. -/
def R3 : Fin 5 → Fin 5 → Fin 5 → Fin 5 → Fin 5 → Nat → Sha1Work → Sha1Work :=
  round (fun w x y => ((w ||| x) &&& y) ||| (w &&& x)) blk 0x8F1BBCDC

/-- `R4`. -/
def R4 : Fin 5 → Fin 5 → Fin 5 → Fin 5 → Fin 5 → Nat → Sha1Work → Sha1Work :=
  round (fun w x y => w ^^^ x ^^^ y) blk 0xCA62C1D6

/-- The statements of the four rounds. -/
def statements : List (Sha1Work → Sha1Work) :=
  let a : Fin 5 := 0
  let b : Fin 5 := 1
  let c : Fin 5 := 2
  let d : Fin 5 := 3
  let e : Fin 5 := 4
  let R0 := R0 order
  [ R0 a b c d e 0, R0 e a b c d 1, R0 d e a b c 2, R0 c d e a b 3,
    R0 b c d e a 4, R0 a b c d e 5, R0 e a b c d 6, R0 d e a b c 7,
    R0 c d e a b 8, R0 b c d e a 9, R0 a b c d e 10, R0 e a b c d 11,
    R0 d e a b c 12, R0 c d e a b 13, R0 b c d e a 14, R0 a b c d e 15,
    R1 e a b c d 16, R1 d e a b c 17, R1 c d e a b 18, R1 b c d e a 19,
    R2 a b c d e 20, R2 e a b c d 21, R2 d e a b c 22, R2 c d e a b 23,
    R2 b c d e a 24, R2 a b c d e 25, R2 e a b c d 26, R2 d e a b c 27,
    R2 c d e a b 28, R2 b c d e a 29, R2 a b c d e 30, R2 e a b c d 31,
    R2 d e a b c 32, R2 c d e a b 33, R2 b c d e a 34, R2 a b c d e 35,
    R2 e a b c d 36, R2 d e a b c 37, R2 c d e a b 38, R2 b c d e a 39,
    R3 a b c d e 40, R3 e a b c d 41, R3 d e a b c 42, R3 c d e a b 43,
    R3 b c d e a 44, R3 a b c d e 45, R3 e a b c d 46, R3 d e a b c 47,
    R3 c d e a b 48, R3 b c d e a 49, R3 a b c d e 50, R3 e a b c d 51,
    R3 d e a b c 52, R3 c d e a b 53, R3 b c d e a 54, R3 a b c d e 55,
    R3 e a b c d 56, R3 d e a b c 57, R3 c d e a b 58, R3 b c d e a 59,
    R4 a b c d e 60, R4 e a b c d 61, R4 d e a b c 62, R4 c d e a b 63,
    R4 b c d e a 64, R4 a b c d e 65, R4 e a b c d 66, R4 d e a b c 67,
    R4 c d e a b 68, R4 b c d e a 69, R4 a b c d e 70, R4 e a b c d 71,
    R4 d e a b c 72, R4 c d e a b 73, R4 b c d e a 74, R4 a b c d e 75,
    R4 e a b c d 76, R4 d e a b c 77, R4 c d e a b 78, R4 b c d e a 79 ]

end Sha1Work

section

variable (order : ByteOrder)

/-- `SHA1Transform`. -/
def SHA1Transform (state : Fin 5 → UInt32) (buffer : List UInt8) : Fin 5 → UInt32 :=
  let work : Sha1Work := { var := state, l := fun i => wordAt order buffer (4 * i) }
  let work := (Sha1Work.statements order).foldl (fun work statement => statement work) work
  fun j => state j + work.var j

/-- `sha1_init`. -/
def sha1Init (ctx : Sha1Ctx) : Sha1Ctx :=
  { ctx with
    state := ![0x67452301, 0xEFCDAB89, 0x98BADCFE, 0x10325476, 0xC3D2E1F0]
    count0 := 0
    count1 := 0 }

/-- The loop of `sha1_update` over the blocks of `data` from place `i` on. -/
def sha1Blocks (state : Fin 5 → UInt32) (length : UInt32) (data : List UInt8) :
    Nat → UInt32 → (Fin 5 → UInt32) × UInt32
  | 0, i => (state, i)
  | fuel + 1, i =>
    if i + 63 < length then
      sha1Blocks (SHA1Transform order state ((data.drop i.toNat).take 64)) length data fuel (i + 64)
    else
      (state, i)

/-- The counter of `sha1_update`. -/
def sha1Count (ctx : Sha1Ctx) (length : UInt32) : Sha1Ctx :=
  let j := ctx.count0
  let count0 := ctx.count0 + (length <<< 3)
  let count1 := if count0 < j then ctx.count1 + 1 else ctx.count1
  { ctx with
    count0 := count0
    count1 := count1 + (length >>> 29) }

/-- `sha1_update`. -/
def sha1Update (ctx : Sha1Ctx) (data : List UInt8) : Sha1Ctx :=
  let length : UInt32 := UInt32.ofNat data.length
  let j := (ctx.count0 >>> 3) &&& 63
  let ctx := sha1Count ctx length
  if j + length > 63 then
    let i := 64 - j
    let buffer := writeAt ctx.buffer j.toNat (data.take i.toNat)
    let state := SHA1Transform order ctx.state buffer
    -- the loop runs at most once for every octet
    let (state, i) := sha1Blocks order state length data data.length i
    { ctx with
      state := state
      buffer := writeAt buffer 0 (data.drop i.toNat) }
  else
    { ctx with buffer := writeAt ctx.buffer j.toNat data }

/-- The loop of `sha1_digest`. -/
def sha1Fill : Nat → Sha1Ctx → Sha1Ctx
  | 0, ctx => ctx
  | fuel + 1, ctx =>
    if ctx.count0 &&& 504 ≠ 448 then sha1Fill fuel (sha1Update order ctx [0x00]) else ctx

/-- The octet `i` of a run of words, of which `w` is the one that it lies in. -/
def octetOf (w : UInt32) (i : Nat) : UInt8 :=
  ((w >>> UInt32.ofNat ((3 - (i &&& 3)) * 8)) &&& 255).toUInt8

/-- `finalcount` of `sha1_digest`. -/
def sha1Finalcount (ctx : Sha1Ctx) : List UInt8 :=
  (List.range 8).map fun i => octetOf (if i ≥ 4 then ctx.count0 else ctx.count1) i

/-- `sha1_digest`, with the context that it leaves. -/
def sha1Digest (ctx : Sha1Ctx) : Sha1Digest × Sha1Ctx :=
  let finalcount := sha1Finalcount ctx
  let ctx := sha1Update order ctx [0x80]
  -- 64 rounds reach every count of octets
  let ctx := sha1Fill order 64 ctx
  let ctx := sha1Update order ctx finalcount
  (Vector.ofFn fun i => octetOf (ctx.state (Fin.ofNat 5 (i.val >>> 2))) i.val, ctx)

/-- The digest of a message that arrives in pieces, in a context that held anything before. -/
def sha1Pieces (ctx : Sha1Ctx) (pieces : List (List UInt8)) : Sha1Digest :=
  (sha1Digest order (pieces.foldl (sha1Update order) (sha1Init ctx))).1

end

/-! ## SHA1X -/

/-- `struct sha1x_ctx`, with the contexts of `sha1.c`. -/
structure Sha1xCtxs where
  a : Sha1Ctx
  b : Sha1Ctx
  c : Sha1Ctx
  d : Sha1Ctx
  odd : Bool

section

variable (order : ByteOrder)

/-- `sha1x_init`. -/
def sha1xInitCtxs (ctx : Sha1xCtxs) : Sha1xCtxs :=
  let zeros : List UInt8 := [0, 0, 0]
  { a := sha1Init ctx.a
    b := sha1Update order (sha1Init ctx.b) (zeros.take 1)
    c := sha1Update order (sha1Init ctx.c) (zeros.take 2)
    d := sha1Update order (sha1Init ctx.d) (zeros.take 3)
    odd := false }

/-- The four updates behind the inner loop. -/
def Sha1xCtxs.feed (ctx : Sha1xCtxs) (evenbuf oddbuf : List UInt8) : Sha1xCtxs :=
  { ctx with
    a := sha1Update order ctx.a evenbuf
    b := sha1Update order ctx.b evenbuf
    c := sha1Update order ctx.c oddbuf
    d := sha1Update order ctx.d oddbuf }

/-- The outer loop of `sha1x_update`. -/
def sha1xLoopCtxs (ctx : Sha1xCtxs) (oddbuf : List UInt8) (_h : oddbuf.length < sha1xBufsize) :
    List UInt8 → Sha1xCtxs
  | [] => ctx
  | even :: data =>
    sha1xLoopCtxs (ctx.feed order (fillBufs [] oddbuf (even :: data)).1
        (fillBufs [] oddbuf (even :: data)).2.1) [] (by decide)
      (fillBufs [] oddbuf (even :: data)).2.2
termination_by data => data.length
decreasing_by exact length_fillBufs_lt [] oddbuf even data _h

theorem lone_lt (odd : UInt8) : [odd].length < sha1xBufsize := by simp

/-- `sha1x_update`. -/
def sha1xUpdateCtxs (ctx : Sha1xCtxs) (piece : Sha1xPiece) : Sha1xCtxs :=
  let newodd := ctx.odd ^^ piece.data.length % 2 == 1
  match ctx.odd, piece.data with
  | true, odd :: data => sha1xLoopCtxs order { ctx with odd := newodd } [odd] (lone_lt odd) data
  | _, data => sha1xLoopCtxs order { ctx with odd := newodd } [] (by decide) data

/-- One of the contexts `e` to `h` of `sha1x_digest`: `n` zeros, and a digest. -/
def sha1xFinal (ctx : Sha1Ctx) (n : Nat) (final : Sha1Digest) : Sha1Digest :=
  let zeros := List.replicate 7 (0 : UInt8)
  let ctx := sha1Update order (sha1Init ctx) (zeros.take n)
  (sha1Digest order (sha1Update order ctx final.toList)).1

/-- `sha1x_digest`; `e` to `h` hold anything. -/
def sha1xDigestCtxs (e f g h : Sha1Ctx) (ctx : Sha1xCtxs) (length : Nat) : List UInt8 :=
  let final0 := (sha1Digest order ctx.a).1.xor (sha1Digest order ctx.c).1
  let final1 := (sha1Digest order ctx.b).1.xor (sha1Digest order ctx.d).1
  let final4 := sha1xFinal order e 4 final0
  let final5 := sha1xFinal order f 5 final0
  let final6 := sha1xFinal order g 6 final1
  let final7 := sha1xFinal order h 7 final1
  let final4 := final4.xor final6
  let _final5 := final5.xor final7
  (List.range (min length sha1xDigestSize)).map fun i =>
    if i < sha1DigestSize then final4.toList[i]! else final6.toList[i - sha1DigestSize]!

end

end Onak
