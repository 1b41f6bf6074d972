import Onak.Sha1

/-!
# MD5

`md5_init`, `md5_update`, `md5_process_block`, `md5_read_ctx` and `md5_digest` of `md5.c`, on machines
of either byte order. Whether `md5_update` finds the pointer to its whole blocks unaligned is an
argument of each call.
-/

namespace Onak

open Socket

/-- `SWAP`. -/
def SWAP (order : ByteOrder) (n : UInt32) : UInt32 :=
  match order with
  | .big =>
    (n <<< 24) ||| ((n &&& (0xff00 : UInt32)) <<< 8) ||| ((n >>> 8) &&& (0xff00 : UInt32)) |||
      (n >>> 24)
  | .little => n

/-- `FF`. -/
def FF (b c d : UInt32) : UInt32 := d ^^^ (b &&& (c ^^^ d))

/-- `FG`. -/
def FG (b c d : UInt32) : UInt32 := FF d b c

/-- `FH`. -/
def FH (b c d : UInt32) : UInt32 := b ^^^ c ^^^ d

/-- `FI`. -/
def FI (b c d : UInt32) : UInt32 := c ^^^ (b ||| ~~~d)

/-- `struct md5_ctx`; the words `A` to `D` are `state`. -/
structure Md5Ctx where
  buffer : List UInt8
  state : Fin 4 → UInt32
  total0 : UInt32
  total1 : UInt32
  buflen : Nat

/-- What `md5_process_block` works on: `A` to `D`, `correct_words` and how many of its words are
there. -/
structure Md5Work where
  var : Fin 4 → UInt32
  words : Fin 16 → UInt32
  cwp : Nat

namespace Md5Work

/-- What both macros `OP` write to their first variable. -/
def cyclic (f : UInt32 → UInt32 → UInt32 → UInt32) (word : UInt32) (a b c d : Fin 4) (s T : UInt32)
    (var : Fin 4 → UInt32) : UInt32 :=
  rol (var a + (f (var b) (var c) (var d) + word + T)) s + var b

section

attribute [local instance] neZero_four neZero_sixteen

/-- `OP` of the first round, on the block at `block`. -/
def OP1 (order : ByteOrder) (block : List UInt8) (a b c d : Fin 4) (s T : UInt32) (work : Md5Work) :
    Md5Work :=
  let word := SWAP order (wordAt order block (4 * work.cwp))
  { var := Function.update work.var a (cyclic FF word a b c d s T work.var)
    words := Function.update work.words (Fin.ofNat 16 work.cwp) word
    cwp := work.cwp + 1 }

/-- `OP` of the other rounds. -/
def OP (f : UInt32 → UInt32 → UInt32 → UInt32) (a b c d : Fin 4) (k : Fin 16) (s T : UInt32)
    (work : Md5Work) : Md5Work :=
  { work with
    var := Function.update work.var a (cyclic f (work.words k) a b c d s T work.var) }

/-- The statements of the four rounds. -/
def statements (order : ByteOrder) (block : List UInt8) : List (Md5Work → Md5Work) :=
  let A : Fin 4 := 0
  let B : Fin 4 := 1
  let C : Fin 4 := 2
  let D : Fin 4 := 3
  let OP1 := OP1 order block
  [ OP1 A B C D 7 0xd76aa478, OP1 D A B C 12 0xe8c7b756,
    OP1 C D A B 17 0x242070db, OP1 B C D A 22 0xc1bdceee,
    OP1 A B C D 7 0xf57c0faf, OP1 D A B C 12 0x4787c62a,
    OP1 C D A B 17 0xa8304613, OP1 B C D A 22 0xfd469501,
    OP1 A B C D 7 0x698098d8, OP1 D A B C 12 0x8b44f7af,
    OP1 C D A B 17 0xffff5bb1, OP1 B C D A 22 0x895cd7be,
    OP1 A B C D 7 0x6b901122, OP1 D A B C 12 0xfd987193,
    OP1 C D A B 17 0xa679438e, OP1 B C D A 22 0x49b40821,
    OP FG A B C D 1 5 0xf61e2562, OP FG D A B C 6 9 0xc040b340,
    OP FG C D A B 11 14 0x265e5a51, OP FG B C D A 0 20 0xe9b6c7aa,
    OP FG A B C D 5 5 0xd62f105d, OP FG D A B C 10 9 0x02441453,
    OP FG C D A B 15 14 0xd8a1e681, OP FG B C D A 4 20 0xe7d3fbc8,
    OP FG A B C D 9 5 0x21e1cde6, OP FG D A B C 14 9 0xc33707d6,
    OP FG C D A B 3 14 0xf4d50d87, OP FG B C D A 8 20 0x455a14ed,
    OP FG A B C D 13 5 0xa9e3e905, OP FG D A B C 2 9 0xfcefa3f8,
    OP FG C D A B 7 14 0x676f02d9, OP FG B C D A 12 20 0x8d2a4c8a,
    OP FH A B C D 5 4 0xfffa3942, OP FH D A B C 8 11 0x8771f681,
    OP FH C D A B 11 16 0x6d9d6122, OP FH B C D A 14 23 0xfde5380c,
    OP FH A B C D 1 4 0xa4beea44, OP FH D A B C 4 11 0x4bdecfa9,
    OP FH C D A B 7 16 0xf6bb4b60, OP FH B C D A 10 23 0xbebfbc70,
    OP FH A B C D 13 4 0x289b7ec6, OP FH D A B C 0 11 0xeaa127fa,
    OP FH C D A B 3 16 0xd4ef3085, OP FH B C D A 6 23 0x04881d05,
    OP FH A B C D 9 4 0xd9d4d039, OP FH D A B C 12 11 0xe6db99e5,
    OP FH C D A B 15 16 0x1fa27cf8, OP FH B C D A 2 23 0xc4ac5665,
    OP FI A B C D 0 6 0xf4292244, OP FI D A B C 7 10 0x432aff97,
    OP FI C D A B 14 15 0xab9423a7, OP FI B C D A 5 21 0xfc93a039,
    OP FI A B C D 12 6 0x655b59c3, OP FI D A B C 3 10 0x8f0ccc92,
    OP FI C D A B 10 15 0xffeff47d, OP FI B C D A 1 21 0x85845dd1,
    OP FI A B C D 8 6 0x6fa87e4f, OP FI D A B C 15 10 0xfe2ce6e0,
    OP FI C D A B 6 15 0xa3014314, OP FI B C D A 13 21 0x4e0811a1,
    OP FI A B C D 4 6 0xf7537e82, OP FI D A B C 11 10 0xbd3af235,
    OP FI C D A B 2 15 0x2ad7d2bb, OP FI B C D A 9 21 0xeb86d391 ]

end

end Md5Work

section

variable (order : ByteOrder)

/-- One turn of the loop of `md5_process_block`; `correct_words` holds anything before. -/
def md5Block (state : Fin 4 → UInt32) (block : List UInt8) : Fin 4 → UInt32 :=
  let work : Md5Work := { var := state, words := fun _ => 0, cwp := 0 }
  let work := (Md5Work.statements order block).foldl (fun work statement => statement work) work
  fun j => work.var j + state j

/-- The loop of `md5_process_block`, from the word `words` on. -/
def md5Loop (buffer : List UInt8) (nwords words : Nat) (state : Fin 4 → UInt32) : Fin 4 → UInt32 :=
  if words < nwords then
    md5Loop buffer nwords (words + 16) (md5Block order state ((buffer.drop (4 * words)).take 64))
  else state
termination_by nwords - words

/-- The byte count, `len` more of them. -/
def Md5Ctx.count (ctx : Md5Ctx) (len : Nat) : Md5Ctx :=
  let total0 := ctx.total0 + UInt32.ofNat len
  { ctx with
    total0 := total0
    total1 := if total0.toNat < len then ctx.total1 + 1 else ctx.total1 }

/-- `md5_process_block`. -/
def md5ProcessBlock (buffer : List UInt8) (len : Nat) (ctx : Md5Ctx) : Md5Ctx :=
  let ctx := ctx.count len
  { ctx with state := md5Loop order buffer (len / 4) 0 ctx.state }

/-- `md5_init`. -/
def md5Init (ctx : Md5Ctx) : Md5Ctx :=
  { ctx with
    state := ![0x67452301, 0xefcdab89, 0x98badcfe, 0x10325476]
    total0 := 0
    total1 := 0
    buflen := 0 }

/-- The blocks in the buffer, once it holds more than one. -/
def md5Drain (ctx : Md5Ctx) : Md5Ctx :=
  if ctx.buflen > 64 then
    let whole := ctx.buflen / 64 * 64
    let ctx := md5ProcessBlock order ctx.buffer whole ctx
    let buflen := ctx.buflen % 64
    { ctx with
      buflen := buflen
      buffer := writeAt ctx.buffer 0 ((ctx.buffer.drop whole).take buflen) }
  else ctx

/-- The first part of `md5_update`, and what is left of the octets. -/
def md5Complete (ctx : Md5Ctx) (data : List UInt8) : Md5Ctx × List UInt8 :=
  if ctx.buflen ≠ 0 then
    let left_over := ctx.buflen
    let add := if 128 - left_over > data.length then data.length else 128 - left_over
    let ctx := { ctx with
      buffer := writeAt ctx.buffer left_over (data.take add)
      buflen := ctx.buflen + add }
    (md5Drain order ctx, data.drop add)
  else (ctx, data)

/-- The loop of `md5_update` over unaligned blocks. -/
def md5Unaligned (ctx : Md5Ctx) (data : List UInt8) : Md5Ctx × List UInt8 :=
  if data.length > 64 then
    md5Unaligned (md5ProcessBlock order (writeAt ctx.buffer 0 (data.take 64)) 64
      { ctx with buffer := writeAt ctx.buffer 0 (data.take 64) }) (data.drop 64)
  else (ctx, data)
termination_by data.length
decreasing_by
  rw [List.length_drop]
  omega

/-- The second part of `md5_update`: the whole blocks. -/
def md5Whole (unaligned : Bool) (ctx : Md5Ctx) (data : List UInt8) : Md5Ctx × List UInt8 :=
  if data.length ≥ 64 then
    if unaligned then md5Unaligned order ctx data
    else
      let len := data.length / 64 * 64
      (md5ProcessBlock order data len ctx, data.drop len)
  else (ctx, data)

/-- The last part of `md5_update`: what goes into the buffer. -/
def md5Keep (ctx : Md5Ctx) (data : List UInt8) : Md5Ctx :=
  if data.length > 0 then
    let left_over := ctx.buflen
    let ctx := { ctx with buffer := writeAt ctx.buffer left_over data }
    let left_over := left_over + data.length
    if left_over ≥ 64 then
      let ctx := md5ProcessBlock order ctx.buffer 64 ctx
      let left_over := left_over - 64
      { ctx with
        buffer := writeAt ctx.buffer 0 ((ctx.buffer.drop 64).take left_over)
        buflen := left_over }
    else { ctx with buflen := left_over }
  else ctx

/-- `md5_update`. -/
def md5Update (unaligned : Bool) (ctx : Md5Ctx) (data : List UInt8) : Md5Ctx :=
  let (ctx, data) := md5Complete order ctx data
  let (ctx, data) := md5Whole order unaligned ctx data
  md5Keep order ctx data

/-- `fillbuf`. -/
def fillbuf : List UInt8 := 0x80 :: List.replicate 63 0

/-- A word as it lies in memory. -/
def wordOctets (n : UInt32) : List UInt8 := order.octets 4 n.toNat

/-- `md5_read_ctx`. -/
def md5ReadCtx (ctx : Md5Ctx) : List UInt8 :=
  (List.finRange 4).flatMap fun j => wordOctets order (SWAP order (ctx.state j))

/-- The end of the message, written behind the `bytes` octets that the buffer holds. -/
def Md5Ctx.finish (ctx : Md5Ctx) (bytes pad : Nat) : List UInt8 :=
  let buffer := writeAt ctx.buffer bytes (fillbuf.take pad)
  let buffer :=
    writeAt buffer (bytes + pad) (wordOctets order (SWAP order (ctx.total0 <<< 3)))
  writeAt buffer (bytes + pad + 4)
    (wordOctets order (SWAP order ((ctx.total1 <<< 3) ||| (ctx.total0 >>> 29))))

/-- `md5_digest`. -/
def md5Digest (ctx : Md5Ctx) : List UInt8 :=
  let bytes := ctx.buflen
  let ctx := ctx.count bytes
  let pad := if bytes ≥ 56 then 64 + 56 - bytes else 56 - bytes
  let ctx := { ctx with buffer := ctx.finish order bytes pad }
  md5ReadCtx order (md5ProcessBlock order ctx.buffer (bytes + pad + 8) ctx)

/-- The digest of a message that arrives in pieces, in a context that held anything before. -/
def md5Pieces (ctx : Md5Ctx) (pieces : List (Bool × List UInt8)) : List UInt8 :=
  md5Digest order (pieces.foldl (fun ctx piece => md5Update order piece.1 ctx piece.2) (md5Init ctx))

end

end Onak
