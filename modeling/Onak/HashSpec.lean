import Onak.KeydSocket
import Onak.Lib.BlockHash

/-!
# What SHA-1 and MD5 are

The two hashes as their standards define them, over words of 32 bits: SHA-1 with a schedule of 80
words for each block, MD5 with its table of constants.
-/

namespace Onak

open Socket BlockHash

/-- A word of the standards. -/
abbrev HashWord := BitVec 32

namespace Sha1Spec

/-- `Ch(x, y, z)`. -/
def ch (x y z : HashWord) : HashWord := (x &&& y) ^^^ (~~~x &&& z)

/-- `Parity(x, y, z)`. -/
def parity (x y z : HashWord) : HashWord := x ^^^ y ^^^ z

/-- `Maj(x, y, z)`. -/
def maj (x y z : HashWord) : HashWord := (x &&& y) ^^^ (x &&& z) ^^^ (y &&& z)

/-- The function of step `t`. -/
def function (t : Nat) : HashWord → HashWord → HashWord → HashWord :=
  if t < 20 then ch else if t < 40 then parity else if t < 60 then maj else parity

/-- The constant of step `t`. -/
def constant (t : Nat) : HashWord :=
  if t < 20 then 0x5A827999
  else if t < 40 then 0x6ED9EBA1
  else if t < 60 then 0x8F1BBCDC
  else 0xCA62C1D6

/-- The word `t` of a block, the most significant octet first. -/
def blockWord (block : List UInt8) (t : Nat) : HashWord :=
  BitVec.ofNat 32 (beNat ((block.drop (4 * t)).take 4))

/-- The word `t` of the message schedule. -/
def schedule (block : List UInt8) (t : Nat) : HashWord :=
  if t < 16 then blockWord block t
  else
    (schedule block (t - 3) ^^^ schedule block (t - 8) ^^^ schedule block (t - 14) ^^^
      schedule block (t - 16)).rotateLeft 1

/-- Step `t` of the five variables. -/
def step (block : List UInt8) (r : Vector HashWord 5) (t : Nat) : Vector HashWord 5 :=
  #v[r[0].rotateLeft 5 + function t r[1] r[2] r[3] + r[4] + constant t + schedule block t,
    r[0], r[1].rotateLeft 30, r[2], r[3]]

/-- The hash value behind a block. -/
def compress (h : Vector HashWord 5) (block : List UInt8) : Vector HashWord 5 :=
  h.zipWith (· + ·) ((List.range 80).foldl (step block) h)

/-- The initial hash value. -/
def initial : Vector HashWord 5 := #v[0x67452301, 0xEFCDAB89, 0x98BADCFE, 0x10325476, 0xC3D2E1F0]

/-- The message, filled up with its length in bits. -/
def paddedMessage (msg : List UInt8) : List UInt8 := padded (fun length => bigOctets 8 (8 * length)) msg

/-- SHA-1 of a message. -/
def digest (msg : List UInt8) : List UInt8 :=
  (absorb 64 compress initial (paddedMessage msg)).toList.flatMap fun word =>
    bigOctets 4 word.toNat

end Sha1Spec

namespace Md5Spec

/-- `F(X, Y, Z)`. -/
def f (x y z : HashWord) : HashWord := (x &&& y) ||| (~~~x &&& z)

/-- `G(X, Y, Z)`. -/
def g (x y z : HashWord) : HashWord := (x &&& z) ||| (y &&& ~~~z)

/-- `H(X, Y, Z)`. -/
def h (x y z : HashWord) : HashWord := x ^^^ y ^^^ z

/-- `I(X, Y, Z)`. -/
def i (x y z : HashWord) : HashWord := y ^^^ (x ||| ~~~z)

/-- The function of step `t`. -/
def function (t : Nat) : HashWord → HashWord → HashWord → HashWord :=
  if t < 16 then f else if t < 32 then g else if t < 48 then h else i

/-- The word of the block that step `t` takes. -/
def index (t : Nat) : Nat :=
  if t < 16 then t
  else if t < 32 then (5 * t + 1) % 16
  else if t < 48 then (3 * t + 5) % 16
  else 7 * t % 16

/-- The rotations of the four rounds. -/
def shifts : List (List Nat) := [[7, 12, 17, 22], [5, 9, 14, 20], [4, 11, 16, 23], [6, 10, 15, 21]]

/-- The rotation of step `t`. -/
def shift (t : Nat) : Nat := (shifts.getD (t / 16) []).getD (t % 4) 0

/-- The table of constants. -/
def table : List HashWord :=
  [0xd76aa478, 0xe8c7b756, 0x242070db, 0xc1bdceee, 0xf57c0faf, 0x4787c62a,
   0xa8304613, 0xfd469501, 0x698098d8, 0x8b44f7af, 0xffff5bb1, 0x895cd7be,
   0x6b901122, 0xfd987193, 0xa679438e, 0x49b40821, 0xf61e2562, 0xc040b340,
   0x265e5a51, 0xe9b6c7aa, 0xd62f105d, 0x02441453, 0xd8a1e681, 0xe7d3fbc8,
   0x21e1cde6, 0xc33707d6, 0xf4d50d87, 0x455a14ed, 0xa9e3e905, 0xfcefa3f8,
   0x676f02d9, 0x8d2a4c8a, 0xfffa3942, 0x8771f681, 0x6d9d6122, 0xfde5380c,
   0xa4beea44, 0x4bdecfa9, 0xf6bb4b60, 0xbebfbc70, 0x289b7ec6, 0xeaa127fa,
   0xd4ef3085, 0x04881d05, 0xd9d4d039, 0xe6db99e5, 0x1fa27cf8, 0xc4ac5665,
   0xf4292244, 0x432aff97, 0xab9423a7, 0xfc93a039, 0x655b59c3, 0x8f0ccc92,
   0xffeff47d, 0x85845dd1, 0x6fa87e4f, 0xfe2ce6e0, 0xa3014314, 0x4e0811a1,
   0xf7537e82, 0xbd3af235, 0x2ad7d2bb, 0xeb86d391]

/-- The word `k` of a block, the least significant octet first. -/
def blockWord (block : List UInt8) (k : Nat) : HashWord :=
  BitVec.ofNat 32 (beNat ((block.drop (4 * k)).take 4).reverse)

/-- Step `t` of the four variables. -/
def step (block : List UInt8) (r : Vector HashWord 4) (t : Nat) : Vector HashWord 4 :=
  let sum := r[0] + function t r[1] r[2] r[3] + blockWord block (index t) + table.getD t 0
  #v[r[3], r[1] + sum.rotateLeft (shift t), r[1], r[2]]

/-- The variables behind a block. -/
def compress (h : Vector HashWord 4) (block : List UInt8) : Vector HashWord 4 :=
  h.zipWith (· + ·) ((List.range 64).foldl (step block) h)

/-- The variables before the first block. -/
def initial : Vector HashWord 4 := #v[0x67452301, 0xefcdab89, 0x98badcfe, 0x10325476]

/-- The message, filled up with the lower 64 bits of its length in bits. -/
def paddedMessage (msg : List UInt8) : List UInt8 :=
  padded (fun length => (bigOctets 8 (8 * length)).reverse) msg

/-- MD5 of a message. -/
def digest (msg : List UInt8) : List UInt8 :=
  (absorb 64 compress initial (paddedMessage msg)).toList.flatMap fun word =>
    (bigOctets 4 word.toNat).reverse

end Md5Spec

end Onak
