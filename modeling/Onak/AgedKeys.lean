import Onak.Aged
import Onak.Config

/-!
# Aged and expired keys

`parse_age_string`, `key_creation_time`, `key_expiration_time` and `key_is_aged_or_expired` of `aged.c`.
A `time_t` is an integer of 64 bits. Arithmetic on it that overflows has no meaning, and neither has a
read outside a packet.
-/

namespace Onak

open Conf (isspace isdigit)

/-- What has no meaning in C. -/
inductive Fault where
  | overflow
  | outside
deriving DecidableEq

/-- The values of a `long`, and of a `time_t`. -/
abbrev InLong (n : Int) : Prop := -2 ^ 63 ≤ n ∧ n < 2 ^ 63

/-- A signed result of 64 bits. -/
def checked (n : Int) : Except Fault Int := if InLong n then .ok n else .error .overflow

/-- A read that may be outside. -/
def inside {α : Type} : Option α → Except Fault α
  | none => .error .outside
  | some a => .ok a

/-- The number of some decimal digits. -/
def decimalNumber (digits : List UInt8) : Nat :=
  digits.foldl (fun n c => 10 * n + (c.toNat - 48)) 0

/-- `strtol(s, &end, 10)`: the number, at most and at least what a `long` can be, and what `end` points
to. -/
def strtol (s : List UInt8) : Int × List UInt8 :=
  let t := s.dropWhile isspace
  let sign := t.getD 0 0
  let t := if sign = '-'.toUInt8 ∨ sign = '+'.toUInt8 then t.drop 1 else t
  let n : Nat := decimalNumber (t.takeWhile isdigit)
  if t.takeWhile isdigit = [] then
    (0, s)
  else
    (if sign = '-'.toUInt8 then max (-(n : Int)) (-2 ^ 63) else min n (2 ^ 63 - 1),
      t.dropWhile isdigit)

/-- `parse_age_string`. -/
def parseAgeString : Option (List UInt8) → Except Fault Int
  | none => .ok 0
  | some s =>
    let (val, stop) := strtol s
    if s = [] then
      .ok 0
    else if val ≤ 0 ∨ stop.length = s.length then
      .ok 0
    else if stop = [] ∨ stop.getD 0 0 = 'y'.toUInt8 ∨ stop.getD 0 0 = 'Y'.toUInt8 then do
      checked ((← checked (val * 365)) * 86400)
    else if stop.getD 0 0 = 'd'.toUInt8 ∨ stop.getD 0 0 = 'D'.toUInt8 then
      checked (val * 86400)
    else if stop.getD 0 0 = 'h'.toUInt8 ∨ stop.getD 0 0 = 'H'.toUInt8 then
      checked (val * 3600)
    else if stop.getD 0 0 = 's'.toUInt8 ∨ stop.getD 0 0 = 'S'.toUInt8 then
      .ok val
    else
      .ok 0

/-- `key_creation_time`. Four octets of a `time_t` do not overflow it. -/
def keyCreationTime (key : PublicKey) : Int :=
  if key.publickey.length < 5 then 0 else beNat ((key.publickey.data.drop 1).take 4)

/-- The inner loop of `key_expiration_time`, for a signature. -/
def laterExpiry (creation : Int) (latest : Int) (sig : Packet) : Except Fault Int := do
  let offset ← inside (findKeyexpiryInSig sig)
  if offset = 0 then
    return latest
  let candidate ← checked (creation + offset)
  return if latest < candidate then candidate else latest

/-- `key_expiration_time`. -/
def keyExpirationTime (key : PublicKey) : Except Fault Int := do
  if key.publickey.length < 5 then
    return 0
  let creation := keyCreationTime key
  if creation = 0 then
    return 0
  let version ← inside key.publickey.data[0]?
  if version = 2 ∨ version = 3 then
    if key.publickey.length < 7 then
      return 0
    let days := beNat (← inside (readOctets key.publickey.data 5 2))
    if days = 0 then
      return 0
    return ← checked (creation + (← checked ((days : Int) * 86400)))
  key.uids.foldlM (fun latest uid => uid.sigs.foldlM (laterExpiry creation) latest) 0

/-- `key_is_aged_or_expired`, with a key. -/
def keyIsAgedOrExpired (key : PublicKey) (now maxAge : Int) : Except Fault Bool := do
  let creation := keyCreationTime key
  if creation = 0 then
    return false
  if 0 < maxAge then
    if (← checked (creation + maxAge)) < now then
      return true
  let expiration ← keyExpirationTime key
  return expiration ≠ 0 ∧ expiration < now

end Onak
