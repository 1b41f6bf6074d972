import Onak.Config
import Onak.Url

/-!
# CGI parameters

`getcgivars` of `cgi/getcgi.c`. The environment and the standard input are those of a CGI program, and
an environment variable is the octets of its string. A read or a write outside of an array has no
meaning. What is printed before the program exits is left out.
-/

namespace Onak.Cgi

open Print

/-- What a CGI program finds when it starts. -/
structure Environment where
  /-- `argv[1]`. -/
  argument : Option (List UInt8)
  requestMethod : Option (List UInt8)
  queryString : Option (List UInt8)
  contentType : Option (List UInt8)
  contentLength : Option (List UInt8)
  stdin : List UInt8

/-- What becomes of `cgiinput`. -/
inductive Input where
  /-- It stays `NULL`. -/
  | null
  /-- A string. -/
  | text (cgiinput : List UInt8)
  /-- The program exits. -/
  | exit
deriving DecidableEq

/-- A POST request. There is no room for one more than the greatest `int`, and a negative length is no
size that `malloc` can give, except for -1: then nothing is allocated, and `fread` writes what there
is. -/
def readPost (env : Environment) : Option Input := do
  if (env.contentType.map fun type =>
      Conf.strcaseeq type (ascii "application/x-www-form-urlencoded")) = some false then
    return .exit
  match env.contentLength with
  | none => return .exit
  | some length =>
    let contentLength := Conf.atoi length
    guard (contentLength < 2 ^ 31 - 1)
    if contentLength = 0 then
      return .exit
    else if contentLength = -1 then
      guard (env.stdin = [])
      return .exit
    else if contentLength < 0 then
      return .exit
    else if env.stdin.length < contentLength.toNat then
      return .exit
    else
      return .text (cString (env.stdin.take contentLength.toNat))

/-- The part of `getcgivars` that reads the request. -/
def readInput (env : Environment) : Option Input :=
  match env.requestMethod with
  | none => some ((env.argument.map Input.text).getD .null)
  | some method =>
    if method = [] then some .null
    else if method = ascii "GET" ∨ method = ascii "HEAD" then
      some ((env.queryString.map Input.text).getD .null)
    else if method = ascii "POST" then readPost env
    else some .exit

/-- All plusses back to spaces. -/
def plusToSpace (cgiinput : List UInt8) : List UInt8 :=
  cgiinput.map fun c => if c = '+'.toUInt8 then ' '.toUInt8 else c

/-- The tokens that `strtok` finds between ampersands. -/
def strtok (cgiinput : List UInt8) : List (List UInt8) :=
  (cgiinput.splitOn '&'.toUInt8).filter (· ≠ [])

/-- `pairlist`, with the number of pointers that were allocated for it. -/
structure PairList where
  pairs : List (List UInt8)
  size : Nat

/-- The next token goes into the list, which then may grow. -/
def PairList.add (pairlist : PairList) (nvpair : List UInt8) : Option PairList := do
  guard (pairlist.pairs.length < pairlist.size)
  let paircount := pairlist.pairs.length + 1
  return {
    pairs := pairlist.pairs ++ [nvpair]
    size := if paircount % 256 = 0 then paircount + 256 else pairlist.size }

/-- The list of the pairs, up to where the `NULL` is written that ends it. -/
def readPairs (cgiinput : List UInt8) : Option (List (List UInt8)) := do
  let pairlist ← (strtok cgiinput).foldlM PairList.add { pairs := [], size := 256 }
  guard (pairlist.pairs.length < pairlist.size)
  return pairlist.pairs

/-- A copy of a string, without its escapes. -/
def unescaped (s : List UInt8) : Option (List UInt8) := (Url.unescapeUrl (s ++ [0])).map cString

/-- The name and the value of a pair. -/
def readPair (pair : List UInt8) : Option (List UInt8 × List UInt8) := do
  let name := pair.takeWhile (· ≠ '='.toUInt8)
  let value := (pair.dropWhile (· ≠ '='.toUInt8)).drop 1
  let value ← unescaped value
  let name ← unescaped name
  return (name, value)

/-- What `getcgivars` returns. -/
inductive Vars where
  | null
  | list (cgivars : List (List UInt8 × List UInt8))
  | exit
deriving DecidableEq

/-- The part of `getcgivars` behind the reading. -/
def splitInput (cgiinput : List UInt8) : Option (List (List UInt8 × List UInt8)) := do
  let pairs ← readPairs (plusToSpace cgiinput)
  pairs.mapM readPair

/-- `getcgivars`. -/
def getcgivars (env : Environment) : Option Vars := do
  match ← readInput env with
  | .null => return .null
  | .exit => return .exit
  | .text cgiinput => return .list (← splitInput cgiinput)

end Onak.Cgi
