import Onak.KeyArray
import Onak.KeyIndex

/-!
# Escapes in query strings

`unescape_url` of `cgi/getcgi.c` as it works on its buffer, the octets of the string with its terminator.
A read or a write outside of these octets has no meaning, and neither has an `int` that overflows. What
the function makes of the characters is that of `Onak.KeyIndex`.
-/

namespace Onak.Url

open KeySlots (InInt toInt)

/-- `%`. -/
abbrev percent : UInt8 := '%'.toUInt8

/-- The loop of `unescape_url`: the octets, and where the terminator goes. -/
def unescapeLoop (url : List UInt8) (i j : Nat) (left : Int) : Option (List UInt8 × Nat) :=
  match h : url[j]? with
  | none => none
  | some c =>
    if c = 0 then
      some (url, i)
    else do
      have : j < url.length := (List.getElem?_eq_some_iff.mp h).1
      guard (i < url.length)
      let copied := url.set i c
      if c = percent ∧ 2 ≤ left then
        let d ← copied[j + 1]?
        let e ← copied[j + 2]?
        guard (InInt (j + 3) ∧ InInt (left - 3))
        unescapeLoop (copied.set i (x2c d e)) (i + 1) (j + 3) (left - 3)
      else
        guard (InInt (j + 1) ∧ InInt (left - 1))
        unescapeLoop copied (i + 1) (j + 1) (left - 1)
termination_by url.length - j
decreasing_by
  · rw [List.length_set, List.length_set]
    omega
  · rw [List.length_set]
    omega

/-- `unescape_url`. -/
def unescapeUrl (url : List UInt8) : Option (List UInt8) := do
  let (url, i) ← unescapeLoop url 0 0 (toInt (cString url).length)
  guard (i < url.length)
  return url.set i 0

end Onak.Url
