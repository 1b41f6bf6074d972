import Onak.ParseKey

/-!
# ASCII armor

`armor_openpgp_stream` and `dearmor_openpgp_stream` of `armor.c`. The armored text is a list of
octets: the characters are put at its end and taken from its front. The counters are numbers without
a bound; `armor_openpgp_stream` keeps those of the source in range for less than `2 ^ 30` octets.
-/

namespace Onak

open Source

/-- `ARMOR_WIDTH`. -/
def armorWidth : Nat := 64

/-- `CRC24_INIT`. -/
def crc24Init : Nat := 0xb704ce

/-- `CRC24_POLY`. -/
def crc24Poly : Nat := 0x1864cfb

/-- `encode64`. -/
def encode64 (c : UInt8) : UInt8 :=
  if c ≤ 25 then
    c + 'A'.toUInt8
  else if 26 ≤ c ∧ c ≤ 51 then
    c + ('a'.toUInt8 - 26)
  else if 52 ≤ c ∧ c ≤ 61 then
    c + ('0'.toUInt8 - 52)
  else if c = 62 then
    '+'.toUInt8
  else if c = 63 then
    '/'.toUInt8
  else
    '?'.toUInt8

/-- `decode64`: 64 for a character that ends the data, 65 for one that is skipped. -/
def decode64 (c : UInt8) : UInt8 :=
  if 'A'.toUInt8 ≤ c ∧ c ≤ 'Z'.toUInt8 then
    c - 'A'.toUInt8
  else if 'a'.toUInt8 ≤ c ∧ c ≤ 'z'.toUInt8 then
    c - ('a'.toUInt8 - 26)
  else if '0'.toUInt8 ≤ c ∧ c ≤ '9'.toUInt8 then
    c - ('0'.toUInt8 - 52)
  else if c = '+'.toUInt8 then
    62
  else if c = '/'.toUInt8 then
    63
  else if c = '='.toUInt8 ∨ c = '-'.toUInt8 then
    64
  else
    65

/-- One round of the loop over the bits of an octet. -/
def crc24Shift (crc24 : Nat) : Nat :=
  let crc24 := crc24 <<< 1
  if crc24 &&& 0x1000000 ≠ 0 then crc24 ^^^ crc24Poly else crc24

/-- The running CRC after one more octet. -/
def crc24Octet (crc24 : Nat) (c : UInt8) : Nat :=
  crc24Shift^[8] (crc24 ^^^ (c.toNat <<< 16))

/-! ## Armoring -/

/-- `struct armor_context`, with the text in the place of the output function. -/
structure ArmorContext where
  /-- The last octet we got. -/
  lastoctet : UInt8
  /-- The current octet we're expecting (0, 1 or 2). -/
  curoctet : Nat
  /-- The number of characters of the data so far. -/
  count : Nat
  /-- A running CRC24 of the data we've seen. -/
  crc24 : Nat
  /-- The text put out so far. -/
  text : List UInt8

/-- `armor_init`. -/
def armorInit (text : List UInt8) : ArmorContext := ⟨0, 0, 0, crc24Init, text⟩

/-- Puts characters of the data out and counts them. -/
def ArmorContext.put (state : ArmorContext) (chars : List UInt8) : ArmorContext :=
  { state with text := state.text ++ chars, count := state.count + chars.length }

/-- Puts a line break out if a line is full. -/
def ArmorContext.wrap (state : ArmorContext) : ArmorContext :=
  if state.count % armorWidth = 0 then
    { state with text := state.text ++ ['\n'.toUInt8] }
  else
    state

/-- The characters that `armor_putchar_int` puts out for an octet. -/
def armorChars (curoctet : Nat) (lastoctet c : UInt8) : List UInt8 :=
  match curoctet with
  | 0 => [encode64 (c >>> 2)]
  | 1 => [encode64 (((lastoctet &&& 3) <<< 4) + (c >>> 4))]
  | 2 => [encode64 (((lastoctet &&& 0xF) <<< 2) + (c >>> 6)), encode64 (c &&& 0x3F)]
  | _ => []

/-- `armor_putchar_int`. -/
def armorPutcharInt (state : ArmorContext) (c : UInt8) : ArmorContext :=
  let state := state.put (armorChars state.curoctet state.lastoctet c)
  let state := { state with
    curoctet := (state.curoctet + 1) % 3, lastoctet := c, crc24 := crc24Octet state.crc24 c }
  state.wrap

/-- `armor_putchar`. -/
def armorPutchar (state : ArmorContext) (l : List UInt8) : ArmorContext :=
  l.foldl armorPutcharInt state

/-- The characters of a CRC. -/
def crc24Chars (crc24 : Nat) : List UInt8 :=
  [encode64 (UInt8.ofNat (crc24 >>> 18)), encode64 (UInt8.ofNat ((crc24 >>> 12) &&& 0x3F)),
    encode64 (UInt8.ofNat ((crc24 >>> 6) &&& 0x3F)), encode64 (UInt8.ofNat (crc24 &&& 0x3F))]

/-- `armor_finish`. -/
def armorFinish (state : ArmorContext) : ArmorContext :=
  let state :=
    match state.curoctet with
    | 1 => (state.put [encode64 ((state.lastoctet &&& 3) <<< 4), '='.toUInt8, '='.toUInt8]).wrap
    | 2 => (state.put [encode64 ((state.lastoctet &&& 0xF) <<< 2), '='.toUInt8]).wrap
    | _ => state
  let state := { state with curoctet := state.curoctet + 1, crc24 := state.crc24 &&& 0xffffff }
  let text := if state.count % armorWidth ≠ 0 then state.text ++ ['\n'.toUInt8] else state.text
  { state with text := text ++ '='.toUInt8 :: crc24Chars state.crc24 ++ ['\n'.toUInt8] }

/-- The line that opens an armored text, with the empty line behind it. -/
def armorHeader : List UInt8 :=
  "-----BEGIN PGP PUBLIC KEY BLOCK-----\n\n".toList.map Char.toUInt8

/-- The line that ends an armored text. -/
def armorFooter : List UInt8 := "-----END PGP PUBLIC KEY BLOCK-----\n".toList.map Char.toUInt8

/-- The context that `armor_openpgp_stream` ends with, before the footer. What
`write_openpgp_stream` returns is not looked at. -/
def armorContext (packets : List Packet) : ArmorContext :=
  armorFinish (writeOpenpgpStream armorPutchar (armorInit armorHeader) packets).2

/-- `armor_openpgp_stream`. -/
def armorOpenpgpStream (packets : List Packet) : List UInt8 :=
  (armorContext packets).text ++ armorFooter

/-! ## Dearmoring -/

/-- `struct dearmor_context`, with the text in the place of the input function. -/
structure DearmorContext where
  /-- The last sextet we got. -/
  lastoctet : UInt8
  /-- The current octet we're expecting (0, 1 or 2). -/
  curoctet : Nat
  /-- The number of octets we've seen. -/
  count : Nat
  /-- A running CRC24 of the data we've seen. -/
  crc24 : Nat
  /-- The text that is left. -/
  text : List UInt8

/-- `dearmor_init`. -/
def dearmorInit (text : List UInt8) : DearmorContext := ⟨0, 0, 0, crc24Init, text⟩

/-- `dearmor_finish`. -/
def dearmorFinish (state : DearmorContext) : DearmorContext :=
  { state with crc24 := state.crc24 &&& 0xffffff }

/-- Takes characters until one is not skipped. At the end of the text nothing is taken, and the 65
that is still there is itself decoded. -/
def nextSextet : List UInt8 → UInt8 × List UInt8
  | [] => (decode64 65, [])
  | c :: text => if decode64 c = 65 then nextSextet text else (decode64 c, text)

/-- `dearmor_getchar`: an octet, or `none` when the data has come to its end. -/
def dearmorGetchar (state : DearmorContext) : Option UInt8 × DearmorContext :=
  let (tmpc, text) := nextSextet state.text
  if tmpc ≠ 64 then
    let (c, tmpc, text) :=
      match state.curoctet with
      | 0 =>
        let (tmpc', text) := nextSextet text
        ((tmpc <<< 2) + (tmpc' >>> 4), tmpc', text)
      | 1 => (((state.lastoctet &&& 0xF) <<< 4) + (tmpc >>> 2), tmpc, text)
      | 2 => (((state.lastoctet &&& 3) <<< 6) + tmpc, tmpc, text)
      | _ => (0, tmpc, text)
    (if tmpc = 64 then none else some c,
      ⟨tmpc, (state.curoctet + 1) % 3, state.count + 1, crc24Octet state.crc24 c, text⟩)
  else
    (none, { state with text := text })

/-- `dearmor_getchar_c`. -/
def dearmorGetcharC : DearmorContext → Nat → List UInt8 × DearmorContext :=
  eachOrNone dearmorGetchar

/-- The states of the search for the armor header. -/
inductive HeaderState where
  /-- `0`: within a line. -/
  | line
  /-- `1`: at the start of a line, behind some dashes. -/
  | dashes
  /-- `2`: behind five dashes. -/
  | begin
  /-- `3`: in the header lines. -/
  | headers
  /-- `4`: behind the empty line. -/
  | data

/-- One round of the search for the armor header. -/
def headerStep (state : HeaderState) (count : Nat) (curchar : UInt8) : HeaderState × Nat :=
  match state with
  | .line => if curchar = '\n'.toUInt8 then (.dashes, 0) else (.line, count)
  | .dashes =>
    if curchar = '-'.toUInt8 then
      (if count + 1 = 5 then .begin else .dashes, count + 1)
    else if curchar ≠ '\n'.toUInt8 then
      (.line, count)
    else
      (.dashes, count)
  | .begin => if curchar = 'B'.toUInt8 then (.headers, 0) else (.line, count)
  | .headers =>
    if curchar = '\n'.toUInt8 then
      (if count + 1 = 2 then .data else .headers, count + 1)
    else if curchar ≠ '\r'.toUInt8 then
      (.headers, 0)
    else
      (.headers, count)
  | .data => (.data, count)

/-- The text behind the armor header, if there is one. -/
def findHeader : HeaderState → Nat → List UInt8 → Option (List UInt8)
  | .data, _, text => some text
  | _, _, [] => none
  | state, count, curchar :: text =>
    let (state, count) := headerStep state count curchar
    findHeader state count text

/-- What `dearmor_openpgp_stream` leaves behind. -/
structure DearmorResult where
  /-- The packet list. -/
  packets : List Packet
  /-- The dearmor context, if the header was found. -/
  ctx : Option DearmorContext

/-- `dearmor_openpgp_stream`, with at most `fuel` rounds of `read_openpgp_stream`, whose result is
not looked at. -/
def dearmorOpenpgpStream (past : List Packet → UInt8) (fuel : Nat) (text : List UInt8)
    (packets : List Packet) : Option DearmorResult :=
  match findHeader .dashes 0 text with
  | none => some ⟨packets, none⟩
  | some text => do
    let r ← readOpenpgpStream dearmorGetcharC past fuel (dearmorInit text) packets 0
    return ⟨r.packets, some (dearmorFinish r.ctx)⟩

/-- The packets that `dearmor_openpgp_stream` takes from a text, which it reads in fewer rounds than
there are characters, and three. -/
def dearmoredPackets (past : List Packet → UInt8) (text : List UInt8) : List Packet :=
  ((dearmorOpenpgpStream past (text.length + 3) text []).map (·.packets)).getD []

end Onak
