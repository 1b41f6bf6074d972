import Onak.Lib.Cursor
import Onak.Lib.Print
import Onak.Marshal

/-!
# Templates

`template.c`: values, the lookup of names, and the renderer. It has no parser: `render_range` goes
over the text with a pointer, and `find_section_end` goes over it once more to find where a section
ends. A pointer into the template is the text behind it, and `end` is the number of characters that
stand behind the range (see `Cursor`). Memory is always to be had.
-/

namespace Onak.Template

open Cursor Print

/-! ## Values -/

/-- `struct tmpl_value`. -/
inductive Value where
  | null
  | bool (b : Bool)
  | int (i : Int64)
  | string (s : List UInt8)
  | list (items : List Value)
  | map (pairs : List (List UInt8 × Value))

/-- The chain of `struct tmpl_ctx_frame`, innermost first. A value may be `NULL`. -/
abbrev Frames := List (Option Value)

/-- `map_get`. -/
def mapGet (key : List UInt8) : Option Value → Option Value
  | some (.map pairs) => pairs.lookup key
  | _ => none

/-- The loop of `lookup` over the segments behind the first one. The text is empty, or starts with
the dot in front of the next segment. -/
def lookupSegments (cur : Value) : List UInt8 → Option Value
  | [] => some cur
  | _ :: seg =>
    match mapGet (seg.takeWhile (· ≠ '.'.toUInt8)) (some cur) with
    | none => none
    | some cur => lookupSegments cur (seg.dropWhile (· ≠ '.'.toUInt8))
termination_by text => text.length
decreasing_by
  have := List.length_dropWhile_le (· ≠ '.'.toUInt8) seg
  simp only [List.length_cons]
  omega

/-- `lookup`. -/
def lookup (frames : Frames) (name : List UInt8) : Option Value :=
  if name = ['.'.toUInt8] then
    frames.head?.join
  else
    match frames.findSome? (mapGet (name.takeWhile (· ≠ '.'.toUInt8))) with
    | none => none
    | some cur => lookupSegments cur (name.dropWhile (· ≠ '.'.toUInt8))

/-- `truthy`. -/
def truthy : Option Value → Bool
  | none => false
  | some .null => false
  | some (.bool b) => b
  | some (.int i) => i ≠ 0
  | some (.string s) => 0 < s.length
  | some (.list items) => 0 < items.length
  | some (.map _) => true

/-! ## Output -/

/-- `tmpl_putc`: what the output function returns for a character, given what it has written. -/
abbrev Putc := List UInt8 → UInt8 → Int

/-- A return code, with what has been written. -/
abbrev Result := Int × List UInt8

/-- `if (rc < 0) return rc;`, and what comes behind it. -/
def Result.andThen (r : Result) (next : List UInt8 → Result) : Result :=
  if r.1 < 0 then r else next r.2

/-- The replacements of `emit_escaped`. -/
def escape (c : UInt8) : List UInt8 :=
  if c = '<'.toUInt8 then ascii "&lt;"
  else if c = '>'.toUInt8 then ascii "&gt;"
  else if c = '&'.toUInt8 then ascii "&amp;"
  else if c = '"'.toUInt8 then ascii "&quot;"
  else if c = 39 then ascii "&#39;"
  else [c]

section

variable (out : Putc)

/-- A call of `out`. -/
def putc (written : List UInt8) (c : UInt8) : Result :=
  if out written c < 0 then (out written c, written) else (0, written ++ [c])

/-- `emit_str`. -/
def emitStr (written : List UInt8) : List UInt8 → Result
  | [] => (0, written)
  | c :: s => (putc out written c).andThen fun written => emitStr written s

/-- `emit_escaped`. -/
def emitEscaped (written : List UInt8) : List UInt8 → Result
  | [] => (0, written)
  | c :: s => (emitStr out written (escape c)).andThen fun written => emitEscaped written s

/-- `emit_value`. -/
def emitValue (written : List UInt8) (escape : Bool) : Option Value → Result
  | some (.bool b) => emitStr out written (if b then ascii "true" else ascii "false")
  | some (.int i) => emitStr out written (int i.toInt)
  | some (.string s) => if escape then emitEscaped out written s else emitStr out written s
  | _ => (0, written)

end

/-! ## Scanning -/

def lbrace : UInt8 := '{'.toUInt8

def rbrace : UInt8 := '}'.toUInt8

def isBlank (c : UInt8) : Bool := c = ' '.toUInt8 ∨ c = '\t'.toUInt8

/-- `*p == ' ' || *p == '\t'`. -/
def atBlank (p : List UInt8) : Bool := isBlank (p.getD 0 0)

/-- `*p` belongs to a name. -/
def inName (p : List UInt8) : Bool := !isBlank (p.getD 0 0) && p.getD 0 0 ≠ rbrace

/-- `p[0] == '\x7b' && p[1] == '\x7b'`. -/
def opens (p : List UInt8) : Bool := p.getD 0 0 = lbrace ∧ p.getD 1 0 = lbrace

/-- `p[0] == '\x7d' && p[1] == '\x7d'`. -/
def closes (p : List UInt8) : Bool := p.getD 0 0 = rbrace ∧ p.getD 1 0 = rbrace

/-- `closes`, with one brace more. -/
def closesRaw (p : List UInt8) : Bool := closes p ∧ p.getD 2 0 = rbrace

/-- To the end of a tag, and past it if it has one. -/
def skipTag (stop : Nat) (p : List UInt8) : List UInt8 :=
  let p := advance stop (fun p => !closes p) p
  if stop < p.length then p.drop 2 else p

/-- The text between two pointers. -/
def textBetween (p q : List UInt8) : List UInt8 := p.take (p.length - q.length)

/-! ## The end of a section -/

/-- What a round of `find_section_end` comes over, and where it goes on: a tag that opens or closes
a section, or something else. -/
inductive Mark where
  | other (rest : List UInt8)
  | opening (name rest : List UInt8)
  | closing (name rest : List UInt8)

/-- A round of `find_section_end` at a tag with a name. -/
def readMarkName (tag : UInt8) (p : List UInt8) : Mark :=
  let tname := advance 0 atBlank p
  let p := advance 0 inName tname
  let name := textBetween tname p
  let p := advance 0 atBlank p
  if closes p then
    if tag = '/'.toUInt8 then .closing name (p.drop 2) else .opening name (p.drop 2)
  else
    .other p

/-- A round of `find_section_end`. -/
def readMark (p : List UInt8) : Mark :=
  if opens p then
    let p := advance 0 atBlank (p.drop 2)
    let tag := p.getD 0 0
    if tag = '#'.toUInt8 ∨ tag = '^'.toUInt8 ∨ tag = '/'.toUInt8 then
      readMarkName tag (p.drop 1)
    else if tag = '!'.toUInt8 then
      .other (skipTag 0 p)
    else if tag = lbrace then
      let p := advance 0 (fun p => !closesRaw p) (p.drop 1)
      .other (if 0 < p.length then p.drop 3 else p)
    else
      .other (skipTag 0 p)
  else
    .other (p.drop 1)

/-- Where a round goes on. -/
def Mark.rest : Mark → List UInt8
  | .other rest => rest
  | .opening _ rest => rest
  | .closing _ rest => rest

theorem skipTag_suffix (stop : Nat) (p : List UInt8) : skipTag stop p <:+ p := by
  have hadvance := advance_suffix stop (fun p => !closes p) p
  unfold skipTag
  simp only
  split_ifs
  · exact (List.drop_suffix 2 _).trans hadvance
  · exact hadvance

theorem readMarkName_suffix (tag : UInt8) (p : List UInt8) : (readMarkName tag p).rest <:+ p := by
  have hname := ((advance_suffix 0 atBlank _).trans (advance_suffix 0 inName _)).trans
    (advance_suffix 0 atBlank p)
  unfold readMarkName
  simp only
  split_ifs
  · exact (List.drop_suffix 2 _).trans hname
  · exact (List.drop_suffix 2 _).trans hname
  · exact hname

theorem readMark_suffix (p : List UInt8) : (readMark p).rest <:+ p.drop 1 := by
  have hblank : advance 0 atBlank (p.drop 2) <:+ p.drop 1 :=
    (advance_suffix 0 atBlank _).trans (List.drop_suffix_drop_left p (by decide))
  have hone := (List.drop_suffix 1 _).trans hblank
  unfold readMark
  simp only
  split_ifs
  · exact (readMarkName_suffix _ _).trans hone
  · exact (skipTag_suffix 0 _).trans hblank
  · exact ((List.drop_suffix 3 _).trans (advance_suffix 0 _ _)).trans hone
  · exact (advance_suffix 0 _ _).trans hone
  · exact (skipTag_suffix 0 _).trans hblank
  · exact List.suffix_refl _

theorem length_lt_of_suffix_drop {p q : List UInt8} (hp : 0 < p.length) (h : q <:+ p.drop 1) :
    q.length < p.length := by
  have hle := h.length_le
  rw [List.length_drop] at hle
  omega

theorem length_lt_of_readMark {p : List UInt8} {mark : Mark} (hp : p ≠ []) (h : readMark p = mark) :
    mark.rest.length < p.length :=
  length_lt_of_suffix_drop (List.length_pos_of_ne_nil hp) (h ▸ readMark_suffix p)

/-- `find_section_end`: the text from the closing tag on. -/
def findSectionEnd (name : List UInt8) (depth : Nat) (p : List UInt8) : Option (List UInt8) :=
  if p = [] then
    none
  else
    match h : readMark p with
    | .other rest => findSectionEnd name depth rest
    | .opening tname rest =>
      findSectionEnd name (if tname = name then depth + 1 else depth) rest
    | .closing tname rest =>
      if tname = name then
        if depth = 1 then some p else findSectionEnd name (depth - 1) rest
      else
        findSectionEnd name depth rest
termination_by p.length
decreasing_by
  all_goals exact length_lt_of_readMark ‹_› h

theorem suffix_of_readMark {p : List UInt8} {mark : Mark} (h : readMark p = mark) :
    mark.rest <:+ p := (h ▸ readMark_suffix p).trans (List.drop_suffix 1 p)

theorem findSectionEnd_suffix {name : List UInt8} {depth : Nat} {p q : List UInt8}
    (h : findSectionEnd name depth p = some q) : q <:+ p := by
  fun_induction findSectionEnd name depth p with
  | case1 depth => exact absurd h (Option.some_ne_none q).symm
  | case2 depth p hp rest hmark ih => exact (ih h).trans (suffix_of_readMark hmark)
  | case3 depth p hp tname rest hmark ih => exact (ih h).trans (suffix_of_readMark hmark)
  | case4 p hp rest hmark =>
    obtain rfl := Option.some.inj h
    exact List.suffix_refl _
  | case5 depth p hp rest hdepth hmark ih => exact (ih h).trans (suffix_of_readMark hmark)
  | case6 depth p hp tname rest hmark hname ih => exact (ih h).trans (suffix_of_readMark hmark)

/-! ## Rendering -/

/-- What a round of `render_range` comes to, and where it goes on. -/
inductive Tag where
  /-- A character that is written as it is. -/
  | literal (c : UInt8) (rest : List UInt8)
  /-- A comment, or a closing tag that belongs to no section. -/
  | skip (rest : List UInt8)
  /-- The range ends inside the tag. -/
  | cut
  | malformed
  | var (raw : Bool) (name rest : List UInt8)
  | sect (inverted : Bool) (name rest : List UInt8)

/-- The name of a tag, and the `braces + 1` braces that close it. -/
def readTagName (stop braces : Nat) (tag : List UInt8 → List UInt8 → Tag) (p : List UInt8) : Tag :=
  let start := advance stop atBlank p
  let p := advance stop inName start
  let name := textBetween start p
  let p := advance stop atBlank p
  if p.length ≤ stop + braces ∨ p.take (braces + 1) ≠ List.replicate (braces + 1) rbrace then
    .malformed
  else
    tag name (p.drop (braces + 1))

/-- A round of `render_range`, up to where it looks up the value. -/
def readTag (stop : Nat) (p : List UInt8) : Tag :=
  if opens p then
    let p := advance stop atBlank (p.drop 2)
    let kind := p.getD 0 0
    if p.length ≤ stop then
      .cut
    else if kind = lbrace then
      readTagName stop 2 (.var true) (p.drop 1)
    else if kind = '#'.toUInt8 then
      readTagName stop 1 (.sect false) (p.drop 1)
    else if kind = '^'.toUInt8 then
      readTagName stop 1 (.sect true) (p.drop 1)
    else if kind = '/'.toUInt8 ∨ kind = '!'.toUInt8 then
      .skip (skipTag stop p)
    else
      readTagName stop 1 (.var false) p
  else
    .literal (p.getD 0 0) (p.drop 1)

/-- Where a round goes on. -/
def Tag.rest : Tag → List UInt8
  | .literal _ rest => rest
  | .skip rest => rest
  | .cut => []
  | .malformed => []
  | .var _ _ rest => rest
  | .sect _ _ rest => rest

theorem readTagName_suffix {stop braces : Nat} {tag : List UInt8 → List UInt8 → Tag}
    (htag : ∀ name rest, (tag name rest).rest = rest) (p : List UInt8) :
    (readTagName stop braces tag p).rest <:+ p := by
  have hname := ((advance_suffix stop atBlank _).trans (advance_suffix stop inName _)).trans
    (advance_suffix stop atBlank p)
  unfold readTagName
  simp only
  split_ifs
  · exact List.nil_suffix
  · rw [htag]
    exact (List.drop_suffix _ _).trans hname

theorem readTag_suffix (stop : Nat) (p : List UInt8) : (readTag stop p).rest <:+ p.drop 1 := by
  have hblank : advance stop atBlank (p.drop 2) <:+ p.drop 1 :=
    (advance_suffix stop atBlank _).trans (List.drop_suffix_drop_left p (by decide))
  have hone := (List.drop_suffix 1 _).trans hblank
  unfold readTag
  simp only
  split_ifs
  · exact List.nil_suffix
  · exact (readTagName_suffix (fun _ _ => rfl) _).trans hone
  · exact (readTagName_suffix (fun _ _ => rfl) _).trans hone
  · exact (readTagName_suffix (fun _ _ => rfl) _).trans hone
  · exact (skipTag_suffix stop _).trans hblank
  · exact (readTagName_suffix (fun _ _ => rfl) _).trans hblank
  · exact List.suffix_refl _

theorem length_lt_of_readTag {stop : Nat} {p : List UInt8} {tag : Tag} (hp : stop < p.length)
    (h : readTag stop p = tag) : tag.rest.length < p.length :=
  length_lt_of_suffix_drop (Nat.zero_lt_of_lt hp) (h ▸ readTag_suffix stop p)

/-- The loop of `render_section` over the items of a list. -/
def renderItems (body : Frames → List UInt8 → Result) (parent : Frames) :
    List Value → List UInt8 → Result
  | [], written => (0, written)
  | item :: items, written =>
    (body (some item :: parent) written).andThen (renderItems body parent items)

/-- `render_section`, with what `render_range` does on the body. -/
def renderSection (body : Frames → List UInt8 → Result) (value : Option Value) (inverted : Bool)
    (parent : Frames) (written : List UInt8) : Result :=
  if inverted then
    if truthy value then (0, written) else body (value :: parent) written
  else if !truthy value then
    (0, written)
  else
    match value with
    | some (.list items) => renderItems body parent items written
    | value => body (value :: parent) written

section

variable (out : Putc)

/-- `render_range`. -/
def renderRange (stop : Nat) (frames : Frames) (p written : List UInt8) : Result :=
  if stop < p.length then
    match h : readTag stop p with
    | .literal c rest => (putc out written c).andThen (renderRange stop frames rest)
    | .skip rest => renderRange stop frames rest written
    | .cut => (0, written)
    | .malformed => (-1, written)
    | .var raw name rest =>
      (emitValue out written (!raw) (lookup frames name)).andThen (renderRange stop frames rest)
    | .sect inverted name rest =>
      match hend : findSectionEnd name 1 rest with
      | none => (-1, written)
      | some bodyEnd =>
        (renderSection (fun frames => renderRange bodyEnd.length frames rest) (lookup frames name)
          inverted frames written).andThen
          (renderRange stop frames (skipTag stop bodyEnd))
  else
    (0, written)
termination_by p.length
decreasing_by
  all_goals have hlt := length_lt_of_readTag ‹_› h
  · exact hlt
  · exact hlt
  · exact hlt
  · exact hlt
  · have hbody := (skipTag_suffix stop bodyEnd).trans (findSectionEnd_suffix hend)
    exact hbody.length_le.trans_lt hlt

end

/-- `tmpl_render`: the return code, and what has been written. -/
def tmplRender : Option Putc → Option (List UInt8) → Option Value → Result
  | some out, some template, root => renderRange out 0 [root] (cString template) []
  | _, _, _ => (-1, [])

end Onak.Template
