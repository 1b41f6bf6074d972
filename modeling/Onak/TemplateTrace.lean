import Onak.Template

/-!
# What the renderer comes over

`render_range` with a record of its rounds: which sections are open in a round, and where in the
template it begins. Without the record it is the renderer. Which tags stand in a template, and in the
bodies of which sections, is a matter of its text alone.
-/

namespace Onak.Template

open Cursor

/-- The range of a section body, or of the template: `begin`, and the number of characters behind `end`. -/
structure Range where
  /-- `begin`. -/
  start : List UInt8
  /-- What stands behind `end`. -/
  stop : Nat

/-- A round of `render_range`. -/
structure Visit where
  /-- The bodies of the sections around the one that is open, and the template, the innermost first. -/
  outer : List Range
  /-- The body of the section that is open. -/
  body : Range
  /-- Where the round begins. -/
  start : List UInt8

/-- A return code and what has been written, with the rounds on the way. -/
abbrev Traced := Result × List Visit

/-- A round. -/
def Traced.note (visit : Visit) (t : Traced) : Traced := (t.1, visit :: t.2)

/-- A part without rounds. -/
def Traced.of (r : Result) : Traced := (r, [])

/-- `if (rc < 0) return rc;`, and what comes behind it. -/
def Traced.andThen (t : Traced) (next : List UInt8 → Traced) : Traced :=
  if t.1.1 < 0 then t else ((next t.1.2).1, t.2 ++ (next t.1.2).2)

/-- `renderItems`. -/
def traceItems (body : Frames → List UInt8 → Traced) (parent : Frames) :
    List Value → List UInt8 → Traced
  | [], written => .of (0, written)
  | item :: items, written =>
    (body (some item :: parent) written).andThen (traceItems body parent items)

/-- `render_section`. -/
def traceSection (body : Frames → List UInt8 → Traced) (value : Option Value) (inverted : Bool)
    (parent : Frames) (written : List UInt8) : Traced :=
  if inverted then
    if truthy value then .of (0, written) else body (value :: parent) written
  else if !truthy value then
    .of (0, written)
  else
    match value with
    | some (.list items) => traceItems body parent items written
    | value => body (value :: parent) written

section

variable (out : Putc)

/-- `render_range`. -/
def traceRange (outer : List Range) (body : Range) (frames : Frames) (p written : List UInt8) : Traced :=
  if body.stop < p.length then
    .note ⟨outer, body, p⟩ <|
      match h : readTag body.stop p with
      | .literal c rest =>
        (Traced.of (putc out written c)).andThen (traceRange outer body frames rest)
      | .skip rest => traceRange outer body frames rest written
      | .cut => .of (0, written)
      | .malformed => .of (-1, written)
      | .var raw name rest =>
        (Traced.of (emitValue out written (!raw) (lookup frames name))).andThen
          (traceRange outer body frames rest)
      | .sect inverted name rest =>
        match hend : findSectionEnd name 1 rest with
        | none => .of (-1, written)
        | some bodyEnd =>
          (traceSection
            (fun frames => traceRange (body :: outer) ⟨rest, bodyEnd.length⟩ frames rest)
            (lookup frames name) inverted frames written).andThen
            (traceRange outer body frames (skipTag body.stop bodyEnd))
  else
    .of (0, written)
termination_by p.length
decreasing_by
  all_goals have hlt := length_lt_of_readTag ‹_› h
  · exact hlt
  · exact hlt
  · exact hlt
  · exact hlt
  · have hbody := (skipTag_suffix body.stop bodyEnd).trans (findSectionEnd_suffix hend)
    exact hbody.length_le.trans_lt hlt

/-- `tmpl_render`, given an output function and a template. -/
def tmplTrace (template : List UInt8) (root : Option Value) : Traced :=
  traceRange out [] ⟨cString template, 0⟩ [root] (cString template) []

end

/-- The rounds of a rendering whose characters all go out. -/
def rounds (template : List UInt8) (root : Option Value) : List Visit :=
  (tmplTrace (fun _ _ => 0) template root).2

/-! ## Sections in the text -/

/-- The characters and tags of a template, and the bodies in which they stand, whatever is rendered. -/
inductive Occurs (template : List UInt8) : Range → List UInt8 → Prop where
  | start : Occurs template ⟨cString template, 0⟩ (cString template)
  /-- Behind a character, or a tag that opens no section. -/
  | behind {body : Range} {p : List UInt8} {tag : Tag} (h : Occurs template body p)
      (hp : body.stop < p.length) (htag : readTag body.stop p = tag)
      (hsect : ∀ inverted name rest, tag ≠ .sect inverted name rest) : Occurs template body tag.rest
  /-- Behind a tag with which the renderer ends. -/
  | malformed {body : Range} {p : List UInt8} (h : Occurs template body p)
      (hp : body.stop < p.length) (htag : readTag body.stop p = .malformed) :
      Occurs template body (skipTag body.stop (p.drop 2))
  /-- In the body of a section. -/
  | inside {body : Range} {p name rest bodyEnd : List UInt8} {inverted : Bool}
      (h : Occurs template body p) (hp : body.stop < p.length)
      (htag : readTag body.stop p = .sect inverted name rest)
      (hend : findSectionEnd name 1 rest = some bodyEnd) : Occurs template ⟨rest, bodyEnd.length⟩ rest
  /-- Behind a section. -/
  | past {body : Range} {p name rest bodyEnd : List UInt8} {inverted : Bool}
      (h : Occurs template body p) (hp : body.stop < p.length)
      (htag : readTag body.stop p = .sect inverted name rest)
      (hend : findSectionEnd name 1 rest = some bodyEnd) :
      Occurs template body (skipTag body.stop bodyEnd)

/-- Each section of a template is closed inside of the one in which it is opened. -/
def ProperlyNested (template : List UInt8) : Prop :=
  ∀ {body p inverted name rest}, Occurs template body p → body.stop < p.length →
    readTag body.stop p = .sect inverted name rest →
      ∃ bodyEnd, findSectionEnd name 1 rest = some bodyEnd ∧ body.stop < bodyEnd.length

end Onak.Template
