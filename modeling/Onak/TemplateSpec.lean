import Onak.Template

/-!
# What templates mean

Templates as syntax trees, with their text and their meaning, and what it is for two values to
differ in nothing but their texts and numbers.
-/

namespace Onak.Template

open Print

/-- An output function that never fails. -/
def NeverFails (out : Putc) : Prop := ∀ written c, 0 ≤ out written c

/-! ## Syntax trees -/

/-- A template. -/
inductive Tree where
  | nil
  | literal (text : List UInt8) (rest : Tree)
  | escaped (name : List UInt8) (rest : Tree)
  | raw (name : List UInt8) (rest : Tree)
  | comment (text : List UInt8) (rest : Tree)
  | sect (inverted : Bool) (name : List UInt8) (body rest : Tree)

/-- A tag. -/
def tag (inner : List UInt8) : List UInt8 := lbrace :: lbrace :: (inner ++ [rbrace, rbrace])

/-- The character that opens a section. -/
def sectChar (inverted : Bool) : UInt8 := if inverted then '^'.toUInt8 else '#'.toUInt8

/-- The text of a template. -/
def Tree.print : Tree → List UInt8
  | .nil => []
  | .literal text rest => text ++ rest.print
  | .escaped name rest => tag name ++ rest.print
  | .raw name rest => tag (lbrace :: (name ++ [rbrace])) ++ rest.print
  | .comment text rest => tag ('!'.toUInt8 :: text) ++ rest.print
  | .sect inverted name body rest =>
    tag (sectChar inverted :: name) ++ (body.print ++ (tag ('/'.toUInt8 :: name) ++ rest.print))

/-- A name without blanks and braces that does not start like another tag. -/
def NameOk (name : List UInt8) : Prop :=
  name ≠ [] ∧ (∀ c ∈ name, c ≠ 0 ∧ isBlank c = false ∧ c ≠ lbrace ∧ c ≠ rbrace) ∧
    name.getD 0 0 ∉ ['#'.toUInt8, '^'.toUInt8, '/'.toUInt8, '!'.toUInt8]

instance (name : List UInt8) : Decidable (NameOk name) :=
  have : Decidable (∀ c ∈ name, c ≠ 0 ∧ isBlank c = false ∧ c ≠ lbrace ∧ c ≠ rbrace) :=
    List.decidableBAll _ name
  inferInstanceAs (Decidable (name ≠ [] ∧ _ ∧ _))

/-- A tree whose names are all right, and whose literals and comments are as given. Whether a
literal is may depend on what follows, in the end on whether a closing tag follows the tree. -/
def Tree.WellFormed (literalOk : Bool → List UInt8 → Tree → Prop) (commentOk : List UInt8 → Prop)
    (closing : Bool) : Tree → Prop
  | .nil => True
  | .literal text rest =>
    0 ∉ text ∧ literalOk closing text rest ∧ rest.WellFormed literalOk commentOk closing
  | .escaped name rest => NameOk name ∧ rest.WellFormed literalOk commentOk closing
  | .raw name rest => NameOk name ∧ rest.WellFormed literalOk commentOk closing
  | .comment text rest =>
    0 ∉ text ∧ commentOk text ∧ rest.WellFormed literalOk commentOk closing
  | .sect _ name body rest =>
    NameOk name ∧ body.WellFormed literalOk commentOk true ∧
      rest.WellFormed literalOk commentOk closing

instance Tree.decidableWellFormed (literalOk : Bool → List UInt8 → Tree → Prop)
    (commentOk : List UInt8 → Prop) [∀ closing text rest, Decidable (literalOk closing text rest)]
    [∀ text, Decidable (commentOk text)] (closing : Bool) :
    (t : Tree) → Decidable (t.WellFormed literalOk commentOk closing)
  | .nil => inferInstanceAs (Decidable True)
  | .literal text rest =>
    have := rest.decidableWellFormed literalOk commentOk closing
    inferInstanceAs (Decidable (0 ∉ text ∧ literalOk closing text rest ∧ _))
  | .escaped name rest | .raw name rest =>
    have := rest.decidableWellFormed literalOk commentOk closing
    inferInstanceAs (Decidable (NameOk name ∧ _))
  | .comment text rest =>
    have := rest.decidableWellFormed literalOk commentOk closing
    inferInstanceAs (Decidable (0 ∉ text ∧ commentOk text ∧ _))
  | .sect _ name body rest =>
    have := body.decidableWellFormed literalOk commentOk true
    have := rest.decidableWellFormed literalOk commentOk closing
    inferInstanceAs (Decidable (NameOk name ∧ _ ∧ _))

/-- Whether a tag comes next. -/
def Tree.beforeTag (closing : Bool) : Tree → Bool
  | .nil => closing
  | .literal _ _ => false
  | _ => true

/-- Whether an opening brace comes next. -/
def Tree.beforeBrace (closing : Bool) : Tree → Bool
  | .nil => closing
  | .literal [] rest => rest.beforeBrace closing
  | .literal (c :: _) _ => c = lbrace
  | _ => true

/-- Trees whose literals do not contain two opening braces and do not end in one before a tag, and
whose comments do not contain two closing braces. -/
def Tree.Plain : Tree → Prop :=
  Tree.WellFormed
    (fun closing text rest => ¬ [lbrace, lbrace] <:+: text ∧
      (rest.beforeTag closing → text.getLast? ≠ some lbrace))
    (fun text => ¬ [rbrace, rbrace] <:+: text) false

/-- Trees whose texts can be told apart: a literal does not end in an opening brace before another
one either, and a comment does not end in a closing brace. -/
def Tree.Readable (closing : Bool) : Tree → Prop :=
  Tree.WellFormed
    (fun closing text rest => ¬ [lbrace, lbrace] <:+: text ∧
      (rest.beforeBrace closing → text.getLast? ≠ some lbrace))
    (fun text => ¬ [rbrace, rbrace] <:+: text ∧ text.getLast? ≠ some rbrace) closing

instance (t : Tree) : Decidable t.Plain := by
  unfold Tree.Plain
  infer_instance

instance (closing : Bool) (t : Tree) : Decidable (t.Readable closing) := by
  unfold Tree.Readable
  infer_instance

/-! ## Meaning -/

/-- The value of a dotted name: the first segment is looked up from the innermost frame outwards,
the others inside maps. -/
def resolveDotted (frames : Frames) (name : List UInt8) : Option Value :=
  match name.splitOn '.'.toUInt8 with
  | [] => none
  | first :: segments =>
    (frames.findSome? (mapGet first)).bind fun value =>
      segments.foldlM (fun value segment => mapGet segment (some value)) value

/-- The value of a name: a single dot stands for the value of the innermost frame. -/
def resolve (frames : Frames) (name : List UInt8) : Option Value :=
  if name = ['.'.toUInt8] then frames.head?.join else resolveDotted frames name

/-- The text of a value. -/
def valueText (escaped : Bool) : Option Value → List UInt8
  | some (.bool b) => if b then ascii "true" else ascii "false"
  | some (.int i) => int i.toInt
  | some (.string s) => if escaped then s.flatMap escape else s
  | _ => []

/-- The values a section pushes, one for each time its body is rendered. -/
def pushed (inverted : Bool) (value : Option Value) : List (Option Value) :=
  if inverted then
    if truthy value then [] else [value]
  else if truthy value then
    match value with
    | some (.list items) => items.map some
    | value => [value]
  else
    []

/-- The meaning of a template. -/
def Tree.denote (look : Frames → List UInt8 → Option Value) : Tree → Frames → List UInt8
  | .nil, _ => []
  | .literal text rest, frames => text ++ rest.denote look frames
  | .escaped name rest, frames => valueText true (look frames name) ++ rest.denote look frames
  | .raw name rest, frames => valueText false (look frames name) ++ rest.denote look frames
  | .comment _ rest, frames => rest.denote look frames
  | .sect inverted name body rest, frames =>
    (pushed inverted (look frames name)).flatMap (fun value => body.denote look (value :: frames)) ++
      rest.denote look frames

/-! ## Data and markup -/

/-- Values that differ in nothing but the contents of non-empty strings and in non-zero numbers. -/
inductive Alike : Value → Value → Prop
  | null : Alike .null .null
  | bool (b : Bool) : Alike (.bool b) (.bool b)
  | int {i j : Int64} (h : i = 0 ↔ j = 0) : Alike (.int i) (.int j)
  | string {s t : List UInt8} (h : s = [] ↔ t = []) : Alike (.string s) (.string t)
  | list {items items' : List Value} (h : List.Forall₂ Alike items items') :
    Alike (.list items) (.list items')
  | map {pairs pairs' : List (List UInt8 × Value)}
    (hkeys : pairs.map Prod.fst = pairs'.map Prod.fst)
    (h : List.Forall₂ Alike (pairs.map Prod.snd) (pairs'.map Prod.snd)) :
    Alike (.map pairs) (.map pairs')

/-- A less-than or greater-than sign or a quote. -/
def isMarkup (c : UInt8) : Bool :=
  c = '<'.toUInt8 ∨ c = '>'.toUInt8 ∨ c = '"'.toUInt8 ∨ c = 39

/-- The signs of an output that can be markup. -/
def markup (output : List UInt8) : List UInt8 := output.filter isMarkup

/-- No two opening braces are followed by blanks and a third one. -/
def NoRawTag (template : List UInt8) : Prop :=
  ∀ p, p <:+ template → opens p = true → ((p.drop 2).dropWhile isBlank).getD 0 0 ≠ lbrace

end Onak.Template
