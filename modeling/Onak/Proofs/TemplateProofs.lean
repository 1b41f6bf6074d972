import Onak.TemplateSpec

/-!
# Templates: output, and one round of the renderer

What an output function that never fails makes of a text, and the equations of `render_range`, one
for each kind of tag.
-/

namespace Onak.Template

open Cursor Print

/-! ## Output -/

section

variable {out : Putc} {written : List UInt8}

@[simp]
theorem andThen_zero (next : List UInt8 → Result) : Result.andThen (0, written) next = next written :=
  if_neg (by simp)

theorem putc_eq (hout : NeverFails out) (c : UInt8) : putc out written c = (0, written ++ [c]) :=
  if_neg (not_lt.mpr (hout written c))

theorem emitStr_eq (hout : NeverFails out) (s : List UInt8) :
    emitStr out written s = (0, written ++ s) := by
  induction s generalizing written with
  | nil => rw [emitStr, List.append_nil]
  | cons c s ih =>
    rw [emitStr, putc_eq hout, andThen_zero, ih, List.append_assoc]
    rfl

theorem emitEscaped_eq (hout : NeverFails out) (s : List UInt8) :
    emitEscaped out written s = (0, written ++ s.flatMap escape) := by
  induction s generalizing written with
  | nil => rw [emitEscaped, List.flatMap_nil, List.append_nil]
  | cons c s ih =>
    rw [emitEscaped, emitStr_eq hout, andThen_zero, ih, List.append_assoc, List.flatMap_cons]

theorem emitValue_eq (hout : NeverFails out) (escape : Bool) (value : Option Value) :
    emitValue out written escape value = (0, written ++ valueText escape value) := by
  have hnone : ((0 : Int), written) = (0, written ++ []) := by rw [List.append_nil]
  match value with
  | none => exact hnone
  | some .null => exact hnone
  | some (.bool b) => exact emitStr_eq hout _
  | some (.int i) => exact emitStr_eq hout _
  | some (.string s) =>
    cases escape with
    | false => exact emitStr_eq hout s
    | true => exact emitEscaped_eq hout s
  | some (.list items) => exact hnone
  | some (.map pairs) => exact hnone

/-! ## A round of the renderer -/

variable {stop : Nat} {frames : Frames} {p rest name : List UInt8}

theorem renderRange_of_le (h : p.length ≤ stop) :
    renderRange out stop frames p written = (0, written) := by
  rw [renderRange, if_neg (not_lt.mpr h)]

theorem renderRange_literal {c : UInt8} (hp : stop < p.length)
    (h : readTag stop p = .literal c rest) :
    renderRange out stop frames p written =
      (putc out written c).andThen (renderRange out stop frames rest) := by
  rw [renderRange, if_pos hp]
  split <;> simp_all

theorem renderRange_skip (hp : stop < p.length) (h : readTag stop p = .skip rest) :
    renderRange out stop frames p written = renderRange out stop frames rest written := by
  rw [renderRange, if_pos hp]
  split <;> simp_all

theorem renderRange_cut (hp : stop < p.length) (h : readTag stop p = .cut) :
    renderRange out stop frames p written = (0, written) := by
  rw [renderRange, if_pos hp]
  split <;> simp_all

theorem renderRange_malformed (hp : stop < p.length) (h : readTag stop p = .malformed) :
    renderRange out stop frames p written = (-1, written) := by
  rw [renderRange, if_pos hp]
  split <;> simp_all

theorem renderRange_var {raw : Bool} (hp : stop < p.length) (h : readTag stop p = .var raw name rest) :
    renderRange out stop frames p written =
      (emitValue out written (!raw) (lookup frames name)).andThen
        (renderRange out stop frames rest) := by
  rw [renderRange, if_pos hp]
  split <;> simp_all

theorem renderRange_unmatched {inverted : Bool} (hp : stop < p.length)
    (h : readTag stop p = .sect inverted name rest) (hend : findSectionEnd name 1 rest = none) :
    renderRange out stop frames p written = (-1, written) := by
  rw [renderRange, if_pos hp]
  split <;> simp_all
  split <;> simp_all

theorem renderRange_sect {inverted : Bool} {bodyEnd : List UInt8} (hp : stop < p.length)
    (h : readTag stop p = .sect inverted name rest)
    (hend : findSectionEnd name 1 rest = some bodyEnd) :
    renderRange out stop frames p written =
      (renderSection (fun frames => renderRange out bodyEnd.length frames rest) (lookup frames name)
        inverted frames written).andThen (renderRange out stop frames (skipTag stop bodyEnd)) := by
  rw [renderRange, if_pos hp]
  split <;> simp_all
  split <;> simp_all

end

end Onak.Template
