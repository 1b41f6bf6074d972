import Onak.Proofs.TemplateProofs

/-!
# Data do not change the markup

Two runs of the renderer on values that are alike: the same tags are read whatever the values are,
the values found are alike, sections are taken and repeated alike, and what is written for a value
has no markup in it unless it is the same.
-/

namespace Onak.Template

open Cursor Print

/-! ## Values that are alike -/

theorem lookup_alike (key : List UInt8) {pairs pairs' : List (List UInt8 × Value)}
    (hkeys : pairs.map Prod.fst = pairs'.map Prod.fst)
    (h : List.Forall₂ Alike (pairs.map Prod.snd) (pairs'.map Prod.snd)) :
    Option.Rel Alike (pairs.lookup key) (pairs'.lookup key) := by
  induction pairs generalizing pairs' with
  | nil =>
    rw [List.map_nil] at hkeys
    obtain rfl := List.map_eq_nil_iff.mp hkeys.symm
    exact .none
  | cons pair pairs ih =>
    cases pairs' with
    | nil => exact absurd hkeys (List.cons_ne_nil _ _)
    | cons pair' pairs' =>
      obtain ⟨k, v⟩ := pair
      obtain ⟨k', v'⟩ := pair'
      obtain ⟨rfl, hrest⟩ : k = k' ∧ pairs.map Prod.fst = pairs'.map Prod.fst :=
        List.cons.inj hkeys
      obtain ⟨hv, h⟩ := List.forall₂_cons.mp h
      simp only [List.lookup_cons]
      split
      · exact .some hv
      · exact ih hrest h

theorem mapGet_alike (key : List UInt8) {value value' : Option Value}
    (h : Option.Rel Alike value value') :
    Option.Rel Alike (mapGet key value) (mapGet key value') := by
  cases h with
  | none => exact .none
  | some h =>
    cases h with
    | map hkeys h => exact lookup_alike key hkeys h
    | null | bool | int | string | list => exact .none

theorem lookupSegments_alike {value value' : Value} (h : Alike value value') (text : List UInt8) :
    Option.Rel Alike (lookupSegments value text) (lookupSegments value' text) := by
  induction hn : text.length using Nat.strong_induction_on generalizing text value value' with
  | _ n ih =>
    subst hn
    cases text with
    | nil =>
      rw [lookupSegments, lookupSegments]
      exact .some h
    | cons c seg =>
      have hget := mapGet_alike (seg.takeWhile (· ≠ '.'.toUInt8)) (Option.Rel.some h)
      have hlength := List.length_dropWhile_le (· ≠ '.'.toUInt8) seg
      rw [lookupSegments, lookupSegments]
      revert hget
      generalize mapGet _ (some value) = found
      generalize mapGet _ (some value') = found'
      intro hget
      cases hget with
      | none => exact .none
      | some hcur => exact ih _ (by rw [List.length_cons]; omega) hcur _ rfl

theorem findSome_alike (key : List UInt8) {frames frames' : Frames}
    (h : List.Forall₂ (Option.Rel Alike) frames frames') :
    Option.Rel Alike (frames.findSome? (mapGet key)) (frames'.findSome? (mapGet key)) := by
  induction h with
  | nil => exact .none
  | cons hvalue hframes ih =>
    have hget := mapGet_alike key hvalue
    rw [List.findSome?_cons, List.findSome?_cons]
    revert hget
    generalize mapGet key _ = found
    generalize mapGet key _ = found'
    intro hget
    cases hget with
    | none => exact ih
    | some hfound => exact .some hfound

theorem lookup_rel {frames frames' : Frames} (h : List.Forall₂ (Option.Rel Alike) frames frames')
    (name : List UInt8) : Option.Rel Alike (lookup frames name) (lookup frames' name) := by
  unfold lookup
  split_ifs
  · cases h with
    | nil => exact .none
    | cons hvalue hframes => exact hvalue
  · have hfirst := findSome_alike (name.takeWhile (· ≠ '.'.toUInt8)) h
    revert hfirst
    generalize frames.findSome? _ = found
    generalize frames'.findSome? _ = found'
    intro hfirst
    cases hfirst with
    | none => exact .none
    | some hcur => exact lookupSegments_alike hcur _

theorem truthy_alike {value value' : Option Value} (h : Option.Rel Alike value value') :
    truthy value = truthy value' := by
  cases h with
  | none => rfl
  | some h =>
    cases h with
    | null => rfl
    | bool b => rfl
    | int h => simp only [truthy, ne_eq, h]
    | string h => simp only [truthy, List.length_pos_iff_ne_nil, ne_eq, h]
    | list h => simp only [truthy, h.length_eq]
    | map hkeys h => rfl

/-! ## What is written for a value -/

theorem markup_append (a b : List UInt8) : markup (a ++ b) = markup a ++ markup b :=
  List.filter_append ..

theorem markup_eq_nil {text : List UInt8} (h : ∀ c ∈ text, isMarkup c = false) : markup text = [] :=
  List.filter_eq_nil_iff.mpr fun c hc => by simp [h c hc]

theorem markup_escape (c : UInt8) : markup (escape c) = [] := by
  unfold escape
  split_ifs with h₁ h₂ h₃ h₄ h₅
  · decide
  · decide
  · decide
  · decide
  · decide
  · refine markup_eq_nil fun d hd => ?_
    obtain rfl := List.mem_singleton.mp hd
    simp [isMarkup, h₁, h₂, h₄, h₅]

theorem markup_int (i : Int) : markup (int i) = [] := by
  refine markup_eq_nil fun c hc => ?_
  rcases isDigit_of_mem_int hc with rfl | hdigit
  · decide
  · rw [isMarkup, decide_eq_false_iff_not]
    rintro (rfl | rfl | rfl | rfl) <;> exact absurd hdigit (by unfold IsDigit; decide)

theorem markup_valueText {value value' : Option Value} (h : Option.Rel Alike value value') :
    markup (valueText true value) = markup (valueText true value') := by
  have hescaped : ∀ s : List UInt8, markup (s.flatMap escape) = [] := by
    intro s
    induction s with
    | nil => rfl
    | cons c s ih => rw [List.flatMap_cons, markup_append, markup_escape, ih, List.append_nil]
  cases h with
  | none => rfl
  | some h =>
    cases h with
    | null => rfl
    | bool b => rfl
    | int h => rw [valueText, valueText, markup_int, markup_int]
    | @string s t h =>
      show markup (s.flatMap escape) = markup (t.flatMap escape)
      rw [hescaped, hescaped]
    | list h => rfl
    | map hkeys h => rfl

/-! ## Tags that are read -/

theorem NoRawTag.suffix {p q : List UInt8} (h : NoRawTag p) (hq : q <:+ p) : NoRawTag q :=
  fun r hr => h r (hr.trans hq)

theorem readTagName_ne_var {stop braces : Nat} {tag : List UInt8 → List UInt8 → Tag}
    (htag : ∀ name rest name' rest', tag name rest ≠ .var true name' rest') (p name rest : List UInt8) :
    readTagName stop braces tag p ≠ .var true name rest := by
  unfold readTagName
  simp only
  split_ifs
  · exact Tag.noConfusion
  · exact htag _ _ _ _

theorem advance_atBlank_getD {stop : Nat} {p : List UInt8} (h : stop < (advance stop atBlank p).length) :
    (advance stop atBlank p).getD 0 0 = (p.dropWhile isBlank).getD 0 0 := by
  induction p with
  | nil => rfl
  | cons c p ih =>
    have hadvance := (advance_suffix stop atBlank (c :: p)).length_le
    have hatBlank : atBlank (c :: p) = isBlank c := rfl
    have hlength : stop < p.length + 1 := h.trans_le hadvance
    rw [List.dropWhile_cons]
    by_cases hc : isBlank c = true
    · rw [advance, if_pos ⟨hlength, hatBlank.trans hc⟩] at h ⊢
      rw [if_pos hc]
      exact ih h
    · rw [if_neg hc, advance_of_not (hatBlank.trans (Bool.eq_false_iff.mpr hc))]

theorem readTag_ne_raw {stop : Nat} {p : List UInt8} (h : NoRawTag p) (name rest : List UInt8) :
    readTag stop p ≠ .var true name rest := by
  unfold readTag
  simp only
  split_ifs with hopens hcut hraw
  · exact Tag.noConfusion
  · rw [advance_atBlank_getD (not_le.mp hcut)] at hraw
    exact absurd hraw (h p (List.suffix_refl p) hopens)
  · exact readTagName_ne_var (fun _ _ _ _ => Tag.noConfusion) _ _ _
  · exact readTagName_ne_var (fun _ _ _ _ => Tag.noConfusion) _ _ _
  · exact Tag.noConfusion
  · exact readTagName_ne_var (fun _ _ _ _ => by simp) _ _ _
  · exact Tag.noConfusion

/-! ## Two runs -/

/-- The same return code and the same markup. -/
def Same (r r' : Result) : Prop := r.1 = r'.1 ∧ markup r.2 = markup r'.2

theorem Same.andThen {r r' : Result} {next next' : List UInt8 → Result} (h : Same r r')
    (hnext : ∀ w w', markup w = markup w' → Same (next w) (next' w')) :
    Same (r.andThen next) (r'.andThen next') := by
  unfold Result.andThen
  rw [← h.1]
  split_ifs
  · exact h
  · exact hnext _ _ h.2

/-- Parts of a run that do the same on frames that are alike. -/
def SameRuns (body body' : Frames → List UInt8 → Result) : Prop :=
  ∀ frames frames' w w', List.Forall₂ (Option.Rel Alike) frames frames' → markup w = markup w' →
    Same (body frames w) (body' frames' w')

section

variable {body body' : Frames → List UInt8 → Result} {frames frames' : Frames}

theorem SameRuns.renderItems (hbody : SameRuns body body')
    (hframes : List.Forall₂ (Option.Rel Alike) frames frames') {items items' : List Value}
    (h : List.Forall₂ Alike items items') {w w' : List UInt8} (hw : markup w = markup w') :
    Same (renderItems body frames items w) (renderItems body' frames' items' w') := by
  induction h generalizing w w' with
  | nil => exact ⟨rfl, hw⟩
  | cons hitem hitems ih =>
    exact (hbody _ _ w w' (.cons (.some hitem) hframes) hw).andThen fun w w' hw => ih hw

theorem SameRuns.renderSection (hbody : SameRuns body body')
    (hframes : List.Forall₂ (Option.Rel Alike) frames frames') {value value' : Option Value}
    (h : Option.Rel Alike value value') (inverted : Bool) {w w' : List UInt8}
    (hw : markup w = markup w') :
    Same (renderSection body value inverted frames w)
      (renderSection body' value' inverted frames' w') := by
  have hone := hbody _ _ w w' (.cons h hframes) hw
  unfold Template.renderSection
  rw [← truthy_alike h]
  split_ifs
  · exact ⟨rfl, hw⟩
  · exact hone
  · exact ⟨rfl, hw⟩
  · cases h with
    | none => exact hone
    | some h =>
      cases h with
      | list h => exact hbody.renderItems hframes h hw
      | null | bool | int | string | map => exact hone

end

theorem renderRange_same {out : Putc} (hout : NeverFails out) (stop : Nat) {p : List UInt8}
    (hraw : NoRawTag p) :
    SameRuns (fun frames => renderRange out stop frames p)
      (fun frames => renderRange out stop frames p) := by
  induction hn : p.length using Nat.strong_induction_on generalizing p stop with
  | _ n ih =>
    subst hn
    intro frames frames' w w' hframes hw
    show Same (renderRange out stop frames p w) (renderRange out stop frames' p w')
    by_cases hp : stop < p.length
    · -- what a round goes on with is shorter, and has no raw tags either
      have hgo : ∀ {stop' q}, q <:+ (readTag stop p).rest →
          SameRuns (fun frames => renderRange out stop' frames q)
            (fun frames => renderRange out stop' frames q) := by
        intro stop' q hq
        have hlt := hq.length_le.trans_lt (length_lt_of_readTag hp rfl)
        have hsuffix := hq.trans ((readTag_suffix stop p).trans (List.drop_suffix 1 p))
        exact ih q.length hlt stop' (hraw.suffix hsuffix) rfl
      cases htag : readTag stop p with
      | literal c rest =>
        rw [htag] at hgo
        rw [renderRange_literal hp htag, renderRange_literal hp htag, putc_eq hout, putc_eq hout,
          andThen_zero, andThen_zero]
        refine hgo (List.suffix_refl rest) _ _ _ _ hframes ?_
        rw [markup_append, markup_append, hw]
      | skip rest =>
        rw [htag] at hgo
        rw [renderRange_skip hp htag, renderRange_skip hp htag]
        exact hgo (List.suffix_refl rest) _ _ _ _ hframes hw
      | cut =>
        rw [renderRange_cut hp htag, renderRange_cut hp htag]
        exact ⟨rfl, hw⟩
      | malformed =>
        rw [renderRange_malformed hp htag, renderRange_malformed hp htag]
        exact ⟨rfl, hw⟩
      | var raw name rest =>
        cases raw with
        | true => exact absurd htag (readTag_ne_raw hraw name rest)
        | false =>
          have htext := markup_valueText (lookup_rel hframes name)
          rw [htag] at hgo
          rw [renderRange_var hp htag, renderRange_var hp htag, emitValue_eq hout,
            emitValue_eq hout, andThen_zero, andThen_zero]
          refine hgo (List.suffix_refl rest) _ _ _ _ hframes ?_
          rw [markup_append, markup_append, hw]
          exact congrArg _ htext
      | sect inverted name rest =>
        rw [htag] at hgo
        cases hend : findSectionEnd name 1 rest with
        | none =>
          rw [renderRange_unmatched hp htag hend, renderRange_unmatched hp htag hend]
          exact ⟨rfl, hw⟩
        | some bodyEnd =>
          have hbody : SameRuns (fun frames => renderRange out bodyEnd.length frames rest)
              (fun frames => renderRange out bodyEnd.length frames rest) :=
            hgo (List.suffix_refl rest)
          have hsection := hbody.renderSection hframes (lookup_rel hframes name) inverted hw
          have hskip := (skipTag_suffix stop bodyEnd).trans (findSectionEnd_suffix hend)
          rw [renderRange_sect hp htag hend, renderRange_sect hp htag hend]
          exact hsection.andThen fun w w' hw => hgo hskip _ _ w w' hframes hw
    · rw [renderRange_of_le (not_lt.mp hp), renderRange_of_le (not_lt.mp hp)]
      exact ⟨rfl, hw⟩

/-- **Data do not change the markup.** For values that are alike, a template without raw tags is
rendered with the same return code and the same markup. -/
theorem tmplRender_markup {out : Putc} (hout : NeverFails out) {template : List UInt8}
    (hraw : NoRawTag (cString template)) {root root' : Value} (h : Alike root root') :
    (tmplRender (some out) (some template) (some root)).1 =
        (tmplRender (some out) (some template) (some root')).1 ∧
      markup (tmplRender (some out) (some template) (some root)).2 =
        markup (tmplRender (some out) (some template) (some root')).2 :=
  renderRange_same hout 0 hraw _ _ [] [] (.cons (.some h) .nil) rfl

/-- A variable inside of an element, once with markup in its value. -/
theorem tmplRender_markup_sample :
    (tmplRender (some fun _ _ => 0) (some (ascii "<b>\x7b\x7ba\x7d\x7d</b>"))
        (some (.map [(ascii "a", .string (ascii "<i>"))]))).1 =
      (tmplRender (some fun _ _ => 0) (some (ascii "<b>\x7b\x7ba\x7d\x7d</b>"))
        (some (.map [(ascii "a", .string (ascii "text"))]))).1 ∧
    markup (tmplRender (some fun _ _ => 0) (some (ascii "<b>\x7b\x7ba\x7d\x7d</b>"))
        (some (.map [(ascii "a", .string (ascii "<i>"))]))).2 =
      markup (tmplRender (some fun _ _ => 0) (some (ascii "<b>\x7b\x7ba\x7d\x7d</b>"))
        (some (.map [(ascii "a", .string (ascii "text"))]))).2 := by
  refine tmplRender_markup (fun _ _ => le_refl 0) ?_
    (.map rfl (.cons (.string (by decide)) .nil))
  have htails : ∀ p ∈ (cString (ascii "<b>\x7b\x7ba\x7d\x7d</b>")).tails, opens p = true →
      ((p.drop 2).dropWhile isBlank).getD 0 0 ≠ lbrace := by decide
  exact fun p hp => htails p ((List.mem_tails _ _).mpr hp)

end Onak.Template
