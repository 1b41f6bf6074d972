import Onak.TemplateTrace
import Onak.Proofs.TemplateProofs

/-!
# Proofs: sections and their bodies

The renderer stays in the body that is open as long as each section that it comes to is closed there.
`find_section_end` knows nothing of the body that is open: where a section is closed behind its end,
the renderer goes on there.
-/

namespace Onak.Template

open Cursor Print

/-! ## The record -/

section

variable {out : Putc}

theorem fst_note (visit : Visit) (t : Traced) : (Traced.note visit t).1 = t.1 := rfl

theorem fst_andThen {t : Traced} {r : Result} {next : List UInt8 → Traced} {next' : List UInt8 → Result}
    (ht : t.1 = r) (hnext : ∀ w, (next w).1 = next' w) : (t.andThen next).1 = r.andThen next' := by
  unfold Traced.andThen Result.andThen
  rw [ht]
  split_ifs
  · exact ht
  · exact hnext r.2

theorem fst_traceItems {body : Frames → List UInt8 → Traced} {body' : Frames → List UInt8 → Result}
    (hbody : ∀ frames w, (body frames w).1 = body' frames w) (parent : Frames) (items : List Value)
    (written : List UInt8) :
    (traceItems body parent items written).1 = renderItems body' parent items written := by
  induction items generalizing written with
  | nil => rfl
  | cons item items ih => exact fst_andThen (hbody _ _) ih

theorem fst_traceSection {body : Frames → List UInt8 → Traced} {body' : Frames → List UInt8 → Result}
    (hbody : ∀ frames w, (body frames w).1 = body' frames w) (value : Option Value) (inverted : Bool)
    (parent : Frames) (written : List UInt8) :
    (traceSection body value inverted parent written).1 =
      renderSection body' value inverted parent written := by
  unfold traceSection renderSection
  split_ifs
  · rfl
  · exact hbody _ _
  · rfl
  · match value with
    | some (.list items) => exact fst_traceItems hbody parent items written
    | none => exact hbody _ _
    | some .null => exact hbody _ _
    | some (.bool b) => exact hbody _ _
    | some (.int i) => exact hbody _ _
    | some (.string s) => exact hbody _ _
    | some (.map pairs) => exact hbody _ _

variable {outer : List Range} {body : Range} {frames : Frames} {p rest name written : List UInt8}

theorem traceRange_of_le (h : p.length ≤ body.stop) :
    traceRange out outer body frames p written = .of (0, written) := by
  rw [traceRange, if_neg (not_lt.mpr h)]

theorem traceRange_literal {c : UInt8} (hp : body.stop < p.length)
    (h : readTag body.stop p = .literal c rest) :
    traceRange out outer body frames p written = .note ⟨outer, body, p⟩
      ((Traced.of (putc out written c)).andThen (traceRange out outer body frames rest)) := by
  rw [traceRange, if_pos hp]
  split <;> simp_all

theorem traceRange_skip (hp : body.stop < p.length) (h : readTag body.stop p = .skip rest) :
    traceRange out outer body frames p written =
      .note ⟨outer, body, p⟩ (traceRange out outer body frames rest written) := by
  rw [traceRange, if_pos hp]
  split <;> simp_all

theorem traceRange_cut (hp : body.stop < p.length) (h : readTag body.stop p = .cut) :
    traceRange out outer body frames p written = .note ⟨outer, body, p⟩ (.of (0, written)) := by
  rw [traceRange, if_pos hp]
  split <;> simp_all

theorem traceRange_malformed (hp : body.stop < p.length) (h : readTag body.stop p = .malformed) :
    traceRange out outer body frames p written = .note ⟨outer, body, p⟩ (.of (-1, written)) := by
  rw [traceRange, if_pos hp]
  split <;> simp_all

theorem traceRange_var {raw : Bool} (hp : body.stop < p.length)
    (h : readTag body.stop p = .var raw name rest) :
    traceRange out outer body frames p written = .note ⟨outer, body, p⟩
      ((Traced.of (emitValue out written (!raw) (lookup frames name))).andThen
        (traceRange out outer body frames rest)) := by
  rw [traceRange, if_pos hp]
  split <;> simp_all

theorem traceRange_unmatched {inverted : Bool} (hp : body.stop < p.length)
    (h : readTag body.stop p = .sect inverted name rest) (hend : findSectionEnd name 1 rest = none) :
    traceRange out outer body frames p written = .note ⟨outer, body, p⟩ (.of (-1, written)) := by
  rw [traceRange, if_pos hp]
  split <;> simp_all
  split <;> simp_all

theorem traceRange_sect {inverted : Bool} {bodyEnd : List UInt8} (hp : body.stop < p.length)
    (h : readTag body.stop p = .sect inverted name rest)
    (hend : findSectionEnd name 1 rest = some bodyEnd) :
    traceRange out outer body frames p written = .note ⟨outer, body, p⟩
      ((traceSection
        (fun frames => traceRange out (body :: outer) ⟨rest, bodyEnd.length⟩ frames rest)
        (lookup frames name) inverted frames written).andThen
        (traceRange out outer body frames (skipTag body.stop bodyEnd))) := by
  rw [traceRange, if_pos hp]
  split <;> simp_all
  split <;> simp_all

end

/-- Without the record it is `render_range`. -/
theorem fst_traceRange (out : Putc) (outer : List Range) (body : Range) (frames : Frames)
    (p written : List UInt8) :
    (traceRange out outer body frames p written).1 = renderRange out body.stop frames p written := by
  induction hn : p.length using Nat.strong_induction_on generalizing outer body frames p written with
  | _ n ih =>
    subst hn
    by_cases hp : body.stop < p.length
    · cases htag : readTag body.stop p with
      | literal c rest =>
        rw [traceRange_literal hp htag, renderRange_literal hp htag, fst_note]
        exact fst_andThen rfl fun w => ih _ (length_lt_of_readTag hp htag) _ _ _ _ _ rfl
      | skip rest =>
        rw [traceRange_skip hp htag, renderRange_skip hp htag, fst_note]
        exact ih _ (length_lt_of_readTag hp htag) _ _ _ _ _ rfl
      | cut =>
        rw [traceRange_cut hp htag, renderRange_cut hp htag]
        rfl
      | malformed =>
        rw [traceRange_malformed hp htag, renderRange_malformed hp htag]
        rfl
      | var raw name rest =>
        rw [traceRange_var hp htag, renderRange_var hp htag, fst_note]
        exact fst_andThen rfl fun w => ih _ (length_lt_of_readTag hp htag) _ _ _ _ _ rfl
      | sect inverted name rest =>
        have hlt := length_lt_of_readTag hp htag
        cases hend : findSectionEnd name 1 rest with
        | none =>
          rw [traceRange_unmatched hp htag hend, renderRange_unmatched hp htag hend]
          rfl
        | some bodyEnd =>
          have hskip := (skipTag_suffix body.stop bodyEnd).trans (findSectionEnd_suffix hend)
          rw [traceRange_sect hp htag hend, renderRange_sect hp htag hend, fst_note]
          refine fst_andThen (fst_traceSection (fun frames w => ?_) _ _ _ _) fun w => ?_
          · exact ih _ hlt _ ⟨rest, bodyEnd.length⟩ _ _ _ rfl
          · exact ih _ (hskip.length_le.trans_lt hlt) _ _ _ _ _ rfl
    · rw [traceRange_of_le (not_lt.mp hp), renderRange_of_le (not_lt.mp hp)]
      rfl

/-- **Without the record it is `tmpl_render`.** -/
theorem fst_tmplTrace (out : Putc) (template : List UInt8) (root : Option Value) :
    (tmplTrace out template root).1 = tmplRender (some out) (some template) root :=
  fst_traceRange out [] ⟨cString template, 0⟩ [root] (cString template) []

/-! ## The end of a body -/

/-- No pair of braces stands over the end of a range. -/
def EndsClean (stop : Nat) (p : List UInt8) : Prop :=
  ∀ r, r <:+ p → r.length = stop + 1 → opens r = false ∧ closes r = false

theorem EndsClean.suffix {stop : Nat} {p q : List UInt8} (h : EndsClean stop p) (hq : q <:+ p) :
    EndsClean stop q := fun r hr => h r (hr.trans hq)

theorem opens_eq_false {p : List UInt8} (h : p.getD 0 0 ≠ lbrace ∨ p.getD 1 0 ≠ lbrace) :
    opens p = false :=
  decide_eq_false fun hopens => h.elim (· hopens.1) (· hopens.2)

theorem closes_eq_false {p : List UInt8} (h : p.getD 0 0 ≠ rbrace ∨ p.getD 1 0 ≠ rbrace) :
    closes p = false :=
  decide_eq_false fun hcloses => h.elim (· hcloses.1) (· hcloses.2)

/-- A pair of braces takes two characters. -/
theorem opens_of_length_le {p : List UInt8} (h : p.length ≤ 1) : opens p = false := by
  refine opens_eq_false (.inr ?_)
  rw [List.getD_eq_default _ _ h]
  decide

theorem closes_of_length_le {p : List UInt8} (h : p.length ≤ 1) : closes p = false := by
  refine closes_eq_false (.inr ?_)
  rw [List.getD_eq_default _ _ h]
  decide

/-- The template ends so. -/
theorem endsClean_zero (p : List UInt8) : EndsClean 0 p :=
  fun _ _ hlen => ⟨opens_of_length_le hlen.le, closes_of_length_le hlen.le⟩

/-- A suffix is what is left without the characters in front of it. -/
theorem drop_of_suffix {p q : List UInt8} {n : Nat} (hq : q <:+ p) (hlen : p.length = q.length + n) :
    q = p.drop n := by
  obtain ⟨r, rfl⟩ := hq
  rw [List.length_append] at hlen
  rw [show n = r.length by omega, List.drop_left]

theorem getD_drop (p : List UInt8) (m n : Nat) : (p.drop m).getD n 0 = p.getD (m + n) 0 := by
  rw [List.getD_eq_getElem?_getD, List.getElem?_drop, ← List.getD_eq_getElem?_getD]

section

variable {p q r : List UInt8}

/-- Where the last character is a closing brace, no tag opens. -/
theorem edge_of_rbrace {n : Nat} (hq : q <:+ p) (hbrace : q.getD n 0 = rbrace) (hr : r <:+ p)
    (hlen : r.length = (q.drop (n + 1)).length + 1) : opens r = false := by
  rw [List.length_drop] at hlen
  by_cases hn : n < q.length
  · have hrq : r <:+ q := List.suffix_of_suffix_length_le hr hq (by omega)
    obtain rfl := drop_of_suffix hrq (n := n) (by omega)
    refine opens_eq_false (.inl ?_)
    rw [getD_drop, Nat.add_zero, hbrace]
    decide
  · exact opens_of_length_le (by omega)

/-- In front of where a tag ends no other one opens. -/
theorem skipTag_edge (hq : q <:+ p) (hr : r <:+ p) (hlen : r.length = (skipTag 0 q).length + 1) :
    opens r = false := by
  unfold skipTag at hlen
  simp only at hlen
  split_ifs at hlen with hover
  · have hcloses := advance_over hover
    rw [Bool.not_eq_false'] at hcloses
    exact edge_of_rbrace ((advance_suffix 0 _ q).trans hq) (of_decide_eq_true hcloses).2 hr hlen
  · exact opens_of_length_le (by omega)

theorem readMarkName_edge {tag : UInt8} (hq : q <:+ p) (hr : r <:+ p)
    (hlen : r.length = (readMarkName tag q).rest.length + 1) : opens r = false := by
  obtain ⟨y, hy⟩ : ∃ y, y = advance 0 inName (advance 0 atBlank q) := ⟨_, rfl⟩
  obtain ⟨x, hx⟩ : ∃ x, x = advance 0 atBlank y := ⟨_, rfl⟩
  have hyp : y <:+ p := hy ▸ ((advance_suffix 0 inName _).trans (advance_suffix 0 atBlank q)).trans hq
  have hxy : x <:+ y := hx ▸ advance_suffix 0 atBlank y
  have hrest : (readMarkName tag q).rest = if closes x then x.drop 2 else x := by
    unfold readMarkName
    simp only [← hy, ← hx]
    split_ifs <;> rfl
  rw [hrest] at hlen
  split_ifs at hlen with hcloses
  · exact edge_of_rbrace (hxy.trans hyp) (of_decide_eq_true hcloses).2 hr hlen
  by_cases hblank : r.length ≤ y.length
  · -- the last character is a blank
    have hry : r <:+ y := List.suffix_of_suffix_length_le hr hyp hblank
    have hatBlank : atBlank r = true := of_advance hry
      (show (advance 0 atBlank y).length < r.length by rw [← hx]; omega)
    refine opens_eq_false (.inl fun hbrace => ?_)
    unfold atBlank at hatBlank
    rw [hbrace] at hatBlank
    exact absurd hatBlank (by decide)
  · -- the name ends here, but not at an opening brace
    obtain rfl : x = y := hxy.eq_of_length (by have := hxy.length_le; omega)
    rcases Nat.eq_zero_or_pos x.length with hzero | hpos
    · exact opens_of_length_le (by omega)
    have hover : inName x = false := by
      rw [hy] at hpos ⊢
      exact advance_over hpos
    have hdrop : x = r.drop 1 := drop_of_suffix (List.suffix_of_suffix_length_le hyp hr (by omega)) hlen
    refine opens_eq_false (.inr fun hbrace => ?_)
    have hhead : x.getD 0 0 = lbrace := by
      rw [hdrop, getD_drop]
      exact hbrace
    unfold inName at hover
    rw [hhead] at hover
    exact absurd hover (by decide)

/-- In front of where a round of `find_section_end` ends no tag opens. -/
theorem readMark_edge (hr : r <:+ p) (hlen : r.length = (readMark p).rest.length + 1) :
    opens r = false := by
  have hblank : advance 0 atBlank (p.drop 2) <:+ p :=
    (advance_suffix 0 atBlank _).trans (List.drop_suffix 2 p)
  have hone : (advance 0 atBlank (p.drop 2)).drop 1 <:+ p := (List.drop_suffix 1 _).trans hblank
  unfold readMark at hlen
  simp only at hlen
  split_ifs at hlen with hopens hsect hcomment hraw hover
  · exact readMarkName_edge hone hr hlen
  · exact skipTag_edge hblank hr hlen
  · have hcloses := advance_over hover
    rw [Bool.not_eq_false'] at hcloses
    exact edge_of_rbrace ((advance_suffix 0 _ _).trans hone) (of_decide_eq_true hcloses).2 hr hlen
  · exact opens_of_length_le (hlen.trans_le (by
      show (advance 0 (fun p => !closesRaw p) _).length + 1 ≤ 1
      omega))
  · exact skipTag_edge hblank hr hlen
  · have hlen : r.length = (p.drop 1).length + 1 := hlen
    rw [List.length_drop] at hlen
    have hle := hr.length_le
    rcases Nat.eq_zero_or_pos p.length with hzero | hpos
    · omega
    · obtain rfl : r = p := hr.eq_of_length (by omega)
      exact (Bool.not_eq_true _).mp hopens

end

theorem opens_of_closing {p name rest : List UInt8} (h : readMark p = .closing name rest) :
    opens p = true := by
  by_contra hopens
  unfold readMark at h
  rw [if_neg hopens] at h
  cases h

/-- What `find_section_end` gives is a tag. -/
theorem findSectionEnd_opens {name : List UInt8} {depth : Nat} {p q : List UInt8}
    (h : findSectionEnd name depth p = some q) : opens q = true := by
  fun_induction findSectionEnd name depth p with
  | case1 depth => cases h
  | case2 depth p hp rest hmark ih => exact ih h
  | case3 depth p hp tname rest hmark ih => exact ih h
  | case4 p hp rest hmark =>
    obtain rfl := Option.some.inj h
    exact opens_of_closing hmark
  | case5 depth p hp rest hdepth hmark ih => exact ih h
  | case6 depth p hp tname rest hmark hname ih => exact ih h

/-- A round of `find_section_end` that goes on. -/
theorem edge_of_rest {p q r : List UInt8} {mark : Mark} (hmark : readMark p = mark) (hq : q <:+ mark.rest)
    (ih : ∀ r, r <:+ mark.rest → r.length = q.length + 1 → opens r = false) (hr : r <:+ p)
    (hlen : r.length = q.length + 1) : opens r = false := by
  have hle := hq.length_le
  rcases Nat.lt_or_ge mark.rest.length r.length with hlt | hge
  · exact readMark_edge hr (by rw [hmark]; omega)
  · exact ih r (List.suffix_of_suffix_length_le hr (suffix_of_readMark hmark) hge) hlen

theorem findSectionEnd_edge {name : List UInt8} {depth : Nat} {p q : List UInt8}
    (h : findSectionEnd name depth p = some q) :
    ∀ r, r <:+ p → r.length = q.length + 1 → opens r = false := by
  fun_induction findSectionEnd name depth p with
  | case1 depth => cases h
  | case2 depth p hp rest hmark ih =>
    exact fun r => edge_of_rest hmark (findSectionEnd_suffix h) (ih h)
  | case3 depth p hp tname rest hmark ih =>
    exact fun r => edge_of_rest hmark (findSectionEnd_suffix h) (ih h)
  | case4 p hp rest hmark =>
    obtain rfl := Option.some.inj h
    intro r hr hlen
    have hle := hr.length_le
    omega
  | case5 depth p hp rest hdepth hmark ih =>
    exact fun r => edge_of_rest hmark (findSectionEnd_suffix h) (ih h)
  | case6 depth p hp tname rest hmark hname ih =>
    exact fun r => edge_of_rest hmark (findSectionEnd_suffix h) (ih h)

/-- **A body ends cleanly.** -/
theorem findSectionEnd_endsClean {name : List UInt8} {depth : Nat} {p q : List UInt8}
    (h : findSectionEnd name depth p = some q) : EndsClean q.length p := by
  intro r hr hlen
  refine ⟨findSectionEnd_edge h r hr hlen, closes_eq_false (.inr fun hbrace => ?_)⟩
  have hdrop : q = r.drop 1 :=
    drop_of_suffix (List.suffix_of_suffix_length_le (findSectionEnd_suffix h) hr (by omega)) hlen
  have hfirst := (of_decide_eq_true (findSectionEnd_opens h)).1
  rw [hdrop, getD_drop, hbrace] at hfirst
  exact absurd hfirst (by decide)

/-! ## Staying in a body -/

/-- How far a round reads. One that comes to a malformed tag has not read it. -/
def upTo (stop : Nat) (p : List UInt8) : List UInt8 :=
  match readTag stop p with
  | .cut => advance stop atBlank (p.drop 2)
  | .malformed => p
  | tag => tag.rest

section

variable {stop : Nat} {p : List UInt8}

theorem le_skipTag (h : EndsClean stop p) (hp : stop ≤ p.length) : stop ≤ (skipTag stop p).length := by
  unfold skipTag
  simp only
  split_ifs with hover
  · have hcloses := advance_over hover
    rw [Bool.not_eq_false'] at hcloses
    rw [List.length_drop]
    by_contra hlt
    have hclean := (h _ (advance_suffix stop (fun p => !closes p) p) (by omega)).2
    rw [hcloses] at hclean
    cases hclean
  · exact le_advance hp

theorem le_readTagName {braces : Nat} {tag : List UInt8 → List UInt8 → Tag}
    (htag : ∀ name rest, (tag name rest).rest = rest)
    (h : readTagName stop braces tag p ≠ .malformed) :
    stop ≤ (readTagName stop braces tag p).rest.length := by
  unfold readTagName at h ⊢
  simp only at h ⊢
  split_ifs at h ⊢ with hbad
  · exact absurd rfl h
  · rw [not_or, not_le] at hbad
    rw [htag, List.length_drop]
    omega

theorem le_readTag (h : EndsClean stop p) (hp : stop < p.length) (hcut : readTag stop p ≠ .cut)
    (hmalformed : readTag stop p ≠ .malformed) : stop ≤ (readTag stop p).rest.length := by
  have hblank : advance stop atBlank (p.drop 2) <:+ p :=
    (advance_suffix stop atBlank _).trans (List.drop_suffix 2 p)
  unfold readTag at hcut hmalformed ⊢
  simp only at hcut hmalformed ⊢
  split_ifs at hcut hmalformed ⊢ with hopens hle hraw hsect hinv hskip
  · exact absurd rfl hcut
  · exact le_readTagName (fun _ _ => rfl) hmalformed
  · exact le_readTagName (fun _ _ => rfl) hmalformed
  · exact le_readTagName (fun _ _ => rfl) hmalformed
  · exact le_skipTag (h.suffix hblank) (not_le.mp hle).le
  · exact le_readTagName (fun _ _ => rfl) hmalformed
  · show stop ≤ (p.drop 1).length
    rw [List.length_drop]
    omega

/-- **A round does not read past the end of its range**, if that is a clean one. -/
theorem le_upTo (h : EndsClean stop p) (hp : stop < p.length) : stop ≤ (upTo stop p).length := by
  have hrest := le_readTag h hp
  unfold upTo
  cases htag : readTag stop p with
  | cut =>
    have hopens : opens p = true := by
      by_contra hopens
      unfold readTag at htag
      rw [if_neg hopens] at htag
      cases htag
    refine le_advance ?_
    rw [List.length_drop]
    by_contra hlt
    rw [(h p (List.suffix_refl p) (by omega)).1] at hopens
    cases hopens
  | malformed => exact hp.le
  | literal c rest =>
    rw [htag] at hrest
    exact hrest Tag.noConfusion Tag.noConfusion
  | skip rest =>
    rw [htag] at hrest
    exact hrest Tag.noConfusion Tag.noConfusion
  | var raw name rest =>
    rw [htag] at hrest
    exact hrest Tag.noConfusion Tag.noConfusion
  | sect inverted name rest =>
    rw [htag] at hrest
    exact hrest Tag.noConfusion Tag.noConfusion

end

/-- A round is inside of the bodies of all sections that are open. -/
def Visit.Inside (v : Visit) : Prop :=
  ∀ range ∈ v.body :: v.outer, v.start <:+ range.start ∧ range.stop < v.start.length ∧
    range.stop ≤ (upTo v.body.stop v.start).length

/-- A tag that opens a section, and what `find_section_end` gives for it. -/
def Visit.Opens (v : Visit) (closer : Option (List UInt8)) : Prop :=
  ∃ inverted name rest, readTag v.body.stop v.start = .sect inverted name rest ∧
    findSectionEnd name 1 rest = closer

/-- A tag at which the renderer gives up: one that is not well formed, or whose section is closed nowhere. -/
def Visit.Broken (v : Visit) : Prop := readTag v.body.stop v.start = .malformed ∨ v.Opens none

/-- A section that is closed nowhere, or not inside of the one that is open. -/
def Visit.Misnested (v : Visit) : Prop :=
  ∃ closer, v.Opens closer ∧ ∀ bodyEnd, closer = some bodyEnd → bodyEnd.length ≤ v.body.stop

/-- Where a section is closed, it is inside of the one that is open. -/
def Visit.Nested (v : Visit) : Prop :=
  ∀ bodyEnd, v.Opens (some bodyEnd) → v.body.stop < bodyEnd.length

/-- Parts of a run that stay in the bodies of the open sections if no section is closed outside of the one
that is open. -/
def StaysInside (t : Traced) : Prop := (∀ v ∈ t.2, v.Nested) → ∀ v ∈ t.2, v.Inside

/-- What relates the runs on two bodies relates those on the sections. -/
theorem traceSection_rel {Q : Traced → Traced → Prop} (hof : ∀ w, Q (.of (0, w)) (.of (0, w)))
    (handThen : ∀ t t' next next', Q t t' → (∀ w, Q (next w) (next' w)) →
      Q (t.andThen next) (t'.andThen next'))
    {body body' : Frames → List UInt8 → Traced} (hbody : ∀ frames w, Q (body frames w) (body' frames w))
    (value : Option Value) (inverted : Bool) (parent : Frames) (written : List UInt8) :
    Q (traceSection body value inverted parent written)
      (traceSection body' value inverted parent written) := by
  have hitems (items : List Value) (written : List UInt8) :
      Q (traceItems body parent items written) (traceItems body' parent items written) := by
    induction items generalizing written with
    | nil => exact hof _
    | cons item items ih => exact handThen _ _ _ _ (hbody _ _) ih
  unfold traceSection
  split_ifs
  · exact hof _
  · exact hbody _ _
  · exact hof _
  · match value with
    | some (.list items) => exact hitems items written
    | none => exact hbody _ _
    | some .null => exact hbody _ _
    | some (.bool b) => exact hbody _ _
    | some (.int i) => exact hbody _ _
    | some (.string s) => exact hbody _ _
    | some (.map pairs) => exact hbody _ _

/-- A section has a property of runs that its body has. -/
theorem traceSection_of {Q : Traced → Prop} (hof : ∀ w, Q (.of (0, w)))
    (handThen : ∀ t next, Q t → (∀ w, Q (next w)) → Q (t.andThen next))
    {body : Frames → List UInt8 → Traced} (hbody : ∀ frames w, Q (body frames w)) (value : Option Value)
    (inverted : Bool) (parent : Frames) (written : List UInt8) :
    Q (traceSection body value inverted parent written) :=
  @traceSection_rel (fun t _ => Q t) hof (fun t _ next _ => handThen t next) body body hbody value
    inverted parent written

/-- Parts of a run that end with an error where they come to a section that is closed nowhere, and whose
errors are not of sections that are closed somewhere. -/
structure Stops (t : Traced) : Prop where
  /-- An error is one of the last round. -/
  last : t.1.1 < 0 → ∃ before v, t.2 = before ++ [v] ∧ ∀ bodyEnd, ¬ v.Opens (some bodyEnd)
  /-- A section that is closed nowhere is an error. -/
  unmatched : ∀ before v after, t.2 = before ++ v :: after → v.Opens none → after = [] ∧ t.1.1 < 0

theorem Stops.of (written : List UInt8) : Stops (.of (0, written)) where
  last h := absurd h (lt_irrefl 0)
  unmatched before v after h := absurd h.symm (by simp [Traced.of])

theorem Stops.andThen {t : Traced} {next : List UInt8 → Traced} (ht : Stops t)
    (hnext : ∀ w, Stops (next w)) : Stops (t.andThen next) := by
  unfold Traced.andThen
  split_ifs with hneg
  · exact ht
  · have hn := hnext t.1.2
    refine ⟨fun hrc => ?_, fun before v after hvisits hv => ?_⟩
    · obtain ⟨before, v, hvisits, hv⟩ := hn.last hrc
      exact ⟨t.2 ++ before, v, by rw [hvisits, List.append_assoc], hv⟩
    · rcases List.append_eq_append_iff.mp hvisits with ⟨c, rfl, hc⟩ | ⟨c, hc, hrest⟩
      · exact hn.unmatched c v after hc hv
      · cases c with
        | nil => exact hn.unmatched [] v after hrest.symm hv
        | cons u c =>
          obtain ⟨rfl, -⟩ := List.cons.inj hrest
          exact absurd (ht.unmatched before v c hc hv).2 hneg

/-- A round that comes to no section that is closed nowhere. -/
theorem Stops.note {v : Visit} {t : Traced} (hv : ¬ v.Opens none) (ht : Stops t) :
    Stops (.note v t) where
  last hrc := by
    obtain ⟨before, u, hvisits, hu⟩ := ht.last hrc
    exact ⟨v :: before, u, by rw [Traced.note, hvisits]; rfl, hu⟩
  unmatched before u after hvisits hu := by
    cases before with
    | nil =>
      obtain ⟨rfl, -⟩ := List.cons.inj hvisits
      exact absurd hu hv
    | cons w before =>
      obtain ⟨-, hvisits⟩ := List.cons.inj hvisits
      exact ht.unmatched before u after hvisits hu

/-- A round that ends a part of a run. -/
theorem Stops.end_ {v : Visit} {r : Result} (hv : ∀ bodyEnd, ¬ v.Opens (some bodyEnd))
    (hr : v.Opens none → r.1 < 0) : Stops (.note v (.of r)) where
  last _ := ⟨[], v, rfl, hv⟩
  unmatched before u after hvisits hu := by
    cases before with
    | nil =>
      obtain ⟨rfl, rfl⟩ := List.cons.inj hvisits
      exact ⟨rfl, hr hu⟩
    | cons w before =>
      obtain ⟨-, hvisits⟩ := List.cons.inj hvisits
      exact absurd hvisits.symm (List.append_ne_nil_of_right_ne_nil _ (List.cons_ne_nil _ _))

/-- A round that writes something. -/
theorem Stops.write {v : Visit} {r : Result} {next : List UInt8 → Traced}
    (hv : ∀ closer, ¬ v.Opens closer) (hnext : ∀ w, Stops (next w)) :
    Stops (.note v ((Traced.of r).andThen next)) := by
  unfold Traced.andThen
  split_ifs
  · exact .end_ (fun bodyEnd => hv _) fun hopens => absurd hopens (hv none)
  · exact (hnext r.2).note (hv none)

theorem StaysInside.of (r : Result) : StaysInside (.of r) := fun _ _ hv => absurd hv List.not_mem_nil

theorem StaysInside.andThen {t : Traced} {next : List UInt8 → Traced} (ht : StaysInside t)
    (hnext : ∀ w, StaysInside (next w)) : StaysInside (t.andThen next) := by
  unfold Traced.andThen
  split_ifs
  · exact ht
  · intro hnested v hv
    rcases List.mem_append.mp hv with hv | hv
    · exact ht (fun u hu => hnested u (List.mem_append_left _ hu)) v hv
    · exact hnext _ (fun u hu => hnested u (List.mem_append_right _ hu)) v hv

theorem StaysInside.note {v : Visit} {t : Traced} (hv : v.Inside) (ht : v.Nested → StaysInside t) :
    StaysInside (.note v t) := by
  intro hnested u hu
  rcases List.mem_cons.mp hu with rfl | hu
  · exact hv
  · exact ht (hnested v List.mem_cons_self) (fun w hw => hnested w (List.mem_cons_of_mem _ hw)) u hu

section

variable (out : Putc)

/-- **A run stops at a section that is closed nowhere**, and at no other one. -/
theorem stops_traceRange (outer : List Range) (body : Range) (frames : Frames) (p written : List UInt8) :
    Stops (traceRange out outer body frames p written) := by
  induction hn : p.length using Nat.strong_induction_on generalizing outer body frames p written with
  | _ n ih =>
    subst hn
    by_cases hp : body.stop < p.length
    · have hnone {tag : Tag} (htag : readTag body.stop p = tag)
          (hsect : ∀ inverted name rest, tag ≠ .sect inverted name rest) (closer : Option (List UInt8)) :
          ¬ (⟨outer, body, p⟩ : Visit).Opens closer := by
        rintro ⟨inverted, name, rest, hopens, -⟩
        exact hsect inverted name rest (htag.symm.trans hopens)
      cases htag : readTag body.stop p with
      | literal c rest =>
        rw [traceRange_literal hp htag]
        exact .write (hnone htag (by simp)) fun w => ih _ (length_lt_of_readTag hp htag) _ _ _ _ _ rfl
      | skip rest =>
        rw [traceRange_skip hp htag]
        exact (ih _ (length_lt_of_readTag hp htag) _ _ _ _ _ rfl).note (hnone htag (by simp) none)
      | cut =>
        rw [traceRange_cut hp htag]
        exact (Stops.of written).note (hnone htag (by simp) none)
      | malformed =>
        rw [traceRange_malformed hp htag]
        exact .end_ (fun bodyEnd => hnone htag (by simp) _) fun _ => neg_one_lt_zero
      | var raw name rest =>
        rw [traceRange_var hp htag]
        exact .write (hnone htag (by simp)) fun w => ih _ (length_lt_of_readTag hp htag) _ _ _ _ _ rfl
      | sect inverted name rest =>
        have hlt := length_lt_of_readTag hp htag
        have hcloser {closer : Option (List UInt8)} (hopens : (⟨outer, body, p⟩ : Visit).Opens closer) :
            findSectionEnd name 1 rest = closer := by
          obtain ⟨inverted', name', rest', hopens, hend⟩ := hopens
          obtain ⟨-, rfl, rfl⟩ := Tag.sect.inj (htag.symm.trans hopens)
          exact hend
        cases hend : findSectionEnd name 1 rest with
        | none =>
          rw [traceRange_unmatched hp htag hend]
          refine .end_ (fun bodyEnd hopens => ?_) fun _ => neg_one_lt_zero
          exact absurd (hend.symm.trans (hcloser hopens)) (by simp)
        | some bodyEnd =>
          have hskip := (skipTag_suffix body.stop bodyEnd).trans (findSectionEnd_suffix hend)
          rw [traceRange_sect hp htag hend]
          refine Stops.note (fun hopens => absurd (hend.symm.trans (hcloser hopens)) (by simp)) ?_
          refine (traceSection_of Stops.of (fun _ _ => Stops.andThen) (fun frames w => ?_) _ _ _ _).andThen
            fun w => ?_
          · exact ih _ hlt _ _ _ _ _ rfl
          · exact ih _ (hskip.length_le.trans_lt hlt) _ _ _ _ _ rfl
    · rw [traceRange_of_le (not_lt.mp hp)]
      exact .of written

/-- **A run stays in the bodies of the open sections** if no section is closed outside of the one that is
open. -/
theorem staysInside_traceRange (outer : List Range) (body : Range) (frames : Frames)
    (p written : List UInt8) (hclean : EndsClean body.stop p) (hstart : p <:+ body.start)
    (houter : ∀ range ∈ outer, body.start <:+ range.start ∧ range.stop ≤ body.stop) :
    StaysInside (traceRange out outer body frames p written) := by
  induction hn : p.length using Nat.strong_induction_on generalizing outer body frames p written with
  | _ n ih =>
    subst hn
    by_cases hp : body.stop < p.length
    · have hinside : (⟨outer, body, p⟩ : Visit).Inside := by
        have hle := le_upTo hclean hp
        intro range hrange
        rcases List.mem_cons.mp hrange with rfl | hrange
        · exact ⟨hstart, hp, hle⟩
        · obtain ⟨hsuffix, hstop⟩ := houter range hrange
          exact ⟨hstart.trans hsuffix, hstop.trans_lt hp, hstop.trans hle⟩
      have hgo {q : List UInt8} (hq : q <:+ (readTag body.stop p).rest) (frames : Frames)
          (written : List UInt8) : StaysInside (traceRange out outer body frames q written) := by
        have hsuffix := hq.trans ((readTag_suffix body.stop p).trans (List.drop_suffix 1 p))
        exact ih _ (hq.length_le.trans_lt (length_lt_of_readTag hp rfl)) _ _ _ _ _
          (hclean.suffix hsuffix) (hsuffix.trans hstart) houter rfl
      cases htag : readTag body.stop p with
      | literal c rest =>
        rw [htag] at hgo
        rw [traceRange_literal hp htag]
        exact .note hinside fun _ => (StaysInside.of _).andThen fun w => hgo (List.suffix_refl rest) _ w
      | skip rest =>
        rw [htag] at hgo
        rw [traceRange_skip hp htag]
        exact .note hinside fun _ => hgo (List.suffix_refl rest) _ _
      | cut =>
        rw [traceRange_cut hp htag]
        exact .note hinside fun _ => .of _
      | malformed =>
        rw [traceRange_malformed hp htag]
        exact .note hinside fun _ => .of _
      | var raw name rest =>
        rw [htag] at hgo
        rw [traceRange_var hp htag]
        exact .note hinside fun _ => (StaysInside.of _).andThen fun w => hgo (List.suffix_refl rest) _ w
      | sect inverted name rest =>
        have hlt := length_lt_of_readTag hp htag
        have hrest : rest <:+ p := by
          have hsuffix := (readTag_suffix body.stop p).trans (List.drop_suffix 1 p)
          rw [htag] at hsuffix
          exact hsuffix
        rw [htag] at hgo
        cases hend : findSectionEnd name 1 rest with
        | none =>
          rw [traceRange_unmatched hp htag hend]
          exact .note hinside fun _ => .of _
        | some bodyEnd =>
          rw [traceRange_sect hp htag hend]
          refine .note hinside fun hnested => ?_
          have hin : body.stop < bodyEnd.length := hnested bodyEnd ⟨inverted, name, rest, htag, hend⟩
          refine (traceSection_of (fun w => StaysInside.of _) (fun _ _ => StaysInside.andThen)
            (fun frames w => ?_) _ _ _ _).andThen fun w => ?_
          · refine ih _ hlt _ _ _ _ _ (findSectionEnd_endsClean hend) (List.suffix_refl rest) ?_ rfl
            intro range hrange
            rcases List.mem_cons.mp hrange with rfl | hrange
            · exact ⟨hrest.trans hstart, hin.le⟩
            · obtain ⟨hsuffix, hstop⟩ := houter range hrange
              exact ⟨(hrest.trans hstart).trans hsuffix, hstop.trans hin.le⟩
          · exact hgo ((skipTag_suffix body.stop bodyEnd).trans (findSectionEnd_suffix hend)) _ w
    · rw [traceRange_of_le (not_lt.mp hp)]
      exact .of _

end

/-! ## Output functions -/

/-- A part of a run, and the same one of the run in which all characters go out: an error may end it
earlier. -/
structure Traced.Within (t t' : Traced) : Prop where
  /-- Without an error they are the same. -/
  same : 0 ≤ t.1.1 → t = t'
  /-- The rounds are among those of the other one. -/
  rounds : t.2 ⊆ t'.2

theorem Traced.subset_andThen (t : Traced) (next : List UInt8 → Traced) : t.2 ⊆ (t.andThen next).2 := by
  unfold Traced.andThen
  split_ifs
  · exact List.Subset.refl _
  · exact List.subset_append_left _ _

namespace Traced.Within

theorem of {r r' : Result} (h : 0 ≤ r.1 → r = r') : Within (.of r) (.of r') :=
  ⟨fun hrc => congrArg Traced.of (h hrc), List.Subset.refl _⟩

theorem andThen {t t' : Traced} {next next' : List UInt8 → Traced} (ht : t.Within t')
    (hnext : ∀ w, (next w).Within (next' w)) : (t.andThen next).Within (t'.andThen next') := by
  by_cases hrc : t.1.1 < 0
  · have heq : t.andThen next = t := if_pos hrc
    rw [heq]
    exact ⟨fun h => absurd hrc (not_lt.mpr h), List.Subset.trans ht.rounds (t'.subset_andThen next')⟩
  · obtain rfl := ht.same (not_lt.mp hrc)
    have hn := hnext t.1.2
    unfold Traced.andThen
    rw [if_neg hrc, if_neg hrc]
    refine ⟨fun h => ?_, fun v hv => ?_⟩
    · rw [hn.same h]
    · exact (List.mem_append.mp hv).elim (List.mem_append_left _)
        fun hv => List.mem_append_right _ (hn.rounds hv)

theorem note {t t' : Traced} (visit : Visit) (ht : t.Within t') :
    (Traced.note visit t).Within (Traced.note visit t') :=
  ⟨fun hrc => congrArg (Traced.note visit) (ht.same hrc), List.cons_subset_cons visit ht.rounds⟩

end Traced.Within

section

variable (out : Putc) (written : List UInt8)

/-- What goes out is the same for all output functions that take it. -/
theorem putc_same (c : UInt8) (h : 0 ≤ (putc out written c).1) :
    putc out written c = (0, written ++ [c]) := by
  unfold putc at h ⊢
  split_ifs at h ⊢ with hneg
  · exact absurd hneg (not_lt.mpr h)
  · rfl

theorem Result.andThen_same {r : Result} {w : List UInt8} {next : List UInt8 → Result}
    (h : 0 ≤ (r.andThen next).1) (hr : 0 ≤ r.1 → r = (0, w)) : r.andThen next = next w := by
  unfold Result.andThen at h ⊢
  split_ifs at h ⊢ with hneg
  · exact absurd hneg (not_lt.mpr h)
  · rw [hr (not_lt.mp hneg)]

theorem emitStr_same (s : List UInt8) (h : 0 ≤ (emitStr out written s).1) :
    emitStr out written s = (0, written ++ s) := by
  induction s generalizing written with
  | nil => rw [emitStr, List.append_nil]
  | cons c s ih =>
    have heq := Result.andThen_same h (putc_same out written c)
    rw [emitStr] at h ⊢
    rw [heq] at h ⊢
    rw [ih _ h, List.append_assoc]
    rfl

theorem emitEscaped_same (s : List UInt8) (h : 0 ≤ (emitEscaped out written s).1) :
    emitEscaped out written s = (0, written ++ s.flatMap escape) := by
  induction s generalizing written with
  | nil => rw [emitEscaped, List.flatMap_nil, List.append_nil]
  | cons c s ih =>
    have heq := Result.andThen_same h (emitStr_same out written (escape c))
    rw [emitEscaped] at h ⊢
    rw [heq] at h ⊢
    rw [ih _ h, List.append_assoc, List.flatMap_cons]

theorem emitValue_same (escape : Bool) (value : Option Value)
    (h : 0 ≤ (emitValue out written escape value).1) :
    emitValue out written escape value = (0, written ++ valueText escape value) := by
  have hnone : ((0 : Int), written) = (0, written ++ []) := by rw [List.append_nil]
  match value with
  | none => exact hnone
  | some .null => exact hnone
  | some (.bool b) => exact emitStr_same out written _ h
  | some (.int i) => exact emitStr_same out written _ h
  | some (.string s) =>
    cases escape with
    | false => exact emitStr_same out written s h
    | true => exact emitEscaped_same out written s h
  | some (.list items) => exact hnone
  | some (.map pairs) => exact hnone

end

theorem neverFails_zero : NeverFails fun _ _ => 0 := fun _ _ => le_refl 0

/-- **An output function can only end a run earlier.** -/
theorem within_traceRange (out : Putc) (outer : List Range) (body : Range) (frames : Frames)
    (p written : List UInt8) :
    (traceRange out outer body frames p written).Within
      (traceRange (fun _ _ => 0) outer body frames p written) := by
  induction hn : p.length using Nat.strong_induction_on generalizing outer body frames p written with
  | _ n ih =>
    subst hn
    by_cases hp : body.stop < p.length
    · cases htag : readTag body.stop p with
      | literal c rest =>
        rw [traceRange_literal hp htag, traceRange_literal hp htag, putc_eq neverFails_zero]
        exact .note _ ((Traced.Within.of (putc_same out written c)).andThen fun w =>
          ih _ (length_lt_of_readTag hp htag) _ _ _ _ _ rfl)
      | skip rest =>
        rw [traceRange_skip hp htag, traceRange_skip hp htag]
        exact .note _ (ih _ (length_lt_of_readTag hp htag) _ _ _ _ _ rfl)
      | cut =>
        rw [traceRange_cut hp htag, traceRange_cut hp htag]
        exact .note _ (.of fun _ => rfl)
      | malformed =>
        rw [traceRange_malformed hp htag, traceRange_malformed hp htag]
        exact .note _ (.of fun _ => rfl)
      | var raw name rest =>
        rw [traceRange_var hp htag, traceRange_var hp htag, emitValue_eq neverFails_zero]
        exact .note _ ((Traced.Within.of (emitValue_same out written _ _)).andThen fun w =>
          ih _ (length_lt_of_readTag hp htag) _ _ _ _ _ rfl)
      | sect inverted name rest =>
        have hlt := length_lt_of_readTag hp htag
        cases hend : findSectionEnd name 1 rest with
        | none =>
          rw [traceRange_unmatched hp htag hend, traceRange_unmatched hp htag hend]
          exact .note _ (.of fun _ => rfl)
        | some bodyEnd =>
          have hskip := (skipTag_suffix body.stop bodyEnd).trans (findSectionEnd_suffix hend)
          rw [traceRange_sect hp htag hend, traceRange_sect hp htag hend]
          refine .note _ (.andThen (traceSection_rel (fun w => .of fun _ => rfl)
            (fun _ _ _ _ => .andThen) (fun frames w => ?_) _ _ _ _) fun w => ?_)
          · exact ih _ hlt _ _ _ _ _ rfl
          · exact ih _ (hskip.length_le.trans_lt hlt) _ _ _ _ _ rfl
    · rw [traceRange_of_le (not_lt.mp hp), traceRange_of_le (not_lt.mp hp)]
      exact .of fun _ => rfl

/-! ## Errors -/

/-- A part of a run that ends with an error where it comes to a tag at which the renderer gives up, and
only there. -/
def FailsWhereBroken (t : Traced) : Prop := t.1.1 < 0 ↔ ∃ v ∈ t.2, v.Broken

namespace FailsWhereBroken

theorem of (written : List UInt8) : FailsWhereBroken (.of (0, written)) :=
  iff_of_false (lt_irrefl 0) fun ⟨_, hv, _⟩ => List.not_mem_nil hv

theorem andThen {t : Traced} {next : List UInt8 → Traced} (ht : FailsWhereBroken t)
    (hnext : ∀ w, FailsWhereBroken (next w)) : FailsWhereBroken (t.andThen next) := by
  unfold Traced.andThen
  split_ifs with hrc
  · exact ht
  · refine (hnext t.1.2).trans ⟨?_, ?_⟩
    · rintro ⟨v, hv, hbroken⟩
      exact ⟨v, List.mem_append_right _ hv, hbroken⟩
    · rintro ⟨v, hv, hbroken⟩
      rcases List.mem_append.mp hv with hv | hv
      · exact absurd (ht.mpr ⟨v, hv, hbroken⟩) hrc
      · exact ⟨v, hv, hbroken⟩

theorem note {v : Visit} {t : Traced} (hv : ¬ v.Broken) (ht : FailsWhereBroken t) :
    FailsWhereBroken (.note v t) :=
  ht.trans ⟨fun ⟨u, hu, hbroken⟩ => ⟨u, List.mem_cons_of_mem _ hu, hbroken⟩, fun ⟨u, hu, hbroken⟩ =>
    (List.mem_cons.mp hu).elim (fun heq => absurd (heq ▸ hbroken) hv) fun hu => ⟨u, hu, hbroken⟩⟩

/-- The last round. -/
theorem end_ {v : Visit} (hv : v.Broken) (written : List UInt8) :
    FailsWhereBroken (.note v (.of (-1, written))) :=
  iff_of_true neg_one_lt_zero ⟨v, List.mem_cons_self, hv⟩

end FailsWhereBroken

/-- **Where all characters go out, errors are those of tags.** -/
theorem failsWhereBroken_traceRange (outer : List Range) (body : Range) (frames : Frames)
    (p written : List UInt8) :
    FailsWhereBroken (traceRange (fun _ _ => 0) outer body frames p written) := by
  induction hn : p.length using Nat.strong_induction_on generalizing outer body frames p written with
  | _ n ih =>
    subst hn
    by_cases hp : body.stop < p.length
    · have hwhole {tag : Tag} (htag : readTag body.stop p = tag) (hmalformed : tag ≠ .malformed)
          (hclosed : ∀ inverted name rest, tag = .sect inverted name rest →
            findSectionEnd name 1 rest ≠ none) : ¬ (⟨outer, body, p⟩ : Visit).Broken := by
        rintro (hbad | ⟨inverted, name, rest, hopens, hend⟩)
        · exact hmalformed (htag.symm.trans hbad)
        · exact hclosed inverted name rest (htag.symm.trans hopens) hend
      cases htag : readTag body.stop p with
      | literal c rest =>
        rw [traceRange_literal hp htag, putc_eq neverFails_zero]
        exact .note (hwhole htag (by simp) (by simp)) ((FailsWhereBroken.of _).andThen fun w =>
          ih _ (length_lt_of_readTag hp htag) _ _ _ _ _ rfl)
      | skip rest =>
        rw [traceRange_skip hp htag]
        exact .note (hwhole htag (by simp) (by simp)) (ih _ (length_lt_of_readTag hp htag) _ _ _ _ _ rfl)
      | cut =>
        rw [traceRange_cut hp htag]
        exact .note (hwhole htag (by simp) (by simp)) (.of written)
      | malformed =>
        rw [traceRange_malformed hp htag]
        exact .end_ (.inl htag) written
      | var raw name rest =>
        rw [traceRange_var hp htag, emitValue_eq neverFails_zero]
        exact .note (hwhole htag (by simp) (by simp)) ((FailsWhereBroken.of _).andThen fun w =>
          ih _ (length_lt_of_readTag hp htag) _ _ _ _ _ rfl)
      | sect inverted name rest =>
        have hlt := length_lt_of_readTag hp htag
        cases hend : findSectionEnd name 1 rest with
        | none =>
          rw [traceRange_unmatched hp htag hend]
          exact .end_ (.inr ⟨inverted, name, rest, htag, hend⟩) written
        | some bodyEnd =>
          have hskip := (skipTag_suffix body.stop bodyEnd).trans (findSectionEnd_suffix hend)
          rw [traceRange_sect hp htag hend]
          refine .note (hwhole htag (by simp) fun inverted' name' rest' htag' => ?_)
            (.andThen (traceSection_of FailsWhereBroken.of (fun _ _ => .andThen)
              (fun frames w => ?_) _ _ _ _) fun w => ?_)
          · obtain ⟨-, rfl, rfl⟩ := Tag.sect.inj htag'
            rw [hend]
            exact Option.some_ne_none _
          · exact ih _ hlt _ _ _ _ _ rfl
          · exact ih _ (hskip.length_le.trans_lt hlt) _ _ _ _ _ rfl
    · rw [traceRange_of_le (not_lt.mp hp)]
      exact .of written

/-! ## The text and the run -/

/-- A part of a run that comes to what stands in a template. -/
def ComesOver (template : List UInt8) (t : Traced) : Prop :=
  ∀ v ∈ t.2, v.body.stop < v.start.length ∧ Occurs template v.body v.start

namespace ComesOver

variable {template : List UInt8}

theorem of (r : Result) : ComesOver template (.of r) := fun _ hv => absurd hv List.not_mem_nil

theorem andThen {t : Traced} {next : List UInt8 → Traced} (ht : ComesOver template t)
    (hnext : ∀ w, ComesOver template (next w)) : ComesOver template (t.andThen next) := by
  unfold Traced.andThen
  split_ifs
  · exact ht
  · exact fun v hv => (List.mem_append.mp hv).elim (ht v) (hnext _ v)

theorem note {v : Visit} {t : Traced} (hv : v.body.stop < v.start.length ∧ Occurs template v.body v.start)
    (ht : ComesOver template t) : ComesOver template (.note v t) :=
  fun u hu => (List.mem_cons.mp hu).elim (fun heq => heq ▸ hv) (ht u)

end ComesOver

/-- **The renderer comes to nothing that does not stand in the template.** -/
theorem comesOver_traceRange {template : List UInt8} (out : Putc) (outer : List Range) {body : Range}
    (frames : Frames) {p : List UInt8} (written : List UInt8) (h : Occurs template body p) :
    ComesOver template (traceRange out outer body frames p written) := by
  induction hn : p.length using Nat.strong_induction_on generalizing outer body frames p written with
  | _ n ih =>
    subst hn
    by_cases hp : body.stop < p.length
    · cases htag : readTag body.stop p with
      | literal c rest =>
        rw [traceRange_literal hp htag]
        exact .note ⟨hp, h⟩ ((ComesOver.of _).andThen fun w =>
          ih _ (length_lt_of_readTag hp htag) _ _ _ (h.behind hp htag (by simp)) rfl)
      | skip rest =>
        rw [traceRange_skip hp htag]
        exact .note ⟨hp, h⟩ (ih _ (length_lt_of_readTag hp htag) _ _ _ (h.behind hp htag (by simp)) rfl)
      | cut =>
        rw [traceRange_cut hp htag]
        exact .note ⟨hp, h⟩ (.of _)
      | malformed =>
        rw [traceRange_malformed hp htag]
        exact .note ⟨hp, h⟩ (.of _)
      | var raw name rest =>
        rw [traceRange_var hp htag]
        exact .note ⟨hp, h⟩ ((ComesOver.of _).andThen fun w =>
          ih _ (length_lt_of_readTag hp htag) _ _ _ (h.behind hp htag (by simp)) rfl)
      | sect inverted name rest =>
        have hlt := length_lt_of_readTag hp htag
        cases hend : findSectionEnd name 1 rest with
        | none =>
          rw [traceRange_unmatched hp htag hend]
          exact .note ⟨hp, h⟩ (.of _)
        | some bodyEnd =>
          have hskip := (skipTag_suffix body.stop bodyEnd).trans (findSectionEnd_suffix hend)
          rw [traceRange_sect hp htag hend]
          refine .note ⟨hp, h⟩ (.andThen (traceSection_of (fun w => .of _) (fun _ _ => .andThen)
            (fun frames w => ?_) _ _ _ _) fun w => ?_)
          · exact ih _ hlt _ _ _ (h.inside hp htag hend) rfl
          · exact ih _ (hskip.length_le.trans_lt hlt) _ _ _ (h.past hp htag hend) rfl
    · rw [traceRange_of_le (not_lt.mp hp)]
      exact .of _

/-- A properly nested template has no section that is closed outside of the one that is open. -/
theorem ProperlyNested.nested {template : List UInt8} (h : ProperlyNested template)
    {root : Option Value} {v : Visit} (hv : v ∈ rounds template root) : v.Nested := by
  rintro bodyEnd ⟨inverted, name, rest, hopens, hend⟩
  obtain ⟨hlt, hoccurs⟩ := comesOver_traceRange _ [] [root] [] Occurs.start v hv
  obtain ⟨bodyEnd', hend', hin⟩ := h hoccurs hlt hopens
  obtain rfl := Option.some.inj (hend.symm.trans hend')
  exact hin

/-! ## Sections and their bodies -/

/-- Sections render only their own bodies, whatever the output function does: all rounds are inside of the
bodies of the sections that are open, a section that is not closed inside of the one that is open ends
the run, and a template that is not properly nested is an error. -/
structure RendersOwnBodies (template : List UInt8) (root : Option Value) : Prop where
  /-- All rounds are inside of the bodies. -/
  inside : ∀ out, ∀ v ∈ (tmplTrace out template root).2, v.Inside
  /-- The renderer ends with an error at a section that is not closed there. -/
  stops : ∀ out before v after, (tmplTrace out template root).2 = before ++ v :: after → v.Misnested →
    after = [] ∧ (tmplRender (some out) (some template) root).1 < 0
  /-- A template that is not properly nested is an error. -/
  error : ¬ ProperlyNested template → ∀ out, (tmplRender (some out) (some template) root).1 < 0

end Onak.Template
