import Onak.Proofs.MarshalProofs
import Onak.Proofs.TemplateProofs

/-!
# The renderer gives the meaning of a template

Both scanners, `render_range` and `find_section_end`, read the text of a tag as what it was printed
for, whatever stands behind it. So `find_section_end` comes out of the text of a tree at the depth it
came in with, and `render_range` writes the meaning of the tree, by induction on the tree.
-/

namespace Onak.Template

open Cursor Print

/-! ## Names -/

theorem splitOn_takeWhile {c : UInt8} {name : List UInt8} (h : name.dropWhile (· ≠ c) = []) :
    name.splitOn c = [name.takeWhile (· ≠ c)] := by
  have hname : name.takeWhile (· ≠ c) = name := by
    have happend := List.takeWhile_append_dropWhile (p := (· ≠ c)) (l := name)
    rwa [h, List.append_nil] at happend
  have hnot : c ∉ name.takeWhile (· ≠ c) := fun hmem =>
    absurd (List.mem_takeWhile_imp hmem) (by simp)
  rw [hname] at hnot ⊢
  exact List.splitOn_eq_singleton hnot

theorem splitOn_dropWhile {c d : UInt8} {name rest : List UInt8}
    (h : name.dropWhile (· ≠ c) = d :: rest) :
    name.splitOn c = name.takeWhile (· ≠ c) :: rest.splitOn c := by
  have hd : d = c := eq_of_dropWhile_ne h
  have hnot : c ∉ name.takeWhile (· ≠ c) := fun hmem =>
    absurd (List.mem_takeWhile_imp hmem) (by simp)
  have happend := List.takeWhile_append_dropWhile (p := (· ≠ c)) (l := name)
  rw [h, hd] at happend
  have hsplit := List.splitOn_append_cons_self_of_not_mem hnot rest
  rwa [happend] at hsplit

/-- The walk over the text of a name goes through its segments. -/
theorem lookupSegments_eq {name first : List UInt8} {segments : List (List UInt8)}
    (h : name.splitOn '.'.toUInt8 = first :: segments) :
    name.takeWhile (· ≠ '.'.toUInt8) = first ∧
      ∀ value, lookupSegments value (name.dropWhile (· ≠ '.'.toUInt8)) =
        segments.foldlM (fun value segment => mapGet segment (some value)) value := by
  induction hn : name.length using Nat.strong_induction_on generalizing name first segments with
  | _ n ih =>
    subst hn
    cases hdrop : name.dropWhile (· ≠ '.'.toUInt8) with
    | nil =>
      rw [splitOn_takeWhile hdrop] at h
      obtain ⟨hfirst, rfl⟩ := List.cons.inj h
      refine ⟨hfirst, fun value => ?_⟩
      rw [lookupSegments]
      rfl
    | cons d rest =>
      have hlength := List.length_dropWhile_le (· ≠ '.'.toUInt8) name
      rw [hdrop, List.length_cons] at hlength
      obtain ⟨first', segments', hrest⟩ :=
        List.exists_cons_of_ne_nil (List.splitOn_ne_nil '.'.toUInt8 rest)
      obtain ⟨hfirst', hsegments'⟩ := ih rest.length hlength hrest rfl
      rw [splitOn_dropWhile hdrop, hrest] at h
      obtain ⟨hfirst, rfl⟩ := List.cons.inj h
      refine ⟨hfirst, fun value => ?_⟩
      rw [lookupSegments, hfirst', List.foldlM_cons]
      cases mapGet first' (some value) with
      | none => rfl
      | some cur => exact hsegments' cur

theorem lookup_eq (frames : Frames) (name : List UInt8) : lookup frames name = resolve frames name := by
  obtain ⟨first, segments, hname⟩ :=
    List.exists_cons_of_ne_nil (List.splitOn_ne_nil '.'.toUInt8 name)
  obtain ⟨hfirst, hsegments⟩ := lookupSegments_eq hname
  unfold lookup resolve resolveDotted
  rw [hname, hfirst]
  split_ifs
  · rfl
  · cases hfound : frames.findSome? (mapGet first) with
    | none => simp only [hfound, Option.bind_none]
    | some value => simp only [hfound, Option.bind_some, hsegments]

/-! ## Texts without a pair of braces -/

/-- A text in which `x` does not stand twice in a row, also not over its end. -/
theorem not_pair {x : UInt8} {text q : List UInt8} (hpair : ¬ [x, x] <:+: text)
    (hlast : q.getD 0 0 = x → text.getLast? ≠ some x) {a b : List UInt8} (hab : text = a ++ b)
    (hb : b ≠ []) : ¬ ((b ++ q).getD 0 0 = x ∧ (b ++ q).getD 1 0 = x) := by
  rintro ⟨hfirst, hsecond⟩
  cases b with
  | nil => exact hb rfl
  | cons c b =>
    obtain rfl : c = x := hfirst
    cases b with
    | nil => exact hlast hsecond (by rw [hab, List.getLast?_concat])
    | cons d b =>
      obtain rfl : d = c := hsecond
      exact hpair ⟨a, b, by rw [hab, List.append_assoc]; rfl⟩

/-- A text without the closing brace. -/
theorem not_closes {text q : List UInt8} (h : rbrace ∉ text) {a b : List UInt8} (hab : text = a ++ b)
    (hb : b ≠ []) : closes (b ++ q) = false := by
  cases b with
  | nil => exact absurd rfl hb
  | cons c b =>
    have hc : c ≠ rbrace := fun hc => h (by rw [hab, hc]; simp)
    rw [closes, decide_eq_false_iff_not]
    exact fun hcloses => hc hcloses.1

/-! ## Reading a tag -/

section

variable {stop : Nat} {name inner rest : List UInt8}

theorem NameOk.not_mem_rbrace (hname : NameOk name) : rbrace ∉ name :=
  fun hmem => (hname.2.1 rbrace hmem).2.2.2 rfl

theorem NameOk.atBlank (hname : NameOk name) (q : List UInt8) : atBlank (name ++ q) = false := by
  obtain ⟨hne, hchars, -⟩ := hname
  cases name with
  | nil => exact absurd rfl hne
  | cons c name => exact (hchars c (by simp)).2.1

theorem NameOk.advance (hname : NameOk name) (hstop : stop ≤ rest.length + 1) :
    Cursor.advance stop inName (name ++ (rbrace :: rest)) = rbrace :: rest := by
  refine advance_through hstop (fun a b hab hb => ?_) rfl
  cases b with
  | nil => exact absurd rfl hb
  | cons c b =>
    have hc := hname.2.1 c (by rw [hab]; simp)
    have hchar : inName (c :: (b ++ rbrace :: rest)) = (!isBlank c && decide (c ≠ rbrace)) := rfl
    rw [List.cons_append, hchar, hc.2.1, decide_eq_true hc.2.2.2]
    rfl

theorem textBetween_append (a q : List UInt8) : textBetween (a ++ q) q = a := by
  rw [textBetween, List.length_append, Nat.add_sub_cancel, List.take_left]

theorem readTagName_eq {braces : Nat} (kind : List UInt8 → List UInt8 → Tag) (hname : NameOk name)
    (hstop : stop ≤ rest.length) :
    readTagName stop braces kind (name ++ (List.replicate (braces + 1) rbrace ++ rest)) =
      kind name rest := by
  have hbraces : List.replicate (braces + 1) rbrace ++ rest =
      rbrace :: (List.replicate braces rbrace ++ rest) := rfl
  have hlength : (List.replicate (braces + 1) rbrace ++ rest).length = braces + 1 + rest.length := by
    rw [List.length_append, List.length_replicate]
  have hadvance : Cursor.advance stop inName
      (name ++ (List.replicate (braces + 1) rbrace ++ rest)) =
        List.replicate (braces + 1) rbrace ++ rest := by
    rw [hbraces]
    refine hname.advance ?_
    rw [List.length_append, List.length_replicate]
    omega
  have hblank : Cursor.advance stop atBlank (List.replicate (braces + 1) rbrace ++ rest) =
      List.replicate (braces + 1) rbrace ++ rest := advance_of_not rfl
  unfold readTagName
  simp only [advance_of_not (hname.atBlank _), hadvance, hblank, textBetween_append]
  rw [if_neg, List.drop_left' List.length_replicate]
  rw [List.take_left' List.length_replicate, hlength]
  simp only [ne_eq, not_true_eq_false, or_false]
  omega

theorem readMarkName_eq (c : UInt8) (hname : NameOk name) :
    readMarkName c (name ++ (rbrace :: rbrace :: rest)) =
      if c = '/'.toUInt8 then .closing name rest else .opening name rest := by
  have hadvance : Cursor.advance 0 inName (name ++ (rbrace :: rbrace :: rest)) =
      rbrace :: rbrace :: rest := hname.advance (Nat.zero_le _)
  have hblank : Cursor.advance 0 atBlank (rbrace :: rbrace :: rest) = rbrace :: rbrace :: rest :=
    advance_of_not rfl
  have hcloses : closes (rbrace :: rbrace :: rest) = true := rfl
  unfold readMarkName
  simp only [advance_of_not (hname.atBlank _), hadvance, hblank, textBetween_append, hcloses,
    if_true]
  rfl

theorem skipTag_through (hstop : stop ≤ rest.length)
    (h : ∀ a b, inner = a ++ b → b ≠ [] → closes (b ++ (rbrace :: rbrace :: rest)) = false) :
    skipTag stop (inner ++ (rbrace :: rbrace :: rest)) = rest := by
  have hadvance : Cursor.advance stop (fun p => !closes p) (inner ++ (rbrace :: rbrace :: rest)) =
      rbrace :: rbrace :: rest := by
    refine advance_through ?_ (fun a b hab hb => ?_) rfl
    · simp only [List.length_cons]
      omega
    · rw [h a b hab hb]
      rfl
  unfold skipTag
  simp only [hadvance]
  rw [if_pos (by simp only [List.length_cons]; omega)]
  rfl

theorem tag_append (inner rest : List UInt8) :
    tag inner ++ rest = lbrace :: lbrace :: (inner ++ (rbrace :: rbrace :: rest)) := by
  unfold tag
  rw [List.cons_append, List.cons_append, List.append_assoc]
  rfl

theorem readTag_tag {c : UInt8} (hc : isBlank c = false) (hstop : stop ≤ rest.length) :
    readTag stop (tag (c :: inner) ++ rest) =
      if c = lbrace then
        readTagName stop 2 (.var true) (inner ++ (rbrace :: rbrace :: rest))
      else if c = '#'.toUInt8 then
        readTagName stop 1 (.sect false) (inner ++ (rbrace :: rbrace :: rest))
      else if c = '^'.toUInt8 then
        readTagName stop 1 (.sect true) (inner ++ (rbrace :: rbrace :: rest))
      else if c = '/'.toUInt8 ∨ c = '!'.toUInt8 then
        .skip (skipTag stop (c :: inner ++ (rbrace :: rbrace :: rest)))
      else
        readTagName stop 1 (.var false) (c :: inner ++ (rbrace :: rbrace :: rest)) := by
  have hopens : opens (lbrace :: lbrace :: (c :: inner ++ (rbrace :: rbrace :: rest))) = true := rfl
  have hblank : advance stop atBlank (c :: inner ++ (rbrace :: rbrace :: rest)) =
      c :: inner ++ (rbrace :: rbrace :: rest) := advance_of_not hc
  have hlength : ¬ (c :: inner ++ (rbrace :: rbrace :: rest)).length ≤ stop := by
    rw [List.length_append, List.length_cons, List.length_cons, List.length_cons]
    omega
  rw [tag_append, readTag, if_pos hopens]
  simp only [List.drop_succ_cons, List.drop_zero, hblank, if_neg hlength]
  rfl

theorem readMark_tag {c : UInt8} (hc : isBlank c = false) :
    readMark (tag (c :: inner) ++ rest) =
      if c = '#'.toUInt8 ∨ c = '^'.toUInt8 ∨ c = '/'.toUInt8 then
        readMarkName c (inner ++ (rbrace :: rbrace :: rest))
      else if c = '!'.toUInt8 then
        .other (skipTag 0 (c :: inner ++ (rbrace :: rbrace :: rest)))
      else if c = lbrace then
        let p := advance 0 (fun p => !closesRaw p) (inner ++ (rbrace :: rbrace :: rest))
        .other (if 0 < p.length then p.drop 3 else p)
      else
        .other (skipTag 0 (c :: inner ++ (rbrace :: rbrace :: rest))) := by
  have hopens : opens (lbrace :: lbrace :: (c :: inner ++ (rbrace :: rbrace :: rest))) = true := rfl
  have hblank : advance 0 atBlank (c :: inner ++ (rbrace :: rbrace :: rest)) =
      c :: inner ++ (rbrace :: rbrace :: rest) := advance_of_not hc
  rw [tag_append, readMark, if_pos hopens]
  simp only [List.drop_succ_cons, List.drop_zero, hblank]
  rfl

/-! ### Variables -/

theorem NameOk.kind (hname : NameOk name) :
    ∃ c name', name = c :: name' ∧ isBlank c = false ∧ c ≠ lbrace ∧ c ≠ '#'.toUInt8 ∧
      c ≠ '^'.toUInt8 ∧ c ≠ '/'.toUInt8 ∧ c ≠ '!'.toUInt8 := by
  obtain ⟨hne, hchars, hkind⟩ := hname
  cases name with
  | nil => exact absurd rfl hne
  | cons c name' =>
    have hc := hchars c (by simp)
    simp only [List.getD_cons_zero, List.mem_cons, List.not_mem_nil, or_false, not_or] at hkind
    obtain ⟨h₁, h₂, h₃, h₄⟩ := hkind
    exact ⟨c, name', rfl, hc.2.1, hc.2.2.1, h₁, h₂, h₃, h₄⟩

theorem readTag_escaped (hname : NameOk name) (hstop : stop ≤ rest.length) :
    readTag stop (tag name ++ rest) = .var false name rest := by
  obtain ⟨c, name', rfl, hc, hbrace, h₁, h₂, h₃, h₄⟩ := hname.kind
  rw [readTag_tag hc hstop, if_neg hbrace, if_neg h₁, if_neg h₂, if_neg (not_or.mpr ⟨h₃, h₄⟩)]
  exact @readTagName_eq stop _ rest 1 (.var false) hname hstop

theorem readMark_escaped (hname : NameOk name) : readMark (tag name ++ rest) = .other rest := by
  obtain ⟨c, name', rfl, hc, hbrace, h₁, h₂, h₃, h₄⟩ := hname.kind
  rw [readMark_tag hc, if_neg (by simp [h₁, h₂, h₃]), if_neg h₄, if_neg hbrace,
    skipTag_through (Nat.zero_le _) fun a b hab hb => not_closes hname.not_mem_rbrace hab hb]

theorem raw_append (name rest : List UInt8) :
    (name ++ [rbrace]) ++ (rbrace :: rbrace :: rest) = name ++ (List.replicate 3 rbrace ++ rest) := by
  rw [List.append_assoc]
  rfl

theorem readTag_raw (hname : NameOk name) (hstop : stop ≤ rest.length) :
    readTag stop (tag (lbrace :: (name ++ [rbrace])) ++ rest) = .var true name rest := by
  rw [readTag_tag rfl hstop, if_pos rfl, raw_append]
  exact readTagName_eq _ hname hstop

theorem readMark_raw (hname : NameOk name) :
    readMark (tag (lbrace :: (name ++ [rbrace])) ++ rest) = .other rest := by
  have hadvance : advance 0 (fun p => !closesRaw p)
      (name ++ (List.replicate 3 rbrace ++ rest)) = List.replicate 3 rbrace ++ rest := by
    refine advance_through (Nat.zero_le _) (fun a b hab hb => ?_) rfl
    simp only [closesRaw, not_closes hname.not_mem_rbrace hab hb, Bool.false_eq_true, false_and,
      decide_false, Bool.not_false]
  rw [readMark_tag rfl, if_neg (by decide), if_neg (by decide), if_pos rfl, raw_append]
  simp only [hadvance]
  rfl

/-! ### Comments -/

theorem not_closes_comment {text : List UInt8} (hpair : ¬ [rbrace, rbrace] <:+: text)
    (hlast : text.getLast? ≠ some rbrace) {q : List UInt8} {a b : List UInt8}
    (hab : '!'.toUInt8 :: text = a ++ b) (hb : b ≠ []) : closes (b ++ q) = false := by
  have hpair' : ¬ [rbrace, rbrace] <:+: '!'.toUInt8 :: text := by
    rw [List.infix_cons_iff]
    rintro (hfront | hfront)
    · exact absurd (List.cons_prefix_cons.mp hfront).1 (by decide)
    · exact hpair hfront
  have hlast' : ('!'.toUInt8 :: text).getLast? ≠ some rbrace := by
    cases text with
    | nil => decide
    | cons d text => rwa [List.getLast?_cons_cons]
  rw [closes, decide_eq_false_iff_not]
  exact not_pair hpair' (fun _ => hlast') hab hb

theorem readTag_comment {text : List UInt8} (hpair : ¬ [rbrace, rbrace] <:+: text)
    (hlast : text.getLast? ≠ some rbrace) (hstop : stop ≤ rest.length) :
    readTag stop (tag ('!'.toUInt8 :: text) ++ rest) = .skip rest := by
  rw [readTag_tag (by decide) hstop, if_neg (by decide), if_neg (by decide), if_neg (by decide),
    if_pos (.inr rfl),
    skipTag_through hstop fun a b hab hb => not_closes_comment hpair hlast hab hb]

theorem readMark_comment {text : List UInt8} (hpair : ¬ [rbrace, rbrace] <:+: text)
    (hlast : text.getLast? ≠ some rbrace) :
    readMark (tag ('!'.toUInt8 :: text) ++ rest) = .other rest := by
  rw [readMark_tag (by decide), if_neg (by decide), if_pos rfl,
    skipTag_through (Nat.zero_le _) fun a b hab hb => not_closes_comment hpair hlast hab hb]

/-! ### Sections -/

theorem readTag_sect (inverted : Bool) (hname : NameOk name) (hstop : stop ≤ rest.length) :
    readTag stop (tag (sectChar inverted :: name) ++ rest) = .sect inverted name rest := by
  cases inverted with
  | false =>
    rw [sectChar, readTag_tag (by decide) hstop, if_neg (by decide), if_pos (by decide)]
    exact @readTagName_eq stop _ rest 1 (.sect false) hname hstop
  | true =>
    rw [sectChar, readTag_tag (by decide) hstop, if_neg (by decide), if_neg (by decide), if_pos rfl]
    exact @readTagName_eq stop _ rest 1 (.sect true) hname hstop

theorem readMark_sect (inverted : Bool) (hname : NameOk name) :
    readMark (tag (sectChar inverted :: name) ++ rest) = .opening name rest := by
  cases inverted with
  | false =>
    rw [sectChar, readMark_tag (by decide), if_pos (by decide), readMarkName_eq _ hname]
    rfl
  | true =>
    rw [sectChar, readMark_tag (by decide), if_pos (by decide), readMarkName_eq _ hname]
    rfl

theorem readMark_closing (hname : NameOk name) :
    readMark (tag ('/'.toUInt8 :: name) ++ rest) = .closing name rest := by
  rw [readMark_tag (by decide), if_pos (by decide), readMarkName_eq _ hname]
  rfl

theorem skipTag_closing (hname : NameOk name) (hstop : stop ≤ rest.length) :
    skipTag stop (tag ('/'.toUInt8 :: name) ++ rest) = rest := by
  have hinner : rbrace ∉ lbrace :: lbrace :: '/'.toUInt8 :: name := by
    intro hmem
    simp only [List.mem_cons] at hmem
    rcases hmem with h | h | h | h
    · exact absurd h (by decide)
    · exact absurd h (by decide)
    · exact absurd h (by decide)
    · exact hname.not_mem_rbrace h
  rw [tag_append]
  exact skipTag_through hstop fun a b hab hb => not_closes hinner hab hb

end

/-! ## Finding the end of a section -/

section

variable {name tname p q rest : List UInt8} {depth : Nat}

theorem findSectionEnd_other (hp : p ≠ []) (h : readMark p = .other rest) :
    findSectionEnd name depth p = findSectionEnd name depth rest := by
  rw [findSectionEnd, if_neg hp]
  split <;> simp_all

theorem findSectionEnd_opening (hp : p ≠ []) (h : readMark p = .opening tname rest) :
    findSectionEnd name depth p =
      findSectionEnd name (if tname = name then depth + 1 else depth) rest := by
  rw [findSectionEnd, if_neg hp]
  split <;> simp_all

theorem findSectionEnd_closing (hp : p ≠ []) (h : readMark p = .closing tname rest) :
    findSectionEnd name depth p =
      if tname = name then
        if depth = 1 then some p else findSectionEnd name (depth - 1) rest
      else
        findSectionEnd name depth rest := by
  rw [findSectionEnd, if_neg hp]
  split <;> simp_all

theorem tag_ne_nil (inner rest : List UInt8) : tag inner ++ rest ≠ [] := by
  rw [tag_append]
  exact List.cons_ne_nil _ _

theorem findSectionEnd_text {text : List UInt8}
    (h : ∀ a b, text = a ++ b → b ≠ [] → opens (b ++ q) = false) :
    findSectionEnd name depth (text ++ q) = findSectionEnd name depth q := by
  induction text with
  | nil => rfl
  | cons c text ih =>
    have hopens := h [] (c :: text) rfl (List.cons_ne_nil c text)
    have hmark : readMark (c :: text ++ q) = .other (text ++ q) := by
      rw [readMark, hopens]
      rfl
    have hne : c :: text ++ q ≠ [] := List.cons_ne_nil _ _
    rw [findSectionEnd_other hne hmark]
    refine ih fun a b hab hb => h (c :: a) b ?_ hb
    rw [hab, List.cons_append]

/-- What comes after a tree starts with an opening brace at most if that is allowed for. -/
theorem Tree.beforeBrace_of_print {closing : Bool} (hq : q.getD 0 0 = lbrace → closing = true)
    (t : Tree) (h : (t.print ++ q).getD 0 0 = lbrace) : t.beforeBrace closing = true := by
  induction t with
  | nil => exact hq h
  | literal text rest ih =>
    cases text with
    | nil => exact ih h
    | cons c text => exact decide_eq_true h
  | escaped name rest ih => rfl
  | raw name rest ih => rfl
  | comment text rest ih => rfl
  | sect inverted name body rest ihbody ihrest => rfl

/-- In a readable tree no tag starts inside of a literal. -/
theorem not_opens {closing : Bool} {text : List UInt8} {t : Tree}
    (hq : q.getD 0 0 = lbrace → closing = true) (hpair : ¬ [lbrace, lbrace] <:+: text)
    (hlast : t.beforeBrace closing → text.getLast? ≠ some lbrace) {a b : List UInt8}
    (hab : text = a ++ b) (hb : b ≠ []) : opens (b ++ (t.print ++ q)) = false := by
  rw [opens, decide_eq_false_iff_not]
  exact not_pair hpair (fun hnext => hlast (t.beforeBrace_of_print hq hnext)) hab hb

/-- `find_section_end` goes over the text of a tree. -/
theorem findSectionEnd_print {closing : Bool} {t : Tree} (h : t.Readable closing)
    (hq : q.getD 0 0 = lbrace → closing = true) (hdepth : 1 ≤ depth) :
    findSectionEnd name depth (t.print ++ q) = findSectionEnd name depth q := by
  induction t generalizing closing depth q with
  | nil => rfl
  | literal text rest ih =>
    obtain ⟨-, ⟨hpair, hlast⟩, hrest⟩ := h
    rw [Tree.print, List.append_assoc,
      findSectionEnd_text fun a b hab hb => not_opens hq hpair hlast hab hb, ih hrest hq hdepth]
  | escaped tname rest ih =>
    obtain ⟨htname, hrest⟩ := h
    rw [Tree.print, List.append_assoc,
      findSectionEnd_other (tag_ne_nil _ _) (readMark_escaped htname), ih hrest hq hdepth]
  | raw tname rest ih =>
    obtain ⟨htname, hrest⟩ := h
    rw [Tree.print, List.append_assoc,
      findSectionEnd_other (tag_ne_nil _ _) (readMark_raw htname), ih hrest hq hdepth]
  | comment text rest ih =>
    obtain ⟨-, ⟨hpair, hlast⟩, hrest⟩ := h
    rw [Tree.print, List.append_assoc,
      findSectionEnd_other (tag_ne_nil _ _) (readMark_comment hpair hlast), ih hrest hq hdepth]
  | sect inverted tname body rest ihbody ihrest =>
    obtain ⟨htname, hbody, hrest⟩ := h
    rw [Tree.print, List.append_assoc, List.append_assoc, List.append_assoc,
      findSectionEnd_opening (tag_ne_nil _ _) (readMark_sect inverted htname),
      ihbody hbody (fun _ => rfl) (by split_ifs <;> omega),
      findSectionEnd_closing (tag_ne_nil _ _) (readMark_closing htname)]
    -- the closing tag takes back what the opening one has added
    by_cases hsame : tname = name
    · rw [if_pos hsame, if_pos hsame, if_neg (by omega), Nat.add_sub_cancel, ihrest hrest hq hdepth]
    · rw [if_neg hsame, if_neg hsame, ihrest hrest hq hdepth]

theorem findSectionEnd_body {body : Tree} (h : body.Readable true) (hname : NameOk name) :
    findSectionEnd name 1 (body.print ++ (tag ('/'.toUInt8 :: name) ++ q)) =
      some (tag ('/'.toUInt8 :: name) ++ q) := by
  rw [findSectionEnd_print h (fun _ => rfl) (le_refl 1),
    findSectionEnd_closing (tag_ne_nil _ _) (readMark_closing hname), if_pos rfl, if_pos rfl]

end

/-! ## Rendering -/

section

variable {out : Putc} {stop : Nat} {frames : Frames} {q written : List UInt8}

theorem renderRange_text (hout : NeverFails out) {text : List UInt8} (hstop : stop ≤ q.length)
    (h : ∀ a b, text = a ++ b → b ≠ [] → opens (b ++ q) = false) :
    renderRange out stop frames (text ++ q) written =
      renderRange out stop frames q (written ++ text) := by
  induction text generalizing written with
  | nil => rw [List.append_nil, List.nil_append]
  | cons c text ih =>
    have hopens := h [] (c :: text) rfl (List.cons_ne_nil c text)
    have htag : readTag stop (c :: text ++ q) = .literal c (text ++ q) := by
      rw [readTag, hopens]
      rfl
    have hlength : stop < (c :: text ++ q).length := by
      rw [List.length_append, List.length_cons]
      omega
    rw [renderRange_literal hlength htag, putc_eq hout, andThen_zero, ih, List.append_assoc]
    · rfl
    · intro a b hab hb
      refine h (c :: a) b ?_ hb
      rw [hab, List.cons_append]

theorem renderItems_eq {body : Frames → List UInt8 → Result} {text : Frames → List UInt8}
    (hbody : ∀ frames written, body frames written = (0, written ++ text frames))
    (items : List Value) :
    renderItems body frames items written =
      (0, written ++ (items.map some).flatMap fun value => text (value :: frames)) := by
  induction items generalizing written with
  | nil => rw [renderItems, List.map_nil, List.flatMap_nil, List.append_nil]
  | cons item items ih =>
    rw [renderItems, hbody, andThen_zero, ih, List.map_cons, List.flatMap_cons, List.append_assoc]

theorem renderSection_eq {body : Frames → List UInt8 → Result} {text : Frames → List UInt8}
    (hbody : ∀ frames written, body frames written = (0, written ++ text frames))
    (value : Option Value) (inverted : Bool) :
    renderSection body value inverted frames written =
      (0, written ++ (pushed inverted value).flatMap fun value => text (value :: frames)) := by
  have hnone : ((0 : Int), written) =
      (0, written ++ ([] : List (Option Value)).flatMap fun value => text (value :: frames)) := by
    rw [List.flatMap_nil, List.append_nil]
  have hone : ∀ value, body (value :: frames) written =
      (0, written ++ [value].flatMap fun value => text (value :: frames)) := by
    intro value
    rw [hbody, List.flatMap_singleton]
  unfold renderSection pushed
  cases inverted with
  | true =>
    cases truthy value with
    | true => exact hnone
    | false => exact hone value
  | false =>
    cases truthy value with
    | false => exact hnone
    | true =>
      match value with
      | some (.list items) => exact renderItems_eq hbody items
      | none => exact hone _
      | some .null => exact hone _
      | some (.bool b) => exact hone _
      | some (.int i) => exact hone _
      | some (.string s) => exact hone _
      | some (.map pairs) => exact hone _

theorem length_lt_tag (inner : List UInt8) (hstop : stop ≤ q.length) :
    stop < (tag inner ++ q).length := by
  rw [tag_append]
  simp only [List.length_cons, List.length_append]
  omega

/-- The text of a tree is rendered as the meaning of the tree, whatever stands behind the range. -/
theorem renderRange_print (hout : NeverFails out) {closing : Bool} {t : Tree}
    (h : t.Readable closing) (hq : q.getD 0 0 = lbrace → closing = true) :
    renderRange out q.length frames (t.print ++ q) written =
      (0, written ++ t.denote resolve frames) := by
  induction t generalizing closing frames q written with
  | nil => exact (renderRange_of_le (le_refl _)).trans (by rw [Tree.denote, List.append_nil])
  | literal text rest ih =>
    obtain ⟨-, ⟨hpair, hlast⟩, hrest⟩ := h
    have hstop : q.length ≤ (rest.print ++ q).length := by simp
    rw [Tree.print, List.append_assoc,
      renderRange_text hout hstop fun a b hab hb => not_opens hq hpair hlast hab hb,
      ih hrest hq, List.append_assoc]
    rfl
  | escaped name rest ih =>
    obtain ⟨hname, hrest⟩ := h
    have hstop : q.length ≤ (rest.print ++ q).length := by simp
    rw [Tree.print, List.append_assoc,
      renderRange_var (length_lt_tag name hstop) (readTag_escaped hname hstop), emitValue_eq hout,
      andThen_zero, ih hrest hq, List.append_assoc, lookup_eq]
    rfl
  | raw name rest ih =>
    obtain ⟨hname, hrest⟩ := h
    have hstop : q.length ≤ (rest.print ++ q).length := by simp
    rw [Tree.print, List.append_assoc,
      renderRange_var (length_lt_tag _ hstop) (readTag_raw hname hstop), emitValue_eq hout,
      andThen_zero, ih hrest hq, List.append_assoc, lookup_eq]
    rfl
  | comment text rest ih =>
    obtain ⟨-, ⟨hpair, hlast⟩, hrest⟩ := h
    have hstop : q.length ≤ (rest.print ++ q).length := by simp
    rw [Tree.print, List.append_assoc,
      renderRange_skip (length_lt_tag _ hstop) (readTag_comment hpair hlast hstop), ih hrest hq]
    rfl
  | sect inverted name body rest ihbody ihrest =>
    obtain ⟨hname, hbody, hrest⟩ := h
    have hstop : q.length ≤ (rest.print ++ q).length := by simp
    have hstop' : q.length ≤ (body.print ++ (tag ('/'.toUInt8 :: name) ++ (rest.print ++ q))).length := by
      simp only [List.length_append] at hstop ⊢
      omega
    have hrange : ∀ frames written,
        renderRange out (tag ('/'.toUInt8 :: name) ++ (rest.print ++ q)).length frames
          (body.print ++ (tag ('/'.toUInt8 :: name) ++ (rest.print ++ q))) written =
            (0, written ++ body.denote resolve frames) :=
      fun frames written => ihbody hbody fun _ => rfl
    rw [Tree.print, List.append_assoc, List.append_assoc, List.append_assoc,
      renderRange_sect (length_lt_tag _ hstop') (readTag_sect inverted hname hstop')
        (findSectionEnd_body hbody hname),
      renderSection_eq hrange, andThen_zero, skipTag_closing hname hstop, ihrest hrest hq,
      List.append_assoc, lookup_eq]
    rfl

theorem NameOk.not_mem_zero {name : List UInt8} (hname : NameOk name) : 0 ∉ name :=
  fun hmem => (hname.2.1 0 hmem).1 rfl

theorem zero_not_mem_tag {inner : List UInt8} (h : 0 ∉ inner) : 0 ∉ tag inner := by
  intro hmem
  simp only [tag, List.mem_cons, List.mem_append, List.not_mem_nil, or_false] at hmem
  rcases hmem with hmem | hmem | hmem | hmem | hmem
  · exact absurd hmem (by decide)
  · exact absurd hmem (by decide)
  · exact h hmem
  · exact absurd hmem (by decide)
  · exact absurd hmem (by decide)

/-- The text of a tree is a C string. -/
theorem zero_not_mem_print {closing : Bool} {t : Tree} (h : t.Readable closing) : 0 ∉ t.print := by
  induction t generalizing closing with
  | nil => exact List.not_mem_nil
  | literal text rest ih => exact List.not_mem_append h.1 (ih h.2.2)
  | escaped name rest ih => exact List.not_mem_append (zero_not_mem_tag h.1.not_mem_zero) (ih h.2)
  | raw name rest ih =>
    have hinner : 0 ∉ lbrace :: (name ++ [rbrace]) :=
      List.not_mem_cons_of_ne_of_not_mem (by decide)
        (List.not_mem_append h.1.not_mem_zero (by decide))
    exact List.not_mem_append (zero_not_mem_tag hinner) (ih h.2)
  | comment text rest ih =>
    have hinner : 0 ∉ '!'.toUInt8 :: text := List.not_mem_cons_of_ne_of_not_mem (by decide) h.1
    exact List.not_mem_append (zero_not_mem_tag hinner) (ih h.2.2)
  | sect inverted name body rest ihbody ihrest =>
    have hopening : 0 ∉ sectChar inverted :: name :=
      List.not_mem_cons_of_ne_of_not_mem (by cases inverted <;> decide) h.1.not_mem_zero
    have hclosing : 0 ∉ '/'.toUInt8 :: name :=
      List.not_mem_cons_of_ne_of_not_mem (by decide) h.1.not_mem_zero
    exact List.not_mem_append (zero_not_mem_tag hopening)
      (List.not_mem_append (ihbody h.2.1)
        (List.not_mem_append (zero_not_mem_tag hclosing) (ihrest h.2.2)))

theorem tmplRender_of_readable (hout : NeverFails out) {t : Tree} (h : t.Readable false)
    (root : Option Value) :
    tmplRender (some out) (some t.print) root = (0, t.denote resolve [root]) := by
  have htext : cString t.print = t.print ++ [] := by
    rw [List.append_nil, cString_of_not_mem (zero_not_mem_print h)]
  show renderRange out 0 [root] (cString t.print) [] = _
  rw [htext]
  exact @renderRange_print out [root] [] [] hout false t h fun hlbrace => absurd hlbrace (by decide)

/-- **The renderer gives the meaning of a template.** The text of a readable template is rendered as
its meaning, and the return code is zero. -/
theorem tmplRender_print (hout : NeverFails out) {t : Tree} (h : t.Readable false) (root : Value) :
    tmplRender (some out) (some t.print) (some root) = (0, t.denote resolve [some root]) :=
  tmplRender_of_readable hout h (some root)

end

/-- A section over a list inside of a section of the same name, with a comment and a variable. -/
theorem tmplRender_print_sample :
    tmplRender (some fun _ _ => 0)
        (some (Tree.sect false (ascii "a") (.comment (ascii "x") (.sect false (ascii "a")
          (.escaped (ascii ".") .nil) .nil)) .nil).print)
        (some (.map [(ascii "a", .list [.string (ascii "<"), .bool true])])) =
      (0, ascii "&lt;true&lt;true") :=
  (tmplRender_print (fun _ _ => le_refl 0) (by decide) _).trans (by decide)

/-- A comment that ends in a closing brace, two literals whose braces make a tag, and the name that
is a single dot. -/
theorem tmplRender_plain_differs :
    ((Tree.comment (ascii "x\x7d") .nil).Plain ∧
      tmplRender (some fun _ _ => 0) (some (Tree.comment (ascii "x\x7d") .nil).print) (some .null) ≠
        (0, (Tree.comment (ascii "x\x7d") .nil).denote resolveDotted [some .null])) ∧
    ((Tree.literal (ascii "\x7b") (.literal (ascii "\x7b") .nil)).Plain ∧
      tmplRender (some fun _ _ => 0)
          (some (Tree.literal (ascii "\x7b") (.literal (ascii "\x7b") .nil)).print) (some .null) ≠
        (0, (Tree.literal (ascii "\x7b") (.literal (ascii "\x7b") .nil)).denote resolveDotted
          [some .null])) ∧
    ((Tree.escaped (ascii ".") .nil).Plain ∧
      tmplRender (some fun _ _ => 0) (some (Tree.escaped (ascii ".") .nil).print)
          (some (.string (ascii "x"))) ≠
        (0, (Tree.escaped (ascii ".") .nil).denote resolveDotted [some (.string (ascii "x"))])) := by
  have hout : NeverFails fun _ _ => 0 := fun _ _ => le_refl 0
  refine ⟨⟨?_, ?_⟩, ⟨?_, ?_⟩, ⟨?_, ?_⟩⟩
  · decide
  · -- the text is that of another comment with a literal behind it
    have hother : (Tree.comment (ascii "x") (.literal (ascii "\x7d") .nil)).Readable false := by decide
    have hrender := tmplRender_of_readable hout hother (some .null)
    have htext : (Tree.comment (ascii "x\x7d") .nil).print =
        (Tree.comment (ascii "x") (.literal (ascii "\x7d") .nil)).print := by decide
    rw [htext, hrender]
    decide
  · decide
  · have htag : readTag 0 (cString (ascii "\x7b\x7b")) = .cut := by rfl
    have hrender : tmplRender (some fun _ _ => 0) (some (ascii "\x7b\x7b")) (some .null) = (0, []) :=
      renderRange_cut (by decide) htag
    have htext : (Tree.literal (ascii "\x7b") (.literal (ascii "\x7b") .nil)).print =
        ascii "\x7b\x7b" := by decide
    rw [htext, hrender]
    decide
  · decide
  · have hdot : (Tree.escaped (ascii ".") .nil).Readable false := by decide
    rw [tmplRender_of_readable hout hdot]
    decide

end Onak.Template
