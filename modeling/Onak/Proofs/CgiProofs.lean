import Onak.Cgi
import Onak.Proofs.ConfigRoundTripProofs
import Onak.Proofs.UrlProofs

/-!
# Proofs: CGI parameters

However a browser writes the fields of a form, `getcgivars` reads them back: all plusses become spaces
first, and what is left of a field holds no ampersand and no equals sign.
-/

namespace Onak.Cgi

open Print

/-! ## Forms -/

open Conf (hexValue)

/-- How an octet may be written in a form. -/
inductive FormOctet (c : UInt8) : List UInt8 → Prop
  | keep : c ≠ 0 → c ≠ '%'.toUInt8 → c ≠ '+'.toUInt8 → c ≠ '&'.toUInt8 → c ≠ '='.toUInt8 →
      FormOctet c [c]
  | space : c = ' '.toUInt8 → FormOctet c ['+'.toUInt8]
  | escape {h l : UInt8} {high low : Nat} : c ≠ 0 → hexValue h = some high → hexValue l = some low →
      c.toNat = 16 * high + low → FormOctet c ['%'.toUInt8, h, l]

/-- How a text may be written in a form: octet by octet. -/
def FormText (text written : List UInt8) : Prop :=
  ∃ pieces, List.Forall₂ FormOctet text pieces ∧ written = pieces.flatten

/-- How a name and its value may be written. -/
def FormPair (pair : List UInt8 × List UInt8) (written : List UInt8) : Prop :=
  ∃ name value, FormText pair.1 name ∧ FormText pair.2 value ∧
    written = name ++ '='.toUInt8 :: value

/-- How a form may be written: its pairs with ampersands between them. -/
def FormOf (pairs : List (List UInt8 × List UInt8)) (written : List UInt8) : Prop :=
  ∃ pieces, List.Forall₂ FormPair pairs pieces ∧ written = ['&'.toUInt8].intercalate pieces

/-- A request that brings a text: in its query, or as the start of its body. -/
inductive Brings (env : Environment) (text : List UInt8) : Prop
  | query : (env.requestMethod = some (ascii "GET") ∨ env.requestMethod = some (ascii "HEAD")) →
      env.queryString = some text → Brings env text
  | body : env.requestMethod = some (ascii "POST") →
      (∀ type ∈ env.contentType,
        Conf.strcaseeq type (ascii "application/x-www-form-urlencoded") = true) →
      env.contentLength = some (decimal text.length) → text ≠ [] → text <+: env.stdin →
      Brings env text

/-! ## Fields -/

theorem hexValue_plain {c : UInt8} {n : Nat} (h : hexValue c = some n) :
    c ≠ 0 ∧ c ≠ '+'.toUInt8 ∧ c ≠ '&'.toUInt8 ∧ c ≠ '='.toUInt8 := by
  refine ⟨?_, ?_, ?_, ?_⟩
  all_goals
    rintro rfl
    cases h

theorem plusToSpace_singleton {c : UInt8} (h : c ≠ '+'.toUInt8) : plusToSpace [c] = [c] := by
  rw [plusToSpace, List.map_singleton, if_neg h]

theorem plusToSpace_append (s t : List UInt8) :
    plusToSpace (s ++ t) = plusToSpace s ++ plusToSpace t := List.map_append

/-- No octet ends a string or a field. -/
def Inner (s : List UInt8) : Prop := ∀ c ∈ s, c ≠ 0 ∧ c ≠ '&'.toUInt8 ∧ c ≠ '='.toUInt8

/-- What an octet of a form is once the plusses are spaces. -/
theorem FormOctet.plain {c : UInt8} {written : List UInt8} (h : FormOctet c written) :
    Inner (plusToSpace written) ∧
      ∀ rest, unescapeLoop (plusToSpace written ++ rest) = (unescapeLoop rest).map (c :: ·) := by
  cases h with
  | keep h0 hpercent hplus hamp heq =>
    rw [plusToSpace_singleton hplus]
    refine ⟨?_, fun rest => Url.unescapeLoop_keep hpercent rest⟩
    intro d hd
    rw [List.mem_singleton.mp hd]
    exact ⟨h0, hamp, heq⟩
  | space hspace =>
    have hwritten : plusToSpace ['+'.toUInt8] = [' '.toUInt8] := rfl
    rw [hwritten, hspace]
    refine ⟨?_, fun rest => Url.unescapeLoop_keep (by decide) rest⟩
    intro d hd
    rw [List.mem_singleton.mp hd]
    decide
  | @escape h l high low h0 hhigh hlow hc =>
    obtain ⟨hh0, hhplus, hhamp, hheq⟩ := hexValue_plain hhigh
    obtain ⟨hl0, hlplus, hlamp, hleq⟩ := hexValue_plain hlow
    have hwritten : plusToSpace ['%'.toUInt8, h, l] = ['%'.toUInt8, h, l] := by
      simp only [plusToSpace, List.map_cons, List.map_nil, if_neg hhplus, if_neg hlplus]
      rfl
    have hx2c : x2c h l = c :=
      UInt8.toNat_inj.mp ((Url.denotes_x2c h l high low hhigh hlow).trans hc.symm)
    rw [hwritten]
    refine ⟨?_, ?_⟩
    · intro d hd
      simp only [List.mem_cons, List.not_mem_nil, or_false] at hd
      rcases hd with rfl | rfl | rfl
      · decide
      · exact ⟨hh0, hhamp, hheq⟩
      · exact ⟨hl0, hlamp, hleq⟩
    · intro rest
      rw [← hx2c]
      exact Url.unescapeLoop_escape h l rest

theorem FormOctet.ne_zero {c : UInt8} {written : List UInt8} (h : FormOctet c written) : c ≠ 0 := by
  cases h with
  | keep h0 => exact h0
  | space hspace =>
    rw [hspace]
    decide
  | escape h0 => exact h0

theorem FormText.plain {text written : List UInt8} (h : FormText text written) :
    Inner (plusToSpace written) ∧ unescapeLoop (plusToSpace written) = some text ∧ 0 ∉ text := by
  obtain ⟨pieces, hpieces, rfl⟩ := h
  induction hpieces with
  | nil => exact ⟨by simp [Inner, plusToSpace], rfl, List.not_mem_nil⟩
  | @cons c piece text pieces hc _ ih =>
    obtain ⟨hinner, hloop, h0⟩ := ih
    obtain ⟨hcinner, hcloop⟩ := hc.plain
    rw [List.flatten_cons, plusToSpace_append]
    refine ⟨?_, by rw [hcloop, hloop, Option.map_some], ?_⟩
    · intro d hd
      rcases List.mem_append.mp hd with hd | hd
      · exact hcinner d hd
      · exact hinner d hd
    · intro hmem
      rcases List.mem_cons.mp hmem with heq | hmem
      · exact hc.ne_zero heq.symm
      · exact h0 hmem

/-- A field is read back. -/
theorem FormText.unescaped {text written : List UInt8} (h : FormText text written)
    (hlen : written.length < 2 ^ 31) : unescaped (plusToSpace written) = some text := by
  obtain ⟨hinner, hloop, h0⟩ := h.plain
  have hzero : 0 ∉ plusToSpace written := fun hmem => (hinner 0 hmem).1 rfl
  have hlen' : (plusToSpace written).length < 2 ^ 31 := by
    rwa [plusToSpace, List.length_map]
  have hchars : unescapeUrl (plusToSpace written) = some text := by
    rw [unescapeUrl, cString_of_not_mem hzero, hloop]
  rw [Cgi.unescaped, Url.unescapeUrl_eq hzero hlen', hchars, Option.map_some, Option.map_some,
    cString_terminated h0]

/-- An octet that stands for itself. -/
def Kept (c : UInt8) : Prop :=
  c ≠ 0 ∧ c ≠ '%'.toUInt8 ∧ c ≠ '+'.toUInt8 ∧ c ≠ '&'.toUInt8 ∧ c ≠ '='.toUInt8

instance (c : UInt8) : Decidable (Kept c) := inferInstanceAs (Decidable (_ ∧ _))

/-- The words of the forms stand for themselves. -/
theorem kept_names : ∀ name ∈ ["op", "get", "search", "keytext", "0x"], ∀ c ∈ ascii name, Kept c := by
  set_option maxRecDepth 4000 in decide

/-- A text may be written as it is when each of its octets stands for itself. -/
theorem FormText.self {text : List UInt8} (h : ∀ c ∈ text, Kept c) : FormText text text := by
  refine ⟨text.map fun c => [c], ?_, by rw [← List.flatMap_def, List.flatMap_singleton']⟩
  rw [List.forall₂_map_right_iff, List.forall₂_same]
  intro c hc
  obtain ⟨h0, hpercent, hplus, hamp, heq⟩ := h c hc
  exact .keep h0 hpercent hplus hamp heq

/-! ## Pairs -/

theorem readPair_append {name value : List UInt8} (hname : '='.toUInt8 ∉ name) :
    readPair (name ++ '='.toUInt8 :: value) =
      (unescaped value).bind fun v => (unescaped name).bind fun n => some (n, v) := by
  have hall : ∀ c ∈ name, decide (c ≠ '='.toUInt8) = true := by
    intro c hc
    apply decide_eq_true
    rintro rfl
    exact hname hc
  have htake : (name ++ '='.toUInt8 :: value).takeWhile (· ≠ '='.toUInt8) = name := by
    rw [List.takeWhile_append_of_pos hall, List.takeWhile_cons_of_neg (by decide), List.append_nil]
  have hdrop : (name ++ '='.toUInt8 :: value).dropWhile (· ≠ '='.toUInt8) =
      '='.toUInt8 :: value := by
    rw [List.dropWhile_append_of_pos hall, List.dropWhile_cons_of_neg (by decide)]
  rw [readPair, htake, hdrop]
  rfl

theorem FormPair.readPair {pair : List UInt8 × List UInt8} {written : List UInt8}
    (h : FormPair pair written) (hlen : written.length < 2 ^ 31) :
    readPair (plusToSpace written) = some pair ∧ '&'.toUInt8 ∉ plusToSpace written ∧
      plusToSpace written ≠ [] := by
  obtain ⟨name, value, hname, hvalue, rfl⟩ := h
  rw [List.length_append, List.length_cons] at hlen
  have hwritten : plusToSpace (name ++ '='.toUInt8 :: value) =
      plusToSpace name ++ '='.toUInt8 :: plusToSpace value := by
    rw [plusToSpace_append]
    rfl
  obtain ⟨hninner, -, -⟩ := hname.plain
  obtain ⟨hvinner, -, -⟩ := hvalue.plain
  rw [hwritten]
  refine ⟨?_, ?_, by simp⟩
  · rw [readPair_append fun hmem => (hninner _ hmem).2.2 rfl, hvalue.unescaped (by omega),
      hname.unescaped (by omega)]
    rfl
  · intro hmem
    rcases List.mem_append.mp hmem with hmem | hmem
    · exact (hninner _ hmem).2.1 rfl
    · rcases List.mem_cons.mp hmem with heq | hmem
      · exact absurd heq (by decide)
      · exact (hvinner _ hmem).2.1 rfl

/-! ## The list of pairs -/

/-- There is room for one more pointer, and for a multiple of 256 of them. -/
def PairList.Roomy (pairlist : PairList) : Prop :=
  pairlist.pairs.length < pairlist.size ∧ 256 ∣ pairlist.size

theorem PairList.Roomy.add {pairlist : PairList} (h : pairlist.Roomy) (nvpair : List UInt8) :
    ∃ next, pairlist.add nvpair = some next ∧ next.pairs = pairlist.pairs ++ [nvpair] ∧
      next.Roomy := by
  obtain ⟨hroom, hdvd⟩ := h
  refine ⟨_, Url.guard_then hroom _, rfl, ?_⟩
  simp only [PairList.Roomy, List.length_append, List.length_singleton]
  split_ifs with hgrow <;> omega

/-- Neither a pair nor the end of the list is ever written behind the array. -/
theorem readPairs_eq (cgiinput : List UInt8) : readPairs cgiinput = some (strtok cgiinput) := by
  have hfold : ∀ (tokens : List (List UInt8)) (pairlist : PairList), pairlist.Roomy →
      ∃ last, tokens.foldlM PairList.add pairlist = some last ∧
        last.pairs = pairlist.pairs ++ tokens ∧ last.Roomy := by
    intro tokens
    induction tokens with
    | nil => exact fun pairlist h => ⟨pairlist, rfl, (List.append_nil _).symm, h⟩
    | cons nvpair tokens ih =>
      intro pairlist h
      obtain ⟨next, hadd, hpairs, hnext⟩ := h.add nvpair
      obtain ⟨last, hlast, hall, hroomy⟩ := ih next hnext
      refine ⟨last, ?_, ?_, hroomy⟩
      · rw [List.foldlM_cons, hadd]
        exact hlast
      · rw [hall, hpairs, List.append_assoc, List.singleton_append]
  obtain ⟨last, hlast, hpairs, hroomy⟩ :=
    hfold (strtok cgiinput) { pairs := [], size := 256 } ⟨by decide, by decide⟩
  rw [readPairs, hlast]
  have hend : last.pairs = strtok cgiinput := hpairs
  exact (Url.guard_then hroomy.1 _).trans (congrArg some hend)

/-! ## Forms -/

theorem plusToSpace_intercalate (pieces : List (List UInt8)) :
    plusToSpace (['&'.toUInt8].intercalate pieces) =
      ['&'.toUInt8].intercalate (pieces.map plusToSpace) := by
  induction pieces with
  | nil => rfl
  | cons piece pieces ih =>
    cases pieces with
    | nil => simp
    | cons next pieces =>
      rw [List.intercalate_cons_cons, plusToSpace_append, plusToSpace_append, ih]
      simp only [List.map_cons, List.intercalate_cons_cons]
      rfl

theorem length_le_intercalate {piece : List UInt8} {pieces : List (List UInt8)} (h : piece ∈ pieces) :
    piece.length ≤ (['&'.toUInt8].intercalate pieces).length := by
  induction pieces with
  | nil => cases h
  | cons first pieces ih =>
    cases pieces with
    | nil =>
      rw [List.mem_singleton.mp h]
      simp
    | cons next pieces =>
      rw [List.intercalate_cons_cons, List.length_append, List.length_append]
      rcases List.mem_cons.mp h with rfl | h
      · omega
      · have hle := ih h
        omega

/-- The tokens of a form are its pairs. -/
theorem strtok_intercalate {pieces : List (List UInt8)}
    (hpieces : ∀ piece ∈ pieces, '&'.toUInt8 ∉ piece ∧ piece ≠ []) :
    strtok (['&'.toUInt8].intercalate pieces) = pieces := by
  rcases List.eq_nil_or_concat pieces with rfl | hne
  · rfl
  · have hne : pieces ≠ [] := by
      obtain ⟨front, last, rfl⟩ := hne
      simp
    rw [strtok, List.splitOn_intercalate '&'.toUInt8 (fun piece hmem => (hpieces piece hmem).1) hne,
      List.filter_eq_self]
    exact fun piece hmem => decide_eq_true (hpieces piece hmem).2

/-- The pairs are read back one after the other. -/
theorem FormPair.mapM {pairs : List (List UInt8 × List UInt8)} {pieces : List (List UInt8)}
    (h : List.Forall₂ FormPair pairs pieces) (hshort : ∀ piece ∈ pieces, piece.length < 2 ^ 31) :
    (pieces.map plusToSpace).mapM Cgi.readPair = some pairs ∧
      ∀ token ∈ pieces.map plusToSpace, '&'.toUInt8 ∉ token ∧ token ≠ [] := by
  induction h with
  | nil => exact ⟨rfl, fun token hmem => absurd hmem List.not_mem_nil⟩
  | @cons pair piece pairs pieces hpair _ ih =>
    obtain ⟨hread, htoken⟩ := hpair.readPair (hshort piece (List.mem_cons_self ..))
    obtain ⟨hrest, htokens⟩ := ih fun other hmem => hshort other (List.mem_cons_of_mem _ hmem)
    rw [List.map_cons]
    refine ⟨?_, ?_⟩
    · rw [List.mapM_cons, hread, hrest]
      rfl
    · intro token hmem
      rcases List.mem_cons.mp hmem with rfl | hmem
      · exact htoken
      · exact htokens token hmem

/-- The pairs of a form are read back. -/
theorem splitInput_form {pairs : List (List UInt8 × List UInt8)} {form : List UInt8}
    (h : FormOf pairs form) (hlen : form.length < 2 ^ 31) : splitInput form = some pairs := by
  obtain ⟨pieces, hpieces, rfl⟩ := h
  obtain ⟨hread, htokens⟩ := FormPair.mapM hpieces fun piece hmem =>
    lt_of_le_of_lt (length_le_intercalate hmem) hlen
  rw [splitInput, plusToSpace_intercalate, readPairs_eq, strtok_intercalate htokens]
  exact hread

/-! ## Requests -/

theorem zero_mem_plusToSpace {s : List UInt8} (h : 0 ∈ s) : 0 ∈ plusToSpace s :=
  List.mem_map.mpr ⟨0, h, rfl⟩

theorem FormText.zero_notMem {text written : List UInt8} (h : FormText text written) :
    0 ∉ written := fun hmem => (h.plain.1 0 (zero_mem_plusToSpace hmem)).1 rfl

theorem FormPair.zero_notMem {pair : List UInt8 × List UInt8} {written : List UInt8}
    (h : FormPair pair written) : 0 ∉ written := by
  obtain ⟨name, value, hname, hvalue, rfl⟩ := h
  intro hmem
  rcases List.mem_append.mp hmem with hmem | hmem
  · exact hname.zero_notMem hmem
  · rcases List.mem_cons.mp hmem with heq | hmem
    · exact absurd heq (by decide)
    · exact hvalue.zero_notMem hmem

/-- A form is a string. -/
theorem FormOf.zero_notMem {pairs : List (List UInt8 × List UInt8)} {form : List UInt8}
    (h : FormOf pairs form) : 0 ∉ form := by
  obtain ⟨pieces, hpieces, rfl⟩ := h
  induction hpieces with
  | nil => exact List.not_mem_nil
  | @cons pair piece pairs pieces hpair _ ih =>
    cases pieces with
    | nil =>
      rw [List.intercalate_singleton]
      exact hpair.zero_notMem
    | cons next pieces =>
      rw [List.intercalate_cons_cons]
      intro hmem
      rcases List.mem_append.mp hmem with hmem | hmem
      · rcases List.mem_append.mp hmem with hmem | hmem
        · exact hpair.zero_notMem hmem
        · exact absurd hmem (by decide)
      · exact ih hmem

/-- The text that the request brings is read. -/
theorem Brings.readInput {env : Environment} {text : List UInt8} (h : Brings env text)
    (hzero : 0 ∉ text) (hlen : text.length < 2 ^ 31 - 1) :
    readInput env = some (.text text) := by
  cases h with
  | query hmethod hquery =>
    rcases hmethod with hmethod | hmethod
    all_goals
      rw [Cgi.readInput, hmethod]
      simp only [hquery]
      rfl
  | body hmethod htype hlength hne hstdin =>
    obtain ⟨rest, hrest⟩ := hstdin
    have hpos : 0 < text.length := List.length_pos_of_ne_nil hne
    have hatoi : Conf.atoi (decimal text.length) = text.length :=
      Conf.atoi_int (i := text.length) ⟨by omega, by omega⟩
    have htype' : ¬ (env.contentType.map fun type =>
        Conf.strcaseeq type (ascii "application/x-www-form-urlencoded")) = some false := by
      intro hmap
      obtain ⟨type, hsome, hfalse⟩ := Option.map_eq_some_iff.mp hmap
      rw [htype type hsome] at hfalse
      cases hfalse
    have hread : readPost env = some (.text text) := by
      rw [readPost, if_neg htype', hlength]
      simp only [hatoi]
      rw [if_neg (by omega), if_neg (by omega), if_neg (by omega), Int.toNat_natCast, ← hrest,
        List.length_append, if_neg (by omega), List.take_left, cString_of_not_mem hzero]
      exact Url.guard_then (by omega) _
    rw [Cgi.readInput, hmethod]
    exact hread

theorem Brings.getcgivars {env : Environment} {text : List UInt8} (h : Brings env text)
    (hzero : 0 ∉ text) (hlen : text.length < 2 ^ 31 - 1) :
    getcgivars env = (splitInput text).map .list := by
  rw [Cgi.getcgivars, h.readInput hzero hlen]
  cases hsplit : splitInput text with
  | none => simp [hsplit]
  | some pairs => simp [hsplit]

/-- **Forms are read back.** However the fields of a form are written, and whichever request brings
it (a body is not empty), `getcgivars` returns them, as long as its length and the zero behind it are an
`int`. -/
theorem getcgivars_form {env : Environment} {pairs : List (List UInt8 × List UInt8)}
    {form : List UInt8} (hbrings : Brings env form) (hform : FormOf pairs form)
    (hlen : form.length < 2 ^ 31 - 1) : getcgivars env = some (.list pairs) := by
  rw [hbrings.getcgivars hform.zero_notMem hlen, splitInput_form hform (by omega)]
  rfl

/-- A search for a user, in a body with more behind it. -/
theorem getcgivars_form_search :
    getcgivars
      { argument := none
        requestMethod := some (ascii "POST")
        queryString := none
        contentType := none
        contentLength := some (ascii "22")
        stdin := ascii "op=get&search=a+%3c%26 and more" } =
      some (.list [(ascii "op", ascii "get"), (ascii "search", ascii "a <&")]) := by
  have hop : FormPair (ascii "op", ascii "get") (ascii "op=get") :=
    ⟨ascii "op", ascii "get", .self (kept_names "op" (by simp)), .self (kept_names "get" (by simp)), by decide⟩
  have hsearch : FormPair (ascii "search", ascii "a <&") (ascii "search=a+%3c%26") := by
    refine ⟨ascii "search", ascii "a+%3c%26", .self (kept_names "search" (by simp)),
      ⟨[ascii "a", ascii "+", ascii "%3c", ascii "%26"], ?_, by decide⟩, by decide⟩
    have hless : FormOctet '<'.toUInt8 (ascii "%3c") :=
      .escape (by decide) (by decide : hexValue '3'.toUInt8 = some 3)
        (by decide : hexValue 'c'.toUInt8 = some 12) (by decide)
    have hamp : FormOctet '&'.toUInt8 (ascii "%26") :=
      .escape (by decide) (by decide : hexValue '2'.toUInt8 = some 2)
        (by decide : hexValue '6'.toUInt8 = some 6) (by decide)
    exact .cons (.keep (by decide) (by decide) (by decide) (by decide) (by decide))
      (.cons (.space rfl) (.cons hless (.cons hamp .nil)))
  have hform : FormOf [(ascii "op", ascii "get"), (ascii "search", ascii "a <&")]
      (ascii "op=get&search=a+%3c%26") := ⟨_, .cons hop (.cons hsearch .nil), by decide⟩
  exact getcgivars_form
    (.body rfl (fun type h => absurd h (by simp)) (by decide) (by decide)
      ⟨ascii " and more", by decide⟩) hform (by decide)

end Onak.Cgi
