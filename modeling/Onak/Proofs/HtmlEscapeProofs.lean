import Onak.KeyListing
import Onak.Proofs.TemplateProofs

/-!
# Proofs: escaping into a buffer

As long as everything fits, `html_escape` writes the escapes of one character after the other. An
entity that does not fit is left out, but the position it would start at is passed over: what was there
before stays in the text, and shorter characters are written behind it.
-/

namespace Onak

open Print Template

/-! ## Buffers -/

theorem store_eq_some (dst octets : List UInt8) (pos : Nat) (h : pos + octets.length ≤ dst.length) :
    ∃ dst', store dst pos octets = some dst' ∧ dst'.length = dst.length ∧
      dst'.take (pos + octets.length) = dst.take pos ++ octets ∧
      dst'.drop (pos + octets.length) = dst.drop (pos + octets.length) := by
  have hlen : (dst.take pos ++ octets).length = pos + octets.length := by
    rw [List.length_append, List.length_take]
    omega
  refine ⟨_, if_pos h, ?_, List.take_left' hlen, List.drop_left' hlen⟩
  rw [List.length_append, hlen, List.length_drop]
  omega

theorem take_of_take_eq {dst dst' : List UInt8} {out out' : Nat} (hle : out ≤ out')
    (h : dst'.take out' = dst.take out') : dst'.take out = dst.take out := by
  have htake := congrArg (List.take out) h
  rwa [List.take_take, List.take_take, Nat.min_eq_left hle] at htake

/-- A text ends in front of the first NUL. -/
theorem cString_append {text behind : List UInt8} (h : 0 ∉ text) :
    cString (text ++ behind) = text ++ cString behind := by
  unfold cString
  refine List.takeWhile_append_of_pos fun c hc => ?_
  rw [decide_eq_true_eq]
  rintro rfl
  exact h hc

/-! ## Entities -/

/-- The two functions look for the characters in another order. -/
theorem escape_eq (c : UInt8) : escape c = (htmlEntity c).getD [c] := by
  by_cases hamp : c = '&'.toUInt8
  · rw [hamp]
    rfl
  · unfold escape htmlEntity
    simp only [if_neg hamp]
    split_ifs <;> rfl

theorem escape_of_entity {c : UInt8} {entity : List UInt8} (h : htmlEntity c = some entity) :
    escape c = entity := by
  rw [escape_eq, h, Option.getD_some]

theorem escape_of_plain {c : UInt8} (h : htmlEntity c = none) : escape c = [c] := by
  rw [escape_eq, h, Option.getD_none]

theorem zero_not_mem_escape {c : UInt8} (hc : c ≠ 0) : 0 ∉ escape c := by
  unfold escape
  split_ifs
  · decide
  · decide
  · decide
  · decide
  · decide
  · simpa using hc.symm

theorem zero_not_mem_flatMap_escape {src : List UInt8} (h : 0 ∉ src) : 0 ∉ src.flatMap escape := by
  rw [List.mem_flatMap]
  rintro ⟨c, hc, hzero⟩
  exact zero_not_mem_escape (fun hc0 => h (hc0 ▸ hc)) hzero

/-! ## The loop -/

/-- A character is reached at each place only if its escape fits into what is left: all escapes fit, or
those of some first characters fill the room. -/
def EscapeFits (src : List UInt8) (room : Nat) : Prop :=
  (src.flatMap escape).length ≤ room ∨ ∃ pre, pre <+: src ∧ (pre.flatMap escape).length = room

theorem escapeFits_cons_iff {c : UInt8} {src : List UInt8} {room : Nat} (hroom : 0 < room) :
    EscapeFits (c :: src) room ↔
      (escape c).length ≤ room ∧ EscapeFits src (room - (escape c).length) := by
  unfold EscapeFits
  rw [List.flatMap_cons, List.length_append]
  constructor
  · rintro (hall | ⟨pre, hpre, hfull⟩)
    · exact ⟨by omega, .inl (by omega)⟩
    · cases pre with
      | nil =>
        simp only [List.flatMap_nil, List.length_nil] at hfull
        omega
      | cons d pre =>
        obtain ⟨rfl, hsrc⟩ := List.cons_prefix_cons.mp hpre
        rw [List.flatMap_cons, List.length_append] at hfull
        exact ⟨by omega, .inr ⟨pre, hsrc, by omega⟩⟩
  · rintro ⟨hfits, hall | ⟨pre, hpre, hfull⟩⟩
    · exact .inl (by omega)
    · refine .inr ⟨c :: pre, List.cons_prefix_cons.mpr ⟨rfl, hpre⟩, ?_⟩
      rw [List.flatMap_cons, List.length_append]
      omega

section

variable {room : Nat} {src dst : List UInt8} {out : Nat}

/-- A round of the loop on a buffer that has `room` octets but for two. -/
theorem htmlEscapeLoop_cons (c : UInt8) (src dst : List UInt8) (out : Nat) :
    htmlEscapeLoop (room + 1) (c :: src) out dst =
      if out < room then
        if out + (escape c).length ≤ room then
          (store dst out (escape c)).bind (htmlEscapeLoop (room + 1) src (out + (escape c).length))
        else
          htmlEscapeLoop (room + 1) src (out + 1) dst
      else
        some (out, dst) := by
  have hsize : sizeSub (room + 1) 1 = room := by
    unfold sizeSub
    rw [if_pos (by omega), Nat.add_sub_cancel]
  rw [htmlEscapeLoop, hsize]
  by_cases hroom : out < room
  · rw [if_pos hroom, if_pos hroom]
    cases hentity : htmlEntity c with
    | none =>
      have hescape := escape_of_plain hentity
      rw [hescape, List.length_singleton, if_pos (by omega)]
      rfl
    | some entity =>
      have hescape := escape_of_entity hentity
      rw [hescape]
      simp only
      by_cases hfits : room + 1 ≤ out + entity.length
      · rw [if_pos hfits, if_neg (by omega)]
      · rw [if_neg hfits, if_pos (by omega)]
        rfl
  · rw [if_neg hroom, if_neg hroom]

/-- The loop stays inside the room, and writes only from its position on. -/
theorem htmlEscapeLoop_inside (src : List UInt8) (hdst : dst.length = room + 2) (hout : out ≤ room) :
    ∃ out' dst', htmlEscapeLoop (room + 1) src out dst = some (out', dst') ∧ out ≤ out' ∧
      out' ≤ room ∧ dst'.length = room + 2 ∧ dst'.take out = dst.take out := by
  induction src generalizing out dst with
  | nil => exact ⟨out, dst, rfl, le_refl _, hout, hdst, rfl⟩
  | cons c src ih =>
    rw [htmlEscapeLoop_cons]
    split_ifs with hroom hfits
    · obtain ⟨dst₁, hstore, hlen, htake, -⟩ :=
        store_eq_some dst (escape c) out (by omega)
      rw [hstore]
      obtain ⟨out', dst', hloop, hle, hle', hlen', htake'⟩ := ih (hlen.trans hdst) hfits
      refine ⟨out', dst', hloop, by omega, hle', hlen', ?_⟩
      rw [take_of_take_eq (by omega) htake']
      have htake₁ := congrArg (List.take out) htake
      rwa [List.take_take, Nat.min_eq_left (by omega), List.take_append_of_le_length
        (by rw [List.length_take]; omega), List.take_take, Nat.min_self] at htake₁
    · obtain ⟨out', dst', hloop, hle, hle', hlen', htake'⟩ := ih hdst (show out + 1 ≤ room by omega)
      exact ⟨out', dst', hloop, by omega, hle', hlen', take_of_take_eq (by omega) htake'⟩
    · exact ⟨out, dst, rfl, le_refl _, hout, hdst, rfl⟩

/-- When everything fits, the loop writes the escapes of some first characters, always the same. -/
theorem htmlEscapeLoop_fits (out room : Nat) (hfits : EscapeFits src (room - out)) (hout : out ≤ room) :
    ∃ pre, pre <+: src ∧ out + (pre.flatMap escape).length ≤ room ∧
      (pre = src ∨ out + (pre.flatMap escape).length = room) ∧
      ∀ dst : List UInt8, dst.length = room + 2 → ∃ dst',
        htmlEscapeLoop (room + 1) src out dst = some (out + (pre.flatMap escape).length, dst') ∧
        dst'.length = room + 2 ∧
        dst'.take (out + (pre.flatMap escape).length) = dst.take out ++ pre.flatMap escape := by
  induction src generalizing out with
  | nil =>
    refine ⟨[], List.nil_prefix, hout, .inl rfl, fun dst hdst => ⟨dst, rfl, hdst, ?_⟩⟩
    simp
  | cons c src ih =>
    by_cases hroom : out < room
    · obtain ⟨hc, hsrc⟩ := (escapeFits_cons_iff (by omega)).mp hfits
      rw [Nat.sub_sub] at hsrc
      obtain ⟨pre, hpre, hle, hend, hrun⟩ := ih _ hsrc (by omega)
      have hlen : out + (escape c).length + (pre.flatMap escape).length =
          out + ((c :: pre).flatMap escape).length := by
        rw [List.flatMap_cons, List.length_append, Nat.add_assoc]
      rw [hlen] at hle hend hrun
      refine ⟨c :: pre, List.cons_prefix_cons.mpr ⟨rfl, hpre⟩, hle, ?_, fun dst hdst => ?_⟩
      · rcases hend with rfl | hend
        · exact .inl rfl
        · exact .inr hend
      · obtain ⟨dst₁, hstore, hlen₁, htake, -⟩ :=
          store_eq_some dst (escape c) out (by omega)
        obtain ⟨dst', hloop, hlen', htake'⟩ := hrun dst₁ (hlen₁.trans hdst)
        refine ⟨dst', ?_, hlen', ?_⟩
        · rw [htmlEscapeLoop_cons, if_pos hroom, if_pos (by omega), hstore, Option.bind_some, hloop]
        · rw [htake', htake, List.flatMap_cons, List.append_assoc]
    · refine ⟨[], List.nil_prefix, hout, .inr ?_, fun dst hdst => ⟨dst, ?_, hdst, ?_⟩⟩
      · simp only [List.flatMap_nil, List.length_nil]
        omega
      · rw [htmlEscapeLoop_cons, if_neg hroom]
        rfl
      · simp

/-- When something does not fit, there is a place in the text that keeps what was there before. -/
theorem htmlEscapeLoop_slot (out room : Nat) (hfits : ¬ EscapeFits src (room - out)) (hout : out ≤ room) :
    ∃ pre, pre <+: src ∧ out + (pre.flatMap escape).length < room ∧
      ∀ dst : List UInt8, dst.length = room + 2 → ∃ out' dst',
        htmlEscapeLoop (room + 1) src out dst = some (out', dst') ∧
        out + (pre.flatMap escape).length < out' ∧ out' ≤ room ∧ dst'.length = room + 2 ∧
        dst'.take (out + (pre.flatMap escape).length + 1) =
          dst.take out ++ pre.flatMap escape ++
            (dst.drop (out + (pre.flatMap escape).length)).take 1 := by
  induction src generalizing out with
  | nil => exact absurd (.inl (Nat.zero_le _)) hfits
  | cons c src ih =>
    have hroom : out < room := by
      by_contra hfull
      exact hfits (.inr ⟨[], List.nil_prefix, by
        simp only [List.flatMap_nil, List.length_nil]
        omega⟩)
    rw [escapeFits_cons_iff (by omega), not_and] at hfits
    by_cases hc : out + (escape c).length ≤ room
    · have hsrc := hfits (by omega)
      rw [Nat.sub_sub] at hsrc
      obtain ⟨pre, hpre, hlt, hrun⟩ := ih _ hsrc hc
      have hlen : out + (escape c).length + (pre.flatMap escape).length =
          out + ((c :: pre).flatMap escape).length := by
        rw [List.flatMap_cons, List.length_append, Nat.add_assoc]
      rw [hlen] at hlt hrun
      refine ⟨c :: pre, List.cons_prefix_cons.mpr ⟨rfl, hpre⟩, hlt, fun dst hdst => ?_⟩
      obtain ⟨dst₁, hstore, hlen₁, htake, hdrop⟩ :=
        store_eq_some dst (escape c) out (by omega)
      obtain ⟨out', dst', hloop, hlt', hle', hlen', htake'⟩ := hrun dst₁ (hlen₁.trans hdst)
      refine ⟨out', dst', ?_, hlt', hle', hlen', ?_⟩
      · rw [htmlEscapeLoop_cons, if_pos hroom, if_pos hc, hstore, Option.bind_some, hloop]
      · have hslot : dst₁.drop (out + ((c :: pre).flatMap escape).length) =
            dst.drop (out + ((c :: pre).flatMap escape).length) := by
          rw [← hlen, ← List.drop_drop, hdrop, List.drop_drop]
        rw [htake', htake, hslot, List.flatMap_cons]
        simp only [List.append_assoc]
    · refine ⟨[], List.nil_prefix, hroom, fun dst hdst => ?_⟩
      obtain ⟨out', dst', hloop, hle, hle', hlen', htake'⟩ :=
        htmlEscapeLoop_inside src hdst (show out + 1 ≤ room by omega)
      refine ⟨out', dst', ?_, hle, hle', hlen', ?_⟩
      · rw [htmlEscapeLoop_cons, if_pos hroom, if_neg hc, hloop]
      · simp only [List.flatMap_nil, List.length_nil, Nat.add_zero, List.append_nil]
        rw [htake', List.take_add]

/-- What `html_escape` leaves in the buffer: the text that the loop wrote, and a NUL behind it. -/
theorem htmlEscape_of_loop {dst' : List UInt8} {out' : Nat} (hdst : dst.length = room + 2)
    (hloop : htmlEscapeLoop (room + 1) src 0 dst = some (out', dst')) (hout : out' ≤ room)
    (hdst' : dst'.length = room + 2) :
    ∃ buf, htmlEscape src dst = some buf ∧ buf.length = room + 2 ∧
      ∃ behind, buf = dst'.take out' ++ 0 :: behind := by
  have hsize : sizeSub (room + 2) 1 = room + 1 := by
    unfold sizeSub
    rw [if_pos (by omega)]
    omega
  obtain ⟨buf, hstore, hlen, htake, -⟩ :=
    store_eq_some dst' [0] out' (by rw [List.length_singleton]; omega)
  refine ⟨buf, ?_, hlen.trans hdst', buf.drop (out' + 1), ?_⟩
  · unfold htmlEscape
    rw [hdst, hsize, hloop]
    exact hstore
  · rw [List.length_singleton] at htake
    calc buf = buf.take (out' + 1) ++ buf.drop (out' + 1) := (List.take_append_drop _ _).symm
      _ = dst'.take out' ++ [0] ++ buf.drop (out' + 1) := by rw [htake]
      _ = dst'.take out' ++ 0 :: buf.drop (out' + 1) := by
        rw [List.append_assoc, List.singleton_append]

end

/-- `html_escape` always has a result for a buffer of two octets or more. -/
theorem htmlEscape_isSome (src dst : List UInt8) (h : 2 ≤ dst.length) :
    ∃ buf, htmlEscape src dst = some buf ∧ buf.length = dst.length := by
  obtain ⟨room, hroom⟩ : ∃ room, dst.length = room + 2 := ⟨dst.length - 2, by omega⟩
  obtain ⟨out', dst', hloop, -, hle, hlen, -⟩ := htmlEscapeLoop_inside src hroom (Nat.zero_le room)
  obtain ⟨buf, hbuf, hlen', -⟩ := htmlEscape_of_loop hroom hloop hle hlen
  exact ⟨buf, hbuf, hlen'.trans hroom.symm⟩

/-! ## The text -/

/-- What `html_escape` is for, with a source and a size of the destination: whatever the destination
holds before, it holds the same text afterwards, which ends inside it and consists of the escapes of the
first characters of the source; and this is what `emit_escaped` gives out, if that fits. -/
def SafeEscape (src : List UInt8) (size : Nat) : Prop :=
  ∃ text, (∃ pre, pre <+: src ∧ text = pre.flatMap escape) ∧
    (∀ dst : List UInt8, dst.length = size →
      ∃ buf, htmlEscape src dst = some buf ∧ buf.length = size ∧ 0 ∈ buf ∧ cString buf = text) ∧
    ((src.flatMap escape).length + 2 ≤ size →
      ∀ out : Putc, NeverFails out → emitEscaped out [] src = (0, text))

section

variable {src : List UInt8} {room : Nat}

theorem safeEscape_of_fits (hsrc : 0 ∉ src) (hfits : EscapeFits src room) :
    SafeEscape src (room + 2) := by
  obtain ⟨pre, hpre, hle, hend, hrun⟩ :=
    htmlEscapeLoop_fits 0 room hfits (Nat.zero_le room)
  rw [Nat.zero_add] at hle hend hrun
  have hzero : 0 ∉ pre.flatMap escape :=
    zero_not_mem_flatMap_escape fun hmem => hsrc (hpre.subset hmem)
  refine ⟨pre.flatMap escape, ⟨pre, hpre, rfl⟩, fun dst hdst => ?_, fun hroom out hout => ?_⟩
  · obtain ⟨dst', hloop, hlen, htake⟩ := hrun dst hdst
    obtain ⟨buf, hbuf, hlen', behind, heq⟩ := htmlEscape_of_loop hdst hloop hle hlen
    rw [htake, List.take_zero, List.nil_append] at heq
    refine ⟨buf, hbuf, hlen', ?_, ?_⟩
    · rw [heq]
      exact List.mem_append_right _ List.mem_cons_self
    · rw [heq, cString_append hzero]
      exact List.append_nil _
  · have hall : pre.flatMap escape = src.flatMap escape := by
      rcases hend with rfl | hend
      · rfl
      · obtain ⟨rest, rfl⟩ := hpre
        rw [List.flatMap_append, List.length_append] at hroom
        rw [List.flatMap_append, List.length_eq_zero_iff.mp (show (rest.flatMap escape).length = 0 by
          omega), List.append_nil]
    rw [emitEscaped_eq hout, List.nil_append, hall]

theorem not_safeEscape (hsrc : 0 ∉ src) (hfits : ¬ EscapeFits src room) :
    ¬ SafeEscape src (room + 2) := by
  rintro ⟨text, -, hall, -⟩
  obtain ⟨pre, hpre, hlt, hrun⟩ :=
    htmlEscapeLoop_slot 0 room hfits (Nat.zero_le room)
  rw [Nat.zero_add] at hlt hrun
  have hzero : 0 ∉ pre.flatMap escape :=
    zero_not_mem_flatMap_escape fun hmem => hsrc (hpre.subset hmem)
  -- a buffer that is full of one character shows it behind the escapes of the first ones
  have htext (c : UInt8) (hc : c ≠ 0) : (pre.flatMap escape ++ [c]) <+: text := by
    obtain ⟨out', dst', hloop, hlt', hle', hlen, htake⟩ :=
      hrun (List.replicate (room + 2) c) List.length_replicate
    obtain ⟨buf, hbuf, -, behind, heq⟩ := htmlEscape_of_loop List.length_replicate hloop hle' hlen
    obtain ⟨buf', hbuf', -, -, hstring⟩ := hall _ List.length_replicate
    obtain rfl := Option.some.inj (hbuf.symm.trans hbuf')
    have hslot : (dst'.take out').take ((pre.flatMap escape).length + 1) =
        pre.flatMap escape ++ [c] := by
      rw [List.take_take, Nat.min_eq_left (by omega), htake, List.take_zero, List.nil_append,
        List.drop_replicate, List.take_replicate, Nat.min_eq_left (by omega)]
      rfl
    rw [← List.take_append_drop ((pre.flatMap escape).length + 1) (dst'.take out'), hslot,
      List.append_assoc] at heq
    have hnul : 0 ∉ pre.flatMap escape ++ [c] := by
      simpa [List.mem_append, hc.symm] using hzero
    rw [← hstring, heq, cString_append hnul]
    exact List.prefix_append _ _
  have hsame := (List.prefix_of_prefix_length_le (htext 1 (by decide)) (htext 2 (by decide))
    (by rw [List.length_append, List.length_append]; exact le_refl _)).eq_of_length (by
      rw [List.length_append, List.length_append]; rfl)
  exact absurd (List.append_cancel_left hsame) (by decide)

end

/-- **When `html_escape` is a safe prefix escape.** For every source without a NUL and every size of at
least 2: it is one if and only if the escape of the whole source leaves two octets of the destination, or
the escapes of some first characters leave exactly two. -/
theorem htmlEscape_safe_iff (src : List UInt8) (hsrc : 0 ∉ src) (size : Nat) (hsize : 2 ≤ size) :
    SafeEscape src size ↔
      (src.flatMap escape).length + 2 ≤ size ∨
        ∃ pre, pre <+: src ∧ (pre.flatMap escape).length + 2 = size := by
  obtain ⟨room, rfl⟩ : ∃ room, size = room + 2 := ⟨size - 2, by omega⟩
  have hfits : EscapeFits src room ↔ (src.flatMap escape).length + 2 ≤ room + 2 ∨
      ∃ pre, pre <+: src ∧ (pre.flatMap escape).length + 2 = room + 2 := by
    simp only [EscapeFits, Nat.add_le_add_iff_right, Nat.add_right_cancel_iff]
  rw [← hfits]
  constructor
  · intro hsafe
    by_contra hnot
    exact not_safeEscape hsrc hnot hsafe
  · exact safeEscape_of_fits hsrc

/-- An ampersand that fills the room, and three letters of which two fit. -/
theorem htmlEscape_safe_sample :
    SafeEscape ['&'.toUInt8] 7 ∧ SafeEscape ['a'.toUInt8, 'b'.toUInt8, 'c'.toUInt8] 4 :=
  ⟨(htmlEscape_safe_iff _ (by decide) 7 (by decide)).mpr (.inl (by decide)),
    (htmlEscape_safe_iff _ (by decide) 4 (by decide)).mpr
      (.inr ⟨['a'.toUInt8, 'b'.toUInt8], by decide, by decide⟩)⟩

/-- An ampersand in a destination of four octets is left out, and what was there shows. -/
theorem htmlEscape_keeps_previous :
    ¬ ∀ (src : List UInt8) (size : Nat), 0 ∉ src → 2 ≤ size → SafeEscape src size := by
  intro hall
  obtain ⟨text, -, htext, -⟩ := hall ['&'.toUInt8] 4 (by decide) (by decide)
  obtain ⟨buf, hbuf, -, -, hstring⟩ := htext [1, 1, 1, 1] rfl
  obtain ⟨buf', hbuf', -, -, hstring'⟩ := htext [2, 2, 2, 2] rfl
  obtain rfl : [1, 0, 1, 1] = buf := Option.some.inj hbuf
  obtain rfl : [2, 0, 2, 2] = buf' := Option.some.inj hbuf'
  exact absurd (hstring.trans hstring'.symm) (by decide)

end Onak
