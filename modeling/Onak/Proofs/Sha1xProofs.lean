import Onak.Sha1x

/-!
# Proofs: SHA1X

Which octets of a message the inner contexts are fed, however the message is split into pieces, and
what the digest is made of.
-/

namespace Onak

/-! ## Every other octet -/

/-- Every other element, from the first one on or from the second one on. -/
def everyOther {α : Type} : Bool → List α → List α
  | _, [] => []
  | true, x :: xs => x :: everyOther false xs
  | false, _ :: xs => everyOther true xs

/-- The elements at even positions. -/
abbrev evens {α : Type} (xs : List α) : List α := everyOther true xs

/-- The elements at odd positions. -/
abbrev odds {α : Type} (xs : List α) : List α := everyOther false xs

@[simp] theorem everyOther_nil {α : Type} (b : Bool) : everyOther b ([] : List α) = [] := by
  cases b <;> rfl

@[simp] theorem everyOther_true_cons {α : Type} (x : α) (xs : List α) :
    everyOther true (x :: xs) = x :: everyOther false xs := rfl

@[simp] theorem everyOther_false_cons {α : Type} (x : α) (xs : List α) :
    everyOther false (x :: xs) = everyOther true xs := rfl

theorem everyOther_append {α : Type} (b : Bool) (xs ys : List α) :
    everyOther b (xs ++ ys) =
      everyOther b xs ++ everyOther (b ^^ xs.length % 2 == 1) ys := by
  induction xs generalizing b with
  | nil => simp
  | cons x xs ih =>
    have hparity : ((x :: xs).length % 2 == 1) = !(xs.length % 2 == 1) := by
      rw [List.length_cons]
      rcases Nat.mod_two_eq_zero_or_one xs.length with h | h <;> simp [h, Nat.add_mod]
    rw [hparity, List.cons_append]
    cases b <;> simp [ih]

/-! ## The loops -/

/-- What the inner loop leaves in the buffers. -/
theorem fillBufs_spec (evenbuf oddbuf data : List UInt8) :
    ∃ taken, data = taken ++ (fillBufs evenbuf oddbuf data).2.2 ∧
      (fillBufs evenbuf oddbuf data).1 = evenbuf ++ evens taken ∧
      (fillBufs evenbuf oddbuf data).2.1 = oddbuf ++ odds taken ∧
      ((fillBufs evenbuf oddbuf data).2.2 = [] ∨ taken.length % 2 = 0) := by
  induction evenbuf, oddbuf, data using fillBufs.induct with
  | case1 evenbuf oddbuf => exact ⟨[], by simp [fillBufs]⟩
  | case2 evenbuf oddbuf even h => exact ⟨[even], by simp [fillBufs, h]⟩
  | case3 evenbuf oddbuf even h odd data ih =>
    obtain ⟨taken, hdata, heven, hodd, hend⟩ := ih
    rw [fillBufs, if_pos h]
    refine ⟨even :: odd :: taken, ?_, ?_, ?_, ?_⟩
    · rw [List.cons_append, List.cons_append, ← hdata]
    · rw [heven, List.append_assoc]
      rfl
    · rw [hodd, List.append_assoc]
      rfl
    · refine hend.imp_right fun hlen => ?_
      simp only [List.length_cons]
      omega
  | case4 evenbuf oddbuf even data h =>
    rw [fillBufs.eq_def]
    exact ⟨[], by simp [h]⟩

/-- Neither buffer overflows, since the even one is never ahead of the odd one by more than the octet
that ends the data. -/
theorem length_fillBufs_le_bufsize (evenbuf oddbuf data : List UInt8)
    (hle : evenbuf.length ≤ oddbuf.length) (hodd : oddbuf.length ≤ sha1xBufsize) :
    (fillBufs evenbuf oddbuf data).1.length ≤ sha1xBufsize ∧
      (fillBufs evenbuf oddbuf data).2.1.length ≤ sha1xBufsize := by
  induction evenbuf, oddbuf, data using fillBufs.induct with
  | case1 evenbuf oddbuf =>
    rw [fillBufs]
    exact ⟨hle.trans hodd, hodd⟩
  | case2 evenbuf oddbuf even h =>
    rw [fillBufs, if_pos h]
    simp only [List.length_append, List.length_singleton]
    omega
  | case3 evenbuf oddbuf even h odd data ih =>
    rw [fillBufs, if_pos h]
    simp only [List.length_append, List.length_singleton] at ih
    exact ih (by omega) (by omega)
  | case4 evenbuf oddbuf even data h =>
    rw [fillBufs.eq_def]
    simp only [h, if_false]
    exact ⟨hle.trans hodd, hodd⟩

theorem Sha1xCtx.feed_feed (ctx : Sha1xCtx) (even odd even' odd' : List UInt8) :
    (ctx.feed even odd).feed even' odd' = ctx.feed (even ++ even') (odd ++ odd') := by
  simp [Sha1xCtx.feed]

/-- The outer loop feeds everything, an odd octet in front included, unless there is nothing but that
octet. -/
theorem sha1xLoop_eq (ctx : Sha1xCtx) (oddbuf : List UInt8) (h : oddbuf.length < sha1xBufsize)
    (data : List UInt8) :
    sha1xLoop ctx oddbuf h data =
      if data = [] then ctx else ctx.feed (evens data) (oddbuf ++ odds data) := by
  induction ctx, oddbuf, h, data using sha1xLoop.induct with
  | case1 ctx oddbuf h => simp [sha1xLoop]
  | case2 ctx oddbuf h even data ih =>
    obtain ⟨taken, hdata, heven, hodd, hend⟩ := fillBufs_spec [] oddbuf (even :: data)
    rw [sha1xLoop, ih, if_neg (List.cons_ne_nil _ _), heven, hodd, List.nil_append]
    have hsplit (b : Bool) : everyOther b (even :: data) =
        everyOther b taken ++ everyOther b (fillBufs [] oddbuf (even :: data)).2.2 := by
      conv_lhs => rw [hdata]
      rw [everyOther_append]
      rcases hend with hnil | hlen
      · simp [hnil]
      · simp [hlen]
    have hevens : evens (even :: data) = evens taken ++ _ := hsplit true
    have hodds : odds (even :: data) = odds taken ++ _ := hsplit false
    rw [hevens, hodds]
    split_ifs with hrest
    · simp [hrest]
    · rw [Sha1xCtx.feed_feed, List.nil_append, List.append_assoc]

/-! ## One call -/

/-- What a call feeds the contexts of the odd octets: nothing, if all it is given is one octet that is
at an odd position. -/
def oddsFed (odd : Bool) (data : List UInt8) : List UInt8 :=
  if odd = true ∧ data.length = 1 then [] else everyOther odd data

theorem sha1xUpdate_eq (ctx : Sha1xCtx) (piece : Sha1xPiece) :
    sha1xUpdate ctx piece =
      { ctx.feed (everyOther (!ctx.odd) piece.data) (oddsFed ctx.odd piece.data) with
        odd := ctx.odd ^^ piece.data.length % 2 == 1 } := by
  obtain ⟨data, hlt⟩ := piece
  cases hodd : ctx.odd with
  | false =>
    simp only [sha1xUpdate, hodd, sha1xLoop_eq]
    cases data with
    | nil => simp [oddsFed, Sha1xCtx.feed]
    | cons x data => simp [oddsFed, Sha1xCtx.feed]
  | true =>
    cases data with
    | nil => simp [sha1xUpdate, hodd, sha1xLoop_eq, oddsFed, Sha1xCtx.feed]
    | cons x data =>
      simp only [sha1xUpdate, hodd, sha1xLoop_eq]
      cases data with
      | nil => simp [oddsFed, Sha1xCtx.feed]
      | cons y data => simp [oddsFed, Sha1xCtx.feed]

/-! ## A message in pieces -/

/-- The message that is split into the pieces. -/
def sha1xMessage (pieces : List Sha1xPiece) : List UInt8 := pieces.flatMap Sha1xPiece.data

/-- The contexts were fed the octets at even positions and those at odd ones, all in order. -/
def Sha1xCtx.FedBy (ctx : Sha1xCtx) (message : List UInt8) : Prop :=
  ctx.a = evens message ∧ ctx.b = 0 :: evens message ∧ ctx.c = [0, 0] ++ odds message ∧
    ctx.d = [0, 0, 0] ++ odds message

/-- A piece is one octet, at an odd position of the message. -/
def LoneOdd (pieces : List Sha1xPiece) : Prop :=
  ∃ i, ∃ h : i < pieces.length,
    (sha1xMessage (pieces.take i)).length % 2 = 1 ∧ pieces[i].data.length = 1

theorem sha1xMessage_append (pieces : List Sha1xPiece) (piece : Sha1xPiece) :
    sha1xMessage (pieces ++ [piece]) = sha1xMessage pieces ++ piece.data := by
  simp [sha1xMessage]

theorem loneOdd_append (pieces : List Sha1xPiece) (piece : Sha1xPiece) :
    LoneOdd (pieces ++ [piece]) ↔
      LoneOdd pieces ∨ (sha1xMessage pieces).length % 2 = 1 ∧ piece.data.length = 1 := by
  constructor
  · rintro ⟨i, hi, hodd, hlone⟩
    by_cases h : i < pieces.length
    · rw [List.take_append_of_le_length h.le] at hodd
      rw [List.getElem_append_left h] at hlone
      exact .inl ⟨i, h, hodd, hlone⟩
    · have hi' : i = pieces.length := by
        simp only [List.length_append, List.length_singleton] at hi
        omega
      subst hi'
      rw [List.take_left] at hodd
      simp only [List.getElem_concat_length] at hlone
      exact .inr ⟨hodd, hlone⟩
  · rintro (⟨i, h, hodd, hlone⟩ | ⟨hodd, hlone⟩)
    · refine ⟨i, by simp; omega, ?_, ?_⟩
      · rwa [List.take_append_of_le_length h.le]
      · rwa [List.getElem_append_left h]
    · refine ⟨pieces.length, by simp, ?_, ?_⟩
      · rwa [List.take_left]
      · simpa using hlone

/-- What holds after some calls: the parity is that of the octets so far, and of the octets at odd
positions some may be missing. -/
structure Fed (ctx : Sha1xCtx) (pieces : List Sha1xPiece) (fed : List UInt8) : Prop where
  odd : ctx.odd = ((sha1xMessage pieces).length % 2 == 1)
  a : ctx.a = evens (sha1xMessage pieces)
  b : ctx.b = 0 :: evens (sha1xMessage pieces)
  c : ctx.c = [0, 0] ++ fed
  d : ctx.d = [0, 0, 0] ++ fed
  length_le : fed.length ≤ (odds (sha1xMessage pieces)).length
  eq_iff : fed = odds (sha1xMessage pieces) ↔ ¬ LoneOdd pieces

theorem fed_sha1xInit : Fed sha1xInit [] [] where
  odd := rfl
  a := rfl
  b := rfl
  c := rfl
  d := rfl
  length_le := le_rfl
  eq_iff := by simp [sha1xMessage, LoneOdd]

/-- One more call. -/
theorem Fed.sha1xUpdate {ctx : Sha1xCtx} {pieces : List Sha1xPiece} {fed : List UInt8}
    (h : Fed ctx pieces fed) (piece : Sha1xPiece) :
    Fed (sha1xUpdate ctx piece) (pieces ++ [piece]) (fed ++ oddsFed ctx.odd piece.data) := by
  have hodds : odds (sha1xMessage (pieces ++ [piece])) =
      odds (sha1xMessage pieces) ++ everyOther ctx.odd piece.data := by
    rw [sha1xMessage_append, odds, everyOther_append, h.odd, Bool.false_xor]
  have hevens : evens (sha1xMessage (pieces ++ [piece])) =
      evens (sha1xMessage pieces) ++ everyOther (!ctx.odd) piece.data := by
    rw [sha1xMessage_append, evens, everyOther_append, h.odd, Bool.true_xor]
  rw [sha1xUpdate_eq]
  exact
    { odd := by
        rw [sha1xMessage_append, List.length_append, h.odd]
        rcases Nat.mod_two_eq_zero_or_one (sha1xMessage pieces).length with hm | hm <;>
          rcases Nat.mod_two_eq_zero_or_one piece.data.length with hp | hp <;>
            simp [hm, hp, Nat.add_mod]
      a := by simp [Sha1xCtx.feed, h.a, hevens]
      b := by simp [Sha1xCtx.feed, h.b, hevens]
      c := by simp [Sha1xCtx.feed, h.c]
      d := by simp [Sha1xCtx.feed, h.d]
      length_le := by
        have hle := h.length_le
        rw [hodds, List.length_append, List.length_append, oddsFed]
        split_ifs
        · simp only [List.length_nil]
          omega
        · omega
      eq_iff := by
        rw [hodds, loneOdd_append, oddsFed]
        have hodd : ctx.odd = true ↔ (sha1xMessage pieces).length % 2 = 1 := by
          rw [h.odd]
          exact beq_iff_eq
        rw [← hodd]
        split_ifs with hlone
        · -- the octet is missing, so what was fed is too short
          obtain ⟨x, hx⟩ := List.length_eq_one_iff.mp hlone.2
          have hne : fed ++ [] ≠ odds (sha1xMessage pieces) ++ everyOther ctx.odd piece.data := by
            intro heq
            have hlen := congrArg List.length heq
            have hle := h.length_le
            simp only [List.append_nil, List.length_append, hlone.1, hx, everyOther_true_cons,
              List.length_cons] at hlen
            omega
          exact ⟨fun heq => absurd heq hne, fun hno => absurd (.inr hlone) hno⟩
        · rw [List.append_left_inj, h.eq_iff]
          simp [hlone] }

theorem fed_sha1xUpdates (pieces : List Sha1xPiece) :
    ∃ fed, Fed (sha1xUpdates pieces) pieces fed := by
  induction pieces using List.reverseRecOn with
  | nil => exact ⟨[], fed_sha1xInit⟩
  | append_singleton pieces piece ih =>
    obtain ⟨fed, h⟩ := ih
    rw [sha1xUpdates, List.foldl_append]
    exact ⟨_, h.sha1xUpdate piece⟩

theorem loneOdd_singleton (piece : Sha1xPiece) : ¬ LoneOdd [piece] := by
  rw [← List.nil_append [piece], loneOdd_append]
  simp [LoneOdd, sha1xMessage]

/-- Contexts that were fed the same octets are the same. -/
theorem Fed.eq {ctx ctx' : Sha1xCtx} {pieces pieces' : List Sha1xPiece} {fed fed' : List UInt8}
    (h : Fed ctx pieces fed) (h' : Fed ctx' pieces' fed')
    (hmessage : sha1xMessage pieces = sha1xMessage pieces') (hfed : fed = fed') : ctx = ctx' := by
  obtain ⟨a, b, c, d, odd⟩ := ctx
  obtain ⟨a', b', c', d', odd'⟩ := ctx'
  have hodd := h.odd.trans (hmessage ▸ h'.odd.symm)
  have ha := h.a.trans (hmessage ▸ h'.a.symm)
  have hb := h.b.trans (hmessage ▸ h'.b.symm)
  have hc := h.c.trans (hfed ▸ h'.c.symm)
  have hd := h.d.trans (hfed ▸ h'.d.symm)
  simp only at hodd ha hb hc hd
  rw [hodd, ha, hb, hc, hd]

/-- Splitting makes no difference: the contexts get the octets of the whole message, and the state is
that after a single call with the message, if one call can be given it. -/
def SplitsWell (pieces : List Sha1xPiece) : Prop :=
  (sha1xUpdates pieces).FedBy (sha1xMessage pieces) ∧
    ∀ h : (sha1xMessage pieces).length < 2 ^ 32,
      sha1xUpdates pieces = sha1xUpdate sha1xInit ⟨sha1xMessage pieces, h⟩

/-- **When splitting a message makes no difference.** For every message and every way to split it into
calls of `sha1x_update`: the inner contexts are fed the octets at even and at odd positions of the
message in order, as after a single call, if and only if no call is given just one octet that is at an
odd position. -/
theorem sha1xUpdates_splitsWell_iff (pieces : List Sha1xPiece) :
    SplitsWell pieces ↔ ¬ LoneOdd pieces := by
  obtain ⟨fed, h⟩ := fed_sha1xUpdates pieces
  constructor
  · rintro ⟨⟨-, -, hc, -⟩, -⟩
    rw [h.c] at hc
    exact h.eq_iff.mp (List.append_cancel_left hc)
  · intro hlone
    have hfed := h.eq_iff.mpr hlone
    refine ⟨⟨h.a, h.b, hfed ▸ h.c, hfed ▸ h.d⟩, fun hlt => ?_⟩
    obtain ⟨fed', h'⟩ := fed_sha1xUpdates [⟨sha1xMessage pieces, hlt⟩]
    have hmessage : sha1xMessage [⟨sha1xMessage pieces, hlt⟩] = sha1xMessage pieces := by
      simp [sha1xMessage]
    have hfed' := h'.eq_iff.mpr (loneOdd_singleton _)
    exact h.eq h' hmessage.symm (by rw [hfed, hfed', hmessage])

/-- Of two octets in two calls the second one is lost. -/
theorem sha1xUpdates_loses_octet :
    ¬ SplitsWell [⟨[1], by decide⟩, ⟨[2], by decide⟩] := by
  rintro ⟨⟨-, -, hc, -⟩, -⟩
  simp [sha1xUpdates, sha1xUpdate_eq, sha1xMessage, sha1xInit, oddsFed, Sha1xCtx.feed] at hc

/-! ## The digest -/

section

variable (H : List UInt8 → Sha1Digest)

/-- `X`, the digests of the octets at even positions and of those at odd ones behind two zeros. -/
def sha1xX (message : List UInt8) : Sha1Digest := (H (evens message)).xor (H ([0, 0] ++ odds message))

/-- `Y`, the same with one zero more in front of each. -/
def sha1xY (message : List UInt8) : Sha1Digest :=
  (H ([0] ++ evens message)).xor (H ([0, 0, 0] ++ odds message))

/-- The digest of octets behind some zeros. -/
def zerosThen (n : Nat) (x : Sha1Digest) : Sha1Digest := H (List.replicate n 0 ++ x.toList)

/-- The double width construction. -/
def doubleWidth (message : List UInt8) : List UInt8 :=
  ((zerosThen H 4 (sha1xX H message)).xor (zerosThen H 6 (sha1xY H message))).toList ++
    ((zerosThen H 5 (sha1xX H message)).xor (zerosThen H 7 (sha1xY H message))).toList

/-- Copying out two halves. -/
theorem map_range_halves (x y : Sha1Digest) :
    ((List.range sha1xDigestSize).map fun i =>
      if i < sha1DigestSize then x.toList[i]! else y.toList[i - sha1DigestSize]!) =
        x.toList ++ y.toList := by
  have hx : x.toList.length = sha1DigestSize := x.length_toList
  have hy : y.toList.length = sha1DigestSize := y.length_toList
  have htwice : sha1xDigestSize = sha1DigestSize + sha1DigestSize := rfl
  apply List.ext_getElem
  · rw [List.length_map, List.length_range, List.length_append, hx, hy, htwice]
  · intro i hi hi'
    rw [List.length_map, List.length_range, htwice] at hi
    rw [List.getElem_map, List.getElem_range, List.getElem_append]
    split_ifs with hlt hlt' hlt'
    · exact getElem!_pos _ _ _
    · omega
    · omega
    · rw [getElem!_pos _ _ (by omega)]
      simp only [hx]

/-- What the digest of a message is that was given to one call. -/
theorem sha1xDigest_eq (message : Sha1xPiece) :
    sha1xDigest H (sha1xUpdate sha1xInit message) sha1xDigestSize =
      ((zerosThen H 4 (sha1xX H message.data)).xor (zerosThen H 6 (sha1xY H message.data))).toList ++
        (zerosThen H 6 (sha1xY H message.data)).toList := by
  have hctx : sha1xUpdate sha1xInit message =
      { sha1xInit.feed (evens message.data) (odds message.data) with
        odd := message.data.length % 2 == 1 } := by
    rw [sha1xUpdate_eq]
    simp [sha1xInit, oddsFed]
  rw [hctx, sha1xDigest, Nat.min_self]
  exact map_range_halves _ _

/-- Where the digest is the double width construction, the second half is: what is copied from the
seventh inner digest is the exclusive or of the sixth and the eighth. -/
theorem sha1xDigest_doubleWidth (message : Sha1xPiece) :
    sha1xDigest H (sha1xUpdate sha1xInit message) sha1xDigestSize = doubleWidth H message.data ↔
      zerosThen H 6 (sha1xY H message.data) =
        (zerosThen H 5 (sha1xX H message.data)).xor (zerosThen H 7 (sha1xY H message.data)) := by
  rw [sha1xDigest_eq, doubleWidth, List.append_right_inj, Vector.toList_inj]

end

/-- A hash function that tells the octets given for the seventh inner digest from all others. -/
def seventhHash (octets : List UInt8) : Sha1Digest :=
  Vector.replicate sha1DigestSize (if octets.length = 26 then 1 else 0)

theorem zerosThen_seventhHash (n : Nat) (x : Sha1Digest) :
    zerosThen seventhHash n x = Vector.replicate sha1DigestSize (if n = 6 then 1 else 0) := by
  have hlength : (List.replicate n (0 : UInt8) ++ x.toList).length = n + 20 := by
    rw [List.length_append, List.length_replicate, Vector.length_toList]
  have hiff : n + 20 = 26 ↔ n = 6 := by omega
  rw [zerosThen, seventhHash, hlength]
  simp only [hiff]

/-- **The digest never has the double width structure.** For no message given to one call is the digest
the double width construction with whatever hash function. -/
theorem sha1xDigest_not_doubleWidth (message : Sha1xPiece) :
    ¬ ∀ H : List UInt8 → Sha1Digest,
      sha1xDigest H (sha1xUpdate sha1xInit message) sha1xDigestSize = doubleWidth H message.data := by
  intro hdouble
  have hseventh := (sha1xDigest_doubleWidth seventhHash message).mp (hdouble seventhHash)
  have hfirst := congrArg (fun digest : Sha1Digest => digest[0]) hseventh
  simp [zerosThen_seventhHash, Sha1Digest.xor] at hfirst

/-- A hash function that gives the number of octets. -/
def countingHash (octets : List UInt8) : Sha1Digest :=
  Vector.replicate sha1DigestSize (UInt8.ofNat octets.length)

theorem sha1xDigest_second_half :
    sha1xDigest countingHash (sha1xUpdate sha1xInit ⟨[], by decide⟩) sha1xDigestSize ≠
      doubleWidth countingHash [] := by
  rw [sha1xDigest_eq]
  decide +kernel

end Onak
