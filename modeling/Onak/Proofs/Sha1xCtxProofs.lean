import Onak.Proofs.Sha1Proofs
import Onak.Proofs.Sha1xProofs

/-!
# SHA1X on the contexts of SHA-1

A context of SHA-1 stands for the octets that it was fed. The functions of `sha1x.c`, run on such
contexts, keep step with the model that has the octets in their place, and write the digest that it
has for SHA-1.
-/

namespace Onak

open Socket

variable (order : ByteOrder) {ctx : Sha1xCtxs} {octets : Sha1xCtx}

/-- SHA-1 with its digest as a vector. -/
def sha1Of (msg : List UInt8) : Sha1Digest where
  toArray := (Sha1Spec.digest msg).toArray
  size_toArray := by simp [Sha1Spec.digest, List.length_flatMap, length_bigOctets]

theorem Sha1Ctx.Fed.digest_eq {ctx : Sha1Ctx} {msg : List UInt8} (h : ctx.Fed msg) :
    (sha1Digest order ctx).1 = sha1Of msg := by
  apply Vector.toList_inj.mp
  rw [h.digest order]
  rfl

/-- The four contexts were fed what the model says. -/
structure Sha1xCtxs.Fed (ctx : Sha1xCtxs) (octets : Sha1xCtx) : Prop where
  a : ctx.a.Fed octets.a
  b : ctx.b.Fed octets.b
  c : ctx.c.Fed octets.c
  d : ctx.d.Fed octets.d
  odd : ctx.odd = octets.odd

theorem sha1xInitCtxs_fed (ha : ctx.a.buffer.length = 64) (hb : ctx.b.buffer.length = 64)
    (hc : ctx.c.buffer.length = 64) (hd : ctx.d.buffer.length = 64) :
    (sha1xInitCtxs order ctx).Fed sha1xInit where
  a := sha1Init_fed ha
  b := (sha1Init_fed hb).update order [0] (by simp)
  c := (sha1Init_fed hc).update order [0, 0] (by simp)
  d := (sha1Init_fed hd).update order [0, 0, 0] (by simp)
  odd := rfl

/-- A buffer is short enough for a call of `sha1_update`. -/
theorem bufsize_room {buf : List UInt8} (h : buf.length ≤ sha1xBufsize) :
    buf.length + 64 ≤ 2 ^ 32 := by
  have hsize : sha1xBufsize = 64 := rfl
  omega

theorem Sha1xCtxs.Fed.feed (h : ctx.Fed octets) {evenbuf oddbuf : List UInt8}
    (heven : evenbuf.length ≤ sha1xBufsize) (hodd : oddbuf.length ≤ sha1xBufsize) :
    (ctx.feed order evenbuf oddbuf).Fed (octets.feed evenbuf oddbuf) where
  a := h.a.update order evenbuf (bufsize_room heven)
  b := h.b.update order evenbuf (bufsize_room heven)
  c := h.c.update order oddbuf (bufsize_room hodd)
  d := h.d.update order oddbuf (bufsize_room hodd)
  odd := h.odd

theorem Sha1xCtxs.Fed.loop (h : ctx.Fed octets) (oddbuf : List UInt8)
    (hodd : oddbuf.length < sha1xBufsize) (data : List UInt8) :
    (sha1xLoopCtxs order ctx oddbuf hodd data).Fed (sha1xLoop octets oddbuf hodd data) := by
  fun_induction sha1xLoop octets oddbuf hodd data generalizing ctx with
  | case1 octets oddbuf hodd => rwa [sha1xLoopCtxs]
  | case2 octets oddbuf hodd even data ih =>
    obtain ⟨hevenbuf, hoddbuf⟩ :=
      length_fillBufs_le_bufsize [] oddbuf (even :: data) (Nat.zero_le _) (le_of_lt hodd)
    rw [sha1xLoopCtxs]
    exact ih (h.feed order hevenbuf hoddbuf)

theorem Sha1xCtxs.Fed.update (h : ctx.Fed octets) (piece : Sha1xPiece) :
    (sha1xUpdateCtxs order ctx piece).Fed (sha1xUpdate octets piece) := by
  have hturned : Sha1xCtxs.Fed { ctx with odd := ctx.odd ^^ piece.data.length % 2 == 1 }
      { octets with odd := octets.odd ^^ piece.data.length % 2 == 1 } :=
    { a := h.a, b := h.b, c := h.c, d := h.d, odd := by rw [h.odd] }
  rw [sha1xUpdateCtxs, sha1xUpdate]
  cases hodd : octets.odd with
  | false =>
    simp only [h.odd, hodd] at hturned ⊢
    exact hturned.loop order [] (by decide) piece.data
  | true =>
    simp only [h.odd, hodd] at hturned ⊢
    cases hdata : piece.data with
    | nil =>
      rw [hdata] at hturned
      exact hturned.loop order [] (by decide) []
    | cons odd data =>
      rw [hdata] at hturned
      exact hturned.loop order [odd] (by simp) data

theorem Sha1xCtxs.Fed.updates (h : ctx.Fed octets) (pieces : List Sha1xPiece) :
    (pieces.foldl (sha1xUpdateCtxs order) ctx).Fed (pieces.foldl sha1xUpdate octets) := by
  induction pieces generalizing ctx octets with
  | nil => exact h
  | cons piece pieces ih => exact ih (h.update order piece)

theorem sha1xFinal_eq {ctx : Sha1Ctx} (hbuffer : ctx.buffer.length = 64) (n : Nat)
    (final : Sha1Digest) :
    sha1xFinal order ctx n final =
      sha1Of ((List.replicate 7 (0 : UInt8)).take n ++ final.toList) := by
  have hzeros : ((List.replicate 7 (0 : UInt8)).take n).length + 64 ≤ 2 ^ 32 := by
    rw [List.length_take, List.length_replicate]
    omega
  have hfinal : final.toList.length + 64 ≤ 2 ^ 32 := by
    rw [Vector.length_toList]
    decide
  exact (((sha1Init_fed hbuffer).update order _ hzeros).update order _ hfinal).digest_eq order

/-- The digest of the contexts is that of the model, for SHA-1. -/
theorem Sha1xCtxs.Fed.digest (h : ctx.Fed octets) {e g : Sha1Ctx} (he : e.buffer.length = 64)
    (hg : g.buffer.length = 64) (f k : Sha1Ctx) (length : Nat) :
    sha1xDigestCtxs order e f g k ctx length = sha1xDigest sha1Of octets length := by
  rw [sha1xDigestCtxs, sha1xDigest]
  simp only [h.a.digest_eq order, h.b.digest_eq order, h.c.digest_eq order, h.d.digest_eq order,
    sha1xFinal_eq order he, sha1xFinal_eq order hg]

/-- With `sha1.c` underneath, on contexts that held anything before, the calls of `sha1x.c` for some
pieces write what they write with a context of SHA-1 taken for the octets that it was fed. -/
theorem sha1xDigestCtxs_updates {e g : Sha1Ctx}
    (hctx : ∀ c ∈ [ctx.a, ctx.b, ctx.c, ctx.d, e, g], c.buffer.length = 64) (f k : Sha1Ctx)
    (pieces : List Sha1xPiece) (length : Nat) :
    sha1xDigestCtxs order e f g k (pieces.foldl (sha1xUpdateCtxs order) (sha1xInitCtxs order ctx))
        length =
      sha1xDigest sha1Of (sha1xUpdates pieces) length := by
  have hinit : (sha1xInitCtxs order ctx).Fed sha1xInit :=
    sha1xInitCtxs_fed order (hctx ctx.a (by simp)) (hctx ctx.b (by simp)) (hctx ctx.c (by simp))
      (hctx ctx.d (by simp))
  exact (hinit.updates order pieces).digest order (hctx e (by simp)) (hctx g (by simp)) f k length

/-- Contexts with nothing in their buffers yet. -/
def blankCtxs : Sha1xCtxs where
  a := blankCtx
  b := blankCtx
  c := blankCtx
  d := blankCtx
  odd := false

theorem sha1xDigestCtxs_updates_blank :
    sha1xDigestCtxs .big blankCtx blankCtx blankCtx blankCtx
        ([⟨[1], by decide⟩, ⟨[2, 3], by decide⟩].foldl (sha1xUpdateCtxs .big)
          (sha1xInitCtxs .big blankCtxs)) 40 =
      sha1xDigest sha1Of (sha1xUpdates [⟨[1], by decide⟩, ⟨[2, 3], by decide⟩]) 40 :=
  sha1xDigestCtxs_updates .big (by simp [blankCtxs, blankCtx]) blankCtx blankCtx
    [⟨[1], by decide⟩, ⟨[2, 3], by decide⟩] 40

end Onak
