import Onak.Sha1
import Onak.HashSpec
import Onak.Proofs.KeydSocketProofs

/-!
# SHA-1 computes SHA-1

`SHA1Transform` keeps its five variables in turning places and the last sixteen words of the schedule
in a ring; behind every statement both hold what the standard's variables and schedule hold. The
context of `sha1_update` stands behind the complete blocks of what it was fed.
-/

namespace Onak

open Socket BlockHash

/-! ## Words -/

theorem toBitVec_rol {value bits : UInt32} (hpos : 0 < bits.toNat) (hlt : bits.toNat < 32) :
    (rol value bits).toBitVec = value.toBitVec.rotateLeft bits.toNat := by
  rw [rol, BitVec.rotateLeft_def, UInt32.toBitVec_or, UInt32.toBitVec_shiftLeft,
    UInt32.toBitVec_shiftRight, BitVec.shiftLeft_eq', BitVec.ushiftRight_eq']
  congr 2
  simp [BitVec.toNat_umod]
  omega

theorem rotateLeft_eight (a b c d : BitVec 8) :
    (d ++ c ++ b ++ a).rotateLeft 8 = c ++ b ++ a ++ d := by
  ext i hi
  simp only [BitVec.getElem_rotateLeft, BitVec.getElem_append]
  grind

theorem rotateLeft_twentyfour (a b c d : BitVec 8) :
    (d ++ c ++ b ++ a).rotateLeft 24 = a ++ d ++ c ++ b := by
  ext i hi
  simp only [BitVec.getElem_rotateLeft, BitVec.getElem_append]
  grind

/-- The octets of a word in the other order. -/
theorem rol_and_or_rol_and (a b c d : BitVec 8) :
    ((rol ⟨d ++ c ++ b ++ a⟩ 24 &&& 0xFF00FF00) ||| (rol ⟨d ++ c ++ b ++ a⟩ 8 &&& 0x00FF00FF)) =
      ⟨a ++ b ++ c ++ d⟩ := by
  apply UInt32.toBitVec_inj.mp
  rw [UInt32.toBitVec_or, UInt32.toBitVec_and, UInt32.toBitVec_and,
    toBitVec_rol (by decide) (by decide), toBitVec_rol (by decide) (by decide)]
  change (d ++ c ++ b ++ a).rotateLeft 24 &&& (0xFF#8 ++ 0#8 ++ 0xFF#8 ++ 0#8) |||
    (d ++ c ++ b ++ a).rotateLeft 8 &&& (0#8 ++ 0xFF#8 ++ 0#8 ++ 0xFF#8) = a ++ b ++ c ++ d
  rw [rotateLeft_eight, rotateLeft_twentyfour]
  simp only [BitVec.and_append, BitVec.or_append]
  have hall (x : BitVec 8) : x &&& 0xFF#8 = x := BitVec.and_allOnes
  simp [hall]

theorem take_four {block : List UInt8} {i : Nat} (h : i + 4 ≤ block.length) :
    (block.drop i).take 4 =
      [block.getD i 0, block.getD (i + 1) 0, block.getD (i + 2) 0, block.getD (i + 3) 0] := by
  apply List.ext_getElem
  · simp
    omega
  · intro k hk hk'
    simp only [List.length_cons, List.length_nil] at hk'
    rw [List.getElem_take, List.getElem_drop, List.getElem_eq_getD 0]
    interval_cases k <;> rfl

/-- Four octets as a number, put together or added up. -/
theorem toNat_append_four (a b c d : UInt8) :
    (a.toBitVec ++ b.toBitVec ++ c.toBitVec ++ d.toBitVec).toNat = beNat [a, b, c, d] := by
  have hor (x : Nat) (y : UInt8) : x <<< 8 ||| y.toNat = x * 256 + y.toNat := by
    rw [← Nat.shiftLeft_add_eq_or_of_lt (UInt8.toNat_lt y), Nat.shiftLeft_eq]
  simp only [BitVec.toNat_append, UInt8.toNat_toBitVec, hor, beNat, List.foldl_cons, List.foldl_nil]
  omega

theorem ofNat_beNat_four (a b c d : UInt8) :
    BitVec.ofNat 32 (beNat [a, b, c, d]) = a.toBitVec ++ b.toBitVec ++ c.toBitVec ++ d.toBitVec := by
  rw [← toNat_append_four, BitVec.ofNat_toNat]
  rfl

theorem toBitVec_wordAt_big {block : List UInt8} {t : Nat} (h : 4 * t + 4 ≤ block.length) :
    (wordAt .big block (4 * t)).toBitVec = Sha1Spec.blockWord block t := by
  rw [Sha1Spec.blockWord, take_four h, ofNat_beNat_four]
  rfl

/-! ## The block -/

namespace Sha1Work

variable (order : ByteOrder) (buffer : List UInt8)

/-- The ring before statement `i`: the last sixteen words of the schedule, and before they are
reached the words of the block as they lie in memory. -/
structure Expanded (i : Nat) (l : Fin 16 → UInt32) : Prop where
  done : ∀ t, t < i → i ≤ t + 16 → (l (Fin.ofNat 16 t)).toBitVec = Sha1Spec.schedule buffer t
  ahead : ∀ t, i ≤ t → t < 16 → l (Fin.ofNat 16 t) = wordAt order buffer (4 * t)

variable {order buffer} {i : Nat} {l : Fin 16 → UInt32}

theorem expanded_zero : Expanded order buffer 0 fun i => wordAt order buffer (4 * i) where
  done := fun t ht => absurd ht (Nat.not_lt_zero t)
  ahead := by
    intro t _ ht
    simp [Nat.mod_eq_of_lt ht]

theorem ofNat_ne {t : Nat} (hlt : t < i) (hle : i < t + 16) : Fin.ofNat 16 t ≠ Fin.ofNat 16 i := by
  intro h
  have hmod : t % 16 = i % 16 := congrArg Fin.val h
  omega

/-- A statement puts the next word of the schedule into the ring. -/
theorem Expanded.set (h : Expanded order buffer i l) {value : UInt32}
    (hvalue : value.toBitVec = Sha1Spec.schedule buffer i) :
    Expanded order buffer (i + 1) (Function.update l (Fin.ofNat 16 i) value) where
  done := by
    intro t hlt hle
    rcases Nat.lt_succ_iff_lt_or_eq.mp hlt with hold | rfl
    · rw [Function.update_of_ne (ofNat_ne hold (by omega))]
      exact h.done t hold (by omega)
    · rw [Function.update_self, hvalue]
  ahead := by
    intro t hle hlt
    rw [Function.update_of_ne (ofNat_ne (by omega) (by omega)).symm]
    exact h.ahead t (by omega) hlt

/-- `blk0` takes the next word of the block. -/
theorem Expanded.blk0 {work : Sha1Work} (h : Expanded order buffer i work.l) (hi : i < 16)
    (hlen : buffer.length = 64) :
    (work.blk0 order i).1.toBitVec = Sha1Spec.schedule buffer i ∧
      Expanded order buffer (i + 1) (work.blk0 order i).2 := by
  have hword : Sha1Spec.schedule buffer i = (wordAt .big buffer (4 * i)).toBitVec := by
    rw [Sha1Spec.schedule, if_pos hi, toBitVec_wordAt_big (by omega)]
  have hl := h.ahead i (le_refl i) hi
  cases order with
  | big =>
    refine ⟨by rw [hword, ← hl]; rfl, ?_⟩
    have hset : Expanded .big buffer (i + 1)
        (Function.update work.l (Fin.ofNat 16 i) (work.l (Fin.ofNat 16 i))) :=
      h.set (by rw [hl, hword])
    rwa [Function.update_eq_self] at hset
  | little =>
    have hvalue : (work.blk0 .little i).1 = wordAt .big buffer (4 * i) := by
      simp only [Sha1Work.blk0, hl]
      exact rol_and_or_rol_and _ _ _ _
    refine ⟨by rw [hvalue, hword], ?_⟩
    exact h.set (by rw [← hword.symm, ← hvalue]; rfl)

/-- `blk` takes the next word from the ring. -/
theorem Expanded.blk {work : Sha1Work} (h : Expanded order buffer i work.l) (hi : 16 ≤ i) :
    (work.blk i).1.toBitVec = Sha1Spec.schedule buffer i ∧
      Expanded order buffer (i + 1) (work.blk i).2 := by
  have hback (k : Nat) (hk : k ≤ 16) (hpos : 0 < k) :
      (work.l (Fin.ofNat 16 (i + (16 - k)))).toBitVec = Sha1Spec.schedule buffer (i - k) := by
    have hplace : Fin.ofNat 16 (i + (16 - k)) = Fin.ofNat 16 (i - k) := by
      apply Fin.ext
      simp only [Fin.val_ofNat]
      omega
    rw [hplace]
    exact h.done (i - k) (by omega) (by omega)
  have hvalue : (work.blk i).1.toBitVec = Sha1Spec.schedule buffer i := by
    have hlast := hback 16 (by omega) (by omega)
    rw [Nat.sub_self, Nat.add_zero] at hlast
    rw [Sha1Spec.schedule, if_neg (by omega)]
    simp only [Sha1Work.blk]
    rw [toBitVec_rol (by decide) (by decide), UInt32.toBitVec_xor, UInt32.toBitVec_xor,
      UInt32.toBitVec_xor, hback 3 (by omega) (by omega), hback 8 (by omega) (by omega),
      hback 14 (by omega) (by omega), hlast]
    rfl
  exact ⟨hvalue, h.set hvalue⟩

/-! ## The variables -/

section

attribute [local instance] neZero_five

/-- The variables before statement `i`: they have turned by one place for each statement. -/
def Turned (i : Nat) (var : Fin 5 → UInt32) (r : Vector HashWord 5) : Prop :=
  ∀ j : Fin 5, (var (j - Fin.ofNat 5 i)).toBitVec = r[j]

end

/-- Two variables are written, the one that is first from now on and the one that is third. -/
theorem update_turned (var : Fin 5 → UInt32) (sum turned : UInt32) (k j : Fin 5) :
    Function.update (Function.update var (4 - k) sum) (1 - k) turned (j - (k + 1)) =
      ![sum, var (0 - k), turned, var (2 - k), var (3 - k)] j := by
  fin_cases k <;> fin_cases j <;> rfl

theorem ch_eq (w x y : UInt32) :
    ((w &&& (x ^^^ y)) ^^^ y).toBitVec = Sha1Spec.ch w.toBitVec x.toBitVec y.toBitVec := by
  rw [UInt32.toBitVec_xor, UInt32.toBitVec_and, UInt32.toBitVec_xor, Sha1Spec.ch]
  ext k hk
  simp only [BitVec.getElem_xor, BitVec.getElem_and, BitVec.getElem_not]
  grind

theorem parity_eq (w x y : UInt32) :
    (w ^^^ x ^^^ y).toBitVec = Sha1Spec.parity w.toBitVec x.toBitVec y.toBitVec := rfl

theorem maj_eq (w x y : UInt32) :
    (((w ||| x) &&& y) ||| (w &&& x)).toBitVec =
      Sha1Spec.maj w.toBitVec x.toBitVec y.toBitVec := by
  rw [UInt32.toBitVec_or, UInt32.toBitVec_and, UInt32.toBitVec_or, UInt32.toBitVec_and,
    Sha1Spec.maj]
  ext k hk
  simp only [BitVec.getElem_xor, BitVec.getElem_and, BitVec.getElem_or]
  grind

section

attribute [local instance] neZero_five

/-- What stands at statement `i`. -/
def statement (order : ByteOrder) (i : Nat) : Sha1Work → Sha1Work :=
  let k := Fin.ofNat 5 i
  (if i < 16 then R0 order
    else if i < 20 then R1
    else if i < 40 then R2
    else if i < 60 then R3
    else R4) (0 - k) (1 - k) (2 - k) (3 - k) (4 - k) i

end

theorem statements_eq (order : ByteOrder) :
    statements order = (List.range 80).map (statement order) := rfl

/-- Behind statement `i` the variables and the ring stand where the standard stands behind its
step `i`. -/
structure At (order : ByteOrder) (buffer : List UInt8) (i : Nat) (r : Vector HashWord 5)
    (work : Sha1Work) : Prop where
  turned : Turned i work.var r
  expanded : Expanded order buffer i work.l

/-- A statement whose function, constant and word are those of step `i`. -/
theorem At.round {r : Vector HashWord 5} {work : Sha1Work} (h : At order buffer i r work)
    {mix : UInt32 → UInt32 → UInt32 → UInt32}
    {expand : Sha1Work → Nat → UInt32 × (Fin 16 → UInt32)} {constant : UInt32}
    (hmix : ∀ w x y, (mix w x y).toBitVec = Sha1Spec.function i w.toBitVec x.toBitVec y.toBitVec)
    (hconstant : constant.toBitVec = Sha1Spec.constant i)
    (hexpand : (expand work i).1.toBitVec = Sha1Spec.schedule buffer i ∧
      Expanded order buffer (i + 1) (expand work i).2) :
    At order buffer (i + 1) (Sha1Spec.step buffer r i)
      (round mix expand constant (0 - Fin.ofNat 5 i) (1 - Fin.ofNat 5 i) (2 - Fin.ofNat 5 i)
        (3 - Fin.ofNat 5 i) (4 - Fin.ofNat 5 i) i work) where
  turned := by
    intro j
    have hnext : Fin.ofNat 5 (i + 1) = Fin.ofNat 5 i + 1 := by
      apply Fin.ext
      simp only [Fin.val_ofNat, Fin.val_add]
      omega
    have h0 := h.turned 0
    have h1 := h.turned 1
    have h2 := h.turned 2
    have h3 := h.turned 3
    have h4 := h.turned 4
    simp only [Sha1Work.round]
    rw [hnext, update_turned]
    fin_cases j
    · change (work.var (4 - Fin.ofNat 5 i) + (mix (work.var (1 - Fin.ofNat 5 i))
          (work.var (2 - Fin.ofNat 5 i)) (work.var (3 - Fin.ofNat 5 i)) + (expand work i).1 +
          constant + rol (work.var (0 - Fin.ofNat 5 i)) 5)).toBitVec =
        r[0].rotateLeft 5 + Sha1Spec.function i r[1] r[2] r[3] + r[4] + Sha1Spec.constant i +
          Sha1Spec.schedule buffer i
      rw [UInt32.toBitVec_add, UInt32.toBitVec_add, UInt32.toBitVec_add, UInt32.toBitVec_add,
        hmix, hexpand.1, hconstant, toBitVec_rol (by decide) (by decide), h0, h1, h2, h3, h4]
      ac_rfl
    · exact h0
    · change (rol _ _).toBitVec = _
      rw [toBitVec_rol (by decide) (by decide), h1]
      rfl
    · exact h2
    · exact h3
  expanded := hexpand.2

theorem At.statement {r : Vector HashWord 5} {work : Sha1Work} (h : At order buffer i r work)
    (hlen : buffer.length = 64) :
    At order buffer (i + 1) (Sha1Spec.step buffer r i) (statement order i work) := by
  rcases Nat.lt_or_ge i 16 with h16 | h16
  · rw [Sha1Work.statement, if_pos h16]
    apply h.round
    · intro w x y
      rw [ch_eq, Sha1Spec.function, if_pos (by omega)]
    · rw [Sha1Spec.constant, if_pos (by omega)]
      rfl
    · exact h.expanded.blk0 h16 hlen
  · have hblk := h.expanded.blk h16
    rw [Sha1Work.statement, if_neg (by omega)]
    rcases Nat.lt_or_ge i 20 with h20 | h20
    · rw [if_pos h20]
      apply h.round _ _ hblk
      · intro w x y
        rw [ch_eq, Sha1Spec.function, if_pos h20]
      · rw [Sha1Spec.constant, if_pos h20]
        rfl
    · rw [if_neg (by omega)]
      rcases Nat.lt_or_ge i 40 with h40 | h40
      · rw [if_pos h40]
        apply h.round _ _ hblk
        · intro w x y
          rw [parity_eq, Sha1Spec.function, if_neg (by omega), if_pos h40]
        · rw [Sha1Spec.constant, if_neg (by omega), if_pos h40]
          rfl
      · rw [if_neg (by omega)]
        rcases Nat.lt_or_ge i 60 with h60 | h60
        · rw [if_pos h60]
          apply h.round _ _ hblk
          · intro w x y
            rw [maj_eq, Sha1Spec.function, if_neg (by omega), if_neg (by omega), if_pos h60]
          · rw [Sha1Spec.constant, if_neg (by omega), if_neg (by omega), if_pos h60]
            rfl
        · rw [if_neg (by omega)]
          apply h.round _ _ hblk
          · intro w x y
            rw [parity_eq, Sha1Spec.function, if_neg (by omega), if_neg (by omega),
              if_neg (by omega)]
          · rw [Sha1Spec.constant, if_neg (by omega), if_neg (by omega), if_neg (by omega)]
            rfl

/-- Behind any number of statements. -/
theorem At.statements {r : Vector HashWord 5} {work : Sha1Work} (h : At order buffer 0 r work)
    (hlen : buffer.length = 64) (n : Nat) :
    At order buffer n ((List.range n).foldl (Sha1Spec.step buffer) r)
      (((List.range n).map (Sha1Work.statement order)).foldl
        (fun work statement => statement work) work) := by
  induction n with
  | zero => exact h
  | succ n ih =>
    rw [List.range_succ, List.map_append, List.foldl_append, List.foldl_append]
    exact ih.statement hlen

end Sha1Work

/-- The words of a state as those of the standard. -/
def bits (state : Fin 5 → UInt32) : Vector HashWord 5 := Vector.ofFn fun j => (state j).toBitVec

/-- `SHA1Transform` is the compression function of the standard. -/
theorem bits_SHA1Transform {order : ByteOrder} {buffer : List UInt8} (state : Fin 5 → UInt32)
    (hlen : buffer.length = 64) :
    bits (SHA1Transform order state buffer) = Sha1Spec.compress (bits state) buffer := by
  have hstart : Sha1Work.At order buffer 0 (bits state)
      { var := state, l := fun i => wordAt order buffer (4 * i) } :=
    { turned := fun j => by simp [bits]
      expanded := Sha1Work.expanded_zero }
  have hend := hstart.statements hlen 80
  apply Vector.ext
  intro j hj
  have hturned := hend.turned ⟨j, hj⟩
  have hback : (⟨j, hj⟩ : Fin 5) - Fin.ofNat 5 80 = ⟨j, hj⟩ := sub_zero _
  rw [← Sha1Work.statements_eq, hback] at hturned
  simp only [Sha1Spec.compress, bits, Vector.getElem_zipWith, Vector.getElem_ofFn]
  exact congrArg ((state ⟨j, hj⟩).toBitVec + ·) hturned

/-! ## The context -/

/-- The context was fed the message. -/
structure Sha1Ctx.Fed (ctx : Sha1Ctx) (msg : List UInt8) : Prop where
  buffer_length : ctx.buffer.length = 64
  count : ctx.count1.toNat * 2 ^ 32 + ctx.count0.toNat = 8 * msg.length % 2 ^ 64
  hashed : Hashed 64 Sha1Spec.compress Sha1Spec.initial msg (bits ctx.state)
    (ctx.buffer.take (msg.length % 64))

theorem sha1Init_fed {ctx : Sha1Ctx} (hbuffer : ctx.buffer.length = 64) : (sha1Init ctx).Fed [] where
  buffer_length := hbuffer
  count := by simp [sha1Init]
  hashed := by
    have hstate : bits (sha1Init ctx).state = Sha1Spec.initial := rfl
    rw [hstate]
    exact Hashed.start Sha1Spec.initial

variable (order : ByteOrder) {ctx : Sha1Ctx} {msg : List UInt8}

/-- The place in the buffer, as `sha1_update` reads it off the counter. -/
theorem Sha1Ctx.Fed.place (h : ctx.Fed msg) :
    ((ctx.count0 >>> 3) &&& 63).toNat = msg.length % 64 := by
  have hcount := h.count
  have hlt := ctx.count0.toNat_lt
  rw [UInt32.toNat_and, UInt32.toNat_shiftRight, Nat.shiftRight_eq_div_pow]
  change ctx.count0.toNat / 2 ^ 3 &&& (2 ^ 6 - 1) = _
  rw [Nat.and_two_pow_sub_one_eq_mod]
  omega

/-- A sum of words and its carry. -/
theorem add_mod_carry {low r : Nat} (hlow : low < 2 ^ 32) (hr : r < 2 ^ 32) :
    (low + r) % 2 ^ 32 + (if (low + r) % 2 ^ 32 < low then 1 else 0) * 2 ^ 32 = low + r := by
  split_ifs with hcarry <;> omega

theorem mod_mul_add {high low : Nat} (hlow : low < 2 ^ 32) :
    high % 2 ^ 32 * 2 ^ 32 + low = (high * 2 ^ 32 + low) % 2 ^ 64 := by
  omega

theorem mul_eight_mod_add (n : Nat) : n * 8 % 2 ^ 32 + n / 2 ^ 29 * 2 ^ 32 = 8 * n := by
  omega

/-- A count of bits in two words, with eight times `n` added to it. -/
theorem count_add {low high m n : Nat} (h : high * 2 ^ 32 + low = 8 * m % 2 ^ 64)
    (hlow : low < 2 ^ 32) :
    ((if (low + n * 8 % 2 ^ 32) % 2 ^ 32 < low then high + 1 else high) + n / 2 ^ 29) % 2 ^ 32 *
      2 ^ 32 + (low + n * 8 % 2 ^ 32) % 2 ^ 32 = 8 * (m + n) % 2 ^ 64 := by
  have hmod {k : Nat} : k % 2 ^ 32 < 2 ^ 32 := Nat.mod_lt k (by decide)
  have hcarry : (if (low + n * 8 % 2 ^ 32) % 2 ^ 32 < low then high + 1 else high) =
      high + if (low + n * 8 % 2 ^ 32) % 2 ^ 32 < low then 1 else 0 := by
    split_ifs <;> rfl
  have hsum := add_mod_carry hlow (hmod (k := n * 8))
  have hn := mul_eight_mod_add n
  rw [mod_mul_add hmod, hcarry]
  calc ((high + (if (low + n * 8 % 2 ^ 32) % 2 ^ 32 < low then 1 else 0) + n / 2 ^ 29) * 2 ^ 32 +
        (low + n * 8 % 2 ^ 32) % 2 ^ 32) % 2 ^ 64
      = (high * 2 ^ 32 + ((low + n * 8 % 2 ^ 32) % 2 ^ 32 +
          (if (low + n * 8 % 2 ^ 32) % 2 ^ 32 < low then 1 else 0) * 2 ^ 32) +
          n / 2 ^ 29 * 2 ^ 32) % 2 ^ 64 := by ring_nf
    _ = (high * 2 ^ 32 + low + 8 * n) % 2 ^ 64 := by rw [hsum, ← hn]; ring_nf
    _ = 8 * (m + n) % 2 ^ 64 := by rw [h, Nat.mod_add_mod, ← Nat.mul_add]

/-- The counter behind another piece. -/
theorem Sha1Ctx.Fed.count_add (h : ctx.Fed msg) {data : List UInt8} (hdata : data.length < 2 ^ 32) :
    (sha1Count ctx (UInt32.ofNat data.length)).count1.toNat * 2 ^ 32 +
      (sha1Count ctx (UInt32.ofNat data.length)).count0.toNat =
        8 * (msg ++ data).length % 2 ^ 64 := by
  have hlength : (UInt32.ofNat data.length).toNat = data.length := UInt32.toNat_ofNat_of_lt' hdata
  have hlow : (ctx.count0 + (UInt32.ofNat data.length <<< 3)).toNat =
      (ctx.count0.toNat + data.length * 8 % 2 ^ 32) % 2 ^ 32 := by
    rw [UInt32.toNat_add, UInt32.toNat_shiftLeft, hlength, Nat.shiftLeft_eq]
    rfl
  have hhigh : (UInt32.ofNat data.length >>> 29).toNat = data.length / 2 ^ 29 := by
    rw [UInt32.toNat_shiftRight, hlength, Nat.shiftRight_eq_div_pow]
    rfl
  have hcarry : (if ctx.count0 + (UInt32.ofNat data.length <<< 3) < ctx.count0 then ctx.count1 + 1
        else ctx.count1).toNat % 2 ^ 32 =
      (if (ctx.count0.toNat + data.length * 8 % 2 ^ 32) % 2 ^ 32 < ctx.count0.toNat
        then ctx.count1.toNat + 1 else ctx.count1.toNat) % 2 ^ 32 := by
    simp only [UInt32.lt_iff_toNat_lt, hlow]
    split_ifs
    · rw [UInt32.toNat_add, Nat.mod_mod]
      rfl
    · rfl
  rw [sha1Count, UInt32.toNat_add, ← Nat.mod_add_mod, hcarry, Nat.mod_add_mod, hlow, hhigh,
    List.length_append]
  exact Onak.count_add h.count ctx.count0.toNat_lt

/-- A sum that does not overflow. -/
theorem toNat_add_of_lt {a b : UInt32} (h : a.toNat + b.toNat < 2 ^ 32) :
    (a + b).toNat = a.toNat + b.toNat := by
  rw [UInt32.toNat_add, Nat.mod_eq_of_lt h]

theorem toNat_ofNat_length {data : List UInt8} (h : data.length < 2 ^ 32) :
    (UInt32.ofNat data.length).toNat = data.length :=
  UInt32.toNat_ofNat_of_lt' h

/-- The loop over the blocks takes all complete ones. -/
theorem sha1Blocks_hashed {data : List UInt8} {state : Fin 5 → UInt32}
    (hdata : data.length + 64 ≤ 2 ^ 32) (fuel : Nat) {i : UInt32}
    (hfuel : data.length ≤ i.toNat + fuel) (hi : i.toNat ≤ data.length)
    (h : Hashed 64 Sha1Spec.compress Sha1Spec.initial msg (bits state) (data.drop i.toNat)) :
    let r := sha1Blocks order state (UInt32.ofNat data.length) data fuel i
    Hashed 64 Sha1Spec.compress Sha1Spec.initial msg (bits r.1) (data.drop r.2.toNat) ∧
      (data.drop r.2.toNat).length < 64 := by
  induction fuel generalizing state i with
  | zero =>
    refine ⟨h, ?_⟩
    simp only [sha1Blocks, List.length_drop]
    omega
  | succ fuel ih =>
    have h63 : (63 : UInt32).toNat = 63 := rfl
    have h64 : (64 : UInt32).toNat = 64 := rfl
    rw [sha1Blocks]
    split_ifs with hblock
    · rw [UInt32.lt_iff_toNat_lt, toNat_add_of_lt (by omega), h63,
        toNat_ofNat_length (by omega)] at hblock
      have hstep : (i + 64).toNat = i.toNat + 64 := by
        rw [toNat_add_of_lt (by omega), h64]
      have htake : ((data.drop i.toNat).take 64).length = 64 := by
        rw [List.length_take, List.length_drop]
        omega
      apply ih (by omega) (by omega)
      rw [hstep, bits_SHA1Transform state htake,
        ← absorb_block Sha1Spec.compress (bits state) (by decide) htake, ← List.drop_drop]
      apply Hashed.flush
      · rwa [List.take_append_drop]
      · rw [htake]
    · rw [UInt32.lt_iff_toNat_lt, toNat_add_of_lt (by omega), h63,
        toNat_ofNat_length (by omega)] at hblock
      refine ⟨h, ?_⟩
      simp only [List.length_drop]
      omega

theorem length_writeAt {buf octets : List UInt8} {i : Nat} (h : i + octets.length ≤ buf.length) :
    (writeAt buf i octets).length = buf.length := by
  simp only [writeAt, List.length_append, List.length_take, List.length_drop]
  omega

/-- The octets up to the end of what was written. -/
theorem take_writeAt {buf octets : List UInt8} {i : Nat} (hi : i ≤ buf.length) :
    (writeAt buf i octets).take (i + octets.length) = buf.take i ++ octets := by
  have hlen : (buf.take i ++ octets).length = i + octets.length := by
    rw [List.length_append, List.length_take]
    omega
  rw [writeAt, List.take_left' hlen]

@[simp] theorem sha1Count_state (length : UInt32) : (sha1Count ctx length).state = ctx.state := rfl

@[simp] theorem sha1Count_buffer (length : UInt32) :
    (sha1Count ctx length).buffer = ctx.buffer := rfl

/-- The block that the first octets of a piece fill up. -/
theorem Sha1Ctx.Fed.fill (h : ctx.Fed msg) {data : List UInt8}
    (hfull : 64 ≤ msg.length % 64 + data.length) :
    let buffer := writeAt ctx.buffer (msg.length % 64) (data.take (64 - msg.length % 64))
    buffer.length = 64 ∧
      Hashed 64 Sha1Spec.compress Sha1Spec.initial (msg ++ data)
        (bits (SHA1Transform order ctx.state buffer)) (data.drop (64 - msg.length % 64)) := by
  intro buffer
  have hbuffer := h.buffer_length
  have htake : (data.take (64 - msg.length % 64)).length = 64 - msg.length % 64 := by
    rw [List.length_take]
    omega
  have hfront : buffer = ctx.buffer.take (msg.length % 64) ++ data.take (64 - msg.length % 64) := by
    change _ ++ _ ++ _ = _
    rw [List.drop_eq_nil_of_le (by omega), List.append_nil]
  have hlen : buffer.length = 64 := by
    rw [hfront, List.length_append, List.length_take, htake]
    omega
  refine ⟨hlen, ?_⟩
  rw [bits_SHA1Transform _ hlen, ← absorb_block Sha1Spec.compress _ (by decide) hlen]
  apply Hashed.flush
  · rw [hfront, List.append_assoc, List.take_append_drop]
    exact h.hashed.append data
  · rw [hlen]

/-- The octets that are left go to the front of the buffer. -/
theorem fed_of_rest {state : Fin 5 → UInt32} {count0 count1 : UInt32} {buffer rest : List UInt8}
    (hcount : count1.toNat * 2 ^ 32 + count0.toNat = 8 * msg.length % 2 ^ 64)
    (hbuffer : buffer.length = 64)
    (h : Hashed 64 Sha1Spec.compress Sha1Spec.initial msg (bits state) rest)
    (hrest : rest.length < 64) :
    Sha1Ctx.Fed { state, count0, count1, buffer := writeAt buffer 0 rest } msg where
  buffer_length := by
    rw [length_writeAt (by omega), hbuffer]
  count := hcount
  hashed := by
    have htake : (writeAt buffer 0 rest).take (0 + rest.length) = buffer.take 0 ++ rest :=
      take_writeAt (Nat.zero_le buffer.length)
    rw [Nat.zero_add, List.take_zero, List.nil_append] at htake
    rwa [← h.length_pending hrest, htake]

/-- A call of `sha1_update` feeds its octets, if no sum with their number overflows. -/
theorem Sha1Ctx.Fed.update (h : ctx.Fed msg) (data : List UInt8)
    (hdata : data.length + 64 ≤ 2 ^ 32) : (sha1Update order ctx data).Fed (msg ++ data) := by
  have hlt : data.length < 2 ^ 32 := by omega
  have hplace := h.place
  have hbuffer := h.buffer_length
  have hmod := Nat.mod_lt msg.length (show 0 < 64 by decide)
  have hsum : (((ctx.count0 >>> 3) &&& 63) + UInt32.ofNat data.length).toNat =
      msg.length % 64 + data.length := by
    rw [toNat_add_of_lt] <;> rw [hplace, toNat_ofNat_length hlt]
    omega
  have h63 : (63 : UInt32).toNat = 63 := rfl
  rw [sha1Update]
  by_cases hfull : ((ctx.count0 >>> 3) &&& 63) + UInt32.ofNat data.length > 63
  · rw [if_pos hfull]
    rw [gt_iff_lt, UInt32.lt_iff_toNat_lt, hsum, h63] at hfull
    have hi : ((64 : UInt32) - ((ctx.count0 >>> 3) &&& 63)).toNat = 64 - msg.length % 64 := by
      rw [UInt32.toNat_sub_of_le, hplace]
      · rfl
      · rw [UInt32.le_iff_toNat_le, hplace]
        exact le_of_lt hmod
    obtain ⟨hlen, hfilled⟩ := h.fill order hfull
    rw [← hi, ← hplace] at hlen
    rw [← hi, ← hplace] at hfilled
    obtain ⟨hhashed, hrest⟩ := sha1Blocks_hashed order hdata data.length
      (Nat.le_add_left _ _) (by rw [hi]; exact (by omega)) hfilled
    exact fed_of_rest (h.count_add hlt) hlen hhashed hrest
  · rw [if_neg hfull]
    rw [gt_iff_lt, UInt32.lt_iff_toNat_lt, hsum, h63] at hfull
    have hlength : (msg ++ data).length % 64 = msg.length % 64 + data.length := by
      rw [List.length_append]
      omega
    exact
      { buffer_length := by
          rw [hplace, sha1Count_buffer, length_writeAt (by omega), hbuffer]
        count := h.count_add hlt
        hashed := by
          rw [hlength, hplace, sha1Count_buffer, take_writeAt (by omega)]
          exact h.hashed.append data }

/-- A run of calls feeds all octets. -/
theorem Sha1Ctx.Fed.updates (h : ctx.Fed msg) (pieces : List (List UInt8))
    (hpieces : ∀ data ∈ pieces, data.length + 64 ≤ 2 ^ 32) :
    (pieces.foldl (sha1Update order) ctx).Fed (msg ++ pieces.flatten) := by
  induction pieces generalizing ctx msg with
  | nil => rwa [List.flatten_nil, List.append_nil]
  | cons data pieces ih =>
    rw [List.flatten_cons, ← List.append_assoc, List.foldl_cons]
    apply ih (h.update order data (hpieces data (List.mem_cons_self ..)))
    intro other hother
    exact hpieces other (List.mem_cons_of_mem _ hother)

/-! ## The digest -/

/-- A field of a number that is taken in place, and moved down first. -/
theorem and_shiftLeft_eq (m c k : Nat) : c &&& (m <<< k) = ((c >>> k) &&& m) <<< k := by
  apply Nat.eq_of_testBit_eq
  intro i
  simp only [Nat.testBit_and, Nat.testBit_shiftLeft, Nat.testBit_shiftRight]
  by_cases hi : k ≤ i
  · rw [Nat.add_sub_cancel' hi]
    simp [hi]
  · simp [hi]

/-- The test of the loop that writes zeros. -/
theorem Sha1Ctx.Fed.test (h : ctx.Fed msg) :
    ctx.count0 &&& 504 = 448 ↔ msg.length % 64 = 56 := by
  have hplace := h.place
  have hfield : (ctx.count0 &&& 504).toNat = 8 * ((ctx.count0 >>> 3) &&& 63).toNat := by
    rw [UInt32.toNat_and, UInt32.toNat_and, UInt32.toNat_shiftRight]
    apply (and_shiftLeft_eq 63 ctx.count0.toNat 3).trans
    rw [Nat.shiftLeft_eq, Nat.mul_comm]
    rfl
  rw [← UInt32.toNat_inj, hfield, hplace]
  change _ = 448 ↔ _
  omega

/-- The zeros up to the field of the length. -/
theorem Sha1Ctx.Fed.fillZeros (h : ctx.Fed msg) (fuel : Nat)
    (hfuel : (120 - msg.length % 64) % 64 ≤ fuel) :
    (sha1Fill order fuel ctx).Fed
      (msg ++ List.replicate ((120 - msg.length % 64) % 64) 0) := by
  induction fuel generalizing ctx msg with
  | zero =>
    rw [Nat.le_zero.mp hfuel, List.replicate_zero, List.append_nil]
    exact h
  | succ fuel ih =>
    rw [sha1Fill]
    by_cases hend : ctx.count0 &&& 504 = 448
    · have hmod := h.test.mp hend
      rw [if_neg (not_not.mpr hend), hmod]
      rwa [show (120 - 56) % 64 = 0 from rfl, List.replicate_zero, List.append_nil]
    · have hmod := mt h.test.mpr hend
      have hlength : (msg ++ [(0 : UInt8)]).length = msg.length + 1 := List.length_append
      have hless : (120 - msg.length % 64) % 64 = (120 - (msg.length + 1) % 64) % 64 + 1 := by
        omega
      have hrest := ih (h.update order [0] (by simp)) (by rw [hlength]; exact (by omega))
      rw [if_pos hend, hless, List.replicate_succ]
      rwa [hlength, List.append_assoc] at hrest

theorem octetOf_eq (w : UInt32) (i : Nat) :
    octetOf w i = UInt8.ofNat (w.toNat / 2 ^ ((3 - (i &&& 3)) * 8)) := by
  have hshift : (UInt32.ofNat ((3 - (i &&& 3)) * 8)).toNat % 32 = (3 - (i &&& 3)) * 8 := by
    rw [UInt32.toNat_ofNat_of_lt' (show _ < 2 ^ 32 by omega)]
    omega
  apply UInt8.toNat_inj.mp
  rw [octetOf, UInt32.toNat_toUInt8, UInt32.toNat_and, UInt32.toNat_shiftRight, hshift,
    Nat.shiftRight_eq_div_pow, UInt8.toNat_ofNat']
  change (_ &&& (2 ^ 8 - 1)) % 2 ^ 8 = _
  rw [Nat.and_two_pow_sub_one_eq_mod, Nat.mod_mod]

/-- The octets of a word, taken out one by one. -/
theorem octetOf_word (w : UInt32) :
    [octetOf w 0, octetOf w 1, octetOf w 2, octetOf w 3] = bigOctets 4 w.toNat := by
  simp [octetOf_eq, bigOctets, Nat.div_div_eq_div_mul]

theorem bigOctets_mod (n v : Nat) : bigOctets n (v % 256 ^ n) = bigOctets n v := by
  induction n generalizing v with
  | zero => rfl
  | succ n ih =>
    have hlast : UInt8.ofNat (v % 256 ^ (n + 1)) = UInt8.ofNat v := by
      apply UInt8.toNat_inj.mp
      rw [UInt8.toNat_ofNat', UInt8.toNat_ofNat']
      exact Nat.mod_mod_of_dvd v (dvd_pow_self 256 (Nat.succ_ne_zero n))
    rw [bigOctets, bigOctets, hlast, pow_succ', Nat.mod_mul_right_div_self, ih]

theorem bigOctets_eight (v : Nat) : bigOctets 8 v = bigOctets 4 (v / 2 ^ 32) ++ bigOctets 4 v := by
  simp [bigOctets, Nat.div_div_eq_div_mul]

/-- `finalcount` is the number of bits. -/
theorem Sha1Ctx.Fed.finalcount (h : ctx.Fed msg) :
    sha1Finalcount ctx = bigOctets 8 (8 * msg.length) := by
  have hlt := ctx.count0.toNat_lt
  have hhigh : 8 * msg.length % 256 ^ 8 / 2 ^ 32 = ctx.count1.toNat := by
    rw [show 256 ^ 8 = 2 ^ 64 from rfl, ← h.count]
    omega
  have hlow : 8 * msg.length % 256 ^ 8 % 256 ^ 4 = ctx.count0.toNat := by
    rw [show 256 ^ 8 = 2 ^ 64 from rfl, ← h.count]
    omega
  rw [← bigOctets_mod 8, bigOctets_eight, hhigh, ← bigOctets_mod 4 (8 * msg.length % 256 ^ 8), hlow,
    ← octetOf_word, ← octetOf_word]
  rfl

/-- The digest is read off the words of the state. -/
theorem toList_digest (state : Fin 5 → UInt32) :
    (Vector.ofFn fun i : Fin sha1DigestSize =>
      octetOf (state (Fin.ofNat 5 (i.val >>> 2))) i.val).toList =
        (bits state).toList.flatMap fun word => bigOctets 4 word.toNat := by
  have hword (j : Fin 5) : bigOctets 4 (state j).toBitVec.toNat =
      [octetOf (state j) 0, octetOf (state j) 1, octetOf (state j) 2, octetOf (state j) 3] :=
    (octetOf_word (state j)).symm
  simp only [bits, Vector.toList_ofFn, List.ofFn_succ, List.ofFn_zero, List.flatMap_cons,
    List.flatMap_nil, hword]
  rfl

theorem length_finalcount (ctx : Sha1Ctx) : (sha1Finalcount ctx).length = 8 := by
  simp [sha1Finalcount]

/-- `sha1_digest` writes the digest of what the context was fed. -/
theorem Sha1Ctx.Fed.digest (h : ctx.Fed msg) :
    (sha1Digest order ctx).1.toList = Sha1Spec.digest msg := by
  have hmark := h.update order [0x80] (by simp)
  have hlength : (msg ++ [(0x80 : UInt8)]).length = msg.length + 1 := List.length_append
  have hzeros : (120 - (msg ++ [(0x80 : UInt8)]).length % 64) % 64 = padZeros msg.length := by
    rw [hlength, padZeros]
    omega
  have hfilled := hmark.fillZeros order 64 (by omega)
  rw [hzeros] at hfilled
  have hlast := hfilled.update order (sha1Finalcount ctx) (by simp [length_finalcount])
  have hmsg : msg ++ [0x80] ++ List.replicate (padZeros msg.length) 0 ++ sha1Finalcount ctx =
      Sha1Spec.paddedMessage msg := by
    rw [h.finalcount, Sha1Spec.paddedMessage, padded]
    simp only [List.append_assoc, List.cons_append, List.nil_append]
  have hblocks : 64 ∣ (Sha1Spec.paddedMessage msg).length :=
    length_padded (fun length => length_bigOctets 8 (8 * length)) msg
  have hstate := hlast.hashed
  rw [hmsg, Nat.mod_eq_zero_of_dvd hblocks, List.take_zero] at hstate
  rw [Sha1Spec.digest, ← hstate.state_eq]
  exact toList_digest _

/-- However a message is cut into pieces of at most 2³² - 64 octets, and whatever the context held before,
its digest is that of the message. -/
theorem sha1Pieces_eq (ctx : Sha1Ctx) (pieces : List (List UInt8))
    (hbuffer : ctx.buffer.length = 64)
    (hpieces : ∀ data ∈ pieces, data.length + 64 ≤ 2 ^ 32) :
    (sha1Pieces order ctx pieces).toList = Sha1Spec.digest pieces.flatten :=
  ((sha1Init_fed hbuffer).updates order pieces hpieces).digest order

/-- A context with nothing in its buffer yet. -/
def blankCtx : Sha1Ctx where
  state := fun _ => 0
  count0 := 0
  count1 := 0
  buffer := List.replicate 64 0

theorem sha1Pieces_abc :
    (sha1Pieces .little blankCtx [[97], [], [98, 99]]).toList = Sha1Spec.digest [97, 98, 99] :=
  sha1Pieces_eq .little blankCtx [[97], [], [98, 99]] rfl (by simp)

end Onak
