import Onak.Marshal
import Onak.Proofs.CodecProofs

/-!
# Proofs: SKS marshalling

Each element is written behind its length and read by it, so from any source that delivers what was
written the same element comes back and the source is left behind it. An array is read back element
by element.
-/

namespace Onak

open Source

theorem ntohl_htonl {n : Nat} (h : n < 2 ^ 32) : ntohl (htonl n) = n := beNat_four h

theorem toInt32_of_lt {n : Nat} (h : n < 2 ^ 31) : toInt32 n = n := by
  unfold toInt32
  rw [if_pos h]

theorem cString_of_not_mem {string : List UInt8} (h : 0 ∉ string) : cString string = string := by
  unfold cString
  rw [List.takeWhile_eq_self_iff]
  intro c hc
  have hne : c ≠ 0 := fun h0 => h (h0 ▸ hc)
  simpa using hne

/-! ## Elements -/

/-- The octets that `marshal` writes for the elements with `P` are read by `unmarshal` as these
elements. -/
structure Marshals {α : Type} (P : α → Prop) (encode : α → List UInt8)
    (marshal : {τ : Type} → (τ → List UInt8 → τ) → τ → α → τ)
    (unmarshal : {σ : Type} → (σ → Nat → List UInt8 × σ) → σ → Option (Option α × σ)) : Prop where
  write : ∀ {τ : Type} {putchar : τ → List UInt8 → τ}, Gathers putchar → ∀ t x, P x →
    marshal putchar t x = putchar t (encode x)
  read : ∀ {σ : Type} {getchar : σ → Nat → List UInt8 × σ} {R : σ → List UInt8 → Prop},
    Supplies getchar R → ∀ {s l x}, P x → R s (encode x ++ l) →
      ∃ s', unmarshal getchar s = some (some x, s') ∧ R s' l

theorem getUint32_htonl {σ : Type} {getchar : σ → Nat → List UInt8 × σ}
    {R : σ → List UInt8 → Prop} (hR : Supplies getchar R) {s : σ} {n : Nat} {l : List UInt8}
    (hn : n < 2 ^ 32) (hs : R s (htonl n ++ l)) :
    ∃ s', getUint32 getchar s = (some n, s') ∧ R s' l := by
  obtain ⟨s', hget, hs'⟩ := hR.next hs
  have hget' : getchar s 4 = (htonl n, s') := hget
  refine ⟨s', ?_, hs'⟩
  have hlen : (htonl n).length = 4 := rfl
  simp [getUint32, hget', hlen, ntohl_htonl hn]

theorem skshash_marshals :
    Marshals (fun _ => True) (fun hash : Skshash => htonl 16 ++ hash.hash) marshalSkshash
      unmarshalSkshash where
  write := by
    intro τ putchar hput t hash _
    exact hput.append t _ _
  read := by
    intro σ getchar R hR s l hash _ hs
    rw [List.append_assoc] at hs
    obtain ⟨s₁, hlen, hs₁⟩ := getUint32_htonl hR (by decide) hs
    obtain ⟨s₂, hget, hs₂⟩ := hR.next hs₁
    rw [hash.length_hash] at hget
    refine ⟨s₂, ?_, hs₂⟩
    have hof : Skshash.ofOctets hash.hash hash.length_hash.le = hash := by
      obtain ⟨octets, hoctets⟩ := hash
      simp [Skshash.ofOctets, hoctets]
    simp [unmarshalSkshash, hlen, hget, hash.length_hash, hof]

theorem string_marshals :
    Marshals (fun string => 0 ∉ string ∧ string.length < 2 ^ 32 - 1)
      (fun string => htonl string.length ++ string) marshalString unmarshalString where
  write := by
    intro τ putchar hput t string hstring
    have hlen : string.length % 2 ^ 32 = string.length := Nat.mod_eq_of_lt (by omega)
    simp only [marshalString, cString_of_not_mem hstring.1, hlen, List.take_length]
    exact hput.append t _ _
  read := by
    intro σ getchar R hR s l string hstring hs
    rw [List.append_assoc] at hs
    obtain ⟨s₁, hlen, hs₁⟩ := getUint32_htonl hR (by omega) hs
    obtain ⟨s₂, hget, hs₂⟩ := hR.next hs₁
    refine ⟨s₂, ?_, hs₂⟩
    have hroom : ¬ (string.length + 1) % 2 ^ 32 = 0 := by omega
    simp only [unmarshalString, hlen, if_neg hroom, hget]
    simp

/-! ## Arrays -/

section

variable {α : Type} {P : α → Prop} {encode : α → List UInt8}
  {marshal : {τ : Type} → (τ → List UInt8 → τ) → τ → α → τ}
  {unmarshal : {σ : Type} → (σ → Nat → List UInt8 × σ) → σ → Option (Option α × σ)}
  (h : Marshals P encode marshal unmarshal)
include h

theorem Marshals.foldl {τ : Type} {putchar : τ → List UInt8 → τ} (hput : Gathers putchar)
    {xs : List α} (hxs : ∀ x ∈ xs, P x) (t : τ) :
    xs.foldl (marshal putchar) t = putchar t (xs.flatMap encode) := by
  induction xs generalizing t with
  | nil => exact (hput.nil t).symm
  | cons x xs ih =>
    rw [List.foldl_cons, ih fun y hy => hxs y (by simp [hy]), h.write hput t x (hxs x (by simp)),
      hput.append, List.flatMap_cons]

theorem Marshals.unmarshalElems {σ : Type} {getchar : σ → Nat → List UInt8 × σ}
    {R : σ → List UInt8 → Prop} (hR : Supplies getchar R) {xs : List α} (hxs : ∀ x ∈ xs, P x)
    {s : σ} {l : List UInt8} (hs : R s (xs.flatMap encode ++ l)) :
    ∃ s', unmarshalElems getchar unmarshal xs.length s = some (xs.map some, s') ∧ R s' l := by
  induction xs generalizing s with
  | nil => exact ⟨s, rfl, hs⟩
  | cons x xs ih =>
    rw [List.flatMap_cons, List.append_assoc] at hs
    obtain ⟨s₁, hread, hs₁⟩ := h.read hR (hxs x (by simp)) hs
    obtain ⟨s₂, hrest, hs₂⟩ := ih (fun y hy => hxs y (by simp [hy])) hs₁
    refine ⟨s₂, ?_, hs₂⟩
    simp [Onak.unmarshalElems, hread, hrest]

/-- What was marshalled is unmarshalled, with any sink and any source. -/
theorem Marshals.unmarshalArray {σ τ : Type} {putchar : τ → List UInt8 → τ}
    (hput : Gathers putchar) {getchar : σ → Nat → List UInt8 × σ} {R : σ → List UInt8 → Prop}
    (hR : Supplies getchar R) {xs : List α} (hxs : ∀ x ∈ xs, P x) (hlen : xs.length < 2 ^ 31) :
    ∃ octets, (∀ t, marshalArray putchar marshal t xs = putchar t octets) ∧
      ∀ {s l}, R s (octets ++ l) → ∃ s',
        Onak.unmarshalArray getchar unmarshal s = some (some ((xs.length : Int), xs.map some), s') ∧
          R s' l := by
  refine ⟨htonl xs.length ++ xs.flatMap encode, fun t => ?_, fun {s l} hs => ?_⟩
  · unfold marshalArray
    rw [h.foldl hput hxs, hput.append]
  · rw [List.append_assoc] at hs
    obtain ⟨s₁, hsize, hs₁⟩ := getUint32_htonl hR (by omega) hs
    obtain ⟨s₂, helems, hs₂⟩ := h.unmarshalElems hR hxs hs₁
    refine ⟨s₂, ?_, hs₂⟩
    have hsign : ¬ ((xs.length : Int) < 0) := by omega
    simp [Onak.unmarshalArray, hsize, toInt32_of_lt hlen, hsign, helems]

theorem Marshals.roundTrip {xs : List α} (hxs : ∀ x ∈ xs, P x) (hlen : xs.length < 2 ^ 31)
    (t : List UInt8) :
    Onak.unmarshalArray buffer unmarshal (marshalArray (· ++ ·) marshal [] xs ++ t) =
      some (some ((xs.length : Int), xs.map some), t) := by
  obtain ⟨octets, hwrite, hread⟩ := h.unmarshalArray append_gathers buffer_feeds.supplies hxs hlen
  obtain ⟨s', hs, rfl⟩ := hread (s := octets ++ t) rfl
  rw [hwrite, List.nil_append, hs]

end

/-- **Arrays survive marshalling.** An array of hashes, or of strings without NUL octets, is read
back from what was written for it, with its size, and exactly what stands behind it is left. -/
theorem unmarshalArray_marshalArray (t : List UInt8) :
    (∀ xs : List Skshash, xs.length < 2 ^ 31 →
      unmarshalArray buffer unmarshalSkshash (marshalArray (· ++ ·) marshalSkshash [] xs ++ t) =
        some (some ((xs.length : Int), xs.map some), t)) ∧
    ∀ xs : List (List UInt8), xs.length < 2 ^ 31 →
      (∀ x ∈ xs, 0 ∉ x ∧ x.length < 2 ^ 32 - 1) →
      unmarshalArray buffer unmarshalString (marshalArray (· ++ ·) marshalString [] xs ++ t) =
        some (some ((xs.length : Int), xs.map some), t) := by
  constructor
  · intro xs hlen
    exact skshash_marshals.roundTrip (fun _ _ => trivial) hlen t
  · intro xs hlen hxs
    exact string_marshals.roundTrip hxs hlen t

/-- An array of one hash, and one of an empty string and another one, with octets behind them. -/
theorem unmarshalArray_marshalArray_sample :
    unmarshalArray buffer unmarshalSkshash (marshalArray (· ++ ·) marshalSkshash []
        [⟨List.replicate 16 7, rfl⟩] ++ [1, 2]) =
      some (some (1, [some ⟨List.replicate 16 7, rfl⟩]), [1, 2]) ∧
    unmarshalArray buffer unmarshalString (marshalArray (· ++ ·) marshalString [] [[], [65, 66]] ++
        [1, 2]) = some (some (2, [some [], some [65, 66]]), [1, 2]) :=
  ⟨(unmarshalArray_marshalArray [1, 2]).1 [⟨List.replicate 16 7, rfl⟩] (by decide),
    (unmarshalArray_marshalArray [1, 2]).2 [[], [65, 66]] (by decide) (by decide)⟩

/-! ## Arrays of hashes that are cut short -/

/-- A hash is completely there: its length, which is not above the size of a hash, and so many
octets. -/
def ElemPresent (octets : List UInt8) : Prop :=
  4 ≤ octets.length ∧ ntohl (octets.take 4) ≤ 16 ∧
    ntohl (octets.take 4) ≤ (octets.drop 4).length

/-- So many hashes are completely there, one behind the other. -/
def ElemsPresent : Nat → List UInt8 → Prop
  | 0, _ => True
  | n + 1, octets =>
    ElemPresent octets ∧ ElemsPresent n ((octets.drop 4).drop (ntohl (octets.take 4)))

/-- The number of elements is there, and every element is. -/
def ArrayPresent (octets : List UInt8) : Prop :=
  4 ≤ octets.length ∧ ElemsPresent (ntohl (octets.take 4)) (octets.drop 4)

/-- `unmarshal_array` with `unmarshal_skshash` gives nothing, or as many elements as it says, all of them
there; and nothing for an array that is cut short. -/
def RefusesMalformed (octets : List UInt8) : Prop :=
  ∃ result rest, unmarshalArray buffer unmarshalSkshash octets = some (result, rest) ∧
    (∀ size array, result = some (size, array) →
      0 ≤ size ∧ (array.length : Int) = size ∧ none ∉ array) ∧
    (¬ ArrayPresent octets → result = none)

theorem getUint32_buffer (octets : List UInt8) :
    getUint32 buffer octets =
      (if 4 ≤ octets.length then some (ntohl (octets.take 4)) else none, octets.drop 4) := by
  unfold getUint32 buffer
  simp only [List.length_take]
  split_ifs with hne hle hle
  · omega
  · rfl
  · rfl
  · omega

theorem unmarshalSkshash_buffer (octets : List UInt8) :
    ∃ elem rest, unmarshalSkshash buffer octets = some (elem, rest) ∧
      (elem ≠ none ↔ ElemPresent octets) ∧
      (ElemPresent octets → rest = (octets.drop 4).drop (ntohl (octets.take 4))) := by
  unfold unmarshalSkshash ElemPresent
  rw [getUint32_buffer]
  by_cases hfour : 4 ≤ octets.length
  · simp only [hfour, if_true]
    by_cases hlong : 16 < ntohl (octets.take 4)
    · refine ⟨none, octets.drop 4, by simp [hlong], ?_, ?_⟩
      · simp [hlong]
      · intro h
        exact absurd h.2.1 (by omega)
    · by_cases hall : ntohl (octets.take 4) ≤ (octets.drop 4).length
      · have hlen : ((octets.drop 4).take (ntohl (octets.take 4))).length =
            ntohl (octets.take 4) := List.length_take_of_le hall
        refine ⟨some (Skshash.ofOctets _ (length_le_of_eq hlen hlong)), _, ?_, ?_, fun _ => rfl⟩
        · rw [dif_neg hlong]
          exact dif_pos hlen
        · simp [Nat.not_lt.mp hlong, List.length_drop ▸ hall]
      · have hlen : ((octets.drop 4).take (ntohl (octets.take 4))).length ≠
            ntohl (octets.take 4) := by
          rw [List.length_take]
          omega
        refine ⟨none, (octets.drop 4).drop (ntohl (octets.take 4)), ?_, ?_, fun _ => rfl⟩
        · rw [dif_neg hlong]
          exact dif_neg hlen
        · simp only [ne_eq, not_true_eq_false, false_iff]
          exact fun h => hall h.2.2
  · exact ⟨none, octets.drop 4, by simp [hfour], by simp [hfour], fun h => absurd h.1 hfour⟩

/-- The elements are all there if and only if they are present in the input. -/
theorem unmarshalElems_buffer (n : Nat) (octets : List UInt8) :
    ∃ array rest, unmarshalElems buffer unmarshalSkshash n octets = some (array, rest) ∧
      array.length = n ∧ (none ∉ array ↔ ElemsPresent n octets) := by
  induction n generalizing octets with
  | zero => exact ⟨[], octets, rfl, rfl, by simp [ElemsPresent]⟩
  | succ n ih =>
    obtain ⟨elem, rest, helem, hpresent, hrest⟩ := unmarshalSkshash_buffer octets
    obtain ⟨array, rest', harray, hlen, hall⟩ := ih rest
    refine ⟨elem :: array, rest', ?_, by rw [List.length_cons, hlen], ?_⟩
    · rw [unmarshalElems, helem]
      simp [harray]
    · have helem : ¬ none = elem ↔ ElemPresent octets := by rw [← hpresent, ne_eq, eq_comm]
      rw [List.mem_cons, not_or, ElemsPresent, hall, helem]
      exact and_congr_right fun h => by rw [hrest h]

theorem toInt32_neg_iff {n : Nat} (h : n < 2 ^ 32) : toInt32 n < 0 ↔ 2 ^ 31 ≤ n := by
  unfold toInt32
  split_ifs <;> omega

theorem ntohl_take_lt (octets : List UInt8) : ntohl (octets.take 4) < 2 ^ 32 :=
  calc
    ntohl (octets.take 4) < 256 ^ (octets.take 4).length := beNat_lt _
    _ ≤ 256 ^ 4 := Nat.pow_le_pow_right (by decide) (List.length_take_le _ _)

/-- The three ways of `unmarshal_array`. -/
theorem unmarshalArray_buffer (octets : List UInt8) :
    unmarshalArray buffer unmarshalSkshash octets =
      if octets.length < 4 ∨ 2 ^ 31 ≤ ntohl (octets.take 4) then
        some (none, octets.drop 4)
      else
        (unmarshalElems buffer unmarshalSkshash (ntohl (octets.take 4)) (octets.drop 4)).map
          fun (array, rest) => (some ((ntohl (octets.take 4) : Int), array), rest) := by
  unfold unmarshalArray
  rw [getUint32_buffer]
  by_cases hfour : 4 ≤ octets.length
  · have hshort : ¬ octets.length < 4 := by omega
    simp only [hfour, if_true, toInt32_neg_iff (ntohl_take_lt octets), hshort, false_or]
    split_ifs with hbig
    · rfl
    · rw [toInt32_of_lt (Nat.not_le.mp hbig), Int.toNat_natCast]
      cases unmarshalElems buffer unmarshalSkshash (ntohl (octets.take 4)) (octets.drop 4) <;> rfl
  · simp [hfour, Nat.not_le.mp hfour]

/-- **When malformed hash queries are refused.** For every byte string: `unmarshal_array` with
`unmarshal_skshash` gives nothing or a complete array, and nothing where the count or an element is not
completely there, if and only if the count is not there, or is `2 ^ 31` at least, or is there with all
its elements. -/
theorem unmarshalArray_refuses_iff (octets : List UInt8) :
    RefusesMalformed octets ↔
      octets.length < 4 ∨ 2 ^ 31 ≤ ntohl (octets.take 4) ∨ ArrayPresent octets := by
  unfold RefusesMalformed
  rw [unmarshalArray_buffer, ← or_assoc]
  split_ifs with hnull
  · simp only [hnull, true_or, iff_true]
    refine ⟨none, _, rfl, ?_, fun _ => rfl⟩
    intro size array heq
    cases heq
  · obtain ⟨array, rest, helems, hlen, hall⟩ :=
      unmarshalElems_buffer (ntohl (octets.take 4)) (octets.drop 4)
    have hpresent : none ∉ array ↔ ArrayPresent octets := by
      rw [hall, ArrayPresent]
      exact (and_iff_right (by omega)).symm
    rw [helems, ← hpresent]
    constructor
    · rintro ⟨result, _, heq, hgood, -⟩
      cases heq
      exact .inr (hgood _ _ rfl).2.2
    · rintro (hcontra | harray)
      · exact absurd hcontra hnull
      · refine ⟨_, _, rfl, ?_, fun hnot => absurd harray hnot⟩
        intro size array' heq
        cases heq
        exact ⟨Int.natCast_nonneg _, by rw [hlen], harray⟩

/-- The count of an array of one hash, without the hash. -/
theorem unmarshalArray_null_element : ¬ RefusesMalformed [0, 0, 0, 1] := by
  rintro ⟨result, rest, heq, -, hrefused⟩
  have hrun : unmarshalArray buffer unmarshalSkshash [0, 0, 0, 1] = some (some (1, [none]), []) := by
    decide
  have hshort : ¬ ArrayPresent [0, 0, 0, 1] := fun h => absurd h.2.1.1 (by decide)
  rw [hrun, hrefused hshort] at heq
  cases heq

end Onak
