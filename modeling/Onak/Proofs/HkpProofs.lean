import Onak.CgiPrograms
import Onak.Hkp
import Onak.Proofs.CgiProofs
import Onak.Proofs.DearmorProofs
import Onak.Proofs.KeydSocketProofs
import Onak.Proofs.UploadProofs

/-!
# Proofs: keys from one keyserver to another

What `hkp_store_key` posts is what `add` takes, and what `lookup` hands out is what
`hkp_fetch_key_fp` takes.
-/

namespace Onak.Hkp

open Print
open Cgi (Environment FormOctet FormText FormPair FormOf Brings getcgivars keytext addText
  dearmoredKeys)
open Conf (hexValue)
open Socket (Memory Sendable zeroMemory sampleAl_sendable)

/-! ## Escapes -/

/-- An octet that libcurl leaves alone. -/
def Unreserved (c : UInt8) : Prop :=
  'A'.toUInt8 ≤ c ∧ c ≤ 'Z'.toUInt8 ∨ 'a'.toUInt8 ≤ c ∧ c ≤ 'z'.toUInt8 ∨
    '0'.toUInt8 ≤ c ∧ c ≤ '9'.toUInt8 ∨ c = '-'.toUInt8 ∨ c = '.'.toUInt8 ∨ c = '_'.toUInt8 ∨
    c = '~'.toUInt8

instance (c : UInt8) : Decidable (Unreserved c) := inferInstanceAs (Decidable (_ ∨ _))

/-- What libcurl makes of an octet. -/
inductive Escaped (c : UInt8) : List UInt8 → Prop
  | keep : Unreserved c → Escaped c [c]
  | escape {h l : UInt8} {high low : Nat} : ¬ Unreserved c → hexValue h = some high →
      hexValue l = some low → c.toNat = 16 * high + low → Escaped c ['%'.toUInt8, h, l]

/-- What libcurl says of `curl_easy_escape`. -/
def EscapesUrl (escape : List UInt8 → List UInt8) : Prop :=
  ∀ s, ∃ pieces, List.Forall₂ Escaped s pieces ∧ escape s = pieces.flatten

theorem Unreserved.kept {c : UInt8} (h : Unreserved c) : Cgi.Kept c := by
  refine ⟨?_, ?_, ?_, ?_, ?_⟩
  all_goals
    rintro rfl
    exact absurd h (by decide)

theorem Escaped.formOctet {c : UInt8} {written : List UInt8} (h : Escaped c written) (h0 : c ≠ 0) :
    FormOctet c written := by
  cases h with
  | keep hc =>
    obtain ⟨-, hpercent, hplus, hamp, heq⟩ := hc.kept
    exact .keep h0 hpercent hplus hamp heq
  | escape _ hhigh hlow hc => exact .escape h0 hhigh hlow hc

/-- A text that is escaped may stand in a form. -/
theorem formText_escaped {text : List UInt8} {pieces : List (List UInt8)}
    (h : List.Forall₂ Escaped text pieces) (h0 : 0 ∉ text) : FormText text pieces.flatten := by
  have hne : ∀ c ∈ text, c ≠ 0 := by
    rintro c hc rfl
    exact h0 hc
  have hboth := (List.forall₂_and_left _ _).mpr ⟨hne, h⟩
  exact ⟨pieces, hboth.imp fun c piece hc => hc.2.formOctet hc.1, rfl⟩

/-- What libcurl leaves alone stays in front. -/
theorem escaped_unreserved {name rest : List UInt8} {pieces : List (List UInt8)}
    (hname : ∀ c ∈ name, Unreserved c) (h : List.Forall₂ Escaped (name ++ rest) pieces) :
    ∃ behind, List.Forall₂ Escaped rest behind ∧ pieces.flatten = name ++ behind.flatten := by
  induction name generalizing pieces with
  | nil => exact ⟨pieces, h, rfl⟩
  | cons c name ih =>
    rw [List.cons_append] at h
    cases h with
    | @cons _ piece _ pieces hc hrest =>
      obtain ⟨behind, hbehind, hflatten⟩ :=
        ih (fun d hd => hname d (List.mem_cons_of_mem _ hd)) hrest
      have hpiece : piece = [c] := by
        cases hc with
        | keep => rfl
        | escape hnot => exact absurd (hname c (List.mem_cons_self ..)) hnot
      refine ⟨behind, hbehind, ?_⟩
      rw [List.flatten_cons, hflatten, hpiece]
      rfl

/-- The name of a field that is written with its text: the `z` behind the name becomes the equals
sign. -/
theorem formPair_escape {escape : List UInt8 → List UInt8} (hescape : EscapesUrl escape)
    {name text : List UInt8} {z : UInt8} (hname : ∀ c ∈ name, Unreserved c) (hz : Unreserved z)
    (h0 : 0 ∉ text) :
    FormPair (name, text) ((escape (name ++ z :: text)).set name.length '='.toUInt8) := by
  obtain ⟨pieces, hpieces, heq⟩ := hescape (name ++ z :: text)
  have hfront : ∀ c ∈ name ++ [z], Unreserved c := by
    intro c hc
    rcases List.mem_append.mp hc with hc | hc
    · exact hname c hc
    · exact List.mem_singleton.mp hc ▸ hz
  rw [List.append_cons] at hpieces
  obtain ⟨behind, hbehind, hflatten⟩ := escaped_unreserved hfront hpieces
  refine ⟨name, behind.flatten, .self fun c hc => (hname c hc).kept, formText_escaped hbehind h0, ?_⟩
  rw [heq, hflatten, List.append_assoc, List.set_append_right _ _ (Nat.le_refl _), Nat.sub_self]
  rfl

/-! ## The characters of an armored text -/

theorem encode64_ne_zero (c : UInt8) : encode64 c ≠ 0 := by
  intro h
  have h' := congrArg UInt8.toNat h
  unfold encode64 at h'
  split_ifs at h' with h1 h2 h3
  · have hle : c.toNat ≤ 25 := h1
    rw [UInt8.toNat_add] at h'
    have hA : 'A'.toUInt8.toNat = 65 := rfl
    have h0 : (0 : UInt8).toNat = 0 := rfl
    omega
  · have hlow : 26 ≤ c.toNat := h2.1
    have hle : c.toNat ≤ 51 := h2.2
    have ha : ('a'.toUInt8 - 26).toNat = 71 := rfl
    have h0 : (0 : UInt8).toNat = 0 := rfl
    rw [UInt8.toNat_add] at h'
    omega
  · have hlow : 52 ≤ c.toNat := h3.1
    have hle : c.toNat ≤ 61 := h3.2
    have h0' : ('0'.toUInt8 - 52).toNat = 252 := rfl
    have h0 : (0 : UInt8).toNat = 0 := rfl
    rw [UInt8.toNat_add] at h'
    omega
  · exact absurd h' (by decide)
  · exact absurd h' (by decide)
  · exact absurd h' (by decide)

theorem zero_notMem_breakAt (count : Nat) : 0 ∉ breakAt count := by
  unfold breakAt
  split_ifs <;> decide

theorem zero_notMem_armorChars (curoctet : Nat) (lastoctet c : UInt8) :
    0 ∉ armorChars curoctet lastoctet c := by
  intro hmem
  obtain _ | _ | _ | curoctet := curoctet
  all_goals
    simp only [armorChars, List.mem_cons, List.not_mem_nil, or_false] at hmem
  · exact encode64_ne_zero _ hmem.symm
  · exact encode64_ne_zero _ hmem.symm
  · rcases hmem with hmem | hmem
    · exact encode64_ne_zero _ hmem.symm
    · exact encode64_ne_zero _ hmem.symm

theorem zero_notMem_armorFinish {state : ArmorContext} (h : 0 ∉ state.text) :
    0 ∉ (armorFinish state).text := by
  have hpad : 0 ∉ padChars state.curoctet state.lastoctet := by
    unfold padChars
    split
    all_goals
      simp only [List.mem_cons, List.not_mem_nil, or_false, not_or]
    · exact ⟨(encode64_ne_zero _).symm, by decide, by decide⟩
    · exact ⟨(encode64_ne_zero _).symm, by decide⟩
    · exact not_false
  have hbreaks : ∀ count, 0 ∉ padBreaks state.curoctet count := by
    intro count hmem
    unfold padBreaks at hmem
    rcases List.mem_append.mp hmem with hmem | hmem
    · split_ifs at hmem
      · exact zero_notMem_breakAt count hmem
      · exact absurd hmem List.not_mem_nil
    · split_ifs at hmem
      · exact absurd hmem (by decide)
      · exact absurd hmem List.not_mem_nil
  have hcrc : ∀ crc24, 0 ∉ '='.toUInt8 :: crc24Chars crc24 ++ ['\n'.toUInt8] := by
    intro crc24
    simp only [crc24Chars, List.cons_append, List.nil_append, List.mem_cons, List.not_mem_nil,
      or_false, not_or]
    exact ⟨by decide, (encode64_ne_zero _).symm, (encode64_ne_zero _).symm,
      (encode64_ne_zero _).symm, (encode64_ne_zero _).symm, by decide⟩
  rw [armorFinish_eq]
  simp only [List.mem_append, not_or] at hcrc ⊢
  exact ⟨h, hpad, hbreaks _, hcrc _⟩

/-- An armored text is a string. -/
theorem zero_notMem_armored {ps : List Packet} (hps : ∀ p ∈ ps, p.WellFormed) :
    0 ∉ armorOpenpgpStream ps := by
  obtain ⟨l, hl⟩ := streamOctets_of_wellFormed hps
  have hchars : ∀ (l : List UInt8) (state : ArmorContext), 0 ∉ state.text →
      0 ∉ (l.foldl armorPutcharInt state).text := by
    intro l
    induction l with
    | nil => exact fun state h => h
    | cons c l ih =>
      intro state h
      refine ih _ ?_
      rw [armorPutcharInt_eq]
      simp only [List.mem_append, not_or]
      exact ⟨h, zero_notMem_armorChars _ _ _, zero_notMem_breakAt _⟩
  rw [armorOpenpgpStream, armorContext_eq hl, List.mem_append, not_or]
  exact ⟨zero_notMem_armorFinish (hchars l _ (by decide)), by decide⟩

/-! ## Keys that are armored -/

theorem wellFormed_flatten {keys : List PublicKey} (h : ∀ key ∈ keys, Sendable key) :
    ∀ p ∈ flattenPublickey keys, p.WellFormed := by
  intro p hp
  obtain ⟨key, hkey, hp⟩ := List.mem_flatMap.mp hp
  exact (h key hkey).packets p hp

/-- The keys come back from their armor, whatever lies behind it. -/
theorem parseKeys_armored {keys : List PublicKey} (h : ∀ key ∈ keys, Sendable key) (memory : Memory)
    (behind : List UInt8) (publickey : List PublicKey) :
    parseKeys memory.sig (dearmoredPackets memory.packet
        (armorOpenpgpStream (flattenPublickey keys) ++ behind)) publickey =
      ⟨true, publickey ++ keys.map reread, keys.length⟩ := by
  rw [dearmoredPackets_armored _ (wellFormed_flatten h), parseKeys, Socket.parseLoop_sendable h,
    Nat.zero_add]

/-! ## Pushing -/

section

variable (H : Hashes) (g : Stale) (C : SigCheck) {B : Backend} (D : B.DB → Lookups)
  (config : Conf.Config) (memory : Memory)

/-- What `add` does with the text of some keys. -/
theorem addText_armored {keys : List PublicKey} (h : ∀ key ∈ keys, Sendable key) (hne : keys ≠ [])
    (db : B.DB) :
    addText H g C D config memory db (armorOpenpgpStream (flattenPublickey keys)) =
      upload H g C D db
        { keys := keys.map reread
          policies := Cgi.policiesOf config
          blacklist := config.blacklist
          updateonly := config.cleanPolicies .updateOnly
          sendsync := true } := by
  have hpackets := dearmoredPackets_armored memory.packet (wellFormed_flatten h) []
  have hkeys := parseKeys_armored h memory [] []
  rw [List.append_nil] at hpackets hkeys
  have hnot : flattenPublickey keys ≠ [] := by
    obtain ⟨key, rest, rfl⟩ := List.exists_cons_of_ne_nil hne
    simp [flattenPublickey, flattenKey]
  rw [addText, hpackets, if_neg hnot, dearmoredKeys, hkeys]
  rfl

/-- **A push is an upload.** However libcurl escapes the text and whichever request brings it, what
`hkp_store_key` posts for some keys, at least one, is for the keyserver that gets it an upload of the
keys, as long as its length and the zero behind it are an `int`. -/
theorem add_addform {escape : List UInt8 → List UInt8} (hescape : EscapesUrl escape)
    {keys : List PublicKey} (h : ∀ key ∈ keys, Sendable key) (hne : keys ≠ [])
    {env : Environment} (hbrings : Brings env (addform escape keys))
    (hfits : (addform escape keys).length < 2 ^ 31 - 1) (db : B.DB) :
    Cgi.add H g C D config memory env db =
      some (upload H g C D db
        { keys := keys.map reread
          policies := Cgi.policiesOf config
          blacklist := config.blacklist
          updateonly := config.cleanPolicies .updateOnly
          sendsync := true }) := by
  have hname : ∀ c ∈ ascii "keytext", Unreserved c := by
    set_option maxRecDepth 4000 in decide
  have hpair : FormPair (ascii "keytext", armorOpenpgpStream (flattenPublickey keys))
      (addform escape keys) :=
    formPair_escape hescape hname (by decide)
      (zero_notMem_armored (wellFormed_flatten h))
  have hform : FormOf [(ascii "keytext", armorOpenpgpStream (flattenPublickey keys))]
      (addform escape keys) := ⟨_, .cons hpair .nil, (List.intercalate_singleton ..).symm⟩
  have htext : keytext [(ascii "keytext", armorOpenpgpStream (flattenPublickey keys))] =
      some (armorOpenpgpStream (flattenPublickey keys)) := rfl
  have hvars : getcgivars env =
      some (.list [(ascii "keytext", armorOpenpgpStream (flattenPublickey keys))]) := by
    rw [hbrings.getcgivars hform.zero_notMem hfits, Cgi.splitInput_form hform (by omega)]
    rfl
  rw [Cgi.add, hvars]
  simp only [Option.bind_eq_bind, Option.bind_some, htext]
  rw [addText_armored H g C D config memory h hne]
  rfl

end

/-! ## Samples -/

/-- Escapes with capital digits. -/
def sampleEscape (s : List UInt8) : List UInt8 :=
  s.flatMap fun c => if Unreserved c then [c] else '%'.toUInt8 :: hexOctet c

theorem hexValue_hexDigit {d : Nat} (h : d < 16) : hexValue (hexDigit d) = some d := by
  have hall : ∀ d : Fin 16, hexValue (hexDigit d) = some d.val := by decide
  exact hall ⟨d, h⟩

theorem sampleEscape_escapes : EscapesUrl sampleEscape := by
  intro s
  refine ⟨s.map fun c => if Unreserved c then [c] else '%'.toUInt8 :: hexOctet c, ?_, rfl⟩
  rw [List.forall₂_map_right_iff, List.forall₂_same]
  intro c _
  have hlt := c.toNat_lt
  split_ifs with hc
  · exact .keep hc
  · exact .escape hc (hexValue_hexDigit (d := c.toNat / 16) (by omega))
      (hexValue_hexDigit (d := c.toNat % 16) (by omega)) (by omega)

/-- A request that posts a form. -/
def samplePost (form : List UInt8) : Environment where
  argument := none
  requestMethod := some (ascii "POST")
  queryString := none
  contentType := none
  contentLength := some (decimal form.length)
  stdin := form

/-- The only key of a list is pushed. -/
theorem add_addform_sample :
    Cgi.add sampleSksHashes zeroStale noCheck (B := db4 sampleSksHashes) noLookups Conf.fresh
        zeroMemory (samplePost (addform sampleEscape [sampleAl])) emptyDb4 =
      some (upload sampleSksHashes zeroStale noCheck noLookups emptyDb4
        { keys := [sampleAl].map reread
          policies := Cgi.policiesOf Conf.fresh
          blacklist := Conf.fresh.blacklist
          updateonly := Conf.fresh.cleanPolicies .updateOnly
          sendsync := true }) := by
  have hsend : ∀ key ∈ [sampleAl], Sendable key := by
    intro key hkey
    rw [List.mem_singleton.mp hkey]
    exact sampleAl_sendable
  obtain ⟨hform, hfits⟩ : addform sampleEscape [sampleAl] ≠ [] ∧
      (addform sampleEscape [sampleAl]).length < 2 ^ 31 - 1 := by decide +kernel
  have hbrings : Brings (samplePost (addform sampleEscape [sampleAl]))
      (addform sampleEscape [sampleAl]) :=
    .body rfl (fun type h => absurd h (by simp [samplePost])) rfl hform ⟨[], List.append_nil _⟩
  exact add_addform sampleSksHashes zeroStale noCheck (B := db4 sampleSksHashes) noLookups Conf.fresh
    zeroMemory sampleEscape_escapes hsend (List.cons_ne_nil _ _) hbrings hfits emptyDb4

end Onak.Hkp
