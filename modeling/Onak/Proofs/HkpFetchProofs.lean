import Onak.Proofs.CleanOriginProofs
import Onak.Proofs.HkpProofs

/-!
# Proofs: keys that are fetched from another keyserver

What `lookup` is asked for by the requests of `keydb_hkp.c`, and what becomes of its answers.
-/

namespace Onak.Hkp

open Print
open Cgi (FormPair FormOf FormText Brings Environment LookupParams lookupStart searchFp strtoull xdigit
  hexDigits)
open Socket (Memory Sendable Query KeyFiles maxFingerprintLen zeroMemory sampleServer
  sampleAl_sendable)

/-! ## The web server -/

/-- What a URL has behind its question mark. -/
def queryOf (url : List UInt8) : List UInt8 := (url.dropWhile (· ≠ '?'.toUInt8)).drop 1

/-- What a CGI program prints behind the first empty line. -/
def cgiBody : List UInt8 → List UInt8
  | [] => []
  | c :: text =>
    if c = '\n'.toUInt8 ∧ text.head? = some '\n'.toUInt8 then text.drop 1 else cgiBody text

/-- The requests for the URLs bring back, in pieces, what the program prints for their queries. -/
def Serves (program : Environment → Option (List UInt8))
    (get : List UInt8 → Option (List (List UInt8))) : Prop :=
  ∀ url, ∃ env, Brings env (queryOf url) ∧
    ∀ out, program env = some out → ∃ pieces, get url = some pieces ∧ pieces.flatten = cgiBody out

theorem queryOf_append {base path : List UInt8} (h : '?'.toUInt8 ∉ base) (query : List UInt8)
    (hpath : '?'.toUInt8 ∉ path) : queryOf (base ++ (path ++ '?'.toUInt8 :: query)) = query := by
  have hne : ∀ c ∈ base ++ path, decide (c ≠ '?'.toUInt8) = true := by
    intro c hc
    apply decide_eq_true
    rintro rfl
    rcases List.mem_append.mp hc with hc | hc
    · exact h hc
    · exact hpath hc
  rw [queryOf, ← List.append_assoc, List.dropWhile_append_of_pos hne,
    List.dropWhile_cons_of_neg (by decide)]
  rfl

theorem cgiBody_line {line : List UInt8} (h : '\n'.toUInt8 ∉ line) (text : List UInt8) :
    cgiBody (line ++ text) = cgiBody text := by
  induction line with
  | nil => rfl
  | cons c line ih =>
    rw [List.mem_cons, not_or] at h
    rw [List.cons_append, cgiBody, if_neg fun hc => h.1 hc.1.symm]
    exact ih h.2

theorem cgiBody_next {c : UInt8} (h : c ≠ '\n'.toUInt8) (text : List UInt8) :
    cgiBody ('\n'.toUInt8 :: c :: text) = cgiBody (c :: text) := by
  rw [cgiBody, if_neg fun hc => h (Option.some.inj hc.2)]

theorem cgiBody_end (text : List UInt8) : cgiBody ('\n'.toUInt8 :: '\n'.toUInt8 :: text) = text := by
  rw [cgiBody, if_pos ⟨rfl, rfl⟩]
  rfl

/-! ## The base of the URLs -/

theorem scanPort_lt {s : List UInt8} {port : Nat} (h : scanPort s = some port) : port < 2 ^ 32 := by
  unfold scanPort at h
  split_ifs at h with hcolon
  · obtain ⟨hfits, h⟩ := Url.of_guard_then h
    obtain rfl := Option.some.inj h
    have hsigned : ∀ (sign : Prop) [Decidable sign] (n : Nat), n < 2 ^ 32 →
        (if sign then (2 ^ 32 - n) % 2 ^ 32 else n) < 2 ^ 32 := by
      intro sign _ n hn
      split_ifs
      · exact Nat.mod_lt _ (by decide)
      · exact hn
    exact hsigned _ _ hfits
  · exact Option.some.inj h ▸ by decide

/-- A host is made of the characters of a host, and fits. -/
theorem scanHost_plain {s host : List UInt8} {port : Nat} (h : scanHost s = some (host, port)) :
    (∀ c ∈ host, hostChar c = true) ∧ host.length < 256 ∧ port < 2 ^ 32 := by
  have hall : ∀ c ∈ (s.take 256).takeWhile hostChar, hostChar c = true :=
    fun c hc => List.mem_takeWhile_imp hc
  unfold scanHost at h
  by_cases hfits : ((s.take 256).takeWhile hostChar).length < 256
  · simp only [Url.guard_then hfits, Option.bind_eq_bind] at h
    split_ifs at h with hnil
    · obtain ⟨rfl, rfl⟩ := Prod.mk.inj (Option.some.inj h)
      exact ⟨hall, hfits, by decide⟩
    · obtain ⟨port', hport, h⟩ := Option.bind_eq_some_iff.mp h
      obtain ⟨rfl, rfl⟩ := Prod.mk.inj (Option.some.inj h)
      exact ⟨hall, hfits, scanPort_lt hport⟩
  · simp [guard, hfits] at h

theorem length_decimal_port {port : Nat} (h : port < 2 ^ 32) : (decimal port).length ≤ 10 := by
  rw [decimal, List.length_map]
  exact Nat.toDigits_length 10 port 10 (by decide) (by omega)

theorem not_mem_decimal (port : Nat) : '?'.toUInt8 ∉ decimal port := by
  intro hmem
  exact absurd (isDigit_of_mem_decimal hmem).2 (by decide)

theorem hkpbase_plain {proto host base : List UInt8} {port : Nat}
    (hhost : ∀ c ∈ host, hostChar c = true) (hlen : host.length < 256) (hport : port < 2 ^ 32)
    (h : hkpbase proto host port = some base) : '?'.toUInt8 ∉ base ∧ base.length < 300 := by
  have hmark : '?'.toUInt8 ∉ host := fun hmem => absurd (hhost _ hmem) (by decide)
  have hurl : ∀ {proto : List UInt8} {port : Nat}, '?'.toUInt8 ∉ proto → proto.length ≤ 5 →
      port < 2 ^ 32 →
      '?'.toUInt8 ∉ proto ++ (ascii "://" ++ (host ++ ':'.toUInt8 :: (decimal port ++ ascii "/pks"))) ∧
        (proto ++ (ascii "://" ++ (host ++ ':'.toUInt8 :: (decimal port ++ ascii "/pks")))).length <
          300 := by
    intro proto port hproto hshort hport
    have hdigits := length_decimal_port hport
    have hseparator : '?'.toUInt8 ∉ ascii "://" ∧ (ascii "://").length = 3 := by decide
    have hpath : '?'.toUInt8 ∉ ascii "/pks" ∧ (ascii "/pks").length = 4 := by decide
    simp only [List.mem_append, List.mem_cons, not_or, List.length_append, List.length_cons]
    exact ⟨⟨hproto, hseparator.1, hmark, by decide, not_mem_decimal port, hpath.1⟩, by omega⟩
  unfold hkpbase at h
  split_ifs at h with hnil hhkp hzero hhkps hzero' hother hplain
  all_goals obtain rfl := Option.some.inj h
  · exact hurl (by decide) (by decide) (by decide)
  · exact hurl (by decide) (by decide) hport
  · exact hurl (by decide) (by decide) (by decide)
  · exact hurl (by decide) (by decide) hport
  all_goals
    have hproto : proto = ascii "http" ∨ proto = ascii "https" := by
      by_contra hno
      exact hother (not_or.mp hno)
    have hshort : '?'.toUInt8 ∉ proto ∧ proto.length ≤ 5 := by
      rcases hproto with rfl | rfl <;> decide
  · have hseparator : '?'.toUInt8 ∉ ascii "://" ∧ (ascii "://").length = 3 := by decide
    have hpath : '?'.toUInt8 ∉ ascii "/pks" ∧ (ascii "/pks").length = 4 := by decide
    simp only [List.mem_append, not_or, List.length_append]
    exact ⟨⟨hshort.1, hseparator.1, hmark, hpath.1⟩, by omega⟩
  · exact hurl hshort.1 hshort.2 hport

theorem hkpParseUrl_plain {url base : List UInt8} (h : hkpParseUrl url = some (some base)) :
    '?'.toUInt8 ∉ base ∧ base.length < 300 := by
  unfold hkpParseUrl at h
  obtain ⟨⟨host, port⟩, hfirst, h⟩ := Option.bind_eq_some_iff.mp h
  have hplain : (∀ c ∈ host, hostChar c = true) ∧ host.length < 256 ∧ port < 2 ^ 32 := by
    unfold scanUrl at hfirst
    simp only at hfirst
    split_ifs at hfirst
    · exact scanHost_plain hfirst
    · obtain ⟨rfl, rfl⟩ := Prod.mk.inj (Option.some.inj hfirst)
      exact ⟨by simp, by decide, by decide⟩
  split_ifs at h with hne
  · exact hkpbase_plain hplain.1 hplain.2.1 hplain.2.2 (Option.some.inj h)
  · obtain ⟨⟨host', port'⟩, hsecond, h⟩ := Option.bind_eq_some_iff.mp h
    obtain ⟨hhost, hlen, hport⟩ := scanHost_plain hsecond
    exact hkpbase_plain hhost hlen hport (Option.some.inj h)

/-! ## Hexadecimal -/

theorem hex2bin_hexOctet (c : UInt8) :
    Conf.hex2bin (hexDigit (c.toNat / 16)) <<< 4 + Conf.hex2bin (hexDigit (c.toNat % 16)) = c := by
  have hlt := c.toNat_lt
  obtain ⟨hhigh, high⟩ := Conf.hex2bin_eq (hexValue_hexDigit (d := c.toNat / 16) (by omega))
  obtain ⟨hlow, low⟩ := Conf.hex2bin_eq (hexValue_hexDigit (d := c.toNat % 16) (by omega))
  rw [high, low]
  apply UInt8.toNat_inj.mp
  rw [UInt8.toNat_add, UInt8.toNat_shiftLeft, UInt8.toNat_ofNat', UInt8.toNat_ofNat', Nat.shiftLeft_eq]
  have h4 : (4 : UInt8).toNat % 8 = 4 := rfl
  rw [h4]
  omega

theorem length_hexOctets (fp : List UInt8) : (fp.flatMap hexOctet).length = 2 * fp.length := by
  induction fp with
  | nil => rfl
  | cons c fp ih =>
    rw [List.flatMap_cons, List.length_append, ih, List.length_cons]
    show 2 + 2 * fp.length = 2 * (fp.length + 1)
    omega

/-- A fingerprint is read back from its digits. -/
theorem searchFp_hexOctets (fp : Fingerprint) :
    searchFp (ascii "0x" ++ fp.flatMap hexOctet) fp.length = fp := by
  have hdigits : ∀ fp : Fingerprint, (List.range fp.length).map (fun j =>
      Conf.hex2bin ((fp.flatMap hexOctet).getD (j * 2) 0) <<< 4 +
        Conf.hex2bin ((fp.flatMap hexOctet).getD (j * 2 + 1) 0)) = fp := by
    intro fp
    induction fp with
    | nil => rfl
    | cons c fp ih =>
      rw [List.length_cons, List.range_succ_eq_map, List.map_cons, List.map_map]
      refine congrArg₂ _ (hex2bin_hexOctet c) ((List.map_congr_left fun j _ => ?_).trans ih)
      have hnext : (j + 1) * 2 = j * 2 + 1 + 1 := by omega
      simp only [Function.comp_apply, Nat.succ_eq_add_one, hnext, List.flatMap_cons, hexOctet,
        List.cons_append, List.nil_append, List.getD_cons_succ]
  refine Eq.trans ?_ (hdigits fp)
  refine List.map_congr_left fun j _ => ?_
  have hfirst : 2 + j * 2 = j * 2 + 1 + 1 := by omega
  have hsecond : 3 + j * 2 = j * 2 + 1 + 1 + 1 := by omega
  rw [hfirst, hsecond]
  rfl

/-- The two digits of an octet. -/
def nibbles (c : UInt8) : List Nat := [c.toNat / 16, c.toNat % 16]

/-- The last digits of a number. -/
def lastDigits : Nat → Nat → List Nat
  | 0, _ => []
  | width + 1, n => lastDigits width (n / 16) ++ [n % 16]

/-- The number that digits stand for. -/
def hexNat (digits : List Nat) : Nat := digits.foldl (fun n v => 16 * n + v) 0

theorem hexNat_append (digits : List Nat) (v : Nat) :
    hexNat (digits ++ [v]) = 16 * hexNat digits + v := by
  rw [hexNat, List.foldl_append]
  rfl

theorem hexNat_zero (digits : List Nat) : hexNat (0 :: digits) = hexNat digits := rfl

theorem hexNat_dropWhile (digits : List Nat) : hexNat (digits.dropWhile (· = 0)) = hexNat digits := by
  induction digits with
  | nil => rfl
  | cons d digits ih =>
    by_cases hd : d = 0
    · rw [hd, List.dropWhile_cons_of_pos (by decide), ih, hexNat_zero]
    · rw [List.dropWhile_cons_of_neg (by simpa using hd)]

theorem hexNat_replicate (k : Nat) (digits : List Nat) :
    hexNat (List.replicate k 0 ++ digits) = hexNat digits := by
  induction k with
  | zero => rfl
  | succ k ih =>
    rw [List.replicate_succ, List.cons_append, hexNat_zero, ih]

theorem hexNat_lastDigits {width n : Nat} (h : n < 16 ^ width) : hexNat (lastDigits width n) = n := by
  induction width generalizing n with
  | zero =>
    rw [pow_zero] at h
    exact (Nat.lt_one_iff.mp h).symm
  | succ width ih =>
    rw [lastDigits, hexNat_append, ih (by rw [pow_succ] at h; omega)]
    omega

theorem hex_eq (width n : Nat) : hex width n = (lastDigits width n).map hexDigit := by
  induction width generalizing n with
  | zero => rfl
  | succ width ih =>
    rw [hex, lastDigits, ih, List.map_append]
    rfl

theorem xdigit_hexDigit {d : Nat} (h : d < 16) : xdigit (hexDigit d) = some d := by
  have hall : ∀ d : Fin 16, xdigit (hexDigit d) = some d.val := by decide
  exact hall ⟨d, h⟩

theorem hexDigits_map {digits : List Nat} (h : ∀ d ∈ digits, d < 16) :
    hexDigits (digits.map hexDigit) = (digits, []) := by
  induction digits with
  | nil => rfl
  | cons d digits ih =>
    rw [List.map_cons, hexDigits, xdigit_hexDigit (h d (List.mem_cons_self ..))]
    simp only [ih fun e he => h e (List.mem_cons_of_mem _ he)]

/-- `0x` and digits are read as the number they stand for, or as the greatest there is. -/
theorem strtoull_digits {digits : List Nat} (h : ∀ d ∈ digits, d < 16) (hne : digits ≠ []) :
    strtoull (ascii "0x" ++ digits.map hexDigit) =
      (UInt64.ofNat (min (hexNat digits) (2 ^ 64 - 1)), []) := by
  obtain ⟨d, ds, rfl⟩ := List.exists_cons_of_ne_nil hne
  have hspace : (ascii "0x" ++ (d :: ds).map hexDigit).dropWhile Conf.isspace =
      ascii "0x" ++ (d :: ds).map hexDigit := List.dropWhile_cons_of_neg (by decide)
  have hsign : ¬ ((ascii "0x" ++ (d :: ds).map hexDigit).getD 0 0 = '-'.toUInt8 ∨
      (ascii "0x" ++ (d :: ds).map hexDigit).getD 0 0 = '+'.toUInt8) := by
    show ¬ ('0'.toUInt8 = '-'.toUInt8 ∨ '0'.toUInt8 = '+'.toUInt8)
    decide
  have hprefix : ((ascii "0x" ++ (d :: ds).map hexDigit).take 2 = ascii "0x" ∨
      (ascii "0x" ++ (d :: ds).map hexDigit).take 2 = ascii "0X") ∧
        (xdigit ((ascii "0x" ++ (d :: ds).map hexDigit).getD 2 0)).isSome := by
    refine ⟨.inl rfl, ?_⟩
    show (xdigit (hexDigit d)).isSome = true
    rw [xdigit_hexDigit (h d (List.mem_cons_self ..))]
    rfl
  have hdrop : (ascii "0x" ++ (d :: ds).map hexDigit).drop 2 = (d :: ds).map hexDigit := rfl
  have hminus : ¬ (ascii "0x" ++ (d :: ds).map hexDigit).getD 0 0 = '-'.toUInt8 :=
    fun hc => hsign (.inl hc)
  unfold strtoull
  simp only [hspace, if_neg hsign, if_pos hprefix, hdrop, hexDigits_map h, if_neg hminus,
    if_neg (List.cons_ne_nil d ds)]
  rw [← hexNat]
  split_ifs with hbig
  · rw [min_eq_right (by omega)]
  · rw [min_eq_left (by omega)]

theorem hexNat_nibbles (fp : List UInt8) : hexNat (fp.flatMap nibbles) = beNat fp := by
  induction fp using List.reverseRecOn with
  | nil => rfl
  | append_singleton fp c ih =>
    have happend : hexNat ((fp ++ [c]).flatMap nibbles) =
        hexNat (fp.flatMap nibbles ++ [c.toNat / 16] ++ [c.toNat % 16]) := by
      rw [List.flatMap_append, List.append_assoc]
      rfl
    rw [happend, hexNat_append, hexNat_append, ih, beNat_append]
    omega

theorem hexOctets_eq (fp : List UInt8) :
    fp.flatMap hexOctet = (fp.flatMap nibbles).map hexDigit := by
  rw [List.map_flatMap]
  rfl

theorem lt_of_mem_nibbles {fp : List UInt8} {d : Nat} (h : d ∈ fp.flatMap nibbles) : d < 16 := by
  obtain ⟨c, -, hd⟩ := List.mem_flatMap.mp h
  have hc := c.toNat_lt
  rcases List.mem_cons.mp hd with rfl | hd
  · omega
  · rw [List.mem_singleton.mp hd]
    omega

/-! ## What is looked up -/

/-- The parameters of a request for what is behind `search`. -/
def searchParams (search : List UInt8) : LookupParams :=
  LookupParams.setSearch { lookupStart with op := .get } search

theorem searchParams_fields (search : List UInt8) :
    (searchParams search).op = .get ∧ (searchParams search).mrhkp = false ∧
      (searchParams search).search = some search := by
  unfold searchParams LookupParams.setSearch
  simp only
  split_ifs <;> exact ⟨rfl, rfl, rfl⟩

/-- Which lookup is made of a number, whatever the hash holds. -/
theorem query_number {digits : List Nat} (h : ∀ d ∈ digits, d < 16) (hne : digits ≠ [])
    (hfp : digits.length ≠ 40 ∧ digits.length ≠ 64) (hash : List UInt8) :
    (searchParams (ascii "0x" ++ digits.map hexDigit)).query (ascii "0x" ++ digits.map hexDigit) hash =
      .fetchKeyId (UInt64.ofNat (min (hexNat digits) (2 ^ 64 - 1))) := by
  have hlen : (ascii "0x" ++ digits.map hexDigit).length = digits.length + 2 := by
    rw [List.length_append, List.length_map, Nat.add_comm]
    rfl
  have hnot : ∀ n, digits.length ≠ n - 2 → ¬ ((ascii "0x" ++ digits.map hexDigit).length = n ∧
      (ascii "0x" ++ digits.map hexDigit).take 2 = ascii "0x") := by
    rintro n hn ⟨heq, -⟩
    omega
  have hnil : ascii "0x" ++ digits.map hexDigit ≠ [] := by simp [ascii]
  rw [searchParams, LookupParams.setSearch]
  simp only [if_neg (hnot 42 hfp.1), if_neg (hnot 66 hfp.2), strtoull_digits h hne,
    LookupParams.query, lookupStart, hnil, ne_eq, not_false_eq_true, decide_true, Bool.and_self,
    Bool.or_true, if_true]
  rfl

/-- A fingerprint is taken for one if its length is that of a version 4 or a version 5 key. -/
theorem query_fingerprint {fp : Fingerprint} (h : fp.length = 20 ∨ fp.length = 32)
    (hash : List UInt8) :
    (searchParams (ascii "0x" ++ fp.flatMap hexOctet)).query (ascii "0x" ++ fp.flatMap hexOctet) hash =
      .fetchKeyFp fp := by
  have hlen : (ascii "0x" ++ fp.flatMap hexOctet).length = 2 * fp.length + 2 := by
    rw [List.length_append, length_hexOctets, Nat.add_comm]
    rfl
  have hprefix : (ascii "0x" ++ fp.flatMap hexOctet).take 2 = ascii "0x" := rfl
  have hsearch := searchFp_hexOctets fp
  rw [searchParams, LookupParams.setSearch]
  rcases h with h | h
  · rw [h] at hlen hsearch
    simp only [if_pos (And.intro hlen hprefix), hsearch]
    rfl
  · rw [h] at hlen hsearch
    have hnot : ¬ ((ascii "0x" ++ fp.flatMap hexOctet).length = 42 ∧
        (ascii "0x" ++ fp.flatMap hexOctet).take 2 = ascii "0x") := by
      rintro ⟨heq, -⟩
      omega
    simp only [if_neg hnot, if_pos (And.intro hlen hprefix), hsearch]
    rfl

/-- What a request for a fingerprint is taken for. Only fingerprints of 20 and of 32 octets are taken for
fingerprints. The others are taken for key ids, and where they are greater than a key id can be, for the
greatest. -/
def askedFor (fp : Fingerprint) : Query :=
  if fp.length = 20 ∨ fp.length = 32 then .fetchKeyFp fp
  else if fp = [] then .fetchKeyText (ascii "0x")
  else .fetchKeyId (UInt64.ofNat (min (beNat fp) (2 ^ 64 - 1)))

theorem query_hexOctets (fp : Fingerprint) (hash : List UInt8) :
    (searchParams (ascii "0x" ++ fp.flatMap hexOctet)).query (ascii "0x" ++ fp.flatMap hexOctet) hash =
      askedFor fp := by
  unfold askedFor
  split_ifs with hlen hnil
  · exact query_fingerprint hlen hash
  · rw [hnil]
    rfl
  · have hdigits : (fp.flatMap nibbles).length = 2 * fp.length := by
      rw [← length_hexOctets, hexOctets_eq, List.length_map]
    have hne : fp.flatMap nibbles ≠ [] := by
      obtain ⟨c, rest, rfl⟩ := List.exists_cons_of_ne_nil hnil
      simp [nibbles]
    have hshort : (fp.flatMap nibbles).length ≠ 40 ∧ (fp.flatMap nibbles).length ≠ 64 := by omega
    rw [hexOctets_eq, query_number (fun d hd => lt_of_mem_nibbles hd) hne hshort, hexNat_nibbles]

theorem dropWhile_hexDigit {digits : List Nat} (h : ∀ d ∈ digits, d < 16) :
    (digits.map hexDigit).dropWhile (· = '0'.toUInt8) =
      (digits.dropWhile (· = 0)).map hexDigit := by
  have hzero : ∀ d : Fin 16, hexDigit d = '0'.toUInt8 → d.val = 0 := by decide
  induction digits with
  | nil => rfl
  | cons d digits ih =>
    by_cases hd : d = 0
    · rw [hd, List.map_cons, List.dropWhile_cons_of_pos (by decide),
        List.dropWhile_cons_of_pos (by decide), ih fun e he => h e (List.mem_cons_of_mem _ he)]
    · have hchar : hexDigit d ≠ '0'.toUInt8 :=
        fun hc => hd (hzero ⟨d, h d (List.mem_cons_self ..)⟩ hc)
      rw [List.map_cons, List.dropWhile_cons_of_neg (by simpa using hchar),
        List.dropWhile_cons_of_neg (by simpa using hd), List.map_cons]

theorem lastDigits_lt {width n d : Nat} (h : d ∈ lastDigits width n) : d < 16 := by
  induction width generalizing n with
  | zero => exact absurd h List.not_mem_nil
  | succ width ih =>
    rcases List.mem_append.mp h with h | h
    · exact ih h
    · rw [List.mem_singleton.mp h]
      exact Nat.mod_lt _ (by decide)

theorem length_lastDigits (width n : Nat) : (lastDigits width n).length = width := by
  induction width generalizing n with
  | zero => rfl
  | succ width ih =>
    rw [lastDigits, List.length_append, ih]
    rfl

/-- The digits of a key id. -/
theorem hexKeyid_eq (keyid : UInt64) :
    ∃ digits, hexKeyid keyid = digits.map hexDigit ∧ (∀ d ∈ digits, d < 16) ∧
      hexNat digits = keyid.toNat ∧ 8 ≤ digits.length ∧ digits.length ≤ 16 := by
  have hlt : ∀ d ∈ lastDigits 16 keyid.toNat, d < 16 := fun d hd => lastDigits_lt hd
  have hle : ((lastDigits 16 keyid.toNat).dropWhile (· = 0)).length ≤ 16 := by
    have hsub := (List.dropWhile_sublist (fun d : Nat => decide (d = 0))
      (l := lastDigits 16 keyid.toNat)).length_le
    rwa [length_lastDigits] at hsub
  refine ⟨List.replicate (8 - ((lastDigits 16 keyid.toNat).dropWhile (· = 0)).length) 0 ++
    (lastDigits 16 keyid.toNat).dropWhile (· = 0), ?_, ?_, ?_, ?_, ?_⟩
  · rw [hexKeyid, hex_eq, dropWhile_hexDigit hlt, List.map_append, List.map_replicate,
      List.length_map]
    rfl
  · intro d hd
    rcases List.mem_append.mp hd with hd | hd
    · rw [List.eq_of_mem_replicate hd]
      decide
    · exact hlt d ((List.dropWhile_sublist _).mem hd)
  · rw [hexNat_replicate, hexNat_dropWhile, hexNat_lastDigits]
    exact keyid.toNat_lt
  · rw [List.length_append, List.length_replicate]
    omega
  · rw [List.length_append, List.length_replicate]
    omega

/-- A key id is asked for as it is. -/
theorem query_hexKeyid (keyid : UInt64) (hash : List UInt8) :
    (searchParams (ascii "0x" ++ hexKeyid keyid)).query (ascii "0x" ++ hexKeyid keyid) hash =
      .fetchKeyId keyid := by
  obtain ⟨digits, heq, hlt, hnat, hlow, hhigh⟩ := hexKeyid_eq keyid
  have hne : digits ≠ [] := List.ne_nil_of_length_pos (by omega)
  have hkeyid := keyid.toNat_lt
  rw [heq, query_number hlt hne ⟨by omega, by omega⟩, hnat, min_eq_left (by omega),
    UInt64.ofNat_toNat]

/-! ## Cleaned keys can be sent -/

theorem mem_flattenKey {key : PublicKey} {p : Packet} :
    p ∈ flattenKey key ↔ p = key.publickey ∨ p ∈ key.sigs ∨
      (∃ sp ∈ key.uids, p = sp.packet ∨ p ∈ sp.sigs) ∨
      ∃ sp ∈ key.subkeys, p = sp.packet ∨ p ∈ sp.sigs := by
  simp only [flattenKey, flattenSigned, List.cons_append, List.mem_cons, List.mem_append,
    List.mem_flatMap, or_assoc]

theorem Stems.packet {l l' : List SignedPacket} (h : Stems l l') {p : Packet}
    (hp : ∃ sp ∈ l', p = sp.packet ∨ p ∈ sp.sigs) : ∃ o ∈ l, p = o.packet ∨ p ∈ o.sigs := by
  obtain ⟨sp, hsp, rfl | hs⟩ := hp
  · obtain ⟨o, ho, hpacket⟩ := (h sp hsp).1
    exact ⟨o, ho, .inl hpacket.symm⟩
  · obtain ⟨o, ho, -, hos⟩ := (h sp hsp).2 p hs
    exact ⟨o, ho, .inr hos⟩

/-- A key that stems from one that can be sent can be sent. -/
theorem StemsFrom.sendable {key c : PublicKey} (h : StemsFrom key c) (hkey : Sendable key) :
    Sendable c where
  tagged :=
    { publickey := h.publickey ▸ hkey.tagged.publickey
      sigs := fun s hs => hkey.tagged.sigs s (h.sigs.subset hs)
      uids := by
        intro sp hsp
        obtain ⟨o, ho, hpacket⟩ := (h.uids sp hsp).1
        exact hpacket ▸ hkey.tagged.uids o ho
      uidSigs := by
        intro sp hsp s hs
        obtain ⟨o, ho, -, hos⟩ := (h.uids sp hsp).2 s hs
        exact hkey.tagged.uidSigs o ho s hos
      subkeys := by
        intro sp hsp
        obtain ⟨o, ho, hpacket⟩ := (h.subkeys sp hsp).1
        exact hpacket ▸ hkey.tagged.subkeys o ho
      subkeySigs := by
        intro sp hsp s hs
        obtain ⟨o, ho, -, hos⟩ := (h.subkeys sp hsp).2 s hs
        exact hkey.tagged.subkeySigs o ho s hos }
  packets := by
    intro p hp
    refine hkey.packets p (mem_flattenKey.mpr ?_)
    rcases mem_flattenKey.mp hp with rfl | hp | hp | hp
    · exact .inl h.publickey
    · exact .inr (.inl (h.sigs.subset hp))
    · exact .inr (.inr (.inl (Stems.packet h.uids hp)))
    · exact .inr (.inr (.inr (Stems.packet h.subkeys hp)))
  sigs := fun s hs => hkey.sigs s (h.sigs.subset hs)

section

variable (H : Hashes) (g : Stale) (C : SigCheck)

theorem sendable_cleankeys (D : Lookups) (policies : Policies) {keys : List PublicKey}
    (h : ∀ key ∈ keys, Sendable key) :
    ∀ c ∈ (cleankeys H g C D policies keys).1, Sendable c := by
  intro c hc
  obtain ⟨key, hkey, -, rfl⟩ := mem_cleanLoop hc
  exact StemsFrom.sendable (stemsFrom_cleanKey H g C D policies key) (h key hkey)

/-! ## The answer -/

variable {DB : Type} (D : DB → Lookups) (fetch : DB → Query → Int × List PublicKey)
  (config : Conf.Config) (db : DB) (hash : List UInt8)

theorem kept_hexDigits {digits : List Nat} (h : ∀ d ∈ digits, d < 16) :
    ∀ c ∈ ascii "0x" ++ digits.map hexDigit, Cgi.Kept c := by
  have hall : ∀ d : Fin 16, Cgi.Kept (hexDigit d) := by decide
  have hprefix : ∀ c ∈ ascii "0x", Cgi.Kept c := Cgi.kept_names "0x" (by simp)
  intro c hc
  rcases List.mem_append.mp hc with hc | hc
  · exact hprefix c hc
  · obtain ⟨d, hd, rfl⟩ := List.mem_map.mp hc
    exact hall ⟨d, h d hd⟩

/-- What `lookup` prints for a request for what is behind `search`. -/
theorem lookup_get {search : List UInt8} (hkept : ∀ c ∈ search, Cgi.Kept c)
    (hlen : search.length < 2 ^ 30) {env : Environment}
    (hbrings : Brings env (ascii "op=get&search=" ++ search)) :
    Cgi.lookup H g C D fetch config db hash env =
      (Cgi.handOut H g C D config db
        (fetch db ((searchParams search).query search hash))).map
          (Cgi.puts "Access-Control-Allow-Origin: *" ++ ·) := by
  have hop : FormPair (ascii "op", ascii "get") (ascii "op=get") :=
    ⟨ascii "op", ascii "get", .self (Cgi.kept_names "op" (by simp)), .self (Cgi.kept_names "get" (by simp)), rfl⟩
  have hname : ∀ c ∈ ascii "search", Cgi.Kept c := Cgi.kept_names "search" (by simp)
  have hsearch : FormPair (ascii "search", search) (ascii "search=" ++ search) :=
    ⟨ascii "search", search, .self hname, .self hkept, rfl⟩
  have hform : FormOf [(ascii "op", ascii "get"), (ascii "search", search)]
      (ascii "op=get&search=" ++ search) := by
    refine ⟨[ascii "op=get", ascii "search=" ++ search], .cons hop (.cons hsearch .nil), ?_⟩
    simp only [List.intercalate_cons_cons, List.intercalate_singleton]
    rfl
  have htext : (ascii "op=get&search=" ++ search).length < 2 ^ 31 - 1 := by
    have hprefix : (ascii "op=get&search=").length = 14 := rfl
    rw [List.length_append]
    omega
  obtain ⟨hget, hmr, hsome⟩ := searchParams_fields search
  rw [Cgi.lookup, hbrings.getcgivars hform.zero_notMem htext,
    Cgi.splitInput_form hform (by omega)]
  show (do
    guard ((searchParams search).op = Cgi.LookupOp.get ∨
      (searchParams search).op = Cgi.LookupOp.hget)
    let page ← Cgi.lookupDownload H g C D fetch config db (searchParams search) hash
    return Cgi.puts "Access-Control-Allow-Origin: *" ++ page) = _
  rw [Url.guard_then (Or.inl hget)]
  simp only [Cgi.lookupDownload, hsome, hmr, Bool.false_eq_true, if_false, List.nil_append]
  cases Cgi.handOut H g C D config db (fetch db ((searchParams search).query search hash)) with
  | none => rfl
  | some page => rfl

/-! ### Its headers -/

theorem cgiBody_two {first second : List UInt8} (hfirst : '\n'.toUInt8 ∉ first)
    (hsecond : '\n'.toUInt8 ∉ second) (hne : second ≠ []) (text : List UInt8) :
    cgiBody (first ++ '\n'.toUInt8 :: (second ++ '\n'.toUInt8 :: text)) =
      cgiBody ('\n'.toUInt8 :: text) := by
  obtain ⟨c, rest, rfl⟩ := List.exists_cons_of_ne_nil hne
  have hc : c ≠ '\n'.toUInt8 := fun hc => hsecond (hc ▸ List.mem_cons_self ..)
  rw [cgiBody_line hfirst, List.cons_append, cgiBody_next hc, ← List.cons_append,
    cgiBody_line hsecond]

theorem newline_notMem_hexOctets (fp : List UInt8) : '\n'.toUInt8 ∉ fp.flatMap hexOctet := by
  have hall : ∀ d : Fin 16, hexDigit d ≠ '\n'.toUInt8 := by decide
  intro hmem
  rw [hexOctets_eq] at hmem
  obtain ⟨d, hd, hchar⟩ := List.mem_map.mp hmem
  exact hall ⟨d, lt_of_mem_nibbles hd⟩ hchar

/-- Behind the headers of an answer stands what was to be handed out. -/
theorem cgiBody_download {publickey : PublicKey} {headers : List UInt8}
    (h : Cgi.downloadHeaders H publickey = some headers) (text : List UInt8) :
    cgiBody (Cgi.puts "Access-Control-Allow-Origin: *" ++ (headers ++ text)) = text := by
  obtain ⟨⟨status, fp⟩, -, h⟩ := Option.bind_eq_some_iff.mp h
  have hallow : '\n'.toUInt8 ∉ ascii "Access-Control-Allow-Origin: *" := by decide
  have htype : '\n'.toUInt8 ∉ ascii "Content-Type: application/pgp-keys" := by decide
  simp only at h
  split_ifs at h with hok
  · obtain rfl := Option.some.inj h
    have hstart : '\n'.toUInt8 ∉ ascii "Content-Disposition: attachment; filename=\"0x" := by
      decide
    have hend : '\n'.toUInt8 ∉ ascii ".asc\"" := by decide
    have hline : '\n'.toUInt8 ∉ ascii "Content-Disposition: attachment; filename=\"0x" ++
        (fp.flatMap hexOctet ++ ascii ".asc\"") := by
      simp only [List.mem_append, not_or]
      exact ⟨hstart, newline_notMem_hexOctets fp, hend⟩
    have hheaders : ascii
        "Content-Type: application/pgp-keys\nContent-Disposition: attachment; filename=\"0x" ++
          (fp.flatMap hexOctet ++ ascii ".asc\"\n\n") ++ text =
        ascii "Content-Type: application/pgp-keys" ++ '\n'.toUInt8 ::
          ((ascii "Content-Disposition: attachment; filename=\"0x" ++
            (fp.flatMap hexOctet ++ ascii ".asc\"")) ++ '\n'.toUInt8 :: '\n'.toUInt8 :: text) := by
      have hasc : ascii ".asc\"\n\n" = ascii ".asc\"" ++ ['\n'.toUInt8, '\n'.toUInt8] := rfl
      have hlines : ascii
          "Content-Type: application/pgp-keys\nContent-Disposition: attachment; filename=\"0x" =
          ascii "Content-Type: application/pgp-keys" ++ '\n'.toUInt8 ::
            ascii "Content-Disposition: attachment; filename=\"0x" := rfl
      rw [hasc, hlines]
      simp only [List.append_assoc, List.cons_append, List.nil_append]
    rw [hheaders]
    refine (cgiBody_two hallow htype (by decide) _).trans ?_
    refine (cgiBody_next (by decide) _).trans ?_
    exact (cgiBody_line hline _).trans (cgiBody_end text)
  · obtain rfl := Option.some.inj h
    exact (cgiBody_two hallow htype (by decide) _).trans (cgiBody_end text)

theorem cgiBody_notFound :
    cgiBody (Cgi.puts "Access-Control-Allow-Origin: *" ++
      (Cgi.puts "Content-Type: text/plain\n" ++ Cgi.puts "Key not found")) =
        ascii "Key not found\n" := by
  have hallow : '\n'.toUInt8 ∉ ascii "Access-Control-Allow-Origin: *" := by decide
  have htype : '\n'.toUInt8 ∉ ascii "Content-Type: text/plain" := by decide
  exact (cgiBody_two hallow htype (by decide) ('\n'.toUInt8 :: ascii "Key not found\n")).trans
    (cgiBody_end _)

/-! ## What the client makes of it -/

theorem foldl_put (reply : List (List UInt8)) (buffer : Buffer) :
    (reply.foldl Buffer.put buffer).text = buffer.text ++ reply.flatten := by
  induction reply generalizing buffer with
  | nil => exact (List.append_nil _).symm
  | cons piece reply ih =>
    rw [List.foldl_cons, ih, List.flatten_cons, ← List.append_assoc]
    rfl

theorem gathered_text (reply : List (List UInt8)) : (gathered reply).text = reply.flatten :=
  (foldl_put reply _).trans (List.nil_append _)

theorem growSize_of_le {size need : Nat} (h : need ≤ size) : growSize size need = size := by
  rw [growSize, if_neg (by omega)]

/-- A short reply leaves the buffer as large as it was. -/
theorem foldl_put_size {reply : List (List UInt8)} {buffer : Buffer}
    (h : buffer.text.length + reply.flatten.length ≤ buffer.size) :
    (reply.foldl Buffer.put buffer).size = buffer.size := by
  induction reply generalizing buffer with
  | nil => rfl
  | cons piece reply ih =>
    rw [List.flatten_cons, List.length_append] at h
    have hsize : (buffer.put piece).size = buffer.size := growSize_of_le (by omega)
    rw [List.foldl_cons, ih, hsize]
    rw [hsize]
    show (buffer.text ++ piece).length + reply.flatten.length ≤ buffer.size
    rw [List.length_append]
    omega

/-- Any keys that can be sent are taken from a reply, whatever lies behind it in the buffer. -/
theorem hkpFetchKeyUrl_armored {keys : List PublicKey} (h : ∀ key ∈ keys, Sendable key)
    {reply : List (List UInt8)}
    (hreply : reply.flatten = armorOpenpgpStream (flattenPublickey keys)) (memory : Memory)
    (behind : Nat → UInt8) (publickey : List PublicKey) :
    hkpFetchKeyUrl memory behind (some reply) publickey =
      ((keys.length : Int), publickey ++ keys.map reread) := by
  rw [hkpFetchKeyUrl]
  simp only [gathered_text, hreply, parseKeys_armored h]

section

variable {H g C D fetch config db hash} {location base : List UInt8}
  {get : List UInt8 → Option (List (List UInt8))}
  (hbase : hkpParseUrl location = some (some base))
  (hserves : Serves (Cgi.lookup H g C D fetch config db hash) get)
include hbase hserves

/-- What a request for what is behind `search` brings back. -/
theorem reply_of_search {search : List UInt8} (hkept : ∀ c ∈ search, Cgi.Kept c)
    (hlen : search.length < 2 ^ 30) {page : List UInt8}
    (hpage : Cgi.handOut H g C D config db
      (fetch db ((searchParams search).query search hash)) = some page) :
    ∃ reply, get (base ++ (ascii "/lookup?op=get&search=" ++ search)) = some reply ∧
      reply.flatten = cgiBody (Cgi.puts "Access-Control-Allow-Origin: *" ++ page) := by
  obtain ⟨hplain, -⟩ := hkpParseUrl_plain hbase
  have hquery : queryOf (base ++ (ascii "/lookup?op=get&search=" ++ search)) =
      ascii "op=get&search=" ++ search := queryOf_append hplain _ (by decide : _ ∉ ascii "/lookup")
  obtain ⟨env, hbrings, hout⟩ := hserves (base ++ (ascii "/lookup?op=get&search=" ++ search))
  rw [hquery] at hbrings
  have hlookup := lookup_get H g C D fetch config db hash hkept hlen hbrings
  rw [hpage] at hlookup
  exact hout _ hlookup

theorem fetch_of_search {search : List UInt8} (hkept : ∀ c ∈ search, Cgi.Kept c)
    (hlen : search.length < 2 ^ 30) {n : Int} {key : PublicKey} {keys : List PublicKey}
    (hfetch : fetch db ((searchParams search).query search hash) = (n, key :: keys)) (hn : n ≠ 0)
    (hheaders : (getFingerprint H key.publickey).isSome)
    (hsend : ∀ k ∈ key :: keys, Sendable k) (memory : Memory) (behind : Nat → UInt8)
    (publickey : List PublicKey) :
    hkpFetchKeyUrl memory behind (get (base ++ (ascii "/lookup?op=get&search=" ++ search))) publickey =
      (((cleankeys H g C (D db) (Cgi.policiesOf config) (key :: keys)).1.length : Int),
        publickey ++ (cleankeys H g C (D db) (Cgi.policiesOf config) (key :: keys)).1.map reread) := by
  obtain ⟨headers, hdownload⟩ : ∃ headers, Cgi.downloadHeaders H key = some headers := by
    obtain ⟨⟨status, fp⟩, hfp⟩ := Option.isSome_iff_exists.mp hheaders
    rw [Cgi.downloadHeaders, hfp]
    simp only [Option.bind_eq_bind, Option.bind_some]
    split_ifs <;> exact ⟨_, rfl⟩
  have hpage : Cgi.handOut H g C D config db (fetch db ((searchParams search).query search hash)) =
      some (headers ++ armorOpenpgpStream (flattenPublickey
        (cleankeys H g C (D db) (Cgi.policiesOf config) (key :: keys)).1)) := by
    rw [hfetch, Cgi.handOut, if_neg hn]
    simp only [hdownload, Option.map_some]
  obtain ⟨reply, hget, hreply⟩ := reply_of_search hbase hserves hkept hlen hpage
  rw [cgiBody_download H hdownload] at hreply
  rw [hget, hkpFetchKeyUrl_armored (sendable_cleankeys H g C (D db) _ hsend) hreply]

omit hserves in
/-- The URL for a fingerprint. -/
theorem fpUrl_eq {fp : Fingerprint} (hlen : fp.length ≤ 32) :
    fpUrl base fp =
      some (base ++ (ascii "/lookup?op=get&search=" ++ (ascii "0x" ++ fp.flatMap hexOctet))) := by
  obtain ⟨-, hshort⟩ := hkpParseUrl_plain hbase
  have hpath : (ascii "/lookup?op=get&search=0x").length = 24 := rfl
  have hfits : ¬ 1024 <
      (base ++ ascii "/lookup?op=get&search=0x").length + fp.length * 2 + 1 := by
    rw [List.length_append, hpath]
    omega
  have hmax : ¬ maxFingerprintLen < fp.length := Nat.not_lt.mpr hlen
  rw [fpUrl, if_neg hmax]
  simp only [if_neg hfits, List.append_assoc]
  rfl

omit hserves in
/-- The URL for a key id. -/
theorem idUrl_eq (keyid : UInt64) :
    idUrl base keyid =
      base ++ (ascii "/lookup?op=get&search=" ++ (ascii "0x" ++ hexKeyid keyid)) := by
  obtain ⟨-, hshort⟩ := hkpParseUrl_plain hbase
  obtain ⟨digits, heq, -, -, -, hdigits⟩ := hexKeyid_eq keyid
  have hkeyid : (hexKeyid keyid).length ≤ 16 := by rwa [heq, List.length_map]
  have hpath : (ascii "/lookup?op=get&search=0x").length = 24 := rfl
  have hfits : (base ++ (ascii "/lookup?op=get&search=0x" ++ hexKeyid keyid)).length ≤ 1023 := by
    rw [List.length_append, List.length_append, hpath]
    omega
  rw [idUrl, List.take_of_length_le hfits]
  rfl

omit hserves in
variable (H g C D fetch config db hash) in
/-- **Which key a request for a fingerprint asks for.** There is no request for a fingerprint that is
longer than any. For the others `lookup` hands out what it finds for `askedFor`. -/
theorem lookup_fpUrl (fp : Fingerprint) :
    (maxFingerprintLen < fp.length → fpUrl base fp = none) ∧
      (fp.length ≤ maxFingerprintLen → ∃ url, fpUrl base fp = some url ∧
        ∀ env, Brings env (queryOf url) →
          Cgi.lookup H g C D fetch config db hash env =
            (Cgi.handOut H g C D config db (fetch db (askedFor fp))).map
              (Cgi.puts "Access-Control-Allow-Origin: *" ++ ·)) := by
  constructor
  · intro hlong
    rw [fpUrl, if_pos hlong]
  · intro hlen
    have hquery : queryOf (base ++ (ascii "/lookup?op=get&search=" ++
        (ascii "0x" ++ fp.flatMap hexOctet))) =
        ascii "op=get&search=" ++ (ascii "0x" ++ fp.flatMap hexOctet) :=
      queryOf_append (hkpParseUrl_plain hbase).1 _ (by decide : _ ∉ ascii "/lookup")
    refine ⟨_, fpUrl_eq hbase hlen, fun env hbrings => ?_⟩
    rw [hquery] at hbrings
    have hkept := kept_hexDigits fun d (hd : d ∈ fp.flatMap nibbles) => lt_of_mem_nibbles hd
    rw [← hexOctets_eq] at hkept
    have hshort : (ascii "0x" ++ fp.flatMap hexOctet).length < 2 ^ 30 := by
      have hmax : maxFingerprintLen = 32 := rfl
      rw [List.length_append, length_hexOctets]
      show 2 + 2 * fp.length < 2 ^ 30
      omega
    rw [lookup_get H g C D fetch config db hash hkept hshort hbrings, query_hexOctets]

omit hserves in
theorem hkpFetchKeyFp_eq {fp : Fingerprint} (hlen : fp.length = 20 ∨ fp.length = 32)
    (memory : Memory) (behind : Nat → UInt8) (publickey : List PublicKey) :
    hkpFetchKeyFp memory behind base get fp publickey =
      hkpFetchKeyUrl memory behind
        (get (base ++ (ascii "/lookup?op=get&search=" ++ (ascii "0x" ++ fp.flatMap hexOctet))))
        publickey := by
  rw [hkpFetchKeyFp, fpUrl_eq hbase (by omega)]

/-- **A fetch delivers what the other keyserver has.** When `lookup` finds keys for the fingerprint of
a version 4 or version 5 key, or for a key id, `hkp_fetch_key_fp` and `hkp_fetch_key_id` deliver them
as they are cleaned there, in however many pieces the reply comes and whatever its buffer held
before. -/
theorem hkpFetch_found {n : Int} {key : PublicKey} {keys : List PublicKey} (hn : n ≠ 0)
    (hheaders : (getFingerprint H key.publickey).isSome) (hsend : ∀ k ∈ key :: keys, Sendable k)
    (memory : Memory) (behind : Nat → UInt8) (publickey : List PublicKey) :
    (∀ fp, fp.length = 20 ∨ fp.length = 32 → fetch db (.fetchKeyFp fp) = (n, key :: keys) →
      hkpFetchKeyFp memory behind base get fp publickey =
        (((cleankeys H g C (D db) (Cgi.policiesOf config) (key :: keys)).1.length : Int),
          publickey ++
            (cleankeys H g C (D db) (Cgi.policiesOf config) (key :: keys)).1.map reread)) ∧
    ∀ keyid, fetch db (.fetchKeyId keyid) = (n, key :: keys) →
      hkpFetchKeyId memory behind base get keyid publickey =
        (((cleankeys H g C (D db) (Cgi.policiesOf config) (key :: keys)).1.length : Int),
          publickey ++
            (cleankeys H g C (D db) (Cgi.policiesOf config) (key :: keys)).1.map reread) := by
  constructor
  · intro fp hlen hfetch
    have hkept := kept_hexDigits fun d (hd : d ∈ fp.flatMap nibbles) => lt_of_mem_nibbles hd
    rw [← hexOctets_eq] at hkept
    have hshort : (ascii "0x" ++ fp.flatMap hexOctet).length < 2 ^ 30 := by
      rw [List.length_append, length_hexOctets]
      show 2 + 2 * fp.length < 2 ^ 30
      omega
    have hquery := query_fingerprint hlen hash
    rw [hkpFetchKeyFp_eq hbase hlen]
    exact fetch_of_search hbase hserves hkept hshort (by rw [hquery, hfetch]) hn hheaders hsend
      memory behind publickey
  · intro keyid hfetch
    obtain ⟨digits, heq, hlt, -, -, hle⟩ := hexKeyid_eq keyid
    have hkept := kept_hexDigits hlt
    rw [← heq] at hkept
    have hshort : (ascii "0x" ++ hexKeyid keyid).length < 2 ^ 30 := by
      rw [List.length_append, heq, List.length_map]
      show 2 + digits.length < 2 ^ 30
      omega
    have hquery := query_hexKeyid keyid hash
    rw [hkpFetchKeyId, idUrl_eq hbase]
    exact fetch_of_search hbase hserves hkept hshort (by rw [hquery, hfetch]) hn hheaders hsend
      memory behind publickey

omit hbase hserves in
/-- Dearmoring passes the answer of an unsuccessful lookup over. -/
theorem dearmoredPackets_notFound (past : List Packet → UInt8) (text : List UInt8) :
    dearmoredPackets past (ascii "Key not found\n" ++ text) = dearmoredPackets past text := by
  have hfind : findHeader .dashes 0 (ascii "Key not found\n" ++ text) = findHeader .dashes 0 text :=
    rfl
  obtain ⟨r, hr⟩ := dearmorOpenpgpStream_ends past text []
  have hr' : dearmorOpenpgpStream past (text.length + 3) (ascii "Key not found\n" ++ text) [] =
      some r := by
    rw [← hr]
    unfold dearmorOpenpgpStream
    rw [hfind]
  rw [dearmoredPackets_eq hr', dearmoredPackets_eq hr]

/-- **What is not found is made up from what lies in the buffer.** When `lookup` finds nothing, the
client dearmors what its buffer held before behind the answer. With the right text there it delivers
any keys that have room. -/
theorem hkpFetch_notFound {fp : Fingerprint} (hlen : fp.length = 20 ∨ fp.length = 32)
    {found : List PublicKey} (hfetch : fetch db (.fetchKeyFp fp) = (0, found)) (memory : Memory)
    (publickey : List PublicKey) :
    (∀ behind, (hkpFetchKeyFp memory behind base get fp publickey).2 =
      (parseKeys memory.sig
        (dearmoredPackets memory.packet ((List.range 8178).map behind)) publickey).keys) ∧
    ∀ keys, (∀ key ∈ keys, Sendable key) →
      (armorOpenpgpStream (flattenPublickey keys)).length ≤ 8178 →
      ∃ behind, (hkpFetchKeyFp memory behind base get fp publickey).2 =
        publickey ++ keys.map reread := by
  have hstale : ∀ behind, (hkpFetchKeyFp memory behind base get fp publickey).2 =
      (parseKeys memory.sig
        (dearmoredPackets memory.packet ((List.range 8178).map behind)) publickey).keys := by
    intro behind
    have hkept := kept_hexDigits fun d (hd : d ∈ fp.flatMap nibbles) => lt_of_mem_nibbles hd
    rw [← hexOctets_eq] at hkept
    have hshort : (ascii "0x" ++ fp.flatMap hexOctet).length < 2 ^ 30 := by
      rw [List.length_append, length_hexOctets]
      show 2 + 2 * fp.length < 2 ^ 30
      omega
    have hpage : Cgi.handOut H g C D config db
        (fetch db ((searchParams (ascii "0x" ++ fp.flatMap hexOctet)).query
          (ascii "0x" ++ fp.flatMap hexOctet) hash)) =
        some (Cgi.puts "Content-Type: text/plain\n" ++ Cgi.puts "Key not found") := by
      rw [query_fingerprint hlen, hfetch, Cgi.handOut, if_pos rfl]
    obtain ⟨reply, hget, hreply⟩ := reply_of_search hbase hserves hkept hshort hpage
    rw [cgiBody_notFound] at hreply
    have hsize : (gathered reply).size = 8192 := by
      refine foldl_put_size ?_
      rw [hreply]
      decide
    rw [hkpFetchKeyFp_eq hbase hlen, hget, hkpFetchKeyUrl]
    simp only [gathered_text, hreply, hsize]
    rw [dearmoredPackets_notFound]
    rfl
  refine ⟨hstale, fun keys hkeys hroom => ?_⟩
  set text := armorOpenpgpStream (flattenPublickey keys) with htext
  have hleftover : (List.range 8178).map (fun i => text.getD i 0) =
      text ++ List.replicate (8178 - text.length) 0 := by
    refine List.ext_getElem ?_ fun i hi hi' => ?_
    · simp only [List.length_map, List.length_range, List.length_append, List.length_replicate]
      omega
    · rw [List.getElem_map, List.getElem_range]
      by_cases hin : i < text.length
      · rw [List.getElem_append_left hin, List.getD_eq_getElem _ _ hin]
      · rw [List.getElem_append_right (not_lt.mp hin), List.getElem_replicate,
          List.getD_eq_default _ _ (not_lt.mp hin)]
  refine ⟨fun i => text.getD i 0, ?_⟩
  rw [hstale, hleftover, parseKeys_armored hkeys]

end

end

/-! ## Samples -/

/-- A request with a query. -/
def sampleQuery (query : List UInt8) : Environment where
  argument := none
  requestMethod := some (ascii "GET")
  queryString := some query
  contentType := none
  contentLength := none
  stdin := []

/-- What a keyserver with a file of keys finds. -/
def sampleFind (db : sampleServer.DB) (query : Query) : Int × List PublicKey :=
  ((sampleServer.fetch db query).length, sampleServer.fetch db query)

/-- The pages of a keyserver. -/
def sampleGet (files : sampleServer.DB) (url : List UInt8) : Option (List (List UInt8)) :=
  (Cgi.lookup sampleSksHashes zeroStale noCheck (fun _ => ⟨fun _ => [], fun _ => false⟩) sampleFind
    Conf.fresh files [] (sampleQuery (queryOf url))).map fun out => [cgiBody out]

theorem sampleGet_serves (files : sampleServer.DB) :
    Serves (Cgi.lookup sampleSksHashes zeroStale noCheck (fun _ => ⟨fun _ => [], fun _ => false⟩)
      sampleFind Conf.fresh files []) (sampleGet files) := by
  intro url
  refine ⟨sampleQuery (queryOf url), .query (.inl rfl) rfl, fun out hout => ?_⟩
  refine ⟨[cgiBody out], ?_, List.append_nil _⟩
  rw [sampleGet, hout]
  rfl

/-- Where the keyserver is. -/
theorem samplePeer_base :
    hkpParseUrl (ascii "hkp://peer") = some (some (ascii "http://peer:11371/pks")) := by
  set_option maxRecDepth 4000 in decide

/-- The fingerprint of a version 3 key is taken for a key id that is too great. -/
theorem lookup_fpUrl_version3 :
    ∃ url, fpUrl (ascii "http://peer:11371/pks") (List.replicate 16 1) = some url ∧
      Cgi.lookup sampleSksHashes zeroStale noCheck (fun _ => ⟨fun _ => [], fun _ => false⟩) sampleFind
          Conf.fresh (∅ : KeyFiles) [] (sampleQuery (queryOf url)) =
        (Cgi.handOut sampleSksHashes zeroStale noCheck (fun _ => ⟨fun _ => [], fun _ => false⟩)
          Conf.fresh (∅ : KeyFiles) (sampleFind (∅ : KeyFiles) (.fetchKeyId 0xFFFFFFFFFFFFFFFF))).map
            (Cgi.puts "Access-Control-Allow-Origin: *" ++ ·) := by
  have hasked : askedFor (List.replicate 16 1) = .fetchKeyId 0xFFFFFFFFFFFFFFFF := by
    have hgreat : 2 ^ 64 - 1 ≤ beNat (List.replicate 16 1) := by decide
    rw [askedFor, if_neg (by decide), if_neg (by decide), min_eq_right hgreat]
    exact congrArg Query.fetchKeyId (UInt64.toNat.inj rfl)
  obtain ⟨url, hurl, hlookup⟩ := (lookup_fpUrl sampleSksHashes zeroStale noCheck
    (fun _ => ⟨fun _ => [], fun _ => false⟩) sampleFind Conf.fresh (∅ : KeyFiles) [] samplePeer_base
    (List.replicate 16 1)).2 (by decide)
  rw [hasked] at hlookup
  exact ⟨url, hurl, hlookup _ (.query (.inl rfl) rfl)⟩

/-- The only key of the keyserver is fetched by its fingerprint and by its key id, with other octets
behind the reply. -/
theorem hkpFetch_found_sample :
    let files := sampleServer.store (∅ : KeyFiles) sampleAl false
    hkpFetchKeyFp zeroMemory (fun _ => 65) (ascii "http://peer:11371/pks") (sampleGet files)
        (sampleFp sampleAl) [] = (1, [sampleAl]) ∧
      hkpFetchKeyId zeroMemory (fun _ => 65) (ascii "http://peer:11371/pks") (sampleGet files)
        0x7C35F1B264FA7643 [] = (1, [sampleAl]) := by
  intro files
  have hsend : ∀ key ∈ [sampleAl], Sendable key := by
    intro key hkey
    rw [List.mem_singleton.mp hkey]
    exact sampleAl_sendable
  have hfound := hkpFetch_found samplePeer_base (sampleGet_serves files) (n := 1) (by decide)
    (by decide : (getFingerprint sampleSksHashes sampleAl.publickey).isSome) hsend zeroMemory
    (fun _ => 65) []
  refine ⟨(hfound.1 (sampleFp sampleAl) (by decide) (by decide)).trans ?_,
    (hfound.2 0x7C35F1B264FA7643 (by decide)).trans ?_⟩
  · decide
  · decide

/-- A keyserver without keys, and a buffer from which the client takes a key all the same. -/
theorem hkpFetch_notFound_sample :
    ∃ behind, (hkpFetchKeyFp zeroMemory behind (ascii "http://peer:11371/pks")
      (sampleGet (∅ : KeyFiles)) (sampleFp sampleAl) []).2 = [sampleAl] := by
  have hsend : ∀ key ∈ [sampleAl], Sendable key := by
    intro key hkey
    rw [List.mem_singleton.mp hkey]
    exact sampleAl_sendable
  have hroom : (armorOpenpgpStream (flattenPublickey [sampleAl])).length ≤ 8178 := by decide +kernel
  have hfetch : sampleFind (∅ : KeyFiles) (.fetchKeyFp (sampleFp sampleAl)) = (0, []) := by decide
  exact (hkpFetch_notFound samplePeer_base (sampleGet_serves _) (by decide) hfetch zeroMemory []).2
    [sampleAl] hsend hroom

end Onak.Hkp
