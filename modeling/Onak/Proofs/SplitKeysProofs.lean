import Onak.Proofs.CodecProofs
import Onak.Proofs.ReadStreamProofs
import Onak.SplitKeys

/-!
# Proofs: what splitkeys makes of a keyring

A round reads up to the key that begins the next file, and hands that key on. That works as long as the
list it reads has two packets or more: with one packet nothing is cut off, and the list that was just
freed is taken for the rest, or the end of the list before it is looked at, which has been freed as well.
-/

namespace Onak

open Source PrefixCode

namespace SplitKeys

/-! ## What a round reads -/

theorem fits_of_framed {p : Packet} {l : List UInt8} (h : Framed p l) (hsane : p.Sane 0) : Fits p := by
  obtain ⟨c, octets, rfl, -⟩ := h.exists_cons
  obtain ⟨s, hread, -⟩ := readPacket_supplies (l := []) buffer_feeds.supplies h hsane rfl
  exact (readPacket_ok hread).1

/-- Packets that pass the version check, whatever lies behind them in memory. -/
def AllSane (ps : List Packet) : Prop := ∀ p ∈ ps, ∀ past, p.Sane past

/-- A limited read takes packets up to a key that reaches the limit, or all of them. -/
theorem readLoop_limited {past : List Packet → UInt8} {maxkeys : Int} {ps : List Packet}
    {octets : List UInt8} (hwords : Words Framed ps octets) (hsane : AllSane ps) {fuel : Nat}
    (hfuel : octets.length < fuel) {before : List Packet} (hbelow : numKeys before < maxkeys) :
    ∃ read rest left, readLoop buffer past maxkeys fuel (numKeys before) before octets =
        some ⟨.ok, before ++ read, left⟩ ∧ ps = read ++ rest ∧ Words Framed rest left ∧
      ((rest = [] ∧ numKeys (before ++ read) < maxkeys) ∨
        ∃ front key, read = front ++ [key] ∧ key.tag = tagPublickey ∧
          numKeys (before ++ front) + 1 = maxkeys) := by
  induction hwords generalizing before fuel with
  | nil =>
    obtain ⟨fuel, rfl⟩ := Nat.exists_eq_succ_of_ne_zero (Nat.ne_of_gt (Nat.zero_lt_of_lt hfuel))
    refine ⟨[], [], [], ?_, rfl, .nil, .inl ⟨rfl, by rwa [List.append_nil]⟩⟩
    rw [List.append_nil]
    exact readLoop_end (.inr hbelow) rfl
  | @cons p l ps ls hframed hrest ih =>
    obtain ⟨fuel, rfl⟩ := Nat.exists_eq_succ_of_ne_zero (Nat.ne_of_gt (Nat.zero_lt_of_lt hfuel))
    obtain ⟨c, lengths, rfl, hbit⟩ := hframed.exists_cons
    obtain ⟨s, hread, hs⟩ := readPacket_supplies buffer_feeds.supplies hframed
      (hsane p (by simp) (past before)) (l := ls) rfl
    rw [hs] at hread
    have hround : readLoop buffer past maxkeys (fuel + 1) (numKeys before) before
        (c :: lengths ++ ls) = readLoop buffer past maxkeys fuel (numKeys (before ++ [p]))
          (before ++ [p]) ls := by
      rw [readLoop_packet (.inr hbelow) rfl hbit hread, ← numKeys_concat]
    rw [hround]
    have hfuel' : ls.length < fuel := by
      simp only [List.length_append, List.length_cons] at hfuel
      omega
    by_cases hmore : (numKeys (before ++ [p]) : Int) < maxkeys
    · obtain ⟨read, rest, left, hloop, rfl, hleft, hcase⟩ :=
        ih (fun q hq => hsane q (List.mem_cons_of_mem _ hq)) hfuel' hmore
      rw [List.append_assoc, List.singleton_append] at hloop hcase
      refine ⟨p :: read, rest, left, hloop, rfl, hleft, hcase.imp_right ?_⟩
      rintro ⟨front, key, rfl, hkey, hnum⟩
      rw [List.append_assoc, List.singleton_append] at hnum
      exact ⟨p :: front, key, rfl, hkey, hnum⟩
    · -- the packet is the key that reaches the limit
      have hkey : p.tag = tagPublickey := by
        by_contra hne
        rw [numKeys_concat, if_neg hne] at hmore
        exact hmore hbelow
      rw [numKeys_concat, if_pos hkey] at hmore
      obtain ⟨fuel, rfl⟩ := Nat.exists_eq_succ_of_ne_zero (Nat.ne_of_gt (Nat.zero_lt_of_lt hfuel'))
      refine ⟨[p], ps, ls, ?_, rfl, hrest, .inr ⟨[], p, rfl, hkey, ?_⟩⟩
      · rw [readLoop, if_pos]
        rw [numKeys_concat, if_pos hkey]
        omega
      · rw [List.append_nil]
        omega

/-! ## The end of the list -/

theorem findEnd_last {mem : Cells Packet} {listEnd : Nat} {p : Packet}
    (h : mem.lookup listEnd = some ⟨p, none⟩) (steps : Nat) (tmp : Option Nat) :
    findEnd (steps + 1) mem tmp listEnd = some (mem, tmp, listEnd) := by
  simp only [findEnd, h, Option.bind_eq_bind, Option.bind_some]
  rfl

theorem findEnd_next {mem : Cells Packet} {listEnd next : Nat} {p : Packet} {e : Cell Packet}
    (h : mem.lookup listEnd = some ⟨p, some next⟩) (he : mem.lookup next = some e) (steps : Nat)
    (tmp : Option Nat) :
    findEnd (steps + 1) mem tmp listEnd =
      if e.next = none ∧ e.val.tag = tagPublickey then
        (mem.setNext listEnd none).bind fun mem => findEnd steps mem (some listEnd) next
      else
        findEnd steps mem (some listEnd) next := by
  simp only [findEnd, h, he, Option.bind_eq_bind, Option.bind_some]

theorem findEnd_singleton {mem : Cells Packet} {head : Nat} {n : Node Packet}
    (h : Cells.IsList mem (some head) [n]) {steps : Nat} (hsteps : 0 < steps) (tmp : Option Nat) :
    findEnd steps mem tmp head = some (mem, tmp, head) := by
  obtain ⟨steps, rfl⟩ := Nat.exists_eq_succ_of_ne_zero hsteps.ne'
  obtain rfl := Option.some.inj h.segment.head
  exact findEnd_last (@Cells.IsList.lookup _ _ _ [] [] n h) steps tmp

/-- The end of a list of two packets or more: the last packet is cut off if it is a key. -/
theorem findEnd_spec {mem : Cells Packet} {head : Nat} {front : List (Node Packet)}
    {y z : Node Packet} (h : Cells.IsList mem (some head) (front ++ [y, z])) {steps : Nat}
    (hsteps : front.length + 1 < steps) (tmp : Option Nat) :
    findEnd steps mem tmp head = if z.val.tag = tagPublickey then
        (mem.setNext y.addr none).map fun mem => (mem, some y.addr, z.addr)
      else
        some (mem, some y.addr, z.addr) := by
  induction front generalizing head steps tmp with
  | nil =>
    obtain ⟨steps, rfl⟩ := Nat.exists_eq_add_of_lt hsteps
    have hsteps' : ([] : List (Node Packet)).length + 1 + steps + 1 = steps + 1 + 1 := by
      rw [List.length_nil]
      omega
    rw [hsteps']
    obtain rfl := Option.some.inj h.segment.head
    have hy : mem.lookup y.addr = some ⟨y.val, some z.addr⟩ := @Cells.IsList.lookup _ _ _ [] [z] y h
    have hz : mem.lookup z.addr = some ⟨z.val, none⟩ := @Cells.IsList.lookup _ _ _ [y] [] z h
    show findEnd (steps + 1 + 1) mem tmp y.addr = _
    rw [findEnd_next hy hz]
    by_cases hkey : z.val.tag = tagPublickey
    · rw [if_pos ⟨rfl, hkey⟩, if_pos hkey]
      obtain ⟨mem', hset, -, hkept⟩ := @Cells.IsList.cut _ _ _ [] [z] y h
      have hne : z.addr ≠ y.addr := by
        have hnodup := h.nodup
        simp only [List.nil_append, List.map_cons, List.map_nil, List.nodup_cons,
          List.mem_singleton] at hnodup
        exact fun heq => hnodup.1 heq.symm
      rw [hset, Option.bind_some, Option.map_some]
      exact findEnd_last ((hkept _ hne).trans hz) steps _
    · rw [if_neg fun hc => hkey hc.2, if_neg hkey]
      exact findEnd_last hz steps _
  | cons x front ih =>
    obtain ⟨steps, rfl⟩ := Nat.exists_eq_succ_of_ne_zero (Nat.ne_of_gt (Nat.zero_lt_of_lt hsteps))
    obtain rfl := Option.some.inj h.segment.head
    obtain ⟨next, hx, hrest⟩ := h.tail
    -- the next packet is not the last one
    obtain ⟨q, c, rfl, hq, hnext⟩ : ∃ q c, next = some q ∧ mem.lookup q = some c ∧ c.next ≠ none := by
      cases front with
      | nil => exact ⟨_, _, hrest.segment.head, @Cells.IsList.lookup _ _ _ [] [z] y hrest, nofun⟩
      | cons x' front =>
        refine ⟨_, _, hrest.segment.head, @Cells.IsList.lookup _ _ _ [] _ x' hrest, ?_⟩
        cases front with
        | nil => exact nofun
        | cons x'' front => exact nofun
    show findEnd (steps + 1) mem tmp x.addr = _
    rw [findEnd_next hx hq, if_neg fun hc => hnext hc.1]
    exact ih hrest (Nat.lt_of_succ_lt_succ hsteps) _

/-! ## What a round writes -/

/-- The octets that are written for some packets. -/
def written (ps : List Packet) : List UInt8 := (writeOpenpgpStream (· ++ ·) [] ps).2

/-- What is written and freed in a round. -/
theorem writeFile_of_findEnd {s : State} {head listEnd : Nat} {mem : Cells Packet} {tmp : Option Nat}
    {more : Bool} {ns : List (Node Packet)} (hpackets : s.packets = some head)
    (hfind : findEnd s.mem.keys.length s.mem s.tmp head = some (mem, tmp, listEnd))
    (hgoes : goesOn mem tmp = some more) (hlist : Cells.IsList mem (some head) ns) :
    ∃ mem', writeFile s = some ⟨s.stdin, mem', if more then none else some listEnd, tmp,
        s.files ++ [written (ns.map Node.val)]⟩ ∧
      ∀ a, mem'.lookup a = if a ∈ ns.map Node.addr then none else mem.lookup a := by
  obtain ⟨mem', hfree, hlookup⟩ := hlist.free
  refine ⟨mem', ?_, hlookup⟩
  simp only [writeFile, hpackets, hfind, hgoes, hlist.nodes, hfree, Option.bind_eq_bind,
    Option.bind_some]
  rfl

/-- A list of two packets or more. -/
theorem exists_head {s : State} {front : List (Node Packet)} {y z : Node Packet}
    (h : Cells.IsList s.mem s.packets (front ++ [y, z])) :
    ∃ head, s.packets = some head ∧ Cells.IsList s.mem (some head) (front ++ [y, z]) ∧
      front.length + 1 < s.mem.keys.length := by
  have hlen := h.length_le
  rw [List.length_append, List.length_cons, List.length_singleton] at hlen
  cases hpackets : s.packets with
  | none =>
    rw [hpackets] at h
    have hhead := h.segment.head
    cases front with
    | nil => cases hhead
    | cons x front => cases hhead
  | some head => exact ⟨head, rfl, hpackets ▸ h, by omega⟩

/-- Of two packets or more, a key at the end is kept for the next round, and the rest is written. -/
theorem writeFile_key {s : State} {front : List (Node Packet)} {y z : Node Packet}
    (h : Cells.IsList s.mem s.packets (front ++ [y, z])) (hkey : z.val.tag = tagPublickey) :
    ∃ mem', writeFile s = some ⟨s.stdin, mem', some z.addr, some y.addr,
        s.files ++ [written ((front ++ [y]).map Node.val)]⟩ ∧
      mem'.lookup z.addr = some ⟨z.val, none⟩ ∧ y.addr ∉ mem' := by
  obtain ⟨head, hpackets, h, hsteps⟩ := exists_head h
  obtain ⟨mem, hset, hlist, hkept⟩ := h.cut
  have hfind := findEnd_spec h hsteps s.tmp
  rw [if_pos hkey, hset, Option.map_some] at hfind
  have hgoes : goesOn mem (some y.addr) = some false := by
    rw [goesOn, hlist.lookup]
    rfl
  obtain ⟨mem', hwrite, hlookup⟩ := writeFile_of_findEnd hpackets hfind hgoes hlist
  refine ⟨mem', hwrite, ?_, ?_⟩
  · have hnodup := h.nodup
    rw [List.append_cons, List.map_append, List.nodup_append] at hnodup
    have hnotMem : z.addr ∉ (front ++ [y]).map Node.addr := fun hmem =>
      hnodup.2.2 _ hmem _ (List.mem_singleton_self _) rfl
    have hne : z.addr ≠ y.addr := fun heq => hnotMem (by simp [heq])
    rw [List.append_cons] at h
    rw [hlookup, if_neg hnotMem, hkept _ hne, h.lookup]
    rfl
  · rw [← AList.lookup_eq_none, hlookup, if_pos (by simp)]

/-- Of two packets or more without a key at the end all are written, and nothing is left. -/
theorem writeFile_all {s : State} {front : List (Node Packet)} {y z : Node Packet}
    (h : Cells.IsList s.mem s.packets (front ++ [y, z])) (hkey : z.val.tag ≠ tagPublickey) :
    ∃ mem', writeFile s = some ⟨s.stdin, mem', none, some y.addr,
      s.files ++ [written ((front ++ [y, z]).map Node.val)]⟩ := by
  obtain ⟨head, hpackets, h, hsteps⟩ := exists_head h
  have hfind := findEnd_spec h hsteps s.tmp
  rw [if_neg hkey] at hfind
  have hgoes : goesOn s.mem (some y.addr) = some true := by
    rw [goesOn, h.lookup]
    rfl
  obtain ⟨mem', hwrite, -⟩ := writeFile_of_findEnd hpackets hfind hgoes h
  exact ⟨mem', hwrite⟩

/-- In the first round a packet alone is written, freed, and taken for what is left. -/
theorem writeFile_first {s : State} {n : Node Packet} (h : Cells.IsList s.mem s.packets [n])
    (htmp : s.tmp = none) :
    ∃ s' a, writeFile s = some s' ∧ s'.packets = some a ∧ a ∉ s'.mem := by
  have hpackets : s.packets = some n.addr := h.segment.head
  rw [hpackets] at h
  have hfind := findEnd_singleton h (Nat.lt_of_lt_of_le Nat.zero_lt_one h.length_le) s.tmp
  have hgoes : goesOn s.mem s.tmp = some false := by
    rw [htmp]
    rfl
  obtain ⟨mem', hwrite, hlookup⟩ := writeFile_of_findEnd hpackets hfind hgoes h
  refine ⟨_, n.addr, hwrite, rfl, ?_⟩
  rw [← AList.lookup_eq_none, hlookup, if_pos (by simp)]

/-- In a later round the packet before a packet alone has been freed when it is looked at. -/
theorem writeFile_later {s : State} {n : Node Packet} (h : Cells.IsList s.mem s.packets [n])
    {tmp : Nat} (htmp : s.tmp = some tmp) (hfreed : tmp ∉ s.mem) : writeFile s = none := by
  have hpackets : s.packets = some n.addr := h.segment.head
  rw [hpackets] at h
  have hfind := findEnd_singleton h (Nat.lt_of_lt_of_le Nat.zero_lt_one h.length_le) s.tmp
  have hgoes : goesOn s.mem s.tmp = none := by
    rw [htmp, goesOn, AList.lookup_eq_none.mpr hfreed]
    rfl
  simp only [writeFile, hpackets, hfind, hgoes, Option.bind_eq_bind, Option.bind_some,
    Option.bind_none]

/-- A packet that `write_openpgp_stream` writes in full. -/
def Writable (p : Packet) : Prop := p.newformat = true → p.length < 0xFFFFFFFF

theorem Writable.header {p : Packet} (h : Writable p) : ∃ header, headerOctets p = some header := by
  unfold headerOctets
  by_cases hnew : p.newformat = true
  · have hlen := h hnew
    rw [if_pos hnew]
    unfold newFormatHeader
    split_ifs
    · exact ⟨_, rfl⟩
    · exact ⟨_, rfl⟩
    · exact ⟨_, rfl⟩
  · rw [if_neg hnew]
    exact ⟨_, rfl⟩

theorem writeOpenpgpStream_append (t : List UInt8) (ps : List Packet) :
    (writeOpenpgpStream (· ++ ·) t ps).2 = t ++ written ps := by
  induction ps generalizing t with
  | nil => exact (List.append_nil t).symm
  | cons p ps ih =>
    unfold written writeOpenpgpStream
    by_cases hnew : p.newformat = true
    · simp only [hnew, if_true]
      cases newFormatHeader p.length with
      | none => rfl
      | some octets =>
        simp only [ih, List.append_assoc, List.nil_append]
    · simp only [hnew, if_false, ih, List.append_assoc, List.nil_append, Bool.false_eq_true]

theorem written_cons {p : Packet} {header : List UInt8} (h : headerOctets p = some header)
    (ps : List Packet) : written (p :: ps) = header ++ p.data ++ written ps := by
  unfold headerOctets at h
  rw [written, writeOpenpgpStream]
  by_cases hnew : p.newformat = true
  · rw [if_pos hnew] at h
    obtain ⟨octets, hoctets, rfl⟩ := Option.map_eq_some_iff.mp h
    simp only [hnew, if_true, hoctets, writeOpenpgpStream_append, List.nil_append,
      List.singleton_append]
  · rw [if_neg hnew] at h
    obtain rfl := Option.some.inj h
    simp only [hnew, if_false, writeOpenpgpStream_append, List.nil_append, Bool.false_eq_true]

theorem written_unwritable {p : Packet} (h : ¬ Writable p) (ps : List Packet) :
    written (p :: ps) = [UInt8.ofNat (0x80 ||| 0x40 ||| p.tag)] := by
  obtain ⟨hnew, hlen⟩ := Classical.not_imp.mp h
  have hnone : newFormatHeader p.length = none := by
    unfold newFormatHeader
    rw [if_neg (by omega), if_neg (by omega), if_neg hlen]
  rw [written, writeOpenpgpStream]
  simp only [hnew, if_true, hnone, List.nil_append]

theorem words_written {ps : List Packet} (hfits : ∀ p ∈ ps, Fits p) (h : ∀ p ∈ ps, Writable p) :
    Words Framed ps (written ps) := by
  induction ps with
  | nil => exact .nil
  | cons p ps ih =>
    obtain ⟨header, hheader⟩ := (h p List.mem_cons_self).header
    rw [written_cons hheader]
    exact .cons (framed_of_headerOctets (hfits p List.mem_cons_self) hheader)
      (ih (fun q hq => hfits q (List.mem_cons_of_mem _ hq)) fun q hq => h q (List.mem_cons_of_mem _ hq))

/-- Behind the first octet of a packet that cannot be written its file ends. -/
theorem written_until {ps : List Packet} (hfits : ∀ p ∈ ps, Fits p) (h : ∃ p ∈ ps, ¬ Writable p) :
    ∃ before p after l c, ps = before ++ p :: after ∧ ¬ Writable p ∧ Words Framed before l ∧
      written ps = l ++ [c] := by
  induction ps with
  | nil =>
    obtain ⟨p, hp, -⟩ := h
    exact absurd hp (List.not_mem_nil)
  | cons p ps ih =>
    by_cases hp : Writable p
    · have hrest : ∃ q ∈ ps, ¬ Writable q := by
        obtain ⟨q, hq, hbad⟩ := h
        rcases List.mem_cons.mp hq with rfl | hq
        · exact absurd hp hbad
        · exact ⟨q, hq, hbad⟩
      obtain ⟨before, q, after, l, c, rfl, hq, hwords, hwritten⟩ :=
        ih (fun q hq => hfits q (List.mem_cons_of_mem _ hq)) hrest
      obtain ⟨header, hheader⟩ := hp.header
      refine ⟨p :: before, q, after, header ++ p.data ++ l, c, rfl, hq, ?_, ?_⟩
      · exact .cons (framed_of_headerOctets (hfits p List.mem_cons_self) hheader) hwords
      · rw [written_cons hheader, hwritten, List.append_assoc _ l]
    · exact ⟨[], p, ps, [], _, rfl, hp, .nil, written_unwritable hp ps⟩

/-- A packet that cannot be written has a length of five octets, the first of which is 255. -/
theorem framed_unwritable {p : Packet} {l : List UInt8} (h : Framed p l) (hp : ¬ Writable p) :
    ∃ c t, l = c :: 255 :: t := by
  obtain ⟨hnew, hlen⟩ := Classical.not_imp.mp hp
  cases h with
  | @new c octets data _ _ hlength =>
    have hlen' : ¬ data.length < 0xFFFFFFFF := hlen
    generalize hn : data.length = n at hlength hlen'
    cases hlength with
    | @one d hd =>
      have hlt : d.toNat < 192 := hd
      omega
    | @two d e _ _ =>
      have hd := d.toNat_lt
      have he := e.toNat_lt
      omega
    | five => exact ⟨c, _, rfl⟩
  | old => cases hnew

/-! ## Rounds -/

section

variable {m : Malloc} {past : List Packet → UInt8} {maxkeys : Int}

/-- A round reads behind the packets that are there, up to a key that reaches the limit. -/
theorem readStream_spec {s : State} {ns : List (Node Packet)}
    (hlist : Cells.IsList s.mem s.packets ns) {ps : List Packet} (hwords : Words Framed ps s.stdin)
    (hsane : AllSane ps) (hpos : 0 < maxkeys) :
    ∃ s' new read rest, readStream m past maxkeys s = some s' ∧ ps = read ++ rest ∧
      Words Framed rest s'.stdin ∧ Cells.IsList s'.mem s'.packets (ns ++ new) ∧
      new.map Node.val = read ∧ s'.tmp = s.tmp ∧ s'.files = s.files ∧
      (read = [] → s'.mem = s.mem) ∧
      ((rest = [] ∧ numKeys read < maxkeys) ∨
        ∃ front key, read = front ++ [key] ∧ key.tag = tagPublickey ∧
          numKeys front + 1 = maxkeys) := by
  obtain ⟨read, rest, left, hloop, hps, hrest, hcase⟩ :=
    @readLoop_limited past maxkeys ps s.stdin hwords hsane _ (Nat.lt_succ_self _) [] hpos
  obtain ⟨new, packets, mem, happend, hlist', hvals, -⟩ := hlist.append m read
  refine ⟨⟨left, mem, packets, s.tmp, s.files⟩, new, read, rest, ?_, hps, hrest, hlist', hvals, rfl,
    rfl, ?_, hcase⟩
  · have hread : readOpenpgpStream buffer past (s.stdin.length + 1) s.stdin [] maxkeys =
        some ⟨.ok, read, left⟩ := by
      unfold readOpenpgpStream
      rw [show readLoop buffer past maxkeys (s.stdin.length + 1) 0 [] s.stdin = _ from hloop]
      rfl
    simp only [readStream, hlist.nodes, hread, happend, Option.bind_eq_bind, Option.bind_some]
    rfl
  · rintro rfl
    cases happend
    rfl

/-- `packets` points to a key alone, and `tmp` to a packet that has been freed. -/
structure Carried (s : State) (key : Packet) : Prop where
  isKey : key.tag = tagPublickey
  list : ∃ n, n.val = key ∧ Cells.IsList s.mem s.packets [n]
  freed : ∃ tmp, s.tmp = some tmp ∧ tmp ∉ s.mem

theorem exists_last_two {α : Type} {l : List α} (h : 2 ≤ l.length) :
    ∃ front y z, l = front ++ [y, z] := by
  obtain ⟨l', z, rfl⟩ := (List.eq_nil_or_concat l).resolve_left (by
    rintro rfl
    simp at h)
  obtain ⟨front, y, rfl⟩ := (List.eq_nil_or_concat l').resolve_left (by
    rintro rfl
    simp at h)
  exact ⟨front, y, z, by simp⟩

/-- What is done with two packets or more: all are written, or all but a key at the end. -/
theorem writeFile_spec {s : State} {ns : List (Node Packet)}
    (hlist : Cells.IsList s.mem s.packets ns) (hlen : 2 ≤ ns.length) :
    ∃ s', writeFile s = some s' ∧ s'.stdin = s.stdin ∧
      ((∃ front z, ns.map Node.val = front ++ [z] ∧ front ≠ [] ∧ Carried s' z ∧
          s'.files = s.files ++ [written front]) ∨
        (∃ front z, ns.map Node.val = front ++ [z] ∧ z.tag ≠ tagPublickey ∧ s'.packets = none ∧
          s'.files = s.files ++ [written (ns.map Node.val)])) := by
  obtain ⟨front, y, z, rfl⟩ := exists_last_two hlen
  by_cases hkey : z.val.tag = tagPublickey
  · obtain ⟨mem', hwrite, hz, hy⟩ := writeFile_key hlist hkey
    refine ⟨_, hwrite, rfl, .inl ⟨(front ++ [y]).map Node.val, z.val, by simp, by simp, ?_, rfl⟩⟩
    exact ⟨hkey, ⟨z, rfl, Cells.isList_singleton hz⟩, y.addr, rfl, hy⟩
  · obtain ⟨mem', hwrite⟩ := writeFile_all hlist hkey
    exact ⟨_, hwrite, rfl, .inr ⟨(front ++ [y]).map Node.val, z.val, by simp, hkey, rfl, rfl⟩⟩

/-! ## Runs -/

/-- A key comes first. -/
def BeginsWithKey (ps : List Packet) : Prop := ∃ key, ps.head? = some key ∧ key.tag = tagPublickey

/-- A key comes last. -/
def EndsInKey (ps : List Packet) : Prop := ∃ key, ps.getLast? = some key ∧ key.tag = tagPublickey

/-- What a file is to hold. -/
def KeyChunk (maxkeys : Int) (chunk : List Packet) : Prop :=
  BeginsWithKey chunk ∧ numKeys chunk ≤ maxkeys

theorem numKeys_cons_key {key : Packet} (hkey : key.tag = tagPublickey) (ps : List Packet) :
    numKeys (key :: ps) = numKeys ps + 1 := by
  simp [numKeys, hkey]

theorem BeginsWithKey.numKeys_pos {ps : List Packet} (h : BeginsWithKey ps) : 0 < numKeys ps := by
  obtain ⟨key, hhead, hkey⟩ := h
  obtain ⟨ps, rfl⟩ := List.head?_eq_some_iff.mp hhead
  rw [numKeys_cons_key hkey]
  exact Nat.succ_pos _

theorem numKeys_le_append (ps qs : List Packet) : numKeys ps ≤ numKeys (ps ++ qs) := by
  rw [numKeys, numKeys, List.countP_append]
  exact Nat.le_add_right _ _

theorem endsInKey_append_cons (ps qs : List Packet) (p : Packet) :
    EndsInKey (ps ++ p :: qs) ↔ EndsInKey (p :: qs) := by
  unfold EndsInKey
  rw [List.getLast?_append_cons]

theorem mainLoop_succ {s s' : State} (h : round m past maxkeys s = some s') (fuel : Nat) :
    mainLoop m past maxkeys (fuel + 1) s =
      if s'.packets = none then some s'.files else mainLoop m past maxkeys fuel s' := by
  simp only [mainLoop, h, Option.bind_eq_bind, Option.bind_some]
  rfl

/-- There is no next round. -/
theorem mainLoop_eq_none {s : State} (h : round m past maxkeys s = none) (fuel : Nat) :
    mainLoop m past maxkeys fuel s = none := by
  cases fuel with
  | zero => rfl
  | succ fuel => simp only [mainLoop, h, Option.bind_eq_bind, Option.bind_none]

/-- A run that comes to its end does so with more fuel as well. -/
theorem mainLoop_le {s : State} {files : List (List UInt8)} {fuel fuel' : Nat}
    (h : mainLoop m past maxkeys fuel s = some files) (hle : fuel ≤ fuel') :
    mainLoop m past maxkeys fuel' s = some files := by
  induction fuel generalizing s fuel' with
  | zero => cases h
  | succ fuel ih =>
    obtain ⟨fuel', rfl⟩ := Nat.exists_eq_add_of_lt hle
    cases hround : round m past maxkeys s with
    | none =>
      rw [mainLoop_eq_none hround] at h
      cases h
    | some s' =>
      rw [mainLoop_succ hround] at h ⊢
      split_ifs at h ⊢
      · exact h
      · exact ih h (by omega)

theorem round_of_read {s s' : State} (h : readStream m past maxkeys s = some s') :
    round m past maxkeys s = writeFile s' := by
  simp only [round, h, Option.bind_eq_bind, Option.bind_some]

/-- The packets that a round may have read. -/
def UpToLimit (maxkeys : Int) (ps rest : List Packet) : Prop :=
  (rest = [] ∧ numKeys ps ≤ maxkeys) ∨
    ∃ front key, ps = front ++ [key] ∧ key.tag = tagPublickey ∧ numKeys front ≤ maxkeys

/-- All but the last of these packets may make up a file. -/
theorem UpToLimit.keyChunk {ps rest : List Packet} {z : Packet}
    (h : UpToLimit maxkeys (ps ++ [z]) rest) (hne : ps ≠ []) (hfirst : BeginsWithKey (ps ++ [z])) :
    KeyChunk maxkeys ps := by
  constructor
  · obtain ⟨p, ps, rfl⟩ := List.exists_cons_of_ne_nil hne
    exact hfirst
  · rcases h with ⟨-, hnum⟩ | ⟨front, key, heq, -, hnum⟩
    · exact le_trans (Int.ofNat_le.mpr (numKeys_le_append ps [z])) hnum
    · rwa [(List.append_inj' heq rfl).1]

/-- Behind a key a round reads up to the limit, the key included. -/
theorem upToLimit_cons {key : Packet} (hkey : key.tag = tagPublickey) {read rest : List Packet}
    (hlimit : (rest = [] ∧ numKeys read < maxkeys) ∨
      ∃ front last, read = front ++ [last] ∧ last.tag = tagPublickey ∧ numKeys front + 1 = maxkeys) :
    UpToLimit maxkeys (key :: read) rest := by
  rcases hlimit with ⟨rfl, hnum⟩ | ⟨front, last, rfl, hlast, hnum⟩
  · refine .inl ⟨rfl, ?_⟩
    rw [numKeys_cons_key hkey]
    omega
  · refine .inr ⟨key :: front, last, rfl, hlast, ?_⟩
    rw [numKeys_cons_key hkey]
    omega

/-- A round has read the packets `ns`, two or more with a key in front, and `rest` is still to be read. -/
structure HasRead (m : Malloc) (past : List Packet → UInt8) (maxkeys : Int) (s s' : State)
    (ns : List (Node Packet)) (rest : List Packet) : Prop where
  read : readStream m past maxkeys s = some s'
  list : Cells.IsList s'.mem s'.packets ns
  two : 2 ≤ ns.length
  first : BeginsWithKey (ns.map Node.val)
  words : Words Framed rest s'.stdin
  sane : AllSane rest
  limit : UpToLimit maxkeys (ns.map Node.val) rest

theorem Carried.packets_ne {s : State} {key : Packet} (h : Carried s key) : s.packets ≠ none := by
  obtain ⟨n, -, hlist⟩ := h.list
  rw [hlist.segment.head]
  exact nofun

/-- There is no packet behind a key that was handed on: the freed packet before it is looked at. -/
theorem Carried.round_eq_none {s : State} {key : Packet} (h : Carried s key)
    (hwords : Words Framed [] s.stdin) (hpos : 0 < maxkeys) : round m past maxkeys s = none := by
  obtain ⟨n, -, hlist⟩ := h.list
  obtain ⟨tmp, htmp, hfreed⟩ := h.freed
  obtain ⟨s', new, read, rest, hread, hnil, -, hlist', hvals, htmp', -, hmem, -⟩ :=
    @readStream_spec m past maxkeys s [n] hlist [] hwords (fun p hp => absurd hp List.not_mem_nil) hpos
  obtain ⟨rfl, -⟩ := List.append_eq_nil_iff.mp hnil.symm
  obtain rfl := List.map_eq_nil_iff.mp hvals
  rw [round_of_read hread]
  exact writeFile_later hlist' (htmp'.trans htmp) (hmem rfl ▸ hfreed)

/-- With packets behind a key that was handed on the next round reads at least one of them. -/
theorem Carried.hasRead {s : State} {key : Packet} (h : Carried s key) {ps : List Packet}
    (hne : ps ≠ []) (hwords : Words Framed ps s.stdin) (hsane : AllSane ps) (hpos : 0 < maxkeys) :
    ∃ s' ns rest, HasRead m past maxkeys s s' ns rest ∧ ns.map Node.val ++ rest = key :: ps ∧
      s'.files = s.files ∧ rest.length < ps.length := by
  obtain ⟨n, rfl, hlist⟩ := h.list
  obtain ⟨s', new, read, rest, hread, rfl, hwords', hlist', hvals, -, hfiles, -, hlimit⟩ :=
    @readStream_spec m past maxkeys s [n] hlist ps hwords hsane hpos
  have hlen : 0 < read.length := by
    refine List.length_pos_of_ne_nil ?_
    rintro rfl
    rcases hlimit with ⟨rfl, -⟩ | ⟨front, last, heq, -⟩
    · exact hne rfl
    · exact absurd heq (by simp)
  have hall : ([n] ++ new).map Node.val = n.val :: read := by
    rw [List.map_append, hvals, List.map_singleton, List.singleton_append]
  have hnew := congrArg List.length hvals
  rw [List.length_map] at hnew
  refine ⟨s', [n] ++ new, rest, ⟨hread, hlist', ?_, ?_, hwords',
    fun p hp => hsane p (List.mem_append_right _ hp), ?_⟩, ?_, hfiles, ?_⟩
  · rw [List.length_append, List.length_singleton]
    omega
  · rw [hall]
    exact ⟨n.val, rfl, h.isKey⟩
  · rw [hall]
    exact upToLimit_cons h.isKey hlimit
  · rw [hall, List.cons_append]
  · rw [List.length_append]
    omega

/-- Where no key is at the end, everything was read and makes up a file. -/
theorem HasRead.complete {s s' : State} {ns : List (Node Packet)} {rest : List Packet}
    (h : HasRead m past maxkeys s s' ns rest) {front : List Packet} {z : Packet}
    (hvals : ns.map Node.val = front ++ [z]) (hz : z.tag ≠ tagPublickey) :
    rest = [] ∧ KeyChunk maxkeys (ns.map Node.val) := by
  have hlimit := h.limit.resolve_right (by
    rintro ⟨front', key, heq, hkey, -⟩
    obtain rfl := List.singleton_inj.mp (List.append_inj_right' (hvals.symm.trans heq) rfl)
    exact hz hkey)
  exact ⟨hlimit.1, h.first, hlimit.2⟩

/-- From a round that has read two packets or more the run comes to its end, unless the last packet of
all is a key. -/
theorem mainLoop_read (hpos : 0 < maxkeys) {s s' : State} {ns : List (Node Packet)}
    {rest : List Packet} (h : HasRead m past maxkeys s s' ns rest) :
    (EndsInKey (ns.map Node.val ++ rest) → ∀ fuel, mainLoop m past maxkeys fuel s = none) ∧
    (¬ EndsInKey (ns.map Node.val ++ rest) → ∀ fuel, rest.length < fuel →
      ∃ chunks : List (List Packet),
        mainLoop m past maxkeys fuel s = some (s'.files ++ chunks.map written) ∧
        chunks.flatten = ns.map Node.val ++ rest ∧ ∀ chunk ∈ chunks, KeyChunk maxkeys chunk) := by
  induction hn : rest.length using Nat.strong_induction_on generalizing s s' ns rest with
  | _ n ih =>
  subst hn
  obtain ⟨s₁, hwrite, hstdin, hcase⟩ := writeFile_spec h.list h.two
  have hround : round m past maxkeys s = some s₁ := (round_of_read h.read).trans hwrite
  rcases hcase with ⟨front, z, hvals, hne, hcarried, hfiles⟩ | ⟨front, z, hvals, hz, hnone, hfiles⟩
  · -- the next round begins with the key that is left
    have hmore : ∀ fuel, mainLoop m past maxkeys (fuel + 1) s = mainLoop m past maxkeys fuel s₁ :=
      fun fuel => by rw [mainLoop_succ hround, if_neg hcarried.packets_ne]
    have hwords : Words Framed rest s₁.stdin := hstdin ▸ h.words
    rw [hvals, List.append_assoc, List.singleton_append, endsInKey_append_cons]
    by_cases hrest : rest = []
    · subst hrest
      refine ⟨fun _ fuel => ?_, fun hends => absurd ⟨z, rfl, hcarried.isKey⟩ hends⟩
      cases fuel with
      | zero => rfl
      | succ fuel => exact (hmore fuel).trans (mainLoop_eq_none (hcarried.round_eq_none hwords hpos) fuel)
    · obtain ⟨s₂, ns₂, rest₂, hread₂, hall, hfiles₂, hlt⟩ :=
        @Carried.hasRead m past maxkeys s₁ z hcarried rest hrest hwords h.sane hpos
      obtain ⟨hbad, hgood⟩ := ih _ hlt hread₂ rfl
      rw [hall] at hbad hgood
      refine ⟨fun hends fuel => ?_, fun hends fuel hfuel => ?_⟩
      · cases fuel with
        | zero => rfl
        | succ fuel => exact (hmore fuel).trans (hbad hends fuel)
      · obtain ⟨fuel, rfl⟩ := Nat.exists_eq_succ_of_ne_zero (Nat.ne_of_gt (Nat.zero_lt_of_lt hfuel))
        obtain ⟨chunks, hrun, hflat, hchunks⟩ := hgood hends fuel (by omega)
        refine ⟨front :: chunks, ?_, by rw [List.flatten_cons, hflat], ?_⟩
        · rw [hmore fuel, hrun, hfiles₂, hfiles, List.append_assoc, List.singleton_append,
            List.map_cons]
        · exact List.forall_mem_cons.mpr ⟨(hvals ▸ h.limit).keyChunk hne (hvals ▸ h.first), hchunks⟩
  · -- everything is read and written
    obtain ⟨rfl, hchunk⟩ := h.complete hvals hz
    refine ⟨?_, fun _ fuel hfuel => ⟨[ns.map Node.val], ?_, by simp, List.forall_mem_singleton.mpr hchunk⟩⟩
    · rintro ⟨key, hlast, hkey⟩
      rw [List.append_nil, hvals, List.getLast?_concat] at hlast
      exact absurd (Option.some.inj hlast ▸ hkey) hz
    · obtain ⟨fuel, rfl⟩ := Nat.exists_eq_succ_of_ne_zero (Nat.ne_of_gt hfuel)
      rw [mainLoop_succ hround, if_pos hnone, hfiles]
      rfl

/-- A first round that reads one packet: it is freed before the second round. -/
theorem mainLoop_single {s s' : State} {n : Node Packet} (hread : readStream m past maxkeys s = some s')
    (hlist : Cells.IsList s'.mem s'.packets [n]) (htmp : s'.tmp = none) (fuel : Nat) :
    mainLoop m past maxkeys fuel s = none := by
  obtain ⟨s₁, a, hwrite, hpackets, hfreed⟩ := writeFile_first hlist htmp
  have hnone : round m past maxkeys s₁ = none := by
    simp only [round, readStream, hpackets, Cells.nodes_freed hfreed, Option.bind_eq_bind,
      Option.bind_none]
  cases fuel with
  | zero => rfl
  | succ fuel =>
    rw [mainLoop_succ ((round_of_read hread).trans hwrite), if_neg (by rw [hpackets]; exact nofun)]
    exact mainLoop_eq_none hnone fuel

/-- A first round that reads two packets or more keeps to the limit, which is not 1. -/
theorem upToLimit_first {p q : Packet} {read rest : List Packet} (hfirst : BeginsWithKey (p :: q :: read))
    (hlimit : (rest = [] ∧ numKeys (p :: q :: read) < maxkeys) ∨
      ∃ front key, p :: q :: read = front ++ [key] ∧ key.tag = tagPublickey ∧
        numKeys front + 1 = maxkeys) :
    UpToLimit maxkeys (p :: q :: read) rest ∧ maxkeys ≠ 1 := by
  rcases hlimit with ⟨rfl, hnum⟩ | ⟨front, key, heq, hkey, hnum⟩
  · have hpos := hfirst.numKeys_pos
    exact ⟨.inl ⟨rfl, hnum.le⟩, by omega⟩
  · have hpos : 0 < numKeys front := by
      rw [heq] at hfirst
      cases front with
      | nil => cases heq
      | cons x front => exact BeginsWithKey.numKeys_pos hfirst
    exact ⟨.inr ⟨front, key, heq, hkey, by omega⟩, by omega⟩

/-- A run on octets that hold some packets. The second packet is missing, or the limit is met by the
first one, or the run ends unless the last packet is a key. -/
theorem splitkeys_run (m : Malloc) (past : List Packet → UInt8) (hpos : 0 < maxkeys)
    {ps : List Packet} {octets : List UInt8} (hwords : Words Framed ps octets) (hsane : AllSane ps)
    (hfirst : BeginsWithKey ps) :
    (maxkeys = 1 ∨ EndsInKey ps → ∀ fuel, splitkeys m past maxkeys fuel octets = none) ∧
    (maxkeys ≠ 1 → ¬ EndsInKey ps → ∀ fuel, ps.length < fuel → ∃ chunks : List (List Packet),
      splitkeys m past maxkeys fuel octets = some (chunks.map written) ∧ chunks.flatten = ps ∧
        ∀ chunk ∈ chunks, KeyChunk maxkeys chunk) := by
  obtain ⟨s, new, read, rest, hread, rfl, hrest, hlist, hvals, htmp, hfiles, -, hlimit⟩ :=
    @readStream_spec m past maxkeys ⟨octets, ∅, none, none, []⟩ [] Cells.isList_nil ps hwords hsane hpos
  have hsplit : ∀ fuel, splitkeys m past maxkeys fuel octets =
      mainLoop m past maxkeys fuel ⟨octets, ∅, none, none, []⟩ := fun fuel => if_neg hpos.ne'
  simp only [hsplit]
  rw [List.nil_append] at hlist
  match read, new, hvals with
  | [], _, _ =>
    obtain ⟨rfl, -⟩ := hlimit.resolve_right (by
      rintro ⟨front, key, heq, -⟩
      exact absurd heq (by simp))
    obtain ⟨key, hhead, -⟩ := hfirst
    cases hhead
  | [_], [n], rfl =>
    refine ⟨fun _ => mainLoop_single hread hlist htmp, fun hmax hends => ?_⟩
    rcases hlimit with ⟨rfl, -⟩ | ⟨front, key, heq, -, hnum⟩
    · exact absurd hfirst hends
    · have hfront : ([] : List Packet) = front := List.append_inj_left' heq rfl
      rw [← hfront] at hnum
      exact absurd hnum.symm hmax
  | p :: q :: read, new, hvals =>
    have hlen : 2 ≤ new.length := by
      rw [← List.length_map (f := Node.val), hvals]
      exact Nat.le_add_left _ _
    have hbegins : BeginsWithKey (p :: q :: read) := hfirst
    obtain ⟨hlimit', hmax⟩ := upToLimit_first hbegins hlimit
    have hsane' : AllSane rest := fun p hp => hsane p (List.mem_append_right _ hp)
    obtain ⟨hbad, hgood⟩ := mainLoop_read hpos
      ⟨hread, hlist, hlen, hvals ▸ hbegins, hrest, hsane', hvals ▸ hlimit'⟩
    rw [hvals] at hbad hgood
    rw [hfiles] at hgood
    refine ⟨fun hends => hbad (hends.resolve_left hmax), fun _ hends fuel hfuel => ?_⟩
    refine hgood hends fuel (lt_of_le_of_lt ?_ hfuel)
    rw [List.length_append]
    exact Nat.le_add_left _ _

end

/-! ## The files -/

/-- The files hold the packets, one file behind the other. Each file begins with a key and holds so many
keys at most. -/
def Partition (maxkeys : Int) (ps : List Packet) (files : List (List UInt8)) : Prop :=
  ∃ chunks : List (List Packet), chunks.flatten = ps ∧ List.Forall₂ (Words Framed) chunks files ∧
    ∀ chunk ∈ chunks, KeyChunk maxkeys chunk

theorem written_key {chunk : List Packet} (hfirst : BeginsWithKey chunk) :
    ∃ c t, written chunk = c :: t ∧ c ≠ 255 := by
  obtain ⟨p, hhead, hkey⟩ := hfirst
  obtain ⟨ps, rfl⟩ := List.head?_eq_some_iff.mp hhead
  by_cases hp : Writable p
  · obtain ⟨header, hheader⟩ := hp.header
    rw [written_cons hheader]
    unfold headerOctets at hheader
    rw [hkey] at hheader
    by_cases hnew : p.newformat = true
    · rw [if_pos hnew] at hheader
      obtain ⟨octets, -, rfl⟩ := Option.map_eq_some_iff.mp hheader
      exact ⟨_, _, rfl, by decide⟩
    · rw [if_neg hnew] at hheader
      obtain rfl := Option.some.inj hheader
      unfold oldFormatHeader
      split_ifs
      · exact ⟨_, _, rfl, by decide⟩
      · exact ⟨_, _, rfl, by decide⟩
      · exact ⟨_, _, rfl, by decide⟩
  · rw [written_unwritable hp, hkey]
    exact ⟨_, _, rfl, by decide⟩

/-- A packet that cannot be written is missed. -/
theorem not_words_written {chunks : List (List Packet)} (hfits : ∀ p ∈ chunks.flatten, Fits p)
    (hfirst : ∀ chunk ∈ chunks, BeginsWithKey chunk) (h : ∃ p ∈ chunks.flatten, ¬ Writable p) :
    ¬ Words Framed chunks.flatten (chunks.map written).flatten := by
  induction chunks with
  | nil =>
    obtain ⟨p, hp, -⟩ := h
    exact absurd hp List.not_mem_nil
  | cons chunk chunks ih =>
    rw [List.map_cons, List.flatten_cons, List.flatten_cons]
    rw [List.flatten_cons] at hfits h
    intro hwords
    have hfits' : ∀ p ∈ chunk, Fits p := fun p hp => hfits p (List.mem_append_left _ hp)
    by_cases hgood : ∀ p ∈ chunk, Writable p
    · refine ih (fun p hp => hfits p (List.mem_append_right _ hp))
        (fun c hc => hfirst c (List.mem_cons_of_mem _ hc)) ?_
        (framed_prefixFree.words_behind (words_written hfits' hgood) hwords)
      obtain ⟨p, hp, hbad⟩ := h
      exact ⟨p, (List.mem_append.mp hp).resolve_left fun hp => hbad (hgood p hp), hbad⟩
    · push Not at hgood
      obtain ⟨before, p, after, l, c, rfl, hp, hbefore, hwritten⟩ := written_until hfits' hgood
      rw [hwritten, List.append_assoc, List.append_assoc] at hwords
      have hbehind := framed_prefixFree.words_behind hbefore hwords
      generalize hl : [c] ++ (chunks.map written).flatten = left at hbehind
      cases hbehind with
      | cons hframed _ =>
        obtain ⟨c', t, rfl⟩ := framed_unwritable hframed hp
        -- the next file does not begin with 255
        cases chunks with
        | nil => simp at hl
        | cons next chunks =>
          obtain ⟨d, u, hnext, hd⟩ := written_key (hfirst next (by simp))
          rw [List.map_cons, List.flatten_cons, hnext] at hl
          exact hd (List.cons.inj (List.cons.inj hl).2).1

theorem Partition.words {maxkeys : Int} {ps : List Packet} {files : List (List UInt8)}
    (h : Partition maxkeys ps files) : Words Framed ps files.flatten := by
  obtain ⟨chunks, rfl, hwords, -⟩ := h
  exact words_flatten hwords

theorem fits_of_words {ps : List Packet} {octets : List UInt8} (h : Words Framed ps octets)
    (hsane : AllSane ps) : ∀ p ∈ ps, Fits p := by
  induction h with
  | nil => simp
  | @cons p l ps ls hframed _ ih =>
    intro q hq
    rcases List.mem_cons.mp hq with rfl | hq
    · exact fits_of_framed hframed (hsane q List.mem_cons_self 0)
    · exact ih (fun p hp => hsane p (List.mem_cons_of_mem _ hp)) q hq

/-- splitkeys comes to its end, and has partitioned the packets. -/
def Splits (m : Malloc) (past : List Packet → UInt8) (maxkeys : Int) (ps : List Packet)
    (octets : List UInt8) : Prop :=
  ∃ fuel files, splitkeys m past maxkeys fuel octets = some files ∧ Partition maxkeys ps files

/-- **When splitkeys partitions a keyring.** For octets that hold packets of which the first is a key:
the files hold these packets in order, each begins with a key and none has more keys than allowed, if
and only if at least two keys are allowed, the last packet is not a key, and each packet can be
written. -/
theorem splitkeys_partitions_iff (m : Malloc) (past : List Packet → UInt8) {maxkeys : Int}
    (hpos : 0 < maxkeys) {ps : List Packet} {octets : List UInt8} (hwords : Words Framed ps octets)
    (hsane : AllSane ps) (hfirst : BeginsWithKey ps) :
    Splits m past maxkeys ps octets ↔
      2 ≤ maxkeys ∧ ¬ EndsInKey ps ∧ ∀ p ∈ ps, Writable p := by
  obtain ⟨hbad, hgood⟩ := splitkeys_run m past hpos hwords hsane hfirst
  have hfits := fits_of_words hwords hsane
  constructor
  · rintro ⟨fuel, files, hrun, hpart⟩
    have hneither : ¬ (maxkeys = 1 ∨ EndsInKey ps) := by
      intro hcase
      rw [hbad hcase fuel] at hrun
      cases hrun
    obtain ⟨hmax, hends⟩ := not_or.mp hneither
    refine ⟨by omega, hends, ?_⟩
    by_contra hwritable
    push Not at hwritable
    obtain ⟨chunks, hrun', hflat, hchunks⟩ := hgood hmax hends _
      (Nat.lt_succ_of_le (Nat.le_max_right fuel ps.length))
    have hfiles : chunks.map written = files := by
      have hmore : splitkeys m past maxkeys (max fuel ps.length + 1) octets = some files := by
        rw [splitkeys, if_neg hpos.ne'] at hrun ⊢
        exact mainLoop_le hrun (Nat.le_succ_of_le (Nat.le_max_left fuel ps.length))
      exact Option.some.inj (hrun'.symm.trans hmore)
    subst hflat
    exact not_words_written hfits (fun chunk hchunk => (hchunks chunk hchunk).1) hwritable
      (hfiles ▸ hpart.words)
  · rintro ⟨hmax, hends, hwritable⟩
    obtain ⟨chunks, hrun, rfl, hchunks⟩ := hgood (by omega) hends _ (Nat.lt_succ_self _)
    refine ⟨_, _, hrun, chunks, rfl, ?_, hchunks⟩
    rw [List.forall₂_map_right_iff, List.forall₂_same]
    intro chunk hchunk
    have hmem : ∀ p ∈ chunk, p ∈ chunks.flatten := fun p hp => List.mem_flatten.mpr ⟨_, hchunk, hp⟩
    exact words_written (fun p hp => hfits p (hmem p hp)) fun p hp => hwritable p (hmem p hp)

/-- An allocator that gives addresses above those in use. -/
def mallocAbove : Malloc where
  alloc used := used.sum + 1
  fresh := Malloc.sum_succ_not_mem

/-- A key with a user id. -/
def keyWithUid : List Packet := [⟨tagPublickey, false, [4]⟩, ⟨tagUid, false, [65]⟩]

theorem words_keyWithUid : Words Framed keyWithUid [0x98, 1, 4, 0xB4, 1, 65] := by
  have hkey : Framed ⟨tagPublickey, false, [4]⟩ ([0x98] ++ [1] ++ [4]) :=
    @Framed.old 0x98 [1] [4] (by decide) (by decide) (@OldLength.intro _ [1] (by decide) (by decide))
  have huid : Framed ⟨tagUid, false, [65]⟩ ([0xB4] ++ [1] ++ [65]) :=
    @Framed.old 0xB4 [1] [65] (by decide) (by decide) (@OldLength.intro _ [1] (by decide) (by decide))
  exact .cons hkey (.cons huid .nil)

theorem allSane_keyWithUid : AllSane keyWithUid := by
  intro p hp past
  rcases List.mem_cons.mp hp with rfl | hp
  · rfl
  · obtain rfl := List.mem_singleton.mp hp
    rfl

theorem not_endsInKey_keyWithUid : ¬ EndsInKey keyWithUid := by
  rintro ⟨p, hp, htag⟩
  cases hp
  exact absurd htag (by decide)

/-- A key with a user id goes into one file of two keys at most. -/
theorem splitkeys_partitions_keyWithUid :
    Splits mallocAbove (fun _ => 0) 2 keyWithUid [0x98, 1, 4, 0xB4, 1, 65] :=
  (splitkeys_partitions_iff _ _ (by decide) words_keyWithUid allSane_keyWithUid ⟨_, rfl, rfl⟩).mpr
    ⟨by decide, not_endsInKey_keyWithUid, by
      intro p hp hnew
      rcases List.mem_cons.mp hp with rfl | hp
      · cases hnew
      · obtain rfl := List.mem_singleton.mp hp
        cases hnew⟩

/-- It does not go into files of one key at most. -/
theorem splitkeys_single :
    ¬ ∀ (m : Malloc) (past : List Packet → UInt8) (maxkeys : Int) (ps : List Packet)
      (octets : List UInt8), 0 < maxkeys → Words Framed ps octets → AllSane ps → BeginsWithKey ps →
      Splits m past maxkeys ps octets := by
  intro h
  obtain ⟨fuel, files, hrun, -⟩ := h mallocAbove (fun _ => 0) 1 keyWithUid _ (by decide)
    words_keyWithUid allSane_keyWithUid ⟨_, rfl, rfl⟩
  have hnone := (splitkeys_run mallocAbove (fun _ => 0) (by decide) words_keyWithUid
    allSane_keyWithUid ⟨_, rfl, rfl⟩).1 (.inl rfl) fuel
  rw [hnone] at hrun
  cases hrun

end SplitKeys

end Onak
