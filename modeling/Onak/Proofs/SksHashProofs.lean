import Onak.Lib.PrefixCode
import Onak.Proofs.CodecProofs
import Onak.Proofs.SigClassProofs
import Onak.WordList

/-!
# Proofs: the SKS hash

What `get_skshash` hashes is the packets in the order of `compare_packets`, each written with its tag
and its length. The order looks at the tag and the data alone and is total on them, so the sorted
list is the same for every order of the packets; and from tags, lengths and data written one behind
the other the packets can be read off again.
-/

namespace Onak

open PrefixCode

/-- What the SKS hash looks at in a packet. -/
def Packet.contents (p : Packet) : Nat × List UInt8 := (p.tag, p.data)

/-! ## The order of packets -/

/-- What `compare_packets` compares, as an element of a linear order. -/
def Packet.rank (p : Packet) : Nat ×ₗ List Nat := toLex (p.tag, p.data.map UInt8.toNat)

theorem rank_eq_iff {p q : Packet} : p.rank = q.rank ↔ p.contents = q.contents := by
  have hinj : Function.Injective (List.map UInt8.toNat) :=
    List.map_injective_iff.mpr fun _ _ => UInt8.toNat_inj.mp
  simp only [Packet.rank, Packet.contents, EmbeddingLike.apply_eq_iff_eq, Prod.mk.injEq,
    hinj.eq_iff]

/-- `memcmp` on the octets that both have, and then the lengths, is the lexicographic order. -/
theorem memcmp_lt_iff (a b : List UInt8) :
    (memcmp (min a.length b.length) a b < 0 ∨
        memcmp (min a.length b.length) a b = 0 ∧ a.length < b.length) ↔
      a.map UInt8.toNat < b.map UInt8.toNat := by
  induction a generalizing b with
  | nil =>
    cases b with
    | nil => simp [memcmp]
    | cons y b => simp [memcmp]
  | cons x a ih =>
    cases b with
    | nil => simp [memcmp]
    | cons y b =>
      simp only [List.length_cons, Nat.add_min_add_right, memcmp, List.map_cons,
        List.cons_lt_cons_iff, UInt8.lt_iff_toNat_lt]
      rcases lt_trichotomy x.toNat y.toNat with hlt | heq | hgt
      · simp [hlt]
      · simp only [heq, lt_irrefl, if_false, false_or, true_and]
        rw [← ih b]
        simp
      · simp [hgt, hgt.not_gt, hgt.ne']

theorem comparePackets_lt_iff {p q : Packet} : comparePackets p q < 0 ↔ p.rank < q.rank := by
  rw [Packet.rank, Packet.rank, Prod.Lex.toLex_lt_toLex]
  rcases lt_trichotomy p.tag q.tag with htag | htag | htag
  · simp [comparePackets, htag, htag.not_gt]
  · have hlen : (if p.length < q.length then p.length else q.length) = min p.length q.length := by
      split_ifs <;> omega
    have hlex : (memcmp (min p.length q.length) p.data q.data < 0 ∨
        memcmp (min p.length q.length) p.data q.data = 0 ∧ p.length < q.length) ↔
          p.data.map UInt8.toNat < q.data.map UInt8.toNat := memcmp_lt_iff p.data q.data
    simp only [comparePackets, htag, gt_iff_lt, lt_irrefl, if_false, hlen, false_or, true_and]
    rw [← hlex]
    generalize memcmp (min p.length q.length) p.data q.data = ret
    by_cases hne : ret = 0 ∧ p.length ≠ q.length
    · rw [if_pos hne, hne.1]
      split_ifs with hlt
      · simp [hlt]
      · simp [hlt]
    · rw [if_neg hne]
      constructor
      · exact Or.inl
      · rintro (hneg | ⟨hzero, hlt⟩)
        · exact hneg
        · exact absurd ⟨hzero, hlt.ne⟩ hne
  · simp [comparePackets, htag, htag.not_gt, htag.ne']

/-! ## Sorting -/

/-- The order in which `sortpackets` leaves the packets. -/
def Packet.Le (p q : Packet) : Prop := p.rank ≤ q.rank

noncomputable instance : DecidableRel Packet.Le := fun p q =>
  inferInstanceAs (Decidable (p.rank ≤ q.rank))

instance : Std.Total Packet.Le := ⟨fun p q => le_total p.rank q.rank⟩

instance : IsTrans Packet Packet.Le := ⟨fun _ _ _ => le_trans⟩

theorem insertPacket_eq (sorted : List Packet) (packet : Packet) :
    insertPacket sorted packet = sorted.orderedInsert Packet.Le packet := by
  have hstep : ∀ cur : Packet, decide (comparePackets cur packet < 0) =
      decide (¬ packet.Le cur) := by
    intro cur
    rw [decide_eq_decide, comparePackets_lt_iff, Packet.Le, not_le]
  rw [List.orderedInsert_eq_take_drop, insertPacket]
  simp only [hstep]

theorem sortpackets_eq (packets : List Packet) :
    sortpackets packets = packets.reverse.insertionSort Packet.Le := by
  unfold sortpackets List.insertionSort
  rw [List.foldr_reverse]
  congr 1
  funext sorted packet
  exact insertPacket_eq sorted packet

theorem sortpackets_perm (packets : List Packet) : (sortpackets packets).Perm packets := by
  rw [sortpackets_eq]
  exact (List.perm_insertionSort Packet.Le _).trans packets.reverse_perm

theorem sortpackets_pairwise (packets : List Packet) :
    (sortpackets packets).Pairwise Packet.Le := by
  rw [sortpackets_eq]
  exact List.pairwise_insertionSort Packet.Le _

/-- Lists with the same packets are sorted into lists with the same packets at the same places. -/
theorem sortpackets_contents {packets packets' : List Packet}
    (h : (packets.map Packet.contents).Perm (packets'.map Packet.contents)) :
    (sortpackets packets).map Packet.contents = (sortpackets packets').map Packet.contents := by
  have hrank : (sortpackets packets).map Packet.rank = (sortpackets packets').map Packet.rank := by
    have hof : Packet.rank =
        (fun c : Nat × List UInt8 => toLex (c.1, c.2.map UInt8.toNat)) ∘ Packet.contents := rfl
    have hperm : ((sortpackets packets).map Packet.rank).Perm
        ((sortpackets packets').map Packet.rank) := by
      refine ((sortpackets_perm packets).map _).trans (.trans ?_ ((sortpackets_perm packets').map _).symm)
      rw [hof, ← List.map_map, ← List.map_map]
      exact h.map _
    have hsorted : ∀ l, ((sortpackets l).map Packet.rank).SortedLE := by
      intro l
      exact List.Pairwise.sortedLE (List.pairwise_map.mpr (sortpackets_pairwise l))
    exact hperm.eq_of_sortedLE (hsorted packets) (hsorted packets')
  have hlength : (sortpackets packets).length = (sortpackets packets').length := by
    simpa using congrArg List.length hrank
  refine List.ext_getElem (by simpa using hlength) fun i hi hi' => ?_
  simp only [List.getElem_map]
  apply rank_eq_iff.mp
  have hget := congrArg (·[i]?) hrank
  simp only [List.length_map] at hi hi'
  simpa [hi, hi'] using hget

/-! ## What is hashed -/

/-- The octets for one packet. -/
def skshashOctets (contents : Nat × List UInt8) : List UInt8 :=
  htonl contents.1 ++ htonl contents.2.length ++ contents.2

theorem skshashPreimage_eq (key : PublicKey) :
    skshashPreimage key =
      ((sortpackets (flattenKey key)).map Packet.contents).flatMap skshashOctets := by
  rw [skshashPreimage, List.flatMap_map]
  rfl

theorem htonl_inj {m n : Nat} (hm : m < 2 ^ 32) (hn : n < 2 ^ 32) (h : htonl m = htonl n) :
    m = n :=
  (beNat_four hm).symm.trans ((congrArg beNat h).trans (beNat_four hn))

/-- The packets whose tag and length can be told from four octets each. -/
def skshashCode (contents : Nat × List UInt8) (octets : List UInt8) : Prop :=
  contents.1 < 2 ^ 32 ∧ contents.2.length < 2 ^ 32 ∧ octets = skshashOctets contents

theorem skshashCode_prefixFree : PrefixFree skshashCode where
  ne_nil := by
    rintro contents octets ⟨-, -, rfl⟩
    simp [skshashOctets, htonl]
  split := by
    rintro ⟨tag, data⟩ ⟨tag', data'⟩ octets octets' t t' ⟨htag, hlen, rfl⟩ ⟨htag', hlen', rfl⟩ heq
    simp only [skshashOctets, List.append_assoc] at heq
    obtain ⟨htags, hrest⟩ := List.append_inj heq rfl
    obtain ⟨hlens, hrest⟩ := List.append_inj hrest rfl
    obtain rfl := htonl_inj htag htag' htags
    have hlength := htonl_inj hlen hlen' hlens
    obtain ⟨rfl, -⟩ := List.append_inj hrest hlength
    exact ⟨rfl, rfl⟩

/-- The tag of a packet is an `unsigned int`, and its length fits an `int`. -/
def PublicKey.Hashable (key : PublicKey) : Prop :=
  ∀ p ∈ flattenKey key, p.tag < 2 ^ 32 ∧ p.length < 2 ^ 31

instance (key : PublicKey) : Decidable key.Hashable :=
  inferInstanceAs (Decidable (∀ p ∈ flattenKey key, p.tag < 2 ^ 32 ∧ p.length < 2 ^ 31))

theorem PublicKey.Hashable.words {key : PublicKey} (h : key.Hashable) :
    Words skshashCode ((sortpackets (flattenKey key)).map Packet.contents)
      (skshashPreimage key) := by
  rw [skshashPreimage_eq]
  refine words_flatMap fun contents hcontents => ?_
  obtain ⟨p, hp, rfl⟩ := List.mem_map.mp hcontents
  obtain ⟨htag, hlen⟩ := h p ((sortpackets_perm _).mem_iff.mp hp)
  have hlen' : p.data.length < 2 ^ 31 := hlen
  exact ⟨htag, by simp only [Packet.contents]; omega, rfl⟩

/-- **The SKS hash is a function of the packets of a key.** The octets that are hashed are the same
for two keys if and only if the keys have the same packets, the same number of times each, in
whatever order and with whatever headers. -/
theorem skshashPreimage_eq_iff {key key' : PublicKey} (h : key.Hashable) (h' : key'.Hashable) :
    skshashPreimage key = skshashPreimage key' ↔
      (flattenKey key : Multiset Packet).map Packet.contents =
        (flattenKey key' : Multiset Packet).map Packet.contents := by
  rw [Multiset.map_coe, Multiset.map_coe, Multiset.coe_eq_coe]
  constructor
  · intro heq
    have hwords := h'.words
    rw [← heq] at hwords
    have hsorted := skshashCode_prefixFree.words_unique h.words hwords
    have hperm : ((sortpackets (flattenKey key)).map Packet.contents).Perm
        ((flattenKey key).map Packet.contents) := (sortpackets_perm _).map _
    rw [hsorted] at hperm
    exact hperm.symm.trans ((sortpackets_perm _).map _)
  · intro hperm
    rw [skshashPreimage_eq, skshashPreimage_eq, sortpackets_contents hperm]

/-- Two user ids the other way round, one of them with another header, and a key that has one of them
twice. -/
theorem skshashPreimage_eq_iff_sample :
    skshashPreimage ⟨⟨tagPublickey, false, [4]⟩, false, [],
        [⟨⟨tagUid, false, [65]⟩, []⟩, ⟨⟨tagUid, true, [66]⟩, []⟩], []⟩ =
      skshashPreimage ⟨⟨tagPublickey, false, [4]⟩, false, [],
        [⟨⟨tagUid, true, [66]⟩, []⟩, ⟨⟨tagUid, true, [65]⟩, []⟩], []⟩ ∧
    skshashPreimage ⟨⟨tagPublickey, false, [4]⟩, false, [],
        [⟨⟨tagUid, false, [65]⟩, []⟩, ⟨⟨tagUid, true, [66]⟩, []⟩], []⟩ ≠
      skshashPreimage ⟨⟨tagPublickey, false, [4]⟩, false, [],
        [⟨⟨tagUid, false, [65]⟩, []⟩, ⟨⟨tagUid, false, [65]⟩, []⟩], []⟩ := by
  constructor
  · exact (skshashPreimage_eq_iff (by decide) (by decide)).mpr (by decide)
  · exact (skshashPreimage_eq_iff (by decide) (by decide)).not.mpr (by decide)

end Onak
