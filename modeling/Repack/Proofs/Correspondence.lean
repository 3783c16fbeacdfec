import Mathlib.Data.Finset.Card
import Mathlib.Data.Finset.Dedup
import Repack.Proofs.BitSet.Positions
import Repack.Proofs.Placement

/-! Sets of elements and bit sets as wide as the universe correspond one to one, whichever way the
permutation was made: the bit set of some elements lists each of them once, in order of position, and
every bit set of that width is the bit set of what it lists. -/
namespace Repack.Permutation

variable {E : Type} [DecidableEq E]

/-- Whether an element has a lower position than another. -/
def Before (p : Permutation E) (e f : E) : Prop :=
  ∃ i j, p.position? e = some i ∧ p.position? f = some j ∧ i < j

section Decode

variable (p : Permutation E) {b : BitSet} {elements : List E} {e : E} {i : Nat}

theorem contains_bits_iff (inside : p.Spans elements) (placed : p.elements[i]? = some e) :
    (p.bits elements).contains i = true ↔ e ∈ elements := by
  rw [p.contains_bits inside]
  constructor
  · rintro ⟨f, member, placed'⟩
    rw [placed] at placed'
    exact Option.some.inj placed' ▸ member
  · exact fun member => ⟨e, member, placed⟩

omit [DecidableEq E] in
theorem mem_decode : e ∈ p.decode b ↔ ∃ i, b.contains i = true ∧ p.elements[i]? = some e := by
  rw [decode, List.mem_filterMap]
  exact exists_congr fun i => and_congr_left' BitSet.mem_ones

omit [DecidableEq E] in
/-- A bit set lists the elements at its positions below the size. -/
theorem map_some_decode (b : BitSet) :
    (p.decode b).map some = ((List.range p.size).filter b.contains).map p.element? := by
  have inner : b.ones.filter (fun i => (p.element? i).isSome) =
      (List.range p.size).filter b.contains := by
    apply (b.pairwise_ones.filter _).eq_of_mem_iff (List.pairwise_lt_range.filter _)
    intro i
    simp [BitSet.mem_ones, element?, size, and_comm]
  rw [decode, List.map_filterMap_some_eq_filter_map_isSome, List.filter_map]
  exact congrArg (List.map p.element?) inner

theorem pairwise_decode (b : BitSet) : (p.decode b).Pairwise p.Before := by
  rw [decode, List.pairwise_filterMap]
  apply b.pairwise_ones.imp
  intro i j less e placed f placed'
  exact ⟨i, j, p.position?_eq_some_iff.mpr placed, p.position?_eq_some_iff.mpr placed', less⟩

theorem nodup_decode (b : BitSet) : (p.decode b).Nodup := by
  apply (p.pairwise_decode b).imp
  rintro e _ ⟨i, j, placed, placed', less⟩ rfl
  rw [placed] at placed'
  exact Nat.ne_of_lt less (Option.some.inj placed')

theorem mem_decode_bits (inside : p.Spans elements) :
    e ∈ p.decode (p.bits elements) ↔ e ∈ elements := by
  rw [mem_decode]
  constructor
  · rintro ⟨i, held, placed⟩
    exact (p.contains_bits_iff inside placed).mp held
  · intro member
    obtain ⟨i, placed⟩ := List.mem_iff_getElem?.mp (p.contains_iff.mp (inside e member))
    exact ⟨i, (p.contains_bits_iff inside placed).mpr member, placed⟩

omit [DecidableEq E] in
theorem length_decode (width : b.width = p.size) : (p.decode b).length = b.count := by
  rw [b.count_eq_length_ones, b.ones_eq_filter, width, ← List.length_map some, map_some_decode,
    List.length_map]

/-- As many positions are set as there are distinct elements. -/
theorem count_bits (inside : p.Spans elements) :
    (p.bits elements).count = elements.toFinset.card := by
  rw [← p.length_decode p.width_bits, ← List.toFinset_card_of_nodup (p.nodup_decode _)]
  congr 1
  ext e
  rw [List.mem_toFinset, List.mem_toFinset, p.mem_decode_bits inside]

/-- A bit set as wide as the universe is that of the elements it lists. -/
theorem result_bitSet_decode (width : b.width = p.size) :
    (p.bitSet (p.decode b)).result = .ok b := by
  have inside : p.Spans (p.decode b) := by
    intro e member
    obtain ⟨i, _, placed⟩ := p.mem_decode.mp member
    exact p.contains_iff.mpr (List.mem_of_getElem? placed)
  rw [p.result_bitSet inside]
  congr 1
  apply BitSet.ext_contains (p.width_bits.trans width.symm)
  intro i
  rw [Bool.eq_iff_iff, p.contains_bits inside]
  constructor
  · rintro ⟨e, member, placed⟩
    obtain ⟨j, held, placed'⟩ := p.mem_decode.mp member
    rwa [p.position_unique placed placed']
  · intro held
    have small : i < p.elements.length := by
      have := BitSet.lt_width_of_contains held
      rwa [width] at this
    exact ⟨_, p.mem_decode.mpr ⟨i, held, List.getElem?_eq_getElem small⟩,
      List.getElem?_eq_getElem small⟩

end Decode

/-- The permutations that are made of a universe, listed in any order and with repeats: of a map of
its elements to positions, in ascending order, or in the order of a shuffle. -/
inductive Built : List E → Permutation E → Prop
  | placement (m : Placement E) {p : Permutation E} :
    (ofPlacement m).result = .ok p → Built (m.pairs.map Prod.fst) p
  | ascending [Ord E] [Std.TransOrd E] [Std.LawfulEqOrd E] {members : List E} {p : Permutation E} :
    (ofUniverse members).result = .ok p → Built members p
  | shuffled [Ord E] [Std.TransOrd E] [Std.LawfulEqOrd E] (shuffle : Shuffle E) {members : List E}
    {p : Permutation E} : (shuffled shuffle members).result = .ok p → Built members p

omit [DecidableEq E] in
theorem elements_of_ofElements {elements : List E} {nodup : elements.Nodup} {p : Permutation E}
    (made : (ofElements elements nodup).result = .ok p) : p.elements = elements := by
  rw [ofElements] at made
  split at made
  · cases made
  · cases made
    rfl

theorem mem_toList_ofList [Ord E] [Std.TransOrd E] [Std.LawfulEqOrd E] {members : List E} {e : E} :
    e ∈ (Std.ExtTreeSet.ofList members compare).toList ↔ e ∈ members := by
  rw [Std.ExtTreeSet.mem_toList, Std.ExtTreeSet.mem_ofList, List.contains_iff_mem]

section Built

variable {members : List E} {p : Permutation E}

theorem Built.mem_iff (h : Built members p) (e : E) : e ∈ p.elements ↔ e ∈ members := by
  cases h with
  | placement m made =>
    have inverts := inverts_of_ofPlacement made
    rw [List.mem_iff_getElem?, List.mem_map]
    constructor
    · rintro ⟨i, placed⟩
      exact ⟨(e, i), (inverts.position e i).mp (p.position?_eq_some_iff.mpr placed), rfl⟩
    · rintro ⟨⟨_, i⟩, mapped, rfl⟩
      exact ⟨i, p.position?_eq_some_iff.mp ((inverts.position _ i).mpr mapped)⟩
  | ascending made => rw [elements_of_ofElements made, mem_toList_ofList]
  | shuffled shuffle made =>
    rw [elements_of_ofElements made, (shuffle.perm _).mem_iff, mem_toList_ofList]

theorem Built.spans_iff (h : Built members p) (elements : List E) :
    p.Spans elements ↔ ∀ e ∈ elements, e ∈ members := by
  apply forall₂_congr
  intro e _
  rw [p.contains_iff, h.mem_iff]

theorem Built.size_eq (h : Built members p) : p.size = members.toFinset.card := by
  rw [size, ← List.toFinset_card_of_nodup p.nodup]
  congr 1
  ext e
  rw [List.mem_toFinset, List.mem_toFinset, h.mem_iff]

/-- A permutation of a universe reads sets of its elements as bit sets and back without loss. -/
structure Corresponds (members : List E) (p : Permutation E) : Prop where
  size : p.size = members.toFinset.card
  encoded : ∀ elements : List E, (∀ e ∈ elements, e ∈ members) →
    ∃ b, (p.bitSet elements).result = .ok b ∧ b.width = p.size ∧
      b.count = elements.toFinset.card ∧ (p.decode b).Nodup ∧
      (∀ e, e ∈ p.decode b ↔ e ∈ elements) ∧ (p.decode b).Pairwise p.Before
  same_iff : ∀ elements other : List E,
    (∀ e ∈ elements, e ∈ members) → (∀ e ∈ other, e ∈ members) →
    ((p.bitSet elements).result = (p.bitSet other).result ↔ ∀ e, e ∈ elements ↔ e ∈ other)
  decoded : ∀ b : BitSet, b.width = p.size → (p.bitSet (p.decode b)).result = .ok b
  /-- Of any width, a bit set lists the elements at its positions below the size, ascending. -/
  listed : ∀ b : BitSet,
    (p.decode b).map some = ((List.range p.size).filter b.contains).map p.element?
  refused_iff : ∀ elements : List E,
    (p.bitSet elements).result = .error .unknownElement ↔ ∃ e ∈ elements, e ∉ members

/-- Whichever way a permutation is made of a universe, the sets of its elements correspond to the bit
sets as wide as the universe, and only elements outside of it are refused. -/
theorem corresponds_of_built (h : Built members p) : p.Corresponds members := by
  constructor
  · exact h.size_eq
  · intro elements within
    have inside := (h.spans_iff elements).mpr within
    exact ⟨_, p.result_bitSet inside, p.width_bits, p.count_bits inside, p.nodup_decode _,
      fun e => p.mem_decode_bits inside, p.pairwise_decode _⟩
  · intro elements other within within'
    have inside := (h.spans_iff elements).mpr within
    have inside' := (h.spans_iff other).mpr within'
    rw [p.result_bitSet inside, p.result_bitSet inside', Except.ok.injEq,
      p.bits_eq_iff inside inside']
  · exact fun b => p.result_bitSet_decode
  · exact p.map_some_decode
  · intro elements
    have outside_iff : (∃ e ∈ elements, e ∉ members) ↔ ¬ p.Spans elements := by
      rw [h.spans_iff]
      simp
    rw [outside_iff]
    constructor
    · intro refused inside
      rw [p.result_bitSet inside] at refused
      cases refused
    · exact p.result_bitSet_error

/-- Seventy elements in descending order, of which two on either side of a word boundary. -/
theorem corresponds_descending :
    let p : Permutation Nat := ⟨(List.range 70).reverse, by decide, by decide⟩
    Built (List.range 70 ++ [3]) p ∧ p.Corresponds (List.range 70 ++ [3]) ∧
    (p.bitSet [1, 69, 6, 1, 5]).result.map p.decode = .ok [69, 6, 5, 1] := by
  intro p
  have built : Built (List.range 70 ++ [3]) p :=
    .shuffled ⟨List.reverse, List.reverse_perm⟩ (by decide +kernel)
  exact ⟨built, corresponds_of_built built, by decide +kernel⟩

end Built

end Repack.Permutation
