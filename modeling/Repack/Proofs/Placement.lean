import Mathlib.Data.List.Induction
import Mathlib.Data.List.Perm.Subperm
import Mathlib.Data.Nat.Find
import Repack.Proofs.Permutation

/-! Maps of elements to positions. A map makes a permutation exactly if it is one to one onto the
positions below its size, although only the positions that nothing is mapped to are looked for: as
many elements as positions leave none of them to spare. The order in which the map is listed makes
no difference. -/
namespace Repack

namespace Placement

variable {E : Type} {m n : Placement E} {e f : E} {i : Nat}

/-- Whether some element is mapped to a position. -/
def Covers (m : Placement E) (i : Nat) : Prop := ∃ e, (e, i) ∈ m.pairs

/-- Whether no two elements are mapped to one position. -/
def Injective (m : Placement E) : Prop :=
  ∀ e f i, (e, i) ∈ m.pairs → (f, i) ∈ m.pairs → e = f

/-- Whether all elements are mapped to positions below their number. -/
def Bounded (m : Placement E) : Prop := ∀ e i, (e, i) ∈ m.pairs → i < m.size

theorem isSome_slot_iff : (m.slot i).isSome = true ↔ m.Covers i := by
  rw [slot, Option.isSome_map, List.find?_isSome]
  simp [Covers]

theorem slot_eq_none_iff : m.slot i = none ↔ ¬ m.Covers i := by
  rw [← isSome_slot_iff, Option.not_isSome_iff_eq_none]

theorem slot_eq_some_iff (injective : m.Injective) : m.slot i = some e ↔ (e, i) ∈ m.pairs := by
  constructor
  · exact mem_of_slot
  · intro mapped
    obtain ⟨f, found⟩ := Option.isSome_iff_exists.mp (isSome_slot_iff.mpr ⟨e, mapped⟩)
    rw [found, injective f e i (mem_of_slot found) mapped]

/-- The slots when the pairs are written in turn: a later one overwrites, and one beyond the slots is
dropped. -/
def written (m : Placement E) : List (Option E) :=
  m.pairs.foldl (fun slots q => slots.set q.2 (some q.1)) (List.replicate m.size none)

theorem getElem?_foldl_set (ps : List (E × Nat)) (start : List (Option E)) (i : Nat) :
    (ps.foldl (fun slots q => slots.set q.2 (some q.1)) start)[i]? =
      start[i]?.map fun old => ((ps.reverse.find? fun q => q.2 == i).map Prod.fst).or old := by
  -- The last pair is written last, and is the first one that is looked at from the end.
  induction ps using List.reverseRecOn with
  | nil => simp
  | append_singleton ps q ih =>
    rw [List.foldl_append, List.foldl_cons, List.foldl_nil, List.getElem?_set', ih,
      List.reverse_concat, List.find?_cons]
    by_cases here : q.2 = i
    · cases start[i]? <;> simp [here]
    · have missed : (q.2 == i) = false := by simpa using here
      rw [if_neg here, missed]

theorem written_eq_map_slot (m : Placement E) : m.written = (List.range m.size).map m.slot := by
  apply List.ext_getElem?
  intro i
  rw [written, getElem?_foldl_set, List.getElem?_replicate, List.getElem?_map]
  by_cases small : i < m.size
  · simp [small, slot]
  · simp [small]

/-- The positions that elements are mapped to, as often as they are. -/
def positions (m : Placement E) : List Nat := m.pairs.map Prod.snd

theorem mem_positions : i ∈ m.positions ↔ m.Covers i := by simp [positions, Covers]

@[simp] theorem length_positions (m : Placement E) : m.positions.length = m.size :=
  List.length_map _

/-- Positions that are all taken by as many elements are taken by one each. -/
theorem perm_positions (covered : ∀ i < m.size, m.Covers i) :
    m.positions.Perm (List.range m.size) := by
  have within : List.range m.size ⊆ m.positions :=
    fun i member => mem_positions.mpr (covered i (List.mem_range.mp member))
  have sub := List.subperm_of_subset List.nodup_range within
  exact (sub.perm_of_length_le (by simp)).symm

theorem nodup_pairs (m : Placement E) : m.pairs.Nodup := m.nodup_elements.of_map

theorem injective_iff_nodup : m.Injective ↔ m.positions.Nodup := by
  constructor
  · intro injective
    apply List.Nodup.map_on _ m.nodup_pairs
    rintro ⟨e, i⟩ mapped ⟨f, _⟩ mapped' rfl
    rw [injective e f i mapped mapped']
  · intro nodup e f i mapped mapped'
    exact congrArg Prod.fst (List.inj_on_of_nodup_map nodup mapped mapped' rfl)

/-- Elements that are mapped below their number, no two to one position, leave no position out. -/
theorem covers_iff_bijective :
    (∀ i < m.size, m.Covers i) ↔ m.Injective ∧ m.Bounded := by
  constructor
  · intro covered
    have perm := perm_positions covered
    refine ⟨injective_iff_nodup.mpr (perm.nodup_iff.mpr List.nodup_range), ?_⟩
    intro e i mapped
    exact List.mem_range.mp (perm.mem_iff.mp (mem_positions.mpr ⟨e, mapped⟩))
  · rintro ⟨injective, bounded⟩ i small
    have within : m.positions ⊆ List.range m.size := by
      intro j member
      obtain ⟨e, mapped⟩ := mem_positions.mp member
      exact List.mem_range.mpr (bounded e j mapped)
    have sub := List.subperm_of_subset (injective_iff_nodup.mp injective) within
    have perm := sub.perm_of_length_le (by simp)
    exact mem_positions.mp (perm.mem_iff.mpr (List.mem_range.mpr small))

/-- If no slot is empty, the elements in the slots keep their positions. -/
theorem getElem?_filterMap_slot (covered : ∀ i < m.size, m.Covers i) {i : Nat} (small : i < m.size) :
    ((List.range m.size).filterMap m.slot)[i]? = m.slot i := by
  have full : ((List.range m.size).map m.slot).filter Option.isSome =
      (List.range m.size).map m.slot := by
    rw [List.filter_eq_self]
    intro slot member
    obtain ⟨j, inside, rfl⟩ := List.mem_map.mp member
    exact isSome_slot_iff.mpr (covered j (List.mem_range.mp inside))
  have same := congrArg (·[i]?) (List.map_filterMap_some_eq_filter_map_isSome.trans full)
  simp only [List.getElem?_map, List.getElem?_range small, Option.map_some] at same
  obtain ⟨e, found, there⟩ := Option.map_eq_some_iff.mp same
  rw [found, there]

theorem getElem?_slots_eq_some_iff (covered : ∀ i < m.size, m.Covers i) :
    ((List.range m.size).filterMap m.slot)[i]? = some e ↔ (e, i) ∈ m.pairs := by
  obtain ⟨injective, bounded⟩ := covers_iff_bijective.mp covered
  by_cases small : i < m.size
  · rw [getElem?_filterMap_slot covered small, slot_eq_some_iff injective]
  · have short := List.length_filterMap_le m.slot (List.range m.size)
    rw [List.length_range] at short
    rw [List.getElem?_eq_none (by omega)]
    exact ⟨nofun, fun mapped => absurd (bounded e i mapped) small⟩

end Placement

namespace Permutation

variable {E : Type} {m n : Placement E} {i : Nat}

theorem ofPlacement_of_covered (covered : ∀ i < m.size, m.Covers i) :
    ofPlacement m = ofElements ((List.range m.size).filterMap m.slot) (m.nodup_slots _) := by
  have full : ((List.range m.size).find? fun i => (m.slot i).isNone) = none := by
    rw [List.find?_eq_none]
    intro i member
    have taken := Placement.isSome_slot_iff.mpr (covered i (List.mem_range.mp member))
    simpa [Option.isSome_iff_ne_none] using taken
  rw [ofPlacement]
  split
  · next i found => rw [full] at found; cases found
  · rfl

theorem ofPlacement_of_missing (small : i < m.size) (missing : ¬ m.Covers i)
    (least : ∀ j < i, m.Covers j) : ofPlacement m =
      (do Attempt.log (.missingPosition i); throw (.missingPosition i)) := by
  have first : ((List.range m.size).find? fun i => (m.slot i).isNone) = some i := by
    rw [List.find?_range_eq_some]
    refine ⟨by simp [Placement.slot_eq_none_iff.mpr missing], List.mem_range.mpr small, ?_⟩
    intro j less
    simpa using Placement.isSome_slot_iff.mpr (least j less)
  rw [ofPlacement]
  split
  · next j found =>
    rw [first] at found
    cases found
    rfl
  · next none => rw [first] at none; cases none

/-- A permutation has each element on the position that it is mapped to, and no other elements. -/
structure Inverts [DecidableEq E] (m : Placement E) (p : Permutation E) : Prop where
  position : ∀ e i, p.position? e = some i ↔ (e, i) ∈ m.pairs
  element_position : ∀ e i, p.position? e = some i → p.element? i = some e
  position_element : ∀ i < m.size, ∃ e, p.element? i = some e ∧ p.position? e = some i
  absent : ∀ i, m.size ≤ i → p.element? i = none

theorem exists_ofPlacement [DecidableEq E] (nonempty : 0 < m.size)
    (covered : ∀ i < m.size, m.Covers i) :
    ∃ p, (ofPlacement m).result = .ok p ∧ Inverts m p := by
  have element (i : Nat) (e : E) := Placement.getElem?_slots_eq_some_iff (i := i) (e := e) covered
  have ne_nil : (List.range m.size).filterMap m.slot ≠ [] := by
    obtain ⟨e, mapped⟩ := covered 0 nonempty
    exact List.ne_nil_of_mem (List.mem_of_getElem? ((element 0 e).mpr mapped))
  let p : Permutation E := ⟨(List.range m.size).filterMap m.slot, m.nodup_slots _, ne_nil⟩
  refine ⟨p, ?_, ?_⟩
  · rw [ofPlacement_of_covered covered, ofElements, dif_neg ne_nil]
    rfl
  · constructor
    · exact fun e i => p.position?_eq_some_iff.trans (element i e)
    · exact fun e i => p.position?_eq_some_iff.mp
    · intro i small
      obtain ⟨e, mapped⟩ := covered i small
      exact ⟨e, (element i e).mpr mapped, p.position?_eq_some_iff.mpr ((element i e).mpr mapped)⟩
    · intro i large
      rw [Option.eq_none_iff_forall_ne_some]
      intro e found
      have := (Placement.covers_iff_bijective.mp covered).2 e i ((element i e).mp found)
      omega

theorem ofPlacement_of_empty (empty : m.size = 0) :
    (ofPlacement m).result = .error .emptyUniverse := by
  have none : (List.range m.size).filterMap m.slot = [] := by rw [empty]; rfl
  rw [ofPlacement_of_covered (by omega), ofElements, dif_pos none]
  rfl

/-- If not all positions are taken, one of them is the least that is not. -/
theorem exists_least_missing (missing : ¬ ∀ i < m.size, m.Covers i) :
    ∃ i < m.size, ¬ m.Covers i ∧ ∀ j < i, m.Covers j := by
  classical
  have some : ∃ i, i < m.size ∧ ¬ m.Covers i := by simpa using missing
  obtain ⟨small, left⟩ := Nat.find_spec some
  refine ⟨Nat.find some, small, left, ?_⟩
  intro j less
  exact not_not.mp fun absent => Nat.find_min some less ⟨less.trans small, absent⟩

theorem covered_of_ofPlacement {p : Permutation E} (accepted : (ofPlacement m).result = .ok p) :
    0 < m.size ∧ ∀ i < m.size, m.Covers i := by
  by_contra refused
  rcases Nat.eq_zero_or_pos m.size with empty | nonempty
  · rw [ofPlacement_of_empty empty] at accepted
    cases accepted
  · obtain ⟨i, small, missing, least⟩ :=
      exists_least_missing fun covered => refused ⟨nonempty, covered⟩
    rw [ofPlacement_of_missing small missing least] at accepted
    cases accepted

theorem inverts_of_ofPlacement [DecidableEq E] {p : Permutation E}
    (accepted : (ofPlacement m).result = .ok p) : Inverts m p := by
  obtain ⟨nonempty, covered⟩ := covered_of_ofPlacement accepted
  obtain ⟨q, accepted', inverts⟩ := exists_ofPlacement nonempty covered
  rw [accepted] at accepted'
  obtain rfl : p = q := Except.ok.inj accepted'
  exact inverts

/-- In whatever order a map is listed, it makes the same permutation, or fails alike. -/
theorem ofPlacement_of_perm (same : n.pairs.Perm m.pairs) : ofPlacement n = ofPlacement m := by
  have size : n.size = m.size := same.length_eq
  have covers (i : Nat) : n.Covers i ↔ m.Covers i := exists_congr fun e => same.mem_iff
  by_cases covered : ∀ i < m.size, m.Covers i
  · have covered' : ∀ i < n.size, n.Covers i :=
      fun i small => (covers i).mpr (covered i (size ▸ small))
    have slots : n.slot = m.slot := by
      funext i
      apply Option.ext
      intro e
      rw [Placement.slot_eq_some_iff (Placement.covers_iff_bijective.mp covered').1,
        Placement.slot_eq_some_iff (Placement.covers_iff_bijective.mp covered).1, same.mem_iff]
    rw [ofPlacement_of_covered covered, ofPlacement_of_covered covered']
    simp only [size, slots]
  · obtain ⟨i, small, missing, least⟩ := exists_least_missing covered
    rw [ofPlacement_of_missing small missing least,
      ofPlacement_of_missing (size ▸ small) (mt (covers i).mp missing)
        fun j less => (covers j).mpr (least j less)]

/-- Whether a map, in whatever order it is listed, has some elements on the positions they are
listed at. -/
def Enumerates (m : Placement E) (elements : List E) : Prop := m.pairs.Perm elements.zipIdx

/-- A map that enumerates elements makes the permutation with these elements in turn. -/
theorem ofPlacement_of_enumerates {elements : List E} (listed : Enumerates m elements)
    (nodup : elements.Nodup) : ofPlacement m = ofElements elements nodup := by
  have mapped {e : E} {i : Nat} : (e, i) ∈ m.pairs ↔ elements[i]? = some e :=
    listed.mem_iff.trans List.mem_zipIdx_iff_getElem?
  have size : m.size = elements.length := listed.length_eq.trans List.length_zipIdx
  have covered : ∀ i < m.size, m.Covers i := by
    intro i small
    exact ⟨elements[i], mapped.mpr (List.getElem?_eq_getElem (size ▸ small))⟩
  have slots : (List.range m.size).filterMap m.slot = elements := by
    apply List.ext_getElem?
    intro i
    apply Option.ext
    intro e
    rw [Placement.getElem?_slots_eq_some_iff covered, mapped]
  rw [ofPlacement_of_covered covered]
  simp only [slots]

section Ordered

variable [Ord E] [Std.TransOrd E] [Std.LawfulEqOrd E] {members : List E}

theorem ofUniverse_eq_ofPlacement
    (listed : Enumerates m (Std.ExtTreeSet.ofList members compare).toList) :
    ofUniverse members = ofPlacement m :=
  (ofPlacement_of_enumerates listed _).symm

theorem shuffled_eq_ofPlacement (shuffle : Shuffle E)
    (listed : Enumerates m (shuffle.reorder (Std.ExtTreeSet.ofList members compare).toList)) :
    shuffled shuffle members = ofPlacement m :=
  (ofPlacement_of_enumerates listed _).symm

end Ordered

/-- What a map of elements to positions comes to: a permutation if each position below its size is
taken, which is if the map is one to one and within its size, and else the least position that is not
taken. -/
structure Settles [DecidableEq E] (m : Placement E) : Prop where
  /-- What is looked at are the slots as the pairs leave them, in the order they are listed. -/
  written : m.written = (List.range m.size).map m.slot
  empty : m.size = 0 → (ofPlacement m).result = .error .emptyUniverse
  covered : 0 < m.size → (∀ i < m.size, m.Covers i) →
    m.Injective ∧ m.Bounded ∧ ∃ p, (ofPlacement m).result = .ok p ∧ Inverts m p
  missing : ∀ i < m.size, ¬ m.Covers i → (∀ j < i, m.Covers j) →
    (ofPlacement m).result = .error (.missingPosition i)
  accepted : (∃ p, (ofPlacement m).result = .ok p) ↔ 0 < m.size ∧ m.Injective ∧ m.Bounded
  order : ∀ n : Placement E, n.pairs.Perm m.pairs → ofPlacement n = ofPlacement m

/-- Every map of elements to positions is accepted exactly if it is a bijection onto the positions
below its size, in whatever order it is listed. -/
theorem settles_placement [DecidableEq E] (m : Placement E) : Settles m := by
  constructor
  · exact m.written_eq_map_slot
  · exact ofPlacement_of_empty
  · intro nonempty covered
    obtain ⟨injective, bounded⟩ := Placement.covers_iff_bijective.mp covered
    exact ⟨injective, bounded, exists_ofPlacement nonempty covered⟩
  · intro i small missing least
    rw [ofPlacement_of_missing small missing least]
    rfl
  · rw [← Placement.covers_iff_bijective]
    constructor
    · exact fun ⟨p, accepted⟩ => covered_of_ofPlacement accepted
    · rintro ⟨nonempty, covered⟩
      obtain ⟨p, accepted, _⟩ := exists_ofPlacement nonempty covered
      exact ⟨p, accepted⟩
  · exact fun n => ofPlacement_of_perm

/-- Two elements share a position and one is out of range: two positions are missing. -/
example : (ofPlacement (.ofList [(10, 0), (20, 0), (30, 7), (40, 2)])).result =
    .error (.missingPosition 1) := by decide

end Permutation

end Repack
