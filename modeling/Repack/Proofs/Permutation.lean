import Mathlib.Data.List.Nodup
import Repack.Elements
import Repack.Proofs.BitSet.Order
import Repack.Proofs.Journal.Outcome

/-! A permutation reads sets of its elements as bit sets without loss: equal sets
have equal bit sets, and a set lies within another when its bit set does. -/
namespace Repack.Permutation

variable {E : Type}

theorem position_unique (p : Permutation E) {i j : Nat} {e : E} (hi : p.elements[i]? = some e)
    (hj : p.elements[j]? = some e) : i = j := by
  obtain ⟨smallI, rfl⟩ := List.getElem?_eq_some_iff.mp hi
  obtain ⟨smallJ, same⟩ := List.getElem?_eq_some_iff.mp hj
  exact (p.nodup.getElem_inj_iff.mp same).symm

variable [DecidableEq E]

theorem position?_eq_some_iff (p : Permutation E) {e : E} {i : Nat} :
    p.position? e = some i ↔ p.elements[i]? = some e := by
  rw [position?, List.idxOf?_eq_some_iff]
  constructor
  · rintro ⟨small, same, _⟩
    exact List.getElem?_eq_some_iff.mpr ⟨small, same⟩
  · intro placed
    obtain ⟨small, same⟩ := List.getElem?_eq_some_iff.mp placed
    refine ⟨small, same, ?_⟩
    intro j earlier again
    have := p.position_unique placed (List.getElem?_eq_some_iff.mpr ⟨by omega, again⟩)
    omega

theorem contains_iff (p : Permutation E) {e : E} : p.contains e = true ↔ e ∈ p.elements := by
  rw [contains, Option.isSome_iff_exists, List.mem_iff_getElem?]
  exact exists_congr fun i => p.position?_eq_some_iff

/-- Whether all of some elements are in the universe. -/
def Spans (p : Permutation E) (elements : List E) : Prop := ∀ e ∈ elements, p.contains e = true

instance (p : Permutation E) (elements : List E) : Decidable (p.Spans elements) :=
  inferInstanceAs (Decidable (∀ e ∈ elements, _))

theorem not_spans_iff {p : Permutation E} {elements : List E} :
    ¬ p.Spans elements ↔ ∃ e ∈ elements, e ∉ p.elements := by
  simp [Spans, contains_iff]

/-- The bit set of some elements of the universe. -/
def bits (p : Permutation E) (elements : List E) : BitSet :=
  (p.bitSet elements).result.toOption.getD (.empty p.size)

/-- Sets the position of one element. -/
def place (p : Permutation E) (start : BitSet) (e : E) : Attempt BitSet :=
  match p.position? e with
  | some i => Attempt.ofExcept ((start.set i).mapError Fault.beyondWidth)
  | none => do
    Attempt.log .unknownElement
    throw .unknownElement

theorem bitSet_eq_foldlM (p : Permutation E) (elements : List E) :
    p.bitSet elements = elements.foldlM p.place (.empty p.size) := rfl

theorem result_place (p : Permutation E) {start : BitSet} {e : E} {i : Nat}
    (placed : p.position? e = some i) (small : i < start.width) :
    (p.place start e).result = .ok (start.insert i small) := by
  simp only [place, placed, Attempt.result_ofExcept, BitSet.set, dif_pos small, Except.mapError]

/-- Placing elements in turn adds their positions to those already set. -/
theorem exists_result_place (p : Permutation E) {elements : List E} (inside : p.Spans elements)
    {start : BitSet} (width : start.width = p.size) :
    ∃ b : BitSet, (elements.foldlM p.place start).result = .ok b ∧ b.width = p.size ∧
      ∀ i, b.contains i = true ↔
        start.contains i = true ∨ ∃ e ∈ elements, p.elements[i]? = some e := by
  induction elements generalizing start with
  | nil => exact ⟨start, rfl, width, by simp⟩
  | cons e rest ih =>
    obtain ⟨k, placed⟩ := Option.isSome_iff_exists.mp (inside e List.mem_cons_self)
    have found := p.position?_eq_some_iff.mp placed
    have small : k < start.width := width ▸ (List.getElem?_eq_some_iff.mp found).1
    have width' : (start.insert k small).width = p.size := by rw [BitSet.width_insert, width]
    obtain ⟨b, ended, wide, held⟩ :=
      ih (fun e member => inside e (List.mem_cons_of_mem _ member)) width'
    refine ⟨b, ?_, wide, ?_⟩
    · rw [List.foldlM_cons, Attempt.result_bind, p.result_place placed small]
      exact ended
    · intro i
      have here : p.elements[i]? = some e ↔ k = i :=
        ⟨fun again => p.position_unique found again, fun same => same ▸ found⟩
      rw [held, BitSet.contains_insert]
      by_cases same : k = i <;> simp [here, same]

theorem result_bitSet_error (p : Permutation E) {elements : List E} (outside : ¬ p.Spans elements) :
    (p.bitSet elements).result = .error .unknownElement := by
  rw [bitSet_eq_foldlM]
  have width : (BitSet.empty p.size).width = p.size := BitSet.width_empty _
  revert width
  generalize BitSet.empty p.size = start
  induction elements generalizing start with
  | nil => exact absurd (fun e member => nomatch member) outside
  | cons e rest ih =>
    intro width
    rw [List.foldlM_cons, Attempt.result_bind]
    cases placed : p.position? e with
    | none => simp [place, placed, Except.bind]
    | some k =>
      have small : k < start.width :=
        width ▸ (List.getElem?_eq_some_iff.mp (p.position?_eq_some_iff.mp placed)).1
      have beyond : ¬ p.Spans rest := by
        intro inside
        apply outside
        intro x member
        rcases List.mem_cons.mp member with rfl | member
        · rw [contains, placed]
          rfl
        · exact inside x member
      rw [p.result_place placed small]
      exact ih beyond (start.insert k small) (by rw [BitSet.width_insert, width])

section Bits

variable (p : Permutation E) {elements other : List E}

theorem exists_bits (inside : p.Spans elements) :
    (p.bitSet elements).result = .ok (p.bits elements) ∧ ∀ i,
      (p.bits elements).contains i = true ↔ ∃ e ∈ elements, p.elements[i]? = some e := by
  obtain ⟨b, ended, _, held⟩ := p.exists_result_place inside (BitSet.width_empty p.size)
  have result : (p.bitSet elements).result = .ok b := ended
  have same : p.bits elements = b := by rw [bits, result]; rfl
  rw [same]
  exact ⟨result, fun i => by simpa using held i⟩

theorem result_bitSet (inside : p.Spans elements) :
    (p.bitSet elements).result = .ok (p.bits elements) := (p.exists_bits inside).1

theorem contains_bits (inside : p.Spans elements) (i : Nat) :
    (p.bits elements).contains i = true ↔ ∃ e ∈ elements, p.elements[i]? = some e :=
  (p.exists_bits inside).2 i

@[simp] theorem width_bits : (p.bits elements).width = p.size := by
  by_cases inside : p.Spans elements
  · obtain ⟨b, ended, wide, _⟩ := p.exists_result_place inside (BitSet.width_empty p.size)
    have result : (p.bitSet elements).result = .ok b := ended
    rw [bits, result]
    exact wide
  · rw [bits, p.result_bitSet_error inside]
    exact BitSet.width_empty _

theorem subset_bits_iff (inside : p.Spans elements) (within : p.Spans other) :
    (p.bits elements).subset (p.bits other) = true ↔ ∀ e ∈ elements, e ∈ other := by
  have len : (p.bits elements).words.length = (p.bits other).words.length := by
    rw [BitSet.length_words, BitSet.length_words, width_bits, width_bits]
  rw [BitSet.subset_iff]
  constructor
  · rintro ⟨_, held⟩ e member
    obtain ⟨i, placed⟩ := List.mem_iff_getElem?.mp (p.contains_iff.mp (inside e member))
    obtain ⟨e', member', placed'⟩ := (p.contains_bits within i).mp
      (held i ((p.contains_bits inside i).mpr ⟨e, member, placed⟩))
    rw [placed] at placed'
    exact Option.some.inj placed' ▸ member'
  · intro sub
    refine ⟨len, ?_⟩
    intro i held
    obtain ⟨e, member, placed⟩ := (p.contains_bits inside i).mp held
    exact (p.contains_bits within i).mpr ⟨e, sub e member, placed⟩

theorem bits_eq_iff (inside : p.Spans elements) (within : p.Spans other) :
    p.bits elements = p.bits other ↔ ∀ e, e ∈ elements ↔ e ∈ other := by
  constructor
  · intro same e
    have forward := (p.subset_bits_iff inside within).mp
    have backward := (p.subset_bits_iff within inside).mp
    have reflexive (b : BitSet) : b.subset b = true := BitSet.subset_iff.mpr ⟨rfl, fun _ h => h⟩
    exact ⟨forward (same ▸ reflexive _) e, backward (same ▸ reflexive _) e⟩
  · intro same
    apply BitSet.ext_contains (by simp)
    intro i
    rw [Bool.eq_iff_iff, p.contains_bits inside, p.contains_bits within]
    exact exists_congr fun e => and_congr_left' (same e)

theorem spans_congr (same : ∀ e, e ∈ elements ↔ e ∈ other) :
    p.Spans elements ↔ p.Spans other := forall_congr' fun e => imp_congr_left (same e)

end Bits

end Repack.Permutation
