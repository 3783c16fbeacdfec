import Repack.Proofs.Correspondence
import Repack.Proofs.Index.Queries

/-! The order of an index over an ascending universe. Each element is on the position that counts
the smaller ones, so of two bit sets the greater one has the greatest element that they do not
share, and entries over different sets are listed in this order, by all entries and by every
query. -/
namespace Repack

variable {E C : Type} [DecidableEq E]

namespace Permutation

/-- The order of bit sets is decided on the highest position of an element that only one of two sets
has. -/
theorem compare_bits_lt_iff (p : Permutation E) {elements other : List E}
    (inside : p.Spans elements) (within : p.Spans other) :
    compare (p.bits elements) (p.bits other) = .lt ↔
      ∃ e ∈ other, e ∉ elements ∧ ∀ f, p.Before e f → (f ∈ elements ↔ f ∈ other) := by
  rw [BitSet.compare_lt_iff (p.width_bits.trans p.width_bits.symm)]
  constructor
  · rintro ⟨i, clear, held, above⟩
    obtain ⟨e, member, placed⟩ := (p.contains_bits within i).mp held
    refine ⟨e, member, ?_, ?_⟩
    · intro shared
      rw [(p.contains_bits_iff inside placed).mpr shared] at clear
      cases clear
    · rintro f ⟨j, k, atJ, atK, less⟩
      obtain rfl := p.position_unique (p.position?_eq_some_iff.mp atJ) placed
      have placed' := p.position?_eq_some_iff.mp atK
      rw [← p.contains_bits_iff inside placed', ← p.contains_bits_iff within placed', above k less]
  · rintro ⟨e, member, only, above⟩
    obtain ⟨i, placed⟩ := List.mem_iff_getElem?.mp (p.contains_iff.mp (within e member))
    refine ⟨i, ?_, (p.contains_bits_iff within placed).mpr member, ?_⟩
    · rw [← Bool.not_eq_true, p.contains_bits_iff inside placed]
      exact only
    · intro j less
      rw [Bool.eq_iff_iff]
      cases placed' : p.elements[j]? with
      | some f =>
        rw [p.contains_bits_iff inside placed', p.contains_bits_iff within placed']
        exact above f
          ⟨i, j, p.position?_eq_some_iff.mpr placed, p.position?_eq_some_iff.mpr placed', less⟩
      | none =>
        rw [p.contains_bits inside, p.contains_bits within]
        simp [placed']

end Permutation

section Ascending

variable [Ord E] [Std.TransOrd E] [Std.LawfulEqOrd E]

/-- Whether the greatest element that only one of two sets has is in the first. -/
def Outranks (a b : List E) : Prop :=
  ∃ e ∈ a, e ∉ b ∧ ∀ f, compare e f = .lt → (f ∈ a ↔ f ∈ b)

namespace Permutation

variable {p : Permutation E} {e f : E}

/-- Whether the elements of a permutation are in ascending order. -/
def Ascending (p : Permutation E) : Prop := p.elements.Pairwise fun e f => compare e f = .lt

omit [DecidableEq E] in
theorem ascending_of_ofUniverse {members : List E} (made : (ofUniverse members).result = .ok p) :
    p.Ascending := by
  rw [Ascending, elements_of_ofElements made]
  exact Std.ExtTreeSet.ordered_toList

theorem exists_ofUniverse {members : List E} (nonempty : members ≠ []) :
    ∃ p, (ofUniverse members).result = .ok p := by
  have ne_nil : (Std.ExtTreeSet.ofList members compare).toList ≠ [] := by
    obtain ⟨e, member⟩ := List.exists_mem_of_ne_nil _ nonempty
    exact List.ne_nil_of_mem (mem_toList_ofList.mpr member)
  refine ⟨⟨_, nodup_toList _, ne_nil⟩, ?_⟩
  rw [ofUniverse, ofElements, dif_neg ne_nil]
  rfl

/-- In ascending order each element is on the position that counts the smaller ones. -/
theorem position?_of_ascending (ascending : p.Ascending) (member : e ∈ p.elements) :
    p.position? e = some (p.elements.countP fun x => compare x e = .lt) := by
  rw [p.position?_eq_some_iff]
  rw [Ascending] at ascending
  obtain ⟨before, after, split⟩ := List.append_of_mem member
  rw [split] at ascending ⊢
  obtain ⟨_, tail, apart⟩ := List.pairwise_append.mp ascending
  have smaller : before.countP (fun x => compare x e = .lt) = before.length :=
    List.countP_eq_length.mpr fun x early => decide_eq_true (apart x early e List.mem_cons_self)
  have greater : after.countP (fun x => compare x e = .lt) = 0 := by
    rw [List.countP_eq_zero]
    intro x late
    simp [Std.OrientedCmp.gt_of_lt ((List.pairwise_cons.mp tail).1 x late)]
  rw [List.countP_append, List.countP_cons, smaller, greater]
  simp

theorem before_iff_of_ascending (ascending : p.Ascending) (inE : e ∈ p.elements)
    (inF : f ∈ p.elements) : p.Before e f ↔ compare e f = .lt := by
  have less_of_lt {i j : Nat} {x y : E} (atX : p.elements[i]? = some x)
      (atY : p.elements[j]? = some y) (less : i < j) : compare x y = .lt := by
    obtain ⟨smallI, rfl⟩ := List.getElem?_eq_some_iff.mp atX
    obtain ⟨smallJ, rfl⟩ := List.getElem?_eq_some_iff.mp atY
    exact List.pairwise_iff_getElem.mp ascending i j smallI smallJ less
  constructor
  · rintro ⟨i, j, atE, atF, less⟩
    exact less_of_lt (p.position?_eq_some_iff.mp atE) (p.position?_eq_some_iff.mp atF) less
  · intro order
    obtain ⟨i, atE⟩ := List.mem_iff_getElem?.mp inE
    obtain ⟨j, atF⟩ := List.mem_iff_getElem?.mp inF
    refine ⟨i, j, p.position?_eq_some_iff.mpr atE, p.position?_eq_some_iff.mpr atF, ?_⟩
    rcases Nat.lt_trichotomy i j with less | rfl | more
    · exact less
    · obtain rfl : e = f := Option.some.inj (atE.symm.trans atF)
      have self : compare e e = .eq := Std.ReflCmp.compare_self
      rw [self] at order
      cases order
    · rw [Std.OrientedCmp.gt_of_lt (less_of_lt atF atE more)] at order
      cases order

/-- Over an ascending universe the greatest element that only one of two sets has decides. -/
theorem compare_bits_lt_iff_outranks (ascending : p.Ascending) {elements other : List E}
    (inside : p.Spans elements) (within : p.Spans other) :
    compare (p.bits elements) (p.bits other) = .lt ↔ Outranks other elements := by
  rw [p.compare_bits_lt_iff inside within]
  apply exists_congr
  intro e
  apply and_congr_right
  intro member
  apply and_congr_right
  intro _
  apply forall_congr'
  intro f
  by_cases known : f ∈ p.elements
  · rw [before_iff_of_ascending ascending (p.contains_iff.mp (within e member)) known,
      iff_comm (a := f ∈ elements)]
  · have out : f ∉ elements := fun h => known (p.contains_iff.mp (inside f h))
    have out' : f ∉ other := fun h => known (p.contains_iff.mp (within f h))
    simp [out, out']

end Permutation

namespace Index

variable [HasElements C E]

/-- Of two entries over different sets that are listed, the one whose set is outranked by the other
comes first. -/
def ListsByRank (l : List C) : Prop :=
  ∀ a ∈ l, ∀ b ∈ l, (¬ ∀ x, x ∈ elements a ↔ x ∈ elements b) →
    (Precedes l a b ↔ Outranks (elements b) (elements a))

variable {p : Permutation E} {ix : Index E C} {l : List C}

theorem listsByRank_of_sorted (ascending : p.Ascending) (admits : ∀ e ∈ l, p.Admits e)
    (sorted : l.Pairwise fun a b => (compare (p.key a) (p.key b)).isLE = true) : ListsByRank l := by
  intro a inA b inB differ
  have keys : p.key a ≠ p.key b := mt (p.key_eq_iff (admits a inA) (admits b inB)).mp differ
  rw [precedes_iff_of_sorted sorted inA inB keys]
  exact Permutation.compare_bits_lt_iff_outranks ascending (admits a inA) (admits b inB)

/-- All entries in the buckets of an index are listed, by rank, and the answers to its queries are
those of them that are related to the query, by rank as well. -/
structure Ascends (p : Permutation E) (ix : Index E C) : Prop where
  stored : ∀ e, e ∈ ix.entries ↔ ∃ bucket, ix.buckets[p.key e]? = some bucket ∧ e ∈ bucket
  entries : ListsByRank ix.entries
  subsets : ∀ {Q : Type} [HasElements Q E] (q : Q), p.Spans (elements q) →
    ∃ found, (ix.subsets q).result = .ok found ∧ ListsByRank found ∧
      found = ix.entries.filter fun e => ∀ x ∈ elements e, x ∈ elements q
  supersets : ∀ {Q : Type} [HasElements Q E] (q : Q), p.Spans (elements q) →
    ∃ found, (ix.supersets q).result = .ok found ∧ ListsByRank found ∧
      found = ix.entries.filter fun e => ∀ x ∈ elements q, x ∈ elements e

omit [Ord E] [Std.TransOrd E] [Std.LawfulEqOrd E] in
theorem Holds.mem_entries_iff_bucket (h : Holds p ix l) (e : C) :
    e ∈ ix.entries ↔ ∃ bucket, ix.buckets[p.key e]? = some bucket ∧ e ∈ bucket := by
  have own : e ∈ l ↔ e ∈ bucketOf p l (p.key e) := by simp [mem_bucketOf]
  rw [h.mem_entries, own, h.buckets]
  split
  · next empty => simp [empty]
  · simp

theorem Holds.ascends (h : Holds p ix l) (ascending : p.Ascending) : Ascends p ix := by
  have admits : ∀ e ∈ ix.entries, p.Admits e := fun e member => h.admits e (h.mem_entries.mp member)
  have byRank (d : Containment) (query : List E) :
      ListsByRank (ix.entries.filter fun e => d.Relates query (elements e)) := by
    apply listsByRank_of_sorted ascending _ (h.pairwise_entries.filter _)
    exact fun e member => admits e (List.mem_of_mem_filter member)
  constructor
  · exact h.mem_entries_iff_bucket
  · exact listsByRank_of_sorted ascending admits h.pairwise_entries
  · exact fun q inside => ⟨_, h.result_find .subsets inside, byRank .subsets (elements q), rfl⟩
  · exact fun q inside => ⟨_, h.result_find .supersets inside, byRank .supersets (elements q), rfl⟩

variable [BEq C]

/-- Every universe that is not empty, listed in any order and with repeats, makes a permutation that
puts each element on the number of smaller ones; and after any calls an index over it lists entries
over different sets by the greatest element that they do not share. -/
theorem ascends_of_universe {members : List E} (nonempty : members ≠ []) :
    ∃ p, (Permutation.ofUniverse members).result = .ok p ∧
      (∀ e ∈ members,
        p.position? e = some (members.toFinset.filter fun x => compare x e = .lt).card) ∧
      ∀ calls : List (Call C), ((Index.empty p).run calls).Ascends p := by
  obtain ⟨p, made⟩ := Permutation.exists_ofUniverse nonempty
  have built : Permutation.Built members p := .ascending made
  have ascending := Permutation.ascending_of_ofUniverse made
  refine ⟨p, made, ?_, ?_⟩
  · intro e member
    rw [Permutation.position?_of_ascending ascending ((built.mem_iff e).mpr member),
      List.countP_eq_length_filter, ← List.toFinset_card_of_nodup (p.nodup.filter _)]
    congr 2
    ext x
    simp [built.mem_iff]
  · intro calls
    obtain ⟨_, holds⟩ := holds_run p calls
    exact holds.ascends ascending

/-- Seventy elements, one of them listed twice: the low word of a set counts for less than any bit
of the high one. -/
theorem ascends_across_words :
    let members := (List.range 70).reverse ++ [3]
    let p : Permutation Nat := ⟨List.range 70, by decide, by decide⟩
    let calls : List (Call (List Nat)) :=
      [.insert [69], .insert [0, 64], .insert [62, 63], .insert [64, 1], .insert [0, 65],
        .erase [69], .insert [70], .insert []]
    let ix := (Index.empty p).run calls
    Std.TransOrd Nat ∧ Std.LawfulEqOrd Nat ∧ members ≠ [] ∧
    (Permutation.ofUniverse members).result = .ok p ∧
    (∀ e ∈ members,
      p.position? e = some (members.toFinset.filter fun x => compare x e = .lt).card) ∧
    ix.Ascends p ∧ ix.entries = [[], [62, 63], [0, 64], [64, 1], [0, 65]] ∧
    p.Spans [65, 64, 0] ∧ (ix.subsets [65, 64, 0]).result = .ok [[], [0, 64], [0, 65]] ∧
    p.Spans [64] ∧ (ix.supersets [64]).result = .ok [[0, 64], [64, 1]] := by
  intro members p calls ix
  have nonempty : members ≠ [] := by decide +kernel
  have made : (Permutation.ofUniverse members).result = .ok p := by decide +kernel
  obtain ⟨q, made', placed, ascends⟩ := ascends_of_universe (C := List Nat) nonempty
  rw [made] at made'
  obtain rfl : p = q := Except.ok.inj made'
  refine ⟨inferInstance, inferInstance, nonempty, made, placed, ascends calls, ?_⟩
  decide +kernel

end Index

end Ascending

end Repack
