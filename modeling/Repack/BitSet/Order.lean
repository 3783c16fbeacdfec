import Repack.BitSet.Basic

/-!
The order of bit sets: by width, then by their words from the most significant, which is the order
of the integers they denote. It is a linear order, and equal in it means equal.
-/
namespace Repack.BitSet

instance : Ord BitSet where
  compare a b := (compare a.width b.width).then (compare a.words.reverse b.words.reverse)

theorem compare_eq (a b : BitSet) :
    compare a b =
      compareLex (compareOn BitSet.width) (compareOn fun b : BitSet => b.words.reverse) a b := rfl

instance : Std.TransOrd BitSet :=
  inferInstanceAs (Std.TransCmp
    (compareLex (compareOn BitSet.width) (compareOn fun b : BitSet => b.words.reverse)))

instance : Std.LawfulEqOrd BitSet where
  compare_self := fun {a} => by
    rw [compare_eq]
    exact Std.ReflCmp.compare_self
  eq_of_compare := fun {a b} h => by
    obtain ⟨hw, hr⟩ := Ordering.then_eq_eq.1 h
    exact ext_words (Std.LawfulEqCmp.eq_of_compare hw)
      (List.reverse_inj.1 (Std.LawfulEqCmp.eq_of_compare hr))

/-- In ascending order, equal ones in their order in the list. -/
def sort (bs : List BitSet) : List BitSet := bs.mergeSort fun a b => (compare a b).isLE

/-- The greatest of a list, the last one of equals. -/
def greatest? : List BitSet → Option BitSet
  | [] => none
  | b :: bs => some (bs.foldl (fun best c => if compare best c = .gt then best else c) b)

end Repack.BitSet
