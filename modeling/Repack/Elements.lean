import Std.Data.ExtTreeSet

/-!
Values that stand for a finite set of elements.
-/
namespace Repack

/-- Each value of `C` lists the elements of the set it stands for. -/
class HasElements (C : Type) (E : outParam Type) where
  elements : C → List E

export HasElements (elements)

def cardinality {C E : Type} [HasElements C E] (c : C) : Nat := (elements c).length

instance {E : Type} : HasElements (List E) E := ⟨id⟩

instance {E : Type} [Ord E] [Std.TransOrd E] : HasElements (Std.ExtTreeSet E) E :=
  ⟨Std.ExtTreeSet.toList⟩

end Repack
