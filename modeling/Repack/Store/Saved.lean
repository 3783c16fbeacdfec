import Repack.Codec.Entry
import Repack.Store.Basic

/-!
Saving the entries of a store as text, and filling a store with saved entries.
-/
namespace Repack.Store

/-- The text of all entries, the solutions before the refutations. -/
def saved (lib : Library) : Action Store String := do
  pure (lib.textOf (← entries))

/-- Adds the entries of a text in turn, up to the first that is refused; there is nothing to add if
the text does not list entries. -/
def restore (lib : Library) (text : String) : Action Store (List Bool) :=
  insertAll ((lib.valueOf? text).getD [])

end Repack.Store
