import Repack.Codec.Basic
import Repack.Entry.Basic

/-!
The shapes of instances, entries and reports.
-/
namespace Repack

def Instance.fields (lib : Library) :
    Fields lib.Tree (Std.ExtTreeSet Station × Domains × Option String × Unit) :=
  .cons "stations" (form lib) (.cons "domains" (form lib) (.cons "name" (form lib) .nil))

instance : Serial Instance where
  form lib := (lib.record (Instance.fields lib)).via
    (fun (stations, domains, name, _) => ⟨stations, domains, name⟩)
    fun i => (i.stations, i.domains, i.name, ())

def Solution.fields (lib : Library) : Fields lib.Tree (Assignment × String × String × Unit) :=
  .cons "assignment" (form lib) (.cons "key" (form lib) (.cons "solver" (form lib) .nil))

instance : Serial Solution where
  form lib := (lib.record (Solution.fields lib)).via
    (fun (assignment, key, solver, _) => ⟨assignment, key, solver⟩)
    fun a => (a.assignment, a.key, a.solver, ())

def Refutation.fields (lib : Library) :
    Fields lib.Tree (Std.ExtTreeSet Station × Domains × String × Unit) :=
  .cons "stations" (form lib) (.cons "domains" (form lib) (.cons "key" (form lib) .nil))

instance : Serial Refutation where
  form lib := (lib.record (Refutation.fields lib)).via
    (fun (stations, domains, key, _) => ⟨stations, domains, key⟩)
    fun a => (a.stations, a.domains, a.key, ())

def Entry.variants (lib : Library) : Variants lib.Tree (Solution ⊕ Refutation) :=
  .or "Sat" (form lib) (.last "Unsat" (form lib))

instance : Serial Entry where
  form lib := (lib.tagged (Entry.variants lib)).via (Sum.elim .solution .refutation) fun
    | .solution a => .inl a
    | .refutation a => .inr a

instance : Serial Report := ⟨fun lib => lib.words Report.all Report.name⟩

end Repack
