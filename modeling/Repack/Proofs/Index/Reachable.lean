import Repack.Proofs.Index.Filing
import Repack.Store.Redundancy

/-! The indices that calls reach. Every call changes an index by adding entries and removing
entries, so a property that neither can break holds of every index that is reached. Each files a
list, and no entry is in it but those that were added. -/
namespace Repack

open Repack.Action (Preserves)

namespace Index

/-- The calls that a shared index takes. -/
inductive Operation {E C : Type} [DecidableEq E] [HasElements C E] [BEq C] :
    {α : Type} → Action (Index E C) α → Prop
  | insert (e : C) : Operation (Shared.insert e)
  | erase (e : C) : Operation (Shared.erase e)
  | insertAll (l : List C) : Operation (Shared.insertAll l)
  | keepFirst (n : Nat) : Operation (Shared.keepFirst n)
  | contains (e : C) : Operation (Shared.contains e)
  | entries : Operation Shared.entries
  | size : Operation Shared.size
  | total : Operation Shared.total
  | find {Q : Type} [HasElements Q E] (d : Containment) (q : Q) : Operation (Shared.find d q)
  | count {Q : Type} [HasElements Q E] (d : Containment) (q : Q) : Operation (Shared.count d q)

section Closed

variable {E C : Type} [DecidableEq E] [HasElements C E] [BEq C] {A : Index E C → Prop}

/-- A property of indices that neither adding nor removing an entry can break. -/
structure Closed (A : Index E C → Prop) : Prop where
  insert : ∀ e, Preserves A (Index.insert e)
  erase : ∀ e, Preserves A (Index.erase e)

theorem Operation.preserves (closed : Closed A) {α : Type} {x : Action (Index E C) α}
    (op : Operation x) : Preserves A x := by
  cases op with
  | insert e => exact (closed.insert e).withLock .write
  | erase e => exact (closed.erase e).withLock .write
  | insertAll l => exact Preserves.withLock (Action.preserves_mapM fun e _ => closed.insert e) _
  | keepFirst n =>
    refine Preserves.withLock (Action.preserves_get.bind ?_) _
    exact fun ix => Action.preserves_mapM fun e _ => closed.erase e
  | contains e => exact fun _ kept => kept
  | entries => exact fun _ kept => kept
  | size => exact fun _ kept => kept
  | total => exact fun _ kept => kept
  | find d q => exact fun _ kept => kept
  | count d q => exact fun _ kept => kept

end Closed

/-- Pruning removes entries one by one. -/
theorem preserves_prune {C : Type} [HasElements C Station] [BEq C] {A : Index Station C → Prop}
    (erase : ∀ e, Preserves A (Index.erase e)) (kind : Journal.Kind) (d : Containment)
    (subsumes : C → C → Bool) (interval : Nat) :
    Preserves A (Index.prune kind d subsumes interval) := by
  refine Preserves.withLock ((Action.preserves_query _).bind ?_) _
  intro removed
  apply (Action.preserves_forM fun e _ => (erase e).discard).bind
  intro _
  exact (Action.preserves_query _).bind fun _ => Action.preserves_pure _

section Keeps

variable {E C : Type} [DecidableEq E] [HasElements C E] [BEq C] [LawfulElements C]
variable [PartialEquivBEq C] {p : Permutation E} {V : C → Prop}

/-- An index over a permutation files entries with a property only. -/
def Keeps (p : Permutation E) (V : C → Prop) (ix : Index E C) : Prop :=
  ∃ l, Files p ix l ∧ ∀ e ∈ l, V e

omit [LawfulElements C] [PartialEquivBEq C] in
theorem keeps_empty : (Index.empty p).Keeps p V := ⟨[], files_empty p, by simp⟩

theorem preserves_call (call : Call C) (valid : ∀ e, call = .insert e → V e) :
    Preserves (Keeps p V) (call.perform (E := E)) := by
  rintro ix ⟨l, filed, each⟩
  obtain ⟨ix', outcome, filed'⟩ := filed.step call
  rw [Action.after_of_outcome outcome]
  refine ⟨_, filed', ?_⟩
  intro e member
  unfold Call.onList at member
  split at member
  · cases call with
    | insert entry =>
      dsimp only at member
      split at member
      · exact each e member
      · rcases List.mem_append.mp member with member | last
        · exact each e member
        · exact List.mem_singleton.mp last ▸ valid _ rfl
    | erase entry => exact each e (List.mem_of_mem_erase member)
  · exact each e member

theorem preserves_insert {e : C} (valid : V e) : Preserves (Keeps p V) (Index.insert e) :=
  preserves_call (.insert e) fun _ same => Call.insert.inj same ▸ valid

theorem preserves_erase (e : C) : Preserves (Keeps p V) (Index.erase e) :=
  preserves_call (.erase e) nofun

theorem closed_keeps : Closed (Keeps p fun _ : C => True) :=
  ⟨fun _ => preserves_insert trivial, preserves_erase⟩

end Keeps

section Made

variable {E C : Type} [DecidableEq E] [HasElements C E] [BEq C] {p : Permutation E}

/-- An index is what some calls make of an empty one. -/
def Made (p : Permutation E) (ix : Index E C) : Prop :=
  ∃ calls, ix = (Index.empty p).run calls

theorem made_empty : (Index.empty p : Index E C).Made p := ⟨[], rfl⟩

theorem made_call (call : Call C) : Preserves (Made p) (call.perform (E := E)) := by
  rintro ix ⟨calls, rfl⟩
  refine ⟨calls ++ [call], ?_⟩
  rw [run, run, List.foldl_append]
  rfl

theorem closed_made : Closed (Made (C := C) p) :=
  ⟨fun e => made_call (.insert e), fun e => made_call (.erase e)⟩

end Made

end Index

end Repack
