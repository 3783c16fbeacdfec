import Mathlib.Data.Multiset.Basic
import Repack.Proofs.Index.Redundancy
import Repack.Proofs.Index.Refinement

/-! Indices over two permutations of one universe that file the same list. The order of their sets
differs, and so does that of their entries, but nothing else: they answer and change alike. -/
namespace Repack

open Repack.Action (Agrees)

namespace Permutation

variable {E C : Type} [DecidableEq E] [HasElements C E] {p q : Permutation E}

theorem spans_iff_of_perm (same : p.elements.Perm q.elements) (elements : List E) :
    p.Spans elements ↔ q.Spans elements := by
  simp only [Spans, contains_iff, same.mem_iff]

theorem admits_iff_of_perm (same : p.elements.Perm q.elements) (e : C) :
    p.Admits e ↔ q.Admits e := spans_iff_of_perm same _

end Permutation

namespace Index

section Alike

variable {E C : Type} [DecidableEq E] [HasElements C E] [BEq C]
variable {p q : Permutation E} {ix ix' : Index E C} {l m : List C}

theorem Call.answer_of_perm (same : p.elements.Perm q.elements) (call : Call C) (l : List C) :
    call.answer p l = call.answer q l := by
  unfold Call.answer
  simp only [Permutation.admits_iff_of_perm same]

theorem Call.onList_of_perm (same : p.elements.Perm q.elements) (call : Call C) (l : List C) :
    call.onList p l = call.onList q l := by
  unfold Call.onList
  simp only [Permutation.admits_iff_of_perm same]

/-- The entries of one set of elements stand in the index as in the list that it files. -/
theorem Files.filter_elements (h : Files p ix l) (A : Finset E) :
    ix.entries.filter (fun e => (elements e).toFinset = A) =
      l.filter fun e => (elements e).toFinset = A := by
  by_cases stored : ∃ a ∈ l, (elements a).toFinset = A
  · obtain ⟨a, member, rfl⟩ := stored
    have alike : ∀ e ∈ l, decide ((elements e).toFinset = (elements a).toFinset) =
        decide (p.key e = p.key a) := by
      intro e known
      rw [decide_eq_decide, p.key_eq_iff (h.admits e known) (h.admits a member), Finset.ext_iff]
      simp only [List.mem_toFinset]
    rw [List.filter_congr alike, ← bucketOf, ← h.filter_entries]
    exact List.filter_congr fun e known => alike e (h.mem_entries.mp known)
  · have none (m : List C) (within : ∀ e ∈ m, e ∈ l) :
        m.filter (fun e => (elements e).toFinset = A) = [] := by
      rw [List.filter_eq_nil_iff]
      intro e member found
      exact stored ⟨e, within e member, by simpa using found⟩
    rw [none ix.entries fun e => h.mem_entries.mp, none l fun e => id]

theorem Files.entries_of_perm (h : Files p ix l) (h' : Files q ix' m) (perm : l.Perm m) :
    ix.entries.Perm ix'.entries := (h.perm_entries.trans perm).trans h'.perm_entries.symm

/-- How many entries a query finds does not depend on their order. -/
theorem Files.count_of_perm (same : p.elements.Perm q.elements) (h : Files p ix l)
    (h' : Files q ix' m) (perm : l.Perm m) {Q : Type} [HasElements Q E] (d : Containment)
    (query : Q) : (ix.count d query).result = (ix'.count d query).result := by
  have entries := h.entries_of_perm h' perm
  by_cases inside : p.Spans (elements query)
  · have inside' := (Permutation.spans_iff_of_perm same _).mp inside
    rw [h.result_count d inside, h'.result_count d inside']
    exact congrArg Except.ok (entries.filter _).length_eq
  · have outside' := mt (Permutation.spans_iff_of_perm same _).mpr inside
    rw [h.result_count_error d inside, h'.result_count_error d outside']

/-- Two indices that file the same list. -/
def Alike (p q : Permutation E) (ix ix' : Index E C) : Prop := ∃ l, Files p ix l ∧ Files q ix' l

theorem alike_empty (p q : Permutation E) :
    Alike p q (Index.empty p : Index E C) (Index.empty q) :=
  ⟨[], files_empty p, files_empty q⟩

theorem Alike.filter_elements (h : Alike p q ix ix') (A : Finset E) :
    ix.entries.filter (fun e => (elements e).toFinset = A) =
      ix'.entries.filter fun e => (elements e).toFinset = A := by
  obtain ⟨l, filed, filed'⟩ := h
  rw [filed.filter_elements, filed'.filter_elements]

theorem Alike.perm_entries (h : Alike p q ix ix') : ix.entries.Perm ix'.entries := by
  obtain ⟨l, filed, filed'⟩ := h
  exact filed.entries_of_perm filed' (.refl l)

theorem Alike.size_eq (h : Alike p q ix ix') : ix.size = ix'.size := by
  obtain ⟨l, filed, filed'⟩ := h
  rw [filed.size_eq, filed'.size_eq]

theorem Alike.total_eq (h : Alike p q ix ix') : ix.total = ix'.total := by
  obtain ⟨l, filed, filed'⟩ := h
  rw [filed.total, filed'.total]

section Query

variable {Q : Type} [HasElements Q E]

theorem Alike.find (same : p.elements.Perm q.elements) (h : Alike p q ix ix') (d : Containment)
    (query : Q) : (ix.find d query).result.map Multiset.ofList =
      (ix'.find d query).result.map Multiset.ofList := by
  have perm := h.perm_entries
  obtain ⟨l, filed, filed'⟩ := h
  by_cases inside : p.Spans (elements query)
  · have inside' := (Permutation.spans_iff_of_perm same _).mp inside
    rw [filed.result_find d inside, filed'.result_find d inside']
    exact congrArg Except.ok (Multiset.coe_eq_coe.mpr (perm.filter _))
  · have outside' := mt (Permutation.spans_iff_of_perm same _).mpr inside
    rw [filed.result_find_error d inside, filed'.result_find_error d outside']

theorem Alike.count (same : p.elements.Perm q.elements) (h : Alike p q ix ix') (d : Containment)
    (query : Q) : (ix.count d query).result = (ix'.count d query).result := by
  obtain ⟨l, filed, filed'⟩ := h
  exact filed.count_of_perm same filed' (.refl l) d query

end Query

variable [LawfulElements C] [PartialEquivBEq C]

theorem agrees_call (same : p.elements.Perm q.elements) (call : Call C) :
    Agrees (Alike p q) id (call.perform (E := E)) := by
  rintro ix ix' ⟨l, filed, filed'⟩
  obtain ⟨_, outcome, left⟩ := filed.step call
  obtain ⟨_, outcome', left'⟩ := filed'.step call
  rw [Action.result_of_outcome outcome, Action.result_of_outcome outcome',
    Action.after_of_outcome outcome, Action.after_of_outcome outcome', Call.answer_of_perm same]
  rw [← Call.onList_of_perm same] at left'
  exact ⟨rfl, _, left, left'⟩

theorem Alike.contains (same : p.elements.Perm q.elements) (h : Alike p q ix ix') (e : C) :
    (ix.contains e).result = (ix'.contains e).result := by
  obtain ⟨l, filed, filed'⟩ := h
  rw [filed.result_contains, filed'.result_contains]
  simp only [Permutation.admits_iff_of_perm same]

end Alike

section Prune

variable {C : Type} [BEq C] [LawfulBEq C] [HasElements C Station] {p q : Permutation Station}
  {ix ix' : Index Station C} {d : Containment} {subsumes : C → C → Bool}

/-- The entries that pruning removes are the same, in whatever order it scans them. -/
theorem Alike.perm_culled (h : Alike p q ix ix') (sub : Subsuming d subsumes) :
    (ix.culled subsumes).Perm (ix'.culled subsumes) := by
  obtain ⟨l, filed, filed'⟩ := h
  apply (List.perm_ext_iff_of_nodup (filed.nodup_entries.filter _)
    (filed'.nodup_entries.filter _)).mpr
  intro e
  have gone {p : Permutation Station} {ix : Index Station C} (filed : Files p ix l) :
      e ∈ ix.culled subsumes ↔ e ∈ l ∧ Superseded subsumes l e := by
    rw [filed.mem_culled_iff sub, filed.mem_entries]
    exact and_congr_right fun member => filed.superseded_iff sub member
  exact (gone filed).trans (gone filed').symm

theorem agrees_prune (sub : Subsuming d subsumes) (kind : Journal.Kind) (interval : Nat) :
    Agrees (Alike p q) Multiset.ofList (Index.prune kind d subsumes interval) := by
  intro ix ix' h
  have culled := h.perm_culled sub
  obtain ⟨l, filed, filed'⟩ := h
  obtain ⟨_, outcome, left⟩ := filed.outcome_prune_culled sub kind interval
  obtain ⟨_, outcome', left'⟩ := filed'.outcome_prune_culled sub kind interval
  rw [Action.result_of_outcome outcome, Action.result_of_outcome outcome',
    Action.after_of_outcome outcome, Action.after_of_outcome outcome']
  have kept : l.filter (· ∉ ix'.culled subsumes) = l.filter (· ∉ ix.culled subsumes) := by
    simp only [culled.mem_iff]
  rw [kept] at left'
  exact ⟨congrArg Except.ok (Multiset.coe_eq_coe.mpr culled), _, left, left'⟩

end Prune

end Index

end Repack
