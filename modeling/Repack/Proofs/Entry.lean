import Mathlib.Data.List.Nodup
import Repack.Entry.Basic
import Repack.Exhaustive
import Repack.Proofs.Index.Pruning

/-! What it takes for an entry to decide an instance, and when an entry decides all that another
one does. -/
namespace Repack

/-- Entries of a map that is read off a partial function are the values of this function. -/
theorem getElem?_foldl_insert {α β : Type} {cmp : α → α → Ordering} [Std.TransCmp cmp]
    [Std.LawfulEqCmp cmp] [DecidableEq α] {f : α → Option β} {l : List (α × β)}
    (read : ∀ pair ∈ l, f pair.1 = some pair.2) (start : Std.ExtTreeMap α β cmp) (a : α) :
    (l.foldl (fun m pair => m.insert pair.1 pair.2) start)[a]? =
      if a ∈ l.map Prod.fst then f a else start[a]? := by
  induction l generalizing start with
  | nil => simp
  | cons pair rest ih =>
    rw [List.foldl_cons, ih fun pair member => read pair (List.mem_cons_of_mem _ member),
      List.map_cons, Std.ExtTreeMap.getElem?_insert]
    by_cases later : a ∈ rest.map Prod.fst
    · rw [if_pos later, if_pos (List.mem_cons_of_mem _ later)]
    · rw [if_neg later]
      by_cases here : a = pair.1
      · rw [if_pos (by simp [here]), if_pos (by simp [here]), here, read pair List.mem_cons_self]
      · rw [if_neg (by simpa [Std.LawfulEqCmp.compare_eq_iff_eq] using Ne.symm here),
          if_neg (by simpa [here] using later)]

theorem getElem?_ofList {α β : Type} {cmp : α → α → Ordering} [Std.TransCmp cmp]
    [Std.LawfulEqCmp cmp] [DecidableEq α] {f : α → Option β} {l : List (α × β)}
    (read : ∀ pair ∈ l, f pair.1 = some pair.2) (a : α) :
    (Std.ExtTreeMap.ofList l cmp)[a]? = if a ∈ l.map Prod.fst then f a else none := by
  rw [Std.ExtTreeMap.ofList_eq_foldl, getElem?_foldl_insert read]
  simp

namespace Assignment

theorem getElem?_restrict (a : Assignment) (stations : List Station) (s : Station) :
    (a.restrict stations)[s]? = if s ∈ stations then a[s]? else none := by
  have read : ∀ pair ∈ stations.filterMap fun s => a[s]?.map fun c => (s, c),
      a[pair.1]? = some pair.2 := by
    intro pair member
    obtain ⟨t, _, found⟩ := List.mem_filterMap.mp member
    obtain ⟨c, held, rfl⟩ := Option.map_eq_some_iff.mp found
    exact held
  rw [restrict, getElem?_ofList read]
  by_cases listed : s ∈ stations
  · rw [if_pos listed]
    split
    · rfl
    · next missing =>
      cases held : a[s]? with
      | none => rfl
      | some c =>
        apply absurd _ missing
        exact List.mem_map.mpr ⟨(s, c), List.mem_filterMap.mpr ⟨s, listed, by simp [held]⟩, rfl⟩
  · rw [if_neg listed, if_neg]
    intro member
    obtain ⟨pair, kept, rfl⟩ := List.mem_map.mp member
    obtain ⟨t, known, found⟩ := List.mem_filterMap.mp kept
    obtain ⟨c, _, rfl⟩ := Option.map_eq_some_iff.mp found
    exact listed known

variable {a : Assignment} {stations : Std.ExtTreeSet Station}

theorem getElem?_restrict_toList (s : Station) :
    (a.restrict stations.toList)[s]? = if s ∈ stations then a[s]? else none := by
  simp only [getElem?_restrict, Std.ExtTreeSet.mem_toList]

theorem eq_restrict_toList {w : Assignment}
    (restricted : ∀ s, w[s]? = if s ∈ stations then a[s]? else none) :
    w = a.restrict stations.toList := by
  apply Std.ExtTreeMap.ext_getElem?
  intro s
  rw [restricted, getElem?_restrict_toList]

theorem mem_restrict_toList (covered : ∀ s ∈ stations, s ∈ a) (s : Station) :
    s ∈ a.restrict stations.toList ↔ s ∈ stations := by
  rw [Std.ExtTreeMap.mem_iff_isSome_getElem?, getElem?_restrict_toList]
  split
  · next member =>
    have held := Std.ExtTreeMap.mem_iff_isSome_getElem?.mp (covered s member)
    simp [held, member]
  · next missing => simp [missing]

end Assignment

namespace Instance

/-- Whether a station may be put on a channel by its domain. -/
theorem admits_iff (i : Instance) {s : Station} {c : Channel} :
    i.admits s c = true ↔ s ∈ i.stations ∧ ∀ d, i.domains[s]? = some d → c ∈ d := by
  rw [admits, Bool.and_eq_true, Std.ExtTreeSet.contains_iff_mem]
  apply and_congr_right
  intro _
  cases i.domains[s]? with
  | none => simp
  | some d => simp

end Instance

theorem Domain.covers_iff {outer inner : Option Domain} : covers outer inner = true ↔
    ∀ d, outer = some d → ∃ e, inner = some e ∧ ∀ c ∈ e, c ∈ d := by
  cases outer with
  | none => simp [covers]
  | some d =>
    cases inner with
    | none => simp [covers]
    | some e => simp [covers, all_set_iff]

theorem Domain.covers_trans {a b c : Option Domain} (first : covers a b = true)
    (second : covers b c = true) : covers a c = true := by
  rw [covers_iff] at *
  intro d held
  obtain ⟨e, inner, within⟩ := first d held
  obtain ⟨f, innermost, within'⟩ := second e inner
  exact ⟨f, innermost, fun x member => within x (within' x member)⟩

namespace Solution

variable {a b c : Solution} {i : Instance}

theorem solves_iff : a.solves i = true ↔
    ∀ s ∈ i.stations, ∃ c, a.assignment[s]? = some c ∧ i.admits s c = true := by
  rw [solves, all_set_iff]
  simp only [Option.any_eq_true]

theorem mem_of_solves (solved : a.solves i = true) : ∀ s ∈ i.stations, s ∈ a.assignment := by
  intro s member
  obtain ⟨c, held, _⟩ := solves_iff.mp solved s member
  rw [Std.ExtTreeMap.mem_iff_isSome_getElem?, held]
  rfl

theorem relates_of_solves (solved : a.solves i = true) :
    Containment.supersets.Relates (elements i) (elements a) := by
  intro s member
  exact Std.ExtTreeMap.mem_keys.mpr (mem_of_solves solved s (Std.ExtTreeSet.mem_toList.mp member))

/-- Whether a solution puts the stations of another on the same channels. -/
def Extends (a b : Solution) : Prop :=
  ∀ (s : Station) (c : Channel), b.assignment[s]? = some c → a.assignment[s]? = some c

theorem Extends.solves (wider : a.Extends b) (solved : b.solves i = true) : a.solves i = true := by
  rw [solves_iff] at *
  intro s member
  obtain ⟨c, held, admitted⟩ := solved s member
  exact ⟨c, wider s c held, admitted⟩

theorem Extends.mem (wider : a.Extends b) {s : Station} (member : s ∈ b.assignment.keys) :
    s ∈ a.assignment.keys := by
  rw [Std.ExtTreeMap.mem_keys, Std.ExtTreeMap.mem_iff_isSome_getElem?] at *
  obtain ⟨c, held⟩ := Option.isSome_iff_exists.mp member
  rw [wider s c held]
  rfl

theorem subsumes_iff : a.subsumes b = true ↔ a ≠ b ∧ a.Extends b := by
  have unfolded : a.subsumes b = (a != b && b.assignment.size ≤ a.assignment.size &&
      b.assignment.toList.all fun pair => a.assignment[pair.1]? == some pair.2) := rfl
  have agree : (b.assignment.toList.all fun pair => a.assignment[pair.1]? == some pair.2) = true ↔
      a.Extends b := by
    rw [List.all_eq_true]
    constructor
    · intro each s c held
      exact beq_iff_eq.mp (each (s, c) (Std.ExtTreeMap.mem_toList_iff_getElem?_eq_some.mpr held))
    · rintro wider ⟨s, c⟩ member
      exact beq_iff_eq.mpr (wider s c (Std.ExtTreeMap.mem_toList_iff_getElem?_eq_some.mp member))
  have smaller : a.Extends b → b.assignment.size ≤ a.assignment.size := by
    intro wider
    rw [← Std.ExtTreeMap.length_keys, ← Std.ExtTreeMap.length_keys]
    exact (List.subperm_of_subset Std.ExtTreeMap.nodup_keys fun s => wider.mem).length_le
  rw [unfolded, Bool.and_eq_true, Bool.and_eq_true, agree, bne_iff_ne, decide_eq_true_iff]
  constructor
  · rintro ⟨⟨differs, _⟩, wider⟩
    exact ⟨differs, wider⟩
  · rintro ⟨differs, wider⟩
    exact ⟨⟨differs, smaller wider⟩, wider⟩

theorem subsuming : Index.Subsuming .supersets Solution.subsumes where
  relates := fun wider _ member => (subsumes_iff.mp wider).2.mem member
  irrefl := fun a => by simp [subsumes]
  trans := by
    intro a b c first second
    by_cases same : a = c
    · exact Or.inl same
    · right
      rw [subsumes_iff] at *
      exact ⟨same, fun s d held => first.2 s d (second.2 s d held)⟩

end Solution

namespace Refutation

variable {a b c : Refutation} {i : Instance}

theorem refutes_iff : a.refutes i = true ↔ (∀ s ∈ a.stations, s ∈ i.stations) ∧
    ∀ s ∈ a.stations, Domain.covers a.domains[s]? i.domains[s]? = true := by
  simp only [refutes, Bool.and_eq_true, all_set_iff, Std.ExtTreeSet.contains_iff_mem]

theorem relates_of_refutes (refuted : a.refutes i = true) :
    Containment.subsets.Relates (elements i) (elements a) := by
  intro s member
  apply Std.ExtTreeSet.mem_toList.mpr
  exact (refutes_iff.mp refuted).1 s (Std.ExtTreeSet.mem_toList.mp member)

theorem subsumes_iff : a.subsumes b = true ↔ a ≠ b ∧ (∀ s ∈ a.stations, s ∈ b.stations) ∧
    ∀ s ∈ a.stations, Domain.covers a.domains[s]? b.domains[s]? = true := by
  simp only [subsumes, Bool.and_eq_true, all_set_iff, Std.ExtTreeSet.contains_iff_mem, bne_iff_ne,
    and_assoc]

theorem refutes_of_subsumes (wider : a.subsumes b = true) (refuted : b.refutes i = true) :
    a.refutes i = true := by
  obtain ⟨_, within, covered⟩ := subsumes_iff.mp wider
  rw [refutes_iff] at *
  constructor
  · exact fun s member => refuted.1 s (within s member)
  · exact fun s member =>
      Domain.covers_trans (covered s member) (refuted.2 s (within s member))

theorem subsuming : Index.Subsuming .subsets Refutation.subsumes where
  relates := by
    intro a b wider s member
    have within := (subsumes_iff.mp wider).2.1 s
    exact Std.ExtTreeSet.mem_toList.mpr (within (Std.ExtTreeSet.mem_toList.mp member))
  irrefl := fun a => by simp [subsumes]
  trans := by
    intro a b c first second
    by_cases same : a = c
    · exact Or.inl same
    · right
      rw [subsumes_iff] at *
      refine ⟨same, fun s member => second.2.1 s (first.2.1 s member), ?_⟩
      intro s member
      exact Domain.covers_trans (first.2.2 s member) (second.2.2 s (first.2.1 s member))

end Refutation

end Repack
