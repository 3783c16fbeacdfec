import Repack.Proofs.Index.Pruning

/-! Which entries pruning removes, whatever the order of the scan. An entry is marked exactly when
another one supersedes it: that one subsumes it, and either is not subsumed in turn or comes later.
Of entries that subsume one another only the last can stay. -/
namespace Repack.Index

variable {C : Type} [BEq C] [HasElements C Station]

/-- Whether another entry of a list subsumes one, and either is not subsumed in turn or comes
later. -/
def Superseded (subsumes : C → C → Bool) (l : List C) (e : C) : Prop :=
  ∃ f ∈ l, subsumes f e = true ∧ (subsumes e f = false ∨ Precedes l e f)

section Scan

variable [LawfulBEq C] {d : Containment} {subsumes : C → C → Bool} {stored marked : List C}
  {e m : C}

omit [HasElements C Station] in
theorem mem_mark : m ∈ mark stored subsumes marked e ↔
    m ∈ marked ∨ m = e ∧ ∃ f ∈ stored, f ∉ marked ∧ subsumes f e = true := by
  have found : (stored.any fun f => !marked.contains f && subsumes f e) = true ↔
      ∃ f ∈ stored, f ∉ marked ∧ subsumes f e = true := by
    simp [List.any_eq_true]
  rw [mark]
  split
  · next some => simp [found.mp some]
  · next none => simp [mt found.mpr none]

omit [HasElements C Station] in
theorem mem_foldl_mark_of_mem (scanned : List C) (member : m ∈ marked) :
    m ∈ scanned.foldl (mark stored subsumes) marked := by
  induction scanned generalizing marked with
  | nil => exact member
  | cons e rest ih => exact ih (mem_mark.mpr (Or.inl member))

omit [HasElements C Station] in
theorem mem_or_mem_of_mem_foldl_mark {scanned : List C}
    (member : m ∈ scanned.foldl (mark stored subsumes) marked) : m ∈ marked ∨ m ∈ scanned := by
  induction scanned generalizing marked with
  | nil => exact Or.inl member
  | cons e rest ih =>
    rcases ih member with inside | later
    · rcases mem_mark.mp inside with before | ⟨rfl, _⟩
      · exact Or.inl before
      · exact Or.inr List.mem_cons_self
    · exact Or.inr (List.mem_cons_of_mem _ later)

omit [HasElements C Station] in
/-- A mark is never taken back, so in the middle of a scan those scanned are marked that are marked
in the end. -/
theorem mem_foldl_mark_iff {before after : List C} (nodup : (before ++ after).Nodup) :
    m ∈ before.foldl (mark (before ++ after) subsumes) [] ↔
      m ∈ before ∧ m ∈ Index.marked (before ++ after) subsumes := by
  rw [Index.marked, List.foldl_append]
  constructor
  · intro member
    exact ⟨(mem_or_mem_of_mem_foldl_mark member).resolve_left List.not_mem_nil,
      mem_foldl_mark_of_mem after member⟩
  · rintro ⟨scanned, member⟩
    apply (mem_or_mem_of_mem_foldl_mark member).resolve_right
    exact fun later => (List.nodup_append.mp nodup).2.2 m scanned m later rfl

omit [HasElements C Station] in
/-- An entry is marked if another one subsumes it that is not marked before its turn. -/
theorem mem_marked_iff (nodup : stored.Nodup) (member : e ∈ stored) :
    e ∈ Index.marked stored subsumes ↔ ∃ f ∈ stored, subsumes f e = true ∧
      ¬ (Precedes stored f e ∧ f ∈ Index.marked stored subsumes) := by
  obtain ⟨before, after, rfl⟩ := List.append_of_mem member
  have early (f : C) : f ∈ before.foldl (mark (before ++ e :: after) subsumes) [] ↔
      f ∈ before ∧ f ∈ Index.marked (before ++ e :: after) subsumes := mem_foldl_mark_iff nodup
  obtain ⟨_, tail, apart⟩ := List.nodup_append.mp nodup
  have turn : e ∈ Index.marked (before ++ e :: after) subsumes ↔
      e ∈ mark (before ++ e :: after) subsumes
        (before.foldl (mark (before ++ e :: after) subsumes) []) e := by
    rw [Index.marked, List.foldl_append, List.foldl_cons]
    constructor
    · intro marked
      exact (mem_or_mem_of_mem_foldl_mark marked).resolve_right (List.nodup_cons.mp tail).1
    · exact mem_foldl_mark_of_mem after
  have unscanned : e ∉ before := fun earlier => apart e earlier e List.mem_cons_self rfl
  rw [turn, mem_mark]
  simp only [early, unscanned, false_and, false_or, true_and, precedes_iff_mem_before nodup]
  exact exists_congr fun f => and_congr_right fun _ => and_comm

/-- The scan marks the entries that are superseded. -/
theorem mem_marked_iff_superseded (sub : Subsuming d subsumes) (nodup : stored.Nodup)
    (member : e ∈ stored) :
    e ∈ Index.marked stored subsumes ↔ Superseded subsumes stored e := by
  have spared := (marking_marked sub stored).spared
  constructor
  · intro marked
    obtain ⟨u, known, unmarked, wider⟩ := spared e marked
    refine ⟨u, known, wider, ?_⟩
    by_contra neither
    obtain ⟨inTurn, notLater⟩ := not_or.mp neither
    -- Then `e` was not marked yet when it came to `u`, and would have marked it.
    apply unmarked
    rw [mem_marked_iff nodup known]
    exact ⟨e, member, by simpa using inTurn, fun earlier => notLater earlier.1⟩
  · rintro ⟨f, known, wider, last⟩
    rw [mem_marked_iff nodup member]
    by_cases earlier : Precedes stored f e ∧ f ∈ Index.marked stored subsumes
    · -- What `f` was marked for takes its place.
      obtain ⟨u, known', unmarked, wider'⟩ := spared f earlier.2
      have oneWay := last.resolve_right (earlier.1.asymm nodup)
      have chain : subsumes u e = true := by
        rcases sub.trans wider' wider with rfl | chain
        · rw [oneWay] at wider'
          cases wider'
        · exact chain
      exact ⟨u, known', chain, fun marked => unmarked marked.2⟩
    · exact ⟨f, known, wider, earlier⟩

end Scan

variable {p : Permutation Station} {ix ix' : Index Station C} {l : List C} {d : Containment}
  {subsumes : C → C → Bool} {e : C}

omit [BEq C] in
/-- Entries that subsume one another are over one set. -/
theorem Subsuming.mem_iff (sub : Subsuming d subsumes) {a b : C} (first : subsumes a b = true)
    (second : subsumes b a = true) (x : Station) : x ∈ elements a ↔ x ∈ elements b := by
  have forward := sub.relates first
  have backward := sub.relates second
  cases d with
  | subsets => exact ⟨forward x, backward x⟩
  | supersets => exact ⟨backward x, forward x⟩

/-- Entries of one set stand in the index as in the list that it files. -/
theorem Files.precedes_iff (h : Files p ix l) {a b : C} (same : p.key a = p.key b) :
    Precedes ix.entries a b ↔ Precedes l a b := by
  have kept (m : List C) : Precedes (m.filter fun e => p.key e = p.key b) a b ↔ Precedes m a b :=
    ⟨fun before => before.of_sublist List.filter_sublist,
      fun before => before.filter (by simpa using same) (by simp)⟩
  rw [← kept ix.entries, ← kept l, h.filter_entries]
  rfl

/-- Whether an entry is superseded does not depend on the order of the sets. -/
theorem Files.superseded_iff (h : Files p ix l) (sub : Subsuming d subsumes) (member : e ∈ l) :
    Superseded subsumes ix.entries e ↔ Superseded subsumes l e := by
  apply exists_congr
  intro f
  rw [h.mem_entries]
  apply and_congr_right
  intro known
  apply and_congr_right
  intro wider
  cases back : subsumes e f with
  | false => simp
  | true =>
    have same : p.key e = p.key f := (p.key_eq_iff (h.admits e member) (h.admits f known)).mpr
      (sub.mem_iff back wider)
    rw [h.precedes_iff same]

/-- An index that files a part of the list lists the same part of its entries. -/
theorem Files.entries_filter (h : Files p ix l) {q : C → Bool} (part : Files p ix' (l.filter q)) :
    ix'.entries = ix.entries.filter q := by
  apply eq_of_sorted_of_filter_eq part.pairwise_entries (h.pairwise_entries.filter _)
  intro b
  rw [part.filter_entries, List.filter_comm, h.filter_entries, bucketOf, List.filter_comm]
  rfl

/-- An index is determined by the list that it files. -/
theorem Files.unique (h : Files p ix l) (h' : Files p ix' l) : ix = ix' := by
  have sets := h.sets_of_perm h'.toHolds (.refl l)
  have buckets : ix.buckets = ix'.buckets := by
    apply Std.ExtTreeMap.ext_getElem?
    intro b
    rw [h.buckets, h'.buckets]
  have permutation := h.permutation.trans h'.permutation.symm
  have total := h.total.trans h'.total.symm
  cases ix
  cases ix'
  cases sets
  cases buckets
  cases permutation
  cases total
  rfl

section Removal

variable [LawfulBEq C]

theorem Files.nodup_entries (h : Files p ix l) : ix.entries.Nodup :=
  h.perm_entries.nodup_iff.mpr h.nodup

theorem Files.mem_culled_iff (h : Files p ix l) (sub : Subsuming d subsumes) :
    e ∈ ix.culled subsumes ↔ e ∈ ix.entries ∧ Superseded subsumes ix.entries e := by
  rw [mem_culled]
  exact and_congr_right fun member => mem_marked_iff_superseded sub h.nodup_entries member

/-- What is left after pruning is not superseded by anything that is left. -/
theorem Files.culled_eq_nil (h : Files p ix l) (sub : Subsuming d subsumes)
    (pruned : Files p ix' (l.filter (· ∉ ix.culled subsumes))) : ix'.culled subsumes = [] := by
  have left := h.entries_filter pruned
  have within : ix'.entries.Sublist ix.entries := left ▸ List.filter_sublist
  apply List.eq_nil_iff_forall_not_mem.mpr
  intro e member
  obtain ⟨stays, f, known, wider, last⟩ := (pruned.mem_culled_iff sub).mp member
  have gone : e ∈ ix.culled subsumes := (h.mem_culled_iff sub).mpr
    ⟨within.subset stays, f, within.subset known, wider, last.imp_right (·.of_sublist within)⟩
  rw [left, List.mem_filter] at stays
  simp [gone] at stays

/-- What is left after pruning does not subsume anything else that is left. -/
theorem Files.subsumes_eq_false_of_pruned (h : Files p ix l) (sub : Subsuming d subsumes)
    (pruned : Files p ix' (l.filter (· ∉ ix.culled subsumes))) {f : C} (member : e ∈ ix'.entries)
    (other : f ∈ ix'.entries) : subsumes f e = false := by
  have none := h.culled_eq_nil sub pruned
  have unmarked (m : C) (left : m ∈ ix'.entries) : m ∉ Index.marked ix'.entries subsumes := by
    intro marked
    have gone := mem_culled.mpr ⟨left, marked⟩
    rw [none] at gone
    cases gone
  by_contra wider
  apply unmarked e member
  rw [mem_marked_iff pruned.nodup_entries member]
  exact ⟨f, other, by simpa using wider, fun earlier => unmarked f other earlier.2⟩

/-- However often it reports, pruning removes what is superseded and leaves nothing to prune. -/
theorem Files.outcome_prune_again [LawfulElements C] (h : Files p ix l)
    (sub : Subsuming d subsumes) (kind : Journal.Kind) : ∃ ix' : Index Station C,
      (∀ n, (Index.prune kind d subsumes n).outcome ix = (.ok (ix.culled subsumes), ix')) ∧
        (∀ n, (Index.prune kind d subsumes n).outcome ix' = (.ok [], ix')) ∧
        ix'.entries = ix.entries.filter (· ∉ ix.culled subsumes) := by
  obtain ⟨ix', _, left⟩ := h.outcome_prune_culled sub kind 0
  refine ⟨ix', ?_, ?_, h.entries_filter left⟩
  · intro n
    obtain ⟨_, outcome, left'⟩ := h.outcome_prune_culled sub kind n
    rw [outcome, left'.unique left]
  · intro n
    obtain ⟨_, outcome, left'⟩ := left.outcome_prune_culled sub kind n
    rw [h.culled_eq_nil sub left] at outcome left'
    rw [outcome, left'.unique (by simpa using left)]

end Removal

end Repack.Index
