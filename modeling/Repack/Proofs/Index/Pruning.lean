import Mathlib.Data.List.Nodup
import Repack.Proofs.Index.Queries
import Repack.Store.Redundancy

/-! Pruning an index whose entries may subsume one another. An entry is marked for one that is not
marked yet, and that one may be marked later. What it is marked for then takes its place, so in the
end every marked entry has one that stays. -/
namespace Repack.Index

variable {C : Type} [BEq C] [HasElements C Station]

/-- What pruning asks of the entries: those that subsume an entry are among the answers to a query
for it, none subsumes itself, and only two that subsume each other break a chain. -/
structure Subsuming (d : Containment) (subsumes : C → C → Bool) : Prop where
  relates : ∀ {a b : C}, subsumes a b = true → d.Relates (elements b) (elements a)
  irrefl : ∀ a : C, subsumes a a = false
  trans : ∀ {a b c : C}, subsumes a b = true → subsumes b c = true → a = c ∨ subsumes a c = true

/-- Marks an entry if one of those stored that is not marked subsumes it. -/
def mark (stored : List C) (subsumes : C → C → Bool) (marked : List C) (entry : C) : List C :=
  if stored.any fun other => !marked.contains other && subsumes other entry then marked ++ [entry]
  else marked

/-- The entries that a scan marks. -/
def marked (stored : List C) (subsumes : C → C → Bool) : List C :=
  stored.foldl (mark stored subsumes) []

/-- Marked entries are stored, and each is subsumed by a stored one that is not marked. -/
structure Marking (stored : List C) (subsumes : C → C → Bool) (marked : List C) : Prop where
  known : ∀ m ∈ marked, m ∈ stored
  spared : ∀ m ∈ marked, ∃ u ∈ stored, u ∉ marked ∧ subsumes u m = true

/-- What is left of some entries when others are removed: those removed were there, and each is
subsumed by one that is left. -/
structure Spares (subsumes : C → C → Bool) (before after removed : List C) : Prop where
  remaining : ∀ e, e ∈ after ↔ e ∈ before ∧ e ∉ removed
  stored : ∀ e ∈ removed, e ∈ before
  subsumed : ∀ e ∈ removed, ∃ u ∈ after, subsumes u e = true

omit [BEq C] [HasElements C Station] in
/-- Whatever entries do that all entries subsuming them do is still done. -/
theorem Spares.exists_iff {subsumes : C → C → Bool} {before after removed : List C}
    (h : Spares subsumes before after removed) {P : C → Prop}
    (inherited : ∀ {u e : C}, subsumes u e = true → P e → P u) :
    (∃ e ∈ after, P e) ↔ ∃ e ∈ before, P e := by
  constructor
  · rintro ⟨e, left, does⟩
    exact ⟨e, ((h.remaining e).mp left).1, does⟩
  · rintro ⟨e, member, does⟩
    by_cases gone : e ∈ removed
    · obtain ⟨u, left, wider⟩ := h.subsumed e gone
      exact ⟨u, left, inherited wider does⟩
    · exact ⟨e, (h.remaining e).mpr ⟨member, gone⟩, does⟩

section Marking

variable [LawfulBEq C] {d : Containment} {subsumes : C → C → Bool} {stored marked : List C}

theorem Marking.step (sub : Subsuming d subsumes) (h : Marking stored subsumes marked) {entry : C}
    (member : entry ∈ stored) : Marking stored subsumes (mark stored subsumes marked entry) := by
  rw [mark]
  split
  · next found =>
    obtain ⟨other, known, unmarked⟩ := List.any_eq_true.mp found
    simp only [Bool.and_eq_true, Bool.not_eq_true', List.contains_eq_mem, decide_eq_false_iff_not]
      at unmarked
    obtain ⟨unmarked, wider⟩ := unmarked
    have differs : other ≠ entry := by
      rintro rfl
      rw [sub.irrefl] at wider
      cases wider
    have stays : other ∉ marked ++ [entry] := by simp [unmarked, differs]
    constructor
    · intro m inside
      rcases List.mem_append.mp inside with inside | last
      · exact h.known m inside
      · exact List.mem_singleton.mp last ▸ member
    · intro m inside
      rcases List.mem_append.mp inside with before | last
      · obtain ⟨u, known', unmarked', wider'⟩ := h.spared m before
        by_cases same : u = entry
        · -- The entry that spared `m` is now marked, and `other` takes its place.
          subst same
          rcases sub.trans wider wider' with rfl | chain
          · exact absurd before unmarked
          · exact ⟨other, known, stays, chain⟩
        · exact ⟨u, known', by simp [unmarked', same], wider'⟩
      · obtain rfl := List.mem_singleton.mp last
        exact ⟨other, known, stays, wider⟩
  · exact h

theorem marking_foldl (sub : Subsuming d subsumes) (h : Marking stored subsumes marked)
    {entries : List C} (within : ∀ e ∈ entries, e ∈ stored) :
    Marking stored subsumes (entries.foldl (mark stored subsumes) marked) := by
  induction entries generalizing marked with
  | nil => exact h
  | cons e rest ih =>
    apply ih (h.step sub (within e List.mem_cons_self))
    exact fun e member => within e (List.mem_cons_of_mem _ member)

theorem marking_marked (sub : Subsuming d subsumes) (stored : List C) :
    Marking stored subsumes (Index.marked stored subsumes) := by
  have start : Marking stored subsumes [] := by constructor <;> simp
  exact marking_foldl sub start fun _ member => member

end Marking

variable {p : Permutation Station} {ix : Index Station C} {l : List C} {d : Containment}
  {subsumes : C → C → Bool}

/-- Marks an entry, after any report, if one that is not marked makes it redundant. -/
def consider (ix : Index Station C) (d : Containment) (subsumes : C → C → Bool) (marked : List C)
    (entry : C) : Attempt (List C) := do
  let others ← ix.find d entry
  if others.any fun other => !marked.contains other && subsumes other entry then
    Attempt.log .redundant
    pure (marked ++ [entry])
  else pure marked

theorem judge_eq (ix : Index Station C) (d : Containment) (subsumes : C → C → Bool)
    (interval : Nat) (marked : List C) (entry : C) (done : Nat) :
    ix.judge d subsumes interval marked entry done =
      if 0 < done ∧ done % max interval 1 = 0 then do
        Attempt.log (.scanned done ix.total marked.length)
        ix.consider d subsumes marked entry
      else ix.consider d subsumes marked entry := rfl

/-- The marks after judging some entries in turn. -/
def scan (ix : Index Station C) (d : Containment) (subsumes : C → C → Bool) (interval : Nat)
    (scanned : List C) : Attempt (List C) :=
  scanned.zipIdx.foldlM (fun marked (entry, done) =>
    ix.judge d subsumes interval marked entry done) []

theorem redundant_eq (ix : Index Station C) (d : Containment) (subsumes : C → C → Bool)
    (interval : Nat) : ix.redundant d subsumes interval = (do
      let marked ← ix.scan d subsumes interval ix.entries
      pure (ix.entries.filter marked.contains)) := rfl

theorem Files.result_consider (h : Files p ix l) (sub : Subsuming d subsumes) (marked : List C)
    {entry : C} (inside : p.Admits entry) :
    (ix.consider d subsumes marked entry).result =
      .ok (mark ix.entries subsumes marked entry) := by
  have found := h.result_find d inside
  have searched : (ix.entries.filter fun e => d.Relates (elements entry) (elements e)).any
      (fun other => !marked.contains other && subsumes other entry) =
        ix.entries.any fun other => !marked.contains other && subsumes other entry := by
    rw [List.any_filter]
    congr 1
    funext other
    cases wider : subsumes other entry with
    | false => simp
    | true => simp [sub.relates wider]
  rw [consider, Attempt.result_bind, found]
  simp only [Except.bind, searched, mark]
  split <;> rfl

theorem Files.result_judge (h : Files p ix l) (sub : Subsuming d subsumes) (interval : Nat)
    (marked : List C) {entry : C} (inside : p.Admits entry) (done : Nat) :
    (ix.judge d subsumes interval marked entry done).result =
      .ok (mark ix.entries subsumes marked entry) := by
  have judged := h.result_consider sub marked inside
  rw [judge_eq]
  split
  · exact judged
  · exact judged

theorem Files.result_scan (h : Files p ix l) (sub : Subsuming d subsumes) (interval : Nat)
    {scanned : List C} (within : ∀ e ∈ scanned, e ∈ ix.entries) :
    (ix.scan d subsumes interval scanned).result =
      .ok (scanned.foldl (mark ix.entries subsumes) []) := by
  have each : ∀ (marks : List C), ∀ pair ∈ scanned.zipIdx,
      (ix.judge d subsumes interval marks pair.1 pair.2).result =
        .ok (mark ix.entries subsumes marks pair.1) := by
    intro marks pair member
    have stored := h.mem_entries.mp (within _ (List.fst_mem_of_mem_zipIdx member))
    exact h.result_judge sub interval marks (h.admits _ stored) pair.2
  have marked := Attempt.result_foldlM_ok
    (fun marks (pair : C × Nat) => ix.judge d subsumes interval marks pair.1 pair.2)
    (fun marks pair => mark ix.entries subsumes marks pair.1) each []
  have plain : scanned.zipIdx.foldl (fun marks pair => mark ix.entries subsumes marks pair.1) [] =
      scanned.foldl (mark ix.entries subsumes) [] := by
    rw [← List.foldl_map, List.zipIdx_map_fst]
  rw [← plain]
  exact marked

theorem Files.result_redundant (h : Files p ix l) (sub : Subsuming d subsumes) (interval : Nat) :
    (ix.redundant d subsumes interval).result =
      .ok (ix.entries.filter (marked ix.entries subsumes).contains) := by
  rw [redundant_eq, Attempt.result_bind, h.result_scan sub interval fun _ member => member]
  rfl

section Removal

variable [LawfulBEq C] [LawfulElements C]

omit [LawfulElements C] in
theorem Files.nodup (h : Files p ix l) : l.Nodup :=
  h.distinct.imp fun differs => by simpa using differs

theorem Files.outcome_removal (h : Files p ix l) {removed : List C}
    (admits : ∀ e ∈ removed, p.Admits e) : ∃ ix' : Index Station C,
      (removed.forM fun entry => discard (Index.erase entry)).outcome ix = (.ok ⟨⟩, ix') ∧
        Files p ix' (l.diff removed) := by
  induction removed generalizing ix l with
  | nil => exact ⟨ix, rfl, h⟩
  | cons e rest ih =>
    obtain ⟨next, outcome, filed⟩ := h.outcome_erase (admits e List.mem_cons_self)
    obtain ⟨last, ended, filed⟩ := ih filed fun e member => admits e (List.mem_cons_of_mem _ member)
    refine ⟨last, ?_, by rwa [List.diff_cons]⟩
    have first : (discard (Index.erase e) : Action _ PUnit).outcome ix = (.ok ⟨⟩, next) := by
      rw [Action.outcome_discard, outcome]
      rfl
    rw [List.forM, Action.outcome_bind_ok first, ended]

/-- The entries that pruning removes, in index order. -/
def culled (ix : Index Station C) (subsumes : C → C → Bool) : List C :=
  ix.entries.filter (Index.marked ix.entries subsumes).contains

omit [HasElements C Station] [LawfulElements C] in
theorem mem_culled {e : C} : e ∈ ix.culled subsumes ↔
    e ∈ ix.entries ∧ e ∈ Index.marked ix.entries subsumes := by
  simp [culled]

omit [HasElements C Station] [LawfulElements C] in
theorem mem_entries_of_mem_culled {e : C} (member : e ∈ ix.culled subsumes) : e ∈ ix.entries :=
  (mem_culled.mp member).1

omit [LawfulElements C] in
theorem Files.admits_of_mem_culled (h : Files p ix l) {e : C} (member : e ∈ ix.culled subsumes) :
    p.Admits e :=
  h.admits e (h.mem_entries.mp (mem_entries_of_mem_culled member))

omit [LawfulBEq C] [LawfulElements C] in
theorem Files.outcome_redundant (h : Files p ix l) (sub : Subsuming d subsumes) (interval : Nat) :
    (Action.query (·.redundant d subsumes interval)).outcome ix = (.ok (ix.culled subsumes), ix) := by
  rw [Action.outcome_query, h.result_redundant sub]
  rfl

theorem Files.outcome_prune_culled (h : Files p ix l) (sub : Subsuming d subsumes)
    (kind : Journal.Kind) (interval : Nat) : ∃ ix' : Index Station C,
      (Index.prune kind d subsumes interval).outcome ix = (.ok (ix.culled subsumes), ix') ∧
        Files p ix' (l.filter (· ∉ ix.culled subsumes)) := by
  obtain ⟨ix', ended, filed⟩ := h.outcome_removal fun _ => h.admits_of_mem_culled
  rw [h.nodup.sdiff_eq_filter] at filed
  refine ⟨ix', ?_, filed⟩
  rw [Index.prune, Action.outcome_withLock, Action.outcome_bind_ok (h.outcome_redundant sub interval),
    Action.outcome_bind_ok ended]
  rfl

theorem Files.outcome_prune (h : Files p ix l) (sub : Subsuming d subsumes)
    (kind : Journal.Kind) (interval : Nat) : ∃ (removed : List C) (ix' : Index Station C),
      (Index.prune kind d subsumes interval).outcome ix = (.ok removed, ix') ∧
        Files p ix' (l.filter (· ∉ removed)) ∧
        Spares subsumes ix.entries ix'.entries removed := by
  have marks := marking_marked sub ix.entries
  obtain ⟨ix', outcome, filed⟩ := h.outcome_prune_culled sub kind interval
  have remaining : ∀ e, e ∈ ix'.entries ↔ e ∈ ix.entries ∧ e ∉ ix.culled subsumes := by
    intro e
    rw [filed.mem_entries, h.mem_entries, List.mem_filter, decide_eq_true_iff]
  refine ⟨_, ix', outcome, filed, remaining, fun e => mem_entries_of_mem_culled, ?_⟩
  intro e member
  obtain ⟨u, known, unmarked, wider⟩ := marks.spared e (mem_culled.mp member).2
  exact ⟨u, (remaining u).mpr ⟨known, fun gone => unmarked (mem_culled.mp gone).2⟩, wider⟩

end Removal

end Repack.Index
