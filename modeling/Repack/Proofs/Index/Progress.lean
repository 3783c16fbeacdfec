import Repack.Proofs.Index.Redundancy
import Repack.Proofs.Journal.Lines

/-! What pruning reports while it scans, and at its end. The count in a report is taken before the
entry at hand is judged, and no mark is taken back later, so it is the number of entries scanned so
far that go in the end. -/
namespace Repack

open Journal (Event Filter)

/-- Asks for all that is at least informative. -/
def Journal.Filter.informative : Filter := ⟨some .info, none⟩

namespace Index

section Marks

variable {C : Type} [BEq C] {subsumes : C → C → Bool}

theorem sublist_foldl_mark (stored scanned : List C) :
    (scanned.foldl (mark stored subsumes) []).Sublist scanned := by
  -- Marks are added at the end, in the order of the scan.
  induction scanned using List.reverseRecOn with
  | nil => exact .slnil
  | append_singleton scanned e ih =>
    rw [List.foldl_append, List.foldl_cons, List.foldl_nil, mark]
    split
    · exact ih.append (.refl _)
    · exact ih.trans (List.sublist_append_left _ _)

/-- In the middle of a scan as many are marked as there are among those scanned that are marked in
the end. -/
theorem length_foldl_mark [LawfulBEq C] {before after : List C} (nodup : (before ++ after).Nodup) :
    (before.foldl (mark (before ++ after) subsumes) []).length =
      before.countP (· ∈ Index.marked (before ++ after) subsumes) := by
  have distinct := (List.nodup_append.mp nodup).1
  rw [List.countP_eq_length_filter]
  apply List.Perm.length_eq
  rw [List.perm_ext_iff_of_nodup (distinct.sublist (sublist_foldl_mark _ _)) (distinct.filter _)]
  intro m
  rw [mem_foldl_mark_iff nodup, List.mem_filter, decide_eq_true_iff]

end Marks

section Quiet

variable {E : Type} [DecidableEq E] {C : Type} {q : Event → Bool}

theorem quiet_bitSet (p : Permutation E) (elements : List E) : (p.bitSet elements).Quiet q := by
  rw [p.bitSet_eq_foldlM]
  apply Attempt.quiet_foldlM
  intro b e
  rw [Permutation.place]
  split
  · exact Attempt.quiet_ofExcept _
  · exact Attempt.quiet_of_error rfl

theorem quiet_find {Q : Type} [HasElements Q E] (ix : Index E C) (d : Containment) (query : Q)
    (unasked : ∀ bits, q (.queried d bits) = false) : (ix.find d query).Quiet q := by
  have answering : (ix.answering d query).Quiet q := by
    apply (quiet_bitSet _ _).bind
    intro bits
    apply (Attempt.quiet_log (unasked bits)).bind
    intro _
    apply Attempt.quiet_mapM
    intro bits
    rw [bucket]
    split
    · exact Attempt.quiet_pure _
    · exact Attempt.quiet_of_error rfl
  exact answering.bind fun _ => Attempt.quiet_pure _

variable [BEq C] [HasElements C E]

theorem quiet_erase (entry : C) : (erase entry : Action (Index E C) Bool).Quiet q := by
  have converted : (Action.query fun ix : Index E C => ix.bitSet entry).Quiet q :=
    Action.quiet_query fun ix => quiet_bitSet ix.permutation _
  rw [erase]
  apply converted.bind
  intro bits
  apply Action.quiet_get.bind
  intro ix
  split
  · exact Action.quiet_pure _
  · dsimp only
    split
    · split
      · apply (Action.quiet_set _).bind
        intro _
        split
        · exact Action.quiet_pure _
        · exact Action.quiet_of_error fun _ => rfl
      · exact (Action.quiet_set _).bind fun _ => Action.quiet_pure _
    · exact Action.quiet_pure _

end Quiet

variable {C : Type} [BEq C] [HasElements C Station] {p : Permutation Station}
  {ix : Index Station C} {l : List C} {d : Containment} {subsumes : C → C → Bool}

theorem quiet_consider (ix : Index Station C) (d : Containment) (subsumes : C → C → Bool)
    (marked : List C) (entry : C) :
    (ix.consider d subsumes marked entry).Quiet Filter.informative.wants := by
  apply (quiet_find ix d entry fun _ => rfl).bind
  intro others
  split
  · exact (Attempt.quiet_log rfl).bind fun _ => Attempt.quiet_pure _
  · exact Attempt.quiet_pure _

/-- The numbers of scanned entries at which a scan of some entries reports: the multiples of the
interval that leave an entry to be scanned. An interval of 0 counts as 1. -/
def stops (interval n : Nat) : List Nat :=
  (List.range n).filter fun j => 0 < j ∧ max interval 1 ∣ j

theorem stops_succ (interval n : Nat) : stops interval (n + 1) =
    stops interval n ++ if 0 < n ∧ n % max interval 1 = 0 then [n] else [] := by
  rw [stops, stops, List.range_succ, List.filter_append, List.filter_singleton]
  by_cases due : 0 < n ∧ n % max interval 1 = 0
  · simp [Nat.dvd_iff_mod_eq_zero, due]
  · simp [Nat.dvd_iff_mod_eq_zero, due]

theorem Files.total_eq (h : Files p ix l) : ix.total = ix.entries.length := by
  rw [h.total, h.perm_entries.length_eq]

theorem Files.events_judge (h : Files p ix l) (sub : Subsuming d subsumes) (interval : Nat)
    (marked : List C) {entry : C} (inside : p.Admits entry) (done : Nat) :
    (ix.judge d subsumes interval marked entry done).events.filter Filter.informative.wants =
      if 0 < done ∧ done % max interval 1 = 0 then
        [.scanned done ix.entries.length marked.length] else [] := by
  have judged := h.result_judge sub interval marked inside done
  have silent := quiet_consider ix d subsumes marked entry
  rw [judge_eq] at judged ⊢
  split
  · next due =>
    rw [if_pos due] at judged
    have logged : (Attempt.log (.scanned done ix.total marked.length)).result = .ok () := rfl
    rw [Attempt.events_bind_ok logged, List.filter_append, silent _ judged, h.total_eq]
    rfl
  · next notDue =>
    rw [if_neg notDue] at judged
    exact silent _ judged

/-- The scan of the first entries of an index reports how many marks it has made before each
stop. -/
theorem Files.events_scan (h : Files p ix l) (sub : Subsuming d subsumes) (interval : Nat)
    {before after : List C} (cut : ix.entries = before ++ after) :
    (ix.scan d subsumes interval before).events.filter Filter.informative.wants =
      (stops interval before.length).map fun j => .scanned j ix.entries.length
        ((ix.entries.take j).foldl (mark ix.entries subsumes) []).length := by
  induction before using List.reverseRecOn generalizing after with
  | nil => rfl
  | append_singleton before e ih =>
    rw [List.append_assoc] at cut
    have within (m : C) (member : m ∈ before) : m ∈ ix.entries := by rw [cut]; simp [member]
    have inside : p.Admits e := h.admits e (h.mem_entries.mp (by rw [cut]; simp))
    have earlier : ix.entries.take before.length = before := by rw [cut]; simp
    have last : ix.scan d subsumes interval (before ++ [e]) = (do
        let marked ← ix.scan d subsumes interval before
        ix.judge d subsumes interval marked e before.length) := by
      rw [scan, List.zipIdx_append, List.foldlM_append]
      simp [scan]
    rw [last, Attempt.events_bind_ok (h.result_scan sub interval within), List.filter_append,
      ih cut, h.events_judge sub interval _ inside, List.length_append, List.length_singleton,
      stops_succ, List.map_append]
    congr 1
    split
    · rw [List.map_singleton, earlier]
    · rfl

/-- The reports of a scan of some entries, of which it marks those to be removed. -/
def reports [LawfulBEq C] (interval : Nat) (entries removed : List C) : List Event :=
  (stops interval entries.length).map fun j =>
    .scanned j entries.length ((entries.take j).countP (· ∈ removed))

variable [LawfulBEq C]

theorem Files.events_redundant (h : Files p ix l) (sub : Subsuming d subsumes) (interval : Nat) :
    (ix.redundant d subsumes interval).events.filter Filter.informative.wants =
      reports interval ix.entries (ix.culled subsumes) := by
  have scanned := h.result_scan sub interval fun _ member => member
  have all : ix.entries = ix.entries ++ [] := (List.append_nil _).symm
  rw [redundant_eq, Attempt.events_bind_ok scanned, List.filter_append,
    h.events_scan sub interval all, Attempt.events_pure, List.filter_nil, List.append_nil, reports]
  apply List.map_congr_left
  intro j _
  have cut := List.take_append_drop j ix.entries
  have nodup : (ix.entries.take j ++ ix.entries.drop j).Nodup := cut.symm ▸ h.nodup_entries
  have count : ((ix.entries.take j).foldl (mark ix.entries subsumes) []).length =
      (ix.entries.take j).countP (· ∈ Index.marked ix.entries subsumes) := by
    rw [← cut]
    simpa only [cut] using length_foldl_mark nodup
  rw [count]
  congr 1
  apply List.countP_congr
  intro e member
  simp [mem_culled, List.mem_of_mem_take member]

/-- Pruning reports its progress, and in the end how many entries it has removed. -/
theorem Files.events_prune [LawfulElements C] (h : Files p ix l) (sub : Subsuming d subsumes)
    (kind : Journal.Kind) (interval : Nat) :
    ((Index.prune kind d subsumes interval).events ix).filter Filter.informative.wants =
      reports interval ix.entries (ix.culled subsumes) ++
        [.pruned kind (ix.culled subsumes).length] := by
  obtain ⟨ix', ended, _⟩ := h.outcome_removal fun _ => h.admits_of_mem_culled
  have silent : ((ix.culled subsumes).forM fun e =>
      discard (erase e : Action (Index Station C) Bool)).Quiet Filter.informative.wants :=
    Action.quiet_forM (fun e => (quiet_erase e).discard) _
  rw [Index.prune, Action.events_withLock, Action.events_bind_ok (h.outcome_redundant sub interval),
    Action.events_bind_ok ended, Action.events_bind_ok (Action.outcome_log _ _),
    Action.events_query, List.filter_cons_of_neg (by decide), List.filter_append,
    List.filter_append, h.events_redundant sub, silent _ _ _ ended]
  rfl

end Index

end Repack
