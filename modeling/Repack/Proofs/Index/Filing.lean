import Repack.Index.Basic
import Repack.Proofs.Permutation
import Repack.Proofs.Sequence

/-! An index holds a list: the entries that were added and not removed since, in
the order of their latest addition. Whatever the equality of entries is, an index
that is reached holds some list. Where equal entries are over one set, every call
on the index is a call on this list, and a refused call changes neither. -/
namespace Repack

/-- Equal values stand for equal sets. -/
class LawfulElements (C : Type) {E : outParam Type} [HasElements C E] [BEq C] : Prop where
  mem_iff_of_beq : ∀ {a b : C}, (a == b) = true → ∀ x : E, x ∈ elements a ↔ x ∈ elements b

instance {C E : Type} [HasElements C E] [BEq C] [LawfulBEq C] : LawfulElements C where
  mem_iff_of_beq := fun same x => by rw [eq_of_beq same]

variable {E C : Type} [DecidableEq E] [HasElements C E]

/-- The bit set that an entry is filed by. -/
def Permutation.key (p : Permutation E) (entry : C) : BitSet :=
  p.bits (HasElements.elements entry)

/-- Whether an entry is within the universe. -/
def Permutation.Admits (p : Permutation E) (entry : C) : Prop :=
  p.Spans (HasElements.elements entry)

instance (p : Permutation E) (entry : C) : Decidable (p.Admits entry) :=
  inferInstanceAs (Decidable (p.Spans _))

theorem Permutation.key_eq_iff (p : Permutation E) {a b : C} (ha : p.Admits a) (hb : p.Admits b) :
    p.key a = p.key b ↔ ∀ x, x ∈ HasElements.elements a ↔ x ∈ HasElements.elements b :=
  p.bits_eq_iff ha hb

section Equal

variable [BEq C] [LawfulElements C]

theorem Permutation.admits_congr (p : Permutation E) {a b : C} (same : (a == b) = true) :
    p.Admits a ↔ p.Admits b := p.spans_congr (LawfulElements.mem_iff_of_beq same)

theorem Permutation.key_congr (p : Permutation E) {a b : C} (ha : p.Admits a)
    (same : (a == b) = true) : p.key a = p.key b :=
  (p.key_eq_iff ha ((p.admits_congr same).mp ha)).mpr (LawfulElements.mem_iff_of_beq same)

end Equal

namespace Index

/-- The entries of a list that are filed by one bit set. -/
def bucketOf (p : Permutation E) (l : List C) (b : BitSet) : List C :=
  l.filter fun e => p.key e = b

theorem bucketOf_append (p : Permutation E) (l : List C) (entry : C) (b : BitSet) :
    bucketOf p (l ++ [entry]) b =
    if p.key entry = b then bucketOf p l b ++ [entry] else bucketOf p l b := by
  by_cases same : p.key entry = b <;> simp [bucketOf, same]

theorem mem_bucketOf {p : Permutation E} {l : List C} {b : BitSet} {e : C} :
    e ∈ bucketOf p l b ↔ e ∈ l ∧ p.key e = b := by
  simp [bucketOf]

/-- An index over a permutation holds a list: its buckets are the parts of the list, its ordered
sets are those with a part, and it counts the list. -/
structure Holds (p : Permutation E) (ix : Index E C) (l : List C) : Prop where
  permutation : ix.permutation = p
  admits : ∀ e ∈ l, p.Admits e
  buckets : ∀ b, ix.buckets[b]? =
    if bucketOf p l b = [] then none else some (bucketOf p l b)
  sets : ∀ b, b ∈ ix.sets ↔ bucketOf p l b ≠ []
  total : ix.total = l.length

theorem holds_empty (p : Permutation E) : Holds p (Index.empty p) ([] : List C) where
  permutation := rfl
  admits := fun _ member => nomatch member
  buckets := fun b => by simp [Index.empty, bucketOf]
  sets := fun b => by simp [Index.empty, bucketOf]
  total := rfl

variable [BEq C]

/-- An index files a list that it holds if no two entries of the list are equal. -/
structure Files (p : Permutation E) (ix : Index E C) (l : List C) : Prop extends Holds p ix l where
  distinct : l.Pairwise fun a b => (a == b) = false

theorem files_empty (p : Permutation E) : Files p (Index.empty p) ([] : List C) :=
  ⟨holds_empty p, .nil⟩

/-- A call that may change an index. -/
inductive Call (C : Type)
  | insert (entry : C)
  | erase (entry : C)
  deriving Repr

namespace Call

def perform : Call C → Action (Index E C) Bool
  | insert entry => Index.insert entry
  | erase entry => Index.erase entry

def entry : Call C → C
  | insert entry | erase entry => entry

/-- The call on a list: an entry goes to the end if it is new, and outside of the universe nothing
happens. -/
def onList (p : Permutation E) (l : List C) (call : Call C) : List C :=
  if p.Admits call.entry then
    match call with
    | insert entry => if l.contains entry then l else l ++ [entry]
    | erase entry => l.erase entry
  else l

/-- The answer to a call: whether it changes the list. -/
def answer (p : Permutation E) (l : List C) (call : Call C) : Except Fault Bool :=
  if p.Admits call.entry then
    match call with
    | insert entry => .ok !l.contains entry
    | erase entry => .ok (l.contains entry)
  else .error .unknownElement

end Call

variable {p : Permutation E} {ix : Index E C} {l : List C}

section BitSet

variable {Q : Type} [HasElements Q E] {query : Q}

omit [BEq C] in
theorem Holds.result_bitSet (h : Holds p ix l) (inside : p.Spans (HasElements.elements query)) :
    (ix.bitSet query).result = .ok (p.bits (HasElements.elements query)) := by
  rw [Index.bitSet, h.permutation]
  exact p.result_bitSet inside

omit [BEq C] in
theorem Holds.result_bitSet_error (h : Holds p ix l)
    (outside : ¬ p.Spans (HasElements.elements query)) :
    (ix.bitSet query).result = .error .unknownElement := by
  rw [Index.bitSet, h.permutation]
  exact p.result_bitSet_error outside

end BitSet

omit [BEq C] in
theorem Holds.outcome_bitSet (h : Holds p ix l) {entry : C} (inside : p.Admits entry) :
    (Action.query (·.bitSet entry)).outcome ix = (.ok (p.key entry), ix) := by
  rw [Action.outcome_query, h.result_bitSet inside]
  rfl

omit [BEq C] in
theorem Holds.outcome_outside (h : Holds p ix l) {entry : C} (outside : ¬ p.Admits entry) :
    (Action.query (·.bitSet entry)).outcome ix = (.error .unknownElement, ix) := by
  rw [Action.outcome_query, h.result_bitSet_error outside]

/-- The entries that a call on an entry finds: the equal ones, of those over the same set. -/
def matching (p : Permutation E) (entry : C) : C → Bool :=
  fun e => e == entry && decide (p.key e = p.key entry)

theorem any_bucketOf (p : Permutation E) (l : List C) (entry : C) :
    (bucketOf p l (p.key entry)).any (· == entry) = l.any (matching p entry) := by
  rw [bucketOf, List.any_filter]
  exact congrArg l.any (funext fun e => Bool.and_comm _ _)

theorem bucketOf_eraseP (p : Permutation E) (l : List C) (entry : C) (b : BitSet) :
    bucketOf p (l.eraseP (matching p entry)) b =
      if p.key entry = b then (bucketOf p l b).erase entry else bucketOf p l b := by
  split
  · next same =>
    subst same
    rw [List.erase_eq_eraseP', bucketOf, bucketOf, List.eraseP_filter]
    rfl
  · next differs =>
    apply filter_eraseP_of_disjoint
    intro e found
    have same : p.key e = p.key entry := (by simpa [matching] using found : _ ∧ _).2
    exact decide_eq_false (same ▸ differs)

omit [BEq C] in
/-- The index after an entry was put last in its bucket. -/
theorem Holds.append (h : Holds p ix l) {entry : C} (inside : p.Admits entry)
    {sets : Std.ExtTreeSet BitSet} (ordered : ∀ b, b ∈ sets ↔ p.key entry = b ∨ b ∈ ix.sets) :
    Holds p { ix with
      sets := sets
      buckets := ix.buckets.insert (p.key entry) (bucketOf p l (p.key entry) ++ [entry])
      total := ix.total + 1 } (l ++ [entry]) where
  permutation := h.permutation
  admits := by
    intro e member
    rcases List.mem_append.mp member with member | member
    · exact h.admits e member
    · exact List.mem_singleton.mp member ▸ inside
  buckets := by
    intro b
    rw [Std.ExtTreeMap.getElem?_insert, bucketOf_append]
    by_cases same : p.key entry = b <;> simp [same, h.buckets]
  sets := by
    intro b
    rw [ordered, bucketOf_append, h.sets]
    by_cases same : p.key entry = b <;> simp [same]
  total := by simp [h.total]

/-- The index after an entry was taken out of its bucket. -/
theorem Holds.remove (h : Holds p ix l) {entry : C} (present : l.any (matching p entry) = true)
    {sets : Std.ExtTreeSet BitSet} {buckets : Std.ExtTreeMap BitSet (List C)}
    (filed : ∀ b, buckets[b]? =
      if p.key entry = b then
        if (bucketOf p l b).erase entry = [] then none else some ((bucketOf p l b).erase entry)
      else ix.buckets[b]?)
    (ordered : ∀ b, b ∈ sets ↔
      b ∈ ix.sets ∧ (p.key entry = b → (bucketOf p l b).erase entry ≠ [])) :
    Holds p { ix with sets := sets, buckets := buckets, total := ix.total - 1 }
      (l.eraseP (matching p entry)) where
  permutation := h.permutation
  admits := fun e member => h.admits e (List.mem_of_mem_eraseP member)
  buckets := by
    intro b
    rw [filed, bucketOf_eraseP, h.buckets]
    split <;> rfl
  sets := by
    intro b
    rw [ordered, bucketOf_eraseP, h.sets]
    by_cases same : p.key entry = b
    · simp only [same, if_true, true_implies, and_iff_right_iff_imp]
      intro left none
      rw [none] at left
      exact left rfl
    · simp [same]
  total := by rw [List.length_eraseP, if_pos present, h.total]

/-- The last entry of a bucket takes the bucket with it. -/
theorem Holds.remove_bucket (h : Holds p ix l) {entry : C}
    (present : l.any (matching p entry) = true)
    (last : (bucketOf p l (p.key entry)).erase entry = []) :
    Holds p { ix with
      sets := ix.sets.erase (p.key entry)
      buckets := ix.buckets.erase (p.key entry)
      total := ix.total - 1 } (l.eraseP (matching p entry)) := by
  apply h.remove present
  · intro b
    rw [Std.ExtTreeMap.getElem?_erase]
    by_cases same : p.key entry = b
    · subst same
      simp [last]
    · simp [same]
  · intro b
    rw [Std.ExtTreeSet.mem_erase]
    by_cases same : p.key entry = b
    · subst same
      simp [last]
    · simp [same]

/-- Any other entry leaves the rest of its bucket. -/
theorem Holds.remove_entry (h : Holds p ix l) {entry : C}
    (present : l.any (matching p entry) = true)
    (rest : (bucketOf p l (p.key entry)).erase entry ≠ []) :
    Holds p { ix with
      buckets := ix.buckets.insert (p.key entry) ((bucketOf p l (p.key entry)).erase entry)
      total := ix.total - 1 } (l.eraseP (matching p entry)) := by
  apply h.remove present
  · intro b
    rw [Std.ExtTreeMap.getElem?_insert]
    by_cases same : p.key entry = b
    · subst same
      simp [rest]
    · simp [same]
  · intro b
    rw [iff_self_and]
    rintro _ rfl
    exact rest

theorem Holds.outcome_insert (h : Holds p ix l) {entry : C} (inside : p.Admits entry) :
    ∃ ix' : Index E C,
      (Index.insert entry).outcome ix = (.ok !l.any (matching p entry), ix') ∧
      Holds p ix' (if l.any (matching p entry) then l else l ++ [entry]) := by
  rw [Index.insert, Action.outcome_bind_ok (h.outcome_bitSet inside),
    Action.outcome_bind_ok (Action.outcome_get ix), h.buckets]
  have sought := any_bucketOf p l entry
  by_cases empty : bucketOf p l (p.key entry) = []
  · have fresh : l.any (matching p entry) = false := by rw [← sought, empty]; rfl
    rw [if_pos empty, fresh]
    refine ⟨_, rfl, ?_⟩
    have ordered : ∀ b, b ∈ ix.sets.insert (p.key entry) ↔ p.key entry = b ∨ b ∈ ix.sets := by
      simp
    have filed := h.append inside ordered
    rwa [empty] at filed
  · rw [if_neg empty]
    cases present : l.any (matching p entry) with
    | true =>
      simp only [sought, present, if_true]
      exact ⟨ix, rfl, h⟩
    | false =>
      simp only [sought, present, Bool.false_eq_true, if_false]
      refine ⟨_, rfl, h.append inside ?_⟩
      intro b
      constructor
      · exact Or.inr
      · rintro (rfl | stored)
        · exact (h.sets _).mpr empty
        · exact stored

theorem Holds.outcome_erase (h : Holds p ix l) {entry : C} (inside : p.Admits entry) :
    ∃ ix' : Index E C, (Index.erase entry).outcome ix = (.ok (l.any (matching p entry)), ix') ∧
      Holds p ix' (l.eraseP (matching p entry)) := by
  rw [Index.erase, Action.outcome_bind_ok (h.outcome_bitSet inside),
    Action.outcome_bind_ok (Action.outcome_get ix), h.buckets]
  have sought := any_bucketOf p l entry
  have kept (absent : l.any (matching p entry) = false) : l.eraseP (matching p entry) = l :=
    List.eraseP_of_forall_not (List.any_eq_false.mp absent)
  by_cases empty : bucketOf p l (p.key entry) = []
  · have absent : l.any (matching p entry) = false := by rw [← sought, empty]; rfl
    rw [if_pos empty, absent, kept absent]
    exact ⟨ix, rfl, h⟩
  · rw [if_neg empty]
    cases present : l.any (matching p entry) with
    | false =>
      simp only [sought, present, Bool.false_eq_true, if_false]
      rw [kept present]
      exact ⟨ix, rfl, h⟩
    | true =>
      have known : p.key entry ∈ ix.sets := (h.sets _).mpr empty
      simp only [sought, present, if_true]
      by_cases last : (bucketOf p l (p.key entry)).erase entry = []
      · simp only [last, List.isEmpty_nil, if_true]
        rw [Action.outcome_bind_ok (Action.outcome_set _ ix), if_pos (by simpa using known)]
        exact ⟨_, rfl, h.remove_bucket present last⟩
      · simp only [List.isEmpty_iff, last, if_false]
        exact ⟨_, rfl, h.remove_entry present last⟩

/-- A call within the universe succeeds, and what it leaves holds a list again. -/
theorem Holds.outcome_call (h : Holds p ix l) {call : Call C} (inside : p.Admits call.entry) :
    ∃ (changed : Bool) (ix' : Index E C) (l' : List C),
      call.perform.outcome ix = (.ok changed, ix') ∧ Holds p ix' l' := by
  cases call with
  | insert entry =>
    obtain ⟨ix', outcome, holds⟩ := h.outcome_insert inside
    exact ⟨_, ix', _, outcome, holds⟩
  | erase entry =>
    obtain ⟨ix', outcome, holds⟩ := h.outcome_erase inside
    exact ⟨_, ix', _, outcome, holds⟩

theorem Holds.outcome_call_outside (h : Holds p ix l) {call : Call C}
    (outside : ¬ p.Admits call.entry) :
    call.perform.outcome ix = (.error .unknownElement, ix) := by
  cases call with
  | insert entry => exact Action.outcome_bind_error (h.outcome_outside outside)
  | erase entry => exact Action.outcome_bind_error (h.outcome_outside outside)

def run (ix : Index E C) (calls : List (Call C)) : Index E C :=
  calls.foldl (fun ix call => call.perform.after ix) ix

theorem Holds.run (h : Holds p ix l) (calls : List (Call C)) : ∃ l', Holds p (ix.run calls) l' := by
  induction calls generalizing ix l with
  | nil => exact ⟨l, h⟩
  | cons call rest ih =>
    rw [Index.run, List.foldl_cons]
    by_cases inside : p.Admits call.entry
    · obtain ⟨_, ix', _, outcome, holds⟩ := h.outcome_call inside
      rw [Action.after_of_outcome outcome]
      exact ih holds
    · rw [Action.after_of_outcome (h.outcome_call_outside inside)]
      exact ih h

theorem holds_run (p : Permutation E) (calls : List (Call C)) :
    ∃ l, Holds p ((Index.empty p).run calls) l := (holds_empty p).run calls

variable [LawfulElements C] [PartialEquivBEq C]

/-- Equal entries are over one set, so that all of them are found. -/
theorem matching_eq {entry : C} (inside : p.Admits entry) : matching p entry = (· == entry) := by
  funext e
  rw [matching, Bool.and_eq_left_iff_imp, decide_eq_true_iff]
  exact fun same => (p.key_congr inside (PartialEquivBEq.symm same)).symm

theorem any_matching {entry : C} (inside : p.Admits entry) :
    l.any (matching p entry) = l.contains entry := by
  rw [matching_eq inside, List.any_beq']

theorem Files.outcome_insert (h : Files p ix l) {entry : C} (inside : p.Admits entry) :
    ∃ ix' : Index E C, (Index.insert entry).outcome ix = (.ok !l.contains entry, ix') ∧
      Files p ix' (if l.contains entry then l else l ++ [entry]) := by
  obtain ⟨ix', outcome, holds⟩ := h.toHolds.outcome_insert inside
  rw [any_matching inside] at outcome holds
  refine ⟨ix', outcome, holds, ?_⟩
  split
  · exact h.distinct
  · next fresh =>
    refine List.pairwise_append.mpr ⟨h.distinct, List.pairwise_singleton _ _, ?_⟩
    intro a member b last
    obtain rfl := List.mem_singleton.mp last
    rw [BEq.comm, ← Bool.not_eq_true]
    exact fun same => fresh (List.contains_iff_exists_mem_beq.mpr ⟨a, member, same⟩)

theorem Files.outcome_erase (h : Files p ix l) {entry : C} (inside : p.Admits entry) :
    ∃ ix' : Index E C, (Index.erase entry).outcome ix = (.ok (l.contains entry), ix') ∧
      Files p ix' (l.erase entry) := by
  obtain ⟨ix', outcome, holds⟩ := h.toHolds.outcome_erase inside
  rw [any_matching inside] at outcome
  rw [matching_eq inside, ← List.erase_eq_eraseP'] at holds
  exact ⟨ix', outcome, holds, h.distinct.sublist List.erase_sublist⟩

/-- One call answers as the list does, and what it leaves files what the list becomes. -/
theorem Files.step (h : Files p ix l) (call : Call C) :
    ∃ ix' : Index E C, call.perform.outcome ix = (call.answer p l, ix') ∧
      Files p ix' (call.onList p l) := by
  by_cases inside : p.Admits call.entry
  · cases call with
    | insert entry =>
      simp only [Call.answer, Call.onList, if_pos inside]
      exact h.outcome_insert inside
    | erase entry =>
      simp only [Call.answer, Call.onList, if_pos inside]
      exact h.outcome_erase inside
  · simp only [Call.answer, Call.onList, if_neg inside]
    exact ⟨ix, h.outcome_call_outside inside, h⟩

/-- The list after some calls in turn, from the empty one. -/
def listing (p : Permutation E) (calls : List (Call C)) : List C :=
  calls.foldl (Call.onList p) []

theorem Files.run (h : Files p ix l) (calls : List (Call C)) :
    Files p (ix.run calls) (calls.foldl (Call.onList p) l) := by
  induction calls generalizing ix l with
  | nil => exact h
  | cons call rest ih =>
    obtain ⟨ix', outcome, filed⟩ := h.step call
    rw [Index.run, List.foldl_cons, Action.after_of_outcome outcome]
    exact ih filed

theorem files_run (p : Permutation E) (calls : List (Call C)) :
    Files p ((Index.empty p).run calls) (listing p calls) := (files_empty p).run calls

end Index

end Repack
