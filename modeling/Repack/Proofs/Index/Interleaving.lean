import Mathlib.Data.List.FinRange
import Repack.Proofs.Index.Reachable
import Repack.Proofs.Index.Rearrangement

/-! Writers that take turns on a shared index, each with entries of its own. What happens to the
entries of one writer depends on its own calls only, so the turns may be taken in any order: each
call is answered as if the writers came one after another, and only entries of different writers
may change places within a bucket. -/
namespace Repack

section Turns

variable {ι α : Type} [DecidableEq ι]

/-- What one party does in a list of turns, in its order. -/
def partOf (n : ι) (turns : List (ι × α)) : List α :=
  (turns.filter fun turn => turn.1 = n).map Prod.snd

theorem partOf_cons (n m : ι) (a : α) (turns : List (ι × α)) :
    partOf n ((m, a) :: turns) = if m = n then a :: partOf n turns else partOf n turns := by
  by_cases same : m = n <;> simp [partOf, same]

theorem mem_partOf {n : ι} {turns : List (ι × α)} {a : α} :
    a ∈ partOf n turns ↔ (n, a) ∈ turns := by
  simp [partOf]

/-- All turns of each party, after those of the parties before it. -/
def oneByOne {k : Nat} (sequences : Fin k → List α) : List (Fin k × α) :=
  (List.finRange k).flatMap fun n => (sequences n).map fun a => (n, a)

theorem partOf_oneByOne {k : Nat} (sequences : Fin k → List α) (n : Fin k) :
    partOf n (oneByOne sequences) = sequences n := by
  have own (m : Fin k) : (((sequences m).map fun a => (m, a)).filter fun turn => turn.1 = n).map
      Prod.snd = if m = n then sequences n else [] := by
    by_cases same : m = n
    · subst same
      simp [List.filter_map, Function.comp_def]
    · simp [List.filter_map, Function.comp_def, same]
  have single (l : List (Fin k)) (nodup : l.Nodup) :
      (l.flatMap fun m => if m = n then sequences n else []) =
        if n ∈ l then sequences n else [] := by
    induction l with
    | nil => rfl
    | cons m rest ih =>
      obtain ⟨fresh, nodup⟩ := List.nodup_cons.mp nodup
      rw [List.flatMap_cons, ih nodup]
      by_cases same : m = n
      · subst same
        simp [fresh]
      · simp [same, Ne.symm same]
  rw [partOf, oneByOne, List.filter_flatMap, List.map_flatMap]
  simp only [own]
  rw [single _ (List.nodup_finRange k), if_pos (List.mem_finRange n)]

end Turns

namespace Index

variable {E C : Type} [DecidableEq E] [HasElements C E] [BEq C]

namespace Call

/-- The call on a shared index, under its lock. -/
def shared : Call C → Action (Index E C) Bool
  | insert entry => Shared.insert entry
  | erase entry => Shared.erase entry

theorem outcome_shared (call : Call C) (ix : Index E C) :
    call.shared.outcome ix = call.perform.outcome ix := by
  cases call <;> rfl

end Call

open Classical in
/-- Whether some call is about an entry or one that is equal to it. -/
noncomputable def mentions (calls : List (Call C)) (e : C) : Bool :=
  calls.any fun call => decide (call.entry = e) || call.entry == e

/-- Calls in turn on a shared index: what each is answered, and the index that is left. -/
def play {ι : Type} (ix : Index E C) :
    List (ι × Call C) → List (ι × Except Fault Bool) × Index E C
  | [] => ([], ix)
  | (n, call) :: rest =>
    let (answers, left) := play (call.shared.after ix) rest
    ((n, call.shared.result ix) :: answers, left)

/-- What calls in turn on a list are answered. -/
def answersOn (p : Permutation E) (l : List C) : List (Call C) → List (Except Fault Bool)
  | [] => []
  | call :: rest => call.answer p l :: answersOn p (call.onList p l) rest

section Part

variable {p : Permutation E} {l : List C} {q : C → Bool} {call : Call C}

theorem contains_part (alike : ∀ a b, (a == b) = true → q a = q b) {e : C} (own : q e = true) :
    (l.filter q).contains e = l.contains e :=
  contains_filter_eq fun a _ same => (alike e a same).symm.trans own

theorem Call.answer_part (alike : ∀ a b, (a == b) = true → q a = q b)
    (own : q call.entry = true) : call.answer p (l.filter q) = call.answer p l := by
  unfold answer
  cases call with
  | insert e => simp only [contains_part alike (e := e) own]
  | erase e => simp only [contains_part alike (e := e) own]

/-- A call on a list is a call on the entries of one kind, or else does not touch them. -/
theorem Call.filter_onList (alike : ∀ a b, (a == b) = true → q a = q b) (call : Call C) :
    (call.onList p l).filter q =
      if q call.entry = true then call.onList p (l.filter q) else l.filter q := by
  unfold onList
  by_cases inside : p.Admits call.entry
  · simp only [if_pos inside]
    cases call with
    | insert e =>
      cases own : q e with
      | true =>
        simp only [entry, own, contains_part alike own, if_true]
        split <;> simp [own]
      | false =>
        simp only [entry, own, Bool.false_eq_true, if_false]
        split <;> simp [own]
    | erase e => exact filter_erase fun a _ => alike a e
  · simp only [if_neg inside, ite_self]

theorem filter_foldl_onList (alike : ∀ a b, (a == b) = true → q a = q b)
    (calls : List (Call C)) : (calls.foldl (Call.onList p) l).filter q =
      (calls.filter fun call => q call.entry).foldl (Call.onList p) (l.filter q) := by
  induction calls generalizing l with
  | nil => rfl
  | cons call rest ih =>
    rw [List.foldl_cons, ih, call.filter_onList alike, List.filter_cons]
    split <;> rfl

end Part

section Play

variable {ι : Type} [DecidableEq ι] {q : C → Bool} {n : ι} {turns : List (ι × Call C)}

omit [BEq C] in
/-- The calls on entries that only one party calls on are those of that party. -/
theorem filter_calls (own : ∀ m call, (m, call) ∈ turns → q call.entry = decide (m = n)) :
    (turns.map Prod.snd).filter (fun call => q call.entry) = partOf n turns := by
  rw [partOf, List.filter_map]
  congr 1
  exact List.filter_congr fun turn member => own turn.1 turn.2 member

variable {p : Permutation E} {ix : Index E C} {l : List C}
variable [LawfulElements C] [PartialEquivBEq C]

theorem Files.shared (h : Files p ix l) (call : Call C) :
    call.shared.result ix = call.answer p l ∧
      Files p (call.shared.after ix) (call.onList p l) := by
  obtain ⟨ix', outcome, filed⟩ := h.step call
  rw [← call.outcome_shared] at outcome
  rw [Action.result_of_outcome outcome, Action.after_of_outcome outcome]
  exact ⟨rfl, filed⟩

omit [DecidableEq ι] in
theorem Files.play (h : Files p ix l) (turns : List (ι × Call C)) :
    Files p (ix.play turns).2 ((turns.map Prod.snd).foldl (Call.onList p) l) := by
  induction turns generalizing ix l with
  | nil => exact h
  | cons turn rest ih => exact ih (h.shared turn.2).2

/-- A party is answered as if the index had the entries only that it calls on. -/
theorem Files.partOf_play (h : Files p ix l) (alike : ∀ a b, (a == b) = true → q a = q b)
    (own : ∀ m call, (m, call) ∈ turns → q call.entry = decide (m = n)) :
    partOf n (ix.play turns).1 = answersOn p (l.filter q) (partOf n turns) := by
  induction turns generalizing ix l with
  | nil => rfl
  | cons turn rest ih =>
    obtain ⟨m, call⟩ := turn
    obtain ⟨answer, filed⟩ := h.shared call
    have first := own m call List.mem_cons_self
    have later := ih filed fun m call member => own m call (List.mem_cons_of_mem _ member)
    rw [call.filter_onList alike, first] at later
    rw [Index.play, partOf_cons, partOf_cons, answer]
    -- A turn of another party leaves the entries of this one as they are.
    by_cases same : m = n
    · rw [decide_eq_true same] at first later
      rw [if_pos same, if_pos same, answersOn, Call.answer_part alike first, later]
      rfl
    · rw [decide_eq_false same] at later
      rw [if_neg same, if_neg same, later]
      rfl

end Play

section Independent

variable {k : Nat} {sequences : Fin k → List (Call C)} {turns : List (Fin k × Call C)}

theorem mentions_iff {calls : List (Call C)} {e : C} : mentions calls e = true ↔
    ∃ call ∈ calls, call.entry = e ∨ (call.entry == e) = true := by
  simp [mentions]

theorem mentions_iff_mem [LawfulBEq C] {calls : List (Call C)} {e : C} :
    mentions calls e = true ↔ e ∈ calls.map Call.entry := by
  simp [mentions_iff]

theorem mentions_congr [PartialEquivBEq C] {calls : List (Call C)} {a b : C}
    (same : (a == b) = true) : mentions calls a = mentions calls b := by
  have onward {a b : C} (same : (a == b) = true) (mentioned : mentions calls a = true) :
      mentions calls b = true := by
    obtain ⟨call, member, rfl | alike⟩ := mentions_iff.mp mentioned
    · exact mentions_iff.mpr ⟨call, member, .inr same⟩
    · exact mentions_iff.mpr ⟨call, member, .inr (PartialEquivBEq.trans alike same)⟩
  exact Bool.eq_iff_iff.mpr ⟨onward same, onward (BEq.symm same)⟩

/-- Whether an entry is mentioned by one writer, or by none. -/
noncomputable def kind (sequences : Fin k → List (Call C)) : Option (Fin k) → C → Bool
  | some n => mentions (sequences n)
  | none => fun e => (List.finRange k).all fun n => !mentions (sequences n) e

theorem exists_kind (sequences : Fin k → List (Call C)) (e : C) :
    ∃ κ, kind sequences κ e = true := by
  by_cases unknown : kind sequences none e = true
  · exact ⟨none, unknown⟩
  · rw [kind, List.all_eq_true] at unknown
    push Not at unknown
    obtain ⟨n, _, mentioned⟩ := unknown
    have own : mentions (sequences n) e = true := by simpa using mentioned
    exact ⟨some n, own⟩

theorem kind_congr [PartialEquivBEq C] (κ : Option (Fin k)) (a b : C) (same : (a == b) = true) :
    kind sequences κ a = kind sequences κ b := by
  cases κ with
  | some n => exact mentions_congr same
  | none => simp only [kind, mentions_congr same]

/-- No entry is mentioned by two writers. -/
def Independent (sequences : Fin k → List (Call C)) : Prop :=
  ∀ m n e, mentions (sequences m) e = true → mentions (sequences n) e = true → m = n

/-- Each turn is on an entry of the writer whose turn it is. -/
theorem Independent.mentions_turn (apart : Independent sequences)
    (interleaved : ∀ n, partOf n turns = sequences n) (n : Fin k) {m : Fin k} {call : Call C}
    (member : (m, call) ∈ turns) : mentions (sequences n) call.entry = decide (m = n) := by
  have own : mentions (sequences m) call.entry = true :=
    mentions_iff.mpr ⟨call, interleaved m ▸ mem_partOf.mpr member, .inl rfl⟩
  by_cases same : m = n
  · rw [decide_eq_true same, ← same, own]
  · rw [decide_eq_false same, Bool.eq_false_iff]
    exact fun other => same (apart m n call.entry own other)

variable [PartialEquivBEq C] {p : Permutation E} {l : List C}

/-- What writers make of the entries of one kind does not depend on how they take turns. -/
theorem Independent.filter_kind (apart : Independent sequences)
    (interleaved : ∀ n, partOf n turns = sequences n) (κ : Option (Fin k)) :
    ((turns.map Prod.snd).foldl (Call.onList p) l).filter (kind sequences κ) =
      (κ.elim [] sequences).foldl (Call.onList p) (l.filter (kind sequences κ)) := by
  rw [filter_foldl_onList (kind_congr κ)]
  congr 1
  cases κ with
  | some n =>
    rw [Option.elim, ← interleaved n]
    exact filter_calls fun _ _ => apart.mentions_turn interleaved n
  | none =>
    rw [Option.elim, List.filter_eq_nil_iff]
    intro call called none
    obtain ⟨⟨m, _⟩, member, rfl⟩ := List.mem_map.mp called
    have own := apart.mentions_turn interleaved m member
    rw [kind, List.all_eq_true] at none
    simpa [own] using none m (List.mem_finRange m)

end Independent

section Regrouped

variable {k : Nat}

/-- Entries as a query finds them, up to their order within buckets. -/
def arranged (p : Permutation E) (found : List C) : List BitSet × Multiset C :=
  (found.map p.key, found)

/-- Two indices with the same entries, filed by the same bit sets, that differ at most in the order
of entries within a bucket. -/
structure Regrouped (p : Permutation E) (sequences : Fin k → List (Call C)) (ix ix' : Index E C) :
    Prop where
  entries : ix.entries.Perm ix'.entries
  size : ix.size = ix'.size
  total : ix.total = ix'.total
  sets : ix.sets.toList = ix'.sets.toList
  /-- In each bucket the entries of one writer keep their order, and so do those of none. -/
  order : ∀ (κ : Option (Fin k)) (b : BitSet),
    (ix.buckets[b]?.getD []).filter (kind sequences κ) =
      (ix'.buckets[b]?.getD []).filter (kind sequences κ)
  find : ∀ {Q : Type} [HasElements Q E] (d : Containment) (query : Q),
    (ix.find d query).result.map (arranged p) = (ix'.find d query).result.map (arranged p)
  count : ∀ {Q : Type} [HasElements Q E] (d : Containment) (query : Q),
    (ix.count d query).result = (ix'.count d query).result

variable {p : Permutation E} {ix ix' : Index E C} {l m : List C}

theorem Files.find_of_perm (h : Files p ix l) (h' : Files p ix' m) (perm : l.Perm m) {Q : Type}
    [HasElements Q E] (d : Containment) (query : Q) :
    (ix.find d query).result.map (arranged p) = (ix'.find d query).result.map (arranged p) := by
  have entries := h.entries_of_perm h' perm
  by_cases inside : p.Spans (elements query)
  · have found := entries.filter fun e => decide (d.Relates (elements query) (elements e))
    have keys := map_eq_of_sorted_of_perm (h.pairwise_entries.filter _)
      (h'.pairwise_entries.filter _) found
    rw [h.result_find d inside, h'.result_find d inside]
    exact congrArg Except.ok (Prod.ext keys (Multiset.coe_eq_coe.mpr found))
  · rw [h.result_find_error d inside, h'.result_find_error d inside]

variable {sequences : Fin k → List (Call C)}

theorem Files.regrouped (h : Files p ix l) (h' : Files p ix' m)
    (same : ∀ κ, l.filter (kind sequences κ) = m.filter (kind sequences κ)) :
    Regrouped p sequences ix ix' := by
  have perm : l.Perm m := perm_of_filter_eq (exists_kind sequences) same
  have sets := h.sets_of_perm h'.toHolds perm
  exact {
    entries := h.entries_of_perm h' perm
    size := congrArg Std.ExtTreeSet.size sets
    total := by rw [h.total, h'.total, perm.length_eq]
    sets := congrArg Std.ExtTreeSet.toList sets
    order := by
      intro κ b
      rw [h.getD_bucket, h'.getD_bucket, bucketOf, bucketOf, List.filter_comm, same κ,
        List.filter_comm]
    find := h.find_of_perm h' perm
    count := h.count_of_perm (.refl _) h' perm }

/-- Writers without an entry in common are answered as if they came one after another, however they
take turns, and leave the same index but for the order of their entries within buckets. -/
theorem play_interleaved [LawfulElements C] [PartialEquivBEq C] (made : ix.Made p)
    (sequences : Fin k → List (Call C)) (independent : Independent sequences)
    (turns : List (Fin k × Call C)) (interleaved : ∀ n, partOf n turns = sequences n) :
    (∀ n, partOf n (ix.play turns).1 = partOf n (ix.play (oneByOne sequences)).1) ∧
    Regrouped p sequences (ix.play turns).2 (ix.play (oneByOne sequences)).2 := by
  obtain ⟨calls, rfl⟩ := made
  have filed := files_run p calls
  have ordered := partOf_oneByOne sequences
  constructor
  · intro n
    have answers {turns : List (Fin k × Call C)}
        (interleaved : ∀ n, partOf n turns = sequences n) :=
      filed.partOf_play (kind_congr (some n)) fun _ _ => independent.mentions_turn interleaved n
    rw [answers interleaved, answers ordered, interleaved, ordered]
  · apply (filed.play turns).regrouped (filed.play (oneByOne sequences))
    intro κ
    rw [independent.filter_kind interleaved, independent.filter_kind ordered]

/-- Two writers of arrangements of one set, by turns. -/
def trades : List (Fin 2 × Call (List Nat)) :=
  [(1, .insert [20, 10]), (0, .insert [10, 20]), (1, .erase [20, 10]), (0, .erase [10, 20]),
    (1, .insert [20, 10]), (0, .insert [40]), (0, .insert [10, 20]), (1, .insert [30, 20])]

/-- An index with one entry, which neither of the two writers mentions. -/
def prepared : Index Nat (List Nat) :=
  (Index.empty ⟨[30, 10, 20], by decide, by decide⟩).run [.insert [30]]

theorem independent_trades : Independent fun n => partOf n trades := by
  intro m n e
  rw [mentions_iff_mem, mentions_iff_mem]
  revert m n e
  decide

/-- A bucket is emptied and filled again between turns, and its entries change places. -/
theorem play_trades :
    prepared.Made prepared.permutation ∧ Independent (fun n => partOf n trades) ∧
    (prepared.play trades).2.entries = [[30], [30, 20], [20, 10], [10, 20]] ∧
    (prepared.play (oneByOne fun n => partOf n trades)).2.entries =
      [[30], [30, 20], [10, 20], [20, 10]] ∧
    ((prepared.play trades).2.find .supersets [10]).result = .ok [[20, 10], [10, 20]] ∧
    ((prepared.play (oneByOne fun n => partOf n trades)).2.find .supersets [10]).result =
      .ok [[10, 20], [20, 10]] ∧
    ((prepared.play trades).2.count .supersets [20]).result = .ok 3 ∧
    (∀ n, partOf n (prepared.play trades).1 =
      partOf n (prepared.play (oneByOne fun n => partOf n trades)).1) ∧
    Regrouped prepared.permutation (fun n => partOf n trades) (prepared.play trades).2
      (prepared.play (oneByOne fun n => partOf n trades)).2 := by
  refine ⟨⟨_, rfl⟩, independent_trades, ?_, ?_, ?_, ?_, ?_, ?_⟩
  · decide
  · decide
  · decide
  · decide
  · decide
  · exact play_interleaved ⟨_, rfl⟩ _ independent_trades trades fun _ => rfl

end Regrouped

end Index

end Repack
