import Mathlib.Algebra.Order.Floor.Div
import Repack.Proofs.BitSet.Relations
import Repack.Proofs.BitSet.Walk
import Repack.Proofs.Sequence

/-! Bit sets that are changed bit by bit. Whatever the history of a set is, it holds the positions
whose last change set them, and nothing else: no other bit is stored, and so two sets of one width
are equal as soon as they hold the same positions. A change beyond the width is refused, and is as
if it had not been asked for. -/
namespace Repack.BitSet

/-- A call that changes one bit. -/
inductive Change
  | set (p : Nat)
  | clear (p : Nat)
  deriving DecidableEq, Repr

namespace Change

def position : Change → Nat
  | set p | clear p => p

/-- What the bit is made to be. -/
def value : Change → Bool
  | set _ => true
  | clear _ => false

def apply (b : BitSet) : Change → Except BeyondWidth BitSet
  | set p => b.set p
  | clear p => b.clear p

/-- The set after a call. One that is refused leaves it as it was. -/
def after (b : BitSet) (change : Change) : BitSet := (change.apply b).toOption.getD b

variable {b : BitSet} {change : Change}

/-- A call within the width is accepted, and makes the one bit what it says. -/
theorem exists_apply (inside : change.position < b.width) : ∃ c, change.apply b = .ok c ∧
    c.width = b.width ∧
      ∀ q, c.contains q = if change.position = q then change.value else b.contains q := by
  cases change with
  | set p => exact ⟨b.insert p inside, dif_pos inside, rfl, contains_insert b p inside⟩
  | clear p => exact ⟨b.erase p inside, dif_pos inside, rfl, contains_erase b p inside⟩

theorem apply_of_le (beyond : b.width ≤ change.position) :
    change.apply b = .error ⟨change.position, b.width⟩ := by
  cases change <;> exact dif_neg (Nat.not_lt.mpr beyond)

theorem after_of_ok {c : BitSet} (accepted : change.apply b = .ok c) : change.after b = c := by
  rw [after, accepted]
  rfl

theorem after_of_le (beyond : b.width ≤ change.position) : change.after b = b := by
  rw [after, apply_of_le beyond]
  rfl

theorem apply_of_lt (inside : change.position < b.width) :
    change.apply b = .ok (change.after b) := by
  obtain ⟨c, accepted, _⟩ := exists_apply inside
  rw [after_of_ok accepted, accepted]

@[simp] theorem width_after (b : BitSet) (change : Change) :
    (change.after b).width = b.width := by
  rcases Nat.lt_or_ge change.position b.width with inside | beyond
  · obtain ⟨c, accepted, same, _⟩ := exists_apply inside
    rw [after_of_ok accepted, same]
  · rw [after_of_le beyond]

theorem contains_after (inside : change.position < b.width) (q : Nat) :
    (change.after b).contains q =
      if change.position = q then change.value else b.contains q := by
  obtain ⟨c, accepted, _, held⟩ := exists_apply inside
  rw [after_of_ok accepted, held]

end Change

/-- A bit set after some calls, the first one first. -/
def replay (b : BitSet) (changes : List Change) : BitSet := changes.foldl Change.after b

/-- The last call for a position. -/
def last? (p : Nat) (changes : List Change) : Option Change :=
  changes.reverse.find? (·.position = p)

section Replay

variable {b : BitSet} {p w : Nat} {changes : List Change}

theorem replay_concat (b : BitSet) (changes : List Change) (change : Change) :
    b.replay (changes ++ [change]) = change.after (b.replay changes) := by
  rw [replay, List.foldl_append]
  rfl

theorem last?_concat (p : Nat) (changes : List Change) (change : Change) :
    last? p (changes ++ [change]) =
      if change.position = p then some change else last? p changes := by
  simp only [last?, find?_reverse_concat, decide_eq_true_iff]

@[simp] theorem width_replay (b : BitSet) (changes : List Change) :
    (b.replay changes).width = b.width := by
  induction changes using List.reverseRecOn with
  | nil => rfl
  | append_singleton changes change ih => rw [replay_concat, Change.width_after, ih]

theorem contains_replay (inside : p < b.width) : (b.replay changes).contains p =
    ((last? p changes).map Change.value).getD (b.contains p) := by
  -- Later calls prevail, so the induction adds calls at the end.
  induction changes using List.reverseRecOn with
  | nil => rfl
  | append_singleton changes change ih =>
    rw [replay_concat, last?_concat]
    rcases Nat.lt_or_ge change.position b.width with within | beyond
    · rw [Change.contains_after (by rwa [width_replay]), ih]
      by_cases here : change.position = p <;> simp [here]
    · rw [Change.after_of_le (by rwa [width_replay]), ih, if_neg (by omega)]

theorem value_of_last? {change : Change} (last : last? p changes = some change) :
    change.value = true ↔ change = .set p := by
  have here : change.position = p := by simpa using List.find?_some last
  subst here
  cases change <;> simp [Change.value, Change.position]

theorem contains_replay_empty : ((empty w).replay changes).contains p = true ↔
    p < w ∧ last? p changes = some (.set p) := by
  rcases Nat.lt_or_ge p w with inside | beyond
  · rw [contains_replay inside, contains_empty, and_iff_right inside]
    cases last : last? p changes with
    | none => simp
    | some change => simpa using value_of_last? last
  · rw [contains_eq_false_of_le (by rwa [width_replay])]
    simp [Nat.not_lt.mpr beyond]

/-- Calls within the width are all accepted. -/
theorem foldlM_apply (inside : ∀ change ∈ changes, change.position < b.width) :
    changes.foldlM Change.apply b = .ok (b.replay changes) := by
  induction changes generalizing b with
  | nil => rfl
  | cons change rest ih =>
    obtain ⟨first, others⟩ := List.forall_mem_cons.mp inside
    rw [List.foldlM_cons, Change.apply_of_lt first]
    exact ih fun later member => (Change.width_after b change).symm ▸ others later member

end Replay

theorem isEmpty_iff {b : BitSet} : b.isEmpty = true ↔ ∀ p, b.contains p = false := by
  constructor
  · intro zero p
    rw [isEmpty, List.all_eq_true] at zero
    rw [contains, Word.bitAt]
    split
    · next word there =>
      rw [beq_iff_eq.mp (zero word (List.mem_of_getElem? there)), Word.bit_zero]
    · rfl
  · intro none
    have same : b = empty b.width := ext_contains rfl fun p => by rw [none, contains_empty]
    rw [same, isEmpty, empty, List.all_replicate]
    simp

/-- What calls on the empty set of a width leave: the positions that were set last, in words of
which no other bit is set, listed in ascending order and one by one. -/
structure Leaves (w : Nat) (changes : List Change) (b : BitSet) : Prop where
  width : b.width = w
  contains_iff : ∀ p, b.contains p = true ↔ p < w ∧ last? p changes = some (.set p)
  length_words : b.words.length = w ⌈/⌉ 64
  unstored : ∀ p, w ≤ p → Word.bitAt b.words p = false
  ascending : b.ones.Pairwise (· < ·)
  mem_ones : ∀ p, p ∈ b.ones ↔ b.contains p = true
  walk : ∀ l, b.start.Gives l ↔ l = b.ones
  count : b.count = {p | b.contains p = true}.ncard
  isEmpty_iff : b.isEmpty = true ↔ ∀ p, b.contains p = false
  eq_iff : ∀ (v : Nat) (others : List Change), b = (empty v).replay others ↔ w = v ∧ ∀ p < w,
    (last? p changes = some (.set p) ↔ last? p others = some (.set p))
  accepted : (∀ change ∈ changes, change.position < w) →
    changes.foldlM Change.apply (empty w) = .ok b
  applies : ∀ change : Change, change.position < w →
    change.apply b = .ok ((empty w).replay (changes ++ [change]))
  refuses : ∀ change : Change, w ≤ change.position → change.apply b = .error ⟨change.position, w⟩ ∧
    (empty w).replay (changes ++ [change]) = b

/-- A bit set is the set of the positions that were set last. -/
theorem replay_exact (w : Nat) (changes : List Change) :
    Leaves w changes ((empty w).replay changes) where
  width := width_replay _ _
  contains_iff _ := contains_replay_empty
  length_words := by
    rw [BitSet.length_words, width_replay, Nat.ceilDiv_eq_add_pred_div]
    rfl
  unstored p beyond := contains_eq_false_of_le (by rwa [width_replay])
  ascending := pairwise_ones _
  mem_ones _ := BitSet.mem_ones
  walk _ := gives_start_iff
  count := count_eq_ncard _
  isEmpty_iff := BitSet.isEmpty_iff
  eq_iff v others := by
    constructor
    · intro same
      have widths : w = v := by simpa using congrArg BitSet.width same
      refine ⟨widths, fun p inside => ?_⟩
      have held : ((empty w).replay changes).contains p = true ↔
          p < w ∧ last? p changes = some (.set p) := contains_replay_empty
      rw [same, contains_replay_empty, and_iff_right (widths ▸ inside),
        and_iff_right inside] at held
      exact held.symm
    · rintro ⟨rfl, same⟩
      apply ext_contains (by simp)
      intro p
      rw [Bool.eq_iff_iff, contains_replay_empty, contains_replay_empty]
      exact and_congr_right (same p)
  accepted inside := foldlM_apply inside
  applies change inside := by
    rw [replay_concat]
    exact Change.apply_of_lt (by rwa [width_replay])
  refuses change beyond := by
    have outside : ((empty w).replay changes).width ≤ change.position := by rwa [width_replay]
    rw [replay_concat, Change.after_of_le outside, Change.apply_of_le outside, width_replay]
    exact ⟨rfl, rfl⟩

/-- Setting bits across the boundary of two words and clearing one of them again. -/
example : ((empty 70).replay [.set 69, .set 3, .set 64, .set 70, .clear 3]).words =
    ((empty 70).replay [.set 64, .clear 64, .set 69, .set 64]).words := by
  decide

end Repack.BitSet
