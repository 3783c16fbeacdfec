import Repack.Settings.Preference

/-! Which of several candidates a preference selects, in terms of the list that they are filtered
from. -/
namespace Repack.Preference

variable {α : Type} {t : Preference} {measure : α → Nat} {l : List α}

/-- The first entry of a list that will do, or the first of those that measure least. -/
def Chooses (t : Preference) (measure : α → Nat) (P : α → Prop) (l : List α) (a : α) : Prop :=
  ∃ before after, l = before ++ a :: after ∧ P a ∧
    match t with
    | earliest => ∀ b ∈ before, ¬ P b
    | smallest =>
      (∀ b ∈ before, P b → measure a < measure b) ∧ ∀ b ∈ after, P b → measure a ≤ measure b

theorem Chooses.mem {P : α → Prop} {a : α} (h : t.Chooses measure P l a) : a ∈ l ∧ P a := by
  obtain ⟨before, after, rfl, does, _⟩ := h
  exact ⟨by simp, does⟩

theorem Chooses.least {P : α → Prop} {a : α} (h : smallest.Chooses measure P l a) {b : α}
    (member : b ∈ l) (does : P b) : measure a ≤ measure b := by
  obtain ⟨before, after, rfl, _, earlier, later⟩ := h
  rcases List.mem_append.mp member with inside | inside
  · exact Nat.le_of_lt (earlier b inside does)
  · rcases List.mem_cons.mp inside with rfl | inside
    · exact Nat.le_refl _
    · exact later b inside does

/-- Entries that will not do make no difference. -/
theorem Chooses.cons {P : α → Prop} {a x : α} (h : t.Chooses measure P l a) (skipped : ¬ P x) :
    t.Chooses measure P (x :: l) a := by
  obtain ⟨before, after, rfl, does, best⟩ := h
  refine ⟨x :: before, after, rfl, does, ?_⟩
  cases t with
  | earliest =>
    intro b member
    rcases List.mem_cons.mp member with rfl | member
    · exact skipped
    · exact best b member
  | smallest =>
    refine ⟨?_, best.2⟩
    intro b member held
    rcases List.mem_cons.mp member with rfl | member
    · exact absurd held skipped
    · exact best.1 b member held

/-- What is chosen is still chosen when others go. -/
theorem Chooses.filter {P : α → Prop} {a : α} (h : t.Chooses measure P l a) {q : α → Bool}
    (kept : q a = true) : t.Chooses measure P (l.filter q) a := by
  obtain ⟨before, after, rfl, does, best⟩ := h
  refine ⟨before.filter q, after.filter q, by simp [kept], does, ?_⟩
  cases t with
  | earliest => exact fun b member => best b ((List.mem_filter.mp member).1)
  | smallest =>
    exact ⟨fun b member => best.1 b ((List.mem_filter.mp member).1),
      fun b member => best.2 b ((List.mem_filter.mp member).1)⟩

theorem isSome_select_iff : (t.select measure l).isSome = true ↔ l ≠ [] := by
  cases t with
  | earliest => exact List.isSome_head?
  | smallest => exact List.isSome_minOn?_iff

theorem isSome_select_filter_iff {does : α → Bool} :
    (t.select measure (l.filter does)).isSome = true ↔ ∃ a ∈ l, does a = true := by
  rw [isSome_select_iff]
  constructor
  · intro some
    obtain ⟨a, member⟩ := List.exists_mem_of_ne_nil _ some
    exact ⟨a, List.mem_filter.mp member⟩
  · rintro ⟨a, member⟩
    exact List.ne_nil_of_mem (List.mem_filter.mpr member)

theorem chooses_of_select {does : α → Bool} {a : α}
    (selected : t.select measure (l.filter does) = some a) :
    t.Chooses measure (fun b => does b = true) l a := by
  induction l generalizing a with
  | nil => cases t <;> cases selected
  | cons x rest ih =>
    cases held : does x with
    | false =>
      rw [List.filter_cons_of_neg (by simp [held])] at selected
      exact (ih selected).cons (by simp [held])
    | true =>
      rw [List.filter_cons_of_pos held] at selected
      cases t with
      | earliest =>
        obtain rfl := Option.some.inj selected
        exact ⟨[], rest, rfl, held, by simp⟩
      | smallest =>
        rw [select, List.minOn?_cons, Option.some.injEq] at selected
        cases best : (rest.filter does).minOn? measure with
        | none =>
          rw [best] at selected
          obtain rfl : x = a := selected
          refine ⟨[], rest, rfl, held, by simp, ?_⟩
          intro b member held'
          have other : ((rest.filter does).minOn? measure).isSome = true :=
            List.isSome_minOn?_of_mem (List.mem_filter.mpr ⟨member, held'⟩)
          rw [best] at other
          cases other
        | some y =>
          have chosen := ih best
          rw [best] at selected
          change minOn measure x y = a at selected
          rw [minOn] at selected
          split at selected
          · next le =>
            obtain rfl := selected
            refine ⟨[], rest, rfl, held, by simp, ?_⟩
            intro b member held'
            exact Nat.le_trans le (chosen.least member held')
          · next lt =>
            obtain rfl := selected
            obtain ⟨before, after, rfl, does, earlier, later⟩ := chosen
            refine ⟨x :: before, after, rfl, does, ?_, later⟩
            intro b member held'
            rcases List.mem_cons.mp member with rfl | member
            · exact Nat.lt_of_not_le lt
            · exact earlier b member held'

theorem select_of_chooses {does : α → Bool} {a : α}
    (chosen : t.Chooses measure (fun b => does b = true) l a) :
    t.select measure (l.filter does) = some a := by
  obtain ⟨before, after, rfl, held, best⟩ := chosen
  rw [List.filter_append, List.filter_cons_of_pos held]
  cases t with
  | earliest =>
    rw [List.filter_eq_nil_iff.mpr best]
    rfl
  | smallest =>
    obtain ⟨earlier, later⟩ := best
    have first : ((after.filter does).minOn? measure).elim a (minOn measure a) = a := by
      cases found : (after.filter does).minOn? measure with
      | none => rfl
      | some b =>
        obtain ⟨member, does⟩ := List.mem_filter.mp (List.minOn?_mem found)
        exact minOn_eq_left (later b member does)
    rw [select, List.minOn?_append, List.minOn?_cons, first]
    cases found : (before.filter does).minOn? measure with
    | none => rfl
    | some b =>
      obtain ⟨member, does⟩ := List.mem_filter.mp (List.minOn?_mem found)
      exact congrArg some (minOn_eq_right (Nat.not_le_of_lt (earlier b member does)))

/-- Leaving one entry out changes what is selected only if this entry is. -/
theorem select_filter_ne [BEq α] [LawfulBEq α] (t : Preference) (measure : α → Nat) (l : List α)
    (does : α → Bool) (e : α) : t.select measure (l.filter does) = some e ∨
      t.select measure ((l.filter (· != e)).filter does) = t.select measure (l.filter does) := by
  cases selected : t.select measure (l.filter does) with
  | none =>
    right
    have unmet : ¬ ∃ a ∈ l, does a = true := by
      intro met
      have found : (t.select measure (l.filter does)).isSome = true :=
        isSome_select_filter_iff.mpr met
      rw [selected] at found
      cases found
    rw [← Option.not_isSome_iff_eq_none, isSome_select_filter_iff]
    rintro ⟨a, member, held⟩
    exact unmet ⟨a, (List.mem_filter.mp member).1, held⟩
  | some a =>
    by_cases same : a = e
    · exact Or.inl (congrArg some same)
    · exact Or.inr (select_of_chooses ((chooses_of_select selected).filter (bne_iff_ne.mpr same)))

end Repack.Preference
