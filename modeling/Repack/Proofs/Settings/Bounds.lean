import Mathlib.Data.List.Induction
import Repack.Proofs.Journal.Outcome
import Repack.Proofs.Sequence
import Repack.Settings.Setting

/-! What the bounds of a setting keep out. A value below the least or above the greatest is refused,
whatever else the comparison leaves open, so a value between the bounds stays there as long as the
values given compare with both. One that compares with neither is taken, and lies between nothing.
-/
namespace Repack

/-- A comparison that gives the same answer from the other side. -/
class LawfulPartialCompare (α : Type) [PartialCompare α] : Prop where
  swap : ∀ a b : α, compare? b a = (compare? a b).map Ordering.swap

section Float
open Float.Model (UnpackedFloat)

theorem swap_compare_unpacked (a b : UnpackedFloat) :
    b.compare a = (a.compare b).map Ordering.swap := by
  have order (m n : Nat) (e f : Int) : (compare f e).then (compare n m) =
      ((compare e f).then (compare m n)).swap := by
    rw [Ordering.swap_then, ← Std.OrientedCmp.eq_swap, ← Std.OrientedCmp.eq_swap]
  cases a with
  | notANumber => cases b <;> rfl
  | infinity s =>
    cases b with
    | notANumber => cases s <;> rfl
    | infinity t | zero t | finite t => cases s <;> cases t <;> rfl
  | zero s =>
    cases b with
    | notANumber | zero => rfl
    | infinity t | finite t => cases t <;> rfl
  | finite s m e =>
    cases b with
    | notANumber => cases s <;> rfl
    | zero t => cases s <;> rfl
    | infinity t => cases s <;> cases t <;> rfl
    | finite t n f =>
      cases s <;> cases t
      · exact congrArg (fun o => some o.swap) (order m n e f)
      · rfl
      · rfl
      · exact congrArg some (order m n e f)

theorem compare?_float (a b : Float) :
    compare? a b = a.toModel.unpack.compare b.toModel.unpack := by
  have less (a b : Float) : a < b ↔ a.toModel.unpack.compare b.toModel.unpack = some .lt := by
    change decide ((a.toModel.unpack.compare b.toModel.unpack == some .lt) = true) = true ↔ _
    simp
  have equal : (a == b) = (a.toModel.unpack.compare b.toModel.unpack == some .eq) := rfl
  change (if a < b then _ else if a == b then _ else if b < a then _ else none) = _
  simp only [less, equal, swap_compare_unpacked a.toModel.unpack]
  cases a.toModel.unpack.compare b.toModel.unpack with
  | none => rfl
  | some o => cases o <;> rfl

instance : LawfulPartialCompare Float where
  swap _ _ := by rw [compare?_float, compare?_float, swap_compare_unpacked]

end Float

instance {α : Type} [Ord α] [Std.OrientedOrd α] : LawfulPartialCompare α where
  swap _ _ := congrArg some Std.OrientedCmp.eq_swap

section AtMost

variable {α : Type} [PartialCompare α]

def AtMost (a b : α) : Prop := compare? a b = some .lt ∨ compare? a b = some .eq

def Comparable (a b : α) : Prop := (compare? a b).isSome = true

instance (a b : α) : Decidable (AtMost a b) := inferInstanceAs (Decidable (_ ∨ _))

instance (a b : α) : Decidable (Comparable a b) := inferInstanceAs (Decidable (_ = true))

theorem atMost_iff [LawfulPartialCompare α] {a b : α} :
    AtMost a b ↔ precedes b a = false ∧ Comparable a b := by
  rw [AtMost, Comparable, precedes, LawfulPartialCompare.swap a b]
  cases compare? a b with
  | none => simp
  | some o => cases o <;> decide

end AtMost

namespace Setting

variable {α : Type} [PartialCompare α]

/-- Whether a value is neither below the bounds nor above them. -/
def admits (s : Setting α) (value : α) : Bool :=
  !(precedes value s.min || precedes s.max value)

/-- Whether a value lies between the bounds. -/
def Within (s : Setting α) (value : α) : Prop := AtMost s.min value ∧ AtMost value s.max

/-- Whether a value compares with both bounds. -/
def Measures (s : Setting α) (value : α) : Prop :=
  Comparable s.min value ∧ Comparable value s.max

instance (s : Setting α) (value : α) : Decidable (s.Within value) :=
  inferInstanceAs (Decidable (_ ∧ _))

instance (s : Setting α) (value : α) : Decidable (s.Measures value) :=
  inferInstanceAs (Decidable (_ ∧ _))

theorem within_iff [LawfulPartialCompare α] {s : Setting α} {value : α} :
    s.Within value ↔ s.admits value = true ∧ s.Measures value := by
  rw [Within, Measures, admits, atMost_iff, atMost_iff, Bool.not_eq_true', Bool.or_eq_false_iff,
    and_and_and_comm]

theorem outcome_assign (s : Setting α) (value : α) : (assign value).outcome s =
    if s.admits value then (.ok (), { s with value }) else (.error (.outOfBounds s.name), s) := by
  rw [assign, Action.outcome_bind_ok (Action.outcome_get s), admits]
  cases precedes value s.min || precedes s.max value with
  | true => rfl
  | false => rfl

theorem after_assign (s : Setting α) (value : α) :
    (assign value).after s = if s.admits value then { s with value } else s := by
  change ((assign value).outcome s).2 = _
  rw [outcome_assign]
  split <;> rfl

theorem admits_iff {s : Setting α} {value : α} : s.admits value = true ↔
    precedes value s.min = false ∧ precedes s.max value = false := by
  rw [admits, Bool.not_eq_true', Bool.or_eq_false_iff]

theorem result_assign_iff (s : Setting α) (value : α) :
    (assign value).result s = .ok () ↔ s.admits value = true := by
  change ((assign value).outcome s).1 = _ ↔ _
  rw [outcome_assign]
  cases s.admits value <;> simp

/-- A setting after some values were given to it, the first one first. -/
def assigned (s : Setting α) (values : List α) : Setting α :=
  values.foldl (fun s value => (assign value).after s) s

/-- The last of some values that is admitted. -/
def lastAdmitted? (s : Setting α) (values : List α) : Option α := values.reverse.find? s.admits

theorem assigned_concat (s : Setting α) (values : List α) (value : α) :
    s.assigned (values ++ [value]) = (assign value).after (s.assigned values) := by
  rw [assigned, List.foldl_append]
  rfl

/-- Only the value changes, and so what is admitted does not. -/
theorem assigned_eq (s : Setting α) (values : List α) :
    s.assigned values = { s with value := (s.lastAdmitted? values).getD s.value } := by
  -- Later values replace earlier ones, so the induction adds them at the end.
  induction values using List.reverseRecOn with
  | nil => rfl
  | append_singleton values value ih =>
    have same : (s.assigned values).admits value = s.admits value := by rw [ih]; rfl
    rw [assigned_concat, after_assign, same, ih, lastAdmitted?, lastAdmitted?, find?_reverse_concat]
    split <;> rfl

/-- What giving some values to a setting does, and what the next value would do. The bounds are of
use against values that compare with both: such a value is taken only if it lies between them. -/
structure Guards (s : Setting α) (values : List α) : Prop where
  name : (s.assigned values).name = s.name
  bounds : (s.assigned values).bounds = s.bounds
  value : (s.assigned values).value = (s.lastAdmitted? values).getD s.value
  succeeds_iff : ∀ v, (assign v).result (s.assigned values) = .ok () ↔
    precedes v s.min = false ∧ precedes s.max v = false
  taken : ∀ v, (assign v).result (s.assigned values) = .ok () →
    (assign v).after (s.assigned values) = { s.assigned values with value := v }
  refused : ∀ v, (assign v).result (s.assigned values) ≠ .ok () →
    (assign v).outcome (s.assigned values) = (.error (.outOfBounds s.name), s.assigned values)
  measured : ∀ v, s.Measures v →
    ((assign v).result (s.assigned values) = .ok () ↔ s.Within v)
  admitted : s.Within s.value → precedes (s.assigned values).value s.min = false ∧
    precedes s.max (s.assigned values).value = false
  within_iff : s.Within s.value →
    (s.Within (s.assigned values).value ↔ s.Measures (s.assigned values).value)
  stays : s.Within s.value → (∀ v ∈ values, s.Measures v) → s.Within (s.assigned values).value

theorem admits_assigned (s : Setting α) (values : List α) (v : α) :
    (s.assigned values).admits v = s.admits v := by
  rw [assigned_eq]
  rfl

theorem admits_value_assigned {s : Setting α} (start : s.admits s.value = true) (values : List α) :
    s.admits (s.assigned values).value = true := by
  rw [assigned_eq]
  cases last : s.lastAdmitted? values with
  | none => exact start
  | some v => exact List.find?_some last

/-- The value is the one at the start, or one of those given. -/
theorem value_assigned_mem (s : Setting α) (values : List α) :
    (s.assigned values).value ∈ s.value :: values := by
  rw [assigned_eq]
  cases last : s.lastAdmitted? values with
  | none => exact List.mem_cons_self
  | some v =>
    exact List.mem_cons_of_mem _ (List.mem_reverse.mp (List.mem_of_find?_eq_some last))

/-- However many values are given to a setting, none beyond its bounds is taken, and a refused one
changes nothing. -/
theorem guards_values [LawfulPartialCompare α] (s : Setting α) (values : List α) :
    s.Guards values where
  name := by rw [assigned_eq]
  bounds := by rw [assigned_eq]; rfl
  value := by rw [assigned_eq]
  succeeds_iff v := by rw [result_assign_iff, admits_assigned, admits_iff]
  taken v succeeded := by
    rw [after_assign, if_pos ((result_assign_iff _ v).mp succeeded)]
  refused v failed := by
    rw [outcome_assign, if_neg (mt (result_assign_iff _ v).mpr failed), assigned_eq]
  measured v measured := by
    rw [result_assign_iff, admits_assigned, Setting.within_iff, and_iff_left measured]
  admitted start := admits_iff.mp (admits_value_assigned (Setting.within_iff.mp start).1 values)
  within_iff start := by
    rw [Setting.within_iff, and_iff_right]
    exact admits_value_assigned (Setting.within_iff.mp start).1 values
  stays start measured := by
    have placed := Setting.within_iff.mp start
    apply Setting.within_iff.mpr ⟨admits_value_assigned placed.1 values, _⟩
    rcases List.mem_cons.mp (s.value_assigned_mem values) with same | given
    · rw [same]; exact placed.2
    · exact measured _ given

/-- A share of one, a half at the start. -/
def share : Setting Float := ⟨"share", 0, 1, 0.5⟩

/-- What is not a number. -/
def indefinite : Float := 0 / 0

/-- Of a quarter, two and what is not a number the quarter alone moves the share within its bounds,
and two is refused. -/
theorem guards_share : LawfulPartialCompare Float ∧ share.Guards [0.25, 2, indefinite] ∧
    share.Within (share.assigned [0.25, 2]).value ∧
    (assign 2).result (share.assigned [0.25]) = .error (.outOfBounds "share") := by
  refine ⟨inferInstance, guards_values share _, ?_, ?_⟩
  · decide +kernel
  · decide +kernel

/-- What is not a number is taken, though it is not between the bounds, and then the value is not
between them either. -/
theorem within_lost_to_indefinite : share.Within share.value ∧ ¬ share.Within indefinite ∧
    (assign indefinite).result share = .ok () ∧
    ¬ share.Within ((assign indefinite).after share).value := by
  decide +kernel

end Setting

end Repack
