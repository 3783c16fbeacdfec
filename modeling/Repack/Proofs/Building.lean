import Mathlib.Data.List.Induction
import Repack.Proofs.Entry

/-! Instances that are built call by call. A call that restricts a station replaces its domain, and
one that only adds a station leaves the domain that is kept for it. So the last call that restricts
a station decides on its channels, also when a later call adds the station again. -/
namespace Repack.Instance

/-- A call that changes an instance in one place. -/
inductive Change
  | addStation (s : Station)
  | restrict (s : Station) (d : Domain)
  | rename (name : String)

namespace Change

def apply (i : Instance) : Change → Instance
  | addStation s => i.addStation s
  | restrict s d => i.restrict s d
  | rename name => i.rename name

/-- Whether a call names a station. -/
def names (s : Station) : Change → Bool
  | addStation t | restrict t _ => s == t
  | rename _ => false

/-- The domain that a call gives a station. -/
def domain? (s : Station) : Change → Option Domain
  | restrict t d => if s = t then some d else none
  | addStation _ | rename _ => none

def name? : Change → Option String
  | rename name => some name
  | addStation _ | restrict _ _ => none

variable {i : Instance} {s : Station} {change : Change}

theorem mem_stations_apply : s ∈ (change.apply i).stations ↔
    s ∈ i.stations ∨ change.names s = true := by
  have inserted (t : Station) : s ∈ i.stations.insert t ↔ s ∈ i.stations ∨ (s == t) = true := by
    rw [Std.ExtTreeSet.mem_insert, Std.LawfulEqCmp.compare_eq_iff_eq, beq_iff_eq, or_comm, eq_comm]
  cases change with
  | addStation t => exact inserted t
  | restrict t d => exact inserted t
  | rename name => exact (or_iff_left Bool.false_ne_true).symm

theorem getElem?_domains_apply :
    (change.apply i).domains[s]? = (change.domain? s).or i.domains[s]? := by
  cases change with
  | addStation t => rfl
  | restrict t d =>
    simp only [apply, Instance.restrict, domain?, Std.ExtTreeMap.getElem?_insert,
      Std.LawfulEqCmp.compare_eq_iff_eq]
    by_cases here : s = t
    · simp [here]
    · simp [here, Ne.symm here]
  | rename name => rfl

theorem name_apply : (change.apply i).name = change.name?.or i.name := by
  cases change <;> rfl

end Change

theorem findSome?_reverse_concat {α β : Type} (f : α → Option β) (l : List α) (a : α) :
    (l ++ [a]).reverse.findSome? f = (f a).or (l.reverse.findSome? f) := by
  rw [List.reverse_append, List.findSome?_append, List.reverse_singleton, List.findSome?_singleton]

/-- An instance after some calls, the first one first. -/
def build (i : Instance) (changes : List Change) : Instance := changes.foldl Change.apply i

/-- The last call that names a station. -/
def lastNaming (s : Station) (changes : List Change) : Option Change :=
  changes.reverse.find? (·.names s)

/-- The last domain that a station is given. -/
def lastDomain (s : Station) (changes : List Change) : Option Domain :=
  changes.reverse.findSome? (·.domain? s)

def lastName (changes : List Change) : Option String := changes.reverse.findSome? Change.name?

variable {i : Instance} {s : Station} {changes : List Change} {d : Domain}

theorem build_concat (i : Instance) (changes : List Change) (change : Change) :
    i.build (changes ++ [change]) = change.apply (i.build changes) := by
  rw [build, List.foldl_append]
  rfl

theorem mem_stations_build : s ∈ (i.build changes).stations ↔
    s ∈ i.stations ∨ ∃ change ∈ changes, change.names s = true := by
  -- Later calls prevail, so here and below the induction adds calls at the end.
  induction changes using List.reverseRecOn with
  | nil => simp [build]
  | append_singleton changes last ih =>
    rw [build_concat, Change.mem_stations_apply, ih]
    simp only [List.mem_append, List.mem_singleton, or_and_right, exists_or, exists_eq_left,
      or_assoc]

theorem getElem?_domains_build (i : Instance) (s : Station) (changes : List Change) :
    (i.build changes).domains[s]? = (lastDomain s changes).or i.domains[s]? := by
  induction changes using List.reverseRecOn with
  | nil => rfl
  | append_singleton changes last ih =>
    rw [build_concat, Change.getElem?_domains_apply, ih, ← Option.or_assoc, lastDomain, lastDomain,
      findSome?_reverse_concat]

theorem name_build (i : Instance) (changes : List Change) :
    (i.build changes).name = (lastName changes).or i.name := by
  induction changes using List.reverseRecOn with
  | nil => rfl
  | append_singleton changes last ih =>
    rw [build_concat, Change.name_apply, ih, ← Option.or_assoc, lastName, lastName,
      findSome?_reverse_concat]

section Naming

theorem mem_of_lastNaming {change : Change} (last : lastNaming s changes = some change) :
    ∃ change ∈ changes, change.names s = true :=
  ⟨change, List.mem_reverse.mp (List.mem_of_find?_eq_some last), List.find?_some last⟩

theorem domain?_eq_none {change : Change} (unnamed : change.names s = false) :
    change.domain? s = none := by
  cases change with
  | addStation t => rfl
  | restrict t d => exact if_neg (by simpa [Change.names] using unnamed)
  | rename name => rfl

/-- No call for a station comes after the last one, and so no other domain. -/
theorem lastDomain_of_restrict (last : lastNaming s changes = some (.restrict s d)) :
    lastDomain s changes = some d := by
  obtain ⟨_, later, earlier, split, silent⟩ := List.find?_eq_some_iff_append.mp last
  refine List.findSome?_eq_some_iff.mpr ⟨later, .restrict s d, earlier, split, if_pos rfl, ?_⟩
  intro change member
  exact domain?_eq_none (by simpa using silent change member)

theorem lastDomain_of_unnamed (unnamed : lastNaming s changes = none) :
    lastDomain s changes = none := by
  refine List.findSome?_eq_none_iff.mpr fun change member => domain?_eq_none ?_
  simpa using List.find?_eq_none.mp unnamed change member

theorem admits_build_of_lastNaming {change : Change} (last : lastNaming s changes = some change)
    (c : Channel) : (i.build changes).admits s c = true ↔
      ∀ d, (lastDomain s changes).or i.domains[s]? = some d → c ∈ d := by
  rw [admits_iff, getElem?_domains_build]
  exact and_iff_right (mem_stations_build.mpr (.inr (mem_of_lastNaming last)))

theorem admits_build_of_restrict (last : lastNaming s changes = some (.restrict s d))
    (c : Channel) : (i.build changes).admits s c = true ↔ c ∈ d := by
  rw [admits_build_of_lastNaming last, lastDomain_of_restrict last]
  simp

end Naming

/-- What an instance is after some calls. If the last call for a station only added it, it may be
put on the channels of the domain that is left for it: the last one that calls gave it, or else the
one that was kept for it before. Without such a domain it may be put on any channel. -/
structure Builds (i : Instance) (changes : List Change) : Prop where
  mem_iff : ∀ s, s ∈ (i.build changes).stations ↔
    s ∈ i.stations ∨ ∃ change ∈ changes, change.names s = true
  restricted : ∀ s d, lastNaming s changes = some (.restrict s d) →
    ∀ c, (i.build changes).admits s c = true ↔ c ∈ d
  added : ∀ s, lastNaming s changes = some (.addStation s) →
    ∀ c, (i.build changes).admits s c = true ↔
      ∀ d, (lastDomain s changes).or i.domains[s]? = some d → c ∈ d
  unrestricted_iff : ∀ s, lastNaming s changes = some (.addStation s) →
    ((∀ c, (i.build changes).admits s c = true) ↔
      ∀ d, (lastDomain s changes).or i.domains[s]? = some d → ∀ c, c ∈ d)
  unnamed : ∀ s, lastNaming s changes = none → (i.build changes).domains[s]? = i.domains[s]?
  name : (i.build changes).name = (lastName changes).or i.name

/-- The last restriction of a station decides, whatever was added after it. -/
theorem build_exact (i : Instance) (changes : List Change) : i.Builds changes where
  mem_iff _ := mem_stations_build
  restricted _ _ := admits_build_of_restrict
  added _ := admits_build_of_lastNaming
  unrestricted_iff s last := by
    simp only [admits_build_of_lastNaming last]
    exact ⟨fun all d left c => all c d left, fun all c d left => all d left c⟩
  unnamed s none := by
    rw [getElem?_domains_build, lastDomain_of_unnamed none, Option.none_or]
  name := name_build i changes

/-- A station that is restricted to channel 14 and then added is not on channel 40. -/
theorem admits_leftover_domain :
    let changes : List Change := [.restrict 1 {14}, .addStation 1]
    lastNaming 1 changes = some (.addStation 1) ∧ (empty.build changes).admits 1 40 = false ∧
      ¬ ∀ c, (empty.build changes).admits 1 c = true := by
  intro changes
  have refused : (empty.build changes).admits 1 40 = false := by decide +kernel
  refine ⟨rfl, refused, fun all => ?_⟩
  rw [all 40] at refused
  cases refused

end Repack.Instance
