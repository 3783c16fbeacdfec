import Mathlib.Data.List.Induction
import Repack.Proofs.Entry

/-! Assignments and their listings by channel. Nothing is lost in a listing, and it has neither a
channel without stations nor a station on two channels. Any other listing, read as an assignment,
leaves each station on the highest channel that it is listed for. -/
namespace Repack

/-- Of pairs in ascending order of their channels, the last one for a station has the highest. -/
theorem getElem?_ofList_eq_some_iff {pairs : List (Station × Channel)}
    (ascending : pairs.Pairwise fun x y => x.2 ≤ y.2) {s : Station} {c : Channel} :
    (Std.ExtTreeMap.ofList pairs compare)[s]? = some c ↔
      (s, c) ∈ pairs ∧ ∀ d, (s, d) ∈ pairs → d ≤ c := by
  -- A later pair replaces an earlier one, so the induction adds pairs at the end.
  induction pairs using List.reverseRecOn with
  | nil => simp
  | append_singleton pairs last ih =>
    obtain ⟨t, e⟩ := last
    obtain ⟨ascending, _, below⟩ := List.pairwise_append.mp ascending
    replace ih := ih ascending
    rw [Std.ExtTreeMap.ofList_eq_foldl] at ih
    rw [Std.ExtTreeMap.ofList_eq_foldl, List.foldl_append, List.foldl_cons, List.foldl_nil,
      Std.ExtTreeMap.getElem?_insert]
    by_cases here : t = s
    · subst here
      rw [if_pos Std.ReflCmp.compare_self, Option.some.injEq]
      have lower (d : Channel) (member : (t, d) ∈ pairs) : d ≤ e :=
        below _ member _ List.mem_cons_self
      constructor
      · rintro rfl
        refine ⟨by simp, fun d member => ?_⟩
        obtain earlier | same := List.mem_append.mp member
        · exact lower d earlier
        · cases List.mem_singleton.mp same
          exact UInt16.le_refl _
      · rintro ⟨member, highest⟩
        obtain earlier | same := List.mem_append.mp member
        · exact UInt16.le_antisymm (highest e (by simp)) (lower c earlier)
        · cases List.mem_singleton.mp same
          rfl
    · have other (d : Channel) : (s, d) ∈ pairs ++ [(t, e)] ↔ (s, d) ∈ pairs := by
        simp [Ne.symm here]
      rw [if_neg (by simpa [Std.LawfulEqCmp.compare_eq_iff_eq] using here), ih]
      simp only [other]

namespace Occupancy

/-- Whether a station is listed for a channel. -/
def Lists (o : Occupancy) (s : Station) (c : Channel) : Prop :=
  ∃ stations, o[c]? = some stations ∧ s ∈ stations

/-- Whether every channel of a listing has stations. -/
def Inhabited (o : Occupancy) : Prop := ∀ c ∈ o, ∃ s, o.Lists s c

/-- Whether no station is listed for two channels. -/
def Disjoint (o : Occupancy) : Prop := ∀ s c d, o.Lists s c → o.Lists s d → c = d

/-- Whether a station is listed for a channel, and for none above it. -/
def Tops (o : Occupancy) (s : Station) (c : Channel) : Prop :=
  o.Lists s c ∧ ∀ d, o.Lists s d → d ≤ c

/-- Whether a station is listed for a channel above another one. -/
def above (o : Occupancy) (s : Station) (c : Channel) : Bool :=
  o.toList.any fun (d, stations) => stations.contains s && c < d

/-- The stations of a channel that are listed for no channel above it. -/
def kept (o : Occupancy) (c : Channel) (stations : Std.ExtTreeSet Station) :
    Std.ExtTreeSet Station :=
  stations.filter fun s => !o.above s c

/-- The listing in which each station is kept on its highest channel only, and the channels emptied
are dropped. -/
def thinned (o : Occupancy) : Occupancy :=
  o.filterMap fun c stations =>
    if (o.kept c stations).isEmpty then none else some (o.kept c stations)

variable {o o' : Occupancy} {stations : Std.ExtTreeSet Station} {s : Station} {c : Channel}

theorem lists_iff (held : o[c]? = some stations) : o.Lists s c ↔ s ∈ stations := by
  rw [Lists, held]
  simp

theorem not_lists (free : o[c]? = none) : ¬ o.Lists s c := by
  rintro ⟨stations, held, _⟩
  rw [free] at held
  cases held

theorem Inhabited.exists_mem (inhabited : o.Inhabited) (held : o[c]? = some stations) :
    ∃ s, o.Lists s c :=
  inhabited c (Std.ExtTreeMap.mem_iff_isSome_getElem?.mpr (by rw [held]; rfl))

/-- Listings without empty channels are equal as soon as they list the same stations. -/
theorem eq_of_lists (inhabited : o.Inhabited) (inhabited' : o'.Inhabited)
    (same : ∀ s c, o.Lists s c ↔ o'.Lists s c) : o = o' := by
  apply Std.ExtTreeMap.ext_getElem?
  intro c
  cases held : o[c]? with
  | none =>
    cases held' : o'[c]? with
    | none => rfl
    | some stations' =>
      obtain ⟨s, listed⟩ := inhabited'.exists_mem held'
      exact absurd ((same s c).mpr listed) (not_lists held)
  | some stations =>
    cases held' : o'[c]? with
    | none =>
      obtain ⟨s, listed⟩ := inhabited.exists_mem held
      exact absurd ((same s c).mp listed) (not_lists held')
    | some stations' =>
      refine congrArg some (Std.ExtTreeSet.ext_mem fun s => ?_)
      rw [← lists_iff held, ← lists_iff held', same]

section Listing

variable {t : Station} {d : Channel}

theorem lists_place : (o.place t d).Lists s c ↔ (s, c) = (t, d) ∨ o.Lists s c := by
  have here : (o.place t d)[d]? = some ((o[d]?.getD ∅).insert t) := by simp [place]
  by_cases same : c = d
  · subst same
    rw [lists_iff here, Std.ExtTreeSet.mem_insert, Std.LawfulEqCmp.compare_eq_iff_eq, Prod.mk.injEq,
      and_iff_left rfl, eq_comm]
    apply or_congr_right
    cases held : o[c]? with
    | none => simp [not_lists held]
    | some stations => rw [Option.getD_some, lists_iff held]
  · have elsewhere : (o.place t d)[c]? = o[c]? := by
      rw [place, Std.ExtTreeMap.getElem?_insert,
        if_neg (by simpa [Std.LawfulEqCmp.compare_eq_iff_eq] using Ne.symm same)]
    rw [Lists, elsewhere, Prod.mk.injEq, or_iff_right fun both => same both.2, Lists]

theorem Inhabited.place (inhabited : o.Inhabited) : (o.place t d).Inhabited := by
  intro c member
  rw [Occupancy.place, Std.ExtTreeMap.mem_insert, Std.LawfulEqCmp.compare_eq_iff_eq] at member
  obtain rfl | before := member
  · exact ⟨t, lists_place.mpr (.inl rfl)⟩
  · obtain ⟨s, listed⟩ := inhabited c before
    exact ⟨s, lists_place.mpr (.inr listed)⟩

theorem lists_foldl_place (pairs : List (Station × Channel)) :
    (pairs.foldl (fun o (s, c) => o.place s c) o).Lists s c ↔ (s, c) ∈ pairs ∨ o.Lists s c := by
  induction pairs generalizing o with
  | nil => simp
  | cons pair rest ih =>
    rw [List.foldl_cons, ih, lists_place, List.mem_cons, or_left_comm, or_assoc]

theorem Inhabited.foldl_place (inhabited : o.Inhabited) (pairs : List (Station × Channel)) :
    (pairs.foldl (fun o (s, c) => o.place s c) o).Inhabited := by
  induction pairs generalizing o with
  | nil => exact inhabited
  | cons pair rest ih => exact ih inhabited.place

theorem inhabited_empty : (∅ : Occupancy).Inhabited := by
  intro c member
  simp at member

end Listing

theorem lists_occupancy (a : Assignment) : a.occupancy.Lists s c ↔ a[s]? = some c := by
  rw [Assignment.occupancy, lists_foldl_place, Std.ExtTreeMap.mem_toList_iff_getElem?_eq_some]
  exact or_iff_left (not_lists (by simp))

theorem inhabited_occupancy (a : Assignment) : a.occupancy.Inhabited :=
  inhabited_empty.foldl_place a.toList

theorem disjoint_occupancy (a : Assignment) : a.occupancy.Disjoint := by
  intro s c d first second
  rw [lists_occupancy] at first second
  exact Option.some.inj (first.symm.trans second)

section Reading

/-- The pairs of a listing, channel by channel. -/
def pairs (o : Occupancy) : List (Station × Channel) :=
  o.toList.flatMap fun (c, stations) => stations.toList.map fun s => (s, c)

theorem assignment_eq (o : Occupancy) : o.assignment = .ofList o.pairs compare := rfl

theorem mem_pairs : (s, c) ∈ o.pairs ↔ o.Lists s c := by
  simp only [pairs, List.mem_flatMap, List.mem_map, Prod.exists,
    Std.ExtTreeMap.mem_toList_iff_getElem?_eq_some, Std.ExtTreeSet.mem_toList, Lists]
  constructor
  · rintro ⟨d, stations, held, t, member, same⟩
    cases same
    exact ⟨stations, held, member⟩
  · rintro ⟨stations, held, member⟩
    exact ⟨c, stations, held, s, member, rfl⟩

theorem pairwise_pairs (o : Occupancy) : o.pairs.Pairwise fun x y => x.2 ≤ y.2 := by
  rw [pairs, List.pairwise_flatMap]
  constructor
  · rintro ⟨c, stations⟩ _
    rw [List.pairwise_map]
    exact List.pairwise_of_forall fun _ _ => UInt16.le_refl c
  · refine Std.ExtTreeMap.ordered_keys_toList.imp ?_
    rintro ⟨c, _⟩ ⟨d, _⟩ less x first y second
    obtain ⟨s, _, rfl⟩ := List.mem_map.mp first
    obtain ⟨t, _, rfl⟩ := List.mem_map.mp second
    exact UInt16.le_of_lt (Std.compare_eq_lt.mp less)

theorem getElem?_assignment : o.assignment[s]? = some c ↔ o.Tops s c := by
  rw [assignment_eq, getElem?_ofList_eq_some_iff o.pairwise_pairs]
  simp only [mem_pairs, Tops]

theorem mem_assignment : s ∈ o.assignment ↔ ∃ c, o.Lists s c := by
  rw [assignment_eq, Std.ExtTreeMap.mem_ofList, List.contains_iff_mem, List.mem_map]
  simp only [Prod.exists, mem_pairs, exists_and_right, exists_eq_right]

end Reading

section Thinning

theorem above_eq_false_iff : o.above s c = false ↔ ∀ d, o.Lists s d → d ≤ c := by
  simp only [above, List.any_eq_false, Prod.forall, Std.ExtTreeMap.mem_toList_iff_getElem?_eq_some,
    Bool.and_eq_true, Std.ExtTreeSet.contains_iff_mem, decide_eq_true_eq, not_and, UInt16.not_lt]
  exact ⟨fun each d ⟨stations, held, member⟩ => each d stations held member,
    fun each d stations held member => each d ⟨stations, held, member⟩⟩

theorem mem_kept : s ∈ o.kept c stations ↔ s ∈ stations ∧ ∀ d, o.Lists s d → d ≤ c := by
  simp [kept, Std.ExtTreeSet.mem_filter, above_eq_false_iff]

theorem getElem?_thinned (o : Occupancy) (c : Channel) : o.thinned[c]? = o[c]?.bind fun stations =>
    if (o.kept c stations).isEmpty then none else some (o.kept c stations) :=
  Std.ExtTreeMap.getElem?_filterMap'

theorem lists_thinned : o.thinned.Lists s c ↔ o.Tops s c := by
  have read := getElem?_thinned o c
  cases held : o[c]? with
  | none =>
    rw [held] at read
    exact iff_of_false (not_lists read) fun tops => not_lists held tops.1
  | some stations =>
    rw [held, Option.bind_some] at read
    rw [Tops, lists_iff held, ← mem_kept]
    split at read
    · next emptied =>
      rw [Std.ExtTreeSet.isEmpty_iff, Std.ExtTreeSet.eq_empty_iff_forall_not_mem] at emptied
      exact iff_of_false (not_lists read) (emptied s)
    · exact lists_iff read

theorem inhabited_thinned (o : Occupancy) : o.thinned.Inhabited := by
  intro c member
  rw [Std.ExtTreeMap.mem_iff_isSome_getElem?, Option.isSome_iff_exists] at member
  obtain ⟨kept, held⟩ := member
  have read := held
  rw [getElem?_thinned, Option.bind_eq_some_iff] at read
  obtain ⟨stations, _, read⟩ := read
  split at read
  · cases read
  · next some_left =>
    cases read
    rw [Std.ExtTreeSet.isEmpty_iff, Std.ExtTreeSet.eq_empty_iff_forall_not_mem, not_forall]
      at some_left
    obtain ⟨s, member⟩ := some_left
    exact ⟨s, (lists_iff held).mpr (not_not.mp member)⟩

end Thinning

end Occupancy

/-- A listing of an assignment: it can be read back, each channel has stations, and no station has
two channels. -/
structure Assignment.Listed (a : Assignment) : Prop where
  back : a.occupancy.assignment = a
  inhabited : a.occupancy.Inhabited
  disjoint : a.occupancy.Disjoint

/-- A listing read as an assignment: each station that is listed is on its highest channel. To list
it again leaves out what a higher channel overrides, and what had no stations to begin with. -/
structure Occupancy.Read (o : Occupancy) : Prop where
  mem_iff : ∀ s, s ∈ o.assignment ↔ ∃ c, o.Lists s c
  highest : ∀ s c, o.assignment[s]? = some c ↔ o.Tops s c
  again : o.assignment.occupancy = o.thinned
  again_eq_iff : o.assignment.occupancy = o ↔ o.Inhabited ∧ o.Disjoint

namespace Occupancy

theorem assignment_occupancy (a : Assignment) : a.occupancy.assignment = a := by
  apply Std.ExtTreeMap.ext_getElem?
  intro s
  apply Option.ext
  intro c
  rw [getElem?_assignment, Tops, lists_occupancy]
  refine and_iff_left_of_imp fun held d listed => ?_
  rw [lists_occupancy, held] at listed
  cases listed
  exact UInt16.le_refl c

variable {o : Occupancy}

theorem occupancy_assignment (o : Occupancy) : o.assignment.occupancy = o.thinned := by
  apply eq_of_lists (inhabited_occupancy _) (inhabited_thinned _)
  intro s c
  rw [lists_occupancy, getElem?_assignment, lists_thinned]

theorem occupancy_assignment_eq_iff :
    o.assignment.occupancy = o ↔ o.Inhabited ∧ o.Disjoint := by
  constructor
  · intro same
    rw [← same]
    exact ⟨inhabited_occupancy _, disjoint_occupancy _⟩
  · rintro ⟨inhabited, disjoint⟩
    apply eq_of_lists (inhabited_occupancy _) inhabited
    intro s c
    rw [lists_occupancy, getElem?_assignment]
    refine and_iff_left_of_imp fun listed d again => ?_
    rw [disjoint s d c again listed]
    exact UInt16.le_refl c

/-- Listing an assignment loses nothing, and reading a listing loses only what a higher channel
overrides. -/
theorem listings_exact : (∀ a : Assignment, a.Listed) ∧ ∀ o : Occupancy, o.Read :=
  ⟨fun a => ⟨assignment_occupancy a, inhabited_occupancy a, disjoint_occupancy a⟩,
    fun o => ⟨fun _ => mem_assignment, fun _ _ => getElem?_assignment, occupancy_assignment o,
      occupancy_assignment_eq_iff⟩⟩

/-- Channel 5 keeps one of its stations, channel 7 loses its only one, and channel 9 had none. -/
example :
    let o : Occupancy := .ofList [(5, {1, 2}), (7, {3}), (8, {2, 3}), (9, ∅)] compare
    o.assignment.toList = [(1, 5), (2, 8), (3, 8)] ∧
      o.thinned.toList.map (fun (c, kept) => (c, kept.toList)) = [(5, [1]), (8, [2, 3])] := by
  decide +kernel

end Occupancy

end Repack
