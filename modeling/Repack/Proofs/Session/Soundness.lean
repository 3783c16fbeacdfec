import Repack.Proofs.Constraint
import Repack.Proofs.Session.Interleaving

/-! Clients with sound solvers may trust the store that they share. However their calls fall between
those of others, what is stored stays valid, and so whatever is answered from it is right. -/
namespace Repack

/-- Whether a client may record what it has in hand. -/
def Constraint.Pending (K : Constraint) : Phase → Prop
  | .idle | .missed _ _ => True
  | .decided i r | .named i r _ => K.Sound i r

/-- Whether an answer is right: as a proof if it is from the store, else as the client's solver
means it. -/
def Constraint.Stands {ι : Type} (K : Constraint) (a : Answer ι) : Prop :=
  if a.stored then K.Proves a.question a.finding else K.Sound a.question a.finding

namespace System

variable {ι : Type} {σ : ι → Type} {K : Constraint} {p : Permutation Station}
  {s : System ι σ} {n : ι} {i : Instance} {r : Finding}

/-- What no step breaks: entries are valid, and so is what clients are about to record and what
they have answered. -/
structure Upholds (K : Constraint) (p : Permutation Station) (s : System ι σ) : Prop where
  stored : s.store.Keeps p K.Valid
  pending : ∀ n, K.Pending (s.phases n)
  answered : ∀ a ∈ s.answers, K.Stands a

theorem upholds_start (settings : Settings) (clients : (n : ι) → Client (σ n)) :
    (start settings p clients).Upholds K p where
  stored := Store.keeps_empty settings
  pending := fun _ => trivial
  answered := by simp [start]

theorem Upholds.withStore (h : s.Upholds K p) {store : Store} (kept : store.Keeps p K.Valid) :
    { s with store }.Upholds K p :=
  ⟨kept, h.pending, h.answered⟩

theorem Upholds.onStore {α : Type} {x : Action Store α} (h : s.Upholds K p)
    (preserved : Action.Preserves (Store.Keeps p K.Valid) x) : (s.onStore x).Upholds K p :=
  h.withStore (preserved _ h.stored)

section Steps

variable [DecidableEq ι]

theorem pending_update (h : s.Upholds K p) {phase : Phase} (sound : K.Pending phase) (m : ι) :
    K.Pending (Function.update s.phases n phase m) := by
  by_cases same : m = n
  · subst same
    rwa [Function.update_self]
  · rw [Function.update_of_ne same]
    exact h.pending m

theorem Upholds.enter (h : s.Upholds K p) {phase : Phase} (sound : K.Pending phase) :
    (s.enter n phase).Upholds K p :=
  ⟨h.stored, pending_update h sound, h.answered⟩

theorem Upholds.answer (h : s.Upholds K p) {stored : Bool}
    (stands : K.Stands (⟨n, i, r, stored⟩ : Answer ι)) :
    (s.answer n i r stored).Upholds K p := by
  refine ⟨h.stored, pending_update h trivial, ?_⟩
  intro a member
  rcases List.mem_append.mp member with before | last
  · exact h.answered a before
  · exact List.mem_singleton.mp last ▸ stands

theorem Upholds.setClient (h : s.Upholds K p) (c : Client (σ n)) :
    (s.setClient n c).Upholds K p :=
  ⟨h.stored, h.pending, h.answered⟩

theorem Upholds.ask (h : s.Upholds K p) (n : ι) (i : Instance) (elapsed : Duration) :
    (s.ask n i elapsed).Upholds K p := by
  rw [System.ask]
  cases s.phases n with
  | idle =>
    cases asked : (Client.consult s.store i elapsed).value with
    | some r => exact h.answer (Constraint.proves_of_consult h.stored asked)
    | none => exact h.enter trivial
  | missed => exact h
  | decided => exact h
  | named => exact h

theorem Upholds.record (h : s.Upholds K p) (sound : K.Sound i r) (key : String) :
    (s.record n i r key).Upholds K p := by
  have kept : ((Store.record i r key).outcome s.store).2.Keeps p K.Valid :=
    Store.preserves_record
      (fun _ made => Store.preserves_insert (Constraint.valid_of_entryOf sound made)) _ h.stored
  rw [System.record]
  rcases ended : (Store.record i r key).outcome s.store with ⟨_ | _, store⟩
  · rw [ended] at kept
    exact (h.withStore kept).answer sound
  · rw [ended] at kept
    exact ((h.withStore kept).setClient _).answer sound

theorem Upholds.takeKey (h : s.Upholds K p) (sound : K.Sound i r) :
    (s.takeKey n i r).Upholds K p := by
  rw [takeKey_eq]
  apply Upholds.enter
  · exact h.withStore ⟨h.stored.solutions, h.stored.refutations⟩
  · exact sound

variable {oracle : (n : ι) → Oracle (σ n)}

theorem Upholds.proceed (h : s.Upholds K p) (sound : ∀ n i c, K.Sound i (oracle n i c).1)
    (n : ι) : (s.proceed oracle n).Upholds K p := by
  have pending := h.pending n
  rw [System.proceed]
  cases phase : s.phases n with
  | idle => exact h
  | missed i elapsed =>
    dsimp only [work]
    split
    · exact (h.setClient _).enter trivial
    · next r delayed =>
      have sound := Constraint.sound_of_delayed (sound n i _) delayed
      split
      · exact (h.setClient _).enter sound
      · exact (h.setClient _).answer sound
  | decided i r => exact h.takeKey (phase ▸ pending : K.Pending (.decided i r))
  | named i r key => exact h.record (phase ▸ pending : K.Pending (.named i r key)) key

theorem Upholds.step (h : s.Upholds K p) (sound : ∀ n i c, K.Sound i (oracle n i c).1)
    {move : Move ι} (valid : ∀ e, move = .insert e → K.Valid e) :
    (s.step oracle move).Upholds K p := by
  cases move with
  | ask n i elapsed => exact h.ask n i elapsed
  | proceed n => exact h.proceed sound n
  | insert e => exact h.onStore (Store.preserves_insert (valid e rfl))
  | erase e => exact h.onStore (Store.preserves_erase e)
  | issueKey stem => exact h.onStore (Store.preserves_issueKey stem)
  | pruneSolutions => exact h.onStore Store.preserves_pruneSolutions
  | pruneRefutations => exact h.onStore Store.preserves_pruneRefutations

theorem Upholds.run (h : s.Upholds K p) (sound : ∀ n i c, K.Sound i (oracle n i c).1)
    {moves : List (Move ι)} (valid : ∀ e, .insert e ∈ moves → K.Valid e) :
    (s.run oracle moves).Upholds K p := by
  induction moves generalizing s with
  | nil => exact h
  | cons move rest ih =>
    have first := h.step sound fun e same => valid e (same ▸ List.mem_cons_self)
    exact ih first fun e member => valid e (List.mem_cons_of_mem _ member)

end Steps

/-- What can be relied on in a state that clients have reached: all entries are valid, a lookup is
right, and so is every answer from the store, and every answer that there is no assignment. -/
structure Trustworthy (K : Constraint) (s : System ι σ) : Prop where
  solutions : ∀ a ∈ s.store.solutions.entries, K.Holds a.assignment
  refutations : ∀ a ∈ s.store.refutations.entries, ¬ K.Feasible ⟨a.stations, a.domains, none⟩
  lookup_satisfiable : ∀ i a key, (Store.lookup i).result s.store = .ok (.satisfiable a key) →
    K.Holds a ∧ a.Answers i
  lookup_unsatisfiable : ∀ i key, (Store.lookup i).result s.store = .ok (.unsatisfiable key) →
    ¬ K.Feasible i
  answered_satisfiable : ∀ answer ∈ s.answers, answer.stored = true →
    answer.finding.report = .satisfiable → ∃ a, answer.finding.assignment = some a ∧
      K.Holds a ∧ a.Answers answer.question
  answered_unsatisfiable : ∀ answer ∈ s.answers, answer.finding.report = .unsatisfiable →
    ¬ K.Feasible answer.question

theorem Upholds.trustworthy (h : s.Upholds K p) : s.Trustworthy K := by
  obtain ⟨⟨S, filedS, validS⟩, ⟨R, filedR, validR⟩⟩ := h.stored
  constructor
  · exact fun a member => validS a (filedS.mem_entries.mp member)
  · exact fun a member => validR a (filedR.mem_entries.mp member)
  · exact fun i a key found => Constraint.supports_lookup h.stored found
  · exact fun i key found => Constraint.supports_lookup h.stored found
  · intro answer member stored report
    have stands := h.answered answer member
    rw [Constraint.Stands, if_pos stored, Constraint.Proves, report] at stands
    exact stands
  · intro answer member report
    have stands := h.answered answer member
    rw [Constraint.Stands, Constraint.Proves, Constraint.Sound, report] at stands
    split at stands
    · exact stands
    · exact stands

/-- Any number of clients with sound solvers that take turns at one store, in any order and with
others who add valid entries, remove and prune, never get a wrong answer from it. -/
theorem trustworthy_run [DecidableEq ι] (K : Constraint) {oracle : (n : ι) → Oracle (σ n)}
    (sound : ∀ n i c, K.Sound i (oracle n i c).1) (settings : Settings)
    (p : Permutation Station) (clients : (n : ι) → Client (σ n)) (moves : List (Move ι))
    (valid : ∀ e, .insert e ∈ moves → K.Valid e) :
    ((start settings p clients).run oracle moves).Trustworthy K :=
  ((upholds_start settings clients).run sound valid).trustworthy

section Sample

/-- No two stations are on one channel. -/
def distinctChannels : Constraint where
  Holds a := ∀ (s t : Station) (c : Channel), a[s]? = some c → a[t]? = some c → s = t
  restrict := by
    intro a stations holds s t c first second
    rw [Assignment.getElem?_restrict] at first second
    split at first
    · split at second
      · exact holds s t c first second
      · cases second
    · cases first

/-- Three stations on channels of their own. -/
def table : Solution := ⟨.ofList [(1, 14), (2, 15), (3, 16)] compare, "table", "test"⟩

/-- A station without channels. -/
def blocked : Refutation :=
  ⟨.ofList [1] compare, .ofList [(1, ∅)] compare, "blocked"⟩

theorem valid_table : distinctChannels.Valid (.solution table) := by
  have listed : table.assignment.toList = [(1, 14), (2, 15), (3, 16)] := by decide +kernel
  intro s t c first second
  rw [← Std.ExtTreeMap.mem_toList_iff_getElem?_eq_some, listed] at first second
  simp only [List.mem_cons, Prod.mk.injEq, List.not_mem_nil, or_false] at first second
  rcases first with ⟨rfl, rfl⟩ | ⟨rfl, rfl⟩ | ⟨rfl, rfl⟩ <;> simpa [eq_comm] using second

theorem valid_blocked : distinctChannels.Valid (.refutation blocked) := by
  rintro ⟨a, _, stations, admitted⟩
  have member := (stations 1).mpr (by decide)
  rw [Std.ExtTreeMap.mem_iff_isSome_getElem?] at member
  obtain ⟨c, held⟩ := Option.isSome_iff_exists.mp member
  have within := ((Instance.admits_iff _).mp (admitted 1 c held)).2 ∅ (by decide)
  exact Std.ExtTreeSet.not_mem_empty within

/-- A solver that knows these two entries, and counts its calls. -/
def consultTable : Oracle Nat := fun i calls =>
  if blocked.refutes i then (⟨.unsatisfiable, none, "table", .zero⟩, calls + 1)
  else if table.solves i then (⟨.satisfiable, some table.assignment, "table", .zero⟩, calls + 1)
  else (⟨.unknown, none, "table", .zero⟩, calls + 1)

theorem sound_consultTable (i : Instance) (calls : Nat) :
    distinctChannels.Sound i (consultTable i calls).1 := by
  rw [consultTable]
  split
  · next refuted => exact Constraint.infeasible_of_refutes valid_blocked refuted
  · split
    · next solved =>
      obtain ⟨holds, answers⟩ := Constraint.answers_of_solves valid_table solved rfl
      exact ⟨table.assignment, rfl, holds, answers.admitted⟩
    · trivial

def interleaved : List (Move Bool) :=
  [.ask true (.ofStations [1, 2]) .zero, .ask false (Instance.empty.restrict 1 ∅) .zero,
    .proceed false, .proceed true, .proceed true, .proceed false, .insert (.solution table),
    .proceed true, .pruneSolutions, .proceed false, .ask true (.ofStations [2, 3]) .zero,
    .ask false ((Instance.ofStations [2]).restrict 1 ∅) .zero]

/-- Two clients whose calls alternate: both are answered from the store what the other, or a third
party, has put there. -/
theorem trustworthy_interleaved :
    (∀ n i c, distinctChannels.Sound i ((fun _ : Bool => consultTable) n i c).1) ∧
    (∀ e, Move.insert e ∈ interleaved → distinctChannels.Valid e) ∧
    ((start .standard Store.trio fun _ => .fresh 0).run (fun _ => consultTable)
      interleaved).Trustworthy distinctChannels ∧
    ((start .standard Store.trio fun _ => .fresh 0).run (fun _ => consultTable)
      interleaved).answers.map (fun a => (a.client, a.finding.report, a.stored)) =
      [(true, .satisfiable, false), (false, .unsatisfiable, false), (true, .satisfiable, true),
        (false, .unsatisfiable, true)] := by
  have sound : ∀ n i c, distinctChannels.Sound i ((fun _ : Bool => consultTable) n i c).1 :=
    fun _ => sound_consultTable
  have valid : ∀ e, Move.insert e ∈ interleaved → distinctChannels.Valid e := by
    intro e member
    simp only [interleaved, List.mem_cons, reduceCtorEq, Move.insert.injEq, List.not_mem_nil,
      false_or, or_false] at member
    exact member ▸ valid_table
  refine ⟨sound, valid, trustworthy_run distinctChannels sound _ _ _ _ valid, ?_⟩
  decide +kernel

end Sample

end System

end Repack
