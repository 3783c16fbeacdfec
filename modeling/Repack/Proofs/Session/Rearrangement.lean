import Repack.Proofs.Store.Rearrangement
import Repack.Session

/-! Sessions over two permutations of one universe, with preferences of their own, that are asked
the same. They stay in lockstep: a client that has an answer from the store in one has one in the
other, so the same results are recorded, under the same keys. The two stores need not answer in the
same time. -/
namespace Repack

open Repack.Action (Agrees)

namespace Client

variable {σ : Type} {p q : Permutation Station} {s t : Store} {elapsed elapsed' : Duration}

theorem report_consult (s : Store) (i : Instance) (elapsed : Duration) :
    (consult s i elapsed).value.map Finding.report =
      (((Store.lookup i).result s).map Verdict.report).toOption.join := by
  rw [value_consult]
  cases (Store.lookup i).result s with
  | error fault => rfl
  | ok v => cases v <;> rfl

theorem consult_alike (same : p.elements.Perm q.elements) (h : s.Alike p q t) (i : Instance)
    (elapsed elapsed' : Duration) : (consult s i elapsed).value.map Finding.report =
      (consult t i elapsed').value.map Finding.report := by
  rw [report_consult, report_consult, (Store.agrees_lookup same i s t h).1]

/-- What is recorded of a result has no time. -/
theorem settle_runtime (c : Client σ) (s : Store) (i : Instance) (r : Finding)
    (runtime : Duration) : c.settle s i { r with runtime } = c.settle s i r := rfl

theorem settle_alike (same : p.elements.Perm q.elements) (h : s.Alike p q t) (c : Client σ)
    (i : Instance) (r : Finding) : (c.settle s i r).value.1 = (c.settle t i r).value.1 ∧
      (c.settle s i r).value.2.Alike p q (c.settle t i r).value.2 := by
  have agrees : Agrees (Store.Alike p q) id (recording i r) :=
    (Store.agrees_issueKey _).bind fun key => Store.agrees_record same i r key
  obtain ⟨result, left⟩ := agrees s t h
  simp only [Except.map_id, id_eq] at result
  rw [value_settle, value_settle, Action.outcome_eq, Action.outcome_eq, ← result]
  split
  · cases (recording i r).result s with
    | ok e =>
      dsimp only
      exact ⟨rfl, left⟩
    | error fault =>
      dsimp only
      exact ⟨rfl, left⟩
  · exact ⟨rfl, h⟩

/-- A client reports the same of an instance from either store, and records as much. -/
theorem solve_alike (same : p.elements.Perm q.elements) (h : s.Alike p q t) (oracle : Oracle σ)
    (c : Client σ) (i : Instance) (fits_iff : (oracle i c.inner).1.runtime.Fits elapsed ↔
      (oracle i c.inner).1.runtime.Fits elapsed') :
    (c.solve oracle s i elapsed).value.1.toOption.map Finding.report =
        (c.solve oracle t i elapsed').value.1.toOption.map Finding.report ∧
      (c.solve oracle s i elapsed).value.2.1 = (c.solve oracle t i elapsed').value.2.1 ∧
      (c.solve oracle s i elapsed).value.2.2.Alike p q
        (c.solve oracle t i elapsed').value.2.2 := by
  have reports := consult_alike same h i elapsed elapsed'
  rw [value_solve, value_solve]
  cases first : (consult s i elapsed).value with
  | some r =>
    rw [first] at reports
    cases second : (consult t i elapsed').value with
    | some r' =>
      rw [second] at reports
      exact ⟨reports, rfl, h⟩
    | none => rw [second] at reports; cases reports
  | none =>
    rw [first] at reports
    cases second : (consult t i elapsed').value with
    | some r' => rw [second] at reports; cases reports
    | none =>
      by_cases fits : (oracle i c.inner).1.runtime.Fits elapsed
      · obtain ⟨client, left⟩ :=
          settle_alike same h { c with inner := (oracle i c.inner).2 } i (oracle i c.inner).1
        simp only [Finding.delayed_of_fits fits, Finding.delayed_of_fits (fits_iff.mp fits),
          settle_runtime]
        exact ⟨rfl, client, left⟩
      · rw [Finding.delayed_of_not_fits fits,
          Finding.delayed_of_not_fits (mt fits_iff.mpr fits)]
        exact ⟨rfl, rfl, h⟩

end Client

namespace Session

/-- What may be asked of a session, of either of its indices or of its client with a number. -/
inductive Request
  | insert (e : Entry)
  | erase (e : Entry)
  | contains (e : Entry)
  | record (i : Instance) (r : Finding) (key : String)
  | issueKey (stem : String)
  | prune (kind : Journal.Kind)
  | lookup (i : Instance)
  | seeds (i : Instance) (k : Nat)
  | find (kind : Journal.Kind) (d : Containment) (query : List Station)
  | count (kind : Journal.Kind) (d : Containment) (query : List Station)
  | size (kind : Journal.Kind)
  | total (kind : Journal.Kind)
  | solve (n : Nat) (i : Instance) (elapsed : Duration)

/-- What is seen of an answer: of entries that come in index order only which they are, of seeds
how much they agree, of a proof the report. -/
inductive Observation
  | answer (answer : Except Fault Bool)
  | entry (answer : Except Fault Entry)
  | key (answer : Except Fault String)
  | entries (answer : Except Fault (Multiset Entry))
  | report (answer : Except Fault (Option Report))
  | agreements (answer : Except Fault (List Nat))
  | number (answer : Except Fault Nat)
  /-- The report of a client, if it returned, and what its own solver returned if it was called. -/
  | solved (report : Option Report) (own : Option Finding)

variable {σ : Type}

def observe {α γ : Type} (x : Action Store α) (see : α → γ) (note : Except Fault γ → Observation)
    (s : Session σ) : Observation × Session σ :=
  (note ((x.result s.store).map see), (onStore x).after s)

def ofSolutions (l : List Solution) : Multiset Entry := (Multiset.ofList l).map .solution

def ofRefutations (l : List Refutation) : Multiset Entry := (Multiset.ofList l).map .refutation

/-- What the solver of a client returns for an instance, if the store has no answer. -/
def own (oracle : Oracle σ) (inner : σ) (n : Nat) (i : Instance) (elapsed : Duration)
    (s : Session σ) : Option Finding :=
  match (Client.consult s.store i elapsed).value with
  | some _ => none
  | none => some (oracle i ((s.enlisted inner n)[n]?.getD (.fresh inner)).inner).1

def Request.perform (oracle : Oracle σ) (inner : σ) : Request → Session σ → Observation × Session σ
  | .insert e => observe (Store.insert e) id .answer
  | .erase e => observe (Store.erase e) id .answer
  | .contains e => observe (Store.contains e) id .answer
  | .record i r key => observe (Store.record i r key) id .entry
  | .issueKey stem => observe (Store.issueKey stem) id .key
  | .prune .sat => observe Store.pruneSolutions ofSolutions .entries
  | .prune .unsat => observe Store.pruneRefutations ofRefutations .entries
  | .lookup i => observe (Store.lookup i) Verdict.report .report
  | .seeds i k => observe (Store.seeds i k) (List.map (·.agreement i)) .agreements
  | .find .sat d query =>
    observe (Store.onSolutions (Index.Shared.find d query)) ofSolutions .entries
  | .find .unsat d query =>
    observe (Store.onRefutations (Index.Shared.find d query)) ofRefutations .entries
  | .count .sat d query => observe (Store.onSolutions (Index.Shared.count d query)) id .number
  | .count .unsat d query => observe (Store.onRefutations (Index.Shared.count d query)) id .number
  | .size .sat => observe (Store.onSolutions Index.Shared.size) id .number
  | .size .unsat => observe (Store.onRefutations Index.Shared.size) id .number
  | .total .sat => observe (Store.onSolutions Index.Shared.total) id .number
  | .total .unsat => observe (Store.onRefutations Index.Shared.total) id .number
  | .solve n i elapsed => fun s =>
    let solved := (s.solve oracle inner n i elapsed).value
    (.solved (solved.1.toOption.map Finding.report) (s.own oracle inner n i elapsed), solved.2)

/-- What is seen of some requests in turn, and the session they leave. -/
def run (oracle : Oracle σ) (inner : σ) (s : Session σ) :
    List Request → List Observation × Session σ
  | [] => ([], s)
  | request :: rest =>
    let (seen, next) := request.perform oracle inner s
    let (later, last) := run oracle inner next rest
    (seen :: later, last)

/-- Two requests that are the same but for the time that the store takes, for which there is room in
what a solver returns in either case or in neither. -/
inductive Retimed (oracle : Oracle σ) : Request → Request → Prop
  | refl (request : Request) : Retimed oracle request request
  | solve (n : Nat) (i : Instance) {elapsed elapsed' : Duration}
    (fits_iff : ∀ inner : σ, (oracle i inner).1.runtime.Fits elapsed ↔
      (oracle i inner).1.runtime.Fits elapsed') :
    Retimed oracle (.solve n i elapsed) (.solve n i elapsed')

variable {p q : Permutation Station} {s t : Session σ}

/-- Two sessions with the same clients, whose stores hold the same entries. -/
structure Alike (p q : Permutation Station) (s t : Session σ) : Prop where
  store : s.store.Alike p q t.store
  clients : s.clients = t.clients

theorem Alike.observe (h : s.Alike p q t) {α γ : Type} {x : Action Store α} {see : α → γ}
    (agrees : Agrees (Store.Alike p q) see x) (note : Except Fault γ → Observation) :
    (s.observe x see note).1 = (t.observe x see note).1 ∧
      (s.observe x see note).2.Alike p q (t.observe x see note).2 := by
  obtain ⟨same, left⟩ := agrees s.store t.store h.store
  exact ⟨congrArg note same, left, h.clients⟩

theorem Alike.own (same : p.elements.Perm q.elements) (h : s.Alike p q t) (oracle : Oracle σ)
    (inner : σ) (n : Nat) (i : Instance) (elapsed elapsed' : Duration) :
    s.own oracle inner n i elapsed = t.own oracle inner n i elapsed' := by
  have reports := Client.consult_alike same h.store i elapsed elapsed'
  rw [Session.own, Session.own, enlisted, enlisted, h.clients]
  cases first : (Client.consult s.store i elapsed).value with
  | some r =>
    cases second : (Client.consult t.store i elapsed').value with
    | some r' => rfl
    | none => rw [first, second] at reports; cases reports
  | none =>
    cases second : (Client.consult t.store i elapsed').value with
    | some r' => rw [first, second] at reports; cases reports
    | none => rfl

theorem value_solve (oracle : Oracle σ) (inner : σ) (n : Nat) (i : Instance) (elapsed : Duration)
    (s : Session σ) : (s.solve oracle inner n i elapsed).value =
      let solved :=
        (((s.enlisted inner n)[n]?.getD (.fresh inner)).solve oracle s.store i elapsed).value
      (solved.1, ⟨solved.2.2, (s.enlisted inner n).set n solved.2.1⟩) := rfl

theorem Alike.solve (same : p.elements.Perm q.elements) (h : s.Alike p q t) (oracle : Oracle σ)
    (inner : σ) (n : Nat) (i : Instance) {elapsed elapsed' : Duration}
    (fits_iff : ∀ inner : σ, (oracle i inner).1.runtime.Fits elapsed ↔
      (oracle i inner).1.runtime.Fits elapsed') :
    (s.solve oracle inner n i elapsed).value.1.toOption.map Finding.report =
        (t.solve oracle inner n i elapsed').value.1.toOption.map Finding.report ∧
      (s.solve oracle inner n i elapsed).value.2.Alike p q
        (t.solve oracle inner n i elapsed').value.2 := by
  have enlisted : s.enlisted inner n = t.enlisted inner n := by
    rw [Session.enlisted, Session.enlisted, h.clients]
  rw [value_solve, value_solve, enlisted]
  obtain ⟨report, client, store⟩ := Client.solve_alike same h.store oracle
    ((t.enlisted inner n)[n]?.getD (.fresh inner)) i (fits_iff _)
  exact ⟨report, store, congrArg ((t.enlisted inner n).set n) client⟩

/-- One request looks the same in both sessions, and leaves them alike. -/
theorem Alike.perform (same : p.elements.Perm q.elements) (h : s.Alike p q t) (oracle : Oracle σ)
    (inner : σ) (request : Request) :
    (request.perform oracle inner s).1 = (request.perform oracle inner t).1 ∧
      (request.perform oracle inner s).2.Alike p q (request.perform oracle inner t).2 := by
  cases request with
  | insert e => exact h.observe (Store.agrees_insert same e) _
  | erase e => exact h.observe (Store.agrees_erase same e) _
  | contains e => exact h.observe (Store.agrees_contains same e) _
  | record i r key => exact h.observe (Store.agrees_record same i r key) _
  | issueKey stem => exact h.observe (Store.agrees_issueKey stem) _
  | prune kind =>
    cases kind with
    | sat => exact h.observe (Store.agrees_pruneSolutions.comp _) _
    | unsat => exact h.observe (Store.agrees_pruneRefutations.comp _) _
  | lookup i => exact h.observe (Store.agrees_lookup same i) _
  | seeds i k => exact h.observe (Store.agrees_seeds same i k) _
  | find kind d query =>
    cases kind with
    | sat => exact h.observe (Store.agrees_onSolutions ((Store.agrees_find same d query).comp _)) _
    | unsat =>
      exact h.observe (Store.agrees_onRefutations ((Store.agrees_find same d query).comp _)) _
  | count kind d query =>
    cases kind with
    | sat => exact h.observe (Store.agrees_onSolutions (Store.agrees_count same d query)) _
    | unsat => exact h.observe (Store.agrees_onRefutations (Store.agrees_count same d query)) _
  | size kind =>
    cases kind with
    | sat => exact h.observe (Store.agrees_onSolutions Store.agrees_size) _
    | unsat => exact h.observe (Store.agrees_onRefutations Store.agrees_size) _
  | total kind =>
    cases kind with
    | sat => exact h.observe (Store.agrees_onSolutions Store.agrees_total) _
    | unsat => exact h.observe (Store.agrees_onRefutations Store.agrees_total) _
  | solve n i elapsed =>
    obtain ⟨report, left⟩ := h.solve same oracle inner n i fun _ => Iff.rfl
    exact ⟨congrArg₂ Observation.solved report (h.own same oracle inner n i elapsed elapsed), left⟩

theorem Alike.perform_retimed (same : p.elements.Perm q.elements) (h : s.Alike p q t)
    {oracle : Oracle σ} (inner : σ) {request request' : Request}
    (retimed : Retimed oracle request request') :
    (request.perform oracle inner s).1 = (request'.perform oracle inner t).1 ∧
      (request.perform oracle inner s).2.Alike p q (request'.perform oracle inner t).2 := by
  cases retimed with
  | refl => exact h.perform same oracle inner request
  | solve n i fits_iff =>
    obtain ⟨report, left⟩ := h.solve same oracle inner n i fits_iff
    exact ⟨congrArg₂ Observation.solved report (h.own same oracle inner n i _ _), left⟩

theorem Alike.run (same : p.elements.Perm q.elements) (h : s.Alike p q t) {oracle : Oracle σ}
    (inner : σ) {requests requests' : List Request}
    (retimed : List.Forall₂ (Retimed oracle) requests requests') :
    (s.run oracle inner requests).1 = (t.run oracle inner requests').1 ∧
      (s.run oracle inner requests).2.Alike p q (t.run oracle inner requests').2 := by
  induction retimed generalizing s t with
  | nil => exact ⟨rfl, h⟩
  | cons first _ ih =>
    obtain ⟨seen, next⟩ := h.perform_retimed same inner first
    obtain ⟨later, last⟩ := ih next
    exact ⟨congrArg₂ List.cons seen later, last⟩

/-- What two sessions have in common: the entries of each set of stations as they stand, the
numbers of sets and of entries, the keys issued and the clients with their solvers. -/
structure Lockstep (s t : Session σ) : Prop where
  solutions : ∀ A : Finset Station,
    s.store.solutions.entries.filter (fun a => (elements a).toFinset = A) =
      t.store.solutions.entries.filter fun a => (elements a).toFinset = A
  refutations : ∀ A : Finset Station,
    s.store.refutations.entries.filter (fun a => (elements a).toFinset = A) =
      t.store.refutations.entries.filter fun a => (elements a).toFinset = A
  solutions_size : s.store.solutions.size = t.store.solutions.size
  refutations_size : s.store.refutations.size = t.store.refutations.size
  solutions_total : s.store.solutions.total = t.store.solutions.total
  refutations_total : s.store.refutations.total = t.store.refutations.total
  issued : s.store.issued = t.store.issued
  clients : s.clients = t.clients

theorem Alike.lockstep (h : s.Alike p q t) : s.Lockstep t where
  solutions := h.store.solutions.filter_elements
  refutations := h.store.refutations.filter_elements
  solutions_size := h.store.solutions.size_eq
  refutations_size := h.store.refutations.size_eq
  solutions_total := h.store.solutions.total_eq
  refutations_total := h.store.refutations.total_eq
  issued := h.store.issued
  clients := h.clients

/-- Neither the permutation nor the preference changes what is decided: sessions that differ in
these and start empty look the same after any requests, in whatever time their stores answer. -/
theorem run_rearranged (same : p.elements.Perm q.elements) (settings : Settings)
    (preference : Preference) (oracle : Oracle σ) (inner : σ) {requests requests' : List Request}
    (retimed : List.Forall₂ (Retimed oracle) requests requests') :
    let first := (ofStore (.empty settings p)).run oracle inner requests
    let second := (ofStore (.empty { settings with preference.value := preference } q)).run
      oracle inner requests'
    first.1 = second.1 ∧ first.2.Lockstep second.2 := by
  have start : (ofStore (.empty settings p) : Session σ).Alike p q
      (ofStore (.empty { settings with preference.value := preference } q)) :=
    ⟨Store.alike_empty p q settings preference, rfl⟩
  obtain ⟨seen, left⟩ := start.run same inner retimed
  exact ⟨seen, left.lockstep⟩

/-- The stations of the sample store, ascending. -/
def ascending : Permutation Station := ⟨[1, 2, 3], by decide, by decide⟩

/-- Adds two solutions that have a station in common, and solves an instance with this station and
one that neither decides. -/
def sharing (elapsed : Duration) : List Request :=
  [.insert (.solution ⟨.ofList [(1, 14), (2, 15)] compare, "low", "test"⟩),
    .insert (.solution ⟨.ofList [(2, 15), (3, 16)] compare, "high", "test"⟩),
    .solve 0 (.ofStations [2]) elapsed, .solve 0 (.ofStations [1, 3]) elapsed]

/-- The two stores list the solutions in different orders, answer with different ones, and take
different times. -/
theorem run_rearranged_sharing :
    let giveUp : Oracle Nat := fun _ calls => (⟨.unsatisfiable, none, "test", .zero⟩, calls + 1)
    let quick : Duration := ⟨1, by decide⟩
    let slow : Duration := ⟨2, by decide⟩
    let first := (ofStore (.empty .standard Store.trio)).run giveUp 0 (sharing quick)
    let second := (ofStore (.empty { Settings.standard with preference.value := .earliest }
      ascending)).run giveUp 0 (sharing slow)
    Store.trio.elements.Perm ascending.elements ∧
    List.Forall₂ (Retimed giveUp) (sharing quick) (sharing slow) ∧
    (first.1 = second.1 ∧ first.2.Lockstep second.2) ∧
    first.2.clients = [⟨1, 1⟩] ∧
    first.2.store.solutions.entries.map Solution.key = ["high", "low"] ∧
    second.2.store.solutions.entries.map Solution.key = ["low", "high"] := by
  intro giveUp quick slow first second
  have same : Store.trio.elements.Perm ascending.elements := by decide
  have inTime : Duration.zero.Fits quick ↔ Duration.zero.Fits slow := by decide
  have retimed : List.Forall₂ (Retimed giveUp) (sharing quick) (sharing slow) :=
    .cons (.refl _) (.cons (.refl _)
      (.cons (.solve 0 _ fun _ => inTime) (.cons (.solve 0 _ fun _ => inTime) .nil)))
  refine ⟨same, retimed, run_rearranged same .standard .earliest giveUp 0 retimed, ?_, ?_, ?_⟩
  · decide +kernel
  · decide +kernel
  · decide +kernel

end Session

end Repack
