import Repack.Proofs.Session.Interleaving
import Repack.Proofs.Store.Recording

/-! What is recorded once is not solved again. However the calls of clients and of others go on, as
long as none removes an entry, the instances that a recorded result decides are answered from the
store. -/
namespace Repack.System

open Repack.Action (Preserves)

/-- What may happen to the store: a move of those that take turns at it, or a record by someone
else. -/
inductive Turn (ι : Type)
  | move (move : Move ι)
  | record (i : Instance) (r : Finding) (key : String)

variable {ι : Type} {σ : ι → Type} [DecidableEq ι]

def turn (oracle : (n : ι) → Oracle (σ n)) (s : System ι σ) : Turn ι → System ι σ
  | .move move => s.step oracle move
  | .record i r key => s.onStore (Store.record i r key)

def play (oracle : (n : ι) → Oracle (σ n)) (s : System ι σ) (turns : List (Turn ι)) :
    System ι σ :=
  turns.foldl (turn oracle) s

/-- Whether a turn records a result: on its own, or as the last step of a client that solves. -/
def Records (s : System ι σ) (turn : Turn ι) (i : Instance) (r : Finding) (key : String) : Prop :=
  turn = .record i r key ∨ ∃ n, turn = .move (.proceed n) ∧ s.phases n = .named i r key

variable {oracle : (n : ι) → Oracle (σ n)} {s : System ι σ} {n : ι} {i j : Instance}
  {r : Finding} {key : String} {elapsed : Duration}

theorem store_ask : (s.ask n i elapsed).store = s.store := by
  rw [ask]
  split
  · split
    · rfl
    · rfl
  · rfl

theorem store_work : (s.work oracle n i elapsed).store = s.store := by
  dsimp only [work]
  split
  · rfl
  · split
    · rfl
    · rfl

theorem store_record : (s.record n i r key).store = (Store.record i r key).after s.store := by
  have after : (Store.record i r key).after s.store =
      ((Store.record i r key).outcome s.store).2 := rfl
  rw [record, after]
  rcases (Store.record i r key).outcome s.store with ⟨_ | _, store⟩
  · rfl
  · rfl

theorem store_turn_of_records (oracle : (n : ι) → Oracle (σ n)) {turn : Turn ι}
    (records : s.Records turn i r key) :
    (s.turn oracle turn).store = (Store.record i r key).after s.store := by
  obtain rfl | ⟨n, rfl, named⟩ := records
  · rfl
  · rw [System.turn, step, proceed, named]
    exact store_record

section Lasting

variable {P : Store → Prop}

theorem lasting_proceed (lasting : Store.Lasting P) (held : P s.store) :
    P (s.proceed oracle n).store := by
  rw [proceed]
  cases s.phases n with
  | idle => exact held
  | missed i elapsed =>
    dsimp only
    rw [store_work]
    exact held
  | decided i r => exact lasting.issueKey (i.name.getD "instance") _ held
  | named i r key =>
    rw [store_record]
    exact Store.preserves_record (fun e _ => lasting.insert e) _ held

theorem lasting_turn (lasting : Store.Lasting P) {turn : Turn ι}
    (erased : ∀ e, turn = .move (.erase e) → Preserves P (Store.erase e)) (held : P s.store) :
    P (s.turn oracle turn).store := by
  cases turn with
  | move move =>
    cases move with
    | ask n i elapsed =>
      rw [System.turn, step, store_ask]
      exact held
    | proceed n => exact lasting_proceed lasting held
    | insert e => exact lasting.insert e _ held
    | erase e => exact erased e rfl _ held
    | issueKey stem => exact lasting.issueKey stem _ held
    | pruneSolutions => exact lasting.pruneSolutions _ held
    | pruneRefutations => exact lasting.pruneRefutations _ held
  | record i r key => exact Store.preserves_record (fun e _ => lasting.insert e) _ held

theorem lasting_play (oracle : (n : ι) → Oracle (σ n)) (lasting : Store.Lasting P)
    {turns : List (Turn ι)}
    (erased : ∀ e, .move (.erase e) ∈ turns → Preserves P (Store.erase e)) (held : P s.store) :
    P (s.play oracle turns).store := by
  induction turns generalizing s with
  | nil => exact held
  | cons turn rest ih =>
    apply ih fun e member => erased e (List.mem_cons_of_mem _ member)
    exact lasting_turn lasting (fun e same => erased e (same ▸ List.mem_cons_self)) held

end Lasting

theorem keeps_play {p : Permutation Station} (settings : Settings)
    (clients : (n : ι) → Client (σ n)) (turns : List (Turn ι)) :
    ((start settings p clients).play oracle turns).store.Keeps p fun _ => True := by
  have lasting : Store.Lasting (Store.Keeps p fun _ => True) :=
    ⟨fun _ => Store.preserves_insert trivial, Store.preserves_issueKey,
      Store.preserves_pruneSolutions, Store.preserves_pruneRefutations⟩
  exact lasting_play oracle lasting (fun e _ => Store.preserves_erase e)
    (Store.keeps_empty settings)

/-- An instance is answered from the store: whoever asks has the answer at once, without a call of
its own solver, and leaves the store as it is. All the time spent is that of the store. -/
structure Answered (s : System ι σ) (j : Instance) (answer : Finding) : Prop where
  consulted : ∀ elapsed, (Client.consult s.store j elapsed).value =
    some { answer with runtime := elapsed }
  credited : answer.report = .satisfiable ∧ answer.solver = Client.bySolution ∨
    answer.report = .unsatisfiable ∧ answer.solver = Client.byRefutation
  asked : ∀ n elapsed, s.phases n = .idle →
    s.ask n j elapsed = s.answer n j { answer with runtime := elapsed } true
  solved : ∀ {τ : Type} (oracle : Oracle τ) (c : Client τ) (elapsed : Duration),
    (c.solve oracle s.store j elapsed).value =
      (.ok { answer with runtime := elapsed }, c, s.store)

theorem answered_of_consult {answer : Finding}
    (consulted : ∀ elapsed, (Client.consult s.store j elapsed).value =
      some { answer with runtime := elapsed })
    (credited : answer.report = .satisfiable ∧ answer.solver = Client.bySolution ∨
      answer.report = .unsatisfiable ∧ answer.solver = Client.byRefutation) :
    s.Answered j answer where
  consulted := consulted
  credited := credited
  asked := by
    intro n elapsed idle
    simp only [ask, idle, consulted]
  solved := by
    intro τ oracle c elapsed
    rw [Client.value_solve, consulted]

/-- Once a result is recorded, by a client or on its own, and as long as nothing is removed, every
instance that it decides is answered from the store. -/
theorem answered_of_recorded (oracle : (n : ι) → Oracle (σ n)) (settings : Settings)
    (p : Permutation Station) (clients : (n : ι) → Client (σ n)) (earlier later : List (Turn ι))
    {turn : Turn ι} {e : Entry}
    (records : ((start settings p clients).play oracle earlier).Records turn i r key)
    (recorded : (Store.record i r key).result
      ((start settings p clients).play oracle earlier).store = .ok e)
    (keeping : ∀ e, .move (.erase e) ∉ later) (decides : r.Decides i j)
    (inside : p.Spans j.stations.toList) :
    ∃ answer,
      ((start settings p clients).play oracle (earlier ++ turn :: later)).Answered j answer ∧
        (r.report = .satisfiable → answer.report = .satisfiable) := by
  have first := Store.decided_of_record (keeps_play settings clients earlier) recorded decides
  rw [← store_turn_of_records oracle records] at first
  have last := lasting_play oracle (Store.lasting_decided p r.report j)
    (fun e member => absurd member (keeping e)) first
  have whole : ((start settings p clients).play oracle (earlier ++ turn :: later)) =
      ((((start settings p clients).play oracle earlier).turn oracle turn).play oracle later) := by
    rw [play, List.foldl_append]
    rfl
  rw [whole]
  obtain ⟨a, k, found⟩ | ⟨report, k, found⟩ := Store.lookup_of_decided last inside
  · refine ⟨⟨.satisfiable, some a, Client.bySolution, .zero⟩,
      answered_of_consult ?_ (Or.inl ⟨rfl, rfl⟩), fun _ => rfl⟩
    intro elapsed
    rw [Client.value_consult, found]
  · refine ⟨⟨.unsatisfiable, none, Client.byRefutation, .zero⟩,
      answered_of_consult ?_ (Or.inr ⟨rfl, rfl⟩), fun same => absurd same report⟩
    intro elapsed
    rw [Client.value_consult, found]

section Sample

/-- A result for any stations out of three. -/
def seated : Finding :=
  ⟨.satisfiable, some (.ofList [(1, 14), (2, 15), (3, 16)] compare), "test", .zero⟩

/-- A solver that knows this result only, and counts its calls. -/
def seating : Oracle Nat := fun _ calls => (seated, calls + 1)

/-- One of two clients has solved an instance, and is about to record the result. -/
def solving : List (Turn Bool) :=
  [.move (.ask true (.ofStations [1, 2]) .zero), .move (.proceed true), .move (.proceed true)]

/-- Adds a solution that extends the one recorded, and prunes. -/
def replacing : List (Turn Bool) :=
  [.move (.insert (.solution ⟨.ofList [(1, 14), (2, 15), (3, 16)] compare, "wide", "test"⟩)),
    .move .pruneSolutions]

/-- What the client records is replaced, and answers the other one still. -/
theorem answered_of_replaced :
    let before := (start .standard Store.trio fun _ => .fresh 0).play (fun _ => seating) solving
    let after := (start .standard Store.trio fun _ => .fresh 0).play (fun _ => seating)
      (solving ++ .move (.proceed true) :: replacing)
    before.Records (.move (.proceed true)) (.ofStations [1, 2]) seated "instance#0" ∧
    (Store.record (.ofStations [1, 2]) seated "instance#0").result before.store =
      .ok (.solution ⟨.ofList [(1, 14), (2, 15)] compare, "instance#0", "test"⟩) ∧
    (∀ e, .move (.erase e) ∉ replacing) ∧
    seated.Decides (.ofStations [1, 2]) (.ofStations [2]) ∧
    Store.trio.Spans (Instance.ofStations [2]).stations.toList ∧
    after.store.solutions.entries.map Solution.key = ["wide"] ∧
    ∃ answer, after.Answered (.ofStations [2]) answer ∧
      (seated.report = .satisfiable → answer.report = .satisfiable) := by
  intro before after
  have records : before.Records (.move (.proceed true)) (.ofStations [1, 2]) seated
      "instance#0" := Or.inr ⟨true, rfl, rfl⟩
  have recorded : (Store.record (.ofStations [1, 2]) seated "instance#0").result before.store =
      .ok (.solution ⟨.ofList [(1, 14), (2, 15)] compare, "instance#0", "test"⟩) := by
    decide +kernel
  have keeping : ∀ e, .move (.erase e) ∉ replacing := by
    intro e
    simp [replacing]
  have decides : seated.Decides (.ofStations [1, 2]) (.ofStations [2]) := by
    have only : ∀ s ∈ (Instance.ofStations [2]).stations, s = 2 := by simp [Instance.ofStations]
    refine ⟨?_, _, rfl, ?_⟩
    · intro s member
      obtain rfl := only s member
      decide
    · intro s member
      obtain rfl := only s member
      exact ⟨15, by decide +kernel, by decide +kernel⟩
  have inside : Store.trio.Spans (Instance.ofStations [2]).stations.toList := by decide
  refine ⟨records, recorded, keeping, decides, inside, ?_, ?_⟩
  · decide +kernel
  · exact answered_of_recorded _ _ _ _ solving replacing records recorded keeping decides inside

end Sample

end Repack.System
