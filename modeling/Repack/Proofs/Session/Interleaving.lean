import Mathlib.Logic.Function.Basic
import Repack.Proofs.Store.Reachable

/-! Clients that share a store take turns at it, call by call. A client asks the store, lets its own
solver work on a miss, takes a key for what that one decides, and records it; between any two of
these calls others may change the store. A client whose time overflows stops, and may be asked
again. -/
namespace Repack

/-- What a client has in hand between two calls on the store. -/
inductive Phase
  | idle
  /-- The store has no answer, and took some time to say so. -/
  | missed (i : Instance) (elapsed : Duration)
  | decided (i : Instance) (r : Finding)
  | named (i : Instance) (r : Finding) (key : String)

/-- What a client returned, and whether it is from the store. -/
structure Answer (ι : Type) where
  client : ι
  question : Instance
  finding : Finding
  stored : Bool

structure System (ι : Type) (σ : ι → Type) where
  store : Store
  clients : (n : ι) → Client (σ n)
  phases : ι → Phase
  /-- All answers so far, the latest last. -/
  answers : List (Answer ι)

/-- One call on the store: by an idle client that is given an instance, and waits for some time, by
a client that goes on with the one it has, or by anyone else. -/
inductive Move (ι : Type)
  | ask (n : ι) (i : Instance) (elapsed : Duration)
  | proceed (n : ι)
  | insert (e : Entry)
  | erase (e : Entry)
  | issueKey (stem : String)
  | pruneSolutions
  | pruneRefutations

namespace System

variable {ι : Type} {σ : ι → Type}

def start (settings : Settings) (p : Permutation Station) (clients : (n : ι) → Client (σ n)) :
    System ι σ :=
  ⟨.empty settings p, clients, fun _ => .idle, []⟩

def onStore {α : Type} (x : Action Store α) (s : System ι σ) : System ι σ :=
  { s with store := x.after s.store }

variable [DecidableEq ι]

def enter (s : System ι σ) (n : ι) (phase : Phase) : System ι σ :=
  { s with phases := Function.update s.phases n phase }

def answer (s : System ι σ) (n : ι) (i : Instance) (r : Finding) (stored : Bool) : System ι σ :=
  { s with
    phases := Function.update s.phases n .idle
    answers := s.answers ++ [⟨n, i, r, stored⟩] }

def setClient (s : System ι σ) (n : ι) (c : Client (σ n)) : System ι σ :=
  { s with clients := Function.update s.clients n c }

/-- Asks the store; a client that is not idle takes no instance. -/
def ask (s : System ι σ) (n : ι) (i : Instance) (elapsed : Duration) : System ι σ :=
  match s.phases n with
  | .idle =>
    match (Client.consult s.store i elapsed).value with
    | some r => s.answer n i r true
    | none => s.enter n (.missed i elapsed)
  | _ => s

/-- The client's own solver works; the store is not touched. -/
def work (oracle : (n : ι) → Oracle (σ n)) (s : System ι σ) (n : ι) (i : Instance)
    (elapsed : Duration) : System ι σ :=
  let worked := oracle n i (s.clients n).inner
  let s := s.setClient n { s.clients n with inner := worked.2 }
  match worked.1.delayed elapsed with
  | .error _ => s.enter n .idle
  | .ok r => if r.report.decides then s.enter n (.decided i r) else s.answer n i r false

def takeKey (s : System ι σ) (n : ι) (i : Instance) (r : Finding) : System ι σ :=
  match (Store.issueKey (i.name.getD "instance")).outcome s.store with
  | (.ok key, store) => { s with store }.enter n (.named i r key)
  | (.error _, store) => { s with store }.answer n i r false

def record (s : System ι σ) (n : ι) (i : Instance) (r : Finding) (key : String) : System ι σ :=
  match (Store.record i r key).outcome s.store with
  | (.ok _, store) =>
    let c := s.clients n
    ({ s with store }.setClient n { c with recorded := c.recorded + 1 }).answer n i r false
  | (.error _, store) => { s with store }.answer n i r false

/-- The next step of a client with the instance it has; an idle one has none. -/
def proceed (oracle : (n : ι) → Oracle (σ n)) (s : System ι σ) (n : ι) : System ι σ :=
  match s.phases n with
  | .idle => s
  | .missed i elapsed => s.work oracle n i elapsed
  | .decided i r => s.takeKey n i r
  | .named i r key => s.record n i r key

def step (oracle : (n : ι) → Oracle (σ n)) (s : System ι σ) : Move ι → System ι σ
  | .ask n i elapsed => s.ask n i elapsed
  | .proceed n => s.proceed oracle n
  | .insert e => s.onStore (Store.insert e)
  | .erase e => s.onStore (Store.erase e)
  | .issueKey stem => s.onStore (Store.issueKey stem)
  | .pruneSolutions => s.onStore Store.pruneSolutions
  | .pruneRefutations => s.onStore Store.pruneRefutations

def run (oracle : (n : ι) → Oracle (σ n)) (s : System ι σ) (moves : List (Move ι)) : System ι σ :=
  moves.foldl (step oracle) s

section Solo

variable {oracle : (n : ι) → Oracle (σ n)} {s : System ι σ} {n : ι} {i : Instance} {r : Finding}
  {elapsed : Duration}

theorem clients_enter (phase : Phase) : (s.enter n phase).clients = s.clients := rfl

theorem phases_enter (phase : Phase) : (s.enter n phase).phases n = phase :=
  Function.update_self ..

theorem phases_answer (stored : Bool) : (s.answer n i r stored).phases n = .idle :=
  Function.update_self ..

theorem proceed_idle (idle : s.phases n = .idle) : s.proceed oracle n = s := by
  rw [proceed, idle]

theorem proceed_answer (stored : Bool) :
    (s.answer n i r stored).proceed oracle n = s.answer n i r stored :=
  proceed_idle (phases_answer stored)

theorem proceed_missed : (s.enter n (.missed i elapsed)).proceed oracle n =
    (s.enter n (.missed i elapsed)).work oracle n i elapsed := by
  rw [proceed, phases_enter]

theorem proceed_decided :
    (s.enter n (.decided i r)).proceed oracle n = (s.enter n (.decided i r)).takeKey n i r := by
  rw [proceed, phases_enter]

theorem takeKey_eq : s.takeKey n i r =
    enter { s with store := { s.store with issued := s.store.issued + 1 } } n
      (.named i r (i.name.getD "instance" ++ "#" ++ toString s.store.issued.toNat)) := rfl

theorem proceed_named (key : String) : (s.enter n (.named i r key)).proceed oracle n =
    (s.enter n (.named i r key)).record n i r key := by
  rw [proceed, phases_enter]

/-- What a solve returned, if it returned anything. -/
def returned (s : System ι σ) (n : ι) (i : Instance) (elapsed : Duration) :
    Except Duration.Overflow Finding → List (Answer ι)
  | .ok r => [⟨n, i, r, (Client.consult s.store i elapsed).value.isSome⟩]
  | .error _ => []

/-- A client that no one interferes with settles in two steps what its own solver found. -/
theorem proceed_found : ((if r.report.decides then s.enter n (.decided i r)
      else s.answer n i r false).proceed oracle n).proceed oracle n =
    let settled := ((s.clients n).settle s.store i r).value
    { store := settled.2
      clients := Function.update s.clients n settled.1
      phases := Function.update s.phases n .idle
      answers := s.answers ++ [⟨n, i, r, false⟩] } := by
  rw [Client.value_settle]
  by_cases decides : r.report.decides = true
  · have recorded : (Client.recording i r).outcome s.store =
        (Store.record i r _).outcome { s.store with issued := s.store.issued + 1 } :=
      Action.outcome_bind_ok rfl
    simp only [if_pos decides]
    rw [proceed_decided, takeKey_eq, proceed_named, recorded]
    dsimp only [record, enter, setClient]
    generalize (Store.record i r _).outcome _ = ended
    obtain ⟨_ | e, t⟩ := ended
    · simp only [answer, Function.update_idem, Function.update_eq_self]
    · simp only [answer, Function.update_idem]
  · simp only [if_neg decides]
    rw [proceed_answer, proceed_answer, answer, Function.update_eq_self]

/-- A client that no one interferes with solves an instance in four steps at most. -/
theorem run_solo (idle : s.phases n = .idle) :
    s.run oracle [.ask n i elapsed, .proceed n, .proceed n, .proceed n] =
      let solved := ((s.clients n).solve (oracle n) s.store i elapsed).value
      { store := solved.2.2
        clients := Function.update s.clients n solved.2.1
        phases := s.phases
        answers := s.answers ++ s.returned n i elapsed solved.1 } := by
  have unchanged : Function.update s.phases n .idle = s.phases := by
    rw [← idle, Function.update_eq_self]
  simp only [run, List.foldl_cons, List.foldl_nil, step]
  rw [Client.value_solve]
  cases asked : (Client.consult s.store i elapsed).value with
  | some r =>
    have hit : s.ask n i elapsed = s.answer n i r true := by simp only [ask, idle, asked]
    rw [hit, proceed_answer, proceed_answer, proceed_answer, answer, unchanged]
    simp only [Function.update_eq_self, returned, asked, Option.isSome_some]
  | none =>
    have missed : s.ask n i elapsed = s.enter n (.missed i elapsed) := by
      simp only [ask, idle, asked]
    rw [missed, proceed_missed]
    simp only [work, clients_enter]
    cases (oracle n i (s.clients n).inner).1.delayed elapsed with
    | error overflow =>
      -- The client has stopped, and does nothing in the steps that are left.
      dsimp only
      rw [proceed_idle (phases_enter _), proceed_idle (phases_enter _)]
      simp only [enter, setClient, returned, Function.update_idem, unchanged, List.append_nil]
    | ok r =>
      dsimp only
      rw [proceed_found]
      simp only [setClient, enter, returned, asked, Option.isSome_none, Function.update_self,
        Function.update_idem, unchanged]

end Solo

end System

end Repack
