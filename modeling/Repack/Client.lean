import Repack.Store.Proof
import Repack.Store.Record

/-!
Clients solve instances through a shared store. A client asks the store first; only if the store
does not know does it call its own solver, and it records what that one decides. The time that the
store took counts: a result whose runtime has no room for it is lost, with whatever it decides.
-/
namespace Repack

/-- A solver with a state of its own. -/
abbrev Oracle (σ : Type) := Instance → σ → Finding × σ

structure Client (σ : Type) where
  /-- The state of the client's own solver. -/
  inner : σ
  /-- The number of results this client has recorded. -/
  recorded : Nat
  deriving DecidableEq

namespace Client

variable {σ : Type}

def fresh (inner : σ) : Client σ := ⟨inner, 0⟩

/-- Credited with what a solution in the store proves. -/
def bySolution : String := "superset_cache"

/-- Credited with what a refutation in the store proves. -/
def byRefutation : String := "subset_cache"

/-- Asks the store, which takes some time; a fault is noted in the journal, and is no answer. -/
def consult (s : Store) (i : Instance) (elapsed : Duration) : Logged (Option Finding) := do
  let answer ← (Store.lookup i).exec s
  match answer.1 with
  | .ok (.satisfiable assignment key) =>
    Logged.log (.hit .sat key)
    pure (some ⟨.satisfiable, some assignment, bySolution, elapsed⟩)
  | .ok (.unsatisfiable key) =>
    Logged.log (.hit .unsat key)
    pure (some ⟨.unsatisfiable, none, byRefutation, elapsed⟩)
  | .ok .unknown =>
    Logged.log .miss
    pure none
  | .error fault =>
    Logged.log (.lookupFailed fault)
    pure none

/-- Records a conclusive result under a new key, named for the instance if it has a name. -/
def settle (c : Client σ) (s : Store) (i : Instance) (r : Finding) :
    Logged (Client σ × Store) := do
  if !r.report.decides then
    return (c, s)
  let recording : Action Store Entry := do
    let key ← Store.issueKey (i.name.getD "instance")
    Store.record i r key
  let (answer, s) ← recording.exec s
  match answer with
  | .ok _ => pure ({ c with recorded := c.recorded + 1 }, s)
  | .error fault =>
    Logged.log (.notRecorded fault)
    pure (c, s)

/-- Answers from the store, or else by the client's own solver. There is no answer if the solver was
at work for so long that the time the store took does not fit in, and then nothing is recorded
either. -/
def solve (oracle : Oracle σ) (c : Client σ) (s : Store) (i : Instance) (elapsed : Duration) :
    Logged (Except Duration.Overflow Finding × Client σ × Store) := do
  match ← consult s i elapsed with
  | some r => pure (.ok r, c, s)
  | none =>
    let (r, inner) := oracle i c.inner
    match r.delayed elapsed with
    | .error overflow => pure (.error overflow, { c with inner }, s)
    | .ok r =>
      let (c, s) ← settle { c with inner } s i r
      pure (.ok r, c, s)

end Client

end Repack
