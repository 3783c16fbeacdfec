import Repack.BitSet.Containment
import Repack.Fault

/-!
The events that a journal records, and the line written for each.
-/
namespace Repack

namespace Journal

/-- How severe an event is, the most severe first. -/
inductive Level
  | error
  | warn
  | info
  | debug
  | trace
  deriving DecidableEq, Repr

namespace Level

def rank : Level → Nat
  | error => 1
  | warn => 2
  | info => 3
  | debug => 4
  | trace => 5

def name : Level → String
  | error => "ERROR"
  | warn => "WARN"
  | info => "INFO"
  | debug => "DEBUG"
  | trace => "TRACE"

end Level

inductive Target
  | index
  | lock
  | satisfiability
  | prune
  | permutation
  | solver
  | settings
  deriving DecidableEq, Repr

def Target.name : Target → String
  | index => "index"
  | lock => "lock"
  | satisfiability => "satisfiability"
  | prune => "prune"
  | permutation => "permutation"
  | solver => "solver"
  | settings => "containment_cache::config::config_option"

/-- A hold on a shared index. -/
inductive Lock
  | read
  | write
  | upgradable
  deriving DecidableEq, Repr

inductive Kind
  | sat
  | unsat
  deriving DecidableEq, Repr

def Kind.name : Kind → String
  | sat => "SAT"
  | unsat => "UNSAT"

inductive Event
  | emptyUniverse
  | missingPosition (position : Nat)
  | unknownElement
  | outOfBounds (setting : String)
  | queried (containment : Containment) (bits : BitSet)
  | alreadyPresent
  | unpairedSets (sets buckets : Nat)
  | miscounted (counted expected : Nat)
  | missingBucket (bits : BitSet)
  | missingFromOrder (bits : BitSet)
  | locked (lock : Lock)
  | adding (kind : Kind) (key : String) (stations : Nat)
  | proven (kind : Kind) (key : String)
  | unproven (kind : Kind)
  | missingAssignment
  | missingChannel (station : Station)
  | inconclusive (report : Report)
  | scanned (done total marked : Nat)
  | redundant
  | pruned (kind : Kind) (removed : Nat)
  | hit (kind : Kind) (key : String)
  | miss
  | lookupFailed (fault : Fault)
  | notRecorded (fault : Fault)
  deriving DecidableEq

namespace Event

def level : Event → Level
  | emptyUniverse | missingPosition _ | unpairedSets _ _ | miscounted _ _ | missingBucket _
  | missingFromOrder _ => .error
  | unknownElement | outOfBounds _ | missingAssignment | missingChannel _ | inconclusive _
  | lookupFailed _ | notRecorded _ => .warn
  | adding _ _ _ | scanned _ _ _ | pruned _ _ | hit _ _ => .info
  | proven _ _ | miss => .debug
  | queried _ _ | alreadyPresent | locked _ | unproven _ | redundant => .trace

def target : Event → Target
  | emptyUniverse | missingPosition _ | unknownElement => .permutation
  | outOfBounds _ => .settings
  | queried _ _ | alreadyPresent | unpairedSets _ _ | miscounted _ _ | missingBucket _
  | missingFromOrder _ => .index
  | locked _ => .lock
  | adding _ _ _ | proven _ _ | unproven _ | missingAssignment | missingChannel _
  | inconclusive _ => .satisfiability
  | scanned _ _ _ | redundant | pruned _ _ => .prune
  | hit _ _ | miss | lookupFailed _ | notRecorded _ => .solver

def text : Event → String
  | emptyUniverse => "Permutation over an empty universe"
  | missingPosition position => s!"No element is mapped to position {position}"
  | unknownElement => "Element outside of the permutation"
  | outOfBounds setting => s!"Value for {setting} is out of bounds"
  | queried containment bits => s!"{containment} query on {bits}"
  | alreadyPresent => "Entry already present"
  | unpairedSets sets buckets => s!"{sets} ordered sets, {buckets} buckets"
  | miscounted counted expected => s!"Counted {counted} entries, expected {expected}"
  | missingBucket bits => s!"No bucket for indexed set {bits}"
  | missingFromOrder bits => s!"Bucket for {bits} without an ordered set"
  | locked .read => "Read lock"
  | locked .write => "Write lock"
  | locked .upgradable => "Upgradable read lock"
  | adding kind key stations => s!"{kind.name} entry {key} over {stations} stations"
  | proven .sat key => s!"Satisfiable by {key}"
  | proven .unsat key => s!"Unsatisfiable by {key}"
  | unproven .sat => "No SAT superset"
  | unproven .unsat => "No UNSAT subset"
  | missingAssignment => "Satisfiable result without an assignment"
  | missingChannel station => s!"No channel for station {station}"
  | inconclusive report => s!"Attempt to record an {report} result"
  | scanned done total marked => s!"Scanned {done} of {total} entries, {marked} redundant"
  | redundant => "Redundant entry"
  | pruned kind removed => s!"Pruned {removed} {kind.name} entries"
  | hit .sat key => s!"Satisfiable from cached entry {key}"
  | hit .unsat key => s!"Unsatisfiable from cached entry {key}"
  | miss => "Cache miss"
  | lookupFailed fault => s!"Cache lookup failed: {fault}"
  | notRecorded fault => s!"Result not recorded: {fault}"

end Event

/-- Which events a reader of the journal asks for: those severe enough, and of the listed targets if
any are listed. -/
structure Filter where
  /-- The least severe level wanted; nothing is wanted at `none`. -/
  level : Option Level
  targets : Option (List String)

def Filter.wants (f : Filter) (e : Event) : Bool :=
  (f.level.elim false fun l => e.level.rank ≤ l.rank) &&
    f.targets.elim true fun names => names.contains e.target.name

end Journal

end Repack
