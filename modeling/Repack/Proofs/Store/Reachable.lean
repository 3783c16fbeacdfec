import Repack.Client
import Repack.Proofs.Entry
import Repack.Proofs.Index.Reachable
import Repack.Store.Saved

/-! The stores that operations reach. What no call on an index can break holds of both indices of
every store that is reached, and a property of all stored entries holds as long as every entry that
is added has it. -/
namespace Repack

open Repack.Action (Preserves)

namespace Store

/-- What holds of the index of solutions, and what of that of refutations. -/
structure Both (A : Index Station Solution → Prop) (B : Index Station Refutation → Prop)
    (s : Store) : Prop where
  solutions : A s.solutions
  refutations : B s.refutations

section Both

variable {A : Index Station Solution → Prop} {B : Index Station Refutation → Prop} {α : Type}

theorem both_onSolutions {x : Action (Index Station Solution) α} (inner : Preserves A x) :
    Preserves (Both A B) (onSolutions x) :=
  Action.preserves_zoom inner (fun _ kept => kept.solutions)
    fun _ _ kept part => ⟨part, kept.refutations⟩

theorem both_onRefutations {x : Action (Index Station Refutation) α} (inner : Preserves B x) :
    Preserves (Both A B) (onRefutations x) :=
  Action.preserves_zoom inner (fun _ kept => kept.refutations)
    fun _ _ kept part => ⟨kept.solutions, part⟩

theorem both_insert {e : Entry}
    (solution : ∀ a, e = .solution a → Preserves A (Index.insert a))
    (refutation : ∀ a, e = .refutation a → Preserves B (Index.insert a)) :
    Preserves (Both A B) (insert e) := by
  cases e with
  | solution a =>
    exact (Action.preserves_log _).bind fun _ =>
      both_onSolutions ((solution a rfl).withLock .write)
  | refutation a =>
    exact (Action.preserves_log _).bind fun _ =>
      both_onRefutations ((refutation a rfl).withLock .write)

theorem both_erase {e : Entry} (solution : ∀ a, Preserves A (Index.erase a))
    (refutation : ∀ a, Preserves B (Index.erase a)) : Preserves (Both A B) (erase e) := by
  cases e with
  | solution a => exact both_onSolutions ((solution a).withLock .write)
  | refutation a => exact both_onRefutations ((refutation a).withLock .write)

theorem both_issueKey (stem : String) : Preserves (Both A B) (issueKey stem) :=
  fun _ kept => ⟨kept.solutions, kept.refutations⟩

theorem preserves_record {P : Store → Prop} {i : Instance} {r : Finding} {key : String}
    (inserted : ∀ e, (entryOf i r key).result = .ok e → Preserves P (insert e)) :
    Preserves P (record i r key) := by
  intro s kept
  rw [record, Action.after_bind]
  cases made : (Action.query fun _ => entryOf i r key).result s with
  | error => exact kept
  | ok e =>
    have added : Preserves P (do let _ ← insert e; pure e) :=
      (inserted e made).bind fun _ => Action.preserves_pure e
    exact added s kept

theorem both_pruneSolutions
    (inner : ∀ interval, Preserves A (Index.prune .sat .supersets Solution.subsumes interval)) :
    Preserves (Both A B) pruneSolutions := by
  refine Action.preserves_get.bind ?_
  intro s
  exact both_onSolutions (inner _)

theorem both_pruneRefutations
    (inner : ∀ interval, Preserves B (Index.prune .unsat .subsets Refutation.subsumes interval)) :
    Preserves (Both A B) pruneRefutations := by
  refine Action.preserves_get.bind ?_
  intro s
  exact both_onRefutations (inner _)

theorem preserves_entries {P : Store → Prop} : Preserves P entries := fun _ kept => kept

end Both

/-- The calls that a store takes, also on one of its indices. -/
inductive Operation : {α : Type} → Action Store α → Prop
  | insert (e : Entry) : Operation (insert e)
  | insertAll (l : List Entry) : Operation (insertAll l)
  | erase (e : Entry) : Operation (erase e)
  | contains (e : Entry) : Operation (contains e)
  | entries : Operation entries
  | record (i : Instance) (r : Finding) (key : String) : Operation (record i r key)
  | issueKey (stem : String) : Operation (issueKey stem)
  | proveSat (i : Instance) (ignore : Solution → Bool) : Operation (proveSat i ignore)
  | proveUnsat (i : Instance) : Operation (proveUnsat i)
  | lookup (i : Instance) : Operation (lookup i)
  | seeds (i : Instance) (k : Nat) : Operation (seeds i k)
  | pruneSolutions : Operation pruneSolutions
  | pruneRefutations : Operation pruneRefutations
  | saved (lib : Library) : Operation (saved lib)
  | restore (lib : Library) (text : String) : Operation (restore lib text)
  | onSolutions {α : Type} {x : Action (Index Station Solution) α} (inner : Index.Operation x) :
    Operation (onSolutions x)
  | onRefutations {α : Type} {x : Action (Index Station Refutation) α}
    (inner : Index.Operation x) : Operation (onRefutations x)

/-- What may be asked of a store, apart from a key. -/
inductive Call
  | insert (e : Entry)
  | erase (e : Entry)
  | contains (e : Entry)
  | entries
  | record (i : Instance) (r : Finding) (key : String)
  | proveSat (i : Instance) (ignore : Solution → Bool)
  | proveUnsat (i : Instance)
  | lookup (i : Instance)
  | seeds (i : Instance) (k : Nat)
  | pruneSolutions
  | pruneRefutations

namespace Call

def Answer : Call → Type
  | insert _ | erase _ | contains _ => Bool
  | entries => List Entry
  | record _ _ _ => Entry
  | proveSat _ _ => Option SatProof
  | proveUnsat _ => Option String
  | lookup _ => Verdict
  | seeds _ _ | pruneSolutions => List Solution
  | pruneRefutations => List Refutation

def perform : (call : Call) → Action Store call.Answer
  | insert e => Store.insert e
  | erase e => Store.erase e
  | contains e => Store.contains e
  | entries => Store.entries
  | record i r key => Store.record i r key
  | proveSat i ignore => Store.proveSat i ignore
  | proveUnsat i => Store.proveUnsat i
  | lookup i => Store.lookup i
  | seeds i k => Store.seeds i k
  | pruneSolutions => Store.pruneSolutions
  | pruneRefutations => Store.pruneRefutations

end Call

theorem Operation.preserves {A : Index Station Solution → Prop}
    {B : Index Station Refutation → Prop} (closedA : Index.Closed A) (closedB : Index.Closed B)
    {α : Type} {x : Action Store α} (op : Operation x) : Preserves (Both A B) x := by
  have inserted (e : Entry) : Preserves (Both A B) (Store.insert e) :=
    both_insert (fun a _ => closedA.insert a) fun a _ => closedB.insert a
  have pruned := Index.preserves_prune closedA.erase
  have pruned' := Index.preserves_prune closedB.erase
  cases op with
  | insert e => exact inserted e
  | insertAll l => exact Action.preserves_mapM fun e _ => inserted e
  | erase e => exact both_erase closedA.erase closedB.erase
  | contains e => cases e <;> exact fun _ kept => kept
  | entries => exact preserves_entries
  | record i r key => exact preserves_record fun e _ => inserted e
  | issueKey stem => exact both_issueKey stem
  | proveSat i ignore => exact fun _ kept => kept
  | proveUnsat i => exact fun _ kept => kept
  | lookup i => exact fun _ kept => kept
  | seeds i k =>
    refine (Action.preserves_query _).bind fun _ => Action.preserves_get.bind fun s => ?_
    exact Preserves.bind (fun _ kept => kept) fun l => Action.preserves_pure _
  | pruneSolutions => exact both_pruneSolutions (pruned _ _ _)
  | pruneRefutations => exact both_pruneRefutations (pruned' _ _ _)
  | saved lib => exact preserves_entries.bind fun _ => Action.preserves_pure _
  | restore lib text => exact Action.preserves_mapM fun e _ => inserted e
  | onSolutions inner => exact both_onSolutions (inner.preserves closedA)
  | onRefutations inner => exact both_onRefutations (inner.preserves closedB)

/-- Both indices are over a permutation, and file entries with a property only. -/
structure Keeps (p : Permutation Station) (V : Entry → Prop) (s : Store) : Prop where
  solutions : s.solutions.Keeps p fun a => V (.solution a)
  refutations : s.refutations.Keeps p fun a => V (.refutation a)

section Keeps

variable {p : Permutation Station} {V : Entry → Prop} {α : Type}

theorem keeps_empty (settings : Settings) : (empty settings p).Keeps p V :=
  ⟨Index.keeps_empty, Index.keeps_empty⟩

theorem preserves_keeps {x : Action Store α}
    (both : Preserves (Both (Index.Keeps p fun a => V (.solution a))
      (Index.Keeps p fun a => V (.refutation a))) x) : Preserves (Keeps p V) x := by
  intro s kept
  obtain ⟨solutions, refutations⟩ := both s ⟨kept.solutions, kept.refutations⟩
  exact ⟨solutions, refutations⟩

theorem preserves_insert {e : Entry} (valid : V e) : Preserves (Keeps p V) (insert e) :=
  preserves_keeps (both_insert (fun _ same => Index.preserves_insert (same ▸ valid))
    fun _ same => Index.preserves_insert (same ▸ valid))

theorem preserves_erase (e : Entry) : Preserves (Keeps p V) (erase e) :=
  preserves_keeps (both_erase Index.preserves_erase Index.preserves_erase)

theorem preserves_issueKey (stem : String) : Preserves (Keeps p V) (issueKey stem) :=
  preserves_keeps (both_issueKey stem)

theorem preserves_pruneSolutions : Preserves (Keeps p V) pruneSolutions :=
  preserves_keeps (both_pruneSolutions (Index.preserves_prune Index.preserves_erase _ _ _))

theorem preserves_pruneRefutations : Preserves (Keeps p V) pruneRefutations :=
  preserves_keeps (both_pruneRefutations (Index.preserves_prune Index.preserves_erase _ _ _))

end Keeps

end Store

namespace Client

variable {σ : Type} {s : Store}

theorem value_consult (s : Store) (i : Instance) (elapsed : Duration) :
    (consult s i elapsed).value = match (Store.lookup i).result s with
      | .ok (.satisfiable a _) => some ⟨.satisfiable, some a, bySolution, elapsed⟩
      | .ok (.unsatisfiable _) => some ⟨.unsatisfiable, none, byRefutation, elapsed⟩
      | .ok .unknown | .error _ => none := by
  rw [consult, Logged.value_bind, Action.result]
  generalize ((Store.lookup i).exec s).value = answered
  obtain ⟨_ | v, _⟩ := answered
  · rfl
  · cases v <;> rfl

def recording (i : Instance) (r : Finding) : Action Store Entry := do
  let key ← Store.issueKey (i.name.getD "instance")
  Store.record i r key

theorem value_settle (c : Client σ) (s : Store) (i : Instance) (r : Finding) :
    (c.settle s i r).value =
      if r.report.decides then
        match (recording i r).outcome s with
        | (.ok _, t) => ({ c with recorded := c.recorded + 1 }, t)
        | (.error _, t) => (c, t)
      else (c, s) := by
  rw [settle]
  cases r.report.decides with
  | false => rfl
  | true =>
    simp only [Bool.not_true, Bool.false_eq_true, if_false, if_true, Logged.value_bind]
    rw [Action.outcome, recording]
    generalize Logged.value (Action.exec _ s) = answered
    obtain ⟨_ | _, _⟩ := answered <;> rfl

theorem value_solve (oracle : Oracle σ) (c : Client σ) (s : Store) (i : Instance)
    (elapsed : Duration) : (c.solve oracle s i elapsed).value =
      match (consult s i elapsed).value with
      | some r => (.ok r, c, s)
      | none =>
        let worked : Client σ := { c with inner := (oracle i c.inner).2 }
        match (oracle i c.inner).1.delayed elapsed with
        | .error overflow => (.error overflow, worked, s)
        | .ok r => (.ok r, (worked.settle s i r).value) := by
  rw [solve, Logged.value_bind]
  cases (consult s i elapsed).value with
  | some r => rfl
  | none =>
    dsimp only
    cases (oracle i c.inner).1.delayed elapsed <;> rfl

theorem preserves_recording {P : Store → Prop} {i : Instance} {r : Finding}
    (issued : ∀ stem, Preserves P (Store.issueKey stem))
    (inserted : ∀ key e, (Store.entryOf i r key).result = .ok e → Preserves P (Store.insert e)) :
    Preserves P (recording i r) :=
  (issued _).bind fun key => Store.preserves_record (inserted key)

/-- A client changes the store by recording, if at all. -/
theorem preserves_solve {P : Store → Prop} {i : Instance}
    (recorded : ∀ r, Preserves P (recording i r)) (oracle : Oracle σ) (c : Client σ)
    (elapsed : Duration) (kept : P s) : P (c.solve oracle s i elapsed).value.2.2 := by
  rw [value_solve]
  cases (consult s i elapsed).value with
  | some r => exact kept
  | none =>
    dsimp only
    cases (oracle i c.inner).1.delayed elapsed with
    | error overflow => exact kept
    | ok r =>
      have left : P ((recording i r).outcome s).2 := recorded r s kept
      simp only [value_settle]
      split
      · generalize (recording i r).outcome s = ended at left
        obtain ⟨_ | _, t⟩ := ended
        · exact left
        · exact left
      · exact kept

theorem both_solve {A : Index Station Solution → Prop} {B : Index Station Refutation → Prop}
    (closedA : Index.Closed A) (closedB : Index.Closed B) (oracle : Oracle σ) (c : Client σ)
    (i : Instance) (elapsed : Duration) (kept : s.Both A B) :
    (c.solve oracle s i elapsed).value.2.2.Both A B := by
  apply preserves_solve (fun r => preserves_recording Store.both_issueKey ?_) oracle c elapsed kept
  exact fun _ e _ => (Store.Operation.insert e).preserves closedA closedB

end Client

namespace Store

/-- The stores over a permutation that calls and clients reach, under any settings. -/
inductive Reachable (p : Permutation Station) : Store → Prop
  | empty (settings : Settings) : Reachable p (empty settings p)
  | operation {s : Store} {α : Type} {x : Action Store α} :
    Reachable p s → Operation x → Reachable p (x.after s)
  | solve {s : Store} {σ : Type} (oracle : Oracle σ) (c : Client σ) (i : Instance)
    (elapsed : Duration) : Reachable p s → Reachable p (c.solve oracle s i elapsed).value.2.2

variable {p : Permutation Station} {s : Store}

theorem Reachable.both {A : Index Station Solution → Prop} {B : Index Station Refutation → Prop}
    (closedA : Index.Closed A) (closedB : Index.Closed B) (solutions : A (Index.empty p))
    (refutations : B (Index.empty p)) (h : Reachable p s) : s.Both A B := by
  induction h with
  | empty settings => exact ⟨solutions, refutations⟩
  | operation _ op ih => exact op.preserves closedA closedB _ ih
  | solve oracle c i elapsed _ ih => exact Client.both_solve closedA closedB oracle c i elapsed ih

theorem Reachable.keeps (h : Reachable p s) : s.Keeps p fun _ => True := by
  obtain ⟨solutions, refutations⟩ :=
    h.both Index.closed_keeps Index.closed_keeps Index.keeps_empty Index.keeps_empty
  exact ⟨solutions, refutations⟩

theorem Reachable.made (h : Reachable p s) : s.Both (Index.Made p) (Index.Made p) :=
  h.both Index.closed_made Index.closed_made Index.made_empty Index.made_empty

/-- A universe of three stations, not in ascending order. -/
def trio : Permutation Station := ⟨[3, 1, 2], by decide, by decide⟩

/-- A store over three stations with two solutions, one of which extends the other, and a
refutation. -/
def sample : Store :=
  (insert (.refutation (.ofStations [2, 3] "pair"))).after
    ((insert (.solution ⟨.ofList [(1, 14), (2, 15)] compare, "narrow", "test"⟩)).after
      ((insert (.solution ⟨.ofList [(1, 14), (2, 15), (3, 16)] compare, "wide", "test"⟩)).after
        (empty .standard trio)))

theorem reachable_sample : Reachable trio sample :=
  (((Reachable.empty .standard).operation (.insert _)).operation (.insert _)).operation (.insert _)

end Store

end Repack
