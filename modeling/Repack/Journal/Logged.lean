import Repack.Journal.Event

/-!
Computations that keep a journal. `Logged` only records; an `Attempt` may also fail, and keeps what
it recorded before; an `Action` is an attempt that changes a state, and a failure keeps the state
reached. Main statements: what each of them returns, leaves and records for a sequence, in terms of
its parts.
-/
namespace Repack

open Journal

/-- A value, and the events recorded on the way to it. -/
structure Logged (α : Type) where
  value : α
  events : List Event
  deriving DecidableEq

namespace Logged

instance : Monad Logged where
  pure a := ⟨a, []⟩
  bind x f := ⟨(f x.value).value, x.events ++ (f x.value).events⟩

def log (e : Event) : Logged Unit := ⟨(), [e]⟩

variable {α β : Type}

@[simp] theorem value_pure (a : α) : (pure a : Logged α).value = a := rfl

@[simp] theorem events_pure (a : α) : (pure a : Logged α).events = [] := rfl

@[simp] theorem value_bind (x : Logged α) (f : α → Logged β) :
    (x >>= f).value = (f x.value).value := rfl

@[simp] theorem events_bind (x : Logged α) (f : α → Logged β) :
    (x >>= f).events = x.events ++ (f x.value).events := rfl

@[simp] theorem value_log (e : Event) : (log e).value = () := rfl

@[simp] theorem events_log (e : Event) : (log e).events = [e] := rfl

theorem ext {x y : Logged α} (hv : x.value = y.value) (he : x.events = y.events) : x = y := by
  cases x
  cases y
  cases hv
  cases he
  rfl

@[simp] theorem value_map (g : α → β) (x : Logged α) : (g <$> x).value = g x.value := rfl

@[simp] theorem events_map (g : α → β) (x : Logged α) : (g <$> x).events = x.events :=
  List.append_nil _

instance : LawfulMonad Logged :=
  LawfulMonad.mk' Logged (fun _ => ext rfl (List.append_nil _)) (fun _ _ => ext rfl rfl)
    (fun _ _ _ => ext rfl (List.append_assoc _ _ _))

end Logged

/-- A computation that records events and may fail. -/
abbrev Attempt := ExceptT Fault Logged

namespace Attempt

variable {α β : Type}

def log (e : Event) : Attempt Unit := ExceptT.lift (Logged.log e)

/-- An answer that needs no journal. -/
def ofExcept (r : Except Fault α) : Attempt α := ExceptT.mk (pure r)

def result (x : Attempt α) : Except Fault α := x.run.value

def events (x : Attempt α) : List Event := x.run.events

@[simp] theorem result_pure (a : α) : result (pure a) = .ok a := rfl

@[simp] theorem events_pure (a : α) : events (pure a) = [] := rfl

@[simp] theorem result_throw (f : Fault) : result (throw f : Attempt α) = .error f := rfl

@[simp] theorem events_throw (f : Fault) : events (throw f : Attempt α) = [] := rfl

@[simp] theorem result_log (e : Event) : result (log e) = .ok () := rfl

@[simp] theorem events_log (e : Event) : events (log e) = [e] := List.append_nil _

@[simp] theorem result_ofExcept (r : Except Fault α) : result (ofExcept r) = r := rfl

@[simp] theorem events_ofExcept (r : Except Fault α) : events (ofExcept r) = [] := rfl

theorem run_bind (x : Attempt α) (f : α → Attempt β) :
    (x >>= f).run = x.run >>= fun
      | .ok a => (f a).run
      | .error e => pure (.error e) := by
  refine congrArg (x.run >>= ·) (funext fun r => ?_)
  cases r <;> rfl

@[simp] theorem result_bind (x : Attempt α) (f : α → Attempt β) :
    result (x >>= f) = x.result.bind fun a => (f a).result := by
  simp only [result, run_bind, Logged.value_bind]
  cases x.run.value <;> rfl

theorem events_bind (x : Attempt α) (f : α → Attempt β) :
    events (x >>= f) = x.events ++ x.result.toOption.elim [] fun a => (f a).events := by
  simp only [events, result, run_bind, Logged.events_bind]
  cases x.run.value <;> rfl

end Attempt

/-- A computation on a state of type `σ` that records events and may fail. -/
abbrev Action (σ : Type) := ExceptT Fault (StateT σ Logged)

namespace Action

variable {σ τ α β : Type}

/-- The answer and the state reached, with the events on the way. -/
def exec (x : Action σ α) (s : σ) : Logged (Except Fault α × σ) := (x.run).run s

def result (x : Action σ α) (s : σ) : Except Fault α := (x.exec s).value.1

def after (x : Action σ α) (s : σ) : σ := (x.exec s).value.2

def events (x : Action σ α) (s : σ) : List Event := (x.exec s).events

/-- An attempt that looks at the state and leaves it. -/
def query (f : σ → Attempt α) : Action σ α :=
  ExceptT.mk fun s => do
    let r ← (f s).run
    pure (r, s)

def log (e : Event) : Action σ Unit := query fun _ => Attempt.log e

/-- An action on a part of the state. -/
def zoom (get : σ → τ) (set : τ → σ → σ) (x : Action τ α) : Action σ α :=
  ExceptT.mk fun s => do
    let (r, t) ← x.exec (get s)
    pure (r, set t s)

theorem exec_bind (x : Action σ α) (f : α → Action σ β) (s : σ) :
    exec (x >>= f) s = x.exec s >>= fun
      | (.ok a, t) => (f a).exec t
      | (.error e, t) => pure (.error e, t) := by
  change (ExceptT.run x s >>= fun r => (ExceptT.bindCont f r.1).run r.2) = _
  refine congrArg (x.exec s >>= ·) (funext fun r => ?_)
  obtain ⟨_ | _, _⟩ := r <;> rfl

@[simp] theorem exec_pure (a : α) (s : σ) : exec (pure a) s = pure (.ok a, s) := rfl

@[simp] theorem exec_throw (f : Fault) (s : σ) :
    exec (throw f : Action σ α) s = pure (.error f, s) := rfl

@[simp] theorem exec_query (f : σ → Attempt α) (s : σ) :
    exec (query f) s = (f s).run >>= fun r => pure (r, s) := rfl

@[simp] theorem exec_zoom (get : σ → τ) (set : τ → σ → σ) (x : Action τ α) (s : σ) :
    exec (zoom get set x) s = x.exec (get s) >>= fun r => pure (r.1, set r.2 s) := rfl

@[simp] theorem exec_get (s : σ) : exec (get : Action σ σ) s = pure (.ok s, s) := rfl

@[simp] theorem exec_set (t s : σ) : exec (set t : Action σ Unit) s = pure (.ok (), t) := rfl

end Action

end Repack
