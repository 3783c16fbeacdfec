import Repack.Proofs.Journal.Outcome

/-! What attempts and actions record, for a reader who asks for some of the events only. To such a
reader a computation is quiet if it leaves no line whenever it succeeds, and what is put together
from quiet parts is quiet. -/
namespace Repack

open Journal (Event)

variable {α β : Type} {q : Event → Bool}

namespace Attempt

theorem events_bind_ok {x : Attempt α} {f : α → Attempt β} {a : α} (first : x.result = .ok a) :
    (x >>= f).events = x.events ++ (f a).events := by
  rw [events_bind, first]
  rfl

/-- An attempt that succeeds records nothing that is asked for. -/
def Quiet (q : Event → Bool) (x : Attempt α) : Prop :=
  ∀ a, x.result = .ok a → x.events.filter q = []

theorem quiet_pure (a : α) : Quiet q (pure a : Attempt α) := fun _ _ => rfl

theorem quiet_log {e : Event} (unasked : q e = false) : Quiet q (log e) := fun _ _ => by
  simp [unasked]

theorem quiet_ofExcept (r : Except Fault α) : Quiet q (ofExcept r) := fun _ _ => rfl

/-- What never succeeds is quiet. -/
theorem quiet_of_error {x : Attempt α} {f : Fault} (fails : x.result = .error f) : Quiet q x := by
  intro a succeeded
  rw [fails] at succeeded
  cases succeeded

theorem Quiet.bind {x : Attempt α} {f : α → Attempt β} (first : Quiet q x)
    (rest : ∀ a, Quiet q (f a)) : Quiet q (x >>= f) := by
  intro b ended
  obtain ⟨a, began, ended⟩ := exists_of_result_bind ended
  rw [events_bind_ok began, List.filter_append, first a began, rest a b ended]
  rfl

theorem quiet_mapM {f : α → Attempt β} (each : ∀ a, Quiet q (f a)) (l : List α) :
    Quiet q (l.mapM f) := by
  induction l with
  | nil => exact quiet_pure []
  | cons a rest ih =>
    rw [List.mapM_cons]
    exact (each a).bind fun _ => ih.bind fun _ => quiet_pure _

theorem quiet_foldlM {f : β → α → Attempt β} (each : ∀ b a, Quiet q (f b a)) (l : List α) (b : β) :
    Quiet q (l.foldlM f b) := by
  induction l generalizing b with
  | nil => exact quiet_pure b
  | cons a rest ih =>
    rw [List.foldlM_cons]
    exact (each b a).bind ih

end Attempt

namespace Action

variable {σ τ : Type}

@[simp] theorem events_query (f : σ → Attempt α) (s : σ) :
    events (query f) s = (f s).events := List.append_nil _

@[simp] theorem events_zoom (get : σ → τ) (set : τ → σ → σ) (x : Action τ α) (s : σ) :
    events (zoom get set x) s = x.events (get s) := List.append_nil _

theorem events_bind_ok {x : Action σ α} {f : α → Action σ β} {s t : σ} {a : α}
    (first : x.outcome s = (.ok a, t)) :
    (x >>= f).events s = x.events s ++ (f a).events t := by
  have value : (x.exec s).value = (.ok a, t) := first
  rw [events, exec_bind, Logged.events_bind, value]
  rfl

@[simp] theorem events_withLock (lock : Journal.Lock) (x : Action σ α) (s : σ) :
    (withLock lock x).events s = .locked lock :: x.events s := events_bind_ok (outcome_log _ s)

/-- An action that succeeds records nothing that is asked for. -/
def Quiet (q : Event → Bool) (x : Action σ α) : Prop :=
  ∀ s a t, x.outcome s = (.ok a, t) → (x.events s).filter q = []

theorem quiet_pure (a : α) : Quiet q (pure a : Action σ α) := fun _ _ _ _ => rfl

theorem quiet_get : Quiet q (get : Action σ σ) := fun _ _ _ _ => rfl

theorem quiet_set (t : σ) : Quiet q (set t : Action σ Unit) := fun _ _ _ _ => rfl

theorem quiet_query {f : σ → Attempt α} (each : ∀ s, (f s).Quiet q) : Quiet q (query f) := by
  intro s a t ended
  rw [events_query]
  exact each s a (result_of_outcome ended)

/-- What never succeeds is quiet. -/
theorem quiet_of_error {x : Action σ α} {f : Fault} (fails : ∀ s, x.result s = .error f) :
    Quiet q x := by
  intro s a t ended
  have succeeded := result_of_outcome ended
  rw [fails s] at succeeded
  cases succeeded

theorem Quiet.bind {x : Action σ α} {f : α → Action σ β} (first : Quiet q x)
    (rest : ∀ a, Quiet q (f a)) : Quiet q (x >>= f) := by
  intro s b t ended
  rw [outcome_bind] at ended
  match began : x.outcome s with
  | (.ok a, u) =>
    rw [began] at ended
    rw [events_bind_ok began, List.filter_append, first s a u began, rest a u b t ended]
    rfl
  | (.error e, u) =>
    rw [began] at ended
    cases ended

theorem Quiet.discard {x : Action σ α} (inner : Quiet q x) : Quiet q (discard x) := by
  rw [discard_eq_bind]
  exact inner.bind fun _ => quiet_pure _

theorem quiet_forM {f : α → Action σ PUnit} (each : ∀ a, Quiet q (f a)) (l : List α) :
    Quiet q (l.forM f) := by
  induction l with
  | nil => exact quiet_pure _
  | cons a rest ih => exact (each a).bind fun _ => ih

end Action

end Repack
