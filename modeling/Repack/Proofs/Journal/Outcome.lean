import Repack.Index.Shared

/-! What attempts and actions return and leave, with their events forgotten. An
action is pinned down by its outcome: the answer together with the state left.
What it preserves, how it may fail, and how its runs from related states compare
is put together from its parts. -/
namespace Repack

namespace Attempt

variable {α β : Type}

/-- A fold whose every step succeeds. -/
theorem result_foldlM_ok (f : β → α → Attempt β) (g : β → α → β) {l : List α}
    (each : ∀ b, ∀ a ∈ l, result (f b a) = .ok (g b a)) (b : β) :
    result (l.foldlM f b) = .ok (l.foldl g b) := by
  induction l generalizing b with
  | nil => rfl
  | cons a rest ih =>
    rw [List.foldlM_cons, result_bind, each b a List.mem_cons_self]
    exact ih (fun b a member => each b a (List.mem_cons_of_mem _ member)) (g b a)

theorem result_mapM_ok (f : α → Attempt β) (g : α → β) {l : List α}
    (each : ∀ a ∈ l, result (f a) = .ok (g a)) : result (l.mapM f) = .ok (l.map g) := by
  induction l with
  | nil => rfl
  | cons a rest ih =>
    have tail := ih (fun a member => each a (List.mem_cons_of_mem _ member))
    rw [List.mapM_cons, result_bind, each a List.mem_cons_self]
    simp only [Except.bind, result_bind, tail, result_pure, List.map_cons]

/-- What succeeds has succeeded in its first part. -/
theorem exists_of_result_bind {x : Attempt α} {f : α → Attempt β} {b : β}
    (ended : (x >>= f).result = .ok b) : ∃ a, x.result = .ok a ∧ (f a).result = .ok b := by
  rw [result_bind] at ended
  cases first : x.result with
  | error fault => rw [first] at ended; cases ended
  | ok a => rw [first] at ended; exact ⟨a, rfl, ended⟩

theorem exists_of_result_mapM_cons {f : α → Attempt β} {a : α} {l : List α} {bs : List β}
    (ended : ((a :: l).mapM f).result = .ok bs) :
    ∃ b tail, (f a).result = .ok b ∧ (l.mapM f).result = .ok tail ∧ bs = b :: tail := by
  rw [List.mapM_cons] at ended
  obtain ⟨b, first, ended⟩ := exists_of_result_bind ended
  obtain ⟨tail, others, ended⟩ := exists_of_result_bind ended
  exact ⟨b, tail, first, others, (Except.ok.inj ended).symm⟩

/-- Each step of a map that succeeds gives the value of a partial function. -/
theorem eq_filterMap_of_result_mapM {f : α → Attempt β} {g : α → Option β}
    (each : ∀ a b, (f a).result = .ok b → g a = some b) {l : List α} {bs : List β}
    (ended : (l.mapM f).result = .ok bs) : bs = l.filterMap g := by
  induction l generalizing bs with
  | nil => cases ended; rfl
  | cons a rest ih =>
    obtain ⟨b, tail, first, others, rfl⟩ := exists_of_result_mapM_cons ended
    rw [List.filterMap_cons_some (each a b first), ih others]

/-- A map that succeeds succeeds on each of its steps. -/
theorem exists_ok_of_mapM {f : α → Attempt β} {l : List α} {bs : List β}
    (ended : (l.mapM f).result = .ok bs) : ∀ a ∈ l, ∃ b, (f a).result = .ok b := by
  induction l generalizing bs with
  | nil => simp
  | cons a rest ih =>
    obtain ⟨b, tail, first, others, rfl⟩ := exists_of_result_mapM_cons ended
    exact List.forall_mem_cons.mpr ⟨⟨b, first⟩, ih others⟩

/-- A map that fails fails on the first of its steps that does. -/
theorem exists_split_of_mapM_error {f : α → Attempt β} {l : List α} {fault : Fault}
    (failed : (l.mapM f).result = .error fault) : ∃ before a after, l = before ++ a :: after ∧
      (∀ b ∈ before, ∃ c, (f b).result = .ok c) ∧ (f a).result = .error fault := by
  induction l with
  | nil => cases failed
  | cons a rest ih =>
    rw [List.mapM_cons, result_bind] at failed
    cases first : (f a).result with
    | error e =>
      rw [first] at failed
      cases failed
      exact ⟨[], a, rest, rfl, by simp, first⟩
    | ok b =>
      rw [first, Except.bind, result_bind] at failed
      cases others : (rest.mapM f).result with
      | error e =>
        rw [others] at failed
        cases failed
        obtain ⟨before, c, after, rfl, each, later⟩ := ih others
        refine ⟨a :: before, c, after, rfl, ?_, later⟩
        exact List.forall_mem_cons.mpr ⟨⟨b, first⟩, each⟩
      | ok tail =>
        rw [others] at failed
        cases failed

end Attempt

namespace Action

variable {σ τ α β : Type}

/-- The answer of an action and the state it leaves. -/
def outcome (x : Action σ α) (s : σ) : Except Fault α × σ := (x.exec s).value

theorem outcome_eq (x : Action σ α) (s : σ) : x.outcome s = (x.result s, x.after s) := rfl

theorem result_of_outcome {x : Action σ α} {s t : σ} {r : Except Fault α}
    (h : x.outcome s = (r, t)) : x.result s = r := congrArg Prod.fst h

theorem after_of_outcome {x : Action σ α} {s t : σ} {r : Except Fault α}
    (h : x.outcome s = (r, t)) : x.after s = t := congrArg Prod.snd h

@[simp] theorem outcome_pure (a : α) (s : σ) : outcome (pure a) s = (.ok a, s) := rfl

@[simp] theorem outcome_throw (f : Fault) (s : σ) :
    outcome (throw f : Action σ α) s = (.error f, s) := rfl

@[simp] theorem outcome_get (s : σ) : outcome (get : Action σ σ) s = (.ok s, s) := rfl

@[simp] theorem outcome_set (t s : σ) : outcome (set t : Action σ Unit) s = (.ok (), t) := rfl

@[simp] theorem outcome_query (f : σ → Attempt α) (s : σ) :
    outcome (query f) s = ((f s).result, s) := rfl

@[simp] theorem outcome_log (e : Journal.Event) (s : σ) :
    outcome (log e : Action σ Unit) s = (.ok (), s) := rfl

@[simp] theorem outcome_zoom (get : σ → τ) (set : τ → σ → σ) (x : Action τ α) (s : σ) :
    outcome (zoom get set x) s = ((x.outcome (get s)).1, set (x.outcome (get s)).2 s) := rfl

theorem outcome_bind (x : Action σ α) (f : α → Action σ β) (s : σ) :
    outcome (x >>= f) s =
      match x.outcome s with
      | (.ok a, t) => (f a).outcome t
      | (.error e, t) => (.error e, t) := by
  simp only [outcome, exec_bind, Logged.value_bind]
  obtain ⟨_ | _, _⟩ := (x.exec s).value <;> rfl

theorem outcome_bind_ok {x : Action σ α} {f : α → Action σ β} {s t : σ} {a : α}
    (h : x.outcome s = (.ok a, t)) : outcome (x >>= f) s = (f a).outcome t := by
  rw [outcome_bind, h]

theorem outcome_bind_error {x : Action σ α} {f : α → Action σ β} {s t : σ} {e : Fault}
    (h : x.outcome s = (.error e, t)) : outcome (x >>= f) s = (.error e, t) := by
  rw [outcome_bind, h]

@[simp] theorem outcome_withLock (lock : Journal.Lock) (x : Action σ α) (s : σ) :
    outcome (withLock lock x) s = x.outcome s := rfl

/-- Actions on a part in turn are one action on it. -/
theorem outcome_mapM_zoom {get : σ → τ} {set : τ → σ → σ} (get_set : ∀ t s, get (set t s) = t)
    (set_get : ∀ s, set (get s) s = s) (set_set : ∀ t t' s, set t (set t' s) = set t s)
    {f : α → Action σ β} {g : α → Action τ β}
    (each : ∀ a s, (f a).outcome s = (zoom get set (g a)).outcome s) (l : List α) (s : σ) :
    (l.mapM f).outcome s = (zoom get set (l.mapM g)).outcome s := by
  induction l generalizing s with
  | nil => exact Prod.ext rfl (set_get s).symm
  | cons a rest ih =>
    rw [List.mapM_cons, List.mapM_cons, outcome_zoom, outcome_bind, outcome_bind, each, outcome_zoom]
    rcases (g a).outcome (get s) with ⟨_ | b, t⟩
    · rfl
    · dsimp only
      rw [outcome_bind, outcome_bind, ih, outcome_zoom, get_set]
      rcases (rest.mapM g).outcome t with ⟨_ | bs, t'⟩ <;> exact Prod.ext rfl (set_set t' t s)

theorem discard_eq_bind (x : Action σ α) :
    (discard x : Action σ PUnit) = x >>= fun _ => pure ⟨⟩ := by
  rw [bind_pure_comp]
  exact congrFun (congrFun map_const PUnit.unit) x

theorem outcome_discard (x : Action σ α) (s : σ) : outcome (discard x) s =
    ((x.outcome s).1.map fun _ => ⟨⟩, (x.outcome s).2) := by
  rw [discard_eq_bind, outcome_bind]
  obtain ⟨_ | _, _⟩ := x.outcome s <;> rfl

theorem after_bind (x : Action σ α) (f : α → Action σ β) (s : σ) :
    (x >>= f).after s = match x.result s with
      | .ok a => (f a).after (x.after s)
      | .error _ => x.after s := by
  change (outcome (x >>= f) s).2 = _
  rw [outcome_bind]
  simp only [outcome, result, after]
  obtain ⟨_ | _, _⟩ := (x.exec s).value <;> rfl

theorem result_bind (x : Action σ α) (f : α → Action σ β) (s : σ) :
    (x >>= f).result s = match x.result s with
      | .ok a => (f a).result (x.after s)
      | .error e => .error e := by
  change (outcome (x >>= f) s).1 = _
  rw [outcome_bind]
  simp only [outcome, result, after]
  obtain ⟨_ | _, _⟩ := (x.exec s).value <;> rfl

/-- Whatever an action answers, it leaves a state with a property if it found one. -/
def Preserves (P : σ → Prop) (x : Action σ α) : Prop := ∀ s, P s → P (x.after s)

section Preserves

variable {P : σ → Prop} {Q : τ → Prop}

theorem preserves_pure (a : α) : Preserves P (pure a : Action σ α) := fun _ held => held

theorem preserves_get : Preserves P (get : Action σ σ) := fun _ held => held

theorem preserves_query (f : σ → Attempt α) : Preserves P (query f) := fun _ held => held

theorem preserves_log (e : Journal.Event) : Preserves P (log e) := fun _ held => held

theorem Preserves.withLock {x : Action σ α} (inner : Preserves P x) (lock : Journal.Lock) :
    Preserves P (withLock lock x) := inner

theorem Preserves.bind {x : Action σ α} {f : α → Action σ β} (first : Preserves P x)
    (rest : ∀ a, Preserves P (f a)) : Preserves P (x >>= f) := by
  intro s held
  rw [after_bind]
  cases x.result s with
  | ok a => exact rest a _ (first s held)
  | error => exact first s held

theorem preserves_mapM {f : α → Action σ β} {l : List α} (each : ∀ a ∈ l, Preserves P (f a)) :
    Preserves P (l.mapM f) := by
  induction l with
  | nil => exact preserves_pure []
  | cons a rest ih =>
    rw [List.mapM_cons]
    apply (each a List.mem_cons_self).bind
    intro b
    apply (ih fun a member => each a (List.mem_cons_of_mem _ member)).bind
    intro bs
    exact preserves_pure _

theorem preserves_forM {f : α → Action σ PUnit} {l : List α}
    (each : ∀ a ∈ l, Preserves P (f a)) : Preserves P (l.forM f) := by
  induction l with
  | nil => exact preserves_pure _
  | cons a rest ih =>
    apply (each a List.mem_cons_self).bind
    intro _
    exact ih fun a member => each a (List.mem_cons_of_mem _ member)

theorem Preserves.discard {x : Action σ α} (inner : Preserves P x) : Preserves P (discard x) := by
  intro s held
  have same : (Functor.discard x : Action σ PUnit).after s = x.after s :=
    congrArg Prod.snd (outcome_discard x s)
  rw [same]
  exact inner s held

/-- An action on a part preserves what it preserves of the part. -/
theorem preserves_zoom {get : σ → τ} {set : τ → σ → σ} {x : Action τ α}
    (inner : Preserves Q x) (part : ∀ s, P s → Q (get s)) (whole : ∀ s t, P s → Q t → P (set t s)) :
    Preserves P (zoom get set x) := fun s held => whole s _ held (inner _ (part s held))

end Preserves

/-- From a state with a property an action fails in some ways only. -/
def FailsOnly (P : σ → Prop) (F : Fault → Prop) (x : Action σ α) : Prop :=
  ∀ s, P s → ∀ f, x.result s = .error f → F f

section FailsOnly

variable {P : σ → Prop} {Q : τ → Prop} {F G : Fault → Prop}

/-- An action that always answers fails in no way. -/
theorem failsOnly_of_ok {x : Action σ α} (answers : ∀ s, ∃ a, x.result s = .ok a) :
    FailsOnly P F x := by
  intro s _ f failed
  obtain ⟨a, answer⟩ := answers s
  rw [answer] at failed
  cases failed

theorem failsOnly_pure (a : α) : FailsOnly P F (pure a : Action σ α) :=
  failsOnly_of_ok fun _ => ⟨a, rfl⟩

theorem failsOnly_get : FailsOnly P F (get : Action σ σ) :=
  failsOnly_of_ok fun s => ⟨s, rfl⟩

theorem FailsOnly.mono {x : Action σ α} (h : FailsOnly P F x) (weaker : ∀ f, F f → G f) :
    FailsOnly P G x := fun s held f failed => weaker f (h s held f failed)

theorem FailsOnly.withLock {x : Action σ α} (inner : FailsOnly P F x) (lock : Journal.Lock) :
    FailsOnly P F (withLock lock x) := inner

theorem FailsOnly.bind {x : Action σ α} {f : α → Action σ β} (first : FailsOnly P F x)
    (kept : Preserves P x) (rest : ∀ a, FailsOnly P F (f a)) : FailsOnly P F (x >>= f) := by
  intro s held fault failed
  rw [result_bind] at failed
  cases answered : x.result s with
  | ok a =>
    rw [answered] at failed
    exact rest a _ (kept s held) fault failed
  | error e =>
    rw [answered] at failed
    cases failed
    exact first s held fault answered

theorem failsOnly_mapM {f : α → Action σ β} {l : List α} (each : ∀ a ∈ l, FailsOnly P F (f a))
    (kept : ∀ a ∈ l, Preserves P (f a)) : FailsOnly P F (l.mapM f) := by
  induction l with
  | nil => exact failsOnly_pure []
  | cons a rest ih =>
    rw [List.mapM_cons]
    apply (each a List.mem_cons_self).bind (kept a List.mem_cons_self)
    intro b
    have later := fun a member => kept a (List.mem_cons_of_mem _ member)
    apply (ih (fun a member => each a (List.mem_cons_of_mem _ member)) later).bind
      (preserves_mapM later)
    intro bs
    exact failsOnly_pure _

/-- An action on a part fails as it does on the part alone. -/
theorem failsOnly_zoom {get : σ → τ} {set : τ → σ → σ} {x : Action τ α}
    (inner : FailsOnly Q F x) (part : ∀ s, P s → Q (get s)) : FailsOnly P F (zoom get set x) :=
  fun s held => inner (get s) (part s held)

end FailsOnly

/-- From a state, an action is answered under a condition only; or else it is refused, and leaves
the state as it is. -/
structure Confined (x : Action σ α) (s : σ) (inside : Prop) : Prop where
  answers : inside → ∃ a, x.result s = .ok a
  refused : ¬ inside → x.outcome s = (.error .unknownElement, s)

section Confined

variable {x : Action σ α} {s : σ} {inside : Prop} {f : Fault}

theorem Confined.error_iff (h : x.Confined s inside) :
    x.result s = .error f ↔ f = .unknownElement ∧ ¬ inside := by
  by_cases held : inside
  · obtain ⟨a, answer⟩ := h.answers held
    simp [answer, held]
  · rw [result_of_outcome (h.refused held), Except.error.injEq, eq_comm, iff_self_and]
    exact fun _ => held

theorem Confined.after_eq (h : x.Confined s inside) (failed : x.result s = .error f) :
    x.after s = s := after_of_outcome (h.refused (h.error_iff.mp failed).2)

theorem confined_query {g : σ → Attempt α} (answers : inside → ∃ a, (g s).result = .ok a)
    (refused : ¬ inside → (g s).result = .error .unknownElement) :
    (query g).Confined s inside :=
  ⟨answers, fun outside => by rw [outcome_query, refused outside]⟩

theorem Confined.withLock (h : x.Confined s inside) (lock : Journal.Lock) :
    (withLock lock x).Confined s inside := ⟨h.answers, h.refused⟩

/-- An action on a part is refused as it is on the part alone. -/
theorem Confined.zoom {get : σ → τ} {set : τ → σ → σ} {x : Action τ α}
    (h : x.Confined (get s) inside) (set_get : set (get s) s = s) :
    (zoom get set x).Confined s inside := by
  refine ⟨h.answers, ?_⟩
  intro outside
  rw [outcome_zoom, h.refused outside, set_get]

theorem Confined.log_bind (h : x.Confined s inside) (e : Journal.Event) :
    (do log e; x).Confined s inside := by
  have same : (do log e; x).outcome s = x.outcome s := outcome_bind_ok (outcome_log e s)
  refine ⟨fun held => ?_, fun outside => same.trans (h.refused outside)⟩
  obtain ⟨a, answer⟩ := h.answers held
  exact ⟨a, (congrArg Prod.fst same).trans answer⟩

theorem failsOnly_of_confined {P : σ → Prop} (confined : ∀ s, P s → ∃ inside, x.Confined s inside) :
    FailsOnly P (· = .unknownElement) x := by
  intro s held f failed
  obtain ⟨_, h⟩ := confined s held
  exact (h.error_iff.mp failed).1

end Confined

/-- From related states an action gives answers that look the same, and leaves related states. -/
def Agrees (R : σ → σ → Prop) {γ : Type} (see : α → γ) (x : Action σ α) : Prop :=
  ∀ s t, R s t → (x.result s).map see = (x.result t).map see ∧ R (x.after s) (x.after t)

section Agrees

variable {R : σ → σ → Prop} {Q : τ → τ → Prop} {γ δ : Type} {see : α → γ}

theorem agrees_pure (a : α) : Agrees R see (pure a : Action σ α) :=
  fun _ _ related => ⟨rfl, related⟩

theorem agrees_log (e : Journal.Event) : Agrees R id (log e) := fun _ _ related => ⟨rfl, related⟩

theorem agrees_query {f : σ → Attempt α}
    (same : ∀ s t, R s t → (f s).result.map see = (f t).result.map see) :
    Agrees R see (query f) := fun s t related => ⟨same s t related, related⟩

theorem Agrees.withLock {x : Action σ α} (inner : Agrees R see x) (lock : Journal.Lock) :
    Agrees R see (withLock lock x) := inner

theorem Agrees.bind {x : Action σ α} {f : α → Action σ β} {see : β → γ} (first : Agrees R id x)
    (rest : ∀ a, Agrees R see (f a)) : Agrees R see (x >>= f) := by
  intro s t related
  obtain ⟨same, related⟩ := first s t related
  simp only [Except.map_id, id_eq] at same
  rw [result_bind, result_bind, after_bind, after_bind, ← same]
  cases x.result s with
  | ok a => exact rest a _ _ related
  | error => exact ⟨rfl, related⟩

/-- Less of an answer looks the same too. -/
theorem Agrees.comp {x : Action σ α} (h : Agrees R see x) (less : γ → δ) :
    Agrees R (less ∘ see) x := by
  intro s t related
  obtain ⟨same, related⟩ := h s t related
  have fused (r : Except Fault α) : r.map (less ∘ see) = (r.map see).map less := by
    cases r <;> rfl
  rw [fused, fused, same]
  exact ⟨rfl, related⟩

theorem agrees_zoom {get : σ → τ} {set : τ → σ → σ} {x : Action τ α} (inner : Agrees Q see x)
    (part : ∀ s t, R s t → Q (get s) (get t))
    (whole : ∀ s t a b, R s t → Q a b → R (set a s) (set b t)) :
    Agrees R see (zoom get set x) := by
  intro s t related
  obtain ⟨same, left⟩ := inner _ _ (part s t related)
  exact ⟨same, whole s t _ _ related left⟩

end Agrees

end Action

end Repack
