import Mathlib.Algebra.BigOperators.Group.Finset.Piecewise
import Repack.Proofs.Session.Errands
import Repack.Proofs.Store.Ledger

/-! The accounts of clients that share a store. However their calls fall between those of others,
and whatever their own solvers say, the clients have recorded what is stored and what was pruned,
each entry under a key of its own, and a key was taken for every result that decides and was not
lost to an overflow of its time. -/
namespace Repack

/-- The ledger of a store, with what its clients were told by their own solvers, and what others
took. -/
structure Account extends Ledger where
  /-- The number of results that decide. -/
  conclusive : Nat := 0
  /-- The number of keys issued to others than clients. -/
  direct : Nat := 0
  /-- The number of results that decide, and whose time does not fit. -/
  lost : Nat := 0

namespace Phase

/-- The key in hand. -/
def key? : Phase → Option String
  | named _ _ key => some key
  | idle | missed _ _ | decided _ _ => none

/-- The number of keys to be taken. -/
def due : Phase → Nat
  | decided _ _ => 1
  | idle | missed _ _ | named _ _ _ => 0

end Phase

/-- What the clients have in hand: keys that were issued, and are not recorded under, each in the
hands of one client. -/
structure Ledger.Hands {ι : Type} (phases : ι → Phase) (l : Ledger) : Prop where
  ready : ∀ n key, (phases n).key? = some key →
    key ∈ l.issued ∧ key ∉ l.recorded.map Entry.key
  apart : ∀ n m key, (phases n).key? = some key → (phases m).key? = some key → n = m

section Hands

variable {ι : Type} {phases : ι → Phase} {l : Ledger}

theorem Ledger.Hands.mono (h : l.Hands phases) {m : Ledger} (issued : l.issued ⊆ m.issued)
    (recorded : m.recorded = l.recorded) : m.Hands phases where
  ready := by
    intro n key held
    rw [recorded]
    exact (h.ready n key held).imp_left fun member => issued member
  apart := h.apart

variable [DecidableEq ι] {n : ι} {phase : Phase}

theorem key?_update (m : ι) : (Function.update phases n phase m).key? =
    if m = n then phase.key? else (phases m).key? := by
  rw [Function.update_apply]
  split <;> rfl

/-- A client that has no key in hand any more. -/
theorem Ledger.Hands.release (h : l.Hands phases) (keyless : phase.key? = none) :
    l.Hands (Function.update phases n phase) := by
  have others {m : ι} {key : String} (held : (Function.update phases n phase m).key? = some key) :
      (phases m).key? = some key := by
    rw [key?_update, keyless] at held
    split at held
    · cases held
    · exact held
  exact ⟨fun m key held => h.ready m key (others held),
    fun m k key held held' => h.apart m k key (others held) (others held')⟩

/-- A client that took a new key. -/
theorem Ledger.Hands.take (h : l.Hands phases) {key : String} (taken : phase.key? = some key)
    (fresh : key ∉ l.issued) (known : ∀ e ∈ l.recorded, e.key ∈ l.issued) :
    { l with issued := l.issued ++ [key] }.Hands (Function.update phases n phase) := by
  have unheld (m : ι) : (phases m).key? ≠ some key := fun held => fresh (h.ready m key held).1
  constructor
  -- Each entry on record is under a key that was issued before, so not under the new one.
  · intro m k held
    rw [key?_update, taken] at held
    split at held
    · obtain rfl := Option.some.inj held
      refine ⟨List.mem_append_right _ List.mem_cons_self, ?_⟩
      intro used
      obtain ⟨e, member, own⟩ := List.mem_map.mp used
      exact fresh (own ▸ known e member)
    · exact (h.ready m k held).imp_left (List.mem_append_left _)
  · intro m m' k held held'
    rw [key?_update, taken] at held held'
    split at held <;> split at held'
    · next first second => exact first.trans second.symm
    · exact absurd (held'.trans held.symm) (unheld m')
    · exact absurd (held.trans held'.symm) (unheld m)
    · exact h.apart m m' k held held'

/-- A client that recorded an entry under its key. -/
theorem Ledger.Hands.record (h : l.Hands phases) (keyless : phase.key? = none) {e : Entry}
    (own : (phases n).key? = some e.key) :
    { l with recorded := l.recorded ++ [e] }.Hands (Function.update phases n phase) where
  ready := by
    intro m key held
    rw [key?_update, keyless] at held
    split at held
    · cases held
    · next other =>
      obtain ⟨issued, unused⟩ := h.ready m key held
      refine ⟨issued, ?_⟩
      rw [List.map_append, List.mem_append, not_or]
      refine ⟨unused, ?_⟩
      intro same
      obtain rfl : key = e.key := by simpa using same
      exact other (h.apart m n _ held own)
  apart := (h.release keyless).apart

end Hands

namespace System

variable {ι : Type} {σ : ι → Type}

/-- The dealing with the store that a move makes. -/
def deal? (s : System ι σ) : Move ι → Option Store.Deal
  | .proceed n =>
    match s.phases n with
    | .decided i _ => some (.issueKey (i.name.getD "instance"))
    | .named i r key => some (.record i r key)
    | .idle | .missed _ _ => none
  | .issueKey stem => some (.issueKey stem)
  | .pruneSolutions => some .pruneSolutions
  | .pruneRefutations => some .pruneRefutations
  | .ask _ _ _ | .insert _ | .erase _ => none

/-- What a client's own solver finds in a move, and for how long the client waited before. -/
def finds? (oracle : (n : ι) → Oracle (σ n)) (s : System ι σ) : Move ι → Option (Finding × Duration)
  | .proceed n =>
    match s.phases n with
    | .missed i elapsed => some ((oracle n i (s.clients n).inner).1, elapsed)
    | .idle | .decided _ _ | .named _ _ _ => none
  | _ => none

/-- Whether a client's own solver decides an instance in a move. -/
def concludes (oracle : (n : ι) → Oracle (σ n)) (s : System ι σ) (move : Move ι) : Bool :=
  (s.finds? oracle move).any fun found => found.1.report.decides

/-- Whether what it decides is lost, as the time does not fit. -/
def loses (oracle : (n : ι) → Oracle (σ n)) (s : System ι σ) (move : Move ι) : Bool :=
  (s.finds? oracle move).any fun found =>
    found.1.report.decides && !decide (found.1.runtime.Fits found.2)

end System

/-- Whether a move leaves it to clients to add entries, and to pruning to remove them. -/
def Move.Ordinary {ι : Type} : Move ι → Prop
  | .insert _ | .erase _ => False
  | .ask _ _ _ | .proceed _ | .issueKey _ | .pruneSolutions | .pruneRefutations => True

/-- The number of keys that a move takes for no client. -/
def Move.direct {ι : Type} : Move ι → Nat
  | .issueKey _ => 1
  | _ => 0

namespace Account

variable {ι : Type} {σ : ι → Type} [DecidableEq ι]

/-- Writes down one move. -/
def note (oracle : (n : ι) → Oracle (σ n)) (s : System ι σ) (a : Account) (move : Move ι) :
    Account where
  toLedger := (s.deal? move).elim a.toLedger (a.enter s.store)
  conclusive := a.conclusive + (s.concludes oracle move).toNat
  direct := a.direct + move.direct
  lost := a.lost + (s.loses oracle move).toNat

/-- Writes down the moves of a run. -/
def notes (oracle : (n : ι) → Oracle (σ n)) (s : System ι σ) (a : Account) : List (Move ι) → Account
  | [] => a
  | move :: rest => notes oracle (s.step oracle move) (a.note oracle s move) rest

/-- A sum in which one member changes. -/
theorem sum_update {ι : Type} [Fintype ι] [DecidableEq ι] {σ : ι → Type} (g : (n : ι) → σ n → Nat)
    (f : (n : ι) → σ n) (n : ι) (a : σ n) :
    (∑ m, g m (Function.update f n a m)) + g n (f n) = (∑ m, g m (f m)) + g n a := by
  have changed (m : ι) : g m (Function.update f n a m) =
      Function.update (fun m => g m (f m)) n (g n a) m := Function.apply_update g f n a m
  rw [Finset.sum_congr rfl fun m _ => changed m, Finset.sum_update_of_mem (Finset.mem_univ n),
    Finset.sum_eq_add_sum_sdiff_singleton_of_mem (Finset.mem_univ n) fun m => g m (f m)]
  omega

/-- The keys to be taken when one client turns to something else. -/
theorem sum_due {ι : Type} [Fintype ι] [DecidableEq ι] {phases : ι → Phase} {n : ι} {old new : Nat}
    (phase : Phase) (before : (phases n).due = old) (after : phase.due = new) :
    (∑ m, (Function.update phases n phase m).due) + old = (∑ m, (phases m).due) + new := by
  rw [← before, ← after]
  exact sum_update (fun _ => Phase.due) phases n phase

/-- The account of a system that is as its moves left it. -/
structure Tallies [Fintype ι] (p : Permutation Station) (s : System ι σ) (a : Account) : Prop where
  balances : a.Balances p s.store
  hands : a.Hands s.phases
  credit : ∑ n, (s.clients n).recorded = a.recorded.length
  keys : a.issued.length + ∑ n, (s.phases n).due + a.lost = a.conclusive + a.direct

section Tallies

variable [Fintype ι] {p : Permutation Station} {s : System ι σ} {a : Account} {n : ι}
  {oracle : (n : ι) → Oracle (σ n)}

omit [DecidableEq ι] in
theorem tallies_start (settings : Settings) (inner : (n : ι) → σ n) :
    ({} : Account).Tallies p (.start settings p fun n => .fresh (inner n)) where
  balances := Ledger.balances_empty settings
  hands := ⟨nofun, nofun⟩
  credit := Finset.sum_const_zero
  keys := by simp [System.start, Phase.due]

/-- A client that turns to something else, and has no more keys to take than before. -/
theorem Tallies.turn (h : a.Tallies p s) (phase : Phase) (keyless : phase.key? = none)
    (due : (s.phases n).due = phase.due) (answers : List (Answer ι)) :
    a.Tallies p { s with phases := Function.update s.phases n phase, answers } where
  balances := h.balances
  hands := h.hands.release keyless
  credit := h.credit
  keys := by
    have sum := sum_due phase due rfl
    have keys := h.keys
    dsimp only
    omega

theorem Tallies.setClient (h : a.Tallies p s) {c : Client (σ n)}
    (same : c.recorded = (s.clients n).recorded) : a.Tallies p (s.setClient n c) where
  balances := h.balances
  hands := h.hands
  credit := by
    have sum := sum_update (fun _ => Client.recorded) s.clients n c
    have credit := h.credit
    dsimp only [System.setClient]
    omega
  keys := h.keys

theorem Tallies.ask (h : a.Tallies p s) (n : ι) (i : Instance) (elapsed : Duration) :
    a.Tallies p (s.ask n i elapsed) := by
  rw [System.ask]
  cases idle : s.phases n with
  | idle =>
    have free : (s.phases n).due = 0 := by rw [idle]; rfl
    cases (Client.consult s.store i elapsed).value with
    | some r => exact h.turn .idle rfl free (s.answers ++ [⟨n, i, r, true⟩])
    | none => exact h.turn (.missed i elapsed) rfl free s.answers
  | missed => exact h
  | decided => exact h
  | named => exact h

/-- A result that decides is to be given a key, unless it is lost. -/
theorem Tallies.work (h : a.Tallies p s) {i : Instance} {elapsed : Duration}
    (missed : s.phases n = .missed i elapsed) :
    { a with
      conclusive := a.conclusive + (oracle n i (s.clients n).inner).1.report.decides.toNat
      lost := a.lost + ((oracle n i (s.clients n).inner).1.report.decides &&
        !decide ((oracle n i (s.clients n).inner).1.runtime.Fits elapsed)).toNat }.Tallies p
      (s.work oracle n i elapsed) := by
  obtain ⟨r, inner, worked⟩ : ∃ r inner, oracle n i (s.clients n).inner = (r, inner) := ⟨_, _, rfl⟩
  have free : (s.phases n).due = 0 := by rw [missed]; rfl
  have changed := h.setClient (c := { s.clients n with inner }) rfl
  simp only [System.work, worked]
  by_cases fits : r.runtime.Fits elapsed
  · simp only [Finding.delayed_of_fits fits, fits, decide_true, Bool.not_true, Bool.and_false,
      Bool.toNat_false, Nat.add_zero]
    cases r.report.decides with
    | true =>
      refine ⟨h.balances, h.hands.release rfl, changed.credit, ?_⟩
      have sum : _ + 0 = _ + 1 :=
        sum_due (.decided i { r with runtime := r.runtime.sum elapsed fits }) free rfl
      have keys := h.keys
      simp only [if_true, Bool.toNat_true, System.enter, System.setClient]
      omega
    | false => exact changed.turn .idle rfl free _
  · simp only [Finding.delayed_of_not_fits fits, fits, decide_false, Bool.not_false, Bool.and_true]
    have stopped := changed.turn .idle rfl free s.answers
    refine ⟨stopped.balances, stopped.hands, stopped.credit, ?_⟩
    have keys := stopped.keys
    simp only [System.enter, System.setClient] at keys ⊢
    omega

/-- A new key is not known yet. -/
theorem fresh_key {s : Store} {l : Ledger} (h : l.Balances p s) (stem : String)
    (bound : (l.enter s (.issueKey stem)).issued.length ≤ 2 ^ 64) :
    Store.keyed stem s.issued ∉ l.issued := by
  have nodup := (h.issueKey stem).numbered.nodup bound
  rw [Ledger.enter_issueKey, List.nodup_append_comm] at nodup
  exact (List.nodup_cons.mp nodup).1

theorem Tallies.takeKey (h : a.Tallies p s) {i : Instance} {r : Finding}
    (decided : s.phases n = .decided i r)
    (bound : (a.enter s.store (.issueKey (i.name.getD "instance"))).issued.length ≤ 2 ^ 64) :
    { a with toLedger := a.enter s.store (.issueKey (i.name.getD "instance")) }.Tallies p
      (s.takeKey n i r) where
  balances := h.balances.issueKey _
  hands := h.hands.take rfl (fresh_key h.balances _ bound) h.balances.known
  credit := h.credit
  keys := by
    have one : (s.phases n).due = 1 := by rw [decided]; rfl
    have sum : _ + 1 = _ + 0 := sum_due
      (.named i r (Store.keyed (i.name.getD "instance") s.store.issued)) one rfl
    have keys := h.keys
    simp only [Ledger.enter_issueKey, List.length_append, List.length_singleton,
      System.takeKey_eq, System.enter]
    rw [Store.keyed] at sum
    omega

/-- A client that records under its key, or is refused, has no key in hand any more. -/
theorem Tallies.record (h : a.Tallies p s) {i : Instance} {r : Finding} {key : String}
    (named : s.phases n = .named i r key) :
    { a with toLedger := a.enter s.store (.record i r key) }.Tallies p (s.record n i r key) := by
  have own : (s.phases n).key? = some key := by rw [named]; rfl
  have free : (s.phases n).due = 0 := by rw [named]; rfl
  have balances := h.balances.record (i := i) (r := r) (h.hands.ready n key own)
  rw [System.record]
  cases ended : (Store.record i r key).outcome s.store with
  | mk answer store =>
    have result := Action.result_of_outcome ended
    rw [Action.after_of_outcome ended] at balances
    rw [Ledger.enter, result] at balances ⊢
    cases answer with
    | error f =>
      -- The client is told what its solver found, and nothing is counted.
      simp only [Except.toOption, Option.toList, List.append_nil] at balances ⊢
      have stays : a.Tallies p { s with store } := ⟨balances, h.hands, h.credit, h.keys⟩
      exact stays.turn .idle rfl free (s.answers ++ [⟨n, i, r, false⟩])
    | ok e =>
      simp only [Except.toOption, Option.toList] at balances ⊢
      have named : (s.phases n).key? = some e.key := by rw [own, Store.key_of_record result]
      refine ⟨balances, h.hands.record rfl named, ?_, ?_⟩
      · have sum := sum_update (fun _ => Client.recorded) s.clients n
          { s.clients n with recorded := (s.clients n).recorded + 1 }
        have credit := h.credit
        simp only [System.answer, System.setClient, List.length_append, List.length_singleton]
        dsimp only at sum
        omega
      · have sum : _ + 0 = _ + 0 := sum_due .idle free rfl
        have keys := h.keys
        simp only [System.answer, System.setClient]
        omega

omit [DecidableEq ι] in
/-- A dealing that no client makes, and that takes no key but a direct one. -/
theorem Tallies.deal (h : a.Tallies p s) (deal : Store.Deal) (ready : a.Ready deal) {direct : Nat}
    (issued : a.issued ⊆ (a.enter s.store deal).issued)
    (recorded : (a.enter s.store deal).recorded = a.recorded)
    (taken : (a.enter s.store deal).issued.length = a.issued.length + direct) :
    { a with toLedger := a.enter s.store deal, direct := a.direct + direct : Account }.Tallies p
      { s with store := deal.after s.store } where
  balances := h.balances.enter ready
  hands := h.hands.mono issued recorded
  credit := h.credit.trans (congrArg List.length recorded.symm)
  keys := by
    have keys := h.keys
    dsimp only
    omega

theorem Tallies.step (h : a.Tallies p s) {move : Move ι} (ordinary : move.Ordinary)
    (bound : (a.note oracle s move).issued.length ≤ 2 ^ 64) :
    (a.note oracle s move).Tallies p (s.step oracle move) := by
  cases move with
  | ask n i elapsed => exact h.ask n i elapsed
  | proceed n =>
    rw [System.step, System.proceed]
    rw [note, System.deal?, System.concludes, System.loses, System.finds?] at bound ⊢
    cases phase : s.phases n with
    | idle => exact h
    | missed i elapsed => exact h.work phase
    | decided i r =>
      rw [phase] at bound
      exact h.takeKey phase bound
    | named i r key => exact h.record phase
  | insert e => exact ordinary.elim
  | erase e => exact ordinary.elim
  | issueKey stem =>
    exact h.deal (.issueKey stem) trivial (List.subset_append_left _ _) rfl List.length_append
  | pruneSolutions => exact h.deal .pruneSolutions trivial (List.Subset.refl _) rfl rfl
  | pruneRefutations => exact h.deal .pruneRefutations trivial (List.Subset.refl _) rfl rfl

end Tallies

section Runs

variable {oracle : (n : ι) → Oracle (σ n)} {s : System ι σ} {a : Account}

theorem notes_append (moves rest : List (Move ι)) : notes oracle s a (moves ++ rest) =
    notes oracle (s.run oracle moves) (notes oracle s a moves) rest := by
  induction moves generalizing s a with
  | nil => rfl
  | cons move later ih => exact ih

omit [DecidableEq ι] in
theorem note_grows (oracle : (n : ι) → Oracle (σ n)) (s : System ι σ) (a : Account)
    (move : Move ι) : a.issued <+: (a.note oracle s move).issued ∧
    a.recorded <+: (a.note oracle s move).recorded := by
  rw [note]
  cases s.deal? move with
  | none => exact ⟨List.prefix_rfl, List.prefix_rfl⟩
  | some deal =>
    cases deal with
    | issueKey stem => exact ⟨List.prefix_append _ _, List.prefix_rfl⟩
    | record i r key => exact ⟨List.prefix_rfl, List.prefix_append _ _⟩
    | pruneSolutions => exact ⟨List.prefix_rfl, List.prefix_rfl⟩
    | pruneRefutations => exact ⟨List.prefix_rfl, List.prefix_rfl⟩

/-- What is written down is not taken back. -/
theorem notes_grow (oracle : (n : ι) → Oracle (σ n)) (s : System ι σ) (a : Account)
    (moves : List (Move ι)) : a.issued <+: (notes oracle s a moves).issued ∧
      a.recorded <+: (notes oracle s a moves).recorded := by
  induction moves generalizing s a with
  | nil => exact ⟨List.prefix_rfl, List.prefix_rfl⟩
  | cons move rest ih =>
    obtain ⟨issued, recorded⟩ := note_grows oracle s a move
    exact ⟨issued.trans (ih _ _).1, recorded.trans (ih _ _).2⟩

variable [Fintype ι] {p : Permutation Station}

/-- The account tallies at the end of a run in which no key is issued twice. -/
theorem Tallies.run (h : a.Tallies p s) {moves : List (Move ι)}
    (ordinary : ∀ move ∈ moves, move.Ordinary)
    (bound : (notes oracle s a moves).issued.length ≤ 2 ^ 64) :
    (notes oracle s a moves).Tallies p (s.run oracle moves) := by
  induction moves generalizing s a with
  | nil => exact h
  | cons move rest ih =>
    -- Keys are not taken back, so there are not too many after the first move either.
    have early := (notes_grow oracle (s.step oracle move) (a.note oracle s move) rest).1.length_le
    obtain ⟨first, later⟩ := List.forall_mem_cons.mp ordinary
    exact ih (h.step first (early.trans bound)) later bound

/-- An account that is settled: what the clients have recorded is stored or was pruned, under keys
that differ, and keys were taken for results that decide and for others, or are to be taken, except
for what was lost. -/
structure Settled (s : System ι σ) (a : Account) : Prop where
  total : s.store.solutions.total + s.store.refutations.total + a.pruned.length =
    ∑ n, (s.clients n).recorded
  stock : (s.store.held ++ a.pruned).Perm a.recorded
  distinct : (a.recorded.map Entry.key).Nodup
  keys : a.issued.length + ∑ n, (s.phases n).due + a.lost = a.conclusive + a.direct
  counter : s.store.issued.toNat = a.issued.length

omit [DecidableEq ι] in
theorem Tallies.settled (h : a.Tallies p s) (bound : a.issued.length < 2 ^ 64) : a.Settled s where
  total := by
    rw [h.credit, ← h.balances.stock.length_eq, List.length_append, h.balances.kept.length_held]
  stock := h.balances.stock
  distinct := h.balances.distinct
  keys := h.keys
  counter := by rw [h.balances.counter, UInt64.toNat_ofNat', Nat.mod_eq_of_lt bound]

/-- What is stored at some time was recorded by the end. -/
theorem Tallies.mem_recorded (h : a.Tallies p s) {early moves : List (Move ι)}
    (ordinary : ∀ move ∈ moves, move.Ordinary)
    (bound : (notes oracle s a moves).issued.length ≤ 2 ^ 64) (before : early <+: moves) {e : Entry}
    (stored : e ∈ (s.run oracle early).store.held) : e ∈ (notes oracle s a moves).recorded := by
  obtain ⟨rest, rfl⟩ := before
  have later := notes_grow oracle (s.run oracle early) (notes oracle s a early) rest
  rw [← notes_append] at later
  have tallies := h.run (fun move member => ordinary move (List.mem_append_left _ member))
    (later.1.length_le.trans bound)
  exact later.2.subset (tallies.balances.stock.subset (List.mem_append_left _ stored))

/-- Entries that are stored at any times under one key are one entry. -/
theorem Tallies.eq_of_key_eq (h : a.Tallies p s) {early late moves : List (Move ι)}
    (ordinary : ∀ move ∈ moves, move.Ordinary)
    (bound : (notes oracle s a moves).issued.length ≤ 2 ^ 64) (before : early <+: moves)
    (before' : late <+: moves) {e f : Entry} (stored : e ∈ (s.run oracle early).store.held)
    (stored' : f ∈ (s.run oracle late).store.held) (same : e.key = f.key) : e = f :=
  List.inj_on_of_nodup_map (h.run ordinary bound).balances.distinct
    (h.mem_recorded ordinary bound before stored)
    (h.mem_recorded ordinary bound before' stored') same

end Runs

end Account

theorem Errand.ordinary {ι : Type} (errands : List (Errand ι)) :
    ∀ move ∈ errands.flatMap Errand.moves, move.Ordinary := by
  intro move member
  obtain ⟨errand, _, part⟩ := List.mem_flatMap.mp member
  cases errand with
  | solve n i elapsed =>
    simp only [Errand.moves, List.mem_cons, List.not_mem_nil, or_false, or_self] at part
    obtain rfl | rfl := part <;> trivial
  | issueKey stem => exact List.mem_singleton.mp part ▸ trivial
  | pruneSolutions => exact List.mem_singleton.mp part ▸ trivial
  | pruneRefutations => exact List.mem_singleton.mp part ▸ trivial

namespace System

variable {ι : Type} {σ : ι → Type} [DecidableEq ι] {oracle : (n : ι) → Oracle (σ n)}
  {s : System ι σ} {n : ι}

/-- A client that has gone on has no miss in hand any more. -/
theorem phases_proceed_ne_missed (oracle : (n : ι) → Oracle (σ n)) (s : System ι σ) (n : ι)
    (i : Instance) (elapsed : Duration) : (s.proceed oracle n).phases n ≠ .missed i elapsed := by
  rw [proceed]
  cases phase : s.phases n with
  | idle =>
    rw [phase]
    simp
  | missed j waited =>
    simp only [work]
    split
    · rw [phases_enter]
      simp
    · split
      · rw [phases_enter]
        simp
      · rw [phases_answer]
        simp
  | decided j r =>
    dsimp only
    rw [takeKey_eq, phases_enter]
    simp
  | named j r key =>
    simp only [record]
    split
    · rw [phases_answer]
      simp
    · rw [phases_answer]
      simp

omit [DecidableEq ι] in
/-- Only where a client's own solver is at work something can be lost. -/
theorem loses_proceed_of_ne_missed (other : ∀ i elapsed, s.phases n ≠ .missed i elapsed) :
    s.loses oracle (.proceed n) = false := by
  rw [loses, finds?]
  cases phase : s.phases n with
  | missed i elapsed => exact absurd phase (other i elapsed)
  | idle => rfl
  | decided => rfl
  | named => rfl

/-- A solve that returns has lost nothing. -/
theorem loses_of_returns {i : Instance} {elapsed : Duration} (idle : s.phases n = .idle)
    (returns : s.returns oracle (.solve n i elapsed) = true) :
    (s.ask n i elapsed).loses oracle (.proceed n) = false := by
  rw [System.returns, Client.value_solve] at returns
  rw [ask, idle]
  cases asked : (Client.consult s.store i elapsed).value with
  | some r =>
    apply loses_proceed_of_ne_missed
    intro j waited
    dsimp only
    rw [phases_answer]
    simp
  | none =>
    simp only [asked] at returns
    by_cases fits : (oracle n i (s.clients n).inner).1.runtime.Fits elapsed
    · simp [loses, finds?, phases_enter, clients_enter, fits]
    · rw [Finding.delayed_of_not_fits fits] at returns
      cases returns

end System

namespace Account

section Lost

variable {ι : Type} {σ : ι → Type} [DecidableEq ι] {oracle : (n : ι) → Oracle (σ n)}
  {s : System ι σ} {a : Account}

theorem lost_moves (idle : ∀ n, s.phases n = .idle) {errand : Errand ι}
    (returns : s.returns oracle errand = true) :
    (notes oracle s a errand.moves).lost = a.lost := by
  cases errand with
  | solve n i elapsed =>
    -- The solver works in the first step after the question, if at all.
    have first := System.loses_of_returns (idle n) returns
    have second : ((s.ask n i elapsed).proceed oracle n).loses oracle (.proceed n) = false :=
      System.loses_proceed_of_ne_missed (System.phases_proceed_ne_missed oracle _ n)
    have third : (((s.ask n i elapsed).proceed oracle n).proceed oracle n).loses oracle
        (.proceed n) = false :=
      System.loses_proceed_of_ne_missed (System.phases_proceed_ne_missed oracle _ n)
    simp only [Errand.moves, notes, note, System.step, first, second, third, Bool.toNat_false]
    rfl
  | issueKey stem => rfl
  | pruneSolutions => rfl
  | pruneRefutations => rfl

/-- Nothing is lost where all solves return. -/
theorem lost_of_allReturn (idle : ∀ n, s.phases n = .idle) {errands : List (Errand ι)}
    (returns : s.allReturn oracle errands = true) :
    (notes oracle s a (errands.flatMap Errand.moves)).lost = a.lost := by
  induction errands generalizing s a with
  | nil => rfl
  | cons errand rest ih =>
    obtain ⟨first, later⟩ := Bool.and_eq_true_iff.mp returns
    have idle' (n : ι) : (s.serve oracle errand).phases n = .idle := by
      rw [System.phases_serve, idle n]
    rw [List.flatMap_cons, notes_append, System.run_moves idle, ih idle' later,
      lost_moves idle first]

end Lost

variable {ι : Type} {σ : ι → Type} [DecidableEq ι] [Fintype ι]

/-- However the calls of clients fall, at every point the account is settled, and entries that are
stored at any times under one key are one entry. Between whole solves a key was issued for every
result that decides and was not lost, and for each that was taken directly; and nothing was lost if
all solves returned. -/
theorem settled_of_run (oracle : (n : ι) → Oracle (σ n)) (settings : Settings)
    (p : Permutation Station) (inner : (n : ι) → σ n) :
    let start := System.start settings p fun n => .fresh (inner n)
    (∀ moves : List (Move ι), (∀ move ∈ moves, move.Ordinary) →
      (notes oracle start {} moves).issued.length < 2 ^ 64 →
      (notes oracle start {} moves).Settled (start.run oracle moves) ∧
        ∀ early late, early <+: moves → late <+: moves →
          ∀ e ∈ (start.run oracle early).store.held, ∀ f ∈ (start.run oracle late).store.held,
            e.key = f.key → e = f) ∧
    ∀ errands : List (Errand ι), let a := notes oracle start {} (errands.flatMap Errand.moves)
      a.issued.length < 2 ^ 64 → a.Settled (start.serveAll oracle errands) ∧
        a.issued.length + a.lost = a.conclusive + a.direct ∧
        (start.allReturn oracle errands = true → a.issued.length = a.conclusive + a.direct) ∧
        ∀ early late, early <+: errands → late <+: errands →
          ∀ e ∈ (start.serveAll oracle early).store.held,
            ∀ f ∈ (start.serveAll oracle late).store.held, e.key = f.key → e = f := by
  intro start
  have first : ({} : Account).Tallies p start := tallies_start settings inner
  have idle (n : ι) : start.phases n = .idle := rfl
  have served := System.run_errands oracle idle
  constructor
  · intro moves ordinary bound
    refine ⟨(first.run ordinary bound.le).settled bound, ?_⟩
    intro early late before before' e stored f stored'
    exact first.eq_of_key_eq ordinary bound.le before before' stored stored'
  · intro errands a bound
    have ordinary := Errand.ordinary errands
    have tallies : a.Tallies p _ := first.run ordinary bound.le
    rw [(served errands).1] at tallies
    have keys : a.issued.length + a.lost = a.conclusive + a.direct := by
      have keys := tallies.keys
      rw [(served errands).2] at keys
      simpa [start, System.start, Phase.due] using keys
    refine ⟨tallies.settled bound, keys, ?_, ?_⟩
    · intro returns
      have none : a.lost = 0 := lost_of_allReturn idle returns
      rwa [none] at keys
    · intro early late before before' e stored f stored'
      rw [← (served early).1] at stored
      rw [← (served late).1] at stored'
      exact first.eq_of_key_eq ordinary bound.le (before.flatMap _) (before'.flatMap _) stored
        stored'

section Sample

/-- A solver that knows channels for two stations only, whatever is asked. -/
def careless : Oracle Nat := fun _ calls =>
  (⟨.satisfiable, some (.ofList [(1, 65535), (2, 65535)] compare), "test", ⟨30, by decide⟩⟩,
    calls + 1)

/-- A solver that refutes everything. -/
def refuting : Oracle Nat := fun _ calls =>
  (⟨.unsatisfiable, none, "test", .longest⟩, calls + 1)

/-- Instances with names that look like keys, and some outside of the universe. -/
def sharing : List (Errand Bool) :=
  [.solve true (.ofStations [1]) ⟨1, by decide⟩,
    .solve true { Instance.ofStations [1, 2] with name := some "pair" } ⟨1, by decide⟩,
    .pruneSolutions,
    .issueKey "pair#1",
    .solve false { Instance.ofStations [1, 2, 3] with name := some "pair#1" } .zero,
    .solve true (.ofStations [3, 9]) ⟨1, by decide⟩,
    .solve false (.ofStations [9]) .zero]

/-- Of five results that decide three are recorded, and one of those is pruned. One more is lost
with its time, and takes no key. -/
theorem settled_sharing :
    let start : System Bool fun _ => Nat := .start .standard Store.trio fun _ => .fresh 0
    let solvers (n : Bool) : Oracle Nat := bif n then careless else refuting
    let moves := sharing.flatMap Errand.moves
    let a := notes solvers start {} moves
    let late := sharing ++ [.solve false (.ofStations [9]) ⟨1, by decide⟩]
    let b := notes solvers start {} (late.flatMap Errand.moves)
    a.issued = ["instance#0", "pair#1", "pair#1#2", "pair#1#3", "instance#4", "instance#5"] ∧
    a.recorded.map Entry.key = ["instance#0", "pair#1", "pair#1#3"] ∧
    a.pruned.map Entry.key = ["instance#0"] ∧
    (∀ move ∈ moves, move.Ordinary) ∧ a.issued.length < 2 ^ 64 ∧
    a.Settled (start.run solvers moves) ∧ a.Settled (start.serveAll solvers sharing) ∧
    start.allReturn solvers sharing = true ∧ a.issued.length = a.conclusive + a.direct ∧
    b.issued = a.issued ∧ b.lost = 1 ∧ b.issued.length + b.lost = b.conclusive + b.direct := by
  intro start solvers moves a late b
  have issued : a.issued =
      ["instance#0", "pair#1", "pair#1#2", "pair#1#3", "instance#4", "instance#5"] := by
    decide +kernel
  have same : b.issued = a.issued := by decide +kernel
  have bound : a.issued.length < 2 ^ 64 := by
    rw [issued]
    decide
  have bound' : b.issued.length < 2 ^ 64 := by
    rw [same]
    exact bound
  have ordinary := Errand.ordinary sharing
  have returns : start.allReturn solvers sharing = true := by decide +kernel
  obtain ⟨onMoves, onErrands⟩ := settled_of_run solvers .standard Store.trio fun _ => 0
  obtain ⟨settled, _, keys, _⟩ := onErrands sharing bound
  obtain ⟨_, keys', _⟩ := onErrands late bound'
  refine ⟨issued, ?_, ?_, ordinary, bound, (onMoves moves ordinary bound).1, settled, returns,
    keys returns, same, ?_, keys'⟩
  · decide +kernel
  · decide +kernel
  · decide +kernel

end Sample

end Account

end Repack
