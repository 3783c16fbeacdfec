import Repack.Client
import Repack.Store.Saved

/-!
Sessions: a store, and the clients that share it.
-/
namespace Repack

structure Session (σ : Type) where
  store : Store
  clients : List (Client σ)

namespace Session

variable {σ α : Type}

def ofStore (store : Store) : Session σ := ⟨store, []⟩

def onStore (x : Action Store α) : Action (Session σ) α :=
  .zoom Session.store (fun store s => { s with store }) x

/-- The clients up to number `n`, new ones joining at the end. -/
def enlisted (s : Session σ) (inner : σ) (n : Nat) : List (Client σ) :=
  s.clients ++ List.replicate (n + 1 - s.clients.length) (.fresh inner)

/-- Lets client number `n` solve an instance; a new client starts with the given solver state. -/
def solve (oracle : Oracle σ) (inner : σ) (n : Nat) (i : Instance) (elapsed : Duration)
    (s : Session σ) : Logged (Except Duration.Overflow Finding × Session σ) := do
  let clients := s.enlisted inner n
  let (r, c, store) ← (clients[n]?.getD (.fresh inner)).solve oracle s.store i elapsed
  pure (r, ⟨store, clients.set n c⟩)

/-- Starts over: a new store with the same permutation and settings, filled with saved entries, and
no clients. -/
def restart (lib : Library) (text : String) : Action (Session σ) (List Bool) := do
  modify fun s => ofStore s.store.cleared
  onStore (Store.restore lib text)

end Session

end Repack
