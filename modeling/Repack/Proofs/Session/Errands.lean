import Repack.Proofs.Session.Interleaving

/-! Systems in which no one interferes. Whole solves, one after the other, with prunings and keys
taken between them, are runs in which each client takes its steps in a row. -/
namespace Repack

/-- What is asked of a system as a whole, and is not interrupted. -/
inductive Errand (ι : Type)
  | solve (n : ι) (i : Instance) (elapsed : Duration)
  | issueKey (stem : String)
  | pruneSolutions
  | pruneRefutations

/-- A client solves in four steps at most. -/
def Errand.moves {ι : Type} : Errand ι → List (Move ι)
  | solve n i elapsed => [.ask n i elapsed, .proceed n, .proceed n, .proceed n]
  | issueKey stem => [.issueKey stem]
  | pruneSolutions => [.pruneSolutions]
  | pruneRefutations => [.pruneRefutations]

namespace System

variable {ι : Type} {σ : ι → Type} [DecidableEq ι] {oracle : (n : ι) → Oracle (σ n)}
  {s : System ι σ}

def serve (oracle : (n : ι) → Oracle (σ n)) (s : System ι σ) : Errand ι → System ι σ
  | .solve n i elapsed =>
    let solved := ((s.clients n).solve (oracle n) s.store i elapsed).value
    { store := solved.2.2
      clients := Function.update s.clients n solved.2.1
      phases := s.phases
      answers := s.answers ++ s.returned n i elapsed solved.1 }
  | .issueKey stem => s.onStore (Store.issueKey stem)
  | .pruneSolutions => s.onStore Store.pruneSolutions
  | .pruneRefutations => s.onStore Store.pruneRefutations

def serveAll (oracle : (n : ι) → Oracle (σ n)) (s : System ι σ) (errands : List (Errand ι)) :
    System ι σ :=
  errands.foldl (serve oracle) s

/-- Whether a solve returns. The other errands do in any case. -/
def returns (oracle : (n : ι) → Oracle (σ n)) (s : System ι σ) : Errand ι → Bool
  | .solve n i elapsed => ((s.clients n).solve (oracle n) s.store i elapsed).value.1.isOk
  | .issueKey _ | .pruneSolutions | .pruneRefutations => true

def allReturn (oracle : (n : ι) → Oracle (σ n)) (s : System ι σ) : List (Errand ι) → Bool
  | [] => true
  | errand :: rest => s.returns oracle errand && (s.serve oracle errand).allReturn oracle rest

theorem phases_serve (errand : Errand ι) : (s.serve oracle errand).phases = s.phases := by
  cases errand <;> rfl

theorem run_moves (idle : ∀ n, s.phases n = .idle) (errand : Errand ι) :
    s.run oracle errand.moves = s.serve oracle errand := by
  cases errand with
  | solve n i elapsed => exact run_solo (idle n)
  | issueKey stem => rfl
  | pruneSolutions => rfl
  | pruneRefutations => rfl

/-- Between errands the clients are as idle as before. -/
theorem run_errands (oracle : (n : ι) → Oracle (σ n)) {s : System ι σ}
    (idle : ∀ n, s.phases n = .idle) (errands : List (Errand ι)) :
    s.run oracle (errands.flatMap Errand.moves) = s.serveAll oracle errands ∧
      (s.serveAll oracle errands).phases = s.phases := by
  induction errands generalizing s with
  | nil => exact ⟨rfl, rfl⟩
  | cons errand rest ih =>
    have same : (s.serve oracle errand).phases = s.phases := phases_serve errand
    obtain ⟨whole, left⟩ := ih (s := s.serve oracle errand) (same ▸ idle)
    refine ⟨?_, left.trans same⟩
    have first : s.run oracle errand.moves = s.serve oracle errand := run_moves idle errand
    rw [run] at first
    rw [List.flatMap_cons, run, List.foldl_append, first]
    exact whole

end System

end Repack
