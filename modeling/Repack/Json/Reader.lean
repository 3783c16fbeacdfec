import Repack.Json.Basic

/-!
Reading JSON text. A machine goes through the tokens once and keeps the containers that are still
open on a stack; it accepts when one whole value is left and nothing is open.
-/
namespace Repack.Json

/-- An open container, with what it holds so far. -/
inductive Frame
  | items (done : List Json)
  | fields (done : List (List Char × Json)) (key : List Char)

/-- What is due next, above the open containers. -/
inductive State
  /-- A value; a container just opened may also close. -/
  | value (stack : List Frame) (opened : Bool)
  /-- The key of a field of an object; an object just opened may also close. -/
  | key (stack : List Frame) (done : List (List Char × Json)) (opened : Bool)
  | colon (stack : List Frame) (done : List (List Char × Json)) (key : List Char)
  /-- Whatever follows a value. -/
  | after (stack : List Frame) (j : Json)

namespace State

def step : State → Token → Option State
  | value stack _, .mark .openBracket => some (value (.items [] :: stack) true)
  | value stack _, .mark .openBrace => some (key stack [] true)
  | value (.items [] :: stack) true, .mark .closeBracket => some (after stack (array []))
  | value stack _, .quoted raw => some (after stack (.quoted raw))
  | value stack _, .word letters => (ofWord? letters).map (after stack)
  | key stack _ true, .mark .closeBrace => some (after stack (object []))
  | key stack done _, .quoted raw => some (colon stack done raw)
  | colon stack done k, .mark .colon => some (value (.fields done k :: stack) false)
  | after (.items done :: stack) j, .mark .comma =>
    some (value (.items (done ++ [j]) :: stack) false)
  | after (.items done :: stack) j, .mark .closeBracket =>
    some (after stack (array (done ++ [j])))
  | after (.fields done k :: stack) j, .mark .comma => some (key stack (done ++ [(k, j)]) false)
  | after (.fields done k :: stack) j, .mark .closeBrace =>
    some (after stack (object (done ++ [(k, j)])))
  | _, _ => none

def run (s : State) (ts : List Token) : Option State := ts.foldlM step s

/-- The whole value read, if nothing is left open. -/
def result? : State → Option Json
  | after [] j => some j
  | _ => none

end State

def ofText? (cs : List Char) : Option Json := do
  let ts ← Token.scan cs
  let s ← State.run (.value [] false) ts
  s.result?

end Repack.Json
