import Std.Data.ExtTreeMap
import Std.Data.ExtTreeSet

/-!
Values with a text. A library knows trees, with the text of each, and makes a form of the shape of a
type: how values of the type are written as trees, and read where a tree makes sense. Which library
it is stays open; a type says only of what shape it is.
-/
namespace Repack

/-- How values are written as trees, and read from them. -/
structure Form (T α : Type) where
  write : α → T
  read? : T → Option α
  /-- What is read for a field that is not given. -/
  absent : Option α := none

/-- The same trees for values that correspond. -/
def Form.via {T α β : Type} (f : Form T α) (make : α → β) (parts : β → α) : Form T β :=
  ⟨fun b => f.write (parts b), fun t => (f.read? t).map make, f.absent.map make⟩

/-- The fields of a record, each with a name and a form. -/
inductive Fields (T : Type) : Type → Type 1
  | nil : Fields T Unit
  | cons {α β : Type} (name : String) (form : Form T α) (rest : Fields T β) : Fields T (α × β)

namespace Fields

variable {T : Type}

def names {α : Type} : Fields T α → List String
  | nil => []
  | cons name _ rest => name :: rest.names

def write {α : Type} : Fields T α → α → List (String × T)
  | nil, _ => []
  | cons name form rest, (a, b) => (name, form.write a) :: rest.write b

/-- Reads each field from what is given under its name. -/
def read? {α : Type} (given : List (String × T)) : Fields T α → Option α
  | nil => some ()
  | cons name form rest => do
    let a ← (given.lookup name).elim form.absent form.read?
    let b ← rest.read? given
    pure (a, b)

end Fields

/-- The variants of a sum, each with a name and a form. -/
inductive Variants (T : Type) : Type → Type 1
  | last {α : Type} (name : String) (form : Form T α) : Variants T α
  | or {α β : Type} (name : String) (form : Form T α) (rest : Variants T β) : Variants T (α ⊕ β)

namespace Variants

variable {T : Type}

def names {α : Type} : Variants T α → List String
  | last name _ => [name]
  | or name _ rest => name :: rest.names

/-- The name of the variant that a value is of, and its tree there. -/
def write {α : Type} : Variants T α → α → String × T
  | last name form, a => (name, form.write a)
  | or name form _, .inl a => (name, form.write a)
  | or _ _ rest, .inr b => rest.write b

/-- Reads a value of the variant with a name. -/
def read? {α : Type} (given : String) (t : T) : Variants T α → Option α
  | last name form => if given = name then form.read? t else none
  | or name form rest =>
    if given = name then (form.read? t).map .inl else (rest.read? given t).map .inr

end Variants

/-- Trees with their texts, and a form for each shape that a type may have. -/
structure Library where
  Tree : Type
  null : Tree
  number : Nat → Tree
  text : String → Tree
  array : List Tree → Tree
  object : List (String × Tree) → Tree
  /-- The text of a tree, without blanks. -/
  toText : Tree → String
  ofText? : String → Option Tree
  uint16 : Form Tree UInt16
  uint32 : Form Tree UInt32
  string : Form Tree String
  option {α : Type} : Form Tree α → Form Tree (Option α)
  list {α : Type} : Form Tree α → Form Tree (List α)
  set {α : Type} [Ord α] [Std.TransOrd α] : Form Tree α → Form Tree (Std.ExtTreeSet α)
  map {α : Type} : Form Tree α → Form Tree (Std.ExtTreeMap UInt32 α)
  record {α : Type} : Fields Tree α → Form Tree α
  tagged {α : Type} : Variants Tree α → Form Tree α
  /-- A type with some values only, each with a name. -/
  words {α : Type} (all : List α) (name : α → String) : Form Tree α

/-- Types whose shape a library can make a form of. -/
class Serial (α : Type) where
  form (lib : Library) : Form lib.Tree α

export Serial (form)

namespace Library

variable {α : Type} [Serial α] (lib : Library)

def textOf (a : α) : String := lib.toText ((form lib).write a)

/-- The value that a text stands for. -/
def valueOf? (s : String) : Option α := (lib.ofText? s).bind (form lib).read?

end Library

section Shapes

variable {α : Type} [Serial α]

instance : Serial UInt16 := ⟨Library.uint16⟩

instance : Serial UInt32 := ⟨Library.uint32⟩

instance : Serial String := ⟨Library.string⟩

instance : Serial (Option α) := ⟨fun lib => lib.option (form lib)⟩

instance : Serial (List α) := ⟨fun lib => lib.list (form lib)⟩

instance [Ord α] [Std.TransOrd α] : Serial (Std.ExtTreeSet α) := ⟨fun lib => lib.set (form lib)⟩

instance : Serial (Std.ExtTreeMap UInt32 α) := ⟨fun lib => lib.map (form lib)⟩

end Shapes

end Repack
