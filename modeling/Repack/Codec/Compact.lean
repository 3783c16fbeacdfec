import Repack.Codec.Basic
import Repack.Json.Reader

/-!
A library whose trees are JSON values. Sets are arrays of their elements and maps from numbers
objects with decimal keys, both ascending when written; a record is an object of its fields, read in
any order, or an array of all of them.
-/
namespace Repack

namespace Json

def natural (n : Nat) : Json := .number (Decimal.digits n)

def string (s : String) : Json := .quoted (Quoted.encode s.toList)

/-- An object with named fields. -/
def record (fields : List (String × Json)) : Json :=
  .object (fields.map fun (name, j) => (Quoted.encode name.toList, j))

/-- The string that a text between quotes stands for. -/
def decoded? (raw : List Char) : Option String := (Quoted.decode raw).map String.ofList

/-- The fields of an object by their names, which must be sound texts. -/
def named? (fields : List (List Char × Json)) : Option (List (String × Json)) :=
  fields.mapM fun (key, j) => (decoded? key).map (·, j)

/-- A number below a bound, in decimal. -/
def natBelow? (bound : Nat) (letters : List Char) : Option Nat :=
  (Decimal.ofDigits? letters).filter (· < bound)

end Json

namespace Compact

open Json (natural natBelow? decoded? named?)

variable {α : Type}

/-- Numbers below a bound. -/
def number (bound : Nat) (value : α → Nat) (make : Nat → α) : Form Json α where
  write a := natural (value a)
  read?
    | .number letters => (natBelow? bound letters).map make
    | _ => none

def string : Form Json String where
  write := Json.string
  read?
    | .quoted raw => decoded? raw
    | _ => none

/-- An absent value is `null`, and a field for it may be left out. -/
def option (f : Form Json α) : Form Json (Option α) where
  write
    | some a => f.write a
    | none => .null
  read?
    | .null => some none
    | j => (f.read? j).map some
  absent := some none

def list (f : Form Json α) : Form Json (List α) where
  write as := .array (as.map f.write)
  read?
    | .array items => items.mapM f.read?
    | _ => none

def set [Ord α] [Std.TransOrd α] (f : Form Json α) : Form Json (Std.ExtTreeSet α) where
  write s := (list f).write s.toList
  read? j := ((list f).read? j).map fun items => .ofList items compare

/-- A later field for a number replaces an earlier one. -/
def map (f : Form Json α) : Form Json (Std.ExtTreeMap UInt32 α) where
  write m := .record (m.toList.map fun (k, a) => (toString k.toNat, f.write a))
  read?
    | .object fields =>
      let pairs := fields.mapM fun (key, j) => do
        let k ← natBelow? UInt32.size key
        let a ← f.read? j
        pure (UInt32.ofNat k, a)
      pairs.map fun l => .ofList l compare
    | _ => none

/-- No field may be given twice. Others than those of the record are ignored. -/
def record (fs : Fields Json α) : Form Json α where
  write a := .record (fs.write a)
  read?
    | .object fields => do
      let given ← named? fields
      if fs.names.all fun name => given.countP (·.1 == name) ≤ 1 then fs.read? given else none
    | .array items => if items.length = fs.names.length then fs.read? (fs.names.zip items) else none
    | _ => none

/-- An object with one field, named for the variant. -/
def tagged (vs : Variants Json α) : Form Json α where
  write a := .record [vs.write a]
  read?
    | .object [(key, j)] => do
      let name ← decoded? key
      vs.read? name j
    | _ => none

/-- A name, also when read as that of the only field of an object that holds nothing. -/
def words (all : List α) (name : α → String) : Form Json α where
  write a := .string (name a)
  read?
    | .quoted raw => do
      let given ← decoded? raw
      all.find? (name · == given)
    | .object [(key, .null)] => do
      let given ← decoded? key
      all.find? (name · == given)
    | _ => none

end Compact

def Library.compact : Library where
  Tree := Json
  null := .null
  number := Json.natural
  text := Json.string
  array := .array
  object := Json.record
  toText j := String.ofList j.text
  ofText? s := Json.ofText? s.toList
  uint16 := Compact.number UInt16.size UInt16.toNat UInt16.ofNat
  uint32 := Compact.number UInt32.size UInt32.toNat UInt32.ofNat
  string := Compact.string
  option := Compact.option
  list := Compact.list
  set := Compact.set
  map := Compact.map
  record := Compact.record
  tagged := Compact.tagged
  words := Compact.words

end Repack
