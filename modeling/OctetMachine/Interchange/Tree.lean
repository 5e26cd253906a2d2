/-! Data trees: the form in which the data types leave the program and come back. A record's fields
may be given by name, or as the plain list of their values; an alternative is given by its name, or
as a record of that one name with what it carries. -/
namespace OctetMachine

inductive Tree where
  | null
  | bool (value : Bool)
  | integer (value : Int)
  /-- A number that is written with a fraction or an exponent, which no type here has. -/
  | fraction
  | text (value : String)
  | list (items : List Tree)
  | record (fields : List (String × Tree))
deriving Inhabited

class Interchange (α : Type) where
  toTree : α → Tree
  ofTree? : Tree → Option α

export Interchange (toTree ofTree?)

namespace Tree

/-- The values of a record's fields, in the order of the names; further fields do not matter. -/
def fields? (names : List String) : Tree → Option (List Tree)
  | record fields => names.mapM fun name => fields.lookup name
  | list items => if items.length = names.length then some items else none
  | _ => none

/-- The name of an alternative, and what it carries. -/
def alternative? : Tree → Option (String × Option Tree)
  | text name => some (name, none)
  | record [(name, carried)] => some (name, some carried)
  | _ => none

/-- The name of an alternative that carries nothing. -/
def bareName? (t : Tree) : Option String :=
  match t.alternative? with
  | some (name, none) => some name
  | some (name, some null) => some name
  | _ => none

/-- The alternative, of some that carry nothing, with the name that a tree gives. -/
def choose? {α : Type} (name : α → String) (all : List α) (t : Tree) : Option α :=
  t.bareName?.bind fun given => all.find? fun a => name a == given

def natBelow? (bound : Nat) : Tree → Option Nat
  | integer (.ofNat n) => if n < bound then some n else none
  | _ => none

end Tree

instance : Interchange Bool where
  toTree := .bool
  ofTree?
    | .bool b => some b
    | _ => none

instance : Interchange UInt8 where
  toTree b := .integer b.toNat
  ofTree? t := (t.natBelow? 256).map UInt8.ofNat

instance : Interchange UInt64 where
  toTree n := .integer n.toNat
  ofTree? t := (t.natBelow? UInt64.size).map UInt64.ofNat

/-- Offsets and addresses, which have 64 bits outside the program. -/
instance : Interchange Nat where
  toTree n := .integer n
  ofTree? t := t.natBelow? UInt64.size

instance {α : Type} [Interchange α] : Interchange (List α) where
  toTree items := .list (items.map toTree)
  ofTree?
    | .list items => items.mapM ofTree?
    | _ => none

instance {α : Type} [Interchange α] : Interchange (Array α) where
  toTree items := toTree items.toList
  ofTree? t := (ofTree? t : Option (List α)).map List.toArray

end OctetMachine
