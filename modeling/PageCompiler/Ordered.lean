/-!
# Ordered dictionaries

A dictionary that remembers the order in which its keys came in. Writing a key again keeps its place.
-/

namespace PageCompiler

/-- Keys and their values, in the order in which the keys were first written. -/
abbrev Ordered (α : Type) := List (String × α)

namespace Ordered

variable {α : Type}

def get? (d : Ordered α) (key : String) : Option α :=
  (d.find? fun entry => entry.1 == key).map (·.2)

def hasKey (d : Ordered α) (key : String) : Bool :=
  d.any fun entry => entry.1 == key

def keys (d : Ordered α) : List String :=
  d.map (·.1)

def values (d : Ordered α) : List α :=
  d.map (·.2)

/-- Writes a value under a key: a key that is present keeps its place, a new one goes last. -/
def insert (d : Ordered α) (key : String) (value : α) : Ordered α :=
  match d with
  | [] => [(key, value)]
  | entry :: rest =>
    if entry.1 == key then (key, value) :: rest else entry :: insert rest key value

/-- Writes a value under a key unless the key is present. -/
def insertNew (d : Ordered α) (key : String) (value : α) : Ordered α :=
  if hasKey d key then d else d ++ [(key, value)]

def erase (d : Ordered α) (key : String) : Ordered α :=
  d.filter fun entry => entry.1 != key

end Ordered

/-- Adds an item at the end of a list that does not hold it yet. -/
def pushNew {α : Type} [BEq α] (items : List α) (item : α) : List α :=
  if items.contains item then items else items ++ [item]

end PageCompiler
