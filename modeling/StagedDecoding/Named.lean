/-! Values under names, each name once, in the order in which the names first appeared. -/

set_option autoImplicit false

namespace StagedDecoding

abbrev Named (α : Type) := List (String × α)

namespace Named

variable {α : Type}

def get? (name : String) (values : Named α) : Option α :=
  (values.find? (·.1 == name)).map (·.2)

def contains (name : String) (values : Named α) : Bool :=
  values.any (·.1 == name)

def insert (name : String) (value : α) : Named α → Named α
  | [] => [(name, value)]
  | entry :: rest =>
    if entry.1 == name then (name, value) :: rest else entry :: insert name value rest

def erase (name : String) (values : Named α) : Named α :=
  values.filter (·.1 != name)

def names (values : Named α) : List String :=
  values.map (·.1)

/-- Of pairs with one name the last one counts. -/
def ofPairs (pairs : List (String × α)) : Named α :=
  pairs.foldl (fun values pair => insert pair.1 pair.2 values) []

end Named

end StagedDecoding
