/-!
# JSON values

A number is an integer exactly if it is written as one, with neither a fraction nor an
exponent nor a sign on a zero. An object keeps its members in order, repeated names
included, so that a record can be told from one with a member too many.

A record is an object that has its fields by name, or an array of its fields in order.
A variant with data is an object of one member, named for the variant; a variant
without data is the string of its name, or such an object whose member is null.
-/

namespace Camouflage

/-- A JSON value. -/
inductive Json where
  | null
  | bool (value : Bool)
  | integer (n : Int)
  /-- A value that can be passed over and written back but not used, so that its text is
  kept: a number that is no integer, a string with half of a surrogate pair, an object
  with such a name. -/
  | verbatim (text : String)
  | string (value : String)
  | array (items : List Json)
  | object (members : List (String × Json))
  deriving Inhabited

namespace Json

def bool? : Json → Option Bool
  | bool value => some value
  | _ => none

def string? : Json → Option String
  | string value => some value
  | _ => none

def array? : Json → Option (List Json)
  | array items => some items
  | _ => none

/-- A natural number below a bound. -/
def natural? (bound : Nat) : Json → Option Nat
  | integer (.ofNat n) => if n < bound then some n else none
  | _ => none

def uint32? (j : Json) : Option UInt32 := (j.natural? UInt32.size).map UInt32.ofNat

def uint64? (j : Json) : Option UInt64 := (j.natural? UInt64.size).map UInt64.ofNat

/-- A natural number as JSON. -/
def ofNat (n : Nat) : Json := integer n

/-- The member of a name, if there is exactly one. -/
def unique? {α : Type} (name : String) (members : List (String × α)) : Option α :=
  match members.filter (·.1 == name) with
  | [(_, value)] => some value
  | _ => none

/-- The member of an object: members of other names do not matter, and neither does the
order. -/
def field? (j : Json) (name : String) : Option Json :=
  match j with
  | object members => unique? name members
  | _ => none

/-- The parts of a record: members by name, or fields in order. -/
inductive Parts (α : Type) where
  | named (members : List (String × α))
  | ordered (fields : List α)

/-- The fields of these names, in their order. Among members each field stands exactly
once, and members of other names do not matter; fields in order are these and no
others. -/
def Parts.select? {α : Type} (names : List String) : Parts α → Option (List α)
  | named members => names.mapM fun name => unique? name members
  | ordered fields => if fields.length = names.length then some fields else none

/-- The parts of a value that may be a record. -/
def parts? : Json → Option (Parts Json)
  | object members => some (.named members)
  | array items => some (.ordered items)
  | _ => none

/-- The fields of a record, in the order of their names. -/
def record? (j : Json) (names : List String) : Option (List Json) := do
  (← j.parts?).select? names

/-- The name of a variant that carries no data. -/
def unit? : Json → Option String
  | string name => some name
  | object [(name, null)] => some name
  | _ => none

/-- A variant that carries data is an object of one member, named for the variant. -/
def variant? : Json → Option (String × Json)
  | object [member] => some member
  | _ => none

/-- A variant that carries data. -/
def tagged (name : String) (body : Json) : Json := object [(name, body)]

theorem variant?_tagged (name : String) (body : Json) :
    (tagged name body).variant? = some (name, body) := rfl

end Json

end Camouflage
