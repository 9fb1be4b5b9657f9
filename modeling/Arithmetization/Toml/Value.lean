/-!
This module contains the values of TOML documents, and the rules by which keys and headers may
define and extend tables. Where a table was defined decides who may add to it later.
-/

namespace Arithmetization

namespace Toml

inductive Origin where
  -- A header named it.
  | header
  -- A double header added it to an array.
  | item
  -- A header named a table inside it.
  | implied
  -- A dotted key named a key inside it.
  | dotted
  -- It was written between braces.
  | inline
deriving DecidableEq

inductive Value where
  | string (s : String)
  | integer (n : Int)
  | float (literal : String)
  | boolean (b : Bool)
  | moment (literal : String)
  | array (items : List Value)
  | tables (items : List Value)
  | table (origin : Origin) (entries : List (String × Value))

abbrev Entries := List (String × Value)

namespace Entries

def alter (key : String) (f : Option Value → Option Value) : Entries → Option Entries
  | [] => (f none).map fun v => [(key, v)]
  | (k, v) :: rest =>
    if k = key then
      (f (some v)).map fun v => (key, v) :: rest
    else
      (alter key f rest).map ((k, v) :: ·)

inductive Route where
  | header
  | dotted
deriving DecidableEq

def Route.made : Route → Origin
  | .header => .implied
  | .dotted => .dotted

/--
Whether a route may enter a table of the given origin. Only tables between braces are closed to
headers. A key must end in a table that dotted keys have made, but it may pass through those that
are known from longer headers only, and through items of arrays.
-/
def Route.enters (passes : Bool) : Route → Origin → Bool
  | .header, origin => origin ≠ .inline
  | .dotted, .dotted => true
  | .dotted, .implied => passes
  | .dotted, .item => passes
  | .dotted, _ => false

def within (route : Route) (path : List String) (f : Entries → Option Entries)
    (entries : Entries) : Option Entries :=
  match path with
  | [] => f entries
  | key :: path =>
    entries.alter key fun
      | none => (within route path f []).map (.table route.made ·)
      | some (.table origin inner) =>
        if route.enters (path ≠ []) origin then
          (within route path f inner).map (.table origin ·)
        else
          none
      | some (.tables items) =>
        -- An array of tables stands for the last of them.
        match items.getLast? with
        | some (.table origin inner) =>
          if route.enters (path ≠ []) origin then
            (within route path f inner).map fun inner =>
              .tables (items.dropLast ++ [.table origin inner])
          else
            none
        | _ => none
      | some _ => none

def underHeader (path : List String) (f : Entries → Option Entries) (entries : Entries) :
    Option Entries :=
  within .header path f entries

def define (path : List String) (key : String) (v : Value) (entries : Entries) : Option Entries :=
  within .dotted path
    (alter key fun
      | none => some v
      | some _ => none)
    entries

def openTable (path : List String) (key : String) (entries : Entries) : Option Entries :=
  underHeader path
    (alter key fun
      | none => some (.table .header [])
      | some (.table .implied inner) => some (.table .header inner)
      | some _ => none)
    entries

def appendTable (path : List String) (key : String) (entries : Entries) : Option Entries :=
  underHeader path
    (alter key fun
      | none => some (.tables [.table .item []])
      | some (.tables items) => some (.tables (items ++ [.table .item []]))
      | some _ => none)
    entries

end Entries

end Toml

end Arithmetization
