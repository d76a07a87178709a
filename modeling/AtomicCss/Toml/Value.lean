import AtomicCss.Dictionary

/-!
TOML values, and the tables that keys and headers build.
-/

namespace AtomicCss.Toml

/-- How a table came to be. It decides what may still be added to it. -/
inductive Origin where
  /-- Named by a header of its own. -/
  | header
  /-- On the way to a table that a header names. -/
  | implied
  /-- On the way of a dotted key. -/
  | dotted
  /-- Written in braces, which is complete. -/
  | inline
  deriving DecidableEq, Repr

inductive Value where
  | text (value : String)
  | boolean (value : Bool)
  | integer (value : Int)
  | array (items : List Value)
  | table (origin : Origin) (entries : List (String × Value))
  deriving Repr

abbrev Entries := List (String × Value)

/-- Whether a key or a header may lead into a table. Dotted keys do not enter tables of a header. -/
def Origin.isOpen (byKey : Bool) : Origin → Bool
  | .header => !byKey
  | .implied => true
  | .dotted => true
  | .inline => false

def alterAt (byKey : Bool) (change : Origin → Entries → Option Value) :
    List String → Origin → Entries → Option Value
  | [], origin, entries => change origin entries
  | key :: path, origin, entries =>
      match entries.lookup key with
      | none =>
          (alterAt byKey change path (if byKey then .dotted else .implied) []).map fun child =>
            .table origin (Dictionary.put key child entries)
      | some (.table childOrigin children) =>
          if childOrigin.isOpen byKey then
            (alterAt byKey change path childOrigin children).map fun child =>
              .table origin (Dictionary.put key child entries)
          else none
      | some _ => none

/-- Adds a value under a key of one or more parts. No key is set twice, and a dotted key adds only
to tables that dotted keys have made. -/
def addEntry (key : List String) (value : Value) (origin : Origin) (entries : Entries) :
    Option Value :=
  match key.getLast? with
  | none => none
  | some name =>
      alterAt true (fun origin entries =>
        if (origin == .dotted) == key.dropLast.isEmpty || (entries.lookup name).isSome then none
        else some (.table origin (entries ++ [(name, value)]))) key.dropLast origin entries

/-- Opens the table that a header names. Only a table that is merely implied may be there. -/
def openSection (header : List String) (origin : Origin) (entries : Entries) : Option Value :=
  match header.getLast? with
  | none => none
  | some name =>
      alterAt false (fun origin entries =>
        match entries.lookup name with
        | none => some (.table origin (entries ++ [(name, .table .header [])]))
        | some (.table .implied children) =>
            some (.table origin (Dictionary.put name (.table .header children) entries))
        | some _ => none) header.dropLast origin entries

end AtomicCss.Toml
