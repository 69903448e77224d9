/-!
Values of the data format, and how single parts are read from them. A number is
its digits and how many of them stand after the point, so that an integer is a
number with none. A record is an object with named fields, or the list of its
fields in order.
-/
namespace ExportIndex

inductive Json where
  | null
  | bool (value : Bool)
  | number (digits : Int) (places : Nat)
  | text (value : String)
  | list (items : List Json)
  | object (fields : List (String × Json))

namespace Json

instance : Inhabited Json := ⟨.null⟩

def field? (name : String) : List (String × Json) → Option Json
  | [] => none
  | f :: rest => if f.1 = name then some f.2 else field? name rest

/-- Whether the value has the form of a record with at least `least` and at most `most` fields,
as far as the form alone can tell. -/
def isRecord (least most : Nat) : Json → Bool
  | .object _ => true
  | .list items => least ≤ items.length && items.length ≤ most
  | _ => false

/-- A field of a record by its name or its position. -/
def part? (position : Nat) (name : String) : Json → Option Json
  | .object fields => field? name fields
  | .list items => items[position]?
  | _ => none

def text? : Json → Option String
  | .text value => some value
  | _ => none

def bool? : Json → Option Bool
  | .bool value => some value
  | _ => none

def uint32? : Json → Option UInt32
  | .number digits 0 =>
    if 0 ≤ digits ∧ digits < 4294967296 then some (.ofNat digits.toNat) else none
  | _ => none

def each? {α : Type} (read? : Json → Option α) : List Json → Option (List α)
  | [] => some []
  | j :: rest => do
    let a ← read? j
    let as ← each? read? rest
    return a :: as

def list? {α : Type} (read? : Json → Option α) : Json → Option (List α)
  | .list items => each? read? items
  | _ => none

def fields? {α : Type} (read? : Json → Option α) :
    List (String × Json) → Option (List (String × α))
  | [] => some []
  | f :: rest => do
    let a ← read? f.2
    let as ← fields? read? rest
    return (f.1, a) :: as

def optional? {α : Type} (read? : Json → Option α) : Json → Option (Option α)
  | .null => some none
  | j => (read? j).map some

def ofUInt32 (n : UInt32) : Json := .number n.toNat 0

def ofTexts (texts : List String) : Json := .list (texts.map .text)

end Json

end ExportIndex
