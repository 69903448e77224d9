import ExportIndex.StableSort
import ExportIndex.Store
import ExportIndex.Text.Encoding

/-!
Following export statements. A declaration ends up with the resource it is
visible from: a statement that exports everything of another resource empties
that one into its own, a statement that names symbols moves and renames those,
and a container that is assigned as the whole export is emptied into its parent.

The resources themselves never change; only who owns which declarations does. A
target is settled before anything is moved out of it, and every stored resource
is settled once. Chains therefore collapse onto the outermost resource, and a
cycle ends where it began.
-/
namespace ExportIndex

/-- A stored resource, or a container inside it, reached by positions. -/
structure Place where
  key : String
  down : List Nat
  deriving DecidableEq

namespace Place

def top (key : String) : Place := ⟨key, []⟩

def child (p : Place) (i : Nat) : Place := ⟨p.key, p.down ++ [i]⟩

end Place

/-- The state of a pass: the keys settled or being settled, and who owns what. -/
structure Pass where
  done : List String
  owned : Place → List Declaration

namespace Pass

def put (pass : Pass) (place : Place) (ds : List Declaration) : Pass :=
  { pass with owned := fun p => if p = place then ds else pass.owned p }

def give (pass : Pass) (place : Place) (ds : List Declaration) : Pass :=
  pass.put place (pass.owned place ++ ds)

def mark (pass : Pass) (key : String) : Pass := { pass with done := key :: pass.done }

end Pass

namespace Resolution

def rename (specifiers : List Specifier) (ds : List Declaration) : List Declaration :=
  ds.map fun d => { d with name := (renamed? specifiers d.name).getD d.name }

def chosen (specifiers : List Specifier) (ds : List Declaration) : List Declaration :=
  ds.filterMap fun d => (renamed? specifiers d.name).map fun name => { d with name := name }

def unchosen (specifiers : List Specifier) (ds : List Declaration) : List Declaration :=
  ds.filter fun d => (renamed? specifiers d.name).isNone

def moveAll (key : String) (place : Place) (pass : Pass) : Pass :=
  (pass.put (.top key) []).give place (pass.owned (.top key))

def moveChosen (specifiers : List Specifier) (key : String) (place : Place) (pass : Pass) : Pass :=
  let ds := pass.owned (.top key)
  (pass.put (.top key) (unchosen specifiers ds)).give place (chosen specifiers ds)

section Settling

variable (l : Layout) (s : Store)

/-- The stored resource that a statement at `place` refers to, unless it is the one at `place`. -/
def target? (place : Place) (file : Option String) (source : String) : Option String :=
  let key := l.targetKey file source
  if place = .top key ∨ s.contains key = false then none else some key

/-- Carries out one statement, given how to settle a stored resource and how to empty the
containers of a name. -/
def follow (visit : String → Pass → Pass) (drain : String → Pass → List Declaration × Pass)
    (place : Place) (file : Option String) (pass : Pass) : Export → Pass
  | .all source _ =>
    match target? l s place file source with
    | none => pass
    | some key => moveAll key place (visit key pass)
  | .named (some source) specifiers _ =>
    match target? l s place file source with
    | none => pass
    | some key => moveChosen specifiers key place (visit key pass)
  | .named none specifiers _ => pass.put place (rename specifiers (pass.owned place))
  | .assigned identifier _ =>
    let (ds, pass) := drain identifier pass
    pass.give place ds

mutual

def settle (visit : String → Pass → Pass) (place : Place) : Resource → Pass → Pass
  | ⟨kind, _, exports, _, _, resources, _⟩, pass =>
    exports.foldl (follow l s visit (drain visit place 0 resources) place kind.path?) pass

/-- Settles the containers called `identifier` among those held at `place`, the first of which
has position `i`, and takes what is visible in them. -/
def drain (visit : String → Pass → Pass) (place : Place) (i : Nat) :
    List Resource → String → Pass → List Declaration × Pass
  | [], _, pass => ([], pass)
  | r :: rest, identifier, pass =>
    if r.name? = some identifier then
      let inner := place.child i
      let pass := settle visit inner r (pass.put inner (retain r.localNames (pass.owned inner)))
      let (ds, last) := drain visit place (i + 1) rest identifier (pass.put inner [])
      ((pass.owned inner).filter Declaration.isVisible ++ ds, last)
    else drain visit place (i + 1) rest identifier pass

end

/-- Settles the resource stored under a key if that has not begun yet. The bound is on how deep
visits may nest; each level settles a key of its own, so the size of the store is enough. -/
def visitWithin : Nat → String → Pass → Pass
  | 0, _, pass => pass
  | bound + 1, key, pass =>
    if key ∈ pass.done then pass
    else
      match s.get? key with
      | none => pass.mark key
      | some r => settle l s (visitWithin bound) (.top key) r (pass.mark key)

def visit : String → Pass → Pass := visitWithin l s s.size

/-- Longer keys come first, keys of equal length in the order of the store. -/
def order : List String :=
  StableSort.sort (fun a b => Units.length b ≤ Units.length a) s.keys

def settleAll (pass : Pass) : Pass := (order s).foldl (fun pass key => visit l s key pass) pass

end Settling

end Resolution

namespace Resource

def descend (r : Resource) : List Nat → Option Resource
  | [] => some r
  | i :: rest => (r.resources[i]?).bind fun inner => inner.descend rest

mutual

def withOwned (owned : Place → List Declaration) (place : Place) : Resource → Resource
  | ⟨kind, _, exports, imports, usages, resources, span⟩ =>
    ⟨kind, owned place, exports, imports, usages, withOwnedAll owned place 0 resources, span⟩

def withOwnedAll (owned : Place → List Declaration) (place : Place) (i : Nat) :
    List Resource → List Resource
  | [] => []
  | r :: rest => withOwned owned (place.child i) r :: withOwnedAll owned place (i + 1) rest

end

end Resource

namespace Store

def owned (s : Store) (p : Place) : List Declaration :=
  (((s.get? p.key).bind (·.descend p.down)).map Resource.declarations).getD []

def withOwned (s : Store) (owned : Place → List Declaration) : Store :=
  { s with resources := s.resources.mapValues fun key r => r.withOwned owned (.top key) }

def retained (s : Store) : Store :=
  { s with resources := s.resources.mapValues fun _ r => r.retained }

/-- Resolves a store, leaving alone the keys settled earlier, and gives all keys settled so far. -/
def resolveAfter (l : Layout) (done : List String) (s : Store) : List String × Store :=
  let pass := Resolution.settleAll l s.retained ⟨done, s.retained.owned⟩
  (pass.done, s.withOwned pass.owned)

def resolve (l : Layout) (s : Store) : Store := (s.resolveAfter l []).2

end Store

end ExportIndex
