import ExportIndex.Layout.Key
import ExportIndex.OrderedMap
import ExportIndex.Path.Identity
import ExportIndex.Resource

/-!
All resources of a project by key, in the order in which the keys arrived. A
key that came from a file remembers its source, and each source remembers the
keys it produced, so that a file that changes or goes takes exactly its own keys
with it.
-/
namespace ExportIndex

structure Store where
  resources : OrderedMap String Resource
  produced : OrderedMap PathIdentity (List String)
  sources : OrderedMap String String

namespace Store

def empty : Store := ⟨.empty, .empty, .empty⟩

instance : Inhabited Store := ⟨empty⟩

def keys (s : Store) : List String := s.resources.keys

def size (s : Store) : Nat := s.resources.size

def get? (s : Store) (key : String) : Option Resource := s.resources.get? key

def contains (s : Store) (key : String) : Bool := s.resources.contains key

def keysOf (s : Store) (path : String) : List String :=
  (s.produced.get? (.ofText path)).getD []

def source? (s : Store) (key : String) : Option String := s.sources.get? key

/-- Forgets where a key came from. A source without keys is forgotten too. -/
def detach (s : Store) (key : String) : Store :=
  match s.source? key with
  | none => s
  | some path =>
    let others := (s.keysOf path).filter (· ≠ key)
    { s with
      produced :=
        if others = [] then s.produced.erase (.ofText path)
        else s.produced.insert (.ofText path) others
      sources := s.sources.erase key }

def set (s : Store) (key : String) (r : Resource) : Store :=
  let s := s.detach key
  { s with resources := s.resources.insert key r }

def setFrom (s : Store) (path key : String) (r : Resource) : Store :=
  let s := s.detach key
  { resources := s.resources.insert key r
    produced := s.produced.insert (.ofText path) (s.keysOf path ++ [key])
    sources := s.sources.insert key path }

/-- Removes what is stored under a key, together with where it came from. -/
def erase (s : Store) (key : String) : Store :=
  let s := s.detach key
  { s with resources := s.resources.erase key }

def forget (s : Store) (path : String) : Store where
  resources := (s.keysOf path).foldl .erase s.resources
  produced := s.produced.erase (.ofText path)
  sources := (s.keysOf path).foldl .erase s.sources

def modify (s : Store) (key : String) (f : Resource → Resource) : Store :=
  match s.get? key with
  | none => s
  | some r => { s with resources := s.resources.insert key (f r) }

/-- What a parsed file contributes, by key: an ambient file its containers under their own names,
any other file itself. -/
def contributions (l : Layout) (path : String) (file : Resource) : List (String × Resource) :=
  match l.region path with
  | .ambient => file.resources.filterMap fun r => r.name?.map (·, r)
  | .package | .workspace => ((l.keyOf? path).map (·, file)).toList

def setAllFrom (s : Store) (path : String) (entries : List (String × Resource)) : Store :=
  entries.foldl (fun s e => s.setFrom path e.1 e.2) s

/-- Adds what a parser returned and gives the keys it is stored under. A file replaces everything
that came from it before; a container is stored under its name and comes from no file. -/
def add (l : Layout) (s : Store) (r : Resource) : List String × Store :=
  match r.kind with
  | .file path =>
    let entries := contributions l path r
    (entries.map Prod.fst, (s.forget path).setAllFrom path entries)
  | .declaredModule name | .declaredNamespace name => ([name], s.set name r)

def addAll (l : Layout) (s : Store) (rs : List Resource) : Store :=
  rs.foldl (fun s r => (s.add l r).2) s

/-- Removes a deleted file: what it produced, and what stands under its key unless that came
from another file. -/
def delete (l : Layout) (s : Store) (path : String) : Store :=
  let s := s.forget path
  match l.keyOf? path with
  | none => s
  | some key => if (s.source? key).all (SameFile · path) then s.erase key else s

def targets (l : Layout) (r : Resource) : List String :=
  r.exports.filterMap fun e => e.source?.map (l.targetKey r.path?)

def dependents (l : Layout) (s : Store) (marked : List String) : List String :=
  s.resources.values.filterMap fun r =>
    if (targets l r).any marked.contains then r.path? else none

end Store

end ExportIndex
