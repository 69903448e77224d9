import ExportIndex.Changes
import ExportIndex.Delta

/-!
A catalog kept up to date. A session holds what the parser found, the same
store after export resolution, and the catalog of that.

Parsing happens outside: a call that needs it stops with the paths to parse, and
goes on when it is answered. Until then other calls may come in, for instance
from the parser itself; the answer always belongs to the call that stopped last.
A call works on the store it found when it began, and its result is seen only
once it is finished. A second build during a build is dropped; nothing else is.
-/
namespace ExportIndex

inductive Call where
  | build (paths : List String)
  | reindex (changes : Changes)
  | reset

inductive Outcome where
  | built (ran : Bool)
  | changed (delta : Delta)
  | cleared

inductive Waiting where
  | build
  | reindex (parsed : Store) (previous : Option Catalog) (deleted : List String)

/-- How far a call came: to its end, or to the files it needs parsed. -/
inductive Progress where
  | finished (outcome : Outcome)
  | parsing (paths : List String)

structure Session where
  layout : Layout
  parsed : Store
  resolved : Store
  catalog : Option Catalog
  building : Bool
  waiting : List Waiting

namespace Session

def start (l : Layout) : Except Layout.Fault Session :=
  match l.fault? with
  | some fault => .error fault
  | none => .ok ⟨l, .empty, .empty, none, false, []⟩

def install (s : Session) (parsed : Store) : Session :=
  let resolved := parsed.resolve s.layout
  { s with parsed := parsed, resolved := resolved, catalog := some (.ofStore resolved) }

/-- The keys under which the given files are, or would be, stored. -/
def marked (s : Session) (paths : List String) : List String :=
  paths.flatMap fun p => (s.layout.keyOf? p).toList ++ s.parsed.keysOf p

/-- The files to parse for a batch of changes: the changed ones, then the stored files that
refer to anything changed or deleted. -/
def toParse (s : Session) (changes : Changes) : List String :=
  let changed := changes.toRead s.layout.root
  let deleted := changes.gone s.layout.root
  let dependents := s.parsed.dependents s.layout (s.marked (deleted ++ changed))
  (distinctFiles (changed ++ dependents)).filter fun p => !deleted.any (SameFile p ·)

/-- Brings a store up to date: the deleted files go, then what was parsed comes in. -/
def refresh (l : Layout) (parsed : Store) (deleted : List String) (rs : List Resource) : Store :=
  (deleted.foldl (·.delete l) parsed).addAll l rs

def finishReindex (s : Session) (parsed : Store) (previous : Option Catalog)
    (deleted : List String) (rs : List Resource) : Session × Delta :=
  let s := s.install (refresh s.layout parsed deleted rs)
  (s, .between (previous.getD .empty) (s.catalog.getD .empty))

def call (s : Session) : Call → Session × Progress
  | .build paths =>
    if s.building then (s, .finished (.built false))
    else ({ s with building := true, waiting := .build :: s.waiting },
      .parsing (paths.map s.layout.resolve))
  | .reindex changes =>
    let deleted := changes.gone s.layout.root
    match s.toParse changes with
    | [] =>
      let (s, delta) := s.finishReindex s.parsed s.catalog deleted []
      (s, .finished (.changed delta))
    | paths =>
      ({ s with waiting := .reindex s.parsed s.catalog deleted :: s.waiting }, .parsing paths)
  | .reset => ({ s with parsed := .empty, resolved := .empty, catalog := none }, .finished .cleared)

/-- Answers the call that stopped last with what was parsed, or with why that failed. A failure
becomes the outcome of the call and changes nothing else. -/
def answer {ε : Type} (s : Session) (parsing : Except ε (List Resource)) :
    Session × Option (Except ε Outcome) :=
  match s.waiting with
  | [] => (s, none)
  | .build :: rest =>
    let s := { s with waiting := rest, building := false }
    match parsing with
    | .error e => (s, some (.error e))
    | .ok rs => (s.install (Store.empty.addAll s.layout rs), some (.ok (.built true)))
  | .reindex parsed previous deleted :: rest =>
    let s := { s with waiting := rest }
    match parsing with
    | .error e => (s, some (.error e))
    | .ok rs =>
      let (s, delta) := s.finishReindex parsed previous deleted rs
      (s, some (.ok (.changed delta)))

def run {ε : Type} (s : Session) (parser : List String → Except ε (List Resource)) (c : Call) :
    Session × Option (Except ε Outcome) :=
  match s.call c with
  | (s, .finished outcome) => (s, some (.ok outcome))
  | (s, .parsing paths) => s.answer (parser paths)

def isReady (s : Session) : Bool := s.catalog.isSome

def flatten (s : Session) : List Entry := (s.catalog.map Catalog.flatten).getD []

end Session

end ExportIndex
