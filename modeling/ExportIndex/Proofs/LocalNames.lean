import ExportIndex.Catalog
import ExportIndex.Proofs.Forwarding

/-!
Statements that name a resource's own symbols. Each one renames what the resource
owns at that moment, so it sees the names that earlier statements gave, not those
that were declared. A symbol ends under the name that the first specifier for it
gives unless a later statement names that new name and so takes it for a symbol
of its own.
-/
namespace ExportIndex

theorem renamed?_append (first second : List Specifier) (name : String) :
    renamed? (first ++ second) name = (renamed? first name).or (renamed? second name) := by
  rw [renamed?, renamed?, renamed?, List.find?_append, Option.map_or]

def renameBy (rule : String → String) (ds : List Declaration) : List Declaration :=
  ds.map fun d => { d with name := rule d.name }

theorem renameBy_renameBy (first second : String → String) (ds : List Declaration) :
    renameBy second (renameBy first ds) = renameBy (fun name => second (first name)) ds := by
  simp only [renameBy, List.map_map, Function.comp_def]

theorem renameBy_inj {rule other : String → String} {ds : List Declaration} :
    renameBy rule ds = renameBy other ds ↔ ∀ d ∈ ds, rule d.name = other d.name := by
  rw [renameBy, renameBy, List.map_inj_left]
  refine forall₂_congr fun d _ => ⟨fun same => congrArg Declaration.name same, fun same => ?_⟩
  rw [same]

namespace Export

def localSpecifiers : Export → List Specifier
  | .named none specifiers _ => specifiers
  | _ => []

def isLocal : Export → Bool
  | .named none _ _ => true
  | _ => false

/-- The name that the first specifier for a declared name gives, over all statements. -/
def firstName (es : List Export) (name : String) : String :=
  (renamed? (es.flatMap localSpecifiers) name).getD name

/-- The name that is left when each statement renames what it finds. -/
def lastName : List Export → String → String
  | [], name => name
  | e :: es, name => lastName es ((renamed? e.localSpecifiers name).getD name)

/-- Whether the name that the first specifier for `name` gives is not kept by the statements after
that one. -/
def overtaken : List Export → String → Bool
  | [], _ => false
  | e :: es, name =>
    match renamed? e.localSpecifiers name with
    | none => overtaken es name
    | some newName => lastName es newName ≠ newName

theorem firstName_cons (e : Export) (es : List Export) (name : String) :
    firstName (e :: es) name = (renamed? e.localSpecifiers name).getD (firstName es name) := by
  rw [firstName, List.flatMap_cons, renamed?_append]
  cases renamed? e.localSpecifiers name with
  | none => rfl
  | some newName => rfl

theorem lastName_eq_firstName_iff (es : List Export) (name : String) :
    lastName es name = firstName es name ↔ overtaken es name = false := by
  induction es generalizing name with
  | nil => simp [lastName, firstName, overtaken, renamed?]
  | cons e es ih =>
    rw [firstName_cons, lastName, overtaken]
    cases renamed? e.localSpecifiers name with
    | none => exact ih name
    | some newName => simp

end Export

def Resource.OnlyLocal (r : Resource) : Prop := ∀ e ∈ r.exports, e.isLocal = true

instance (r : Resource) : Decidable r.OnlyLocal :=
  inferInstanceAs (Decidable (∀ e ∈ r.exports, e.isLocal = true))

namespace Resource.OnlyLocal

variable {r : Resource} (only : r.OnlyLocal)

include only

theorem assignedNames_eq : r.assignedNames = [] := by
  apply List.filterMap_eq_nil_iff.mpr
  intro e statement
  have known := only e statement
  cases e with
  | all source span => rfl
  | named source specifiers span => rfl
  | assigned identifier span => simp [Export.isLocal] at known

theorem targets_eq (l : Layout) : Store.targets l r = [] := by
  apply List.filterMap_eq_nil_iff.mpr
  intro e statement
  have known := only e statement
  match e, known with
  | .named none specifiers span, _ => rfl

theorem not_refers {l : Layout} {s : Store} {key target : String} (stored : s.get? key = some r) :
    ¬ s.Refers l key target := by
  intro refers
  have listed := refers.mem_targets stored only.assignedNames_eq
  rw [only.targets_eq] at listed
  cases listed

end Resource.OnlyLocal

namespace Resolution

variable {l : Layout} {s : Store} {key : String}

theorem rename_eq (specifiers : List Specifier) (ds : List Declaration) :
    rename specifiers ds = renameBy (fun name => (renamed? specifiers name).getD name) ds := rfl

theorem owned_foldl_local {visit : String → Pass → Pass}
    {empty : String → Pass → List Declaration × Pass} {place : Place} {file : Option String}
    {es : List Export} (only : ∀ e ∈ es, e.isLocal = true) (a : Pass) :
    (es.foldl (follow l s visit empty place file) a).owned place =
      renameBy (Export.lastName es) (a.owned place) := by
  induction es generalizing a with
  | nil => simp [renameBy, Export.lastName]
  | cons e es ih =>
    have rest := ih fun e later => only e (List.mem_cons_of_mem _ later)
    have known := only e List.mem_cons_self
    match e, known with
    | .named none specifiers span, _ =>
      rw [List.foldl_cons, rest, follow, Pass.owned_put_self, rename_eq, renameBy_renameBy]
      rfl

theorem settleAll_local {r : Resource} (alone : order s = [key]) (stored : s.get? key = some r)
    (only : r.OnlyLocal) {a : Pass} (fresh : key ∉ a.done) :
    (settleAll l s a).owned (.top key) =
      renameBy (Export.lastName r.exports) (a.owned (.top key)) := by
  obtain ⟨n, size⟩ := exists_size (Store.contains_iff_exists.mpr ⟨r, stored⟩)
  rw [settleAll, alone, List.foldl_cons, List.foldl_nil, visit, size, visitWithin_succ,
    enter_of_fresh fresh stored, settle_eq_foldl, owned_foldl_local only, Pass.owned_mark]

theorem filter_order (held : s.contains key = true) : (order s).filter (· = key) = [key] := by
  have distinct : (order s).Nodup := (StableSort.sort_perm _ _).nodup_iff.mpr s.resources.nodup
  rw [List.filter_eq, List.count_eq_one_of_mem distinct (mem_order.mpr held), List.replicate_one]

end Resolution

namespace Store

variable {l : Layout} {s : Store} {key : String} {r : Resource}

theorem declarations_resolve_local (stored : s.get? key = some r) (only : r.OnlyLocal)
    (apart : ∀ other, other ≠ key → ¬ s.Refers l other key) :
    ((s.resolve l).get? key).map Resource.declarations =
      some (renameBy (Export.lastName r.exports) r.retained.declarations) := by
  have held := contains_iff_exists.mpr ⟨r, stored⟩
  have inside : (fun k => decide (k = key)) key = true := by simp
  have separate : ∀ k target, s.Refers l k target → decide (k = key) = decide (target = key) := by
    intro k target refers
    have notOwn : k ≠ key := by
      rintro rfl
      exact only.not_refers stored refers
    have notHere : target ≠ key := by
      rintro rfl
      exact apart k notOwn refers
    simp [notOwn, notHere]
  have kept : (s.restrict (· = key)).retained.get? key = some r.retained := by
    rw [get?_retained_restrict, if_pos inside, get?_retained, stored]
    rfl
  have alone : Resolution.order (s.restrict (· = key)).retained = [key] := by
    rw [order_retained_restrict, Resolution.filter_order held]
  have begins : s.retained.owned (.top key) = r.retained.declarations := by
    apply owned_of_at?
    rw [at?_top, get?_retained, stored]
    rfl
  rw [declarations_resolve_part separate inside held, settled,
    Resolution.settleAll_local alone kept only List.not_mem_nil, start_restrict inside, begins]
  rfl

end Store

/-- What becomes of a stored resource whose statements are all about its own symbols, and that no
other refers to. It keeps what it makes visible, in order, each under the name that is left when
the statements rename one after the other. That is the name that the first specifier for the
declared one gives, for all of them, exactly if no such name is overtaken by a later statement. -/
theorem resolve_renames_local {l : Layout} {s : Store} {key : String} {r : Resource}
    (stored : s.get? key = some r) (only : r.OnlyLocal)
    (apart : ∀ other, other ≠ key → ¬ s.Refers l other key) :
    ∃ last, (s.resolve l).get? key = some last ∧
      last.declarations = renameBy (Export.lastName r.exports) r.retained.declarations ∧
      (last.declarations = renameBy (Export.firstName r.exports) r.retained.declarations ↔
        ∀ d ∈ r.retained.declarations, Export.overtaken r.exports d.name = false) := by
  obtain ⟨last, found, same⟩ :=
    Option.map_eq_some_iff.mp (Store.declarations_resolve_local stored only apart)
  refine ⟨last, found, same, ?_⟩
  rw [same, renameBy_inj]
  exact forall₂_congr fun d _ => Export.lastName_eq_firstName_iff r.exports d.name

section Sample

def exchanged : Store :=
  modules [("split", ["a", "b"],
      [.named none [⟨"a", some "b"⟩] none, .named none [⟨"b", some "a"⟩] none]),
    ("joint", ["a", "b"], [.named none [⟨"a", some "b"⟩, ⟨"b", some "a"⟩] none]),
    ("outer", [], [.all "inner" none]), ("inner", ["a"], [])]

theorem exchanged_apart {key : String} (member : key ∈ ["split", "joint"]) (other : String) :
    ¬ exchanged.Refers { root := "/ws" } other key := by
  have named : ∀ k ∈ exchanged.keys, ∀ key ∈ ["split", "joint"],
      ¬ exchanged.Refers { root := "/ws" } k key := by
    decide +kernel
  intro refers
  have stored := (exchanged.resources.contains_iff other).mp refers.contains.1
  exact named other stored key member refers

theorem exchanged_renamed :
    (∃ last, (exchanged.resolve { root := "/ws" }).get? "joint" = some last ∧
      last.declarations = [exportedClass "b", exportedClass "a"]) ∧
    ∃ last, (exchanged.resolve { root := "/ws" }).get? "split" = some last ∧
      last.declarations = [exportedClass "a", exportedClass "a"] := by
  constructor
  · have stored : exchanged.get? "joint" = some _ := rfl
    obtain ⟨last, found, -, first⟩ := resolve_renames_local stored (by decide)
      fun other _ => exchanged_apart (by decide) other
    exact ⟨last, found, (first.mpr (by decide)).trans (by decide)⟩
  · have stored : exchanged.get? "split" = some _ := rfl
    obtain ⟨last, found, same, -⟩ := resolve_renames_local stored (by decide)
      fun other _ => exchanged_apart (by decide) other
    exact ⟨last, found, same.trans (by decide)⟩

/-- The second of two statements takes the name that the first one gave for a symbol declared under
it. Both symbols end under one name, and the catalog lists neither under the other. -/
theorem split_loses_name :
    ∃ r last, exchanged.get? "split" = some r ∧ r.OnlyLocal ∧
      (∀ other, other ≠ "split" → ¬ exchanged.Refers { root := "/ws" } other "split") ∧
      (exchanged.resolve { root := "/ws" }).get? "split" = some last ∧
      renameBy (Export.firstName r.exports) r.retained.declarations =
        [exportedClass "b", exportedClass "a"] ∧
      last.declarations = [exportedClass "a", exportedClass "a"] ∧
      ((Catalog.ofStore (exchanged.resolve { root := "/ws" })).under "b").map Entry.origin =
        ["joint"] := by
  refine ⟨_, _, rfl, by decide, fun other _ => exchanged_apart (by decide) other, rfl, by decide,
    ?_, by decide +kernel⟩
  decide +kernel

end Sample

end ExportIndex
