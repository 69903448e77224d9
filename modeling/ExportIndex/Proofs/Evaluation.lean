import Mathlib.Logic.Relation
import ExportIndex.Proofs.LivePlaces

/-!
What the stored resources come to when every one of them is read on its own: a
resource starts with what it makes visible and goes through its statements,
which take from what the other resources come to. This is a plain recursion
along the statements and knows no order among the keys. It finds targets and new
names in its own way, which is proved to agree with that of a pass. Where the
statements lead round in no cycle it is well founded: a resource has more keys
below it than any resource that it draws on.
-/
namespace ExportIndex

namespace Declaration

/-- The specifier that decides under which name a declaration is exported. -/
def specifier? (d : Declaration) (specifiers : List Specifier) : Option Specifier :=
  specifiers.find? fun specifier => specifier.name = d.name

def exportedAs (d : Declaration) (specifier : Specifier) : Declaration :=
  { d with name := specifier.newName.getD specifier.name }

end Declaration

namespace Store

/-- The stored resource that a statement of the resource under `key` takes from. A statement
whose target is not stored, or is that resource itself, takes from none. -/
def supplier? (l : Layout) (s : Store) (key : String) (file : Option String) (e : Export) :
    Option String :=
  (e.source?.map (l.targetKey file)).filter fun target => target ≠ key && s.contains target

def Takes (l : Layout) (s : Store) (taker : String) (e : Export) (key : String) : Prop :=
  ∃ r, s.get? taker = some r ∧ e ∈ r.exports ∧ s.supplier? l taker r.path? e = some key

def Draws (l : Layout) (s : Store) (taker key : String) : Prop := ∃ e, s.Takes l taker e key

variable {l : Layout} {s : Store}

theorem supplier?_of_source {e : Export} {source : String} (named : e.source? = some source)
    (key : String) (file : Option String) :
    s.supplier? l key file e = Resolution.target? l s (.top key) file source := by
  have unequal : Place.top key = .top (l.targetKey file source) ↔ l.targetKey file source = key :=
    ⟨fun eq => (congrArg Place.key eq).symm, fun eq => by rw [eq]⟩
  rw [supplier?, named, Option.map_some, Option.filter_some, Resolution.target?]
  simp only [unequal]
  by_cases own : l.targetKey file source = key
  · simp [own]
  · cases held : s.contains (l.targetKey file source) with
    | false => simp
    | true => simp [own]

theorem supplier?_all (key : String) (file : Option String) (source : String)
    (span : Option Span) : s.supplier? l key file (.all source span) =
      Resolution.target? l s (.top key) file source :=
  supplier?_of_source rfl key file

theorem supplier?_eq_some {key target : String} {file : Option String} {e : Export}
    (supplied : s.supplier? l key file e = some target) :
    ∃ source, e.source? = some source ∧
      Resolution.target? l s (.top key) file source = some target := by
  cases named : e.source? with
  | none => simp [supplier?, named] at supplied
  | some source => exact ⟨source, rfl, (supplier?_of_source named key file) ▸ supplied⟩

theorem Draws.contains {taker key : String} (draws : s.Draws l taker key) :
    s.contains taker = true ∧ s.contains key = true := by
  obtain ⟨e, r, stored, -, supplied⟩ := draws
  obtain ⟨source, -, found⟩ := supplier?_eq_some supplied
  exact ⟨contains_iff_exists.mpr ⟨r, stored⟩, (Resolution.target?_eq_some_iff.mp found).2.2⟩

end Store

namespace Resolution

/-- What one statement makes of the declarations at hand, given what every stored resource
comes to. -/
def gather (l : Layout) (s : Store) (value : String → List Declaration) (key : String)
    (file : Option String) (ds : List Declaration) (e : Export) : List Declaration :=
  let supply := (s.supplier? l key file e).elim [] value
  match e with
  | .all _ _ => ds ++ supply
  | .named (some _) specifiers _ =>
    ds ++ supply.filterMap fun d => (d.specifier? specifiers).map d.exportedAs
  | .named none specifiers _ => ds.map fun d => (d.specifier? specifiers).elim d d.exportedAs
  | .assigned _ _ => ds

/-- What the stored resource under a key comes to, followed through as many resources as the bound
says. -/
def evalWithin (l : Layout) (s : Store) : Nat → String → List Declaration
  | 0, _ => []
  | bound + 1, key =>
    match s.get? key with
    | none => []
    | some r => r.exports.foldl (gather l s (evalWithin l s bound) key r.path?)
        r.retained.declarations

variable {l : Layout} {s : Store} {value value' : String → List Declaration} {key : String}
  {file : Option String} {e : Export}

theorem rename_eq_map (specifiers : List Specifier) (ds : List Declaration) :
    rename specifiers ds = ds.map fun d => (d.specifier? specifiers).elim d d.exportedAs := by
  apply List.map_congr_left
  intro d _
  rw [renamed?, Declaration.specifier?]
  cases specifiers.find? fun specifier => specifier.name = d.name with
  | none => rfl
  | some specifier => rfl

theorem chosen_eq_filterMap (specifiers : List Specifier) (ds : List Declaration) :
    chosen specifiers ds =
      ds.filterMap fun d => (d.specifier? specifiers).map d.exportedAs := by
  apply List.filterMap_congr
  intro d _
  rw [renamed?, Option.map_map]
  rfl

theorem gather_of_supplier {target : String} (supplied : s.supplier? l key file e = some target)
    (ds : List Declaration) :
    gather l s value key file ds e = ds ++ e.taken (value target) := by
  obtain ⟨source, named, -⟩ := Store.supplier?_eq_some supplied
  cases e with
  | all other span =>
    simp only [gather, supplied, Option.elim_some]
    rfl
  | named other specifiers span =>
    obtain rfl : other = some source := named
    simp only [gather, supplied, Option.elim_some, ← chosen_eq_filterMap]
    rfl
  | assigned identifier span => simp [Export.source?] at named

theorem gather_of_no_supplier (alone : s.supplier? l key file e = none) (ds : List Declaration) :
    gather l s value key file ds e =
      match e with
      | .named none specifiers _ => rename specifiers ds
      | _ => ds := by
  unfold gather
  rw [alone]
  split
  · simp
  · simp
  · exact (rename_eq_map _ ds).symm
  · rfl

theorem gather_congr
    (same : ∀ target, s.supplier? l key file e = some target → value target = value' target)
    (ds : List Declaration) : gather l s value key file ds e = gather l s value' key file ds e := by
  have supply : (s.supplier? l key file e).elim [] value =
      (s.supplier? l key file e).elim [] value' := by
    cases supplied : s.supplier? l key file e with
    | none => rfl
    | some target => exact same target supplied
  unfold gather
  rw [supply]

end Resolution

namespace Store

open Resolution

def eval (l : Layout) (s : Store) : String → List Declaration := evalWithin l s s.size

section Acyclic

variable {l : Layout} {s : Store}

open scoped Classical in
noncomputable def depth (l : Layout) (s : Store) (key : String) : Nat :=
  (s.keys.toFinset.filter fun k => Relation.TransGen (s.Draws l) key k).card

theorem mem_toFinset_keys {key : String} (held : s.contains key = true) :
    key ∈ s.keys.toFinset := by
  rw [List.mem_toFinset]
  exact (s.resources.contains_iff key).mp held

variable (acyclic : ∀ key, ¬ Relation.TransGen (s.Draws l) key key)

include acyclic

theorem depth_lt_of_draws {taker key : String} (draws : s.Draws l taker key) :
    s.depth l key < s.depth l taker := by
  classical
  apply Finset.card_lt_card
  rw [Finset.ssubset_iff_of_subset]
  · exists key
    simp only [Finset.mem_filter, not_and]
    exact ⟨⟨mem_toFinset_keys draws.contains.2, .single draws⟩, fun _ => acyclic key⟩
  · intro k member
    obtain ⟨stored, below⟩ := Finset.mem_filter.mp member
    exact Finset.mem_filter.mpr ⟨stored, .head draws below⟩

theorem depth_lt_size {key : String} (held : s.contains key = true) :
    s.depth l key < s.size := by
  classical
  have fewer : s.depth l key < s.keys.toFinset.card := by
    apply Finset.card_lt_card
    apply Finset.filter_ssubset.mpr
    exact ⟨key, mem_toFinset_keys held, acyclic key⟩
  have bound := List.toFinset_card_le s.keys
  have size : s.keys.length = s.size := List.length_map _
  omega

theorem evalWithin_eq {bound bound' : Nat} {key : String} (enough : s.depth l key < bound)
    (enough' : s.depth l key < bound') : evalWithin l s bound key = evalWithin l s bound' key := by
  induction bound generalizing bound' key with
  | zero => omega
  | succ bound ih =>
    obtain ⟨bound', rfl⟩ : ∃ n, bound' = n + 1 := ⟨bound' - 1, by omega⟩
    rw [evalWithin, evalWithin]
    cases found : s.get? key with
    | none => rfl
    | some r =>
      apply List.foldl_ext
      intro ds e statement
      apply gather_congr
      intro target supplied
      have deeper := depth_lt_of_draws acyclic ⟨e, r, found, statement, supplied⟩
      exact ih (by omega) (by omega)

theorem eval_eq {key : String} {r : Resource} (stored : s.get? key = some r) :
    s.eval l key =
      r.exports.foldl (gather l s (s.eval l) key r.path?) r.retained.declarations := by
  have below := depth_lt_size acyclic (contains_iff_exists.mpr ⟨r, stored⟩)
  have unrolled : s.eval l key = evalWithin l s (s.size + 1) key :=
    evalWithin_eq acyclic below (by omega)
  rw [unrolled, evalWithin, stored]
  rfl

end Acyclic

end Store

end ExportIndex
