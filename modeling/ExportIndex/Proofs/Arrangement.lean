import ExportIndex.Proofs.Forest
import ExportIndex.Proofs.Lockstep
import ExportIndex.Proofs.Reexport

/-!
What the order of a store has to do with resolution. The order in which keys
arrived matters only as far as a pass takes them up in another order. On a forest
not even that matters: whatever the order, the stored resources own what the
plain recursion along their statements says.
-/
namespace ExportIndex

variable {l : Layout} {s t : Store}

namespace Store

theorem contains_congr (same : ∀ key, t.get? key = s.get? key) (key : String) :
    t.contains key = s.contains key :=
  congrArg Option.isSome (same key)

theorem contains_of_mapped {f : Resource → Resource}
    (mapped : ∀ key, t.get? key = (s.get? key).map f) (key : String) :
    t.contains key = s.contains key := by
  change (t.get? key).isSome = (s.get? key).isSome
  rw [mapped, Option.isSome_map]

theorem keys_perm (same : ∀ key, t.get? key = s.get? key) : t.keys.Perm s.keys := by
  apply (List.perm_ext_iff_of_nodup t.resources.nodup s.resources.nodup).mpr
  intro key
  have held := contains_congr same key
  exact (t.resources.contains_iff key).symm.trans
    ((Bool.eq_iff_iff.mp held).trans (s.resources.contains_iff key))

end Store

namespace Resolution

theorem order_retained (s : Store) : order s.retained = order s := by
  unfold order
  rw [Store.keys_retained]

theorem target?_congr (same : ∀ key, t.contains key = s.contains key) :
    target? l t = target? l s := by
  funext place file source
  simp only [target?, same]

theorem visitWithin_congr (same : ∀ key, t.get? key = s.get? key) (bound : Nat) :
    ∀ key a, s.contains key = true →
      visitWithin l t bound key a = visitWithin l s bound key a := by
  induction bound with
  | zero => exact fun _ _ _ => rfl
  | succ bound ih =>
    intro key a held
    have steps : Lockstep l s t (visitWithin l s bound) (visitWithin l t bound) (fun _ => True)
        fun a b => b = a := by
      constructor
      · rintro a b p rfl -
        rfl
      · rintro a b rfl p ds
        rfl
      · intro p r e source _ _ _ _
        rw [target?_congr (Store.contains_congr same)]
      · rintro p r e source key a b - - - - found rfl
        exact ⟨trivial, ih key b (target?_eq_some_iff.mp found).2.2⟩
    obtain ⟨r, stored⟩ := Store.contains_iff_exists.mp held
    rw [visitWithin, visitWithin, same, stored]
    split
    · rfl
    · exact steps.settle_related r trivial (.stored stored) (a.mark key) (a.mark key) rfl

end Resolution

namespace Store

open Resolution

theorem settled_congr (same : ∀ key, t.get? key = s.get? key) (orders : order t = order s) :
    t.settled l = s.settled l := by
  have reduced : ∀ key, t.retained.get? key = s.retained.get? key := by
    intro key
    rw [get?_retained, get?_retained, same]
  have size : t.retained.size = s.retained.size := by
    have lengths := (keys_perm reduced).length_eq
    rwa [length_keys, length_keys] at lengths
  have begun : t.start = s.start := by
    unfold start
    congr 1
    funext p
    unfold owned
    rw [reduced]
  unfold settled settleAll
  rw [order_retained, order_retained, orders, begun]
  apply List.foldl_ext
  intro a key member
  unfold visit
  rw [size]
  apply visitWithin_congr reduced
  rw [contains_retained]
  exact mem_order.mp member

section Reduced

variable (reduced : ∀ key, t.get? key = (s.get? key).map Resource.retained)

include reduced

theorem supplier?_of_reduced : t.supplier? l = s.supplier? l := by
  funext key file e
  simp only [supplier?, contains_of_mapped reduced]

theorem takes_of_reduced {taker key : String} {e : Export} :
    t.Takes l taker e key ↔ s.Takes l taker e key := by
  unfold Takes
  rw [reduced, supplier?_of_reduced reduced]
  constructor
  · intro ⟨r, stored, taken⟩
    obtain ⟨original, found, rfl⟩ := Option.map_eq_some_iff.mp stored
    exact ⟨original, found, taken⟩
  · intro ⟨r, stored, taken⟩
    refine ⟨r.retained, ?_, taken⟩
    rw [stored]
    rfl

theorem draws_of_reduced : t.Draws l = s.Draws l := by
  funext taker key
  unfold Draws
  simp only [takes_of_reduced reduced]

theorem Forest.of_reduced (forest : s.Forest l) : t.Forest l where
  plain key r stored := by
    rw [reduced] at stored
    obtain ⟨original, found, rfl⟩ := Option.map_eq_some_iff.mp stored
    exact forest.plain key original found
  apart key r stored := by
    rw [reduced] at stored
    obtain ⟨original, found, rfl⟩ := Option.map_eq_some_iff.mp stored
    rw [supplier?_of_reduced reduced]
    exact forest.apart key original found
  single := by
    rw [draws_of_reduced reduced]
    exact forest.single
  acyclic := by
    rw [draws_of_reduced reduced]
    exact forest.acyclic

end Reduced

theorem Forest.settled_owned (forest : s.Forest l) (same : ∀ key, t.get? key = s.get? key)
    {key : String} (held : s.contains key = true) :
    ((∀ taker, ¬ s.Draws l taker key) → (t.settled l).owned (.top key) = s.eval l key) ∧
    ∀ taker e, s.Takes l taker e key →
      (t.settled l).owned (.top key) = e.left (s.eval l key) := by
  have reduced : ∀ k, t.retained.get? k = (s.get? k).map Resource.retained := by
    intro k
    rw [get?_retained, same]
  have recursion : ∀ k r, t.retained.get? k = some r → s.eval l k =
      r.exports.foldl (gather l t.retained (s.eval l) k r.path?) (t.start.owned (.top k)) := by
    intro k r stored
    have begins : t.start.owned (.top k) = r.declarations := start_owned (by rwa [at?_top])
    have gathers : gather l t.retained (s.eval l) k = gather l s (s.eval l) k := by
      funext file ds e
      unfold gather
      rw [supplier?_of_reduced reduced]
    rw [reduced] at stored
    obtain ⟨original, found, rfl⟩ := Option.map_eq_some_iff.mp stored
    rw [begins, gathers, eval_eq forest.acyclic found]
    rfl
  have begun : ∀ k, t.retained.contains k = true →
      Steady l t.retained (fun k => t.start.owned (.top k)) (s.eval l) t.start k := fun k _ =>
    ⟨fun _ => rfl, fun _ _ _ => List.not_mem_nil, fun early => absurd early List.not_mem_nil,
      fun early => absurd early List.not_mem_nil⟩
  have held : t.retained.contains key = true := by rwa [contains_of_mapped reduced]
  have done : ∀ k, t.retained.contains k = true → k ∈ (t.settled l).done := fun k held =>
    mem_done_settleAll held _
  have steady := settleAll_steady (forest.of_reduced reduced) recursion begun key held
  constructor
  · intro free
    apply steady.whole (done key held)
    intro taker draws
    rw [draws_of_reduced reduced] at draws
    exact absurd draws (free taker)
  · intro taker e takes
    have takes := (takes_of_reduced reduced).mpr takes
    have draws : t.retained.Draws l taker key := ⟨e, takes⟩
    exact steady.rest (done key held) taker e takes (done taker draws.contains.1)

end Store

theorem Resolution.unchosen_eq (specifiers : List Specifier) (ds : List Declaration) :
    unchosen specifiers ds = ds.filter fun d => d.name ∉ specifiers.map Specifier.name := by
  apply List.filter_congr
  intro d _
  by_cases listed : d.name ∈ specifiers.map Specifier.name
  · have chosen := renamed?_isSome listed
    simp_all
  · have unnamed : renamed? specifiers d.name = none := by
      simp_all [renamed?]
    simp_all

/-- On a forest, resolution is a plain recursion whatever the order of the store. A resource
comes to what it makes visible, changed by its statements one after the other, and it owns that
in the end unless a statement of another resource took from it: then it owns nothing after a
statement that exports everything, and what is not named after a statement that lists names. -/
theorem resolve_eq_eval (forest : s.Forest l)
    (same : ∀ key, t.get? key = s.get? key) :
    (∀ key r, s.get? key = some r → s.eval l key =
      r.exports.foldl (Resolution.gather l s (s.eval l) key r.path?) r.retained.declarations) ∧
    ∀ key, s.contains key = true → ∃ last, (t.resolve l).get? key = some last ∧
      ((∀ taker e, ¬ s.Takes l taker e key) → last.declarations = s.eval l key) ∧
      (∀ taker source span, s.Takes l taker (.all source span) key → last.declarations = []) ∧
      (∀ taker source specifiers span, s.Takes l taker (.named source specifiers span) key →
        last.declarations =
          (s.eval l key).filter fun d => d.name ∉ specifiers.map Specifier.name) := by
  refine ⟨fun key r stored => Store.eval_eq forest.acyclic stored, ?_⟩
  intro key held
  obtain ⟨whole, rest⟩ := forest.settled_owned same held
  obtain ⟨r, stored⟩ := Store.contains_iff_exists.mp held
  rw [← same] at stored
  refine ⟨_, Store.get?_resolve l stored, ?_⟩
  rw [Resource.declarations_withOwned]
  refine ⟨?_, ?_, ?_⟩
  · intro free
    apply whole
    intro taker ⟨e, takes⟩
    exact free taker e takes
  · intro taker source span takes
    exact rest taker _ takes
  · intro taker source specifiers span takes
    rw [rest taker _ takes, ← Resolution.unchosen_eq]
    rfl

theorem OrderedMap.get?_of_perm {κ α : Type} [DecidableEq κ] {m n : OrderedMap κ α}
    (perm : m.entries.Perm n.entries) (k : κ) : m.get? k = n.get? k := by
  apply Option.ext
  intro a
  rw [get?_eq_some_iff, get?_eq_some_iff, perm.mem_iff]

section Sample

/-- A chain of three modules. The outermost exchanges names that it has only from the others, and
of two specifiers for one name the first counts. -/
def relabelled : Store :=
  ((Store.empty.set "outer" (declared "outer" ["V"] [.all "inner" none,
    .named none [⟨"Z", some "A"⟩, ⟨"X", some "Z"⟩, ⟨"Z", some "B"⟩] none])).set "inner"
    (declared "inner" ["X"] [.named (some "base") [⟨"Y", some "Z"⟩, ⟨"Y", some "Q"⟩] none])).set
    "base" (declared "base" ["Y", "W"] [])

def relabelledTurned : Store :=
  relabelled.resources.entries.reverse.foldl (fun s m => s.set m.1 m.2) .empty

theorem relabelledTurned_get? (key : String) : relabelledTurned.get? key = relabelled.get? key :=
  OrderedMap.get?_of_perm (List.reverse_perm relabelled.resources.entries) key

theorem relabelled_supplies :
    ∀ m ∈ relabelled.resources.entries,
      (m.2.exports.filterMap (relabelled.supplier? { root := "/ws" } m.1 m.2.path?)).Nodup ∧
      ∀ e ∈ m.2.exports, (m.1, relabelled.supplier? { root := "/ws" } m.1 m.2.path? e) ∈
        [("outer", some "inner"), ("outer", none), ("inner", some "base")] := by
  decide +kernel

theorem relabelled_draws {taker key : String}
    (draws : relabelled.Draws { root := "/ws" } taker key) :
    (taker = "outer" ∧ key = "inner") ∨ (taker = "inner" ∧ key = "base") := by
  obtain ⟨e, r, stored, statement, supplied⟩ := draws
  have entry := (relabelled.resources.get?_eq_some_iff taker r).mp stored
  have supply := (relabelled_supplies (taker, r) entry).2 e statement
  simpa [supplied] using supply

theorem relabelled_forest : relabelled.Forest { root := "/ws" } where
  plain key r stored i inner := by
    have bare : ∀ m ∈ relabelled.resources.entries, m.2.resources = [] := by decide
    intro ⟨position, _⟩
    rw [bare (key, r) ((relabelled.resources.get?_eq_some_iff key r).mp stored)] at position
    cases position
  apart key r stored :=
    (relabelled_supplies (key, r) ((relabelled.resources.get?_eq_some_iff key r).mp stored)).1
  single key taker other draws also := by
    rcases relabelled_draws draws with ⟨rfl, rfl⟩ | ⟨rfl, rfl⟩
    · rcases relabelled_draws also with ⟨rfl, -⟩ | ⟨-, impossible⟩
      · rfl
      · exact absurd impossible (by decide)
    · rcases relabelled_draws also with ⟨-, impossible⟩ | ⟨rfl, -⟩
      · exact absurd impossible (by decide)
      · rfl
  acyclic key around := by
    let rank : String → Nat := fun k => if k = "outer" then 2 else if k = "inner" then 1 else 0
    have falls : relabelled.Draws { root := "/ws" } ≤ Function.onFun (· > ·) rank := by
      intro a b draws
      rcases relabelled_draws draws with ⟨rfl, rfl⟩ | ⟨rfl, rfl⟩
      · decide
      · decide
    have lower := Relation.TransGen.lift rank falls key key around
    rw [Relation.transGen_eq_self] at lower
    exact Nat.lt_irrefl _ lower

theorem relabelledTurned_resolves :
    relabelledTurned.keys ≠ relabelled.keys ∧
    ((relabelledTurned.resolve { root := "/ws" }).get? "outer").map Resource.declarations =
      some (relabelled.eval { root := "/ws" } "outer") ∧
    (relabelled.eval { root := "/ws" } "outer").map Declaration.name = ["V", "Z", "A"] ∧
    ((relabelledTurned.resolve { root := "/ws" }).get? "inner").map Resource.declarations =
      some [] ∧
    ((relabelledTurned.resolve { root := "/ws" }).get? "base").map Resource.declarations =
      some ((relabelled.eval { root := "/ws" } "base").filter (·.name = "W")) := by
  obtain ⟨-, owned⟩ := resolve_eq_eval relabelled_forest relabelledTurned_get?
  obtain ⟨outer, atOuter, whole, -, -⟩ := owned "outer" rfl
  obtain ⟨inner, atInner, -, empty, -⟩ := owned "inner" rfl
  obtain ⟨base, atBase, -, -, rest⟩ := owned "base" rfl
  have free : ∀ taker e, ¬ relabelled.Takes { root := "/ws" } taker e "outer" := by
    intro taker e takes
    rcases relabelled_draws ⟨e, takes⟩ with ⟨-, impossible⟩ | ⟨-, impossible⟩
    · exact absurd impossible (by decide)
    · exact absurd impossible (by decide)
  have takesAll : relabelled.Takes { root := "/ws" } "outer" (.all "inner" none) "inner" :=
    ⟨_, rfl, List.mem_cons_self, by decide +kernel⟩
  have takesSome : relabelled.Takes { root := "/ws" } "inner"
      (.named (some "base") [⟨"Y", some "Z"⟩, ⟨"Y", some "Q"⟩] none) "base" :=
    ⟨_, rfl, List.mem_cons_self, by decide +kernel⟩
  rw [atOuter, atInner, atBase]
  refine ⟨by decide, congrArg some (whole free), by decide +kernel,
    congrArg some (empty _ _ _ takesAll), congrArg some ((rest _ _ _ _ takesSome).trans ?_)⟩
  decide +kernel

end Sample

end ExportIndex
