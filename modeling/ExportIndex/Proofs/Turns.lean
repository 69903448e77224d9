import ExportIndex.Proofs.Arrangement

/-!
The turns of a pass. A longer key has its turn before a shorter one, and only
among keys of one length does it matter which of them arrived first. This fixes
the turns completely, so stores that hold the same, with keys of one length in
the same order, are resolved to the same resources.
-/
namespace ExportIndex

namespace Store

def Before (s : Store) (a b : String) : Prop := [a, b].Sublist s.keys

instance (s : Store) (a b : String) : Decidable (s.Before a b) :=
  inferInstanceAs (Decidable (List.Sublist _ _))

theorem Before.mem {s : Store} {a b : String} (before : s.Before a b) :
    a ∈ s.keys ∧ b ∈ s.keys :=
  ⟨before.subset (by simp), before.subset (by simp)⟩

def Precedes (s : Store) (a b : String) : Prop :=
  Units.length b < Units.length a ∨ Units.length a = Units.length b ∧ s.Before a b

instance (s : Store) (a b : String) : Decidable (s.Precedes a b) :=
  inferInstanceAs (Decidable (_ ∨ _))

theorem not_sublist_swapped {a b : String} {keys : List String} (distinct : keys.Nodup)
    (first : [a, b].Sublist keys) : ¬ [b, a].Sublist keys := by
  induction keys with
  | nil => cases first
  | cons key keys ih =>
    obtain ⟨fresh, distinct⟩ := List.nodup_cons.mp distinct
    intro second
    rcases List.sublist_cons_iff.mp first with later | ⟨rest, split, below⟩
    · rcases List.sublist_cons_iff.mp second with later' | ⟨rest', split', -⟩
      · exact ih distinct later later'
      · obtain ⟨rfl, -⟩ := List.cons.inj split'
        exact fresh (later.subset (by simp))
    · obtain ⟨rfl, rfl⟩ := List.cons.inj split
      rcases List.sublist_cons_iff.mp second with later' | ⟨rest', split', -⟩
      · exact fresh (later'.subset (by simp))
      · obtain ⟨rfl, -⟩ := List.cons.inj split'
        exact fresh (below.subset (by simp))

theorem Precedes.asymm {s : Store} {a b : String} (first : s.Precedes a b) :
    ¬ s.Precedes b a := by
  rintro (shorter | ⟨equal, before⟩)
  · rcases first with shorter' | ⟨equal, -⟩
    · omega
    · omega
  · rcases first with shorter' | ⟨-, before'⟩
    · omega
    · exact not_sublist_swapped s.resources.nodup before before'

end Store

namespace Resolution

theorem order_perm (s : Store) : (order s).Perm s.keys := StableSort.sort_perm _ _

theorem order_eq_of_keys {s t : Store} (keys : t.keys = s.keys) : order t = order s := by
  unfold order
  rw [keys]

theorem order_pairwise (s : Store) : (order s).Pairwise s.Precedes := by
  have sorted : (order s).Pairwise fun a b => decide (Units.length b ≤ Units.length a) = true := by
    apply StableSort.sort_pairwise
    · intro a b
      simpa using Nat.le_total (Units.length b) (Units.length a)
    · intro a b c first second
      simp only [decide_eq_true_eq] at first second ⊢
      omega
  apply List.pairwise_iff_forall_sublist.mpr
  intro a b taken
  have bound := of_decide_eq_true (List.pairwise_iff_forall_sublist.mp sorted taken)
  rcases Nat.lt_or_eq_of_le bound with shorter | equal
  · exact Or.inl shorter
  · refine Or.inr ⟨equal.symm, ?_⟩
    -- among keys of this length the sort has changed nothing
    have kept := taken.filter (Units.length · = Units.length a)
    rw [order, StableSort.filter_sort] at kept
    · simp only [equal, decide_true, List.filter_cons_of_pos, List.filter_nil] at kept
      exact kept.trans List.filter_sublist
    · intro x y first second
      simp only [decide_eq_true_eq] at first second ⊢
      omega

/-- The turns are the only order of the stored keys in which each has its turn in time. -/
theorem eq_order {s : Store} {keys : List String} (perm : keys.Perm s.keys)
    (turns : keys.Pairwise s.Precedes) : keys = order s := by
  apply List.Perm.eq_of_pairwise _ turns (order_pairwise s) (perm.trans (order_perm s).symm)
  intro a b _ _ first second
  exact absurd second first.asymm

end Resolution

namespace Store

section Split

variable {s : Store} {key : String} {before after : List String}
  (split : Resolution.order s = before ++ key :: after)

include split

theorem precedes_of_mem_before {k : String} (early : k ∈ before) : s.Precedes k key := by
  have turns := Resolution.order_pairwise s
  rw [split] at turns
  exact (List.pairwise_append.mp turns).2.2 k early key List.mem_cons_self

theorem precedes_of_mem_after {k : String} (late : k ∈ after) : s.Precedes key k := by
  have turns := Resolution.order_pairwise s
  rw [split] at turns
  obtain ⟨-, turns, -⟩ := List.pairwise_append.mp turns
  exact (List.pairwise_cons.mp turns).1 k late

theorem notMem_before : key ∉ before := fun early =>
  (precedes_of_mem_before split early).asymm (precedes_of_mem_before split early)

theorem mem_before_iff {k : String} (held : s.contains k = true) :
    k ∈ before ↔ s.Precedes k key := by
  refine ⟨precedes_of_mem_before split, fun precedes => ?_⟩
  have turn : k ∈ Resolution.order s := Resolution.mem_order.mpr held
  rw [split] at turn
  rcases List.mem_append.mp turn with early | late
  · exact early
  · rcases List.mem_cons.mp late with rfl | late
    · exact absurd precedes precedes.asymm
    · exact absurd (precedes_of_mem_after split late) precedes.asymm

end Split

variable {s t : Store}

theorem order_eq_of_before (same : ∀ key, t.get? key = s.get? key)
    (arrivals : ∀ a b, Units.length a = Units.length b → (t.Before a b ↔ s.Before a b)) :
    Resolution.order t = Resolution.order s := by
  apply Resolution.eq_order ((Resolution.order_perm t).trans (keys_perm same))
  apply (Resolution.order_pairwise t).imp
  rintro a b (shorter | ⟨equal, before⟩)
  · exact Or.inl shorter
  · exact Or.inr ⟨equal, (arrivals a b equal).mp before⟩

theorem get?_resolve_congr (l : Layout) (same : ∀ key, t.get? key = s.get? key)
    (turns : Resolution.order t = Resolution.order s) (key : String) :
    (t.resolve l).get? key = (s.resolve l).get? key := by
  rw [resolve_eq, resolve_eq, settled_congr same turns, get?_withOwned, get?_withOwned, same]

end Store

/-- The order in which keys arrived matters only among keys of one length. Two stores that hold
the same, and in which keys of one length stand in the same order, are resolved to the same
resource under every key, with everything nested in it. -/
theorem resolve_eq_of_before (l : Layout) {s t : Store}
    (same : ∀ key, t.get? key = s.get? key)
    (arrivals : ∀ a b, Units.length a = Units.length b → (t.Before a b ↔ s.Before a b))
    (key : String) : (t.resolve l).get? key = (s.resolve l).get? key := by
  exact Store.get?_resolve_congr l same (Store.order_eq_of_before same arrivals) key

section Sample

/-- Two modules that export everything of a third. The second key is one character, but no
shorter than the first. -/
def contested : Store :=
  ((Store.empty.set "ab" (declared "ab" [] [.all "shared" none])).set "😀"
    (declared "😀" [] [.all "shared" none])).set "shared" (declared "shared" ["Thing"] [])

def contestedEarly : Store :=
  ((Store.empty.set "shared" (declared "shared" ["Thing"] [])).set "ab"
    (declared "ab" [] [.all "shared" none])).set "😀" (declared "😀" [] [.all "shared" none])

theorem contestedEarly_get? (key : String) : contestedEarly.get? key = contested.get? key :=
  OrderedMap.get?_of_perm (List.perm_append_singleton _ _).symm key

theorem contestedEarly_before (a b : String) (equal : Units.length a = Units.length b) :
    contestedEarly.Before a b ↔ contested.Before a b := by
  have stored : ∀ a ∈ contested.keys, ∀ b ∈ contested.keys,
      Units.length a = Units.length b → (contestedEarly.Before a b ↔ contested.Before a b) := by
    decide
  have perm := Store.keys_perm contestedEarly_get?
  constructor
  · intro before
    obtain ⟨first, second⟩ := before.mem
    exact (stored a (perm.subset first) b (perm.subset second) equal).mp before
  · intro before
    obtain ⟨first, second⟩ := before.mem
    exact (stored a first b second equal).mpr before

theorem contestedEarly_resolves :
    contestedEarly.keys ≠ contested.keys ∧ contested.Before "ab" "😀" ∧
    (contestedEarly.resolve { root := "/ws" }).get? "ab" =
      (contested.resolve { root := "/ws" }).get? "ab" ∧
    ((contested.resolve { root := "/ws" }).get? "ab").map (·.declarations.map Declaration.name) =
      some ["Thing"] := by
  refine ⟨by decide, by decide, ?_, by decide +kernel⟩
  exact resolve_eq_of_before { root := "/ws" } contestedEarly_get? contestedEarly_before "ab"

end Sample

end ExportIndex
