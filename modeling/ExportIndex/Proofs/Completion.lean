import Mathlib.Logic.Function.Iterate
import ExportIndex.Proofs.Conservation
import ExportIndex.Proofs.Lockstep

/-!
A pass comes to an end, settles every stored resource once and leaves nothing to
do. Visits nest no deeper than there are stored keys left to settle, so whatever
would happen below that depth does not matter. In the end the keys that are done
are those that were done before and the stored ones, each added once, and a
second pass finds everything visible and every key done.
-/
namespace ExportIndex

namespace Resolution

variable {l : Layout} {s : Store}

def enter (l : Layout) (s : Store) (visit : String → Pass → Pass) (key : String) (pass : Pass) :
    Pass :=
  if key ∈ pass.done then pass
  else
    match s.get? key with
    | none => pass.mark key
    | some r => settle l s visit (.top key) r (pass.mark key)

/-- The pass with its visits unrolled to a depth; `deeper` stands for all visits below that. -/
def settleUnrolled (l : Layout) (s : Store) (depth : Nat) (deeper : String → Pass → Pass)
    (pass : Pass) : Pass :=
  (order s).foldl (fun pass key => (enter l s)^[depth] deeper key pass) pass

theorem enter_of_done {visit : String → Pass → Pass} {key : String} {a : Pass}
    (early : key ∈ a.done) : enter l s visit key a = a := by
  unfold enter
  rw [if_pos early]

theorem enter_of_fresh {visit : String → Pass → Pass} {key : String} {r : Resource} {a : Pass}
    (fresh : key ∉ a.done) (found : s.get? key = some r) :
    enter l s visit key a = settle l s visit (.top key) r (a.mark key) := by
  unfold enter
  rw [if_neg fresh, found]

theorem visitWithin_succ (bound : Nat) :
    visitWithin l s (bound + 1) = enter l s (visitWithin l s bound) := by
  funext key a
  rw [visitWithin]
  rfl

theorem agreeing_lockstep {visit visit' : String → Pass → Pass} {limit : Nat}
    (grows : ∀ key a, s.contains key = true → a.done ⊆ (visit key a).done)
    (agree : ∀ key a, s.contains key = true → undone s a ≤ limit → visit' key a = visit key a) :
    Lockstep l s s visit visit' (fun _ => True) fun a b => b = a ∧ undone s a ≤ limit where
  owned related _ := by rw [related.1]
  put related p ds := by
    rw [related.1]
    exact ⟨rfl, related.2⟩
  target _ _ _ _ := rfl
  visits {_ _ _ _ key a b} _ _ _ _ found related := by
    obtain ⟨rfl, few⟩ := related
    have held := (target?_eq_some_iff.mp found).2.2
    have fewer := undone_le_of_subset (s := s) (grows key b held)
    exact ⟨trivial, agree key b held few, by omega⟩

theorem visitWithin_eq_unrolled {bound depth : Nat} {deeper : String → Pass → Pass}
    {key : String} {a : Pass} (held : s.contains key = true) (enough : undone s a ≤ bound)
    (deep : undone s a < depth) :
    visitWithin l s bound key a = (enter l s)^[depth] deeper key a := by
  induction bound generalizing depth key a with
  | zero =>
    have early : key ∈ a.done := by
      by_contra fresh
      have fewer := undone_mark_lt held fresh
      omega
    obtain ⟨depth, rfl⟩ : ∃ n, depth = n + 1 := ⟨depth - 1, by omega⟩
    rw [visitWithin, Function.iterate_succ_apply', enter_of_done early]
  | succ bound ih =>
    obtain ⟨depth, rfl⟩ : ∃ n, depth = n + 1 := ⟨depth - 1, by omega⟩
    rw [visitWithin_succ, Function.iterate_succ_apply']
    by_cases early : key ∈ a.done
    · rw [enter_of_done early, enter_of_done early]
    · obtain ⟨r, found⟩ := Store.contains_iff_exists.mp held
      have fewer := undone_mark_lt held early
      have steps : Lockstep l s s (visitWithin l s bound) ((enter l s)^[depth] deeper)
          (fun _ => True) fun b b' => b' = b ∧ undone s b ≤ undone s (a.mark key) := by
        apply agreeing_lockstep (done_subset_visitWithin bound)
        intro key b held few
        exact (ih held (by omega) (by omega)).symm
      have both := steps.settle_related r trivial (.stored found) (a.mark key) (a.mark key)
        ⟨rfl, Nat.le_refl _⟩
      rw [enter_of_fresh early found, enter_of_fresh early found]
      exact both.1.symm

theorem visitWithin_eq_of_enough {bound other : Nat} {key : String} {a : Pass}
    (held : s.contains key = true) (enough : undone s a ≤ bound) (enough' : undone s a ≤ other) :
    visitWithin l s bound key a = visitWithin l s other key a := by
  have unrolled {limit : Nat} (few : undone s a ≤ limit) : visitWithin l s limit key a =
      (enter l s)^[undone s a + 1] (fun _ pass => pass) key a :=
    visitWithin_eq_unrolled held few (Nat.lt_succ_self _)
  rw [unrolled enough, unrolled enough']

/-- The whole pass needs no more than one level for each stored key and one for the last look. -/
theorem settleUnrolled_eq (l : Layout) (s : Store) (deeper : String → Pass → Pass) (a : Pass) :
    settleUnrolled l s (s.size + 1) deeper a = settleAll l s a := by
  unfold settleUnrolled settleAll
  apply List.foldl_ext
  intro b key listed
  have few := undone_le_size (s := s) b
  exact (visitWithin_eq_unrolled (mem_order.mp listed) few (by omega)).symm

/-- That the keys done later are those done before and further stored ones, each once. -/
def Extends (s : Store) (a b : Pass) : Prop :=
  ∃ new, b.done = new ++ a.done ∧ new.Nodup ∧ ∀ k ∈ new, s.contains k = true ∧ k ∉ a.done

namespace Extends

theorem of_done_eq {a b : Pass} (same : b.done = a.done) : Extends s a b := by
  exists []
  simp [same]

theorem trans {a b c : Pass} (first : Extends s a b) (second : Extends s b c) :
    Extends s a c := by
  obtain ⟨new, done, distinct, fresh⟩ := first
  obtain ⟨newer, done', distinct', fresh'⟩ := second
  rw [done] at done' fresh'
  refine ⟨newer ++ new, by rw [done', List.append_assoc], ?_, ?_⟩
  · apply List.nodup_append.mpr
    refine ⟨distinct', distinct, ?_⟩
    rintro k later _ earlier rfl
    exact (fresh' k later).2 (List.mem_append_left _ earlier)
  · intro k member
    rcases List.mem_append.mp member with later | earlier
    · obtain ⟨held, late⟩ := fresh' k later
      exact ⟨held, fun done => late (List.mem_append_right _ done)⟩
    · exact fresh k earlier

theorem mark {a b : Pass} {key : String} (held : s.contains key = true) (fresh : key ∉ a.done)
    (after : Extends s (a.mark key) b) : Extends s a b := by
  have marked : Extends s a (a.mark key) := ⟨[key], rfl, List.nodup_singleton key, by simp_all⟩
  exact marked.trans after

end Extends

theorem extends_rules {visit : String → Pass → Pass}
    (visits : ∀ key a, s.contains key = true → Extends s a (visit key a)) :
    Rules l s visit fun _ a _ b => Extends s a b where
  rest _ _ := .of_done_eq rfl
  next first second := first.trans second
  carried _ _ _ found a := visits _ a (target?_eq_some_iff.mp found).2.2
  renamed _ _ _ := .of_done_eq rfl
  drained _ _ settled := settled
  received _ taken := taken

theorem visitWithin_extends (bound : Nat) (key : String) (a : Pass)
    (held : s.contains key = true) : Extends s a (visitWithin l s bound key a) := by
  apply visitWithin_obeys (V := fun _ a b => Extends s a b) (fun _ => extends_rules)
    (fun _ _ => .of_done_eq rfl) _ bound key a held
  intro key r a b found fresh settled
  exact settled.mark (Store.contains_iff_exists.mpr ⟨r, found⟩) fresh

theorem settleAll_done (l : Layout) (s : Store) (a : Pass) :
    (settleAll l s a).done.Perm (s.keys.filter (· ∉ a.done) ++ a.done) := by
  have extends_all : Extends s a (settleAll l s a) := by
    apply settleAll_keeps (.of_done_eq rfl)
    intro key b held before
    exact before.trans (visitWithin_extends _ key b held)
  obtain ⟨new, done, distinct, fresh⟩ := extends_all
  rw [done]
  apply List.Perm.append_right
  apply (List.perm_ext_iff_of_nodup distinct (s.resources.nodup.filter _)).mpr
  intro k
  rw [List.mem_filter, decide_eq_true_iff]
  constructor
  · intro member
    obtain ⟨held, late⟩ := fresh k member
    exact ⟨(s.resources.contains_iff k).mp held, late⟩
  · intro ⟨stored, late⟩
    have settled := mem_done_settleAll (l := l) ((s.resources.contains_iff k).mpr stored) a
    rw [done] at settled
    exact (List.mem_append.mp settled).resolve_right late

theorem settleAll_of_done {a : Pass} (all : ∀ key, s.contains key = true → key ∈ a.done) :
    settleAll l s a = a := by
  apply settleAll_keeps (P := (· = a)) rfl
  intro key b held same
  rw [same]
  exact visitWithin_of_done (all key held)

end Resolution

namespace Resource

mutual

theorem withOwned_eq_self {owned : Place → List Declaration} : ∀ (r : Resource) {place : Place},
    (∀ way inner, r.descend way = some inner →
      owned ⟨place.key, place.down ++ way⟩ = inner.declarations) → r.withOwned owned place = r
  | ⟨kind, declarations, exports, imports, usages, resources, span⟩, place, agree => by
    have here : owned place = declarations := by simpa using agree [] _ rfl
    have inside : withOwnedAll owned place 0 resources = resources := by
      apply withOwnedAll_eq_self
      intro j inner position way x found
      have below := agree (j :: way) x (by simp [descend, position, found])
      simpa using below
    rw [withOwned, here, inside]

theorem withOwnedAll_eq_self {owned : Place → List Declaration} : ∀ (rs : List Resource)
    {place : Place} {i : Nat}, (∀ j inner, rs[j]? = some inner → ∀ way x,
      inner.descend way = some x →
        owned ⟨place.key, place.down ++ (i + j) :: way⟩ = x.declarations) →
      withOwnedAll owned place i rs = rs
  | [], _, _, _ => by rw [withOwnedAll]
  | r :: rest, place, i, agree => by
    have first : r.withOwned owned (place.child i) = r := by
      apply withOwned_eq_self
      intro way inner found
      have here := agree 0 r rfl way inner found
      simpa using here
    have others : withOwnedAll owned place (i + 1) rest = rest := by
      apply withOwnedAll_eq_self
      intro j inner position way x found
      have later := agree (j + 1) inner (by simpa using position) way x found
      rwa [← Nat.add_assoc, Nat.add_right_comm] at later
    rw [withOwnedAll, first, others]

end

theorem retained_eq_self {r : Resource} (clean : Clean r.declarations) : r.retained = r := by
  unfold retained
  rw [clean.retain_eq]
  cases r
  rfl

end Resource

namespace OrderedMap

variable {κ α : Type}

theorem mapValues_eq_self {m : OrderedMap κ α} {f : κ → α → α}
    (same : ∀ e ∈ m.entries, f e.1 e.2 = e.2) : m.mapValues f = m := by
  apply OrderedMap.ext
  refine (List.map_congr_left fun e member => ?_).trans (List.map_id m.entries)
  rw [same e member]
  rfl

end OrderedMap

namespace Store

theorem withOwned_owned (s : Store) : s.withOwned s.owned = s := by
  have same : (s.resources.mapValues fun key r => r.withOwned s.owned (.top key)) =
      s.resources := by
    apply OrderedMap.mapValues_eq_self
    intro e stored
    apply Resource.withOwned_eq_self
    intro way inner found
    have top : s.get? e.1 = some e.2 := (s.resources.get?_eq_some_iff e.1 e.2).mpr stored
    have place : s.at? ⟨e.1, way⟩ = some inner := by
      rw [at?, top]
      exact found
    exact owned_of_at? place
  unfold withOwned
  rw [same]

theorem retained_eq_self {s : Store} (clean : ∀ key r, s.get? key = some r →
    Clean r.declarations) : s.retained = s := by
  have same : (s.resources.mapValues fun _ r => r.retained) = s.resources := by
    apply OrderedMap.mapValues_eq_self
    intro e stored
    have visible := clean e.1 e.2 ((s.resources.get?_eq_some_iff e.1 e.2).mpr stored)
    exact Resource.retained_eq_self visible
  unfold retained
  rw [same]

theorem resolveAfter_clean (l : Layout) (done : List String) (s : Store) (key : String)
    (r : Resource) (found : (s.resolveAfter l done).2.get? key = some r) :
    Clean r.declarations := by
  have tops : Resolution.TopsClean ⟨done, s.retained.owned⟩ := s.start_clean
  have after := (Resolution.settleAll_balanced l s.retained _ tops).tops tops key
  rw [resolveAfter, get?_withOwned] at found
  obtain ⟨original, -, rfl⟩ := Option.map_eq_some_iff.mp found
  rwa [Resource.declarations_withOwned]

end Store

/-- Resolution comes to an end and settles every stored resource once. Unrolled to one level
more than there are stored keys, it never gets to what lies deeper; the keys that are done
afterwards are those done before and the stored ones, each of them added once; and to resolve
again changes neither the store nor the keys that are done. -/
theorem resolveAfter_completes (l : Layout) (done : List String) (s : Store) :
    (∀ deeper, s.resolveAfter l done =
      let pass := Resolution.settleUnrolled l s.retained (s.size + 1) deeper
        ⟨done, s.retained.owned⟩
      (pass.done, s.withOwned pass.owned)) ∧
    (s.resolveAfter l done).1.Perm (s.keys.filter (· ∉ done) ++ done) ∧
    (s.resolveAfter l []).1.length = s.size ∧
    (s.resolveAfter l done).2.resolveAfter l (s.resolveAfter l done).1 =
      s.resolveAfter l done := by
  have settled (done : List String) :
      (s.resolveAfter l done).1.Perm (s.keys.filter (· ∉ done) ++ done) := by
    rw [← s.keys_retained]
    exact Resolution.settleAll_done l s.retained ⟨done, s.retained.owned⟩
  refine ⟨?_, settled done, ?_, ?_⟩
  · intro deeper
    have size : s.retained.size = s.size := List.length_map _
    rw [← size, Resolution.settleUnrolled_eq]
    rfl
  · have count := (settled []).length_eq
    simpa [Store.keys, OrderedMap.keys, Store.size, OrderedMap.size] using count
  · have clean := Store.retained_eq_self (Store.resolveAfter_clean l done s)
    have all : ∀ key, (s.resolveAfter l done).2.contains key = true →
        key ∈ (s.resolveAfter l done).1 := by
      intro key held
      have stored : key ∈ s.keys := by
        have listed := ((s.resolveAfter l done).2.resources.contains_iff key).mp held
        rwa [Store.resolveAfter, Store.withOwned, OrderedMap.keys_mapValues] at listed
      rw [(settled done).mem_iff, List.mem_append, List.mem_filter, decide_eq_true_iff]
      by_cases early : key ∈ done
      · exact Or.inr early
      · exact Or.inl ⟨stored, early⟩
    have again : Resolution.settleAll l (s.resolveAfter l done).2
        ⟨(s.resolveAfter l done).1, (s.resolveAfter l done).2.owned⟩ = _ :=
      Resolution.settleAll_of_done all
    rw [Store.resolveAfter, clean, again, Store.withOwned_owned]

end ExportIndex
