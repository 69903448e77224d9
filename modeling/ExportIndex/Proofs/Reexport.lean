import Mathlib.Logic.Relation
import ExportIndex.Proofs.LivePlaces

/-!
Symbols that are exported again leave their source, unless the source refers
back. A visit reaches only what its key refers to, directly or on the way, and a
resource that is done and not being settled never gets anything; it can only
lose. So what a statement takes from such a resource is gone for good.
-/
namespace ExportIndex

/-- Whether a statement at a live place of one stored resource names another as its source. -/
def Store.Refers (l : Layout) (s : Store) (key target : String) : Prop :=
  ∃ p r, s.Live p r ∧ p.key = key ∧ target ∈ Store.targets l r ∧ s.contains target = true

namespace Resolution

variable {l : Layout} {s : Store}

theorem refers_of_target {p : Place} {r : Resource} {e : Export} {source key : String}
    (live : s.Live p r) (statement : e ∈ r.exports) (named : e.source? = some source)
    (found : target? l s p r.path? source = some key) : s.Refers l p.key key := by
  obtain ⟨rfl, _, held⟩ := target?_eq_some_iff.mp found
  refine ⟨p, r, live, rfl, ?_, held⟩
  refine List.mem_filterMap.mpr ⟨e, statement, ?_⟩
  rw [named]
  rfl

theorem reached_rules {visit : String → Pass → Pass}
    (visits : ∀ key a, s.contains key = true → ∀ k ∈ (visit key a).done,
      k ∈ a.done ∨ Relation.ReflTransGen (s.Refers l) key k) :
    Rules l s visit fun p a _ b => ∀ k ∈ b.done,
      k ∈ a.done ∨ Relation.ReflTransGen (s.Refers l) p.key k where
  rest _ _ _ done := Or.inl done
  next first second k done := by
    rcases second k done with earlier | reached
    · exact first k earlier
    · exact Or.inr reached
  carried live statement named found a k done := by
    rcases visits _ a (target?_eq_some_iff.mp found).2.2 k done with earlier | reached
    · exact Or.inl earlier
    · exact Or.inr (.head (refers_of_target live statement named found) reached)
  renamed _ _ _ _ done := Or.inl done
  drained _ _ settled := settled
  received _ taken := taken

theorem visitWithin_reached (bound : Nat) (key : String) (a : Pass)
    (held : s.contains key = true) : ∀ k ∈ (visitWithin l s bound key a).done,
      k ∈ a.done ∨ Relation.ReflTransGen (s.Refers l) key k := by
  refine visitWithin_obeys (V := fun key a b => ∀ k ∈ b.done,
      k ∈ a.done ∨ Relation.ReflTransGen (s.Refers l) key k)
    (fun _ => reached_rules) (fun _ _ _ done => Or.inl done) ?_ bound key a held
  intro key r a b found fresh settled k done
  rcases settled k done with marked | reached
  · rcases List.mem_cons.mp marked with rfl | earlier
    · exact Or.inr .refl
    · exact Or.inl earlier
  · exact Or.inr reached

def Shrinks (key : String) (a b : Pass) : Prop :=
  key ∈ a.done → key ∈ b.done ∧ (b.owned (.top key)).Sublist (a.owned (.top key))

theorem Shrinks.trans {key : String} {a b c : Pass} (first : Shrinks key a b)
    (second : Shrinks key b c) : Shrinks key a c := by
  intro done
  obtain ⟨done, here⟩ := first done
  obtain ⟨done, there⟩ := second done
  exact ⟨done, there.trans here⟩

theorem Shrinks.of_owned_eq {key : String} {a b : Pass} (done : a.done = b.done)
    (same : b.owned (.top key) = a.owned (.top key)) : Shrinks key a b := by
  intro earlier
  exact ⟨done ▸ earlier, same ▸ List.Sublist.refl _⟩

theorem shrinks_carry {k : String} {p : Place} (other : p.key ≠ k) (a : Pass) (e : Export)
    (key : String) : Shrinks k a (a.carry e key p) := by
  by_cases same : k = key
  · subst same
    intro done
    rw [Pass.owned_carry_target (Ne.symm (Place.top_ne_of_key_ne other))]
    exact ⟨done, e.left_sublist _⟩
  · have different : Place.top k ≠ .top key := fun eq => same (congrArg Place.key eq)
    exact .of_owned_eq rfl (Pass.owned_carry_of_ne different (Place.top_ne_of_key_ne other) a e)

theorem shrinks_rules {k : String} {visit : String → Pass → Pass}
    (visits : ∀ key a, s.contains key = true → Shrinks k a (visit key a)) :
    Rules l s visit fun p a _ b => p.key ≠ k → Shrinks k a b where
  rest _ _ _ := .of_owned_eq rfl rfl
  next first second other := (first other).trans (second other)
  carried _ _ _ found a other :=
    (visits _ a (target?_eq_some_iff.mp found).2.2).trans (shrinks_carry other _ _ _)
  renamed _ _ a other :=
    .of_owned_eq rfl (Pass.owned_put_of_ne (Place.top_ne_of_key_ne other) a _)
  drained {p _ _ i a b} _ _ settled other := by
    have child : Place.top k ≠ p.child i := Place.top_ne_of_key_ne other
    refine Shrinks.trans (.trans ?_ (settled other)) ?_
    · exact .of_owned_eq rfl (Pass.owned_put_of_ne child a _)
    · exact .of_owned_eq rfl (Pass.owned_put_of_ne child b _)
  received {_ _ _ b ds} _ taken other := by
    refine (taken other).trans (.of_owned_eq rfl ?_)
    exact Pass.owned_give_of_ne (Place.top_ne_of_key_ne other) b ds

theorem visitWithin_shrinks (k : String) (bound : Nat) (key : String) (a : Pass)
    (held : s.contains key = true) : Shrinks k a (visitWithin l s bound key a) := by
  refine visitWithin_obeys (V := fun _ a b => Shrinks k a b) (fun _ => shrinks_rules)
    (fun _ _ => .of_owned_eq rfl rfl) ?_ bound key a held
  intro key r a b found fresh settled done
  have other : key ≠ k := fun same => fresh (same ▸ done)
  exact settled other (List.mem_cons_of_mem key done)

section Cleared

variable {taker source : String} {gone : Declaration → Prop}

/-- Once the taking resource is done, its source is done too and has nothing left to take. The
bound on nested visits has not been met. -/
structure Cleared (s : Store) (bound : Nat) (taker source : String) (gone : Declaration → Prop)
    (a : Pass) : Prop where
  enough : undone s a ≤ bound
  clear : taker ∈ a.done → source ∈ a.done ∧ ∀ d ∈ a.owned (.top source), ¬ gone d

theorem Cleared.of_shrinks {bound : Nat} {a b : Pass}
    (cleared : Cleared s bound taker source gone a) (same : b.done = a.done)
    (shrinks : Shrinks source a b) : Cleared s bound taker source gone b where
  enough := by
    unfold undone
    rw [same]
    exact cleared.enough
  clear late := by
    rw [same] at late
    obtain ⟨settled, left⟩ := cleared.clear late
    obtain ⟨settled, fewer⟩ := shrinks settled
    exact ⟨settled, fun d member => left d (fewer.subset member)⟩

theorem Cleared.of_owned_eq {bound : Nat} {a b : Pass}
    (cleared : Cleared s bound taker source gone a) (done : b.done = a.done)
    (same : b.owned (.top source) = a.owned (.top source)) :
    Cleared s bound taker source gone b :=
  cleared.of_shrinks done (.of_owned_eq done.symm same)

theorem cleared_rules {bound : Nat} {visit : String → Pass → Pass}
    (visits : ∀ key a, s.contains key = true → Cleared s bound taker source gone a →
      Cleared s bound taker source gone (visit key a)) :
    Rules l s visit fun p a _ b => p.key ≠ source →
      Cleared s bound taker source gone a → Cleared s bound taker source gone b where
  rest _ _ _ cleared := cleared
  next first second other cleared := second other (first other cleared)
  carried _ _ _ found a other cleared := by
    have visited := visits _ a (target?_eq_some_iff.mp found).2.2 cleared
    exact visited.of_shrinks rfl (shrinks_carry other _ _ _)
  renamed _ _ a other cleared :=
    cleared.of_owned_eq rfl (Pass.owned_put_of_ne (Place.top_ne_of_key_ne other) a _)
  drained {p _ _ i a b} _ _ settled other cleared := by
    have child : Place.top source ≠ p.child i := Place.top_ne_of_key_ne other
    have inside := settled other
      (cleared.of_owned_eq rfl (Pass.owned_put_of_ne child a _))
    exact inside.of_owned_eq rfl (Pass.owned_put_of_ne child b _)
  received {_ _ _ b ds} _ taken other cleared :=
    (taken other cleared).of_owned_eq rfl
      (Pass.owned_give_of_ne (Place.top_ne_of_key_ne other) b ds)

theorem settle_clears {bound : Nat} {r : Resource} {e : Export} {specifier : String} {a : Pass}
    (stored : s.get? taker = some r) (held : s.contains source = true)
    (distinct : taker ≠ source) (statement : e ∈ r.exports)
    (named : e.source? = some specifier) (target : l.targetKey r.path? specifier = source)
    (takes : ∀ ds, ∀ d ∈ e.left ds, ¬ gone d) (enough : undone s a ≤ bound) :
    Cleared s bound taker source gone
      (settle l s (visitWithin l s bound) (.top taker) r a) := by
  obtain ⟨before, after, split⟩ := List.append_of_mem statement
  have earlier : before ⊆ r.exports := fun e member => split ▸ List.mem_append_left _ member
  have later : after ⊆ r.exports := fun e member =>
    split ▸ List.mem_append_right _ (List.mem_cons_of_mem _ member)
  have live : s.Live (.top taker) r := .stored stored
  have other : Place.top taker ≠ .top source := fun eq => distinct (congrArg Place.key eq)
  have found : target? l s (.top taker) r.path? specifier = some source :=
    target?_eq_some_iff.mpr ⟨target, other, held⟩
  have done := done_rules (l := l) (done_subset_visitWithin (l := l) (s := s) bound)
  have shrinks := shrinks_rules (l := l) (visitWithin_shrinks (l := l) (s := s) source bound)
  rw [settle_eq_foldl, split, List.foldl_append, List.foldl_cons, follow_of_source named, found]
  have first := undone_le_of_subset (s := s) (done.statements_obey live earlier a)
  generalize before.foldl _ a = b at first ⊢
  have enough : undone s b ≤ bound := Nat.le_trans first enough
  have visited := done_subset_visitWithin (l := l) bound source b held
  have settled := mem_done_visitWithin (l := l) held enough
  have rest := done.statements_obey live later
    ((visitWithin l s bound source b).carry e source (.top taker))
  obtain ⟨settled, fewer⟩ := shrinks.statements_obey live later
    ((visitWithin l s bound source b).carry e source (.top taker)) distinct settled
  rw [Pass.owned_carry_target other] at fewer
  refine ⟨?_, fun _ => ⟨settled, fun d member => takes _ d (fewer.subset member)⟩⟩
  exact Nat.le_trans (undone_le_of_subset (List.Subset.trans visited rest)) enough

theorem visitWithin_cleared {r : Resource} {e : Export} {specifier : String}
    (stored : s.get? taker = some r) (held : s.contains source = true)
    (distinct : taker ≠ source) (statement : e ∈ r.exports)
    (named : e.source? = some specifier) (target : l.targetKey r.path? specifier = source)
    (takes : ∀ ds, ∀ d ∈ e.left ds, ¬ gone d)
    (apart : ¬ Relation.ReflTransGen (s.Refers l) source taker) (bound : Nat) :
    ∀ key a, s.contains key = true → Cleared s bound taker source gone a →
      Cleared s bound taker source gone (visitWithin l s bound key a) := by
  induction bound with
  | zero =>
    intro key a _ cleared
    exact cleared
  | succ bound ih =>
    intro key a present cleared
    by_cases early : key ∈ a.done
    · rwa [visitWithin, if_pos early]
    · have further := done_subset_visitWithin (l := l) (bound + 1) key a present
      have enough := Nat.le_trans (undone_le_of_subset further) cleared.enough
      have fewer := undone_mark_lt present early
      obtain ⟨top, found⟩ := Option.isSome_iff_exists.mp present
      change s.get? key = some top at found
      refine ⟨enough, ?_⟩
      by_cases isSource : key = source
      · subst isSource
        intro late
        rcases visitWithin_reached (bound + 1) key a present taker late with done | reached
        · exact absurd (cleared.clear done).1 early
        · exact absurd reached apart
      · rw [visitWithin, if_neg early, found]
        by_cases isTaker : key = taker
        · subst isTaker
          obtain rfl : top = r := Option.some.inj (found.symm.trans stored)
          exact (settle_clears stored held distinct statement named target takes
            (by have := cleared.enough; omega)).clear
        · refine ((cleared_rules ih).settle_obeys top (.stored found) (a.mark key) isSource
            ⟨by have := cleared.enough; omega, ?_⟩).clear
          intro marked
          rcases List.mem_cons.mp marked with same | done
          · exact absurd same.symm isTaker
          · obtain ⟨settled, left⟩ := cleared.clear done
            exact ⟨List.mem_cons_of_mem key settled, left⟩

end Cleared

end Resolution

namespace Store

theorem Refers.of_retained {l : Layout} {s : Store} {key target : String}
    (refers : s.retained.Refers l key target) : s.Refers l key target := by
  obtain ⟨p, r, live, own, listed, held⟩ := refers
  obtain ⟨original, before, rfl⟩ := live.of_retained
  rw [contains_retained] at held
  refine ⟨p, original, before, own, ?_, held⟩
  split at listed
  · exact listed
  · exact listed

theorem settled_clear {l : Layout} {s : Store} {taker source : String} {r : Resource}
    (stored : s.get? taker = some r) (held : s.contains source = true)
    (distinct : taker ≠ source) (apart : ¬ Relation.ReflTransGen (s.Refers l) source taker)
    {e : Export} {specifier : String} (statement : e ∈ r.exports)
    (named : e.source? = some specifier) (target : l.targetKey r.path? specifier = source)
    (gone : Declaration → Prop) (takes : ∀ ds, ∀ d ∈ e.left ds, ¬ gone d) :
    ∃ last, (s.resolve l).get? source = some last ∧ ∀ d ∈ last.declarations, ¬ gone d := by
  have stored' : s.retained.get? taker = some r.retained := by rw [get?_retained, stored]; rfl
  have held' := s.contains_retained source ▸ held
  have apart' : ¬ Relation.ReflTransGen (s.retained.Refers l) source taker := fun reached =>
    apart (Relation.ReflTransGen.mono (fun _ _ => Refers.of_retained) source taker reached)
  have cleared : Resolution.Cleared s.retained s.retained.size taker source gone
      (s.settled l) := by
    refine Resolution.settleAll_keeps
      ⟨Resolution.undone_le_size _, fun early => absurd early List.not_mem_nil⟩ ?_
    exact Resolution.visitWithin_cleared stored' held' distinct statement named target takes
      apart' _
  have done : taker ∈ (s.settled l).done := by
    refine Resolution.mem_done_settleAll ?_ _
    exact Option.isSome_iff_exists.mpr ⟨_, stored'⟩
  obtain ⟨original, found⟩ := Option.isSome_iff_exists.mp held
  change s.get? source = some original at found
  refine ⟨original.withOwned (s.settled l).owned (.top source), ?_, ?_⟩
  · rw [resolve_eq, get?_withOwned, found]
    rfl
  · rw [Resource.declarations_withOwned]
    exact (cleared.clear done).2

end Store

theorem renamed?_isSome {specifiers : List Specifier} {name : String}
    (listed : name ∈ specifiers.map Specifier.name) :
    (renamed? specifiers name).isSome = true := by
  obtain ⟨specifier, member, same⟩ := List.mem_map.mp listed
  rw [renamed?, Option.isSome_map, List.find?_isSome]
  exact ⟨specifier, member, by simpa using same⟩

/-- Symbols that are exported again leave their source. Where one stored resource exports from
another that does not lead back to it, the other owns nothing after a statement that exports
everything, and nothing of the names that a statement lists. -/
theorem resolve_clears_reexported {l : Layout} {s : Store} {taker source : String}
    {r : Resource} (stored : s.get? taker = some r) (held : s.contains source = true)
    (distinct : taker ≠ source)
    (apart : ¬ Relation.ReflTransGen (s.Refers l) source taker) :
    (∀ specifier span, .all specifier span ∈ r.exports →
      l.targetKey r.path? specifier = source →
      ((s.resolve l).get? source).map Resource.declarations = some []) ∧
    (∀ specifier specifiers span, .named (some specifier) specifiers span ∈ r.exports →
      l.targetKey r.path? specifier = source → ∀ name ∈ specifiers.map Specifier.name,
      ∃ last, (s.resolve l).get? source = some last ∧
        ∀ d ∈ last.declarations, d.name ≠ name) := by
  constructor
  · intro specifier span statement target
    obtain ⟨last, found, none⟩ := Store.settled_clear stored held distinct apart statement rfl
      target (fun _ => True) (fun _ _ member => absurd member List.not_mem_nil)
    rw [found]
    exact congrArg some (List.eq_nil_iff_forall_not_mem.mpr fun d member => none d member trivial)
  · intro specifier specifiers span statement target name listed
    refine Store.settled_clear stored held distinct apart statement rfl target
      (·.name = name) ?_
    intro ds d member same
    have unnamed := (List.mem_filter.mp member).2
    have chosen := renamed?_isSome listed
    rw [same, Option.isNone_iff_eq_none] at unnamed
    simp [unnamed] at chosen

section Sample

def declared (name : String) (symbols : List String) (exports : List Export) : Resource :=
  ⟨.declaredModule name, symbols.map fun symbol => ⟨symbol, .classDef, true, none⟩, exports, [],
    [], [], none⟩

def barrel : Store :=
  ((Store.empty.set "outer" (declared "outer" [] [.all "inner" none])).set "inner"
    (declared "inner" ["X"] [.named (some "base") [⟨"Y", some "Z"⟩] none])).set "base"
    (declared "base" ["Y", "W"] [])

theorem barrel_refers {l : Layout} {key target : String} (refers : barrel.Refers l key target) :
    (key = "outer" ∧ target = "inner") ∨ (key = "inner" ∧ target = "base") := by
  obtain ⟨p, r, live, rfl, listed, _⟩ := refers
  have site : (p, r) ∈ [(Place.top "outer", declared "outer" [] [.all "inner" none]),
      (.top "inner", declared "inner" ["X"] [.named (some "base") [⟨"Y", some "Z"⟩] none]),
      (.top "base", declared "base" ["Y", "W"] [])] := Store.mem_sites_iff.mpr live
  simp only [List.mem_cons, List.not_mem_nil, or_false, Prod.mk.injEq] at site
  rcases site with ⟨rfl, rfl⟩ | ⟨rfl, rfl⟩ | ⟨rfl, rfl⟩
  · exact Or.inl ⟨rfl, List.mem_singleton.mp listed⟩
  · exact Or.inr ⟨rfl, List.mem_singleton.mp listed⟩
  · cases listed

theorem barrel_apart {l : Layout} :
    ¬ Relation.ReflTransGen (barrel.Refers l) "inner" "outer" ∧
      ¬ Relation.ReflTransGen (barrel.Refers l) "base" "inner" := by
  have down (key : String) (reached : Relation.ReflTransGen (barrel.Refers l) "base" key) :
      key = "base" := by
    induction reached with
    | refl => rfl
    | tail _ step same =>
      subst same
      rcases barrel_refers step with ⟨other, _⟩ | ⟨other, _⟩
      · exact absurd other (by decide)
      · exact absurd other (by decide)
  constructor
  · intro reached
    rcases Relation.ReflTransGen.cases_head reached with same | ⟨key, step, rest⟩
    · exact absurd same (by decide)
    · rcases barrel_refers step with ⟨other, _⟩ | ⟨_, rfl⟩
      · exact absurd other (by decide)
      · exact absurd (down "outer" rest) (by decide)
  · intro reached
    exact absurd (down "inner" reached) (by decide)

theorem barrel_clears_reexported :
    ((barrel.resolve { root := "/ws" }).get? "inner").map Resource.declarations = some [] ∧
    ∃ last, (barrel.resolve { root := "/ws" }).get? "base" = some last ∧
      ∀ d ∈ last.declarations, d.name ≠ "Y" := by
  constructor
  · exact (resolve_clears_reexported rfl rfl (by decide) barrel_apart.1).1 "inner" none
      List.mem_cons_self rfl
  · exact (resolve_clears_reexported rfl rfl (by decide) barrel_apart.2).2 "base" _ none
      List.mem_cons_self rfl "Y" (by decide)

end Sample

end ExportIndex
