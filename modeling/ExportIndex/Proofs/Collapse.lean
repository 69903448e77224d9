import ExportIndex.Proofs.Conservation
import ExportIndex.Proofs.Turns

/-!
Where every statement exports everything, a visit sweeps what it newly settles
into the resource that it began with. A chain of such statements therefore
collapses onto its outermost resource as long as one visit follows all of it.
Keys are taken up longest first, though, so a cycle further down may be visited
before what leads to it: its contents then rest on the member that was taken up
first, and they stay there unless a resource outside exports from that very
member. `resolve_collapses` says exactly when a resource is emptied.
-/
namespace ExportIndex

open Relation

def Store.OnlyAll (s : Store) : Prop :=
  ∀ key r, s.get? key = some r → ∀ e ∈ r.exports, ∃ source span, e = .all source span

namespace Resolution

variable {l : Layout} {s : Store}

theorem owned_moveAll_source {key : String} {place : Place} (other : place ≠ .top key)
    (a : Pass) : (moveAll key place a).owned (.top key) = [] := by
  rw [moveAll, Pass.owned_give_of_ne (Ne.symm other), Pass.owned_put_self]

theorem owned_moveAll_place {key : String} {place : Place} (other : place ≠ .top key)
    (a : Pass) : (moveAll key place a).owned place = a.owned place ++ a.owned (.top key) := by
  rw [moveAll, Pass.owned_give_self, Pass.owned_put_of_ne other]

theorem owned_moveAll_of_ne {key : String} {place p : Place} (source : p ≠ .top key)
    (receiver : p ≠ place) (a : Pass) : (moveAll key place a).owned p = a.owned p := by
  rw [moveAll, Pass.owned_give_of_ne receiver, Pass.owned_put_of_ne source]

theorem settle_eq_foldl_suppliers (only : s.OnlyAll) {visit : String → Pass → Pass}
    {key : String} {r : Resource} (stored : s.get? key = some r) (a : Pass) :
    settle l s visit (.top key) r a =
      (r.exports.filterMap (s.supplier? l key r.path?)).foldl
        (fun b t => moveAll t (.top key) (visit t b)) a := by
  rw [settle_eq_foldl, List.foldl_filterMap]
  apply List.foldl_ext
  intro b e statement
  obtain ⟨source, span, rfl⟩ := only key r stored e statement
  rw [follow, Store.supplier?_all]
  cases target? l s (.top key) r.path? source with
  | none => rfl
  | some t => rfl

/-- What happens between the beginning of a visit and a later moment, when the suppliers `later`
have still to be taken from. -/
structure Sweep (l : Layout) (s : Store) (key : String) (later : List String) (a b : Pass) :
    Prop where
  here : key ∈ b.done
  grown : a.done ⊆ b.done
  reached : ∀ k ∈ b.done, k ∉ a.done → ReflTransGen (s.Draws l) key k
  closed : ∀ k ∈ b.done, k ∉ a.done → ∀ t, s.Draws l k t → t ∈ b.done ∨ k = key ∧ t ∈ later
  emptied : ∀ k ∈ b.done, k ∉ a.done → k ≠ key → b.owned (.top k) = []
  fresh : ∀ k, k ∉ b.done → b.owned (.top k) = a.owned (.top k)
  early : ∀ k ∈ a.done, b.owned (.top k) = a.owned (.top k) ∨
    b.owned (.top k) = [] ∧ ∃ t ∈ b.done, t ∉ a.done ∧ s.Draws l t k
  kept : ∀ k, ∀ d ∈ a.owned (.top k), ∃ k', d ∈ b.owned (.top k') ∧
    (k' = k ∨ k' ∈ b.done ∧ k' ∉ a.done)

namespace Sweep

variable {key : String} {a b c : Pass}

theorem refl (early : key ∈ a.done) : Sweep l s key [] a a where
  here := early
  grown := List.Subset.refl _
  reached _ done new := absurd done new
  closed _ done new := absurd done new
  emptied _ done new := absurd done new
  fresh _ _ := rfl
  early _ _ := Or.inl rfl
  kept k _ member := ⟨k, member, Or.inl rfl⟩

theorem mark {later : List String} (all : ∀ t, s.Draws l key t → t ∈ later) :
    Sweep l s key later a (a.mark key) := by
  have only : ∀ k ∈ (a.mark key).done, k ∉ a.done → k = key := by
    intro k done new
    exact (List.mem_cons.mp done).resolve_right new
  constructor
  · exact List.mem_cons_self
  · exact fun _ done => List.mem_cons_of_mem key done
  · intro k done new
    rw [only k done new]
  · intro k done new t draws
    rw [only k done new] at draws
    exact Or.inr ⟨only k done new, all t draws⟩
  · intro k done new other
    exact absurd (only k done new) other
  · exact fun _ _ => rfl
  · exact fun _ _ => Or.inl rfl
  · exact fun k _ member => ⟨k, member, Or.inl rfl⟩

theorem keeps_nil {later : List String} (sweep : Sweep l s key later a b) {k : String}
    (done : k ∈ a.done) (empty : a.owned (.top k) = []) : b.owned (.top k) = [] := by
  rcases sweep.early k done with same | ⟨gone, -⟩
  · rw [same, empty]
  · exact gone

theorem take {t : String} {later : List String} (sweep : Sweep l s key (t :: later) a b)
    (begun : key ∉ a.done) (draws : s.Draws l key t) (other : key ≠ t)
    (visited : Sweep l s t [] b c) :
    Sweep l s key later a (moveAll t (.top key) c) := by
  have apart : Place.top key ≠ .top t := fun eq => other (congrArg Place.key eq)
  have source : (moveAll t (.top key) c).owned (.top t) = [] := owned_moveAll_source apart c
  have same : ∀ k, k ≠ t → k ≠ key →
      (moveAll t (.top key) c).owned (.top k) = c.owned (.top k) := by
    intro k notSource notKey
    apply owned_moveAll_of_ne
    · exact fun eq => notSource (congrArg Place.key eq)
    · exact fun eq => notKey (congrArg Place.key eq)
  have here : key ∈ c.done := visited.grown sweep.here
  have new : ∀ k, k ∉ b.done → k ∉ a.done := fun k late early => late (sweep.grown early)
  constructor
  · exact here
  · exact fun k done => visited.grown (sweep.grown done)
  · intro k done late
    by_cases before : k ∈ b.done
    · exact sweep.reached k before late
    · exact .head draws (visited.reached k done before)
  · intro k done late t' also
    by_cases before : k ∈ b.done
    · rcases sweep.closed k before late t' also with target | ⟨isKey, listed⟩
      · exact Or.inl (visited.grown target)
      · rcases List.mem_cons.mp listed with rfl | listed
        · exact Or.inl visited.here
        · exact Or.inr ⟨isKey, listed⟩
    · rcases visited.closed k done before t' also with target | ⟨-, impossible⟩
      · exact Or.inl target
      · exact absurd impossible List.not_mem_nil
  · intro k done late notKey
    by_cases isSource : k = t
    · rw [isSource, source]
    · rw [same k isSource notKey]
      by_cases before : k ∈ b.done
      · exact visited.keeps_nil before (sweep.emptied k before late notKey)
      · exact visited.emptied k done before isSource
  · intro k late
    change k ∉ c.done at late
    have before : k ∉ b.done := fun done => late (visited.grown done)
    rw [same k (fun eq => late (eq ▸ visited.here)) (fun eq => late (eq ▸ here)),
      visited.fresh k late, sweep.fresh k before]
  · intro k done
    have notKey : k ≠ key := fun eq => begun (eq ▸ done)
    by_cases isSource : k = t
    · rw [isSource]
      exact Or.inr ⟨source, key, here, begun, draws⟩
    · rw [same k isSource notKey]
      rcases visited.early k (sweep.grown done) with unchanged | ⟨gone, taker, taken, late, takes⟩
      · rw [unchanged]
        rcases sweep.early k done with unchanged | ⟨gone, taker, taken, late, takes⟩
        · exact Or.inl unchanged
        · exact Or.inr ⟨gone, taker, visited.grown taken, late, takes⟩
      · exact Or.inr ⟨gone, taker, taken, new taker late, takes⟩
  · intro k d member
    obtain ⟨k', held, from'⟩ := sweep.kept k d member
    obtain ⟨k'', held, from''⟩ := visited.kept k' d held
    have origin : k'' = k ∨ k'' ∈ c.done ∧ k'' ∉ a.done := by
      rcases from'' with rfl | ⟨done, late⟩
      · rcases from' with rfl | ⟨done, late⟩
        · exact Or.inl rfl
        · exact Or.inr ⟨visited.grown done, late⟩
      · exact Or.inr ⟨done, new k'' late⟩
    by_cases isSource : k'' = t
    · -- what the supplier had is now with the key, which the visit itself marked
      refine ⟨key, ?_, Or.inr ⟨here, begun⟩⟩
      rw [owned_moveAll_place apart, ← isSource]
      exact List.mem_append_right _ held
    · refine ⟨k'', ?_, origin⟩
      by_cases isKey : k'' = key
      · rw [isKey, owned_moveAll_place apart, ← isKey]
        exact List.mem_append_left _ held
      · rwa [same k'' isSource isKey]

end Sweep

theorem foldl_sweep {visit : String → Pass → Pass} {bound : Nat}
    (visits : ∀ t b, s.contains t = true → undone s b ≤ bound → Sweep l s t [] b (visit t b))
    {key : String} {a : Pass} (begun : key ∉ a.done) {ts : List String}
    (draws : ∀ t ∈ ts, s.Draws l key t ∧ key ≠ t) {b : Pass} (few : undone s b ≤ bound)
    (sweep : Sweep l s key ts a b) :
    Sweep l s key [] a (ts.foldl (fun b t => moveAll t (.top key) (visit t b)) b) := by
  induction ts generalizing b with
  | nil => exact sweep
  | cons t ts ih =>
    obtain ⟨draw, other⟩ := draws t List.mem_cons_self
    have visited := visits t b draw.contains.2 few
    apply ih
    · exact fun t later => draws t (List.mem_cons_of_mem _ later)
    · exact Nat.le_trans (undone_le_of_subset visited.grown) few
    · exact sweep.take begun draw other visited

theorem ne_of_draws {key t : String} (draws : s.Draws l key t) : key ≠ t := by
  obtain ⟨e, r, -, -, supplied⟩ := draws
  obtain ⟨source, -, found⟩ := Store.supplier?_eq_some supplied
  intro same
  exact (target?_eq_some_iff.mp found).2.1 (congrArg Place.top same)

/-- A visit sweeps what it newly settles into its key. -/
theorem visitWithin_sweep (only : s.OnlyAll) (bound : Nat) : ∀ key a, s.contains key = true →
    undone s a ≤ bound → Sweep l s key [] a (visitWithin l s bound key a) := by
  apply visitWithin_induct
  · exact fun key a early => Sweep.refl early
  · intro bound key r a stored fresh few visits
    rw [settle_eq_foldl_suppliers only stored]
    apply foldl_sweep visits fresh _ few
    · exact Sweep.mark fun t => (mem_suppliers stored).mpr
    · intro t member
      have draws := (mem_suppliers stored).mp member
      exact ⟨draws, ne_of_draws draws⟩

structure Swept (l : Layout) (s : Store) (start : Pass) (before : List String) (a : Pass) :
    Prop where
  listed : ∀ k ∈ before, k ∈ a.done
  reached : ∀ k ∈ a.done, ∃ j ∈ before, ReflTransGen (s.Draws l) j k
  closed : ∀ k ∈ a.done, ∀ t, s.Draws l k t → t ∈ a.done
  emptied : ∀ k ∈ a.done, k ∉ before → a.owned (.top k) = []
  fresh : ∀ k, k ∉ a.done → a.owned (.top k) = start.owned (.top k)

theorem Swept.next {start a b : Pass} {before : List String} {key : String}
    (swept : Swept l s start before a) (sweep : Sweep l s key [] a b) :
    Swept l s start (before ++ [key]) b where
  listed k member := by
    rcases List.mem_append.mp member with earlier | last
    · exact sweep.grown (swept.listed k earlier)
    · rw [List.mem_singleton.mp last]
      exact sweep.here
  reached k done := by
    by_cases before : k ∈ a.done
    · obtain ⟨j, earlier, reached⟩ := swept.reached k before
      exact ⟨j, List.mem_append_left _ earlier, reached⟩
    · exact ⟨key, List.mem_append_right _ (List.mem_singleton_self key),
        sweep.reached k done before⟩
  closed k done t draws := by
    by_cases before : k ∈ a.done
    · exact sweep.grown (swept.closed k before t draws)
    · rcases sweep.closed k done before t draws with target | ⟨-, impossible⟩
      · exact target
      · exact absurd impossible List.not_mem_nil
  emptied k done unlisted := by
    obtain ⟨earlier, other⟩ := not_or.mp (unlisted ∘ List.mem_append.mpr)
    by_cases before : k ∈ a.done
    · exact sweep.keeps_nil before (swept.emptied k before earlier)
    · exact sweep.emptied k done before (other ∘ List.mem_singleton.mpr)
  fresh k late := by
    rw [sweep.fresh k late, swept.fresh k fun done => late (sweep.grown done)]

theorem Swept.closed_of_reached {start a : Pass} {before : List String}
    (swept : Swept l s start before a) {k t : String} (done : k ∈ a.done)
    (reached : ReflTransGen (s.Draws l) k t) : t ∈ a.done := by
  induction reached with
  | refl => exact done
  | tail _ draws ih => exact swept.closed _ ih _ draws

theorem foldl_swept (only : s.OnlyAll) {start : Pass} (none : start.done = [])
    {before : List String} (stored : ∀ k ∈ before, s.contains k = true) :
    Swept l s start before (before.foldl (fun a k => visit l s k a) start) := by
  induction before using List.reverseRecOn with
  | nil =>
    have nothing : ∀ k, k ∉ start.done := fun k done => absurd (none ▸ done) List.not_mem_nil
    exact ⟨fun _ member => absurd member List.not_mem_nil, fun k done => absurd done (nothing k),
      fun k done => absurd done (nothing k), fun k done => absurd done (nothing k),
      fun _ _ => rfl⟩
  | append_singleton before key ih =>
    have swept := ih fun k member => stored k (List.mem_append_left _ member)
    have held := stored key (List.mem_append_right _ (List.mem_singleton_self key))
    rw [List.foldl_append, List.foldl_cons, List.foldl_nil]
    exact swept.next (visitWithin_sweep only _ key _ held (undone_le_size _))

theorem foldl_sweeps (only : s.OnlyAll) {P : Pass → Prop}
    (keeps : ∀ key a b, Sweep l s key [] a b → P a → P b) {after : List String}
    (stored : ∀ k ∈ after, s.contains k = true) {a : Pass} (start : P a) :
    P (after.foldl (fun a k => visit l s k a) a) := by
  apply List.foldlRecOn (motive := P) after _ start
  intro b kept key member
  exact keeps key b _ (visitWithin_sweep only _ key b (stored key member) (undone_le_size _)) kept

end Resolution

namespace Store

open Resolution

variable {l : Layout} {s : Store}

namespace OnlyAll

theorem retained (only : s.OnlyAll) : s.retained.OnlyAll := by
  intro key r stored
  rw [get?_retained] at stored
  obtain ⟨original, found, rfl⟩ := Option.map_eq_some_iff.mp stored
  exact only key original found

theorem live_top (only : s.OnlyAll) {p : Place} {r : Resource} (live : s.Live p r) :
    p = .top p.key ∧ s.get? p.key = some r := by
  induction live with
  | stored found => exact ⟨rfl, found⟩
  | inside outer assigned ih =>
    obtain ⟨-, name, -, listed⟩ := assigned
    obtain ⟨span, statement⟩ := Export.exists_assigned listed
    obtain ⟨source, other, impossible⟩ := only _ _ ih.2 _ statement
    cases impossible

theorem draws_of_refers (only : s.OnlyAll) {key t : String} (refers : s.Refers l key t)
    (other : key ≠ t) : s.Draws l key t := by
  obtain ⟨p, r, live, rfl, listed, held⟩ := refers
  obtain ⟨-, stored⟩ := only.live_top live
  obtain ⟨e, statement, target⟩ := List.mem_filterMap.mp listed
  obtain ⟨source, named, target⟩ := Option.map_eq_some_iff.mp target
  refine ⟨e, r, stored, statement, ?_⟩
  rw [supplier?_of_source named]
  exact target?_eq_some_iff.mpr ⟨target, fun eq => other (congrArg Place.key eq), held⟩

theorem reaches_of_refers (only : s.OnlyAll) {key t : String}
    (reached : ReflTransGen (s.Refers l) key t) : ReflTransGen (s.Draws l) key t := by
  induction reached with
  | refl => exact .refl
  | @tail k t _ refers ih =>
    by_cases same : k = t
    · rwa [← same]
    · exact ih.tail (only.draws_of_refers refers same)

end OnlyAll

/-- Whether a stored resource is emptied by others: a key that is taken up earlier leads to it, or
a resource exports from it to which it does not lead itself. -/
def Emptied (l : Layout) (s : Store) (key : String) : Prop :=
  (∃ earlier, s.Precedes earlier key ∧ TransGen (s.Draws l) earlier key) ∨
  ∃ taker, s.Draws l taker key ∧ ¬ ReflTransGen (s.Draws l) key taker

theorem draws_retained : s.retained.Draws l = s.Draws l := draws_of_reduced s.get?_retained

theorem settled_nil_of_taker (only : s.OnlyAll) {taker key : String} (draws : s.Draws l taker key)
    (apart : ¬ ReflTransGen (s.Draws l) key taker) : (s.settled l).owned (.top key) = [] := by
  have other := ne_of_draws draws
  have held := draws.contains.2
  obtain ⟨e, r, stored, statement, supplied⟩ := draws
  obtain ⟨source, span, rfl⟩ := only taker r stored e statement
  rw [supplier?_all, target?_eq_some_iff] at supplied
  obtain ⟨last, found, gone⟩ := settled_clear stored held other
    (apart ∘ only.reaches_of_refers) statement rfl supplied.1 (fun _ => True)
    (fun _ _ member => absurd member List.not_mem_nil)
  rw [resolve_eq, get?_withOwned] at found
  obtain ⟨original, -, rfl⟩ := Option.map_eq_some_iff.mp found
  rw [Resource.declarations_withOwned] at gone
  exact List.eq_nil_iff_forall_not_mem.mpr fun d member => gone d member trivial

theorem settled_split {key : String} {before after : List String}
    (split : order s = before ++ key :: after) :
    let a := before.foldl (fun a k => visit l s.retained k a) s.start
    s.settled l = after.foldl (fun a k => visit l s.retained k a) (visit l s.retained key a) := by
  intro a
  rw [settled, settleAll, order_retained, split, List.foldl_append, List.foldl_cons]

section Split

variable {key : String} {before after : List String} (split : order s = before ++ key :: after)

include split

theorem stored_of_split : (∀ k ∈ before, s.retained.contains k = true) ∧
    s.retained.contains key = true ∧ ∀ k ∈ after, s.retained.contains k = true := by
  have stored : ∀ k, k ∈ before ++ key :: after → s.retained.contains k = true := by
    intro k member
    rw [contains_retained]
    exact mem_order.mp (split ▸ member)
  refine ⟨fun k member => stored k ?_, stored key ?_, fun k member => stored k ?_⟩
  · exact List.mem_append_left _ member
  · exact List.mem_append_right _ List.mem_cons_self
  · exact List.mem_append_right _ (List.mem_cons_of_mem key member)

theorem settled_nil_of_earlier (only : s.OnlyAll) {earlier : String} (member : earlier ∈ before)
    (leads : TransGen (s.Draws l) earlier key) : (s.settled l).owned (.top key) = [] := by
  obtain ⟨stored, held, later⟩ := stored_of_split split
  have swept : Swept l s.retained s.start before _ := foldl_swept only.retained rfl stored
  have reached : ReflTransGen (s.retained.Draws l) earlier key := by
    rw [draws_retained]
    exact leads.to_reflTransGen
  have done := swept.closed_of_reached (swept.listed earlier member) reached
  have empty := swept.emptied key done (notMem_before split)
  have keeps : ∀ k a b, Sweep l s.retained k [] a b →
      key ∈ a.done ∧ a.owned (.top key) = [] → key ∈ b.done ∧ b.owned (.top key) = [] := by
    intro k a b sweep ⟨done, empty⟩
    exact ⟨sweep.grown done, sweep.keeps_nil done empty⟩
  rw [settled_split split]
  apply (foldl_sweeps only.retained keeps later _).2
  exact keeps key _ _ (visitWithin_sweep only.retained _ key _ held (undone_le_size _))
    ⟨done, empty⟩

/-- What no earlier key leads to sweeps everything together at its own turn, and keeps it if all
that exports from it was swept together as well. -/
theorem settled_keeps (only : s.OnlyAll)
    (first : ∀ earlier ∈ before, ¬ TransGen (s.Draws l) earlier key)
    (within : ∀ taker, s.Draws l taker key → ReflTransGen (s.Draws l) key taker)
    {d : Declaration} (own : d ∈ s.start.owned (.top key)) :
    d ∈ (s.settled l).owned (.top key) := by
  obtain ⟨stored, held, later⟩ := stored_of_split split
  have swept : Swept l s.retained s.start before _ := foldl_swept only.retained rfl stored
  rw [settled_split split]
  generalize before.foldl _ s.start = a at swept ⊢
  have fresh : key ∉ a.done := by
    intro done
    obtain ⟨j, member, reached⟩ := swept.reached key done
    rw [draws_retained] at reached
    rcases reflTransGen_iff_eq_or_transGen.mp reached with same | leads
    · exact notMem_before split (same ▸ member)
    · exact first j member leads
  have sweep : Sweep l s.retained key [] a (visit l s.retained key a) :=
    visitWithin_sweep only.retained _ key a held (undone_le_size a)
  have gathered : d ∈ (visit l s.retained key a).owned (.top key) := by
    rw [← swept.fresh key fresh] at own
    obtain ⟨k, member, same | ⟨done, new⟩⟩ := sweep.kept key d own
    · rwa [same] at member
    · by_cases same : k = key
      · rwa [same] at member
      · rw [sweep.emptied k done new same] at member
        exact absurd member List.not_mem_nil
  have takers : ∀ taker, s.Draws l taker key → taker ∈ (visit l s.retained key a).done := by
    intro taker draws
    apply (swept.next sweep).closed_of_reached sweep.here
    rw [draws_retained]
    exact within taker draws
  -- every resource that exports from the key is done, so nothing is taken from it any more
  apply (foldl_sweeps only.retained (P := fun b => (key ∈ b.done ∧
    ∀ taker, s.Draws l taker key → taker ∈ b.done) ∧ d ∈ b.owned (.top key)) _ later _).2
  · intro k b c sweep ⟨⟨done, takers⟩, member⟩
    refine ⟨⟨sweep.grown done, fun taker draws => sweep.grown (takers taker draws)⟩, ?_⟩
    rcases sweep.early key done with same | ⟨-, taker, -, new, draws⟩
    · rwa [same]
    · rw [draws_retained] at draws
      exact absurd (takers taker draws) new
  · exact ⟨⟨sweep.here, takers⟩, gathered⟩

end Split

theorem settled_nil_of_precedes (only : s.OnlyAll) {earlier key : String}
    (precedes : s.Precedes earlier key) (leads : TransGen (s.Draws l) earlier key) :
    (s.settled l).owned (.top key) = [] := by
  obtain ⟨next, first, -⟩ := TransGen.head'_iff.mp leads
  obtain ⟨taker, -, last⟩ := TransGen.tail'_iff.mp leads
  obtain ⟨before, after, split⟩ := List.append_of_mem (mem_order.mpr last.contains.2)
  have member := (mem_before_iff split first.contains.1).mpr precedes
  exact settled_nil_of_earlier split only member leads

end Store

/-- When a chain of statements that export everything collapses. A stored resource owns nothing
after resolution if a key that is taken up earlier leads to it, or if a resource that it does not
lead to exports from it; otherwise it still owns everything that it makes visible itself. -/
theorem resolve_collapses {l : Layout} {s : Store} (only : s.OnlyAll) {key : String}
    {r : Resource} (stored : s.get? key = some r) :
    ∃ last, (s.resolve l).get? key = some last ∧
      (s.Emptied l key → last.declarations = []) ∧
      (¬ s.Emptied l key → ∀ d ∈ r.retained.declarations, d ∈ last.declarations) := by
  have held := Store.contains_iff_exists.mpr ⟨r, stored⟩
  refine ⟨_, Store.get?_resolve l stored, ?_, ?_⟩
  · intro emptied
    rw [Resource.declarations_withOwned]
    rcases emptied with ⟨earlier, precedes, leads⟩ | ⟨taker, draws, apart⟩
    · exact Store.settled_nil_of_precedes only precedes leads
    · exact Store.settled_nil_of_taker only draws apart
  · intro kept d own
    obtain ⟨first, within⟩ := not_or.mp kept
    obtain ⟨before, after, split⟩ := List.append_of_mem (Resolution.mem_order.mpr held)
    rw [Resource.declarations_withOwned]
    apply Store.settled_keeps split only
    · exact fun earlier member leads =>
        first ⟨earlier, Store.precedes_of_mem_before split member, leads⟩
    · intro taker draws
      by_contra apart
      exact within ⟨taker, draws, apart⟩
    · have top : s.retained.at? (.top key) = some r.retained := by
        rw [Store.at?_top, Store.get?_retained, stored]
        rfl
      rwa [Store.start_owned top]

section Sample

/-- A module that exports from the nearer of two modules that export from each other. The farther
one has the longest key. -/
def knot : Store :=
  ((Store.empty.set "d" (declared "d" [] [.all "aa" none])).set "aa"
    (declared "aa" [] [.all "bbb" none])).set "bbb" (declared "bbb" ["Foo"] [.all "aa" none])

theorem knot_stored {key : String} {r : Resource} (stored : knot.get? key = some r) :
    (key, r) ∈ [("d", declared "d" [] [.all "aa" none]),
      ("aa", declared "aa" [] [.all "bbb" none]),
      ("bbb", declared "bbb" ["Foo"] [.all "aa" none])] :=
  (knot.resources.get?_eq_some_iff key r).mp stored

theorem knot_onlyAll : knot.OnlyAll := by
  intro key r stored e statement
  have entry := knot_stored stored
  simp only [List.mem_cons, List.not_mem_nil, or_false, Prod.mk.injEq] at entry
  rcases entry with ⟨-, rfl⟩ | ⟨-, rfl⟩ | ⟨-, rfl⟩
  · exact ⟨_, _, List.mem_singleton.mp statement⟩
  · exact ⟨_, _, List.mem_singleton.mp statement⟩
  · exact ⟨_, _, List.mem_singleton.mp statement⟩

theorem knot_draws {l : Layout} {taker key : String} :
    knot.Draws l taker key ↔ (taker, key) ∈ [("d", "aa"), ("aa", "bbb"), ("bbb", "aa")] := by
  simp only [List.mem_cons, List.not_mem_nil, or_false, Prod.mk.injEq]
  constructor
  · intro ⟨e, r, stored, statement, supplied⟩
    have entry := knot_stored stored
    simp only [List.mem_cons, List.not_mem_nil, or_false, Prod.mk.injEq] at entry
    rcases entry with ⟨rfl, rfl⟩ | ⟨rfl, rfl⟩ | ⟨rfl, rfl⟩
    · obtain rfl := List.mem_singleton.mp statement
      rw [Store.supplier?_all, Resolution.target?_eq_some_iff] at supplied
      exact Or.inl ⟨rfl, supplied.1.symm⟩
    · obtain rfl := List.mem_singleton.mp statement
      rw [Store.supplier?_all, Resolution.target?_eq_some_iff] at supplied
      exact Or.inr (Or.inl ⟨rfl, supplied.1.symm⟩)
    · obtain rfl := List.mem_singleton.mp statement
      rw [Store.supplier?_all, Resolution.target?_eq_some_iff] at supplied
      exact Or.inr (Or.inr ⟨rfl, supplied.1.symm⟩)
  · rintro (⟨rfl, rfl⟩ | ⟨rfl, rfl⟩ | ⟨rfl, rfl⟩)
    · refine ⟨.all "aa" none, _, rfl, List.mem_cons_self, ?_⟩
      rw [Store.supplier?_all, Resolution.target?_eq_some_iff]
      exact ⟨rfl, by decide, rfl⟩
    · refine ⟨.all "bbb" none, _, rfl, List.mem_cons_self, ?_⟩
      rw [Store.supplier?_all, Resolution.target?_eq_some_iff]
      exact ⟨rfl, by decide, rfl⟩
    · refine ⟨.all "aa" none, _, rfl, List.mem_cons_self, ?_⟩
      rw [Store.supplier?_all, Resolution.target?_eq_some_iff]
      exact ⟨rfl, by decide, rfl⟩

theorem knot_inside {l : Layout} {key : String}
    (reached : TransGen (knot.Draws l) "bbb" key) : key = "aa" ∨ key = "bbb" := by
  induction reached with
  | single draws =>
    have edge := knot_draws.mp draws
    simp_all
  | tail _ draws ih =>
    have edge := knot_draws.mp draws
    rcases ih with rfl | rfl
    · simp_all
    · simp_all

/-- The chain from the first module leads into the cycle and does not come back, yet the farther
module of the cycle keeps its symbol: it is taken up before the chain is followed. -/
theorem knot_does_not_collapse :
    knot.OnlyAll ∧ TransGen (knot.Draws { root := "/ws" }) "d" "bbb" ∧
    ¬ TransGen (knot.Draws { root := "/ws" }) "bbb" "d" ∧
    ((knot.resolve { root := "/ws" }).get? "bbb").map Resource.declarations =
      some [exportedClass "Foo"] := by
  have near : knot.Draws { root := "/ws" } "d" "aa" := knot_draws.mpr (by decide)
  have far : knot.Draws { root := "/ws" } "aa" "bbb" := knot_draws.mpr (by decide)
  refine ⟨knot_onlyAll, .tail (.single near) far, ?_, by decide +kernel⟩
  · intro back
    rcases knot_inside back with other | other
    · exact absurd other (by decide)
    · exact absurd other (by decide)

theorem knot_collapses :
    (knot.Emptied { root := "/ws" } "aa" ∧
      ((knot.resolve { root := "/ws" }).get? "aa").map Resource.declarations = some []) ∧
    (¬ knot.Emptied { root := "/ws" } "bbb" ∧
      ∃ last, (knot.resolve { root := "/ws" }).get? "bbb" = some last ∧
        exportedClass "Foo" ∈ last.declarations) := by
  have first : knot.Emptied { root := "/ws" } "aa" :=
    Or.inl ⟨"bbb", by decide, .single (knot_draws.mpr (by decide))⟩
  have second : ¬ knot.Emptied { root := "/ws" } "bbb" := by
    rintro (⟨earlier, precedes, leads⟩ | ⟨taker, draws, apart⟩)
    · have last : ∀ k ∈ knot.keys, ¬ knot.Precedes k "bbb" := by decide
      obtain ⟨next, draws, -⟩ := TransGen.head'_iff.mp leads
      exact last earlier ((knot.resources.contains_iff earlier).mp draws.contains.1) precedes
    · have only := knot_draws.mp draws
      simp only [List.mem_cons, List.not_mem_nil, or_false, Prod.mk.injEq] at only
      rcases only with ⟨-, other⟩ | ⟨rfl, -⟩ | ⟨-, other⟩
      · exact absurd other (by decide)
      · exact apart (.single (knot_draws.mpr (by decide)))
      · exact absurd other (by decide)
  have nearer : knot.get? "aa" = some (declared "aa" [] [.all "bbb" none]) := rfl
  have farther : knot.get? "bbb" = some (declared "bbb" ["Foo"] [.all "aa" none]) := rfl
  obtain ⟨last, found, empty, -⟩ := resolve_collapses knot_onlyAll nearer
  obtain ⟨last', found', -, kept⟩ := resolve_collapses knot_onlyAll farther
  rw [found]
  exact ⟨⟨first, congrArg some (empty first)⟩, second, last', found', kept second _ (by decide)⟩

end Sample

end ExportIndex
