import ExportIndex.Proofs.InPlace

/-!
Carrying out statements on the resources themselves does what a pass does. Each
statement changes the view of a pass as the pass itself changes: containers that
are out are in hand, so whatever a visit does in the meantime does not reach them,
and they are put back as the pass has them. By induction on how deep containers
are nested and then on how deep visits are, both ways give the same store. So
nothing is lost or misplaced, and resolution changes declarations only.
-/
namespace ExportIndex

theorem Store.Live.top_or_nested {s : Store} {p : Place} {r : Resource} (live : s.Live p r) :
    (∃ key, p = .top key ∧ s.get? key = some r) ∨ p.down ≠ [] := by
  cases live with
  | @stored key _ found => exact Or.inl ⟨key, rfl, found⟩
  | inside outer assigned => exact Or.inr (by simp)

namespace InPlace

/-- The point of a pass at which statements at a place are carried out: the containers of the
stored resource are out exactly if the place is inside it. -/
structure At (s : Store) (out : List String) (p : Place) (r : Resource) (a : Pass) : Prop where
  live : s.Live p r
  away : p.key ∈ out ↔ p.down ≠ []
  begun : p.key ∈ a.done
  known : out ⊆ a.done

variable {l : Layout} {s : Store} {out : List String} {p : Place} {r : Resource} {a b : Pass}

theorem sinkAt_stored (a : Pass) (key : String) (r : Resource) :
    sinkAt a (.top key) r = .stored key := rfl

theorem sinkAt_detached (nested : p.down ≠ []) (a : Pass) (r : Resource) :
    sinkAt a p r = .detached (r.withOwned a.owned p) := if_neg nested

namespace At

theorem mono (point : At s out p r a) (further : a.done ⊆ b.done) : At s out p r b where
  live := point.live
  away := point.away
  begun := further point.begun
  known := List.Subset.trans point.known further

theorem resource? (point : At s out p r a) :
    (benchAt s out p r a).resource? = some (r.withOwned a.owned p) := by
  rcases point.live.top_or_nested with ⟨key, rfl, stored⟩ | nested
  · have present : key ∉ out := fun away => point.away.mp away rfl
    change (view s out a).store.get? key = _
    rw [get?_view, stored, Option.map_some, shown_of_notMem present]
  · rw [benchAt, sinkAt_detached nested]
    rfl

theorem edit (point : At s out p r a) (f : List Declaration → List Declaration) :
    ((benchAt s out p r a).edit fun r => { r with declarations := f r.declarations }) =
      benchAt s out p r (a.put p (f (a.owned p))) := by
  rcases point.live.top_or_nested with ⟨key, rfl, stored⟩ | nested
  · have held := Store.contains_iff_exists.mpr ⟨r, stored⟩
    exact congrArg (Bench.mk (.stored key)) (modify_view_declarations held f)
  · have same := view_put_nested (s := s) (a := a) nested (point.away.mpr nested) (f (a.owned p))
    rw [benchAt, benchAt, sinkAt_detached nested, sinkAt_detached nested, ← same,
      Resource.withOwned_put]
    simp only [Bench.edit, Resource.declarations_withOwned]

theorem target? (point : At s out p r a) (file : Option String) (source : String) :
    (benchAt s out p r a).target? l file source = Resolution.target? l s p file source := by
  have same (key : String) : ((benchAt s out p r a).sink.isKey key = true) = (p = .top key) := by
    rcases point.live.top_or_nested with ⟨own, rfl, -⟩ | nested
    · rw [benchAt, sinkAt_stored]
      simp [Sink.isKey, Place.top]
    · rw [benchAt, sinkAt_detached nested]
      simp [Sink.isKey, Place.ne_top_of_nested nested]
  have held (key : String) : (benchAt s out p r a).desk.store.contains key = s.contains key :=
    contains_view key
  simp only [Bench.target?, Resolution.target?, same, held]

theorem sinkAt_eq (point : At s out p r a) (spared : Resolution.Spares (fun _ => False) a b) :
    sinkAt b p r = sinkAt a p r := by
  rcases point.live.top_or_nested with ⟨key, rfl, -⟩ | nested
  · rfl
  · have same : r.withOwned b.owned p = r.withOwned a.owned p := by
      apply Resource.withOwned_congr
      intro q above
      exact spared.owned q (Place.nested_of_above nested above) (above.1 ▸ point.begun) id
    rw [sinkAt_detached nested, sinkAt_detached nested, same]

end At

structure Simulates (s : Store) (visit : String → Pass → Pass) (visit' : String → Desk → Desk) :
    Prop where
  view {out : List String} {key : String} {a : Pass} (held : s.contains key = true)
    (known : out ⊆ a.done) : visit' key (view s out a) = view s out (visit key a)
  spares (key : String) (a : Pass) (held : s.contains key = true) :
    Resolution.Spares (fun _ => False) a (visit key a)

variable {visit : String → Pass → Pass} {visit' : String → Desk → Desk}

theorem carry_benchAt (visits : Simulates s visit visit') (point : At s out p r a) (e : Export)
    (source : String) :
    (benchAt s out p r a).carry l visit' r.path? source e = benchAt s out p r
      (match Resolution.target? l s p r.path? source with
      | none => a
      | some key => (visit key a).carry e key p) := by
  rw [Bench.carry, point.target?]
  cases found : Resolution.target? l s p r.path? source with
  | none => rfl
  | some key =>
    have held := (Resolution.target?_eq_some_iff.mp found).2.2
    have spared := visits.spares key a held
    have visited : visit' key (benchAt s out p r a).desk = view s out (visit key a) :=
      visits.view held point.known
    simp only [visited]
    -- what is in hand lies inside a resource that is done, so the visit did not reach it
    generalize visit key a = b at spared ⊢
    have whole : (((view s out b).store.get? key).map Resource.declarations).getD [] =
        b.owned (.top key) := by
      obtain ⟨x, stored⟩ := Store.contains_iff_exists.mp held
      rw [get?_view, stored]
      exact declarations_shown b.owned key x
    have left := spared.trans (.put_top _ key b (e.left (b.owned (.top key))))
    have inHand : benchAt s out p r (b.put (.top key) (e.left (b.owned (.top key)))) =
        ⟨(benchAt s out p r a).sink, view s out (b.put (.top key) (e.left (b.owned (.top key))))⟩ :=
      congrArg (Bench.mk · _) (point.sinkAt_eq left)
    rw [whole, modify_view_declarations held e.left, ← inHand]
    exact (point.mono left.done).edit (· ++ e.taken (b.owned (.top key)))

def sinkWithout (a : Pass) (p : Place) (r : Resource) : Sink :=
  if p.down = [] then .stored p.key
  else .detached { r.withOwned a.owned p with resources := [] }

theorem sinkWithout_detached (nested : p.down ≠ []) (a : Pass) (r : Resource) :
    sinkWithout a p r = .detached { r.withOwned a.owned p with resources := [] } := if_neg nested

theorem shown_out_other {key k : String} (other : k ≠ key) (owned : Place → List Declaration)
    (x : Resource) : shown (key :: out) owned k x = shown out owned k x := by
  have same : k ∈ key :: out ↔ k ∈ out := by simp [other]
  exact shown_congr same rfl (fun _ _ _ _ => rfl) x

theorem view_out_of_mem {key : String} (away : key ∈ out) (a : Pass) :
    view s (key :: out) a = view s out a := by
  have same (k : String) : k ∈ key :: out ↔ k ∈ out := by
    simp only [List.mem_cons, or_iff_right_iff_imp]
    rintro rfl
    exact away
  exact view_congr rfl same (fun _ => rfl) fun _ _ _ => rfl

namespace At

theorem takes_out (point : At s out p r a) :
    ((benchAt s out p r a).edit fun r => { r with resources := [] }) =
      ⟨sinkWithout a p r, view s (p.key :: out) a⟩ := by
  rcases point.live.top_or_nested with ⟨key, rfl, stored⟩ | nested
  · have present : key ∉ out := fun away => point.away.mp away rfl
    refine congrArg (Bench.mk (.stored key)) (modify_view stored rfl ?_ ?_)
    · rw [Place.key_top, shown_of_notMem present, shown_of_mem List.mem_cons_self]
    · exact fun k x other => (shown_out_other other a.owned x).symm
  · rw [view_out_of_mem (point.away.mpr nested), benchAt, sinkAt_detached nested,
      sinkWithout_detached nested]
    rfl

theorem puts_back (point : At s out p r a) (same : p.down ≠ [] → b.owned p = a.owned p)
    (ds : List Declaration) :
    ((⟨sinkWithout a p r, view s (p.key :: out) b⟩ : Bench).edit fun x =>
      { x with declarations := x.declarations ++ ds,
               resources := Resource.withOwnedAll b.owned p 0 r.resources }) =
      benchAt s out p r (b.give p ds) := by
  rcases point.live.top_or_nested with ⟨key, rfl, stored⟩ | nested
  · have present : key ∉ out := fun away => point.away.mp away rfl
    refine congrArg (Bench.mk (.stored key)) (modify_view stored rfl ?_ ?_)
    · rw [Place.key_top, declarations_shown, shown_of_notMem present,
        shown_of_mem List.mem_cons_self, Pass.give, Resource.withOwned_put, Resource.withOwned_eq]
    · intro k x other
      exact (shown_out_other other b.owned x).trans (shown_put_other other _ x)
  · have away := point.away.mpr nested
    have hidden := view_put_nested (s := s) (a := b) nested away (b.owned p ++ ds)
    rw [view_out_of_mem away, hidden, benchAt, sinkAt_detached nested, sinkWithout_detached nested,
      Pass.give, Resource.withOwned_put]
    simp only [Bench.edit, Resource.withOwned_eq, same nested]

end At

theorem withOwned_of_spared {i : Nat} (begun : p.key ∈ a.done)
    (spared : Resolution.Spares (fun q => ∃ j, i + 1 ≤ j ∧ (p.child j).Above q) a b)
    (inner : Resource) :
    inner.withOwned b.owned (p.child i) = inner.withOwned a.owned (p.child i) := by
  apply Resource.withOwned_congr
  intro q above
  have nested := Place.nested_of_above (p.nested_child i) above
  refine spared.owned q nested (above.1 ▸ begun) ?_
  rintro ⟨j, later, other⟩
  have same := Place.eq_of_child_above above other
  omega

theorem withOwnedAll_of_spared {i : Nat} (begun : p.key ∈ a.done)
    (spared : Resolution.Spares (p.child i).Above a b) (rest : List Resource) :
    Resource.withOwnedAll b.owned p (i + 1) rest =
      Resource.withOwnedAll a.owned p (i + 1) rest := by
  apply Resource.withOwnedAll_congr
  intro j q later above
  have nested := Place.nested_of_above (p.nested_child j) above
  refine spared.owned q nested (above.1 ▸ begun) fun other => ?_
  have same := Place.eq_of_child_above above other
  omega

def SettlesInside (l : Layout) (s : Store) (visit : String → Pass → Pass) (out : List String)
    (p : Place) (r : Resource) (settle' : Resource → Desk → Resource × Desk) : Prop :=
  ∀ i inner a, r.Assigns i inner → out ⊆ a.done →
    settle' (inner.withOwned a.owned (p.child i)) (view s out a) =
      let b := Resolution.settle l s visit (p.child i) inner
        (a.put (p.child i) (retain inner.localNames (a.owned (p.child i))))
      (inner.withOwned b.owned (p.child i), view s out b)

theorem drainAll_view (visits : Simulates s visit visit') (live : s.Live p r)
    {identifier : String} (listed : identifier ∈ r.assignedNames) (away : p.key ∈ out)
    {settle' : Resource → Desk → Resource × Desk}
    (settles : SettlesInside l s visit out p r settle') {rs : List Resource} {i : Nat}
    (held : r.resources.drop i = rs) {a : Pass} (known : out ⊆ a.done) :
    drainAll settle' identifier (Resource.withOwnedAll a.owned p i rs) (view s out a) =
      let result := Resolution.drain l s visit p i rs identifier a
      (Resource.withOwnedAll result.2.owned p i rs, result.1, view s out result.2) := by
  induction rs generalizing i a with
  | nil =>
    simp only [Resolution.drain, Resource.withOwnedAll, drainAll]
  | cons inner rest ih =>
    obtain ⟨position, others⟩ := Resolution.drop_eq_cons held
    rw [Resource.withOwnedAll, drainAll, Resource.name?_withOwned, Resolution.drain]
    by_cases called : inner.name? = some identifier
    · have assigned : r.Assigns i inner := ⟨position, identifier, called, listed⟩
      simp only [if_pos called, settles i inner a assigned known]
      have settled := (Resolution.spares_rules (l := l) visits.spares).settle_obeys inner
        (live.inside assigned) (a.put (p.child i) (retain inner.localNames (a.owned (p.child i))))
      have child := Place.above_refl (p.child i)
      generalize Resolution.settle l s visit (p.child i) inner _ = b at settled ⊢
      -- the container is left empty, and the others are as they were
      have spared : Resolution.Spares (p.child i).Above a (b.put (p.child i) []) :=
        (Resolution.Spares.put child a _).trans (settled.trans (.put child b []))
      have emptied : (inner.withOwned b.owned (p.child i)).takeVisible =
          ((b.owned (p.child i)).filter Declaration.isVisible,
            inner.withOwned (b.put (p.child i) []).owned (p.child i)) := by
        rw [Resource.takeVisible, Resource.declarations_withOwned, Resource.withOwned_put]
      have hidden : view s out b = view s out (b.put (p.child i) []) :=
        view_put_nested (p.nested_child i) away []
      have known' := List.Subset.trans known spared.done
      have later := Resolution.drain_spares (l := l) visits.spares live listed others
        (b.put (p.child i) [])
      simp only [emptied, hidden, ← withOwnedAll_of_spared (known away) spared rest,
        ih others known', Resource.withOwnedAll, withOwned_of_spared (known' away) later inner]
    · have later := Resolution.drain_spares (l := l) visits.spares live listed others a
      simp only [if_neg called, ih others known, Resource.withOwnedAll,
        withOwned_of_spared (known away) later inner]

theorem drain_benchAt (visits : Simulates s visit visit') (point : At s out p r a)
    {identifier : String} (listed : identifier ∈ r.assignedNames)
    {settle' : Resource → Desk → Resource × Desk}
    (settles : SettlesInside l s visit (p.key :: out) p r settle') :
    drain settle' identifier (benchAt s out p r a) =
      let result := Resolution.drain l s visit p 0 r.resources identifier a
      benchAt s out p r (result.2.give p result.1) := by
  have known : p.key :: out ⊆ a.done := List.cons_subset.mpr ⟨point.begun, point.known⟩
  have drained := drainAll_view visits point.live listed List.mem_cons_self settles
    (List.drop_zero (l := r.resources)) known
  have spared := Resolution.drain_spares (l := l) visits.spares point.live listed
    (List.drop_zero (l := r.resources)) a
  have same (nested : p.down ≠ []) :
      (Resolution.drain l s visit p 0 r.resources identifier a).2.owned p = a.owned p := by
    apply spared.owned p nested point.begun
    rintro ⟨j, -, above⟩
    exact Place.not_child_above p j above
  rw [drain, point.resource?]
  simp only [point.takes_out, Resource.resources_withOwned, drained]
  exact point.puts_back same _

theorem follow_benchAt (visits : Simulates s visit visit') (point : At s out p r a)
    {settle' : Resource → Desk → Resource × Desk}
    (settles : SettlesInside l s visit (p.key :: out) p r settle') {e : Export}
    (statement : e ∈ r.exports) :
    follow l visit' settle' r.path? (benchAt s out p r a) e = benchAt s out p r
      (Resolution.follow l s visit (Resolution.drain l s visit p 0 r.resources) p r.path? a e) := by
  cases named : e.source? with
  | some source =>
    rw [Resolution.follow_of_source named]
    refine Eq.trans ?_ (carry_benchAt visits point e source)
    cases e with
    | all other span =>
      obtain rfl : other = source := by simpa [Export.source?] using named
      rfl
    | named other specifiers span =>
      obtain rfl : other = some source := by simpa [Export.source?] using named
      rfl
    | assigned identifier span => simp [Export.source?] at named
  | none =>
    cases e with
    | all source span => simp [Export.source?] at named
    | named source specifiers span =>
      obtain rfl : source = none := named
      exact point.edit (Resolution.rename specifiers)
    | assigned identifier span =>
      have listed : identifier ∈ r.assignedNames := List.mem_filterMap.mpr ⟨_, statement, rfl⟩
      exact drain_benchAt visits point listed settles

theorem foldl_benchAt (visits : Simulates s visit visit')
    {settle' : Resource → Desk → Resource × Desk}
    (settles : SettlesInside l s visit (p.key :: out) p r settle') {es : List Export}
    (part : es ⊆ r.exports) {a : Pass} (point : At s out p r a) :
    es.foldl (follow l visit' settle' r.path?) (benchAt s out p r a) = benchAt s out p r
      (es.foldl (Resolution.follow l s visit (Resolution.drain l s visit p 0 r.resources) p r.path?)
        a) := by
  induction es generalizing a with
  | nil => rfl
  | cons e es ih =>
    obtain ⟨statement, rest⟩ := List.cons_subset.mp part
    have grown : Resolution.Spares p.Above a (Resolution.follow l s visit
        (Resolution.drain l s visit p 0 r.resources) p r.path? a e) :=
      (Resolution.spares_rules (l := l) visits.spares).statements_obey point.live
        (List.cons_subset.mpr ⟨statement, List.nil_subset _⟩) a
    rw [List.foldl_cons, List.foldl_cons, follow_benchAt visits point settles statement,
      ih rest (point.mono grown.done)]

def SettlesDetached (l : Layout) (s : Store) (visit : String → Pass → Pass) (depth : Nat)
    (settle' : Resource → Desk → Resource × Desk) : Prop :=
  ∀ out p r a, p.down ≠ [] → r.height < depth → At s out p r a →
    settle' (r.withOwned a.owned p) (view s out a) =
      let b := Resolution.settle l s visit p r (a.put p (retain r.localNames (a.owned p)))
      (r.withOwned b.owned p, view s out b)

theorem SettlesDetached.inside {depth : Nat} {settle' : Resource → Desk → Resource × Desk}
    (detached : SettlesDetached l s visit depth settle') (live : s.Live p r)
    (shallow : r.height ≤ depth) : SettlesInside l s visit (p.key :: out) p r settle' := by
  intro i inner a assigned known
  have lower : inner.height < r.height := by
    rw [r.height_eq]
    exact Resource.height_lt_of_mem (List.mem_of_getElem? assigned.1)
  have nested := p.nested_child i
  refine detached _ _ _ _ nested (by omega) ⟨live.inside assigned, ?_, ?_, known⟩
  · exact iff_of_true List.mem_cons_self nested
  · exact known List.mem_cons_self

theorem settleDetached_view (visits : Simulates s visit visit') (depth : Nat) :
    SettlesDetached l s visit depth (settleDetached l visit' depth) := by
  induction depth with
  | zero =>
    intro out p r a nested shallow point
    omega
  | succ depth ih =>
    intro out p r a nested shallow point
    have settles : SettlesInside l s visit (p.key :: out) p r (settleDetached l visit' depth) :=
      ih.inside point.live (by omega)
    have start : (⟨.detached (r.withOwned a.owned p).retained, view s out a⟩ : Bench) =
        benchAt s out p r (a.put p (retain r.localNames (a.owned p))) := by
      rw [benchAt, sinkAt_detached nested, Resource.withOwned_put,
        ← view_put_nested nested (point.away.mpr nested), Resource.withOwned_eq]
      rfl
    have begun : At s out p r (a.put p (retain r.localNames (a.owned p))) :=
      point.mono (List.Subset.refl a.done)
    have run := foldl_benchAt visits settles (List.Subset.refl r.exports) begun
    have after := (Resolution.spares_rules (l := l) visits.spares).settle_obeys r point.live
      (a.put p (retain r.localNames (a.owned p)))
    rw [settleDetached, Resource.exports_withOwned, Resource.path?_withOwned, start, run,
      ← Resolution.settle_eq_foldl, (begun.mono after.done).resource?]
    rfl

theorem visitWithin_view {depth : Nat} (shallow : ∀ key r, s.get? key = some r → r.height ≤ depth)
    (bound : Nat) : Simulates s (Resolution.visitWithin l s bound) (visitWithin l depth bound) := by
  refine ⟨?_, Resolution.visitWithin_spares bound⟩
  induction bound with
  | zero =>
    intro out key a _ _
    rfl
  | succ bound ih =>
    intro out key a held known
    have visits : Simulates s (Resolution.visitWithin l s bound) (visitWithin l depth bound) :=
      ⟨ih, Resolution.visitWithin_spares bound⟩
    obtain ⟨r, stored⟩ := Store.contains_iff_exists.mp held
    rw [visitWithin, Resolution.visitWithin_succ]
    by_cases early : key ∈ a.done
    · rw [Resolution.enter_of_done early]
      exact if_pos early
    · have present : key ∉ out := fun away => early (known away)
      have point : At s out (.top key) r (a.mark key) :=
        { live := .stored stored
          away := iff_of_false present fun nested => nested rfl
          begun := List.mem_cons_self
          known := List.subset_cons_of_subset key known }
      have settles : SettlesInside l s (Resolution.visitWithin l s bound) (key :: out) (.top key) r
          (settleDetached l (visitWithin l depth bound) depth) :=
        (settleDetached_view visits depth).inside point.live (shallow key r stored)
      have run := foldl_benchAt visits settles (List.Subset.refl r.exports) point
      have found : (view s out a).store.get? key = some (r.withOwned a.owned (.top key)) := by
        rw [get?_view, stored, Option.map_some, shown_of_notMem present]
      rw [Resolution.enter_of_fresh early stored, Resolution.settle_eq_foldl, found]
      refine (if_neg early).trans ?_
      simp only [Resource.exports_withOwned, Resource.path?_withOwned]
      exact congrArg Bench.desk run

theorem view_nil (s : Store) (a : Pass) : view s [] a = ⟨a.done, s.withOwned a.owned⟩ := by
  have whole : shown [] a.owned = fun key r => r.withOwned a.owned (.top key) := by
    funext key r
    exact shown_of_notMem List.not_mem_nil a.owned r
  rw [view, whole]
  rfl

theorem settleAll_view (l : Layout) (s : Store) :
    settleAll l s = view s [] (Resolution.settleAll l s ⟨[], s.owned⟩) := by
  have shallow (key : String) (r : Resource) (stored : s.get? key = some r) :
      r.height ≤ Resource.heightAll s.resources.values := by
    have member : r ∈ s.resources.values :=
      List.mem_map.mpr ⟨(key, r), (s.resources.get?_eq_some_iff key r).mp stored, rfl⟩
    exact (Resource.height_lt_of_mem member).le
  have begins : (⟨[], s⟩ : Desk) = view s [] ⟨[], s.owned⟩ := by
    rw [view_nil, s.withOwned_owned]
  rw [settleAll, begins, Resolution.settleAll]
  refine List.foldl_rel (r := fun desk a => desk = view s [] a) rfl ?_
  rintro key listed _ a rfl
  exact (visitWithin_view shallow s.size).view (Resolution.mem_order.mp listed) (List.nil_subset _)

end InPlace

theorem Store.resolveInPlace_eq (l : Layout) (s : Store) : s.resolveInPlace l = s.resolve l := by
  rw [resolveInPlace, InPlace.settleAll_view, InPlace.view_nil]
  exact s.withOwned_retained _

section Sample

def roundabout : Store :=
  (Store.empty.set "m" ⟨.declaredModule "m", [exportedClass "A"], [.assigned "N" none], [], [],
      [⟨.declaredNamespace "N", [exportedClass "B"], [.all "k" none], [], [], [], none⟩], none⟩).set
    "k" ⟨.declaredModule "k", [exportedClass "C"], [.all "m" none], [], [], [], none⟩

example : ((roundabout.resolveInPlace { root := "/ws" }).get? "m").map
    (fun r => (r.declarations, r.resources.map Resource.declarations)) =
      some ([exportedClass "B", exportedClass "C", exportedClass "A"], [[]]) := by
  decide +kernel

end Sample

/-- Resolution changes declarations and nothing else. Carried out on the resources themselves, with
containers taken out and put back on the way, it gives the same store. Without its declarations
that store is the one before: the keys and their order, where each came from and what each file
produced, and at every place, however deep, a resource of the same kind, with the same statements,
imports, usages and span, that holds as many others. So it is known from the store before and from
who owns what. -/
theorem resolve_keeps_outline (l : Layout) (s : Store) :
    s.resolveInPlace l = s.resolve l ∧
    (s.resolve l).outline = s.outline ∧
    (s.resolve l).keys = s.keys ∧
    (∀ key, (s.resolve l).source? key = s.source? key) ∧
    (∀ path, (s.resolve l).keysOf path = s.keysOf path) ∧
    (∀ p, Option.Rel Resource.Alike ((s.resolve l).at? p) (s.at? p)) ∧
    ∀ t : Store, t.outline = s.outline → t.owned = (s.resolve l).owned → t = s.resolve l := by
  have same : (s.resolve l).outline = s.outline := s.outline_withOwned _
  refine ⟨s.resolveInPlace_eq l, same, s.keys_resolve l, fun key => rfl, fun path => rfl, ?_, ?_⟩
  · intro p
    have here : ((s.resolve l).at? p).map Resource.outline = (s.at? p).map Resource.outline := by
      rw [← Store.at?_outline, ← Store.at?_outline, same]
    cases before : s.at? p with
    | none =>
      rw [before] at here
      rw [Option.map_eq_none_iff.mp here]
      exact .none
    | some r =>
      rw [before] at here
      obtain ⟨last, after, shape⟩ := Option.map_eq_some_iff.mp here
      rw [after]
      exact .some (.of_outline shape)
  · intro t shape owned
    exact Store.eq_of_outline (shape.trans same.symm) owned

end ExportIndex
