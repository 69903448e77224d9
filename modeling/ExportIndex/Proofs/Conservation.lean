import ExportIndex.Proofs.LivePlaces

/-!
Export resolution neither loses nor duplicates a declaration. A declaration may
change its name and its owner on the way, so it is followed by its payload: what
kind it is and where it stands. The total over all live places stays the same at
every step of a pass. In the end the assigned containers are empty, so the
stored resources have all of it, and no other container was touched.
-/
namespace ExportIndex

def Declaration.payload (d : Declaration) : Declaration.Kind × Option Span := (d.kind, d.span)

def Clean (ds : List Declaration) : Prop := ∀ d ∈ ds, d.isVisible = true

namespace Clean

theorem append {ds es : List Declaration} (first : Clean ds) (second : Clean es) :
    Clean (ds ++ es) := by
  intro d member
  rcases List.mem_append.mp member with here | there
  · exact first d here
  · exact second d there

theorem retain (names : List String) (ds : List Declaration) : Clean (retain names ds) :=
  fun _ member => (List.mem_filter.mp member).2

theorem filter_eq {ds : List Declaration} (clean : Clean ds) :
    ds.filter Declaration.isVisible = ds := List.filter_eq_self.mpr clean

theorem retain_eq {ds : List Declaration} (clean : Clean ds) (names : List String) :
    ExportIndex.retain names ds = ds := by
  have marked : (ds.map fun d =>
      { d with exported := d.exported || names.contains d.name }) = ds := by
    refine (List.map_congr_left fun d member => ?_).trans (List.map_id ds)
    have exported : d.exported = true := (Bool.and_eq_true_iff.mp (clean d member)).2
    cases d
    simp_all
  rw [ExportIndex.retain, marked, clean.filter_eq]

theorem rename {ds : List Declaration} (clean : Clean ds) (specifiers : List Specifier) :
    Clean (Resolution.rename specifiers ds) := by
  intro d member
  obtain ⟨original, held, rfl⟩ := List.mem_map.mp member
  exact clean original held

theorem left {ds : List Declaration} (clean : Clean ds) (e : Export) : Clean (e.left ds) :=
  fun d member => clean d ((e.left_sublist ds).subset member)

theorem taken {ds : List Declaration} (clean : Clean ds) (e : Export) : Clean (e.taken ds) := by
  cases e with
  | all source span => exact clean
  | named source specifiers span =>
    intro d member
    obtain ⟨original, held, change⟩ := List.mem_filterMap.mp member
    obtain ⟨name, _, rfl⟩ := Option.map_eq_some_iff.mp change
    exact clean original held
  | assigned identifier span => exact fun _ member => absurd member List.not_mem_nil

end Clean

def tally (x : Declaration.Kind × Option Span) (ds : List Declaration) : Nat :=
  (ds.map Declaration.payload).count x

section Tally

variable (x : Declaration.Kind × Option Span)

@[simp] theorem tally_nil : tally x [] = 0 := rfl

@[simp] theorem tally_append (ds es : List Declaration) :
    tally x (ds ++ es) = tally x ds + tally x es := by
  simp [tally, List.count_append]

theorem tally_rename (specifiers : List Specifier) (ds : List Declaration) :
    tally x (Resolution.rename specifiers ds) = tally x ds := by
  unfold tally Resolution.rename
  rw [List.map_map]
  rfl

theorem tally_chosen (specifiers : List Specifier) (ds : List Declaration) :
    tally x (Resolution.unchosen specifiers ds) + tally x (Resolution.chosen specifiers ds) =
      tally x ds := by
  induction ds with
  | nil => rfl
  | cons d ds ih =>
    have single : ∀ es, tally x (d :: es) = tally x [d] + tally x es :=
      fun es => tally_append x [d] es
    cases change : renamed? specifiers d.name with
    | none =>
      have kept : Resolution.unchosen specifiers (d :: ds) =
          d :: Resolution.unchosen specifiers ds := by simp [Resolution.unchosen, change]
      have others : Resolution.chosen specifiers (d :: ds) =
          Resolution.chosen specifiers ds := by simp [Resolution.chosen, change]
      rw [kept, others, single, single ds]
      omega
    | some name =>
      have kept : Resolution.unchosen specifiers (d :: ds) =
          Resolution.unchosen specifiers ds := by simp [Resolution.unchosen, change]
      have others : Resolution.chosen specifiers (d :: ds) =
          { d with name := name } :: Resolution.chosen specifiers ds := by
        simp [Resolution.chosen, change]
      have same : tally x ({ d with name := name } :: Resolution.chosen specifiers ds) =
          tally x [d] + tally x (Resolution.chosen specifiers ds) :=
        tally_append x [{ d with name := name }] _
      rw [kept, others, same, single ds]
      omega

theorem tally_left_taken (e : Export) (ds : List Declaration) :
    tally x (e.left ds) + tally x (e.taken ds) = tally x ds := by
  cases e with
  | all source span => simp [Export.left, Export.taken]
  | named source specifiers span => exact tally_chosen x specifiers ds
  | assigned identifier span => simp [Export.left, Export.taken]

end Tally

/-- What the live places hold, each reduced to what it makes visible. -/
def holdings (sites : List (Place × Resource)) (a : Pass) : List Declaration :=
  sites.flatMap fun site => retain site.2.localNames (a.owned site.1)

theorem holdings_put_of_notMem {sites : List (Place × Resource)} {p : Place}
    (absent : p ∉ sites.map Prod.fst) (a : Pass) (ds : List Declaration) :
    holdings sites (a.put p ds) = holdings sites a := by
  unfold holdings
  apply List.flatMap_congr
  intro site member
  have other : site.1 ≠ p := fun same => absent (List.mem_map.mpr ⟨site, member, same⟩)
  rw [Pass.owned_put_of_ne other]

theorem tally_holdings_put (x : Declaration.Kind × Option Span)
    {sites : List (Place × Resource)} (distinct : (sites.map Prod.fst).Nodup) {p : Place}
    {r : Resource} (member : (p, r) ∈ sites) (a : Pass) (ds : List Declaration) :
    tally x (holdings sites (a.put p ds)) + tally x (retain r.localNames (a.owned p)) =
      tally x (holdings sites a) + tally x (retain r.localNames ds) := by
  induction sites with
  | nil => simp at member
  | cons site sites ih =>
    obtain ⟨fresh, distinct⟩ := List.nodup_cons.mp distinct
    have unfold_head : ∀ b, holdings (site :: sites) b =
        retain site.2.localNames (b.owned site.1) ++ holdings sites b := fun _ => rfl
    rw [unfold_head, unfold_head, tally_append, tally_append]
    rcases List.mem_cons.mp member with rfl | later
    · rw [holdings_put_of_notMem fresh, Pass.owned_put_self]
      dsimp only
      omega
    · have other : site.1 ≠ p := fun same => fresh (List.mem_map.mpr ⟨_, later, same.symm⟩)
      have others := ih distinct later
      rw [Pass.owned_put_of_ne other]
      omega

namespace Resolution

variable {l : Layout} {s : Store}

def TopsClean (a : Pass) : Prop := ∀ key, Clean (a.owned (.top key))

/-- What was clean stays clean, and the live places lose exactly what was taken out. -/
structure Balanced (s : Store) (a : Pass) (ds : List Declaration) (b : Pass) : Prop where
  clean : ∀ q, Clean (a.owned q) → Clean (b.owned q)
  visible : Clean ds
  total : ∀ x, tally x (holdings s.sites b) + tally x ds = tally x (holdings s.sites a)

namespace Balanced

theorem refl (s : Store) (a : Pass) : Balanced s a [] a :=
  ⟨fun _ clean => clean, fun _ member => absurd member List.not_mem_nil, fun _ => rfl⟩

theorem trans {a b c : Pass} {ds es : List Declaration} (first : Balanced s a ds b)
    (second : Balanced s b es c) : Balanced s a (ds ++ es) c where
  clean q clean := second.clean q (first.clean q clean)
  visible := first.visible.append second.visible
  total x := by
    have here := first.total x
    have there := second.total x
    rw [tally_append]
    omega

theorem put {p : Place} {r : Resource} (live : s.Live p r) (a : Pass)
    {ds es : List Declaration} (written : Clean es) (visible : Clean ds)
    (exchange : ∀ x, tally x es + tally x ds = tally x (retain r.localNames (a.owned p))) :
    Balanced s a ds (a.put p es) where
  clean q clean := by
    by_cases same : q = p
    · subst same
      rwa [Pass.owned_put_self]
    · rwa [Pass.owned_put_of_ne same]
  visible := visible
  total x := by
    have change := tally_holdings_put x s.sites_nodup (Store.mem_sites_iff.mpr live) a es
    have equal := exchange x
    rw [written.retain_eq] at change
    omega

theorem give {p : Place} {r : Resource} (live : s.Live p r) {a b : Pass}
    {ds : List Declaration} (taken : Balanced s a ds b) (clean : Clean (b.owned p)) :
    Balanced s a [] (b.give p ds) where
  clean q before := by
    by_cases same : q = p
    · subst same
      rw [Pass.owned_give_self]
      exact (taken.clean q before).append taken.visible
    · rw [Pass.owned_give_of_ne same]
      exact taken.clean q before
  visible _ member := absurd member List.not_mem_nil
  total x := by
    have change := tally_holdings_put x s.sites_nodup (Store.mem_sites_iff.mpr live) b
      (b.owned p ++ ds)
    have equal := taken.total x
    rw [clean.retain_eq, (clean.append taken.visible).retain_eq, tally_append] at change
    rw [Pass.give, tally_nil]
    omega

theorem tops {a b : Pass} {ds : List Declaration} (balanced : Balanced s a ds b)
    (clean : TopsClean a) : TopsClean b := fun key => balanced.clean _ (clean key)

end Balanced

theorem balanced_rules {visit : String → Pass → Pass}
    (visits : ∀ key a, s.contains key = true → TopsClean a → Balanced s a [] (visit key a)) :
    Rules l s visit fun p a ds b => TopsClean a → Clean (a.owned p) → Balanced s a ds b where
  rest _ a _ _ := .refl s a
  next first second tops clean := by
    have here := first tops clean
    exact here.trans (second (here.tops tops) (here.clean _ clean))
  carried {p r e source key} live _ _ found a tops clean := by
    obtain ⟨_, other, held⟩ := target?_eq_some_iff.mp found
    obtain ⟨target, stored⟩ := Option.isSome_iff_exists.mp held
    have visited := visits key a held tops
    have source := visited.tops tops key
    have parted : Balanced s (visit key a) (e.taken ((visit key a).owned (.top key)))
        ((visit key a).put (.top key) (e.left ((visit key a).owned (.top key)))) := by
      refine .put (.stored stored) _ (source.left e) (source.taken e) fun x => ?_
      rw [source.retain_eq]
      exact tally_left_taken x e _
    refine (visited.trans parted).give live ?_
    rw [Pass.owned_put_of_ne other]
    exact visited.clean p clean
  renamed live _ a tops clean := by
    refine .put live a (clean.rename _) (fun _ member => absurd member List.not_mem_nil) ?_
    intro x
    rw [tally_rename, clean.retain_eq]
    rfl
  drained {p r inner i a b} live assigned settled tops clean := by
    have entered : Balanced s a []
        (a.put (p.child i) (retain inner.localNames (a.owned (p.child i)))) :=
      .put (live.inside assigned) a (.retain _ _)
        (fun _ member => absurd member List.not_mem_nil) fun _ => rfl
    have inside : Clean (b.owned (p.child i)) ∧ Balanced s a [] b := by
      have own : Clean ((a.put (p.child i)
          (retain inner.localNames (a.owned (p.child i)))).owned (p.child i)) := by
        rw [Pass.owned_put_self]
        exact .retain _ _
      have settled := settled (entered.tops tops) own
      exact ⟨settled.clean _ own, entered.trans settled⟩
    rw [inside.1.filter_eq]
    refine inside.2.trans (.put (live.inside assigned) b ?_ inside.1 fun x => ?_)
    · exact fun _ member => absurd member List.not_mem_nil
    · rw [inside.1.retain_eq, tally_nil, Nat.zero_add]
  received live taken tops clean := by
    have taken := taken tops clean
    exact taken.give live (taken.clean _ clean)

theorem visitWithin_balanced (bound : Nat) (key : String) (a : Pass)
    (held : s.contains key = true) (tops : TopsClean a) :
    Balanced s a [] (visitWithin l s bound key a) := by
  refine visitWithin_obeys (V := fun _ a b => TopsClean a → Balanced s a [] b)
    (fun _ => balanced_rules) (fun _ a _ => .refl s a) ?_ bound key a held tops
  intro key r a b found fresh settled tops
  obtain ⟨clean, visible, total⟩ := settled tops (tops key)
  exact ⟨clean, visible, total⟩

theorem settleAll_balanced (l : Layout) (s : Store) (a : Pass) (tops : TopsClean a) :
    Balanced s a [] (settleAll l s a) := by
  refine settleAll_keeps (.refl s a) ?_
  intro key b held balanced
  exact balanced.trans (visitWithin_balanced s.size key b held (balanced.tops tops))

theorem empty_rules {q : Place} (nested : q.down ≠ []) {visit : String → Pass → Pass}
    (visits : ∀ key a, s.contains key = true → a.owned q = [] → (visit key a).owned q = []) :
    Rules l s visit fun p a _ b => q ≠ p → a.owned q = [] → b.owned q = [] where
  rest _ _ _ empty := empty
  next first second other empty := second other (first other empty)
  carried _ _ _ found a other empty := by
    rw [Pass.owned_carry_of_ne (Place.ne_top_of_nested nested _) other]
    exact visits _ a (target?_eq_some_iff.mp found).2.2 empty
  renamed _ _ a other empty := by rwa [Pass.owned_put_of_ne other]
  drained {p _ _ i a b} _ _ settled other empty := by
    by_cases same : q = p.child i
    · rw [same, Pass.owned_put_self]
    · rw [Pass.owned_put_of_ne same]
      refine settled same ?_
      rwa [Pass.owned_put_of_ne same]
  received _ taken other empty := by
    rw [Pass.owned_give_of_ne other]
    exact taken other empty

theorem visitWithin_keeps_empty {q : Place} (nested : q.down ≠ []) (bound : Nat) (key : String)
    (a : Pass) (held : s.contains key = true) (empty : a.owned q = []) :
    (visitWithin l s bound key a).owned q = [] := by
  refine visitWithin_obeys (V := fun _ a b => a.owned q = [] → b.owned q = [])
    (fun _ => empty_rules nested) (fun _ _ empty => empty) ?_ bound key a held empty
  intro key r a b found fresh settled empty
  exact settled (Place.ne_top_of_nested nested key) empty

section Emptied

variable {visit : String → Pass → Pass}
  (visits : ∀ q : Place, q.down ≠ [] → ∀ key a, s.contains key = true →
    a.owned q = [] → (visit key a).owned q = [])

include visits

mutual

theorem settle_empties : ∀ (r : Resource) {p : Place} {site : Place × Resource}, s.Live p r →
    site ∈ r.sites p → site.1 ≠ p → ∀ a, (settle l s visit p r a).owned site.1 = []
  | ⟨kind, declarations, exports, imports, usages, resources, span⟩, p, site, live, member,
      other, a => by
    rw [Resource.sites] at member
    rcases List.mem_cons.mp member with rfl | below
    · exact absurd rfl other
    · have nested := Resource.nested_of_mem_sitesAmong below
      have rules : Rules l s visit _ := empty_rules nested (visits site.1 nested)
      obtain ⟨identifier, listed, inside⟩ := Resource.exists_mem_sitesAmong_singleton below
      obtain ⟨span, statement⟩ := Export.exists_assigned listed
      obtain ⟨before, after, split⟩ := List.append_of_mem statement
      have later : after ⊆ exports := fun e member =>
        split ▸ List.mem_append_right _ (List.mem_cons_of_mem _ member)
      -- the container is emptied by this statement and stays so during the later ones
      rw [settle_eq_foldl]
      change (List.foldl _ a exports).owned site.1 = []
      rw [split, List.foldl_append, List.foldl_cons]
      refine rules.statements_obey live later _ other ?_
      rw [follow, Pass.owned_give_of_ne other]
      exact drain_empties resources live rfl listed inside _

theorem drain_empties : ∀ (rs : List Resource) {p : Place} {outer : Resource} {i : Nat}
    {identifier : String} {site : Place × Resource}, s.Live p outer →
    outer.resources.drop i = rs → identifier ∈ outer.assignedNames →
    site ∈ Resource.sitesAmong p i [identifier] rs → ∀ a,
    (drain l s visit p i rs identifier a).2.owned site.1 = []
  | [], _, _, _, _, _, _, _, _, member, _ => by simp [Resource.sitesAmong] at member
  | r :: rest, p, outer, i, identifier, site, live, held, listed, member, a => by
    obtain ⟨position, others⟩ := drop_eq_cons held
    have nested := Resource.nested_of_mem_sitesAmong member
    have other := Resource.ne_of_mem_sitesAmong member
    have rules : Rules l s visit _ := empty_rules nested (visits site.1 nested)
    rw [Resource.sitesAmong] at member
    rw [drain]
    by_cases called : r.name? = some identifier
    · rw [if_pos called]
      rcases List.mem_append.mp member with here | later
      · rw [if_pos (Resource.any_name?_iff.mpr
          ⟨identifier, called, List.mem_singleton_self identifier⟩)] at here
        refine rules.drain_obeys rest live others listed _ other ?_
        by_cases same : site.1 = p.child i
        · rw [same, Pass.owned_put_self]
        · rw [Pass.owned_put_of_ne same]
          exact settle_empties r (live.inside ⟨position, identifier, called, listed⟩) here same _
      · exact drain_empties rest live others listed later _
    · rw [if_neg called]
      rcases List.mem_append.mp member with here | later
      · split at here
        · rename_i wanted
          obtain ⟨name, named, only⟩ := Resource.any_name?_iff.mp wanted
          rw [List.mem_singleton.mp only] at named
          exact absurd named called
        · simp at here
      · exact drain_empties rest live others listed later a

end

end Emptied

def Tidy (q : Place) (a : Pass) : Prop := q.key ∈ a.done → a.owned q = []

theorem tidy_rules {q : Place} (nested : q.down ≠ []) {visit : String → Pass → Pass}
    (visits : ∀ key a, s.contains key = true → Tidy q a → Tidy q (visit key a)) :
    Rules l s visit fun p a _ b => q ≠ p → Tidy q a → Tidy q b where
  rest _ _ _ tidy := tidy
  next first second other tidy := second other (first other tidy)
  carried _ _ _ found a other tidy settled := by
    rw [Pass.owned_carry_of_ne (Place.ne_top_of_nested nested _) other]
    exact visits _ a (target?_eq_some_iff.mp found).2.2 tidy settled
  renamed _ _ a other tidy settled := by
    rw [Pass.owned_put_of_ne other]
    exact tidy settled
  drained {p _ _ i a b} _ _ inside other tidy settled := by
    by_cases same : q = p.child i
    · rw [same, Pass.owned_put_self]
    · rw [Pass.owned_put_of_ne same]
      refine inside same (fun earlier => ?_) settled
      rw [Pass.owned_put_of_ne same]
      exact tidy earlier
  received _ taken other tidy settled := by
    rw [Pass.owned_give_of_ne other]
    exact taken other tidy settled

/-- Its own resource empties a live container, and every other visit leaves it alone. -/
theorem visitWithin_tidy {q : Place} {r : Resource} (live : s.Live q r) (nested : q.down ≠ [])
    (bound : Nat) : ∀ key a, s.contains key = true → Tidy q a →
      Tidy q (visitWithin l s bound key a) := by
  induction bound with
  | zero =>
    intro key a _ tidy
    exact tidy
  | succ bound ih =>
    intro key a held tidy
    rw [visitWithin]
    split
    · exact tidy
    · obtain ⟨top, found⟩ := Option.isSome_iff_exists.mp held
      change s.get? key = some top at found
      rw [found]
      have other := Place.ne_top_of_nested nested key
      by_cases own : q.key = key
      · subst own
        intro _
        refine settle_empties ?_ top (.stored found) (live.mem_sites found) other _
        exact fun _ nested => visitWithin_keeps_empty nested bound
      · refine (tidy_rules nested ih).settle_obeys top (.stored found) _ other ?_
        intro settled
        rcases List.mem_cons.mp settled with same | earlier
        · exact absurd same own
        · exact tidy earlier

theorem untouched_rules {q : Place} (nested : q.down ≠ []) (aside : ∀ p r, s.Live p r → q ≠ p)
    {visit : String → Pass → Pass}
    (visits : ∀ key a, s.contains key = true → (visit key a).owned q = a.owned q) :
    Rules l s visit fun _ a _ b => b.owned q = a.owned q where
  rest _ _ := rfl
  next first second := second.trans first
  carried live _ _ found a := by
    rw [Pass.owned_carry_of_ne (Place.ne_top_of_nested nested _) (aside _ _ live)]
    exact visits _ a (target?_eq_some_iff.mp found).2.2
  renamed live _ a := Pass.owned_put_of_ne (aside _ _ live) a _
  drained live assigned settled := by
    have other := aside _ _ (live.inside assigned)
    rw [Pass.owned_put_of_ne other, settled, Pass.owned_put_of_ne other]
  received live taken := by rw [Pass.owned_give_of_ne (aside _ _ live), taken]

theorem visitWithin_untouched {q : Place} (nested : q.down ≠ [])
    (aside : ∀ p r, s.Live p r → q ≠ p) (bound : Nat) (key : String)
    (a : Pass) (held : s.contains key = true) :
    (visitWithin l s bound key a).owned q = a.owned q :=
  visitWithin_obeys (V := fun _ a b => b.owned q = a.owned q)
    (fun _ => untouched_rules nested aside) (fun _ _ => rfl)
    (fun _ _ _ _ _ _ settled => settled) bound key a held

end Resolution

namespace Store

open Resolution

theorem start_clean (s : Store) : TopsClean s.start := by
  intro key d member
  cases found : s.get? key with
  | none =>
    have absent : s.start.owned (.top key) = [] := by simp [start, owned, get?_retained, found]
    simp [absent] at member
  | some r =>
    have stored : s.retained.at? (.top key) = some r.retained := by
      rw [at?_top, get?_retained, found]
      rfl
    rw [start_owned stored] at member
    exact Clean.retain _ _ d member

theorem settled_empty (l : Layout) {s : Store} {p : Place} {r : Resource} (live : s.Live p r)
    (nested : p.down ≠ []) : (s.settled l).owned p = [] := by
  have live := (live_retained_iff_of_nested nested).mpr live
  have tidy : Tidy p (s.settled l) := by
    refine settleAll_keeps (fun early => absurd early List.not_mem_nil) ?_
    intro key a held tidy
    exact visitWithin_tidy live nested _ key a held tidy
  exact tidy (mem_done_settleAll live.contains_key _)

theorem settled_untouched (l : Layout) (s : Store) {p : Place} (nested : p.down ≠ [])
    (aside : ∀ r, ¬ s.Live p r) : (s.settled l).owned p = s.start.owned p := by
  have aside : ∀ q r, s.retained.Live q r → p ≠ q := by
    rintro q r live rfl
    exact aside r ((live_retained_iff_of_nested nested).mp live)
  refine settleAll_keeps (P := fun a => a.owned p = s.start.owned p) rfl ?_
  intro key a held same
  exact (visitWithin_untouched nested aside _ key a held).trans same

theorem holdings_start (s : Store) :
    holdings s.retained.sites s.start =
      s.sites.flatMap fun site => site.2.retained.declarations := by
  have owned : holdings s.retained.sites s.start =
      s.retained.sites.flatMap fun site => site.2.retained.declarations := by
    apply List.flatMap_congr
    intro site member
    rw [start_owned (mem_sites_iff.mp member).at?_eq]
    rfl
  rw [owned]
  simp only [sites, retained, OrderedMap.mapValues, List.flatMap_map, List.flatMap_assoc]
  apply List.flatMap_congr
  intro e _
  rw [Resource.sites_eq, Resource.sites_eq, List.flatMap_cons, List.flatMap_cons]
  have again : e.2.retained.retained.declarations = e.2.retained.declarations :=
    (Clean.retain _ _).retain_eq _
  rw [again]
  rfl

theorem holdings_settled (l : Layout) (s : Store) :
    holdings s.retained.sites (s.settled l) =
      (s.resolve l).resources.values.flatMap Resource.declarations := by
  have tops : TopsClean (s.settled l) :=
    (settleAll_balanced l s.retained s.start s.start_clean).tops s.start_clean
  have sites : ∀ e ∈ s.resources.entries,
      holdings (e.2.retained.sites (.top e.1)) (s.settled l) =
        (s.settled l).owned (.top e.1) := by
    intro e stored
    rw [Resource.sites_eq, holdings, List.flatMap_cons, (tops e.1).retain_eq]
    have inside : (Resource.sitesAmong (.top e.1) 0 e.2.assignedNames e.2.resources).flatMap
        (fun site => retain site.2.localNames ((s.settled l).owned site.1)) = [] := by
      apply List.flatMap_eq_nil_iff.mpr
      intro site member
      have found : s.get? e.1 = some e.2 := (s.resources.get?_eq_some_iff e.1 e.2).mpr stored
      have live : s.Live site.1 site.2 :=
        Resource.live_of_mem_sitesAmong e.2.resources (.stored found) rfl member
      rw [settled_empty l live (Resource.nested_of_mem_sitesAmong member)]
      rfl
    exact (congrArg _ inside).trans (List.append_nil _)
  simp only [holdings, Store.sites, retained, resolve_eq, withOwned, OrderedMap.mapValues,
    OrderedMap.values, List.flatMap_map, List.flatMap_assoc, List.map_map] at sites ⊢
  apply List.flatMap_congr
  intro e stored
  rw [sites e stored, Function.comp, Resource.declarations_withOwned]

end Store

/-- Nothing is lost or duplicated. The payloads of all declarations that stored resources own
after resolution are those of what the stored resources and the assigned containers make
visible, each place counted once; the assigned containers are left empty, and every other nested
resource keeps its declarations. -/
theorem resolve_conserves_declarations (l : Layout) (s : Store) :
    ((s.sites.map Prod.fst).Nodup ∧ ∀ p r, (p, r) ∈ s.sites ↔ s.Live p r) ∧
    (((s.resolve l).resources.values.flatMap Resource.declarations).map
        Declaration.payload).Perm
      ((s.sites.flatMap fun site => site.2.retained.declarations).map Declaration.payload) ∧
    (∀ p r, s.Live p r → p.down ≠ [] →
      ((s.resolve l).at? p).map Resource.declarations = some []) ∧
    (∀ p, p.down ≠ [] → (∀ r, ¬ s.Live p r) →
      ((s.resolve l).at? p).map Resource.declarations =
        (s.at? p).map Resource.declarations) := by
  refine ⟨⟨s.sites_nodup, fun _ _ => Store.mem_sites_iff⟩, ?_, ?_, ?_⟩
  · have balanced := Resolution.settleAll_balanced l s.retained s.start s.start_clean
    rw [← Store.holdings_settled, ← Store.holdings_start]
    apply List.perm_iff_count.mpr
    intro x
    exact balanced.total x
  · intro p r live nested
    rw [Store.resolve_eq, Store.declarations_at?_withOwned, live.at?_eq]
    exact congrArg some (Store.settled_empty l live nested)
  · intro p nested aside
    rw [Store.resolve_eq, Store.declarations_at?_withOwned, ← s.at?_retained_of_nested nested]
    cases found : s.retained.at? p with
    | none => rfl
    | some r =>
      have kept := Store.settled_untouched l s nested aside
      rw [Store.start_owned found] at kept
      exact congrArg some kept

section Sample

def exportedClass (name : String) : Declaration := ⟨name, .classDef, true, none⟩

def space (name : String) (declarations : List Declaration) : Resource :=
  ⟨.declaredNamespace name, declarations, [], [], [], [], none⟩

def assigning : Store :=
  Store.empty.set "/a" ⟨.file "/ws/a.ts", [exportedClass "X"],
    [.all "./a" none, .assigned "N" none], [], [],
    [space "N" [exportedClass "Y"], space "M" [exportedClass "Z"]], none⟩

theorem assigning_live : assigning.Live ⟨"/a", [0]⟩ (space "N" [exportedClass "Y"]) :=
  .inside (.stored rfl) ⟨rfl, "N", rfl, by decide⟩

theorem assigning_aside (r : Resource) : ¬ assigning.Live ⟨"/a", [1]⟩ r := by
  intro live
  have listed : ⟨"/a", [1]⟩ ∈ assigning.sites.map Prod.fst :=
    List.mem_map.mpr ⟨_, Store.mem_sites_iff.mpr live, rfl⟩
  exact absurd listed (by decide)

theorem assigning_conserves :
    (((assigning.resolve { root := "/ws" }).resources.values.flatMap
        Resource.declarations).map Declaration.payload).Perm
      [(exportedClass "X").payload, (exportedClass "Y").payload] ∧
    ((assigning.resolve { root := "/ws" }).at? ⟨"/a", [0]⟩).map Resource.declarations = some [] ∧
    ((assigning.resolve { root := "/ws" }).at? ⟨"/a", [1]⟩).map Resource.declarations =
      some [exportedClass "Z"] := by
  obtain ⟨-, total, emptied, kept⟩ := resolve_conserves_declarations { root := "/ws" } assigning
  exact ⟨total, emptied _ _ assigning_live (by decide), kept _ (by decide) assigning_aside⟩

end Sample

end ExportIndex
