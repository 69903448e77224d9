import ExportIndex.Proofs.Settling

/-!
The live places of a store as a list, and a store seen place by place. The list
has every live place once, and filling in who owns what changes at every place
the declarations there and nothing else.
-/
namespace ExportIndex

namespace Resource

mutual

/-- The live places from `place` down, with the resources there. -/
def sites (place : Place) : Resource → List (Place × Resource)
  | ⟨kind, declarations, exports, imports, usages, resources, span⟩ =>
    (place, ⟨kind, declarations, exports, imports, usages, resources, span⟩) ::
      sitesAmong place 0 (exports.filterMap Export.assigned?) resources

def sitesAmong (place : Place) (i : Nat) (names : List String) :
    List Resource → List (Place × Resource)
  | [] => []
  | r :: rest =>
    (if r.name?.any names.contains then sites (place.child i) r else []) ++
      sitesAmong place (i + 1) names rest

end

theorem sites_eq (place : Place) (r : Resource) :
    r.sites place = (place, r) :: sitesAmong place 0 r.assignedNames r.resources := by
  cases r
  rw [sites]
  rfl

theorem any_name?_iff {r : Resource} {names : List String} :
    r.name?.any names.contains = true ↔ ∃ name, r.name? = some name ∧ name ∈ names := by
  cases r.name? with
  | none => simp
  | some name => simp

theorem mem_sitesAmong_of_assigns {place : Place} {names : List String} {name : String}
    {inner : Resource} (called : inner.name? = some name) (listed : name ∈ names)
    {rs : List Resource} {i j : Nat} (position : rs[j]? = some inner) :
    (place.child (i + j), inner) ∈ sitesAmong place i names rs := by
  induction rs generalizing i j with
  | nil => simp at position
  | cons r rest ih =>
    rw [sitesAmong]
    cases j with
    | zero =>
      obtain rfl : r = inner := by simpa using position
      rw [if_pos (any_name?_iff.mpr ⟨name, called, listed⟩), sites_eq]
      exact List.mem_append_left _ List.mem_cons_self
    | succ j =>
      have later := ih (i := i + 1) (by simpa using position)
      rw [Nat.add_right_comm, Nat.add_assoc] at later
      exact List.mem_append_right _ later

theorem exists_mem_sitesAmong_singleton {site : Place × Resource} {place : Place}
    {names : List String} {rs : List Resource} {i : Nat}
    (member : site ∈ sitesAmong place i names rs) :
    ∃ name ∈ names, site ∈ sitesAmong place i [name] rs := by
  induction rs generalizing i with
  | nil => simp [sitesAmong] at member
  | cons r rest ih =>
    rw [sitesAmong] at member
    rcases List.mem_append.mp member with here | later
    · split at here
      · rename_i wanted
        obtain ⟨name, called, listed⟩ := any_name?_iff.mp wanted
        refine ⟨name, listed, ?_⟩
        rw [sitesAmong, if_pos (any_name?_iff.mpr ⟨name, called, List.mem_singleton_self name⟩)]
        exact List.mem_append_left _ here
      · simp at here
    · obtain ⟨name, listed, found⟩ := ih later
      refine ⟨name, listed, ?_⟩
      rw [sitesAmong]
      exact List.mem_append_right _ found

theorem child_mem_sites {place : Place} {r inner : Resource} {i : Nat}
    (assigned : r.Assigns i inner) : (place.child i, inner) ∈ r.sites place := by
  obtain ⟨position, name, called, listed⟩ := assigned
  have member : (place.child (0 + i), inner) ∈
      sitesAmong place 0 r.assignedNames r.resources :=
    mem_sitesAmong_of_assigns called listed position
  rw [Nat.zero_add] at member
  rw [sites_eq]
  exact List.mem_cons_of_mem _ member

mutual

theorem sites_closed {p : Place} {r inner : Resource} {i : Nat} (assigned : r.Assigns i inner) :
    ∀ (outer : Resource) {place : Place}, (p, r) ∈ outer.sites place →
      (p.child i, inner) ∈ outer.sites place
  | ⟨kind, declarations, exports, imports, usages, resources, span⟩, place, member => by
    rw [sites] at member
    rcases List.mem_cons.mp member with self | below
    · obtain ⟨rfl, rfl⟩ := Prod.mk.inj self
      exact child_mem_sites assigned
    · rw [sites]
      exact List.mem_cons_of_mem _ (sitesAmong_closed assigned resources below)

theorem sitesAmong_closed {p : Place} {r inner : Resource} {i : Nat}
    (assigned : r.Assigns i inner) : ∀ (rs : List Resource) {place : Place} {j : Nat}
    {names : List String}, (p, r) ∈ sitesAmong place j names rs →
      (p.child i, inner) ∈ sitesAmong place j names rs
  | [], _, _, _, member => by simp [sitesAmong] at member
  | first :: rest, place, j, names, member => by
    rw [sitesAmong] at member ⊢
    rcases List.mem_append.mp member with here | later
    · refine List.mem_append_left _ ?_
      by_cases wanted : first.name?.any names.contains = true
      · rw [if_pos wanted] at here ⊢
        exact sites_closed assigned first here
      · rw [if_neg wanted] at here
        simp at here
    · exact List.mem_append_right _ (sitesAmong_closed assigned rest later)

end

mutual

theorem live_of_mem_sites {s : Store} {site : Place × Resource} : ∀ (r : Resource) {p : Place},
    s.Live p r → site ∈ r.sites p → s.Live site.1 site.2
  | ⟨kind, declarations, exports, imports, usages, resources, span⟩, p, live, member => by
    rw [sites] at member
    rcases List.mem_cons.mp member with rfl | below
    · exact live
    · exact live_of_mem_sitesAmong resources live rfl below

theorem live_of_mem_sitesAmong {s : Store} {site : Place × Resource} :
    ∀ (rs : List Resource) {p : Place} {outer : Resource} {i : Nat}, s.Live p outer →
      outer.resources.drop i = rs → site ∈ sitesAmong p i outer.assignedNames rs →
      s.Live site.1 site.2
  | [], _, _, _, _, _, member => by simp [sitesAmong] at member
  | r :: rest, p, outer, i, live, held, member => by
    obtain ⟨position, others⟩ := Resolution.drop_eq_cons held
    rw [sitesAmong] at member
    rcases List.mem_append.mp member with here | later
    · split at here
      · rename_i wanted
        obtain ⟨name, called, listed⟩ := any_name?_iff.mp wanted
        exact live_of_mem_sites r (live.inside ⟨position, name, called, listed⟩) here
      · simp at here
    · exact live_of_mem_sitesAmong rest live others later

end

mutual

theorem sites_below {site : Place × Resource} : ∀ (r : Resource) {p : Place},
    site ∈ r.sites p → ∃ way, site.1 = ⟨p.key, p.down ++ way⟩
  | ⟨kind, declarations, exports, imports, usages, resources, span⟩, p, member => by
    rw [sites] at member
    rcases List.mem_cons.mp member with rfl | below
    · exact ⟨[], by simp⟩
    · obtain ⟨j, way, _, eq⟩ := sitesAmong_below resources below
      exact ⟨j :: way, eq⟩

theorem sitesAmong_below {site : Place × Resource} : ∀ (rs : List Resource) {p : Place}
    {i : Nat} {names : List String}, site ∈ sitesAmong p i names rs →
    ∃ j way, i ≤ j ∧ site.1 = ⟨p.key, p.down ++ j :: way⟩
  | [], _, _, _, member => by simp [sitesAmong] at member
  | r :: rest, p, i, names, member => by
    rw [sitesAmong] at member
    rcases List.mem_append.mp member with here | later
    · split at here
      · obtain ⟨way, eq⟩ := sites_below r here
        exact ⟨i, way, Nat.le_refl i, by simpa using eq⟩
      · simp at here
    · obtain ⟨j, way, bound, eq⟩ := sitesAmong_below rest later
      exact ⟨j, way, by omega, eq⟩

end

theorem nested_of_mem_sitesAmong {site : Place × Resource} {rs : List Resource} {p : Place}
    {i : Nat} {names : List String} (member : site ∈ sitesAmong p i names rs) :
    site.1.down ≠ [] := by
  obtain ⟨j, way, _, eq⟩ := sitesAmong_below rs member
  rw [eq]
  simp

theorem ne_of_mem_sitesAmong {site : Place × Resource} {rs : List Resource} {p : Place}
    {i : Nat} {names : List String} (member : site ∈ sitesAmong p i names rs) :
    site.1 ≠ p := by
  obtain ⟨j, way, _, eq⟩ := sitesAmong_below rs member
  intro same
  have lengths := congrArg (fun q => q.down.length) (same.symm.trans eq)
  simp at lengths

mutual

theorem sites_nodup : ∀ (r : Resource) (p : Place), ((r.sites p).map Prod.fst).Nodup
  | ⟨kind, declarations, exports, imports, usages, resources, span⟩, p => by
    rw [sites, List.map_cons, List.nodup_cons]
    refine ⟨?_, sitesAmong_nodup resources p 0 _⟩
    intro again
    obtain ⟨site, member, same⟩ := List.mem_map.mp again
    exact ne_of_mem_sitesAmong member same

theorem sitesAmong_nodup : ∀ (rs : List Resource) (p : Place) (i : Nat) (names : List String),
    ((sitesAmong p i names rs).map Prod.fst).Nodup
  | [], _, _, _ => by simp [sitesAmong]
  | r :: rest, p, i, names => by
    rw [sitesAmong]
    split
    · rw [List.map_append]
      refine List.nodup_append.mpr ⟨sites_nodup r _, sitesAmong_nodup rest p (i + 1) names, ?_⟩
      intro q here q' later same
      obtain ⟨site, member, rfl⟩ := List.mem_map.mp here
      obtain ⟨site', member', rfl⟩ := List.mem_map.mp later
      obtain ⟨way, eq⟩ := sites_below r member
      obtain ⟨j, way', bound, eq'⟩ := sitesAmong_below rest member'
      -- the next step of the two ways down differs
      rw [eq, eq'] at same
      simp at same
      omega
    · simpa using sitesAmong_nodup rest p (i + 1) names

end

end Resource

namespace Store

def sites (s : Store) : List (Place × Resource) :=
  s.resources.entries.flatMap fun e => e.2.sites (.top e.1)

theorem mem_sites_iff {s : Store} {p : Place} {r : Resource} :
    (p, r) ∈ s.sites ↔ s.Live p r := by
  constructor
  · intro member
    obtain ⟨e, stored, inside⟩ := List.mem_flatMap.mp member
    have found : s.get? e.1 = some e.2 := (s.resources.get?_eq_some_iff e.1 e.2).mpr stored
    exact Resource.live_of_mem_sites e.2 (.stored found) inside
  · intro live
    induction live with
    | @stored key r found =>
      have stored := (s.resources.get?_eq_some_iff key r).mp found
      refine List.mem_flatMap.mpr ⟨(key, r), stored, ?_⟩
      rw [Resource.sites_eq]
      exact List.mem_cons_self
    | inside outer assigned ih =>
      obtain ⟨e, stored, inside⟩ := List.mem_flatMap.mp ih
      exact List.mem_flatMap.mpr ⟨e, stored, Resource.sites_closed assigned e.2 inside⟩

theorem Live.contains_key {s : Store} {p : Place} {r : Resource} (live : s.Live p r) :
    s.contains p.key = true := by
  induction live with
  | stored found => exact Option.isSome_iff_exists.mpr ⟨_, found⟩
  | inside outer assigned ih => exact ih

theorem Live.mem_sites {s : Store} {p : Place} {r top : Resource} (live : s.Live p r)
    (found : s.get? p.key = some top) : (p, r) ∈ top.sites (.top p.key) := by
  obtain ⟨⟨key, other⟩, stored, inside⟩ := List.mem_flatMap.mp (mem_sites_iff.mpr live)
  obtain ⟨way, eq⟩ := Resource.sites_below other inside
  obtain rfl : p.key = key := congrArg Place.key eq
  have same := (s.resources.get?_eq_some_iff p.key other).mpr stored
  obtain rfl : other = top := Option.some.inj (same.symm.trans found)
  exact inside

theorem sites_nodup (s : Store) : (s.sites.map Prod.fst).Nodup := by
  rw [sites, List.map_flatMap, List.nodup_flatMap]
  refine ⟨fun e _ => Resource.sites_nodup e.2 _, ?_⟩
  have keys := List.pairwise_map.mp s.resources.nodup
  refine keys.imp fun {e e'} differ => ?_
  intro q here there
  obtain ⟨site, member, rfl⟩ := List.mem_map.mp here
  obtain ⟨site', member', same⟩ := List.mem_map.mp there
  obtain ⟨way, eq⟩ := Resource.sites_below e.2 member
  obtain ⟨way', eq'⟩ := Resource.sites_below e'.2 member'
  rw [eq, eq'] at same
  exact differ (congrArg Place.key same).symm

end Store

def Place.Above (q p : Place) : Prop := q.key = p.key ∧ q.down <+: p.down

namespace Place

theorem above_refl (p : Place) : p.Above p := ⟨rfl, List.prefix_rfl⟩

theorem above_top {q : Place} {key : String} (above : q.Above (top key)) : q = top key := by
  obtain ⟨own, way⟩ := above
  cases q
  simp_all [top]

theorem above_child {q p : Place} {i : Nat} :
    q.Above (p.child i) ↔ q.Above p ∨ q = p.child i := by
  unfold Above
  rw [key_child, down_child, List.prefix_concat_iff]
  constructor
  · rintro ⟨own, whole | way⟩
    · right
      cases q
      simp_all [child]
    · exact Or.inl ⟨own, way⟩
  · rintro (⟨own, way⟩ | rfl)
    · exact ⟨own, Or.inr way⟩
    · exact ⟨rfl, Or.inl rfl⟩

theorem above_of_child {p q : Place} {i : Nat} (above : (p.child i).Above q) : p.Above q :=
  ⟨above.1, (List.prefix_append p.down [i]).trans above.2⟩

theorem nested_of_above {p q : Place} (nested : p.down ≠ []) (above : p.Above q) : q.down ≠ [] := by
  intro top
  have shorter := above.2
  rw [top] at shorter
  exact nested (List.prefix_nil.mp shorter)

theorem nested_child (p : Place) (i : Nat) : (p.child i).down ≠ [] := by
  simp

theorem eq_of_child_above {p q : Place} {i j : Nat} (above : (p.child i).Above q)
    (above' : (p.child j).Above q) : i = j := by
  have same := List.prefix_of_prefix_length_le above.2 above'.2 (by simp)
  simpa using same.eq_of_length (by simp)

theorem not_child_above (p : Place) (i : Nat) : ¬ (p.child i).Above p := by
  intro above
  have longer := above.2.length_le
  rw [down_child, List.length_append, List.length_singleton] at longer
  omega

end Place

namespace Resource

theorem descend_snoc (r : Resource) (way : List Nat) (i : Nat) :
    r.descend (way ++ [i]) = (r.descend way).bind fun outer => outer.resources[i]? := by
  induction way generalizing r with
  | nil => cases h : r.resources[i]? <;> simp [descend, h]
  | cons j way ih =>
    rw [List.cons_append, descend, descend, Option.bind_assoc]
    exact congrArg _ (funext fun inner => ih inner)

theorem getElem?_withOwnedAll (owned : Place → List Declaration) (place : Place)
    (rs : List Resource) (i j : Nat) :
    (withOwnedAll owned place i rs)[j]? =
      (rs[j]?).map fun r => r.withOwned owned (place.child (i + j)) := by
  induction rs generalizing i j with
  | nil => simp [withOwnedAll]
  | cons r rest ih =>
    rw [withOwnedAll]
    cases j with
    | zero => rfl
    | succ j =>
      rw [List.getElem?_cons_succ, List.getElem?_cons_succ, ih (i + 1) j, Nat.add_right_comm,
        Nat.add_assoc]

theorem declarations_withOwned (owned : Place → List Declaration) (place : Place)
    (r : Resource) : (r.withOwned owned place).declarations = owned place := by
  cases r
  rw [withOwned]

theorem resources_withOwned (owned : Place → List Declaration) (place : Place) (r : Resource) :
    (r.withOwned owned place).resources = withOwnedAll owned place 0 r.resources := by
  cases r
  rw [withOwned]

theorem descend_withOwned (owned : Place → List Declaration) (place : Place) (r : Resource)
    (way : List Nat) :
    (r.withOwned owned place).descend way =
      (r.descend way).map fun inner => inner.withOwned owned ⟨place.key, place.down ++ way⟩ := by
  induction way generalizing r place with
  | nil => simp [descend]
  | cons i way ih =>
    rw [descend, descend, resources_withOwned, getElem?_withOwnedAll]
    cases r.resources[i]? with
    | none => rfl
    | some inner =>
      have below := ih (place.child i) inner
      simpa [Place.child] using below

mutual

theorem withOwned_congr {owned owned' : Place → List Declaration} : ∀ (r : Resource)
    {place : Place}, (∀ p, place.Above p → owned p = owned' p) →
      r.withOwned owned place = r.withOwned owned' place
  | ⟨kind, declarations, exports, imports, usages, resources, span⟩, place, same => by
    have inside : withOwnedAll owned place 0 resources = withOwnedAll owned' place 0 resources :=
      withOwnedAll_congr resources fun j p _ above => same p (Place.above_of_child above)
    rw [withOwned, withOwned, same place (Place.above_refl place), inside]

theorem withOwnedAll_congr {owned owned' : Place → List Declaration} : ∀ (rs : List Resource)
    {place : Place} {i : Nat}, (∀ j p, i ≤ j → (place.child j).Above p → owned p = owned' p) →
      withOwnedAll owned place i rs = withOwnedAll owned' place i rs
  | [], _, _, _ => by rw [withOwnedAll, withOwnedAll]
  | r :: rest, place, i, same => by
    have first : r.withOwned owned (place.child i) = r.withOwned owned' (place.child i) :=
      withOwned_congr r fun p above => same i p (Nat.le_refl i) above
    have others : withOwnedAll owned place (i + 1) rest = withOwnedAll owned' place (i + 1) rest :=
      withOwnedAll_congr rest fun j p later above => same j p (by omega) above
    rw [withOwnedAll, withOwnedAll, first, others]

end

end Resource

namespace Store

def at? (s : Store) (p : Place) : Option Resource := (s.get? p.key).bind (·.descend p.down)

theorem at?_top (s : Store) (key : String) : s.at? (.top key) = s.get? key := by
  cases found : s.get? key <;> simp [at?, found, Resource.descend]

theorem owned_of_at? {s : Store} {p : Place} {r : Resource} (found : s.at? p = some r) :
    s.owned p = r.declarations := by
  change ((s.at? p).map Resource.declarations).getD [] = r.declarations
  rw [found]
  rfl

theorem Live.at?_eq {s : Store} {p : Place} {r : Resource} (live : s.Live p r) :
    s.at? p = some r := by
  induction live with
  | stored found => rw [at?_top, found]
  | @inside p r inner i outer assigned ih =>
    have step : s.at? (p.child i) = (s.at? p).bind fun outer => outer.resources[i]? := by
      simp only [at?, Place.key_child, Place.down_child, Option.bind_assoc]
      exact congrArg _ (funext fun top => Resource.descend_snoc top p.down i)
    rw [step, ih]
    exact assigned.1

theorem get?_withOwned (s : Store) (owned : Place → List Declaration) (key : String) :
    (s.withOwned owned).get? key = (s.get? key).map (·.withOwned owned (.top key)) :=
  s.resources.get?_mapValues _ key

theorem at?_withOwned (s : Store) (owned : Place → List Declaration) (p : Place) :
    (s.withOwned owned).at? p = (s.at? p).map (·.withOwned owned p) := by
  rw [at?, at?, get?_withOwned]
  cases s.get? p.key with
  | none => rfl
  | some r => exact Resource.descend_withOwned owned (.top p.key) r p.down

theorem declarations_at?_withOwned (s : Store) (owned : Place → List Declaration) (p : Place) :
    ((s.withOwned owned).at? p).map Resource.declarations = (s.at? p).map fun _ => owned p := by
  rw [at?_withOwned, Option.map_map]
  exact congrArg (Option.map · _) (funext fun r => Resource.declarations_withOwned owned p r)

/-! Reducing the stored resources to what is visible changes no place and no statement. -/

theorem get?_retained (s : Store) (key : String) :
    s.retained.get? key = (s.get? key).map Resource.retained :=
  s.resources.get?_mapValues _ key

theorem contains_retained (s : Store) (key : String) :
    s.retained.contains key = s.contains key := by
  change (s.retained.get? key).isSome = (s.get? key).isSome
  rw [get?_retained, Option.isSome_map]

theorem keys_retained (s : Store) : s.retained.keys = s.keys :=
  s.resources.keys_mapValues _

theorem at?_retained_of_nested (s : Store) {p : Place} (nested : p.down ≠ []) :
    s.retained.at? p = s.at? p := by
  rw [at?, at?, get?_retained]
  cases s.get? p.key with
  | none => rfl
  | some r =>
    cases way : p.down with
    | nil => exact absurd way nested
    | cons i rest => rfl

theorem Live.retained {s : Store} {p : Place} {r : Resource} (live : s.Live p r) :
    s.retained.Live p (if p.down = [] then r.retained else r) := by
  induction live with
  | @stored key r found =>
    refine .stored ?_
    rw [get?_retained, found]
    rfl
  | @inside p r inner i outer assigned ih =>
    have step : s.retained.Live (p.child i) inner := by
      refine ih.inside ?_
      split
      · exact assigned
      · exact assigned
    simpa using step

theorem Live.of_retained {s : Store} {p : Place} {r : Resource} (live : s.retained.Live p r) :
    ∃ original, s.Live p original ∧ r = if p.down = [] then original.retained else original := by
  induction live with
  | @stored key r found =>
    rw [get?_retained] at found
    obtain ⟨original, stored, rfl⟩ := Option.map_eq_some_iff.mp found
    exact ⟨original, .stored stored, rfl⟩
  | @inside p r inner i outer assigned ih =>
    obtain ⟨original, live, rfl⟩ := ih
    refine ⟨inner, live.inside ?_, by simp⟩
    split at assigned
    · exact assigned
    · exact assigned

theorem live_retained_iff_of_nested {s : Store} {p : Place} {r : Resource}
    (nested : p.down ≠ []) : s.retained.Live p r ↔ s.Live p r := by
  constructor
  · intro live
    obtain ⟨original, live, rfl⟩ := live.of_retained
    rwa [if_neg nested]
  · intro live
    simpa [nested] using live.retained

/-- Where the pass over a store begins: every resource has what it makes visible. -/
def start (s : Store) : Pass := ⟨[], s.retained.owned⟩

def settled (l : Layout) (s : Store) : Pass := Resolution.settleAll l s.retained s.start

theorem resolve_eq (l : Layout) (s : Store) : s.resolve l = s.withOwned (s.settled l).owned := rfl

theorem keys_resolve (l : Layout) (s : Store) : (s.resolve l).keys = s.keys :=
  s.resources.keys_mapValues _

theorem get?_resolve (l : Layout) {s : Store} {key : String} {r : Resource}
    (stored : s.get? key = some r) :
    (s.resolve l).get? key = some (r.withOwned (s.settled l).owned (.top key)) := by
  rw [resolve_eq, get?_withOwned, stored]
  rfl

theorem start_owned {s : Store} {p : Place} {r : Resource} (found : s.retained.at? p = some r) :
    s.start.owned p = r.declarations := owned_of_at? found

end Store

end ExportIndex
