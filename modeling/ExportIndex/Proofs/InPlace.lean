import ExportIndex.Proofs.Outline

/-!
Resolution on the resources themselves. A pass as it is defined only keeps track
of who owns what and fills that in at the end. Here statements are carried out on
the stored resources instead: what a statement moves is taken out of one list of
declarations and added to another, and the containers of a resource are taken out
of it while some of them are settled, and put back afterwards. In between, a visit
can come back to a resource whose containers are out. `view` says how a pass
looks on the resources at such a moment.
-/
namespace ExportIndex

namespace Resource

mutual

def height : Resource → Nat
  | ⟨_, _, _, _, _, resources, _⟩ => heightAll resources

def heightAll : List Resource → Nat
  | [] => 0
  | r :: rest => max (height r + 1) (heightAll rest)

end

theorem height_eq (r : Resource) : r.height = heightAll r.resources := by
  cases r
  rw [height]

theorem height_lt_of_mem {rs : List Resource} {r : Resource} (held : r ∈ rs) :
    r.height < heightAll rs := by
  induction rs with
  | nil => cases held
  | cons first rest ih =>
    rw [heightAll]
    rcases List.mem_cons.mp held with rfl | later
    · omega
    · have deeper := ih later
      omega

end Resource

/-- A store whose resources are being changed, and the keys settled or being settled. -/
structure Desk where
  done : List String
  store : Store

namespace Desk

def mark (desk : Desk) (key : String) : Desk := { desk with done := key :: desk.done }

def modify (desk : Desk) (key : String) (f : Resource → Resource) : Desk :=
  { desk with store := desk.store.modify key f }

end Desk

/-- What statements are carried out for: a stored resource, or a container that was taken out of
the resource that holds it. -/
inductive Sink where
  | stored (key : String)
  | detached (r : Resource)

def Sink.isKey (key : String) : Sink → Bool
  | .stored own => own = key
  | .detached _ => false

structure Bench where
  sink : Sink
  desk : Desk

namespace Bench

def resource? (b : Bench) : Option Resource :=
  match b.sink with
  | .stored key => b.desk.store.get? key
  | .detached r => some r

def edit (b : Bench) (f : Resource → Resource) : Bench :=
  match b.sink with
  | .stored key => { b with desk := b.desk.modify key f }
  | .detached r => { b with sink := .detached (f r) }

def target? (l : Layout) (b : Bench) (file : Option String) (source : String) : Option String :=
  let key := l.targetKey file source
  if b.sink.isKey key ∨ b.desk.store.contains key = false then none else some key

def carry (l : Layout) (visit : String → Desk → Desk) (file : Option String) (source : String)
    (e : Export) (b : Bench) : Bench :=
  match b.target? l file source with
  | none => b
  | some key =>
    let desk := visit key b.desk
    let ds := ((desk.store.get? key).map Resource.declarations).getD []
    let left := desk.modify key fun r => { r with declarations := e.left r.declarations }
    ({ b with desk := left } : Bench).edit fun r =>
      { r with declarations := r.declarations ++ e.taken ds }

end Bench

namespace InPlace

def drainAll (settle : Resource → Desk → Resource × Desk) (identifier : String) :
    List Resource → Desk → List Resource × List Declaration × Desk
  | [], desk => ([], [], desk)
  | r :: rest, desk =>
    if r.name? = some identifier then
      let (r, desk) := settle r desk
      let (ds, r) := r.takeVisible
      let (rest, es, desk) := drainAll settle identifier rest desk
      (r :: rest, ds ++ es, desk)
    else
      let (rest, es, desk) := drainAll settle identifier rest desk
      (r :: rest, es, desk)

/-- Takes the containers out, empties those called `identifier` and puts all of them back. -/
def drain (settle : Resource → Desk → Resource × Desk) (identifier : String) (b : Bench) : Bench :=
  match b.resource? with
  | none => b
  | some r =>
    let without := b.edit fun r => { r with resources := [] }
    let (held, ds, desk) := drainAll settle identifier r.resources without.desk
    ({ without with desk := desk } : Bench).edit fun r =>
      { r with declarations := r.declarations ++ ds, resources := held }

section Settling

variable (l : Layout)

def follow (visit : String → Desk → Desk) (settle : Resource → Desk → Resource × Desk)
    (file : Option String) (b : Bench) : Export → Bench
  | .all source span => b.carry l visit file source (.all source span)
  | .named (some source) specifiers span =>
    b.carry l visit file source (.named (some source) specifiers span)
  | .named none specifiers _ =>
    b.edit fun r => { r with declarations := Resolution.rename specifiers r.declarations }
  | .assigned identifier _ => drain settle identifier b

/-- Settles a container that was taken out. The bound is on how deep containers may be nested in
it. -/
def settleDetached (visit : String → Desk → Desk) : Nat → Resource → Desk → Resource × Desk
  | 0, r, desk => (r, desk)
  | depth + 1, r, desk =>
    let b := r.exports.foldl (follow l visit (settleDetached visit depth) r.path?)
      ⟨.detached r.retained, desk⟩
    (b.resource?.getD r, b.desk)

def visitWithin (depth : Nat) : Nat → String → Desk → Desk
  | 0, _, desk => desk
  | bound + 1, key, desk =>
    if key ∈ desk.done then desk
    else
      match desk.store.get? key with
      | none => desk.mark key
      | some r =>
        let settle := settleDetached l (visitWithin depth bound) depth
        (r.exports.foldl (follow l (visitWithin depth bound) settle r.path?)
          ⟨.stored key, desk.mark key⟩).desk

def settleAll (s : Store) : Desk :=
  let depth := Resource.heightAll s.resources.values
  (Resolution.order s).foldl (fun desk key => visitWithin l depth s.size key desk) ⟨[], s⟩

end Settling

end InPlace

/-- Resolves a store by carrying out the statements on the resources themselves. -/
def Store.resolveInPlace (l : Layout) (s : Store) : Store := (InPlace.settleAll l s.retained).store

namespace Resolution

variable {l : Layout} {s : Store}

/-- That the containers of keys that are done stay as they are, but for some of them. -/
structure Spares (except : Place → Prop) (a b : Pass) : Prop where
  done : a.done ⊆ b.done
  owned (q : Place) (nested : q.down ≠ []) (begun : q.key ∈ a.done) (other : ¬ except q) :
    b.owned q = a.owned q

namespace Spares

variable {except : Place → Prop}

theorem refl (except : Place → Prop) (a : Pass) : Spares except a a :=
  ⟨List.Subset.refl a.done, fun _ _ _ _ => rfl⟩

theorem trans {a b c : Pass} (first : Spares except a b) (second : Spares except b c) :
    Spares except a c where
  done := List.Subset.trans first.done second.done
  owned q nested begun other :=
    (second.owned q nested (first.done begun) other).trans (first.owned q nested begun other)

theorem mono {wider : Place → Prop} {a b : Pass} (spares : Spares except a b)
    (covers : ∀ q, except q → wider q) : Spares wider a b where
  done := spares.done
  owned q nested begun other := spares.owned q nested begun fun covered => other (covers q covered)

theorem put {p : Place} (covered : except p) (a : Pass) (ds : List Declaration) :
    Spares except a (a.put p ds) where
  done := List.Subset.refl a.done
  owned q _ _ other := by
    refine Pass.owned_put_of_ne ?_ a ds
    rintro rfl
    exact other covered

theorem put_top (except : Place → Prop) (key : String) (a : Pass) (ds : List Declaration) :
    Spares except a (a.put (.top key) ds) where
  done := List.Subset.refl a.done
  owned _ nested _ _ := Pass.owned_put_of_ne (Place.ne_top_of_nested nested key) a ds

end Spares

theorem spares_rules {visit : String → Pass → Pass}
    (visits : ∀ key a, s.contains key = true → Spares (fun _ => False) a (visit key a)) :
    Rules l s visit fun p a _ b => Spares p.Above a b where
  rest p a := .refl p.Above a
  next first second := first.trans second
  carried {p r e source key} _ _ _ found a := by
    have visited := visits key a (target?_eq_some_iff.mp found).2.2
    have given : Spares p.Above (visit key a) ((visit key a).carry e key p) :=
      (Spares.put_top _ key _ _).trans (.put (Place.above_refl p) _ _)
    exact (visited.mono fun _ => False.elim).trans given
  renamed {p _ _ _} _ _ a := .put (Place.above_refl p) a _
  drained {p _ _ i a b} _ _ settled := by
    have child : p.Above (p.child i) := Place.above_of_child (Place.above_refl (p.child i))
    have inside := settled.mono fun _ above => Place.above_of_child above
    exact (Spares.put child a _).trans (inside.trans (.put child b []))
  received {p _ _ b ds} _ taken := taken.trans (.put (Place.above_refl p) b _)

theorem visitWithin_spares (bound : Nat) (key : String) (a : Pass)
    (held : s.contains key = true) :
    Spares (fun _ => False) a (visitWithin l s bound key a) := by
  refine visitWithin_obeys (V := fun _ a b => Spares (fun _ => False) a b) (fun _ => spares_rules)
    (fun _ => .refl _) ?_ bound key a held
  intro key r a b _ fresh settled
  refine ⟨fun k earlier => settled.done (List.mem_cons_of_mem key earlier), ?_⟩
  intro q nested begun _
  apply settled.owned q nested (List.mem_cons_of_mem key begun)
  rintro ⟨own, -⟩
  rw [← own] at begun
  exact fresh begun

theorem drain_spares {visit : String → Pass → Pass}
    (visits : ∀ key a, s.contains key = true → Spares (fun _ => False) a (visit key a))
    {p : Place} {outer : Resource} (live : s.Live p outer) {identifier : String}
    (listed : identifier ∈ outer.assignedNames) {rs : List Resource} {i : Nat}
    (held : outer.resources.drop i = rs) (a : Pass) :
    Spares (fun q => ∃ j, i ≤ j ∧ (p.child j).Above q) a
      (drain l s visit p i rs identifier a).2 := by
  induction rs generalizing i a with
  | nil =>
    rw [drain]
    exact .refl _ a
  | cons r rest ih =>
    obtain ⟨position, others⟩ := drop_eq_cons held
    have later (b : Pass) : Spares (fun q => ∃ j, i ≤ j ∧ (p.child j).Above q) b
        (drain l s visit p (i + 1) rest identifier b).2 :=
      (ih others b).mono fun q ⟨j, after, above⟩ => ⟨j, by omega, above⟩
    rw [drain]
    by_cases called : r.name? = some identifier
    · simp only [if_pos called]
      have here : ∀ q, (p.child i).Above q → ∃ j, i ≤ j ∧ (p.child j).Above q :=
        fun q above => ⟨i, Nat.le_refl i, above⟩
      have child := here _ (Place.above_refl (p.child i))
      have settled := (spares_rules (l := l) visits).settle_obeys r
        (live.inside ⟨position, identifier, called, listed⟩)
        (a.put (p.child i) (retain r.localNames (a.owned (p.child i))))
      exact (Spares.put child a _).trans ((settled.mono here).trans
        ((Spares.put child _ []).trans (later _)))
    · rw [if_neg called]
      exact later a

end Resolution

namespace Resource

theorem withOwned_eq (owned : Place → List Declaration) (place : Place) (r : Resource) :
    r.withOwned owned place =
      { r with declarations := owned place
               resources := withOwnedAll owned place 0 r.resources } := by
  cases r
  rw [withOwned]

theorem exports_withOwned (owned : Place → List Declaration) (place : Place) (r : Resource) :
    (r.withOwned owned place).exports = r.exports := by
  rw [withOwned_eq]

theorem path?_withOwned (owned : Place → List Declaration) (place : Place) (r : Resource) :
    (r.withOwned owned place).path? = r.path? := by
  rw [withOwned_eq]
  rfl

theorem name?_withOwned (owned : Place → List Declaration) (place : Place) (r : Resource) :
    (r.withOwned owned place).name? = r.name? := by
  rw [withOwned_eq]
  rfl

theorem withOwned_put (a : Pass) (p : Place) (ds : List Declaration) (r : Resource) :
    r.withOwned (a.put p ds).owned p = { r.withOwned a.owned p with declarations := ds } := by
  have inside : withOwnedAll (a.put p ds).owned p 0 r.resources =
      withOwnedAll a.owned p 0 r.resources := by
    apply withOwnedAll_congr
    intro j q _ above
    apply Pass.owned_put_of_ne
    rintro rfl
    exact Place.not_child_above q j above
  rw [withOwned_eq, withOwned_eq, inside, Pass.owned_put_self]

end Resource

namespace OrderedMap

variable {κ α β : Type} [DecidableEq κ]

theorem insert_mapValues {m : OrderedMap κ α} {f g : κ → α → β} {k : κ} {a : α}
    (found : m.get? k = some a) (others : ∀ j b, j ≠ k → f j b = g j b) :
    (m.mapValues f).insert k (g k a) = m.mapValues g := by
  obtain ⟨entries, distinct⟩ := m
  apply OrderedMap.ext
  change find k entries = some a at found
  change put k (g k a) (entries.map fun e => (e.1, f e.1 e.2)) =
    entries.map fun e => (e.1, g e.1 e.2)
  induction entries with
  | nil => cases found
  | cons e rest ih =>
    obtain ⟨fresh, distinct⟩ := List.nodup_cons.mp distinct
    rw [find] at found
    by_cases here : e.1 = k
    · rw [if_pos here] at found
      obtain rfl := Option.some.inj found
      have same : (rest.map fun e => (e.1, f e.1 e.2)) = rest.map fun e => (e.1, g e.1 e.2) := by
        apply List.map_congr_left
        intro other member
        rw [others other.1 other.2]
        rintro rfl
        exact fresh (here ▸ List.mem_map_of_mem member)
      rw [List.map_cons, put, if_pos here, same, List.map_cons, here]
    · rw [if_neg here] at found
      rw [List.map_cons, put, if_neg here, ih distinct found, List.map_cons, others e.1 e.2 here]

end OrderedMap

namespace InPlace

variable {l : Layout} {s : Store} {out out' : List String} {a b : Pass}

def shown (out : List String) (owned : Place → List Declaration) (key : String) (r : Resource) :
    Resource :=
  if key ∈ out then { r.withOwned owned (.top key) with resources := [] }
  else r.withOwned owned (.top key)

/-- A pass seen on the resources themselves, while the containers of some are out. -/
def view (s : Store) (out : List String) (a : Pass) : Desk :=
  ⟨a.done, { s with resources := s.resources.mapValues (shown out a.owned) }⟩

def sinkAt (a : Pass) (p : Place) (r : Resource) : Sink :=
  if p.down = [] then .stored p.key else .detached (r.withOwned a.owned p)

def benchAt (s : Store) (out : List String) (p : Place) (r : Resource) (a : Pass) : Bench :=
  ⟨sinkAt a p r, view s out a⟩

theorem get?_view (key : String) :
    (view s out a).store.get? key = (s.get? key).map (shown out a.owned key) :=
  s.resources.get?_mapValues _ key

theorem contains_view (key : String) : (view s out a).store.contains key = s.contains key := by
  change ((view s out a).store.get? key).isSome = (s.get? key).isSome
  rw [get?_view, Option.isSome_map]

theorem shown_of_mem {key : String} (away : key ∈ out) (owned : Place → List Declaration)
    (r : Resource) :
    shown out owned key r = { r.withOwned owned (.top key) with resources := [] } := if_pos away

theorem shown_of_notMem {key : String} (present : key ∉ out) (owned : Place → List Declaration)
    (r : Resource) : shown out owned key r = r.withOwned owned (.top key) := if_neg present

theorem declarations_shown (owned : Place → List Declaration) (key : String) (r : Resource) :
    (shown out owned key r).declarations = owned (.top key) := by
  rw [shown, Resource.withOwned_eq]
  split <;> rfl

theorem shown_congr {owned owned' : Place → List Declaration} {key : String}
    (same : key ∈ out ↔ key ∈ out') (top : owned (.top key) = owned' (.top key))
    (inside : key ∉ out → ∀ q, q.key = key → q.down ≠ [] → owned q = owned' q) (r : Resource) :
    shown out owned key r = shown out' owned' key r := by
  by_cases away : key ∈ out
  · rw [shown_of_mem away, shown_of_mem (same.mp away), Resource.withOwned_eq,
      Resource.withOwned_eq, top]
  · rw [shown_of_notMem away, shown_of_notMem fun also => away (same.mpr also)]
    apply Resource.withOwned_congr
    intro q above
    by_cases nested : q.down = []
    · have here : q = .top key := by
        cases q
        simp_all [Place.Above, Place.top]
      rw [here, top]
    · exact inside away q above.1.symm nested

theorem view_congr (done : a.done = b.done) (same : ∀ key, key ∈ out ↔ key ∈ out')
    (tops : ∀ key, a.owned (.top key) = b.owned (.top key))
    (inside : ∀ q, q.down ≠ [] → q.key ∉ out → a.owned q = b.owned q) :
    view s out a = view s out' b := by
  have shows : shown out a.owned = shown out' b.owned := by
    funext key r
    refine shown_congr (same key) (tops key) ?_ r
    rintro present q rfl nested
    exact inside q nested present
  rw [view, view, done, shows]

theorem modify_view {key : String} {r : Resource} {f : Resource → Resource}
    (stored : s.get? key = some r) (done : a.done = b.done)
    (here : f (shown out a.owned key r) = shown out' b.owned key r)
    (others : ∀ k x, k ≠ key → shown out a.owned k x = shown out' b.owned k x) :
    (view s out a).modify key f = view s out' b := by
  have found : (view s out a).store.get? key = some (shown out a.owned key r) := by
    rw [get?_view, stored]
    rfl
  have written : (s.resources.mapValues (shown out a.owned)).insert key
      (shown out' b.owned key r) = s.resources.mapValues (shown out' b.owned) :=
    OrderedMap.insert_mapValues stored others
  rw [Desk.modify, Store.modify, found]
  change Desk.mk a.done { s with
    resources := (s.resources.mapValues (shown out a.owned)).insert key (f _) } = _
  rw [here, written, done]
  rfl

theorem shown_put_top (key : String) (ds : List Declaration) (r : Resource) :
    { shown out a.owned key r with declarations := ds } =
      shown out (a.put (.top key) ds).owned key r := by
  unfold shown
  rw [Resource.withOwned_put]
  split <;> rfl

theorem shown_put_other {p : Place} {key : String} (other : key ≠ p.key) (ds : List Declaration)
    (r : Resource) : shown out a.owned key r = shown out (a.put p ds).owned key r := by
  have apart {q : Place} (own : q.key = key) : a.owned q = (a.put p ds).owned q := by
    refine (Pass.owned_put_of_ne ?_ a ds).symm
    rintro rfl
    exact other own.symm
  exact shown_congr Iff.rfl (apart rfl) (fun _ q own _ => apart own) r

theorem modify_view_declarations {key : String} (held : s.contains key = true)
    (f : List Declaration → List Declaration) :
    ((view s out a).modify key fun r => { r with declarations := f r.declarations }) =
      view s out (a.put (.top key) (f (a.owned (.top key)))) := by
  obtain ⟨r, stored⟩ := Store.contains_iff_exists.mp held
  refine modify_view stored rfl ?_ fun k x other => shown_put_other other _ x
  rw [declarations_shown]
  exact shown_put_top key _ r

theorem view_put_nested {p : Place} (nested : p.down ≠ []) (away : p.key ∈ out)
    (ds : List Declaration) : view s out a = view s out (a.put p ds) := by
  refine view_congr rfl (fun _ => Iff.rfl) (fun key => ?_) fun q _ present => ?_
  · exact (Pass.owned_put_of_ne (Place.ne_top_of_nested nested key).symm a ds).symm
  · refine (Pass.owned_put_of_ne ?_ a ds).symm
    rintro rfl
    exact present away

end InPlace

end ExportIndex
