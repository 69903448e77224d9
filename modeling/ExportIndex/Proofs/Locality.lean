import ExportIndex.Proofs.Completion
import ExportIndex.Proofs.Turns

/-!
Resolution is local. A part of a store is a set of keys; it is isolated if no
statement leads into it or out of it. A visit outside an isolated part leaves
everything under the keys of the part as it is, and a visit inside does the same
with the rest of the store or without it. So the resources of the part come to
the same whatever else is stored.
-/
namespace ExportIndex

namespace Resource

mutual

def family : Resource → List Resource
  | ⟨kind, declarations, exports, imports, usages, resources, span⟩ =>
    ⟨kind, declarations, exports, imports, usages, resources, span⟩ :: familyAll resources

def familyAll : List Resource → List Resource
  | [] => []
  | r :: rest => family r ++ familyAll rest

end

theorem family_eq (r : Resource) : r.family = r :: familyAll r.resources := by
  cases r
  rw [family]

theorem mem_familyAll {rs : List Resource} {r inner : Resource} (held : r ∈ rs)
    (nested : inner ∈ r.family) : inner ∈ familyAll rs := by
  induction rs with
  | nil => cases held
  | cons first rest ih =>
    rw [familyAll]
    rcases List.mem_cons.mp held with rfl | later
    · exact List.mem_append_left _ nested
    · exact List.mem_append_right _ (ih later)

theorem mem_family_of_descend {r inner : Resource} {way : List Nat}
    (found : r.descend way = some inner) : inner ∈ r.family := by
  induction way generalizing r with
  | nil =>
    obtain rfl := Option.some.inj found
    rw [family_eq]
    exact List.mem_cons_self
  | cons i way ih =>
    obtain ⟨next, position, below⟩ := Option.bind_eq_some_iff.mp found
    rw [family_eq]
    exact List.mem_cons_of_mem _ (mem_familyAll (List.mem_of_getElem? position) (ih below))

end Resource

namespace OrderedMap

variable {κ α : Type} [DecidableEq κ]

theorem foldl_erase_eq (keys : List κ) (m : OrderedMap κ α) :
    keys.foldl .erase m = m.filter fun k _ => k ∉ keys := by
  induction keys generalizing m with
  | nil => exact OrderedMap.ext (by simp [filter])
  | cons key keys ih =>
    rw [List.foldl_cons, ih]
    apply OrderedMap.ext
    simp only [erase, filter, List.filter_filter, List.mem_cons, not_or, Bool.decide_and]
    exact List.filter_congr fun e _ => Bool.and_comm _ _

end OrderedMap

namespace Store

/-- Whether no statement of a stored resource, or of anything nested in one, leads from a key
inside the part to a stored key outside or the other way round. -/
def Isolated (l : Layout) (s : Store) (part : String → Bool) : Prop :=
  ∀ e ∈ s.resources.entries, ∀ inner ∈ e.2.family, ∀ target ∈ targets l inner,
    s.contains target = true → part e.1 = part target

instance (l : Layout) (s : Store) (part : String → Bool) : Decidable (s.Isolated l part) :=
  inferInstanceAs (Decidable (∀ e ∈ s.resources.entries, _))

def restrict (s : Store) (part : String → Bool) : Store :=
  (s.keys.filter fun key => !part key).foldl erase s

theorem Isolated.of_refers {l : Layout} {s : Store} {part : String → Bool}
    (isolated : s.Isolated l part) {key target : String} (refers : s.Refers l key target) :
    part key = part target := by
  obtain ⟨p, r, live, rfl, listed, held⟩ := refers
  obtain ⟨top, stored⟩ := contains_iff_exists.mp live.contains_key
  have entry := (s.resources.get?_eq_some_iff p.key top).mp stored
  have below : top.descend p.down = some r := by
    have place := live.at?_eq
    rwa [at?, stored] at place
  exact isolated _ entry r (Resource.mem_family_of_descend below) target listed held

theorem resources_detach (s : Store) (key : String) : (s.detach key).resources = s.resources := by
  unfold detach
  split <;> rfl

theorem resources_foldl_erase (keys : List String) (s : Store) :
    (keys.foldl erase s).resources = keys.foldl .erase s.resources := by
  induction keys generalizing s with
  | nil => rfl
  | cons key keys ih =>
    rw [List.foldl_cons, List.foldl_cons, ih, erase]
    simp only [resources_detach]

variable (s : Store) (part : String → Bool)

theorem resources_restrict :
    (s.restrict part).resources = s.resources.filter fun key _ => part key := by
  unfold restrict
  rw [resources_foldl_erase, OrderedMap.foldl_erase_eq]
  apply OrderedMap.ext
  apply List.filter_congr
  intro e stored
  have listed : e.1 ∈ s.keys := List.mem_map_of_mem stored
  simp [listed]

theorem get?_restrict (key : String) :
    (s.restrict part).get? key = if part key then s.get? key else none := by
  unfold get?
  rw [resources_restrict]
  exact OrderedMap.find_filter part key s.resources.entries

theorem keys_restrict : (s.restrict part).keys = s.keys.filter part := by
  unfold keys
  rw [resources_restrict]
  simp [OrderedMap.keys, OrderedMap.filter, List.filter_map, Function.comp_def]

theorem order_restrict :
    Resolution.order (s.restrict part) = (Resolution.order s).filter part := by
  symm
  apply Resolution.eq_order
  · rw [keys_restrict]
    exact (Resolution.order_perm s).filter part
  · apply List.pairwise_filter.mpr
    apply (Resolution.order_pairwise s).imp
    rintro a b (shorter | ⟨equal, before⟩) first second
    · exact Or.inl shorter
    · refine Or.inr ⟨equal, ?_⟩
      have kept := before.filter part
      rwa [List.filter_cons_of_pos first, List.filter_cons_of_pos second, List.filter_nil,
        ← keys_restrict] at kept

end Store

structure Pass.AgreesOn (part : String → Bool) (a b : Pass) : Prop where
  done {key : String} (inside : part key = true) : key ∈ b.done ↔ key ∈ a.done
  owned {p : Place} (inside : part p.key = true) : b.owned p = a.owned p

namespace Pass.AgreesOn

variable {part : String → Bool} {a b c : Pass}

theorem refl (part : String → Bool) (a : Pass) : AgreesOn part a a :=
  ⟨fun _ => Iff.rfl, fun _ => rfl⟩

theorem symm (agree : AgreesOn part a b) : AgreesOn part b a :=
  ⟨fun inside => (agree.done inside).symm, fun inside => (agree.owned inside).symm⟩

theorem trans (first : AgreesOn part a b) (second : AgreesOn part b c) : AgreesOn part a c :=
  ⟨fun inside => (second.done inside).trans (first.done inside),
    fun inside => (second.owned inside).trans (first.owned inside)⟩

theorem put (agree : AgreesOn part a b) (p : Place) (ds : List Declaration) :
    AgreesOn part (a.put p ds) (b.put p ds) where
  done inside := agree.done inside
  owned {q} inside := by
    rw [owned_put, owned_put, agree.owned inside]

theorem mark (agree : AgreesOn part a b) (key : String) :
    AgreesOn part (a.mark key) (b.mark key) where
  done inside := by
    rw [done_mark, done_mark, List.mem_cons, List.mem_cons, agree.done inside]
  owned inside := agree.owned inside

theorem put_outside {p : Place} (outside : part p.key = false) (a : Pass)
    (ds : List Declaration) : AgreesOn part a (a.put p ds) where
  done _ := Iff.rfl
  owned {q} inside := by
    apply owned_put_of_ne
    rintro rfl
    simp [outside] at inside

theorem mark_outside {key : String} (outside : part key = false) (a : Pass) :
    AgreesOn part a (a.mark key) where
  done {k} inside := by
    have other : k ≠ key := by
      rintro rfl
      simp [outside] at inside
    simp [other]
  owned _ := rfl

theorem carry_outside {p : Place} {key : String} (outside : part p.key = false)
    (outsideKey : part key = false) (a : Pass) (e : Export) :
    AgreesOn part a (a.carry e key p) :=
  (put_outside (p := .top key) outsideKey a _).trans (put_outside outside _ _)

end Pass.AgreesOn

namespace Resolution

variable {l : Layout} {s t : Store} {part : String → Bool}

section Outside

variable (isolated : ∀ key target, s.Refers l key target → part key = part target)

include isolated

theorem outside_rules {visit : String → Pass → Pass}
    (visits : ∀ key a, s.contains key = true → part key = false →
      Pass.AgreesOn part a (visit key a)) :
    Rules l s visit fun p a _ b => part p.key = false → Pass.AgreesOn part a b where
  rest _ a _ := .refl part a
  next first second outside := (first outside).trans (second outside)
  carried {p r e source key} live statement named found a outside := by
    have outsideKey : part key = false := by
      rw [← isolated _ _ (refers_of_target live statement named found), outside]
    have visited := visits key a (target?_eq_some_iff.mp found).2.2 outsideKey
    exact visited.trans (.carry_outside outside outsideKey _ e)
  renamed _ _ a outside := .put_outside outside a _
  drained {p r inner i a b} _ _ settled outside := by
    have outsideToo : part (p.child i).key = false := outside
    have entered := Pass.AgreesOn.put_outside outsideToo a
      (retain inner.localNames (a.owned (p.child i)))
    exact (entered.trans (settled outside)).trans (.put_outside outsideToo b [])
  received _ taken outside := (taken outside).trans (.put_outside outside _ _)

theorem visitWithin_outside (bound : Nat) (key : String) (a : Pass)
    (held : s.contains key = true) (outside : part key = false) :
    Pass.AgreesOn part a (visitWithin l s bound key a) := by
  apply visitWithin_obeys (V := fun key a b => part key = false → Pass.AgreesOn part a b)
    (fun _ => outside_rules isolated) (fun _ a _ => .refl part a) _ bound key a held outside
  intro key r a b _ _ settled outside
  exact (Pass.AgreesOn.mark_outside outside a).trans (settled outside)

end Outside

section Inside

variable (isolated : ∀ key target, s.Refers l key target → part key = part target)
  (rest : ∀ key, t.get? key = if part key then s.get? key else none)

include rest

theorem contains_inside {key : String} (inside : part key = true) :
    t.contains key = s.contains key := by
  change (t.get? key).isSome = (s.get? key).isSome
  rw [rest, if_pos inside]

include isolated

theorem target?_inside {p : Place} {r : Resource} {e : Export} {source : String}
    (inside : part p.key = true) (live : s.Live p r) (statement : e ∈ r.exports)
    (named : e.source? = some source) :
    target? l t p r.path? source = target? l s p r.path? source := by
  have known {key : String} (found : target? l s p r.path? source = some key) :
      part key = true := by
    rw [← isolated _ _ (refers_of_target live statement named found), inside]
  apply Option.ext
  intro key
  constructor
  · intro found
    obtain ⟨target, other, held⟩ := target?_eq_some_iff.mp found
    apply target?_eq_some_iff.mpr
    refine ⟨target, other, ?_⟩
    obtain ⟨r, stored⟩ := Store.contains_iff_exists.mp held
    rw [rest] at stored
    split at stored
    · exact Store.contains_iff_exists.mpr ⟨r, stored⟩
    · cases stored
  · intro found
    obtain ⟨target, other, held⟩ := target?_eq_some_iff.mp found
    apply target?_eq_some_iff.mpr
    rw [contains_inside rest (known found)]
    exact ⟨target, other, held⟩

theorem visitWithin_inside (bound : Nat) : ∀ {key a b}, s.contains key = true →
    part key = true → Pass.AgreesOn part a b →
      Pass.AgreesOn part (visitWithin l s bound key a) (visitWithin l t bound key b) := by
  induction bound with
  | zero => exact fun _ _ agree => agree
  | succ bound ih =>
    intro key a b held inside agree
    have steps : Lockstep l s t (visitWithin l s bound) (visitWithin l t bound)
        (part · = true) (Pass.AgreesOn part) := by
      constructor
      · exact fun agree close => agree.owned close
      · exact fun agree p ds => agree.put p ds
      · exact fun close live statement named =>
          target?_inside isolated rest close live statement named
      · intro p r e source key a b close live statement named found agree
        have insideKey : part key = true := by
          rw [← isolated _ _ (refers_of_target live statement named found), close]
        exact ⟨insideKey, ih (target?_eq_some_iff.mp found).2.2 insideKey agree⟩
    rw [visitWithin_succ, visitWithin_succ]
    obtain ⟨r, stored⟩ := Store.contains_iff_exists.mp held
    have stored' : t.get? key = some r := by rw [rest, if_pos inside, stored]
    by_cases early : key ∈ a.done
    · rw [enter_of_done early, enter_of_done ((agree.done inside).mpr early)]
      exact agree
    · have fresh : key ∉ b.done := fun done => early ((agree.done inside).mp done)
      rw [enter_of_fresh early stored, enter_of_fresh fresh stored']
      exact steps.settle_related r inside (.stored stored) _ _ (agree.mark key)

theorem foldl_inside (bound : Nat) {keys : List String}
    (stored : ∀ key ∈ keys, s.contains key = true) {a b : Pass} (agree : Pass.AgreesOn part a b) :
    Pass.AgreesOn part (keys.foldl (fun pass key => visitWithin l s bound key pass) a)
      ((keys.filter part).foldl (fun pass key => visitWithin l t bound key pass) b) := by
  induction keys generalizing a b with
  | nil => exact agree
  | cons key keys ih =>
    have held := stored key List.mem_cons_self
    have others : ∀ k ∈ keys, s.contains k = true := fun k later =>
      stored k (List.mem_cons_of_mem key later)
    cases inside : part key with
    | true =>
      rw [List.filter_cons_of_pos inside]
      exact ih others (visitWithin_inside isolated rest bound held inside agree)
    | false =>
      -- the pass without the rest has no turn here
      rw [List.filter_cons_of_neg (by simp [inside])]
      have aside := visitWithin_outside isolated bound key a held inside
      exact ih others (aside.symm.trans agree)

theorem settleAll_inside (turns : order t = (order s).filter part) (smaller : t.size ≤ s.size)
    {a b : Pass} (agree : Pass.AgreesOn part a b) :
    Pass.AgreesOn part (settleAll l s a) (settleAll l t b) := by
  -- both passes are given the larger bound
  have bounds : settleAll l t b =
      (order t).foldl (fun pass key => visitWithin l t s.size key pass) b := by
    apply List.foldl_ext
    intro c key listed
    have few := undone_le_size (s := t) c
    exact visitWithin_eq_of_enough (mem_order.mp listed) few (few.trans smaller)
  rw [bounds, turns]
  exact foldl_inside isolated rest s.size (fun key listed => mem_order.mp listed) agree

end Inside

end Resolution

namespace Store

variable {l : Layout} {s t : Store} {part : String → Bool}

theorem get?_retained_restrict (key : String) : (s.restrict part).retained.get? key =
    if part key then s.retained.get? key else none := by
  rw [get?_retained, get?_restrict, get?_retained]
  split <;> rfl

/-- What a part comes to does not depend on the rest of the store, if no statement that is
carried out leads into the part or out of it. -/
theorem settled_restrict (apart : ∀ key target, s.Refers l key target → part key = part target) :
    Pass.AgreesOn part (s.settled l) ((s.restrict part).settled l) := by
  apply Resolution.settleAll_inside _ get?_retained_restrict
  · rw [Resolution.order_retained, Resolution.order_retained, order_restrict]
  · rw [← length_keys, ← length_keys, keys_retained, keys_retained, keys_restrict]
    exact List.length_filter_le part s.keys
  · refine ⟨fun _ => Iff.rfl, fun {p} inside => ?_⟩
    simp only [start, owned, get?_retained_restrict, inside, ↓reduceIte]
  · intro key target refers
    exact apart key target refers.of_retained

theorem get?_resolve_restrict (isolated : s.Isolated l part) {key : String}
    (inside : part key = true) :
    (s.resolve l).get? key = ((s.restrict part).resolve l).get? key := by
  rw [resolve_eq, resolve_eq, get?_withOwned, get?_withOwned, get?_restrict, if_pos inside]
  apply congrArg (Option.map · _)
  funext r
  apply Resource.withOwned_congr
  intro p below
  have insideToo : part p.key = true := by
    rw [← below.1]
    exact inside
  have agree := settled_restrict fun _ _ refers => isolated.of_refers refers
  exact (agree.owned insideToo).symm

end Store

/-- Resolution is local. Where no statement leads into a part of a store or out of it, the
resources of the part are resolved as if the part were the whole store; so they are resolved the
same in any two stores that have this part in common, whatever else the two hold. -/
theorem resolve_is_local {l : Layout} {s : Store} {part : String → Bool}
    (isolated : s.Isolated l part) :
    (∀ key, part key = true →
      (s.resolve l).get? key = ((s.restrict part).resolve l).get? key) ∧
    ∀ t : Store, t.Isolated l part → (t.restrict part).resources = (s.restrict part).resources →
      ∀ key, part key = true → (t.resolve l).get? key = (s.resolve l).get? key := by
  refine ⟨fun key inside => Store.get?_resolve_restrict isolated inside, ?_⟩
  intro t isolated' common key inside
  rw [Store.get?_resolve_restrict isolated inside, Store.get?_resolve_restrict isolated' inside]
  have same : ∀ k, (t.restrict part).get? k = (s.restrict part).get? k := fun k => by
    unfold Store.get?
    rw [common]
  have keys : (t.restrict part).keys = (s.restrict part).keys := congrArg OrderedMap.keys common
  exact Store.get?_resolve_congr l same (Resolution.order_eq_of_keys keys) key

section Sample

def library : Resource :=
  { declared "lib" [] [.assigned "Lib" none] with
    resources := [⟨.declaredNamespace "Lib", [], [.all "base" none], [], [], [], none⟩] }

def mixed : Store :=
  (((Store.empty.set "outer" (declared "outer" [] [.all "in" none])).set "lib" library).set "in"
    (declared "in" ["X"] [])).set "base" (declared "base" ["FromBase"] [])

def mixedAgain : Store :=
  (((Store.empty.set "lib" library).set "base" (declared "base" ["FromBase"] [])).set "in"
    (declared "in" [] [.all "newest" none])).set "newest" (declared "newest" ["Y"] [])

def inLibrary (key : String) : Bool := key = "lib" || key = "base"

theorem mixed_is_local :
    mixed.Isolated { root := "/ws" } inLibrary ∧
    (mixed.resolve { root := "/ws" }).get? "lib" =
      ((mixed.restrict inLibrary).resolve { root := "/ws" }).get? "lib" ∧
    (mixedAgain.resolve { root := "/ws" }).get? "lib" =
      (mixed.resolve { root := "/ws" }).get? "lib" ∧
    ((mixed.resolve { root := "/ws" }).get? "lib").map (·.declarations.map Declaration.name) =
      some ["FromBase"] := by
  have isolated : mixed.Isolated { root := "/ws" } inLibrary := by decide +kernel
  have isolated' : mixedAgain.Isolated { root := "/ws" } inLibrary := by decide +kernel
  have common : (mixedAgain.restrict inLibrary).resources = (mixed.restrict inLibrary).resources :=
    OrderedMap.ext rfl
  obtain ⟨alone, whatever⟩ := resolve_is_local isolated
  refine ⟨isolated, alone "lib" rfl, whatever mixedAgain isolated' common "lib" rfl, ?_⟩
  decide +kernel

end Sample

end ExportIndex
