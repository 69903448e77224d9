import ExportIndex.Proofs.Completion
import ExportIndex.Proofs.Listing
import ExportIndex.Proofs.Turns

/-!
What is hidden never shows. A container is reduced to what it makes visible only
when it is entered, so until then two passes may differ in its hidden
declarations; they agree from there on. In the end the stored resources own the
same, and the catalog lists nothing else. It has no hidden declaration, and no
module as a whole but the stored containers themselves.
-/
namespace ExportIndex

namespace Resource

mutual

/-- The resource reduced to what it makes visible, and so everything nested in it. -/
def pruned : Resource → Resource
  | ⟨kind, declarations, exports, imports, usages, resources, span⟩ =>
    ⟨kind, retain (exports.flatMap Export.localNames) declarations, exports, imports, usages,
      prunedAll resources, span⟩

def prunedAll : List Resource → List Resource
  | [] => []
  | r :: rest => pruned r :: prunedAll rest

end

theorem pruned_eq (r : Resource) :
    r.pruned = { r.retained with resources := prunedAll r.resources } := by
  cases r
  rw [pruned]
  rfl

@[simp] theorem name?_pruned (r : Resource) : r.pruned.name? = r.name? := by
  rw [pruned_eq]
  rfl

@[simp] theorem span_pruned (r : Resource) : r.pruned.span = r.span := by
  rw [pruned_eq]
  rfl

@[simp] theorem localNames_pruned (r : Resource) : r.pruned.localNames = r.localNames := by
  rw [pruned_eq]
  rfl

theorem declarations_pruned (r : Resource) :
    r.pruned.declarations = retain r.localNames r.declarations := by
  rw [pruned_eq]
  rfl

theorem retained_pruned (r : Resource) : r.pruned.retained = r.pruned := by
  apply retained_eq_self
  rw [declarations_pruned]
  exact .retain _ _

theorem pruned_retained (r : Resource) : r.retained.pruned = r.pruned := by
  rw [pruned_eq, pruned_eq, retained_eq_self (Clean.retain r.localNames r.declarations)]
  rfl

theorem getElem?_prunedAll (rs : List Resource) (i : Nat) :
    (prunedAll rs)[i]? = (rs[i]?).map pruned := by
  induction rs generalizing i with
  | nil => simp [prunedAll]
  | cons r rest ih =>
    rw [prunedAll]
    cases i with
    | zero => rfl
    | succ i => exact ih i

theorem descend_pruned (r : Resource) (way : List Nat) :
    r.pruned.descend way = (r.descend way).map pruned := by
  induction way generalizing r with
  | nil => rfl
  | cons i way ih =>
    rw [descend, descend, pruned_eq]
    change ((prunedAll r.resources)[i]?).bind _ = _
    rw [getElem?_prunedAll]
    cases r.resources[i]? with
    | none => rfl
    | some inner => exact ih inner

end Resource

namespace Resolution

variable {l : Layout} {s : Store} {visit : String → Pass → Pass}

mutual

theorem settle_pruned : ∀ (r : Resource) (p : Place),
    settle l s visit p r.pruned = settle l s visit p r
  | ⟨kind, declarations, exports, imports, usages, resources, span⟩, p => by
    funext a
    rw [Resource.pruned, settle, settle, drain_pruned resources]

theorem drain_pruned : ∀ (rs : List Resource) (p : Place) (i : Nat),
    drain l s visit p i (Resource.prunedAll rs) = drain l s visit p i rs
  | [], _, _ => by rw [Resource.prunedAll]
  | r :: rest, p, i => by
    funext identifier a
    simp only [Resource.prunedAll, drain, Resource.name?_pruned, Resource.localNames_pruned,
      settle_pruned r, drain_pruned rest]

end

end Resolution

namespace Pass

/-- Whether two passes differ at most in what is hidden. They agree at the places that were seen,
and what the resources at the others make visible is the same in both. -/
structure SameVisible (s : Store) (seen : Place → Prop) (a b : Pass) : Prop where
  done : b.done = a.done
  owned {p : Place} (known : seen p) : b.owned p = a.owned p
  visible {p : Place} {r : Resource} (found : s.at? p = some r) :
    retain r.localNames (b.owned p) = retain r.localNames (a.owned p)

namespace SameVisible

variable {s : Store} {seen fewer : Place → Prop} {a b : Pass}

theorem mono (same : SameVisible s seen a b) (known : ∀ p, fewer p → seen p) :
    SameVisible s fewer a b :=
  ⟨same.done, fun earlier => same.owned (known _ earlier), same.visible⟩

theorem mark (same : SameVisible s seen a b) (key : String) :
    SameVisible s seen (a.mark key) (b.mark key) :=
  ⟨congrArg (key :: ·) same.done, same.owned, same.visible⟩

theorem put (same : SameVisible s seen a b) (q : Place) (ds : List Declaration) :
    SameVisible s (fun p => seen p ∨ p = q) (a.put q ds) (b.put q ds) where
  done := same.done
  owned {p} known := by
    rw [owned_put, owned_put]
    split
    · rfl
    · rename_i other
      exact same.owned (known.resolve_right other)
  visible {p r} found := by
    rw [owned_put, owned_put]
    split
    · rfl
    · exact same.visible found

end SameVisible

end Pass

namespace Resolution

variable {l : Layout} {s t : Store}

section Visits

variable (reduced : ∀ key, t.get? key = (s.get? key).map Resource.pruned)

include reduced

/-- The places on the way to the statements that are carried out count as seen. -/
theorem hidden_tandem {visit visit' : String → Pass → Pass} {seen : Place → Prop}
    (tops : ∀ key, seen (.top key))
    (visits : ∀ key a b, s.contains key = true → ∀ known : Place → Prop,
      (∀ key, known (.top key)) → Pass.SameVisible s known a b →
      Pass.SameVisible s known (visit key a) (visit' key b)) :
    Tandem l s t visit visit' fun p => Pass.SameVisible s fun q => seen q ∨ q.Above p where
  owned {p a b} same := same.owned (Or.inr p.above_refl)
  put same q ds := (same.put q ds).mono fun _ => Or.inl
  target _ _ _ _ := by rw [target?_congr (Store.contains_of_mapped reduced)]
  visits {p r e source key a b} same _ _ _ found := by
    have held := (target?_eq_some_iff.mp found).2.2
    have after := visits key a b held _ (fun key => Or.inl (tops key)) same
    exact ⟨after, after.owned (Or.inl (tops key))⟩
  enters {p r inner i a b} same live assigned := by
    rw [same.visible (live.inside assigned).at?_eq]
    apply (same.put (p.child i) _).mono
    rintro q (earlier | above)
    · exact Or.inl (Or.inl earlier)
    · rcases Place.above_child.mp above with before | here
      · exact Or.inl (Or.inr before)
      · exact Or.inr here
  leaves same := by
    apply same.mono
    rintro q (earlier | above)
    · exact Or.inl earlier
    · exact Or.inr (Place.above_child.mpr (Or.inl above))

theorem visitWithin_hidden (bound : Nat) : ∀ key a b, s.contains key = true →
    ∀ seen : Place → Prop, (∀ key, seen (.top key)) → Pass.SameVisible s seen a b →
      Pass.SameVisible s seen (visitWithin l s bound key a) (visitWithin l t bound key b) := by
  induction bound with
  | zero => exact fun _ _ _ _ _ _ same => same
  | succ bound ih =>
    intro key a b held seen tops same
    rw [visitWithin_succ, visitWithin_succ]
    by_cases early : key ∈ a.done
    · rw [enter_of_done early, enter_of_done (same.done ▸ early)]
      exact same
    · obtain ⟨r, stored⟩ := Store.contains_iff_exists.mp held
      have stored' : t.get? key = some r.pruned := by
        rw [reduced, stored]
        rfl
      rw [enter_of_fresh early stored, enter_of_fresh (same.done ▸ early) stored', settle_pruned]
      have steps := hidden_tandem (l := l) reduced tops ih
      have begun : Pass.SameVisible s (fun q => seen q ∨ q.Above (.top key)) (a.mark key)
          (b.mark key) := by
        apply (same.mark key).mono
        rintro q (earlier | above)
        · exact earlier
        · rw [Place.above_top above]
          exact tops key
      exact (steps.settle_related r (.stored stored) _ _ begun).mono fun _ => Or.inl

end Visits

theorem settleAll_hidden (reduced : ∀ key, t.get? key = (s.get? key).map Resource.pruned)
    (keys : t.keys = s.keys) {seen : Place → Prop} (tops : ∀ key, seen (.top key)) {a b : Pass}
    (same : Pass.SameVisible s seen a b) :
    Pass.SameVisible s seen (settleAll l s a) (settleAll l t b) := by
  have size : t.size = s.size := by rw [← t.length_keys, keys, s.length_keys]
  unfold settleAll visit
  rw [order_eq_of_keys keys, size]
  apply List.foldl_rel same
  intro key listed a b same
  apply visitWithin_hidden reduced s.size key a b _ seen tops same
  exact mem_order.mp listed

end Resolution

namespace Store

variable {l : Layout} {s t : Store}

def pruned (s : Store) : Store :=
  { s with resources := s.resources.mapValues fun _ r => r.pruned }

theorem get?_pruned (s : Store) (key : String) :
    s.pruned.get? key = (s.get? key).map Resource.pruned :=
  s.resources.get?_mapValues _ key

theorem keys_pruned (s : Store) : s.pruned.keys = s.keys := s.resources.keys_mapValues _

theorem get?_retained_pruned (s : Store) (key : String) :
    s.pruned.retained.get? key = (s.retained.get? key).map Resource.pruned := by
  rw [get?_retained, get?_pruned, get?_retained]
  cases s.get? key with
  | none => rfl
  | some r =>
    simp only [Option.map_some]
    rw [r.retained_pruned, r.pruned_retained]

theorem at?_retained_pruned (s : Store) (p : Place) :
    s.pruned.retained.at? p = (s.retained.at? p).map Resource.pruned := by
  unfold at?
  rw [get?_retained_pruned]
  cases s.retained.get? p.key with
  | none => rfl
  | some r => exact r.descend_pruned p.down

theorem start_hidden (s : Store) :
    Pass.SameVisible s.retained (·.down = []) s.start s.pruned.start where
  done := rfl
  owned {p} known := by
    obtain ⟨key, way⟩ := p
    obtain rfl : way = [] := known
    cases found : s.retained.at? (.top key) with
    | none =>
      change ((s.pruned.retained.at? (.top key)).map Resource.declarations).getD [] =
        ((s.retained.at? (.top key)).map Resource.declarations).getD []
      rw [at?_retained_pruned, found]
      rfl
    | some r =>
      have found' : s.pruned.retained.at? (.top key) = some r.pruned := by
        rw [at?_retained_pruned, found]
        rfl
      have clean := s.start_clean key
      rw [start_owned found] at clean
      change s.pruned.start.owned (.top key) = s.start.owned (.top key)
      rw [start_owned found, start_owned found', r.declarations_pruned, clean.retain_eq]
  visible {p r} found := by
    have found' : s.pruned.retained.at? p = some r.pruned := by
      rw [at?_retained_pruned, found]
      rfl
    rw [start_owned found, start_owned found', r.declarations_pruned]
    exact (Clean.retain _ _).retain_eq _

theorem settled_hidden (l : Layout) (s : Store) (key : String) :
    (s.pruned.settled l).owned (.top key) = (s.settled l).owned (.top key) := by
  have keys : s.pruned.retained.keys = s.retained.keys := by
    rw [keys_retained, keys_retained, keys_pruned]
  have same := Resolution.settleAll_hidden (l := l) s.get?_retained_pruned keys (fun _ => rfl)
    s.start_hidden
  exact same.owned rfl

theorem offersUnder_resolve_pruned (l : Layout) (s : Store) (key : String) :
    Catalog.offersUnder (s.pruned.resolve l) key = Catalog.offersUnder (s.resolve l) key := by
  unfold Catalog.offersUnder
  rw [resolve_eq, resolve_eq, get?_withOwned, get?_withOwned, get?_pruned]
  cases s.get? key with
  | none => rfl
  | some r =>
    simp only [Option.map_some, Catalog.offers_withOwned, settled_hidden,
      Resource.name?_pruned, Resource.span_pruned]

end Store

namespace Catalog

theorem ofStore_congr {s t : Store} (keys : t.keys = s.keys)
    (same : ∀ key, offersUnder t key = offersUnder s key) : ofStore t = ofStore s := by
  rw [ofStore_eq, ofStore_eq, keys, funext same]

theorem ofStore_resolve_pruned (l : Layout) (s : Store) :
    ofStore (s.pruned.resolve l) = ofStore (s.resolve l) := by
  apply ofStore_congr _ (s.offersUnder_resolve_pruned l)
  rw [Store.keys_resolve, Store.keys_resolve, Store.keys_pruned]

theorem ofStore_resolve_congr (l : Layout) {s t : Store} (keys : t.keys = s.keys)
    (same : ∀ key, t.get? key = s.get? key) : ofStore (t.resolve l) = ofStore (s.resolve l) := by
  apply ofStore_congr
  · rw [Store.keys_resolve, Store.keys_resolve, keys]
  · intro key
    unfold offersUnder
    rw [Store.get?_resolve_congr l same (Resolution.order_eq_of_keys keys)]

theorem exists_offer {s : Store} {name : String} {e : Entry}
    (listed : e ∈ (ofStore s).under name) :
    ∃ key r, s.get? key = some r ∧ (name, e) ∈ offers key r := by
  rw [ofStore_eq, mem_under_ofOffers] at listed
  obtain ⟨key, -, offered⟩ := List.mem_flatMap.mp (List.mem_of_find?_eq_some listed)
  unfold offersUnder at offered
  cases found : s.get? key with
  | none => simp [found] at offered
  | some r =>
    rw [found] at offered
    exact ⟨key, r, found, offered⟩

theorem whole_or_visible {l : Layout} {s : Store} {name : String} {e : Entry}
    (listed : e ∈ (ofStore (s.resolve l)).under name) :
    (∃ r, s.get? e.origin = some r ∧ r.name? = some name ∧
      e.declaration = .aliasOf (Alias.ofName name) r.span) ∨ e.declaration.isVisible = true := by
  obtain ⟨key, r, found, offered⟩ := exists_offer listed
  have clean := Store.resolveAfter_clean l [] s key r found
  rw [Store.resolve_eq, Store.get?_withOwned] at found
  obtain ⟨original, stored, rfl⟩ := Option.map_eq_some_iff.mp found
  rw [Resource.declarations_withOwned] at clean
  rw [offers_withOwned, List.mem_append] at offered
  rcases offered with whole | owned
  · obtain ⟨container, called, same⟩ := Option.map_eq_some_iff.mp (Option.mem_toList.mp whole)
    obtain ⟨rfl, rfl⟩ := Prod.mk.inj same
    exact Or.inl ⟨original, stored, called, rfl⟩
  · obtain ⟨d, member, same⟩ := List.mem_map.mp owned
    obtain ⟨rfl, rfl⟩ := Prod.mk.inj same
    exact Or.inr (clean d member)

end Catalog

/-- What is hidden never shows in the catalog. Two stores with the same keys in the same order,
whose resources are the same once everything hidden is taken out at every depth, lead to the same
catalog. An entry of it is an exported declaration, or it is a stored container as a whole, under
the name of the container and with its key as origin. -/
theorem catalog_ignores_hidden (l : Layout) {s t : Store} (keys : t.keys = s.keys)
    (same : ∀ key, (t.get? key).map Resource.pruned = (s.get? key).map Resource.pruned) :
    Catalog.ofStore (t.resolve l) = Catalog.ofStore (s.resolve l) ∧
    ∀ name e, e ∈ (Catalog.ofStore (s.resolve l)).under name →
      (e.declaration.kind ≠ .moduleAlias → e.declaration.exported = true) ∧
      (e.declaration.kind = .moduleAlias → ∃ r, s.get? e.origin = some r ∧
        r.name? = some name ∧ e.declaration = .aliasOf (Alias.ofName name) r.span) := by
  constructor
  · rw [← Catalog.ofStore_resolve_pruned l s, ← Catalog.ofStore_resolve_pruned l t]
    apply Catalog.ofStore_resolve_congr
    · rw [Store.keys_pruned, Store.keys_pruned, keys]
    · intro key
      rw [Store.get?_pruned, Store.get?_pruned, same]
  · intro name e listed
    rcases Catalog.whole_or_visible listed with ⟨r, stored, called, whole⟩ | visible
    · refine ⟨fun other => ?_, fun _ => ⟨r, stored, called, whole⟩⟩
      rw [whole] at other
      exact absurd rfl other
    · obtain ⟨exportable, exported⟩ := Bool.and_eq_true_iff.mp visible
      refine ⟨fun _ => exported, fun whole => ?_⟩
      rw [whole] at exportable
      exact absurd exportable (by decide)

section Sample

def veiled (outer inner : List Declaration) : Store :=
  Store.empty.set "lib" ⟨.declaredModule "lib", exportedClass "Open" :: outer,
    [.assigned "Lib" none], [], [],
    [⟨.declaredNamespace "Lib", inner ++ [exportedClass "Deep"], [], [], [], [], none⟩], none⟩

def secrets : List Declaration :=
  [⟨"Secret", .classDef, false, none⟩, ⟨"Alias", .moduleAlias, true, none⟩]

theorem veiled_ignores_hidden :
    (veiled secrets secrets).keys = (veiled [] []).keys ∧
    Catalog.ofStore ((veiled secrets secrets).resolve { root := "/ws" }) =
      Catalog.ofStore ((veiled [] []).resolve { root := "/ws" }) ∧
    (Catalog.ofStore ((veiled [] []).resolve { root := "/ws" })).names =
      ["lib", "Open", "Deep"] := by
  have keys : (veiled secrets secrets).keys = (veiled [] []).keys := rfl
  have same : ∀ key, ((veiled secrets secrets).get? key).map Resource.pruned =
      ((veiled [] []).get? key).map Resource.pruned := by
    intro key
    by_cases here : "lib" = key
    · subst here
      rfl
    · have absent : ∀ outer inner, (veiled outer inner).get? key = none := by
        intro outer inner
        exact if_neg here
      rw [absent, absent]
  exact ⟨keys, (catalog_ignores_hidden { root := "/ws" } keys same).1, by decide +kernel⟩

end Sample

end ExportIndex
