import ExportIndex.Delta
import ExportIndex.Proofs.Conservation

/-!
What a catalog lists. An entry is listed under a name if it is the first that was
offered under that name with its kind and its origin, and a name is known if
anything was offered under it. Offers that can stand in each other's way come
from keys of one origin, so two stores whose keys of one origin stand in the same
order lead to catalogs with the same entries.
-/
namespace ExportIndex

namespace Entry.Clashes

theorem refl (e : Entry) : e.Clashes e := ⟨rfl, rfl⟩

theorem symm {d e : Entry} (clash : d.Clashes e) : e.Clashes d := ⟨clash.1.symm, clash.2.symm⟩

theorem trans {c d e : Entry} (first : c.Clashes d) (second : d.Clashes e) : c.Clashes e :=
  ⟨first.1.trans second.1, first.2.trans second.2⟩

end Entry.Clashes

namespace Catalog

def ofOffers (os : List (String × Entry)) : Catalog := os.foldl (fun c o => c.add o.1 o.2) empty

/-- The first of some offers under a name that has the kind and the origin of an entry. -/
def firstLike (os : List (String × Entry)) (name : String) (e : Entry) :
    Option (String × Entry) :=
  os.find? fun o => o.1 = name ∧ o.2.Clashes e

theorem ofOffers_snoc (os : List (String × Entry)) (o : String × Entry) :
    ofOffers (os ++ [o]) = (ofOffers os).add o.1 o.2 := by
  unfold ofOffers
  rw [List.foldl_append]
  rfl

theorem contains_add (c : Catalog) (name n : String) (e : Entry) :
    (c.add name e).contains n = (decide (name = n) || c.contains n) := by
  unfold contains add OrderedMap.contains
  rw [OrderedMap.get?_insert]
  by_cases same : name = n
  · simp [same]
  · simp [same]

theorem under_add (c : Catalog) (name n : String) (e : Entry) :
    (c.add name e).under n =
      if name = n ∧ c.accepts name e = true then c.under n ++ [e] else c.under n := by
  unfold add under get?
  rw [OrderedMap.get?_insert]
  by_cases here : name = n
  · subst here
    by_cases accepted : c.accepts name e = true
    · simp [accepted]
    · simp [accepted]
  · simp [here]

theorem mem_under_add {c : Catalog} {name n : String} {d e : Entry} :
    e ∈ (c.add n d).under name ↔
      e ∈ c.under name ∨ n = name ∧ c.accepts n d = true ∧ e = d := by
  rw [under_add]
  split
  · rename_i accepted
    obtain ⟨rfl, free⟩ := accepted
    simp [free]
  · rename_i refused
    constructor
    · exact Or.inl
    · rintro (earlier | ⟨same, accepted, -⟩)
      · exact earlier
      · exact absurd ⟨same, accepted⟩ refused

theorem contains_ofOffers {os : List (String × Entry)} {name : String} :
    (ofOffers os).contains name = true ↔ ∃ e, (name, e) ∈ os := by
  induction os using List.reverseRecOn with
  | nil => simp [ofOffers, contains, empty, OrderedMap.contains]
  | append_singleton os o ih =>
    rw [ofOffers_snoc, contains_add, Bool.or_eq_true, decide_eq_true_iff, ih]
    constructor
    · rintro (rfl | ⟨e, offered⟩)
      · exact ⟨o.2, List.mem_append_right _ List.mem_cons_self⟩
      · exact ⟨e, List.mem_append_left _ offered⟩
    · rintro ⟨e, offered⟩
      rcases List.mem_append.mp offered with earlier | last
      · exact Or.inr ⟨e, earlier⟩
      · exact Or.inl (congrArg Prod.fst (List.mem_singleton.mp last)).symm

theorem accepts_iff {c : Catalog} {os : List (String × Entry)}
    (listed : ∀ name e, e ∈ c.under name ↔ firstLike os name e = some (name, e)) {name : String}
    {e : Entry} : c.accepts name e = true ↔ firstLike os name e = none := by
  have refused : (∃ d ∈ c.under name, d.Clashes e) ↔ (firstLike os name e).isSome = true := by
    constructor
    · intro ⟨d, member, clash⟩
      have offered := List.mem_of_find?_eq_some ((listed name d).mp member)
      apply List.find?_isSome.mpr
      exact ⟨_, offered, by simpa using clash⟩
    · intro found
      obtain ⟨⟨n, d⟩, found⟩ := Option.isSome_iff_exists.mp found
      have like : n = name ∧ d.Clashes e := by simpa using List.find?_some found
      obtain ⟨rfl, clash⟩ := like
      refine ⟨d, (listed n d).mpr ?_, clash⟩
      -- to clash with one of two clashing entries is to clash with the other
      rw [← found]
      unfold firstLike
      congr 1
      funext o
      have both : o.2.Clashes d ↔ o.2.Clashes e := ⟨(·.trans clash), (·.trans clash.symm)⟩
      simp [both]
  rw [← Option.not_isSome_iff_eq_none, ← refused]
  simp [accepts]

theorem firstLike_snoc (os : List (String × Entry)) (o : String × Entry) (name : String)
    (e : Entry) : firstLike (os ++ [o]) name e =
      (firstLike os name e).or (if o.1 = name ∧ o.2.Clashes e then some o else none) := by
  unfold firstLike
  rw [List.find?_append]
  by_cases like : o.1 = name ∧ o.2.Clashes e
  · simp [like]
  · simp only [like, ↓reduceIte]
    simp_all

theorem mem_under_ofOffers {os : List (String × Entry)} {name : String} {e : Entry} :
    e ∈ (ofOffers os).under name ↔ firstLike os name e = some (name, e) := by
  induction os using List.reverseRecOn generalizing name e with
  | nil => simp [ofOffers, firstLike, under, get?, empty]
  | append_singleton os o ih =>
    rw [ofOffers_snoc, firstLike_snoc, mem_under_add, accepts_iff fun _ _ => ih, ih]
    cases found : firstLike os name e with
    | some earlier =>
      rw [Option.some_or]
      constructor
      · rintro (listed | ⟨rfl, free, rfl⟩)
        · exact listed
        · rw [found] at free
          cases free
      · exact Or.inl
    | none =>
      rw [Option.none_or]
      constructor
      · rintro (impossible | ⟨rfl, -, rfl⟩)
        · cases impossible
        · rw [if_pos ⟨rfl, .refl _⟩]
      · intro last
        split at last
        · obtain rfl := Option.some.inj last
          exact Or.inr ⟨rfl, found, rfl⟩
        · cases last

theorem offers_withOwned (key : String) (r : Resource) (owned : Place → List Declaration) :
    offers key (r.withOwned owned (.top key)) =
      (r.name?.map fun name => (name, ⟨.aliasOf (Alias.ofName name) r.span, key⟩)).toList ++
        (owned (.top key)).map fun d => (d.name, ⟨d, originOfKey key⟩) := by
  cases r
  rw [Resource.withOwned]
  rfl

def offersUnder (s : Store) (key : String) : List (String × Entry) :=
  ((s.get? key).map (offers key)).getD []

theorem offersOf_eq (s : Store) : offersOf s = s.keys.flatMap (offersUnder s) := by
  unfold offersOf Store.keys OrderedMap.keys
  rw [List.flatMap_map]
  apply List.flatMap_congr
  intro e stored
  have found : s.get? e.1 = some e.2 := (s.resources.get?_eq_some_iff e.1 e.2).mpr stored
  rw [offersUnder, found]
  rfl

theorem ofStore_eq (s : Store) : ofStore s = ofOffers (s.keys.flatMap (offersUnder s)) := by
  rw [← offersOf_eq]
  rfl

/-- Whether an offer that stands in the way of an entry can come from a key: a module as a whole
is its own origin, and everything else has the origin of its key. -/
def sends (e : Entry) (key : String) : Bool :=
  if e.declaration.kind = .moduleAlias then key = e.origin else originOfKey key = e.origin

theorem sends_of_clashes {s : Store}
    (clean : ∀ key r, s.get? key = some r → Clean r.declarations) {key : String}
    {o : String × Entry} (offered : o ∈ offersUnder s key) {e : Entry} (clash : o.2.Clashes e) :
    sends e key = true := by
  unfold offersUnder at offered
  cases found : s.get? key with
  | none => simp [found] at offered
  | some r =>
    rw [found, Option.map_some, Option.getD_some, offers, List.mem_append] at offered
    rw [sends, ← clash.1, ← clash.2]
    rcases offered with whole | owned
    · obtain ⟨name, -, rfl⟩ := Option.map_eq_some_iff.mp (Option.mem_toList.mp whole)
      simp [Declaration.aliasOf]
    · obtain ⟨d, member, rfl⟩ := List.mem_map.mp owned
      have visible := clean key r found d member
      have single : d.kind ≠ .moduleAlias := by
        intro whole
        simp [Declaration.isVisible, Declaration.Kind.exportable, whole] at visible
      simp [single]

theorem find?_flatMap_filter {α β : Type} {p : β → Bool} {q : α → Bool} {f : α → List β}
    {xs : List α} (skip : ∀ x ∈ xs, ∀ y ∈ f x, p y = true → q x = true) :
    (xs.flatMap f).find? p = ((xs.filter q).flatMap f).find? p := by
  induction xs with
  | nil => rfl
  | cons x xs ih =>
    have rest := ih fun x later => skip x (List.mem_cons_of_mem _ later)
    by_cases kept : q x = true
    · rw [List.filter_cons_of_pos kept, List.flatMap_cons, List.flatMap_cons, List.find?_append,
        List.find?_append, rest]
    · have none : (f x).find? p = none := by
        apply List.find?_eq_none.mpr
        intro y member found
        exact kept (skip x List.mem_cons_self y member found)
      rw [List.filter_cons_of_neg kept, List.flatMap_cons, List.find?_append, none, Option.none_or,
        rest]

theorem firstLike_eq {s : Store} (clean : ∀ key r, s.get? key = some r → Clean r.declarations)
    (name : String) (e : Entry) :
    firstLike (s.keys.flatMap (offersUnder s)) name e =
      firstLike ((s.keys.filter (sends e)).flatMap (offersUnder s)) name e := by
  apply find?_flatMap_filter
  intro key _ o offered like
  have clash : o.1 = name ∧ o.2.Clashes e := by simpa using like
  exact sends_of_clashes clean offered clash.2

section Rearranged

variable {s t : Store} (clean : ∀ key r, s.get? key = some r → Clean r.declarations)
  (clean' : ∀ key r, t.get? key = some r → Clean r.declarations)
  (same : ∀ key, offersUnder t key = offersUnder s key) (keys : t.keys.Perm s.keys)

include same keys

theorem contains_congr (name : String) :
    (ofStore t).contains name = (ofStore s).contains name := by
  apply Bool.eq_iff_iff.mpr
  rw [ofStore_eq, ofStore_eq, contains_ofOffers, contains_ofOffers]
  simp only [List.mem_flatMap, same, keys.mem_iff]

include clean clean'

/-- Stores that offer the same, in whatever order, have the same entries listed if the keys of one
origin stand in the same order in both. -/
theorem mem_under_congr (origins : ∀ origin, t.keys.filter (originOfKey · = origin) =
      s.keys.filter (originOfKey · = origin)) (name : String) (e : Entry) :
    e ∈ (ofStore t).under name ↔ e ∈ (ofStore s).under name := by
  have senders : t.keys.filter (sends e) = s.keys.filter (sends e) := by
    unfold sends
    by_cases whole : e.declaration.kind = .moduleAlias
    · simp only [whole, ↓reduceIte, List.filter_eq]
      rw [keys.count_eq]
    · simp only [whole, ↓reduceIte]
      exact origins e.origin
  have offered : offersUnder t = offersUnder s := funext same
  rw [ofStore_eq, ofStore_eq, mem_under_ofOffers, mem_under_ofOffers, firstLike_eq clean',
    firstLike_eq clean, senders, offered]

end Rearranged

end Catalog

theorem Delta.isEmpty_between {old new : Catalog}
    (names : ∀ name, new.contains name = old.contains name)
    (entries : ∀ name e, e ∈ new.under name ↔ e ∈ old.under name) :
    (between old new).isEmpty = true := by
  have known : ∀ (c : Catalog) (e : String × List Entry), e ∈ c.lists.entries →
      c.lists.get? e.1 = some e.2 := fun c e listed => (c.lists.get?_eq_some_iff e.1 e.2).mpr listed
  unfold isEmpty OrderedMap.isEmpty between
  simp only [OrderedMap.filter, Bool.and_eq_true, List.isEmpty_iff, List.filter_eq_nil_iff]
  refine ⟨⟨?_, ?_⟩, ?_⟩
  · intro e listed
    have found : new.contains e.1 = true := by
      unfold Catalog.contains OrderedMap.contains
      rw [known new e listed]
      rfl
    rw [← names, found]
    decide
  · intro e listed changed
    have now := known new e listed
    obtain ⟨before, found, differ⟩ := (Option.any_eq_true _ _).mp changed
    have same : ∀ x, x ∈ e.2 ↔ x ∈ before := by
      intro x
      have both := entries e.1 x
      unfold Catalog.under at both
      change old.lists.get? e.1 = some before at found
      rwa [Catalog.get?, Catalog.get?, now, found] at both
    simp [Delta.differ, same] at differ
  · intro name listed
    have found : old.contains name = true := (old.lists.contains_iff name).mpr listed
    rw [names, found]
    decide

end ExportIndex
