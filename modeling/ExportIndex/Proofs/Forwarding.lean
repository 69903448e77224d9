import ExportIndex.Proofs.Collapse
import ExportIndex.Proofs.Locality

/-!
Stored resources that only pass on what another one has. The turn of such a
resource moves everything from the other one to it, and nothing else happens.
Where no other statement touches the resources in question, they can be looked at
apart from the rest of the store. So when several of them pass on the same one,
the first to have its turn gets everything and leaves nothing to the others.
-/
namespace ExportIndex

theorem Place.top_ne_top {k key : String} (other : k ≠ key) : top k ≠ top key :=
  fun eq => other (congrArg Place.key eq)

namespace Store

variable {l : Layout} {s : Store} {key target : String}

/-- Whether all that a stored resource states is to export everything of another one. -/
def Forwards (l : Layout) (s : Store) (key target : String) : Prop :=
  ∃ r source span, s.get? key = some r ∧ r.exports = [.all source span] ∧
    l.targetKey r.path? source = target

theorem Forwards.contains (forwards : s.Forwards l key target) : s.contains key = true := by
  obtain ⟨r, -, -, stored, -⟩ := forwards
  exact contains_iff_exists.mpr ⟨r, stored⟩

theorem refers_iff : s.Refers l key target ↔ ∃ site ∈ s.sites, site.1.key = key ∧
    target ∈ targets l site.2 ∧ s.contains target = true := by
  constructor
  · intro ⟨p, r, live, own, listed, held⟩
    exact ⟨(p, r), mem_sites_iff.mpr live, own, listed, held⟩
  · intro ⟨site, member, own, listed, held⟩
    exact ⟨site.1, site.2, mem_sites_iff.mp member, own, listed, held⟩

instance (l : Layout) (s : Store) (key target : String) : Decidable (s.Refers l key target) :=
  decidable_of_iff _ refers_iff.symm

theorem Refers.contains (refers : s.Refers l key target) :
    s.contains key = true ∧ s.contains target = true := by
  obtain ⟨p, r, live, rfl, -, held⟩ := refers
  exact ⟨live.contains_key, held⟩

theorem Live.eq_of_unassigned {r inner : Resource} {p : Place} (live : s.Live p inner)
    (stored : s.get? p.key = some r) (unassigned : r.assignedNames = []) : inner = r := by
  induction live with
  | stored found => exact Option.some.inj (found.symm.trans stored)
  | inside outer assigned ih =>
    obtain rfl := ih stored
    obtain ⟨-, name, -, listed⟩ := assigned
    rw [unassigned] at listed
    cases listed

theorem Refers.mem_targets {r : Resource} (refers : s.Refers l key target)
    (stored : s.get? key = some r) (unassigned : r.assignedNames = []) :
    target ∈ targets l r := by
  obtain ⟨p, inner, live, rfl, listed, -⟩ := refers
  rwa [live.eq_of_unassigned stored unassigned] at listed

theorem Forwards.eq_of_refers {other : String} (forwards : s.Forwards l key target)
    (refers : s.Refers l key other) : other = target := by
  obtain ⟨r, source, span, stored, only, aim⟩ := forwards
  have unassigned : r.assignedNames = [] := by
    simp [Resource.assignedNames, only, Export.assigned?]
  have listed := refers.mem_targets stored unassigned
  rw [targets, only] at listed
  exact (List.mem_singleton.mp listed).trans aim

theorem not_refers_of_plain {r : Resource} (stored : s.get? key = some r) (plain : r.exports = []) :
    ¬ s.Refers l key target := by
  intro refers
  have listed := refers.mem_targets stored (by simp [Resource.assignedNames, plain])
  rw [targets, plain] at listed
  cases listed

section Part

variable {part : String → Bool}

theorem contains_retained_restrict (inside : part key = true) :
    (s.restrict part).retained.contains key = s.contains key := by
  rw [Resolution.contains_inside get?_retained_restrict inside, contains_retained]

theorem inside_of_contains (held : (s.restrict part).retained.contains key = true) :
    part key = true := by
  obtain ⟨r, stored⟩ := contains_iff_exists.mp held
  rw [get?_retained_restrict] at stored
  by_contra outside
  rw [if_neg outside] at stored
  cases stored

theorem start_restrict (inside : part key = true) :
    (s.restrict part).start.owned (.top key) = s.retained.owned (.top key) := by
  simp only [start, owned, get?_retained_restrict, Place.key_top, inside, ↓reduceIte]

theorem order_retained_restrict :
    Resolution.order (s.restrict part).retained = (Resolution.order s).filter part := by
  rw [Resolution.order_retained, order_restrict]

theorem declarations_resolve_part
    (apart : ∀ key target, s.Refers l key target → part key = part target)
    (inside : part key = true) (held : s.contains key = true) :
    ((s.resolve l).get? key).map Resource.declarations =
      some (((s.restrict part).settled l).owned (.top key)) := by
  obtain ⟨r, stored⟩ := contains_iff_exists.mp held
  have same : ((s.restrict part).settled l).owned (.top key) = (s.settled l).owned (.top key) :=
    (settled_restrict apart).owned inside
  rw [get?_resolve l stored, same]
  exact congrArg some (Resource.declarations_withOwned _ _ r)

theorem Forwards.restrict (forwards : s.Forwards l key target) (inside : part key = true) :
    (s.restrict part).retained.Forwards l key target := by
  obtain ⟨r, source, span, stored, only, aim⟩ := forwards
  refine ⟨r.retained, source, span, ?_, only, aim⟩
  rw [get?_retained_restrict, if_pos inside, get?_retained, stored]
  rfl

end Part

theorem exists_first {keys : List String} (nonempty : keys ≠ [])
    (stored : ∀ k ∈ keys, s.contains k = true) :
    ∃ first ∈ keys, (∀ k ∈ keys, k ≠ first → s.Precedes first k) ∧
      ∃ before after, Resolution.order s = before ++ first :: after ∧ ∀ k ∈ before, k ∉ keys := by
  obtain ⟨some, member⟩ := List.exists_mem_of_ne_nil keys nonempty
  have present : ((Resolution.order s).find? (· ∈ keys)).isSome := by
    rw [List.find?_isSome]
    exact ⟨some, Resolution.mem_order.mpr (stored some member), by simpa using member⟩
  obtain ⟨first, found⟩ := Option.isSome_iff_exists.mp present
  obtain ⟨listed, before, after, split, none⟩ := List.find?_eq_some_iff_append.mp found
  have earlier : ∀ k ∈ before, k ∉ keys := fun k early => by simpa using none k early
  refine ⟨first, by simpa using listed, ?_, before, after, split, earlier⟩
  intro k also other
  have turn : k ∈ Resolution.order s := Resolution.mem_order.mpr (stored k also)
  rw [split] at turn
  rcases List.mem_append.mp turn with early | late
  · exact absurd also (earlier k early)
  · exact precedes_of_mem_after split ((List.mem_cons.mp late).resolve_left other)

end Store

namespace Resolution

variable {l : Layout} {s : Store} {key target : String}

theorem visitWithin_forwards {a : Pass} (bound : Nat) (forwards : s.Forwards l key target)
    (held : s.contains target = true) (other : key ≠ target) (fresh : key ∉ a.done) :
    visitWithin l s (bound + 1) key a =
      moveAll target (.top key) (visitWithin l s bound target (a.mark key)) := by
  obtain ⟨r, source, span, stored, only, aim⟩ := forwards
  have found : target? l s (.top key) r.path? source = some target :=
    target?_eq_some_iff.mpr ⟨aim, Place.top_ne_top other, held⟩
  rw [visitWithin_succ, enter_of_fresh fresh stored, settle_eq_foldl, only, List.foldl_cons,
    List.foldl_nil, follow, found]

theorem exists_size {key : String} (held : s.contains key = true) : ∃ n, s.size = n + 1 := by
  have member : key ∈ s.keys := (s.resources.contains_iff key).mp held
  have positive := List.length_pos_of_mem member
  rw [s.length_keys] at positive
  exact ⟨s.size - 1, by omega⟩

section Contest

variable {r : Resource} (stored : s.get? key = some r) (plain : r.exports = [])

include stored plain

theorem visitWithin_plain (bound : Nat) (a : Pass) :
    (visitWithin l s bound key a).owned = a.owned ∧
      (visitWithin l s bound key a).done ⊆ key :: a.done := by
  cases bound with
  | zero => exact ⟨rfl, List.subset_cons_self key a.done⟩
  | succ bound =>
    by_cases early : key ∈ a.done
    · rw [visitWithin_of_done early]
      exact ⟨rfl, List.subset_cons_self key a.done⟩
    · rw [visitWithin_succ, enter_of_fresh early stored, settle_eq_foldl, plain, List.foldl_nil]
      exact ⟨rfl, List.Subset.refl _⟩

theorem visit_contender {k : String} {a : Pass} (forwards : s.Forwards l k key)
    (other : k ≠ key) (fresh : k ∉ a.done) :
    (visit l s k a).owned (.top k) = a.owned (.top k) ++ a.owned (.top key) ∧
      (visit l s k a).owned (.top key) = [] ∧
      ∀ p, p ≠ .top k → p ≠ .top key → (visit l s k a).owned p = a.owned p := by
  have held := Store.contains_iff_exists.mpr ⟨r, stored⟩
  have apart : Place.top k ≠ .top key := Place.top_ne_top other
  obtain ⟨n, size⟩ := exists_size held
  have same : (visitWithin l s n key (a.mark k)).owned = a.owned :=
    (visitWithin_plain stored plain n (a.mark k)).1
  rw [visit, size, visitWithin_forwards n forwards held other fresh]
  refine ⟨?_, owned_moveAll_source apart _, ?_⟩
  · rw [owned_moveAll_place apart, same]
  · intro p notTaker notSource
    rw [owned_moveAll_of_ne notSource notTaker, same]

variable (contest : ∀ k, s.contains k = true → k ≠ key → s.Forwards l k key)

include contest

theorem owned_visit_of_empty {k : String} {a : Pass} (held : s.contains k = true)
    (empty : a.owned (.top key) = []) : (visit l s k a).owned = a.owned := by
  by_cases same : k = key
  · rw [same]
    exact (visitWithin_plain stored plain s.size a).1
  · by_cases early : k ∈ a.done
    · rw [visit, visitWithin_of_done early]
    · obtain ⟨taker, source, others⟩ :=
        visit_contender stored plain (contest k held same) same early
      funext p
      by_cases isTaker : p = .top k
      · rw [isTaker, taker, empty, List.append_nil]
      · by_cases isSource : p = .top key
        · rw [isSource, source, empty]
        · exact others p isTaker isSource

theorem settleAll_contest {first : String} {before after : List String}
    (turns : order s = before ++ first :: after) (early : ∀ k ∈ before, k = key)
    (other : first ≠ key) {a : Pass} (begun : a.done = []) :
    (settleAll l s a).owned (.top first) = a.owned (.top first) ++ a.owned (.top key) ∧
      (settleAll l s a).owned (.top key) = [] ∧
      ∀ p, p ≠ .top first → p ≠ .top key → (settleAll l s a).owned p = a.owned p := by
  have present : ∀ k ∈ first :: after, s.contains k = true := fun k member =>
    mem_order.mp (turns ▸ List.mem_append_right before member)
  -- before the turn of the first contender nothing moves
  have waiting : (before.foldl (fun a k => visit l s k a) a).owned = a.owned ∧
      (before.foldl (fun a k => visit l s k a) a).done ⊆ [key] := by
    refine List.foldlRecOn (motive := fun b : Pass => b.owned = a.owned ∧ b.done ⊆ [key]) before _
      ⟨rfl, by simp [begun]⟩ ?_
    intro b ⟨owned, done⟩ k member
    obtain ⟨same, marked⟩ := visitWithin_plain (l := l) stored plain s.size b
    rw [early k member]
    refine ⟨same.trans owned, fun j late => ?_⟩
    rcases List.mem_cons.mp (marked late) with rfl | known
    · exact List.mem_singleton_self j
    · exact done known
  rw [settleAll, turns, List.foldl_append, List.foldl_cons]
  generalize before.foldl _ a = b at waiting ⊢
  obtain ⟨owned, done⟩ := waiting
  have fresh : first ∉ b.done := fun late => other (List.mem_singleton.mp (done late))
  have forwards := contest first (present first List.mem_cons_self) other
  obtain ⟨taker, source, others⟩ := visit_contender stored plain forwards other fresh
  have rest : (after.foldl (fun a k => visit l s k a) (visit l s first b)).owned =
      (visit l s first b).owned := by
    refine List.foldlRecOn (motive := fun c : Pass => c.owned = (visit l s first b).owned) after _
      rfl ?_
    intro c same k member
    have empty : c.owned (.top key) = [] := by rw [same, source]
    have held := present k (List.mem_cons_of_mem first member)
    rw [owned_visit_of_empty stored plain contest held empty, same]
  rw [rest, taker, source, owned]
  refine ⟨rfl, rfl, fun p notTaker notSource => ?_⟩
  rw [others p notTaker notSource, owned]

end Contest

end Resolution

namespace Store

/-- Several stored resources do nothing but pass on everything of one that has no statements, and
no other statement that is carried out names any of them or that one. -/
structure Contest (l : Layout) (s : Store) (shared : String) (rivals : List String) : Prop where
  plain : ∃ r, s.get? shared = some r ∧ r.exports = []
  nonempty : rivals ≠ []
  forwards : ∀ k ∈ rivals, k ≠ shared ∧ s.Forwards l k shared
  unnamed : ∀ k ∈ rivals, ∀ other, ¬ s.Refers l other k
  alone : ∀ other, other ∉ rivals → ¬ s.Refers l other shared

namespace Contest

variable {l : Layout} {s : Store} {shared : String} {rivals : List String}

def among (shared : String) (rivals : List String) (k : String) : Bool := k ∈ shared :: rivals

theorem among_shared (shared : String) (rivals : List String) :
    among shared rivals shared = true := by
  simp [among]

theorem among_rival (shared : String) {rivals : List String} {k : String} (member : k ∈ rivals) :
    among shared rivals k = true := by
  simp [among, member]

variable (contest : s.Contest l shared rivals)

include contest

theorem contains_rival {k : String} (member : k ∈ rivals) : s.contains k = true :=
  (contest.forwards k member).2.contains

theorem contains_shared : s.contains shared = true := by
  obtain ⟨r, stored, -⟩ := contest.plain
  exact contains_iff_exists.mpr ⟨r, stored⟩

theorem apart (k target : String) (refers : s.Refers l k target) :
    among shared rivals k = among shared rivals target := by
  obtain ⟨r, stored, plain⟩ := contest.plain
  by_cases member : k ∈ rivals
  · rw [(contest.forwards k member).2.eq_of_refers refers, among_rival shared member, among_shared]
  · have notShared : k ≠ shared := by
      rintro rfl
      exact not_refers_of_plain stored plain refers
    have notAim : target ≠ shared := by
      rintro rfl
      exact contest.alone k member refers
    have notRival : target ∉ rivals := fun also => contest.unnamed target also k refers
    simp [among, member, notShared, notAim, notRival]

theorem settled_restrict {winner : String} {before after : List String} (member : winner ∈ rivals)
    (split : Resolution.order s = before ++ winner :: after)
    (early : ∀ k ∈ before, k ∉ rivals) :
    let part := s.restrict (among shared rivals)
    (part.settled l).owned (.top winner) =
        part.start.owned (.top winner) ++ part.start.owned (.top shared) ∧
      (part.settled l).owned (.top shared) = [] ∧
      ∀ p, p ≠ .top winner → p ≠ .top shared → (part.settled l).owned p = part.start.owned p := by
  intro part
  obtain ⟨r, stored, plain⟩ := contest.plain
  have kept : part.retained.get? shared = some r.retained := by
    rw [get?_retained_restrict, if_pos (among_shared shared rivals), get?_retained, stored]
    rfl
  have forwards : ∀ k, part.retained.contains k = true → k ≠ shared →
      part.retained.Forwards l k shared := by
    intro k present other
    have inside := inside_of_contains present
    have also : k ∈ rivals := by simpa [among, other] using inside
    exact (contest.forwards k also).2.restrict inside
  have turns : Resolution.order part.retained =
      before.filter (among shared rivals) ++ winner :: after.filter (among shared rivals) := by
    rw [order_retained_restrict, split, List.filter_append,
      List.filter_cons_of_pos (among_rival shared member)]
  apply Resolution.settleAll_contest kept plain forwards turns _ (contest.forwards winner member).1
    rfl
  intro k listed
  obtain ⟨earlier, inside⟩ := List.mem_filter.mp listed
  simpa [among, early k earlier] using inside

end Contest

end Store

/-- The longest key wins. Among stored resources that do nothing but pass on the same one, the one
with the longest key, and among those the one that arrived first, ends with what it makes visible
itself, followed by what the shared resource makes visible. The others keep what they make visible
themselves, and the shared resource is left with nothing. -/
theorem resolve_settles_contest {l : Layout} {s : Store} {shared : String} {rivals : List String}
    (contest : s.Contest l shared rivals) :
    ∃ winner ∈ rivals, (∀ k ∈ rivals, k ≠ winner → s.Precedes winner k) ∧
      ((s.resolve l).get? winner).map Resource.declarations =
        some (s.retained.owned (.top winner) ++ s.retained.owned (.top shared)) ∧
      (∀ k ∈ rivals, k ≠ winner →
        ((s.resolve l).get? k).map Resource.declarations = some (s.retained.owned (.top k))) ∧
      ((s.resolve l).get? shared).map Resource.declarations = some [] := by
  have inside := Store.Contest.among_shared shared rivals
  have held : ∀ k ∈ rivals, s.contains k = true := fun k member => contest.contains_rival member
  obtain ⟨winner, member, first, before, after, split, early⟩ :=
    Store.exists_first contest.nonempty held
  obtain ⟨taker, source, others⟩ := contest.settled_restrict member split early
  refine ⟨winner, member, first, ?_, ?_, ?_⟩
  · have taking := Store.Contest.among_rival shared member
    rw [Store.declarations_resolve_part contest.apart taking (held winner member), taker,
      Store.start_restrict taking, Store.start_restrict inside]
  · intro k also other
    have waiting := Store.Contest.among_rival shared also
    have notWinner : Place.top k ≠ .top winner := Place.top_ne_top other
    have notShared : Place.top k ≠ .top shared := Place.top_ne_top (contest.forwards k also).1
    rw [Store.declarations_resolve_part contest.apart waiting (held k also),
      others _ notWinner notShared, Store.start_restrict waiting]
  · rw [Store.declarations_resolve_part contest.apart inside contest.contains_shared, source]

section Sample

def modules (entries : List (String × List String × List Export)) : Store :=
  entries.foldl (fun s e => s.set e.1 (declared e.1 e.2.1 e.2.2)) .empty

def crowded : Store :=
  modules [("c", ["C"], [.all "shared" none]), ("😀", ["E"], [.all "shared" none]),
    ("shared", ["Thing", "Other"], []), ("ab", [], [.all "shared" none]),
    ("loop", ["X"], [.all "pool" none]), ("pool", ["Y"], [.named (some "loop") [] none])]

theorem crowded_contest : crowded.Contest { root := "/ws" } "shared" ["c", "ab", "😀"] := by
  have named : ∀ other ∈ crowded.keys,
      (∀ k ∈ ["c", "ab", "😀"], ¬ crowded.Refers { root := "/ws" } other k) ∧
        (other ∉ ["c", "ab", "😀"] → ¬ crowded.Refers { root := "/ws" } other "shared") := by
    decide +kernel
  have stored : ∀ {other k}, crowded.Refers { root := "/ws" } other k → other ∈ crowded.keys :=
    fun refers => (crowded.resources.contains_iff _).mp refers.contains.1
  constructor
  · exact ⟨_, rfl, rfl⟩
  · decide
  · intro k member
    simp only [List.mem_cons, List.not_mem_nil, or_false] at member
    rcases member with rfl | rfl | rfl
    · exact ⟨by decide, _, _, _, rfl, rfl, rfl⟩
    · exact ⟨by decide, _, _, _, rfl, rfl, rfl⟩
    · exact ⟨by decide, _, _, _, rfl, rfl, rfl⟩
  · exact fun k member other refers => (named other (stored refers)).1 k member refers
  · exact fun other away refers => (named other (stored refers)).2 away refers

theorem crowded_settled :
    crowded.Contest { root := "/ws" } "shared" ["c", "ab", "😀"] ∧
    crowded.Precedes "😀" "ab" ∧ crowded.Precedes "😀" "c" ∧
    ((crowded.resolve { root := "/ws" }).get? "😀").map Resource.declarations =
      some [exportedClass "E", exportedClass "Thing", exportedClass "Other"] ∧
    ((crowded.resolve { root := "/ws" }).get? "ab").map Resource.declarations = some [] ∧
    ((crowded.resolve { root := "/ws" }).get? "c").map Resource.declarations =
      some [exportedClass "C"] ∧
    ((crowded.resolve { root := "/ws" }).get? "shared").map Resource.declarations = some [] := by
  obtain ⟨winner, member, first, taker, others, shared⟩ := resolve_settles_contest crowded_contest
  have won : winner = "😀" := by
    simp only [List.mem_cons, List.not_mem_nil, or_false] at member
    rcases member with rfl | rfl | rfl
    · exact absurd (first "😀" (by decide) (by decide)) (by decide +kernel)
    · exact absurd (first "😀" (by decide) (by decide)) (by decide +kernel)
    · rfl
  subst won
  rw [taker, others "ab" (by decide) (by decide), others "c" (by decide) (by decide)]
  exact ⟨crowded_contest, first "ab" (by decide) (by decide), first "c" (by decide) (by decide),
    by decide +kernel, by decide +kernel, by decide +kernel, shared⟩

end Sample

end ExportIndex
