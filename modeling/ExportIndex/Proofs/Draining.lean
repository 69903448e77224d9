import Mathlib.Data.List.Cycle
import ExportIndex.Proofs.Forwarding

/-!
Where every statement exports everything, whatever a key leads to is drained
unless its own turn comes first: the visit of the earlier key follows all
statements on the way, and each resource is emptied as soon as it is settled. In
a ring, where each resource passes on the next, this leaves everything with the
member whose turn comes first: the walk goes round once and comes back to it.
-/
namespace ExportIndex

open Relation

namespace Resolution

variable {l : Layout} {s : Store}

/-- What a visit has achieved that ran along `key :: ks`, where each key passes on the next and
the last one passes on `first`, whose own turn had begun. -/
structure Collected (first key : String) (ks : List String) (a b : Pass) : Prop where
  done : ∀ k ∈ key :: ks, k ∈ b.done
  here : b.owned (.top key) =
    (key :: ks).flatMap (fun k => a.owned (.top k)) ++ a.owned (.top first)
  emptied : ∀ k ∈ ks ++ [first], b.owned (.top k) = []
  others : ∀ k, k ∉ key :: ks → k ≠ first → b.owned (.top k) = a.owned (.top k)

theorem Collected.last {first key : String} {a : Pass} (other : key ≠ first) :
    Collected first key [] a (moveAll first (.top key) (a.mark key)) where
  done k member := by
    rw [List.mem_singleton.mp member]
    exact List.mem_cons_self
  here := by
    rw [owned_moveAll_place (Place.top_ne_top other), List.flatMap_singleton]
    rfl
  emptied k member := by
    rw [List.mem_singleton.mp member]
    exact owned_moveAll_source (Place.top_ne_top other) _
  others k away notFirst := by
    have notKey : k ≠ key := fun eq => away (List.mem_singleton.mpr eq)
    exact owned_moveAll_of_ne (Place.top_ne_top notFirst) (Place.top_ne_top notKey) _

theorem Collected.take {first key next : String} {ks : List String} {a b : Pass}
    (distinct : (first :: key :: next :: ks).Nodup) (marked : key ∈ b.done)
    (collected : Collected first next ks (a.mark key) b) :
    Collected first key (next :: ks) a (moveAll next (.top key) b) := by
  obtain ⟨firstFresh, distinct⟩ := List.nodup_cons.mp distinct
  obtain ⟨keyFresh, -⟩ := List.nodup_cons.mp distinct
  have notFirst : key ≠ first := fun eq => firstFresh (eq ▸ List.mem_cons_self)
  have notNext : key ≠ next := fun eq => keyFresh (eq ▸ List.mem_cons_self)
  have same : b.owned (.top key) = a.owned (.top key) := collected.others key keyFresh notFirst
  constructor
  · intro k member
    rcases List.mem_cons.mp member with rfl | later
    · exact marked
    · exact collected.done k later
  · rw [owned_moveAll_place (Place.top_ne_top notNext), same, collected.here]
    simp only [List.flatMap_cons, List.append_assoc, Pass.owned_mark]
  · intro k member
    by_cases isNext : k = next
    · rw [isNext]
      exact owned_moveAll_source (Place.top_ne_top notNext) b
    · have further : k ∈ ks ++ [first] := (List.mem_cons.mp member).resolve_left isNext
      have notKey : k ≠ key := by
        rintro rfl
        rcases List.mem_append.mp further with later | last
        · exact keyFresh (List.mem_cons_of_mem next later)
        · exact notFirst (List.mem_singleton.mp last)
      rw [owned_moveAll_of_ne (Place.top_ne_top isNext) (Place.top_ne_top notKey)]
      exact collected.emptied k further
  · intro k away other
    obtain ⟨notKey, away⟩ := not_or.mp (away ∘ List.mem_cons.mpr)
    have notNext : k ≠ next := fun eq => away (eq ▸ List.mem_cons_self)
    rw [owned_moveAll_of_ne (Place.top_ne_top notNext) (Place.top_ne_top notKey)]
    exact collected.others k away other

theorem visitWithin_collected {first key : String} {ks : List String} {bound : Nat} {a : Pass}
    (stored : ∀ k ∈ first :: key :: ks, s.contains k = true)
    (chain : List.IsChain (s.Forwards l) (key :: (ks ++ [first])))
    (distinct : (first :: key :: ks).Nodup) (begun : first ∈ a.done)
    (fresh : ∀ k ∈ key :: ks, k ∉ a.done) (enough : ks.length < bound) :
    Collected first key ks a (visitWithin l s bound key a) := by
  induction ks generalizing key bound a with
  | nil =>
    obtain ⟨bound, rfl⟩ : ∃ n, bound = n + 1 := ⟨bound - 1, by simp at enough; omega⟩
    have other : key ≠ first := by
      rintro rfl
      simp at distinct
    have forwards : s.Forwards l key first := by simpa using chain
    have started : first ∈ (a.mark key).done := List.mem_cons_of_mem key begun
    rw [visitWithin_forwards bound forwards (stored first List.mem_cons_self) other
      (fresh key List.mem_cons_self), visitWithin_of_done started]
    exact .last other
  | cons next ks ih =>
    obtain ⟨bound, rfl⟩ : ∃ n, bound = n + 1 := ⟨bound - 1, by simp at enough; omega⟩
    obtain ⟨forwards, rest⟩ := List.isChain_cons_cons.mp chain
    obtain ⟨firstFresh, others⟩ := List.nodup_cons.mp distinct
    obtain ⟨keyFresh, others⟩ := List.nodup_cons.mp others
    have held : s.contains next = true := stored next (by simp)
    have other : key ≠ next := fun eq => keyFresh (eq ▸ List.mem_cons_self)
    have collected : Collected first next ks (a.mark key)
        (visitWithin l s bound next (a.mark key)) := by
      apply ih _ rest
      · exact List.nodup_cons.mpr ⟨firstFresh ∘ List.mem_cons_of_mem key, others⟩
      · exact List.mem_cons_of_mem key begun
      · intro k member marked
        rcases List.mem_cons.mp marked with rfl | early
        · exact keyFresh member
        · exact fresh k (List.mem_cons_of_mem key member) early
      · simpa using enough
      · intro k member
        rcases List.mem_cons.mp member with rfl | later
        · exact stored k List.mem_cons_self
        · exact stored k (List.mem_cons_of_mem first (List.mem_cons_of_mem key later))
    rw [visitWithin_forwards bound forwards held other (fresh key List.mem_cons_self)]
    apply collected.take distinct
    exact done_subset_visitWithin bound next (a.mark key) held List.mem_cons_self

theorem visitWithin_self {key : String} {a : Pass} (bound : Nat) (forwards : s.Forwards l key key)
    (fresh : key ∉ a.done) : visitWithin l s (bound + 1) key a = a.mark key := by
  obtain ⟨r, source, span, stored, only, aim⟩ := forwards
  have skipped : target? l s (.top key) r.path? source = none := by simp [target?, aim]
  rw [visitWithin_succ, enter_of_fresh fresh stored, settle_eq_foldl, only, List.foldl_cons,
    List.foldl_nil, follow, skipped]

/-- The turn of the first member of a ring: the walk goes round and brings everything back, what
it had itself last. -/
theorem visitWithin_ring {first : String} {rest : List String} {bound : Nat} {a : Pass}
    (stored : ∀ k ∈ first :: rest, s.contains k = true)
    (chain : List.IsChain (s.Forwards l) (first :: (rest ++ [first])))
    (distinct : (first :: rest).Nodup) (begun : a.done = []) (enough : rest.length < bound) :
    (∀ k ∈ first :: rest, k ∈ (visitWithin l s bound first a).done) ∧
      (visitWithin l s bound first a).owned (.top first) =
        (rest ++ [first]).flatMap (fun k => a.owned (.top k)) ∧
      ∀ k ∈ rest, (visitWithin l s bound first a).owned (.top k) = [] := by
  obtain ⟨bound, rfl⟩ : ∃ n, bound = n + 1 := ⟨bound - 1, by omega⟩
  have fresh : ∀ k, k ∉ a.done := fun k => begun ▸ List.not_mem_nil
  cases rest with
  | nil =>
    have forwards : s.Forwards l first first := by simpa using chain
    rw [visitWithin_self bound forwards (fresh first)]
    simp
  | cons next ks =>
    obtain ⟨forwards, others⟩ := List.isChain_cons_cons.mp chain
    obtain ⟨firstFresh, apart⟩ := List.nodup_cons.mp distinct
    obtain ⟨nextFresh, -⟩ := List.nodup_cons.mp apart
    have held : s.contains next = true := stored next (by simp)
    have other : first ≠ next := fun eq => firstFresh (eq ▸ List.mem_cons_self)
    have collected : Collected first next ks (a.mark first)
        (visitWithin l s bound next (a.mark first)) := by
      apply visitWithin_collected stored others distinct List.mem_cons_self _
        (by simpa using enough)
      intro k member marked
      rcases List.mem_cons.mp marked with rfl | early
      · exact firstFresh member
      · exact fresh k early
    have marked :=
      done_subset_visitWithin (l := l) bound next (a.mark first) held List.mem_cons_self
    rw [visitWithin_forwards bound forwards held other (fresh first)]
    refine ⟨?_, ?_, ?_⟩
    · intro k member
      rcases List.mem_cons.mp member with rfl | later
      · exact marked
      · exact collected.done k later
    · have given : (visitWithin l s bound next (a.mark first)).owned (.top first) = [] :=
        collected.emptied first (by simp)
      rw [owned_moveAll_place (Place.top_ne_top other), given, collected.here, List.flatMap_append,
        List.flatMap_singleton]
      rfl
    · intro k member
      by_cases isNext : k = next
      · rw [isNext]
        exact owned_moveAll_source (Place.top_ne_top other) _
      · have later : k ∈ ks := (List.mem_cons.mp member).resolve_left isNext
        have notFirst : k ≠ first := fun eq => firstFresh (eq ▸ member)
        rw [owned_moveAll_of_ne (Place.top_ne_top isNext) (Place.top_ne_top notFirst)]
        exact collected.emptied k (List.mem_append_left _ later)

theorem foldl_visit_of_done {ks : List String} {a : Pass} (done : ∀ k ∈ ks, k ∈ a.done) :
    ks.foldl (fun a k => visit l s k a) a = a := by
  apply List.foldlRecOn (motive := (· = a)) ks _ rfl
  intro b same k member
  rw [same]
  exact visitWithin_of_done (done k member)

theorem settleAll_ring {first : String} {rest later : List String}
    (turns : order s = first :: later) (round : ∀ k ∈ later, k ∈ rest)
    (stored : ∀ k ∈ first :: rest, s.contains k = true)
    (chain : List.IsChain (s.Forwards l) (first :: (rest ++ [first])))
    (distinct : (first :: rest).Nodup) {a : Pass} (begun : a.done = []) :
    (settleAll l s a).owned (.top first) =
        (rest ++ [first]).flatMap (fun k => a.owned (.top k)) ∧
      ∀ k ∈ rest, (settleAll l s a).owned (.top k) = [] := by
  have enough : rest.length < s.size := by
    have subset : first :: rest ⊆ s.keys := fun k member =>
      (s.resources.contains_iff k).mp (stored k member)
    have bound := (List.subperm_of_subset distinct subset).length_le
    rwa [s.length_keys, List.length_cons] at bound
  obtain ⟨done, here, emptied⟩ := visitWithin_ring stored chain distinct begun enough
  have settled : settleAll l s a = visit l s first a := by
    rw [settleAll, turns, List.foldl_cons]
    apply foldl_visit_of_done
    exact fun k member => done k (List.mem_cons_of_mem first (round k member))
  rw [settled]
  exact ⟨here, emptied⟩

end Resolution

namespace Store

variable {l : Layout} {s : Store}

/-- Stored resources each of which does nothing but pass on the next, while no other statement
that is carried out names any of them. -/
structure Ring (l : Layout) (s : Store) (ring : Cycle String) : Prop where
  nonempty : ring ≠ .nil
  distinct : ring.Nodup
  forwards : ring.Chain (s.Forwards l)
  alone : ∀ k ∈ ring, ∀ other, other ∉ ring → ¬ s.Refers l other k

theorem exists_rotation {ring : Cycle String} {k : String} (member : k ∈ ring) :
    ∃ rest : List String, ring = (k :: rest : List String) := by
  induction ring using Quotient.inductionOn' with
  | h ks =>
    obtain ⟨before, after, split⟩ := List.append_of_mem member
    refine ⟨after ++ before, ?_⟩
    subst split
    exact Cycle.coe_eq_coe.mpr List.isRotated_append

namespace Ring

def member (ring : Cycle String) (k : String) : Bool := k ∈ ring

variable {ring : Cycle String} (closed : s.Ring l ring)

include closed

theorem next {k : String} (member : k ∈ ring) : ∃ t ∈ ring, s.Forwards l k t := by
  obtain ⟨rest, rfl⟩ := exists_rotation member
  have chain := (Cycle.chain_coe_cons _ _ _).mp closed.forwards
  cases rest with
  | nil => exact ⟨k, member, by simpa using chain⟩
  | cons t rest => exact ⟨t, by simp, (List.isChain_cons_cons.mp chain).1⟩

theorem contains {k : String} (member : k ∈ ring) : s.contains k = true := by
  obtain ⟨t, -, forwards⟩ := closed.next member
  exact forwards.contains

theorem apart (k target : String) (refers : s.Refers l k target) :
    member ring k = member ring target := by
  unfold member
  by_cases inside : k ∈ ring
  · obtain ⟨t, also, forwards⟩ := closed.next inside
    rw [forwards.eq_of_refers refers]
    simp [inside, also]
  · have outside : target ∉ ring := fun also => closed.alone target also k inside refers
    simp [inside, outside]

theorem settled_restrict {first : String} {rest before after : List String}
    (rotated : ring = (first :: rest : List String))
    (split : Resolution.order s = before ++ first :: after) (early : ∀ k ∈ before, k ∉ ring) :
    let part := s.restrict (member ring)
    (part.settled l).owned (.top first) =
        (rest ++ [first]).flatMap (fun k => part.start.owned (.top k)) ∧
      ∀ k ∈ rest, (part.settled l).owned (.top k) = [] := by
  intro part
  have listed : ∀ k, k ∈ first :: rest ↔ member ring k = true := by
    intro k
    rw [member, decide_eq_true_iff, rotated]
    exact Cycle.mem_coe_iff.symm
  have distinct : (first :: rest).Nodup := by
    have whole := closed.distinct
    rwa [rotated, Cycle.nodup_coe_iff] at whole
  have stored : ∀ k ∈ first :: rest, part.retained.contains k = true := by
    intro k inside
    rw [contains_retained_restrict ((listed k).mp inside)]
    exact closed.contains (of_decide_eq_true ((listed k).mp inside))
  have chain : List.IsChain (part.retained.Forwards l) (first :: (rest ++ [first])) := by
    have whole := closed.forwards
    rw [rotated, Cycle.chain_coe_cons] at whole
    apply whole.imp_of_mem_imp
    intro k t inside _ forwards
    exact forwards.restrict ((listed k).mp (by simpa [or_comm] using inside))
  have turns : Resolution.order part.retained = first :: after.filter (member ring) := by
    have none : before.filter (member ring) = [] := by simpa [member] using early
    rw [order_retained_restrict, split, List.filter_append, none,
      List.filter_cons_of_pos ((listed first).mp List.mem_cons_self), List.nil_append]
  apply Resolution.settleAll_ring turns _ stored chain distinct rfl
  intro k later
  obtain ⟨turn, inside⟩ := List.mem_filter.mp later
  have other : k ≠ first := by
    rintro rfl
    exact (precedes_of_mem_after split turn).asymm (precedes_of_mem_after split turn)
  exact (List.mem_cons.mp ((listed k).mpr inside)).resolve_left other

theorem collects : ∃ (first : String) (rest : List String), ring = (first :: rest : List String) ∧
    (∀ k ∈ rest, s.Precedes first k) ∧
    ((s.resolve l).get? first).map Resource.declarations =
      some ((rest ++ [first]).flatMap fun k => s.retained.owned (.top k)) ∧
    ∀ k ∈ rest, ((s.resolve l).get? k).map Resource.declarations = some [] := by
  obtain ⟨ks, listed⟩ := Quotient.exists_rep ring
  have known : ∀ k, k ∈ ring ↔ k ∈ ks := fun k => listed ▸ Cycle.mem_coe_iff
  have nonempty : ks ≠ [] := by
    rintro rfl
    exact closed.nonempty listed.symm
  have held : ∀ k ∈ ks, s.contains k = true := fun k inside =>
    closed.contains ((known k).mpr inside)
  obtain ⟨first, inside, precedes, before, after, split, early⟩ := exists_first nonempty held
  obtain ⟨rest, rotated⟩ := exists_rotation ((known first).mpr inside)
  have round : ∀ k ∈ first :: rest, k ∈ ring := fun k also => by
    rw [rotated]
    exact also
  have distinct : first ∉ rest := by
    have whole := closed.distinct
    rw [rotated, Cycle.nodup_coe_iff] at whole
    exact (List.nodup_cons.mp whole).1
  obtain ⟨here, emptied⟩ := closed.settled_restrict rotated split fun k turn also =>
    early k turn ((known k).mp also)
  have owned : ∀ k ∈ first :: rest, ((s.resolve l).get? k).map Resource.declarations =
      some (((s.restrict (member ring)).settled l).owned (.top k)) := fun k also =>
    declarations_resolve_part closed.apart (decide_eq_true (round k also))
      (closed.contains (round k also))
  refine ⟨first, rest, rotated, ?_, ?_, ?_⟩
  · intro k later
    have also := (known k).mp (round k (List.mem_cons_of_mem first later))
    exact precedes k also fun eq => distinct (eq ▸ later)
  · rw [owned first List.mem_cons_self, here]
    apply congrArg some
    apply List.flatMap_congr
    intro k later
    exact start_restrict (decide_eq_true (round k (by simpa [or_comm] using later)))
  · intro k later
    rw [owned k (List.mem_cons_of_mem first later), emptied k later]

end Ring

theorem OnlyAll.drained (only : s.OnlyAll) {earlier key : String}
    (precedes : s.Precedes earlier key) (leads : TransGen (s.Refers l) earlier key) :
    ((s.resolve l).get? key).map Resource.declarations = some [] := by
  obtain ⟨last, -, refers⟩ := TransGen.tail'_iff.mp leads
  obtain ⟨r, stored⟩ := contains_iff_exists.mp refers.contains.2
  have follows : TransGen (s.Draws l) earlier key := by
    rcases reflTransGen_iff_eq_or_transGen.mp
      (only.reaches_of_refers leads.to_reflTransGen) with rfl | follows
    · exact absurd precedes precedes.asymm
    · exact follows
  rw [get?_resolve l stored]
  exact congrArg some ((Resource.declarations_withOwned _ _ r).trans
    (settled_nil_of_precedes only precedes follows))

end Store

/-- What an earlier key leads to is drained. Where all statements of the stored resources export
everything, a resource owns nothing after resolution if a key whose turn comes before its own
leads to it. In a ring, whatever else the store holds, everything that the members make visible
ends up with the one whose turn comes first, in the order of the ring and its own last. -/
theorem resolve_drains_reached {l : Layout} {s : Store} :
    (s.OnlyAll → ∀ earlier key, s.Precedes earlier key → TransGen (s.Refers l) earlier key →
      ((s.resolve l).get? key).map Resource.declarations = some []) ∧
    ∀ ring, s.Ring l ring →
      ∃ (first : String) (rest : List String), ring = (first :: rest : List String) ∧
        (∀ k ∈ rest, s.Precedes first k) ∧
        ((s.resolve l).get? first).map Resource.declarations =
          some ((rest ++ [first]).flatMap fun k => s.retained.owned (.top k)) ∧
        ∀ k ∈ rest, ((s.resolve l).get? k).map Resource.declarations = some [] :=
  ⟨fun only _ _ precedes leads => only.drained precedes leads, fun _ closed => closed.collects⟩

section Sample

instance (e : Export) : Decidable (∃ source span, e = .all source span) :=
  match e with
  | .all source span => .isTrue ⟨source, span, rfl⟩
  | .named _ _ _ => .isFalse nofun
  | .assigned _ _ => .isFalse nofun

instance (s : Store) : Decidable s.OnlyAll :=
  decidable_of_iff
    (∀ e ∈ s.resources.entries, ∀ x ∈ e.2.exports, ∃ source span, x = .all source span)
    ⟨fun only key r stored => only (key, r) ((s.resources.get?_eq_some_iff key r).mp stored),
      fun only e stored => only e.1 e.2 ((s.resources.get?_eq_some_iff e.1 e.2).mpr stored)⟩

def web : Store :=
  modules [("x", ["A"], [.all "yy" none]), ("yy", ["B"], [.all "zzz" none]),
    ("zzz", ["C"], [.all "x" none]), ("end", ["E"], [.all "end" none]),
    ("rt", [], [.all "end" none]), ("lft", ["L"], [.all "end" none, .all "gone" none]),
    ("hubs", [], [.all "lft" none, .all "rt" none])]

theorem web_ring : web.Ring { root := "/ws" } (["x", "yy", "zzz"] : List String) := by
  have named : ∀ k ∈ ["x", "yy", "zzz"], ∀ other ∈ web.keys, other ∉ ["x", "yy", "zzz"] →
      ¬ web.Refers { root := "/ws" } other k := by
    decide +kernel
  constructor
  · simp
  · decide
  · rw [Cycle.chain_coe_cons]
    exact .cons_cons ⟨_, _, _, rfl, rfl, rfl⟩ (.cons_cons ⟨_, _, _, rfl, rfl, rfl⟩
      (.cons_cons ⟨_, _, _, rfl, rfl, rfl⟩ (.singleton _)))
  · intro k member other away refers
    have stored : other ∈ web.keys := (web.resources.contains_iff other).mp refers.contains.1
    exact named k member other stored away refers

theorem web_drained :
    web.OnlyAll ∧ web.Precedes "hubs" "end" ∧
    TransGen (web.Refers { root := "/ws" }) "hubs" "end" ∧
    ((web.resolve { root := "/ws" }).get? "end").map Resource.declarations = some [] ∧
    web.Ring { root := "/ws" } (["x", "yy", "zzz"] : List String) ∧
    ((web.resolve { root := "/ws" }).get? "zzz").map Resource.declarations =
      some [exportedClass "A", exportedClass "B", exportedClass "C"] := by
  have only : web.OnlyAll := by decide +kernel
  have precedes : web.Precedes "hubs" "end" := by decide +kernel
  have near : web.Refers { root := "/ws" } "hubs" "lft" := by decide +kernel
  have far : web.Refers { root := "/ws" } "lft" "end" := by decide +kernel
  have leads := TransGen.tail (.single near) far
  obtain ⟨drained, collected⟩ := resolve_drains_reached (l := { root := "/ws" }) (s := web)
  obtain ⟨first, rest, rotated, before, owned, -⟩ := collected _ web_ring
  refine ⟨only, precedes, leads, drained only _ _ precedes leads, web_ring, ?_⟩
  -- the ring starts with the longest key
  have turned : first :: rest = ["zzz", "x", "yy"] := by
    obtain ⟨n, bound, same⟩ := List.isRotated_iff_mod.mp (Cycle.coe_eq_coe.mp rotated)
    match n, bound with
    | 0, _ | 3, _ =>
      obtain ⟨rfl, rfl⟩ : "x" = first ∧ ["yy", "zzz"] = rest := List.cons.inj same
      exact absurd (before "zzz" (by decide)) (by decide +kernel)
    | 1, _ =>
      obtain ⟨rfl, rfl⟩ : "yy" = first ∧ ["zzz", "x"] = rest := List.cons.inj same
      exact absurd (before "zzz" (by decide)) (by decide +kernel)
    | 2, _ => exact same.symm
  obtain ⟨rfl, rfl⟩ := List.cons.inj turned
  rw [owned]
  decide +kernel

end Sample

end ExportIndex
