import ExportIndex.Json.Codec
import ExportIndex.Proofs.Attribution

/-!
Writers and readers of the data format that belong together. What is written is
read back, and the order of the fields of an object decides nothing but the order
of names in what is read. What is read from any value is written again in a tidy
form that the value alone determines: the fields that belong to a record, each in
its place, and nothing else. The laws are put together as the values are: items
of a list, names of a map, fields of a record.
-/
namespace ExportIndex

namespace OrderedMap

variable {κ α : Type} [DecidableEq κ]

theorem put_of_notMem {k : κ} {es : List (κ × α)} (absent : k ∉ es.map Prod.fst) (a : α) :
    put k a es = es ++ [(k, a)] := by
  induction es with
  | nil => rfl
  | cons e es ih =>
    simp only [List.map_cons, List.mem_cons, not_or] at absent
    rw [put, if_neg (Ne.symm absent.1), ih absent.2, List.cons_append]

theorem entries_ofList {es : List (κ × α)} (names : (es.map Prod.fst).Nodup) :
    (ofList es).entries = es := by
  induction es using List.reverseRecOn with
  | nil => rfl
  | append_singleton front last ih =>
    rw [List.map_append, List.map_singleton] at names
    obtain ⟨before, -, apart⟩ := List.nodup_append.mp names
    have absent : last.1 ∉ front.map Prod.fst := fun member =>
      apart _ member _ List.mem_cons_self rfl
    rw [ofList_append_singleton]
    change put last.1 last.2 (ofList front).entries = _
    rw [ih before, put_of_notMem absent]

theorem get?_ofList {es : List (κ × α)} (names : (es.map Prod.fst).Nodup) (k : κ) :
    (ofList es).get? k = find k es := by
  rw [get?, entries_ofList names]

end OrderedMap

namespace Json

/-- Values whose objects have no name twice, at any depth. -/
inductive Distinct : Json → Prop
  | null : Distinct .null
  | bool (value : Bool) : Distinct (.bool value)
  | number (digits : Int) (places : Nat) : Distinct (.number digits places)
  | text (value : String) : Distinct (.text value)
  | list {items : List Json} (each : ∀ j ∈ items, Distinct j) : Distinct (.list items)
  | object {fields : List (String × Json)} (names : (fields.map Prod.fst).Nodup)
      (each : ∀ f ∈ fields, Distinct f.2) : Distinct (.object fields)

/-- Values that differ at most in the order of fields, at any depth. -/
inductive Same : Json → Json → Prop
  -- all that is not made of other values is the same as itself only
  | refl (j : Json) : Same j j
  | list {xs ys : List Json} (items : List.Forall₂ Same xs ys) : Same (.list xs) (.list ys)
  | object {fs gs : List (String × Json)} (names : (fs.map Prod.fst).Perm (gs.map Prod.fst))
      (values : ∀ name x y, field? name fs = some x → field? name gs = some y → Same x y) :
      Same (.object fs) (.object gs)

def isText : Json → Bool
  | .text _ => true
  | _ => false

def isFlag : Json → Bool
  | .bool _ => true
  | _ => false

def isOffset : Json → Bool
  | .number digits 0 => 0 ≤ digits && digits < 4294967296
  | _ => false

def keep (suits : Json → Bool) (j : Json) : Option Json := if suits j then some j else none

def tidyOptional (tidy? : Json → Option Json) : Json → Option Json
  | .null => some .null
  | j => tidy? j

def tidyItems (tidy? : Json → Option Json) : Json → Option Json
  | .list items => (items.mapM tidy?).map .list
  | _ => none

def tidyNamed (tidy? : Json → Option Json) : Json → Option Json
  | .object fields => (fields.mapM fun f => (tidy? f.2).map (f.1, ·)).map .object
  | _ => none

/-- A field of a record: its name, and what is written for it by what stands there. -/
structure Slot where
  name : String
  fill? : Option Json → Option Json

def Slot.required (name : String) (tidy? : Json → Option Json) : Slot := ⟨name, (·.bind tidy?)⟩

def Slot.usually (name : String) (usual : Json) (tidy? : Json → Option Json) : Slot :=
  ⟨name, (·.elim (some usual) tidy?)⟩

def fillFrom? (j : Json) : Nat → List Slot → Option (List (String × Json))
  | _, [] => some []
  | i, s :: rest => do
    let value ← s.fill? (j.part? i s.name)
    let values ← fillFrom? j (i + 1) rest
    return (s.name, value) :: values

/-- A record has the fields of its slots, in their order, and no others. -/
def tidyRecord (least : Nat) (slots : List Slot) (j : Json) : Option Json :=
  if j.isRecord least slots.length then (fillFrom? j 0 slots).map .object else none

theorem field?_eq_find (name : String) (fields : List (String × Json)) :
    field? name fields = OrderedMap.find name fields := by
  induction fields with
  | nil => rfl
  | cons f fields ih => rw [field?, OrderedMap.find, ih]

theorem mem_of_field? {name : String} {fields : List (String × Json)} {x : Json}
    (found : field? name fields = some x) : (name, x) ∈ fields := by
  induction fields with
  | nil => cases found
  | cons f fields ih =>
    rw [field?] at found
    split at found
    · rename_i here
      obtain rfl := Option.some.inj found
      rw [← here]
      exact List.mem_cons_self
    · exact List.mem_cons_of_mem f (ih found)

theorem field?_append {name : String} {front : List (String × Json)}
    (absent : name ∉ front.map Prod.fst) (rest : List (String × Json)) :
    field? name (front ++ rest) = field? name rest := by
  induction front with
  | nil => rfl
  | cons f front ih =>
    simp only [List.map_cons, List.mem_cons, not_or] at absent
    rw [List.cons_append, field?, if_neg (Ne.symm absent.1), ih absent.2]

theorem Distinct.part? {j x : Json} (distinct : j.Distinct) {i : Nat} {name : String}
    (found : j.part? i name = some x) : x.Distinct := by
  cases distinct with
  | list each => exact each x (List.mem_of_getElem? found)
  | object _ each => exact each _ (mem_of_field? found)
  | _ => cases found

theorem Same.of_perm {fs gs : List (String × Json)} (names : (fs.map Prod.fst).Nodup)
    (perm : fs.Perm gs) : Same (.object fs) (.object gs) := by
  refine .object (perm.map Prod.fst) fun name x y first second => ?_
  have moved : (name, y) ∈ fs := perm.mem_iff.mpr (mem_of_field? second)
  rw [field?_eq_find, (OrderedMap.find_eq_some_iff names name y).mpr moved] at first
  obtain rfl := Option.some.inj first
  exact .refl _

theorem Same.getElem? {xs ys : List Json} (items : List.Forall₂ Same xs ys) (i : Nat) :
    Option.Rel Same xs[i]? ys[i]? := by
  induction items generalizing i with
  | nil => exact .none
  | cons first _ ih =>
    cases i with
    | zero => exact .some first
    | succ i => simpa using ih i

theorem Same.part? {j k : Json} (same : j.Same k) (i : Nat) (name : String) :
    Option.Rel Same (j.part? i name) (k.part? i name) := by
  cases same with
  | refl =>
    cases j.part? i name with
    | none => exact .none
    | some x => exact .some (.refl x)
  | list items => exact Same.getElem? items i
  | @object fs gs names values =>
    have known : (field? name fs).isSome = true ↔ (field? name gs).isSome = true := by
      rw [field?_eq_find, field?_eq_find, OrderedMap.find_isSome_iff, OrderedMap.find_isSome_iff,
        names.mem_iff]
    change Option.Rel Same (field? name fs) (field? name gs)
    cases here : field? name fs with
    | none =>
      cases there : field? name gs with
      | none => exact .none
      | some y => simp [here, there] at known
    | some x =>
      cases there : field? name gs with
      | none => simp [here, there] at known
      | some y => exact .some (values name x y here there)

theorem Same.isRecord {j k : Json} (same : j.Same k) (least most : Nat) :
    j.isRecord least most = k.isRecord least most := by
  cases same with
  | refl => rfl
  | list items => simp only [Json.isRecord, items.length_eq]
  | object => rfl

end Json

open Json

/-- A writer and a reader of the same values, with the form in which a value is written again.
What is written is read back. Values that differ in the order of fields only are read alike, as
far as `equal` tells. What is read and written again is the tidy form; what is not read has none. -/
structure Carries {α : Type} (write : α → Json) (read? : Json → Option α) (equal : α → α → Prop)
    (tidy? : Json → Option Json) : Prop where
  distinct : ∀ v, (write v).Distinct
  reads_back : ∀ v, read? (write v) = some v
  any_order : ∀ j k, j.Distinct → j.Same k → Option.Rel equal (read? j) (read? k)
  rewrites : ∀ j, j.Distinct → (read? j).map write = tidy? j

/-- The same for what stands in a field, which may be nothing. -/
structure CarriesPart {α : Type} (write : α → Json) (take? : Option Json → Option α)
    (equal : α → α → Prop) (fill? : Option Json → Option Json) : Prop where
  distinct : ∀ v, (write v).Distinct
  reads_back : ∀ v, take? (some (write v)) = some v
  any_order : ∀ o p, (∀ j ∈ o, j.Distinct) → Option.Rel Same o p →
    Option.Rel equal (take? o) (take? p)
  rewrites : ∀ o, (∀ j ∈ o, j.Distinct) → (take? o).map write = fill? o

structure CarriesFrom {α : Type} (i : Nat) (write : α → List (String × Json))
    (read? : Json → Option α) (equal : α → α → Prop) (slots : List Slot) : Prop where
  names : ∀ v, (write v).map Prod.fst = slots.map Slot.name
  distinct : ∀ v, ∀ f ∈ write v, f.2.Distinct
  reads_back : ∀ v front, (∀ s ∈ slots, s.name ∉ front.map Prod.fst) →
    read? (.object (front ++ write v)) = some v
  any_order : ∀ j k, j.Distinct → j.Same k → Option.Rel equal (read? j) (read? k)
  rewrites : ∀ j, j.Distinct → (read? j).map write = fillFrom? j i slots

theorem rel_map {α β : Type} {r : α → α → Prop} {s : β → β → Prop} {f : α → β}
    (step : ∀ a b, r a b → s (f a) (f b)) {o p : Option α} (related : Option.Rel r o p) :
    Option.Rel s (o.map f) (p.map f) := by
  cases related with
  | none => exact .none
  | some both => exact .some (step _ _ both)

theorem rel_eq_iff {α : Type} {a b : Option α} : Option.Rel Eq a b ↔ a = b := by
  constructor
  · rintro (same | _)
    · rw [same]
    · rfl
  · rintro rfl
    cases a with
    | none => exact .none
    | some x => exact .some rfl

theorem text_carries : Carries .text text? Eq (keep isText) where
  distinct := .text
  reads_back _ := rfl
  any_order j k _ same := rel_eq_iff.mpr (by cases same <;> rfl)
  rewrites j _ := by cases j <;> rfl

theorem flag_carries : Carries .bool bool? Eq (keep isFlag) where
  distinct := .bool
  reads_back _ := rfl
  any_order j k _ same := rel_eq_iff.mpr (by cases same <;> rfl)
  rewrites j _ := by cases j <;> rfl

theorem uint32?_ofUInt32 (n : UInt32) : uint32? (ofUInt32 n) = some n := by
  have small := n.toNat_lt
  have range : (0 : Int) ≤ n.toNat ∧ (n.toNat : Int) < 4294967296 := by omega
  simp only [ofUInt32, uint32?, range, and_self, ↓reduceIte, Int.toNat_natCast, UInt32.ofNat_toNat]

theorem map_uint32? (digits : Int) :
    (uint32? (.number digits 0)).map ofUInt32 = keep isOffset (.number digits 0) := by
  by_cases range : 0 ≤ digits ∧ digits < 4294967296
  · obtain ⟨n, rfl⟩ := Int.eq_ofNat_of_zero_le range.1
    have small : n < UInt32.size := by
      have bound := range.2
      simp only [UInt32.size]
      omega
    have value : ofUInt32 (UInt32.ofNat n) = .number n 0 := by
      rw [ofUInt32, UInt32.toNat_ofNat_of_lt' small]
    have accepted : isOffset (.number n 0) = true := by simpa [isOffset] using range
    rw [uint32?, if_pos range, keep, if_pos accepted, Option.map_some, Int.toNat_natCast, value]
  · have refused : ¬ isOffset (.number digits 0) = true := by simpa [isOffset] using range
    rw [uint32?, if_neg range, keep, if_neg refused, Option.map_none]

theorem offset_carries : Carries ofUInt32 uint32? Eq (keep isOffset) where
  distinct n := .number n.toNat 0
  reads_back := uint32?_ofUInt32
  any_order j k _ same := rel_eq_iff.mpr (by cases same <;> rfl)
  rewrites j _ := by
    cases j with
    | number digits places =>
      cases places with
      | zero => exact map_uint32? digits
      | succ places => rfl
    | _ => rfl

section Laws

variable {α β : Type} {write : α → Json} {read? : Json → Option α} {equal : α → α → Prop}
  {tidy? : Json → Option Json}

theorem Carries.required (c : Carries write read? equal tidy?) :
    CarriesPart write (·.bind read?) equal (·.bind tidy?) where
  distinct := c.distinct
  reads_back := c.reads_back
  any_order o p distinct same := by
    cases same with
    | none => exact .none
    | some same => exact c.any_order _ _ (distinct _ rfl) same
  rewrites o distinct := by
    cases o with
    | none => rfl
    | some j => exact c.rewrites j (distinct j rfl)

theorem Carries.usually (c : Carries write read? equal tidy?) (usual : α)
    (refl : equal usual usual) :
    CarriesPart write (Layout.fieldOr usual read?) equal (·.elim (some (write usual)) tidy?) where
  distinct := c.distinct
  reads_back := c.reads_back
  any_order o p distinct same := by
    cases same with
    | none => exact .some refl
    | some same => exact c.any_order _ _ (distinct _ rfl) same
  rewrites o distinct := by
    cases o with
    | none => rfl
    | some j => exact c.rewrites j (distinct j rfl)

theorem optional?_of_ne {j : Json} (present : j ≠ .null) :
    optional? read? j = (read? j).map some := by
  cases j with
  | null => contradiction
  | _ => rfl

theorem Carries.optional (c : Carries write read? Eq tidy?) (present : ∀ v, write v ≠ .null) :
    Carries (fun v => (v.map write).getD .null) (optional? read?) Eq (tidyOptional tidy?) where
  distinct v := by
    cases v with
    | none => exact .null
    | some v => exact c.distinct v
  reads_back v := by
    cases v with
    | none => rfl
    | some v =>
      change optional? read? (write v) = some (some v)
      rw [optional?_of_ne (present v), c.reads_back, Option.map_some]
  any_order j k distinct same := by
    have read := rel_eq_iff.mp (c.any_order j k distinct same)
    rw [rel_eq_iff]
    cases same with
    | refl => rfl
    | list items => exact congrArg (Option.map some) read
    | object names values => exact congrArg (Option.map some) read
  rewrites j distinct := by
    have read := c.rewrites j distinct
    cases j with
    | null => rfl
    | _ => simpa [optional?, tidyOptional, Function.comp_def] using read

theorem Carries.items (c : Carries write read? Eq tidy?) :
    Carries (fun vs => .list (vs.map write)) (list? read?) Eq (tidyItems tidy?) where
  distinct vs := .list (List.forall_mem_map.mpr fun v _ => c.distinct v)
  reads_back vs := by
    change each? read? (vs.map write) = some vs
    induction vs with
    | nil => rfl
    | cons v vs ih => simp [each?, c.reads_back v, ih]
  any_order j k distinct same := by
    rw [rel_eq_iff]
    cases same with
    | refl => rfl
    | object names values => rfl
    | @list xs ys items =>
      cases distinct with
      | list each =>
        change each? read? xs = each? read? ys
        induction items with
        | nil => rfl
        | @cons x y xs ys first _ ih =>
          have here := rel_eq_iff.mp (c.any_order x y (each x List.mem_cons_self) first)
          rw [each?, each?, here, ih fun z later => each z (List.mem_cons_of_mem x later)]
  rewrites j distinct := by
    cases distinct with
    | @list items each =>
      have tidied : (each? read? items).map (List.map write) = items.mapM tidy? := by
        induction items with
        | nil => rfl
        | cons x items ih =>
          rw [List.mapM_cons, ← c.rewrites x (each x List.mem_cons_self),
            ← ih fun z later => each z (List.mem_cons_of_mem x later), each?]
          cases read? x <;> cases each? read? items <;> rfl
      simp only [list?, tidyItems, ← tidied, Option.map_map, Function.comp_def]
    | _ => rfl

theorem fields?_map (c : Carries write read? equal tidy?) (es : List (String × α)) :
    fields? read? (es.map fun e => (e.1, write e.2)) = some es := by
  induction es with
  | nil => rfl
  | cons e es ih => simp [fields?, c.reads_back e.2, ih]

theorem map_fields? (c : Carries write read? equal tidy?) {fs : List (String × Json)}
    (distinct : ∀ f ∈ fs, f.2.Distinct) :
    (fields? read? fs).map (List.map fun e => (e.1, write e.2)) =
      fs.mapM fun f => (tidy? f.2).map (f.1, ·) := by
  induction fs with
  | nil => rfl
  | cons f fs ih =>
    rw [List.mapM_cons, ← c.rewrites f.2 (distinct f List.mem_cons_self),
      ← ih fun g later => distinct g (List.mem_cons_of_mem f later), fields?]
    cases read? f.2 <;> cases fields? read? fs <;> rfl

theorem map_fst_fields? {fs : List (String × Json)} {es : List (String × α)}
    (found : fields? read? fs = some es) : es.map Prod.fst = fs.map Prod.fst := by
  induction fs generalizing es with
  | nil =>
    obtain rfl := Option.some.inj found
    rfl
  | cons f fs ih =>
    obtain ⟨v, -, rest⟩ := Option.bind_eq_some_iff.mp found
    obtain ⟨vs, later, whole⟩ := Option.bind_eq_some_iff.mp rest
    obtain rfl := Option.some.inj whole
    rw [List.map_cons, List.map_cons, ih later]

theorem find_fields? {fs : List (String × Json)} {es : List (String × α)}
    (found : fields? read? fs = some es) (name : String) :
    OrderedMap.find name es = (field? name fs).bind read? := by
  induction fs generalizing es with
  | nil =>
    obtain rfl := Option.some.inj found
    rfl
  | cons f fs ih =>
    obtain ⟨v, here, rest⟩ := Option.bind_eq_some_iff.mp found
    obtain ⟨vs, later, whole⟩ := Option.bind_eq_some_iff.mp rest
    obtain rfl := Option.some.inj whole
    rw [OrderedMap.find, field?, ih later]
    split
    · exact here.symm
    · rfl

theorem isSome_fields?_iff {fs : List (String × Json)} (names : (fs.map Prod.fst).Nodup) :
    (fields? read? fs).isSome = true ↔
      ∀ name ∈ fs.map Prod.fst, ((field? name fs).bind read?).isSome = true := by
  have each : (fields? read? fs).isSome = true ↔ ∀ f ∈ fs, (read? f.2).isSome = true := by
    clear names
    induction fs with
    | nil => simp [fields?]
    | cons f fs ih =>
      rw [List.forall_mem_cons, ← ih, fields?]
      cases read? f.2 <;> cases fields? read? fs <;> simp
  rw [each, List.forall_mem_map]
  refine forall₂_congr fun f held => ?_
  rw [field?_eq_find, (OrderedMap.find_eq_some_iff names f.1 f.2).mpr held, Option.bind_some]

theorem ofList_fields?_any_order (c : Carries write read? Eq tidy?) {fs gs : List (String × Json)}
    (distinct : (Json.object fs).Distinct) (same : (Json.object fs).Same (.object gs))
    (names : (fs.map Prod.fst).Perm (gs.map Prod.fst)) :
    Option.Rel (fun m n : OrderedMap String α => ∀ name, m.get? name = n.get? name)
      ((fields? read? fs).map .ofList) ((fields? read? gs).map .ofList) := by
  have found (name : String) : (field? name fs).bind read? = (field? name gs).bind read? :=
    rel_eq_iff.mp (c.required.any_order _ _ (fun _ held => distinct.part? (i := 0) held)
      (same.part? 0 name))
  have first : (fs.map Prod.fst).Nodup := by
    cases distinct with
    | object names _ => exact names
  have second : (gs.map Prod.fst).Nodup := names.nodup_iff.mp first
  -- one field that cannot be read spoils the whole map, wherever it stands
  have both : (fields? read? fs).isSome = true ↔ (fields? read? gs).isSome = true := by
    rw [isSome_fields?_iff first, isSome_fields?_iff second]
    simp only [names.mem_iff, found]
  cases here : fields? read? fs with
  | none =>
    cases there : fields? read? gs with
    | none => exact .none
    | some es => simp [here, there] at both
  | some es =>
    cases there : fields? read? gs with
    | none => simp [here, there] at both
    | some others =>
      refine .some fun name => ?_
      rw [OrderedMap.get?_ofList (map_fst_fields? here ▸ first),
        OrderedMap.get?_ofList (map_fst_fields? there ▸ second), find_fields? here,
        find_fields? there, found]

theorem CarriesFrom.nil (i : Nat) :
    CarriesFrom i (fun _ : Unit => []) (fun _ => some ()) Eq [] where
  names _ := rfl
  distinct _ _ held := absurd held List.not_mem_nil
  reads_back _ _ _ := rfl
  any_order _ _ _ _ := .some rfl
  rewrites _ _ := rfl

theorem CarriesPart.cons {take? : Option Json → Option α} {fill? : Option Json → Option Json}
    {i : Nat} {writeRest : β → List (String × Json)} {readRest? : Json → Option β}
    {equalRest : β → β → Prop} {slots : List Slot}
    (part : CarriesPart write take? equal fill?) (name : String)
    (rest : CarriesFrom (i + 1) writeRest readRest? equalRest slots)
    (fresh : name ∉ slots.map Slot.name) :
    CarriesFrom i (fun v : α × β => (name, write v.1) :: writeRest v.2)
      (fun j => (take? (j.part? i name)).bind fun a => (readRest? j).map (a, ·))
      (fun v w => equal v.1 w.1 ∧ equalRest v.2 w.2) (⟨name, fill?⟩ :: slots) where
  names v := by rw [List.map_cons, List.map_cons, rest.names]
  distinct v := List.forall_mem_cons.mpr ⟨part.distinct v.1, rest.distinct v.2⟩
  reads_back v front apart := by
    -- the fields written so far stand in front, and a name is looked up past them
    obtain ⟨first, others⟩ := List.forall_mem_cons.mp apart
    have here : (Json.object (front ++ (name, write v.1) :: writeRest v.2)).part? i name =
        some (write v.1) := by
      rw [part?, field?_append first, field?, if_pos rfl]
    have later := rest.reads_back v.2 (front ++ [(name, write v.1)]) fun s held inside => by
      rw [List.map_append, List.map_singleton, List.mem_append, List.mem_singleton] at inside
      rcases inside with before | (named : s.name = name)
      · exact others s held before
      · exact fresh (named ▸ List.mem_map_of_mem held)
    rw [List.append_assoc, List.singleton_append] at later
    rw [here, part.reads_back, Option.bind_some, later, Option.map_some]
  any_order j k distinct same := by
    have here := part.any_order _ _ (fun x found => distinct.part? found) (same.part? i name)
    have later := rest.any_order j k distinct same
    revert here later
    generalize take? (j.part? i name) = a, take? (k.part? i name) = b, readRest? j = as,
      readRest? k = bs
    rintro (first | _) (others | _)
    · exact .some ⟨first, others⟩
    · exact .none
    · exact .none
    · exact .none
  rewrites j distinct := by
    have here := part.rewrites (j.part? i name) fun x found => distinct.part? found
    have later := rest.rewrites j distinct
    simp only [fillFrom?, ← here, ← later]
    cases take? (j.part? i name) <;> cases readRest? j <;> rfl

/-- A record of fields with different names. `pack` makes the record from what its fields hold. -/
theorem CarriesFrom.record {writeFields : α → List (String × Json)} {readFields? : Json → Option α}
    {slots : List Slot} {least : Nat} {writeWhole : β → Json} {readWhole? : Json → Option β}
    {equalWhole : β → β → Prop} (fields : CarriesFrom 0 writeFields readFields? equal slots)
    (names : (slots.map Slot.name).Nodup) (pack : α → β) (unpack : β → α)
    (written : ∀ v, writeWhole v = .object (writeFields (unpack v)))
    (read : ∀ j, readWhole? j =
      if j.isRecord least slots.length then (readFields? j).map pack else none)
    (packed : ∀ v, pack (unpack v) = v) (unpacked : ∀ a, unpack (pack a) = a)
    (alike : ∀ a b, equal a b → equalWhole (pack a) (pack b)) :
    Carries writeWhole readWhole? equalWhole (tidyRecord least slots) where
  distinct v := by
    rw [written]
    exact .object (by rw [fields.names]; exact names) (fields.distinct _)
  reads_back v := by
    have found := fields.reads_back (unpack v) [] fun _ _ inside => absurd inside List.not_mem_nil
    rw [List.nil_append] at found
    rw [written, read, found, Option.map_some, packed]
    rfl
  any_order j k distinct same := by
    rw [read, read, same.isRecord]
    split
    · exact rel_map alike (fields.any_order j k distinct same)
    · exact .none
  rewrites j distinct := by
    rw [read, tidyRecord]
    split
    · have tidied := fields.rewrites j distinct
      rw [← tidied]
      cases readFields? j with
      | none => rfl
      | some a => simp only [Option.map_some, written, unpacked]
    · rfl

end Laws

end ExportIndex
