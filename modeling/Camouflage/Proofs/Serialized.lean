import Camouflage.Proofs.SerializedReaders

/-!
# Serialized values

What is written is read back, and what is read does not depend on how a record is written. In
a value that is read as some `x`, records stand at places that the layout states (`Place`).
Wherever one does, its fields may be reordered and unknown fields added, and the value is read
as `x` still; without one of the fields nothing is read. Nor is anything read where a variant
should stand and an object has no member or several.

A reading goes by what is read at each place (`Place.goesBy`). This is by induction on the place,
with one case for each way in which values are nested, so a change to one object is looked at
where that object is read and nowhere else.

Main statement: `serialized_round_trip`, for all types that have a serialized form.
-/

namespace Camouflage

open Json

/-! ## What is written is read back -/

theorem Shape.ofJson?_toJson (s : Shape) : ofJson? s.toJson = some s := by
  cases s with
  | scalar s => simp [toJson, ofJson?, variant?_tagged, Scalar.ofJson?_toJson]
  | vector size s =>
    simp [toJson, ofJson?, variant?_tagged, record?, parts?, Parts.select?, unique?,
      Scalar.ofJson?_toJson, Extent.ofJson?_toJson]
  | matrix columns rows s =>
    simp [toJson, ofJson?, variant?_tagged, record?, parts?, Parts.select?, unique?,
      Scalar.ofJson?_toJson, Extent.ofJson?_toJson]

namespace Expr

mutual

theorem ofJson?_toJson : ∀ e : Expr, ofJson? e.toJson = some e
  | boolLiteral value => by simp [toJson, tagged, ofJson?, ofLeaf?, bool?]
  | intLiteral text => by simp [toJson, tagged, ofJson?, ofLeaf?, string?]
  | floatLiteral text => by simp [toJson, tagged, ofJson?, ofLeaf?, string?]
  | identifier name => by simp [toJson, tagged, ofJson?, ofLeaf?, string?]
  | member receiver name => by
    simp [toJson, tagged, ofJson?, ofLeaf?, partsOf?, fieldsOfMembers, ofRecord?, Parts.select?,
      unique?, string?, ofJson?_toJson receiver]
  | index target position => by
    simp [toJson, tagged, ofJson?, ofLeaf?, partsOf?, fieldsOfMembers, ofRecord?, Parts.select?,
      unique?, ofJson?_toJson target, ofJson?_toJson position]
  | unary op target => by
    simp [toJson, tagged, ofJson?, ofLeaf?, partsOf?, fieldsOfMembers, ofRecord?, Parts.select?,
      unique?, UnaryOp.ofJson?_toJson, ofJson?_toJson target]
  | binary op lhs rhs => by
    simp [toJson, tagged, ofJson?, ofLeaf?, partsOf?, fieldsOfMembers, ofRecord?, Parts.select?,
      unique?, BinaryOp.ofJson?_toJson, ofJson?_toJson lhs, ofJson?_toJson rhs]
  | call callee args => by
    simp [toJson, tagged, ofJson?, ofLeaf?, partsOf?, fieldsOfMembers, ofRecord?, Parts.select?,
      unique?, string?, ofArray?_toJsonList args]
  | construct ty args => by
    simp [toJson, tagged, ofJson?, ofLeaf?, partsOf?, fieldsOfMembers, ofRecord?, Parts.select?,
      unique?, Scalar.ofJson?_toJson, ofArray?_toJsonList args]
  | paren inner => by rw [toJson, ofJson?_paren, ofJson?_toJson inner, Option.map_some]

theorem ofArray?_toJsonList : ∀ es : List Expr, ofArray? (.array (toJsonList es)) = some es
  | [] => by rw [toJsonList, ofArray?_array, List.mapM_nil]; rfl
  | e :: es => by
    have hes := ofArray?_toJsonList es
    rw [ofArray?_array] at hes
    rw [toJsonList, ofArray?_array, mapM_cons_eq, ofJson?_toJson e, hes]
    rfl

end

end Expr

theorem Json.uint32?_ofNat (w : UInt32) : (Json.ofNat w.toNat).uint32? = some w := by
  show Option.map _ (if w.toNat < UInt32.size then _ else _) = _
  rw [if_pos w.toNat_lt, Option.map_some, UInt32.ofNat_toNat]

theorem Json.uint64?_ofNat (w : UInt64) : (Json.ofNat w.toNat).uint64? = some w := by
  show Option.map _ (if w.toNat < UInt64.size then _ else _) = _
  rw [if_pos w.toNat_lt, Option.map_some, UInt64.ofNat_toNat]

namespace Schedule

theorem slopeOfJson?_slopeToJson (initial step : UInt32) :
    slopeOfJson? (slopeToJson initial step) = some (initial, step) := by
  simp [slopeOfJson?, slopeToJson, record?, parts?, Parts.select?, unique?, uint32?_ofNat]

theorem mapM_uint32?_ofNat (weights : List UInt32) :
    (weights.map fun w => Json.ofNat w.toNat).mapM Json.uint32? = some weights := by
  induction weights with
  | nil => rfl
  | cons w weights ih =>
    rw [List.map_cons, mapM_cons_eq, uint32?_ofNat, ih]
    rfl

theorem ofJson?_toJson (s : Schedule) : ofJson? s.toJson = some s := by
  cases s with
  | constant weight => simp [toJson, ofJson?, variant?_tagged, uint32?_ofNat]
  | decaying initial step =>
    simp [toJson, ofJson?, variant?_tagged, slopeOfJson?_slopeToJson]
  | growing initial step => simp [toJson, ofJson?, variant?_tagged, slopeOfJson?_slopeToJson]
  | perDepth weights =>
    show ((weights.map fun w => Json.ofNat w.toNat).mapM Json.uint32?).bind
      (fun read => some (perDepth read)) = _
    rw [mapM_uint32?_ofNat, Option.bind_some]

end Schedule

theorem WeightTable.ofJson?_toJson (table : WeightTable) : ofJson? table.toJson = some table := by
  simp [toJson, ofJson?, record?, parts?, Parts.select?, unique?, Strategy.all, Strategy.field,
    schedule, Schedule.ofJson?_toJson]

theorem Profile.ofJson?_toJson (p : Profile) : ofJson? p.toJson = some p := by
  simp [toJson, ofJson?, record?, parts?, Parts.select?, unique?, uint32?_ofNat, uint64?_ofNat,
    WeightTable.ofJson?_toJson]

/-! ## Places -/

/-- The places of a serialized value: where a value of one layout stands in a value of another,
and how to put one there. -/
inductive Place : Layout → Layout → (Json → Json) → Prop where
  | here (l : Layout) : Place l l fun j => j
  /-- In what a variant carries. -/
  | data {k : Kind} {tag : String} {l m : Layout} {fill : Json → Json}
      (hvariant : (tag, l) ∈ k.variants) (h : Place l m fill) :
      Place (.of k) m fun j => .tagged tag (fill j)
  /-- In a value that is a record. -/
  | whole {k : Kind} {fields : List (String × Kind)} {m : Layout} {fill : Json → Json}
      (hfields : k.fields? = some fields) (h : Place (.record fields) m fill) :
      Place (.of k) m fill
  /-- In a field of a record, under its name. -/
  | member {fields : List (String × Kind)} {name : String} {k : Kind} {m : Layout}
      {fill : Json → Json} (front back : List (String × Json)) (hfield : (name, k) ∈ fields)
      (h : Place (.of k) m fill) :
      Place (.record fields) m fun j => .object (front ++ (name, fill j) :: back)
  /-- In a field of a record whose fields stand in order. -/
  | position {fields : List (String × Kind)} {name : String} {k : Kind} {m : Layout}
      {fill : Json → Json} {front : List Json} (back : List Json)
      (hfield : fields[front.length]? = some (name, k)) (h : Place (.of k) m fill) :
      Place (.record fields) m fun j => .array (front ++ fill j :: back)
  /-- In an item of a list of expressions. -/
  | item {m : Layout} {fill : Json → Json} (front back : List Json)
      (h : Place (.of .expr) m fill) :
      Place (.of .exprs) m fun j => .array (front ++ fill j :: back)

/-- No two fields of a record have one name. -/
def Layout.Distinct : Layout → Prop
  | of _ => True
  | record fields => (fields.map Prod.fst).Nodup

instance : (l : Layout) → Decidable l.Distinct
  | .of _ => inferInstanceAs (Decidable True)
  | .record fields => inferInstanceAs (Decidable (fields.map Prod.fst).Nodup)

theorem Kind.distinct_of_variant {k : Kind} {tag : String} {l : Layout}
    (h : (tag, l) ∈ k.variants) : l.Distinct := by
  have hall : ∀ v ∈ k.variants, v.2.Distinct := by cases k <;> decide
  exact hall _ h

theorem Kind.distinct_of_fields {k : Kind} {fields : List (String × Kind)}
    (h : k.fields? = some fields) : (Layout.record fields).Distinct := by
  have hall : ∀ names ∈ k.fields?, (Layout.record names).Distinct := by cases k <;> decide
  exact hall _ h

/-- A value goes by what is read at each of its places. -/
theorem Place.goesBy {l m : Layout} {fill : Json → Json} (h : Place l m fill) (hl : l.Distinct) :
    GoesBy (fun j => l.read? (fill j)) m.read? := by
  induction h with
  | here l => exact GoesBy.refl _
  | data hvariant _ ih =>
    exact ((Kind.goesBy_variant hvariant).comp _).trans (ih (Kind.distinct_of_variant hvariant))
  | whole hfields _ ih =>
    exact ((Kind.goesBy_fields hfields).comp _).trans (ih (Kind.distinct_of_fields hfields))
  | member front back hfield _ ih =>
    exact ((Layout.goesBy_member hl hfield front back).comp _).trans (ih trivial)
  | position back hfield _ ih => exact ((Layout.goesBy_position hfield).comp _).trans (ih trivial)
  | item front back _ ih => exact ((Expr.goesBy_item front back).comp _).trans (ih trivial)

/-! ## All serialized types -/

/-- How the values of a type are serialized as values of a kind. -/
structure Serializes {α : Type} (kind : Kind) (toJson : α → Json) (ofJson? : Json → Option α) :
    Prop where
  /-- What is written is read back. -/
  ofJson?_toJson : ∀ x, ofJson? (toJson x) = some x
  /-- The fields of a record may stand in any order, with unknown fields among them. -/
  rearranged : ∀ {fields fill members members' extra x},
    Place (.of kind) (.record fields) fill → ofJson? (fill (.object members)) = some x →
    (∀ m ∈ extra, m.1 ∉ fields.map Prod.fst) → members'.Perm (members ++ extra) →
    ofJson? (fill (.object members')) = some x
  /-- Every field of a record is required. -/
  incomplete : ∀ {fields fill name} {members : List (String × Json)},
    Place (.of kind) (.record fields) fill → name ∈ fields.map Prod.fst →
    ofJson? (fill (.object (members.filter (·.1 != name)))) = none
  /-- A variant has one name. -/
  ambiguous : ∀ {k fill} {members : List (String × Json)},
    Place (.of kind) (.of k) fill → k.isVariant = true → members.length ≠ 1 →
    ofJson? (fill (.object members)) = none

theorem Serializes.of_goesBy {α : Type} {kind : Kind} {toJson : α → Json} {ofJson? : Json → Option α}
    (hround : ∀ x, ofJson? (toJson x) = some x) (hkind : GoesBy ofJson? kind.read?) :
    Serializes kind toJson ofJson? := by
  have hplace : ∀ {m fill}, Place (.of kind) m fill → GoesBy (fun j => ofJson? (fill j)) m.read? :=
    fun h => (hkind.comp _).trans (h.goesBy trivial)
  refine ⟨hround, ?_, ?_, ?_⟩
  · intro fields fill members members' extra x hfill hread hextra hperm
    exact ((hplace hfill).congr (Layout.read?_rearranged hextra hperm)).trans hread
  · intro fields fill name members hfill hname
    refine (hplace hfill).eq_none (Layout.read?_incomplete hname fun m hm => ?_)
    simpa using (List.mem_filter.1 hm).2
  · intro k fill members hfill hvariant hlength
    exact (hplace hfill).eq_none (Kind.read?_ambiguous hvariant hlength)

/-- Every type that has a serialized form is read back from it, and from every form of it that
differs in the order of fields and in unknown fields only, and from none that lacks a field or
the name of a variant, or has several names. -/
theorem serialized_round_trip :
    Serializes .unit Scalar.toJson Scalar.ofJson? ∧
      Serializes .shape Shape.toJson Shape.ofJson? ∧
      Serializes .expr Expr.toJson Expr.ofJson? ∧
      Serializes .unit Strategy.toJson Strategy.ofJson? ∧
      Serializes .schedule Schedule.toJson Schedule.ofJson? ∧
      Serializes .table WeightTable.toJson WeightTable.ofJson? ∧
      Serializes .profile Profile.toJson Profile.ofJson? :=
  ⟨.of_goesBy Scalar.ofJson?_toJson Scalar.goesBy_unit,
    .of_goesBy Shape.ofJson?_toJson (GoesBy.refl _),
    .of_goesBy Expr.ofJson?_toJson (GoesBy.refl _),
    .of_goesBy Strategy.ofJson?_toJson Strategy.goesBy_unit,
    .of_goesBy Schedule.ofJson?_toJson (GoesBy.refl _),
    .of_goesBy WeightTable.ofJson?_toJson (GoesBy.refl _),
    .of_goesBy Profile.ofJson?_toJson (GoesBy.refl _)⟩

end Camouflage
