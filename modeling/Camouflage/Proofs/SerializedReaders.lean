import Camouflage.Proofs.SerializedLayout

/-!
# The readers go by the layout

No reader looks at a serialized value in any other way than its layout states: a variant goes
by what it carries (`Kind.goesBy_variant`), a record by its fields (`Kind.goesBy_fields`), and a
list of expressions by its items (`Expr.goesBy_item`). No variant is read that the layout
does not state (`Kind.read?_eq_none_of_tag`).
-/

namespace Camouflage

/-! ## Variants without data -/

theorem goesBy_plain {α : Type} (read? : Json → Option α) : GoesBy read? Kind.plain.read? :=
  ⟨read?, fun _ => rfl⟩

theorem goesBy_name {α : Type} (name : α → String) (candidates : List α) :
    GoesBy (fun j => j.unit?.bind (ofName? name candidates)) Kind.unit.read? :=
  ⟨_, fun _ => rfl⟩

theorem Scalar.goesBy_unit : GoesBy Scalar.ofJson? Kind.unit.read? := goesBy_name _ _

theorem Extent.goesBy_unit : GoesBy Extent.ofJson? Kind.unit.read? := goesBy_name _ _

theorem UnaryOp.goesBy_unit : GoesBy UnaryOp.ofJson? Kind.unit.read? := goesBy_name _ _

theorem BinaryOp.goesBy_unit : GoesBy BinaryOp.ofJson? Kind.unit.read? := goesBy_name _ _

theorem Strategy.goesBy_unit : GoesBy Strategy.ofJson? Kind.unit.read? := goesBy_name _ _

namespace Expr

/-- A field of a record with all that it can be read as. -/
def Field.of (j : Json) : Field := ⟨j, ofJson? j, ofArray? j⟩

theorem fieldsOfMembers_eq (members : List (String × Json)) :
    fieldsOfMembers members = members.map fun m => (m.1, Field.of m.2) := by
  induction members with
  | nil => rw [fieldsOfMembers, List.map_nil]
  | cons m members ih => rw [fieldsOfMembers, ih, List.map_cons, Field.of]

theorem fieldsOfItems_eq (items : List Json) : fieldsOfItems items = items.map Field.of := by
  induction items with
  | nil => rw [fieldsOfItems, List.map_nil]
  | cons item items ih => rw [fieldsOfItems, ih, List.map_cons, Field.of]

/-- The fields that are selected are those of the record. -/
theorem bind_select?_partsOf? (names : List String) (j : Json) :
    ((partsOf? j).bind fun parts => parts.select? names) =
      (j.record? names).map (List.map Field.of) := by
  cases j with
  | object members =>
    rw [partsOf?, fieldsOfMembers_eq]
    show (names.mapM fun name => Json.unique? name (members.map _)) = Option.map _ (names.mapM _)
    simp only [Json.unique?_map]
    exact mapM_map _ _ _
  | array items =>
    rw [partsOf?, fieldsOfItems_eq]
    show (if (items.map Field.of).length = names.length then _ else _) =
      Option.map _ (if items.length = names.length then _ else _)
    rw [List.length_map]
    split <;> rfl
  | _ => rfl

/-- A node with fields is built from the fields of a record. -/
theorem ofJson?_tagged {tag : String} {names : List String} {build? : List Field → Option Expr}
    (htag : tag ≠ "Paren") (hleaf : ∀ body, ofLeaf? tag body = none)
    (hrecord : ∀ parts, ofRecord? tag parts = (parts.select? names).bind build?) (body : Json) :
    ofJson? (.tagged tag body) =
      (body.record? names).bind fun js => build? (js.map Field.of) := by
  have hparts : (partsOf? body).bind (ofRecord? tag) =
      ((partsOf? body).bind fun parts => parts.select? names).bind build? := by
    cases partsOf? body with
    | none => rfl
    | some parts => exact hrecord parts
  rw [Json.tagged, ofJson?, if_neg htag, hleaf]
  show (partsOf? body).bind (ofRecord? tag) = _
  rw [hparts, bind_select?_partsOf?]
  cases body.record? names <;> rfl

end Expr

theorem Shape.goesBy_variant {tag : String} {l : Layout} (h : (tag, l) ∈ Kind.shape.variants) :
    GoesBy (fun j => ofJson? (.tagged tag j)) l.read? := by
  simp only [Kind.variants, List.mem_cons, Prod.mk.injEq, List.not_mem_nil, or_false] at h
  rcases h with ⟨rfl, rfl⟩ | ⟨rfl, rfl⟩ | ⟨rfl, rfl⟩
  · exact GoesBy.trans ⟨fun s => some (scalar s), fun _ => rfl⟩ Scalar.goesBy_unit
  · exact Layout.goesBy_pair Extent.goesBy_unit Scalar.goesBy_unit fun _ _ => rfl
  · exact Layout.goesBy_triple Extent.goesBy_unit Extent.goesBy_unit Scalar.goesBy_unit
      fun _ _ _ => rfl

theorem Schedule.goesBy_slope :
    GoesBy slopeOfJson? (Layout.record [("initial", .plain), ("step", .plain)]).read? :=
  Layout.goesBy_pair (goesBy_plain Json.uint32?) (goesBy_plain Json.uint32?) fun _ _ => rfl

theorem Schedule.goesBy_variant {tag : String} {l : Layout}
    (h : (tag, l) ∈ Kind.schedule.variants) : GoesBy (fun j => ofJson? (.tagged tag j)) l.read? := by
  simp only [Kind.variants, List.mem_cons, Prod.mk.injEq, List.not_mem_nil, or_false] at h
  rcases h with ⟨rfl, rfl⟩ | ⟨rfl, rfl⟩ | ⟨rfl, rfl⟩ | ⟨rfl, rfl⟩
  · exact goesBy_plain _
  · exact GoesBy.trans ⟨fun s => some (decaying s.1 s.2), fun _ => rfl⟩ goesBy_slope
  · exact GoesBy.trans ⟨fun s => some (growing s.1 s.2), fun _ => rfl⟩ goesBy_slope
  · exact goesBy_plain _

namespace Expr

theorem goesBy_tagged {β : Type} {tag : String} {names : List String}
    {build? : List Field → Option Expr} {part? : Json → Option β} (htag : tag ≠ "Paren")
    (hleaf : ∀ body, ofLeaf? tag body = none)
    (hrecord : ∀ parts, ofRecord? tag parts = (parts.select? names).bind build?)
    (h : GoesBy (fun j => (j.record? names).bind fun js => build? (js.map Field.of)) part?) :
    GoesBy (fun j => ofJson? (.tagged tag j)) part? := by
  simp only [ofJson?_tagged htag hleaf hrecord]
  exact h

theorem ofJson?_paren (j : Json) : ofJson? (.tagged "Paren" j) = (ofJson? j).map paren := by
  rw [Json.tagged, ofJson?, if_pos rfl]

theorem goesBy_paren : GoesBy (fun j => ofJson? (.tagged "Paren" j)) ofJson? := by
  simp only [ofJson?_paren]
  exact ⟨fun e => some (paren e), fun j => Option.map_eq_bind⟩

theorem goesBy_variant {tag : String} {l : Layout} (h : (tag, l) ∈ Kind.expr.variants) :
    GoesBy (fun j => ofJson? (.tagged tag j)) l.read? := by
  have hexpr : GoesBy ofJson? Kind.expr.read? := GoesBy.refl ofJson?
  have hexprs : GoesBy ofArray? Kind.exprs.read? := GoesBy.refl ofArray?
  have hstring := goesBy_plain Json.string?
  simp only [Kind.variants, List.mem_cons, Prod.mk.injEq, List.not_mem_nil, or_false] at h
  rcases h with ⟨rfl, rfl⟩ | ⟨rfl, rfl⟩ | ⟨rfl, rfl⟩ | ⟨rfl, rfl⟩ | ⟨rfl, rfl⟩ | ⟨rfl, rfl⟩ |
    ⟨rfl, rfl⟩ | ⟨rfl, rfl⟩ | ⟨rfl, rfl⟩ | ⟨rfl, rfl⟩ | ⟨rfl, rfl⟩
  · exact goesBy_plain _
  · exact goesBy_plain _
  · exact goesBy_plain _
  · exact goesBy_plain _
  · exact goesBy_tagged (by decide) (fun _ => rfl) (fun _ => rfl)
      (Layout.goesBy_pair hexpr hstring fun _ _ => rfl)
  · exact goesBy_tagged (by decide) (fun _ => rfl) (fun _ => rfl)
      (Layout.goesBy_pair hexpr hexpr fun _ _ => rfl)
  · exact goesBy_tagged (by decide) (fun _ => rfl) (fun _ => rfl)
      (Layout.goesBy_pair UnaryOp.goesBy_unit hexpr fun _ _ => rfl)
  · exact goesBy_tagged (by decide) (fun _ => rfl) (fun _ => rfl)
      (Layout.goesBy_triple BinaryOp.goesBy_unit hexpr hexpr fun _ _ _ => rfl)
  · exact goesBy_tagged (by decide) (fun _ => rfl) (fun _ => rfl)
      (Layout.goesBy_pair hstring hexprs fun _ _ => rfl)
  · exact goesBy_tagged (by decide) (fun _ => rfl) (fun _ => rfl)
      (Layout.goesBy_pair Scalar.goesBy_unit hexprs fun _ _ => rfl)
  · exact goesBy_paren

theorem ofArray?_array (items : List Json) : ofArray? (.array items) = items.mapM ofJson? := by
  rw [ofArray?, fieldsOfItems_eq, List.mapM_map]
  rfl

/-- A list of expressions goes by each of its items. -/
theorem goesBy_item (front back : List Json) :
    GoesBy (fun j => ofArray? (.array (front ++ j :: back))) ofJson? := by
  simp only [ofArray?_array]
  induction front with
  | nil =>
    simp only [List.nil_append, mapM_cons_eq]
    exact goesBy_first ofJson? _ _
  | cons item front ih =>
    simp only [List.cons_append, mapM_cons_eq]
    exact ih.second (ofJson? item) List.cons

end Expr

/-- A table goes by its schedules. -/
theorem WeightTable.goesBy_fields :
    GoesBy ofJson? (Layout.record ((Strategy.all.map Strategy.field).map (·, .schedule))).read? :=
  Layout.goesBy_uniform _ _

theorem Profile.goesBy_fields :
    GoesBy ofJson? (Layout.record
      [("seed", .plain), ("max_depth", .plain), ("known_value_weights", .table)]).read? :=
  Layout.goesBy_triple (goesBy_plain Json.uint64?) (goesBy_plain Json.uint32?)
    (GoesBy.refl WeightTable.ofJson?) fun _ _ _ => rfl

namespace Kind

/-- A variant goes by what it carries. -/
theorem goesBy_variant {k : Kind} {tag : String} {l : Layout} (h : (tag, l) ∈ k.variants) :
    GoesBy (fun j => k.read? (.tagged tag j)) l.read? := by
  cases k with
  | shape => exact Shape.goesBy_variant h
  | expr => exact Expr.goesBy_variant h
  | schedule => exact Schedule.goesBy_variant h
  | _ => cases h

/-- No other variant with data is read. -/
theorem read?_eq_none_of_tag {k : Kind} {tag : String} (hdata : k ≠ unit)
    (hvariant : k.isVariant = true) (htag : tag ∉ k.variants.map Prod.fst) (body : Json) :
    k.read? (.tagged tag body) = none := by
  cases k with
  | shape =>
    simp only [variants, List.map_cons, List.map_nil, List.mem_cons, List.not_mem_nil, or_false,
      not_or] at htag
    show Shape.ofJson? _ = none
    simp [Shape.ofJson?, Json.variant?_tagged, htag]
  | expr =>
    simp only [variants, List.map_cons, List.map_nil, List.mem_cons, List.not_mem_nil, or_false,
      not_or] at htag
    have hrecord : ∀ parts, Expr.ofRecord? tag parts = none := by
      intro parts
      simp [Expr.ofRecord?, htag]
    show Expr.ofJson? _ = none
    simp [Json.tagged, Expr.ofJson?, Expr.ofLeaf?, hrecord, htag]
  | schedule =>
    simp only [variants, List.map_cons, List.map_nil, List.mem_cons, List.not_mem_nil, or_false,
      not_or] at htag
    show Schedule.ofJson? _ = none
    simp [Schedule.ofJson?, Json.variant?_tagged, htag]
  | unit => exact absurd rfl hdata
  | _ => cases hvariant

/-- A variant is no object of zero or several members. -/
theorem read?_ambiguous {k : Kind} {members : List (String × Json)} (hvariant : k.isVariant = true)
    (hlength : members.length ≠ 1) : k.read? (.object members) = none := by
  match members, hlength with
  | [], _ => cases k <;> first | rfl | cases hvariant
  | _ :: _ :: _, _ =>
    cases k with
    | unit =>
      show Json.unit? _ = none
      simp [Json.unit?]
    | shape => rfl
    | expr => rfl
    | schedule => rfl
    | _ => cases hvariant

/-- A record goes by its fields. -/
theorem goesBy_fields {k : Kind} {fields : List (String × Kind)} (h : k.fields? = some fields) :
    GoesBy k.read? (Layout.record fields).read? := by
  cases k with
  | table =>
    obtain rfl := Option.some.inj h
    exact WeightTable.goesBy_fields
  | profile =>
    obtain rfl := Option.some.inj h
    exact Profile.goesBy_fields
  | _ => cases h

end Kind

end Camouflage
