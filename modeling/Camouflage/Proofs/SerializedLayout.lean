import Camouflage.Json.Expr
import Camouflage.Json.Weights

/-!
# The layout of serialized values

What is read at each place of a serialized value, as data: `Kind` lists what can stand there,
`Kind.variants` the variants of a kind with what each carries, and `Kind.fields?` the fields of
a kind that is a record.

One reading goes by another (`GoesBy`) if it is a function of what the other makes of a value.
A record goes by each of its fields, be they members of an object (`Layout.goesBy_member`) or
items of an array (`Layout.goesBy_position`). Of an object it sees the members of its own names
and nothing of their order (`Layout.read?_rearranged`), and it misses every one that is absent
(`Layout.read?_incomplete`).
-/

namespace Camouflage

/-! ## Lists that are read item by item -/

section Lists

variable {α β γ : Type}

theorem mapM_cons_eq (f : α → Option β) (a : α) (as : List α) :
    (a :: as).mapM f = (f a).bind fun b => (as.mapM f).map (List.cons b) := by
  rw [List.mapM_cons]
  cases f a with
  | none => rfl
  | some b => cases as.mapM f <;> rfl

theorem mapM_map (f : α → Option β) (g : β → γ) (as : List α) :
    (as.mapM fun a => (f a).map g) = (as.mapM f).map (List.map g) := by
  induction as with
  | nil => rfl
  | cons a as ih =>
    rw [mapM_cons_eq, mapM_cons_eq, ih]
    cases f a with
    | none => rfl
    | some b => cases as.mapM f <;> rfl

theorem length_of_mapM {f : α → Option β} {as : List α} {bs : List β} (h : as.mapM f = some bs) :
    bs.length = as.length := by
  induction as generalizing bs with
  | nil =>
    obtain rfl := Option.some.inj h
    rfl
  | cons a as ih =>
    rw [mapM_cons_eq] at h
    obtain ⟨b, -, h⟩ := Option.bind_eq_some_iff.1 h
    obtain ⟨rest, hrest, rfl⟩ := Option.map_eq_some_iff.1 h
    rw [List.length_cons, List.length_cons, ih hrest]

end Lists

/-! ## Members of a name -/

namespace Json

section Unique

variable {α β : Type} {name : String} {members others : List (String × α)}

/-- The only value of a list of members. -/
def single? : List (String × α) → Option α
  | [(_, value)] => some value
  | _ => none

theorem unique?_eq_single? (name : String) (members : List (String × α)) :
    unique? name members = single? (members.filter (·.1 == name)) := rfl

theorem single?_perm (h : members.Perm others) : single? members = single? others := by
  match members, others, h with
  | [], others, h => rw [h.nil_eq]
  | [member], others, h => rw [List.perm_singleton.1 h.symm]
  | _ :: _ :: _, [], h => exact absurd h.length_eq (by simp)
  | _ :: _ :: _, [_], h => exact absurd h.length_eq (by simp)
  | _ :: _ :: _, _ :: _ :: _, _ => rfl

/-- The order of the members does not matter. -/
theorem unique?_perm (h : members.Perm others) : unique? name members = unique? name others :=
  single?_perm (h.filter _)

theorem filter_eq_nil_of_absent (h : ∀ m ∈ members, m.1 ≠ name) :
    members.filter (·.1 == name) = [] := by
  rw [List.filter_eq_nil_iff]
  intro m hm
  simpa using h m hm

/-- Neither do members of other names. -/
theorem unique?_append_absent (h : ∀ m ∈ others, m.1 ≠ name) :
    unique? name (members ++ others) = unique? name members := by
  rw [unique?_eq_single?, List.filter_append, filter_eq_nil_of_absent h, List.append_nil]
  rfl

theorem unique?_eq_none_of_absent (h : ∀ m ∈ members, m.1 ≠ name) : unique? name members = none := by
  rw [unique?_eq_single?, filter_eq_nil_of_absent h]
  rfl

theorem single?_insert (front back : List (String × α)) (name : String) :
    (∀ value, single? (front ++ (name, value) :: back) = some value) ∨
      ∀ value, single? (front ++ (name, value) :: back) = none :=
  match front, back with
  | [], [] => .inl fun _ => rfl
  | [], _ :: _ => .inr fun _ => rfl
  | [_], _ => .inr fun _ => rfl
  | _ :: _ :: _, _ => .inr fun _ => rfl

/-- Whether a member is alone with its name does not depend on its value. -/
theorem unique?_insert (front back : List (String × α)) (name : String) :
    (∀ value, unique? name (front ++ (name, value) :: back) = some value) ∨
      ∀ value, unique? name (front ++ (name, value) :: back) = none := by
  have hfilter : ∀ value, (front ++ (name, value) :: back).filter (·.1 == name) =
      front.filter (·.1 == name) ++ (name, value) :: back.filter (·.1 == name) := by
    intro value
    simp
  simp only [unique?_eq_single?, hfilter]
  exact single?_insert _ _ name

theorem unique?_insert_of_ne {other : String} (front back : List (String × α)) (value : α)
    (h : name ≠ other) :
    unique? other (front ++ (name, value) :: back) = unique? other (front ++ back) := by
  have hother : (name == other) = false := by simpa using h
  simp only [unique?_eq_single?, List.filter_append, List.filter_cons, hother]
  rfl

theorem single?_map (f : α → β) (members : List (String × α)) :
    single? (members.map fun m => (m.1, f m.2)) = (single? members).map f :=
  match members with
  | [] => rfl
  | [_] => rfl
  | _ :: _ :: _ => rfl

theorem unique?_map (f : α → β) :
    unique? name (members.map fun m => (m.1, f m.2)) = (unique? name members).map f := by
  rw [unique?_eq_single?, List.filter_map]
  exact single?_map f _

end Unique

end Json

/-! ## Layouts -/

/-- What can stand at a place of a serialized value. -/
inductive Kind where
  /-- A text, a number or a truth value, or a list of numbers. -/
  | plain
  /-- A variant without data. -/
  | unit
  | shape
  | expr
  | exprs
  | schedule
  | table
  | profile
  deriving DecidableEq

/-- What a variant carries: a value of a kind, or a record of named fields. -/
inductive Layout where
  | of (kind : Kind)
  | record (fields : List (String × Kind))

namespace Kind

/-- The variants of a kind that carry data. -/
def variants : Kind → List (String × Layout)
  | shape =>
    [("Scalar", .of unit),
      ("Vector", .record [("size", unit), ("scalar", unit)]),
      ("Matrix", .record [("columns", unit), ("rows", unit), ("scalar", unit)])]
  | expr =>
    [("BoolLiteral", .of plain),
      ("IntLiteral", .of plain),
      ("FloatLiteral", .of plain),
      ("Identifier", .of plain),
      ("MemberLookup", .record [("receiver", expr), ("member", plain)]),
      ("IndexLookup", .record [("target", expr), ("index", expr)]),
      ("Unary", .record [("op", unit), ("target", expr)]),
      ("Binary", .record [("op", unit), ("lhs", expr), ("rhs", expr)]),
      ("FunctionCall", .record [("callee", plain), ("args", exprs)]),
      ("ValueConstructor", .record [("ty", unit), ("args", exprs)]),
      ("Paren", .of expr)]
  | schedule =>
    [("Constant", .of plain),
      ("Decaying", .record [("initial", plain), ("step", plain)]),
      ("Growing", .record [("initial", plain), ("step", plain)]),
      ("PerDepth", .of plain)]
  | plain | unit | exprs | table | profile => []

/-- The fields of a kind that is a record. -/
def fields? : Kind → Option (List (String × Kind))
  | table => some ((Strategy.all.map Strategy.field).map (·, schedule))
  | profile => some [("seed", plain), ("max_depth", plain), ("known_value_weights", table)]
  | plain | unit | shape | expr | exprs | schedule => none

/-- Whether a kind is written as a variant. -/
def isVariant : Kind → Bool
  | unit | shape | expr | schedule => true
  | plain | exprs | table | profile => false

/-- What a value of a kind is read as. Of a variant without data it is the name. -/
def Result : Kind → Type
  | plain => Json
  | unit => String
  | shape => Shape
  | expr => Expr
  | exprs => List Expr
  | schedule => Schedule
  | table => WeightTable
  | profile => Profile

/-- Reads a value of a kind. -/
def read? : (k : Kind) → Json → Option k.Result
  | plain => some
  | unit => Json.unit?
  | shape => Shape.ofJson?
  | expr => Expr.ofJson?
  | exprs => Expr.ofArray?
  | schedule => Schedule.ofJson?
  | table => WeightTable.ofJson?
  | profile => Profile.ofJson?

/-- What the fields of a record are read as. -/
def Row : List (String × Kind) → Type
  | [] => Unit
  | (_, k) :: fields => k.Result × Row fields

/-- One more field in front of others. -/
def Row.cons {name : String} {k : Kind} {fields : List (String × Kind)} (x : k.Result)
    (row : Row fields) : Row ((name, k) :: fields) := (x, row)

/-- Reads the fields of a record, in order. -/
def readRow : (fields : List (String × Kind)) → List Json → Option (Row fields)
  | [], [] => some ()
  | (_, k) :: fields, j :: js => (k.read? j).bind fun x => (readRow fields js).map (Row.cons x)
  | _, _ => none

end Kind

namespace Layout

def Result : Layout → Type
  | of k => k.Result
  | record fields => Kind.Row fields

/-- Reads a value of a layout. -/
def read? : (l : Layout) → Json → Option l.Result
  | of k, j => k.read? j
  | record fields, j => (j.record? (fields.map Prod.fst)).bind (Kind.readRow fields)

end Layout

/-! ## Reading by parts -/

/-- Whether one reading of a value goes by another one, be it of the value or of a part. -/
def GoesBy {α β γ : Type} (read? : γ → Option α) (part? : γ → Option β) : Prop :=
  ∃ next : β → Option α, ∀ j, read? j = (part? j).bind next

section GoesBy

variable {α β γ δ : Type} {f : δ → Option α} {g : δ → Option β} {h : δ → Option γ}

theorem GoesBy.refl (f : δ → Option α) : GoesBy f f := ⟨some, fun _ => (Option.bind_fun_some _).symm⟩

theorem GoesBy.trans (hfg : GoesBy f g) (hgh : GoesBy g h) : GoesBy f h := by
  obtain ⟨first, hfirst⟩ := hfg
  obtain ⟨second, hsecond⟩ := hgh
  refine ⟨fun c => (second c).bind first, fun j => ?_⟩
  rw [hfirst, hsecond, Option.bind_assoc]

theorem GoesBy.comp (h : GoesBy f g) (fill : δ → δ) :
    GoesBy (fun j => f (fill j)) fun j => g (fill j) := by
  obtain ⟨next, hnext⟩ := h
  exact ⟨next, fun j => hnext (fill j)⟩

/-- What is read alike in part is read alike. -/
theorem GoesBy.congr (h : GoesBy f g) {i j : δ} (heq : g i = g j) : f i = f j := by
  obtain ⟨next, hnext⟩ := h
  rw [hnext, hnext, heq]

/-- What is not read in part is not read. -/
theorem GoesBy.eq_none (h : GoesBy f g) {j : δ} (hnone : g j = none) : f j = none := by
  obtain ⟨next, hnext⟩ := h
  rw [hnext, hnone, Option.bind_none]

/-- A reading of two parts goes by either of them while the other is fixed. -/
theorem goesBy_first (g : δ → Option β) (fixed : Option γ) (next : β → γ → α) :
    GoesBy (fun j => (g j).bind fun b => fixed.map (next b)) g := ⟨_, fun _ => rfl⟩

theorem GoesBy.second (hg : GoesBy g h) (fixed : Option α) {ε : Type} (next : α → β → ε) :
    GoesBy (fun j => fixed.bind fun a => (g j).map (next a)) h := by
  obtain ⟨step, hstep⟩ := hg
  refine ⟨fun c => fixed.bind fun a => (step c).map (next a), fun j => ?_⟩
  rw [Option.bind_comm]
  simp only [hstep, Option.map_bind]
  rfl

end GoesBy

/-! ## Records -/

namespace Kind

variable {fields : List (String × Kind)} {look look' : String → Option Json} {name : String} {k : Kind}

/-- Reads the fields of a record, each from where it is found. -/
def readBy : (fields : List (String × Kind)) → (String → Option Json) → Option (Row fields)
  | [], _ => some ()
  | (name, k) :: fields, look =>
    ((look name).bind k.read?).bind fun x => (readBy fields look).map (Row.cons x)

theorem bind_readRow (fields : List (String × Kind)) (look : String → Option Json) :
    ((fields.map Prod.fst).mapM look).bind (readRow fields) = readBy fields look := by
  induction fields with
  | nil => rfl
  | cons field fields ih =>
    rw [readBy, ← ih, List.map_cons, mapM_cons_eq]
    cases look field.1 with
    | none => rfl
    | some j =>
      cases (fields.map Prod.fst).mapM look with
      | none => exact (Option.bind_fun_none (field.2.read? j)).symm
      | some js => rfl

theorem readBy_congr (h : ∀ name ∈ fields.map Prod.fst, look name = look' name) :
    readBy fields look = readBy fields look' := by
  induction fields with
  | nil => rfl
  | cons field fields ih =>
    rw [readBy, readBy, h field.1 List.mem_cons_self,
      ih fun name hname => h name (List.mem_cons_of_mem _ hname)]

theorem readBy_eq_none (hname : name ∈ fields.map Prod.fst) (hlook : look name = none) :
    readBy fields look = none := by
  induction fields with
  | nil => cases hname
  | cons field fields ih =>
    rw [readBy]
    rcases List.mem_cons.1 hname with rfl | htail
    · rw [hlook]
      rfl
    · rw [ih htail]
      exact Option.bind_fun_none _

/-- A record goes by each field that is looked up. -/
theorem goesBy_readBy (hnodup : (fields.map Prod.fst).Nodup) (hmem : (name, k) ∈ fields)
    {look : Json → String → Option Json} (hself : ∀ j, look j name = some j)
    (hothers : ∀ j i other, name ≠ other → look j other = look i other) :
    GoesBy (fun j => readBy fields (look j)) k.read? := by
  induction fields with
  | nil => cases hmem
  | cons field fields ih =>
    obtain ⟨hhead, htail⟩ := List.nodup_cons.1 hnodup
    rcases List.mem_cons.1 hmem with rfl | hmem
    · -- the other fields are looked up under other names
      have hrest : ∀ j, readBy fields (look j) = readBy fields (look default) := fun j =>
        readBy_congr fun other hother => hothers _ _ _ fun heq => hhead (heq ▸ hother)
      have heq : (fun j => readBy ((name, k) :: fields) (look j)) = fun j =>
          (k.read? j).bind fun x => (readBy fields (look default)).map (Row.cons x) := by
        funext j
        rw [readBy, hself, hrest]
        rfl
      rw [heq]
      exact goesBy_first k.read? _ _
    · have hne : name ≠ field.1 := fun heq =>
        hhead (List.mem_map.2 ⟨(name, k), hmem, heq⟩)
      have heq : (fun j => readBy (field :: fields) (look j)) = fun j =>
          ((look default field.1).bind field.2.read?).bind fun x =>
            (readBy fields (look j)).map (Row.cons x) := by
        funext j
        rw [readBy, hothers j default _ hne]
      rw [heq]
      exact (ih htail hmem).second _ _

/-- A record goes by each field in order. -/
theorem goesBy_readRow {front back : List Json} (hfield : fields[front.length]? = some (name, k)) :
    GoesBy (fun j => readRow fields (front ++ j :: back)) k.read? := by
  induction front generalizing fields with
  | nil =>
    obtain ⟨rest, rfl⟩ : ∃ rest, fields = (name, k) :: rest := by
      cases fields with
      | nil => cases hfield
      | cons field rest => exact ⟨rest, by rw [Option.some.inj hfield]⟩
    exact goesBy_first k.read? _ _
  | cons j front ih =>
    cases fields with
    | nil => cases hfield
    | cons field fields => exact (ih hfield).second _ _

end Kind

namespace Kind

variable {k : Kind}

/-- The fields of a record in which all are of one kind. -/
def Row.toList : (names : List String) → Row (names.map (·, k)) → List k.Result
  | [], _ => []
  | _ :: names, (x, row) => x :: toList names row

theorem mapM_read?_eq {names : List String} {js : List Json} (h : js.length = names.length) :
    js.mapM k.read? = (readRow (names.map (·, k)) js).map (Row.toList names) := by
  induction names generalizing js with
  | nil =>
    rw [List.length_eq_zero_iff.1 h]
    rfl
  | cons name names ih =>
    cases js with
    | nil => cases h
    | cons j js =>
      rw [mapM_cons_eq, ih (Nat.succ.inj h)]
      show _ = ((k.read? j).bind fun x =>
        (readRow (names.map (·, k)) js).map (Row.cons x)).map (Row.toList (name :: names))
      cases k.read? j with
      | none => rfl
      | some x => cases readRow (names.map (·, k)) js <;> rfl

end Kind

namespace Layout

variable {fields : List (String × Kind)} {members : List (String × Json)} {name : String} {k : Kind}

theorem read?_object (fields : List (String × Kind)) (members : List (String × Json)) :
    (record fields).read? (.object members) =
      Kind.readBy fields fun name => Json.unique? name members :=
  Kind.bind_readRow fields _

/-- Reordered fields and unknown ones are read as before. -/
theorem read?_rearranged {members' extra : List (String × Json)}
    (hextra : ∀ m ∈ extra, m.1 ∉ fields.map Prod.fst) (hperm : members'.Perm (members ++ extra)) :
    (record fields).read? (.object members') = (record fields).read? (.object members) := by
  rw [read?_object, read?_object]
  refine Kind.readBy_congr fun name hname => ?_
  rw [Json.unique?_perm hperm, Json.unique?_append_absent]
  exact fun m hm heq => hextra m hm (heq ▸ hname)

/-- Every field is required. -/
theorem read?_incomplete (hname : name ∈ fields.map Prod.fst)
    (habsent : ∀ m ∈ members, m.1 ≠ name) : (record fields).read? (.object members) = none := by
  rw [read?_object]
  exact Kind.readBy_eq_none hname (Json.unique?_eq_none_of_absent habsent)

theorem goesBy_member (hnodup : (fields.map Prod.fst).Nodup) (hmem : (name, k) ∈ fields)
    (front back : List (String × Json)) :
    GoesBy (fun j => (record fields).read? (.object (front ++ (name, j) :: back))) k.read? := by
  simp only [read?_object]
  rcases Json.unique?_insert front back name with hself | hnone
  · refine Kind.goesBy_readBy hnodup hmem hself fun j i other hne => ?_
    rw [Json.unique?_insert_of_ne _ _ _ hne, Json.unique?_insert_of_ne _ _ _ hne]
  · have hfield : name ∈ fields.map Prod.fst := List.mem_map.2 ⟨_, hmem, rfl⟩
    exact ⟨fun _ => none, fun j =>
      (Kind.readBy_eq_none hfield (hnone j)).trans (Option.bind_fun_none _).symm⟩

theorem goesBy_position {front back : List Json} (hfield : fields[front.length]? = some (name, k)) :
    GoesBy (fun j => (record fields).read? (.array (front ++ j :: back))) k.read? := by
  have hread : ∀ j, (record fields).read? (.array (front ++ j :: back)) =
      if front.length + (back.length + 1) = fields.length then
        Kind.readRow fields (front ++ j :: back) else none := by
    intro j
    show Option.bind (if _ then _ else _) _ = _
    rw [List.length_append, List.length_cons, List.length_map]
    split
    · rfl
    · rfl
  simp only [hread]
  split
  · exact Kind.goesBy_readRow hfield
  · exact ⟨fun _ => none, fun j => (Option.bind_fun_none _).symm⟩

theorem length_of_record? {names : List String} {j : Json} {js : List Json}
    (h : j.record? names = some js) : js.length = names.length := by
  obtain ⟨parts, -, hselect⟩ := Option.bind_eq_some_iff.1 h
  cases parts with
  | named members => exact length_of_mapM hselect
  | ordered items =>
    simp only [Json.Parts.select?] at hselect
    split at hselect
    · rename_i hlength
      rw [← Option.some.inj hselect, hlength]
    · cases hselect

/-- What is made of the fields of a record goes by the record if it goes by its fields. -/
theorem goesBy_record {α : Type} {build? : List Json → Option α} (next : Kind.Row fields → Option α)
    (h : ∀ js, js.length = fields.length → build? js = (Kind.readRow fields js).bind next) :
    GoesBy (fun j => (j.record? (fields.map Prod.fst)).bind build?) (record fields).read? := by
  refine ⟨next, fun j => ?_⟩
  show (j.record? (fields.map Prod.fst)).bind build? =
    ((j.record? (fields.map Prod.fst)).bind (Kind.readRow fields)).bind next
  cases hrecord : j.record? (fields.map Prod.fst) with
  | none => rfl
  | some js => exact h js (by rw [length_of_record? hrecord, List.length_map])

/-- A record in which all fields are of one kind. -/
theorem goesBy_uniform {α : Type} (names : List String) (next : List k.Result → Option α) :
    GoesBy (fun j => (j.record? names).bind fun js => (js.mapM k.read?).bind next)
      (record (names.map (·, k))).read? := by
  have hnames : (names.map (·, k)).map Prod.fst = names := by simp [Function.comp_def]
  have hrecord : GoesBy (fun j => (j.record? ((names.map (·, k)).map Prod.fst)).bind fun js =>
      (js.mapM k.read?).bind next) (record (names.map (·, k))).read? := by
    refine goesBy_record (fun row => next (Kind.Row.toList names row)) fun js hjs => ?_
    rw [Kind.mapM_read?_eq (hjs.trans (List.length_map _)), Option.bind_map]
    rfl
  rwa [hnames] at hrecord

/-- A record of two fields. -/
theorem goesBy_pair {α β γ : Type} {m n : String} {k l : Kind} {first? : Json → Option α}
    {second? : Json → Option β} {build : α → β → γ} {build? : List Json → Option γ}
    (hfirst : GoesBy first? k.read?) (hsecond : GoesBy second? l.read?)
    (hbuild : ∀ a b, build? [a, b] =
      (first? a).bind fun x => (second? b).bind fun y => some (build x y)) :
    GoesBy (fun j => (j.record? [m, n]).bind build?) (record [(m, k), (n, l)]).read? := by
  obtain ⟨one, hone⟩ := hfirst
  obtain ⟨two, htwo⟩ := hsecond
  refine goesBy_record (fun (x, y, _) => (one x).bind fun x => (two y).bind fun y => some (build x y)) ?_
  intro js hjs
  match js, hjs with
  | [a, b], _ =>
    rw [hbuild, hone, htwo, Kind.readRow, Kind.readRow]
    cases k.read? a with
    | none => rfl
    | some x =>
      cases l.read? b with
      | none => exact Option.bind_fun_none _
      | some y => rfl

/-- A record of three fields. -/
theorem goesBy_triple {α β γ δ : Type} {m n o : String} {k l h : Kind} {first? : Json → Option α}
    {second? : Json → Option β} {third? : Json → Option γ} {build : α → β → γ → δ}
    {build? : List Json → Option δ} (hfirst : GoesBy first? k.read?)
    (hsecond : GoesBy second? l.read?) (hthird : GoesBy third? h.read?)
    (hbuild : ∀ a b c, build? [a, b, c] = (first? a).bind fun x =>
      (second? b).bind fun y => (third? c).bind fun z => some (build x y z)) :
    GoesBy (fun j => (j.record? [m, n, o]).bind build?)
      (record [(m, k), (n, l), (o, h)]).read? := by
  obtain ⟨one, hone⟩ := hfirst
  obtain ⟨two, htwo⟩ := hsecond
  obtain ⟨three, hthree⟩ := hthird
  refine goesBy_record (fun (x, y, z, _) => (one x).bind fun x =>
    (two y).bind fun y => (three z).bind fun z => some (build x y z)) ?_
  intro js hjs
  match js, hjs with
  | [a, b, c], _ =>
    rw [hbuild, hone, htwo, hthree, Kind.readRow, Kind.readRow, Kind.readRow]
    cases k.read? a with
    | none => rfl
    | some x =>
      cases l.read? b with
      | none => exact Option.bind_fun_none _
      | some y =>
        cases h.read? c with
        | none =>
          simp only [Option.bind_some, Option.bind_none, Option.bind_fun_none, Option.map_none]
        | some z => rfl

end Layout

end Camouflage
