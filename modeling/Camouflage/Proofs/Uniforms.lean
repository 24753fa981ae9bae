import Camouflage.Proofs.Anchors
import Camouflage.Proofs.Readings

/-!
# Well-formed uniforms

A uniform is well formed if its literal is worth a value of its type. Such a value is what
a shader binds to the reference (`Bindings.holds_ofUniforms`), and what synthesis takes the
uniform to hold, unless it refuses it (`Uniform.value?_of_contents`).
-/

namespace Camouflage

namespace Value

/-- Concretization to an integer type keeps the integer. -/
theorem integer?_of_concretize?_eq {v w : Value} {ty : Scalar} (hty : ty.isInteger = true)
    (h : v.concretize? ty = some w) : ∃ n, v.integer? = some n ∧ w.integer? = some n := by
  have habstract : ∀ word : Int64, (abstractInt word).concretize? ty = some w →
      (abstractInt word).integer? = some word.toInt ∧ w.integer? = some word.toInt :=
    fun word h => ⟨rfl, integer?_of_concretize? hty h⟩
  cases v with
  | abstractInt word => exact ⟨_, habstract word h⟩
  | i32 n =>
    unfold concretize? at h
    split at h
    · exact ⟨_, rfl, by rw [← Option.some.inj h]; rfl⟩
    · cases h
  | u32 n =>
    unfold concretize? at h
    split at h
    · exact ⟨_, rfl, by rw [← Option.some.inj h]; rfl⟩
    · cases h
  | f32 x =>
    unfold concretize? at h
    split at h
    · rename_i hscalar
      rw [← hscalar] at hty
      cases hty
    · cases h
  | abstractFloat x =>
    cases ty with
    | i32 => cases h
    | u32 => cases h
    | abstractInt => cases h
    | _ => cases hty

/-- A value is known by its type and its integer. -/
theorem eq_of_integer? {v w : Value} {n : Int} (hscalar : v.scalar = w.scalar)
    (hv : v.integer? = some n) (hw : w.integer? = some n) : v = w := by
  have hinj := hv.trans hw.symm
  cases v with
  | i32 a =>
    cases w with
    | i32 c => rw [Int32.toInt_inj.1 (Option.some.inj hinj)]
    | _ => cases hscalar
  | u32 a =>
    cases w with
    | u32 c => rw [UInt32.toNat_inj.1 (Int.natCast_inj.1 (Option.some.inj hinj))]
    | _ => cases hscalar
  | abstractInt a =>
    cases w with
    | abstractInt c => rw [Int64.toInt_inj.1 (Option.some.inj hinj)]
    | _ => cases hscalar
  | f32 x => cases hv
  | abstractFloat x => cases hv

theorem integer?_range {v : Value} {n : Int} (hconcrete : v.IsConcrete) (hv : v.integer? = some n) :
    -2 ^ 31 ≤ n ∧ n < 2 ^ 32 ∧ (v.scalar = .i32 → n < 2 ^ 31) := by
  cases v with
  | i32 a =>
    have hlow := a.le_toInt
    have hhigh := a.toInt_lt
    obtain rfl := Option.some.inj hv
    exact ⟨hlow, by omega, fun _ => hhigh⟩
  | u32 a =>
    have hlt := a.toNat_lt
    obtain rfl := Option.some.inj hv
    exact ⟨by omega, by omega, fun hscalar => by cases hscalar⟩
  | abstractInt a => cases hconcrete
  | f32 x => cases hv
  | abstractFloat x => cases hv

end Value

namespace Uniform

variable {u : Uniform}

/-- The value of the literal of a uniform, as one of its type. -/
def value? (u : Uniform) : Option Value :=
  match u.literal.eval .empty with
  | .ok v => v.concretize? u.ty
  | .error _ => none

/-- A reference of a concrete type with numbers, and a literal that has a value of it. -/
structure WellFormed (u : Uniform) : Prop where
  reference : u.reference.isReference = true
  literal : u.literal.isSignedLiteral = true
  ty : u.ty = .i32 ∨ u.ty = .u32 ∨ u.ty = .f32
  value : u.value?.isSome = true

/-- Well-formed uniforms, of which those with the same text have the same type and value. -/
structure AllWellFormed (us : List Uniform) : Prop where
  each : ∀ u ∈ us, u.WellFormed
  consistent : ∀ u ∈ us, ∀ w ∈ us, u.reference.text = w.reference.text →
    u.ty = w.ty ∧ u.value? = w.value?

/-- A uniform with a fraction. -/
def sample : Uniform := ⟨.identifier "x", .unary .negate (.floatLiteral "2.5"), .f32⟩

theorem wellFormed_sample : sample.WellFormed where
  reference := rfl
  literal := rfl
  ty := .inr (.inr rfl)
  value := by decide +kernel

theorem allWellFormed_sample : AllWellFormed [sample] where
  each := by
    intro u hu
    rw [List.mem_singleton.1 hu]
    exact wellFormed_sample
  consistent := by
    intro u hu w hw _
    rw [List.mem_singleton.1 hu, List.mem_singleton.1 hw]
    exact ⟨rfl, rfl⟩

theorem value?_eq_some_iff {v : Value} :
    u.value? = some v ↔ ∃ w, u.literal.eval .empty = .ok w ∧ w.concretize? u.ty = some v := by
  unfold value?
  cases u.literal.eval .empty with
  | ok w => simp
  | error fault => simp

/-- The integer that synthesis reads is the one that the literal is worth. -/
theorem value?_of_integer (h : u.WellFormed) {x : Double} {v : Value}
    (hread : Literal.read u.literal = .ok x) (hty : u.ty.isInteger = true)
    (hscalar : v.scalar = u.ty) (hconcrete : v.IsConcrete)
    (hv : v.integer? = some (x.toIntClamped Int64.minValue.toInt Int64.maxValue.toInt)) :
    u.value? = some v := by
  obtain ⟨w, hw⟩ := Option.isSome_iff_exists.1 h.value
  obtain ⟨y, heval, hconcretize⟩ := value?_eq_some_iff.1 hw
  obtain ⟨n, hy, hn⟩ := Value.integer?_of_concretize?_eq hty hconcretize
  have hwscalar := Value.scalar_of_concretize? hconcretize
  have hwconcrete : w.IsConcrete := by
    rw [Value.IsConcrete, hwscalar, ← hscalar]
    exact hconcrete
  obtain ⟨hlow, hhigh, -⟩ := Value.integer?_range hwconcrete hn
  have hmin := Int64.toInt_minValue
  have hmax := Int64.toInt_maxValue
  have hwide : (2 : Nat) ^ 32 ≤ 2 ^ Format.double.precision := by decide
  rcases Expr.rounds_of_read h.literal heval hread hy with hrounds | ⟨hleast, hrounds⟩
  · rw [hrounds.toIntClamped Format.double_spacious (by omega) (by omega) (by omega)] at hv
    rw [hw, Value.eq_of_integer? (hscalar.trans hwscalar.symm) hv hn]
  · -- what is read is the word that the least one wrapped from, and no value has it
    obtain rfl : n = -2 ^ 31 := by
      rw [hleast] at hy
      exact (Option.some.inj hy).symm
    rw [hrounds.toIntClamped Format.double_spacious (by omega) (by omega) (by omega)] at hv
    have hsigned : u.ty = .i32 := by
      rw [hleast] at hconcretize
      unfold Value.concretize? at hconcretize
      split at hconcretize
      · rename_i heq
        exact heq.symm
      · cases hconcretize
    have := (Value.integer?_range hconcrete hv).2.2 (hscalar.trans hsigned)
    omega

/-- What synthesis takes a well-formed uniform to hold is the value of its literal. -/
theorem value?_of_contents (h : u.WellFormed) {v : Value} (hv : u.contents = .ok v) :
    u.value? = some v := by
  obtain ⟨hscalar, hconcrete⟩ := scalar_of_contents hv
  obtain ⟨x, hread, hv⟩ := exists_of_bind_eq_ok hv
  split at hv
  · rename_i hty
    obtain ⟨w, hw, rfl⟩ := Option.map_eq_some_iff.1 (integerContents_ok hv).2
    refine value?_of_integer h hread (by rw [hty]; rfl) hscalar hconcrete ?_
    rw [Value.integer?, int32?_eq_some_iff.1 hw]
  · rename_i hty
    obtain ⟨w, hw, rfl⟩ := Option.map_eq_some_iff.1 (integerContents_ok hv).2
    refine value?_of_integer h hread (by rw [hty]; rfl) hscalar hconcrete ?_
    rw [Value.integer?, uint32?_eq_some_iff.1 hw]
  · rename_i hty
    rw [value?_eq_some_iff, hty]
    exact singleContents_ok hv
  · cases hv
  · cases hv
  · cases hv

end Uniform

/-! ## What a shader binds -/

namespace Bindings

/-- Whether the bindings give each uniform the value of its literal. -/
def Holds {J : Type} [Membership Uniform J] (b : Bindings) (us : J) : Prop :=
  ∀ u ∈ us, ∃ v, u.value? = some v ∧ b.lookup u.reference = .ok v

theorem lookup_bind {b : Bindings} {e r : Expr} {v : Value} (h : r.text = e.text) :
    (b.bind e v).lookup r = .ok v := by
  simp [lookup, bind, h]

theorem addUniform_eq {b : Bindings} {u : Uniform} (h : u.WellFormed) {v : Value}
    (hv : u.value? = some v) : b.addUniform u = b.bind u.reference v := by
  obtain ⟨w, heval, hconcretize⟩ := Uniform.value?_eq_some_iff.1 hv
  rw [addUniform, Expr.eval_of_isSignedLiteral h.literal b .empty, heval]
  dsimp only
  rw [hconcretize]
  rfl

/-- Binding further uniforms keeps a value that they agree with. -/
theorem lookup_foldl_addUniform {us : List Uniform} (hus : ∀ u ∈ us, u.WellFormed) {r : Expr}
    {v : Value} (hagree : ∀ u ∈ us, u.reference.text = r.text → u.value? = some v)
    {b : Bindings} (hb : b.lookup r = .ok v ∨ ∃ u ∈ us, u.reference.text = r.text) :
    (us.foldl addUniform b).lookup r = .ok v := by
  -- the text is bound to the value already, or one of the uniforms to come binds it
  induction us generalizing b with
  | nil =>
    rcases hb with hb | ⟨u, hu, -⟩
    · exact hb
    · cases hu
  | cons u us ih =>
    rw [List.foldl_cons]
    have hwell := hus u List.mem_cons_self
    obtain ⟨w, hw⟩ := Option.isSome_iff_exists.1 hwell.value
    refine ih (fun x hx => hus x (List.mem_cons_of_mem _ hx))
      (fun x hx => hagree x (List.mem_cons_of_mem _ hx)) ?_
    rw [addUniform_eq hwell hw]
    by_cases htext : u.reference.text = r.text
    · rw [hagree u List.mem_cons_self htext] at hw
      rw [← Option.some.inj hw]
      exact .inl (lookup_bind htext.symm)
    · rw [lookup_bind_of_text_ne _ _ (Ne.symm htext)]
      rcases hb with hb | ⟨x, hx, hxtext⟩
      · exact .inl hb
      · rcases List.mem_cons.1 hx with rfl | hx
        · exact absurd hxtext htext
        · exact .inr ⟨x, hx, hxtext⟩

/-- The bindings of a well-formed list give each uniform its value. -/
theorem holds_ofUniforms {us : List Uniform} (h : Uniform.AllWellFormed us) :
    (ofUniforms us).Holds us := by
  intro u hu
  obtain ⟨v, hv⟩ := Option.isSome_iff_exists.1 (h.each u hu).value
  refine ⟨v, hv, lookup_foldl_addUniform h.each ?_ (.inr ⟨u, hu, rfl⟩)⟩
  intro w hw htext
  rw [(h.consistent w hw u hu htext).2, hv]

variable {J : Type} [Membership Uniform J]

/-- Where a uniform is bound to its value it is bound to what synthesis takes it to hold. -/
theorem Holds.lookup_of_contents {b : Bindings} {us : J} (hb : b.Holds us)
    (hus : ∀ u ∈ us, u.WellFormed) {u : Uniform} (hu : u ∈ us) {v : Value}
    (hv : u.contents = .ok v) : b.lookup u.reference = .ok v := by
  obtain ⟨w, hw, hlookup⟩ := hb u hu
  rw [Uniform.value?_of_contents (hus u hu) hv] at hw
  rw [hlookup, Option.some.inj hw]

theorem Holds.serves {b : Bindings} {us : J} (hb : b.Holds us)
    (hus : ∀ u ∈ us, u.WellFormed) (ty : Scalar) : b.Serves ty us where
  refersTo _ u hu := (hus u hu).reference
  lookup_eq _ _ hu _ hv := hb.lookup_of_contents hus hu hv

end Bindings

end Camouflage
