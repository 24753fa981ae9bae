import Camouflage.Random.Source
import Camouflage.Uniform

/-!
# Shader jobs

Synthesis sees the shader that it works for as a job, which offers a uniform when it is
asked for one. How it picks that uniform is its own affair: it may draw from the source,
and it may have none. Two kinds of job are given here, a list of uniforms, all of them
equally likely, and the job without any.
-/

namespace Camouflage

/-- A shader as far as synthesis needs it. What it picks is one of its uniforms. -/
class ShaderJob (J : Type) [Membership Uniform J] where
  pick? {σ : Type} [WordSource σ] : J → StateM σ (Option Uniform)
  mem_of_pick? {σ : Type} [WordSource σ] {job : J} {source : σ} {u : Uniform} :
    ((pick? job).run source).1 = some u → u ∈ job

instance : ShaderJob (List Uniform) where
  pick? := Random.element?
  mem_of_pick? := Random.mem_of_element?

/-- The job of a shader without uniforms. -/
structure NoUniforms where
  deriving DecidableEq, Repr

instance : Membership Uniform NoUniforms where
  mem _ _ := False

instance : ShaderJob NoUniforms where
  pick? _ := pure none
  mem_of_pick? h := by cases h

namespace ShaderJob

/-- Two jobs are alike if they pick the same uniform and leave the source in the same
state, whatever it is. -/
def Alike {J J' : Type} [Membership Uniform J] [ShaderJob J] [Membership Uniform J'] [ShaderJob J']
    (job : J) (other : J') : Prop :=
  ∀ {σ : Type} [WordSource σ], (pick? job : StateM σ (Option Uniform)) = pick? other

/-- A shader without uniforms is the same as one whose list of them is empty. -/
theorem alike_noUniforms : Alike (⟨⟩ : NoUniforms) ([] : List Uniform) := rfl

end ShaderJob

end Camouflage
