import Camouflage.Synthesis
import Mathlib.Algebra.Group.Nat.Defs

/-!
# What a step of synthesis ends in

A step draws from a source and may fail. `Synth.Ends` says of every state of the source
at once which results and which failures are possible, and has one rule for each way in
which steps are put together, so that a strategy is looked at draw by draw and the
source is not mentioned again.

The draws come with their ranges: a number between two limits, an element of a list, a
candidate whose weight is not zero.
-/

namespace Camouflage

namespace Synth

variable {σ α β : Type}

/-- What a step gives when the source is in a state. -/
def outcome (step : Synth σ α) (source : σ) : Except Failure α := (step.run.run source).1

/-- A result of one kind or a failure of another. -/
def Admits (post : α → Prop) (refused : Failure → Prop) : Except Failure α → Prop
  | .ok a => post a
  | .error failure => refused failure

/-- Whatever state the source is in, the step ends in a result of one kind or in a failure
of another. -/
def Ends (step : Synth σ α) (post : α → Prop) (refused : Failure → Prop) : Prop :=
  ∀ source, Admits post refused (outcome step source)

theorem exists_ok {step : Synth σ α} {source : σ} (h : (outcome step source).isOk = true) :
    ∃ a, outcome step source = .ok a := by
  cases hout : outcome step source with
  | ok a => exact ⟨a, rfl⟩
  | error failure =>
    rw [hout] at h
    cases h

/-- The second of two steps starts wherever the first left the source. -/
theorem outcome_bind (step : Synth σ α) (next : α → Synth σ β) (source : σ) :
    outcome (step >>= next) source =
      match outcome step source with
      | .ok a => outcome (next a) (step.run.run source).2
      | .error failure => .error failure := by
  show ((ExceptT.bindCont next (step.run.run source).1 : StateM σ (Except Failure β)).run
    (step.run.run source).2).1 = _
  unfold outcome
  cases (step.run.run source).1 <;> rfl

theorem ok_bind (a : α) (next : α → Synth σ β) :
    (liftM (Except.ok a : Except Failure α) : Synth σ α) >>= next = next a := rfl

theorem map_ite (f : α → β) {c : Prop} [Decidable c] (step other : Synth σ α) :
    f <$> (if c then step else other) = if c then f <$> step else f <$> other :=
  apply_ite (f <$> ·) c step other

namespace Ends

variable {post : α → Prop} {refused : Failure → Prop}

theorem of_ok {step : Synth σ α} (h : Ends step post refused) {source : σ} {a : α}
    (hok : outcome step source = .ok a) : post a := by
  have := h source
  rwa [hok] at this

theorem of_error {step : Synth σ α} (h : Ends step post refused) {source : σ}
    {failure : Failure} (herror : outcome step source = .error failure) : refused failure := by
  have := h source
  rwa [herror] at this

theorem pure {a : α} (h : post a) : Ends (Pure.pure a : Synth σ α) post refused :=
  fun _ => h

theorem throw {failure : Failure} (h : refused failure) :
    Ends (MonadExcept.throw failure : Synth σ α) post refused :=
  fun _ => h

/-- A draw has no failure, so only its results matter. -/
theorem draw {step : StateM σ α} (h : ∀ source, post (step.run source).1) :
    Ends (Camouflage.draw step) post refused :=
  fun source => h source

/-- A computation that draws nothing. -/
theorem lift {result : Except Failure α} (hok : ∀ a, result = .ok a → post a)
    (herror : ∀ failure, result = .error failure → refused failure) :
    Ends (liftM result : Synth σ α) post refused := by
  intro source
  show Admits post refused result
  cases result with
  | ok a => exact hok a rfl
  | error failure => exact herror failure rfl

theorem bind {step : Synth σ α} {next : α → Synth σ β} {after : β → Prop}
    (hstep : Ends step post refused)
    (hnext : ∀ a, post a → Ends (next a) after refused) :
    Ends (step >>= next) after refused := by
  intro source
  have hfirst := hstep source
  rw [outcome_bind]
  cases hout : outcome step source with
  | ok a =>
    rw [hout] at hfirst
    exact hnext a hfirst _
  | error failure =>
    rw [hout] at hfirst
    exact hfirst

theorem bind_ok {a : β} {next : β → Synth σ α} (h : Ends (next a) post refused) :
    Ends ((liftM (Except.ok a : Except Failure β) : Synth σ β) >>= next) post refused :=
  h

theorem map {step : Synth σ α} (f : α → β) (h : Ends step post refused) :
    Ends (f <$> step) (fun b => ∃ a, post a ∧ b = f a) refused :=
  h.bind fun a ha => pure ⟨a, ha, rfl⟩

theorem ite {c : Prop} [Decidable c] {step other : Synth σ α} (hstep : c → Ends step post refused)
    (hother : ¬ c → Ends other post refused) :
    Ends (if c then step else other) post refused := by
  split
  · rename_i h
    exact hstep h
  · rename_i h
    exact hother h

/-- A step may be said to end in more than it does. -/
theorem mono {step : Synth σ α} {post' : α → Prop} {refused' : Failure → Prop}
    (h : Ends step post refused) (hpost : ∀ a, post a → post' a)
    (hrefused : ∀ failure, refused failure → refused' failure) :
    Ends step post' refused' := by
  intro source
  have hout := h source
  cases hcase : outcome step source with
  | ok a =>
    rw [hcase] at hout
    exact hpost a hout
  | error failure =>
    rw [hcase] at hout
    exact hrefused failure hout

/-- Two ways to go on make the same run if they agree on what the first step can end in. -/
theorem bind_congr {step : Synth σ α} {next next' : α → Synth σ β} (hstep : Ends step post refused)
    (hnext : ∀ a, post a → next a = next' a) : step >>= next = step >>= next' := by
  refine ExceptT.ext ?_
  funext source
  have hfirst := hstep source
  show (ExceptT.bindCont next (step.run.run source).1 : StateM σ (Except Failure β)).run
      (step.run.run source).2 =
    (ExceptT.bindCont next' (step.run.run source).1 : StateM σ (Except Failure β)).run
      (step.run.run source).2
  unfold outcome at hfirst
  cases hout : (step.run.run source).1 with
  | ok a =>
    rw [hout] at hfirst
    rw [ExceptT.bindCont, ExceptT.bindCont, hnext a hfirst]
  | error failure => rfl

end Ends

end Synth

/-! ## Ranges of draws -/

namespace Random

variable {σ : Type}

/-- However many words are tried, the number stays below its bound: zero, which is given
when no word was accepted, does so too. -/
theorem scaled_lt {width bound : Nat} {word : StateM σ Nat} (hbound : 0 < bound)
    (hword : ∀ source, (word.run source).1 < words width) (tries : Nat) (source : σ) :
    ((scaled width bound word tries).run source).1 < bound := by
  induction tries generalizing source with
  | zero => exact hbound
  | succ tries ih =>
    rw [scaled]
    show ((_ : StateM σ Nat).run (word.run source).2).1 < bound
    split
    · rename_i n hscale
      exact lt_of_scale? (hword source) hbound hscale
    · exact ih _

variable [WordSource σ]

theorem below_lt {width bound : Nat} {word : StateM σ Nat} (hbound : 0 < bound)
    (hword : ∀ source, (word.run source).1 < words width) (source : σ) :
    ((below width bound word).run source).1 < bound :=
  scaled_lt hbound hword _ source

theorem below64_lt {bound : UInt64} (hbound : bound ≠ 0) (source : σ) :
    ((below64 bound).run source).1.toNat < bound.toNat := by
  have hpos : 0 < bound.toNat :=
    Nat.pos_of_ne_zero fun hzero => hbound (UInt64.toNat_inj.1 hzero)
  obtain ⟨n, hlt, hdrawn⟩ :
      ∃ n < bound.toNat, ((below64 bound).run source).1 = UInt64.ofNat n := by
    have hword : ∀ s : σ, ((do return (← word64).toNat : StateM σ Nat).run s).1 < 2 ^ 64 :=
      fun s => (word64.run s).1.toNat_lt
    refine ⟨_, below_lt hpos hword source, ?_⟩
    rw [below64, if_neg hbound]
    rfl
  have hsize := bound.toNat_lt
  rw [hdrawn, UInt64.toNat_ofNat_of_lt' (by rw [UInt64.size]; omega)]
  exact hlt

/-- A number drawn between two limits lies between them. -/
theorem between_mem {low high : UInt32} (h : low ≤ high) (source : σ) :
    low ≤ ((between low high).run source).1 ∧ ((between low high).run source).1 ≤ high := by
  have hle : low.toNat ≤ high.toNat := UInt32.le_iff_toNat_le.1 h
  obtain ⟨n, hlt, hdrawn⟩ : ∃ n < high.toNat - low.toNat + 1,
      ((between low high).run source).1 = UInt32.ofNat (low.toNat + n) := by
    have hword : ∀ s : σ, ((do return (← word32).toNat : StateM σ Nat).run s).1 < 2 ^ 32 :=
      fun s => (WordSource.next s).1.toNat_lt
    refine ⟨_, below_lt (by omega) hword source, ?_⟩
    rw [between, if_neg (by rw [UInt32.lt_iff_toNat_lt]; omega)]
    rfl
  have hhigh := high.toNat_lt
  rw [hdrawn, UInt32.le_iff_toNat_le, UInt32.le_iff_toNat_le,
    UInt32.toNat_ofNat_of_lt' (by rw [UInt32.size]; omega)]
  omega

end Random

namespace Choice

variable {α : Type}

/-- The candidate at a point of the line is one whose weight is not zero. -/
theorem mem_of_at? {candidates : List (α × UInt32)} {point : Nat} {a : α}
    (h : at? candidates point = some a) : ∃ weight, weight ≠ 0 ∧ (a, weight) ∈ candidates := by
  induction candidates generalizing point with
  | nil => simp [at?] at h
  | cons head tail ih =>
    obtain ⟨candidate, weight⟩ := head
    rw [at?] at h
    split at h
    · rename_i hpoint
      obtain rfl := Option.some.inj h
      refine ⟨weight, ?_, List.mem_cons_self⟩
      rintro rfl
      simp at hpoint
    · obtain ⟨w, hw, hmem⟩ := ih h
      exact ⟨w, hw, List.mem_cons_of_mem _ hmem⟩

/-- The length of the line as a natural number. -/
def length : List (α × UInt32) → Nat
  | [] => 0
  | (_, weight) :: rest => weight.toNat + length rest

theorem length_cons (candidate : α × UInt32) (rest : List (α × UInt32)) :
    length (candidate :: rest) = candidate.2.toNat + length rest := rfl

theorem weight_le_length {candidates : List (α × UInt32)} {a : α} {weight : UInt32}
    (h : (a, weight) ∈ candidates) : weight.toNat ≤ length candidates := by
  induction candidates with
  | nil => cases h
  | cons head tail ih =>
    rw [length_cons]
    rcases List.mem_cons.1 h with rfl | htail
    · exact Nat.le_add_right _ _
    · exact Nat.le_add_left_of_le (ih htail)

theorem length_le (candidates : List (α × UInt32)) :
    length candidates ≤ candidates.length * (2 ^ 32 - 1) := by
  induction candidates with
  | nil => simp [length]
  | cons head tail ih =>
    have hhead := head.2.toNat_lt
    rw [length_cons, List.length_cons]
    omega

/-- The sum of so few weights does not wrap. -/
theorem toNat_total {candidates : List (α × UInt32)} (h : candidates.length < 2 ^ 32) :
    (total candidates).toNat = length candidates := by
  induction candidates with
  | nil => rfl
  | cons head tail ih =>
    rw [List.length_cons] at h
    have htail := ih (by omega)
    have hbound := length_le (head :: tail)
    have hsum : total (head :: tail) = head.2.toUInt64 + total tail := rfl
    rw [length_cons, List.length_cons] at hbound
    -- fewer than two to the power of 32 weights of 32 bits stay within 64 bits
    rw [hsum, UInt64.toNat_add, htail, length_cons, UInt32.toNat_toUInt64]
    exact Nat.mod_eq_of_lt (by omega)

/-- Some candidate lies at every point of the line. -/
theorem at?_isSome {candidates : List (α × UInt32)} {point : Nat}
    (h : point < length candidates) : (at? candidates point).isSome := by
  induction candidates generalizing point with
  | nil => simp [length] at h
  | cons head tail ih =>
    rw [length_cons] at h
    rw [at?]
    split
    · rfl
    · exact ih (by omega)

variable {σ : Type} [WordSource σ]

/-- A candidate of weight zero at the end of the line has no part in the choice, nor in what
is drawn for it. -/
theorem choose_append_zero (candidates : List (α × UInt32)) (a : α) :
    (choose (candidates ++ [(a, 0)]) : StateM σ (Option α)) = choose candidates := by
  have hline : line (candidates ++ [(a, 0)]) = line candidates := by
    simp [line_eq_filter]
  rw [← choose_line, hline, choose_line]

/-- A choice falls to a candidate whose weight is not zero. -/
theorem mem_of_choose {candidates : List (α × UInt32)} {a : α} {source : σ}
    (h : ((choose candidates).run source).1 = some a) :
    ∃ weight, weight ≠ 0 ∧ (a, weight) ∈ candidates := by
  unfold choose at h
  split at h
  · cases h
  · exact mem_of_at? h

/-- There is no choice only if all weights are zero. -/
theorem eq_zero_of_choose_eq_none {candidates : List (α × UInt32)} {source : σ}
    (hfew : candidates.length < 2 ^ 32) (h : ((choose candidates).run source).1 = none)
    {a : α} {weight : UInt32} (hmem : (a, weight) ∈ candidates) : weight = 0 := by
  unfold choose at h
  split at h
  · rename_i hzero
    have hlength : length candidates = 0 := by
      rw [← toNat_total hfew, hzero]
      rfl
    have hle := weight_le_length hmem
    rw [hlength] at hle
    exact UInt32.toNat_inj.1 (Nat.le_zero.1 hle)
  · rename_i hne
    have hlt := Random.below64_lt hne source
    rw [toNat_total hfew] at hlt
    have hsome := at?_isSome hlt
    have hnone : at? candidates ((Random.below64 (total candidates)).run source).1.toNat = none := h
    rw [hnone] at hsome
    cases hsome

end Choice

end Camouflage
