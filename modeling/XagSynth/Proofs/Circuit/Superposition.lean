import XagSynth.Proofs.Circuit.Amplitude

/-!
# The clean Toffoli on superpositions

On a state whose target is clear, the clean Toffoli acts as the Toffoli after a
phase `i` on the states whose first control is set and second is not
(`run_toffoliGates_clean_state`), a phase that depends on the controls and so
is no global one (`toffoliGates_clean_relative_phase`).
-/

noncomputable section

open Complex

namespace XagSynth.Circuit

variable {α : Type} [DecidableEq α]

def toffoliFlip (c1 c2 q : α) (p1 p2 : Bool) (y : α → Bool) : α → Bool :=
  Function.update y q (y q ^^ ((y c1 ^^ p1) && (y c2 ^^ p2)))

/-- The Toffoli with negated controls on a state: it sends each basis state to
the basis state of its flipped bits. -/
def negToffoli (c1 c2 q : α) (p1 p2 : Bool) (ψ : State α) : State α :=
  fun y => ψ (toffoliFlip c1 c2 q p1 p2 y)

theorem toffoliFlip_toffoliFlip {c1 c2 q : α} (h1 : c1 ≠ q) (h2 : c2 ≠ q) (p1 p2 : Bool)
    (y : α → Bool) : toffoliFlip c1 c2 q p1 p2 (toffoliFlip c1 c2 q p1 p2 y) = y := by
  funext p
  by_cases hp : p = q
  · subst hp
    simp [toffoliFlip, Function.update_of_ne h1, Function.update_of_ne h2]
  · simp [toffoliFlip, Function.update_of_ne hp]

theorem negToffoli_basis {c1 c2 q : α} (h1 : c1 ≠ q) (h2 : c2 ≠ q) (p1 p2 : Bool)
    (x : α → Bool) : negToffoli c1 c2 q p1 p2 (basis x) = basis (toffoliFlip c1 c2 q p1 p2 x) := by
  funext y
  have hiff : toffoliFlip c1 c2 q p1 p2 y = x ↔ y = toffoliFlip c1 c2 q p1 p2 x := by
    constructor
    · rintro rfl
      rw [toffoliFlip_toffoliFlip h1 h2]
    · rintro rfl
      exact toffoliFlip_toffoliFlip h1 h2 p1 p2 x
  simp only [negToffoli, basis]
  by_cases hy : y = toffoliFlip c1 c2 q p1 p2 x
  · rw [if_pos (hiff.mpr hy), if_pos hy]
  · rw [if_neg (mt hiff.mp hy), if_neg hy]

theorem run_zero (gs : List (Gate α)) : run gs (0 : State α) = 0 := by
  simpa using run_smul gs 0 0

section Finite

variable [Fintype α]

omit [Fintype α] in
theorem run_sum {ι : Type} [Fintype ι] (gs : List (Gate α)) (f : ι → State α) :
    run gs (∑ i, f i) = ∑ i, run gs (f i) :=
  map_sum (AddMonoidHom.mk' (run gs) (run_add gs)) f Finset.univ

theorem sum_smul_basis (ψ : State α) : ∑ x, ψ x • basis x = ψ := by
  funext y
  simp [Finset.sum_apply, basis]

/-- On a state whose target is clear, the clean Toffoli with negated controls is
the Toffoli with negated controls after the phase `i` on the states whose first
control is set and whose second is not, both read as negated. -/
theorem run_toffoliGates_clean_state {c1 c2 q : α} (h12 : c1 ≠ c2) (h1 : c1 ≠ q) (h2 : c2 ≠ q)
    (p1 p2 : Bool) (ψ : State α) (hψ : ∀ y, y q = true → ψ y = 0) :
    run (toffoliGates c1 c2 q p1 p2 true) ψ =
      negToffoli c1 c2 q p1 p2 (fun y => (if (y c1 ^^ p1) && !(y c2 ^^ p2) then I else 1) * ψ y) := by
  set ph : (α → Bool) → ℂ := fun y => if (y c1 ^^ p1) && !(y c2 ^^ p2) then I else 1
  have hterm : ∀ x, run (toffoliGates c1 c2 q p1 p2 true) (ψ x • basis x) =
      (ph x * ψ x) • basis (toffoliFlip c1 c2 q p1 p2 x) := by
    intro x
    cases hx : x q with
    | true => simp [hψ x hx, run_zero]
    | false =>
      rw [run_smul, run_toffoliGates_clean h12 h1 h2 x hx, smul_smul, mul_comm]
      simp only [toffoliFlip, hx, Bool.false_xor, ph]
  have hsum : ∑ x, (ph x * ψ x) • basis (toffoliFlip c1 c2 q p1 p2 x) =
      negToffoli c1 c2 q p1 p2 (fun y => ph y * ψ y) := by
    conv_rhs => rw [← sum_smul_basis (fun y => ph y * ψ y)]
    funext y
    simp only [← negToffoli_basis h1 h2, negToffoli, Finset.sum_apply, Pi.smul_apply]
  conv_lhs => rw [← sum_smul_basis ψ, run_sum]
  simp only [hterm]
  exact hsum

end Finite

def firstControlPair : State (Fin 3) := basis ![false, false, false] + basis ![true, false, false]

theorem firstControlPair_target_clear : ∀ y, y 2 = true → firstControlPair y = 0 := by
  intro y hy
  have h0 : y ≠ ![false, false, false] := fun h => by simp [h] at hy
  have h1 : y ≠ ![true, false, false] := fun h => by simp [h] at hy
  simp [firstControlPair, basis, h0, h1]

/-- With controls 0 and 1 and target 2, the clean Toffoli takes the pair of
states to the clear state plus `i` times the other. -/
theorem run_toffoliGates_clean_firstControlPair :
    (∀ y, y 2 = true → firstControlPair y = 0) ∧
      run (toffoliGates (0 : Fin 3) 1 2 false false true) firstControlPair =
        negToffoli 0 1 2 false false
          (fun y => (if (y 0 ^^ false) && !(y 1 ^^ false) then I else 1) * firstControlPair y) :=
  ⟨firstControlPair_target_clear,
    run_toffoliGates_clean_state (by decide) (by decide) (by decide) false false firstControlPair
      firstControlPair_target_clear⟩

/-- The clean Toffoli is no Toffoli up to a global phase on its clear-target
states: on `firstControlPair` it gives the clear state weight `1` and the other
weight `i`, while every multiple of the Toffoli, which fixes both, gives them
equal weights. -/
theorem toffoliGates_clean_relative_phase :
    (∀ y, y 2 = true → firstControlPair y = 0) ∧
      ¬ ∃ c : ℂ, run (toffoliGates (0 : Fin 3) 1 2 false false true) firstControlPair =
        c • negToffoli 0 1 2 false false firstControlPair := by
  refine ⟨firstControlPair_target_clear, ?_⟩
  rintro ⟨c, hc⟩
  have hrun : run (toffoliGates (0 : Fin 3) 1 2 false false true) firstControlPair =
      basis ![false, false, false] + I • basis ![true, false, false] := by
    rw [firstControlPair, run_add, run_toffoliGates_clean (by decide) (by decide) (by decide) _ rfl,
      run_toffoliGates_clean (by decide) (by decide) (by decide) _ rfl]
    have hx0 : Function.update ![false, false, false] (2 : Fin 3) false = ![false, false, false] := by
      decide
    have hx1 : Function.update ![true, false, false] (2 : Fin 3) false = ![true, false, false] := by
      decide
    simp [hx0, hx1]
  have hne : (![true, false, false] : Fin 3 → Bool) ≠ ![false, false, false] := by decide
  have hflip0 : toffoliFlip (0 : Fin 3) 1 2 false false ![false, false, false] =
      ![false, false, false] := by decide
  have hflip1 : toffoliFlip (0 : Fin 3) 1 2 false false ![true, false, false] =
      ![true, false, false] := by decide
  have h0 := congrFun hc ![false, false, false]
  have h1 := congrFun hc ![true, false, false]
  rw [hrun] at h0 h1
  simp [negToffoli, hflip0, hflip1, firstControlPair, basis, hne, hne.symm] at h0 h1
  rw [← h0] at h1
  simpa using congrArg Complex.re h1

end XagSynth.Circuit

end
