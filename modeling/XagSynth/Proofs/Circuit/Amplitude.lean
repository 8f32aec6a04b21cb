import Mathlib.Analysis.Real.Sqrt
import Mathlib.Analysis.SpecialFunctions.Trigonometric.Basic
import XagSynth.Proofs.Circuit.Classical

/-!
# Gates on amplitudes

A gate acts on a state, an amplitude per assignment of bits, by its matrix in
the basis of assignments. Every gate but the Hadamard sends a basis state to a
phase times a basis state (`apply_basis`), and so does the clean Toffoli when
its target starts at zero, with phase `i` when only its first control is set
(`run_toffoliGadget`).
-/

noncomputable section

open Complex
open scoped ComplexConjugate Classical

namespace XagSynth.Circuit

variable {α : Type} [DecidableEq α]

/-- A state: an amplitude for every assignment of bits to the qubits. -/
abbrev State (α : Type) := (α → Bool) → ℂ

/-- The basis state of the assignment `x`. -/
def basis (x : α → Bool) : State α := fun y => if y = x then 1 else 0

def tPhase : ℂ := exp ((Real.pi / 4 : ℝ) * I)

namespace Gate

/-- The diagonal entry of a phase gate at the assignment `y`, and one for the others. -/
def phase : Gate α → (α → Bool) → ℂ
  | .s q, y => if y q then I else 1
  | .t q, y => if y q then tPhase else 1
  | .tdg q, y => if y q then conj tPhase else 1
  | _, _ => 1

/-- A gate acting on a state. -/
def apply : Gate α → State α → State α
  | .h q, ψ => fun y =>
    (ψ (Function.update y q false) + (if y q then -1 else 1) * ψ (Function.update y q true)) /
      (√2 : ℝ)
  | g, ψ => fun y => g.phase y * ψ (g.flip y)

end Gate

/-- A gate list acting on a state, first gate first. -/
def run : List (Gate α) → State α → State α
  | [], ψ => ψ
  | g :: gs, ψ => run gs (g.apply ψ)

@[simp] theorem run_nil (ψ : State α) : run [] ψ = ψ := rfl

@[simp] theorem run_cons (g : Gate α) (gs : List (Gate α)) (ψ : State α) :
    run (g :: gs) ψ = run gs (g.apply ψ) := rfl

omit [DecidableEq α] in
theorem eq_of_basis_eq_smul {x y : α → Bool} {c : ℂ} (h : basis x = c • basis y) : x = y := by
  by_contra hne
  have hx := congrFun h x
  simp [basis, hne] at hx

theorem run_append (gs hs : List (Gate α)) (ψ : State α) :
    run (gs ++ hs) ψ = run hs (run gs ψ) := by
  induction gs generalizing ψ with
  | nil => rfl
  | cons g gs ih => exact ih _

section Phases

theorem tPhase_mul_tPhase : tPhase * tPhase = I := by
  have h : ((Real.pi / 4 : ℝ) : ℂ) * I + ((Real.pi / 4 : ℝ) : ℂ) * I = Real.pi / 2 * I := by
    push_cast
    ring
  rw [tPhase, ← exp_add, h, exp_pi_div_two_mul_I]

theorem tPhase_mul_conj : tPhase * conj tPhase = 1 := by
  rw [tPhase, ← exp_conj, ← exp_add, map_mul, conj_ofReal, conj_I, mul_neg, add_neg_cancel,
    exp_zero]

theorem conj_mul_tPhase : conj tPhase * tPhase = 1 := by
  rw [mul_comm, tPhase_mul_conj]

theorem conj_tPhase_mul_conj : conj tPhase * conj tPhase = -I := by
  rw [← map_mul, tPhase_mul_tPhase, conj_I]

theorem sqrt_two_mul_self : ((√2 : ℝ) : ℂ) * ((√2 : ℝ) : ℂ) = 2 := by
  rw [← ofReal_mul, Real.mul_self_sqrt (by norm_num)]
  norm_num

end Phases

namespace Gate

theorem apply_of_ne_h (g : Gate α) (hg : ∀ q, g ≠ .h q) (ψ : State α) :
    g.apply ψ = fun y => g.phase y * ψ (g.flip y) := by
  cases g with
  | h q => exact absurd rfl (hg q)
  | _ => rfl

theorem phase_flip (g : Gate α) (y : α → Bool) : g.phase (g.flip y) = g.phase y := by
  cases g <;> rfl

theorem apply_basis (g : Gate α) (hp : g.Proper) (hg : ∀ q, g ≠ .h q) (x : α → Bool) :
    g.apply (basis x) = g.phase x • basis (g.flip x) := by
  rw [apply_of_ne_h g hg]
  funext y
  by_cases hy : y = g.flip x
  · subst hy
    simp [basis, flip_flip g hp, phase_flip]
  · have hne : g.flip y ≠ x := fun h => hy (by rw [← h, flip_flip g hp])
    simp [basis, hy, hne]

theorem apply_add (g : Gate α) (ψ φ : State α) : g.apply (ψ + φ) = g.apply ψ + g.apply φ := by
  funext y
  cases g <;> simp only [apply, Pi.add_apply] <;> ring

theorem apply_smul (g : Gate α) (c : ℂ) (ψ : State α) : g.apply (c • ψ) = c • g.apply ψ := by
  funext y
  cases g <;> simp only [apply, Pi.smul_apply, smul_eq_mul] <;> ring

end Gate

theorem run_add (gs : List (Gate α)) (ψ φ : State α) : run gs (ψ + φ) = run gs ψ + run gs φ := by
  induction gs generalizing ψ φ with
  | nil => rfl
  | cons g gs ih => simp only [run_cons, Gate.apply_add, ih]

theorem run_smul (gs : List (Gate α)) (c : ℂ) (ψ : State α) : run gs (c • ψ) = c • run gs ψ := by
  induction gs generalizing ψ with
  | nil => rfl
  | cons g gs ih => simp only [run_cons, Gate.apply_smul, ih]

def runPhase : List (Gate α) → (α → Bool) → ℂ
  | [], _ => 1
  | g :: gs, x => g.phase x * runPhase gs (g.flip x)

theorem run_basis_of_flips (gs : List (Gate α)) (hp : ∀ g ∈ gs, g.Proper)
    (hh : ∀ g ∈ gs, ∀ q, g ≠ .h q) (x : α → Bool) :
    run gs (basis x) = runPhase gs x • basis (simulate gs x) := by
  induction gs generalizing x with
  | nil => simp [runPhase]
  | cons g gs ih =>
    have hg := Gate.apply_basis g (hp g List.mem_cons_self) (hh g List.mem_cons_self) x
    rw [run_cons, hg, run_smul, ih (fun g' h' => hp g' (List.mem_cons_of_mem g h'))
      (fun g' h' => hh g' (List.mem_cons_of_mem g h')), smul_smul, simulate_cons, runPhase]

theorem apply_h_basis (q : α) (x : α → Bool) :
    (Gate.h q).apply (basis x) = ((√2 : ℝ) : ℂ)⁻¹ •
      (basis (Function.update x q false) +
        (if x q then (-1 : ℂ) else 1) • basis (Function.update x q true)) := by
  funext y
  simp only [Gate.apply, basis, Pi.add_apply, Pi.smul_apply, smul_eq_mul, Function.update_eq_iff,
    Function.eq_update_iff]
  by_cases hA : ∀ p ≠ q, y p = x p
  · cases hy : y q <;> cases hx : x q <;> simp [div_eq_mul_inv, mul_comm]
  · simp [hA]

section Pair

/-- The state `a0 |x, q unset⟩ + a1 |x, q set⟩`, whose weight lies on the two
assignments that agree with `x` away from `q`. -/
def pair (x : α → Bool) (q : α) (a0 a1 : ℂ) : State α :=
  a0 • basis (Function.update x q false) + a1 • basis (Function.update x q true)

variable (x : α → Bool) (q : α)

theorem smul_pair (c a0 a1 : ℂ) : c • pair x q a0 a1 = pair x q (c * a0) (c * a1) := by
  simp only [pair, smul_add, smul_smul]

theorem basis_update_eq_pair (v : Bool) :
    basis (Function.update x q v) = pair x q (if v then 0 else 1) (if v then 1 else 0) := by
  cases v <;> simp [pair]

theorem pair_zero_right (c : ℂ) : pair x q c 0 = c • basis (Function.update x q false) := by
  simp [pair]

theorem apply_h_pair (a0 a1 : ℂ) :
    (Gate.h q).apply (pair x q a0 a1) =
      pair x q ((a0 + a1) / ((√2 : ℝ) : ℂ)) ((a0 - a1) / ((√2 : ℝ) : ℂ)) := by
  simp only [pair, Gate.apply_add, Gate.apply_smul, apply_h_basis, Function.update_self,
    Function.update_idem]
  funext y
  simp only [Bool.false_eq_true, if_false, if_true, Pi.add_apply, Pi.smul_apply, smul_eq_mul]
  ring

theorem apply_s_pair {c : α} (hc : c ≠ q) (a0 a1 : ℂ) :
    (Gate.s c).apply (pair x q a0 a1) =
      pair x q ((if x c then I else 1) * a0) ((if x c then I else 1) * a1) := by
  have hs : (Gate.s c : Gate α).Proper := by simp [Gate.Proper, Gate.controls]
  have hh : ∀ p, (Gate.s c : Gate α) ≠ .h p := fun p h => by cases h
  simp only [pair, Gate.apply_add, Gate.apply_smul, Gate.apply_basis _ hs hh, Gate.flip,
    Gate.phase, Function.update_of_ne hc, smul_smul, mul_comm]

end Pair

/-- The ten gates of the clean Toffoli between its two Hadamards. -/
def toffoliCore (c1 c2 q : α) : List (Gate α) :=
  [.t q, .cx c1 q, .cx c2 q, .cx q c2, .cx q c1, .tdg c1, .tdg c2, .t q, .cx q c1, .cx q c2]

section Toffoli

variable {c1 c2 q : α}

theorem simulate_toffoliCore (h12 : c1 ≠ c2) (h1 : c1 ≠ q) (h2 : c2 ≠ q) (z : α → Bool) :
    simulate (toffoliCore c1 c2 q) z = Function.update z q (z q ^^ (z c1 ^^ z c2)) := by
  funext p
  by_cases hq : p = q
  · simp [toffoliCore, Gate.flip, hq, h1, h2, h12, h1.symm, h2.symm, h12.symm]
  · by_cases hp1 : p = c1
    · simp [toffoliCore, Gate.flip, hp1, h1, h2, h12, h1.symm, h2.symm, h12.symm]
    · by_cases hp2 : p = c2
      · simp [toffoliCore, Gate.flip, hp2, h1, h2, h12, h1.symm, h2.symm, h12.symm]
      · simp [toffoliCore, Gate.flip, Function.update_apply, hq, hp1, hp2]

theorem runPhase_toffoliCore (h12 : c1 ≠ c2) (h1 : c1 ≠ q) (h2 : c2 ≠ q) (z : α → Bool) :
    runPhase (toffoliCore c1 c2 q) z = if z c1 && z c2 then (if z q then I else -I) else 1 := by
  simp only [toffoliCore, runPhase, Gate.phase, Gate.flip, Function.update_apply, h1, h2, h12,
    h1.symm, h2.symm, h12.symm, if_true, if_false, mul_one, one_mul]
  cases z c1 <;> cases z c2 <;> cases z q <;>
    simp [tPhase_mul_conj, conj_mul_tPhase, tPhase_mul_tPhase, conj_tPhase_mul_conj]

theorem run_toffoliCore_pair (h12 : c1 ≠ c2) (h1 : c1 ≠ q) (h2 : c2 ≠ q) (x : α → Bool)
    (a0 a1 : ℂ) :
    run (toffoliCore c1 c2 q) (pair x q a0 a1) =
      if x c1 ^^ x c2 then
        pair x q ((if x c1 && x c2 then I else 1) * a1) ((if x c1 && x c2 then -I else 1) * a0)
      else
        pair x q ((if x c1 && x c2 then -I else 1) * a0) ((if x c1 && x c2 then I else 1) * a1) := by
  have hp : ∀ g ∈ toffoliCore c1 c2 q, g.Proper := by
    simp [toffoliCore, Gate.Proper, Gate.target, Gate.controls, h1, h2, h1.symm, h2.symm]
  have hh : ∀ g ∈ toffoliCore c1 c2 q, ∀ p, g ≠ .h p := by simp [toffoliCore]
  simp only [pair, run_add, run_smul, run_basis_of_flips _ hp hh, simulate_toffoliCore h12 h1 h2,
    runPhase_toffoliCore h12 h1 h2, Function.update_self, Function.update_idem,
    Function.update_of_ne h1, Function.update_of_ne h2]
  cases x c1 <;> cases x c2 <;> simp [smul_smul, mul_comm] <;> abel

theorem run_toffoliGadget (h12 : c1 ≠ c2) (h1 : c1 ≠ q) (h2 : c2 ≠ q) (x : α → Bool)
    (hx : x q = false) :
    run (toffoliGadget c1 c2 q) (basis x) =
      (if x c1 && !x c2 then I else 1) • basis (Function.update x q (x c1 && x c2)) := by
  have hx0 : Function.update x q false = x := by
    rw [← hx]
    exact Function.update_eq_self q x
  have hstart : basis x = pair x q 1 0 := by rw [pair_zero_right, one_smul, hx0]
  have hsq : ((√2 : ℝ) : ℂ) ^ 2 = 2 := by rw [sq, sqrt_two_mul_self]
  rw [show toffoliGadget c1 c2 q = [.h q] ++ toffoliCore c1 c2 q ++ [.h q, .s c1] from rfl,
    run_append, run_append, hstart, basis_update_eq_pair, smul_pair]
  simp only [run_cons, run_nil, apply_h_pair, run_toffoliCore_pair h12 h1 h2]
  cases ha : x c1 <;> cases hb : x c2 <;>
    simp only [apply_h_pair, apply_s_pair _ _ h1, ha, Bool.xor_false, Bool.xor_true,
      Bool.and_false, Bool.and_true, Bool.not_false, Bool.not_true, if_true, if_false,
      Bool.false_eq_true] <;> congr 1 <;> field_simp <;> rw [hsq] <;> norm_num [I_sq]

theorem run_flipIf (p : Bool) (c : α) (x : α → Bool) :
    run (flipIf p c) (basis x) = basis (Function.update x c (x c ^^ p)) := by
  cases p with
  | false => simp [flipIf]
  | true =>
    have hp : (Gate.x c).Proper := by simp [Gate.Proper, Gate.controls]
    simp [flipIf, Gate.apply_basis _ hp (fun p h => by cases h), Gate.phase, Gate.flip]

theorem run_toffoliGates_clean (h12 : c1 ≠ c2) (h1 : c1 ≠ q) (h2 : c2 ≠ q) (x : α → Bool)
    (hx : x q = false) (p1 p2 : Bool) :
    run (toffoliGates c1 c2 q p1 p2 true) (basis x) =
      (if (x c1 ^^ p1) && !(x c2 ^^ p2) then I else 1) •
        basis (Function.update x q ((x c1 ^^ p1) && (x c2 ^^ p2))) := by
  simp only [toffoliGates, if_true, run_append, run_flipIf]
  rw [run_toffoliGadget h12 h1 h2 _ (by simp [Function.update_of_ne h1.symm,
    Function.update_of_ne h2.symm, hx])]
  simp only [run_smul, run_flipIf, Function.update_self, Function.update_of_ne h12,
    Function.update_of_ne h12.symm]
  congr 2
  funext p
  by_cases hq : p = q
  · subst hq
    simp [Function.update_of_ne h1.symm, Function.update_of_ne h2.symm]
  · by_cases hp1 : p = c1
    · subst hp1
      simp [Function.update_of_ne h1, Function.update_of_ne h12]
    · by_cases hp2 : p = c2
      · subst hp2
        simp [Function.update_of_ne h2]
      · simp [Function.update_of_ne hq, Function.update_of_ne hp1, Function.update_of_ne hp2]

end Toffoli

theorem run_cnotGates (c q : α) (hc : c ≠ q) (x : α → Bool) :
    run (cnotGates c q false) (basis x) = basis (Function.update x q (x q ^^ x c)) := by
  have hp : (Gate.cx c q).Proper := by simp [Gate.Proper, Gate.controls, Gate.target, hc.symm]
  simp [cnotGates, flipIf, Gate.apply_basis _ hp (fun p h => by cases h), Gate.phase, Gate.flip]

end XagSynth.Circuit

end
