import XagSynth.Cut.Basic
import XagSynth.Proofs.Synthesis.Direct

/-!
# What gate-by-gate synthesis spends

Gate-by-gate synthesis gives a qubit to every input and gate; an AND gate costs
the thirteen gates of the clean Toffoli, four of them T gates, and two X gates
per negated input, and any other gate one CNOT (`compile_counts`).
-/

namespace XagSynth

namespace Circuit

variable {α : Type}

@[simp] theorem length_flipIf (p : Bool) (c : α) : (flipIf p c).length = p.toNat := by
  cases p <;> rfl

@[simp] theorem countP_isT_flipIf (p : Bool) (c : α) : (flipIf p c).countP Gate.isT = 0 := by
  cases p <;> rfl

theorem length_toffoliGates_clean (c1 c2 q : α) (p1 p2 : Bool) :
    (toffoliGates c1 c2 q p1 p2 true).length = 13 + 2 * p1.toNat + 2 * p2.toNat := by
  simp only [toffoliGates, if_true, List.length_append, length_flipIf, length_toffoliGadget]
  omega

theorem countP_isT_toffoliGates_clean (c1 c2 q : α) (p1 p2 : Bool) :
    (toffoliGates c1 c2 q p1 p2 true).countP Gate.isT = 4 := by
  simp only [toffoliGates, if_true, List.countP_append, countP_isT_flipIf,
    countP_isT_toffoliGadget]

theorem length_cnotGates (c q : α) (p : Bool) : (cnotGates c q p).length = 1 + 2 * p.toNat := by
  simp only [cnotGates, List.length_append, length_flipIf, List.length_singleton]
  omega

theorem countP_isT_cnotGates (c q : α) (p : Bool) : (cnotGates c q p).countP Gate.isT = 0 := by
  simp [cnotGates, Gate.isT]

@[simp] theorem tCount_append (c : Circuit) (gs : List (Gate Int)) :
    (c.append gs).tCount = c.tCount + gs.countP Gate.isT := by
  simp [tCount, List.countP_append]

@[simp] theorem tCount_fresh (c : Circuit) : c.fresh.2.tCount = c.tCount := rfl

end Circuit

namespace Network

/-- The number of gates synthesis spends on a gate: the clean Toffoli and two X
gates per negated input for an AND gate, one CNOT for any other. -/
def Gate.synthLength : Gate → Nat
  | .binary .and _ _ na nb _ => 13 + 2 * na.toNat + 2 * nb.toNat
  | _ => 1

theorem synthGate_counts {acc r : Circuit × QubitMap} {node : String} {g : Gate}
    (hr : synthGate acc node g = .ok r) :
    r.1.width = acc.1.width + 1 ∧ r.1.gates.length = acc.1.gates.length + g.synthLength ∧
      r.1.tCount = acc.1.tCount + Cut.tPerName * g.isAnd.toNat := by
  cases g with
  | binary op a b na nb no =>
    cases op with
    | and =>
      simp only [synthGate] at hr
      obtain ⟨ca, -, hr⟩ := bind_eq_ok hr
      obtain ⟨cb, -, hr⟩ := bind_eq_ok hr
      cases hr
      simp [Circuit.length_toffoliGates_clean, Circuit.countP_isT_toffoliGates_clean,
        Gate.synthLength, Gate.isAnd, Cut.tPerName]
    | or | xor =>
      simp only [synthGate] at hr
      obtain ⟨ca, -, hr⟩ := bind_eq_ok hr
      cases hr
      simp [Circuit.length_cnotGates, Circuit.countP_isT_cnotGates, Gate.synthLength, Gate.isAnd]
  | buffer a =>
    simp only [synthGate] at hr
    obtain ⟨ca, -, hr⟩ := bind_eq_ok hr
    cases hr
    simp [Circuit.length_cnotGates, Circuit.countP_isT_cnotGates, Gate.synthLength, Gate.isAnd]

theorem foldlM_synthGate_counts : ∀ (l : List (String × Gate)) (acc r : Circuit × QubitMap),
    l.foldlM (fun acc e => synthGate acc e.1 e.2) acc = .ok r →
      r.1.width = acc.1.width + l.length ∧
      r.1.gates.length = acc.1.gates.length + (l.map fun e => e.2.synthLength).sum ∧
      r.1.tCount = acc.1.tCount + Cut.tPerName * l.countP fun e => e.2.isAnd := by
  intro l
  induction l with
  | nil =>
    intro acc r hr
    simp only [List.foldlM_nil, pure, Except.pure, Except.ok.injEq] at hr
    subst hr
    simp
  | cons e l ih =>
    intro acc r hr
    rw [List.foldlM_cons] at hr
    obtain ⟨r1, h1, hr⟩ := bind_eq_ok hr
    obtain ⟨hw1, hl1, ht1⟩ := synthGate_counts h1
    obtain ⟨hw, hl, ht⟩ := ih r1 r hr
    refine ⟨by rw [hw, hw1, List.length_cons]; omega, by rw [hl, hl1]; simp; omega, ?_⟩
    rw [ht, ht1, List.countP_cons, Nat.mul_add]
    cases e.2.isAnd with
    | false => simp
    | true => simp; omega

/-- Gate-by-gate synthesis of any network: the circuit has four T gates per AND
gate, a qubit for every primary input and every gate, and the gates that each gate
costs. -/
theorem compile_counts {net : Network} {C : Circuit} (hC : net.compile = .ok C) :
    C.tCount = Cut.tPerName * net.andCount ∧ C.width = net.inputs.length + net.gates.length ∧
      C.gates.length = (net.gates.map fun e => e.2.synthLength).sum := by
  unfold compile at hC
  obtain ⟨r, hfold, hr⟩ := bind_eq_ok hC
  cases hr
  have h0 := (inputQubits_spec net).1
  obtain ⟨hw, hl, ht⟩ := foldlM_synthGate_counts net.gates _ r hfold
  rw [h0] at hw hl ht
  exact ⟨by simpa [Circuit.tCount, andCount] using ht, hw, by simpa using hl⟩

/-- An OR gate is an AND of negated inputs, and costs seventeen gates; with the
CNOT of an XOR gate the circuit has eighteen, four of them T gates, on four qubits. -/
theorem compile_counts_or_xor :
    ∃ (net : Network) (C : Circuit),
      ofVerilog "module top(a, b, y, z);\ninput a, b;\noutput y, z;\nassign y = a | b;\nassign z = y ^ a;\nendmodule\n" =
        .ok net ∧ net.compile = .ok C ∧ C.tCount = 4 ∧ C.width = 4 ∧ C.gates.length = 18 := by
  let gy : Gate := .binary .and "a" "b" true true true
  let gz : Gate := .binary .xor "y" "a" false false false
  let net : Network := { inputs := ["a", "b"], outputs := ["y", "z"], gates := [("y", gy), ("z", gz)] }
  have hread : ofVerilog
      "module top(a, b, y, z);\ninput a, b;\noutput y, z;\nassign y = a | b;\nassign z = y ^ a;\nendmodule\n" =
        .ok net :=
    ofVerilog_eq_ok_of_parts (by decide +kernel)
  have hC : net.compile = .ok
      { width := 4, gates := Circuit.toffoliGates 0 1 2 true true true ++ Circuit.cnotGates 2 3 false } :=
    rfl
  obtain ⟨ht, hw, hl⟩ := compile_counts hC
  exact ⟨net, _, hread, hC, by rw [ht]; rfl, hw, hl⟩

end Network

end XagSynth
