import XagSynth.Proofs.Circuit.Amplitude
import XagSynth.Proofs.Network.Read
import XagSynth.Proofs.Network.Value
import XagSynth.Synthesis.Direct

/-!
# Gate-by-gate synthesis computes the network

On the basis state holding an input assignment, the circuit of `Network.compile`
ends, up to a unit phase, in the basis state holding the value of every gate on
its qubit, when every gate is rendered exactly (`compile_run_basis`); an XOR
gate is not (`compile_xor_first_operand`). The invariant is `Synthesized`.
-/

open Complex

namespace XagSynth

open Circuit (basis run)

theorem QubitMap.mem_of_find {m : QubitMap} {a : String} {q : Int} (h : m.find a = .ok q) :
    (a, q) ∈ m := by
  unfold QubitMap.find at h
  split at h
  · rename_i q' hq
    cases h
    obtain ⟨l₁, l₂, rfl, -⟩ := List.lookup_eq_some_iff.mp hq
    simp
  · cases h

theorem QubitMap.find_cons_of_ne {m : QubitMap} {a n : String} (q : Int) (h : a ≠ n) :
    QubitMap.find ((n, q) :: m) a = m.find a := by
  have hne : (a == n) = false := by simp [h]
  simp only [QubitMap.find, List.lookup_cons, hne]

/-- Every label a gate list acts on is a qubit of a circuit of width `w`. -/
def OnQubits (w : Nat) (gs : List (Circuit.Gate Int)) : Prop :=
  ∀ g ∈ gs, ∀ q ∈ g.target :: g.controls, 0 ≤ q ∧ q < w

theorem onQubits_append {w : Nat} {gs hs : List (Circuit.Gate Int)} (hg : OnQubits w gs)
    (hh : OnQubits w hs) : OnQubits w (gs ++ hs) := by
  intro g hmem
  rcases List.mem_append.mp hmem with h | h
  · exact hg g h
  · exact hh g h

theorem OnQubits.mono {w w' : Nat} {gs : List (Circuit.Gate Int)} (h : OnQubits w gs)
    (hw : w ≤ w') : OnQubits w' gs := by
  intro g hg q hq
  obtain ⟨h0, hlt⟩ := h g hg q hq
  exact ⟨h0, by omega⟩

theorem onQubits_toffoliGates {w : Nat} {c1 c2 q : Int} (h1 : 0 ≤ c1 ∧ c1 < w)
    (h2 : 0 ≤ c2 ∧ c2 < w) (hq : 0 ≤ q ∧ q < w) (p1 p2 clean : Bool) :
    OnQubits w (Circuit.toffoliGates c1 c2 q p1 p2 clean) := by
  intro g hg l hl
  cases p1 <;> cases p2 <;> cases clean <;>
    simp [Circuit.toffoliGates, Circuit.toffoliGadget, Circuit.flipIf] at hg <;>
    rcases hg with rfl | rfl | rfl | rfl | rfl | rfl | rfl | rfl | rfl | rfl | rfl | rfl | rfl |
      rfl | rfl | rfl | rfl <;>
    simp [Circuit.Gate.target, Circuit.Gate.controls] at hl <;>
    rcases hl with rfl | rfl | rfl <;> assumption

theorem onQubits_cnotGates {w : Nat} {c q : Int} (hc : 0 ≤ c ∧ c < w) (hq : 0 ≤ q ∧ q < w)
    (p : Bool) : OnQubits w (Circuit.cnotGates c q p) := by
  intro g hg l hl
  cases p <;> simp [Circuit.cnotGates, Circuit.flipIf] at hg <;>
    rcases hg with rfl | rfl | rfl <;>
    simp [Circuit.Gate.target, Circuit.Gate.controls] at hl <;>
    rcases hl with rfl | rfl <;> assumption

theorem foldl_fresh {f : Circuit × QubitMap → String → Circuit × QubitMap}
    (hf : ∀ acc n, f acc n = (acc.1.fresh.2, (n, acc.1.fresh.1) :: acc.2)) (l : List String) :
    ∀ acc : Circuit × QubitMap, (l.foldl f acc).1 = { acc.1 with width := acc.1.width + l.length } ∧
      ∀ e ∈ (l.foldl f acc).2, e ∈ acc.2 ∨
        ∃ i, ∃ hi : i < l.length, e = (l[i], ((acc.1.width + i : Nat) : Int)) := by
  induction l with
  | nil => intro acc; simp
  | cons a l ih =>
    intro acc
    rw [List.foldl_cons, hf]
    obtain ⟨h1, h2⟩ := ih (acc.1.fresh.2, (a, acc.1.fresh.1) :: acc.2)
    simp only [Circuit.fresh] at h1 h2 ⊢
    refine ⟨?_, ?_⟩
    · rw [h1]
      simp only [List.length_cons]
      congr 1
      omega
    · intro e he
      rcases h2 e he with h | ⟨i, hi, rfl⟩
      · rcases List.mem_cons.mp h with rfl | h
        · exact Or.inr ⟨0, by simp, by simp⟩
        · exact Or.inl h
      · refine Or.inr ⟨i + 1, by simpa using hi, ?_⟩
        simp only [List.getElem_cons_succ, Prod.mk.injEq, true_and]
        omega

theorem keys_foldl_fresh {f : Circuit × QubitMap → String → Circuit × QubitMap}
    (hf : ∀ acc n, f acc n = (acc.1.fresh.2, (n, acc.1.fresh.1) :: acc.2)) (l : List String) :
    ∀ acc : Circuit × QubitMap, (l.foldl f acc).2.map Prod.fst = l.reverse ++ acc.2.map Prod.fst := by
  induction l with
  | nil => intro acc; simp
  | cons a l ih =>
    intro acc
    rw [List.foldl_cons, hf, ih]
    simp

theorem keys_inputQubits (net : Network) : net.inputQubits.2.map Prod.fst = net.inputs.reverse := by
  unfold Network.inputQubits
  simpa using keys_foldl_fresh (fun _ _ => rfl) net.inputs (({} : Circuit), ([] : QubitMap))

theorem inputQubits_spec (net : Network) :
    net.inputQubits.1 = { width := net.inputs.length } ∧
      ∀ e ∈ net.inputQubits.2, ∃ i, ∃ hi : i < net.inputs.length, e = (net.inputs[i], (i : Int)) := by
  unfold Network.inputQubits
  obtain ⟨h1, h2⟩ := foldl_fresh (fun _ _ => rfl) net.inputs (({} : Circuit), ([] : QubitMap))
  refine ⟨by rw [h1]; simp, ?_⟩
  intro e he
  rcases h2 e he with h | ⟨i, hi, rfl⟩
  · cases h
  · exact ⟨i, hi, by simp⟩

namespace Network

/-- The bits of the input state: label `i` holds the value under `s` of the
`i`-th primary input, every other label zero. -/
def inputBits (net : Network) (s : String → Bool) (q : Int) : Bool :=
  if 0 ≤ q then (net.inputs[q.toNat]?.map s).getD false else false

theorem inputBits_of_lt (net : Network) (s : String → Bool) {i : Nat}
    (hi : i < net.inputs.length) : net.inputBits s i = s net.inputs[i] := by
  simp [inputBits, hi]

theorem inputBits_of_not_mem (net : Network) (s : String → Bool) {q : Int}
    (hq : q < 0 ∨ net.inputs.length ≤ q) : net.inputBits s q = false := by
  unfold inputBits
  split_ifs with h0
  · have hle : net.inputs.length ≤ q.toNat := by omega
    simp [List.getElem?_eq_none hle]
  · rfl

/-- A gate that gate-by-gate synthesis renders exactly: an AND of two different
names whose output is not negated, or a buffer. -/
def Gate.RenderedExactly : Gate → Prop
  | .binary .and a b _ _ no => a ≠ b ∧ no = false
  | .buffer _ => True
  | _ => False

/-- The synthesis after some gates, run on the input state of `s`: the circuit
`C` sends it to a unit phase times the basis state `y`, in which every name the
map `m` gives a qubit holds its value and every label outside the circuit is
zero. A qubit belongs to one name, and the gates act on qubits of `C`. -/
structure Synthesized (net : Network) (s : String → Bool) (C : Circuit) (m : QubitMap)
    (y : Int → Bool) : Prop where
  state : ∃ c : ℂ, ‖c‖ = 1 ∧ run C.gates (basis (net.inputBits s)) = c • basis y
  named : ∀ e ∈ m, 0 ≤ e.2 ∧ e.2 < C.width ∧ y e.2 = net.value s e.1
  outside : ∀ q : Int, (q < 0 ∨ C.width ≤ q) → y q = false
  owner : ∀ e ∈ m, ∀ e' ∈ m, e.2 = e'.2 → e.1 = e'.1
  labels : OnQubits C.width C.gates

variable {net : Network} {s : String → Bool}

theorem Synthesized.extend {C : Circuit} {m : QubitMap} {y : Int → Bool}
    (hs : Synthesized net s C m y) {node : String} {gs : List (Circuit.Gate Int)} {ph : ℂ}
    (hph : ‖ph‖ = 1)
    (hrun : run gs (basis y) = ph • basis (Function.update y C.width (net.value s node)))
    (hlab : OnQubits (C.width + 1) gs) :
    Synthesized net s (C.fresh.2.append gs) ((node, C.width) :: m)
      (Function.update y C.width (net.value s node)) := by
  obtain ⟨c, hc, hstate⟩ := hs.state
  have hold : ∀ e ∈ m, e.2 ≠ C.width := fun e he => (Int.ne_of_lt (hs.named e he).2.1)
  refine ⟨⟨c * ph, by rw [norm_mul, hc, hph, one_mul], ?_⟩, ?_, ?_, ?_, ?_⟩
  · rw [Circuit.gates_append, Circuit.gates_fresh, Circuit.run_append, hstate,
      Circuit.run_smul, hrun, smul_smul]
  · intro e he
    rcases List.mem_cons.mp he with rfl | he
    · simp
    · obtain ⟨h0, hlt, hy⟩ := hs.named e he
      refine ⟨h0, by simp; omega, ?_⟩
      rw [Function.update_of_ne (hold e he), hy]
  · intro q hq
    simp only [Circuit.width_append, Circuit.width_fresh, Nat.cast_add, Nat.cast_one] at hq
    have hne : q ≠ C.width := by omega
    rw [Function.update_of_ne hne]
    exact hs.outside q (by omega)
  · intro e he e' he' heq
    rcases List.mem_cons.mp he with rfl | he <;> rcases List.mem_cons.mp he' with rfl | he'
    · rfl
    · exact absurd heq.symm (hold e' he')
    · exact absurd heq (hold e he)
    · exact hs.owner e he e' he' heq
  · simp only [Circuit.gates_append, Circuit.gates_fresh, Circuit.width_append,
      Circuit.width_fresh]
    exact onQubits_append (hs.labels.mono (Nat.le_succ _)) hlab

theorem inputQubits_synthesized (hpi : net.InputsUndriven) (s : String → Bool) :
    Synthesized net s net.inputQubits.1 net.inputQubits.2 (net.inputBits s) := by
  obtain ⟨h1, h2⟩ := inputQubits_spec net
  rw [h1]
  refine ⟨⟨1, by simp, by simp⟩, ?_, ?_, ?_, ?_⟩
  · intro e he
    obtain ⟨i, hi, rfl⟩ := h2 e he
    refine ⟨by omega, by simpa using hi, ?_⟩
    rw [inputBits_of_lt net s hi, value_of_input hpi s (List.getElem_mem hi)]
  · intro q hq
    exact inputBits_of_not_mem net s hq
  · intro e he e' he' heq
    obtain ⟨i, hi, rfl⟩ := h2 e he
    obtain ⟨j, hj, rfl⟩ := h2 e' he'
    simp only [Nat.cast_inj] at heq
    subst heq
    rfl
  · intro g hg
    simp at hg

theorem synthGate_synthesized (hacyc : net.Acyclic) {acc r : Circuit × QubitMap}
    {y : Int → Bool} (hs : Synthesized net s acc.1 acc.2 y) {node : String} {g : Gate}
    (hg : net.gate? node = some g) (hex : g.RenderedExactly) (hr : synthGate acc node g = .ok r) :
    r.1.width = acc.1.width + 1 ∧
      Synthesized net s r.1 r.2 (Function.update y acc.1.width (net.value s node)) := by
  obtain ⟨C, m⟩ := acc
  have hfind : ∀ a ∈ g.inputs, ∀ q, QubitMap.find ((node, (C.width : Int)) :: m) a = .ok q →
      (0 ≤ q ∧ q < C.width) ∧ y q = net.value s a ∧ (a, q) ∈ m := by
    intro a ha q hq
    have hne : a ≠ node := fun h => hacyc.not_reads_self node ⟨g, hg, h ▸ ha⟩
    rw [QubitMap.find_cons_of_ne _ hne] at hq
    have hmem := QubitMap.mem_of_find hq
    obtain ⟨h0, hlt, hy⟩ := hs.named _ hmem
    exact ⟨⟨h0, hlt⟩, hy, hmem⟩
  have hw : 0 ≤ (C.width : Int) ∧ (C.width : Int) < (C.width + 1 : Nat) := by omega
  have hfresh : y C.width = false := hs.outside C.width (Or.inr le_rfl)
  have hval := value_of_gate hacyc s hg
  cases g with
  | binary op a b na nb no =>
    cases op with
    | and =>
      obtain ⟨hab, rfl⟩ := hex
      simp only [synthGate, Circuit.fresh] at hr
      obtain ⟨ca, hca, hr⟩ := bind_eq_ok hr
      obtain ⟨cb, hcb, hr⟩ := bind_eq_ok hr
      cases hr
      obtain ⟨hqa, hya, hma⟩ := hfind a (by simp) ca hca
      obtain ⟨hqb, hyb, hmb⟩ := hfind b (by simp) cb hcb
      have hcab : ca ≠ cb := fun h => hab (hs.owner _ hma _ hmb h)
      have hrun := Circuit.run_toffoliGates_clean hcab (Int.ne_of_lt hqa.2) (Int.ne_of_lt hqb.2)
        y hfresh na nb
      have hv : ((net.value s a ^^ na) && (net.value s b ^^ nb)) = net.value s node := by
        rw [hval]
        simp [Gate.eval, BinOp.eval]
      rw [hya, hyb, hv] at hrun
      refine ⟨rfl, hs.extend ?_ hrun (onQubits_toffoliGates ?_ ?_ hw na nb true)⟩
      · split_ifs <;> simp
      · exact ⟨hqa.1, by omega⟩
      · exact ⟨hqb.1, by omega⟩
    | or => cases hex
    | xor => cases hex
  | buffer a =>
    simp only [synthGate, Circuit.fresh] at hr
    obtain ⟨ca, hca, hr⟩ := bind_eq_ok hr
    cases hr
    obtain ⟨hqa, hya, -⟩ := hfind a (by simp) ca hca
    have hrun : run (Circuit.cnotGates ca C.width false) (basis y) =
        (1 : ℂ) • basis (Function.update y C.width (net.value s node)) := by
      rw [one_smul, Circuit.run_cnotGates _ _ (Int.ne_of_lt hqa.2), hfresh, Bool.false_xor, hya,
        hval]
      rfl
    exact ⟨rfl, hs.extend (by simp) hrun (onQubits_cnotGates ⟨hqa.1, by omega⟩ hw false)⟩

theorem foldlM_synthGate (hacyc : net.Acyclic) (hkeys : net.KeysNodup) (l : List (String × Gate))
    (hl : ∀ e ∈ l, e ∈ net.gates ∧ e.2.RenderedExactly) :
    ∀ (acc r : Circuit × QubitMap) (y : Int → Bool), Synthesized net s acc.1 acc.2 y →
      l.foldlM (fun acc e => synthGate acc e.1 e.2) acc = .ok r →
      ∃ y', Synthesized net s r.1 r.2 y' ∧ r.1.width = acc.1.width + l.length ∧
        (∀ q : Int, q < acc.1.width → y' q = y q) ∧
        ∀ k (hk : k < l.length), y' ((acc.1.width + k : Nat) : Int) = net.value s l[k].1 := by
  induction l with
  | nil =>
    intro acc r y hs hr
    simp only [List.foldlM_nil, pure, Except.pure, Except.ok.injEq] at hr
    subst hr
    exact ⟨y, hs, rfl, fun _ _ => rfl, fun k hk => absurd hk (Nat.not_lt_zero k)⟩
  | cons e l ih =>
    intro acc r y hs hr
    rw [List.foldlM_cons] at hr
    obtain ⟨r1, h1, hr⟩ := bind_eq_ok hr
    obtain ⟨hmem, hex⟩ := hl e List.mem_cons_self
    obtain ⟨hw1, hs1⟩ := synthGate_synthesized hacyc hs (gate?_of_mem hkeys hmem) hex h1
    obtain ⟨y', hs', hw', hkeep, hnew⟩ :=
      ih (fun e' he' => hl e' (List.mem_cons_of_mem e he')) r1 r _ hs1 hr
    have hkeep' : ∀ q : Int, q ≤ acc.1.width → y' q = Function.update y acc.1.width
        (net.value s e.1) q := fun q hq => hkeep q (by rw [hw1]; push_cast; omega)
    refine ⟨y', hs', by rw [hw', hw1, List.length_cons]; omega, ?_, ?_⟩
    · intro q hq
      rw [hkeep' q (le_of_lt hq), Function.update_of_ne (Int.ne_of_lt hq)]
    · intro k hk
      cases k with
      | zero =>
        rw [Nat.add_zero, hkeep' _ le_rfl, Function.update_self, List.getElem_cons_zero]
      | succ k =>
        have hk' := hnew k (by simpa using hk)
        rw [hw1, Nat.add_right_comm] at hk'
        rw [← Nat.add_assoc, List.getElem_cons_succ]
        exact hk'

/-- Gate-by-gate synthesis of an acyclic network read from a netlist, whose gates
are all rendered exactly: on the input state of any assignment `s`, the circuit
ends in a unit phase times a basis state in which every input qubit is as it
was, the qubit of the `k`-th gate holds the value of its name, and every label
outside the circuit is zero. Its width is the number of inputs and gates, and its
gates act on its qubits only. -/
theorem compile_run_basis {text : String} {net : Network} (hread : ofVerilog text = .ok net)
    (hacyc : net.Acyclic) (hpi : net.InputsUndriven)
    (hexact : ∀ e ∈ net.gates, e.2.RenderedExactly) {C : Circuit} (hC : net.compile = .ok C)
    (s : String → Bool) :
    C.width = net.inputs.length + net.gates.length ∧ OnQubits C.width C.gates ∧
      ∃ (c : ℂ) (y : Int → Bool), ‖c‖ = 1 ∧
        run C.gates (basis (net.inputBits s)) = c • basis y ∧
        (∀ i (hi : i < net.inputs.length), y i = s net.inputs[i]) ∧
        (∀ k (hk : k < net.gates.length),
          y ((net.inputs.length + k : Nat) : Int) = net.value s net.gates[k].1) ∧
        ∀ q : Int, (q < 0 ∨ C.width ≤ q) → y q = false := by
  unfold Network.compile at hC
  obtain ⟨r, hfold, hr⟩ := bind_eq_ok hC
  cases hr
  have hw0 : net.inputQubits.1.width = net.inputs.length := by rw [(inputQubits_spec net).1]
  obtain ⟨y, hs, hw, hkeep, hnew⟩ :=
    foldlM_synthGate hacyc (keys_nodup_of_ofVerilog hread) net.gates
      (fun e he => ⟨he, hexact e he⟩) _ r _ (inputQubits_synthesized hpi s) hfold
  obtain ⟨c, hc, hrun⟩ := hs.state
  rw [hw0] at hw hkeep hnew
  refine ⟨hw, hs.labels, c, y, hc, hrun, ?_, hnew, hs.outside⟩
  intro i hi
  rw [hkeep i (by omega), inputBits_of_lt net s hi]

theorem compile_run_basis_and :
    ∃ (net : Network) (C : Circuit),
      ofVerilog "module top(a, b, y);\ninput a, b;\noutput y;\nassign y = a & b;\nendmodule\n" =
        .ok net ∧ net.compile = .ok C ∧ C.width = 3 ∧
      ∃ (c : ℂ) (y : Int → Bool), ‖c‖ = 1 ∧
        run C.gates (basis (net.inputBits fun _ => true)) = c • basis y ∧ y 2 = true := by
  let g : Gate := .binary .and "a" "b" false false false
  let net : Network := { inputs := ["a", "b"], outputs := ["y"], gates := [("y", g)] }
  have hread : ofVerilog
      "module top(a, b, y);\ninput a, b;\noutput y;\nassign y = a & b;\nendmodule\n" = .ok net :=
    ofVerilog_eq_ok_of_parts (by decide +kernel)
  have hpi : net.InputsUndriven := by
    unfold InputsUndriven
    decide
  have hacyc : net.Acyclic := acyclic_of_reads_inputs net hpi (by decide)
  have hexact : ∀ e ∈ net.gates, e.2.RenderedExactly := by
    simp [net, g, Gate.RenderedExactly]
  have hC : net.compile = .ok { width := 3, gates := Circuit.toffoliGates 0 1 2 false false true } :=
    rfl
  obtain ⟨hw, -, c, y, hc, hrun, -, hgates, -⟩ :=
    compile_run_basis hread hacyc hpi hexact hC (fun _ => true)
  have hg : net.gate? "y" = some g := rfl
  have hy : y 2 = net.value (fun _ => true) "y" := hgates 0 (by decide)
  rw [value_of_gate hacyc _ hg] at hy
  simp only [g, Gate.eval, BinOp.eval, Bool.xor_false, Bool.false_xor] at hy
  rw [value_of_input hpi _ (show "a" ∈ net.inputs by simp [net]),
    value_of_input hpi _ (show "b" ∈ net.inputs by simp [net])] at hy
  exact ⟨net, _, hread, hC, hw, c, y, hc, hrun, hy⟩

/-- An XOR gate is synthesized as a CNOT from its first input alone: on
`assign y = a ^ b` with `a` unset and `b` set, the qubit of `y` ends unset,
although `y` is set, whatever phase is allowed. -/
theorem compile_xor_first_operand :
    ∃ (net : Network) (C : Circuit),
      ofVerilog "module top(a, b, y);\ninput a, b;\noutput y;\nassign y = a ^ b;\nendmodule\n" =
        .ok net ∧ net.Acyclic ∧ net.InputsUndriven ∧ net.compile = .ok C ∧
      ¬ ∃ (c : ℂ) (y : Int → Bool),
        run C.gates (basis (net.inputBits (· == "b"))) = c • basis y ∧
          y 2 = net.value (· == "b") "y" := by
  let g : Gate := .binary .xor "a" "b" false false false
  let net : Network := { inputs := ["a", "b"], outputs := ["y"], gates := [("y", g)] }
  have hread : ofVerilog
      "module top(a, b, y);\ninput a, b;\noutput y;\nassign y = a ^ b;\nendmodule\n" = .ok net :=
    ofVerilog_eq_ok_of_parts (by decide +kernel)
  have hpi : net.InputsUndriven := by
    unfold InputsUndriven
    decide
  have hacyc : net.Acyclic := acyclic_of_reads_inputs net hpi (by decide)
  refine ⟨net, { width := 3, gates := Circuit.cnotGates 0 2 false }, hread, hacyc, hpi, rfl, ?_⟩
  rintro ⟨c, y, hrun, hy⟩
  have hx0 : net.inputBits (· == "b") 0 = false := rfl
  rw [Circuit.run_cnotGates _ _ (by decide), hx0, Bool.xor_false, Function.update_eq_self] at hrun
  have hxy := Circuit.eq_of_basis_eq_smul hrun
  subst hxy
  have hg : net.gate? "y" = some g := rfl
  rw [value_of_gate hacyc _ hg] at hy
  simp only [g, Gate.eval, BinOp.eval, Bool.xor_false, Bool.false_xor] at hy
  rw [value_of_input hpi _ (show "a" ∈ net.inputs by simp [net]),
    value_of_input hpi _ (show "b" ∈ net.inputs by simp [net])] at hy
  simp [net, inputBits] at hy

end Network

end XagSynth
