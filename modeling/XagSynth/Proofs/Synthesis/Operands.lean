import XagSynth.Proofs.Synthesis.Blocks

/-!
# Synthesized gates act on distinct qubits of their circuit

Both syntheses name only qubits of their circuit (`OnQubits`), since names are
looked up only among the qubits given so far (`Placed`). Block synthesis always
names distinct qubits (`synthesis_gates_on_distinct_qubits`), while gate-by-gate
synthesis turns a gate reading its own name into a CNOT onto itself
(`compile_self_reading_gate`).
-/

namespace XagSynth

namespace Circuit

variable {α : Type}

/-- The qubits a gate names are pairwise different. -/
def Gate.Distinct (g : Gate α) : Prop := (g.target :: g.controls).Nodup

instance [DecidableEq α] (g : Gate α) : Decidable g.Distinct :=
  inferInstanceAs (Decidable (g.target :: g.controls).Nodup)

theorem distinct_flipIf (p : Bool) (c : α) : ∀ g ∈ flipIf p c, g.Distinct := by
  intro g hg
  cases p
  · cases hg
  · rw [flipIf, if_pos rfl, List.mem_singleton] at hg
    subst hg
    simp [Gate.Distinct, Gate.target, Gate.controls]

theorem distinct_cnotGates {c q : α} (h : c ≠ q) (p : Bool) : ∀ g ∈ cnotGates c q p, g.Distinct := by
  intro g hg
  simp only [cnotGates, List.mem_append, List.mem_singleton] at hg
  rcases hg with (hg | rfl) | hg
  · exact distinct_flipIf p c g hg
  · simp [Gate.Distinct, Gate.target, Gate.controls, Ne.symm h]
  · exact distinct_flipIf p c g hg

theorem distinct_toffoliGadget {c1 c2 q : α} (h1 : c1 ≠ q) (h2 : c2 ≠ q) :
    ∀ g ∈ toffoliGadget c1 c2 q, g.Distinct := by
  intro g hg
  simp only [toffoliGadget, List.mem_cons, List.not_mem_nil, or_false] at hg
  rcases hg with rfl | rfl | rfl | rfl | rfl | rfl | rfl | rfl | rfl | rfl | rfl | rfl | rfl <;>
    simp [Gate.Distinct, Gate.target, Gate.controls, h1, h2, Ne.symm h1, Ne.symm h2]

theorem distinct_toffoliGates {c1 c2 q : α} (h1 : c1 ≠ q) (h2 : c2 ≠ q) (p1 p2 : Bool)
    {clean : Bool} (h12 : clean = false → c1 ≠ c2) :
    ∀ g ∈ toffoliGates c1 c2 q p1 p2 clean, g.Distinct := by
  intro g hg
  simp only [toffoliGates, List.mem_append] at hg
  rcases hg with (((hg | hg) | hg) | hg) | hg
  · exact distinct_flipIf p1 c1 g hg
  · exact distinct_flipIf p2 c2 g hg
  · cases clean with
    | true => exact distinct_toffoliGadget h1 h2 g hg
    | false =>
      rw [if_neg Bool.false_ne_true, List.mem_singleton] at hg
      subst hg
      simp [Gate.Distinct, Gate.target, Gate.controls, h12 rfl, Ne.symm h1, Ne.symm h2]
  · exact distinct_flipIf p1 c1 g hg
  · exact distinct_flipIf p2 c2 g hg

theorem mcxGates_placed {w : Nat} {cs : List Int} {q : Int} {ps : List Bool} {clean : Bool}
    {gs : List (Gate Int)} (h : mcxGates cs q ps clean = .ok gs)
    (hrange : ∀ c ∈ q :: cs, 0 ≤ c ∧ c < w) (hnd : (q :: cs).Nodup) :
    OnQubits w gs ∧ ∀ g ∈ gs, g.Distinct := by
  have hq := hrange q List.mem_cons_self
  unfold mcxGates at h
  split_ifs at h
  rcases cs with _ | ⟨c, _ | ⟨c2, _ | ⟨c3, cs⟩⟩⟩
  · simp only [Except.ok.injEq] at h
    subst h
    exact ⟨fun _ h => absurd h List.not_mem_nil, fun _ h => absurd h List.not_mem_nil⟩
  · rcases ps with _ | ⟨p, ps⟩
    · cases h
    · simp only [Except.ok.injEq] at h
      subst h
      have hcq : c ≠ q := fun hc => by simp [hc] at hnd
      exact ⟨onQubits_cnotGates (hrange c (by simp)) hq p, distinct_cnotGates hcq p⟩
  · rcases ps with _ | ⟨p1, _ | ⟨p2, ps⟩⟩
    · cases h
    · cases h
    · simp only [Except.ok.injEq] at h
      subst h
      have h1 : c ≠ q := fun hc => by simp [hc] at hnd
      have h2 : c2 ≠ q := fun hc => by simp [hc] at hnd
      have h12 : c ≠ c2 := fun hc => by simp [hc] at hnd
      exact ⟨onQubits_toffoliGates (hrange c (by simp)) (hrange c2 (by simp)) hq p1 p2 clean,
        distinct_toffoliGates h1 h2 p1 p2 fun _ => h12⟩
  · simp at h

end Circuit

/-- Qubits given to names so far: each on a qubit of the circuit, no qubit given
to two names, and every gate acting on qubits of the circuit. -/
structure Placed (C : Circuit) (m : QubitMap) : Prop where
  named : ∀ e ∈ m, 0 ≤ e.2 ∧ e.2 < C.width
  owner : ∀ e ∈ m, ∀ e' ∈ m, e.2 = e'.2 → e.1 = e'.1
  labels : OnQubits C.width C.gates

namespace Placed

variable {C : Circuit} {m : QubitMap}

theorem extend (hp : Placed C m) (node : String) {gs : List (Circuit.Gate Int)}
    (hlab : OnQubits (C.width + 1) gs) : Placed (C.fresh.2.append gs) ((node, C.width) :: m) := by
  have hold : ∀ e ∈ m, e.2 ≠ C.width := fun e he => Int.ne_of_lt (hp.named e he).2
  refine ⟨?_, ?_, ?_⟩
  · intro e he
    rcases List.mem_cons.mp he with rfl | he
    · simp
    · obtain ⟨h0, hlt⟩ := hp.named e he
      exact ⟨h0, by simp; omega⟩
  · intro e he e' he' heq
    rcases List.mem_cons.mp he with rfl | he <;> rcases List.mem_cons.mp he' with rfl | he'
    · rfl
    · exact absurd heq.symm (hold e' he')
    · exact absurd heq (hold e he)
    · exact hp.owner e he e' he' heq
  · simp only [Circuit.gates_append, Circuit.gates_fresh, Circuit.width_append,
      Circuit.width_fresh]
    exact onQubits_append (hp.labels.mono (Nat.le_succ _)) hlab

theorem find_cons (hp : Placed C m) {node a : String} {q : Int}
    (h : QubitMap.find ((node, C.width) :: m) a = .ok q) :
    (0 ≤ q ∧ q < (C.width + 1 : Nat)) ∧ (a ≠ node → (a, q) ∈ m ∧ q < C.width) := by
  by_cases han : a = node
  · subst han
    simp only [QubitMap.find, List.lookup_cons, beq_self_eq_true, Except.ok.injEq] at h
    subst h
    exact ⟨by omega, fun h => absurd rfl h⟩
  · rw [QubitMap.find_cons_of_ne _ han] at h
    have hmem := QubitMap.mem_of_find h
    obtain ⟨h0, hlt⟩ := hp.named _ hmem
    exact ⟨⟨h0, by omega⟩, fun _ => ⟨hmem, hlt⟩⟩

theorem nodup_find (hp : Placed C m) :
    ∀ {xs : List String} {qs : List Int}, List.Forall₂ (fun x q => m.find x = .ok q) xs qs →
      xs.Nodup → qs.Nodup := by
  intro xs qs hxq
  induction hxq with
  | nil => exact fun _ => List.nodup_nil
  | @cons x q xs qs hx _ ih =>
    intro hnd
    obtain ⟨hxs, hnd⟩ := List.nodup_cons.mp hnd
    refine List.nodup_cons.mpr ⟨fun hq => hxs ?_, ih hnd⟩
    obtain ⟨x', hx', hfind⟩ := exists_of_forall₂ ‹List.Forall₂ _ xs qs› hq
    have hsame := hp.owner _ (QubitMap.mem_of_find hx) _ (QubitMap.mem_of_find hfind) rfl
    simp only at hsame
    exact hsame ▸ hx'

end Placed

theorem placed_inputQubits (net : Network) : Placed net.inputQubits.1 net.inputQubits.2 := by
  obtain ⟨h1, h2⟩ := inputQubits_spec net
  rw [h1]
  refine ⟨?_, ?_, fun g hg => absurd hg List.not_mem_nil⟩
  · intro e he
    obtain ⟨i, hi, rfl⟩ := h2 e he
    exact ⟨by omega, by simpa using hi⟩
  · intro e he e' he' heq
    obtain ⟨i, hi, rfl⟩ := h2 e he
    obtain ⟨j, hj, rfl⟩ := h2 e' he'
    simp only [Nat.cast_inj] at heq
    subst heq
    rfl

namespace Network

variable {net : Network}

theorem synthGate_placed {acc r : Circuit × QubitMap} (hp : Placed acc.1 acc.2) {node : String}
    {g : Gate} (hr : synthGate acc node g = .ok r) :
    Placed r.1 r.2 ∧ ∃ gs, r.1.gates = acc.1.gates ++ gs ∧
      (node ∉ g.inputs → ∀ x ∈ gs, x.Distinct) := by
  obtain ⟨C, m⟩ := acc
  have hw : 0 ≤ (C.width : Int) ∧ (C.width : Int) < (C.width + 1 : Nat) := by omega
  have hfind : ∀ a ∈ g.inputs, ∀ q, QubitMap.find ((node, (C.width : Int)) :: m) a = .ok q →
      (0 ≤ q ∧ q < (C.width + 1 : Nat)) ∧ (node ∉ g.inputs → q ≠ C.width) := by
    intro a ha q hq
    obtain ⟨hrange, hold⟩ := hp.find_cons hq
    exact ⟨hrange, fun hn => Int.ne_of_lt (hold fun h => hn (h ▸ ha)).2⟩
  have hcnot : ∀ a ∈ g.inputs, ∀ ca, QubitMap.find ((node, (C.width : Int)) :: m) a = .ok ca →
      Placed (C.fresh.2.append (Circuit.cnotGates ca C.width false)) ((node, C.width) :: m) ∧
        ∃ gs, (C.fresh.2.append (Circuit.cnotGates ca C.width false)).gates = C.gates ++ gs ∧
          (node ∉ g.inputs → ∀ x ∈ gs, x.Distinct) := by
    intro a ha ca hca
    obtain ⟨hqa, hne⟩ := hfind a ha ca hca
    exact ⟨hp.extend node (onQubits_cnotGates hqa hw false), _, rfl,
      fun hn => Circuit.distinct_cnotGates (hne hn) false⟩
  cases g with
  | binary op a b na nb no =>
    cases op with
    | and =>
      simp only [synthGate, Circuit.fresh] at hr
      obtain ⟨ca, hca, hr⟩ := bind_eq_ok hr
      obtain ⟨cb, hcb, hr⟩ := bind_eq_ok hr
      cases hr
      obtain ⟨hqa, hna⟩ := hfind a (by simp) ca hca
      obtain ⟨hqb, hnb⟩ := hfind b (by simp) cb hcb
      exact ⟨hp.extend node (onQubits_toffoliGates hqa hqb hw na nb true), _, rfl,
        fun hn => Circuit.distinct_toffoliGates (hna hn) (hnb hn) na nb Bool.noConfusion⟩
    | or =>
      simp only [synthGate, Circuit.fresh] at hr
      obtain ⟨ca, hca, hr⟩ := bind_eq_ok hr
      cases hr
      exact hcnot a (by simp) ca hca
    | xor =>
      simp only [synthGate, Circuit.fresh] at hr
      obtain ⟨ca, hca, hr⟩ := bind_eq_ok hr
      cases hr
      exact hcnot a (by simp) ca hca
  | buffer a =>
    simp only [synthGate, Circuit.fresh] at hr
    obtain ⟨ca, hca, hr⟩ := bind_eq_ok hr
    cases hr
    exact hcnot a (by simp) ca hca

theorem foldlM_synthGate_placed : ∀ (l : List (String × Gate)) (acc r : Circuit × QubitMap),
    Placed acc.1 acc.2 → l.foldlM (fun acc e => synthGate acc e.1 e.2) acc = .ok r →
      Placed r.1 r.2 ∧ ∃ gs, r.1.gates = acc.1.gates ++ gs ∧
        ((∀ e ∈ l, e.1 ∉ e.2.inputs) → ∀ x ∈ gs, x.Distinct)
  | [], acc, r, hp, h => by
    simp only [List.foldlM_nil, pure, Except.pure, Except.ok.injEq] at h
    subst h
    exact ⟨hp, [], by simp, fun _ _ hx => absurd hx List.not_mem_nil⟩
  | e :: l, acc, r, hp, h => by
    rw [List.foldlM_cons] at h
    obtain ⟨r1, h1, h⟩ := bind_eq_ok h
    obtain ⟨hp1, gs1, hgs1, hd1⟩ := synthGate_placed hp h1
    obtain ⟨hp2, gs2, hgs2, hd2⟩ := foldlM_synthGate_placed l r1 r hp1 h
    refine ⟨hp2, gs1 ++ gs2, by rw [hgs2, hgs1, List.append_assoc], fun hself x hx => ?_⟩
    rcases List.mem_append.mp hx with hx | hx
    · exact hd1 (hself e List.mem_cons_self) x hx
    · exact hd2 (fun e' he' => hself e' (List.mem_cons_of_mem e he')) x hx

theorem compile_placed {C : Circuit} (hC : net.compile = .ok C) :
    OnQubits C.width C.gates ∧ ((∀ e ∈ net.gates, e.1 ∉ e.2.inputs) → ∀ g ∈ C.gates, g.Distinct) := by
  unfold compile at hC
  obtain ⟨r, hfold, hr⟩ := bind_eq_ok hC
  cases hr
  obtain ⟨hp, gs, hgs, hd⟩ := foldlM_synthGate_placed net.gates _ r (placed_inputQubits net) hfold
  rw [(inputQubits_spec net).1, List.nil_append] at hgs
  exact ⟨hp.labels, fun hself => hgs ▸ hd hself⟩

open BlockMap

variable {b : Bound} {cs : List (String × Cut)}

theorem mapBlock_placed (hcs : net.CutsOf b cs) {node n' : String} {exposed : List String}
    {products : List (List String)} {st1 : BlockMap} {gs : List (List (Circuit.Gate Int))}
    (hI : Placed st1.circuit st1.qubits ∧ ∀ g ∈ st1.circuit.gates, g.Distinct)
    (hnone : (st1.qubits.lookup node).isSome = false)
    (hleaves : ∀ y ∈ products.flatten, (st1.qubits.lookup y).isSome)
    (hc : cs.lookup node = some (.block n' exposed products))
    (hgs : products.mapM (productGates ((node, st1.circuit.width) :: st1.qubits)
      st1.circuit.width) = .ok gs) :
    Placed (st1.circuit.fresh.2.append gs.flatten) ((node, st1.circuit.width) :: st1.qubits) ∧
      ∀ g ∈ (st1.circuit.fresh.2.append gs.flatten).gates, g.Distinct := by
  obtain ⟨hp, hd⟩ := hI
  have hnodup : ∀ p ∈ products, p.Nodup := by
    rcases hcs node _ hc with ⟨-, hsrc⟩ | ⟨g, -, hcut⟩
    · cases hsrc
    · exact nodup_of_cutOf hcut
  have hp0 : Placed (st1.circuit.fresh.2.append []) ((node, st1.circuit.width) :: st1.qubits) :=
    hp.extend node fun _ h => absurd h List.not_mem_nil
  have hproduct : ∀ p ∈ products, ∀ gp, productGates ((node, st1.circuit.width) :: st1.qubits)
      st1.circuit.width p = .ok gp →
      OnQubits (st1.circuit.width + 1) gp ∧ ∀ g ∈ gp, g.Distinct := by
    intro p hp' gp h
    obtain ⟨qs, hqs, h⟩ := bind_eq_ok h
    have hpq := forall₂_of_mapM hqs
    have hold : ∀ q ∈ qs, 0 ≤ q ∧ q < st1.circuit.width := by
      intro q hq
      obtain ⟨x, hx, hxq⟩ := exists_of_forall₂ hpq hq
      have hxn : x ≠ node := by
        rintro rfl
        simp [hleaves x (List.mem_flatten.mpr ⟨p, hp', hx⟩)] at hnone
      obtain ⟨hq0, -⟩ := hp.find_cons hxq
      exact ⟨hq0.1, ((hp.find_cons hxq).2 hxn).2⟩
    refine Circuit.mcxGates_placed h ?_ ?_
    · intro q hq
      rcases List.mem_cons.mp hq with rfl | hq
      · omega
      · obtain ⟨h0, hlt⟩ := hold q hq
        exact ⟨h0, by omega⟩
    · exact List.nodup_cons.mpr ⟨fun hq => Int.lt_irrefl _ (hold _ hq).2,
        hp0.nodup_find hpq (hnodup p hp')⟩
  have hflat : ∀ g ∈ gs.flatten, (∀ q ∈ g.target :: g.controls,
      0 ≤ q ∧ q < (st1.circuit.width + 1 : Nat)) ∧ g.Distinct := by
    intro g hg
    obtain ⟨gp, hgp, hg⟩ := List.mem_flatten.mp hg
    obtain ⟨p, hp', hpg⟩ := exists_of_forall₂ (forall₂_of_mapM hgs) hgp
    obtain ⟨hon, hdis⟩ := hproduct p hp' gp hpg
    exact ⟨hon g hg, hdis g hg⟩
  refine ⟨hp.extend node fun g hg => (hflat g hg).1, ?_⟩
  intro g hg
  rw [Circuit.gates_append, Circuit.gates_fresh] at hg
  rcases List.mem_append.mp hg with hg | hg
  · exact hd g hg
  · exact (hflat g hg).2

theorem compileBlocks_placed (hkeys : net.KeysNodup) {st : BlockMap}
    (hst : net.compileBlocks = .ok st) :
    OnQubits st.circuit.width st.circuit.gates ∧ ∀ g ∈ st.circuit.gates, g.Distinct := by
  unfold compileBlocks at hst
  obtain ⟨cs, hcuts, hst⟩ := bind_eq_ok hst
  have hcs := cutsOf_cuts hkeys hcuts
  let I : BlockMap → Prop := fun st => Placed st.circuit st.qubits ∧ ∀ g ∈ st.circuit.gates, g.Distinct
  have h0 : I ⟨net.inputQubits.1, net.inputQubits.2, []⟩ := by
    refine ⟨placed_inputQubits net, ?_⟩
    rw [(inputQubits_spec net).1]
    exact fun g hg => absurd hg List.not_mem_nil
  rcases hq : net.inputQubits with ⟨c0, m0⟩
  rw [hq] at h0
  simp only [hq] at hst
  obtain ⟨hI, -, -⟩ := foldlM_forall I (fun _ _ => True)
    (fun o st1 st2 h1 hv =>
      ⟨(visit_keeps I (fun _ _ _ _ _ _ hI hnone hleaves hc hgs =>
          mapBlock_placed hcs hI hnone hleaves hc hgs) _ [] o st1 st2 h1 hv).1,
        trivial, fun _ _ => trivial⟩)
    net.outputs _ st h0 hst
  exact ⟨hI.1.labels, hI.2⟩

/-- On a network read from a netlist, the circuit of either synthesis names only
qubits of the circuit in its gates. Block synthesis always names pairwise
different qubits in each gate, and gate-by-gate synthesis does when no gate
reads its own name. -/
theorem synthesis_gates_on_distinct_qubits {text : String} (hread : ofVerilog text = .ok net) :
    (∀ C : Circuit, net.compile = .ok C → OnQubits C.width C.gates ∧
      ((∀ e ∈ net.gates, e.1 ∉ e.2.inputs) → ∀ g ∈ C.gates, g.Distinct)) ∧
    ∀ st : BlockMap, net.compileBlocks = .ok st →
      OnQubits st.circuit.width st.circuit.gates ∧ ∀ g ∈ st.circuit.gates, g.Distinct :=
  ⟨fun _ hC => compile_placed hC,
    fun _ hst => compileBlocks_placed (keys_nodup_of_ofVerilog hread) hst⟩

theorem gates_on_distinct_qubits_and_xor :
    ∃ (net : Network) (C : Circuit) (st : BlockMap),
      ofVerilog "module top(a, b, c, y);\ninput a, b, c;\noutput y;\nwire t;\nassign t = a & b;\nassign y = t ^ c;\nendmodule\n" = .ok net ∧
      net.compile = .ok C ∧ net.compileBlocks = .ok st ∧
      (OnQubits C.width C.gates ∧ ∀ g ∈ C.gates, g.Distinct) ∧
      OnQubits st.circuit.width st.circuit.gates ∧ ∀ g ∈ st.circuit.gates, g.Distinct := by
  have hC : andXorNet.compile = .ok
      { width := 5
        gates := Circuit.toffoliGates 0 1 3 false false true ++ Circuit.cnotGates 3 4 false } :=
    rfl
  have hself : ∀ e ∈ andXorNet.gates, e.1 ∉ e.2.inputs := by
    simp [andXorNet]
  obtain ⟨hcompile, hblocks⟩ := synthesis_gates_on_distinct_qubits ofVerilog_andXorNet
  obtain ⟨hon, hdis⟩ := hcompile _ hC
  exact ⟨andXorNet, _, _, ofVerilog_andXorNet, hC, compileBlocks_andXorNet, ⟨hon, hdis hself⟩,
    hblocks _ compileBlocks_andXorNet⟩

/-- A gate that reads its own name is synthesized gate by gate as a CNOT from
its own qubit onto itself: `assign y = y ^ a` gives `cx q[1], q[1]`. -/
theorem compile_self_reading_gate :
    ∃ (net : Network) (C : Circuit),
      ofVerilog "module top(a, y);\ninput a;\noutput y;\nassign y = y ^ a;\nendmodule\n" = .ok net ∧
      net.compile = .ok C ∧ C.gates = [.cx 1 1] ∧ ¬ ∀ g ∈ C.gates, g.Distinct := by
  let gy : Gate := .binary .xor "y" "a" false false false
  let net : Network := { inputs := ["a"], outputs := ["y"], gates := [("y", gy)] }
  have hread : ofVerilog "module top(a, y);\ninput a;\noutput y;\nassign y = y ^ a;\nendmodule\n" = .ok net :=
    ofVerilog_eq_ok_of_parts (by decide +kernel)
  refine ⟨net, { width := 2, gates := [.cx 1 1] }, hread, rfl, rfl, fun h => ?_⟩
  have hcx := h (.cx 1 1) List.mem_cons_self
  simp [Circuit.Gate.Distinct, Circuit.Gate.target, Circuit.Gate.controls] at hcx

end Network

end XagSynth
