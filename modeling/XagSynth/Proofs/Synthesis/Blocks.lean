import XagSynth.Proofs.Cut.Table
import XagSynth.Proofs.Synthesis.Direct
import XagSynth.Synthesis.Blocks

/-!
# Block synthesis computes the outputs

Run classically from the input bits of an assignment, the circuit of block
synthesis leaves every mapped name holding its value on networks whose blocks
denote their gates (`compileBlocks_simulate`), and `compileBlocks_reconverging_xor`
shows the tree condition cannot be dropped. The invariant is `BlockMap.Holds`.
-/

namespace XagSynth

theorem simulate_mcxGates {cs : List Int} {q : Int} {ps : List Bool}
    {gs : List (Circuit.Gate Int)} (hps : ∀ p ∈ ps, p = false) (hlen : ps.length = cs.length)
    (hne : cs ≠ []) (h : Circuit.mcxGates cs q ps false = .ok gs) (y : Int → Bool) :
    Circuit.simulate gs y = Function.update y q (y q ^^ cs.all y) := by
  unfold Circuit.mcxGates at h
  split_ifs at h with hlong
  rcases cs with _ | ⟨c, _ | ⟨c2, _ | ⟨c3, cs⟩⟩⟩
  · exact absurd rfl hne
  · rcases ps with _ | ⟨p, ps⟩
    · simp at hlen
    · have hp : p = false := hps p List.mem_cons_self
      subst hp
      simp only [Except.ok.injEq] at h
      subst h
      simp [Circuit.cnotGates, Circuit.flipIf, Circuit.Gate.flip]
  · rcases ps with _ | ⟨p1, _ | ⟨p2, ps⟩⟩
    · simp at hlen
    · simp at hlen
    · have hp1 : p1 = false := hps p1 List.mem_cons_self
      have hp2 : p2 = false := hps p2 (List.mem_cons_of_mem _ List.mem_cons_self)
      subst hp1 hp2
      simp only [Except.ok.injEq] at h
      subst h
      simp [Circuit.toffoliGates, Circuit.flipIf, Circuit.Gate.flip]
  · simp at hlong

namespace BlockMap

/-- The gates of one product of a block on the qubit `q`: an X gate controlled by
the qubits of the product's names. -/
def productGates (qubits : QubitMap) (q : Int) (p : List String) :
    Except Fault (List (Circuit.Gate Int)) := do
  let cs ← p.mapM qubits.find
  Circuit.mcxGates cs q (p.map fun _ => false) false

theorem visit_ok {cs : List (String × Cut)} {fuel : Nat} {path : List String} {node : String}
    {st st' : BlockMap} (h : visit cs (fuel + 1) path node st = .ok st') :
    ((st.qubits.lookup node).isSome = true ∧ st' = st) ∨
      ∃ n' exposed products st1 gs,
        (st.qubits.lookup node).isSome = false ∧ cs.lookup node = some (.block n' exposed products) ∧
        path.contains node = false ∧
        (Text.nameSet products.flatten).foldlM (fun st l => visit cs fuel (node :: path) l st) st =
          .ok st1 ∧
        products.mapM (productGates ((node, st1.circuit.width) :: st1.qubits) st1.circuit.width) =
          .ok gs ∧
        st' = ⟨st1.circuit.fresh.2.append gs.flatten, (node, st1.circuit.width) :: st1.qubits,
          st1.mapped ++ [node]⟩ := by
  unfold visit at h
  split at h
  · rename_i hsome
    cases h
    exact Or.inl ⟨hsome, rfl⟩
  · rename_i hnone
    split at h
    · cases h
    · cases h
    · cases h
    · rename_i n' exposed products hc
      split at h
      · cases h
      · rename_i hpath
        obtain ⟨st1, hfold, h⟩ := bind_eq_ok h
        obtain ⟨gs, hgs, h⟩ := bind_eq_ok h
        cases h
        exact Or.inr ⟨n', exposed, products, st1, gs, Bool.eq_false_iff.mpr hnone, hc,
          Bool.eq_false_iff.mpr hpath, hfold, hgs, rfl⟩

theorem simulate_products {qubits : QubitMap} {q : Int} {v : String → Bool} {y : Int → Bool} :
    ∀ {ps : List (List String)} {gs : List (List (Circuit.Gate Int))},
      List.Forall₂ (fun p g => productGates qubits q p = .ok g) ps gs →
      (∀ p ∈ ps, p ≠ [] ∧ ∀ x ∈ p, ∀ c, qubits.find x = .ok c → c ≠ q ∧ y c = v x) →
      ∀ z : Int → Bool, (∀ c, c ≠ q → z c = y c) →
        Circuit.simulate gs.flatten z =
          Function.update z q (z q ^^ Network.xorAll (ps.map fun p => p.all v)) := by
  intro ps gs hpg
  induction hpg with
  | nil =>
    intro _ z _
    simp
  | @cons p g ps gs hg _ ih =>
    intro hps z hz
    obtain ⟨hne, hnames⟩ := hps p List.mem_cons_self
    obtain ⟨cs, hcs, hg⟩ := bind_eq_ok hg
    have hcsp := forall₂_of_mapM hcs
    have hall : cs.all z = p.all v := by
      have key : ∀ {xs : List String} {ds : List Int},
          List.Forall₂ (fun x c => qubits.find x = .ok c) xs ds → (∀ x ∈ xs, x ∈ p) →
          ds.all z = xs.all v := by
        intro xs ds hxd
        induction hxd with
        | nil => exact fun _ => rfl
        | @cons x c xs ds hxc _ ih' =>
          intro hsub
          obtain ⟨hcq, hcy⟩ := hnames x (hsub x List.mem_cons_self) c hxc
          rw [List.all_cons, List.all_cons, hz c hcq, hcy,
            ih' fun x' hx' => hsub x' (List.mem_cons_of_mem x hx')]
      exact key hcsp fun x hx => hx
    have hcs_ne : cs ≠ [] := by
      rintro rfl
      exact hne (List.forall₂_nil_right_iff.mp hcsp)
    have hgate := simulate_mcxGates
      (fun b hb => by obtain ⟨_, -, rfl⟩ := List.mem_map.mp hb; rfl)
      (by rw [List.length_map, hcsp.length_eq]) hcs_ne hg z
    rw [List.flatten_cons, Circuit.simulate_append, hgate, hall,
      ih (fun p' hp' => hps p' (List.mem_cons_of_mem p hp')) _ ?_]
    · simp only [Function.update_self, Function.update_idem, List.map_cons, Network.xorAll_cons,
        Bool.xor_assoc]
    · intro c hc
      rw [Function.update_of_ne hc, hz c hc]

/-- Block mapping so far, run classically from the input bits of `s`: every name
with a qubit holds its value there, and every label outside the circuit is unset. -/
structure Holds (net : Network) (s : String → Bool) (st : BlockMap) : Prop where
  named : ∀ e ∈ st.qubits, 0 ≤ e.2 ∧ e.2 < st.circuit.width ∧
    Circuit.simulate st.circuit.gates (net.inputBits s) e.2 = net.value s e.1
  outside : ∀ q : Int, (q < 0 ∨ st.circuit.width ≤ q) →
    Circuit.simulate st.circuit.gates (net.inputBits s) q = false

/-- Every name with a qubit in `st` has one in `st'`. -/
def Grows (st st' : BlockMap) : Prop :=
  ∀ x, (st.qubits.lookup x).isSome → (st'.qubits.lookup x).isSome

theorem isSome_lookup_cons {m : QubitMap} {x : String} (e : String × Int)
    (h : (m.lookup x).isSome) : ((e :: m).lookup x).isSome := by
  obtain ⟨n, q⟩ := e
  rw [List.lookup_cons]
  split
  · rfl
  · exact h

theorem visit_keeps {cs : List (String × Cut)} (I : BlockMap → Prop)
    (hmap : ∀ (node n' : String) (exposed : List String) (products : List (List String))
      (st1 : BlockMap) (gs : List (List (Circuit.Gate Int))), I st1 →
      (st1.qubits.lookup node).isSome = false →
      (∀ y ∈ products.flatten, (st1.qubits.lookup y).isSome) →
      cs.lookup node = some (.block n' exposed products) →
      products.mapM (productGates ((node, st1.circuit.width) :: st1.qubits) st1.circuit.width) =
        .ok gs →
      I ⟨st1.circuit.fresh.2.append gs.flatten, (node, st1.circuit.width) :: st1.qubits,
        st1.mapped ++ [node]⟩) :
    ∀ (fuel : Nat) (path : List String) (node : String) (st st' : BlockMap), I st →
      visit cs fuel path node st = .ok st' →
      I st' ∧ (st'.qubits.lookup node).isSome ∧ Grows st st' ∧
        ∀ y ∈ path, (st'.qubits.lookup y).isSome → (st.qubits.lookup y).isSome := by
  intro fuel
  induction fuel with
  | zero =>
    intro path node st st' _ h
    cases h
  | succ fuel ih =>
    intro path node st st' hI h
    rcases visit_ok h with ⟨hsome, rfl⟩ |
      ⟨n', exposed, products, st1, gs, hnone, hc, hpath, hfold, hgs, rfl⟩
    · exact ⟨hI, hsome, fun _ h => h, fun _ _ h => h⟩
    obtain ⟨⟨hI1, hgrow1, hkeep1⟩, hleaves, -⟩ := foldlM_forall
      (fun st2 => I st2 ∧ Grows st st2 ∧
        ∀ y ∈ node :: path, (st2.qubits.lookup y).isSome → (st.qubits.lookup y).isSome)
      (fun l st2 => (st2.qubits.lookup l).isSome)
      (fun l st2 st3 h2 hv => by
        obtain ⟨hI3, hl3, hg3, hk3⟩ := ih (node :: path) l st2 st3 h2.1 hv
        exact ⟨⟨hI3, fun x hx => hg3 x (h2.2.1 x hx), fun y hy hs => h2.2.2 y hy (hk3 y hy hs)⟩,
          hl3, hg3⟩)
      _ st st1 ⟨hI, fun _ h => h, fun _ _ h => h⟩ hfold
    have hnone1 : (st1.qubits.lookup node).isSome = false :=
      Bool.eq_false_iff.mpr fun hs => by simp [hkeep1 node List.mem_cons_self hs] at hnone
    refine ⟨hmap node n' exposed products st1 gs hI1 hnone1
        (fun y hy => hleaves y (Text.mem_nameSet.mpr hy)) hc hgs, by simp,
      fun x hx => isSome_lookup_cons _ (hgrow1 x hx), ?_⟩
    intro y hy hs
    have hne : (y == node) = false := by
      rw [beq_eq_false_iff_ne]
      rintro rfl
      simp [hy] at hpath
    rw [List.lookup_cons, hne] at hs
    exact hkeep1 y (List.mem_cons_of_mem node hy) hs

section Visit

variable {net : Network} (hacyc : net.Acyclic)
  (hgates : ∀ e ∈ net.gates, e.2.Neutral ∧ e.2.Parsed) (htrees : net.XorTrees)
  {b : Bound} {cs : List (String × Cut)} (hcs : Network.CutsOf net b cs) (s : String → Bool)
include hacyc hgates htrees hcs

theorem block_denotes {node n' : String} {exposed : List String} {products : List (List String)}
    (hc : cs.lookup node = some (.block n' exposed products)) :
    (∀ s, Network.xorAll (products.map fun p => p.all (net.value s)) = net.value s node) ∧
      ∀ p ∈ products, p ≠ [] ∧ ∀ y ∈ p, Relation.TransGen net.Reads y node := by
  rcases hcs node _ hc with ⟨-, hsrc⟩ | ⟨g, hg, hcut⟩
  · cases hsrc
  · cases hand : g.isAnd
    · obtain ⟨exposed', products', heq, hx, hp⟩ :=
        Network.cutOf_block hacyc hgates htrees b hg hand hcut
      cases heq
      exact ⟨hx, hp⟩
    · cases Network.cutOf_conj hand hcut

theorem block_holds {node n' : String} {exposed : List String} {products : List (List String)}
    {st1 : BlockMap} {gs : List (List (Circuit.Gate Int))} (hs1 : Holds net s st1)
    (hc : cs.lookup node = some (.block n' exposed products))
    (hgs : products.mapM (productGates ((node, st1.circuit.width) :: st1.qubits)
      st1.circuit.width) = .ok gs) :
    Holds net s ⟨st1.circuit.fresh.2.append gs.flatten, (node, st1.circuit.width) :: st1.qubits,
      st1.mapped ++ [node]⟩ := by
  obtain ⟨hxor, hprod⟩ := block_denotes hacyc hgates htrees hcs hc
  have hw : Circuit.simulate st1.circuit.gates (net.inputBits s) st1.circuit.width = false :=
    hs1.outside _ (Or.inr le_rfl)
  have hnames : ∀ p ∈ products, p ≠ [] ∧ ∀ x ∈ p, ∀ c,
      QubitMap.find ((node, (st1.circuit.width : Int)) :: st1.qubits) x = .ok c →
        c ≠ st1.circuit.width ∧
          Circuit.simulate st1.circuit.gates (net.inputBits s) c = net.value s x := by
    intro p hp
    refine ⟨(hprod p hp).1, fun x hx c hc => ?_⟩
    have hne : x ≠ node := by
      rintro rfl
      exact hacyc x ((hprod p hp).2 x hx)
    rw [QubitMap.find_cons_of_ne _ hne] at hc
    obtain ⟨-, hlt, hval⟩ := hs1.named _ (QubitMap.mem_of_find hc)
    exact ⟨Int.ne_of_lt hlt, hval⟩
  have hrun : Circuit.simulate (st1.circuit.fresh.2.append gs.flatten).gates (net.inputBits s) =
      Function.update (Circuit.simulate st1.circuit.gates (net.inputBits s))
        st1.circuit.width (net.value s node) := by
    rw [Circuit.gates_append, Circuit.gates_fresh, Circuit.simulate_append,
      simulate_products (forall₂_of_mapM hgs) hnames _ fun _ _ => rfl, hw, Bool.false_xor,
      hxor s]
  refine ⟨?_, ?_⟩
  · intro e he
    simp only [Circuit.width_append, Circuit.width_fresh, hrun]
    rcases List.mem_cons.mp he with rfl | he
    · simp
    · obtain ⟨h0, hlt, hval⟩ := hs1.named e he
      refine ⟨h0, by omega, ?_⟩
      rw [Function.update_of_ne (Int.ne_of_lt hlt), hval]
  · intro q hq
    simp only [Circuit.width_append, Circuit.width_fresh, Nat.cast_add, Nat.cast_one] at hq
    rw [hrun, Function.update_of_ne (by omega)]
    exact hs1.outside q (by omega)

theorem visit_holds : ∀ (fuel : Nat) (path : List String) (node : String) (st st' : BlockMap),
    Holds net s st → visit cs fuel path node st = .ok st' →
      Holds net s st' ∧ (st'.qubits.lookup node).isSome ∧ Grows st st' := by
  intro fuel path node st st' hs h
  obtain ⟨hs', hsome, hgrow, -⟩ := visit_keeps (Holds net s)
    (fun _ _ _ _ _ _ hs1 _ _ hc hgs => block_holds hacyc hgates htrees hcs s hs1 hc hgs)
    fuel path node st st' hs h
  exact ⟨hs', hsome, hgrow⟩

end Visit

theorem inputQubits_holds {net : Network} (hpi : net.InputsUndriven) (s : String → Bool) :
    Holds net s ⟨net.inputQubits.1, net.inputQubits.2, []⟩ := by
  obtain ⟨h1, h2⟩ := inputQubits_spec net
  refine ⟨?_, ?_⟩
  · intro e he
    obtain ⟨i, hi, rfl⟩ := h2 e he
    simp only [h1, Circuit.simulate_nil]
    refine ⟨by omega, by simpa using hi, ?_⟩
    rw [Network.inputBits_of_lt net s hi, Network.value_of_input hpi s (List.getElem_mem hi)]
  · intro q hq
    simp only [h1, Circuit.simulate_nil] at hq ⊢
    exact Network.inputBits_of_not_mem net s hq

end BlockMap

namespace Network

open BlockMap

theorem compileBlocks_eq_ok_of_parts {net : Network} {w : Nat} {gs : List (Circuit.Gate Int)}
    {qs : QubitMap} {ms : List String}
    (h : net.compileBlocks.toOption.map
        (fun st => (st.circuit.width, st.circuit.gates, st.qubits, st.mapped)) =
      some (w, gs, qs, ms)) :
    net.compileBlocks = .ok ⟨⟨w, gs⟩, qs, ms⟩ := by
  cases hr : net.compileBlocks with
  | error e => simp [hr, Except.toOption] at h
  | ok st =>
    simp only [hr, Except.toOption, Option.map_some, Option.some.injEq, Prod.mk.injEq] at h
    obtain ⟨rfl, rfl, rfl, rfl⟩ := h
    rfl

/-- Block synthesis of an acyclic network read from a netlist, whose AND gates
negate nothing, whose XOR gates negate both inputs or neither, and whose XOR
gates below every block form trees: run classically from the input bits of any
assignment `s`, the circuit leaves the qubit of every output holding its value. -/
theorem compileBlocks_simulate {text : String} {net : Network} (hread : ofVerilog text = .ok net)
    (hacyc : net.Acyclic) (hpi : net.InputsUndriven) (hneutral : ∀ e ∈ net.gates, e.2.Neutral)
    (htrees : net.XorTrees) {st : BlockMap} (hst : net.compileBlocks = .ok st)
    (s : String → Bool) :
    ∀ o ∈ net.outputs, ∃ q, st.qubits.lookup o = some q ∧
      Circuit.simulate st.circuit.gates (net.inputBits s) q = net.value s o := by
  have hgates : ∀ e ∈ net.gates, e.2.Neutral ∧ e.2.Parsed :=
    fun e he => ⟨hneutral e he, parsed_of_ofVerilog hread e he⟩
  unfold compileBlocks at hst
  obtain ⟨cs, hcuts, hst⟩ := bind_eq_ok hst
  have hcs := cutsOf_cuts (keys_nodup_of_ofVerilog hread) hcuts
  have h0 := inputQubits_holds hpi s
  rcases hq : net.inputQubits with ⟨c0, m0⟩
  rw [hq] at h0
  simp only [hq] at hst
  obtain ⟨hs, hout, -⟩ := foldlM_forall (Holds net s) (fun o st => (st.qubits.lookup o).isSome)
    (fun o st1 st2 hs1 hv => by
      obtain ⟨hs2, hsome, hgrow⟩ := visit_holds hacyc hgates htrees hcs s _ [] o st1 st2 hs1 hv
      exact ⟨hs2, hsome, hgrow⟩)
    net.outputs _ st h0 hst
  intro o ho
  obtain ⟨q, hoq⟩ := Option.isSome_iff_exists.mp (hout o ho)
  obtain ⟨l₁, l₂, hqs, -⟩ := List.lookup_eq_some_iff.mp hoq
  exact ⟨q, hoq, (hs.named (o, q) (by rw [hqs]; simp)).2.2⟩

theorem andXorNet_xorTrees : andXorNet.XorTrees := by
  intro n g hg hand
  rw [gate?_eq_some_iff (keys_nodup_of_ofVerilog ofVerilog_andXorNet)] at hg
  simp only [andXorNet, List.mem_cons, Prod.mk.injEq, List.not_mem_nil, or_false] at hg
  rcases hg with ⟨rfl, rfl⟩ | ⟨rfl, rfl⟩
  · cases hand
  · decide

theorem compileBlocks_andXorNet :
    andXorNet.compileBlocks = .ok ⟨⟨4, [.cx 2 3, .ccx 0 1 3]⟩, [("y", 3), ("c", 2), ("b", 1), ("a", 0)], ["y"]⟩ :=
  compileBlocks_eq_ok_of_parts (by decide +kernel)

theorem compileBlocks_simulate_and_xor :
    ∃ (net : Network) (st : BlockMap),
      ofVerilog "module top(a, b, c, y);\ninput a, b, c;\noutput y;\nwire t;\nassign t = a & b;\nassign y = t ^ c;\nendmodule\n" = .ok net ∧
      net.compileBlocks = .ok st ∧
      ∀ s : String → Bool, ∃ q, st.qubits.lookup "y" = some q ∧
        Circuit.simulate st.circuit.gates (net.inputBits s) q = ((s "a" && s "b") ^^ s "c") := by
  refine ⟨andXorNet, _, ofVerilog_andXorNet, compileBlocks_andXorNet, fun s => ?_⟩
  obtain ⟨q, hq, hval⟩ := compileBlocks_simulate ofVerilog_andXorNet andXorNet_acyclic
    andXorNet_inputsUndriven andXorNet_neutral andXorNet_xorTrees compileBlocks_andXorNet s "y"
    List.mem_cons_self
  refine ⟨q, hq, ?_⟩
  have hinput : ∀ x ∈ ["a", "b", "c"], andXorNet.value s x = s x :=
    fun x hx => value_of_input andXorNet_inputsUndriven s hx
  rw [hval, value_of_gate andXorNet_acyclic s
    (show andXorNet.gate? "y" = some (.binary .xor "t" "c" false false false) from rfl)]
  simp only [Gate.eval, BinOp.eval, Bool.xor_false, Bool.false_xor]
  rw [value_of_gate andXorNet_acyclic s
    (show andXorNet.gate? "t" = some (.binary .and "a" "b" false false false) from rfl), hinput "c" (by simp)]
  simp only [Gate.eval, BinOp.eval, Bool.xor_false, Bool.false_xor]
  rw [hinput "a" (by simp), hinput "b" (by simp)]

/-- Blocks keep their leaves as sets: in `y = (a ^ b) ^ a` the name `a` is
reached twice through XOR gates and is kept once, so with `a` set and `b` unset
the qubit of `y` ends set, although `y` is unset. -/
theorem compileBlocks_reconverging_xor :
    ∃ (net : Network) (st : BlockMap),
      ofVerilog "module top(a, b, y);\ninput a, b;\noutput y;\nwire t;\nassign t = a ^ b;\nassign y = t ^ a;\nendmodule\n" = .ok net ∧
      net.Acyclic ∧ net.InputsUndriven ∧ (∀ e ∈ net.gates, e.2.Neutral) ∧
      net.compileBlocks = .ok st ∧
      ¬ ∀ o ∈ net.outputs, ∃ q, st.qubits.lookup o = some q ∧
        Circuit.simulate st.circuit.gates (net.inputBits (· == "a")) q =
          net.value (· == "a") o := by
  let gt : Gate := .binary .xor "a" "b" false false false
  let gy : Gate := .binary .xor "t" "a" false false false
  let net : Network := { inputs := ["a", "b"], outputs := ["y"], gates := [("t", gt), ("y", gy)] }
  have hread : ofVerilog "module top(a, b, y);\ninput a, b;\noutput y;\nwire t;\nassign t = a ^ b;\nassign y = t ^ a;\nendmodule\n" = .ok net :=
    ofVerilog_eq_ok_of_parts (by decide +kernel)
  have hpi : net.InputsUndriven := by
    unfold InputsUndriven
    decide
  have hacyc : net.Acyclic :=
    net.acyclic_of_ranked (fun x => if x = "y" then 2 else if x = "t" then 1 else 0) (by decide)
  have hst : net.compileBlocks = .ok ⟨⟨3, [.cx 0 2, .cx 1 2]⟩,
      [("y", 2), ("b", 1), ("a", 0)], ["y"]⟩ :=
    compileBlocks_eq_ok_of_parts (by decide +kernel)
  refine ⟨net, _, hread, hacyc, hpi, by simp [net, gt, gy, Gate.Neutral], hst, ?_⟩
  intro h
  obtain ⟨q, hq, hval⟩ := h "y" List.mem_cons_self
  simp only [List.lookup_cons, List.lookup_nil] at hq
  cases hq
  rw [value_of_gate hacyc _ (show net.gate? "y" = some gy from rfl)] at hval
  simp only [gy, Gate.eval, BinOp.eval, Bool.xor_false, Bool.false_xor] at hval
  rw [value_of_gate hacyc _ (show net.gate? "t" = some gt from rfl)] at hval
  simp only [gt, Gate.eval, BinOp.eval, Bool.xor_false, Bool.false_xor] at hval
  rw [value_of_input hpi _ (show "a" ∈ net.inputs by simp [net]),
    value_of_input hpi _ (show "b" ∈ net.inputs by simp [net])] at hval
  revert hval
  decide

end Network

end XagSynth
