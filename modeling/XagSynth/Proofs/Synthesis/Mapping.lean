import XagSynth.Proofs.Synthesis.Blocks

/-!
# When block synthesis refuses a network

On an acyclic network read from a netlist in which every name read is known,
block synthesis succeeds exactly when no name it maps is driven by an AND gate,
and otherwise fails with `Fault.andBlock` (`compileBlocks_ok_or_andBlock`); the
invariant is `BlockMap.Settled`.
-/

namespace XagSynth

namespace Network

/-- `x` is a name of a product of the block that block synthesis gives `n`,
a name driven by a gate and not a primary input. -/
def BlockLeaf (net : Network) (x n : String) : Prop :=
  n ∉ net.inputs ∧ ∃ g exposed products, net.gate? n = some g ∧
    net.cutOf (.count 2) n g = .ok (.block n exposed products) ∧ x ∈ products.flatten

/-- A name block synthesis maps: an output, or a name of a product of the
block of a mapped name. -/
def Mapped (net : Network) (x : String) : Prop :=
  ∃ o ∈ net.outputs, Relation.ReflTransGen net.BlockLeaf x o

/-- A name driven by an AND gate and not a primary input. -/
def Conj (net : Network) (x : String) : Prop :=
  x ∉ net.inputs ∧ ∃ g, net.gate? x = some g ∧ g.isAnd = true

end Network

theorem foldlM_ok_or {α β ε : Type} (I : β → Prop) (Q : α → β → Prop) (E : α → Prop) {e : ε}
    {f : β → α → Except ε β} :
    ∀ (l : List α) (b : β), (∀ a ∈ l, ∀ b, I b →
        (∃ b', f b a = .ok b' ∧ I b' ∧ Q a b' ∧ ∀ a', Q a' b → Q a' b') ∨
          (f b a = .error e ∧ E a)) → I b →
      (∃ r, l.foldlM f b = .ok r ∧ I r ∧ (∀ a ∈ l, Q a r) ∧ ∀ a', Q a' b → Q a' r) ∨
        (l.foldlM f b = .error e ∧ ∃ a ∈ l, E a) := by
  intro l
  induction l with
  | nil => exact fun b _ hb => Or.inl ⟨b, rfl, hb, fun a ha => absurd ha List.not_mem_nil, fun _ h => h⟩
  | cons a l ih =>
    intro b hstep hb
    have hrest : ∀ a' ∈ l, ∀ b, I b →
        (∃ b', f b a' = .ok b' ∧ I b' ∧ Q a' b' ∧ ∀ a'', Q a'' b → Q a'' b') ∨
          (f b a' = .error e ∧ E a') :=
      fun a' ha' => hstep a' (List.mem_cons_of_mem a ha')
    rw [List.foldlM_cons]
    rcases hstep a List.mem_cons_self b hb with ⟨b1, h1, hI1, hQ1, hmono1⟩ | ⟨h1, hE⟩
    · rw [h1]
      rcases ih b1 hrest hI1 with ⟨r, hr, hIr, hQr, hmono⟩ | ⟨hr, a', ha', hE'⟩
      · refine Or.inl ⟨r, hr, hIr, fun a' ha' => ?_, fun a' h' => hmono a' (hmono1 a' h')⟩
        rcases List.mem_cons.mp ha' with rfl | ha'
        · exact hmono a' hQ1
        · exact hQr a' ha'
      · exact Or.inr ⟨hr, a', List.mem_cons_of_mem a ha', hE'⟩
    · rw [h1]
      exact Or.inr ⟨rfl, a, List.mem_cons_self, hE⟩

theorem mcxGates_ok {α : Type} {cs : List α} {ps : List Bool} (hlen : cs.length ≤ 2)
    (hps : ps.length = cs.length) (q : α) (clean : Bool) :
    ∃ gs, Circuit.mcxGates cs q ps clean = .ok gs := by
  unfold Circuit.mcxGates
  rw [if_neg (by omega)]
  rcases cs with _ | ⟨c1, _ | ⟨c2, _ | ⟨c3, cs⟩⟩⟩
  · exact ⟨[], rfl⟩
  · rcases ps with _ | ⟨p, ps⟩
    · simp at hps
    · exact ⟨_, rfl⟩
  · rcases ps with _ | ⟨p1, _ | ⟨p2, ps⟩⟩
    · simp at hps
    · simp at hps
    · exact ⟨_, rfl⟩
  · simp at hlen

namespace BlockMap

open Network

section Steps

variable {cs : List (String × Cut)} {fuel : Nat} {path : List String} {node : String}
  {st : BlockMap}

theorem visit_of_isSome (h : (st.qubits.lookup node).isSome) :
    visit cs (fuel + 1) path node st = .ok st := by
  rw [visit]
  simp only [h, if_true]

theorem visit_of_conj (hnone : (st.qubits.lookup node).isSome = false) {n : String}
    {ins : List String} (hc : cs.lookup node = some (.conj n ins)) :
    visit cs (fuel + 1) path node st = .error .andBlock := by
  rw [visit]
  simp only [hnone, hc, Bool.false_eq_true, if_false]

theorem visit_of_block (hnone : (st.qubits.lookup node).isSome = false) {n : String}
    {exposed : List String} {products : List (List String)}
    (hc : cs.lookup node = some (.block n exposed products)) (hpath : path.contains node = false) :
    visit cs (fuel + 1) path node st = (do
      let st1 ← (Text.nameSet products.flatten).foldlM
        (fun st l => visit cs fuel (node :: path) l st) st
      let gs ← products.mapM
        (productGates ((node, st1.circuit.width) :: st1.qubits) st1.circuit.width)
      return ⟨st1.circuit.fresh.2.append gs.flatten, (node, st1.circuit.width) :: st1.qubits,
        st1.mapped ++ [node]⟩) := by
  rw [visit]
  simp only [hnone, hc, hpath, Bool.false_eq_true, if_false]
  rfl

end Steps

theorem products_ok {qubits : QubitMap} {q : Int} {products : List (List String)}
    (h : ∀ p ∈ products, p.length ≤ 2 ∧ ∀ y ∈ p, (qubits.lookup y).isSome) :
    ∃ gs, products.mapM (productGates qubits q) = .ok gs := by
  refine mapM_ok fun p hp => ?_
  obtain ⟨hlen, hsome⟩ := h p hp
  have hfind : ∀ y ∈ p, ∃ c, qubits.find y = .ok c := by
    intro y hy
    obtain ⟨c, hc⟩ := Option.isSome_iff_exists.mp (hsome y hy)
    exact ⟨c, by simp [QubitMap.find, hc]⟩
  obtain ⟨cs, hcs⟩ := mapM_ok hfind
  have hcslen : cs.length = p.length := (forall₂_of_mapM hcs).length_eq.symm
  obtain ⟨gs, hgs⟩ : ∃ gs, Circuit.mcxGates cs q (p.map fun _ => false) false = .ok gs :=
    mcxGates_ok (by omega) (by rw [List.length_map, hcslen]) q false
  exact ⟨gs, by simp only [productGates, hcs, hgs, bind, Except.bind]⟩

/-- Mapping so far, against the block views `cs`: every primary input has a
qubit, and every other name with a qubit heads a block whose names all have
qubits. -/
structure Settled (net : Network) (cs : List (String × Cut)) (st : BlockMap) : Prop where
  inputs : ∀ x ∈ net.inputs, (st.qubits.lookup x).isSome
  blocks : ∀ x, (st.qubits.lookup x).isSome → x ∈ net.inputs ∨
    ∃ n exposed products, cs.lookup x = some (.block n exposed products) ∧
      ∀ y ∈ products.flatten, (st.qubits.lookup y).isSome

variable {net : Network} {cs : List (String × Cut)}

theorem settled_inputQubits (net : Network) (cs : List (String × Cut)) :
    Settled net cs ⟨net.inputQubits.1, net.inputQubits.2, []⟩ := by
  have hkeys := keys_inputQubits net
  refine ⟨fun x hx => isSome_lookup_of_mem_keys (by simpa [hkeys] using hx), fun x hx => ?_⟩
  obtain ⟨e, he, hxe⟩ := List.lookup_isSome_iff.mp hx
  have hmem : e.1 ∈ net.inputQubits.2.map Prod.fst := List.mem_map_of_mem he
  rw [hkeys, List.mem_reverse] at hmem
  exact Or.inl (by simpa [beq_iff_eq.mp hxe] using hmem)

theorem Settled.cons {st : BlockMap} (hst : Settled net cs st) {node n : String}
    {exposed : List String} {products : List (List String)}
    (hc : cs.lookup node = some (.block n exposed products))
    (hleaves : ∀ y ∈ products.flatten, (st.qubits.lookup y).isSome) (circuit : Circuit) (q : Int)
    (mapped : List String) :
    Settled net cs ⟨circuit, (node, q) :: st.qubits, mapped⟩ := by
  refine ⟨fun x hx => isSome_lookup_cons _ (hst.inputs x hx), fun x hx => ?_⟩
  by_cases hxn : x = node
  · subst hxn
    exact Or.inr ⟨n, exposed, products, hc, fun y hy => isSome_lookup_cons _ (hleaves y hy)⟩
  · have hne : (x == node) = false := by simpa using hxn
    have hx' : (st.qubits.lookup x).isSome := by
      rw [List.lookup_cons, hne] at hx
      exact hx
    rcases hst.blocks x hx' with hin | ⟨n', e', ps', hc', hps'⟩
    · exact Or.inl hin
    · exact Or.inr ⟨n', e', ps', hc', fun y hy => isSome_lookup_cons _ (hps' y hy)⟩

section Table

variable (hkeys : net.KeysNodup) (hcs : net.cuts (.count 2) = .ok cs)
include hkeys hcs

theorem Settled.not_conj {st : BlockMap} (hst : Settled net cs st) {x : String}
    (hx : (st.qubits.lookup x).isSome) : ¬ net.Conj x := by
  rintro ⟨hin, g, hg, hand⟩
  rcases hst.blocks x hx with hin' | ⟨n, e, ps, hc, -⟩
  · exact hin hin'
  · rcases cutsOf_cuts hkeys hcs x _ hc with ⟨-, hsrc⟩ | ⟨g', hg', hcut⟩
    · cases hsrc
    · rw [hg, Option.some.injEq] at hg'
      subst hg'
      cases cutOf_conj hand hcut

theorem Settled.reach {st : BlockMap} (hst : Settled net cs st) {x n : String}
    (hxn : Relation.ReflTransGen net.BlockLeaf x n) (hn : (st.qubits.lookup n).isSome) :
    (st.qubits.lookup x).isSome := by
  induction hxn using Relation.ReflTransGen.head_induction_on with
  | refl => exact hn
  | head hxy _ ih =>
    obtain ⟨hyin, g, e, ps, hg, hcut, hx⟩ := hxy
    rcases hst.blocks _ ih with hin | ⟨n', e', ps', hc, hleaves⟩
    · exact absurd hin hyin
    · rcases cutsOf_cuts hkeys hcs _ _ hc with ⟨hin, -⟩ | ⟨g', hg', hcut'⟩
      · exact absurd hin hyin
      · rw [hg, Option.some.injEq] at hg'
        subst hg'
        rw [hcut, Except.ok.injEq, Cut.block.injEq] at hcut'
        obtain ⟨-, -, rfl⟩ := hcut'
        exact hleaves _ hx

variable (hclosed : net.Closed) (hacyc : net.Acyclic)
include hclosed hacyc

theorem visit_ok_or_andBlock : ∀ (fuel : Nat) (path : List String) (node : String) (st : BlockMap),
    net.Known node → path.Nodup →
    (∀ p ∈ path, Relation.TransGen net.Reads node p ∧ p ∈ cs.map Prod.fst) →
    cs.length < fuel + path.length → Settled net cs st →
    (∃ st', visit cs fuel path node st = .ok st' ∧ Settled net cs st' ∧
        (st'.qubits.lookup node).isSome ∧ Grows st st') ∨
      (visit cs fuel path node st = .error .andBlock ∧
        ∃ x, Relation.ReflTransGen net.BlockLeaf x node ∧ net.Conj x) := by
  intro fuel
  induction fuel with
  | zero =>
    intro path node st _ hnd hpath hfuel _
    have hle : path.length ≤ (cs.map Prod.fst).length :=
      hnd.length_le_of_subset fun p hp => (hpath p hp).2
    rw [List.length_map] at hle
    omega
  | succ fuel ih =>
    intro path node st hknown hnd hpath hfuel hst
    by_cases hsome : (st.qubits.lookup node).isSome
    · exact Or.inl ⟨st, visit_of_isSome hsome, hst, hsome, fun _ h => h⟩
    have hnone : (st.qubits.lookup node).isSome = false := Bool.eq_false_iff.mpr hsome
    have hin : node ∉ net.inputs := fun h => hsome (hst.inputs node h)
    obtain ⟨c, hc, hview⟩ := lookup_cuts hkeys hcs hknown
    obtain ⟨g, hg, hcut⟩ := hview.resolve_left fun h => hin h.1
    cases hand : g.isAnd with
    | true =>
      rw [cutOf_conj hand hcut] at hc
      exact Or.inr ⟨visit_of_conj hnone hc, node, .refl, hin, g, hg, hand⟩
    | false =>
      obtain ⟨exposed, products, rfl, hreads⟩ := cutOf_reads hg hand hcut
      have hpath' : path.contains node = false := by
        rw [Bool.eq_false_iff, ne_eq, List.contains_iff_mem]
        exact fun hmem => hacyc node (hpath node hmem).1
      have hnode : node ∈ cs.map Prod.fst := mem_keys_of_lookup hc
      have hleaf : ∀ l ∈ Text.nameSet products.flatten,
          net.BlockLeaf l node ∧ Relation.TransGen net.Reads l node := by
        intro l hl
        have hl' := Text.mem_nameSet.mp hl
        obtain ⟨p, hp, hlp⟩ := List.mem_flatten.mp hl'
        exact ⟨⟨hin, g, exposed, products, hg, hcut, hl'⟩, hreads p hp l hlp⟩
      have hstep : ∀ l ∈ Text.nameSet products.flatten, ∀ st2, Settled net cs st2 ∧ Grows st st2 →
          (∃ st3, visit cs fuel (node :: path) l st2 = .ok st3 ∧
              (Settled net cs st3 ∧ Grows st st3) ∧ (st3.qubits.lookup l).isSome ∧
              ∀ l', (st2.qubits.lookup l').isSome → (st3.qubits.lookup l').isSome) ∨
            (visit cs fuel (node :: path) l st2 = .error .andBlock ∧
              ∃ x, Relation.ReflTransGen net.BlockLeaf x l ∧ net.Conj x) := by
        intro l hl st2 hst2
        obtain ⟨-, hread⟩ := hleaf l hl
        obtain ⟨z, hz, -⟩ := Relation.TransGen.head'_iff.mp hread
        have hpathl : ∀ p ∈ node :: path,
            Relation.TransGen net.Reads l p ∧ p ∈ cs.map Prod.fst := by
          intro p hp
          rcases List.mem_cons.mp hp with rfl | hp
          · exact ⟨hread, hnode⟩
          · exact ⟨hread.trans (hpath p hp).1, (hpath p hp).2⟩
        rcases ih (node :: path) l st2 (known_of_reads hclosed.1 hz)
            (List.nodup_cons.mpr ⟨fun h => hacyc node (hpath node h).1, hnd⟩) hpathl
            (by simp only [List.length_cons]; omega) hst2.1 with
          ⟨st3, hv, hst3, hsome3, hgrow3⟩ | hfail
        · exact Or.inl ⟨st3, hv, ⟨hst3, fun x hx => hgrow3 x (hst2.2 x hx)⟩, hsome3, hgrow3⟩
        · exact Or.inr hfail
      rw [visit_of_block hnone hc hpath']
      rcases foldlM_ok_or (fun st' => Settled net cs st' ∧ Grows st st')
          (fun l st' => (st'.qubits.lookup l).isSome)
          (fun l => ∃ x, Relation.ReflTransGen net.BlockLeaf x l ∧ net.Conj x)
          (Text.nameSet products.flatten) st hstep ⟨hst, fun _ h => h⟩ with
        ⟨st1, hfold, ⟨hst1, hgrow1⟩, hleaves1, -⟩ | ⟨hfold, l, hl, x, hxl, hx⟩
      · have hflat : ∀ y ∈ products.flatten, (st1.qubits.lookup y).isSome :=
          fun y hy => hleaves1 y (Text.mem_nameSet.mpr hy)
        have hprod : ∀ p ∈ products, p.length ≤ 2 ∧
            ∀ y ∈ p, (((node, st1.circuit.width) :: st1.qubits : QubitMap).lookup y).isSome :=
          fun p hp => ⟨length_le_two_of_cutOf hcut p hp, fun y hy =>
            isSome_lookup_cons _ (hflat y (List.mem_flatten.mpr ⟨p, hp, hy⟩))⟩
        obtain ⟨gs, hgs⟩ : ∃ gs, products.mapM (productGates ((node, st1.circuit.width) :: st1.qubits)
            st1.circuit.width) = .ok gs := products_ok hprod
        refine Or.inl ⟨⟨st1.circuit.fresh.2.append gs.flatten, (node, st1.circuit.width) :: st1.qubits,
            st1.mapped ++ [node]⟩, by simp only [hfold, hgs, bind, Except.bind, pure, Except.pure],
          hst1.cons hc hflat _ _ _, by simp, fun x hx => isSome_lookup_cons _ (hgrow1 x hx)⟩
      · refine Or.inr ⟨?_, x, hxl.tail (hleaf l hl).1, hx⟩
        simp only [hfold, bind, Except.bind]

end Table

end BlockMap

namespace Network

open BlockMap

/-- Block synthesis of an acyclic network read from a netlist, in which every
name that a gate reads and every output is known, either succeeds and maps no
AND gate, or refuses with `Fault.andBlock` having reached one. -/
theorem compileBlocks_ok_or_andBlock {text : String} {net : Network}
    (hread : ofVerilog text = .ok net) (hclosed : net.Closed) (hacyc : net.Acyclic) :
    (∃ st, net.compileBlocks = .ok st ∧ ∀ x, net.Mapped x → ¬ net.Conj x) ∨
      (net.compileBlocks = .error .andBlock ∧ ∃ x, net.Mapped x ∧ net.Conj x) := by
  have hkeys := keys_nodup_of_ofVerilog hread
  obtain ⟨cs, hcs⟩ := cuts_ok hkeys hclosed 2
  have h0 := settled_inputQubits net cs
  unfold compileBlocks
  rcases hq : net.inputQubits with ⟨c0, m0⟩
  rw [hq] at h0
  simp only [hcs, bind, Except.bind]
  rcases foldlM_ok_or (Settled net cs) (fun o st => (st.qubits.lookup o).isSome)
      (fun o => ∃ x, Relation.ReflTransGen net.BlockLeaf x o ∧ net.Conj x) net.outputs _
      (fun o ho st hst => visit_ok_or_andBlock hkeys hcs hclosed hacyc (cs.length + 1) [] o st (hclosed.2 o ho)
        List.nodup_nil (fun _ h => absurd h List.not_mem_nil) (by simp) hst) h0 with
    ⟨st, hfold, hst, hout, -⟩ | ⟨hfold, o, ho, x, hxo, hx⟩
  · exact Or.inl ⟨st, hfold, fun x ⟨o, ho, hxo⟩ =>
      hst.not_conj hkeys hcs (hst.reach hkeys hcs hxo (hout o ho))⟩
  · exact Or.inr ⟨hfold, x, ⟨o, ho, hxo⟩, hx⟩

/-- An output driven by an AND gate is refused. -/
theorem compileBlocks_refuses_and_output :
    ∃ net : Network,
      ofVerilog "module top(a, b, y);\ninput a, b;\noutput y;\nassign y = a & b;\nendmodule\n" = .ok net ∧
      net.Closed ∧ net.Acyclic ∧ net.compileBlocks = .error .andBlock := by
  let gy : Gate := .binary .and "a" "b" false false false
  let net : Network := { inputs := ["a", "b"], outputs := ["y"], gates := [("y", gy)] }
  have hread : ofVerilog "module top(a, b, y);\ninput a, b;\noutput y;\nassign y = a & b;\nendmodule\n" = .ok net :=
    ofVerilog_eq_ok_of_parts (by decide +kernel)
  have hclosed : net.Closed := net.closed_of_isSome (by decide) (by decide)
  have hacyc : net.Acyclic := net.acyclic_of_ranked (fun x => if x = "y" then 1 else 0) (by decide)
  have hconj : net.Conj "y" := ⟨by decide, gy, rfl, rfl⟩
  rcases compileBlocks_ok_or_andBlock hread hclosed hacyc with ⟨st, -, hno⟩ | ⟨herr, -⟩
  · exact absurd hconj (hno "y" ⟨"y", List.mem_cons_self, .refl⟩)
  · exact ⟨net, hread, hclosed, hacyc, herr⟩

theorem compileBlocks_eq_andBlock {net : Network}
    (h : (match net.compileBlocks with | .error .andBlock => true | _ => false) = true) :
    net.compileBlocks = .error .andBlock := by
  split at h
  · assumption
  · cases h

/-- An AND gate read by two gates is kept whole as a leaf of the blocks that
read it, and mapping refuses it. -/
theorem compileBlocks_shared_and_leaf :
    ∃ net : Network,
      ofVerilog "module top(a, b, c, y, z);\ninput a, b, c;\noutput y, z;\nwire t;\nassign t = a & b;\nassign y = t ^ c;\nassign z = t ^ a;\nendmodule\n" = .ok net ∧
      net.Closed ∧ net.Acyclic ∧ ¬ ∃ st, net.compileBlocks = .ok st := by
  let gt : Gate := .binary .and "a" "b" false false false
  let gy : Gate := .binary .xor "t" "c" false false false
  let gz : Gate := .binary .xor "t" "a" false false false
  let net : Network :=
    { inputs := ["a", "b", "c"], outputs := ["y", "z"], gates := [("t", gt), ("y", gy), ("z", gz)] }
  have hread : ofVerilog "module top(a, b, c, y, z);\ninput a, b, c;\noutput y, z;\nwire t;\nassign t = a & b;\nassign y = t ^ c;\nassign z = t ^ a;\nendmodule\n" = .ok net :=
    ofVerilog_eq_ok_of_parts (by decide +kernel)
  have hclosed : net.Closed := net.closed_of_isSome (by decide) (by decide)
  have hacyc : net.Acyclic :=
    net.acyclic_of_ranked (fun x => if x = "t" then 1 else if x = "y" ∨ x = "z" then 2 else 0) (by decide)
  have herr : net.compileBlocks = .error .andBlock := compileBlocks_eq_andBlock (by decide +kernel)
  refine ⟨net, hread, hclosed, hacyc, ?_⟩
  rintro ⟨st, hst⟩
  rw [herr] at hst
  cases hst

end Network

end XagSynth
