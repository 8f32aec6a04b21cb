import XagSynth.Proofs.Synthesis.Blocks
import XagSynth.Proofs.Synthesis.Mapping

/-!
# Block synthesis maps each name once

On a closed, acyclic network read from a netlist on which block synthesis
succeeds, the mapped names (`Network.Mapped`) each get one qubit after the
inputs, in mapping order, and one block of X gates, one per product, controlled
by the product's qubits (`compileBlocks_layout`); the invariant is
`BlockMap.Layout`.
-/

namespace XagSynth

theorem QubitMap.lookup_of_find {m : QubitMap} {a : String} {q : Int} (h : m.find a = .ok q) :
    m.lookup a = some q := by
  unfold QubitMap.find at h
  split at h
  · rename_i q' hq
    cases h
    exact hq
  · cases h

theorem QubitMap.lookup_cons_of_none {m : QubitMap} {node x : String} {c : Int}
    (hnone : m.lookup node = none) (hx : m.lookup x = some c) (q : Int) :
    ((node, q) :: m).lookup x = some c := by
  have hne : (x == node) = false := by
    rw [beq_eq_false_iff_ne]
    rintro rfl
    rw [hnone] at hx
    cases hx
  rw [List.lookup_cons, hne]
  exact hx

theorem foldlM_keeps_mem {α β ε : Type} (I : β → Prop) {f : β → α → Except ε β} :
    ∀ (l : List α) (b r : β), (∀ a ∈ l, ∀ b b', I b → f b a = .ok b' → I b') → I b →
      l.foldlM f b = .ok r → I r
  | [], b, r, _, hb, h => by
    simp only [List.foldlM_nil, pure, Except.pure, Except.ok.injEq] at h
    exact h ▸ hb
  | a :: l, b, r, hstep, hb, h => by
    rw [List.foldlM_cons] at h
    obtain ⟨b1, h1, h⟩ := bind_eq_ok h
    exact foldlM_keeps_mem I l b1 r (fun a' ha' => hstep a' (List.mem_cons_of_mem a ha'))
      (hstep a List.mem_cons_self b b1 hb h1) h

namespace Network

variable {net : Network}

theorem expand_ne_nil (hacyc : net.Acyclic) {p e : List String} (he : e ≠ [])
    (hgate : ∀ x ∈ e, ∃ g, net.gate? x = some g) : net.expand p e ≠ [] := by
  intro hnil
  have hclosed : ∀ x ∈ e, ∀ a, net.Reads a x → a ∈ e := by
    rintro x hx a ⟨g, hg, ha⟩
    by_contra hae
    have hmem : a ∈ net.expand p e := by
      refine Text.mem_nameDiff.mpr ⟨Text.mem_nameUnion.mpr (Or.inr ?_), hae⟩
      exact List.mem_flatMap.mpr ⟨x, hx, by simpa [inputsOf, hg] using ha⟩
    rw [hnil] at hmem
    exact List.not_mem_nil hmem
  have hbelow : ∀ k, ∀ x ∈ e, Below net k x := by
    intro k
    induction k with
    | zero => exact hgate
    | succ k ih =>
      intro x hx
      obtain ⟨g, hg⟩ := hgate x hx
      obtain ⟨a, ha⟩ := List.exists_mem_of_ne_nil g.inputs (Gate.inputs_ne_nil g)
      exact ⟨a, ⟨g, hg, ha⟩, ih a (hclosed x hx a ⟨g, hg, ha⟩)⟩
  obtain ⟨x, hx⟩ := List.exists_mem_of_ne_nil e he
  exact Nat.lt_irrefl _ (below_lt_length hacyc (hbelow net.gates.length x hx))

theorem grow_ne_nil (hacyc : net.Acyclic) (b : Bound) : ∀ (fuel : Nat) (p r : List String),
    net.grow b fuel p = .ok r → p ≠ [] → r ≠ [] := by
  intro fuel
  induction fuel with
  | zero =>
    intro p r h hp
    cases h
    exact hp
  | succ fuel ih =>
    intro p r h hp
    rcases grow_succ_ok h with rfl | ⟨e, hfilter, hne, hnext⟩
    · exact hp
    have hexp : net.expand p e ≠ [] := expand_ne_nil hacyc hne fun x hx => by
      obtain ⟨g, hg, -⟩ := expandable_spec (mem_of_filterM hfilter x hx).2
      exact ⟨g, hg⟩
    rcases hnext with ⟨-, h⟩ | rfl
    · exact ih _ _ h hexp
    · exact hexp

theorem products_ne_nil (hacyc : net.Acyclic) {b : Bound} {n n' : String} {g : Gate}
    {exposed : List String} {products : List (List String)}
    (h : net.cutOf b n g = .ok (.block n' exposed products)) : ∀ p ∈ products, p ≠ [] := by
  intro p hp
  obtain ⟨l, hlp⟩ := grow_of_cutOf h p hp
  exact grow_ne_nil hacyc b _ _ _ hlp (List.cons_ne_nil l [])

def productsOf (net : Network) (n : String) : List (List String) :=
  match net.gate? n with
  | some g =>
    match net.cutOf (.count 2) n g with
    | .ok (.block _ _ ps) => ps
    | _ => []
  | none => []

theorem productsOf_of_cutsOf {cs : List (String × Cut)} (hcs : net.CutsOf (.count 2) cs)
    {n n' : String} {exposed : List String} {ps : List (List String)}
    (h : cs.lookup n = some (.block n' exposed ps)) : net.productsOf n = ps := by
  rcases hcs n _ h with ⟨-, hsrc⟩ | ⟨g, hg, hcut⟩
  · cases hsrc
  · simp [productsOf, hg, hcut]

theorem blockLeaf_of_cutsOf {cs : List (String × Cut)} (hcs : net.CutsOf (.count 2) cs)
    {x n n' : String} {exposed : List String} {ps : List (List String)} (hn : n ∉ net.inputs)
    (h : cs.lookup n = some (.block n' exposed ps)) (hx : x ∈ ps.flatten) : net.BlockLeaf x n := by
  rcases hcs n _ h with ⟨-, hsrc⟩ | ⟨g, hg, hcut⟩
  · cases hsrc
  · cases hand : g.isAnd
    · obtain ⟨exposed', ps', heq, -⟩ := cutOf_reads hg hand hcut
      obtain ⟨rfl, -, -⟩ := Cut.block.inj heq
      exact ⟨hn, g, exposed, ps, hg, hcut, hx⟩
    · cases cutOf_conj hand hcut

end Network

namespace BlockMap

open Network

/-- The gates `gs` are one X gate per product of `ps`, in order, each on the
qubit `q` and controlled by the qubits of the product's names. -/
def ProductGates (qubits : QubitMap) (q : Int) (ps : List (List String))
    (gs : List (Circuit.Gate Int)) : Prop :=
  List.Forall₂ (fun p g => g.target = q ∧
    List.Forall₂ (fun x c => qubits.lookup x = some c) p g.controls) ps gs

theorem productGates_single {qubits : QubitMap} {q : Int} {p : List String}
    {gs : List (Circuit.Gate Int)} (h : productGates qubits q p = .ok gs) (hp : p ≠ []) :
    ∃ g, gs = [g] ∧ g.target = q ∧
      List.Forall₂ (fun x c => qubits.lookup x = some c) p g.controls := by
  obtain ⟨cs, hcs, h⟩ := bind_eq_ok h
  have hlk : List.Forall₂ (fun x c => qubits.lookup x = some c) p cs :=
    (forall₂_of_mapM hcs).imp fun _ _ => QubitMap.lookup_of_find
  rcases hlk with _ | ⟨hx1, hlk⟩
  · exact absurd rfl hp
  rcases hlk with _ | ⟨hx2, hlk⟩
  · simp [Circuit.mcxGates, Circuit.cnotGates, Circuit.flipIf] at h
    subst h
    exact ⟨.cx _ q, rfl, rfl, .cons hx1 .nil⟩
  rcases hlk with _ | ⟨hx3, hlk⟩
  · simp [Circuit.mcxGates, Circuit.toffoliGates, Circuit.flipIf] at h
    subst h
    exact ⟨.ccx _ _ q, rfl, rfl, .cons hx1 (.cons hx2 .nil)⟩
  · unfold Circuit.mcxGates at h
    rw [if_pos (by simp)] at h
    cases h

theorem productGates_flatten {qubits : QubitMap} {q : Int} :
    ∀ {ps : List (List String)} {gss : List (List (Circuit.Gate Int))},
      List.Forall₂ (fun p gs => productGates qubits q p = .ok gs) ps gss →
      (∀ p ∈ ps, p ≠ []) → ProductGates qubits q ps gss.flatten := by
  intro ps gss h
  induction h with
  | nil => exact fun _ => .nil
  | @cons p gs ps gss hp _ ih =>
    intro hne
    obtain ⟨g, rfl, htarget, hcontrols⟩ := productGates_single hp (hne p List.mem_cons_self)
    exact .cons ⟨htarget, hcontrols⟩ (ih fun p' hp' => hne p' (List.mem_cons_of_mem p hp'))

theorem ProductGates.cons {qubits : QubitMap} {q : Int} {ps : List (List String)}
    {gs : List (Circuit.Gate Int)} (h : ProductGates qubits q ps gs) {node : String}
    (hnone : qubits.lookup node = none) (q' : Int) : ProductGates ((node, q') :: qubits) q ps gs :=
  h.imp fun _ _ ⟨htarget, hcontrols⟩ =>
    ⟨htarget, hcontrols.imp fun _ _ hx => QubitMap.lookup_cons_of_none hnone hx q'⟩

/-- The gates `gs` of the mapped name `n`: the gates of its block's products,
on its qubit. -/
def BlockGates (cs : List (String × Cut)) (qubits : QubitMap) (n : String)
    (gs : List (Circuit.Gate Int)) : Prop :=
  ∃ n' exposed products q, cs.lookup n = some (.block n' exposed products) ∧
    qubits.lookup n = some q ∧ ProductGates qubits q products gs

theorem BlockGates.cons {cs : List (String × Cut)} {qubits : QubitMap} {n : String}
    {gs : List (Circuit.Gate Int)} (h : BlockGates cs qubits n gs) {node : String}
    (hnone : qubits.lookup node = none) (q' : Int) : BlockGates cs ((node, q') :: qubits) n gs := by
  obtain ⟨n', exposed, products, q, hc, hq, hgs⟩ := h
  exact ⟨n', exposed, products, q, hc, QubitMap.lookup_cons_of_none hnone hq q', hgs.cons hnone q'⟩

/-- Block mapping so far, against the block table `cs`. The primary inputs
have qubits, and every other name with a qubit is mapped. The mapped names are
distinct and no primary input, and the `i`-th is on the qubit after the inputs
and the `i` names before it. The gates are one block per mapped name, in
order. Every leaf of a mapped name's block that is no primary input was
mapped before it. -/
structure Layout (net : Network) (cs : List (String × Cut)) (st : BlockMap) : Prop where
  inputs : ∀ x ∈ net.inputs, (st.qubits.lookup x).isSome
  keys : ∀ x, (st.qubits.lookup x).isSome → x ∈ net.inputs ∨ x ∈ st.mapped
  fresh : ∀ x ∈ st.mapped, x ∉ net.inputs
  nodup : st.mapped.Nodup
  width : st.circuit.width = net.inputs.length + st.mapped.length
  qubit : ∀ i (hi : i < st.mapped.length),
    st.qubits.lookup st.mapped[i] = some ((net.inputs.length + i : Nat) : Int)
  blocks : ∃ bs, st.circuit.gates = bs.flatten ∧ List.Forall₂ (BlockGates cs st.qubits) st.mapped bs
  order : ∀ i (hi : i < st.mapped.length), ∀ n' exposed products,
    cs.lookup st.mapped[i] = some (.block n' exposed products) →
      ∀ l ∈ products.flatten, l ∉ net.inputs → l ∈ st.mapped.take i

variable {net : Network} {cs : List (String × Cut)}

theorem layout_inputQubits (net : Network) (cs : List (String × Cut)) :
    Layout net cs ⟨net.inputQubits.1, net.inputQubits.2, []⟩ := by
  obtain ⟨h1, -⟩ := inputQubits_spec net
  have hkeys := keys_inputQubits net
  refine ⟨fun x hx => isSome_lookup_of_mem_keys (by simpa [hkeys] using hx), fun x hx => ?_,
    fun _ h => absurd h List.not_mem_nil, List.nodup_nil, by simp [h1],
    fun i hi => absurd hi (Nat.not_lt_zero i), ⟨[], by simp [h1], .nil⟩,
    fun i hi => absurd hi (Nat.not_lt_zero i)⟩
  obtain ⟨e, he, hxe⟩ := List.lookup_isSome_iff.mp hx
  have hmem : e.1 ∈ net.inputQubits.2.map Prod.fst := List.mem_map_of_mem he
  rw [hkeys, List.mem_reverse] at hmem
  exact Or.inl (by simpa [beq_iff_eq.mp hxe] using hmem)

theorem Layout.cons (hacyc : net.Acyclic) (hcs : net.CutsOf (.count 2) cs) {st1 : BlockMap}
    (hl : Layout net cs st1) {node n' : String} {exposed : List String}
    {products : List (List String)} {gs : List (List (Circuit.Gate Int))}
    (hnone : (st1.qubits.lookup node).isSome = false)
    (hleaves : ∀ y ∈ products.flatten, (st1.qubits.lookup y).isSome)
    (hc : cs.lookup node = some (.block n' exposed products))
    (hgs : products.mapM (productGates ((node, st1.circuit.width) :: st1.qubits)
      st1.circuit.width) = .ok gs) :
    Layout net cs ⟨st1.circuit.fresh.2.append gs.flatten, (node, st1.circuit.width) :: st1.qubits,
      st1.mapped ++ [node]⟩ := by
  have hnone' : st1.qubits.lookup node = none := by simpa using hnone
  have hin : node ∉ net.inputs := fun h => by simp [hl.inputs node h] at hnone
  have hnew : node ∉ st1.mapped := by
    intro h
    obtain ⟨i, hi, rfl⟩ := List.getElem_of_mem h
    rw [hl.qubit i hi] at hnone'
    cases hnone'
  have hprod : ∀ p ∈ products, p ≠ [] := by
    rcases hcs node _ hc with ⟨-, hsrc⟩ | ⟨g, -, hcut⟩
    · cases hsrc
    · exact products_ne_nil hacyc hcut
  obtain ⟨bs, hgates, hbs⟩ := hl.blocks
  refine ⟨fun x hx => isSome_lookup_cons _ (hl.inputs x hx), fun x hx => ?_, fun x hx => ?_,
    List.nodup_append.mpr ⟨hl.nodup, List.nodup_singleton _, ?_⟩, ?_, fun i hi => ?_,
    ⟨bs ++ [gs.flatten], ?_, ?_⟩, fun i hi => ?_⟩
  · -- keys
    by_cases hx' : x = node
    · exact Or.inr (by simp [hx'])
    · have hne : (x == node) = false := by simpa using hx'
      rw [List.lookup_cons, hne] at hx
      rcases hl.keys x hx with h | h
      · exact Or.inl h
      · exact Or.inr (List.mem_append_left _ h)
  · -- fresh
    rcases List.mem_append.mp hx with h | h
    · exact hl.fresh x h
    · rw [List.mem_singleton.mp h]
      exact hin
  · -- nodup
    intro a ha b hb hab
    rw [List.mem_singleton.mp hb] at hab
    exact hnew (hab ▸ ha)
  · -- width
    simp [hl.width]
    omega
  · -- qubit
    rw [List.length_append, List.length_singleton] at hi
    rcases Nat.lt_succ_iff_lt_or_eq.mp hi with hi | rfl
    · rw [List.getElem_append_left hi]
      exact QubitMap.lookup_cons_of_none hnone' (hl.qubit i hi) _
    · simp [hl.width]
  · -- gates
    simp [hgates]
  · -- blocks
    refine List.rel_append (hbs.imp fun n b h => h.cons hnone' _) (.cons ?_ .nil)
    exact ⟨n', exposed, products, st1.circuit.width, hc, by simp,
      productGates_flatten (forall₂_of_mapM hgs) hprod⟩
  · -- order
    intro n'' e'' ps'' hps'' l hl' hlin
    rw [List.length_append, List.length_singleton] at hi
    rcases Nat.lt_succ_iff_lt_or_eq.mp hi with hi | rfl
    · rw [List.getElem_append_left hi] at hps''
      rw [List.take_append_of_le_length (by omega)]
      exact hl.order i hi n'' e'' ps'' hps'' l hl' hlin
    · simp only [List.getElem_append_right (Nat.le_refl _), Nat.sub_self,
        List.getElem_cons_zero] at hps''
      rw [hc, Option.some.injEq, Cut.block.injEq] at hps''
      obtain ⟨-, -, rfl⟩ := hps''
      rw [List.take_left' rfl]
      exact (hl.keys l (hleaves l hl')).resolve_left hlin

theorem Layout.isSome_of_mem {st : BlockMap} (hl : Layout net cs st) {x : String}
    (hx : x ∈ st.mapped) : (st.qubits.lookup x).isSome := by
  obtain ⟨i, hi, rfl⟩ := List.getElem_of_mem hx
  simp [hl.qubit i hi]

theorem Layout.block {st : BlockMap} (hl : Layout net cs st) {x : String} (hx : x ∈ st.mapped) :
    ∃ n' exposed products, cs.lookup x = some (.block n' exposed products) := by
  obtain ⟨bs, -, hbs⟩ := hl.blocks
  obtain ⟨b, -, n', exposed, products, -, hc, -⟩ := exists_of_forall₂ hbs.flip hx
  exact ⟨n', exposed, products, hc⟩

theorem Layout.settled {st : BlockMap} (hl : Layout net cs st) : Settled net cs st := by
  refine ⟨hl.inputs, fun x hx => (hl.keys x hx).imp_right fun hxm => ?_⟩
  obtain ⟨n', exposed, products, hc⟩ := hl.block hxm
  refine ⟨n', exposed, products, hc, fun y hy => ?_⟩
  by_cases hyin : y ∈ net.inputs
  · exact hl.inputs y hyin
  · obtain ⟨i, hi, rfl⟩ := List.getElem_of_mem hxm
    exact hl.isSome_of_mem (List.mem_of_mem_take (hl.order i hi n' exposed products hc y hy hyin))

theorem visit_grows {fuel : Nat} {path : List String} {node : String} {st st' : BlockMap}
    (h : visit cs fuel path node st = .ok st') : Grows st st' :=
  (visit_keeps (fun _ => True) (fun _ _ _ _ _ _ _ _ _ _ _ => trivial) fuel path node st st'
    trivial h).2.2.1

theorem visit_mapped (hcs : net.CutsOf (.count 2) cs) :
    ∀ (fuel : Nat) (path : List String) (node : String) (st st' : BlockMap),
      (∀ x ∈ net.inputs, (st.qubits.lookup x).isSome) → visit cs fuel path node st = .ok st' →
        ∃ new, st'.mapped = st.mapped ++ new ∧
          ∀ x ∈ new, Relation.ReflTransGen net.BlockLeaf x node := by
  intro fuel
  induction fuel with
  | zero =>
    intro path node st st' _ h
    cases h
  | succ fuel ih =>
    intro path node st st' hin h
    rcases visit_ok h with ⟨-, rfl⟩ |
      ⟨n', exposed, products, st1, gs, hnone, hc, -, hfold, -, rfl⟩
    · exact ⟨[], by simp, fun x hx => absurd hx List.not_mem_nil⟩
    have hnode : node ∉ net.inputs := fun h => by simp [hin node h] at hnone
    obtain ⟨-, new1, hst1, hnew1⟩ := foldlM_keeps_mem
      (fun st2 => (∀ x ∈ net.inputs, (st2.qubits.lookup x).isSome) ∧
        ∃ new, st2.mapped = st.mapped ++ new ∧
          ∀ x ∈ new, Relation.ReflTransGen net.BlockLeaf x node)
      (Text.nameSet products.flatten) st st1 (fun l hl st2 st3 ⟨hin2, new2, hst2, hnew2⟩ hv => by
        obtain ⟨new3, hst3, hnew3⟩ := ih _ l st2 st3 hin2 hv
        have hleaf : net.BlockLeaf l node :=
          blockLeaf_of_cutsOf hcs hnode hc (Text.mem_nameSet.mp hl)
        refine ⟨fun x hx => visit_grows hv x (hin2 x hx), new2 ++ new3,
          by rw [hst3, hst2, List.append_assoc], fun x hx => ?_⟩
        rcases List.mem_append.mp hx with hx | hx
        · exact hnew2 x hx
        · exact (hnew3 x hx).tail hleaf)
      ⟨hin, [], by simp, fun x hx => absurd hx List.not_mem_nil⟩ hfold
    refine ⟨new1 ++ [node], by simp [hst1], fun x hx => ?_⟩
    rcases List.mem_append.mp hx with hx | hx
    · exact hnew1 x hx
    · rw [List.mem_singleton.mp hx]

theorem foldlM_visit_layout (hacyc : net.Acyclic) (hcs : net.CutsOf (.count 2) cs) (fuel : Nat)
    {st0 st : BlockMap} (h0 : Layout net cs st0)
    (hst : net.outputs.foldlM (fun st o => visit cs fuel [] o st) st0 = .ok st) :
    Layout net cs st ∧ ∀ o ∈ net.outputs, (st.qubits.lookup o).isSome := by
  obtain ⟨hl, hout, -⟩ := foldlM_forall (Layout net cs) (fun o st => (st.qubits.lookup o).isSome)
    (fun o st1 st2 hl1 hv => by
      obtain ⟨hl2, hsome, hgrow, -⟩ := visit_keeps (Layout net cs)
        (fun _ _ _ _ _ _ hl1 hnone hleaves hc hgs => hl1.cons hacyc hcs hnone hleaves hc hgs)
        _ [] o st1 st2 hl1 hv
      exact ⟨hl2, hsome, hgrow⟩)
    net.outputs _ st h0 hst
  exact ⟨hl, hout⟩

theorem foldlM_visit_mapped (hcs : net.CutsOf (.count 2) cs) (fuel : Nat) {st0 st : BlockMap}
    (hin : ∀ x ∈ net.inputs, (st0.qubits.lookup x).isSome) (h0 : ∀ x ∈ st0.mapped, net.Mapped x)
    (hst : net.outputs.foldlM (fun st o => visit cs fuel [] o st) st0 = .ok st) :
    ∀ x ∈ st.mapped, net.Mapped x := by
  refine (foldlM_keeps_mem
    (fun st => (∀ x ∈ net.inputs, (st.qubits.lookup x).isSome) ∧ ∀ x ∈ st.mapped, net.Mapped x)
    net.outputs _ st (fun o ho st1 st2 ⟨hin1, hm1⟩ hv => ?_) ⟨hin, h0⟩ hst).2
  obtain ⟨new, hst2, hnew⟩ := visit_mapped hcs _ [] o st1 st2 hin1 hv
  refine ⟨fun x hx => visit_grows hv x (hin1 x hx), fun x hx => ?_⟩
  rw [hst2] at hx
  rcases List.mem_append.mp hx with hx | hx
  · exact hm1 x hx
  · exact ⟨o, ho, hnew x hx⟩

theorem Layout.productGates (hcs : net.CutsOf (.count 2) cs) {st : BlockMap}
    (hl : Layout net cs st) :
    ∃ bs, st.circuit.gates = bs.flatten ∧
      List.Forall₂ (fun n b => ∃ q, st.qubits.lookup n = some q ∧
        ProductGates st.qubits q (net.productsOf n) b) st.mapped bs := by
  obtain ⟨bs, hgates, hbs⟩ := hl.blocks
  exact ⟨bs, hgates,
    hbs.imp fun _ _ ⟨_, _, _, q, hc, hq, hpg⟩ => ⟨q, hq, by rwa [productsOf_of_cutsOf hcs hc]⟩⟩

theorem Layout.productsOf_before (hcs : net.CutsOf (.count 2) cs) {st : BlockMap}
    (hl : Layout net cs st) (i : Nat) (hi : i < st.mapped.length) :
    ∀ l ∈ (net.productsOf st.mapped[i]).flatten, l ∉ net.inputs → l ∈ st.mapped.take i := by
  obtain ⟨n', exposed, products, hc⟩ := hl.block (List.getElem_mem hi)
  rw [productsOf_of_cutsOf hcs hc]
  exact hl.order i hi n' exposed products hc

theorem length_flatten_of_productGates {qubits : QubitMap} :
    ∀ {ns : List String} {bs : List (List (Circuit.Gate Int))},
      List.Forall₂ (fun n b => ∃ q, qubits.lookup n = some q ∧
        ProductGates qubits q (net.productsOf n) b) ns bs →
      bs.flatten.length = (ns.map fun n => (net.productsOf n).length).sum := by
  intro ns bs h
  induction h with
  | nil => rfl
  | cons hb _ ih =>
    obtain ⟨q, -, hpg⟩ := hb
    rw [List.flatten_cons, List.length_append, ih, List.map_cons, List.sum_cons,
      List.Forall₂.length_eq hpg]

end BlockMap

namespace Network

open BlockMap

/-- Block synthesis of an acyclic network read from a netlist, when it
succeeds, maps each name other than a primary input that the outputs reach
through block leaves, and nothing else, each once. The `i`-th mapped name is
on the qubit after the inputs and the `i` names before it. The gates are one
block per mapped name, in order, each with one X gate per product of the
name, on its qubit. Every leaf of a mapped name that is no primary input is
mapped before it. -/
theorem compileBlocks_layout {text : String} {net : Network} (hread : ofVerilog text = .ok net)
    (hacyc : net.Acyclic) {st : BlockMap} (hst : net.compileBlocks = .ok st) :
    st.mapped.Nodup ∧ (∀ x, x ∈ st.mapped ↔ net.Mapped x ∧ x ∉ net.inputs) ∧
      st.circuit.width = net.inputs.length + st.mapped.length ∧
      (∀ i (hi : i < st.mapped.length),
        st.qubits.lookup st.mapped[i] = some ((net.inputs.length + i : Nat) : Int)) ∧
      (∃ bs, st.circuit.gates = bs.flatten ∧ List.Forall₂ (fun n b => ∃ q,
        st.qubits.lookup n = some q ∧ ProductGates st.qubits q (net.productsOf n) b) st.mapped bs) ∧
      (∀ i (hi : i < st.mapped.length), ∀ l ∈ (net.productsOf st.mapped[i]).flatten,
        l ∉ net.inputs → l ∈ st.mapped.take i) ∧
      st.circuit.gates.length = (st.mapped.map fun n => (net.productsOf n).length).sum := by
  have hkeys := keys_nodup_of_ofVerilog hread
  unfold compileBlocks at hst
  obtain ⟨cs, hcuts, hst⟩ := bind_eq_ok hst
  have hcs := cutsOf_cuts hkeys hcuts
  have h0 := layout_inputQubits net cs
  rcases hq : net.inputQubits with ⟨c0, m0⟩
  rw [hq] at h0
  simp only [hq] at hst
  obtain ⟨hl, hout⟩ := foldlM_visit_layout hacyc hcs _ h0 hst
  have hreach := foldlM_visit_mapped hcs _ h0.inputs (fun x hx => absurd hx List.not_mem_nil) hst
  obtain ⟨bs, hgates, hbs⟩ := hl.productGates hcs
  refine ⟨hl.nodup,
    fun x => ⟨fun hx => ⟨hreach x hx, hl.fresh x hx⟩, fun ⟨⟨o, ho, hxo⟩, hxin⟩ => ?_⟩, hl.width, hl.qubit, ⟨bs, hgates, hbs⟩, hl.productsOf_before hcs,
    by rw [hgates, length_flatten_of_productGates hbs]⟩
  exact (hl.keys x (hl.settled.reach hkeys hcuts hxo (hout o ho))).resolve_left hxin

theorem compileBlocks_layout_and_xor :
    ∃ (net : Network) (st : BlockMap),
      ofVerilog "module top(a, b, c, y);\ninput a, b, c;\noutput y;\nwire t;\nassign t = a & b;\nassign y = t ^ c;\nendmodule\n" = .ok net ∧
      net.Acyclic ∧ net.compileBlocks = .ok st ∧ st.mapped = ["y"] ∧
      st.circuit.width = net.inputs.length + st.mapped.length ∧
      st.circuit.gates.length = (st.mapped.map fun n => (net.productsOf n).length).sum := by
  obtain ⟨-, -, hwidth, -, -, -, hcount⟩ :=
    compileBlocks_layout ofVerilog_andXorNet andXorNet_acyclic compileBlocks_andXorNet
  exact ⟨andXorNet, _, ofVerilog_andXorNet, andXorNet_acyclic, compileBlocks_andXorNet, rfl, hwidth,
    hcount⟩

/-- A gate may drive a name that is also a primary input. Block synthesis
never looks past a primary input, so the names below such a gate are not
mapped. Here `t` is no primary input, and the output `y` reaches it through
the block leaf `a`, yet `t` gets no qubit and no gates. -/
theorem compileBlocks_skips_driven_input :
    ∃ (net : Network) (st : BlockMap),
      ofVerilog "module top(a, b, y);\ninput a, b;\noutput y;\nwire t;\nassign t = b;\nassign a = t;\nassign y = a ^ b;\nendmodule\n" = .ok net ∧
      net.Closed ∧ net.Acyclic ∧ net.compileBlocks = .ok st ∧
      "a" ∈ (net.productsOf "y").flatten ∧ "t" ∈ (net.productsOf "a").flatten ∧
      "t" ∉ net.inputs ∧ st.mapped = ["y"] ∧ st.circuit.width = 3 ∧ st.circuit.gates.length = 2 := by
  let gt : Gate := .buffer "b"
  let ga : Gate := .buffer "t"
  let gy : Gate := .binary .xor "a" "b" false false false
  let net : Network :=
    { inputs := ["a", "b"], outputs := ["y"], gates := [("t", gt), ("a", ga), ("y", gy)] }
  have hread : ofVerilog "module top(a, b, y);\ninput a, b;\noutput y;\nwire t;\nassign t = b;\nassign a = t;\nassign y = a ^ b;\nendmodule\n" = .ok net :=
    ofVerilog_eq_ok_of_parts (by decide +kernel)
  have hclosed : net.Closed := net.closed_of_isSome (by decide) (by decide)
  have hacyc : net.Acyclic := net.acyclic_of_ranked
    (fun x => if x = "y" then 3 else if x = "a" then 2 else if x = "t" then 1 else 0) (by decide)
  have hst : net.compileBlocks = .ok ⟨⟨3, [.cx 0 2, .cx 1 2]⟩,
      [("y", 2), ("b", 1), ("a", 0)], ["y"]⟩ :=
    compileBlocks_eq_ok_of_parts (by decide +kernel)
  exact ⟨net, _, hread, hclosed, hacyc, hst, by decide +kernel, by decide +kernel, by decide,
    rfl, rfl, rfl⟩

end Network

end XagSynth
