import Mathlib.Algebra.Group.Action.Defs
import Mathlib.Algebra.Order.BigOperators.Group.List
import XagSynth.Proofs.Cut.Rounds

/-!
# The block table of a closed network

When every name a gate reads is known, enumeration succeeds (`cuts_ok`) and
gives a view for every known name (`lookup_cuts`), with products of at most
`max 1 (2 * (m - 1))` distinct names under the bound `m`. On an acyclic network
read from a netlist every block whose XOR gates form a tree denotes its gate
(`cuts_block_value`), and `cuts_repeated_xor_input` shows the tree is needed.
-/

namespace XagSynth

theorem mapM_ok {α β ε : Type} {f : α → Except ε β} :
    ∀ {l : List α}, (∀ a ∈ l, ∃ b, f a = .ok b) → ∃ r, l.mapM f = .ok r
  | [], _ => ⟨[], rfl⟩
  | a :: l, h => by
    obtain ⟨b, hb⟩ := h a List.mem_cons_self
    obtain ⟨r, hr⟩ := mapM_ok fun x hx => h x (List.mem_cons_of_mem a hx)
    refine ⟨b :: r, ?_⟩
    rw [List.mapM_cons, hb, hr]
    rfl

theorem filterAuxM_ok {α ε : Type} {p : α → Except ε Bool} :
    ∀ {l : List α} (acc : List α), (∀ a ∈ l, ∃ b, p a = .ok b) →
      ∃ r, List.filterAuxM p l acc = .ok r
  | [], acc, _ => ⟨acc, rfl⟩
  | a :: l, acc, h => by
    obtain ⟨b, hb⟩ := h a List.mem_cons_self
    obtain ⟨r, hr⟩ := filterAuxM_ok (cond b (a :: acc) acc)
      fun x hx => h x (List.mem_cons_of_mem a hx)
    refine ⟨r, ?_⟩
    simp only [List.filterAuxM, hb, bind, Except.bind]
    exact hr

theorem filterM_ok {α ε : Type} {p : α → Except ε Bool} {l : List α}
    (h : ∀ a ∈ l, ∃ b, p a = .ok b) : ∃ r, l.filterM p = .ok r := by
  obtain ⟨r, hr⟩ := filterAuxM_ok [] h
  refine ⟨r.reverse, ?_⟩
  simp only [List.filterM, hr, bind, Except.bind]
  rfl

theorem foldlM_ok {α β ε : Type} {f : β → α → Except ε β} :
    ∀ {l : List α}, (∀ a ∈ l, ∀ b, ∃ b', f b a = .ok b') → ∀ b, ∃ r, l.foldlM f b = .ok r
  | [], _, b => ⟨b, rfl⟩
  | a :: l, h, b => by
    obtain ⟨b1, hb1⟩ := h a List.mem_cons_self b
    obtain ⟨r, hr⟩ := foldlM_ok (fun x hx => h x (List.mem_cons_of_mem a hx)) b1
    refine ⟨r, ?_⟩
    rw [List.foldlM_cons, hb1]
    exact hr

theorem foldlM_forall {α β ε : Type} (I : β → Prop) (Q : α → β → Prop)
    {f : β → α → Except ε β}
    (hstep : ∀ a b b', I b → f b a = .ok b' → I b' ∧ Q a b' ∧ ∀ a', Q a' b → Q a' b') :
    ∀ (l : List α) (b r : β), I b → l.foldlM f b = .ok r →
      I r ∧ (∀ a ∈ l, Q a r) ∧ ∀ a', Q a' b → Q a' r := by
  intro l
  induction l with
  | nil =>
    intro b r hb h
    simp only [List.foldlM_nil, pure, Except.pure, Except.ok.injEq] at h
    subst h
    exact ⟨hb, fun a ha => absurd ha List.not_mem_nil, fun _ h => h⟩
  | cons a l ih =>
    intro b r hb h
    rw [List.foldlM_cons] at h
    obtain ⟨b1, h1, h⟩ := bind_eq_ok h
    obtain ⟨hI1, hQ1, hmono1⟩ := hstep a b b1 hb h1
    obtain ⟨hIr, hQr, hmono⟩ := ih b1 r hI1 h
    refine ⟨hIr, fun a' ha' => ?_, fun a' h' => hmono a' (hmono1 a' h')⟩
    rcases List.mem_cons.mp ha' with rfl | ha'
    · exact hmono a' hQ1
    · exact hQr a' ha'

theorem Table.mem_keys_put {ν : Type} {t : List (String × ν)} {k k' : String} {v : ν} :
    k' ∈ (Table.put t k v).map Prod.fst ↔ k' = k ∨ k' ∈ t.map Prod.fst := by
  by_cases hk : t.any (fun e => e.1 == k) = true
  · rw [Table.keys_put_of_mem t k v hk]
    obtain ⟨e, he, hek⟩ := List.any_eq_true.mp hk
    have hmem : k ∈ t.map Prod.fst := List.mem_map.mpr ⟨e, he, by simpa using hek⟩
    constructor
    · exact Or.inr
    · rintro (rfl | h)
      · exact hmem
      · exact h
  · simp only [Table.put, hk, Bool.false_eq_true, if_false, List.map_append, List.map_cons,
      List.map_nil, List.mem_append, List.mem_singleton]
    exact Or.comm

theorem isSome_lookup_of_mem_keys {ν : Type} {t : List (String × ν)} {x : String}
    (h : x ∈ t.map Prod.fst) : (t.lookup x).isSome := by
  obtain ⟨e, he, hex⟩ := List.mem_map.mp h
  exact List.lookup_isSome_iff.mpr ⟨e, he, by simp [hex]⟩

theorem mem_keys_of_lookup {ν : Type} {t : List (String × ν)} {x : String} {v : ν}
    (h : t.lookup x = some v) : x ∈ t.map Prod.fst := by
  obtain ⟨l₁, l₂, rfl, -⟩ := List.lookup_eq_some_iff.mp h
  simp

namespace Network

/-- Every name a gate reads is known: the half of `Closed` about gates. -/
def GatesClosed (net : Network) : Prop := ∀ e ∈ net.gates, ∀ a ∈ e.2.inputs, net.Known a

variable {net : Network}

theorem known_of_reads (hclosed : net.GatesClosed) {a b : String} (h : net.Reads a b) :
    net.Known a := by
  obtain ⟨g, hg, ha⟩ := h
  exact hclosed (b, g) (gate?_mem hg) a ha

theorem readers_ne_nil {x z : String} (h : net.Reads x z) : net.readers x ≠ [] := by
  obtain ⟨g, hg, hx⟩ := h
  exact List.ne_nil_of_mem (mem_readers.mpr ⟨g, gate?_mem hg, hx⟩)

theorem expandable_ok (hclosed : net.GatesClosed) {x z : String} (h : net.Reads x z) :
    ∃ v, net.expandable x = .ok v := by
  unfold expandable
  split_ifs with hin
  · exact ⟨false, rfl⟩
  · have hx : net.Known x := known_of_reads hclosed h
    obtain ⟨g, hg⟩ := hx.resolve_left (by simpa [isInput] using hin)
    simp only [hg]
    split_ifs
    · rw [fanoutCount_eq]
      split
      · exact absurd ‹_› (readers_ne_nil h)
      · exact ⟨_, rfl⟩
    · exact ⟨false, rfl⟩

theorem grow_ok (hclosed : net.GatesClosed) (n : Int) : ∀ (fuel : Nat) {p : List String},
    (∀ x ∈ p, ∃ z, net.Reads x z) → ∃ r, net.grow (.count n) fuel p = .ok r := by
  intro fuel
  induction fuel with
  | zero => exact fun {p} _ => ⟨p, rfl⟩
  | succ fuel ih =>
    intro p hp
    obtain ⟨e, he⟩ := filterM_ok fun x hx => by
      obtain ⟨z, hz⟩ := hp x hx
      exact expandable_ok hclosed hz
    have hp' : ∀ y ∈ net.expand p e, ∃ z, net.Reads y z := by
      intro y hy
      rcases (mem_expand hy).2 with hy | ⟨x, -, hyx⟩
      · exact hp y hy
      · exact ⟨x, hyx⟩
    obtain ⟨r, hr⟩ := ih hp'
    simp only [grow, Bound.admits, he, bind, Except.bind, pure, Except.pure]
    split_ifs
    · exact ⟨_, rfl⟩
    · exact ⟨r, hr⟩
    · exact ⟨_, rfl⟩
    · exact ⟨_, rfl⟩

theorem cutOf_ok (hclosed : net.GatesClosed) (n : Int) {x : String} {g : Gate}
    (hg : net.gate? x = some g) : ∃ c, net.cutOf (.count n) x g = .ok c := by
  unfold cutOf
  split_ifs with hand
  · exact ⟨_, rfl⟩
  · have hleaves : ∀ l ∈ (net.absorb (net.gates.length + 2) (Text.nameSet g.inputs) [x]).1,
        Relation.TransGen net.Reads l x :=
      absorb_reads _ fun l hl => .single ⟨g, hg, Text.mem_nameSet.mp hl⟩
    rcases hr : net.absorb (net.gates.length + 2) (Text.nameSet g.inputs) [x] with
      ⟨leaves, exposed⟩
    rw [hr] at hleaves
    have hgrow : ∀ l ∈ leaves, ∃ p, net.grow (.count n) (net.gates.length + 2) [l] = .ok p := by
      intro l hl
      obtain ⟨z, hz, -⟩ := Relation.TransGen.head'_iff.mp (hleaves l hl)
      have hread : ∀ y ∈ [l], ∃ z, net.Reads y z := by
        intro y hy
        rw [List.mem_singleton] at hy
        exact ⟨z, hy ▸ hz⟩
      exact grow_ok hclosed n _ hread
    obtain ⟨ps, hps⟩ := mapM_ok hgrow
    refine ⟨.block x exposed ps, ?_⟩
    simp only [hr, hps, bind, Except.bind, pure, Except.pure]

theorem cuts_ok_of_gatesClosed (hkeys : net.KeysNodup) (hclosed : net.GatesClosed) (n : Int) :
    ∃ cs, net.cuts (.count n) = .ok cs := by
  unfold cuts
  refine foldlM_ok (fun e he t => ?_) _
  obtain ⟨c, hc⟩ := cutOf_ok hclosed n (gate?_of_mem hkeys he)
  refine ⟨Table.put t e.1 c, ?_⟩
  simp only [hc, bind, Except.bind, pure, Except.pure]

theorem cuts_ok (hkeys : net.KeysNodup) (hclosed : net.Closed) (n : Int) :
    ∃ cs, net.cuts (.count n) = .ok cs :=
  cuts_ok_of_gatesClosed hkeys hclosed.1 n

theorem mem_keys_cuts {b : Bound} {cs : List (String × Cut)} (h : net.cuts b = .ok cs)
    {x : String} (hx : net.Known x) : x ∈ cs.map Prod.fst := by
  have hsources : ∀ (l : List String) (t : List (String × Cut)),
      (∀ y ∈ l, y ∈ (l.foldl (fun t p => Table.put t p (.source p)) t).map Prod.fst) ∧
        ∀ y ∈ t.map Prod.fst, y ∈ (l.foldl (fun t p => Table.put t p (.source p)) t).map Prod.fst := by
    intro l
    induction l with
    | nil => exact fun t => ⟨fun y hy => absurd hy List.not_mem_nil, fun y hy => hy⟩
    | cons p l ih =>
      intro t
      obtain ⟨hl, ht⟩ := ih (Table.put t p (.source p))
      refine ⟨fun y hy => ?_, fun y hy => ht y (Table.mem_keys_put.mpr (Or.inr hy))⟩
      rcases List.mem_cons.mp hy with rfl | hy
      · exact ht y (Table.mem_keys_put.mpr (Or.inl rfl))
      · exact hl y hy
  unfold cuts at h
  obtain ⟨hin, hgates, -⟩ := foldlM_forall
    (fun t => ∀ y ∈ net.inputs, y ∈ t.map Prod.fst) (fun e t => e.1 ∈ t.map Prod.fst)
    (fun e t t' ht hstep => by
      obtain ⟨c, -, hstep⟩ := bind_eq_ok hstep
      simp only [pure, Except.pure, Except.ok.injEq] at hstep
      subst hstep
      exact ⟨fun y hy => Table.mem_keys_put.mpr (Or.inr (ht y hy)),
        Table.mem_keys_put.mpr (Or.inl rfl), fun e' he' => Table.mem_keys_put.mpr (Or.inr he')⟩)
    net.gates _ cs (hsources net.inputs []).1 h
  rcases hx with hx | ⟨g, hg⟩
  · exact hin x hx
  · exact hgates (x, g) (gate?_mem hg)

theorem lookup_cuts (hkeys : net.KeysNodup) {b : Bound} {cs : List (String × Cut)}
    (h : net.cuts b = .ok cs) {x : String} (hx : net.Known x) :
    ∃ c, cs.lookup x = some c ∧
      ((x ∈ net.inputs ∧ c = .source x) ∨ ∃ g, net.gate? x = some g ∧ net.cutOf b x g = .ok c) := by
  obtain ⟨c, hc⟩ := Option.isSome_iff_exists.mp (isSome_lookup_of_mem_keys (mem_keys_cuts h hx))
  exact ⟨c, hc, cutsOf_cuts hkeys h x c hc⟩

theorem length_inputsOf_le (net : Network) (x : String) : (net.inputsOf x).length ≤ 2 := by
  unfold inputsOf
  split
  · rename_i g _
    cases g <;> simp
  · simp

theorem length_expand_le_two_mul {p e : List String} (hp : Text.Increasing p)
    (he : ∀ x ∈ e, x ∈ p) : (net.expand p e).length ≤ 2 * p.length := by
  let piece : String → List String := fun x => if x ∈ e then net.inputsOf x else [x]
  have hnd : (net.expand p e).Nodup :=
    (Text.increasing_nameDiff e (Text.increasing_nameUnion _ hp)).nodup
  have hsub : net.expand p e ⊆ p.flatMap piece := by
    intro y hy
    obtain ⟨hye, hy | ⟨x, hx, hyx⟩⟩ := mem_expand hy
    · exact List.mem_flatMap.mpr ⟨y, hy, by simp [piece, hye]⟩
    · obtain ⟨g, hg, hyg⟩ := hyx
      exact List.mem_flatMap.mpr ⟨x, he x hx, by simpa [piece, hx, inputsOf, hg] using hyg⟩
  have hpiece : ∀ x ∈ p, (piece x).length ≤ 2 := by
    intro x _
    by_cases hx : x ∈ e
    · simpa [piece, hx] using length_inputsOf_le net x
    · simp [piece, hx]
  calc (net.expand p e).length ≤ (p.flatMap piece).length := hnd.length_le_of_subset hsub
    _ = (p.map fun x => (piece x).length).sum := List.length_flatMap
    _ ≤ (p.map fun x => (piece x).length).length • 2 := List.sum_le_card_nsmul _ _ fun k hk => by
        obtain ⟨x, hx, rfl⟩ := List.mem_map.mp hk
        exact hpiece x hx
    _ = 2 * p.length := by rw [List.length_map, smul_eq_mul, Nat.mul_comm]

theorem grow_length_le (m : Int) : ∀ (fuel : Nat) {p r : List String}, Text.Increasing p →
    (p.length : Int) ≤ max 1 (2 * (m - 1)) → net.grow (.count m) fuel p = .ok r →
      (r.length : Int) ≤ max 1 (2 * (m - 1)) := by
  intro fuel
  induction fuel with
  | zero =>
    intro p r _ hp h
    cases h
    exact hp
  | succ fuel ih =>
    intro p r hinc hp h
    rw [grow_succ] at h
    obtain ⟨⟨e, o⟩, hround, h⟩ := bind_eq_ok h
    rcases growRound_ok hround with ⟨-, rfl⟩ | ⟨hsmall, hfilter, -, hnext⟩
    · cases h
      exact hp
    have hlt : (p.length : Int) < m := by simpa [Bound.admits] using hsmall
    have hexp : ((net.expand p e).length : Int) ≤ max 1 (2 * (m - 1)) := by
      have hle : (net.expand p e).length ≤ 2 * p.length :=
        length_expand_le_two_mul hinc fun x hx => (mem_of_filterM hfilter x hx).1
      omega
    rcases hnext with rfl | ⟨-, rfl⟩
    · cases h
      exact hexp
    · exact ih (Text.increasing_nameDiff e (Text.increasing_nameUnion _ hinc)) hexp h

theorem grow_of_cutOf {b : Bound} {n n' : String} {g : Gate} {exposed : List String}
    {products : List (List String)} (h : net.cutOf b n g = .ok (.block n' exposed products)) :
    ∀ p ∈ products, ∃ l, net.grow b (net.gates.length + 2) [l] = .ok p := by
  unfold cutOf at h
  split_ifs at h
  · cases h
  rcases hr : net.absorb (net.gates.length + 2) (Text.nameSet g.inputs) [n] with ⟨leaves, exposed'⟩
  simp only [hr] at h
  obtain ⟨ps, hmap, h⟩ := bind_eq_ok h
  simp only [pure, Except.pure, Except.ok.injEq, Cut.block.injEq] at h
  obtain ⟨-, -, rfl⟩ := h
  intro p hp
  obtain ⟨l, -, hlp⟩ := exists_of_forall₂ (forall₂_of_mapM hmap) hp
  exact ⟨l, hlp⟩

theorem length_le_of_cutOf {m : Int} {n n' : String} {g : Gate} {exposed : List String}
    {products : List (List String)} (h : net.cutOf (.count m) n g = .ok (.block n' exposed products)) :
    ∀ p ∈ products, (p.length : Int) ≤ max 1 (2 * (m - 1)) := by
  intro p hp
  obtain ⟨l, hlp⟩ := grow_of_cutOf h p hp
  exact grow_length_le m _ (List.pairwise_singleton _ l) (by simp) hlp

theorem length_le_two_of_cutOf {n : String} {g : Gate} {exposed : List String}
    {products : List (List String)} (h : net.cutOf (.count 2) n g = .ok (.block n exposed products)) :
    ∀ p ∈ products, p.length ≤ 2 := by
  intro p hp
  have hle := length_le_of_cutOf h p hp
  omega

theorem grow_increasing {b : Bound} : ∀ (fuel : Nat) {p r : List String}, Text.Increasing p →
    net.grow b fuel p = .ok r → Text.Increasing r := by
  intro fuel
  induction fuel with
  | zero =>
    intro p r hp h
    cases h
    exact hp
  | succ fuel ih =>
    intro p r hp h
    have hexp : ∀ e, Text.Increasing (net.expand p e) :=
      fun e => Text.increasing_nameDiff e (Text.increasing_nameUnion _ hp)
    rcases grow_succ_ok h with rfl | ⟨e, -, -, ⟨-, h⟩ | rfl⟩
    · exact hp
    · exact ih (hexp e) h
    · exact hexp e

theorem nodup_of_cutOf {b : Bound} {n n' : String} {g : Gate} {exposed : List String}
    {products : List (List String)} (h : net.cutOf b n g = .ok (.block n' exposed products)) :
    ∀ p ∈ products, p.Nodup := by
  intro p hp
  obtain ⟨l, hlp⟩ := grow_of_cutOf h p hp
  exact (grow_increasing _ (List.pairwise_singleton _ l) hlp).nodup

/-- On an acyclic network read from a netlist, in which every name read is
known, no gate is named like a primary input, AND gates negate nothing and XOR
gates negate both inputs or neither, block enumeration succeeds for every
bound. The block of an XOR or buffer gate below which the XOR gates form a
tree lists products whose ANDs XOR to the value of the gate. -/
theorem cuts_block_value {text : String} (hread : ofVerilog text = .ok net)
    (hclosed : net.Closed) (hacyc : net.Acyclic) (hpi : net.InputsUndriven)
    (hneutral : ∀ e ∈ net.gates, e.2.Neutral) (m : Int) :
    ∃ cs, net.cuts (.count m) = .ok cs ∧
      ∀ n g, net.gate? n = some g → g.isAnd = false → (g.inputs.flatMap net.cone).Nodup →
        ∃ exposed products, cs.lookup n = some (.block n exposed products) ∧
          ∀ s, xorAll (products.map fun p => p.all (net.value s)) = net.value s n := by
  have hkeys := keys_nodup_of_ofVerilog hread
  have hgates : ∀ e ∈ net.gates, e.2.Neutral ∧ e.2.Parsed :=
    fun e he => ⟨hneutral e he, parsed_of_ofVerilog hread e he⟩
  obtain ⟨cs, hcs⟩ := cuts_ok hkeys hclosed m
  refine ⟨cs, hcs, fun n g hg hand htree => ?_⟩
  obtain ⟨c, hc, hview⟩ := lookup_cuts hkeys hcs (Or.inr ⟨g, hg⟩)
  rcases hview with ⟨hin, -⟩ | ⟨g', hg', hcut⟩
  · rw [hpi n hin] at hg
    cases hg
  · rw [hg, Option.some.injEq] at hg'
    subst hg'
    obtain ⟨exposed, products, rfl, hxor, -⟩ :=
      cutOf_block_of_tree hacyc hgates _ hg hand htree hcut
    exact ⟨exposed, products, hc, hxor⟩

/-- The network of `t = a & b` and `y = t ^ c`: an AND gate read once, by an
XOR gate. -/
def andXorNet : Network :=
  { inputs := ["a", "b", "c"], outputs := ["y"],
    gates := [("t", .binary .and "a" "b" false false false), ("y", .binary .xor "t" "c" false false false)] }

theorem ofVerilog_andXorNet :
    ofVerilog "module top(a, b, c, y);\ninput a, b, c;\noutput y;\nwire t;\nassign t = a & b;\nassign y = t ^ c;\nendmodule\n" =
      .ok andXorNet :=
  ofVerilog_eq_ok_of_parts (by decide +kernel)

theorem andXorNet_closed : andXorNet.Closed := andXorNet.closed_of_isSome (by decide) (by decide)

theorem andXorNet_acyclic : andXorNet.Acyclic :=
  andXorNet.acyclic_of_ranked (fun x => if x = "y" then 2 else if x = "t" then 1 else 0) (by decide)

theorem andXorNet_inputsUndriven : andXorNet.InputsUndriven := by
  unfold InputsUndriven
  decide

theorem andXorNet_neutral : ∀ e ∈ andXorNet.gates, e.2.Neutral := by
  simp [andXorNet, Gate.Neutral]

theorem cuts_block_value_and_xor :
    ∃ (net : Network) (cs : List (String × Cut)),
      ofVerilog "module top(a, b, c, y);\ninput a, b, c;\noutput y;\nwire t;\nassign t = a & b;\nassign y = t ^ c;\nendmodule\n" = .ok net ∧
      net.cuts (.count 2) = .ok cs ∧
      ∃ exposed products, cs.lookup "y" = some (.block "y" exposed products) ∧
        ∀ s, xorAll (products.map fun p => p.all (net.value s)) = net.value s "y" := by
  obtain ⟨cs, hcs, hblock⟩ := cuts_block_value ofVerilog_andXorNet andXorNet_closed andXorNet_acyclic
    andXorNet_inputsUndriven andXorNet_neutral 2
  obtain ⟨exposed, products, hc, hxor⟩ := hblock "y" _ rfl rfl (by decide)
  exact ⟨andXorNet, cs, ofVerilog_andXorNet, hcs, exposed, products, hc, hxor⟩

/-- A name that an XOR gate reads twice is one leaf of its block: for
`y = a ^ a` the block of `y` has the one product `a`, which is set whenever `a`
is, while `y` is never set. -/
theorem cuts_repeated_xor_input :
    ∃ (net : Network) (cs : List (String × Cut)),
      ofVerilog "module top(a, y);\ninput a;\noutput y;\nassign y = a ^ a;\nendmodule\n" = .ok net ∧
      net.Closed ∧ net.Acyclic ∧ net.InputsUndriven ∧ (∀ e ∈ net.gates, e.2.Neutral) ∧
      net.cuts (.count 2) = .ok cs ∧ cs.lookup "y" = some (.block "y" ["y"] [["a"]]) ∧
      ¬ ∀ s, xorAll ([["a"]].map fun p => p.all (net.value s)) = net.value s "y" := by
  let gy : Gate := .binary .xor "a" "a" false false false
  let net : Network := { inputs := ["a"], outputs := ["y"], gates := [("y", gy)] }
  have hread : ofVerilog "module top(a, y);\ninput a;\noutput y;\nassign y = a ^ a;\nendmodule\n" = .ok net :=
    ofVerilog_eq_ok_of_parts (by decide +kernel)
  have hpi : net.InputsUndriven := by
    unfold InputsUndriven
    decide
  have hclosed : net.Closed := net.closed_of_isSome (by decide) (by decide)
  have hacyc : net.Acyclic := net.acyclic_of_ranked (fun x => if x = "y" then 1 else 0) (by decide)
  have hcs : net.cuts (.count 2) = .ok [("a", .source "a"), ("y", .block "y" ["y"] [["a"]])] := rfl
  refine ⟨net, _, hread, hclosed, hacyc, hpi, by simp [net, gy, Gate.Neutral], hcs, rfl, fun h => ?_⟩
  have hy := h fun _ => true
  rw [value_of_gate hacyc _ (show net.gate? "y" = some gy from rfl)] at hy
  simp only [gy, Gate.eval, BinOp.eval, List.map_cons, List.map_nil, List.all_cons, List.all_nil,
    Bool.and_true, xorAll_cons, xorAll_nil, Bool.xor_false, Bool.xor_self] at hy
  rw [value_of_input hpi _ (show "a" ∈ net.inputs from List.mem_singleton_self _)] at hy
  cases hy

end Network

end XagSynth
