import XagSynth.Proofs.Cut.Table

/-!
# Both loops of block enumeration end

On every network the netlist reader gives, cycles included, absorption and
growth each end within the fuel of block enumeration, growth expands each AND
gate at most once, and enumeration under a count bound succeeds when every name
read is known (`cuts_loops_end`). Absorption is measured by `absorbLeft` and
growth by `growLeft`, with the invariant `Growing`.
-/

namespace XagSynth

theorem countP_lt_countP_of_imp {α : Type} {l : List α} {p q : α → Bool}
    (hpq : ∀ x ∈ l, p x → q x) {x : α} (hx : x ∈ l) (hq : q x) (hp : p x = false) :
    l.countP p < l.countP q := by
  have hfilter : l.countP p = (l.filter q).countP p := by
    rw [List.countP_filter]
    refine List.countP_congr fun y hy => ?_
    simp only [Bool.and_eq_true]
    exact ⟨fun h => ⟨h, hpq y hy h⟩, And.left⟩
  calc l.countP p = ((l.filter q).filter p).length := by
        rw [hfilter, List.countP_eq_length_filter]
    _ < (l.filter q).length :=
        List.length_filter_lt_length_iff_exists.mpr ⟨x, List.mem_filter.mpr ⟨hx, hq⟩, by simp [hp]⟩
    _ = l.countP q := List.countP_eq_length_filter.symm

namespace Network

theorem Gate.isAnd_eq_false_of_isXor {g : Gate} (h : g.isXor = true) : g.isAnd = false := by
  cases g with
  | binary op a b na nb no => cases op <;> simp_all [Gate.isXor, Gate.isAnd]
  | buffer a => simp [Gate.isXor] at h

variable {net : Network}

section Absorption

def absorbLeft (net : Network) (s : List String × List String) : Nat :=
  (net.gates.map Prod.fst).countP (fun x => net.isXorGate x && !s.2.contains x) +
    if s.1.any s.2.contains then 1 else 0

theorem absorbRound_next {s s' : List String × List String} {xs : List String}
    (h : net.absorbRound s = .ok (xs, .inr s')) :
    xs = s.1.filter net.isXorGate ∧ xs ≠ [] ∧
      s' = (Text.nameDiff (Text.nameUnion s.1 (xs.flatMap net.inputsOf)) (Text.nameUnion s.2 xs),
        Text.nameUnion s.2 xs) := by
  simp only [absorbRound] at h
  split at h
  · simp at h
  · rename_i hne
    simp only [Except.ok.injEq, Prod.mk.injEq, Sum.inr.injEq] at h
    obtain ⟨rfl, rfl⟩ := h
    exact ⟨rfl, by simpa using hne, rfl⟩

theorem absorbLeft_lt {s s' : List String × List String} {xs : List String}
    (h : net.absorbRound s = .ok (xs, .inr s')) : net.absorbLeft s' < net.absorbLeft s := by
  obtain ⟨hxs, hne, rfl⟩ := absorbRound_next h
  have hclear : (Text.nameDiff (Text.nameUnion s.1 (xs.flatMap net.inputsOf))
      (Text.nameUnion s.2 xs)).any (Text.nameUnion s.2 xs).contains = false := by
    rw [List.any_eq_false]
    intro x hx
    simpa using (Text.mem_nameDiff.mp hx).2
  have hmono : ∀ x ∈ net.gates.map Prod.fst,
      (net.isXorGate x && !(Text.nameUnion s.2 xs).contains x) = true →
        (net.isXorGate x && !s.2.contains x) = true := by
    intro x _ hx
    simp only [Bool.and_eq_true, Bool.not_eq_eq_eq_not, Bool.not_true, List.contains_eq_mem,
      decide_eq_false_iff_not, Text.mem_nameUnion, not_or] at hx ⊢
    exact ⟨hx.1, hx.2.1⟩
  unfold absorbLeft
  rw [hclear]
  cases hany : s.1.any s.2.contains with
  | true =>
    have := List.countP_mono_left hmono
    simp only [if_true, if_false, Bool.false_eq_true]
    omega
  | false =>
    obtain ⟨x, hx⟩ := List.exists_mem_of_ne_nil xs hne
    obtain ⟨hx1, hxor⟩ := List.mem_filter.mp (hxs ▸ hx)
    have hx2 : x ∉ s.2 := by simpa using List.any_eq_false.mp hany x hx1
    obtain ⟨g, hg, -⟩ := isXorGate_spec hxor
    have hlt := countP_lt_countP_of_imp hmono (mem_keys_of_gate? hg) (by simp [hxor, hx2])
      (by simp [hx, Text.mem_nameUnion])
    simpa using hlt

theorem absorbLeft_le (net : Network) (s : List String × List String) :
    net.absorbLeft s ≤ net.gates.length + 1 := by
  have h : (net.gates.map Prod.fst).countP (fun x => net.isXorGate x && !s.2.contains x) ≤
      (net.gates.map Prod.fst).length := List.countP_le_length
  rw [List.length_map] at h
  unfold absorbLeft
  split <;> omega

theorem absorb_rounds (net : Network) (s : List String × List String) :
    ∃ k log, k ≤ net.absorbLeft s + 1 ∧
      ∀ fuel, k ≤ fuel → Rounds net.absorbRound k s log (.ok (net.absorb fuel s.1 s.2)) := by
  obtain ⟨k, log, r, hk, hrun, -⟩ := Rounds.exists_of_measure (fun _ _ => True)
    (fun _ s => net.absorbLeft s) (fun _ => True) (fun _ _ _ _ _ h => ⟨trivial, absorbLeft_lt h⟩)
    (fun _ _ _ _ _ _ => trivial) (fun _ _ _ _ _ => trivial) [] s trivial
  refine ⟨k, log, hk, fun fuel hfuel => ?_⟩
  have hr := hrun.fuel_eq (fun fuel s => .ok (net.absorb fuel s.1 s.2)) (absorb_succ net) fuel hfuel
  rw [← hr] at hrun
  exact hrun

/-- A name read by a gate that is no AND gate, as the leaves of a block are. -/
def ReadOutsideAnd (net : Network) (l : String) : Prop :=
  ∃ z g, net.gate? z = some g ∧ g.isAnd = false ∧ l ∈ g.inputs

theorem absorb_readOutsideAnd {node : String} {g : Gate} (hg : net.gate? node = some g)
    (hand : g.isAnd = false) (fuel : Nat) :
    ∀ l ∈ (net.absorb fuel (Text.nameSet g.inputs) [node]).1, net.ReadOutsideAnd l := by
  refine absorb_keeps _ (fun x y _ hxor hy => ?_) fuel fun l hl =>
    ⟨node, g, hg, hand, Text.mem_nameSet.mp hl⟩
  obtain ⟨G, hG, hGxor, hin⟩ := isXorGate_spec hxor
  exact ⟨x, G, hG, Gate.isAnd_eq_false_of_isXor hGxor, hin ▸ hy⟩

end Absorption

section Growth

theorem readers_eq_singleton {x : String} (h : net.expandable x = .ok true) :
    ∃ w, net.readers x = [w] := by
  unfold expandable at h
  split_ifs at h
  · cases h
  · split at h
    · cases h
    · split_ifs at h
      · rw [fanoutCount_eq] at h
        cases hr : net.readers x with
        | nil =>
          rw [hr] at h
          cases h
        | cons w ws =>
          simp only [hr, bind, Except.bind, pure, Except.pure, Except.ok.injEq, beq_iff_eq] at h
          exact List.length_eq_one_iff.mp h
      · cases h

theorem eq_of_reads_of_expandable {x y z : String} (hx : net.expandable x = .ok true)
    (hy : net.Reads x y) (hz : net.Reads x z) : y = z := by
  obtain ⟨w, hw⟩ := readers_eq_singleton hx
  have hmem : ∀ {v}, net.Reads x v → v = w := by
    rintro v ⟨g, hg, hxg⟩
    have hv : v ∈ net.readers x := mem_readers.mpr ⟨g, gate?_mem hg, hxg⟩
    rwa [hw, List.mem_singleton] at hv
  rw [hmem hy, hmem hz]

/-- Growth from the leaf `l` after expanding the names `d` into the product `p`:
the product is a set of names; the expanded names are distinct and expandable;
no expandable name of the product has been expanded; and every name expanded or
in the product is `l` or is read by a gate expanded. -/
structure Growing (net : Network) (l : String) (d p : List String) : Prop where
  increasing : Text.Increasing p
  nodup : d.Nodup
  expanded : ∀ x ∈ d, net.expandable x = .ok true
  fresh : ∀ x ∈ p, net.expandable x = .ok true → x ∉ d
  reached : ∀ x, x ∈ d ∨ x ∈ p → x = l ∨ ∃ y ∈ d, net.Reads x y

theorem Growing.start (l : String) : Growing net l [] [l] where
  increasing := by simp [Text.Increasing]
  nodup := List.nodup_nil
  expanded := by simp
  fresh := by simp
  reached := by simp

theorem Growing.fresh_expand {l : String} {d p e : List String} (hl : net.ReadOutsideAnd l)
    (h : Growing net l d p) (hfilter : p.filterM net.expandable = .ok e) :
    ∀ x ∈ net.expand p e, net.expandable x = .ok true → x ∉ d ++ e := by
  intro x hx hxexp hmem
  obtain ⟨hxe, hx'⟩ := mem_expand hx
  rcases List.mem_append.mp hmem with hxd | hxe'
  · rcases hx' with hxp | ⟨y, hye, hxy⟩
    · exact h.fresh x hxp hxexp hxd
    · obtain ⟨hyp, hyexp⟩ := mem_of_filterM hfilter y hye
      obtain ⟨G, hG, hGand⟩ := expandable_spec hyexp
      rcases h.reached x (Or.inl hxd) with rfl | ⟨y', hy'd, hxy'⟩
      · -- the leaf's one reader is no AND gate, yet `y` is one
        obtain ⟨z, g, hg, hand, hlz⟩ := hl
        obtain rfl := eq_of_reads_of_expandable hxexp hxy ⟨g, hg, hlz⟩
        rw [hg] at hG
        cases hG
        rw [hand] at hGand
        cases hGand
      · obtain rfl := eq_of_reads_of_expandable hxexp hxy hxy'
        exact h.fresh y hyp hyexp hy'd
  · exact hxe hxe'

theorem Growing.expand {l : String} {d p e : List String} (hl : net.ReadOutsideAnd l)
    (h : Growing net l d p) (hfilter : p.filterM net.expandable = .ok e) :
    Growing net l (d ++ e) (net.expand p e) where
  increasing := Text.increasing_nameDiff e (Text.increasing_nameUnion _ h.increasing)
  nodup := by
    refine List.nodup_append.mpr ⟨h.nodup, (sublist_of_filterM hfilter).nodup h.increasing.nodup, ?_⟩
    rintro a ha b hb rfl
    obtain ⟨hbp, hbexp⟩ := mem_of_filterM hfilter a hb
    exact h.fresh a hbp hbexp ha
  expanded := by
    intro x hx
    rcases List.mem_append.mp hx with hx | hx
    · exact h.expanded x hx
    · exact (mem_of_filterM hfilter x hx).2
  fresh := h.fresh_expand hl hfilter
  reached := by
    have hmono : ∀ x, x = l ∨ (∃ y ∈ d, net.Reads x y) → x = l ∨ ∃ y ∈ d ++ e, net.Reads x y :=
      fun x => Or.imp_right fun ⟨y, hy, hxy⟩ => ⟨y, List.mem_append_left e hy, hxy⟩
    rintro x (hx | hx)
    · rcases List.mem_append.mp hx with hx | hx
      · exact hmono x (h.reached x (Or.inl hx))
      · exact hmono x (h.reached x (Or.inr (mem_of_filterM hfilter x hx).1))
    · rcases (mem_expand hx).2 with hx | ⟨y, hy, hxy⟩
      · exact hmono x (h.reached x (Or.inr hx))
      · exact Or.inr ⟨y, List.mem_append_right d hy, hxy⟩

def growLeft (net : Network) (d : List String) : Nat :=
  (net.gates.map Prod.fst).countP fun x => !d.contains x

theorem growLeft_lt {l : String} {d p e : List String} (h : Growing net l d p)
    (hfilter : p.filterM net.expandable = .ok e) (hne : e ≠ []) :
    net.growLeft (d ++ e) < net.growLeft d := by
  obtain ⟨x, hx⟩ := List.exists_mem_of_ne_nil e hne
  obtain ⟨hxp, hxexp⟩ := mem_of_filterM hfilter x hx
  obtain ⟨g, hg, -⟩ := expandable_spec hxexp
  refine countP_lt_countP_of_imp (fun y _ hy => ?_) (mem_keys_of_gate? hg)
    (by simpa using h.fresh x hxp hxexp) (by simp [hx])
  simp only [Bool.not_eq_eq_eq_not, Bool.not_true, List.contains_eq_mem, decide_eq_false_iff_not,
    List.mem_append, not_or] at hy ⊢
  exact hy.1

theorem grow_rounds (b : Bound) {l : String} (hl : net.ReadOutsideAnd l) :
    ∃ k log r, k ≤ net.gates.length + 1 ∧ Rounds (net.growRound b) k [l] log r ∧
      log.Nodup ∧ ∀ x ∈ log, net.expandable x = .ok true := by
  obtain ⟨k, log, r, hk, hrun, hlog⟩ := Rounds.exists_of_measure (fun d p => Growing net l d p)
    (fun d _ => net.growLeft d) (fun d => d.Nodup ∧ ∀ x ∈ d, net.expandable x = .ok true)
    (fun d p e p' h hround => by
      rcases growRound_ok hround with ⟨-, ho⟩ | ⟨-, hfilter, hne, ho | ⟨-, ho⟩⟩
      · cases ho
      · cases ho
      · cases ho
        exact ⟨h.expand hl hfilter, growLeft_lt h hfilter hne⟩)
    (fun d p e r h hround => by
      rcases growRound_ok hround with ⟨rfl, -⟩ | ⟨-, hfilter, -, -⟩
      · simpa using ⟨h.nodup, h.expanded⟩
      · exact ⟨(h.expand hl hfilter).nodup, (h.expand hl hfilter).expanded⟩)
    (fun d p f h _ => ⟨h.nodup, h.expanded⟩) [] [l] (Growing.start l)
  have hstart : net.growLeft [] = net.gates.length := by simp [growLeft]
  refine ⟨k, log, r, by omega, hrun, by simpa using hlog.1, by simpa using hlog.2⟩

end Growth

/-- On every network the netlist reader gives, for every bound: absorption from
each gate that is no AND gate ends within the fuel enumeration gives it, the
number of gates plus two; so does growth from each of its leaves, expanding
distinct AND gates; and when every name a gate reads is known, enumeration under
a count bound succeeds. -/
theorem cuts_loops_end {text : String} {net : Network} (hread : ofVerilog text = .ok net)
    (b : Bound) :
    (∀ node g, (node, g) ∈ net.gates → g.isAnd = false →
      (∃ k log, k ≤ net.gates.length + 2 ∧
        Rounds net.absorbRound k (Text.nameSet g.inputs, [node]) log
          (.ok (net.absorb (net.gates.length + 2) (Text.nameSet g.inputs) [node]))) ∧
      ∀ l ∈ (net.absorb (net.gates.length + 2) (Text.nameSet g.inputs) [node]).1,
        ∃ k log, k ≤ net.gates.length + 2 ∧
          Rounds (net.growRound b) k [l] log (net.grow b (net.gates.length + 2) [l]) ∧
          log.Nodup ∧ ∀ x ∈ log, ∃ g', net.gate? x = some g' ∧ g'.isAnd = true) ∧
    (net.GatesClosed → ∀ m : Int, ∃ cs, net.cuts (.count m) = .ok cs) := by
  have hkeys := keys_nodup_of_ofVerilog hread
  refine ⟨fun node g hmem hand => ⟨?_, fun l hl => ?_⟩, fun hclosed m =>
    cuts_ok_of_gatesClosed hkeys hclosed m⟩
  · obtain ⟨k, log, hk, hrun⟩ := absorb_rounds net (Text.nameSet g.inputs, [node])
    have hle := absorbLeft_le net (Text.nameSet g.inputs, [node])
    exact ⟨k, log, by omega, hrun _ (by omega)⟩
  · have hl' := absorb_readOutsideAnd (gate?_of_mem hkeys hmem) hand _ l hl
    obtain ⟨k, log, r, hk, hrun, hnodup, hexp⟩ := grow_rounds b hl'
    have hr := hrun.fuel_eq (net.grow b) (grow_succ net b) (net.gates.length + 2) (by omega)
    exact ⟨k, log, by omega, hr ▸ hrun, hnodup, fun x hx => expandable_spec (hexp x hx)⟩

/-- A network whose XOR gate reads an AND gate that reads it back. -/
theorem cuts_loops_end_cycle :
    ∃ net : Network,
      ofVerilog "module top(a, y);\ninput a;\noutput y;\nwire t;\nassign t = y & a;\nassign y = t ^ a;\nendmodule\n" =
        .ok net ∧ net.GatesClosed ∧ ∃ cs, net.cuts (.count 2) = .ok cs := by
  let gt : Gate := .binary .and "y" "a" false false false
  let gy : Gate := .binary .xor "t" "a" false false false
  let net : Network := { inputs := ["a"], outputs := ["y"], gates := [("t", gt), ("y", gy)] }
  have hread : ofVerilog
      "module top(a, y);\ninput a;\noutput y;\nwire t;\nassign t = y & a;\nassign y = t ^ a;\nendmodule\n" =
        .ok net :=
    ofVerilog_eq_ok_of_parts (by decide +kernel)
  have hclosed : net.GatesClosed := (net.closed_of_isSome (by decide) (by decide)).1
  exact ⟨net, hread, hclosed, (cuts_loops_end hread (.count 2)).2 hclosed 2⟩

end Network

end XagSynth
