import XagSynth.Proofs.Cut.Termination

/-!
# Absorption exposes the XOR closure

On every network the netlist reader gives, cycles and shared gates included,
absorption from `n` exposes `n` and its least XOR closure (`XorClosure`) and
ends with the inputs of those gates, less the exposed ones, as leaves
(`absorb_exposes_xorClosure`); each round keeps `Absorbed`.
-/

namespace XagSynth.Network

/-- The XOR closure of `n`: every XOR gate among the inputs of `n`, and every
XOR gate among the inputs of a gate of the closure. -/
inductive XorClosure (net : Network) (n : String) : String → Prop
  | input {x : String} : x ∈ net.inputsOf n → net.isXorGate x = true → XorClosure net n x
  | step {x y : String} : XorClosure net n x → y ∈ net.inputsOf x → net.isXorGate y = true →
      XorClosure net n y

/-- A name that `n` or a gate of its XOR closure reads. -/
def ClosureInput (net : Network) (n x : String) : Prop :=
  x ∈ net.inputsOf n ∨ ∃ y, net.XorClosure n y ∧ x ∈ net.inputsOf y

variable {net : Network} {n : String}

theorem ClosureInput.xorClosure {x : String} (h : net.ClosureInput n x) (hxor : net.isXorGate x = true) :
    net.XorClosure n x := by
  rcases h with hx | ⟨y, hy, hx⟩
  · exact .input hx hxor
  · exact .step hy hx hxor

/-- A state of absorption from `n`, leaves and exposed gates: `n` is exposed,
every exposed gate is `n` or in its XOR closure, every leaf is read by one of
them, and every exposed gate has passed its inputs on to the leaves or the
exposed gates. -/
structure Absorbed (net : Network) (n : String) (s : List String × List String) : Prop where
  root : n ∈ s.2
  exposed : ∀ x ∈ s.2, x = n ∨ net.XorClosure n x
  leaves : ∀ x ∈ s.1, net.ClosureInput n x
  complete : ∀ y ∈ s.2, ∀ x ∈ net.inputsOf y, x ∈ s.1 ∨ x ∈ s.2

theorem absorbed_start {g : Gate} (hg : net.gate? n = some g) :
    Absorbed net n (Text.nameSet g.inputs, [n]) := by
  have hin := inputsOf_of_gate? hg
  refine ⟨List.mem_singleton_self n, fun x hx => .inl (List.mem_singleton.mp hx), fun x hx => ?_, ?_⟩
  · exact .inl (hin ▸ Text.mem_nameSet.mp hx)
  · intro y hy x hx
    rw [List.mem_singleton.mp hy, hin] at hx
    exact .inl (Text.mem_nameSet.mpr hx)

theorem Absorbed.step {s : List String × List String} (h : Absorbed net n s) :
    Absorbed net n
      (Text.nameDiff (Text.nameUnion s.1 ((s.1.filter net.isXorGate).flatMap net.inputsOf))
        (Text.nameUnion s.2 (s.1.filter net.isXorGate)),
        Text.nameUnion s.2 (s.1.filter net.isXorGate)) := by
  set xs := s.1.filter net.isXorGate with hxs
  have hxs_closure : ∀ y ∈ xs, net.XorClosure n y := by
    intro y hy
    obtain ⟨hyl, hyxor⟩ := List.mem_filter.mp hy
    exact (h.leaves y hyl).xorClosure hyxor
  have hnext : ∀ x, x ∈ s.1 ∨ x ∈ xs.flatMap net.inputsOf →
      x ∈ Text.nameDiff (Text.nameUnion s.1 (xs.flatMap net.inputsOf)) (Text.nameUnion s.2 xs) ∨
        x ∈ Text.nameUnion s.2 xs := by
    intro x hx
    by_cases hE : x ∈ Text.nameUnion s.2 xs
    · exact .inr hE
    · exact .inl (Text.mem_nameDiff.mpr ⟨Text.mem_nameUnion.mpr hx, hE⟩)
  refine ⟨Text.mem_nameUnion.mpr (.inl h.root), fun x hx => ?_, fun x hx => ?_, ?_⟩
  · rcases Text.mem_nameUnion.mp hx with hx | hx
    · exact h.exposed x hx
    · exact .inr (hxs_closure x hx)
  · rcases Text.mem_nameUnion.mp (Text.mem_nameDiff.mp hx).1 with hx | hx
    · exact h.leaves x hx
    · obtain ⟨y, hy, hxy⟩ := List.mem_flatMap.mp hx
      exact .inr ⟨y, hxs_closure y hy, hxy⟩
  · intro y hy x hx
    rcases Text.mem_nameUnion.mp hy with hy | hy
    · rcases h.complete y hy x hx with hx | hx
      · exact hnext x (.inl hx)
      · exact .inr (Text.mem_nameUnion.mpr (.inl hx))
    · exact hnext x (.inr (List.mem_flatMap.mpr ⟨y, hy, hx⟩))

theorem absorbRound_stop {s r : List String × List String} {xs : List String}
    (h : net.absorbRound s = .ok (xs, .inl r)) :
    s.1.filter net.isXorGate = [] ∧ r = (Text.nameDiff s.1 s.2, s.2) := by
  simp only [absorbRound] at h
  split at h
  · rename_i hempty
    simp only [Except.ok.injEq, Prod.mk.injEq, Sum.inl.injEq] at h
    obtain ⟨-, rfl⟩ := h
    have hnil : s.1.filter net.isXorGate = [] := List.isEmpty_iff.mp hempty
    refine ⟨hnil, ?_⟩
    simp [hnil, Text.nameUnion]
  · simp at h

theorem Absorbed.stop {s : List String × List String} (h : Absorbed net n s)
    (hstop : s.1.filter net.isXorGate = []) :
    (∀ x, x ∈ s.2 ↔ x = n ∨ net.XorClosure n x) ∧
      (∀ x, x ∈ Text.nameDiff s.1 s.2 ↔ net.ClosureInput n x ∧ ¬(x = n ∨ net.XorClosure n x)) ∧
      ∀ x ∈ Text.nameDiff s.1 s.2, net.isXorGate x = false := by
  have hleaf : ∀ x ∈ s.1, net.isXorGate x = false := by
    intro x hx
    simpa using List.filter_eq_nil_iff.mp hstop x hx
  have hpass : ∀ y ∈ s.2, ∀ x ∈ net.inputsOf y, net.isXorGate x = true → x ∈ s.2 := by
    intro y hy x hx hxor
    rcases h.complete y hy x hx with hl | he
    · simp [hleaf x hl] at hxor
    · exact he
  have hexposed : ∀ x, x ∈ s.2 ↔ x = n ∨ net.XorClosure n x := by
    intro x
    refine ⟨h.exposed x, ?_⟩
    rintro (rfl | hx)
    · exact h.root
    · induction hx with
      | input hx hxor => exact hpass n h.root _ hx hxor
      | step _ hx hxor ih => exact hpass _ ih _ hx hxor
  refine ⟨hexposed, fun x => ?_, fun x hx => hleaf x (Text.mem_nameDiff.mp hx).1⟩
  rw [Text.mem_nameDiff, ← hexposed]
  refine ⟨fun hx => ⟨h.leaves x hx.1, hx.2⟩, fun ⟨hin, hout⟩ => ⟨?_, hout⟩⟩
  rcases hin with hx | ⟨y, hy, hx⟩
  · exact (h.complete n h.root x hx).resolve_right hout
  · exact (h.complete y ((hexposed y).mpr (.inr hy)) x hx).resolve_right hout

/-- On every network read from a netlist, absorption from a gate `n`, run on the
fuel block enumeration gives it (for each gate that is no AND gate), ends with
`n` and its XOR closure exposed, and with the names `n` and its closure read,
less the exposed gates, as leaves; so no leaf is an XOR gate. -/
theorem absorb_exposes_xorClosure {text : String} {net : Network} (hread : ofVerilog text = .ok net)
    {n : String} {g : Gate} (hmem : (n, g) ∈ net.gates) :
    (∀ x, x ∈ (net.absorb (net.gates.length + 2) (Text.nameSet g.inputs) [n]).2 ↔
        x = n ∨ net.XorClosure n x) ∧
      (∀ x, x ∈ (net.absorb (net.gates.length + 2) (Text.nameSet g.inputs) [n]).1 ↔
        (x ∈ g.inputs ∨ ∃ y, net.XorClosure n y ∧ x ∈ net.inputsOf y) ∧
          ¬(x = n ∨ net.XorClosure n x)) ∧
      ∀ x ∈ (net.absorb (net.gates.length + 2) (Text.nameSet g.inputs) [n]).1, net.isXorGate x = false := by
  have hg := gate?_of_mem (keys_nodup_of_ofVerilog hread) hmem
  obtain ⟨k, log, hk, hrun⟩ := absorb_rounds net (Text.nameSet g.inputs, [n])
  have hle := absorbLeft_le net (Text.nameSet g.inputs, [n])
  have hkeep : ∀ s xs s', Absorbed net n s → net.absorbRound s = .ok (xs, .inr s') →
      Absorbed net n s' := by
    intro s xs s' hs hr
    obtain ⟨rfl, -, rfl⟩ := absorbRound_next hr
    exact hs.step
  obtain ⟨s, hs, hend⟩ :=
    (hrun (net.gates.length + 2) (by omega)).last (Absorbed net n) hkeep (absorbed_start hg)
  obtain ⟨f, hf, -⟩ | ⟨l, r, hr, hres⟩ := hend
  · simp [absorbRound] at hf
  obtain ⟨hnil, rfl⟩ := absorbRound_stop hr
  obtain ⟨hexposed, hleaves, hxor⟩ := hs.stop hnil
  have hres' : net.absorb (net.gates.length + 2) (Text.nameSet g.inputs) [n] =
      (Text.nameDiff s.1 s.2, s.2) := by
    simpa using hres
  rw [hres']
  refine ⟨hexposed, fun x => ?_, hxor⟩
  rw [hleaves x, ClosureInput, inputsOf_of_gate? hg]

/-- XOR gates `t` and `u` in a cycle, both read by the root `y`, which also reads
itself: the closure of `y` is `t`, `u` and `y`, and the leaves are `a` and `b`. -/
theorem absorb_exposes_xorClosure_cycle :
    ∃ (net : Network) (g : Gate),
      ofVerilog "module top(a, b, y);\ninput a, b;\noutput y;\nwire t, u;\nassign t = u ^ a;\nassign u = t ^ b;\nassign y = t ^ y;\nendmodule\n" = .ok net ∧
      ("y", g) ∈ net.gates ∧
      (∀ x, x ∈ ["t", "u", "y"] ↔ x = "y" ∨ net.XorClosure "y" x) ∧
      (∀ x, x ∈ ["a", "b"] ↔ (x ∈ g.inputs ∨ ∃ y, net.XorClosure "y" y ∧ x ∈ net.inputsOf y) ∧
        ¬(x = "y" ∨ net.XorClosure "y" x)) ∧
      ∀ x ∈ ["a", "b"], net.isXorGate x = false := by
  let gy : Gate := .binary .xor "t" "y" false false false
  let net : Network :=
    { inputs := ["a", "b"], outputs := ["y"],
      gates := [("t", .binary .xor "u" "a" false false false), ("u", .binary .xor "t" "b" false false false),
        ("y", gy)] }
  have hread : ofVerilog "module top(a, b, y);\ninput a, b;\noutput y;\nwire t, u;\nassign t = u ^ a;\nassign u = t ^ b;\nassign y = t ^ y;\nendmodule\n" = .ok net :=
    ofVerilog_eq_ok_of_parts (by decide +kernel)
  have hmem : ("y", gy) ∈ net.gates := by simp [net]
  have habsorb : net.absorb (net.gates.length + 2) (Text.nameSet gy.inputs) ["y"] =
      (["a", "b"], ["t", "u", "y"]) := by
    decide +kernel
  have h := absorb_exposes_xorClosure hread hmem
  rw [habsorb] at h
  exact ⟨net, gy, hread, hmem, h⟩

end XagSynth.Network
