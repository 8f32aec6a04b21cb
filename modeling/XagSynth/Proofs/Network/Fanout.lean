import Mathlib.Data.Set.Card
import XagSynth.Proofs.Cut.Block

/-!
# Fanouts are the inverse of reading

On a network read from a netlist the readers of a name are exactly the names
whose final gate reads it, each listed once, so counting them gives the size of
that set and fails exactly when it is empty (`fanouts_eq_readingGates`).
-/

namespace XagSynth.Network

/-- The names whose gate, as the network's table ends up, reads `name`. -/
def readingGates (net : Network) (name : String) : Set String :=
  {m | ∃ g, net.gate? m = some g ∧ name ∈ g.inputs}

theorem increasing_foldl_joinReader (name : String) (ps : List (String × String)) :
    ∀ {entry : Option (List String)}, Text.Increasing (entry.getD []) →
      Text.Increasing ((ps.foldl (fun entry p => joinReader name p.1 p.2 entry) entry).getD []) := by
  induction ps with
  | nil => exact id
  | cons p ps ih =>
    intro entry h
    apply ih
    show Text.Increasing ((joinReader name p.1 p.2 entry).getD [])
    unfold joinReader
    split
    · exact Text.increasing_insertName p.1 h
    · exact h

theorem nodup_readers (net : Network) (name : String) : (net.readers name).Nodup := by
  have h := @increasing_foldl_joinReader name (readPairs net.gates) none List.Pairwise.nil
  rw [← fanoutEntry_eq_foldl] at h
  exact h.nodup

theorem readers_eq_readingGates {net : Network} (hkeys : net.KeysNodup) (name : String) :
    {m | m ∈ net.readers name} = net.readingGates name := by
  ext m
  simp only [Set.mem_ofPred_eq, readingGates, mem_readers, gate?_eq_some_iff hkeys]

/-- On every network read from a netlist, the readers of a name are the names
whose final gate reads it, listed once each; counting them gives the size of
that set, and fails with a type error exactly when the set is empty. -/
theorem fanouts_eq_readingGates {text : String} {net : Network} (hread : ofVerilog text = .ok net)
    (n : String) :
    {m | m ∈ net.readers n} = net.readingGates n ∧ (net.readers n).Nodup ∧
      (net.fanoutCount n = .error .noFanouts ↔ net.readingGates n = ∅) ∧
      (net.readingGates n ≠ ∅ → net.fanoutCount n = .ok (net.readingGates n).ncard) ∧
      Fault.noFanouts.label = "TypeError" := by
  have hset := readers_eq_readingGates (keys_nodup_of_ofVerilog hread) n
  have hnodup := nodup_readers net n
  have hcard : (net.readingGates n).ncard = (net.readers n).length := by
    rw [← hset, ← List.toFinset_card_of_nodup hnodup, ← Set.ncard_coe_finset, List.coe_toFinset]
  have hempty : net.readingGates n = ∅ ↔ net.readers n = [] := by
    rw [← hset, Set.eq_empty_iff_forall_notMem, List.eq_nil_iff_forall_not_mem]
    rfl
  refine ⟨hset, hnodup, ?_, fun hne => ?_, rfl⟩
  · rw [hempty, fanoutCount_eq]
    cases net.readers n with
    | nil => simp
    | cons r rs => simp
  · rw [hcard, fanoutCount_eq]
    cases hr : net.readers n with
    | nil => exact absurd (hempty.mpr hr) hne
    | cons r rs => rfl

/-- A netlist that assigns `t` twice, first as `a & b` and then as `a & a`. The
replaced gate was the only one to read `b`, so `b` has no readers and counting
them fails; `a` has the one reader `t`, which reads it twice. -/
theorem fanouts_replaced_gate :
    ∃ net : Network,
      ofVerilog "module top(a, b, y);\ninput a, b;\noutput y;\nwire t;\nassign t = a & b;\nassign t = a & a;\nassign y = t ^ y;\nendmodule\n" = .ok net ∧
      net.readingGates "b" = ∅ ∧ net.fanoutCount "b" = .error .noFanouts ∧
      net.readingGates "a" = {"t"} ∧ net.fanoutCount "a" = .ok 1 := by
  let net : Network :=
    { inputs := ["a", "b"], outputs := ["y"],
      gates := [("t", .binary .and "a" "a" false false false), ("y", .binary .xor "t" "y" false false false)] }
  have hread : ofVerilog "module top(a, b, y);\ninput a, b;\noutput y;\nwire t;\nassign t = a & b;\nassign t = a & a;\nassign y = t ^ y;\nendmodule\n" = .ok net :=
    ofVerilog_eq_ok_of_parts (by decide +kernel)
  obtain ⟨hsetb, -, hcountb, -⟩ := fanouts_eq_readingGates hread "b"
  obtain ⟨hseta, -, -, hcounta, -⟩ := fanouts_eq_readingGates hread "a"
  have hb : net.readers "b" = [] := by decide +kernel
  have ha : net.readers "a" = ["t"] := by decide +kernel
  have hemptyb : net.readingGates "b" = ∅ := by
    rw [← hsetb, hb]
    simp
  have hsinglea : net.readingGates "a" = {"t"} := by
    rw [← hseta, ha]
    simp
  refine ⟨net, hread, hemptyb, hcountb.mpr hemptyb, hsinglea, ?_⟩
  rw [hcounta (by simp [hsinglea]), hsinglea, Set.ncard_singleton]

end XagSynth.Network
