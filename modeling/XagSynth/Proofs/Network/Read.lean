import Mathlib.Data.List.Nodup
import XagSynth.Network.Verilog

/-!
# Networks read from netlists drive each name once

A network read from a netlist has one entry per driven name
(`keys_nodup_of_ofVerilog`), and its gates are read with OR turned into AND
(`parsed_of_ofVerilog`); `readLines_invariant` carries a fact of every
statement through the reading.
-/

namespace XagSynth

theorem bind_eq_ok {ε α β : Type} {x : Except ε α} {f : α → Except ε β} {b : β}
    (h : x >>= f = .ok b) : ∃ a, x = .ok a ∧ f a = .ok b := by
  cases x with
  | error e => cases h
  | ok a => exact ⟨a, rfl, h⟩

theorem Table.mem_put {ν : Type} {t : List (String × ν)} {k : String} {v : ν}
    {e : String × ν} (h : e ∈ Table.put t k v) : e = (k, v) ∨ e ∈ t := by
  unfold Table.put at h
  split at h
  · obtain ⟨e', he', rfl⟩ := List.mem_map.mp h
    by_cases hk : e'.1 = k
    · left
      simp [hk]
    · right
      simpa [hk] using he'
  · rcases List.mem_append.mp h with h | h
    · exact Or.inr h
    · exact Or.inl (List.mem_singleton.mp h)

theorem Table.keys_put_nodup {κ ν : Type} [BEq κ] [LawfulBEq κ] (t : List (κ × ν)) (k : κ) (v : ν)
    (h : (t.map Prod.fst).Nodup) : ((Table.put t k v).map Prod.fst).Nodup := by
  by_cases hk : t.any (fun e => e.1 == k) = true
  · rw [Table.keys_put_of_mem t k v hk]
    exact h
  · have hnot : k ∉ t.map Prod.fst := by
      simp only [List.any_eq_true, beq_iff_eq, not_exists, not_and] at hk
      simp only [List.mem_map, not_exists, not_and]
      intro e he hek
      exact hk e he hek
    simp only [Table.put, hk, Bool.false_eq_true, if_false, List.map_append, List.map_cons,
      List.map_nil]
    refine List.nodup_append.mpr ⟨h, List.nodup_singleton k, ?_⟩
    intro a ha b hb hab
    simp only [List.mem_singleton] at hb
    subst hb hab
    exact hnot ha

namespace Network

/-- The driven names of a network, one entry each. -/
def KeysNodup (net : Network) : Prop := (net.gates.map Prod.fst).Nodup

/-- A gate the netlist reader builds: an OR gate is read as an AND gate, and an
XOR gate is never negated at its output. -/
def Gate.Parsed : Gate → Prop
  | .binary .or .. => False
  | .binary .xor _ _ _ _ no => no = false
  | _ => True

theorem Assignment.parsed_ofText {item : String} {a : Assignment}
    (h : Assignment.ofText item true = .ok a) : a.gate.Parsed := by
  unfold Assignment.ofText at h
  obtain ⟨⟨target, source⟩, -, h⟩ := bind_eq_ok h
  dsimp only at h
  split at h
  · cases h
    trivial
  · rename_i op _
    obtain ⟨⟨l, r⟩, -, h⟩ := bind_eq_ok h
    dsimp only at h
    split at h
    · cases h
      trivial
    · rename_i hor
      cases h
      cases op with
      | and => trivial
      | or => simp at hor
      | xor => rfl

theorem statement_gates {net net' : Network} {stmt : String} (hs : net.statement stmt = .ok net') :
    net'.gates = net.gates ∨ ∃ a : Assignment, (∃ item, Assignment.ofText item true = .ok a) ∧
      net'.gates = Table.put net.gates a.target a.gate := by
  simp only [statement] at hs
  by_cases ha : stmt.startsWith "assign" = true
  · rw [if_pos ha] at hs
    cases hi : items stmt "assign" with
    | nil => rw [hi] at hs; cases hs
    | cons item rest =>
      cases hoa : Assignment.ofText item true with
      | error e => simp [hi, hoa, bind, Except.bind] at hs
      | ok a =>
        simp only [hi, hoa, bind, Except.bind, pure, Except.pure, Except.ok.injEq] at hs
        subst hs
        right
        refine ⟨a, ⟨item, hoa⟩, ?_⟩
        simp only [assign]
        split_ifs <;> rfl
  · rw [if_neg ha] at hs
    simp only [pure, Except.pure, Except.ok.injEq] at hs
    subst hs
    left
    split_ifs <;> rfl

theorem readLines_invariant (I : Network → Prop)
    (hI : ∀ net stmt net', I net → net.statement stmt = .ok net' → I net') (lines : List String) :
    ∀ (net : Network) (pending : Option String) (net' : Network),
      I net → net.readLines pending lines = .ok net' → I net' := by
  induction lines with
  | nil =>
    intro net pending net' h hr
    cases pending with
    | none =>
      simp only [readLines, Except.ok.injEq] at hr
      exact hr ▸ h
    | some _ => simp [readLines] at hr
  | cons l rest ih =>
    intro net pending net' h hr
    have hstmt : ∀ stmt, (do readLines (← net.statement stmt) none rest) = Except.ok net' →
        I net' := by
      intro stmt hs
      obtain ⟨n1, hst, hs⟩ := bind_eq_ok hs
      exact ih n1 none net' (hI net stmt n1 h hst) hs
    cases pending with
    | none =>
      simp only [readLines] at hr
      split at hr
      · exact ih net none net' h hr
      · split at hr
        · simp only [Except.ok.injEq] at hr
          exact hr ▸ h
        · split at hr
          · exact hstmt _ hr
          · exact ih net _ net' h hr
    | some p =>
      simp only [readLines] at hr
      split at hr
      · exact hstmt _ hr
      · exact ih net _ net' h hr

theorem keys_nodup_of_ofVerilog {text : String} {net : Network} (h : ofVerilog text = .ok net) :
    net.KeysNodup := by
  refine readLines_invariant KeysNodup ?_ _ {} none net List.nodup_nil h
  intro net stmt net' hk hs
  rcases statement_gates hs with hg | ⟨a, -, hg⟩
  · rw [KeysNodup, hg]
    exact hk
  · rw [KeysNodup, hg]
    exact Table.keys_put_nodup _ _ _ hk

theorem parsed_of_ofVerilog {text : String} {net : Network} (h : ofVerilog text = .ok net) :
    ∀ e ∈ net.gates, e.2.Parsed := by
  refine readLines_invariant (fun net => ∀ e ∈ net.gates, e.2.Parsed) ?_ _ {} none net
    (by simp) h
  intro net stmt net' hp hs
  rcases statement_gates hs with hg | ⟨a, ⟨item, ha⟩, hg⟩
  · rw [hg]
    exact hp
  · rw [hg]
    intro e he
    rcases Table.mem_put he with rfl | he
    · exact Assignment.parsed_ofText ha
    · exact hp e he

theorem ofVerilog_eq_ok_of_parts {text : String} {ins outs : List String}
    {gates : List (String × Gate)}
    (h : (ofVerilog text).toOption.map (fun n => (n.inputs, n.outputs, n.gates)) =
      some (ins, outs, gates)) :
    ofVerilog text = .ok { inputs := ins, outputs := outs, gates := gates } := by
  cases hr : ofVerilog text with
  | error e => simp [hr, Except.toOption] at h
  | ok n =>
    simp only [hr, Except.toOption, Option.map_some, Option.some.injEq, Prod.mk.injEq] at h
    obtain ⟨rfl, rfl, rfl⟩ := h
    rfl

theorem gate?_of_mem {net : Network} (h : net.KeysNodup) {x : String} {g : Gate}
    (hx : (x, g) ∈ net.gates) : net.gate? x = some g := by
  have hsome : (net.gates.find? fun e => e.1 == x).isSome :=
    List.find?_isSome.mpr ⟨(x, g), hx, by simp⟩
  obtain ⟨e, he⟩ := Option.isSome_iff_exists.mp hsome
  have hex : e.1 = x := by simpa using List.find?_some he
  have heq : e = (x, g) := List.inj_on_of_nodup_map h (List.mem_of_find?_eq_some he) hx hex
  simp [gate?, he, heq]

theorem gate?_mem {net : Network} {x : String} {g : Gate} (h : net.gate? x = some g) :
    (x, g) ∈ net.gates := by
  obtain ⟨e, he, rfl⟩ := Option.map_eq_some_iff.mp h
  have hx : e.1 = x := by simpa using List.find?_some he
  rw [← hx]
  exact List.mem_of_find?_eq_some he

theorem gate?_eq_some_iff {net : Network} (h : net.KeysNodup) {x : String} {g : Gate} :
    net.gate? x = some g ↔ (x, g) ∈ net.gates :=
  ⟨gate?_mem, gate?_of_mem h⟩

end Network

end XagSynth
