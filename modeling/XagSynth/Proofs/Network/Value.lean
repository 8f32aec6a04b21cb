import Mathlib.Logic.Relation
import Mathlib.Tactic.ByContra
import XagSynth.Proofs.Network.Read

/-!
# Values of acyclic networks

A network is acyclic when no gate reads its own output through gates, and
closed when every name read and every output is known. `Network.descend`
follows gates down on a bound of the number of gates, which on an acyclic
network is never reached (`descend_of_gate`); `Network.value` is the value of a
name under an assignment of the inputs.
-/

namespace XagSynth.Network

/-- The gate driving `b` reads `a`. -/
def Reads (net : Network) (a b : String) : Prop :=
  ∃ g, net.gate? b = some g ∧ a ∈ g.inputs

/-- No gate reads its own output, directly or through other gates. -/
def Acyclic (net : Network) : Prop :=
  ∀ n, ¬ Relation.TransGen net.Reads n n

/-- A name the network knows: a primary input, or a name driven by a gate. -/
def Known (net : Network) (a : String) : Prop :=
  a ∈ net.inputs ∨ ∃ g, net.gate? a = some g

/-- Every name read by a gate, and every output, is known. -/
def Closed (net : Network) : Prop :=
  (∀ e ∈ net.gates, ∀ a ∈ e.2.inputs, net.Known a) ∧ ∀ o ∈ net.outputs, net.Known o

/-- No gate drives a name that is also a primary input. -/
def InputsUndriven (net : Network) : Prop :=
  ∀ a ∈ net.inputs, net.gate? a = none

theorem acyclic_of_rank (net : Network) (rank : String → Nat)
    (h : ∀ a b, net.Reads a b → rank a < rank b) : net.Acyclic := by
  intro n hn
  have hlt : ∀ a b, Relation.TransGen net.Reads a b → rank a < rank b := by
    intro a b hab
    induction hab with
    | single hr => exact h _ _ hr
    | tail _ hr ih => exact Nat.lt_trans ih (h _ _ hr)
  exact Nat.lt_irrefl _ (hlt n n hn)

theorem acyclic_of_reads_inputs (net : Network) (hpi : net.InputsUndriven)
    (h : ∀ e ∈ net.gates, ∀ a ∈ e.2.inputs, a ∈ net.inputs) : net.Acyclic := by
  refine net.acyclic_of_rank (fun x => if x ∈ net.inputs then 0 else 1) ?_
  rintro a b ⟨g, hg, ha⟩
  have hain : a ∈ net.inputs := h _ (gate?_mem hg) a ha
  have hbin : b ∉ net.inputs := fun hb => by simp [hpi b hb] at hg
  simp [hain, hbin]

theorem acyclic_of_ranked (net : Network) (rank : String → Nat)
    (h : ∀ e ∈ net.gates, ∀ a ∈ e.2.inputs, rank a < rank e.1) : net.Acyclic := by
  refine net.acyclic_of_rank rank ?_
  rintro a b ⟨g, hg, ha⟩
  exact h _ (gate?_mem hg) a ha

theorem closed_of_isSome (net : Network)
    (hgates : ∀ e ∈ net.gates, ∀ a ∈ e.2.inputs, a ∈ net.inputs ∨ (net.gate? a).isSome = true)
    (houts : ∀ o ∈ net.outputs, o ∈ net.inputs ∨ (net.gate? o).isSome = true) : net.Closed := by
  have hknown : ∀ a, a ∈ net.inputs ∨ (net.gate? a).isSome = true → net.Known a := by
    rintro a (ha | ha)
    · exact .inl ha
    · exact .inr (Option.isSome_iff_exists.mp ha)
  exact ⟨fun e he a ha => hknown a (hgates e he a ha), fun o ho => hknown o (houts o ho)⟩

theorem Acyclic.not_reads_self {net : Network} (hacyc : net.Acyclic) (n : String) :
    ¬ net.Reads n n :=
  fun h => hacyc n (.single h)

theorem mem_keys_of_gate? {net : Network} {x : String} {g : Gate} (h : net.gate? x = some g) :
    x ∈ net.gates.map Prod.fst :=
  List.mem_map.mpr ⟨(x, g), gate?_mem h, rfl⟩

section Descend

variable {β : Type} (net : Network) (leaf : String → β) (node : String → Gate → (String → β) → β)

/-- The definition with base `leaf` and step `node`, followed through at most
`k` gates: a name that drives no gate, or that is met once the bound is spent,
is given by `leaf`; a gate by `node`, applied to the definition one gate below. -/
def descend : Nat → String → β
  | 0, x => leaf x
  | k + 1, x =>
    match net.gate? x with
    | some g => node x g (descend k)
    | none => leaf x

/-- A step that reads the definition below only at the inputs of the gate. -/
def LocalStep : Prop :=
  ∀ x g (f f' : String → β), (∀ a ∈ g.inputs, f a = f' a) → node x g f = node x g f'

/-- There is a chain of `k + 1` gates from `x` down, each reading the next. -/
def Below : Nat → String → Prop
  | 0, x => ∃ g, net.gate? x = some g
  | k + 1, x => ∃ a, net.Reads a x ∧ Below k a

variable {net leaf node}

theorem descend_of_none {x : String} (h : net.gate? x = none) (k : Nat) :
    net.descend leaf node k x = leaf x := by
  cases k with
  | zero => rfl
  | succ k => simp only [descend, h]

theorem below_of_descend_ne (hloc : LocalStep node) :
    ∀ k x, net.descend leaf node k x ≠ net.descend leaf node (k + 1) x → Below net k x := by
  intro k
  induction k with
  | zero =>
    intro x hne
    cases hg : net.gate? x with
    | none => exact absurd (by simp only [descend, hg]) hne
    | some g => exact ⟨g, hg⟩
  | succ k ih =>
    intro x hne
    cases hg : net.gate? x with
    | none => exact absurd (by simp only [descend, hg]) hne
    | some g =>
      simp only [descend, hg] at hne
      have hdiff : ∃ a ∈ g.inputs, net.descend leaf node k a ≠ net.descend leaf node (k + 1) a := by
        by_contra! hall
        exact hne (hloc x g _ _ hall)
      obtain ⟨a, ha, hne'⟩ := hdiff
      exact ⟨a, ⟨g, hg, ha⟩, ih a hne'⟩

theorem exists_nodup_of_below (hacyc : net.Acyclic) :
    ∀ k x, Below net k x → ∃ l : List String, l.length = k + 1 ∧ l.Nodup ∧
      (∀ u ∈ l, u ∈ net.gates.map Prod.fst) ∧ ∀ u ∈ l, Relation.ReflTransGen net.Reads u x := by
  intro k
  induction k with
  | zero =>
    rintro x ⟨g, hg⟩
    exact ⟨[x], rfl, List.nodup_singleton x, by simpa using mem_keys_of_gate? hg,
      by simp [Relation.ReflTransGen.refl]⟩
  | succ k ih =>
    rintro x ⟨a, hax, hbelow⟩
    obtain ⟨l, hlen, hnd, hkeys, hreach⟩ := ih a hbelow
    have hx : x ∉ l := by
      intro hxl
      exact hacyc x (Relation.TransGen.tail' (hreach x hxl) hax)
    have ⟨g, hg, _⟩ := hax
    refine ⟨x :: l, by simp [hlen], List.nodup_cons.mpr ⟨hx, hnd⟩, ?_, ?_⟩
    · intro u hu
      rcases List.mem_cons.mp hu with rfl | hu
      · exact mem_keys_of_gate? hg
      · exact hkeys u hu
    · intro u hu
      rcases List.mem_cons.mp hu with rfl | hu
      · exact .refl
      · exact (hreach u hu).tail hax

theorem below_lt_length (hacyc : net.Acyclic) {k : Nat} {x : String} (h : Below net k x) :
    k < net.gates.length := by
  obtain ⟨l, hlen, hnd, hkeys, -⟩ := exists_nodup_of_below hacyc k x h
  have hle := hnd.length_le_of_subset hkeys
  simp only [List.length_map] at hle
  omega

theorem descend_succ_of_le (hacyc : net.Acyclic) (hloc : LocalStep node) {k : Nat}
    (hk : net.gates.length ≤ k) (x : String) :
    net.descend leaf node (k + 1) x = net.descend leaf node k x := by
  by_contra hne
  have hlt := below_lt_length hacyc (below_of_descend_ne hloc k x (Ne.symm hne))
  omega

theorem descend_of_gate (hacyc : net.Acyclic) (hloc : LocalStep node) {x : String} {g : Gate}
    (hg : net.gate? x = some g) :
    net.descend leaf node net.gates.length x =
      node x g (net.descend leaf node net.gates.length) := by
  rw [← descend_succ_of_le hacyc hloc (Nat.le_refl _) x]
  simp only [descend, hg]

end Descend

theorem Gate.eval_congr (g : Gate) {f f' : String → Bool} (h : ∀ a ∈ g.inputs, f a = f' a) :
    g.eval f = g.eval f' := by
  cases g with
  | binary op a b na nb no =>
    simp only [Gate.inputs_binary, List.mem_cons, List.not_mem_nil, or_false,
      forall_eq_or_imp, forall_eq] at h
    simp only [Gate.eval, h.1, h.2]
  | buffer a => simp [Gate.eval, h a (by simp)]

/-- The value of a name under the assignment `s` of the primary inputs: a name
that drives no gate has its value under `s`, a gate the value of its operation
at the values of its inputs. -/
def value (net : Network) (s : String → Bool) : String → Bool :=
  net.descend s (fun _ g f => g.eval f) net.gates.length

theorem value_of_none (net : Network) (s : String → Bool) {x : String} (h : net.gate? x = none) :
    net.value s x = s x :=
  descend_of_none h _

theorem value_of_gate {net : Network} (hacyc : net.Acyclic) (s : String → Bool) {x : String}
    {g : Gate} (hg : net.gate? x = some g) : net.value s x = g.eval (net.value s) :=
  descend_of_gate hacyc (fun _ g _ _ h => g.eval_congr h) hg

theorem value_of_input {net : Network} (hpi : net.InputsUndriven) (s : String → Bool)
    {x : String} (hx : x ∈ net.inputs) : net.value s x = s x :=
  value_of_none net s (hpi x hx)

end XagSynth.Network
