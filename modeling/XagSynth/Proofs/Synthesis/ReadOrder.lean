import XagSynth.Proofs.Cut.Table
import XagSynth.Proofs.Synthesis.Direct

/-!
# When gate-by-gate synthesis refuses a network

Gate-by-gate synthesis refuses a network, naming a missing key, exactly when
some gate looks up a name (`Gate.lookedUp`) that is no primary input, not its
own and not an earlier gate's (`compile_refuses_iff`), so the order of the
table matters even on a closed network.
-/

namespace XagSynth

theorem QubitMap.find_of_mem {m : QubitMap} {x : String} (h : x ∈ m.map Prod.fst) :
    ∃ q, m.find x = .ok q := by
  obtain ⟨q, hq⟩ := Option.isSome_iff_exists.mp (isSome_lookup_of_mem_keys h)
  exact ⟨q, by simp [QubitMap.find, hq]⟩

theorem QubitMap.find_of_not_mem {m : QubitMap} {x : String} (h : x ∉ m.map Prod.fst) :
    m.find x = .error (Fault.missingName x) := by
  unfold QubitMap.find
  cases hq : m.lookup x with
  | none => rfl
  | some q => exact absurd (mem_keys_of_lookup hq) h

namespace Network

/-- The names gate-by-gate synthesis looks up for a gate: both inputs of an AND
gate, the first input of any other. -/
def Gate.lookedUp : Gate → List String
  | .binary .and a b _ _ _ => [a, b]
  | .binary _ a _ _ _ _ => [a]
  | .buffer a => [a]

/-- Some gate of `l` looks up a name without a qubit when synthesis reaches it,
the names `known` having qubits from the start. The name is not known, not the
gate's own name, and not the name of an earlier gate of `l`. -/
def ReadsAhead (known : List String) (l : List (String × Gate)) : Prop :=
  ∃ k, ∃ hk : k < l.length, ∃ x ∈ l[k].2.lookedUp,
    x ∉ known ∧ x ≠ l[k].1 ∧ x ∉ (l.take k).map Prod.fst

theorem readsAhead_cons {known : List String} {e : String × Gate} {l : List (String × Gate)} :
    ReadsAhead known (e :: l) ↔
      (∃ x ∈ e.2.lookedUp, x ∉ known ∧ x ≠ e.1) ∨ ReadsAhead (e.1 :: known) l := by
  constructor
  · rintro ⟨k, hk, x, hx, hknown, hself, hprev⟩
    cases k with
    | zero => exact Or.inl ⟨x, hx, hknown, hself⟩
    | succ k =>
      simp only [List.take_succ_cons, List.map_cons, List.mem_cons, not_or] at hprev
      exact Or.inr ⟨k, by simpa using hk, x, hx,
        by simpa only [List.mem_cons, not_or] using ⟨hprev.1, hknown⟩, hself, hprev.2⟩
  · rintro (⟨x, hx, hknown, hself⟩ | ⟨k, hk, x, hx, hknown, hself, hprev⟩)
    · exact ⟨0, by simp, x, hx, hknown, hself, by simp⟩
    · simp only [List.mem_cons, not_or] at hknown
      refine ⟨k + 1, by simpa using hk, x, hx, hknown.2, hself, ?_⟩
      simp only [List.take_succ_cons, List.map_cons, List.mem_cons, not_or]
      exact ⟨hknown.1, hprev⟩

theorem synthGate_ok (acc : Circuit × QubitMap) (node : String) {g : Gate}
    (h : ∀ x ∈ g.lookedUp, x = node ∨ x ∈ acc.2.map Prod.fst) :
    ∃ r, synthGate acc node g = .ok r ∧ r.2.map Prod.fst = node :: acc.2.map Prod.fst := by
  have hfind : ∀ x ∈ g.lookedUp, ∃ q, QubitMap.find ((node, acc.1.width) :: acc.2) x = .ok q := by
    intro x hx
    refine QubitMap.find_of_mem ?_
    rcases h x hx with rfl | hmem
    · exact List.mem_cons_self
    · exact List.mem_cons_of_mem _ hmem
  cases g with
  | binary op a b na nb no =>
    cases op with
    | and =>
      obtain ⟨ca, hca⟩ := hfind a (by simp [Gate.lookedUp])
      obtain ⟨cb, hcb⟩ := hfind b (by simp [Gate.lookedUp])
      exact ⟨_, by
        simp only [synthGate, Circuit.fresh, hca, hcb, bind, Except.bind, pure, Except.pure]
        rfl, by rfl⟩
    | or | xor =>
      obtain ⟨ca, hca⟩ := hfind a (by simp [Gate.lookedUp])
      exact ⟨_, by
        simp only [synthGate, Circuit.fresh, hca, bind, Except.bind, pure, Except.pure]
        rfl, by rfl⟩
  | buffer a =>
    obtain ⟨ca, hca⟩ := hfind a (by simp [Gate.lookedUp])
    exact ⟨_, by
      simp only [synthGate, Circuit.fresh, hca, bind, Except.bind, pure, Except.pure]
      rfl, by rfl⟩

theorem synthGate_missing (acc : Circuit × QubitMap) (node : String) {g : Gate}
    (h : ∃ x ∈ g.lookedUp, x ∉ acc.2.map Prod.fst ∧ x ≠ node) :
    ∃ x, synthGate acc node g = .error (Fault.missingName x) := by
  have hfind : ∀ x, x ∉ acc.2.map Prod.fst → x ≠ node →
      QubitMap.find ((node, acc.1.width) :: acc.2) x = .error (Fault.missingName x) := by
    intro x hx hne
    refine QubitMap.find_of_not_mem ?_
    simpa [hne] using hx
  obtain ⟨x, hx, hmiss, hne⟩ := h
  cases g with
  | binary op a b na nb no =>
    cases op with
    | and =>
      simp only [Gate.lookedUp, List.mem_cons, List.not_mem_nil, or_false] at hx
      by_cases ha : a = node ∨ a ∈ acc.2.map Prod.fst
      · have hmem : a ∈ ((node, acc.1.width) :: acc.2 : QubitMap).map Prod.fst := by
          rcases ha with rfl | ha
          · exact List.mem_cons_self
          · exact List.mem_cons_of_mem _ ha
        obtain ⟨ca, hca⟩ := QubitMap.find_of_mem hmem
        rcases hx with rfl | rfl
        · exact absurd (ha.resolve_left hne) hmiss
        · exact ⟨x, by simp only [synthGate, Circuit.fresh, hca, hfind x hmiss hne, bind,
            Except.bind]⟩
      · simp only [not_or] at ha
        exact ⟨a, by simp only [synthGate, Circuit.fresh, hfind a ha.2 ha.1, bind, Except.bind]⟩
    | or | xor =>
      simp only [Gate.lookedUp, List.mem_singleton] at hx
      subst hx
      exact ⟨x, by simp only [synthGate, Circuit.fresh, hfind x hmiss hne, bind, Except.bind]⟩
  | buffer a =>
    simp only [Gate.lookedUp, List.mem_singleton] at hx
    subst hx
    exact ⟨x, by simp only [synthGate, Circuit.fresh, hfind x hmiss hne, bind, Except.bind]⟩

theorem foldlM_synthGate_ok_or_missing : ∀ (l : List (String × Gate)) (acc : Circuit × QubitMap),
    ((∃ r, l.foldlM (fun acc e => synthGate acc e.1 e.2) acc = .ok r) ∧
        ¬ ReadsAhead (acc.2.map Prod.fst) l) ∨
      ((∃ x, l.foldlM (fun acc e => synthGate acc e.1 e.2) acc = .error (Fault.missingName x)) ∧
        ReadsAhead (acc.2.map Prod.fst) l)
  | [], acc => Or.inl ⟨⟨acc, rfl⟩, fun ⟨k, hk, _⟩ => absurd hk (Nat.not_lt_zero k)⟩
  | e :: l, acc => by
    rw [List.foldlM_cons, readsAhead_cons]
    by_cases hfirst : ∃ x ∈ e.2.lookedUp, x ∉ acc.2.map Prod.fst ∧ x ≠ e.1
    · obtain ⟨x, hx⟩ := synthGate_missing acc e.1 hfirst
      exact Or.inr ⟨⟨x, by simp only [hx, bind, Except.bind]⟩, Or.inl hfirst⟩
    · have hall : ∀ x ∈ e.2.lookedUp, x = e.1 ∨ x ∈ acc.2.map Prod.fst := by
        intro x hx
        by_contra hno
        simp only [not_or] at hno
        exact hfirst ⟨x, hx, hno.2, hno.1⟩
      obtain ⟨r1, h1, hkeys⟩ := synthGate_ok acc e.1 hall
      rw [h1]
      rcases foldlM_synthGate_ok_or_missing l r1 with ⟨hok, hno⟩ | ⟨herr, hyes⟩
      · rw [hkeys] at hno
        exact Or.inl ⟨hok, fun h => h.elim hfirst hno⟩
      · rw [hkeys] at hyes
        exact Or.inr ⟨herr, Or.inr hyes⟩

/-- Gate-by-gate synthesis of any network is refused, with a missing key, exactly
when some gate looks up a name that is no primary input, not its own name, and
not the name of an earlier gate of the table; otherwise it returns a circuit. -/
theorem compile_refuses_iff (net : Network) :
    ((∃ x, net.compile = .error (Fault.missingName x)) ↔ ReadsAhead net.inputs net.gates) ∧
      ((∃ C, net.compile = .ok C) ↔ ¬ ReadsAhead net.inputs net.gates) := by
  have hknown : ∀ l, ReadsAhead (net.inputQubits.2.map Prod.fst) l ↔ ReadsAhead net.inputs l := by
    intro l
    simp only [ReadsAhead, keys_inputQubits, List.mem_reverse]
  rcases foldlM_synthGate_ok_or_missing net.gates net.inputQubits with
    ⟨⟨r, hr⟩, hno⟩ | ⟨⟨x, hx⟩, hyes⟩
  · have hC : net.compile = .ok r.1 := by
      simp only [compile, hr, bind, Except.bind, pure, Except.pure]
    rw [hknown] at hno
    rw [hC]
    refine ⟨⟨?_, fun h => absurd h hno⟩, ⟨fun _ => hno, fun _ => ⟨r.1, rfl⟩⟩⟩
    rintro ⟨_, h⟩
    cases h
  · have hC : net.compile = .error (Fault.missingName x) := by
      simp only [compile, hx, bind, Except.bind]
    rw [hknown] at hyes
    rw [hC]
    refine ⟨⟨fun _ => hyes, fun _ => ⟨x, rfl⟩⟩, ⟨?_, fun h => absurd hyes h⟩⟩
    rintro ⟨_, h⟩
    cases h

example : compile
    { inputs := ["a"], outputs := ["y"], gates := [("y", .buffer "t"), ("t", .buffer "a")] } =
      .error (Fault.missingName "t") := rfl

end Network

end XagSynth
