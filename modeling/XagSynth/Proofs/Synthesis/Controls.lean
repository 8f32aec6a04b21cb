import XagSynth.Proofs.Synthesis.Mapping

/-!
# Products fit the multi-controlled X

Block synthesis enumerates blocks under the bound two, so its products have at
most two names and it never fails with `Fault.controls`
(`products_fit_bound`); which faults a computation can end in is followed with
`FailsWith`.
-/

namespace XagSynth

/-- A computation that fails, if it fails, with a fault satisfying `Q`. -/
def FailsWith {ε α : Type} (Q : ε → Prop) (x : Except ε α) : Prop := ∀ f, x = .error f → Q f

namespace FailsWith

variable {ε α β : Type} {Q : ε → Prop}

theorem ok (a : α) : FailsWith Q (.ok a : Except ε α) := fun _ h => by cases h

theorem error {f : ε} (hf : Q f) : FailsWith Q (.error f : Except ε α) := fun _ h => by
  cases h
  exact hf

theorem bind {x : Except ε α} {g : α → Except ε β} (hx : FailsWith Q x)
    (hg : ∀ a, x = .ok a → FailsWith Q (g a)) : FailsWith Q (x >>= g) := by
  intro f h
  cases hx' : x with
  | error f' =>
    rw [hx'] at h
    cases h
    exact hx _ hx'
  | ok a =>
    rw [hx'] at h
    exact hg a hx' f h

theorem mapM {g : α → Except ε β} :
    ∀ {l : List α}, (∀ a ∈ l, FailsWith Q (g a)) → FailsWith Q (l.mapM g)
  | [], _ => ok []
  | a :: l, h => by
    rw [List.mapM_cons]
    exact (h a List.mem_cons_self).bind fun b _ =>
      (mapM fun x hx => h x (List.mem_cons_of_mem a hx)).bind fun _ _ => ok _

theorem foldlM {g : β → α → Except ε β} :
    ∀ {l : List α}, (∀ a ∈ l, ∀ b, FailsWith Q (g b a)) → ∀ b, FailsWith Q (l.foldlM g b)
  | [], _, b => ok b
  | a :: l, h, b => by
    rw [List.foldlM_cons]
    exact (h a List.mem_cons_self b).bind fun b' _ =>
      foldlM (fun x hx => h x (List.mem_cons_of_mem a hx)) b'

theorem filterAuxM {p : α → Except ε Bool} :
    ∀ {l : List α} (acc : List α), (∀ a ∈ l, FailsWith Q (p a)) →
      FailsWith Q (List.filterAuxM p l acc)
  | [], acc, _ => ok acc
  | a :: l, acc, h => by
    simp only [List.filterAuxM]
    exact (h a List.mem_cons_self).bind fun b _ =>
      filterAuxM _ fun x hx => h x (List.mem_cons_of_mem a hx)

theorem filterM {p : α → Except ε Bool} {l : List α} (h : ∀ a ∈ l, FailsWith Q (p a)) :
    FailsWith Q (l.filterM p) :=
  (filterAuxM [] h).bind fun _ _ => ok _

end FailsWith

/-- A fault other than the refusal of too many controls. -/
def Fault.NotControls (f : Fault) : Prop := ∀ k, f ≠ .controls k

namespace Network

variable {net : Network}

section Faults

theorem expandable_fails (x : String) : FailsWith Fault.NotControls (net.expandable x) := by
  unfold expandable fanoutCount
  split_ifs
  · exact .ok _
  · split
    · exact .error fun _ h => by cases h
    · split_ifs
      · split
        · exact .error fun _ h => by cases h
        · exact .ok _
      · exact .ok _

theorem growRound_fails (m : Int) (p : List String) :
    FailsWith Fault.NotControls (net.growRound (.count m) p) := by
  unfold growRound
  refine (FailsWith.ok _).bind fun c _ => ?_
  cases c with
  | false => exact .ok _
  | true =>
    refine (FailsWith.filterM fun x _ => expandable_fails x).bind fun e _ => ?_
    split
    · exact .ok _
    · refine (FailsWith.ok _).bind fun c' _ => ?_
      split <;> exact .ok _

theorem grow_fails (m : Int) : ∀ (fuel : Nat) (p : List String),
    FailsWith Fault.NotControls (net.grow (.count m) fuel p) := by
  intro fuel
  induction fuel with
  | zero => exact fun p => .ok p
  | succ fuel ih =>
    intro p
    rw [grow_succ]
    refine (growRound_fails m p).bind fun o _ => ?_
    rcases o with ⟨e, r | p'⟩
    · exact .ok r
    · exact ih p'

theorem cuts_fails (m : Int) : FailsWith Fault.NotControls (net.cuts (.count m)) := by
  unfold cuts
  refine FailsWith.foldlM (fun e _ t => ?_) _
  refine FailsWith.bind ?_ fun _ _ => .ok _
  unfold cutOf
  split_ifs
  · exact .ok _
  · exact (FailsWith.mapM fun l _ => grow_fails m _ [l]).bind fun _ _ => .ok _

end Faults

end Network

namespace BlockMap

open Network

theorem visit_fails {cs : List (String × Cut)}
    (hcs : ∀ x n exposed products, cs.lookup x = some (.block n exposed products) →
      ∀ p ∈ products, p.length ≤ 2) :
    ∀ (fuel : Nat) (path : List String) (node : String) (st : BlockMap),
      FailsWith Fault.NotControls (visit cs fuel path node st) := by
  intro fuel
  induction fuel with
  | zero => exact fun _ _ _ => .error fun _ h => by cases h
  | succ fuel ih =>
    intro path node st
    unfold visit
    split
    · exact .ok _
    split
    · exact .error fun _ h => by cases h
    · exact .error fun _ h => by cases h
    · exact .error fun _ h => by cases h
    · rename_i n exposed products hc
      split
      · exact .error fun _ h => by cases h
      refine (FailsWith.foldlM (fun l _ st => ih (node :: path) l st) st).bind fun st1 _ => ?_
      refine FailsWith.bind ?_ fun _ _ => .ok _
      refine FailsWith.mapM fun p hp => ?_
      refine (FailsWith.mapM fun x _ => ?_).bind fun qs hqs => ?_
      · unfold QubitMap.find
        split
        · exact .ok _
        · exact .error fun _ h => by cases h
      · -- the controls are the qubits of the product's names, at most two
        have hlen : qs.length = p.length := (forall₂_of_mapM hqs).length_eq.symm
        have hfit : qs.length ≤ 2 := by
          rw [hlen]
          exact hcs node n exposed products hc p hp
        have hps : (p.map fun _ => false).length = qs.length := by rw [List.length_map, hlen]
        obtain ⟨gs, hgs⟩ := mcxGates_ok hfit hps st1.circuit.width false
        rw [hgs]
        exact .ok gs

end BlockMap

namespace Network

/-- For every network read from a netlist and every bound `m`, the products that
block enumeration gives an XOR or buffer gate have at most `max 1 (2 * (m - 1))`
names. Under the bound two that block synthesis uses they have at most two, and
block synthesis never refuses a product for its number of controls. -/
theorem products_fit_bound {text : String} {net : Network} (hread : ofVerilog text = .ok net)
    (m : Int) :
    (∀ cs, net.cuts (.count m) = .ok cs → ∀ x n exposed products,
      cs.lookup x = some (.block n exposed products) →
        ∀ p ∈ products, (p.length : Int) ≤ max 1 (2 * (m - 1))) ∧
    ∀ k, net.compileBlocks ≠ .error (.controls k) := by
  have hkeys := keys_nodup_of_ofVerilog hread
  have hblocks : ∀ (b : Int) cs, net.cuts (.count b) = .ok cs → ∀ x n exposed products,
      cs.lookup x = some (.block n exposed products) →
        ∀ p ∈ products, (p.length : Int) ≤ max 1 (2 * (b - 1)) := by
    intro b cs hcs x n exposed products hx
    rcases cutsOf_cuts hkeys hcs x _ hx with ⟨-, hsrc⟩ | ⟨g, -, hcut⟩
    · cases hsrc
    · exact length_le_of_cutOf hcut
  refine ⟨hblocks m, fun k hk => ?_⟩
  have hfails : FailsWith Fault.NotControls net.compileBlocks := by
    unfold compileBlocks
    refine (cuts_fails 2).bind fun cs hcs => ?_
    have hle : ∀ x n exposed products, cs.lookup x = some (.block n exposed products) →
        ∀ p ∈ products, p.length ≤ 2 := by
      intro x n exposed products hx p hp
      have := hblocks 2 cs hcs x n exposed products hx p hp
      omega
    exact FailsWith.foldlM (fun o _ st => BlockMap.visit_fails hle _ [] o st) _
  exact hfails _ hk k rfl

/-- A product of two names: for `y = t ^ c` with `t = a & b` read once, the
block of `y` expands `t` to `a` and `b` under the bound two, and block synthesis
does not refuse it for its controls. -/
theorem products_fit_bound_and_xor :
    ∃ (net : Network) (cs : List (String × Cut)),
      ofVerilog "module top(a, b, c, y);\ninput a, b, c;\noutput y;\nwire t;\nassign t = a & b;\nassign y = t ^ c;\nendmodule\n" = .ok net ∧
      net.cuts (.count 2) = .ok cs ∧ cs.lookup "y" = some (.block "y" ["y"] [["c"], ["a", "b"]]) ∧
      (∀ p ∈ [["c"], ["a", "b"]], (p.length : Int) ≤ max 1 (2 * (2 - 1))) ∧
      ∀ k, net.compileBlocks ≠ .error (.controls k) := by
  have hcs : andXorNet.cuts (.count 2) = .ok [("a", .source "a"), ("b", .source "b"),
      ("c", .source "c"), ("t", .conj "t" ["a", "b"]), ("y", .block "y" ["y"] [["c"], ["a", "b"]])] :=
    rfl
  obtain ⟨hsize, hctl⟩ := products_fit_bound ofVerilog_andXorNet 2
  exact ⟨andXorNet, _, ofVerilog_andXorNet, hcs, rfl, hsize _ hcs "y" _ _ _ rfl, hctl⟩

end Network

end XagSynth
