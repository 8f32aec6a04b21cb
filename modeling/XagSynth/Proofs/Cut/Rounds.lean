import XagSynth.Proofs.Cut.Block

/-!
# Loops run round by round

`Rounds round k s log r` says that a loop from `s` ends with `r` after `k`
rounds, each failing, stopping or going on. A fuelled run gives that end once
its fuel covers the rounds (`Rounds.fuel_eq`), and a measure lowered by every
continuing round bounds them (`Rounds.exists_of_measure`); absorption and growth
are such loops.
-/

namespace XagSynth

/-- A loop run to its end: from `s` it ends with `r` after `k` rounds of `round`,
having logged `log`. -/
inductive Rounds {σ τ ρ ε : Type} (round : σ → Except ε (List τ × (ρ ⊕ σ))) :
    Nat → σ → List τ → Except ε ρ → Prop
  | fault {s : σ} {f : ε} : round s = .error f → Rounds round 1 s [] (.error f)
  | stop {s : σ} {l : List τ} {r : ρ} : round s = .ok (l, .inl r) → Rounds round 1 s l (.ok r)
  | next {k : Nat} {s s' : σ} {l l' : List τ} {r : Except ε ρ} : round s = .ok (l, .inr s') →
      Rounds round k s' l' r → Rounds round (k + 1) s (l ++ l') r

namespace Rounds

variable {σ τ ρ ε : Type} {round : σ → Except ε (List τ × (ρ ⊕ σ))}

theorem fuel_eq (f : Nat → σ → Except ε ρ)
    (hf : ∀ fuel s, f (fuel + 1) s = round s >>= fun o => o.2.elim .ok (f fuel))
    {k : Nat} {s : σ} {log : List τ} {r : Except ε ρ} (h : Rounds round k s log r) :
    ∀ fuel, k ≤ fuel → f fuel s = r := by
  induction h with
  | fault hs =>
    intro fuel hk
    obtain ⟨n, rfl⟩ : ∃ n, fuel = n + 1 := ⟨fuel - 1, by omega⟩
    rw [hf, hs]
    rfl
  | stop hs =>
    intro fuel hk
    obtain ⟨n, rfl⟩ : ∃ n, fuel = n + 1 := ⟨fuel - 1, by omega⟩
    rw [hf, hs]
    rfl
  | next hs _ ih =>
    intro fuel hk
    obtain ⟨n, rfl⟩ : ∃ n, fuel = n + 1 := ⟨fuel - 1, by omega⟩
    rw [hf, hs]
    exact ih n (by omega)

theorem exists_of_measure (Inv : List τ → σ → Prop) (μ : List τ → σ → Nat)
    (P : List τ → Prop)
    (hnext : ∀ d s l s', Inv d s → round s = .ok (l, .inr s') →
      Inv (d ++ l) s' ∧ μ (d ++ l) s' < μ d s)
    (hstop : ∀ d s l r, Inv d s → round s = .ok (l, .inl r) → P (d ++ l))
    (hfault : ∀ d s f, Inv d s → round s = .error f → P d) :
    ∀ d s, Inv d s → ∃ k log r, k ≤ μ d s + 1 ∧ Rounds round k s log r ∧ P (d ++ log) := by
  intro d s hInv
  induction hμ : μ d s using Nat.strong_induction_on generalizing d s with
  | _ n ih =>
    cases hr : round s with
    | error f => exact ⟨1, [], .error f, by omega, .fault hr, by simpa using hfault d s f hInv hr⟩
    | ok o =>
      obtain ⟨l, o⟩ := o
      cases o with
      | inl r => exact ⟨1, l, .ok r, by omega, .stop hr, hstop d s l r hInv hr⟩
      | inr s' =>
        obtain ⟨hInv', hlt⟩ := hnext d s l s' hInv hr
        obtain ⟨k, log, r, hk, hrun, hP⟩ := ih _ (hμ ▸ hlt) (d ++ l) s' hInv' rfl
        exact ⟨k + 1, l ++ log, r, by omega, .next hr hrun, by simpa using hP⟩

theorem last (Inv : σ → Prop) (hnext : ∀ s l s', Inv s → round s = .ok (l, .inr s') → Inv s')
    {k : Nat} {s : σ} {log : List τ} {r : Except ε ρ} (h : Rounds round k s log r) (hs : Inv s) :
    ∃ s', Inv s' ∧ ((∃ f, round s' = .error f ∧ r = .error f) ∨
      ∃ l x, round s' = .ok (l, .inl x) ∧ r = .ok x) := by
  induction h with
  | fault hr => exact ⟨_, hs, .inl ⟨_, hr, rfl⟩⟩
  | stop hr => exact ⟨_, hs, .inr ⟨_, _, hr, rfl⟩⟩
  | next hr _ ih => exact ih (hnext _ _ _ hs hr)

end Rounds

theorem filterAuxM_sublist {α ε : Type} {p : α → Except ε Bool} :
    ∀ (l acc r : List α), List.filterAuxM p l acc = .ok r → ∃ s : List α, s.Sublist l ∧ r = s.reverse ++ acc
  | [], acc, r, h => by
    simp only [List.filterAuxM, pure, Except.pure, Except.ok.injEq] at h
    exact ⟨[], .slnil, by simp [h]⟩
  | a :: l, acc, r, h => by
    simp only [List.filterAuxM] at h
    obtain ⟨b, -, h⟩ := bind_eq_ok h
    obtain ⟨s, hs, rfl⟩ := filterAuxM_sublist l _ r h
    cases b with
    | true => exact ⟨a :: s, hs.cons_cons a, by simp⟩
    | false => exact ⟨s, hs.cons a, rfl⟩

theorem sublist_of_filterM {α ε : Type} {p : α → Except ε Bool} {l r : List α}
    (h : l.filterM p = .ok r) : r.Sublist l := by
  unfold List.filterM at h
  obtain ⟨r', h', hr⟩ := bind_eq_ok h
  simp only [pure, Except.pure, Except.ok.injEq] at hr
  obtain ⟨s, hs, rfl⟩ := filterAuxM_sublist l [] r' h'
  simpa [← hr] using hs

namespace Network

variable {net : Network}

/-- One round of absorption: the XOR gates among the leaves are exposed and
their inputs join the leaves. The loop stops after a round that exposes none. -/
def absorbRound (net : Network) (s : List String × List String) :
    Except Fault (List String × (List String × List String ⊕ List String × List String)) :=
  let xs := s.1.filter net.isXorGate
  let exposed := Text.nameUnion s.2 xs
  let next := (Text.nameDiff (Text.nameUnion s.1 (xs.flatMap net.inputsOf)) exposed, exposed)
  .ok (xs, if xs.isEmpty then .inl next else .inr next)

theorem absorb_succ (net : Network) (fuel : Nat) (s : List String × List String) :
    (.ok (net.absorb (fuel + 1) s.1 s.2) : Except Fault (List String × List String)) =
      net.absorbRound s >>= fun o => o.2.elim .ok fun s' => .ok (net.absorb fuel s'.1 s'.2) := by
  by_cases h : (s.1.filter net.isXorGate).isEmpty <;>
    simp [absorb, absorbRound, h, bind, Except.bind]

/-- One round of growth of a product: while the bound admits the product, its
expandable names are replaced by their inputs, and the loop goes on while the
bound admits the result. The round logs the names it expanded. -/
def growRound (net : Network) (b : Bound) (p : List String) :
    Except Fault (List String × (List String ⊕ List String)) := do
  if ← b.admits p.length then
    let e ← p.filterM net.expandable
    if e.isEmpty then return ([], .inl p)
    let p' := net.expand p e
    if ← b.admits p'.length then return (e, .inr p') else return (e, .inl p')
  else return ([], .inl p)

theorem grow_succ (net : Network) (b : Bound) (fuel : Nat) (p : List String) :
    net.grow b (fuel + 1) p = net.growRound b p >>= fun o => o.2.elim .ok (net.grow b fuel) := by
  simp only [grow, growRound, expand]
  rcases b.admits p.length with f | _ | _
  · rfl
  · rfl
  · rcases p.filterM net.expandable with f | e
    · rfl
    · by_cases he : e.isEmpty
      · simp [he, bind, Except.bind, pure, Except.pure]
      · simp only [he, Bool.false_eq_true, if_false, bind, Except.bind, pure, Except.pure]
        cases b.admits (Text.nameDiff (Text.nameUnion p (e.flatMap net.inputsOf)) e).length with
        | error f => rfl
        | ok c => cases c <;> rfl

theorem growRound_ok {b : Bound} {p e : List String} {o : List String ⊕ List String}
    (h : net.growRound b p = .ok (e, o)) :
    (e = [] ∧ o = .inl p) ∨
      (b.admits p.length = .ok true ∧ p.filterM net.expandable = .ok e ∧ e ≠ [] ∧
        (o = .inl (net.expand p e) ∨
          (b.admits (net.expand p e).length = .ok true ∧ o = .inr (net.expand p e)))) := by
  simp only [growRound] at h
  obtain ⟨c, hc, h⟩ := bind_eq_ok h
  cases c with
  | false =>
    cases h
    exact Or.inl ⟨rfl, rfl⟩
  | true =>
    obtain ⟨e', he', h⟩ := bind_eq_ok h
    by_cases hne : e'.isEmpty
    · simp only [hne, if_true, pure, Except.pure, Except.ok.injEq, Prod.mk.injEq] at h
      exact Or.inl ⟨h.1.symm, h.2.symm⟩
    · simp only [hne, Bool.false_eq_true, if_false] at h
      obtain ⟨c', hc', h⟩ := bind_eq_ok h
      have hne' : e' ≠ [] := by simpa using hne
      cases c' with
      | false =>
        simp only [Bool.false_eq_true, if_false, pure, Except.pure, Except.ok.injEq,
          Prod.mk.injEq] at h
        obtain ⟨rfl, rfl⟩ := h
        exact Or.inr ⟨hc, he', hne', Or.inl rfl⟩
      | true =>
        simp only [if_true, pure, Except.pure, Except.ok.injEq, Prod.mk.injEq] at h
        obtain ⟨rfl, rfl⟩ := h
        exact Or.inr ⟨hc, he', hne', Or.inr ⟨hc', rfl⟩⟩

end Network

end XagSynth
