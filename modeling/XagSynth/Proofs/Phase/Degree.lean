import Mathlib
import XagSynth.Proofs.Phase.Tables

/-!
# The functions a mod-8 phase polynomial reaches

Integer weights on the configs of `n ≥ 1` variables sum to `4 f` modulo 8 at
every input exactly when the algebraic normal form of `f` has degree at most 3
(`weights_iff_degree_le_three`): finite differences of order four or more
vanish modulo 8 on every config's table, and four times a monomial of degree at
most 3 is an integer combination of parities (`mem_paritySpan_andFn`).
-/

namespace XagSynth.Phase

open Finset

/-! ### Inputs as sets of variables -/

def point (U : Finset ℕ) : ℕ := ∑ i ∈ U, 2 ^ i

@[simp] theorem testBit_point (U : Finset ℕ) (i : ℕ) : (point U).testBit i = decide (i ∈ U) := by
  have h := Finset.toFinset_bitIndices_sum_two_pow U
  rw [← Bool.coe_iff_coe, ← Nat.mem_bitIndices, ← List.mem_toFinset]
  simp [point, h]

theorem point_lt {n : ℕ} {U : Finset ℕ} (hU : U ⊆ range n) : point U < 2 ^ n := by
  refine Nat.lt_pow_two_of_testBit _ fun i hi => ?_
  simpa [testBit_point] using fun h => absurd (mem_range.mp (hU h)) (by omega)

theorem exists_point {n x : ℕ} (hx : x < 2 ^ n) : ∃ U ⊆ range n, point U = x := by
  refine ⟨x.bitIndices.toFinset, fun i hi => mem_range.mpr ?_,
    Finset.sum_toFinset_bitIndices_two_pow x⟩
  have hbit : x.testBit i := Nat.mem_bitIndices.mp (List.mem_toFinset.mp hi)
  by_contra hni
  have hlt : x < 2 ^ i := lt_of_lt_of_le hx (Nat.pow_le_pow_right (by norm_num) (by omega))
  simp [Nat.testBit_eq_false_of_lt hlt] at hbit

/-! ### Affine functions -/

def affineAt (A : Finset ℕ) (a0 : ℕ) (U : Finset ℕ) : ℤ := (((A ∩ U).card + a0) % 2 : ℕ)

/-- The entry of a config's table at `x`, as an integer. -/
def Config.entry (c : Config) (x : ℕ) : ℤ := if c.value x then 1 else 0

/-- The variables a config takes, plain or negated. -/
def Config.support (c : Config) : Finset ℕ :=
  (range c.length).filter fun i => (c.map Fin.val).getD i 0 ≠ 0

theorem taken_point (c : Config) (U : Finset ℕ) :
    c.taken 0 (point U) = (c.support ∩ U).card := by
  rw [Config.taken, List.countP_eq_length_filter, ← List.toFinset_card_of_nodup
    (List.nodup_range.filter _)]
  congr 1
  ext i
  simp [Config.support, and_assoc]

theorem entry_point (c : Config) (U : Finset ℕ) :
    c.entry (point U) = affineAt c.support (c.count 2) U := by
  have h := valueFrom_eq_parity (point U) c 0
  rw [taken_point] at h
  rw [Config.entry, affineAt, ← h, Config.value]
  split <;> rfl

theorem affineAt_insert_of_not_mem {A : Finset ℕ} {i : ℕ} (hi : i ∉ A) (a0 : ℕ) (U : Finset ℕ) :
    affineAt A a0 (insert i U) = affineAt A a0 U := by
  rw [affineAt, affineAt, inter_insert_of_notMem hi]

/-! ### Finite differences -/

/-- The `S`-th finite difference of `g` at the empty input: the sum of `g` over
the subsets of `S`, each signed by the parity of what it leaves out of `S`. -/
def delta {R : Type*} [CommRing R] (g : Finset ℕ → R) (S : Finset ℕ) : R :=
  ∑ U ∈ S.powerset, (-1) ^ (S.card + U.card) * g U

section Delta

variable {R : Type*} [CommRing R]

theorem delta_sum {ι : Type*} (s : Finset ι) (w : ι → R) (g : ι → Finset ℕ → R)
    (S : Finset ℕ) : delta (fun U => ∑ c ∈ s, w c * g c U) S = ∑ c ∈ s, w c * delta (g c) S := by
  simp only [delta, mul_sum]
  rw [sum_comm]
  exact sum_congr rfl fun c _ => sum_congr rfl fun U _ => by ring

theorem delta_congr {g g' : Finset ℕ → R} {S : Finset ℕ} (h : ∀ U ⊆ S, g U = g' U) :
    delta g S = delta g' S :=
  sum_congr rfl fun U hU => by rw [h U (mem_powerset.mp hU)]

theorem intCast_delta (g : Finset ℕ → ℤ) (S : Finset ℕ) :
    ((delta g S : ℤ) : R) = delta (fun U => (g U : R)) S := by
  simp [delta]

theorem delta_eq_zero_of_indep {g : Finset ℕ → R} {S : Finset ℕ} {i : ℕ} (hi : i ∈ S)
    (h : ∀ U, g (insert i U) = g U) : delta g S = 0 := by
  rw [delta, ← insert_erase hi, sum_powerset_insert (notMem_erase i S), ← sum_add_distrib]
  refine sum_eq_zero fun U hU => ?_
  have hiU : i ∉ U := fun h => notMem_erase i S (mem_powerset.mp hU h)
  rw [card_insert_of_notMem hiU, h]
  ring

end Delta

theorem two_mul_mod_two (k : ℕ) : 2 * ((k % 2 : ℕ) : ℤ) = 1 - (-1) ^ k := by
  rcases Nat.even_or_odd k with hk | hk
  · rw [Nat.even_iff.mp hk, hk.neg_one_pow]
    norm_num
  · rw [Nat.odd_iff.mp hk, hk.neg_one_pow]
    norm_num

theorem two_mul_delta_affineAt {A S : Finset ℕ} (a0 : ℕ) (hSA : S ⊆ A) (hS : S.Nonempty) :
    2 * delta (affineAt A a0) S = -(-1) ^ (S.card + a0) * 2 ^ S.card := by
  have hterm : ∀ U ∈ S.powerset, 2 * ((-1) ^ (S.card + U.card) * affineAt A a0 U) =
      (-1) ^ S.card * (-1) ^ U.card - (-1) ^ (S.card + a0) := by
    intro U hU
    have hUA : A ∩ U = U := inter_eq_right.mpr ((mem_powerset.mp hU).trans hSA)
    have hsq : ((-1 : ℤ) ^ U.card) ^ 2 = 1 := by
      rw [← pow_mul, mul_comm, pow_mul]
      norm_num
    rw [affineAt, hUA, mul_left_comm, two_mul_mod_two]
    linear_combination (-(-1) ^ S.card * (-1) ^ a0 : ℤ) * hsq
  rw [delta, mul_sum, sum_congr rfl hterm, sum_sub_distrib, ← mul_sum,
    sum_powerset_neg_one_pow_card_of_nonempty hS, sum_const, card_powerset, nsmul_eq_mul]
  push_cast
  ring

theorem eight_dvd_delta_affineAt (A : Finset ℕ) (a0 : ℕ) {S : Finset ℕ} (hS : 4 ≤ S.card) :
    (8 : ℤ) ∣ delta (affineAt A a0) S := by
  by_cases hSA : S ⊆ A
  · have h := two_mul_delta_affineAt a0 hSA (card_pos.mp (by omega))
    have h16 : (16 : ℤ) ∣ 2 ^ S.card := by
      have hpow : (2 : ℤ) ^ S.card = 2 ^ 4 * 2 ^ (S.card - 4) := by
        rw [← pow_add]
        congr 1
        omega
      rw [hpow]
      exact dvd_mul_right _ _
    have h2 : (16 : ℤ) ∣ 2 * delta (affineAt A a0) S := h ▸ dvd_mul_of_dvd_right h16 _
    omega
  · obtain ⟨i, hiS, hiA⟩ := not_subset.mp hSA
    rw [delta_eq_zero_of_indep hiS (affineAt_insert_of_not_mem hiA a0)]
    exact dvd_zero 8

/-! ### The algebraic normal form -/

/-- The coefficient of the monomial over the variables `S` in the algebraic
normal form of `f`: whether `f` is true at an odd number of the points below `S`. -/
def anfCoeff (f : ℕ → Bool) (S : Finset ℕ) : Bool :=
  (S.powerset.filter fun U => f (point U)).card % 2 == 1

theorem four_mul_natCast (k : ℕ) : (4 * k : ZMod 8) = 4 * ((k % 2 : ℕ) : ZMod 8) := by
  have h8 : (8 : ZMod 8) = 0 := rfl
  have hk : (k : ZMod 8) = 2 * ((k / 2 : ℕ) : ZMod 8) + ((k % 2 : ℕ) : ZMod 8) := by
    conv_lhs => rw [← Nat.div_add_mod k 2]
    push_cast
    ring
  rw [hk]
  linear_combination ((k / 2 : ℕ) : ZMod 8) * h8

theorem four_anfCoeff (f : ℕ → Bool) (S : Finset ℕ) :
    (if anfCoeff f S then 4 else 0 : ZMod 8) = ∑ U ∈ S.powerset, if f (point U) then 4 else 0 := by
  rw [sum_ite, sum_const, sum_const_zero, add_zero, nsmul_eq_mul, mul_comm, four_mul_natCast]
  unfold anfCoeff
  rcases Nat.mod_two_eq_zero_or_one (S.powerset.filter fun U => f (point U)).card with h | h <;>
    simp [h]

theorem delta_four (f : ℕ → Bool) (S : Finset ℕ) :
    delta (fun U => if f (point U) then (4 : ZMod 8) else 0) S = if anfCoeff f S then 4 else 0 := by
  rw [four_anfCoeff, delta]
  refine sum_congr rfl fun U _ => ?_
  rcases neg_one_pow_eq_or (ZMod 8) (S.card + U.card) with h | h <;> rw [h] <;> split <;> decide

theorem four_eq_sum_anfCoeff (f : ℕ → Bool) (U : Finset ℕ) :
    (if f (point U) then 4 else 0 : ZMod 8) = ∑ V ∈ U.powerset, if anfCoeff f V then 4 else 0 := by
  simp_rw [four_anfCoeff]
  have hbetween : ∀ V W, V ∈ U.powerset ∧ W ∈ V.powerset ↔ V ∈ Icc W U ∧ W ∈ U.powerset := by
    intro V W
    simp only [mem_powerset, mem_Icc]
    exact ⟨fun ⟨hV, hW⟩ => ⟨⟨hW, hV⟩, hW.trans hV⟩, fun ⟨⟨hW, hV⟩, _⟩ => ⟨hV, hW⟩⟩
  rw [sum_comm' hbetween]
  simp only [sum_const]
  rw [sum_eq_single_of_mem U (mem_powerset_self U)]
  · rw [card_Icc_finset subset_rfl, Nat.sub_self, pow_zero, one_smul]
  · intro W hW hne
    have hlt : W.card < U.card := card_lt_card (ssubset_of_subset_of_ne (mem_powerset.mp hW) hne)
    obtain ⟨m, hm⟩ : ∃ m, U.card - W.card = m + 1 := ⟨U.card - W.card - 1, by omega⟩
    have h8 : (8 : ZMod 8) = 0 := rfl
    rw [card_Icc_finset (mem_powerset.mp hW), hm, nsmul_eq_mul]
    split
    · push_cast
      linear_combination (2 ^ m : ZMod 8) * h8
    · rw [mul_zero]

/-! ### Weights leave the degree at most 3 -/

theorem degree_le_three_of_weights {n : ℕ} {f : ℕ → Bool} {w : Config → ℤ}
    (hw : ∀ x < 2 ^ n,
      ((∑ c ∈ (configs n).toFinset, w c * c.entry x : ℤ) : ZMod 8) = if f x then 4 else 0) :
    ∀ S ⊆ range n, anfCoeff f S = true → S.card ≤ 3 := by
  intro S hS hanf
  by_contra hcard
  have hpoint : ∀ U ⊆ S, (if f (point U) then (4 : ZMod 8) else 0) =
      ∑ c ∈ (configs n).toFinset,
        (w c : ZMod 8) * (affineAt c.support (c.count 2) U : ZMod 8) := by
    intro U hU
    rw [← hw _ (point_lt (hU.trans hS))]
    push_cast [entry_point]
    rfl
  have hconfig : ∀ c ∈ (configs n).toFinset,
      (w c : ZMod 8) * delta (fun U => (affineAt c.support (c.count 2) U : ZMod 8)) S = 0 := by
    intro c _
    obtain ⟨k, hk⟩ := eight_dvd_delta_affineAt c.support (c.count 2) (S := S) (by omega)
    rw [← intCast_delta, hk]
    push_cast
    rw [show (8 : ZMod 8) = 0 from rfl, zero_mul, mul_zero]
  have h := delta_four f S
  rw [hanf, delta_congr hpoint, delta_sum, sum_eq_zero hconfig] at h
  exact absurd h (by decide)

/-! ### Functions of degree at most 3 have weights -/

def Config.entryFn (c : Config) (U : Finset ℕ) : ℤ := c.entry (point U)

/-- The integer functions of the inputs that integer weights on the configs of
`n` variables give. -/
def reachable (n : ℕ) : Submodule ℤ (Finset ℕ → ℤ) :=
  Submodule.span ℤ (Config.entryFn '' ↑(configs n).toFinset)

theorem mem_reachable {n : ℕ} {h : Finset ℕ → ℤ} :
    h ∈ reachable n ↔
      ∃ w : Config → ℤ, ∀ U, h U = ∑ c ∈ (configs n).toFinset, w c * c.entry (point U) := by
  rw [reachable, Submodule.mem_span_image_finset_iff_exists_fun']
  constructor
  · rintro ⟨w, hw⟩
    exact ⟨w, fun U => by simp [← hw, Config.entryFn]⟩
  · rintro ⟨w, hw⟩
    exact ⟨w, funext fun U => by simp [hw U, Config.entryFn]⟩

theorem support_put {n : ℕ} {W : Finset ℕ} {d : Fin 3} (hW : W ⊆ range n) (hd : d.val ≠ 0) :
    Config.support ((List.range n).map fun i => if i ∈ W then d else 0) = W := by
  ext i
  by_cases hi : i < n
  · by_cases hiW : i ∈ W <;>
      simp [Config.support, hi, hiW, hd, List.getD_eq_getElem?_getD]
  · have hiW : i ∉ W := fun h => hi (mem_range.mp (hW h))
    simp [Config.support, hi, hiW]

theorem exists_config_parity {n : ℕ} {W : Finset ℕ} (hW : W ⊆ range n) :
    ∃ c ∈ configs n, c.entryFn = affineAt W 0 := by
  refine ⟨(List.range n).map fun i => if i ∈ W then 1 else 0, mem_configs.mpr (by simp),
    funext fun U => ?_⟩
  have hcount : ((List.range n).map fun i => if i ∈ W then (1 : Fin 3) else 0).count 2 = 0 :=
    List.count_eq_zero.mpr fun h => by
      obtain ⟨i, -, hi⟩ := List.mem_map.mp h
      split at hi <;> exact absurd hi (by decide)
  rw [Config.entryFn, entry_point, support_put hW (by decide), hcount]

theorem exists_config_negation {n : ℕ} (hn : 1 ≤ n) :
    ∃ c ∈ configs n, c.entryFn = affineAt {0} 1 := by
  refine ⟨(List.range n).map fun i => if i ∈ ({0} : Finset ℕ) then 2 else 0,
    mem_configs.mpr (by simp), funext fun U => ?_⟩
  have hcount : ((List.range n).map fun i =>
      if i ∈ ({0} : Finset ℕ) then (2 : Fin 3) else 0).count 2 = 1 := by
    obtain ⟨m, rfl⟩ : ∃ m, n = m + 1 := ⟨n - 1, by omega⟩
    rw [List.range_succ_eq_map, List.map_cons, List.map_map, List.count_cons]
    simp [Function.comp_def, List.count_eq_zero]
  rw [Config.entryFn, entry_point,
    support_put (singleton_subset_iff.mpr (mem_range.mpr hn)) (by decide), hcount]

def parityFn (W : Finset ℕ) : Finset ℕ → ℤ := affineAt W 0

theorem parityFn_mem_reachable {n : ℕ} {W : Finset ℕ} (hW : W ⊆ range n) :
    parityFn W ∈ reachable n := by
  obtain ⟨c, hc, hcW⟩ := exists_config_parity hW
  exact Submodule.subset_span ⟨c, by simpa using hc, hcW⟩

theorem one_mem_reachable {n : ℕ} (hn : 1 ≤ n) : (fun _ => 1) ∈ reachable n := by
  obtain ⟨c1, hc1, h1⟩ := exists_config_parity (singleton_subset_iff.mpr (mem_range.mpr hn))
  obtain ⟨c2, hc2, h2⟩ := exists_config_negation hn
  have hsum : (fun _ => (1 : ℤ)) = c1.entryFn + c2.entryFn := by
    funext U
    rw [Pi.add_apply, h1, h2, affineAt, affineAt]
    rcases Nat.mod_two_eq_zero_or_one ((({0} : Finset ℕ) ∩ U).card) with h | h <;>
      simp [Nat.add_mod, h]
  rw [hsum]
  exact Submodule.add_mem _ (Submodule.subset_span ⟨c1, by simpa using hc1, rfl⟩)
    (Submodule.subset_span ⟨c2, by simpa using hc2, rfl⟩)

def paritySpan (V : Finset ℕ) : Submodule ℤ (Finset ℕ → ℤ) :=
  Submodule.span ℤ (parityFn '' ↑V.powerset)

theorem parityFn_mem_paritySpan {V W : Finset ℕ} (hW : W ⊆ V) : parityFn W ∈ paritySpan V :=
  Submodule.subset_span ⟨W, mem_coe.mpr (mem_powerset.mpr hW), rfl⟩

theorem paritySpan_le_reachable {n : ℕ} {V : Finset ℕ} (hV : V ⊆ range n) :
    paritySpan V ≤ reachable n := by
  refine Submodule.span_le.mpr ?_
  rintro _ ⟨W, hW, rfl⟩
  exact parityFn_mem_reachable ((mem_powerset.mp (mem_coe.mp hW)).trans hV)

def andFn (V U : Finset ℕ) : ℤ := if V ⊆ U then 1 else 0

theorem two_mul_andFn_parityFn {i : ℕ} {W : Finset ℕ} (hi : i ∉ W) (U : Finset ℕ) :
    2 * andFn {i} U * parityFn W U = parityFn {i} U + parityFn W U - parityFn (insert i W) U := by
  simp only [andFn, parityFn, affineAt, add_zero, singleton_subset_iff]
  by_cases hiU : i ∈ U
  · rw [insert_inter_of_mem hiU, card_insert_of_notMem fun h => hi (mem_inter.mp h).1,
      singleton_inter_of_mem hiU, card_singleton, if_pos hiU]
    push_cast
    omega
  · rw [insert_inter_of_notMem hiU, singleton_inter_of_notMem hiU, card_empty, if_neg hiU]
    push_cast
    ring

theorem andFn_insert (i : ℕ) (V U : Finset ℕ) :
    andFn (insert i V) U = andFn {i} U * andFn V U := by
  by_cases hi : i ∈ U <;> by_cases hV : V ⊆ U <;> simp [andFn, insert_subset_iff, hi, hV]

theorem two_mul_andFn_mem_paritySpan {i : ℕ} {V : Finset ℕ} (hi : i ∉ V) {h : Finset ℕ → ℤ}
    (hh : h ∈ paritySpan V) : (fun U => 2 * andFn {i} U * h U) ∈ paritySpan (insert i V) := by
  induction hh using Submodule.span_induction with
  | mem g hg =>
    obtain ⟨W, hW, rfl⟩ := hg
    have hWV : W ⊆ insert i V := (mem_powerset.mp hW).trans (subset_insert i V)
    rw [funext (two_mul_andFn_parityFn fun h => hi (mem_powerset.mp hW h))]
    exact Submodule.sub_mem _ (Submodule.add_mem _
      (parityFn_mem_paritySpan (singleton_subset_iff.mpr (mem_insert_self i V)))
      (parityFn_mem_paritySpan hWV))
      (parityFn_mem_paritySpan (insert_subset (mem_insert_self i V) hWV))
  | zero =>
    convert (paritySpan (insert i V)).zero_mem using 1
    funext U
    simp
  | add g g' _ _ hg hg' =>
    convert Submodule.add_mem _ hg hg' using 1
    funext U
    simp [mul_add]
  | smul a g _ hg =>
    convert Submodule.smul_mem _ a hg using 1
    funext U
    simp only [Pi.smul_apply, smul_eq_mul]
    ring

theorem mem_paritySpan_andFn {V : Finset ℕ} (hV : V.Nonempty) :
    (2 ^ (V.card - 1) : ℤ) • andFn V ∈ paritySpan V := by
  induction hV using Finset.Nonempty.cons_induction with
  | singleton i =>
    have h : (2 ^ (({i} : Finset ℕ).card - 1) : ℤ) • andFn {i} = parityFn {i} := by
      funext U
      by_cases hiU : i ∈ U <;> simp [andFn, parityFn, affineAt, hiU]
    rw [h]
    exact parityFn_mem_paritySpan subset_rfl
  | cons i V hi hV ih =>
    have hpow : (2 : ℤ) ^ ((insert i V).card - 1) = 2 * 2 ^ (V.card - 1) := by
      rw [card_insert_of_notMem hi, Nat.add_sub_cancel, ← pow_succ']
      have := hV.card_pos
      congr 1
      omega
    rw [cons_eq_insert]
    convert two_mul_andFn_mem_paritySpan hi ih using 1
    funext U
    simp only [Pi.smul_apply, smul_eq_mul, hpow, andFn_insert]
    ring

theorem four_smul_andFn_mem_reachable {n : ℕ} (hn : 1 ≤ n) {V : Finset ℕ} (hV : V ⊆ range n)
    (hcard : V.card ≤ 3) : (4 : ℤ) • andFn V ∈ reachable n := by
  rcases V.eq_empty_or_nonempty with rfl | hne
  · -- the empty AND is the constant one
    have hone : andFn ∅ = fun _ => 1 := funext fun U => by simp [andFn]
    rw [hone]
    exact Submodule.smul_mem _ _ (one_mem_reachable hn)
  · have h4 : (4 : ℤ) • andFn V =
        (2 ^ (3 - V.card) : ℤ) • ((2 ^ (V.card - 1) : ℤ) • andFn V) := by
      have := hne.card_pos
      rw [smul_smul, ← pow_add, show 3 - V.card + (V.card - 1) = 2 by omega]
      norm_num
    rw [h4]
    exact Submodule.smul_mem _ _ (paritySpan_le_reachable hV (mem_paritySpan_andFn hne))

theorem weights_of_degree_le_three {n : ℕ} (hn : 1 ≤ n) {f : ℕ → Bool}
    (hdeg : ∀ S ⊆ range n, anfCoeff f S = true → S.card ≤ 3) :
    ∃ w : Config → ℤ, ∀ x < 2 ^ n,
      ((∑ c ∈ (configs n).toFinset, w c * c.entry x : ℤ) : ZMod 8) = if f x then 4 else 0 := by
  have hmem : (∑ V ∈ (range n).powerset.filter (fun V => anfCoeff f V), (4 : ℤ) • andFn V) ∈
      reachable n := by
    refine Submodule.sum_mem _ fun V hV => ?_
    obtain ⟨hV, hanf⟩ := mem_filter.mp hV
    exact four_smul_andFn_mem_reachable hn (mem_powerset.mp hV) (hdeg V (mem_powerset.mp hV) hanf)
  obtain ⟨w, hw⟩ := mem_reachable.mp hmem
  refine ⟨w, fun x hx => ?_⟩
  obtain ⟨U, hU, rfl⟩ := exists_point hx
  rw [← hw U, four_eq_sum_anfCoeff]
  let g : Finset ℕ → ZMod 8 := fun V => if anfCoeff f V then (if V ⊆ U then 4 else 0) else 0
  calc (((∑ V ∈ (range n).powerset.filter (fun V => anfCoeff f V), (4 : ℤ) • andFn V) U : ℤ) :
          ZMod 8)
      = ∑ V ∈ (range n).powerset, g V := by
        rw [Finset.sum_apply, sum_filter]
        push_cast [Pi.smul_apply, smul_eq_mul, andFn]
        exact sum_congr rfl fun V _ => by simp only [g]; split_ifs <;> simp
    _ = ∑ V ∈ U.powerset, g V :=
        (sum_subset (powerset_mono.mpr hU) fun V _ hV => by
          simp [g, mem_powerset.not.mp hV]).symm
    _ = ∑ V ∈ U.powerset, if anfCoeff f V then 4 else 0 :=
        sum_congr rfl fun V hV => by simp [g, mem_powerset.mp hV]

theorem weights_iff_degree_le_three {n : ℕ} (hn : 1 ≤ n) (f : ℕ → Bool) :
    (∃ w : Config → ℤ, ∀ x < 2 ^ n,
        ((∑ c ∈ (configs n).toFinset, w c * c.entry x : ℤ) : ZMod 8) = if f x then 4 else 0) ↔
      ∀ S ⊆ range n, anfCoeff f S = true → S.card ≤ 3 :=
  ⟨fun ⟨_, hw⟩ => degree_le_three_of_weights hw, weights_of_degree_le_three hn⟩

end XagSynth.Phase
