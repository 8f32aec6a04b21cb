import Mathlib
import XagSynth.Phase.Affine

/-!
# The affine tables

`affineTables n` holds one entry per config, `3 ^ n` in all and no config twice
(`affineTables_spec`), and its tables are the affine functions
`x ↦ a0 ⊕ ⨁ aᵢ xᵢ` (`affineTable`) other than the constant one
(`exists_config`), distinct coefficients giving distinct tables.
-/

namespace XagSynth.Phase

/-! ### Configs -/

theorem mem_configs {c : Config} : ∀ {n : Nat}, c ∈ configs n ↔ c.length = n
  | 0 => by cases c <;> simp [configs]
  | n + 1 => by
    cases c with
    | nil => simp [configs]
    | cons d ds =>
      simp only [configs, List.mem_flatMap, List.mem_map, List.cons.injEq, List.length_cons,
        Nat.add_right_cancel_iff]
      constructor
      · rintro ⟨d', -, c', hc', rfl, rfl⟩
        exact mem_configs.mp hc'
      · intro h
        exact ⟨d, by fin_cases d <;> simp, ds, mem_configs.mpr h, rfl, rfl⟩

theorem nodup_configs : ∀ n, (configs n).Nodup
  | 0 => List.nodup_singleton _
  | n + 1 => by
    refine List.nodup_flatMap.mpr ⟨fun d _ => (nodup_configs n).map List.cons_injective, ?_⟩
    have hdisj : ∀ d d' : Fin 3, d ≠ d' →
        List.Disjoint ((configs n).map (d :: ·)) ((configs n).map (d' :: ·)) := by
      intro d d' hne c hc hc'
      obtain ⟨_, -, rfl⟩ := List.mem_map.mp hc
      obtain ⟨_, -, h⟩ := List.mem_map.mp hc'
      exact hne (List.cons.inj h).1.symm
    refine List.pairwise_cons.mpr ⟨?_, List.pairwise_cons.mpr ⟨?_, List.pairwise_singleton _ _⟩⟩
    · intro d hd
      rcases List.mem_cons.mp hd with rfl | hd
      · exact hdisj 0 1 (by decide)
      · rw [List.mem_singleton.mp hd]
        exact hdisj 0 2 (by decide)
    · intro d hd
      rw [List.mem_singleton.mp hd]
      exact hdisj 1 2 (by decide)

/-! ### The table of a config -/

theorem literal_eq (d : Fin 3) (b : Bool) : literal d b = ((d != 0 && b) ^^ (d == 2)) := by
  fin_cases d <;> cases b <;> rfl

/-- The number of bits of `x` that a config takes, its first digit taking bit `i`. -/
def Config.taken (c : Config) (i x : Nat) : Nat :=
  (List.range c.length).countP fun k => (c.map Fin.val).getD k 0 != 0 && x.testBit (i + k)

theorem getD_map_val (c : Config) (k : Nat) :
    ((c.map Fin.val).getD k 0 != 0) = (c.getD k 0 != 0) := by
  rw [show (0 : Nat) = (0 : Fin 3).val from rfl, List.getD_map]
  generalize c.getD k 0 = d
  fin_cases d <;> rfl

theorem taken_cons (d : Fin 3) (ds : Config) (i x : Nat) :
    Config.taken (d :: ds) i x = (d != 0 && x.testBit i).toNat + Config.taken ds (i + 1) x := by
  have hshift : (List.range ds.length).countP
      ((fun k => ((d :: ds).map Fin.val).getD k 0 != 0 && x.testBit (i + k)) ∘ Nat.succ) =
      Config.taken ds (i + 1) x := by
    refine List.countP_congr fun k _ => ?_
    simp only [Function.comp, List.map_cons, List.getD_cons_succ]
    rw [show i + (k + 1) = i + 1 + k by omega]
  conv_lhs => unfold Config.taken
  rw [List.length_cons, List.range_succ_eq_map, List.countP_cons, List.countP_map, hshift,
    getD_map_val]
  simp only [List.getD_cons_zero, Nat.add_zero]
  cases d != 0 && x.testBit i <;> simp [Nat.add_comm]

theorem valueFrom_eq_parity (x : Nat) : ∀ (c : Config) (i : Nat),
    (if valueFrom c i x then 1 else 0) = (c.taken i x + c.count 2) % 2
  | [], _ => rfl
  | d :: ds, i => by
    have ih := valueFrom_eq_parity x ds (i + 1)
    rw [taken_cons, valueFrom, List.count_cons, literal_eq]
    revert ih
    generalize Config.taken ds (i + 1) x = A
    generalize List.count 2 ds = B
    generalize valueFrom ds (i + 1) x = v
    intro ih
    fin_cases d <;> cases x.testBit i <;> cases v <;> simp at ih ⊢ <;> omega

theorem length_table (c : Config) : c.table.length = 2 ^ c.length := by
  simp [Config.table, Nat.pow_eq]

theorem getElem_table (c : Config) {x : Nat} (hx : x < c.table.length) :
    c.table[x] = ((List.range c.length).countP (fun i => c.getD i 0 != 0 && x.testBit i) +
      c.count 2) % 2 := by
  simp only [Config.table, List.getElem_map, List.getElem_range, Config.value]
  have h := valueFrom_eq_parity x c 0
  simp only [Config.taken, getD_map_val, Nat.zero_add] at h
  simpa using h

/-! ### Affine functions -/

/-- The table of the affine function `x ↦ a0 ⊕ ⨁ aᵢ xᵢ` of `n` variables,
variable `i` being bit `i` of `x`. -/
def affineTable (n : Nat) (a : Fin n → Bool) (a0 : Bool) : List Nat :=
  (List.range (2 ^ n)).map fun x =>
    ((List.finRange n).countP (fun i => a i && x.testBit i) + a0.toNat) % 2

theorem length_affineTable (n : Nat) (a : Fin n → Bool) (a0 : Bool) :
    (affineTable n a a0).length = 2 ^ n := by
  simp [affineTable]

theorem getElem_affineTable {n : Nat} {a : Fin n → Bool} {a0 : Bool} {x : Nat}
    (hx : x < (affineTable n a a0).length) :
    (affineTable n a a0)[x] =
      ((List.finRange n).countP (fun i => a i && x.testBit i) + a0.toNat) % 2 := by
  simp [affineTable]

theorem table_eq_of_length {c : Config} {m : Nat} (hm : c.length = m) :
    c.table = affineTable m (fun i => c.getD i 0 != 0) (c.count 2 % 2 == 1) := by
  subst hm
  refine List.ext_getElem (by rw [length_table, length_affineTable]) fun x h1 h2 => ?_
  have hcount : (List.range c.length).countP (fun i => c.getD i 0 != 0 && x.testBit i) =
      (List.finRange c.length).countP (fun (i : Fin c.length) => c.getD i 0 != 0 && x.testBit i) := by
    rw [← List.map_coe_finRange_eq_range, List.countP_map]
    rfl
  rw [getElem_table, getElem_affineTable, hcount]
  cases h : c.count 2 % 2 == 1 <;> simp only [beq_iff_eq, beq_eq_false_iff_ne] at h <;>
    simp only [Bool.toNat_false, Bool.toNat_true] <;> omega

theorem countP_finRange_single {n : Nat} (p : Fin n → Bool) (i : Fin n)
    (h : ∀ j, j ≠ i → p j = false) : (List.finRange n).countP p = (p i).toNat := by
  have hp : ∀ j ∈ List.finRange n, p j = (p i && j == i) := by
    intro j _
    by_cases hj : j = i
    · subst hj
      simp
    · simp [h j hj, hj]
  rw [List.countP_congr fun j hj => by rw [hp j hj]]
  cases p i with
  | false => simp
  | true =>
    simp only [Bool.true_and]
    rw [← List.count_eq_countP, (List.nodup_finRange n).count]
    simp [List.mem_finRange]

theorem getElem_affineTable_two_pow {n : Nat} (a : Fin n → Bool) (a0 : Bool) (i : Fin n)
    (hx : 2 ^ i.val < (affineTable n a a0).length) :
    (affineTable n a a0)[2 ^ i.val] = ((a i).toNat + a0.toNat) % 2 := by
  rw [getElem_affineTable, countP_finRange_single _ i]
  · simp [Nat.testBit_two_pow_self]
  · intro j hj
    have hij : i.val ≠ j.val := fun h => hj (Fin.ext h).symm
    simp [hij]

theorem getElem_affineTable_zero {n : Nat} (a : Fin n → Bool) (a0 : Bool)
    (hx : 0 < (affineTable n a a0).length) : (affineTable n a a0)[0] = a0.toNat := by
  rw [getElem_affineTable]
  cases a0 <;> simp

theorem affineTable_injective {n : Nat} {a a' : Fin n → Bool} {a0 a0' : Bool}
    (h : affineTable n a a0 = affineTable n a' a0') : a = a' ∧ a0 = a0' := by
  have hlen : 0 < (affineTable n a a0).length := by rw [length_affineTable]; positivity
  have h0 : a0 = a0' := by
    have := getElem_affineTable_zero a a0 hlen
    rw [List.getElem_of_eq h, getElem_affineTable_zero] at this
    cases a0 <;> cases a0' <;> simp_all
  subst h0
  refine ⟨funext fun i => ?_, rfl⟩
  have hi : 2 ^ i.val < (affineTable n a a0).length := by
    rw [length_affineTable]
    exact Nat.pow_lt_pow_right (by norm_num) i.isLt
  have := getElem_affineTable_two_pow a a0 i hi
  rw [List.getElem_of_eq h, getElem_affineTable_two_pow] at this
  cases hu : a i <;> cases hu' : a' i <;> cases a0 <;> simp_all

theorem affineTable_eq_ones_iff {n : Nat} (a : Fin n → Bool) (a0 : Bool) :
    affineTable n a a0 = List.replicate (2 ^ n) 1 ↔ (a = fun _ => false) ∧ a0 = true := by
  constructor
  · intro h
    have hones : affineTable n (fun _ => false) true = List.replicate (2 ^ n) 1 := by
      refine List.ext_getElem (by simp [length_affineTable]) fun x h1 _ => ?_
      simp [getElem_affineTable]
    exact affineTable_injective (h.trans hones.symm)
  · rintro ⟨rfl, rfl⟩
    refine List.ext_getElem (by simp [length_affineTable]) fun x h1 _ => ?_
    simp [getElem_affineTable]

theorem exists_config {n : Nat} (a : Fin n → Bool) (a0 : Bool)
    (h : ¬ ((a = fun _ => false) ∧ a0 = true)) :
    ∃ c ∈ configs n, c.table = affineTable n a a0 := by
  obtain ⟨i0, hi0⟩ : ∃ i0 : Option (Fin n), (a0 = true → ∃ i, i0 = some i ∧ a i = true) ∧
      (a0 = false → i0 = none) := by
    cases a0 with
    | false => exact ⟨none, by simp, fun _ => rfl⟩
    | true =>
      have : ∃ i, a i = true := by
        by_contra hall
        exact h ⟨funext fun i => Bool.eq_false_iff.mpr fun hi => hall ⟨i, hi⟩, rfl⟩
      obtain ⟨i, hi⟩ := this
      exact ⟨some i, fun _ => ⟨i, rfl, hi⟩, by simp⟩
  let digit : Fin n → Fin 3 := fun i => if a i then (if i0 = some i then 2 else 1) else 0
  let c : Config := List.ofFn digit
  have hlen : c.length = n := List.length_ofFn
  have hcount : c.count 2 = a0.toNat := by
    simp only [c, List.ofFn_eq_map, List.count_eq_countP, List.countP_map]
    cases a0 with
    | false =>
      obtain rfl := hi0.2 rfl
      refine List.countP_eq_zero.mpr fun i _ => ?_
      simp only [digit, Function.comp]
      split_ifs <;> simp_all
    | true =>
      obtain ⟨i, rfl, hi⟩ := hi0.1 rfl
      rw [countP_finRange_single _ i]
      · simp [digit, hi]
      · intro j hj
        simp only [digit, Function.comp, Option.some.injEq]
        split_ifs with h1 h2 <;> first | rfl | exact absurd h2.symm hj
  refine ⟨c, mem_configs.mpr hlen, ?_⟩
  rw [table_eq_of_length hlen, hcount]
  congr 1
  · funext i
    simp only [c, List.getD_eq_getElem?_getD, List.getElem?_ofFn, digit]
    split_ifs <;> simp_all
  · cases a0 <;> rfl

/-! ### The list of tables -/

theorem affineTables_perm (n : Nat) :
    (affineTables n).Perm ((configs n).map fun c => (c.table, c)) :=
  List.mergeSort_perm _ _

theorem exists_getD_eq_two {c : Config} (h : 0 < c.count 2) :
    ∃ i < c.length, c.getD i 0 = 2 := by
  obtain ⟨i, hi, hci⟩ := List.mem_iff_getElem.mp (List.count_pos_iff.mp h)
  exact ⟨i, hi, by simp [List.getD_eq_getElem?_getD, List.getElem?_eq_getElem hi, hci]⟩

theorem mem_tables_iff {n : Nat} {t : List Nat} :
    t ∈ (affineTables n).map Prod.fst ↔
      (∃ a a0, t = affineTable n a a0) ∧ t ≠ List.replicate (2 ^ n) 1 := by
  have hmem : t ∈ (affineTables n).map Prod.fst ↔ ∃ c ∈ configs n, c.table = t := by
    rw [List.Perm.mem_iff ((affineTables_perm n).map Prod.fst), List.map_map]
    simp [Function.comp_def]
  rw [hmem]
  constructor
  · rintro ⟨c, hc, rfl⟩
    have hlen := mem_configs.mp hc
    refine ⟨⟨_, _, table_eq_of_length hlen⟩, fun hones => ?_⟩
    rw [table_eq_of_length hlen, affineTable_eq_ones_iff] at hones
    obtain ⟨hzero, hodd⟩ := hones
    obtain ⟨i, hi, h2⟩ := exists_getD_eq_two (c := c) (by simp at hodd; omega)
    have := congrFun hzero ⟨i, hlen ▸ hi⟩
    simp only [h2] at this
    exact absurd this (by decide)
  · rintro ⟨⟨a, a0, rfl⟩, hne⟩
    exact exists_config a a0 fun h => hne ((affineTable_eq_ones_iff a a0).mpr h)

theorem card_tables (n : Nat) :
    ((affineTables n).map Prod.fst).toFinset.card = 2 ^ (n + 1) - 1 := by
  have himage : ((affineTables n).map Prod.fst).toFinset =
      (Finset.univ.erase ((fun _ => false), true)).image fun p => affineTable n p.1 p.2 := by
    ext t
    simp only [List.mem_toFinset, mem_tables_iff, Finset.mem_image, Finset.mem_erase,
      Finset.mem_univ, and_true, ne_eq, Prod.exists, Prod.mk.injEq]
    constructor
    · rintro ⟨⟨a, a0, rfl⟩, hne⟩
      exact ⟨a, a0, fun h => hne ((affineTable_eq_ones_iff a a0).mpr h), rfl⟩
    · rintro ⟨a, a0, hne, rfl⟩
      exact ⟨⟨a, a0, rfl⟩, fun h => hne ((affineTable_eq_ones_iff a a0).mp h)⟩
  have hinj : Function.Injective fun p : (Fin n → Bool) × Bool => affineTable n p.1 p.2 := by
    intro p q h
    obtain ⟨h1, h2⟩ := affineTable_injective h
    exact Prod.ext h1 h2
  rw [himage, Finset.card_image_of_injective _ hinj, Finset.card_erase_of_mem (Finset.mem_univ _),
    Finset.card_univ, Fintype.card_prod, Fintype.card_fun, Fintype.card_bool, Fintype.card_fin,
    Nat.pow_succ]

/-- The affine tables of `n` variables: one entry for each of the `3 ^ n`
configs, each once. The table of a config has `2 ^ n` entries, and its entry at
`x` is the parity of the number of bits of `x` the config takes plus the number
of its negations. The tables are the affine functions of `n` variables other
than the constant one, `2 ^ (n + 1) - 1` distinct tables. -/
theorem affineTables_spec (n : Nat) :
    (affineTables n).length = 3 ^ n ∧ ((affineTables n).map Prod.snd).Nodup ∧
      (∀ c, c ∈ (affineTables n).map Prod.snd ↔ c.length = n) ∧
      (∀ e ∈ affineTables n, e.1.length = 2 ^ n ∧ ∀ (x : Nat) (hx : x < e.1.length),
        e.1[x] = ((List.range n).countP (fun i => e.2.getD i 0 != 0 && x.testBit i) +
          e.2.count 2) % 2) ∧
      (∀ t, t ∈ (affineTables n).map Prod.fst ↔
        (∃ a a0, t = affineTable n a a0) ∧ t ≠ List.replicate (2 ^ n) 1) ∧
      ((affineTables n).map Prod.fst).toFinset.card = 2 ^ (n + 1) - 1 := by
  have hperm := affineTables_perm n
  have hsnd : ((affineTables n).map Prod.snd).Perm (configs n) := by
    simpa [List.map_map, Function.comp_def] using hperm.map Prod.snd
  refine ⟨?_, hsnd.nodup_iff.mpr (nodup_configs n), fun c => ?_, fun e he => ?_,
    fun t => mem_tables_iff, card_tables n⟩
  · rw [hperm.length_eq, List.length_map, length_configs, Nat.pow_eq]
  · rw [hsnd.mem_iff, mem_configs]
  · obtain ⟨c, hc, rfl⟩ := List.mem_map.mp (hperm.mem_iff.mp he)
    have hlen := mem_configs.mp hc
    refine ⟨by rw [length_table, hlen], fun x hx => ?_⟩
    rw [getElem_table, hlen]

example : affineTables 1 = [([0, 0], [0]), ([0, 1], [1]), ([1, 0], [2])] := by cbv

end XagSynth.Phase
