import XagSynth.Proofs.Phase.Degree
import XagSynth.Phase.Model

/-!
# Which truth tables the phase program can meet

A solver reads the program as integer variables within their groups' bounds
meeting every equation (`Model.Feasible`). Taking weights modulo 8, the program
of a table is feasible exactly when weights meet its phase constraints modulo 8
(`feasible_iff_weights`), so exactly when the table has algebraic degree at most
3 (`synthesize_feasible_iff`).
-/

namespace XagSynth.Phase

open Finset

/-! ### What the program means -/

/-- The value of a linear expression under an assignment of its variables. -/
def LinExpr.eval (e : LinExpr) (v : String → ℤ) : ℤ :=
  (e.terms.map fun t => t.2 * v t.1).sum + e.const

/-- An equation that holds under `v`. -/
def Constraint.Holds (k : Constraint) (v : String → ℤ) : Prop := k.lhs.eval v = k.rhs.eval v

/-- The variables of a group: the group's name followed by an index in
parentheses or brackets. -/
def VarGroup.Names (g : VarGroup) (name : String) : Prop :=
  ∃ s, name = g.name ++ "(" ++ s ++ ")" ∨ name = g.name ++ "[" ++ s ++ "]"

/-- The values a variable of the group may take: at least the lower bound,
zero when none is given; at most the upper bound, if one is given; at most one
for a binary variable. -/
def VarGroup.Admits (g : VarGroup) (z : ℤ) : Prop :=
  g.lb.getD 0 ≤ z ∧ (∀ u ∈ g.ub, z ≤ u) ∧ (g.vtype = "B" → z ≤ 1)

/-- The program has an integer point that meets its bounds and its constraints. -/
def Model.Feasible (m : Model) : Prop :=
  ∃ v : String → ℤ, (∀ g ∈ m.groups, ∀ name, g.Names name → g.Admits (v name)) ∧
    ∀ k ∈ m.constraints, k.Holds v

def bitsOf (cells : List Char) (j : ℕ) : Bool := cells.getD j '0' == '1'

theorem holds_parity (c : Config) (v : String → ℤ) :
    (parity c).Holds v ↔ v (varName "x" c) = v (varName "d" c) + 2 * v (varName "q" c) := by
  simp [parity, Constraint.Holds, LinExpr.eval]

theorem sum_phase_terms (ts : List (Config × List Nat)) (j : ℕ) (v : String → ℤ) :
    ((ts.filterMap fun t => if t.2.getD j 0 == 0 then none
        else some (varName "x" t.1, (t.2.getD j 0 : ℤ))).map fun t => t.2 * v t.1).sum =
      (ts.map fun t => (t.2.getD j 0 : ℤ) * v (varName "x" t.1)).sum := by
  induction ts with
  | nil => rfl
  | cons t ts ih =>
    by_cases h0 : t.2.getD j 0 = 0
    · simp only [List.filterMap_cons, h0, beq_self_eq_true, if_true, List.map_cons, List.sum_cons,
        ih]
      simp
    · simp only [List.filterMap_cons, beq_false_of_ne h0, Bool.false_eq_true, if_false,
        List.map_cons, List.sum_cons, ih]

theorem phase_isSome {ts : List (Config × List Nat)} (j bit : ℕ)
    (h : ∀ t ∈ ts, j < t.2.length) : ∃ k, phase ts j bit = some k := by
  unfold phase
  rw [if_pos (List.all_eq_true.mpr fun t ht => decide_eq_true (h t ht))]
  exact ⟨_, rfl⟩

theorem holds_of_phase {ts : List (Config × List Nat)} {j bit : ℕ} {k : Constraint}
    (h : phase ts j bit = some k) (v : String → ℤ) :
    k.Holds v ↔ (ts.map fun t => (t.2.getD j 0 : ℤ) * v (varName "x" t.1)).sum =
      8 * v ("vq[" ++ toString j ++ "]") + 4 * bit := by
  unfold phase at h
  split at h
  · cases h
    simp only [Constraint.Holds, LinExpr.eval, sum_phase_terms]
    simp [mul_comm]
  · cases h

/-! ### The program built for a table -/

theorem addPhases_ok (ts : List (Config × List Nat)) :
    ∀ (cells : List Char) (j : ℕ), (∀ ch ∈ cells, ch = '0' ∨ ch = '1') →
      (∀ t ∈ ts, j + cells.length ≤ t.2.length) →
      ∃ ks, (∀ m, addPhases ts m j cells = .ok { m with constraints := m.constraints ++ ks }) ∧
        ∀ k, k ∈ ks ↔ ∃ i < cells.length,
          phase ts (j + i) (if bitsOf cells i then 1 else 0) = some k
  | [], j, _, _ => ⟨[], fun m => by simp [addPhases], by simp⟩
  | ch :: rest, j, hbits, hlen => by
    have hch : (ch == '0' || ch == '1') = true := by
      rcases hbits ch List.mem_cons_self with rfl | rfl <;> rfl
    obtain ⟨k0, hk0⟩ := phase_isSome j (if ch == '1' then 1 else 0) fun t ht => by
      have := hlen t ht
      simp only [List.length_cons] at this
      omega
    obtain ⟨ks, hks, hmem⟩ := addPhases_ok ts rest (j + 1)
      (fun c hc => hbits c (List.mem_cons_of_mem ch hc))
      (fun t ht => by
        have := hlen t ht
        simp only [List.length_cons] at this
        omega)
    refine ⟨k0 :: ks, fun m => ?_, fun k => ?_⟩
    · simp only [addPhases, hch, if_true, hk0, hks, List.append_assoc, List.singleton_append]
    have hshift : ∀ i, bitsOf (ch :: rest) (i + 1) = bitsOf rest i := fun i => rfl
    rw [List.mem_cons, hmem]
    constructor
    · rintro (rfl | ⟨i, hi, hk⟩)
      · exact ⟨0, by simp, by simpa [bitsOf] using hk0⟩
      · refine ⟨i + 1, by simp only [List.length_cons]; omega, ?_⟩
        rw [hshift, show j + (i + 1) = j + 1 + i by omega]
        exact hk
    · rintro ⟨i, hi, hk⟩
      cases i with
      | zero =>
        left
        rw [show bitsOf (ch :: rest) 0 = (ch == '1') from rfl, Nat.add_zero, hk0] at hk
        exact (Option.some.inj hk).symm
      | succ i =>
        right
        refine ⟨i, by simp only [List.length_cons] at hi; omega, ?_⟩
        rw [hshift, show j + (i + 1) = j + 1 + i by omega] at hk
        exact hk

theorem synthesize_full {tt : String} {n : ℕ}
    (hlen : (Text.erase "_" tt).toList.length = 2 ^ n)
    (hbits : ∀ ch ∈ (Text.erase "_" tt).toList, ch = '0' ∨ ch = '1') (verbose : Bool)
    (solver : Solver) :
    ∃ s, synthesize tt verbose solver = .done s ∧
      s.model.groups = [⟨"x", (configs n).length, "I", some 0, some 7⟩,
        ⟨"q", (configs n).length, "I", some 0, some 3⟩, ⟨"d", (configs n).length, "B", none, none⟩,
        ⟨"vq", 2 ^ n, "I", none, none⟩] ∧
      ∀ k, k ∈ s.model.constraints ↔ (∃ c ∈ configs n, k = parity c) ∨
        ∃ j < 2 ^ n, phase ((configs n).map fun c => (c, c.table)) j
          (if bitsOf (Text.erase "_" tt).toList j then 1 else 0) = some k := by
  have htables : ∀ t ∈ (configs n).map (fun c => (c, c.table)),
      0 + (Text.erase "_" tt).toList.length ≤ t.2.length := by
    intro t ht
    obtain ⟨c, hc, rfl⟩ := List.mem_map.mp ht
    rw [hlen, length_table, mem_configs.mp hc, Nat.zero_add]
  obtain ⟨ks, hks, hmem⟩ := addPhases_ok _ _ 0 hbits htables
  have hne : (Text.erase "_" tt).toList.isEmpty = false := by
    rw [List.isEmpty_eq_false_iff, ← List.length_pos_iff, hlen]
    exact Nat.two_pow_pos n
  have hlog : Nat.log2 (Text.erase "_" tt).toList.length = n := by rw [hlen, Nat.log2_two_pow]
  refine ⟨_, by simp only [synthesize, hne, Bool.false_eq_true, if_false, hlog, hks]; rfl, ?_,
    fun k => ?_⟩
  · simp [hlen]
  · simp only [List.mem_append, List.mem_map, hmem, hlen, Nat.zero_add]
    constructor
    · rintro (⟨c, hc, rfl⟩ | h)
      · exact Or.inl ⟨c, hc, rfl⟩
      · exact Or.inr h
    · rintro (⟨c, hc, rfl⟩ | h)
      · exact Or.inl ⟨c, hc, rfl⟩
      · exact Or.inr h

/-! ### Variable names -/

def digitChar (d : Fin 3) : Char := Char.ofNat (48 + d.val)

theorem toList_toString_digit (d : Fin 3) : (toString d.val).toList = [digitChar d] := by
  fin_cases d <;> rfl

theorem toList_name : ∀ c : Config, c.name.toList = c.map digitChar
  | [] => rfl
  | d :: ds => by
    have h := toList_name ds
    rw [Config.name] at h ⊢
    rw [List.map_cons, String.join_cons, String.toList_append, h, toList_toString_digit]
    rfl

theorem digitChar_injective : Function.Injective digitChar := by decide

theorem toList_varName (v : String) (c : Config) :
    (varName v c).toList = v.toList ++ '(' :: (c.map digitChar ++ [')']) := by
  simp [varName, toList_name]

theorem varName_injective (v : String) : Function.Injective (varName v) := by
  intro c c' h
  have h' := congrArg String.toList h
  simp only [toList_varName, List.append_cancel_left_eq, List.cons.injEq, true_and,
    List.append_cancel_right_eq] at h'
  exact List.map_injective_iff.mpr digitChar_injective h'

theorem vqName_injective {j j' : ℕ}
    (h : "vq[" ++ toString j ++ "]" = "vq[" ++ toString j' ++ "]") : j = j' := by
  have h' := congrArg String.toList h
  simp only [String.toList_append, List.append_cancel_left_eq, List.append_cancel_right_eq] at h'
  exact Nat.repr_inj.mp (String.ext_iff.mpr h')

/-! ### An assignment from weights -/

open Classical in
/-- An assignment of the program's variables: the variables of a config `c`
of `n` variables get the weight `x c`, its half and its parity; the quotient
variable of position `j` gets `vq j`; other names get zero. -/
noncomputable def assignment (n : ℕ) (x : Config → ℤ) (vq : ℕ → ℤ) (name : String) : ℤ :=
  if h : ∃ c ∈ configs n, name = varName "x" c then x h.choose
  else if h : ∃ c ∈ configs n, name = varName "q" c then x h.choose / 2
  else if h : ∃ c ∈ configs n, name = varName "d" c then x h.choose % 2
  else if h : ∃ j, name = "vq[" ++ toString j ++ "]" then vq h.choose
  else 0

section Assignment

variable {n : ℕ} {x : Config → ℤ} {vq : ℕ → ℤ}

theorem head_varName (v : String) (c : Config) :
    (varName v c).toList.head? = (v.toList ++ ['(']).head? := by
  rcases hv : v.toList with _ | ⟨a, l⟩ <;> simp [toList_varName, hv]

theorem varName_ne {v v' : String} (h : (v.toList ++ ['(']).head? ≠ (v'.toList ++ ['(']).head?)
    (c c' : Config) : varName v c ≠ varName v' c' := fun heq =>
  h (by rw [← head_varName v c, ← head_varName v' c', heq])

theorem varName_ne_vq {v : String} (h : (v.toList ++ ['(']).head? ≠ some 'v') (c : Config)
    (j : ℕ) : varName v c ≠ "vq[" ++ toString j ++ "]" := fun heq =>
  h (by rw [← head_varName v c, heq]; simp)

theorem assignment_x {c : Config} (hc : c ∈ configs n) :
    assignment n x vq (varName "x" c) = x c := by
  have h : ∃ c' ∈ configs n, varName "x" c = varName "x" c' := ⟨c, hc, rfl⟩
  rw [assignment, dif_pos h, ← varName_injective "x" h.choose_spec.2]

theorem assignment_q {c : Config} (hc : c ∈ configs n) :
    assignment n x vq (varName "q" c) = x c / 2 := by
  have hx : ¬ ∃ c' ∈ configs n, varName "q" c = varName "x" c' :=
    fun ⟨_, _, h⟩ => varName_ne (by decide) _ _ h
  have h : ∃ c' ∈ configs n, varName "q" c = varName "q" c' := ⟨c, hc, rfl⟩
  rw [assignment, dif_neg hx, dif_pos h, ← varName_injective "q" h.choose_spec.2]

theorem assignment_d {c : Config} (hc : c ∈ configs n) :
    assignment n x vq (varName "d" c) = x c % 2 := by
  have hx : ¬ ∃ c' ∈ configs n, varName "d" c = varName "x" c' :=
    fun ⟨_, _, h⟩ => varName_ne (by decide) _ _ h
  have hq : ¬ ∃ c' ∈ configs n, varName "d" c = varName "q" c' :=
    fun ⟨_, _, h⟩ => varName_ne (by decide) _ _ h
  have h : ∃ c' ∈ configs n, varName "d" c = varName "d" c' := ⟨c, hc, rfl⟩
  rw [assignment, dif_neg hx, dif_neg hq, dif_pos h, ← varName_injective "d" h.choose_spec.2]

theorem assignment_vq (j : ℕ) : assignment n x vq ("vq[" ++ toString j ++ "]") = vq j := by
  have hkind : ∀ v c, (v.toList ++ ['(']).head? ≠ some 'v' →
      ¬ ("vq[" ++ toString j ++ "]" = varName v c) :=
    fun v c hv h => varName_ne_vq hv c j h.symm
  have h : ∃ j', "vq[" ++ toString j ++ "]" = "vq[" ++ toString j' ++ "]" := ⟨j, rfl⟩
  rw [assignment, dif_neg fun ⟨c, _, h⟩ => hkind "x" c (by decide) h,
    dif_neg fun ⟨c, _, h⟩ => hkind "q" c (by decide) h,
    dif_neg fun ⟨c, _, h⟩ => hkind "d" c (by decide) h, dif_pos h, ← vqName_injective h.choose_spec]

theorem assignment_bounds (hx : ∀ c, 0 ≤ x c ∧ x c ≤ 7) (hvq : ∀ j, 0 ≤ vq j) (name : String) :
    0 ≤ assignment n x vq name ∧
      (name.toList.head? = some 'x' → assignment n x vq name ≤ 7) ∧
      (name.toList.head? = some 'q' → assignment n x vq name ≤ 3) ∧
      (name.toList.head? = some 'd' → assignment n x vq name ≤ 1) := by
  unfold assignment
  split_ifs with h1 h2 h3 h4
  · -- a weight
    have hhead : name.toList.head? = some 'x' := by
      obtain ⟨c, -, rfl⟩ := h1
      simp [head_varName]
    obtain ⟨h0, h7⟩ := hx h1.choose
    exact ⟨h0, fun _ => h7, fun h => by simp [hhead] at h, fun h => by simp [hhead] at h⟩
  · -- half a weight
    have hhead : name.toList.head? = some 'q' := by
      obtain ⟨c, -, rfl⟩ := h2
      simp [head_varName]
    obtain ⟨h0, h7⟩ := hx h2.choose
    exact ⟨by omega, fun _ => by omega, fun _ => by omega, fun h => by simp [hhead] at h⟩
  · -- the parity of a weight
    have hhead : name.toList.head? = some 'd' := by
      obtain ⟨c, -, rfl⟩ := h3
      simp [head_varName]
    obtain ⟨h0, h7⟩ := hx h3.choose
    exact ⟨by omega, fun _ => by omega, fun h => by simp [hhead] at h, fun _ => by omega⟩
  · -- a quotient
    have hhead : name.toList.head? = some 'v' := by
      obtain ⟨j, rfl⟩ := h4
      simp
    exact ⟨hvq _, fun h => by simp [hhead] at h, fun h => by simp [hhead] at h,
      fun h => by simp [hhead] at h⟩
  · exact ⟨le_rfl, fun _ => by norm_num, fun _ => by norm_num, fun _ => by norm_num⟩

theorem head_of_names {g : VarGroup} {name : String} (h : g.Names name) (hg : g.name.toList ≠ []) :
    name.toList.head? = g.name.toList.head? := by
  obtain ⟨a, l, hl⟩ := List.exists_cons_of_ne_nil hg
  rcases h with ⟨s, rfl | rfl⟩ <;> simp [hl]

theorem assignment_admits (hx : ∀ c, 0 ≤ x c ∧ x c ≤ 7) (hvq : ∀ j, 0 ≤ vq j) {g : VarGroup}
    (hg : g ∈ ([⟨"x", (configs n).length, "I", some 0, some 7⟩,
      ⟨"q", (configs n).length, "I", some 0, some 3⟩, ⟨"d", (configs n).length, "B", none, none⟩,
      ⟨"vq", 2 ^ n, "I", none, none⟩] : List VarGroup)) {name : String} (hname : g.Names name) :
    g.Admits (assignment n x vq name) := by
  obtain ⟨h0, h7, h3, h1⟩ := assignment_bounds hx hvq name
  simp only [List.mem_cons, List.not_mem_nil, or_false] at hg
  rcases hg with rfl | rfl | rfl | rfl
  · have hhead : name.toList.head? = some 'x' := by simpa using head_of_names hname (by simp)
    exact ⟨by simpa using h0, by simpa using h7 hhead, by simp⟩
  · have hhead : name.toList.head? = some 'q' := by simpa using head_of_names hname (by simp)
    exact ⟨by simpa using h0, by simpa using h3 hhead, by simp⟩
  · have hhead : name.toList.head? = some 'd' := by simpa using head_of_names hname (by simp)
    exact ⟨by simpa using h0, by simp, fun _ => h1 hhead⟩
  · exact ⟨by simpa using h0, by simp, by simp⟩

end Assignment

/-! ### Feasibility -/

theorem getD_table {c : Config} {j : ℕ} (hj : j < 2 ^ c.length) :
    (c.table.getD j 0 : ℤ) = c.entry j := by
  simp only [Config.table, List.getD_eq_getElem?_getD, List.getElem?_map,
    List.getElem?_range (show j < Nat.pow 2 c.length from hj), Option.map_some, Option.getD_some,
    Config.entry]
  split <;> rfl

theorem sum_phase_configs {n j : ℕ} (hj : j < 2 ^ n) (v : String → ℤ) :
    (((configs n).map fun c => (c, c.table)).map
        fun t => (t.2.getD j 0 : ℤ) * v (varName "x" t.1)).sum =
      ∑ c ∈ (configs n).toFinset, v (varName "x" c) * c.entry j := by
  rw [List.map_map, List.sum_toFinset _ (nodup_configs n)]
  refine congrArg List.sum (List.map_congr_left fun c hc => ?_)
  rw [Function.comp_apply, getD_table (by rwa [mem_configs.mp hc]), mul_comm]

theorem assignment_holds {n : ℕ} {f : ℕ → Bool} {x : Config → ℤ} {vq : ℕ → ℤ}
    (hsum : ∀ j < 2 ^ n, ∑ c ∈ (configs n).toFinset, x c * c.entry j =
      8 * vq j + 4 * ((if f j then 1 else 0 : ℕ) : ℤ))
    {k : Constraint} (hk : (∃ c ∈ configs n, k = parity c) ∨
      ∃ j < 2 ^ n,
        phase ((configs n).map fun c => (c, c.table)) j (if f j then 1 else 0) = some k) :
    k.Holds (assignment n x vq) := by
  rcases hk with ⟨c, hc, rfl⟩ | ⟨j, hj, hkj⟩
  · -- a weight is its parity plus twice its half
    rw [holds_parity, assignment_x hc, assignment_d hc, assignment_q hc]
    omega
  · rw [holds_of_phase hkj, sum_phase_configs hj, assignment_vq]
    have hx : ∑ c ∈ (configs n).toFinset, assignment n x vq (varName "x" c) * c.entry j =
        ∑ c ∈ (configs n).toFinset, x c * c.entry j :=
      sum_congr rfl fun c hc => by rw [assignment_x (List.mem_toFinset.mp hc)]
    rw [hx, hsum j hj]

theorem exists_small_weights {n : ℕ} {f : ℕ → Bool} {w : Config → ℤ}
    (hw : ∀ j < 2 ^ n, ((∑ c ∈ (configs n).toFinset, w c * c.entry j : ℤ) : ZMod 8) =
      if f j then 4 else 0) :
    ∃ x : Config → ℤ, (∀ c, 0 ≤ x c ∧ x c ≤ 7) ∧ ∃ vq : ℕ → ℤ, (∀ j, 0 ≤ vq j) ∧
      ∀ j < 2 ^ n, ∑ c ∈ (configs n).toFinset, x c * c.entry j =
        8 * vq j + 4 * ((if f j then 1 else 0 : ℕ) : ℤ) := by
  have h8 : (8 : ZMod 8) = 0 := rfl
  let x : Config → ℤ := fun c => w c % 8
  have hx : ∀ c, 0 ≤ x c ∧ x c ≤ 7 := fun c =>
    ⟨Int.emod_nonneg _ (by norm_num), by
      have := Int.emod_lt_of_pos (w c) (by norm_num : (0 : ℤ) < 8)
      simp only [x]
      omega⟩
  have hxw : ∀ c, ((x c : ℤ) : ZMod 8) = (w c : ZMod 8) := by
    intro c
    simp only [x, Int.emod_def]
    push_cast
    rw [h8, zero_mul, sub_zero]
  let S : ℕ → ℤ := fun j => ∑ c ∈ (configs n).toFinset, x c * c.entry j
  have hS : ∀ j, 0 ≤ S j := fun j => sum_nonneg fun c _ =>
    mul_nonneg (hx c).1 (by unfold Config.entry; split <;> norm_num)
  have hdvd : ∀ j < 2 ^ n, (8 : ℤ) ∣ S j - 4 * ((if f j then 1 else 0 : ℕ) : ℤ) := by
    intro j hj
    have hzero : ((S j - 4 * ((if f j then 1 else 0 : ℕ) : ℤ) : ℤ) : ZMod 8) = 0 := by
      have h := hw j hj
      push_cast at h
      simp only [S]
      push_cast [hxw]
      rw [h]
      split <;> decide
    exact_mod_cast (ZMod.intCast_zmod_eq_zero_iff_dvd _ 8).mp hzero
  refine ⟨x, hx, fun j => S j / 8, fun j => Int.ediv_nonneg (hS j) (by norm_num), fun j hj => ?_⟩
  have := hdvd j hj
  have hbit : (if f j then 1 else 0 : ℕ) ≤ 1 := by split <;> omega
  show S j = 8 * (S j / 8) + _
  omega

theorem feasible_iff_weights {tt : String} {n : ℕ}
    (hlen : (Text.erase "_" tt).toList.length = 2 ^ n)
    (hbits : ∀ ch ∈ (Text.erase "_" tt).toList, ch = '0' ∨ ch = '1') {verbose : Bool}
    {solver : Solver} {s : Synthesis} (hs : synthesize tt verbose solver = .done s) :
    s.model.Feasible ↔ ∃ w : Config → ℤ, ∀ x < 2 ^ n,
      ((∑ c ∈ (configs n).toFinset, w c * c.entry x : ℤ) : ZMod 8) =
        if bitsOf (Text.erase "_" tt).toList x then 4 else 0 := by
  obtain ⟨s', hs', hgroups, hcons⟩ := synthesize_full hlen hbits verbose solver
  rw [hs, Outcome.done.injEq] at hs'
  subst hs'
  set f := bitsOf (Text.erase "_" tt).toList
  have hphase : ∀ j < 2 ^ n, ∃ k, phase ((configs n).map fun c => (c, c.table)) j
      (if f j then 1 else 0) = some k := by
    intro j hj
    refine phase_isSome j _ fun t ht => ?_
    obtain ⟨c, hc, rfl⟩ := List.mem_map.mp ht
    rwa [length_table, mem_configs.mp hc]
  have h8 : (8 : ZMod 8) = 0 := rfl
  constructor
  · -- the weights of a feasible point meet the phase constraints
    rintro ⟨v, -, hholds⟩
    refine ⟨fun c => v (varName "x" c), fun j hj => ?_⟩
    obtain ⟨k, hk⟩ := hphase j hj
    have h := (holds_of_phase hk v).mp (hholds k ((hcons k).mpr (Or.inr ⟨j, hj, hk⟩)))
    rw [sum_phase_configs hj] at h
    rw [h]
    push_cast
    rw [h8, zero_mul, zero_add]
    split <;> rfl
  · -- weights taken modulo 8, with their quotients, make a feasible point
    rintro ⟨w, hw⟩
    obtain ⟨x, hx, vq, hvq, hsum⟩ := exists_small_weights hw
    refine ⟨assignment n x vq, fun g hg name hname => ?_,
      fun k hk => assignment_holds hsum ((hcons k).mp hk)⟩
    rw [hgroups] at hg
    exact assignment_admits hx hvq hg hname

/-- The phase program of a table of `2 ^ n` bits, for `n ≥ 1`, has an integer
feasible point exactly when the table's function has algebraic degree at most
3. -/
theorem synthesize_feasible_iff {tt : String} {n : ℕ} (hn : 1 ≤ n)
    (hlen : (Text.erase "_" tt).toList.length = 2 ^ n)
    (hbits : ∀ ch ∈ (Text.erase "_" tt).toList, ch = '0' ∨ ch = '1') (verbose : Bool)
    (solver : Solver) :
    ∃ s, synthesize tt verbose solver = .done s ∧
      (s.model.Feasible ↔ ∀ S ⊆ range n,
        anfCoeff (bitsOf (Text.erase "_" tt).toList) S = true → S.card ≤ 3) := by
  obtain ⟨s, hs, -, -⟩ := synthesize_full hlen hbits verbose solver
  exact ⟨s, hs, (feasible_iff_weights hlen hbits hs).trans (weights_iff_degree_le_three hn _)⟩

/-- The AND of four variables has degree 4: its program has no feasible point. -/
theorem synthesize_and_four_infeasible :
    ∃ s, synthesize "0000000000000001" false {} = .done s ∧ ¬ s.model.Feasible := by
  have hcells : (Text.erase "_" "0000000000000001").toList =
      ['0', '0', '0', '0', '0', '0', '0', '0', '0', '0', '0', '0', '0', '0', '0', '1'] := by
    decide +kernel
  obtain ⟨s, hs, hiff⟩ := synthesize_feasible_iff (show 1 ≤ 4 by decide)
    (by rw [hcells]; rfl) (by rw [hcells]; simp) false {}
  refine ⟨s, hs, fun hfeas => ?_⟩
  have h := hiff.mp hfeas (range 4) subset_rfl (by rw [hcells]; decide +kernel)
  simp at h

end XagSynth.Phase
