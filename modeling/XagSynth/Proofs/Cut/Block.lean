import Mathlib.Data.String.Basic
import XagSynth.Proofs.Network.Read
import XagSynth.Proofs.Network.Value
import XagSynth.Cut.Enumerate

/-!
# XOR blocks denote their gate

On a network whose AND gates negate nothing and whose XOR gates negate both
inputs or neither, the XOR of the ANDs of a block's products is the value of
its gate when the XOR gates below it form a tree (`cutOf_block_of_tree`).
Absorption is followed round by round with `Absorbing`, and growth keeps the
AND of a product since it only expands AND gates.
-/

namespace XagSynth

namespace Text

/-- A strictly increasing list of names. -/
def Increasing (xs : List String) : Prop := xs.Pairwise (· < ·)

theorem increasing_insertName (s : String) {xs : List String} (h : Increasing xs) :
    Increasing (insertName s xs) := by
  induction xs with
  | nil => simp [insertName, Increasing]
  | cons x xs ih =>
    have hx := (List.pairwise_cons.mp h).1
    have hxs := (List.pairwise_cons.mp h).2
    simp only [insertName]
    split_ifs with hlt heq
    · refine List.pairwise_cons.mpr ⟨?_, h⟩
      intro y hy
      rcases List.mem_cons.mp hy with rfl | hy
      · exact hlt
      · exact lt_trans hlt (hx y hy)
    · exact h
    · have hxs' : x < s := lt_of_le_of_ne (not_lt.mp hlt) (Ne.symm heq)
      refine List.pairwise_cons.mpr ⟨?_, ih hxs⟩
      intro y hy
      rcases mem_insertName.mp hy with rfl | hy
      · exact hxs'
      · exact hx y hy

theorem Increasing.nodup {xs : List String} (h : Increasing xs) : xs.Nodup :=
  h.imp ne_of_lt

theorem increasing_nameSet (xs : List String) : Increasing (nameSet xs) := by
  induction xs with
  | nil => exact List.Pairwise.nil
  | cons x xs ih => exact increasing_insertName x ih

theorem increasing_nameUnion {xs : List String} (ys : List String) (h : Increasing xs) :
    Increasing (nameUnion xs ys) := by
  induction ys with
  | nil => exact h
  | cons y ys ih => exact increasing_insertName y ih

theorem increasing_nameDiff {xs : List String} (ys : List String) (h : Increasing xs) :
    Increasing (nameDiff xs ys) :=
  h.sublist List.filter_sublist

theorem mem_nameUnion {t : String} {xs ys : List String} :
    t ∈ nameUnion xs ys ↔ t ∈ xs ∨ t ∈ ys := by
  induction ys with
  | nil => simp [nameUnion]
  | cons y ys ih =>
    simp only [nameUnion, List.foldr_cons] at ih ⊢
    rw [mem_insertName, ih, List.mem_cons]
    tauto

theorem mem_nameDiff {t : String} {xs ys : List String} :
    t ∈ nameDiff xs ys ↔ t ∈ xs ∧ t ∉ ys := by
  simp [nameDiff]

end Text

theorem flatMap_cons_perm {α : Type} (xs : List α) (f : α → List α) :
    (xs.flatMap fun x => x :: f x).Perm (xs ++ xs.flatMap f) := by
  induction xs with
  | nil => exact List.Perm.refl _
  | cons x xs ih =>
    simp only [List.flatMap_cons, List.cons_append]
    refine List.Perm.cons x ?_
    exact (ih.append_left (f x)).trans (List.perm_append_comm_assoc _ _ _)

theorem nodup_of_nodup_flatMap {α : Type} {l : List α} {f : α → List α} (h : (l.flatMap f).Nodup)
    (hself : ∀ x, x ∈ f x) : l.Nodup := by
  refine (List.nodup_flatMap.mp h).2.imp ?_
  intro a b hab heq
  subst heq
  exact List.disjoint_left.mp hab (hself a) (hself a)

theorem forall₂_of_mapM {α β ε : Type} {f : α → Except ε β} :
    ∀ {l : List α} {r : List β}, l.mapM f = .ok r → List.Forall₂ (fun a b => f a = .ok b) l r
  | [], r, h => by
    simp only [List.mapM_nil, pure, Except.pure, Except.ok.injEq] at h
    subst h
    exact .nil
  | a :: l, r, h => by
    rw [List.mapM_cons] at h
    obtain ⟨b, hb, h⟩ := bind_eq_ok h
    obtain ⟨r', hr', h⟩ := bind_eq_ok h
    simp only [pure, Except.pure, Except.ok.injEq] at h
    subst h
    exact .cons hb (forall₂_of_mapM hr')

theorem mem_of_filterAuxM {p : String → Except Fault Bool} :
    ∀ (l acc r : List String), List.filterAuxM p l acc = .ok r →
      ∀ x ∈ r, x ∈ acc ∨ (x ∈ l ∧ p x = .ok true)
  | [], acc, r, h => by
    simp only [List.filterAuxM, pure, Except.pure, Except.ok.injEq] at h
    subst h
    exact fun x hx => Or.inl hx
  | a :: l, acc, r, h => by
    simp only [List.filterAuxM] at h
    obtain ⟨b, hb, h⟩ := bind_eq_ok h
    intro x hx
    rcases mem_of_filterAuxM l _ r h x hx with hx | ⟨hx, hpx⟩
    · cases b with
      | true =>
        rcases List.mem_cons.mp hx with rfl | hx
        · exact Or.inr ⟨List.mem_cons_self, hb⟩
        · exact Or.inl hx
      | false => exact Or.inl hx
    · exact Or.inr ⟨List.mem_cons_of_mem a hx, hpx⟩

theorem mem_of_filterM {p : String → Except Fault Bool} {l r : List String}
    (h : l.filterM p = .ok r) : ∀ x ∈ r, x ∈ l ∧ p x = .ok true := by
  unfold List.filterM at h
  obtain ⟨r', h', hr⟩ := bind_eq_ok h
  simp only [pure, Except.pure, Except.ok.injEq] at hr
  subst hr
  intro x hx
  rcases mem_of_filterAuxM l [] r' h' x (List.mem_reverse.mp hx) with hx | hx
  · cases hx
  · exact hx

theorem exists_of_forall₂ {α β : Type} {R : α → β → Prop} {l₁ : List α} {l₂ : List β}
    (h : List.Forall₂ R l₁ l₂) {b : β} (hb : b ∈ l₂) : ∃ a ∈ l₁, R a b := by
  induction h with
  | nil => cases hb
  | cons hab _ ih =>
    rcases List.mem_cons.mp hb with rfl | hb
    · exact ⟨_, List.mem_cons_self, hab⟩
    · obtain ⟨a, ha, hR⟩ := ih hb
      exact ⟨a, List.mem_cons_of_mem _ ha, hR⟩

namespace Network

/-- A gate whose negations the block view carries: an AND gate negates nothing,
an XOR gate negates both inputs or neither. -/
def Gate.Neutral : Gate → Prop
  | .binary .and _ _ na nb no => na = false ∧ nb = false ∧ no = false
  | .binary .xor _ _ na nb _ => na = nb
  | _ => True

def xorAll (bs : List Bool) : Bool := bs.foldr (· ^^ ·) false

@[simp] theorem xorAll_nil : xorAll [] = false := rfl

@[simp] theorem xorAll_cons (b : Bool) (bs : List Bool) : xorAll (b :: bs) = (b ^^ xorAll bs) :=
  rfl

theorem xorAll_append (bs cs : List Bool) : xorAll (bs ++ cs) = (xorAll bs ^^ xorAll cs) := by
  induction bs with
  | nil => simp
  | cons b bs ih => rw [List.cons_append, xorAll_cons, xorAll_cons, ih, Bool.xor_assoc]

theorem xorAll_perm {bs cs : List Bool} (h : bs.Perm cs) : xorAll bs = xorAll cs :=
  h.foldr_eq' (fun x _ y _ z => Bool.xor_left_comm y x z) false

theorem xorAll_flatMap {α : Type} (xs : List α) (f : α → List String) (v : String → Bool) :
    xorAll ((xs.flatMap f).map v) = xorAll (xs.map fun x => xorAll ((f x).map v)) := by
  induction xs with
  | nil => rfl
  | cons x xs ih => rw [List.flatMap_cons, List.map_append, xorAll_append, ih]; rfl

def coneStep (x : String) (g : Gate) (f : String → List String) : List String :=
  x :: if g.isXor then g.inputs.flatMap f else []

/-- The names met from `x` through XOR gates, with repetition: `x`, and when `x`
drives an XOR gate, the cones of its inputs. -/
def cone (net : Network) : String → List String :=
  net.descend (fun x => [x]) coneStep net.gates.length

/-- Below every gate other than AND, the XOR gates form trees: the cones of the
gate's inputs together repeat no name. -/
def XorTrees (net : Network) : Prop :=
  ∀ n g, net.gate? n = some g → g.isAnd = false → (g.inputs.flatMap net.cone).Nodup

theorem localStep_coneStep : LocalStep coneStep := by
  intro x g f f' h
  simp only [coneStep]
  split
  · rw [List.flatMap_congr h]
  · rfl

theorem cone_of_gate {net : Network} (hacyc : net.Acyclic) {x : String} {g : Gate}
    (hg : net.gate? x = some g) : net.cone x = coneStep x g net.cone :=
  descend_of_gate hacyc localStep_coneStep hg

theorem mem_cone_self (net : Network) (x : String) : x ∈ net.cone x := by
  unfold cone
  cases net.gates.length with
  | zero => simp [descend]
  | succ k =>
    simp only [descend]
    split <;> simp [coneStep]

theorem reach_of_mem_cone (net : Network) {x y : String} (hy : y ∈ net.cone x) :
    Relation.ReflTransGen net.Reads y x := by
  unfold cone at hy
  generalize net.gates.length = k at hy
  induction k generalizing x with
  | zero =>
    simp only [descend, List.mem_singleton] at hy
    exact hy ▸ .refl
  | succ k ih =>
    simp only [descend] at hy
    split at hy
    · rename_i g hg
      simp only [coneStep, List.mem_cons] at hy
      rcases hy with rfl | hy
      · exact .refl
      · split at hy
        · obtain ⟨a, ha, hya⟩ := List.mem_flatMap.mp hy
          exact (ih hya).tail ⟨g, hg, ha⟩
        · cases hy
    · simp only [List.mem_singleton] at hy
      exact hy ▸ .refl

section Values

variable {net : Network} (hacyc : net.Acyclic)
  (hgates : ∀ e ∈ net.gates, e.2.Neutral ∧ e.2.Parsed)
include hacyc hgates

theorem value_eq_xorAll (s : String → Bool) {x : String} {g : Gate} (hg : net.gate? x = some g)
    (hand : g.isAnd = false) : net.value s x = xorAll (g.inputs.map (net.value s)) := by
  obtain ⟨hn, hp⟩ := hgates _ (gate?_mem hg)
  rw [value_of_gate hacyc s hg]
  cases g with
  | binary op a b na nb no =>
    cases op with
    | and => cases hand
    | or => cases hp
    | xor =>
      simp only [Gate.Neutral] at hn
      simp only [Gate.Parsed] at hp
      subst hn hp
      cases na <;> simp [Gate.eval, BinOp.eval]
  | buffer a => simp [Gate.eval]

theorem value_eq_all (s : String → Bool) {x : String} {g : Gate} (hg : net.gate? x = some g)
    (hand : g.isAnd = true) : net.value s x = g.inputs.all (net.value s) := by
  obtain ⟨hn, -⟩ := hgates _ (gate?_mem hg)
  rw [value_of_gate hacyc s hg]
  cases g with
  | binary op a b na nb no =>
    cases op with
    | and =>
      obtain ⟨rfl, rfl, rfl⟩ := hn
      simp [Gate.eval, BinOp.eval]
    | or => cases hand
    | xor => cases hand
  | buffer a => cases hand

end Values

theorem isXorGate_spec {net : Network} {x : String} (h : net.isXorGate x = true) :
    ∃ g, net.gate? x = some g ∧ g.isXor = true ∧ net.inputsOf x = g.inputs := by
  unfold isXorGate at h
  split at h
  · rename_i g hg
    exact ⟨g, hg, h, by simp [inputsOf, hg]⟩
  · cases h

theorem reads_of_mem_inputsOf {net : Network} {x y : String} (h : y ∈ net.inputsOf x) :
    net.Reads y x := by
  unfold inputsOf at h
  split at h
  · rename_i g hg
    exact ⟨g, hg, h⟩
  · cases h

theorem absorb_keeps {net : Network} (P : String → Prop)
    (hP : ∀ x y, P x → net.isXorGate x = true → y ∈ net.inputsOf x → P y) (fuel : Nat) :
    ∀ {leaves exposed : List String}, (∀ l ∈ leaves, P l) →
      ∀ l ∈ (net.absorb fuel leaves exposed).1, P l := by
  induction fuel with
  | zero => exact fun h => h
  | succ fuel ih =>
    intro leaves exposed h
    have hround : ∀ l ∈ Text.nameDiff
        (Text.nameUnion leaves ((leaves.filter net.isXorGate).flatMap net.inputsOf))
        (Text.nameUnion exposed (leaves.filter net.isXorGate)), P l := by
      intro l hl
      rcases Text.mem_nameUnion.mp (Text.mem_nameDiff.mp hl).1 with hl | hl
      · exact h l hl
      · obtain ⟨x, hx, hlx⟩ := List.mem_flatMap.mp hl
        obtain ⟨hxl, hxor⟩ := List.mem_filter.mp hx
        exact hP x l (h x hxl) hxor hlx
    simp only [Network.absorb]
    split
    · exact hround
    · exact ih hround

theorem absorb_reads {net : Network} {n : String} (fuel : Nat) :
    ∀ {leaves exposed : List String}, (∀ l ∈ leaves, Relation.TransGen net.Reads l n) →
      ∀ l ∈ (net.absorb fuel leaves exposed).1, Relation.TransGen net.Reads l n :=
  absorb_keeps _ (fun _ _ hx _ hy => .head (reads_of_mem_inputsOf hy) hx) fuel

/-- A round of absorption for the gate `n` reading `ins`: the leaves, in
increasing order, and the gates exposed besides `n` split the XOR trees of
`ins` into the part passed and the trees below the leaves, and the values of
the leaves XOR to the value of `n`. -/
structure Absorbing (net : Network) (n : String) (ins leaves exposed : List String) : Prop where
  increasing : Text.Increasing leaves
  split : ∃ E : List String, (E ++ leaves.flatMap net.cone).Perm (ins.flatMap net.cone) ∧
    ∀ x, x ∈ exposed ↔ x = n ∨ x ∈ E
  value : ∀ s, xorAll (leaves.map (net.value s)) = net.value s n

theorem absorbing_start {net : Network} {n : String} {ins : List String}
    (htree : (ins.flatMap net.cone).Nodup) (hins : ∀ s, net.value s n = xorAll (ins.map (net.value s))) :
    Absorbing net n ins (Text.nameSet ins) [n] := by
  have hnd : ins.Nodup := nodup_of_nodup_flatMap htree (mem_cone_self net)
  have hset : (Text.nameSet ins).Perm ins :=
    (List.perm_ext_iff_of_nodup (Text.increasing_nameSet ins).nodup hnd).mpr
      fun _ => Text.mem_nameSet
  refine ⟨Text.increasing_nameSet ins, ⟨[], hset.flatMap_right _, by simp⟩, ?_⟩
  intro s
  rw [hins, xorAll_perm (hset.map _)]

theorem flatMap_cone_perm_open {net : Network} (hacyc : net.Acyclic) (leaves : List String) :
    (leaves.flatMap net.cone).Perm (leaves.filter net.isXorGate ++
      ((leaves.filter fun x => !net.isXorGate x) ++
        (leaves.filter net.isXorGate).flatMap net.inputsOf).flatMap net.cone) := by
  set xs := leaves.filter net.isXorGate
  set rest := leaves.filter fun x => !net.isXorGate x
  have hopen : (xs.flatMap net.cone).Perm (xs ++ (xs.flatMap net.inputsOf).flatMap net.cone) := by
    have hcone : xs.flatMap net.cone =
        xs.flatMap fun x => x :: (net.inputsOf x).flatMap net.cone := by
      refine List.flatMap_congr fun x hx => ?_
      obtain ⟨g, hg, hxor, hin⟩ := isXorGate_spec (List.of_mem_filter hx)
      rw [cone_of_gate hacyc hg, coneStep, if_pos hxor, hin]
    rw [hcone, List.flatMap_assoc]
    exact flatMap_cons_perm xs _
  calc (leaves.flatMap net.cone).Perm ((xs ++ rest).flatMap net.cone) :=
        (List.filter_append_perm _ _).symm.flatMap_right _
    _ = xs.flatMap net.cone ++ rest.flatMap net.cone := List.flatMap_append
    List.Perm _ ((xs ++ (xs.flatMap net.inputsOf).flatMap net.cone) ++ rest.flatMap net.cone) :=
        hopen.append_right _
    List.Perm _ (xs ++ (rest ++ xs.flatMap net.inputsOf).flatMap net.cone) := by
        rw [List.append_assoc, List.flatMap_append]
        exact (List.perm_append_comm).append_left xs

section Absorb

variable {net : Network} (hacyc : net.Acyclic)
  (hgates : ∀ e ∈ net.gates, e.2.Neutral ∧ e.2.Parsed)
  {n : String} {ins : List String} (htree : (ins.flatMap net.cone).Nodup)
  (hn : n ∉ ins.flatMap net.cone)
include hacyc hgates htree hn

theorem Absorbing.step {leaves exposed : List String} (h : Absorbing net n ins leaves exposed) :
    Absorbing net n ins
      (Text.nameDiff (Text.nameUnion leaves ((leaves.filter net.isXorGate).flatMap net.inputsOf))
        (Text.nameUnion exposed (leaves.filter net.isXorGate)))
      (Text.nameUnion exposed (leaves.filter net.isXorGate)) := by
  obtain ⟨E, hperm, hexp⟩ := h.split
  set xs := leaves.filter net.isXorGate with hxs
  set rest := leaves.filter fun x => !net.isXorGate x
  set R := rest ++ xs.flatMap net.inputsOf
  have hleaves : (leaves.flatMap net.cone).Perm (xs ++ R.flatMap net.cone) :=
    flatMap_cone_perm_open hacyc leaves
  have hperm' : ((E ++ xs) ++ R.flatMap net.cone).Perm (ins.flatMap net.cone) := by
    rw [List.append_assoc]
    exact (hleaves.append_left E).symm.trans hperm
  have hnd := hperm'.nodup_iff.mpr htree
  have hRcone : (R.flatMap net.cone).Nodup := (List.nodup_append.mp hnd).2.1
  have hR : R.Nodup := nodup_of_nodup_flatMap hRcone (mem_cone_self net)
  have hRout : ∀ y ∈ R, y ∉ E ∧ y ∉ xs ∧ y ≠ n := by
    intro y hy
    have hyc : y ∈ R.flatMap net.cone := List.mem_flatMap.mpr ⟨y, hy, mem_cone_self net y⟩
    have hsep := (List.nodup_append.mp hnd).2.2
    refine ⟨fun hyE => hsep y (List.mem_append_left _ hyE) y hyc rfl,
      fun hyx => hsep y (List.mem_append_right _ hyx) y hyc rfl, ?_⟩
    rintro rfl
    exact hn (hperm'.subset (List.mem_append_right _ hyc))
  have hmem : ∀ y, y ∈ Text.nameDiff (Text.nameUnion leaves (xs.flatMap net.inputsOf))
      (Text.nameUnion exposed xs) ↔ y ∈ R := by
    intro y
    rw [Text.mem_nameDiff, Text.mem_nameUnion, Text.mem_nameUnion, hexp]
    constructor
    · rintro ⟨hy | hy, hout⟩
      · have hyx : y ∉ xs := fun hyx => hout (Or.inr hyx)
        refine List.mem_append_left _ (List.mem_filter.mpr ⟨hy, ?_⟩)
        simpa [hxs, hy] using hyx
      · exact List.mem_append_right _ hy
    · intro hy
      obtain ⟨hyE, hyx, hyn⟩ := hRout y hy
      refine ⟨?_, by tauto⟩
      rcases List.mem_append.mp hy with hy | hy
      · exact Or.inl (List.mem_filter.mp hy).1
      · exact Or.inr hy
  have hinc := Text.increasing_nameDiff (Text.nameUnion exposed xs)
    (Text.increasing_nameUnion (xs.flatMap net.inputsOf) h.increasing)
  have hLR := (List.perm_ext_iff_of_nodup hinc.nodup hR).mpr hmem
  refine ⟨hinc, ⟨E ++ xs, ((hLR.flatMap_right _).append_left _).trans hperm', ?_⟩, ?_⟩
  · intro x
    rw [Text.mem_nameUnion, hexp, List.mem_append]
    tauto
  · intro s
    have hxor : xs.map (fun x => xorAll ((net.inputsOf x).map (net.value s))) =
        xs.map (net.value s) := by
      refine List.map_congr_left fun x hx => ?_
      obtain ⟨g, hg, hxor, hin⟩ := isXorGate_spec (List.of_mem_filter hx)
      have hand : g.isAnd = false := by
        cases g with
        | binary op => cases op <;> simp_all [Gate.isXor, Gate.isAnd]
        | buffer => rfl
      rw [hin, value_eq_xorAll hacyc hgates s hg hand]
    have hsplit : xorAll (leaves.map (net.value s)) =
        (xorAll (xs.map (net.value s)) ^^ xorAll (rest.map (net.value s))) := by
      rw [← xorAll_append, ← List.map_append]
      exact xorAll_perm ((List.filter_append_perm _ _).symm.map _)
    rw [xorAll_perm (hLR.map _), List.map_append, xorAll_append, xorAll_flatMap, hxor,
      ← h.value s, hsplit, Bool.xor_comm]

theorem Absorbing.absorb (fuel : Nat) {leaves exposed : List String}
    (h : Absorbing net n ins leaves exposed) :
    Absorbing net n ins (net.absorb fuel leaves exposed).1 (net.absorb fuel leaves exposed).2 := by
  induction fuel generalizing leaves exposed with
  | zero => exact h
  | succ fuel ih =>
    have hstep := h.step hacyc hgates htree hn
    simp only [Network.absorb]
    split
    · exact hstep
    · exact ih hstep

end Absorb

theorem expandable_spec {net : Network} {x : String} (h : net.expandable x = .ok true) :
    ∃ g, net.gate? x = some g ∧ g.isAnd = true := by
  unfold expandable at h
  split_ifs at h
  · cases h
  · split at h
    · cases h
    · rename_i g hg
      split_ifs at h with hand
      · exact ⟨g, hg, hand⟩
      · cases h

/-- A product with the names `e` replaced by the inputs of their gates. -/
def expand (net : Network) (p e : List String) : List String :=
  Text.nameDiff (Text.nameUnion p (e.flatMap net.inputsOf)) e

theorem grow_succ_ok {net : Network} {b : Bound} {fuel : Nat} {p r : List String}
    (h : net.grow b (fuel + 1) p = .ok r) :
    r = p ∨ ∃ e, p.filterM net.expandable = .ok e ∧ e ≠ [] ∧
      ((b.admits (net.expand p e).length = .ok true ∧ net.grow b fuel (net.expand p e) = .ok r) ∨
        r = net.expand p e) := by
  simp only [grow] at h
  obtain ⟨c, -, h⟩ := bind_eq_ok h
  split at h
  · obtain ⟨e, hfilter, h⟩ := bind_eq_ok h
    split at h
    · cases h
      exact Or.inl rfl
    · rename_i hne
      obtain ⟨c', hc', h⟩ := bind_eq_ok h
      refine Or.inr ⟨e, hfilter, by simpa using hne, ?_⟩
      split at h
      · rename_i htrue
        exact Or.inl ⟨htrue ▸ hc', h⟩
      · cases h
        exact Or.inr rfl
  · cases h
    exact Or.inl rfl

theorem mem_expand {net : Network} {p e : List String} {y : String} (hy : y ∈ net.expand p e) :
    y ∉ e ∧ (y ∈ p ∨ ∃ x ∈ e, net.Reads y x) := by
  obtain ⟨hy, hye⟩ := Text.mem_nameDiff.mp hy
  refine ⟨hye, ?_⟩
  rcases Text.mem_nameUnion.mp hy with hy | hy
  · exact Or.inl hy
  · obtain ⟨x, hx, hyx⟩ := List.mem_flatMap.mp hy
    exact Or.inr ⟨x, hx, reads_of_mem_inputsOf hyx⟩

theorem grow_reach {net : Network} (b : Bound) : ∀ (fuel : Nat) (p r : List String),
    net.grow b fuel p = .ok r → ∀ y ∈ r, ∃ x ∈ p, Relation.ReflTransGen net.Reads y x := by
  intro fuel
  induction fuel with
  | zero =>
    intro p r h y hy
    cases h
    exact ⟨y, hy, .refl⟩
  | succ fuel ih =>
    intro p r h
    rcases grow_succ_ok h with rfl | ⟨e, hfilter, -, hnext⟩
    · exact fun y hy => ⟨y, hy, .refl⟩
    have hround : ∀ y ∈ net.expand p e, ∃ x ∈ p, Relation.ReflTransGen net.Reads y x := by
      intro y hy
      rcases (mem_expand hy).2 with hy | ⟨x, hx, hyx⟩
      · exact ⟨y, hy, .refl⟩
      · exact ⟨x, (mem_of_filterM hfilter x hx).1, .single hyx⟩
    rcases hnext with ⟨-, h⟩ | rfl
    · intro y hy
      obtain ⟨x', hx', hyx'⟩ := ih _ _ h y hy
      obtain ⟨x, hx, hx'x⟩ := hround x' hx'
      exact ⟨x, hx, hyx'.trans hx'x⟩
    · exact hround

section Grow

variable {net : Network} (hacyc : net.Acyclic)
  (hgates : ∀ e ∈ net.gates, e.2.Neutral ∧ e.2.Parsed)
include hgates

theorem value_unset (x : String) : net.value (fun _ => false) x = false := by
  unfold value
  generalize net.gates.length = k
  induction k generalizing x with
  | zero => rfl
  | succ k ih =>
    simp only [descend]
    split
    · rename_i g hg
      obtain ⟨hn, hp⟩ := hgates _ (gate?_mem hg)
      generalize net.descend (fun _ => false) (fun _ g f => g.eval f) k = f at ih ⊢
      cases g with
      | binary op a b na nb no =>
        cases op with
        | and =>
          obtain ⟨rfl, rfl, rfl⟩ := hn
          simp [Gate.eval, BinOp.eval, ih]
        | or => cases hp
        | xor =>
          simp only [Gate.Neutral] at hn
          simp only [Gate.Parsed] at hp
          subst hn hp
          simp [Gate.eval, BinOp.eval, ih]
      | buffer a => simp [Gate.eval, ih]
    · rfl

include hacyc

theorem all_expand (s : String → Bool) {p e : List String}
    (he : ∀ x ∈ e, x ∈ p ∧ ∃ g, net.gate? x = some g ∧ g.isAnd = true) :
    (net.expand p e).all (net.value s) = p.all (net.value s) := by
  have hv : ∀ x ∈ e, ∃ g, net.gate? x = some g ∧ net.inputsOf x = g.inputs ∧
      net.value s x = g.inputs.all (net.value s) := by
    intro x hx
    obtain ⟨-, g, hg, hand⟩ := he x hx
    exact ⟨g, hg, by simp [inputsOf, hg], value_eq_all hacyc hgates s hg hand⟩
  rw [Bool.eq_iff_iff, List.all_eq_true, List.all_eq_true]
  constructor
  · intro hp'
    have key : ∀ k, ∀ x ∈ e, ¬ Below net k x → net.value s x = true := by
      intro k
      induction k with
      | zero =>
        intro x hx hb
        obtain ⟨g, hg, -⟩ := (he x hx).2
        exact absurd ⟨g, hg⟩ hb
      | succ k ih =>
        intro x hx hb
        obtain ⟨g, hg, -, hvx⟩ := hv x hx
        rw [hvx, List.all_eq_true]
        intro a ha
        by_cases hae : a ∈ e
        · exact ih a hae fun hba => hb ⟨a, ⟨g, hg, ha⟩, hba⟩
        · refine hp' a (Text.mem_nameDiff.mpr ⟨Text.mem_nameUnion.mpr (Or.inr ?_), hae⟩)
          exact List.mem_flatMap.mpr ⟨x, hx, by simpa [inputsOf, hg] using ha⟩
    intro x hx
    by_cases hxe : x ∈ e
    · exact key _ x hxe fun hb => Nat.lt_irrefl _ (below_lt_length hacyc hb)
    · exact hp' x (Text.mem_nameDiff.mpr ⟨Text.mem_nameUnion.mpr (Or.inl hx), hxe⟩)
  · intro hp y hy
    rcases Text.mem_nameUnion.mp (Text.mem_nameDiff.mp hy).1 with hy | hy
    · exact hp y hy
    · obtain ⟨x, hx, hyx⟩ := List.mem_flatMap.mp hy
      obtain ⟨g, -, hin, hvx⟩ := hv x hx
      have hxv := hp x (he x hx).1
      rw [hvx, List.all_eq_true] at hxv
      exact hxv y (hin ▸ hyx)

theorem grow_all (b : Bound) : ∀ (fuel : Nat) (p r : List String), net.grow b fuel p = .ok r →
    ∀ s, r.all (net.value s) = p.all (net.value s) := by
  intro fuel
  induction fuel with
  | zero =>
    intro p r h s
    cases h
    rfl
  | succ fuel ih =>
    intro p r h s
    rcases grow_succ_ok h with rfl | ⟨e, hfilter, -, hnext⟩
    · rfl
    have he : ∀ x ∈ e, x ∈ p ∧ ∃ g, net.gate? x = some g ∧ g.isAnd = true := by
      intro x hx
      obtain ⟨hxp, hxe⟩ := mem_of_filterM hfilter x hx
      exact ⟨hxp, expandable_spec hxe⟩
    rcases hnext with ⟨-, h⟩ | rfl
    · rw [ih _ _ h s, all_expand hacyc hgates s he]
    · exact all_expand hacyc hgates s he

end Grow

theorem cutOf_reads {net : Network} {b : Bound} {n : String} {g : Gate}
    (hg : net.gate? n = some g) (hand : g.isAnd = false) {c : Cut} (h : net.cutOf b n g = .ok c) :
    ∃ exposed products, c = .block n exposed products ∧
      ∀ p ∈ products, ∀ y ∈ p, Relation.TransGen net.Reads y n := by
  have habs : ∀ l ∈ (net.absorb (net.gates.length + 2) (Text.nameSet g.inputs) [n]).1,
      Relation.TransGen net.Reads l n :=
    absorb_reads _ fun l hl => .single ⟨g, hg, Text.mem_nameSet.mp hl⟩
  rcases hr : net.absorb (net.gates.length + 2) (Text.nameSet g.inputs) [n] with ⟨leaves, exposed⟩
  rw [hr] at habs
  unfold cutOf at h
  rw [if_neg (by simp [hand])] at h
  simp only [hr] at h
  obtain ⟨products, hmap, h⟩ := bind_eq_ok h
  simp only [pure, Except.pure, Except.ok.injEq] at h
  subst h
  refine ⟨exposed, products, rfl, fun p hp y hy => ?_⟩
  obtain ⟨l, hl, hlp⟩ := exists_of_forall₂ (forall₂_of_mapM hmap) hp
  obtain ⟨x, hx, hyx⟩ := grow_reach b _ _ _ hlp y hy
  rw [List.mem_singleton] at hx
  subst hx
  exact Relation.TransGen.trans_right hyx (habs x hl)

section Blocks

variable {net : Network} (hacyc : net.Acyclic)
  (hgates : ∀ e ∈ net.gates, e.2.Neutral ∧ e.2.Parsed)
include hacyc hgates

theorem cutOf_block_of_tree (b : Bound) {n : String} {g : Gate} (hg : net.gate? n = some g)
    (hand : g.isAnd = false) (htree : (g.inputs.flatMap net.cone).Nodup) {c : Cut}
    (h : net.cutOf b n g = .ok c) :
    ∃ exposed products, c = .block n exposed products ∧
      (∀ s, xorAll (products.map fun p => p.all (net.value s)) = net.value s n) ∧
      ∀ p ∈ products, p ≠ [] ∧ ∀ y ∈ p, Relation.TransGen net.Reads y n := by
  obtain ⟨exposed', products', hc, hreads⟩ := cutOf_reads hg hand h
  have hn : n ∉ g.inputs.flatMap net.cone := by
    intro hmem
    obtain ⟨a, ha, hna⟩ := List.mem_flatMap.mp hmem
    exact hacyc n (Relation.TransGen.tail' (reach_of_mem_cone net hna) ⟨g, hg, ha⟩)
  have habs := (absorbing_start htree fun s => value_eq_xorAll hacyc hgates s hg hand).absorb
    hacyc hgates htree hn (net.gates.length + 2)
  rcases hr : net.absorb (net.gates.length + 2) (Text.nameSet g.inputs) [n] with ⟨leaves, exposed⟩
  rw [hr] at habs
  unfold cutOf at h
  rw [if_neg (by simp [hand])] at h
  simp only [hr] at h
  obtain ⟨products, hmap, h⟩ := bind_eq_ok h
  simp only [pure, Except.pure, Except.ok.injEq] at h
  subst h
  obtain ⟨-, rfl, rfl⟩ := Cut.block.inj hc
  have hgrow := forall₂_of_mapM hmap
  refine ⟨exposed, products, rfl, ?_, fun p hp => ⟨?_, hreads p hp⟩⟩
  · -- each product has the AND of the value of its leaf
    have hxor : ∀ {ls : List String} {ps : List (List String)},
        List.Forall₂ (fun l p => net.grow b (net.gates.length + 2) [l] = .ok p) ls ps →
        ∀ s, xorAll (ps.map fun p => p.all (net.value s)) = xorAll (ls.map (net.value s)) := by
      intro ls ps hls
      induction hls with
      | nil => exact fun _ => rfl
      | cons hlp _ ih =>
        intro s
        rw [List.map_cons, List.map_cons, xorAll_cons, xorAll_cons, ih s,
          grow_all hacyc hgates b _ _ _ hlp s, List.all_cons, List.all_nil, Bool.and_true]
    intro s
    rw [hxor hgrow s]
    exact habs.value s
  · -- with every input unset the leaf is unset, so its product has a name
    rintro rfl
    obtain ⟨l, -, hlp⟩ := exists_of_forall₂ hgrow hp
    have h0 := grow_all hacyc hgates b _ _ _ hlp fun _ => false
    rw [List.all_nil, List.all_cons, List.all_nil, Bool.and_true, value_unset hgates l] at h0
    cases h0

theorem cutOf_block (htrees : net.XorTrees) (b : Bound) {n : String} {g : Gate}
    (hg : net.gate? n = some g) (hand : g.isAnd = false) {c : Cut} (h : net.cutOf b n g = .ok c) :
    ∃ exposed products, c = .block n exposed products ∧
      (∀ s, xorAll (products.map fun p => p.all (net.value s)) = net.value s n) ∧
      ∀ p ∈ products, p ≠ [] ∧ ∀ y ∈ p, Relation.TransGen net.Reads y n :=
  cutOf_block_of_tree hacyc hgates b hg hand (htrees n g hg hand) h

end Blocks

theorem cutOf_conj {net : Network} {b : Bound} {n : String} {g : Gate} {c : Cut}
    (hand : g.isAnd = true) (h : net.cutOf b n g = .ok c) : c = .conj n g.inputs := by
  unfold cutOf at h
  rw [if_pos hand] at h
  simp only [pure, Except.pure, Except.ok.injEq] at h
  exact h.symm

/-- The block views `cs` are those of the network's primary inputs and gates, for
the bound `b`. -/
def CutsOf (net : Network) (b : Bound) (cs : List (String × Cut)) : Prop :=
  ∀ x c, cs.lookup x = some c →
    (x ∈ net.inputs ∧ c = .source x) ∨ ∃ g, net.gate? x = some g ∧ net.cutOf b x g = .ok c

theorem mem_foldl_sources (l : List String) :
    ∀ (t : List (String × Cut)), ∀ e ∈ l.foldl (fun t p => Table.put t p (.source p)) t,
      e ∈ t ∨ (e.1 ∈ l ∧ e.2 = .source e.1) := by
  induction l with
  | nil => exact fun t e he => Or.inl he
  | cons p l ih =>
    intro t e he
    rcases ih _ e he with he | ⟨hel, hes⟩
    · rcases Table.mem_put he with rfl | he
      · exact Or.inr ⟨List.mem_cons_self, rfl⟩
      · exact Or.inl he
    · exact Or.inr ⟨List.mem_cons_of_mem p hel, hes⟩

theorem cutsOf_cuts {net : Network} (hkeys : net.KeysNodup) {b : Bound}
    {cs : List (String × Cut)} (h : net.cuts b = .ok cs) : net.CutsOf b cs := by
  let Entry : List (String × Cut) → Prop := fun t => ∀ e ∈ t,
    (e.1 ∈ net.inputs ∧ e.2 = .source e.1) ∨ ∃ g, net.gate? e.1 = some g ∧ net.cutOf b e.1 g = .ok e.2
  have hstart : Entry (net.inputs.foldl (fun t p => Table.put t p (.source p)) []) := by
    intro e he
    rcases mem_foldl_sources net.inputs [] e he with he | he
    · cases he
    · exact Or.inl he
  have hgates : ∀ (l : List (String × Gate)) (t r : List (String × Cut)),
      (∀ e ∈ l, e ∈ net.gates) → Entry t →
      l.foldlM (fun t e => do return Table.put t e.1 (← net.cutOf b e.1 e.2)) t = .ok r → Entry r := by
    intro l
    induction l with
    | nil =>
      intro t r _ ht hr
      simp only [List.foldlM_nil, pure, Except.pure, Except.ok.injEq] at hr
      exact hr ▸ ht
    | cons e l ih =>
      intro t r hl ht hr
      rw [List.foldlM_cons] at hr
      obtain ⟨t1, h1, hr⟩ := bind_eq_ok hr
      obtain ⟨c, hc, h1⟩ := bind_eq_ok h1
      simp only [pure, Except.pure, Except.ok.injEq] at h1
      subst h1
      refine ih _ r (fun e' he' => hl e' (List.mem_cons_of_mem e he')) ?_ hr
      intro e' he'
      rcases Table.mem_put he' with rfl | he'
      · exact Or.inr ⟨e.2, gate?_of_mem hkeys (hl e List.mem_cons_self), hc⟩
      · exact ht e' he'
  unfold cuts at h
  have hentry := hgates net.gates _ cs (fun e he => he) hstart h
  intro x c hx
  obtain ⟨l₁, l₂, hcs, -⟩ := List.lookup_eq_some_iff.mp hx
  exact hentry (x, c) (by rw [hcs]; simp)

end Network

end XagSynth
