import Mathlib
import XagSynth.Network.Gate
import XagSynth.Proofs.Text.Pieces

/-!
# The value of an assignment as read

An operand is a run of `~` before a name (`Operand`); the reader negates it
when it holds any `~`, Verilog once per `~`, and the two agree when the run is
empty or odd (`negated_eq_parity`). On assignments with blanks around `=` and
the operator, the gate read has the Verilog value of the source under that
condition (`ofText_value`).
-/

namespace XagSynth.Netlist

open Network Text

/-- A name that can stand as an operand: nonempty, without blanks, `=`,
operator marks or `~`. -/
structure OperandName (x : String) : Prop where
  ne_nil : x.toList ≠ []
  no_blank : ∀ c ∈ x.toList, isBlank c = false
  no_sign : ∀ c ∈ x.toList, c ∉ ['=', '&', '|', '^', '~']

instance (x : String) : Decidable (OperandName x) :=
  decidable_of_iff (x.toList ≠ [] ∧
      (x.toList.all fun c => !isBlank c && !(['=', '&', '|', '^', '~'].contains c)) = true)
    (by
      simp only [List.all_eq_true, Bool.and_eq_true, Bool.not_eq_eq_eq_not, Bool.not_true,
        List.contains_eq_mem, decide_eq_false_iff_not]
      exact ⟨fun ⟨h₁, h₂⟩ => ⟨h₁, fun c hc => (h₂ c hc).1, fun c hc => (h₂ c hc).2⟩,
        fun h => ⟨h.1, fun c hc => ⟨h.2 c hc, h.3 c hc⟩⟩⟩)

theorem mark_inj {op op' : BinOp} (h : op.mark = op'.mark) : op = op' := by
  revert h
  cases op <;> cases op' <;> decide

theorem isBlank_mark (op : BinOp) : isBlank op.mark = false := by
  cases op <;> decide

theorem isBlank_equals : isBlank '=' = false := by decide

theorem strip_blanks {g g' x : List Char} (hg : Blanks g) (hg' : Blanks g')
    (hx : stripChars x = x) : Text.strip (String.ofList (g ++ x ++ g')) = String.ofList x := by
  rw [Text.strip, String.toList_ofList, stripChars_blank_append hg hg', hx]

theorem splitOn_append_cons {d : Char} {a b : List Char} (ha : d ∉ a) (hb : d ∉ b) :
    Text.splitOn d (String.ofList (a ++ d :: b)) = [String.ofList a, String.ofList b] := by
  simp only [Text.splitOn, String.toList_ofList]
  rw [splitChars_append_cons ha, splitChars_of_not_mem hb]
  rfl

theorem OperandName.not_mem {x : String} (hx : OperandName x) {d : Char}
    (hd : d ∈ ['=', '&', '|', '^', '~']) : d ∉ x.toList :=
  fun h => hx.no_sign d h hd

/-- An operand as written: a run of `~` before a name. -/
structure Operand where
  tildes : Nat
  name : String

namespace Operand

def chars (o : Operand) : List Char := List.replicate o.tildes '~' ++ o.name.toList

/-- Whether the reader negates the operand: whether it holds a `~`. -/
def negated (o : Operand) : Bool := o.tildes != 0

/-- The value of the operand in Verilog: its name's, negated once per `~`. -/
def value (v : String → Bool) (o : Operand) : Bool := v o.name ^^ (o.tildes % 2 == 1)

theorem negated_eq_parity {o : Operand} (h : o.tildes = 0 ∨ o.tildes % 2 = 1) :
    o.negated = (o.tildes % 2 == 1) := by
  rcases h with h | h
  · simp [negated, h]
  · have hne : o.tildes ≠ 0 := by omega
    simp [negated, h, hne]

variable {o : Operand}

theorem not_mem_chars (ho : OperandName o.name) {d : Char} (hd : d ∈ ['=', '&', '|', '^']) :
    d ∉ o.chars := by
  have hname : d ∉ o.name.toList := ho.not_mem (by
    simp only [List.mem_cons, List.not_mem_nil, or_false] at hd ⊢
    tauto)
  have htilde : d ≠ '~' := by
    rintro rfl
    exact absurd hd (by decide)
  simp [chars, hname, htilde, List.mem_replicate]

theorem chars_ne_nil (ho : OperandName o.name) : o.chars ≠ [] := by
  simp [chars, ho.ne_nil]

theorem head_chars (ho : OperandName o.name) : ∀ c ∈ o.chars.head?, isBlank c = false := by
  cases hk : o.tildes with
  | zero =>
    simp only [chars, hk, List.replicate_zero, List.nil_append]
    exact fun c hc => ho.no_blank c (List.mem_of_mem_head? hc)
  | succ k =>
    simp only [chars, hk, List.replicate_succ, List.cons_append, List.head?_cons, Option.mem_def,
      Option.some.injEq]
    rintro c rfl
    decide

theorem getLast_chars (ho : OperandName o.name) : ∀ c ∈ o.chars.getLast?, isBlank c = false := by
  rw [chars, List.getLast?_append_of_ne_nil _ ho.ne_nil]
  exact fun c hc => ho.no_blank c (List.mem_of_mem_getLast? hc)

theorem strip_chars (ho : OperandName o.name) : stripChars o.chars = o.chars :=
  stripChars_of_ends (head_chars ho) (getLast_chars ho)

theorem replaceChars_tildes {x : List Char} (hx : '~' ∉ x) :
    ∀ k, replaceChars ['~'] [] (List.replicate k '~' ++ x) = x
  | 0 => replaceChars_of_absent (by rwa [List.singleton_infix_iff])
  | k + 1 => by
    rw [List.replicate_succ, List.cons_append]
    show replaceChars ['~'] [] (['~'] ++ (List.replicate k '~' ++ x)) = x
    rw [replaceChars_append (by simp), replaceChars_tildes hx k, List.nil_append]

theorem operand_chars (ho : OperandName o.name) :
    operand (String.ofList o.chars) = (o.negated, o.name) := by
  have ht : '~' ∉ o.name.toList := ho.not_mem (by simp)
  have herase : Text.erase "~" (String.ofList o.chars) = o.name := by
    simp only [Text.erase, Text.replace, String.toList_ofList, chars]
    rw [show "~".toList = ['~'] by simp, show "".toList = [] by simp, replaceChars_tildes ht,
      String.ofList_toList]
  rw [operand, herase, String.toList_ofList]
  cases hk : o.tildes <;> simp [chars, negated, hk, ht, List.replicate_succ]

end Operand

/-! ## Finding the operator -/

theorem find?_eq_some {s : String} {op : BinOp}
    (h : ∀ op' : BinOp, op'.mark ∈ s.toList ↔ op' = op) : BinOp.find? s = some op := by
  have hc : ∀ op' : BinOp, s.toList.contains op'.mark = decide (op' = op) := by
    intro op'
    rw [Bool.eq_iff_iff, List.contains_iff_mem, h op', decide_eq_true_iff]
  cases op <;> simp only [BinOp.find?, hc] <;> decide

theorem find?_eq_none {s : String} (h : ∀ op : BinOp, op.mark ∉ s.toList) :
    BinOp.find? s = none := by
  simp [BinOp.find?, h]

theorem mark_mem_signs (op : BinOp) : op.mark ∈ ['=', '&', '|', '^'] := by
  cases op <;> decide

/-! ## Reading an assignment -/

section Read

variable {y : String} {g₀ g₁ : List Char} (mapOr : Bool)

theorem strip_target (hy : Text.strip y = y) (hg₀ : Blanks g₀) :
    Text.strip (String.ofList (y.toList ++ g₀)) = y := by
  have hchars : stripChars y.toList = y.toList := by
    simpa [Text.strip] using congrArg String.toList hy
  simpa using strip_blanks blanks_nil hg₀ hchars

theorem ofText_binary {l r : Operand} {op : BinOp} {g₂ g₃ : List Char}
    (hy : Text.strip y = y) (hy' : '=' ∉ y.toList) (hl : OperandName l.name)
    (hr : OperandName r.name) (hg₀ : Blanks g₀) (hg₁ : Blanks g₁) (hg₂ : Blanks g₂)
    (hg₃ : Blanks g₃) :
    Assignment.ofText (String.ofList
        (y.toList ++ g₀ ++ '=' :: (g₁ ++ l.chars ++ g₂ ++ op.mark :: (g₃ ++ r.chars)))) mapOr =
      .ok ⟨y, if mapOr && op == .or then .binary .and l.name r.name (!l.negated) (!r.negated) true
        else .binary op l.name r.name l.negated r.negated false⟩ := by
  have hmark : ∀ op' : BinOp, op'.mark ∉ l.chars ∧ op'.mark ∉ r.chars ∧ op'.mark ∉ g₂ ∧
      op'.mark ∉ g₃ := fun op' =>
    ⟨Operand.not_mem_chars hl (mark_mem_signs op'), Operand.not_mem_chars hr (mark_mem_signs op'),
      hg₂.not_mem (isBlank_mark op'), hg₃.not_mem (isBlank_mark op')⟩
  have h₁ : '=' ∉ y.toList ++ g₀ := by simp [hy', hg₀.not_mem isBlank_equals]
  have h₂ : '=' ∉ g₁ ++ (l.chars ++ g₂ ++ op.mark :: (g₃ ++ r.chars)) := by
    have hop : op.mark ≠ '=' := by cases op <;> decide
    simp [hg₁.not_mem isBlank_equals, hg₂.not_mem isBlank_equals,
      hg₃.not_mem isBlank_equals, Operand.not_mem_chars hl (by simp : '=' ∈ _),
      Operand.not_mem_chars hr (by simp : '=' ∈ _), Ne.symm hop]
  have hends : stripChars (l.chars ++ g₂ ++ op.mark :: (g₃ ++ r.chars)) =
      l.chars ++ g₂ ++ op.mark :: (g₃ ++ r.chars) := by
    refine stripChars_of_ends ?_ ?_
    · rw [List.append_assoc, List.head?_append_of_ne_nil _ (Operand.chars_ne_nil hl)]
      exact Operand.head_chars hl
    · rw [show l.chars ++ g₂ ++ op.mark :: (g₃ ++ r.chars) =
          (l.chars ++ g₂ ++ op.mark :: g₃) ++ r.chars by simp,
        List.getLast?_append_of_ne_nil _ (Operand.chars_ne_nil hr)]
      exact Operand.getLast_chars hr
  have hsource := strip_blanks hg₁ blanks_nil hends
  rw [List.append_nil] at hsource
  have hfind : BinOp.find? (String.ofList (l.chars ++ g₂ ++ op.mark :: (g₃ ++ r.chars))) =
      some op := by
    refine find?_eq_some fun op' => ⟨fun h => ?_, fun h => by simp [h]⟩
    obtain ⟨h1, h2, h3, h4⟩ := hmark op'
    simp only [String.toList_ofList, List.mem_append, List.mem_cons, h1, h2, h3, h4, false_or,
      or_false] at h
    exact mark_inj h
  have hsplit := splitOn_append_cons (by simp [(hmark op).1, (hmark op).2.2.1] :
    op.mark ∉ l.chars ++ g₂) (by simp [(hmark op).2.1, (hmark op).2.2.2] : op.mark ∉ g₃ ++ r.chars)
  have hleft := strip_blanks blanks_nil hg₂ (Operand.strip_chars hl)
  have hright := strip_blanks hg₃ blanks_nil (Operand.strip_chars hr)
  simp only [List.nil_append, List.append_nil] at hleft hright
  rw [Assignment.ofText, List.append_assoc g₁, List.append_assoc g₁, splitOn_append_cons h₁ h₂]
  simp only [pairOf, bind, Except.bind, strip_target hy hg₀, hsource, hfind, hsplit, hleft, hright,
    Operand.operand_chars hl, Operand.operand_chars hr]
  split <;> rfl

theorem ofText_copy {u : Operand} (hy : Text.strip y = y) (hy' : '=' ∉ y.toList)
    (hu : OperandName u.name) (hg₀ : Blanks g₀) (hg₁ : Blanks g₁) :
    Assignment.ofText (String.ofList (y.toList ++ g₀ ++ '=' :: (g₁ ++ u.chars))) mapOr =
      .ok ⟨y, .buffer u.name⟩ := by
  have h₁ : '=' ∉ y.toList ++ g₀ := by simp [hy', hg₀.not_mem isBlank_equals]
  have h₂ : '=' ∉ g₁ ++ u.chars := by
    simp [hg₁.not_mem isBlank_equals, Operand.not_mem_chars hu (by simp : '=' ∈ _)]
  have hsource := strip_blanks hg₁ blanks_nil (Operand.strip_chars hu)
  rw [List.append_nil] at hsource
  have hfind : BinOp.find? (String.ofList u.chars) = none :=
    find?_eq_none fun op => by
      simpa using Operand.not_mem_chars hu (mark_mem_signs op)
  have herase : Text.erase "~" (String.ofList u.chars) = u.name :=
    congrArg Prod.snd (Operand.operand_chars hu)
  rw [Assignment.ofText, splitOn_append_cons h₁ h₂]
  simp only [pairOf, bind, Except.bind, strip_target hy hg₀, hsource, hfind, herase]

end Read

theorem eval_read (v : String → Bool) (op : BinOp) (mapOr : Bool) (l r : Operand) :
    (if mapOr && op == .or then Gate.binary .and l.name r.name (!l.negated) (!r.negated) true
      else .binary op l.name r.name l.negated r.negated false).eval v =
      op.eval (v l.name ^^ l.negated) (v r.name ^^ r.negated) := by
  cases mapOr <;> cases op <;> simp [Gate.eval, BinOp.eval]

/-- On an assignment with blanks of any length around `=` and its operator,
none inside an operand, the gate read drives the target and reads the operands'
names. Its value is the Verilog value of the source when each run of `~` is
empty or odd, and a copy's value is that of its operand when the run is even. -/
theorem ofText_value {y : String} {l r u : Operand} {g₀ g₁ g₂ g₃ : List Char} (op : BinOp)
    (mapOr : Bool) (hy : Text.strip y = y) (hy' : '=' ∉ y.toList) (hl : OperandName l.name)
    (hr : OperandName r.name) (hu : OperandName u.name) (hg₀ : Blanks g₀) (hg₁ : Blanks g₁)
    (hg₂ : Blanks g₂) (hg₃ : Blanks g₃) (hlk : l.tildes = 0 ∨ l.tildes % 2 = 1)
    (hrk : r.tildes = 0 ∨ r.tildes % 2 = 1) (huk : u.tildes % 2 = 0) :
    (∃ g, Assignment.ofText (String.ofList
        (y.toList ++ g₀ ++ '=' :: (g₁ ++ l.chars ++ g₂ ++ op.mark :: (g₃ ++ r.chars)))) mapOr =
          .ok ⟨y, g⟩ ∧ g.inputs = [l.name, r.name] ∧
        ∀ v, g.eval v = op.eval (l.value v) (r.value v)) ∧
      ∃ g, Assignment.ofText (String.ofList (y.toList ++ g₀ ++ '=' :: (g₁ ++ u.chars))) mapOr =
          .ok ⟨y, g⟩ ∧ g.inputs = [u.name] ∧ ∀ v, g.eval v = u.value v := by
  refine ⟨⟨_, ofText_binary mapOr hy hy' hl hr hg₀ hg₁ hg₂ hg₃, ?_, fun v => ?_⟩,
    ⟨_, ofText_copy mapOr hy hy' hu hg₀ hg₁, rfl, fun v => ?_⟩⟩
  · split <;> rfl
  · rw [eval_read, Operand.negated_eq_parity hlk, Operand.negated_eq_parity hrk]
    rfl
  · simp [Gate.eval, Operand.value, huk]

/-- The law at `y = ~~~a1 | b` and `y = ~~c`, read with `mapOr`, with blanks of
several kinds. -/
theorem ofText_value_or_copy :
    (∃ g, Assignment.ofText (String.ofList ("y".toList ++ [' '] ++ '=' ::
        ([' '] ++ (⟨3, "a1"⟩ : Operand).chars ++ ['\t'] ++ BinOp.or.mark ::
          ([' ', ' '] ++ (⟨0, "b"⟩ : Operand).chars)))) true = .ok ⟨"y", g⟩ ∧
        g.inputs = ["a1", "b"] ∧
        ∀ v, g.eval v = BinOp.or.eval ((⟨3, "a1"⟩ : Operand).value v) ((⟨0, "b"⟩ : Operand).value v)) ∧
      ∃ g, Assignment.ofText (String.ofList ("y".toList ++ [' '] ++ '=' ::
          ([' '] ++ (⟨2, "c"⟩ : Operand).chars))) true = .ok ⟨"y", g⟩ ∧
        g.inputs = ["c"] ∧ ∀ v, g.eval v = (⟨2, "c"⟩ : Operand).value v :=
  @ofText_value "y" ⟨3, "a1"⟩ ⟨0, "b"⟩ ⟨2, "c"⟩ [' '] [' '] ['\t'] [' ', ' '] .or true
    (by decide) (by decide) (by decide) (by decide) (by decide) (by decide) (by decide) (by decide)
    (by decide) (by decide) (by decide) (by decide)

theorem ofText_eq_ok_of_toOption {text : String} {mapOr : Bool} {a : Assignment}
    (h : (Assignment.ofText text mapOr).toOption = some a) :
    Assignment.ofText text mapOr = .ok a := by
  cases hr : Assignment.ofText text mapOr with
  | error e => simp [hr, Except.toOption] at h
  | ok b =>
    simp only [hr, Except.toOption, Option.some.injEq] at h
    rw [h]

/-- Three readings the law leaves out: a blank after `~` stays in the name, two
`~` negate, and a copy loses its `~`. -/
theorem ofText_tilde_readings :
    Assignment.ofText "y = ~ a & b" true = .ok ⟨"y", .binary .and " a" "b" true false false⟩ ∧
      Assignment.ofText "y = ~~a & b" true = .ok ⟨"y", .binary .and "a" "b" true false false⟩ ∧
      Assignment.ofText "y = ~a" true = .ok ⟨"y", .buffer "a"⟩ :=
  ⟨ofText_eq_ok_of_toOption (by decide +kernel), ofText_eq_ok_of_toOption (by decide +kernel),
    ofText_eq_ok_of_toOption (by decide +kernel)⟩

end XagSynth.Netlist
