import Mathlib
import XagSynth.Proofs.Network.Netlist

/-!
# Writing a network without gates and reading it back

Reading back what `Network.toVerilog` writes gives the network again, inputs
and outputs in order and with repetitions (`ofVerilog_toVerilog`), when every
name can stand in a list on one line (`Listable`) and does not hold the keyword
of its declaration (`Declarable`).
-/

namespace XagSynth.Netlist

open Network Text

/-- A name that can stand in a comma-separated list on one line. -/
structure Listable (x : String) : Prop where
  ne_empty : x ≠ ""
  trimmed : Text.strip x = x
  no_comma : ',' ∉ x.toList
  unbroken : Unbroken x.toList
  no_semi_end : ¬ [';'] <:+ x.toList

/-- A name that a declaration of keyword `kw` can list. -/
structure Declarable (kw x : String) : Prop extends Listable x where
  avoids : ¬ kw.toList <:+: x.toList

instance (x : String) : Decidable (Listable x) :=
  decidable_of_iff (x ≠ "" ∧ Text.strip x = x ∧ ',' ∉ x.toList ∧ Unbroken x.toList ∧
      ¬ [';'] <:+ x.toList)
    ⟨fun ⟨h₁, h₂, h₃, h₄, h₅⟩ => ⟨h₁, h₂, h₃, h₄, h₅⟩, fun h => ⟨h.1, h.2, h.3, h.4, h.5⟩⟩

instance (kw x : String) : Decidable (Declarable kw x) :=
  decidable_of_iff (Listable x ∧ ¬ kw.toList <:+: x.toList)
    ⟨fun ⟨h₁, h₂⟩ => ⟨h₁, h₂⟩, fun h => ⟨h.1, h.2⟩⟩

namespace Listable

variable {x : String}

theorem ne_nil (hx : Listable x) : x.toList ≠ [] :=
  fun h => hx.ne_empty (String.ext_iff.mpr (by simp [h]))

theorem strip (hx : Listable x) : stripChars x.toList = x.toList := by
  simpa [Text.strip] using congrArg String.toList hx.trimmed

theorem head (hx : Listable x) : ∀ c ∈ x.toList.head?, isBlank c = false :=
  head_of_stripChars_eq hx.strip

theorem getLast (hx : Listable x) : ∀ c ∈ x.toList.getLast?, isBlank c = false ∧ c ≠ ';' := by
  intro c hc
  refine ⟨getLast_of_stripChars_eq hx.strip c hc, ?_⟩
  rintro rfl
  exact hx.no_semi_end (List.singleton_suffix_iff_getLast?_eq_some.mpr hc)

end Listable

/-! ## Names written as a list -/

def commaList (xs : List String) : List Char := (", ".intercalate xs).toList

theorem toList_intercalate_comma (xs : List String) : (", ".intercalate xs).toList = commaList xs :=
  rfl

@[simp] theorem commaList_nil : commaList [] = [] := by simp [commaList]

@[simp] theorem commaList_singleton (x : String) : commaList [x] = x.toList := by
  simp [commaList]

@[simp] theorem commaList_cons_cons (x y : String) (ys : List String) :
    commaList (x :: y :: ys) = x.toList ++ ',' :: ' ' :: commaList (y :: ys) := by
  simp [commaList]

section Listed

theorem head_commaList {x : String} {xs : List String} (hx : Listable x) :
    (commaList (x :: xs)).head? = x.toList.head? := by
  cases xs with
  | nil => simp
  | cons y ys => rw [commaList_cons_cons, List.head?_append_of_ne_nil _ hx.ne_nil]

theorem commaList_ne_nil {x : String} {xs : List String} (hx : Listable x) :
    commaList (x :: xs) ≠ [] := by
  intro h
  have hhead := @head_commaList x xs hx
  rw [h, List.head?_nil, eq_comm, List.head?_eq_none_iff] at hhead
  exact hx.ne_nil hhead

theorem unbroken_commaList :
    ∀ {xs : List String}, (∀ x ∈ xs, Listable x) → Unbroken (commaList xs)
  | [], _ => by simp [Unbroken]
  | [x], h => by simpa using (h x (by simp)).unbroken
  | x :: y :: ys, h => by
    rw [commaList_cons_cons]
    have hsep : Unbroken [',', ' '] := by decide
    exact unbroken_append.mpr ⟨(h x List.mem_cons_self).unbroken, unbroken_append.mpr
      ⟨hsep, unbroken_commaList fun z hz => h z (List.mem_cons_of_mem x hz)⟩⟩

theorem getLast_commaList :
    ∀ {xs : List String}, (∀ x ∈ xs, Listable x) →
      ∀ c ∈ (commaList xs).getLast?, isBlank c = false ∧ c ≠ ';'
  | [], _ => by simp
  | [x], h => by simpa using (h x (by simp)).getLast
  | x :: y :: ys, h => by
    have hne := @commaList_ne_nil y ys (h y (by simp))
    rw [commaList_cons_cons, show x.toList ++ ',' :: ' ' :: commaList (y :: ys) =
        (x.toList ++ [',', ' ']) ++ commaList (y :: ys) by simp,
      List.getLast?_append_of_ne_nil _ hne]
    exact getLast_commaList fun z hz => h z (List.mem_cons_of_mem x hz)

theorem stripChars_commaList {xs : List String} (h : ∀ x ∈ xs, Listable x) :
    stripChars (commaList xs) = commaList xs := by
  refine stripChars_of_ends ?_ fun c hc => (getLast_commaList h c hc).1
  cases xs with
  | nil => simp
  | cons x xs =>
    rw [head_commaList (h x List.mem_cons_self)]
    exact (h x List.mem_cons_self).head

theorem commaList_avoids {pat : List Char} (hpat : pat ≠ []) (hsep : ',' ∉ pat ∧ ' ' ∉ pat) :
    ∀ {xs : List String}, (∀ x ∈ xs, ¬ pat <:+: x.toList) → ¬ pat <:+: commaList xs
  | [], _ => by simpa using hpat
  | [x], h => by simpa using h x (by simp)
  | x :: y :: ys, h => by
    rw [commaList_cons_cons]
    intro hin
    rcases infix_append_cons hsep.1 hin with hx | hrest
    · exact h x List.mem_cons_self hx
    · have hrest' : pat <:+: commaList (y :: ys) :=
        infix_of_infix_append_left hpat (by simpa using hsep.2)
          (show pat <:+: [' '] ++ commaList (y :: ys) from hrest)
      exact commaList_avoids hpat hsep (fun z hz => h z (List.mem_cons_of_mem x hz)) hrest'

theorem splitCharsFrom_commaList :
    ∀ {x : String} {xs : List String}, (∀ z ∈ x :: xs, ',' ∉ z.toList) → ∀ cur : List Char,
      splitCharsFrom ',' cur (commaList (x :: xs)) =
        (cur.reverse ++ x.toList) :: xs.map fun y => ' ' :: y.toList
  | x, [], h, cur => by
    rw [commaList_singleton, splitCharsFrom_of_not_mem cur (h x (by simp)), List.map_nil]
  | x, y :: ys, h, cur => by
    rw [commaList_cons_cons, splitCharsFrom_append_cons cur (h x List.mem_cons_self),
      splitCharsFrom, if_neg (by decide),
      splitCharsFrom_commaList (fun z hz => h z (List.mem_cons_of_mem x hz)) [' ']]
    simp

theorem items_commaList {kw : String} {xs : List String} (hkw : kw.toList ≠ [])
    (hsep : ',' ∉ kw.toList ∧ ' ' ∉ kw.toList) (h : ∀ x ∈ xs, Declarable kw x) :
    items (String.ofList (kw.toList ++ ' ' :: commaList xs)) kw = xs := by
  have hlist : ∀ x ∈ xs, Listable x := fun x hx => (h x hx).toListable
  have hrest : ¬ kw.toList <:+: [' '] ++ commaList xs := fun hin =>
    commaList_avoids hkw hsep (fun x hx => (h x hx).avoids)
      (infix_of_infix_append_left hkw (by simpa using hsep.2) hin)
  have hstrip :
      Text.strip (String.ofList ([' '] ++ commaList xs)) = String.ofList (commaList xs) := by
    simpa using strip_blanks blanks_space blanks_nil (stripChars_commaList hlist)
  unfold items
  rw [show kw.toList ++ ' ' :: commaList xs = kw.toList ++ ([' '] ++ commaList xs) from rfl,
    erase_keyword hkw hrest, hstrip]
  cases xs with
  | nil => rfl
  | cons x xs =>
    have hfirst : Text.strip (String.ofList x.toList) = x := by
      rw [String.ofList_toList]
      exact (hlist x List.mem_cons_self).trimmed
    have hnext : ∀ y ∈ xs, Text.strip (String.ofList (' ' :: y.toList)) = y := by
      intro y hy
      have hy' := (hlist y (List.mem_cons_of_mem x hy)).strip
      simpa using strip_blanks blanks_space blanks_nil hy'
    have hkept : ∀ y ∈ x :: xs, (!y.isEmpty) = true := by
      intro y hy
      simpa using (hlist y hy).ne_empty
    rw [Text.splitOn, String.toList_ofList, splitChars,
      splitCharsFrom_commaList (fun z hz => (hlist z hz).no_comma) []]
    simp only [List.reverse_nil, List.nil_append, List.map_cons, List.map_map, Function.comp_def,
      hfirst]
    rw [List.map_congr_left (fun y hy => hnext y hy), List.map_id_fun', id,
      List.filter_eq_self.mpr hkept]

end Listed

/-! ## Reading the written lines -/

theorem statement_passed {net : Network} {c : Char} {r : List Char}
    (hc : c ≠ 'i' ∧ c ≠ 'o' ∧ c ≠ 'a') : net.statement (String.ofList (c :: r)) = .ok net := by
  obtain ⟨hi, ho, ha⟩ := hc
  simp [statement, String.startsWith_string_iff, Ne.symm hi, Ne.symm ho, Ne.symm ha]
  rfl

theorem statement_inputs {net : Network} {xs : List String} (h : ∀ x ∈ xs, Declarable "input" x) :
    net.statement (String.ofList ("input".toList ++ ' ' :: commaList xs)) =
      .ok { net with inputs := net.inputs ++ xs } := by
  have hitems := items_commaList (by decide) (by decide) h
  have hin : (String.ofList ("input".toList ++ ' ' :: commaList xs)).startsWith "input" = true := by
    simp
  have has :
      (String.ofList ("input".toList ++ ' ' :: commaList xs)).startsWith "assign" = false := by
    simp
  simp only [statement, hin, has, if_true, hitems]
  rfl

theorem statement_outputs {net : Network} {xs : List String}
    (h : ∀ x ∈ xs, Declarable "output" x) :
    net.statement (String.ofList ("output".toList ++ ' ' :: commaList xs)) =
      .ok { net with outputs := net.outputs ++ xs } := by
  have hitems := items_commaList (by decide) (by decide) h
  have hin :
      (String.ofList ("output".toList ++ ' ' :: commaList xs)).startsWith "input" = false := by
    simp
  have hout :
      (String.ofList ("output".toList ++ ' ' :: commaList xs)).startsWith "output" = true := by
    simp
  have has :
      (String.ofList ("output".toList ++ ' ' :: commaList xs)).startsWith "assign" = false := by
    simp
  simp only [statement, hin, hout, has, Bool.false_eq_true, if_true, if_false, hitems]
  rfl

theorem readLines_header {net : Network} {xs : List String} (h : ∀ x ∈ xs, Listable x)
    (rest : List String) :
    readLines net none ("module top(" :: ", ".intercalate xs :: ");" :: rest) =
      readLines net none rest := by
  have hopen : Text.strip "module top(" = "module top(" := by decide
  have hnames : Text.strip (", ".intercalate xs) = ", ".intercalate xs := by
    rw [Text.strip, toList_intercalate_comma, stripChars_commaList h, commaList,
      String.ofList_toList]
  have hclose : Text.strip ");" = ");" := by decide
  have hlast : ∀ d ∈ ("module top(".toList ++ commaList xs).getLast?, d ≠ ';' := by
    intro d hd
    cases xs with
    | nil =>
      obtain rfl : '(' = d := by simpa using hd
      decide
    | cons x xs =>
      rw [List.getLast?_append_of_ne_nil _ (commaList_ne_nil (h x List.mem_cons_self))] at hd
      exact (getLast_commaList h d hd).2
  have hopen_semi : ¬ [';'] <:+ [] ++ "module top(".toList := by decide
  have hnames_semi : ¬ [';'] <:+ "module top(".toList ++ commaList xs :=
    fun hs => hlast ';' (List.singleton_suffix_iff_getLast?_eq_some.mp hs) rfl
  show readLines net (pendingOf []) _ = _
  rw [readLines_line (by simp [hopen]), hopen, if_neg hopen_semi, List.nil_append,
    readLines_line (by simp), hnames, toList_intercalate_comma, if_neg hnames_semi,
    readLines_line (by simp), hclose,
    if_pos ((show [';'] <:+ ");".toList by decide).trans (List.suffix_append _ _)),
    show "module top(".toList ++ commaList xs ++ ");".toList =
      ('m' :: ("odule top(".toList ++ commaList xs)) ++ [')'] ++ [';'] by simp,
    finish_of_getLast (by rw [List.getLast?_concat]; rintro d ⟨⟩; decide), List.cons_append,
    statement_passed (by decide)]
  rfl

theorem readLines_declaration {net net' : Network} {kw : String} {xs : List String}
    (hne : kw.toList ≠ []) (hkw : ∀ c ∈ kw.toList.head?, isBlank c = false ∧ c ≠ '/' ∧ c ≠ 'e')
    (h : ∀ x ∈ xs, Listable x)
    (hst : net.statement (String.ofList (kw.toList ++ ' ' :: commaList xs)) = .ok net')
    (rest : List String) :
    readLines net none (("  " ++ kw ++ " " ++ ", ".intercalate xs ++ ";") :: rest) =
      readLines net' none rest := by
  have hhead : ∀ c ∈ (kw.toList ++ ' ' :: commaList xs ++ [';']).head?, isBlank c = false ∧
      c ≠ '/' ∧ c ≠ 'e' := by
    rw [List.append_assoc, List.head?_append_of_ne_nil _ hne]
    exact hkw
  have hstrip : (Text.strip ("  " ++ kw ++ " " ++ ", ".intercalate xs ++ ";")).toList =
      kw.toList ++ ' ' :: commaList xs ++ [';'] := by
    rw [Text.strip, String.toList_ofList,
      show ("  " ++ kw ++ " " ++ ", ".intercalate xs ++ ";").toList =
        [' ', ' '] ++ (kw.toList ++ ' ' :: commaList xs ++ [';']) ++ [] by simp [commaList],
      stripChars_blank_append (by decide) blanks_nil,
      stripChars_of_ends (fun c hc => (hhead c hc).1)
        (by rw [List.getLast?_concat]; rintro d ⟨⟩; decide)]
  have hbody : ∀ d ∈ (kw.toList ++ ' ' :: commaList xs).getLast?, d ≠ ';' := by
    cases xs with
    | nil =>
      rw [commaList_nil, List.getLast?_concat]
      rintro d ⟨⟩
      decide
    | cons x xs =>
      rw [show kw.toList ++ ' ' :: commaList (x :: xs) = (kw.toList ++ [' ']) ++ commaList (x :: xs)
        by simp, List.getLast?_append_of_ne_nil _ (commaList_ne_nil (h x List.mem_cons_self))]
      exact fun d hd => (getLast_commaList h d hd).2
  show readLines net (pendingOf []) _ = _
  rw [readLines_line (by rw [List.nil_append, hstrip]; exact fun c hc => (hhead c hc).2),
    List.nil_append, hstrip, if_pos (List.suffix_append _ _), finish_of_getLast hbody, hst]
  rfl

theorem readLines_wire {net : Network} (rest : List String) :
    readLines net none ("  wire ;" :: rest) = readLines net none rest := by
  have hstrip : Text.strip "  wire ;" = "wire ;" := by decide
  show readLines net (pendingOf []) _ = _
  rw [readLines_line (by simp [hstrip]), hstrip, if_pos (by decide),
    show ([] : List Char) ++ "wire ;".toList = ('w' :: "ire ".toList) ++ [';'] by simp,
    finish_of_getLast (by simp), statement_passed (by decide)]
  rfl

theorem lines_toVerilog {net : Network} {text : String} (hw : net.toVerilog = .ok text)
    (h : ∀ x ∈ net.inputs ++ net.outputs, Listable x) :
    Text.lines text = ["module top(", ", ".intercalate (net.inputs ++ net.outputs), ");",
      "  " ++ "input" ++ " " ++ ", ".intercalate net.inputs ++ ";",
      "  " ++ "output" ++ " " ++ ", ".intercalate net.outputs ++ ";", "  wire ;", "endmodule"] := by
  unfold toVerilog at hw
  split at hw
  · cases hw
    have hdecl : ∀ kw xs, Unbroken kw.toList → (∀ x ∈ xs, Listable x) →
        Unbroken ("  " ++ kw ++ " " ++ ", ".intercalate xs ++ ";").toList := by
      intro kw xs hkw hxs
      simp only [String.toList_append, unbroken_append, toList_intercalate_comma]
      exact ⟨⟨⟨⟨by decide, hkw⟩, by decide⟩, unbroken_commaList hxs⟩, by decide⟩
    apply lines_of_toList
    · simp
    · simp only [List.forall_mem_cons, List.not_mem_nil, IsEmpty.forall_iff, forall_const,
        and_true]
      exact ⟨by decide, unbroken_commaList h, by decide,
        hdecl _ _ (by decide) fun x hx => h x (List.mem_append_left _ hx),
        hdecl _ _ (by decide) fun x hx => h x (List.mem_append_right _ hx), by decide, by decide⟩
  · cases hw

/-! ## The round trip -/

/-- A network without gates whose names can be declared is read back from the
text written for it, with its inputs and outputs in order and as often as they
occur. -/
theorem ofVerilog_toVerilog {net : Network} (hgates : net.gates = [])
    (hin : ∀ x ∈ net.inputs, Declarable "input" x)
    (hout : ∀ x ∈ net.outputs, Declarable "output" x) :
    (net.toVerilog >>= ofVerilog) = .ok net := by
  have hall : ∀ x ∈ net.inputs ++ net.outputs, Listable x := by
    intro x hx
    rcases List.mem_append.mp hx with hx | hx
    · exact (hin x hx).toListable
    · exact (hout x hx).toListable
  obtain ⟨text, htext⟩ : ∃ text, net.toVerilog = .ok text :=
    ⟨_, by rw [toVerilog, if_pos (by simp [hgates])]⟩
  rw [htext]
  show readLines {} none (Text.lines text) = .ok net
  rw [lines_toVerilog htext hall, readLines_header hall,
    readLines_declaration (by decide) (by simp [isBlank]) (fun x hx => (hin x hx).toListable)
      (statement_inputs hin),
    readLines_declaration (by decide) (by simp [isBlank]) (fun x hx => (hout x hx).toListable)
      (statement_outputs hout),
    readLines_wire, readLines_endmodule (by decide)]
  cases net
  simp_all

/-- Names with blanks, `//`, `;`, `endmodule` or the other keyword inside, and
repeated names, come back as written. -/
theorem ofVerilog_toVerilog_unusual_names :
    (∀ x ∈ ["//z", "x y", "x y"], Declarable "input" x) ∧
      (∀ x ∈ ["endmodule;o", "input"], Declarable "output" x) ∧
      (({ inputs := ["//z", "x y", "x y"], outputs := ["endmodule;o", "input"] } : Network).toVerilog
        >>= ofVerilog) = .ok { inputs := ["//z", "x y", "x y"], outputs := ["endmodule;o", "input"] } :=
  have hin : ∀ x ∈ ["//z", "x y", "x y"], Declarable "input" x := by decide
  have hout : ∀ x ∈ ["endmodule;o", "input"], Declarable "output" x := by decide
  ⟨hin, hout, ofVerilog_toVerilog rfl hin hout⟩

end XagSynth.Netlist
