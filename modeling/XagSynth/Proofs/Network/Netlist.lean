import Mathlib
import XagSynth.Proofs.Network.Assignment
import XagSynth.Proofs.Network.Read
import XagSynth.Proofs.Text.Pieces

/-!
# Netlists are read as written

A statement (`Stmt`) of the small Verilog subset the reader accepts is written
with blanks of any length between its parts (`Stmt.Written`), and a text lays
statements out over lines between blank and comment lines (`Layout`). When no
name holds its statement's keyword and none is assigned twice, the reader
returns the declared inputs, outputs and gates in order
(`ofVerilog_eq_of_layout`).
-/

namespace XagSynth.Netlist

open Network Text

def isNameChar (c : Char) : Bool := c.isAlphanum || c == '_' || c == '$'

/-- A name: a nonempty run of letters, digits, `_` and `$`. Every simple
identifier is one. -/
def IsName (x : String) : Prop := x.toList ≠ [] ∧ ∀ c ∈ x.toList, isNameChar c = true

instance : DecidablePred IsName := fun x =>
  decidable_of_iff (x.toList ≠ [] ∧ x.toList.all isNameChar = true) (by simp [IsName])

theorem isBlank_of_isNameChar {c : Char} (h : isNameChar c = true) : isBlank c = false := by
  simp only [isNameChar, Char.isAlphanum, Char.isAlpha, Char.isUpper, Char.isLower, Char.isDigit,
    Bool.or_eq_true, Bool.and_eq_true, decide_eq_true_eq, beq_iff_eq, ge_iff_le,
    UInt32.le_iff_toNat_le] at h
  have hn : c.toNat = c.val.toNat := rfl
  simp only [isBlank, Bool.or_eq_false_iff, Bool.and_eq_false_iff, decide_eq_false_iff_not,
    beq_eq_false_iff_ne, hn]
  rcases h with (h | rfl) | rfl
  · have : 'A'.val.toNat = 65 := rfl
    have : 'Z'.val.toNat = 90 := rfl
    have : 'a'.val.toNat = 97 := rfl
    have : 'z'.val.toNat = 122 := rfl
    have : '0'.val.toNat = 48 := rfl
    have : '9'.val.toNat = 57 := rfl
    omega
  · decide
  · decide

theorem not_mem_of_not_isNameChar {pat : List Char} (hpat : ∀ c ∈ pat, isNameChar c = true)
    {d : Char} (hd : isNameChar d = false) : d ∉ pat :=
  fun h => by simp [hpat d h] at hd

theorem not_mem_of_blanks {pat g : List Char} (hpat : ∀ c ∈ pat, isNameChar c = true)
    (hg : Blanks g) : ∀ d ∈ g, d ∉ pat := by
  intro d hd hmem
  have := isBlank_of_isNameChar (hpat d hmem)
  simp [hg d hd] at this

/-- A character that stands between the parts of a statement: neither a name
character nor a blank. -/
structure Separator (d : Char) : Prop where
  not_name : isNameChar d = false
  not_blank : isBlank d = false

namespace Separator

theorem comma : Separator ',' := ⟨by decide, by decide⟩

theorem equals : Separator '=' := ⟨by decide, by decide⟩

theorem semicolon : Separator ';' := ⟨by decide, by decide⟩

theorem tilde : Separator '~' := ⟨by decide, by decide⟩

theorem not_mem_blanks {d : Char} (hd : Separator d) {g : List Char} (hg : Blanks g) : d ∉ g :=
  hg.not_mem hd.not_blank

end Separator

/-- An operand of an assignment: a name, negated by `~` or not. -/
structure Literal where
  neg : Bool
  name : String

def Literal.chars (l : Literal) : List Char := (if l.neg then ['~'] else []) ++ l.name.toList

/-- The right side of an assignment. -/
inductive Source where
  | copy (l : Literal)
  | apply (op : BinOp) (l r : Literal)

namespace Source

def names : Source → List String
  | .copy l => [l.name]
  | .apply _ l r => [l.name, r.name]

/-- The gate an assignment from a source drives: a copy drops its negation,
and an OR is the AND of the negated operands, negated. -/
def gate : Source → Gate
  | .copy l => .buffer l.name
  | .apply .or l r => .binary .and l.name r.name (!l.neg) (!r.neg) true
  | .apply op l r => .binary op l.name r.name l.neg r.neg false

/-- A source written with one space on each side of its operator. -/
def text : Source → String
  | .copy l => String.ofList l.chars
  | .apply op l r => String.ofList (l.chars ++ ' ' :: op.mark :: ' ' :: r.chars)

/-- How a source may be written: names as names, blanks around the operator. -/
inductive Written : Source → List Char → Prop
  | copy {l : Literal} : IsName l.name → Written (.copy l) l.chars
  | apply {op : BinOp} {l r : Literal} {g g' : List Char} : IsName l.name → IsName r.name →
      Blanks g → Blanks g' → Written (.apply op l r) (l.chars ++ g ++ op.mark :: (g' ++ r.chars))

end Source

/-- A statement of a netlist. -/
inductive Stmt where
  | module (name : String) (ports : List String)
  | input (names : List String)
  | output (names : List String)
  | wire (names : List String)
  | assign (target : String) (src : Source)

/-- Names separated by commas, with blanks on both sides of each comma. -/
inductive Listed : List String → List Char → Prop
  | one {x : String} : IsName x → Listed [x] x.toList
  | cons {x : String} {xs : List String} {g g' cs : List Char} : IsName x → Blanks g →
      Blanks g' → Listed xs cs → Listed (x :: xs) (x.toList ++ g ++ ',' :: (g' ++ cs))

/-- A declaration `kw names`, with blanks around the names. -/
def Declared (kw : String) (names : List String) (cs : List Char) : Prop :=
  ∃ g body g', Blanks g ∧ Listed names body ∧ Blanks g' ∧ cs = kw.toList ++ g ++ body ++ g'

namespace Stmt

/-- How a statement may be written before its `;`: blanks of any length
between its parts. -/
inductive Written : Stmt → List Char → Prop
  | module {name : String} {ports : List String} {g₀ g₁ g₂ g₃ g₄ body : List Char} :
      IsName name → Blanks g₀ → Blanks g₁ → Blanks g₂ → Blanks g₃ → Blanks g₄ →
      Listed ports body →
      Written (.module name ports)
        ("module".toList ++ g₀ ++ name.toList ++ g₁ ++ '(' :: (g₂ ++ body ++ g₃ ++ ')' :: g₄))
  | input {names : List String} {cs : List Char} : Declared "input" names cs →
      Written (.input names) cs
  | output {names : List String} {cs : List Char} : Declared "output" names cs →
      Written (.output names) cs
  | wire {names : List String} {cs : List Char} : Declared "wire" names cs →
      Written (.wire names) cs
  | assign {t : String} {src : Source} {g₀ g₁ g₂ g₃ scs : List Char} : IsName t → Blanks g₀ →
      Blanks g₁ → Blanks g₂ → Blanks g₃ → src.Written scs →
      Written (.assign t src) ("assign".toList ++ g₀ ++ t.toList ++ g₁ ++ '=' :: (g₂ ++ scs ++ g₃))

def inputs : Stmt → List String
  | .input names => names
  | _ => []

def outputs : Stmt → List String
  | .output names => names
  | _ => []

def targets : Stmt → List String
  | .assign t _ => [t]
  | _ => []

def gates : Stmt → List (String × Gate)
  | .assign t src => [(t, src.gate)]
  | _ => []

/-- No name of an input, output or assignment holds the keyword of its
statement. -/
def KeywordFree : Stmt → Prop
  | .input names => ∀ x ∈ names, ¬ "input".toList <:+: x.toList
  | .output names => ∀ x ∈ names, ¬ "output".toList <:+: x.toList
  | .assign t src => ∀ x ∈ t :: src.names, ¬ "assign".toList <:+: x.toList
  | _ => True

instance : DecidablePred KeywordFree
  | .input names => inferInstanceAs (Decidable (∀ x ∈ names, ¬ "input".toList <:+: x.toList))
  | .output names => inferInstanceAs (Decidable (∀ x ∈ names, ¬ "output".toList <:+: x.toList))
  | .assign t src =>
    inferInstanceAs (Decidable (∀ x ∈ t :: src.names, ¬ "assign".toList <:+: x.toList))
  | .module .. | .wire _ => isTrue trivial

/-- The network after a statement. -/
def step : Stmt → Network → Network
  | .input names, net => { net with inputs := net.inputs ++ names }
  | .output names, net => { net with outputs := net.outputs ++ names }
  | .assign t src, net => net.assign ⟨t, src.gate⟩
  | _, net => net

end Stmt

/-- How the lines of a netlist text fall into parts: blank lines and `//`
comments between statements, the lines of each statement, whose trimmed texts
join into a written form of it and its `;` with the last one not blank, and an
`endmodule` line after the statements. -/
inductive Layout : List String → List Stmt → Prop
  | endmodule {l : String} {rest : List String} :
      "endmodule".toList <+: (Text.strip l).toList → Layout (l :: rest) []
  | skip {l : String} {ls : List String} {ss : List Stmt} :
      (Text.strip l).toList = [] ∨ "//".toList <+: (Text.strip l).toList → Layout ls ss →
      Layout (l :: ls) ss
  | stmt {s : Stmt} {sl : List String} {l : String} {ls : List String} {ss : List Stmt}
      {body : List Char} : s.Written body →
      ((sl ++ [l]).map fun l => (Text.strip l).toList).flatten = body ++ [';'] →
      (Text.strip l).toList ≠ [] → Layout ls ss → Layout (sl ++ l :: ls) (s :: ss)

/-! ## Names, literals and sources -/

theorem IsName.not_mem {x : String} (hx : IsName x) {d : Char} (hd : isNameChar d = false) :
    d ∉ x.toList :=
  not_mem_of_not_isNameChar hx.2 hd

theorem Separator.not_mem_name {d : Char} (hd : Separator d) {x : String} (hx : IsName x) :
    d ∉ x.toList :=
  hx.not_mem hd.not_name

theorem IsName.head {x : String} (hx : IsName x) : ∀ c ∈ x.toList.head?, isBlank c = false :=
  fun c hc => isBlank_of_isNameChar (hx.2 c (List.mem_of_mem_head? hc))

theorem IsName.getLast {x : String} (hx : IsName x) :
    ∀ c ∈ x.toList.getLast?, isBlank c = false :=
  fun c hc => isBlank_of_isNameChar (hx.2 c (List.mem_of_mem_getLast? hc))

theorem IsName.strip {x : String} (hx : IsName x) : stripChars x.toList = x.toList :=
  stripChars_of_ends hx.head hx.getLast

theorem Separator.mark (op : BinOp) : Separator op.mark := by
  cases op <;> exact ⟨by decide, by decide⟩

theorem Literal.not_mem {l : Literal} (hl : IsName l.name) {d : Char} (hn : isNameChar d = false)
    (ht : d ≠ '~') : d ∉ l.chars := by
  cases h : l.neg <;> simp [Literal.chars, h, hl.not_mem hn, ht]

theorem Literal.ne_nil {l : Literal} (hl : IsName l.name) : l.chars ≠ [] := by
  simp [Literal.chars, hl.1]

theorem Literal.head {l : Literal} (hl : IsName l.name) :
    ∀ c ∈ l.chars.head?, isBlank c = false := by
  cases h : l.neg
  · simpa [Literal.chars, h] using hl.head
  · simp [Literal.chars, h]
    decide

theorem Literal.getLast {l : Literal} (hl : IsName l.name) :
    ∀ c ∈ l.chars.getLast?, isBlank c = false := by
  rw [Literal.chars, List.getLast?_append_of_ne_nil _ hl.1]
  exact hl.getLast

namespace Source.Written

variable {src : Source} {scs : List Char}

theorem not_mem (hs : src.Written scs) {d : Char} (hd : Separator d) (ht : d ≠ '~')
    (hm : ∀ op : BinOp, d ≠ op.mark) : d ∉ scs := by
  cases hs with
  | copy hl => exact Literal.not_mem hl hd.not_name ht
  | apply hl hr hg hg' =>
    simp [Literal.not_mem hl hd.not_name ht, Literal.not_mem hr hd.not_name ht,
      hd.not_mem_blanks hg, hd.not_mem_blanks hg', hm]

theorem head (hs : src.Written scs) : ∀ c ∈ scs.head?, isBlank c = false := by
  cases hs with
  | copy hl => exact Literal.head hl
  | apply hl _ _ _ =>
    rw [List.append_assoc, List.head?_append_of_ne_nil _ (Literal.ne_nil hl)]
    exact Literal.head hl

theorem getLast (hs : src.Written scs) : ∀ c ∈ scs.getLast?, isBlank c = false := by
  cases hs with
  | copy hl => exact Literal.getLast hl
  | apply _ hr _ _ =>
    rw [← List.cons_append, ← List.append_assoc,
      List.getLast?_append_of_ne_nil _ (Literal.ne_nil hr)]
    exact Literal.getLast hr

theorem strip (hs : src.Written scs) : stripChars scs = scs :=
  stripChars_of_ends hs.head hs.getLast

theorem ne_nil (hs : src.Written scs) : scs ≠ [] := by
  cases hs with
  | copy hl => exact Literal.ne_nil hl
  | apply hl _ _ _ => simp [Literal.ne_nil hl]

end Source.Written

/-! ## Keywords that no name holds -/

section Keyword

variable {pat : List Char}

theorem not_infix_blanks_append (hpat : pat ≠ []) (hname : ∀ c ∈ pat, isNameChar c = true)
    {g x : List Char} (hg : Blanks g) (hx : ¬ pat <:+: x) : ¬ pat <:+: g ++ x :=
  fun h => hx (infix_of_infix_append_left hpat (not_mem_of_blanks hname hg) h)

theorem not_infix_append_blanks (hpat : pat ≠ []) (hname : ∀ c ∈ pat, isNameChar c = true)
    {g x : List Char} (hg : Blanks g) (hx : ¬ pat <:+: x) : ¬ pat <:+: x ++ g :=
  fun h => hx (infix_of_infix_append_right hpat (not_mem_of_blanks hname hg) h)

theorem not_infix_append_cons (hname : ∀ c ∈ pat, isNameChar c = true) {a b : List Char}
    {d : Char} (hd : isNameChar d = false) (ha : ¬ pat <:+: a) (hb : ¬ pat <:+: b) :
    ¬ pat <:+: a ++ d :: b :=
  fun h => (infix_append_cons (not_mem_of_not_isNameChar hname hd) h).elim ha hb

theorem Listed.avoids (hpat : pat ≠ []) (hname : ∀ c ∈ pat, isNameChar c = true)
    {names : List String} {body : List Char} (hl : Listed names body)
    (hfree : ∀ x ∈ names, ¬ pat <:+: x.toList) : ¬ pat <:+: body := by
  induction hl with
  | one _ => exact hfree _ List.mem_cons_self
  | cons _ hg hg' _ ih =>
    refine not_infix_append_cons hname Separator.comma.not_name ?_ ?_
    · exact not_infix_append_blanks hpat hname hg (hfree _ List.mem_cons_self)
    · exact not_infix_blanks_append hpat hname hg'
        (ih fun y hy => hfree y (List.mem_cons_of_mem _ hy))

theorem Literal.avoids (hpat : pat ≠ []) (hname : ∀ c ∈ pat, isNameChar c = true)
    {l : Literal} (hl : ¬ pat <:+: l.name.toList) : ¬ pat <:+: l.chars := by
  cases h : l.neg
  · simpa [Literal.chars, h] using hl
  · have hnil : ¬ pat <:+: [] := fun h => hpat (List.infix_nil.mp h)
    have := not_infix_append_cons hname Separator.tilde.not_name hnil hl
    simpa [Literal.chars, h] using this

theorem Source.Written.avoids (hpat : pat ≠ []) (hname : ∀ c ∈ pat, isNameChar c = true)
    {src : Source} {scs : List Char} (hs : src.Written scs)
    (hfree : ∀ x ∈ src.names, ¬ pat <:+: x.toList) : ¬ pat <:+: scs := by
  cases hs with
  | copy _ => exact Literal.avoids hpat hname (hfree _ List.mem_cons_self)
  | apply _ _ hg hg' =>
    refine not_infix_append_cons hname (Separator.mark _).not_name ?_ ?_
    · exact not_infix_append_blanks hpat hname hg
        (Literal.avoids hpat hname (hfree _ (by simp [Source.names])))
    · exact not_infix_blanks_append hpat hname hg'
        (Literal.avoids hpat hname (hfree _ (by simp [Source.names])))

end Keyword

theorem erase_keyword {kw : String} {rest : List Char} (hkw : kw.toList ≠ [])
    (h : ¬ kw.toList <:+: rest) :
    Text.erase kw (String.ofList (kw.toList ++ rest)) = String.ofList rest := by
  simp only [Text.erase, Text.replace, String.toList_ofList]
  rw [replaceChars_append hkw, replaceChars_of_absent h]
  simp

/-! ## Lists of names -/

namespace Listed

variable {names : List String} {body : List Char}

theorem not_mem (hl : Listed names body) {d : Char} (hd : Separator d) (hc : d ≠ ',') :
    d ∉ body := by
  induction hl with
  | one hx => exact hd.not_mem_name hx
  | cons hx hg hg' _ ih =>
    simp [hd.not_mem_name hx, hd.not_mem_blanks hg, hd.not_mem_blanks hg', hc, ih]

theorem isName (hl : Listed names body) : ∀ x ∈ names, IsName x := by
  induction hl with
  | one hx => simpa using hx
  | cons hx _ _ _ ih => simpa [hx] using ih

theorem ne_nil (hl : Listed names body) : body ≠ [] := by
  cases hl with
  | one hx => exact hx.1
  | cons hx _ _ _ => simp [hx.1]

theorem strip (hl : Listed names body) : stripChars body = body := by
  refine stripChars_of_ends ?_ ?_
  · cases hl with
    | one hx => exact hx.head
    | cons hx _ _ _ =>
      rw [List.append_assoc, List.head?_append_of_ne_nil _ hx.1]
      exact hx.head
  · induction hl with
    | one hx => exact hx.getLast
    | cons _ _ _ hcs ih =>
      rw [← List.cons_append, ← List.append_assoc, List.getLast?_append_of_ne_nil _ hcs.ne_nil]
      exact ih

theorem split (hl : Listed names body) :
    ∀ {h : List Char}, Blanks h →
      (splitChars ',' (h ++ body)).map stripChars = names.map String.toList := by
  induction hl with
  | @one x hx =>
    intro h hh
    have hsep : ',' ∉ h ++ x.toList := by
      simp [Separator.comma.not_mem_blanks hh, Separator.comma.not_mem_name hx]
    rw [splitChars_of_not_mem hsep]
    simpa [hx.strip] using stripChars_blank_append hh blanks_nil x.toList
  | @cons x xs g g' cs hx hg hg' _ ih =>
    intro h hh
    have hsep : ',' ∉ h ++ x.toList ++ g := by
      simp [Separator.comma.not_mem_blanks hh, Separator.comma.not_mem_name hx,
        Separator.comma.not_mem_blanks hg]
    rw [← List.append_assoc, ← List.append_assoc, splitChars_append_cons hsep, List.map_cons,
      ih hg', stripChars_blank_append hh hg, hx.strip, List.map_cons]

end Listed

/-! ## Reading one statement -/

theorem items_declared {kw : String} {names : List String} {g body g' : List Char}
    (hkw : kw.toList ≠ []) (hname : ∀ c ∈ kw.toList, isNameChar c = true) (hg : Blanks g)
    (hl : Listed names body) (hg' : Blanks g') (hfree : ∀ x ∈ names, ¬ kw.toList <:+: x.toList) :
    items (String.ofList (kw.toList ++ g ++ body ++ g')) kw = names := by
  have hrest : ¬ kw.toList <:+: g ++ body ++ g' :=
    not_infix_append_blanks hkw hname hg'
      (not_infix_blanks_append hkw hname hg (hl.avoids hkw hname hfree))
  have hpieces : (splitChars ',' body).map (fun p => String.ofList (stripChars p)) = names := by
    have h := congrArg (List.map String.ofList) (hl.split blanks_nil)
    simpa [List.map_map, Function.comp_def] using h
  have hkept : ∀ x ∈ names, (!x.isEmpty) = true := by
    intro x hx
    simpa using (hl.isName x hx).1
  unfold items
  rw [show kw.toList ++ g ++ body ++ g' = kw.toList ++ (g ++ body ++ g') by simp,
    erase_keyword hkw hrest]
  simp only [Text.strip, Text.splitOn, String.toList_ofList, stripChars_blank_append hg hg',
    hl.strip, List.map_map, Function.comp_def]
  rw [hpieces, List.filter_eq_self.mpr hkept]

theorem items_assign {t : String} {src : Source} {g₀ g₁ g₂ g₃ scs : List Char} (ht : IsName t)
    (hg₀ : Blanks g₀) (hg₁ : Blanks g₁) (hg₂ : Blanks g₂) (hg₃ : Blanks g₃) (hs : src.Written scs)
    (hfree : ∀ x ∈ t :: src.names, ¬ "assign".toList <:+: x.toList) :
    items (String.ofList ("assign".toList ++ g₀ ++ t.toList ++ g₁ ++ '=' :: (g₂ ++ scs ++ g₃)))
      "assign" = [String.ofList (t.toList ++ g₁ ++ '=' :: (g₂ ++ scs))] := by
  have hkw : "assign".toList ≠ [] := by simp
  have hname : ∀ c ∈ "assign".toList, isNameChar c = true := by simp [isNameChar]
  have hitem : ¬ "assign".toList <:+: t.toList ++ g₁ ++ '=' :: (g₂ ++ scs) :=
    not_infix_append_cons hname Separator.equals.not_name
      (not_infix_append_blanks hkw hname hg₁ (hfree t List.mem_cons_self))
      (not_infix_blanks_append hkw hname hg₂
        (hs.avoids hkw hname fun x hx => hfree x (List.mem_cons_of_mem t hx)))
  have hrest := not_infix_append_blanks hkw hname hg₃ (not_infix_blanks_append hkw hname hg₀ hitem)
  have hstrip : stripChars (t.toList ++ g₁ ++ '=' :: (g₂ ++ scs)) =
      t.toList ++ g₁ ++ '=' :: (g₂ ++ scs) := by
    refine stripChars_of_ends ?_ ?_
    · rw [List.append_assoc, List.head?_append_of_ne_nil _ ht.1]
      exact ht.head
    · rw [← List.cons_append, ← List.append_assoc, List.getLast?_append_of_ne_nil _ hs.ne_nil]
      exact hs.getLast
  have hsep : ',' ∉ t.toList ++ g₁ ++ '=' :: (g₂ ++ scs) := by
    simp [Separator.comma.not_mem_name ht, Separator.comma.not_mem_blanks hg₁,
      Separator.comma.not_mem_blanks hg₂,
      hs.not_mem Separator.comma (by decide) (fun op => by cases op <;> decide)]
  unfold items
  rw [show "assign".toList ++ g₀ ++ t.toList ++ g₁ ++ '=' :: (g₂ ++ scs ++ g₃) =
      "assign".toList ++ (g₀ ++ (t.toList ++ g₁ ++ '=' :: (g₂ ++ scs)) ++ g₃) by simp,
    erase_keyword hkw hrest]
  simp only [Text.strip, Text.splitOn, String.toList_ofList, stripChars_blank_append hg₀ hg₃,
    hstrip, splitChars_of_not_mem hsep, List.map_cons, List.map_nil]
  simp

def Literal.toOperand (l : Literal) : Operand := ⟨if l.neg then 1 else 0, l.name⟩

@[simp] theorem Literal.name_toOperand (l : Literal) : l.toOperand.name = l.name := rfl

@[simp] theorem Literal.negated_toOperand (l : Literal) : l.toOperand.negated = l.neg := by
  cases h : l.neg <;> simp [Literal.toOperand, Operand.negated, h]

theorem Literal.chars_toOperand (l : Literal) : l.toOperand.chars = l.chars := by
  cases h : l.neg <;> simp [Literal.toOperand, Operand.chars, Literal.chars, h]

theorem IsName.operandName {x : String} (hx : IsName x) : OperandName x where
  ne_nil := hx.1
  no_blank := fun c hc => isBlank_of_isNameChar (hx.2 c hc)
  no_sign := fun c hc hs => by
    have hn := hx.2 c hc
    simp only [List.mem_cons, List.not_mem_nil, or_false] at hs
    rcases hs with rfl | rfl | rfl | rfl | rfl <;> exact absurd hn (by decide)

theorem ofText_written {t : String} {src : Source} {g₁ g₂ scs : List Char} (ht : IsName t)
    (hg₁ : Blanks g₁) (hg₂ : Blanks g₂) (hs : src.Written scs) :
    Assignment.ofText (String.ofList (t.toList ++ g₁ ++ '=' :: (g₂ ++ scs))) true =
      .ok ⟨t, src.gate⟩ := by
  have htrim : Text.strip t = t := by rw [Text.strip, ht.strip, String.ofList_toList]
  have heq : '=' ∉ t.toList := Separator.equals.not_mem_name ht
  cases hs with
  | copy hl =>
    rw [← Literal.chars_toOperand]
    exact ofText_copy true htrim heq hl.operandName hg₁ hg₂
  | @apply op l r g g' hl hr hg hg' =>
    rw [show g₂ ++ (l.chars ++ g ++ op.mark :: (g' ++ r.chars)) =
        g₂ ++ l.chars ++ g ++ op.mark :: (g' ++ r.chars) by simp,
      ← Literal.chars_toOperand l, ← Literal.chars_toOperand r,
      ofText_binary true htrim heq hl.operandName hr.operandName hg₁ hg₂ hg hg']
    cases op <;> simp [Source.gate]

theorem statement_written {s : Stmt} {body : List Char} (hw : s.Written body) (hf : s.KeywordFree)
    (net : Network) : net.statement (String.ofList body) = .ok (s.step net) := by
  cases hw with
  | module => simp [Network.statement, Stmt.step, pure, Except.pure]
  | input hd | output hd =>
    obtain ⟨g, b, g', hg, hl, hg', rfl⟩ := hd
    rw [Network.statement, items_declared (by simp) (by simp [isNameChar]) hg hl hg' hf]
    simp [Stmt.step, pure, Except.pure]
  | wire hd =>
    obtain ⟨g, b, g', -, -, -, rfl⟩ := hd
    simp [Network.statement, Stmt.step, pure, Except.pure]
  | @assign t src g₀ g₁ g₂ g₃ scs ht hg₀ hg₁ hg₂ hg₃ hs =>
    have hread := ofText_written ht hg₁ hg₂ hs
    rw [Network.statement, items_assign ht hg₀ hg₁ hg₂ hg₃ hs hf]
    generalize String.ofList (t.toList ++ g₁ ++ '=' :: (g₂ ++ scs)) = item at hread ⊢
    simp [hread, Stmt.step]

theorem Stmt.Written.semi {s : Stmt} {body : List Char} (hw : s.Written body) : ';' ∉ body := by
  have hd := Separator.semicolon
  cases hw with
  | module hx hg₀ hg₁ hg₂ hg₃ hg₄ hl =>
    simp [hd.not_mem_name hx, hd.not_mem_blanks hg₀, hd.not_mem_blanks hg₁, hd.not_mem_blanks hg₂,
      hd.not_mem_blanks hg₃, hd.not_mem_blanks hg₄, hl.not_mem hd (by decide)]
  | input hdecl | output hdecl | wire hdecl =>
    obtain ⟨g, b, g', hg, hl, hg', rfl⟩ := hdecl
    simp [hd.not_mem_blanks hg, hl.not_mem hd (by decide), hd.not_mem_blanks hg']
  | assign ht hg₀ hg₁ hg₂ hg₃ hs =>
    simp [hd.not_mem_name ht, hd.not_mem_blanks hg₀, hd.not_mem_blanks hg₁, hd.not_mem_blanks hg₂,
      hd.not_mem_blanks hg₃, hs.not_mem hd (by decide) (fun op => by cases op <;> decide)]

theorem Stmt.Written.head {s : Stmt} {body : List Char} (hw : s.Written body) :
    ∀ c ∈ (body ++ [';']).head?, c ≠ '/' ∧ c ≠ 'e' := by
  cases hw with
  | module => simp
  | input hd | output hd | wire hd =>
    obtain ⟨g, b, g', -, -, -, rfl⟩ := hd
    simp
  | assign => simp

/-! ## Reading lines -/

/-- The text read so far of a statement whose `;` has not been read yet. -/
def pendingOf (acc : List Char) : Option String :=
  if acc = [] then none else some (String.ofList acc)

theorem endsWith_semi_iff {s : String} : s.endsWith ";" = true ↔ [';'] <:+ s.toList := by
  rw [String.endsWith, String.Slice.endsWith_string_iff]
  simp

theorem finish_of_getLast {x : List Char} (h : ∀ d ∈ x.getLast?, d ≠ ';') :
    finish (String.ofList (x ++ [';'])) = String.ofList x := by
  rw [finish, Text.dropTrailing, String.toList_ofList, dropTrailingChars_append_single h]

theorem finish_semi {body : List Char} (h : ';' ∉ body) :
    finish (String.ofList (body ++ [';'])) = String.ofList body :=
  finish_of_getLast fun d hd hsemi => by
    subst hsemi
    exact h (List.mem_of_mem_getLast? hd)

theorem readLines_line {net : Network} {acc : List Char} {l : String} {rest : List String}
    (hhead : ∀ c ∈ (acc ++ (Text.strip l).toList).head?, c ≠ '/' ∧ c ≠ 'e') :
    readLines net (pendingOf acc) (l :: rest) =
      if [';'] <:+ acc ++ (Text.strip l).toList then
        net.statement (finish (String.ofList (acc ++ (Text.strip l).toList))) >>= fun net =>
          readLines net none rest
      else readLines net (pendingOf (acc ++ (Text.strip l).toList)) rest := by
  by_cases hacc : acc = []
  · subst hacc
    simp only [List.nil_append] at hhead ⊢
    rw [pendingOf, if_pos rfl, readLines.eq_3]
    by_cases hx : (Text.strip l).toList = []
    · have hs : Text.strip l = "" := String.ext_iff.mpr hx
      simp [hs, pendingOf]
    · obtain ⟨c, x, hcx⟩ := List.exists_cons_of_ne_nil hx
      obtain ⟨h₁, h₂⟩ := hhead c (by simp [hcx])
      have hne : Text.strip l ≠ "" := fun h => by simp [h] at hcx
      have hcom : ((Text.strip l).startsWith "//" || (Text.strip l).isEmpty) = false := by
        simp [hcx, Ne.symm h₁, hne]
      have hend : (Text.strip l).startsWith "endmodule" = false := by
        simp [hcx, Ne.symm h₂]
      simp only [hcom, hend, Bool.false_eq_true, if_false, endsWith_semi_iff, String.ofList_toList,
        pendingOf, hx]
  · have hs : String.ofList acc ++ Text.strip l = String.ofList (acc ++ (Text.strip l).toList) :=
      String.ext_iff.mpr (by simp)
    have hne : acc ++ (Text.strip l).toList ≠ [] := by simp [hacc]
    rw [pendingOf, if_neg hacc, readLines.eq_4]
    simp only [hs, endsWith_semi_iff, String.toList_ofList, pendingOf, hne, if_false]

theorem prefix_of_append_eq {p q body : List Char} (h : p ++ q = body ++ [';']) (hq : q ≠ []) :
    p <+: body := by
  have hlen := congrArg List.length h
  have hq' := List.length_pos_iff.mpr hq
  simp only [List.length_append, List.length_singleton] at hlen
  exact List.prefix_of_prefix_length_le ⟨q, h⟩ (List.prefix_append body [';']) (by omega)

theorem readLines_statement {net : Network} {body : List Char} {l : String} {rest : List String}
    (hsemi : ';' ∉ body) (hhead : ∀ c ∈ (body ++ [';']).head?, c ≠ '/' ∧ c ≠ 'e')
    (hl : (Text.strip l).toList ≠ []) :
    ∀ (sl : List String) (acc : List Char),
      acc ++ ((sl ++ [l]).map fun l => (Text.strip l).toList).flatten = body ++ [';'] →
      readLines net (pendingOf acc) (sl ++ l :: rest) =
        net.statement (String.ofList body) >>= fun net => readLines net none rest
  | [], acc, h => by
    simp only [List.nil_append, List.map_cons, List.map_nil, List.flatten_cons, List.flatten_nil,
      List.append_nil] at h
    rw [List.nil_append, readLines_line (by rw [h]; exact hhead), h,
      if_pos (List.suffix_append _ _), finish_semi hsemi]
  | l' :: sl, acc, h => by
    simp only [List.cons_append, List.map_cons, List.flatten_cons, ← List.append_assoc] at h
    have hrest : ((sl ++ [l]).map fun l => (Text.strip l).toList).flatten ≠ [] := by simp [hl]
    have hpre := prefix_of_append_eq h hrest
    have hhead' : ∀ c ∈ (acc ++ (Text.strip l').toList).head?, c ≠ '/' ∧ c ≠ 'e' := by
      intro c hc
      obtain ⟨t, ht⟩ := hpre
      have hne := List.ne_nil_of_mem (List.mem_of_mem_head? hc)
      rw [← ht, List.append_assoc, List.head?_append_of_ne_nil _ hne] at hhead
      exact hhead c hc
    have hend : ¬ [';'] <:+ acc ++ (Text.strip l').toList :=
      fun hs => hsemi (hpre.subset (hs.subset (List.mem_singleton_self _)))
    rw [List.cons_append, readLines_line hhead', if_neg hend]
    exact readLines_statement hsemi hhead hl sl _ h

theorem readLines_skip {net : Network} {l : String} {rest : List String}
    (h : (Text.strip l).toList = [] ∨ "//".toList <+: (Text.strip l).toList) :
    readLines net none (l :: rest) = readLines net none rest := by
  have hcom : ((Text.strip l).startsWith "//" || (Text.strip l).isEmpty) = true := by
    rw [Bool.or_eq_true, String.startsWith_string_iff]
    rcases h with h | h
    · exact Or.inr (String.isEmpty_iff.mpr (String.ext_iff.mpr (by simp [h])))
    · exact Or.inl h
  rw [readLines.eq_3]
  simp only [hcom, if_true]

theorem readLines_endmodule {net : Network} {l : String} {rest : List String}
    (h : "endmodule".toList <+: (Text.strip l).toList) :
    readLines net none (l :: rest) = .ok net := by
  obtain ⟨t, ht⟩ := h
  have hne : Text.strip l ≠ "" := fun h => by simp [h] at ht
  have hcom : ((Text.strip l).startsWith "//" || (Text.strip l).isEmpty) = false := by
    simp [← ht, hne]
  have hend : (Text.strip l).startsWith "endmodule" = true := by simp [← ht]
  rw [readLines.eq_3]
  simp only [hcom, hend, Bool.false_eq_true, if_false, if_true]

theorem readLines_layout {ls : List String} {ss : List Stmt} (h : Layout ls ss)
    (hfree : ∀ s ∈ ss, s.KeywordFree) (net : Network) :
    readLines net none ls = .ok (ss.foldl (fun net s => s.step net) net) := by
  induction h generalizing net with
  | endmodule hend => exact readLines_endmodule hend
  | skip hskip _ ih =>
    rw [readLines_skip hskip]
    exact ih hfree net
  | @stmt s sl l ls ss body hw hcs hl _ ih =>
    have hread : readLines net (pendingOf []) (sl ++ l :: ls) = _ :=
      readLines_statement hw.semi hw.head hl sl [] (by simpa using hcs)
    rw [pendingOf, if_pos rfl] at hread
    rw [hread, statement_written hw (hfree _ List.mem_cons_self)]
    exact ih (fun s hs => hfree s (List.mem_cons_of_mem _ hs)) _

/-! ## The network of a netlist -/

theorem Stmt.keys_gates (s : Stmt) : s.gates.map Prod.fst = s.targets := by
  cases s <;> rfl

theorem Stmt.step_eq {s : Stmt} {net : Network} (h : ∀ x ∈ s.targets, x ∉ net.gates.map Prod.fst) :
    s.step net =
      { inputs := net.inputs ++ s.inputs, outputs := net.outputs ++ s.outputs,
        gates := net.gates ++ s.gates } := by
  cases s with
  | assign t src =>
    have ht : (net.gates.any fun e => e.1 == t) = false := by
      have hfresh := h t List.mem_cons_self
      simp only [List.any_eq_false, beq_iff_eq]
      intro e he hkey
      exact hfresh (List.mem_map.mpr ⟨e, he, hkey⟩)
    simp [Stmt.step, Network.assign, Table.put, ht, Stmt.inputs, Stmt.outputs, Stmt.gates]
  | module | input | output | wire => simp [Stmt.step, Stmt.inputs, Stmt.outputs, Stmt.gates]

theorem foldl_step : ∀ (ss : List Stmt) (net : Network),
    (∀ x ∈ ss.flatMap Stmt.targets, x ∉ net.gates.map Prod.fst) → (ss.flatMap Stmt.targets).Nodup →
    ss.foldl (fun net s => s.step net) net =
      { inputs := net.inputs ++ ss.flatMap Stmt.inputs,
        outputs := net.outputs ++ ss.flatMap Stmt.outputs,
        gates := net.gates ++ ss.flatMap Stmt.gates }
  | [], net, _, _ => by simp
  | s :: ss, net, hfresh, hnodup => by
    rw [List.flatMap_cons, List.nodup_append] at hnodup
    obtain ⟨-, hss, hdisj⟩ := hnodup
    have hs : ∀ x ∈ s.targets, x ∉ net.gates.map Prod.fst :=
      fun x hx => hfresh x (by simp only [List.flatMap_cons, List.mem_append]; exact Or.inl hx)
    have hfresh' : ∀ x ∈ ss.flatMap Stmt.targets,
        x ∉ (net.gates ++ s.gates).map Prod.fst := by
      intro x hx hmem
      rw [List.map_append, Stmt.keys_gates, List.mem_append] at hmem
      rcases hmem with hmem | hmem
      · exact hfresh x (by simp only [List.flatMap_cons, List.mem_append]; exact Or.inr hx) hmem
      · exact hdisj x hmem x hx rfl
    rw [List.foldl_cons, Stmt.step_eq hs, foldl_step ss _ hfresh' hss]
    simp

theorem Layout.written {ls : List String} {ss : List Stmt} (h : Layout ls ss) :
    ∀ s ∈ ss, ∃ body, s.Written body := by
  induction h with
  | endmodule => simp
  | skip _ _ ih => exact ih
  | stmt hw _ _ _ ih =>
    intro s hs
    rcases List.mem_cons.mp hs with rfl | hs
    · exact ⟨_, hw⟩
    · exact ih s hs

theorem Layout.line {s : Stmt} {l : String} {ls : List String} {ss : List Stmt} {body : List Char}
    (hw : s.Written body) (hl : (Text.strip l).toList = body ++ [';']) (h : Layout ls ss) :
    Layout (l :: ls) (s :: ss) :=
  @Layout.stmt s [] l ls ss body hw (by simpa using hl) (by simp [hl]) h

theorem blanks_space : Blanks [' '] := fun c hc => by
  rw [List.mem_singleton.mp hc]
  decide

theorem Source.Written.text {src : Source} {scs : List Char} (hs : src.Written scs) :
    src.Written src.text.toList := by
  cases hs with
  | copy hl => simpa [Source.text] using Source.Written.copy hl
  | apply hl hr _ _ =>
    simpa [Source.text] using Source.Written.apply hl hr blanks_space blanks_space

theorem ofText_text {t : String} {src : Source} {scs : List Char} (ht : IsName t)
    (hs : src.Written scs) :
    Assignment.ofText (t ++ " = " ++ src.text) true = .ok ⟨t, src.gate⟩ := by
  have he : t ++ " = " ++ src.text =
      String.ofList (t.toList ++ [' '] ++ '=' :: ([' '] ++ src.text.toList)) :=
    String.ext_iff.mpr (by simp)
  rw [he]
  exact ofText_written ht blanks_space blanks_space hs.text

/-- A netlist laid out in statements whose names do not hold the keywords of
their statements, and which assigns no name twice, is read as written: its
inputs and outputs are the declared ones in order, and its gates are those of
the assignments in order, each the gate `Assignment.ofText` reads from the
assignment. -/
theorem ofVerilog_eq_of_layout {text : String} {ss : List Stmt}
    (hlay : Layout (Text.lines text) ss) (hfree : ∀ s ∈ ss, s.KeywordFree)
    (hnodup : (ss.flatMap Stmt.targets).Nodup) :
    ofVerilog text = .ok
        { inputs := ss.flatMap Stmt.inputs, outputs := ss.flatMap Stmt.outputs,
          gates := ss.flatMap Stmt.gates } ∧
      ∀ t src, Stmt.assign t src ∈ ss →
        Assignment.ofText (t ++ " = " ++ src.text) true = .ok ⟨t, src.gate⟩ := by
  refine ⟨?_, fun t src hmem => ?_⟩
  · rw [ofVerilog, readLines_layout hlay hfree, foldl_step ss {} (by simp) hnodup]
    rfl
  · obtain ⟨body, hw⟩ := hlay.written _ hmem
    cases hw with
    | assign ht _ _ _ _ hs => exact ofText_text ht hs

theorem ofVerilog_split_declaration :
    ∃ ss, Layout (Text.lines
        "module top(a, b, y);\ninput a,\n  b;\noutput y;\nassign y = a ^ ~b;\nendmodule\n") ss ∧
      (∀ s ∈ ss, s.KeywordFree) ∧ (ss.flatMap Stmt.targets).Nodup ∧
      ofVerilog "module top(a, b, y);\ninput a,\n  b;\noutput y;\nassign y = a ^ ~b;\nendmodule\n" =
        .ok { inputs := ["a", "b"], outputs := ["y"],
              gates := [("y", .binary .xor "a" "b" false true false)] } := by
  have hlines : Text.lines
      "module top(a, b, y);\ninput a,\n  b;\noutput y;\nassign y = a ^ ~b;\nendmodule\n" =
      ["module top(a, b, y);", "input a,", "  b;", "output y;", "assign y = a ^ ~b;",
        "endmodule"] := by
    decide +kernel
  have hlay : Layout (Text.lines
      "module top(a, b, y);\ninput a,\n  b;\noutput y;\nassign y = a ^ ~b;\nendmodule\n")
      [.module "top" ["a", "b", "y"], .input ["a", "b"], .output ["y"],
        .assign "y" (.apply .xor ⟨false, "a"⟩ ⟨true, "b"⟩)] := by
    rw [hlines]
    refine .line
      (.module (by decide +kernel) blanks_space blanks_nil blanks_nil blanks_nil blanks_nil
        (.cons (by decide +kernel) blanks_nil blanks_space
          (.cons (by decide +kernel) blanks_nil blanks_space (.one (by decide +kernel)))))
      (by decide +kernel) ?_
    refine @Layout.stmt _ ["input a,"] _ _ _ _
      (.input ⟨[' '], _, [], blanks_space,
        .cons (by decide +kernel) blanks_nil blanks_nil (.one (by decide +kernel)), blanks_nil,
        rfl⟩)
      (by decide +kernel) (by decide +kernel) ?_
    refine .line (.output ⟨[' '], _, [], blanks_space, .one (by decide +kernel), blanks_nil, rfl⟩)
      (by decide +kernel) ?_
    refine .line (.assign (by decide +kernel) blanks_space blanks_space blanks_space blanks_nil
      (.apply (by decide +kernel) (by decide +kernel) blanks_space blanks_space))
      (by decide +kernel) ?_
    exact .endmodule (by decide +kernel)
  have hfree : ∀ s ∈ [Stmt.module "top" ["a", "b", "y"], .input ["a", "b"], .output ["y"],
      .assign "y" (.apply .xor ⟨false, "a"⟩ ⟨true, "b"⟩)], s.KeywordFree := by
    decide +kernel
  have hnodup : ([Stmt.module "top" ["a", "b", "y"], .input ["a", "b"], .output ["y"],
      .assign "y" (.apply .xor ⟨false, "a"⟩ ⟨true, "b"⟩)].flatMap Stmt.targets).Nodup := by
    decide +kernel
  exact ⟨_, hlay, hfree, hnodup, (ofVerilog_eq_of_layout hlay hfree hnodup).1⟩

/-- A name holding the keyword of its declaration is read mangled: the reader
removes every `input` from `input xinput;` and declares the input `x`. -/
theorem ofVerilog_input_holding_keyword :
    Layout (Text.lines
        "module top(xinput, y);\ninput xinput;\noutput y;\nassign y = xinput;\nendmodule\n")
        [.module "top" ["xinput", "y"], .input ["xinput"], .output ["y"],
          .assign "y" (.copy ⟨false, "xinput"⟩)] ∧
      ofVerilog
          "module top(xinput, y);\ninput xinput;\noutput y;\nassign y = xinput;\nendmodule\n" =
        .ok { inputs := ["x"], outputs := ["y"], gates := [("y", .buffer "xinput")] } := by
  have hlines : Text.lines
      "module top(xinput, y);\ninput xinput;\noutput y;\nassign y = xinput;\nendmodule\n" =
      ["module top(xinput, y);", "input xinput;", "output y;", "assign y = xinput;",
        "endmodule"] := by
    decide +kernel
  refine ⟨?_, ofVerilog_eq_ok_of_parts (by decide +kernel)⟩
  rw [hlines]
  refine .line (.module (by decide +kernel) blanks_space blanks_nil blanks_nil blanks_nil blanks_nil
    (.cons (by decide +kernel) blanks_nil blanks_space (.one (by decide +kernel))))
    (by decide +kernel) ?_
  refine .line (.input ⟨[' '], _, [], blanks_space, .one (by decide +kernel), blanks_nil, rfl⟩)
    (by decide +kernel) ?_
  refine .line (.output ⟨[' '], _, [], blanks_space, .one (by decide +kernel), blanks_nil, rfl⟩)
    (by decide +kernel) ?_
  refine .line (.assign (by decide +kernel) blanks_space blanks_space blanks_space blanks_nil
    (.copy (by decide +kernel)))
    (by decide +kernel) ?_
  exact .endmodule (by decide +kernel)

end XagSynth.Netlist
