import Mathlib.Data.List.Infix
import Mathlib.Data.List.TakeWhile
import XagSynth.Text.Blank
import XagSynth.Text.Pieces

/-!
# Cutting, rewriting and trimming written text

Laws of the character-level text functions on texts put together from pieces:
splitting at a separator, rewriting a pattern, trimming blanks at the ends, and
cutting a text written line by line back into its lines
(`linesFrom_flatMap`).
-/

namespace XagSynth.Text

/-- A run of blanks, possibly empty. -/
def Blanks (g : List Char) : Prop := ∀ c ∈ g, isBlank c = true

instance : DecidablePred Blanks := fun g =>
  decidable_of_iff (g.all isBlank = true) (by simp [Blanks])

theorem blanks_nil : Blanks [] := fun _ h => absurd h List.not_mem_nil

theorem Blanks.not_mem {g : List Char} (hg : Blanks g) {d : Char} (hd : isBlank d = false) :
    d ∉ g :=
  fun h => by simp [hg d h] at hd

theorem splitCharsFrom_of_not_mem {sep : Char} :
    ∀ {cs : List Char} (cur : List Char), sep ∉ cs → splitCharsFrom sep cur cs = [cur.reverse ++ cs]
  | [], cur, _ => by simp [splitCharsFrom]
  | c :: r, cur, h => by
    have hc : c ≠ sep := fun hc => h (hc ▸ List.mem_cons_self)
    rw [splitCharsFrom, if_neg (by simpa using hc),
      splitCharsFrom_of_not_mem (c :: cur) fun hr => h (List.mem_cons_of_mem c hr)]
    simp

theorem splitCharsFrom_append_cons {sep : Char} {b : List Char} :
    ∀ {a : List Char} (cur : List Char), sep ∉ a →
      splitCharsFrom sep cur (a ++ sep :: b) = (cur.reverse ++ a) :: splitCharsFrom sep [] b
  | [], cur, _ => by simp [splitCharsFrom]
  | c :: a, cur, h => by
    have hc : c ≠ sep := fun hc => h (hc ▸ List.mem_cons_self)
    rw [List.cons_append, splitCharsFrom, if_neg (by simpa using hc),
      splitCharsFrom_append_cons (c :: cur) fun ha => h (List.mem_cons_of_mem c ha)]
    simp

theorem splitChars_of_not_mem {sep : Char} {cs : List Char} (h : sep ∉ cs) :
    splitChars sep cs = [cs] :=
  splitCharsFrom_of_not_mem [] h

theorem splitChars_append_cons {sep : Char} {a b : List Char} (h : sep ∉ a) :
    splitChars sep (a ++ sep :: b) = a :: splitChars sep b :=
  splitCharsFrom_append_cons [] h

theorem replaceChars_of_absent {pat rep : List Char} :
    ∀ {cs : List Char}, ¬ pat <:+: cs → replaceChars pat rep cs = cs
  | [], _ => by rw [replaceChars]
  | c :: r, h => by
    rw [replaceChars, dif_neg]
    · rw [replaceChars_of_absent fun hr => h (hr.trans (List.suffix_cons c r).isInfix)]
    · rintro ⟨-, hpre⟩
      exact h (List.isPrefixOf_iff_prefix.mp hpre).isInfix

theorem replaceChars_append {pat rep : List Char} (hpat : pat ≠ []) (cs : List Char) :
    replaceChars pat rep (pat ++ cs) = rep ++ replaceChars pat rep cs := by
  obtain ⟨c, p, rfl⟩ := List.exists_cons_of_ne_nil hpat
  rw [List.cons_append, replaceChars, dif_pos ⟨hpat, by simp [List.isPrefixOf_iff_prefix]⟩]
  simp

theorem dropWhile_append_of_forall {p : Char → Bool} {g : List Char} (hg : ∀ c ∈ g, p c = true)
    (x : List Char) : (g ++ x).dropWhile p = x.dropWhile p := by
  induction g with
  | nil => rfl
  | cons c g ih =>
    rw [List.cons_append, List.dropWhile_cons_of_pos (hg c List.mem_cons_self)]
    exact ih fun d hd => hg d (List.mem_cons_of_mem c hd)

theorem stripChars_blank_append {g g' : List Char} (hg : Blanks g) (hg' : Blanks g')
    (x : List Char) : stripChars (g ++ x ++ g') = stripChars x := by
  unfold stripChars
  rw [List.append_assoc, dropWhile_append_of_forall hg, List.dropWhile_append]
  split
  · rename_i hnil
    have hblank : g'.dropWhile isBlank = [] := by simpa using dropWhile_append_of_forall hg' []
    rw [List.isEmpty_iff.mp hnil, hblank]
  · rw [List.reverse_append,
      dropWhile_append_of_forall fun c hc => hg' c (List.mem_reverse.mp hc)]

theorem stripChars_of_ends {x : List Char} (hhead : ∀ c ∈ x.head?, isBlank c = false)
    (hlast : ∀ c ∈ x.getLast?, isBlank c = false) : stripChars x = x := by
  have hfront : ∀ {y : List Char}, (∀ c ∈ y.head?, isBlank c = false) →
      y.dropWhile isBlank = y := by
    intro y hy
    cases y with
    | nil => rfl
    | cons c y => exact List.dropWhile_cons_of_neg (by simpa using hy c rfl)
  unfold stripChars
  rw [hfront hhead, hfront (by simpa [List.head?_reverse] using hlast), List.reverse_reverse]

theorem length_stripChars_le (cs : List Char) : (stripChars cs).length ≤ cs.length := by
  unfold stripChars
  rw [List.length_reverse]
  calc ((cs.dropWhile isBlank).reverse.dropWhile isBlank).length
      ≤ (cs.dropWhile isBlank).reverse.length := List.length_dropWhile_le _ _
    _ ≤ cs.length := by simpa using List.length_dropWhile_le isBlank cs

theorem head_of_stripChars_eq {cs : List Char} (h : stripChars cs = cs) :
    ∀ c ∈ cs.head?, isBlank c = false := by
  intro c hc
  obtain ⟨r, rfl⟩ : ∃ r, cs = c :: r := List.head?_eq_some_iff.mp hc
  refine Bool.eq_false_iff.mpr fun hb => ?_
  have hdrop : stripChars (c :: r) = stripChars r := by
    simpa using stripChars_blank_append (show Blanks [c] by simpa [Blanks] using hb) blanks_nil r
  have hlen := length_stripChars_le r
  rw [← hdrop, h, List.length_cons] at hlen
  omega

theorem getLast_of_stripChars_eq {cs : List Char} (h : stripChars cs = cs) :
    ∀ c ∈ cs.getLast?, isBlank c = false := by
  intro c hc
  obtain ⟨r, rfl⟩ := List.getLast?_eq_some_iff.mp hc
  refine Bool.eq_false_iff.mpr fun hb => ?_
  have hdrop : stripChars (r ++ [c]) = stripChars r := by
    simpa using stripChars_blank_append blanks_nil (show Blanks [c] by simpa [Blanks] using hb) r
  have hlen := length_stripChars_le r
  rw [← hdrop, h, List.length_append, List.length_singleton] at hlen
  omega

theorem dropTrailingChars_append_single {c : Char} {x : List Char} (h : ∀ d ∈ x.getLast?, d ≠ c) :
    dropTrailingChars c (x ++ [c]) = x := by
  unfold dropTrailingChars
  rw [List.reverse_append, List.reverse_singleton, List.singleton_append,
    List.dropWhile_cons_of_pos (by simp)]
  cases hx : x.reverse with
  | nil => simp [List.reverse_eq_nil_iff.mp hx]
  | cons d r =>
    have hd : d ≠ c := h d (by simp [← List.head?_reverse, hx])
    rw [List.dropWhile_cons_of_neg (by simpa using hd), ← hx, List.reverse_reverse]

/-! ## Lines -/

/-- A text holding no line break. -/
def Unbroken (cs : List Char) : Prop := ∀ c ∈ cs, isLineBreak c = false

instance : DecidablePred Unbroken := fun cs =>
  decidable_of_iff ((cs.all fun c => !isLineBreak c) = true) (by simp [Unbroken])

theorem unbroken_append {a b : List Char} : Unbroken (a ++ b) ↔ Unbroken a ∧ Unbroken b :=
  List.forall_mem_append

theorem linesFrom_append_break {x : List Char} (hx : Unbroken x) (acc r : List Char) :
    linesFrom acc (x ++ '\n' :: r) = (acc.reverse ++ x) :: linesFrom [] r := by
  induction x generalizing acc with
  | nil =>
    rw [List.nil_append, linesFrom.eq_3 _ _ _ (by simp), if_pos (by decide), List.append_nil]
  | cons c x ih =>
    have hc : isLineBreak c = false := hx c List.mem_cons_self
    have hcr : c ≠ '\r' := by
      rintro rfl
      exact absurd hc (by decide)
    rw [List.cons_append, linesFrom.eq_3 _ _ _ (fun _ h _ => hcr h), if_neg (by simp [hc]),
      ih (fun d hd => hx d (List.mem_cons_of_mem c hd))]
    simp

theorem linesFrom_flatMap {ls : List (List Char)} (h : ∀ l ∈ ls, Unbroken l) :
    linesFrom [] (ls.flatMap (· ++ ['\n'])) = ls := by
  induction ls with
  | nil => rfl
  | cons l ls ih =>
    rw [List.flatMap_cons, List.append_assoc, List.singleton_append,
      linesFrom_append_break (h l List.mem_cons_self),
      ih fun l' hl' => h l' (List.mem_cons_of_mem l hl')]
    rfl

theorem lines_of_toList {s : String} {ls : List String}
    (hs : s.toList = ls.flatMap (·.toList ++ ['\n'])) (h : ∀ l ∈ ls, Unbroken l.toList) :
    lines s = ls := by
  have hls : ∀ l ∈ ls.map String.toList, Unbroken l := by simpa using h
  rw [lines, hs, ← List.flatMap_map String.toList (· ++ ['\n']), linesFrom_flatMap hls,
    List.map_map]
  simp

theorem infix_append_cons {pat a b : List Char} {c : Char} (hc : c ∉ pat)
    (h : pat <:+: a ++ c :: b) : pat <:+: a ∨ pat <:+: b := by
  obtain ⟨s, t, hst⟩ := h
  rcases List.append_eq_append_iff.mp hst with ⟨a', ha, -⟩ | ⟨c', hs, ht⟩
  · exact Or.inl ⟨s, a', ha.symm⟩
  · cases c' with
    | nil => exact Or.inl ⟨s, [], by simpa using hs⟩
    | cons d c'' =>
      obtain ⟨rfl, rfl⟩ : c = d ∧ b = c'' ++ t := by simpa using ht
      rcases List.append_eq_append_iff.mp hs with ⟨a'', -, hpat⟩ | ⟨s', -, hc''⟩
      · exact absurd (hpat ▸ List.mem_append_right a'' List.mem_cons_self) hc
      · cases s' with
        | nil =>
          have hpat : pat = c :: c'' := by simpa using hc''.symm
          exact absurd (hpat ▸ List.mem_cons_self) hc
        | cons e s'' =>
          obtain ⟨-, rfl⟩ : c = e ∧ c'' = s'' ++ pat := by simpa using hc''
          exact Or.inr ⟨s'', t, by simp⟩

theorem infix_of_infix_append_left {pat g x : List Char} (hpat : pat ≠ [])
    (hg : ∀ c ∈ g, c ∉ pat) (h : pat <:+: g ++ x) : pat <:+: x := by
  induction g with
  | nil => exact h
  | cons c g ih =>
    have h' : pat <:+: [] ++ c :: (g ++ x) := h
    rcases infix_append_cons (hg c List.mem_cons_self) h' with h | h
    · exact absurd (List.infix_nil.mp h) hpat
    · exact ih (fun d hd => hg d (List.mem_cons_of_mem c hd)) h

theorem infix_of_infix_append_right {pat g x : List Char} (hpat : pat ≠ [])
    (hg : ∀ c ∈ g, c ∉ pat) (h : pat <:+: x ++ g) : pat <:+: x := by
  have hrev : pat.reverse <:+: g.reverse ++ x.reverse := by
    simpa using List.reverse_infix.mpr h
  have := infix_of_infix_append_left (by simpa using hpat) (by simpa using hg) hrev
  exact List.reverse_infix.mp this

end XagSynth.Text
