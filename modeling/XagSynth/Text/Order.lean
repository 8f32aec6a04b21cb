/-!
# Orders on names and name lists

Names are ordered by code point and lists of names lexicographically; a set of
names is kept as a strictly increasing list, so that equal sets have one form.
-/

namespace XagSynth.Text

/-- Insert a name into a strictly increasing list of names. -/
def insertName (s : String) : List String → List String
  | [] => [s]
  | x :: xs => if s < x then s :: x :: xs else if s = x then x :: xs else x :: insertName s xs

/-- The set of names of a list, as a strictly increasing list. -/
def nameSet (xs : List String) : List String := xs.foldr insertName []

def nameDiff (xs ys : List String) : List String := xs.filter fun x => !ys.contains x

def nameUnion (xs ys : List String) : List String := ys.foldr insertName xs

/-- Lexicographic order on lists of names: whether `xs` comes no later than `ys`. -/
def lexLe : List String → List String → Bool
  | [], _ => true
  | _ :: _, [] => false
  | x :: xs, y :: ys => if x < y then true else if x = y then lexLe xs ys else false

/-- A list of names in order, duplicates kept. -/
def sortNames (xs : List String) : List String := xs.mergeSort fun a b => decide (a ≤ b)

theorem mem_insertName {s t : String} {xs : List String} :
    t ∈ insertName s xs ↔ t = s ∨ t ∈ xs := by
  induction xs with
  | nil => simp [insertName]
  | cons x xs ih =>
    simp only [insertName]
    split
    · simp
    · split
      · rename_i h
        subst h
        simp only [List.mem_cons]
        constructor
        · intro h; exact Or.inr h
        · rintro (h | h | h) <;> simp [h]
      · simp only [List.mem_cons, ih]
        constructor
        · rintro (h | h | h) <;> simp [h]
        · rintro (h | h | h) <;> simp [h]

theorem mem_nameSet {t : String} {xs : List String} : t ∈ nameSet xs ↔ t ∈ xs := by
  induction xs with
  | nil => simp [nameSet]
  | cons x xs ih =>
    simp only [nameSet, List.foldr_cons] at ih ⊢
    rw [mem_insertName, ih, List.mem_cons]

end XagSynth.Text
