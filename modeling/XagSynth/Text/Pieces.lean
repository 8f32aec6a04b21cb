/-!
# Cutting and rewriting text

`splitChars sep cs` cuts `cs` at every occurrence of `sep`, always one piece
more than separators, and `replaceChars pat rep cs` rewrites a non-empty
pattern from left to right without overlaps.
-/

namespace XagSynth.Text

/-- Pieces of `cs` between occurrences of `sep`; `cur` holds the current piece
in reverse. -/
def splitCharsFrom (sep : Char) (cur : List Char) : List Char → List (List Char)
  | [] => [cur.reverse]
  | c :: r => if c == sep then cur.reverse :: splitCharsFrom sep [] r
    else splitCharsFrom sep (c :: cur) r

/-- The pieces of `cs` between occurrences of `sep`. -/
def splitChars (sep : Char) (cs : List Char) : List (List Char) := splitCharsFrom sep [] cs

def splitOn (sep : Char) (s : String) : List String :=
  (splitChars sep s.toList).map String.ofList

/-- Rewrite every occurrence of `pat` in `cs` by `rep`, from left to right. -/
def replaceChars (pat rep : List Char) (cs : List Char) : List Char :=
  match cs with
  | [] => []
  | c :: r =>
    if _h : pat ≠ [] ∧ pat.isPrefixOf (c :: r) then
      rep ++ replaceChars pat rep ((c :: r).drop pat.length)
    else c :: replaceChars pat rep r
termination_by cs.length
decreasing_by
  · have : 0 < pat.length := List.length_pos_iff.mpr _h.1
    simp only [List.length_drop, List.length_cons]
    omega
  · simp only [List.length_cons]
    omega

def replace (pat rep s : String) : String :=
  String.ofList (replaceChars pat.toList rep.toList s.toList)

/-- The text without any occurrence of `pat`. -/
def erase (pat s : String) : String := replace pat "" s

end XagSynth.Text
