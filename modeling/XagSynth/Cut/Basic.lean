import XagSynth.Text.Order

/-!
# XOR blocks

The block view of a name: a primary input is its own source, an AND gate is
kept whole, and an XOR or buffer gate heads a block of exposed XOR gates and one
product of names per leaf, whose XOR of ANDs is the block's value. Its T cost is
four per name of each product.
-/

namespace XagSynth

/-- The block view of one name. -/
inductive Cut where
  | source (name : String)
  | conj (node : String) (inputs : List String)
  | block (node : String) (exposed : List String) (products : List (List String))

namespace Cut

def tPerName : Nat := 4

/-- The names a cut reads, in order and without repetition. -/
def leaves : Cut → List String
  | .source n => [n]
  | .conj _ ins => Text.nameSet ins
  | .block _ _ ps => Text.nameSet ps.flatten

/-- The T cost of a block: four per name of each product. -/
def cost (ps : List (List String)) : Nat := tPerName * ps.foldr (fun p n => p.length + n) 0

def sortedProducts (ps : List (List String)) : List (List String) := ps.mergeSort Text.lexLe

end Cut

end XagSynth
