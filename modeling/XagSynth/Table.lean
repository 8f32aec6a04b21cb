/-!
# Tables in insertion order

A table is a list of keyed entries in the order their keys were first put;
`Table.put` updates a key in place or appends a new one.
-/

namespace XagSynth.Table

variable {κ ν : Type} [BEq κ]

/-- The table with `k` mapped to `v`. -/
def put (t : List (κ × ν)) (k : κ) (v : ν) : List (κ × ν) :=
  if t.any fun e => e.1 == k then t.map fun e => if e.1 == k then (e.1, v) else e
  else t ++ [(k, v)]

theorem keys_put_of_mem (t : List (κ × ν)) (k : κ) (v : ν) (h : t.any (fun e => e.1 == k) = true) :
    (put t k v).map Prod.fst = t.map Prod.fst := by
  simp only [put, h, if_true, List.map_map]
  apply List.map_congr_left
  intro e _
  simp only [Function.comp]
  split <;> rfl

end XagSynth.Table
