import Mathlib.Logic.Function.Basic
import XagSynth.Circuit.Basic

/-!
# Gates on bits

The classical reading of a gate on an assignment of bits: an X gate flips its
target, a CNOT adds its control to it and a Toffoli the conjunction of its
controls, and the other gates keep every bit. `simulate` runs a gate list, and
a gate whose controls differ from its target undoes itself (`flip_flip`).
-/

namespace XagSynth.Circuit

variable {α : Type} [DecidableEq α]

namespace Gate

/-- The bits after a gate. -/
def flip : Gate α → (α → Bool) → α → Bool
  | .x q, y => Function.update y q (!y q)
  | .cx c q, y => Function.update y q (y q ^^ y c)
  | .ccx c1 c2 q, y => Function.update y q (y q ^^ (y c1 && y c2))
  | _, y => y

/-- A gate whose controls differ from its target. -/
def Proper (g : Gate α) : Prop := g.target ∉ g.controls

def IsFlip : Gate α → Prop
  | .x _ | .cx .. | .ccx .. => True
  | _ => False

theorem flip_flip (g : Gate α) (hg : g.Proper) (y : α → Bool) : g.flip (g.flip y) = y := by
  funext p
  cases g with
  | x q => by_cases hp : p = q <;> simp [flip, hp]
  | cx c q =>
    have hc : c ≠ q := fun h => hg (by simp [target, controls, h])
    by_cases hp : p = q <;> simp [flip, hp, Function.update_of_ne hc]
  | ccx c1 c2 q =>
    have h1 : c1 ≠ q := fun h => hg (by simp [target, controls, h])
    have h2 : c2 ≠ q := fun h => hg (by simp [target, controls, h])
    by_cases hp : p = q <;> simp [flip, hp, Function.update_of_ne h1, Function.update_of_ne h2]
  | h q => rfl
  | s q => rfl
  | t q => rfl
  | tdg q => rfl

end Gate

/-- The bits after a gate list, gate by gate. -/
def simulate (gs : List (Gate α)) (x : α → Bool) : α → Bool :=
  gs.foldl (fun y g => g.flip y) x

@[simp] theorem simulate_nil (x : α → Bool) : simulate [] x = x := rfl

@[simp] theorem simulate_cons (g : Gate α) (gs : List (Gate α)) (x : α → Bool) :
    simulate (g :: gs) x = simulate gs (g.flip x) := rfl

theorem simulate_append (gs hs : List (Gate α)) (x : α → Bool) :
    simulate (gs ++ hs) x = simulate hs (simulate gs x) := by
  simp [simulate, List.foldl_append]

end XagSynth.Circuit
