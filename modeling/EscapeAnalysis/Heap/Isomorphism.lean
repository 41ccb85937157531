import EscapeAnalysis.Heap.Basic
import EscapeAnalysis.Walk

/-!
# Equivalence of values across heaps

Two values in two heaps are equivalent if the objects that can be reached from them match one to
one: what is shared in one heap must be shared in the other.
-/

namespace EscapeAnalysis

namespace Heap

/-- An object weighs one, and one more for each field. -/
def weight (h : Heap) (o : ObjRef) : Nat := ((h.get? o).map fun obj => obj.fields.size).getD 0 + 1

/-- Matches pairs of values, given the pairs of objects matched so far. -/
def agree (h h' : Heap) : List (Value × Value) → List (ObjRef × ObjRef) → Bool
  | [], _ => true
  | (.ref a, .ref b) :: rest, pairs =>
    if (a, b) ∈ pairs then agree h h' rest pairs
    else if a ∈ pairs.map Prod.fst ∨ b ∈ pairs.map Prod.snd then false
    else
      match _found : h.get? a, h'.get? b with
      | some x, some y =>
        if x.shape = y.shape ∧ x.locks = y.locks ∧ x.fields.size = y.fields.size then
          agree h h' (x.fields.toList.zip y.fields.toList ++ rest) ((a, b) :: pairs)
        else false
      | _, _ => false
  | (v, w) :: rest, pairs => if v = w then agree h h' rest pairs else false
termination_by todo pairs => Walk.unseen h.weight (pairs.map Prod.fst) h.objects.keys + todo.length
decreasing_by
  · simp
  · rename_i hfresh hsame
    have := Walk.unseen_cons_add_le h.weight (fun m => hfresh (.inl m)) h.objects.keys
      (SlotTable.mem_keys_of_get? _found)
    have hw : h.weight a = x.fields.size + 1 := by simp [weight, _found]
    simp only [List.map_cons, List.length_append, List.length_zip, Array.length_toList,
      List.length_cons, hsame.2.2, Nat.min_self] at this ⊢
    omega
  · simp

def equiv (h : Heap) (v : Value) (h' : Heap) (w : Value) : Bool := agree h h' [(v, w)] []

end Heap

end EscapeAnalysis
