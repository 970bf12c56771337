import Std.Data.HashSet
import NeoScript.CodeMap.Basic

/-!
# Reachable code

Control passes from an instruction to the destinations it names and, unless its opcode ends the flow, to the
next live instruction. `reachable` collects what can be reached from given entries; `deadSpans` lists the
stretches of code outside a set of instructions.

The search keeps a list of instructions still to visit. Every visit either marks an instruction for the first
time or shortens the list, so the search ends.
-/

namespace NeoScript.CodeMap

/-- The live instructions to which control can pass from `h`. -/
def successors (m : CodeMap) (h : Handle) : List Handle :=
  match m.instruction? h with
  | none => []
  | some i =>
    let named := (i.target?.map Target.handles).getD []
    let following := if i.opcode.endsFlow then [] else (m.next? h).toList
    (named ++ following).filter m.contains

/-- How many handles are not marked. -/
def unmarked (m : CodeMap) (seen : Std.HashSet Handle) : Nat :=
  (List.range m.positions.size).countP fun h => !seen.contains h

theorem lt_of_contains {m : CodeMap} {h : Handle} (hc : m.contains h = true) : h < m.positions.size := by
  unfold contains position? at hc
  by_cases hlt : h < m.positions.size
  · exact hlt
  · rw [Array.getElem?_eq_none (Nat.le_of_not_lt hlt)] at hc
    simp at hc

theorem countP_insert_lt {seen : Std.HashSet Handle} {h : Handle} (hs : seen.contains h = false)
    {xs : List Handle} (hmem : h ∈ xs) :
    (xs.countP fun y => !(seen.insert h).contains y) < xs.countP fun y => !seen.contains y := by
  induction xs with
  | nil => cases hmem
  | cons x xs ih =>
    have hle : xs.countP (fun y => !(seen.insert h).contains y) ≤ xs.countP (fun y => !seen.contains y) :=
      List.countP_mono_left fun y _ hy => by
        simp only [Std.HashSet.contains_insert, Bool.not_or, Bool.and_eq_true] at hy
        exact hy.2
    rw [List.countP_cons, List.countP_cons]
    by_cases hx : h = x
    · subst hx
      have hself : (seen.insert h).contains h = true := by simp
      rw [hself, hs]
      simp only [Bool.not_true, Bool.false_eq_true, if_false, Bool.not_false, if_true]
      omega
    · have hlt := ih ((List.mem_cons.1 hmem).resolve_left hx)
      have hother : (seen.insert h).contains x = seen.contains x := by
        simp [Std.HashSet.contains_insert, hx]
      rw [hother]
      omega

theorem unmarked_insert_lt {m : CodeMap} {seen : Std.HashSet Handle} {h : Handle}
    (hc : m.contains h = true) (hs : seen.contains h = false) :
    m.unmarked (seen.insert h) < m.unmarked seen :=
  countP_insert_lt hs (List.mem_range.2 (lt_of_contains hc))

/-- Marks what can be reached from the list `todo`. -/
def mark (m : CodeMap) (todo : List Handle) (seen : Std.HashSet Handle) : Std.HashSet Handle :=
  match todo with
  | [] => seen
  | h :: rest =>
    if _hv : m.contains h = true ∧ seen.contains h = false then
      mark m (m.successors h ++ rest) (seen.insert h)
    else mark m rest seen
termination_by (m.unmarked seen, todo.length)
decreasing_by
  · exact Prod.Lex.left _ _ (unmarked_insert_lt _hv.1 _hv.2)
  · exact Prod.Lex.right _ (by simp)

/-- The live instructions that can be reached from the entries. -/
def reachable (m : CodeMap) (entries : List Handle) : Std.HashSet Handle := m.mark entries {}

/-! ### Dead spans -/

/-- Extends the latest span by an instruction outside the kept set, or closes it. The spans found so far are
the latest first. -/
def deadStep (m : CodeMap) (keep : Std.HashSet Handle) (acc : List (Nat × Nat) × Option (Nat × Nat))
    (e : Nat × Handle × Instruction) : List (Nat × Nat) × Option (Nat × Nat) :=
  if keep.contains e.2.1 then (acc.2.toList ++ acc.1, none)
  else
    let stop := (m.last? e.2.1).getD e.1
    (acc.1, some (acc.2.elim e.1 Prod.fst, stop))

/-- The longest spans that hold only instructions outside `keep`, in address order. -/
def deadSpans (m : CodeMap) (keep : Std.HashSet Handle) : List (Nat × Nat) :=
  let r := m.instructions.foldl (m.deadStep keep) ([], none)
  (r.2.toList ++ r.1).reverse

end NeoScript.CodeMap
