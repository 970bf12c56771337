import NeoScript.CodeMap.Basic

/-!
# Spans of a code map

A span is an inclusive range of addresses. The instructions that lie in it whole form a block of the order,
which can be listed, removed or moved behind everything else.
-/

namespace NeoScript.CodeMap

/-- The first place whose instruction starts at or after `start`. -/
def spanBegin (m : CodeMap) (start : Nat) : Nat := m.starts.findIdx fun a => decide (start ≤ a)

/-- The place after the last instruction that belongs to the block starting at place `i` and ends at or
before `stop`. -/
def spanEnd (m : CodeMap) (stop i : Nat) : Nat :=
  i + ((m.order.extract i m.order.size).toList.takeWhile fun h =>
    match m.last? h with
    | some a => decide (a ≤ stop)
    | none => false).length

/-- The places of the instructions that lie in `[start, stop]`: from the first up to the second. -/
def block (m : CodeMap) (start stop : Nat) : Nat × Nat :=
  let i := m.spanBegin start
  (i, m.spanEnd stop i)

/-- The instructions that lie in `[start, stop]`. -/
def inSpan (m : CodeMap) (start stop : Nat) : List Handle :=
  let b := m.block start stop
  (m.order.extract b.1 b.2).toList

/-- Removes the instructions that lie in `[start, stop]` and closes the gap. Targets that refer to them are
left as they are. -/
def removeSpan (m : CodeMap) (start stop : Nat) : CodeMap × List Handle :=
  let b := m.block start stop
  if b.2 ≤ b.1 then (m, [])
  else
    let removed := (m.order.extract b.1 b.2).toList
    let kept := { m with order := m.order.extract 0 b.1 ++ m.order.extract b.2 m.order.size }
    ((removed.foldl forget kept).reflow b.1, removed)

/-- Removes the instructions that start at or after `address`. -/
def truncate (m : CodeMap) (address : Nat) : CodeMap × List Handle :=
  if m.size ≤ address then (m, []) else m.removeSpan address (m.size - 1)

/-- Moves the instructions that lie in `[start, stop]` behind all others, and says where they start then. -/
def relocate (m : CodeMap) (start stop : Nat) : CodeMap × Option Nat :=
  let b := m.block start stop
  if b.2 ≤ b.1 then (m, none)
  else
    let moved := m.order.extract b.1 b.2
    let order := m.order.extract 0 b.1 ++ m.order.extract b.2 m.order.size ++ moved
    let m' := { m with order }.reflow b.1
    (m', moved[0]?.bind m'.start?)

end NeoScript.CodeMap
