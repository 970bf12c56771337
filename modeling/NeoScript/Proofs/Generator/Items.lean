import NeoScript.Proofs.Generator.Straight

/-!
# Types on the shadow stack

What each emission does to the types on the shadow stack, and the type that a constant leaves there.
-/

namespace NeoScript

open ShadowStack List Literal

@[simp] lemma ShadowStack.items_popN (s : ShadowStack) (after : Option Handle) (count : Nat) :
    (s.popN after count).items = s.items.drop count := by
  rw [Generator.popN_eq]
  split_ifs with h
  · rcases h with rfl | h
    · rfl
    · rw [h, drop_nil]
  · exact items_record _ _

namespace Generator

variable (g : Generator)

@[simp] lemma items_append (i : Instruction) : (g.append i).stack.items = g.stack.items :=
  congrArg items (stack_of_context (context_append g i))

@[simp] lemma items_appendAll (is : List Instruction) : (g.appendAll is).stack.items = g.stack.items := by
  unfold appendAll
  induction is generalizing g with
  | nil => rfl
  | cons i is ih => rw [foldl_cons, ih, items_append]

@[simp] lemma items_pushType (t : ValueType) : (g.pushType t).stack.items = t :: g.stack.items :=
  items_push _ _ _

@[simp] lemma items_popTypes (count : Nat) : (g.popTypes count).stack.items = g.stack.items.drop count :=
  items_popN _ _ _

lemma items_track (after : Handle) (pops : Nat) (result : Option ValueType) :
    (g.track after pops result).stack.items = result.toList ++ g.stack.items.drop pops := by
  cases result with
  | none => exact items_popN _ _ _
  | some t => exact (items_push _ _ _).trans (congrArg (t :: ·) (items_popN _ _ _))

@[simp] lemma items_op (o : Opcode) (pops : Nat) (result : Option ValueType) :
    (g.op o pops result).stack.items = result.toList ++ g.stack.items.drop pops := by
  rw [op, items_track, emit, items_append]

@[simp] lemma items_opData (o : Opcode) (operand : Bytes) (pops : Nat) (result : Option ValueType) :
    (g.opData o operand pops result).stack.items = result.toList ++ g.stack.items.drop pops := by
  rw [opData, items_track, emitData, items_append]

@[simp] lemma items_callToken (token : MethodToken) (pops : Nat) (result : Option ValueType) :
    (g.callToken token pops result).stack.items = result.toList ++ g.stack.items.drop pops := by
  rw [callToken, items_opData]
  split <;> rfl

@[simp] lemma items_pushBytes (bytes : Bytes) : (g.pushBytes bytes).stack.items = .bytes :: g.stack.items := by
  rw [pushBytes, items_pushType, emitData, items_append]

@[simp] lemma items_pushIndex (n : Nat) : (g.pushIndex n).stack.items = .nonNegInt :: g.stack.items := by
  rw [pushIndex, items_pushType, items_appendAll]

@[simp] lemma items_dup : (g.dup).stack.items = g.stack.peek 0 :: g.stack.items := by
  rw [dup, items_pushType, emit, items_append]

@[simp] lemma items_cast (t : ValueType) : (g.cast t).stack.items = t :: g.stack.items.drop 1 := by
  unfold cast
  dsimp only
  rw [settle, items_pushType, items_popTypes]
  split_ifs
  · rw [emitData, items_append]
  · rfl

/-! ### Constants -/

lemma ends_integer_items (v : Int) :
    Ends (integer v) g (fun _ g' => g'.stack.items = intType v :: g.stack.items) fun _ => True := by
  refine .ofExcept_bind trivial fun is _ => .modify ?_
  rw [items_pushType, items_appendAll]

/-- The number of items of a sequence. -/
lemma length_itemTypes (items : List Literal) : (itemTypes items).length = items.length := by
  induction items with
  | nil => rfl
  | cons item items ih => rw [itemTypes, length_cons, length_cons, ih]

mutual

/-- **A constant leaves its type.** -/
lemma ends_literal_items (value : Literal) (g : Generator) :
    Ends (literal value) g (fun _ g' => g'.stack.items = value.valueType :: g.stack.items) fun _ => True := by
  match value with
  | .none | .bool b => exact .modify (items_op g _ _ _)
  | .int v => exact ends_integer_items g v
  | .str _ | .bytes _ =>
    rw [literal]
    refine Ends.bind (P := fun _ g1 => g1.stack.items = .bytes :: g.stack.items) (ends_pushData (items_pushBytes g _))
      fun _ g1 h1 => .modify ?_
    rw [items_cast, h1]
    rfl
  | .sequence [] => exact .modify (items_op g _ _ _)
  | .sequence (item :: items) =>
    rw [literal]
    refine (ends_literalItems_items items g).bind fun _ g1 h1 => (ends_literal_items item g1).bind fun _ g2 h2 => .modify ?_
    rw [items_op, items_pushIndex, h2, h1, drop_succ_cons, drop_succ_cons, ← length_itemTypes items,
      drop_left]
    rfl
  | .mapping pairs =>
    rw [literal]
    refine Ends.bind (P := fun _ g' => g'.stack.items = (mapping pairs).valueType :: g.stack.items)
      (.modify (items_op g _ _ _)) fun _ g1 h1 => ?_
    exact (ends_literalPairs_items pairs g1).mono (fun _ _ h => h.trans h1) fun _ h => h

/-- Constants leave their types, the first on top. -/
lemma ends_literalItems_items (items : List Literal) (g : Generator) :
    Ends (literalItems items) g (fun _ g' => g'.stack.items = itemTypes items ++ g.stack.items)
      fun _ => True := by
  match items with
  | [] => exact .pure rfl
  | item :: items =>
    rw [literalItems]
    refine (ends_literalItems_items items g).bind fun _ g1 h1 => (ends_literal_items item g1).mono (fun _ g2 h2 => ?_) fun _ h => h
    rw [h2, h1]
    rfl

/-- Pairs go into the mapping on top. -/
lemma ends_literalPairs_items (pairs : List (Literal × Literal)) (g : Generator) :
    Ends (literalPairs pairs) g (fun _ g' => g'.stack.items = g.stack.items) fun _ => True := by
  match pairs with
  | [] => exact .pure rfl
  | (key, value) :: pairs =>
    rw [literalPairs]
    refine Ends.bind (P := fun _ g' => g'.stack.items = g.stack.peek 0 :: g.stack.items)
      (.modify (items_dup g)) fun _ g1 h1 => ?_
    refine (ends_literal_items key g1).bind fun _ g2 h2 => (ends_literal_items value g2).bind fun _ g3 h3 => ?_
    refine Ends.bind (P := fun _ g' => g'.stack.items = g.stack.items) (.modify ?_) fun _ g4 h4 => ?_
    · rw [items_op, h3, h2, h1]
      rfl
    · exact (ends_literalPairs_items pairs g4).mono (fun _ _ h => h.trans h4) fun _ h => h

end

end Generator

end NeoScript
