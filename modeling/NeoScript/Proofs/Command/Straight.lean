import NeoScript.Session
import NeoScript.Proofs.Generator.Straight

/-!
# Straight commands

Expressions, assignments, returns and the like are straight operations. What is left are the calls, which name a
method that may come later, and the commands that open, close or leave a construct.
-/

namespace NeoScript

open Generator Option Snippet Instruction

variable {P : Opcode → Prop}

/-- Every opcode that the body of a builtin can have satisfies `P`. -/
def Builtin.Inlines (P : Opcode → Prop) (b : Builtin) : Prop :=
  ∀ args is, b.body args = .ok is → ∀ i ∈ is, P i.opcode

/-! ### What a constant is made of -/

namespace Literal

mutual

/-- The constants without parts that a constant is made of. -/
def leaves : Literal → List Literal
  | sequence items => itemLeaves items
  | mapping pairs => pairLeaves pairs
  | l => [l]

def itemLeaves : List Literal → List Literal
  | [] => []
  | item :: items => item.leaves ++ itemLeaves items

def pairLeaves : List (Literal × Literal) → List Literal
  | [] => []
  | (key, value) :: pairs => key.leaves ++ value.leaves ++ pairLeaves pairs

end

/-- The integer that a constant without parts is. -/
def int? : Literal → Option Int
  | int v => v
  | _ => Option.none

/-- The bytes that a constant without parts pushes, if it is a string of characters or bytes. -/
def payload? : Literal → Option Bytes
  | str s => s.toUTF8.toList
  | bytes bs => bs
  | _ => Option.none

end Literal

/-- Whether some length field can count the bytes. -/
def Pushable (bytes : Bytes) : Bool := accepts (.pushDataFor bytes.length) bytes

/-- Whether all bytes in a constant can be pushed. -/
def Literal.Pushable (l : Literal) : Prop := ∀ x ∈ l.leaves, ∀ bs ∈ x.payload?, NeoScript.Pushable bs = true

/-- The bytes in a constant. -/
def Literal.payloads (l : Literal) : List Bytes := l.leaves.filterMap payload?

lemma Literal.pushable_of_payloads {l : Literal} (h : ∀ bs ∈ l.payloads, NeoScript.Pushable bs = true) : l.Pushable :=
  fun x hx bs hbs => h bs (List.mem_filterMap.2 ⟨x, hx, hbs⟩)

namespace Generator

namespace Straight

variable {α : Type}

/-- Looking at the state, where only the view matters. -/
lemma get {k : Generator → Emission α} (hv : ∀ g, k g = k g.view) (hk : ∀ v, Straight P (k v)) :
    Straight P (get >>= k) := by
  rw [show k = fun g => k g.view from funext hv]
  exact look hk

lemma refuse (cause : CompileError) : Straight P (refuse cause : Emission α) := .throw _

lemma ofExcept (x : Except CompileError α) : Straight P (Emission.ofExcept x) := by
  cases x with
  | ok a => exact .pure a
  | error cause => exact .refuse cause

lemma ofOption (cause : CompileError) (x : Option α) : Straight P (Emission.ofOption cause x) := by
  cases x with
  | some a => exact .pure a
  | none => exact .refuse cause

lemma pushData (bytes : Bytes) : Straight P (pushData bytes) := by
  unfold Generator.pushData
  split
  · exact .modify (Move.stay.pushBytes bytes)
  · exact .throw _

lemma ofFault_bind {β : Type} {x : Except Fault α} {k : α → Emission β} (h : ∀ a, x = .ok a → Straight P (k a)) :
    Straight P (ofFault x >>= k) := by
  cases x with
  | ok a => exact h a rfl
  | error fault => exact .throw fault

end Straight

/-! ### Constants and variables -/

lemma proper_loadSlot (kind : SlotKind) (index : Nat) : (loadSlot kind index).Proper := fun _ => by
  unfold loadSlot Opcode.loadOf
  split_ifs <;> simp [accepts, Opcode.operand]

lemma proper_storeSlot (kind : SlotKind) (index : Nat) : (storeSlot kind index).Proper := fun _ => by
  unfold storeSlot Opcode.storeOf
  split_ifs <;> simp [accepts, Opcode.operand]

lemma ne_loadSlot (kind : SlotKind) (index : Nat) : (loadSlot kind index).opcode ≠ .finallyLeave := by
  unfold loadSlot Opcode.loadOf
  split_ifs <;> exact nofun

lemma ne_storeSlot (kind : SlotKind) (index : Nat) : (storeSlot kind index).opcode ≠ .finallyLeave := by
  unfold storeSlot Opcode.storeOf
  split_ifs <;> exact nofun

lemma straight_integer (v : Int) : Straight P (integer v) := by
  unfold integer pushInteger
  cases hp : pushInteger? v with
  | none => exact .throw _
  | some is => exact .modify ((Move.stay.appendAll (proper_pushInteger hp)).pushType _)

mutual

lemma straight_literal : (l : Literal) → Straight P (literal l)
  | .none => .modify (Move.stay.op .pushNull rfl 0 _)
  | .bool value => .modify (Move.stay.op (.pushBool value) rfl 0 _)
  | .int value => straight_integer value
  | .str _ | .bytes _ => .bind (.pushData _) fun _ => .modify (Move.stay.cast _)
  | .sequence [] => .modify (Move.stay.op .newArray0 rfl 0 _)
  | .sequence (item :: items) =>
    .bind (straight_literalItems items) fun _ => .bind (straight_literal item) fun _ =>
      .modify ((Move.stay.pushIndex _).op .pack rfl _ _)
  | .mapping pairs => .bind (.modify (Move.stay.op .newMap rfl 0 _)) fun _ => straight_literalPairs pairs

lemma straight_literalItems : (items : List Literal) → Straight P (literalItems items)
  | [] => .pure ()
  | item :: items => .bind (straight_literalItems items) fun _ => straight_literal item

lemma straight_literalPairs : (pairs : List (Literal × Literal)) → Straight P (literalPairs pairs)
  | [] => .pure ()
  | (key, value) :: pairs =>
    .bind (.modify Move.stay.dup) fun _ => .bind (straight_literal key) fun _ => .bind (straight_literal value) fun _ =>
      .bind (.modify (Move.stay.op .setItem rfl 3 none)) fun _ => straight_literalPairs pairs

end

lemma straight_load (name : String) : Straight P (load name) := by
  refine .get (fun _ => rfl) fun v => .bind (.ofExcept _) fun binding => ?_
  cases binding with
  | slot kind index type => exact .modify ((Move.append rfl (proper_loadSlot kind index)
    (ne_loadSlot kind index)).pushType type)
  | packed index type =>
    exact .modify (((Move.stay.op (.load .argument (some 0)) rfl 0 _).pushIndex index).op .pickItem rfl 2 _)
  | inlined value => exact straight_literal value
  | stored type =>
    exact .bind (.pushData _) fun _ => .modify (((Move.stay.callService _ _ _).callService _ _ _).callToken _ _ _)

lemma move_discardTop : Move discardTop :=
  Move.detach (q := fun o => pushesConstant { opcode := o }) (fun _ h => h) (Move.stay.popTypes 1) Move.stay.drop

lemma straight_store (name : String) : Straight P (store name) := by
  refine .get (fun _ => rfl) fun v => .bind (.ofExcept _) fun binding => ?_
  cases binding with
  | slot kind index type =>
    exact .modify ((Move.append rfl (proper_storeSlot kind index) (ne_storeSlot kind index)).popTypes 1)
  | packed index type =>
    exact .modify ((((Move.stay.op (.load .argument (some 0)) rfl 0 _).swap.pushIndex index).swap).op .setItem rfl 3 _)
  | inlined value => exact .modify move_discardTop
  | stored type =>
    exact .bind (.modify (Move.stay.callToken _ _ _)) fun _ => .bind (.pushData _) fun _ =>
      .modify ((Move.stay.callService _ _ _).callService _ _ _)

lemma straight_storeConstants (constants : List (String × Literal)) : Straight P (Session.storeConstants constants) := by
  induction constants with
  | nil => exact .pure ()
  | cons e rest ih => exact .bind (straight_literal e.2) fun _ => .bind (straight_store e.1) fun _ => ih

/-! ### Operators -/

lemma straight_unary (o : UnaryOp) : Straight P (unary o) := by
  refine .get (fun _ => rfl) fun v => ?_
  dsimp only
  split
  · exact .modify (Move.stay.op .not rfl 1 _)
  · exact .pure ()
  · exact .modify (Move.stay.op .negate rfl 1 _)
  · exact .modify (Move.stay.op .invert rfl 1 _)
  · exact .refuse _

lemma move_binaryOp {o : Opcode} (ho : (Snippet.op o).proper = true) (t : ValueType) :
    Move fun g => g.binaryOp o t := Move.stay.op o ho 2 (some t)

lemma move_identity (negated : Bool) : Move fun g => g.identity negated := by
  refine Move.detach (q := fun o => o == .pushNull)
    (f := fun g => if negated then ((g.popTypes 1).op .isNull 1 (some .bool)).op .not 1 (some .bool)
      else (g.popTypes 1).op .isNull 1 (some .bool)) (fun i hi => ?_) ?_ ?_
  · simp [pushesConstant, beq_iff_eq.1 hi]
  · have h := (Move.stay.popTypes 1).op .isNull rfl 1 (some .bool)
    exact .ite (h.op .not rfl 1 (some .bool)) h
  · cases negated
    · exact move_binaryOp rfl _
    · exact move_binaryOp rfl _

lemma move_membership (negated : Bool) : Move fun g => g.membership negated := by
  have h := Move.stay.swap.op .hasKey rfl 2 (some .bool)
  exact .ite (h.op .not rfl 1 (some .bool)) h

lemma move_arithmetic {o : BinaryOp} {nonNegative bools : Bool} {f : Generator → Generator}
    (h : arithmetic? o nonNegative bools = some f) : Move f := by
  unfold arithmetic? at h
  cases o <;> cases h
  case floorDiv =>
    cases nonNegative
    · exact Move.settle (Move.snippet rfl) 2 .int
    · exact move_binaryOp rfl _
  case mod =>
    cases nonNegative
    · exact Move.settle (Move.snippet rfl) 2 .int
    · exact move_binaryOp rfl _
  all_goals exact move_binaryOp rfl _

lemma move_binary? {o : BinaryOp} {left right : ValueType} {f : Generator → Generator}
    (h : binary? o left right = some f) : Move f := by
  have hcat : Move fun g => (g.binaryOp .cat .byteArray).cast left := (move_binaryOp rfl _).cast left
  cases o <;> simp only [binary?] at h
  case eq =>
    cases h
    split_ifs <;> exact move_binaryOp rfl _
  case ne =>
    cases h
    split_ifs <;> exact move_binaryOp rfl _
  case is => exact some.inj h ▸ move_identity false
  case isNot => exact some.inj h ▸ move_identity true
  case and => exact some.inj h ▸ move_binaryOp rfl _
  case or => exact some.inj h ▸ move_binaryOp rfl _
  case isIn =>
    split at h
    · exact some.inj h ▸ move_membership false
    · cases h
  case notIn =>
    split at h
    · exact some.inj h ▸ move_membership true
    · cases h
  all_goals
    split_ifs at h
    · exact move_arithmetic h
    · exact some.inj h ▸ hcat

lemma straight_binary (o : BinaryOp) : Straight P (binary o) := by
  refine .get (fun _ => rfl) fun v => ?_
  dsimp only
  split
  · next f hf => exact .modify (move_binary? hf)
  · exact .refuse _

lemma straight_isInstance (t : ValueType) : Straight P (isInstance t) := by
  unfold Generator.isInstance
  split
  · exact .modify (Move.stay.op .isNull rfl 1 _)
  · exact .refuse _
  · exact .modify (Move.stay.opData .isType _ rfl (fun _ => rfl) nofun 1 _)

/-! ### Indexing and slicing -/

lemma straight_fixNegativeIndex (depth : Nat) : Straight P (fixNegativeIndex depth) := by
  refine .get (fun _ => rfl) fun v => ?_
  split_ifs
  · exact .modify ((Move.snippet (proper_fixIndex _)).settle 1 .int)
  · exact .misuse fun g => ⟨_, rfl⟩
  · exact .pure ()

lemma straight_getItem : Straight P getItem := by
  refine .get (fun _ => rfl) fun v => ?_
  have hsettle : Straight P (modify fun g => g.settle 2 (v.stack.peek 1).subscript) := .modify (Move.stay.settle 2 _)
  dsimp only
  split
  · exact .bind (.modify (Move.stay.emit .pickItem rfl)) fun _ => hsettle
  · exact .bind (straight_fixNegativeIndex 1) fun _ => .bind (.modify (Move.snippet rfl)) fun _ => hsettle
  · split_ifs
    · exact .bind (straight_fixNegativeIndex 1) fun _ => .bind (.modify (Move.stay.emit .pickItem rfl)) fun _ => hsettle
    · exact .bind (.refuse _) fun _ => hsettle

lemma straight_setItem : Straight P setItem := by
  refine .get (fun _ => rfl) fun v => ?_
  have hset : Straight P (modify fun g => g.op .setItem 3 none) := .modify (Move.stay.op .setItem rfl 3 none)
  dsimp only
  split
  · exact hset
  pick_goal 4
  · exact .bind (.refuse _) fun _ => hset
  all_goals
    split_ifs
    · exact .bind (.modify Move.stay.swap) fun _ => .bind (straight_fixNegativeIndex 2) fun _ =>
        .bind (.modify Move.stay.swap) fun _ => hset
    · exact hset

lemma straight_deleteItem : Straight P deleteItem := by
  refine .get (fun _ => rfl) fun v => ?_
  have hremove : Straight P (modify fun g => g.op .remove 2 none) := .modify (Move.stay.op .remove rfl 2 none)
  dsimp only
  split
  · exact hremove
  · exact .bind (straight_fixNegativeIndex 1) fun _ => hremove
  · exact .bind (straight_fixNegativeIndex 1) fun _ => hremove
  · exact .bind (.refuse _) fun _ => hremove

lemma straight_replaceSlice {depth : Nat} {snippet : Generator → ValueType → Snippet}
    (hv : ∀ g, snippet g = snippet g.view) (hp : ∀ v t, (snippet v t).proper = true) :
    Straight P (replaceSlice depth snippet) := by
  refine .get (fun _ => rfl) fun v => .bind (.ofExcept _) fun t => .modify ?_
  exact Move.seen (k := fun v g => (g.emitSnippet (snippet v t)).settle (depth + 1) t)
    (fun g => by rw [← hv g]) fun v => Move.settle (Move.snippet (hp v t)) _ _

lemma straight_slice : Straight P slice := straight_replaceSlice (fun _ => rfl) fun _ _ => proper_slice _ _ _

lemma straight_sliceBeginning : Straight P sliceBeginning :=
  straight_replaceSlice (fun _ => rfl) fun _ _ => proper_sliceBeginning _ _

lemma straight_sliceEnding : Straight P sliceEnding := straight_replaceSlice (fun _ => rfl) fun _ _ => proper_sliceEnding _ _

lemma straight_copy : Straight P copy := straight_replaceSlice (fun _ => rfl) fun _ _ => proper_copy _

lemma straight_stride : Straight P stride := straight_replaceSlice (fun _ => rfl) fun _ _ => proper_stride _

lemma straight_sliceStride : Straight P sliceStride :=
  straight_replaceSlice (fun _ => rfl) fun _ _ => proper_sliceStride _ _ _ _

/-! ### Leaving a method -/

lemma straight_returnFrom (hasValue : Bool) : Straight P (returnFrom hasValue) := by
  refine .get (fun _ => rfl) fun v => ?_
  cases v.frame with
  | none => exact .refuse _
  | some frame =>
    have hleave (kept : Nat) (saved : List ValueType) : Move fun g =>
        let g := if hasValue then g.nipN kept else g.dropN kept
        let g := if frame.isInit && !hasValue then g.op (.load .argument (some 0)) 0 (some .any) else g
        (g.emit .ret).restoreStack saved := by
      have h := Move.ite (c := hasValue = true) (Move.stay.nipN kept) (Move.stay.dropN kept)
      exact ((Move.ite (h.op _ rfl 0 _) h).emit .ret rfl).restore _
    refine .modify (Move.seen (fun g => ?_) fun v => hleave _ _)
    have hkept : (g.view.loops.map fun loop => loop.kind.kept) = g.loops.map fun loop => loop.kind.kept := by
      simp [view, Function.comp_def]
    rw [hkept]
    rfl

lemma move_raise : Move raise :=
  Move.look (k := fun v g => (g.emit .throw).restoreStack v.stack.items.tail) fun _ =>
    (Move.stay.emit .throw rfl).restore _

lemma move_assert (hasMessage : Bool) : Move fun g => g.assert hasMessage :=
  .ite (Move.stay.op .assertMsg rfl 2 none) (Move.stay.op .assert rfl 1 none)

/-! ### Builtins, objects and other contracts -/

lemma straight_inlineBody {is : List Instruction} (hP : ∀ i ∈ is, P i.opcode) : Straight P (inlineBody is) := by
  induction is with
  | nil => exact .pure ()
  | cons i is ih =>
    unfold inlineBody
    split_ifs with h
    · exact .throw _
    · simp only [Bool.or_eq_true, Bool.not_eq_true', not_or, Bool.not_eq_true, Bool.not_eq_false] at h
      exact .bind (.inline (Opcode.hasTarget_eq_false.1 h.1) (fun _ => h.2) (hP i List.mem_cons_self)) fun _ =>
        ih fun j hj => hP j (List.mem_cons_of_mem _ hj)

/-- Calls a built-in function by its body, with its arguments on top of the stack. -/
def callInline (b : Builtin) : Emission Unit := do
  let g ← MonadState.get
  let args := ((List.range b.argCount).map g.stack.peek).reverse
  let body ← ofFault (b.body args)
  let result ← ofFault (b.returns args)
  inlineBody body
  modify fun g =>
    let g := g.popTypes b.argCount
    if result = .none then g else g.pushType result

lemma straight_callBuiltin {b : Builtin} (hP : b.Inlines P) : Straight P (callBuiltin b) := by
  have hbody : Straight P (callInline b) := by
    refine .get (fun _ => rfl) fun v => .ofFault_bind fun body hb => .ofFault_bind fun result _ => ?_
    refine .bind (straight_inlineBody (hP _ _ hb)) fun _ => .modify ?_
    exact .ite (Move.stay.popTypes _) ((Move.stay.popTypes _).pushType _)
  unfold callBuiltin
  split
  · dsimp only
    split_ifs
    · exact .bind (straight_fixNegativeIndex _) fun _ => hbody
    · exact .bind (.refuse _) fun _ => hbody
  · exact hbody

lemma straight_loadField (field : String) : Straight P (loadField field) :=
  .get (fun _ => rfl) fun _ => .bind (.ofExcept _) fun _ => .modify ((Move.stay.pushIndex _).op .pickItem rfl 2 _)

lemma straight_storeField (field : String) : Straight P (storeField field) :=
  .get (fun _ => rfl) fun _ => .bind (.ofExcept _) fun _ =>
    .modify (((Move.stay.swap.pushIndex _).swap).op .setItem rfl 3 _)

lemma straight_announce (event : String) : Straight P (announce event) :=
  .get (fun _ => rfl) fun _ => .bind (.ofOption _ _) fun _ => .bind (.modify (Move.stay.packTop _)) fun _ =>
    .bind (.pushData _) fun _ => .modify (Move.stay.callService _ _ _)

lemma straight_callContract (contract method : String) : Straight P (callContract contract method) := by
  refine .get (fun _ => rfl) fun _ => .bind (.ofOption _ _) fun i => .bind (.ofOption _ _) fun m =>
    .bind (.modify ((Move.stay.packTop _).pushIndex _)) fun _ => .bind (.pushData _) fun _ => .bind (.pushData _) fun _ =>
      .modify ?_
  have h := Move.stay.callService .contractCall 4 (some m.returns)
  exact .ite h h.drop

end Generator

namespace Command

/-- Whether a command neither calls a method nor opens, closes or leaves a construct. -/
def isStraight : Command → Bool
  | beginIf | beginElse | endIf | beginWhile | beginWhileBody | endWhile _ | beginFor | endFor _ | endLoopElse
  | breakLoop | continueLoop | beginTry | beginHandler _ | endTry _ | endFinalizer | call _ | newObject _ => false
  | _ => true

/-- Every opcode that the command takes from the body of a builtin satisfies `P`. -/
def Inlines (P : Opcode → Prop) : Command → Prop
  | builtin function => function.Inlines P
  | _ => True

/-- Such a command is a straight operation, unless it records a type. -/
lemma straight_run_of_inlines {c : Command} (hc : c.isStraight = true) (hP : c.Inlines P) :
    Straight P c.run ∨ ∃ name t, c = narrow name t := by
  cases c with
  | literal value => exact .inl (straight_literal value)
  | integer value => exact .inl (straight_integer value)
  | cast type => exact .inl (.modify (Move.stay.cast type))
  | load name => exact .inl (straight_load name)
  | store name => exact .inl (straight_store name)
  | narrow name type => exact .inr ⟨name, type, rfl⟩
  | unary operator => exact .inl (straight_unary operator)
  | binary operator => exact .inl (straight_binary operator)
  | isInstance type => exact .inl (straight_isInstance type)
  | getItem => exact .inl straight_getItem
  | setItem => exact .inl straight_setItem
  | deleteItem => exact .inl straight_deleteItem
  | slice => exact .inl straight_slice
  | sliceBeginning => exact .inl straight_sliceBeginning
  | sliceEnding => exact .inl straight_sliceEnding
  | copy => exact .inl straight_copy
  | stride => exact .inl straight_stride
  | sliceStride => exact .inl straight_sliceStride
  | returnFrom hasValue => exact .inl (straight_returnFrom hasValue)
  | raise => exact .inl (.modify move_raise)
  | assert hasMessage => exact .inl (.modify (move_assert hasMessage))
  | builtin function => exact .inl (straight_callBuiltin hP)
  | loadField field => exact .inl (straight_loadField field)
  | storeField field => exact .inl (straight_storeField field)
  | announce event => exact .inl (straight_announce event)
  | callContract contract method => exact .inl (straight_callContract contract method)
  | _ => cases hc

lemma inlines_true (c : Command) : c.Inlines fun _ => True := by
  cases c with
  | builtin function => exact fun _ _ _ _ _ => trivial
  | _ => trivial

lemma straight_run {c : Command} (hc : c.isStraight = true) :
    Straight (fun _ => True) c.run ∨ ∃ name t, c = narrow name t := straight_run_of_inlines hc (inlines_true c)

/-! ### Calls -/

/-- The method of the script that a command calls. -/
def callee? (symbols : SymbolTable) : Command → Option String
  | call name => some name
  | newObject className => (symbols.classes.get? className).bind UserClass.init
  | _ => none

/-- Whether a command may call a method of the script. -/
def invokes : Command → Bool
  | call _ | newObject _ => true
  | _ => false

end Command

namespace Generator

/-- The call of a method, if there is one to call. -/
def emitCall? (g : Generator) : Option String → Generator
  | some name => g.emitCall name
  | none => g

lemma callee?_of_constructorOf {g : Generator} {className : String} {c : UserClass} {init : Option (String × Method)}
    (hc : g.symbols.classes.get? className = some c) (hinit : g.constructorOf className c = .ok init) :
    (Command.newObject className).callee? g.symbols = init.map Prod.fst := by
  rw [Command.callee?, hc, bind_some]
  unfold constructorOf at hinit
  split at hinit
  · next hnone =>
    cases hinit
    exact hnone
  · next name hsome =>
    rw [hsome]
    cases hm : g.methodOf name with
    | error cause => simp [hm, bind, Except.bind] at hinit
    | ok method =>
      simp only [hm, bind, Except.bind] at hinit
      split_ifs at hinit
      cases hinit
      rfl

/-- Such a command is a straight step, the call, and a change of the stack. -/
lemma ends_invoke {c : Command} (hc : c.invokes = true) (g : Generator) :
    Ends c.run g (fun _ g' => ∃ p, Move p ∧ ∃ s, g' = { (p g).emitCall? (c.callee? g.symbols) with stack := s })
      fun g' => g' = g := by
  cases c with
  | call name =>
    refine .get (.ofExcept_bind rfl fun method _ => ?_)
    have hturn : Move fun g => if method.packsArgs then g.packTop method.args.size else g.reverseTop method.args.size :=
      .ite (Move.stay.packTop _) (Move.stay.reverseTop _)
    refine .modify ⟨_, hturn, ?_⟩
    dsimp only
    split_ifs <;> exact ⟨_, rfl⟩
  | newObject className =>
    refine .get (.ofOption_bind rfl fun c hc => .ofExcept_bind rfl fun init hinit => ?_)
    rw [callee?_of_constructorOf hc hinit]
    have hmake := ((Move.stay.reverseTop ((init.map fun e => e.2.args.size - 1).getD 0)).pushIndex c.fields.size).op
      .newArray rfl 1 (some (.object className))
    refine .modify ⟨_, hmake, ?_⟩
    dsimp only
    generalize ((g.reverseTop ((init.map fun e => e.2.args.size - 1).getD 0)).pushIndex c.fields.size).op .newArray 1
      (some (.object className)) = g3
    cases init with
    | none | some e => exact ⟨_, rfl⟩
  | _ => cases hc

/-! ### Which constants are refused -/

open Literal List

lemma run_integer {v : Int} {is : List Instruction} (hp : pushInteger? v = some is) (g : Generator) :
    (integer v).run g = .ok () ((g.appendAll is).pushType (intType v)) := by
  rw [integer, run_bind, pushInteger, hp]
  rfl

/-- The operation is carried out if the constants can be emitted. It is refused only because of an integer that does not
fit into 32 bytes, and a misuse only because of bytes that are too long. -/
def Decides (xs : List Literal) (op : Emission Unit) : Prop :=
  ∀ g, ((∀ x ∈ xs, (∀ n ∈ x.int?, InRange n) ∧ ∀ bs ∈ x.payload?, Pushable bs = true) ∧ ∃ g', op.run g = .ok () g') ∨
    (∃ x ∈ xs, ∃ n ∈ x.int?, ¬ InRange n ∧
      ∃ g', op.run g = .error (.refused (.integerTooWide (Bytes.signedWidth n))) g') ∨
    ∃ x ∈ xs, ∃ bs ∈ x.payload?, Pushable bs = false ∧ ∃ g', op.run g = .error .misuse g'

namespace Decides

variable {xs ys : List Literal} {op : Emission Unit} {f : Unit → Emission Unit}

lemma plain {x : Literal} (hi : x.int? = Option.none) (hp : x.payload? = Option.none) (k : Generator → Generator) :
    Decides [x] (modify k) := fun _ => .inl ⟨by simp [hi, hp], _, rfl⟩

lemma pushData {x : Literal} {bytes : Bytes} (hi : x.int? = Option.none) (hp : x.payload? = some bytes) (t : ValueType) :
    Decides [x] (do pushData bytes; modify fun g => g.cast t) := by
  intro g
  cases hb : Pushable bytes with
  | true =>
    refine .inl ⟨by simpa [hi, hp] using hb, ?_⟩
    rw [Pushable] at hb
    rw [Generator.pushData, if_pos hb]
    exact ⟨_, rfl⟩
  | false =>
    refine .inr (.inr ⟨x, mem_cons_self, bytes, hp, hb, g, ?_⟩)
    rw [Pushable] at hb
    rw [Generator.pushData, if_neg (by rw [hb]; exact Bool.false_ne_true)]
    rfl

lemma modify (k : Generator → Generator) : Decides [] (modify k) := fun _ => .inl ⟨by simp, _, rfl⟩

lemma pure : Decides [] (Pure.pure ()) := fun g => .inl ⟨by simp, g, rfl⟩

lemma bind (h : Decides xs op) (h' : Decides ys (f ())) : Decides (xs ++ ys) (op >>= f) := by
  intro g
  rcases h g with ⟨hx, g1, hrun⟩ | ⟨x, hx, n, hn, hwide, g1, hrun⟩ | ⟨x, hx, bs, hbs, hlong, g1, hrun⟩
  · rcases h' g1 with ⟨hy, g2, hrun'⟩ | ⟨y, hy, n, hn, hwide, g2, hrun'⟩ | ⟨y, hy, bs, hbs, hlong, g2, hrun'⟩
    · exact .inl ⟨forall_mem_append.2 ⟨hx, hy⟩, g2, by rw [run_bind, hrun]; exact hrun'⟩
    · exact .inr (.inl ⟨y, mem_append_right _ hy, n, hn, hwide, g2, by rw [run_bind, hrun]; exact hrun'⟩)
    · exact .inr (.inr ⟨y, mem_append_right _ hy, bs, hbs, hlong, g2, by rw [run_bind, hrun]; exact hrun'⟩)
  · exact .inr (.inl ⟨x, mem_append_left _ hx, n, hn, hwide, g1, by rw [run_bind, hrun]⟩)
  · exact .inr (.inr ⟨x, mem_append_left _ hx, bs, hbs, hlong, g1, by rw [run_bind, hrun]⟩)

lemma perm (h : Decides xs op) (hs : ∀ x, x ∈ xs ↔ x ∈ ys) : Decides ys op := by
  intro g
  rcases h g with ⟨hx, hrun⟩ | ⟨x, hx, hrefused⟩ | ⟨x, hx, hmisuse⟩
  · exact .inl ⟨fun x hy => hx x ((hs x).2 hy), hrun⟩
  · exact .inr (.inl ⟨x, (hs x).1 hx, hrefused⟩)
  · exact .inr (.inr ⟨x, (hs x).1 hx, hmisuse⟩)

lemma integer (v : Int) : Decides [.int v] (integer v) := by
  intro g
  cases hp : pushInteger? v with
  | none =>
    refine .inr (.inl ⟨_, mem_cons_self, v, rfl, pushInteger?_eq_none.1 hp, g, ?_⟩)
    rw [Generator.integer, run_bind, pushInteger, hp]
    rfl
  | some is =>
    have hv : InRange v := by
      by_contra hwide
      rw [pushInteger?_eq_none.2 hwide] at hp
      cases hp
    exact .inl ⟨by simpa [int?, payload?] using hv, _, run_integer hp g⟩

mutual

lemma literal : ∀ l : Literal, Decides l.leaves (literal l)
  | .none | .bool _ => plain rfl rfl _
  | .str _ | .bytes _ => pushData rfl rfl _
  | .sequence [] => modify _
  | .int v => integer v
  | .sequence (item :: items) => by
    rw [Generator.literal]
    refine perm (.bind (literalItems items) (.bind (literal item) (modify _))) fun n => ?_
    rw [leaves, itemLeaves]
    simp [or_comm]
  | .mapping pairs => by
    rw [Generator.literal]
    exact (modify _).bind (literalPairs pairs)

lemma literalItems : ∀ items : List Literal, Decides (itemLeaves items) (literalItems items)
  | [] => pure
  | item :: items => by
    rw [Generator.literalItems]
    refine perm (.bind (literalItems items) (literal item)) fun n => ?_
    rw [itemLeaves]
    simp [or_comm]

lemma literalPairs : ∀ pairs : List (Literal × Literal), Decides (pairLeaves pairs) (literalPairs pairs)
  | [] => pure
  | (key, value) :: pairs => by
    rw [Generator.literalPairs]
    refine perm (.bind (modify _) (.bind (literal key) (.bind (literal value) (.bind (modify _) (literalPairs pairs)))))
      fun n => ?_
    rw [pairLeaves]
    simp

end

end Decides

end Generator

end NeoScript
