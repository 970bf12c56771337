import NeoScript.Proofs.Generator.Atop

/-!
# The operands of commands

A command takes its operands from the top of the stack and leaves at most one result. A command that finds its operands
on top of a stack works on top of that stack. For builtins this is asked of the builtin: one that leaves a result has
to emit something, for otherwise the result goes to the account of an instruction that was there before.
-/

namespace NeoScript

open Option List Instruction
open Literal (itemLeaves pairLeaves)

/-! ### What commands push -/

/-- The bytes that a command pushes. -/
def Command.payloads (g : Generator) : Command → List Bytes
  | literal value => value.payloads
  | load name =>
    match g.bindingOf name with
    | .ok (.inlined value) => value.payloads
    | .ok (.stored _) => [g.storageKey name]
    | _ => []
  | store name | beginHandler (some name) =>
    match g.bindingOf name with
    | .ok (.stored _) => [g.storageKey name]
    | _ => []
  | announce event => ((g.symbols.events.get? event).map fun e => e.name.toUTF8.toList).toList
  | callContract contract method =>
    method.toUTF8.toList :: ((g.symbols.contracts.get? contract).map fun i => i.hash.toList).toList
  | _ => []

namespace Generator

/-! ### Outcomes without misuse -/

/-- The operation is no misuse, and if it succeeds, then with `P`. -/
def Regular {α : Type} (x : Emission α) (g : Generator) (P : α → Generator → Prop) : Prop :=
  match x.run g with
  | .ok a g' => P a g'
  | .error (.refused _) _ => True
  | .error .misuse _ => False

namespace Regular

variable {α β : Type} {g : Generator} {P P' : α → Generator → Prop} {f : Generator → Generator}

lemma pure {a : α} (h : P a g) : Regular (pure a) g P := h

lemma refuse_bind {cause : CompileError} {k : β → Emission α} : Regular (refuse cause >>= k) g P := trivial

lemma refuse (cause : CompileError) : Regular (refuse cause : Emission α) g P := trivial

lemma modify_bind {k : Unit → Emission α} (h : Regular (k ()) (f g) P) : Regular (modify f >>= k) g P := h

lemma modify {P : Unit → Generator → Prop} (h : P () (f g)) : Regular (modify f) g P := h

lemma get {k : Generator → Emission α} (h : Regular (k g) g P) : Regular (get >>= k) g P := h

lemma pushData_bind {bytes : Bytes} {k : Unit → Emission α} (hb : Pushable bytes = true)
    (h : Regular (k ()) (g.pushBytes bytes) P) : Regular (pushData bytes >>= k) g P := by
  rw [Pushable] at hb
  rw [pushData, if_pos hb]
  exact h

lemma ofOption {cause : CompileError} {x : Option α} (h : ∀ a, x = some a → P a g) :
    Regular (Emission.ofOption cause x) g P := by
  cases x with
  | some a => exact h a rfl
  | none => exact .refuse cause

lemma ofExcept_bind {x : Except CompileError β} {k : β → Emission α} (h : ∀ b, x = .ok b → Regular (k b) g P) :
    Regular (Emission.ofExcept x >>= k) g P := by
  cases x with
  | ok a => exact h a rfl
  | error cause => trivial

lemma ofOption_bind {cause : CompileError} {x : Option β} {k : β → Emission α}
    (h : ∀ b, x = some b → Regular (k b) g P) : Regular (Emission.ofOption cause x >>= k) g P := by
  cases x with
  | some a => exact h a rfl
  | none => trivial

lemma of_ok {x : Emission α} {a : α} {g' : Generator} (hx : x.run g = .ok a g') (h : Regular x g P) : P a g' := by
  rwa [Regular, hx] at h

lemma mono {x : Emission α} (h : Regular x g P) (hP : ∀ a g', x.run g = .ok a g' → P a g' → P' a g') : Regular x g P' := by
  unfold Regular at h ⊢
  split
  · next a g' hx =>
    rw [hx] at h
    exact hP a g' hx h
  · trivial
  · next hx =>
    rwa [hx] at h

lemma bind {x : Emission α} {f : α → Emission β} {Q : β → Generator → Prop} (hx : Regular x g P)
    (hf : ∀ a g', x.run g = .ok a g' → P a g' → Regular (f a) g' Q) : Regular (x >>= f) g Q := by
  unfold Regular at hx ⊢
  rw [run_bind]
  cases hr : x.run g with
  | ok a g' =>
    rw [hr] at hx
    exact hf a g' hr hx
  | error fault g' =>
    rw [hr] at hx
    cases fault with
    | refused cause => trivial
    | misuse => exact hx

end Regular

/-! ### Constants and variables -/

section

variable {r : Bool} {b c w g : Generator} {d e : Nat} {f? : Option String} {log : List (Handle × String)}
  {o : BinaryOp} {f : Generator → Generator}

lemma regular_integer (ha : Atop r b w d e g) (v : Int) : Regular (integer v) g fun _ => Atop r b w (d + 1) (e + 1) := by
  refine .ofExcept_bind fun is his => ?_
  unfold pushInteger at his
  split at his
  · next h =>
    cases his
    have hpos := Atop.length_pushInteger h
    exact .modify (((ha.appendAll is).fewer (by omega)).pushType _ (by omega))
  · cases his

mutual

lemma regular_literal : ∀ (l : Literal) {g : Generator} {d e : Nat}, l.Pushable → Atop r b w d e g →
    Regular (literal l) g fun _ => Atop r b w (d + 1) (e + 1)
  | .none, _, _, _, _, ha => .modify (ha.op_some .pushNull 0 .none (Nat.zero_le _))
  | .bool value, _, _, _, _, ha => .modify (ha.op_some (.pushBool value) 0 .bool (Nat.zero_le _))
  | .int value, _, _, _, _, ha => regular_integer ha value
  | .str _, _, _, _, hp, ha => .pushData_bind (hp _ mem_cons_self _ rfl) (.modify ((ha.pushBytes _).cast _ (by omega) (by omega)))
  | .bytes _, _, _, _, hp, ha => .pushData_bind (hp _ mem_cons_self _ rfl) (.modify ((ha.pushBytes _).cast _ (by omega) (by omega)))
  | .sequence [], _, _, _, _, ha => .modify (ha.op_some .newArray0 0 _ (Nat.zero_le _))
  | .sequence (item :: items), _, d, e, hp, ha => by
    obtain ⟨hitem, hitems⟩ := forall_mem_append.1 hp
    refine (regular_literalItems items hitems ha).bind fun _ g1 _ ha1 =>
      (regular_literal item hitem ha1).bind fun _ g2 _ ha2 => ?_
    have hpack := (ha2.pushIndex (items.length + 1) (by omega)).op_some .pack (items.length + 2)
      (Literal.sequence (item :: items)).valueType (by omega)
    rw [show d + items.length + 1 + 1 - (items.length + 2) = d by omega] at hpack
    exact .modify (hpack.fewer (by omega))
  | .mapping pairs, _, _, _, hp, ha =>
    .modify_bind (regular_literalPairs pairs hp (ha.op_some .newMap 0 (Literal.mapping pairs).valueType (Nat.zero_le _)))

lemma regular_literalItems : ∀ (items : List Literal) {g : Generator} {d e : Nat},
    (∀ x ∈ itemLeaves items, ∀ bs ∈ x.payload?, Pushable bs = true) → Atop r b w d e g →
    Regular (literalItems items) g fun _ => Atop r b w (d + items.length) (e + items.length)
  | [], _, _, _, _, ha => .pure ha
  | item :: items, _, _, _, hp, ha => by
    obtain ⟨hitem, hitems⟩ := forall_mem_append.1 hp
    refine (regular_literalItems items hitems ha).bind fun _ g1 _ ha1 => ?_
    exact regular_literal item hitem ha1

lemma regular_literalPairs : ∀ (pairs : List (Literal × Literal)) {g : Generator} {d e : Nat},
    (∀ x ∈ pairLeaves pairs, ∀ bs ∈ x.payload?, Pushable bs = true) → Atop r b w d e g →
    Regular (literalPairs pairs) g fun _ => Atop r b w d e
  | [], _, _, _, _, ha => .pure ha
  | (key, value) :: pairs, _, d, e, hp, ha => by
    obtain ⟨hpair, hpairs⟩ := forall_mem_append.1 hp
    obtain ⟨hkey, hvalue⟩ := forall_mem_append.1 hpair
    refine .modify_bind ((regular_literal key hkey ha.dup).bind fun _ g1 _ ha1 =>
      (regular_literal value hvalue ha1).bind fun _ g2 _ ha2 => .modify_bind ?_)
    exact regular_literalPairs pairs hpairs ((ha2.op_none .setItem 3 (by omega)).fewer (by omega))

end

lemma regular_load (ha : Atop r b w d e g) (name : String) (hp : ∀ bs ∈ (Command.load name).payloads g, Pushable bs = true) :
    Regular (load name) g fun _ => Atop r b w (d + 1) (e + 1) := by
  refine .get (.ofExcept_bind fun binding hb => ?_)
  rw [Command.payloads, hb] at hp
  cases binding with
  | slot kind index type => exact .modify ((ha.append _).pushType type (by omega))
  | packed index type =>
    have hargs := ha.op_some (.load .argument (some 0)) 0 (.list .any) (by omega)
    exact .modify (((hargs.pushIndex index (by omega)).op_some .pickItem 2 type (by omega)).fewer (by omega))
  | inlined value => exact regular_literal value (Literal.pushable_of_payloads hp) ha
  | stored type =>
    have hget := ((ha.pushBytes (g.storageKey name)).callService_some .storageReadOnlyContext 0 .any
      (by omega)).callService_some .storageGet 2 .bytes (by omega)
    exact .pushData_bind (hp _ mem_cons_self) (.modify ((hget.callToken_some .deserialize 1 type (by omega)).fewer (by omega)))

/-- Discarding what was pushed. -/
lemma atop_discardTop (ha : Atop r b w (d + 1) (e + 1) g) (hr : Ready c f? log g) (he : e = 0 → d = 0) :
    Atop r b w d e g.discardTop := by
  obtain ⟨hf, new, hs⟩ := hr
  unfold discardTop
  split
  · next last hl =>
    exact (ha.detach (q := fun o => pushesConstant { opcode := o }) hs hf (fun _ h => h) hl).popTypes 1 (by omega) (by omega)
  · exact (ha.op_none .drop 1 (by omega)).fewer (by omega)

lemma regular_store (ha : Atop r b w (d + 1) (e + 1) g) (hr : Ready c f? log g) (he : e = 0 → d = 0) (name : String)
    (hp : ∀ bs ∈ (Command.store name).payloads g, Pushable bs = true) : Regular (store name) g fun _ => Atop r b w d e := by
  refine .get (.ofExcept_bind fun binding hb => ?_)
  rw [Command.payloads, hb] at hp
  cases binding with
  | slot kind index type => exact .modify (((ha.append _).popTypes 1 (by omega) (by omega)).fewer (by omega))
  | packed index type =>
    have hargs := ha.op_some (.load .argument (some 0)) 0 (.list .any) (by omega)
    have hswap := ((hargs.swap (by omega)).pushIndex index (by omega)).swap (by omega)
    exact .modify ((hswap.op_none .setItem 3 (by omega)).fewer (by omega))
  | inlined value => exact .modify (atop_discardTop ha hr he)
  | stored type =>
    have hkey := (ha.callToken_some .serialize 1 .bytes (by omega)).pushBytes (g.storageKey name)
    have hput := (hkey.callService_some .storageContext 0 .any (by omega)).callService_none .storagePut 3 (by omega)
    exact .modify_bind (.pushData_bind (hp _ mem_cons_self) (.modify (hput.fewer (by omega))))

/-! ### Operators -/

lemma regular_unary (ha : Atop r b w (d + 1) (e + 1) g) (o : UnaryOp) :
    Regular (unary o) g fun _ => Atop r b w (d + 1) (e + 1) := by
  have hop : ∀ (o : Opcode) (t : ValueType), Atop r b w (d + 1) (e + 1) (g.op o 1 (some t)) := fun o t =>
    (ha.op_some o 1 t (by omega)).fewer (by omega)
  refine .get ?_
  dsimp only
  split
  · exact .modify (hop _ _)
  · exact .pure ha
  · exact .modify (hop _ _)
  · exact .modify (hop _ _)
  · exact .refuse _

lemma atop_binaryOp (ha : Atop r b w (d + 2) (e + 1) g) (o : Opcode) (t : ValueType) :
    Atop r b w (d + 1) (e + 1) (g.binaryOp o t) := (ha.op_some o 2 t (by omega)).fewer (by omega)

lemma atop_identity (ha : Atop r b w (d + 2) (e + 2) g) (hr : Ready c f? log g) (negated : Bool) :
    Atop r b w (d + 1) (e + 1) (g.identity negated) := by
  obtain ⟨hf, new, hs⟩ := hr
  have hq : ∀ i : Instruction, (i.opcode == .pushNull) = true → pushesConstant i = true := fun i hi => by
    simp [pushesConstant, beq_iff_eq.1 hi]
  unfold Generator.identity
  split
  · next null hl =>
    have hnull := ((ha.detach (q := (· == .pushNull)) hs hf hq hl).popTypes 1 (by omega) (by omega)).op_some .isNull 1 .bool (by omega)
    split_ifs
    · exact (hnull.op_some .not 1 .bool (by omega)).fewer (by omega)
    · exact hnull.fewer (by omega)
  · exact atop_binaryOp (ha.fewer (by omega)) _ _

lemma atop_membership (ha : Atop r b w (d + 2) (e + 1) g) (negated : Bool) :
    Atop r b w (d + 1) (e + 1) (g.membership negated) := by
  have hkey := (ha.swap (by omega)).op_some .hasKey 2 .bool (by omega)
  unfold Generator.membership
  dsimp only
  split_ifs
  · exact (hkey.op_some .not 1 .bool (by omega)).fewer (by omega)
  · exact hkey.fewer (by omega)

lemma atop_arithmetic {nonNegative bools : Bool}
    (h : arithmetic? o nonNegative bools = some f) (ha : Atop r b w (d + 2) (e + 1) g) : Atop r b w (d + 1) (e + 1) (f g) := by
  have hsnippet : ∀ s, Atop r b w (d + 1) (e + 1) ((g.emitSnippet s).settle 2 .int) := fun s =>
    (((ha.emitSnippet s).fewer (Nat.le_add_right _ _)).settle 2 .int (by omega) (by omega))
  unfold arithmetic? at h
  cases o <;> cases h
  case floorDiv =>
    cases nonNegative
    · exact hsnippet _
    · exact atop_binaryOp ha _ _
  case mod =>
    cases nonNegative
    · exact hsnippet _
    · exact atop_binaryOp ha _ _
  all_goals exact atop_binaryOp ha _ _

lemma atop_binary? {left right : ValueType}
    (h : binary? o left right = some f) (ha : Atop r b w (d + 2) (e + 2) g) (hr : Ready c f? log g) :
    Atop r b w (d + 1) (e + 1) (f g) := by
  have ha' : Atop r b w (d + 2) (e + 1) g := ha.fewer (by omega)
  cases o <;> simp only [Generator.binary?] at h
  case is => exact some.inj h ▸ atop_identity ha hr false
  case isNot => exact some.inj h ▸ atop_identity ha hr true
  case isIn =>
    split at h
    · exact some.inj h ▸ atop_membership ha' false
    · cases h
  case notIn =>
    split at h
    · exact some.inj h ▸ atop_membership ha' true
    · cases h
  case eq => exact some.inj h ▸ atop_binaryOp ha' _ _
  case ne => exact some.inj h ▸ atop_binaryOp ha' _ _
  case and => exact some.inj h ▸ atop_binaryOp ha' _ _
  case or => exact some.inj h ▸ atop_binaryOp ha' _ _
  all_goals
    split_ifs at h
    · exact atop_arithmetic h ha'
    · exact some.inj h ▸ (atop_binaryOp ha' _ _).cast left (by omega) (by omega)

lemma regular_binary (ha : Atop r b w (d + 2) (e + 2) g) (hr : Ready c f? log g) (o : BinaryOp) :
    Regular (binary o) g fun _ => Atop r b w (d + 1) (e + 1) := by
  refine .get ?_
  dsimp only
  split
  · next f hf => exact .modify (atop_binary? hf ha hr)
  · exact .refuse _

lemma regular_isInstance (ha : Atop r b w (d + 1) (e + 1) g) (t : ValueType) :
    Regular (isInstance t) g fun _ => Atop r b w (d + 1) (e + 1) := by
  unfold Generator.isInstance
  split
  · exact .modify ((ha.op_some .isNull 1 .bool (by omega)).fewer (by omega))
  · exact .refuse _
  · exact .modify ((ha.opData_some .isType _ 1 .bool (by omega)).fewer (by omega))

/-! ### Indexing and slicing -/

lemma regular_fixNegativeIndex (ha : Atop r b w d e g) (hd : 1 ≤ d) (he : 0 < e) (depth : Nat) (hdepth : depth < 17) :
    Regular (fixNegativeIndex depth) g fun _ => Atop r b w d e := by
  refine .get ?_
  split_ifs
  · have hfix := ((ha.emitSnippet (.fixIndex ⟨depth, hdepth⟩)).fewer (by omega : e ≤ _)).settle 1 .int hd he
    rw [Nat.sub_add_cancel hd] at hfix
    exact .modify hfix
  · exact .pure ha

lemma regular_getItem (ha : Atop r b w (d + 2) (e + 1) g) : Regular getItem g fun _ => Atop r b w (d + 1) (e + 1) := by
  have hfix := regular_fixNegativeIndex ha (by omega) (by omega) 1 (by omega)
  have hsettle : ∀ (i : Snippet) (t : ValueType) {g : Generator}, Atop r b w (d + 2) (e + 1) g →
      Atop r b w (d + 1) (e + 1) ((g.emitSnippet i).settle 2 t) := fun i t g ha =>
    ((ha.emitSnippet i).fewer (by omega : e + 1 ≤ _)).settle 2 t (by omega) (by omega)
  refine .get ?_
  dsimp only
  split
  · exact .modify_bind (.modify (hsettle (.op .pickItem) _ ha))
  · exact hfix.bind fun _ g1 _ ha1 => .modify_bind (.modify (hsettle _ _ ha1))
  · split_ifs
    · exact hfix.bind fun _ g1 _ ha1 => .modify_bind (.modify (hsettle (.op .pickItem) _ ha1))
    · exact .refuse_bind

lemma regular_setItem (ha : Atop r b w (d + 3) (e + 1) g) : Regular setItem g fun _ => Atop r b w d (e + 1) := by
  have hset : ∀ {g : Generator}, Atop r b w (d + 3) (e + 1) g →
      Regular (modify fun g => g.op .setItem 3 none) g fun _ => Atop r b w d (e + 1) := fun ha =>
    .modify ((ha.op_none .setItem 3 (by omega)).fewer (by omega))
  refine .get ?_
  dsimp only
  split
  · exact hset ha
  pick_goal 4
  · exact .refuse_bind
  all_goals
    split_ifs
    · refine .modify_bind ?_
      have hswap := (ha.swap (by omega)).fewer (by omega : e + 1 ≤ _)
      refine (regular_fixNegativeIndex hswap (by omega) (by omega) 2 (by omega)).bind fun _ g1 _ ha1 => ?_
      exact .modify_bind (hset ((ha1.swap (by omega)).fewer (by omega)))
    · exact hset ha

lemma regular_deleteItem (ha : Atop r b w (d + 2) (e + 1) g) : Regular deleteItem g fun _ => Atop r b w d (e + 1) := by
  have hremove : ∀ {g : Generator}, Atop r b w (d + 2) (e + 1) g →
      Regular (modify fun g => g.op .remove 2 none) g fun _ => Atop r b w d (e + 1) := fun ha =>
    .modify ((ha.op_none .remove 2 (by omega)).fewer (by omega))
  have hfix := regular_fixNegativeIndex ha (by omega) (by omega) 1 (by omega)
  refine .get ?_
  dsimp only
  split
  · exact hremove ha
  · exact hfix.bind fun _ g1 _ ha1 => hremove ha1
  · exact hfix.bind fun _ g1 _ ha1 => hremove ha1
  · exact .refuse_bind

lemma regular_replaceSlice {depth : Nat} (ha : Atop r b w (d + (depth + 1)) (e + 1) g)
    (snippet : Generator → ValueType → Snippet) :
    Regular (replaceSlice depth snippet) g fun _ => Atop r b w (d + 1) (e + 1) := by
  refine .get (.ofExcept_bind fun t _ => ?_)
  have hslice := ((ha.emitSnippet (snippet g t)).fewer (by omega : e + 1 ≤ _)).settle (depth + 1) t (by omega)
    (by omega)
  rw [Nat.add_sub_cancel] at hslice
  exact .modify hslice

lemma atop_assert (ha : Atop r b w (d + 1) (e + 1) g) : Atop r b w d (e + 1) (g.assert false) :=
  (ha.op_none .assert 1 (by omega)).fewer (by omega)

lemma atop_assertMessage (ha : Atop r b w (d + 2) (e + 1) g) : Atop r b w d (e + 1) (g.assert true) :=
  (ha.op_none .assertMsg 2 (by omega)).fewer (by omega)

/-! ### Builtins -/

end

end Generator

/-- A builtin that can be put in place wherever its arguments are: its index is within reach, its body and the type of
its result are known for every choice of argument types, and its body is made of plain instructions. If it has no
arguments and leaves a result, then its body is not empty. -/
structure Builtin.WellFormed (f : Builtin) : Prop where
  reach : ∀ a, f.indexArgument = some a → a.index - a.collection < 17
  body : ∀ args, args.length = f.argCount → f.body args ≠ .error .misuse
  returns : ∀ args, args.length = f.argCount → f.returns args ≠ .error .misuse
  plain : ∀ args is, f.body args = .ok is → ∀ i ∈ is, i.opcode.hasTarget = false ∧ Instruction.accepts i.opcode i.operand
  grounded : f.argCount = 0 → f.body [] = .ok [] → f.returns [] = .ok .none

namespace Builtin

/-- A builtin that works on its first argument by plain opcodes, if the argument has the right type. -/
lemma wellFormed_of_first {f : Builtin} (os : List Opcode) (hcount : 0 < f.argCount)
    (hreach : ∀ a, f.indexArgument = some a → a.index - a.collection < 17)
    (hbody : ∀ t ts, f.body (t :: ts) = .ok (plain os) ∨ ∃ cause, f.body (t :: ts) = .error (.refused cause))
    (hnil : f.body [] = .error .misuse) (hreturns : ∀ t ts, ∃ r, f.returns (t :: ts) = .ok r)
    (hos : ∀ o ∈ os, o.hasTarget = false ∧ accepts o [] = true) : f.WellFormed where
  reach := hreach
  body args hlen := by
    obtain ⟨t, ts, rfl⟩ := exists_cons_of_length_pos (hlen ▸ hcount)
    rcases hbody t ts with h | ⟨cause, h⟩
    · simp [h]
    · simp [h]
  returns args hlen := by
    obtain ⟨t, ts, rfl⟩ := exists_cons_of_length_pos (hlen ▸ hcount)
    obtain ⟨r, h⟩ := hreturns t ts
    simp [h]
  plain args is his i hi := by
    cases args with
    | nil => simp [hnil] at his
    | cons t ts =>
      rcases hbody t ts with h | ⟨cause, h⟩
      · rw [h] at his
        obtain ⟨o, ho, rfl⟩ := mem_map.1 (Except.ok.inj his ▸ hi)
        exact hos o ho
      · simp [h] at his
  grounded h := absurd h (Nat.pos_iff_ne_zero.1 hcount)

lemma wellFormed_ofIntegers (name : String) {o : Opcode} (argCount : Nat) (returns : List ValueType → ValueType)
    (ho : o.hasTarget = false ∧ accepts o [] = true) : (ofIntegers name o argCount returns).WellFormed where
  reach a ha := by cases ha
  body args _ := by
    unfold ofIntegers
    dsimp only
    split
    · exact nofun
    · exact nofun
  returns args _ := nofun
  plain args is his i hi := by
    unfold ofIntegers at his
    dsimp only at his
    split at his
    · cases his
    · cases his
      rwa [mem_singleton.1 hi]
  grounded _ h := by cases h

/-- **The builtins of the library are well formed.** -/
lemma wellFormed_ofName? {name : String} {f : Builtin} (h : ofName? name = some f) : f.WellFormed := by
  unfold ofName? at h
  split at h
  · cases h
    refine wellFormed_of_first [.size] Nat.one_pos (fun a ha => by cases ha) (fun t ts => ?_) rfl
      (fun t ts => ⟨_, rfl⟩) (by decide)
    unfold len
    dsimp only
    split
    · exact .inl rfl
    · exact .inl rfl
    · split_ifs
      · exact .inl rfl
      · exact .inr ⟨_, rfl⟩
  · cases h
    refine wellFormed_of_first [.append] Nat.two_pos (fun a ha => by cases ha) (fun t ts => ?_) rfl
      (fun t ts => ⟨_, rfl⟩) (by decide)
    unfold append
    dsimp only
    split_ifs
    · exact .inl rfl
    · exact .inr ⟨_, rfl⟩
  · cases h
    refine wellFormed_of_first [.popItem] Nat.one_pos (fun a ha => by cases ha) (fun t ts => ?_) rfl
      (fun t ts => ⟨_, rfl⟩) (by decide)
    unfold pop
    dsimp only
    split_ifs
    · exact .inl rfl
    · exact .inr ⟨_, rfl⟩
  · cases h
    refine wellFormed_of_first [.dupBelow, .dupBelow, .pickItem, .reverse3, .swap, .remove] Nat.two_pos
      (fun a ha => by cases ha; decide) (fun t ts => ?_) rfl (fun t ts => ⟨_, rfl⟩) (by decide)
    unfold popIndex
    dsimp only
    split_ifs
    · exact .inl rfl
    · exact .inr ⟨_, rfl⟩
  · cases h
    exact wellFormed_ofIntegers _ _ _ (by decide)
  · cases h
    exact wellFormed_ofIntegers _ _ _ (by decide)
  · cases h
    exact wellFormed_ofIntegers _ _ _ (by decide)
  · cases h

end Builtin

namespace Generator

section

variable {r : Bool} {b c w g : Generator} {d e : Nat} {f? : Option String} {log : List (Handle × String)} {n : Nat}

lemma regular_inlineBody {is : List Instruction}
    (his : ∀ i ∈ is, i.opcode.hasTarget = false ∧ accepts i.opcode i.operand) (ha : Atop r b w d e g) :
    Regular (inlineBody is) g fun _ => Atop r b w d (e + is.length) := by
  induction is generalizing g e with
  | nil => exact .pure ha
  | cons i is ih =>
    obtain ⟨htarget, haccepts⟩ := his i List.mem_cons_self
    unfold inlineBody
    rw [if_neg (by simp [htarget, haccepts])]
    refine .modify_bind ((ih (fun i hi => his i (mem_cons_of_mem _ hi)) (ha.append i)).mono fun _ g' _ h => ?_)
    rwa [length_cons, show e + (is.length + 1) = e + 1 + is.length by omega]

lemma regular_ofFault_bind {α β : Type} {x : Except Fault α} {k : α → Emission β} {P : β → Generator → Prop}
    (hx : x ≠ .error .misuse) (h : ∀ a, x = .ok a → Regular (k a) g P) : Regular (ofFault x >>= k) g P := by
  match x, hx, h with
  | .ok a, _, h => exact h a rfl
  | .error (.refused cause), _, _ => trivial
  | .error .misuse, hx, _ => exact absurd rfl hx

lemma regular_callBuiltin {f : Builtin} (hf : f.WellFormed) (ha : Atop r b w (d + f.argCount) e g) (he : d + f.argCount ≤ e) :
    Regular (callBuiltin f) g fun _ g' => ∃ d' e', d' ≤ e' ∧ Atop r b w d' e' g' := by
  have hbody : ∀ {g : Generator}, Atop r b w (d + f.argCount) e g →
      Regular (callInline f) g fun _ g' => ∃ d' e', d' ≤ e' ∧ Atop r b w d' e' g' := by
    intro g ha
    refine .get ?_
    have hargs : (((List.range f.argCount).map g.stack.peek).reverse).length = f.argCount := by simp
    generalize ((List.range f.argCount).map g.stack.peek).reverse = args at hargs
    refine regular_ofFault_bind (hf.body args hargs) fun is his => regular_ofFault_bind (hf.returns args hargs) fun t ht => ?_
    refine (regular_inlineBody (hf.plain args is his) ha).bind fun _ g3 _ ha3 => .modify ?_
    have hpop := ha3.popTypes f.argCount (by omega) (by omega)
    rw [Nat.add_sub_cancel] at hpop
    dsimp only
    split_ifs with hnone
    · exact ⟨d, _, by omega, hpop⟩
    · -- the result is on account of an instruction of the body, or of one that pushed an argument
      have hpos : d + 1 ≤ e + is.length := by
        rcases Nat.eq_zero_or_pos f.argCount with hzero | hpos
        · obtain rfl : args = [] := eq_nil_of_length_eq_zero (hargs.trans hzero)
          have hne : is ≠ [] := by
            rintro rfl
            exact hnone (Except.ok.inj (ht.symm.trans (hf.grounded hzero his)))
          have := length_pos_iff.2 hne
          omega
        · omega
      exact ⟨d + 1, _, hpos, hpop.pushType t (by omega)⟩
  unfold callBuiltin
  split
  · next a hindex =>
    dsimp only
    split_ifs with hlast
    · have hpos : 1 ≤ f.argCount := by
        rw [indexIsLast, Bool.and_eq_true, beq_iff_eq] at hlast
        omega
      refine (regular_fixNegativeIndex ha (by omega) (by omega) _ (hf.reach a hindex)).bind fun _ g1 _ ha1 => ?_
      exact hbody ha1
    · exact .refuse_bind
  · exact hbody ha

/-! ### Calls, objects, events and other contracts -/

lemma regular_callMethod {name : String} (ha : Atop r b w (d + n) e g) (he : d + n ≤ e)
    (hn : ∀ method, g.methodOf name = .ok method → method.args.size = n) :
    Regular (callMethod name) g fun _ g' => ∃ d' e', d' ≤ e' ∧ Atop r b w d' e' g' := by
  refine .get (.ofExcept_bind fun method hm => ?_)
  have hsize := hn method hm
  have hcall : Atop r b w d (e + 1) (((if method.packsArgs then g.packTop method.args.size
      else g.reverseTop method.args.size).emitCall name).popTypes method.argSlots) := by
    rw [Method.argSlots, hsize]
    split_ifs
    · have hpack := ha.packTop n (by omega) he
      rw [Nat.add_sub_cancel] at hpack
      exact ((hpack.emitCall name).popTypes 1 (by omega) (by omega)).fewer (by omega)
    · have hturn := ((ha.reverseTop n (by omega) he).emitCall name).popTypes n (by omega) (by omega)
      rwa [Nat.add_sub_cancel] at hturn
  refine .modify ?_
  dsimp only
  generalize ((if method.packsArgs then g.packTop method.args.size
    else g.reverseTop method.args.size).emitCall name).popTypes method.argSlots = g2 at hcall ⊢
  split_ifs
  · exact ⟨d + 1, e + 1, by omega, hcall.pushType _ (by omega)⟩
  · exact ⟨d, e + 1, by omega, hcall⟩

/-- The number of arguments of the constructor of a class. -/
def constructorArgs (g : Generator) (className : String) : Nat :=
  match g.symbols.classes.get? className with
  | none => 0
  | some c =>
    match g.constructorOf className c with
    | .ok (some e) => e.2.args.size - 1
    | _ => 0

lemma regular_newObject {className : String} (ha : Atop r b w (d + g.constructorArgs className) e g)
    (he : d + g.constructorArgs className ≤ e)
    (hsize : ∀ cls, g.symbols.classes.get? className = some cls → (pushInteger? cls.fields.size).isSome) :
    Regular (newObject className) g fun _ g' => ∃ d' e', d' ≤ e' ∧ Atop r b w d' e' g' := by
  refine .get (.ofOption_bind fun cls hcls => .ofExcept_bind fun init hinit => ?_)
  have hargs : (init.map fun e => e.2.args.size - 1).getD 0 = g.constructorArgs className := by
    rw [constructorArgs, hcls]
    dsimp only
    rw [hinit]
    cases init <;> rfl
  refine .modify ?_
  dsimp only
  rw [hargs]
  generalize g.constructorArgs className = n at ha he
  have hmake := ((ha.reverseTop n (by omega) he).pushIndex_of_isSome (hsize cls hcls)).op_some .newArray 1
    (.object className) (by omega)
  cases init with
  | none => exact ⟨_, _, by omega, hmake⟩
  | some entry =>
    have hcall := ((hmake.emitCall entry.1).popTypes (n + 1) (by omega) (by omega)).pushType (.object className) (by omega)
    exact ⟨_, _, by omega, hcall⟩

lemma regular_loadField (ha : Atop r b w (d + 1) (e + 1) g) (field : String) :
    Regular (loadField field) g fun _ => Atop r b w (d + 1) (e + 1) := by
  refine .get (.ofExcept_bind fun slot _ => ?_)
  exact .modify (((ha.pushIndex slot.1 (by omega)).op_some .pickItem 2 slot.2 (by omega)).fewer (by omega))

lemma regular_storeField (ha : Atop r b w (d + 2) (e + 1) g) (field : String) :
    Regular (storeField field) g fun _ => Atop r b w d (e + 1) := by
  refine .get (.ofExcept_bind fun slot _ => ?_)
  have hindex := ((ha.swap (by omega)).pushIndex slot.1 (by omega)).swap (by omega)
  exact .modify ((hindex.op_none .setItem 3 (by omega)).fewer (by omega))

lemma regular_announce {event : String} (ha : Atop r b w (d + n) e g) (he : d + n ≤ e)
    (hn : ∀ ev, g.symbols.events.get? event = some ev → ev.args.length = n)
    (hp : ∀ bs ∈ (Command.announce event).payloads g, Pushable bs = true) :
    Regular (announce event) g fun _ => Atop r b w d e := by
  refine .get (.ofOption_bind fun ev hev => ?_)
  have hpack := ha.packTop n (by omega) he
  rw [Nat.add_sub_cancel, ← hn ev hev] at hpack
  rw [Command.payloads, hev] at hp
  exact .modify_bind (.pushData_bind (hp _ mem_cons_self)
    (.modify (((hpack.pushBytes _).callService_none .notify 2 (by omega)).fewer (by omega))))

lemma regular_callContract {contract method : String} (ha : Atop r b w (d + n) e g) (he : d + n ≤ e)
    (hn : ∀ i m, g.symbols.contracts.get? contract = some i → i.methods.get? method = some m → m.args.size = n)
    (hp : ∀ bs ∈ (Command.callContract contract method).payloads g, Pushable bs = true) :
    Regular (callContract contract method) g fun _ g' => ∃ d' e', d' ≤ e' ∧ Atop r b w d' e' g' := by
  refine .get (.ofOption_bind fun i hi => .ofOption_bind fun m hm => ?_)
  have hpack := ha.packTop n (by omega) he
  rw [Nat.add_sub_cancel, ← hn i m hi hm] at hpack
  have hflags := (((hpack.pushIndex CallFlags.all.bits.toNat (by omega)).pushBytes method.toUTF8.toList).pushBytes
    i.hash.toList).callService_some .contractCall 4 m.returns (by omega)
  rw [Command.payloads, hi] at hp
  refine .modify_bind (.pushData_bind (hp _ mem_cons_self) (.pushData_bind (hp _ (mem_cons_of_mem _ mem_cons_self))
    (.modify ?_)))
  dsimp only
  split_ifs
  · exact ⟨_, _, by omega, hflags⟩
  · exact ⟨_, _, by omega, hflags.op_none .drop 1 (by omega)⟩

end

end Generator

namespace Command

/-- The number of items that a command takes from the stack. -/
def operands (g : Generator) : Command → Nat
  | cast _ | store _ | unary _ | isInstance _ | copy | loadField _ => 1
  | binary _ | getItem | deleteItem | sliceBeginning | sliceEnding | stride | storeField _ => 2
  | setItem | slice => 3
  | sliceStride => 4
  | assert hasMessage => if hasMessage then 2 else 1
  | call name =>
    match g.methodOf name with
    | .ok method => method.args.size
    | .error _ => 0
  | builtin f => f.argCount
  | newObject className => g.constructorArgs className
  | announce event => ((g.symbols.events.get? event).map fun e => e.args.length).getD 0
  | callContract contract method =>
    (((g.symbols.contracts.get? contract).bind fun i => i.methods.get? method).map fun m => m.args.size).getD 0
  | _ => 0

/-- Whether a command stays inside the method and opens, closes and leaves no construct. -/
def isPart : Command → Bool
  | returnFrom _ | raise => false
  | c => c.isLinear

/-- What is asked of a command beyond its operands: builtins are well formed, and the number of fields of a new object
is one that can be pushed. -/
def Orderly (symbols : SymbolTable) : Command → Prop
  | builtin f => f.WellFormed
  | newObject className =>
    ∀ cls, symbols.classes.get? className = some cls → (pushInteger? cls.fields.size).isSome
  | _ => True

open Generator in
/-- **A command that finds its operands on top of a stack works on top of that stack.** -/
lemma regular_run {r : Bool} {b c w g : Generator} {d e : Nat} {f? : Option String} {log : List (Handle × String)}
    {cmd : Command} (hpart : cmd.isPart = true) (ho : cmd.Orderly g.symbols) (hnarrow : cmd.narrows = true → r = true)
    (hops : cmd.operands g ≤ d) (hp : ∀ bs ∈ cmd.payloads g, Pushable bs = true) (ha : Atop r b w d e g) (he : d ≤ e)
    (hr : Ready c f? log g) :
    Regular cmd.run g fun _ g' => ∃ d' e', d' ≤ e' ∧ Atop r b w d' e' g' := by
  obtain ⟨d, rfl⟩ : ∃ d', d = d' + cmd.operands g := ⟨d - cmd.operands g, by omega⟩
  obtain ⟨e, rfl⟩ : ∃ e', e = e' + cmd.operands g := ⟨e - cmd.operands g, by omega⟩
  have hle : d ≤ e := by omega
  have leaves : ∀ {x : Emission Unit} (d' e' : Nat), d' ≤ e' → Regular x g (fun _ => Atop r b w d' e') →
      Regular x g fun _ g' => ∃ d' e', d' ≤ e' ∧ Atop r b w d' e' g' := fun d' e' hle h =>
    h.mono fun _ g' _ ha => ⟨d', e', hle, ha⟩
  have result {x : Emission Unit} := leaves (x := x) (d + 1) (e + 1) (by omega)
  have some_code : 1 ≤ cmd.operands g → Atop r b w (d + cmd.operands g) (e + 1) g := fun h => ha.fewer (by omega)
  cases cmd with
  | literal value => exact result (regular_literal value (Literal.pushable_of_payloads hp) ha)
  | integer value => exact result (regular_integer ha value)
  | cast type => exact result (.modify (ha.cast type (Nat.le_add_left 1 d) (Nat.succ_pos e)))
  | load name => exact result (regular_load ha name hp)
  | store name => exact leaves d e hle (regular_store ha hr (by omega) name hp)
  | narrow name type =>
    obtain rfl : r = true := hnarrow rfl
    exact leaves d e hle (.modify (ha.still rfl rfl (scopesKept_narrow g name type)))
  | unary o => exact result (regular_unary ha o)
  | binary o => exact result (regular_binary ha hr o)
  | isInstance type => exact result (regular_isInstance ha type)
  | getItem => exact result (regular_getItem (some_code (Nat.succ_pos _)))
  | setItem => exact leaves d (e + 1) (by omega) (regular_setItem (some_code (Nat.succ_pos _)))
  | deleteItem => exact leaves d (e + 1) (by omega) (regular_deleteItem (some_code (Nat.succ_pos _)))
  | slice | sliceBeginning | sliceEnding | copy | stride | sliceStride =>
    exact result (regular_replaceSlice (some_code (Nat.succ_pos _)) _)
  | assert hasMessage =>
    cases hasMessage with
    | false => exact leaves d (e + 1) (by omega) (.modify (atop_assert (some_code (Nat.succ_pos _))))
    | true => exact leaves d (e + 1) (by omega) (.modify (atop_assertMessage (some_code (Nat.succ_pos _))))
  | call name =>
    refine regular_callMethod ha he fun method hm => ?_
    simp only [operands, hm]
  | builtin f => exact regular_callBuiltin ho ha he
  | newObject className => exact regular_newObject ha he ho
  | loadField field => exact result (regular_loadField ha field)
  | storeField field => exact leaves d (e + 1) (by omega) (regular_storeField (some_code (Nat.succ_pos _)) field)
  | announce event =>
    refine leaves d _ (by omega) (regular_announce ha he (fun ev hev => ?_) hp)
    simp only [operands, hev, map_some, getD_some]
  | callContract contract method =>
    refine regular_callContract ha he (fun i m hi hm => ?_) hp
    simp only [operands, hi, hm, bind_some, map_some, getD_some]
  | _ => cases hpart

end Command

end NeoScript
