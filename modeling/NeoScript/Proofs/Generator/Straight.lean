import NeoScript.Proofs.Generator.Emission
import NeoScript.Proofs.Generator.Outcome
import NeoScript.Proofs.PushInteger

/-!
# Straight operations

Most commands emit plain instructions and snippets, change the shadow stack, and look only at what does not
depend on handles: the symbols, the types on the stack, the open method. `Straight` describes such operations by
the steps they are made of. What holds of each step then holds of every straight operation. No step ends a finalizer;
only the bodies of builtins are given from outside, and the opcodes that they may have are a parameter.
-/

namespace NeoScript

open Option List CodeMap Instruction Opcode

/-- The kind of a loop without its handles. -/
def LoopKind.outline : LoopKind → LoopKind
  | conditional _ => conditional none
  | indexed _ => indexed 0
  | iterated _ => iterated 0

@[simp] lemma LoopKind.kept_outline (k : LoopKind) : k.outline.kept = k.kept := by cases k <;> rfl

namespace Generator

/-- What a straight operation sees of a generator. -/
def view (g : Generator) : Generator where
  symbols := g.symbols
  options := { g.options with widenJumps := true }
  stack := { items := g.stack.items }
  frame := g.frame
  scopes := g.scopes
  loops := g.loops.map fun l => { kind := l.kind.outline, startJump := 0, tryDepth := 0, stack := [] }
  tokens := g.tokens

/-- The constant that was just pushed, if it can be taken back and its opcode is one of those asked for. -/
def lastPush? (g : Generator) (q : Opcode → Bool) : Option Handle :=
  g.detachable?.filter fun h => (g.code.instruction? h).any fun i => q i.opcode

/-! ### Steps -/

/-- Changes of a generator that are made of straight steps. -/
inductive Move : (Generator → Generator) → Prop
  | stay : Move fun g => g
  | comp {p f : Generator → Generator} : Move p → Move f → Move fun g => p (f g)
  /-- The step may depend on what is seen. -/
  | look {k : Generator → Generator → Generator} : (∀ v, Move (k v)) → Move fun g => k g.view g
  | append {i : Instruction} : i.opcode.role = .plain → i.Proper → i.opcode ≠ .finallyLeave → Move fun g => g.append i
  | snippet {s : Snippet} : s.proper = true → Move fun g => g.emitSnippet s
  | restoreStack (items : List ValueType) : Move fun g => g.restoreStack items
  | addToken (token : MethodToken) : Move fun g => { g with tokens := g.tokens ++ [token] }
  /-- The constant that was just pushed is taken back. -/
  | detach {q : Opcode → Bool} {f f' : Generator → Generator} :
      (∀ i : Instruction, q i.opcode = true → pushesConstant i = true) → Move f → Move f' →
        Move fun g =>
          match g.lastPush? q with
          | some h => f (g.removeInstruction h)
          | none => f' g

/-- Operations that are made of straight steps and may be refused between them. The bodies of builtins have opcodes
that satisfy `P`. -/
inductive Straight (P : Opcode → Prop) : {α : Type} → Emission α → Prop
  | pure {α : Type} (a : α) : Straight P (pure a)
  | throw {α : Type} (e : Fault) : Straight P (throw e : Emission α)
  /-- What a misuse leaves behind does not matter. -/
  | misuse {α : Type} {x : Emission α} : (∀ g, ∃ g', x.run g = .error .misuse g') → Straight P x
  | modify {f : Generator → Generator} : Move f → Straight P (modify f)
  /-- An instruction of a builtin. -/
  | inline {i : Instruction} : i.opcode.role = .plain → i.Proper → P i.opcode → Straight P (modify fun g => g.append i)
  | bind {α β : Type} {x : Emission α} {f : α → Emission β} :
      Straight P x → (∀ a, Straight P (f a)) → Straight P (x >>= f)
  | look {α : Type} {k : Generator → Emission α} :
      (∀ v, Straight P (k v)) → Straight P (get >>= fun g => k g.view)

/-! ### The shadow stack -/

lemma record_record (s : ShadowStack) (after : Option Handle) (items : List ValueType) :
    ({ s.record after with items } : ShadowStack).record after = { s with items }.record after := by
  cases after with
  | none => rfl
  | some h =>
    refine ShadowStack.ext_snapshots ?_ rfl
    simp only [ShadowStack.record, History.record]
    cases hs : s.snapshots with
    | nil => simp
    | cons e rest =>
      by_cases he : e.1 = h
      · simp [he]
      · simp [he]

lemma recorded?_record (s : ShadowStack) (x h : Handle) :
    (s.record (some x)).recorded? h = if h = x then some s.items else s.recorded? h := by
  simp only [ShadowStack.recorded?_eq, ShadowStack.record, History.record]
  cases hs : s.snapshots with
  | nil =>
    by_cases hx : h = x
    · simp [hx]
    · simp [hx, Ne.symm hx]
  | cons e rest =>
    by_cases hx : h = x
    · subst hx
      by_cases he : e.1 = h <;> simp [he]
    · have hx' : x ≠ h := Ne.symm hx
      by_cases he : e.1 = x
      · simp [he, hx, hx']
      · simp [he, hx, hx']

lemma popN_eq (s : ShadowStack) (after : Option Handle) (count : Nat) : s.popN after count =
      if count = 0 ∨ s.items = [] then s else { s with items := s.items.drop count }.record after := by
  induction count generalizing s with
  | zero => simp [ShadowStack.popN]
  | succ count ih =>
    rw [ShadowStack.popN, ih, ShadowStack.items_pop]
    cases hi : s.items with
    | nil => simp [ShadowStack.pop, ShadowStack.remove, hi]
    | cons t ts =>
      have hpop : s.pop after = { s with items := ts }.record after := by
        simp [ShadowStack.pop, ShadowStack.remove, hi]
      rw [hpop, record_record]
      by_cases hc : count = 0 ∨ ts = []
      · rcases hc with rfl | rfl
        · simp
        · simp
      · simp [hc]

lemma popTypes_eq (g : Generator) (count : Nat) : g.popTypes count =
      if count = 0 ∨ g.view.stack.items = [] then g else g.restoreStack (g.view.stack.items.drop count) := by
  rw [popTypes, popN_eq]
  change _ = if count = 0 ∨ g.stack.items = [] then g else _
  split <;> rfl

lemma back?_append (g : Generator) (i : Instruction) : (g.append i).code.back? = some g.next := by
  rw [back?_eq, live_append, getLast?_concat]
  rfl

/-- Following an instruction is a change on account of the last one. -/
lemma track_append (g : Generator) (i : Instruction) (pops : Nat) (result : Option ValueType) :
    (g.append i).track g.next pops result =
      match result with
      | some t => ((g.append i).popTypes pops).pushType t
      | none => (g.append i).popTypes pops := by
  cases result <;> simp only [track, popTypes, pushType, back?_append]

lemma length_operand (s : Service) : s.operand.length = 4 := by
  simp [Service.operand, Service.operandOf, Sha256.digest, Sha256.wordBytes]

/-- A byte string that does not fit the longest length field is too long for a script. -/
lemma proper_pushData (bytes : Bytes) : (⟨.pushDataFor bytes.length, bytes, .unresolved⟩ : Instruction).Proper := by
  unfold pushDataFor Instruction.Proper
  split_ifs with h1 h2
  · exact fun _ => decide_eq_true (show bytes.length ≤ 256 ^ 1 - 1 by omega)
  · exact fun _ => decide_eq_true (show bytes.length ≤ 256 ^ 2 - 1 by omega)
  · exact fun (hsize : 1 + 4 + bytes.length < 2 ^ 32) => decide_eq_true (show bytes.length ≤ 256 ^ 4 - 1 by omega)

lemma accepts_pushData {bytes : Bytes} : accepts (.pushDataFor bytes.length) bytes = true ↔ bytes.length < 2 ^ 32 := by
  unfold pushDataFor
  split_ifs with h1 h2
  · exact decide_eq_true_iff.trans (show bytes.length ≤ 256 ^ 1 - 1 ↔ _ by omega)
  · exact decide_eq_true_iff.trans (show bytes.length ≤ 256 ^ 2 - 1 ↔ _ by omega)
  · exact decide_eq_true_iff.trans (show bytes.length ≤ 256 ^ 4 - 1 ↔ _ by omega)

lemma ends_pushData {g : Generator} {bytes : Bytes} {P : Unit → Generator → Prop} {Q : Generator → Prop}
    (h : P () (g.pushBytes bytes)) : Ends (pushData bytes) g P Q := by
  unfold pushData
  split
  · exact .modify h
  · trivial

lemma proper_op {o : Opcode} (ho : (Snippet.op o).proper = true) :
    o.role = .plain ∧ ({ opcode := o } : Instruction).Proper ∧ o ≠ .finallyLeave := by
  simp only [Snippet.proper, Bool.and_eq_true, beq_iff_eq, bne_iff_ne] at ho
  exact ⟨ho.1.1, fun _ => ho.1.2, ho.2⟩

lemma proper_pushInteger {v : Int} {is : List Instruction} (hp : pushInteger? v = some is) :
    ∀ i ∈ is, i.opcode.role = .plain ∧ i.Proper ∧ i.opcode ≠ .finallyLeave := by
  cases pushing_pushInteger? hp with
  | minusOne => exact forall_mem_singleton.2 (proper_op rfl)
  | small k => exact forall_mem_singleton.2 (proper_op rfl)
  | negated k => exact forall_mem_cons.2 ⟨proper_op rfl, forall_mem_singleton.2 (proper_op rfl)⟩
  | wide hb => exact forall_mem_singleton.2 ⟨rfl, fun _ => by simp [accepts, Opcode.operand, hb], nofun⟩

namespace Move

variable {f f' : Generator → Generator}

/-- A step that depends on the state, where only the view matters. -/
lemma seen {k : Generator → Generator → Generator} (hv : ∀ g, k g = k g.view) (hk : ∀ v, Move (k v)) :
    Move fun g => k g g := by
  rw [show (fun g => k g g) = fun g => k g.view g from funext fun g => congrFun (hv g) g]
  exact look hk

variable (hf : Move f)
include hf

lemma ite {c : Prop} [Decidable c] (hf' : Move f') : Move fun g => if c then f g else f' g := by
  split_ifs
  · exact hf
  · exact hf'

/-! ### Stack and scopes -/

lemma pushType (t : ValueType) : Move fun g => (f g).pushType t :=
  comp (look (k := fun v g => g.restoreStack (t :: v.stack.items)) fun _ => .restoreStack _) hf

lemma popTypes (count : Nat) : Move fun g => (f g).popTypes count := by
  have hpop : Move fun g => g.popTypes count := by
    simp only [popTypes_eq]
    refine look (k := fun v g => if count = 0 ∨ v.stack.items = [] then g
      else g.restoreStack (v.stack.items.drop count)) fun v => ?_
    exact ite stay (restoreStack _)
  exact comp hpop hf

lemma settle (pops : Nat) (t : ValueType) : Move fun g => (f g).settle pops t :=
  (hf.popTypes pops).pushType t

lemma restore (items : List ValueType) : Move fun g => (f g).restoreStack items :=
  comp (.restoreStack items) hf

/-! ### Instructions -/

lemma emit (o : Opcode) (ho : (Snippet.op o).proper = true) : Move fun g => (f g).emit o :=
  comp (snippet ho) hf

lemma op (o : Opcode) (ho : (Snippet.op o).proper = true) (pops : Nat)
    (result : Option ValueType) : Move fun g => (f g).op o pops result := by
  have hop : Move fun g => g.op o pops result := by
    have h := stay.emit o ho
    unfold Generator.op Generator.emit
    simp only [track_append]
    cases result with
    | none => exact h.popTypes pops
    | some t => exact (h.popTypes pops).pushType t
  exact comp hop hf

lemma opData (o : Opcode) (operand : Bytes) (hr : o.role = .plain)
    (hp : (⟨o, operand, .unresolved⟩ : Instruction).Proper) (hne : o ≠ .finallyLeave) (pops : Nat)
    (result : Option ValueType) : Move fun g => (f g).opData o operand pops result := by
  have hop : Move fun g => g.opData o operand pops result := by
    have h : Move fun g => g.append ⟨o, operand, .unresolved⟩ := append hr hp hne
    unfold Generator.opData Generator.emitData
    simp only [track_append]
    cases result with
    | none => exact h.popTypes pops
    | some t => exact (h.popTypes pops).pushType t
  exact comp hop hf

lemma callService (s : Service) (pops : Nat) (result : Option ValueType) : Move fun g => (f g).callService s pops result :=
  hf.opData .syscall s.operand rfl (fun _ => by simp [accepts, Opcode.operand, length_operand])
    nofun pops result

lemma callToken (token : MethodToken) (pops : Nat) (result : Option ValueType) :
    Move fun g => (f g).callToken token pops result := by
  refine comp (look (k := fun v g => (if token ∈ v.tokens then g else { g with tokens := g.tokens ++ [token] }).opData
    .callToken (Bytes.ofNat 2 (v.tokens.idxOf token)) pops result) fun v => ?_) hf
  refine opData (ite stay (addToken _)) .callToken _ rfl (fun _ => ?_) nofun pops result
  simp [accepts, Opcode.operand]

lemma pushBytes (bytes : Bytes) : Move fun g => (f g).pushBytes bytes := by
  refine (comp (append (i := ⟨.pushDataFor bytes.length, bytes, .unresolved⟩) ?_ ?_ ?_) hf).pushType .bytes
  · unfold Opcode.pushDataFor
    split_ifs <;> rfl
  · exact proper_pushData bytes
  · unfold Opcode.pushDataFor
    split_ifs <;> exact nofun

lemma appendAll {is : List Instruction}
    (hi : ∀ i ∈ is, i.opcode.role = .plain ∧ i.Proper ∧ i.opcode ≠ .finallyLeave) : Move fun g => (f g).appendAll is := by
  induction is generalizing f with
  | nil => exact hf
  | cons i is ih =>
    obtain ⟨hr, hp, hne⟩ := hi i List.mem_cons_self
    exact ih (comp (append hr hp hne) hf) fun j hj => hi j (mem_cons_of_mem _ hj)

lemma pushIndex (n : Nat) : Move fun g => (f g).pushIndex n := by
  refine (hf.appendAll fun i hi => ?_).pushType .nonNegInt
  cases hp : pushInteger? n with
  | none => simp [hp] at hi
  | some is =>
    rw [hp, getD_some] at hi
    exact proper_pushInteger hp i hi

lemma dup : Move fun g => (f g).dup :=
  comp (look (k := fun v g => (g.emit .dup).pushType (v.stack.peek 0)) fun v =>
    (stay.emit .dup rfl).pushType (v.stack.peek 0)) hf

lemma reverseItems (count : Nat) : Move fun g => { f g with stack := (f g).stack.reverse (f g).code.back? count false } :=
  comp (look (k := fun v g => g.restoreStack ((v.stack.items.take count).reverse ++ v.stack.items.drop count))
    fun _ => .restoreStack _) hf

lemma reverseWith (o : Opcode) (ho : (Snippet.op o).proper = true) (count : Nat) :
    Move fun g => (f g).reverseWith o count := by
  have h : Move fun g => g.reverseWith o count := by
    have h := (stay.emit o ho).reverseItems count
    unfold Generator.emit at h
    simp only [back?_append] at h
    exact h
  exact comp h hf

lemma swap : Move fun g => (f g).swap := hf.reverseWith .swap rfl 2

lemma drop : Move fun g => (f g).drop := hf.op .drop rfl 1 none

lemma dropN (count : Nat) : Move fun g => (f g).dropN count := by
  induction count generalizing f with
  | zero => exact hf
  | succ count ih => exact ih hf.drop

lemma nip : Move fun g => (f g).nip := by
  have h : Move fun g => g.nip := by
    have hremove : Move fun g => { g with stack := g.stack.remove g.code.back? 1 } := by
      refine look (k := fun v g => { g with stack := if 1 < v.stack.items.length then
        { g.stack with items := v.stack.items.eraseIdx 1 }.record g.code.back? else g.stack }) fun v => ?_
      by_cases h : 1 < v.stack.items.length
      · simp only [h, if_true]
        exact restoreStack _
      · simp only [h, if_false]
        exact stay
    have h := comp hremove (stay.emit .nip rfl)
    unfold Generator.emit at h
    simp only [back?_append] at h
    exact h
  exact comp h hf

lemma nipN (count : Nat) : Move fun g => (f g).nipN count := by
  induction count generalizing f with
  | zero => exact hf
  | succ count ih => exact ih hf.nip

lemma reverseTop (count : Nat) : Move fun g => (f g).reverseTop count := by
  match count with
  | 0 | 1 => exact hf
  | 2 => exact hf.reverseWith .swap rfl 2
  | 3 => exact hf.reverseWith .reverse3 rfl 3
  | 4 => exact hf.reverseWith .reverse4 rfl 4
  | n + 5 =>
    have h : Move fun g => g.reverseTop (n + 5) := by
      have h := ((stay.pushIndex (n + 5)).op .reverseN rfl 1 none).reverseItems (n + 5)
      have hback : ∀ g : Generator, (g.op .reverseN 1 none).code.back? = some g.next := fun g => back?_append _ _
      simp only [hback] at h
      exact h
    exact comp h hf

lemma packTop (count : Nat) : Move fun g => (f g).packTop count := by
  unfold Generator.packTop
  split_ifs
  · exact hf.op .newArray0 rfl 0 _
  · exact ((hf.reverseTop count).pushIndex count).op .pack rfl _ _

lemma cast (t : ValueType) : Move fun g => (f g).cast t := by
  refine comp (look (k := fun v g =>
    let held := (v.stack.peek 0).itemType
    (if held ≠ t.itemType ∧ held.isScalar ∧ t.itemType.isScalar then g.emitData .convert [t.itemType.byte]
      else g).settle 1 t) fun v => settle ?_ 1 t) hf
  exact ite (snippet (s := .data .convert [t.itemType.byte]) rfl) stay

end Move

/-! ### What straight operations keep -/

/-- A property that each straight step keeps, as long as `S` holds. -/
structure KeptByMoves (P : Opcode → Prop) (S Q : Generator → Prop) : Prop where
  append : ∀ {g i}, S g → Q g → i.opcode.role = .plain → i.Proper → i.opcode ≠ .finallyLeave ∨ P i.opcode →
    Q (g.append i)
  snippet : ∀ {g s}, S g → Q g → s.proper = true → Q (g.emitSnippet s)
  restoreStack : ∀ {g} items, S g → Q g → Q (g.restoreStack items)
  addToken : ∀ {g} token, S g → Q g → Q { g with tokens := g.tokens ++ [token] }
  detach : ∀ {g q h}, S g → Q g → (∀ i : Instruction, q i.opcode = true → pushesConstant i = true) →
    g.lastPush? q = some h → Q (g.removeInstruction h)

section Kept

variable {P : Opcode → Prop} {S S' Q : Generator → Prop} {g : Generator}

lemma KeptByMoves.weaken (hk : KeptByMoves P S Q) (h : ∀ g, S' g → S g) : KeptByMoves P S' Q where
  append hs := hk.append (h _ hs)
  snippet hs := hk.snippet (h _ hs)
  restoreStack items hs := hk.restoreStack items (h _ hs)
  addToken token hs := hk.addToken token (h _ hs)
  detach hs := hk.detach (h _ hs)

lemma KeptByMoves.and (hS : KeptByMoves P (fun _ => True) S) (hk : KeptByMoves P S Q) :
    KeptByMoves P (fun _ => True) fun g => S g ∧ Q g where
  append _ h hr hi hP := ⟨hS.append trivial h.1 hr hi hP, hk.append h.1 h.2 hr hi hP⟩
  snippet _ h hp := ⟨hS.snippet trivial h.1 hp, hk.snippet h.1 h.2 hp⟩
  restoreStack items _ h := ⟨hS.restoreStack items trivial h.1, hk.restoreStack items h.1 h.2⟩
  addToken token _ h := ⟨hS.addToken token trivial h.1, hk.addToken token h.1 h.2⟩
  detach _ h hq hl := ⟨hS.detach trivial h.1 hq hl, hk.detach h.1 h.2 hq hl⟩

lemma Move.keeps {p : Generator → Generator} (hp : Move p) (hk : KeptByMoves P (fun _ => True) Q) (hg : Q g) : Q (p g) := by
  induction hp generalizing g with
  | stay => exact hg
  | comp _ _ ihp ihf => exact ihp (ihf hg)
  | look _ ih => exact ih _ hg
  | append hr hi hne => exact hk.append trivial hg hr hi (.inl hne)
  | snippet hp => exact hk.snippet trivial hg hp
  | restoreStack items => exact hk.restoreStack items trivial hg
  | addToken token => exact hk.addToken token trivial hg
  | @detach q f f' hq _ _ ihf ihf' =>
    dsimp only
    cases hl : g.lastPush? q with
    | none => exact ihf' hg
    | some h => exact ihf (hk.detach trivial hg hq hl)

/-- **What straight steps keep, straight operations keep**, refused or not. -/
lemma Straight.keeps {α : Type} {x : Emission α} (hx : Straight P x) (hk : KeptByMoves P (fun _ => True) Q) (hg : Q g) :
    Ends x g (fun _ => Q) Q := by
  induction hx generalizing g with
  | pure a => exact .pure hg
  | throw e => exact .throw hg
  | misuse h =>
    obtain ⟨g', hg'⟩ := h g
    rw [Ends, hg']
    trivial
  | modify hp => exact .modify (hp.keeps hk hg)
  | inline hr hi hP => exact .modify (hk.append trivial hg hr hi (.inr hP))
  | bind _ _ ihx ihf => exact (ihx hg).bind fun a _ h => ihf a h
  | look _ ih => exact .get (ih _ hg)

end Kept

/-! ### The invariant -/

section Sound

variable {b : Generator} {f? : Option String} {log : List (Handle × String)} {X : Handle → Prop}
  {new : List Handle} {g : Generator} {P : Opcode → Prop} {q : Opcode → Bool} {h : Handle}

lemma lastPush?_eq_some (hl : g.lastPush? q = some h) :
    g.code.back? = some h ∧ ∃ i, g.code.instruction? h = some i ∧ q i.opcode = true := by
  obtain ⟨hd, hq⟩ := filter_eq_some_iff.1 hl
  obtain ⟨i, hi, hqi⟩ := (any_eq_true _ _).1 hq
  exact ⟨(filter_eq_some_iff.1 hd).1, i, hi, hqi⟩

lemma constant?_lastPush (hq : ∀ i : Instruction, q i.opcode = true → pushesConstant i = true)
    (hl : g.lastPush? q = some h) : g.code.constant? h = some true := by
  obtain ⟨-, i, hi, hqi⟩ := lastPush?_eq_some hl
  rw [constant?, shape?_eq hi, map_some]
  exact congrArg some (hq i hqi)

/-- The constant that was just pushed is taken back. -/
lemma Sound.detach_push (hs : Sound b f? log X new g) (hf : g.frame.isSome)
    (hq : ∀ i : Instruction, q i.opcode = true → pushesConstant i = true) (hl : g.lastPush? q = some h) :
    ∃ new', Sound b f? log X new' (g.removeInstruction h) ∧ Grows new new' g (g.removeInstruction h) :=
  hs.detach hf (lastPush?_eq_some hl).1 (constant?_lastPush hq hl)

/-- **Straight steps keep the invariant.** -/
lemma kept_sound (hf : g.frame.isSome) :
    KeptByMoves P (fun _ => True) fun g' => ∃ new', Sound b f? log X new' g' ∧ Grows new new' g g' where
  append _ := fun ⟨_, hs, hg⟩ hr hi _ => ⟨_, hs.append_of_plain hr hi, hg.trans (Sound.grows_append _ _ _)⟩
  snippet _ := fun ⟨_, hs, hg⟩ hp => ⟨_, hs.emitSnippet hp, hg.trans (Sound.grows_emitSnippet _ _ _)⟩
  restoreStack _ _ := fun ⟨_, hs, hg⟩ => ⟨_, hs.still rfl, hg.trans (.of_code rfl rfl)⟩
  addToken _ _ := fun ⟨_, hs, hg⟩ => ⟨_, hs.still rfl, hg.trans (.of_code rfl rfl)⟩
  detach _ := fun ⟨_, hs, hg⟩ hq hl => by
    obtain ⟨new', hs', hg'⟩ := hs.detach_push (hg.isSome hf) hq hl
    exact ⟨new', hs', hg.trans hg'⟩

lemma Move.sound {p : Generator → Generator} (hp : Move p) (hs : Sound b f? log X new g) (hf : g.frame.isSome) :
    ∃ new', Sound b f? log X new' (p g) ∧ Grows new new' g (p g) :=
  hp.keeps (kept_sound (P := fun _ => True) hf) ⟨new, hs, .of_code rfl rfl⟩

end Sound

end Generator

end NeoScript
