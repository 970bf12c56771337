import NeoScript.Proofs.Generator.Inward
import NeoScript.Proofs.Generator.Reading
import NeoScript.Proofs.Statement.Basic

/-!
# The layout of statements

`Block` says how the code of a complete statement is laid out, with one rule for each kind of statement. The code of a
statement is entered at its first instruction and is left for the instruction behind it, for the places where a `break`
and a `continue` go, or by returning and raising. `Ways` lists those places.

A straight part of a statement is described by the commands that emit it and by the states before and after: which code
that is depends on what the generator knows of the types.
-/

namespace NeoScript

open Generator Command Instruction

/-! ### Straight parts -/

/-- Commands, none of which is refused, lead from one state to another. -/
def Ran (cs : List Command) (g g' : Generator) : Prop := (runAll cs).run g = .ok () g'

/-- Code without control transfers but calls and jumps inside it or right behind it, to `x`. Opcodes in `P` are allowed
even where they end a finalizer. -/
def Inner (P : Opcode → Prop) (code : Code) (x : Handle) : Prop :=
  ∀ e ∈ code, e.2.opcode.role = .plain ∧ (e.2.opcode ≠ .finallyLeave ∨ P e.2.opcode) ∨ e.2.opcode.role = .call ∨
    ∃ t d, e.2.opcode = .jump t false ∧ e.2.target = .code d ∧ (d = x ∨ d ∈ code.map Prod.fst)

/-- The commands of a straight part lead from `g` to `g'` and emit the code, behind which comes `x`. -/
structure Emits (P : Opcode → Prop) (part : List Command) (g g' : Generator) (code : Code) (x : Handle) : Prop where
  ran : Ran part g g'
  listed : ∃ new, Ahead g new g' ∧ code = g'.listing x new
  inner : Inner P code x

/-! ### Ways out -/

/-- Where control goes from a statement, other than behind it, and what it has to clear away on the way. -/
structure Ways where
  /-- Where a `break` goes, if there are any. -/
  leave : Option Handle := none
  /-- Where a `continue` goes. -/
  again : Option Handle := none
  /-- The number of protected blocks between the innermost loop and the statement. -/
  levels : Nat := 0
  /-- The number of items that the innermost loop keeps on the stack. -/
  kept : Nat := 0
  /-- The number of items that all loops keep on the stack. -/
  total : Nat := 0
  /-- Whether a `break` pushes a flag. -/
  flagged : Bool := false

namespace Ways

/-- The ways out of the body of a loop. -/
def body (w : Ways) (leave : Option Handle) (again : Handle) (kept : Nat) (flagged : Bool) : Ways :=
  ⟨leave, some again, 0, kept, w.total + kept, flagged⟩

/-- The ways out of a part of a protected block. -/
def guarded (w : Ways) : Ways := { w with levels := w.levels + 1 }

end Ways

/-- A jump out of `levels` protected blocks to `t`: all but the last instruction lead to the next one. -/
inductive Chain (t : Handle) : Nat → Code → Prop
  | jump (h : Handle) : Chain t 0 [(h, goto .always t)]
  | leave (h : Handle) : Chain t 1 [(h, leave t)]
  | next {n : Nat} {code : Code} (h : Handle) : Chain t (n + 1) code → Chain t (n + 2) ((h, leave (entry code t)) :: code)

/-- What stands between a loop and its `else` part: a jump over it to `x`, if there is a `break`. It takes the flag that
tells how the loop was left. -/
inductive Guard (x : Handle) : Code → Option Handle → Bool → Prop
  | none : Guard x [] none false
  | jump (f q : Handle) : Guard x [(f, bare (.pushBool false)), (q, goto .ifTrue x)] (some q) true

/-- How a loop walks a collection: what comes before the first jump, in front of and behind the body, and what decides
whether there is another round. -/
structure Walk where
  prepare : List Instruction
  fetch : List Instruction
  advance : List Instruction
  test : List Instruction
  kept : Nat

namespace Walk

/-- By position. The items of a string are strings. -/
def indexed (prepare : List Instruction) (collection : ValueType) : Walk where
  prepare := prepare ++ [bare (.push 0)]
  fetch := bare .dupBelow :: bare .dupBelow ::
    if collection = .str then [bare (.push 1), bare .subStr, ⟨.convert, [ItemType.byteString.byte], .unresolved⟩]
    else [bare .pickItem]
  advance := [bare .inc]
  test := [bare .dup, bare (.push 2), bare .pick, bare .size, bare .lt]
  kept := 2

/-- By means of an iterator. -/
def iterated : Walk where
  prepare := []
  fetch := [bare .dup, ⟨.syscall, Service.iteratorValue.operand, .unresolved⟩]
  advance := []
  test := [bare .dup, ⟨.syscall, Service.iteratorNext.operand, .unresolved⟩]
  kept := 1

/-- The walk through a collection of some type. -/
def of : ValueType → Walk
  | .dict key _ => indexed [bare .keys] (.list key)
  | .iterator _ => iterated
  | collection => indexed [] collection

end Walk

/-- The code of a loop over a collection, from the preparation to the natural exit: the jump at `j` leads to the test,
which the jump at `k` closes. -/
structure Walks (walk : Walk) (prepare fetch advance test drop : Code) : Prop where
  prepare : prepare.map Prod.snd = walk.prepare
  fetch : fetch.map Prod.snd = walk.fetch
  advance : advance.map Prod.snd = walk.advance
  test : test.map Prod.snd = walk.test
  drop : drop.map Prod.snd = List.replicate walk.kept (bare .drop)

/-- A loop of the code: its first jump, and where its `break`s and `continue`s go. -/
structure Round where
  start : Handle
  leave : Option Handle
  again : Handle

/-! ### Blocks -/

/-- **The layout of a statement**: the statement `s`, emitted from `g` on, is the code, behind which comes `x`. The last
argument lists the loops in it. -/
inductive Block (P : Opcode → Prop) : Ways → Statement → Generator → Code → Handle → List Round → Prop
  | straight {w part g g' code x} : Emits P part g g' code x → Block P w (.straight part) g code x []
  | seq {w first second g g₁ a b x l m} : Block P w first g a (entry b x) l → Ran first.commands g g₁ →
      Block P w second g₁ b x m → Block P w (.seq first second) g (a ++ b) x (l ++ m)
  | ifThen {w condition body g g₁ g₂ a b j x l} : Emits P condition g g₁ a j → Ran [.beginIf] g₁ g₂ →
      Block P w body g₂ b x l → Block P w (.ifThen condition body) g (a ++ (j, goto .ifFalse x) :: b) x l
  | ifElse {w condition body other g g₁ g₂ g₃ a b c j k x l m} : Emits P condition g g₁ a j → Ran [.beginIf] g₁ g₂ →
      Block P w body g₂ b k l → Ran (body.commands ++ [.beginElse]) g₂ g₃ → Block P w other g₃ c x m →
      Block P w (.ifElse condition body other) g
        (a ++ (j, goto .ifFalse (entry c x)) :: (b ++ (k, goto .always x) :: c)) x (l ++ m)
  | whileDo {w test body g g₁ g₂ g₃ a b j k t x l} : Ran [.beginWhile] g g₁ → Emits P test g₁ g₂ a k → t = entry a k →
      Ran [.beginWhileBody] g₂ g₃ → Block P (w.body (some x) t 0 false) body g₃ b t l →
      Block P w (.whileDo test body) g
        ((j, goto .always t) :: (b ++ (a ++ [(k, goto .ifTrue (entry b t))]))) x (⟨j, some x, t⟩ :: l)
  | whileElse {w test body other g g₁ g₂ g₃ g₄ a b c d j k t x leave flagged l m} : Ran [.beginWhile] g g₁ →
      Emits P test g₁ g₂ a k → t = entry a k → Ran [.beginWhileBody] g₂ g₃ →
      Block P (w.body leave t 0 flagged) body g₃ b t l → Guard x c leave flagged →
      Ran (body.commands ++ [.endWhile true]) g₃ g₄ → Block P w other g₄ d x m →
      Block P w (.whileElse test body other) g
        ((j, goto .always t) :: (b ++ (a ++ (k, goto .ifTrue (entry b t)) :: (c ++ d)))) x (⟨j, leave, t⟩ :: (l ++ m))
  | forDo {w collection target body walk g g₁ g₂ g₃ a p f b n r u v j k x l} : Emits P collection g g₁ a (entry p j) →
      walk = Walk.of (g₁.stack.peek 0) → Walks walk p f u v r → Ran [.beginFor] g₁ g₂ →
      Emits P target g₂ g₃ n (entry b (entry u (entry v k))) →
      Block P (w.body (some x) (entry u (entry v k)) walk.kept false) body g₃ b (entry u (entry v k)) l →
      Block P w (.forDo collection target body) g
        (a ++ (p ++ (j, goto .always (entry v k)) :: (f ++ (n ++ (b ++ (u ++ (v ++ (k, goto .ifTrue (entry f k)) :: r)))))))
        x (⟨j, some x, entry u (entry v k)⟩ :: l)
  | forElse {w collection target body other walk g g₁ g₂ g₃ g₄ a p f b n r u v c d j k x leave flagged l m} :
      Emits P collection g g₁ a (entry p j) → walk = Walk.of (g₁.stack.peek 0) → Walks walk p f u v r →
      Ran [.beginFor] g₁ g₂ → Emits P target g₂ g₃ n (entry b (entry u (entry v k))) →
      Block P (w.body leave (entry u (entry v k)) walk.kept flagged) body g₃ b (entry u (entry v k)) l →
      Guard x c leave flagged → Ran (body.commands ++ [.endFor true]) g₃ g₄ → Block P w other g₄ d x m →
      Block P w (.forElse collection target body other) g
        (a ++ (p ++ (j, goto .always (entry v k)) :: (f ++ (n ++ (b ++ (u ++ (v ++ (k, goto .ifTrue (entry f k)) ::
          (r ++ (c ++ d))))))))) x (⟨j, leave, entry u (entry v k)⟩ :: (l ++ m))
  | tryExcept {w body name handler g g₁ g₂ a b c h j k x l m} : Ran [.beginTry] g g₁ → Block P w.guarded body g₁ a j l →
      Ran (body.commands ++ [.beginHandler name]) g₁ g₂ → Inner P b (entry c k) → Block P w.guarded handler g₂ c k m →
      Block P w (.tryExcept body name handler) g
        ((h, protect (some (entry b (entry c k))) none) :: (a ++ (j, leave x) :: (b ++ (c ++ [(k, leave x)])))) x (l ++ m)
  | tryFinally {w body finalizer g g₁ g₂ a b h j k x l m} : Ran [.beginTry] g g₁ → Block P w.guarded body g₁ a j l →
      Ran (body.commands ++ [.endTry true]) g₁ g₂ → Block P w.guarded finalizer g₂ b k m →
      Block P w (.tryFinally body finalizer) g
        ((h, protect none (some (entry b k))) :: (a ++ (j, leave x) :: (b ++ [(k, bare .finallyLeave)]))) x (l ++ m)
  | tryBoth {w body name handler finalizer g g₁ g₂ g₃ a b c d h i j k x l m n} : Ran [.beginTry] g g₁ →
      Block P w.guarded body g₁ a i l → Ran (body.commands ++ [.beginHandler name]) g₁ g₂ → Inner P b (entry c j) →
      Block P w.guarded handler g₂ c j m → Ran (handler.commands ++ [.endTry true]) g₂ g₃ →
      Block P w.guarded finalizer g₃ d k n →
      Block P w (.tryBoth body name handler finalizer) g
        ((h, protect (some (entry b (entry c j))) (some (entry d k))) ::
          (a ++ (i, leave x) :: (b ++ (c ++ (j, leave x) :: (d ++ [(k, bare .finallyLeave)]))))) x (l ++ (m ++ n))
  | breakLoop {w g a f b t x} : w.leave = some t → a.map Prod.snd = List.replicate w.kept (bare .drop) →
      f.map Prod.snd = (if w.flagged then [bare (.pushBool true)] else []) → Chain t w.levels b →
      Block P w .breakLoop g (a ++ (f ++ b)) x []
  | continueLoop {w g a t x} : w.again = some t → Chain t w.levels a → Block P w .continueLoop g a x []
  | returnVoid {w g a x} :
      a.map Prod.snd = List.replicate w.total (bare .drop) ++
        ((if g.frame.any Frame.isInit then [bare (.load .argument (some 0))] else []) ++ [bare .ret]) →
      Block P w .returnVoid g a x []
  | returnValue {w value g g' a b x} : Emits P value g g' a (entry b x) →
      b.map Prod.snd = List.replicate w.total (bare .nip) ++ [bare .ret] →
      Block P w (.returnValue value) g (a ++ b) x []
  | raise {w exception g g' a j x} : Emits P exception g g' a j →
      Block P w (.raise exception) g (a ++ [(j, bare .throw)]) x []

end NeoScript
