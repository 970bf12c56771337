import NeoScript.Proofs.Command.Operands

/-!
# Statements

A `Statement` is a piece of a method body that is complete in itself. Its straight parts are lists of commands: a
statement without control flow, the condition of an `if`, the test of a loop, the collection that a loop walks and what
takes its items, the value of a `return`. `commands` lists the steps of a statement in the order in which they are
emitted.
-/

namespace NeoScript

open Command

/-- A statement of the language. -/
inductive Statement where
  | straight (part : List Command)
  | seq (first second : Statement)
  | ifThen (condition : List Command) (body : Statement)
  | ifElse (condition : List Command) (body other : Statement)
  | whileDo (test : List Command) (body : Statement)
  | whileElse (test : List Command) (body other : Statement)
  /-- A loop over a collection; `target` takes the item that each round starts with. -/
  | forDo (collection target : List Command) (body : Statement)
  | forElse (collection target : List Command) (body other : Statement)
  | tryExcept (body : Statement) (name : Option String) (handler : Statement)
  | tryFinally (body finalizer : Statement)
  | tryBoth (body : Statement) (name : Option String) (handler finalizer : Statement)
  | breakLoop
  | continueLoop
  | returnVoid
  | returnValue (value : List Command)
  | raise (exception : List Command)

namespace Command

/-- Whether commands keep to regions in which types may be recorded. -/
def keepsRegion (narrowing : Bool) (part : List Command) : Bool := narrowing || part.all fun c => !c.narrows

/-- Whether the bytes that a command pushes are not too long. -/
def pushes (c : Command) (g : Generator) : Bool := (c.payloads g).all Pushable

/-- Whether commands, emitted from `g` on, take nothing from the lowest `floor` items of the stack, push no bytes that
are too long, and leave `left` items on top of them unless one is refused. -/
def worksFrom (floor left : Nat) : List Command → Generator → Bool
  | [], g => g.stack.depth == floor + left
  | c :: cs, g =>
    c.isPart && decide (floor + c.operands g ≤ g.stack.depth) && c.pushes g &&
      match c.run.run g with
      | .ok _ g' => worksFrom floor left cs g'
      | .error _ _ => true

/-- Whether the state that commands lead to, if none is refused, has a property. -/
def after (cs : List Command) (g : Generator) (p : Generator → Bool) : Bool :=
  match (runAll cs).run g with
  | .ok _ g' => p g'
  | .error _ _ => true

/-- Whether commands work on top of the stack that they find and leave `left` items on it. -/
def works (left : Nat) (part : List Command) (g : Generator) : Bool := worksFrom g.stack.depth left part g

/-- Whether commands take the top item and work on top of what is below it. -/
def takesItem (part : List Command) (g : Generator) : Bool := worksFrom (g.stack.depth - 1) 0 part g

/-! ### Running commands one after another -/

lemma runAll_append (cs ds : List Command) : runAll (cs ++ ds) = runAll cs >>= fun _ => runAll ds := by
  induction cs with
  | nil => rfl
  | cons c cs ih =>
    change (c.run >>= fun _ => runAll (cs ++ ds)) = _
    rw [ih]
    exact (bind_assoc _ _ _).symm

lemma runAll_append_ok {cs ds : List Command} {g g1 g2 : Generator} (h1 : (runAll cs).run g = .ok () g1)
    (h2 : (runAll ds).run g1 = .ok () g2) : (runAll (cs ++ ds)).run g = .ok () g2 := by
  rwa [runAll_append, run_bind, h1]

lemma runAll_singleton (c : Command) : runAll [c] = c.run := bind_pure_unit

lemma runAll_concat_ok {cs : List Command} {c : Command} {g g1 g2 : Generator} (h1 : (runAll cs).run g = .ok () g1)
    (h2 : c.run.run g1 = .ok () g2) : (runAll (cs ++ [c])).run g = .ok () g2 :=
  runAll_append_ok h1 (by rw [runAll_singleton]; exact h2)

lemma after_of_ok {cs : List Command} {g g' : Generator} (h : (runAll cs).run g = .ok () g')
    (p : Generator → Bool) : after cs g p = p g' := by
  rw [after, h]

lemma after_append (cs ds : List Command) (g : Generator) (p : Generator → Bool) :
    after (cs ++ ds) g p = after cs g fun g' => after ds g' p := by
  unfold after
  rw [runAll_append, run_bind]
  cases (runAll cs).run g with
  | ok _ g' => rfl
  | error _ g' => rfl

lemma after_cons (c : Command) (cs : List Command) (g : Generator) (p : Generator → Bool) :
    after (c :: cs) g p = after [c] g fun g' => after cs g' p := after_append [c] cs g p

lemma after_and (cs : List Command) (g : Generator) (p q : Generator → Bool) :
    (after cs g fun g' => p g' && q g') = (after cs g p && after cs g q) := by
  unfold after
  cases (runAll cs).run g with
  | ok _ g' => rfl
  | error _ g' => rfl

end Command

namespace Generator.Regular

variable {g : Generator} {P Q : Unit → Generator → Prop} {cs ds : List Command} {c : Command}

lemma append (h : Regular (runAll cs) g P)
    (hd : ∀ g', (runAll cs).run g = .ok () g' → P () g' → Regular (runAll ds) g' Q) : Regular (runAll (cs ++ ds)) g Q := by
  rw [runAll_append]
  exact h.bind fun _ g' hrun hp => hd g' hrun hp

lemma cons (h : Regular c.run g P) (hd : ∀ g', c.run.run g = .ok () g' → P () g' → Regular (runAll ds) g' Q) :
    Regular (runAll (c :: ds)) g Q := h.bind fun _ g' hrun hp => hd g' hrun hp

lemma single (h : Regular c.run g P) : Regular (runAll [c]) g P := by
  rwa [runAll_singleton]

end Generator.Regular

namespace Statement

open Command

/-- The commands of a statement. -/
def commands : Statement → List Command
  | straight part => part
  | seq first second => first.commands ++ second.commands
  | ifThen condition body => condition ++ .beginIf :: (body.commands ++ [.endIf])
  | ifElse condition body other =>
    condition ++ .beginIf :: (body.commands ++ .beginElse :: (other.commands ++ [.endIf]))
  | whileDo test body => .beginWhile :: (test ++ .beginWhileBody :: (body.commands ++ [.endWhile false]))
  | whileElse test body other =>
    .beginWhile :: (test ++ .beginWhileBody :: (body.commands ++ .endWhile true :: (other.commands ++ [.endLoopElse])))
  | forDo collection target body => collection ++ .beginFor :: (target ++ (body.commands ++ [.endFor false]))
  | forElse collection target body other =>
    collection ++ .beginFor :: (target ++ (body.commands ++ .endFor true :: (other.commands ++ [.endLoopElse])))
  | tryExcept body name handler =>
    .beginTry :: (body.commands ++ .beginHandler name :: (handler.commands ++ [.endTry false]))
  | tryFinally body finalizer =>
    .beginTry :: (body.commands ++ .endTry true :: (finalizer.commands ++ [.endFinalizer]))
  | tryBoth body name handler finalizer =>
    .beginTry :: (body.commands ++ .beginHandler name :: (handler.commands ++ .endTry true ::
      (finalizer.commands ++ [.endFinalizer])))
  | breakLoop => [.breakLoop]
  | continueLoop => [.continueLoop]
  | returnVoid => [.returnFrom false]
  | returnValue value => value ++ [.returnFrom true]
  | raise exception => exception ++ [.raise]

/-- Whether `break` and `continue` stand in loops only, and types are recorded only in branches and loops. The flags
say whether the statement itself stands in a loop, and whether types may be recorded around it. -/
def nested (inLoop narrowing : Bool) : Statement → Bool
  | straight part => keepsRegion narrowing part
  | seq first second => first.nested inLoop narrowing && second.nested inLoop narrowing
  | ifThen condition body => keepsRegion narrowing condition && body.nested inLoop true
  | ifElse condition body other =>
    keepsRegion narrowing condition && body.nested inLoop true && other.nested inLoop true
  | whileDo _ body => body.nested true true
  | whileElse _ body other => body.nested true true && other.nested inLoop narrowing
  | forDo collection _ body => keepsRegion narrowing collection && body.nested true true
  | forElse collection _ body other =>
    keepsRegion narrowing collection && body.nested true true && other.nested inLoop narrowing
  | tryExcept body _ handler => body.nested inLoop narrowing && handler.nested inLoop narrowing
  | tryFinally body finalizer => body.nested inLoop narrowing && finalizer.nested inLoop narrowing
  | tryBoth body _ handler finalizer =>
    body.nested inLoop narrowing && handler.nested inLoop narrowing && finalizer.nested inLoop narrowing
  | breakLoop | continueLoop => inLoop
  | returnVoid => true
  | returnValue part | raise part => keepsRegion narrowing part

/-- Whether every straight part works on top of the stack that it finds, and leaves as many items as the statement
takes: none, or a condition, a collection, a value. Nothing that is pushed is too long. -/
def fits : Statement → Generator → Bool
  | straight part, g => works 0 part g
  | seq first second, g => first.fits g && after first.commands g second.fits
  | ifThen condition body, g => works 1 condition g && after (condition ++ [.beginIf]) g body.fits
  | ifElse condition body other, g =>
    works 1 condition g && after (condition ++ [.beginIf]) g fun g =>
      body.fits g && after (body.commands ++ [.beginElse]) g other.fits
  | whileDo test body, g =>
    after [.beginWhile] g fun g => works 1 test g && after (test ++ [.beginWhileBody]) g body.fits
  | whileElse test body other, g =>
    after [.beginWhile] g fun g => works 1 test g && after (test ++ [.beginWhileBody]) g fun g =>
      body.fits g && after (body.commands ++ [.endWhile true]) g other.fits
  | forDo collection target body, g =>
    works 1 collection g && after (collection ++ [.beginFor]) g fun g =>
      takesItem target g && after target g body.fits
  | forElse collection target body other, g =>
    works 1 collection g && after (collection ++ [.beginFor]) g fun g =>
      takesItem target g && after target g fun g =>
        body.fits g && after (body.commands ++ [.endFor true]) g other.fits
  | tryExcept body name handler, g =>
    after [.beginTry] g fun g => body.fits g && after body.commands g (pushes (.beginHandler name)) &&
      after (body.commands ++ [.beginHandler name]) g handler.fits
  | tryFinally body finalizer, g =>
    after [.beginTry] g fun g => body.fits g && after (body.commands ++ [.endTry true]) g finalizer.fits
  | tryBoth body name handler finalizer, g =>
    after [.beginTry] g fun g => body.fits g && after body.commands g (pushes (.beginHandler name)) &&
      after (body.commands ++ [.beginHandler name]) g fun g =>
        handler.fits g && after (handler.commands ++ [.endTry true]) g finalizer.fits
  | breakLoop, _ | continueLoop, _ | returnVoid, _ => true
  | returnValue part, g | raise part, g => works 1 part g

end Statement

end NeoScript
