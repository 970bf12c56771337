import NeoScript.Generator.Basic
import NeoScript.PushInteger
import NeoScript.Snippet.Basic

/-!
# Emitting instructions

The operations from which all others are built. An instruction is appended, traced, and then every pending link
is resolved to it, in the order in which the links were made. The shadow stack follows with the types that the
instruction takes and leaves.
-/

namespace NeoScript.Generator

/-- Adds an event to the trace. -/
def note (g : Generator) (e : TraceEvent) : Generator := { g with trace := g.trace.add e }

/-! ### Links -/

/-- The address that a target is shown with: the place of the code or of the handler. -/
def shownTarget (g : Generator) : Target → Option Nat
  | .code h | .handlers (some h) _ => g.code.start? h
  | _ => none

/-- Points a control transfer at a target. -/
def setTarget (g : Generator) (source : Handle) (target : Target) : Generator :=
  let g := { g with code := g.code.setTarget source target }
  match g.code.start? source, g.code.instruction? source with
  | some address, some i => g.note (.patch address i.opcode (g.shownTarget target))
  | _, _ => g

/-- Promises to point something at the next instruction. -/
def defer (g : Generator) (link : Link) : Generator := { g with pending := g.pending ++ [link] }

/-- Promises to point a jump at the next instruction. -/
def linkNext (g : Generator) (source : Handle) : Generator := g.defer (.jump source)

/-- Promises to point jumps at the next instruction. -/
def linkAll (g : Generator) (sources : List Handle) : Generator := sources.foldl linkNext g

/-- Points jumps at an instruction. -/
def pointAll (g : Generator) (sources : List Handle) (destination : Handle) : Generator :=
  sources.foldl (fun g source => g.setTarget source (.code destination)) g

/-- The two handlers that a protected block has so far. -/
def handlersOf (g : Generator) (enter : Handle) : Option Handle × Option Handle :=
  match g.code.target? enter with
  | some (.handlers except finalizer) => (except, finalizer)
  | _ => (none, none)

/-- Keeps the promise of a link. -/
def resolve (g : Generator) (destination : Handle) : Link → Generator
  | .jump source => g.setTarget source (.code destination)
  | .handler source => g.setTarget source (.handlers (some destination) (g.handlersOf source).2)
  | .finalizer source => g.setTarget source (.handlers (g.handlersOf source).1 (some destination))
  | .entry method =>
    let calls := (g.waiting.get? method).getD []
    let g := { g with waiting := g.waiting.erase method }
    let g := g.pointAll calls destination
    { g with entries := g.entries.insert method destination }

/-- Keeps the promise of every pending link. -/
def resolveAll (g : Generator) (destination : Handle) : Generator :=
  let links := g.pending
  links.foldl (fun g link => g.resolve destination link) { g with pending := [] }

/-! ### Instructions -/

/-- Appends an instruction and resolves every pending link to it. -/
def append (g : Generator) (i : Instruction) : Generator :=
  let handle := g.code.nextHandle
  let event := .emit g.code.size i.opcode g.stack.depth
  ({ g with code := g.code.insert i }.note event).resolveAll handle

/-- Appends instructions. -/
def appendAll (g : Generator) (is : List Instruction) : Generator := is.foldl append g

/-- Emits an instruction without operand. -/
def emit (g : Generator) (o : Opcode) : Generator := g.append { opcode := o }

/-- Emits an instruction with an operand. -/
def emitData (g : Generator) (o : Opcode) (operand : Bytes) : Generator := g.append { opcode := o, operand }

/-- Emits a control transfer. -/
def emitTarget (g : Generator) (o : Opcode) (target : Target) : Generator := g.append { opcode := o, target }

/-- Emits a control transfer without destination. -/
def emitOpen (g : Generator) (o : Opcode) : Generator := g.emitTarget o .unresolved

/-- Emits a near jump without destination. -/
def emitJump (g : Generator) (test : JumpTest) : Generator := g.emitOpen (.jump test false)

/-- The handle of the instruction that comes next. -/
def next (g : Generator) : Handle := g.code.nextHandle

/-- Emits a snippet. The shadow stack does not follow. -/
def emitSnippet (g : Generator) : Snippet → Generator
  | .nil => g
  | .op o => g.emit o
  | .data o operand => g.emitData o operand
  | .seq a b => (g.emitSnippet a).emitSnippet b
  | .skip test body =>
    let jump := g.next
    ((g.emitJump test).emitSnippet body).linkNext jump
  | .loop body test again =>
    let jump := g.next
    let g := g.emitJump .always
    let first := g.next
    let g := (g.emitSnippet body).linkNext jump
    (g.emitSnippet test).emitTarget (.jump again false) (.code first)

/-! ### The shadow stack -/

/-- Puts a type on the shadow stack, on account of the last instruction. -/
def pushType (g : Generator) (t : ValueType) : Generator :=
  { g with stack := g.stack.push g.code.back? t }

/-- Takes types off the shadow stack, on account of the last instruction. -/
def popTypes (g : Generator) (count : Nat) : Generator :=
  { g with stack := g.stack.popN g.code.back? count }

/-- Replaces the shadow stack, for code that is reached in another way than from the last instruction. -/
def restoreStack (g : Generator) (items : List ValueType) : Generator :=
  { g with stack := g.stack.replace g.code.back? items }

/-- Lets the shadow stack follow an instruction that takes `pops` items and may leave one. -/
def track (g : Generator) (after : Handle) (pops : Nat) (result : Option ValueType) : Generator :=
  let stack := g.stack.popN (some after) pops
  { g with stack :=
      match result with
      | some t => stack.push (some after) t
      | none => stack }

/-- The net effect of code that the shadow stack did not follow. -/
def settle (g : Generator) (pops : Nat) (result : ValueType) : Generator := (g.popTypes pops).pushType result

/-- Emits an instruction without operand that takes `pops` items and may leave one. -/
def op (g : Generator) (o : Opcode) (pops : Nat) (result : Option ValueType) : Generator :=
  let handle := g.next
  (g.emit o).track handle pops result

/-- Emits an instruction with an operand that takes `pops` items and may leave one. -/
def opData (g : Generator) (o : Opcode) (operand : Bytes) (pops : Nat) (result : Option ValueType) : Generator :=
  let handle := g.next
  (g.emitData o operand).track handle pops result

/-- Calls a service of the host. -/
def callService (g : Generator) (s : Service) (pops : Nat) (result : Option ValueType) : Generator :=
  g.opData .syscall s.operand pops result

/-- Calls a method of another contract by its token, which is recorded once. -/
def callToken (g : Generator) (token : MethodToken) (pops : Nat) (result : Option ValueType) : Generator :=
  let index := g.tokens.idxOf token
  let g := if token ∈ g.tokens then g else { g with tokens := g.tokens ++ [token] }
  g.opData .callToken (Bytes.ofNat 2 index) pops result

/-- Pushes bytes that some length field can count, with the shortest one. -/
def pushBytes (g : Generator) (bytes : Bytes) : Generator :=
  (g.emitData (.pushDataFor bytes.length) bytes).pushType .bytes

/-- Pushes bytes. More of them than the longest length field can count are a misuse. -/
def pushData (bytes : Bytes) : Emission Unit :=
  if Instruction.accepts (.pushDataFor bytes.length) bytes then modify fun g => g.pushBytes bytes else throw .misuse

/-- Pushes a count or an index. -/
def pushIndex (g : Generator) (n : Nat) : Generator :=
  (g.appendAll ((pushInteger? n).getD [])).pushType .nonNegInt

/-- Copies the top item. -/
def dup (g : Generator) : Generator :=
  let t := g.stack.peek 0
  (g.emit .dup).pushType t

/-- Turns the top `count` items upside down with one instruction. -/
def reverseWith (g : Generator) (o : Opcode) (count : Nat) : Generator :=
  let handle := g.next
  let g := g.emit o
  { g with stack := g.stack.reverse (some handle) count false }

/-- Exchanges the two top items. -/
def swap (g : Generator) : Generator := g.reverseWith .swap 2

/-- Drops the top item. -/
def drop (g : Generator) : Generator := g.op .drop 1 none

/-- Drops items. -/
def dropN (g : Generator) : Nat → Generator
  | 0 => g
  | count + 1 => g.drop.dropN count

/-- Drops the item below the top. -/
def nip (g : Generator) : Generator :=
  let handle := g.next
  let g := g.emit .nip
  { g with stack := g.stack.remove (some handle) 1 }

/-- Drops items below the top. -/
def nipN (g : Generator) : Nat → Generator
  | 0 => g
  | count + 1 => g.nip.nipN count

/-- Turns the top `count` items upside down. -/
def reverseTop (g : Generator) (count : Nat) : Generator :=
  match count with
  | 0 | 1 => g
  | 2 => g.reverseWith .swap 2
  | 3 => g.reverseWith .reverse3 3
  | 4 => g.reverseWith .reverse4 4
  | _ =>
    let g := g.pushIndex count
    let handle := g.next
    let g := g.op .reverseN 1 none
    { g with stack := g.stack.reverse (some handle) count false }

/-- Packs the top `count` items into an array that has them in the order in which they were pushed. -/
def packTop (g : Generator) (count : Nat) : Generator :=
  if count = 0 then g.op .newArray0 0 (some (.list .any))
  else ((g.reverseTop count).pushIndex count).op .pack (count + 1) (some (.list .any))

/-! ### Scopes -/

/-- Opens a region. -/
def pushScope (g : Generator) : Generator := { g with scopes := {} :: g.scopes }

/-- Leaves a region. -/
def popScope (g : Generator) : Generator := { g with scopes := g.scopes.tail }

/-- Forgets what the innermost region knows. -/
def clearScope (g : Generator) : Generator :=
  { g with scopes :=
      match g.scopes with
      | [] => []
      | _ :: outer => {} :: outer }

/-- Records the type that a variable is known to have in the innermost region. -/
def narrow (g : Generator) (name : String) (t : ValueType) : Generator :=
  { g with scopes :=
      match g.scopes with
      | [] => []
      | scope :: outer => scope.insert name t :: outer }

end NeoScript.Generator
