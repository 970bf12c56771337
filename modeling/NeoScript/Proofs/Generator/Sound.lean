import NeoScript.Generator.Binding
import NeoScript.Proofs.Generator.Linking

/-!
# The invariant of a method under way

While a method is emitted, the code consists of what was there before and of new code behind it. `Sound` says
what holds of every such state: old code is as it was, except that calls may have found the new method; every
control transfer of the new code has its target in the new code, or some open construct or pending link will
give it one; and the method's entry is the first new instruction.

`Named` adds what holds if no link was pending when the method was opened: each call waits for, or leads to, the
method it was emitted for. The emitted calls are kept in a log, which the program itself does not have.
-/

namespace NeoScript

open Option CodeMap

/-- The jumps that an open loop will link. -/
def OpenLoop.held (l : OpenLoop) : List Handle :=
  (match l.kind with
    | .conditional _ => []
    | .indexed _ | .iterated _ => [l.startJump]) ++ l.continues ++ l.breaks.map Break.jump

/-- The jump that a conditional statement will link. -/
def OpenBranch.held (b : OpenBranch) : Handle := (b.other.map Prod.fst).getD b.jump

/-- Whether the instruction of a handle pushes a constant. -/
def CodeMap.constant? (m : CodeMap) (h : Handle) : Option Bool :=
  (m.shape? h).map fun e => Generator.pushesConstant { opcode := e.1 }

namespace Generator

variable {m : CodeMap}

/-- The jumps that open constructs will link. -/
def held (g : Generator) : List Handle :=
  g.branches.map OpenBranch.held ++ g.loops.flatMap OpenLoop.held ++ g.elseGuards.filterMap id ++
    g.tries.flatMap OpenTry.leaves

lemma held_of_context {g g' : Generator} (h : g'.context = g.context) : g'.held = g.held := (congrArg held h :)

/-- A link of new code: its source has the right role. A method has its entry unless there is no new code. -/
def LinkSound (new : List Handle) (m : CodeMap) : Link → Prop
  | .jump s => s ∈ new ∧ m.role? s = some .leap
  | .handler s | .finalizer s => s ∈ new ∧ m.role? s = some .protect
  | .entry _ => new = []

/-- What an open loop remembers is there. Its flags are constants, which its other instructions are not. -/
structure LoopSound (new : List Handle) (m : CodeMap) (l : OpenLoop) : Prop where
  start : l.startJump ∈ new ∧ m.role? l.startJump = some .leap
  flags : ∀ e ∈ l.breaks, l.startJump < e.flag ∧ m.constant? e.flag = some true
  closing : ∀ j, l.kind = .conditional (some j) → j ∈ new ∧ m.role? j = some .leap
  body : ∀ d, l.kind = .indexed d ∨ l.kind = .iterated d →
    d ∈ new ∧ new.head? ≠ some d ∧ m.constant? d = some false

/-- Calls wait for, or lead to, the methods they were emitted for, while the method `f` is under way. -/
structure Named (b : Generator) (f : String) (log : List (Handle × String)) (X : Handle → Prop)
    (new : List Handle) (g : Generator) : Prop where
  frame : ∀ fr, g.frame = some fr → fr.name = f
  entry : ∀ m, .entry m ∈ g.pending → m = f
  others : g.entries.entries.filter (fun e => e.1 ≠ f) = b.entries.entries.filter (fun e => e.1 ≠ f)
  opened : new = [] ∧ .entry f ∈ g.pending ∨ new ≠ [] ∧ g.entries.get? f = new.head?
  logged : ∀ h ∈ g.code.live, g.code.role? h = some .call → ∃ m, (h, m) ∈ log
  calls : ∀ h m, (h, m) ∈ log → g.code.role? h = some .call
  unique : ∀ h m m', (h, m) ∈ log → (h, m') ∈ log → m = m'
  waits : ∀ h m i, (h, m) ∈ log → h ∈ g.code.live → g.code.instruction? h = some i →
    i.target = .unresolved → h ∈ g.waitingOf m ∨ h ∈ new ∧ X h
  leads : ∀ h m i d, (h, m) ∈ log → h ∈ g.code.live → g.code.instruction? h = some i →
    i.target = .code d →
      d ∈ b.code.live ∧ (h ∈ b.code.live ∨ (b.entries.get? f).isSome) ∨ g.entries.get? m = some d
  former : ∀ d ∈ b.code.live, g.entries.get? f = some d → (b.entries.get? f).isSome
  waiting : ∀ m, ∀ h ∈ g.waitingOf m, (h, m) ∈ log
  stuck : ∀ m d, ∀ h ∈ g.waitingOf m, g.entries.get? m = some d → d = h
  onward : ∀ h m i, (h, m) ∈ log → h ∈ g.code.live → g.code.instruction? h = some i → i.target ≠ .code h

/-- The state of a method under way: `b` is the generator before the method, `new` the code emitted since, and `X`
holds of the control transfers that the operation under way will link. -/
structure Sound (b : Generator) (f? : Option String) (log : List (Handle × String)) (X : Handle → Prop)
    (new : List Handle) (g : Generator) : Prop where
  base : b.code.Laid
  laid : g.code.Laid
  live : g.code.live = b.code.live ++ new
  closed : ∀ h ∈ b.code.live, ∀ i, b.code.instruction? h = some i → ∀ d ∈ i.refs, d ∈ b.code.live
  starts : ∀ m d, b.entries.get? m = some d → d ∈ b.code.live
  ends : ∀ h, b.code.live.getLast? = some h → b.code.constant? h ≠ some true
  fresh : ∀ h ∈ new, b.code.nextHandle ≤ h
  grown : b.code.nextHandle ≤ g.code.nextHandle
  head : ∀ a, new.head? = some a → ∀ h ∈ new, a ≤ h
  kept : ∀ h ∈ b.code.live, ∀ i, b.code.instruction? h = some i →
    g.code.instruction? h = some i ∨
      i.opcode.role = .call ∧ i.target = .unresolved ∧
        ∃ d, new.head? = some d ∧ g.code.instruction? h = some { i with target := .code d }
  plain : ∀ h ∈ new, ∀ i, g.code.instruction? h = some i → i.opcode.role = .plain → i.Proper
  narrow : ∀ h ∈ new, ∀ e, g.code.shape? h = some e → e.1.isWide = false
  leap : ∀ h ∈ new, ∀ i, g.code.instruction? h = some i → i.opcode.role = .leap →
    (∃ d ∈ new, new.head? ≠ some d ∧ i.target = .code d) ∨
      i.target = .unresolved ∧ (.jump h ∈ g.pending ∨ h ∈ g.held ∨ X h)
  protect : ∀ h ∈ new, ∀ i, g.code.instruction? h = some i → i.opcode.role = .protect →
    ∃ e f, i.target = .handlers e f ∧ ∀ d ∈ e.toList ++ f.toList, d ∈ new ∧ new.head? ≠ some d
  call : ∀ h ∈ g.code.live, ∀ i, g.code.instruction? h = some i → i.opcode.role = .call →
    (∃ d, i.target = .code d ∧
      (d ∈ b.code.live ∨ new.head? = some d ∧ ∃ m, g.entries.get? m = some d)) ∨
      i.target = .unresolved ∧ ((∃ m, h ∈ g.waitingOf m) ∨ h ∈ new ∧ X h)
  entries : ∀ m d, g.entries.get? m = some d → d ∈ b.code.live ∨ new.head? = some d
  waiting : ∀ m, ∀ h ∈ g.waitingOf m, h ∈ g.code.live ∧
    ∃ i, g.code.instruction? h = some i ∧ i.opcode.role = .call ∧ i.target = .unresolved
  once : ∀ m m', ∀ h ∈ g.waitingOf m, h ∈ g.waitingOf m' → m = m'
  links : ∀ l ∈ g.pending, LinkSound new g.code l
  jumps : ∀ h ∈ g.held, h ∈ new ∧ g.code.role? h = some .leap
  loops : ∀ l ∈ g.loops, LoopSound new g.code l
  tries : ∀ t ∈ g.tries, t.enter ∈ new ∧ g.code.role? t.enter = some .protect
  named : ∀ f, f? = some f → Named b f log X new g

lemma LinkSound.mono {new new' : List Handle} {m' : CodeMap} {l : Link} (hl : LinkSound new m l)
    (hsub : ∀ h ∈ new, h ∈ new' ∧ m'.shape? h = m.shape? h) (hnil : new = [] → new' = []) : LinkSound new' m' l := by
  cases l with
  | entry m => exact hnil hl
  | jump s | handler s | finalizer s =>
    exact ⟨(hsub s hl.1).1, (role?_congr (hsub s hl.1).2).trans hl.2⟩

lemma LinkSound.of_source {new : List Handle} {l : Link} {s : Handle} (hsrc : l.source? = some s)
    (hm : s ∈ new) (hr : m.role? s = some l.role) : LinkSound new m l := by
  cases l with
  | entry m => cases hsrc
  | jump s' | handler s' | finalizer s' =>
    obtain rfl := some.inj hsrc
    exact ⟨hm, hr⟩

lemma role?_of_constant {h : Handle} (hc : m.constant? h = some true) : m.role? h = some .plain := by
  obtain ⟨⟨o, bs⟩, hs, ho⟩ := map_eq_some_iff.1 hc
  rw [role?, hs, map_some]
  cases o <;> simp_all [Opcode.role, pushesConstant]

lemma constant?_of_leap {h : Handle} (hr : m.role? h = some .leap) : m.constant? h = some false := by
  obtain ⟨⟨o, bs⟩, hs, ho⟩ := map_eq_some_iff.1 hr
  rw [constant?, hs, map_some]
  cases o <;> simp_all [Opcode.role, pushesConstant]

lemma LoopSound.mono {new new' : List Handle} {m' : CodeMap} {l : OpenLoop} (hl : LoopSound new m l)
    (hsub : ∀ h ∈ new, m.constant? h = some false → h ∈ new') (hshape : ∀ h, m.shape? h ≠ none → m'.shape? h = m.shape? h)
    (hhead : ∀ h ∈ new, m.constant? h = some false → new.head? ≠ some h → new'.head? ≠ some h) : LoopSound new' m' l := by
  have hrole : ∀ h r, m.role? h = some r → m'.role? h = some r := fun h r hr => by
    rw [role?_congr (hshape h fun e => by simp [role?, e] at hr), hr]
  have hconst : ∀ h c, m.constant? h = some c → m'.constant? h = some c := fun h c hc => by
    rwa [constant?, hshape h fun e => by simp [constant?, e] at hc]
  refine ⟨⟨hsub _ hl.start.1 (constant?_of_leap hl.start.2), hrole _ _ hl.start.2⟩,
    fun e he => ⟨(hl.flags e he).1, hconst _ _ (hl.flags e he).2⟩, fun j hj => ?_, fun d hd => ?_⟩
  · obtain ⟨hm, hr⟩ := hl.closing j hj
    exact ⟨hsub j hm (constant?_of_leap hr), hrole j _ hr⟩
  · obtain ⟨hm, hh, hc⟩ := hl.body d hd
    exact ⟨hsub d hm hc, hhead d hm hc hh, hconst d _ hc⟩

namespace Sound

variable {b : Generator} {f? : Option String} {log : List (Handle × String)} {X Y : Handle → Prop}
  {new : List Handle} {g g' : Generator}

variable (hs : Sound b f? log X new g) {h : Handle} {i : Instruction}
include hs

lemma mem_live (hm : h ∈ new) : h ∈ g.code.live := by
  rw [hs.live]
  exact List.mem_append_right _ hm

lemma mem_live_old (hm : h ∈ b.code.live) : h ∈ g.code.live := by
  rw [hs.live]
  exact List.mem_append_left _ hm

lemma old (hm : h ∈ b.code.live) : h < b.code.nextHandle :=
  hs.base.lt_next hm

lemma bound (hm : h ∈ new) : h < g.code.nextHandle :=
  hs.laid.lt_next (hs.mem_live hm)

lemma not_mem_new (hm : h ∈ b.code.live) : h ∉ new := fun hn =>
  Nat.lt_irrefl _ (Nat.lt_of_lt_of_le (hs.old hm) (hs.fresh h hn))

lemma mem_new (hm : h ∈ g.code.live) (hn : b.code.nextHandle ≤ h) : h ∈ new := by
  rw [hs.live, List.mem_append] at hm
  exact hm.resolve_left fun ho => Nat.lt_irrefl _ (Nat.lt_of_lt_of_le (hs.old ho) hn)

/-- No entry is pending once there is new code. -/
lemma entry_not_mem (hne : new ≠ []) (m : String) : .entry m ∉ g.pending :=
  fun hm => hne (hs.links _ hm)

lemma source {l : Link} (hl : l ∈ g.pending) {s : Handle} (hsrc : l.source? = some s) :
    s ∈ new ∧ g.code.role? s = some l.role := by
  have hlink := hs.links l hl
  cases l with
  | entry m => cases hsrc
  | jump s' | handler s' | finalizer s' =>
    obtain rfl := some.inj hsrc
    exact hlink

lemma linksTyped : g.LinksTyped g.pending where
  role := fun l hl s hsrc => (hs.source hl hsrc).2
  waiting := fun m s hm => by
    obtain ⟨-, i, hi, hr, -⟩ := hs.waiting m s hm
    rw [role?_eq hi, hr]

lemma protect_or_free (hi : g.code.instruction? h = some i)
    (hr : i.opcode.role = .protect) : (∀ l ∈ g.pending, l.source? ≠ some h) ∨ ∃ e f, i.target = .handlers e f := by
  by_cases hnew : h ∈ new
  · obtain ⟨e, f, hh, -⟩ := hs.protect h hnew i hi hr
    exact .inr ⟨e, f, hh⟩
  · exact .inl fun l hl hsrc => hnew (hs.source hl hsrc).1

lemma instruction?_resolveAll {d : Handle} (hi : g.code.instruction? h = some i) :
    (g.resolveAll d).code.instruction? h = some { i with target := g.aimedBy g.pending d h i } :=
  Generator.instruction?_resolveAll hs.linksTyped hi (hs.protect_or_free hi)

end Sound

end Generator

end NeoScript
