import NeoScript.Proofs.CodeMap.Renaming
import NeoScript.Proofs.Generator.Straight

/-!
# Generators that differ in their handles

`Alike` extends the renaming of handles from code maps to generators: the pending links, the entries, the waiting
calls and the open constructs of the two are the same but for the renaming, and so is all that the shadow stack can
still be asked for. Whatever is done to both keeps them alike, because no operation looks at a handle as a number.
-/

namespace NeoScript

open List CodeMap Table Link

variable {ρ : Handle ↪o Handle}

/-! ### Renaming what holds handles -/

lemma beq_renamed (h h' : Handle) : (ρ h == ρ h') = (h == h') := by
  rw [Bool.eq_iff_iff]
  simp

/-- The link with another handle. -/
def Link.rename (ρ : Handle → Handle) : Link → Link
  | jump source => jump (ρ source)
  | handler source => handler (ρ source)
  | finalizer source => finalizer (ρ source)
  | entry method => entry method

lemma Link.rename_injective : Function.Injective (rename ρ) := by
  intro l l' h
  cases l <;> cases l' <;> simp_all [rename]

@[simp] lemma Link.source?_rename (ρ : Handle → Handle) (l : Link) : (l.rename ρ).source? = l.source?.map ρ := by
  cases l <;> rfl

/-- The conditional statement with other handles. -/
def OpenBranch.rename (ρ : Handle → Handle) (b : OpenBranch) : OpenBranch :=
  { jump := ρ b.jump, other := b.other.map fun e => (ρ e.1, e.2) }

/-- The kind of a loop with other handles. -/
def LoopKind.rename (ρ : Handle → Handle) : LoopKind → LoopKind
  | conditional bodyJump => conditional (bodyJump.map ρ)
  | indexed body => indexed (ρ body)
  | iterated body => iterated (ρ body)

/-- The exit with other handles. -/
def Break.rename (ρ : Handle → Handle) (b : Break) : Break := { flag := ρ b.flag, jump := ρ b.jump }

/-- The loop with other handles. -/
def OpenLoop.rename (ρ : Handle → Handle) (l : OpenLoop) : OpenLoop :=
  { l with
    kind := l.kind.rename ρ
    startJump := ρ l.startJump
    continues := l.continues.map ρ
    breaks := l.breaks.map (Break.rename ρ) }

/-- The protected block with other handles. -/
def OpenTry.rename (ρ : Handle → Handle) (t : OpenTry) : OpenTry :=
  { t with enter := ρ t.enter, leaves := t.leaves.map ρ }

@[simp] lemma LoopKind.kept_rename (ρ : Handle → Handle) (k : LoopKind) : (k.rename ρ).kept = k.kept := by
  cases k <;> rfl

@[simp] lemma LoopKind.outline_rename (ρ : Handle → Handle) (k : LoopKind) : (k.rename ρ).outline = k.outline := by
  cases k <;> rfl

namespace Table

variable {κ α : Type} [DecidableEq κ]

lemma get?_of_map {t t' : Table κ α} {f : α → α} (h : t'.entries = t.entries.map fun e => (e.1, f e.2)) (k : κ) :
    t'.get? k = (t.get? k).map f := by
  rw [get?, get?, h, find?_map]
  simp [Function.comp_def]

lemma put_map {f : α → α} (k : κ) (v : α) (l : List (κ × α)) :
    put k (f v) (l.map fun e => (e.1, f e.2)) = (put k v l).map fun e => (e.1, f e.2) := by
  induction l with
  | nil => rfl
  | cons e l ih =>
    rw [map_cons, put, put]
    split
    · rfl
    · rw [ih, map_cons]

/-- Inserting pairs whose keys were renamed. -/
lemma ofList_map_keys {f : κ → κ} (hf : Function.Injective f) (l : List (κ × α)) :
    (ofList (l.map fun e => (f e.1, e.2))).entries = (ofList l).entries.map fun e => (f e.1, e.2) := by
  have hput : ∀ k (v : α) (l : List (κ × α)),
      put (f k) v (l.map fun e => (f e.1, e.2)) = (put k v l).map fun e => (f e.1, e.2) := fun k v l => by
    induction l with
    | nil => rfl
    | cons e l ih =>
      simp only [map_cons, put, hf.eq_iff]
      split
      · rfl
      · rw [ih, map_cons]
  have hfold : ∀ (l : List (κ × α)) (t t' : Table κ α), t'.entries = t.entries.map (fun e => (f e.1, e.2)) →
      ((l.map fun e => (f e.1, e.2)).foldl (fun t e => t.insert e.1 e.2) t').entries =
        (l.foldl (fun t e => t.insert e.1 e.2) t).entries.map fun e => (f e.1, e.2) := fun l => by
    induction l with
    | nil => exact fun t t' h => h
    | cons e l ih =>
      intro t t' h
      refine ih _ _ ?_
      simp only [insert, h, hput]
  exact hfold l empty empty rfl

lemma get?_of_map_keys {t t' : Table κ α} {f : κ → κ} (hf : Function.Injective f)
    (h : t'.entries = t.entries.map fun e => (f e.1, e.2)) (k : κ) : t'.get? (f k) = t.get? k := by
  have hbeq : (fun e : κ × α => f e.1 == f k) = fun e => e.1 == k := funext fun e => by
    rw [Bool.eq_iff_iff]
    simp [hf.eq_iff]
  rw [get?, get?, h, find?_map]
  simp [Function.comp_def, hbeq]

end Table

namespace Generator

/-! ### Alike generators -/

/-- Where a call starts: the handle that comes next, and the instruction before it. -/
structure Outset where
  next : Handle
  last : Option Handle

/-- Where a call starts that comes now. -/
def outset (g : Generator) : Outset := ⟨g.code.nextHandle, g.code.back?⟩

/-- What two generators have besides code, links, entries and waiting calls is the same but for handles. The option about
offsets that do not fit is looked at only when a script is finished, and may differ. -/
structure ContextAlike (ρ : Handle → Handle) (b : Outset) (g g' : Generator) : Prop where
  symbols : g'.symbols = g.symbols
  options : { g'.options with widenJumps := g.options.widenJumps } = g.options
  items : g'.stack.items = g.stack.items
  frame : g'.frame = g.frame
  scopes : g'.scopes = g.scopes
  tokens : g'.tokens = g.tokens
  branches : g'.branches = g.branches.map (OpenBranch.rename ρ)
  loops : g'.loops = g.loops.map (OpenLoop.rename ρ)
  elseGuards : g'.elseGuards = g.elseGuards.map (Option.map ρ)
  tries : g'.tries = g.tries.map (OpenTry.rename ρ)
  started : ∀ l ∈ g.loops, b.next ≤ l.startJump

/-- The generator `g'` is `g` with other handles, where `b` is where the call under way started. Of what was recorded
for instructions before the call only the record of the last one matters, for which there is one. -/
structure Alike (ρ : Handle ↪o Handle) (b : Outset) (g g' : Generator) : Prop where
  code : CodeMap.Alike ρ b.next g.code g'.code
  base : b.next ≤ g.code.nextHandle
  pending : g'.pending = g.pending.map (Link.rename ρ)
  entries : g'.entries.entries = g.entries.entries.map fun e => (e.1, ρ e.2)
  waiting : ∀ m x, x ∈ g'.waitingOf m ↔ ∃ h ∈ g.waitingOf m, ρ h = x
  recorded : ∀ h, b.next ≤ h ∨ b.last = some h → g'.stack.recorded? (ρ h) = g.stack.recorded? h
  floor : ∀ h, b.last = some h → (g.stack.recorded? h).isSome
  fresh : ∀ k, g.stack.recorded? (g.code.nextHandle + k) = none
  context : ContextAlike ρ b g g'

/-- Two gaps that differ in their handles. -/
structure Gap.Alike (ρ : Handle → Handle) (gap gap' : Gap) : Prop where
  removed : ∀ h, gap'.removed.contains (ρ h) = gap.removed.contains h
  successor : gap'.successor = gap.successor.map ρ

variable {b : Outset} {g g' k k' : Generator}

lemma ContextAlike.of_context (h : ContextAlike ρ b g g') (hk : k.context = g.context)
    (hk' : k'.context = g'.context) : ContextAlike ρ b k k' := by
  have hrefl : ∀ {g : Generator}, ContextAlike ρ b g g' → ContextAlike ρ b g.context g'.context := fun h =>
    ⟨h.symbols, h.options, h.items, h.frame, h.scopes, h.tokens, h.branches, h.loops, h.elseGuards, h.tries, h.started⟩
  have hcontext := hrefl h
  rw [← hk, ← hk'] at hcontext
  exact ⟨hcontext.symbols, hcontext.options, hcontext.items, hcontext.frame, hcontext.scopes, hcontext.tokens,
    hcontext.branches, hcontext.loops, hcontext.elseGuards, hcontext.tries, hcontext.started⟩

namespace Alike

section

variable (ha : Alike ρ b g g') {h h' : Handle} {t t' : Target}
include ha

lemma next : g'.next = ρ g.next := ha.code.nextHandle

lemma entry (name : String) : g'.entries.get? name = (g.entries.get? name).map ρ :=
  get?_of_map ha.entries name

/-- Nothing that was recorded before the call matters. -/
lemma forget : Alike ρ ⟨b.next, none⟩ g g' :=
  { ha with
    recorded := fun h hh => ha.recorded h (.inl (hh.resolve_right nofun))
    floor := nofun
    context := { ha.context with started := ha.context.started } }

lemma staticSlots : g'.staticSlots = g.staticSlots := by
  have hglobals : g.symbols.staticGlobals g'.options = g.symbols.staticGlobals g.options :=
    (congrArg g.symbols.staticGlobals ha.context.options :)
  rw [Generator.staticSlots, Generator.staticSlots, ha.context.symbols, hglobals]

/-- What is seen by straight operations is the same. -/
lemma view : g'.view = g.view := by
  have hc := ha.context
  have hoptions : ({ g'.options with widenJumps := true } : Options) = { g.options with widenJumps := true } :=
    (congrArg (fun o : Options => { o with widenJumps := true }) hc.options :)
  simp [Generator.view, hc.symbols, hoptions, hc.items, hc.frame, hc.scopes, hc.tokens, hc.loops, OpenLoop.rename,
    Function.comp_def]

/-! ### Links -/

lemma setTarget
    (ht : h ∈ g.code.live ∨ b.next ≤ h → t' = t.rename ρ) : Alike ρ b (g.setTarget h t) (g'.setTarget (ρ h) t') where
  code := by simpa using ha.code.setTarget ht
  base := by simpa using ha.base
  pending := by simpa using ha.pending
  entries := by simpa using ha.entries
  waiting := by
    rw [waitingOf_congr (waiting_setTarget _ _ _), waitingOf_congr (waiting_setTarget _ _ _)]
    exact ha.waiting
  recorded := by
    rw [stack_of_context (context_setTarget _ _ _), stack_of_context (context_setTarget _ _ _)]
    exact ha.recorded
  floor := by
    rw [stack_of_context (context_setTarget _ _ _)]
    exact ha.floor
  fresh := by
    rw [stack_of_context (context_setTarget _ _ _)]
    simpa using ha.fresh
  context := ha.context.of_context (context_setTarget _ _ _) (context_setTarget _ _ _)

/-- The generators in which jumps lead to the same instruction. -/
lemma pointAll {sources sources' : List Handle} (d : Handle) (hs : ∀ x, x ∈ sources' ↔ ∃ h ∈ sources, ρ h = x) :
    Alike ρ b (g.pointAll sources d) (g'.pointAll sources' (ρ d)) where
  code := {
    laid := (retargeted_pointAll _ _ _).laid ha.code.laid
    laid' := (retargeted_pointAll _ _ _).laid ha.code.laid'
    next := by simpa using ha.code.next
    live := by simpa using ha.code.live
    known := fun x j hx hj => by
      rw [live_pointAll] at hx
      have hmem : ρ x ∈ sources' ↔ x ∈ sources := by
        rw [hs]
        exact ⟨fun ⟨h, hh, he⟩ => ρ.injective he ▸ hh, fun hx => ⟨x, hx, rfl⟩⟩
      rw [instruction?_pointAll] at hj ⊢
      simp only [hmem]
      split at hj
      · next hin =>
        obtain ⟨i, hi, rfl⟩ := Option.map_eq_some_iff.1 hj
        obtain ⟨i', hi', hsame⟩ := ha.code.known x i hx hi
        exact ⟨_, by rw [if_pos hin, hi', Option.map_some]; rfl, hsame.setTarget (.code d)⟩
      · next hin =>
        rw [if_neg hin]
        exact ha.code.known x j hx hj }
  base := by simpa using ha.base
  pending := by simpa using ha.pending
  entries := by simpa using ha.entries
  waiting := by
    rw [waitingOf_congr (waiting_pointAll _ _ _), waitingOf_congr (waiting_pointAll _ _ _)]
    exact ha.waiting
  recorded := by
    rw [stack_of_context (context_pointAll _ _ _), stack_of_context (context_pointAll _ _ _)]
    exact ha.recorded
  floor := by
    rw [stack_of_context (context_pointAll _ _ _)]
    exact ha.floor
  fresh := by
    rw [stack_of_context (context_pointAll _ _ _)]
    simpa using ha.fresh
  context := ha.context.of_context (context_pointAll _ _ _) (context_pointAll _ _ _)

lemma defer {l l' : Link} (hl : l' = l.rename ρ) : Alike ρ b (g.defer l) (g'.defer l') :=
  { ha with
    pending := by rw [Generator.defer, Generator.defer, ha.pending, map_append, hl]; rfl
    context := ha.context.of_context rfl rfl }

lemma linkNext (hh : h' = ρ h) : Alike ρ b (g.linkNext h) (g'.linkNext h') :=
  ha.defer (hh ▸ rfl)

lemma linkAll {hs hs' : List Handle} (hh : hs' = hs.map ρ) : Alike ρ b (g.linkAll hs) (g'.linkAll hs') := by
  induction hs generalizing g g' hs' with
  | nil => exact hh ▸ ha
  | cons h hs ih => exact hh ▸ ih (ha.linkNext rfl) rfl

lemma handlersOf (hh : h ∈ g.code.live ∨ b.next ≤ h) :
    g'.handlersOf (ρ h) = ((g.handlersOf h).1.map ρ, (g.handlersOf h).2.map ρ) := by
  rw [Generator.handlersOf, Generator.handlersOf, ha.code.target?_eq hh]
  cases g.code.target? h with
  | none => rfl
  | some t => cases t <;> rfl

lemma resolve (d : Handle) (l : Link) : Alike ρ b (g.resolve d l) (g'.resolve (ρ d) (l.rename ρ)) := by
  cases l with
  | jump source => exact ha.setTarget fun _ => rfl
  | handler source | finalizer source => exact ha.setTarget fun hh => by rw [ha.handlersOf hh]; rfl
  | entry method =>
    have herased : Alike ρ b { g with waiting := g.waiting.erase method } { g' with waiting := g'.waiting.erase method } :=
      { ha with
        waiting := fun m x => by
          simp only [waitingOf, get?_erase]
          split
          · simp
          · exact ha.waiting m x
        context := ha.context.of_context rfl rfl }
    have hpointed := herased.pointAll d (ha.waiting method)
    exact { hpointed with
      entries := by
        simp only [Generator.resolve, rename, Table.insert, entries_pointAll, ha.entries, put_map]
      context := hpointed.context.of_context rfl rfl }

lemma resolveLinks (d : Handle) (ls : List Link) :
    Alike ρ b (g.resolveLinks d ls) (g'.resolveLinks (ρ d) (ls.map (rename ρ))) := by
  induction ls generalizing g g' with
  | nil => exact ha
  | cons l ls ih => exact ih (ha.resolve d l)

lemma resolveAll (d : Handle) : Alike ρ b (g.resolveAll d) (g'.resolveAll (ρ d)) := by
  rw [resolveAll_eq, resolveAll_eq, ha.pending]
  refine resolveLinks ?_ d _
  exact { ha with pending := rfl, context := ha.context.of_context rfl rfl }

/-! ### Instructions -/

lemma append {i i' : Instruction} (hi : i.Same ρ i') : Alike ρ b (g.append i) (g'.append i') := by
  have hnext : (g.inserted i).code.nextHandle = g.code.nextHandle + 1 := nextHandle_insert _ _
  have hinserted : Alike ρ b (g.inserted i) (g'.inserted i') := {
    code := ha.code.insert hi
    base := by rw [hnext]; exact Nat.le_succ_of_le ha.base
    pending := rfl
    entries := ha.entries
    waiting := ha.waiting
    recorded := ha.recorded
    floor := ha.floor
    fresh := fun k => by
      rw [hnext, Nat.add_right_comm, Nat.add_assoc]
      exact ha.fresh (k + 1)
    context := ha.context.of_context rfl rfl }
  rw [append_eq, append_eq, ha.pending, ha.code.nextHandle]
  exact hinserted.resolveLinks _ _

lemma emitOpen (o : Opcode) : Alike ρ b (g.emitOpen o) (g'.emitOpen o) :=
  ha.append ⟨rfl, rfl, by simp only [Instruction.target?]; split <;> rfl⟩

lemma emitTarget (o : Opcode) (ht : t' = t.rename ρ) : Alike ρ b (g.emitTarget o t) (g'.emitTarget o t') :=
  ha.append ⟨rfl, rfl, by simp only [Instruction.target?, ht]; split <;> rfl⟩

lemma await (m : String) (hh : h' = ρ h) : Alike ρ b (g.await m h) (g'.await m h') := by
  subst hh
  exact { ha with
    waiting := fun m' x => by
      have hw := ha.waiting m'
      simp only [waitingOf] at hw ⊢
      simp only [Generator.await, get?_insert]
      by_cases hm : m' = m
      · subst hm
        simp only [if_true, Option.getD_some, mem_append, mem_singleton, hw]
        constructor
        · rintro (⟨y, hy, rfl⟩ | rfl)
          · exact ⟨y, .inl hy, rfl⟩
          · exact ⟨h, .inr rfl, rfl⟩
        · rintro ⟨y, hy | rfl, rfl⟩
          · exact .inl ⟨y, hy, rfl⟩
          · exact .inr rfl
      · simp only [hm, if_false]
        exact hw x
    context := ha.context.of_context rfl rfl }

/-! ### The shadow stack -/

lemma restoreStack {items items' : List ValueType} (hi : items' = items) :
    Alike ρ b (g.restoreStack items) (g'.restoreStack items') where
  code := ha.code
  base := ha.base
  pending := ha.pending
  entries := ha.entries
  waiting := ha.waiting
  recorded := fun h hh => by
    simp only [Generator.restoreStack, ShadowStack.replace, ha.code.back?_eq, hi]
    cases g.code.back? with
    | none => exact ha.recorded h hh
    | some x =>
      simp only [Option.map_some, recorded?_record, ρ.injective.eq_iff]
      split
      · rfl
      · exact ha.recorded h hh
  floor := fun h hh => by
    simp only [Generator.restoreStack, ShadowStack.replace]
    cases g.code.back? with
    | none => exact ha.floor h hh
    | some x =>
      rw [recorded?_record]
      split
      · rfl
      · exact ha.floor h hh
  fresh := fun j => by
    simp only [Generator.restoreStack, ShadowStack.replace]
    cases hb : g.code.back? with
    | none => exact ha.fresh j
    | some x =>
      have hlt : x < g.code.nextHandle := by
        rw [back?_eq] at hb
        exact ha.code.laid.bound x (mem_of_getLast? hb)
      have hne : g.code.nextHandle + j ≠ x := Nat.ne_of_gt (Nat.lt_of_lt_of_le hlt (Nat.le_add_right _ _))
      rw [recorded?_record]
      exact (if_neg hne).trans (ha.fresh j)
  context := { ha.context with items := by simp [Generator.restoreStack, hi] }

end

/-! ### Removing code -/

section Relink

variable {gap gap' : Gap}

section

variable (ha : Alike ρ b g g') (hg : gap.Alike ρ gap')
include ha hg

lemma newEntry : gap'.newEntry g' = (gap.newEntry g).map ρ := by
  rw [Gap.newEntry, Gap.newEntry, hg.successor]
  cases gap.successor with
  | none => rfl
  | some h =>
    have hany : (g'.entries.entries.any fun e => e.2 == ρ h) = g.entries.entries.any fun e => e.2 == h := by
      rw [ha.entries, any_map]
      simp [Function.comp_def, beq_renamed]
    cases hc : g.entries.entries.any (fun e => e.2 == h) <;> simp [Option.filter, hany, hc]

lemma orphans : (gap'.orphans g').entries = (gap.orphans g).entries.map fun e => (ρ e.1, e.2) := by
  rw [Gap.orphans, Gap.orphans, ha.newEntry hg]
  cases gap.newEntry g with
  | some h => rfl
  | none =>
    have hmoved : ((g'.entries.entries.filter fun e => gap'.removed.contains e.2).map fun e => (e.2, e.1)) =
        ((g.entries.entries.filter fun e => gap.removed.contains e.2).map fun e => (e.2, e.1)).map
          fun e => (ρ e.1, e.2) := by
      rw [ha.entries, filter_map, map_map, map_map]
      simp only [Function.comp_def, hg.removed]
    simp only [Option.map_none, hmoved]
    exact ofList_map_keys ρ.injective _

lemma reopened : g'.reopened gap' = g.reopened gap := by
  rw [Generator.reopened, Generator.reopened, ha.context.frame, hg.successor, ha.orphans hg]
  simp only [any_map, Option.isNone_map]
  rfl

lemma cut : Alike ρ b (g.cut gap) (g'.cut gap') where
  code := ha.code
  base := ha.base
  pending := by
    have hkept : ∀ l : Link, ((l.rename ρ).source?.all fun h => !gap'.removed.contains h) =
        l.source?.all fun h => !gap.removed.contains h := fun l => by
      rw [source?_rename]
      cases l.source? <;> simp [hg.removed]
    have hreopened : (g.reopened gap).map (rename ρ) = g.reopened gap := by
      unfold Generator.reopened
      split
      · split <;> rfl
      · rfl
    simp only [Generator.cut, map_append, ha.pending, ha.reopened hg, filter_map, Function.comp_def, hkept,
      hreopened]
  entries := by
    have hmoved : ∀ e : String × Handle,
        (((if gap'.removed.contains (ρ e.2) = true then gap'.newEntry g' else some (ρ e.2)).map fun v => (e.1, v))) =
          ((if gap.removed.contains e.2 = true then gap.newEntry g else some e.2).map fun v => (e.1, v)).map
            fun e => (e.1, ρ e.2) := fun e => by
      rw [hg.removed, ha.newEntry hg]
      split
      · cases gap.newEntry g <;> rfl
      · rfl
    simp only [Generator.cut, Table.filterMap, ha.entries, filterMap_map, map_filterMap, Function.comp_def,
      hmoved]
  waiting := fun m x => by
    have hcalls : ∀ (g : Generator) (gap : Gap), (g.cut gap).waitingOf m =
        (g.waitingOf m).filter fun h => !gap.removed.contains h := fun g gap => by
      simp only [waitingOf, Generator.cut, get?_map]
      cases g.waiting.get? m <;> rfl
    simp only [hcalls, mem_filter, ha.waiting]
    constructor
    · rintro ⟨⟨h, hh, rfl⟩, hkept⟩
      exact ⟨h, ⟨hh, by rwa [hg.removed] at hkept⟩, rfl⟩
    · rintro ⟨h, ⟨hh, hkept⟩, rfl⟩
      exact ⟨⟨h, hh, rfl⟩, by rwa [hg.removed]⟩
  recorded := ha.recorded
  floor := ha.floor
  fresh := ha.fresh
  context := ha.context.of_context rfl rfl

end

lemma linkFor (t : Target) (source stale : Handle) :
    Generator.linkFor (ρ source) (t.rename ρ) (ρ stale) = (Generator.linkFor source t stale).rename ρ := by
  cases t with
  | handlers e f =>
    have hslot : e.map ρ = some (ρ stale) ↔ e = some stale := by
      cases e <;> simp
    simp only [Generator.linkFor, Target.rename, hslot]
    split <;> rfl
  | _ => rfl

lemma moveRefs (successor : Option Handle) (h : Handle) (ss : List Handle) (t : Target) :
    Generator.moveRefs (successor.map ρ) (ρ h) (ss.map ρ) (t.rename ρ) =
      ((Generator.moveRefs successor h ss t).1.rename ρ,
        (Generator.moveRefs successor h ss t).2.map (rename ρ)) := by
  induction ss generalizing t with
  | nil => rfl
  | cons s ss ih =>
    simp only [map_cons, Generator.moveRefs, ← Target.rename_retarget, ih, linkFor, Option.isNone_map,
      map_append]
    split <;> rfl

variable (ha : Alike ρ b g g') (hg : gap.Alike ρ gap') {i i' : Instruction}
include ha hg

lemma orphanOf (hi : i.Same ρ i') (hr : i.opcode.role ≠ .plain) :
    Generator.orphanOf (gap'.orphans g') i' = Generator.orphanOf (gap.orphans g) i := by
  unfold Generator.orphanOf
  rw [hi.opcode, hi.target_eq hr]
  cases i.opcode.isCall with
  | false => rfl
  | true =>
    cases i.target with
    | code d => exact get?_of_map_keys ρ.injective (ha.orphans hg) d
    | _ => rfl

/-- What relinking makes of a control transfer is the same but for handles. -/
lemma moved (hi : i.Same ρ i') (hr : i.opcode.role ≠ .plain) (h : Handle) :
    newTarget gap' (gap'.orphans g') (ρ h) i' = (newTarget gap (gap.orphans g) h i).rename ρ ∧
      newLinks gap' (gap'.orphans g') (ρ h) i' = (newLinks gap (gap.orphans g) h i).map (rename ρ) := by
  have hstale : staleRefs gap' i' = (staleRefs gap i).map ρ := by
    rw [staleRefs, staleRefs, hi.refs, filter_map]
    simp only [Function.comp_def, hg.removed]
  simp only [newTarget, newLinks, ha.orphanOf hg hi hr]
  cases Generator.orphanOf (gap.orphans g) i with
  | some m => exact ⟨rfl, rfl⟩
  | none =>
    simp only [hstale, hg.successor, hi.target_eq hr, moveRefs, and_self]

lemma relink : Alike ρ b (g.relink gap) (g'.relink gap') := by
  have hcut := ha.cut hg
  have hrel := @relink_relinked g gap ha.code.laid
  have hrel' := @relink_relinked g' gap' ha.code.laid'
  -- The two instructions that are looked at together.
  have hpair : ∀ x ∈ g.code.linked, ∃ i i', g.code.instruction? x = some i ∧ g'.code.instruction? (ρ x) = some i' ∧
      i.Same ρ i' ∧ i.opcode.role ≠ .plain := fun x hx => by
    obtain ⟨hm, i, hi, hr⟩ := (mem_linked ha.code.laid).1 hx
    obtain ⟨i', hi', hs⟩ := ha.code.known x i (.inl hm) hi
    exact ⟨i, i', hi, hi', hs, hr⟩
  refine {
    code := {
      laid := hrel.laid hcut.code.laid
      laid' := hrel'.laid hcut.code.laid'
      next := by rw [hrel.next, hrel'.next]; exact hcut.code.next
      live := by rw [hrel.live, hrel'.live]; exact hcut.code.live
      known := fun x j hx hj => ?known }
    base := by rw [hrel.next]; exact hcut.base
    pending := ?pending
    entries := by rw [hrel.entries, hrel'.entries]; exact hcut.entries
    waiting := fun m x => ?waiting
    recorded := by
      rw [stack_of_context hrel.context, stack_of_context hrel'.context]
      exact hcut.recorded
    floor := by
      rw [stack_of_context hrel.context]
      exact hcut.floor
    fresh := by
      rw [hrel.next, stack_of_context hrel.context]
      exact hcut.fresh
    context := hcut.context.of_context hrel.context hrel'.context }
  case known =>
    rw [hrel.live] at hx
    by_cases hm : x ∈ g.code.linked
    · obtain ⟨i, i', hi, hi', hs, hr⟩ := hpair x hm
      obtain rfl := Option.some.inj ((hrel.mem x hm i hi).symm.trans hj)
      refine ⟨_, hrel'.mem (ρ x) (ha.code.mem_linked.2 hm) i' hi', ?_⟩
      rw [(ha.moved hg hs hr x).1]
      exact hs.setTarget _
    · rw [hrel.other x hm] at hj
      rw [hrel'.other (ρ x) fun h => hm (ha.code.mem_linked.1 h)]
      exact hcut.code.known x j hx hj
  case pending =>
    rw [hrel.pending, hrel'.pending, hcut.pending, ha.code.linked_eq, map_append, flatMap_map, map_flatMap]
    congr 1
    rw [flatMap_def, flatMap_def]
    refine congrArg flatten (map_congr_left fun x hx => ?_)
    obtain ⟨i, i', hi, hi', hs, hr⟩ := hpair x hx
    have hlinks : ∀ {g : Generator} {gap : Gap} {x : Handle} {i : Instruction}, g.code.instruction? x = some i →
        (g.cut gap).linksFrom gap (gap.orphans g) x = newLinks gap (gap.orphans g) x i := fun {g gap x i} hi => by
      rw [linksFrom, show (g.cut gap).code.instruction? x = some i from hi, Option.map_some, Option.getD_some]
    rw [hlinks hi, hlinks hi']
    exact (ha.moved hg hs hr x).2
  case waiting =>
    have hagain : ∀ x ∈ g.code.linked, (g'.cut gap').waitsAgain (gap'.orphans g') m (ρ x) =
        (g.cut gap).waitsAgain (gap.orphans g) m x := fun x hx => by
      obtain ⟨i, i', hi, hi', hs, hr⟩ := hpair x hx
      rw [waitsAgain, waitsAgain, show (g.cut gap).code.instruction? x = some i from hi,
        show (g'.cut gap').code.instruction? (ρ x) = some i' from hi', Option.bind_some, Option.bind_some,
        ha.orphanOf hg hs hr]
    simp only [hrel.waitingOf, hrel'.waitingOf, mem_append, mem_filter, hcut.waiting, ha.code.linked_eq,
      mem_map]
    constructor
    · rintro (⟨h, hh, rfl⟩ | ⟨⟨h, hh, rfl⟩, hw⟩)
      · exact ⟨h, .inl hh, rfl⟩
      · exact ⟨h, .inr ⟨hh, hagain h hh ▸ hw⟩, rfl⟩
    · rintro ⟨h, hh | ⟨hh, hw⟩, rfl⟩
      · exact .inl ⟨h, hh, rfl⟩
      · exact .inr ⟨⟨h, hh, rfl⟩, (hagain h hh).trans hw⟩

end Relink

variable (ha : Alike ρ b g g')
include ha

/-- The generators with other code. -/
lemma recode {m m' : CodeMap} (hm : CodeMap.Alike ρ b.next m m')
    (hnext : m.nextHandle = g.code.nextHandle) : Alike ρ b { g with code := m } { g' with code := m' } where
  code := hm
  base := hnext ▸ ha.base
  pending := ha.pending
  entries := ha.entries
  waiting := ha.waiting
  recorded := ha.recorded
  floor := ha.floor
  fresh := fun k => by rw [show CodeMap.nextHandle _ = _ from hnext]; exact ha.fresh k
  context := ha.context.of_context rfl rfl

lemma note (e e' : TraceEvent) : Alike ρ b (g.note e) (g'.note e') :=
  { ha with context := ha.context.of_context rfl rfl }

lemma removeSpan (start stop : Nat) : Alike ρ b (g.removeSpan start stop) (g'.removeSpan start stop) := by
  obtain ⟨hcode, hremoved⟩ := ha.code.removeSpan start stop
  have hnext : (g.code.removeSpan start stop).1.nextHandle = g.code.nextHandle := by
    rw [CodeMap.nextHandle, arena_removeSpan, CodeMap.nextHandle]
  have hcut := ha.recode hcode hnext
  simp only [Generator.removeSpan, hremoved, isEmpty_map, ha.code.atStart?_eq]
  split
  · exact hcut
  · refine relink (hcut.note _ _) ⟨fun h => ?_, rfl⟩
    rw [Bool.eq_iff_iff]
    simp

lemma removeInstruction (h : Handle) : Alike ρ b (g.removeInstruction h) (g'.removeInstruction (ρ h)) := by
  rw [Generator.removeInstruction, Generator.removeInstruction, ha.code.start?_eq, ha.code.last?_eq]
  split
  · exact ha.removeSpan _ _
  · exact ha

lemma removeFlags (breaks : List Break) :
    Alike ρ b (g.removeFlags breaks) (g'.removeFlags (breaks.map (Break.rename ρ))) := by
  induction breaks generalizing g g' with
  | nil => exact ha
  | cons x breaks ih => exact ih (ha.removeInstruction x.flag)

lemma moveTest (first last : Handle) : Alike ρ b (g.moveTest first last) (g'.moveTest (ρ first) (ρ last)) := by
  rw [Generator.moveTest, Generator.moveTest, ha.code.start?_eq, ha.code.last?_eq]
  generalize (g.code.start? first).getD 0 = start
  generalize (g.code.last? last).getD 0 = stop
  have hnext : (g.code.relocate start stop).1.nextHandle = g.code.nextHandle := by
    rw [CodeMap.nextHandle, arena_relocate, CodeMap.nextHandle]
  have hmoved := ha.recode (ha.code.relocate start stop) hnext
  dsimp only
  cases (g.code.relocate start stop).2 <;> cases (g'.code.relocate start stop).2
  · exact hmoved
  · exact { hmoved with context := hmoved.context.of_context rfl rfl }
  · exact { hmoved with context := hmoved.context.of_context rfl rfl }
  · exact hmoved.note _ _

lemma lastPush?_eq (q : Opcode → Bool) : g'.lastPush? q = (g.lastPush? q).map ρ := by
  have hpending : g'.pending.isEmpty = g.pending.isEmpty := by rw [ha.pending, isEmpty_map]
  have hfree : ∀ x, (g'.code.linked.all fun h => !(((g'.code.target? h).map Target.handles).getD []).contains (ρ x)) =
      g.code.linked.all fun h => !(((g.code.target? h).map Target.handles).getD []).contains x := fun x => by
    rw [ha.code.linked_eq, all_map, Bool.eq_iff_iff, all_eq_true, all_eq_true]
    refine forall₂_congr fun h hh => ?_
    obtain ⟨hm, -⟩ := (mem_linked ha.code.laid).1 hh
    rw [Function.comp_apply, ha.code.target?_eq (.inl hm)]
    cases g.code.target? h <;> simp
  simp only [lastPush?, detachable?, ha.code.back?_eq]
  cases hb : g.code.back? with
  | none => rfl
  | some x =>
    have hx : x ∈ g.code.live := by
      rw [back?_eq] at hb
      exact mem_of_getLast? hb
    obtain ⟨i, hi⟩ := ha.code.laid.instruction?_isSome hx
    obtain ⟨i', hi', hs⟩ := ha.code.known x i (.inl hx) hi
    simp only [Option.map_some, Option.filter_some, hpending, hfree]
    split
    · simp only [Option.filter_some, hi, hi', Option.any_some, hs.opcode]
      split <;> rfl
    · rfl

end Alike

end Generator

end NeoScript
