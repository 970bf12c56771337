import NeoScript.Generator.Emit
import NeoScript.Proofs.CodeMap.Span
import NeoScript.Proofs.Lookup

/-!
# What resolving links does

Resolving the pending links changes targets, entries and waiting calls, and nothing else. Which target an
instruction has afterwards depends on its role: a leap waits as a jump, the entry into a protected block for its
two handlers, a call for the entry of a method.
-/

namespace NeoScript

open List Option CodeMap Instruction Opcode Generator

variable {o : Opcode}

/-- The part that an instruction plays in the flow of control. -/
inductive Role where
  | plain
  /-- A jump or the end of a part of a protected block. -/
  | leap
  /-- The entry into a protected block. -/
  | protect
  | call
  deriving DecidableEq

/-- The part that the instructions of an opcode play. -/
def Opcode.role : Opcode → Role
  | jump _ _ | tryLeave _ => .leap
  | tryEnter _ => .protect
  | call _ => .call
  | _ => .plain

/-- The role of the instructions that a link is written into. -/
def Link.role : Link → Role
  | jump _ => .leap
  | handler _ | finalizer _ => .protect
  | entry _ => .call

lemma Opcode.hasTarget_eq_false : o.hasTarget = false ↔ o.role = .plain := by
  cases o with
  | load kind slot | store kind slot => cases slot <;> simp [hasTarget, operand, role]
  | _ => simp [hasTarget, operand, role]

lemma Opcode.hasTarget_eq_true : o.hasTarget = true ↔ o.role ≠ .plain := by
  rw [Ne, ← hasTarget_eq_false, Bool.not_eq_false]

lemma Opcode.isWide_of_plain (h : o.role = .plain) : o.isWide = false := by
  rw [isWide, hasTarget_eq_false.2 h, Bool.false_and]

lemma Opcode.isCall_eq_true : o.isCall = true ↔ o.role = .call := by
  cases o <;> simp [isCall, role]

/-- The instructions that an instruction refers to. -/
def Instruction.refs (i : Instruction) : List Handle := (i.target?.map Target.handles).getD []

lemma Instruction.refs_eq {i : Instruction} (hr : i.opcode.role ≠ .plain) : i.refs = i.target.handles := by
  rw [refs, target?, if_pos (hasTarget_eq_true.2 hr), map_some, getD_some]

lemma Instruction.target?_of_plain {i : Instruction} (hr : i.opcode.role = .plain) : i.target? = none := by
  rw [target?, hasTarget_eq_false.2 hr]
  rfl

lemma Instruction.role_of_mem_refs {i : Instruction} {d : Handle} (hd : d ∈ i.refs) : i.opcode.role ≠ .plain :=
  fun hr => by simp [refs, target?_of_plain hr] at hd

/-- The opcode accepts the operand, unless the instruction is too long for any script. -/
def Instruction.Proper (i : Instruction) : Prop := i.size < 2 ^ 32 → accepts i.opcode i.operand = true

namespace CodeMap

variable {m m' : CodeMap} {h : Handle} {i : Instruction}

/-- The opcode and the operand of a handle. -/
def shape? (m : CodeMap) (h : Handle) : Option (Opcode × Bytes) :=
  (m.instruction? h).map fun i => (i.opcode, i.operand)

/-- The role of the instruction of a handle. -/
def role? (m : CodeMap) (h : Handle) : Option Role := (m.shape? h).map fun e => e.1.role

lemma shape?_eq (hi : m.instruction? h = some i) : m.shape? h = some (i.opcode, i.operand) := by
  rw [shape?, hi, map_some]

lemma shape?_eq_none (hge : m.nextHandle ≤ h) : m.shape? h = none := by
  rw [shape?, instruction?, Array.getElem?_eq_none hge, map_none]

lemma role?_eq (hi : m.instruction? h = some i) : m.role? h = some i.opcode.role := by
  rw [role?, shape?_eq hi, map_some]

lemma role_of_role? {r : Role} (hi : m.instruction? h = some i)
    (hr : m.role? h = some r) : i.opcode.role = r := some.inj ((role?_eq hi).symm.trans hr)

lemma lt_next_of_role? {r : Role} (hr : m.role? h = some r) : h < m.nextHandle := by
  refine Nat.lt_of_not_le fun hge => ?_
  rw [role?, shape?_eq_none hge] at hr
  cases hr

lemma sizeOf_congr (hs : m'.shape? h = m.shape? h) : sizeOf m'.arena h = sizeOf m.arena h := by
  have hsize : ∀ m : CodeMap, sizeOf m.arena h = ((m.shape? h).map fun e => e.1.encodedSize e.2.length).getD 0 :=
    fun m => by
      rw [shape?, Option.map_map]
      rfl
  rw [hsize, hsize, hs]

/-- What the instruction of a handle is like, if all that is known of it is its shape. -/
lemma instruction?_of_shape? {o : Opcode} {bs : Bytes}
    (hs : m.shape? h = some (o, bs)) : ∃ t, m.instruction? h = some ⟨o, bs, t⟩ := by
  obtain ⟨i, hi, he⟩ := map_eq_some_iff.1 hs
  cases he
  exact ⟨i.target, hi⟩

@[simp] lemma shape?_setTarget (m : CodeMap) (h : Handle) (t : Target) : (m.setTarget h t).shape? = m.shape? := by
  funext x
  rw [shape?, shape?, instruction?_setTarget]
  split
  · rw [Option.map_map]
    rfl
  · rfl

lemma shape?_insert (m : CodeMap) (i : Instruction) (h : Handle) :
    (m.insert i).shape? h = if h = m.nextHandle then some (i.opcode, i.operand) else m.shape? h := by
  rw [shape?, instruction?_insert]
  split <;> rfl

lemma role?_congr (hs : m'.shape? h = m.shape? h) : m'.role? h = m.role? h := by
  rw [role?, role?, hs]

lemma role?_of_shape? (hs : m'.shape? = m.shape?) : m'.role? = m.role? :=
  funext fun h => role?_congr (congrFun hs h)

end CodeMap

namespace Generator

/-- What a generator holds besides code, links, entries and waiting calls. -/
def context (g : Generator) : Generator :=
  { g with code := {}, pending := [], entries := {}, waiting := {}, trace := {} }

section Context

variable {g g' : Generator}

variable (h : g'.context = g.context)
include h

lemma frame_of_context : g'.frame = g.frame := (congrArg frame h :)

lemma branches_of_context : g'.branches = g.branches :=
  (congrArg branches h :)

lemma loops_of_context : g'.loops = g.loops := (congrArg loops h :)

lemma stack_of_context : g'.stack = g.stack := (congrArg stack h :)

lemma tries_of_context : g'.tries = g.tries := (congrArg tries h :)

lemma scopes_of_context : g'.scopes = g.scopes := (congrArg scopes h :)

end Context

/-- The calls that wait for a method. -/
def waitingOf (g : Generator) (method : String) : List Handle := (g.waiting.get? method).getD []

lemma waitingOf_congr {g g' : Generator} (h : g'.waiting = g.waiting) : g'.waitingOf = g.waitingOf := by
  funext m
  rw [waitingOf, waitingOf, h]

variable (g : Generator)

/-! ### Single targets -/

section SetTarget

variable (s : Handle) (t : Target)

@[simp] lemma code_setTarget : (g.setTarget s t).code = g.code.setTarget s t := by
  simp only [setTarget]
  split <;> rfl

@[simp] lemma pending_setTarget : (g.setTarget s t).pending = g.pending := by
  simp only [setTarget]
  split <;> rfl

@[simp] lemma entries_setTarget : (g.setTarget s t).entries = g.entries := by
  simp only [setTarget]
  split <;> rfl

@[simp] lemma waiting_setTarget : (g.setTarget s t).waiting = g.waiting := by
  simp only [setTarget]
  split <;> rfl

@[simp] lemma context_setTarget : (g.setTarget s t).context = g.context := by
  simp only [setTarget]
  split <;> rfl

end SetTarget

/-- Only targets, entries and waiting calls are other than before. -/
structure Retargeted (g' : Generator) : Prop where
  context : g'.context = g.context
  pending : g'.pending = g.pending
  live : g'.code.live = g.code.live
  nextHandle : g'.code.nextHandle = g.code.nextHandle
  shape? : g'.code.shape? = g.code.shape?
  laid : g.code.Laid → g'.code.Laid

lemma Retargeted.trans {g g' g'' : Generator} (h : Retargeted g g') (h' : Retargeted g' g'') : Retargeted g g'' :=
  ⟨h'.context.trans h.context, h'.pending.trans h.pending, h'.live.trans h.live, h'.nextHandle.trans h.nextHandle,
    h'.shape?.trans h.shape?, fun hl => h'.laid (h.laid hl)⟩

lemma Retargeted.foldl {α : Type} {f : Generator → α → Generator} (h : ∀ g a, Retargeted g (f g a)) (as : List α) :
    Retargeted g (as.foldl f g) := by
  induction as generalizing g with
  | nil => exact ⟨rfl, rfl, rfl, rfl, rfl, id⟩
  | cons a as ih => exact (h g a).trans (ih _)

lemma retargeted_setTarget (s : Handle) (t : Target) : Retargeted g (g.setTarget s t) where
  context := g.context_setTarget s t
  pending := g.pending_setTarget s t
  live := by rw [code_setTarget, live_setTarget]
  nextHandle := by rw [code_setTarget, nextHandle_setTarget]
  shape? := by rw [code_setTarget, shape?_setTarget]
  laid := fun hl => by rw [code_setTarget]; exact hl.setTarget s t

/-! ### Many jumps to one instruction -/

section PointAll

variable (ss : List Handle) (d : Handle)

lemma retargeted_pointAll : Retargeted g (g.pointAll ss d) := .foldl g (fun g s => g.retargeted_setTarget s _) ss

@[simp] lemma pending_pointAll : (g.pointAll ss d).pending = g.pending := (g.retargeted_pointAll ss d).pending

@[simp] lemma context_pointAll : (g.pointAll ss d).context = g.context := (g.retargeted_pointAll ss d).context

@[simp] lemma live_pointAll : (g.pointAll ss d).code.live = g.code.live := (g.retargeted_pointAll ss d).live

@[simp] lemma nextHandle_pointAll : (g.pointAll ss d).code.nextHandle = g.code.nextHandle :=
  (g.retargeted_pointAll ss d).nextHandle

@[simp] lemma shape?_pointAll : (g.pointAll ss d).code.shape? = g.code.shape? := (g.retargeted_pointAll ss d).shape?

@[simp] lemma entries_pointAll : (g.pointAll ss d).entries = g.entries := by
  induction ss generalizing g with
  | nil => rfl
  | cons s ss ih => exact (ih _).trans (g.entries_setTarget _ _)

@[simp] lemma waiting_pointAll : (g.pointAll ss d).waiting = g.waiting := by
  induction ss generalizing g with
  | nil => rfl
  | cons s ss ih => exact (ih _).trans (g.waiting_setTarget _ _)

lemma instruction?_pointAll (h : Handle) : (g.pointAll ss d).code.instruction? h =
      if h ∈ ss then (g.code.instruction? h).map fun i => { i with target := .code d }
      else g.code.instruction? h := by
  induction ss generalizing g with
  | nil => rfl
  | cons s ss ih =>
    change ((g.setTarget s (.code d)).pointAll ss d).code.instruction? h = _
    rw [ih, code_setTarget, instruction?_setTarget]
    by_cases hs : h = s
    · subst hs
      simp [Option.map_map, Function.comp_def]
    · simp [hs]

end PointAll

/-! ### Links -/

section Resolve

variable (d : Handle) (link : Link)

lemma retargeted_resolve : Retargeted g (g.resolve d link) := by
  cases link with
  | entry m =>
    have h := { g with waiting := g.waiting.erase m }.retargeted_pointAll ((g.waiting.get? m).getD []) d
    exact ⟨h.context, h.pending, h.live, h.nextHandle, h.shape?, h.laid⟩
  | _ => exact g.retargeted_setTarget _ _

lemma entries_resolve (m : String) :
    (g.resolve d link).entries.get? m = if link = .entry m then some d else g.entries.get? m := by
  cases link with
  | entry m' =>
    change ((pointAll _ _ d).entries.insert m' d).get? m = _
    rw [entries_pointAll, Table.get?_insert]
    by_cases hm : m = m'
    · simp [hm]
    · simp [hm, Ne.symm hm]
  | _ => simp [resolve]

lemma waitingOf_resolve (m : String) : (g.resolve d link).waitingOf m = if link = .entry m then [] else g.waitingOf m := by
  cases link with
  | entry m' =>
    change ((pointAll _ _ d).waiting.get? m).getD [] = _
    rw [waiting_pointAll, Table.get?_erase]
    by_cases hm : m = m'
    · simp [hm]
    · simp [hm, Ne.symm hm, waitingOf]
  | _ => simp [resolve, waitingOf]

end Resolve

/-- Keeps the promises of links, one after the other. -/
def resolveLinks (d : Handle) (links : List Link) : Generator := links.foldl (fun g link => g.resolve d link) g

lemma resolveAll_eq (d : Handle) : g.resolveAll d = { g with pending := [] }.resolveLinks d g.pending := rfl

section ResolveLinks

variable (d : Handle) (links : List Link)

@[simp] lemma resolveLinks_cons (link : Link) :
    g.resolveLinks d (link :: links) = (g.resolve d link).resolveLinks d links := rfl

lemma retargeted_resolveLinks : Retargeted g (g.resolveLinks d links) :=
  .foldl g (fun g link => g.retargeted_resolve d link) links

@[simp] lemma context_resolveLinks : (g.resolveLinks d links).context = g.context :=
  (g.retargeted_resolveLinks d links).context

@[simp] lemma pending_resolveLinks : (g.resolveLinks d links).pending = g.pending :=
  (g.retargeted_resolveLinks d links).pending

@[simp] lemma live_resolveLinks : (g.resolveLinks d links).code.live = g.code.live :=
  (g.retargeted_resolveLinks d links).live

@[simp] lemma nextHandle_resolveLinks : (g.resolveLinks d links).code.nextHandle = g.code.nextHandle :=
  (g.retargeted_resolveLinks d links).nextHandle

@[simp] lemma shape?_resolveLinks : (g.resolveLinks d links).code.shape? = g.code.shape? :=
  (g.retargeted_resolveLinks d links).shape?

lemma ite_mem_cons {α : Type} (link link' : Link) (a b : α) :
    (if link ∈ links then a else if link' = link then a else b) = if link ∈ link' :: links then a else b := by
  by_cases hl : link' = link
  · simp [hl]
  · simp [hl, Ne.symm hl]

lemma entries_resolveLinks (m : String) :
    (g.resolveLinks d links).entries.get? m = if .entry m ∈ links then some d else g.entries.get? m := by
  induction links generalizing g with
  | nil => rfl
  | cons link links ih => rw [resolveLinks_cons, ih, entries_resolve, ite_mem_cons]

lemma waitingOf_resolveLinks (m : String) :
    (g.resolveLinks d links).waitingOf m = if .entry m ∈ links then [] else g.waitingOf m := by
  induction links generalizing g with
  | nil => rfl
  | cons link links ih => rw [resolveLinks_cons, ih, waitingOf_resolve, ite_mem_cons]

variable {g links}

/-- Where no entry is resolved, entries and waiting calls stay. -/
lemma resolveLinks_of_not_mem (hn : ∀ m, .entry m ∉ links) :
    (g.resolveLinks d links).entries = g.entries ∧ (g.resolveLinks d links).waiting = g.waiting := by
  induction links generalizing g with
  | nil => exact ⟨rfl, rfl⟩
  | cons link links ih =>
    obtain ⟨he, hw⟩ := @ih (g.resolve d link) fun m hm => hn m (mem_cons_of_mem _ hm)
    cases link with
    | entry m => exact absurd mem_cons_self (hn m)
    | _ => exact ⟨he.trans (entries_setTarget _ _ _), hw.trans (waiting_setTarget _ _ _)⟩

end ResolveLinks

/-! ### Targets after resolving -/

/-- Every link and every waiting call has a source of the right role. -/
structure LinksTyped (links : List Link) : Prop where
  role : ∀ l ∈ links, ∀ s, l.source? = some s → g.code.role? s = some l.role
  waiting : ∀ m, ∀ s ∈ g.waitingOf m, g.code.role? s = some .call

/-- The target that a link gives to the instruction `h`, which had the target `t`. -/
def aim (d : Handle) (h : Handle) (t : Target) : Link → Target
  | .jump s => if h = s then .code d else t
  | .handler s => if h = s then .handlers (some d) (g.handlersOf s).2 else t
  | .finalizer s => if h = s then .handlers (g.handlersOf s).1 (some d) else t
  | .entry m => if h ∈ g.waitingOf m then .code d else t

lemma instruction?_resolve (d : Handle) (link : Link) (h : Handle) : (g.resolve d link).code.instruction? h =
      (g.code.instruction? h).map fun i => { i with target := g.aim d h i.target link } := by
  cases link with
  | entry m =>
    change (pointAll _ (g.waitingOf m) d).code.instruction? h = _
    rw [instruction?_pointAll]
    simp only [aim]
    split
    · rfl
    · simp
  | _ =>
    simp only [resolve, code_setTarget, instruction?_setTarget, aim]
    split <;> simp

lemma role?_resolve (d : Handle) (link : Link) : (g.resolve d link).code.role? = g.code.role? :=
  role?_of_shape? (g.retargeted_resolve d link).shape?

variable {g} {d h : Handle} {links : List Link} {i : Instruction} {e f : Option Handle} {x : Handle}

lemma LinksTyped.resolve {link : Link} (ht : g.LinksTyped (link :: links)) : (g.resolve d link).LinksTyped links where
  role := fun l hl s hs => by rw [role?_resolve]; exact ht.role l (mem_cons_of_mem _ hl) s hs
  waiting := fun m s hs => by
    rw [waitingOf_resolve] at hs
    split at hs
    · cases hs
    · rw [role?_resolve]
      exact ht.waiting m s hs

/-- A link leaves an instruction alone that is not its source and does not wait for its method. -/
lemma aim_eq_self {link : Link} {t : Target} (hsrc : link.source? ≠ some h) (hw : ∀ m, link = .entry m → h ∉ g.waitingOf m) :
    g.aim d h t link = t := by
  cases link with
  | entry m => simp [aim, hw m rfl]
  | jump s | handler s | finalizer s =>
    have hne : h ≠ s := fun e => hsrc (by simp [Link.source?, e])
    simp [aim, hne]

/-- A link leaves an instruction of another role alone. -/
lemma aim_eq_of_role_ne {link : Link} {t : Target} (ht : g.LinksTyped (link :: links)) {r : Role}
    (hr : g.code.role? h = some r) (hne : link.role ≠ r) : g.aim d h t link = t := by
  have hclash : g.code.role? h = some link.role → False := fun h' => hne (some.inj (h'.symm.trans hr))
  refine aim_eq_self (fun hsrc => hclash (ht.role link mem_cons_self h hsrc)) ?_
  rintro m rfl hm
  exact hclash (ht.waiting m h hm)

/-- An instruction that is no link's source and waits for no resolved entry stays as it is. -/
lemma instruction?_resolveLinks_other (hi : g.code.instruction? h = some i)
    (hsrc : ∀ l ∈ links, l.source? ≠ some h) (hw : ∀ m, .entry m ∈ links → h ∉ g.waitingOf m) :
    (g.resolveLinks d links).code.instruction? h = some i := by
  induction links generalizing g with
  | nil => exact hi
  | cons link links ih =>
    have haim : g.aim d h i.target link = i.target :=
      aim_eq_self (hsrc link mem_cons_self) fun m hm => hw m (hm ▸ mem_cons_self)
    refine ih ?_ (fun l hl => hsrc l (mem_cons_of_mem _ hl)) fun m hm hmem => ?_
    · rw [instruction?_resolve, hi, map_some, haim]
    · rw [waitingOf_resolve] at hmem
      split at hmem
      · cases hmem
      · exact hw m (mem_cons_of_mem _ hm) hmem

section

variable (ht : g.LinksTyped links) (hi : g.code.instruction? h = some i)
include ht hi

lemma instruction?_resolveLinks_leap (hr : i.opcode.role = .leap) : (g.resolveLinks d links).code.instruction? h =
      some { i with target := if .jump h ∈ links then .code d else i.target } := by
  induction links generalizing g i with
  | nil => exact hi
  | cons link links ih =>
    have hi' : (g.resolve d link).code.instruction? h =
        some { i with target := if link = .jump h then .code d else i.target } := by
      rw [instruction?_resolve, hi, map_some]
      cases link with
      | jump s => simp [aim, eq_comm]
      | _ => rw [aim_eq_of_role_ne ht (role?_eq hi) (by simp [hr, Link.role]), if_neg (by simp)]
    rw [resolveLinks_cons, ih ht.resolve hi' hr, ite_mem_cons]

lemma LinksTyped.source?_ne
    (hr : i.opcode.role = .call ∨ i.opcode.role = .plain) : ∀ l ∈ links, l.source? ≠ some h := fun l hl hsrc => by
  have hrole := (role?_eq hi).symm.trans (ht.role l hl h hsrc)
  cases l with
  | entry m => cases hsrc
  | _ => rcases hr with hr | hr <;> simp [hr, Link.role] at hrole

lemma instruction?_resolveLinks_uncalled (hr : i.opcode.role = .call) (hw : ∀ m, .entry m ∈ links → h ∉ g.waitingOf m) :
    (g.resolveLinks d links).code.instruction? h = some i :=
  instruction?_resolveLinks_other hi (ht.source?_ne hi (.inl hr)) hw

lemma instruction?_resolveLinks_called {m : String} (hm : .entry m ∈ links) (hw : h ∈ g.waitingOf m) :
    (g.resolveLinks d links).code.instruction? h = some { i with target := .code d } := by
  induction links generalizing g i m with
  | nil => cases hm
  | cons link links ih =>
    have hr : i.opcode.role = .call := role_of_role? hi (ht.waiting m h hw)
    rw [resolveLinks_cons]
    by_cases hnow : ∃ m, link = .entry m ∧ h ∈ g.waitingOf m
    · obtain ⟨m', rfl, hm'⟩ := hnow
      have hi' : (g.resolve d (.entry m')).code.instruction? h = some { i with target := .code d } := by
        rw [instruction?_resolve, hi, map_some]
        simp [aim, hm']
      -- the call has its target; should it wait elsewhere too, it gets the same target again
      by_cases hlater : ∃ m'', .entry m'' ∈ links ∧ h ∈ (g.resolve d (.entry m')).waitingOf m''
      · obtain ⟨m'', hm'', hw''⟩ := hlater
        have hagain := ih ht.resolve hi' hm'' hw''
        exact hagain
      · exact instruction?_resolveLinks_uncalled ht.resolve hi' hr fun m'' hm'' hw'' => hlater ⟨m'', hm'', hw''⟩
    · have hne : link ≠ .entry m := fun e => hnow ⟨m, e, hw⟩
      refine ih ht.resolve ?_ ((mem_cons.1 hm).resolve_left (Ne.symm hne)) ?_
      · rw [instruction?_resolve, hi, map_some,
          aim_eq_self (ht.source?_ne hi (.inl hr) link mem_cons_self) fun m' e hw' => hnow ⟨m', e, hw'⟩]
      · rwa [waitingOf_resolve, if_neg hne]

end

lemma handlersOf_eq (hi : g.code.instruction? h = some i) (hr : i.opcode.role = .protect)
    (hh : i.target = .handlers e f) : g.handlersOf h = (e, f) := by
  have htarget : i.opcode.hasTarget = true := hasTarget_eq_true.2 (by simp [hr])
  simp [handlersOf, CodeMap.target?, hi, Instruction.target?, htarget, hh]

/-- A handler of a block whose halves may have been given a new destination. -/
lemma mem_of_mem_handlers {p q : Prop} [Decidable p] [Decidable q]
    (hx : x ∈ (if p then some d else e).toList ++ (if q then some d else f).toList) : x = d ∨ x ∈ e.toList ++ f.toList := by
  simp only [mem_append, mem_toList] at hx ⊢
  rcases hx with hx | hx
  · split at hx
    · exact .inl (some.inj hx).symm
    · exact .inr (.inl hx)
  · split at hx
    · exact .inl (some.inj hx).symm
    · exact .inr (.inr hx)

lemma instruction?_resolveLinks_protect (ht : g.LinksTyped links)
    (hi : g.code.instruction? h = some i) (hr : i.opcode.role = .protect) (hh : i.target = .handlers e f) :
    (g.resolveLinks d links).code.instruction? h =
      some ⟨i.opcode, i.operand, .handlers (if .handler h ∈ links then some d else e)
        (if .finalizer h ∈ links then some d else f)⟩ := by
  induction links generalizing g i e f with
  | nil => simp [resolveLinks, hi, ← hh]
  | cons link links ih =>
    have hrole := role?_eq hi
    have hi' : (g.resolve d link).code.instruction? h =
        some ⟨i.opcode, i.operand, .handlers (if link = .handler h then some d else e)
          (if link = .finalizer h then some d else f)⟩ := by
      rw [instruction?_resolve, hi, map_some]
      simp only [some.injEq, Instruction.mk.injEq, true_and]
      cases link with
      | jump s | entry m =>
        simp [aim_eq_of_role_ne ht hrole (by simp [hr, Link.role] : _ ≠ i.opcode.role), hh]
      | handler s | finalizer s =>
        by_cases hs : h = s
        · subst hs
          simp [aim, handlersOf_eq hi hr hh]
        · simp [aim, hs, Ne.symm hs, hh]
    rw [resolveLinks_cons, ih ht.resolve hi' hr rfl, ite_mem_cons, ite_mem_cons]

/-- Whether a call waits for one of the entries. -/
def calledBy (g : Generator) (links : List Link) (h : Handle) : Bool :=
  links.any fun
    | .entry m => (g.waitingOf m).contains h
    | _ => false

lemma calledBy_iff : g.calledBy links h = true ↔ ∃ m, .entry m ∈ links ∧ h ∈ g.waitingOf m := by
  rw [calledBy, List.any_eq_true]
  constructor
  · rintro ⟨l, hl, hh⟩
    cases l with
    | entry m => exact ⟨m, hl, contains_iff_mem.1 hh⟩
    | _ => cases hh
  · exact fun ⟨m, hm, hh⟩ => ⟨.entry m, hm, contains_iff_mem.2 hh⟩

/-- The target that an instruction has once the links are resolved. -/
def aimedBy (g : Generator) (links : List Link) (d h : Handle) (i : Instruction) : Target :=
  match i.opcode.role with
  | .plain => i.target
  | .call => if g.calledBy links h then .code d else i.target
  | .leap => if .jump h ∈ links then .code d else i.target
  | .protect =>
    match i.target with
    | .handlers e f => .handlers (if .handler h ∈ links then some d else e) (if .finalizer h ∈ links then some d else f)
    | t => t

/-- **What resolving the pending links makes of an instruction.** -/
lemma instruction?_resolveAll (ht : g.LinksTyped g.pending) (hi : g.code.instruction? h = some i)
    (hp : i.opcode.role = .protect → (∀ l ∈ g.pending, l.source? ≠ some h) ∨ ∃ e f, i.target = .handlers e f) :
    (g.resolveAll d).code.instruction? h = some { i with target := g.aimedBy g.pending d h i } := by
  have ht' : ({ g with pending := [] } : Generator).LinksTyped g.pending := ⟨ht.role, ht.waiting⟩
  have hwait : i.opcode.role ≠ .call → ∀ m, h ∉ g.waitingOf m := fun hr m hm =>
    hr (role_of_role? hi (ht.waiting m h hm))
  rw [resolveAll_eq, aimedBy]
  cases hr : i.opcode.role with
  | plain =>
    exact instruction?_resolveLinks_other (g := { g with pending := [] }) hi (ht.source?_ne hi (.inr hr)) fun m _ =>
      hwait (by simp [hr]) m
  | leap => exact instruction?_resolveLinks_leap ht' hi hr
  | call =>
    dsimp only
    split_ifs with hc
    · obtain ⟨m, hm, hh⟩ := calledBy_iff.1 hc
      exact instruction?_resolveLinks_called ht' hi hm hh
    · exact instruction?_resolveLinks_uncalled ht' hi hr fun m hm hh => hc (calledBy_iff.2 ⟨m, hm, hh⟩)
  | protect =>
    rcases hp hr with hno | ⟨e, f, hh⟩
    · have hnot : ∀ l : Link, l.source? = some h → l ∉ g.pending := fun l hl hm => hno l hm hl
      rw [instruction?_resolveLinks_other (g := { g with pending := [] }) hi hno fun m _ => hwait (by simp [hr]) m]
      dsimp only
      split
      · next hh => rw [if_neg (hnot _ rfl), if_neg (hnot _ rfl), ← hh]
      · rfl
    · rw [instruction?_resolveLinks_protect ht' hi hr hh, hh]

/-- What an instruction then refers to. -/
lemma mem_refs_aimedBy (hx : x ∈ ({ i with target := g.aimedBy links d h i } : Instruction).refs) :
    x = d ∨ x ∈ i.refs := by
  by_cases hplain : i.opcode.role = .plain
  · have hsame : g.aimedBy links d h i = i.target := by rw [aimedBy, hplain]
    rw [hsame] at hx
    exact .inr hx
  · rw [refs_eq (by exact hplain)] at hx
    rw [refs_eq hplain]
    unfold aimedBy at hx
    split at hx
    · exact .inr hx
    · split at hx
      · exact .inl (mem_singleton.1 hx)
      · exact .inr hx
    · split at hx
      · exact .inl (mem_singleton.1 hx)
      · exact .inr hx
    · split at hx
      · next hh =>
        rw [hh]
        exact mem_of_mem_handlers hx
      · exact .inr hx

end Generator

end NeoScript
