import NeoScript.Proofs.Generator.Closing

/-!
# Constructs behind a state

`Follows b x g` says that code stands behind that of `b`, that it starts with the instruction `x`, and that every
record of an older instruction is still there. Once there is such code, the stack may be changed in every way, since
each change is on account of new code. Whatever a construct emits, links, moves or removes between its first
instruction and its end keeps this relation.
-/

namespace NeoScript.Generator

open List Option NeoScript.Break

variable {a b c g g' : Generator} {new more old old' : List Handle} {f? : Option String} {log log' : List (Handle × String)}
  {X Y : Handle → Prop} {x h : Handle}

lemma Beside.of_stack (hb : Beside b new g) (hlaid : g'.code.Laid) (hlive : g'.code.live = b.code.live ++ more)
    (hs : g'.stack = g.stack) : Beside b more g' := ⟨hlaid, hlive, by rw [hs]; exact hb.records⟩

/-! ### What is open -/

/-- The open constructs and regions. -/
def outline (g : Generator) :
    (Option Frame × List OpenBranch × List OpenLoop × List (Option Handle) × List OpenTry) × List Scope :=
  (g.constructs, g.scopes)

section Outline

variable (g : Generator)

lemma outline_of_context (h : g'.context = g.context) : g'.outline = g.outline := (congrArg outline h :)

@[simp] lemma outline_append (i : Instruction) : (g.append i).outline = g.outline :=
  outline_of_context g (context_append _ _)

@[simp] lemma outline_restoreStack (items : List ValueType) : (g.restoreStack items).outline = g.outline := rfl

@[simp] lemma outline_pushType (t : ValueType) : (g.pushType t).outline = g.outline := rfl

@[simp] lemma outline_track (after : Handle) (pops : Nat) (result : Option ValueType) :
    (g.track after pops result).outline = g.outline := rfl

@[simp] lemma outline_op (o : Opcode) (pops : Nat) (result : Option ValueType) :
    (g.op o pops result).outline = g.outline := outline_append g _

@[simp] lemma outline_appendAll (is : List Instruction) : (g.appendAll is).outline = g.outline := by
  induction is generalizing g with
  | nil => rfl
  | cons i is ih => exact (ih _).trans (outline_append g i)

@[simp] lemma outline_pushIndex (n : Nat) : (g.pushIndex n).outline = g.outline := outline_appendAll g _

@[simp] lemma outline_dup : g.dup.outline = g.outline := outline_append g _

@[simp] lemma outline_dropN (count : Nat) : (g.dropN count).outline = g.outline := by
  induction count generalizing g with
  | zero => rfl
  | succ count ih => exact (ih _).trans (outline_op g _ _ _)

@[simp] lemma outline_nipN (count : Nat) : (g.nipN count).outline = g.outline := by
  induction count generalizing g with
  | zero => rfl
  | succ count ih => exact (ih _).trans (outline_append g _)

@[simp] lemma outline_linkAll (ss : List Handle) : (g.linkAll ss).outline = g.outline :=
  outline_of_context g (context_linkAll _ _)

@[simp] lemma outline_leaveTries (levels : Nat) : (g.leaveTries levels).outline = g.outline := by
  induction levels generalizing g with
  | zero => rfl
  | succ levels ih => exact (ih _).trans (outline_append g _)

@[simp] lemma outline_exitJump (levels : Nat) : (g.exitJump levels).1.outline = g.outline :=
  (outline_append _ _).trans (outline_leaveTries g _)

lemma outline_advanceLoop {loop : OpenLoop} {body : Handle} {advance : Generator → Handle → Generator}
    (ha : Advancing loop.kind body advance) : (g.advanceLoop loop body advance).outline = g.outline := by
  have hadvance : ∀ g s, (advance g s).outline = g.outline := fun g s => by
    generalize loop.kind = kind at ha
    cases ha with
    | index =>
      rw [advanceIndex, outline_op, outline_op, outline_pushType, outline_op, outline_pushIndex, outline_dup]
      exact outline_op g .inc 1 (some .nonNegInt)
    | iterator => exact (outline_append _ _).trans (outline_append _ _)
  unfold advanceLoop
  dsimp only
  rw [outline_track, emitTarget, outline_append, hadvance, outline_linkAll, outline_restoreStack]

lemma eq_of_outline {g1 g2 : Generator} (h : g1.outline = g2.outline) :
    g1.branches = g2.branches ∧ g1.loops = g2.loops ∧ g1.elseGuards = g2.elseGuards ∧ g1.tries = g2.tries ∧
      g1.scopes = g2.scopes := by
  simp only [outline, constructs, Prod.mk.injEq] at h
  exact ⟨h.1.2.1, h.1.2.2.1, h.1.2.2.2.1, h.1.2.2.2.2, h.2⟩

/-- A protected block opened in both. -/
lemma outline_openTry {g1 g2 : Generator} (h : g1.outline = g2.outline) (t : OpenTry) :
    { g1 with tries := t :: g1.tries }.outline = { g2 with tries := t :: g2.tries }.outline :=
  (congrArg (fun o => ((o.1.1, o.1.2.1, o.1.2.2.1, o.1.2.2.2.1, t :: o.1.2.2.2.2), o.2)) h :)

lemma nextHandle_dropN (count : Nat) : g.code.nextHandle ≤ (g.dropN count).code.nextHandle := by
  induction count generalizing g with
  | zero => exact Nat.le_refl _
  | succ count ih =>
    have hdrop : g.drop.code.nextHandle = g.code.nextHandle + 1 := nextHandle_append g _
    exact Nat.le_trans (hdrop ▸ Nat.le_succ _) (ih g.drop)

/-- What the end of a loop leaves open: the innermost region is closed, and the `else` part is open if there is one. -/
lemma outline_finishLoop (loop : OpenLoop) (hasElse : Bool) :
    ∃ guards, (g.finishLoop loop hasElse).outline = { g.popScope with elseGuards := guards }.outline ∧
      if hasElse then ∃ o, guards = o :: g.elseGuards ∧ ∀ j, o = some j → g.code.nextHandle ≤ j
      else guards = g.elseGuards := by
  have hcode : (g.popScope.restoreStack loop.stack).code = g.code := rfl
  have hopen : (g.popScope.restoreStack loop.stack).outline = g.popScope.outline := rfl
  unfold Generator.finishLoop
  dsimp only
  generalize g.popScope.restoreStack loop.stack = g0 at hopen hcode
  have hset : ∀ {g1 : Generator} (o : Option Handle), g1.outline = g0.outline →
      { g1 with elseGuards := o :: g1.elseGuards }.outline = { g.popScope with elseGuards := o :: g.elseGuards }.outline := by
    intro g1 o h
    obtain ⟨hb, hl, he, ht, hs⟩ := eq_of_outline (h.trans hopen)
    have hframe : g1.frame = g.popScope.frame := congrArg (fun o => o.1.1) (h.trans hopen)
    simp only [outline, constructs, hb, hl, he, ht, hs, hframe]
    rfl
  by_cases htest : (hasElse && !loop.breaks.isEmpty) = true
  · rw [if_pos htest, (Bool.and_eq_true_iff.1 htest).1]
    have hlinked : (((g0.dropN loop.kind.kept).op (.pushBool false) 0 (some .bool)).linkAll
        (loop.breaks.map jump)).outline = g0.outline := by
      rw [outline_linkAll, outline_op, outline_dropN]
    have hnext : g.code.nextHandle ≤ (((g0.dropN loop.kind.kept).op (.pushBool false) 0 (some .bool)).linkAll
        (loop.breaks.map jump)).next := by
      rw [Sound.linkAll_eq, ← hcode]
      have hflag := nextHandle_append (g0.dropN loop.kind.kept) { opcode := .pushBool false }
      exact Nat.le_trans (nextHandle_dropN g0 _) (Nat.le_trans (Nat.le_succ _) (Nat.le_of_eq hflag.symm))
    generalize ((g0.dropN loop.kind.kept).op (.pushBool false) 0 (some .bool)).linkAll
      (loop.breaks.map jump) = g1 at hlinked hnext
    have hguard : ((g1.emitJump .ifTrue).track g1.next 1 none).outline = g0.outline :=
      (outline_append g1 _).trans hlinked
    exact ⟨_, hset (some g1.next) hguard, _, rfl, fun j hj => some.inj hj ▸ hnext⟩
  · rw [if_neg htest]
    have hlinked : (((g0.removeFlags loop.breaks).dropN loop.kind.kept).linkAll
        (loop.breaks.map jump)).outline = g0.outline := by
      rw [outline_linkAll, outline_dropN]
      exact outline_of_context g0 (context_removeFlags _ _)
    generalize ((g0.removeFlags loop.breaks).dropN loop.kind.kept).linkAll (loop.breaks.map jump) = g1 at hlinked
    cases hasElse with
    | true => exact ⟨_, hset none hlinked, none, rfl, by simp⟩
    | false => exact ⟨g.elseGuards, hlinked.trans hopen, rfl⟩

end Outline

/-- The code behind that of `b` starts with `x`, and the records of `b` are kept. -/
def Follows (b : Generator) (x : Handle) (g : Generator) : Prop :=
  ∃ new, new.head? = some x ∧ Ahead b new g ∧ Beside b new g

namespace Follows

lemma first (hl : g.code.Laid) (i : Instruction) : Follows g g.next (g.append i) := by
  refine ⟨[g.next], rfl, .append hl i, ?_⟩
  exact (Beside.refl hl).append i

lemma laid (hf : Follows b x g) : g.code.Laid := by
  obtain ⟨new, -, -, hb⟩ := hf
  exact hb.laid

lemma grown (hf : Follows b x g) : b.code.nextHandle ≤ g.code.nextHandle := by
  obtain ⟨new, -, ha, -⟩ := hf
  exact ha.grown

lemma fresh (hf : Follows b x g) : b.code.nextHandle ≤ x := by
  obtain ⟨new, hhead, ha, -⟩ := hf
  exact ha.fresh x (mem_of_head? hhead)

lemma mem_live (hf : Follows b x g) : x ∈ g.code.live := by
  obtain ⟨new, hhead, ha, -⟩ := hf
  rw [ha.live]
  exact mem_append_right _ (mem_of_head? hhead)

/-- Further code. -/
lemma onto (hf : Follows a x b) (hl : a.code.Laid) (ha : Ahead b new g) (hb : Beside b new g) : Follows a x g := by
  obtain ⟨old, hhead, ha0, hb0⟩ := hf
  have hne : old ≠ [] := by
    rintro rfl
    cases hhead
  refine ⟨old ++ new, ?_, ha0.onto ha hl hb0.laid hne, hb0.trans hb fun hnil => absurd hnil hne⟩
  obtain ⟨y, old, rfl⟩ := exists_cons_of_ne_nil hne
  exact hhead

section

variable (hf : Follows b x g)
include hf

/-- A change of the open constructs and regions. -/
lemma still (hc : g'.code = g.code) (hp : g'.pending = g.pending) (he : g'.entries = g.entries)
    (hw : g'.waiting = g.waiting) (hs : g'.stack = g.stack) (hframe : g'.frame = g.frame) : Follows b x g' := by
  obtain ⟨new, hhead, ha, hb⟩ := hf
  exact ⟨new, hhead, ha.still hc hp he hw hframe, hb.still hc hs⟩

lemma restoreStack (items : List ValueType) : Follows b x (g.restoreStack items) := by
  obtain ⟨new, hhead, ha, hb⟩ := hf
  refine ⟨new, hhead, ha.still rfl rfl rfl rfl rfl, hb.restoreStack fun hnil => ?_⟩
  subst hnil
  cases hhead

/-- A change of the stack without a record. -/
lemma setItems (items : List ValueType) : Follows b x { g with stack := { g.stack with items := items } } := by
  obtain ⟨new, hhead, ha, hb⟩ := hf
  exact ⟨new, hhead, ha.still rfl rfl rfl rfl rfl, hb.laid, hb.live, hb.records⟩

lemma append (hl : b.code.Laid) (i : Instruction) : Follows b x (g.append i) :=
  hf.onto hl (.append hf.laid i) ((Beside.refl hf.laid).append i)

lemma emitSnippet (hl : b.code.Laid) (s : Snippet) : Follows b x (g.emitSnippet s) := by
  obtain ⟨more, -, hb⟩ := (Beside.refl hf.laid).emitSnippet s
  have ha := Ahead.emitSnippet hf.laid s
  obtain rfl : more = _ := append_cancel_left (hb.live.symm.trans ha.live)
  exact hf.onto hl ha hb

lemma pushType (t : ValueType) : Follows b x (g.pushType t) :=
  hf.restoreStack (t :: g.stack.items)

lemma popTypes (count : Nat) : Follows b x (g.popTypes count) := by
  rw [popTypes_eq]
  split_ifs
  · exact hf
  · exact hf.restoreStack _

lemma track (hl : b.code.Laid) (i : Instruction) (pops : Nat) (result : Option ValueType) :
    Follows b x ((g.append i).track g.next pops result) := by
  rw [track_append]
  cases result with
  | none => exact (hf.append hl i).popTypes pops
  | some t => exact ((hf.append hl i).popTypes pops).pushType t

end

/-- The first instruction, with what it takes and leaves. -/
lemma firstOp (hl : g.code.Laid) (o : Opcode) (pops : Nat) (result : Option ValueType) :
    Follows g g.next (g.op o pops result) := by
  have happ := Follows.first hl { opcode := o }
  have htrack := track_append g { opcode := o } pops result
  change Follows g g.next ((g.append { opcode := o }).track g.next pops result)
  rw [htrack]
  cases result with
  | none => exact happ.popTypes pops
  | some t => exact (happ.popTypes pops).pushType t

section

variable (hf : Follows b x g) (hl : b.code.Laid)
include hf hl

lemma op (o : Opcode) (pops : Nat) (result : Option ValueType) :
    Follows b x (g.op o pops result) := hf.track hl _ pops result

lemma appendAll (is : List Instruction) : Follows b x (g.appendAll is) := by
  induction is generalizing g with
  | nil => exact hf
  | cons i is ih => exact ih (hf.append hl i)

lemma pushIndex (n : Nat) : Follows b x (g.pushIndex n) :=
  (hf.appendAll hl _).pushType _

lemma dup : Follows b x g.dup := (hf.append hl _).pushType _

lemma dropN (count : Nat) : Follows b x (g.dropN count) := by
  induction count generalizing g with
  | zero => exact hf
  | succ count ih => exact ih (hf.op hl .drop 1 none)

end

/-- Items dropped in front of an instruction. -/
lemma first_dropN (hl : g.code.Laid) (count : Nat) (i : Instruction) : Follows g g.next ((g.dropN count).append i) := by
  cases count with
  | zero => exact .first hl i
  | succ count => exact ((Follows.firstOp hl .drop 1 none).dropN hl count).append hl i

lemma firstOp_dropN (hl : g.code.Laid) (count : Nat) (o : Opcode) (pops : Nat) (result : Option ValueType) :
    Follows g g.next ((g.dropN count).op o pops result) := by
  cases count with
  | zero => exact .firstOp hl o pops result
  | succ count => exact ((Follows.firstOp hl .drop 1 none).dropN hl count).op hl o pops result

lemma nipN (hf : Follows b x g) (hl : b.code.Laid) (count : Nat) : Follows b x (g.nipN count) := by
  induction count generalizing g with
  | zero => exact hf
  | succ count ih =>
    apply ih
    have happ := hf.append hl { opcode := .nip }
    change Follows b x { g.append { opcode := .nip } with
      stack := (g.append { opcode := .nip }).stack.remove (some g.next) 1 }
    rw [ShadowStack.remove]
    split_ifs
    · have hrest := happ.restoreStack ((g.append { opcode := .nip }).stack.items.eraseIdx 1)
      rwa [Generator.restoreStack, back?_append] at hrest
    · exact happ

/-! ### Links -/

/-- New code that is there. -/
lemma mem (ha : Ahead b new g) (hl : b.code.Laid) (hm : h ∈ g.code.live) (hle : b.code.nextHandle ≤ h) : h ∈ new := by
  rw [ha.live, mem_append] at hm
  exact hm.resolve_left fun ho => Nat.lt_irrefl _ (Nat.lt_of_lt_of_le (hl.lt_next ho) hle)

lemma of_mem (ha : Ahead b new g) (hb : Beside b new g) (hl : b.code.Laid) (hm : h ∈ g.code.live)
    (hle : b.code.nextHandle ≤ h) : ∃ x, Follows b x g := by
  obtain ⟨x, new, rfl⟩ := exists_cons_of_ne_nil (ne_nil_of_mem (mem ha hl hm hle))
  exact ⟨x, x :: new, rfl, ha, hb⟩

section

variable (hf : Follows b x g)
include hf

lemma defer (hl : b.code.Laid) {l : Link} (hsrc : l.source? = some h) (hm : h ∈ g.code.live)
    (hle : b.code.nextHandle ≤ h) : Follows b x (g.defer l) := by
  obtain ⟨new, hhead, ha, hb⟩ := hf
  exact ⟨new, hhead, ha.defer (mem ha hl hm hle) hsrc, hb.still rfl rfl⟩

lemma linkNext (hl : b.code.Laid) (hm : h ∈ g.code.live) (hle : b.code.nextHandle ≤ h) :
    Follows b x (g.linkNext h) := hf.defer hl rfl hm hle

lemma linkAll (hl : b.code.Laid) {ss : List Handle} (hm : ∀ s ∈ ss, s ∈ g.code.live)
    (hle : ∀ s ∈ ss, b.code.nextHandle ≤ s) : Follows b x (g.linkAll ss) := by
  induction ss generalizing g with
  | nil => exact hf
  | cons s ss ih =>
    exact ih (hf.linkNext hl (hm s mem_cons_self) (hle s mem_cons_self))
      (fun s' hs' => hm s' (mem_cons_of_mem _ hs')) fun s' hs' => hle s' (mem_cons_of_mem _ hs')

/-- A link that was pending leads to the first instruction. -/
lemma target?_of_pending (hb : Sound c f? log Y old' b) (hp : .jump h ∈ b.pending) :
    g.code.target? h = some (.code x) := by
  obtain ⟨new, hhead, ha, -⟩ := hf
  obtain ⟨new, rfl⟩ := head?_eq_some_iff.1 hhead
  obtain ⟨hm, hrole⟩ := hb.links _ hp
  have hlive := hb.mem_live hm
  obtain ⟨i, hi⟩ := hb.laid.instruction?_isSome hlive
  have hleap : i.opcode.role = .leap := by
    rw [CodeMap.role?_eq hi] at hrole
    exact some.inj hrole
  have haim : b.aimedBy b.pending x h i = .code x := by simp [aimedBy, hleap, hp]
  have hcode := ha.code h hlive (.inl (by rw [hrole]; simp))
  rw [toward_cons, hb.instruction?_resolveAll hi, haim] at hcode
  exact target?_eq hcode (by simp [hleap])

lemma pointAll (hl : b.code.Laid) {ss : List Handle} (hm : ∀ s ∈ ss, s ∈ g.code.live)
    (hle : ∀ s ∈ ss, b.code.nextHandle ≤ s) (d : Handle) : Follows b x (g.pointAll ss d) := by
  obtain ⟨new, hhead, ha, hb⟩ := hf
  refine ⟨new, hhead, ha.pointAll hl (fun s hs => mem ha hl (hm s hs) (hle s hs)) d, ?_⟩
  refine hb.of_stack ((retargeted_pointAll _ _ _).laid hb.laid) ?_ (stack_of_context (context_pointAll _ _ _))
  rw [live_pointAll, hb.live]

lemma closeTest (hl : b.code.Laid) {test bodyJump : Handle} (htest : test ∈ g.code.live)
    (htest' : b.code.nextHandle ≤ test) (hne : x ≠ test) (hm : bodyJump ∈ g.code.live)
    (hle : b.code.nextHandle ≤ bodyJump) (hlaid : (g.closeTest test bodyJump).code.Laid) :
    Follows b x (g.closeTest test bodyJump) := by
  obtain ⟨new, hhead, ha, hb⟩ := hf
  have hhead' : new.head? ≠ some test := by
    rw [hhead]
    exact fun h => hne (some.inj h)
  obtain ⟨new', -, hhead1, ha1⟩ := ha.closeTest hl hb.laid (mem ha hl htest htest') hhead' (mem ha hl hm hle)
  exact ⟨new', hhead1.trans hhead, ha1, hb.of_stack hlaid ha1.live (stack_of_context (context_closeTest _ _ _))⟩

lemma removeFlags (hs : Sound c f? log X old g) (hb : Sound c f? log' Y old' b) {start : Handle}
    (hstart : start ∈ old) (hr : g.code.role? start = some .leap) {breaks : List Break}
    (hflags : ∀ e ∈ breaks, start < e.flag ∧ g.code.constant? e.flag = some true)
    (hnew : ∀ e ∈ breaks, b.code.nextHandle ≤ e.flag ∧ x ≠ e.flag) : Follows b x (g.removeFlags breaks) := by
  obtain ⟨new, hhead, ha, hbeside⟩ := hf
  obtain ⟨new', hhead', -, ha'⟩ := ha.removeFlags hs hb hstart hr hflags fun e he =>
    ⟨(hnew e he).1, by rw [hhead]; exact fun h => (hnew e he).2 (some.inj h)⟩
  obtain ⟨old1, hs1, -⟩ := hs.removeFlags hstart hr hflags
  exact ⟨new', hhead'.trans hhead, ha', hbeside.of_stack hs1.laid ha'.live (stack_of_context (context_removeFlags _ _))⟩

/-! ### Loops -/

/-- The end of a loop whose exits are behind `b`. -/
lemma finishLoop {loop : OpenLoop} (hb : Sound c f? log' Y old' b)
    (hs : Sound c f? log (fun x => x ∈ loop.breaks.map jump) old g) (hframe : g.frame.isSome)
    (hl : LoopSound old g.code loop) (hexits : ∀ h ∈ loop.breaks.map jump, h ∈ old ∧ g.code.role? h = some .leap)
    (hflags : ∀ e ∈ loop.breaks, b.code.nextHandle ≤ e.flag ∧ x ≠ e.flag)
    (hjumps : ∀ h ∈ loop.breaks.map jump, b.code.nextHandle ≤ h) (hasElse : Bool) :
    Follows b x (g.finishLoop loop hasElse) := by
  have hpop : Follows b x g.popScope := hf.still rfl rfl rfl rfl rfl rfl
  have hf0 : Follows b x (g.popScope.restoreStack loop.stack) := hpop.restoreStack _
  have hs0 : Sound c f? log (fun x => x ∈ loop.breaks.map jump) old (g.popScope.restoreStack loop.stack) :=
    hs.still rfl
  have hframe0 : (g.popScope.restoreStack loop.stack).frame.isSome := hframe
  have hl0 : LoopSound old (g.popScope.restoreStack loop.stack).code loop := hl
  have hexits0 : ∀ h ∈ loop.breaks.map jump,
      h ∈ old ∧ (g.popScope.restoreStack loop.stack).code.role? h = some .leap := hexits
  unfold Generator.finishLoop
  dsimp only
  generalize g.popScope.restoreStack loop.stack = g0 at hf0 hs0 hframe0 hl0 hexits0
  split_ifs with htest helse
  · obtain ⟨old1, hs1, hg1⟩ :=
      ((Move.stay.dropN loop.kind.kept).op (.pushBool false) rfl 0 (some .bool)).sound hs0 hframe0
    have hflag := (hf0.dropN hb.laid loop.kind.kept).op hb.laid (.pushBool false) 0 (some .bool)
    have hlinked := hflag.linkAll hb.laid (fun h hh => hs1.mem_live (hg1.leap (hexits0 h hh)).1) hjumps
    have hguard := hlinked.track hb.laid (.unaimed .ifTrue) 1 none
    apply Follows.restoreStack
    exact hguard.still rfl rfl rfl rfl rfl rfl
  all_goals
    obtain ⟨old1, hs1, hg1⟩ := hs0.removeFlags hl0.start.1 hl0.start.2 hl0.flags
    obtain ⟨old2, hs2, hg2⟩ := (Move.stay.dropN loop.kind.kept).sound hs1 (hg1.isSome hframe0)
    have hdrop := (hf0.removeFlags hs0 hb hl0.start.1 hl0.start.2 hl0.flags hflags).dropN hb.laid loop.kind.kept
    have hlinked := hdrop.linkAll hb.laid (fun h hh => hs2.mem_live (hg2.leap (hg1.leap (hexits0 h hh))).1) hjumps
  · apply Follows.restoreStack
    exact hlinked.still rfl rfl rfl rfl rfl rfl
  · exact hlinked.restoreStack _

/-- Leaving protected blocks. -/
lemma leaveTries (hl : b.code.Laid) (levels : Nat) : Follows b x (g.leaveTries levels) := by
  induction levels generalizing g with
  | zero => exact hf
  | succ levels ih =>
    refine ih ((hf.append hl _).linkNext hl ?_ hf.grown)
    rw [live_append]
    exact mem_append_right _ mem_cons_self

lemma exitJump (hl : b.code.Laid) (levels : Nat) : Follows b x (g.exitJump levels).1 :=
  (hf.leaveTries hl (levels - 1)).append hl _

end

/-- A jump out of protected blocks, as the first instruction. -/
lemma first_exitJump (hl : g.code.Laid) (levels : Nat) :
    Follows g g.next (g.exitJump levels).1 ∧ g.code.nextHandle ≤ (g.exitJump levels).2 := by
  rcases Nat.eq_zero_or_pos (levels - 1) with hz | hpos
  · have hnone : g.leaveTries (levels - 1) = g := by rw [hz]; rfl
    simp only [Generator.exitJump, hnone]
    exact ⟨.first hl _, Nat.le_refl _⟩
  · obtain ⟨n, hn⟩ := Nat.exists_eq_add_of_le' hpos
    have hleave := Follows.first hl ⟨.tryLeave false, [], .unresolved⟩
    have hlive : g.next ∈ (g.append ⟨.tryLeave false, [], .unresolved⟩).code.live := by
      rw [live_append]
      exact mem_append_right _ mem_cons_self
    have hall : Follows g g.next (g.leaveTries (levels - 1)) := by
      rw [hn]
      exact (hleave.linkNext hl hlive (Nat.le_refl _)).leaveTries hl n
    exact ⟨hall.append hl _, hall.grown⟩

lemma advance {kind : LoopKind} {body : Handle} {advance : Generator → Handle → Generator} (hf : Follows b x g)
    (hl : b.code.Laid) (ha : Advancing kind body advance) {start : Handle} (hm : start ∈ g.code.live)
    (hle : b.code.nextHandle ≤ start) : Follows b x (advance g start) := by
  cases ha with
  | index =>
    have hinc := hf.op hl .inc 1 (some .nonNegInt)
    have hlive : start ∈ (g.op .inc 1 (some .nonNegInt)).code.live := by
      change start ∈ (g.append _).code.live
      rw [live_append]
      exact mem_append_left _ hm
    have hpick := (((hinc.linkNext hl hlive hle).dup hl).pushIndex hl 2).op hl .pick 1 none
    exact ((hpick.pushType .any).op hl .size 1 (some .nonNegInt)).op hl .lt 2 (some .bool)
  | iterator => exact ((hf.linkNext hl hm hle).dup hl).track hl _ 1 (some .bool)

/-- Advancing a loop over a collection and jumping back. -/
lemma advanceLoop {loop : OpenLoop} {body : Handle} {advance : Generator → Handle → Generator} (hf : Follows b x g)
    (hl : b.code.Laid) (ha : Advancing loop.kind body advance) (hstart : loop.startJump ∈ g.code.live)
    (hfresh : b.code.nextHandle ≤ loop.startJump) (hm : ∀ j ∈ loop.continues, j ∈ g.code.live)
    (hle : ∀ j ∈ loop.continues, b.code.nextHandle ≤ j) : Follows b x (g.advanceLoop loop body advance) := by
  have hlinked : Follows b x ((g.restoreStack loop.stack).linkAll loop.continues) :=
    (hf.restoreStack loop.stack).linkAll hl hm hle
  have hlive : loop.startJump ∈ ((g.restoreStack loop.stack).linkAll loop.continues).code.live := by
    rwa [Sound.linkAll_eq]
  exact (hlinked.advance hl ha hlive hfresh).track hl ⟨.jump .ifTrue false, [], .code body⟩ 1 none

end Follows

end NeoScript.Generator
