import NeoScript.Proofs.Generator.Ending

/-!
# What operations leave alone

No operation changes the symbols or the options of a generator, and none forgets a token, whether it succeeds or not.
An operation that succeeds has opened as many regions as constructs, and closed as many.
-/

namespace NeoScript

open Generator List

namespace Generator

/-- What a generator was started with. -/
def settings (g : Generator) : SymbolTable × Options := (g.symbols, g.options)

/-! ### Links and removals -/

section Context

variable (g : Generator)

lemma settings_of_context {g g' : Generator} (h : g'.context = g.context) : g'.settings = g.settings :=
  (congrArg settings h :)

@[simp] lemma context_linkAll (ss : List Handle) : (g.linkAll ss).context = g.context := by
  induction ss generalizing g with
  | nil => rfl
  | cons s ss ih => exact ih _

@[simp] lemma context_resolveAll (d : Handle) : (g.resolveAll d).context = g.context :=
  context_resolveLinks _ _ _

lemma context_moveReference (gap : Gap) (h d : Handle) : (g.moveReference gap h d).context = g.context := by
  unfold moveReference
  split
  · rfl
  · dsimp only
    split <;> rfl

lemma context_moveReferences (gap : Gap) (orphans : Table Handle String) (h : Handle) :
    (g.moveReferences gap orphans h).context = g.context := by
  have hone : ∀ (ss : List Handle) (g : Generator),
      (ss.foldl (fun g s => g.moveReference gap h s) g).context = g.context := fun ss => by
    induction ss with
    | nil => exact fun g => rfl
    | cons s ss ih => exact fun g => (ih _).trans (g.context_moveReference gap h s)
  unfold moveReferences
  split
  · rfl
  · exact hone _ _

@[simp] lemma context_relink (gap : Gap) : (g.relink gap).context = g.context := by
  have hfold : ∀ (hs : List Handle) (orphans : Table Handle String) (g : Generator),
      (hs.foldl (fun g h => g.moveReferences gap orphans h) g).context = g.context := fun hs orphans => by
    induction hs with
    | nil => exact fun g => rfl
    | cons h hs ih => exact fun g => (ih _).trans (g.context_moveReferences gap orphans h)
  have hcut : (((g.forget gap).moveEntries gap).reopenEntry gap (gap.orphans (g.forget gap))).context = g.context := by
    rw [cut_eq]
    rfl
  exact (hfold _ _ _).trans hcut

@[simp] lemma context_removeSpan (start stop : Nat) : (g.removeSpan start stop).context = g.context := by
  unfold removeSpan
  dsimp only
  split
  · rfl
  · exact context_relink _ _

@[simp] lemma context_removeInstruction (h : Handle) : (g.removeInstruction h).context = g.context := by
  unfold removeInstruction
  split
  · exact context_removeSpan _ _ _
  · rfl

@[simp] lemma context_removeFlags (bs : List Break) : (g.removeFlags bs).context = g.context := by
  induction bs generalizing g with
  | nil => rfl
  | cons b bs ih => exact (ih _).trans (context_removeInstruction _ _)

@[simp] lemma context_leaveTries (levels : Nat) : (g.leaveTries levels).context = g.context := by
  induction levels generalizing g with
  | zero => rfl
  | succ levels ih => exact (ih _).trans (context_append _ _)

@[simp] lemma context_exitJump (levels : Nat) : (g.exitJump levels).1.context = g.context :=
  (context_append _ _).trans (context_leaveTries _ _)

@[simp] lemma context_closeTest (test jump : Handle) : (g.closeTest test jump).context = g.context := by
  unfold closeTest moveTest
  split
  · exact context_setTarget _ _ _
  · dsimp only
    split <;> exact context_resolveAll _ _

@[simp] lemma context_emitCall (name : String) : (g.emitCall name).context = g.context := by
  unfold emitCall
  split
  · exact context_append _ _
  · dsimp only
    split <;> exact context_append _ _

lemma context_emitCall? (name : Option String) : (g.emitCall? name).context = g.context := by
  cases name with
  | none => rfl
  | some name => exact context_emitCall g name

end Context

/-! ### Regions -/

/-- The number of open constructs that have a region of their own. -/
def regions (g : Generator) : Nat := g.branches.length + g.loops.length

/-- Besides the region of the method each such construct has one. -/
def Balanced (g : Generator) : Prop := g.scopes.length = g.regions + 1

/-- Symbols and options are kept, and tokens are only added. -/
structure Extends (g g' : Generator) : Prop where
  settings : g'.settings = g.settings
  tokens : g.tokens <+: g'.tokens

/-- Besides, as many regions were opened as constructs, and they know nothing. -/
structure Upkeep (g g' : Generator) : Prop extends Extends g g' where
  balanced : g.Balanced → g'.Balanced
  known : ∀ s ∈ g'.scopes, s = {} ∨ s ∈ g.scopes

/-- Besides, no region and no construct was opened or closed. -/
structure Level (g g' : Generator) : Prop extends Extends g g' where
  scopes : g'.scopes = g.scopes
  regions : g'.regions = g.regions

variable {g g' g'' : Generator} {P : Opcode → Prop} {p : Generator → Generator} {l : OpenLoop} {ls : List OpenLoop}

lemma Balanced.open (h : g.Balanced) (hs : g'.scopes.length = g.scopes.length + 1)
    (hr : g'.regions = g.regions + 1) : g'.Balanced := by
  rw [Balanced, hs, hr, h]

lemma Balanced.close (h : g.Balanced) (hs : g'.scopes.length = g.scopes.length - 1)
    (hr : g'.regions + 1 = g.regions) : g'.Balanced := by
  rw [Balanced, hs, h, hr]
  rfl

lemma Extends.refl (g : Generator) : Extends g g := ⟨rfl, prefix_rfl⟩

lemma Extends.trans (h : Extends g g') (h' : Extends g' g'') : Extends g g'' :=
  ⟨h'.settings.trans h.settings, h.tokens.trans h'.tokens⟩

lemma Upkeep.trans (h : Upkeep g g') (h' : Upkeep g' g'') : Upkeep g g'' :=
  ⟨h.toExtends.trans h'.toExtends, fun hb => h'.balanced (h.balanced hb),
    fun s hs => (h'.known s hs).elim .inl (h.known s)⟩

/-- A region was opened. -/
lemma known_cons (hs : g'.scopes = g.scopes) (hs' : g''.scopes = {} :: g'.scopes) :
    ∀ s ∈ g''.scopes, s = {} ∨ s ∈ g.scopes := fun s hm => by
  rw [hs', hs] at hm
  exact mem_cons.1 hm

/-- A region was closed. -/
lemma known_tail (hs : g'.scopes = g.scopes.tail) : ∀ s ∈ g'.scopes, s = {} ∨ s ∈ g.scopes := fun s hm => by
  rw [hs] at hm
  exact .inr (mem_of_mem_tail hm)

namespace Level

lemma refl (g : Generator) : Level g g := ⟨.refl g, rfl, rfl⟩

lemma trans (h : Level g g') (h' : Level g' g'') : Level g g'' :=
  ⟨h.toExtends.trans h'.toExtends, h'.scopes.trans h.scopes, h'.regions.trans h.regions⟩

lemma upkeep (h : Level g g') : Upkeep g g' :=
  ⟨h.toExtends, fun hb => by rw [Balanced, h.scopes, h.regions]; exact hb, fun _ hs => .inr (h.scopes ▸ hs)⟩

lemma of_context (h : g'.context = g.context) : Level g g' where
  settings := settings_of_context h
  tokens := by
    have htokens : g'.tokens = g.tokens := (congrArg Generator.tokens h :)
    exact htokens ▸ prefix_rfl
  scopes := (congrArg Generator.scopes h :)
  regions := by rw [Generator.regions, Generator.regions, branches_of_context h, loops_of_context h]

lemma append (h : Level g g') (i : Instruction) : Level g (g'.append i) := h.trans (of_context (context_append _ _))

lemma linkAll (h : Level g g') (ss : List Handle) : Level g (g'.linkAll ss) := h.trans (of_context (context_linkAll _ _))

lemma stack (h : Level g g') (s : ShadowStack) : Level g { g' with stack := s } :=
  ⟨⟨h.settings, h.tokens⟩, h.scopes, h.regions⟩

lemma popScope (h : Level g g') : Level g.popScope g'.popScope where
  settings := h.settings
  tokens := h.tokens
  scopes := congrArg tail h.scopes
  regions := h.regions

end Level

lemma kept_level : KeptByMoves P (fun _ => True) (Level g) where
  append _ h _ _ _ := h.append _
  snippet _ h _ := h.trans (.of_context (Sound.context_emitSnippet _ _))
  restoreStack _ _ h := h.stack _
  addToken _ _ h := h.trans ⟨⟨rfl, prefix_append _ _⟩, rfl, rfl⟩
  detach _ h _ _ := h.trans (.of_context (context_removeInstruction _ _))

lemma Move.level (hp : Move p) (g : Generator) : Level g (p g) :=
  hp.keeps (kept_level (P := fun _ => True)) (.refl g)

lemma Level.move (h : Level g g') (hp : Move p) : Level g (p g') := h.trans (hp.level g')

/-! ### Operations -/

/-- The operation keeps symbols, options and tokens, whatever its outcome, and regions if it succeeds. -/
def Steady {α : Type} (x : Emission α) : Prop := ∀ g, Ends x g (fun _ => Upkeep g) (Extends g)

namespace Steady

variable {α β : Type}

lemma pure (a : α) : Steady (pure a) := fun g => .pure (Level.refl g).upkeep

lemma throw (e : Fault) : Steady (throw e : Emission α) := fun g => .throw (.refl g)

lemma modify {f : Generator → Generator} (h : ∀ g, Upkeep g (f g)) : Steady (modify f) := fun g => .modify (h g)

lemma bind {x : Emission α} {f : α → Emission β} (hx : Steady x) (hf : ∀ a, Steady (f a)) : Steady (x >>= f) := by
  intro g
  have hfirst : Ends x g (fun _ => Upkeep g) (Extends g) := hx g
  exact hfirst.bind fun a g' hg' => (hf a g').mono (fun _ _ h => hg'.trans h) fun _ h => hg'.toExtends.trans h

lemma get {k : Generator → Emission α} (h : ∀ g, Steady (k g)) : Steady (get >>= k) := fun g => .get (h g g)

lemma ofOption (cause : CompileError) (x : Option α) : Steady (Emission.ofOption cause x) := by
  cases x with
  | some a => exact .pure a
  | none => exact .throw _

end Steady

lemma Straight.steady {α : Type} {x : Emission α} (hx : Straight P x) : Steady x := fun g =>
  (hx.keeps kept_level (Level.refl g)).mono (fun _ _ h => h.upkeep) fun _ h => h.toExtends

/-! ### Conditional statements -/

lemma level_trackJump (g : Generator) (test : JumpTest) : Level g ((g.emitJump test).track g.next 1 none) :=
  ((Level.refl g).append _).stack _

lemma upkeep_beginIf (g : Generator) : Upkeep g g.beginIf := by
  have h := level_trackJump g .ifFalse
  refine ⟨⟨h.settings, h.tokens⟩, fun hb => hb.open (congrArg (List.length · + 1) h.scopes) ?_,
    known_cons h.scopes rfl⟩
  rw [← h.regions]
  exact Nat.add_right_comm _ _ _

lemma length_clearScope (g : Generator) : g.clearScope.scopes.length = g.scopes.length := by
  unfold clearScope
  cases g.scopes <;> rfl

lemma known_clearScope (g : Generator) : ∀ s ∈ g.clearScope.scopes, s = {} ∨ s ∈ g.scopes := by
  unfold clearScope
  cases g.scopes with
  | nil => exact nofun
  | cons scope outer => exact fun s hs => (mem_cons.1 hs).imp_right (mem_cons_of_mem _)

lemma regions_popBranch {b : OpenBranch} {bs : List OpenBranch} (hb : g.branches = b :: bs) :
    ({ g with branches := bs } : Generator).regions + 1 = g.regions := by
  simp only [regions, hb, length_cons]
  omega

lemma steady_beginElse : Steady beginElse := by
  refine fun g => .beginElse ⟨rfl, prefix_rfl⟩ fun branch outer hb _ => ?_
  have h : Level { g with branches := outer }
      (({ g with branches := outer }.append (.unaimed .always)).linkNext branch.jump) :=
    .linkAll (.append (.refl _) _) [branch.jump]
  refine ⟨⟨h.settings, h.tokens⟩, fun hbal => ?_, fun s hs => ?_⟩
  · refine (length_clearScope _).trans ((congrArg List.length h.scopes).trans (hbal.trans (congrArg (· + 1) ?_)))
    rw [← regions_popBranch hb]
    exact (congrArg (· + 1) h.regions.symm).trans (Nat.add_right_comm _ _ _).symm
  · exact (known_clearScope _ s hs).imp_right fun hs => h.scopes ▸ hs

lemma steady_endIf : Steady endIf := by
  refine fun g => .endIf ⟨rfl, prefix_rfl⟩ fun branch outer hb => ?_
  exact ⟨⟨rfl, prefix_rfl⟩, fun hbal => hbal.close length_tail (regions_popBranch hb), known_tail rfl⟩

/-! ### Loops -/

lemma upkeep_openLoop (h : Level g g') (kind : LoopKind) (start : Handle) : Upkeep g (g'.openLoop kind start) := by
  refine ⟨⟨h.settings, h.tokens⟩, fun hb => hb.open (congrArg (List.length · + 1) h.scopes) ?_,
    known_cons h.scopes rfl⟩
  rw [← h.regions]
  rfl

lemma level_modifyLoop (h : Level g g') (f : OpenLoop → OpenLoop) : Level g (g'.modifyLoop f) := by
  refine ⟨⟨h.settings, h.tokens⟩, h.scopes, ?_⟩
  rw [← h.regions]
  unfold modifyLoop regions
  cases g'.loops <;> rfl

lemma steady_beginWhileBody : Steady beginWhileBody := by
  refine .get fun g => ?_
  split
  · exact .modify fun g => (level_modifyLoop ((level_trackJump g .ifTrue).linkAll [g.next]) _).upkeep
  · exact .throw _

/-- What closes a loop leaves its region. -/
lemma level_finishLoop (g : Generator) (loop : OpenLoop) (hasElse : Bool) :
    Level g.popScope (g.finishLoop loop hasElse) := by
  have h : Level g.popScope (g.popScope.restoreStack loop.stack) := (Level.refl _).stack _
  unfold finishLoop
  dsimp only
  refine Level.stack ?_ _
  split_ifs
  · have hflag := ((h.move (Move.stay.dropN loop.kind.kept)).move
      (Move.stay.op (.pushBool false) rfl 0 (some .bool))).linkAll (loop.breaks.map Break.jump)
    have hguard := hflag.trans (level_trackJump _ .ifTrue)
    exact ⟨⟨hguard.settings, hguard.tokens⟩, hguard.scopes, hguard.regions⟩
  · have hlinked := ((h.trans (.of_context (context_removeFlags _ loop.breaks))).move
      (Move.stay.dropN loop.kind.kept)).linkAll (loop.breaks.map Break.jump)
    exact ⟨⟨hlinked.settings, hlinked.tokens⟩, hlinked.scopes, hlinked.regions⟩
  · exact ((h.trans (.of_context (context_removeFlags _ loop.breaks))).move
      (Move.stay.dropN loop.kind.kept)).linkAll (loop.breaks.map Break.jump)

lemma regions_popLoop (hl : g.loops = l :: ls) : ({ g with loops := ls } : Generator).regions + 1 = g.regions := by
  simp only [regions, hl, length_cons]
  omega

/-- Closing a loop closes its region. -/
lemma upkeep_closeLoop (hl : g.loops = l :: ls) (h : Level { g with loops := ls }.popScope g') : Upkeep g g' := by
  refine ⟨⟨h.settings, h.tokens⟩, fun hb => hb.close ((congrArg List.length h.scopes).trans length_tail) ?_,
    known_tail h.scopes⟩
  rw [h.regions]
  exact regions_popLoop hl

lemma steady_endWhile (hasElse : Bool) : Steady (endWhile hasElse) := by
  refine fun g => .endWhile ⟨rfl, prefix_rfl⟩ fun loop outer j test hl _ _ => ?_
  have hclosed : Level { g with loops := outer } (({ g with loops := outer }.closeTest test j).pointAll loop.continues test) :=
    (Level.of_context (context_closeTest _ _ _)).trans (.of_context (context_pointAll _ _ _))
  exact upkeep_closeLoop hl (hclosed.popScope.trans (level_finishLoop _ _ _))

lemma upkeep_beginIndexed (h : Level g g') (t : ValueType) : Upkeep g (g'.beginIndexed t) := by
  have hindex := h.move (Move.stay.op (.push 0) rfl 0 (some .nonNegInt))
  refine Upkeep.trans ?_ ((Move.stay.pushType _).level _).upkeep
  exact upkeep_openLoop ((hindex.append _).trans (.of_context (Sound.context_emitSnippet _ _))) _ _

lemma upkeep_beginIterated (g : Generator) (t : ValueType) : Upkeep g (g.beginIterated t) := by
  have hbody := ((Level.refl g).append { opcode := .jump .always false }).move
    ((Move.stay.emit .dup rfl).callService .iteratorValue 0 none)
  exact (upkeep_openLoop hbody _ _).trans ((Move.stay.pushType _).level _).upkeep

lemma steady_beginFor : Steady beginFor := by
  refine .get fun g => ?_
  split
  · exact .modify fun g => upkeep_beginIndexed ((Move.stay.op .keys rfl 1 _).level g) _
  · exact .modify fun g => upkeep_beginIterated g _
  · split_ifs
    · exact .modify fun g => upkeep_beginIndexed (.refl g) _
    · exact .throw _

lemma level_closeFor {loop : OpenLoop} {body : Handle} {advance : Generator → Handle → Generator} (g : Generator)
    (ha : Advancing loop.kind body advance) (hasElse : Bool) : Level g.popScope (g.closeFor loop body hasElse advance) := by
  obtain ⟨p, q, hp, hq, hadvance⟩ := ha.moves
  have hlinked : Level g ((g.restoreStack loop.stack).linkAll loop.continues) := ((Level.refl g).stack _).linkAll _
  have hmoved := ((hlinked.move hp).linkAll [loop.startJump]).move hq
  unfold closeFor
  rw [hadvance]
  have hback := hmoved.append { opcode := .jump .ifTrue false, target := .code body }
  exact (hback.stack _).popScope.trans (level_finishLoop _ _ _)

lemma steady_endFor (hasElse : Bool) : Steady (endFor hasElse) := fun _ =>
  .endFor ⟨rfl, prefix_rfl⟩ fun _ _ _ _ hl ha => upkeep_closeLoop hl (level_closeFor _ ha hasElse)

lemma steady_endLoopElse : Steady endLoopElse := by
  refine .get fun g => ?_
  split
  · exact .throw _
  · refine .modify fun g => ?_
    dsimp only
    split <;> exact ⟨⟨rfl, prefix_rfl⟩, id, fun _ hs => .inr hs⟩

lemma steady_innerLoop (exit : LoopExit) : Steady (innerLoop exit) := by
  refine .get fun g => ?_
  split
  · exact .throw _
  · split_ifs
    · exact .throw _
    · exact .pure _

lemma steady_breakLoop : Steady breakLoop := by
  refine .bind (steady_innerLoop _) fun e => .modify fun g => ?_
  have hflag := ((Move.stay.dropN e.1.kind.kept).op (.pushBool true) rfl 0 (some .bool)).level g
  have hexit := (hflag.trans (.of_context (context_exitJump _ e.2))).stack
  exact (level_modifyLoop (hexit _) _).upkeep

lemma steady_continueLoop : Steady continueLoop :=
  .bind (steady_innerLoop _) fun e => .modify fun g =>
    (level_modifyLoop (.of_context (context_exitJump g e.2)) _).upkeep

/-! ### Protected blocks -/

lemma level_tries (h : Level g g') (ts : List OpenTry) : Level g { g' with tries := ts } :=
  ⟨⟨h.settings, h.tokens⟩, h.scopes, h.regions⟩

lemma steady_popTry (stages : List TryStage) : Steady (popTry stages) :=
  .get fun _ => .bind (.modify fun g => (level_tries (.refl g) _).upkeep) fun _ => .ofOption _ _

lemma steady_beginHandler (name : Option String) : Steady (beginHandler name) := by
  refine .bind (steady_popTry _) fun block => .bind (.modify fun g => ?_) fun _ => ?_
  · have hleft := (Level.refl g).append { opcode := .tryLeave false }
    exact ⟨⟨hleft.settings, hleft.tokens⟩, hleft.upkeep.balanced, hleft.upkeep.known⟩
  · cases name with
    | some name => exact (straight_store (P := fun _ => True) name).steady
    | none => exact .modify fun g => (Move.stay.drop.level g).upkeep

lemma steady_endTry (hasFinalizer : Bool) : Steady (endTry hasFinalizer) := by
  refine .bind (steady_popTry _) fun block => .modify fun g => ?_
  have hleft := (Level.refl g).append { opcode := .tryLeave false }
  dsimp only
  split_ifs
  · exact ⟨⟨hleft.settings, hleft.tokens⟩, hleft.upkeep.balanced, hleft.upkeep.known⟩
  · exact ((hleft.stack _).linkAll _).upkeep

lemma steady_endFinalizer : Steady endFinalizer :=
  .bind (steady_popTry _) fun block => .modify fun g =>
    ((((Level.refl g).append { opcode := .finallyLeave }).linkAll block.leaves).stack _).upkeep

/-! ### Calls -/

lemma steady_invoke {c : Command} (hc : c.invokes = true) : Steady c.run := fun g => by
  refine (ends_invoke hc g).mono ?_ fun g' hg' => hg' ▸ .refl g
  rintro - g' ⟨p, hp, s, rfl⟩
  exact (((hp.level g).trans (.of_context (context_emitCall? _ _))).stack s).upkeep

end Generator

namespace Command

/-- Whether a command records the type of a variable. -/
def narrows : Command → Bool
  | narrow _ _ => true
  | _ => false

lemma steady_run {c : Command} (hn : c.narrows = false) : Steady c.run := by
  by_cases hc : c.isStraight = true
  · rcases straight_run hc with hx | ⟨name, t, rfl⟩
    · exact hx.steady
    · cases hn
  · cases c with
    | beginIf => exact .modify upkeep_beginIf
    | beginElse => exact steady_beginElse
    | endIf => exact steady_endIf
    | beginWhile => exact .modify fun g => upkeep_openLoop (((Level.refl g).append _).linkAll [g.next]) _ _
    | beginWhileBody => exact steady_beginWhileBody
    | endWhile hasElse => exact steady_endWhile hasElse
    | beginFor => exact steady_beginFor
    | endFor hasElse => exact steady_endFor hasElse
    | endLoopElse => exact steady_endLoopElse
    | breakLoop => exact steady_breakLoop
    | continueLoop => exact steady_continueLoop
    | beginTry => exact .modify fun g => (level_tries ((Level.refl g).append _) _).upkeep
    | beginHandler name => exact steady_beginHandler name
    | endTry hasFinalizer => exact steady_endTry hasFinalizer
    | endFinalizer => exact steady_endFinalizer
    | call _ | newObject _ => exact steady_invoke rfl
    | _ => exact absurd rfl hc

/-- Whatever is recorded, regions stay balanced. -/
lemma ends_run_balanced (c : Command) (g : Generator) :
    Ends c.run g (fun _ g' => Extends g g' ∧ (g.Balanced → g'.Balanced)) (Extends g) := by
  cases hn : c.narrows with
  | false => exact (steady_run hn g).mono (fun _ _ h => ⟨h.toExtends, h.balanced⟩) fun _ h => h
  | true =>
    cases c with
    | narrow name t =>
      refine .modify ⟨⟨rfl, prefix_rfl⟩, fun hb => Eq.trans ?_ hb⟩
      unfold Generator.narrow
      split <;> simp_all
    | _ => cases hn

lemma ends_runAll_balanced (cs : List Command) (g : Generator) :
    Ends (runAll cs) g (fun _ g' => Extends g g' ∧ (g.Balanced → g'.Balanced)) (Extends g) := by
  induction cs generalizing g with
  | nil => exact .pure ⟨.refl g, id⟩
  | cons c cs ih =>
    refine (c.ends_run_balanced g).bind fun _ g1 ⟨he, hb⟩ => (ih g1).mono (fun _ _ h => ?_) fun _ h => he.trans h
    exact ⟨he.trans h.1, fun hbal => h.2 (hb hbal)⟩

end Command

/-! ### Methods -/

namespace Generator

/-- Opening a method opens its region. -/
lemma ends_openMethod_level (name : String) (g : Generator) : Ends (openMethod name) g
      (fun _ g' => Extends g g' ∧ (g.scopes = [] → g.regions = 0 → g'.Balanced) ∧ g'.scopes = {} :: g.scopes)
      (Extends g) := by
  have hbegun : Level g.pushScope (g.opened name) := ⟨⟨rfl, prefix_rfl⟩, rfl, rfl⟩
  refine .openMethod (.refl g) (fun _ _ _ _ => ⟨hbegun.settings, hbegun.tokens⟩) fun _ method i? _ _ _ => ?_
  have h : Level g.pushScope ((g.opened name).appendAll i?.toList) := by
    cases i? with
    | none => exact hbegun
    | some i => exact hbegun.append i
  generalize (g.opened name).appendAll i?.toList = k at h
  refine ⟨⟨h.settings, h.tokens⟩, fun hs hr => ?_, h.scopes⟩
  have hregions : k.regions = 0 := h.regions.trans hr
  change k.scopes.length = k.regions + 1
  rw [h.scopes, hregions, pushScope, hs]
  rfl

/-- Closing a method closes its region. -/
lemma ends_closeMethod_level (g : Generator) :
    Ends closeMethod g (fun _ g' => Extends g g' ∧ (g.Balanced → g'.scopes = [])) (Extends g) := by
  refine .get ?_
  split
  · next frame hopen hframe =>
    simp only [hasOpenConstruct, Bool.not_eq_false', Bool.and_eq_true, List.isEmpty_iff] at hopen
    have hregions : g.regions = 0 := by rw [regions, hopen.1.1.1, hopen.1.1.2]; rfl
    refine .modify ?_
    dsimp only
    have hbegun : Level g { g with frame := none } := ⟨⟨rfl, prefix_rfl⟩, rfl, rfl⟩
    generalize { g with frame := none } = k at hbegun ⊢
    have hreturned : Level g (if k.endsWithReturn frame.name then k
        else (if frame.isInit then k.emit (.load .argument (some 0)) else k).emit .ret) := by
      split_ifs
      · exact hbegun
      · exact (hbegun.append _).append _
      · exact hbegun.append _
    refine ⟨⟨hreturned.settings, hreturned.tokens⟩, fun hb => eq_nil_of_length_eq_zero ?_⟩
    refine (congrArg List.length (hreturned.stack _).popScope.scopes).trans (length_tail.trans ?_)
    rw [show g.scopes.length = _ from hb, hregions]
  · exact .throw (.refl g)

end Generator

end NeoScript
