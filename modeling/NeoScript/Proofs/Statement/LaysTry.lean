import NeoScript.Proofs.Statement.LaysFor

/-!
# Protected blocks lay out their code

A protected block is emitted part by part, and while this goes on the instructions that enter it and leave its parts have
no targets yet. `Parts` is the block so far, with these instructions, and `Complete` the block once they have their targets.
-/

namespace NeoScript

open Generator Command Instruction List Option Bool Sound Exits

variable {P : Opcode → Prop} {inLoop narrowing : Bool} {b c g g' g'' : Generator} {f? : Option String}
  {symbols : SymbolTable} {s : Statement} {w : Ways} {e e' : Exits} {new hs ss ss' : List Handle} {h j k x y : Handle}
  {φ : Handle → Option Instruction} {ρ : Handle → Handle}

/-! ### The parts of a protected block -/

lemma Stands.guarded (h : Stands inLoop w g) (hl : g'.loops = grow e g.loops) (ht : g'.tries.length = g.tries.length + 1) :
    Stands inLoop w.guarded g' := by
  refine ⟨by rw [hl, kept_grow]; exact h.total, fun hin => ?_⟩
  obtain ⟨l, outer, hloops, hk, hd⟩ := h.inner hin
  exact ⟨l.add e, outer, by rw [hl, hloops]; rfl, hk, by rw [ht, hd]; rfl⟩

lemma Ends.of_forall {α : Type} {x : Emission α} {Q : α → Generator → Prop} (h : ∀ a g', x.run g = .ok a g' → Q a g') :
    Ends x g Q fun _ => True := by
  unfold Ends
  split
  · next heq => exact h _ _ heq
  · trivial
  · trivial

/-- Taking off the innermost protected block. -/
lemma Ends.popTry {stages : List TryStage} {k : OpenTry → Emission Unit} {Q : Unit → Generator → Prop} {block : OpenTry}
    {outer : List OpenTry} (ht : g.tries = block :: outer) (h : Ends (k block) { g with tries := outer } Q fun _ => True) :
    Ends (popTry stages >>= k) g Q fun _ => True := by
  refine (ends_popTry _ trivial).bind ?_
  rintro t _ ⟨-, outer', ht', rfl⟩
  obtain ⟨rfl, rfl⟩ := List.cons.inj (ht'.symm.trans ht)
  exact h

namespace Generator

lemma adds_beginTry (hl : Legible g) :
    Adds g [g.next] g.beginTry ∧ (∀ x, g.beginTry.seen x g.next = some (protect none none)) ∧
      g.beginTry.loops = g.loops ∧ g.beginTry.tries = ⟨g.next, [], g.stack.items, .body⟩ :: g.tries := by
  have hself : ∀ x, (g.append (protect none none)).seen x g.next = some (protect none none) := fun x =>
    hl.seen_append_next nofun (by simp [Opcode.role])
  have hstack : (g.append (protect none none)).stack = g.stack := stack_of_context (context_append g _)
  obtain ⟨-, hlo, -, ht, -⟩ := eq_of_outline (outline_append g (protect none none))
  refine ⟨(Adds.append hl (protect none none)).still rfl rfl rfl, hself, hlo, ?_⟩
  change OpenTry.mk g.next [] (g.append (protect none none)).stack.items .body :: (g.append (protect none none)).tries = _
  rw [hstack, ht]

/-- The instruction at `j` leaves a part of a protected block. -/
structure PartLeft (g : Generator) (j : Handle) (g' : Generator) : Prop where
  adds : Adds g [j] g'
  jump : ∀ x, g'.seen x j = some ⟨.tryLeave false, [], .unresolved⟩
  loops : g'.loops = g.loops

lemma partLeft (hl : Legible g) (outer : List OpenTry) :
    PartLeft g g.next ({ g with tries := outer }.emitOpen (.tryLeave false)) ∧
      ({ g with tries := outer }.emitOpen (.tryLeave false)).tries = outer := by
  have hl0 : Legible { g with tries := outer } := hl.still rfl rfl rfl
  obtain ⟨-, hlo, -, ht, -⟩ := eq_of_outline (outline_append { g with tries := outer } ⟨.tryLeave false, [], .unresolved⟩)
  refine ⟨⟨(Adds.append hl0 ⟨.tryLeave false, [], .unresolved⟩).ofBase rfl rfl, fun x => ?_, hlo⟩, ht⟩
  exact hl0.seen_append_leap rfl

/-- `g'` reads like `g` except for the instruction at `h`. -/
structure Retargets (h : Handle) (g g' : Generator) : Prop where
  legible : Legible g'
  code : g'.code = g.code
  loops : g'.loops = g.loops
  seen : ∀ x, ∀ d, d ≠ h → g'.seen x d = g.seen x d

/-- The instruction that enters a protected block, as it is stored. -/
lemma instruction?_of_seen_protect {e f : Option Handle} (hs : g.seen x h = some (protect e f)) :
    ∃ e' f', g.code.instruction? h = some (protect e' f') ∧ e = (if .handler h ∈ g.pending then some x else e') ∧
      f = if .finalizer h ∈ g.pending then some x else f' := by
  obtain ⟨⟨o, bs, t⟩, hi, heq⟩ := map_eq_some_iff.1 hs
  obtain rfl : o = .tryEnter false := congrArg opcode heq
  obtain rfl : bs = [] := congrArg operand heq
  have ht : g.aimed x h ⟨.tryEnter false, [], t⟩ = .handlers e f := congrArg target heq
  cases t with
  | handlers e' f' =>
    obtain ⟨he, hf⟩ := Target.handlers.inj ht
    exact ⟨e', f', hi, he.symm, hf.symm⟩
  | unresolved => cases ht
  | code d => cases ht
  | scriptEnd => cases ht

lemma retargets_defer {l : Link} {e f : Option Handle} (hl : Legible g) (hm : h ∈ g.code.live)
    (hs : g.seen x h = some (protect e f)) (hlink : l = .handler h ∨ l = .finalizer h) : Retargets h g (g.defer l) := by
  obtain ⟨e', f', hi, -, -⟩ := instruction?_of_seen_protect hs
  have hr : g.code.role? h = some l.role := by rcases hlink with rfl | rfl <;> exact CodeMap.role?_eq hi
  have hsrc : l.source? = some h := by rcases hlink with rfl | rfl <;> rfl
  refine ⟨hl.defer hsrc hm hr fun i _ hi' => ?_, rfl, rfl, fun x d hd => seen_defer_of_ne ?_⟩
  · obtain rfl := some.inj (hi.symm.trans hi')
    exact ⟨e', f', rfl⟩
  · rw [hsrc]
    exact fun he => hd (some.inj he).symm

/-- The handler is what comes next. -/
lemma seen_defer_handler {e f : Option Handle} (hs : g.seen x h = some (protect e f)) :
    (g.defer (.handler h)).seen x h = some (protect (some x) f) := by
  obtain ⟨e', f', hi, -, rfl⟩ := instruction?_of_seen_protect hs
  have hi' : (g.defer (.handler h)).code.instruction? h = some (protect e' f') := hi
  rw [seen_of_protect hi' rfl rfl]
  simp [defer]

/-- The finalizer is what comes next. -/
lemma seen_defer_finalizer {e f : Option Handle} (hs : g.seen x h = some (protect e f)) :
    (g.defer (.finalizer h)).seen x h = some (protect e (some x)) := by
  obtain ⟨e', f', hi, rfl, -⟩ := instruction?_of_seen_protect hs
  have hi' : (g.defer (.finalizer h)).code.instruction? h = some (protect e' f') := hi
  rw [seen_of_protect hi' rfl rfl]
  simp [defer]

variable {block : OpenTry} {outer : List OpenTry}

/-- The body of a protected block ends, and the exception is taken care of. -/
structure HandlerEntered (P : Opcode → Prop) (block : OpenTry) (outer : List OpenTry) (g : Generator) (j : Handle)
    (g₁ g₂ : Generator) (hs : List Handle) (g' : Generator) : Prop where
  left : PartLeft g j g₁
  retargets : Retargets block.enter g₁ g₂
  enter : ∀ x, g₂.seen x block.enter = some (protect (some x) none)
  adds : Adds g₂ hs g'
  inner : ∀ {φ ρ x}, Reads φ ρ g' x hs → Inner P (coded φ hs) (ρ x)
  loops : g'.loops = g₂.loops
  tries : g'.tries = { block with leaves := block.leaves ++ [j], stage := .handler } :: outer

/-- What takes the exception off the stack. -/
lemma ends_takeException (hg : Going c f? symbols g)
    (hlast : ∀ d, g.code.live.getLast? = some d → g.code.constant? d ≠ some true)
    (name : Option String) : Ends (match name with
      | some name => store name
      | none => modify drop) g (fun _ g' => g'.constructs = g.constructs ∧ ∃ hs, Adds g hs g' ∧
        ∀ {φ ρ x}, Reads φ ρ g' x hs → Inner P (coded φ hs) (ρ x)) fun _ => True := by
  cases name with
  | some name =>
    refine .of_forall fun _ g' hrun => ?_
    have hran : Ran [.store name] g g' := ran_single.2 hrun
    have hlin : ∀ cmd ∈ [Command.store name], cmd.isLinear = true := by simp [isLinear, isStraight]
    obtain ⟨-, log, hr⟩ := id hg
    obtain ⟨-, old, hs⟩ := id hr
    obtain ⟨new, ha⟩ := ((ends_runAll_onward _ hlin hs hr (.refl g)).of_ok hran).1.exists_ahead hlast
    have hpart : PartLaid P [.store name] g new g' := partLaid hg hlin (by simp [Inlines]) hran ha
    exact ⟨hpart.constructs, new, hpart.adds, fun hread => (hpart.emits hread).inner⟩
  | none =>
    have hw := (Writes.refl hg.legible).op (o := .drop) rfl 1 none
    refine .modify ⟨congrArg Prod.fst (outline_op g .drop 1 none), [g.next], hw.toAdds, fun {φ ρ x} hread => ?_⟩
    have hlist : g.drop.listing x [g.next] = [(g.next, bare .drop)] := hw.reads x
    have hseen : g.drop.seen x g.next = some (bare .drop) :=
      (mem_listing (e := (g.next, bare .drop)).1 (by rw [hlist]; simp)).2
    have hcode : coded φ [g.next] = [(g.next, bare .drop)] := coded_cons (by
      rw [(hread _ mem_cons_self).2, hseen]
      rfl) []
    rw [hcode]
    intro d hd
    rw [mem_singleton.1 hd]
    exact .inl ⟨rfl, .inl (by simp)⟩

/-- Opens the handler behind the instruction at `j`, which leaves the body. -/
def catching (g : Generator) (block : OpenTry) (j : Handle) : Generator :=
  let g := (g.defer (.handler block.enter)).restoreStack block.stack
  { g with
    tries := { block with leaves := block.leaves ++ [j], stage := .handler } :: g.tries
    stack := g.stack.push none .any }

lemma enterHandler_eq (g : Generator) (block : OpenTry) :
    g.enterHandler block = (g.emitOpen (.tryLeave false)).catching block g.next := rfl

lemma ends_beginHandler_entered (hg : Going c f? symbols g) (ht : g.tries = block :: outer)
    (hm : block.enter ∈ g.code.live) (hs : ∀ x, g.seen x block.enter = some (protect none none)) (name : Option String) :
    Ends (beginHandler name) g (fun _ g' => ∃ g1 g2 hs, HandlerEntered P block outer g g.next g1 g2 hs g') fun _ => True := by
  obtain ⟨hsym, log, hr⟩ := id hg
  have hr2 := ready_enterHandler hr ht
  obtain ⟨hleft, htries⟩ := partLeft hg.legible outer
  have hsym1 : ({ g with tries := outer }.emitOpen (.tryLeave false)).symbols = g.symbols :=
    congrArg Prod.fst (settings_of_context (context_append { g with tries := outer } _))
  rw [beginHandler_eq]
  refine .popTry ht (.modify_bind ?_)
  rw [enterHandler_eq] at hr2 ⊢
  change Ready c f? log (catching _ block g.next) at hr2
  change Ends _ (catching _ block g.next) _ _
  generalize ({ g with tries := outer } : Generator).emitOpen (.tryLeave false) = g1 at *
  have hm1 := hleft.adds.old_mem_live hm
  have hs1 : ∀ x, g1.seen x block.enter = some (protect none none) := fun x => by rw [hleft.adds.seen x _ hm, hs]
  have hret := retargets_defer hleft.adds.legible hm1 (hs1 0) (.inl rfl)
  have hret2 : Retargets block.enter g1 (g1.catching block g.next) :=
    ⟨hret.legible.still rfl rfl rfl, hret.code, hret.loops, fun x d hd => (seen_still rfl rfl).trans (hret.seen x d hd)⟩
  have hlast : ∀ d, (g1.catching block g.next).code.live.getLast? = some d →
      (g1.catching block g.next).code.constant? d ≠ some true := fun d hd => by
    rw [hret2.code, hleft.adds.live, getLast?_concat] at hd
    rw [hret2.code, CodeMap.constant?, shape?_of_seen (some.inj hd ▸ hleft.jump 0)]
    simp [pushesConstant]
  have hg2 : Going c f? symbols (g1.catching block g.next) := ⟨hsym1.trans hsym, log, hr2⟩
  refine (ends_takeException (P := P) hg2 hlast name).mono ?_ fun _ _ => trivial
  rintro - g' ⟨hk, new, hadds, hinner⟩
  simp only [constructs, Prod.mk.injEq] at hk
  refine ⟨g1, g1.catching block g.next, new, hleft, hret2, fun x => ?_, hadds, hinner, hk.2.2.1, ?_⟩
  · exact (seen_still rfl rfl).trans (seen_defer_handler (hs1 x))
  · rw [hk.2.2.2.2, ← htries]
    rfl

/-- The instructions that leave the parts of a block. -/
def LeftBy (g : Generator) (leaves : List Handle) : Prop :=
  ∀ d ∈ leaves, d ∈ g.code.live ∧ ∀ x, g.seen x d = some ⟨.tryLeave false, [], .unresolved⟩

lemma LeftBy.adds {leaves : List Handle} (h : LeftBy g leaves) (ha : Adds g new g') : LeftBy g' leaves := fun d hd =>
  ⟨ha.old_mem_live (h d hd).1, fun x => by rw [ha.seen x d (h d hd).1, (h d hd).2]⟩

lemma LeftBy.concat {leaves : List Handle} (h : LeftBy g leaves) (hleft : PartLeft g j g') : LeftBy g' (leaves ++ [j]) := by
  intro d hd
  rcases mem_append.1 hd with hd | hd
  · exact h.adds hleft.adds d hd
  · rw [mem_singleton.1 hd]
    exact ⟨hleft.adds.mem_live mem_cons_self, hleft.jump⟩

lemma LeftBy.links {leaves : List Handle} (h : LeftBy g leaves) (hl : Legible g) (stack : List ValueType) :
    Links g leaves ((g.linkAll leaves).restoreStack stack) ∧ ((g.linkAll leaves).restoreStack stack).loops = g.loops := by
  have hlink : Links g leaves (g.linkAll leaves) :=
    .linkAll hl fun d hd => ⟨(h d hd).1, role?_of_seen ((h d hd).2 0)⟩
  refine ⟨hlink.still rfl rfl rfl, ?_⟩
  rw [linkAll_eq]
  rfl

lemma linkAll_restoreStack (g : Generator) (stack : List ValueType) (ss : List Handle) :
    (g.restoreStack stack).linkAll ss = (g.linkAll ss).restoreStack stack := by
  rw [linkAll_eq, linkAll_eq]
  rfl

variable (hg : Going c f? symbols g) (ht : g.tries = block :: outer)
include hg ht

/-- The end of a protected block without finalizer: what leaves its parts leads behind it. -/
lemma ends_endTry_links (hs : LeftBy g block.leaves) :
    Ends (endTry false) g (fun _ g' => ∃ g1, PartLeft g g.next g1 ∧ Links g1 (block.leaves ++ [g.next]) g' ∧
      g'.loops = g1.loops) fun _ => True := by
  obtain ⟨hleft, -⟩ := partLeft hg.legible outer
  refine .popTry ht (.modify ⟨_, hleft, ?_⟩)
  have hlinks := (hs.concat hleft).links hleft.adds.legible block.stack
  rwa [← linkAll_restoreStack] at hlinks

/-- The finalizer of a protected block comes next. -/
lemma ends_endTry_finalizer (hm : block.enter ∈ g.code.live)
    {handler : Handle → Option Handle} (hs : ∀ x, g.seen x block.enter = some (protect (handler x) none)) :
    Ends (endTry true) g (fun _ g' => ∃ g1, PartLeft g g.next g1 ∧ Retargets block.enter g1 g' ∧
      (∀ x, g'.seen x block.enter = some (protect (handler g.next) (some x))) ∧
      g'.tries = { block with leaves := block.leaves ++ [g.next], stage := .finalizer } :: outer) fun _ => True := by
  obtain ⟨hleft, htries⟩ := partLeft hg.legible outer
  have hs1 : ∀ x, ({ g with tries := outer }.emitOpen (.tryLeave false)).seen x block.enter =
      some (protect (handler g.next) none) := fun x => by
    rw [hleft.adds.seen x _ hm, hs]
    rfl
  have hret := retargets_defer hleft.adds.legible (hleft.adds.old_mem_live hm) (hs1 0) (.inr rfl)
  exact .popTry ht (.modify ⟨_, hleft, ⟨hret.legible.still rfl rfl rfl, hret.code, hret.loops, fun x d hd =>
    (seen_still rfl rfl).trans (hret.seen x d hd)⟩, fun x => (seen_still rfl rfl).trans (seen_defer_finalizer (hs1 x)),
    congrArg _ htries⟩)

/-- The end of a protected block with a finalizer. -/
lemma ends_endFinalizer_links (hs : LeftBy g block.leaves) :
    Ends endFinalizer g (fun _ g' => ∃ g1, Adds g [g.next] g1 ∧ (∀ x, g1.seen x g.next = some (bare .finallyLeave)) ∧
      g1.loops = g.loops ∧ Links g1 block.leaves g' ∧ g'.loops = g1.loops) fun _ => True := by
  have hl0 : Legible { g with tries := outer } := hg.legible.still rfl rfl rfl
  have ha : Adds g [g.next] ({ g with tries := outer }.append (bare .finallyLeave)) :=
    (Adds.append hl0 (bare .finallyLeave)).ofBase rfl rfl
  have hself : ∀ x, ({ g with tries := outer }.append (bare .finallyLeave)).seen x g.next = some (bare .finallyLeave) :=
    fun x => hl0.seen_append_next (i := bare .finallyLeave) (fun _ => rfl) (by simp [Opcode.role])
  obtain ⟨-, hlo, -, -, -⟩ := eq_of_outline (outline_append { g with tries := outer } (bare .finallyLeave))
  exact .popTry ht (.modify ⟨_, ha, hself, hlo, (hs.adds ha).links ha.legible block.stack⟩)

end Generator

/-! ### A protected block under way -/

lemma Exits.append_empty (e : Exits) : e ++ ({} : Exits) = e := by
  obtain ⟨bs, cs⟩ := e
  exact congrArg₂ Exits.mk (append_nil bs) (append_nil cs)

/-- The block that was opened at `h`, with some of its parts complete, each left at one of `leaves`. What comes next is
entered as the entry at `h` says. -/
structure Parts (inLoop : Bool) (g : Generator) (h : Handle) (leaves new : List Handle) (e : Exits)
    (handler finalizer : Handle → Option Handle) (g' : Generator) (Q : Settlement) : Prop where
  stretch : Stretch inLoop g new (h :: leaves) e g' Q
  enter : ∀ x, g'.seen x h = some (protect (handler x) (finalizer x))
  left : LeftBy g' leaves
  tries : ∃ block : OpenTry, block.enter = h ∧ block.leaves = leaves ∧ g'.tries = block :: g.tries

namespace Parts

variable {leaves : List Handle} {handler finalizer : Handle → Option Handle} {Q : Settlement}

lemma mem_live (hp : Parts inLoop g h leaves new e handler finalizer g' Q) : h ∈ g'.code.live :=
  hp.stretch.adds.mem_live (hp.stretch.apart h mem_cons_self).1

lemma not_mem (hp : Parts inLoop g h leaves new e handler finalizer g' Q) : h ∉ leaves := fun hm => by
  have hsame := (hp.enter 0).symm.trans ((hp.left h hm).2 0)
  cases hsame

lemma opened (inLoop : Bool) (hl : Legible g) (hrun : Ran [.beginTry] g g') :
    Parts inLoop g g.next [] [g.next] {} (fun _ => none) (fun _ => none) g' fun _ _ _ _ => True := by
  obtain rfl : g.beginTry = g' := (EStateM.Result.ok.inj (ran_single.1 hrun)).2
  obtain ⟨ha, hseen, hlo, ht⟩ := adds_beginTry hl
  exact ⟨.of_adds ha hlo, hseen, fun d hd => (not_mem_nil hd).elim, _, rfl, rfl, ht⟩

section

variable (hp : Parts inLoop g h leaves new e handler finalizer g' Q)
include hp

/-- Code behind the block so far. -/
lemma adds (ha : Adds g' hs g'') :
    (∀ x, g''.seen x h = some (protect (handler (hs.head?.getD x)) (finalizer (hs.head?.getD x)))) ∧ LeftBy g'' leaves :=
  ⟨fun x => by rw [ha.seen x h hp.mem_live, hp.enter], hp.left.adds ha⟩

/-- A statement in the block. -/
lemma part (hs : s.Lays P inLoop narrowing)
    (hplaced : Placed P inLoop narrowing b f? symbols s g') (hrun : Ran s.commands g' g'') :
    ∃ as e', Parts inLoop g h leaves (new ++ as) (e ++ e') (fun x => handler (as.head?.getD x))
      (fun x => finalizer (as.head?.getD x)) g'' fun φ ρ w x => Q φ ρ w (as.head?.getD x) ∧
        entry (coded φ as) (ρ x) = ρ (as.head?.getD x) ∧
        (Stands inLoop w g → ∃ rounds, Block P w.guarded s g' (coded φ as) (ρ x) rounds) := by
  obtain ⟨as, e', hout⟩ := hs hplaced hrun
  obtain ⟨block, henter, hleaves, htries⟩ := hp.tries
  obtain ⟨hseen, hleft⟩ := hp.adds hout.adds
  refine ⟨as, e', ?_, hseen, hleft, block, henter, hleaves, (hplaced.kept hrun).tries.trans htries⟩
  have hall := hp.stretch.append (.of_lays hout)
  rw [append_nil] at hall
  exact hall.mono fun ⟨hq, hentry, hblock⟩ =>
    ⟨hq, hentry, fun hst => hblock rfl (hst.guarded hp.stretch.loops (by rw [htries]; rfl))⟩

lemma loopOpen (ho : LoopOpen inLoop g) : LoopOpen inLoop g' := by
  obtain ⟨block, -, -, htries⟩ := hp.tries
  exact ho.deeper hp.stretch.loops (by rw [htries]; exact Nat.le_succ _)

/-- A part of the block is left. -/
lemma leave (hleft : PartLeft g' j g'') :
    Stretch inLoop g (new ++ [j]) (h :: (leaves ++ [j])) e g'' (fun φ ρ w _ => Q φ ρ w j) ∧
      (∀ x, g''.seen x h = some (protect (handler j) (finalizer j))) ∧ LeftBy g'' (leaves ++ [j]) ∧ h ∉ leaves ++ [j] := by
  have hall := hp.stretch.append (.of_adds hleft.adds hleft.loops)
  rw [append_empty] at hall
  have henter : ∀ x, g''.seen x h = some (protect (handler j) (finalizer j)) := (hp.adds hleft.adds).1
  have hleaves := hp.left.concat hleft
  refine ⟨hall.mono fun hq => hq.1, henter, hleaves, fun hm => ?_⟩
  have hsame := (henter 0).symm.trans ((hleaves h hm).2 0)
  cases hsame

/-- A part of the block is left, and what comes next is entered from `h`. -/
lemma retargeted {g1 : Generator} (hleft : PartLeft g' j g1) (hret : Retargets h g1 g'') :
    Stretch inLoop g (new ++ [j]) (h :: (leaves ++ [j])) e g'' (fun φ ρ w _ => Q φ ρ w j) ∧ LeftBy g'' (leaves ++ [j]) := by
  obtain ⟨hstretch, -, hleaves, hnot⟩ := hp.leave hleft
  refine ⟨hstretch.retarget hret.legible hret.code hret.loops fun x d _ hd => hret.seen x d fun he => hd (he ▸ mem_cons_self),
    fun d hd => ⟨?_, fun x => ?_⟩⟩
  · rw [hret.code]
    exact (hleaves d hd).1
  · rw [hret.seen x d fun he => hnot (he ▸ hd), (hleaves d hd).2]

end

/-- The handler, once the exception is taken care of. -/
lemma caught (hp : Parts inLoop g h leaves new e (fun _ => none) (fun _ => none) g' Q) (hg : Going c f? symbols g')
    {name : Option String} (hrun : Ran [.beginHandler name] g' g'') :
    ∃ j bs, Parts inLoop g h (leaves ++ [j]) (new ++ [j] ++ bs) e (fun x => some (bs.head?.getD x)) (fun _ => none) g''
      fun φ ρ w x => Q φ ρ w j ∧ entry (coded φ bs) (ρ x) = ρ (bs.head?.getD x) ∧ Inner P (coded φ bs) (ρ x) := by
  obtain ⟨block, rfl, rfl, htries⟩ := id hp.tries
  obtain ⟨g1, g2, bs, hentered⟩ := Ends.of_ok (ran_single.1 hrun)
    (ends_beginHandler_entered (P := P) hg htries hp.mem_live hp.enter name)
  obtain ⟨hstretch, hleaves⟩ := hp.retargeted hentered.left hentered.retargets
  have hall := hstretch.append (.of_reads hentered.adds hentered.loops hentered.inner)
  rw [append_nil, append_empty] at hall
  have hlive : block.enter ∈ g2.code.live := by
    rw [hentered.retargets.code]
    exact hentered.left.adds.old_mem_live hp.mem_live
  refine ⟨g'.next, bs, hall, fun x => ?_, hleaves.adds hentered.adds,
    { block with leaves := block.leaves ++ [g'.next], stage := .handler }, rfl, rfl, hentered.tries⟩
  rw [hentered.adds.seen x _ hlive, hentered.enter]

/-- The finalizer comes next. -/
lemma finalized (hp : Parts inLoop g h leaves new e handler (fun _ => none) g' Q) (hg : Going c f? symbols g')
    (hrun : Ran [.endTry true] g' g'') :
    ∃ j, Parts inLoop g h (leaves ++ [j]) (new ++ [j]) e (fun _ => handler j)
      (fun x => some x) g'' fun φ ρ w _ => Q φ ρ w j := by
  obtain ⟨block, rfl, rfl, htries⟩ := id hp.tries
  obtain ⟨g1, hleft, hret, henter, htries'⟩ := Ends.of_ok (ran_single.1 hrun)
    (ends_endTry_finalizer hg htries hp.mem_live hp.enter)
  obtain ⟨hstretch, hleaves⟩ := hp.retargeted hleft hret
  exact ⟨g'.next, hstretch, henter, hleaves, { block with leaves := block.leaves ++ [g'.next], stage := .finalizer }, rfl, rfl,
    htries'⟩

/-- What the complete block reads like: how it is entered, and that what leaves its parts leads behind it. -/
structure Complete (inLoop : Bool) (g : Generator) (h : Handle) (leaves others new : List Handle) (e : Exits)
    (handler finalizer : Option Handle) (g' : Generator) (Q : Settlement) : Prop where
  stretch : Stretch inLoop g new (h :: (leaves ++ others)) e g' Q
  enter : ∀ x, g'.seen x h = some (protect handler finalizer)
  left : ∀ x, ∀ d ∈ leaves, g'.seen x d = some (Instruction.leave x)
  others : ∀ x, ∀ d ∈ others, g'.seen x d = some (bare .finallyLeave)

/-- The block ends with the part that is under way. -/
lemma closed (hp : Parts inLoop g h leaves new e handler finalizer g' Q) (hg : Going c f? symbols g')
    (hrun : Ran [.endTry false] g' g'') :
    ∃ j, Complete inLoop g h (leaves ++ [j]) [] (new ++ [j]) e (handler j) (finalizer j) g'' fun φ ρ w _ => Q φ ρ w j := by
  obtain ⟨block, rfl, rfl, htries⟩ := id hp.tries
  obtain ⟨g1, hleft, hlinks, hloops⟩ := Ends.of_ok (ran_single.1 hrun) (ends_endTry_links hg htries hp.left)
  obtain ⟨hstretch, henter, hleaves, hnot⟩ := hp.leave hleft
  have hstretch2 := hstretch.links hlinks hloops fun d hd => mem_cons_of_mem _ hd
  refine ⟨g'.next, by rw [append_nil]; exact hstretch2, fun x => ?_, fun x d hd => ?_, fun x d hd => ?_⟩
  · rw [hlinks.seen_of_not_mem (hleft.adds.old_mem_live hp.mem_live) hnot, henter]
  · rw [hlinks.seen_of_mem (hleaves d hd).1 hd, (hleaves d hd).2]
    rfl
  · cases hd

/-- The finalizer ends the block. -/
lemma ended (hp : Parts inLoop g h leaves new e handler finalizer g' Q) (hg : Going c f? symbols g')
    (hrun : Ran [.endFinalizer] g' g'') :
    ∃ k, Complete inLoop g h leaves [k] (new ++ [k]) e (handler k) (finalizer k) g'' fun φ ρ w _ => Q φ ρ w k := by
  obtain ⟨block, rfl, rfl, htries⟩ := id hp.tries
  obtain ⟨g1, hadds, hself, hloops1, hlinks, hloops⟩ := Ends.of_ok (ran_single.1 hrun)
    (ends_endFinalizer_links hg htries hp.left)
  have hall := hp.stretch.append (.of_adds hadds hloops1)
  rw [append_empty] at hall
  obtain ⟨henter, hleaves⟩ := hp.adds hadds
  have hstretch := hall.links hlinks hloops fun d hd => mem_append_left _ (mem_cons_of_mem _ hd)
  refine ⟨g'.next, hstretch.mono fun hq => hq.1, fun x => ?_, fun x d hd => ?_, fun x d hd => ?_⟩
  · rw [hlinks.seen_of_not_mem (hadds.old_mem_live hp.mem_live) hp.not_mem, henter]
    rfl
  · rw [hlinks.seen_of_mem (hleaves d hd).1 hd, (hleaves d hd).2]
    rfl
  · obtain rfl := mem_singleton.1 hd
    have hnot : g'.next ∉ block.leaves := fun hm => by
      have hsame := (hself 0).symm.trans ((hleaves _ hm).2 0)
      cases hsame
    rw [hlinks.seen_of_not_mem (hadds.mem_live mem_cons_self) hnot, hself]

/-- The instructions of the block itself in the final code. -/
lemma Complete.reads {others : List Handle} {handler finalizer : Option Handle}
    (hc : Complete inLoop g h leaves others new e handler finalizer g' Q) (hr : Reads φ ρ g' x (h :: (leaves ++ others))) :
    φ h = some (protect (handler.map ρ) (finalizer.map ρ)) ∧
      (∀ d ∈ leaves, ρ d = d ∧ φ d = some (Instruction.leave (ρ x))) ∧
      ∀ d ∈ others, ρ d = d ∧ φ d = some (bare .finallyLeave) := by
  refine ⟨?_, fun d hd => ?_, fun d hd => ?_⟩
  · rw [(hr h mem_cons_self).2, hc.enter]
    rfl
  · obtain ⟨hρ, hφ⟩ := hr d (mem_cons_of_mem _ (mem_append_left _ hd))
    rw [hφ, hc.left x d hd]
    exact ⟨hρ, rfl⟩
  · obtain ⟨hρ, hφ⟩ := hr d (mem_cons_of_mem _ (mem_append_right _ hd))
    rw [hφ, hc.others x d hd]
    exact ⟨hρ, rfl⟩

end Parts

/-! ### Protected blocks -/

namespace Statement

variable {body handler finalizer : Statement} {name : Option String}

lemma lays_tryExcept (hbody : body.Lays P inLoop narrowing) (hhandler : handler.Lays P inLoop narrowing) :
    (tryExcept body name handler).Lays P inLoop narrowing := by
  intro b f? symbols g g' hp hrun
  obtain ⟨g1, hrun1, hrun⟩ := ran_cons.1 hrun
  obtain ⟨g2, hrun2, hrun⟩ := ran_append.1 hrun
  obtain ⟨g3, hrun3, hrun⟩ := ran_cons.1 hrun
  obtain ⟨g4, hrun4, hrun5⟩ := ran_append.1 hrun
  obtain ⟨hg, hn, hfit, hcmds, hopened⟩ := id hp
  simp only [nested, fits, commands, and_eq_true, forall_mem_append, forall_mem_cons] at hn hfit hcmds
  have hran2 : Ran (body.commands ++ [.beginHandler name]) g1 g3 := ran_append.2 ⟨g2, hrun2, hrun3⟩
  rw [after_of_ok hrun1, and_eq_true, and_eq_true, after_of_ok hran2] at hfit
  have hg1 := hg.runAll hrun1
  have hg2 := hg1.runAll hrun2
  have hg3 := hg2.runAll hrun3
  have hopen := Parts.opened inLoop hg.legible hrun1
  obtain ⟨as, e1, hparts⟩ := hopen.part hbody ⟨hg1, hn.1, hfit.1.1, hcmds.2.1, hopen.loopOpen hopened⟩ hrun2
  obtain ⟨j, bs, hcaught⟩ := hparts.caught (P := P) hg2 hrun3
  obtain ⟨cs, e2, hparts2⟩ := hcaught.part hhandler ⟨hg3, hn.2, hfit.2, hcmds.2.2.2.1, hcaught.loopOpen hopened⟩ hrun4
  obtain ⟨k, hcomplete⟩ := hparts2.closed (hg3.runAll hrun4) hrun5
  refine ⟨_, _, hcomplete.stretch.laysOut fun {φ ρ w x} hst hreads hq => ?_⟩
  obtain ⟨⟨⟨-, hentryA, hblockA⟩, hentryB, hinner⟩, hentryC, hblockC⟩ := hq
  obtain ⟨hφ, hleaves, -⟩ := hcomplete.reads hreads
  obtain ⟨hρj, hφj⟩ := hleaves j (by simp)
  obtain ⟨hρk, hφk⟩ := hleaves k (by simp)
  obtain ⟨l, hA⟩ := hblockA hst
  obtain ⟨m, hC⟩ := hblockC hst
  rw [map_some, map_none, ← hentryB, ← hentryC, hρk] at hφ
  rw [← hentryC, hρk] at hinner
  rw [hρj] at hA
  rw [hρk] at hC
  have hblock := Block.tryExcept (h := g.next) (x := ρ x) hrun1 hA hran2 hinner hC
  refine ⟨l ++ m, ?_⟩
  simpa only [coded_append, coded_cons hφ, coded_cons hφj, coded_cons hφk, coded_nil, append_assoc, cons_append,
    nil_append] using hblock

lemma lays_tryFinally (hbody : body.Lays P inLoop narrowing) (hfinalizer : finalizer.Lays P inLoop narrowing) :
    (tryFinally body finalizer).Lays P inLoop narrowing := by
  intro b f? symbols g g' hp hrun
  obtain ⟨g1, hrun1, hrun⟩ := ran_cons.1 hrun
  obtain ⟨g2, hrun2, hrun⟩ := ran_append.1 hrun
  obtain ⟨g3, hrun3, hrun⟩ := ran_cons.1 hrun
  obtain ⟨g4, hrun4, hrun5⟩ := ran_append.1 hrun
  obtain ⟨hg, hn, hfit, hcmds, hopened⟩ := id hp
  simp only [nested, fits, commands, and_eq_true, forall_mem_append, forall_mem_cons] at hn hfit hcmds
  have hran2 : Ran (body.commands ++ [.endTry true]) g1 g3 := ran_append.2 ⟨g2, hrun2, hrun3⟩
  rw [after_of_ok hrun1, and_eq_true, after_of_ok hran2] at hfit
  have hg1 := hg.runAll hrun1
  have hg2 := hg1.runAll hrun2
  have hg3 := hg2.runAll hrun3
  have hopen := Parts.opened inLoop hg.legible hrun1
  obtain ⟨as, e1, hparts⟩ := hopen.part hbody ⟨hg1, hn.1, hfit.1, hcmds.2.1, hopen.loopOpen hopened⟩ hrun2
  obtain ⟨j, hfinal⟩ := hparts.finalized hg2 hrun3
  obtain ⟨bs, e2, hparts2⟩ := hfinal.part hfinalizer ⟨hg3, hn.2, hfit.2, hcmds.2.2.2.1, hfinal.loopOpen hopened⟩ hrun4
  obtain ⟨k, hcomplete⟩ := hparts2.ended (hg3.runAll hrun4) hrun5
  refine ⟨_, _, hcomplete.stretch.laysOut fun {φ ρ w x} hst hreads hq => ?_⟩
  obtain ⟨⟨-, -, hblockA⟩, hentryB, hblockB⟩ := hq
  obtain ⟨hφ, hleaves, hothers⟩ := hcomplete.reads hreads
  obtain ⟨hρj, hφj⟩ := hleaves j (by simp)
  obtain ⟨hρk, hφk⟩ := hothers k (by simp)
  obtain ⟨l, hA⟩ := hblockA hst
  obtain ⟨m, hB⟩ := hblockB hst
  rw [map_some, map_none, ← hentryB, hρk] at hφ
  rw [hρj] at hA
  rw [hρk] at hB
  have hblock := Block.tryFinally (h := g.next) (x := ρ x) hrun1 hA hran2 hB
  refine ⟨l ++ m, ?_⟩
  simpa only [coded_append, coded_cons hφ, coded_cons hφj, coded_cons hφk, coded_nil, append_assoc, cons_append,
    nil_append] using hblock

lemma lays_tryBoth (hbody : body.Lays P inLoop narrowing) (hhandler : handler.Lays P inLoop narrowing)
    (hfinalizer : finalizer.Lays P inLoop narrowing) : (tryBoth body name handler finalizer).Lays P inLoop narrowing := by
  intro b f? symbols g g' hp hrun
  obtain ⟨g1, hrun1, hrun⟩ := ran_cons.1 hrun
  obtain ⟨g2, hrun2, hrun⟩ := ran_append.1 hrun
  obtain ⟨g3, hrun3, hrun⟩ := ran_cons.1 hrun
  obtain ⟨g4, hrun4, hrun⟩ := ran_append.1 hrun
  obtain ⟨g5, hrun5, hrun⟩ := ran_cons.1 hrun
  obtain ⟨g6, hrun6, hrun7⟩ := ran_append.1 hrun
  obtain ⟨hg, hn, hfit, hcmds, hopened⟩ := id hp
  simp only [nested, fits, commands, and_eq_true, forall_mem_append, forall_mem_cons] at hn hfit hcmds
  have hran2 : Ran (body.commands ++ [.beginHandler name]) g1 g3 := ran_append.2 ⟨g2, hrun2, hrun3⟩
  have hran4 : Ran (handler.commands ++ [.endTry true]) g3 g5 := ran_append.2 ⟨g4, hrun4, hrun5⟩
  rw [after_of_ok hrun1, and_eq_true, and_eq_true, after_of_ok hran2, and_eq_true, after_of_ok hran4] at hfit
  have hg1 := hg.runAll hrun1
  have hg2 := hg1.runAll hrun2
  have hg3 := hg2.runAll hrun3
  have hg4 := hg3.runAll hrun4
  have hg5 := hg4.runAll hrun5
  have hopen := Parts.opened inLoop hg.legible hrun1
  obtain ⟨as, e1, hparts⟩ := hopen.part hbody ⟨hg1, hn.1.1, hfit.1.1, hcmds.2.1, hopen.loopOpen hopened⟩ hrun2
  obtain ⟨i, bs, hcaught⟩ := hparts.caught (P := P) hg2 hrun3
  obtain ⟨cs, e2, hparts2⟩ := hcaught.part hhandler ⟨hg3, hn.1.2, hfit.2.1, hcmds.2.2.2.1, hcaught.loopOpen hopened⟩ hrun4
  obtain ⟨j, hfinal⟩ := hparts2.finalized hg4 hrun5
  obtain ⟨ds, e3, hparts3⟩ := hfinal.part hfinalizer ⟨hg5, hn.2, hfit.2.2, hcmds.2.2.2.2.2.1, hfinal.loopOpen hopened⟩ hrun6
  obtain ⟨k, hcomplete⟩ := hparts3.ended (hg5.runAll hrun6) hrun7
  refine ⟨_, _, hcomplete.stretch.laysOut fun {φ ρ w x} hst hreads hq => ?_⟩
  obtain ⟨⟨⟨⟨-, -, hblockA⟩, hentryB, hinner⟩, hentryC, hblockC⟩, hentryD, hblockD⟩ := hq
  obtain ⟨hφ, hleaves, hothers⟩ := hcomplete.reads hreads
  obtain ⟨hρi, hφi⟩ := hleaves i (by simp)
  obtain ⟨hρj, hφj⟩ := hleaves j (by simp)
  obtain ⟨hρk, hφk⟩ := hothers k (by simp)
  obtain ⟨l, hA⟩ := hblockA hst
  obtain ⟨m, hC⟩ := hblockC hst
  obtain ⟨n, hD⟩ := hblockD hst
  rw [map_some, map_some, ← hentryB, ← hentryC, ← hentryD, hρj, hρk] at hφ
  rw [← hentryC, hρj] at hinner
  rw [hρi] at hA
  rw [hρj] at hC
  rw [hρk] at hD
  have hblock := Block.tryBoth (h := g.next) (x := ρ x) hrun1 hA hran2 hinner hC hran4 hD
  refine ⟨l ++ (m ++ n), ?_⟩
  simpa only [coded_append, coded_cons hφ, coded_cons hφi, coded_cons hφj, coded_cons hφk, coded_nil, append_assoc,
    cons_append, nil_append] using hblock

/-- **Every statement lays out its code.** -/
lemma lays (s : Statement) (inLoop narrowing : Bool) : s.Lays P inLoop narrowing := by
  induction s generalizing inLoop narrowing with
  | straight part => exact lays_straight part
  | seq first second ih1 ih2 => exact lays_seq (ih1 inLoop narrowing) (ih2 inLoop narrowing)
  | ifThen condition body ih => exact lays_ifThen (ih inLoop true)
  | ifElse condition body other ih1 ih2 => exact lays_ifElse (ih1 inLoop true) (ih2 inLoop true)
  | whileDo test body ih => exact lays_whileDo (ih true true)
  | whileElse test body other ih1 ih2 => exact lays_whileElse (ih1 true true) (ih2 inLoop narrowing)
  | forDo collection target body ih => exact lays_forDo (ih true true)
  | forElse collection target body other ih1 ih2 => exact lays_forElse (ih1 true true) (ih2 inLoop narrowing)
  | tryExcept body name handler ih1 ih2 => exact lays_tryExcept (ih1 inLoop narrowing) (ih2 inLoop narrowing)
  | tryFinally body finalizer ih1 ih2 => exact lays_tryFinally (ih1 inLoop narrowing) (ih2 inLoop narrowing)
  | tryBoth body name handler finalizer ih1 ih2 ih3 =>
    exact lays_tryBoth (ih1 inLoop narrowing) (ih2 inLoop narrowing) (ih3 inLoop narrowing)
  | breakLoop => exact lays_breakLoop
  | continueLoop => exact lays_continueLoop
  | returnVoid => exact lays_returnVoid
  | returnValue value => exact lays_returnValue
  | raise exception => exact lays_raise

end Statement

/-! ### Complete programs -/

lemma rename_id (i : Instruction) : i.rename id = i := by
  obtain ⟨o, bs, t⟩ := i
  cases t with
  | handlers e f => cases e <;> cases f <;> rfl
  | _ => rfl

/-- **The layout of a statement in the middle of a method**, which no `break` or `continue` leaves. -/
lemma Underway.block (hg : Underway g) (hn : s.nested false false = true) (hfit : s.fits g = true)
    (hcmds : ∀ cmd ∈ s.commands, cmd.Orderly g.symbols ∧ cmd.Inlines P) (hrun : Ran s.commands g g') :
    ∃ new, Adds g new g' ∧ ∀ x, ∃ rounds,
      Block P { total := (g.loops.map fun l => l.kind.kept).sum } s g (g'.listing x new) x rounds := by
  obtain ⟨b, log, hready, -⟩ := hg.ready
  obtain ⟨new, e, hout⟩ := s.lays false false ⟨⟨rfl, log, hready⟩, hn, hfit, hcmds, nofun⟩ hrun
  refine ⟨new, hout.adds, fun x => ?_⟩
  obtain rfl := hout.leaves.outside rfl
  refine hout.block (φ := fun h => g'.seen x h) (ρ := id) (x := x) ⟨rfl, nofun⟩ fun h hm => ?_
  refine ⟨fun _ => ⟨rfl, ?_⟩, nofun, nofun, nofun⟩
  cases g'.seen x h with
  | none => rfl
  | some i => rw [map_some, rename_id]

end NeoScript
