import NeoScript.Proofs.Statement.Settling

/-!
# Statements lay out their code

`Lays` is what every statement does to the code: whatever it is emitted behind, the final code of it is a `Block`, once
it is known where its exits go. A statement is put together from stretches of code: a `Stretch` names the instructions
that will still change and says what holds of the final code whatever becomes of them. This module has the statements
without loops and protected blocks.
-/

namespace NeoScript

open Generator Command Instruction List Option Opcode Exits

variable {P : Opcode → Prop} {inLoop narrowing : Bool} {b g g' g'' : Generator} {f? : Option String} {symbols : SymbolTable}
  {s : Statement} {w : Ways} {e e' : Exits} {new hs ks ss : List Handle} {h j x y : Handle} {φ : Handle → Option Instruction}
  {ρ : Handle → Handle} {first second : Statement} {code : Code}

/-! ### Where a statement stands -/

/-- The ways out fit the open loops and protected blocks. -/
structure Stands (inLoop : Bool) (w : Ways) (g : Generator) : Prop where
  total : w.total = (g.loops.map fun l => l.kind.kept).sum
  inner : inLoop = true → ∃ l outer, g.loops = l :: outer ∧ w.kept = l.kind.kept ∧ g.tries.length = l.tryDepth + w.levels

/-- The innermost loop may have got exits. -/
lemma Stands.still (h : Stands inLoop w g) (hl : g'.loops = grow e g.loops) (ht : g'.tries = g.tries) :
    Stands inLoop w g' := by
  refine ⟨by rw [hl, kept_grow, h.total], fun hin => ?_⟩
  obtain ⟨l, outer, hloops, hk, hd⟩ := h.inner hin
  exact ⟨l.add e, outer, by rw [hl, hloops]; rfl, hk, by rw [ht]; exact hd⟩

lemma Generator.LoopOpen.deeper (h : LoopOpen inLoop g) (hl : g'.loops = grow e g.loops)
    (ht : g.tries.length ≤ g'.tries.length) : LoopOpen inLoop g' := by
  intro hin l hm
  rw [hl] at hm
  cases hg : g.loops with
  | nil =>
    rw [hg] at hm
    cases hm
  | cons l0 outer =>
    rw [hg] at hm
    obtain rfl := some.inj hm
    exact Nat.le_trans (h hin l0 (by rw [hg]; rfl)) ht

lemma Generator.LoopOpen.still (h : LoopOpen inLoop g) (hl : g'.loops = grow e g.loops) (ht : g'.tries = g.tries) :
    LoopOpen inLoop g' :=
  h.deeper hl (by rw [ht])

/-- A statement that may be emitted from `g` on. -/
structure Placed (P : Opcode → Prop) (inLoop narrowing : Bool) (b : Generator) (f? : Option String)
    (symbols : SymbolTable) (s : Statement) (g : Generator) : Prop where
  going : Going b f? symbols g
  nested : s.nested inLoop narrowing = true
  fits : s.fits g = true
  commands : ∀ cmd ∈ s.commands, cmd.Orderly symbols ∧ cmd.Inlines P
  opened : LoopOpen inLoop g

lemma Generator.Going.legible (h : Going b f? symbols g) : Legible g := by
  obtain ⟨-, log, -, old, hs⟩ := h
  exact hs.legible

lemma Placed.kept (hp : Placed P inLoop narrowing b f? symbols s g) (hrun : Ran s.commands g g') :
    Kept inLoop narrowing g g' :=
  Regular.of_ok (P := fun _ g' => Kept inLoop narrowing g g') hrun
    (s.balances hp.nested hp.going hp.fits (fun cmd hm => (hp.commands cmd hm).1) hp.opened)

/-- The code `new` of a statement, with its exits. -/
structure LaysOut (P : Opcode → Prop) (inLoop : Bool) (s : Statement) (g : Generator) (new : List Handle) (e : Exits)
    (g' : Generator) : Prop where
  adds : Adds g new g'
  loops : g'.loops = grow e g.loops
  leaves : Leaves inLoop g' new e
  block : ∀ {φ : Handle → Option Instruction} {ρ : Handle → Handle} {w : Ways} {x : Handle}, Stands inLoop w g →
    Agrees φ ρ w g' x e new → ∃ rounds, Block P w s g (coded φ new) (ρ x) rounds

/-- **What a statement does to the code.** -/
def Statement.Lays (P : Opcode → Prop) (inLoop narrowing : Bool) (s : Statement) : Prop :=
  ∀ {b f? symbols g g'}, Placed P inLoop narrowing b f? symbols s g → Ran s.commands g g' →
    ∃ new e, LaysOut P inLoop s g new e g'

/-! ### Adding and linking code -/

namespace Generator

lemma Adds.nodup (ha : Adds g new g') : (g.code.live ++ new).Nodup := ha.live ▸ ha.legible.laid.nodup

lemma role?_of_seen {i : Instruction} (hi : g.seen x h = some i) : g.code.role? h = some i.opcode.role := by
  rw [CodeMap.role?, shape?_of_seen hi]
  rfl

lemma Adds.isSome (ha : Adds g new g') (hm : h ∈ new) (x : Handle) : ∃ i, g'.seen x h = some i :=
  seen_isSome ha.legible.laid (ha.mem_live hm) x

/-- Only the code and the links of what was there matter. -/
lemma Adds.ofBase (ha : Adds g new g') (hc : g.code = g''.code) (hp : g.pending = g''.pending) : Adds g'' new g' :=
  ⟨ha.legible, by rw [← hc]; exact ha.live, by rw [← hc]; exact ha.grown, fun x h hm => by
    rw [ha.seen x h (by rw [hc]; exact hm), seen_still hc hp]⟩

/-- `g'` reads like `g`, except that the jumps `ss` lead to what comes next. -/
structure Links (g : Generator) (ss : List Handle) (g' : Generator) : Prop where
  legible : Legible g'
  code : g'.code = g.code
  seen : ∀ x, ∀ h ∈ g.code.live, g'.seen x h = (g.seen x h).map fun i => if h ∈ ss then i.aim x else i

namespace Links

lemma linkAll (hl : Legible g) (hss : ∀ h ∈ ss, h ∈ g.code.live ∧ g.code.role? h = some .leap) :
    Links g ss (g.linkAll ss) :=
  ⟨hl.linkAll hss, by rw [Sound.linkAll_eq], fun x _ hm => seen_linkAll_map hl (fun s hs => (hss s hs).2) hm x⟩

lemma linkNext (hl : Legible g) (hm : j ∈ g.code.live) (hr : g.code.role? j = some .leap) : Links g [j] (g.linkNext j) :=
  linkAll hl fun s hs => by
    rw [mem_singleton.1 hs]
    exact ⟨hm, hr⟩

lemma still (hk : Links g ss g') (hc : g''.code = g'.code) (hp : g''.pending = g'.pending)
    (hw : g''.waiting = g'.waiting) : Links g ss g'' :=
  ⟨hk.legible.still hc hp hw, hc.trans hk.code, fun x h hm => by rw [seen_still hc hp, hk.seen x h hm]⟩

lemma seen_of_not_mem (hk : Links g ss g') (hm : h ∈ g.code.live) (hn : h ∉ ss) (x : Handle) :
    g'.seen x h = g.seen x h := by
  rw [hk.seen x h hm]
  simp only [if_neg hn, Option.map_id']

lemma seen_of_mem (hk : Links g ss g') (hm : h ∈ g.code.live) (hs : h ∈ ss) (x : Handle) :
    g'.seen x h = (g.seen x h).map (Instruction.aim x) := by
  rw [hk.seen x h hm]
  simp only [if_pos hs]

end Links

end Generator

/-! ### Stretches of code -/

/-- A property of the final code, with what comes behind. -/
abbrev Settlement := (Handle → Option Instruction) → (Handle → Handle) → Ways → Handle → Prop

/-- The code `new` with the exits `e`. The instructions `ss` of it will still change; once the others agree with the final
code, `Q` holds. -/
structure Stretch (inLoop : Bool) (g : Generator) (new ss : List Handle) (e : Exits) (g' : Generator) (Q : Settlement) :
    Prop where
  adds : Adds g new g'
  loops : g'.loops = grow e g.loops
  leaves : Leaves inLoop g' new e
  apart : ∀ s ∈ ss, s ∈ new ∧ s ∉ e.sources
  settles : ∀ {φ ρ w x}, Agrees φ ρ w g' x e (new.filter (· ∉ ss)) → Q φ ρ w x

/-- Where the exits go, and whether a `break` pushes a flag. -/
def Ways.exits (w : Ways) : Option Handle × Option Handle × Bool := (w.leave, w.again, w.flagged)

lemma Reads.entry_eq (hr : Reads φ ρ g x hs) (hsome : ∀ h ∈ hs, ∃ i, g.seen x h = some i) (y : Handle) :
    entry (coded φ hs) (ρ y) = ρ (hs.head?.getD y) := by
  rw [entry_coded fun h hm => ?_]
  · cases hs with
    | nil => rfl
    | cons a hs => exact (hr a mem_cons_self).1.symm
  · obtain ⟨i, hi⟩ := hsome h hm
    rw [(hr h hm).2, hi]
    exact some_ne_none _

namespace Stretch

variable {Q Q' : Settlement}

/-- Instructions all of which will still change. -/
lemma of_adds (ha : Adds g new g') (hlo : g'.loops = g.loops) : Stretch inLoop g new new {} g' fun _ _ _ _ => True :=
  ⟨ha, by rw [hlo, grow_empty], .nothing _ _ _, fun s hs => ⟨hs, by simp [sources_empty]⟩, fun _ => trivial⟩

/-- Code without exits that is complete. -/
lemma of_reads {R : (Handle → Option Instruction) → (Handle → Handle) → Handle → Prop} (ha : Adds g new g')
    (hlo : g'.loops = g.loops) (hR : ∀ {φ ρ x}, Reads φ ρ g' x new → R φ ρ x) :
    Stretch inLoop g new [] {} g' fun φ ρ _ x => entry (coded φ new) (ρ x) = ρ (new.head?.getD x) ∧ R φ ρ x := by
  refine ⟨ha, by rw [hlo, grow_empty], .nothing _ _ _, by simp, fun {φ ρ w x} hagree => ?_⟩
  have hread : Reads φ ρ g' x new :=
    hagree.reads (fun h hm => by simpa using hm) (fun _ _ => rfl) (by simp [sources_empty])
  exact ⟨hread.entry_eq (fun h hm => ha.isSome hm x) x, hR hread⟩

lemma of_part {part : List Command} (hpart : PartLaid P part g new g') :
    Stretch inLoop g new [] {} g' fun φ ρ _ x => entry (coded φ new) (ρ x) = ρ (new.head?.getD x) ∧
      Emits P part g g' (coded φ new) (ρ x) :=
  of_reads hpart.adds (congrArg (fun o => o.2.2.1) hpart.constructs) hpart.emits

/-- The code of a statement, whose exits go where those of the whole do. -/
lemma of_lays (ho : LaysOut P inLoop s g new e g') :
    Stretch inLoop g new [] e g' fun φ ρ w x => entry (coded φ new) (ρ x) = ρ (new.head?.getD x) ∧
      ∀ {w'}, w'.exits = w.exits → Stands inLoop w' g → ∃ rounds, Block P w' s g (coded φ new) (ρ x) rounds := by
  refine ⟨ho.adds, ho.loops, ho.leaves, by simp, fun {φ ρ w x} hagree => ?_⟩
  have ha : ∀ {w'}, w'.exits = w.exits → Agrees φ ρ w' g' x e new := fun {w'} hw h hm => by
    obtain ⟨hcode, hjump, hagain, hflag⟩ := hagree h (by simpa using hm)
    simp only [Ways.exits, Prod.mk.injEq] at hw
    rw [← hw.1] at hjump
    rw [← hw.2.1] at hagain
    rw [← hw.2.2] at hflag
    exact ⟨hcode, hjump, hagain, hflag⟩
  exact ⟨(ha rfl).entry_eq ho.leaves (fun h hm => ho.adds.isSome hm x) (nodup_append.1 ho.adds.nodup).2.1,
    fun hw hst => ho.block hst (ha hw)⟩

lemma append (h1 : Stretch inLoop g new ss e g' Q) (h2 : Stretch inLoop g' hs ss' e' g'' Q') :
    Stretch inLoop g (new ++ hs) (ss ++ ss') (e ++ e') g'' fun φ ρ w x => Q φ ρ w (hs.head?.getD x) ∧ Q' φ ρ w x := by
  have hadds := h1.adds.trans h2.adds
  have hd : new.Disjoint hs := disjoint_of_nodup_append (nodup_append.1 hadds.nodup).2.1
  have hseen : ∀ x, ∀ h ∈ new, g''.seen x h = g'.seen (hs.head?.getD x) h := fun x h hm =>
    h2.adds.seen x h (h1.adds.mem_live hm)
  refine ⟨hadds, by rw [h2.loops, h1.loops, grow_append], ?_, fun s hm => ?_, fun {φ ρ w x} ha => ⟨?_, ?_⟩⟩
  · exact (h1.leaves.later (fun x h hm => ⟨_, hseen x h hm⟩) (fun h hm => h1.adds.mem_live hm) h1.adds.legible.laid).append
      h2.leaves hd
  · rw [mem_sources_append, not_or]
    rcases mem_append.1 hm with hm | hm
    · exact ⟨mem_append_left _ (h1.apart s hm).1, (h1.apart s hm).2, fun hs => hd (h1.apart s hm).1 (h2.leaves.mem s hs)⟩
    · exact ⟨mem_append_right _ (h2.apart s hm).1, fun hs => hd (h1.leaves.mem s hs) (h2.apart s hm).1, (h2.apart s hm).2⟩
  · refine h1.settles (ha.part (fun h hm => ?_) (fun h hm => hseen x h (mem_of_mem_filter hm)) fun h hm =>
      same_left fun hs => hd (mem_of_mem_filter hm) (h2.leaves.mem h hs))
    rw [mem_filter, decide_eq_true_eq] at hm ⊢
    refine ⟨mem_append_left _ hm.1, fun hs => ?_⟩
    exact (mem_append.1 hs).elim hm.2 fun hs => hd hm.1 (h2.apart h hs).1
  · refine h2.settles (ha.part (fun h hm => ?_) (fun _ _ => rfl) fun h hm =>
      same_right fun hs => hd (h1.leaves.mem h hs) (mem_of_mem_filter hm))
    rw [mem_filter, decide_eq_true_eq] at hm ⊢
    refine ⟨mem_append_right _ hm.1, fun hs => ?_⟩
    exact (mem_append.1 hs).elim (fun hs => hd (h1.apart h hs).1 hm.1) hm.2

/-- Targets are written into the instructions that will still change. -/
lemma retarget (h : Stretch inLoop g new ss e g' Q) (hl : Legible g'') (hc : g''.code = g'.code)
    (hlo : g''.loops = g'.loops) (hseen : ∀ x, ∀ d ∈ g'.code.live, d ∉ ss → g''.seen x d = g'.seen x d) :
    Stretch inLoop g new ss e g'' Q := by
  have hexit : ∀ x, ∀ d ∈ e.sources, g''.seen x d = g'.seen x d := fun x d hd =>
    hseen x d (h.adds.mem_live (h.leaves.mem d hd)) fun hs => (h.apart d hs).2 hd
  refine ⟨⟨hl, by rw [hc, h.adds.live], by rw [hc]; exact h.adds.grown, fun x d hd => ?_⟩, hlo.trans h.loops, ?_, h.apart,
    fun {φ ρ w x} ha => ?_⟩
  · have hn : d ∉ ss := fun hs => disjoint_of_nodup_append h.adds.nodup hd (h.apart d hs).1
    rw [hseen x d (h.adds.old_mem_live hd) hn, h.adds.seen x d hd]
  · refine ⟨h.leaves.outside, h.leaves.mem, h.leaves.nodup, fun d hd => ?_, fun d hd x => ?_, fun d hd => ?_⟩
    · obtain ⟨o, hr, ho⟩ := h.leaves.jumps d hd
      exact ⟨o, hr, fun x => by rw [hexit x d (mem_append_right _ hd), ho]⟩
    · rw [hexit x d (mem_append_left _ hd), h.leaves.flags d hd]
    · rw [hc]
      exact h.leaves.next d hd
  · refine h.settles (ha.part (fun _ hm => hm) (fun d hm => ?_) fun _ _ => .refl _ _)
    rw [mem_filter, decide_eq_true_eq] at hm
    exact hseen x d (h.adds.mem_live hm.1) hm.2

/-- Jumps that were open lead to what comes next. -/
lemma links (h : Stretch inLoop g new ss e g' Q) (hk : Links g' ks g'') (hlo : g''.loops = g'.loops)
    (hks : ∀ s ∈ ks, s ∈ ss) : Stretch inLoop g new ss e g'' Q :=
  h.retarget hk.legible hk.code hlo fun x d hm hd => hk.seen_of_not_mem hm (fun hs => hd (hks d hs)) x

lemma mono (h : Stretch inLoop g new ss e g' Q) (hq : ∀ {φ ρ w x}, Q φ ρ w x → Q' φ ρ w x) :
    Stretch inLoop g new ss e g' Q' := ⟨h.adds, h.loops, h.leaves, h.apart, fun ha => hq (h.settles ha)⟩

/-- All targets are there. -/
lemma laysOut (h : Stretch inLoop g new ss e g' Q)
    (hblock : ∀ {φ ρ w x}, Stands inLoop w g → Reads φ ρ g' x ss → Q φ ρ w x →
      ∃ rounds, Block P w s g (coded φ new) (ρ x) rounds) : LaysOut P inLoop s g new e g' := by
  refine ⟨h.adds, h.loops, h.leaves, fun {φ ρ w x} hst ha => hblock hst ?_ (h.settles ?_)⟩
  · exact ha.reads (fun d hd => (h.apart d hd).1) (fun _ _ => rfl) fun d hd => (h.apart d hd).2
  · exact ha.part (fun d hd => mem_of_mem_filter hd) (fun _ _ => rfl) fun _ _ => .refl _ _

end Stretch

/-! ### Straight parts and sequences -/

namespace Statement

lemma lays_straight (part : List Command) : (straight part).Lays P inLoop narrowing := by
  intro b f? symbols g g' hp hrun
  obtain ⟨new, hpart⟩ := hp.going.laysPart hp.fits hp.nested (fun cmd hm => (hp.commands cmd hm).1)
    (fun cmd hm => (hp.commands cmd hm).2) hrun
  exact ⟨new, {}, (Stretch.of_part hpart).laysOut fun _ _ hq => ⟨[], .straight hq.2⟩⟩

end Statement

/-- The code of a statement behind that of another one. -/
lemma LaysOut.seq (h1 : LaysOut P inLoop first g new e g')
    (h2 : LaysOut P inLoop second g' hs e' g'') (hrun : Ran first.commands g g') (ht : g'.tries = g.tries) :
    LaysOut P inLoop (.seq first second) g (new ++ hs) (e ++ e') g'' := by
  refine ((Stretch.of_lays h1).append (.of_lays h2)).laysOut fun hst _ hq => ?_
  obtain ⟨⟨-, hblock1⟩, hentry, hblock2⟩ := hq
  obtain ⟨l, hb1⟩ := hblock1 rfl hst
  obtain ⟨m, hb2⟩ := hblock2 rfl (hst.still h1.loops ht)
  rw [← hentry] at hb1
  exact ⟨l ++ m, by rw [coded_append]; exact .seq hb1 hrun hb2⟩

lemma Statement.lays_seq (h1 : first.Lays P inLoop narrowing)
    (h2 : second.Lays P inLoop narrowing) : (seq first second).Lays P inLoop narrowing := by
  intro b f? symbols g g' hp hrun
  obtain ⟨g1, hrun1, hrun2⟩ := ran_append.1 hrun
  obtain ⟨hg, hn, hfit, hcmds, -⟩ := id hp
  simp only [nested, fits, commands, Bool.and_eq_true, forall_mem_append] at hn hfit hcmds
  rw [after_of_ok hrun1] at hfit
  have hp1 : Placed P inLoop narrowing b f? symbols first g := ⟨hg, hn.1, hfit.1, hcmds.1, hp.opened⟩
  obtain ⟨new1, e1, h1⟩ := h1 hp1 hrun1
  have ht := (hp1.kept hrun1).tries
  obtain ⟨new2, e2, h2⟩ := h2 ⟨hg.runAll hrun1, hn.2, hfit.2, hcmds.2, hp.opened.still h1.loops ht⟩ hrun2
  exact ⟨_, _, h1.seq h2 hrun1 ht⟩

/-! ### Branches -/

namespace Generator

variable {branch : OpenBranch} {outer : List OpenBranch}

lemma adds_beginIf (hl : Legible g) :
    Adds g [g.next] g.beginIf ∧ ∀ x, g.beginIf.seen x g.next = some (.unaimed .ifFalse) :=
  ⟨(Adds.append hl (.unaimed .ifFalse)).still rfl rfl rfl, fun _ => hl.seen_append_leap rfl⟩

/-- The jump over the second body ends the first one, and the jump over the first body leads behind it. -/
lemma ends_beginElse_links (hl : Legible g) (hb : g.branches = branch :: outer) (hnone : branch.other = none)
    (hm : branch.jump ∈ g.code.live) (hr : g.code.role? branch.jump = some .leap) :
    Ends beginElse g (fun _ g' => ∃ g1, Adds g [g.next] g1 ∧
      (∀ x, g1.seen x g.next = some (.unaimed .always)) ∧ g1.loops = g.loops ∧
      Links g1 [branch.jump] g' ∧ g'.loops = g1.loops ∧ g'.tries = g.tries ∧
      ∃ items, g'.branches = { branch with other := some (g.next, items) } :: outer) fun _ => True := by
  refine .of_run (beginElse_ok hb hnone) ?_
  have hl0 : Legible { g with branches := outer } := hl.still rfl rfl rfl
  obtain ⟨hbranches, hloops, -, htries, -⟩ :=
    eq_of_outline (outline_append { g with branches := outer } (.unaimed .always))
  have ha := Adds.append hl0 (.unaimed .always)
  refine ⟨_, ha.ofBase rfl rfl, fun x => ?_, hloops, ?_, rfl, htries, g.stack.items, congrArg _ hbranches⟩
  · exact hl0.seen_append_leap rfl
  · exact (Links.linkNext ha.legible (ha.old_mem_live hm)
      ((CodeMap.role?_congr (shape?_append_of_lt (hl0.laid.lt_next hm))).trans hr)).still rfl rfl rfl

/-- The end of the statement: the jump that is still open leads behind it. -/
lemma ends_endIf_links (hl : Legible g) (hb : g.branches = branch :: outer) (hm : branch.held ∈ g.code.live)
    (hr : g.code.role? branch.held = some .leap) :
    Ends endIf g (fun _ g' => Links g [branch.held] g' ∧ g'.loops = g.loops) fun _ => True :=
  .of_run (endIf_ok hb) ⟨(Links.linkNext hl hm hr).still rfl rfl rfl, rfl⟩

end Generator

/-- The condition and the jump over the first body. -/
structure Tested (P : Opcode → Prop) (inLoop : Bool) (condition : List Command) (g : Generator) (a : List Handle)
    (j : Handle) (g1 g2 : Generator) : Prop where
  stretch : Stretch inLoop g (a ++ [j]) [j] {} g2 fun φ ρ _ _ => Emits P condition g g1 (coded φ a) (ρ j)
  jump : ∀ x, g2.seen x j = some ⟨.jump .ifFalse false, [], .unresolved⟩
  tries : g2.tries = g.tries
  branches : g2.branches = { jump := j } :: g.branches

lemma PartLaid.tested {condition : List Command} {g1 g2 : Generator} (hpart : PartLaid P condition g new g1)
    (hrun : Ran [.beginIf] g1 g2) : Tested P inLoop condition g new g1.next g1 g2 := by
  obtain rfl : g1.beginIf = g2 := (EStateM.Result.ok.inj (ran_single.1 hrun)).2
  obtain ⟨ha, hj⟩ := adds_beginIf hpart.adds.legible
  obtain ⟨hb, hlo, -, ht, -⟩ := eq_of_outline (outline_append g1 (.unaimed .ifFalse))
  have hk := hpart.constructs
  simp only [Generator.constructs, Prod.mk.injEq] at hk
  exact ⟨((Stretch.of_part hpart).append (.of_adds ha hlo)).mono fun hq => hq.1.2, hj, ht.trans hk.2.2.2.2,
    congrArg _ (hb.trans hk.2.1)⟩

namespace Tested

variable {condition : List Command} {a : List Handle} {g1 g2 : Generator}

lemma mem_live (h : Tested P inLoop condition g a j g1 g2) : j ∈ g2.code.live :=
  h.stretch.adds.mem_live (mem_append_right _ mem_cons_self)

/-- The jump is still open behind the first body. -/
lemma open_jump (h : Tested P inLoop condition g a j g1 g2) (ha : Adds g2 new g') :
    j ∈ g'.code.live ∧ ∀ x, g'.seen x j = some (.unaimed .ifFalse) :=
  ⟨ha.old_mem_live h.mem_live, fun x => by rw [ha.seen x j h.mem_live, h.jump]⟩

end Tested

namespace Statement

variable {condition : List Command} {body other : Statement}

lemma lays_ifThen (hbody : body.Lays P inLoop true) : (ifThen condition body).Lays P inLoop narrowing := by
  intro b f? symbols g g' hp hrun
  obtain ⟨g1, hrun1, hrun⟩ := ran_append.1 hrun
  obtain ⟨g2, hrun2, hrun⟩ := ran_cons.1 hrun
  obtain ⟨g3, hrun3, hrun4⟩ := ran_append.1 hrun
  obtain ⟨hg, hn, hfit, hcmds, -⟩ := id hp
  simp only [nested, fits, commands, Bool.and_eq_true, forall_mem_append, forall_mem_cons] at hn hfit hcmds
  rw [after_of_ok (ran_append.2 ⟨g1, hrun1, hrun2⟩)] at hfit
  obtain ⟨a, hpart⟩ := hg.laysPart hfit.1 hn.1 (fun cmd hm => (hcmds.1 cmd hm).1) (fun cmd hm => (hcmds.1 cmd hm).2) hrun1
  have htest : Tested P inLoop condition g a g1.next g1 g2 := hpart.tested hrun2
  generalize g1.next = j at htest
  have hp2 : Placed P inLoop true b f? symbols body g2 :=
    ⟨(hg.runAll hrun1).runAll hrun2, hn.2, hfit.2, hcmds.2.2.1, hp.opened.still htest.stretch.loops htest.tries⟩
  obtain ⟨bs, e, hout⟩ := hbody hp2 hrun3
  obtain ⟨hm3, hj3⟩ := htest.open_jump hout.adds
  obtain ⟨hlink, hloops⟩ := Ends.of_ok (ran_single.1 hrun4) (ends_endIf_links hout.adds.legible
    ((hp2.kept hrun3).branches.trans htest.branches) hm3 (role?_of_seen (hj3 0)))
  change Links g3 [j] g' at hlink
  have hall := (htest.stretch.append (.of_lays hout)).links hlink hloops (by simp)
  refine ⟨_, _, hall.laysOut fun {φ ρ w x} hst hreads hq => ?_⟩
  obtain ⟨hemits, -, hblock⟩ := hq
  obtain ⟨hρ, hφ⟩ := hreads j (by simp)
  rw [hlink.seen_of_mem hm3 mem_cons_self, hj3] at hφ
  rw [hρ] at hemits
  obtain ⟨l, hblock⟩ := hblock rfl (hst.still htest.stretch.loops htest.tries)
  refine ⟨l, ?_⟩
  rw [append_assoc, coded_append, singleton_append, coded_cons hφ]
  exact .ifThen hemits hrun2 hblock

lemma lays_ifElse (hbody : body.Lays P inLoop true) (hother : other.Lays P inLoop true) :
    (ifElse condition body other).Lays P inLoop narrowing := by
  intro b f? symbols g g' hp hrun
  obtain ⟨g1, hrun1, hrun⟩ := ran_append.1 hrun
  obtain ⟨g2, hrun2, hrun⟩ := ran_cons.1 hrun
  obtain ⟨g3, hrun3, hrun⟩ := ran_append.1 hrun
  obtain ⟨g4, hrun4, hrun⟩ := ran_cons.1 hrun
  obtain ⟨g5, hrun5, hrun6⟩ := ran_append.1 hrun
  obtain ⟨hg, hn, hfit, hcmds, -⟩ := id hp
  simp only [nested, fits, commands, Bool.and_eq_true, forall_mem_append, forall_mem_cons] at hn hfit hcmds
  rw [after_of_ok (ran_append.2 ⟨g1, hrun1, hrun2⟩), after_of_ok (ran_append.2 ⟨g3, hrun3, hrun4⟩), Bool.and_eq_true] at hfit
  obtain ⟨a, hpart⟩ := hg.laysPart hfit.1 hn.1.1 (fun cmd hm => (hcmds.1 cmd hm).1) (fun cmd hm => (hcmds.1 cmd hm).2) hrun1
  have htest : Tested P inLoop condition g a g1.next g1 g2 := hpart.tested hrun2
  generalize g1.next = j at htest
  have hg2 := (hg.runAll hrun1).runAll hrun2
  have hp2 : Placed P inLoop true b f? symbols body g2 :=
    ⟨hg2, hn.1.2, hfit.2.1, hcmds.2.2.1, hp.opened.still htest.stretch.loops htest.tries⟩
  obtain ⟨bs, e1, hout1⟩ := hbody hp2 hrun3
  have hk3 := hp2.kept hrun3
  obtain ⟨hm3, hj3⟩ := htest.open_jump hout1.adds
  -- the jump over the second body
  obtain ⟨m4, ham, hkm, hloopsm, hlink4, hloops4, htries4, items, hbranches4⟩ := Ends.of_ok (ran_single.1 hrun4)
    (ends_beginElse_links hout1.adds.legible (hk3.branches.trans htest.branches) rfl hm3 (role?_of_seen (hj3 0)))
  generalize g3.next = k at ham hkm hbranches4
  have hfirst := ((htest.stretch.append (.of_lays hout1)).append (.of_adds ham hloopsm)).links hlink4 hloops4 (by simp)
  have htries : g4.tries = g.tries := htries4.trans (hk3.tries.trans htest.tries)
  have hp4 : Placed P inLoop true b f? symbols other g4 :=
    ⟨(hg2.runAll hrun3).runAll hrun4, hn.2, hfit.2.2, hcmds.2.2.2.2.1, hp.opened.still hfirst.loops htries⟩
  obtain ⟨cs, e2, hout2⟩ := hother hp4 hrun5
  have hne : j ≠ k := fun he => by
    have hsame := (hkm 0).symm.trans (he ▸ (ham.seen 0 j hm3).trans (hj3 _))
    cases hsame
  have hkm4 : k ∈ m4.code.live := ham.mem_live mem_cons_self
  have hm4 : ∀ h ∈ [j, k], h ∈ g4.code.live := fun h hm => hfirst.adds.mem_live (by grind)
  have hk5 : ∀ x, g5.seen x k = some (.unaimed .always) := fun x => by
    rw [hout2.adds.seen x k (hm4 k (by simp)), hlink4.seen_of_not_mem hkm4 (by simpa using hne.symm), hkm]
  have hj5 : ∀ x, g5.seen x j = some (goto .ifFalse (cs.head?.getD x)) := fun x => by
    rw [hout2.adds.seen x j (hm4 j (by simp)), hlink4.seen_of_mem (ham.old_mem_live hm3) mem_cons_self, ham.seen _ j hm3,
      hj3]
    rfl
  have hm5 : ∀ h ∈ [j, k], h ∈ g5.code.live := fun h hm => hout2.adds.old_mem_live (hm4 h hm)
  obtain ⟨hlink, hloops⟩ := Ends.of_ok (ran_single.1 hrun6) (ends_endIf_links hout2.adds.legible
    ((hp4.kept hrun5).branches.trans hbranches4) (hm5 k (by simp)) (role?_of_seen (hk5 0)))
  change Links g5 [k] g' at hlink
  have hall := (hfirst.append (.of_lays hout2)).links hlink hloops (by simp)
  refine ⟨_, _, hall.laysOut fun {φ ρ w x} hst hreads hq => ?_⟩
  obtain ⟨⟨⟨hemits, -, hblock1⟩, -⟩, hentry, hblock2⟩ := hq
  obtain ⟨hρj, hφj⟩ := hreads j (by simp)
  obtain ⟨hρk, hφk⟩ := hreads k (by simp)
  rw [hlink.seen_of_not_mem (hm5 j (by simp)) (by simpa using hne), hj5] at hφj
  rw [hlink.seen_of_mem (hm5 k (by simp)) mem_cons_self, hk5] at hφk
  obtain ⟨l, hb1⟩ := hblock1 rfl (hst.still htest.stretch.loops htest.tries)
  obtain ⟨m, hb2⟩ := hblock2 rfl (hst.still hfirst.loops htries)
  rw [hρj] at hemits
  rw [head?_cons, getD_some, hρk] at hb1
  refine ⟨l ++ m, ?_⟩
  rw [map_some, rename, Target.rename, ← hentry] at hφj
  simp only [append_assoc, coded_append, singleton_append, coded_cons hφj, coded_cons hφk]
  exact .ifElse hemits hrun2 hb1 (ran_append.2 ⟨g3, hrun3, hrun4⟩) hb2

end Statement

/-! ### Leaving a loop early -/

lemma Reads.snd_coded (hr : Reads φ ρ g x hs) :
    (coded φ hs).map Prod.snd = ((g.listing x hs).map Prod.snd).map (rename ρ) := by
  rw [listing, coded, List.map_map, map_filterMap, map_filterMap]
  refine filterMap_congr fun h hm => ?_
  rw [(hr h hm).2]
  cases g.seen x h <;> rfl

/-- Plain code reads as it was written. -/
lemma Reads.coded_eq (hr : Reads φ ρ g x (code.map Prod.fst)) (hseen : ∀ d ∈ code, g.seen x d.1 = some d.2)
    (ht : ∀ d ∈ code, d.2.target = .unresolved) : coded φ (code.map Prod.fst) = code :=
  NeoScript.coded_eq fun d hd => by
    rw [(hr d.1 (mem_map_of_mem hd)).2, hseen d hd, map_some, rename_of_unresolved (ht d hd)]

namespace Generator

/-- The jump out of one more protected block. -/
lemma exitJump_succ (g : Generator) (n : Nat) :
    g.exitJump (n + 2) = ((g.emitOpen (.tryLeave false)).linkNext g.next).exitJump (n + 1) := rfl

/-- The opcode of a jump out of protected blocks. -/
def exitOpcode (levels : Nat) : Opcode := if levels = 0 then .jump .always false else .tryLeave false

lemma role_exitOpcode (levels : Nat) : (exitOpcode levels).role = .leap := by
  unfold exitOpcode
  split_ifs <;> rfl

/-- A jump out of protected blocks: its last instruction has no target yet, and once it has one, the whole leads there. -/
structure ExitsBy (levels : Nat) (g : Generator) (hs : List Handle) (j : Handle) (g' : Generator) : Prop where
  adds : Adds g (hs ++ [j]) g'
  first : (hs ++ [j]).head? = some g.next
  role : g'.code.role? g.next = some .leap
  last : ∀ x, g'.seen x j = some ⟨exitOpcode levels, [], .unresolved⟩
  chain : ∀ {φ : Handle → Option Instruction} {ρ : Handle → Handle} {x t : Handle}, Reads φ ρ g' x hs → ρ j = j →
    φ j = some ⟨exitOpcode levels, [], .code t⟩ → Chain t levels (coded φ (hs ++ [j]))

lemma exitsBy_exitJump (hl : Legible g) (levels : Nat) :
    ∃ hs, ExitsBy levels g hs (g.exitJump levels).2 (g.exitJump levels).1 := by
  have hlast : ∀ {g : Generator} (levels : Nat), Legible g → ∀ x,
      (g.append ⟨exitOpcode levels, [], .unresolved⟩).seen x g.next = some ⟨exitOpcode levels, [], .unresolved⟩ :=
    fun levels hl x => hl.seen_append_next (fun _ => rfl) (by rw [role_exitOpcode]; simp)
  induction levels using Nat.twoStepInduction generalizing g with
  | zero =>
    refine ⟨[], .append hl _, rfl, (role?_of_seen (hlast 0 hl 0)).trans rfl, hlast 0 hl, fun _ _ hφ => ?_⟩
    rw [nil_append, coded_cons hφ]
    exact .jump _
  | one =>
    refine ⟨[], .append hl _, rfl, (role?_of_seen (hlast 1 hl 0)).trans rfl, hlast 1 hl, fun _ _ hφ => ?_⟩
    rw [nil_append, coded_cons hφ]
    exact .leave _
  | more n _ ih =>
    obtain ⟨ha, hself⟩ := adds_linkNext (o := .tryLeave false) hl rfl
    obtain ⟨hs, hex⟩ := ih ha.legible
    rw [exitJump_succ]
    generalize (g.emitOpen (.tryLeave false)).linkNext g.next = g1 at *
    generalize g1.exitJump (n + 1) = r at *
    have hfirst : ∀ x, r.1.seen x g.next = some (leave g1.next) := fun x => by
      rw [hex.adds.seen x _ (ha.mem_live mem_cons_self), hex.first, hself]
      rfl
    refine ⟨g.next :: hs, ha.trans hex.adds, rfl, role?_of_seen (hfirst 0), hex.last, fun {φ ρ x t} hread hj hφ => ?_⟩
    have hrest : Reads φ ρ r.1 x hs := fun h hm => hread h (mem_cons_of_mem _ hm)
    have hchain := hex.chain hrest hj hφ
    have hsome : ∀ h ∈ hs ++ [r.2], ρ h = h ∧ φ h ≠ none := fun h hm => by
      rcases mem_append.1 hm with hm | hm
      · obtain ⟨i, hi⟩ := hex.adds.isSome (mem_append_left _ hm) x
        rw [(hrest h hm).2, hi]
        exact ⟨(hrest h hm).1, by simp⟩
      · rw [mem_singleton.1 hm, hφ]
        exact ⟨hj, by simp⟩
    have hnext : ρ g1.next = g1.next := (hsome _ (mem_of_head? hex.first)).1
    have hentry : entry (coded φ (hs ++ [r.2])) t = g1.next := by
      rw [entry_coded (fun h hm => (hsome h hm).2), hex.first]
      rfl
    have hhead : φ g.next = some (leave (entry (coded φ (hs ++ [r.2])) t)) := by
      rw [(hread _ mem_cons_self).2, hfirst, hentry, map_some, rename, Target.rename, hnext]
    rw [cons_append, coded_cons hhead]
    exact .next _ hchain

lemma loops_modifyLoop {l : OpenLoop} {outer : List OpenLoop} {p : OpenLoop → OpenLoop} (h : g.loops = l :: outer)
    (hp : p l = l.add e) : (g.modifyLoop p).loops = grow e g.loops := by
  rw [modifyLoop_of_loops p h, h, hp]
  rfl

end Generator

namespace Statement

lemma lays_continueLoop : continueLoop.Lays P inLoop narrowing := by
  intro b f? symbols g g' hp hrun
  obtain rfl : inLoop = true := hp.nested
  have hends : Ends Generator.continueLoop g (fun _ g' => ∃ (l : OpenLoop) (outer : List OpenLoop) (levels : Nat),
      g.loops = l :: outer ∧ g.tries.length = l.tryDepth + levels ∧
      g' = (g.exitJump levels).1.modifyLoop fun l => { l with continues := l.continues ++ [(g.exitJump levels).2] })
      fun _ => True := by
    refine (ends_innerLoop _ trivial).bind ?_
    rintro ⟨l, levels⟩ _ ⟨rfl, outer, hloops, hdepth⟩
    exact .modify ⟨l, outer, levels, hloops, hdepth, rfl⟩
  obtain ⟨l, outer, levels, hloops, hdepth, rfl⟩ := hends.of_ok (ran_single.1 hrun)
  obtain ⟨hs, hex⟩ := exitsBy_exitJump hp.going.legible levels
  obtain ⟨-, hlo, -⟩ := eq_of_outline (outline_exitJump g levels)
  generalize g.exitJump levels = r at *
  have hadds : Adds g (hs ++ [r.2]) (r.1.modifyLoop fun l => { l with continues := l.continues ++ [r.2] }) :=
    hex.adds.still rfl rfl rfl
  have hj : r.2 ∉ hs := fun hm =>
    disjoint_of_nodup_append (nodup_append.1 hadds.nodup).2.1 hm mem_cons_self
  have hsrc : (⟨[], [r.2]⟩ : Exits).sources = [r.2] := rfl
  refine ⟨hs ++ [r.2], ⟨[], [r.2]⟩, hadds, ?_, ⟨by simp, ?_, by simp [hsrc], ?_, by simp [flags],
    by simp [flags]⟩, fun {φ ρ w x} hst hagree => ⟨[], ?_⟩⟩
  · rw [← hlo]
    exact loops_modifyLoop (hlo.trans hloops) (by simp [OpenLoop.add])
  · rw [hsrc]
    simp
  · intro h hm
    rw [show h = r.2 by simpa [jumps] using hm]
    exact ⟨exitOpcode levels, role_exitOpcode levels, hex.last⟩
  · obtain ⟨l', outer', hloops', -, hdepth'⟩ := hst.inner rfl
    obtain ⟨rfl, -⟩ := List.cons.inj (hloops.symm.trans hloops')
    obtain rfl : levels = w.levels := Nat.add_left_cancel (hdepth.symm.trans hdepth')
    have hread : Reads φ ρ r.1 x hs := hagree.reads (fun h hm => mem_append_left _ hm) (fun h _ => seen_still rfl rfl)
      fun h hm hs => hj (mem_singleton.1 (hsrc ▸ hs) ▸ hm)
    obtain ⟨hρ, t, hagain, hφ⟩ := (hagree r.2 (by simp)).again mem_cons_self
    exact .continueLoop hagain (hex.chain hread hρ (hφ.trans (congrArg _ (hex.last x))))

lemma lays_breakLoop : breakLoop.Lays P inLoop narrowing := by
  intro b f? symbols g g' hp hrun
  obtain rfl : inLoop = true := hp.nested
  have hends : Ends Generator.breakLoop g (fun _ g' => ∃ (l : OpenLoop) (outer : List OpenLoop) (levels : Nat)
      (r : Generator × Handle),
      g.loops = l :: outer ∧ g.tries.length = l.tryDepth + levels ∧
      r = ((g.dropN l.kind.kept).op (.pushBool true) 0 (some .bool)).exitJump levels ∧
      g' = (r.1.restoreStack g.stack.items).modifyLoop fun k =>
        { k with breaks := k.breaks ++ [⟨(g.dropN l.kind.kept).next, r.2⟩] }) fun _ => True := by
    refine (ends_innerLoop _ trivial).bind ?_
    rintro ⟨l, levels⟩ _ ⟨rfl, outer, hloops, hdepth⟩
    exact .modify ⟨l, outer, levels, _, hloops, hdepth, rfl, rfl⟩
  obtain ⟨l, outer, levels, r, hloops, hdepth, hr, hg'⟩ := hends.of_ok (ran_single.1 hrun)
  obtain ⟨a, hdrops, hw⟩ := (Writes.refl hp.going.legible).dropN l.kind.kept
  rw [nil_append] at hw
  -- the flag
  have hflag : Adds (g.dropN l.kind.kept) [(g.dropN l.kind.kept).next]
      ((g.dropN l.kind.kept).op (.pushBool true) 0 (some .bool)) :=
    (Adds.append hw.legible (bare (.pushBool true))).still rfl rfl rfl
  have hseen : ∀ x, ((g.dropN l.kind.kept).op (.pushBool true) 0 (some .bool)).seen x (g.dropN l.kind.kept).next =
      some (bare (.pushBool true)) := fun x =>
    hw.legible.seen_append_next (i := bare (.pushBool true)) (fun _ => rfl) (by simp [role])
  have hnext : ((g.dropN l.kind.kept).op (.pushBool true) 0 (some .bool)).next = (g.dropN l.kind.kept).next + 1 :=
    nextHandle_append _ (bare (.pushBool true))
  obtain ⟨hs, hex⟩ := exitsBy_exitJump hflag.legible levels
  have hlo : r.1.loops = g.loops := by
    rw [hr]
    exact (eq_of_outline ((outline_exitJump _ levels).trans ((outline_op _ _ _ _).trans (outline_dropN _ _)))).2.1
  rw [← hr] at hex
  generalize (g.dropN l.kind.kept).op (.pushBool true) 0 (some .bool) = g2 at *
  generalize (g.dropN l.kind.kept).next = flag at *
  generalize g.dropN l.kind.kept = g1 at *
  have hbehind : Adds g1 (flag :: (hs ++ [r.2])) g' := by
    rw [hg']
    exact (hflag.trans hex.adds).still rfl rfl rfl
  have hadds : Adds g (a.map Prod.fst ++ flag :: (hs ++ [r.2])) g' := hw.toAdds.trans hbehind
  have hnd := (nodup_append.1 hadds.nodup).2.1
  have hsrc : (⟨[⟨flag, r.2⟩], []⟩ : Exits).sources = [flag, r.2] := rfl
  have hsame : ∀ x h, g'.seen x h = r.1.seen x h := fun x h => by
    rw [hg']
    exact seen_still rfl rfl
  have hflag' : ∀ x, g'.seen x flag = some (bare (.pushBool true)) := fun x => by
    rw [hsame, hex.adds.seen x flag (hflag.mem_live mem_cons_self), hseen]
  obtain ⟨rest, hrest⟩ := head?_eq_some_iff.1 hex.first
  refine ⟨_, ⟨[⟨flag, r.2⟩], []⟩, hadds, ?_, ⟨by simp, ?_, ?_, ?_, ?_, ?_⟩, fun {φ ρ w x} hst hagree => ⟨[], ?_⟩⟩
  · rw [← hlo, hg']
    exact loops_modifyLoop (g := r.1.restoreStack g.stack.items) (hlo.trans hloops) (by simp [OpenLoop.add])
  · rw [hsrc]
    simp
  · rw [hsrc]
    grind
  · intro h hm
    rw [show h = r.2 by simpa [jumps] using hm]
    exact ⟨exitOpcode levels, role_exitOpcode levels, fun x => (hsame x _).trans (hex.last x)⟩
  · intro h hm
    rwa [show h = flag by simpa [flags] using hm]
  · intro h hm
    rw [show h = flag by simpa [flags] using hm]
    refine ⟨?_, a.map Prod.fst, rest, by rw [hrest, hnext]⟩
    rw [← hnext, hg']
    exact hex.role
  · obtain ⟨l', outer', hloops', hkept, hdepth'⟩ := hst.inner rfl
    obtain ⟨rfl, -⟩ := List.cons.inj (hloops.symm.trans hloops')
    obtain rfl : levels = w.levels := Nat.add_left_cancel (hdepth.symm.trans hdepth')
    have hread1 : Reads φ ρ g1 flag (a.map Prod.fst) :=
      hagree.reads (fun h hm => mem_append_left _ hm) (fun h hm => hbehind.seen x h (hw.toAdds.mem_live hm)) fun h hm hs => by
        rw [hsrc] at hs
        grind
    have hread2 : Reads φ ρ r.1 x hs :=
      hagree.reads (fun h hm => by simp [hm]) (fun h _ => hsame x h) fun h hm hs => by
        rw [hsrc] at hs
        grind
    obtain ⟨hρ, t, hleave, hφ⟩ := (hagree r.2 (by simp)).jump mem_cons_self
    obtain ⟨-, hφf⟩ := (hagree flag (by simp)).flag mem_cons_self
    rw [hsame, hex.last] at hφ
    rw [hflag'] at hφf
    rw [coded_append, show flag :: (hs ++ [r.2]) = [flag] ++ (hs ++ [r.2]) from rfl, coded_append φ [flag]]
    refine .breakLoop hleave ?_ ?_ (hex.chain hread2 hρ hφ)
    · rw [hread1.snd_coded, hw.reads, hdrops, hkept, map_replicate]
      rfl
    · cases hf : w.flagged with
      | true =>
        rw [hf] at hφf
        rw [coded_cons hφf]
        rfl
      | false =>
        rw [hf] at hφf
        rw [coded, filterMap_cons, hφf]
        rfl

end Statement

/-! ### Leaving the method -/

/-- Plain code reads as it was written. -/
lemma Generator.Writes.snd_coded (hw : Writes g code g') (hr : Reads φ ρ g' x (code.map Prod.fst))
    (hcode : ∀ e ∈ code, e.2.target = .unresolved) : (coded φ (code.map Prod.fst)).map Prod.snd = code.map Prod.snd := by
  rw [hr.snd_coded, hw.reads, List.map_map]
  exact map_congr_left fun e he => rename_of_unresolved (hcode e he) ρ

lemma unresolved_of_snd {is : List Instruction} (h : code.map Prod.snd = is)
    (his : ∀ i ∈ is, i.target = .unresolved) : ∀ e ∈ code, e.2.target = .unresolved := fun e he =>
  his e.2 (h ▸ mem_map_of_mem he)

namespace Generator

lemma writes_returnFrom (hl : Legible g) (hasValue : Bool) :
    Ends (returnFrom hasValue) g (fun _ g' => g'.loops = g.loops ∧ ∃ code, Writes g code g' ∧
      code.map Prod.snd = replicate (g.loops.map fun l => l.kind.kept).sum (bare (if hasValue then .nip else .drop)) ++
        ((if (g.frame.any Frame.isInit && !hasValue) = true then [bare (.load .argument (some 0))] else []) ++ [bare .ret]))
      fun _ => True := by
  refine .get ?_
  cases hf : g.frame with
  | none => exact .throw trivial
  | some frame =>
    refine .modify ?_
    dsimp only
    generalize (g.loops.map fun l => l.kind.kept).sum = count
    obtain ⟨a, ha, hw, hlo⟩ : ∃ a, a.map Prod.snd = replicate count (bare (if hasValue then .nip else .drop)) ∧
        Writes g a (if hasValue then g.nipN count else g.dropN count) ∧
        (if hasValue then g.nipN count else g.dropN count).outline = g.outline := by
      cases hasValue with
      | true =>
        obtain ⟨a, ha, hw⟩ := (Writes.refl hl).nipN count
        exact ⟨a, ha, hw, outline_nipN g count⟩
      | false =>
        obtain ⟨a, ha, hw⟩ := (Writes.refl hl).dropN count
        exact ⟨a, ha, hw, outline_dropN g count⟩
    generalize (if hasValue then g.nipN count else g.dropN count) = g1 at *
    rw [any_some]
    by_cases hinit : (frame.isInit && !hasValue) = true
    · simp only [if_pos hinit]
      have hw2 := (hw.op (o := .load .argument (some 0)) rfl 0 (some .any)).append (i := bare .ret) (fun _ => rfl)
        (by simp [role])
      refine ⟨?_, _, hw2.still rfl rfl rfl, by simp [ha]⟩
      exact (eq_of_outline ((outline_append _ _).trans ((outline_op g1 _ _ _).trans hlo))).2.1
    · simp only [if_neg hinit]
      have hw2 := hw.append (i := bare .ret) (fun _ => rfl) (by simp [role])
      refine ⟨?_, _, hw2.still rfl rfl rfl, by simp [ha]⟩
      exact (eq_of_outline ((outline_append g1 _).trans hlo)).2.1

lemma writes_raise (hl : Legible g) : Writes g [(g.next, bare .throw)] g.raise ∧ g.raise.loops = g.loops :=
  ⟨((Writes.refl hl).append (i := bare .throw) (fun _ => rfl) (by simp [role])).still rfl rfl rfl,
    (eq_of_outline (outline_append g (bare .throw))).2.1⟩

end Generator

/-- A straight part with plain code behind it. -/
lemma PartLaid.followed {part : List Command} {g1 : Generator} (hpart : PartLaid P part g new g1)
    (hw : Writes g1 code g') (hlo : g'.loops = g1.loops) (hcode : ∀ e ∈ code, e.2.target = .unresolved)
    (hblock : ∀ {w x a c}, Stands inLoop w g → Emits P part g g1 a (entry c x) → c.map Prod.snd = code.map Prod.snd →
      Block P w s g (a ++ c) x []) : ∃ new e, LaysOut P inLoop s g new e g' := by
  have hplain : ∀ {φ ρ x}, Reads φ ρ g' x (code.map Prod.fst) →
      (coded φ (code.map Prod.fst)).map Prod.snd = code.map Prod.snd :=
    fun hread => hw.snd_coded hread hcode
  refine ⟨_, _, ((Stretch.of_part hpart).append (.of_reads hw.toAdds hlo hplain)).laysOut fun hst _ hq => ⟨[], ?_⟩⟩
  obtain ⟨⟨-, hemits⟩, hentry, hsnd⟩ := hq
  rw [← hentry] at hemits
  rw [coded_append]
  exact hblock hst hemits hsnd

namespace Statement

lemma lays_returnVoid : returnVoid.Lays P inLoop narrowing := by
  intro b f? symbols g g' hp hrun
  obtain ⟨hlo, code, hw, hcode⟩ := (writes_returnFrom hp.going.legible false).of_ok (ran_single.1 hrun)
  rw [if_neg Bool.false_ne_true, Bool.not_false, Bool.and_true] at hcode
  have hplain : ∀ e ∈ code, e.2.target = .unresolved := unresolved_of_snd hcode fun i hi => by
    simp only [mem_append, mem_replicate, mem_singleton] at hi
    rcases hi with ⟨-, rfl⟩ | hi | rfl
    · rfl
    · split_ifs at hi <;> simp_all
    · rfl
  refine ⟨_, _, (Stretch.of_reads hw.toAdds hlo fun hr => hw.snd_coded hr hplain).laysOut fun hst _ hq => ⟨[], .returnVoid ?_⟩⟩
  rw [hq.2, hcode, hst.total]

lemma lays_returnValue {value : List Command} : (returnValue value).Lays P inLoop narrowing := by
  intro b f? symbols g g' hp hrun
  obtain ⟨g1, hrun1, hrun2⟩ := ran_append.1 hrun
  obtain ⟨hg, hn, hfit, hcmds, -⟩ := id hp
  simp only [commands, forall_mem_append] at hcmds
  obtain ⟨a, hpart⟩ := hg.laysPart hfit hn (fun cmd hm => (hcmds.1 cmd hm).1) (fun cmd hm => (hcmds.1 cmd hm).2) hrun1
  obtain ⟨hlo, code, hw, hcode⟩ := (writes_returnFrom hpart.adds.legible true).of_ok (ran_single.1 hrun2)
  rw [if_pos rfl, Bool.not_true, Bool.and_false, if_neg Bool.false_ne_true, nil_append] at hcode
  refine hpart.followed hw hlo (unresolved_of_snd hcode ?_) fun {w x a c} hst hemits hc => .returnValue hemits ?_
  · intro i hi
    simp only [mem_append, mem_replicate, mem_singleton] at hi
    rcases hi with ⟨-, rfl⟩ | rfl <;> rfl
  · rw [hc, hcode, hst.total, show g1.loops = g.loops from congrArg (fun o => o.2.2.1) hpart.constructs]

lemma lays_raise {exception : List Command} : (raise exception).Lays P inLoop narrowing := by
  intro b f? symbols g g' hp hrun
  obtain ⟨g1, hrun1, hrun2⟩ := ran_append.1 hrun
  obtain ⟨hg, hn, hfit, hcmds, -⟩ := id hp
  simp only [commands, forall_mem_append] at hcmds
  obtain ⟨a, hpart⟩ := hg.laysPart hfit hn (fun cmd hm => (hcmds.1 cmd hm).1) (fun cmd hm => (hcmds.1 cmd hm).2) hrun1
  obtain rfl : g1.raise = g' := (EStateM.Result.ok.inj (ran_single.1 hrun2)).2
  obtain ⟨hw, hlo⟩ := writes_raise hpart.adds.legible
  refine hpart.followed hw hlo (by simp) fun {w x a c} hst hemits hc => ?_
  obtain ⟨⟨k, i⟩, rfl⟩ := length_eq_one_iff.1 (show c.length = 1 by simpa using congrArg List.length hc)
  obtain rfl : i = bare .throw := by simpa using hc
  exact .raise hemits

end Statement

end NeoScript
