import NeoScript.Proofs.Command.Obligations
import NeoScript.Proofs.Generator.Reopening
import NeoScript.Proofs.Session.Restoration

/-!
# Speculative emission

In the middle of a method a generator can be marked, linear commands can be tried, and what they emitted can be taken
back. Going back discards everything behind an address. So it restores the marked state exactly if the commands that
were tried did not take away an instruction from before the mark; the test for identity with a constant and the store
of a value that is not needed do that.
-/

namespace NeoScript

open Generator CodeMap Command List Link

variable {b c g g' : Generator} {f? : Option String} {log log' : List (Handle × String)} {X Y : Handle → Prop}
  {old old' new marks : List Handle} {cs : List Command}

namespace CodeMap

variable {m : CodeMap}

/-- The live instructions can be read off their list. -/
lemma Laid.live_eq (hl : m.Laid) : m.live = m.instructions.map fun e => e.2.1 := hl.map_handle_instructions.symm

end CodeMap

namespace Generator

/-! ### Going back -/

lemma Ahead.size_eq (ha : Ahead b new g) (hl : b.code.Laid) : b.code.size = CodeMap.span g.code.arena b.code.live := by
  rw [hl.size]
  refine span_congr fun h hm => ?_
  exact sizeOf_congr (ha.shape h (hl.lt_next hm)).symm

/-- Going back to a mark in the same method leaves its entry pending. -/
lemma abandonEntry_of_frame {c : Checkpoint} (hf : g.frame = c.frame) : g.abandonEntry c = g := by
  unfold abandonEntry
  rw [hf]
  cases c.frame with
  | none => rfl
  | some frame => simp

/-- **Going back undoes what was emitted.** -/
lemma Ahead.rollback (ha : Ahead b new g) (ho : b.Owned) (hb : Sound c f? log Y old' b)
    (hs : Sound c f? log' X old g) (hu : Owing [] b) (hg : Owing [] g) : Undone b (g.rollback b.checkpoint) := by
  obtain ⟨hremoved, hlive, harena, hlaid⟩ := hs.laid.truncate_split ha.live
  rw [← ha.size_eq hb.laid] at hremoved hlive harena hlaid
  have hgap : (⟨.ofList (g.code.truncate b.code.size).2, none⟩ : Gap) = emptied new := by rw [hremoved, emptied]
  have hundone : Undone b (g.truncated b.checkpoint) := by
    change Undone b (relink _ ⟨.ofList (g.code.truncate b.code.size).2, none⟩)
    rw [hgap]
    refine Stripped.undone (g := g) ⟨?_, ?_, ?_, rfl, rfl, rfl, rfl⟩ ha ho hb hs hu hg
    exacts [hlaid, hlive, harena]
  have hframe : (g.truncated b.checkpoint).frame = b.frame :=
    (frame_of_context (context_relink _ _)).trans ha.frame
  obtain ⟨hcode, hentries, hwaiting, hpending⟩ := g.rollback_eq b.checkpoint
  rw [abandonEntry_of_frame hframe] at hpending
  exact {
    laid := hcode ▸ hundone.laid
    live := hcode ▸ hundone.live
    grown := hcode ▸ hundone.grown
    shape := hcode ▸ hundone.shape
    code := hcode ▸ hundone.code
    pending := hpending ▸ hundone.pending
    once := hpending ▸ hundone.once
    waits := by rw [waitingOf_congr hwaiting]; exact hundone.waits
    starts := hentries ▸ hundone.starts
    entries := hentries ▸ hundone.entries }

lemma outermost_length {α : Type} (l : List α) : outermost l.length l = l := by simp [outermost]

lemma constructs_rollback (hk : g.constructs = b.constructs) : (g.rollback b.checkpoint).constructs = b.constructs := by
  have hkept := (constructs_of_context (g.context_abandoned b.checkpoint)).trans hk
  obtain ⟨-, hbranches, hloops, hguards, htries⟩ := by
    simpa only [constructs, Prod.mk.injEq] using hkept
  change (b.frame, outermost b.branches.length ((g.truncated b.checkpoint).abandonEntry b.checkpoint).branches,
    outermost b.loops.length ((g.truncated b.checkpoint).abandonEntry b.checkpoint).loops,
    outermost b.elseGuards.length ((g.truncated b.checkpoint).abandonEntry b.checkpoint).elseGuards,
    outermost b.tries.length ((g.truncated b.checkpoint).abandonEntry b.checkpoint).tries) = _
  rw [hbranches, hloops, hguards, htries]
  simp only [outermost_length, constructs]

lemma laid_rollback {c : Checkpoint} (hl : g.code.Laid) : (g.rollback c).code.Laid := by
  rw [(g.rollback_eq c).1]
  have hlaid : ({ g with code := (g.code.truncate c.address).1 }.note (.rollback c.address)).code.Laid :=
    hl.truncate c.address
  exact (relink_relinked hlaid).laid hlaid

/-- Nothing that was taken away comes back. -/
lemma mem_live_rollback {h : Handle} {c : Checkpoint} (hl : g.code.Laid) (hm : h ∈ (g.rollback c).code.live) :
    h ∈ g.code.live := by
  rw [(g.rollback_eq c).1] at hm
  have hlaid : ({ g with code := (g.code.truncate c.address).1 }.note (.rollback c.address)).code.Laid :=
    hl.truncate c.address
  rw [truncated, (relink_relinked hlaid).live] at hm
  change h ∈ (g.code.truncate c.address).1.live at hm
  rw [(hl.truncate_eq _).1, (hl.removeSpan _ _).2] at hm
  exact (mem_filter.1 hm).1

/-! ### Methods under way -/

/-- Between calls nothing but entries is owed. -/
lemma Idle.owing (h : Idle marks g) : Owing [] g := by
  have htries : g.tries = [] := by
    have hk := h.constructs
    simp only [Generator.constructs, Prod.mk.injEq] at hk
    exact hk.2.2.2.2
  have howed : g.owed = g.pending := by
    rw [owed, held_of_constructs h.constructs, htries]
    simp
  have hentry : ∀ l ∈ [] ++ g.owed, ∃ m, l = .entry m := by
    intro l hl
    rw [nil_append, howed] at hl
    exact h.links l hl
  refine ⟨fun l hsrc => ?_, fun l hl => ?_, fun m s hs => ?_⟩
  · rw [count_eq_zero.2]
    · exact Nat.zero_le _
    · intro hl
      obtain ⟨m, rfl⟩ := hentry l hl
      cases hsrc
  · obtain ⟨m, rfl⟩ := hentry l hl
    rintro s ⟨⟩
  · obtain ⟨-, i, hi, hr, -⟩ := h.waiting m s hs
    rw [role?_eq hi, hr]

lemma Owing.deferEntry (ho : Owing [] g) (name : String) : Owing [] (g.defer (.entry name)) := by
  refine ho.fewer rfl rfl fun l hl => ?_
  have hne : l ∉ [Link.entry name] := by
    rintro (_ | ⟨_, ⟨⟩⟩)
    cases hl
  change (g.pending ++ [Link.entry name] ++ (g.held.map jump ++ g.tries.flatMap OpenTry.owed)).count l ≤
    (g.pending ++ (g.held.map jump ++ g.tries.flatMap OpenTry.owed)).count l
  simp only [count_append, count_eq_zero.2 hne]
  omega

lemma ends_owing_openMethod (name : String) (ho : Owing [] g) :
    Ends (openMethod name) g (fun _ => Owing []) fun _ => True := by
  have hopened : Owing [] (g.opened name) := (ho.deferEntry name).still rfl
  refine .openMethod trivial (fun _ _ _ _ => trivial) fun _ _ i? _ _ _ => ?_
  cases i? with
  | none => exact hopened.fewer rfl rfl fun _ _ => Nat.le_refl _
  | some i => exact (hopened.append i).fewer rfl rfl fun _ _ => Nat.le_refl _

lemma ends_owing_opening {c : Call} (hb : Idle marks g) : Ends c.opening g (fun _ => Owing []) fun _ => True := by
  have hready := (ends_openMethod (hb.sound_opened c.name) nofun).mono
    (fun _ _ h => h) fun _ _ => trivial
  refine ((ends_owing_openMethod c.name hb.owing).and hready).bind ?_
  rintro ⟨⟩ g1 ⟨ho, h⟩
  cases c with
  | method name body => exact .pure ho
  | initializer body => exact .get (h.straight (straight_storeConstants (P := fun _ => True) _) kept_owing ho)

end Generator

/-- A state in the middle of a method that a session can reach: after any calls, some of which may have been refused,
a method was opened, commands were run, and some were tried and taken back. -/
inductive Underway : Generator → Prop where
  | opened {symbols : SymbolTable} {options : Options} {trace : Trace} {calls : List Call} {j : Journal} {c : Call}
      {g : Generator} (hrun : (Journal.start symbols options trace).run calls = some j)
      (hopen : c.opening.run j.session.generator = .ok () g) : Underway g
  | step {c : Command} {g g' : Generator} (hg : Underway g) (hrun : c.run.run g = .ok () g') : Underway g'
  | undone {cs : List Command} {g g' : Generator} (hg : Underway g) (ho : g.Owned)
      (hcs : ∀ c ∈ cs, c.isLinear = true) (hrun : (Command.runAll cs).run g = .ok () g')
      (hkept : ∀ h ∈ g.code.live, h ∈ g'.code.live) : Underway (g'.rollback g.checkpoint)

lemma Underway.runAll (hg : Underway g) (hrun : (runAll cs).run g = .ok () g') : Underway g' := by
  induction cs generalizing g with
  | nil =>
    cases hrun
    exact hg
  | cons c cs ih =>
    rw [runAll, run_bind] at hrun
    cases h1 : c.run.run g with
    | ok a g1 =>
      rw [h1] at hrun
      exact ih (hg.step h1) hrun
    | error e g1 =>
      rw [h1] at hrun
      cases hrun

/-- The state after commands at the start of a method. -/
def stateAfter (symbols : SymbolTable) (method : String) (cs : List Command) : Option Generator :=
  match (Call.method method []).opening.run (Journal.start symbols {} {}).session.generator with
  | .ok _ g₀ =>
    match (Command.runAll cs).run g₀ with
    | .ok _ g => some g
    | .error _ _ => none
  | .error _ _ => none

lemma Underway.of_stateAfter {symbols : SymbolTable} {method : String} (h : stateAfter symbols method cs = some g) :
    Underway g := by
  unfold stateAfter at h
  split at h
  · next g0 hopen =>
    split at h
    · next g1 hrun =>
      have hstart : (Journal.start symbols {} {}).run [] = some (Journal.start symbols {} {}) := rfl
      cases h
      exact (Underway.opened hstart hopen).runAll hrun
    · cases h
  · cases h

/-- The types on the stack after commands at the start of a method. -/
def typesAfter (symbols : SymbolTable) (method : String) (cs : List Command) : Option (List ValueType) :=
  (stateAfter symbols method cs).map fun g => g.stack.items

lemma underway_typesAfter {symbols : SymbolTable} {method : String} {items : List ValueType}
    (h : typesAfter symbols method cs = some items) : ∃ g, Underway g ∧ g.stack.items = items := by
  obtain ⟨g, hg, hitems⟩ := Option.map_eq_some_iff.1 h
  exact ⟨g, .of_stateAfter hg, hitems⟩

/-- Whether the operation is carried out and leads to a state that passes `p`. -/
def Emission.passes (x : Emission Unit) (g : Generator) (p : Generator → Bool) : Bool :=
  match x.run g with
  | .ok _ g' => p g'
  | .error _ _ => false

lemma Emission.run_of_passes {x : Emission Unit} {p : Generator → Bool} (h : x.passes g p = true) :
    ∃ g', x.run g = .ok () g' ∧ p g' = true := by
  unfold passes at h
  split at h
  · next g' hrun => exact ⟨g', hrun, h⟩
  · cases h

/-- Whether the commands `cs'` run after `cs` at the start of a method, and the states before and after them pass `p`. -/
def runsAfter (symbols : SymbolTable) (method : String) (cs cs' : List Command) (p : Generator → Generator → Bool) : Bool :=
  (stateAfter symbols method cs).any fun g => (Command.runAll cs').passes g (p g)

lemma underway_runsAfter {symbols : SymbolTable} {method : String} {cs' : List Command} {p : Generator → Generator → Bool}
    (h : runsAfter symbols method cs cs' p = true) :
    ∃ g g', Underway g ∧ (Command.runAll cs').run g = .ok () g' ∧ p g g' = true := by
  obtain ⟨g, hg, h⟩ := (Option.any_eq_true _ _).1 h
  obtain ⟨g', hrun, h⟩ := Emission.run_of_passes h
  exact ⟨g, g', .of_stateAfter hg, hrun, h⟩

/-- Linear commands in the middle of a method. -/
lemma Generator.Ready.linear (h : Ready b none log g) (ho : Owing [] g) (hcs : ∀ c ∈ cs, c.isLinear = true)
    (hrun : (runAll cs).run g = .ok () g') :
    Onward g g' ∧ g'.constructs = g.constructs ∧ Owing [] g' ∧ ∃ log', Ready b none log' g' := by
  obtain ⟨hf, new, hs⟩ := h
  obtain ⟨hon, hk, hready⟩ := (ends_runAll_onward cs hcs hs ⟨hf, new, hs⟩ (.refl g)).of_ok hrun
  have ho' := (ends_runAll_owing cs ⟨hf, new, hs⟩ ho).of_ok hrun
  exact ⟨hon, hk, ho', hready⟩

/-- What linear commands emitted is undone by going back, if they took nothing away. -/
lemma Generator.Ready.undone (h : Ready b none log g) (ho : Owing [] g) (hown : g.Owned)
    (hcs : ∀ c ∈ cs, c.isLinear = true) (hrun : (runAll cs).run g = .ok () g')
    (hkept : ∀ h ∈ g.code.live, h ∈ g'.code.live) :
    Undone g (g'.rollback g.checkpoint) ∧ (g'.rollback g.checkpoint).constructs = g.constructs := by
  obtain ⟨⟨-, hlost | ⟨more, ha⟩⟩, hk, ho', log', -, new', hs'⟩ := h.linear ho hcs hrun
  · obtain ⟨x, hx, -, hgone⟩ := hlost
    exact absurd (hkept x (mem_of_getLast? hx)) hgone
  · obtain ⟨-, new, hs⟩ := h
    exact ⟨ha.rollback hown hs hs' ho ho', constructs_rollback hk⟩

/-- **Every state in the middle of a method is sound**, and each of its open jumps is owed a destination once. -/
lemma Underway.ready (hg : Underway g) : ∃ b log, Ready b none log g ∧ Owing [] g := by
  induction hg with
  | @opened symbols options trace calls j c g hrun hopen =>
    have hidle := Journal.idle_run (idle_start symbols options trace) hrun
    have hready := (Call.ends_opening (hidle.sound_opened c.name) nofun).of_ok hopen
    have ho := (ends_owing_opening hidle).of_ok hopen
    exact ⟨j.session.generator, [], hready, ho⟩
  | @step c g g' _ hrun ih =>
    obtain ⟨b, log, hready, ho⟩ := ih
    have ho' := (ends_run_owing hready ho c).of_ok hrun
    exact ⟨b, _, ((ends_run hready c).of_ok hrun).1, ho'⟩
  | @undone cs g g' _ hown hcs hrun hkept ih =>
    obtain ⟨b, log, hready, ho⟩ := ih
    obtain ⟨hundone, hk⟩ := hready.undone ho hown hcs hrun hkept
    obtain ⟨hf, new, hs⟩ := hready
    refine ⟨b, log, ⟨?_, new, hundone.sound hk hs⟩, hundone.owing hk hs ho⟩
    rwa [show (g'.rollback g.checkpoint).frame = g.frame from congrArg Prod.fst hk]

/-- The state `r` has the live instructions of `g` with their handles, addresses and targets, the same pending links
and waiting calls, and the same stack. -/
structure Restores (g r : Generator) : Prop where
  code : r.code.instructions = g.code.instructions
  size : r.code.size = g.code.size
  pending : ∀ l, l ∈ r.pending ↔ l ∈ g.pending
  waits : ∀ m h, h ∈ r.waitingOf m ↔ h ∈ g.waitingOf m
  stack : r.stack.items = g.stack.items

/-- **Speculation can be undone exactly if it took nothing away.** In the middle of a method, linear commands are tried
and then taken back. The state is as it was before them, with the same live instructions, pending links and stack, if
and only if no instruction from before them was removed. -/
theorem rollback_restores_iff (hg : Underway g) (howned : g.Owned) (hlinear : ∀ c ∈ cs, c.isLinear = true)
    (hrun : (Command.runAll cs).run g = .ok () g') :
    Restores g (g'.rollback g.checkpoint) ↔ ∀ h ∈ g.code.live, h ∈ g'.code.live := by
  obtain ⟨b, log, hready, ho⟩ := hg.ready
  obtain ⟨-, -, -, log', -, new', hs'⟩ := hready.linear ho hlinear hrun
  have hlaid : g.code.Laid := hready.2.choose_spec.laid
  constructor
  · intro hrestores h hm
    refine mem_live_rollback hs'.laid (c := g.checkpoint) ?_
    have hlaid' : (g'.rollback g.checkpoint).code.Laid := laid_rollback hs'.laid
    rw [hlaid'.live_eq, hrestores.code, ← hlaid.live_eq]
    exact hm
  · intro hkept
    obtain ⟨hundone, -⟩ := hready.undone ho howned hlinear hrun hkept
    obtain ⟨hcode, hsize⟩ := hlaid.same_instructions hundone.laid hundone.live hundone.code
    exact ⟨hcode, hsize, hundone.pending, hundone.waits, rfl⟩

/-- A branch that asserts something. -/
def guardedAssertion : List Command :=
  [.literal (.bool true), .beginIf, .literal (.bool false), .assert false, .endIf]

/-- A sum with a call. -/
def sumWithCall : List Command := [.integer 1, .call "callee", .binary .add]

/-- What is tried behind the end of a branch can be taken back, and the jump over the branch is pending again. -/
theorem rollback_restores_iff_branch :
    ∃ g g', Underway g ∧ g.Owned ∧ g.pending.length = 1 ∧ (Command.runAll sumWithCall).run g = .ok () g' ∧
      g.code.length + 3 = g'.code.length ∧ Restores g (g'.rollback g.checkpoint) := by
  have hsome : runsAfter callerAndCallee "caller" guardedAssertion sumWithCall (fun g g' =>
      (g.pending.all fun l => l.source?.isSome) && g.pending.length == 1 && g.code.length + 3 == g'.code.length &&
        g.code.live.all g'.code.live.contains) = true := by decide +kernel
  obtain ⟨g, g', hunderway, hrun, hsome⟩ := underway_runsAfter hsome
  simp only [Bool.and_eq_true, List.all_eq_true, beq_iff_eq, List.contains_iff_mem] at hsome
  obtain ⟨⟨⟨howned, hpending⟩, hlength⟩, hkept⟩ := hsome
  have hown : g.Owned := fun m hm => by cases howned _ hm
  exact ⟨g, g', hunderway, hown, hpending, hrun, hlength,
    (rollback_restores_iff hunderway hown (by decide) hrun).2 hkept⟩

end NeoScript
