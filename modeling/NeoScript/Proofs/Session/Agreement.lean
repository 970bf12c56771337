import NeoScript.Proofs.CodeMap.RenamedScript
import NeoScript.Proofs.Command.Agreement
import NeoScript.Proofs.Session.Calls

/-!
# Calls on alike generators

Between calls two generators are twins if they differ only in their handles, and in whether jumps may be widened. A call
treats twins in the same way: it compiles its method in both, or is refused by both for the same cause and taken back, and
they are twins again. Finishing them comes to code that is alike and has only to be written out.
-/

namespace NeoScript

open Generator List Option CodeMap Session

namespace Generator

variable {ρ : Handle ↪o Handle} {b : Outset} {g g' s s' : Generator} {marks : List Handle}

/-- Alike between calls: nothing that was recorded matters any more. -/
def Twins (ρ : Handle ↪o Handle) (g g' : Generator) : Prop := Alike ρ ⟨g.code.nextHandle, none⟩ g g'

/-! ### Opening a method -/

lemma openMethod_eq (hf : g.frame = none) (name : String) : (openMethod name).run g =
      match g.staticSlots, g.declaration name with
      | .error cause, _ | .ok _, .error cause => .error (.refused cause) g
      | .ok _, .ok method =>
        match g.reservation? name method with
        | .error cause => .error (.refused cause) (g.opened name)
        | .ok i? => .ok () { (g.opened name).appendAll i?.toList with frame := some ⟨name, method⟩ } := by
  unfold openMethod
  rw [run_get_bind]
  rw [hf]
  cases g.staticSlots with
  | error cause => rfl
  | ok names =>
    cases g.declaration name with
    | error cause => rfl
    | ok method =>
      change EStateM.run (Emission.ofExcept (g.reservation? name method) >>= _) (g.opened name) = _
      dsimp only
      cases g.reservation? name method with
      | error cause => rfl
      | ok i? => cases i? <;> rfl

/-- The stack that a method starts with is recorded for the instruction before it. -/
lemma Twins.opened (ht : Twins ρ s s') (name : String) : Alike ρ s.outset (s.opened name) (s'.opened name) := by
  have hstack := ht.restoreStack (rfl : ([] : List ValueType) = [])
  have hrecord : ∀ (g : Generator) (h : Handle), g.code.back? = some h →
      (g.restoreStack []).stack.recorded? h = some [] := fun g h hb => by
    rw [restoreStack, ShadowStack.replace, hb, recorded?_record, if_pos rfl]
  have hbegun : Alike ρ s.outset (s.restoreStack []) (s'.restoreStack []) := {
    code := hstack.code
    base := hstack.base
    pending := hstack.pending
    entries := hstack.entries
    waiting := hstack.waiting
    recorded := fun h hh => by
      rcases hh with hh | hh
      · exact hstack.recorded h (.inl hh)
      · rw [hrecord s h hh, hrecord s' (ρ h) (by rw [ht.code.back?_eq, show s.code.back? = some h from hh]; rfl)]
    floor := fun h hh => by rw [hrecord s h hh]; rfl
    fresh := hstack.fresh
    context := { hstack.context with started := hstack.context.started } }
  exact (hbegun.pushScope.defer (rfl : Link.entry name = (Link.entry name).rename ρ)).note _ _

lemma agree_openMethod (hi : Idle marks s) (ht : Twins ρ s s') (name : String) :
    Agree ρ s.outset (· = ·) (openMethod name) (openMethod name) s s' := by
  have hframe : s.frame = none := congrArg Prod.fst hi.constructs
  have hframe' : s'.frame = none := ht.context.frame.trans hframe
  have hslots : s'.staticSlots = s.staticSlots := ht.staticSlots
  have hdeclaration : s'.declaration name = s.declaration name := by
    rw [declaration, declaration, ht.context.symbols]
  have hreservation : ∀ method, s'.reservation? name method = s.reservation? name method := fun method => by
    cases method with
    | none => rw [reservation?, reservation?, statics, statics, hslots]
    | some m => rfl
  rw [Agree, openMethod_eq hframe, openMethod_eq hframe', hslots, hdeclaration]
  cases s.staticSlots with
  | error cause => exact .refused ht
  | ok names =>
    cases s.declaration name with
    | error cause => exact .refused ht
    | ok method =>
      dsimp only
      rw [hreservation]
      rcases s.reservation?_eq name method with ⟨i?, hok, hplain⟩ | ⟨cause, herr, -⟩
      · rw [hok]
        have hopened : Alike ρ s.outset ((s.opened name).appendAll i?.toList) ((s'.opened name).appendAll i?.toList) := by
          cases i? with
          | none => exact ht.opened name
          | some i => exact (ht.opened name).append (.of_plain (hplain i rfl).1)
        exact .ok rfl { hopened with context := { hopened.context with frame := rfl } }
      · rw [herr]
        exact .refused (ht.opened name).forget

/-! ### Closing a method -/

lemma Alike.endsWithReturn (ha : Alike ρ b g g') (name : String) : g'.endsWithReturn name = g.endsWithReturn name := by
  have hpending : g'.pending.isEmpty = g.pending.isEmpty := by rw [ha.pending, isEmpty_map]
  have hgenerated : g'.isGenerated name = g.isGenerated name := by
    rw [isGenerated, isGenerated, Table.contains, Table.contains, ha.entry, isSome_map]
  have hlast : ((g'.code.back?.bind g'.code.instruction?).any fun i => i.opcode == .ret) =
      (g.code.back?.bind g.code.instruction?).any fun i => i.opcode == .ret := by
    rw [ha.code.back?_eq]
    cases hb : g.code.back? with
    | none => rfl
    | some x =>
      have hx : x ∈ g.code.live := by
        rw [back?_eq] at hb
        exact mem_of_getLast? hb
      obtain ⟨i, hi⟩ := ha.code.laid.instruction?_isSome hx
      obtain ⟨i', hi', hs⟩ := ha.code.known x i (.inl hx) hi
      rw [map_some, bind_some, bind_some, hi, hi', any_some, any_some, hs.opcode]
  rw [Generator.endsWithReturn, Generator.endsWithReturn, hpending, hgenerated, hlast]

lemma agree_closeMethod (ha : Alike ρ b g g') : Agree ρ b (· = ·) closeMethod closeMethod g g' := by
  have hopen : g'.hasOpenConstruct = g.hasOpenConstruct := by
    simp [hasOpenConstruct, ha.context.branches, ha.context.loops, ha.context.elseGuards, ha.context.tries]
  refine .get ?_
  rw [hopen, ha.context.frame]
  split
  · next frame _ _ =>
    refine .modify ?_
    have hleft : Alike ρ b { g with frame := none } { g' with frame := none } :=
      { ha with context := { ha.context with frame := rfl } }
    dsimp only
    generalize { g with frame := none } = k at hleft ⊢
    generalize { g' with frame := none } = k' at hleft ⊢
    refine Alike.note (Alike.popScope (Alike.restoreStack ?_ rfl)) _ _
    rw [hleft.endsWithReturn]
    split
    · exact hleft
    · refine Alike.emitOpen ?_ _
      split
      · exact hleft.emitOpen _
      · exact hleft
  · exact .throw _ ha

/-- What is alike after a call are twins. -/
lemma Alike.twins (ha : Alike ρ b g g') (hl : g.loops = []) : Twins ρ g g' where
  code := { ha.code with known := fun h i hh => ha.code.known h i (hh.imp_right fun hle => le_trans ha.base hle) }
  base := le_refl _
  pending := ha.pending
  entries := ha.entries
  waiting := ha.waiting
  recorded := fun h hh => ha.recorded h (.inl (le_trans ha.base (hh.resolve_right nofun)))
  floor := nofun
  fresh := ha.fresh
  context := { ha.context with started := fun l hm => by rw [hl] at hm; cases hm }

end Generator

/-! ### Calls -/

namespace Call

variable {ρ : Handle ↪o Handle} {s s' : Generator} {marks : List Handle}

/-- **Twins answer a call in the same way.** -/
lemma agree_emission (c : Call) (hi : Idle marks s) (ht : Twins ρ s s') :
    Agree ρ s.outset (· = ·) c.emission c.emission s s' := by
  have hends := ends_opening (c := c) (hi.sound_opened c.name) nofun
  have hopening : Agree ρ s.outset (· = ·) c.opening c.opening s s' := by
    refine (agree_openMethod hi ht c.name).bind fun _ _ k k' _ hk => ?_
    cases c with
    | method name body => exact .pure rfl hk
    | initializer body =>
      refine .get ?_
      have hconstants : constants k' = constants k := by
        rw [constants, constants, statics, statics, hk.staticSlots, hk.context.symbols]
      rw [hconstants]
      exact (straight_storeConstants (P := fun _ => True) _).agree hk
  refine hopening.bind_of_ends hends fun _ _ k k' _ hready hk => ?_
  exact (Command.agree_runAll c.body hready hk).bind fun _ _ _ _ _ hk => agree_closeMethod hk

end Call

/-! ### Taking a method back -/

namespace Generator

variable {ρ : Handle ↪o Handle} {b : Outset} {g g' s s' : Generator} {marks : List Handle}

/-- Nothing is recorded for handles that come next after a rollback. -/
lemma recorded?_rollback {s : ShadowStack} {m : CodeMap} (hl : m.Laid) (a : Nat) (c : StackCheckpoint) {x : Handle}
    (hx : m.nextHandle ≤ x) : ((s.restore a m).rollback c).recorded? x = none := by
  rw [ShadowStack.recorded?_eq, map_eq_none_iff, find?_eq_none]
  intro e he
  have hkept := (mem_filter.1 (mem_of_mem_drop he)).2
  have hlive : e.1 ∈ m.live := by
    rw [← hl.start?_isSome_iff]
    cases hs : m.start? e.1 with
    | some a => rfl
    | none =>
      rw [hs] at hkept
      cases hkept
  rw [beq_iff_eq]
  rintro rfl
  exact lt_irrefl _ (lt_of_lt_of_le (hl.bound _ hlive) hx)

lemma outermost_map {α : Type} {f : α → α} {l l' saved saved' : List α} (h : l' = l.map f)
    (hs : saved' = saved.map f) : outermost saved'.length l' = (outermost saved.length l).map f := by
  simp [outermost, h, hs, map_drop]

lemma Alike.truncated (ha : Alike ρ b g g') {c c' : Checkpoint} (hc : c'.address = c.address) :
    Alike ρ b (g.truncated c) (g'.truncated c') := by
  obtain ⟨hcode, hremoved⟩ := ha.code.truncate c.address
  have hnext : (g.code.truncate c.address).1.nextHandle = g.code.nextHandle := by
    rw [truncate]
    split_ifs
    · rfl
    · rw [nextHandle, arena_removeSpan, nextHandle]
  rw [Generator.truncated, Generator.truncated, hc]
  refine ((ha.recode hcode hnext).note _ _).relink ⟨fun h => ?_, rfl⟩
  rw [Bool.eq_iff_iff]
  simp [hremoved]

lemma Alike.abandonEntry (ha : Alike ρ b g g') {c c' : Checkpoint} (hc : c'.frame = c.frame) :
    Alike ρ b (g.abandonEntry c) (g'.abandonEntry c') := by
  rw [Generator.abandonEntry, Generator.abandonEntry, ha.context.frame, hc]
  split
  · next frame _ =>
    have hkept : ∀ l : Link, (l.rename ρ != .entry frame.name) = (l != .entry frame.name) := fun l => by
      cases l <;> rfl
    split_ifs
    · exact ha
    · exact { ha with
        pending := by simp only [ha.pending, List.filter_map, Function.comp_def, hkept]
        context := { ha.context with frame := rfl } }
  · exact ha

/-- The generator with the constructs and the shadow stack of a checkpoint. -/
def rewound (g : Generator) (c : Checkpoint) : Generator :=
  { g with
    stack := (g.stack.restore c.address g.code).rollback c.stack
    frame := c.frame
    scopes := outermost c.scopes g.scopes
    branches := outermost c.branches g.branches
    loops := outermost c.loops g.loops
    elseGuards := outermost c.elseGuards g.elseGuards
    tries := outermost c.tries g.tries
    tokens := g.tokens.take c.tokens }

lemma rollback_rewound (g : Generator) (c : Checkpoint) : g.rollback c = ((g.truncated c).abandonEntry c).rewound c := rfl

/-- Twins in which the same method is taken back are twins. -/
lemma Twins.rollback (ht : Twins ρ s s') (hi : Idle marks s) (ha : Alike ρ b g g') :
    Twins ρ (g.rollback s.checkpoint) (g'.rollback s'.checkpoint) := by
  have hk : Alike ρ b ((g.truncated s.checkpoint).abandonEntry s.checkpoint)
      ((g'.truncated s'.checkpoint).abandonEntry s'.checkpoint) :=
    (ha.truncated ht.code.size_eq).abandonEntry ht.context.frame
  have hloops : s.loops = [] := congrArg (fun c => c.2.2.1) hi.constructs
  have hc := ht.context
  rw [rollback_rewound, rollback_rewound]
  generalize (g.truncated s.checkpoint).abandonEntry s.checkpoint = k at hk
  generalize (g'.truncated s'.checkpoint).abandonEntry s'.checkpoint = k' at hk
  exact {
    code := { hk.code with known := fun h i hh => hk.code.known h i (hh.imp_right fun hle => le_trans hk.base hle) }
    base := le_refl _
    pending := hk.pending
    entries := hk.entries
    waiting := hk.waiting
    recorded := fun h hh => by
      have hle : k'.code.nextHandle ≤ ρ h := by
        rw [hk.code.nextHandle]
        exact ρ.le_iff_le.2 (hh.resolve_right nofun)
      exact (recorded?_rollback hk.code.laid' _ _ hle).trans
        (recorded?_rollback hk.code.laid _ _ (hh.resolve_right nofun)).symm
    floor := nofun
    fresh := fun j => recorded?_rollback hk.code.laid _ _ (Nat.le_add_right _ _)
    context := {
      symbols := hk.context.symbols
      options := hk.context.options
      items := hc.items
      frame := hc.frame
      scopes := congrArg₂ outermost (congrArg List.length hc.scopes) hk.context.scopes
      tokens := congrArg₂ take (congrArg List.length hc.tokens) hk.context.tokens
      branches := outermost_map hk.context.branches hc.branches
      loops := outermost_map hk.context.loops hc.loops
      elseGuards := outermost_map hk.context.elseGuards hc.elseGuards
      tries := outermost_map hk.context.tries hc.tries
      started := fun l hl => by
        have hnone : outermost s.loops.length k.loops = [] := by rw [hloops]; exact outermost_zero _
        rw [show (k.rewound s.checkpoint).loops = [] from hnone] at hl
        cases hl } }

/-! ### Finishing -/

/-- The choice of one name wherever it can be chosen. -/
def Choice.preferring (name : String) : Choice where
  pick names := if name ∈ names then some name else names.head?
  mem h := by
    split_ifs at h with hm
    · exact some.inj h ▸ hm
    · exact mem_of_head? h
  none h := by
    split_ifs at h
    exact head?_eq_none_iff.1 h

/-- Each method that a call waits for may be reported. -/
lemma exists_missingMethod? {m : String} {x : Handle} (h : x ∈ g.waitingOf m) : ∃ c, g.missingMethod? c = some m :=
  ⟨.preferring m, if_pos (mem_map.2 ⟨(x, m), mem_waitingCalls.2 h, rfl⟩)⟩

section

variable (ha : Alike ρ b g g')
include ha

/-- Both lack no method, or each might report the method that the other reports. -/
lemma Alike.missingMethod? (c c' : Choice) : (g.missingMethod? c = none ∧ g'.missingMethod? c' = none) ∨
    ∃ m m', g.missingMethod? c = some m ∧ g'.missingMethod? c' = some m' ∧
      (∃ d, g.missingMethod? d = some m') ∧ ∃ d', g'.missingMethod? d' = some m := by
  cases hm : g.missingMethod? c with
  | none =>
    refine .inl ⟨rfl, ?_⟩
    rw [missingMethod?_eq_none_iff] at hm ⊢
    refine fun m => eq_nil_iff_forall_not_mem.2 fun x hx => ?_
    obtain ⟨h, hh, -⟩ := (ha.waiting m x).1 hx
    rw [hm m] at hh
    cases hh
  | some m =>
    obtain ⟨x, hx⟩ := exists_waitingOf hm
    have hx' : ρ x ∈ g'.waitingOf m := (ha.waiting m (ρ x)).2 ⟨x, hx, rfl⟩
    cases hm' : g'.missingMethod? c' with
    | none =>
      rw [missingMethod?_eq_none_iff.1 hm' m] at hx'
      cases hx'
    | some m' =>
      obtain ⟨y', hy'⟩ := exists_waitingOf hm'
      obtain ⟨y, hy, -⟩ := (ha.waiting m' y').1 hy'
      exact .inr ⟨m, m', rfl, rfl, exists_missingMethod? hy, exists_missingMethod? hx'⟩

lemma Alike.removeSpans (spans : List (Nat × Nat)) : Alike ρ b (g.removeSpans spans) (g'.removeSpans spans) := by
  have hfold : ∀ (spans : List (Nat × Nat)) {g g' : Generator}, Alike ρ b g g' →
      Alike ρ b (spans.foldl (fun g span => g.removeSpan span.1 span.2) g)
        (spans.foldl (fun g span => g.removeSpan span.1 span.2) g') := fun spans => by
    induction spans with
    | nil => exact fun ha => ha
    | cons span spans ih => exact fun ha => ih (ha.removeSpan span.1 span.2)
  exact hfold spans.reverse ha

lemma Alike.removeDeadCode : Alike ρ b g.removeDeadCode.1 g'.removeDeadCode.1 := by
  have hroots : g'.rootEntries = g.rootEntries.map ρ := by
    rw [rootEntries, rootEntries, ha.context.symbols, map_filterMap]
    exact congrArg (List.filterMap · _) (funext fun name => ha.entry name)
  unfold Generator.removeDeadCode
  rw [hroots]
  cases hr : g.rootEntries with
  | nil => exact ha
  | cons root roots =>
    have hdead : g'.code.deadSpans (g'.code.reachable (ρ root :: roots.map ρ)) =
        g.code.deadSpans (g.code.reachable (root :: roots)) :=
      ha.code.deadSpans_eq fun h => ha.code.reachable_eq (root :: roots)
    have htrimmed := ha.removeSpans (g.code.deadSpans (g.code.reachable (root :: roots)))
    simp only [map_cons, hdead, ha.code.length_eq, htrimmed.code.length_eq]
    split_ifs
    · exact htrimmed
    · exact htrimmed.note _ _

lemma agree_fitJumps (ho : g'.options = g.options) : Agree ρ b (· = ·) fitJumps fitJumps g g' := by
  refine .get ?_
  rw [ho]
  split
  · refine .modify ?_
    obtain ⟨trace, ht⟩ := widenJumps_eq g
    obtain ⟨trace', ht'⟩ := widenJumps_eq g'
    have hnext : g.code.widen.1.nextHandle = g.code.nextHandle := by
      rw [ha.code.laid.widen_eq, nextHandle_withWide]
    have hwide := ha.recode ha.code.widen hnext
    rw [ht, ht']
    exact { hwide with context := hwide.context.of_context rfl rfl }
  · rw [ha.code.firstOverflow_eq]
    cases g.code.linked.find? g.code.overflows with
    | some h =>
      rw [map_some]
      dsimp only
      rw [ha.code.start?_eq]
      exact .throw _ ha
    | none => exact .pure rfl ha

lemma Alike.methodRanges : g'.methodRanges = g.methodRanges := by
  have hstarts : (g'.entries.entries.filterMap fun e => (g'.code.start? e.2).map fun a => (e.1, a)) =
      g.entries.entries.filterMap fun e => (g.code.start? e.2).map fun a => (e.1, a) := by
    rw [ha.entries, filterMap_map]
    exact congrArg (List.filterMap · _) (funext fun e => by rw [Function.comp_apply, ha.code.start?_eq])
  simp only [Generator.methodRanges, hstarts, ha.code.size_eq]

/-- The same unit but for the failures, which are given. -/
def SameUnit (failures failures' : List MethodFailure) (u u' : CompiledUnit) : Prop :=
  ∃ v : CompiledUnit, u = { v with failures } ∧ u' = { v with failures := failures' }

lemma agree_writeOut (ho : g'.options = g.options) (statics : List String) (failures failures' : List MethodFailure) :
    Agree ρ b (SameUnit failures failures') (writeOut statics failures) (writeOut statics failures') g g' := by
  refine (agree_fitJumps ha ho).bind fun _ _ k k' _ hk => .get ?_
  rw [hk.code.image?_eq]
  cases k.code.image? with
  | none => exact .throw _ hk
  | some script =>
    refine .pure ⟨⟨script, k.tokens, k.methodRanges, statics.length.toUInt8, failures⟩, rfl, ?_⟩ hk
    rw [hk.context.tokens, hk.methodRanges]

end

/-- Both stop: for the same cause, or for want of a method, and then each might report the method that the other
reports. -/
inductive StopAlike {α β : Type} (r : Choice → Except Fault α) (r' : Choice → Except Fault β) (c c' : Choice) : Prop
  | same {fault} (h : r c = .error fault) (h' : r' c' = .error fault)
  | missing {m m'} (h : r c = .error (.refused (.missingBody m))) (h' : r' c' = .error (.refused (.missingBody m')))
    (hd : ∃ d, r d = .error (.refused (.missingBody m'))) (hd' : ∃ d', r' d' = .error (.refused (.missingBody m)))

lemma StopAlike.map {α β γ δ : Type} {r : Choice → Except Fault α} {r' : Choice → Except Fault β}
    {q : Choice → Except Fault γ} {q' : Choice → Except Fault δ} {c c' : Choice}
    (hq : ∀ {c fault}, r c = .error fault → q c = .error fault)
    (hq' : ∀ {c fault}, r' c = .error fault → q' c = .error fault) : StopAlike r r' c c' → StopAlike q q' c c'
  | same h h' => .same (hq h) (hq' h')
  | missing h h' ⟨d, hd⟩ ⟨d', hd'⟩ => .missing (hq h) (hq' h') ⟨d, hq hd⟩ ⟨d', hq' hd'⟩

lemma StopAlike.symm {α β : Type} {r : Choice → Except Fault α} {r' : Choice → Except Fault β} {c c' : Choice} :
    StopAlike r r' c c' → StopAlike r' r c' c
  | same h h' => .same h' h
  | missing h h' hd hd' => .missing h' h hd' hd

lemma StopAlike.faults {α β : Type} {r : Choice → Except Fault α} {r' : Choice → Except Fault β} {c c' : Choice} :
    StopAlike r r' c c' → ∃ fault, r c = .error fault ∧ ∃ fault', r' c' = .error fault'
  | same h h' | missing h h' _ _ => ⟨_, h, _, h'⟩

/-- What is left when the script of a generator between calls is written out: the static fields, and the generator without
unreachable code. -/
def prepared (g : Generator) (choice : Choice) : Except Fault (List String × Generator) :=
  match g.staticSlots, g.pending, g.missingMethod? choice with
  | .error cause, _, _ => .error (.refused cause)
  | .ok _, _ :: _, _ => .error .misuse
  | .ok _, [], some name => .error (.refused (.missingBody name))
  | .ok statics, [], none => .ok (statics, if g.options.removesDeadCode then g.removeDeadCode.1 else g)

/-- A method without code is left, and its entry leads nowhere. -/
lemma finish_pending {m : String} {links : List Link} (hframe : g.frame = none) (hp : g.pending = .entry m :: links)
    (choice : Choice) (failures : List MethodFailure) : (finish choice failures).run g =
      match g.staticSlots with
      | .error cause => .error (.refused cause) g
      | .ok _ => .error .misuse { g with pending := [] } := by
  have hmethod : g.currentMethod? = none := by rw [currentMethod?, hframe]; rfl
  unfold finish
  rw [run_get_bind]
  simp only [hmethod, hp]
  cases g.staticSlots <;> rfl

lemma finish_prepared (hi : Idle marks g) (choice : Choice) (failures : List MethodFailure) :
    match g.prepared choice with
    | .error fault => ∃ k, (finish choice failures).run g = .error fault k
    | .ok (statics, k) => (finish choice failures).run g = (writeOut statics failures).run k := by
  have hframe : g.frame = none := congrArg Prod.fst hi.constructs
  unfold prepared
  cases hp : g.pending with
  | nil =>
    rw [finish_eq hframe hp]
    cases g.staticSlots with
    | error cause => exact ⟨g, rfl⟩
    | ok statics =>
      cases g.missingMethod? choice with
      | some name => exact ⟨g, rfl⟩
      | none => cases hremoves : g.options.removesDeadCode <;> rfl
  | cons link links =>
    obtain ⟨m, rfl⟩ := hi.links link (hp ▸ mem_cons_self)
    rw [finish_pending hframe hp]
    cases g.staticSlots with
    | error cause => exact ⟨g, rfl⟩
    | ok statics => exact ⟨_, rfl⟩

lemma options_removeDeadCode (hl : g.code.Laid) : g.removeDeadCode.1.options = g.options := by
  obtain ⟨keep, -, htrimmed, -, -⟩ := removeDeadCode_trimmed hl
  exact congrArg Prod.snd (settings_of_context htrimmed.context)

/-- Finishing twins comes to code that is alike, or stops for the same cause. -/
lemma Twins.prepared (ht : Twins ρ g g') (c c' : Choice) : StopAlike g.prepared g'.prepared c c' ∨
      ∃ statics k k', g.prepared c = .ok (statics, k) ∧ g'.prepared c' = .ok (statics, k') ∧
        Alike ρ ⟨g.code.nextHandle, none⟩ k k' ∧ k.options = g.options ∧ k'.options = g'.options := by
  have hremoves : g'.options.removesDeadCode = g.options.removesDeadCode :=
    (congrArg Options.removesDeadCode ht.context.options :)
  have hmissing := ht.missingMethod? c c'
  unfold Generator.prepared
  rw [ht.staticSlots, ht.pending, hremoves]
  cases g.staticSlots with
  | error cause => exact .inl (.same rfl rfl)
  | ok statics =>
    cases g.pending with
    | cons link links => exact .inl (.same rfl rfl)
    | nil =>
      rw [map_nil]
      rcases hmissing with ⟨hm, hm'⟩ | ⟨m, m', hm, hm', ⟨d, hd⟩, ⟨d', hd'⟩⟩
      · refine .inr ⟨statics, _, _, by rw [hm], by rw [hm'], ?_⟩
        split_ifs
        · exact ⟨ht.removeDeadCode, options_removeDeadCode ht.code.laid, options_removeDeadCode ht.code.laid'⟩
        · exact ⟨ht, rfl, rfl⟩
      · exact .inl (.missing (by rw [hm]) (by rw [hm']) ⟨d, by rw [hd]⟩ ⟨d', by rw [hd']⟩)

end Generator

/-! ### Sessions -/

namespace Session

variable {s s' : Session} {c : Call} {marks : List Handle}

lemma failures_ok {a : Unit} (h : s.perform c = .ok a s') : s'.failures = s.failures := by
  rw [perform_eq] at h
  unfold conclude at h
  split at h <;> cases h
  rfl

lemma failures_refused {cause : CompileError} (h : s.perform c = .error (.refused cause) s') :
    s'.failures = s.failures ++ [⟨c.name, cause.message⟩] := by
  rw [perform_eq] at h
  unfold conclude at h
  split at h <;> cases h
  rfl

/-- Two sessions whose generators are twins. -/
structure Paired (s s' : Session) : Prop where
  twins : ∃ ρ, Twins ρ s.generator s'.generator
  idle : ∃ marks, Idle marks s.generator
  idle' : ∃ marks, Idle marks s'.generator

/-- New sessions, one with another choice about offsets that do not fit. -/
lemma paired_start (symbols : SymbolTable) (options : Options) (w : Bool) (trace : Trace) :
    Paired (start symbols options trace) (start symbols { options with widenJumps := w } trace) where
  twins := by
    refine ⟨RelEmbedding.refl _, ?_⟩
    exact {
      code := {
        laid := CodeMap.laid_empty
        laid' := CodeMap.laid_empty
        next := fun _ => rfl
        live := rfl
        known := fun h i _ hi => by cases hi }
      base := le_refl _
      pending := rfl
      entries := rfl
      waiting := fun m x => ⟨fun h => (by cases h), fun ⟨_, h, _⟩ => by cases h⟩
      recorded := fun _ _ => rfl
      floor := fun _ h => by cases h
      fresh := fun _ => rfl
      context := ⟨rfl, rfl, rfl, rfl, rfl, rfl, rfl, rfl, rfl, rfl, fun _ h => by cases h⟩ }
  idle := ⟨[], idle_start symbols options trace⟩
  idle' := ⟨[], idle_start symbols _ trace⟩

/-- Both outcomes are successes, or refusals for the same cause, and the sessions are paired, or both are a misuse. -/
inductive SameOutcome : EStateM.Result Fault Session Unit → EStateM.Result Fault Session Unit → Prop
  | ok {s s' : Session} : Paired s s' → SameOutcome (.ok () s) (.ok () s')
  | refused {cause : CompileError} {s s' : Session} :
      Paired s s' → SameOutcome (.error (.refused cause) s) (.error (.refused cause) s')
  | misuse {s s' : Session} : SameOutcome (.error .misuse s) (.error .misuse s')

/-- **Paired sessions answer a call in the same way.** -/
lemma Paired.perform (hp : Paired s s') (c : Call) : SameOutcome (s.perform c) (s'.perform c) := by
  obtain ⟨⟨ρ, ht⟩, ⟨marks, hi⟩, ⟨marks', hi'⟩⟩ := hp
  have hagree := c.agree_emission hi ht
  have hs := s.perform_eq c
  have hs' := s'.perform_eq c
  rw [Agree] at hagree
  generalize c.emission.run s.generator = r at hagree hs
  generalize c.emission.run s'.generator = r' at hagree hs'
  cases hagree with
  | ok _ hk =>
    have hidle := idle_perform_ok hi hs
    have hloops := congrArg (fun c => c.2.2.1) hidle.constructs
    rw [hs, hs']
    exact .ok ⟨⟨ρ, hk.twins hloops⟩, ⟨_, hidle⟩, ⟨_, idle_perform_ok hi' hs'⟩⟩
  | refused hk =>
    have hidle := idle_perform_refused hi hs
    have hidle' := idle_perform_refused hi' hs'
    rw [hs, hs']
    exact .refused ⟨⟨ρ, ht.rollback hi hk⟩, ⟨_, hidle⟩, ⟨_, hidle'⟩⟩
  | misuse =>
    rw [hs, hs']
    exact .misuse

lemma Paired.ensureInitializer (hp : Paired s s') : SameOutcome s.ensureInitializer s'.ensureInitializer := by
  obtain ⟨ρ, ht⟩ := hp.twins
  have hstatics : s'.generator.statics = s.generator.statics := by rw [statics, statics, ht.staticSlots]
  have hgenerated : s'.generator.isGenerated initializer = s.generator.isGenerated initializer := by
    rw [isGenerated, isGenerated, Table.contains, Table.contains, ht.entry, isSome_map]
  unfold Session.ensureInitializer
  rw [hstatics, hgenerated]
  split
  · exact .ok hp
  · exact hp.perform (.initializer [])

/-- What is left when the script of a session is written out. -/
def prepared (s : Session) (choice : Choice) : Except Fault (List String × Generator) :=
  match s.ensureInitializer with
  | .error fault _ => .error fault
  | .ok _ t => t.generator.prepared choice

/-- The session of a finished generator. -/
def concluded (failures : List MethodFailure) :
    EStateM.Result Fault Generator CompiledUnit → EStateM.Result Fault Session CompiledUnit
  | .ok u g => .ok u ⟨g, failures⟩
  | .error fault g => .error fault ⟨g, failures⟩

lemma ensureInitializer_kept {t : Session} (hi : Idle marks s.generator) (h : s.ensureInitializer = .ok () t) :
    (∃ marks, Idle marks t.generator) ∧ t.failures = s.failures ∧ t.generator.settings = s.generator.settings := by
  rcases s.ensureInitializer_eq with heq | heq
  · rw [h] at heq
    cases heq
    exact ⟨⟨_, hi⟩, rfl, rfl⟩
  · have hok := heq.symm.trans h
    exact ⟨⟨_, idle_perform_ok hi hok⟩, failures_ok hok,
      ((Call.ends_emission_level _ _).of_ok (perform_ok hok)).1.settings⟩

lemma finish_prepared (hi : Idle marks s.generator) (choice : Choice) : match s.prepared choice with
    | .error fault => ∃ t, s.finish choice = .error fault t
    | .ok (statics, k) => s.finish choice = concluded s.failures ((writeOut statics s.failures).run k) := by
  cases h : s.ensureInitializer with
  | error fault t =>
    rw [show s.prepared choice = .error fault by rw [prepared, h]]
    exact ⟨t, by rw [finish, h]⟩
  | ok a t =>
    obtain ⟨⟨_, hi⟩, hfailures, -⟩ := ensureInitializer_kept hi h
    have hrun := Generator.finish_prepared hi choice s.failures
    rw [show s.prepared choice = t.generator.prepared choice by rw [prepared, h], finish_eq h, hfailures]
    generalize t.generator.prepared choice = r at hrun ⊢
    match r with
    | .error fault =>
      obtain ⟨k, hk⟩ := hrun
      exact ⟨_, by rw [hk]⟩
    | .ok (statics, k) =>
      dsimp only at hrun ⊢
      rw [hrun]
      cases (writeOut statics s.failures).run k <;> rfl

/-- Finishing paired sessions comes to code that is alike, or stops for the same cause. -/
lemma Paired.prepared (hp : Paired s s') (c c' : Choice) : StopAlike s.prepared s'.prepared c c' ∨
      ∃ statics k k' ρ b, s.prepared c = .ok (statics, k) ∧ s'.prepared c' = .ok (statics, k') ∧ Alike ρ b k k' ∧
        k.options = s.generator.options ∧ k'.options = s'.generator.options := by
  obtain ⟨⟨_, hi⟩, ⟨_, hi'⟩⟩ := And.intro hp.idle hp.idle'
  have hsame := hp.ensureInitializer
  unfold Session.prepared
  generalize h : s.ensureInitializer = r at hsame
  generalize h' : s'.ensureInitializer = r' at hsame
  cases hsame with
  | refused _ | misuse => exact .inl (.same rfl rfl)
  | @ok t t' ht =>
    obtain ⟨-, -, hset⟩ := ensureInitializer_kept hi h
    obtain ⟨-, -, hset'⟩ := ensureInitializer_kept hi' h'
    obtain ⟨ρ, htwins⟩ := ht.twins
    refine (htwins.prepared c c').imp_right ?_
    rintro ⟨statics, k, k', hk, hk', ha, ho, ho'⟩
    exact ⟨statics, k, k', ρ, _, hk, hk', ha, ho.trans (congrArg Prod.snd hset), ho'.trans (congrArg Prod.snd hset')⟩

end Session

end NeoScript
