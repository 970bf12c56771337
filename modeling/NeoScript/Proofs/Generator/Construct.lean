import NeoScript.Proofs.Generator.Ending

/-!
# Conditional statements and protected blocks

Opening, continuing and closing a construct keeps the invariant. A jump whose destination is not known yet is held
by the construct, and when the construct is closed it is linked to the next instruction. A refused operation may
have taken a construct off already; then some of its jumps are held by nobody.
-/

namespace NeoScript.Generator

open List Sound

/-- A method is under way, and no operation is. -/
def Ready (b : Generator) (f? : Option String) (log : List (Handle × String)) (g : Generator) : Prop :=
  g.frame.isSome ∧ ∃ new, Sound b f? log (fun _ => False) new g

/-- A method is under way, and an operation may have stopped in the middle. -/
def Halted (b : Generator) (f? : Option String) (log : List (Handle × String)) (g : Generator) : Prop :=
  g.frame.isSome ∧ ∃ X new, Sound b f? log X new g

variable {b : Generator} {f? : Option String} {log : List (Handle × String)} {X Y : Handle → Prop}
  {new : List Handle} {g g' : Generator} {t : OpenTry} {outer : List OpenTry}

lemma Ready.halted (h : Ready b f? log g) : Halted b f? log g := ⟨h.1, _, h.2⟩

/-- Straight steps on a method under way. -/
lemma Move.ready {p : Generator → Generator} (hp : Move p) (h : Ready b f? log g) : Ready b f? log (p g) := by
  obtain ⟨hf, new, hs⟩ := h
  obtain ⟨new', hs', hg'⟩ := hp.sound hs hf
  exact ⟨hg'.isSome hf, new', hs'⟩

/-- Straight operations on a method under way. -/
lemma Straight.ready {P : Opcode → Prop} {α : Type} {x : Emission α} (hx : Straight P x) (h : Ready b f? log g) :
    Ends x g (fun _ => Ready b f? log) (Halted b f? log) := by
  obtain ⟨hf, new, hs⟩ := h
  exact (hx.keeps (kept_sound hf) ⟨new, hs, .of_code rfl rfl⟩).mono (fun _ g' ⟨new', hs', hg'⟩ => ⟨hg'.isSome hf, new', hs'⟩)
    fun _ ⟨new', hs', hg'⟩ => ⟨hg'.isSome hf, _, new', hs'⟩

section Kept

variable {P : Opcode → Prop} {Q : Generator → Prop}

/-- What straight steps keep on a method under way. -/
lemma Ready.kept (h : Ready b f? log g) (hk : KeptByMoves P (Ready b f? log) Q) :
    ∃ S : Generator → Prop, S g ∧ KeptByMoves P (fun _ => True) fun g => S g ∧ Q g := by
  obtain ⟨hf, new, hs⟩ := h
  exact ⟨_, ⟨new, hs, .of_code rfl rfl⟩, (kept_sound hf).and (hk.weaken fun _ ⟨new', hs', hg'⟩ => ⟨hg'.isSome hf, new', hs'⟩)⟩

lemma Ready.move {p : Generator → Generator} (h : Ready b f? log g) (hp : Move p)
    (hk : KeptByMoves P (Ready b f? log) Q) (hg : Q g) : Q (p g) := by
  obtain ⟨S, hS, hand⟩ := h.kept hk
  exact (hp.keeps hand ⟨hS, hg⟩).2

lemma Ready.straight {α : Type} {x : Emission α} (h : Ready b f? log g) (hx : Straight P x)
    (hk : KeptByMoves P (Ready b f? log) Q) (hg : Q g) : Ends x g (fun _ => Q) fun _ => True := by
  obtain ⟨S, hS, hand⟩ := h.kept hk
  exact (hx.keeps hand ⟨hS, hg⟩).mono (fun _ _ h => h.2) fun _ _ => trivial

end Kept

lemma role?_emitOpen (g : Generator) (o : Opcode) : (g.emitOpen o).code.role? g.code.nextHandle = some o.role := by
  rw [emitOpen, emitTarget, role?_append, if_pos rfl]

lemma role?_emitOpen_of_lt {o : Opcode} {h : Handle} (hlt : h < g.code.nextHandle) :
    (g.emitOpen o).code.role? h = g.code.role? h :=
  CodeMap.role?_congr (shape?_append_of_lt hlt)

/-! ### Opening and closing -/

lemma mem_held {h : Handle} :
    h ∈ g.held ↔ (∃ br ∈ g.branches, br.held = h) ∨ (∃ l ∈ g.loops, h ∈ l.held) ∨ some h ∈ g.elseGuards ∨
      ∃ t ∈ g.tries, h ∈ t.leaves := by
  simp only [held, mem_append, mem_map, mem_flatMap, mem_filterMap, id, exists_eq_right, or_assoc]

namespace Sound

variable (hs : Sound b f? log X new g) {l : OpenLoop} {o : Option Handle} {t : OpenTry}
include hs

lemma openBranch {e : OpenBranch} (hm : e.held ∈ new)
    (hr : g.code.role? e.held = some .leap) (hX : ∀ x, X x → x = e.held ∨ Y x) :
    Sound b f? log Y new { g with branches := e :: g.branches } := by
  refine hs.reopen rfl rfl rfl rfl rfl (fun h hh => ?_) (fun h hh => ?_) hs.loops hs.tries
  · simp only [mem_held, mem_cons] at hh ⊢
    grind
  · have := hs.jumps h
    simp only [mem_held, mem_cons] at hh this
    grind

lemma popBranch {br : OpenBranch} {outer : List OpenBranch} (hb : g.branches = br :: outer) :
    Sound b f? log (fun x => X x ∨ x = br.held) new { g with branches := outer } ∧ br.held ∈ new ∧
      g.code.role? br.held = some .leap := by
  refine ⟨hs.reopen rfl rfl rfl rfl rfl (fun h hh => ?_) (fun h hh => hs.jumps h ?_) hs.loops hs.tries, ?_⟩
  · simp only [mem_held, hb, mem_cons] at hh ⊢
    grind
  · simp only [mem_held, hb, mem_cons] at hh ⊢
    grind
  · exact hs.jumps _ (mem_held.2 (.inl ⟨br, by simp [hb], rfl⟩))

lemma openLoop (hl : LoopSound new g.code l)
    (hm : ∀ h ∈ l.held, h ∈ new ∧ g.code.role? h = some .leap) (hX : ∀ x, X x → x ∈ l.held ∨ Y x) :
    Sound b f? log Y new { g with loops := l :: g.loops } := by
  refine hs.reopen rfl rfl rfl rfl rfl (fun h hh => ?_) (fun h hh => ?_) (fun l' hl' => ?_) hs.tries
  · simp only [mem_held, mem_cons] at hh ⊢
    grind
  · have := hs.jumps h
    simp only [mem_held, mem_cons] at hh this
    grind
  · rcases mem_cons.1 hl' with rfl | hl'
    · exact hl
    · exact hs.loops l' hl'

lemma popLoop {outer : List OpenLoop} (hb : g.loops = l :: outer) :
    Sound b f? log (fun x => X x ∨ x ∈ l.held) new { g with loops := outer } ∧ LoopSound new g.code l ∧
      ∀ h ∈ l.held, h ∈ new ∧ g.code.role? h = some .leap := by
  have hsub : ∀ l', l' ∈ outer → l' ∈ g.loops := fun l' hl' => by simp [hb, hl']
  refine ⟨hs.reopen rfl rfl rfl rfl rfl (fun h hh => ?_) (fun h hh => hs.jumps h ?_)
    (fun l' hl' => hs.loops l' (hsub l' hl')) hs.tries, hs.loops l (by simp [hb]), fun h hh => ?_⟩
  · simp only [mem_held, hb, mem_cons] at hh ⊢
    grind
  · simp only [mem_held, hb, mem_cons] at hh ⊢
    grind
  · exact hs.jumps h (mem_held.2 (.inr (.inl ⟨l, by simp [hb], hh⟩)))

lemma openGuard (hm : ∀ h, o = some h → h ∈ new ∧ g.code.role? h = some .leap) (hX : ∀ x, X x → o = some x ∨ Y x) :
    Sound b f? log Y new { g with elseGuards := o :: g.elseGuards } := by
  refine hs.reopen rfl rfl rfl rfl rfl (fun h hh => ?_) (fun h hh => ?_) hs.loops hs.tries
  · simp only [mem_held, mem_cons] at hh ⊢
    grind
  · have := hs.jumps h
    simp only [mem_held, mem_cons] at hh this
    grind

lemma popGuard {outer : List (Option Handle)} (hb : g.elseGuards = o :: outer) :
    Sound b f? log (fun x => X x ∨ o = some x) new { g with elseGuards := outer } ∧
      ∀ h, o = some h → h ∈ new ∧ g.code.role? h = some .leap := by
  refine ⟨hs.reopen rfl rfl rfl rfl rfl (fun h hh => ?_) (fun h hh => hs.jumps h ?_) hs.loops hs.tries,
    fun h hh => ?_⟩
  · simp only [mem_held, hb, mem_cons] at hh ⊢
    grind
  · simp only [mem_held, hb, mem_cons] at hh ⊢
    grind
  · exact hs.jumps h (mem_held.2 (.inr (.inr (.inl (by simp [hb, hh])))))

lemma openTry (ht : t.enter ∈ new ∧ g.code.role? t.enter = some .protect)
    (hm : ∀ h ∈ t.leaves, h ∈ new ∧ g.code.role? h = some .leap) (hX : ∀ x, X x → x ∈ t.leaves ∨ Y x) :
    Sound b f? log Y new { g with tries := t :: g.tries } := by
  refine hs.reopen rfl rfl rfl rfl rfl (fun h hh => ?_) (fun h hh => ?_) hs.loops (fun t' ht' => ?_)
  · simp only [mem_held, mem_cons] at hh ⊢
    grind
  · have := hs.jumps h
    simp only [mem_held, mem_cons] at hh this
    grind
  · rcases mem_cons.1 ht' with rfl | ht'
    · exact ht
    · exact hs.tries t' ht'

lemma popTry {outer : List OpenTry} (hb : g.tries = t :: outer) :
    Sound b f? log (fun x => X x ∨ x ∈ t.leaves) new { g with tries := outer } ∧
      (t.enter ∈ new ∧ g.code.role? t.enter = some .protect) ∧
      ∀ h ∈ t.leaves, h ∈ new ∧ g.code.role? h = some .leap := by
  have hsub : ∀ t', t' ∈ outer → t' ∈ g.tries := fun t' ht' => by simp [hb, ht']
  refine ⟨hs.reopen rfl rfl rfl rfl rfl (fun h hh => ?_) (fun h hh => hs.jumps h ?_) hs.loops
    (fun t' ht' => hs.tries t' (hsub t' ht')), hs.tries t (by simp [hb]), fun h hh => ?_⟩
  · simp only [mem_held, hb, mem_cons] at hh ⊢
    grind
  · simp only [mem_held, hb, mem_cons] at hh ⊢
    grind
  · exact hs.jumps h (mem_held.2 (.inr (.inr (.inr ⟨t, by simp [hb], hh⟩))))

end Sound

/-! ### Conditional statements -/

lemma frame_append (g : Generator) (i : Instruction) : (g.append i).frame = g.frame :=
  frame_of_context (context_append g i)

section

variable (h : Ready b f? log g)
include h

lemma ready_beginIf : Ready b f? log g.beginIf := by
  obtain ⟨hf, new, hs⟩ := h
  have hjump := hs.append_open (o := .jump .ifFalse false) rfl
  have hopen := hjump.openBranch (e := { jump := g.next }) (Y := fun _ => False) (by simp [OpenBranch.held, next])
    (role?_emitOpen _ _) (by simp [OpenBranch.held, next])
  exact ⟨(frame_append g _).symm ▸ hf, _, hopen.still rfl⟩

lemma Ready.halted_popBranch : Halted b f? log g.popBranch := by
  obtain ⟨hf, new, hs⟩ := h
  unfold popBranch
  cases hb : g.branches with
  | nil => exact ⟨hf, _, new, hs.still (by simp [core, hb])⟩
  | cons br outer => exact ⟨hf, _, new, (hs.popBranch hb).1⟩

lemma ends_beginElse : Ends beginElse g (fun _ => Ready b f? log) (Halted b f? log) := by
  refine .beginElse h.halted_popBranch fun br outer hb ho => ?_
  obtain ⟨hf, new, hs⟩ := h
  obtain ⟨hpop, hm, hr⟩ := hs.popBranch hb
  have hheld : br.held = br.jump := by simp [OpenBranch.held, ho]
  rw [hheld] at hpop hm hr
  have hjump := hpop.append_open (o := .jump .always false) rfl
  have hlink := hjump.linkNext (Y := fun x => x = g.next) (mem_append_left _ hm)
    ((role?_emitOpen_of_lt (hpop.bound hm)).trans hr) (by grind [next])
  have hopen := hlink.openBranch (e := { br with other := some (g.next, g.stack.items) })
    (Y := fun _ => False) (by simp [OpenBranch.held, next]) (role?_emitOpen _ _) (by simp [OpenBranch.held])
  exact ⟨(frame_append _ _).symm ▸ hf, _, hopen.still rfl⟩

lemma ends_endIf : Ends endIf g (fun _ => Ready b f? log) (Halted b f? log) := by
  refine .endIf h.halted_popBranch fun br outer hb => ?_
  obtain ⟨hf, new, hs⟩ := h
  obtain ⟨hpop, hm, hr⟩ := hs.popBranch hb
  have hlink := hpop.linkNext (Y := fun _ => False) hm hr (by simp)
  exact ⟨hf, _, hlink.still rfl⟩

/-! ### Protected blocks -/

lemma ready_beginTry : Ready b f? log g.beginTry := by
  obtain ⟨hf, new, hs⟩ := h
  have henter := hs.append_enter
  have hrole : (g.emitTarget (.tryEnter false) (.handlers none none)).code.role? g.next = some .protect := by
    rw [emitTarget, next, role?_append, if_pos rfl]
    rfl
  have hopen := henter.openTry
    (t := { enter := g.next, stack := (g.emitTarget (.tryEnter false) (.handlers none none)).stack.items })
    (Y := fun _ => False) ⟨by simp [next], hrole⟩ (by simp) (by simp)
  exact ⟨(frame_append _ _).symm ▸ hf, _, hopen.still rfl⟩

end

lemma ends_popTry {Q : Generator → Prop} (stages : List TryStage) (hQ : Q { g with tries := g.tries.tail }) :
    Ends (popTry stages) g (fun t g' => t.stage ∈ stages ∧ ∃ outer, g.tries = t :: outer ∧ g' = { g with tries := outer })
      Q := by
  refine .get (.modify_bind (.ofOption (fun t ht => ?_) hQ))
  obtain ⟨hhead, hstage⟩ := Option.filter_eq_some_iff.1 ht
  obtain ⟨outer, hb⟩ := head?_eq_some_iff.1 hhead
  exact ⟨contains_iff_mem.1 hstage, outer, hb, by rw [hb]; rfl⟩

lemma Ready.halted_popTry (h : Ready b f? log g) : Halted b f? log { g with tries := g.tries.tail } := by
  obtain ⟨hf, new, hs⟩ := h
  cases hb : g.tries with
  | nil => exact ⟨hf, _, new, hs.still (by simp [core, hb])⟩
  | cons t outer => exact ⟨hf, _, new, (hs.popTry hb).1⟩

/-- Leaving a part of a protected block that was taken off the open ones. -/
lemma Sound.leavePart (hs : Sound b f? log (fun _ => False) new g)
    (hb : g.tries = t :: outer) : Sound b f? log (fun x => x ∈ t.leaves ++ [g.next]) (new ++ [g.next])
        ({ g with tries := outer }.emitOpen (.tryLeave false)) ∧
      (t.enter ∈ new ++ [g.next] ∧
        ({ g with tries := outer }.emitOpen (.tryLeave false)).code.role? t.enter = some .protect) ∧
      ∀ h ∈ t.leaves ++ [g.next], h ∈ new ++ [g.next] ∧
        ({ g with tries := outer }.emitOpen (.tryLeave false)).code.role? h = some .leap := by
  obtain ⟨hpop, ⟨hm, hr⟩, hleaves⟩ := hs.popTry hb
  have hleave := hpop.append_open (o := .tryLeave false) rfl
  refine ⟨hleave.mono (by simp [next]), ⟨mem_append_left _ hm, ?_⟩, fun h hh => ?_⟩
  · exact (role?_emitOpen_of_lt (hpop.bound hm)).trans hr
  · rcases mem_append.1 hh with hh | hh
    · exact ⟨mem_append_left _ (hleaves h hh).1,
        (role?_emitOpen_of_lt (hpop.bound (hleaves h hh).1)).trans (hleaves h hh).2⟩
    · rw [mem_singleton.1 hh]
      exact ⟨by simp, role?_emitOpen _ _⟩

/-- Leaves the body of a protected block that was taken off the open ones, and opens its handler with the exception on
top. -/
def enterHandler (g : Generator) (block : OpenTry) : Generator :=
  let (g, block) := g.leavePart block
  let g := (g.defer (.handler block.enter)).restoreStack block.stack
  { g with
    tries := { block with stage := .handler } :: g.tries
    stack := g.stack.push none .any }

lemma beginHandler_eq (name : Option String) : beginHandler name = (do
      let block ← popTry [.body]
      modify fun g => g.enterHandler block
      match name with
      | some name => store name
      | none => modify drop) := rfl

lemma ready_enterHandler (h : Ready b f? log g) (hb : g.tries = t :: outer) :
    Ready b f? log ({ g with tries := outer }.enterHandler t) := by
  obtain ⟨hf, new, hs⟩ := h
  obtain ⟨hleave, henter, hleaves⟩ := hs.leavePart hb
  have hdefer := hleave.defer (l := .handler t.enter) henter (fun _ => Link.noConfusion) fun x hx => .inr hx
  have hopen := hdefer.openTry (t := { t with leaves := t.leaves ++ [g.next], stage := .handler })
    (Y := fun _ => False) henter hleaves fun x hx => .inl hx
  have hframe : ({ g with tries := outer }.emitOpen (.tryLeave false)).frame.isSome := (frame_append _ _).symm ▸ hf
  exact ⟨hframe, _, hopen.still rfl⟩

lemma ends_beginHandler (name : Option String) (h : Ready b f? log g) :
    Ends (beginHandler name) g (fun _ => Ready b f? log) (Halted b f? log) := by
  rw [beginHandler_eq]
  refine (ends_popTry _ h.halted_popTry).bind ?_
  rintro t _ ⟨-, outer, hb, rfl⟩
  refine .modify_bind ?_
  cases name with
  | some name => exact (straight_store (P := fun _ => True) name).ready (ready_enterHandler h hb)
  | none => exact (Straight.modify (P := fun _ => True) Move.stay.drop).ready (ready_enterHandler h hb)

lemma ends_endTry (hasFinalizer : Bool) (h : Ready b f? log g) :
    Ends (endTry hasFinalizer) g (fun _ => Ready b f? log) (Halted b f? log) := by
  refine (ends_popTry _ h.halted_popTry).bind ?_
  rintro t _ ⟨-, outer, hb, rfl⟩
  obtain ⟨hf, new, hs⟩ := h
  obtain ⟨hleave, henter, hleaves⟩ := hs.leavePart hb
  have hframe : ({ g with tries := outer }.emitOpen (.tryLeave false)).frame.isSome := (frame_append _ _).symm ▸ hf
  cases hasFinalizer with
  | false =>
    have hlink := hleave.linkAll (t.leaves ++ [g.next]) (Y := fun _ => False) hleaves fun x hx => .inl hx
    rw [linkAll_eq] at hlink
    refine .modify ?_
    simp only [leavePart, linkAll_eq]
    exact ⟨hframe, _, hlink.still rfl⟩
  | true =>
    have hdefer := hleave.defer (l := .finalizer t.enter) henter (fun _ => Link.noConfusion) fun x hx => .inr hx
    have hopen := hdefer.openTry (t := { t with leaves := t.leaves ++ [g.next], stage := .finalizer })
      (Y := fun _ => False) henter hleaves fun x hx => .inl hx
    exact .modify ⟨hframe, _, hopen.still rfl⟩

lemma ends_endFinalizer (h : Ready b f? log g) : Ends endFinalizer g (fun _ => Ready b f? log) (Halted b f? log) := by
  refine (ends_popTry _ h.halted_popTry).bind ?_
  rintro t _ ⟨-, outer, hb, rfl⟩
  obtain ⟨hf, new, hs⟩ := h
  obtain ⟨hpop, -, hleaves⟩ := hs.popTry hb
  have hend := hpop.append_of_plain (i := { opcode := .finallyLeave }) rfl fun _ => rfl
  have hlink := hend.linkAll t.leaves (Y := fun _ => False)
    (fun h hh => ⟨mem_append_left _ (hleaves h hh).1,
      (CodeMap.role?_congr (shape?_append_of_lt (hpop.bound (hleaves h hh).1))).trans (hleaves h hh).2⟩)
    fun x hx => .inl (hx.resolve_left id)
  have hframe : ({ g with tries := outer }.append { opcode := .finallyLeave }).frame.isSome :=
    (frame_append _ _).symm ▸ hf
  rw [linkAll_eq] at hlink
  refine .modify ?_
  rw [linkAll_eq]
  exact ⟨hframe, _, hlink.still rfl⟩

end NeoScript.Generator
