import NeoScript.Proofs.Session.Run

/-!
# Between calls

Between two calls nothing is open, and every control transfer leads to a live instruction of the call that emitted
it, except for calls of methods that wait for a body. Opening a method from such a state gives a method under way;
closing it or taking it back leads to such a state again.
-/

namespace NeoScript.Generator

open List Option CodeMap Instruction

/-- Two instructions belong to the same call: no call started between them. -/
def Together (marks : List Handle) (h d : Handle) : Prop := ∀ b ∈ marks, b ≤ h ↔ b ≤ d

/-- A generator between calls, which started with the handles `marks`. -/
structure Idle (marks : List Handle) (g : Generator) : Prop where
  laid : g.code.Laid
  constructs : g.constructs = (none, [], [], [], [])
  started : ∀ b ∈ marks, b ≤ g.code.nextHandle
  links : ∀ l ∈ g.pending, ∃ m, l = .entry m
  plain : ∀ h ∈ g.code.live, ∀ i, g.code.instruction? h = some i → i.opcode.role = .plain → i.Proper
  narrow : ∀ h ∈ g.code.live, ∀ e, g.code.shape? h = some e → e.1.isWide = false
  leap : ∀ h ∈ g.code.live, ∀ i, g.code.instruction? h = some i → i.opcode.role = .leap →
    ∃ d ∈ g.code.live, i.target = .code d ∧ Together marks h d
  protect : ∀ h ∈ g.code.live, ∀ i, g.code.instruction? h = some i → i.opcode.role = .protect →
    ∃ e f, i.target = .handlers e f ∧ ∀ d ∈ e.toList ++ f.toList, d ∈ g.code.live ∧ Together marks h d
  call : ∀ h ∈ g.code.live, ∀ i, g.code.instruction? h = some i → i.opcode.role = .call →
    (∃ d ∈ g.code.live, i.target = .code d) ∨ i.target = .unresolved ∧ ∃ m, h ∈ g.waitingOf m
  entries : ∀ m d, g.entries.get? m = some d → d ∈ g.code.live
  waiting : ∀ m, ∀ h ∈ g.waitingOf m, h ∈ g.code.live ∧
    ∃ i, g.code.instruction? h = some i ∧ i.opcode.role = .call ∧ i.target = .unresolved
  once : ∀ m m', ∀ h ∈ g.waitingOf m, h ∈ g.waitingOf m' → m = m'
  ends : ∀ h, g.code.live.getLast? = some h → g.code.constant? h ≠ some true

/-- A generator between calls in which each call of a method waits for that method, or leads to it, and no link is
left over. -/
structure Tidy (log : List (Handle × String)) (g : Generator) : Prop where
  pending : g.pending = []
  logged : ∀ h ∈ g.code.live, g.code.role? h = some .call → ∃ m, (h, m) ∈ log
  calls : ∀ h m, (h, m) ∈ log → g.code.role? h = some .call
  unique : ∀ h m m', (h, m) ∈ log → (h, m') ∈ log → m = m'
  waits : ∀ h m i, (h, m) ∈ log → h ∈ g.code.live → g.code.instruction? h = some i → i.target = .unresolved →
    h ∈ g.waitingOf m
  waiting : ∀ m, ∀ h ∈ g.waitingOf m, (h, m) ∈ log
  stuck : ∀ m d, ∀ h ∈ g.waitingOf m, g.entries.get? m = some d → d = h
  onward : ∀ h m i, (h, m) ∈ log → h ∈ g.code.live → g.code.instruction? h = some i → i.target ≠ .code h

variable {marks : List Handle} {b g g' : Generator} {f? : Option String} {f : String}
  {log : List (Handle × String)} {X : Handle → Prop} {new : List Handle} {x d h : Handle} {i : Instruction}

/-! ### Opening a method -/

lemma Idle.closed (h : Idle marks g) : ∀ x ∈ g.code.live, ∀ i, g.code.instruction? x = some i →
    ∀ d ∈ i.refs, d ∈ g.code.live := by
  intro x hx i hi d hd
  cases hr : i.opcode.role with
  | plain => simp [Instruction.refs, Instruction.target?, Opcode.hasTarget_eq_false.2 hr] at hd
  | leap =>
    obtain ⟨d', hd', ht, -⟩ := h.leap x hx i hi hr
    rw [refs_eq (by simp [hr]), ht] at hd
    exact mem_singleton.1 hd ▸ hd'
  | protect =>
    obtain ⟨e, f, ht, hlive⟩ := h.protect x hx i hi hr
    rw [refs_eq (by simp [hr]), ht] at hd
    exact (hlive d hd).1
  | call =>
    rw [refs_eq (by simp [hr])] at hd
    rcases h.call x hx i hi hr with ⟨d', hd', ht⟩ | ⟨hu, -⟩
    · rw [ht] at hd
      exact mem_singleton.1 hd ▸ hd'
    · rw [hu] at hd
      cases hd

/-- Only calls leave the code of the call that emitted them. -/
lemma Idle.together (h : Idle marks g) (hx : x ∈ g.code.live)
    (hi : g.code.instruction? x = some i) (hr : i.opcode.role ≠ .call) (hd : d ∈ i.refs) : Together marks x d := by
  cases hrole : i.opcode.role with
  | plain => simp [Instruction.refs, Instruction.target?, Opcode.hasTarget_eq_false.2 hrole] at hd
  | leap =>
    obtain ⟨d', -, ht, htog⟩ := h.leap x hx i hi hrole
    rw [refs_eq (by simp [hrole]), ht] at hd
    exact mem_singleton.1 hd ▸ htog
  | protect =>
    obtain ⟨e, f, ht, htog⟩ := h.protect x hx i hi hrole
    rw [refs_eq (by simp [hrole]), ht] at hd
    exact (htog d hd).2
  | call => exact absurd hrole hr

/-- A generator with the code of one between calls, in which only entries are pending. -/
lemma Idle.sound (h : Idle marks g) (hc : g'.code = g.code) (he : g'.entries = g.entries)
    (hw : g'.waiting = g.waiting) (hk : g'.constructs = g.constructs) (hp : ∀ l ∈ g'.pending, ∃ m, l = .entry m)
    (hn : ∀ f, f? = some f → Named g f log (fun _ => False) [] g') : Sound g f? log (fun _ => False) [] g' := by
  have hbranches : g'.branches = [] := congrArg (fun c => c.2.1) (hk.trans h.constructs)
  have hloops : g'.loops = [] := congrArg (fun c => c.2.2.1) (hk.trans h.constructs)
  have hguards : g'.elseGuards = [] := congrArg (fun c => c.2.2.2.1) (hk.trans h.constructs)
  have htries : g'.tries = [] := congrArg (fun c => c.2.2.2.2) (hk.trans h.constructs)
  have hwaiting : g'.waitingOf = g.waitingOf := waitingOf_congr hw
  exact {
    base := h.laid
    laid := by rw [hc]; exact h.laid
    live := by rw [hc, append_nil]
    closed := h.closed
    starts := h.entries
    ends := h.ends
    fresh := nofun
    grown := Nat.le_of_eq (by rw [hc])
    head := nofun
    kept := fun x hx i hi => .inl (by rw [hc]; exact hi)
    plain := nofun
    narrow := nofun
    leap := nofun
    protect := nofun
    call := fun x hx i hi hr => by
      rw [hc] at hx hi
      rw [hwaiting]
      exact (h.call x hx i hi hr).imp (fun ⟨d, hd, ht⟩ => ⟨d, ht, .inl hd⟩) fun hu => ⟨hu.1, .inl hu.2⟩
    entries := fun m d hd => .inl (h.entries m d (by rw [he] at hd; exact hd))
    waiting := fun m x hx => by
      rw [hwaiting] at hx
      rw [hc]
      exact h.waiting m x hx
    once := fun m m' x hx hx' => h.once m m' x (by rw [hwaiting] at hx; exact hx) (by rw [hwaiting] at hx'; exact hx')
    links := fun l hl => by
      obtain ⟨m, rfl⟩ := hp l hl
      exact rfl
    jumps := fun x hx => by simp [held, hbranches, hloops, hguards, htries] at hx
    loops := fun l hl => by simp [hloops] at hl
    tries := fun t ht => by simp [htries] at ht
    named := hn }

lemma Idle.sound_self (hb : Idle marks g) : Sound g none [] (fun _ => False) [] g :=
  hb.sound rfl rfl rfl rfl hb.links nofun

lemma Tidy.named (ht : Tidy log g) (h : Idle marks g) (hc : g'.code = g.code) (he : g'.entries = g.entries)
    (hw : g'.waiting = g.waiting) (hf : g'.frame = none) (hp : g'.pending = [.entry f]) :
    Named g f log (fun _ => False) [] g' := by
  have hwaiting : g'.waitingOf = g.waitingOf := waitingOf_congr hw
  exact {
    frame := fun fr hfr => by rw [hf] at hfr; cases hfr
    entry := fun m hm => by simpa [hp] using hm
    others := by rw [he]
    opened := .inl ⟨rfl, by rw [hp]; exact mem_cons_self⟩
    logged := by rw [hc]; exact ht.logged
    calls := by rw [hc]; exact ht.calls
    unique := ht.unique
    waits := fun x m i hm hx hi hu => by
      rw [hc] at hx hi
      rw [hwaiting]
      exact .inl (ht.waits x m i hm hx hi hu)
    leads := fun x m i d hm hx hi hd => by
      rw [hc] at hx hi
      refine .inl ⟨h.closed x hx i hi d ?_, .inl hx⟩
      have hr : i.opcode.role = .call := role_of_role? hi (ht.calls x m hm)
      rw [refs_eq (by simp [hr]), hd]
      exact mem_cons_self
    former := fun d _ hd => by
      rw [he] at hd
      rw [hd]
      rfl
    waiting := by rw [hwaiting]; exact ht.waiting
    stuck := by rw [hwaiting, he]; exact ht.stuck
    onward := by rw [hc]; exact ht.onward }

/-- The slots of a method can be reserved. -/
def Fits (g : Generator) (name : String) : Prop :=
  ∀ method, g.symbols.methods.get? name = some method → method.locals.size ≤ 255 ∧ method.argSlots ≤ 255

/-- What reserves the slots of a method is one plain instruction, or none. -/
lemma reservation?_eq (g : Generator) (name : String) (method : Option Method) :
    (∃ i?, g.reservation? name method = .ok i? ∧ ∀ i, i? = some i → i.opcode.role = .plain ∧ i.Proper) ∨
      ∃ cause, g.reservation? name method = .error cause ∧
        ∃ m, method = some m ∧ ¬(m.locals.size ≤ 255 ∧ m.argSlots ≤ 255) := by
  cases method with
  | none =>
    refine .inl ?_
    simp only [reservation?]
    split_ifs
    · exact ⟨none, rfl, by simp⟩
    · refine ⟨_, rfl, fun i hi => ?_⟩
      cases hi
      exact ⟨rfl, fun _ => rfl⟩
  | some m =>
    simp only [reservation?, slotCount]
    split_ifs with hzero hlocals hargs
    · exact .inl ⟨none, rfl, by simp⟩
    · refine .inl ⟨_, rfl, fun i hi => ?_⟩
      cases hi
      exact ⟨rfl, fun _ => rfl⟩
    · exact .inr ⟨_, rfl, m, rfl, fun h => hargs h.2⟩
    all_goals exact .inr ⟨_, rfl, m, rfl, fun h => hlocals h.1⟩

lemma Sound.setFrame (hs : Sound b f? log X new g) (frame? : Option Frame)
    (hf : ∀ f, f? = some f → ∀ fr, frame? = some fr → fr.name = f) : Sound b f? log X new { g with frame := frame? } :=
  { hs with named := fun f hff => { hs.named f hff with frame := hf f hff } }

lemma ends_openMethod {name : String} (hs : Sound g f? log (fun _ => False) [] (g.opened name))
    (hname : ∀ f, f? = some f → name = f) :
    Ends (openMethod name) g (fun _ => Ready g f? log) fun g' => g' = g ∨ g' = g.opened name ∧ ¬ g.Fits name := by
  refine .openMethod (.inl rfl) (fun method cause hm herr => .inr ⟨rfl, fun hfits => ?_⟩) fun _ method i? _ _ hok => ?_
  · rcases g.reservation?_eq name method with ⟨i?, hok, -⟩ | ⟨-, -, m, rfl, hfit⟩
    · rw [hok] at herr
      cases herr
    refine hfit (hfits m ?_)
    unfold declaration at hm
    split_ifs at hm
    · cases hm
    · split at hm
      · next heq => rw [heq, some.inj (Except.ok.inj hm)]
      · cases hm
  · have hframes : ∀ f, f? = some f → ∀ fr, some (⟨name, method⟩ : Frame) = some fr → fr.name = f :=
      fun f hf fr hfr => some.inj hfr ▸ hname f hf
    rcases g.reservation?_eq name method with ⟨_, hok', hplain⟩ | ⟨cause, herr, -⟩
    · obtain rfl := Except.ok.inj (hok.symm.trans hok')
      cases i? with
      | none => exact ⟨rfl, [], hs.setFrame _ hframes⟩
      | some i =>
        obtain ⟨hr, hi⟩ := hplain i rfl
        exact ⟨rfl, _, (hs.append_of_plain hr hi).setFrame _ hframes⟩
    · rw [hok] at herr
      cases herr

/-! ### Closing a method -/

/-- A method was closed: nothing is open, and its code ends with a return. -/
structure Closed (b : Generator) (f? : Option String) (log : List (Handle × String)) (g : Generator) : Prop where
  constructs : g.constructs = (none, [], [], [], [])
  pending : g.pending = []
  sound : ∃ new, Sound b f? log (fun _ => False) new g
  returns : ∃ h i, g.code.live.getLast? = some h ∧ g.code.instruction? h = some i ∧ i.opcode = .ret

lemma ends_closeMethod (h : Ready b f? log g) : Ends closeMethod g (fun _ => Closed b f? log) (Halted b f? log) := by
  obtain ⟨hf, new, hs⟩ := h
  refine .get ?_
  split
  · next frame hopen hframe =>
    simp only [hasOpenConstruct, Bool.not_eq_false', Bool.and_eq_true, List.isEmpty_iff] at hopen
    obtain ⟨⟨⟨hbranches, hloops⟩, hguards⟩, htries⟩ := hopen
    have hs1 := hs.setFrame none nofun
    have hk1 : { g with frame := none }.constructs = (none, [], [], [], []) := by
      simp [constructs, hbranches, hloops, hguards, htries]
    refine .modify ?_
    dsimp only
    generalize { g with frame := none } = g1 at hs1 hk1 ⊢
    -- A return is emitted unless the code ends with one.
    have hret : ∀ g2 new2, Sound b f? log (fun _ => False) new2 g2 → g2.constructs = (none, [], [], [], []) →
        Closed b f? log (g2.emit .ret) := fun g2 new2 hs2 hk2 => {
      constructs := (constructs_of_context (context_append _ _)).trans hk2
      pending := pending_append _ _
      sound := ⟨_, hs2.append_of_plain rfl fun _ => rfl⟩
      returns := ⟨g2.next, _, by rw [← back?_eq]; exact back?_append _ _, hs2.append_self, rfl⟩ }
    have hclosed : Closed b f? log (if g1.endsWithReturn frame.name then g1
        else (if frame.isInit then g1.emit (.load .argument (some 0)) else g1).emit .ret) := by
      split_ifs with hends hinit
      · simp only [endsWithReturn, Bool.and_eq_true, List.isEmpty_iff] at hends
        obtain ⟨i, hi, ho⟩ := (any_eq_true _ _).1 hends.2
        obtain ⟨h, hback, hi⟩ := bind_eq_some_iff.1 hi
        exact ⟨hk1, hends.1.1, ⟨new, hs1⟩, h, i, by rw [← back?_eq]; exact hback, hi, beq_iff_eq.1 ho⟩
      · exact hret _ _ (hs1.append_of_plain rfl fun _ => rfl)
          ((constructs_of_context (context_append _ _)).trans hk1)
      · exact hret _ _ hs1 hk1
    generalize (if g1.endsWithReturn frame.name then g1
        else (if frame.isInit then g1.emit (.load .argument (some 0)) else g1).emit .ret) = g2 at hclosed ⊢
    obtain ⟨new2, hs2⟩ := hclosed.sound
    exact ⟨hclosed.constructs, hclosed.pending, ⟨new2, hs2.still rfl⟩, hclosed.returns⟩
  · exact .throw ⟨hf, _, new, hs⟩

lemma held_of_constructs (hk : g.constructs = (none, [], [], [], [])) : g.held = [] := by
  simp only [constructs, Prod.mk.injEq] at hk
  simp [held, hk.2.1, hk.2.2.1, hk.2.2.2.1, hk.2.2.2.2]

lemma Sound.old_opcode (hs : Sound b f? log X new g) (hm : h ∈ b.code.live)
    (hi : g.code.instruction? h = some i) : ∃ i0, b.code.instruction? h = some i0 ∧ i0.opcode = i.opcode := by
  obtain ⟨i0, hi0⟩ := hs.base.instruction?_isSome hm
  refine ⟨i0, hi0, ?_⟩
  rcases hs.kept h hm i0 hi0 with hk | ⟨-, -, d, -, hk⟩
  · rw [some.inj (hi.symm.trans hk)]
  · rw [some.inj (hi.symm.trans hk)]

/-- Old instructions other than calls are as they were. -/
lemma Sound.old_instruction (hs : Sound b f? log X new g) (hm : h ∈ b.code.live)
    (hi : g.code.instruction? h = some i) (hr : i.opcode.role ≠ .call) : b.code.instruction? h = some i := by
  obtain ⟨j, hj⟩ := hs.base.instruction?_isSome hm
  rcases hs.kept h hm j hj with hk | ⟨hc, -, d, -, hk⟩
  · rw [hj, ← hk, hi]
  · rw [hk, some.injEq] at hi
    subst hi
    exact absurd hc hr

lemma Together.cons (ht : Together marks h d) (hh : h < x) (hd : d < x) : Together (x :: marks) h d := fun y hy => by
  rcases mem_cons.1 hy with rfl | hy
  · exact ⟨fun hle => absurd hh (Nat.not_lt.2 hle), fun hle => absurd hd (Nat.not_lt.2 hle)⟩
  · exact ht y hy

lemma together_of_le (hm : ∀ b ∈ marks, b ≤ x) (hh : x ≤ h) (hd : x ≤ d) : Together marks h d :=
  fun y hy => ⟨fun _ => Nat.le_trans (hm y hy) hd, fun _ => Nat.le_trans (hm y hy) hh⟩

lemma Together.old (ht : Together marks h d) (hb : b.code.Laid) (hh : h ∈ b.code.live)
    (hd : d ∈ b.code.live) : Together (b.code.nextHandle :: marks) h d :=
  ht.cons (hb.lt_next hh) (hb.lt_next hd)

lemma Idle.together_new (hb : Idle marks b) (hh : b.code.nextHandle ≤ h)
    (hd : b.code.nextHandle ≤ d) : Together (b.code.nextHandle :: marks) h d :=
  together_of_le (forall_mem_cons.2 ⟨Nat.le_refl _, hb.started⟩) hh hd

/-- **A closed method leads back to a state between calls.** -/
lemma Sound.shape?_old (hs : Sound b f? log X new g) (hm : h ∈ b.code.live) : g.code.shape? h = b.code.shape? h := by
  obtain ⟨i, hi⟩ := hs.base.instruction?_isSome hm
  rcases hs.kept h hm i hi with hj | ⟨-, -, d, -, hj⟩ <;> rw [shape?_eq hj, shape?_eq hi]

lemma Closed.idle (hc : Closed b f? log g) (hb : Idle marks b) : Idle (b.code.nextHandle :: marks) g := by
  obtain ⟨hk, hp, ⟨new, hs⟩, h, i, hlast, hi, hret⟩ := hc
  have hold : ∀ x ∈ b.code.live, x ∈ g.code.live := fun x hx => by
    rw [hs.live]
    exact mem_append_left _ hx
  refine {
    laid := hs.laid
    constructs := hk
    started := fun x hx => ?started
    links := fun l hl => by rw [hp] at hl; cases hl
    plain := fun x hx j hj hr => ?plain
    narrow := fun x hx e he => ?narrow
    leap := fun x hx j hj hr => ?leap
    protect := fun x hx j hj hr => ?protect
    call := fun x hx j hj hr => ?call
    entries := fun m d hd => ?entries
    waiting := hs.waiting
    once := hs.once
    ends := fun x hx => ?ends }
  case started =>
    rcases mem_cons.1 hx with rfl | hx
    · exact hs.grown
    · exact Nat.le_trans (hb.started x hx) hs.grown
  case plain =>
    rw [hs.live, mem_append] at hx
    rcases hx with hx | hx
    · exact hb.plain x hx j (hs.old_instruction hx hj (by simp [hr])) hr
    · exact hs.plain x hx j hj hr
  case narrow =>
    rw [hs.live, mem_append] at hx
    rcases hx with hx | hx
    · exact hb.narrow x hx e (hs.shape?_old hx ▸ he)
    · exact hs.narrow x hx e he
  case leap =>
    rw [hs.live, mem_append] at hx
    rcases hx with hx | hx
    · obtain ⟨d, hd, ht, htog⟩ := hb.leap x hx j (hs.old_instruction hx hj (by simp [hr])) hr
      exact ⟨d, hold d hd, ht, htog.old hb.laid hx hd⟩
    · rcases hs.leap x hx j hj hr with ⟨d, hd, -, ht⟩ | ⟨-, hlink | hheld | hX⟩
      · exact ⟨d, hs.mem_live hd, ht, hb.together_new (hs.fresh x hx) (hs.fresh d hd)⟩
      · rw [hp] at hlink
        cases hlink
      · rw [held_of_constructs hk] at hheld
        cases hheld
      · cases hX
  case protect =>
    rw [hs.live, mem_append] at hx
    rcases hx with hx | hx
    · obtain ⟨e, f, ht, hd⟩ := hb.protect x hx j (hs.old_instruction hx hj (by simp [hr])) hr
      exact ⟨e, f, ht, fun d hdm => ⟨hold d (hd d hdm).1, (hd d hdm).2.old hb.laid hx (hd d hdm).1⟩⟩
    · obtain ⟨e, f, ht, hd⟩ := hs.protect x hx j hj hr
      exact ⟨e, f, ht, fun d hdm => ⟨hs.mem_live (hd d hdm).1,
        hb.together_new (hs.fresh x hx) (hs.fresh d (hd d hdm).1)⟩⟩
  case call =>
    rcases hs.call x hx j hj hr with ⟨d, ht, hd | ⟨hd, -⟩⟩ | ⟨hu, hw | ⟨-, hX⟩⟩
    · exact .inl ⟨d, hold d hd, ht⟩
    · exact .inl ⟨d, hs.mem_live (mem_of_mem_head? hd), ht⟩
    · exact .inr ⟨hu, hw⟩
    · cases hX
  case entries =>
    rcases hs.entries m d hd with hd | hd
    · exact hold d hd
    · exact hs.mem_live (mem_of_mem_head? hd)
  case ends =>
    rw [hlast, some.injEq] at hx
    subst hx
    rw [CodeMap.constant?, shape?_eq hi, hret]
    simp [pushesConstant]

lemma Closed.tidy (hc : Closed b (some f) log g) : Tidy log g := by
  obtain ⟨-, hp, ⟨new, hs⟩, -⟩ := hc
  have hn := hs.named f rfl
  exact {
    pending := hp
    logged := hn.logged
    calls := hn.calls
    unique := hn.unique
    waits := fun h m i hm hx hi hu => (hn.waits h m i hm hx hi hu).resolve_right fun hX => hX.2
    waiting := hn.waiting
    stuck := hn.stuck
    onward := hn.onward }

end NeoScript.Generator
