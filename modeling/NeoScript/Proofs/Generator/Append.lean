import NeoScript.Proofs.Generator.Sound

/-!
# Appending keeps the invariant

An appended instruction becomes the destination of every pending link. If it is the first of its method, it is the
method's entry, and the calls that waited for the method lead to it.
-/

namespace NeoScript

open List Option CodeMap Table

lemma Table.filter_put {α : Type} (k : String) (v : α) (l : List (String × α)) :
    (put k v l).filter (fun e => e.1 ≠ k) = l.filter fun e => e.1 ≠ k := by
  induction l with
  | nil => simp [put]
  | cons e l ih =>
    by_cases he : e.1 = k
    · simp [put, he]
    · rw [put, if_neg he, filter_cons, filter_cons, ih]

/-- A jump that has no target yet. -/
abbrev Instruction.unaimed (test : JumpTest) : Instruction := ⟨.jump test false, [], .unresolved⟩

namespace Generator

section Effect

variable (g : Generator) (i : Instruction)

/-- The generator with an instruction appended to which no link is resolved yet. -/
def inserted : Generator :=
  { { g with code := g.code.insert i }.note (.emit g.code.size i.opcode g.stack.depth) with pending := [] }

lemma append_eq : g.append i = (g.inserted i).resolveLinks g.code.nextHandle g.pending := rfl

@[simp] lemma context_append : (g.append i).context = g.context := by
  rw [append_eq, context_resolveLinks]
  rfl

@[simp] lemma pending_append : (g.append i).pending = [] := by
  rw [append_eq, pending_resolveLinks]
  rfl

@[simp] lemma live_append : (g.append i).code.live = g.code.live ++ [g.code.nextHandle] := by
  rw [append_eq, live_resolveLinks]
  exact live_insert _ _

@[simp] lemma nextHandle_append : (g.append i).code.nextHandle = g.code.nextHandle + 1 := by
  rw [append_eq, nextHandle_resolveLinks]
  exact nextHandle_insert _ _

lemma shape?_append (h : Handle) :
    (g.append i).code.shape? h = if h = g.code.nextHandle then some (i.opcode, i.operand) else g.code.shape? h := by
  rw [append_eq, shape?_resolveLinks]
  exact shape?_insert _ _ _

lemma role?_append (h : Handle) :
    (g.append i).code.role? h = if h = g.code.nextHandle then some i.opcode.role else g.code.role? h := by
  rw [role?, shape?_append]
  split <;> rfl

lemma laid_append (hl : g.code.Laid) : (g.append i).code.Laid := by
  rw [append_eq]
  exact (retargeted_resolveLinks _ _ _).laid (hl.insert i)

lemma entries_append (m : String) :
    (g.append i).entries.get? m = if .entry m ∈ g.pending then some g.code.nextHandle else g.entries.get? m := by
  rw [append_eq, entries_resolveLinks]
  rfl

lemma waitingOf_append (m : String) : (g.append i).waitingOf m = if .entry m ∈ g.pending then [] else g.waitingOf m := by
  rw [append_eq, waitingOf_resolveLinks]
  rfl

variable {g i}

lemma held_append : (g.append i).held = g.held := held_of_context (context_append g i)

lemma shape?_append_of_lt {h : Handle} (hlt : h < g.code.nextHandle) : (g.append i).code.shape? h = g.code.shape? h := by
  rw [shape?_append, if_neg (Nat.ne_of_lt hlt)]

lemma filter_entries_resolveLinks {f : String} {d : Handle} {links : List Link} (g : Generator)
    (hf : ∀ m, .entry m ∈ links → m = f) : (g.resolveLinks d links).entries.entries.filter (fun e => e.1 ≠ f) =
      g.entries.entries.filter fun e => e.1 ≠ f := by
  induction links generalizing g with
  | nil => rfl
  | cons link links ih =>
    rw [resolveLinks_cons, ih _ fun m hm => hf m (mem_cons_of_mem _ hm)]
    cases link with
    | entry m =>
      have hm := hf m mem_cons_self
      subst hm
      change ((pointAll _ _ d).entries.insert m d).entries.filter _ = _
      rw [entries_pointAll]
      exact filter_put m d g.entries.entries
    | _ => simp [resolve]

end Effect

namespace Sound

variable {b : Generator} {f? : Option String} {log : List (Handle × String)} {X Y : Handle → Prop}
  {new : List Handle} {g : Generator} {i j : Instruction} {h : Handle}

/-! ### Instructions after appending -/

lemma linksTyped_inserted (hs : Sound b f? log X new g) (i : Instruction) : (g.inserted i).LinksTyped g.pending := by
  have hrole : ∀ s ∈ g.code.live, (g.inserted i).code.role? s = g.code.role? s := fun s hm => by
    refine role?_congr ?_
    change (g.code.insert i).shape? s = _
    rw [shape?_insert, if_neg (Nat.ne_of_lt (hs.laid.lt_next hm))]
  have ht := hs.linksTyped
  refine ⟨fun l hl s hsrc => ?_, fun m s hm => ?_⟩
  · rw [hrole s (hs.mem_live (hs.source hl hsrc).1)]
    exact ht.role l hl s hsrc
  · rw [hrole s (hs.waiting m s hm).1]
    exact ht.waiting m s hm

lemma source_mem (hs : Sound b f? log X new g) {l : Link} (hl : l ∈ g.pending) {s : Handle}
    (hsrc : l.source? = some s) : s ∈ new := (hs.source hl hsrc).1

lemma instruction?_inserted (hs : Sound b f? log X new g) (hm : h ∈ g.code.live) :
    (g.inserted i).code.instruction? h = g.code.instruction? h := by
  change (g.code.insert i).instruction? h = _
  rw [instruction?_insert, if_neg (Nat.ne_of_lt (hs.laid.lt_next hm))]

section

variable (hs : Sound b f? log X new g) (hm : h ∈ g.code.live) (hj : g.code.instruction? h = some j)
include hs hm hj

lemma role_append {j' : Instruction} (hj' : (g.append i).code.instruction? h = some j') :
    j.opcode.role = j'.opcode.role := by
  have hrole := role?_congr (shape?_append_of_lt (i := i) (hs.laid.lt_next hm))
  rw [role?_eq hj, role?_eq hj'] at hrole
  exact (some.inj hrole).symm

lemma append_other (hsrc : ∀ l ∈ g.pending, l.source? ≠ some h) (hw : ∀ m, .entry m ∈ g.pending → h ∉ g.waitingOf m) :
    (g.append i).code.instruction? h = some j := by
  rw [append_eq]
  exact instruction?_resolveLinks_other ((hs.instruction?_inserted hm).trans hj) hsrc hw

lemma append_plain (hr : j.opcode.role = .plain) : (g.append i).code.instruction? h = some j := by
  refine hs.append_other hm hj (hs.linksTyped.source?_ne hj (.inr hr)) fun m _ hw => ?_
  have := (role?_eq hj).symm.trans (hs.linksTyped.waiting m h hw)
  simp [hr] at this

lemma append_leap (hr : j.opcode.role = .leap) : (g.append i).code.instruction? h =
      some { j with target := if .jump h ∈ g.pending then .code g.code.nextHandle else j.target } := by
  rw [append_eq]
  exact instruction?_resolveLinks_leap (hs.linksTyped_inserted i) ((hs.instruction?_inserted hm).trans hj) hr

lemma append_protect (hr : j.opcode.role = .protect) {e f : Option Handle} (hh : j.target = .handlers e f) :
    (g.append i).code.instruction? h =
      some ⟨j.opcode, j.operand, .handlers (if .handler h ∈ g.pending then some g.code.nextHandle else e)
        (if .finalizer h ∈ g.pending then some g.code.nextHandle else f)⟩ := by
  rw [append_eq]
  exact instruction?_resolveLinks_protect (hs.linksTyped_inserted i) ((hs.instruction?_inserted hm).trans hj) hr hh

/-- A call leads to the appended instruction if it waited for a method that starts there. -/
lemma append_call (hr : j.opcode.role = .call) : (∃ m, .entry m ∈ g.pending ∧ h ∈ g.waitingOf m ∧
      (g.append i).code.instruction? h = some { j with target := .code g.code.nextHandle }) ∨
      (∀ m, .entry m ∈ g.pending → h ∉ g.waitingOf m) ∧ (g.append i).code.instruction? h = some j := by
  by_cases hcalled : ∃ m, .entry m ∈ g.pending ∧ h ∈ g.waitingOf m
  · obtain ⟨m, he, hw⟩ := hcalled
    refine .inl ⟨m, he, hw, ?_⟩
    rw [append_eq]
    exact instruction?_resolveLinks_called (hs.linksTyped_inserted i) ((hs.instruction?_inserted hm).trans hj) he hw
  · have hnot : ∀ m, .entry m ∈ g.pending → h ∉ g.waitingOf m := fun m he hw => hcalled ⟨m, he, hw⟩
    exact .inr ⟨hnot, hs.append_other hm hj (hs.linksTyped.source?_ne hj (.inl hr)) hnot⟩

end

/-- The appended instruction is no link's source. -/
lemma append_self (hs : Sound b f? log X new g) : (g.append i).code.instruction? g.code.nextHandle = some i := by
  have hnot : g.code.nextHandle ∉ g.code.live := fun hm => Nat.lt_irrefl _ (hs.laid.lt_next hm)
  rw [append_eq]
  refine instruction?_resolveLinks_other ?_ (fun l hl hsrc => ?_) fun m _ hw => hnot (hs.waiting m _ hw).1
  · change (g.code.insert i).instruction? _ = _
    rw [instruction?_insert, if_pos rfl]
  · exact hnot (hs.mem_live (hs.source_mem hl hsrc))

/-! ### The first new instruction -/

lemma head?_append {a c : Handle} (ha : new.head? = some a) : (new ++ [c]).head? = some a := by
  rw [List.head?_append, ha, some_or]

lemma ne_head_append {c d : Handle} (hd : d ∈ new) (hne : new.head? ≠ some d) : (new ++ [c]).head? ≠ some d := by
  obtain ⟨a, new', rfl⟩ := exists_cons_of_ne_nil (ne_nil_of_mem hd)
  exact hne

lemma head?_of_entry (hs : Sound b f? log X new g) {m : String} (he : .entry m ∈ g.pending) (c : Handle) :
    (new ++ [c]).head? = some c := by
  rw [show new = [] from hs.links _ he]
  rfl

lemma next_ne_head (hs : Sound b f? log X new g) (hne : new ≠ []) :
    (new ++ [g.code.nextHandle]).head? ≠ some g.code.nextHandle := by
  obtain ⟨a, new', rfl⟩ := exists_cons_of_ne_nil hne
  intro h
  have := hs.bound (mem_cons_self : a ∈ a :: new')
  simp only [cons_append, head?_cons, some.injEq] at h
  exact Nat.ne_of_lt this h

/-! ### The invariant -/

/-- What an instruction must be like to be appended; a call comes with the method it is emitted for. -/
structure Appendable (X : Handle → Prop) (new : List Handle) (g : Generator) (callee : Option String)
    (i : Instruction) : Prop where
  plain : i.opcode.role = .plain → i.Proper
  leap : i.opcode.role = .leap →
    (∃ d ∈ new, new.head? ≠ some d ∧ i.target = .code d) ∨ i.target = .unresolved ∧ X g.code.nextHandle
  protect : i.opcode.role = .protect → i.target = .handlers none none
  call : i.opcode.role = .call ↔ callee.isSome
  callee : ∀ m, callee = some m →
    (∃ d, i.target = .code d ∧ g.entries.get? m = some d) ∨ i.target = .unresolved ∧ X g.code.nextHandle
  narrow : i.opcode.isWide = false

/-- The log with the call that is emitted next. -/
def logCall (g : Generator) (callee : Option String) (log : List (Handle × String)) : List (Handle × String) :=
  (callee.map fun m => (g.code.nextHandle, m)).toList ++ log

lemma mem_logCall {callee : Option String} {m : String} :
    (h, m) ∈ logCall g callee log ↔ h = g.code.nextHandle ∧ callee = some m ∨ (h, m) ∈ log := by
  cases callee <;> simp [logCall, eq_comm]

lemma not_mem_log {f m : String} (hn : Named b f log X new g) : (g.code.nextHandle, m) ∉ log := fun hm => by
  have := hn.calls _ _ hm
  simp [role?, shape?, instruction?, nextHandle] at this

/-- A call that was emitted before is among the code before. -/
lemma live_of_logged {f m : String} (hs : Sound b f? log X new g) (hn : Named b f log X new g) (hm : (h, m) ∈ log)
    (hlive : h ∈ (g.append i).code.live) :
    h ∈ g.code.live ∧ ∃ j, g.code.instruction? h = some j ∧ j.opcode.role = .call := by
  rw [live_append, mem_append, mem_singleton] at hlive
  have hlive' := hlive.resolve_right fun e => not_mem_log hn (e ▸ hm)
  obtain ⟨j, hj⟩ := hs.laid.instruction?_isSome hlive'
  exact ⟨hlive', j, hj, role_of_role? hj (hn.calls h m hm)⟩

section

variable {f m : String} {callee : Option String} (hs : Sound b f? log X new g) (hn : Named b f log X new g)
  (hi : Appendable Y new g callee i) (hm : (h, m) ∈ logCall g callee log) (hlive : h ∈ (g.append i).code.live)
  (hj : (g.append i).code.instruction? h = some j)
include hs hn hi hm hlive hj

lemma waits_append (hX : ∀ h, X h → Y h) (hu : j.target = .unresolved) :
    h ∈ (g.append i).waitingOf m ∨ h ∈ new ++ [g.code.nextHandle] ∧ Y h := by
  rcases mem_logCall.1 hm with ⟨rfl, hc⟩ | hm
  · rw [hs.append_self, some.injEq] at hj
    subst hj
    rcases hi.callee m hc with ⟨d, hd, -⟩ | ⟨-, hx⟩
    · rw [hd] at hu
      cases hu
    · exact .inr ⟨by simp, hx⟩
  · obtain ⟨hlive', j', hj', hr⟩ := hs.live_of_logged hn hm hlive
    rcases hs.append_call hlive' hj' hr with ⟨m', he, hw, hafter⟩ | ⟨hnot, hafter⟩
    · rw [hafter, some.injEq] at hj
      subst hj
      cases hu
    · rw [hafter, some.injEq] at hj
      subst hj
      rcases hn.waits h m j' hm hlive' hj' hu with hw | hx
      · rw [waitingOf_append, if_neg fun he => hnot m he hw]
        exact .inl hw
      · exact .inr ⟨mem_append_left _ hx.1, hX h hx.2⟩

lemma leads_append {d : Handle} (hd : j.target = .code d) : d ∈ b.code.live ∧ (h ∈ b.code.live ∨ (b.entries.get? f).isSome) ∨
    (g.append i).entries.get? m = some d := by
  have hkeep : ∀ m d, g.entries.get? m = some d →
      d ∈ b.code.live ∧ (h ∈ b.code.live ∨ (b.entries.get? f).isSome) ∨ (g.append i).entries.get? m = some d :=
    fun m d he => by
      by_cases hp : .entry m ∈ g.pending
      · have hnil : new = [] := hs.links _ hp
        have hd : d ∈ b.code.live := (hs.entries m d he).resolve_right fun hh => by
          rw [hnil] at hh
          cases hh
        obtain rfl := hn.entry m hp
        exact .inl ⟨hd, .inr (hn.former d hd he)⟩
      · rw [entries_append, if_neg hp]
        exact .inr he
  rcases mem_logCall.1 hm with ⟨rfl, hc⟩ | hm
  · rw [hs.append_self, some.injEq] at hj
    subst hj
    rcases hi.callee m hc with ⟨d', hd', he⟩ | ⟨hu, -⟩
    · rw [hd, Target.code.injEq] at hd'
      subst hd'
      exact hkeep m d he
    · rw [hd] at hu
      cases hu
  · obtain ⟨hlive', j', hj', hr⟩ := hs.live_of_logged hn hm hlive
    rcases hs.append_call hlive' hj' hr with ⟨m', he, hw, hafter⟩ | ⟨hnot, hafter⟩
    · rw [hafter, some.injEq] at hj
      subst hj
      obtain rfl := hn.unique h m m' hm (hn.waiting m' h hw)
      rw [Target.code.injEq] at hd
      rw [entries_append, if_pos he, hd]
      exact .inr rfl
    · rw [hafter, some.injEq] at hj
      subst hj
      rcases hn.leads h m j' d hm hlive' hj' hd with ho | he
      · exact .inl ho
      · exact hkeep m d he

lemma onward_append : j.target ≠ .code h := by
  intro ht
  rcases mem_logCall.1 hm with ⟨rfl, hc⟩ | hm
  · rw [hs.append_self, some.injEq] at hj
    subst hj
    rcases hi.callee m hc with ⟨d, hd, he⟩ | ⟨hu, -⟩
    · rw [hd, Target.code.injEq] at ht
      have hlt : d < g.code.nextHandle := by
        rcases hs.entries m d he with hd | hd
        · exact Nat.lt_of_lt_of_le (hs.old hd) hs.grown
        · exact hs.bound (mem_of_mem_head? hd)
      exact Nat.ne_of_lt hlt ht
    · rw [hu] at ht
      cases ht
  · obtain ⟨hlive', j', hj', hr⟩ := hs.live_of_logged hn hm hlive
    rcases hs.append_call hlive' hj' hr with ⟨m', -, -, hafter⟩ | ⟨-, hafter⟩
    · rw [hafter, some.injEq] at hj
      subst hj
      exact Nat.ne_of_gt (hs.laid.lt_next hlive') (Target.code.inj ht)
    · rw [hafter, some.injEq] at hj
      subst hj
      exact hn.onward h m j' hm hlive' hj' ht

end

lemma named_append {f : String} {callee : Option String} (hs : Sound b f? log X new g)
    (hn : Named b f log X new g) (hX : ∀ h, X h → Y h) (hi : Appendable Y new g callee i) :
    Named b f (logCall g callee log) Y (new ++ [g.code.nextHandle]) (g.append i) := by
  refine ⟨?frame, ?entry, ?others, ?opened, ?logged, ?calls, ?unique,
    fun h m j hm hlive hj => hs.waits_append hn hi hm hlive hj hX, fun h m j d hm hlive hj => hs.leads_append hn hi hm hlive hj,
    ?former, ?waiting, ?stuck, fun h m j hm hlive hj => hs.onward_append hn hi hm hlive hj⟩
  case frame =>
    intro fr hfr
    rw [frame_of_context (context_append g i)] at hfr
    exact hn.frame fr hfr
  case entry =>
    intro m hm
    rw [pending_append] at hm
    cases hm
  case others =>
    rw [append_eq, filter_entries_resolveLinks _ hn.entry]
    exact hn.others
  case opened =>
    refine .inr ⟨by simp, ?_⟩
    rw [entries_append]
    rcases hn.opened with ⟨rfl, he⟩ | ⟨hne, he⟩
    · rw [if_pos he]
      rfl
    · rw [if_neg (hs.entry_not_mem hne f), he]
      obtain ⟨a, new', rfl⟩ := exists_cons_of_ne_nil hne
      rfl
  case logged =>
    intro h hm hr
    rw [live_append, mem_append, mem_singleton] at hm
    rw [role?_append] at hr
    rcases hm with hm | rfl
    · rw [if_neg (Nat.ne_of_lt (hs.laid.lt_next hm))] at hr
      obtain ⟨m, hmem⟩ := hn.logged h hm hr
      exact ⟨m, mem_logCall.2 (.inr hmem)⟩
    · rw [if_pos rfl, some.injEq] at hr
      obtain ⟨m, hm⟩ := isSome_iff_exists.1 (hi.call.1 hr)
      exact ⟨m, mem_logCall.2 (.inl ⟨rfl, hm⟩)⟩
  case calls =>
    intro h m hm
    rw [role?_append]
    rcases mem_logCall.1 hm with ⟨rfl, hc⟩ | hm
    · rw [if_pos rfl, hi.call.2 (by rw [hc]; rfl)]
    · rw [if_neg fun e : h = g.code.nextHandle => not_mem_log hn (e ▸ hm)]
      exact hn.calls h m hm
  case unique =>
    intro h m m' hm hm'
    rcases mem_logCall.1 hm with ⟨rfl, hc⟩ | hm
    · rcases mem_logCall.1 hm' with ⟨-, hc'⟩ | hm'
      · exact some.inj (hc.symm.trans hc')
      · exact absurd hm' (not_mem_log hn)
    · rcases mem_logCall.1 hm' with ⟨rfl, -⟩ | hm'
      · exact absurd hm (not_mem_log hn)
      · exact hn.unique h m m' hm hm'
  case former =>
    intro d hd he
    rw [entries_append] at he
    split at he
    · exact absurd (some.inj he ▸ hs.old hd) (Nat.not_lt.2 hs.grown)
    · exact hn.former d hd he
  case waiting =>
    intro m h hw
    rw [waitingOf_append] at hw
    split at hw
    · cases hw
    · exact mem_logCall.2 (.inr (hn.waiting m h hw))
  case stuck =>
    intro m d h hw he
    rw [waitingOf_append] at hw
    split at hw
    · cases hw
    · next hp =>
      rw [entries_append, if_neg hp] at he
      exact hn.stuck m d h hw he
/-- Code from before the method stays as it is, except for calls that waited for the method. -/
lemma kept_append (hs : Sound b f? log X new g) (hm : h ∈ b.code.live) (hj : b.code.instruction? h = some j) :
    (g.append i).code.instruction? h = some j ∨ j.opcode.role = .call ∧ j.target = .unresolved ∧
      ∃ d, (new ++ [g.code.nextHandle]).head? = some d ∧
        (g.append i).code.instruction? h = some { j with target := .code d } := by
  have hlive := hs.mem_live_old hm
  have hsrc : ∀ l ∈ g.pending, l.source? ≠ some h := fun l hl e => hs.not_mem_new hm (hs.source_mem hl e)
  rcases hs.kept h hm j hj with hj' | ⟨hr, hu, d, hd, hj'⟩
  · by_cases hr : j.opcode.role = .call
    · rcases hs.append_call hlive hj' hr with ⟨m, he, hw, hafter⟩ | ⟨-, hafter⟩
      · obtain ⟨-, j', hj'', -, hu⟩ := hs.waiting m h hw
        rw [hj', some.injEq] at hj''
        subst hj''
        exact .inr ⟨hr, hu, _, hs.head?_of_entry he _, hafter⟩
      · exact .inl hafter
    · refine .inl (hs.append_other hlive hj' hsrc fun m _ hw => hr ?_)
      exact role_of_role? hj' (hs.linksTyped.waiting m h hw)
  · refine .inr ⟨hr, hu, d, head?_append hd, hs.append_other hlive hj' hsrc fun m _ hw => ?_⟩
    obtain ⟨-, j', hj'', -, hu'⟩ := hs.waiting m h hw
    rw [hj', some.injEq] at hj''
    subst hj''
    cases hu'

section

variable {callee : Option String} (hs : Sound b f? log X new g) (hi : Appendable Y new g callee i)
  (hj : (g.append i).code.instruction? h = some j)
include hs hi hj

lemma leap_append (hX : ∀ h, X h → Y h) (hm : h ∈ new ++ [g.code.nextHandle]) (hr : j.opcode.role = .leap) :
    (∃ d ∈ new ++ [g.code.nextHandle], (new ++ [g.code.nextHandle]).head? ≠ some d ∧ j.target = .code d) ∨
      j.target = .unresolved ∧ (.jump h ∈ (g.append i).pending ∨ h ∈ (g.append i).held ∨ Y h) := by
  rcases mem_append.1 hm with hm | hm
  · obtain ⟨j', hj'⟩ := hs.laid.instruction?_isSome (hs.mem_live hm)
    have hr' : j'.opcode.role = .leap := (hs.role_append (hs.mem_live hm) hj' hj).trans hr
    rw [hs.append_leap (hs.mem_live hm) hj' hr', some.injEq] at hj
    subst hj
    by_cases hp : .jump h ∈ g.pending
    · simp only [hp, if_true]
      exact .inl ⟨_, mem_append_right _ mem_cons_self, hs.next_ne_head (ne_nil_of_mem hm), rfl⟩
    · simp only [hp, if_false]
      rcases hs.leap h hm j' hj' hr' with ⟨d, hd, hne, ht⟩ | ⟨hu, hcase⟩
      · exact .inl ⟨d, mem_append_left _ hd, ne_head_append hd hne, ht⟩
      · rw [held_append]
        exact .inr ⟨hu, .inr ((hcase.resolve_left hp).imp id (hX h))⟩
  · obtain rfl := mem_singleton.1 hm
    rw [hs.append_self, some.injEq] at hj
    subst hj
    rcases hi.leap hr with ⟨d, hd, hne, ht⟩ | ⟨hu, hx⟩
    · exact .inl ⟨d, mem_append_left _ hd, ne_head_append hd hne, ht⟩
    · exact .inr ⟨hu, .inr (.inr hx)⟩

lemma protect_append (hm : h ∈ new ++ [g.code.nextHandle]) (hr : j.opcode.role = .protect) :
    ∃ e f, j.target = .handlers e f ∧ ∀ d ∈ e.toList ++ f.toList,
      d ∈ new ++ [g.code.nextHandle] ∧ (new ++ [g.code.nextHandle]).head? ≠ some d := by
  rcases mem_append.1 hm with hm | hm
  · obtain ⟨j', hj'⟩ := hs.laid.instruction?_isSome (hs.mem_live hm)
    have hr' : j'.opcode.role = .protect := (hs.role_append (hs.mem_live hm) hj' hj).trans hr
    obtain ⟨e, f, ht, hd⟩ := hs.protect h hm j' hj' hr'
    rw [hs.append_protect (hs.mem_live hm) hj' hr' ht, some.injEq] at hj
    subst hj
    refine ⟨_, _, rfl, fun d hdm => ?_⟩
    rcases mem_of_mem_handlers hdm with rfl | hdm
    · exact ⟨mem_append_right _ mem_cons_self, hs.next_ne_head (ne_nil_of_mem hm)⟩
    · exact ⟨mem_append_left _ (hd d hdm).1, ne_head_append (hd d hdm).1 (hd d hdm).2⟩
  · obtain rfl := mem_singleton.1 hm
    rw [hs.append_self, some.injEq] at hj
    subst hj
    exact ⟨none, none, hi.protect hr, nofun⟩

lemma call_append (hX : ∀ h, X h → Y h) (hm : h ∈ (g.append i).code.live) (hr : j.opcode.role = .call) :
    (∃ d, j.target = .code d ∧ (d ∈ b.code.live ∨
      (new ++ [g.code.nextHandle]).head? = some d ∧ ∃ m, (g.append i).entries.get? m = some d)) ∨
      j.target = .unresolved ∧ ((∃ m, h ∈ (g.append i).waitingOf m) ∨ h ∈ new ++ [g.code.nextHandle] ∧ Y h) := by
  have hentry : ∀ m d, g.entries.get? m = some d → new.head? = some d → (g.append i).entries.get? m = some d :=
    fun m d he hh => by
      rw [entries_append, if_neg (hs.entry_not_mem (by rintro rfl; cases hh) m), he]
  rw [live_append] at hm
  rcases mem_append.1 hm with hm | hm
  · obtain ⟨j', hj'⟩ := hs.laid.instruction?_isSome hm
    have hr' : j'.opcode.role = .call := (hs.role_append hm hj' hj).trans hr
    rcases hs.append_call hm hj' hr' with ⟨m, he, hw, hafter⟩ | ⟨hnot, hafter⟩
    · rw [hafter, some.injEq] at hj
      subst hj
      refine .inl ⟨_, rfl, .inr ⟨hs.head?_of_entry he _, m, ?_⟩⟩
      rw [entries_append, if_pos he]
    · rw [hafter, some.injEq] at hj
      subst hj
      rcases hs.call h hm j' hj' hr' with ⟨d, ht, hd⟩ | ⟨hu, hw⟩
      · refine .inl ⟨d, ht, hd.imp id ?_⟩
        rintro ⟨hh, m, he⟩
        exact ⟨head?_append hh, m, hentry m d he hh⟩
      · refine .inr ⟨hu, hw.imp ?_ fun hx => ⟨mem_append_left _ hx.1, hX h hx.2⟩⟩
        rintro ⟨m, hw⟩
        refine ⟨m, ?_⟩
        rwa [waitingOf_append, if_neg fun he => hnot m he hw]
  · obtain rfl := mem_singleton.1 hm
    rw [hs.append_self, some.injEq] at hj
    subst hj
    obtain ⟨m, hc⟩ := isSome_iff_exists.1 (hi.call.1 hr)
    rcases hi.callee m hc with ⟨d, ht, he⟩ | ⟨hu, hx⟩
    · refine .inl ⟨d, ht, (hs.entries m d he).imp id fun hh => ⟨head?_append hh, m, hentry m d he hh⟩⟩
    · exact .inr ⟨hu, .inr ⟨by simp, hx⟩⟩

end

/-- **Appending keeps the invariant.** -/
lemma append (hs : Sound b f? log X new g) (callee : Option String) (hX : ∀ h, X h → Y h)
    (hi : Appendable Y new g callee i) : Sound b f? (logCall g callee log) Y (new ++ [g.code.nextHandle]) (g.append i) := by
  have hnew : ∀ h ∈ new ++ [g.code.nextHandle], h ∈ new ∨ h = g.code.nextHandle := fun h hm => by
    rwa [mem_append, mem_singleton] at hm
  have hleft : ∀ h ∈ new, h ∈ new ++ [g.code.nextHandle] := fun h hm => mem_append_left _ hm
  have hshape : ∀ h ∈ new, (g.append i).code.shape? h = g.code.shape? h := fun h hm =>
    shape?_append_of_lt (hs.bound hm)
  refine {
    laid := laid_append g i hs.laid
    live := by rw [live_append, hs.live, append_assoc]
    base := hs.base
    closed := hs.closed
    starts := hs.starts
    ends := hs.ends
    fresh := fun h hm => ?fresh
    grown := by rw [nextHandle_append]; exact Nat.le_succ_of_le hs.grown
    head := fun a ha h hm => ?head
    kept := fun h hm j hj => hs.kept_append hm hj
    plain := fun h hm j hj hr => ?plain
    narrow := fun h hm e he => ?narrow
    leap := fun h hm j hj hr => hs.leap_append hi hj hX hm hr
    protect := fun h hm j hj hr => hs.protect_append hi hj hm hr
    call := fun h hm j hj hr => hs.call_append hi hj hX hm hr
    entries := fun m d he => ?entries
    waiting := fun m h hw => ?waiting
    once := fun m m' h hw hw' => ?once
    links := fun l hl => by rw [pending_append] at hl; cases hl
    jumps := fun h hm => ?jumps
    loops := fun l hl => ?loops
    tries := fun t ht => ?tries
    named := fun f hf => hs.named_append (hs.named f hf) hX hi }
  case fresh =>
    rcases hnew h hm with hm | rfl
    · exact hs.fresh h hm
    · exact hs.grown
  case head =>
    rcases hnew h hm with hm | rfl
    · obtain ⟨a', new', rfl⟩ := exists_cons_of_ne_nil (ne_nil_of_mem hm)
      exact hs.head a ha h hm
    · cases new with
      | nil => exact Nat.le_of_eq (some.inj ha).symm
      | cons a' new' =>
        obtain rfl := some.inj ha
        exact Nat.le_of_lt (hs.bound mem_cons_self)
  case plain =>
    rcases hnew h hm with hm | rfl
    · obtain ⟨j', hj'⟩ := hs.laid.instruction?_isSome (hs.mem_live hm)
      have hr' : j'.opcode.role = .plain := (hs.role_append (hs.mem_live hm) hj' hj).trans hr
      rw [hs.append_plain (hs.mem_live hm) hj' hr', some.injEq] at hj
      subst hj
      exact hs.plain h hm j' hj' hr
    · rw [hs.append_self, some.injEq] at hj
      subst hj
      exact hi.plain hr
  case narrow =>
    rcases hnew h hm with hm | rfl
    · exact hs.narrow h hm e (hshape h hm ▸ he)
    · rw [shape?_append, if_pos rfl] at he
      cases he
      exact hi.narrow
  case entries =>
    rw [entries_append] at he
    split at he
    · next hp =>
      obtain rfl := some.inj he
      exact .inr (hs.head?_of_entry hp _)
    · exact (hs.entries m d he).imp id head?_append
  case waiting =>
    rw [waitingOf_append] at hw
    split at hw
    · cases hw
    · next hp =>
      obtain ⟨hlive, j, hj, hr, hu⟩ := hs.waiting m h hw
      refine ⟨by rw [live_append]; exact mem_append_left _ hlive, j, ?_, hr, hu⟩
      rcases hs.append_call hlive hj hr with ⟨m', he, hw', -⟩ | ⟨-, hafter⟩
      · exact absurd (hs.once m m' h hw hw' ▸ he) hp
      · exact hafter
  case once =>
    rw [waitingOf_append] at hw hw'
    split at hw
    · cases hw
    · split at hw'
      · cases hw'
      · exact hs.once m m' h hw hw'
  case jumps =>
    rw [held_append] at hm
    obtain ⟨hm, hr⟩ := hs.jumps h hm
    exact ⟨hleft h hm, (role?_congr (hshape h hm)).trans hr⟩
  case loops =>
    rw [loops_of_context (context_append g i)] at hl
    refine (hs.loops l hl).mono (fun h hm _ => hleft h hm) (fun h hne => ?_) fun h hm _ hne => ne_head_append hm hne
    refine shape?_append_of_lt ?_
    by_contra hlt
    refine hne ?_
    rw [shape?, instruction?, Array.getElem?_eq_none (Nat.le_of_not_lt hlt), map_none]
  case tries =>
    rw [tries_of_context (context_append g i)] at ht
    obtain ⟨hm, hr⟩ := hs.tries t ht
    exact ⟨hleft _ hm, (role?_congr (hshape _ hm)).trans hr⟩

end Sound

end Generator

end NeoScript
