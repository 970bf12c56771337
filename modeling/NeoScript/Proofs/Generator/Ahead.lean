import NeoScript.Proofs.Generator.Construct

/-!
# Code behind a state

`Ahead b new g` says that `g` came from `b` by emitting the code `new`, and that nothing older was taken away. The
code that `b` had is then in one of two states. As long as nothing stands behind it, it is as it was, and the same
links are pending. Once something does, every link that was pending in `b` leads to the first instruction behind it.

The relation says nothing about the jumps that open constructs hold, so it fits what is emitted between two commands
that open or close constructs.
-/

namespace NeoScript.Generator

open List Option CodeMap Instruction Table Link Sound

variable {m : String}

/-- Every entry that is still to come is that of the open method. -/
def Owned (g : Generator) : Prop := ∀ m, .entry m ∈ g.pending → g.currentMethod? = some m

/-- The generator with its links resolved to the first of some instructions, if there are any. -/
def toward (g : Generator) (new : List Handle) : Generator :=
  match new.head? with
  | some d => g.resolveAll d
  | none => g

lemma toward_cons (g : Generator) (d : Handle) (new : List Handle) : g.toward (d :: new) = g.resolveAll d := rfl

lemma toward_append (g : Generator) {new : List Handle} (hne : new ≠ []) (more : List Handle) :
    g.toward (new ++ more) = g.toward new := by
  obtain ⟨d, new, rfl⟩ := exists_cons_of_ne_nil hne
  rfl

lemma entries_toward_of_not_mem {g : Generator} (hm : .entry m ∉ g.pending) (new : List Handle) :
    (g.toward new).entries.get? m = g.entries.get? m := by
  cases new with
  | nil => rfl
  | cons d new => rw [toward_cons, resolveAll_eq, entries_resolveLinks, if_neg hm]

lemma entries_toward_of_mem {g : Generator} (hm : .entry m ∈ g.pending) (d : Handle) (new : List Handle) :
    (g.toward (d :: new)).entries.get? m = some d := by
  rw [toward_cons, resolveAll_eq, entries_resolveLinks, if_pos hm]

lemma waitingOf_toward_of_not_mem {g : Generator} (hm : .entry m ∉ g.pending) (new : List Handle) :
    (g.toward new).waitingOf m = g.waitingOf m := by
  cases new with
  | nil => rfl
  | cons d new =>
    rw [toward_cons, resolveAll_eq, waitingOf_resolveLinks, if_neg hm]
    rfl

lemma waitingOf_toward_of_mem {g : Generator} (hm : .entry m ∈ g.pending) (d : Handle)
    (new : List Handle) : (g.toward (d :: new)).waitingOf m = [] := by
  rw [toward_cons, resolveAll_eq, waitingOf_resolveLinks, if_pos hm]

/-- `g` is `b` with the code `new` behind it. What is said of calls and entries holds if no entry of another method
is pending. -/
structure Ahead (b : Generator) (new : List Handle) (g : Generator) : Prop where
  live : g.code.live = b.code.live ++ new
  fresh : ∀ h ∈ new, b.code.nextHandle ≤ h
  grown : b.code.nextHandle ≤ g.code.nextHandle
  shape : ∀ h < b.code.nextHandle, g.code.shape? h = b.code.shape? h
  frame : g.frame = b.frame
  code : ∀ h ∈ b.code.live, b.code.role? h ≠ some .call ∨ b.Owned →
    g.code.instruction? h = (b.toward new).code.instruction? h
  links : ∀ l, new = [] → l.source?.isSome ∨ b.Owned → (l ∈ g.pending ↔ l ∈ b.pending)
  waits : b.Owned → ∀ m, ∀ h ∈ b.code.live, h ∈ g.waitingOf m ↔ h ∈ (b.toward new).waitingOf m
  sources : new ≠ [] → ∀ l ∈ g.pending, ∃ s ∈ new, l.source? = some s
  entries : b.Owned → ∀ m, (new = [] → .entry m ∉ b.pending) → g.entries.get? m = (b.toward new).entries.get? m

/-! ### Resolving links, seen from one instruction -/

section Resolve

variable {g g' : Generator} {d h : Handle}

lemma aim_congr (hi : g'.code.instruction? h = g.code.instruction? h) (hw : g'.waiting = g.waiting) (t : Target)
    (link : Link) : g'.aim d h t link = g.aim d h t link := by
  have hhandlers : g'.handlersOf h = g.handlersOf h := by
    simp only [handlersOf, CodeMap.target?, hi]
  cases link with
  | jump s => rfl
  | handler s =>
    by_cases hs : h = s
    · subst hs
      simp only [aim, hhandlers]
    · simp only [aim, hs, if_false]
  | finalizer s =>
    by_cases hs : h = s
    · subst hs
      simp only [aim, hhandlers]
    · simp only [aim, hs, if_false]
  | entry m => simp only [aim, waitingOf_congr hw]

lemma waiting_resolve_congr (hw : g'.waiting = g.waiting) (link : Link) :
    (g'.resolve d link).waiting = (g.resolve d link).waiting := by
  cases link with
  | entry m =>
    change (pointAll _ _ d).waiting = (pointAll _ _ d).waiting
    rw [waiting_pointAll, waiting_pointAll, hw]
  | _ => simpa [resolve] using hw

/-- Resolving the same links changes an instruction in the same way. -/
lemma instruction?_resolveLinks_congr (hi : g'.code.instruction? h = g.code.instruction? h)
    (hw : g'.waiting = g.waiting) (links : List Link) :
    (g'.resolveLinks d links).code.instruction? h = (g.resolveLinks d links).code.instruction? h := by
  induction links generalizing g g' with
  | nil => exact hi
  | cons link links ih =>
    apply ih
    · rw [instruction?_resolve, instruction?_resolve, hi]
      simp only [aim_congr hi hw]
    · exact waiting_resolve_congr hw link

variable {b : Generator} {f? : Option String} {log : List (Handle × String)} {X : Handle → Prop} {new : List Handle}

/-- What resolving makes of an instruction depends only on the links that have it as their source, and for a call on
whether it waits for a method whose entry is pending. -/
lemma instruction?_resolveAll_congr (hs : Sound b f? log X new g) (ht : g'.LinksTyped g'.pending)
    (hm : h ∈ g.code.live) (hi : g'.code.instruction? h = g.code.instruction? h)
    (hp : ∀ l, l.source? = some h → (l ∈ g'.pending ↔ l ∈ g.pending)) (hw : g.code.role? h = some .call →
      ((∃ m, .entry m ∈ g'.pending ∧ h ∈ g'.waitingOf m) ↔ ∃ m, .entry m ∈ g.pending ∧ h ∈ g.waitingOf m)) :
    (g'.resolveAll d).code.instruction? h = (g.resolveAll d).code.instruction? h := by
  obtain ⟨i, hgi⟩ := hs.laid.instruction?_isSome hm
  have hgi' : g'.code.instruction? h = some i := hi.trans hgi
  have hprotect' : i.opcode.role = .protect → (∀ l ∈ g'.pending, l.source? ≠ some h) ∨ ∃ e f, i.target = .handlers e f :=
    fun hr => (hs.protect_or_free hgi hr).imp (fun hno l hl hsrc => hno l ((hp l hsrc).1 hl) hsrc) id
  rw [instruction?_resolveAll ht hgi' hprotect', hs.instruction?_resolveAll hgi, aimedBy, aimedBy]
  cases hr : i.opcode.role with
  | call =>
    have hiff := hw (by rw [role?_eq hgi, hr])
    rw [← calledBy_iff, ← calledBy_iff, ← Bool.eq_iff_iff] at hiff
    simp only [hiff]
  | _ => simp only [hp (.jump h) rfl, hp (.handler h) rfl, hp (.finalizer h) rfl]

end Resolve

namespace Ahead

variable {a b g g' : Generator} {new more : List Handle} {s : Handle}

lemma refl (g : Generator) : Ahead g [] g where
  live := by simp
  fresh := by simp
  grown := Nat.le_refl _
  shape := fun _ _ => rfl
  frame := rfl
  code := fun _ _ _ => rfl
  links := fun _ _ _ => .rfl
  waits := fun _ _ _ _ => .rfl
  sources := fun h => absurd rfl h
  entries := fun _ _ _ => rfl

section

variable (ha : Ahead b new g) {h : Handle}
include ha

/-- A change that leaves the code, the links, the entries and the waiting calls as they are. -/
lemma still (hc : g'.code = g.code) (hp : g'.pending = g.pending) (he : g'.entries = g.entries)
    (hw : g'.waiting = g.waiting) (hf : g'.frame = g.frame) : Ahead b new g' where
  live := by rw [hc, ha.live]
  fresh := ha.fresh
  grown := by rw [hc]; exact ha.grown
  shape := by rw [hc]; exact ha.shape
  frame := hf.trans ha.frame
  code := by rw [hc]; exact ha.code
  links := by rw [hp]; exact ha.links
  waits := by rw [waitingOf_congr hw]; exact ha.waits
  sources := by rw [hp]; exact ha.sources
  entries := by rw [he]; exact ha.entries

/-- No entry is pending once code stands behind `b`. -/
lemma entry_not_mem (hne : new ≠ []) (m : String) : .entry m ∉ g.pending := by
  intro hm
  obtain ⟨s, -, hsrc⟩ := ha.sources hne _ hm
  cases hsrc

lemma owned_of_ne_nil (hne : new ≠ []) : g.Owned := fun m hm =>
  absurd hm (ha.entry_not_mem hne m)

lemma role? (hl : b.code.Laid) (hm : h ∈ b.code.live) : g.code.role? h = b.code.role? h :=
  role?_congr (ha.shape h (hl.lt_next hm))

lemma not_mem_new (hl : b.code.Laid) (hm : h ∈ b.code.live) : h ∉ new := by
  intro hn
  exact Nat.lt_irrefl h (Nat.lt_of_lt_of_le (hl.lt_next hm) (ha.fresh h hn))

end

/-- Once code stands behind `b`, later code leaves that of `b` alone. -/
lemma code_of_ne_nil (ha : Ahead a new b) (hb : Ahead b more g) (hl : a.code.Laid) (hlb : b.code.Laid)
    (hne : new ≠ []) {h : Handle} (hm : h ∈ a.code.live) : g.code.instruction? h = b.code.instruction? h := by
  have hmb : h ∈ b.code.live := by rw [ha.live]; exact mem_append_left _ hm
  rw [hb.code h hmb (.inr (ha.owned_of_ne_nil hne)), toward]
  cases more.head? with
  | none => rfl
  | some d =>
    obtain ⟨i, hi⟩ := hlb.instruction?_isSome hmb
    refine (instruction?_resolveLinks_other (g := { b with pending := [] }) hi ?_ ?_).trans hi.symm
    · intro l hl' hsrc
      obtain ⟨s, hs, hsrc'⟩ := ha.sources hne l hl'
      rw [hsrc, some.injEq] at hsrc'
      exact ha.not_mem_new hl hm (hsrc' ▸ hs)
    · exact fun m hmem => absurd hmem (ha.entry_not_mem hne m)

/-- As long as nothing stands behind `a`, the open method still owns every pending entry. -/
lemma owned (ha : Ahead a [] b) (ho : a.Owned) : b.Owned := by
  intro m hm
  rw [currentMethod?, ha.frame]
  exact ho m ((ha.links (.entry m) rfl (.inr ho)).1 hm)

section

variable (ha : Ahead a new b) (hb : Ahead b more g)
include ha hb

/-- Code behind code: what is left to show is what the code of `a` looks like. -/
lemma glue (hcode : ∀ h ∈ a.code.live, a.code.role? h ≠ some .call ∨ a.Owned →
      g.code.instruction? h = (a.toward (new ++ more)).code.instruction? h) : Ahead a (new ++ more) g where
  live := by rw [hb.live, ha.live, append_assoc]
  fresh := by
    intro h hm
    rcases mem_append.1 hm with hm | hm
    · exact ha.fresh h hm
    · exact Nat.le_trans ha.grown (hb.fresh h hm)
  grown := Nat.le_trans ha.grown hb.grown
  shape := by
    intro h hlt
    rw [hb.shape h (Nat.lt_of_lt_of_le hlt ha.grown), ha.shape h hlt]
  frame := hb.frame.trans ha.frame
  code := hcode
  links := by
    intro l hnil hl
    obtain ⟨rfl, rfl⟩ := append_eq_nil_iff.1 hnil
    rw [hb.links l rfl (hl.imp id ha.owned), ha.links l rfl hl]
  waits := by
    intro ho m h hm
    have hmb : h ∈ b.code.live := by rw [ha.live]; exact mem_append_left _ hm
    by_cases hne : new = []
    · subst hne
      have hiff := ha.links (.entry m) rfl (.inr ho)
      have hwaits := ha.waits ho m h hm
      rw [hb.waits (ha.owned ho) m h hmb, nil_append]
      cases more with
      | nil => exact hwaits
      | cons d more =>
        by_cases hmem : .entry m ∈ a.pending
        · rw [waitingOf_toward_of_mem (hiff.2 hmem), waitingOf_toward_of_mem hmem]
        · rwa [waitingOf_toward_of_not_mem (fun h => hmem (hiff.1 h)), waitingOf_toward_of_not_mem hmem]
    · rw [hb.waits (ha.owned_of_ne_nil hne) m h hmb, waitingOf_toward_of_not_mem (ha.entry_not_mem hne m),
        toward_append a hne]
      exact ha.waits ho m h hm
  sources := by
    intro hne l hl
    by_cases hmore : more = []
    · subst hmore
      rw [append_nil] at hne ⊢
      exact ha.sources hne l ((hb.links l rfl (.inr (ha.owned_of_ne_nil hne))).1 hl)
    · obtain ⟨s, hs, hsrc⟩ := hb.sources hmore l hl
      exact ⟨s, mem_append_right _ hs, hsrc⟩
  entries := by
    intro ho m hm
    by_cases hne : new = []
    · subst hne
      have hiff := ha.links (.entry m) rfl (.inr ho)
      rw [nil_append] at hm ⊢
      rw [hb.entries (ha.owned ho) m fun hnil => by rw [hiff]; exact hm hnil]
      by_cases hmem : .entry m ∈ a.pending
      · obtain ⟨d, more, rfl⟩ := exists_cons_of_ne_nil fun hnil => hm hnil hmem
        rw [entries_toward_of_mem (hiff.2 hmem), entries_toward_of_mem hmem]
      · rw [entries_toward_of_not_mem (fun h => hmem (hiff.1 h)), entries_toward_of_not_mem hmem]
        exact ha.entries ho m fun _ => hmem
    · have hnot := ha.entry_not_mem hne m
      rw [hb.entries (ha.owned_of_ne_nil hne) m fun _ => hnot, entries_toward_of_not_mem hnot, toward_append a hne]
      exact ha.entries ho m fun hnil => absurd hnil hne

/-- Code behind some code of `a`: every link of `a` has been resolved. -/
lemma onto (hl : a.code.Laid) (hlb : b.code.Laid) (hne : new ≠ []) : Ahead a (new ++ more) g := by
  refine ha.glue hb fun h hm hc => ?_
  rw [ha.code_of_ne_nil hb hl hlb hne hm, ha.code h hm hc, toward_append a hne]

lemma trans {c : Generator} {f? : Option String} {log log' : List (Handle × String)} {X Y : Handle → Prop}
    {old old' : List Handle} (hs : Sound c f? log X old a)
    (hs' : Sound c f? log' Y old' b) : Ahead a (new ++ more) g := by
  by_cases hne : new = []
  · subst hne
    refine ha.glue hb fun h hm hc => ?_
    have hmb : h ∈ b.code.live := by rw [ha.live]; exact mem_append_left _ hm
    have hcb : b.code.role? h ≠ some .call ∨ b.Owned := by
      rw [ha.role? hs.laid hm]
      exact hc.imp id ha.owned
    have hi : b.code.instruction? h = a.code.instruction? h := ha.code h hm hc
    rw [hb.code h hmb hcb, nil_append]
    cases more with
    | nil => exact hi
    | cons d more =>
      rw [toward_cons, toward_cons]
      refine instruction?_resolveAll_congr hs hs'.linksTyped hm hi (fun l hl => ha.links l rfl (.inl (by simp [hl])))
        fun hr => ?_
      have ho := hc.resolve_left (absurd hr)
      constructor
      · rintro ⟨m, hmem, hw⟩
        exact ⟨m, (ha.links _ rfl (.inr ho)).1 hmem, (ha.waits ho m h hm).1 hw⟩
      · rintro ⟨m, hmem, hw⟩
        exact ⟨m, (ha.links _ rfl (.inr ho)).2 hmem, (ha.waits ho m h hm).2 hw⟩
  · exact ha.onto hb hs.laid hs'.laid hne

end

/-! ### Emitting -/

/-- An instruction resolves every link of the generator that it is appended to. -/
lemma append (hl : g.code.Laid) (i : Instruction) : Ahead g [g.code.nextHandle] (g.append i) where
  live := live_append g i
  fresh := by
    intro h hm
    exact Nat.le_of_eq (mem_singleton.1 hm).symm
  grown := by
    rw [nextHandle_append]
    exact Nat.le_succ _
  shape := fun h hlt => shape?_append_of_lt hlt
  frame := frame_append g i
  code := by
    intro h hm _
    rw [append_eq, toward_cons, resolveAll_eq]
    apply instruction?_resolveLinks_congr
    · change (g.code.insert i).instruction? h = g.code.instruction? h
      rw [instruction?_insert, if_neg (Nat.ne_of_lt (hl.lt_next hm))]
    · rfl
  links := nofun
  waits := by
    intro _ m h _
    rw [waitingOf_append, toward_cons, resolveAll_eq, waitingOf_resolveLinks]
    rfl
  sources := by simp
  entries := by
    intro _ m _
    rw [entries_append, toward_cons, resolveAll_eq, entries_resolveLinks]

/-- A promise to the next instruction, made by new code. -/
lemma defer (ha : Ahead b new g) {l : Link} (hs : s ∈ new) (hl : l.source? = some s) : Ahead b new (g.defer l) where
  live := ha.live
  fresh := ha.fresh
  grown := ha.grown
  shape := ha.shape
  frame := ha.frame
  code := ha.code
  links := fun _ hnil => by rw [hnil] at hs; cases hs
  waits := ha.waits
  sources := by
    intro hne l' hl'
    rcases mem_append.1 hl' with hl' | hl'
    · exact ha.sources hne l' hl'
    · rw [mem_singleton.1 hl']
      exact ⟨s, hs, hl⟩
  entries := ha.entries

lemma linkNext (ha : Ahead b new g) (hs : s ∈ new) : Ahead b new (g.linkNext s) := ha.defer hs rfl

/-- A new call waits for its method. -/
lemma await (ha : Ahead b new g) (hl : b.code.Laid) (hs : s ∈ new) (name : String) : Ahead b new (g.await name s) where
  live := ha.live
  fresh := ha.fresh
  grown := ha.grown
  shape := ha.shape
  frame := ha.frame
  code := ha.code
  links := ha.links
  waits := by
    intro ho m h hm
    rw [← ha.waits ho m h hm]
    simp only [waitingOf, Generator.await, get?_insert]
    split
    · next he =>
      subst he
      have hne : h ≠ s := by
        rintro rfl
        exact ha.not_mem_new hl hm hs
      simp [hne]
    · rfl
  sources := ha.sources
  entries := ha.entries

lemma emitCall (hl : g.code.Laid) (name : String) : Ahead g [g.code.nextHandle] (g.emitCall name) := by
  unfold Generator.emitCall
  split
  · exact append hl _
  · dsimp only
    split
    · exact (append hl _).await hl (by simp [next]) name
    · exact append hl _

lemma laid_emitSnippet (hl : g.code.Laid) (s : Snippet) : (g.emitSnippet s).code.Laid := by
  induction s generalizing g with
  | nil => exact hl
  | op o | data o operand => exact laid_append _ _ hl
  | seq first second ih1 ih2 => exact ih2 (ih1 hl)
  | skip test body ih => exact ih (laid_append _ _ hl)
  | loop body test again ih1 ih2 =>
    apply laid_append
    apply ih2
    exact ih1 (laid_append _ _ hl)

lemma emitSnippet_of_length {s : Snippet} (hs : s.length = 0) (g : Generator) : g.emitSnippet s = g := by
  induction s generalizing g with
  | nil => rfl
  | seq first second ih1 ih2 =>
    obtain ⟨h1, h2⟩ := Nat.add_eq_zero_iff.1 hs
    rw [emitSnippet, ih1 h1, ih2 h2]
  | _ => simp [Snippet.length] at hs

/-- A snippet resolves every link of the generator to its first instruction. -/
lemma emitSnippet (hl : g.code.Laid) (s : Snippet) : Ahead g (range' g.code.nextHandle s.length) (g.emitSnippet s) := by
  induction s generalizing g with
  | nil => exact refl g
  | op o | data o operand => exact append hl _
  | seq first second ih1 ih2 =>
    have h2 := ih2 (laid_emitSnippet hl first)
    rw [(emitSnippet_grows g first).1] at h2
    rw [Snippet.length, ← range'_append_1]
    by_cases hnil : first.length = 0
    · rw [emitSnippet_of_length hnil, hnil] at h2
      rwa [emitSnippet, emitSnippet_of_length hnil, hnil]
    · refine (ih1 hl).onto h2 hl (laid_emitSnippet hl first) fun hempty => hnil ?_
      simpa using hempty
  | skip test body ih =>
    have hl1 : (g.emitJump test).code.Laid := laid_append _ _ hl
    have hbody := ih hl1
    rw [show (g.emitJump test).code.nextHandle = g.code.nextHandle + 1 from nextHandle_append _ _] at hbody
    have h := (append hl _).onto hbody hl hl1 (by simp)
    rw [singleton_append, ← range'_succ] at h
    exact h.linkNext (by simp [next])
  | loop body test again ih1 ih2 =>
    have hl1 : (g.emitJump .always).code.Laid := laid_append _ _ hl
    have hl2 := laid_emitSnippet hl1 body
    have hn1 : (g.emitJump .always).code.nextHandle = g.code.nextHandle + 1 := nextHandle_append _ _
    have hbody := ih1 hl1
    have hn2 := (emitSnippet_grows (g.emitJump .always) body).1
    rw [hn1] at hbody hn2
    have h1 := (append hl _).onto hbody hl hl1 (by simp)
    rw [singleton_append, ← range'_succ] at h1
    have htest := ih2 (g := ((g.emitJump .always).emitSnippet body).linkNext g.next) hl2
    have hl3 := laid_emitSnippet (g := ((g.emitJump .always).emitSnippet body).linkNext g.next) hl2 test
    have h2 := (h1.linkNext (s := g.next) (by simp [next])).onto htest hl hl2 (by simp)
    have hn3 := (emitSnippet_grows (((g.emitJump .always).emitSnippet body).linkNext g.next) test).1
    change _ = ((g.emitJump .always).emitSnippet body).code.nextHandle + test.length at hn3
    change Ahead g (_ ++ range' ((g.emitJump .always).emitSnippet body).code.nextHandle _) _ at h2
    rw [hn2] at h2 hn3
    rw [show g.code.nextHandle + 1 + body.length = g.code.nextHandle + (body.length + 1) by grind] at h2 hn3
    rw [range'_append_1] at h2
    have h3 := h2.onto (append hl3 ⟨.jump again false, [], .code (g.emitJump .always).next⟩) hl hl3 (by simp)
    rw [hn3, show g.code.nextHandle + (body.length + 1) + test.length =
      g.code.nextHandle + (body.length + 1 + test.length) by grind, ← range'_1_concat] at h3
    rwa [Snippet.length, show body.length + test.length + 2 = body.length + 1 + test.length + 1 by omega]

end Ahead

/-! ### Taking back what was just pushed -/

/-- `g'` is `g` without its last instruction `r`, to which nothing referred. -/
structure Shortened (pre : List Handle) (r : Handle) (g g' : Generator) : Prop where
  context : g'.context = g.context
  live : g'.code.live = pre
  next : g'.code.nextHandle = g.code.nextHandle
  same : ∀ h, g'.code.instruction? h = g.code.instruction? h
  waitingOf : g'.waitingOf = g.waitingOf
  pending : g'.pending = g.reopened (emptied [r])
  entries : ∀ m, g'.entries.get? m = if g.entries.get? m = some r then none else g.entries.get? m

lemma detachable?_eq_some {g : Generator} {r : Handle} (hl : g.code.Laid) (h : g.detachable? = some r) :
    g.pending = [] ∧ ∀ x ∈ g.code.live, ∀ i, g.code.instruction? x = some i → r ∉ i.refs := by
  obtain ⟨-, hfree⟩ := Option.filter_eq_some_iff.1 h
  rw [Bool.and_eq_true, List.isEmpty_iff, List.all_eq_true] at hfree
  refine ⟨hfree.1, fun x hx i hi hm => ?_⟩
  have hrole := role_of_mem_refs hm
  have hx := hfree.2 x ((mem_linked hl).2 ⟨hx, i, hi, hrole⟩)
  rw [CodeMap.target?, hi, Option.bind_some] at hx
  simp only [Bool.not_eq_true', contains_eq_mem, decide_eq_false_iff_not] at hx
  exact hx hm

lemma relink_shortened {g g1 : Generator} {pre : List Handle} {r : Handle} (hlaid : g1.code.Laid)
    (hlive : g1.code.live = pre) (harena : g1.code.arena = g.code.arena) (hp : g1.pending = [])
    (he : g1.entries = g.entries) (hw : g1.waiting = g.waiting) (hctx : g1.context = g.context)
    (hfree : ∀ x ∈ pre, ∀ i, g.code.instruction? x = some i → r ∉ i.refs) (hr : ∀ m, r ∉ g.waitingOf m) :
    Shortened pre r g (g1.relink (emptied [r])) := by
  have hinst : g1.code.instruction? = g.code.instruction? := by
    funext x
    rw [instruction?, instruction?, harena]
  have hrel := @relink_relinked g1 (emptied [r]) hlaid
  have hlinked : ∀ x ∈ g1.code.linked, ∃ i, g1.code.instruction? x = some i ∧
      ∀ d ∈ i.refs, (emptied [r]).removed.contains d = false := by
    intro x hx
    obtain ⟨hm, i, hi, -⟩ := (mem_linked hlaid).1 hx
    refine ⟨i, hi, fun d hd => ?_⟩
    rw [← Bool.not_eq_true, contains_emptied, mem_singleton]
    rintro rfl
    exact hfree x (hlive ▸ hm) i (hinst ▸ hi) hd
  refine ⟨hrel.context.trans hctx, hrel.live.trans hlive, ?_, fun h => ?_, ?_, ?_, fun m => ?_⟩
  · rw [hrel.next]
    exact congrArg Array.size harena
  · rw [← hinst]
    by_cases hx : h ∈ g1.code.linked
    · obtain ⟨i, hi, hrefs⟩ := hlinked h hx
      rw [hrel.mem h hx i hi, (new_of_kept hrefs).1, hi]
    · exact hrel.other h hx
  · funext m
    have hcut : (g1.cut (emptied [r])).waitingOf m = g.waitingOf m := by
      change ((g1.waiting.map fun calls => calls.filter fun h => !(emptied [r]).removed.contains h).get? m).getD [] = _
      rw [hw, get?_map]
      cases hm : g.waiting.get? m with
      | none => simp [waitingOf, hm]
      | some calls =>
        have hcalls : g.waitingOf m = calls := by rw [waitingOf, hm]; rfl
        rw [map_some, getD_some, hcalls]
        refine List.filter_eq_self.2 fun h hh => ?_
        rw [Bool.not_eq_true', ← Bool.not_eq_true, contains_emptied, mem_singleton]
        rintro rfl
        exact hr m (hcalls ▸ hh)
    rw [hrel.waitingOf m, hcut, filter_eq_nil_iff.2, append_nil]
    intro x hx
    obtain ⟨i, hi, hrefs⟩ := hlinked x hx
    have hi' : (g1.cut (emptied [r])).code.instruction? x = some i := hi
    simp [waitsAgain, hi', orphanOf_of_kept hrefs]
  · have hlinks : g1.code.linked.flatMap
        ((g1.cut (emptied [r])).linksFrom (emptied [r]) ((emptied [r]).orphans g1)) = [] := by
      refine flatMap_eq_nil_iff.2 fun x hx => ?_
      obtain ⟨i, hi, hrefs⟩ := hlinked x hx
      have hi' : (g1.cut (emptied [r])).code.instruction? x = some i := hi
      rw [linksFrom, hi', map_some, getD_some, (new_of_kept hrefs).2]
    have horphans : (emptied [r]).orphans g1 = (emptied [r]).orphans g := by
      simp only [Gap.orphans, Gap.newEntry, he]
    have hreopened : g1.reopened (emptied [r]) = g.reopened (emptied [r]) := by
      rw [reopened, reopened, frame_of_context hctx, horphans]
    rw [hrel.pending, hlinks, append_nil, ← hreopened]
    change g1.pending.filter _ ++ g1.reopened (emptied [r]) = _
    rw [hp, filter_nil, nil_append]
  · rw [hrel.entries]
    change (g1.entries.filterMap fun _ h => if (emptied [r]).removed.contains h then none else some h).get? m = _
    rw [he, get?_filterMap]
    cases g.entries.get? m with
    | none => rfl
    | some d => simp only [bind_some, contains_emptied, mem_singleton, some.injEq]

lemma removeInstruction_shortened {g : Generator} {pre : List Handle} {r : Handle} (hl : g.code.Laid)
    (hlive : g.code.live = pre ++ [r]) (hd : g.detachable? = some r) (hw : ∀ m, r ∉ g.waitingOf m) :
    Shortened pre r g (g.removeInstruction r) := by
  obtain ⟨hp, hfree⟩ := detachable?_eq_some hl hd
  obtain ⟨e, heq⟩ := removeInstruction_eq hl hlive
  have hsub : ∀ x ∈ pre, x ∈ g.code.live := fun x hx => by rw [hlive]; exact mem_append_left _ hx
  have hnd : (pre ++ [r]).Nodup := hlive ▸ hl.nodup
  rw [heq, append_nil]
  refine relink_shortened ?_ rfl rfl hp rfl rfl rfl (fun x hx => hfree x (hsub x hx)) hw
  exact laid_layOut (nodup_append.1 hnd).1 fun h hm => hl.bound h (hsub h hm)

/-- If nothing refers to the destination of resolved links, then there were no links but those to entries, and no
call waited for such an entry. -/
lemma resolveAll_free {b : Generator} {f? : Option String} {log : List (Handle × String)} {X : Handle → Prop}
    {new : List Handle} {g : Generator} (hs : Sound b f? log X new g) {r h : Handle} (hm : h ∈ g.code.live)
    (hfree : ∀ i, (g.resolveAll r).code.instruction? h = some i → r ∉ i.refs) :
    (∀ l ∈ g.pending, l.source? ≠ some h) ∧ ∀ m, .entry m ∈ g.pending → h ∉ g.waitingOf m := by
  obtain ⟨i, hi⟩ := hs.laid.instruction?_isSome hm
  have hrole := role?_eq hi
  have hfree := hfree _ (hs.instruction?_resolveAll hi)
  constructor
  · intro l hmem hsrc
    obtain ⟨hnew, hlink⟩ := hs.source hmem hsrc
    have hr : i.opcode.role = l.role := some.inj (hrole.symm.trans hlink)
    cases l with
    | entry m => cases hsrc
    | jump s =>
      obtain rfl := some.inj hsrc
      rw [refs_eq (by simp [hr, role])] at hfree
      simp [aimedBy, hr, role, hmem, Target.handles] at hfree
    | handler s | finalizer s =>
      obtain rfl := some.inj hsrc
      obtain ⟨e, f, hh, -⟩ := hs.protect s hnew i hi hr
      rw [refs_eq (by simp [hr, role])] at hfree
      simp [aimedBy, hr, role, hh, hmem, Target.handles] at hfree
  · intro m hmem hw
    have hr : i.opcode.role = .call := some.inj (hrole.symm.trans (hs.linksTyped.waiting m h hw))
    rw [refs_eq (by simp [hr])] at hfree
    simp [aimedBy, hr, calledBy_iff.2 ⟨m, hmem, hw⟩, Target.handles] at hfree

section Detach

variable {c b g : Generator} {f? : Option String} {log log' : List (Handle × String)} {X Y : Handle → Prop}
  {old old' new : List Handle} {r : Handle}

/-- The last of several new instructions is no method's entry. -/
lemma Ahead.entry_ne_last (ha : Ahead b (new ++ [r]) g) (hs : Sound c f? log X old g)
    (hb : c.code.nextHandle ≤ b.code.nextHandle) (hne : new ≠ []) (m : String) : g.entries.get? m ≠ some r := by
  intro he
  have hlive : c.code.live ++ old = b.code.live ++ (new ++ [r]) := hs.live.symm.trans ha.live
  have hmem : ∀ x ∈ new ++ [r], x ∈ old := by
    intro x hx
    refine hs.mem_new ?_ (Nat.le_trans hb (ha.fresh x hx))
    rw [ha.live]
    exact mem_append_right _ hx
  have hnd : (new ++ [r]).Nodup := (nodup_append.1 (ha.live ▸ hs.laid.nodup)).2.1
  rcases hs.entries m r he with hold | hhead
  · exact hs.not_mem_new hold (hmem r (by simp))
  · -- `r` would be the first and the last of the method's code
    obtain ⟨rest, rfl⟩ : ∃ rest, old = r :: rest := by
      cases old with
      | nil => cases hhead
      | cons x rest =>
        rw [head?_cons, some.injEq] at hhead
        exact ⟨rest, by rw [hhead]⟩
    have hlast : (c.code.live ++ r :: rest).getLast? = some r := by
      rw [hlive, ← append_assoc, getLast?_concat]
    obtain ⟨x, new, rfl⟩ := exists_cons_of_ne_nil hne
    have hxr : x ≠ r := by
      rintro rfl
      simp at hnd
    have hxrest : x ∈ rest := (mem_cons.1 (hmem x (by simp))).resolve_left hxr
    have hrest : rest ≠ [] := ne_nil_of_mem hxrest
    have hrr : r ∈ rest := by
      rw [getLast?_append, getLast?_cons_of_ne_nil hrest] at hlast
      refine mem_of_getLast? (l := rest) ?_
      rw [getLast?_eq_getLast_of_ne_nil hrest] at hlast ⊢
      exact hlast
    have hnd' := (nodup_append.1 (hs.live ▸ hs.laid.nodup)).2.1
    exact (nodup_cons.1 hnd').1 hrr

/-- No method starts behind `b` yet. -/
lemma Ahead.entry_not_new (ha : Ahead b new g) (hb : Sound c f? log Y old' b) {m : String} {x : Handle}
    (he : b.entries.get? m = some x) : x ∉ new := by
  intro hx
  have hlt : x < b.code.nextHandle := by
    rcases hb.entries m x he with hold | hhead
    · exact Nat.lt_of_lt_of_le (hb.old hold) hb.grown
    · exact hb.bound (mem_of_mem_head? hhead)
  exact Nat.lt_irrefl x (Nat.lt_of_lt_of_le hlt (ha.fresh x hx))

section

variable (ha : Ahead b (r :: new) g) (ho : b.Owned) (hb : Sound c f? log Y old' b) {m : String} {x : Handle}
include ha ho hb

/-- The methods that start in the code behind `b` are those whose entries were pending. -/
lemma Ahead.entry_iff (hx : x ∈ r :: new) : g.entries.get? m = some x ↔ x = r ∧ .entry m ∈ b.pending := by
  rw [ha.entries ho m nofun]
  by_cases hm : .entry m ∈ b.pending
  · rw [entries_toward_of_mem hm, some.injEq, and_iff_left hm]
    exact eq_comm
  · rw [entries_toward_of_not_mem hm]
    exact iff_of_false (fun he => ha.entry_not_new hb he hx) fun h => hm h.2

/-- The removal of all code behind `b` takes the entries away that were pending there. -/
lemma Ahead.orphan_iff : ((emptied (r :: new)).orphans g).get? x = some m ↔ x = r ∧ .entry m ∈ b.pending := by
  constructor
  · intro hx
    obtain ⟨he, hmem⟩ := orphans_emptied_eq_some hx
    exact (ha.entry_iff ho hb hmem).1 he
  · rintro ⟨rfl, hm⟩
    have hx : x ∈ x :: new := mem_cons_self
    have he := (ha.entry_iff ho hb hx).2 ⟨rfl, hm⟩
    obtain ⟨m', hm'⟩ := isSome_iff_exists.1 (orphans_emptied_isSome he hx)
    -- of the methods that start here only one can be the open one
    obtain ⟨he', hx'⟩ := orphans_emptied_eq_some hm'
    have hsame := ho m' ((ha.entry_iff ho hb hx').1 he').2
    rw [ho m hm, some.injEq] at hsame
    rwa [hsame]

/-- The removal of all code behind `b` asks for the entries again that were pending there. -/
lemma Ahead.mem_reopened (m : String) : .entry m ∈ g.reopened (emptied (r :: new)) ↔ .entry m ∈ b.pending := by
  have horphan : .entry m ∈ b.pending ↔
      g.currentMethod? = some m ∧ ((emptied (r :: new)).orphans g).get? r = some m := by
    rw [ha.orphan_iff ho hb, currentMethod?, ha.frame]
    constructor
    · exact fun hm => ⟨ho m hm, rfl, hm⟩
    · exact fun h => h.2.2
  rw [horphan, currentMethod?, reopened]
  cases g.frame with
  | none => simp
  | some frame =>
    by_cases hany : (((emptied (r :: new)).orphans g).entries.any fun e => e.2 == frame.name) = true
    · simp only [emptied, isNone_none, Bool.true_and] at hany ⊢
      rw [if_pos hany]
      obtain ⟨e, he, hname⟩ := any_eq_true.1 hany
      rw [beq_iff_eq] at hname
      have hget : ((emptied (r :: new)).orphans g).get? e.1 = some e.2 := get?_eq_some_iff.2 he
      rw [((ha.orphan_iff ho hb).1 hget).1] at hget
      rw [mem_singleton, entry.injEq, map_some, some.injEq]
      constructor
      · rintro rfl
        exact ⟨rfl, hname ▸ hget⟩
      · exact fun h => h.1.symm
    · simp only [emptied, isNone_none, Bool.true_and] at hany ⊢
      rw [if_neg hany]
      simp only [not_mem_nil, map_some, some.injEq, false_iff, not_and]
      rintro rfl hget
      exact hany (any_eq_true.2 ⟨_, get?_eq_some_iff.1 hget, by simp⟩)

end

lemma mem_reopened_source {g : Generator} {gap : Gap} {l : Link} (hl : l ∈ g.reopened gap) : l.source? = none := by
  unfold reopened at hl
  split at hl
  · split at hl
    · rw [mem_singleton.1 hl]
      rfl
    · cases hl
  · cases hl

lemma reopened_eq_nil {g : Generator} {r : Handle} (hr : ∀ m, g.entries.get? m ≠ some r) :
    g.reopened (emptied [r]) = [] := by
  unfold reopened
  split
  · next frame _ =>
    rw [if_neg]
    simp only [Bool.and_eq_true, List.any_eq_true, not_and, not_exists, beq_iff_eq]
    intro _ e he _
    obtain ⟨hentry, hmem⟩ := orphans_emptied_eq_some (get?_eq_some_iff.2 he)
    rw [mem_singleton.1 hmem] at hentry
    exact hr _ hentry
  · rfl

/-- **Taking back the last of the new instructions**, to which nothing refers. -/
lemma Ahead.detach (ha : Ahead b (new ++ [r]) g) (hs : Sound c f? log X old g) (hb : Sound c f? log' Y old' b)
    (hd : g.detachable? = some r) (hr : g.code.role? r = some .plain) : Ahead b new (g.removeInstruction r) := by
  have hlive : g.code.live = (b.code.live ++ new) ++ [r] := by rw [ha.live, append_assoc]
  have hwait : ∀ m, r ∉ g.waitingOf m := by
    intro m hm
    have := hs.linksTyped.waiting m r hm
    rw [hr] at this
    cases this
  obtain ⟨-, hfree⟩ := detachable?_eq_some hs.laid hd
  have hshort := removeInstruction_shortened hs.laid hlive hd hwait
  have hlast := ha.entry_ne_last hs hb.grown
  have hbr : ∀ m, b.entries.get? m ≠ some r := fun m he => ha.entry_not_new hb he (by simp)
  -- if `r` is the only new instruction, then nothing but entries was linked to it
  have hnil : new = [] → ∀ h ∈ b.code.live, b.code.role? h ≠ some .call ∨ b.Owned →
      (∀ l ∈ b.pending, l.source? ≠ some h) ∧ ∀ m, .entry m ∈ b.pending → h ∉ b.waitingOf m := by
    rintro rfl h hm hc
    refine resolveAll_free (r := r) hb hm fun i hi => ?_
    refine hfree h (by rw [ha.live]; exact mem_append_left _ hm) i ?_
    rwa [ha.code h hm hc]
  refine ⟨hshort.live, fun h hm => ha.fresh h (mem_append_left _ hm), ?_, fun h hlt => ?_, ?_,
    fun h hm hc => ?_, fun l hnew hl => ?_, fun ho m h hm => ?_, fun hne l hl => ?_, fun ho m hm => ?_⟩
  · rw [hshort.next]
    exact ha.grown
  · rw [← ha.shape h hlt, shape?, hshort.same, shape?]
  · exact (frame_of_context hshort.context).trans ha.frame
  · rw [hshort.same, ha.code h hm hc]
    by_cases hne : new = []
    · subst hne
      obtain ⟨hsrc, hw⟩ := hnil rfl h hm hc
      obtain ⟨i, hi⟩ := hb.laid.instruction?_isSome hm
      refine (instruction?_resolveLinks_other (g := { b with pending := [] }) hi hsrc hw).trans hi.symm
    · rw [toward_append b hne]
  · subst hnew
    rw [hshort.pending]
    cases l with
    | entry m => exact ha.mem_reopened (hl.resolve_left (by simp [source?])) hb m
    | jump s | handler s | finalizer s =>
      refine iff_of_false (fun hm => by simpa [source?] using mem_reopened_source hm) fun hm => ?_
      have hmem := hb.mem_live (hb.source_mem hm rfl)
      have hlink := (hb.links _ hm).2
      refine (hnil rfl s hmem (.inl ?_)).1 _ hm rfl
      rw [hlink]
      simp
  · rw [hshort.waitingOf, ha.waits ho m h hm]
    by_cases hne : new = []
    · subst hne
      by_cases hmem : .entry m ∈ b.pending
      · rw [nil_append, waitingOf_toward_of_mem hmem]
        exact iff_of_false (not_mem_nil) ((hnil rfl h hm (.inr ho)).2 m hmem)
      · rw [waitingOf_toward_of_not_mem hmem]
        rfl
    · rw [toward_append b hne]
  · rw [hshort.pending, reopened_eq_nil (hlast hne)] at hl
    cases hl
  · rw [hshort.entries, ha.entries ho m fun h => by simp at h]
    by_cases hne : new = []
    · subst hne
      rw [entries_toward_of_not_mem (hm rfl), if_neg (hbr m)]
      rfl
    · rw [toward_append b hne, ← toward_append b hne [r], ← ha.entries ho m fun h => by simp at h, if_neg (hlast hne m)]

end Detach

/-! ### Straight operations -/

/-- `g` came from `b` by emitting code. Either the last instruction of `b` was a constant and was taken away, or all of
`b` is there. -/
def Onward (b g : Generator) : Prop :=
  b.code.nextHandle ≤ g.code.nextHandle ∧
    ((∃ h, b.code.live.getLast? = some h ∧ b.code.constant? h = some true ∧ h ∉ g.code.live) ∨ ∃ new, Ahead b new g)

section Onward

variable {c b g g' : Generator} {f? : Option String} {log log' : List (Handle × String)} {X Y : Handle → Prop}
  {old old' : List Handle} {q : Opcode → Bool} {r : Handle}

lemma Onward.refl (g : Generator) : Onward g g := ⟨Nat.le_refl _, .inr ⟨[], .refl g⟩⟩

/-- Nothing was taken away from code that does not end with a constant. -/
lemma Onward.exists_ahead (ho : Onward b g) (hlast : ∀ h, b.code.live.getLast? = some h → b.code.constant? h ≠ some true) :
    ∃ new, Ahead b new g := ho.2.resolve_left fun ⟨h, hm, hc, _⟩ => hlast h hm hc

/-- Code behind what is there: what was taken away does not come back. -/
lemma Onward.ahead {more : List Handle} (ho : Onward b g) (hb : Sound c f? log' Y old' b)
    (hs : Sound c f? log X old g) (ha : Ahead g more g') : Onward b g' := by
  refine ⟨Nat.le_trans ho.1 ha.grown, ?_⟩
  rcases ho.2 with ⟨h, hm, hc, hlost⟩ | ⟨new, hnew⟩
  · refine .inl ⟨h, hm, hc, ?_⟩
    rw [ha.live, mem_append, not_or]
    refine ⟨hlost, fun hmore => ?_⟩
    have hlt := Nat.lt_of_lt_of_le (hb.laid.lt_next (mem_of_getLast? hm)) ho.1
    exact Nat.lt_irrefl h (Nat.lt_of_lt_of_le hlt (ha.fresh h hmore))
  · exact .inr ⟨_, hnew.trans ha hb hs⟩

/-- Taking back the constant that was just pushed. -/
lemma Sound.shortened (hs : Sound c f? log X old g)
    (hq : ∀ i : Instruction, q i.opcode = true → pushesConstant i = true) (hl : g.lastPush? q = some r) :
    ∃ pre, Shortened pre r g (g.removeInstruction r) ∧ g.code.live = pre ++ [r] ∧ g.code.role? r = some .plain := by
  have hback := (lastPush?_eq_some hl).1
  have hrole := role?_of_constant (constant?_lastPush hq hl)
  have hwait : ∀ m, r ∉ g.waitingOf m := by
    intro m hm
    have := hs.linksTyped.waiting m r hm
    rw [hrole] at this
    cases this
  rw [back?_eq] at hback
  have hlive := (dropLast_append_getLast? r hback).symm
  exact ⟨_, removeInstruction_shortened hs.laid hlive (filter_eq_some_iff.1 hl).1 hwait, hlive, hrole⟩

lemma Onward.detach (ho : Onward b g) (hb : Sound c f? log' Y old' b)
    (hs : Sound c f? log X old g) (hq : ∀ i : Instruction, q i.opcode = true → pushesConstant i = true)
    (hl : g.lastPush? q = some r) : Onward b (g.removeInstruction r) := by
  obtain ⟨pre, hshort, hlive, hrole⟩ := hs.shortened hq hl
  have hd : g.detachable? = some r := (filter_eq_some_iff.1 hl).1
  have hnd : (pre ++ [r]).Nodup := hlive ▸ hs.laid.nodup
  have hr : r ∉ pre := fun hm => (nodup_append.1 hnd).2.2 r hm r (by simp) rfl
  refine ⟨by rw [hshort.next]; exact ho.1, ?_⟩
  rw [hshort.live]
  rcases ho.2 with ⟨h, hm, hc, hlost⟩ | ⟨new, hnew⟩
  · exact .inl ⟨h, hm, hc, fun hp => hlost (by rw [hlive]; exact mem_append_left _ hp)⟩
  · rcases eq_nil_or_concat' new with rfl | ⟨new, x, rfl⟩
    · have hsame : b.code.live = pre ++ [r] := by rw [← hlive, hnew.live, append_nil]
      refine .inl ⟨r, by rw [hsame, getLast?_concat], ?_, hr⟩
      rw [constant?, ← hnew.shape r (hb.laid.lt_next (by rw [hsame]; simp))]
      exact constant?_lastPush hq hl
    · obtain rfl : x = r := by
        have hlast := hlive.symm.trans hnew.live
        rw [← append_assoc] at hlast
        exact (append_inj_right' hlast rfl |> singleton_inj.1).symm
      exact .inr ⟨new, hnew.detach hs hb hd hrole⟩

end Onward

end NeoScript.Generator
