import NeoScript.Proofs.Generator.Append

/-!
# Changing links without emitting

Most operations change no more than the targets of leaps and protected blocks of the new code, the pending links
and the open constructs. `Sound.rewire` says once what has to be shown of such a change. Promising a jump,
pointing jumps at an instruction and opening or closing a construct are instances of it.
-/

namespace NeoScript.Generator

open List Option CodeMap

/-- What the invariant speaks of: the generator without types, tokens and trace. -/
def core (g : Generator) : Generator := { g with stack := {}, scopes := [], tokens := [], trace := {} }

/-- A change that touches only leaps, protected blocks and pending links of the new code, and may take plain
instructions other than the first out of it. -/
structure Rewired (new new' : List Handle) (g g' : Generator) : Prop where
  laid : g'.code.Laid
  sub : ∀ x ∈ new', x ∈ new
  gone : ∀ x ∈ new, x ∉ new' → g.code.role? x = some .plain
  head : new'.head? = new.head?
  next : g'.code.nextHandle = g.code.nextHandle
  shape : g'.code.shape? = g.code.shape?
  same : ∀ x, (x ∈ new → g.code.role? x ≠ some .leap ∧ g.code.role? x ≠ some .protect) →
    g'.code.instruction? x = g.code.instruction? x
  entries : g'.entries = g.entries
  waitingOf : g'.waitingOf = g.waitingOf
  frame : g'.frame = g.frame
  entry : ∀ m, .entry m ∈ g'.pending ↔ .entry m ∈ g.pending

namespace Rewired

variable {new new' : List Handle} {g g' : Generator}

lemma role? (hr : Rewired new new' g g') : g'.code.role? = g.code.role? := role?_of_shape? hr.shape

lemma mem_of_call (hr : Rewired new new' g g') {x : Handle} (hm : x ∈ new) (hc : g.code.role? x = some .call) :
    x ∈ new' := by
  by_contra hn
  rw [hr.gone x hm hn] at hc
  cases hc

lemma nil_iff (hr : Rewired new new' g g') : new' = [] ↔ new = [] := by
  rw [← head?_eq_none_iff, ← head?_eq_none_iff, hr.head]

/-- A change that leaves the code as it is. -/
lemma of_code (hl : g.code.Laid) (hc : g'.code = g.code) (he : g'.entries = g.entries)
    (hw : g'.waiting = g.waiting) (hf : g'.frame = g.frame)
    (hp : ∀ m, .entry m ∈ g'.pending ↔ .entry m ∈ g.pending) : Rewired new new g g' where
  laid := by rw [hc]; exact hl
  sub := fun _ hx => hx
  gone := fun _ hx hn => absurd hx hn
  head := rfl
  next := by rw [hc]
  shape := by rw [hc]
  same := fun _ _ => by rw [hc]
  entries := he
  waitingOf := waitingOf_congr hw
  frame := hf
  entry := hp

end Rewired

namespace Sound

variable {b : Generator} {f? : Option String} {log : List (Handle × String)} {X Y : Handle → Prop}
  {new new' : List Handle} {g g' : Generator}

lemma named_rewire {f : String} (hn : Named b f log X new g) (hr : Rewired new new' g g')
    (hs : Sound b f? log X new g) (hlive : g'.code.live = b.code.live ++ new')
    (hX : ∀ x, X x → g.code.role? x = some .call → Y x) : Named b f log Y new' g' := by
  have hsub : ∀ x ∈ g'.code.live, x ∈ g.code.live := fun x hx => by
    rw [hlive, mem_append] at hx
    rw [hs.live, mem_append]
    exact hx.imp id (hr.sub x)
  have hinst : ∀ {h m i}, (h, m) ∈ log → g'.code.instruction? h = some i → g.code.instruction? h = some i :=
    fun {h m i} hm hi => by
      rwa [hr.same h fun _ => by simp [hn.calls h m hm]] at hi
  refine ⟨?_, ?_, ?_, ?_, ?_, ?_, hn.unique, ?_, ?_, ?_, ?_, ?_, ?_⟩
  · rw [hr.frame]
    exact hn.frame
  · exact fun m hm => hn.entry m ((hr.entry m).1 hm)
  · rw [hr.entries]
    exact hn.others
  · rw [hr.nil_iff, Ne, hr.nil_iff, hr.head, hr.entries, hr.entry]
    exact hn.opened
  · intro h hm hc
    rw [hr.role?] at hc
    exact hn.logged h (hsub h hm) hc
  · intro h m hm
    rw [hr.role?]
    exact hn.calls h m hm
  · intro h m i hm hl hi hu
    rw [hr.waitingOf]
    exact (hn.waits h m i hm (hsub h hl) (hinst hm hi) hu).imp id fun hx =>
      ⟨hr.mem_of_call hx.1 (hn.calls h m hm), hX h hx.2 (hn.calls h m hm)⟩
  · intro h m i d hm hl hi hd
    rw [hr.entries]
    exact hn.leads h m i d hm (hsub h hl) (hinst hm hi) hd
  · rw [hr.entries]
    exact hn.former
  · rw [hr.waitingOf]
    exact hn.waiting
  · rw [hr.waitingOf, hr.entries]
    exact hn.stuck
  · intro h m i hm hl hi
    exact hn.onward h m i hm (hsub h hl) (hinst hm hi)

section

variable (hs : Sound b f? log X new g)
include hs

/-- **What has to be shown of a change of links.** -/
lemma rewire (hr : Rewired new new' g g')
    (hlive : g'.code.live = b.code.live ++ new') (hX : ∀ x, X x → g.code.role? x = some .call → Y x)
    (hleap : ∀ h ∈ new', ∀ i, g'.code.instruction? h = some i → i.opcode.role = .leap →
      (∃ d ∈ new', new'.head? ≠ some d ∧ i.target = .code d) ∨
        i.target = .unresolved ∧ (.jump h ∈ g'.pending ∨ h ∈ g'.held ∨ Y h))
    (hprotect : ∀ h ∈ new', ∀ i, g'.code.instruction? h = some i → i.opcode.role = .protect →
      ∃ e f, i.target = .handlers e f ∧ ∀ d ∈ e.toList ++ f.toList, d ∈ new' ∧ new'.head? ≠ some d)
    (hlinks : ∀ l ∈ g'.pending, LinkSound new' g'.code l) (hjumps : ∀ h ∈ g'.held, h ∈ new' ∧ g'.code.role? h = some .leap)
    (hloops : ∀ l ∈ g'.loops, LoopSound new' g'.code l)
    (htries : ∀ t ∈ g'.tries, t.enter ∈ new' ∧ g'.code.role? t.enter = some .protect) : Sound b f? log Y new' g' := by
  have hsub : ∀ x ∈ g'.code.live, x ∈ g.code.live := fun x hx => by
    rw [hlive, mem_append] at hx
    rw [hs.live, mem_append]
    exact hx.imp id (hr.sub x)
  have hback : ∀ x, x ∈ g.code.live → g.code.role? x = some .call → x ∈ g'.code.live := fun x hx hc => by
    rw [hs.live, mem_append] at hx
    rw [hlive, mem_append]
    exact hx.imp id fun hm => hr.mem_of_call hm hc
  have hold : ∀ x ∈ b.code.live, g'.code.instruction? x = g.code.instruction? x := fun x hx =>
    hr.same x fun hm => absurd hm (hs.not_mem_new hx)
  have hcall : ∀ x, g.code.role? x = some .call → g'.code.instruction? x = g.code.instruction? x := fun x hx =>
    hr.same x fun _ => by simp [hx]
  refine {
    laid := hr.laid
    live := hlive
    base := hs.base
    closed := hs.closed
    starts := hs.starts
    ends := hs.ends
    fresh := fun h hm => hs.fresh h (hr.sub h hm)
    grown := by rw [hr.next]; exact hs.grown
    head := fun a ha h hm => hs.head a (hr.head ▸ ha) h (hr.sub h hm)
    kept := fun h hm i hi => by rw [hold h hm, hr.head]; exact hs.kept h hm i hi
    plain := fun h hm i hi hp => ?plain
    narrow := fun h hm e he => hs.narrow h (hr.sub h hm) e (hr.shape ▸ he)
    leap := hleap
    protect := hprotect
    call := fun h hm i hi hc => ?call
    entries := by rw [hr.entries, hr.head]; exact hs.entries
    waiting := fun m h hw => ?waiting
    once := by rw [hr.waitingOf]; exact hs.once
    links := hlinks
    jumps := hjumps
    loops := hloops
    tries := htries
    named := fun f hf => named_rewire (hs.named f hf) hr hs hlive hX }
  case plain =>
    have hrole : g.code.role? h = some .plain := by rw [← hr.role?, role?_eq hi, hp]
    rw [hr.same h fun _ => by simp [hrole]] at hi
    exact hs.plain h (hr.sub h hm) i hi hp
  case call =>
    have hrole : g.code.role? h = some .call := by rw [← hr.role?, role?_eq hi, hc]
    rw [hcall h hrole] at hi
    rw [hr.head, hr.entries, hr.waitingOf]
    exact (hs.call h (hsub h hm) i hi hc).imp id fun hu => ⟨hu.1, hu.2.imp id fun hx =>
      ⟨hr.mem_of_call hx.1 hrole, hX h hx.2 hrole⟩⟩
  case waiting =>
    rw [hr.waitingOf] at hw
    obtain ⟨hlive, i, hi, hc, hu⟩ := hs.waiting m h hw
    have hrole : g.code.role? h = some .call := by rw [role?_eq hi, hc]
    exact ⟨hback h hlive hrole, i, by rw [hcall h hrole]; exact hi, hc, hu⟩

/-- The same where the open constructs stay and links are only taken away. -/
lemma rewire_within (hr : Rewired new new' g g') (hctx : g'.context = g.context)
    (hlive : g'.code.live = b.code.live ++ new') (hX : ∀ x, X x → g.code.role? x = some .call → Y x)
    (hleap : ∀ h ∈ new', ∀ i, g'.code.instruction? h = some i → i.opcode.role = .leap →
      (∃ d ∈ new', new'.head? ≠ some d ∧ i.target = .code d) ∨
        i.target = .unresolved ∧ (.jump h ∈ g'.pending ∨ h ∈ g.held ∨ Y h))
    (hprotect : ∀ h ∈ new', ∀ i, g'.code.instruction? h = some i → i.opcode.role = .protect →
      ∃ e f, i.target = .handlers e f ∧ ∀ d ∈ e.toList ++ f.toList, d ∈ new' ∧ new'.head? ≠ some d)
    (hlinks : ∀ l ∈ g'.pending, l ∈ g.pending ∨ LinkSound new' g'.code l)
    (hkept : ∀ x ∈ new, g.code.constant? x = some false → x ∈ new') : Sound b f? log Y new' g' := by
  have hheld := held_of_context hctx
  have hstay : ∀ {x r}, x ∈ new ∧ g.code.role? x = some r → r ≠ .plain → x ∈ new' ∧ g'.code.role? x = some r :=
    fun {x r} hx hne => by
      refine ⟨by_contra fun hn => hne ?_, by rw [hr.role?]; exact hx.2⟩
      exact some.inj (hx.2.symm.trans (hr.gone x hx.1 hn))
  refine hs.rewire hr hlive hX (by rw [hheld]; exact hleap) hprotect (fun l hl => ?_) (fun h hh => ?_) (fun l hl => ?_)
    fun t ht => ?_
  · refine (hlinks l hl).elim (fun hl => ?_) id
    have hlink := hs.links l hl
    cases l with
    | entry m => exact hr.nil_iff.2 hlink
    | jump s | handler s | finalizer s => exact hstay hlink (by simp)
  · rw [hheld] at hh
    exact hstay (hs.jumps h hh) (by simp)
  · rw [loops_of_context hctx] at hl
    exact (hs.loops l hl).mono hkept (fun x _ => congrFun hr.shape x) fun x _ _ hx => hr.head ▸ hx
  · rw [tries_of_context hctx] at ht
    exact hstay (hs.tries t ht) (by simp)

/-! ### Open constructs -/

/-- Opening and closing constructs: every jump that was held is still held, or is linked by the operation. -/
lemma reopen (hc : g'.code = g.code) (hp : g'.pending = g.pending)
    (he : g'.entries = g.entries) (hw : g'.waiting = g.waiting) (hf : g'.frame = g.frame)
    (hheld : ∀ h, h ∈ g.held ∨ X h → h ∈ g'.held ∨ Y h) (hjumps : ∀ h ∈ g'.held, h ∈ new ∧ g.code.role? h = some .leap)
    (hloops : ∀ l ∈ g'.loops, LoopSound new g.code l)
    (htries : ∀ t ∈ g'.tries, t.enter ∈ new ∧ g.code.role? t.enter = some .protect) : Sound b f? log Y new g' := by
  have hr : Rewired new new g g' := .of_code hs.laid hc he hw hf fun m => by rw [hp]
  refine hs.rewire hr (by rw [hc]; exact hs.live) (fun x hx hcall => ?_) ?_ ?_ ?_ ?_ ?_ ?_
  · refine (hheld x (.inr hx)).resolve_left fun hm => ?_
    have := (hjumps x hm).2
    rw [hcall] at this
    cases this
  · intro h hm i hi hl
    rw [hc] at hi
    rw [hp]
    exact (hs.leap h hm i hi hl).imp id fun hu => ⟨hu.1, hu.2.imp id (hheld h)⟩
  · rw [hc]
    exact hs.protect
  · rw [hc, hp]
    exact hs.links
  · rwa [hc]
  · rwa [hc]
  · rwa [hc]

/-- Nothing that the invariant speaks of has changed. -/
lemma still (h : g'.core = g.core) : Sound b f? log X new g' := by
  have hb : g'.branches = g.branches := (congrArg branches h :)
  have hl : g'.loops = g.loops := (congrArg Generator.loops h :)
  have hg : g'.elseGuards = g.elseGuards := (congrArg elseGuards h :)
  have ht : g'.tries = g.tries := (congrArg Generator.tries h :)
  have hheld : g'.held = g.held := by rw [held, held, hb, hl, hg, ht]
  refine hs.reopen (congrArg Generator.code h :) (congrArg Generator.pending h :) (congrArg Generator.entries h :)
    (congrArg Generator.waiting h :) (congrArg Generator.frame h :) (fun h hh => ?_) ?_ ?_ ?_
  · rwa [hheld]
  · rw [hheld]
    exact hs.jumps
  · rw [hl]
    exact hs.loops
  · rw [ht]
    exact hs.tries

lemma mono (hX : ∀ h, X h → Y h) : Sound b f? log Y new g :=
  hs.reopen rfl rfl rfl rfl rfl (fun h hh => hh.imp id (hX h)) hs.jumps hs.loops hs.tries

/-! ### Promises -/

lemma defer {l : Link} (hl : LinkSound new g.code l) (hne : ∀ m, l ≠ .entry m)
    (hX : ∀ x, X x → l = .jump x ∨ Y x) : Sound b f? log Y new (g.defer l) := by
  have hr : Rewired new new g (g.defer l) := .of_code hs.laid rfl rfl rfl rfl fun m => by
    simp [Generator.defer, Ne.symm (hne m)]
  refine hs.rewire hr hs.live (fun x hx hcall => ?_) (fun h hm i hi hrole => ?_) hs.protect (fun l' hl' => ?_)
    hs.jumps hs.loops hs.tries
  · refine (hX x hx).resolve_left ?_
    rintro rfl
    have := hl.2
    rw [hcall] at this
    cases this
  · refine (hs.leap h hm i hi hrole).imp id fun hu => ⟨hu.1, ?_⟩
    have hpend : ∀ l', l' ∈ g.pending ∨ l' = l → l' ∈ (g.defer l).pending := fun l' => by
      simp [Generator.defer]
    rcases hu.2 with hp | hh | hx
    · exact .inl (hpend _ (.inl hp))
    · exact .inr (.inl hh)
    · rcases hX h hx with rfl | hx
      · exact .inl (hpend _ (.inr rfl))
      · exact .inr (.inr hx)
  · rcases mem_append.1 hl' with hl' | hl'
    · exact hs.links l' hl'
    · rwa [mem_singleton.1 hl']

lemma linkNext {h : Handle} (hm : h ∈ new) (hr : g.code.role? h = some .leap)
    (hX : ∀ x, X x → x = h ∨ Y x) : Sound b f? log Y new (g.linkNext h) :=
  hs.defer ⟨hm, hr⟩ (fun _ => Link.noConfusion) fun x hx => (hX x hx).imp (fun e => by rw [e]) id

end

lemma linkAll_eq (g : Generator) (ss : List Handle) : g.linkAll ss = { g with pending := g.pending ++ ss.map .jump } := by
  unfold Generator.linkAll
  induction ss generalizing g with
  | nil => simp
  | cons s ss ih =>
    rw [foldl_cons, ih]
    simp [Generator.linkNext, Generator.defer]

variable (hs : Sound b f? log X new g)
include hs

lemma linkAll (ss : List Handle)
    (hm : ∀ h ∈ ss, h ∈ new ∧ g.code.role? h = some .leap) (hX : ∀ x, X x → x ∈ ss ∨ Y x) :
    Sound b f? log Y new (g.linkAll ss) := by
  induction ss generalizing g X with
  | nil => exact hs.mono fun x hx => (hX x hx).resolve_left not_mem_nil
  | cons s ss ih =>
    have hstep : Sound b f? log (fun x => x ∈ ss ∨ Y x) new (g.linkNext s) :=
      hs.linkNext (hm s mem_cons_self).1 (hm s mem_cons_self).2 fun x hx => by
        rcases hX x hx with hx | hx
        · exact (mem_cons.1 hx).imp id .inl
        · exact .inr (.inr hx)
    exact ih hstep (fun h hh => hm h (mem_cons_of_mem _ hh)) fun x hx => hx

/-! ### Pointing -/

lemma setTarget {h d : Handle} (hm : h ∈ new)
    (hr : g.code.role? h = some .leap) (hd : d ∈ new) (hne : new.head? ≠ some d)
    (hX : ∀ x, X x → x = h ∨ Y x) : Sound b f? log Y new (g.setTarget h (.code d)) := by
  have hctx := g.context_setTarget h (.code d)
  have hother : ∀ x, x ≠ h → (g.setTarget h (.code d)).code.instruction? x = g.code.instruction? x := fun x hx => by
    rw [code_setTarget, instruction?_setTarget, if_neg hx]
  have hshape : (g.setTarget h (.code d)).code.shape? = g.code.shape? := by
    rw [code_setTarget, shape?_setTarget]
  have hrole : (g.setTarget h (.code d)).code.role? = g.code.role? :=
    role?_of_shape? hshape
  have hrew : Rewired new new g (g.setTarget h (.code d)) := {
    laid := by rw [code_setTarget]; exact hs.laid.setTarget _ _
    sub := fun _ hx => hx
    gone := fun _ hx hn => absurd hx hn
    head := rfl
    next := by rw [code_setTarget, nextHandle_setTarget]
    shape := hshape
    same := fun x hx => hother x (by rintro rfl; exact (hx hm).1 hr)
    entries := entries_setTarget _ _ _
    waitingOf := waitingOf_congr (waiting_setTarget _ _ _)
    frame := frame_of_context hctx
    entry := fun m => by rw [pending_setTarget] }
  refine hs.rewire_within hrew hctx ?_ (fun x hx hcall => ?_) ?_ ?_ (fun l hl => ?_) fun x hx _ => hx
  · rw [code_setTarget, live_setTarget]
    exact hs.live
  · refine (hX x hx).resolve_left ?_
    rintro rfl
    rw [hr] at hcall
    cases hcall
  · intro x hx i hi hl
    by_cases he : x = h
    · subst he
      rw [code_setTarget, instruction?_setTarget, if_pos rfl] at hi
      obtain ⟨i', -, rfl⟩ := map_eq_some_iff.1 hi
      exact .inl ⟨d, hd, hne, rfl⟩
    · rw [hother x he] at hi
      rw [pending_setTarget]
      exact (hs.leap x hx i hi hl).imp id fun hu => ⟨hu.1, hu.2.imp id (Or.imp id fun hx =>
        (hX x hx).resolve_left he)⟩
  · intro x hx i hi hp
    have he : x ≠ h := by
      rintro rfl
      rw [← hrole, role?_eq hi, hp] at hr
      cases hr
    rw [hother x he] at hi
    exact hs.protect x hx i hi hp
  · rw [pending_setTarget] at hl
    exact .inl hl

lemma pointAll {d : Handle} (ss : List Handle)
    (hm : ∀ h ∈ ss, h ∈ new ∧ g.code.role? h = some .leap) (hd : d ∈ new) (hne : new.head? ≠ some d)
    (hX : ∀ x, X x → x ∈ ss ∨ Y x) : Sound b f? log Y new (g.pointAll ss d) := by
  induction ss generalizing g X with
  | nil => exact hs.mono fun x hx => (hX x hx).resolve_left not_mem_nil
  | cons s ss ih =>
    have hstep : Sound b f? log (fun x => x ∈ ss ∨ Y x) new (g.setTarget s (.code d)) :=
      hs.setTarget (hm s mem_cons_self).1 (hm s mem_cons_self).2 hd hne fun x hx => by
        rcases hX x hx with hx | hx
        · exact (mem_cons.1 hx).imp id .inl
        · exact .inr (.inr hx)
    refine ih hstep (fun h hh => ⟨(hm h (mem_cons_of_mem _ hh)).1, ?_⟩) fun x hx => hx
    rw [code_setTarget, role?_congr (congrFun (shape?_setTarget _ _ _) h)]
    exact (hm h (mem_cons_of_mem _ hh)).2

/-- Resolving every pending link to an instruction that is already there. -/
lemma resolveAll {d : Handle} (hd : d ∈ new) (hne : new.head? ≠ some d) : Sound b f? log X new (g.resolveAll d) := by
  have hentry : ∀ m, .entry m ∉ g.pending := hs.entry_not_mem (ne_nil_of_mem hd)
  have hctx : (g.resolveAll d).context = g.context := by
    rw [resolveAll_eq, context_resolveLinks]
    rfl
  have hpend : (g.resolveAll d).pending = [] := by rw [resolveAll_eq, pending_resolveLinks]
  have hshape : (g.resolveAll d).code.shape? = g.code.shape? := by rw [resolveAll_eq, shape?_resolveLinks]
  have hrole : (g.resolveAll d).code.role? = g.code.role? :=
    role?_of_shape? hshape
  have hother : ∀ x, (∀ l ∈ g.pending, l.source? ≠ some x) →
      (g.resolveAll d).code.instruction? x = g.code.instruction? x := fun x hx => by
    cases hi : g.code.instruction? x with
    | some i => exact instruction?_resolveLinks_other hi hx fun m hm => absurd hm (hentry m)
    | none =>
      have hnone : g.code.shape? x = none := by rw [CodeMap.shape?, hi, map_none]
      rw [← hshape] at hnone
      exact map_eq_none_iff.1 hnone
  have hrew : Rewired new new g (g.resolveAll d) := {
    laid := by rw [resolveAll_eq]; exact (retargeted_resolveLinks _ _ _).laid hs.laid
    sub := fun _ hx => hx
    gone := fun _ hx hn => absurd hx hn
    head := rfl
    next := by rw [resolveAll_eq, nextHandle_resolveLinks]
    shape := hshape
    same := fun x hx => hother x fun l hl hsrc => by
      obtain ⟨hm, hr⟩ := hs.source hl hsrc
      cases l with
      | entry m => cases hsrc
      | jump s => exact (hx hm).1 hr
      | handler s | finalizer s => exact (hx hm).2 hr
    entries := by rw [resolveAll_eq, (resolveLinks_of_not_mem d hentry).1]
    waitingOf := waitingOf_congr (by rw [resolveAll_eq, (resolveLinks_of_not_mem d hentry).2])
    frame := frame_of_context hctx
    entry := fun m => by simp [hpend, hentry m] }
  refine hs.rewire_within hrew hctx ?_ (fun x hx _ => hx) ?_ ?_ (fun l hl => ?_) fun x hx _ => hx
  · rw [resolveAll_eq, live_resolveLinks]
    exact hs.live
  · intro x hx i hi hl
    obtain ⟨i', hi'⟩ := hs.laid.instruction?_isSome (hs.mem_live hx)
    have hl' : i'.opcode.role = .leap := role_of_role? hi' (by rw [← hrole, role?_eq hi, hl])
    rw [hs.instruction?_resolveAll hi', some.injEq] at hi
    subst hi
    rw [aimedBy, hl']
    by_cases hp : .jump x ∈ g.pending
    · exact .inl ⟨d, hd, hne, if_pos hp⟩
    · rw [if_neg hp]
      exact (hs.leap x hx i' hi' hl').imp id fun hu => ⟨hu.1, .inr (hu.2.resolve_left hp)⟩
  · intro x hx i hi hp
    obtain ⟨i', hi'⟩ := hs.laid.instruction?_isSome (hs.mem_live hx)
    have hp' : i'.opcode.role = .protect := role_of_role? hi' (by rw [← hrole, role?_eq hi, hp])
    obtain ⟨e, f, htarget, hmem⟩ := hs.protect x hx i' hi' hp'
    rw [hs.instruction?_resolveAll hi', some.injEq] at hi
    subst hi
    rw [aimedBy, hp', htarget]
    refine ⟨_, _, rfl, fun d' hd' => ?_⟩
    rcases mem_of_mem_handlers hd' with rfl | hd'
    · exact ⟨hd, hne⟩
    · exact hmem d' hd'
  · rw [hpend] at hl
    cases hl

end Sound

end NeoScript.Generator
