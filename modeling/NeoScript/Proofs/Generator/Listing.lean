import NeoScript.Proofs.Generator.Closing

/-!
# Code as it will read

While code is emitted, some of its targets are promised to the next instruction. `seen` reads an instruction as it will
be once the next instruction is known, and `listing` reads several of them in a row. Where a call leads to depends on
other methods, so a call is read without its target.

What is emitted later changes nothing in this reading, except that the next instruction becomes known: it is the first
of the later ones.
-/

namespace NeoScript

open List Option CodeMap

/-- Instructions with their handles, in order. -/
abbrev Code := List (Handle × Instruction)

/-- Where code is entered: at its first instruction, or behind it if there is none. -/
def entry (code : Code) (behind : Handle) : Handle := (code.head?.map Prod.fst).getD behind

@[simp] lemma entry_nil (x : Handle) : entry [] x = x := rfl

@[simp] lemma entry_cons (e : Handle × Instruction) (code : Code) (x : Handle) : entry (e :: code) x = e.1 := rfl

@[simp] lemma entry_append (a b : Code) (x : Handle) : entry (a ++ b) x = entry a (entry b x) := by
  cases a <;> rfl

namespace Generator

variable {g g' : Generator} {i : Instruction} {h x y : Handle} {new ss : List Handle}

/-- The target of an instruction once the next instruction is `x`. -/
def aimed (g : Generator) (x h : Handle) (i : Instruction) : Target :=
  match i.opcode.role with
  | .plain | .call => .unresolved
  | .leap => if .jump h ∈ g.pending then .code x else i.target
  | .protect =>
    match i.target with
    | .handlers e f =>
      .handlers (if .handler h ∈ g.pending then some x else e) (if .finalizer h ∈ g.pending then some x else f)
    | t => t

/-- The instruction of a handle as it reads once the next instruction is `x`. -/
def seen (g : Generator) (x h : Handle) : Option Instruction :=
  (g.code.instruction? h).map fun i => { i with target := g.aimed x h i }

/-- Instructions as they read once the next instruction is `x`. -/
def listing (g : Generator) (x : Handle) (hs : List Handle) : Code := hs.filterMap fun h => (g.seen x h).map (h, ·)

/-! ### Reading one instruction -/

section

variable (hi : g.code.instruction? h = some i)
include hi

lemma seen_of_plain (hr : i.opcode.role = .plain ∨ i.opcode.role = .call) :
    g.seen x h = some { i with target := .unresolved } := by
  rw [seen, hi, map_some, aimed]
  rcases hr with hr | hr <;> rw [hr]

lemma seen_of_leap (hr : i.opcode.role = .leap) :
    g.seen x h = some { i with target := if .jump h ∈ g.pending then .code x else i.target } := by
  rw [seen, hi, map_some, aimed, hr]

lemma seen_of_protect {e f : Option Handle} (hr : i.opcode.role = .protect) (ht : i.target = .handlers e f) :
    g.seen x h = some ⟨i.opcode, i.operand, .handlers (if .handler h ∈ g.pending then some x else e)
      (if .finalizer h ∈ g.pending then some x else f)⟩ := by
  rw [seen, hi, map_some, aimed, hr, ht]

end

lemma seen_isSome (hl : g.code.Laid) (hm : h ∈ g.code.live) (x : Handle) : ∃ i, g.seen x h = some i := by
  obtain ⟨i, hi⟩ := hl.instruction?_isSome hm
  exact ⟨_, by rw [seen, hi]; rfl⟩

/-- The opcode of an instruction does not depend on the reading. -/
lemma shape?_of_seen (hi : g.seen x h = some i) : g.code.shape? h = some (i.opcode, i.operand) := by
  obtain ⟨j, hj, rfl⟩ := map_eq_some_iff.1 hi
  rw [shape?_eq hj]

/-- The reading depends on the instruction and on the links that are written into it. -/
lemma seen_congr (hi : g'.code.instruction? h = g.code.instruction? h)
    (hp : ∀ l, l.source? = some h → (l ∈ g'.pending ↔ l ∈ g.pending)) : g'.seen x h = g.seen x h := by
  rw [seen, seen, hi]
  refine congrArg (fun t => Option.map t _) (funext fun i => ?_)
  simp only [aimed, hp (.jump h) rfl, hp (.handler h) rfl, hp (.finalizer h) rfl]

lemma seen_still (hc : g'.code = g.code) (hp : g'.pending = g.pending) : g'.seen x h = g.seen x h :=
  seen_congr (by rw [hc]) fun l _ => by rw [hp]

/-- Without a link the next instruction does not matter. -/
lemma seen_of_free (hfree : ∀ l ∈ g.pending, l.source? ≠ some h) : g.seen x h = g.seen y h := by
  have hno : ∀ l : Link, l.source? = some h → l ∉ g.pending := fun l hl hm => hfree l hm hl
  simp only [seen, aimed, hno (.jump h) rfl, hno (.handler h) rfl, hno (.finalizer h) rfl, if_false]

/-! ### Legible states -/

/-- Every link is written into an instruction of the right role that is there. -/
structure Legible (g : Generator) : Prop where
  laid : g.code.Laid
  typed : g.LinksTyped g.pending
  sources : ∀ l ∈ g.pending, ∀ s, l.source? = some s → s ∈ g.code.live
  waits : ∀ m, ∀ s ∈ g.waitingOf m, s ∈ g.code.live
  protect : ∀ s i, .handler s ∈ g.pending ∨ .finalizer s ∈ g.pending → g.code.instruction? s = some i →
    ∃ e f, i.target = .handlers e f

lemma Sound.legible {b : Generator} {f? : Option String} {log : List (Handle × String)} {X : Handle → Prop}
    {old : List Handle} (hs : Sound b f? log X old g) : Legible g where
  laid := hs.laid
  typed := hs.linksTyped
  sources := fun l hl s hsrc => hs.mem_live (hs.source_mem hl hsrc)
  waits := fun m s hm => (hs.waiting m s hm).1
  protect := by
    intro s i hl hi
    have hlink : s ∈ old ∧ g.code.role? s = some .protect := hl.elim (hs.links _) (hs.links _)
    have hr : i.opcode.role = .protect := role_of_role? hi hlink.2
    obtain ⟨e, f, ht, -⟩ := hs.protect s hlink.1 i hi hr
    exact ⟨e, f, ht⟩

namespace Legible

lemma protect_or_free (hl : Legible g) (hi : g.code.instruction? h = some i) (hr : i.opcode.role = .protect) :
    (∀ l ∈ g.pending, l.source? ≠ some h) ∨ ∃ e f, i.target = .handlers e f := by
  by_cases hlinked : .handler h ∈ g.pending ∨ .finalizer h ∈ g.pending
  · exact .inr (hl.protect h i hlinked hi)
  · refine .inl fun l hmem hsrc => hlinked ?_
    have hrole := (role?_eq hi).symm.trans (hl.typed.role l hmem h hsrc)
    cases l with
    | entry m => cases hsrc
    | jump s => simp [hr, Link.role] at hrole
    | handler s => exact .inl (some.inj hsrc ▸ hmem)
    | finalizer s => exact .inr (some.inj hsrc ▸ hmem)

/-- **Resolving the links makes the reading true.** -/
lemma seen_resolveAll (hl : Legible g) (hm : h ∈ g.code.live) (d : Handle) : (g.resolveAll d).seen x h = g.seen d h := by
  obtain ⟨i, hi⟩ := hl.laid.instruction?_isSome hm
  have hi' := instruction?_resolveAll (d := d) hl.typed hi (hl.protect_or_free hi)
  have hpending : (g.resolveAll d).pending = [] := by rw [resolveAll_eq, pending_resolveLinks]
  simp only [seen, hi, hi', map_some, aimed, aimedBy, hpending, not_mem_nil, if_false]
  cases hr : i.opcode.role with
  | protect => cases i.target <;> rfl
  | _ => rfl

end Legible

/-- **What is emitted later leaves the reading alone**, except that the next instruction becomes known. -/
lemma Ahead.seen (ha : Ahead g new g') (hl : Legible g) (hm : h ∈ g.code.live) :
    g'.seen x h = g.seen (new.head?.getD x) h := by
  obtain ⟨i, hi⟩ := hl.laid.instruction?_isSome hm
  have hcall : g.code.role? h = some .call → ∀ y, g'.seen y h = g.seen y h := fun hr y => by
    obtain ⟨t, hi'⟩ := instruction?_of_shape? ((ha.shape h (hl.laid.lt_next hm)).trans (shape?_eq hi))
    have hrole : i.opcode.role = .call := role_of_role? hi hr
    rw [seen_of_plain hi' (.inr hrole), seen_of_plain hi (.inr hrole)]
  have hfree : g.code.role? h = some .call → ∀ l ∈ g.pending, l.source? ≠ some h := fun hr =>
    hl.typed.source?_ne hi (.inl (role_of_role? hi hr))
  cases new with
  | nil =>
    by_cases hr : g.code.role? h = some .call
    · exact hcall hr x
    · exact seen_congr (ha.code h hm (.inl hr)) fun l hsrc => ha.links l rfl (.inl (by rw [hsrc]; rfl))
  | cons d new =>
    change g'.seen x h = g.seen d h
    by_cases hr : g.code.role? h = some .call
    · rw [hcall hr, seen_of_free (hfree hr)]
    · rw [← hl.seen_resolveAll (x := x) hm d]
      refine seen_congr (ha.code h hm (.inl hr)) fun l hsrc => iff_of_false (fun hmem => ?_) fun hmem => ?_
      · obtain ⟨s, hs, hsrc'⟩ := ha.sources (by simp) l hmem
        obtain rfl := some.inj (hsrc.symm.trans hsrc')
        exact ha.not_mem_new hl.laid hm hs
      · rw [resolveAll_eq, pending_resolveLinks] at hmem
        cases hmem

/-! ### Reading several instructions -/

section Listing

variable {hs ks : List Handle}

@[simp] lemma listing_nil (g : Generator) (x : Handle) : g.listing x [] = [] := rfl

@[simp] lemma listing_append (g : Generator) (x : Handle) (hs ks : List Handle) :
    g.listing x (hs ++ ks) = g.listing x hs ++ g.listing x ks := filterMap_append

lemma listing_cons (hi : g.seen x h = some i) (hs : List Handle) : g.listing x (h :: hs) = (h, i) :: g.listing x hs := by
  rw [listing, filterMap_cons, hi]
  rfl

lemma listing_congr (h : ∀ h ∈ hs, g'.seen x h = g.seen y h) : g'.listing x hs = g.listing y hs :=
  filterMap_congr fun a ha => by rw [h a ha]

lemma mem_listing {e : Handle × Instruction} : e ∈ g.listing x hs ↔ e.1 ∈ hs ∧ g.seen x e.1 = some e.2 := by
  rw [listing, mem_filterMap]
  constructor
  · rintro ⟨h, hm, he⟩
    obtain ⟨i, hi, rfl⟩ := map_eq_some_iff.1 he
    exact ⟨hm, hi⟩
  · rintro ⟨hm, hi⟩
    exact ⟨e.1, hm, by rw [hi]; rfl⟩

lemma handles_listing (hl : g.code.Laid) (hlive : ∀ h ∈ hs, h ∈ g.code.live) (x : Handle) :
    (g.listing x hs).map Prod.fst = hs := by
  induction hs with
  | nil => rfl
  | cons h hs ih =>
    obtain ⟨i, hi⟩ := seen_isSome hl (hlive h mem_cons_self) x
    rw [listing_cons hi, map_cons, ih fun k hk => hlive k (mem_cons_of_mem _ hk)]

end Listing

/-! ### Emitting -/

namespace Legible

variable (hl : Legible g)
include hl

lemma still (hc : g'.code = g.code) (hp : g'.pending = g.pending) (hw : g'.waiting = g.waiting) : Legible g' where
  laid := hc ▸ hl.laid
  typed := ⟨by rw [hp, hc]; exact hl.typed.role, by rw [waitingOf_congr hw, hc]; exact hl.typed.waiting⟩
  sources := by rw [hp, hc]; exact hl.sources
  waits := by rw [waitingOf_congr hw, hc]; exact hl.waits
  protect := by rw [hp, hc]; exact hl.protect

lemma append (i : Instruction) : Legible (g.append i) := by
  have hnone : ∀ l, l ∉ (g.append i).pending := fun l hm => by
    rw [pending_append] at hm
    cases hm
  have hwait : ∀ m, ∀ s ∈ (g.append i).waitingOf m, s ∈ g.waitingOf m := by
    intro m s hm
    rw [waitingOf_append] at hm
    split at hm
    · cases hm
    · exact hm
  refine ⟨laid_append _ _ hl.laid, ⟨fun l hm => absurd hm (hnone l), fun m s hm => ?_⟩,
    fun l hm => absurd hm (hnone l), fun m s hm => ?_,
    fun s i hm => absurd hm (not_or.2 ⟨hnone _, hnone _⟩)⟩
  · have hlive := hl.waits m s (hwait m s hm)
    rw [role?_congr (shape?_append_of_lt (hl.laid.lt_next hlive))]
    exact hl.typed.waiting m s (hwait m s hm)
  · rw [live_append]
    exact mem_append_left _ (hl.waits m s (hwait m s hm))

/-- A link into an instruction that is there. -/
lemma defer {l : Link} (hsrc : l.source? = some h) (hm : h ∈ g.code.live)
    (hr : g.code.role? h = some l.role) (hp : ∀ i, l = .handler h ∨ l = .finalizer h → g.code.instruction? h = some i →
      ∃ e f, i.target = .handlers e f) : Legible (g.defer l) where
  laid := hl.laid
  typed := by
    refine ⟨fun l' hl' s hs => ?_, hl.typed.waiting⟩
    rcases mem_append.1 hl' with hl' | hl'
    · exact hl.typed.role l' hl' s hs
    · obtain rfl := mem_singleton.1 hl'
      exact some.inj (hsrc.symm.trans hs) ▸ hr
  sources := by
    intro l' hl' s hs
    rcases mem_append.1 hl' with hl' | hl'
    · exact hl.sources l' hl' s hs
    · rw [mem_singleton.1 hl', hsrc] at hs
      exact some.inj hs ▸ hm
  waits := hl.waits
  protect := by
    intro s i hs hi
    have hcase : (.handler s ∈ g.pending ∨ .finalizer s ∈ g.pending) ∨ l = .handler s ∨ l = .finalizer s := by
      rcases hs with hs | hs
      · exact (mem_append.1 hs).imp .inl fun h => .inl (mem_singleton.1 h).symm
      · exact (mem_append.1 hs).imp .inr fun h => .inr (mem_singleton.1 h).symm
    rcases hcase with hold | hnew
    · exact hl.protect s i hold hi
    · obtain rfl : s = h := by
        rcases hnew with rfl | rfl <;> exact some.inj hsrc
      exact hp i hnew hi

lemma linkNext (hm : h ∈ g.code.live) (hr : g.code.role? h = some .leap) :
    Legible (g.linkNext h) := hl.defer (l := .jump h) rfl hm hr (by simp)

lemma linkAll {ss : List Handle} (hm : ∀ s ∈ ss, s ∈ g.code.live ∧ g.code.role? s = some .leap) :
    Legible (g.linkAll ss) := by
  induction ss generalizing g with
  | nil => exact hl
  | cons s ss ih =>
    obtain ⟨hlive, hr⟩ := hm s mem_cons_self
    exact ih (hl.linkNext hlive hr) fun s' hs' => hm s' (mem_cons_of_mem _ hs')

/-- A call waits for its method. -/
lemma await (hm : h ∈ g.code.live) (hr : g.code.role? h = some .call) (name : String) : Legible (g.await name h) := by
  have hwait : ∀ m, ∀ s ∈ (g.await name h).waitingOf m, s ∈ g.waitingOf m ∨ s = h := by
    intro m s hs
    simp only [waitingOf, Generator.await, Table.get?_insert] at hs
    split at hs
    · next he =>
      subst he
      exact (mem_append.1 hs).imp id mem_singleton.1
    · exact .inl hs
  refine ⟨hl.laid, ⟨hl.typed.role, fun m s hs => ?_⟩, hl.sources,
    fun m s hs => ?_, hl.protect⟩
  · rcases hwait m s hs with hs | rfl
    · exact hl.typed.waiting m s hs
    · exact hr
  · rcases hwait m s hs with hs | rfl
    · exact hl.waits m s hs
    · exact hm

/-- The reading of what is there when an instruction is appended. -/
lemma seen_append (hm : h ∈ g.code.live) (i : Instruction) :
    (g.append i).seen x h = g.seen g.next h := (Ahead.append hl.laid i).seen hl hm

lemma instruction?_append_next (i : Instruction) : (g.append i).code.instruction? g.next = some i := by
  have hnot : g.next ∉ g.code.live := fun hm => Nat.lt_irrefl _ (hl.laid.lt_next hm)
  rw [append_eq]
  refine instruction?_resolveLinks_other ?_ (fun l hm hsrc => hnot (hl.sources l hm _ hsrc)) fun m _ hw =>
    hnot (hl.waits m _ hw)
  change (g.code.insert i).instruction? g.code.nextHandle = _
  rw [instruction?_insert, if_pos rfl]

/-- An appended instruction reads as it was given, up to the target of a call. -/
lemma seen_append_next (hi : i.opcode.role = .plain → i.target = .unresolved)
    (hc : i.opcode.role ≠ .call) : (g.append i).seen x g.next = some i := by
  have hself := hl.instruction?_append_next i
  have hnone : ∀ l, l ∉ (g.append i).pending := fun l hm => by
    rw [pending_append] at hm
    cases hm
  cases hr : i.opcode.role with
  | plain =>
    rw [seen_of_plain hself (.inl hr), ← hi hr]
  | call => exact absurd hr hc
  | leap => rw [seen_of_leap hself hr, if_neg (hnone _)]
  | protect =>
    rw [Generator.seen, hself, map_some]
    obtain ⟨o, bs, t⟩ := i
    simp only [aimed, show o.role = .protect from hr, hnone, if_false]
    cases t <;> rfl

lemma seen_append_leap (hr : i.opcode.role = .leap) : (g.append i).seen x g.next = some i :=
  hl.seen_append_next (fun h => by rw [hr] at h; cases h) (by simp [hr])

end Legible

/-! ### Links -/

lemma seen_defer_of_ne {l : Link} (hne : l.source? ≠ some h) : (g.defer l).seen x h = g.seen x h := by
  refine seen_congr rfl fun l' hsrc => ?_
  rw [defer, mem_append, mem_singleton]
  exact or_iff_left fun e => hne (e ▸ hsrc)

lemma seen_linkAll (hr : ∀ s ∈ ss, g.code.role? s = some .leap) (hi : g.seen x h = some i) :
    (g.linkAll ss).seen x h = some (if h ∈ ss then { i with target := .code x } else i) := by
  obtain ⟨j, hj, rfl⟩ := map_eq_some_iff.1 hi
  have hmem : .jump h ∈ (g.linkAll ss).pending ↔ .jump h ∈ g.pending ∨ h ∈ ss := by
    rw [Sound.linkAll_eq]
    simp
  have hj' : (g.linkAll ss).code.instruction? h = some j := by
    rwa [Sound.linkAll_eq]
  split
  · next hs =>
    have hleap : j.opcode.role = .leap := role_of_role? hj (hr h hs)
    rw [seen_of_leap hj' hleap, if_pos (hmem.2 (.inr hs))]
  · next hs =>
    rw [← hi]
    refine seen_congr (hj'.trans hj.symm) fun l hsrc => ?_
    rw [Sound.linkAll_eq, mem_append]
    refine or_iff_left fun hl => hs ?_
    obtain ⟨s, hss, rfl⟩ := mem_map.1 hl
    exact some.inj hsrc ▸ hss

lemma seen_pointAll (hr : ∀ s ∈ ss, g.code.role? s = some .leap) (hi : g.seen x h = some i)
    (hopen : h ∈ ss → i.target = .unresolved) (d : Handle) :
    (g.pointAll ss d).seen x h = some (if h ∈ ss then { i with target := .code d } else i) := by
  obtain ⟨j, hj, rfl⟩ := map_eq_some_iff.1 hi
  have hj' := instruction?_pointAll g ss d h
  split
  · next hs =>
    have hleap : j.opcode.role = .leap := role_of_role? hj (hr h hs)
    have hfree : .jump h ∉ g.pending := fun hp => by
      have := hopen hs
      simp [aimed, hleap, hp] at this
    rw [if_pos hs, hj, map_some] at hj'
    rw [seen_of_leap hj' hleap, pending_pointAll, if_neg hfree]
  · next hs =>
    rw [if_neg hs] at hj'
    rw [← hi]
    exact seen_congr hj' fun l _ => by rw [pending_pointAll]

end Generator

end NeoScript
