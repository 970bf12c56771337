import NeoScript.Proofs.CodeMap.Renaming
import NeoScript.Proofs.Generator.Follows
import NeoScript.Proofs.Generator.Listing

/-!
# Reading what is emitted

`Adds g new g'` says that `g'` reads like `g` with further code behind it, and `Writes g code g'` says in addition which
code that is. Both are about the reading of the code only, so they compose without regard to anything else.

The links that a construct makes when it ends, and the flags that it takes away, change the reading of code that is
already there; for each of them a lemma says how.
-/

namespace NeoScript

open List CodeMap Option Opcode NeoScript.Break

/-! ### Instructions -/

namespace Instruction

/-- An instruction without operand and target. -/
abbrev bare (o : Opcode) : Instruction := { opcode := o }

/-- A jump. -/
abbrev goto (test : JumpTest) (d : Handle) : Instruction := ⟨.jump test false, [], .code d⟩

/-- The instruction that enters a protected block. -/
abbrev protect (handler finalizer : Option Handle) : Instruction := ⟨.tryEnter false, [], .handlers handler finalizer⟩

/-- The instruction that leaves a protected block. -/
abbrev leave (d : Handle) : Instruction := ⟨.tryLeave false, [], .code d⟩

/-- The instruction with other handles in its target. -/
def rename (ρ : Handle → Handle) (i : Instruction) : Instruction := { i with target := i.target.rename ρ }

/-- The instruction with the target `d`. -/
def aim (d : Handle) (i : Instruction) : Instruction := { i with target := .code d }

lemma rename_of_unresolved {i : Instruction} (hi : i.target = .unresolved) (ρ : Handle → Handle) : i.rename ρ = i := by
  obtain ⟨o, bs, t⟩ := i
  obtain rfl : t = .unresolved := hi
  rfl

lemma rename_congr {ρ ρ' : Handle → Handle} {i : Instruction} (h : ∀ d ∈ i.target.handles, ρ' d = ρ d) :
    i.rename ρ' = i.rename ρ := by
  rw [rename, rename, Target.rename_congr h]

lemma rename_rename (ρ ρ' : Handle → Handle) (i : Instruction) : (i.rename ρ).rename ρ' = i.rename (ρ' ∘ ρ) := by
  obtain ⟨o, bs, t⟩ := i
  cases t <;> simp [Instruction.rename, Target.rename]

end Instruction

lemma Target.retarget_some (t : Target) (r s : Handle) :
    t.retarget r (some s) = t.rename fun d => if d = r then s else d := by
  have hswap : ∀ slot : Option Handle, Target.swap r (some s) slot = slot.map fun d => if d = r then s else d := fun slot => by
    cases slot with
    | none => rfl
    | some d =>
      simp only [Target.swap, map_some, some.injEq]
      split_ifs <;> rfl
  cases t with
  | code d =>
    simp only [Target.retarget, Target.rename]
    split_ifs <;> rfl
  | handlers e f => simp only [Target.retarget, Target.rename, hswap]
  | _ => rfl

namespace Generator

open Instruction

variable {b g g' g'' : Generator} {i : Instruction} {h j x y : Handle} {new more hs : List Handle} {code code' : Code}

/-! ### Adding code -/

/-- `g'` reads like `g`, with the code `new` behind it. -/
structure Adds (g : Generator) (new : List Handle) (g' : Generator) : Prop where
  legible : Legible g'
  live : g'.code.live = g.code.live ++ new
  grown : g.code.nextHandle ≤ g'.code.nextHandle
  seen : ∀ x, ∀ h ∈ g.code.live, g'.seen x h = g.seen (new.head?.getD x) h

namespace Adds

lemma refl (hl : Legible g) : Adds g [] g := ⟨hl, (append_nil _).symm, le_refl _, fun _ _ _ => rfl⟩

lemma trans (h1 : Adds g new g') (h2 : Adds g' more g'') : Adds g (new ++ more) g'' := by
  refine ⟨h2.legible, by rw [h2.live, h1.live, append_assoc], le_trans h1.grown h2.grown, fun x h hm => ?_⟩
  rw [h2.seen x h (by rw [h1.live]; exact mem_append_left _ hm), h1.seen _ h hm]
  cases new <;> rfl

lemma still (ha : Adds g new g') (hc : g''.code = g'.code) (hp : g''.pending = g'.pending)
    (hw : g''.waiting = g'.waiting) : Adds g new g'' :=
  ⟨ha.legible.still hc hp hw, by rw [hc, ha.live], by rw [hc]; exact ha.grown, fun x h hm => by
    rw [seen_still hc hp, ha.seen x h hm]⟩

lemma of_ahead (ha : Ahead g new g') (hl : Legible g) (hl' : Legible g') : Adds g new g' :=
  ⟨hl', ha.live, ha.grown, fun _ _ hm => ha.seen hl hm⟩

lemma append (hl : Legible g) (i : Instruction) : Adds g [g.next] (g.append i) :=
  of_ahead (.append hl.laid i) hl (hl.append i)

lemma mem_live (ha : Adds g new g') (hm : h ∈ new) : h ∈ g'.code.live := by
  rw [ha.live]
  exact mem_append_right _ hm

lemma old_mem_live (ha : Adds g new g') (hm : h ∈ g.code.live) : h ∈ g'.code.live := by
  rw [ha.live]
  exact mem_append_left _ hm

lemma listing (ha : Adds g new g') (hlive : ∀ h ∈ hs, h ∈ g.code.live) :
    g'.listing x hs = g.listing (new.head?.getD x) hs := listing_congr fun h hm => ha.seen x h (hlive h hm)

end Adds

/-! ### Writing plain code -/

/-- `g'` is `g` with the code behind it. -/
structure Writes (g : Generator) (code : Code) (g' : Generator) : Prop extends Adds g (code.map Prod.fst) g' where
  reads : ∀ x, g'.listing x (code.map Prod.fst) = code

namespace Writes

lemma refl (hl : Legible g) : Writes g [] g := ⟨.refl hl, fun _ => rfl⟩

lemma trans (h1 : Writes g code g') (h2 : Writes g' code' g'') : Writes g (code ++ code') g'' := by
  refine ⟨by rw [map_append]; exact h1.toAdds.trans h2.toAdds, fun x => ?_⟩
  rw [map_append, listing_append, h2.reads, h2.toAdds.listing fun h hm => h1.toAdds.mem_live hm, h1.reads]

variable (hw : Writes g code g')
include hw

lemma still (hc : g''.code = g'.code) (hp : g''.pending = g'.pending)
    (hwait : g''.waiting = g'.waiting) : Writes g code g'' :=
  ⟨hw.toAdds.still hc hp hwait, fun x => (listing_congr fun _ _ => seen_still hc hp).trans (hw.reads x)⟩

/-- One more instruction, which is no call. -/
lemma append (hi : i.opcode.role = .plain → i.target = .unresolved)
    (hc : i.opcode.role ≠ .call) : Writes g (code ++ [(g'.next, i)]) (g'.append i) := by
  refine hw.trans ⟨.append hw.legible i, fun x => ?_⟩
  exact (listing_cons (hw.legible.seen_append_next hi hc) []).trans rfl

lemma op {o : Opcode} (ho : o.role = .plain) (pops : Nat) (result : Option ValueType) :
    Writes g (code ++ [(g'.next, bare o)]) (g'.op o pops result) :=
  (hw.append (i := bare o) (fun _ => rfl) (by simp [ho])).still rfl rfl rfl

lemma appendAll {is : List Instruction} (hi : ∀ i ∈ is, i.opcode.role = .plain ∧ i.target = .unresolved) :
    ∃ code', code'.map Prod.snd = is ∧ (is ≠ [] → ∀ x, NeoScript.entry code' x = g'.next) ∧
      Writes g (code ++ code') (g'.appendAll is) := by
  induction is generalizing g' code with
  | nil => exact ⟨[], rfl, fun h => absurd rfl h, by rw [append_nil]; exact hw⟩
  | cons i is ih =>
    obtain ⟨hr, ht⟩ := hi i mem_cons_self
    obtain ⟨code', hcode, -, hw'⟩ := ih (hw.append (fun _ => ht) (by simp [hr])) fun k hk => hi k (mem_cons_of_mem _ hk)
    exact ⟨(g'.next, i) :: code', by rw [map_cons, hcode], fun _ _ => rfl, by rw [append_cons]; exact hw'⟩

lemma dropN (count : Nat) :
    ∃ code', code'.map Prod.snd = replicate count (bare .drop) ∧ Writes g (code ++ code') (g'.dropN count) := by
  induction count generalizing g' code with
  | zero => exact ⟨[], rfl, by rw [append_nil]; exact hw⟩
  | succ count ih =>
    obtain ⟨code', hcode, hw'⟩ := ih (hw.op (o := .drop) rfl 1 none)
    exact ⟨(g'.next, bare .drop) :: code', by rw [map_cons, hcode]; rfl, by rw [append_cons]; exact hw'⟩

lemma nipN (count : Nat) :
    ∃ code', code'.map Prod.snd = replicate count (bare .nip) ∧ Writes g (code ++ code') (g'.nipN count) := by
  induction count generalizing g' code with
  | zero => exact ⟨[], rfl, by rw [append_nil]; exact hw⟩
  | succ count ih =>
    have hnip : Writes g (code ++ [(g'.next, bare .nip)]) g'.nip :=
      (hw.append (i := bare .nip) (fun _ => rfl) (by simp [role])).still rfl rfl rfl
    obtain ⟨code', hcode, hw'⟩ := ih hnip
    exact ⟨(g'.next, bare .nip) :: code', by rw [map_cons, hcode]; rfl, by rw [append_cons]; exact hw'⟩

end Writes

/-! ### Jumps to what comes next -/

/-- One instruction that leads to the next one. -/
lemma adds_linkNext {o : Opcode} (hl : Legible g) (ho : o.role = .leap) :
    Adds g [g.next] ((g.emitOpen o).linkNext g.next) ∧
      ∀ x, ((g.emitOpen o).linkNext g.next).seen x g.next = some ⟨o, [], .code x⟩ := by
  have ha := Adds.append hl ⟨o, [], .unresolved⟩
  have hm : g.next ∈ (g.emitOpen o).code.live := ha.mem_live mem_cons_self
  have hr : (g.emitOpen o).code.role? g.next = some .leap := (role?_emitOpen _ _).trans (congrArg some ho)
  have hone : ∀ s ∈ [g.next], (g.emitOpen o).code.role? s = some .leap := fun s hs => mem_singleton.1 hs ▸ hr
  refine ⟨⟨ha.legible.linkNext hm hr, ha.live, ha.grown, fun x h hmem => ?_⟩, fun x => ?_⟩
  · rw [← ha.seen x h hmem]
    obtain ⟨i, hi⟩ := seen_isSome ha.legible.laid (ha.old_mem_live hmem) x
    have hne : h ∉ [g.next] := fun he => lt_irrefl _ (mem_singleton.1 he ▸ hl.laid.lt_next hmem)
    have hseen := seen_linkAll hone hi
    rw [if_neg hne] at hseen
    exact hseen.trans hi.symm
  · have hi := hl.seen_append_next (i := ⟨o, [], .unresolved⟩) (x := x) (fun _ => rfl) (by simp [ho])
    have hseen := seen_linkAll hone hi
    rwa [if_pos mem_cons_self] at hseen

/-! ### Joining the test and the body of a loop -/

/-- No link is written into an instruction. -/
def Settled (g : Generator) : Prop := ∀ l ∈ g.pending, l.source? = none

lemma Settled.free (hg : Settled g) (h : Handle) : ∀ l ∈ g.pending, l.source? ≠ some h := fun l hl he => by
  rw [hg l hl] at he
  cases he

/-- Code that reads the same whatever comes behind it. -/
lemma Settled.seen (hg : Settled g) (x y h : Handle) : g.seen x h = g.seen y h := seen_of_free (hg.free h)

lemma settled_append (g : Generator) (i : Instruction) : Settled (g.append i) := fun l hl => by
  rw [pending_append] at hl
  cases hl

lemma live_moveTest {pre mid post : List Handle} {first last : Handle} (hl : g.code.Laid)
    (hs : g.code.live = pre ++ (mid ++ post)) (hfirst : mid.head? = some first) (hlast : mid.getLast? = some last) :
    (g.moveTest first last).code.live = pre ++ post ++ mid := by
  obtain ⟨t, heq⟩ := Sound.moveTest_eq g first last
  obtain ⟨rest, hrest⟩ := head?_eq_some_iff.1 hfirst
  obtain ⟨init, hinit⟩ := getLast?_eq_some_iff.1 hlast
  have hstart : g.code.start? first = some (span g.code.arena pre) :=
    hl.start?_split (by rw [hs, hrest]; rfl)
  have hstop : g.code.last? last = some (span g.code.arena pre + span g.code.arena mid - 1) := by
    have hsplit : g.code.live = (pre ++ init) ++ last :: post := by rw [hs, hinit]; simp
    rw [hl.last?_split hsplit, hinit]
    simp only [span_append, span_cons, span_nil, Nat.add_zero, Nat.add_assoc]
  rw [heq, hstart, hstop, getD_some, getD_some]
  exact hl.relocate_block hs (by rw [hrest]; simp)

section CloseTest

variable {test k : Handle}

/-- The test stands behind the body. Without a body the jump that closes the test is still pending. -/
lemma live_closeTest {pre mid post : List Handle} (hl : g.code.Laid) (hs : g.code.live = pre ++ (mid ++ post))
    (hfirst : mid.head? = some test) (hlast : mid.getLast? = some k) (hp : .jump k ∈ g.pending → post = []) :
    (g.closeTest test k).code.live = pre ++ post ++ mid := by
  unfold Generator.closeTest
  split_ifs with hc
  · rw [code_setTarget, live_setTarget]
    change g.code.live = _
    rw [hs, hp (contains_iff_mem.1 hc)]
    simp
  · refine live_moveTest ((retargeted_resolveLinks _ _ _).laid hl) ?_ hfirst hlast
    rwa [resolveAll_eq, live_resolveLinks]

lemma seen_setTarget (hg : Settled g) (hr : g.code.role? k = some .leap) (hi : g.seen x h = some i) (d : Handle) :
    (g.setTarget k (.code d)).seen x h = some (if h = k then i.aim d else i) := by
  have hcode := instruction?_setTarget g.code k (.code d) h
  obtain ⟨j, hj, rfl⟩ := map_eq_some_iff.1 hi
  split_ifs with hk
  · subst hk
    have hleap : j.opcode.role = .leap := role_of_role? hj hr
    have hfree : .jump h ∉ (g.setTarget h (.code d)).pending := fun hm => by
      rw [pending_setTarget] at hm
      have := hg _ hm
      cases this
    rw [if_pos rfl, hj, map_some, ← code_setTarget] at hcode
    rw [seen_of_leap hcode hleap, if_neg hfree]
    rfl
  · rw [if_neg hk] at hcode
    rw [← hi]
    exact seen_congr (by rw [code_setTarget]; exact hcode) fun l _ => by rw [pending_setTarget]

/-- Joining the test and the body makes the end of the body lead to the test. -/
lemma seen_closeTest (hl : Legible g) (hm : h ∈ g.code.live) (hr : g.code.role? k = some .leap)
    (hp : .jump k ∈ g.pending → ∀ l ∈ g.pending, l ≠ .jump k → l.source? = none) :
    (g.closeTest test k).seen x h = g.seen test h := by
  unfold Generator.closeTest
  split_ifs with hc
  · have hlinked := contains_iff_mem.1 hc
    have hrest : ∀ l ∈ g.pending.filter (fun link => decide (link ≠ .jump k)), l.source? = none := fun l hl => by
      obtain ⟨hmem, hne⟩ := mem_filter.1 hl
      exact hp hlinked l hmem (of_decide_eq_true hne)
    obtain ⟨g0, hg0⟩ : ∃ g0 : Generator, g0 = { g with pending := g.pending.filter fun link => decide (link ≠ .jump k) } :=
      ⟨_, rfl⟩
    have hcode : g0.code = g.code := by rw [hg0]
    have hsettled : Settled g0 := fun l hl => hrest l (by rw [hg0] at hl; exact hl)
    dsimp only
    rw [← hg0]
    obtain ⟨i, hi⟩ := hl.laid.instruction?_isSome hm
    have hseen : g0.seen x h = some { i with target := g0.aimed x h i } := by rw [Generator.seen, hcode, hi, map_some]
    rw [seen_setTarget hsettled (by rw [hcode]; exact hr) hseen]
    split_ifs with hk
    · subst hk
      have hleap : i.opcode.role = .leap := role_of_role? hi hr
      rw [seen_of_leap hi hleap, if_pos hlinked]
      rfl
    · have hfree : ∀ l ∈ g.pending, l.source? ≠ some h := fun l hlp hsrc => by
        by_cases he : l = .jump k
        · subst he
          exact hk (some.inj hsrc).symm
        · rw [hp hlinked l hlp he] at hsrc
          cases hsrc
      rw [← hseen, seen_of_free (x := test) (y := x) hfree]
      exact seen_congr (by rw [hcode]) fun l hsrc =>
        iff_of_false (fun hmem => hsettled.free h l hmem hsrc) fun hmem => hfree l hmem hsrc
  · obtain ⟨t, heq⟩ := Sound.moveTest_eq (g.resolveAll test) test k
    have hpend : ((g.resolveAll test).moveTest test k).pending = (g.resolveAll test).pending := by rw [heq]
    exact (seen_congr (congrFun (Sound.instruction?_moveTest _ _ _) h) fun l _ => by rw [hpend]).trans
      (hl.seen_resolveAll (x := x) hm test)

lemma settled_closeTest (hp : .jump k ∈ g.pending → ∀ l ∈ g.pending, l ≠ .jump k → l.source? = none) :
    Settled (g.closeTest test k) := by
  unfold Generator.closeTest
  split_ifs with hc
  · intro l hl
    rw [pending_setTarget] at hl
    obtain ⟨hmem, hne⟩ := mem_filter.1 hl
    exact hp (contains_iff_mem.1 hc) l hmem (of_decide_eq_true hne)
  · obtain ⟨t, heq⟩ := Sound.moveTest_eq (g.resolveAll test) test k
    intro l hl
    rw [heq] at hl
    change l ∈ (g.resolveAll test).pending at hl
    rw [resolveAll_eq, pending_resolveLinks] at hl
    cases hl

end CloseTest

/-! ### Removing flags -/

lemma seen_of_settled (hg : Settled g) (hi : g.code.instruction? h = some i) :
    g.seen x h = some (if i.opcode.role = .leap ∨ i.opcode.role = .protect then i else { i with target := .unresolved }) := by
  have hno : ∀ l : Link, l.source? = some h → l ∉ g.pending := fun l hsrc hm => hg.free h l hm hsrc
  rw [seen, hi, map_some, aimed]
  obtain ⟨o, bs, t⟩ := i
  cases hr : o.role with
  | plain | call => simp
  | leap => simp [hno (.jump h) rfl]
  | protect => cases t <;> simp [hno (.handler h) rfl, hno (.finalizer h) rfl]

section Flags

variable {c : Generator} {f? : Option String} {log : List (Handle × String)} {X : Handle → Prop}
  {old pre post : List Handle} {r s : Handle} {flags ss : List Handle} {d : Handle} {loop : OpenLoop}

/-- What a constant that is taken away leaves: everything that led to it leads to what follows. -/
lemma Sound.seen_excise (hs : Sound c f? log X old g) (hg : Settled g) (hold : old = pre ++ r :: s :: post)
    (hpre : pre ≠ []) (hc : g.code.constant? r = some true) :
    Settled (g.removeInstruction r) ∧ (g.removeInstruction r).code.live = c.code.live ++ pre ++ s :: post ∧
      ∀ x, ∀ h ∈ g.code.live, h ≠ r →
        (g.removeInstruction r).seen x h = (g.seen x h).map (Instruction.rename fun d => if d = r then s else d) := by
  have hby := hs.bypassed hold hpre hc
  rw [head?_cons] at hby
  have hsettled : Settled (g.removeInstruction r) := by
    obtain ⟨more, hp, -, hmore⟩ := hby.added
    obtain rfl : more = [] := eq_nil_iff_forall_not_mem.2 fun l hl => by
      have := ((hmore l).1 hl).1
      cases this
    intro l hl
    rw [hp, append_nil] at hl
    exact hg l hl
  refine ⟨hsettled, hby.live, fun x h hm hne => ?_⟩
  obtain ⟨i, hi⟩ := hs.laid.instruction?_isSome hm
  rw [seen_of_settled hg hi, map_some]
  by_cases hr : r ∈ i.refs
  · have hm' : h ∈ c.code.live ++ pre ++ s :: post := by
      rw [hs.live, hold] at hm
      simp only [mem_append, mem_cons] at hm ⊢
      tauto
    rw [seen_of_settled hsettled (hby.moved h hm' i hi hr)]
    dsimp only
    split_ifs
    · rw [Instruction.rename, Target.retarget_some]
    · rfl
  · have hi' := hby.same h i hi hr
    rw [seen_of_settled hsettled hi']
    split_ifs with hrole
    · have hrefs : i.refs = i.target.handles := Instruction.refs_eq (by rcases hrole with hr | hr <;> simp [hr])
      have hself : i.rename (fun d => if d = r then s else d) = i.rename id :=
        rename_congr fun d hd => if_neg fun he => hr (by rw [hrefs]; exact he ▸ hd)
      rw [hself]
      obtain ⟨o, bs, t⟩ := i
      cases t <;> simp [Instruction.rename, Target.rename]
    · rfl

/-- The handle to go to instead of a flag that is taken away: the next one. -/
def skip (flags : List Handle) (d : Handle) : Handle := if d ∈ flags then d + 1 else d

lemma skip_of_mem (hd : d ∈ flags) : skip flags d = d + 1 := if_pos hd

lemma skip_of_not_mem (hd : d ∉ flags) : skip flags d = d := if_neg hd

lemma skip_cons_of_ne {f : Handle} (hd : d ≠ f) : skip (f :: flags) d = skip flags d := by
  by_cases hm : d ∈ flags
  · rw [skip_of_mem hm, skip_of_mem (mem_cons_of_mem _ hm)]
  · rw [skip_of_not_mem hm, skip_of_not_mem fun h => (mem_cons.1 h).elim hd hm]

lemma rename_skip_nil (i : Instruction) : i.rename (skip []) = i := by
  obtain ⟨o, bs, t⟩ := i
  have hskip : skip [] = id := rfl
  cases t <;> simp [Instruction.rename, Target.rename, hskip]

/-- The flags that are taken away at the end of a loop: all of them, unless there is a jump that tests them. -/
def taken (o : Option Handle) (flags : List Handle) : List Handle := if o.isSome then [] else flags

lemma mem_flags_of_taken (hm : h ∈ taken o flags) : h ∈ flags := by
  unfold taken at hm
  split_ifs at hm
  · cases hm
  · exact hm

lemma filter_taken {l : List Handle} (hl : ∀ h ∈ flags, h ∉ l) : l.filter (· ∉ taken o flags) = l :=
  filter_eq_self.2 fun h hm => decide_eq_true fun ht => hl h (mem_flags_of_taken ht) hm

lemma filter_ne_of_nodup (hnd : (pre ++ r :: post).Nodup) : (pre ++ r :: post).filter (· ≠ r) = pre ++ post := by
  have hnot := (nodup_cons.1 (nodup_middle.1 hnd)).1
  rw [mem_append, not_or] at hnot
  have hne : ∀ l : List Handle, r ∉ l → l.filter (· ≠ r) = l := fun l hl =>
    filter_eq_self.2 fun a ha => decide_eq_true fun he : a = r => hl (he ▸ ha)
  rw [filter_append, filter_cons_of_neg (by simp), hne pre hnot.1, hne post hnot.2]

/-- **Taking the flags of a loop away.** Each flag is followed by the jump that it belongs to. -/
lemma Sound.seen_removeFlags {start : Handle} {breaks : List Break} (hs : Sound c f? log X old g) (hg : Settled g)
    (hstart : start ∈ old) (hr : g.code.role? start = some .leap)
    (hflags : ∀ e ∈ breaks, start < e.flag ∧ g.code.constant? e.flag = some true)
    (hnext : ∀ e ∈ breaks, g.code.role? (e.flag + 1) = some .leap ∧ ∃ pre post, old = pre ++ e.flag :: (e.flag + 1) :: post)
    (hnd : (breaks.map flag).Nodup) : Settled (g.removeFlags breaks) ∧
      (g.removeFlags breaks).code.live = g.code.live.filter (· ∉ breaks.map flag) ∧
      ∀ x, ∀ h ∈ g.code.live, h ∉ breaks.map flag →
        (g.removeFlags breaks).seen x h = (g.seen x h).map (Instruction.rename (skip (breaks.map flag))) := by
  induction breaks generalizing g old with
  | nil =>
    refine ⟨hg, (filter_eq_self.2 (by simp)).symm, fun x h _ _ => ?_⟩
    rw [map_nil, funext rename_skip_nil, Option.map_id']
    rfl
  | cons e breaks ih =>
    obtain ⟨hlt, hc⟩ := hflags e mem_cons_self
    obtain ⟨hleap, pre, post, hold⟩ := hnext e mem_cons_self
    have hpre : pre ≠ [] := by
      rintro rfl
      exact lt_irrefl _ (lt_of_lt_of_le hlt (hs.head e.flag (by rw [hold]; rfl) start hstart))
    obtain ⟨hnot, hnd'⟩ := nodup_cons.1 hnd
    obtain ⟨hsettled, hlive, hseen⟩ := hs.seen_excise hg hold hpre hc
    obtain ⟨old1, hs1, hg1⟩ := hs.removeFlag hstart hlt hc
    have hshape := (removeInstruction_keeps hs.laid e.flag).2
    have hrole : ∀ x, (g.removeInstruction e.flag).code.role? x = g.code.role? x := fun x =>
      role?_congr (congrFun hshape x)
    have hconst : ∀ x, (g.removeInstruction e.flag).code.constant? x = g.code.constant? x := fun x => by
      rw [constant?, hshape, constant?]
    -- the handle behind a flag is that of a jump, so it is no flag
    have hapart : ∀ e' ∈ e :: breaks, ∀ e'' ∈ e :: breaks, e'.flag + 1 ≠ e''.flag := fun e' he' e'' he'' heq => by
      have hplain := role?_of_constant (hflags e'' he'').2
      rw [← heq, (hnext e' he').1] at hplain
      cases hplain
    have hlive1 : (g.removeInstruction e.flag).code.live = g.code.live.filter (· ≠ e.flag) := by
      have hl : g.code.live = (c.code.live ++ pre) ++ e.flag :: (e.flag + 1) :: post := by
        rw [hs.live, hold, append_assoc]
      have hnodup := hs.laid.nodup
      rw [hl] at hnodup ⊢
      rw [filter_ne_of_nodup hnodup, hlive]
    have hold1 : old1 = old.filter (· ≠ e.flag) := by
      have hnodup : old.Nodup := by
        have := hs.laid.nodup
        rw [hs.live] at this
        exact (nodup_append.1 this).2.1
      rw [hold] at hnodup ⊢
      rw [filter_ne_of_nodup hnodup]
      refine (append_right_inj c.code.live).1 ?_
      rw [← hs1.live, hlive, append_assoc]
    obtain ⟨hset2, hlive2, hseen2⟩ := ih hs1 hsettled (hg1.leap ⟨hstart, hr⟩).1 (hg1.role hr)
      (fun e' he' => by rw [hconst]; exact hflags e' (mem_cons_of_mem _ he'))
      (fun e' he' => by
        obtain ⟨hleap', pre', post', hold'⟩ := hnext e' (mem_cons_of_mem _ he')
        have hne : e'.flag ≠ e.flag := fun heq => hnot (heq ▸ mem_map_of_mem he')
        refine ⟨by rw [hrole]; exact hleap', pre'.filter (· ≠ e.flag), post'.filter (· ≠ e.flag), ?_⟩
        rw [hold1, hold', filter_append, filter_cons_of_pos (by simpa using hne),
          filter_cons_of_pos (by simpa using hapart e' (mem_cons_of_mem _ he') e mem_cons_self)]) hnd'
    change Settled ((g.removeInstruction e.flag).removeFlags breaks) ∧
      ((g.removeInstruction e.flag).removeFlags breaks).code.live = _ ∧ ∀ x, ∀ h ∈ g.code.live, _ →
        ((g.removeInstruction e.flag).removeFlags breaks).seen x h = _
    refine ⟨hset2, ?_, fun x h hm hn => ?_⟩
    · rw [hlive2, hlive1, List.filter_filter]
      refine filter_congr fun a _ => ?_
      simp only [map_cons, mem_cons, not_or, Bool.decide_and, ne_eq, Bool.and_comm]
    · rw [map_cons, mem_cons, not_or] at hn
      have hm1 : h ∈ (g.removeInstruction e.flag).code.live := by
        rw [hlive1]
        exact mem_filter.2 ⟨hm, decide_eq_true hn.1⟩
      rw [hseen2 x h hm1 hn.2, hseen x h hm hn.1, Option.map_map]
      refine congrArg (fun p => (g.seen x h).map p) (funext fun i => ?_)
      rw [Function.comp_apply, rename_rename]
      refine rename_congr fun d _ => ?_
      change skip (breaks.map flag) (if d = e.flag then e.flag + 1 else d) = skip (e.flag :: breaks.map flag) d
      by_cases hd : d = e.flag
      · have hnm : e.flag + 1 ∉ breaks.map flag := fun hmem => by
          obtain ⟨e', he', heq⟩ := mem_map.1 hmem
          exact hapart e mem_cons_self e' (mem_cons_of_mem _ he') heq.symm
        rw [if_pos hd, skip_of_not_mem hnm, hd, skip_of_mem mem_cons_self]
      · rw [if_neg hd, skip_cons_of_ne hd]

/-- Links made to code that is there. -/
lemma seen_linkAll_map (hl : Legible g) (hr : ∀ s ∈ ss, g.code.role? s = some .leap) (hm : h ∈ g.code.live) (x : Handle) :
    (g.linkAll ss).seen x h = (g.seen x h).map fun i => if h ∈ ss then i.aim x else i := by
  obtain ⟨i, hi⟩ := seen_isSome hl.laid hm x
  rw [hi, seen_linkAll hr hi]
  rfl

lemma role?_of_writes (hw : Writes g code g') (hl : Legible g) (hm : h ∈ g.code.live) :
    g'.code.role? h = g.code.role? h := by
  obtain ⟨i, hi⟩ := seen_isSome hl.laid hm ((code.map Prod.fst).head?.getD 0)
  rw [role?, role?, shape?_of_seen hi, shape?_of_seen ((hw.seen 0 h hm).trans hi)]

/-- Behind a loop its items are dropped, and then its exits meet. -/
lemma seen_dropN_linkAll (hl : Legible g) (hg : Settled g)
    (hss : ∀ h ∈ ss, h ∈ g.code.live ∧ g.code.role? h = some .leap) (count : Nat) :
    ∃ r : Code, r.map Prod.snd = replicate count (bare .drop) ∧
      ((g.dropN count).linkAll ss).code.live = g.code.live ++ r.map Prod.fst ∧
      (∀ x, ((g.dropN count).linkAll ss).listing x (r.map Prod.fst) = r) ∧
      ∀ x, ∀ h ∈ g.code.live,
        ((g.dropN count).linkAll ss).seen x h = (g.seen x h).map fun i => if h ∈ ss then i.aim x else i := by
  obtain ⟨r, hr, hw⟩ := (Writes.refl hl).dropN count
  rw [nil_append] at hw
  have hrole : ∀ s ∈ ss, (g.dropN count).code.role? s = some .leap := fun s hs =>
    (role?_of_writes hw hl (hss s hs).1).trans (hss s hs).2
  have hapart : ∀ h ∈ r.map Prod.fst, h ∉ ss := fun h hm hs => by
    have hnodup := hw.legible.laid.nodup
    rw [hw.live] at hnodup
    exact disjoint_of_nodup_append hnodup (hss h hs).1 hm
  refine ⟨r, hr, ?_, fun x => ?_, fun x h hm => ?_⟩
  · rw [Sound.linkAll_eq]
    exact hw.live
  · refine (listing_congr fun h hm => ?_).trans (hw.reads x)
    rw [seen_linkAll_map hw.legible hrole (hw.mem_live hm)]
    simp only [if_neg (hapart h hm), Option.map_id']
  · rw [seen_linkAll_map hw.legible hrole (hw.old_mem_live hm), hw.seen x h hm, hg.seen]

/-- The end of a loop with the given flags and exits: the items that it keeps are dropped, and then the exits meet, at
the jump over the `else` part if there is one. -/
structure LoopFinished (hasElse : Bool) (flags jumps : List Handle) (kept : Nat) (g : Generator) (r : Code) (o : Option Handle)
    (gate : List Handle) (g' : Generator) : Prop where
  drops : r.map Prod.snd = List.replicate kept (bare .drop)
  plain : hasElse = false → o = none
  guarded : hasElse = true → jumps ≠ [] → o.isSome
  elseGuards : g'.elseGuards = if hasElse then o :: g.elseGuards else g.elseGuards
  live : g'.code.live = g.code.live.filter (· ∉ taken o flags) ++ (r.map Prod.fst ++ gate)
  reads : ∀ x, g'.listing x (r.map Prod.fst) = r
  gate : o = none ∧ gate = [] ∨ ∃ f q, o = some q ∧ gate = [f, q] ∧ (∀ x, g'.seen x f = some (bare (.pushBool false))) ∧
    ∀ x, g'.seen x q = some ⟨.jump .ifTrue false, [], .unresolved⟩
  seen : ∀ x, ∀ h ∈ g.code.live, h ∉ taken o flags → g'.seen x h =
    (g.seen x h).map fun i => if h ∈ jumps then i.aim (o.getD x) else i.rename (skip (taken o flags))

/-- **The end of a loop whose flags nobody tests**: the exits go behind it. -/
lemma Sound.finish_unflagged {hasElse : Bool} (hs : Sound c f? log X old g) (hg : Settled g) (hl : LoopSound old g.code loop)
    (hnext : ∀ e ∈ loop.breaks, g.code.role? (e.flag + 1) = some .leap ∧
      ∃ pre post, old = pre ++ e.flag :: (e.flag + 1) :: post)
    (hnd : (loop.breaks.map flag).Nodup) (hexits : ∀ h ∈ loop.breaks.map Break.jump, h ∈ old ∧ g.code.role? h = some .leap)
    (hflag : (hasElse && !loop.breaks.isEmpty) = false) :
    ∃ r, LoopFinished hasElse (loop.breaks.map flag) (loop.breaks.map jump) loop.kind.kept g r none []
      (g.finishLoop loop hasElse) := by
  have hs0 : Sound c f? log X old (g.popScope.restoreStack loop.stack) := hs.still rfl
  obtain ⟨hset1, hlive1, hseen1⟩ := hs0.seen_removeFlags hg hl.start.1 hl.start.2 hl.flags hnext hnd
  obtain ⟨old1, hs1, hg1⟩ := hs0.removeFlags hl.start.1 hl.start.2 hl.flags
  have hout1 := outline_of_context _ (context_removeFlags (g.popScope.restoreStack loop.stack) loop.breaks)
  have hexits1 : ∀ h ∈ loop.breaks.map Break.jump, h ∈ old1 ∧ _ := fun h hh => hg1.leap (hexits h hh)
  unfold Generator.finishLoop
  simp only [hflag, Bool.false_eq_true, if_false]
  change _ = g.code.live.filter _ at hlive1
  change ∀ x, ∀ h ∈ g.code.live, _ → _ = (g.seen x h).map _ at hseen1
  have hguards : ((g.popScope.restoreStack loop.stack).removeFlags loop.breaks).elseGuards = g.elseGuards :=
    (eq_of_outline hout1).2.2.1
  generalize (g.popScope.restoreStack loop.stack).removeFlags loop.breaks = g1 at *
  obtain ⟨r, hr, hlive2, hread2, hseen2⟩ := seen_dropN_linkAll hs1.legible hset1
    (fun h hh => ⟨hs1.mem_live (hexits1 h hh).1, (hexits1 h hh).2⟩) loop.kind.kept
  have hguards2 : ((g1.dropN loop.kind.kept).linkAll (loop.breaks.map jump)).elseGuards = g.elseGuards := by
    rw [← hguards]
    exact (eq_of_outline ((outline_linkAll _ _).trans (outline_dropN _ _))).2.2.1
  generalize (g1.dropN loop.kind.kept).linkAll (loop.breaks.map jump) = g2 at *
  have hmem : ∀ h ∈ g.code.live, h ∉ loop.breaks.map flag → h ∈ g1.code.live := fun h hm hn => by
    rw [hlive1]
    exact mem_filter.2 ⟨hm, decide_eq_true hn⟩
  have hseen : ∀ x, ∀ h ∈ g.code.live, h ∉ loop.breaks.map flag → g2.seen x h = (g.seen x h).map fun i =>
      if h ∈ loop.breaks.map Break.jump then i.aim x else i.rename (skip (loop.breaks.map Break.flag)) := fun x h hm hn => by
    rw [hseen2 x h (hmem h hm hn), hseen1 x h hm hn, Option.map_map]
    refine congrArg (fun p => (g.seen x h).map p) (funext fun i => ?_)
    simp only [Function.comp_apply]
    split_ifs <;> rfl
  rw [hlive1, ← append_nil (r.map Prod.fst)] at hlive2
  have hnone : hasElse = true → loop.breaks.map Break.jump ≠ [] → (none : Option Handle).isSome := fun helse hne => by
    simp_all
  cases hasElse with
  | true => exact ⟨r, hr, fun _ => rfl, hnone, congrArg _ hguards2, hlive2, hread2, .inl ⟨rfl, rfl⟩, hseen⟩
  | false => exact ⟨r, hr, fun _ => rfl, hnone, hguards2, hlive2, hread2, .inl ⟨rfl, rfl⟩, hseen⟩

/-- **The end of a loop whose flags are tested**: the exits go to the test, which is a jump behind the natural exit. -/
lemma Sound.finish_flagged (hs : Sound c f? log X old g) (hg : Settled g)
    (hexits : ∀ h ∈ loop.breaks.map Break.jump, h ∈ old ∧ g.code.role? h = some .leap) (hflag : loop.breaks ≠ []) :
    ∃ r f q, LoopFinished true (loop.breaks.map Break.flag) (loop.breaks.map Break.jump) loop.kind.kept g r (some q) [f, q]
      (g.finishLoop loop true) := by
  have hs0 : Sound c f? log X old (g.popScope.restoreStack loop.stack) := hs.still rfl
  have htest : (true && !loop.breaks.isEmpty) = true := by simpa using hflag
  unfold Generator.finishLoop
  simp only [htest, if_true]
  obtain ⟨r, hr, hw0⟩ := (Writes.refl hs0.legible).dropN loop.kind.kept
  have hw := hw0.op (o := .pushBool false) rfl 0 (some .bool)
  rw [nil_append] at hw
  have hguards : (((g.popScope.restoreStack loop.stack).dropN loop.kind.kept).op (.pushBool false) 0 (some .bool)).elseGuards =
      g.elseGuards := (eq_of_outline ((outline_op _ _ _ _).trans (outline_dropN _ _))).2.2.1
  have hlive1 : ∀ h ∈ loop.breaks.map Break.jump, h ∈ g.code.live := fun h hh => hs.mem_live (hexits h hh).1
  have hseen1 := hw.seen
  change ∀ x, ∀ h ∈ g.code.live, _ = g.seen _ h at hseen1
  have hlive2 := hw.live
  change _ = g.code.live ++ _ at hlive2
  have hrole : ∀ s ∈ loop.breaks.map Break.jump, _ := fun s hs =>
    (role?_of_writes hw hs0.legible (hlive1 s hs)).trans (hexits s hs).2
  generalize ((g.popScope.restoreStack loop.stack).dropN loop.kind.kept).next = f at *
  generalize ((g.popScope.restoreStack loop.stack).dropN loop.kind.kept).op (.pushBool false) 0 (some .bool) = g1 at *
  have hmem : ∀ s ∈ loop.breaks.map Break.jump, s ∈ g1.code.live ∧ g1.code.role? s = some .leap := fun s hs => by
    refine ⟨?_, hrole s hs⟩
    rw [hlive2]
    exact mem_append_left _ (hlive1 s hs)
  have hapart : ∀ h ∈ (r ++ [(f, bare (.pushBool false))]).map Prod.fst, h ∉ loop.breaks.map Break.jump := fun h hm hh => by
    have hnodup := hw.legible.laid.nodup
    rw [hlive2] at hnodup
    exact disjoint_of_nodup_append hnodup (hlive1 h hh) hm
  have hl2 : Legible (g1.linkAll (loop.breaks.map Break.jump)) := hw.legible.linkAll hmem
  have hguards2 : (g1.linkAll (loop.breaks.map Break.jump)).elseGuards = g.elseGuards :=
    ((eq_of_outline (outline_linkAll _ _)).2.2.1).trans hguards
  have hlive3 : (g1.linkAll (loop.breaks.map Break.jump)).code.live = g1.code.live := by rw [Sound.linkAll_eq]
  have hseen2 : ∀ x, ∀ h ∈ g1.code.live, (g1.linkAll (loop.breaks.map Break.jump)).seen x h =
      (g1.seen x h).map fun i => if h ∈ loop.breaks.map Break.jump then i.aim x else i := fun x h hm =>
    seen_linkAll_map hw.legible hrole hm x
  generalize g1.linkAll (loop.breaks.map Break.jump) = g2 at *
  -- the test of the flag comes next
  have ha := Adds.append hl2 (.unaimed .ifTrue)
  have hread : ∀ x, (g2.append (.unaimed .ifTrue)).listing x (r.map Prod.fst ++ [f]) =
      r ++ [(f, bare (.pushBool false))] := fun x => by
    have hread := hw.reads g2.next
    rw [map_append] at hread hapart hlive2
    refine Eq.trans (listing_congr fun h hm => ?_) hread
    have hm1 : h ∈ g1.code.live := by
      rw [hlive2]
      exact mem_append_right _ hm
    refine (ha.seen x h (hlive3 ▸ hm1)).trans ?_
    rw [hseen2 _ h hm1]
    simp only [if_neg (hapart h hm), Option.map_id', head?_cons, Option.getD_some]
  have hf : ∀ x, _ = some (bare (.pushBool false)) := fun x =>
    (mem_listing (e := (f, bare (.pushBool false))).1 (by rw [hread x]; simp)).2
  refine ⟨r, f, g2.next, hr, by simp, fun _ _ => rfl, ?_, ?_, fun x => ?_, .inr ⟨f, g2.next, rfl, rfl, hf, fun x => ?_⟩,
    fun x h hm _ => ?_⟩
  · change some g2.next :: (g2.append (.unaimed .ifTrue)).elseGuards = _
    rw [(eq_of_outline (outline_append g2 _)).2.2.1, hguards2]
    rfl
  · refine (live_append g2 _).trans ?_
    rw [hlive3, hlive2, taken]
    simp [next]
  · have hall := hread x
    rw [listing_append, listing_cons (hf x)] at hall
    exact append_cancel_right hall
  · exact hl2.seen_append_leap rfl
  · have hm1 : h ∈ g1.code.live := by
      rw [hlive2]
      exact mem_append_left _ hm
    refine (ha.seen x h (hlive3 ▸ hm1)).trans ?_
    rw [hseen2 _ h hm1, hseen1 _ h hm, hg.seen _ x, taken]
    simp [rename_skip_nil]

/-- **The end of a loop.** -/
lemma Sound.finished (hs : Sound c f? log X old g) (hg : Settled g) (hl : LoopSound old g.code loop)
    (hnext : ∀ e ∈ loop.breaks, g.code.role? (e.flag + 1) = some .leap ∧
      ∃ pre post, old = pre ++ e.flag :: (e.flag + 1) :: post)
    (hnd : (loop.breaks.map flag).Nodup)
    (hexits : ∀ h ∈ loop.breaks.map Break.jump, h ∈ old ∧ g.code.role? h = some .leap) (hasElse : Bool) :
    ∃ r o gate, LoopFinished hasElse (loop.breaks.map flag) (loop.breaks.map jump) loop.kind.kept g r o gate
      (g.finishLoop loop hasElse) := by
  by_cases hflag : (hasElse && !loop.breaks.isEmpty) = true
  · obtain ⟨rfl, hne⟩ := Bool.and_eq_true_iff.1 hflag
    obtain ⟨r, f, q, hfin⟩ := hs.finish_flagged hg hexits (by simpa using hne)
    exact ⟨r, some q, [f, q], hfin⟩
  · obtain ⟨r, hfin⟩ := hs.finish_unflagged hg hl hnext hnd hexits (by simpa using hflag)
    exact ⟨r, none, [], hfin⟩

end Flags

/-! ### Advancing a loop over a collection -/

lemma head?_map_fst (code : Code) (x : Handle) : (code.map Prod.fst).head?.getD x = entry code x := by
  rw [entry, head?_map]

/-- What advances a loop: the instructions `before`, then, where the first jump of the loop leads, the instructions
`after`. -/
def Advances (advance : Generator → Handle → Generator) (before after : List Instruction) : Prop :=
  ∀ {g : Generator} {j : Handle}, Legible g → j ∈ g.code.live → g.code.role? j = some .leap →
    ∃ u v g₁, u.map Prod.snd = before ∧ v.map Prod.snd = after ∧ Writes g u g₁ ∧ Writes (g₁.linkNext j) v (advance g j)

lemma advances_index :
    Advances advanceIndex [bare .inc] [bare .dup, bare (.push 2), bare .pick, bare .size, bare .lt] := by
  intro g j hl hm hr
  have hinc := (Writes.refl hl).op (o := .inc) rfl 1 (some .nonNegInt)
  have hlink := hinc.legible.linkNext (hinc.old_mem_live hm) ((role?_of_writes hinc hl hm).trans hr)
  have hdup : Writes _ _ ((g.op .inc 1 (some .nonNegInt)).linkNext j).dup :=
    ((Writes.refl hlink).append (i := bare .dup) (fun _ => rfl) (by simp [role])).still rfl rfl rfl
  have hpush : Writes _ _ (((g.op .inc 1 (some .nonNegInt)).linkNext j).dup.pushIndex 2) :=
    (hdup.append (i := bare (.push 2)) (fun _ => rfl) (by simp [role])).still rfl rfl rfl
  have hpick := hpush.op (o := .pick) rfl 1 none
  have hany : Writes _ _ (((((g.op .inc 1 (some .nonNegInt)).linkNext j).dup.pushIndex 2).op .pick 1 none).pushType .any) :=
    hpick.still rfl rfl rfl
  have hall := (hany.op (o := .size) rfl 1 (some .nonNegInt)).op (o := .lt) rfl 2 (some .bool)
  exact ⟨_, _, _, rfl, rfl, hinc, hall⟩

lemma advances_iterator :
    Advances advanceIterator [] [bare .dup, ⟨.syscall, Service.iteratorNext.operand, .unresolved⟩] := by
  intro g j hl hm hr
  have hlink := hl.linkNext hm hr
  have hdup : Writes _ _ (g.linkNext j).dup :=
    ((Writes.refl hlink).append (i := bare .dup) (fun _ => rfl) (by simp [role])).still rfl rfl rfl
  have hcall : Writes _ _ ((g.linkNext j).dup.callService .iteratorNext 1 (some .bool)) :=
    (hdup.append (i := ⟨.syscall, Service.iteratorNext.operand, .unresolved⟩) (fun _ => rfl) (by simp [role])).still
      rfl rfl rfl
  exact ⟨[], _, g, rfl, rfl, .refl hl, hcall⟩

/-- **Advancing a loop over a collection**: its `continue`s and the end of its body lead to what advances it, and its
first jump to the test. -/
lemma seen_advanceLoop {loop : OpenLoop} {d : Handle} {advance : Generator → Handle → Generator}
    {before after : List Instruction} (hadv : Advances advance before after) (hl : Legible g)
    (hcont : ∀ h ∈ loop.continues, h ∈ g.code.live ∧ g.code.role? h = some .leap)
    (hstart : loop.startJump ∈ g.code.live ∧ g.code.role? loop.startJump = some .leap) :
    ∃ (u v : Code) (k : Handle), u.map Prod.snd = before ∧ v.map Prod.snd = after ∧
      Settled (g.advanceLoop loop d advance) ∧
      (g.advanceLoop loop d advance).code.live = g.code.live ++ (u.map Prod.fst ++ (v.map Prod.fst ++ [k])) ∧
      (∀ x, (g.advanceLoop loop d advance).listing x (u.map Prod.fst ++ v.map Prod.fst) = u ++ v) ∧
      (∀ x, (g.advanceLoop loop d advance).seen x k = some (goto .ifTrue d)) ∧
      ∀ x, ∀ h ∈ g.code.live, (g.advanceLoop loop d advance).seen x h =
        (g.seen (entry u (entry v k)) h).map fun i =>
          if h = loop.startJump then i.aim (entry v k) else if h ∈ loop.continues then i.aim (entry u (entry v k)) else i := by
  have hl0 : Legible ((g.restoreStack loop.stack).linkAll loop.continues) :=
    (hl.still rfl rfl rfl : Legible (g.restoreStack loop.stack)).linkAll hcont
  have hlive0 : ((g.restoreStack loop.stack).linkAll loop.continues).code = g.code := by rw [Sound.linkAll_eq]; rfl
  have hseen0 : ∀ x, ∀ h ∈ g.code.live, ((g.restoreStack loop.stack).linkAll loop.continues).seen x h =
      (g.seen x h).map fun i => if h ∈ loop.continues then i.aim x else i := fun x h hm =>
    seen_linkAll_map (g := g.restoreStack loop.stack) (hl.still rfl rfl rfl) (fun s hs => (hcont s hs).2) hm x
  unfold Generator.advanceLoop
  dsimp only
  generalize (g.restoreStack loop.stack).linkAll loop.continues = g0 at *
  obtain ⟨u, v, g1, hu, hv, hw1, hw2⟩ := hadv hl0 (by rw [hlive0]; exact hstart.1) (by rw [hlive0]; exact hstart.2)
  have hmem1 : ∀ h ∈ g.code.live, h ∈ g1.code.live := fun h hm => hw1.old_mem_live (by rw [hlive0]; exact hm)
  have hrole1 : g1.code.role? loop.startJump = some .leap :=
    (role?_of_writes hw1 hl0 (by rw [hlive0]; exact hstart.1)).trans (by rw [hlive0]; exact hstart.2)
  have hlink : Legible (g1.linkNext loop.startJump) := hw1.legible.linkNext (hmem1 _ hstart.1) hrole1
  have hseen1 : ∀ x, ∀ h ∈ g1.code.live, (g1.linkNext loop.startJump).seen x h =
      (g1.seen x h).map fun i => if h ∈ [loop.startJump] then i.aim x else i := fun x h hm =>
    seen_linkAll_map hw1.legible (fun s (hs : s ∈ [loop.startJump]) => mem_singleton.1 hs ▸ hrole1) hm x
  generalize advance g0 loop.startJump = g2 at *
  have ha := Adds.append hw2.legible ⟨.jump .ifTrue false, [], .code d⟩
  have hlive2 : g2.code.live = g.code.live ++ (u.map Prod.fst ++ v.map Prod.fst) := by
    rw [hw2.live]
    change g1.code.live ++ _ = _
    rw [hw1.live, hlive0, append_assoc]
  have hfresh : loop.startJump ∉ u.map Prod.fst := fun hm => by
    have hnodup := hw1.legible.laid.nodup
    rw [hw1.live, hlive0] at hnodup
    exact disjoint_of_nodup_append hnodup hstart.1 hm
  refine ⟨u, v, g2.next, hu, hv, settled_append _ _, ?_, fun x => ?_, fun x => ?_, fun x h hm => ?_⟩
  · refine (live_append g2 _).trans ?_
    rw [hlive2]
    simp only [append_assoc]
    rfl
  · have hall : (g2.append ⟨.jump .ifTrue false, [], .code d⟩).listing x (u.map Prod.fst ++ v.map Prod.fst) = u ++ v := by
      rw [ha.listing fun h hm => by rw [hlive2]; exact mem_append_right _ hm, listing_append, hw2.reads,
        hw2.listing fun h hm => hw1.mem_live hm]
      refine congrArg (· ++ v) ((listing_congr fun h hm => ?_).trans (hw1.reads (entry v g2.next)))
      have hne : h ∉ [loop.startJump] := fun he => hfresh (mem_singleton.1 he ▸ hm)
      rw [hseen1 _ h (hw1.mem_live hm), head?_map_fst]
      simp only [if_neg hne, Option.map_id', head?_cons, Option.getD_some]
    exact hall
  · exact hw2.legible.seen_append_leap rfl
  · refine (ha.seen x h (by rw [hlive2]; exact mem_append_left _ hm)).trans ?_
    rw [head?_cons, Option.getD_some, hw2.seen _ h (hmem1 h hm), hseen1 _ h (hmem1 h hm),
      hw1.seen _ h (by rw [hlive0]; exact hm), head?_map_fst, head?_map_fst, hseen0 _ h hm, Option.map_map]
    refine congrArg (fun p => Option.map p _) (funext fun i => ?_)
    simp only [Function.comp_apply, mem_singleton]
    split_ifs <;> rfl

end Generator

end NeoScript
