import NeoScript.Proofs.Generator.Atop
import NeoScript.Proofs.Generator.Reopening

/-!
# Closing a loop behind a state

When a loop is closed, its jumps get their targets, its test is moved and its flags may be removed. All of this stays
inside the code of the loop, behind its first instruction, so the code in front of the loop remains as it was.
-/

namespace NeoScript.Generator

open List Option CodeMap

variable {b c g g' : Generator} {new new' pre post old old' : List Handle} {f? : Option String}
  {log log' : List (Handle × String)}
  {X Y : Handle → Prop} {h d : Handle}

namespace Ahead

section

variable (ha : Ahead b new g)
include ha

/-- A change of the new code only, behind its first instruction. -/
lemma confined (hne : new ≠ []) (hhead : new'.head? = new.head?)
    (hlive : g'.code.live = b.code.live ++ new') (hsub : ∀ h ∈ new', h ∈ new)
    (hnext : g'.code.nextHandle = g.code.nextHandle) (hshape : g'.code.shape? = g.code.shape?)
    (hframe : g'.frame = g.frame) (hcode : ∀ h ∈ b.code.live, g'.code.instruction? h = g.code.instruction? h)
    (hwaits : g'.waitingOf = g.waitingOf) (hpending : ∀ l ∈ g'.pending, ∃ s ∈ new', l.source? = some s)
    (hentries : g'.entries = g.entries) : Ahead b new' g' := by
  have hne' : new' ≠ [] := by
    rintro rfl
    obtain ⟨x, new, rfl⟩ := exists_cons_of_ne_nil hne
    cases hhead
  have htoward : b.toward new' = b.toward new := by rw [toward, toward, hhead]
  refine ⟨hlive, fun h hm => ha.fresh h (hsub h hm), ?_, ?_, ?_, ?_, fun l hnil => absurd hnil hne', ?_, fun _ => hpending, ?_⟩
  · rw [hnext]
    exact ha.grown
  · intro h hlt
    rw [hshape]
    exact ha.shape h hlt
  · exact hframe.trans ha.frame
  · intro h hm hc
    rw [hcode h hm, ha.code h hm hc, htoward]
  · intro ho m h hm
    rw [hwaits, htoward]
    exact ha.waits ho m h hm
  · intro ho m _
    rw [hentries, htoward]
    exact ha.entries ho m fun hnil => absurd hnil hne

lemma setTarget (hl : b.code.Laid) (hs : h ∈ new) (t : Target) : Ahead b new (g.setTarget h t) := by
  have hne := ne_nil_of_mem hs
  refine ha.confined hne rfl ?_ (fun _ hm => hm) ?_ ?_ ?_ (fun x hx => ?_) ?_ ?_ ?_
  · rw [code_setTarget, live_setTarget, ha.live]
  · rw [code_setTarget, nextHandle_setTarget]
  · rw [code_setTarget, shape?_setTarget]
  · exact frame_of_context (context_setTarget _ _ _)
  · rw [code_setTarget, instruction?_setTarget, if_neg]
    rintro rfl
    exact ha.not_mem_new hl hx hs
  · exact waitingOf_congr (waiting_setTarget _ _ _)
  · rw [pending_setTarget]
    exact ha.sources hne
  · exact entries_setTarget _ _ _

lemma pointAll (hl : b.code.Laid) {ss : List Handle} (hs : ∀ s ∈ ss, s ∈ new) (d : Handle) :
    Ahead b new (g.pointAll ss d) := by
  induction ss generalizing g with
  | nil => exact ha
  | cons s ss ih => exact ih (ha.setTarget hl (hs s mem_cons_self) _) fun s hm => hs s (mem_cons_of_mem _ hm)

/-- Giving up promises. -/
lemma unlink (hne : new ≠ []) (p : Link → Bool) : Ahead b new { g with pending := g.pending.filter p } := by
  have hsources : ∀ l ∈ g.pending.filter p, ∃ s ∈ new, l.source? = some s := fun l hl =>
    ha.sources hne l (mem_filter.1 hl).1
  generalize g.pending.filter p = links at hsources
  exact ha.confined hne rfl ha.live (fun _ hm => hm) rfl rfl rfl (fun _ _ => rfl) rfl hsources rfl

/-- Once code stands behind `b`, the links are those of new code. -/
lemma resolveAll (hl : b.code.Laid) (hlg : g.code.Laid) (hne : new ≠ []) (d : Handle) : Ahead b new (g.resolveAll d) := by
  have hnot : ∀ m, .entry m ∉ g.pending := ha.entry_not_mem hne
  rw [resolveAll_eq]
  refine ha.confined hne rfl ?_ (fun _ hm => hm) ?_ ?_ ?_ (fun x hx => ?_) ?_ ?_ ?_
  · rw [live_resolveLinks]
    exact ha.live
  · rw [nextHandle_resolveLinks]
  · rw [shape?_resolveLinks]
  · exact frame_of_context (context_resolveLinks _ _ _)
  · obtain ⟨i, hi⟩ := hlg.instruction?_isSome (h := x) (by rw [ha.live]; exact mem_append_left _ hx)
    rw [hi]
    refine instruction?_resolveLinks_other (g := { g with pending := [] }) hi (fun l hlp hsrc => ?_)
      fun m hm => absurd hm (hnot m)
    obtain ⟨s, hs, hsrc'⟩ := ha.sources hne l hlp
    obtain rfl := some.inj (hsrc.symm.trans hsrc')
    exact ha.not_mem_new hl hx hs
  · exact waitingOf_congr ((resolveLinks_of_not_mem (g := { g with pending := [] }) d hnot).2)
  · rw [pending_resolveLinks]
    intro l hlp
    cases hlp
  · exact (resolveLinks_of_not_mem (g := { g with pending := [] }) d hnot).1

/-- Moving code behind all other new code, from an instruction that is not the first. -/
lemma moveTest (hlg : g.code.Laid) {first : Handle} (last : Handle) (hm : first ∈ new) (hhead : new.head? ≠ some first) :
    ∃ new', (∀ x, x ∈ new' ↔ x ∈ new) ∧ new'.head? = new.head? ∧ Ahead b new' (g.moveTest first last) := by
  obtain ⟨new', hmem, hrew, hlive, -, hpend⟩ := Sound.rewired_moveTest hlg ha.live last hm hhead
  refine ⟨new', hmem, hrew.head, ha.confined (ne_nil_of_mem hm) hrew.head hlive hrew.sub hrew.next hrew.shape hrew.frame
    (fun x _ => congrFun (Sound.instruction?_moveTest g first last) x) hrew.waitingOf (fun l hl => ?_) hrew.entries⟩
  obtain ⟨s, hs, hsrc⟩ := ha.sources (ne_nil_of_mem hm) l (hpend ▸ hl)
  exact ⟨s, (hmem s).2 hs, hsrc⟩

lemma closeTest (hl : b.code.Laid) (hlg : g.code.Laid) {test bodyJump : Handle}
    (htest : test ∈ new) (hhead : new.head? ≠ some test) (hm : bodyJump ∈ new) :
    ∃ new', (∀ x, x ∈ new' ↔ x ∈ new) ∧ new'.head? = new.head? ∧ Ahead b new' (g.closeTest test bodyJump) := by
  have hne := ne_nil_of_mem hm
  unfold Generator.closeTest
  split_ifs
  · exact ⟨new, fun _ => .rfl, rfl, (ha.unlink hne _).setTarget hl hm _⟩
  · exact (ha.resolveAll hl hlg hne test).moveTest ((retargeted_resolveLinks _ _ _).laid hlg) bodyJump htest hhead

end

/-- What old code refers to: old code, or the first instruction behind it. -/
lemma refs (ha : Ahead b (d :: new) g) (hb : Sound c f? log Y old' b) (hm : h ∈ b.code.live) {i : Instruction}
    (hi : g.code.instruction? h = some i) (hr : i.opcode.role ≠ .call) {x : Handle} (hx : x ∈ i.refs) :
    x = d ∨ x ∈ b.code.live := by
  obtain ⟨j, hj⟩ := hb.laid.instruction?_isSome hm
  have hrole : j.opcode.role = i.opcode.role := by
    have h := ha.role? hb.laid hm
    rw [role?_eq hi, role?_eq hj] at h
    exact (some.inj h).symm
  have hcode := ha.code h hm (.inl (by rw [role?_eq hj, hrole]; simpa using hr))
  rw [hi, toward_cons, hb.instruction?_resolveAll hj] at hcode
  obtain rfl := some.inj hcode
  exact (mem_refs_aimedBy hx).imp id fun hold => hb.refs_live hm hj hold

/-- Removing a constant that is not the first of the new code. -/
lemma excise (ha : Ahead b (d :: (pre ++ h :: post)) g) (hs : Sound c f? log X old g) (hb : Sound c f? log' Y old' b)
    (hc : g.code.constant? h = some true) : Ahead b (d :: (pre ++ post)) (g.removeInstruction h) := by
  have hold : old = (old' ++ d :: pre) ++ h :: post := by
    have hlive := hs.live.symm.trans ha.live
    rw [hb.live, append_assoc] at hlive
    rw [append_cancel_left hlive]
    simp
  have hpre : old' ++ d :: pre ≠ [] := by simp
  have hby := hs.bypassed hold hpre hc
  have hcalls := hs.call_refs hold hpre
  have hnd : (d :: (pre ++ h :: post)).Nodup := by
    have hnd := hs.laid.nodup
    rw [ha.live] at hnd
    exact (nodup_append.1 hnd).2.1
  have hne : h ≠ d := by
    rintro rfl
    exact (nodup_cons.1 hnd).1 (by simp)
  have hlive : (g.removeInstruction h).code.live = b.code.live ++ d :: (pre ++ post) := by
    rw [hby.live, hb.live]
    simp
  -- nothing old refers to the constant
  have hfree : ∀ x ∈ b.code.live, ∀ i, g.code.instruction? x = some i → h ∉ i.refs := by
    intro x hx i hi hm
    by_cases hr : i.opcode.role = .call
    · exact hcalls x (by rw [ha.live]; exact mem_append_left _ hx) i hi hr hm
    · rcases ha.refs hb hx hi hr hm with hd | hlive
      · exact hne hd
      · exact ha.not_mem_new hb.laid hlive (by simp)
  refine ha.confined (by simp) rfl hlive (fun x hx => ?_) hby.next hby.shape (frame_of_context hby.context)
    (fun x hx => ?_) hby.waitingOf (fun l hl => ?_) hby.entries
  · simp only [mem_cons, mem_append] at hx ⊢
    tauto
  · obtain ⟨i, hi⟩ := hs.laid.instruction?_isSome (h := x) (by rw [ha.live]; exact mem_append_left _ hx)
    exact (hby.same x i hi (hfree x hx i hi)).trans hi.symm
  · rcases hby.mem_pending.1 hl with hlg | ⟨-, x, hx, i, hi, hplain, hlost⟩
    · obtain ⟨s, hsm, hsrc⟩ := ha.sources (by simp) l hlg
      refine ⟨s, ?_, hsrc⟩
      have hsh : s ≠ h := by
        rintro rfl
        obtain ⟨i, hi⟩ := hs.laid.instruction?_isSome (h := s) (by rw [ha.live]; simp)
        have hplain : i.opcode.role = .plain :=
          role_of_role? hi (role?_of_constant hc)
        exact hs.linksTyped.source?_ne hi (.inr hplain) l hlg hsrc
      simp only [mem_cons, mem_append] at hsm ⊢
      tauto
    · have hm := (hs.source_of_lost hold hpre hx hi hplain hlost).1
      have hxl : x ∈ b.code.live ++ d :: (pre ++ post) := hlive ▸ hby.live.symm ▸ hx
      exact ⟨x, (mem_append.1 hxl).resolve_left fun ho => hfree x ho i hi hm, source_of_mem_lostLinks hlost⟩

/-- Removing the flag of an exit, which is not the first of the new code. Only the flag is lost. -/
lemma removeFlag (ha : Ahead b new g) (hs : Sound c f? log X old g) (hb : Sound c f? log' Y old' b) {flag : Handle}
    (hflag : b.code.nextHandle ≤ flag) (hhead : new.head? ≠ some flag) (hc : g.code.constant? flag = some true) :
    ∃ new', new'.head? = new.head? ∧ (∀ x ∈ new, g.code.constant? x ≠ some true → x ∈ new') ∧
      Ahead b new' (g.removeInstruction flag) := by
  by_cases hlive : flag ∈ g.code.live
  · have hnew : flag ∈ new := by
      rw [ha.live, mem_append] at hlive
      exact hlive.resolve_left fun ho => Nat.lt_irrefl _ (Nat.lt_of_lt_of_le (hb.laid.lt_next ho) hflag)
    obtain ⟨pre, post, rfl⟩ := append_of_mem hnew
    cases pre with
    | nil => exact absurd rfl hhead
    | cons d pre =>
      refine ⟨d :: (pre ++ post), rfl, fun x hx hne => ?_, ha.excise hs hb hc⟩
      have hxf : x ≠ flag := by
        rintro rfl
        exact hne hc
      simpa [hxf] using hx
  · rw [removeInstruction, hs.laid.start?_eq_none hlive]
    exact ⟨new, rfl, fun x hx _ => hx, ha⟩

lemma removeFlags (ha : Ahead b new g) (hs : Sound c f? log X old g) (hb : Sound c f? log' Y old' b)
    {start : Handle} (hstart : start ∈ old) (hr : g.code.role? start = some .leap) {breaks : List Break}
    (hflags : ∀ e ∈ breaks, start < e.flag ∧ g.code.constant? e.flag = some true)
    (hnew : ∀ e ∈ breaks, b.code.nextHandle ≤ e.flag ∧ new.head? ≠ some e.flag) :
    ∃ new', new'.head? = new.head? ∧ (∀ x ∈ new, g.code.constant? x ≠ some true → x ∈ new') ∧
      Ahead b new' (g.removeFlags breaks) := by
  induction breaks generalizing g new old with
  | nil => exact ⟨new, rfl, fun x hx _ => hx, ha⟩
  | cons e breaks ih =>
    obtain ⟨hlt, hc⟩ := hflags e mem_cons_self
    obtain ⟨hold, hhead⟩ := hnew e mem_cons_self
    obtain ⟨new1, hhead1, hmem1, ha1⟩ := ha.removeFlag hs hb hold hhead hc
    obtain ⟨old1, hs1, hg1⟩ := hs.removeFlag hstart hlt hc
    have hshape := (removeInstruction_keeps hs.laid e.flag).2
    have hconst : ∀ x, (g.removeInstruction e.flag).code.constant? x = g.code.constant? x := fun x => by
      rw [constant?, hshape, constant?]
    obtain ⟨new2, hhead2, hmem2, ha2⟩ := ih ha1 hs1 (hg1.leap ⟨hstart, hr⟩).1 (hg1.role hr)
      (fun e' he' => by rw [hconst]; exact hflags e' (mem_cons_of_mem _ he'))
      fun e' he' => by rw [hhead1]; exact hnew e' (mem_cons_of_mem _ he')
    refine ⟨new2, hhead2.trans hhead1, fun x hx hne => ?_, ha2⟩
    exact hmem2 x (hmem1 x hx hne) (by rw [hconst]; exact hne)

end Ahead

end NeoScript.Generator
