import NeoScript.Generator.Invocation
import NeoScript.Generator.Loop
import NeoScript.Proofs.Generator.Clearing
import NeoScript.Proofs.Snippet.Proper

/-!
# Emitting code keeps the invariant

The ways in which code is emitted besides single instructions: calls, snippets with their own jumps, the removal
of a constant that was just pushed, and the move of a loop's test behind its body.
-/

namespace NeoScript

open List Option CodeMap Bool Generator Snippet

namespace Generator

/-- The open method and the open constructs in it. -/
def constructs (g : Generator) : Option Frame × List OpenBranch × List OpenLoop × List (Option Handle) × List OpenTry :=
  (g.frame, g.branches, g.loops, g.elseGuards, g.tries)

lemma constructs_of_context {g g' : Generator} (h : g'.context = g.context) : g'.constructs = g.constructs :=
  (congrArg constructs h :)

/-- What remains of new code when more is emitted: all but constants, and nothing else becomes the first
instruction. -/
structure Grows (new new' : List Handle) (g g' : Generator) : Prop where
  constructs : g'.constructs = g.constructs
  kept : ∀ h ∈ new, g.code.constant? h = some false → h ∈ new'
  shape : ∀ h, g.code.shape? h ≠ none → g'.code.shape? h = g.code.shape? h
  head : ∀ h ∈ new, g.code.constant? h = some false → new.head? ≠ some h → new'.head? ≠ some h

namespace Grows

variable {new new' new'' : List Handle} {g g' g'' : Generator}

lemma of_code (hc : g'.code = g.code) (hk : g'.constructs = g.constructs) : Grows new new g g' :=
  ⟨hk, fun _ h _ => h, fun _ _ => by rw [hc], fun _ _ _ h => h⟩

variable (hg : Grows new new' g g')
include hg

lemma frame : g'.frame = g.frame := congrArg Prod.fst hg.constructs

lemma isSome (hf : g.frame.isSome) : g'.frame.isSome := by
  rwa [hg.frame]

lemma loops : g'.loops = g.loops := congrArg (fun c => c.2.2.1) hg.constructs

lemma role {h : Handle} {r : Role} (hr : g.code.role? h = some r) : g'.code.role? h = some r := by
  rw [role?_congr (hg.shape h fun e => by simp [role?, e] at hr), hr]

lemma constant {h : Handle} {c : Bool} (hc : g.code.constant? h = some c) : g'.code.constant? h = some c := by
  rwa [constant?, hg.shape h fun e => by simp [constant?, e] at hc]

lemma loop {l : OpenLoop} (hl : LoopSound new g.code l) : LoopSound new' g'.code l :=
  hl.mono hg.kept hg.shape hg.head

lemma leap {h : Handle} (hl : h ∈ new ∧ g.code.role? h = some .leap) : h ∈ new' ∧ g'.code.role? h = some .leap :=
  ⟨hg.kept h hl.1 (constant?_of_leap hl.2), hg.role hl.2⟩

lemma trans (hg' : Grows new' new'' g' g'') : Grows new new'' g g'' where
  constructs := hg'.constructs.trans hg.constructs
  kept := fun h hm hc => hg'.kept h (hg.kept h hm hc) (hg.constant hc)
  shape := fun h hs => by rw [hg'.shape h (by rwa [hg.shape h hs]), hg.shape h hs]
  head := fun h hm hc hh => hg'.head h (hg.kept h hm hc) (hg.constant hc) (hg.head h hm hc hh)

end Grows

namespace Sound

variable {b : Generator} {f? : Option String} {log : List (Handle × String)} {X Y : Handle → Prop}
  {new : List Handle} {g g' : Generator}

/-! ### Instructions -/

section

variable (hs : Sound b f? log X new g)
include hs

lemma append_of_plain {i : Instruction} (hr : i.opcode.role = .plain) (ha : i.Proper) :
    Sound b f? log X (new ++ [g.code.nextHandle]) (g.append i) :=
  hs.append none (fun _ => id) ⟨fun _ => ha, fun h => by simp [hr] at h, fun h => by simp [hr] at h,
    by simp [hr], nofun, Opcode.isWide_of_plain hr⟩

/-- A leap without target, which the operation under way will link. -/
lemma append_open {o : Opcode} (hr : o.role = .leap) (hn : o.isWide = false := by rfl) :
    Sound b f? log (fun x => X x ∨ x = g.code.nextHandle) (new ++ [g.code.nextHandle]) (g.emitOpen o) :=
  hs.append none (fun _ => .inl) ⟨fun h => by simp [hr] at h, fun _ => .inr ⟨rfl, .inr rfl⟩,
    fun h => by simp [hr] at h, by simp [hr], nofun, hn⟩

/-- A leap to an instruction that is already there. -/
lemma append_back {o : Opcode} {d : Handle} (hr : o.role = .leap) (hd : d ∈ new)
    (hne : new.head? ≠ some d) (hn : o.isWide = false := by rfl) :
    Sound b f? log X (new ++ [g.code.nextHandle]) (g.emitTarget o (.code d)) :=
  hs.append none (fun _ => id) ⟨fun h => by simp [hr] at h, fun _ => .inl ⟨d, hd, hne, rfl⟩,
    fun h => by simp [hr] at h, by simp [hr], nofun, hn⟩

/-- The entry into a protected block without handlers. -/
lemma append_enter :
    Sound b f? log X (new ++ [g.code.nextHandle]) (g.emitTarget (.tryEnter false) (.handlers none none)) :=
  hs.append none (fun _ => id) ⟨fun h => (by cases h), fun h => (by cases h), fun _ => rfl,
    by simp [Opcode.role], nofun, rfl⟩

end

/-- More code behind new code, in the order of emission. -/
lemma grows_concat {news : List Handle} (hctx : g'.context = g.context)
    (hshape : ∀ h < g.code.nextHandle, g'.code.shape? h = g.code.shape? h) : Grows new (new ++ news) g g' where
  constructs := constructs_of_context hctx
  kept := fun h hm _ => mem_append_left _ hm
  shape := fun h hs => hshape h (Nat.lt_of_not_le fun hge => hs (shape?_eq_none hge))
  head := fun h hm _ hne => by
    obtain ⟨a, new, rfl⟩ := exists_cons_of_ne_nil (ne_nil_of_mem hm)
    exact hne

lemma grows_append (new : List Handle) (g : Generator) (i : Instruction) :
    Grows new (new ++ [g.code.nextHandle]) g (g.append i) :=
  grows_concat (context_append g i) fun _ hlt => shape?_append_of_lt hlt

/-! ### Calls -/

/-- The call `c`, emitted just now, waits for the method `name`. -/
lemma await {c : Handle} {name : String} {i : Instruction} (hs : Sound b f? log X new g) (hc : c ∈ new)
    (hi : g.code.instruction? c = some i) (hr : i.opcode.role = .call) (hu : i.target = .unresolved)
    (hnot : ∀ m, c ∉ g.waitingOf m) (hlog : (c, name) ∈ log)
    (hstuck : ∀ d, g.entries.get? name = some d → d = c) (hX : ∀ x, X x → x = c ∨ Y x) :
    Sound b f? log Y new (g.await name c) := by
  have hwait : ∀ m h, h ∈ (g.await name c).waitingOf m ↔ h ∈ g.waitingOf m ∨ m = name ∧ h = c := fun m h => by
    simp only [waitingOf, Generator.await, Table.get?_insert]
    by_cases hm : m = name
    · simp [hm]
    · simp [hm]
  have hleapX : ∀ h ∈ new, g.code.role? h = some .leap → X h → Y h := fun h _ hrole hx => by
    refine (hX h hx).resolve_left ?_
    rintro rfl
    rw [role?_eq hi, hr] at hrole
    cases hrole
  refine { hs with
    leap := fun h hm j hj hl => ?leap
    call := fun h hm j hj hl => ?call
    waiting := fun m h hw => ?waiting
    once := fun m m' h hw hw' => ?once
    named := fun f hf => { hs.named f hf with
      waits := fun h m j hm hl hj hu => ?waits
      waiting := fun m h hw => ?logged
      stuck := fun m d h hw he => ?stuck } }
  case leap =>
    exact (hs.leap h hm j hj hl).imp id fun h' => ⟨h'.1, h'.2.imp id (Or.imp id
      (hleapX h hm ((role?_eq hj).trans (by rw [hl]))))⟩
  case call =>
    refine (hs.call h hm j hj hl).imp id fun h' => ⟨h'.1, ?_⟩
    rcases h'.2 with ⟨m, hw⟩ | ⟨hn, hx⟩
    · exact .inl ⟨m, (hwait m h).2 (.inl hw)⟩
    · rcases hX h hx with rfl | hx
      · exact .inl ⟨name, (hwait name h).2 (.inr ⟨rfl, rfl⟩)⟩
      · exact .inr ⟨hn, hx⟩
  case waiting =>
    rcases (hwait m h).1 hw with hw | ⟨rfl, rfl⟩
    · exact hs.waiting m h hw
    · exact ⟨hs.mem_live hc, i, hi, hr, hu⟩
  case once =>
    rcases (hwait m h).1 hw with hold | ⟨rfl, rfl⟩
    · rcases (hwait m' h).1 hw' with hold' | ⟨rfl, rfl⟩
      · exact hs.once m m' h hold hold'
      · exact absurd hold (hnot m)
    · rcases (hwait m' h).1 hw' with hw' | ⟨rfl, -⟩
      · exact absurd hw' (hnot m')
      · rfl
  case waits =>
    rcases (hs.named f hf).waits h m j hm hl hj hu with hw | ⟨hn, hx⟩
    · exact .inl ((hwait m h).2 (.inl hw))
    · rcases hX h hx with rfl | hx
      · exact .inl ((hwait m h).2 (.inr ⟨(hs.named f hf).unique h m name hm hlog, rfl⟩))
      · exact .inr ⟨hn, hx⟩
  case logged =>
    rcases (hwait m h).1 hw with hw | ⟨rfl, rfl⟩
    · exact (hs.named f hf).waiting m h hw
    · exact hlog
  case stuck =>
    rcases (hwait m h).1 hw with hw | ⟨rfl, rfl⟩
    · exact (hs.named f hf).stuck m d h hw he
    · exact hstuck d he

/-- **Emitting a call keeps the invariant**, with the call in the log. -/
lemma emitCall (hs : Sound b f? log X new g) (name : String) :
    Sound b f? ((g.code.nextHandle, name) :: log) X (new ++ [g.code.nextHandle]) (g.emitCall name) := by
  unfold Generator.emitCall
  cases he : g.entries.get? name with
  | some entry =>
    refine hs.append (some name) (fun _ => id) ⟨fun h => ?_, fun h => ?_, fun h => ?_, ?_, fun m hm => ?_, rfl⟩
    · cases h
    · cases h
    · cases h
    · exact ⟨fun _ => rfl, fun _ => rfl⟩
    · obtain rfl := some.inj hm
      exact .inl ⟨entry, rfl, he⟩
  | none =>
    have hstep : Sound b f? ((g.code.nextHandle, name) :: log) (fun x => X x ∨ x = g.code.nextHandle)
        (new ++ [g.code.nextHandle]) (g.emitOpen (.call false)) := by
      refine hs.append (some name) (fun _ => .inl) ⟨fun h => ?_, fun h => ?_, fun h => ?_, ?_, fun m hm => ?_, rfl⟩
      · cases h
      · cases h
      · cases h
      · exact ⟨fun _ => rfl, fun _ => rfl⟩
      · exact .inr ⟨rfl, .inr rfl⟩
    have hfresh : ∀ m, g.code.nextHandle ∉ g.waitingOf m := fun m hm =>
      Nat.lt_irrefl _ (hs.laid.lt_next (hs.waiting m _ hm).1)
    have hopen : (g.emitOpen (.call false)).code.target? g.next = some .unresolved := by
      rw [target?, next, emitOpen, emitTarget, hs.append_self]
      rfl
    dsimp only
    rw [if_pos hopen]
    refine hstep.await (i := ⟨.call false, [], .unresolved⟩) (by simp [next]) hs.append_self rfl rfl (fun m hm => ?_)
      mem_cons_self (fun d hd => ?_) fun x hx => hx.symm
    · rw [emitOpen, emitTarget, waitingOf_append] at hm
      split at hm
      · cases hm
      · exact hfresh m hm
    · rw [emitOpen, emitTarget, entries_append] at hd
      split at hd
      · exact (some.inj hd).symm
      · rw [he] at hd
        cases hd

/-! ### Snippets -/

lemma context_emitSnippet (g : Generator) (s : Snippet) : (g.emitSnippet s).context = g.context := by
  induction s generalizing g with
  | nil => rfl
  | op o | data o operand => exact context_append _ _
  | seq first second ih1 ih2 => exact (ih2 _).trans (ih1 g)
  | skip test body ih => exact (ih _).trans (context_append _ _)
  | loop body test again ih1 ih2 =>
    exact (context_append _ _).trans ((ih2 _).trans ((ih1 _).trans (context_append _ _)))

lemma emitSnippet_grows (g : Generator) (s : Snippet) : (g.emitSnippet s).code.nextHandle = g.code.nextHandle + s.length ∧
      ∀ h < g.code.nextHandle, (g.emitSnippet s).code.shape? h = g.code.shape? h := by
  induction s generalizing g with
  | nil => exact ⟨rfl, fun _ _ => rfl⟩
  | op o | data o operand => exact ⟨nextHandle_append _ _, fun h hlt => shape?_append_of_lt hlt⟩
  | seq first second ih1 ih2 =>
    obtain ⟨hn1, hs1⟩ := ih1 g
    obtain ⟨hn2, hs2⟩ := ih2 (g.emitSnippet first)
    refine ⟨by rw [emitSnippet, hn2, hn1, Snippet.length, Nat.add_assoc], fun h hlt => ?_⟩
    rw [emitSnippet, hs2 h (by rw [hn1]; exact Nat.lt_add_right _ hlt), hs1 h hlt]
  | skip test body ih =>
    obtain ⟨hn, hs⟩ := ih (g.emitJump test)
    have hnext : (g.emitJump test).code.nextHandle = g.code.nextHandle + 1 := nextHandle_append _ _
    rw [hnext] at hn hs
    refine ⟨hn.trans (Nat.add_right_comm _ _ _), fun h hlt => ?_⟩
    exact (hs h (Nat.lt_succ_of_lt hlt)).trans (shape?_append_of_lt hlt)
  | loop body test again ih1 ih2 =>
    obtain ⟨hn1, hs1⟩ := ih1 (g.emitJump .always)
    obtain ⟨hn2, hs2⟩ := ih2 (((g.emitJump .always).emitSnippet body).linkNext g.next)
    have hnext : (g.emitJump .always).code.nextHandle = g.code.nextHandle + 1 := nextHandle_append _ _
    change _ = ((g.emitJump .always).emitSnippet body).code.nextHandle + test.length at hn2
    change ∀ h < ((g.emitJump .always).emitSnippet body).code.nextHandle, _ at hs2
    rw [hnext] at hn1 hs1
    rw [hn1] at hn2 hs2
    refine ⟨(nextHandle_append _ _).trans ?_, fun h hlt => ?_⟩
    · rw [hn2, Snippet.length]
      grind
    · have hlt' : h < g.code.nextHandle + 1 + body.length := Nat.lt_add_right _ (Nat.lt_succ_of_lt hlt)
      refine (shape?_append_of_lt (by rw [hn2]; exact Nat.lt_add_right _ hlt')).trans ?_
      exact (hs2 h hlt').trans ((hs1 h (Nat.lt_succ_of_lt hlt)).trans (shape?_append_of_lt hlt))

lemma grows_emitSnippet (new : List Handle) (g : Generator) (s : Snippet) :
    Grows new (new ++ range' g.code.nextHandle s.length) g (g.emitSnippet s) :=
  grows_concat (context_emitSnippet g s) (emitSnippet_grows g s).2

/-- **Emitting a snippet keeps the invariant**: its jumps are linked to its own instructions, or wait for the next
one. -/
lemma emitSnippet {s : Snippet} (hs : Sound b f? log X new g) (hp : s.proper = true) :
    Sound b f? log X (new ++ range' g.code.nextHandle s.length) (g.emitSnippet s) := by
  induction s generalizing X new g with
  | nil => simpa [Snippet.length, emitSnippet] using hs
  | op o =>
    simp only [proper, and_eq_true, beq_iff_eq] at hp
    exact hs.append_of_plain hp.1.1 fun _ => hp.1.2
  | data o operand =>
    simp only [proper, and_eq_true, beq_iff_eq] at hp
    exact hs.append_of_plain hp.1.1 fun _ => hp.1.2
  | seq first second ih1 ih2 =>
    simp only [proper, and_eq_true] at hp
    have h2 := ih2 (ih1 hs hp.1) hp.2
    rwa [append_assoc, (emitSnippet_grows g first).1, range'_append_1] at h2
  | skip test body ih =>
    have hbody := ih (hs.append_open (o := .jump test false) rfl) hp
    rw [show (g.emitOpen (.jump test false)).code.nextHandle = g.code.nextHandle + 1 from nextHandle_append _ _,
      append_assoc, singleton_append, ← range'_succ] at hbody
    refine hbody.linkNext (by simp [next]) ?_ fun x hx => hx.symm
    have hgrow := (emitSnippet_grows (g.emitOpen (.jump test false)) body).2 g.code.nextHandle
      (by rw [emitOpen, emitTarget, nextHandle_append]; exact Nat.lt_succ_self _)
    refine (role?_congr hgrow).trans ?_
    rw [emitOpen, emitTarget, role?_append, if_pos rfl]
    rfl
  | loop body test again ih1 ih2 =>
    simp only [proper, and_eq_true, decide_eq_true_eq] at hp
    have hnext : (g.emitOpen (.jump .always false)).code.nextHandle = g.code.nextHandle + 1 := nextHandle_append _ _
    have hbody := ih1 (hs.append_open (o := .jump .always false) rfl) hp.1.1
    rw [hnext, append_assoc, singleton_append, ← range'_succ] at hbody
    obtain ⟨hn1, hg1⟩ := emitSnippet_grows (g.emitOpen (.jump .always false)) body
    rw [hnext] at hn1 hg1
    have hlinked : Sound b f? log X (new ++ range' g.code.nextHandle (body.length + 1))
        (((g.emitOpen (.jump .always false)).emitSnippet body).linkNext g.code.nextHandle) := by
      refine hbody.linkNext (by simp) ?_ fun x hx => hx.symm
      refine (role?_congr (hg1 _ (Nat.lt_succ_self _))).trans ?_
      rw [emitOpen, emitTarget, role?_append, if_pos rfl]
      rfl
    have htest := ih2 hlinked hp.1.2
    change Sound b f? log X (_ ++ range' ((g.emitOpen (.jump .always false)).emitSnippet body).code.nextHandle _) _
      at htest
    rw [hn1, append_assoc,
      show g.code.nextHandle + 1 + body.length = g.code.nextHandle + (body.length + 1) from Nat.add_right_comm _ _ _,
      range'_append_1] at htest
    have hfinal := htest.append_back (o := .jump again false) (d := g.code.nextHandle + 1) rfl ?_ ?_
    · have hlast : (((((g.emitOpen (.jump .always false)).emitSnippet body).linkNext g.code.nextHandle).emitSnippet
          test).code.nextHandle) = g.code.nextHandle + (body.length + 1 + test.length) := by
        rw [(emitSnippet_grows _ test).1]
        change ((g.emitOpen (.jump .always false)).emitSnippet body).code.nextHandle + test.length = _
        rw [hn1]
        grind
      rw [hlast, append_assoc, ← range'_1_concat] at hfinal
      rw [Snippet.length, show body.length + test.length + 2 = body.length + 1 + test.length + 1 by omega]
      rwa [← hnext] at hfinal
    · rw [mem_append, mem_range'_1]
      exact .inr ⟨Nat.le_succ _, by grind⟩
    · -- The jump into the test stands before the body's first instruction.
      rw [List.head?_append, show body.length + 1 + test.length = body.length + test.length + 1 by omega,
        range'_succ, head?_cons]
      cases hh : new.head? with
      | none => simp
      | some a =>
        have := hs.bound (mem_of_mem_head? hh)
        simp only [some_or, ne_eq, some.injEq]
        exact fun h => absurd (h ▸ this) (Nat.not_lt.2 (Nat.le_succ _))

/-! ### Taking code back and moving it -/

/-- Removing the constant that was just pushed. -/
lemma detach {h : Handle} (hs : Sound b f? log X new g) (hf : g.frame.isSome) (hb : g.code.back? = some h)
    (hc : g.code.constant? h = some true) :
    ∃ new', Sound b f? log X new' (g.removeInstruction h) ∧ Grows new new' g (g.removeInstruction h) := by
  obtain ⟨hctx, hshape⟩ := removeInstruction_keeps hs.laid h
  rw [back?_eq, hs.live] at hb
  rcases eq_nil_or_concat' new with rfl | ⟨pre, r, rfl⟩
  · -- Old code does not end with a constant.
    rw [append_nil] at hb
    obtain ⟨i, hi⟩ := hs.base.instruction?_isSome (mem_of_getLast? hb)
    refine absurd ?_ (hs.ends h hb)
    have hold : g.code.shape? h = b.code.shape? h := by
      rcases hs.kept h (mem_of_getLast? hb) i hi with hk | ⟨-, -, d, -, hk⟩
      · rw [shape?_eq hk, shape?_eq hi]
      · rw [shape?_eq hk, shape?_eq hi]
    rw [← hc, constant?, constant?, hold]
  · rw [← append_assoc, getLast?_concat, some.injEq] at hb
    subst hb
    have hkept : ∀ x ∈ pre ++ [r], g.code.constant? x = some false → x ∈ pre := fun x hx hne =>
      (mem_append.1 hx).resolve_right fun hr => by
        rw [mem_singleton.1 hr, hc] at hne
        cases hne
    cases pre with
    | nil => exact ⟨[], hs.excise_only hc hf, constructs_of_context hctx, hkept, fun x _ => congrFun hshape x, by simp⟩
    | cons a pre =>
      have hexcise := hs.excise rfl (by simp) hc
      rw [append_nil] at hexcise
      exact ⟨a :: pre, hexcise, constructs_of_context hctx, hkept, fun x _ => congrFun hshape x, fun x _ _ hx => hx⟩

lemma moveTest_eq (g : Generator) (first last : Handle) : ∃ t, g.moveTest first last =
      { g with
        code := (g.code.relocate ((g.code.start? first).getD 0) ((g.code.last? last).getD 0)).1
        trace := t } := by
  unfold Generator.moveTest
  simp only
  split
  · exact ⟨_, rfl⟩
  · exact ⟨g.trace, rfl⟩

lemma instruction?_moveTest (g : Generator) (first last : Handle) :
    (g.moveTest first last).code.instruction? = g.code.instruction? := by
  obtain ⟨t, heq⟩ := moveTest_eq g first last
  funext x
  rw [heq, instruction?, instruction?, arena_relocate]

/-- What moving code behind all other code does, from an instruction that is not the first of the new code. -/
lemma rewired_moveTest {first : Handle} (hl : g.code.Laid) (hlive : g.code.live = b.code.live ++ new) (last : Handle)
    (hm : first ∈ new) (hne : new.head? ≠ some first) : ∃ new', (∀ x, x ∈ new' ↔ x ∈ new) ∧
      Rewired new new' g (g.moveTest first last) ∧ (g.moveTest first last).code.live = b.code.live ++ new' ∧
      (g.moveTest first last).context = g.context ∧ (g.moveTest first last).pending = g.pending := by
  obtain ⟨pre, rest, rfl⟩ := append_of_mem hm
  obtain ⟨a, pre, rfl⟩ := exists_cons_of_ne_nil (fun hpre : pre = [] => hne (by rw [hpre]; rfl))
  rw [← append_assoc] at hlive
  obtain ⟨t, heq⟩ := moveTest_eq g first last
  have hinst := instruction?_moveTest g first last
  rw [hl.start?_split hlive, getD_some] at heq
  obtain ⟨moved, hperm, hlive', hlaid⟩ := hl.relocate_split hlive ((g.code.last? last).getD 0)
  have hmem : ∀ x, x ∈ (a :: pre) ++ moved ↔ x ∈ (a :: pre) ++ first :: rest := fun x => (hperm.append_left _).mem_iff
  refine ⟨(a :: pre) ++ moved, hmem, ?_, ?_, by rw [heq]; rfl, by rw [heq]⟩
  · exact {
      laid := by rw [heq]; exact hlaid
      sub := fun x hx => (hmem x).1 hx
      gone := fun x hx hn => absurd ((hmem x).2 hx) hn
      head := rfl
      next := by rw [heq, nextHandle, nextHandle, arena_relocate]
      shape := by funext x; rw [shape?, hinst, shape?]
      same := fun x _ => congrFun hinst x
      entries := by rw [heq]
      waitingOf := waitingOf_congr (by rw [heq])
      frame := by rw [heq]
      entry := fun m => by rw [heq] }
  · rw [heq]
    simpa only [append_assoc] using hlive'

/-- **Moving a loop's test behind its body keeps the invariant.** -/
lemma moveTest {first : Handle} (hs : Sound b f? log X new g) (last : Handle) (hm : first ∈ new)
    (hne : new.head? ≠ some first) : ∃ new', (∀ x, x ∈ new' ↔ x ∈ new) ∧ new'.head? = new.head? ∧
      Sound b f? log X new' (g.moveTest first last) := by
  obtain ⟨new', hmem, hrew, hlive, hctx, hpend⟩ := rewired_moveTest hs.laid hs.live last hm hne
  have hinst := instruction?_moveTest g first last
  refine ⟨new', hmem, hrew.head, ?_⟩
  refine hs.rewire_within hrew hctx hlive (fun x hx _ => hx) ?_ ?_ (fun l hl => .inl (hpend ▸ hl))
    fun x hx _ => (hmem x).2 hx
  · intro h hh i hi hl
    rw [hinst] at hi
    rw [hpend, hrew.head]
    refine (hs.leap h ((hmem h).1 hh) i hi hl).imp ?_ id
    rintro ⟨d, hd, hdne, ht⟩
    exact ⟨d, (hmem d).2 hd, hdne, ht⟩
  · intro h hh i hi hp
    rw [hinst] at hi
    obtain ⟨e, f, ht, hd⟩ := hs.protect h ((hmem h).1 hh) i hi hp
    rw [hrew.head]
    exact ⟨e, f, ht, fun d hdm => ⟨(hmem d).2 (hd d hdm).1, (hd d hdm).2⟩⟩

end Sound

end Generator

end NeoScript
