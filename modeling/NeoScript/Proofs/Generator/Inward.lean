import NeoScript.Proofs.Generator.Listing

/-!
# Straight code keeps to itself

What a straight operation emits has no control transfers but jumps inside its own code or right behind it, and calls.
`Inward` says this of all code from a handle on. The opcodes that may come from the bodies of builtins are a parameter;
apart from those nothing ends a finalizer.
-/

namespace NeoScript

open List Option CodeMap Generator Instruction

namespace Generator

variable {P : Opcode → Prop} {X Y : Handle → Prop} {n x h j : Handle} {g g' : Generator} {i : Instruction}

/-- An instruction that keeps to the code `live` from `n` on, where `x` comes next. -/
def StaysIn (P : Opcode → Prop) (n x : Handle) (live : List Handle) (i : Instruction) : Prop :=
  i.opcode.role = .plain ∧ (i.opcode ≠ .finallyLeave ∨ P i.opcode) ∨ i.opcode.role = .call ∨
    ∃ t d, i.opcode = .jump t false ∧ i.target = .code d ∧ (d = x ∨ d ∈ live ∧ n ≤ d)

lemma StaysIn.mono {live live' : List Handle} {y : Handle} (hi : StaysIn P n y live i) (hsub : ∀ d ∈ live, d ∈ live')
    (hy : y = x ∨ y ∈ live' ∧ n ≤ y) : StaysIn P n x live' i := by
  rcases hi with hi | hi | ⟨t, d, ho, ht, hd⟩
  · exact .inl hi
  · exact .inr (.inl hi)
  · refine .inr (.inr ⟨t, d, ho, ht, ?_⟩)
    rcases hd with rfl | ⟨hd, hn⟩
    · exact hy
    · exact .inr ⟨hsub d hd, hn⟩

/-- The code from `n` on keeps to itself, up to the jumps in `X`, which have no target yet. -/
structure Inward (P : Opcode → Prop) (n : Handle) (X : Handle → Prop) (g : Generator) : Prop where
  legible : Legible g
  grown : n ≤ g.code.nextHandle
  inner : ∀ x, ∀ h ∈ g.code.live, n ≤ h → ∀ i, g.seen x h = some i →
    StaysIn P n x g.code.live i ∨ X h ∧ ∃ t, i = ⟨.jump t false, [], .unresolved⟩

namespace Inward

lemma start (hl : Legible g) : Inward P g.code.nextHandle X g :=
  ⟨hl, Nat.le_refl _, fun _ _ hm hn => absurd (hl.laid.lt_next hm) (Nat.not_lt.2 hn)⟩

section

variable (hg : Inward P n X g)
include hg

lemma still (hc : g'.code = g.code) (hp : g'.pending = g.pending) (hw : g'.waiting = g.waiting) : Inward P n X g' := by
  refine ⟨hg.legible.still hc hp hw, hc ▸ hg.grown, fun x h hm hn i hi => ?_⟩
  rw [hc] at hm ⊢
  rw [seen_still hc hp] at hi
  exact hg.inner x h hm hn i hi

lemma append (hi : ∀ x j, (g.append i).seen x g.next = some j → StaysIn P n x (g.append i).code.live j ∨
      Y g.next ∧ ∃ t, j = .unaimed t) (hX : ∀ h, X h → Y h) : Inward P n Y (g.append i) := by
  have hlive := live_append g i
  refine ⟨hg.legible.append i, ?_, fun x h hm hn k hk => ?_⟩
  · rw [nextHandle_append]
    exact Nat.le_succ_of_le hg.grown
  · rw [hlive, mem_append, mem_singleton] at hm
    rcases hm with hm | rfl
    · rw [hg.legible.seen_append hm] at hk
      rcases hg.inner g.next h hm hn k hk with hstay | ⟨hx, hopen⟩
      · refine .inl (hstay.mono (fun d hd => by rw [hlive]; exact mem_append_left _ hd) (.inr ⟨?_, hg.grown⟩))
        rw [hlive]
        exact mem_append_right _ mem_cons_self
      · exact .inr ⟨hX h hx, hopen⟩
    · exact hi x k hk

lemma append_plain (hr : i.opcode.role = .plain) (hp : i.opcode ≠ .finallyLeave ∨ P i.opcode) :
    Inward P n X (g.append i) := by
  refine hg.append (fun x j hj => .inl ?_) fun _ h => h
  rw [seen_of_plain (hg.legible.instruction?_append_next i) (.inl hr), some.injEq] at hj
  subst hj
  exact .inl ⟨hr, hp⟩

lemma append_call (hr : i.opcode.role = .call) : Inward P n X (g.append i) := by
  refine hg.append (fun x j hj => .inl ?_) fun _ h => h
  rw [seen_of_plain (hg.legible.instruction?_append_next i) (.inr hr), some.injEq] at hj
  subst hj
  exact .inr (.inl hr)

lemma emitJump (t : JumpTest) : Inward P n (fun h => X h ∨ h = g.next) (g.emitJump t) := by
  refine hg.append (fun x j hj => .inr ⟨.inr rfl, t, ?_⟩) fun _ => .inl
  rw [hg.legible.seen_append_leap rfl, some.injEq] at hj
  exact hj.symm

/-- A jump back to code that is there. -/
lemma emitBack (t : JumpTest) {d : Handle} (hd : d ∈ g.code.live) (hn : n ≤ d) :
    Inward P n X (g.emitTarget (.jump t false) (.code d)) := by
  refine hg.append (fun x j hj => .inl ?_) fun _ h => h
  rw [hg.legible.seen_append_leap rfl, some.injEq] at hj
  subst hj
  refine .inr (.inr ⟨t, d, rfl, rfl, .inr ⟨?_, hn⟩⟩)
  rw [live_append]
  exact mem_append_left _ hd

end

lemma linkNext (hg : Inward P n (fun h => X h ∨ h = j) g) (hm : j ∈ g.code.live)
    (hr : g.code.role? j = some .leap) : Inward P n X (g.linkNext j) := by
  refine ⟨hg.legible.linkNext hm hr, hg.grown, fun x h hlive hn i hi => ?_⟩
  obtain ⟨k, hk⟩ := seen_isSome hg.legible.laid hlive x
  have hseen := seen_linkAll (fun s (hs : s ∈ [j]) => mem_singleton.1 hs ▸ hr) hk
  change (g.linkNext j).seen x h = _ at hseen
  rw [hseen, some.injEq] at hi
  rcases hg.inner x h hlive hn k hk with hstay | ⟨hx | rfl, t, rfl⟩
  · refine .inl ?_
    split at hi
    · next hj =>
      subst hi
      rcases hstay with ⟨ho, -⟩ | ho | ⟨t, d, ho, ht, hd⟩
      all_goals rw [mem_singleton] at hj; subst hj
      · rw [role?, shape?_of_seen hk, map_some, ho] at hr
        cases hr
      · rw [role?, shape?_of_seen hk, map_some, ho] at hr
        cases hr
      · exact .inr (.inr ⟨t, x, ho, rfl, .inl rfl⟩)
    · exact hi ▸ hstay
  · split at hi
    · exact .inl (hi ▸ .inr (.inr ⟨t, x, rfl, rfl, .inl rfl⟩))
    · exact .inr ⟨hx, t, hi.symm⟩
  · rw [if_pos (mem_singleton.2 rfl)] at hi
    exact .inl (hi ▸ .inr (.inr ⟨t, x, rfl, rfl, .inl rfl⟩))

lemma emitSnippet {s : Snippet} (hg : Inward P n X g) (hp : s.proper = true) : Inward P n X (g.emitSnippet s) := by
  have hplain : ∀ {o : Opcode} {bs : Bytes} {X : Handle → Prop} {g : Generator}, Inward P n X g →
      (o.role == .plain && accepts o bs && o != .finallyLeave) = true →
      Inward P n X (g.append ⟨o, bs, .unresolved⟩) := fun hg hp => by
    simp only [Bool.and_eq_true, beq_iff_eq, bne_iff_ne] at hp
    exact hg.append_plain hp.1.1 (.inl hp.2)
  have hjump : ∀ {g : Generator} (t : JumpTest) (s : Snippet), g.code.Laid →
      g.next ∈ ((g.emitJump t).emitSnippet s).code.live ∧
        ((g.emitJump t).emitSnippet s).code.role? g.next = some .leap := fun {g} t s hl => by
    have hlt : g.next < (g.emitJump t).code.nextHandle := by
      rw [show (g.emitJump t).code.nextHandle = g.code.nextHandle + 1 from nextHandle_append _ _]
      exact Nat.lt_succ_self _
    refine ⟨?_, (role?_congr ((Sound.emitSnippet_grows _ s).2 _ hlt)).trans (role?_emitOpen _ _)⟩
    rw [(Ahead.emitSnippet (g := g.emitJump t) (laid_append _ _ hl) s).live,
      show (g.emitJump t).code.live = g.code.live ++ [g.next] from live_append _ _]
    simp
  induction s generalizing X g with
  | nil => exact hg
  | op o | data o operand => exact hplain hg hp
  | seq first second ih1 ih2 =>
    simp only [Snippet.proper, Bool.and_eq_true] at hp
    exact ih2 (ih1 hg hp.1) hp.2
  | skip test body ih =>
    obtain ⟨hm, hr⟩ := hjump test body hg.legible.laid
    exact (ih (hg.emitJump test) hp).linkNext hm hr
  | loop body test again ih1 ih2 =>
    simp only [Snippet.proper, Bool.and_eq_true, decide_eq_true_eq] at hp
    obtain ⟨hm, hr⟩ := hjump .always body hg.legible.laid
    have hbody := (ih1 (hg.emitJump .always) hp.1.1).linkNext hm hr
    refine (ih2 hbody hp.1.2).emitBack again ?_ ?_
    · rw [(Ahead.emitSnippet hbody.legible.laid test).live]
      refine mem_append_left _ ?_
      change (g.emitJump .always).next ∈ ((g.emitJump .always).emitSnippet body).code.live
      rw [(Ahead.emitSnippet (g := g.emitJump .always) (laid_append _ _ hg.legible.laid) body).live, mem_append,
        mem_range'_1]
      exact .inr ⟨Nat.le_refl _, Nat.lt_add_of_pos_right hp.2⟩
    · exact Nat.le_trans hg.grown (Nat.le_trans (Nat.le_succ _) (Nat.le_of_eq (nextHandle_append g _).symm))

/-- The constant that was just pushed is taken back. -/
lemma detach {q : Opcode → Bool} {r : Handle} {c : Generator} {f? : Option String} {log : List (Handle × String)}
    {Z : Handle → Prop} {old : List Handle} (hg : Inward P n X g) (hs : Sound c f? log Z old g) (hf : g.frame.isSome)
    (hq : ∀ i : Instruction, q i.opcode = true → pushesConstant i = true) (hl : g.lastPush? q = some r) :
    Inward P n X (g.removeInstruction r) := by
  obtain ⟨pre, hshort, hlive, -⟩ := hs.shortened hq hl
  obtain ⟨old', hs', -⟩ := hs.detach_push hf hq hl
  obtain ⟨hnone, hfree⟩ := detachable?_eq_some hs.laid (filter_eq_some_iff.1 hl).1
  refine ⟨hs'.legible, hshort.next ▸ hg.grown, fun x h hm hn k hk => ?_⟩
  have hm' : h ∈ g.code.live := by
    rw [hshort.live] at hm
    rw [hlive]
    exact mem_append_left _ hm
  have hseen : (g.removeInstruction r).seen x h = g.seen x h := by
    refine seen_congr (hshort.same h) fun l hsrc => iff_of_false (fun hmem => ?_) fun hmem => ?_
    · rw [hshort.pending] at hmem
      rw [mem_reopened_source hmem] at hsrc
      cases hsrc
    · rw [hnone] at hmem
      cases hmem
  rw [hseen] at hk
  refine (hg.inner x h hm' hn k hk).imp ?_ id
  rintro (hplain | hcall | ⟨t, d, ho, ht, hd⟩)
  · exact .inl hplain
  · exact .inr (.inl hcall)
  · refine .inr (.inr ⟨t, d, ho, ht, hd.imp id fun hd => ⟨?_, hd.2⟩⟩)
    rw [hshort.live]
    have hmem := hd.1
    rw [hlive, mem_append, mem_singleton] at hmem
    refine hmem.resolve_right ?_
    rintro rfl
    -- the jump reads as it is, because nothing is pending
    obtain ⟨k', hk', rfl⟩ := map_eq_some_iff.1 hk
    have hleap : k'.opcode.role = .leap := by rw [show k'.opcode = .jump t false from ho]; rfl
    have ht' : k'.target = .code d := by
      simpa [aimed, hleap, hnone] using ht
    refine hfree h hm' k' hk' ?_
    rw [refs_eq (by simp [hleap]), ht']
    exact mem_singleton.2 rfl

end Inward

/-! ### Linear commands -/

lemma Inward.emitCall (hg : Inward P n X g) (name : String) : Inward P n X (g.emitCall name) := by
  unfold Generator.emitCall
  split
  · exact hg.append_call rfl
  · have hcall := hg.append_call (i := ⟨.call false, [], .unresolved⟩) rfl
    have hm : g.next ∈ (g.append ⟨.call false, [], .unresolved⟩).code.live := by
      rw [live_append]
      exact mem_append_right _ mem_cons_self
    dsimp only
    split
    · exact ⟨hcall.legible.await hm (role?_emitOpen _ _) name, hcall.grown, hcall.inner⟩
    · exact hcall

end Generator

namespace Command

open Generator

variable {P : Opcode → Prop} {X : Handle → Prop} {n : Handle} {g : Generator} {c : Generator} {f? : Option String}

/-- **Linear commands emit code that keeps to itself.** -/
lemma keptByLinear_inward : KeptByLinear c f? P (Inward P n X) := by
  have hstill : ∀ {g g' : Generator}, Inward P n X g → g'.core = g.core → Inward P n X g' := fun hg h =>
    hg.still (congrArg code h :) (congrArg pending h :) (congrArg waiting h :)
  refine ⟨fun log => ⟨?_, ?_, fun _ _ hg => hstill hg rfl, fun _ _ hg => hstill hg rfl, ?_⟩, ?_, fun _ => hstill⟩
  · exact fun _ hg hr _ hP => hg.append_plain hr hP
  · exact fun _ hg hp => hg.emitSnippet hp
  · exact fun ⟨hf, _, hs⟩ hg hq hl => hg.detach hs hf hq hl
  · exact fun name _ hg => hg.emitCall name

end Command

end NeoScript
