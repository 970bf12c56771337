import NeoScript.Proofs.Statement.Lays

/-!
# Loops lay out their code

When a loop is closed, its exits get their targets, and its flags are taken away unless the `else` part needs them. From
then on the body reads like a statement whose ways out are known, so what was shown of the body applies to it.
-/

namespace NeoScript

open Generator Command Instruction List Option Exits

variable {P : Opcode → Prop} {inLoop narrowing hasElse : Bool} {b c g g' G : Generator} {f? : Option String}
  {symbols : SymbolTable} {s : Statement} {w : Ways} {e : Exits} {new bs gate : List Handle} {h j k t x y z : Handle}
  {φ : Handle → Option Instruction} {ρ : Handle → Handle} {o : Option Handle} {r : Code} {leave : Option Handle}

/-! ### The body of a closed loop -/

/-- What was shown of the body while the loop was open applies once it is closed: what the exits lead to is known, and
the flags that were taken away are passed over. -/
lemma Generator.Leaves.agrees {kept : Nat} (hl : Leaves true g bs e)
    (hseen : ∀ h ∈ bs, h ∉ taken o e.flags → g'.seen x h = (g.seen y h).map fun i =>
      if h ∈ e.jumps then i.aim (o.getD x) else (if h ∈ e.continues then i.aim y else i).rename (skip (taken o e.flags)))
    (hread : ∀ h ∈ bs, h ∉ taken o e.flags → ρ h = h ∧ φ h = (g'.seen x h).map (rename ρ))
    (hleave : e.jumps ≠ [] → leave = some (ρ (o.getD x))) (hy : ρ (skip (taken o e.flags) y) = y) :
    Agrees (fun h => if h ∈ taken o e.flags then none else φ h) (ρ ∘ skip (taken o e.flags))
      (w.body leave y kept o.isSome) g y e bs := by
  have hsub : ∀ h ∈ taken o e.flags, h ∈ e.flags := fun h hm => mem_flags_of_taken hm
  obtain ⟨-, hnd, hdis⟩ := nodup_append.1 hl.nodup
  have hjumps : ∀ h ∈ e.jumps ++ e.continues, h ∉ e.flags := fun h hm hf => hdis h hf h hm rfl
  have hapart : ∀ h ∈ e.continues, h ∉ e.jumps := fun h hm hj => (nodup_append.1 hnd).2.2 h hj h hm rfl
  -- a handle that is still there
  have hkeep : ∀ h ∈ bs, h ∉ taken o e.flags → (ρ ∘ skip (taken o e.flags)) h = h ∧ φ h = (g'.seen x h).map (rename ρ) :=
    fun h hm hn => by
      rw [Function.comp_apply, skip_of_not_mem hn]
      exact hread h hm hn
  intro h hm
  refine ⟨fun hn => ?_, fun hj => ?_, fun hc => ?_, fun hf => ?_⟩
  · rw [mem_sources, not_or, not_or] at hn
    have ht : h ∉ taken o e.flags := fun ht => hn.1 (hsub h ht)
    refine ⟨(hkeep h hm ht).1, ?_⟩
    rw [if_neg ht, (hkeep h hm ht).2, hseen h hm ht]
    simp only [if_neg hn.2.1, if_neg hn.2.2, Option.map_map]
    exact congrArg (fun p => Option.map p _) (funext fun i => rename_rename _ _ i)
  · have ht : h ∉ taken o e.flags := fun ht => hjumps h (mem_append_left _ hj) (hsub h ht)
    refine ⟨(hkeep h hm ht).1, _, hleave (ne_nil_of_mem hj), ?_⟩
    rw [if_neg ht, (hkeep h hm ht).2, hseen h hm ht]
    simp only [if_pos hj, Option.map_map]
    rfl
  · have ht : h ∉ taken o e.flags := fun ht => hjumps h (mem_append_right _ hc) (hsub h ht)
    refine ⟨(hkeep h hm ht).1, y, rfl, ?_⟩
    rw [if_neg ht, (hkeep h hm ht).2, hseen h hm ht]
    simp only [if_neg (hapart h hc), if_pos hc, Option.map_map]
    refine congrArg (fun p => Option.map p _) (funext fun i => ?_)
    simp only [Function.comp_apply, rename, Instruction.aim, Target.rename, hy]
  · obtain ⟨hr, pre, post, hsplit⟩ := hl.next h hf
    change _ = (if o.isSome then h else h + 1) ∧ _ = if o.isSome then _ else none
    cases ho : o.isSome with
    | true =>
      have ht : h ∉ taken o e.flags := by simp [taken, ho]
      have hn : h ∉ e.jumps ∧ h ∉ e.continues :=
        ⟨fun hj => hjumps h (mem_append_left _ hj) hf, fun hc => hjumps h (mem_append_right _ hc) hf⟩
      refine ⟨(hkeep h hm ht).1, ?_⟩
      rw [if_neg ht, (hkeep h hm ht).2, hseen h hm ht, hl.flags h hf]
      simp only [if_neg hn.1, if_neg hn.2, Option.map_some]
      rfl
    | false =>
      have ht : taken o e.flags = e.flags := by simp [taken, ho]
      -- the jump that the flag belongs to is no flag
      have hnext : h + 1 ∉ taken o e.flags := fun hm' => by
        rw [role?_of_seen (hl.flags _ (hsub _ hm') 0)] at hr
        cases hr
      have hm' : h + 1 ∈ bs := by
        rw [hsplit]
        simp
      refine ⟨?_, if_pos (by rw [ht]; exact hf)⟩
      rw [Function.comp_apply, skip_of_mem (by rw [ht]; exact hf)]
      exact (hread _ hm' hnext).1

lemma Stands.body {l : OpenLoop} (hst : Stands inLoop w g) (hl : g'.loops = l :: g.loops)
    (ht : g'.tries = g.tries) (hd : l.tryDepth = g.tries.length) (y : Handle) (flagged : Bool) :
    Stands true (w.body leave y l.kind.kept flagged) g' := by
  refine ⟨?_, fun _ => ⟨l, g.loops, hl, rfl, by rw [ht, hd]; rfl⟩⟩
  rw [hl, map_cons, sum_cons, ← hst.total]
  exact add_comm _ _

/-! ### `else` parts -/

namespace Generator

/-- A loop with the code `new` is closed, up to its `else` part, over which the jump at `o` leads. -/
structure LoopClosed (hasElse : Bool) (g : Generator) (new : List Handle) (o : Option Handle) (g' : Generator) : Prop where
  adds : Adds g new g'
  loops : g'.loops = g.loops
  tries : g'.tries = g.tries
  elseGuards : g'.elseGuards = if hasElse then o :: g.elseGuards else g.elseGuards
  plain : hasElse = false → o = none
  gate : ∀ q, o = some q → q ∈ new ∧ ∀ x, g'.seen x q = some ⟨.jump .ifTrue false, [], .unresolved⟩

lemma ends_endLoopElse_links {outer : List (Option Handle)} (hl : Legible g) (he : g.elseGuards = o :: outer)
    (hq : ∀ q, o = some q → q ∈ g.code.live ∧ g.code.role? q = some .leap) :
    Ends endLoopElse g (fun _ g' => Links g o.toList g' ∧ g'.loops = g.loops) fun _ => True := by
  refine .get ?_
  rw [he]
  refine .modify ?_
  cases o with
  | none =>
    have hstay : Links g [] g := Links.linkAll hl (by simp)
    exact ⟨hstay.still rfl rfl rfl, rfl⟩
  | some q => exact ⟨(Links.linkNext hl (hq q rfl).1 (hq q rfl).2).still rfl rfl rfl, rfl⟩

end Generator

/-- The code of a loop reads as in the state after it, and the jump over its `else` part leads to `z`. -/
structure Gated (φ : Handle → Option Instruction) (ρ : Handle → Handle) (g : Generator) (x : Handle) (new : List Handle)
    (o : Option Handle) (z : Handle) : Prop where
  code : ∀ h ∈ new, o ≠ some h → ρ h = h ∧ φ h = (g.seen x h).map (rename ρ)
  gate : ∀ q, o = some q → ρ q = q ∧ φ q = some (goto .ifTrue z)

namespace Generator.LoopClosed

/-- Only the jump over the `else` part will still change. -/
lemma stretch (hc : LoopClosed hasElse g new o g') : Stretch inLoop g new o.toList {} g' fun φ ρ _ x =>
      ∀ h ∈ new, o ≠ some h → ρ h = h ∧ φ h = (g'.seen x h).map (rename ρ) := by
  refine ⟨hc.adds, by rw [hc.loops, grow_empty], .nothing _ _ _, fun q hq => ?_, fun ha h hm hne => ?_⟩
  · exact ⟨(hc.gate q (mem_toList.1 hq)).1, by simp [sources_empty]⟩
  · exact (ha h (mem_filter.2 ⟨hm, by simpa using hne⟩)).code (by simp [sources_empty])

/-- A loop without `else` part. -/
lemma lays (hc : LoopClosed false g new o g') (hblock : ∀ {φ ρ w x}, Stands inLoop w g → Gated φ ρ g' x new o (ρ x) →
      ∃ rounds, Block P w s g (coded φ new) (ρ x) rounds) : LaysOut P inLoop s g new {} g' :=
  hc.stretch.laysOut fun hst _ hcode => hblock hst ⟨hcode, by simp [hc.plain rfl]⟩

/-- A loop with its `else` part. -/
lemma lays_else {other : Statement} {ds : List Handle} {g1 g2 : Generator} (hc : LoopClosed true g new o g1)
    (hout : LaysOut P inLoop other g1 ds e g2) (hguards : g2.elseGuards = g1.elseGuards) (hrun : Ran [.endLoopElse] g2 g')
    (hblock : ∀ {φ ρ w x m}, Stands inLoop w g → Gated φ ρ g1 (ds.head?.getD x) new o (ρ x) →
      Block P w other g1 (coded φ ds) (ρ x) m → ∃ rounds, Block P w s g (coded φ new ++ coded φ ds) (ρ x) rounds) :
    LaysOut P inLoop s g (new ++ ds) ({} ++ e) g' := by
  have hgate : ∀ q, o = some q → q ∈ g2.code.live ∧ ∀ x, g2.seen x q = some (.unaimed .ifTrue) :=
    fun q ho => by
      have hm := hc.adds.mem_live (hc.gate q ho).1
      exact ⟨hout.adds.old_mem_live hm, fun x => by rw [hout.adds.seen x q hm, (hc.gate q ho).2]⟩
  obtain ⟨hlink, hloops⟩ := Ends.of_ok (ran_single.1 hrun) (ends_endLoopElse_links hout.adds.legible
    (hguards.trans hc.elseGuards) fun q ho => ⟨(hgate q ho).1, role?_of_seen ((hgate q ho).2 0)⟩)
  have hall := (hc.stretch.append (.of_lays hout)).links hlink hloops (by simp)
  refine hall.laysOut fun hst hreads ⟨hcode, _, hother⟩ => ?_
  obtain ⟨m, hm⟩ := hother rfl (hst.still (hc.loops.trans (grow_empty _).symm) hc.tries)
  rw [coded_append]
  refine hblock hst ⟨hcode, fun q ho => ?_⟩ hm
  obtain ⟨hρ, hφ⟩ := hreads q (by simp [ho])
  rw [hlink.seen_of_mem (hgate q ho).1 (mem_toList.2 ho), (hgate q ho).2] at hφ
  exact ⟨hρ, hφ⟩

end Generator.LoopClosed

/-! ### Conditional loops -/

namespace Generator

variable {l : OpenLoop} {outer : List OpenLoop}

/-- The target of a jump that reads the same whatever comes next. -/
lemma target?_of_seen {test : JumpTest} (h : ∀ x, g.seen x j = some (goto test t)) : g.code.target? j = some (.code t) := by
  obtain ⟨i, hi, heq⟩ := map_eq_some_iff.1 (h (t + 1))
  have ho : i.opcode = .jump test false := congrArg opcode heq
  have hr : i.opcode.role = .leap := by rw [ho]; rfl
  have hseen := h (t + 1)
  rw [seen_of_leap hi hr, some.injEq] at hseen
  have htarget := congrArg target hseen
  dsimp only at htarget
  split_ifs at htarget with hp
  · exact absurd (Target.code.inj htarget) (ne_of_gt (Nat.lt_succ_self t))
  · rw [CodeMap.target?, hi, bind_some, target?, ho, htarget]
    rfl

/-- The exits of the innermost loop, once it was taken off the open ones and its test is in its place. -/
lemma finished_finishLoop {log : List (Handle × String)} {pre post old old1 : List Handle} {G : Generator}
    (hs : Sound b f? log (fun _ => False) old g) (hloops : g.loops = l :: outer) (hbreaks : l.breaks = e.breaks)
    (hleaves : Leaves true g bs e) (hs1 : Sound b f? log (fun x => x ∈ l.breaks.map Break.jump) old1 G)
    (hg1 : Grows old old1 { g with loops := outer } G) (hset : Settled G)
    (hlive : G.code.live = b.code.live ++ pre ++ bs ++ post) (hasElse : Bool) :
    ∃ r o gate, LoopFinished hasElse e.flags e.jumps l.kind.kept G r o gate (G.finishLoop l hasElse) := by
  obtain ⟨hloop, hexits⟩ := hs.left_grows hloops hg1
  have hold : old1 = pre ++ bs ++ post := by
    have hall := hs1.live.symm.trans hlive
    rw [append_assoc, append_assoc] at hall
    rw [append_cancel_left hall, append_assoc]
  have hnext : ∀ br ∈ l.breaks, G.code.role? (br.flag + 1) = some .leap ∧
      ∃ pre post, old1 = pre ++ br.flag :: (br.flag + 1) :: post := fun br hbr => by
    obtain ⟨hr, pre', post', hsplit⟩ := hleaves.next br.flag (mem_map_of_mem (hbreaks ▸ hbr))
    refine ⟨hg1.role hr, pre ++ pre', post' ++ post, ?_⟩
    rw [hold, hsplit]
    simp
  have hnd : (l.breaks.map Break.flag).Nodup := by
    rw [hbreaks]
    exact (nodup_append.1 hleaves.nodup).1
  obtain ⟨r, o, gate, hfin⟩ := hs1.finished hset hloop hnext hnd hexits hasElse
  rw [hbreaks] at hfin
  exact ⟨r, o, gate, hfin⟩

/-- **The end of a conditional loop**: the test stands behind the body, whose end and `continue`s lead to it. -/
lemma ends_endWhile_finished {a pre : List Handle} (hg : Going b f? symbols g)
    (hloops : g.loops = l :: outer) (hkind : l.kind = .conditional (some k)) (hbreaks : l.breaks = e.breaks)
    (hconts : l.continues = e.continues) (hleaves : Leaves true g bs e)
    (hstart : ∀ x, g.seen x l.startJump = some (goto .always t))
    (hlive : g.code.live = (b.code.live ++ pre) ++ ((a ++ [k]) ++ bs)) (ha : (a ++ [k]).head? = some t)
    (hpend : .jump k ∈ g.pending → bs = [] ∧ ∀ l ∈ g.pending, l ≠ .jump k → l.source? = none) (hasElse : Bool) :
    Ends (endWhile hasElse) g (fun _ g' => ∃ G r o gate, LoopFinished hasElse e.flags e.jumps 0 G r o gate g' ∧
      G.code.live = (b.code.live ++ pre) ++ bs ++ (a ++ [k]) ∧ G.code.Laid ∧
      (∀ x, ∀ h ∈ g.code.live, G.seen x h = (g.seen t h).map fun i => if h ∈ e.continues then i.aim t else i) ∧
      G.elseGuards = g.elseGuards ∧ g'.loops = outer ∧ g'.tries = g.tries) fun _ => True := by
  obtain ⟨-, log, hframe, old, hs⟩ := hg
  have ht := target?_of_seen hstart
  obtain ⟨hpop, hloop, hheld⟩ := hs.popLoop hloops
  obtain ⟨old1, hs1, hg1⟩ := hs.joinTest hloops hkind ht
  obtain ⟨hkm, hkr⟩ := hloop.closing k hkind
  obtain ⟨htm, hhead⟩ := hpop.target_of_leap hloop.start.1 hloop.start.2 ht
  obtain ⟨old0, hs0, hclose, -⟩ := hpop.closeTest htm hhead hkm hkr
  refine .get (.modify_bind ?_)
  rw [show g.popLoop = { g with loops := outer } by rw [popLoop, hloops]; rfl, hloops, head?_cons]
  refine .get ?_
  simp only [hkind, ht]
  refine .modify ?_
  have hl0 : Legible { g with loops := outer } := hpop.legible
  have hlive1 : ({ g with loops := outer }.closeTest t k).code.live = (b.code.live ++ pre) ++ bs ++ (a ++ [k]) :=
    live_closeTest hpop.laid hlive ha (by simp) fun hp => (hpend hp).1
  have hseen1 : ∀ x, ∀ h ∈ g.code.live, ({ g with loops := outer }.closeTest t k).seen x h = g.seen t h := fun x h hm =>
    seen_closeTest hl0 hm hkr fun hp => (hpend hp).2
  have hset1 : Settled ({ g with loops := outer }.closeTest t k) := settled_closeTest fun hp => (hpend hp).2
  obtain ⟨-, hlo1, he1, ht1, -⟩ := eq_of_outline (outline_of_context _ (context_closeTest { g with loops := outer } t k))
  have hrole1 : ∀ h, g.code.role? h = some .leap → ({ g with loops := outer }.closeTest t k).code.role? h = some .leap :=
    fun h hr => hclose.role hr
  generalize ({ g with loops := outer } : Generator).closeTest t k = g1 at *
  -- the continuations
  have hcont : ∀ h ∈ e.continues, ∃ o : Opcode, o.role = .leap ∧ ∀ x, g.seen x h = some ⟨o, [], .unresolved⟩ := fun h hm =>
    hleaves.jumps h (mem_append_right _ hm)
  have hseen2 : ∀ x, ∀ h ∈ g.code.live, (g1.pointAll l.continues t).seen x h =
      (g.seen t h).map fun i => if h ∈ e.continues then i.aim t else i := by
    intro x h hm
    obtain ⟨i, hi⟩ := seen_isSome hs.laid hm t
    have hi1 := (hseen1 x h hm).trans hi
    rw [hconts, seen_pointAll (fun s hs => ?_) hi1 (fun hc => ?_), hi]
    · rfl
    · obtain ⟨o, hr, hseen⟩ := hcont s hs
      exact hrole1 s ((role?_of_seen (hseen 0)).trans (congrArg some hr))
    · obtain ⟨o, -, hseen⟩ := hcont h hc
      rw [hseen, some.injEq] at hi
      rw [← hi]
  have hset2 : Settled (g1.pointAll l.continues t) := fun l hl => by
    rw [pending_pointAll] at hl
    exact hset1 l hl
  -- the exits
  have hlive2 : (g1.pointAll l.continues t).code.live = (b.code.live ++ pre) ++ bs ++ (a ++ [k]) := by
    rw [live_pointAll, hlive1]
  obtain ⟨r, o, gate, hfin⟩ := finished_finishLoop hs hloops hbreaks hleaves hs1 hg1 hset2 hlive2 hasElse
  obtain ⟨-, hlo2, he2, ht2, -⟩ := eq_of_outline (outline_of_context _ (context_pointAll g1 l.continues t))
  obtain ⟨guards, hout, -⟩ := outline_finishLoop (g1.pointAll l.continues t) l hasElse
  obtain ⟨-, hlo3, -, ht3, -⟩ := eq_of_outline hout
  refine ⟨_, r, o, gate, ?_, hlive2, hs1.laid, hseen2, he2.trans he1, hlo3.trans (hlo2.trans hlo1), ht3.trans (ht2.trans ht1)⟩
  rwa [show l.kind.kept = 0 by rw [hkind]; rfl] at hfin

lemma adds_beginWhile (hl : Legible g) :
    Adds g [g.next] g.beginWhile ∧ (∀ x, g.beginWhile.seen x g.next = some (goto .always x)) ∧
      ∃ stack, g.beginWhile.loops = ⟨.conditional none, g.next, [], [], g.tries.length, stack⟩ :: g.loops ∧
        g.beginWhile.tries = g.tries ∧ g.beginWhile.elseGuards = g.elseGuards := by
  obtain ⟨ha, hseen⟩ := adds_linkNext (o := .jump .always false) hl rfl
  obtain ⟨-, hlo, he, ht, -⟩ := eq_of_outline (outline_append g (.unaimed .always))
  refine ⟨ha.still rfl rfl rfl, hseen, (g.emitJump .always).stack.items, ?_, ht, he⟩
  change OpenLoop.mk (.conditional none) g.next [] [] (g.append (.unaimed .always)).tries.length _ ::
    (g.append (.unaimed .always)).loops = _
  rw [hlo, ht]
  rfl

/-- The jump that closes the test leads to the body. -/
lemma ends_beginWhileBody_adds (hl : Legible g) (hloops : g.loops = l :: outer) :
    Ends beginWhileBody g (fun _ g' => Adds g [g.next] g' ∧ (∀ x, g'.seen x g.next = some (goto .ifTrue x)) ∧
      g'.pending = [.jump g.next] ∧ g'.loops = { l with kind := .conditional (some g.next) } :: outer ∧ g'.tries = g.tries ∧
      g'.elseGuards = g.elseGuards) fun _ => True := by
  obtain ⟨ha, hseen⟩ := adds_linkNext (o := .jump .ifTrue false) hl rfl
  obtain ⟨-, hlo, he, ht, -⟩ := eq_of_outline (outline_append g (.unaimed .ifTrue))
  refine .get ?_
  rw [hloops, head?_cons, map_some]
  split
  · refine .modify ?_
    dsimp only
    rw [modifyLoop_of_loops (g := ((g.emitJump .ifTrue).track g.next 1 none).linkNext g.next) _ (hlo.trans hloops)]
    refine ⟨ha.still rfl rfl rfl, hseen, ?_, rfl, ht, he⟩
    change (g.append (.unaimed .ifTrue)).pending ++ [.jump g.next] = _
    rw [pending_append]
    rfl
  · exact .throw trivial

end Generator

/-- How a loop goes on at its natural exit, and where a `break` goes: behind the loop, or to the jump over the `else`
part. -/
def Ending (hasElse : Bool) (y z : Handle) (c : Code) (leave : Option Handle) (flagged : Bool) : Prop :=
  if hasElse then Guard z c leave flagged else c = [] ∧ leave = some y ∧ flagged = false

namespace Generator.LoopFinished

variable {flags jumps : List Handle} {kept : Nat}

lemma mem_gate {q : Handle} (hf : LoopFinished hasElse flags jumps kept g r o gate g') (ho : o = some q) :
    q ∈ gate ∧ ∀ x, g'.seen x q = some (.unaimed .ifTrue) := by
  rcases hf.gate with ⟨hnone, -⟩ | ⟨f, q', ho', rfl, -, hq⟩
  · rw [ho] at hnone
    cases hnone
  · obtain rfl := some.inj (ho.symm.trans ho')
    exact ⟨by simp, hq⟩

variable (hf : LoopFinished hasElse flags jumps kept g r o gate g') (hg : Gated φ ρ g' x new o z)
include hf hg

/-- The end of a loop in the final code. -/
lemma ending (hsub : ∀ h ∈ gate, h ∈ new) (hl : g'.code.Laid) :
    Ending hasElse (ρ x) z (coded φ gate) (if hasElse then o else some (ρ x)) o.isSome := by
  have hnd : gate.Nodup := by
    have hall := hl.nodup
    rw [hf.live] at hall
    exact (nodup_append.1 (nodup_append.1 hall).2.1).2.1
  unfold Ending
  rcases hf.gate with ⟨rfl, rfl⟩ | ⟨f, q, rfl, rfl, hfs, hq⟩
  · cases hasElse with
    | true => exact .none
    | false => exact ⟨rfl, rfl, rfl⟩
  · cases hasElse with
    | true =>
      have hne : some q ≠ some f := fun he => (nodup_cons.1 hnd).1 (by rw [some.inj he]; exact mem_cons_self)
      have hφf := (hg.code f (hsub f mem_cons_self) hne).2
      rw [hfs, map_some] at hφf
      simp only [if_true, coded_cons hφf, coded_cons (hg.gate q rfl).2, coded_nil]
      exact .jump f q
    | false => exact absurd (hf.plain rfl) (by simp)

/-- Where the exits go. -/
lemma leave_eq (hj : jumps ≠ []) : (if hasElse then o else some (ρ x)) = some (ρ (o.getD x)) := by
  cases hasElse with
  | true =>
    obtain ⟨q, rfl⟩ := isSome_iff_exists.1 (hf.guarded rfl hj)
    rw [if_pos rfl, getD_some, (hg.gate q rfl).1]
  | false =>
    rw [hf.plain rfl]
    rfl

/-- Code of a loop that is no exit reads as before its end, up to the flags that were taken away. -/
lemma settles (hm : h ∈ g.code.live) (hflag : h ∉ flags) (hjump : h ∉ jumps) (hnew : h ∈ new) (hgate : h ∉ gate) :
    ρ (skip (taken o flags) h) = h ∧ φ h = (g.seen x h).map (rename (ρ ∘ skip (taken o flags))) := by
  have hn : h ∉ taken o flags := fun ht => hflag (mem_flags_of_taken ht)
  obtain ⟨hρ, hφ⟩ := hg.code h hnew fun ho => hgate (hf.mem_gate ho).1
  refine ⟨by rw [skip_of_not_mem hn, hρ], ?_⟩
  rw [hφ, hf.seen x h hm hn]
  simp only [if_neg hjump, Option.map_map]
  exact congrArg (fun p => Option.map p _) (funext fun i => rename_rename _ _ i)

end Generator.LoopFinished

/-- The code of a closed loop: what stands in front of the body and behind it, around the body without its flags, and the
end. -/
structure LoopFrame (front bs back : List Handle) (e : Exits) (r : Code) (o : Option Handle)
    (gate new : List Handle) : Prop where
  code : new = front ++ (bs.filter (· ∉ taken o e.flags) ++ (back ++ (r.map Prod.fst ++ gate)))
  outside : ∀ h ∈ front ++ back, h ∉ e.sources
  gate : ∀ h ∈ front ++ (bs.filter (· ∉ taken o e.flags) ++ (back ++ r.map Prod.fst)), h ∉ gate

namespace LoopFrame

variable {front back : List Handle} {kept : Nat}

lemma of_finished (hf : LoopFinished hasElse e.flags e.jumps kept G r o gate g')
    (hlive : G.code.live = g.code.live ++ (front ++ (bs ++ back))) (hlaid : G.code.Laid) (he : ∀ h ∈ e.sources, h ∈ bs)
    (ha : Adds g new g') : LoopFrame front bs back e r o gate new := by
  have hnd := hlaid.nodup
  rw [hlive] at hnd
  have hapart : ∀ h ∈ bs, h ∉ g.code.live ∧ h ∉ front ∧ h ∉ back := fun h hm => by
    obtain ⟨-, hnd', hdis⟩ := nodup_append.1 hnd
    obtain ⟨-, hnd'', hdis'⟩ := nodup_append.1 hnd'
    refine ⟨fun hg => hdis h hg h (by simp [hm]) rfl, fun hfr => hdis' h hfr h (by simp [hm]) rfl, fun hb => ?_⟩
    exact disjoint_of_nodup_append hnd'' hm hb
  have hflags : ∀ h ∈ e.flags, h ∈ bs := fun h hm => he h (mem_sources.2 (.inl hm))
  have hcode : new = front ++ (bs.filter (· ∉ taken o e.flags) ++ (back ++ (r.map Prod.fst ++ gate))) := by
    have hall := ha.live.symm.trans hf.live
    rw [hlive, filter_append, filter_append, filter_append, filter_taken fun h hm => (hapart h (hflags h hm)).1,
      filter_taken fun h hm => (hapart h (hflags h hm)).2.1, filter_taken fun h hm => (hapart h (hflags h hm)).2.2] at hall
    exact append_cancel_left (hall.trans (by simp only [append_assoc]))
  refine ⟨hcode, fun h hm hs => ?_, fun h hm hg => ?_⟩
  · have := hapart h (he h hs)
    exact (mem_append.1 hm).elim this.2.1 this.2.2
  · have hnd' := (nodup_append.1 ha.nodup).2.1
    rw [hcode, show front ++ (bs.filter (· ∉ taken o e.flags) ++ (back ++ (r.map Prod.fst ++ gate))) =
      (front ++ (bs.filter (· ∉ taken o e.flags) ++ (back ++ r.map Prod.fst))) ++ gate by simp only [append_assoc]] at hnd'
    exact disjoint_of_nodup_append hnd' hm hg

variable (hr : LoopFrame front bs back e r o gate new) (hf : LoopFinished hasElse e.flags e.jumps kept G r o gate g')
  (hg : Gated φ ρ g' x new o z)
include hr hf hg

/-- How the code around the body reads in the end. -/
lemma settles (hm : h ∈ front ++ back) (hlive : h ∈ G.code.live) :
    ρ (skip (taken o e.flags) h) = h ∧ φ h = (G.seen x h).map (rename (ρ ∘ skip (taken o e.flags))) := by
  have hnone := hr.outside h hm
  rw [mem_sources, not_or, not_or] at hnone
  rw [mem_append] at hm
  refine hf.settles hg hlive hnone.1 hnone.2.1 ?_ (hr.gate h ?_)
  · rw [hr.code]
    simp only [mem_append]
    tauto
  · simp only [mem_append]
    tauto

/-- The items that the loop keeps are dropped. -/
lemma drops : coded φ (r.map Prod.fst) = r := by
  have hreads : Reads φ ρ g' x (r.map Prod.fst) := fun d hd =>
    hg.code d (by rw [hr.code]; simp only [mem_append]; tauto) fun ho =>
      hr.gate d (by simp only [mem_append]; tauto) (hf.mem_gate ho).1
  exact hreads.coded_eq (fun d hd => (mem_listing.1 (by rw [hf.reads x]; exact hd)).2)
    (unresolved_of_snd hf.drops fun i hi => by rw [eq_of_mem_replicate hi])

end LoopFrame

/-- **The body of a closed loop.** -/
lemma LaysOut.finished {body : Statement} {g0 : Generator} {kept kept' : Nat} {front back : List Handle}
    (hout : LaysOut P true body g0 bs e g)
    (hf : LoopFinished hasElse e.flags e.jumps kept G r o gate g')
    (hG : ∀ h ∈ bs, h ∈ G.code.live ∧ G.seen x h = (g.seen y h).map fun i => if h ∈ e.continues then i.aim y else i)
    (hframe : LoopFrame front bs back e r o gate new) (hguard : Gated φ ρ g' x new o z)
    (hy : ρ (skip (taken o e.flags) y) = y)
    (hst : Stands true (w.body (if hasElse then o else some (ρ x)) y kept' o.isSome) g0) :
    entry (coded φ (bs.filter (· ∉ taken o e.flags))) y = ρ (skip (taken o e.flags) (bs.head?.getD y)) ∧
      ∃ rounds, Block P (w.body (if hasElse then o else some (ρ x)) y kept' o.isSome) body g0
        (coded φ (bs.filter (· ∉ taken o e.flags))) y rounds := by
  have ha : Agrees (fun h => if h ∈ taken o e.flags then none else φ h) (ρ ∘ skip (taken o e.flags))
      (w.body (if hasElse then o else some (ρ x)) y kept' o.isSome) g y e bs := by
    refine hout.leaves.agrees (fun h hm hn => ?_) (show ∀ h ∈ bs, h ∉ taken o e.flags → ρ h = h ∧ φ h =
      (g'.seen x h).map (rename ρ) from fun h hm hn => ?_) (fun hj => hf.leave_eq hguard hj) hy
    · rw [hf.seen x h (hG h hm).1 hn, (hG h hm).2, Option.map_map]
      refine congrArg (fun p => Option.map p _) (funext fun i => ?_)
      simp only [Function.comp_apply]
      split_ifs <;> rfl
    · have hkeep : h ∈ bs.filter (· ∉ taken o e.flags) := mem_filter.2 ⟨hm, decide_eq_true hn⟩
      refine hguard.code h (by rw [hframe.code]; simp only [mem_append]; tauto) fun ho => ?_
      exact hframe.gate h (by simp only [mem_append]; tauto) (hf.mem_gate ho).1
  have hcode : coded φ (bs.filter (· ∉ taken o e.flags)) = coded (fun h => if h ∈ taken o e.flags then none else φ h) bs := by
    refine Eq.trans (coded_congr fun h hm => ?_) (coded_filter fun h _ hp => ?_)
    · have hn : h ∉ taken o e.flags := of_decide_eq_true (mem_filter.1 hm).2
      exact (if_neg hn).symm
    · exact if_pos (not_not.1 (of_decide_eq_false hp))
  have hentry := ha.entry_eq hout.leaves (fun h hm => hout.adds.isSome hm y) (nodup_append.1 hout.adds.nodup).2.1
  obtain ⟨l, hblock⟩ := hout.block hst ha
  rw [Function.comp_apply, hy, ← hcode] at hentry hblock
  exact ⟨hentry, l, hblock⟩

/-- A conditional loop with its test and its body, before it is closed. -/
structure WhileOpen (P : Opcode → Prop) (test : List Command) (body : Statement) (g : Generator) (j : Handle)
    (g1 : Generator) (a : List Handle) (g2 : Generator) (k : Handle) (g3 : Generator) (bs : List Handle) (e : Exits)
    (g4 : Generator) : Prop where
  opened : Ran [.beginWhile] g g1
  start : Adds g [j] g1
  startSeen : ∀ x, g1.seen x j = some (goto .always x)
  part : PartLaid P test g1 a g2
  nonempty : a ≠ []
  tested : Ran [.beginWhileBody] g2 g3
  close : Adds g2 [k] g3
  closeSeen : ∀ x, g3.seen x k = some (goto .ifTrue x)
  body : LaysOut P true body g3 bs e g4
  loops : ∃ stack, g3.loops = ⟨.conditional (some k), j, [], [], g.tries.length, stack⟩ :: g.loops
  tries : g3.tries = g.tries ∧ g4.tries = g.tries
  elseGuards : g4.elseGuards = g.elseGuards
  pending : .jump k ∈ g4.pending → bs = [] ∧ ∀ l ∈ g4.pending, l ≠ .jump k → l.source? = none

/-- The first part of a statement that leaves something on the stack is not empty. -/
lemma PartLaid.ne_nil {part : List Command} {left : Nat} (hpart : PartLaid P part g new g')
    (hp : PartOf narrowing g g (left + 1) g g') (hl : g.code.Laid) : new ≠ [] := by
  obtain ⟨x, hf⟩ := hp.follows
  have hm := hf.mem_live
  rw [hpart.adds.live, mem_append] at hm
  exact ne_nil_of_mem (hm.resolve_left fun hold => lt_irrefl _ (lt_of_lt_of_le (hl.lt_next hold) hf.fresh))

lemma Statement.whileOpen {test : List Command} {body : Statement} {g4 : Generator} (hbody : body.Lays P true true)
    (hg : Going c f? symbols g) (hn : body.nested true true = true) (hfit : (whileDo test body).fits g = true)
    (hcmds : ∀ cmd ∈ test ++ body.commands, cmd.Orderly symbols ∧ cmd.Inlines P)
    (hrun : Ran (.beginWhile :: (test ++ .beginWhileBody :: body.commands)) g g4) :
    ∃ j g1 a g2 k g3 bs e, Ran body.commands g3 g4 ∧ WhileOpen P test body g j g1 a g2 k g3 bs e g4 := by
  obtain ⟨g1, hrun1, hrun⟩ := ran_cons.1 hrun
  obtain ⟨g2, hrun2, hrun⟩ := ran_append.1 hrun
  obtain ⟨g3, hrun3, hrun4⟩ := ran_cons.1 hrun
  simp only [fits, forall_mem_append] at hfit hcmds
  rw [after_of_ok hrun1, Bool.and_eq_true, after_of_ok (ran_append.2 ⟨g2, hrun2, hrun3⟩)] at hfit
  have hg1 := hg.runAll hrun1
  have hg3 := (hg1.runAll hrun2).runAll hrun3
  obtain rfl : g.beginWhile = g1 := (EStateM.Result.ok.inj (ran_single.1 hrun1)).2
  obtain ⟨ha1, hseen1, stack, hloops1, htries1, hguards1⟩ := adds_beginWhile hg.legible
  have hregion : keepsRegion true test = true := rfl
  obtain ⟨a, hpart⟩ := hg1.laysPart hfit.1 hregion (fun cmd hm => (hcmds.1 cmd hm).1) (fun cmd hm => (hcmds.1 cmd hm).2) hrun2
  have hpartOf : PartOf true _ _ 1 _ g2 :=
    Regular.of_ok (P := fun _ g' => PartOf true g.beginWhile g.beginWhile 1 g.beginWhile g') hrun2
      (hg1.part hfit.1 hregion fun cmd hm => (hcmds.1 cmd hm).1)
  have hconstructs := hpart.constructs
  simp only [Generator.constructs, Prod.mk.injEq] at hconstructs
  obtain ⟨-, -, hlo2, he2, ht2⟩ := hconstructs
  obtain ⟨ha3, hseen3, hpend3, hloops3, htries3, hguards3⟩ := Ends.of_ok (ran_single.1 hrun3)
    (ends_beginWhileBody_adds hpart.adds.legible (hlo2.trans hloops1))
  have ht3 : g3.tries = g.tries := htries3.trans (ht2.trans htries1)
  have hp3 : Placed P true true c f? symbols body g3 := by
    refine ⟨hg3, hn, hfit.2, hcmds.2, fun _ l hl => ?_⟩
    rw [hloops3] at hl
    obtain rfl := some.inj hl
    rw [ht3]
  obtain ⟨bs, e, hout⟩ := hbody hp3 hrun4
  have hk4 := hp3.kept hrun4
  obtain ⟨bs', hahead, -⟩ := hk4.behind
  obtain rfl : bs' = bs := append_cancel_left (hahead.live.symm.trans hout.adds.live)
  refine ⟨g.next, g.beginWhile, a, g2, g2.next, g3, bs', e, hrun4, hrun1, ha1, hseen1, hpart,
    hpart.ne_nil hpartOf hg1.laid, hrun3, ha3, hseen3, hout, ⟨stack, hloops3⟩, ⟨ht3, hk4.tries.trans ht3⟩,
    hk4.elseGuards.trans (hguards3.trans (he2.trans hguards1)), fun hp => ?_⟩
  -- as long as the jump that closes the test is pending, nothing was emitted behind it
  have hnil : bs' = [] := by
    by_contra hne
    obtain ⟨s, hs, hsrc⟩ := hahead.sources hne _ hp
    have hm : g2.next ∈ g3.code.live := ha3.mem_live mem_cons_self
    exact hahead.not_mem_new hg3.laid hm (some.inj hsrc ▸ hs)
  refine ⟨hnil, fun l hl hne => ?_⟩
  cases hsrc : l.source? with
  | none => rfl
  | some s =>
    have hm := (hahead.links l hnil (.inl (by rw [hsrc]; rfl))).1 hl
    rw [hpend3, mem_singleton] at hm
    exact absurd hm hne

namespace WhileOpen

variable {test : List Command} {body : Statement} {g1 g2 g3 g4 : Generator} {a : List Handle}

lemma closed (h : WhileOpen P test body g j g1 a g2 k g3 bs e g4) (hg : Going c f? symbols g)
    (hg4 : Going c f? symbols g4) (hahead : Ahead g new g') (hrun : Ran [.endWhile hasElse] g4 g') :
    ∃ o, LoopClosed hasElse g new o g' ∧ ∀ {φ ρ w x z}, Stands inLoop w g → Gated φ ρ g' x new o z →
      ∃ A B C t leave flagged l, coded φ new = (j, goto .always t) :: (B ++ (A ++ (k, goto .ifTrue (entry B t)) :: C)) ∧
        Emits P test g1 g2 A k ∧ t = entry A k ∧ Block P (w.body leave t 0 flagged) body g3 B t l ∧
        Ending hasElse (ρ x) z C leave flagged := by
  obtain ⟨stack, hloops⟩ := h.loops
  obtain ⟨t, a', rfl⟩ := exists_cons_of_ne_nil h.nonempty
  have hbehind : Adds g1 (t :: a' ++ k :: bs) g4 := h.part.adds.trans (h.close.trans h.body.adds)
  have hall : Adds g (j :: (t :: a' ++ k :: bs)) g4 := h.start.trans hbehind
  obtain ⟨-, log, -, old, hs⟩ := id hg
  have hstart : ∀ x, g4.seen x j = some (goto .always t) := fun x => by
    rw [hbehind.seen x j (h.start.mem_live mem_cons_self), h.startSeen]
    rfl
  have hlive4 : g4.code.live = (c.code.live ++ (old ++ [j])) ++ (((t :: a') ++ [k]) ++ bs) := by
    rw [hall.live, hs.live]
    simp
  have hloops4 : g4.loops = _ := h.body.loops.trans (congrArg (grow e) hloops)
  obtain ⟨G, r, o, gate, hfin, hliveG, hlaidG, hseenG, hguardsG, hlo, htr⟩ := Ends.of_ok (ran_single.1 hrun)
    (ends_endWhile_finished hg4 hloops4 rfl rfl rfl h.body.leaves hstart hlive4 rfl h.pending hasElse)
  obtain rfl : r = [] := map_eq_nil_iff.1 hfin.drops
  have hadds : Adds g new g' := .of_ahead hahead hg.legible (hg4.runAll hrun).legible
  have hframe : LoopFrame [j] bs (t :: a' ++ [k]) e [] o gate new := .of_finished hfin
    (by rw [hliveG, hs.live]; simp) hlaidG (fun f hf => h.body.leaves.mem f hf) hadds
  refine ⟨o, ⟨hadds, hlo, htr.trans h.tries.2, ?_, hfin.plain, fun q ho => ⟨?_, (hfin.mem_gate ho).2⟩⟩,
    fun {φ ρ w x z} hst hguard => ?_⟩
  · rw [hfin.elseGuards, hguardsG, h.elseGuards]
  · rw [hframe.code]
    simp [(hfin.mem_gate ho).1]
  -- how the code before the end of the loop reads in the end
  have hmem : ∀ f ∈ g4.code.live, f ∈ G.code.live := fun f hm => by
    rw [hlive4] at hm
    rw [hliveG]
    simp only [mem_append] at hm ⊢
    tauto
  have hcode : ∀ f ∈ [j] ++ (t :: a' ++ [k]), ρ (skip (taken o e.flags) f) = f ∧
      φ f = (g4.seen t f).map (rename (ρ ∘ skip (taken o e.flags))) := fun f hf => by
    have hcont : f ∉ e.continues := fun hc => hframe.outside f hf (mem_sources.2 (.inr (.inr hc)))
    have hm4 : f ∈ g4.code.live := hall.mem_live (by
      simp only [mem_cons, mem_append] at hf ⊢
      tauto)
    obtain ⟨hρ, hφ⟩ := hframe.settles hfin hguard hf (hmem f hm4)
    refine ⟨hρ, ?_⟩
    rw [hφ, hseenG x f hm4]
    simp only [if_neg hcont, Option.map_id']
  obtain ⟨hentry, l, hblock⟩ := h.body.finished hfin
    (fun f hm => ⟨hmem f (h.body.adds.mem_live hm), hseenG x f (h.body.adds.mem_live hm)⟩) hframe hguard (hcode t (by simp)).1
    (hst.body hloops h.tries.1 rfl t o.isSome)
  -- the first jump, the test and the jump that closes it
  have hφj : φ j = some (goto .always t) := by
    rw [(hcode j mem_cons_self).2, hstart, Option.map_some, rename, Target.rename, Function.comp_apply,
      (hcode t (by simp)).1]
  have hφk : φ k = some (goto .ifTrue (entry (coded φ (bs.filter (· ∉ taken o e.flags))) t)) := by
    rw [(hcode k (by simp)).2, h.body.adds.seen t k (h.close.mem_live mem_cons_self), h.closeSeen, hentry]
    rfl
  have htest : Reads φ (ρ ∘ skip (taken o e.flags)) g2 k (t :: a') := fun f hf => by
    obtain ⟨hρ, hφ⟩ := hcode f (mem_append_right _ (mem_append_left _ hf))
    refine ⟨hρ, ?_⟩
    rw [hφ, (h.close.trans h.body.adds).seen t f (h.part.adds.mem_live hf)]
    rfl
  have hemits := h.part.emits htest
  rw [Function.comp_apply, (hcode k (by simp)).1] at hemits
  refine ⟨coded φ (t :: a'), coded φ (bs.filter (· ∉ taken o e.flags)), coded φ gate, t, _, _, l, ?_, hemits, ?_, hblock,
    hfin.ending hguard (fun f hf => by rw [hframe.code]; simp [hf]) hadds.legible.laid⟩
  · rw [hframe.code, coded_append, coded_cons hφj, coded_append, coded_append, coded_append, coded_cons hφk]
    simp
  · obtain ⟨i, hi⟩ := h.part.adds.isSome (h := t) mem_cons_self k
    rw [coded_cons (i := i.rename (ρ ∘ skip (taken o e.flags))) (by rw [(htest t mem_cons_self).2, hi]; rfl)]
    rfl

end WhileOpen

namespace Statement

variable {test : List Command} {body other : Statement}

/-- A conditional loop up to its end. -/
lemma closed_while (inLoop : Bool) (hbody : body.Lays P true true) (hn : body.nested true true = true)
    (hg : Going c f? symbols g) (hfit : (whileDo test body).fits g = true)
    (hcmds : ∀ cmd ∈ (whileDo test body).commands, cmd.Orderly symbols ∧ cmd.Inlines P)
    (hrun : Ran (.beginWhile :: (test ++ .beginWhileBody :: (body.commands ++ [.endWhile hasElse]))) g g') :
    ∃ new o j g1 g2 k g3, LoopClosed hasElse g new o g' ∧ Ran [.beginWhile] g g1 ∧ Ran [.beginWhileBody] g2 g3 ∧
      Ran (body.commands ++ [.endWhile hasElse]) g3 g' ∧
      ∀ {φ ρ w x z}, Stands inLoop w g → Gated φ ρ g' x new o z →
        ∃ A B C t leave flagged l, coded φ new = (j, goto .always t) :: (B ++ (A ++ (k, goto .ifTrue (entry B t)) :: C)) ∧
          Emits P test g1 g2 A k ∧ t = entry A k ∧ Block P (w.body leave t 0 flagged) body g3 B t l ∧
          Ending hasElse (ρ x) z C leave flagged := by
  obtain ⟨guards, -, hleaving⟩ := Regular.of_ok
    (P := fun _ g' => ∃ guards, guards.length = hasElse.toNat ∧ Leaving false true g guards g') hrun
    (regular_while (body.balances hn) hg hfit fun cmd hm => (hcmds cmd hm).1)
  obtain ⟨-, new, -, hahead, -⟩ := hleaving.follows
  have hlist : .beginWhile :: (test ++ .beginWhileBody :: (body.commands ++ [.endWhile hasElse])) =
      (.beginWhile :: (test ++ .beginWhileBody :: body.commands)) ++ [.endWhile hasElse] := by simp
  rw [hlist] at hrun
  obtain ⟨g4, hrun4, hrun5⟩ := ran_append.1 hrun
  have hcmds' : ∀ cmd ∈ test ++ body.commands, cmd.Orderly symbols ∧ cmd.Inlines P := fun cmd hm =>
    hcmds cmd (by simp only [commands, mem_cons, mem_append] at hm ⊢; tauto)
  obtain ⟨j, g1, a, g2, k, g3, bs, e, hran, hopen⟩ := whileOpen hbody hg hn hfit hcmds' hrun4
  obtain ⟨o, hclosed, hcode⟩ := hopen.closed hg (hg.runAll hrun4) hahead hrun5
  exact ⟨new, o, j, g1, g2, k, g3, hclosed, hopen.opened, hopen.tested, ran_append.2 ⟨g4, hran, hrun5⟩, hcode⟩

lemma lays_whileDo (hbody : body.Lays P true true) : (whileDo test body).Lays P inLoop narrowing := by
  intro b f? symbols g g' hp hrun
  obtain ⟨new, o, j, g1, g2, k, g3, hclosed, hran1, hran2, -, hcode⟩ :=
    closed_while inLoop hbody hp.nested hp.going hp.fits hp.commands hrun
  refine ⟨new, {}, hclosed.lays fun hst hguard => ?_⟩
  obtain ⟨A, B, C, t, leave, flagged, l, heq, hemits, ht, hblock, rfl, rfl, rfl⟩ := hcode hst hguard
  exact ⟨_, by rw [heq]; exact .whileDo hran1 hemits ht hran2 hblock⟩

lemma lays_whileElse (hbody : body.Lays P true true) (hother : other.Lays P inLoop narrowing) :
    (whileElse test body other).Lays P inLoop narrowing := by
  intro b f? symbols g g' hp hrun
  obtain ⟨hg, hn, hfit, hcmds, -⟩ := id hp
  rw [fits_whileElse, Bool.and_eq_true] at hfit
  simp only [nested, Bool.and_eq_true] at hn
  have hcmds1 : ∀ cmd ∈ (whileDo test body).commands, cmd.Orderly symbols ∧ cmd.Inlines P := by
    simp only [commands, forall_mem_append, forall_mem_cons] at hcmds ⊢
    exact ⟨hcmds.1, hcmds.2.1, hcmds.2.2.1, hcmds.2.2.2.1, ⟨trivial, trivial⟩, by simp⟩
  rw [commands_whileElse] at hrun hcmds
  simp only [forall_mem_append] at hcmds
  obtain ⟨g5, hrun5, hrun⟩ := ran_append.1 hrun
  obtain ⟨g6, hrun6, hrun7⟩ := ran_append.1 hrun
  rw [after_of_ok hrun5] at hfit
  obtain ⟨new, o, j, g1, g2, k, g3, hclosed, hran1, hran2, hran3, hcode⟩ :=
    closed_while inLoop hbody hn.1 hg hfit.1 hcmds1 hrun5
  have hp5 : Placed P inLoop narrowing b f? symbols other g5 :=
    ⟨hg.runAll hrun5, hn.2, hfit.2, hcmds.2.1, hp.opened.still (hclosed.loops.trans (grow_empty _).symm) hclosed.tries⟩
  obtain ⟨ds, e, hout⟩ := hother hp5 hrun6
  refine ⟨_, _, hclosed.lays_else hout (hp5.kept hrun6).elseGuards hrun7 fun hst hguard hblock2 => ?_⟩
  obtain ⟨A, B, C, t, leave, flagged, l, heq, hemits, ht, hblock, hend⟩ := hcode hst hguard
  have hblock' := Block.whileElse hran1 hemits ht hran2 hblock hend hran3 hblock2 (j := j)
  exact ⟨_, by rw [heq]; simpa using hblock'⟩

end Statement

end NeoScript
