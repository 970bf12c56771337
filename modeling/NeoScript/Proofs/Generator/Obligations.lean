import NeoScript.Proofs.Generator.Ahead
import NeoScript.Proofs.Generator.Looping

/-!
# Promises are kept once

A jump that leads nowhere yet is owed a destination: by a pending link, or by the open construct that holds it. So is
each half of an open protected block. No destination is owed twice, and what is owed is not there yet. Hence a pending
link can be made pending again after it was resolved, and nothing is lost.
-/

namespace NeoScript

open List Option CodeMap Generator Link

/-- The halves of a protected block that may still come. -/
def OpenTry.owed (t : OpenTry) : List Link :=
  match t.stage with
  | .body => [.handler t.enter, .finalizer t.enter]
  | .handler => [.finalizer t.enter]
  | .finalizer => []

/-- What the link will write into a target is not there yet. -/
def Link.Vacant (t : Target) : Link → Prop
  | .jump _ => t = .unresolved
  | .handler _ => ∀ e f, t = .handlers e f → e = none
  | .finalizer _ => ∀ e f, t = .handlers e f → f = none
  | .entry _ => True

/-- The source of a link has the right role, and what the link will write into it is not there yet. -/
def Link.Unmet (m : CodeMap) (l : Link) : Prop :=
  ∀ s, l.source? = some s → m.role? s = some l.role ∧ ∀ i, m.instruction? s = some i → l.Vacant i.target

lemma Link.Unmet.congr {m m' : CodeMap} {l : Link} (hl : l.Unmet m)
    (hi : ∀ s, l.source? = some s → m'.instruction? s = m.instruction? s) : l.Unmet m' := by
  intro s hs
  have hrole : m'.role? s = m.role? s := role?_congr (by rw [shape?, shape?, hi s hs])
  rw [hrole, hi s hs]
  exact hl s hs

lemma Link.Unmet.lt_next {m : CodeMap} {l : Link} (hl : l.Unmet m) {s : Handle} (hs : l.source? = some s) :
    s < m.nextHandle := lt_next_of_role? (hl s hs).1

namespace Generator

/-- Everything that is owed a destination. -/
def owed (g : Generator) : List Link := g.pending ++ (g.held.map .jump ++ g.tries.flatMap OpenTry.owed)

/-- What is owed, and what the operation under way has taken over, is owed once and not there yet. -/
structure Owing (extra : List Link) (g : Generator) : Prop where
  once : ∀ l, l.source?.isSome → (extra ++ g.owed).count l ≤ 1
  unmet : ∀ l ∈ extra ++ g.owed, l.Unmet g.code
  calls : ∀ m, ∀ s ∈ g.waitingOf m, g.code.role? s = some .call

namespace Owing

variable {extra extra' : List Link} {g g' : Generator} {l : Link} {d s : Handle}

/-- Owing less. -/
lemma fewer (ho : Owing extra g) (hc : g'.code = g.code) (hw : g'.waiting = g.waiting)
    (hcount : ∀ l, l.source?.isSome → (extra' ++ g'.owed).count l ≤ (extra ++ g.owed).count l) : Owing extra' g' where
  once := fun l hl => Nat.le_trans (hcount l hl) (ho.once l hl)
  unmet := by
    intro l hm
    rw [hc]
    intro s hs
    refine ho.unmet l (count_pos_iff.1 ?_) s hs
    exact Nat.lt_of_lt_of_le (count_pos_iff.2 hm) (hcount l (by simp [hs]))
  calls := by
    rw [hc, waitingOf_congr hw]
    exact ho.calls

lemma linksTyped (ho : Owing extra g) : g.LinksTyped g.pending where
  role := fun l hl s hs => (ho.unmet l (mem_append_right _ (mem_append_left _ hl)) s hs).1
  waiting := ho.calls

/-- What is owed otherwise is not pending. -/
lemma not_pending (ho : Owing extra g) (hsrc : l.source?.isSome)
    (hl : l ∈ extra ++ (g.held.map .jump ++ g.tries.flatMap OpenTry.owed)) : l ∉ g.pending := by
  intro hp
  have honce := ho.once l hsrc
  have hpos := count_pos_iff.2 hl
  have hpos' := count_pos_iff.2 hp
  simp only [owed, count_append] at honce hpos hpos'
  omega

end Owing

/-! ### Resolving links -/

section Resolve

variable {g : Generator} {d : Handle} {l link : Link} {links : List Link}

lemma handlersOf_of_unmet (s : Handle) : ((handler s).Unmet g.code → (g.handlersOf s).1 = none) ∧
      ((finalizer s).Unmet g.code → (g.handlersOf s).2 = none) := by
  unfold handlersOf
  split
  · next e f ht =>
    obtain ⟨i, hi, hit⟩ := bind_eq_some_iff.1 ht
    have htarget : i.target = .handlers e f := by
      unfold Instruction.target? at hit
      split at hit
      · exact some.inj hit
      · cases hit
    exact ⟨fun hl => (hl s rfl).2 i hi e f htarget, fun hl => (hl s rfl).2 i hi e f htarget⟩
  · exact ⟨fun _ => rfl, fun _ => rfl⟩

/-- Resolving another link leaves open what a link will write. -/
lemma unmet_resolve (hl : l.Unmet g.code) (ht : g.LinksTyped (link :: links)) (hne : l.source?.isSome → l ≠ link) :
    l.Unmet (g.resolve d link).code := by
  intro s hs
  obtain ⟨hrole, hvacant⟩ := hl s hs
  refine ⟨by rw [role?_resolve]; exact hrole, fun i hi => ?_⟩
  rw [instruction?_resolve, map_eq_some_iff] at hi
  obtain ⟨j, hj, rfl⟩ := hi
  have hne := hne (by simp [hs])
  by_cases hr : link.role = l.role
  · by_cases hsrc : link.source? = some s
    · -- the links are the two halves of one protected block
      have hhalves := handlersOf_of_unmet (g := g) s
      cases l <;> cases link <;> simp_all [role, source?, Vacant, aim]
    · dsimp only
      rw [aim_eq_self hsrc]
      · exact hvacant j hj
      · rintro m rfl
        cases l <;> cases hr
        cases hs
  · dsimp only
    rw [aim_eq_of_role_ne ht hrole hr]
    exact hvacant j hj

lemma unmet_resolveLinks (hl : l.Unmet g.code) (ht : g.LinksTyped links) (hne : l.source?.isSome → l ∉ links) :
    l.Unmet (g.resolveLinks d links).code := by
  induction links generalizing g with
  | nil => exact hl
  | cons link links ih =>
    refine ih (unmet_resolve hl ht fun hsrc he => hne hsrc (by simp [he])) ht.resolve fun hsrc hm => ?_
    exact hne hsrc (mem_cons_of_mem _ hm)

end Resolve

namespace Owing

variable {extra extra' : List Link} {g g' : Generator} {l : Link} {d s : Handle} {ss : List Handle}

/-! ### Emitting -/

lemma unmet_append (ho : Owing extra g) (i : Instruction)
    (hl : l ∈ extra ++ (g.held.map .jump ++ g.tries.flatMap OpenTry.owed)) : l.Unmet (g.append i).code := by
  have hmem : l ∈ extra ++ g.owed := by
    simp only [owed, mem_append] at hl ⊢
    tauto
  have hinsert : ∀ l : Link, l.Unmet g.code → l.Unmet (g.inserted i).code := by
    intro l hl
    refine hl.congr fun s hs => ?_
    change (g.code.insert i).instruction? s = _
    rw [instruction?_insert, if_neg (Nat.ne_of_lt (hl.lt_next hs))]
  have hrole : ∀ {s : Handle} {r : Role}, g.code.role? s = some r → (g.inserted i).code.role? s = some r := by
    intro s r hs
    have hlt := lt_next_of_role? hs
    rw [← hs]
    refine role?_congr ?_
    change (g.code.insert i).shape? s = _
    rw [shape?_insert, if_neg (Nat.ne_of_lt hlt)]
  have ht := ho.linksTyped
  rw [append_eq]
  exact unmet_resolveLinks (hinsert l (ho.unmet l hmem)) ⟨fun l hl s hs => hrole (ht.role l hl s hs),
    fun m s hs => hrole (ht.waiting m s hs)⟩ fun hsrc => ho.not_pending hsrc hl

lemma owed_append (g : Generator) (i : Instruction) :
    (g.append i).owed = g.held.map .jump ++ g.tries.flatMap OpenTry.owed := by
  rw [owed, pending_append, held_append, tries_of_context (context_append g i), nil_append]

section

variable (ho : Owing extra g)
include ho

lemma calls_append (i : Instruction) (m : String) (hs : s ∈ (g.append i).waitingOf m) :
    (g.append i).code.role? s = some .call := by
  rw [waitingOf_append] at hs
  split at hs
  · cases hs
  · have hrole := ho.calls m s hs
    rwa [role?_append, if_neg (Nat.ne_of_lt (lt_next_of_role? hrole))]

/-- An instruction resolves what is pending. The operation under way takes over what the instruction itself is
owed. -/
lemma append_owed (i : Instruction) {news : List Link} (hnd : news.Nodup)
    (hnews : ∀ l ∈ news, l.source? = some g.code.nextHandle ∧ l.Unmet (g.append i).code) :
    Owing (news ++ extra) (g.append i) where
  once := by
    intro l hsrc
    have honce := ho.once l hsrc
    rw [owed_append]
    simp only [owed, count_append] at honce ⊢
    by_cases hl : l ∈ news
    · have hnot : ∀ ls : List Link, (∀ l ∈ ls, l ∈ extra ++ g.owed) → ls.count l = 0 := by
        intro ls hls
        refine count_eq_zero.2 fun hm => ?_
        have := (ho.unmet l (hls l hm)).lt_next (hnews l hl).1
        exact Nat.lt_irrefl _ this
      have h1 := hnot extra fun l hl => mem_append_left _ hl
      have h2 := hnot (g.held.map .jump) fun l hl => by simp only [owed, mem_append]; tauto
      have h3 := hnot (g.tries.flatMap OpenTry.owed) fun l hl => by simp only [owed, mem_append]; tauto
      have h4 := nodup_iff_count_le_one.1 hnd l
      omega
    · have := count_eq_zero.2 hl
      omega
  unmet := by
    intro l hl
    rw [owed_append, append_assoc] at hl
    rcases mem_append.1 hl with hl | hl
    · exact (hnews l hl).2
    · exact ho.unmet_append i hl
  calls := fun m s hs => ho.calls_append i m hs

lemma append (i : Instruction) : Owing extra (g.append i) :=
  ho.append_owed i nodup_nil nofun

lemma instruction?_append_self (i : Instruction) : (g.append i).code.instruction? g.code.nextHandle = some i := by
  rw [append_eq]
  refine instruction?_resolveLinks_other ?_ (fun l hl hsrc => ?_) fun m _ hm => ?_
  · change (g.code.insert i).instruction? _ = _
    rw [instruction?_insert, if_pos rfl]
  · have hlt := (ho.unmet l (by simp only [owed, mem_append]; tauto)).lt_next hsrc
    exact Nat.lt_irrefl _ hlt
  · exact Nat.lt_irrefl _ (lt_next_of_role? (ho.calls m _ hm))

/-- A jump without destination. -/
lemma emitOpen {o : Opcode} (hr : o.role = .leap) : Owing (.jump g.next :: extra) (g.emitOpen o) := by
  refine ho.append_owed ⟨o, [], .unresolved⟩ (nodup_singleton (.jump g.next)) fun l hl => ?_
  rw [mem_singleton.1 hl]
  refine ⟨rfl, ?_⟩
  rintro _ ⟨⟩
  refine ⟨(role?_emitOpen g o).trans (by rw [hr]; rfl), fun i hi => ?_⟩
  rw [next, ho.instruction?_append_self, some.injEq] at hi
  rw [← hi]
  rfl

/-- The entry into a protected block. -/
lemma emitEnter :
    Owing (.handler g.next :: .finalizer g.next :: extra) (g.emitTarget (.tryEnter false) (.handlers none none)) := by
  have hself := ho.instruction?_append_self ⟨.tryEnter false, [], .handlers none none⟩
  have hunmet : ∀ l : Link, l.source? = some g.code.nextHandle → l.role = .protect →
      l.Unmet (g.append ⟨.tryEnter false, [], .handlers none none⟩).code := by
    intro l hl hr s hs
    obtain rfl := some.inj (hl.symm.trans hs)
    refine ⟨by rw [role?_eq hself, hr]; rfl, fun i hi => ?_⟩
    rw [hself, some.injEq] at hi
    subst hi
    cases l <;> simp_all [Vacant, role]
  have hnd : [handler g.next, .finalizer g.next].Nodup := by simp
  refine ho.append_owed ⟨.tryEnter false, [], .handlers none none⟩ hnd fun l hl => ?_
  rcases mem_cons.1 hl with rfl | hl
  · exact ⟨rfl, hunmet _ rfl rfl⟩
  · rw [mem_singleton.1 hl]
    exact ⟨rfl, hunmet _ rfl rfl⟩

end

lemma defer (ho : Owing (l :: extra) g) : Owing extra (g.defer l) := by
  refine ho.fewer rfl rfl fun l' _ => ?_
  have howed : (g.defer l).owed = g.pending ++ [l] ++ (g.held.map .jump ++ g.tries.flatMap OpenTry.owed) := rfl
  rw [howed]
  simp only [owed, count_append, count_cons, count_nil]
  omega

lemma linkNext (ho : Owing (.jump s :: extra) g) : Owing extra (g.linkNext s) := ho.defer

lemma linkAll (ho : Owing (ss.map .jump ++ extra) g) : Owing extra (g.linkAll ss) := by
  induction ss generalizing g with
  | nil => exact ho
  | cons s ss ih => exact ih ho.linkNext

lemma resolveAll (ho : Owing extra g) (d : Handle) : Owing extra (g.resolveAll d) := by
  have hctx : (g.resolveAll d).context = g.context := context_resolveLinks _ _ _
  have howed : (g.resolveAll d).owed = g.held.map .jump ++ g.tries.flatMap OpenTry.owed := by
    have hheld : (g.resolveAll d).held = g.held := (congrArg held hctx :)
    rw [owed, hheld, tries_of_context hctx]
    exact congrArg (· ++ _) (pending_resolveLinks _ _ _)
  have ht := ho.linksTyped
  refine ⟨fun l hsrc => ?_, fun l hl => ?_, fun m s hs => ?_⟩
  · have honce := ho.once l hsrc
    rw [howed]
    simp only [owed, count_append] at honce ⊢
    omega
  · rw [howed] at hl
    refine unmet_resolveLinks (g := { g with pending := [] }) ?_ ⟨ht.1, ht.2⟩
      fun hsrc => ho.not_pending hsrc hl
    refine ho.unmet l ?_
    simp only [owed, mem_append] at hl ⊢
    tauto
  · rw [resolveAll_eq, waitingOf_resolveLinks] at hs
    split at hs
    · cases hs
    · rw [← ho.calls m s hs]
      exact role?_congr (by rw [resolveAll_eq, shape?_resolveLinks])

/-- The operation under way gives a jump its destination. -/
lemma setTarget {t : Target} (ho : Owing (.jump s :: extra) g) : Owing extra (g.setTarget s t) := by
  have hctx := g.context_setTarget s t
  have howed : (g.setTarget s t).owed = g.owed := by
    have hheld : (g.setTarget s t).held = g.held := (congrArg held hctx :)
    rw [owed, owed, hheld, tries_of_context hctx, pending_setTarget]
  have hs : (jump s).Unmet g.code := ho.unmet _ mem_cons_self
  have hrole : (g.setTarget s t).code.role? = g.code.role? :=
    funext fun x => role?_congr (by rw [code_setTarget, shape?_setTarget])
  refine ⟨fun l hsrc => ?_, fun l hl => ?_, fun m x hx => ?_⟩
  · have honce := ho.once l hsrc
    rw [howed]
    simp only [cons_append, count_cons] at honce
    omega
  · rw [howed] at hl
    have hunmet := ho.unmet l (mem_cons_of_mem _ hl)
    refine hunmet.congr fun x hx => ?_
    rw [code_setTarget, instruction?_setTarget, if_neg]
    rintro rfl
    have hclash : l.role = .leap := some.inj ((hunmet x hx).1.symm.trans (hs x rfl).1)
    cases l with
    | jump x' =>
      obtain rfl := some.inj hx
      have honce := ho.once (.jump x') rfl
      have hpos := count_pos_iff.2 hl
      simp only [cons_append, count_cons_self] at honce
      omega
    | _ => cases hclash
  · rw [hrole]
    exact ho.calls m x (by rwa [waitingOf_congr (waiting_setTarget g s t)] at hx)

lemma pointAll (ho : Owing (ss.map .jump ++ extra) g) (d : Handle) : Owing extra (g.pointAll ss d) := by
  induction ss generalizing g with
  | nil => exact ho
  | cons s ss ih => exact ih ho.setTarget

/-! ### Removing -/

lemma await (ho : Owing extra g) {name : String} (hs : g.code.role? s = some .call) : Owing extra (g.await name s) where
  once := ho.once
  unmet := ho.unmet
  calls := by
    intro m x hx
    simp only [waitingOf, Generator.await, Table.get?_insert] at hx
    split at hx
    · rw [getD_some, mem_append, mem_singleton] at hx
      rcases hx with hx | rfl
      · exact ho.calls name x hx
      · exact hs
    · exact ho.calls m x hx

/-- A state with the same constructs and instructions, in which only entries are pending. -/
lemma shortened {pre : List Handle} {r : Handle} (ho : Owing extra g) (hsh : Shortened pre r g g') : Owing extra g' := by
  have hheld : g'.held = g.held := (congrArg held hsh.context :)
  have hrole : g'.code.role? = g.code.role? :=
    funext fun x => role?_congr (by rw [shape?, hsh.same, shape?])
  have hzero : ∀ l : Link, l.source?.isSome → g'.pending.count l = 0 := by
    intro l hsrc
    refine count_eq_zero.2 fun hm => ?_
    rw [hsh.pending] at hm
    rw [mem_reopened_source hm] at hsrc
    cases hsrc
  refine ⟨fun l hsrc => ?_, fun l hl => ?_, fun m x hx => ?_⟩
  · have honce := ho.once l hsrc
    have hnone := hzero l hsrc
    simp only [owed, count_append, hheld, tries_of_context hsh.context] at honce ⊢
    omega
  · intro s hsrc
    have hnot : l ∉ g'.pending := count_eq_zero.1 (hzero l (by simp [hsrc]))
    refine (ho.unmet l ?_).congr (fun s _ => hsh.same s) s hsrc
    simp only [owed, mem_append, hheld, tries_of_context hsh.context] at hl ⊢
    tauto
  · rw [hrole]
    exact ho.calls m x (by rwa [hsh.waitingOf] at hx)

section Excise

variable {b : Generator} {f? : Option String} {log : List (Handle × String)} {X : Handle → Prop}
  {new pre post : List Handle} {r : Handle} {x start : Handle} {t : Target}

/-- Where a link to `r` is lost, `r` was there. -/
lemma not_vacant_of_lost (hl : l ∈ lostLinks r x t) : ¬l.Vacant t := by
  cases t with
  | code d =>
    by_cases hd : d = r <;> simp [lostLinks, hd] at hl
    simp [hl, Vacant]
  | handlers e f =>
    simp only [lostLinks, mem_append] at hl
    rcases hl with hl | hl <;> split at hl <;> simp_all [Vacant]
  | unresolved | scriptEnd => cases hl

/-- What is open stays open if references to an instruction go elsewhere. -/
lemma vacant_retarget (hl : l.Vacant t) (successor : Option Handle) : l.Vacant (t.retarget r successor) := by
  cases t with
  | code d => cases l <;> by_cases hd : d = r <;> cases successor <;> simp_all [Vacant, Target.retarget]
  | _ => cases l <;> simp_all [Vacant, Target.retarget, Target.swap]

/-- A reference that was lost is open afterwards. -/
lemma vacant_of_lost (hl : l ∈ lostLinks r x t) : l.Vacant (t.retarget r none) := by
  cases t with
  | code d =>
    by_cases hd : d = r <;> simp [lostLinks, hd] at hl
    simp [hl, hd, Vacant, Target.retarget]
  | handlers e f =>
    simp only [lostLinks, mem_append] at hl
    rcases hl with hl | hl <;> split at hl <;> simp_all [Vacant, Target.retarget, Target.swap]
  | unresolved | scriptEnd => cases hl

variable (ho : Owing extra g) (hs : Sound b f? log X new g)
include ho hs

/-- **Removing a constant that is not the first new instruction.** What led to it is owed again if nothing follows. -/
lemma excise (hnew : new = pre ++ r :: post) (hpre : pre ≠ [])
    (hc : g.code.constant? r = some true) : Owing extra (g.removeInstruction r) := by
  have hby := hs.bypassed hnew hpre hc
  obtain ⟨more, hpending, hnd, hmore⟩ := hby.added
  have hctx : (g.removeInstruction r).context = g.context := hby.context
  have hheld : (g.removeInstruction r).held = g.held := (congrArg held hctx :)
  have howed : (g.removeInstruction r).owed = g.pending ++ more ++ (g.held.map .jump ++ g.tries.flatMap OpenTry.owed) := by
    rw [owed, hheld, tries_of_context hctx, hpending]
  have hrole : (g.removeInstruction r).code.role? = g.code.role? :=
    role?_of_shape? hby.shape
  refine ⟨fun l hsrc => ?_, fun l hl => ?_, fun m s hs' => ?_⟩
  · have honce := ho.once l hsrc
    rw [howed]
    simp only [owed, count_append] at honce ⊢
    by_cases hl : l ∈ more
    · obtain ⟨-, x, -, i, hi, -, hlost⟩ := (hmore l).1 hl
      have hzero : (extra ++ g.owed).count l = 0 := count_eq_zero.2 fun hm =>
        not_vacant_of_lost hlost ((ho.unmet l hm x (source_of_mem_lostLinks hlost)).2 i hi)
      have hone := nodup_iff_count_le_one.1 hnd l
      simp only [owed, count_append] at hzero
      omega
    · have hzero := count_eq_zero.2 hl
      omega
  · rw [howed] at hl
    by_cases hl' : l ∈ more
    · obtain ⟨hnone, x, hx, i, hi, hplain, hlost⟩ := (hmore l).1 hl'
      obtain ⟨hrefs, -, hr⟩ := hs.source_of_lost hnew hpre hx hi hplain hlost
      have hi' := hby.moved x hx i hi hrefs
      rw [hnone] at hi'
      intro s hsrc
      obtain rfl := some.inj ((source_of_mem_lostLinks hlost).symm.trans hsrc)
      refine ⟨by rw [hrole, role?_eq hi, hr], fun j hj => ?_⟩
      obtain rfl := some.inj (hi'.symm.trans hj)
      exact vacant_of_lost hlost
    · have hold : l ∈ extra ++ g.owed := by
        simp only [owed, mem_append] at hl ⊢
        tauto
      intro s hsrc
      obtain ⟨hunmet, hvacant⟩ := ho.unmet l hold s hsrc
      obtain ⟨i, hi⟩ : ∃ i, g.code.instruction? s = some i :=
        ⟨_, Array.getElem?_eq_getElem (lt_next_of_role? hunmet)⟩
      refine ⟨by rw [hrole]; exact hunmet, fun j hj => ?_⟩
      by_cases hrefs : r ∈ i.refs
      · by_cases hlive : s ∈ b.code.live ++ pre ++ post
        · obtain rfl := some.inj ((hby.moved s hlive i hi hrefs).symm.trans hj)
          exact vacant_retarget (hvacant i hi) _
        · exact hvacant j ((hby.dead s hlive).symm.trans hj)
      · obtain rfl := some.inj ((hby.same s i hi hrefs).symm.trans hj)
        exact hvacant i hi
  · rw [hrole]
    exact ho.calls m s (by rwa [hby.waitingOf] at hs')

lemma removeFlag {flag : Handle} (hstart : start ∈ new)
    (hlt : start < flag) (hc : g.code.constant? flag = some true) : Owing extra (g.removeInstruction flag) := by
  rcases hs.flag_cases hstart hlt with hself | ⟨a, pre, post, rfl⟩
  · rwa [hself]
  · exact ho.excise hs rfl (by simp) hc

lemma removeFlags {breaks : List Break} (hstart : start ∈ new) (hr : g.code.role? start = some .leap)
    (hflags : ∀ e ∈ breaks, start < e.flag ∧ g.code.constant? e.flag = some true) : Owing extra (g.removeFlags breaks) := by
  induction breaks generalizing new g with
  | nil => exact ho
  | cons e breaks ih =>
    obtain ⟨hlt, hc⟩ := hflags e mem_cons_self
    obtain ⟨new1, hs1, hg1⟩ := hs.removeFlag hstart hlt hc
    exact ih (ho.removeFlag hs hstart hlt hc) hs1 (hg1.leap ⟨hstart, hr⟩).1 (hg1.role hr) fun e' he' =>
      ⟨(hflags e' (mem_cons_of_mem _ he')).1, hg1.constant (hflags e' (mem_cons_of_mem _ he')).2⟩

end Excise

/-! ### Straight operations and calls -/

/-- A change of the stack, the scopes and the like. -/
lemma still (ho : Owing extra g) (h : g'.core = g.core) : Owing extra g' := by
  have hcode : g'.code = g.code := (congrArg code h :)
  have howed : g'.owed = g.owed := (congrArg owed h :)
  refine ho.fewer hcode (congrArg waiting h :) fun l _ => ?_
  exact Nat.le_of_eq (by rw [howed])

lemma emitSnippet (ho : Owing extra g) (s : Snippet) : Owing extra (g.emitSnippet s) := by
  induction s generalizing extra g with
  | nil => exact ho
  | op o | data o operand => exact ho.append _
  | seq first second ih1 ih2 => exact ih2 (ih1 ho)
  | skip test body ih => exact (ih (ho.emitOpen (o := .jump test false) rfl)).linkNext
  | loop body test again ih1 ih2 =>
    apply append
    apply ih2
    exact (ih1 (ho.emitOpen (o := .jump .always false) rfl)).linkNext

lemma emitCall (ho : Owing extra g) (name : String) : Owing extra (g.emitCall name) := by
  unfold Generator.emitCall
  split
  · exact ho.append _
  · have hopen : Owing extra (g.emitOpen (.call false)) := ho.append _
    dsimp only
    split
    · refine hopen.await ?_
      rw [next, Generator.emitOpen, emitTarget, role?_append, if_pos rfl]
      rfl
    · exact hopen

end Owing

/-- **Straight steps owe no more than before.** -/
lemma kept_owing {b : Generator} {f? : Option String} {log : List (Handle × String)} {extra : List Link}
    {P : Opcode → Prop} : KeptByMoves P (Ready b f? log) (Owing extra) where
  append _ ho _ _ _ := ho.append _
  snippet _ ho _ := ho.emitSnippet _
  restoreStack _ _ ho := ho.still rfl
  addToken _ _ ho := ho.still rfl
  detach := fun ⟨_, _, hs⟩ ho hq hl => by
    obtain ⟨pre, hshort, -⟩ := hs.shortened hq hl
    exact ho.shortened hshort

end Generator

end NeoScript
