import NeoScript.Proofs.Generator.Ranges
import NeoScript.Proofs.Session.Calls

/-!
# Methods tile the script

The code of a session consists of the bodies of its methods, one behind the other, and control leaves a body only by
a call or a return. Whatever reaches a body therefore reaches its first instruction, so that the removal of dead code
takes away the first instruction of a body only together with the whole body. No entry moves, and the ranges of the
methods cover the script.
-/

namespace NeoScript

open Generator List CodeMap Instruction Session Option

/-! ### Parts of code -/

namespace Generator

variable {x : Handle} {pre mid post : List Handle}

lemma Together.refl (marks : List Handle) (h : Handle) : Together marks h h := fun _ _ => Iff.rfl

lemma Together.trans {marks : List Handle} {a b c : Handle} (h : Together marks a b) (h' : Together marks b c) :
    Together marks a c := fun x hx => (h x hx).trans (h' x hx)

/-- Of two instructions, in this order, the second belongs to no earlier part than the first, and if it starts a part
then it is the younger one. -/
def Precedes (starts : List Handle) (a b : Handle) : Prop :=
  (∀ d ∈ starts, d ≤ a → d ≤ b) ∧ (b ∈ starts → a < b)

/-- If each part has its start, the first instruction is a start. -/
lemma first_mem_starts {starts live : List Handle} (hord : live.Pairwise (Precedes starts))
    (hx : live.head? = some x) (hcov : ∃ d ∈ starts, d ∈ live ∧ Together starts d x) : x ∈ starts := by
  obtain ⟨d, hd, hlive, htog⟩ := hcov
  obtain ⟨rest, rfl⟩ := head?_eq_some_iff.1 hx
  rcases mem_cons.1 hlive with rfl | hmem
  · exact hd
  · have hlt : x < d := ((pairwise_cons.1 hord).1 d hmem).2 hd
    exact absurd ((htog d hd).1 (le_refl d)) (not_le.2 hlt)

/-- A block that has a start ends where another part starts, unless it has the start of what is behind it. -/
lemma next_mem_starts {starts : List Handle} {d : Handle}
    (hord : (pre ++ (mid ++ post)).Pairwise (Precedes starts)) (hd : d ∈ mid) (hstart : d ∈ starts)
    (hx : post.head? = some x)
    (hcov : ∃ e ∈ starts, e ∈ pre ++ (mid ++ post) ∧ e ∉ mid ∧ Together starts e x) : x ∈ starts := by
  obtain ⟨e, he, hlive, hout, htog⟩ := hcov
  obtain ⟨hpre, hrest, hcross⟩ := pairwise_append.1 hord
  obtain ⟨-, hpost, hacross⟩ := pairwise_append.1 hrest
  have hle : e ≤ x := (htog e he).1 (le_refl e)
  have hdx : d ≤ e := (htog d hstart).2 ((hacross d hd x (mem_of_mem_head? hx)).1 d hstart (le_refl d))
  rcases mem_append.1 hlive with hmem | hmem
  · -- The start of the part of `x` precedes the block, and so does not come behind `d`.
    exact absurd ((hcross e hmem d (mem_append_left _ hd)).2 hstart) (not_lt.2 hdx)
  · have hmem : e ∈ post := (mem_append.1 hmem).resolve_left hout
    obtain ⟨rest, rfl⟩ := head?_eq_some_iff.1 hx
    rcases mem_cons.1 hmem with rfl | hmem
    · exact he
    · exact absurd hle (not_le.2 (((pairwise_cons.1 hpost).1 e hmem).2 he))

variable {keep : Std.HashSet Handle} {starts : List Handle} {g g' : Generator}

/-- Code of which whole parts are kept, or none of their instructions that starts a method. -/
structure Parted (keep : Std.HashSet Handle) (starts : List Handle) (g : Generator) : Prop where
  laid : g.code.Laid
  refs : KeepsRefs keep g
  ordered : g.code.live.Pairwise (Precedes starts)
  entries : ∀ m d, g.entries.get? m = some d → d ∈ starts ∧ d ∈ g.code.live
  covered : ∀ h ∈ g.code.live, keep.contains h = true →
    ∃ m d, g.entries.get? m = some d ∧ keep.contains d = true ∧ Together starts d h

/-- The entries after the removal of a block. -/
lemma get?_entries_removeSpan (hl : g.code.Laid) (hs : g.code.live = pre ++ (mid ++ post))
    (hne : mid ≠ []) (m : String) : (g.removeSpan (span g.code.arena pre)
      (span g.code.arena pre + span g.code.arena mid - 1)).entries.get? m =
      (g.entries.get? m).bind fun d =>
        if d ∈ mid then post.head?.filter fun x => !(g.entries.entries.any fun e => e.2 == x) else some d := by
  have hlaid : (layOut g.code.arena (pre ++ post).toArray).Laid := by
    have hsub : (pre ++ post).Sublist g.code.live := by
      rw [hs]
      exact (sublist_append_right mid post).append_left pre
    exact laid_layOut (hl.nodup.sublist hsub) fun h hm => hl.bound h (hsub.subset hm)
  obtain ⟨e, heq⟩ := removeSpan_eq hl hs hne
  have hrel := @relink_relinked ({ g with code := .layOut g.code.arena (pre ++ post).toArray }.note e)
    ⟨.ofList mid, post.head?⟩ hlaid
  rw [heq, hrel.entries]
  refine (Table.get?_filterMap _ _ _).trans ?_
  simp only [Std.HashSet.contains_ofList, contains_iff_mem]
  rfl

/-- Removing a block between kept instructions moves no entry. -/
lemma Parted.removeSpan (hp : Parted keep starts g)
    (hs : g.code.live = pre ++ (mid ++ post)) (hne : mid ≠ []) (hmid : ∀ h ∈ mid, keep.contains h = false)
    (hpost : ∀ h, post.head? = some h → keep.contains h = true) (hg' : g' = g.removeSpan (span g.code.arena pre)
      (span g.code.arena pre + span g.code.arena mid - 1)) :
    Parted keep starts g' ∧ ∀ m d, g'.entries.get? m = some d → g.entries.get? m = some d := by
  obtain ⟨ht, hlive⟩ := removeSpan_trimmed hp.laid hp.refs hs hne hmid
  have hget := get?_entries_removeSpan hp.laid hs hne
  rw [← hg'] at ht hlive hget
  have hstay : ∀ m d, g.entries.get? m = some d → keep.contains d = true → g'.entries.get? m = some d :=
    fun m d hd hk => by
      rwa [ht.entries m fun x hx _ => some.inj (hd.symm.trans hx) ▸ hk]
  have hold : ∀ m d, g'.entries.get? m = some d → g.entries.get? m = some d ∧ d ∉ mid := fun m d hd => by
    rw [hget] at hd
    obtain ⟨d0, hd0, hcase⟩ := bind_eq_some_iff.1 hd
    split_ifs at hcase with hin
    · -- The entry is in the block: then some method starts behind the block, and the entry is dropped.
      obtain ⟨hx, hfree⟩ := filter_eq_some_iff.1 hcase
      have hxlive : d ∈ g.code.live := by
        rw [hs]
        exact mem_append_right _ (mem_append_right _ (mem_of_mem_head? hx))
      obtain ⟨m', e, he, hk, htog⟩ := hp.covered d hxlive (hpost d hx)
      have hstart : d ∈ starts := by
        refine next_mem_starts (hs ▸ hp.ordered) hin (hp.entries m d0 hd0).1 hx ⟨e, (hp.entries m' e he).1, ?_, ?_, htog⟩
        · exact hs ▸ (hp.entries m' e he).2
        · intro hmem
          rw [hmid e hmem] at hk
          cases hk
      have heq : e = d := le_antisymm ((htog e (hp.entries m' e he).1).1 (le_refl e))
        ((htog d hstart).2 (le_refl d))
      rw [Bool.not_eq_true', List.any_eq_false] at hfree
      exact absurd (by simp [heq]) (hfree (m', e) (Table.get?_eq_some_iff.1 he))
    · cases hcase
      exact ⟨hd0, hin⟩
  refine ⟨⟨ht.laid, ht.keepsRefs hp.refs, ?_, fun m d hd => ?_, fun h hm hk => ?_⟩, fun m d hd => (hold m d hd).1⟩
  · have hord := hp.ordered
    rw [hs] at hord
    rw [hlive]
    exact hord.sublist ((sublist_append_right mid post).append_left pre)
  · obtain ⟨hd, hout⟩ := hold m d hd
    obtain ⟨hstart, hmem⟩ := hp.entries m d hd
    rw [hs] at hmem
    rw [hlive]
    refine ⟨hstart, ?_⟩
    simp only [mem_append] at hmem ⊢
    tauto
  · obtain ⟨m, d, hd, hkd, htog⟩ := hp.covered h (ht.live h hm) hk
    exact ⟨m, d, hstay m d hd hkd, hkd, htog⟩

/-- **The removal of dead code moves no entry.** -/
lemma Pruned.entries (hp : Pruned keep g g') (h : Parted keep starts g) :
    Parted keep starts g' ∧ ∀ m d, g'.entries.get? m = some d → g.entries.get? m = some d := by
  induction hp with
  | refl g => exact ⟨h, fun _ _ hd => hd⟩
  | step hs hne hmid hpost _ ih =>
    obtain ⟨h1, hold1⟩ := h.removeSpan hs hne hmid hpost rfl
    obtain ⟨h', hold⟩ := ih h1
    exact ⟨h', fun m d hd => hold1 m d (hold m d hd)⟩

lemma Parted.first (hp : Parted keep starts g) (hx : g.code.live.head? = some x)
    (hk : keep.contains x = true) : ∃ m, g.entries.get? m = some x := by
  obtain ⟨m, d, hd, -, htog⟩ := hp.covered x (mem_of_mem_head? hx) hk
  obtain ⟨hstart, hlive⟩ := hp.entries m d hd
  have hxs := first_mem_starts hp.ordered hx ⟨d, hstart, hlive, htog⟩
  have heq : d = x := le_antisymm ((htog d hstart).1 (le_refl d)) ((htog x hxs).2 (le_refl x))
  exact ⟨m, heq ▸ hd⟩

/-- What the removal of dead code leaves of the methods: those whose entry is reached. -/
lemma Parted.removeDeadCode (hp : Parted (g.code.reachable g.rootEntries) starts g) (hroots : g.rootEntries ≠ []) :
    (∀ m d, g.removeDeadCode.1.entries.get? m = some d ↔
      g.entries.get? m = some d ∧ (g.code.reachable g.rootEntries).contains d = true) ∧
    (∀ m d, g.removeDeadCode.1.entries.get? m = some d → d ∈ g.removeDeadCode.1.code.live) ∧
    ∀ x, g.removeDeadCode.1.code.live.head? = some x → ∃ m, g.removeDeadCode.1.entries.get? m = some x := by
  obtain ⟨g1, trace, hpruned, hlive, heq⟩ := removeDeadCode_pruned hp.laid hroots
  obtain ⟨hp1, hold⟩ := hpruned.entries hp
  have ht := hpruned.trimmed hp.laid hp.refs
  have hkept : ∀ h ∈ g1.code.live, (g.code.reachable g.rootEntries).contains h = true := fun h hm => by
    rw [hlive] at hm
    exact (mem_filter.1 hm).2
  rw [heq]
  refine ⟨fun m d => ⟨fun hd => ⟨hold m d hd, hkept d (hp1.entries m d hd).2⟩, fun ⟨hd, hk⟩ => ?_⟩,
    fun m d hd => (hp1.entries m d hd).2, fun x hx => hp1.first hx (hkept x (mem_of_mem_head? hx))⟩
  exact (ht.entries m fun x hx _ => some.inj (hd.symm.trans hx) ▸ hk).trans hd

/-! ### What is written -/

lemma ends_fitJumps_entries (g : Generator) : Ends fitJumps g (fun _ g' => g'.entries = g.entries) fun _ => True := by
  refine .get ?_
  split_ifs
  · obtain ⟨trace, heq⟩ := g.widenJumps_eq
    exact .modify (by rw [heq])
  · split
    · exact .throw trivial
    · exact .pure rfl

/-- The methods of a unit are those of the generator after the removal of dead code. -/
lemma finish_written {choice : Choice} {failures : List MethodFailure} {u : CompiledUnit} (hl : g.code.Laid)
    (hframe : g.frame = none) (hp : g.pending = []) (h : (finish choice failures).run g = .ok u g') :
    let g1 := if g.options.removesDeadCode then g.removeDeadCode.1 else g
    Widened g1.code g'.code ∧ g'.entries = g1.entries ∧ g'.code.image? = some u.script ∧
      u.methods = g'.methodRanges := by
  have hwrite : ∀ statics g1, g1.code.Laid → (writeOut statics failures).run g1 = .ok u g' →
      Widened g1.code g'.code ∧ g'.entries = g1.entries ∧ g'.code.image? = some u.script ∧
        u.methods = g'.methodRanges := fun statics g1 hl1 h => by
    rw [writeOut, run_bind] at h
    split at h
    · next g2 hfit =>
      have hw := (ends_fitJumps hl1).of_ok hfit
      have he := (ends_fitJumps_entries g1).of_ok hfit
      rw [run_get_bind] at h
      split at h
      · cases h
      · next script himage =>
        cases h
        exact ⟨hw, he, himage, rfl⟩
    · cases h
  rw [finish_eq hframe hp] at h
  split at h
  · cases h
  · cases h
  · unfold simplify at h
    cases hremoves : g.options.removesDeadCode with
    | true =>
      rw [hremoves] at h
      obtain ⟨keep, -, ht, -, -⟩ := removeDeadCode_trimmed hl
      exact hwrite _ _ ht.laid h
    | false =>
      rw [hremoves] at h
      exact hwrite _ _ hl h

end Generator

lemma CodeMap.length_of_image? {m : CodeMap} {script : Bytes} (h : m.image? = some script) :
    script.length = m.size ∧ m.size < 2 ^ 32 := by
  obtain ⟨parts, -, h⟩ := bind_eq_some_iff.1 h
  dsimp only at h
  split_ifs at h with hsize
  cases h
  exact hsize

/-! ### Bodies -/

/-- Where two neighbours are in two lists, one behind the other. -/
lemma adjacent_append {α : Type} {l l' pre post : List α} {x y : α} (h : l ++ l' = pre ++ x :: y :: post) :
    (∃ more, l = pre ++ x :: y :: more) ∨ l = pre ++ [x] ∨ x ∈ l' ∧ y ∈ l' := by
  rcases append_eq_append_iff.1 h with ⟨more, -, hmore⟩ | ⟨more, hmore, hnext⟩
  · exact .inr (.inr (by rw [hmore]; simp))
  · match more, hmore, hnext with
    | [], _, hnext =>
      rw [nil_append] at hnext
      exact .inr (.inr (by rw [← hnext]; simp))
    | [z], hmore, hnext => exact .inr (.inl (by rw [hmore, (List.cons.inj hnext).1]))
    | z :: z' :: more, hmore, hnext =>
      simp only [cons_append, List.cons.injEq] at hnext
      exact .inl ⟨more, by rw [hmore, hnext.1, hnext.2.1]⟩

namespace Journal

/-- The first instructions of the bodies. -/
def starts (j : Journal) : List Handle := j.bodies.map Prod.snd

/-- Code consists of bodies, one behind the other, which control leaves only by calls and returns. -/
structure Bodied (j : Journal) : Prop extends Accounted j where
  one : ∀ m m' d, (m, d) ∈ j.bodies → (m', d) ∈ j.bodies → m = m'
  ordered : j.session.generator.code.live.Pairwise (Precedes j.starts)
  covered : ∀ h ∈ j.session.generator.code.live, ∃ m d, (m, d) ∈ j.bodies ∧ Together j.starts d h
  confined : ∀ h ∈ j.session.generator.code.live, ∀ i, j.session.generator.code.instruction? h = some i →
    i.opcode.role ≠ .call → ∀ d ∈ i.refs, Together j.starts h d
  through : ∀ pre h d post i, j.session.generator.code.live = pre ++ h :: d :: post →
    j.session.generator.code.instruction? h = some i → i.opcode.endsFlow = false → Together j.starts h d
  stops : ∀ h, j.session.generator.code.live.getLast? = some h →
    ∃ i, j.session.generator.code.instruction? h = some i ∧ i.opcode.endsFlow = true

lemma bodied_start (symbols : SymbolTable) (options : Options) (trace : Trace) : Bodied (start symbols options trace) where
  toAccounted := accounted_start symbols options trace
  one := nofun
  ordered := .nil
  covered := nofun
  confined := nofun
  through := fun pre _ _ _ _ h => by simp [start, Session.start, Generator.start, live] at h
  stops := nofun

variable {j j' : Journal} {c : Call} {s' : Session}
  {d : Handle} {g : Generator} {failures : List MethodFailure} {u : CompiledUnit}

/-- A method that is compiled has a body, behind all others. -/
lemma Accounted.compiled_body (ha : Accounted j) (h : j.session.perform c = .ok () s') :
    ∃ a rest, Sound j.session.generator (some c.name) (c.callsFrom j.session.generator ++ j.log) (fun _ => False)
        (a :: rest) s'.generator ∧ (j.compiled c s').bodies = (c.name, a) :: j.bodies := by
  obtain ⟨hclosed, -⟩ := perform_closed ha.idle ha.tidy h
  obtain ⟨new, hs⟩ := hclosed.sound
  cases new with
  | nil =>
    rcases (hs.named c.name rfl).opened with ⟨-, he⟩ | ⟨hne, -⟩
    · rw [hclosed.pending] at he
      cases he
    · exact absurd rfl hne
  | cons a rest =>
    refine ⟨a, rest, hs, ?_⟩
    rw [compiled, firstAfter?_eq hs]
    rfl

lemma Accounted.start_mem (ha : Accounted j) (hd : d ∈ j.starts) : d ∈ j.session.generator.code.live := by
  obtain ⟨⟨m, d⟩, he, rfl⟩ := mem_map.1 hd
  exact ha.idle.entries m d ((ha.entries m d).2 he)

lemma Bodied.step_ok (hb : Bodied j) (hf : ∀ d, (c.name, d) ∉ j.bodies) (h : j.session.perform c = .ok () s') :
    Bodied (j.compiled c s') := by
  have ha := hb.toAccounted.step_ok hf h
  obtain ⟨hclosed, -⟩ := perform_closed hb.idle hb.tidy h
  obtain ⟨a, rest, hs, hbodies⟩ := hb.compiled_body h
  have hstarts : (j.compiled c s').starts = a :: j.starts := congrArg (List.map Prod.snd) hbodies
  have hold : ∀ x ∈ j.session.generator.code.live, x < a := fun x hx =>
    lt_of_lt_of_le (hs.old hx) (hs.fresh a mem_cons_self)
  have hnew : ∀ x ∈ a :: rest, a ≤ x := hs.head a rfl
  have hle : ∀ d ∈ a :: j.starts, d ≤ a :=
    forall_mem_cons.2 ⟨le_refl a, fun d hd => le_of_lt (hold d (hb.start_mem hd))⟩
  have hboth : ∀ x ∈ a :: rest, ∀ y ∈ a :: rest, Together (a :: j.starts) x y := fun x hx y hy =>
    together_of_le hle (hnew x hx) (hnew y hy)
  have hrest : ∀ y ∈ rest, y ∉ a :: j.starts := fun y hy hmem => by
    have hnd := (nodup_append.1 (hs.live ▸ hs.laid.nodup)).2.1
    rcases mem_cons.1 hmem with rfl | hmem
    · exact (nodup_cons.1 hnd).1 hy
    · exact hs.not_mem_new (hb.start_mem hmem) (mem_cons_of_mem _ hy)
  refine {
    toAccounted := ha
    one := fun m m' d hm hm' => ?one
    ordered := ?ordered
    covered := fun x hx => ?covered
    confined := fun x hx i hi hr d hd => ?confined
    through := fun pre x d post i hsplit hi hflow => ?through
    stops := fun x hx => ?stops }
  case one =>
    rw [hbodies, mem_cons, Prod.mk.injEq] at hm hm'
    rcases hm with ⟨rfl, rfl⟩ | hm <;> rcases hm' with ⟨rfl, hd⟩ | hm'
    · rfl
    · exact absurd (hold d (hb.start_mem (mem_map_of_mem hm'))) (lt_irrefl d)
    · exact absurd (hold d (hb.start_mem (mem_map_of_mem hm))) (hd ▸ lt_irrefl d)
    · exact hb.one m m' d hm hm'
  case ordered =>
    have hlive : (j.compiled c s').session.generator.code.live = j.session.generator.code.live ++ a :: rest := hs.live
    have hbehind : ∀ x, ∀ y ∈ rest, Precedes (a :: j.starts) x y := fun x y hy =>
      ⟨fun d hd _ => le_trans (hle d hd) (hnew y (mem_cons_of_mem _ hy)), fun hmem => absurd hmem (hrest y hy)⟩
    rw [hlive, hstarts, pairwise_append, pairwise_cons]
    refine ⟨hb.ordered.imp_of_mem fun {x y} hx hy hxy => ⟨fun d hd hdx => ?_, fun hmem => ?_⟩,
      ⟨hbehind a, pairwise_of_forall_mem_list fun x _ => hbehind x⟩, fun x hx y hy => ?_⟩
    · rcases mem_cons.1 hd with rfl | hd
      · exact absurd (hold x hx) (not_lt.2 hdx)
      · exact hxy.1 d hd hdx
    · rcases mem_cons.1 hmem with rfl | hmem
      · exact absurd (hold y hy) (lt_irrefl y)
      · exact hxy.2 hmem
    · have hlt : x < y := lt_of_lt_of_le (hold x hx) (hnew y hy)
      exact ⟨fun d _ hdx => le_trans hdx (le_of_lt hlt), fun _ => hlt⟩
  case covered =>
    rw [hstarts, hbodies]
    rcases mem_append.1 (hs.live ▸ hx) with hx | hx
    · obtain ⟨m, d, hd, htog⟩ := hb.covered x hx
      exact ⟨m, d, mem_cons_of_mem _ hd, htog.cons (hold d (hb.start_mem (mem_map_of_mem hd))) (hold x hx)⟩
    · exact ⟨c.name, a, mem_cons_self, hboth a mem_cons_self x hx⟩
  case confined =>
    rw [hstarts]
    rcases mem_append.1 (hs.live ▸ hx) with hx | hx
    · have hi := hs.old_instruction hx hi hr
      exact (hb.confined x hx i hi hr d hd).cons (hold x hx) (hold d (hb.idle.closed x hx i hi d hd))
    · refine hboth x hx d (hs.mem_new (ha.idle.closed x (hs.mem_live hx) i hi d hd) ?_)
      exact ((hclosed.idle hb.idle).together (hs.mem_live hx) hi hr hd _ mem_cons_self).1 (hs.fresh x hx)
  case through =>
    rw [hstarts]
    rcases adjacent_append (hs.live.symm.trans hsplit) with ⟨more, hmore⟩ | hlast | ⟨hx, hd⟩
    · have hx : x ∈ j.session.generator.code.live := by rw [hmore]; simp
      obtain ⟨i0, hi0, ho⟩ := hs.old_opcode hx hi
      exact (hb.through pre x d more i0 hmore hi0 (ho ▸ hflow)).cons (hold x hx) (hold d (by rw [hmore]; simp))
    · obtain ⟨i0, hi0, ho⟩ := hs.old_opcode (by rw [hlast]; simp) hi
      obtain ⟨i1, hi1, hends⟩ := hb.stops x (by rw [hlast]; simp)
      rw [some.inj (hi1.symm.trans hi0), ho, hflow] at hends
      cases hends
    · exact hboth x hx d hd
  case stops =>
    obtain ⟨y, i, hy, hi, hret⟩ := hclosed.returns
    obtain rfl : x = y := some.inj (hx.symm.trans hy)
    exact ⟨i, hi, by rw [hret]; rfl⟩

/-- A refused method leaves the bodies as they were. -/
lemma Bodied.step_refused (hb : Bodied j) (hf : ∀ d, (c.name, d) ∉ j.bodies)
    (hfits : j.session.generator.Fits c.name) {cause : CompileError} (h : j.session.perform c = .error (.refused cause) s') :
    Bodied { j with session := s', marks := j.session.generator.code.nextHandle :: j.marks } := by
  obtain ⟨hr, -⟩ := perform_restored hb.idle hb.tidy hfits (hb.fresh hf) h
  have hsame : ∀ x i, x ∈ j.session.generator.code.live → s'.generator.code.instruction? x = some i →
      j.session.generator.code.instruction? x = some i := fun x i hx hi => (hr.old x hx).symm.trans hi
  exact {
    toAccounted := hb.toAccounted.step_refused hf hfits h
    one := hb.one
    ordered := hr.live ▸ hb.ordered
    covered := hr.live ▸ hb.covered
    confined := fun x hx i hi => by
      have hx : x ∈ j.session.generator.code.live := hr.live ▸ hx
      exact hb.confined x hx i (hsame x i hx hi)
    through := fun pre x d post i hs hi => by
      have hs : j.session.generator.code.live = pre ++ x :: d :: post := hr.live.symm.trans hs
      exact hb.through pre x d post i hs (hsame x i (by rw [hs]; simp) hi)
    stops := fun x hx => by
      have hx : j.session.generator.code.live.getLast? = some x := hr.live ▸ hx
      obtain ⟨i, hi, hends⟩ := hb.stops x hx
      exact ⟨i, (hr.old x (mem_of_getLast? hx)).trans hi, hends⟩ }

/-- **In every run the code consists of bodies.** The settings stay the same. -/
lemma lasting_bodied (settings : SymbolTable × Options) :
    Lasting fun j => Bodied j ∧ j.session.generator.settings = settings where
  accounted := fun _ h => h.1.toAccounted
  compiled := fun _ c _ h hf hs =>
    ⟨h.1.step_ok hf hs, ((c.ends_emission_level _).of_ok (perform_ok hs)).1.settings.trans h.2⟩
  refused := fun _ _ _ _ h hf hfits hs =>
    ⟨h.1.step_refused hf hfits hs, (perform_settings_refused hs).trans h.2⟩

/-- What reaches a body reaches its first instruction. -/
lemma Bodied.reaches_start (hb : Bodied j) {h : Handle}
    (hr : j.session.generator.code.Reaches j.session.generator.IsRoot h) :
    ∃ m d, (m, d) ∈ j.bodies ∧ j.session.generator.code.Reaches j.session.generator.IsRoot d ∧
      Together j.starts d h := by
  induction hr with
  | @root h hroot hm =>
    obtain ⟨m, -, hentry⟩ := id hroot
    exact ⟨m, h, (hb.entries m h).1 hentry, .root hroot hm, .refl _ _⟩
  | @target h d i hr hi hd hm ih =>
    by_cases hcall : i.opcode.role = .call
    · -- A call leads to the first instruction of a body.
      rw [refs_eq (by simp [hcall])] at hd
      obtain ⟨f, hlog⟩ := hb.tidy.logged h hr.mem ((role?_eq hi).trans (by rw [hcall]))
      rcases hb.idle.call h hr.mem i hi hcall with ⟨d', hd', ht⟩ | ⟨hu, -⟩
      · obtain rfl : d = d' := by
          rw [ht] at hd
          exact mem_singleton.1 hd
        refine ⟨f, d, hb.leads h f i d hlog hr.mem hi ht, hr.target hi ?_ hm, .refl _ _⟩
        rw [refs_eq (by simp [hcall]), ht]
        exact mem_cons_self
      · rw [hu] at hd
        cases hd
    · obtain ⟨m, e, he, hre, htog⟩ := ih
      exact ⟨m, e, he, hre, htog.trans (hb.confined h hr.mem i hi hcall d hd)⟩
  | @next h d i hr hi hflow hn ih =>
    obtain ⟨m, e, he, hre, htog⟩ := ih
    obtain ⟨pre, post, hs⟩ := append_of_mem hr.mem
    rw [hb.idle.laid.next?_split hs] at hn
    obtain ⟨post, rfl⟩ := head?_eq_some_iff.1 hn
    exact ⟨m, e, he, hre, htog.trans (hb.through pre h d post i hs hi hflow)⟩

/-- The methods that are left in a script: all of them, or those whose entry is reached if there are roots. -/
def Listed (j : Journal) (m : String) (d : Handle) : Prop :=
  (m, d) ∈ j.bodies ∧ (j.session.generator.options.removesDeadCode = true → (∃ h, j.session.generator.IsRoot h) →
    j.session.generator.code.Reaches j.session.generator.IsRoot d)

/-- The entries that are left are those of the listed methods, and the first instruction is one of them. -/
lemma Bodied.simplified (hb : Bodied j)
    (hg : g = if j.session.generator.options.removesDeadCode then j.session.generator.removeDeadCode.1
      else j.session.generator) : g.code.Laid ∧ (∀ m d, g.entries.get? m = some d ↔ j.Listed m d) ∧
      (∀ m d, g.entries.get? m = some d → d ∈ g.code.live) ∧
      ∀ x, g.code.live.head? = some x → ∃ m, g.entries.get? m = some x := by
  have hentries : ∀ m d, j.session.generator.entries.get? m = some d →
      d ∈ j.starts ∧ d ∈ j.session.generator.code.live := fun m d hd =>
    ⟨mem_map_of_mem ((hb.entries m d).1 hd), hb.idle.entries m d hd⟩
  have hwhole : Parted (.ofList j.session.generator.code.live) j.starts j.session.generator := by
    refine ⟨hb.idle.laid, keepsRefs_live _, hb.ordered, hentries, fun h hm _ => ?_⟩
    obtain ⟨m, d, hd, htog⟩ := hb.covered h hm
    have hentry := (hb.entries m d).2 hd
    exact ⟨m, d, hentry, by simpa using (hentries m d hentry).2, htog⟩
  by_cases hroot : j.session.generator.options.removesDeadCode = true ∧ ∃ h, j.session.generator.IsRoot h
  · obtain ⟨hremoves, h0, hroot⟩ := hroot
    have hroots : j.session.generator.rootEntries ≠ [] := ne_nil_of_mem (mem_rootEntries.2 hroot)
    have hreach : ∀ h, (j.session.generator.code.reachable j.session.generator.rootEntries).contains h = true ↔
        j.session.generator.code.Reaches j.session.generator.IsRoot h := fun h => by
      rw [reachable_iff hb.idle.laid]
      simp only [mem_rootEntries]
    have hparted : Parted (j.session.generator.code.reachable j.session.generator.rootEntries) j.starts
        j.session.generator := by
      refine ⟨hb.idle.laid, keepsRefs_reachable hb.idle.laid _, hb.ordered, hentries, fun h _ hk => ?_⟩
      obtain ⟨m, d, hd, hr, htog⟩ := hb.reaches_start ((hreach h).1 hk)
      exact ⟨m, d, (hb.entries m d).2 hd, (hreach d).2 hr, htog⟩
    obtain ⟨keep, -, ht, -, -⟩ := removeDeadCode_trimmed hb.idle.laid
    obtain ⟨hleft, hlive, hfirst⟩ := hparted.removeDeadCode hroots
    rw [hg, if_pos hremoves]
    refine ⟨ht.laid, fun m d => ?_, hlive, hfirst⟩
    rw [hleft, hb.entries, hreach]
    exact and_congr_right fun _ => ⟨fun hr _ _ => hr, fun hr => hr hremoves ⟨h0, hroot⟩⟩
  · have hself : g = j.session.generator := by
      rw [hg]
      split_ifs with hremoves
      · have hnil : j.session.generator.rootEntries = [] := eq_nil_iff_forall_not_mem.2 fun h hm =>
          hroot ⟨hremoves, h, mem_rootEntries.1 hm⟩
        rw [removeDeadCode, hnil]
      · rfl
    rw [hself]
    refine ⟨hb.idle.laid, fun m d => ?_, hb.idle.entries,
      fun x hx => hwhole.first hx (by simpa using mem_of_mem_head? hx)⟩
    rw [hb.entries]
    exact ⟨fun hd => ⟨hd, fun hremoves h => absurd ⟨hremoves, h⟩ hroot⟩, fun h => h.1⟩

/-- The methods of a unit that is written after a run. -/
lemma Bodied.written {choice : Choice} (hb : Bodied j)
    (h : (finish choice failures).run j.session.generator = .ok u g) : Tiles u.script.length 0 u.methods.entries ∧
      ∀ m a, (u.methods.get? m).map (fun r => r.start.toNat) = some a ↔
        ∃ d, j.Listed m d ∧ g.code.start? d = some a := by
  obtain ⟨hw, hentries, himage, hmethods⟩ :=
    finish_written hb.idle.laid (congrArg Prod.fst hb.idle.constructs) hb.tidy.pending h
  obtain ⟨-, hlisted, -, hfirst⟩ := hb.simplified rfl
  obtain ⟨hlength, hsize⟩ := length_of_image? himage
  rw [hmethods, hlength]
  refine ⟨tiles_methodRanges hw.laid hsize (fun m m' d hm hm' => ?_) fun x hx => ?_, fun m a => ?_⟩
  · rw [hentries, hlisted] at hm hm'
    exact hb.one m m' d hm.1 hm'.1
  · rw [hentries]
    exact hfirst x (hw.live ▸ hx)
  · rw [start_methodRanges hw.laid hsize, bind_eq_some_iff, hentries]
    simp only [hlisted]

/-- Listed methods are in the code that is written. -/
lemma Bodied.listed_live {choice : Choice} (hb : Bodied j)
    (h : (finish choice failures).run j.session.generator = .ok u g) {m : String} (hd : j.Listed m d) : ∃ a, g.code.start? d = some a := by
  obtain ⟨hw, -, -, -⟩ := finish_written hb.idle.laid (congrArg Prod.fst hb.idle.constructs) hb.tidy.pending h
  obtain ⟨-, hlisted, hlive, -⟩ := hb.simplified rfl
  refine isSome_iff_exists.1 (hw.laid.start?_isSome_iff.2 ?_)
  rw [hw.live]
  exact hlive m d ((hlisted m d).2 hd)

end Journal

/-- **Methods tile the script.** Suppose that no method is compiled again after it has a body and that slots can be
reserved. If the session is finished, the ranges of the methods follow one another without a gap from the first byte
of the script to the last, and each starts with the first instruction of the method's own body. The methods are those
that have a body, except that dead code removal, if there is an entry of a public method or of the initializer, leaves
only those whose first instruction control can reach. -/
theorem finish_tiles {symbols : SymbolTable} {options : Options} {trace : Trace} {calls : List Call} {j : Journal}
    {u : CompiledUnit} {s : Session} {choice : Choice} (hrun : (Journal.start symbols options trace).run calls = some j)
    (horderly : (Journal.start symbols options trace).Orderly calls) (hfinish : j.session.finish choice = .ok u s) :
    Tiles u.script.length 0 u.methods.entries ∧
    u.methods.entries.Pairwise (fun e e' => e.2.start < e'.2.start) ∧
    ∃ j₁, j.settle? = some j₁ ∧
      (∀ m r, u.methods.get? m = some r →
        ∃ d, (m, d) ∈ j₁.bodies ∧ s.generator.code.start? d = some r.start.toNat) ∧
      ∀ m, (u.methods.get? m).isSome ↔ ∃ d, (m, d) ∈ j₁.bodies ∧
        (options.removesDeadCode = true → (∃ h, j₁.session.generator.IsRoot h) →
          j₁.session.generator.code.Reaches j₁.session.generator.IsRoot d) := by
  obtain ⟨s₁, hensure, hwrite⟩ := Session.finish_ok hfinish
  obtain ⟨j₁, hsettle, rfl⟩ := Journal.settle?_of_ensureInitializer hensure
  have hlasting := Journal.lasting_bodied (symbols, options)
  obtain ⟨hb, hsettings⟩ := hlasting.settle
    (hlasting.run ⟨Journal.bodied_start symbols options trace, rfl⟩ horderly hrun) hsettle
  have hoptions : j₁.session.generator.options = options := congrArg Prod.snd hsettings
  obtain ⟨htiles, hmethods⟩ := hb.written hwrite
  refine ⟨htiles, htiles.increasing, j₁, hsettle, fun m r hr => ?_, fun m => ?_⟩
  · obtain ⟨d, hd, hstart⟩ := (hmethods m r.start.toNat).1 (by rw [hr]; rfl)
    exact ⟨d, hd.1, hstart⟩
  · rw [← hoptions]
    constructor
    · intro hsome
      obtain ⟨r, hr⟩ := Option.isSome_iff_exists.1 hsome
      obtain ⟨d, hd, -⟩ := (hmethods m r.start.toNat).1 (by rw [hr]; rfl)
      exact ⟨d, hd⟩
    · rintro ⟨d, hd⟩
      obtain ⟨a, ha⟩ := hb.listed_live hwrite hd
      have hmap := (hmethods m a).2 ⟨d, hd, ha⟩
      rw [← Option.isSome_map (f := fun r : MethodRange => r.start.toNat), hmap]
      rfl

/-- A run with a method that is refused and compiled again, before its callee. -/
def refusedOnce : List Call :=
  [.method "caller" [.call "callee", .load "nowhere"], .method "caller" [.call "callee", .returnFrom true],
    .method "callee" [.integer 2, .returnFrom true]]

theorem finish_tiles_refused :
    ∃ j u s, (Journal.start callerAndCallee { level := .none } {}).run refusedOnce = some j ∧
      (Journal.start callerAndCallee { level := .none } {}).Orderly refusedOnce ∧ j.session.finish = .ok u s ∧
      j.session.failures.length = 1 ∧ j.bodies = [("callee", 3), ("caller", 1)] ∧
      Tiles u.script.length 0 u.methods.entries ∧ (u.methods.get? "caller").isSome ∧
      ∃ r, u.methods.get? "callee" = some r ∧ s.generator.code.start? 3 = some r.start.toNat := by
  have hsome : ((Journal.start callerAndCallee { level := .none } {}).run refusedOnce |>.bind fun j =>
      j.unit?.filter fun _ => j.session.failures.length = 1 ∧ j.bodies = [("callee", 3), ("caller", 1)] ∧
        j.session.generator.statics.isEmpty = true).isSome = true := by decide +kernel
  have horderly := Journal.orderly_of_isOrderly (.start callerAndCallee { level := .none } {}) refusedOnce
    (by decide +kernel)
  obtain ⟨⟨u, s⟩, h⟩ := Option.isSome_iff_exists.1 hsome
  obtain ⟨j, hrun, h⟩ := Option.bind_eq_some_iff.1 h
  obtain ⟨hunit, h⟩ := Option.filter_eq_some_iff.1 h
  obtain ⟨hfailed, hbodies, hstatics⟩ := of_decide_eq_true h
  have hfinish := Journal.finish_of_unit? hunit
  obtain ⟨htiles, -, j₁, hsettle, hstart, hlisted⟩ := finish_tiles hrun horderly hfinish
  obtain rfl : j = j₁ := by
    rw [Journal.settle?, hstatics] at hsettle
    exact Option.some.inj hsettle
  have hsomeOf : ∀ m d, (m, d) ∈ j.bodies → (u.methods.get? m).isSome := fun m d hd =>
    (hlisted m).2 ⟨d, hd, fun hremoves => absurd hremoves (by decide)⟩
  refine ⟨j, u, s, hrun, horderly, hfinish, hfailed, hbodies, htiles, hsomeOf "caller" 1 (by simp [hbodies]), ?_⟩
  obtain ⟨r, hr⟩ := Option.isSome_iff_exists.1 (hsomeOf "callee" 3 (by simp [hbodies]))
  obtain ⟨d, hd, ha⟩ := hstart "callee" r hr
  obtain rfl : d = 3 := by simpa [hbodies] using hd
  exact ⟨r, hr, ha⟩

end NeoScript
