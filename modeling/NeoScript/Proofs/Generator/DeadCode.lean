import NeoScript.Generator.Finish
import NeoScript.Proofs.CodeMap.DeadSpans
import NeoScript.Proofs.CodeMap.Reachability

/-!
# Removing dead code

What control can reach refers only to what control can reach, so the removal of everything else changes no
instruction that is left.
-/

namespace NeoScript

open List CodeMap

namespace Generator

/-! ### Removing a block -/

variable {keep : Std.HashSet Handle} {g g' g'' : Generator}
  {pre : List Handle} {m : CodeMap} {h : Handle}

/-- Among live instructions, those to keep refer only to those to keep. -/
def KeepsRefs (keep : Std.HashSet Handle) (g : Generator) : Prop :=
  ∀ h ∈ g.code.live, keep.contains h = true → ∀ i, g.code.instruction? h = some i → ∀ d ∈ i.refs, d ∈ g.code.live →
    keep.contains d = true

/-- The generator `g'` is `g` without some instructions outside `keep`. -/
structure Trimmed (keep : Std.HashSet Handle) (g g' : Generator) : Prop where
  laid : g'.code.Laid
  shape : g'.code.shape? = g.code.shape?
  live : ∀ h ∈ g'.code.live, h ∈ g.code.live
  kept : ∀ h, keep.contains h = true → g'.code.instruction? h = g.code.instruction? h
  context : g'.context = g.context
  entries : ∀ name, (∀ h ∈ g.entries.get? name, h ∈ g.code.live → keep.contains h = true) →
    g'.entries.get? name = g.entries.get? name

lemma Trimmed.refl (hl : g.code.Laid) : Trimmed keep g g :=
  ⟨hl, rfl, fun _ h => h, fun _ _ => rfl, rfl, fun _ _ => rfl⟩

lemma Trimmed.trans (h : Trimmed keep g g') (h' : Trimmed keep g' g'') : Trimmed keep g g'' := by
  refine ⟨h'.laid, h'.shape.trans h.shape, fun x hx => h.live x (h'.live x hx),
    fun x hx => (h'.kept x hx).trans (h.kept x hx), h'.context.trans h.context, fun name hname => ?_⟩
  have hsame := h.entries name hname
  rw [h'.entries name fun x hx hlive => hname x (hsame ▸ hx) (h.live x hlive), hsame]

lemma Trimmed.keepsRefs (h : Trimmed keep g g') (hk : KeepsRefs keep g) : KeepsRefs keep g' :=
  fun x hx hc i hi d hd hm => hk x (h.live x hx) hc i ((h.kept x hc).symm.trans hi) d hd (h.live d hm)

/-- Removing a block of instructions outside `keep`. -/
lemma removeSpan_trimmed {mid post : List Handle} (hl : g.code.Laid) (hk : KeepsRefs keep g)
    (hs : g.code.live = pre ++ (mid ++ post)) (hne : mid ≠ []) (hmid : ∀ h ∈ mid, keep.contains h = false) :
    Trimmed keep g (g.removeSpan (span g.code.arena pre)
      (span g.code.arena pre + span g.code.arena mid - 1)) ∧
      (g.removeSpan (span g.code.arena pre)
        (span g.code.arena pre + span g.code.arena mid - 1)).code.live = pre ++ post := by
  have hnd : (pre ++ post).Nodup := by
    have hnd := hl.nodup
    rw [hs] at hnd
    exact hnd.sublist (Sublist.append_left (sublist_append_right mid post) pre)
  have hlaid : (layOut g.code.arena (pre ++ post).toArray).Laid := laid_layOut hnd fun h hm => by
    refine hl.bound h ?_
    rw [hs]
    simp only [mem_append] at hm ⊢
    exact hm.imp_right .inr
  obtain ⟨e, heq⟩ := removeSpan_eq hl hs hne
  rw [heq]
  have hrel := @relink_relinked ({ g with code := .layOut g.code.arena (pre ++ post).toArray }.note e)
    ⟨.ofList mid, post.head?⟩ hlaid
  have hlive : ∀ h ∈ pre ++ post, h ∈ g.code.live := fun h hm => by
    rw [hs]
    simp only [mem_append] at hm ⊢
    exact hm.imp_right .inr
  have hmid' : ∀ h, (Std.HashSet.ofList mid).contains h = true → h ∈ g.code.live ∧ keep.contains h = false :=
    fun h hr => by
      simp only [Std.HashSet.contains_ofList, contains_iff_mem] at hr
      exact ⟨by rw [hs]; simp [hr], hmid h hr⟩
  refine ⟨⟨hrel.laid hlaid, hrel.shape, fun h hm => hlive h ?_, fun h hc => ?_, hrel.context, fun name hname => ?_⟩,
    hrel.live⟩
  · rwa [hrel.live] at hm
  · by_cases hm : h ∈ (layOut g.code.arena (pre ++ post).toArray).linked
    · obtain ⟨hm', i, hi, -⟩ := (mem_linked hlaid).1 hm
      rw [hrel.mem h hm i hi, (new_of_kept fun d hd => ?_).1]
      · exact hi.symm
      · rw [← Bool.not_eq_true]
        intro hr
        have hd := hk h (hlive h hm') hc i hi d hd (hmid' d hr).1
        rw [(hmid' d hr).2] at hd
        cases hd
    · exact hrel.other h hm
  · rw [hrel.entries]
    refine (Table.get?_filterMap _ _ _).trans ?_
    show (g.entries.get? name).bind _ = _
    cases hentry : g.entries.get? name with
    | none => rfl
    | some h =>
      refine if_neg fun hr => ?_
      have hh := hname h hentry (hmid' h hr).1
      rw [(hmid' h hr).2] at hh
      cases hh

/-! ### Removing all dead spans -/

/-- Blocks outside `keep` are removed one after the other, each up to an instruction of `keep` or to the end. -/
inductive Pruned (keep : Std.HashSet Handle) : Generator → Generator → Prop
  | refl (g : Generator) : Pruned keep g g
  | step {g g' : Generator} {pre mid post : List Handle} (hs : g.code.live = pre ++ (mid ++ post)) (hne : mid ≠ [])
      (hmid : ∀ h ∈ mid, keep.contains h = false) (hpost : ∀ h, post.head? = some h → keep.contains h = true)
      (hrest : Pruned keep (g.removeSpan (CodeMap.span g.code.arena pre)
        (CodeMap.span g.code.arena pre + CodeMap.span g.code.arena mid - 1)) g') : Pruned keep g g'

lemma Pruned.trimmed (hp : Pruned keep g g') (hl : g.code.Laid) (hk : KeepsRefs keep g) : Trimmed keep g g' := by
  induction hp with
  | refl g => exact .refl hl
  | step hs hne hmid hpost hrest ih =>
    obtain ⟨ht, -⟩ := removeSpan_trimmed hl hk hs hne hmid
    exact ht.trans (ih ht.laid (ht.keepsRefs hk))

/-- Removing the spans carved from the code `pre` at the start takes everything outside `keep` out of it, if `keep` has
the instruction behind it. -/
lemma removeEach_carved {spans : List (Nat × Nat)} {rest : List Handle} (hc : Carved keep m.arena pre spans)
    (hl : g.code.Laid) (hk : KeepsRefs keep g) (hshape : g.code.shape? = m.shape?) (hlive : g.code.live = pre ++ rest)
    (hrest : ∀ h, rest.head? = some h → keep.contains h = true) :
    Pruned keep g (spans.foldl (fun g span => g.removeSpan span.1 span.2) g) ∧
      (spans.foldl (fun g span => g.removeSpan span.1 span.2) g).code.live = pre.filter keep.contains ++ rest := by
  induction hc generalizing g rest with
  | nil => exact ⟨.refl g, hlive⟩
  | kept _ hh ih =>
    rw [append_assoc] at hlive
    rw [filter_append, filter_cons_of_pos hh, filter_nil, append_assoc]
    exact ih hl hk hshape hlive fun x hx => Option.some.inj hx ▸ hh
  | @dead pre mid spans _ _ hne hmid ih =>
    have hspan : span m.arena = span g.code.arena := funext fun hs =>
      span_congr fun x _ => sizeOf_congr (congrFun hshape.symm x)
    rw [append_assoc] at hlive
    obtain ⟨ht, hlive'⟩ := removeSpan_trimmed hl hk hlive hne hmid
    obtain ⟨hp, hlive''⟩ := ih ht.laid (ht.keepsRefs hk) (ht.shape.trans hshape) hlive' hrest
    rw [foldl_cons, hspan]
    refine ⟨.step hlive hne hmid hrest hp, hlive''.trans ?_⟩
    rw [filter_append, (filter_none hmid).1, append_nil]

/-- **Removing dead code leaves the instructions to keep, as they were.** -/
lemma removeSpans_deadSpans (hl : g.code.Laid) (hk : KeepsRefs keep g) :
    Pruned keep g (g.removeSpans (g.code.deadSpans keep)) ∧
      (g.removeSpans (g.code.deadSpans keep)).code.live = g.code.live.filter keep.contains := by
  have hrun := removeEach_carved hl.carved_deadSpans hl hk rfl (append_nil _).symm nofun
  rwa [append_nil] at hrun

lemma keepsRefs_reachable (hl : g.code.Laid) (roots : List Handle) : KeepsRefs (g.code.reachable roots) g :=
  fun _ _ hc i hi _ hd hm => successor_reachable hc ((mem_successors hl).2 ⟨hm, i, hi, .inl hd⟩)

lemma keepsRefs_live (g : Generator) : KeepsRefs (.ofList g.code.live) g := fun _ _ _ _ _ _ _ hm => by simpa using hm

/-- Dead code is what is not reached from the roots, and its removal leaves a trace. -/
lemma removeDeadCode_pruned (hl : g.code.Laid) (hroots : g.rootEntries ≠ []) :
    ∃ g1 trace, Pruned (g.code.reachable g.rootEntries) g g1 ∧
      g1.code.live = g.code.live.filter (g.code.reachable g.rootEntries).contains ∧
      g.removeDeadCode.1 = { g1 with trace } := by
  obtain ⟨hp, hlive⟩ := removeSpans_deadSpans hl (keepsRefs_reachable hl g.rootEntries)
  unfold removeDeadCode
  split
  · next hnil => exact absurd hnil hroots
  · dsimp only
    split_ifs
    · exact ⟨_, _, hp, hlive, rfl⟩
    · exact ⟨_, _, hp, hlive, rfl⟩

/-- What is left after the removal of dead code is as it was. -/
lemma removeDeadCode_trimmed (hl : g.code.Laid) :
    ∃ keep : Std.HashSet Handle, KeepsRefs keep g ∧ Trimmed keep g g.removeDeadCode.1 ∧
      g.removeDeadCode.1.code.live = g.code.live.filter keep.contains ∧
      (g.rootEntries ≠ [] → keep = g.code.reachable g.rootEntries) := by
  by_cases hroots : g.rootEntries = []
  · have hself : g.removeDeadCode.1 = g := by rw [removeDeadCode, hroots]
    rw [hself]
    refine ⟨_, g.keepsRefs_live, .refl hl, ?_, fun hne => absurd hroots hne⟩
    refine (List.filter_eq_self.2 fun h hm => ?_).symm
    simpa using hm
  · have hk := keepsRefs_reachable hl g.rootEntries
    obtain ⟨g1, trace, hp, hlive, heq⟩ := removeDeadCode_pruned hl hroots
    have ht := hp.trimmed hl hk
    rw [heq]
    exact ⟨_, hk, ⟨ht.laid, ht.shape, ht.live, ht.kept, ht.context, ht.entries⟩, hlive, fun _ => rfl⟩

/-! ### What is left -/

/-- The entries that control starts from: those of the public methods, and the initializer's. -/
def IsRoot (g : Generator) (h : Handle) : Prop :=
  ∃ name, (name ∈ g.symbols.publicMethods ∨ name = initializer) ∧ g.entries.get? name = some h

lemma mem_rootEntries : h ∈ g.rootEntries ↔ g.IsRoot h := by
  simp [rootEntries, IsRoot]

/-- If control reaches everything, nothing is removed. -/
lemma removeDeadCode_of_reached (hl : g.code.Laid) (hreach : ∀ h ∈ g.code.live, g.code.Reaches g.IsRoot h) :
    g.removeDeadCode = (g, 0) := by
  have hkeep : ∀ e ∈ g.code.instructions, (g.code.reachable g.rootEntries).contains e.2.1 = true := fun e he => by
    rw [reachable_iff hl]
    simp only [mem_rootEntries]
    exact hreach _ (hl.mem_instructions he).1
  have hfold : ∀ es : List (Nat × Handle × Instruction), (∀ e ∈ es, (g.code.reachable g.rootEntries).contains e.2.1 = true) →
      es.foldl (g.code.deadStep (g.code.reachable g.rootEntries)) ([], none) = ([], none) := fun es hes => by
    induction es with
    | nil => rfl
    | cons e es ih =>
      rw [foldl_cons, deadStep, if_pos (hes e mem_cons_self)]
      exact ih fun x hx => hes x (mem_cons_of_mem _ hx)
  have hspans : g.code.deadSpans (g.code.reachable g.rootEntries) = [] := by
    rw [deadSpans, hfold _ hkeep]
    rfl
  unfold removeDeadCode
  split
  · rfl
  · simp [hspans, removeSpans]

/-- What is behind a kept instruction stays behind it if it is kept too. -/
lemma next?_of_filter {m' : CodeMap} {keep : Handle → Bool} (hl : m.Laid) (hl' : m'.Laid)
    (hlive : m'.live = m.live.filter keep) (hm : h ∈ m.live) (hk : keep h = true)
    (hnext : ∀ d, m.next? h = some d → keep d = true) : m'.next? h = m.next? h := by
  obtain ⟨pre, post, hs⟩ := append_of_mem hm
  have hs' : m'.live = pre.filter keep ++ h :: post.filter keep := by
    rw [hlive, hs, filter_append, filter_cons_of_pos hk]
  rw [hl'.next?_split hs', hl.next?_split hs]
  cases post with
  | nil => rfl
  | cons d post => rw [filter_cons_of_pos (hnext d (hl.next?_split hs)), head?_cons, head?_cons]

lemma snd_removeDeadCode (g : Generator) :
    g.removeDeadCode.2 = g.code.live.length - g.removeDeadCode.1.code.live.length := by
  unfold removeDeadCode
  split
  · exact (Nat.sub_self _).symm
  · dsimp only
    split_ifs <;> rfl

/-- **Exactly the dead code is removed.** In any generator with code made by edits and with an entry of a public method
or of the initializer: what is left is what control can reach from these entries, in the same order. Each instruction
is as it was and so is the one behind it, unless its opcode ends the flow. The entries stay, the removed instructions
are counted, and nothing is left to remove. -/
theorem removeDeadCode_exact (g : Generator) (edits : List CodeMap.Edit) (hcode : g.code = CodeMap.edited edits)
    (hroot : ∃ h, g.IsRoot h) :
    let g' := g.removeDeadCode.1
    (∀ h, h ∈ g'.code.live ↔ g.code.Reaches g.IsRoot h) ∧
    g'.code.live.Sublist g.code.live ∧
    (∀ h ∈ g'.code.live, g'.code.instruction? h = g.code.instruction? h) ∧
    (∀ h ∈ g'.code.live, ∀ i ∈ g.code.instruction? h, i.opcode.endsFlow = false → g'.code.next? h = g.code.next? h) ∧
    (∀ name, name ∈ g.symbols.publicMethods ∨ name = initializer → g'.entries.get? name = g.entries.get? name) ∧
    g.removeDeadCode.2 = g.code.live.length - g'.code.live.length ∧
    g'.removeDeadCode = (g', 0) := by
  intro g'
  have hl : g.code.Laid := hcode ▸ CodeMap.laid_edited edits
  obtain ⟨keep, -, ht, hlive, hkeep⟩ := removeDeadCode_trimmed hl
  obtain ⟨h₀, hh₀⟩ := hroot
  have hreach : ∀ h, keep.contains h = true ↔ g.code.Reaches g.IsRoot h := fun h => by
    rw [hkeep (List.ne_nil_of_mem (mem_rootEntries.2 hh₀)), CodeMap.reachable_iff hl]
    simp only [mem_rootEntries]
  have hmem : ∀ h, h ∈ g'.code.live ↔ g.code.Reaches g.IsRoot h := fun h => by
    rw [hlive, List.mem_filter, hreach]
    exact and_iff_right_of_imp CodeMap.Reaches.mem
  have hinst : ∀ h, g.code.Reaches g.IsRoot h → g'.code.instruction? h = g.code.instruction? h := fun h hr =>
    ht.kept h ((hreach h).2 hr)
  have hnext : ∀ h i, g.code.Reaches g.IsRoot h → g.code.instruction? h = some i → i.opcode.endsFlow = false →
      g'.code.next? h = g.code.next? h := fun h i hr hi hflow =>
    next?_of_filter hl ht.laid hlive hr.mem ((hreach h).2 hr) fun d hd => (hreach d).2 (hr.next hi hflow hd)
  have hentries : ∀ name, name ∈ g.symbols.publicMethods ∨ name = initializer →
      g'.entries.get? name = g.entries.get? name := fun name hname =>
    ht.entries name fun h hh hm => (hreach h).2 (.root ⟨name, hname, hh⟩ hm)
  refine ⟨hmem, hlive ▸ List.filter_sublist, fun h hm => hinst h ((hmem h).1 hm),
    fun h hm i hi => hnext h i ((hmem h).1 hm) hi, hentries, snd_removeDeadCode g,
    removeDeadCode_of_reached ht.laid fun h hm => ?_⟩
  have hroots : g'.IsRoot = g.IsRoot := funext fun x => propext <| exists_congr fun name => by
    rw [show g'.symbols = g.symbols from (congrArg Generator.symbols ht.context :)]
    exact and_congr_right fun hname => by rw [hentries name hname]
  rw [hroots]
  exact ((hmem h).1 hm).transfer (fun x hx => (hmem x).2 hx) hinst hnext

/-- A public method that jumps over a private one and branches; the private method calls it, and nothing leads there. -/
def branching : Generator where
  symbols := { methods := .ofList [("main", { isPublic := true }), ("helper", {})] }
  options := {}
  code := CodeMap.edited [.insertTransfer (.jump .always false) (.code 3), .insertTransfer (.call false) (.code 0),
    .insert .ret [], .insertTransfer (.jump .ifTrue false) (.code 5), .insert .nop [], .insert .ret [],
    .insertTransfer (.jump .always false) (.code 4)]
  entries := .ofList [("main", 0), ("helper", 1)]

theorem removeDeadCode_exact_branching :
    branching.code.live = [0, 1, 2, 3, 4, 5, 6] ∧ (∃ h, branching.IsRoot h) ∧
      (∀ h, h ∈ branching.removeDeadCode.1.code.live ↔ h ∈ [0, 3, 4, 5]) ∧
      branching.removeDeadCode.1.removeDeadCode = (branching.removeDeadCode.1, 0) := by
  have hroot : branching.IsRoot 0 := ⟨"main", .inl (by decide +kernel), by decide +kernel⟩
  obtain ⟨hmem, -, -, -, -, -, hagain⟩ := removeDeadCode_exact branching _ rfl ⟨0, hroot⟩
  refine ⟨by decide +kernel, ⟨0, hroot⟩, fun h => (hmem h).trans ⟨fun hr => ?_, fun hm => ?_⟩, hagain⟩
  · have htarget : ∀ h ∈ [0, 3, 4, 5], ∀ i ∈ branching.code.instruction? h, ∀ d ∈ i.refs, d ∈ [0, 3, 4, 5] := by
      decide +kernel
    have hnext : ∀ h ∈ [0, 3, 4, 5], ∀ i ∈ branching.code.instruction? h, i.opcode.endsFlow = false →
        ∀ d ∈ branching.code.next? h, d ∈ [0, 3, 4, 5] := by
      decide +kernel
    induction hr with
    | root hh _ =>
      have hentries : ∀ name ∈ branching.symbols.publicMethods ++ [initializer],
          ∀ h ∈ branching.entries.get? name, h ∈ [0, 3, 4, 5] := by
        decide +kernel
      obtain ⟨name, hname, hh⟩ := hh
      exact hentries name (by simpa using hname) _ hh
    | target _ hi hd _ ih => exact htarget _ ih _ hi _ hd
    | next _ hi hflow hn ih => exact hnext _ ih _ hi hflow _ hn
  · have h₀ : branching.code.Reaches branching.IsRoot 0 := .root hroot (by decide +kernel)
    have h₃ : branching.code.Reaches branching.IsRoot 3 :=
      h₀.target (i := { opcode := .jump .always false, target := .code 3 }) (by decide +kernel) (by decide)
        (by decide +kernel)
    have h₅ : branching.code.Reaches branching.IsRoot 5 :=
      h₃.target (i := { opcode := .jump .ifTrue false, target := .code 5 }) (by decide +kernel) (by decide)
        (by decide +kernel)
    have h₄ : branching.code.Reaches branching.IsRoot 4 :=
      h₃.next (i := { opcode := .jump .ifTrue false, target := .code 5 }) (by decide +kernel) (by decide)
        (by decide +kernel)
    simp only [List.mem_cons, List.not_mem_nil, or_false] at hm
    rcases hm with rfl | rfl | rfl | rfl
    · exact h₀
    · exact h₃
    · exact h₄
    · exact h₅

end Generator

end NeoScript
