import NeoScript.Proofs.CodeMap.Edits

/-!
# Widening is least

Widening a control transfer lengthens it, so every distance across it grows and none shrinks or changes its sign.
What overflows therefore overflows in every map with more wide instructions, and each round of widening takes only
what any sufficient choice has to take.
-/

namespace NeoScript

open List Option Instruction Opcode Bool CodeMap

/-! ### Longer instructions -/

lemma Instruction.size_le_widened (i : Instruction) : i.size ≤ i.widened.size := by
  unfold widened
  split
  · next w h =>
    cases ho : i.opcode with
    | jump test far | call far | tryEnter far | tryLeave far =>
      rw [ho] at h
      cases far <;> simp [Opcode.wide?] at h
      subst h
      simp [size, Opcode.encodedSize, Opcode.operandSize, Opcode.operand, Opcode.offsetWidth, ho]
    | _ => simp [ho, Opcode.wide?] at h
  · exact Nat.le_refl _

lemma Instruction.target?_widened (i : Instruction) : i.widened.target? = i.target? := by
  have htarget : i.widened.opcode.hasTarget = i.opcode.hasTarget := by
    rw [Bool.eq_iff_iff, hasTarget_eq_true, hasTarget_eq_true, role_widened]
  rw [target?, target?, htarget, target_widened]

/-- An opcode with a wide sibling has one-byte offsets. -/
lemma Opcode.narrow_of_wide? {o w : Opcode} (h : o.wide? = some w) : o.hasTarget = true ∧ CodeMap.offsetWidth o = 1 := by
  cases o with
  | jump test far | call far | tryEnter far | tryLeave far =>
    cases far <;> simp [wide?] at h
    exact ⟨rfl, rfl⟩
  | _ => simp [wide?] at h

lemma Instruction.offsetFits_one {offset : Int} : offsetFits 1 offset = true ↔ -128 ≤ offset ∧ offset ≤ 127 := by
  simp only [offsetFits, Bytes.fitsSigned, if_true, decide_eq_true_eq]
  omega

namespace CodeMap

variable {m m' : CodeMap} {h : Handle} {hs hs' : List Handle}

/-! ### Distances grow -/

/-- The distance `b` leads the same way as `a` and at least as far. -/
def Farther (a b : Int) : Prop := 0 ≤ a ∧ a ≤ b ∨ b ≤ a ∧ a ≤ 0

lemma Farther.refl_zero : Farther 0 0 := .inl ⟨Int.le_refl 0, Int.le_refl 0⟩

lemma Farther.fits {a b : Int} (h : Farther a b) (hb : -128 ≤ b ∧ b ≤ 127) : -128 ≤ a ∧ a ≤ 127 := by
  rcases h with h | h <;> omega

lemma Farther.fits_all {as bs : List Int} (h : Forall₂ Farther as bs) (hbs : ∀ b ∈ bs, -128 ≤ b ∧ b ≤ 127) :
    ∀ a ∈ as, -128 ≤ a ∧ a ≤ 127 := by
  induction h with
  | nil => exact nofun
  | cons hab _ ih =>
    intro a ha
    rcases mem_cons.1 ha with rfl | ha
    · exact hab.fits (hbs _ mem_cons_self)
    · exact ih (fun b hb => hbs b (mem_cons_of_mem _ hb)) a ha

lemma Widened.instruction_of_mem (hw : Widened m m') (hm : h ∈ m.live) :
    ∃ i i', m.instruction? h = some i ∧ m'.instruction? h = some i' ∧ (i' = i ∨ i' = i.widened) := by
  obtain ⟨i', hi'⟩ := hw.laid.instruction?_isSome (h := h) (by rw [hw.live]; exact hm)
  obtain ⟨i, hi, hcase⟩ := hw.instruction h i' hi'
  exact ⟨i, i', hi, hi', hcase⟩

lemma Widened.sizeOf_le (hw : Widened m m') (hm : h ∈ m.live) : sizeOf m.arena h ≤ sizeOf m'.arena h := by
  obtain ⟨i, i', hi, hi', hcase⟩ := hw.instruction_of_mem hm
  have hsize : ∀ (n : CodeMap) j, n.instruction? h = some j → sizeOf n.arena h = j.size := by
    intro n j hj
    rw [sizeOf, show n.arena[h]? = some j from hj]
    rfl
  rw [hsize m i hi, hsize m' i' hi']
  rcases hcase with rfl | rfl
  · exact Nat.le_refl _
  · exact i.size_le_widened

lemma Widened.span_le (hw : Widened m m') (hs : List Handle) (hsub : ∀ h ∈ hs, h ∈ m.live) :
    span m.arena hs ≤ span m'.arena hs := by
  induction hs with
  | nil => exact Nat.le_refl _
  | cons h hs ih =>
    rw [span_cons, span_cons]
    exact Nat.add_le_add (hw.sizeOf_le (hsub h mem_cons_self))
      (ih fun x hx => hsub x (mem_cons_of_mem _ hx))

lemma Widened.target? (hw : Widened m m') (hm : h ∈ m.live) : m'.target? h = m.target? h := by
  obtain ⟨i, i', hi, hi', hcase⟩ := hw.instruction_of_mem hm
  rw [CodeMap.target?, CodeMap.target?, hi, hi', bind_some, bind_some]
  rcases hcase with rfl | rfl
  · rfl
  · exact i.target?_widened

/-- The distance from an instruction to a destination grows. -/
lemma Widened.distance (hl : m.Laid) (hw : Widened m m') {pre post : List Handle}
    (hs : m.live = pre ++ h :: post) (dest : Option Handle) :
    Farther (match dest.bind m.start? with | some a => (a : Int) - span m.arena pre | none => 0)
      (match dest.bind m'.start? with | some a => (a : Int) - span m'.arena pre | none => 0) := by
  have hmem : ∀ {xs ys : List Handle}, m.live = xs ++ ys → ∀ x ∈ ys, x ∈ m.live := fun e x hx => by
    rw [e]
    exact mem_append_right _ hx
  cases dest with
  | none => exact .refl_zero
  | some d =>
    by_cases hd : d ∈ m.live
    · rw [hs, mem_append, mem_cons] at hd
      rcases hd with hd | rfl | hd
      · -- backwards: over what stands from the destination up to the instruction
        obtain ⟨as, bs, rfl⟩ := append_of_mem hd
        have hs' : m.live = as ++ d :: (bs ++ h :: post) := by rw [hs]; simp
        have hgrow := hw.span_le (d :: bs) fun x hx => hmem hs' x (by
          rw [← cons_append]
          exact mem_append_left _ hx)
        rw [bind_some, bind_some, hl.start?_split hs', hw.laid.start?_split (hw.live.trans hs')]
        simp only [span_append, span_cons] at hgrow ⊢
        exact .inr (by omega)
      · rw [bind_some, bind_some, hl.start?_split hs, hw.laid.start?_split (hw.live.trans hs)]
        exact .inl (by simp)
      · -- forwards: over the instruction itself and what stands behind it
        obtain ⟨as, bs, rfl⟩ := append_of_mem hd
        have hs' : m.live = (pre ++ h :: as) ++ d :: bs := by rw [hs]; simp
        have hgrow := hw.span_le (h :: as) fun x hx => hmem hs x (by
          rw [← cons_append]
          exact mem_append_left _ hx)
        rw [bind_some, bind_some, hl.start?_split hs', hw.laid.start?_split (hw.live.trans hs')]
        simp only [span_append, span_cons] at hgrow ⊢
        exact .inl (by omega)
    · have hd' : d ∉ m'.live := by rw [hw.live]; exact hd
      rw [bind_some, bind_some, hl.start?_eq_none hd, hw.laid.start?_eq_none hd']
      exact .refl_zero

/-- The offsets of a control transfer grow. -/
lemma Widened.offsets (hl : m.Laid) (hw : Widened m m') (hm : h ∈ m.live) :
    Forall₂ Farther (m.offsets h) (m'.offsets h) := by
  obtain ⟨pre, post, hs⟩ := append_of_mem hm
  have hs' := hw.live.trans hs
  have hdist := hw.distance hl hs
  simp only [CodeMap.offsets, hl.start?_split hs, hw.laid.start?_split hs', hw.target? hm]
  cases m.target? h with
  | none => exact .nil
  | some target =>
    cases target with
    | unresolved => exact .cons .refl_zero .nil
    | code d => exact .cons (hdist (some d)) .nil
    | handlers e f => exact .cons (hdist e) (.cons (hdist f) .nil)
    | scriptEnd =>
      have hgrow := hw.span_le (h :: post) fun x hx => by
        rw [hs]
        exact mem_append_right _ hx
      refine .cons (.inl ?_) .nil
      rw [hl.size, hw.laid.size, hw.live, hs]
      simp only [span_append, span_cons] at hgrow ⊢
      omega

/-! ### Choices of instructions to widen -/

/-- The map in which exactly the instructions `hs` are widened. -/
def withWide (m : CodeMap) (hs : List Handle) : CodeMap := layOut (widenAll m.arena hs) m.order

/-- Every offset that has one byte fits it. -/
def Fitting (m : CodeMap) : Prop :=
  ∀ h ∈ m.live, m.isNarrow h = true → ∀ o ∈ m.offsets h, -128 ≤ o ∧ o ≤ 127

lemma getElem?_widenAll_eq (arena : Array Instruction) (hs : List Handle) (h : Handle) :
    (widenAll arena hs)[h]? = if h ∈ hs then arena[h]?.map widened else arena[h]? := by
  induction hs generalizing arena with
  | nil => rfl
  | cons x hs ih =>
    change (widenAll (arena.modify x widened) hs)[h]? = _
    rw [ih, Array.getElem?_modify]
    by_cases hx : x = h
    · subst hx
      simp [Option.map_map, Function.comp_def, widened_widened]
    · simp [hx, Ne.symm hx]

lemma widenAll_congr {arena : Array Instruction} (h : ∀ x, x ∈ hs ↔ x ∈ hs') : widenAll arena hs = widenAll arena hs' := by
  apply Array.ext_getElem?
  intro x
  simp only [getElem?_widenAll_eq, h x]

lemma widenAll_append (arena : Array Instruction) (hs hs' : List Handle) :
    widenAll (widenAll arena hs) hs' = widenAll arena (hs ++ hs') := by
  simp [widenAll]

lemma withWide_withWide (m : CodeMap) (hs hs' : List Handle) : (m.withWide hs).withWide hs' = m.withWide (hs ++ hs') := by
  rw [withWide, withWide, withWide, ← widenAll_append]
  rfl

lemma withWide_congr (h : ∀ x, x ∈ hs ↔ x ∈ hs') : m.withWide hs = m.withWide hs' := by
  rw [withWide, widenAll_congr h, withWide]

lemma instruction?_withWide (m : CodeMap) (hs : List Handle) (h : Handle) : (m.withWide hs).instruction? h =
      if h ∈ hs then (m.instruction? h).map widened else m.instruction? h :=
  getElem?_widenAll_eq m.arena hs h

lemma Laid.withWide_nil (hl : m.Laid) : m.withWide [] = m := hl.layOut_eq

lemma Laid.withWide (hl : m.Laid) (hs : List Handle) : (m.withWide hs).Laid := (widened_layOut hl hs).laid

lemma isNarrow_eq_true : m.isNarrow h = true ↔ ∃ i w, m.instruction? h = some i ∧ i.opcode.wide? = some w := by
  simp only [isNarrow, isSome_iff_exists, bind_eq_some_iff]
  exact ⟨fun ⟨w, i, hi, hw⟩ => ⟨i, w, hi, hw⟩, fun ⟨i, w, hi, hw⟩ => ⟨w, i, hi, hw⟩⟩

/-- What has no wide sibling in `m`, or is widened, has none in the widened map. -/
lemma isNarrow_withWide : (m.withWide hs).isNarrow h = true ↔ m.isNarrow h = true ∧ h ∉ hs := by
  rw [isNarrow, isNarrow, instruction?_withWide]
  by_cases hm : h ∈ hs
  · rw [if_pos hm]
    cases m.instruction? h <;> simp [hm, wide?_widened]
  · simp [hm]

/-! ### What overflows -/

lemma Laid.mem_overflowing (hl : m.Laid) : h ∈ m.overflowing ↔
      h ∈ m.live ∧ m.isNarrow h = true ∧ ¬ ∀ o ∈ m.offsets h, -128 ≤ o ∧ o ≤ 127 := by
  rw [overflowing, mem_filter, outgrows_eq, and_eq_true, Generator.mem_linked hl]
  constructor
  · rintro ⟨⟨hm, -⟩, hn, ho⟩
    obtain ⟨i, w, hi, hw⟩ := isNarrow_eq_true.1 hn
    refine ⟨hm, hn, fun hfit => ?_⟩
    simp only [overflows, misfits, hi, (narrow_of_wide? hw).2, List.any_eq_true, not_eq_true',
      ← not_eq_true, offsetFits_one] at ho
    obtain ⟨o, hmo, hno⟩ := ho
    exact hno (hfit o hmo)
  · rintro ⟨hm, hn, hfit⟩
    obtain ⟨i, w, hi, hw⟩ := isNarrow_eq_true.1 hn
    refine ⟨⟨hm, i, hi, hasTarget_eq_true.1 (narrow_of_wide? hw).1⟩, hn, ?_⟩
    simp only [overflows, misfits, hi, (narrow_of_wide? hw).2, List.any_eq_true, not_eq_true',
      ← not_eq_true, offsetFits_one]
    simpa only [not_forall, exists_prop] using hfit

lemma nodup_overflowing (m : CodeMap) : m.overflowing.Nodup := (Generator.nodup_linked m).filter _

/-- Whatever overflows has to be widened. -/
lemma Laid.overflowing_subset (hl : m.Laid) (hfit : (m.withWide hs).Fitting) : ∀ h ∈ m.overflowing, h ∈ hs := by
  intro h hm
  obtain ⟨hlive, hn, ho⟩ := hl.mem_overflowing.1 hm
  by_contra hnot
  exact ho (Farther.fits_all ((widened_layOut hl hs).offsets hl hlive)
    (hfit h hlive (isNarrow_withWide.2 ⟨hn, hnot⟩)))

/-! ### The rounds -/

lemma overflowing_widen (m : CodeMap) : m.widen.1.overflowing = [] := by
  fun_induction widen m with
  | case1 m h => exact h
  | case2 m first rest h r ih => exact ih

lemma widen_eq_self (h : m.overflowing = []) : m.widen = (m, []) := by
  rw [widen]
  split
  · rfl
  · next hne => rw [h] at hne; cases hne

lemma Laid.widen_round (hl : m.Laid) {first : Handle} {rest : List Handle} (h : m.overflowing = first :: rest) :
    m.widen.1 = (m.withWide (first :: rest)).widen.1 := by
  have hwide : _ = m.withWide (first :: rest) := hl.reflow_widenAll (first :: rest)
  rw [widen]
  split
  · next hnil => rw [h] at hnil; cases hnil
  · next hcons =>
    cases h.symm.trans hcons
    rw [← hwide]

/-- Each round widens what overflows. -/
lemma Laid.widen_induction {P : CodeMap → CodeMap × List Handle → Prop}
    (hdone : ∀ m : CodeMap, m.Laid → m.overflowing = [] → P m (m, []))
    (hround : ∀ (m : CodeMap) first rest r, m.Laid → m.overflowing = first :: rest → P (m.withWide (first :: rest)) r →
      P m (r.1, first :: rest ++ r.2)) (hl : m.Laid) : P m m.widen := by
  fun_induction widen m with
  | case1 m h => exact hdone m hl h
  | case2 m first rest h r ih =>
    have hwide : _ = m.withWide (first :: rest) := hl.reflow_widenAll (first :: rest)
    exact hround m first rest r hl h (hwide ▸ ih (hwide ▸ hl.withWide _))

/-- Widening widens exactly what it lists. -/
lemma Laid.widen_eq (hl : m.Laid) : m.widen.1 = m.withWide m.widen.2 := by
  refine hl.widen_induction (P := fun m r => r.1 = m.withWide r.2) (fun m hl _ => hl.withWide_nil.symm) ?_
  intro m first rest r _ _ hr
  rwa [withWide_withWide] at hr

/-- What is listed is live, has a wide sibling and is listed once. -/
lemma Laid.widen_listed (hl : m.Laid) : (∀ h ∈ m.widen.2, h ∈ m.live ∧ m.isNarrow h = true) ∧ m.widen.2.Nodup := by
  refine hl.widen_induction (P := fun m r => (∀ h ∈ r.2, h ∈ m.live ∧ m.isNarrow h = true) ∧ r.2.Nodup) ?_ ?_
  · exact fun m _ _ => ⟨fun _ hm => (by cases hm), nodup_nil⟩
  · rintro m first rest r hl h ⟨hlater, hnd⟩
    have hround : ∀ x ∈ first :: rest, x ∈ m.live ∧ m.isNarrow x = true := fun x hx => by
      rw [← h] at hx
      obtain ⟨hlive, hn, -⟩ := hl.mem_overflowing.1 hx
      exact ⟨hlive, hn⟩
    have hfresh : ∀ x ∈ r.2, m.isNarrow x = true ∧ x ∉ first :: rest := fun x hx =>
      isNarrow_withWide.1 (hlater x hx).2
    refine ⟨fun x hx => ?_, ?_⟩
    · rcases mem_append.1 hx with hx | hx
      · exact hround x hx
      · exact ⟨(hlater x hx).1, (hfresh x hx).1⟩
    · refine nodup_append.2 ⟨h ▸ m.nodup_overflowing, hnd, ?_⟩
      rintro x hx y hy rfl
      exact (hfresh x hy).2 hx

/-- Every choice that makes all offsets fit contains what widening lists. -/
lemma Laid.widen_subset (hl : m.Laid) (hfit : (m.withWide hs).Fitting) : ∀ h ∈ m.widen.2, h ∈ hs := by
  refine hl.widen_induction (P := fun m r => (m.withWide hs).Fitting → ∀ h ∈ r.2, h ∈ hs) (by simp) ?_ hfit
  · intro m first rest r hl h ih hfit
    have hround : ∀ x ∈ first :: rest, x ∈ hs := h ▸ hl.overflowing_subset hfit
    have hsame : (m.withWide (first :: rest)).withWide hs = m.withWide hs := by
      rw [withWide_withWide]
      refine withWide_congr fun x => ?_
      rw [mem_append]
      exact ⟨fun hx => hx.elim (hround x) id, .inr⟩
    intro x hx
    rcases mem_append.1 hx with hx | hx
    · exact hround x hx
    · exact ih (hsame ▸ hfit) x hx

lemma Laid.fitting_widen (hl : m.Laid) : m.widen.1.Fitting := by
  intro h hm hn
  have hl' : m.widen.1.Laid := (widen_widened hl).laid
  by_contra ho
  have hover := hl'.mem_overflowing.2 ⟨hm, hn, ho⟩
  rw [overflowing_widen] at hover
  cases hover

/-- **Widening is sufficient and least.** Afterwards every one-byte offset fits. Order, operands and targets are as
before; just the listed instructions changed, each into its wide sibling and each listed once. Any choice of narrow
instructions whose widening makes all remaining one-byte offsets fit contains the listed ones, so widening again
changes nothing. -/
theorem widen_least (edits : List Edit) :
    let m := edited edits
    let m' := m.widen.1
    let ws := m.widen.2
    (∀ h ∈ m'.live, m'.isNarrow h = true → ∀ o ∈ m'.offsets h, -128 ≤ o ∧ o ≤ 127) ∧
    m'.live = m.live ∧ m'.nextHandle = m.nextHandle ∧ m' = m.withWide ws ∧ ws.Nodup ∧
    (∀ h ∈ ws, h ∈ m.live ∧ ∃ i wide, m.instruction? h = some i ∧ i.opcode.wide? = some wide ∧
      m'.instruction? h = some { i with opcode := wide }) ∧
    (∀ h, h ∉ ws → m'.instruction? h = m.instruction? h) ∧
    (∀ W : List Handle, (∀ h ∈ W, h ∈ m.live ∧ m.isNarrow h = true) →
      (∀ h ∈ m.live, (m.withWide W).isNarrow h = true → ∀ o ∈ (m.withWide W).offsets h, -128 ≤ o ∧ o ≤ 127) →
      ∀ h ∈ ws, h ∈ W) ∧
    m'.widen = (m', []) := by
  intro m m' ws
  have hl : m.Laid := laid_edited edits
  have heq : m' = m.withWide ws := hl.widen_eq
  have hinst : ∀ h, m'.instruction? h =
      if h ∈ ws then (m.instruction? h).map Instruction.widened else m.instruction? h := fun h => by
    rw [heq, instruction?_withWide]
  refine ⟨hl.fitting_widen, (widen_widened hl).live, ?_, heq, hl.widen_listed.2, fun h hm => ?_, fun h hm => ?_,
    fun W _ hfit => hl.widen_subset hfit, widen_eq_self (overflowing_widen m)⟩
  · rw [heq]
    exact size_widenAll m.arena ws
  · obtain ⟨hlive, hn⟩ := hl.widen_listed.1 h hm
    obtain ⟨i, w, hi, hw⟩ := isNarrow_eq_true.1 hn
    refine ⟨hlive, i, w, hi, hw, ?_⟩
    rw [hinst, if_pos hm, hi, Option.map_some, Instruction.widened, hw]
  · rw [hinst, if_neg hm]

/-- A jump over a jump that is too long by one byte: widening the inner one pushes the outer one out of reach. -/
def nestedJumps : List Edit :=
  [.insertTransfer (.jump .always false) (.code 3), .insertTransfer (.jump .ifTrue false) .scriptEnd,
    .insert (.pushData 0) (List.replicate 121 0), .insert .nop [], .insert .nop [], .insert .ret []]

theorem widen_least_nested :
    (edited nestedJumps).widen.2 = [1, 0] ∧ (∀ h ∈ (edited nestedJumps).widen.2, h ∈ [0, 1]) ∧
      (edited nestedJumps).widen.1.widen = ((edited nestedJumps).widen.1, []) := by
  obtain ⟨-, -, -, -, -, -, -, hleast, hagain⟩ := widen_least nestedJumps
  refine ⟨by decide +kernel, hleast [0, 1] (by decide +kernel) (by decide +kernel), hagain⟩

end CodeMap

end NeoScript
