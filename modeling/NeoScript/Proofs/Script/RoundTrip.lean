import NeoScript.Proofs.CodeMap.Edits
import NeoScript.Proofs.Script.Decoding

/-!
# Writing a script and reading it back

A code map whose targets are live and whose offsets fit has an image, and reading the image gives back the live
instructions: no operand is lost and every destination is the address that the map gives it.
-/

namespace NeoScript

open List Option Instruction Opcode Bytes

/-! ### Operands of edited maps -/

lemma Instruction.accepts_of_hasTarget {o : Opcode} (h : o.hasTarget = true) (operand : Bytes) :
    accepts o operand = true := by
  unfold hasTarget at h
  unfold accepts
  split at h <;> simp_all

/-- Whether a target has the two handlers of a protected block. -/
def Target.isHandlers : Target → Bool
  | handlers _ _ => true
  | unresolved | code _ | scriptEnd => false

lemma Instruction.readable_of_paired {i : Instruction} (hacc : accepts i.opcode i.operand = true)
    (h : ∀ t ∈ i.target?, (t.isHandlers = true ↔ ∃ far, i.opcode = .tryEnter far)) : i.Readable := by
  have hprotect : i.opcode.role = .protect ↔ ∃ far, i.opcode = .tryEnter far := by
    cases i.opcode <;> simp [role]
  have htarget : i.opcode.role ≠ .plain → i.target? = some i.target := fun hr =>
    if_pos (hasTarget_eq_true.2 hr)
  unfold Readable
  cases hr : i.opcode.role with
  | plain => exact fun _ => hacc
  | leap | call =>
    intro e f ht
    have hfar := (h _ (htarget (by simp [hr]))).1 (by rw [ht]; rfl)
    rw [← hprotect, hr] at hfar
    cases hfar
  | protect =>
    have hhandlers := (h _ (htarget (by simp [hr]))).2 (hprotect.1 hr)
    cases ht : i.target with
    | handlers e f => exact ⟨e, f, rfl⟩
    | unresolved | code _ | scriptEnd =>
      rw [ht] at hhandlers
      cases hhandlers

namespace CodeMap

variable {m : CodeMap} {i : Instruction} {h : Handle} {a size : Nat} {start : Handle → Option Nat}

lemma arena_truncate (m : CodeMap) (address : Nat) : (m.truncate address).1.arena = m.arena := by
  rw [truncate]
  split_ifs
  · rfl
  · exact arena_removeSpan _ _ _

/-- The opcode of each instruction accepts its operand. -/
def Accepted (m : CodeMap) : Prop :=
  ∀ h i, m.instruction? h = some i → Instruction.accepts i.opcode i.operand = true

lemma Accepted.of_arena {m' : CodeMap} (ha : m.Accepted) (h : m'.arena = m.arena) : m'.Accepted := by
  intro x i hi
  rw [instruction?, h] at hi
  exact ha x i hi

lemma Accepted.insert (ha : m.Accepted) (hi : accepts i.opcode i.operand = true) : (m.insert i).Accepted := by
  intro x j hj
  rw [instruction?_insert] at hj
  split at hj
  · cases hj
    exact hi
  · exact ha x j hj

lemma Accepted.edit (ha : m.Accepted) (hl : m.Laid) (e : Edit) : (m.edit e).Accepted := by
  cases e with
  | insert o operand =>
    simp only [CodeMap.edit, ofOperand?]
    split_ifs with h
    · exact ha.insert h
    · exact ha
  | insertTransfer o target =>
    simp only [CodeMap.edit, ofTarget?]
    split_ifs with h
    · exact ha.insert (accepts_of_hasTarget h _)
    · exact ha
  | setTarget h target =>
    simp only [CodeMap.edit]
    split_ifs
    · intro x i hi
      rw [instruction?_setTarget] at hi
      split at hi
      · obtain ⟨j, hj, rfl⟩ := map_eq_some_iff.1 hi
        exact ha x j hj
      · exact ha x i hi
    · exact ha
  | removeSpan start stop => exact ha.of_arena (arena_removeSpan _ _ _)
  | truncate address => exact ha.of_arena (arena_truncate _ _)
  | relocate start stop => exact ha.of_arena (arena_relocate _ _ _)
  | reset =>
    intro x i hi
    cases hi
  | widen =>
    intro x i' hi'
    obtain ⟨i, hi, hcase⟩ := (widen_widened hl).instruction x i' hi'
    rcases hcase with rfl | rfl
    · exact ha x i' hi
    · by_cases hr : i.opcode.role = .plain
      · rw [widened_of_plain hr]
        exact ha x i hi
      · exact accepts_of_hasTarget (hasTarget_eq_true.2 (by rwa [role_widened])) _

lemma accepted_edited (edits : List Edit) : (edited edits).Accepted := by
  have h : (edited edits).Laid ∧ (edited edits).Accepted :=
    edited_induction (P := fun m => m.Laid ∧ m.Accepted) ⟨laid_empty, nofun⟩
      (fun _ e h => ⟨h.1.edit e, h.2.edit h.1 e⟩) edits
  exact h.2

/-! ### Writing -/

/-- The offset from an address to a destination, zero without one. -/
def relative (m : CodeMap) (a : Nat) (dest : Option Handle) : Int :=
  match dest.bind m.start? with
  | some b => (b : Int) - a
  | none => 0

/-- The offsets that are written are those under the present addresses. -/
lemma offsets?_eq_offsets (hi : m.instruction? h = some i)
    (hs : m.start? h = some a) (ht : i.opcode.hasTarget = true) (hrefs : ∀ d ∈ i.refs, (m.start? d).isSome) :
    offsets? i.target a m.size m.start? = some (m.offsets h) := by
  have htarget : m.target? h = some i.target := by
    rw [target?, hi, bind_some, Instruction.target?, if_pos ht]
  have hrefs' : ∀ d ∈ i.target.handles, ∃ b, m.start? d = some b := fun d hd =>
    isSome_iff_exists.1 (hrefs d (by rw [refs_eq (hasTarget_eq_true.1 ht)]; exact hd))
  simp only [offsets, hs, htarget]
  cases hti : i.target with
  | unresolved => rfl
  | scriptEnd => rfl
  | code d =>
    obtain ⟨b, hb⟩ := hrefs' d (by rw [hti]; exact mem_cons_self)
    simp [offsets?, hb]
  | handlers e f =>
    have hhalf : ∀ slot : Option Handle, (∀ d, slot = some d → d ∈ i.target.handles) →
        Script.half m.start? a slot =
          some (m.relative a slot) := fun slot hslot => by
      cases slot with
      | none => rfl
      | some d =>
        obtain ⟨b, hb⟩ := hrefs' d (hslot d rfl)
        simp [Script.half, relative, hb]
    rw [Script.offsets?_handlers, hhalf e fun d hd => by rw [hti, hd]; simp [Target.handles],
      hhalf f fun d hd => by rw [hti, hd]; simp [Target.handles]]
    rfl

lemma encodeOffset?_of_fits {width : Nat} {offset : Int} (hw : width = 1 ∨ width = 4)
    (h : offsetFits width offset = true) : ∃ bs, encodeOffset? width offset = some bs ∧ bs.length = width := by
  refine ⟨_, if_pos h, ?_⟩
  rw [length_ofInt]
  rcases hw with rfl | rfl <;> rfl

lemma offsetWidth_eq {o : Opcode} {width : Nat} (h : o.operand = .offset width ∨ o.operand = .handlers width) :
    offsetWidth o = width := by
  cases o with
  | tryEnter far => cases far <;> simpa [Opcode.operand, Opcode.offsetWidth, offsetWidth] using h
  | load kind slot | store kind slot => cases slot <;> simp [Opcode.operand] at h
  | jump test far | call far | tryLeave far => simpa [Opcode.operand, offsetWidth, operandSize] using h
  | _ => simp [Opcode.operand] at h

/-- An instruction that can be read back and whose offsets fit has as many bytes as its size says. -/
lemma encode?_of_fits {os : List Int} (hacc : Instruction.accepts i.opcode i.operand = true) (hi : i.Readable)
    (hos : i.opcode.hasTarget = true → Instruction.offsets? i.target a size start = some os)
    (hfits : ∀ o ∈ os, Instruction.offsetFits (offsetWidth i.opcode) o = true) :
    ∃ bs, i.encode? a size start = some bs ∧ bs.length = i.size := by
  cases ho : i.opcode.operand with
  | fixed n =>
    have hlen : i.operand.length = n := by simpa [Instruction.accepts, ho] using hacc
    refine ⟨i.opcode.byte :: i.operand, by simp only [Instruction.encode?, ho], ?_⟩
    simp [Instruction.size, encodedSize, operandSize, ho, hlen, Nat.add_comm]
  | sized n =>
    refine ⟨i.opcode.byte :: (ofNat n i.operand.length ++ i.operand), by simp only [Instruction.encode?, ho], ?_⟩
    simp only [Instruction.size, encodedSize, ho, length_cons, length_append, length_ofNat]
    omega
  | offset width =>
    obtain ⟨hr, hwidth⟩ := role_of_offset ho
    have ht : ∀ e f, i.target ≠ .handlers e f := by
      unfold Instruction.Readable at hi
      rcases hr with hr | hr <;> rw [hr] at hi <;> exact hi
    have hos := hos (by rw [hasTarget, ho])
    obtain ⟨b, rfl⟩ : ∃ b, os = [b] := by
      rw [Script.offsets?_eq_map ht] at hos
      obtain ⟨b, -, rfl⟩ := map_eq_some_iff.1 hos
      exact ⟨_, rfl⟩
    rw [offsetWidth_eq (.inl ho)] at hfits
    obtain ⟨bs, hbs, hlen⟩ := encodeOffset?_of_fits hwidth (hfits b mem_cons_self)
    refine ⟨i.opcode.byte :: bs, ?_, ?_⟩
    · simp [Instruction.encode?, ho, hos, Instruction.encodeOffsets?, operandSize, hbs]
    · simp [Instruction.size, encodedSize, operandSize, ho, hlen, Nat.add_comm]
  | handlers width =>
    obtain ⟨hr, hwidth⟩ := role_of_handlers ho
    obtain ⟨e, f, ht⟩ : ∃ e f, i.target = .handlers e f := by
      rwa [Instruction.Readable, hr] at hi
    have hos := hos (by rw [hasTarget, ho])
    obtain ⟨x, y, rfl⟩ : ∃ x y, os = [x, y] := by
      rw [ht, Script.offsets?_handlers] at hos
      obtain ⟨x, -, hos⟩ := bind_eq_some_iff.1 hos
      obtain ⟨y, -, hos⟩ := bind_eq_some_iff.1 hos
      exact ⟨x, y, (some.inj hos).symm⟩
    rw [offsetWidth_eq (.inr ho)] at hfits
    obtain ⟨front, hfront, hlen⟩ := encodeOffset?_of_fits hwidth (hfits x mem_cons_self)
    obtain ⟨back, hback, hlen'⟩ :=
      encodeOffset?_of_fits hwidth (hfits y (mem_cons_of_mem _ mem_cons_self))
    refine ⟨i.opcode.byte :: (front ++ back), ?_, ?_⟩
    · simp [Instruction.encode?, ho, hos, Instruction.encodeOffsets?, operandSize, hfront, hback]
    · simp only [Instruction.size, encodedSize, operandSize, ho, length_cons, length_append,
        hlen, hlen']
      omega

/-- Instructions that follow each other are written one after the other. -/
lemma mapM_encode_placed {arena : Array Instruction} {hs : List Handle}
    (h : ∀ e ∈ placed arena a hs, ∃ bs, e.2.2.encode? e.1 size start = some bs ∧ bs.length = e.2.2.size)
    (hb : ∀ h ∈ hs, h < arena.size) :
    ∃ parts, (placed arena a hs).mapM (fun e => e.2.2.encode? e.1 size start) = some parts ∧
      parts.flatten.length = span arena hs := by
  induction hs generalizing a with
  | nil => exact ⟨[], rfl, rfl⟩
  | cons x hs ih =>
    obtain ⟨i, hi⟩ : ∃ i, arena[x]? = some i := ⟨_, Array.getElem?_eq_getElem (hb x mem_cons_self)⟩
    have hplaced : placed arena a (x :: hs) = (a, x, i) :: placed arena (a + sizeOf arena x) hs := by
      rw [placed, hi]
      rfl
    rw [hplaced] at h ⊢
    obtain ⟨bs, hbs, hlen⟩ := h _ mem_cons_self
    obtain ⟨parts, hparts, hlens⟩ := ih (fun e he => h e (mem_cons_of_mem _ he))
      fun y hy => hb y (mem_cons_of_mem _ hy)
    refine ⟨bs :: parts, ?_, ?_⟩
    · rw [mapM_cons, hbs, hparts]
      rfl
    · rw [flatten_cons, length_append, hlens, hlen, span_cons, sizeOf, hi]
      rfl

/-- A map in which nothing overflows can be written. -/
lemma Laid.image?_of_fits (hl : m.Laid)
    (hacc : ∀ h ∈ m.live, ∀ i, m.instruction? h = some i → accepts i.opcode i.operand = true)
    (hreadable : ∀ h ∈ m.live, ∀ i, m.instruction? h = some i → i.Readable)
    (hlive : ∀ h ∈ m.live, ∀ i, m.instruction? h = some i → ∀ d ∈ i.refs, d ∈ m.live)
    (hfits : ∀ h ∈ m.live, m.overflows h = false) (hsize : m.size < 2 ^ 32) : ∃ bytes, m.image? = some bytes := by
  have hwritten : ∀ e ∈ placed m.arena 0 m.live,
      ∃ bs, e.2.2.encode? e.1 m.size m.start? = some bs ∧ bs.length = e.2.2.size := by
    rintro ⟨a, h, i⟩ he
    obtain ⟨hm, hs, hi⟩ := hl.mem_instructions (hl.instructions_eq ▸ he)
    have hrefs : ∀ d ∈ i.refs, (m.start? d).isSome := fun d hd => hl.start?_isSome_iff.2 (hlive h hm i hi d hd)
    refine encode?_of_fits (hacc h hm i hi) (hreadable h hm i hi) (fun ht => offsets?_eq_offsets hi hs ht hrefs) ?_
    have hfits := hfits h hm
    simp only [overflows, misfits, hi, List.any_eq_false, Bool.not_eq_true', Bool.not_eq_false] at hfits
    exact hfits
  obtain ⟨parts, hparts, hlen⟩ := mapM_encode_placed hwritten hl.bound
  refine ⟨parts.flatten, ?_⟩
  rw [← hl.size] at hlen
  rw [image?, hl.instructions_eq, hparts]
  exact if_pos ⟨hlen, hsize⟩

/-! ### Reading -/

/-- The decoded instruction `d` is the live instruction `h`: it stands where `h` starts, has its opcode and, if it has
no target, its operand, and leads where `h` leads. -/
def ReadAs (m : CodeMap) (h : Handle) (d : Decoded) : Prop :=
  ∃ i, m.instruction? h = some i ∧ m.start? h = some d.address ∧ d.opcode = i.opcode ∧
    match i.target? with
    | none => d.operand = i.operand ∧ d.target = none ∧ d.handlers = none
    | some .unresolved => d.target = some d.address ∧ d.handlers = none
    | some (.code x) => d.target = m.start? x ∧ d.handlers = none
    | some .scriptEnd => d.target = some m.size ∧ d.handlers = none
    | some (.handlers e f) => d.target = none ∧ d.handlers = some (e.bind m.start?, f.bind m.start?)

lemma Laid.filter_handler (hl : m.Laid) (hs : m.start? h = some a) {slot : Option Handle}
    (hne : slot ≠ some h) : (slot.bind m.start?).filter (· ≠ a) = slot.bind m.start? := by
  cases hb : slot.bind m.start? with
  | none => rfl
  | some b =>
    obtain ⟨x, rfl, hx⟩ := bind_eq_some_iff.1 hb
    have hba : b ≠ a := fun hba => hne (congrArg some (hl.start?_inj (hba ▸ hx) hs))
    simp [hba]

lemma Laid.readAs (hl : m.Laid) {d : Decoded} (hi : m.instruction? h = some i) (hs : m.start? h = some a)
    (hself : ∀ t ∈ i.target?, t.isHandlers = true → h ∉ t.handles) (hd : d.Shows m.start? m.size a i) : m.ReadAs h d := by
  refine ⟨i, hi, by rw [hd.address]; exact hs, hd.opcode, ?_⟩
  have htarget := hd.target
  have hhandlers := hd.handlers
  cases ht : i.target? with
  | none =>
    rw [ht] at htarget hhandlers
    refine ⟨hd.operand ?_, htarget, hhandlers⟩
    by_contra hne
    rw [Instruction.target?, if_pos (Bool.not_eq_false _ ▸ hne)] at ht
    cases ht
  | some t =>
    rw [ht, bind_some] at htarget hhandlers
    cases t with
    | unresolved => exact ⟨by rw [hd.address]; exact htarget, hhandlers⟩
    | code x | scriptEnd => exact ⟨htarget, hhandlers⟩
    | handlers e f =>
      have hne : ∀ slot : Option Handle, slot.toList ⊆ (Target.handlers e f).handles → slot ≠ some h := by
        rintro slot hslot rfl
        exact hself _ ht rfl (hslot (mem_singleton.2 rfl))
      have he := hne e (subset_append_left _ _)
      have hf := hne f (subset_append_right _ _)
      refine ⟨htarget, hhandlers.trans ?_⟩
      rw [Target.handlerStarts?, hl.filter_handler hs he, hl.filter_handler hs hf]

/-- **A script is read back as it was written.** Take any code map whose targets are live, in which the entries into
protected blocks, and only they, have handlers, none of them the entry itself, whose offsets fit and whose size is
below `2 ^ 31`. Its image exists, has as many bytes as the map says, and decodes to its live instructions in order. -/
theorem image_reads_back (edits : List Edit)
    (hlive : ∀ h ∈ (edited edits).live, ∀ i ∈ (edited edits).instruction? h, ∀ d ∈ i.refs, d ∈ (edited edits).live)
    (hpaired : ∀ h ∈ (edited edits).live, ∀ i ∈ (edited edits).instruction? h, ∀ t ∈ i.target?,
      (t.isHandlers = true ↔ ∃ far, i.opcode = .tryEnter far))
    (hself : ∀ h ∈ (edited edits).live, ∀ i ∈ (edited edits).instruction? h, ∀ t ∈ i.target?,
      t.isHandlers = true → h ∉ t.handles)
    (hfits : ∀ h ∈ (edited edits).live, (edited edits).overflows h = false)
    (hsize : (edited edits).size ≤ 2 ^ 31 - 1) :
    ∃ bytes ds, (edited edits).image? = some bytes ∧ bytes.length = (edited edits).size ∧
      Script.decode bytes = .ok ds ∧ List.Forall₂ (edited edits).ReadAs (edited edits).live ds := by
  have hl := laid_edited edits
  have hacc := accepted_edited edits
  generalize edited edits = m at *
  have hreadable : ∀ h ∈ m.live, ∀ i, m.instruction? h = some i → i.Readable := fun h hm i hi =>
    Instruction.readable_of_paired (hacc h i hi) (hpaired h hm i hi)
  obtain ⟨bytes, himage⟩ := hl.image?_of_fits (fun h _ => hacc h) hreadable hlive hfits (by omega)
  obtain ⟨hlength, ds, hds, hall⟩ := Script.decode_image hl hreadable himage
  refine ⟨_, ds, himage, hlength, hds, ?_⟩
  rw [← hl.map_handle_instructions, List.forall₂_map_left_iff]
  refine ((List.forall₂_and_left _ _).2 ⟨fun e he => hl.mem_instructions he, hall⟩).imp ?_
  rintro ⟨a, h, i⟩ d ⟨⟨hm, hs, hi⟩, hd⟩
  exact hl.readAs hi hs (hself h hm i hi) hd

/-- A script with every kind of operand and of target, from which a `nop` was removed and in which the block at the
front went to the end. -/
def variedScript : List Edit :=
  [.insert (.pushInt 1) [7, 0], .insert (.pushData 0) [1, 2, 3], .insertTransfer (.tryEnter false) (.handlers (some 8) none),
    .insert .nop [], .insertTransfer (.jump .ifTrue true) .scriptEnd, .insertTransfer (.call false) .unresolved,
    .insertTransfer (.call true) (.code 0), .insertTransfer (.tryLeave false) (.code 9), .insert .drop [],
    .insertTransfer (.tryLeave false) (.code 1), .insertTransfer (.tryEnter true) (.handlers none (some 0)),
    .insert .ret [], .removeSpan 11 12, .relocate 0 8]

theorem image_reads_back_varied :
    (edited variedScript).live = [2, 4, 5, 6, 7, 8, 9, 10, 11, 0, 1] ∧ (edited variedScript).size = 38 ∧
      ∃ bytes ds, (edited variedScript).image? = some bytes ∧ bytes.length = (edited variedScript).size ∧
        Script.decode bytes = .ok ds ∧ List.Forall₂ (edited variedScript).ReadAs (edited variedScript).live ds :=
  ⟨by decide +kernel, by decide +kernel, image_reads_back variedScript (by decide +kernel) (by decide +kernel)
    (by decide +kernel) (by decide +kernel) (by decide +kernel)⟩

end CodeMap

end NeoScript
