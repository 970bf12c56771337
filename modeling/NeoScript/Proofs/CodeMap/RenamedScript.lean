import Mathlib.Data.List.Forall2
import NeoScript.Proofs.CodeMap.LeastWidening
import NeoScript.Proofs.CodeMap.Reachability
import NeoScript.Proofs.CodeMap.Renaming

/-!
# The script of alike code maps

A script is made of addresses and bytes, in which no handle shows. Alike code maps have the same dead code, the same
offsets overflow, they are alike again when these are widened, and their images are the same.
-/

namespace NeoScript

open List Option Opcode Instruction

variable {ρ : Handle ↪o Handle}

namespace Instruction

lemma Same.widened {ρ : Handle → Handle} {i i' : Instruction} (h : i.Same ρ i') : i.widened.Same ρ i'.widened := by
  have hopcode : i'.widened.opcode = i.widened.opcode := by
    unfold Instruction.widened
    rw [h.opcode]
    split
    · rfl
    · exact h.opcode
  have hoperand : ∀ i : Instruction, i.widened.operand = i.operand := fun i => by
    unfold Instruction.widened
    split <;> rfl
  have htarget : ∀ i : Instruction, i.widened.target? = i.target? := fun i => by
    have hrole : i.widened.opcode.hasTarget = i.opcode.hasTarget := by
      rw [Bool.eq_iff_iff, hasTarget_eq_true, hasTarget_eq_true, i.role_widened]
    rw [target?, target?, hrole, i.target_widened]
  exact ⟨hopcode, by rw [hoperand, hoperand, h.operand], by rw [htarget, htarget, h.target]⟩

/-- Where targets have the same addresses, offsets are the same. -/
lemma offsets?_rename {ρ : Handle → Handle} (t : Target) (a size : Nat) {start start' : Handle → Option Nat}
    (hs : ∀ x, start' (ρ x) = start x) : offsets? (t.rename ρ) a size start' = offsets? t a size start := by
  cases t with
  | unresolved | scriptEnd => rfl
  | code d => simp only [Target.rename, offsets?, hs]
  | handlers e f => cases e <;> cases f <;> simp [Target.rename, offsets?, hs]

/-- Where targets have the same addresses, bytes are the same. -/
lemma Same.encode?_eq {ρ : Handle → Handle} {i i' : Instruction} (h : i.Same ρ i') (a size : Nat)
    {start start' : Handle → Option Nat} (hs : ∀ x, start' (ρ x) = start x) :
    i'.encode? a size start' = i.encode? a size start := by
  rw [encode?, encode?, h.opcode, h.operand]
  cases hr : i.opcode.role with
  | plain =>
    have hplain := hasTarget_eq_false.2 hr
    unfold Opcode.hasTarget at hplain
    split at hplain
    · cases hplain
    · cases hplain
    · next ho hh =>
      split
      · rfl
      · rfl
      · next w hw => exact absurd hw (ho w)
      · next w hw => exact absurd hw (hh w)
  | leap | call | protect => rw [h.target_eq (by simp [hr]), offsets?_rename _ a size hs]

end Instruction

lemma CodeMap.nextHandle_withWide (m : CodeMap) (hs : List Handle) : (m.withWide hs).nextHandle = m.nextHandle :=
  size_widenAll m.arena hs

namespace CodeMap.Alike

variable {b : Handle} {m m' : CodeMap} {h : Handle}

/-! ### Dead code -/

variable (ha : Alike ρ b m m')
include ha

lemma reaches_iff {entries : List Handle} : m'.Reaches (· ∈ entries.map ρ) (ρ h) ↔ m.Reaches (· ∈ entries) h := by
  constructor
  · intro hr
    have hback : ∀ x, m'.Reaches (· ∈ entries.map ρ) x → ∃ h, ρ h = x ∧ m.Reaches (· ∈ entries) h := fun x hr => by
      induction hr with
      | root hroot hm =>
        obtain ⟨h, hh, rfl⟩ := mem_map.1 hroot
        exact ⟨h, rfl, .root hh (ha.mem.1 hm)⟩
      | @target x d i' hr hi hd hm ih =>
        obtain ⟨h, rfl, hh⟩ := ih
        obtain ⟨i, hi0⟩ := ha.laid.instruction?_isSome hh.mem
        obtain ⟨i1, hi1, hs⟩ := ha.known h i (.inl hh.mem) hi0
        obtain rfl := some.inj (hi.symm.trans hi1)
        rw [hs.refs] at hd
        obtain ⟨e, he, rfl⟩ := mem_map.1 hd
        exact ⟨e, rfl, hh.target hi0 he (ha.mem.1 hm)⟩
      | @next x d i' hr hi hflow hn ih =>
        obtain ⟨h, rfl, hh⟩ := ih
        obtain ⟨i, hi0⟩ := ha.laid.instruction?_isSome hh.mem
        obtain ⟨i1, hi1, hs⟩ := ha.known h i (.inl hh.mem) hi0
        obtain rfl := some.inj (hi.symm.trans hi1)
        rw [ha.next?_eq] at hn
        obtain ⟨e, he, rfl⟩ := map_eq_some_iff.1 hn
        exact ⟨e, rfl, hh.next hi0 (hs.opcode ▸ hflow) he⟩
    obtain ⟨h', he, hh⟩ := hback _ hr
    exact ρ.injective he ▸ hh
  · intro hr
    induction hr with
    | root hroot hm => exact .root (mem_map_of_mem hroot) (ha.mem.2 hm)
    | target hr hi hd hm ih =>
      obtain ⟨i', hi', hs⟩ := ha.known _ _ (.inl hr.mem) hi
      exact ih.target hi' (hs.refs ▸ mem_map_of_mem hd) (ha.mem.2 hm)
    | next hr hi hflow hn ih =>
      obtain ⟨i', hi', hs⟩ := ha.known _ _ (.inl hr.mem) hi
      exact ih.next hi' (hs.opcode ▸ hflow) (by rw [ha.next?_eq, hn]; rfl)

lemma reachable_eq (entries : List Handle) :
    (m'.reachable (entries.map ρ)).contains (ρ h) = (m.reachable entries).contains h := by
  rw [Bool.eq_iff_iff, reachable_iff ha.laid', reachable_iff ha.laid, ha.reaches_iff]

/-- The instructions stand at the same addresses. -/
lemma instructions_alike :
    Forall₂ (fun e e' => e'.1 = e.1 ∧ e'.2.1 = ρ e.2.1 ∧ e.2.2.Same ρ e'.2.2) m.instructions m'.instructions := by
  have hplaced : ∀ (hs : List Handle) (a : Nat), (∀ h ∈ hs, h ∈ m.live) →
      Forall₂ (fun e e' : Nat × Handle × Instruction => e'.1 = e.1 ∧ e'.2.1 = ρ e.2.1 ∧ e.2.2.Same ρ e'.2.2)
        (placed m.arena a hs) (placed m'.arena a (hs.map ρ)) := fun hs => by
    induction hs with
    | nil => exact fun a _ => .nil
    | cons h hs ih =>
      intro a hm
      have hlive := hm h mem_cons_self
      obtain ⟨i, hi⟩ := ha.laid.instruction?_isSome hlive
      obtain ⟨i', hi', hs⟩ := ha.known h i (.inl hlive) hi
      rw [map_cons, placed, placed, ha.sizeOf_eq hlive, show m.arena[h]? = some i from hi,
        show m'.arena[ρ h]? = some i' from hi']
      exact .cons ⟨rfl, rfl, hs⟩ (ih _ fun x hx => hm x (mem_cons_of_mem _ hx))
  rw [ha.laid.instructions_eq, ha.laid'.instructions_eq, ha.live]
  exact hplaced m.live 0 fun _ h => h

lemma deadSpans_eq {keep keep' : Std.HashSet Handle}
    (hk : ∀ h, keep'.contains (ρ h) = keep.contains h) : m'.deadSpans keep' = m.deadSpans keep := by
  have hfold : ∀ {l l' : List (Nat × Handle × Instruction)} (acc : List (Nat × Nat) × Option (Nat × Nat)),
      Forall₂ (fun e e' => e'.1 = e.1 ∧ e'.2.1 = ρ e.2.1 ∧ e.2.2.Same ρ e'.2.2) l l' →
        l'.foldl (m'.deadStep keep') acc = l.foldl (m.deadStep keep) acc := fun acc hl => by
    induction hl generalizing acc with
    | nil => rfl
    | cons he _ ih =>
      rw [foldl_cons, foldl_cons, ih]
      simp only [deadStep, he.1, he.2.1, hk, ha.last?_eq]
  rw [deadSpans, deadSpans, hfold _ ha.instructions_alike]

/-! ### Offsets -/

lemma offsets_eq (hm : h ∈ m.live) : m'.offsets (ρ h) = m.offsets h := by
  rw [offsets, offsets, ha.start?_eq, ha.target?_eq (.inl hm), ha.size_eq]
  cases m.start? h with
  | none => rfl
  | some a =>
    cases m.target? h with
    | none => rfl
    | some t =>
      cases t with
      | unresolved | scriptEnd => rfl
      | code d => simp only [map_some, Target.rename, bind_some, ha.start?_eq]
      | handlers e f =>
        cases e <;> cases f <;> simp [Target.rename, ha.start?_eq]

lemma overflows_eq (hm : h ∈ m.live) : m'.overflows (ρ h) = m.overflows h := by
  obtain ⟨i, hi⟩ := ha.laid.instruction?_isSome hm
  obtain ⟨i', hi', hs⟩ := ha.known h i (.inl hm) hi
  simp only [overflows, misfits, hi, hi', ha.offsets_eq hm, hs.opcode]

lemma isNarrow_eq (hm : h ∈ m.live) : m'.isNarrow (ρ h) = m.isNarrow h := by
  obtain ⟨i, hi⟩ := ha.laid.instruction?_isSome hm
  obtain ⟨i', hi', hs⟩ := ha.known h i (.inl hm) hi
  rw [isNarrow, isNarrow, hi, hi', bind_some, bind_some, hs.opcode]

lemma mem_live_of_linked (hh : h ∈ m.linked) : h ∈ m.live :=
  ((ha.laid.targets h).1 (Std.ExtTreeSet.mem_toList.1 hh)).1

lemma overflowing_eq : m'.overflowing = m.overflowing.map ρ := by
  rw [overflowing, overflowing, ha.linked_eq, List.filter_map]
  refine congrArg (List.map ρ) (filter_congr fun h hh => ?_)
  have hm := ha.mem_live_of_linked hh
  rw [Function.comp_apply, outgrows_eq, outgrows_eq, ha.isNarrow_eq hm, ha.overflows_eq hm]

lemma firstOverflow_eq : m'.linked.find? m'.overflows = (m.linked.find? m.overflows).map ρ := by
  rw [← head?_filter, ← head?_filter, ha.linked_eq, List.filter_map, head?_map]
  refine congrArg (fun l => Option.map ρ (head? l)) (filter_congr fun h hh => ?_)
  exact ha.overflows_eq (ha.mem_live_of_linked hh)

/-! ### Widening and writing -/

lemma withWide (hs : List Handle) : Alike ρ b (m.withWide hs) (m'.withWide (hs.map ρ)) where
  laid := (widened_layOut ha.laid hs).laid
  laid' := (widened_layOut ha.laid' _).laid
  next := by
    simp only [nextHandle_withWide]
    exact ha.next
  live := ha.live
  known := fun h j hh hj => by
    have hj : (widenAll m.arena hs)[h]? = some j := hj
    change ∃ i', (widenAll m'.arena (hs.map ρ))[ρ h]? = some i' ∧ j.Same ρ i'
    rw [getElem?_widenAll_eq] at hj ⊢
    simp only [List.mem_map_of_injective ρ.injective]
    split at hj
    · next hin =>
      obtain ⟨i, hi, rfl⟩ := map_eq_some_iff.1 hj
      obtain ⟨i', hi', hs⟩ := ha.known h i hh hi
      exact ⟨_, by rw [if_pos hin, show m'.arena[ρ h]? = some i' from hi', map_some], hs.widened⟩
    · next hin =>
      rw [if_neg hin]
      exact ha.known h j hh hj

lemma widen : Alike ρ b m.widen.1 m'.widen.1 := by
  refine ha.laid.widen_induction (P := fun m r => ∀ {m'}, Alike ρ b m m' → Alike ρ b r.1 m'.widen.1) ?_ ?_ ha
  · intro m _ h m' ha
    rw [widen_eq_self (by rw [ha.overflowing_eq, h]; rfl)]
    exact ha
  · intro m first rest r _ h ih m' ha
    have h' : m'.overflowing = ρ first :: rest.map ρ := by rw [ha.overflowing_eq, h]; rfl
    rw [ha.laid'.widen_round h']
    exact ih (ha.withWide (first :: rest))

lemma image?_eq : m'.image? = m.image? := by
  have hparts : ∀ {l l' : List (Nat × Handle × Instruction)},
      Forall₂ (fun e e' => e'.1 = e.1 ∧ e'.2.1 = ρ e.2.1 ∧ e.2.2.Same ρ e'.2.2) l l' →
        (l'.mapM fun e => e.2.2.encode? e.1 m.size m'.start?) = l.mapM fun e => e.2.2.encode? e.1 m.size m.start? :=
    fun hl => by
      induction hl with
      | nil => rfl
      | cons he _ ih =>
        rw [mapM_cons, mapM_cons, ih, he.1, he.2.2.encode?_eq _ _ fun x => ha.start?_eq]
  rw [image?, image?, ha.size_eq, hparts ha.instructions_alike]

end CodeMap.Alike

end NeoScript
