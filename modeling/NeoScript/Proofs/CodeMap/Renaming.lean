import Mathlib.Data.List.Sort
import Mathlib.Order.Hom.Basic
import NeoScript.Proofs.CodeMap.Edits

/-!
# Code maps that differ in their handles

Handles are never used again, so what was removed shows in the handles of everything that comes later. `Alike` says
that two code maps have the same live instructions but for an order-preserving renaming of handles. Nothing that is
asked of a code map by address tells the two apart, and every change made to both keeps them alike.
-/

namespace NeoScript

open List Option Instruction

variable {ρ : Handle ↪o Handle}

/-! ### Targets and instructions -/

namespace Target

/-- The target with other handles. -/
def rename (ρ : Handle → Handle) : Target → Target
  | unresolved => unresolved
  | code h => code (ρ h)
  | scriptEnd => scriptEnd
  | handlers e f => handlers (e.map ρ) (f.map ρ)

@[simp] lemma handles_rename (ρ : Handle → Handle) (t : Target) : (t.rename ρ).handles = t.handles.map ρ := by
  cases t with
  | handlers e f => cases e <;> cases f <;> rfl
  | _ => rfl

lemma rename_retarget (t : Target) (old : Handle) (new : Option Handle) :
    (t.retarget old new).rename ρ = (t.rename ρ).retarget (ρ old) (new.map ρ) := by
  have hswap : ∀ slot : Option Handle, (swap old new slot).map ρ = swap (ρ old) (new.map ρ) (slot.map ρ) :=
    fun slot => by
      cases slot with
      | none => simp [swap]
      | some h =>
        by_cases hh : h = old
        · simp [swap, hh]
        · simp [swap, hh, ρ.injective.eq_iff]
  cases t with
  | code h =>
    by_cases hh : h = old
    · cases new <;> simp [retarget, rename, hh]
    · simp [retarget, rename, hh, ρ.injective.eq_iff]
  | handlers e f => simp [retarget, rename, hswap]
  | _ => rfl

lemma rename_congr {ρ ρ' : Handle → Handle} {t : Target} (h : ∀ d ∈ t.handles, ρ' d = ρ d) : t.rename ρ' = t.rename ρ := by
  cases t with
  | code d => rw [rename, rename, h d mem_cons_self]
  | handlers e f =>
    have hslot : ∀ slot : Option Handle, slot.toList ⊆ (handlers e f).handles → slot.map ρ' = slot.map ρ :=
      fun slot hs => by
        cases slot with
        | none => rfl
        | some d => exact congrArg some (h d (hs mem_cons_self))
    rw [rename, rename, hslot e (subset_append_left _ _), hslot f (subset_append_right _ _)]
  | _ => rfl

end Target

/-- Two instructions that differ only in the handles of their target. -/
structure Instruction.Same (ρ : Handle → Handle) (i i' : Instruction) : Prop where
  opcode : i'.opcode = i.opcode
  operand : i'.operand = i.operand
  target : i'.target? = i.target?.map (Target.rename ρ)

namespace Instruction.Same

variable {ρ : Handle → Handle} {i i' : Instruction}

lemma size (h : i.Same ρ i') : i'.size = i.size := by rw [Instruction.size, Instruction.size, h.opcode, h.operand]

lemma refs (h : i.Same ρ i') : i'.refs = i.refs.map ρ := by
  rw [Instruction.refs, Instruction.refs, h.target]
  cases i.target? <;> simp

lemma setTarget (h : i.Same ρ i') (t : Target) : { i with target := t }.Same ρ { i' with target := t.rename ρ } := by
  refine ⟨h.opcode, h.operand, ?_⟩
  simp only [target?, h.opcode]
  split <;> rfl

lemma of_plain (hr : i.opcode.role = .plain) : i.Same ρ i :=
  ⟨rfl, rfl, by rw [target?_of_plain hr]; rfl⟩

lemma target_eq (h : i.Same ρ i') (hr : i.opcode.role ≠ .plain) : i'.target = i.target.rename ρ := by
  have ht := h.target
  rw [target?, target?, h.opcode, if_pos (Opcode.hasTarget_eq_true.2 hr),
    if_pos (Opcode.hasTarget_eq_true.2 hr)] at ht
  exact some.inj ht

lemma congr {ρ' : Handle → Handle} (h : i.Same ρ i') (hd : ∀ d ∈ i.refs, ρ' d = ρ d) : i.Same ρ' i' := by
  refine ⟨h.opcode, h.operand, h.target.trans ?_⟩
  cases ht : i.target? with
  | none => rfl
  | some t =>
    rw [map_some, map_some, Target.rename_congr fun d hd' => hd d ?_]
    rwa [Instruction.refs, ht]

end Instruction.Same

namespace CodeMap

/-! ### Alike maps -/

/-- The map `m'` has the live instructions of `m` under other handles, and so have the later ones from `b` on, live
or not. Handles that come next differ by a constant. -/
structure Alike (ρ : Handle ↪o Handle) (b : Handle) (m m' : CodeMap) : Prop where
  laid : m.Laid
  laid' : m'.Laid
  next : ∀ k, ρ (m.nextHandle + k) = m'.nextHandle + k
  live : m'.live = m.live.map ρ
  known : ∀ h i, h ∈ m.live ∨ b ≤ h → m.instruction? h = some i →
    ∃ i', m'.instruction? (ρ h) = some i' ∧ i.Same ρ i'

namespace Alike

variable {b : Handle} {m m' : CodeMap} {h : Handle}

variable (ha : Alike ρ b m m')
include ha

lemma mem : ρ h ∈ m'.live ↔ h ∈ m.live := by
  rw [ha.live, List.mem_map_of_injective ρ.injective]

lemma nextHandle : m'.nextHandle = ρ m.nextHandle := (ha.next 0).symm

/-! #### Addresses -/

lemma sizeOf_eq (hm : h ∈ m.live) : sizeOf m'.arena (ρ h) = sizeOf m.arena h := by
  obtain ⟨i, hi⟩ := ha.laid.instruction?_isSome hm
  obtain ⟨i', hi', hs⟩ := ha.known h i (.inl hm) hi
  rw [sizeOf, sizeOf, show m'.arena[ρ h]? = some i' from hi', show m.arena[h]? = some i from hi, map_some,
    map_some, hs.size]

lemma span_eq {hs : List Handle} (hm : ∀ h ∈ hs, h ∈ m.live) : span m'.arena (hs.map ρ) = span m.arena hs := by
  rw [span, span, List.map_map]
  exact congrArg sum (map_congr_left fun h hh => ha.sizeOf_eq (hm h hh))

lemma startsFrom_eq {hs : List Handle} (hm : ∀ h ∈ hs, h ∈ m.live) (a : Nat) :
    startsFrom m'.arena a (hs.map ρ) = startsFrom m.arena a hs := by
  induction hs generalizing a with
  | nil => rfl
  | cons h hs ih =>
    rw [map_cons, startsFrom, startsFrom, ha.sizeOf_eq (hm h mem_cons_self),
      ih fun x hx => hm x (mem_cons_of_mem _ hx)]

lemma starts_eq : m'.starts = m.starts := by
  rw [ha.laid'.starts, ha.laid.starts, ha.live, ha.startsFrom_eq fun _ h => h]

lemma size_eq : m'.size = m.size := by
  rw [ha.laid'.size, ha.laid.size, ha.live, ha.span_eq fun _ h => h]

lemma length_eq : m'.length = m.length := by
  have hlen : m'.live.length = m.live.length := by rw [ha.live, length_map]
  exact hlen

lemma order_getElem? (k : Nat) : m'.order[k]? = m.order[k]?.map ρ := by
  rw [← Array.getElem?_toList, ← Array.getElem?_toList]
  change m'.live[k]? = m.live[k]?.map ρ
  rw [ha.live, getElem?_map]

lemma position?_eq : m'.position? (ρ h) = m.position? h := by
  rw [ha.laid'.position, ha.laid.position, ha.live, idxOf?, idxOf?, findIdx?_map]
  congr 1
  funext x
  simp [ρ.injective.eq_iff]

lemma start?_eq : m'.start? (ρ h) = m.start? h := by
  rw [start?, start?, ha.position?_eq, ha.starts_eq]

lemma last?_eq : m'.last? (ρ h) = m.last? h := by
  rw [last?, last?, ha.start?_eq]
  by_cases hm : h ∈ m.live
  · rw [ha.sizeOf_eq hm]
  · rw [ha.laid.start?_eq_none hm]
    rfl

lemma next?_eq : m'.next? (ρ h) = (m.next? h).map ρ := by
  rw [next?, next?, ha.position?_eq]
  cases m.position? h with
  | none => rfl
  | some k => exact ha.order_getElem? (k + 1)

lemma back?_eq : m'.back? = m.back?.map ρ := by
  rw [CodeMap.back?_eq, CodeMap.back?_eq, ha.live, getLast?_map]

lemma atStart?_eq (a : Nat) : m'.atStart? a = (m.atStart? a).map ρ := by
  rw [atStart?, atStart?, ha.starts_eq]
  cases m.starts.findIdx? (· == a) with
  | none => rfl
  | some k => exact ha.order_getElem? k

lemma target?_eq (hh : h ∈ m.live ∨ b ≤ h) : m'.target? (ρ h) = (m.target? h).map (Target.rename ρ) := by
  cases hi : m.instruction? h with
  | none =>
    obtain ⟨k, rfl⟩ : ∃ k, h = m.nextHandle + k :=
      Nat.exists_eq_add_of_le (Array.getElem?_eq_none_iff.1 hi)
    have hi' : m'.instruction? (ρ (m.nextHandle + k)) = none := by
      rw [ha.next]
      exact Array.getElem?_eq_none_iff.2 (Nat.le_add_right _ _)
    rw [target?, target?, hi, hi']
    rfl
  | some i =>
    obtain ⟨i', hi', hs⟩ := ha.known h i hh hi
    rw [target?, target?, hi, hi', bind_some, bind_some, hs.target]

lemma mem_linked : ρ h ∈ m'.linked ↔ h ∈ m.linked := by
  rw [linked, linked, Std.ExtTreeSet.mem_toList, Std.ExtTreeSet.mem_toList, ha.laid'.targets, ha.laid.targets, ha.mem]
  refine and_congr_right fun hm => ?_
  rw [ha.target?_eq (.inl hm), isSome_map]

lemma linked_eq : m'.linked = m.linked.map ρ := by
  have hsorted : (m.linked.map ρ).Pairwise (· < ·) := by
    rw [pairwise_map]
    exact (sorted_linked m).imp fun h => ρ.strictMono h
  refine (sorted_linked m').eq_of_mem_iff hsorted fun x => ?_
  rw [List.mem_map]
  constructor
  · intro hx
    have hlive : x ∈ m'.live := ((ha.laid'.targets x).1 (Std.ExtTreeSet.mem_toList.1 hx)).1
    rw [ha.live, List.mem_map] at hlive
    obtain ⟨h, -, rfl⟩ := hlive
    exact ⟨h, ha.mem_linked.1 hx, rfl⟩
  · rintro ⟨h, hh, rfl⟩
    exact ha.mem_linked.2 hh

lemma inside_eq (start stop : Nat) : m'.inside start stop = (m.inside start stop).map ρ ∧
      m'.outside start stop = (m.outside start stop).map ρ := by
  have hlies : m'.lies start stop ∘ ρ = m.lies start stop := funext fun h => by
    simp only [Function.comp_apply, lies, ha.start?_eq, ha.last?_eq]
  rw [inside, inside, outside, outside, ha.live, List.filter_map, List.filter_map, ← hlies]
  exact ⟨rfl, rfl⟩

/-! #### Changes -/

lemma insert {i i' : Instruction} (hi : i.Same ρ i') : Alike ρ b (m.insert i) (m'.insert i') where
  laid := ha.laid.insert i
  laid' := ha.laid'.insert i'
  next := fun k => by
    rw [nextHandle_insert, nextHandle_insert, Nat.add_right_comm, Nat.add_assoc, Nat.add_right_comm, Nat.add_assoc]
    exact ha.next (k + 1)
  live := by rw [live_insert, live_insert, ha.live, map_append, ha.nextHandle]; rfl
  known := fun h j hh hj => by
    rw [instruction?_insert] at hj ⊢
    simp only [ha.nextHandle, ρ.injective.eq_iff]
    split at hj
    · next he =>
      cases hj
      exact ⟨i', if_pos he, hi⟩
    · next he =>
      rw [if_neg he]
      refine ha.known h j (hh.imp_left fun hm => ?_) hj
      rw [live_insert, mem_append, mem_singleton] at hm
      exact hm.resolve_right he

/-- It does not matter what becomes of a forgotten instruction. -/
lemma setTarget {h : Handle} {t t' : Target} (ht : h ∈ m.live ∨ b ≤ h → t' = t.rename ρ) :
    Alike ρ b (m.setTarget h t) (m'.setTarget (ρ h) t') where
  laid := ha.laid.setTarget h t
  laid' := ha.laid'.setTarget (ρ h) t'
  next := by
    simp only [nextHandle_setTarget]
    exact ha.next
  live := by rw [live_setTarget, live_setTarget, ha.live]
  known := fun x j hx hj => by
    rw [live_setTarget] at hx
    rw [instruction?_setTarget] at hj ⊢
    simp only [ρ.injective.eq_iff]
    split at hj
    · next he =>
      obtain ⟨i, hi, rfl⟩ := map_eq_some_iff.1 hj
      obtain ⟨i', hi', hs⟩ := ha.known x i hx hi
      refine ⟨_, by rw [if_pos he, hi', map_some], ?_⟩
      rw [ht (he ▸ hx)]
      exact hs.setTarget t
    · next he =>
      rw [if_neg he]
      exact ha.known x j hx hj

/-- The maps that have only some live instructions, in another order. -/
lemma layOut {hs : List Handle} (hnd : hs.Nodup) (hm : ∀ h ∈ hs, h ∈ m.live) :
    Alike ρ b (.layOut m.arena hs.toArray) (.layOut m'.arena (hs.map ρ).toArray) where
  laid := laid_layOut hnd fun h hh => ha.laid.bound h (hm h hh)
  laid' := laid_layOut (hnd.map ρ.injective) fun x hx => by
    obtain ⟨h, hh, rfl⟩ := mem_map.1 hx
    exact ha.laid'.bound _ (ha.mem.2 (hm h hh))
  next := ha.next
  live := by simp
  known := fun h i hh => ha.known h i (hh.imp_left fun hh => hm h (by simpa using hh))

lemma removeSpan (start stop : Nat) : Alike ρ b (m.removeSpan start stop).1 (m'.removeSpan start stop).1 ∧
      (m'.removeSpan start stop).2 = (m.removeSpan start stop).2.map ρ := by
  obtain ⟨hin, hout⟩ := ha.inside_eq start stop
  rw [ha.laid.removeSpan_eq, ha.laid'.removeSpan_eq, hin, hout]
  simp only [map_eq_nil_iff]
  split_ifs
  · exact ⟨ha, trivial⟩
  · exact ⟨ha.layOut (ha.laid.nodup.filter _) fun h hm => (mem_filter.1 hm).1, trivial⟩

lemma truncate (address : Nat) : Alike ρ b (m.truncate address).1 (m'.truncate address).1 ∧
      (m'.truncate address).2 = (m.truncate address).2.map ρ := by
  rw [CodeMap.truncate, CodeMap.truncate, ha.size_eq]
  split_ifs
  · exact ⟨ha, rfl⟩
  · exact ha.removeSpan _ _

lemma relocate (start stop : Nat) : Alike ρ b (m.relocate start stop).1 (m'.relocate start stop).1 := by
  obtain ⟨hin, hout⟩ := ha.inside_eq start stop
  have hperm := m.perm_inside start stop
  rw [ha.laid.relocate_eq, ha.laid'.relocate_eq, hin, hout, ← map_append]
  simp only [map_eq_nil_iff]
  split_ifs
  · exact ha
  · exact ha.layOut (hperm.nodup_iff.2 ha.laid.nodup) fun h hm => hperm.mem_iff.1 hm

end Alike

end CodeMap

end NeoScript
