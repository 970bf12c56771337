import Mathlib.Algebra.GroupWithZero.Nat
import Mathlib.Data.List.Nodup
import NeoScript.CodeMap.Span

/-!
# The layout of a code map

`Laid m` says that the caches of a code map are those of its order: the start of an instruction is the number of bytes
before it, the place of a handle is where it stands, and the control transfers are the live ones. Each step that gives
an instruction its place keeps the caches right up to there, so working them out again from some place on leaves a map
laid out. Each look-up is then a fact about the list of live handles, and a map that is laid out is determined by its
instructions and their order.
-/

namespace NeoScript.CodeMap

open List Option

/-- The number of bytes of some instructions. -/
def span (arena : Array Instruction) (hs : List Handle) : Nat := (hs.map (sizeOf arena)).sum

/-- The start addresses of instructions that follow each other from `address` on. -/
def startsFrom (arena : Array Instruction) (address : Nat) : List Handle → List Nat
  | [] => []
  | h :: hs => address :: startsFrom arena (address + sizeOf arena h) hs

/-- The live handles in address order. -/
def live (m : CodeMap) : List Handle := m.order.toList

/-- Each live handle was issued and stands once, each issued one has a cached place, and the control transfers are
the live ones. -/
structure Ordered (m : CodeMap) : Prop where
  positions : m.positions.size = m.arena.size
  nodup : m.live.Nodup
  bound : ∀ h ∈ m.live, h < m.arena.size
  targets : ∀ h, h ∈ m.withTarget ↔ h ∈ m.live ∧ (m.target? h).isSome

/-- The caches of the map are those of its order. -/
structure Laid (m : CodeMap) : Prop extends Ordered m where
  starts : m.starts = (startsFrom m.arena 0 m.live).toArray
  position : ∀ h, m.position? h = m.live.idxOf? h
  size : m.size = span m.arena m.live

/-- The caches of the map are those of its order up to the places of `pre`. -/
structure LaidUpTo (m : CodeMap) (pre : List Handle) : Prop extends Ordered m where
  starts : m.starts = (startsFrom m.arena 0 pre).toArray
  position : ∀ h, (h ∈ m.live → h ∈ pre) → m.position? h = m.live.idxOf? h
  size : m.size = span m.arena pre

/-! ### Bytes -/

section Span

variable {arena : Array Instruction} {h : Handle} {arena' : Array Instruction} {hs : List Handle}

@[simp] lemma span_nil : span arena [] = 0 := rfl

@[simp] lemma span_cons (h : Handle) (hs : List Handle) : span arena (h :: hs) = sizeOf arena h + span arena hs := rfl

@[simp] lemma span_append (as bs : List Handle) : span arena (as ++ bs) = span arena as + span arena bs := by
  simp [span]

lemma sizeOf_pos (hlt : h < arena.size) : 0 < sizeOf arena h := by
  simpa [sizeOf, hlt] using Instruction.size_pos arena[h]

lemma sizeOf_push_of_lt (i : Instruction) (hlt : h < arena.size) : sizeOf (arena.push i) h = sizeOf arena h := by
  simp only [sizeOf, Array.getElem?_push]
  rw [if_neg (Nat.ne_of_lt hlt)]

@[simp] lemma sizeOf_push_self (i : Instruction) : sizeOf (arena.push i) arena.size = i.size := by
  simp [sizeOf]

lemma span_congr (h : ∀ x ∈ hs, sizeOf arena' x = sizeOf arena x) : span arena' hs = span arena hs := by
  rw [span, span, map_congr_left h]

lemma startsFrom_congr {a : Nat}
    (h : ∀ x ∈ hs, sizeOf arena' x = sizeOf arena x) : startsFrom arena' a hs = startsFrom arena a hs := by
  induction hs generalizing a with
  | nil => rfl
  | cons x hs ih =>
    rw [startsFrom, startsFrom, h x mem_cons_self, ih fun y hy => h y (mem_cons_of_mem _ hy)]

lemma startsFrom_append (as bs : List Handle) (a : Nat) :
    startsFrom arena a (as ++ bs) = startsFrom arena a as ++ startsFrom arena (a + span arena as) bs := by
  induction as generalizing a with
  | nil => simp [startsFrom]
  | cons h as ih => simp [startsFrom, ih, Nat.add_assoc]

@[simp] lemma length_startsFrom (hs : List Handle) (a : Nat) : (startsFrom arena a hs).length = hs.length := by
  induction hs generalizing a with
  | nil => rfl
  | cons h hs ih => simp [startsFrom, ih]

lemma lt_of_mem_startsFrom {a x : Nat} (hb : ∀ h ∈ hs, h < arena.size)
    (hx : x ∈ startsFrom arena a hs) : x < a + span arena hs := by
  induction hs generalizing a with
  | nil => cases hx
  | cons h hs ih =>
    have hpos := sizeOf_pos (hb h mem_cons_self)
    rw [span_cons]
    rcases mem_cons.1 hx with rfl | hx
    · omega
    · have := ih (fun y hy => hb y (mem_cons_of_mem _ hy)) hx
      omega

end Span

/-! ### Laying out -/

section LayOut

variable {m : CodeMap} {pre post : List Handle} {h : Handle} {arena : Array Instruction} {order : Array Handle}

lemma idxOf?_append (as bs : List Handle) (x : Handle) :
    (as ++ bs).idxOf? x = (as.idxOf? x).or ((bs.idxOf? x).map (· + as.length)) := by
  simp only [idxOf?, findIdx?_append]

lemma Ordered.not_mem_left (ho : m.Ordered) (hs : m.live = pre ++ h :: post) : h ∉ pre := fun hm => by
  have hnd := ho.nodup
  rw [hs] at hnd
  exact (nodup_append.1 hnd).2.2 h hm h mem_cons_self rfl

lemma Ordered.idxOf?_split (ho : m.Ordered) (hs : m.live = pre ++ h :: post) : m.live.idxOf? h = some pre.length := by
  rw [hs, idxOf?_append, idxOf?_eq_none_iff.2 (ho.not_mem_left hs)]
  simp [idxOf?_cons]

/-- Giving the next instruction its place. -/
lemma LaidUpTo.place (hl : m.LaidUpTo pre) (hs : m.live = pre ++ h :: post) : (m.place h).LaidUpTo (pre ++ [h]) where
  positions := by simpa [CodeMap.place] using hl.positions
  nodup := hl.nodup
  bound := hl.bound
  targets := hl.targets
  starts := by
    rw [startsFrom_append, CodeMap.place, hl.starts, hl.size]
    simp [startsFrom]
  size := by
    rw [span_append, CodeMap.place, hl.size]
    simp
  position := fun x hx => by
    have hplace : (m.place h).position? x = if h = x then some pre.length else m.position? x := by
      have hlt : h < m.positions.size := hl.positions ▸ hl.bound h (by rw [hs]; simp)
      simp only [position?, CodeMap.place, Array.getElem?_setIfInBounds, hl.starts, List.size_toArray, length_startsFrom, hlt]
      split_ifs <;> rfl
    rw [hplace]
    split_ifs with hxh
    · exact hxh ▸ (hl.idxOf?_split hs).symm
    · refine hl.position x fun hm => (mem_append.1 (hx hm)).resolve_right fun hmem => hxh ?_
      exact (mem_singleton.1 hmem).symm

/-- Giving all instructions behind some place theirs. -/
lemma LaidUpTo.places (hl : m.LaidUpTo pre) (hs : m.live = pre ++ post) :
    (post.foldl CodeMap.place m).Laid ∧ (post.foldl CodeMap.place m).order = m.order := by
  induction post generalizing m pre with
  | nil =>
    rw [append_nil] at hs
    subst hs
    exact ⟨{ hl.toOrdered with starts := hl.starts, position := fun h => hl.position h id, size := hl.size }, rfl⟩
  | cons h post ih => exact ih (hl.place hs) (hs.trans (append_cons pre h post))

/-- **Working the caches out again** from a place on, if they are right before it. -/
lemma Ordered.reflow {rest : List Nat} (ho : m.Ordered) (hs : m.live = pre ++ post)
    (hstarts : m.starts.toList = startsFrom m.arena 0 pre ++ rest)
    (hposition : ∀ h, (h ∈ m.live → h ∈ pre) → m.position? h = m.live.idxOf? h) :
    (m.reflow pre.length).Laid ∧ (m.reflow pre.length).order = m.order := by
  have hbegin : m.beginOf pre.length = span m.arena pre := by
    rcases eq_nil_or_concat' pre with rfl | ⟨as, a, rfl⟩
    · rfl
    · have hstart : m.starts[as.length]? = some (span m.arena as) := by
        rw [← Array.getElem?_toList, hstarts, startsFrom_append]
        simp [startsFrom]
      have horder : m.order[as.length]? = some a := by
        rw [← Array.getElem?_toList]
        change m.live[as.length]? = _
        simp [hs]
      rw [length_append, length_singleton, beginOf, hstart, horder]
      simp
  have hdrop : m.order.toList.drop pre.length = post := by
    change m.live.drop pre.length = _
    rw [hs, drop_left]
  have htake : m.starts.take pre.length = (startsFrom m.arena 0 pre).toArray := by
    refine Array.toList_inj.1 ?_
    rw [Array.take_eq_extract, Array.toList_extract, extract_eq_take_drop, hstarts]
    simp
  rw [CodeMap.reflow, hdrop]
  exact LaidUpTo.places (m := { m with starts := m.starts.take pre.length, size := m.beginOf pre.length })
    { ho with starts := htake, position := hposition, size := hbegin } hs

/-- The map with the given instructions and order and the caches that belong to them. -/
def layOut (arena : Array Instruction) (order : Array Handle) : CodeMap where
  arena := arena
  order := order
  starts := (startsFrom arena 0 order.toList).toArray
  positions := .ofFn fun h : Fin arena.size => order.toList.idxOf? h.val
  withTarget := .ofList (order.toList.filter fun h => (arena[h]?.bind Instruction.target?).isSome)
  size := span arena order.toList

@[simp] lemma live_layOut (arena : Array Instruction) (order : Array Handle) :
    (layOut arena order).live = order.toList := rfl

@[simp] lemma arena_layOut (arena : Array Instruction) (order : Array Handle) : (layOut arena order).arena = arena := rfl

lemma laid_layOut (hnd : order.toList.Nodup) (hb : ∀ h ∈ order.toList, h < arena.size) : (layOut arena order).Laid where
  starts := rfl
  size := rfl
  nodup := hnd
  bound := hb
  positions := Array.size_ofFn
  targets := fun h => by
    rw [layOut, Std.ExtTreeSet.mem_ofList, contains_iff_mem, mem_filter]
    rfl
  position := fun h => by
    rw [position?, layOut, Array.getElem?_ofFn]
    split_ifs with hlt
    · rfl
    · exact (idxOf?_eq_none_iff.2 fun hm => hlt (hb h hm)).symm

lemma Laid.getElem?_positions (hl : m.Laid) (hlt : h < m.arena.size) : m.positions[h]? = some (m.live.idxOf? h) := by
  have hpos := hl.position h
  rw [position?, Array.getElem?_eq_getElem (hl.positions ▸ hlt)] at hpos
  rw [Array.getElem?_eq_getElem (hl.positions ▸ hlt), ← hpos, Option.join_some]

/-- A map that is laid out is determined by its instructions and their order. -/
lemma Laid.layOut_eq (hl : m.Laid) : layOut m.arena m.order = m := by
  have hout : (layOut m.arena m.order).Laid := laid_layOut hl.nodup hl.bound
  have hpositions : (layOut m.arena m.order).positions = m.positions := by
    apply Array.ext_getElem?
    intro h
    by_cases hlt : h < m.arena.size
    · rw [hl.getElem?_positions hlt]
      exact hout.getElem?_positions hlt
    · rw [Array.getElem?_eq_none (by rw [hout.positions]; exact Nat.le_of_not_lt hlt),
        Array.getElem?_eq_none (by rw [hl.positions]; exact Nat.le_of_not_lt hlt)]
  have htargets : (layOut m.arena m.order).withTarget = m.withTarget :=
    Std.ExtTreeSet.ext_mem fun h => (hout.targets h).trans (hl.targets h).symm
  calc layOut m.arena m.order
      = ⟨m.arena, m.order, (startsFrom m.arena 0 m.live).toArray, (layOut m.arena m.order).positions,
          (layOut m.arena m.order).withTarget, span m.arena m.live⟩ := rfl
    _ = m := by rw [hpositions, htargets, ← hl.starts, ← hl.size]

/-- A map whose caches were worked out again. -/
lemma Ordered.reflow_eq {rest : List Nat} (ho : m.Ordered) (hs : m.live = pre ++ post)
    (hstarts : m.starts.toList = startsFrom m.arena 0 pre ++ rest)
    (hposition : ∀ h, (h ∈ m.live → h ∈ pre) → m.position? h = m.live.idxOf? h) :
    m.reflow pre.length = layOut m.arena m.order := by
  obtain ⟨hlaid, horder⟩ := ho.reflow hs hstarts hposition
  rw [← hlaid.layOut_eq, arena_reflow, horder]

lemma laid_empty : Laid {} where
  starts := rfl
  position := fun _ => rfl
  positions := rfl
  size := rfl
  nodup := nodup_nil
  bound := nofun
  targets := fun _ => ⟨fun h => absurd h Std.ExtTreeSet.not_mem_empty, fun h => by cases h.1⟩

end LayOut

/-! ### Looking up -/

section LookUp

variable {m : CodeMap} {pre post : List Handle} {h : Handle}
  {arena : Array Instruction} {a : Nat} {e : Nat × Handle × Instruction}

lemma Laid.contains_iff (hl : m.Laid) : m.contains h = true ↔ h ∈ m.live := by
  rw [contains, hl.position, isSome_iff_ne_none, Ne, idxOf?_eq_none_iff, not_not]

lemma Laid.lt_next (hl : m.Laid) (hm : h ∈ m.live) : h < m.nextHandle := hl.bound h hm

section

variable (hl : m.Laid)
include hl

lemma Laid.position?_split (hs : m.live = pre ++ h :: post) : m.position? h = some pre.length := by
  rw [hl.position, hl.idxOf?_split hs]

lemma Laid.start?_split (hs : m.live = pre ++ h :: post) : m.start? h = some (span m.arena pre) := by
  rw [start?, hl.position?_split hs, bind_some, hl.starts, hs, startsFrom_append, getElem?_toArray,
    getElem?_append_right (by simp)]
  simp [startsFrom]

lemma Laid.start?_eq_none (hn : h ∉ m.live) : m.start? h = none := by
  rw [start?, hl.position, idxOf?_eq_none_iff.2 hn, bind_none]

lemma Laid.start?_isSome_iff : (m.start? h).isSome ↔ h ∈ m.live := by
  constructor
  · intro hsome
    by_contra hn
    rw [hl.start?_eq_none hn] at hsome
    cases hsome
  · intro hm
    obtain ⟨pre, post, hs⟩ := append_of_mem hm
    rw [hl.start?_split hs]
    rfl

lemma Laid.last?_split (hs : m.live = pre ++ h :: post) :
    m.last? h = some (span m.arena pre + sizeOf m.arena h - 1) := by
  rw [last?, hl.start?_split hs, map_some]

lemma Laid.next?_split (hs : m.live = pre ++ h :: post) : m.next? h = post.head? := by
  rw [next?, hl.position?_split hs, bind_some, ← Array.getElem?_toList]
  change m.live[pre.length + 1]? = _
  rw [hs, getElem?_append_right (by omega)]
  cases post <;> simp

end

lemma back?_eq (m : CodeMap) : m.back? = m.live.getLast? := by
  rw [back?, live, Array.getLast?_toList]

section

variable (hl : m.Laid) (hs : m.live = pre ++ h :: post)
include hl hs

lemma Laid.atStart?_split : m.atStart? (span m.arena pre) = some h := by
  have hb : ∀ x ∈ pre, x < m.arena.size := fun x hx => hl.bound x (by rw [hs]; exact mem_append_left _ hx)
  have hidx : m.starts.findIdx? (· == span m.arena pre) = some pre.length := by
    rw [hl.starts, findIdx?_toArray, hs, startsFrom_append, findIdx?_append,
      findIdx?_eq_none_iff.2 ?_]
    · simp [startsFrom, findIdx?_cons]
    · intro x hx
      have := lt_of_mem_startsFrom hb hx
      simp only [beq_eq_false_iff_ne]
      omega
  rw [atStart?, hidx, bind_some, ← Array.getElem?_toList]
  change m.live[pre.length]? = _
  rw [hs, getElem?_append_right (Nat.le_refl _)]
  simp

lemma Laid.covering?_inside {a : Nat} (hle : span m.arena pre ≤ a)
    (hlt : a < span m.arena pre + sizeOf m.arena h) : m.covering? a = some h := by
  have hb : ∀ x ∈ pre, x < m.arena.size := fun x hx => hl.bound x (by rw [hs]; exact mem_append_left _ hx)
  have hsize : ¬ m.size ≤ a := by
    rw [hl.size, hs, span_append, span_cons]
    omega
  have hidx : m.starts.findIdx (fun b => decide (a < b)) = pre.length + 1 := by
    have hbefore : (startsFrom m.arena 0 (pre ++ [h])).findIdx (fun b => decide (a < b)) =
        (startsFrom m.arena 0 (pre ++ [h])).length := by
      refine findIdx_eq_length.2 fun x hx => ?_
      rw [startsFrom_append, mem_append] at hx
      rcases hx with hx | hx
      · have := lt_of_mem_startsFrom hb hx
        simp only [decide_eq_false_iff_not]
        omega
      · simp [startsFrom] at hx
        simp [hx, hle]
    rw [hl.starts, findIdx_toArray, hs, append_cons, startsFrom_append, findIdx_append, hbefore]
    cases post with
    | nil => simp [startsFrom]
    | cons x post => simp [startsFrom, findIdx_cons, hlt]
  rw [covering?, if_neg hsize, hidx]
  change m.order[pre.length]? = _
  rw [← Array.getElem?_toList]
  change m.live[pre.length]? = _
  rw [hs, getElem?_append_right (Nat.le_refl _)]
  simp

lemma Laid.covering?_split : m.covering? (span m.arena pre) = some h :=
  hl.covering?_inside hs (Nat.le_refl _) (Nat.lt_add_of_pos_right (sizeOf_pos (hl.bound h (by rw [hs]; simp))))

end

lemma Laid.atStart?_size (hl : m.Laid) : m.atStart? m.size = none := by
  have hidx : m.starts.findIdx? (· == m.size) = none := by
    rw [hl.starts, findIdx?_toArray, findIdx?_eq_none_iff]
    intro x hx
    have := lt_of_mem_startsFrom hl.bound hx
    simp only [beq_eq_false_iff_ne, hl.size]
    omega
  rw [atStart?, hidx, bind_none]

/-- The instructions of `hs`, which follow each other from `address` on. -/
def placed (arena : Array Instruction) (address : Nat) : List Handle → List (Nat × Handle × Instruction)
  | [] => []
  | h :: hs => (arena[h]?.map fun i => (address, h, i)).toList ++ placed arena (address + sizeOf arena h) hs

lemma Laid.instructions_eq (hl : m.Laid) : m.instructions = placed m.arena 0 m.live := by
  have hzip : ∀ hs a, ((hs.zip (startsFrom m.arena a hs)).filterMap fun e =>
      (m.instruction? e.1).map fun i => (e.2, e.1, i)) = placed m.arena a hs := fun hs => by
    induction hs with
    | nil => exact fun a => rfl
    | cons h hs ih =>
      intro a
      rw [startsFrom, zip_cons_cons, filterMap_cons, placed, ih, instruction?]
      cases m.arena[h]? <;> rfl
  rw [instructions, hl.starts]
  exact hzip m.live 0

lemma map_fst_placed {hs : List Handle} (hb : ∀ h ∈ hs, h < arena.size) :
    (placed arena a hs).map Prod.fst = startsFrom arena a hs := by
  induction hs generalizing a with
  | nil => rfl
  | cons h hs ih =>
    rw [placed, startsFrom, Array.getElem?_eq_getElem (hb h mem_cons_self)]
    simp [ih fun x hx => hb x (mem_cons_of_mem _ hx)]

lemma Laid.map_fst_instructions (hl : m.Laid) : m.instructions.map Prod.fst = m.starts.toList := by
  rw [hl.instructions_eq, map_fst_placed hl.bound, hl.starts]

lemma map_handle_placed {hs : List Handle} (hb : ∀ h ∈ hs, h < arena.size) :
    (placed arena a hs).map (fun e => e.2.1) = hs := by
  induction hs generalizing a with
  | nil => rfl
  | cons h hs ih =>
    rw [placed, Array.getElem?_eq_getElem (hb h mem_cons_self)]
    simp [ih fun x hx => hb x (mem_cons_of_mem _ hx)]

lemma Laid.map_handle_instructions (hl : m.Laid) : m.instructions.map (fun e => e.2.1) = m.live := by
  rw [hl.instructions_eq, map_handle_placed hl.bound]

lemma mem_placed {hs : List Handle} (he : e ∈ placed arena a hs) :
    ∃ pre post, hs = pre ++ e.2.1 :: post ∧ e.1 = a + span arena pre ∧ arena[e.2.1]? = some e.2.2 := by
  induction hs generalizing a with
  | nil => cases he
  | cons h hs ih =>
    rw [placed, mem_append, mem_toList] at he
    rcases he with he | he
    · obtain ⟨i, hi, rfl⟩ := map_eq_some_iff.1 he
      exact ⟨[], hs, rfl, rfl, hi⟩
    · obtain ⟨pre, post, rfl, haddress, hi⟩ := ih he
      exact ⟨h :: pre, post, rfl, by rw [haddress, span_cons, Nat.add_assoc], hi⟩

lemma Laid.mem_instructions (hl : m.Laid) (he : e ∈ m.instructions) :
    e.2.1 ∈ m.live ∧ m.start? e.2.1 = some e.1 ∧ m.instruction? e.2.1 = some e.2.2 := by
  obtain ⟨pre, post, hs, haddress, hi⟩ := mem_placed (hl.instructions_eq ▸ he)
  refine ⟨by rw [hs]; simp, ?_, hi⟩
  rw [hl.start?_split hs, haddress, Nat.zero_add]

lemma mem_starts_of_start? (h' : m.start? h = some a) : a ∈ m.starts.toList := by
  obtain ⟨k, -, hk⟩ := bind_eq_some_iff.1 h'
  exact Array.mem_toList_iff.2 (Array.mem_of_getElem? hk)

lemma Laid.start?_inj (hl : m.Laid) {h d : Handle} (hh : m.start? h = some a) (hd : m.start? d = some a) : h = d := by
  have hat : ∀ x, m.start? x = some a → m.atStart? a = some x := fun x hx => by
    obtain ⟨pre, post, hs⟩ := append_of_mem (hl.start?_isSome_iff.1 (by rw [hx]; rfl))
    rw [hl.start?_split hs, some.injEq] at hx
    exact hx ▸ hl.atStart?_split hs
  exact some.inj ((hat h hh).symm.trans (hat d hd))

lemma Laid.instruction?_isSome (hl : m.Laid) (hm : h ∈ m.live) : ∃ i, m.instruction? h = some i :=
  ⟨_, Array.getElem?_eq_getElem (hl.bound h hm)⟩

end LookUp

/-! ### Insertion and targets -/

section Update

variable {m : CodeMap}

@[simp] lemma live_insert (m : CodeMap) (i : Instruction) : (m.insert i).live = m.live ++ [m.nextHandle] := by
  simp [live, insert, nextHandle]

lemma instruction?_insert (m : CodeMap) (i : Instruction) (h : Handle) :
    (m.insert i).instruction? h = if h = m.nextHandle then some i else m.instruction? h := by
  simp only [instruction?, insert, nextHandle, Array.getElem?_push]
  rfl

lemma Laid.insert (hl : m.Laid) (i : Instruction) : (m.insert i).Laid where
  starts := by
    have hcongr : ∀ x ∈ m.live, sizeOf (m.arena.push i) x = sizeOf m.arena x := fun x hx =>
      sizeOf_push_of_lt i (hl.bound x hx)
    rw [live_insert, startsFrom_append]
    simp only [CodeMap.insert, hl.starts, startsFrom_congr hcongr, span_congr hcongr, ← hl.size, startsFrom,
      Nat.zero_add, push_toArray]
  position := fun h => by
    have hpos : (m.insert i).position? h = if h = m.nextHandle then some m.order.size else m.position? h := by
      simp only [position?, CodeMap.insert, Array.getElem?_push, hl.positions, nextHandle]
      by_cases hh : h = m.arena.size
      · simp [hh]
      · simp [hh]
    rw [hpos, live_insert, idxOf?_append, hl.position]
    by_cases hh : h = m.nextHandle
    · have hn : m.nextHandle ∉ m.live := fun hm => Nat.lt_irrefl _ (hl.bound _ hm)
      subst hh
      rw [if_pos rfl, idxOf?_eq_none_iff.2 hn]
      simp [idxOf?_cons, live]
    · have hne : ¬ m.nextHandle = h := fun e => hh e.symm
      rw [if_neg hh]
      simp [idxOf?_cons, hne]
  positions := by simp [CodeMap.insert, hl.positions]
  size := by
    rw [live_insert, span_append]
    simp only [CodeMap.insert, span_cons, span_nil, nextHandle, sizeOf_push_self, hl.size]
    rw [span_congr fun x hx => sizeOf_push_of_lt i (hl.bound x hx)]
    rfl
  nodup := by
    rw [live_insert, nodup_append]
    refine ⟨hl.nodup, nodup_singleton _, fun a ha b hb => ?_⟩
    rw [mem_singleton] at hb
    subst hb
    exact Nat.ne_of_lt (hl.bound a ha)
  bound := fun h hm => by
    rw [live_insert, mem_append, mem_singleton] at hm
    rcases hm with hm | rfl
    · have := hl.bound h hm
      simp only [CodeMap.insert, Array.size_push]
      exact Nat.lt_succ_of_lt this
    · simp [CodeMap.insert, nextHandle]
  targets := fun h => by
    have hnew : m.nextHandle ∉ m.live := fun hm => Nat.lt_irrefl _ (hl.bound _ hm)
    have htarget : (m.insert i).target? h = if h = m.nextHandle then i.target? else m.target? h := by
      rw [target?, instruction?_insert]
      split_ifs <;> rfl
    have hmem : h ∈ (m.insert i).withTarget ↔ h = m.nextHandle ∧ i.target?.isSome ∨ h ∈ m.withTarget := by
      rw [CodeMap.insert, Instruction.target?]
      dsimp only
      split_ifs with ht
      · rw [Std.ExtTreeSet.mem_insert, Nat.compare_eq_eq, eq_comm]
        simp [nextHandle]
      · simp
    rw [hmem, htarget, live_insert, mem_append, mem_singleton, hl.targets]
    by_cases hh : h = m.nextHandle
    · simp [hh, hnew]
    · simp [hh]

@[simp] lemma live_setTarget (m : CodeMap) (h : Handle) (t : Target) : (m.setTarget h t).live = m.live := rfl

@[simp] lemma nextHandle_setTarget (m : CodeMap) (h : Handle) (t : Target) :
    (m.setTarget h t).nextHandle = m.nextHandle := by
  simp [nextHandle, setTarget]

lemma instruction?_setTarget (m : CodeMap) (h : Handle) (t : Target) (x : Handle) : (m.setTarget h t).instruction? x =
      if x = h then (m.instruction? x).map fun i => { i with target := t } else m.instruction? x := by
  simp only [instruction?, setTarget, Array.getElem?_modify]
  by_cases hx : x = h
  · subst hx
    simp
  · rw [if_neg hx, if_neg (Ne.symm hx)]

lemma sizeOf_setTarget (m : CodeMap) (h : Handle) (t : Target) (x : Handle) :
    sizeOf (m.setTarget h t).arena x = sizeOf m.arena x := by
  have := instruction?_setTarget m h t x
  simp only [instruction?] at this
  rw [sizeOf, sizeOf, this]
  split
  · rw [Option.map_map]
    rfl
  · rfl

lemma Laid.setTarget (hl : m.Laid) (h : Handle) (t : Target) : (m.setTarget h t).Laid where
  starts := by
    rw [startsFrom_congr fun x _ => sizeOf_setTarget m h t x]
    exact hl.starts
  position := hl.position
  positions := by simp [CodeMap.setTarget, hl.positions]
  size := by
    rw [span_congr fun x _ => sizeOf_setTarget m h t x]
    exact hl.size
  nodup := hl.nodup
  bound := fun x hx => by
    simp only [CodeMap.setTarget, Array.size_modify]
    exact hl.bound x hx
  targets := fun x => by
    have htarget : ((m.setTarget h t).target? x).isSome = (m.target? x).isSome := by
      rw [target?, target?, instruction?_setTarget]
      split
      · cases m.instruction? x with
        | none => rfl
        | some i => cases ht : i.opcode.hasTarget <;> simp [Instruction.target?, ht]
      · rfl
    rw [htarget]
    exact hl.targets x

end Update

end NeoScript.CodeMap
