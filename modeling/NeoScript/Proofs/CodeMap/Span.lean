import NeoScript.Proofs.CodeMap.Layout

/-!
# Spans of a laid out map

The operations on spans find a block of places by a search over the addresses. Since the addresses of a laid out map
increase, the block is made of the instructions that lie in the span, so each operation is a fact about the list of
live handles: listing filters it, removing filters out the rest, and relocating puts the one behind the other.
-/

namespace NeoScript.CodeMap

open List

/-- Whether the first and the last byte of a live instruction are in `[start, stop]`. -/
def lies (m : CodeMap) (start stop : Nat) (h : Handle) : Bool :=
  (m.start? h).any (start ≤ ·) && (m.last? h).any (· ≤ stop)

/-- The live instructions that lie in `[start, stop]`. -/
def inside (m : CodeMap) (start stop : Nat) : List Handle := m.live.filter (m.lies start stop)

/-- The other live instructions. -/
def outside (m : CodeMap) (start stop : Nat) : List Handle := m.live.filter fun h => !m.lies start stop h

variable {m : CodeMap} {pre mid post rest : List Handle} {h d : Handle} {start stop a : Nat}

/-! ### Addresses increase -/

lemma getElem?_startsFrom {arena : Array Instruction} (hs : List Handle) (a k : Nat) :
    (startsFrom arena a hs)[k]? = if k < hs.length then some (a + span arena (hs.take k)) else none := by
  induction hs generalizing a k with
  | nil => simp [startsFrom]
  | cons h hs ih =>
    cases k with
    | zero => simp [startsFrom]
    | succ k => simp [startsFrom, ih, Nat.add_assoc]

section

variable (hl : m.Laid) {hs : List Handle} {p : Handle → Bool}
include hl

lemma Laid.map_start? : m.live.map m.start? = m.starts.toList.map some := by
  rw [hl.starts]
  refine ext_getElem? fun k => ?_
  rw [getElem?_map, getElem?_map, getElem?_startsFrom]
  split_ifs with hk
  · rw [getElem?_eq_getElem hk, Option.map_some, hl.start?_split (getElem_cons_drop hk ▸ (take_append_drop k _).symm)]
    simp
  · rw [getElem?_eq_none (Nat.le_of_not_lt hk)]
    rfl

lemma Laid.pos (hm : h ∈ m.live) : 0 < sizeOf m.arena h := sizeOf_pos (hl.bound h hm)

lemma Laid.lies_split (hs : m.live = pre ++ h :: post) : m.lies start stop h = true ↔
      start ≤ span m.arena pre ∧ span m.arena pre + sizeOf m.arena h ≤ stop + 1 := by
  simp only [lies, hl.start?_split hs, hl.last?_split hs, Option.any_some, Bool.and_eq_true, decide_eq_true_eq]
  omega

/-- What stands in front of a span does not lie in it. -/
lemma Laid.not_lies (hs : m.live = pre ++ rest) (stop : Nat) : ∀ h ∈ pre, m.lies (span m.arena pre) stop h = false := by
  intro h hm
  obtain ⟨as, bs, rfl⟩ := append_of_mem hm
  have hh := hl.pos (show h ∈ m.live by simp [hs])
  rw [← Bool.not_eq_true, hl.lies_split (show m.live = as ++ h :: (bs ++ rest) by simpa using hs), span_append, span_cons]
  omega

/-- What stands further on starts later and ends later. -/
lemma Laid.pairwise (hlive : m.live = pre ++ hs) : hs.Pairwise fun h d => ∃ a b c e,
      m.start? h = some a ∧ m.last? h = some b ∧ m.start? d = some c ∧ m.last? d = some e ∧ a < c ∧ b < e := by
  induction hs generalizing pre with
  | nil => exact .nil
  | cons h hs ih =>
    have hrest : m.live = (pre ++ [h]) ++ hs := by simpa using hlive
    refine pairwise_cons.2 ⟨fun d hd => ?_, ih hrest⟩
    obtain ⟨as, bs, rfl⟩ := append_of_mem hd
    have hlive' : m.live = (pre ++ h :: as) ++ d :: bs := by simpa using hlive
    have hh := hl.pos (show h ∈ m.live by simp [hlive])
    have hd := hl.pos (show d ∈ m.live by simp [hlive])
    refine ⟨_, _, _, _, hl.start?_split hlive, hl.last?_split hlive, hl.start?_split hlive', hl.last?_split hlive', ?_⟩
    simp only [span_append, span_cons]
    omega

/-! ### The block of a span -/

omit hl in
lemma filter_eq_dropWhile (h : hs.Pairwise fun x y => p x = true → p y = true) :
    hs.filter p = hs.dropWhile fun x => !p x := by
  induction h with
  | nil => rfl
  | @cons x hs hx _ ih =>
    by_cases hp : p x = true
    · have hall : ∀ y ∈ hs, p y = true := fun y hy => hx y hy hp
      simpa [hp] using hall
    · simp [hp, ih]

omit hl in
lemma filter_eq_takeWhile (h : hs.Pairwise fun x y => p y = true → p x = true) : hs.filter p = hs.takeWhile p := by
  induction h with
  | nil => rfl
  | @cons x hs hx _ ih =>
    by_cases hp : p x = true
    · simp [hp, ih]
    · have hnone : ∀ y ∈ hs, ¬ p y = true := fun y hy => mt (hx y hy) hp
      simpa [hp] using hnone

omit hl in
lemma filter_none {l : List Handle} (h : ∀ x ∈ l, p x = false) : l.filter p = [] ∧ l.filter (fun x => !p x) = l :=
  ⟨filter_eq_nil_iff.2 fun x hx => by simp [h x hx], filter_eq_self.2 fun x hx => by simp [h x hx]⟩

/-- The search finds what lies in the span, and nothing around it does. -/
lemma Laid.parts (start stop : Nat) : ∃ pre post, m.live = pre ++ (m.inside start stop ++ post) ∧
      m.outside start stop = pre ++ post ∧
      m.block start stop = (pre.length, pre.length + (m.inside start stop).length) := by
  have hinside : m.inside start stop =
      (m.live.dropWhile fun h => !(m.start? h).any (start ≤ ·)).takeWhile fun h => (m.last? h).any (· ≤ stop) := by
    rw [← filter_eq_dropWhile ((hl.pairwise (nil_append _).symm).imp ?_),
      ← filter_eq_takeWhile (((hl.pairwise (nil_append _).symm).imp ?_).filter _), filter_filter]
    · exact congrArg (filter · m.live) (funext fun h => Bool.and_comm _ _)
    · rintro h d ⟨a, b, c, e, ha, hb, hc, he, hac, hbe⟩
      simp only [hb, he, Option.any_some, decide_eq_true_eq]
      omega
    · rintro h d ⟨a, b, c, e, ha, hb, hc, he, hac, hbe⟩
      simp only [ha, hc, Option.any_some, decide_eq_true_eq]
      omega
  have hbegin : m.spanBegin start = m.live.findIdx fun h => (m.start? h).any (start ≤ ·) := by
    have hmap := congrArg (findIdx fun o : Option Nat => o.any (start ≤ ·)) hl.map_start?
    rw [findIdx_map, findIdx_map] at hmap
    rw [spanBegin, ← @Array.toArray_toList _ m.starts, findIdx_toArray]
    exact hmap.symm
  have hdrop : m.live.dropWhile (fun h => !(m.start? h).any (start ≤ ·)) = m.live.drop (m.spanBegin start) := by
    rw [hbegin, dropWhile_eq_drop_findIdx_not]
    simp only [Bool.not_not]
  obtain ⟨post, hpost⟩ : ∃ post, m.inside start stop ++ post = m.live.drop (m.spanBegin start) :=
    ⟨_, by rw [hinside, takeWhile_append_dropWhile, hdrop]⟩
  -- the filter keeps the block, so it keeps nothing else
  have houtside : ∀ pre, m.live = pre ++ (m.inside start stop ++ post) → m.outside start stop = pre ++ post := by
    intro pre hlive
    have hlength := congrArg (fun l => (l.filter (m.lies start stop)).length) hlive
    simp only [filter_append, length_append] at hlength
    rw [show (m.inside start stop).filter (m.lies start stop) = m.inside start stop by simp [inside], inside] at hlength
    have hnone : ∀ l : List Handle, (l.filter (m.lies start stop)).length = 0 → l.filter (fun h => !m.lies start stop h) = l :=
      fun l hnil => by simpa [filter_eq_nil_iff] using length_eq_zero_iff.1 hnil
    rw [outside, hlive, filter_append, filter_append, hnone _ (by omega), hnone post (by omega)]
    simp [inside]
  have hlive : m.live = m.live.take (m.spanBegin start) ++ (m.inside start stop ++ post) := by
    rw [hpost, take_append_drop]
  refine ⟨_, post, hlive, houtside _ hlive, ?_⟩
  have hle : m.spanBegin start ≤ m.live.length := by
    rw [hbegin]
    exact findIdx_le_length
  rw [block, length_take_of_le hle, spanEnd, Array.toList_extract, extract_eq_drop_take']
  change (_, _ + ((m.live.take m.live.length).drop _ |>.takeWhile _).length) = _
  rw [take_length, ← hdrop, hinside]
  refine congrArg (fun p => (_, _ + (takeWhile p _).length)) (funext fun h => ?_)
  cases m.last? h <;> rfl

/-- The instructions of a block of the list lie where its bytes are, and the others do not. -/
lemma Laid.inside_block (hs : m.live = pre ++ (mid ++ post)) (hne : mid ≠ []) :
    m.inside (span m.arena pre) (span m.arena pre + span m.arena mid - 1) = mid ∧
      m.outside (span m.arena pre) (span m.arena pre + span m.arena mid - 1) = pre ++ post := by
  obtain ⟨x, mid, rfl⟩ := exists_cons_of_ne_nil hne
  have hx := hl.pos (show x ∈ m.live by simp [hs])
  have hbefore := hl.not_lies hs (span m.arena pre + span m.arena (x :: mid) - 1)
  have hlies : ∀ {as h bs}, m.live = as ++ h :: bs → (m.lies (span m.arena pre)
      (span m.arena pre + span m.arena (x :: mid) - 1) h = true ↔ _) := fun hsplit => hl.lies_split hsplit
  rw [inside, outside, hs]
  generalize m.lies (span m.arena pre) (span m.arena pre + span m.arena (x :: mid) - 1) = p at hbefore hlies
  have hin : ∀ h ∈ x :: mid, p h = true := fun h hm => by
    obtain ⟨as, bs, hsplit⟩ := append_of_mem hm
    rw [hlies (show m.live = (pre ++ as) ++ h :: (bs ++ post) by rw [hs, hsplit]; simp), hsplit]
    simp only [span_append, span_cons]
    omega
  have hafter : ∀ h ∈ post, p h = false := fun h hm => by
    obtain ⟨as, bs, rfl⟩ := append_of_mem hm
    have hh := hl.pos (show h ∈ m.live by simp [hs])
    rw [← Bool.not_eq_true, hlies (show m.live = (pre ++ (x :: mid ++ as)) ++ h :: bs by rw [hs]; simp)]
    simp only [span_append, span_cons]
    omega
  have hall : (x :: mid).filter (fun h => !p h) = [] := filter_eq_nil_iff.2 fun h hm => by simp [hin h hm]
  simp only [filter_append, filter_none hbefore, filter_none hafter, filter_eq_self.2 hin, hall, nil_append,
    append_nil, and_self]

/-! ### Operations -/

omit hl in
lemma extract_block (hs : m.live = pre ++ (mid ++ post)) : (m.order.extract 0 pre.length).toList = pre ∧
      (m.order.extract pre.length (pre.length + mid.length)).toList = mid ∧
      (m.order.extract (pre.length + mid.length) m.order.size).toList = post := by
  have hextract : ∀ i j, (m.order.extract i j).toList = (m.live.take j).drop i := fun i j => by
    rw [Array.toList_extract, extract_eq_drop_take']
    rfl
  have hsize : m.order.size = (pre ++ (mid ++ post)).length := by
    rw [← hs]
    rfl
  simp only [hextract, hs, hsize]
  simp [take_append, drop_append]

lemma Laid.inSpan_eq (start stop : Nat) : m.inSpan start stop = m.inside start stop := by
  obtain ⟨pre, post, hs, -, hblock⟩ := hl.parts start stop
  simp only [inSpan, hblock]
  exact (extract_block hs).2.1

omit hl in
/-- What forgetting some instructions leaves. -/
lemma forgets (hs : List Handle) (m : CodeMap) : ∃ positions withTarget,
      hs.foldl forget m = { m with positions, withTarget } ∧ positions.size = m.positions.size ∧
      (∀ x, positions[x]?.join = if x ∈ hs then none else m.position? x) ∧
      ∀ x, x ∈ withTarget ↔ x ∈ m.withTarget ∧ x ∉ hs := by
  induction hs generalizing m with
  | nil => exact ⟨_, _, rfl, rfl, fun x => rfl, by simp⟩
  | cons h hs ih =>
    obtain ⟨positions, withTarget, heq, hsize, hposition, hmem⟩ := ih (m.forget h)
    refine ⟨positions, withTarget, heq, by simpa [forget] using hsize, fun x => ?_, fun x => ?_⟩
    · rw [hposition, position?, forget, Array.getElem?_setIfInBounds, position?]
      grind
    · rw [hmem, forget, Std.ExtTreeSet.mem_erase, Ne, Nat.compare_eq_eq, mem_cons]
      grind

/-- Places in front of a block do not depend on what comes behind it. -/
lemma Laid.position?_front (hs : m.live = pre ++ rest) (rest' : List Handle) {x : Handle} (hx : x ∈ pre) :
    m.position? x = (pre ++ rest').idxOf? x := by
  rw [hl.position, hs, idxOf?_append, idxOf?_append]
  cases hi : pre.idxOf? x with
  | none => exact absurd hx (idxOf?_eq_none_iff.1 hi)
  | some i => rfl

lemma Laid.starts_front (hs : m.live = pre ++ rest) : ∃ after, m.starts.toList = startsFrom m.arena 0 pre ++ after := by
  rw [hl.starts, hs, startsFrom_append]
  exact ⟨_, rfl⟩

lemma Laid.removed_eq (hs : m.live = pre ++ (mid ++ post)) :
    (mid.foldl forget { m with order := (pre ++ post).toArray }).reflow pre.length =
      layOut m.arena (pre ++ post).toArray := by
  obtain ⟨positions, withTarget, heq, hsize, hposition, hmem⟩ := forgets mid { m with order := (pre ++ post).toArray }
  obtain ⟨after, hafter⟩ := hl.starts_front hs
  have hnd := hl.nodup
  rw [hs] at hnd
  have hkept : ∀ x, x ∈ pre ++ post ↔ x ∈ m.live ∧ x ∉ mid := by
    rw [hs]
    grind
  rw [heq]
  refine Ordered.reflow_eq (m := { m with order := (pre ++ post).toArray, positions, withTarget }) ⟨?_, ?_, ?_, ?_⟩ rfl
    hafter ?_
  · exact hsize.trans hl.positions
  · exact hnd.sublist (sublist_append_right mid post |>.append_left pre)
  · exact fun x hx => hl.bound x ((hkept x).1 hx).1
  · intro x
    rw [hmem, hl.targets]
    exact and_right_comm.trans (and_congr_left' (hkept x).symm)
  · intro x hx
    change positions[x]?.join = (pre ++ post).idxOf? x
    rw [hposition]
    by_cases hpre : x ∈ pre
    · rw [if_neg ((hkept x).1 (mem_append_left _ hpre)).2]
      exact hl.position?_front hs post hpre
    · have hout : x ∉ pre ++ post := fun h => hpre (hx h)
      rw [idxOf?_eq_none_iff.2 hout]
      split_ifs with hm
      · rfl
      · exact (hl.position x).trans (idxOf?_eq_none_iff.2 fun h => hout ((hkept x).2 ⟨h, hm⟩))

lemma Laid.relocated_eq (hs : m.live = pre ++ (mid ++ post)) :
    { m with order := (pre ++ (post ++ mid)).toArray }.reflow pre.length = layOut m.arena (pre ++ (post ++ mid)).toArray := by
  obtain ⟨after, hafter⟩ := hl.starts_front hs
  have hperm : (pre ++ (post ++ mid)).Perm m.live := hs ▸ (perm_append_comm.append_left pre)
  refine Ordered.reflow_eq (m := { m with order := (pre ++ (post ++ mid)).toArray }) ⟨hl.positions, ?_, ?_, ?_⟩ rfl
    hafter fun x hx => ?_
  · exact hperm.nodup_iff.2 hl.nodup
  · exact fun x hx => hl.bound x (hperm.mem_iff.1 hx)
  · exact fun x => (hl.targets x).trans (and_congr_left' hperm.mem_iff.symm)
  · change m.position? x = (pre ++ (post ++ mid)).idxOf? x
    by_cases hpre : x ∈ pre
    · exact hl.position?_front hs _ hpre
    · have hout : x ∉ pre ++ (post ++ mid) := fun h => hpre (hx h)
      rw [hl.position, idxOf?_eq_none_iff.2 hout, idxOf?_eq_none_iff.2 fun h => hout (hperm.mem_iff.2 h)]

lemma Laid.removeSpan_eq (start stop : Nat) : m.removeSpan start stop =
      (if m.inside start stop = [] then m else layOut m.arena (m.outside start stop).toArray, m.inside start stop) := by
  obtain ⟨pre, post, hs, hout, hblock⟩ := hl.parts start stop
  obtain ⟨hpre, hmid, hpost⟩ := extract_block hs
  simp only [CodeMap.removeSpan, hblock, hmid]
  by_cases hnil : m.inside start stop = []
  · simp [hnil]
  · have hlen := length_pos_iff.2 hnil
    have horder : m.order.extract 0 pre.length ++ m.order.extract (pre.length + (m.inside start stop).length) m.order.size =
        (pre ++ post).toArray := by
      refine Array.toList_inj.1 ?_
      rw [Array.toList_append, hpre, hpost]
    rw [if_neg (by omega), if_neg hnil, horder, hl.removed_eq hs, hout]

omit hl in
/-- Where nothing lies in the span, everything is outside. -/
lemma outside_of_nil (h : m.inside start stop = []) : m.outside start stop = m.live := by
  simpa [inside, outside, filter_eq_nil_iff] using h

lemma Laid.removeSpan (start stop : Nat) :
    (m.removeSpan start stop).1.Laid ∧ (m.removeSpan start stop).1.live = m.outside start stop := by
  rw [hl.removeSpan_eq]
  dsimp only
  split_ifs with hnil
  · exact ⟨hl, (outside_of_nil hnil).symm⟩
  · exact ⟨laid_layOut (hl.nodup.filter _) fun h hm => hl.bound h (mem_filter.1 hm).1, rfl⟩

/-- Taking a block out of a map. -/
lemma Laid.removeSpan_block (hs : m.live = pre ++ (mid ++ post)) (hne : mid ≠ []) :
    m.removeSpan (span m.arena pre) (span m.arena pre + span m.arena mid - 1)
      = (layOut m.arena (pre ++ post).toArray, mid) := by
  obtain ⟨hin, hout⟩ := hl.inside_block hs hne
  rw [hl.removeSpan_eq, hin, hout, if_neg hne]

lemma Laid.truncate_split (hs : m.live = pre ++ rest) :
    (m.truncate (span m.arena pre)).2 = rest ∧ (m.truncate (span m.arena pre)).1.live = pre ∧
      (m.truncate (span m.arena pre)).1.arena = m.arena ∧ (m.truncate (span m.arena pre)).1.Laid := by
  have hsize : m.size = span m.arena pre + span m.arena rest := by rw [hl.size, hs, span_append]
  cases rest with
  | nil =>
    rw [CodeMap.truncate, if_pos (by rw [hsize]; simp)]
    exact ⟨rfl, by rw [hs, append_nil], rfl, hl⟩
  | cons h rest =>
    have hpos := hl.pos (show h ∈ m.live by simp [hs])
    have hs' : m.live = pre ++ ((h :: rest) ++ []) := by rw [hs, append_nil]
    have hlaid := (hl.removeSpan (span m.arena pre) (span m.arena pre + span m.arena (h :: rest) - 1)).1
    rw [hl.removeSpan_block hs' (by simp)] at hlaid
    rw [CodeMap.truncate, if_neg (by rw [hsize, span_cons]; omega), hsize, hl.removeSpan_block hs' (by simp)]
    exact ⟨rfl, by simp, rfl, hlaid⟩

omit hl in
lemma arena_removeSpan (m : CodeMap) (start stop : Nat) : (m.removeSpan start stop).1.arena = m.arena := by
  rw [CodeMap.removeSpan]
  dsimp only
  split
  · rfl
  · obtain ⟨positions, withTarget, heq, -⟩ := forgets (m.order.extract (m.block start stop).1 (m.block start stop).2).toList
      { m with order := _ }
    rw [arena_reflow, heq]

omit hl in
lemma arena_relocate (m : CodeMap) (start stop : Nat) : (m.relocate start stop).1.arena = m.arena := by
  rw [relocate]
  dsimp only
  split
  · rfl
  · rw [arena_reflow]

omit hl in
lemma perm_inside (m : CodeMap) (start stop : Nat) : (m.outside start stop ++ m.inside start stop).Perm m.live :=
  perm_append_comm.trans (filter_append_perm _ _)

lemma Laid.moved (start stop : Nat) : (layOut m.arena (m.outside start stop ++ m.inside start stop).toArray).Laid :=
  laid_layOut ((m.perm_inside start stop).nodup_iff.2 hl.nodup) fun h hm => hl.bound h ((m.perm_inside start stop).mem_iff.1 hm)

lemma Laid.relocate_eq (start stop : Nat) : m.relocate start stop =
      if m.inside start stop = [] then (m, none)
      else (layOut m.arena (m.outside start stop ++ m.inside start stop).toArray,
        some (span m.arena (m.outside start stop))) := by
  obtain ⟨pre, post, hs, hout, hblock⟩ := hl.parts start stop
  obtain ⟨hpre, hmid, hpost⟩ := extract_block hs
  simp only [CodeMap.relocate, hblock]
  split_ifs with hle hnil hnil
  · rfl
  · exact absurd hle (by simpa [length_pos_iff] using hnil)
  · exact absurd hnil fun h => hle (by simp [h])
  · obtain ⟨h, mid, hcons⟩ := exists_cons_of_ne_nil hnil
    have hlive : m.order.extract 0 pre.length ++ m.order.extract (pre.length + (m.inside start stop).length) m.order.size ++
        m.order.extract pre.length (pre.length + (m.inside start stop).length) =
        (pre ++ (post ++ m.inside start stop)).toArray := by
      refine Array.toList_inj.1 ?_
      rw [Array.toList_append, Array.toList_append, hpre, hmid, hpost, append_assoc]
    have hfirst : (m.order.extract pre.length (pre.length + (m.inside start stop).length))[0]? = some h := by
      rw [← Array.getElem?_toList, hmid, hcons]
      rfl
    rw [hlive, hfirst, hl.relocated_eq hs, ← append_assoc, ← hout]
    exact Prod.ext rfl ((hl.moved start stop).start?_split (congrArg _ hcons))

lemma Laid.relocate (start stop : Nat) : (m.relocate start stop).1.Laid ∧
      (m.relocate start stop).1.live = m.outside start stop ++ m.inside start stop := by
  rw [hl.relocate_eq]
  split_ifs with hnil
  · exact ⟨hl, by rw [outside_of_nil hnil, hnil, append_nil]⟩
  · exact ⟨hl.moved start stop, rfl⟩

/-- A block that ends where one of its instructions ends. -/
lemma Laid.relocate_block (hs : m.live = pre ++ (mid ++ post)) (hne : mid ≠ []) :
    (m.relocate (span m.arena pre) (span m.arena pre + span m.arena mid - 1)).1.live = pre ++ post ++ mid := by
  obtain ⟨hin, hout⟩ := hl.inside_block hs hne
  rw [(hl.relocate _ _).2, hin, hout]

/-- What stands in front of the span stays there. -/
lemma Laid.relocate_split (hs : m.live = pre ++ rest) (stop : Nat) : ∃ moved, moved.Perm rest ∧
      (m.relocate (span m.arena pre) stop).1.live = pre ++ moved ∧ (m.relocate (span m.arena pre) stop).1.Laid := by
  obtain ⟨hlaid, hlive⟩ := hl.relocate (span m.arena pre) stop
  obtain ⟨hnone, hall⟩ := filter_none (hl.not_lies hs stop)
  rw [outside, inside, hs, filter_append, filter_append, hnone, hall, nil_append, append_assoc] at hlive
  exact ⟨_, perm_append_comm.trans (filter_append_perm _ _), hlive, hlaid⟩

/-! ### Look-up by address -/

omit hl in
lemma exists_covering (ha : a < span m.arena hs) : ∃ pre h post, hs = pre ++ h :: post ∧
      span m.arena pre ≤ a ∧ a < span m.arena pre + sizeOf m.arena h := by
  induction hs generalizing a with
  | nil => simp at ha
  | cons h hs ih =>
    by_cases hlt : a < sizeOf m.arena h
    · exact ⟨[], h, hs, rfl, Nat.zero_le _, by simpa using hlt⟩
    · rw [span_cons] at ha
      obtain ⟨pre, d, post, rfl, hle, hlt'⟩ := ih (a := a - sizeOf m.arena h) (by omega)
      exact ⟨h :: pre, d, post, rfl, by rw [span_cons]; omega, by rw [span_cons]; omega⟩

lemma Laid.start?_eq_some (ha : m.start? h = some a) : ∃ pre post, m.live = pre ++ h :: post ∧ span m.arena pre = a := by
  obtain ⟨pre, post, hs⟩ := append_of_mem (hl.start?_isSome_iff.1 (by rw [ha]; rfl))
  exact ⟨pre, post, hs, Option.some.inj ((hl.start?_split hs).symm.trans ha)⟩

lemma Laid.covering?_eq_some : m.covering? a = some h ↔ ∃ b c, m.start? h = some b ∧ m.last? h = some c ∧ b ≤ a ∧ a ≤ c := by
  constructor
  · intro hcov
    have hlt : a < span m.arena m.live := by
      rw [← hl.size]
      by_contra hle
      rw [covering?, if_pos (Nat.le_of_not_lt hle)] at hcov
      cases hcov
    obtain ⟨pre, d, post, hs, hle, hlt⟩ := exists_covering hlt
    obtain rfl := Option.some.inj (hcov.symm.trans (hl.covering?_inside hs hle hlt))
    exact ⟨_, _, hl.start?_split hs, hl.last?_split hs, hle, by omega⟩
  · rintro ⟨b, c, hb, hc, hle, hle'⟩
    obtain ⟨pre, post, hs, rfl⟩ := hl.start?_eq_some hb
    rw [hl.last?_split hs, Option.some.injEq] at hc
    have := hl.pos (show h ∈ m.live by simp [hs])
    exact hl.covering?_inside hs hle (by omega)

lemma Laid.atStart?_eq_some : m.atStart? a = some h ↔ m.start? h = some a := by
  constructor
  · intro hat
    obtain ⟨k, hk, hget⟩ := Option.bind_eq_some_iff.1 hat
    obtain ⟨hlt, heq, -⟩ := Array.findIdx?_eq_some_iff_getElem.1 hk
    have hmap := congrArg (·[k]?) hl.map_start?
    rw [← Array.getElem?_toList] at hget
    simp only [getElem?_map, live, hget, Option.map_some, Array.getElem?_toList, Array.getElem?_eq_getElem hlt] at hmap
    simpa [beq_iff_eq.1 heq] using hmap
  · intro ha
    obtain ⟨pre, post, hs, rfl⟩ := hl.start?_eq_some ha
    exact hl.atStart?_split hs

lemma Laid.prev?_split (hs : m.live = pre ++ h :: post) : m.prev? h = pre.getLast? := by
  rw [prev?, hl.position?_split hs]
  rcases eq_nil_or_concat pre with rfl | ⟨pre, d, rfl⟩
  · rfl
  · rw [concat_eq_append] at hs ⊢
    rw [length_append, length_singleton, getLast?_concat]
    dsimp only
    rw [← Array.getElem?_toList]
    change m.live[pre.length]? = _
    simp [hs]

/-- The next instruction is the one behind in the list. -/
lemma Laid.next?_eq_some : m.next? h = some d ↔ ∃ pre post, m.live = pre ++ h :: d :: post := by
  constructor
  · intro hn
    obtain ⟨k, hk, -⟩ := Option.bind_eq_some_iff.1 hn
    obtain ⟨pre, post, hs⟩ := append_of_mem (hl.contains_iff.1 (by rw [contains, hk]; rfl))
    rw [hl.next?_split hs, head?_eq_some_iff] at hn
    obtain ⟨post', rfl⟩ := hn
    exact ⟨pre, post', hs⟩
  · rintro ⟨pre, post, hs⟩
    exact hl.next?_split hs

lemma Laid.prev?_eq_some : m.prev? d = some h ↔ m.next? h = some d := by
  rw [hl.next?_eq_some]
  constructor
  · intro hp
    have hm : d ∈ m.live := hl.contains_iff.1 (by
      unfold prev? at hp
      split at hp
      · next k hk => rw [contains, hk]; rfl
      · cases hp)
    obtain ⟨pre, post, hs⟩ := append_of_mem hm
    rw [hl.prev?_split hs, getLast?_eq_some_iff] at hp
    obtain ⟨pre', rfl⟩ := hp
    exact ⟨pre', post, by simpa using hs⟩
  · rintro ⟨pre, post, hs⟩
    rw [hl.prev?_split (show m.live = (pre ++ [h]) ++ d :: post by simpa using hs), getLast?_concat]

/-- The next instruction starts where the one before it ends. -/
lemma Laid.next?_eq_some_iff_start? : m.next? h = some d ↔ ∃ c, m.last? h = some c ∧ m.start? d = some (c + 1) := by
  rw [hl.next?_eq_some]
  constructor
  · rintro ⟨pre, post, hs⟩
    have := hl.pos (show h ∈ m.live by simp [hs])
    refine ⟨_, hl.last?_split hs, ?_⟩
    rw [hl.start?_split (show m.live = (pre ++ [h]) ++ d :: post by simpa using hs), Option.some.injEq]
    simp only [span_append, span_cons, span_nil]
    omega
  · rintro ⟨c, hc, hd⟩
    obtain ⟨b, hb, -⟩ := Option.map_eq_some_iff.1 hc
    obtain ⟨pre, post, hs, rfl⟩ := hl.start?_eq_some hb
    have := hl.pos (show h ∈ m.live by simp [hs])
    rw [hl.last?_split hs, Option.some.injEq] at hc
    cases post with
    | nil =>
      have hend : c + 1 = m.size := by
        rw [hl.size, hs, span_append, span_cons, span_nil]
        omega
      rw [← hl.atStart?_eq_some, hend, hl.atStart?_size] at hd
      cases hd
    | cons d' post =>
      have hd' := hl.start?_split (show m.live = (pre ++ [h]) ++ d' :: post by simpa using hs)
      rw [show span m.arena (pre ++ [h]) = c + 1 by rw [span_append, span_cons, span_nil]; omega] at hd'
      exact ⟨pre, post, hl.start?_inj hd' hd ▸ hs⟩

/-! ### Truncation -/

/-- Truncation takes what starts at the address or behind it. -/
lemma Laid.truncate_eq (a : Nat) : m.truncate a = m.removeSpan a (m.size - 1) ∧
      ∀ h ∈ m.live, m.lies a (m.size - 1) h = (m.start? h).any (a ≤ ·) := by
  have hlies : ∀ h ∈ m.live, m.lies a (m.size - 1) h = (m.start? h).any (a ≤ ·) := fun h hm => by
    obtain ⟨pre, post, hs⟩ := append_of_mem hm
    have hsize := hl.size
    rw [hs, span_append, span_cons] at hsize
    rw [lies, hl.last?_split hs, Option.any_some, decide_eq_true (by omega), Bool.and_true]
  refine ⟨?_, hlies⟩
  rw [CodeMap.truncate, hl.removeSpan_eq]
  split_ifs with hle hnil hnil
  · rw [hnil]
  · refine absurd (filter_eq_nil_iff.2 fun h hm => ?_) hnil
    obtain ⟨pre, post, hs⟩ := append_of_mem hm
    have hsize := hl.size
    have hpos := hl.pos hm
    rw [hs, span_append, span_cons] at hsize
    rw [hl.lies_split hs]
    omega
  · rfl
  · rfl

end

/-- **Spans and addresses.** On a laid out map the instructions in a span are those of the list that lie in it. Removing a
span gives them back and leaves the others in order, truncation does so for what starts at the address or behind it, and
relocation puts them behind the others and says where they start. An address finds the one live instruction that has a
byte there, or that starts there; the next instruction is the one that starts where the last byte was, and the previous
one is the one to which an instruction is the next. -/
theorem Laid.spans_and_addresses (hl : m.Laid) (start stop a : Nat) :
    let inside := m.live.filter (m.lies start stop)
    let outside := m.live.filter fun h => !m.lies start stop h
    m.inSpan start stop = inside ∧
    ((m.removeSpan start stop).2 = inside ∧ (m.removeSpan start stop).1.live = outside ∧
      (m.removeSpan start stop).1.arena = m.arena ∧ (m.removeSpan start stop).1.Laid) ∧
    ((m.truncate a).2 = m.live.filter (fun h => (m.start? h).any (a ≤ ·)) ∧
      (m.truncate a).1.live = m.live.filter (fun h => !(m.start? h).any (a ≤ ·)) ∧
      (m.truncate a).1.arena = m.arena ∧ (m.truncate a).1.Laid) ∧
    ((m.relocate start stop).1.live = outside ++ inside ∧ (m.relocate start stop).1.size = m.size ∧
      (m.relocate start stop).1.arena = m.arena ∧ (m.relocate start stop).1.Laid ∧
      (m.relocate start stop).2 = inside.head?.bind (m.relocate start stop).1.start? ∧
      ((m.relocate start stop).2 = none ↔ inside = []) ∧ (inside = [] → (m.relocate start stop).1 = m)) ∧
    (∀ h ∈ m.live, ∃ b, m.start? h = some b ∧ m.last? h = some (b + sizeOf m.arena h - 1) ∧ 0 < sizeOf m.arena h ∧
      b + sizeOf m.arena h ≤ m.size) ∧
    (∀ h ∉ m.live, m.start? h = none ∧ m.last? h = none) ∧
    (∀ h, m.covering? a = some h ↔ ∃ b c, m.start? h = some b ∧ m.last? h = some c ∧ b ≤ a ∧ a ≤ c) ∧
    (∀ h, m.atStart? a = some h ↔ m.start? h = some a) ∧
    (∀ h d, m.next? h = some d ↔ ∃ c, m.last? h = some c ∧ m.start? d = some (c + 1)) ∧
    ∀ h d, m.prev? d = some h ↔ m.next? h = some d := by
  intro inside outside
  obtain ⟨hlaid, hlive⟩ := hl.removeSpan start stop
  obtain ⟨htruncate, hlies⟩ := hl.truncate_eq a
  obtain ⟨hlaid1, hlive1⟩ := hl.removeSpan a (m.size - 1)
  obtain ⟨hlaid2, hlive2⟩ := hl.relocate start stop
  refine ⟨hl.inSpan_eq start stop, ⟨by rw [hl.removeSpan_eq]; rfl, hlive, arena_removeSpan .., hlaid⟩,
    ⟨?_, ?_, ?_, ?_⟩, ⟨hlive2, ?_, arena_relocate .., hlaid2, ?_, ?_, ?_⟩, fun h hm => ?_,
    fun h hn => ⟨hl.start?_eq_none hn, by rw [last?, hl.start?_eq_none hn]; rfl⟩, fun h => hl.covering?_eq_some,
    fun h => hl.atStart?_eq_some, fun h d => hl.next?_eq_some_iff_start?, fun h d => hl.prev?_eq_some⟩
  · rw [htruncate, hl.removeSpan_eq]
    exact filter_congr hlies
  · rw [htruncate, hlive1]
    exact filter_congr fun h hm => by rw [hlies h hm]
  · rw [htruncate, arena_removeSpan]
  · rwa [htruncate]
  · obtain ⟨pre, post, hs, hout, -⟩ := hl.parts start stop
    rw [hlaid2.size, arena_relocate, hlive2, hl.size, hout, hs]
    simp only [span_append]
    omega
  · change _ = (m.inside start stop).head?.bind _
    rw [hl.relocate_eq]
    split_ifs with hnil
    · rw [hnil]
      rfl
    · obtain ⟨h, mid, hcons⟩ := exists_cons_of_ne_nil hnil
      rw [show (m.inside start stop).head? = some h by rw [hcons]; rfl]
      exact ((hl.moved start stop).start?_split (congrArg _ hcons)).symm
  · rw [hl.relocate_eq]
    split_ifs with hnil
    · exact iff_of_true rfl hnil
    · exact iff_of_false (by simp) hnil
  · intro hnil
    rw [hl.relocate_eq, if_pos (show m.inside start stop = [] from hnil)]
  · obtain ⟨pre, post, hs⟩ := append_of_mem hm
    refine ⟨_, hl.start?_split hs, hl.last?_split hs, hl.pos hm, ?_⟩
    rw [hl.size, hs, span_append, span_cons]
    omega

/-- Three instructions of one, two and one byte. -/
def nopJumpRet : CodeMap :=
  ((({} : CodeMap).insert { opcode := .nop }).insert { opcode := .jump .always false }).insert { opcode := .ret }

theorem spans_and_addresses_three : nopJumpRet.size = 4 ∧ nopJumpRet.inSpan 1 3 = [1, 2] ∧ nopJumpRet.inSpan 2 3 = [2] ∧
      (nopJumpRet.truncate 2).1.live = [0, 1] ∧ (nopJumpRet.relocate 0 1).1.live = [1, 2, 0] ∧
      nopJumpRet.covering? 2 = some 1 := by
  have hl : nopJumpRet.Laid := ((laid_empty.insert _).insert _).insert _
  obtain ⟨hspan, -⟩ := hl.spans_and_addresses 1 3 0
  obtain ⟨hspan', -, ⟨-, htruncate, -⟩, -⟩ := hl.spans_and_addresses 2 3 2
  obtain ⟨-, -, -, ⟨hrelocate, -⟩, -, -, hcovering, -⟩ := hl.spans_and_addresses 0 1 2
  exact ⟨rfl, hspan.trans (by decide), hspan'.trans (by decide), htruncate.trans (by decide), hrelocate.trans (by decide),
    (hcovering 1).2 ⟨1, 2, by decide⟩⟩

end NeoScript.CodeMap
