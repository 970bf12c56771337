import NeoScript.CodeMap.Reachability
import NeoScript.Proofs.CodeMap.Span

/-!
# Dead spans

The scan for dead code keeps one span open while it passes instructions outside the kept set. What it has found at an
instruction is `Carved` from the code in front of it, which is described by whole blocks: a kept instruction adds
nothing, and a block of dead ones behind a kept one adds its span.
-/

namespace NeoScript.CodeMap

open List

variable {keep : Std.HashSet Handle} {m : CodeMap} {arena : Array Instruction} {hs pre mid : List Handle} {h : Handle}
  {spans : List (Nat × Nat)} {r : Nat × Nat} {acc : List (Nat × Nat) × Option (Nat × Nat)}

/-- The last instruction is one to keep, if there is any. -/
def EndsKept (keep : Std.HashSet Handle) (hs : List Handle) : Prop := ∀ h, hs.getLast? = some h → keep.contains h = true

/-- The spans of the blocks outside `keep`, the latest first. -/
inductive Carved (keep : Std.HashSet Handle) (arena : Array Instruction) : List Handle → List (Nat × Nat) → Prop
  | nil : Carved keep arena [] []
  | kept {hs : List Handle} {spans : List (Nat × Nat)} {h : Handle} (hc : Carved keep arena hs spans)
      (hk : keep.contains h = true) : Carved keep arena (hs ++ [h]) spans
  | dead {pre mid : List Handle} {spans : List (Nat × Nat)} (hc : Carved keep arena pre spans) (hpre : EndsKept keep pre)
      (hne : mid ≠ []) (hmid : ∀ h ∈ mid, keep.contains h = false) :
      Carved keep arena (pre ++ mid) ((span arena pre, span arena pre + span arena mid - 1) :: spans)

/-! ### The scan -/

/-- What the scan has found in the code `hs`: spans, and the span that it ends with if its end is dead. -/
def Found (keep : Std.HashSet Handle) (arena : Array Instruction) (hs : List Handle) :
    List (Nat × Nat) × Option (Nat × Nat) → Prop
  | (done, none) => Carved keep arena hs done ∧ EndsKept keep hs
  | (done, some last) => ∃ pre mid, hs = pre ++ mid ∧ mid ≠ [] ∧ (∀ h ∈ mid, keep.contains h = false) ∧
      last = (span arena pre, span arena pre + span arena mid - 1) ∧ Carved keep arena pre done ∧ EndsKept keep pre

lemma Found.carved (hf : Found keep arena hs acc) : Carved keep arena hs (acc.2.toList ++ acc.1) := by
  obtain ⟨done, _ | last⟩ := acc
  · exact hf.1
  · obtain ⟨pre, mid, rfl, hne, hmid, rfl, hc, hpre⟩ := hf
    exact hc.dead hpre hne hmid

lemma Found.step {rest : List Handle} {i : Instruction} (hl : m.Laid) (hs : m.live = pre ++ h :: rest)
    (hf : Found keep m.arena pre acc) :
    Found keep m.arena (pre ++ [h]) (m.deadStep keep acc (span m.arena pre, h, i)) := by
  by_cases hk : keep.contains h = true
  · rw [deadStep, if_pos hk]
    refine ⟨hf.carved.kept hk, fun x hx => ?_⟩
    rw [getLast?_concat] at hx
    exact Option.some.inj hx ▸ hk
  · rw [deadStep, if_neg hk, hl.last?_split hs, Option.getD_some]
    rw [Bool.not_eq_true] at hk
    obtain ⟨done, _ | last⟩ := acc
    · exact ⟨pre, [h], rfl, cons_ne_nil h [], by simpa using hk, by simp, hf⟩
    · obtain ⟨front, mid, rfl, hne, hmid, rfl, hdone⟩ := hf
      refine ⟨front, mid ++ [h], append_assoc .., by simp, fun x hx => ?_, by simp [Nat.add_assoc], hdone⟩
      rcases mem_append.1 hx with hx | hx
      · exact hmid x hx
      · rwa [mem_singleton.1 hx]

lemma Found.run (rest : List Handle) (hl : m.Laid) (hs : m.live = pre ++ rest) (hf : Found keep m.arena pre acc) :
    Found keep m.arena (pre ++ rest) ((placed m.arena (span m.arena pre) rest).foldl (m.deadStep keep) acc) := by
  induction rest generalizing pre acc with
  | nil => simpa [placed] using hf
  | cons h rest ih =>
    obtain ⟨i, hi⟩ := hl.instruction?_isSome (h := h) (by simp [hs])
    have hs' : m.live = (pre ++ [h]) ++ rest := by simp [hs]
    have hstep := ih hs' (hf.step (i := i) hl hs)
    rw [span_append, span_cons, span_nil, Nat.add_zero, append_assoc] at hstep
    rwa [placed, show m.arena[h]? = some i from hi]

lemma Laid.carved_deadSpans (hl : m.Laid) : Carved keep m.arena m.live (m.deadSpans keep).reverse := by
  have hstart : Found keep m.arena [] ([], none) := ⟨.nil, nofun⟩
  rw [deadSpans, hl.instructions_eq, reverse_reverse]
  exact (hstart.run m.live hl rfl).carved

/-! ### The blocks -/

/-- The span `r` is that of a block `mid` of instructions outside `keep`. -/
def Blocks (keep : Std.HashSet Handle) (arena : Array Instruction) (hs : List Handle) (r : Nat × Nat)
    (mid : List Handle) : Prop :=
  ∃ pre post, hs = pre ++ (mid ++ post) ∧ mid ≠ [] ∧ (∀ h ∈ mid, keep.contains h = false) ∧
    r = (span arena pre, span arena pre + span arena mid - 1)

lemma Blocks.append (hb : Blocks keep arena hs r mid) (more : List Handle) : Blocks keep arena (hs ++ more) r mid := by
  obtain ⟨pre, post, rfl, hmid⟩ := hb
  exact ⟨pre, post ++ more, by simp, hmid⟩

/-- Every span is that of a block, and every dead instruction is in one. -/
lemma Carved.blocks (hc : Carved keep arena hs spans) : (∀ r ∈ spans, ∃ mid, Blocks keep arena hs r mid) ∧
    ∀ h ∈ hs, keep.contains h = false → ∃ r ∈ spans, ∃ mid, Blocks keep arena hs r mid ∧ h ∈ mid := by
  induction hc with
  | nil => simp
  | @kept hs spans h hc hk ih =>
    refine ⟨fun r hr => (ih.1 r hr).imp fun mid hb => hb.append [h], fun x hx hd => ?_⟩
    rcases mem_append.1 hx with hx | hx
    · obtain ⟨r, hr, mid, hb, hm⟩ := ih.2 x hx hd
      exact ⟨r, hr, mid, hb.append [h], hm⟩
    · rw [mem_singleton.1 hx, hk] at hd
      cases hd
  | @dead pre mid spans hc hpre hne hmid ih =>
    have hlast : Blocks keep arena (pre ++ mid) (span arena pre, span arena pre + span arena mid - 1) mid :=
      ⟨pre, [], by simp, hne, hmid, rfl⟩
    refine ⟨forall_mem_cons.2 ⟨⟨mid, hlast⟩, fun r hr => (ih.1 r hr).imp fun _ hb => hb.append mid⟩, fun x hx hd => ?_⟩
    rcases mem_append.1 hx with hx | hx
    · obtain ⟨r, hr, mid', hb, hm⟩ := ih.2 x hx hd
      exact ⟨r, mem_cons_of_mem _ hr, mid', hb.append mid, hm⟩
    · exact ⟨_, mem_cons_self, mid, hlast, hx⟩

/-- Between two spans there is a kept instruction. -/
lemma Carved.apart (hc : Carved keep arena hs spans) (hpos : ∀ h ∈ hs, 0 < sizeOf arena h) :
    spans.Pairwise fun r r' => r'.2 + 1 < r.1 := by
  induction hc with
  | nil => exact .nil
  | kept _ _ ih => exact ih fun x hx => hpos x (mem_append_left _ hx)
  | @dead pre mid spans hc hpre _ _ ih =>
    refine pairwise_cons.2 ⟨fun r hr => ?_, ih fun x hx => hpos x (mem_append_left _ hx)⟩
    obtain ⟨dead, front, back, rfl, hne, hdead, rfl⟩ := hc.blocks.1 r hr
    obtain ⟨x, dead, rfl⟩ := exists_cons_of_ne_nil hne
    have hx := hpos x (by simp)
    cases back with
    | nil =>
      rw [append_nil] at hpre
      have hlast := hpre _ (getLast?_append_of_ne_nil front hne)
      rw [hdead _ (getLast_mem _)] at hlast
      cases hlast
    | cons y back =>
      have hy := hpos y (by simp)
      simp only [span_append, span_cons]
      omega

section

variable (hl : m.Laid)

include hl

lemma Blocks.lies_iff (hb : Blocks keep m.arena m.live r mid) (hm : h ∈ m.live) : m.lies r.1 r.2 h = true ↔ h ∈ mid := by
  obtain ⟨pre, post, hs, hne, -, rfl⟩ := hb
  have hmem : h ∈ m.inside (span m.arena pre) (span m.arena pre + span m.arena mid - 1) ↔ h ∈ mid := by
    rw [(hl.inside_block hs hne).1]
  rwa [inside, mem_filter, and_iff_right hm] at hmem

lemma Blocks.ends (hb : Blocks keep m.arena m.live r mid) : r.1 ≤ r.2 ∧ ∃ first last, m.start? first = some r.1 ∧
    m.last? last = some r.2 := by
  obtain ⟨pre, post, hs, hne, -, rfl⟩ := hb
  obtain ⟨x, rest, hx⟩ := exists_cons_of_ne_nil hne
  obtain ⟨front, y, hy⟩ := (eq_nil_or_concat mid).resolve_left hne
  have hpos := hl.pos (h := x) (by simp [hs, hx])
  refine ⟨by simp only [hx, span_cons]; omega, x, y, hl.start?_split (by simpa [hx] using hs), ?_⟩
  rw [hl.last?_split (show m.live = (pre ++ front) ++ y :: post by simpa [hy] using hs)]
  simp [hy, Nat.add_assoc]

/-- **Dead spans are exact.** In a laid out map, for every set of instructions to keep, the spans come in the order of
their addresses and neither overlap nor touch. Each starts with the first byte of a live instruction and stops with the
last byte of one, the live instructions that lie in one of them are those not to keep, and an instruction right in front
of a span or right behind it is one to keep. -/
theorem Laid.deadSpans_exact (keep : Std.HashSet Handle) :
    (m.deadSpans keep).Pairwise (fun r r' => r.2 + 1 < r'.1) ∧
    (∀ r ∈ m.deadSpans keep, r.1 ≤ r.2 ∧ ∃ first last, m.start? first = some r.1 ∧ m.last? last = some r.2) ∧
    (∀ h ∈ m.live, (∃ r ∈ m.deadSpans keep, m.lies r.1 r.2 h = true) ↔ keep.contains h = false) ∧
    ∀ r ∈ m.deadSpans keep, ∀ h ∈ m.live, (m.last? h).map (· + 1) = some r.1 ∨ m.start? h = some (r.2 + 1) →
      keep.contains h = true := by
  have hc : Carved keep m.arena m.live (m.deadSpans keep).reverse := hl.carved_deadSpans
  have hapart := pairwise_reverse.1 (hc.apart fun h hm => hl.pos hm)
  obtain ⟨hblocks, hcover⟩ := hc.blocks
  simp only [mem_reverse] at hblocks hcover
  have hlies : ∀ h ∈ m.live, (∃ r ∈ m.deadSpans keep, m.lies r.1 r.2 h = true) ↔ keep.contains h = false := by
    intro h hm
    constructor
    · rintro ⟨r, hr, hlies⟩
      obtain ⟨mid, hb⟩ := hblocks r hr
      have hmid := (hb.lies_iff hl hm).1 hlies
      obtain ⟨-, -, -, -, hdead, -⟩ := hb
      exact hdead h hmid
    · intro hd
      obtain ⟨r, hr, mid, hb, hmid⟩ := hcover h hm hd
      exact ⟨r, hr, (hb.lies_iff hl hm).2 hmid⟩
  refine ⟨hapart, fun r hr => (hblocks r hr).elim fun mid hb => hb.ends hl, hlies, fun r hr h hm hnext => ?_⟩
  -- A dead neighbour would lie in a span that overlaps or touches this one.
  by_contra hk
  obtain ⟨r', hr', hin⟩ := (hlies h hm).2 (Bool.not_eq_true _ ▸ hk)
  have hle := ((hblocks r hr).elim fun mid hb => hb.ends hl).1
  obtain ⟨pre, post, hs⟩ := append_of_mem hm
  have hpos := hl.pos hm
  rw [hl.lies_split hs] at hin
  rw [hl.start?_split hs, hl.last?_split hs, Option.map_some, Option.some.injEq, Option.some.injEq] at hnext
  obtain ⟨i, hi, rfl⟩ := getElem_of_mem hr
  obtain ⟨j, hj, rfl⟩ := getElem_of_mem hr'
  rcases Nat.lt_trichotomy i j with hij | rfl | hij
  · have := pairwise_iff_getElem.1 hapart i j hi hj hij
    omega
  · omega
  · have := pairwise_iff_getElem.1 hapart j i hj hi hij
    omega

end

theorem deadSpans_exact_three :
    (∃ r ∈ nopJumpRet.deadSpans {1}, nopJumpRet.lies r.1 r.2 0 = true) ∧
    (∃ r ∈ nopJumpRet.deadSpans {1}, nopJumpRet.lies r.1 r.2 2 = true) ∧
    (nopJumpRet.deadSpans {1}).Pairwise fun r r' => r.2 + 1 < r'.1 := by
  have hl : nopJumpRet.Laid := ((laid_empty.insert _).insert _).insert _
  obtain ⟨hapart, -, hlies, -⟩ := hl.deadSpans_exact {1}
  exact ⟨(hlies 0 (by decide)).2 (by simp), (hlies 2 (by decide)).2 (by simp), hapart⟩

end NeoScript.CodeMap
