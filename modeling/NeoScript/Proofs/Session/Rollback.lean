import NeoScript.Proofs.Session.Idle

/-!
# Taking a method back

Whatever state a refused method was in, taking it back leads to a state between calls again: the code is that from
before the method, and the calls that had found the method wait for it.
-/

namespace NeoScript.Generator

open CodeMap Table List

variable {marks : List Handle} {b g : Generator} {f? : Option String} {f : String}
  {log : List (Handle × String)} {X : Handle → Prop} {new : List Handle}

/-- The old code takes the room it took. -/
lemma Sound.size_eq (hs : Sound b f? log X new g) : b.code.size = span g.code.arena b.code.live := by
  rw [hs.base.size]
  refine span_congr fun h hm => ?_
  obtain ⟨i, hi⟩ := hs.base.instruction?_isSome hm
  rcases hs.kept h hm i hi with hj | ⟨-, -, d, -, hj⟩
  · exact sizeOf_congr (by rw [shape?_eq hi, shape?_eq hj])
  · exact sizeOf_congr (by rw [shape?_eq hi, shape?_eq hj])

/-- The generator without the code behind a checkpoint. -/
def truncated (g : Generator) (c : Checkpoint) : Generator :=
  ({ g with code := (g.code.truncate c.address).1 }.note (.rollback c.address)).relink
    ⟨.ofList (g.code.truncate c.address).2, none⟩

lemma abandonEntry_eq (g : Generator) (c : Checkpoint) :
    (g.abandonEntry c).code = g.code ∧ (g.abandonEntry c).entries = g.entries ∧
      (g.abandonEntry c).waiting = g.waiting := by
  unfold abandonEntry
  split
  · split <;> exact ⟨rfl, rfl, rfl⟩
  · exact ⟨rfl, rfl, rfl⟩

lemma rollback_eq (g : Generator) (c : Checkpoint) :
    (g.rollback c).code = (g.truncated c).code ∧ (g.rollback c).entries = (g.truncated c).entries ∧
      (g.rollback c).waiting = (g.truncated c).waiting ∧
      (g.rollback c).pending = ((g.truncated c).abandonEntry c).pending := by
  obtain ⟨hcode, hentries, hwaiting⟩ := (g.truncated c).abandonEntry_eq c
  exact ⟨hcode, hentries, hwaiting, rfl⟩

/-- Taking back clears the new code. -/
lemma Sound.truncated (hs : Sound b f? log X new g) : Cleared b new g (g.truncated b.checkpoint) := by
  obtain ⟨hremoved, hlive, harena, hlaid⟩ := hs.laid.truncate_split hs.live
  rw [← hs.size_eq] at hremoved hlive harena hlaid
  have hgap : (⟨.ofList (g.code.truncate b.code.size).2, none⟩ : Gap) = emptied new := by rw [hremoved, emptied]
  change Cleared b new g (Generator.relink _ ⟨.ofList (g.code.truncate b.code.size).2, none⟩)
  rw [hgap]
  refine hs.clear ?_ ?_ ?_ rfl rfl rfl rfl
  exacts [hlaid, hlive, harena]

lemma outermost_zero {α : Type} (l : List α) : outermost 0 l = [] := by simp [outermost]

lemma Idle.rollback_constructs (hb : Idle marks b) : (g.rollback b.checkpoint).constructs = (none, [], [], [], []) := by
  have hk := hb.constructs
  simp only [Generator.constructs, Prod.mk.injEq] at hk
  simp only [Generator.constructs, Generator.rollback, checkpoint, hk, length_nil, outermost_zero]

lemma abandonEntry_subset {c : Checkpoint} {l : Link} (hl : l ∈ (g.abandonEntry c).pending) : l ∈ g.pending := by
  unfold abandonEntry at hl
  split at hl
  · split at hl
    · exact hl
    · exact (mem_filter.1 hl).1
  · exact hl

/-- **Taking a method back leads to a state between calls.** -/
lemma Idle.rollback (hb : Idle marks b) (hs : Sound b f? log X new g) :
    Idle (b.code.nextHandle :: marks) (g.rollback b.checkpoint) := by
  obtain ⟨hcode, hentries, hwaiting, hpending⟩ := g.rollback_eq b.checkpoint
  have hc := hs.truncated
  have hw : (g.rollback b.checkpoint).waitingOf = (g.truncated b.checkpoint).waitingOf :=
    waitingOf_congr hwaiting
  have hold : ∀ h ∈ b.code.live, (g.rollback b.checkpoint).code.instruction? h = b.code.instruction? h := by
    rw [hcode]
    exact hc.old
  have hlive : (g.rollback b.checkpoint).code.live = b.code.live := by rw [hcode, hc.live]
  refine {
    laid := hcode ▸ hc.laid
    constructs := hb.rollback_constructs
    started := fun x hx => ?started
    links := fun l hl => ?links
    plain := fun h hm i hi => hb.plain h (hlive ▸ hm) i ((hold h (hlive ▸ hm)).symm.trans hi)
    narrow := fun h hm e he => hb.narrow h (hlive ▸ hm) e (by rw [← he, shape?, ← hold h (hlive ▸ hm)]; rfl)
    leap := fun h hm i hi hr => ?leap
    protect := fun h hm i hi hr => ?protect
    call := fun h hm i hi hr => ?call
    entries := fun m d hd => ?entries
    waiting := fun m h hm => ?waiting
    once := fun m m' h hm hm' => hc.waiting_once hs (hw ▸ hm) (hw ▸ hm')
    ends := fun h hm => ?ends }
  case started =>
    rw [hcode, hc.next]
    rcases mem_cons.1 hx with rfl | hx
    · exact hs.grown
    · exact Nat.le_trans (hb.started x hx) hs.grown
  case links =>
    rw [hpending] at hl
    obtain ⟨m, hm, -⟩ := hc.pending_entry (abandonEntry_subset hl)
    exact ⟨m, hm⟩
  case leap =>
    rw [hlive] at hm ⊢
    obtain ⟨d, hd, ht, htog⟩ := hb.leap h hm i ((hold h hm).symm.trans hi) hr
    exact ⟨d, hd, ht, htog.old hb.laid hm hd⟩
  case protect =>
    rw [hlive] at hm ⊢
    obtain ⟨e, f, ht, hd⟩ := hb.protect h hm i ((hold h hm).symm.trans hi) hr
    exact ⟨e, f, ht, fun d hdm => ⟨(hd d hdm).1, (hd d hdm).2.old hb.laid hm (hd d hdm).1⟩⟩
  case call =>
    rw [hlive] at hm ⊢
    rw [hw]
    exact hc.call hs hm ((hold h hm).symm.trans hi) hr
  case entries =>
    rw [hlive]
    exact hc.entry_mem hs (hentries ▸ hd)
  case waiting =>
    obtain ⟨hl, i, hi, hr⟩ := hc.waiting_call hs (hw ▸ hm)
    exact ⟨hlive ▸ hl, i, (hold h hl).trans hi, hr⟩
  case ends =>
    rw [hlive] at hm
    have hmem := mem_of_getLast? hm
    rw [constant?, shape?, hold h hmem]
    exact hb.ends h hm

/-- The generator `r` has the code, the entries and the waiting calls of `b`. -/
structure Restored (b r : Generator) : Prop where
  live : r.code.live = b.code.live
  old : ∀ h ∈ b.code.live, r.code.instruction? h = b.code.instruction? h
  entries : r.entries = b.entries
  waiting : ∀ m h, h ∈ r.waitingOf m ↔ h ∈ b.waitingOf m

/-- Taking back a method that was not opened. -/
lemma Idle.rollback_self (hb : Idle marks b) : Restored b (b.rollback b.checkpoint) := by
  obtain ⟨hcode, hentries, hwaiting, -⟩ := b.rollback_eq b.checkpoint
  have hc := hb.sound_self.truncated
  refine ⟨by rw [hcode, hc.live], by rw [hcode]; exact hc.old, ?_, fun m h => ?_⟩
  · rw [hentries, hc.entries]
    exact filterMap_eq_self fun e _ => if_neg List.not_mem_nil
  · rw [waitingOf_congr hwaiting, hc.waiting]
    refine ⟨fun hw => hw.2.resolve_right ?_, fun hw => ⟨(hb.waiting m h hw).1, .inl hw⟩⟩
    rintro ⟨i, d, -, -, -, ho⟩
    cases (orphans_emptied_eq_some ho).2

/-- Taking back a method that has no other body. -/
lemma Tidy.rollback_restored {more : List (Handle × String)} (ht : Tidy log b) (hb : Idle marks b)
    (hs : Sound b (some f) (more ++ log) X new g) (hfresh : b.entries.get? f = none)
    (hmore : ∀ e ∈ more, b.code.nextHandle ≤ e.1) : Restored b (g.rollback b.checkpoint) := by
  obtain ⟨hcode, hentries, hwaiting, -⟩ := g.rollback_eq b.checkpoint
  have hc := hs.truncated
  have hn := hs.named f rfl
  refine ⟨by rw [hcode, hc.live], by rw [hcode]; exact hc.old, ?_, fun m h => ?_⟩
  · have hgone : (g.truncated b.checkpoint).entries.get? f = none := by
      by_contra hsome
      obtain ⟨d, hd⟩ := Option.ne_none_iff_exists'.1 hsome
      have := hn.former d (hc.entry_mem hs hd) (hc.entries_eq_some.1 hd).1
      rw [hfresh] at this
      cases this
    rw [hentries]
    apply Table.ext_entries
    rw [← filter_eq_self hgone, ← filter_eq_self hfresh, ← hn.others, hc.entries]
    refine filter_filterMap fun e he hne => if_neg fun hd => hne ?_
    exact hn.eq_of_entry hs (get?_eq_some_iff.2 he) hd
  · rw [waitingOf_congr hwaiting, hc.waits_iff hs hn]
    constructor
    · rintro ⟨hold, hm, i, hi, hu⟩
      refine ht.waits h m i ((mem_append.1 hm).resolve_left fun hm => ?_) hold hi hu
      exact Nat.lt_irrefl _ (Nat.lt_of_lt_of_le (hs.old hold) (hmore _ hm))
    · intro hw
      obtain ⟨hold, i, hi, -, hu⟩ := hb.waiting m h hw
      exact ⟨hold, mem_append_right _ (ht.waiting m h hw), i, hi, hu⟩

lemma Restored.tidy {r : Generator} (hr : Restored b r) (ht : Tidy log b) (hp : r.pending = [])
    (hcalls : ∀ h m, (h, m) ∈ log → r.code.role? h = some .call) : Tidy log r where
  pending := hp
  logged := fun h hm hc => by
    rw [hr.live] at hm
    refine ht.logged h hm ?_
    rwa [role?, shape?, ← hr.old h hm]
  calls := hcalls
  unique := ht.unique
  waits := fun h m i hm hx hi hu => by
    rw [hr.live] at hx
    exact (hr.waiting m h).2 (ht.waits h m i hm hx ((hr.old h hx).symm.trans hi) hu)
  waiting := fun m h hm => ht.waiting m h ((hr.waiting m h).1 hm)
  stuck := fun m d h hm hd => ht.stuck m d h ((hr.waiting m h).1 hm) (by rw [← hr.entries]; exact hd)
  onward := fun h m i hm hx hi => by
    rw [hr.live] at hx
    exact ht.onward h m i hm hx ((hr.old h hx).symm.trans hi)

/-- Taking back a method that was not opened leaves no link. -/
lemma Tidy.rollback_self (ht : Tidy log b) (hb : Idle marks b) : Tidy log (b.rollback b.checkpoint) := by
  obtain ⟨hcode, -, -, hpending⟩ := b.rollback_eq b.checkpoint
  have hc := hb.sound_self.truncated
  have hframe : b.frame = none := congrArg Prod.fst hb.constructs
  refine hb.rollback_self.tidy ht ?_ fun h m hm => ?_
  · rw [hpending, eq_nil_iff_forall_not_mem]
    intro l hl
    obtain ⟨m, -, hm | ⟨fr, hfr, -⟩⟩ := hc.pending_entry (abandonEntry_subset hl)
    · rw [ht.pending] at hm
      cases hm
    · rw [hframe] at hfr
      cases hfr
  · rw [hcode, role?_congr (congrFun hc.shape h)]
    exact ht.calls h m hm

/-- Taking back a method that was opened leaves no link. -/
lemma Tidy.rollback {more : List (Handle × String)} (ht : Tidy log b) (hb : Idle marks b)
    (hs : Sound b (some f) (more ++ log) X new g) (hfresh : b.entries.get? f = none)
    (hmore : ∀ e ∈ more, b.code.nextHandle ≤ e.1) (hf : g.frame.isSome) : Tidy log (g.rollback b.checkpoint) := by
  obtain ⟨hcode, -, -, hpending⟩ := g.rollback_eq b.checkpoint
  have hc := hs.truncated
  have hn := hs.named f rfl
  refine (ht.rollback_restored hb hs hfresh hmore).tidy ht ?_ fun h m hm => ?_
  · obtain ⟨fr, hfr⟩ := Option.isSome_iff_exists.1 hf
    have hname := hn.frame fr hfr
    have hframe : (g.truncated b.checkpoint).frame = some fr := (frame_of_context hc.context).trans hfr
    rw [hpending, abandonEntry, hframe]
    have hnone : b.checkpoint.frame = none := congrArg Prod.fst hb.constructs
    simp only [hnone, Option.any_none, Bool.false_eq_true, if_false, filter_eq_nil_iff, bne_iff_ne, not_not]
    intro l hl
    obtain ⟨m, rfl, hm | ⟨fr', hfr', rfl⟩⟩ := hc.pending_entry hl
    · rw [hn.entry m hm, hname]
    · rw [hn.frame fr' hfr', hname]
  · rw [hcode, role?_congr (congrFun hc.shape h)]
    exact hn.calls h m (mem_append_right _ hm)

end NeoScript.Generator
