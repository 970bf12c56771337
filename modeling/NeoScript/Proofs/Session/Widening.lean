import NeoScript.Proofs.Session.Agreement

/-!
# Finishing with and without widening

Two runs of the same calls that differ only in whether jumps may be widened lead to twins, which come to the same offsets. If
all of them fit one byte, both are finished with the same unit; otherwise the one gets a script with four-byte offsets and the
other is refused.
-/

namespace NeoScript

open Generator Option CodeMap Opcode List

/-! ### Runs -/

namespace Session

variable {j j' k : Journal} {c : Call} {cs : List Call}

/-- Paired sessions that have refused the same calls. -/
structure Matched (s s' : Session) : Prop extends Paired s s' where
  failures : s'.failures = s.failures

lemma Matched.step (hp : Matched j.session j'.session) (h : j.step c = some k) :
    ∃ k', j'.step c = some k' ∧ Matched k.session k'.session ∧
      k'.session.generator.settings = j'.session.generator.settings := by
  have hsame := hp.toPaired.perform c
  unfold Journal.step at h ⊢
  generalize hs : j.session.perform c = r at hsame h
  generalize hs' : j'.session.perform c = r' at hsame ⊢
  cases hsame with
  | ok ht =>
    cases h
    have hfailures := (failures_ok hs').trans (hp.failures.trans (failures_ok hs).symm)
    exact ⟨_, rfl, ⟨ht, hfailures⟩, ((c.ends_emission_level _).of_ok (perform_ok hs')).1.settings⟩
  | refused ht =>
    cases h
    refine ⟨_, rfl, ⟨ht, ?_⟩, perform_settings_refused hs'⟩
    rw [failures_refused hs', failures_refused hs, hp.failures]
  | misuse => cases h

/-- **Runs of the same calls lead to such sessions.** -/
lemma Matched.run (hp : Matched j.session j'.session) (h : j.run cs = some k) :
    ∃ k', j'.run cs = some k' ∧ Matched k.session k'.session ∧
      k'.session.generator.settings = j'.session.generator.settings := by
  induction cs generalizing j j' with
  | nil =>
    cases h
    exact ⟨j', rfl, hp, rfl⟩
  | cons c cs ih =>
    obtain ⟨j1, hstep, hrest⟩ := bind_eq_some_iff.1 h
    obtain ⟨j1', hstep', hp1, hset1⟩ := hp.step hstep
    obtain ⟨k', hrun, hpk, hset⟩ := ih hp1 hrest
    refine ⟨k', ?_, hpk, hset.trans hset1⟩
    rwa [Journal.run, hstep']

end Session

/-! ### Finishing -/

namespace Generator

variable {g g' : Generator} {marks : List Handle} {statics : List String} {failures : List MethodFailure}

/-- The generator with the given choice about offsets that do not fit. -/
def widening (w : Bool) (g : Generator) : Generator :=
  { g with options := { g.options with widenJumps := w } }

/-- All offsets have one byte. -/
def Short (g : Generator) : Prop := ∀ h ∈ g.code.live, ∀ i, g.code.instruction? h = some i → i.opcode.isWide = false

/-- The unit of code whose offsets fit. -/
def unitOf? (g : Generator) (statics : List String) (failures : List MethodFailure) : Option CompiledUnit :=
  g.code.image?.map fun script =>
    { script, tokens := g.tokens, methods := g.methodRanges, staticFields := statics.length.toUInt8, failures }

lemma writeOut_run {k : Generator} (h : fitJumps.run g = .ok () k) : (writeOut statics failures).run g =
      match k.unitOf? statics failures with
      | some u => .ok u k
      | none => .error .misuse k := by
  rw [writeOut, run_bind, h]
  dsimp only
  rw [run_get_bind, unitOf?]
  cases k.code.image? <;> rfl

/-- Without widening the first offset that does not fit is refused. -/
lemma writeOut_short : (writeOut statics failures).run (g.widening false) = match g.code.linked.find? g.code.overflows with
    | some h => .error (.refused (.jumpTooFar ((g.code.start? h).getD 0))) (g.widening false)
    | none =>
      match g.unitOf? statics failures with
      | some u => .ok u (g.widening false)
      | none => .error .misuse (g.widening false) := by
  have hfit : fitJumps.run (g.widening false) = EStateM.run (match g.code.linked.find? g.code.overflows with
      | some h => refuse (.jumpTooFar ((g.code.start? h).getD 0))
      | none => pure ()) (g.widening false) := rfl
  cases hfind : g.code.linked.find? g.code.overflows with
  | some h =>
    rw [hfind] at hfit
    rw [writeOut, run_bind, hfit]
    rfl
  | none =>
    rw [hfind] at hfit
    exact writeOut_run hfit

lemma writeOut_wide : (writeOut statics failures).run (g.widening true) =
    match (g.widening true).widenJumps.unitOf? statics failures with
    | some u => .ok u (g.widening true).widenJumps
    | none => .error .misuse (g.widening true).widenJumps :=
  writeOut_run rfl

lemma Short.isNarrow (hs : g.Short) {h : Handle} {i : Instruction} (hm : h ∈ g.code.live)
    (hi : g.code.instruction? h = some i) (hr : i.opcode.role ≠ .plain) : g.code.isNarrow h = true := by
  have hwide := hs h hm i hi
  rw [isWide, hasTarget_eq_true.2 hr, Bool.true_and, isNone_eq_false_iff,
    isSome_iff_exists] at hwide
  obtain ⟨o, ho⟩ := hwide
  exact isNarrow_eq_true.2 ⟨i, o, hi, ho⟩

/-- In code with one-byte offsets just the overflowing instructions are widened at first. -/
lemma Short.overflowing_eq_nil_iff (hs : g.Short) (hl : g.code.Laid) :
    g.code.overflowing = [] ↔ g.code.linked.find? g.code.overflows = none := by
  rw [CodeMap.overflowing, filter_eq_nil_iff, find?_eq_none]
  refine forall₂_congr fun h hm => not_congr ?_
  obtain ⟨hm, i, hi, hr⟩ := (mem_linked hl).1 hm
  rw [outgrows_eq, hs.isNarrow hm hi hr, Bool.true_and]

lemma mem_widen_of_overflowing {m : CodeMap} {h : Handle} (ho : h ∈ m.overflowing) : h ∈ m.widen.2 := by
  unfold CodeMap.widen
  split
  · next hnil =>
    rw [hnil] at ho
    cases ho
  · next first rest hcons =>
    rw [hcons] at ho
    exact mem_append_left _ ho

/-- What overflows gets a four-byte offset. -/
lemma wide_of_overflowing {m : CodeMap} (hl : m.Laid) {h : Handle} (ho : h ∈ m.overflowing) :
    h ∈ m.widen.1.live ∧ ∃ i, m.widen.1.instruction? h = some i ∧ i.opcode.isWide = true := by
  obtain ⟨hm, hn, -⟩ := hl.mem_overflowing.1 ho
  obtain ⟨i, o, hi, ho'⟩ := isNarrow_eq_true.1 hn
  refine ⟨by rwa [(widen_widened hl).live], i.widened, ?_, ?_⟩
  · rw [hl.widen_eq, instruction?_withWide, if_pos (mem_widen_of_overflowing ho), hi, map_some]
  · have htarget : i.widened.opcode.hasTarget = true := by
      rw [hasTarget_eq_true, Instruction.role_widened, ← hasTarget_eq_true]
      exact (narrow_of_wide? ho').1
    rw [isWide, htarget, wide?_widened]
    rfl

lemma widenJumps_eq_self (h : g.code.overflowing = []) : g.widenJumps = g := by
  unfold widenJumps
  rw [widen_eq_self h]
  rfl

lemma Alike.short_iff {ρ : Handle ↪o Handle} {b : Outset} (ha : Alike ρ b g g') : g'.Short ↔ g.Short := by
  constructor
  · intro hs h hm i hi
    obtain ⟨i', hi', hsame⟩ := ha.code.known h i (.inl hm) hi
    exact hsame.opcode ▸ hs _ (ha.code.mem.2 hm) i' hi'
  · intro hs h' hm' i' hi'
    rw [ha.code.live, List.mem_map] at hm'
    obtain ⟨h, hm, rfl⟩ := hm'
    obtain ⟨i, hi⟩ := ha.code.laid.instruction?_isSome hm
    obtain ⟨i'', hi'', hsame⟩ := ha.code.known h i (.inl hm) hi
    obtain rfl := some.inj (hi''.symm.trans hi')
    exact hsame.opcode.symm ▸ hs h hm i hi

lemma short_removeDeadCode (hidle : Idle marks g) : g.removeDeadCode.1.Short ∧ g.removeDeadCode.1.code.Laid := by
  obtain ⟨keep, -, htrimmed, -, -⟩ := removeDeadCode_trimmed hidle.laid
  refine ⟨fun h hm i hi => ?_, htrimmed.laid⟩
  exact hidle.narrow h (htrimmed.live h hm) _ (htrimmed.shape ▸ shape?_eq hi)

/-- Code that is alike is written out in the same way. -/
lemma Alike.writeOut {ρ : Handle ↪o Handle} {b : Outset} {w : Bool} (ha : Alike ρ b g g')
    (hw : g'.options.widenJumps = w) :
    Concur ρ b (SameUnit failures failures) ((writeOut statics failures).run (g.widening w))
      ((writeOut statics failures).run g') := by
  have hoptions : g'.options = (g.widening w).options := by
    rw [widening, ← hw, ← ha.context.options]
  refine agree_writeOut ?_ hoptions statics failures failures
  exact { ha with context := { ha.context with options := by rw [hoptions] } }

end Generator

namespace Session

variable {s : Session} {marks : List Handle}

lemma short_prepared {k : Generator} {statics : List String} {choice : Choice} (hidle : Idle marks s.generator)
    (h : s.prepared choice = .ok (statics, k)) : k.Short ∧ k.code.Laid := by
  unfold prepared at h
  split at h
  · cases h
  · next t ht =>
    obtain ⟨⟨_, hidle⟩, -⟩ := ensureInitializer_kept hidle ht
    unfold Generator.prepared at h
    split at h <;> cases h
    split_ifs
    · exact short_removeDeadCode hidle
    · exact ⟨fun h hm i hi => hidle.narrow h hm _ (shape?_eq hi), hidle.laid⟩

/-- Neither choice gives a unit, or both give the same, with one-byte offsets, or only widening can give one, which
then has a four-byte offset. -/
lemma finish_outcomes {f : Bool → Session} (hidle : Idle marks s.generator) (hp : ∀ w, Matched s (f w))
    (hw : ∀ w, (f w).generator.options.widenJumps = w) (c : Bool → Choice) : (∀ w u t, (f w).finish (c w) ≠ .ok u t) ∨
    (∃ u, ∀ w, ∃ t, (f w).finish (c w) = .ok u t ∧ t.generator.Short) ∨
    (∃ address t, (f false).finish (c false) = .error (.refused (.jumpTooFar address)) t) ∧
      ∀ u t, (f true).finish (c true) = .ok u t → ¬ t.generator.Short := by
  have hfinish : ∀ w, _ := fun w => finish_prepared (hp w).idle'.choose_spec (c w)
  cases hprepared : s.prepared .first with
  | error fault =>
    refine .inl fun w u t ht => ?_
    rcases (hp w).toPaired.prepared .first (c w) with hstop | ⟨_, _, _, _, _, h, _⟩
    · obtain ⟨_, -, _, h'⟩ := hstop.faults
      have hfault := hfinish w
      rw [h'] at hfault
      obtain ⟨t', ht'⟩ := hfault
      rw [ht'] at ht
      cases ht
    · rw [hprepared] at h
      cases h
  | ok e =>
    obtain ⟨statics, k⟩ := e
    obtain ⟨hk, hl⟩ := short_prepared hidle hprepared
    -- With either choice the session is finished as the code that is left would be.
    have hsame : ∀ w, ∃ ρ b r, Concur ρ b (SameUnit s.failures s.failures)
        ((writeOut statics s.failures).run (k.widening w)) r ∧ (f w).finish (c w) = concluded s.failures r := fun w => by
      rcases (hp w).toPaired.prepared .first (c w) with hstop | ⟨_, _, k', ρ, b, h, h', ha, -, ho⟩
      · obtain ⟨_, h, -⟩ := hstop.faults
        rw [hprepared] at h
        cases h
      · cases hprepared.symm.trans h
        have hconcluded := hfinish w
        rw [h', (hp w).failures] at hconcluded
        exact ⟨ρ, b, _, ha.writeOut (ho ▸ hw w), hconcluded⟩
    have hok : ∀ w u, (writeOut statics s.failures).run (k.widening w) = .ok u (k.widening w) →
        ∃ t, (f w).finish (c w) = .ok u t ∧ t.generator.Short := fun w u hrun => by
      obtain ⟨ρ, b, r, hr, heq⟩ := hsame w
      rw [hrun] at hr
      cases hr with
      | ok hu ha =>
        obtain ⟨v, rfl, rfl⟩ := hu
        exact ⟨_, heq, ha.short_iff.2 hk⟩
    have herror : ∀ w e k', (writeOut statics s.failures).run (k.widening w) = .error e k' →
        ∃ t, (f w).finish (c w) = .error e t := fun w e k' hrun => by
      obtain ⟨ρ, b, r, hr, heq⟩ := hsame w
      rw [hrun] at hr
      cases hr <;> exact ⟨_, heq⟩
    cases hfind : k.code.linked.find? k.code.overflows with
    | none =>
      have hnil := (hk.overflowing_eq_nil_iff hl).2 hfind
      have hrun : ∀ w, (writeOut statics s.failures).run (k.widening w) =
          match k.unitOf? statics s.failures with
          | some u => .ok u (k.widening w)
          | none => .error .misuse (k.widening w) := fun w => by
        cases w with
        | false => rw [writeOut_short, hfind]
        | true =>
          rw [writeOut_wide, widenJumps_eq_self (g := k.widening true) hnil]
          rfl
      cases hunit : k.unitOf? statics s.failures with
      | none =>
        refine .inl fun w u t ht => ?_
        obtain ⟨t', ht'⟩ := herror w .misuse (k.widening w) (by rw [hrun, hunit])
        rw [ht'] at ht
        cases ht
      | some u => exact .inr (.inl ⟨u, fun w => hok w u (by rw [hrun, hunit])⟩)
    | some h =>
      refine .inr (.inr ⟨?_, fun u t ht => ?_⟩)
      · exact ⟨_, herror false _ (k.widening false) (by rw [writeOut_short, hfind])⟩
      · obtain ⟨ρ, b, r, hr, heq⟩ := hsame true
        rw [ht] at heq
        rw [writeOut_wide] at hr
        split at hr
        · cases hr with
          | ok _ ha =>
            cases heq
            have hne : k.code.overflowing ≠ [] := fun hnil => by
              rw [(hk.overflowing_eq_nil_iff hl).1 hnil] at hfind
              cases hfind
            obtain ⟨h, hover⟩ := exists_mem_of_ne_nil _ hne
            obtain ⟨hm, i, hi, hwide⟩ := wide_of_overflowing hl hover
            rw [ha.short_iff]
            intro hshort
            have hnarrow := hshort h (by rw [code_widenJumps]; exact hm) i (by rw [code_widenJumps]; exact hi)
            rw [hwide] at hnarrow
            cases hnarrow
        · cases hr with
          | misuse => cases heq

end Session

/-! ### Scripts -/

namespace Script

/-- The script decodes, and no offset in it has four bytes. -/
def AllNear (script : Bytes) : Prop := ∃ ds, decode script = .ok ds ∧ ∀ d ∈ ds, d.opcode.isWide = false

/-- The script decodes, and some offset in it has four bytes. -/
def SomeFar (script : Bytes) : Prop := ∃ ds, decode script = .ok ds ∧ ∃ d ∈ ds, d.opcode.isWide = true

lemma not_allNear_of_someFar {script : Bytes} (h : SomeFar script) : ¬ AllNear script := by
  rintro ⟨ds, hds, hall⟩
  obtain ⟨ds', hds', d, hd, hwide⟩ := h
  obtain rfl : ds' = ds := Except.ok.inj (hds'.symm.trans hds)
  rw [hall d hd] at hwide
  cases hwide

lemma map_opcode_of_shows {start : Handle → Option Nat} {size : Nat} {es : List (Nat × Handle × Instruction)}
    {ds : List Decoded} (hall : List.Forall₂ (fun e d => Decoded.Shows start size e.1 e.2.2 d) es ds) :
    ds.map Decoded.opcode = es.map fun e => e.2.2.opcode := by
  induction hall with
  | nil => rfl
  | cons h _ ih => rw [map_cons, map_cons, h.opcode, ih]

/-- The opcodes of a script are those of the code. -/
lemma decode_opcodes {m : CodeMap} {bytes : Bytes} (hl : m.Laid)
    (hi : ∀ h ∈ m.live, ∀ i, m.instruction? h = some i → i.Linked m.live) (himage : m.image? = some bytes) :
    ∃ ds, decode bytes = .ok ds ∧ ∀ o, (∃ d ∈ ds, d.opcode = o) ↔
      ∃ h ∈ m.live, ∃ i, m.instruction? h = some i ∧ i.opcode = o := by
  obtain ⟨-, ds, hds, hall⟩ := decode_image hl (fun h hm i hhi => (hi h hm i hhi).readable) himage
  refine ⟨ds, hds, fun o => ?_⟩
  rw [← List.mem_map, map_opcode_of_shows hall, List.mem_map]
  constructor
  · rintro ⟨e, he, rfl⟩
    obtain ⟨hm, -, hhi⟩ := hl.mem_instructions he
    exact ⟨e.2.1, hm, e.2.2, hhi, rfl⟩
  · rintro ⟨h, hm, i, hhi, rfl⟩
    rw [← hl.map_handle_instructions] at hm
    obtain ⟨e, he, rfl⟩ := List.mem_map.1 hm
    obtain ⟨-, -, hhe⟩ := hl.mem_instructions he
    exact ⟨e, he, by rw [some.inj (hhe.symm.trans hhi)]⟩

end Script

/-- **Widening is needed or changes nothing.** Take a run of calls with and without widening. The session without it is
finished with a unit if and only if the other one is finished with that unit and all offsets in its script have one
byte. If the script with widening has a four-byte offset, the session without it is refused for a jump that is too
far. -/
theorem finish_without_widening {symbols : SymbolTable} {options : Options} {trace : Trace} {calls : List Call}
    {j : Journal} (hrun : (Journal.start symbols options trace).run calls = some j) :
    ∃ short wide : Journal,
      (Journal.start symbols { options with widenJumps := false } trace).run calls = some short ∧
      (Journal.start symbols { options with widenJumps := true } trace).run calls = some wide ∧
      ∀ c c', (∀ u, (∃ s, short.session.finish c = .ok u s) ↔
        (∃ s, wide.session.finish c' = .ok u s) ∧ Script.AllNear u.script) ∧
      ∀ u s, wide.session.finish c' = .ok u s → Script.SomeFar u.script →
        ∃ address s', short.session.finish c = .error (.refused (.jumpTooFar address)) s' := by
  have heither : ∀ w, ∃ k, (Journal.start symbols { options with widenJumps := w } trace).run calls = some k ∧
      Session.Matched j.session k.session ∧ k.session.generator.options.widenJumps = w := fun w => by
    have hstart : Session.Matched (Journal.start symbols options trace).session
        (Journal.start symbols { options with widenJumps := w } trace).session :=
      ⟨Session.paired_start symbols options w trace, rfl⟩
    obtain ⟨k, hk, hp, hset⟩ := hstart.run hrun
    exact ⟨k, hk, hp, congrArg (fun e => e.2.widenJumps) hset⟩
  choose either hrun' hp hw using heither
  refine ⟨either false, either true, hrun' false, hrun' true, fun c c' => ?_⟩
  -- The opcodes of a unit are those of the code that it was written from.
  have hopcodes : ∀ {w c u t}, (either w).session.finish c = .ok u t → ∃ ds, Script.decode u.script = .ok ds ∧
      ∀ o, (∃ d ∈ ds, d.opcode = o) ↔
        ∃ h ∈ t.generator.code.live, ∃ i, t.generator.code.instruction? h = some i ∧ i.opcode = o := by
    intro w c u t ht
    obtain ⟨g, hg, hf⟩ := Session.idle_finish (Journal.idle_run (idle_start symbols _ trace) (hrun' w)) ht
    exact Script.decode_opcodes hf.laid (fun h hm i hi => hf.linked hg hm hi) hf.image
  have hidle := Journal.idle_run (idle_start symbols options trace) hrun
  rcases Session.finish_outcomes (f := fun w => (either w).session) hidle hp hw (fun w => if w then c' else c) with
    hnone | ⟨u, hboth⟩ | ⟨⟨address, t, hrefused⟩, hwide⟩
  · exact ⟨fun u => ⟨fun ⟨t, ht⟩ => (hnone false _ _ ht).elim, fun ⟨⟨t, ht⟩, _⟩ => (hnone true _ _ ht).elim⟩,
      fun u t ht => (hnone true _ _ ht).elim⟩
  · obtain ⟨t, ht, hk⟩ := hboth true
    obtain ⟨t', ht', -⟩ := hboth false
    have hnear : Script.AllNear u.script := by
      obtain ⟨ds, hds, hall⟩ := hopcodes ht
      refine ⟨ds, hds, fun d hd => ?_⟩
      obtain ⟨h, hm, i, hi, ho⟩ := (hall d.opcode).1 ⟨d, hd, rfl⟩
      exact ho ▸ hk h hm i hi
    refine ⟨fun u' => ⟨fun ⟨s, hs⟩ => ?_, fun ⟨⟨s, hs⟩, _⟩ => ?_⟩, fun u' s hs hfar => ?_⟩
    · cases ht'.symm.trans hs
      exact ⟨⟨t, ht⟩, hnear⟩
    · cases ht.symm.trans hs
      exact ⟨t', ht'⟩
    · cases ht.symm.trans hs
      exact (Script.not_allNear_of_someFar hfar hnear).elim
  · refine ⟨fun u => ⟨fun ⟨s, hs⟩ => ?_, fun ⟨⟨s, hs⟩, hnear⟩ => ?_⟩, fun _ _ _ _ => ⟨address, t, hrefused⟩⟩
    · cases hrefused.symm.trans hs
    · obtain ⟨ds, hds, hall⟩ := hopcodes hs
      obtain ⟨ds', hds', hnear⟩ := hnear
      cases hds.symm.trans hds'
      refine (hwide u s hs fun h hm i hi => ?_).elim
      obtain ⟨d, hd, ho⟩ := (hall i.opcode).2 ⟨h, hm, i, hi, rfl⟩
      exact ho ▸ hnear d hd

/-- A method with a branch of 135 bytes. -/
def farBranch : List Call :=
  [.method "caller" [.literal (.bool true), .beginIf, .literal (.bytes (List.replicate 130 0)), .returnFrom true, .endIf,
    .integer 1, .returnFrom true]]

theorem finish_without_widening_far :
    ∃ short wide u s, (Journal.start callerAndCallee { level := .none, widenJumps := false } {}).run farBranch = some short ∧
      (Journal.start callerAndCallee { level := .none, widenJumps := true } {}).run farBranch = some wide ∧
      wide.session.finish = .ok u s ∧ Script.SomeFar u.script ∧
      ∃ address s', short.session.finish = .error (.refused (.jumpTooFar address)) s' := by
  have hsome : ((Journal.start callerAndCallee { level := .none, widenJumps := true } {}).run farBranch |>.bind fun j =>
      j.unit?.filter fun e => match Script.decode e.1.script with
        | .ok ds => ds.any fun d => d.opcode.isWide
        | .error _ => false).isSome = true := by decide +kernel
  obtain ⟨⟨u, s⟩, h⟩ := Option.isSome_iff_exists.1 hsome
  obtain ⟨j, hrun, h⟩ := Option.bind_eq_some_iff.1 h
  obtain ⟨hunit, h⟩ := Option.filter_eq_some_iff.1 h
  have hfar : Script.SomeFar u.script := by
    dsimp only at h
    split at h
    · next ds hds => exact ⟨ds, hds, by simpa using h⟩
    · cases h
  obtain ⟨short, wide, hshort, hwide, hboth⟩ := finish_without_widening hrun
  obtain ⟨-, hrefused⟩ := hboth .first .first
  obtain rfl : j = wide := Option.some.inj (hrun.symm.trans hwide)
  have hfinish := Journal.finish_of_unit? hunit
  exact ⟨short, j, u, s, hshort, hrun, hfinish, hfar, hrefused u s hfinish hfar⟩

end NeoScript
