import NeoScript.Proofs.Generator.DeadCode
import NeoScript.Proofs.Script.Decoding
import NeoScript.Proofs.Session.History

/-!
# Finished scripts

A session that can be finished has no open end: in the finished code every control transfer leads to a live
instruction, jumps and handlers to one of the same call, and the script decodes to the instructions of the code.
-/

namespace NeoScript

open Generator List Instruction

namespace Generator

variable {marks : List Handle} {g g' : Generator} {choice : Choice}

/-! ### The steps of finishing -/

lemma ends_closeLinks {links : List Link} (hl : ∀ l ∈ links, ∃ m, l = .entry m) :
    Ends (closeLinks links) g (fun _ g' => links = [] ∧ g' = g) fun _ => True := by
  cases links with
  | nil => exact .pure ⟨rfl, rfl⟩
  | cons l links =>
    obtain ⟨m, rfl⟩ := hl l mem_cons_self
    exact .throw trivial

lemma mem_waitingCalls {h : Handle} {m : String} : (h, m) ∈ g.waitingCalls ↔ h ∈ g.waitingOf m := by
  simp only [waitingCalls, mem_flatMap, mem_map, Prod.mk.injEq]
  rw [waitingOf]
  constructor
  · rintro ⟨⟨m, calls⟩, he, h, hh, rfl, rfl⟩
    rwa [Table.get?_eq_some_iff.2 he]
  · intro hh
    cases hm : g.waiting.get? m with
    | none =>
      rw [hm] at hh
      cases hh
    | some calls =>
      rw [hm] at hh
      exact ⟨(m, calls), Table.get?_eq_some_iff.1 hm, h, hh, rfl, rfl⟩

lemma exists_waitingOf {m : String} (h : g.missingMethod? choice = some m) : ∃ x, x ∈ g.waitingOf m := by
  obtain ⟨⟨x, m⟩, he, rfl⟩ := mem_map.1 (choice.mem h)
  exact ⟨x, mem_waitingCalls.1 he⟩

lemma missingMethod?_eq_none_iff : g.missingMethod? choice = none ↔ ∀ m, g.waitingOf m = [] := by
  constructor
  · intro h m
    have hnil : g.waitingCalls = [] := map_eq_nil_iff.1 (choice.none h)
    refine eq_nil_iff_forall_not_mem.2 fun x hx => ?_
    have hmem := mem_waitingCalls.2 hx
    rw [hnil] at hmem
    cases hmem
  · refine fun h => Option.eq_none_iff_forall_ne_some.2 fun m hm => ?_
    obtain ⟨x, hx⟩ := exists_waitingOf hm
    rw [h m] at hx
    cases hx

/-- Widening changes the code, and leaves a trace. -/
lemma widenJumps_eq (g : Generator) : ∃ trace, g.widenJumps = { g with code := g.code.widen.1, trace } := by
  have hfold : ∀ {f : Generator → Handle → Generator}, (∀ k h, ∃ trace, f k h = { k with trace }) →
      ∀ (hs : List Handle) (k : Generator), ∃ trace, hs.foldl f k = { k with trace } := fun hf hs => by
    induction hs with
    | nil => exact fun k => ⟨_, rfl⟩
    | cons h hs ih =>
      intro k
      obtain ⟨trace, hk⟩ := hf k h
      obtain ⟨trace', heq⟩ := ih { k with trace }
      exact ⟨trace', by rw [foldl_cons, hk, heq]⟩
  refine hfold (fun k h => ?_) _ _
  split
  · exact ⟨_, rfl⟩
  · exact ⟨_, rfl⟩

lemma code_widenJumps (g : Generator) : g.widenJumps.code = g.code.widen.1 := by
  obtain ⟨trace, heq⟩ := g.widenJumps_eq
  rw [heq]

lemma ends_fitJumps (hl : g.code.Laid) : Ends fitJumps g (fun _ g' => CodeMap.Widened g.code g'.code) fun _ => True := by
  refine .get ?_
  split_ifs
  · refine .modify ?_
    rw [code_widenJumps]
    exact CodeMap.widen_widened hl
  · split
    · exact .throw trivial
    · exact .pure (.refl hl)

/-- What a generator that is ready to be written has in common with the one between calls: some instructions were
removed, others widened. -/
structure Fitted (g g' : Generator) : Prop where
  waiting : ∀ m, g.waitingOf m = []
  code : ∃ g₁ keep, Trimmed keep g g₁ ∧ KeepsRefs keep g ∧ g₁.code.live = g.code.live.filter keep.contains ∧
    CodeMap.Widened g₁.code g'.code

/-- A generator that was written. -/
structure Finished (g g' : Generator) (script : Bytes) : Prop extends Fitted g g' where
  image : g'.code.image? = some script

/-- The last steps of finishing. -/
def writeOut (statics : List String) (failures : List MethodFailure) : Emission CompiledUnit := do
  fitJumps
  let g ← get
  match g.code.image? with
  | none => throw .misuse
  | some script =>
    return {
      script, tokens := g.tokens, methods := g.methodRanges, staticFields := statics.length.toUInt8, failures }

lemma ends_writeOut (keep : Std.HashSet Handle) {statics : List String} {failures : List MethodFailure}
    (hwaiting : ∀ m, g.waitingOf m = []) (ht : Trimmed keep g g') (hk : KeepsRefs keep g)
    (hlive : g'.code.live = g.code.live.filter keep.contains) :
    Ends (writeOut statics failures) g' (fun u g'' => Finished g g'' u.script) fun _ => True := by
  refine (ends_fitJumps ht.laid).bind fun _ g'' hw => .get ?_
  split
  · exact .throw trivial
  · next script himage => exact .pure ⟨⟨hwaiting, g', keep, ht, hk, hlive, hw⟩, himage⟩

lemma ends_finish (h : Idle marks g) (failures : List MethodFailure) :
    Ends (Generator.finish choice failures) g (fun u g' => Finished g g' u.script) fun _ => True := by
  refine .get ?_
  have hframe : g.currentMethod? = none := by
    rw [currentMethod?, show g.frame = none from congrArg Prod.fst h.constructs]
    rfl
  simp only [hframe]
  refine .ofExcept_bind trivial fun statics _ => ?_
  refine Ends.bind (P := fun _ g' => g' = { g with pending := [] }) rfl fun _ g3 hg3 => ?_
  refine (ends_closeLinks h.links).bind fun _ g4 ⟨hp, hg4⟩ => .get ?_
  have hg : g4 = g := by rw [hg4, hg3, ← hp]
  rw [hg]
  split
  · exact .throw_bind trivial
  · next hmissing =>
    have hwaiting := missingMethod?_eq_none_iff.1 (Option.eq_none_iff_forall_not_mem.2 fun name hn => hmissing name hn)
    split_ifs
    · obtain ⟨keep, hk, ht, hlive, -⟩ := removeDeadCode_trimmed h.laid
      exact .modify_bind (ends_writeOut keep hwaiting ht hk hlive)
    · refine ends_writeOut (.ofList g.code.live) hwaiting (.refl h.laid) g.keepsRefs_live ?_
      exact (List.filter_eq_self.2 fun x hx => by simpa using hx).symm

/-! ### Finished code -/

variable (hf : Fitted g g') {x : Handle} {i' : Instruction}
include hf

/-- What is left in finished code was there before, and so are its targets. -/
lemma Fitted.instruction (h : Idle marks g) (hx : x ∈ g'.code.live) (hi' : g'.code.instruction? x = some i') :
    x ∈ g.code.live ∧ ∃ i, g.code.instruction? x = some i ∧ i'.opcode.role = i.opcode.role ∧ i'.target = i.target ∧
      (i.opcode.role = .plain → i' = i) ∧ ∀ d ∈ i.refs, d ∈ g'.code.live := by
  obtain ⟨g1, keep, ht, hk, hlive, hw⟩ := hf.code
  obtain ⟨i, hi, hcase⟩ := hw.instruction x i' hi'
  rw [hw.live, hlive, mem_filter] at hx
  rw [ht.kept x hx.2] at hi
  refine ⟨hx.1, i, hi, ?_, ?_, fun hr => ?_, fun d hd => ?_⟩
  · rcases hcase with rfl | rfl <;> simp
  · rcases hcase with rfl | rfl <;> simp
  · rcases hcase with rfl | rfl
    · rfl
    · exact widened_of_plain hr
  · rw [hw.live, hlive, mem_filter]
    have hm := h.closed x hx.1 i hi d hd
    exact ⟨hm, hk x hx.1 hx.2 i hi d hd hm⟩

lemma Fitted.laid : g'.code.Laid := by
  obtain ⟨g1, keep, -, -, -, hw⟩ := hf.code
  exact hw.laid

/-- In finished code every call leads to a method. -/
lemma Fitted.call (h : Idle marks g) {i : Instruction}
    (hx : x ∈ g.code.live) (hi : g.code.instruction? x = some i) (hr : i.opcode.role = .call) :
    ∃ d ∈ g.code.live, i.target = .code d := by
  refine (h.call x hx i hi hr).resolve_right ?_
  rintro ⟨-, m, hm⟩
  rw [hf.waiting m] at hm
  cases hm

lemma Fitted.linked (h : Idle marks g)
    (hx : x ∈ g'.code.live) (hi' : g'.code.instruction? x = some i') : i'.Linked g'.code.live := by
  obtain ⟨hx, i, hi, hr, ht, hplain, hrefs⟩ := hf.instruction h hx hi'
  unfold Instruction.Linked
  rw [hr]
  cases hrole : i.opcode.role with
  | plain =>
    rw [hplain hrole]
    exact h.plain x hx i hi hrole
  | leap =>
    obtain ⟨d, -, htd, -⟩ := h.leap x hx i hi hrole
    refine ⟨d, hrefs d ?_, ht.trans htd⟩
    rw [refs_eq (by simp [hrole]), htd]
    exact mem_cons_self
  | call =>
    obtain ⟨d, -, htd⟩ := hf.call h hx hi hrole
    refine ⟨d, hrefs d ?_, ht.trans htd⟩
    rw [refs_eq (by simp [hrole]), htd]
    exact mem_cons_self
  | protect =>
    obtain ⟨e, f, htd, -⟩ := h.protect x hx i hi hrole
    refine ⟨e, f, ht.trans htd, fun d hd => hrefs d ?_⟩
    rwa [refs_eq (by simp [hrole]), htd]

/-- Jumps and handlers stay within the call that emitted them. -/
lemma Fitted.together (h : Idle marks g) {d : Handle} (hx : x ∈ g'.code.live) (hi' : g'.code.instruction? x = some i')
    (hr' : i'.opcode.role = .leap ∨ i'.opcode.role = .protect) (hd : d ∈ i'.refs) : Together marks x d := by
  obtain ⟨hx, i, hi, hr, ht, -, -⟩ := hf.instruction h hx hi'
  rw [hr] at hr'
  have htarget : i.opcode.role ≠ .plain := by rcases hr' with hr' | hr' <;> simp [hr']
  rw [refs_eq (hr ▸ htarget), ht, ← refs_eq htarget] at hd
  exact h.together hx hi (by rcases hr' with hr' | hr' <;> simp [hr']) hd

end Generator

/-! ### Finished sessions -/

lemma Session.ensureInitializer_eq (s : Session) :
    s.ensureInitializer = .ok () s ∨ s.ensureInitializer = s.perform (.initializer []) := by
  unfold ensureInitializer
  split_ifs
  · exact .inl rfl
  · exact .inr rfl

/-- A session is finished after the implicit initializer, if one is needed. -/
lemma Session.finish_ok {s s' : Session} {u : CompiledUnit} {choice : Choice} (h : s.finish choice = .ok u s') :
    ∃ s1, s.ensureInitializer = .ok () s1 ∧
      (Generator.finish choice s1.failures).run s1.generator = .ok u s'.generator := by
  unfold finish at h
  split at h
  · cases h
  · next s1 hs1 =>
    refine ⟨s1, hs1, ?_⟩
    split at h
    · next hrun =>
      cases h
      exact hrun
    · cases h

lemma Session.idle_finish {marks : List Handle} {s s' : Session} {u : CompiledUnit} {choice : Choice}
    (hb : Idle marks s.generator) (h : s.finish choice = .ok u s') :
    ∃ g, Idle (s.generator.code.nextHandle :: marks) g ∧ Finished g s'.generator u.script := by
  obtain ⟨s1, hs1, hrun⟩ := finish_ok h
  have hidle : Idle (s.generator.code.nextHandle :: marks) s1.generator := by
    rcases s.ensureInitializer_eq with heq | heq
    · rw [heq] at hs1
      cases hs1
      exact hb.mark
    · exact idle_perform_ok hb (heq.symm.trans hs1)
  exact ⟨_, hidle, (ends_finish hidle _).of_ok hrun⟩

lemma Generator.Together.callOf {j : Journal} {h d : Handle}
    (ht : Together (j.session.generator.code.nextHandle :: j.marks) h d) : j.callOf d = j.callOf h :=
  countP_congr fun b hb => by simpa using (ht b hb).symm

/-- **Finished code is closed.** In the code of a finished session every control transfer leads to a live
instruction, a jump and the handlers of a protected block to one that the same call emitted, and the script decodes
to instructions whose destinations are the addresses of instructions. -/
theorem finished_code_closed {symbols : SymbolTable} {options : Options} {trace : Trace} {calls : List Call}
    {j : Journal} {u : CompiledUnit} {s : Session} {choice : Choice}
    (hrun : (Journal.start symbols options trace).run calls = some j) (hfinish : j.session.finish choice = .ok u s) :
    (∀ h ∈ s.generator.code.live, ∀ i, s.generator.code.instruction? h = some i →
      i.target? ≠ some .unresolved ∧ (∀ d ∈ i.refs, d ∈ s.generator.code.live) ∧
      (i.opcode.role = .leap → ∃ d, i.target = .code d) ∧
      (i.opcode.role = .leap ∨ i.opcode.role = .protect → ∀ d ∈ i.refs, j.callOf d = j.callOf h)) ∧
    ∃ ds, Script.decode u.script = .ok ds ∧ ds.map Decoded.address = s.generator.code.starts.toList ∧
      ∀ d ∈ ds, ∀ a ∈ d.destinations, ∃ e ∈ ds, e.address = a := by
  have hidle := Journal.idle_run (idle_start symbols options trace) hrun
  obtain ⟨g, hg, hf⟩ := Session.idle_finish hidle hfinish
  refine ⟨fun h hm i hi => ?_, ?_⟩
  · have hlinked := hf.linked hg hm hi
    refine ⟨hlinked.resolved, hlinked.refs, fun hr => ?_, fun hr d hd => (hf.together hg hm hi hr hd).callOf⟩
    rw [Instruction.Linked, hr] at hlinked
    obtain ⟨d, -, ht⟩ := hlinked
    exact ⟨d, ht⟩
  · exact Script.decode_image_closed hf.laid (fun h hm i hi => hf.linked hg hm hi) hf.image

/-- Two methods, of which the public one calls the other. -/
def callerAndCallee : SymbolTable where
  methods := .ofList [("caller", { returns := .int, isPublic := true }), ("callee", { returns := .int })]

/-- A run with a call, a protected block, a branch and a loop. -/
def nestedCalls : List Call :=
  [.method "caller" [.literal (.bool true), .beginIf, .beginTry, .call "callee", .returnFrom true, .beginHandler none,
      .endTry false, .beginElse, .integer 1, .returnFrom true, .endIf, .integer 2, .returnFrom true],
    .method "callee" [.beginWhile, .literal (.bool true), .beginWhileBody, .integer 3, .returnFrom true, .endWhile false,
      .integer 4, .returnFrom true]]

theorem finished_code_closed_nested :
    ∃ j u s, (Journal.start callerAndCallee { level := .none } {}).run nestedCalls = some j ∧
      j.session.finish = .ok u s ∧ s.generator.code.length = 20 ∧
      (∀ h ∈ s.generator.code.live, ∀ i, s.generator.code.instruction? h = some i → i.target? ≠ some .unresolved) ∧
      ∃ ds, Script.decode u.script = .ok ds ∧ ∀ d ∈ ds, ∀ a ∈ d.destinations, ∃ e ∈ ds, e.address = a := by
  have hsome : ((Journal.start callerAndCallee { level := .none } {}).run nestedCalls |>.bind fun j =>
      j.unit?.filter fun e => e.2.generator.code.length = 20).isSome = true := by decide +kernel
  obtain ⟨⟨u, s⟩, h⟩ := Option.isSome_iff_exists.1 hsome
  obtain ⟨j, hrun, h⟩ := Option.bind_eq_some_iff.1 h
  obtain ⟨hunit, hlength⟩ := Option.filter_eq_some_iff.1 h
  have hfinish := Journal.finish_of_unit? hunit
  obtain ⟨hclosed, ds, hds, -, hdest⟩ := finished_code_closed hrun hfinish
  exact ⟨j, u, s, hrun, hfinish, of_decide_eq_true hlength, fun h hm i hi => (hclosed h hm i hi).1, ds, hds, hdest⟩

end NeoScript
