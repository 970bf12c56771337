import NeoScript.Proofs.Generator.Settings
import NeoScript.Proofs.Session.Finish

/-!
# Calls of methods

A call of a method leads to the first instruction of the method's body, in whatever order callers and callees are
compiled, refused and compiled again. A script cannot be finished if a call is left whose callee has no body, and in
one more case: a method that starts with a call of itself waits for itself.
-/

namespace NeoScript

open Generator Option CodeMap Session

variable {marks : List Handle} {g g' : Generator} {log : List (Handle × String)}

/-! ### What one call does -/

namespace Generator

lemma Tidy.sound_opened (ht : Tidy log g) (hb : Idle marks g) (name : String) :
    Sound g (some name) log (fun _ => False) [] (g.opened name) := by
  have hp : (g.opened name).pending = [.entry name] := by
    change g.pending ++ [.entry name] = _
    rw [ht.pending, List.nil_append]
  refine hb.sound rfl rfl rfl rfl (fun l hl => ?_) fun f hf => ?_
  · rw [hp] at hl
    exact ⟨name, List.mem_singleton.1 hl⟩
  · cases hf
    exact ht.named hb rfl rfl rfl (congrArg Prod.fst hb.constructs) hp

/-- Static fields can be reserved wherever a method was opened. -/
def StaticsFit (g : Generator) : Prop := ∃ names, g.staticSlots = .ok names

lemma staticsFit_congr (h : g'.settings = g.settings) : g'.StaticsFit ↔ g.StaticsFit := by
  have hslots : g'.staticSlots = g.staticSlots := by
    rw [staticSlots, staticSlots, show g'.symbols = g.symbols from congrArg Prod.fst h,
      show g'.options = g.options from congrArg Prod.snd h]
  rw [StaticsFit, StaticsFit, hslots]

lemma ends_openMethod_statics (name : String) : Ends (openMethod name) g (fun _ _ => g.StaticsFit) fun _ => True :=
  .openMethod trivial (fun _ _ _ _ => trivial) fun names _ _ hn _ _ => ⟨names, hn⟩

lemma ends_emission_statics (c : Call) : Ends c.emission g (fun _ _ => g.StaticsFit) fun _ => True :=
  ((ends_openMethod_statics c.name).bind fun _ _ h => .const h).bind fun _ _ h => .const h

lemma context_abandoned (g : Generator) (c : Checkpoint) : ((g.truncated c).abandonEntry c).context = g.context := by
  have htrunc : (g.truncated c).context = g.context := context_relink _ _
  refine Eq.trans ?_ htrunc
  unfold abandonEntry
  split
  · split <;> rfl
  · rfl

lemma settings_rollback (g : Generator) (c : Checkpoint) : (g.rollback c).settings = g.settings := by
  change ((g.truncated c).abandonEntry c).settings = _
  exact settings_of_context (context_abandoned g c)

/-- Tokens that were added since a checkpoint go. -/
lemma tokens_rollback {b : Generator} (h : b.tokens <+: g.tokens) : (g.rollback b.checkpoint).tokens = b.tokens := by
  have htokens : ((g.truncated b.checkpoint).abandonEntry b.checkpoint).tokens = g.tokens :=
    (congrArg tokens (g.context_abandoned b.checkpoint) :)
  change List.take b.tokens.length ((g.truncated b.checkpoint).abandonEntry b.checkpoint).tokens = _
  rw [htokens]
  exact (List.prefix_iff_eq_take.1 h).symm

end Generator

/-- What a call leaves alone. The region of its method is closed if it succeeds. -/
lemma Call.ends_emission_level (c : Call) (g : Generator) :
    Ends c.emission g (fun _ g' => Extends g g' ∧ (g.scopes = [] → g.regions = 0 → g'.scopes = [])) (Extends g) := by
  have hprologue : Steady c.prologue := by
    cases c with
    | method name body => exact .pure ()
    | initializer body => exact .get fun g => (straight_storeConstants (P := fun _ => True) _).steady
  have hopening : Ends c.opening g
      (fun _ g' => Extends g g' ∧ (g.scopes = [] → g.regions = 0 → g'.Balanced)) (Extends g) :=
    (ends_openMethod_level c.name g).bind fun _ g1 ⟨he, hb, _⟩ =>
      (hprologue g1).mono (fun _ _ h => ⟨he.trans h.toExtends, fun hs hr => h.balanced (hb hs hr)⟩) fun _ h => he.trans h
  refine hopening.bind fun _ g1 ⟨he, hb⟩ => ?_
  have hbody : Ends (Command.runAll c.body) g1
      (fun _ g' => Extends g g' ∧ (g.scopes = [] → g.regions = 0 → g'.Balanced)) (Extends g) :=
    (Command.ends_runAll_balanced c.body g1).mono
      (fun _ _ h => ⟨he.trans h.1, fun hs hr => h.2 (hb hs hr)⟩) fun _ h => he.trans h
  refine hbody.bind fun _ g2 ⟨he, hb⟩ => ?_
  exact (ends_closeMethod_level g2).mono (fun _ _ h => ⟨he.trans h.1, fun hs hr => h.2 (hb hs hr)⟩) fun _ h => he.trans h

namespace Session

variable {s s' : Session} {c : Call}

lemma perform_settings_refused {cause : CompileError} (h : s.perform c = .error (.refused cause) s') :
    s'.generator.settings = s.generator.settings := by
  obtain ⟨g, hrun, heq⟩ := perform_refused h
  rw [heq, settings_rollback]
  exact ((c.ends_emission_level s.generator).of_refused hrun).settings

/-- Compiling a method, with the calls in its body. -/
lemma perform_closed (hb : Idle marks s.generator) (ht : Tidy log s.generator) (h : s.perform c = .ok () s') :
    Closed s.generator (some c.name) (c.callsFrom s.generator ++ log) s'.generator ∧
      ∀ e ∈ c.callsFrom s.generator, s.generator.code.nextHandle ≤ e.1 :=
  (Call.ends_emission (ht.sound_opened hb c.name) fun _ hf => some.inj hf).of_ok (perform_ok h)

/-- Refusing a method that has no body and whose slots can be reserved. -/
lemma perform_restored {cause : CompileError} (hb : Idle marks s.generator) (ht : Tidy log s.generator)
    (hfits : s.generator.Fits c.name) (hfresh : s.generator.entries.get? c.name = none)
    (h : s.perform c = .error (.refused cause) s') : Restored s.generator s'.generator ∧ Tidy log s'.generator := by
  have hends := Call.ends_emission (c := c) (ht.sound_opened hb c.name) fun _ hf => some.inj hf
  obtain ⟨g, hrun, heq⟩ := perform_refused h
  rw [heq]
  rcases hends.of_refused hrun with rfl | ⟨-, hnot⟩ | ⟨more, hmore, hf, X, new, hs⟩
  · exact ⟨hb.rollback_self, ht.rollback_self hb⟩
  · exact absurd hfits hnot
  · exact ⟨ht.rollback_restored hb hs hfresh hmore, ht.rollback hb hs hfresh hmore hf⟩

end Session

/-! ### Runs of calls -/

namespace Journal

/-- No method is compiled again after it has a body, and the slots of each method can be reserved. -/
def Orderly (j : Journal) : List Call → Prop
  | [] => True
  | c :: cs => (∀ d, (c.name, d) ∉ j.bodies) ∧ j.session.generator.Fits c.name ∧
      ∀ j', j.step c = some j' → j'.Orderly cs

/-- A check that a run is orderly. -/
def isOrderly (j : Journal) : List Call → Bool
  | [] => true
  | c :: cs =>
    j.bodies.all (fun e => e.1 ≠ c.name) &&
      (j.session.generator.symbols.methods.get? c.name).all (fun m => m.locals.size ≤ 255 ∧ m.argSlots ≤ 255) &&
      (j.step c).all fun j' => j'.isOrderly cs

lemma orderly_of_isOrderly (j : Journal) (cs : List Call) (h : j.isOrderly cs = true) : j.Orderly cs := by
  induction cs generalizing j with
  | nil => trivial
  | cons c cs ih =>
    simp only [isOrderly, Bool.and_eq_true, List.all_eq_true, decide_eq_true_eq, all_eq_true] at h
    exact ⟨fun d hd => h.1.1 _ hd rfl, fun m hm => h.1.2 m hm, fun j' hj' => ih j' (h.2 j' hj')⟩

/-- Entries are the starts of bodies, and calls lead there. -/
structure Accounted (j : Journal) : Prop where
  idle : Idle j.marks j.session.generator
  tidy : Tidy j.log j.session.generator
  entries : ∀ m d, j.session.generator.entries.get? m = some d ↔ (m, d) ∈ j.bodies
  leads : ∀ h m i d, (h, m) ∈ j.log → h ∈ j.session.generator.code.live →
    j.session.generator.code.instruction? h = some i → i.target = .code d → (m, d) ∈ j.bodies
  statics : j.session.generator.code.live ≠ [] → j.session.generator.StaticsFit

lemma accounted_start (symbols : SymbolTable) (options : Options) (trace : Trace) :
    Accounted (start symbols options trace) where
  idle := idle_start symbols options trace
  tidy := {
    pending := rfl
    logged := fun _ h => by cases h
    calls := fun _ _ h => by cases h
    unique := fun _ _ _ h => by cases h
    waits := fun _ _ _ h => by cases h
    waiting := fun _ _ h => by cases h
    stuck := fun _ _ _ h => by cases h
    onward := fun _ _ _ h => by cases h }
  entries := fun m d => ⟨fun h => (by cases h), fun h => by cases h⟩
  leads := fun _ _ _ _ h => by cases h
  statics := fun h => absurd rfl h

variable {j j' : Journal} {c : Call} {s' : Session}

lemma Accounted.fresh (ha : Accounted j) {f : String} (hf : ∀ d, (f, d) ∉ j.bodies) :
    j.session.generator.entries.get? f = none :=
  eq_none_iff_forall_not_mem.2 fun d hd => hf d ((ha.entries f d).1 hd)

/-- The journal after a method was compiled. -/
def compiled (j : Journal) (c : Call) (s' : Session) : Journal where
  session := s'
  marks := j.session.generator.code.nextHandle :: j.marks
  log := c.callsFrom j.session.generator ++ j.log
  bodies := ((firstAfter? j.session.generator s'.generator).map fun h => (c.name, h)).toList ++ j.bodies

lemma step_compiled (h : j.session.perform c = .ok () s') : j.step c = some (j.compiled c s') := by
  rw [step, h]
  rfl

/-- The body of a compiled method starts with its entry. -/
lemma firstAfter?_eq {b g : Generator} {f? : Option String} {X : Handle → Prop} {new : List Handle}
    (hs : Sound b f? log X new g) : firstAfter? b g = new.head? := by
  have hlen : b.code.length = b.code.live.length := rfl
  rw [firstAfter?, ← Array.getElem?_toList, hlen, show g.code.order.toList = b.code.live ++ new from hs.live,
    List.getElem?_append_right (le_refl _), Nat.sub_self, List.head?_eq_getElem?]

lemma Accounted.step_ok (ha : Accounted j) (hf : ∀ d, (c.name, d) ∉ j.bodies)
    (h : j.session.perform c = .ok () s') : Accounted (j.compiled c s') := by
  obtain ⟨hclosed, hlate⟩ := perform_closed ha.idle ha.tidy h
  have hp := hclosed.pending
  obtain ⟨new, hs⟩ := hclosed.sound
  have hn := hs.named c.name rfl
  have hnone := ha.fresh hf
  have hentry : s'.generator.entries.get? c.name = new.head? ∧ new ≠ [] := by
    rcases hn.opened with ⟨-, he⟩ | ⟨hne, he⟩
    · rw [hp] at he
      cases he
    · exact ⟨he, hne⟩
  have hbodies : ∀ m d, (m, d) ∈ (j.compiled c s').bodies ↔
      m = c.name ∧ new.head? = some d ∨ (m, d) ∈ j.bodies := fun m d => by
    change _ ∈ _ ++ _ ↔ _
    rw [List.mem_append, firstAfter?_eq hs]
    refine or_congr_left ?_
    cases new.head? <;> simp [eq_comm]
  have hentries : ∀ m d, s'.generator.entries.get? m = some d ↔ (m, d) ∈ (j.compiled c s').bodies := fun m d => by
    rw [hbodies]
    by_cases hm : m = c.name
    · subst hm
      rw [hentry.1]
      exact ⟨fun h => .inl ⟨rfl, h⟩, fun h => h.elim And.right fun hb => absurd hb (hf d)⟩
    · rw [Table.get?_of_filter hn.others hm, ha.entries]
      exact ⟨.inr, fun h => h.resolve_left fun h => hm h.1⟩
  refine {
    idle := hclosed.idle ha.idle
    tidy := hclosed.tidy
    entries := hentries
    leads := fun x m i d hm hx hi ht => ?leads
    statics := fun _ => ?statics }
  case leads =>
    rcases hn.leads x m i d hm hx hi ht with ⟨hd, hold | hsome⟩ | he
    · -- An old call that leads to old code is as it was.
      rw [hbodies]
      have hlog : (x, m) ∈ j.log := (List.mem_append.1 hm).resolve_left fun hm =>
        lt_irrefl _ (lt_of_lt_of_le (hs.old hold) (hlate _ hm))
      obtain ⟨i0, hi0⟩ := hs.base.instruction?_isSome hold
      rcases hs.kept x hold i0 hi0 with hk | ⟨-, -, a, ha', hk⟩
      · obtain rfl := some.inj (hi.symm.trans hk)
        exact .inr (ha.leads x m i d hlog hold hi0 ht)
      · obtain rfl := some.inj (hi.symm.trans hk)
        obtain rfl := Target.code.inj ht
        exact absurd (List.mem_of_mem_head? ha') (hs.not_mem_new hd)
    · rw [hnone] at hsome
      cases hsome
    · exact (hentries m d).1 he
  case statics =>
    have hrun := perform_ok h
    exact (staticsFit_congr ((c.ends_emission_level _).of_ok hrun).1.settings).2 ((ends_emission_statics c).of_ok hrun)

/-- A refused method leaves the account as it was. -/
lemma Accounted.step_refused (ha : Accounted j) (hf : ∀ d, (c.name, d) ∉ j.bodies)
    (hfits : j.session.generator.Fits c.name) {cause : CompileError} (h : j.session.perform c = .error (.refused cause) s') :
    Accounted { j with session := s', marks := j.session.generator.code.nextHandle :: j.marks } := by
  obtain ⟨hr, ht⟩ := perform_restored ha.idle ha.tidy hfits (ha.fresh hf) h
  exact {
    idle := idle_perform_refused ha.idle h
    tidy := ht
    entries := fun m d => by rw [hr.entries]; exact ha.entries m d
    leads := fun x m i d hm hx hi => by
      have hx : x ∈ j.session.generator.code.live := hr.live ▸ hx
      exact ha.leads x m i d hm hx ((hr.old x hx).symm.trans hi)
    statics := fun hne =>
      (staticsFit_congr (perform_settings_refused h)).2 (ha.statics (by rw [← hr.live]; exact hne)) }

/-- What stays true with every call, be it compiled or refused. -/
structure Lasting (P : Journal → Prop) : Prop where
  accounted : ∀ j, P j → Accounted j
  compiled : ∀ j c s', P j → (∀ d, (c.name, d) ∉ j.bodies) → j.session.perform c = .ok () s' → P (j.compiled c s')
  refused : ∀ j c s' cause, P j → (∀ d, (c.name, d) ∉ j.bodies) → j.session.generator.Fits c.name →
    j.session.perform c = .error (.refused cause) s' →
    P { j with session := s', marks := j.session.generator.code.nextHandle :: j.marks }

lemma lasting_accounted : Lasting Accounted :=
  ⟨fun _ h => h, fun _ _ _ h => h.step_ok, fun _ _ _ _ h hf hfits => h.step_refused hf hfits⟩

variable {P : Journal → Prop}

lemma Lasting.step (hP : Lasting P) (h : P j) (hf : ∀ d, (c.name, d) ∉ j.bodies)
    (hfits : j.session.generator.Fits c.name) (hj : j.step c = some j') : P j' := by
  unfold Journal.step at hj
  dsimp only at hj
  split at hj
  · next hs =>
    cases hj
    exact hP.compiled j c _ h hf hs
  · next hs =>
    cases hj
    exact hP.refused j c _ _ h hf hfits hs
  · cases hj

/-- **What lasts with every call holds of every run.** -/
lemma Lasting.run {cs : List Call} (hP : Lasting P) (h : P j) (ho : j.Orderly cs) (hj : j.run cs = some j') : P j' := by
  induction cs generalizing j with
  | nil =>
    cases hj
    exact h
  | cons c cs ih =>
    obtain ⟨hf, hfits, hrest⟩ := ho
    obtain ⟨j1, h1, hrun⟩ := bind_eq_some_iff.1 hj
    exact ih (hP.step h hf hfits h1) (hrest j1 h1) hrun

/-- The implicit initializer is a method like others. -/
lemma Lasting.settle (hP : Lasting P) (h : P j) (hj : j.settle? = some j') : P j' := by
  unfold settle? at hj
  split_ifs at hj with hneed
  · cases hj
    exact h
  · split at hj
    · next s' hs =>
      rw [step_compiled hs] at hj
      cases hj
      refine hP.compiled j _ s' h (fun d hd => ?_) hs
      have hsome : j.session.generator.entries.get? initializer = some d := ((hP.accounted j h).entries _ d).2 hd
      simp [isGenerated, Table.contains, hsome] at hneed
    · cases hj

lemma ensureInitializer_of_settle? (h : j.settle? = some j') : j.session.ensureInitializer = .ok () j'.session := by
  unfold settle? at h
  unfold Session.ensureInitializer
  split_ifs at h ⊢
  · cases h
    rfl
  · split at h
    · next s' hs =>
      rw [step_compiled hs] at h
      cases h
      exact hs
    · cases h

lemma settle?_of_ensureInitializer (h : j.session.ensureInitializer = .ok () s') :
    ∃ j', j.settle? = some j' ∧ j'.session = s' := by
  unfold Session.ensureInitializer at h
  unfold settle?
  split_ifs at h ⊢
  · cases h
    exact ⟨j, rfl, rfl⟩
  · have hs : j.session.perform (.initializer []) = .ok () s' := h
    rw [hs]
    exact ⟨_, step_compiled hs, rfl⟩

end Journal

/-! ### Finishing -/

namespace Generator

/-- What follows the search for a missing method. -/
def simplify (statics : List String) (failures : List MethodFailure) (removesDeadCode : Bool) :
    Emission CompiledUnit := do
  if removesDeadCode then modify fun g => g.removeDeadCode.1
  writeOut statics failures

lemma finish_eq (hframe : g.frame = none) (hp : g.pending = []) (choice : Choice) (failures : List MethodFailure) :
    (finish choice failures).run g =
      match g.staticSlots, g.missingMethod? choice with
      | .error cause, _ => .error (.refused cause) g
      | .ok _, some name => .error (.refused (.missingBody name)) g
      | .ok statics, none => (simplify statics failures g.options.removesDeadCode).run g := by
  have hmethod : g.currentMethod? = none := by rw [currentMethod?, hframe]; rfl
  have hclear : { g with pending := [] } = g := by rw [← hp]
  unfold finish
  rw [run_get_bind]
  simp only [hmethod]
  cases hstatics : g.staticSlots with
  | error cause => rfl
  | ok statics =>
    rw [hclear, hp]
    -- what comes before the search leaves the state as it is
    iterate 3
      rw [run_bind]
      change EStateM.run _ g = _
    rw [run_get_bind]
    cases hmissing : g.missingMethod? choice with
    | some name => rfl
    | none =>
      unfold simplify
      cases g.options.removesDeadCode <;> rfl

lemma fitJumps_refused {cause : CompileError} (h : fitJumps.run g = .error (.refused cause) g') :
    ∃ a, cause = .jumpTooFar a := by
  change EStateM.run (if g.options.widenJumps then _ else _) g = _ at h
  split_ifs at h
  · cases h
  · split at h
    · cases h
      exact ⟨_, rfl⟩
    · cases h

/-- After the search for a missing method only a jump that is too long is refused. -/
lemma simplify_refused {statics : List String} {failures : List MethodFailure} {removes : Bool}
    {cause : CompileError} (h : (simplify statics failures removes).run g = .error (.refused cause) g') :
    ∃ a, cause = .jumpTooFar a := by
  have hwrite : ∀ g : Generator, (writeOut statics failures).run g = .error (.refused cause) g' →
      ∃ a, cause = .jumpTooFar a := fun g h => by
    rw [writeOut, run_bind] at h
    split at h
    · next g1 hfit =>
      rw [run_get_bind] at h
      split at h
      · cases h
      · cases h
    · next hfit =>
      cases h
      exact fitJumps_refused hfit
  unfold simplify at h
  cases removes with
  | false => exact hwrite g h
  | true => exact hwrite _ h

/-- A script cannot be finished for want of a method if and only if some call waits. -/
lemma finish_missing_iff (hb : Idle marks g) (ht : Tidy log g) (hs : g.code.live ≠ [] → g.StaticsFit) (choice : Choice)
    (failures : List MethodFailure) :
    (∃ name g', (finish choice failures).run g = .error (.refused (.missingBody name)) g') ↔
      ∃ m h, h ∈ g.waitingOf m := by
  have hframe : g.frame = none := congrArg Prod.fst hb.constructs
  rw [finish_eq hframe ht.pending]
  constructor
  · rintro ⟨name, g', hrun⟩
    by_contra hnone
    have hmissing : g.missingMethod? choice = none :=
      missingMethod?_eq_none_iff.2 fun m => List.eq_nil_iff_forall_not_mem.2 fun h hw => hnone ⟨m, h, hw⟩
    rw [hmissing] at hrun
    cases hstatics : g.staticSlots with
    | error cause =>
      rw [hstatics] at hrun
      cases hrun
      unfold staticSlots at hstatics
      dsimp only at hstatics
      split_ifs at hstatics
      cases hstatics
    | ok names =>
      rw [hstatics] at hrun
      obtain ⟨a, ha⟩ := simplify_refused hrun
      cases ha
  · rintro ⟨m, h, hw⟩
    obtain ⟨names, hnames⟩ := hs (List.ne_nil_of_mem (hb.waiting m h hw).1)
    rw [hnames]
    cases hmissing : g.missingMethod? choice with
    | some name => exact ⟨name, g, rfl⟩
    | none =>
      rw [missingMethod?_eq_none_iff.1 hmissing m] at hw
      cases hw

end Generator

/-- A session is finished, or not, by its generator once static fields are initialized. -/
lemma Session.finish_eq {s s1 : Session} {choice : Choice} (h : s.ensureInitializer = .ok () s1) : s.finish choice =
      match (Generator.finish choice s1.failures).run s1.generator with
      | .ok u g => .ok u { s1 with generator := g }
      | .error fault g => .error fault { s1 with generator := g } := by
  unfold finish
  generalize s.ensureInitializer = outcome at h
  subst h
  rfl

namespace Journal

variable {j : Journal}

/-- The calls that wait are those whose callee has no body, or starts with them. -/
lemma Accounted.waiting_iff (ha : Accounted j) : (∃ m h, h ∈ j.session.generator.waitingOf m) ↔
    ∃ h f, (h, f) ∈ j.log ∧ h ∈ j.session.generator.code.live ∧ ((∀ d, (f, d) ∉ j.bodies) ∨ (f, h) ∈ j.bodies) := by
  constructor
  · rintro ⟨m, h, hw⟩
    refine ⟨h, m, ha.tidy.waiting m h hw, (ha.idle.waiting m h hw).1, ?_⟩
    by_cases hbody : ∃ d, (m, d) ∈ j.bodies
    · obtain ⟨d, hd⟩ := hbody
      obtain rfl := ha.tidy.stuck m d h hw ((ha.entries m d).2 hd)
      exact .inr hd
    · exact .inl fun d hd => hbody ⟨d, hd⟩
  · rintro ⟨h, m, hm, hlive, hcase⟩
    obtain ⟨i, hi⟩ := ha.idle.laid.instruction?_isSome hlive
    have hr : i.opcode.role = .call := role_of_role? hi (ha.tidy.calls h m hm)
    rcases ha.idle.call h hlive i hi hr with ⟨d, -, ht⟩ | ⟨-, m', hw⟩
    · have hd := ha.leads h m i d hm hlive hi ht
      rcases hcase with hnone | hself
      · exact absurd hd (hnone d)
      · -- The body starts with this call, which therefore leads to itself.
        have hsame := ((ha.entries m d).2 hd).symm.trans ((ha.entries m h).2 hself)
        rw [some.injEq] at hsame
        exact absurd (hsame ▸ ht) (ha.tidy.onward h m i hm hlive hi)
    · exact ⟨m', h, hw⟩

/-- In finished code each call leads to the body of its callee. -/
lemma Accounted.finished (ha : Accounted j) {g : Generator} {script : Bytes} (hf : Finished j.session.generator g script) :
    (∀ h ∈ g.code.live, ∀ i, g.code.instruction? h = some i → i.opcode.role = .call → ∃ f, (h, f) ∈ j.log) ∧
    ∀ h f, (h, f) ∈ j.log → h ∈ g.code.live →
      ∃ i d, g.code.instruction? h = some i ∧ i.target = .code d ∧ (f, d) ∈ j.bodies := by
  refine ⟨fun h hm i hi hr => ?_, fun h f hlog hm => ?_⟩
  · obtain ⟨hm', i0, hi0, hr0, -⟩ := hf.instruction ha.idle hm hi
    exact ha.tidy.logged h hm' ((role?_eq hi0).trans (by rw [← hr0, hr]))
  · obtain ⟨i, hi⟩ := hf.laid.instruction?_isSome hm
    obtain ⟨hm', i0, hi0, -, ht, -⟩ := hf.instruction ha.idle hm hi
    have hr : i0.opcode.role = .call :=
      role_of_role? hi0 (ha.tidy.calls h f hlog)
    obtain ⟨d, -, hd⟩ := hf.call ha.idle hm' hi0 hr
    exact ⟨i, d, hi, ht.trans hd, ha.leads h f i0 d hlog hm' hi0 hd⟩

end Journal

/-- **Calls are linked exactly.** Suppose that no method is compiled again after it has a body, that slots can be
reserved, and that the implicit initializer can be compiled if it is needed. Then a session cannot be finished for
want of a method if and only if some call is left whose callee has no body, or which is itself the first instruction
of its callee's body. If the session is finished, each call that is left leads to the first instruction of the body of
the method that it was emitted for. -/
theorem finish_links_calls {symbols : SymbolTable} {options : Options} {trace : Trace} {calls : List Call}
    {j j₁ : Journal} {choice : Choice} (hrun : (Journal.start symbols options trace).run calls = some j)
    (horderly : (Journal.start symbols options trace).Orderly calls) (hinit : j.settle? = some j₁) :
    ((∃ name s, j.session.finish choice = .error (.refused (.missingBody name)) s) ↔
      ∃ h f, (h, f) ∈ j₁.log ∧ h ∈ j₁.session.generator.code.live ∧
        ((∀ d, (f, d) ∉ j₁.bodies) ∨ (f, h) ∈ j₁.bodies)) ∧
    ∀ u s, j.session.finish choice = .ok u s →
      (∀ h ∈ s.generator.code.live, ∀ i, s.generator.code.instruction? h = some i → i.opcode.role = .call →
        ∃ f, (h, f) ∈ j₁.log) ∧
      ∀ h f, (h, f) ∈ j₁.log → h ∈ s.generator.code.live →
        ∃ i d, s.generator.code.instruction? h = some i ∧ i.target = .code d ∧ (f, d) ∈ j₁.bodies := by
  have hrunning := Journal.lasting_accounted.run (Journal.accounted_start symbols options trace) horderly hrun
  have ha := Journal.lasting_accounted.settle hrunning hinit
  have hensure := Journal.ensureInitializer_of_settle? hinit
  have hmissing := finish_missing_iff ha.idle ha.tidy ha.statics choice j₁.session.failures
  rw [ha.waiting_iff] at hmissing
  rw [Session.finish_eq hensure]
  constructor
  · rw [← hmissing]
    constructor
    · rintro ⟨name, s, h⟩
      split at h
      · cases h
      · next hrun =>
        cases h
        exact ⟨name, _, hrun⟩
    · rintro ⟨name, g, h⟩
      rw [h]
      exact ⟨name, _, rfl⟩
  · intro u s h
    split at h
    · next hrun =>
      cases h
      exact ha.finished ((ends_finish ha.idle _).of_ok hrun)
    · cases h

/-- A method that starts with a call of itself has a body and cannot be finished; behind a branch, a call of a method
that is compiled later leads to its body. -/
theorem finish_links_calls_recursive :
    (∃ j, (Journal.start callerAndCallee { level := .none } {}).run
        [.method "caller" [.call "caller", .returnFrom true]] = some j ∧ j.bodies = [("caller", 0)] ∧
      ∃ name s, j.session.finish = .error (.refused (.missingBody name)) s) ∧
    ∃ j u s i d, (Journal.start callerAndCallee { level := .none } {}).run nestedCalls = some j ∧
      j.log = [(3, "callee")] ∧ j.session.finish = .ok u s ∧ s.generator.code.instruction? 3 = some i ∧
      i.target = .code d ∧ ("callee", d) ∈ j.bodies := by
  have hsettle : ∀ j : Journal, j.session.generator.statics.isEmpty = true → j.settle? = some j := fun j h => by
    rw [Journal.settle?, h]
    rfl
  constructor
  · have hsome : (((Journal.start callerAndCallee { level := .none } {}).run
        [.method "caller" [.call "caller", .returnFrom true]]).filter fun j =>
          j.bodies = [("caller", 0)] ∧ j.log = [(0, "caller")] ∧ j.session.generator.code.live = [0, 1] ∧
            j.session.generator.statics.isEmpty = true).isSome = true := by decide +kernel
    have horderly := Journal.orderly_of_isOrderly (.start callerAndCallee { level := .none } {})
      [.method "caller" [.call "caller", .returnFrom true]] (by decide +kernel)
    obtain ⟨j, h⟩ := Option.isSome_iff_exists.1 hsome
    obtain ⟨hrun, h⟩ := Option.filter_eq_some_iff.1 h
    obtain ⟨hbodies, hlog, hlive, hstatics⟩ := of_decide_eq_true h
    refine ⟨j, hrun, hbodies, (finish_links_calls hrun horderly (hsettle j hstatics)).1.2 ⟨0, "caller", ?_, ?_, .inr ?_⟩⟩
    · rw [hlog]
      exact List.mem_cons_self
    · rw [hlive]
      exact List.mem_cons_self
    · rw [hbodies]
      exact List.mem_cons_self
  · have hsome : ((Journal.start callerAndCallee { level := .none } {}).run nestedCalls |>.bind fun j =>
        (j.unit?.filter fun e => j.log = [(3, "callee")] ∧ 3 ∈ e.2.generator.code.live ∧
          j.session.generator.statics.isEmpty = true)).isSome = true := by decide +kernel
    have horderly := Journal.orderly_of_isOrderly (.start callerAndCallee { level := .none } {})
      nestedCalls (by decide +kernel)
    obtain ⟨⟨u, s⟩, h⟩ := Option.isSome_iff_exists.1 hsome
    obtain ⟨j, hrun, h⟩ := Option.bind_eq_some_iff.1 h
    obtain ⟨hunit, h⟩ := Option.filter_eq_some_iff.1 h
    obtain ⟨hlog, hlive, hstatics⟩ := of_decide_eq_true h
    have hfinish := Journal.finish_of_unit? hunit
    obtain ⟨i, d, hi, ht, hd⟩ := ((finish_links_calls hrun horderly (hsettle j hstatics)).2 u s hfinish).2 3 "callee"
      (by rw [hlog]; exact List.mem_cons_self) hlive
    exact ⟨j, u, s, i, d, hrun, hlog, hfinish, hi, ht, hd⟩

end NeoScript
