import NeoScript.Proofs.Session.Agreement
import NeoScript.Proofs.Session.Completion

/-!
# Refused methods leave no trace

A session with a refused call and one without it differ in their handles, for those that the refused method had used
are not used again. Between calls this makes them twins, so everything that follows goes the same way in both, up to the
finished unit.
-/

namespace NeoScript

open Generator Journal List

namespace Generator

variable {ρ : Handle ↪o Handle} {b : Outset} {g g' : Generator} {marks marks' : List Handle}

/-! ### Taking a method back -/

/-- The renaming of twins whose second has used the handles up to `n'`, the first those up to `n`. -/
def rebased (ρ : Handle ↪o Handle) (n n' : Nat) (h : ∀ x < n, ρ x < n') : Handle ↪o Handle :=
  OrderEmbedding.ofStrictMono (fun x : Nat => if x < n then ρ x else n' + (x - n)) fun x y (hxy : (x : Nat) < y) => by
    by_cases hy : y < n
    · have hx : x < n := Nat.lt_trans hxy hy
      simp only [hx, hy, if_true]
      exact ρ.lt_iff_lt.2 hxy
    · by_cases hx : x < n
      · simp only [hx, hy, if_true, if_false]
        exact Nat.lt_of_lt_of_le (h x hx) (Nat.le_add_right _ _)
      · simp only [hx, hy, if_false]
        exact Nat.add_lt_add_left (Nat.sub_lt_sub_right (Nat.not_lt.1 hx) hxy) n'

section

variable {n n' : Nat} {hold : ∀ x < n, ρ x < n'}

lemma rebased_old {x : Handle} (hx : x < n) : rebased ρ n n' hold x = ρ x := if_pos hx

lemma rebased_next (k : Nat) : rebased ρ n n' hold (n + k) = n' + k := by
  change (if n + k < n then _ else n' + (n + k - n)) = _
  rw [if_neg (by omega), Nat.add_sub_cancel_left]

end

/-- The generator `r` is `b` but for handles that were used since. -/
structure Retracted (b r : Generator) : Prop extends Restored b r where
  laid : r.code.Laid
  next : b.code.nextHandle ≤ r.code.nextHandle
  pending : r.pending = b.pending
  fresh : ∀ k, r.stack.recorded? (r.code.nextHandle + k) = none
  settings : r.settings = b.settings
  items : r.stack.items = b.stack.items
  scopes : r.scopes = b.scopes
  tokens : r.tokens = b.tokens
  constructs : r.constructs = b.constructs

/-- **Twins stay twins if a method is taken back in one of them.** -/
lemma Twins.retract {r : Generator} (ht : Twins ρ g g') (hi : Idle marks g') (hp : g'.pending = [])
    (hr : Retracted g' r) : ∃ σ, Twins σ g r := by
  have hold : ∀ x < g.code.nextHandle, ρ x < r.code.nextHandle := fun x hx => by
    refine Nat.lt_of_lt_of_le ?_ hr.next
    rw [ht.code.nextHandle]
    exact ρ.lt_iff_lt.2 hx
  -- On live handles, which are all that links, entries and waiting calls have, the renaming is as it was.
  have hlive : ∀ x ∈ g.code.live, rebased ρ _ _ hold x = ρ x := fun x hx => rebased_old (ht.code.laid.bound x hx)
  have hnone : g.pending = [] := map_eq_nil_iff.1 (ht.pending.symm.trans hp)
  have hconstructs : g'.constructs = (none, [], [], [], []) := hi.constructs
  have hconstructs' : r.constructs = (none, [], [], [], []) := hr.constructs.trans hi.constructs
  simp only [constructs, Prod.mk.injEq] at hconstructs hconstructs'
  obtain ⟨hframe, hbranches, hloops, hguards, htries⟩ := hconstructs
  obtain ⟨hframe', hbranches', hloops', hguards', htries'⟩ := hconstructs'
  refine ⟨rebased ρ _ _ hold, ?_⟩
  refine {
    code := {
      laid := ht.code.laid
      laid' := hr.laid
      next := fun k => rebased_next k
      live := ?live
      known := fun h i hh hi' => ?known }
    base := Nat.le_refl _
    pending := by rw [hr.pending, hp, hnone]; rfl
    entries := ?entries
    waiting := fun m x => ?waiting
    recorded := fun h hh => ?recorded
    floor := fun _ h => by cases h
    fresh := ht.fresh
    context := ?context }
  case live =>
    rw [hr.live, ht.code.live]
    exact (map_congr_left hlive).symm
  case known =>
    rcases hh with hh | hh
    · obtain ⟨i', hi'', hs⟩ := ht.code.known h i (.inl hh) hi'
      have hmem : ρ h ∈ g'.code.live := ht.code.mem.2 hh
      refine ⟨i', ?_, hs.congr fun d hd => hlive d (ht.code.mem.1 (hi.closed _ hmem i' hi'' _ ?_))⟩
      · rw [hlive h hh, hr.old _ hmem, hi'']
      · rw [hs.refs]
        exact mem_map_of_mem hd
    · rw [CodeMap.instruction?, Array.getElem?_eq_none hh] at hi'
      cases hi'
  case entries =>
    rw [hr.entries, ht.entries]
    refine map_congr_left fun e he => ?_
    have hentry : g'.entries.get? e.1 = some (ρ e.2) := by rw [ht.entry, Table.get?_eq_some_iff.2 he]; rfl
    rw [hlive e.2 (ht.code.mem.1 (hi.entries _ _ hentry))]
  case waiting =>
    rw [hr.waiting, ht.waiting]
    refine exists_congr fun h => and_congr_right fun hh => ?_
    have hmem : ρ h ∈ g'.waitingOf m := (ht.waiting m _).2 ⟨h, hh, rfl⟩
    rw [hlive h (ht.code.mem.1 (hi.waiting m _ hmem).1)]
  case recorded =>
    obtain ⟨k, rfl⟩ := Nat.exists_eq_add_of_le (hh.resolve_right (by simp))
    exact (congrArg r.stack.recorded? (rebased_next k)).trans ((hr.fresh k).trans (ht.fresh k).symm)
  case context =>
    have hc := ht.context
    have hempty : g.branches = [] ∧ g.loops = [] ∧ g.elseGuards = [] ∧ g.tries = [] :=
      ⟨map_eq_nil_iff.1 (hc.branches.symm.trans hbranches), map_eq_nil_iff.1 (hc.loops.symm.trans hloops),
        map_eq_nil_iff.1 (hc.elseGuards.symm.trans hguards), map_eq_nil_iff.1 (hc.tries.symm.trans htries)⟩
    exact {
      symbols := (congrArg Prod.fst hr.settings).trans hc.symbols
      options := by rw [show r.options = g'.options from congrArg Prod.snd hr.settings]; exact hc.options
      items := hr.items.trans hc.items
      frame := hframe'.trans (hframe.symm.trans hc.frame)
      scopes := hr.scopes.trans hc.scopes
      tokens := hr.tokens.trans hc.tokens
      branches := by rw [hbranches', hempty.1]; rfl
      loops := by rw [hloops', hempty.2.1]; rfl
      elseGuards := by rw [hguards', hempty.2.2.1]; rfl
      tries := by rw [htries', hempty.2.2.2]; rfl
      started := fun l hl => by rw [hempty.2.1] at hl; cases hl }

end Generator

namespace Session

variable {s s' t t' : Session} {c : Call} {marks : List Handle} {log : List (Handle × String)}

/-- A refused method leaves only used handles behind, if it has no other body and its slots can be reserved. -/
lemma perform_retracted {cause : CompileError} (hb : Idle marks s.generator) (ht : Tidy log s.generator)
    (hscopes : s.generator.scopes = []) (hfits : s.generator.Fits c.name)
    (hfresh : s.generator.entries.get? c.name = none) (h : s.perform c = .error (.refused cause) s') :
    Retracted s.generator s'.generator := by
  obtain ⟨hr, htidy⟩ := perform_restored hb ht hfits hfresh h
  have hidle := idle_perform_refused hb h
  obtain ⟨g, hrun, heq⟩ := perform_refused h
  have hextends := (c.ends_emission_level s.generator).of_refused hrun
  refine {
    toRestored := hr
    laid := hidle.laid
    next := hidle.started _ List.mem_cons_self
    pending := htidy.pending.trans ht.pending.symm
    fresh := fun k => ?fresh
    settings := perform_settings_refused h
    items := by rw [heq]; rfl
    scopes := ?scopes
    tokens := ?tokens
    constructs := hidle.constructs.trans hb.constructs.symm }
  case fresh =>
    rw [heq] at hidle ⊢
    exact recorded?_rollback hidle.laid _ _ (Nat.le_add_right _ _)
  case scopes =>
    rw [heq, hscopes]
    change outermost s.generator.scopes.length _ = []
    rw [hscopes]
    exact outermost_zero _
  case tokens =>
    rw [heq]
    exact tokens_rollback hextends.tokens

/-! ### Sessions without their refused calls -/

/-- The calls that are not refused, in a run that comes next. -/
def accepted (s : Session) : List Call → List Call
  | [] => []
  | c :: cs =>
    match s.perform c with
    | .ok _ s' => c :: s'.accepted cs
    | .error (.refused _) s' => s'.accepted cs
    | .error .misuse _ => []

/-- Each method that is refused, in a run that comes next, has no body, and its slots can be reserved. -/
def Retractable (s : Session) : List Call → Prop
  | [] => True
  | c :: cs =>
    match s.perform c with
    | .ok _ s' => s'.Retractable cs
    | .error (.refused _) s' =>
      s.generator.isGenerated c.name = false ∧ s.generator.Fits c.name ∧ s'.Retractable cs
    | .error .misuse _ => True

/-- A check that refused methods can be taken back. -/
def isRetractable (s : Session) : List Call → Bool
  | [] => true
  | c :: cs =>
    match s.perform c with
    | .ok _ s' => s'.isRetractable cs
    | .error (.refused _) s' =>
      !s.generator.isGenerated c.name &&
        (s.generator.symbols.methods.get? c.name).all (fun m => m.locals.size ≤ 255 ∧ m.argSlots ≤ 255) &&
        s'.isRetractable cs
    | .error .misuse _ => true

lemma retractable_of_isRetractable (s : Session) (cs : List Call) (h : s.isRetractable cs = true) : s.Retractable cs := by
  induction cs generalizing s with
  | nil => trivial
  | cons c cs ih =>
    unfold isRetractable at h
    unfold Retractable
    split
    · next s' hs =>
      rw [hs] at h
      exact ih s' h
    · next s' hs =>
      rw [hs] at h
      simp only [Bool.and_eq_true, Bool.not_eq_true', Option.all_eq_true, decide_eq_true_eq] at h
      exact ⟨h.1.1, fun m hm => h.1.2 m hm, ih s' h.2⟩
    · trivial

/-- What finishing a session gives, but for the methods that were left out. -/
def result (s : Session) (choice : Choice) : Except Fault CompiledUnit :=
  match s.finish choice with
  | .ok u _ => .ok { u with failures := [] }
  | .error fault _ => .error fault

/-- The session `s` has gone through the calls of `s'` without those that were refused. -/
structure Purged (s s' : Session) : Prop extends Paired s s' where
  settings : s'.generator.settings = s.generator.settings
  tidy : ∃ log, Tidy log s'.generator
  scopes : s'.generator.scopes = []
  failures : s.failures = []

lemma purged_start (symbols : SymbolTable) (options : Options) (trace : Trace) :
    Purged (start symbols options trace) (start symbols options trace) where
  toPaired := paired_start symbols options options.widenJumps trace
  settings := rfl
  tidy := ⟨_, (accounted_start symbols options trace).tidy⟩
  scopes := rfl
  failures := rfl

/-- What is compiled in the one session is compiled in the other. -/
lemma Purged.perform_ok (hp : Purged s s') (h' : s'.perform c = .ok () t') :
    ∃ t, s.perform c = .ok () t ∧ Purged t t' := by
  obtain ⟨marks', hi'⟩ := hp.idle'
  obtain ⟨log, htidy⟩ := hp.tidy
  have hsame := hp.toPaired.perform c
  rw [h'] at hsame
  generalize h : s.perform c = r at hsame
  cases hsame with
  | @ok t _ ht =>
    have hlevel := (c.ends_emission_level _).of_ok (Session.perform_ok h)
    have hlevel' := (c.ends_emission_level _).of_ok (Session.perform_ok h')
    have hregions : s'.generator.regions = 0 := by
      have hconstructs := hi'.constructs
      simp only [constructs, Prod.mk.injEq] at hconstructs
      rw [regions, hconstructs.2.1, hconstructs.2.2.1]
      rfl
    exact ⟨t, rfl, {
      toPaired := ht
      settings := hlevel'.1.settings.trans (hp.settings.trans hlevel.1.settings.symm)
      tidy := ⟨_, (perform_closed hi' htidy h').1.tidy⟩
      scopes := hlevel'.2 hp.scopes hregions
      failures := (failures_ok h).trans hp.failures }⟩

lemma Purged.refused {cause : CompileError} (hp : Purged s s') (hfresh : s'.generator.isGenerated c.name = false)
    (hfits : s'.generator.Fits c.name) (h : s'.perform c = .error (.refused cause) t') : Purged s t' := by
  obtain ⟨ρ, ht⟩ := hp.twins
  obtain ⟨marks', hi'⟩ := hp.idle'
  obtain ⟨log, htidy⟩ := hp.tidy
  have hnone : s'.generator.entries.get? c.name = none := by
    simpa [isGenerated, Table.contains] using hfresh
  have hr := perform_retracted hi' htidy hp.scopes hfits hnone h
  exact {
    twins := ht.retract hi' htidy.pending hr
    idle := hp.idle
    idle' := ⟨_, idle_perform_refused hi' h⟩
    settings := hr.settings.trans hp.settings
    tidy := ⟨log, (perform_restored hi' htidy hfits hnone h).2⟩
    scopes := hr.scopes.trans hp.scopes
    failures := hp.failures }

/-- **A run and the run without its refused calls lead to such sessions.** -/
lemma Purged.run {j j' k' : Journal} {cs : List Call} (hp : Purged j.session j'.session)
    (hr : j'.session.Retractable cs) (hrun : j'.run cs = some k') :
    ∃ k, j.run (j'.session.accepted cs) = some k ∧ Purged k.session k'.session := by
  induction cs generalizing j j' with
  | nil =>
    cases hrun
    exact ⟨j, rfl, hp⟩
  | cons c cs ih =>
    obtain ⟨j1, hstep, hrest⟩ := Option.bind_eq_some_iff.1 hrun
    rw [Retractable] at hr
    rw [accepted]
    cases h' : j'.session.perform c with
    | ok a t' =>
      rw [h'] at hr
      rw [step_compiled h'] at hstep
      cases hstep
      obtain ⟨t, h, ht⟩ := hp.perform_ok h'
      have hsame : Purged (j.compiled c t).session (j'.compiled c t').session := ht
      obtain ⟨k, hk, hpk⟩ := ih hsame hr hrest
      refine ⟨k, ?_, hpk⟩
      change (j.step c).bind _ = _
      rwa [step_compiled h]
    | error fault t' =>
      rw [Journal.step, h'] at hstep
      rw [h'] at hr
      cases fault with
      | misuse => cases hstep
      | refused cause =>
        cases hstep
        exact ih (hp.refused hr.1 hr.2.1 h') hr.2.2 hrest

lemma result_of_prepared {marks : List Handle} (hi : Idle marks s.generator) {c : Choice} {fault : Fault}
    (h : s.prepared c = .error fault) : s.result c = .error fault := by
  have hfinish := finish_prepared hi c
  rw [h] at hfinish
  obtain ⟨t, ht⟩ := hfinish
  rw [result, ht]

/-- **Such sessions give the same result.** -/
lemma Purged.result_alike (hp : Purged s s') (c c' : Choice) :
    (∃ u, s'.result c = .ok u ∧ s.result c' = .ok u) ∨ StopAlike s'.result s.result c c' := by
  obtain ⟨⟨_, hi⟩, ⟨_, hi'⟩⟩ := And.intro hp.idle hp.idle'
  rcases hp.toPaired.prepared c' c with hstop | ⟨statics, k, k', ρ, b, h, h', ha, ho, ho'⟩
  · exact .inr (hstop.symm.map (result_of_prepared hi') (result_of_prepared hi))
  · have hfinish := finish_prepared hi c'
    have hfinish' := finish_prepared hi' c
    rw [h] at hfinish
    rw [h'] at hfinish'
    have hoptions : k'.options = k.options := ho'.trans ((congrArg Prod.snd hp.settings).trans ho.symm)
    have hagree := agree_writeOut ha hoptions statics s.failures s'.failures
    dsimp only at hfinish hfinish'
    unfold result
    rw [Agree] at hagree
    generalize (writeOut statics s.failures).run k = r at hagree hfinish
    generalize (writeOut statics s'.failures).run k' = r' at hagree hfinish'
    cases hagree with
    | ok hu _ =>
      obtain ⟨v, rfl, rfl⟩ := hu
      exact .inl ⟨{ v with failures := [] }, by rw [hfinish']; rfl, by rw [hfinish]; rfl⟩
    | refused _ | misuse => exact .inr (.same (by rw [hfinish']; rfl) (by rw [hfinish]; rfl))

end Session

/-- **Refused methods leave no trace.** Suppose that no method is refused that has a body already, or whose slots cannot
be reserved. Then the calls that were not refused make up a run of their own, in which none is refused, and finishing it
gives the same unit, or the same cause why there is none, up to the choice which of several missing methods is reported.
It is no misuse, unless the script is too long, or an initial constant that is too long has to be stored. -/
theorem refused_methods_leave_no_trace {symbols : SymbolTable} {options : Options} {trace : Trace} {calls : List Call}
    {j : Journal} (hrun : (Journal.start symbols options trace).run calls = some j)
    (hretractable : (Session.start symbols options trace).Retractable calls) :
    ∃ j', (Journal.start symbols options trace).run ((Session.start symbols options trace).accepted calls) = some j' ∧
      j'.session.failures = [] ∧
      ∀ c, (∀ c', (∃ u, j.session.result c = .ok u ∧ j'.session.result c' = .ok u) ∨
          StopAlike j.session.result j'.session.result c c') ∧
        ∀ s, j.session.finish c = .error .misuse s → 2 ^ 31 ≤ s.generator.code.size ∨
          ∃ e ∈ Session.constants j.session.generator, ∃ bytes ∈ e.2.payloads, 2 ^ 32 ≤ bytes.length := by
  have hstart : Session.Purged (Journal.start symbols options trace).session
      (Journal.start symbols options trace).session := Session.purged_start symbols options trace
  obtain ⟨j', hj', hp⟩ := hstart.run hretractable hrun
  obtain ⟨marks, hidle⟩ := hp.idle'
  obtain ⟨log, htidy⟩ := hp.tidy
  exact ⟨j', hj', hp.failures, fun c => ⟨hp.result_alike c, fun s hs => Session.finish_guarded hidle htidy hs⟩⟩

/-- A method that calls another one. -/
def callingMethod : Call := .method "caller" [.call "callee", .returnFrom true]

/-- The other method, with a branch that is left open and a call of itself. -/
def openEndedCallee : Call :=
  .method "callee" [.literal (.bool true), .beginIf, .call "callee", .returnFrom true]

/-- The other method. -/
def properCallee : Call := .method "callee" [.integer 3, .returnFrom true]

/-- A method that was called already is refused in a branch and then compiled. -/
theorem refused_methods_leave_no_trace_retried :
    ∃ j j', (Journal.start callerAndCallee { level := .none } {}).run
        [callingMethod, openEndedCallee, properCallee] = some j ∧ j.session.failures.length = 1 ∧
      (Journal.start callerAndCallee { level := .none } {}).run [callingMethod, properCallee] = some j' ∧
      j'.session.failures = [] ∧ ∃ u, j'.session.result .first = .ok u ∧ ∀ c, j.session.result c = .ok u := by
  -- What the kernel can evaluate, which is all but the state that a refused method leaves.
  have hkept : ((Journal.start callerAndCallee { level := .none } {}).run [callingMethod, properCallee]).all
      fun j' => (j'.session.result .first).toBool = true := by decide +kernel
  have heval : (match (Session.start callerAndCallee { level := .none } {}).perform callingMethod with
      | .ok _ s₁ =>
        match s₁.perform openEndedCallee, s₁.perform properCallee with
        | .error (.refused _) _, .ok _ _ => s₁.failures.isEmpty && s₁.isRetractable [openEndedCallee]
        | _, _ => false
      | _ => false) = true := by decide +kernel
  split at heval
  · next s₁ h₁ =>
    split at heval
    · next s₂ _ s₃ h₂ h₃ =>
      rw [Bool.and_eq_true, List.isEmpty_iff] at heval
      have hfresh := Session.retractable_of_isRetractable _ _ heval.2
      rw [Session.Retractable, h₂] at hfresh
      obtain ⟨s, hs, hp₁⟩ := (Session.purged_start callerAndCallee { level := .none } {}).perform_ok h₁
      cases h₁.symm.trans hs
      have hsame := (hp₁.refused hfresh.1 hfresh.2.1 h₂).toPaired.perform properCallee
      rw [h₃] at hsame
      generalize h₄ : s₂.perform properCallee = r at hsame
      cases hsame with
      | @ok _ t _ =>
        have hretractable : (Session.start callerAndCallee { level := .none } {}).Retractable
            [callingMethod, openEndedCallee, properCallee] := by
          simp only [Session.Retractable, h₁, h₂, h₄]
          exact ⟨hfresh.1, hfresh.2.1, trivial⟩
        have haccepted : (Session.start callerAndCallee { level := .none } {}).accepted
            [callingMethod, openEndedCallee, properCallee] = [callingMethod, properCallee] := by
          simp only [Session.accepted, h₁, h₂, h₄]
        obtain ⟨j, hrun, hj⟩ : ∃ j, (Journal.start callerAndCallee { level := .none } {}).run
            [callingMethod, openEndedCallee, properCallee] = some j ∧ j.session = t := by
          simp only [Journal.run, Journal.step, Journal.start, h₁, h₂, h₄, Option.bind_some]
          exact ⟨_, rfl, rfl⟩
        have hpurged := refused_methods_leave_no_trace hrun
        obtain ⟨j', hj', hnone, hresult⟩ := hpurged hretractable
        rw [haccepted] at hj'
        rw [hj', Option.all_some, decide_eq_true_eq] at hkept
        have hone : j.session.failures.length = 1 := by
          rw [hj, Session.failures_ok h₄, Session.failures_refused h₂, heval.1]
          rfl
        cases hunit : j'.session.result .first with
        | error fault =>
          rw [hunit] at hkept
          cases hkept
        | ok u =>
          refine ⟨j, j', hrun, hone, hj', hnone, u, hunit, fun c => ?_⟩
          rcases (hresult c).1 .first with ⟨v, hv, hv'⟩ | hstop
          · exact hv.trans (hv'.symm.trans hunit)
          · obtain ⟨_, -, _, h⟩ := hstop.faults
            cases hunit.symm.trans h
    · cases heval
  · cases heval

end NeoScript
