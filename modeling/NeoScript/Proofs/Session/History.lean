import NeoScript.Proofs.Session.Rollback

/-!
# Runs lead from calls to calls

What one call keeps, every run of calls keeps: between calls nothing is open, whatever was compiled, refused and
taken back before.
-/

namespace NeoScript

open Generator Command

variable {marks : List Handle} {g : Generator} {f? : Option String} {log : List (Handle × String)}

/-! ### One call -/

namespace Call

lemma ends_opening {c : Call} (hs : Sound g f? log (fun _ => False) [] (g.opened c.name))
    (hname : ∀ f, f? = some f → c.name = f) : Ends c.opening g (fun _ => Ready g f? log)
      fun g' => g' = g ∨ g' = g.opened c.name ∧ ¬ g.Fits c.name ∨ Refused g f? log g' := by
  refine ((ends_openMethod hs hname).mono (fun _ _ h => h) fun g' h => ?_).bind fun _ g1 h1 => ?_
  · exact h.imp_right .inl
  · refine Ends.mono (Q := Halted g f? log) ?_ (fun _ _ h => h) fun g' h => .inr (.inr ⟨[], by simp, h⟩)
    cases c with
    | method name body => exact .pure h1
    | initializer body => exact .get ((straight_storeConstants (P := fun _ => True) _).ready h1)

/-- **A call compiles its method, or what it leaves behind can be taken back.** -/
lemma ends_emission {c : Call} (hs : Sound g f? log (fun _ => False) [] (g.opened c.name))
    (hname : ∀ f, f? = some f → c.name = f) : Ends c.emission g
      (fun _ g' => Closed g f? (c.callsFrom g ++ log) g' ∧ ∀ e ∈ c.callsFrom g, g.code.nextHandle ≤ e.1)
      fun g' => g' = g ∨ g' = g.opened c.name ∧ ¬ g.Fits c.name ∨ Refused g f? log g' := by
  refine (ends_opening hs hname).remember.bind fun _ g1 ⟨hopen, h1⟩ => ?_
  have hcalls : c.callsFrom g = callsOf c.body g1 := by rw [callsFrom, hopen]
  rw [hcalls]
  refine ((ends_runAll c.body h1).mono (fun _ _ h => h) fun g' h => .inr (.inr h)).bind fun _ g2 h2 => ?_
  refine (ends_closeMethod h2.1).mono (fun _ g' h => ⟨h, h2.2⟩) fun g' h => .inr (.inr ⟨_, h2.2, h⟩)

end Call

/-! ### Runs of calls -/

namespace Generator

/-- A call that starts now has emitted nothing. -/
lemma Idle.mark (hb : Idle marks g) : Idle (g.code.nextHandle :: marks) g :=
  { hb with
    started := fun x hx => by
      rcases List.mem_cons.1 hx with rfl | hx
      · exact Nat.le_refl _
      · exact hb.started x hx
    leap := fun h hm i hi hr => by
      obtain ⟨d, hd, ht, htog⟩ := hb.leap h hm i hi hr
      exact ⟨d, hd, ht, htog.old hb.laid hm hd⟩
    protect := fun h hm i hi hr => by
      obtain ⟨e, f, ht, hd⟩ := hb.protect h hm i hi hr
      exact ⟨e, f, ht, fun d hdm => ⟨(hd d hdm).1, (hd d hdm).2.old hb.laid hm (hd d hdm).1⟩⟩ }

lemma Idle.sound_opened (hb : Idle marks g) (name : String) : Sound g none [] (fun _ => False) [] (g.opened name) := by
  refine hb.sound rfl rfl rfl rfl (fun l hl => ?_) nofun
  rcases List.mem_append.1 hl with hl | hl
  · exact hb.links l hl
  · exact ⟨name, List.mem_singleton.1 hl⟩

lemma idle_start (symbols : SymbolTable) (options : Options) (trace : Trace) :
    Idle [] (Generator.start symbols options trace) where
  laid := CodeMap.laid_empty
  constructs := rfl
  started := nofun
  links := nofun
  plain := nofun
  narrow := nofun
  leap := nofun
  protect := nofun
  call := nofun
  entries := nofun
  waiting := nofun
  once := nofun
  ends := nofun

end Generator

namespace Session

/-- A method that is compiled leads from a state between calls to a state between calls. -/
lemma idle_perform_ok {s s' : Session} {c : Call} (hb : Idle marks s.generator) (hs : s.perform c = .ok () s') :
    Idle (s.generator.code.nextHandle :: marks) s'.generator := by
  have hends := Call.ends_emission (c := c) (hb.sound_opened c.name) nofun
  exact (hends.of_ok (perform_ok hs)).1.idle hb

/-- So does a method that is refused. -/
lemma idle_perform_refused {s s' : Session} {c : Call} {cause : CompileError} (hb : Idle marks s.generator)
    (hs : s.perform c = .error (.refused cause) s') : Idle (s.generator.code.nextHandle :: marks) s'.generator := by
  have hends := Call.ends_emission (c := c) (hb.sound_opened c.name) nofun
  obtain ⟨g, hrun, heq⟩ := perform_refused hs
  rw [heq]
  rcases hends.of_refused hrun with rfl | ⟨rfl, -⟩ | ⟨more, -, -, X, new, hs⟩
  · exact hb.rollback hb.sound_self
  · exact hb.rollback (hb.sound_opened c.name)
  · exact hb.rollback hs

end Session

namespace Journal

lemma idle_step {j j' : Journal} {c : Call} (hb : Idle j.marks j.session.generator) (hj : j.step c = some j') :
    Idle j'.marks j'.session.generator := by
  unfold step at hj
  dsimp only at hj
  split at hj
  · next hs =>
    cases hj
    exact Session.idle_perform_ok hb hs
  · next hs =>
    cases hj
    exact Session.idle_perform_refused hb hs
  · cases hj

/-- Whatever is compiled, a session is between calls after each call. -/
lemma idle_run {j j' : Journal} {cs : List Call} (hb : Idle j.marks j.session.generator)
    (hj : j.run cs = some j') : Idle j'.marks j'.session.generator := by
  induction cs generalizing j with
  | nil =>
    cases hj
    exact hb
  | cons c cs ih =>
    obtain ⟨j1, h1, hrun⟩ := Option.bind_eq_some_iff.1 hj
    exact ih (idle_step hb h1) hrun

end Journal

end NeoScript
