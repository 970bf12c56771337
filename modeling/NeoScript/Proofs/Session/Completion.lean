import NeoScript.Proofs.CodeMap.LeastWidening
import NeoScript.Proofs.Script.RoundTrip
import NeoScript.Proofs.Session.Calls

/-!
# Finishing is not a misuse

Whatever is left of a session, finishing it gives a unit or a cause why there is none, unless the script grows to
`2 ^ 31` bytes, where distances have no four-byte form, or the implicit initializer has to push `2 ^ 32` bytes at once.
-/

namespace NeoScript

open Generator Option Instruction List

/-! ### Code that can be written -/

namespace CodeMap

variable {m : CodeMap} {h : Handle}

lemma Laid.start?_add_size_le (hl : m.Laid) {a : Nat} {i : Instruction} (hs : m.start? h = some a)
    (hi : m.instruction? h = some i) : a + i.size ≤ m.size := by
  obtain ⟨pre, post, hsplit⟩ := append_of_mem (hl.start?_isSome_iff.1 (by rw [hs]; rfl))
  have ha : a = span m.arena pre := some.inj (hs.symm.trans (hl.start?_split hsplit))
  have hsize : sizeOf m.arena h = i.size := by rw [sizeOf, show m.arena[h]? = some i from hi]; rfl
  rw [hl.size, hsplit, span_append, span_cons, ha, hsize]
  omega

/-- Distances are no longer than the script. -/
lemma Laid.offset_le (hl : m.Laid) {o : Int} (ho : o ∈ m.offsets h) : -(m.size : Int) ≤ o ∧ o ≤ m.size := by
  have hstart : ∀ {x a}, m.start? x = some a → a ≤ m.size := fun {x a} hs => by
    obtain ⟨i, hi⟩ := hl.instruction?_isSome (hl.start?_isSome_iff.1 (by rw [hs]; rfl))
    exact Nat.le_trans (Nat.le_add_right _ _) (hl.start?_add_size_le hs hi)
  unfold offsets at ho
  split at ho
  · next a t hs ht =>
    have ha := hstart hs
    have hrelative : ∀ (dest : Option Handle) {o : Int},
        o = m.relative a dest →
        -(m.size : Int) ≤ o ∧ o ≤ m.size := fun dest o ho => by
      unfold relative at ho
      split at ho
      · next b hd =>
        obtain ⟨d, -, hb⟩ := bind_eq_some_iff.1 hd
        have hb := hstart hb
        have ho : o = (b : Int) - (a : Int) := ho
        omega
      · omega
    cases t with
    | unresolved =>
      have ho : o = 0 := mem_singleton.1 ho
      omega
    | code d => exact hrelative (some d) (mem_singleton.1 ho)
    | scriptEnd =>
      have ho : o = (m.size : Int) - a := mem_singleton.1 ho
      omega
    | handlers e f =>
      rcases mem_cons.1 ho with ho | ho
      · exact hrelative e ho
      · exact hrelative f (mem_singleton.1 ho)
  · cases ho

lemma wide?_of_offsetWidth {o : Opcode} (ht : o.hasTarget = true) (h : offsetWidth o = 1) : ∃ w, o.wide? = some w := by
  cases o with
  | jump _ far | call far | tryLeave far | tryEnter far =>
    cases far with
    | true => cases h
    | false => exact ⟨_, rfl⟩
  | load _ slot | store _ slot => cases slot <;> cases ht
  | _ => cases ht

lemma hasTarget_of_mem_offsets {i : Instruction} {o : Int} (hi : m.instruction? h = some i) (ho : o ∈ m.offsets h) :
    i.opcode.hasTarget = true := by
  unfold offsets CodeMap.target? at ho
  rw [hi, Option.bind_some, Instruction.target?] at ho
  split_ifs at ho with ht
  · exact ht
  · split at ho
    · next hnone => cases hnone
    · cases ho

/-- A closed map whose one-byte offsets fit can be written if it is not too long. -/
lemma Laid.image?_of_linked (hl : m.Laid)
    (hlinked : ∀ h ∈ m.live, ∀ i, m.instruction? h = some i → i.Linked m.live) (hfit : m.Fitting)
    (hsize : m.size < 2 ^ 31) : ∃ bytes, m.image? = some bytes := by
  refine hl.image?_of_fits (fun h hm i hi => ?_) (fun h hm i hi => (hlinked h hm i hi).readable)
    (fun h hm i hi => (hlinked h hm i hi).refs) (fun h hm => ?_) (by omega)
  · cases hr : i.opcode.role with
    | plain =>
      have hproper : i.Proper := by
        have h := hlinked h hm i hi
        rwa [Linked, hr] at h
      obtain ⟨a, ha⟩ := isSome_iff_exists.1 (hl.start?_isSome_iff.2 hm)
      have hle := hl.start?_add_size_le ha hi
      exact hproper (by omega)
    | leap | call | protect => exact accepts_of_hasTarget (Opcode.hasTarget_eq_true.2 (by simp [hr])) _
  · obtain ⟨i, hi⟩ := hl.instruction?_isSome hm
    simp only [overflows, misfits, hi, List.any_eq_false, Bool.not_eq_true', Bool.not_eq_false]
    intro o ho
    by_cases hn : m.isNarrow h = true
    · obtain ⟨j, w, hj, hw⟩ := isNarrow_eq_true.1 hn
      obtain rfl := some.inj (hi.symm.trans hj)
      rw [(Opcode.narrow_of_wide? hw).2, offsetFits_one]
      exact hfit h hm hn o ho
    · have hbound := hl.offset_le ho
      have hwide : offsetWidth i.opcode ≠ 1 := fun hw => hn (isNarrow_eq_true.2 ?_)
      · rw [offsetFits, if_neg hwide, Bytes.fitsSigned, decide_eq_true_eq]
        omega
      · obtain ⟨w, hw⟩ := wide?_of_offsetWidth (hasTarget_of_mem_offsets hi ho) hw
        exact ⟨i, w, hi, hw⟩

end CodeMap

/-! ### The implicit initializer -/

/-- A misuse is one of the first part or of the second. -/
lemma run_bind_misuse {α β : Type} {x : Emission α} {f : α → Emission β} {g g' : Generator}
    (h : (x >>= f).run g = .error .misuse g') :
    x.run g = .error .misuse g' ∨ ∃ a k, x.run g = .ok a k ∧ (f a).run k = .error .misuse g' := by
  rw [run_bind] at h
  cases hr : x.run g with
  | ok a k =>
    rw [hr] at h
    exact .inr ⟨a, k, rfl, h⟩
  | error fault k =>
    rw [hr] at h
    cases h
    exact .inl rfl

/-- The operation is no misuse, wherever it starts. -/
def Guarded {α : Type} (x : Emission α) : Prop := ∀ g g', x.run g ≠ .error .misuse g'

namespace Guarded

variable {α β : Type}

lemma pure (a : α) : Guarded (pure a : Emission α) := fun _ _ h => by cases h

lemma modify (f : Generator → Generator) : Guarded (modify f : Emission Unit) := fun _ _ h => by cases h

lemma refuse (cause : CompileError) : Guarded (refuse cause : Emission α) := fun _ _ h => by cases h

lemma ofExcept (x : Except CompileError α) : Guarded (Emission.ofExcept x) := by
  cases x with
  | ok a => exact pure a
  | error cause => exact refuse cause

lemma bind {x : Emission α} {f : α → Emission β} (hx : Guarded x) (hf : ∀ a, Guarded (f a)) : Guarded (x >>= f) := by
  intro g g' h
  rcases run_bind_misuse h with hr | ⟨a, k, -, hr⟩
  · exact hx g g' hr
  · exact hf a k g' hr

lemma get {f : Generator → Emission α} (hf : ∀ g, Guarded (f g)) : Guarded (get >>= f) := fun g g' h => hf g g g' h

lemma literal {l : Literal} (h : l.Pushable) : Guarded (literal l) := by
  intro g g' hrun
  rcases Decides.literal l g with ⟨-, k, hok⟩ | ⟨x, hx, n, hn, -, k, hrefused⟩ | ⟨x, hx, bytes, hbytes, hlong, -⟩
  · cases hok.symm.trans hrun
  · cases hrefused.symm.trans hrun
  · cases hlong.symm.trans (h x hx bytes hbytes)

lemma openMethod (name : String) : Guarded (openMethod name) := by
  refine .get fun g => ?_
  split_ifs
  · exact fun _ _ h => by cases h
  · refine (ofExcept _).bind fun _ => (ofExcept _).bind fun method => (modify _).bind fun _ =>
      (ofExcept _).bind fun i? => ?_
    cases i? with
    | none => exact modify _
    | some i => exact (modify _).bind fun _ => modify _

lemma closeMethod : Guarded closeMethod := by
  refine .get fun g => ?_
  split
  · exact modify _
  · exact refuse _

end Guarded

namespace Generator

variable {g g' : Generator} {name : String}

/-- A global with a slot is not kept in the storage, whatever hides it. -/
lemma bindingOf_static {type : ValueType} (h : name ∈ g.symbols.staticGlobals g.options) :
    g.bindingOf name ≠ .ok (.stored type) := by
  obtain ⟨⟨_, v⟩, he, rfl⟩ := mem_map.1 h
  obtain ⟨hv, hkind⟩ := mem_filter.1 he
  intro hb
  rw [bindingOf, Table.get?_eq_some_iff.2 hv] at hb
  dsimp only at hb hkind
  split at hb
  · next binding hframe =>
    cases hb
    obtain ⟨method, -, hframe⟩ := bind_eq_some_iff.1 hframe
    split at hframe
    · cases hframe
    · obtain ⟨slot, -, hframe⟩ := bind_eq_some_iff.1 hframe
      dsimp only at hframe
      split_ifs at hframe <;> cases hframe
  · rw [bindGlobal, beq_iff_eq.1 hkind] at hb
    dsimp only at hb
    split at hb <;> cases hb

lemma store_guarded (h : name ∈ g.symbols.staticGlobals g.options) : (store name).run g ≠ .error .misuse g' := by
  intro hrun
  change ((Emission.ofExcept (g.bindingOf name)) >>= _).run g = _ at hrun
  cases hb : g.bindingOf name with
  | error cause =>
    rw [hb] at hrun
    cases hrun
  | ok binding =>
    rw [hb] at hrun
    cases binding with
    | slot kind index type => cases hrun
    | packed index type => cases hrun
    | inlined value => cases hrun
    | stored type => exact bindingOf_static h hb

lemma storeConstants_guarded {constants : List (String × Literal)}
    (h : ∀ e ∈ constants, e.2.Pushable ∧ e.1 ∈ g.symbols.staticGlobals g.options) :
    (Session.storeConstants constants).run g ≠ .error .misuse g' := by
  induction constants generalizing g with
  | nil => exact fun hrun => by cases hrun
  | cons e rest ih =>
    obtain ⟨hpush, hstatic⟩ := h e mem_cons_self
    intro hrun
    rcases run_bind_misuse hrun with hfirst | ⟨a, k, hfirst, hrun⟩
    · exact Guarded.literal hpush _ _ hfirst
    · -- The constant leaves symbols and options as they are, and so does the store.
      have hk := (((straight_literal (P := fun _ => True) e.2).steady g).of_ok hfirst).settings
      have hsame : ∀ {k : Generator}, k.settings = g.settings →
          k.symbols.staticGlobals k.options = g.symbols.staticGlobals g.options := fun hs => by
        obtain ⟨hsymbols, hoptions⟩ := Prod.mk.inj hs
        rw [hsymbols, hoptions]
      rcases run_bind_misuse hrun with hstore | ⟨a, k', hstore, hrest⟩
      · exact store_guarded (hsame hk ▸ hstatic) hstore
      · have hk' := (((straight_store (P := fun _ => True) e.1).steady k).of_ok hstore).settings
        exact ih (fun x hx => hsame (hk'.trans hk) ▸ h x (mem_cons_of_mem _ hx)) hrest

end Generator

/-- The implicit initializer is a misuse only if a constant in it is too long. -/
lemma Session.ensureInitializer_misuse {s t : Session} (h : s.ensureInitializer = .error .misuse t) :
    ∃ e ∈ constants s.generator, ∃ bytes ∈ e.2.payloads, 2 ^ 32 ≤ bytes.length := by
  by_contra hshort
  push Not at hshort
  have hpush : ∀ e ∈ constants s.generator, e.2.Pushable ∧ e.1 ∈ s.generator.symbols.staticGlobals s.generator.options := by
    intro e he
    refine ⟨Literal.pushable_of_payloads fun bytes hb => accepts_pushData.2 (hshort e he bytes hb), ?_⟩
    obtain ⟨name, hname, he⟩ := mem_filterMap.1 he
    obtain ⟨value, -, rfl⟩ := map_eq_some_iff.1 he
    rw [statics] at hname
    split at hname
    · next hslots =>
      unfold staticSlots at hslots
      dsimp only at hslots
      split_ifs at hslots
      cases hslots
      exact hname
    · cases hname
  rcases s.ensureInitializer_eq with heq | heq
  · rw [heq] at h
    cases h
  · rw [heq, perform_eq] at h
    cases hr : (Call.initializer []).emission.run s.generator with
    | ok a g =>
      rw [hr] at h
      cases h
    | error fault g =>
      rw [hr] at h
      cases fault with
      | refused cause => cases h
      | misuse =>
        rcases run_bind_misuse hr with hopening | ⟨_, k, -, hrest⟩
        · rcases run_bind_misuse hopening with hopen | ⟨_, k, hopen, hstore⟩
          · exact Guarded.openMethod _ _ _ hopen
          · have hk := ((ends_openMethod_level _ _).of_ok hopen).1.settings
            have hsymbols : k.symbols = s.generator.symbols := congrArg Prod.fst hk
            have hoptions : k.options = s.generator.options := congrArg Prod.snd hk
            refine storeConstants_guarded (g := k) (fun e (he : e ∈ constants k) => ?_) hstore
            rw [constants, statics, staticSlots, hsymbols, hoptions] at he
            rw [hsymbols, hoptions]
            exact hpush e he
        · exact Guarded.closeMethod _ _ hrest

/-! ### Finishing -/

namespace Generator

variable {marks : List Handle} {g g' : Generator} {failures : List MethodFailure}

lemma ends_fitJumps_fitting (hl : g.code.Laid) : Ends fitJumps g (fun _ g' => g'.code.Fitting) fun _ => True := by
  refine .get ?_
  split_ifs
  · refine .modify ?_
    rw [code_widenJumps]
    exact hl.fitting_widen
  · split
    · exact .throw trivial
    · next hnone =>
      refine .pure fun h hm hn => ?_
      by_contra ho
      obtain ⟨hmem, hover⟩ := mem_filter.1 (hl.mem_overflowing.2 ⟨hm, hn, ho⟩)
      rw [CodeMap.outgrows_eq, Bool.and_eq_true] at hover
      exact find?_eq_none.1 hnone h hmem hover.2

lemma fitJumps_guarded : Guarded fitJumps := by
  refine .get fun g => ?_
  split_ifs
  · exact .modify _
  · split
    · exact .refuse _
    · exact .pure _

lemma writeOut_misuse {statics : List String} (h : (writeOut statics failures).run g = .error .misuse g') :
    fitJumps.run g = .ok () g' ∧ g'.code.image? = none := by
  rw [writeOut, run_bind] at h
  split at h
  · next g1 hfit =>
    rw [run_get_bind] at h
    split at h
    · next himage =>
      cases h
      exact ⟨hfit, himage⟩
    · cases h
  · next hfit =>
    cases h
    exact absurd hfit (fitJumps_guarded _ _)

/-- A generator that cannot be written was ready to be written. -/
lemma finish_misuse {choice : Choice} (hb : Idle marks g) (hp : g.pending = [])
    (h : (finish choice failures).run g = .error .misuse g') :
    Fitted g g' ∧ g'.code.Fitting ∧ g'.code.image? = none := by
  have hframe : g.frame = none := congrArg Prod.fst hb.constructs
  rw [finish_eq hframe hp] at h
  cases hstatics : g.staticSlots with
  | error cause =>
    rw [hstatics] at h
    cases h
  | ok statics =>
    cases hmissing : g.missingMethod? choice with
    | some name =>
      rw [hstatics, hmissing] at h
      cases h
    | none =>
      rw [hstatics, hmissing] at h
      have hwaiting := missingMethod?_eq_none_iff.1 hmissing
      have hwritten : ∀ (keep : Std.HashSet Handle) (k : Generator), Trimmed keep g k → KeepsRefs keep g →
          k.code.live = g.code.live.filter keep.contains → (writeOut statics failures).run k = .error .misuse g' →
          Fitted g g' ∧ g'.code.Fitting ∧ g'.code.image? = none := fun keep k ht hk hlive hrun => by
        obtain ⟨hfit, himage⟩ := writeOut_misuse hrun
        exact ⟨⟨hwaiting, k, keep, ht, hk, hlive, (ends_fitJumps ht.laid).of_ok hfit⟩,
          (ends_fitJumps_fitting ht.laid).of_ok hfit, himage⟩
      unfold simplify at h
      cases hremoves : g.options.removesDeadCode with
      | true =>
        rw [hremoves] at h
        obtain ⟨keep, hk, ht, hlive, -⟩ := removeDeadCode_trimmed hb.laid
        exact hwritten keep _ ht hk hlive h
      | false =>
        rw [hremoves] at h
        refine hwritten (.ofList g.code.live) g (.refl hb.laid) g.keepsRefs_live ?_ h
        exact (filter_eq_self.2 fun x hx => by simpa using hx).symm

end Generator

/-- **Finishing a session is no misuse,** unless its script is too long for four-byte offsets, or an initial constant is
too long to be pushed. -/
lemma Session.finish_guarded {s t : Session} {marks : List Handle} {log : List (Handle × String)} {choice : Choice}
    (hb : Idle marks s.generator) (ht : Tidy log s.generator) (h : s.finish choice = .error .misuse t) :
    2 ^ 31 ≤ t.generator.code.size ∨
      ∃ e ∈ constants s.generator, ∃ bytes ∈ e.2.payloads, 2 ^ 32 ≤ bytes.length := by
  cases he : s.ensureInitializer with
  | error fault s1 =>
    rw [finish, he] at h
    cases h
    exact .inr (ensureInitializer_misuse he)
  | ok a s1 =>
    refine .inl ?_
    have hready : ∃ marks, Idle marks s1.generator ∧ s1.generator.pending = [] := by
      rcases s.ensureInitializer_eq with heq | heq
      · rw [heq] at he
        cases he
        exact ⟨marks, hb, ht.pending⟩
      · have hok := heq.symm.trans he
        exact ⟨_, idle_perform_ok hb hok, (perform_closed hb ht hok).1.pending⟩
    obtain ⟨marks1, hb1, hp1⟩ := hready
    rw [finish_eq he] at h
    split at h
    · cases h
    · next hrun =>
      cases h
      obtain ⟨hf, hfit, himage⟩ := finish_misuse hb1 hp1 hrun
      by_contra hlong
      obtain ⟨bytes, hbytes⟩ := hf.laid.image?_of_linked (fun h hm i hi => hf.linked hb1 hm hi) hfit
        (Nat.lt_of_not_le hlong)
      rw [himage] at hbytes
      cases hbytes

end NeoScript
