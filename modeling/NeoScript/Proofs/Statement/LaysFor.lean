import NeoScript.Proofs.Statement.LaysLoops

/-!
# Loops over a collection lay out their code

How a loop walks its collection is decided by the type of the collection when the loop is opened; when it is closed, the
code that advances it is chosen by what was opened. `Drives` ties the two together.
-/

namespace NeoScript

open Generator Command Instruction List Option Opcode Walk

variable {P : Opcode → Prop} {inLoop narrowing hasElse : Bool} {b c g g' g0 G : Generator} {f? : Option String}
  {symbols : SymbolTable} {s : Statement} {w : Ways} {e : Exits} {new bs gate : List Handle} {d h j k t x y z : Handle}
  {φ : Handle → Option Instruction} {ρ : Handle → Handle} {o : Option Handle} {r : Code} {walk : Walk}

/-! ### Opening the loop -/

/-- The kind of a loop whose body starts at `d`, and what advances it. -/
inductive Drives (d : Handle) : Walk → LoopKind → (Generator → Handle → Generator) → Prop
  | indexed {walk : Walk} : walk.advance = (Walk.indexed [] .any).advance → walk.test = (Walk.indexed [] .any).test →
      walk.kept = 2 → Drives d walk (.indexed d) advanceIndex
  | iterated : Drives d .iterated (.iterated d) advanceIterator

namespace Drives

variable {kind : LoopKind} {advance : Generator → Handle → Generator} (hd : Drives d walk kind advance)
include hd

lemma kept : kind.kept = walk.kept := by
  cases hd with
  | indexed _ _ hk => exact hk.symm
  | iterated => rfl

lemma advancing : Advancing kind d advance := by
  cases hd with
  | indexed => exact .index d
  | iterated => exact .iterator d

lemma advances : Advances advance walk.advance walk.test := by
  cases hd with
  | indexed ha ht => exact ha ▸ ht ▸ advances_index
  | iterated => exact advances_iterator

end Drives

namespace Generator

/-- A loop over a collection has been opened: the preparation `p`, the first jump and what fetches an item. -/
structure ForOpened (walk : Walk) (g : Generator) (p : Code) (j : Handle) (f : Code) (kind : LoopKind) (g' : Generator) :
    Prop where
  writes : Writes g (p ++ (j, ⟨.jump .always false, [], .unresolved⟩) :: f) g'
  prepare : p.map Prod.snd = walk.prepare
  fetch : f.map Prod.snd = walk.fetch
  loops : ∃ stack, g'.loops = ⟨kind, j, [], [], g.tries.length, stack⟩ :: g.loops
  tries : g'.tries = g.tries
  elseGuards : g'.elseGuards = g.elseGuards

/-- The code is there; what remains is to open the loop. -/
lemma ForOpened.openLoop {p f : Code} {kind : LoopKind}
    (hw : Writes g0 (p ++ (j, .unaimed .always) :: f) g) (hout : g.outline = g0.outline)
    (hp : p.map Prod.snd = walk.prepare) (hf : f.map Prod.snd = walk.fetch) (item : ValueType) :
    ForOpened walk g0 p j f kind ((g.openLoop kind j).pushType item) := by
  obtain ⟨-, hlo, he, ht, -⟩ := eq_of_outline hout
  refine ⟨hw.still rfl rfl rfl, hp, hf, ⟨g.stack.items, ?_⟩, ht, he⟩
  rw [← ht, ← hlo]
  rfl

lemma opened_beginIndexed {code : Code} {prepare : List Instruction} (hw : Writes g0 code g)
    (hcode : code.map Prod.snd = prepare) (hout : g.outline = g0.outline) (collection : ValueType) :
    ∃ p j f, ForOpened (.indexed prepare collection) g0 p j f (.indexed (entry f j)) (g.beginIndexed collection) := by
  have hfetch : ∀ g : Generator, g.emitSnippet (.ops [.dupBelow, .dupBelow] ++
      if collection = .str then Snippet.ops [.push 1, .subStr] ++ .convert .byteString else .op .pickItem) =
        g.appendAll (indexed prepare collection).fetch := fun g => by
    unfold Walk.indexed
    split_ifs <;> rfl
  have hpush := hw.op (o := .push 0) rfl 0 (some .nonNegInt)
  have hout1 := (outline_op g (.push 0) 0 (some .nonNegInt)).trans hout
  unfold beginIndexed
  dsimp only
  rw [hfetch]
  generalize g.op (.push 0) 0 (some .nonNegInt) = g1 at *
  have hjump := hpush.append (i := .unaimed .always) nofun (by simp [role])
  have hout2 := (outline_append g1 (.unaimed .always)).trans hout1
  change ∃ p j f, ForOpened _ g0 p j f _ ((((g1.append (.unaimed .always)).appendAll _).openLoop
    (.indexed (g1.append (.unaimed .always)).next) g1.next).pushType _)
  generalize g1.append (.unaimed .always) = g2 at *
  have hfetch : ∀ i ∈ (indexed prepare collection).fetch, i.opcode.role = .plain ∧ i.target = .unresolved := by
    unfold Walk.indexed
    split_ifs <;> simp [role]
  obtain ⟨f, hf, hentry, hall⟩ := hjump.appendAll hfetch
  have hout3 := (outline_appendAll g2 (indexed prepare collection).fetch).trans hout2
  rw [append_assoc] at hall
  refine ⟨code ++ [(g.next, bare (.push 0))], g1.next, f, ?_⟩
  rw [hentry (by simp [indexed])]
  exact .openLoop hall hout3 (by rw [map_append, hcode]; rfl) hf _

lemma opened_beginIterated (hl : Legible g) (item : ValueType) :
    ∃ p j f, ForOpened .iterated g p j f (.iterated (entry f j)) (g.beginIterated item) := by
  have hjump := (Writes.refl hl).append (i := .unaimed .always) nofun
    (by simp [role])
  have hdup := hjump.append (i := bare .dup) (fun _ => rfl) (by simp [role])
  have hcall := hdup.append (i := ⟨.syscall, Service.iteratorValue.operand, .unresolved⟩) (fun _ => rfl) (by simp [role])
  have hout := (outline_append _ ⟨.syscall, Service.iteratorValue.operand, .unresolved⟩).trans
    ((outline_append _ (bare .dup)).trans (outline_append g (.unaimed .always)))
  refine ⟨[], g.next, [((g.emitJump .always).next, bare .dup), (((g.emitJump .always).emit .dup).next,
    ⟨.syscall, Service.iteratorValue.operand, .unresolved⟩)], ?_⟩
  exact .openLoop hcall hout rfl rfl item

lemma ends_beginFor_opened (hl : Legible g) :
    Ends beginFor g (fun _ g' => ∃ p j f kind advance, ForOpened (.of (g.stack.peek 0)) g p j f kind g' ∧
      Drives (entry f j) (.of (g.stack.peek 0)) kind advance) fun _ => True := by
  refine .get ?_
  split
  · next key value heq =>
    have hkeys := (Writes.refl hl).op (o := .keys) rfl 1 (some (.list key))
    obtain ⟨p, j, f, ho⟩ := opened_beginIndexed hkeys (rfl : _ = [bare .keys]) (outline_op g _ _ _) (.list key)
    rw [heq]
    exact .modify ⟨p, j, f, _, _, ho, .indexed rfl rfl rfl⟩
  · next item heq =>
    obtain ⟨p, j, f, ho⟩ := opened_beginIterated hl item
    rw [heq]
    exact .modify ⟨p, j, f, _, _, ho, .iterated⟩
  · next hdict hiter =>
    split_ifs
    · obtain ⟨p, j, f, ho⟩ := opened_beginIndexed (.refl hl) rfl rfl (g.stack.peek 0)
      have hwalk : of (g.stack.peek 0) = .indexed [] (g.stack.peek 0) := by
        unfold Walk.of
        split
        · next heq => exact absurd heq (hdict _ _)
        · next heq => exact absurd heq (hiter _)
        · rfl
      rw [hwalk]
      exact .modify ⟨p, j, f, _, _, ho, .indexed rfl rfl rfl⟩
    · exact .throw trivial

/-! ### Closing the loop -/

/-- The end of a loop over a collection with the exits `e`, whose body starts at `d`: `continue`s and the end of the body
lead to what advances the loop, the first jump `j` leads to the test, and the jump behind it back to the body. -/
def ForFinished (hasElse : Bool) (e : Exits) (j d : Handle) (kept : Nat) (before after : List Instruction)
    (outer : List OpenLoop) (g g' : Generator) : Prop :=
  ∃ (G : Generator) (u v : Code) (k : Handle) (r : Code) (o : Option Handle) (gate : List Handle),
    LoopFinished hasElse e.flags e.jumps kept G r o gate g' ∧ u.map Prod.snd = before ∧ v.map Prod.snd = after ∧
    G.code.live = g.code.live ++ (u.map Prod.fst ++ (v.map Prod.fst ++ [k])) ∧ G.code.Laid ∧
    (∀ x, G.listing x (u.map Prod.fst ++ v.map Prod.fst) = u ++ v) ∧ (∀ x, G.seen x k = some (goto .ifTrue d)) ∧
    (∀ x, ∀ h ∈ g.code.live, G.seen x h = (g.seen (entry u (entry v k)) h).map fun i =>
      if h = j then i.aim (entry v k) else if h ∈ e.continues then i.aim (entry u (entry v k)) else i) ∧
    G.elseGuards = g.elseGuards ∧ g'.loops = outer ∧ g'.tries = g.tries

lemma ends_endFor_finished {l : OpenLoop} {outer : List OpenLoop} {pre : List Handle}
    {advance : Generator → Handle → Generator} (hg : Going b f? symbols g) (hloops : g.loops = l :: outer)
    (hd : Drives d walk l.kind advance) (hbreaks : l.breaks = e.breaks) (hconts : l.continues = e.continues)
    (hleaves : Leaves true g bs e) (hlive : g.code.live = b.code.live ++ pre ++ bs) (hasElse : Bool) :
    Ends (endFor hasElse) g
      (fun _ g' => ForFinished hasElse e l.startJump d walk.kept walk.advance walk.test outer g g') fun _ => True := by
  refine .of_run (endFor_ok hloops hd.advancing hasElse) ?_
  obtain ⟨-, log, hframe, old, hs⟩ := hg
  obtain ⟨hpop, hloop, hheld⟩ := hs.popLoop hloops
  obtain ⟨old1, hs1, hg1⟩ := hs.joinAdvance hframe hloops hd.advancing
  obtain ⟨u, v, k, hu, hv, hset, hlive1, hread, hjump, hseen⟩ := seen_advanceLoop (d := d) hd.advances hpop.legible
    (fun h hh => (hheld h (by simp [OpenLoop.held, hh])).imp_left hs.mem_live)
    ⟨hs.mem_live hloop.start.1, hloop.start.2⟩
  obtain ⟨r, o, gate, hfin⟩ := finished_finishLoop hs hloops hbreaks hleaves hs1 hg1 hset
    (hlive1.trans (congrArg (· ++ _) hlive)) hasElse
  obtain ⟨-, hlo1, he1, ht1, -⟩ := eq_of_outline
    (show ({ g with loops := outer }.advanceLoop l d advance).outline = { g with loops := outer }.outline from
      outline_advanceLoop _ hd.advancing)
  obtain ⟨guards, hout2, -⟩ := outline_finishLoop ({ g with loops := outer }.advanceLoop l d advance) l hasElse
  obtain ⟨-, hlo2, -, ht2, -⟩ := eq_of_outline hout2
  rw [hd.kept] at hfin
  rw [hconts] at hseen
  exact ⟨_, u, v, k, r, o, gate, hfin, hu, hv, hlive1, hs1.laid, hread, hjump, hseen, he1, hlo2.trans hlo1, ht2.trans ht1⟩

end Generator

/-! ### Taking an item -/

namespace Walk

/-- What fetches an item does not end with a constant. -/
lemma getLast?_fetch (collection : ValueType) :
    ∃ i, (of collection).fetch.getLast? = some i ∧ pushesConstant { opcode := i.opcode } = false := by
  unfold Walk.of
  split
  · exact ⟨_, rfl, rfl⟩
  · exact ⟨_, rfl, rfl⟩
  · unfold indexed
    split_ifs
    · exact ⟨_, rfl, rfl⟩
    · exact ⟨_, rfl, rfl⟩

/-- There are no jumps in the code that walks a collection. -/
lemma target_of_mem {c : ValueType} {i : Instruction} (hi : i ∈ (of c).prepare ++ ((of c).fetch ++
      ((of c).advance ++ (of c).test))) : i.target = .unresolved := by
  have hindexed : ∀ {prepare : List Instruction} {t : ValueType}, (∀ i ∈ prepare, i.target = .unresolved) →
      i ∈ (indexed prepare t).prepare ++ ((indexed prepare t).fetch ++ ((indexed prepare t).advance ++ (indexed prepare t).test)) →
      i.target = .unresolved := by
    intro prepare t hp hi
    simp only [indexed] at hi
    split_ifs at hi <;> simp only [mem_append, mem_cons, not_mem_nil, or_false] at hi <;>
      rcases hi with (hi | rfl) | hi | rfl | hi <;> grind
  unfold of at hi
  split at hi
  · exact hindexed (by simp) hi
  · simp only [iterated, mem_append, mem_cons, not_mem_nil, or_false, false_or] at hi
    rcases hi with (rfl | rfl) | rfl | rfl <;> rfl
  · exact hindexed (by simp) hi

end Walk

/-- The code that fetches an item stays when the item is taken. -/
lemma Generator.ForOpened.laysTarget {p f : Code} {kind : LoopKind} {target : List Command} {collection : ValueType}
    (ho : ForOpened (.of collection) g0 p j f kind g) (hg : Going c f? symbols g) (hfit : takesItem target g = true)
    (hinl : ∀ cmd ∈ target, cmd.Inlines P) (hrun : Ran target g g') : ∃ new, PartLaid P target g new g' := by
  have hlin := isLinear_of_worksFrom hfit hrun
  obtain ⟨-, log, hr⟩ := id hg
  obtain ⟨-, old, hs⟩ := id hr
  obtain ⟨i, hi, hconst⟩ := getLast?_fetch collection
  rw [← ho.fetch, getLast?_map, map_eq_some_iff] at hi
  obtain ⟨⟨h, i⟩, hlast, rfl⟩ := hi
  have hseen : g.seen 0 h = some i := (mem_listing (e := (h, i)).1 (by
    rw [ho.writes.reads 0]
    simp [mem_of_getLast? hlast])).2
  have honward := ((ends_runAll_onward target hlin hs hr (.refl g)).of_ok hrun).1
  obtain ⟨new, ha⟩ := honward.exists_ahead fun h' hh' => by
    have hlive : g.code.live.getLast? = some h := by
      rw [ho.writes.live, map_append, map_cons, getLast?_append, getLast?_append, getLast?_cons,
        getLast?_map, hlast]
      rfl
    obtain rfl := some.inj (hlive.symm.trans hh')
    rw [CodeMap.constant?, shape?_of_seen hseen, map_some, hconst]
    simp
  exact ⟨new, partLaid hg hlin hinl hrun ha⟩

/-! ### The loop as a whole -/

/-- A loop over a collection with its body, before it is closed. -/
structure ForOpen (P : Opcode → Prop) (collection target : List Command) (body : Statement) (walk : Walk) (g : Generator)
    (a : List Handle) (g1 : Generator) (p : Code) (j : Handle) (f : Code) (g2 : Generator) (n : List Handle)
    (g3 : Generator) (bs : List Handle) (e : Exits) (g4 : Generator) : Prop where
  part : PartLaid P collection g a g1
  chosen : walk = .of (g1.stack.peek 0)
  ran : Ran [.beginFor] g1 g2
  opened : ∃ kind advance, ForOpened walk g1 p j f kind g2 ∧ Drives (entry f j) walk kind advance ∧
    ∃ stack, g3.loops = ⟨kind, j, [], [], g.tries.length, stack⟩ :: g.loops
  target : PartLaid P target g2 n g3
  body : LaysOut P true body g3 bs e g4
  tries : g3.tries = g.tries ∧ g4.tries = g.tries
  elseGuards : g4.elseGuards = g.elseGuards

lemma Statement.forOpen {collection target : List Command} {body : Statement} {g4 : Generator}
    (hbody : body.Lays P true true) (hg : Going c f? symbols g)
    (hn : (forDo collection target body).nested inLoop narrowing = true)
    (hfit : (forDo collection target body).fits g = true)
    (hcmds : ∀ cmd ∈ collection ++ (target ++ body.commands), cmd.Orderly symbols ∧ cmd.Inlines P)
    (hrun : Ran (collection ++ .beginFor :: (target ++ body.commands)) g g4) :
    ∃ walk a g1 p j f g2 n g3 bs e, Ran body.commands g3 g4 ∧
      ForOpen P collection target body walk g a g1 p j f g2 n g3 bs e g4 := by
  obtain ⟨g1, hrun1, hrun⟩ := ran_append.1 hrun
  obtain ⟨g2, hrun2, hrun⟩ := ran_cons.1 hrun
  obtain ⟨g3, hrun3, hrun4⟩ := ran_append.1 hrun
  simp only [fits, nested, forall_mem_append, Bool.and_eq_true] at hfit hcmds hn
  rw [after_of_ok (ran_append.2 ⟨g1, hrun1, hrun2⟩), Bool.and_eq_true, after_of_ok hrun3] at hfit
  have hg1 := hg.runAll hrun1
  have hg2 := hg1.runAll hrun2
  obtain ⟨a, hpart⟩ := hg.laysPart hfit.1 hn.1 (fun cmd hm => (hcmds.1 cmd hm).1) (fun cmd hm => (hcmds.1 cmd hm).2) hrun1
  obtain ⟨p, j, f, kind, advance, hopen, hdrives⟩ :=
    Ends.of_ok (ran_single.1 hrun2) (ends_beginFor_opened hg1.legible)
  obtain ⟨n, htarget⟩ := hopen.laysTarget hg2 hfit.2.1 (fun cmd hm => (hcmds.2.1 cmd hm).2) hrun3
  have hconstructs := hpart.constructs
  have hconstructs3 := htarget.constructs
  simp only [Generator.constructs, Prod.mk.injEq] at hconstructs hconstructs3
  obtain ⟨-, -, hlo1, he1, ht1⟩ := hconstructs
  obtain ⟨-, -, hlo3, he3, ht3⟩ := hconstructs3
  obtain ⟨stack, hloops⟩ := hopen.loops
  have hloops3 : g3.loops = ⟨kind, j, [], [], g.tries.length, stack⟩ :: g.loops := by rw [hlo3, hloops, ht1, hlo1]
  have htries3 : g3.tries = g.tries := ht3.trans (hopen.tries.trans ht1)
  have hp3 : Placed P true true c f? symbols body g3 := by
    refine ⟨hg2.runAll hrun3, hn.2, hfit.2.2, hcmds.2.2, fun _ l hl => ?_⟩
    rw [hloops3] at hl
    obtain rfl := some.inj hl
    rw [htries3]
  obtain ⟨bs, e, hout⟩ := hbody hp3 hrun4
  have hk4 := hp3.kept hrun4
  exact ⟨_, a, g1, p, j, f, g2, n, g3, bs, e, hrun4, hpart, rfl, hrun2, ⟨kind, advance, hopen, hdrives, stack, hloops3⟩,
    htarget, hout, ⟨htries3, hk4.tries.trans htries3⟩, hk4.elseGuards.trans (he3.trans (hopen.elseGuards.trans he1))⟩

lemma entry_mem (code : Code) (x : Handle) : entry code x ∈ code.map Prod.fst ++ [x] := by
  cases code <;> simp

lemma entry_eq_of_ne_nil {code : Code} (h : code ≠ []) (x y : Handle) : entry code x = entry code y := by
  cases code with
  | nil => exact absurd rfl h
  | cons => rfl

namespace ForOpen

variable {collection target : List Command} {body : Statement} {g1 g2 g3 g4 : Generator} {a n : List Handle} {p f : Code}

/-- What stands in front of the body, in the end. -/
lemma front (h : ForOpen P collection target body walk g a g1 p j f g2 n g3 bs e g4) (ht : ρ t = t)
    (hread : ∀ d ∈ a ++ (p.map Prod.fst ++ j :: (f.map Prod.fst ++ n)), ρ d = d ∧
      φ d = (g4.seen y d).map fun i => (if d = j then i.aim t else i).rename ρ) :
    coded φ (a ++ (p.map Prod.fst ++ j :: (f.map Prod.fst ++ n))) =
        coded φ a ++ (p ++ (j, goto .always t) :: (f ++ coded φ n)) ∧
      Emits P collection g g1 (coded φ a) (entry p j) ∧ Emits P target g2 g3 (coded φ n) (ρ (bs.head?.getD y)) := by
  obtain ⟨kind, advance, hopen, -, -⟩ := h.opened
  have hafter : Adds g2 (n ++ bs) g4 := h.target.adds.trans h.body.adds
  have hbehind := hopen.writes.toAdds.trans hafter
  have hjn : j ∉ (a ++ p.map Prod.fst) ++ (f.map Prod.fst ++ n) := by
    have hnd := (nodup_append.1 (h.part.adds.trans (hopen.writes.toAdds.trans h.target.adds)).nodup).2.1
    rw [map_append, map_cons, show a ++ (p.map Prod.fst ++ j :: f.map Prod.fst ++ n) =
      (a ++ p.map Prod.fst) ++ j :: (f.map Prod.fst ++ n) by simp, nodup_middle] at hnd
    exact (nodup_cons.1 hnd).1
  have hother : ∀ d ∈ (a ++ p.map Prod.fst) ++ (f.map Prod.fst ++ n), ρ d = d ∧ φ d = (g4.seen y d).map (rename ρ) :=
    fun d hd => by
      have hne : d ≠ j := fun he => hjn (he ▸ hd)
      obtain ⟨hρ, hφ⟩ := hread d (by simp only [mem_append, mem_cons] at hd ⊢; tauto)
      simp only [if_neg hne] at hφ
      exact ⟨hρ, hφ⟩
  -- the jump and the code around it
  have hwritten : ∀ d ∈ p ++ (j, .unaimed .always) :: f, g4.seen y d.1 = some d.2 := fun d hd => by
    rw [hafter.seen _ _ (hopen.writes.mem_live (mem_map_of_mem hd))]
    exact (mem_listing.1 (by rw [hopen.writes.reads]; exact hd)).2
  have hφj : φ j = some (goto .always t) := by
    have hseen := hwritten (j, .unaimed .always) (by simp)
    rw [(hread j (by simp)).2, hseen, map_some, if_pos rfl, rename, Instruction.aim, Target.rename, ht]
  have htargets : ∀ d ∈ p ++ f, d.2.target = .unresolved := fun d hd =>
    target_of_mem (c := g1.stack.peek 0) (by
      rw [← h.chosen, ← hopen.prepare, ← hopen.fetch, ← append_assoc, ← map_append]
      exact mem_append_left _ (mem_map_of_mem hd))
  have hp : coded φ (p.map Prod.fst) = p := Reads.coded_eq (ρ := ρ) (fun d hd => hother d (by simp [hd]))
    (fun d hd => hwritten d (mem_append_left _ hd)) fun d hd => htargets d (mem_append_left _ hd)
  have hf : coded φ (f.map Prod.fst) = f := Reads.coded_eq (ρ := ρ) (fun d hd => hother d (by simp [hd]))
    (fun d hd => hwritten d (mem_append_right _ (mem_cons_of_mem _ hd))) fun d hd =>
      htargets d (mem_append_right _ hd)
  -- the straight parts
  have hcoll : Reads φ ρ g1 (entry p j) a := fun d hd => by
    obtain ⟨hρ, hφ⟩ := hother d (by simp [hd])
    refine ⟨hρ, ?_⟩
    rw [hφ, hbehind.seen _ d (h.part.adds.mem_live hd)]
    cases p <;> rfl
  have htake : Reads φ ρ g3 (bs.head?.getD y) n := fun d hd => by
    obtain ⟨hρ, hφ⟩ := hother d (by simp [hd])
    refine ⟨hρ, ?_⟩
    rw [hφ, h.body.adds.seen _ d (h.target.adds.mem_live hd)]
  have hρp : ρ (entry p j) = entry p j := by
    have hm := entry_mem p j
    refine (hread _ ?_).1
    simp only [mem_append, mem_cons, not_mem_nil, or_false] at hm ⊢
    tauto
  refine ⟨?_, hρp ▸ h.part.emits hcoll, h.target.emits htake⟩
  rw [coded_append, coded_append, coded_cons hφj, coded_append, hp, hf]

/-- What stands behind the body, in the end. -/
lemma back {u v : Code} (h : ForOpen P collection target body walk g a g1 p j f g2 n g3 bs e g4)
    (hu : u.map Prod.snd = walk.advance) (hv : v.map Prod.snd = walk.test)
    (hcode : ∀ x, G.listing x (u.map Prod.fst ++ v.map Prod.fst) = u ++ v)
    (hk : ∀ x, G.seen x k = some (goto .ifTrue (entry f j)))
    (hf : ρ (entry f j) = entry f j)
    (hread : ∀ d ∈ u.map Prod.fst ++ (v.map Prod.fst ++ [k]), ρ d = d ∧ φ d = (G.seen x d).map (rename ρ)) :
    coded φ (u.map Prod.fst ++ (v.map Prod.fst ++ [k])) = u ++ (v ++ [(k, goto .ifTrue (entry f k))]) := by
  obtain ⟨kind, advance, hopen, -, -⟩ := h.opened
  have hφk : φ k = some (goto .ifTrue (entry f k)) := by
    have hne : f ≠ [] := by
      rintro rfl
      obtain ⟨i, hi, -⟩ := getLast?_fetch (g1.stack.peek 0)
      rw [← h.chosen, ← hopen.fetch] at hi
      cases hi
    rw [(hread k (by simp)).2, hk, map_some, rename, Target.rename, hf, entry_eq_of_ne_nil hne j k]
  have htargets : ∀ d ∈ u ++ v, d.2.target = .unresolved := fun d hd =>
    target_of_mem (c := g1.stack.peek 0) (by
      rw [← h.chosen, ← hu, ← hv, ← map_append]
      exact mem_append_right _ (mem_append_right _ (mem_map_of_mem hd)))
  have hreads : Reads φ ρ G x ((u ++ v).map Prod.fst) := fun d hd => hread d (by
    rw [map_append] at hd
    rw [← append_assoc]
    exact mem_append_left _ hd)
  have huv := hreads.coded_eq (fun d hd => (mem_listing.1 (by rw [← hcode x] at hd; exact hd)).2) htargets
  rw [← append_assoc, ← map_append, coded_append, huv, coded_cons hφk, append_assoc]
  rfl

lemma closed (h : ForOpen P collection target body walk g a g1 p j f g2 n g3 bs e g4) (hg : Going c f? symbols g)
    (hg4 : Going c f? symbols g4) (hahead : Ahead g new g') (hrun : Ran [.endFor hasElse] g4 g') :
    ∃ o u v k r, LoopClosed hasElse g new o g' ∧ Walks walk p f u v r ∧
      ∀ {φ ρ w x z}, Stands inLoop w g → Gated φ ρ g' x new o z → ∃ A N B C leave flagged l,
        coded φ new = A ++ (p ++ (j, goto .always (entry v k)) :: (f ++ (N ++ (B ++ (u ++ (v ++
          (k, goto .ifTrue (entry f k)) :: (r ++ C))))))) ∧
        Emits P collection g g1 A (entry p j) ∧ Emits P target g2 g3 N (entry B (entry u (entry v k))) ∧
        Block P (w.body leave (entry u (entry v k)) walk.kept flagged) body g3 B (entry u (entry v k)) l ∧
        Ending hasElse (ρ x) z C leave flagged := by
  obtain ⟨kind, advance, hopen, hdrives, stack, hloops⟩ := h.opened
  have hall := h.part.adds.trans (hopen.writes.toAdds.trans (h.target.adds.trans h.body.adds))
  obtain ⟨-, log, -, old, hs⟩ := id hg
  obtain ⟨front, hfront⟩ : ∃ l, l = a ++ (p.map Prod.fst ++ j :: (f.map Prod.fst ++ n)) := ⟨_, rfl⟩
  have hlive4 : g4.code.live = g.code.live ++ (front ++ bs) := by
    rw [hall.live, hfront]
    simp
  have hloops4 : g4.loops = _ := h.body.loops.trans (congrArg (grow e) hloops)
  have hclose : ForFinished hasElse e j (entry f j) walk.kept walk.advance walk.test g.loops g4 g' :=
    Ends.of_ok (P := fun _ g' => ForFinished hasElse e j (entry f j) walk.kept walk.advance walk.test g.loops g4 g')
      (ran_single.1 hrun) (ends_endFor_finished hg4 hloops4 hdrives rfl rfl h.body.leaves
        (show g4.code.live = c.code.live ++ (old ++ front) ++ bs by rw [hlive4, hs.live]; simp only [append_assoc]) hasElse)
  obtain ⟨G, u, v, k, r, o, gate, hfin, hu, hv, hliveG, hlaidG, hreadG, hkG, hseenG, hguardsG, hlo, htr⟩ := hclose
  have hadds : Adds g new g' := .of_ahead hahead hg.legible (hg4.runAll hrun).legible
  obtain ⟨back, hback⟩ : ∃ l, l = u.map Prod.fst ++ (v.map Prod.fst ++ [k]) := ⟨_, rfl⟩
  rw [hlive4, ← hback, append_assoc, append_assoc] at hliveG
  have hframe : LoopFrame front bs back e r o gate new :=
    .of_finished hfin hliveG hlaidG (fun f hf => h.body.leaves.mem f hf) hadds
  refine ⟨o, u, v, k, r, ⟨hadds, hlo, htr.trans h.tries.2, ?_, hfin.plain, fun q ho => ⟨?_, (hfin.mem_gate ho).2⟩⟩,
    ⟨hopen.prepare, hopen.fetch, hu, hv, hfin.drops⟩, fun {φ ρ w x z} hst hguard => ?_⟩
  · rw [hfin.elseGuards, hguardsG, h.elseGuards]
  · rw [hframe.code]
    simp [(hfin.mem_gate ho).1]
  -- how the code around the body reads in the end
  have hsettle : ∀ d ∈ front ++ back, ρ (skip (taken o e.flags) d) = d ∧
      φ d = (G.seen x d).map (rename (ρ ∘ skip (taken o e.flags))) := fun d hd => by
    refine hframe.settles hfin hguard hd ?_
    rw [hliveG]
    simp only [mem_append] at hd ⊢
    exact .inr (hd.imp id .inr)
  have hsettleOf : ∀ code : Code, ∀ x, (∀ d ∈ code.map Prod.fst ++ [x], d ∈ front ++ back) →
      ρ (skip (taken o e.flags) (entry code x)) = entry code x := fun code x hsub =>
    (hsettle _ (hsub _ (entry_mem code x))).1
  have htv := hsettleOf v k (by simp +contextual [hback])
  have hty := hsettleOf (u ++ v) k (by simp +contextual [hback])
  rw [entry_append] at hty
  have hbody : ∀ d ∈ bs, d ∈ G.code.live ∧ G.seen x d = (g4.seen (entry u (entry v k)) d).map fun i =>
      if d ∈ e.continues then i.aim (entry u (entry v k)) else i := fun d hd => by
    have hm := h.body.adds.mem_live hd
    have hne : d ≠ j := fun he => by
      have hnd := (nodup_append.1 (hopen.writes.toAdds.trans (h.target.adds.trans h.body.adds)).nodup).2.1
      refine disjoint_of_nodup_append hnd (show d ∈ _ from ?_) (mem_append_right _ hd)
      simp [he]
    refine ⟨by rw [hliveG]; simp [hd], ?_⟩
    rw [hseenG x d hm]
    simp only [if_neg hne]
  obtain ⟨hentry, l, hblock⟩ := h.body.finished hfin hbody hframe hguard hty (hst.body hloops h.tries.1 rfl _ o.isSome)
  have hreads : ∀ d ∈ front, (ρ ∘ skip (taken o e.flags)) d = d ∧ φ d = (g4.seen (entry u (entry v k)) d).map fun i =>
      (if d = j then i.aim (entry v k) else i).rename (ρ ∘ skip (taken o e.flags)) := fun d hd => by
    have hcont : d ∉ e.continues := fun hc =>
      hframe.outside d (mem_append_left _ hd) (Exits.mem_sources.2 (.inr (.inr hc)))
    obtain ⟨hρ, hφ⟩ := hsettle d (mem_append_left _ hd)
    refine ⟨hρ, ?_⟩
    rw [hφ, hseenG x d (by rw [hlive4]; simp [hd]), Option.map_map]
    simp only [if_neg hcont]
    rfl
  rw [hfront] at hreads
  obtain ⟨hcode1, hemits, hemits2⟩ := h.front htv hreads
  have hreads2 : ∀ d ∈ back, (ρ ∘ skip (taken o e.flags)) d = d ∧
      φ d = (G.seen x d).map (rename (ρ ∘ skip (taken o e.flags))) :=
    fun d hd => hsettle d (mem_append_right _ hd)
  rw [hback] at hreads2
  have htf := hsettleOf f j fun d hd => by
    simp only [hfront, mem_append, mem_cons, not_mem_nil, or_false] at hd ⊢
    tauto
  have hcode2 := h.back hu hv hreadG hkG htf hreads2
  rw [Function.comp_apply, ← hentry] at hemits2
  rw [hdrives.kept] at hblock
  refine ⟨coded φ a, coded φ n, coded φ (bs.filter (· ∉ taken o e.flags)), coded φ gate, _, _, l, ?_, hemits, hemits2, hblock,
    hfin.ending hguard (fun d hd => by rw [hframe.code]; simp [hd]) hadds.legible.laid⟩
  rw [hframe.code, coded_append, coded_append, coded_append, coded_append, hfront, hback, hcode1, hcode2,
    hframe.drops hfin hguard]
  simp only [append_assoc, cons_append, nil_append]

end ForOpen

namespace Statement

variable {collection target : List Command} {body other : Statement}

/-- A loop over a collection up to its end. -/
lemma closed_for (inLoop' : Bool) (hbody : body.Lays P true true)
    (hn : (forDo collection target body).nested inLoop narrowing = true) (hg : Going c f? symbols g)
    (hfit : (forDo collection target body).fits g = true)
    (hcmds : ∀ cmd ∈ (forDo collection target body).commands, cmd.Orderly symbols ∧ cmd.Inlines P)
    (hrun : Ran (collection ++ .beginFor :: (target ++ (body.commands ++ [.endFor hasElse]))) g g') :
    ∃ new o walk g1 g2 g3 p j f u v k r, LoopClosed hasElse g new o g' ∧ walk = .of (g1.stack.peek 0) ∧
      Walks walk p f u v r ∧ Ran [.beginFor] g1 g2 ∧ Ran (body.commands ++ [.endFor hasElse]) g3 g' ∧
      ∀ {φ ρ w x z}, Stands inLoop' w g → Gated φ ρ g' x new o z → ∃ A N B C leave flagged l,
        coded φ new = A ++ (p ++ (j, goto .always (entry v k)) :: (f ++ (N ++ (B ++ (u ++ (v ++
          (k, goto .ifTrue (entry f k)) :: (r ++ C))))))) ∧
        Emits P collection g g1 A (entry p j) ∧ Emits P target g2 g3 N (entry B (entry u (entry v k))) ∧
        Block P (w.body leave (entry u (entry v k)) walk.kept flagged) body g3 B (entry u (entry v k)) l ∧
        Ending hasElse (ρ x) z C leave flagged := by
  have hn' := hn
  simp only [nested, Bool.and_eq_true] at hn'
  obtain ⟨guards, -, hleaving⟩ := Regular.of_ok
    (P := fun _ g' => ∃ guards, guards.length = hasElse.toNat ∧ Leaving false narrowing g guards g') hrun
    (regular_for hn'.1 (body.balances hn'.2) hg hfit fun cmd hm => (hcmds cmd hm).1)
  obtain ⟨-, new, -, hahead, -⟩ := hleaving.follows
  have hlist : collection ++ .beginFor :: (target ++ (body.commands ++ [.endFor hasElse])) =
      (collection ++ .beginFor :: (target ++ body.commands)) ++ [.endFor hasElse] := by simp
  rw [hlist] at hrun
  obtain ⟨g4, hrun4, hrun5⟩ := ran_append.1 hrun
  have hcmds' : ∀ cmd ∈ collection ++ (target ++ body.commands), cmd.Orderly symbols ∧ cmd.Inlines P := fun cmd hm =>
    hcmds cmd (by simp only [commands, mem_cons, mem_append] at hm ⊢; tauto)
  obtain ⟨walk, a, g1, p, j, f, g2, n, g3, bs, e, hran, hopen⟩ := forOpen hbody hg hn hfit hcmds' hrun4
  obtain ⟨o, u, v, k, r, hclosed, hwalks, hcode⟩ := hopen.closed hg (hg.runAll hrun4) hahead hrun5
  exact ⟨new, o, walk, g1, g2, g3, p, j, f, u, v, k, r, hclosed, hopen.chosen, hwalks, hopen.ran,
    ran_append.2 ⟨g4, hran, hrun5⟩, hcode⟩

lemma lays_forDo (hbody : body.Lays P true true) : (forDo collection target body).Lays P inLoop narrowing := by
  intro b f? symbols g g' hp hrun
  obtain ⟨new, o, walk, g1, g2, g3, p, j, f, u, v, k, r, hclosed, hchosen, hwalks, hran, -, hcode⟩ :=
    closed_for inLoop hbody hp.nested hp.going hp.fits hp.commands hrun
  refine ⟨new, {}, hclosed.lays fun hst hguard => ?_⟩
  obtain ⟨A, N, B, C, leave, flagged, l, heq, hcoll, htarget, hblock, rfl, rfl, rfl⟩ := hcode hst hguard
  exact ⟨_, by rw [heq, append_nil]; exact .forDo hcoll hchosen hwalks hran htarget hblock⟩

lemma lays_forElse (hbody : body.Lays P true true) (hother : other.Lays P inLoop narrowing) :
    (forElse collection target body other).Lays P inLoop narrowing := by
  intro b f? symbols g g' hp hrun
  obtain ⟨hg, hn, hfit, hcmds, -⟩ := id hp
  rw [fits_forElse, Bool.and_eq_true] at hfit
  simp only [nested, Bool.and_eq_true] at hn
  have hn1 : (forDo collection target body).nested inLoop narrowing = true := by simp [nested, hn.1]
  have hcmds1 : ∀ cmd ∈ (forDo collection target body).commands, cmd.Orderly symbols ∧ cmd.Inlines P := by
    simp only [commands, forall_mem_append, forall_mem_cons] at hcmds ⊢
    exact ⟨hcmds.1, hcmds.2.1, hcmds.2.2.1, hcmds.2.2.2.1, ⟨trivial, trivial⟩, by simp⟩
  rw [commands_forElse] at hrun hcmds
  simp only [forall_mem_append] at hcmds
  obtain ⟨g5, hrun5, hrun⟩ := ran_append.1 hrun
  obtain ⟨g6, hrun6, hrun7⟩ := ran_append.1 hrun
  rw [after_of_ok hrun5] at hfit
  obtain ⟨new, o, walk, g1, g2, g3, p, j, f, u, v, k, r, hclosed, hchosen, hwalks, hran, hran3, hcode⟩ :=
    closed_for inLoop hbody hn1 hg hfit.1 hcmds1 hrun5
  have hp5 : Placed P inLoop narrowing b f? symbols other g5 :=
    ⟨hg.runAll hrun5, hn.2, hfit.2, hcmds.2.1, hp.opened.still (hclosed.loops.trans (grow_empty _).symm) hclosed.tries⟩
  obtain ⟨ds, e, hout⟩ := hother hp5 hrun6
  refine ⟨_, _, hclosed.lays_else hout (hp5.kept hrun6).elseGuards hrun7 fun hst hguard hblock2 => ?_⟩
  obtain ⟨A, N, B, C, leave, flagged, l, heq, hcoll, htarget, hblock, hend⟩ := hcode hst hguard
  have hblock' := Block.forElse hcoll hchosen hwalks hran htarget hblock hend hran3 hblock2
  exact ⟨_, by rw [heq]; simpa using hblock'⟩

end Statement

end NeoScript
