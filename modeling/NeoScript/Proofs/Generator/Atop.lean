import NeoScript.Proofs.Command.Linear

/-!
# Working on top of a stack

A statement finds a stack and works on top of it. `Atop r b b d e g` says that `g` was reached from `b` by work of this
kind: there are `d` items on top of the stack of `b`, and at least `e` instructions behind its code. Each item is
pushed by an instruction, so there are never more items than instructions. This is why no record of an old instruction
is lost: a change of the stack is recorded for the last instruction, and as long as that is an old one, the stack is
that of `b`.
-/

namespace NeoScript

open List Option CodeMap

namespace Generator

lemma recorded?_replace (s : ShadowStack) (h h' : Handle) (items : List ValueType) :
    (s.replace (some h) items).recorded? h' = if h' = h then some items else s.recorded? h' :=
  recorded?_record { s with items } h h'

/-- The code of `b` stands first in `g`, `new` behind it, and the records of the old instructions are those of `b`. The
last old instruction counts only if its record is the stack of `b`. -/
structure Beside (b : Generator) (new : List Handle) (g : Generator) : Prop where
  laid : g.code.Laid
  live : g.code.live = b.code.live ++ new
  records : ∀ h ∈ b.code.live, ∀ items, b.stack.recorded? h = some items →
    (b.code.back? = some h → items = b.stack.items) → g.stack.recorded? h = some items

/-- What becomes of the regions: they are as before, or else the innermost one may know more. -/
def ScopesKept (narrows : Bool) (s s' : List Scope) : Prop :=
  if narrows then s'.length = s.length ∧ s'.tail = s.tail else s' = s

lemma ScopesKept.refl (narrows : Bool) (s : List Scope) : ScopesKept narrows s s := by
  cases narrows with
  | false => exact Eq.refl s
  | true => exact ⟨rfl, rfl⟩

lemma ScopesKept.trans {narrows : Bool} {s s' s'' : List Scope} (h : ScopesKept narrows s s')
    (h' : ScopesKept narrows s' s'') : ScopesKept narrows s s'' := by
  cases narrows with
  | false => exact Eq.trans (b := s') h' h
  | true => exact ⟨h'.1.trans h.1, h'.2.trans h.2⟩

lemma scopesKept_narrow (g : Generator) (name : String) (t : ValueType) :
    ScopesKept true g.scopes (g.narrow name t).scopes := by
  unfold Generator.narrow
  cases g.scopes with
  | nil | cons scope outer => exact ⟨rfl, rfl⟩

/-- Work on top of the stack of `w` behind the code of `b`: there are `d` items and at least `e` instructions more. If
the work narrows, the innermost region may know more. As a rule `w` is `b`; otherwise there is an instruction more than
those counted. -/
structure Atop (r : Bool) (b w : Generator) (d e : Nat) (g : Generator) : Prop where
  beside : ∃ new, Beside b new g ∧ e ≤ new.length ∧ (w.stack.items = b.stack.items ∨ e < new.length)
  items : ∃ ts, g.stack.items = ts ++ w.stack.items ∧ ts.length = d
  scopes : ScopesKept r w.scopes g.scopes

variable {r : Bool} {a b c w g g' : Generator} {new more old : List Handle} {d e d' e' : Nat} {h : Handle} {f? : Option String}
  {log : List (Handle × String)} {X : Handle → Prop}

namespace Beside

lemma refl (hl : g.code.Laid) : Beside g [] g := ⟨hl, by simp, fun _ _ _ h _ => h⟩

/-- The last instruction is a new one, if there is one. -/
lemma back?_not_mem (hb : Beside b new g) (hne : new ≠ []) {h : Handle} (hback : g.code.back? = some h) :
    h ∉ b.code.live := by
  intro hm
  rw [back?_eq, hb.live, getLast?_append_of_ne_nil _ hne] at hback
  have hnd := hb.laid.nodup
  rw [hb.live] at hnd
  exact (nodup_append.1 hnd).2.2 h hm h (mem_of_getLast? hback) rfl

lemma back?_nil (hb : Beside b [] g) : g.code.back? = b.code.back? := by
  rw [back?_eq, back?_eq, hb.live, append_nil]

/-- A change of the stack on account of the last instruction. -/
lemma restoreStack (hb : Beside b new g) {items : List ValueType} (hi : new = [] → items = b.stack.items) :
    Beside b new (g.restoreStack items) := by
  refine ⟨hb.laid, hb.live, fun h hm X hX hlast => ?_⟩
  have hold := hb.records h hm X hX hlast
  cases hback : g.code.back? with
  | none =>
    rwa [Generator.restoreStack, hback]
  | some h' =>
    rw [Generator.restoreStack, hback]
    change (g.stack.replace (some h') items).recorded? h = some X
    rw [recorded?_replace]
    split_ifs with heq
    · -- an old instruction is the last one: nothing is new
      subst heq
      have hnil : new = [] := by
        by_contra hne
        exact hb.back?_not_mem hne hback hm
      subst hnil
      rw [hi rfl, hlast (hb.back?_nil ▸ hback)]
    · exact hold

/-- A change of anything but the code and the stack. -/
lemma still (hb : Beside b new g) (hc : g'.code = g.code) (hs : g'.stack = g.stack) : Beside b new g' :=
  ⟨hc ▸ hb.laid, by rw [hc]; exact hb.live, by rw [hs]; exact hb.records⟩

lemma append (hb : Beside b new g) (i : Instruction) : Beside b (new ++ [g.next]) (g.append i) := by
  refine ⟨laid_append _ _ hb.laid, ?_, ?_⟩
  · rw [live_append, hb.live, append_assoc]
    rfl
  · rw [stack_of_context (context_append _ _)]
    exact hb.records

lemma emitSnippet (hb : Beside b new g) (s : Snippet) : ∃ more, more.length = s.length ∧
    Beside b (new ++ more) (g.emitSnippet s) := by
  refine ⟨range' g.code.nextHandle s.length, length_range', Ahead.laid_emitSnippet hb.laid s, ?_, ?_⟩
  · rw [(Ahead.emitSnippet hb.laid s).live, hb.live, append_assoc]
  · rw [stack_of_context (Sound.context_emitSnippet _ _)]
    exact hb.records

/-- What stands behind the work stands behind `a`, too. -/
lemma trans (ha : Beside a new b) (hb : Beside b more g) (hi : new = [] → b.stack.items = a.stack.items) :
    Beside a (new ++ more) g := by
  refine ⟨hb.laid, by rw [hb.live, ha.live, append_assoc], fun h hm X hX hlast => ?_⟩
  refine hb.records h (by rw [ha.live]; exact mem_append_left _ hm) X (ha.records h hm X hX hlast) fun hback => ?_
  by_cases hnil : new = []
  · subst hnil
    rw [hi rfl, hlast (ha.back?_nil ▸ hback)]
  · exact absurd hm (ha.back?_not_mem hnil hback)

end Beside

namespace Atop

lemma refl (r : Bool) (hl : g.code.Laid) : Atop r g g 0 0 g :=
  ⟨⟨[], .refl hl, Nat.le_refl _, .inl rfl⟩, ⟨[], rfl, rfl⟩, .refl r _⟩

lemma depth (ha : Atop r b w d e g) : g.stack.items.length = d + w.stack.items.length := by
  obtain ⟨ts, hi, hd⟩ := ha.items
  rw [hi, length_append, hd]

/-- Less code is promised. -/
lemma fewer (ha : Atop r b w d e g) (he : e' ≤ e) : Atop r b w d e' g := by
  obtain ⟨new, hb, hn, ho⟩ := ha.beside
  exact ⟨⟨new, hb, Nat.le_trans he hn, ho.imp id (Nat.lt_of_le_of_lt he)⟩, ha.items, ha.scopes⟩

lemma eq_zero (ha : Atop r b w 0 e g) : g.stack.items = w.stack.items := by
  obtain ⟨ts, hi, hd⟩ := ha.items
  rw [hi, eq_nil_of_length_eq_zero hd, nil_append]

section

variable (ha : Atop r b w d e g)
include ha

/-- A change of anything but the code and the stack. -/
lemma still (hc : g'.code = g.code) (hs : g'.stack = g.stack)
    (hr : ScopesKept r g.scopes g'.scopes) : Atop r b w d e g' := by
  obtain ⟨new, hb, hn, ho⟩ := ha.beside
  exact ⟨⟨new, hb.still hc hs, hn, ho⟩, by rw [hs]; exact ha.items, ha.scopes.trans hr⟩

lemma append (i : Instruction) : Atop r b w d (e + 1) (g.append i) := by
  obtain ⟨new, hb, hn, ho⟩ := ha.beside
  refine ⟨⟨_, hb.append i, ?_, ho.imp id fun ho => ?_⟩, ?_, ?_⟩
  · rw [length_append, length_singleton]
    omega
  · rw [length_append, length_singleton]
    omega
  · rw [stack_of_context (context_append _ _)]
    exact ha.items
  · rw [scopes_of_context (context_append _ _)]
    exact ha.scopes

lemma emitSnippet (s : Snippet) : Atop r b w d (e + s.length) (g.emitSnippet s) := by
  obtain ⟨new, hb, hn, ho⟩ := ha.beside
  obtain ⟨more, hm, hb'⟩ := hb.emitSnippet s
  refine ⟨⟨_, hb', ?_, ho.imp id fun ho => ?_⟩, ?_, ?_⟩
  · rw [length_append, hm]
    omega
  · rw [length_append, hm]
    omega
  · rw [stack_of_context (Sound.context_emitSnippet _ _)]
    exact ha.items
  · rw [scopes_of_context (Sound.context_emitSnippet _ _)]
    exact ha.scopes

/-- A change of the items on top. As long as nothing new was emitted, there are none. -/
lemma restoreStack {items : List ValueType} (ts : List ValueType) (hi : items = ts ++ w.stack.items)
    (hd : ts.length = d') (he : e = 0 → d' = 0) : Atop r b w d' e (g.restoreStack items) := by
  obtain ⟨new, hb, hn, ho⟩ := ha.beside
  refine ⟨⟨new, hb.restoreStack fun hnil => ?_, hn, ho⟩, ⟨ts, ?_, hd⟩, ha.scopes⟩
  · subst hnil
    rw [length_nil] at hn ho
    have hts : ts = [] := eq_nil_of_length_eq_zero (by omega)
    rw [hi, hts, nil_append]
    exact ho.resolve_right (Nat.not_lt_zero e)
  · change (g.stack.replace g.code.back? items).items = _
    rw [ShadowStack.items_replace, hi]

lemma pushType (t : ValueType) (he : 0 < e) : Atop r b w (d + 1) e (g.pushType t) := by
  obtain ⟨ts, hi, hd⟩ := ha.items
  refine ha.restoreStack (t :: ts) ?_ ?_ (by omega)
  · rw [hi, cons_append]
  · rw [length_cons, hd]

lemma popTypes (pops : Nat) (hp : pops ≤ d) (he : e = 0 → d = pops) : Atop r b w (d - pops) e (g.popTypes pops) := by
  obtain ⟨ts, hi, hd⟩ := ha.items
  rw [popTypes_eq]
  split_ifs with hskip
  · have hd' : d - pops = d := by
      rcases hskip with rfl | hnil
      · rfl
      · have hnil : g.stack.items = [] := hnil
        rw [hi, append_eq_nil_iff] at hnil
        rw [← hd, hnil.1, length_nil, Nat.zero_sub]
    rwa [hd']
  · refine ha.restoreStack (ts.drop pops) ?_ ?_ (by omega)
    · change g.stack.items.drop pops = _
      rw [hi, drop_append_of_le_length (by omega)]
    · rw [length_drop, hd]

/-! ### Emitting -/

lemma track_none (i : Instruction) (pops : Nat) (hp : pops ≤ d) :
    Atop r b w (d - pops) (e + 1) ((g.append i).track g.next pops none) := by
  rw [track_append]
  exact (ha.append i).popTypes pops hp (by omega)

lemma track_some (i : Instruction) (pops : Nat) (t : ValueType) (hp : pops ≤ d) :
    Atop r b w (d - pops + 1) (e + 1) ((g.append i).track g.next pops (some t)) := by
  rw [track_append]
  exact ((ha.append i).popTypes pops hp (by omega)).pushType t (by omega)

lemma op_none (o : Opcode) (pops : Nat) (hp : pops ≤ d) :
    Atop r b w (d - pops) (e + 1) (g.op o pops none) := ha.track_none _ pops hp

lemma op_some (o : Opcode) (pops : Nat) (t : ValueType) (hp : pops ≤ d) :
    Atop r b w (d - pops + 1) (e + 1) (g.op o pops (some t)) := ha.track_some _ pops t hp

lemma opData_some (o : Opcode) (operand : Bytes) (pops : Nat) (t : ValueType) (hp : pops ≤ d) :
    Atop r b w (d - pops + 1) (e + 1) (g.opData o operand pops (some t)) := ha.track_some _ pops t hp

lemma callService_none (s : Service) (pops : Nat) (hp : pops ≤ d) :
    Atop r b w (d - pops) (e + 1) (g.callService s pops none) := ha.track_none _ pops hp

lemma callService_some (s : Service) (pops : Nat) (t : ValueType) (hp : pops ≤ d) :
    Atop r b w (d - pops + 1) (e + 1) (g.callService s pops (some t)) := ha.track_some _ pops t hp

lemma callToken_some (token : MethodToken) (pops : Nat) (t : ValueType) (hp : pops ≤ d) :
    Atop r b w (d - pops + 1) (e + 1) (g.callToken token pops (some t)) := by
  refine opData_some (g := if token ∈ g.tokens then g else { g with tokens := g.tokens ++ [token] }) ?_ _ _ pops t hp
  split_ifs
  · exact ha
  · exact ha.still rfl rfl (.refl r _)

lemma settle (pops : Nat) (t : ValueType) (hp : pops ≤ d) (he : 0 < e) :
    Atop r b w (d - pops + 1) e (g.settle pops t) := (ha.popTypes pops hp (by omega)).pushType t he

lemma pushBytes (bytes : Bytes) : Atop r b w (d + 1) (e + 1) (g.pushBytes bytes) :=
  (ha.append _).pushType _ (by omega)

lemma appendAll (is : List Instruction) : Atop r b w d (e + is.length) (g.appendAll is) := by
  induction is generalizing g e with
  | nil => exact ha
  | cons i is ih =>
    rw [length_cons, show e + (is.length + 1) = e + 1 + is.length by omega]
    exact ih (ha.append i)

end

lemma length_pushInteger {v : Int} {is : List Instruction} (h : pushInteger? v = some is) : 0 < is.length := by
  cases pushing_pushInteger? h <;> exact Nat.succ_pos _

/-- An index on top of something. -/
lemma pushIndex (ha : Atop r b w d e g) (n : Nat) (he : 0 < e) : Atop r b w (d + 1) e (g.pushIndex n) :=
  ((ha.appendAll _).fewer (Nat.le_add_right _ _)).pushType _ he

/-- An index that has instructions. -/
lemma pushIndex_of_isSome (ha : Atop r b w d e g) {n : Nat} (hn : (pushInteger? n).isSome) :
    Atop r b w (d + 1) (e + 1) (g.pushIndex n) := by
  obtain ⟨is, his⟩ := isSome_iff_exists.1 hn
  have hpos := length_pushInteger his
  refine pushType (g := g.appendAll ((pushInteger? n).getD [])) ?_ _ (by omega)
  rw [his, getD_some]
  exact (ha.appendAll is).fewer (by omega)

lemma dup (ha : Atop r b w d e g) : Atop r b w (d + 1) (e + 1) g.dup := (ha.append _).pushType _ (by omega)

/-- Turning items round. -/
lemma reversed (ha : Atop r b w d (e + 1) g) (count : Nat) (hc : count ≤ d) (hback : g.code.back? = some h) :
    Atop r b w d (e + 1) { g with stack := g.stack.reverse (some h) count false } := by
  obtain ⟨ts, hi, hd⟩ := ha.items
  have hturn : { g with stack := g.stack.reverse (some h) count false } =
      g.restoreStack ((g.stack.items.take count).reverse ++ g.stack.items.drop count) := by
    rw [Generator.restoreStack, hback]
    rfl
  rw [hturn]
  refine ha.restoreStack ((ts.take count).reverse ++ ts.drop count) ?_ ?_ (by omega)
  · rw [hi, take_append_of_le_length (by omega), drop_append_of_le_length (by omega), append_assoc]
  · rw [length_append, length_reverse, length_take, length_drop]
    omega

section

variable (ha : Atop r b w d e g)
include ha

lemma reverseWith (o : Opcode) (count : Nat) (hc : count ≤ d) :
    Atop r b w d (e + 1) (g.reverseWith o count) := (ha.append _).reversed count hc (back?_append _ _)

lemma swap (hd : 2 ≤ d) : Atop r b w d (e + 1) g.swap := ha.reverseWith .swap 2 hd

lemma reverseTop (count : Nat) (hc : count ≤ d) (he : d ≤ e) : Atop r b w d e (g.reverseTop count) := by
  unfold Generator.reverseTop
  split
  · exact ha
  · exact ha
  · exact (ha.reverseWith _ _ hc).fewer (by omega)
  · exact (ha.reverseWith _ _ hc).fewer (by omega)
  · exact (ha.reverseWith _ _ hc).fewer (by omega)
  · next hfive _ _ _ =>
    have hpos : 0 < e := by
      have : count ≠ 0 := by assumption
      omega
    have hpush := (ha.pushIndex count hpos).op_none .reverseN 1 (by omega)
    exact (hpush.reversed count hc (back?_append _ _)).fewer (by omega)

/-- `d` items become one with those below them. -/
lemma packTop (count : Nat) (hc : count ≤ d) (he : d ≤ e) : Atop r b w (d - count + 1) (e + 1) (g.packTop count) := by
  unfold Generator.packTop
  split_ifs with hzero
  · subst hzero
    exact ha.op_some .newArray0 0 (.list .any) (by omega)
  · have hpack := ((ha.reverseTop count hc he).pushIndex count (by omega)).op_some .pack (count + 1) (.list .any)
      (by omega)
    rwa [show d + 1 - (count + 1) = d - count by omega] at hpack

lemma cast (t : ValueType) (hd : 1 ≤ d) (he : 0 < e) : Atop r b w d e (g.cast t) := by
  have hone : d - 1 + 1 = d := by omega
  unfold Generator.cast
  dsimp only
  split_ifs
  · have h := (ha.append { opcode := .convert, operand := [t.itemType.byte] }).settle 1 t hd (by omega)
    rw [hone] at h
    exact h.fewer (by omega)
  · have h := ha.settle 1 t hd he
    rwa [hone] at h

lemma emitCall (name : String) : Atop r b w d (e + 1) (g.emitCall name) := by
  unfold Generator.emitCall
  split
  · exact ha.append _
  · dsimp only
    split
    · exact (ha.append _).still rfl rfl (.refl r _)
    · exact ha.append _

end

/-- Taking back the constant that was just pushed. -/
lemma detach (ha : Atop r b w d (e + 1) g) {last : Handle} (hs : Sound c f? log X old g) (hf : g.frame.isSome)
    {q : Opcode → Bool} (hq : ∀ i : Instruction, q i.opcode = true → pushesConstant i = true)
    (hl : g.lastPush? q = some last) : Atop r b w d e (g.removeInstruction last) := by
  obtain ⟨new, hb, hn, ho⟩ := ha.beside
  obtain ⟨pre, hshort, hlive, -⟩ := hs.shortened hq hl
  have hne : new ≠ [] := by
    rintro rfl
    simp at hn
  obtain ⟨new, x, rfl⟩ := (eq_nil_or_concat' new).resolve_left hne
  have hpre : pre = b.code.live ++ new := by
    have heq := hlive.symm.trans hb.live
    rw [← append_assoc] at heq
    exact (append_inj' heq rfl).1
  refine ⟨⟨new, ⟨?_, by rw [hshort.live, hpre], ?_⟩, ?_, ho.imp id fun ho => ?_⟩, ?_, ?_⟩
  · obtain ⟨rest, hs', -⟩ := hs.detach_push hf hq hl
    exact hs'.laid
  · rw [stack_of_context hshort.context]
    exact hb.records
  · simpa using hn
  · simpa using ho
  · rw [stack_of_context hshort.context]
    exact ha.items
  · rw [scopes_of_context hshort.context]
    exact ha.scopes

end Atop

end Generator

end NeoScript
