import NeoScript.Proofs.Generator.Items
import NeoScript.Proofs.Session.Restoration

/-!
# Accesses to globals

The type that a load of a global leaves on the shadow stack comes from the declaration of the global alone, as long as
no region records another. Nothing that is stored can change it. A global that starts with a non-negative integer is
therefore loaded as a non-negative integer even if it is assigned again, to any integer: this is where the type of a
global can be wrong, and the only place.
-/

namespace NeoScript

open Generator Option List

/-! ### Declarations -/

/-- How a program declares a global: by a type, which is not that of non-negative integers, or by a constant. -/
inductive Variable.Declared : Variable → Prop
  | typed {type : ValueType} (reassigned persistent : Bool) (h : type ≠ .nonNegInt) :
      Declared { type, reassigned, persistent }
  | constant (value : Literal) (reassigned persistent : Bool) :
      Declared { Variable.constant value with reassigned, persistent }

/-- Whether the global starts with a non-negative integer. -/
def Variable.StartsNonNegative (v : Variable) : Prop := ∃ n : Nat, v.initial = some (.int n)

lemma Literal.valueType_eq_nonNegInt {value : Literal} : value.valueType = .nonNegInt ↔ ∃ n : Nat, value = .int n := by
  cases value with
  | int v =>
    simp only [valueType, intType, Literal.int.injEq]
    split_ifs with h
    · refine ⟨fun h => (by cases h), ?_⟩
      rintro ⟨n, rfl⟩
      omega
    · exact ⟨fun _ => ⟨v.toNat, by omega⟩, fun _ => rfl⟩
  | _ => simp [valueType]

lemma Variable.Declared.type_eq_nonNegInt {v : Variable} (h : v.Declared) : v.type = .nonNegInt ↔ v.StartsNonNegative := by
  cases h with
  | typed _ _ h => exact ⟨fun ht => absurd ht h, fun ⟨_, hn⟩ => by cases hn⟩
  | constant value _ _ =>
    refine Literal.valueType_eq_nonNegInt.trans (exists_congr fun n => ?_)
    exact (some.injEq value (.int n)).symm ▸ Iff.rfl

lemma Variable.Declared.type_of_initial {v : Variable} (h : v.Declared) {value : Literal}
    (hv : v.initial = some value) : value.valueType = v.type := by
  cases h with
  | typed => cases hv
  | constant value' =>
    cases hv
    rfl

/-! ### Accesses -/

/-- An access to a global, with the type that a load leaves on the shadow stack or that a store takes from it. -/
inductive Access where
  | loaded (name : String) (type : ValueType)
  | stored (name : String) (type : ValueType)
  deriving DecidableEq

namespace Generator

/-- Whether a name means a global: the open method has no variable of that name. -/
def isGlobal (g : Generator) (name : String) : Bool :=
  (g.bindFrame? name none).isNone && g.symbols.globals.contains name

/-- No region knows more about a variable than its declaration says. -/
def Unknowing (g : Generator) : Prop := ∀ s ∈ g.scopes, s = {}

lemma Unknowing.narrowed? {g : Generator} (h : g.Unknowing) (name : String) : g.narrowed? name = none := by
  rw [Generator.narrowed?, findSome?_eq_none_iff]
  intro s hs
  rw [h s hs]
  rfl

lemma Unknowing.of_upkeep {g g' : Generator} (h : g.Unknowing) (hu : Upkeep g g') : g'.Unknowing := fun s hs =>
  (hu.known s hs).elim id (h s)

/-- **A load leaves the declared type.** -/
lemma ends_load_declared {g : Generator} {name : String} {v : Variable} (hg : g.Unknowing)
    (hname : g.isGlobal name = true) (hv : g.symbols.globals.get? name = some v) (hd : v.Declared) :
    Ends (load name) g (fun _ g' => g'.stack.peek 0 = v.type) fun _ => True := by
  have hframe : g.bindFrame? name none = none := by
    simp only [isGlobal, Bool.and_eq_true, isNone_iff_eq_none] at hname
    exact hname.1
  have hbinding : g.bindingOf name = g.bindGlobal name none v := by
    rw [bindingOf, hg.narrowed? name, hframe, hv]
  have hpeek : ∀ {g' : Generator} {t : ValueType} {is : List ValueType}, g'.stack.items = t :: is →
      g'.stack.peek 0 = t := fun h => by rw [ShadowStack.peek, h]; rfl
  refine .get ?_
  rw [hbinding, bindGlobal]
  dsimp only [getD_none]
  split
  · next value _ hinitial =>
    exact (ends_literal_items value g).mono (fun _ _ h => (hpeek h).trans (hd.type_of_initial hinitial)) fun _ h => h
  · refine .ofExcept_bind trivial fun _ hstored => ?_
    cases hstored
    exact (ends_pushData (P := fun _ _ => True) trivial).bind fun _ _ _ => .modify (hpeek (items_callToken _ _ _ _))
  · split
    · exact hpeek (items_pushType _ _)
    · exact .throw trivial

end Generator

/-- The access of a command that leads from `g` to `g'`. An exception is stored as a value of which nothing is known. -/
def Command.access? (c : Command) (g g' : Generator) : Option Access :=
  match c with
  | .load name => if g.isGlobal name then some (.loaded name (g'.stack.peek 0)) else none
  | .store name => if g.isGlobal name then some (.stored name (g.stack.peek 0)) else none
  | .beginHandler (some name) => if g.isGlobal name then some (.stored name .any) else none
  | _ => none

/-- The accesses of commands, up to the first that is refused. -/
def Command.accesses : List Command → Generator → List Access
  | [], _ => []
  | c :: cs, g =>
    match c.run.run g with
    | .ok _ g' => (c.access? g g').toList ++ accesses cs g'
    | .error _ _ => []

/-- The commands of a call: those that store constants, and the body. -/
def Call.commands (c : Call) (g : Generator) : List Command :=
  match c with
  | .method _ body => body
  | .initializer body => (Session.constants g).flatMap (fun e => [.literal e.2, .store e.1]) ++ body

/-- The accesses of a call, whether it is compiled or refused. -/
def Call.accesses (c : Call) (g : Generator) : List Access :=
  match (openMethod c.name).run g with
  | .ok _ g' => Command.accesses (c.commands g') g'
  | .error _ _ => []

/-- The accesses of calls, up to a misuse. -/
def Session.accesses (s : Session) : List Call → List Access
  | [] => []
  | c :: cs => c.accesses s.generator ++
      match s.perform c with
      | .ok _ s' | .error (.refused _) s' => s'.accesses cs
      | .error .misuse _ => []

/-! ### Types of loads -/

section Loads

variable {symbols : SymbolTable} {options : Options} {name : String} {v : Variable}

/-- Every load of the global leaves its declared type. -/
def Faithful (name : String) (v : Variable) (as : List Access) : Prop := ∀ t, .loaded name t ∈ as → t = v.type

lemma Faithful.append {as bs : List Access} (h : Faithful name v as) (h' : Faithful name v bs) :
    Faithful name v (as ++ bs) := fun t ht => (mem_append.1 ht).elim (h t) (h' t)

lemma Command.faithful_access {c : Command} {g g' : Generator} (hg : g.Unknowing)
    (hv : g.symbols.globals.get? name = some v) (hd : v.Declared) (hrun : c.run.run g = .ok () g') :
    Faithful name v (c.access? g g').toList := fun t ht => by
  rw [mem_toList] at ht
  unfold access? at ht
  split at ht
  · split_ifs at ht with hglobal
    cases ht
    exact (ends_load_declared hg hglobal hv hd).of_ok hrun
  · split_ifs at ht
    cases ht
  · split_ifs at ht
    cases ht
  · cases ht

lemma Command.faithful_accesses {cs : List Command} {g : Generator} (hn : ∀ c ∈ cs, c.narrows = false)
    (hg : g.Unknowing) (hv : g.symbols.globals.get? name = some v) (hd : v.Declared) : Faithful name v (accesses cs g) := by
  induction cs generalizing g with
  | nil => exact nofun
  | cons c cs ih =>
    rw [accesses]
    split
    · next g' hrun =>
      have hup := (steady_run (hn c mem_cons_self) g).of_ok hrun
      have hsymbols : g'.symbols = g.symbols := congrArg Prod.fst hup.settings
      refine (faithful_access hg hv hd hrun).append ?_
      exact ih (fun c hc => hn c (mem_cons_of_mem _ hc)) (hg.of_upkeep hup) (hsymbols ▸ hv)
    · exact nofun

lemma Call.commands_narrows {c : Call} {g : Generator} (hn : ∀ cmd ∈ c.body, cmd.narrows = false) :
    ∀ cmd ∈ c.commands g, cmd.narrows = false := by
  cases c with
  | method name body => exact hn
  | initializer body =>
    intro cmd hcmd
    rcases mem_append.1 hcmd with hcmd | hcmd
    · obtain ⟨e, -, hcmd⟩ := mem_flatMap.1 hcmd
      simp only [mem_cons, not_mem_nil, or_false] at hcmd
      rcases hcmd with rfl | rfl <;> rfl
    · exact hn cmd hcmd

lemma Call.faithful_accesses {c : Call} {g : Generator} (hn : ∀ cmd ∈ c.body, cmd.narrows = false)
    (hscopes : g.scopes = []) (hv : g.symbols.globals.get? name = some v) (hd : v.Declared) :
    Faithful name v (c.accesses g) := by
  rw [accesses]
  split
  · next g' hrun =>
    obtain ⟨he, -, hopened⟩ := (ends_openMethod_level c.name g).of_ok hrun
    have hsymbols : g'.symbols = g.symbols := congrArg Prod.fst he.settings
    refine Command.faithful_accesses (commands_narrows hn) (fun s hs => ?_) (hsymbols ▸ hv) hd
    rw [hopened, hscopes] at hs
    exact mem_singleton.1 hs
  · exact nofun

/-- **Whatever is stored, loads leave declared types.** -/
lemma Session.faithful_accesses {cs : List Call} {s : Session} {marks : List Handle}
    (hn : ∀ c ∈ cs, ∀ cmd ∈ c.body, cmd.narrows = false) (hb : Idle marks s.generator)
    (hscopes : s.generator.scopes = []) (hv : s.generator.symbols.globals.get? name = some v) (hd : v.Declared) :
    Faithful name v (s.accesses cs) := by
  induction cs generalizing s marks with
  | nil => exact nofun
  | cons c cs ih =>
    have hrest : ∀ c ∈ cs, ∀ cmd ∈ c.body, cmd.narrows = false := fun c hc => hn c (mem_cons_of_mem _ hc)
    rw [accesses]
    refine (Call.faithful_accesses (hn c mem_cons_self) hscopes hv hd).append ?_
    split
    · next s' hs =>
      have hsymbols : s'.generator.symbols = s.generator.symbols :=
        congrArg Prod.fst ((c.ends_emission_level s.generator).of_ok (perform_ok hs)).1.settings
      exact ih hrest (idle_perform_ok hb hs) (scopes_perform_ok hb hscopes hs) (hsymbols ▸ hv)
    · next s' hs =>
      have hsymbols : s'.generator.symbols = s.generator.symbols := congrArg Prod.fst (perform_settings_refused hs)
      exact ih hrest (idle_perform_refused hb hs) (scopes_perform_refused hscopes hs) (hsymbols ▸ hv)
    · exact nofun

end Loads

/-- **Exactly the globals that start with a non-negative integer are loaded as such, whatever is stored.** Suppose that
globals are declared by a type or by a constant and that no type is recorded. Then each load of a global leaves its
declared type. That an integer which may be negative is never stored into a global that is loaded as non-negative is
therefore true of a run except where a global that starts with a non-negative integer is both loaded and assigned such
an integer. -/
theorem loads_nonNegative_iff {symbols : SymbolTable} {options : Options} {trace : Trace} {calls : List Call}
    {name : String} {v : Variable} (hglobals : ∀ e ∈ symbols.globals.entries, e.2.Declared)
    (hbodies : ∀ c ∈ calls, ∀ cmd ∈ c.body, cmd.narrows = false) (hname : symbols.globals.get? name = some v) :
    let as := (Session.start symbols options trace).accesses calls
    (∀ t, .loaded name t ∈ as → (t = .nonNegInt ↔ v.StartsNonNegative)) ∧
    ((.loaded name .nonNegInt ∈ as → .stored name .int ∉ as) ↔
      ¬ (v.StartsNonNegative ∧ (∃ t, .loaded name t ∈ as) ∧ .stored name .int ∈ as)) := by
  intro as
  have hd : v.Declared := hglobals (name, v) (Table.get?_eq_some_iff.1 hname)
  have hfaithful : Faithful name v as :=
    Session.faithful_accesses hbodies (idle_start symbols options trace) rfl hname hd
  have hloads : ∀ t, .loaded name t ∈ as → (t = .nonNegInt ↔ v.StartsNonNegative) := fun t ht => by
    rw [hfaithful t ht, hd.type_eq_nonNegInt]
  refine ⟨hloads, fun h ⟨hstarts, ⟨t, ht⟩, hstored⟩ => ?_, fun h hloaded hstored => ?_⟩
  · exact h ((hloads t ht).2 hstarts ▸ ht) hstored
  · exact h ⟨(hloads _ hloaded).1 rfl, ⟨_, hloaded⟩, hstored⟩

/-- A global that starts with a constant and is assigned again, and one that is declared by a type. -/
def limitAndCount : SymbolTable where
  globals := .ofList [("limit", { Variable.constant (.int 100) with reassigned := true }),
    ("count", { type := .int, reassigned := true })]
  methods := .ofList [("set", { args := .ofList [("x", .int)], returns := .int })]

/-- A method that assigns its argument to both globals and loads them. -/
def setBoth : List Call :=
  [.method "set" [.load "x", .store "limit", .load "limit", .store "count", .load "x", .store "count", .load "count",
    .returnFrom true]]

theorem loads_nonNegative_iff_limit :
    let as := (Session.start limitAndCount {} {}).accesses setBoth
    as = [.stored "limit" .int, .loaded "limit" .nonNegInt, .stored "count" .nonNegInt, .stored "count" .int,
      .loaded "count" .int] ∧
    ¬ (.loaded "limit" .nonNegInt ∈ as → .stored "limit" .int ∉ as) ∧
    (.loaded "count" .nonNegInt ∈ as → .stored "count" .int ∉ as) := by
  have has : (Session.start limitAndCount {} {}).accesses setBoth = [.stored "limit" .int, .loaded "limit" .nonNegInt,
      .stored "count" .nonNegInt, .stored "count" .int, .loaded "count" .int] := by decide +kernel
  have hglobals : ∀ e ∈ limitAndCount.globals.entries, e.2.Declared := fun e he => by
    have hentries : limitAndCount.globals.entries = [("limit", { Variable.constant (.int 100) with reassigned := true }),
        ("count", { type := .int, reassigned := true })] := rfl
    rw [hentries] at he
    simp only [List.mem_cons, List.not_mem_nil, or_false] at he
    rcases he with rfl | rfl
    · exact .constant (.int 100) true false
    · exact .typed true false (by decide)
  have hbodies : ∀ c ∈ setBoth, ∀ cmd ∈ c.body, cmd.narrows = false := by decide
  refine ⟨has, ?_, ?_⟩
  · rw [(loads_nonNegative_iff (v := { Variable.constant (.int 100) with reassigned := true }) hglobals hbodies rfl).2,
      not_not, has]
    exact ⟨⟨100, rfl⟩, ⟨.nonNegInt, by simp⟩, by simp⟩
  · rw [(loads_nonNegative_iff (v := { type := .int, reassigned := true }) hglobals hbodies rfl).2]
    rintro ⟨⟨n, hn⟩, -⟩
    cases hn

end NeoScript
