import NeoScript.Proofs.Machine.Striding

/-!
# How bytes are held

Bytes of the types `str` and `bytes` are held in byte strings, and those of type `bytearray` in buffers. The instructions
that cut and join bytes leave buffers, which are converted if the type says so. A stride collects its bytes from an empty
byte string on, and it becomes a buffer with the first byte that is taken.
-/

namespace NeoScript

open Generator Machine Snippet

/-! ### Joining -/

namespace Generator

variable {g : Generator} {t u : ValueType}

lemma binary?_concat (ht : t.isByteLike = true) (hu : u.isByteLike = true) :
    binary? .add t u = some fun g => (g.binaryOp .cat .byteArray).cast t := by
  rcases byteLike_cases ht with rfl | rfl | rfl <;> rcases byteLike_cases hu with rfl | rfl | rfl <;> rfl

lemma spells_concat (hl : Legible g) (ht : t.isByteLike = true) :
    Spells (.op .cat ++ .byteResult t) g ((g.binaryOp .cat .byteArray).cast t) := by
  have hcat : Spells (.op .cat) g (g.binaryOp .cat .byteArray) := .op hl rfl 2 _
  have hheld : (g.binaryOp .cat .byteArray).stack.peek 0 = .byteArray := peek_of_items (items_op g _ _ _) 0
  refine hcat.seq ?_
  unfold cast
  rw [hheld]
  have hconvert : Spells (.convert .byteString) (g.binaryOp .cat .byteArray)
      ((g.binaryOp .cat .byteArray).emitData .convert [ItemType.byteString.byte]) := .instruction hcat.legible rfl
  rcases byteLike_cases ht with rfl | rfl | rfl
  · exact hconvert.settle 1 _
  · exact hconvert.settle 1 _
  · exact (Spells.nil hcat.legible).settle 1 _

end Generator

lemma Underway.concat {g : Generator} {t u : ValueType} {ts : List ValueType} {c v : Value} {bs cs : Bytes} {S : List Value}
    {h : Heap} (hg : Underway g) (hitems : g.stack.items = u :: t :: ts) (ht : t.isByteLike = true) (hu : u.isByteLike = true)
    (hc : h.bytes? c = some bs) (hv : h.bytes? v = some cs) :
    ∃ g' w h', (binary .add).run g = .ok () g' ∧ g'.stack.items = t :: ts ∧
      Emission.Yields (binary .add) g ⟨v :: c :: S, h⟩ (some ⟨w :: S, h'⟩) ∧ h'.bytes? w = some (bs ++ cs) ∧
      w.itemType = t.itemType := by
  have hprints : Prints (binary .add) (.op .cat ++ .byteResult t) g ((g.binaryOp .cat .byteArray).cast t) := by
    refine .get ?_
    rw [peek_of_items hitems, peek_of_items hitems]
    refine ⟨?_, spells_concat hg.legible ht⟩
    simp only [List.getElem?_cons_succ, List.getElem?_cons_zero, Option.getD_some, binary?_concat ht hu]
    rfl
  obtain ⟨w, h', hy, -, hw, hk⟩ := Snippet.Yields.produces_bytes (.op (perform_cat (S := S) hc hv)) ht
  refine ⟨_, w, h', hprints.run, ?_, hprints.yields hy, Heap.contents?_bytes.1 hw, hk⟩
  rw [items_cast, binaryOp, items_op, hitems]
  rfl

/-! ### All operations -/

/-- The operations on the bytes `bs`, with the types and values of their other operands and with the bytes that they leave. -/
inductive ByteOperation (h : Heap) (bs : Bytes) : Command → List ValueType → List Value → Bytes → Prop
  | slice {s : Slice} {tags : List ValueType} (hs : s.step = 1) (htags : List.Forall₂ ValueType.Admits tags s.bounds) :
      ByteOperation h bs s.command tags (s.bounds.map .int) (s.get bs)
  | stride {s : Slice} {cmd : Command} {tags : List ValueType} (hs : s.step ≠ 0) (hcmd : s.strideCommand? = some cmd)
      (htags : List.Forall₂ ValueType.Admits tags (s.step :: s.bounds)) :
      ByteOperation h bs cmd tags ((s.step :: s.bounds).map .int) (s.get bs)
  | concat {t : ValueType} {v : Value} {cs : Bytes} (ht : t.isByteLike = true) (hv : h.bytes? v = some cs)
      (hk : v.itemType = t.itemType) : ByteOperation h bs (.binary .add) [t] [v] (bs ++ cs)

/-- The operations that take bytes one by one. -/
def Command.isStride : Command → Bool
  | .stride | .sliceStride => true
  | _ => false

lemma Slice.isStride_command (s : Slice) : s.command.isStride = false := by
  unfold Slice.command
  split <;> rfl

lemma Slice.isStride_of_strideCommand {s : Slice} {cmd : Command} (hcmd : s.strideCommand? = some cmd) :
    cmd.isStride = true := by
  unfold Slice.strideCommand? at hcmd
  split at hcmd <;> cases hcmd <;> rfl

lemma Generator.sliceable_byteLike {g : Generator} {t : ValueType} {d : Nat} (hp : g.stack.peek d = t)
    (ht : t.isByteLike = true) : g.sliceable d = .ok t := by
  rw [sliceable, hp]
  rcases byteLike_cases ht with rfl | rfl | rfl <;> rfl

/-- **Bytes are held as their type says**, after every operation that cuts or joins them, if its operands are. There is one
exception: a stride of a `bytearray` that takes no byte leaves a byte string. -/
theorem bytes_held_by_type {g : Generator} {cmd : Command} {t : ValueType} {tags ts : List ValueType} {c : Value}
    {operands S : List Value} {bs result : Bytes} {h : Heap} (hg : Underway g) (ho : ByteOperation h bs cmd tags operands result)
    (hitems : g.stack.items = tags ++ t :: ts) (ht : t.isByteLike = true) (hc : h.bytes? c = some bs)
    (hk : c.itemType = t.itemType) :
    ∃ g' v h', cmd.run.run g = .ok () g' ∧ g'.stack.items = t :: ts ∧
      Emission.Yields cmd.run g ⟨operands ++ c :: S, h⟩ (some ⟨v :: S, h'⟩) ∧ h'.bytes? v = some result ∧
      (v.itemType = t.itemType ↔ ¬ (cmd.isStride = true ∧ t = .byteArray ∧ result = [])) := by
  have hcontent : h.contents? c = some (.bytes bs) := Heap.contents?_bytes.2 hc
  have hfits : (Contents.bytes bs).fits t = true := ht
  have hsliced : g.sliceable tags.length = .ok t := sliceable_byteLike (by rw [peek_of_items hitems]; simp) ht
  have hrest : g.stack.items.drop (tags.length + 1) = ts := by rw [hitems]; simp
  cases ho with
  | slice hs htags =>
    obtain ⟨u, g', hu, hrun, hitems', v, h', hy, -, hv, hkind⟩ := hg.replaces_slice (S := S) hs hitems htags hfits hcontent
    obtain rfl := Except.ok.inj (hsliced.symm.trans hu)
    refine ⟨g', v, h', hrun, by rw [hitems', hrest], hy, Heap.contents?_bytes.1 hv, ?_⟩
    exact iff_of_true (hkind hk) fun hstride => by simp [Slice.isStride_command] at hstride
  | @stride s _ _ hs hcmd htags =>
    obtain ⟨u, g', hu, hrun, hitems', v, h', hy, -, hv, hkind⟩ := hg.replaces_stride (S := S) hs hcmd hitems htags hfits hcontent
    obtain rfl := Except.ok.inj (hsliced.symm.trans hu)
    refine ⟨g', v, h', hrun, by rw [hitems', hrest], hy, Heap.contents?_bytes.1 hv, ?_⟩
    rw [hkind, Slice.isStride_of_strideCommand hcmd]
    change (if t = .byteArray then (if s.get bs = [] then ItemType.byteString else .buffer) else .byteString) = _ ↔ _
    rcases Snippet.byteLike_cases ht with rfl | rfl | rfl
    · simp [ValueType.itemType]
    · simp [ValueType.itemType]
    · by_cases hnone : s.get bs = [] <;> simp [hnone, ValueType.itemType]
  | concat hu hv _ =>
    obtain ⟨g', w, h', hrun, hitems', hy, hw, hkind⟩ := hg.concat (S := S) hitems ht hu hc hv
    exact ⟨g', w, h', hrun, hitems', hy, hw, iff_of_true hkind fun hstride => by simp [Command.isStride] at hstride⟩

/-- A method with a `bytearray`, a text and a number. -/
def bytesAndNumbers : SymbolTable where
  methods := .ofList [("main", { locals := .ofList [("data", .byteArray), ("text", .str), ("k", .int)] })]

/-- Every second byte of a `bytearray`, from its end on. -/
theorem bytes_held_by_type_stride :
    ∃ g, Underway g ∧ g.stack.items = [.int, .byteArray] ∧
      ∃ g' v h', (Command.run .stride).run g = .ok () g' ∧ g'.stack.items = [.byteArray] ∧
        Emission.Yields (Command.run .stride) g ⟨[.int (-2), .buffer 0], ⟨[], [[1, 2, 3]], []⟩⟩ (some ⟨[v], h'⟩) ∧
        h'.bytes? v = some [3, 1] ∧ v.itemType = .buffer := by
  have hstate : typesAfter bytesAndNumbers "main" [.load "data", .load "k"] = some [.int, .byteArray] := by decide +kernel
  obtain ⟨g, hg, hitems⟩ := underway_typesAfter hstate
  have htags : List.Forall₂ ValueType.Admits [.int] [-2] := .cons (fun h => by cases h) .nil
  have ho : ByteOperation ⟨[], [[1, 2, 3]], []⟩ [1, 2, 3] .stride [.int] [.int (-2)] [3, 1] :=
    .stride (s := { step := -2 }) (by decide) rfl htags
  obtain ⟨g', v, h', hrun, hitems', hy, hv, hkind⟩ := bytes_held_by_type (S := []) (c := .buffer 0) hg ho hitems rfl rfl rfl
  exact ⟨g, hg, hitems, g', v, h', hrun, hitems', hy, hv, hkind.2 (by decide)⟩

/-- **A stride of an empty `bytearray` leaves a byte string**, under the type of a buffer. -/
theorem stride_of_nothing_in_byteString :
    ∃ g, Underway g ∧ g.stack.items = [.int, .byteArray] ∧
      ∃ g' v h', (Command.run .stride).run g = .ok () g' ∧ g'.stack.items = [.byteArray] ∧
        Emission.Yields (Command.run .stride) g ⟨[.int 2, .buffer 0], ⟨[], [[]], []⟩⟩ (some ⟨[v], h'⟩) ∧
        v.itemType = .byteString := by
  have hstate : typesAfter bytesAndNumbers "main" [.load "data", .load "k"] = some [.int, .byteArray] := by decide +kernel
  obtain ⟨g, hg, hitems⟩ := underway_typesAfter hstate
  have htags : List.Forall₂ ValueType.Admits [.int] [2] := .cons (fun h => by cases h) .nil
  have hempty : (⟨[], [[]], []⟩ : Heap).contents? (.buffer 0) = some (.bytes []) := rfl
  have hstride : ({ step := 2 } : Slice).strideCommand? = some .stride := rfl
  obtain ⟨t, g', ht, hrun, hitems', v, h', hy, -, -, hkind⟩ :=
    hg.replaces_stride (S := []) (by decide) hstride hitems htags rfl hempty
  obtain rfl := Except.ok.inj ((sliceable_byteLike (peek_of_items hitems 1) rfl).symm.trans ht)
  exact ⟨g, hg, hitems, g', v, h', hrun, by rw [hitems', hitems]; rfl, hy, hkind⟩

end NeoScript
