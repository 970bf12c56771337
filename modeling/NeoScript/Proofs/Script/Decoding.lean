import NeoScript.Proofs.Generator.Linking
import NeoScript.Proofs.Script.Encoding
import NeoScript.Script.Decoding

/-!
# Reading a script back

The bytes of a code map decode to its instructions: each address, each opcode, each operand that is no offset and
each destination is read as it was laid out.
-/

namespace NeoScript

open List Option CodeMap Instruction Opcode Bytes

variable {live : List Handle}

namespace Opcode

variable {o : Opcode}

lemma role_of_fixed {n : Nat} (h : o.operand = .fixed n) : o.role = .plain := by
  rw [← hasTarget_eq_false, hasTarget, h]

lemma role_of_sized {n : Nat} (h : o.operand = .sized n) : o.role = .plain := by
  rw [← hasTarget_eq_false, hasTarget, h]

lemma role_of_offset {width : Nat} (h : o.operand = .offset width) :
    (o.role = .leap ∨ o.role = .call) ∧ (width = 1 ∨ width = 4) := by
  cases o with
  | jump test far | call far | tryLeave far => cases far <;> simp_all [operand, role, offsetWidth]
  | load kind slot | store kind slot => cases slot <;> simp [operand] at h
  | _ => simp [operand] at h

lemma role_of_handlers {width : Nat} (h : o.operand = .handlers width) : o.role = .protect ∧ (width = 1 ∨ width = 4) := by
  cases o with
  | tryEnter far => cases far <;> simp_all [operand, role, offsetWidth]
  | load kind slot | store kind slot => cases slot <;> simp [operand] at h
  | _ => simp [operand] at h

end Opcode

/-! ### One instruction -/

/-- An instruction that can be laid out among the instructions `live`: it has an operand that its opcode accepts, or
leads to some of them. -/
def Instruction.Linked (live : List Handle) (i : Instruction) : Prop :=
  match i.opcode.role with
  | .plain => i.Proper
  | .leap | .call => ∃ d ∈ live, i.target = .code d
  | .protect => ∃ e f, i.target = .handlers e f ∧ ∀ d ∈ e.toList ++ f.toList, d ∈ live

lemma Instruction.Linked.refs {i : Instruction} (h : i.Linked live) : ∀ d ∈ i.refs, d ∈ live := by
  intro d hd
  unfold Linked at h
  split at h
  · next hr => simp [Instruction.refs, Instruction.target?, hasTarget_eq_false.2 hr] at hd
  · next hr =>
    obtain ⟨d', hd', ht⟩ := h
    rw [refs_eq (by simp [hr]), ht] at hd
    exact mem_singleton.1 hd ▸ hd'
  · next hr =>
    obtain ⟨d', hd', ht⟩ := h
    rw [refs_eq (by simp [hr]), ht] at hd
    exact mem_singleton.1 hd ▸ hd'
  · next hr =>
    obtain ⟨e, f, ht, hlive⟩ := h
    rw [refs_eq (by simp [hr]), ht] at hd
    exact hlive d hd

lemma Instruction.Linked.resolved {i : Instruction} (h : i.Linked live) : i.target? ≠ some .unresolved := by
  intro hu
  unfold target? at hu
  split_ifs at hu with ht
  rw [some.injEq] at hu
  unfold Linked at h
  split at h
  · next hr => exact hasTarget_eq_true.1 ht hr
  all_goals simp [hu] at h

/-- An instruction that can be read back: its opcode accepts the operand, and it has two handlers exactly if it
enters a protected block. -/
def Instruction.Readable (i : Instruction) : Prop :=
  match i.opcode.role with
  | .plain => i.Proper
  | .leap | .call => ∀ e f, i.target ≠ .handlers e f
  | .protect => ∃ e f, i.target = .handlers e f

lemma Instruction.Linked.readable {i : Instruction} (h : i.Linked live) : i.Readable := by
  unfold Linked at h
  unfold Readable
  cases hr : i.opcode.role with
  | plain =>
    rwa [hr] at h
  | leap | call =>
    rw [hr] at h
    obtain ⟨d, -, ht⟩ := h
    intro e f hh
    rw [ht] at hh
    cases hh
  | protect =>
    rw [hr] at h
    obtain ⟨e, f, ht, -⟩ := h
    exact ⟨e, f, ht⟩

/-- The address that a control transfer at `address` leads to, in a script of `size` bytes. -/
def Target.destination? (start : Handle → Option Nat) (size address : Nat) : Target → Option Nat
  | .unresolved => some address
  | .code h => start h
  | .scriptEnd => some size
  | .handlers _ _ => none

/-- The addresses of the handlers of a protected block that is entered at `address`. A handler at this address
cannot be told from a missing one. -/
def Target.handlerStarts? (start : Handle → Option Nat) (address : Nat) :
    Target → Option (Option Nat × Option Nat)
  | .handlers e f => some ((e.bind start).filter (· ≠ address), (f.bind start).filter (· ≠ address))
  | _ => none

/-- What is read where an instruction was written, at `place` in a script of `stop` bytes. -/
structure Decoded.Shows (start : Handle → Option Nat) (stop place : Nat) (i : Instruction) (d : Decoded) : Prop where
  address : d.address = place
  opcode : d.opcode = i.opcode
  size : d.size = i.size
  operand : i.opcode.hasTarget = false → d.operand = i.operand
  target : d.target = i.target?.bind (Target.destination? start stop place)
  handlers : d.handlers = i.target?.bind (Target.handlerStarts? start place)

/-- Every address that is read is the start of an instruction that was referred to. -/
lemma Decoded.Shows.destinations {start : Handle → Option Nat} {size address : Nat} {i : Instruction} {d : Decoded}
    (h : d.Shows start size address i) (hi : i.Linked live) : ∀ a ∈ d.destinations, ∃ x ∈ i.refs, start x = some a := by
  intro a ha
  simp only [Decoded.destinations, h.target, h.handlers] at ha
  unfold Linked at hi
  cases hr : i.opcode.role with
  | plain =>
    rw [target?_of_plain hr] at ha
    cases ha
  | leap | call =>
    rw [hr] at hi
    obtain ⟨x, -, ht⟩ := hi
    rw [refs_eq (by simp [hr]), ht]
    have hsome : i.target? = some (.code x) := by
      rw [Instruction.target?, if_pos (hasTarget_eq_true.2 (by simp [hr])), ht]
    simp only [hsome, bind_some, Target.destination?, Target.handlerStarts?, append_nil,
      mem_toList] at ha
    exact ⟨x, mem_cons_self, ha⟩
  | protect =>
    rw [hr] at hi
    obtain ⟨e, f, ht, -⟩ := hi
    rw [refs_eq (by simp [hr]), ht]
    have hsome : i.target? = some (.handlers e f) := by
      rw [Instruction.target?, if_pos (hasTarget_eq_true.2 (by simp [hr])), ht]
    simp only [hsome, bind_some, Target.destination?, Target.handlerStarts?, toList_none,
      nil_append, mem_append, mem_toList] at ha
    have hhalf : ∀ slot : Option Handle, (slot.bind start).filter (· ≠ address) = some a →
        ∃ x ∈ slot.toList, start x = some a := fun slot hslot => by
      obtain ⟨hslot, -⟩ := filter_eq_some_iff.1 hslot
      obtain ⟨x, hx, hsx⟩ := bind_eq_some_iff.1 hslot
      exact ⟨x, mem_toList.2 hx, hsx⟩
    rcases ha with ha | ha
    · obtain ⟨x, hx, hsx⟩ := hhalf e ha
      exact ⟨x, mem_append_left _ hx, hsx⟩
    · obtain ⟨x, hx, hsx⟩ := hhalf f ha
      exact ⟨x, mem_append_right _ hx, hsx⟩

namespace Script

lemma split?_append {front rest : Bytes} : split? front.length (front ++ rest) = some (front, rest) := by
  simp [split?]

lemma resolve_sub {address dest : Nat} (h : dest < 2 ^ 32) : resolve address ((dest : Int) - address) = dest := by
  have hmax : maxAddress = 4294967295 := rfl
  unfold resolve
  rw [if_pos (by omega)]
  omega

/-- The offset of an operand, read back. -/
lemma encodeOffset?_eq {width : Nat} {offset : Int} {bs : Bytes} (hw : width = 1 ∨ width = 4)
    (h : encodeOffset? width offset = some bs) : bs.length = width ∧ toInt bs = offset := by
  have hwidth : (if width = 1 then 1 else 4) = width := by rcases hw with rfl | rfl <;> rfl
  simp only [encodeOffset?, offsetFits, hwidth] at h
  split at h
  · next hfits =>
    cases h
    exact ⟨length_ofInt _ _, toInt_ofInt (by omega) hfits⟩
  · cases h

section Layouts

variable {i : Instruction} {address size : Nat} {start : Handle → Option Nat} {bs : Bytes} {t : Target} {width : Nat}

/-- An instruction without target names no address. -/
lemma shows_plain (hr : i.opcode.role = .plain) : (locate address i.opcode i.operand).Shows start size address i := by
  have hplain : locate address i.opcode i.operand = { address, opcode := i.opcode, operand := i.operand } := by
    unfold locate
    split
    · next h => exact absurd (role_of_offset h).1 (by simp [hr])
    · next h => exact absurd (role_of_handlers h).1 (by simp [hr])
    · rfl
    · rfl
  have hnone := target?_of_plain hr
  rw [hplain]
  exact ⟨rfl, rfl, rfl, fun _ => rfl, by rw [hnone]; rfl, by rw [hnone]; rfl⟩

/-- The one offset of a target that is no pair of handlers. -/
lemma offsets?_eq_map (ht : ∀ e f, t ≠ .handlers e f) : offsets? t address size start =
      (t.destination? start size address).map fun a => [(a : Int) - address] := by
  cases t with
  | unresolved => simp [offsets?, Target.destination?]
  | code h => cases hs : start h <;> simp [offsets?, Target.destination?, hs]
  | scriptEnd => rfl
  | handlers e f => exact absurd rfl (ht e f)

/-- The operand of an instruction with one destination. -/
lemma encode_offset (ho : i.opcode.operand = .offset width) (ht : ∀ e f, i.target ≠ .handlers e f)
    (he : i.encode? address size start = some bs) :
    ∃ a body, i.target.destination? start size address = some a ∧ bs = i.opcode.byte :: body ∧
      body.length = width ∧ toInt body = (a : Int) - address := by
  simp only [encode?, ho, offsets?_eq_map ht] at he
  cases hd : i.target.destination? start size address with
  | none => simp [hd] at he
  | some a =>
    simp only [hd, encodeOffsets?, operandSize, ho] at he
    cases hb : encodeOffset? width ((a : Int) - address) with
    | none => simp [hb] at he
    | some body =>
      simp [hb] at he
      obtain ⟨hlen, hint⟩ := encodeOffset?_eq (role_of_offset ho).2 hb
      exact ⟨a, body, rfl, he.symm, hlen, hint⟩

/-- The distance to a handler; zero if there is none. -/
def half (start : Handle → Option Nat) (address : Nat) : Option Handle → Option Int
  | none => some 0
  | some h => (start h).map fun a : Nat => (a : Int) - address

/-- The two offsets of a pair of handlers. -/
lemma offsets?_handlers (e f : Option Handle) : offsets? (.handlers e f) address size start = (do
      let x ← half start address e
      let y ← half start address f
      return [x, y]) := by
  have hsome : ∀ h, ((start h).map fun a => (a : Int) - address) = half start address (some h) := fun h => by
    cases hs : start h <;> simp [half, hs]
  cases e <;> cases f <;> simp only [offsets?, hsome] <;> rfl

/-- The operand of an instruction with two handlers. -/
lemma encode_handlers {e f : Option Handle} (ho : i.opcode.operand = .handlers width)
    (ht : i.target = .handlers e f) (he : i.encode? address size start = some bs) :
    ∃ front back, bs = i.opcode.byte :: (front ++ back) ∧ front.length = width ∧ back.length = width ∧
      half start address e = some (toInt front) ∧ half start address f = some (toInt back) := by
  simp only [encode?, ho, ht, offsets?_handlers] at he
  cases hx : half start address e with
  | none => simp [hx] at he
  | some x =>
    cases hy : half start address f with
    | none => simp [hx, hy] at he
    | some y =>
      have hwidth : 2 * width / 2 = width := by omega
      simp only [hx, hy, encodeOffsets?, operandSize, ho, length_cons, length_nil,
        Option.bind_eq_bind, Option.bind_some, Option.pure_def, hwidth, if_true] at he
      cases hfront : encodeOffset? width x with
      | none => simp [hfront] at he
      | some front =>
        cases hback : encodeOffset? width y with
        | none => simp [hfront, hback] at he
        | some back =>
          simp [hfront, hback] at he
          obtain ⟨hlen, rfl⟩ := encodeOffset?_eq (role_of_handlers ho).2 hfront
          obtain ⟨hlen', rfl⟩ := encodeOffset?_eq (role_of_handlers ho).2 hback
          exact ⟨front, back, he.symm, hlen, hlen', rfl, rfl⟩

/-- A handler is read where it starts. -/
lemma resolveHandler_half {slot : Option Handle} {offset : Int} (hstart : ∀ h a, start h = some a → a < 2 ^ 32)
    (hh : half start address slot = some offset) :
    resolveHandler address offset = (slot.bind start).filter (· ≠ address) := by
  cases slot with
  | none =>
    cases hh
    rfl
  | some h =>
    obtain ⟨x, hx, rfl⟩ := map_eq_some_iff.1 (show (start h).map (fun a : Nat => (a : Int) - address) = _ from hh)
    rw [bind_some, hx, resolveHandler, resolve_sub (hstart h x hx), Option.filter]
    by_cases hxa : x = address
    · simp [hxa]
    · have hne : (x : Int) - address ≠ 0 := by omega
      simp [hxa, hne]

lemma destination?_lt {a : Nat} (hstart : ∀ h a, start h = some a → a < 2 ^ 32)
    (haddress : address < 2 ^ 32) (hsize : size < 2 ^ 32) (h : t.destination? start size address = some a) : a < 2 ^ 32 := by
  cases t with
  | unresolved => exact some.inj h ▸ haddress
  | code d => exact hstart d a h
  | scriptEnd => exact some.inj h ▸ hsize
  | handlers e f => cases h

/-- **An instruction is read back** from the bytes that were written for it. -/
lemma operand?_encode (hi : i.Readable) (hlen : i.size < 2 ^ 32) (hstart : ∀ h a, start h = some a → a < 2 ^ 32)
    (haddress : address < 2 ^ 32) (hsize : size < 2 ^ 32) (he : i.encode? address size start = some bs) :
    ∃ body payload, bs = i.opcode.byte :: body ∧ (∀ rest, operand? i.opcode (body ++ rest) = some (payload, rest)) ∧
      (locate address i.opcode payload).Shows start size address i := by
  cases ho : i.opcode.operand with
  | fixed n =>
    have hr := role_of_fixed ho
    simp only [encode?, ho, some.injEq] at he
    rw [Readable, hr] at hi
    have hlen : i.operand.length = n := by simpa [accepts, ho] using hi hlen
    refine ⟨_, i.operand, he.symm, fun rest => ?_, shows_plain hr⟩
    simp only [operand?, ho, operandSize, ← hlen]
    exact split?_append
  | sized n =>
    have hr := role_of_sized ho
    simp only [encode?, ho, some.injEq] at he
    rw [Readable, hr] at hi
    have hlen : i.operand.length < 256 ^ n := by
      have hle : i.operand.length ≤ 256 ^ n - 1 := by
        simpa [accepts, ho, maxPayload, lengthBytes] using hi hlen
      have := Nat.pow_pos (n := n) (show 0 < 256 by decide)
      omega
    refine ⟨_, i.operand, he.symm, fun rest => ?_, shows_plain hr⟩
    have hlength := @split?_append (ofNat n i.operand.length) (i.operand ++ rest)
    rw [length_ofNat] at hlength
    simp only [operand?, ho, append_assoc, hlength, toNat_ofNat hlen]
    exact split?_append
  | offset width =>
    obtain ⟨hr, -⟩ := role_of_offset ho
    have ht : ∀ e f, i.target ≠ .handlers e f := by
      unfold Readable at hi
      rcases hr with hr | hr <;> rw [hr] at hi <;> exact hi
    have htarget : i.target? = some i.target :=
      if_pos (hasTarget_eq_true.2 (by rcases hr with hr | hr <;> simp [hr]))
    obtain ⟨a, body, hd, rfl, hwidth, hint⟩ := encode_offset ho ht he
    refine ⟨body, body, rfl, fun rest => ?_, ?_⟩
    · simp only [operand?, ho, operandSize, ← hwidth]
      exact split?_append
    · simp only [locate, ho, hint, resolve_sub (destination?_lt hstart haddress hsize hd)]
      refine ⟨rfl, rfl, by simp [Decoded.size, Instruction.size, encodedSize, ho], fun hno => ?_, ?_, ?_⟩
      · rw [Instruction.target?, hno] at htarget
        cases htarget
      · rw [htarget, bind_some, hd]
      · rwa [htarget, bind_some, Target.handlerStarts?]
  | handlers width =>
    obtain ⟨hr, -⟩ := role_of_handlers ho
    obtain ⟨e, f, ht⟩ : ∃ e f, i.target = .handlers e f := by
      rwa [Readable, hr] at hi
    have htarget : i.target? = some (.handlers e f) := by
      rw [Instruction.target?, if_pos (hasTarget_eq_true.2 (by simp [hr])), ht]
    obtain ⟨front, back, rfl, hfront, hback, hx, hy⟩ := encode_handlers ho ht he
    refine ⟨front ++ back, front ++ back, rfl, fun rest => ?_, ?_⟩
    · have hlen : (front ++ back).length = 2 * width := by rw [length_append, hfront, hback, Nat.two_mul]
      simp only [operand?, ho, operandSize, ← hlen]
      exact split?_append
    · simp only [locate, ho, ← hfront, take_left, drop_left, resolveHandler_half hstart hx,
        resolveHandler_half hstart hy]
      refine ⟨rfl, rfl, by simp [Decoded.size, Instruction.size, encodedSize, ho], fun hno => ?_, ?_, ?_⟩
      · rw [Instruction.target?, hno] at htarget
        cases htarget
      · rw [htarget]
        rfl
      · rw [htarget]
        rfl

end Layouts

/-! ### Whole scripts -/

lemma decodeFrom_cons {o : Opcode} {address : Nat} {body payload rest : Bytes} {done : List Decoded}
    (h : operand? o (body ++ rest) = some (payload, rest)) : decodeFrom address (o.byte :: body ++ rest) done =
      decodeFrom (address + (locate address o payload).size) rest (locate address o payload :: done) := by
  rw [cons_append, decodeFrom]
  simp only [ofByte?_byte]
  split
  · next hnone => rw [h] at hnone; cases hnone
  · next hsome =>
    rw [h] at hsome
    cases hsome
    rfl

/-- Instructions that follow each other are read back one after the other. -/
lemma decodeFrom_placed {arena : Array Instruction} {hs : List Handle} {address size : Nat}
    {start : Handle → Option Nat} {parts : List Bytes} (done : List Decoded)
    (hi : ∀ h ∈ hs, ∃ i, arena[h]? = some i ∧ i.Readable) (hstart : ∀ h a, start h = some a → a < 2 ^ 32)
    (hsize : size < 2 ^ 32) (hend : address + span arena hs ≤ size)
    (he : (placed arena address hs).mapM (fun e => e.2.2.encode? e.1 size start) = some parts) :
    ∃ ds, decodeFrom address parts.flatten done = .ok (done.reverse ++ ds) ∧
      Forall₂ (fun e d => Decoded.Shows start size e.1 e.2.2 d) (placed arena address hs) ds := by
  induction hs generalizing address parts done with
  | nil =>
    cases he
    exact ⟨[], by simp [decodeFrom], .nil⟩
  | cons h hs ih =>
    obtain ⟨i, hh, hreadable⟩ := hi h mem_cons_self
    have hlen : CodeMap.sizeOf arena h = i.size := by rw [CodeMap.sizeOf, hh]; rfl
    have hplaced : placed arena address (h :: hs) =
        (address, h, i) :: placed arena (address + i.size) hs := by
      simp [placed, hlen, hh]
    rw [span_cons, hlen] at hend
    rw [hplaced] at he ⊢
    rw [mapM_cons] at he
    obtain ⟨bs, hbs, he⟩ := bind_eq_some_iff.1 he
    obtain ⟨rest, hrest, he⟩ := bind_eq_some_iff.1 he
    cases he
    obtain ⟨body, payload, rfl, hop, hshows⟩ :=
      operand?_encode hreadable (by omega) hstart (by omega) hsize hbs
    obtain ⟨ds, hds, hall⟩ := ih (locate address i.opcode payload :: done)
      (fun x hx => hi x (mem_cons_of_mem _ hx)) (by omega) hrest
    refine ⟨locate address i.opcode payload :: ds, ?_, .cons hshows hall⟩
    rw [flatten_cons, decodeFrom_cons (hop _), hshows.size, hds]
    simp

/-- **The image of a code map decodes to its instructions.** -/
lemma decode_image {m : CodeMap} {bytes : Bytes} (hl : m.Laid)
    (hi : ∀ h ∈ m.live, ∀ i, m.instruction? h = some i → i.Readable) (himage : m.image? = some bytes) :
    bytes.length = m.size ∧ ∃ ds, decode bytes = .ok ds ∧
      Forall₂ (fun e d => Decoded.Shows m.start? m.size e.1 e.2.2 d) m.instructions ds := by
  obtain ⟨parts, hparts, himage⟩ := bind_eq_some_iff.1 himage
  dsimp only at himage
  split at himage
  · next hsize =>
    cases himage
    have hstart : ∀ h a, m.start? h = some a → a < 2 ^ 32 := fun h a ha => by
      obtain ⟨pre, post, hs⟩ := append_of_mem (hl.start?_isSome_iff.1 (by rw [ha]; rfl))
      have hspan : m.size = span m.arena pre + span m.arena (h :: post) := by
        rw [hl.size, hs, span_append]
      rw [hl.start?_split hs, some.injEq] at ha
      omega
    have hreadable : ∀ h ∈ m.live, ∃ i, m.arena[h]? = some i ∧ i.Readable := fun h hm => by
      obtain ⟨i, hhi⟩ := hl.instruction?_isSome hm
      exact ⟨i, hhi, hi h hm i hhi⟩
    rw [hl.instructions_eq] at hparts ⊢
    exact ⟨hsize.1, decodeFrom_placed [] hreadable hstart hsize.2 (by rw [Nat.zero_add, hl.size]) hparts⟩
  · cases himage

lemma map_address_of_shows {start : Handle → Option Nat} {size : Nat} {es : List (Nat × Handle × Instruction)}
    {ds : List Decoded} (hall : Forall₂ (fun e d => Decoded.Shows start size e.1 e.2.2 d) es ds) :
    ds.map Decoded.address = es.map Prod.fst := by
  induction hall with
  | nil => rfl
  | cons h _ ih => rw [map_cons, map_cons, h.address, ih]

lemma exists_of_shows {start : Handle → Option Nat} {size : Nat} {es : List (Nat × Handle × Instruction)}
    {ds : List Decoded} (hall : Forall₂ (fun e d => Decoded.Shows start size e.1 e.2.2 d) es ds) {d : Decoded}
    (hd : d ∈ ds) : ∃ e ∈ es, Decoded.Shows start size e.1 e.2.2 d := by
  induction hall with
  | nil => cases hd
  | cons h _ ih =>
    rcases mem_cons.1 hd with rfl | hd
    · exact ⟨_, mem_cons_self, h⟩
    · obtain ⟨e, he, hs⟩ := ih hd
      exact ⟨e, mem_cons_of_mem _ he, hs⟩

/-- Every destination in the image of a code map is the address of an instruction. -/
lemma decode_image_closed {m : CodeMap} {bytes : Bytes} (hl : m.Laid)
    (hi : ∀ h ∈ m.live, ∀ i, m.instruction? h = some i → i.Linked m.live) (himage : m.image? = some bytes) :
    ∃ ds, decode bytes = .ok ds ∧ ds.map Decoded.address = m.starts.toList ∧
      ∀ d ∈ ds, ∀ a ∈ d.destinations, ∃ e ∈ ds, e.address = a := by
  obtain ⟨-, ds, hds, hall⟩ := decode_image hl (fun h hm i hhi => (hi h hm i hhi).readable) himage
  have haddress := (map_address_of_shows hall).trans hl.map_fst_instructions
  refine ⟨ds, hds, haddress, fun d hd a ha => ?_⟩
  obtain ⟨⟨x, h, i⟩, he, hshows⟩ := exists_of_shows hall hd
  obtain ⟨hm, -, hhi⟩ := hl.mem_instructions he
  obtain ⟨y, -, hy⟩ := hshows.destinations (hi h hm i hhi) a ha
  have hmem := mem_starts_of_start? hy
  rw [← haddress] at hmem
  exact mem_map.1 hmem

end Script

end NeoScript
