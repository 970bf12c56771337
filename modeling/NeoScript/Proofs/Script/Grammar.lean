import NeoScript.Proofs.Script.Encoding
import NeoScript.Script.Decoding

/-!
# The grammar of scripts

A script is a row of instructions, each spelled as its opcode byte and its operand. An operand has a fixed number of
bytes, or the bytes that hold its length stand before it. `Spelling` and `Sentence` say this without a decoder.

No spelling is the front of another one, so a script can be taken apart in one way at most. Decoding finds this way, and
if there is none it names the first place where no instruction is spelled.
-/

namespace NeoScript

open List Opcode Bytes

namespace Decoded

/-- The opcode of a decoded instruction with its operand. -/
def item (d : Decoded) : Opcode × Bytes := (d.opcode, d.operand)

/-- A decoded instruction, written from its opcode and operand. -/
def encode (d : Decoded) : Bytes :=
  d.opcode.byte :: (Bytes.ofNat d.opcode.lengthBytes d.operand.length ++ d.operand)

/-- The instructions follow each other from `start` to `stop` without a gap. -/
def Contiguous : (start : Nat) → List Decoded → (stop : Nat) → Prop
  | start, [], stop => start = stop
  | start, d :: ds, stop => d.address = start ∧ Contiguous (start + d.size) ds stop

end Decoded

namespace Script

/-! ### Spellings -/

/-- The bytes that spell an opcode with an operand. -/
inductive Spelling : Opcode → Bytes → Bytes → Prop where
  | fixed {o : Opcode} {operand : Bytes} (hfixed : o.lengthBytes = 0) (hlength : operand.length = o.operandSize) :
      Spelling o operand (o.byte :: operand)
  | sized {o : Opcode} {length operand : Bytes} (hsized : 0 < o.lengthBytes) (hbytes : length.length = o.lengthBytes)
      (hlength : Bytes.toNat length = operand.length) : Spelling o operand (o.byte :: (length ++ operand))

/-- The bytes that spell opcodes with their operands, one after the other. -/
inductive Sentence : List (Opcode × Bytes) → Bytes → Prop where
  | nil : Sentence [] []
  | cons {o : Opcode} {operand front rest : Bytes} {items : List (Opcode × Bytes)} (hfirst : Spelling o operand front)
      (hrest : Sentence items rest) : Sentence ((o, operand) :: items) (front ++ rest)

/-- Bytes that do not start with an instruction, and what is said about them if they stand at `address`. -/
inductive Refused (address : Nat) : Bytes → DecodeError → Prop where
  | unknown {b : UInt8} {rest : Bytes} (h : ∀ o : Opcode, o.byte ≠ b) :
      Refused address (b :: rest) (.unknownOpcode address b)
  | truncated {o : Opcode} {rest : Bytes} (h : ∀ operand front, Spelling o operand front → ¬ front <+: o.byte :: rest) :
      Refused address (o.byte :: rest) (.truncated address o)

variable {o : Opcode} {operand bs front rest script : Bytes} {items : List (Opcode × Bytes)} {address n : Nat}
  {done ds : List Decoded} {e : DecodeError}

/-! ### One instruction -/

lemma split?_eq_some : split? n bs = some (front, rest) ↔ front.length = n ∧ bs = front ++ rest := by
  unfold split?
  constructor
  · intro h
    dsimp only at h
    split_ifs at h with hlen
    cases h
    exact ⟨hlen, (take_append_drop n bs).symm⟩
  · rintro ⟨rfl, rfl⟩
    simp

lemma sized_pos (h : o.operand = .sized n) : 0 < n := by
  cases o with
  | pushData scale =>
    cases h
    positivity
  | load kind slot | store kind slot => cases slot <;> cases h
  | _ => cases h

lemma operand_of_lengthBytes_pos (h : 0 < o.lengthBytes) : o.operand = .sized o.lengthBytes := by
  unfold lengthBytes at h ⊢
  split
  · assumption
  · next hne =>
    split at h
    · next hn => exact absurd hn (hne _)
    · cases h

lemma operand_of_lengthBytes_zero (h : o.lengthBytes = 0) (n : Nat) : o.operand ≠ .sized n := by
  intro hn
  rw [lengthBytes, hn] at h
  exact absurd h (sized_pos hn).ne'

/-- **Reading an operand** takes off what is spelled behind the opcode. -/
lemma operand?_eq_some :
    operand? o bs = some (operand, rest) ↔ ∃ body, Spelling o operand (o.byte :: body) ∧ bs = body ++ rest := by
  rcases Nat.eq_zero_or_pos o.lengthBytes with hfixed | hsized
  · have hread : operand? o bs = split? o.operandSize bs := by
      unfold operand?
      split
      · next n hn => exact absurd hn (operand_of_lengthBytes_zero hfixed n)
      · rfl
    rw [hread, split?_eq_some]
    constructor
    · rintro ⟨hlen, rfl⟩
      exact ⟨operand, .fixed hfixed hlen, rfl⟩
    · rintro ⟨body, hs, rfl⟩
      cases hs with
      | fixed _ hlen => exact ⟨hlen, rfl⟩
      | sized hpos => omega
  · have hread : operand? o bs = (split? o.lengthBytes bs).bind fun p => split? (toNat p.1) p.2 := by
      unfold operand?
      simp only [operand_of_lengthBytes_pos hsized]
      cases split? o.lengthBytes bs <;> rfl
    rw [hread, Option.bind_eq_some_iff]
    constructor
    · rintro ⟨⟨length, tail⟩, hlength, hoperand⟩
      obtain ⟨hbytes, rfl⟩ := split?_eq_some.1 hlength
      obtain ⟨hlen, htail⟩ := split?_eq_some.1 hoperand
      dsimp only at hlen htail
      exact ⟨length ++ operand, .sized hsized hbytes hlen.symm, by rw [htail, append_assoc]⟩
    · rintro ⟨body, hs, rfl⟩
      cases hs with
      | fixed hzero => omega
      | sized _ hbytes hlength =>
        refine ⟨(_, operand ++ rest), split?_eq_some.2 ⟨hbytes, append_assoc _ _ _⟩, ?_⟩
        exact split?_eq_some.2 ⟨hlength.symm, rfl⟩

lemma Spelling.head (h : Spelling o operand front) : ∃ body, front = o.byte :: body := by
  cases h <;> exact ⟨_, rfl⟩

lemma Spelling.length_eq (h : Spelling o operand front) : front.length = o.encodedSize operand.length := by
  unfold Opcode.encodedSize
  cases h with
  | fixed hfixed hlen =>
    split
    · next n hn => exact absurd hn (operand_of_lengthBytes_zero hfixed n)
    · rw [length_cons, hlen, add_comm]
  | sized hsized hbytes =>
    rw [operand_of_lengthBytes_pos hsized]
    simp only [length_cons, length_append, hbytes]
    omega

/-- Bytes start with an instruction, or are refused. -/
lemma refused_or_spelled (hne : bs ≠ []) (address : Nat) :
    (∃ e, Refused address bs e) ∨ ∃ o operand front rest, Spelling o operand front ∧ bs = front ++ rest := by
  obtain ⟨b, bs, rfl⟩ := exists_cons_of_ne_nil hne
  by_cases hknown : ∃ o : Opcode, o.byte = b
  · obtain ⟨o, rfl⟩ := hknown
    by_cases hspelled : ∃ operand front, Spelling o operand front ∧ front <+: o.byte :: bs
    · obtain ⟨operand, front, hs, rest, hrest⟩ := hspelled
      exact .inr ⟨o, operand, front, rest, hs, hrest.symm⟩
    · exact .inl ⟨_, .truncated fun operand front hs hp => hspelled ⟨operand, front, hs, hp⟩⟩
  · exact .inl ⟨_, .unknown fun o ho => hknown ⟨o, ho⟩⟩

/-! ### Decoding a row of instructions -/

/-- Opcodes with their operands, as they are decoded from `address` on. -/
def located : (address : Nat) → List (Opcode × Bytes) → List Decoded
  | _, [] => []
  | address, (o, operand) :: items => locate address o operand :: located (address + o.encodedSize operand.length) items

lemma locate_shape (address : Nat) (o : Opcode) (operand : Bytes) :
    (locate address o operand).address = address ∧ (locate address o operand).opcode = o ∧
      (locate address o operand).operand = operand := by
  unfold locate
  split <;> exact ⟨rfl, rfl, rfl⟩

lemma decodeFrom_spelled (h : Spelling o operand front) (address : Nat) (rest : Bytes) (done : List Decoded) :
    decodeFrom address (front ++ rest) done =
      decodeFrom (address + o.encodedSize operand.length) rest (locate address o operand :: done) := by
  obtain ⟨body, rfl⟩ := h.head
  have hread : operand? o (body ++ rest) = some (operand, rest) := operand?_eq_some.2 ⟨body, h, rfl⟩
  obtain ⟨-, hopcode, hoperand⟩ := locate_shape address o operand
  have hsize : (locate address o operand).size = o.encodedSize operand.length := by
    rw [Decoded.size, hopcode, hoperand]
  rw [cons_append, decodeFrom]
  simp only [ofByte?_byte]
  split
  · next hnone =>
    rw [hread] at hnone
    cases hnone
  · next hsome =>
    rw [hread] at hsome
    cases hsome
    rw [hsize]

lemma decodeFrom_refused (h : Refused address bs e) (done : List Decoded) : decodeFrom address bs done = .error e := by
  cases h with
  | @unknown b rest h =>
    have hnone : ofByte? b = none :=
      find?_eq_none.2 fun o _ ho => h o (beq_iff_eq.1 ho)
    rw [decodeFrom, hnone]
  | @truncated o rest h =>
    rw [decodeFrom]
    simp only [ofByte?_byte]
    split
    · rfl
    · next operand rest' hsome =>
      obtain ⟨body, hs, rfl⟩ := operand?_eq_some.1 hsome
      exact absurd (prefix_append _ _) (h operand _ hs)

/-- A row of instructions is decoded, and then what is behind it. -/
lemma decodeFrom_sentence (h : Sentence items front) (address : Nat) (rest : Bytes) (done : List Decoded) :
    decodeFrom address (front ++ rest) done =
      decodeFrom (address + front.length) rest ((located address items).reverse ++ done) := by
  induction h generalizing address done with
  | nil => rfl
  | @cons o operand front tail items hfirst _ ih =>
    rw [append_assoc, decodeFrom_spelled hfirst, ih, located, length_append, hfirst.length_eq, add_assoc,
      reverse_cons, append_assoc]
    rfl

/-- The instructions that bytes start with, up to where there is no other. -/
lemma exists_sentence (bs : Bytes) (address : Nat) :
    ∃ items front rest, Sentence items front ∧ bs = front ++ rest ∧
      (rest = [] ∨ ∃ e, Refused (address + front.length) rest e) := by
  induction hn : bs.length using Nat.strongRecOn generalizing bs address with
  | _ n ih =>
    by_cases hne : bs = []
    · exact ⟨[], [], bs, .nil, rfl, .inl hne⟩
    rcases refused_or_spelled hne address with ⟨e, he⟩ | ⟨o, operand, front, rest, hs, rfl⟩
    · exact ⟨[], [], bs, .nil, rfl, .inr ⟨e, he⟩⟩
    · have hlt : rest.length < n := by
        obtain ⟨body, rfl⟩ := hs.head
        rw [← hn, length_append, length_cons]
        omega
      obtain ⟨items, front', rest', hsentence, rfl, hend⟩ := ih _ hlt rest (address + front.length) rfl
      refine ⟨(o, operand) :: items, front ++ front', rest', .cons hs hsentence, (append_assoc _ _ _).symm, ?_⟩
      rwa [length_append, ← add_assoc]

/-! ### Whole scripts -/

lemma map_item_located (address : Nat) (items : List (Opcode × Bytes)) :
    (located address items).map Decoded.item = items := by
  induction items generalizing address with
  | nil => rfl
  | cons i items ih =>
    obtain ⟨-, hopcode, hoperand⟩ := locate_shape address i.1 i.2
    rw [located, map_cons, ih, Decoded.item, hopcode, hoperand]

lemma contiguous_located (h : Sentence items script) (address : Nat) :
    Decoded.Contiguous address (located address items) (address + script.length) := by
  induction h generalizing address with
  | nil => rfl
  | @cons o operand front rest items hfirst _ ih =>
    obtain ⟨haddress, hopcode, hoperand⟩ := locate_shape address o operand
    refine ⟨haddress, ?_⟩
    rw [Decoded.size, hopcode, hoperand, length_append, ← add_assoc, ← hfirst.length_eq]
    exact ih _

/-- The bytes that hold a length are those that the length is written with. -/
lemma ofNat_toNat (bs : Bytes) : ofNat bs.length (toNat bs) = bs := by
  induction bs with
  | nil => rfl
  | cons b bs ih =>
    have hb : b.toNat < 256 := b.toNat_lt
    have hdiv : (b.toNat + 256 * toNat bs) / 256 = toNat bs := by omega
    have hmod : (b.toNat + 256 * toNat bs).toUInt8 = b := by
      rw [← UInt8.toNat_inj, Nat.toUInt8, UInt8.toNat_ofNat']
      omega
    rw [length_cons, Bytes.toNat, ofNat, hdiv, hmod, ih]

lemma Spelling.encode_locate (h : Spelling o operand front) (address : Nat) :
    (locate address o operand).encode = front := by
  obtain ⟨-, hopcode, hoperand⟩ := locate_shape address o operand
  rw [Decoded.encode, hopcode, hoperand]
  cases h with
  | fixed hfixed => rw [hfixed, ofNat, nil_append]
  | sized _ hbytes hlength => rw [← hlength, ← hbytes, ofNat_toNat]

lemma encode_located (h : Sentence items script) (address : Nat) :
    ((located address items).map Decoded.encode).flatten = script := by
  induction h generalizing address with
  | nil => rfl
  | cons hfirst _ ih => rw [located, map_cons, flatten_cons, hfirst.encode_locate, ih]

lemma decode_sentence (h : Sentence items script) : decode script = .ok (located 0 items) := by
  have hrun := decodeFrom_sentence h 0 [] []
  rwa [append_nil, append_nil, decodeFrom, reverse_reverse] at hrun

lemma decode_refused (h : Sentence items front) (he : Refused front.length rest e) :
    decode (front ++ rest) = .error e := by
  rw [decode, decodeFrom_sentence h, zero_add]
  exact decodeFrom_refused he _

/-- A script is a row of instructions, or some instructions are followed by bytes that are refused. -/
lemma sentence_or_refused (script : Bytes) : (∃ items, Sentence items script) ∨
      ∃ items front rest e, Sentence items front ∧ script = front ++ rest ∧ Refused front.length rest e := by
  obtain ⟨items, front, rest, hs, rfl, rfl | ⟨e, he⟩⟩ := exists_sentence script 0
  · exact .inl ⟨items, by rwa [append_nil]⟩
  · exact .inr ⟨items, front, rest, e, hs, rfl, by rwa [zero_add] at he⟩

lemma sentence_of_decode (h : decode script = .ok ds) : ∃ items, Sentence items script ∧ ds = located 0 items := by
  obtain ⟨items, hs⟩ | ⟨items, front, rest, e, hs, rfl, he⟩ := sentence_or_refused script
  · refine ⟨items, hs, ?_⟩
    rw [decode_sentence hs] at h
    exact (Except.ok.inj h).symm
  · rw [decode_refused hs he] at h
    cases h

/-- A script can be taken apart in one way only. -/
lemma Sentence.unique {items' : List (Opcode × Bytes)} (h : Sentence items script) (h' : Sentence items' script) :
    items = items' := by
  have heq : located 0 items = located 0 items' := Except.ok.inj ((decode_sentence h).symm.trans (decode_sentence h'))
  rw [← map_item_located 0 items, heq, map_item_located]

/-- **Decoding accepts exactly the instruction grammar.** A script is decoded if and only if it is a row of instructions.
The result then is the one way to take it apart: the instructions follow each other from address zero to the end of the
script, and written one after the other they are the script. Otherwise the error names the address of the first
instruction that is none, which stands behind those that are, and says what is wrong with it. -/
theorem decode_accepts_grammar (script : Bytes) :
    ((∃ ds, decode script = .ok ds) ↔ ∃ items, Sentence items script) ∧
      (∀ ds, decode script = .ok ds → (∀ items, Sentence items script ↔ items = ds.map Decoded.item) ∧
        Decoded.Contiguous 0 ds script.length ∧ (ds.map Decoded.encode).flatten = script) ∧
      ∀ e, decode script = .error e ↔
        ∃ items front rest, Sentence items front ∧ script = front ++ rest ∧ Refused front.length rest e := by
  refine ⟨⟨?_, ?_⟩, fun ds hds => ?_, fun e => ⟨fun herror => ?_, ?_⟩⟩
  · rintro ⟨ds, hds⟩
    obtain ⟨items, hs, -⟩ := sentence_of_decode hds
    exact ⟨items, hs⟩
  · rintro ⟨items, hs⟩
    exact ⟨_, decode_sentence hs⟩
  · obtain ⟨items, hs, rfl⟩ := sentence_of_decode hds
    have hstop := contiguous_located hs 0
    rw [Nat.zero_add] at hstop
    refine ⟨fun items' => ?_, hstop, encode_located hs 0⟩
    rw [map_item_located]
    exact ⟨fun h => h.unique hs, fun h => h ▸ hs⟩
  · obtain ⟨items, hs⟩ | ⟨items, front, rest, e', hs, rfl, he⟩ := sentence_or_refused script
    · rw [decode_sentence hs] at herror
      cases herror
    · rw [decode_refused hs he] at herror
      cases herror
      exact ⟨items, front, rest, hs, rfl, he⟩
  · rintro ⟨items, front, rest, hs, rfl, he⟩
    exact decode_refused hs he

-- A length that reaches beyond the end, behind an instruction whose operand looks like an unknown opcode.
example : decode [0x00, 0xFF, 0x0C, 0x02, 0x68] = .error (.truncated 2 (.pushData 0)) := by cbv

end Script

end NeoScript
