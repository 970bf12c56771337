import Mathlib.Algebra.Group.Nat.Defs
import Mathlib.Data.List.Infix
import NeoScript.CompiledUnit.Wire
import NeoScript.Proofs.Lookup

/-!
# The binary form is a prefix code

A reader `Reads` a value from its written form if it finds the value there whatever bytes follow, and runs out of
input on every proper prefix. Both halves pass from the parts of a written form to the whole, because a proper
prefix of two parts in a row ends inside the first or inside the second.

So a unit can be read from the front of any bytes that start with its binary form, and no shortened form of it
can be taken for a unit.
-/

namespace NeoScript

open List Table

namespace Wire

variable {α β : Type}

/-- The reader takes exactly `bs` for `a`: it needs all of it and looks at nothing behind it. -/
structure Reads (read : Reader α) (bs : Bytes) (a : α) : Prop where
  whole : ∀ rest, read.run (bs ++ rest) = .ok (a, rest)
  cut : ∀ front, front <+: bs → front ≠ bs → read.run front = .error .endOfInput

/-! ### One part after another -/

lemma Reads.pure (a : α) : Reads (pure a) [] a where
  whole _ := rfl
  cut _ hfront hne := absurd (prefix_nil.1 hfront) hne

lemma Reads.bind {read : Reader α} {next : α → Reader β} {bs cs : Bytes} {a : α} {b : β}
    (hread : Reads read bs a) (hnext : Reads (next a) cs b) : Reads (read >>= next) (bs ++ cs) b where
  whole rest := by
    rw [StateT.run_bind, append_assoc, hread.whole]
    exact hnext.whole rest
  cut front hfront hne := by
    rw [StateT.run_bind]
    -- A proper prefix of the two parts ends inside the first, or has all of the first and ends inside the second.
    by_cases hall : bs <+: front
    · obtain ⟨tail, rfl⟩ := hall
      rw [hread.whole]
      exact hnext.cut tail ((prefix_append_right_inj bs).1 hfront) fun h => hne (by rw [h])
    · have hinside : front <+: bs :=
        (List.prefix_or_prefix_of_prefix hfront (prefix_append bs cs)).resolve_right hall
      rw [hread.cut front hinside fun h => hall (h ▸ prefix_refl _)]
      rfl

/-- What a reader does with its last part. -/
lemma Reads.map {read : Reader α} {bs : Bytes} {a : α} (hread : Reads read bs a) (f : α → β) :
    Reads (read >>= fun a => Pure.pure (f a)) bs (f a) := by
  rw [← append_nil bs]
  exact hread.bind (Reads.pure (f a))

/-! ### Bytes and numbers -/

lemma reads_byte (b : UInt8) : Reads readByte [b] b where
  whole _ := rfl
  cut front hfront hne := by
    cases front with
    | nil => rfl
    | cons c front =>
      obtain ⟨rfl, hnil⟩ := cons_prefix_cons.1 hfront
      exact absurd (by rw [prefix_nil.1 hnil]) hne

lemma reads_bytes (bs : Bytes) : Reads (readBytes bs.length) bs bs where
  whole rest := by simp [readBytes, StateT.run, Script.split?]
  cut front hfront hne := by
    have hlt : front.length < bs.length :=
      lt_of_le_of_ne hfront.length_le fun h => hne (hfront.eq_of_length h)
    have htake : (front.take bs.length).length ≠ bs.length := by
      rw [length_take]
      omega
    simp only [readBytes, StateT.run, Script.split?, if_neg htake]

/-- A number below 128 is one byte, which must not be above `top` if it is the last one allowed. -/
lemma reads_digit (top count : Nat) {n : Nat} (hn : n < 128) (hlast : count = 0 → n ≤ top) :
    Reads (readNumber top (count + 1)) [n.toUInt8] n := by
  have hb : n.toUInt8.toNat = n := by
    rw [Nat.toUInt8, UInt8.toNat_ofNat']
    omega
  rw [← append_nil [n.toUInt8], readNumber]
  refine (reads_byte n.toUInt8).bind ?_
  rw [hb, if_pos hn, if_neg fun h => absurd (hlast h.1) (Nat.not_le.2 h.2)]
  exact Reads.pure n

/-- A number is read back if the bytes that the reader allows can hold it. -/
lemma reads_number (top count : Nat) {n : Nat} (htop : top < 128) (hn : n < 128 ^ count * (top + 1)) :
    Reads (readNumber top (count + 1)) (number n) n := by
  induction count generalizing n with
  | zero =>
    have hle : n ≤ top := by omega
    rw [number, if_pos (by omega)]
    exact reads_digit top 0 (by omega) fun _ => hle
  | succ count ih =>
    rw [number]
    split
    · next hlt => exact reads_digit top (count + 1) hlt fun h => absurd h (Nat.succ_ne_zero count)
    · have hb : (n % 128 + 128).toUInt8.toNat = n % 128 + 128 := by
        rw [Nat.toUInt8, UInt8.toNat_ofNat']
        omega
      have hrest : n / 128 < 128 ^ count * (top + 1) := by
        rw [Nat.pow_succ, Nat.mul_right_comm] at hn
        exact Nat.div_lt_of_lt_mul (by omega)
      rw [← singleton_append, readNumber]
      refine (reads_byte _).bind ?_
      rw [hb, if_neg (by omega)]
      have hread := (ih hrest).map fun rest => n % 128 + 128 - 128 + 128 * rest
      rwa [show n % 128 + 128 - 128 + 128 * (n / 128) = n by omega] at hread

lemma reads_number16 (n : UInt16) : Reads readNumber16 (number n.toNat) n := by
  have h := (reads_number 3 2 (by decide) n.toNat_lt).map Nat.toUInt16
  rwa [Nat.toUInt16, UInt16.ofNat_toNat] at h

lemma reads_number32 (n : UInt32) : Reads readNumber32 (number n.toNat) n := by
  have h := (reads_number 15 4 (by decide) n.toNat_lt).map Nat.toUInt32
  rwa [Nat.toUInt32, UInt32.ofNat_toNat] at h

lemma reads_length {n : Nat} (hn : n < 2 ^ 64) : Reads readLength (number n) n :=
  reads_number 1 9 (by decide) hn

lemma reads_bool (b : Bool) : Reads readBool [if b then 1 else 0] b := by
  rw [← append_nil [if b then (1 : UInt8) else 0], readBool]
  refine (reads_byte _).bind ?_
  cases b <;> exact Reads.pure _

/-! ### Text, items and records

A length stands in front of what it measures and is below the length of the whole form, so it fits 64 bits if that
length does. -/

lemma toList_loop (bs : ByteArray) (i : Nat) (read : List UInt8) :
    ByteArray.toList.loop bs i read = read.reverse ++ bs.data.toList.drop i := by
  fun_induction ByteArray.toList.loop bs i read with
  | case1 i read hlt ih =>
    have hi : i < bs.data.toList.length := hlt
    have hget : bs.get! i = bs.data.toList[i] := getElem!_pos bs.data i hlt
    rw [ih, drop_eq_getElem_cons hi, hget, reverse_cons, append_assoc]
    rfl
  | case2 i read hge => rw [drop_eq_nil_of_le (Nat.le_of_not_lt hge), append_nil]

lemma fromUTF8?_toUTF8 (s : String) : String.fromUTF8? ⟨s.toUTF8.toList.toArray⟩ = some s := by
  have hdata : s.toUTF8.toList.toArray = s.toUTF8.data := by
    rw [ByteArray.toList, toList_loop]
    rfl
  rw [hdata]
  exact dif_pos s.isValidUTF8

lemma reads_text {s : String} (hlen : (text s).length < 2 ^ 64) : Reads readText (text s) s := by
  have hread : Reads readText (text s ++ []) s := by
    unfold readText
    rw [text, bytes, append_assoc]
    rw [text, bytes, length_append] at hlen
    refine (reads_length (by omega)).bind ((reads_bytes _).bind ?_)
    rw [fromUTF8?_toUTF8]
    exact Reads.pure s
  rwa [append_nil] at hread

variable {read : Reader α} {write : α → Bytes}

lemma reads_count (hread : ∀ a, (write a).length < 2 ^ 64 → Reads read (write a) a) {l : List α}
    (hlen : (l.flatMap write).length < 2 ^ 64) : Reads (readCount read l.length) (l.flatMap write) l := by
  induction l with
  | nil => exact Reads.pure []
  | cons a l ih =>
    rw [flatMap_cons, length_append] at hlen
    rw [flatMap_cons, length_cons, readCount]
    exact (hread a (by omega)).bind ((ih (by omega)).map (a :: ·))

lemma length_le_flatMap (hwrite : ∀ a, write a ≠ []) (l : List α) : l.length ≤ (l.flatMap write).length := by
  induction l with
  | nil => exact Nat.le_refl 0
  | cons a l ih =>
    have ha := length_pos_of_ne_nil (hwrite a)
    rw [flatMap_cons, length_append, length_cons]
    omega

lemma reads_items (hwrite : ∀ a, write a ≠ [])
    (hread : ∀ a, (write a).length < 2 ^ 64 → Reads read (write a) a) {l : List α}
    (hlen : (items write l).length < 2 ^ 64) : Reads (readItems read) (items write l) l := by
  rw [items, length_append] at hlen
  have hcount := length_le_flatMap hwrite l
  exact (reads_length (by omega)).bind (reads_count hread (by omega))

lemma number_ne_nil (n : Nat) : number n ≠ [] := by
  rw [number]
  split <;> exact cons_ne_nil _ _

lemma text_ne_nil (s : String) : text s ≠ [] := fun h => number_ne_nil _ (append_eq_nil_iff.1 h).1

lemma reads_hash (hash : ContractHash) : Reads readHash hash.toList hash := by
  have hread : Reads readHash (hash.toList ++ []) hash := by
    have hbytes := reads_bytes hash.toList
    rw [Vector.length_toList] at hbytes
    refine hbytes.bind ?_
    have hsize : hash.toList.toArray.size = 20 := by simp
    rw [dif_pos hsize]
    exact Reads.pure hash
  rwa [append_nil] at hread

lemma reads_token (t : MethodToken) (hlen : (token t).length < 2 ^ 64) : Reads readToken (token t) t := by
  have hsplit : token t = t.hash.toList ++ (text t.method ++ (number t.parameters.toNat ++
      ([if t.returnsValue then 1 else 0] ++ [t.flags.bits]))) := by
    simp [token]
  rw [hsplit, length_append, length_append] at hlen
  rw [hsplit]
  exact (reads_hash t.hash).bind ((reads_text (by omega)).bind ((reads_number16 t.parameters).bind
    ((reads_bool t.returnsValue).bind ((reads_byte t.flags.bits).map _))))

lemma reads_method (e : String × MethodRange) (hlen : (method e).length < 2 ^ 64) : Reads readMethod (method e) e := by
  rw [method, append_assoc, length_append] at hlen
  rw [method, append_assoc]
  exact (reads_text (by omega)).bind ((reads_number32 e.2.start).bind ((reads_number32 e.2.stop).map _))

lemma reads_failure (f : MethodFailure) (hlen : (failure f).length < 2 ^ 64) : Reads readFailure (failure f) f := by
  rw [failure, length_append] at hlen
  exact (reads_text (by omega)).bind ((reads_text (by omega)).map _)

lemma token_ne_nil (t : MethodToken) : token t ≠ [] := by simp [token]

lemma method_ne_nil (e : String × MethodRange) : method e ≠ [] := by simp [method, text_ne_nil]

lemma failure_ne_nil (f : MethodFailure) : failure f ≠ [] := by simp [failure, text_ne_nil]

lemma reads_unit (u : CompiledUnit) (hlen : u.dump.length < 2 ^ 64) : Reads readUnit u.dump u := by
  have hsplit : u.dump = number u.script.length ++ (u.script ++ (items token u.tokens ++
      (items method u.methods.entries ++ ([u.staticFields] ++ items failure u.failures)))) := by
    simp [CompiledUnit.dump, bytes]
  have htable : ofList u.methods.entries = u.methods :=
    ext_entries (entries_ofList u.methods.nodup)
  simp only [hsplit, length_append] at hlen
  have htokens : Reads (readItems readToken) (items token u.tokens) u.tokens :=
    reads_items token_ne_nil reads_token (by omega)
  have hmethods : Reads (readItems readMethod) (items method u.methods.entries) u.methods.entries :=
    reads_items method_ne_nil reads_method (by omega)
  have hfailures : Reads (readItems readFailure) (items failure u.failures) u.failures :=
    reads_items failure_ne_nil reads_failure (by omega)
  rw [hsplit]
  refine (reads_length (by omega)).bind ((reads_bytes u.script).bind (htokens.bind (hmethods.bind
    ((reads_byte u.staticFields).bind ?_))))
  rw [htable]
  exact hfailures.map fun failures => { u with failures }

end Wire

namespace CompiledUnit

/-- The binary form of a unit is a prefix code: whatever follows it, the unit is read back, and of a form that was
cut off nothing is read. A form is a string of bytes in memory, whose length is a number of 64 bits. -/
theorem load_dump_prefix_code (u : CompiledUnit) (hlen : u.dump.length < 2 ^ 64) :
    (∀ rest, load (u.dump ++ rest) = .ok u) ∧
      ∀ front, front <+: u.dump → front ≠ u.dump → load front = .error .endOfInput := by
  have hread := Wire.reads_unit u hlen
  constructor
  · intro rest
    rw [load, hread.whole rest]
    rfl
  · intro front hfront hne
    rw [load, hread.cut front hfront hne]
    rfl

/-- A unit with a token, two methods, static fields and a failure. -/
def storingUnit : CompiledUnit where
  script := List.replicate 130 0x40
  tokens := [.serialize]
  methods := .ofList [("_initialize", ⟨0, 127⟩), ("main", ⟨128, 129⟩)]
  staticFields := 2
  failures := [⟨"scale", "unknown symbol 'x'"⟩]

theorem load_dump_prefix_code_storing :
    storingUnit.dump.length = 217 ∧ load (storingUnit.dump ++ [0xff]) = .ok storingUnit ∧
      load (storingUnit.dump.take 216) = .error .endOfInput := by
  have hsize : storingUnit.dump.length = 217 := by decide +kernel
  obtain ⟨hwhole, hcut⟩ := load_dump_prefix_code storingUnit (by rw [hsize]; decide)
  refine ⟨hsize, hwhole [0xff], hcut _ (List.take_prefix 216 _) fun h => ?_⟩
  have hlen := congrArg List.length h
  rw [List.length_take, hsize] at hlen
  exact absurd hlen (by decide)

end CompiledUnit

end NeoScript
