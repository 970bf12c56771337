import NeoScript.Generator.Finish
import NeoScript.Proofs.CodeMap.Layout
import NeoScript.Proofs.Lookup

/-!
# Ranges of methods

The range of a method goes from its entry up to the byte before the next entry. Ranges of methods with different
entries, of which one is the first instruction, therefore cover the code without gaps and without overlaps.
-/

namespace NeoScript

open List CodeMap Table

/-- Ranges that follow one another without a gap from the address `a` to the end of a script of `size` bytes. -/
def Tiles (size : Nat) : Nat → List (String × MethodRange) → Prop
  | a, [] => a = size
  | a, (_, r) :: rest => r.start.toNat = a ∧ a ≤ r.stop.toNat ∧ Tiles size (r.stop.toNat + 1) rest

lemma Tiles.le_start {size a : Nat} {rs : List (String × MethodRange)} (h : Tiles size a rs) :
    ∀ e ∈ rs, a ≤ e.2.start.toNat := by
  induction rs generalizing a with
  | nil => exact nofun
  | cons r rs ih =>
    obtain ⟨hstart, hstop, hrest⟩ := h
    intro e he
    rcases mem_cons.1 he with rfl | he
    · exact Nat.le_of_eq hstart.symm
    · exact Nat.le_trans (Nat.le_succ_of_le hstop) (ih hrest e he)

lemma Tiles.increasing {size a : Nat} {rs : List (String × MethodRange)} (h : Tiles size a rs) :
    rs.Pairwise fun e e' => e.2.start < e'.2.start := by
  induction rs generalizing a with
  | nil => exact .nil
  | cons r rs ih =>
    obtain ⟨hstart, hstop, hrest⟩ := h
    refine .cons (fun e he => UInt32.lt_iff_toNat_lt.2 ?_) (ih hrest)
    have := hrest.le_start e he
    omega

namespace Generator

/-! ### Ranges from starts -/

lemma map_fst_rangesUpTo (size : Nat) (starts : List (String × Nat)) :
    (rangesUpTo size starts).map Prod.fst = starts.map Prod.fst := by
  induction starts with
  | nil => rfl
  | cons e rest ih => rw [rangesUpTo, map_cons, map_cons, ih]

lemma map_start_rangesUpTo {size : Nat} {starts : List (String × Nat)} (h : ∀ e ∈ starts, e.2 < 2 ^ 32) :
    (rangesUpTo size starts).map (fun e => (e.1, e.2.start.toNat)) = starts := by
  induction starts with
  | nil => rfl
  | cons e rest ih =>
    rw [rangesUpTo, map_cons, ih fun e he => h e (mem_cons_of_mem _ he)]
    have he : e.2.toUInt32.toNat = e.2 := UInt32.toNat_ofNat_of_lt' (h e mem_cons_self)
    rw [he]

lemma tiles_rangesUpTo {size : Nat} {starts : List (String × Nat)} (hlt : ∀ e ∈ starts, e.2 < size)
    (hinc : starts.Pairwise fun e e' => e.2 < e'.2) (hsize : size < 2 ^ 32) :
    Tiles size ((starts.head?.map Prod.snd).getD size) (rangesUpTo size starts) := by
  induction starts with
  | nil => rfl
  | cons e rest ih =>
    obtain ⟨hfirst, hinc⟩ := pairwise_cons.1 hinc
    have ih := ih (fun e he => hlt e (mem_cons_of_mem _ he)) hinc
    have he := hlt e mem_cons_self
    have hnext : e.2 < (rest.head?.map Prod.snd).getD size ∧ (rest.head?.map Prod.snd).getD size ≤ size := by
      cases rest with
      | nil => exact ⟨he, Nat.le_refl _⟩
      | cons e' rest => exact ⟨hfirst e' mem_cons_self, Nat.le_of_lt (hlt e' (by simp))⟩
    rw [rangesUpTo]
    generalize (rest.head?.map Prod.snd).getD size = next at ih hnext
    have hword : size < UInt32.size := hsize
    have hstart : e.2.toUInt32.toNat = e.2 := UInt32.toNat_ofNat_of_lt' (by omega)
    have hstop : (next - 1).toUInt32.toNat = next - 1 := UInt32.toNat_ofNat_of_lt' (by omega)
    refine ⟨hstart, ?_, ?_⟩
    · change e.2 ≤ _
      rw [hstop]
      omega
    · rw [hstop, Nat.sub_add_cancel (by omega)]
      exact ih

/-! ### Ranges of a generator -/

variable {g : Generator} {m : String} {a : Nat}

/-- The addresses of the methods' entries, in ascending order. -/
def methodStarts (g : Generator) : List (String × Nat) :=
  (g.entries.entries.filterMap fun e => (g.code.start? e.2).map fun a => (e.1, a)).mergeSort fun a b => a.2 ≤ b.2

lemma mem_methodStarts : (m, a) ∈ g.methodStarts ↔ ∃ d, g.entries.get? m = some d ∧ g.code.start? d = some a := by
  simp [methodStarts, get?_eq_some_iff]

lemma nodup_methodStarts (g : Generator) : (g.methodStarts.map Prod.fst).Nodup := by
  refine ((mergeSort_perm _ _).map Prod.fst).nodup_iff.2 (g.entries.nodup.sublist ?_)
  rw [map_filterMap]
  generalize g.entries.entries = es
  induction es with
  | nil => exact .slnil
  | cons e es ih =>
    rw [filterMap_cons]
    cases g.code.start? e.2 with
    | none => exact ih.cons _
    | some a => exact ih.cons_cons _

/-- Methods with different entries start at different addresses. -/
lemma methodStarts_increasing (hl : g.code.Laid)
    (hinj : ∀ m m' d, g.entries.get? m = some d → g.entries.get? m' = some d → m = m') :
    g.methodStarts.Pairwise fun e e' => e.2 < e'.2 := by
  have hsorted : g.methodStarts.Pairwise fun e e' => e.2 ≤ e'.2 := by
    refine (pairwise_mergeSort (fun a b c hab hbc => ?_) (fun a b => ?_) _).imp fun h => of_decide_eq_true h
    · exact decide_eq_true (Nat.le_trans (of_decide_eq_true hab) (of_decide_eq_true hbc))
    · simpa using Nat.le_total a.2 b.2
  refine (hsorted.and (Nodup.of_map _ g.nodup_methodStarts)).imp_of_mem fun {e e'} he he' ⟨hle, hne⟩ => ?_
  refine Nat.lt_of_le_of_ne hle fun heq => hne ?_
  obtain ⟨d, hd, ha⟩ := mem_methodStarts.1 he
  obtain ⟨d', hd', ha'⟩ := mem_methodStarts.1 he'
  obtain rfl := hl.start?_inj (heq ▸ ha) ha'
  exact Prod.ext (hinj _ _ _ hd hd') heq

lemma methodStarts_lt (hl : g.code.Laid) : ∀ e ∈ g.methodStarts, e.2 < g.code.size := fun e he => by
  obtain ⟨d, -, ha⟩ := mem_methodStarts.1 he
  have hmem := mem_starts_of_start? ha
  rw [hl.starts] at hmem
  have := lt_of_mem_startsFrom hl.bound hmem
  rwa [Nat.zero_add, ← hl.size] at this

/-- If some method starts with the first instruction, the first method starts at zero. -/
lemma methodStarts_head (hl : g.code.Laid) (hsorted : g.methodStarts.Pairwise fun e e' => e.2 < e'.2)
    (hfirst : ∀ d, g.code.live.head? = some d → ∃ m, g.entries.get? m = some d) :
    (g.methodStarts.head?.map Prod.snd).getD g.code.size = 0 := by
  cases hlive : g.code.live with
  | nil =>
    have hsize : g.code.size = 0 := by rw [hl.size, hlive, span_nil]
    have hnone : g.methodStarts = [] := eq_nil_iff_forall_not_mem.2 fun e he => by
      have := methodStarts_lt hl e he
      omega
    rw [hnone, hsize]
    rfl
  | cons d rest =>
    obtain ⟨m, hm⟩ := hfirst d (by rw [hlive]; rfl)
    have hstart : g.code.start? d = some 0 := @CodeMap.Laid.start?_split g.code [] rest d hl hlive
    have hzero : (m, 0) ∈ g.methodStarts := mem_methodStarts.2 ⟨d, hm, hstart⟩
    cases hstarts : g.methodStarts with
    | nil =>
      rw [hstarts] at hzero
      cases hzero
    | cons e es =>
      rw [hstarts] at hzero hsorted
      rcases mem_cons.1 hzero with rfl | hmem
      · rfl
      · exact absurd ((pairwise_cons.1 hsorted).1 _ hmem) (Nat.not_lt_zero _)

lemma entries_methodRanges (g : Generator) : g.methodRanges.entries = rangesUpTo g.code.size g.methodStarts := by
  refine entries_ofList ?_
  rw [map_fst_rangesUpTo]
  exact g.nodup_methodStarts

/-- **The ranges of methods with different entries cover the code.** -/
lemma tiles_methodRanges (hl : g.code.Laid) (hsize : g.code.size < 2 ^ 32)
    (hinj : ∀ m m' d, g.entries.get? m = some d → g.entries.get? m' = some d → m = m')
    (hfirst : ∀ d, g.code.live.head? = some d → ∃ m, g.entries.get? m = some d) :
    Tiles g.code.size 0 g.methodRanges.entries := by
  have hsorted := methodStarts_increasing hl hinj
  have htiles := tiles_rangesUpTo (methodStarts_lt hl) hsorted hsize
  rwa [methodStarts_head hl hsorted hfirst, ← entries_methodRanges] at htiles

/-- The methods that have a range are those whose entry is live, and the range starts with the entry. -/
lemma start_methodRanges (hl : g.code.Laid) (hsize : g.code.size < 2 ^ 32) :
    (g.methodRanges.get? m).map (fun r => r.start.toNat) = (g.entries.get? m).bind g.code.start? := by
  have hmap : (g.methodRanges.entries.map fun e => (e.1, e.2.start.toNat)) = g.methodStarts := by
    rw [entries_methodRanges]
    exact map_start_rangesUpTo fun e he => Nat.lt_trans (methodStarts_lt hl e he) hsize
  refine Option.ext fun a => ?_
  rw [Option.map_eq_some_iff, Option.bind_eq_some_iff, ← mem_methodStarts, ← hmap]
  simp [get?_eq_some_iff]

end Generator

end NeoScript
