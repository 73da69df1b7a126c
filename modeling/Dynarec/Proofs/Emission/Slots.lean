import Mathlib.Data.List.Dedup
import Mathlib.Data.List.Induction
import Mathlib.Data.List.Perm.Subperm
import Dynarec.Emit.SlotTable

/-! # Slots

A slot table numbers guest addresses by their first insertion. It is the inverse of the list of
the addresses in that order: the `k`-th of them has number `k`, at whatever later time. As long as
an address is new, not all addresses are in the list, so that the cut of the count to 32 bits
changes nothing. -/

namespace Dynarec.Emit.SlotTable

/-- The table at `base` behind insertions. -/
def after (base : DWord) (gs : List Word) : SlotTable := gs.foldl insert { base }

section After

variable (base : DWord) (gs : List Word)

theorem after_append (more : List Word) :
    after base (gs ++ more) = more.foldl insert (after base gs) := List.foldl_append

theorem after_concat (g : Word) : after base (gs ++ [g]) = (after base gs).insert g :=
  after_append base gs [g]

@[simp] theorem base_insert (t : SlotTable) (g : Word) : (t.insert g).base = t.base := rfl

@[simp] theorem base_after : (after base gs).base = base := by
  induction gs using List.reverseRecOn with
  | nil => rfl
  | append_singleton gs g ih => rw [after_concat, base_insert, ih]

end After

/-! ### Numbers -/

/-- The addresses that a table knows, in the order of their numbers. -/
structure Numbers (t : SlotTable) (us : List Word) : Prop where
  size : t.size = us.length
  number : ∀ (g : Word) (k : Nat), t.numbers[g]? = some k ↔ us[k]? = some g

/-- There are no more addresses than words. -/
theorem length_le_wordCount {us : List Word} (h : us.Nodup) : us.length ≤ wordCount := by
  have hmap : (us.map BitVec.toNat).Nodup := h.map fun a b => BitVec.eq_of_toNat_eq
  have hsub : us.map BitVec.toNat ⊆ List.range wordCount := by
    intro n hn
    obtain ⟨g, -, rfl⟩ := List.mem_map.mp hn
    exact List.mem_range.mpr g.isLt
  have hle := (List.subperm_of_subset hmap hsub).length_le
  rwa [List.length_map, List.length_range] at hle

section Numbers

variable {t : SlotTable} {us : List Word} {g : Word}

theorem numbers_start (base : DWord) : Numbers { base } [] where
  size := Std.HashMap.size_empty
  number g k := by simp only [Std.HashMap.getElem?_empty, List.getElem?_nil, reduceCtorEq]

theorem Numbers.mem_iff (h : Numbers t us) : g ∈ t.numbers ↔ g ∈ us := by
  rw [Std.HashMap.mem_iff_isSome_getElem?, Option.isSome_iff_exists, List.mem_iff_getElem?]
  exact exists_congr (h.number g)

/-- An address has one number. -/
theorem Numbers.nodup (h : Numbers t us) : us.Nodup := by
  rw [List.nodup_iff_injective_getElem]
  intro i j hij
  have hij : us[i] = us[j] := hij
  have hi := (h.number us[i] i).mpr (List.getElem?_eq_getElem i.isLt)
  have hj := (h.number us[j] j).mpr (List.getElem?_eq_getElem j.isLt)
  rw [hij, hj] at hi
  exact Fin.ext (Option.some_inj.mp hi).symm

/-- A new address finds a number of 32 bits left, and it gets the next one. -/
theorem Numbers.nextNumber (h : Numbers t us) (hg : g ∉ us) : t.nextNumber = us.length := by
  have hle := length_le_wordCount (List.nodup_cons.mpr ⟨hg, h.nodup⟩)
  rw [List.length_cons] at hle
  rw [SlotTable.nextNumber, h.size]
  exact Nat.min_eq_left (by omega)

theorem Numbers.insert_of_mem (h : Numbers t us) (hg : g ∈ us) : Numbers (t.insert g) us where
  size := by
    rw [SlotTable.size, insert, Std.HashMap.size_insertIfNew, if_pos (h.mem_iff.mpr hg)]
    exact h.size
  number g' k := by
    rw [insert, Std.HashMap.getElem?_insertIfNew, if_neg fun hnew => hnew.2 (h.mem_iff.mpr hg)]
    exact h.number g' k

theorem Numbers.insert_of_not_mem (h : Numbers t us) (hg : g ∉ us) :
    Numbers (t.insert g) (us ++ [g]) where
  size := by
    rw [SlotTable.size, insert, Std.HashMap.size_insertIfNew,
      if_neg fun hm => hg (h.mem_iff.mp hm), List.length_append, List.length_singleton]
    exact congrArg (· + 1) h.size
  number g' k := by
    rw [insert, Std.HashMap.getElem?_insertIfNew, h.nextNumber hg, List.getElem?_append]
    by_cases hg' : g = g'
    · subst hg'
      have hnone : us[k]? ≠ some g := fun hk => hg (List.mem_of_getElem? hk)
      rw [if_pos ⟨beq_self_eq_true g, fun hm => hg (h.mem_iff.mp hm)⟩, Option.some_inj]
      constructor
      · rintro rfl
        rw [if_neg (Nat.lt_irrefl _), Nat.sub_self]
        rfl
      · intro hk
        split at hk
        · exact absurd hk hnone
        · have hlt := (List.getElem?_eq_some_iff.mp hk).1
          rw [List.length_singleton] at hlt
          omega
    · rw [if_neg fun hnew => hg' (beq_iff_eq.mp hnew.1), h.number]
      split
      · rfl
      · rename_i hk
        have hnone : us[k]? = none := List.getElem?_eq_none (Nat.le_of_not_lt hk)
        rw [hnone, List.getElem?_singleton]
        split
        · simp only [reduceCtorEq, Option.some_inj, hg']
        · simp only [reduceCtorEq]

/-- Every history numbers the addresses that were inserted. -/
theorem exists_numbers (base : DWord) (gs : List Word) :
    ∃ us, Numbers (after base gs) us ∧ ∀ g, g ∈ us ↔ g ∈ gs := by
  induction gs using List.reverseRecOn with
  | nil => exact ⟨[], numbers_start base, fun g => Iff.rfl⟩
  | append_singleton gs g ih =>
    obtain ⟨us, hus, hmem⟩ := ih
    rw [after_concat]
    by_cases hg : g ∈ us
    · refine ⟨us, hus.insert_of_mem hg, fun g' => ?_⟩
      rw [List.mem_append, List.mem_singleton, hmem]
      exact ⟨.inl, fun h => h.elim id fun heq => heq ▸ (hmem g).mp hg⟩
    · refine ⟨us ++ [g], hus.insert_of_not_mem hg, fun g' => ?_⟩
      rw [List.mem_append, List.mem_append, hmem]

theorem Numbers.length_eq {gs : List Word} (h : Numbers t us) (hmem : ∀ g, g ∈ us ↔ g ∈ gs) :
    us.length = gs.dedup.length := by
  refine List.Perm.length_eq ?_
  rw [List.perm_ext_iff_of_nodup h.nodup gs.nodup_dedup]
  intro g
  rw [hmem, List.mem_dedup]

end Numbers

/-! ### Slots -/

section Slots

variable {t : SlotTable} {us : List Word} {g : Word} {k : Nat}

/-- An address keeps its number. -/
theorem number_insert (h : t.numbers[g]? = some k) (g' : Word) :
    (t.insert g').numbers[g]? = some k := by
  rw [insert, Std.HashMap.getElem?_insertIfNew]
  split
  · rename_i hnew
    have hmem : g' ∈ t.numbers := by
      rw [beq_iff_eq.mp hnew.1, Std.HashMap.mem_iff_isSome_getElem?, h]
      rfl
    exact absurd hmem hnew.2
  · exact h

theorem number_foldl (h : t.numbers[g]? = some k) (more : List Word) :
    (more.foldl insert t).numbers[g]? = some k := by
  induction more generalizing t with
  | nil => exact h
  | cons g' more ih => exact ih (number_insert h g')

theorem lookup_of_number (h : t.numbers[g]? = some k) : t.lookup g = t.slot k := by
  simp only [lookup, h]

theorem Numbers.absent_iff (h : Numbers t us) : t.lookup g = .absent ↔ g ∉ us := by
  rw [← h.mem_iff, Std.HashMap.mem_iff_isSome_getElem?]
  cases hg : t.numbers[g]? with
  | none => simp only [lookup, hg, Option.isSome_none, Bool.false_eq_true, not_false_eq_true]
  | some k =>
    simp only [lookup_of_number hg, slot, Option.isSome_some, not_true_eq_false, iff_false]
    split <;> exact SlotLookup.noConfusion

variable (hroom : t.base.toNat + 8 * us.length ≤ dwordCount)

include hroom

theorem slot_eq (hk : k < us.length) :
    t.slot k = .found (BitVec.ofNat 64 (t.base.toNat + 8 * k)) :=
  if_pos (by omega)

theorem Numbers.found_iff (h : Numbers t us) {host : DWord} :
    t.lookup g = .found host ↔ ∃ k, us[k]? = some g ∧ host.toNat = t.base.toNat + 8 * k := by
  constructor
  · intro hg
    cases hn : t.numbers[g]? with
    | none => simp only [lookup, hn, reduceCtorEq] at hg
    | some k =>
      have hk := (h.number g k).mp hn
      have hlt : k < us.length := (List.getElem?_eq_some_iff.mp hk).1
      rw [lookup_of_number hn, slot_eq hroom hlt, SlotLookup.found.injEq] at hg
      refine ⟨k, hk, ?_⟩
      rw [← hg, BitVec.toNat_ofNat]
      exact Nat.mod_eq_of_lt (show _ < dwordCount by omega)
  · rintro ⟨k, hk, hhost⟩
    have hlt : k < us.length := (List.getElem?_eq_some_iff.mp hk).1
    rw [lookup_of_number ((h.number g k).mpr hk), slot_eq hroom hlt, ← hhost,
      BitVec.ofNat_toNat, BitVec.setWidth_eq]

end Slots

/-! ### Histories -/

section Histories

variable {base : DWord} {gs : List Word}

/-- Where an address is put, it is found at any later time. -/
theorem found_stable (hroom : base.toNat + 8 * gs.dedup.length ≤ dwordCount) {pre rest : List Word}
    {g : Word} (h : gs = pre ++ g :: rest) :
    ∃ host, ((after base pre).insert g).lookup g = .found host ∧
      (after base gs).lookup g = .found host ∧
      ((after base gs).insert g).lookup g = .found host := by
  obtain ⟨us, hus, hmem⟩ := exists_numbers base gs
  obtain ⟨vs, hvs, hmemv⟩ := exists_numbers base (pre ++ [g])
  obtain ⟨k, hk⟩ := List.mem_iff_getElem?.mp ((hmemv g).mpr List.mem_concat_self)
  have hfirst := (hvs.number g k).mpr hk
  have hlast : (after base gs).numbers[g]? = some k := by
    rw [h, List.append_cons, after_append]
    exact number_foldl hfirst rest
  have hlt : k < us.length := (List.getElem?_eq_some_iff.mp ((hus.number g k).mp hlast)).1
  rw [← hus.length_eq hmem] at hroom
  -- The three tables have one base, and the address has one number in all of them.
  have hslot : ∀ t : SlotTable, t.base = base → t.numbers[g]? = some k →
      t.lookup g = .found (BitVec.ofNat 64 (base.toNat + 8 * k)) := by
    rintro t rfl ht
    rw [lookup_of_number ht, slot_eq hroom hlt]
  refine ⟨_, hslot _ ?_ ?_, hslot _ (base_after base gs) hlast,
    hslot _ (base_after base gs) (number_insert hlast g)⟩
  · exact base_after base pre
  · rwa [← after_concat]

theorem insertAll?_after (hroom : base.toNat + 8 * gs.dedup.length ≤ dwordCount)
    {pre rest : List Word} (h : gs = pre ++ rest) :
    (after base pre).insertAll? rest = some (after base gs) := by
  induction rest generalizing pre with
  | nil => rw [h, List.append_nil, insertAll?]
  | cons g rest ih =>
    obtain ⟨host, hfound, -, -⟩ := found_stable hroom h
    have hsplit : gs = pre ++ [g] ++ rest := by rw [h, List.append_cons]
    have hrest := ih hsplit
    rw [after_concat] at hrest
    simp only [insertAll?, hfound, hrest]

end Histories

/-- What holds of the slots behind a history of insertions. -/
structure SlotsDense (base : DWord) (gs : List Word) : Prop where
  /-- No insertion is refused. -/
  inserted : insertAll? { base } gs = some (after base gs)
  size : (after base gs).size = gs.dedup.length
  /-- An insertion answers as every later question does, and as every later insertion. -/
  stable : ∀ pre g rest, gs = pre ++ g :: rest → ∃ host,
    ((after base pre).insert g).lookup g = .found host ∧
      (after base gs).lookup g = .found host ∧ ((after base gs).insert g).lookup g = .found host
  injective : ∀ g g' host, (after base gs).lookup g = .found host →
    (after base gs).lookup g' = .found host → g = g'
  dense : ∀ host : DWord, (∃ g, (after base gs).lookup g = .found host) ↔
    ∃ k < (after base gs).size, host.toNat = base.toNat + 8 * k
  absent : ∀ g, (after base gs).lookup g = .absent ↔ g ∉ gs
  /-- The number for a new address is the count itself, and no known address has it. -/
  fresh : ∀ g ∉ gs, (after base gs).nextNumber = (after base gs).size ∧
    ∀ g' : Word, (after base gs).numbers[g']? ≠ some (after base gs).nextNumber

/-- As long as the slots fit into the address space, they are side by side from the base on, one
for each address, and no address ever changes its slot. -/
theorem slots_dense (base : DWord) (gs : List Word)
    (hroom : base.toNat + 8 * gs.dedup.length ≤ dwordCount) : SlotsDense base gs := by
  obtain ⟨us, hus, hmem⟩ := exists_numbers base gs
  have hlen := hus.length_eq hmem
  have hroom' : (after base gs).base.toNat + 8 * us.length ≤ dwordCount := by
    rwa [base_after, hlen]
  refine {
    inserted := insertAll?_after hroom (List.nil_append gs).symm
    size := hus.size.trans hlen
    stable := fun pre g rest h => found_stable hroom h
    injective := fun g g' host hg hg' => ?_
    dense := fun host => ?_
    absent := fun g => by rw [hus.absent_iff, hmem]
    fresh := fun g hg => ?_ }
  · obtain ⟨k, hk, hhost⟩ := (hus.found_iff hroom').mp hg
    obtain ⟨k', hk', hhost'⟩ := (hus.found_iff hroom').mp hg'
    have hkk : k = k' := by omega
    rw [hkk, hk'] at hk
    exact (Option.some_inj.mp hk).symm
  · simp only [hus.found_iff hroom', base_after, hus.size]
    constructor
    · rintro ⟨g, k, hk, hhost⟩
      exact ⟨k, (List.getElem?_eq_some_iff.mp hk).1, hhost⟩
    · rintro ⟨k, hk, hhost⟩
      exact ⟨us[k], k, List.getElem?_eq_getElem hk, hhost⟩
  · have hnext := hus.nextNumber (mt (hmem g).mp hg)
    refine ⟨hnext.trans hus.size.symm, fun g' hg' => ?_⟩
    rw [hnext, hus.number, List.getElem?_eq_none (Nat.le_refl _)] at hg'
    cases hg'

/-- Two addresses fill the last two slots of the address space, one of them inserted twice. -/
theorem slots_dense_at_end :
    (0xFFFFFFFFFFFFFFF0 : DWord).toNat + 8 * ([0x8000, 0x9000, 0x8000] : List Word).dedup.length ≤
      dwordCount ∧ SlotsDense 0xFFFFFFFFFFFFFFF0 [0x8000, 0x9000, 0x8000] :=
  ⟨by decide, slots_dense _ _ (by decide)⟩

end Dynarec.Emit.SlotTable
