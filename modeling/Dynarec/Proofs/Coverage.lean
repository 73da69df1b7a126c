import Dynarec.Proofs.Totality

/-! # What a unit depends on

Reading a trace looks at the words of its own instructions and, where it is cut short, at the
bounds of the image. So a unit is the same in every image that has the same bytes where the unit
says it lies. -/

namespace Dynarec

namespace Guest

/-! ### Bytes of an image -/

/-- The byte at an address. -/
def Image.byte? (img : Image) (a : Word) : Option Byte :=
  if img.base.toNat ≤ a.toNat then img.bytes[a.toNat - img.base.toNat]? else none

/-- An aligned word is made of the four bytes from its address on. -/
theorem Image.word?_eq_bytes (img : Image) {a : Word} (ha : a.toNat % 4 = 0) :
    img.word? a = (img.byte? a).bind fun b₀ => (img.byte? (a + 1#32)).bind fun b₁ =>
      (img.byte? (a + 2#32)).bind fun b₂ => (img.byte? (a + 3#32)).bind fun b₃ =>
        some (Word.ofBytes b₀ b₁ b₂ b₃) := by
  have hlt := a.isLt
  have hbyte (k : Word) (hk : k.toNat < 4) (hbase : img.base.toNat ≤ a.toNat) :
      img.byte? (a + k) = img.bytes[a.toNat - img.base.toNat + k.toNat]? := by
    have hsum : (a + k).toNat = a.toNat + k.toNat := by
      rw [BitVec.toNat_add]
      omega
    rw [byte?, hsum, if_pos (by omega), Nat.sub_add_comm hbase]
  unfold word?
  split
  · rename_i hbase
    rw [hbyte 1#32 (by decide) hbase, hbyte 2#32 (by decide) hbase, hbyte 3#32 (by decide) hbase,
      byte?, if_pos hbase]
    rfl
  · rename_i hbase
    rw [byte?, if_neg hbase]
    rfl

theorem Image.instrAt_congr {img img' : Image} {a : Word} (h : img'.word? a = img.word? a) :
    img'.instrAt a = img.instrAt a := by
  rw [instrAt, instrAt, h]

theorem Image.address_of_instrAt {img : Image} {a : Word} {i : Instr} (h : img.instrAt a = .ok i) :
    i.address = a := by
  unfold instrAt at h
  split at h
  · cases h
  · split at h
    · cases h
    · cases h
      rfl

/-! ### Reading -/

/-- A scan reads its own words, and the bounds of the image only to be cut short there: another
image that agrees with that is read alike. -/
theorem Scan.run_reads {img : Image} {entry maxBytes : Word} {budget : Nat} {address : Word}
    {s s' : Scan} {truncated : Bool}
    (h : run img entry maxBytes budget address s = .ok (s', truncated)) :
    ∃ is, s'.instrs = s.instrs ++ is ∧ ∀ img' : Image,
      (∀ i ∈ is, img'.word? i.address = img.word? i.address) →
      (truncated = true → ∀ a, img'.contains a 4 = img.contains a 4) →
      run img' entry maxBytes budget address s = .ok (s', truncated) := by
  induction budget generalizing address s with
  | zero =>
    cases h
    exact ⟨[], (List.append_nil _).symm, fun _ _ _ => rfl⟩
  | succ budget ih =>
    unfold run at h
    split at h
    · rename_i hstop
      cases h
      refine ⟨[], (List.append_nil _).symm, fun img' _ hends => ?_⟩
      rw [run, hends rfl, if_pos hstop]
    · rename_i hgo
      cases hi : img.instrAt address with
      | error e =>
        rw [hi] at h
        cases h
      | ok i =>
        rw [hi] at h
        have haddress := Image.address_of_instrAt hi
        have hnext : ∀ {img' : Image}, img'.word? i.address = img.word? i.address →
            run img' entry maxBytes (budget + 1) address s =
              if (s.step i).endsAfter i then .ok (s.step i, false)
              else run img' entry maxBytes budget i.nextPc (s.step i) := by
          intro img' hword
          rw [haddress] at hword
          rw [run, Image.contains_eq, hword, ← Image.contains_eq, if_neg hgo,
            Image.instrAt_congr hword, hi]
          rfl
        have h : (if (s.step i).endsAfter i = true then .ok (s.step i, false)
            else run img entry maxBytes budget i.nextPc (s.step i)) = .ok (s', truncated) := h
        split at h
        · rename_i hend
          cases h
          refine ⟨[i], instrs_step s i, fun img' hword _ => ?_⟩
          rw [hnext (hword i List.mem_cons_self), if_pos hend]
        · rename_i hend
          obtain ⟨is, his, hrun⟩ := ih h
          refine ⟨i :: is, ?_, fun img' hword hends => ?_⟩
          · rw [his, instrs_step, List.append_assoc, List.singleton_append]
          · rw [hnext (hword i List.mem_cons_self), if_neg hend]
            exact hrun img' (fun j hj => hword j (List.mem_cons_of_mem _ hj)) hends

/-- A trace is collected alike from an image that agrees on its words. -/
theorem Trace.collect_congr {limits : Limits} {img img' : Image} {entry : Word} {t : Trace}
    (h : Trace.collect limits img entry = .ok t) (hin : img'.contains entry 4 = true)
    (hword : ∀ i ∈ t.instrs, img'.word? i.address = img.word? i.address)
    (hends : t.isTruncated = true → ∀ a, img'.contains a 4 = img.contains a 4) :
    Trace.collect limits img' entry = .ok t := by
  unfold Trace.collect at h ⊢
  split at h
  · cases hrun : Scan.run img entry limits.maxBytes limits.maxInstructions entry
        { block := { start := entry } } with
    | error e =>
      rw [hrun] at h
      cases h
    | ok r =>
      obtain ⟨s, truncated⟩ := r
      rw [hrun] at h
      cases h
      obtain ⟨is, his, hsame⟩ := Scan.run_reads hrun
      have his : s.instrs = is := his
      have hinstrs : Trace.instrs { Trace.ofBlocks s.blocks with isTruncated := truncated } = is :=
        s.instrs_blocks.trans his
      rw [hinstrs] at hword
      rw [if_pos hin, hsame img' hword hends]
      rfl
  · cases h

end Guest

open Dynarec.Guest Dynarec.Emit

/-- Where the unit lies, the second image has the bytes of the first. -/
theorem Translated.word?_eq {options : Options} {dispatch : DispatchTable} {img img' : Image}
    {entry : Word} {c : Compiled} {t : Trace} {p : Compile.Plan}
    (h : Translated options dispatch img entry c t p)
    (hbytes : ∀ k < c.guestBytes,
      img'.byte? (c.start + BitVec.ofNat 32 k) = img.byte? (c.start + BitVec.ofNat 32 k)) :
    ∀ i ∈ t.instrs, img'.word? i.address = img.word? i.address := by
  intro i hi
  obtain ⟨z, hz⟩ := h.collected.chain
  obtain ⟨k, hk⟩ := List.getElem?_of_mem hi
  have hlt : k < t.instrs.length := (List.getElem?_eq_some_iff.mp hk).1
  have haddress : i.address = c.start + BitVec.ofNat 32 (4 * k) := by
    rw [h.start]
    exact hz.consecutive.address_eq (fun j hj => (h.collected.holds j hj).regular) hk
  have hsize : c.guestBytes = 4 * t.instrs.length := by rw [h.guestBytes_eq, h.instrs_eq]
  have hbyte (j : Nat) (hj : j < 4) :
      img'.byte? (i.address + BitVec.ofNat 32 j) = img.byte? (i.address + BitVec.ofNat 32 j) := by
    rw [haddress, BitVec.add_assoc, ← BitVec.ofNat_add]
    exact hbytes (4 * k + j) (by omega)
  have haligned := (h.collected.holds i hi).aligned
  have hfirst := hbyte 0 (by decide)
  rw [BitVec.add_zero] at hfirst
  rw [img.word?_eq_bytes haligned, img'.word?_eq_bytes haligned, hfirst, hbyte 1 (by decide),
    hbyte 2 (by decide), hbyte 3 (by decide)]

theorem Translated.exists_entry {options : Options} {dispatch : DispatchTable} {img : Image}
    {entry : Word} {c : Compiled} {t : Trace} {p : Compile.Plan}
    (h : Translated options dispatch img entry c t p) : ∃ i ∈ t.instrs, i.address = entry := by
  obtain ⟨z, hz⟩ := h.collected.chain
  obtain ⟨b, bs, hb⟩ := List.exists_cons_of_ne_nil h.nonempty
  have hrun : Consecutive entry t.instrs z := hz.consecutive
  have hpos := hz.nonempty b (hb ▸ List.mem_cons_self)
  cases hi : t.instrs with
  | nil =>
    have hnil := List.flatMap_eq_nil_iff.mp hi b (hb ▸ List.mem_cons_self)
    rw [← Array.length_toList, hnil] at hpos
    cases hpos
  | cons i is =>
    rw [hi] at hrun
    exact ⟨i, List.mem_cons_self, hrun.1⟩

/-- A unit depends only on the guest bytes that it says it covers. An image that has the same byte
as the first at each of these addresses is translated to the same unit, code and statistics
included; and if reading was cut short, an image that also begins and ends where the first does. -/
theorem translate_depends_on_covered_bytes {options : Options} {dispatch : DispatchTable}
    {img img' : Image} {entry : Word} {c : Compiled}
    (h : translate options dispatch img entry = .ok c)
    (hbytes : ∀ k < c.guestBytes,
      img'.byte? (c.start + BitVec.ofNat 32 k) = img.byte? (c.start + BitVec.ofNat 32 k))
    (hends : c.stats.truncated = true →
      img'.base = img.base ∧ img'.bytes.size = img.bytes.size) :
    translate options dispatch img' entry = .ok c := by
  obtain ⟨t, p, ht⟩ := translate_ok h
  have hword := ht.word?_eq hbytes
  have hin : img'.contains entry 4 = true := by
    obtain ⟨i, hi, haddress⟩ := ht.exists_entry
    have hinside := (ht.collected.holds i hi).inside
    rw [Image.contains_eq] at hinside ⊢
    rw [← haddress, hword i hi, hinside]
  have hsame : t.isTruncated = true → ∀ a, img'.contains a 4 = img.contains a 4 := by
    intro htruncated a
    have hstats : c.stats.truncated = true := by
      rw [ht.stats]
      exact htruncated
    obtain ⟨hbase, hsize⟩ := hends hstats
    rw [Image.contains, Image.contains, Image.finish, Image.finish, hbase, hsize]
  have hcollect := Trace.collect_congr ht.trace hin hword hsame
  unfold translate at h ⊢
  rw [ht.trace] at h
  rw [hcollect]
  exact h

/-- An addition and a return, with other bytes behind them. -/
def returningImage : Image :=
  ⟨0x1000, #[0x01, 0x00, 0x80, 0xE2, 0x1E, 0xFF, 0x2F, 0xE1, 0xFF, 0xFF, 0xFF, 0xFF]⟩

/-- The same instructions at the same place, with other bytes before them. -/
def movedImage : Image :=
  ⟨0x0FFC, #[0x00, 0x00, 0xA0, 0xE1, 0x01, 0x00, 0x80, 0xE2, 0x1E, 0xFF, 0x2F, 0xE1]⟩

/-- The same addition before another instruction. -/
def alteredImage : Image :=
  ⟨0x1000, #[0x01, 0x00, 0x80, 0xE2, 0x07, 0x00, 0x00, 0xEF, 0x00, 0x00, 0x00, 0x00]⟩

/-- A unit of both instructions is found in the moved image, and a unit that a limit cuts behind the
first of them in the altered one. -/
theorem translate_depends_on_covered_bytes_moved :
    (∃ c, translate {} DispatchTable.empty returningImage 0x1000 = .ok c ∧ c.guestBytes = 8 ∧
      c.stats.truncated = false ∧ translate {} DispatchTable.empty movedImage 0x1000 = .ok c) ∧
    ∃ c, translate { limits := { maxInstructions := 1 } } DispatchTable.empty returningImage
        0x1000 = .ok c ∧ c.guestBytes = 4 ∧ c.stats.truncated = true ∧
      translate { limits := { maxInstructions := 1 } } DispatchTable.empty alteredImage 0x1000 =
        .ok c := by
  have hwhole : (translate {} DispatchTable.empty returningImage 0x1000).toOption.any (fun c =>
      decide (c.start = 0x1000) && (decide (c.guestBytes = 8) &&
        decide (c.stats.truncated = false))) = true := by decide +kernel
  have hcut : (translate { limits := { maxInstructions := 1 } } DispatchTable.empty returningImage
      0x1000).toOption.any (fun c => decide (c.start = 0x1000) && (decide (c.guestBytes = 4) &&
        decide (c.stats.truncated = true))) = true := by decide +kernel
  obtain ⟨c, hc, hwhole⟩ := exists_ok_of_any hwhole
  obtain ⟨d, hd, hcut⟩ := exists_ok_of_any hcut
  simp only [Bool.and_eq_true, decide_eq_true_eq] at hwhole hcut
  refine ⟨⟨c, hc, hwhole.2.1, hwhole.2.2, ?_⟩, d, hd, hcut.2.1, hcut.2.2, ?_⟩
  · refine translate_depends_on_covered_bytes hc ?_ fun h => ?_
    · rw [hwhole.1, hwhole.2.1]
      decide
    · rw [hwhole.2.2] at h
      cases h
  · refine translate_depends_on_covered_bytes hd ?_ fun _ => ⟨rfl, rfl⟩
    rw [hcut.1, hcut.2.1]
    decide

end Dynarec
