import Dynarec.Proofs.Simulation.Relation

/-! # The stack frame

What the prologue pushes is found again by the trailer. Places on the stack are counted in bytes
from the low end of the stretch of memory that a unit may use. -/

namespace Dynarec.Simulation

open Dynarec.Emit Dynarec.Host

/-- How many bytes below the stack pointer a unit may use. -/
def stackBytes : Nat := 0x2000

/-- The address of a place on the stack. -/
def slot (low : DWord) (o : Nat) : DWord := low + BitVec.ofNat 64 o

variable {low : DWord}

theorem slot_push {o : Nat} (h : 16 ≤ o) : slot low o + BitVec.ofInt 64 (-16) = slot low (o - 16) := by
  have hsum : BitVec.ofNat 64 o + BitVec.ofInt 64 (-16) = BitVec.ofNat 64 (o - 16) := by
    refine BitVec.eq_of_toNat_eq ?_
    have hint : (BitVec.ofInt 64 (-16)).toNat = 0xFFFFFFFFFFFFFFF0 := by decide
    rw [BitVec.toNat_add, BitVec.toNat_ofNat, BitVec.toNat_ofNat, hint]
    omega
  unfold slot
  rw [BitVec.add_assoc, hsum]

theorem slot_pop (o : Nat) : slot low o + BitVec.ofInt 64 16 = slot low (o + 16) := by
  unfold slot
  rw [BitVec.add_assoc, BitVec.ofNat_add]
  rfl

theorem slot_add (o j : Nat) : slot low o + BitVec.ofNat 64 j = slot low (o + j) := by
  unfold slot
  rw [BitVec.add_assoc, BitVec.ofNat_add]

theorem slot_second {o : Nat} (h : 16 ≤ o) : slot low (o - 16) + 8 = slot low (o - 8) := by
  have hsum : BitVec.ofNat 64 (o - 16) + 8 = BitVec.ofNat 64 (o - 8) := by
    have ho : o - 8 = o - 16 + 8 := by omega
    rw [ho, BitVec.ofNat_add]
    rfl
  unfold slot
  rw [BitVec.add_assoc, hsum]

/-- Two memories hold the same above a place on the stack, which includes all that lies outside
the stack. -/
def SameAbove (low : DWord) (o : Nat) (m m' : Mem) : Prop := ∀ a, Mem.Outside low o a → m' a = m a

theorem SameAbove.trans {o : Nat} {m m' m'' : Mem} (h : SameAbove low o m m')
    (h' : SameAbove low o m' m'') : SameAbove low o m m'' :=
  fun a ha => (h' a ha).trans (h a ha)

theorem SameAbove.mono {o o' : Nat} {m m' : Mem} (h : SameAbove low o m m') (ho : o ≤ o') :
    SameAbove low o' m m' :=
  fun a ha => h a (Nat.le_trans ho ha)

theorem outside_slot {o k j : Nat} (h : k ≤ o + j) (hj : o + j < dwordCount) :
    Mem.Outside low k (slot low o + BitVec.ofNat 64 j) := by
  unfold Mem.Outside
  rw [slot_add, slot, Mem.add_sub_offset low hj]
  exact h

theorem SameAbove.dword {o k : Nat} {m m' : Mem} (h : SameAbove low k m m') (ho : k ≤ o)
    (hlt : o + 8 ≤ dwordCount) : m'.dword (slot low o) = m.dword (slot low o) :=
  Mem.read_congr fun j hj => h _ (outside_slot (Nat.le_trans ho (Nat.le_add_right o j)) (by omega))

/-- A double word written below a place changes nothing above it. -/
theorem sameAbove_write {o k : Nat} (m : Mem) (h : o + 8 ≤ k) (hk : k ≤ dwordCount)
    (value : DWord) : SameAbove low k m (m.write (slot low o) 8 value) := by
  intro a ha
  refine Mem.write_of_outside (n := 8) ?_ value
  unfold Mem.Outside slot at *
  have hsub : a - (low + BitVec.ofNat 64 o) = a - low - BitVec.ofNat 64 o := by bv_omega
  rw [hsub, BitVec.toNat_sub, BitVec.toNat_ofNat]
  unfold dwordCount at hk
  omega

theorem dword_write_self (m : Mem) (a value : DWord) : (m.write a 8 value).dword a = value :=
  Mem.read_write_self (n := 8) m a value (Nat.le_of_ble_eq_true rfl)

/-- From `s` to `s'` the stack has grown from one place to another, and nothing else has changed. -/
structure Grows (low : DWord) (o o' : Nat) (s s' : Host.State) : Prop where
  sp : s'.x .sp = slot low o'
  x : ∀ q, q ≠ .sp → s'.x q = s.x q
  v : s'.v = s.v
  mem : SameAbove low o s.mem s'.mem

theorem Grows.trans {o o₁ o₂ : Nat} {s s₁ s₂ : Host.State} (h : Grows low o o₁ s s₁)
    (h' : Grows low o₁ o₂ s₁ s₂) (ho : o₁ ≤ o) : Grows low o o₂ s s₂ :=
  ⟨h'.sp, fun q hq => (h'.x q hq).trans (h.x q hq), h'.v.trans h.v, h.mem.trans (h'.mem.mono ho)⟩

theorem grows_of_mem {o : Nat} {s : Host.State} {m : Mem} (h : SameAbove low o s.mem m) (o' : Nat) :
    Grows low o o' s ((({ s with mem := m } : Host.State).setBase .sp (slot low o')).skip 1) := by
  refine ⟨?_, fun q hq => if_neg hq, rfl, h⟩
  rw [State.x_skip]
  exact State.x_setBase_self _ .sp _

theorem reg_of_ne_sp {x : Host.Gpr} (h : x ≠ .sp) (s : Host.State) : s.reg x = s.x x := if_neg h

section Push

variable {s : Host.State} {o : Nat} (hs : s.x .sp = slot low o) (ho : 16 ≤ o)
  (hlt : o ≤ dwordCount)

include hs ho hlt

/-- One push of a pair. -/
theorem stpPre_run {x y : Host.Gpr} (hx : x ≠ .sp) (hy : y ≠ .sp) :
    ∃ s', (Host.Instr.stpPre x y .sp (-16)).exec s = some s' ∧ Grows low o (o - 16) s s' ∧
      s'.mem.dword (slot low (o - 16)) = s.x x ∧ s'.mem.dword (slot low (o - 8)) = s.x y := by
  let m₁ := s.mem.write (slot low (o - 16)) 8 (s.x x)
  let m₂ := m₁.write (slot low (o - 8)) 8 (s.x y)
  have hexec : (Host.Instr.stpPre x y .sp (-16)).exec s =
      some ((({ s with mem := m₂ } : Host.State).setBase .sp (slot low (o - 16))).skip 1) := by
    show some ((State.setBase (State.store (State.store s (s.x .sp + _) 8 _) _ 8 _) .sp _).skip 1) = _
    rw [hs, slot_push ho, slot_second ho, reg_of_ne_sp hx, reg_of_ne_sp hy]
    rfl
  refine ⟨_, hexec, grows_of_mem ?_ (o - 16), ?_, dword_write_self m₁ _ _⟩
  · exact (sameAbove_write s.mem (by omega) hlt _).trans (sameAbove_write m₁ (by omega) hlt _)
  · refine Eq.trans ?_ (dword_write_self s.mem (slot low (o - 16)) (s.x x))
    exact Mem.read_write_of_offsets (n := 8) (.inr (by omega)) (by omega) (by omega) _

/-- One push of a single register. -/
theorem strPre_run {x : Host.Gpr} (hx : x ≠ .sp) :
    ∃ s', (Host.Instr.strPre x .sp (-16)).exec s = some s' ∧ Grows low o (o - 16) s s' ∧
      s'.mem.dword (slot low (o - 16)) = s.x x := by
  have hexec : (Host.Instr.strPre x .sp (-16)).exec s =
      some (((s.store (slot low (o - 16)) 8 (s.x x)).setBase .sp (slot low (o - 16))).skip 1) := by
    show some ((State.setBase (State.store s (s.x .sp + _) 8 _) .sp _).skip 1) = _
    rw [hs, slot_push ho, reg_of_ne_sp hx]
  exact ⟨_, hexec, grows_of_mem (sameAbove_write s.mem (by omega) hlt _) (o - 16),
    dword_write_self s.mem _ _⟩

theorem strVPre_run (v : Vreg) :
    ∃ s', (Host.Instr.strVPre v .sp (-16)).exec s = some s' ∧ Grows low o (o - 16) s s' ∧
      s'.mem.dword (slot low (o - 16)) = (s.v v).setWidth 64 := by
  have hexec : (Host.Instr.strVPre v .sp (-16)).exec s =
      some (((s.store (slot low (o - 16)) 8 ((s.v v).setWidth 64)).setBase .sp
        (slot low (o - 16))).skip 1) := by
    show some ((State.setBase (State.store s (s.x .sp + _) 8 _) .sp _).skip 1) = _
    rw [hs, slot_push ho]
  exact ⟨_, hexec, grows_of_mem (sameAbove_write s.mem (by omega) hlt _) (o - 16),
    dword_write_self s.mem _ _⟩

end Push

/-! ### General registers -/

/-- The bytes that pushed general registers take up. -/
def pushBytes : List Host.Gpr → Nat
  | _ :: _ :: rest => 16 + pushBytes rest
  | [_] => 16
  | [] => 0

theorem pushBytes_eq : ∀ xs : List Host.Gpr, pushBytes xs = (xs.length + 1) / 2 * 16
  | [] => by rw [pushBytes]; rfl
  | [_] => by rw [pushBytes, List.length_singleton]
  | x :: y :: rest => by
    rw [pushBytes, pushBytes_eq rest, List.length_cons, List.length_cons]
    omega

/-- The values of registers are where a push of the registers from `o` on has put them. -/
def Pushed (m : Mem) (value : Host.Gpr → DWord) (low : DWord) : Nat → List Host.Gpr → Prop
  | o, x :: y :: rest => m.dword (slot low (o - 16)) = value x ∧
    m.dword (slot low (o - 8)) = value y ∧ Pushed m value low (o - 16) rest
  | o, [x] => m.dword (slot low (o - 16)) = value x
  | _, [] => True

/-- Only memory between two places on the stack matters for what was pushed there. -/
theorem Pushed.congr {m m' : Mem} {value : Host.Gpr → DWord} :
    ∀ {xs : List Host.Gpr} {o : Nat}, pushBytes xs ≤ o →
      (∀ k, o - pushBytes xs ≤ k → k + 8 ≤ o → m'.dword (slot low k) = m.dword (slot low k)) →
      Pushed m value low o xs → Pushed m' value low o xs
  | x :: y :: rest, o, ho, hm, ⟨hx, hy, hrest⟩ => by
    rw [pushBytes] at ho hm
    refine ⟨(hm _ (by omega) (by omega)).trans hx, (hm _ (by omega) (by omega)).trans hy, ?_⟩
    exact Pushed.congr (by omega) (fun k hlo hk => hm k (by omega) (by omega)) hrest
  | [x], o, ho, hm, hx => by
    rw [pushBytes] at ho hm
    exact (hm _ (by omega) (by omega)).trans hx
  | [], _, _, _, _ => trivial

theorem pushed_congr_value {m : Mem} {value value' : Host.Gpr → DWord} :
    ∀ {xs : List Host.Gpr} {o : Nat}, (∀ x ∈ xs, value' x = value x) →
      Pushed m value low o xs → Pushed m value' low o xs
  | x :: y :: rest, o, hv, ⟨hx, hy, hrest⟩ => by
    refine ⟨hx.trans (hv x List.mem_cons_self).symm,
      hy.trans (hv y (List.mem_cons_of_mem _ List.mem_cons_self)).symm, ?_⟩
    exact pushed_congr_value
      (fun z hz => hv z (List.mem_cons_of_mem _ (List.mem_cons_of_mem _ hz))) hrest
  | [x], o, hv, hx => hx.trans (hv x List.mem_cons_self).symm
  | [], _, _, _ => trivial

/-- Each pushed register has its place, counted from where the push ends. -/
theorem exists_pushPlace {x : Host.Gpr} : ∀ {xs : List Host.Gpr}, x ∈ xs →
    ∃ k, k + 8 ≤ pushBytes xs ∧ ∀ {m : Mem} {value : Host.Gpr → DWord} {low : DWord} {o : Nat},
      pushBytes xs ≤ o → Pushed m value low o xs →
        m.dword (slot low (o - pushBytes xs + k)) = value x
  | [y], hx => by
    obtain rfl := List.mem_singleton.mp hx
    exact ⟨0, Nat.le_of_ble_eq_true rfl, fun _ hm => hm⟩
  | y :: z :: rest, hx => by
    rw [pushBytes]
    rcases List.mem_cons.mp hx with rfl | hx
    · refine ⟨pushBytes rest, by omega, fun {m value low o} ho hm => ?_⟩
      have hplace : o - (16 + pushBytes rest) + pushBytes rest = o - 16 := by omega
      rw [hplace]
      exact hm.1
    rcases List.mem_cons.mp hx with rfl | hx
    · refine ⟨pushBytes rest + 8, by omega, fun {m value low o} ho hm => ?_⟩
      have hplace : o - (16 + pushBytes rest) + (pushBytes rest + 8) = o - 8 := by omega
      rw [hplace]
      exact hm.2.1
    · obtain ⟨k, hk, hplace⟩ := exists_pushPlace hx
      refine ⟨k, by omega, fun {m value low o} ho hm => ?_⟩
      rw [Nat.sub_add_eq]
      exact hplace (by omega) hm.2.2

/-- Whatever is on the stack, registers may have pushed it. -/
theorem exists_pushed (m : Mem) (low : DWord) : ∀ {xs : List Host.Gpr} (o : Nat), xs.Nodup →
    ∃ value, Pushed m value low o xs
  | [], _, _ => ⟨fun _ => 0, trivial⟩
  | [_], o, _ => ⟨fun _ => m.dword (slot low (o - 16)), rfl⟩
  | x :: y :: rest, o, hnodup => by
    obtain ⟨hx, hrest⟩ := List.nodup_cons.mp hnodup
    obtain ⟨hy, hrest⟩ := List.nodup_cons.mp hrest
    obtain ⟨value, hvalue⟩ := exists_pushed m low (o - 16) hrest
    have hyx : y ≠ x := fun h => hx (h ▸ List.mem_cons_self)
    refine ⟨fun z => if z = x then m.dword (slot low (o - 16))
      else if z = y then m.dword (slot low (o - 8)) else value z, (if_pos rfl).symm, ?_, ?_⟩
    · exact ((if_neg hyx).trans (if_pos rfl)).symm
    · refine pushed_congr_value (fun z hz => (if_neg ?_).trans (if_neg ?_)) hvalue
      · rintro rfl
        exact hx (List.mem_cons_of_mem _ hz)
      · rintro rfl
        exact hy hz

theorem pushGprs_run : ∀ (xs : List Host.Gpr) {s : Host.State} {o : Nat},
    s.x .sp = slot low o → pushBytes xs ≤ o → o ≤ dwordCount → (∀ x ∈ xs, x ≠ .sp) →
    ∃ s', execAll (Frame.pushGprs xs) s = some s' ∧ Grows low o (o - pushBytes xs) s s' ∧
      Pushed s'.mem s.x low o xs
  | [], s, o, hs, _, _, _ => ⟨s, rfl, ⟨hs, fun _ _ => rfl, rfl, fun _ _ => rfl⟩, trivial⟩
  | [x], s, o, hs, ho, hlt, hx => by
    obtain ⟨s', hs', hg, hm⟩ := strPre_run hs ho hlt (hx x List.mem_cons_self)
    exact ⟨s', execAll_singleton hs', hg, hm⟩
  | x :: y :: rest, s, o, hs, ho, hlt, hx => by
    rw [pushBytes] at ho ⊢
    obtain ⟨s₁, hs₁, hg₁, hmx, hmy⟩ := stpPre_run hs (by omega) hlt (hx x List.mem_cons_self)
      (hx y (List.mem_cons_of_mem _ List.mem_cons_self))
    have hrest : ∀ z ∈ rest, z ≠ .sp :=
      fun z hz => hx z (List.mem_cons_of_mem _ (List.mem_cons_of_mem _ hz))
    obtain ⟨s', hs', hg', hp⟩ := pushGprs_run rest hg₁.sp (by omega) (by omega) hrest
    refine ⟨s', (execAll_cons hs₁).trans hs', ?_, ?_, ?_, ?_⟩
    · rw [Nat.sub_add_eq]
      exact hg₁.trans hg' (Nat.sub_le _ _)
    · exact (hg'.mem.dword (Nat.le_refl _) (by omega)).trans hmx
    · exact (hg'.mem.dword (by omega) (by omega)).trans hmy
    · exact pushed_congr_value (fun z hz => (hg₁.x z (hrest z hz)).symm) hp

/-- From `t` to `t'` registers have been taken back from the stack, which now ends at `o`. -/
structure Popped (low : DWord) (o : Nat) (xs : List Host.Gpr) (value : Host.Gpr → DWord)
    (t t' : Host.State) : Prop where
  sp : t'.x .sp = slot low o
  back : ∀ x ∈ xs, t'.x x = value x
  x : ∀ x, x ∉ xs → x ≠ .sp → t'.x x = t.x x
  v : t'.v = t.v
  mem : t'.mem = t.mem

/-- Taking back more registers does not undo what is there. -/
theorem Popped.trans {o o' : Nat} {xs ys : List Host.Gpr} {value : Host.Gpr → DWord}
    {t t' t'' : Host.State} (h : Popped low o' ys value t t') (h' : Popped low o xs value t' t'')
    (hy : ∀ y ∈ ys, y ≠ .sp) : Popped low o (xs ++ ys) value t t'' := by
  refine ⟨h'.sp, fun x hx => ?_, fun x hx hsp => ?_, h'.v.trans h.v, h'.mem.trans h.mem⟩
  · by_cases hxs : x ∈ xs
    · exact h'.back x hxs
    · have hys := (List.mem_append.mp hx).resolve_left hxs
      exact (h'.x x hxs (hy x hys)).trans (h.back x hys)
  · rw [List.mem_append, not_or] at hx
    exact (h'.x x hx.1 hsp).trans (h.x x hx.2 hsp)

theorem ldrPost_run {t : Host.State} {o : Nat} {x : Host.Gpr} {value : Host.Gpr → DWord}
    (ht : t.x .sp = slot low (o - 16)) (ho : 16 ≤ o) (hx : x ≠ .sp)
    (hm : t.mem.dword (slot low (o - 16)) = value x) :
    ∃ t', (Host.Instr.ldrPost x .sp 16).exec t = some t' ∧ Popped low o [x] value t t' := by
  have hslot : slot low (o - 16) + BitVec.ofInt 64 16 = slot low o := by
    rw [slot_pop, Nat.sub_add_cancel ho]
  let t₁ := t.setBase .sp (slot low o)
  have hexec : (Host.Instr.ldrPost x .sp 16).exec t = some ((t₁.set x (value x)).skip 1) := by
    show some ((State.set (t.setBase .sp (t.x .sp + _)) x (t.mem.dword (t.x .sp))).skip 1) = _
    rw [ht, hslot, hm]
  refine ⟨_, hexec, ?_, fun y hy => ?_, fun y hy hsp => ?_, ?_, ?_⟩
  · exact (State.x_set_of_ne t₁ x .sp (value x) hx.symm).trans (State.x_setBase_self t .sp _)
  · rw [List.mem_singleton.mp hy]
    exact State.x_set_self t₁ x (value x) hx
  · rw [List.mem_singleton] at hy
    exact (State.x_set_of_ne t₁ x y (value x) hy).trans (State.x_setBase_of_ne t .sp y _ hsp)
  · exact State.v_set t₁ x (value x)
  · exact State.mem_set t₁ x (value x)

theorem ldpPost_run {t : Host.State} {o : Nat} {x y : Host.Gpr} {value : Host.Gpr → DWord}
    (ht : t.x .sp = slot low (o - 16)) (ho : 16 ≤ o) (hx : x ≠ .sp) (hy : y ≠ .sp)
    (hmx : t.mem.dword (slot low (o - 16)) = value x)
    (hmy : t.mem.dword (slot low (o - 8)) = value y) :
    ∃ t', (Host.Instr.ldpPost x y .sp 16).exec t = some t' ∧ Popped low o [x, y] value t t' := by
  have hslot : slot low (o - 16) + BitVec.ofInt 64 16 = slot low o := by
    rw [slot_pop, Nat.sub_add_cancel ho]
  let t₁ := t.setBase .sp (slot low o)
  let t₂ := t₁.set x (value x)
  have hexec : (Host.Instr.ldpPost x y .sp 16).exec t = some ((t₂.set y (value y)).skip 1) := by
    show some ((State.set (State.set (t.setBase .sp (t.x .sp + _)) x (t.mem.dword (t.x .sp))) y
      (t.mem.dword (t.x .sp + 8))).skip 1) = _
    rw [ht, hslot, slot_second ho, hmx, hmy]
  have hset : ∀ z, z ≠ x → z ≠ y → (t₂.set y (value y)).x z = t₁.x z := fun z hzx hzy =>
    (State.x_set_of_ne t₂ y z (value y) hzy).trans (State.x_set_of_ne t₁ x z (value x) hzx)
  refine ⟨_, hexec, ?_, fun z hz => ?_, fun z hz hsp => ?_, ?_, ?_⟩
  · exact (hset .sp hx.symm hy.symm).trans (State.x_setBase_self t .sp _)
  · by_cases hzy : z = y
    · subst hzy
      exact State.x_set_self t₂ z (value z) hy
    · have hzx : z = x := by
        rcases List.mem_cons.mp hz with h | h
        · exact h
        · exact absurd (List.mem_singleton.mp h) hzy
      subst hzx
      exact (State.x_set_of_ne t₂ y z (value y) hzy).trans (State.x_set_self t₁ z (value z) hx)
  · rw [List.mem_cons, List.mem_singleton, not_or] at hz
    exact (hset z hz.1 hz.2).trans (State.x_setBase_of_ne t .sp z _ hsp)
  · exact (State.v_set t₂ y (value y)).trans (State.v_set t₁ x (value x))
  · exact (State.mem_set t₂ y (value y)).trans (State.mem_set t₁ x (value x))

/-- What was pushed is taken back. -/
theorem popGprs_run {value : Host.Gpr → DWord} : ∀ (xs : List Host.Gpr) {t : Host.State} {o : Nat},
    t.x .sp = slot low (o - pushBytes xs) → pushBytes xs ≤ o → (∀ x ∈ xs, x ≠ .sp) →
    Pushed t.mem value low o xs →
    ∃ t', execAll (Frame.popGprs xs) t = some t' ∧ Popped low o xs value t t'
  | [], t, o, ht, _, _, _ =>
    ⟨t, rfl, ht, fun x hx => absurd hx List.not_mem_nil, fun _ _ _ => rfl, rfl, rfl⟩
  | [x], t, o, ht, ho, hx, hm => by
    obtain ⟨t', ht', hp⟩ := ldrPost_run ht ho (hx x List.mem_cons_self) hm
    exact ⟨t', execAll_singleton ht', hp⟩
  | x :: y :: rest, t, o, ht, ho, hx, ⟨hmx, hmy, hrest⟩ => by
    rw [pushBytes] at ht ho
    have hne : ∀ z ∈ rest, z ≠ .sp :=
      fun z hz => hx z (List.mem_cons_of_mem _ (List.mem_cons_of_mem _ hz))
    rw [Nat.sub_add_eq] at ht
    obtain ⟨t₁, ht₁, hp₁⟩ := popGprs_run rest ht (by omega) hne hrest
    rw [← hp₁.mem] at hmx hmy
    obtain ⟨t', ht', hp'⟩ := ldpPost_run hp₁.sp (by omega)
      (hx x List.mem_cons_self) (hx y (List.mem_cons_of_mem _ List.mem_cons_self)) hmx hmy
    exact ⟨t', (execAll_append ht₁).trans (execAll_singleton ht'), hp₁.trans hp' hne⟩

/-! ### Vector registers -/

/-- The low halves of vector registers are where a push of the registers from `o` on has put
them. -/
def PushedV (m : Mem) (value : Vreg → DWord) (low : DWord) : Nat → List Vreg → Prop
  | o, v :: rest => m.dword (slot low (o - 16)) = value v ∧ PushedV m value low (o - 16) rest
  | _, [] => True

theorem PushedV.congr {m m' : Mem} {value : Vreg → DWord} :
    ∀ {vs : List Vreg} {o : Nat}, 16 * vs.length ≤ o →
      (∀ k, o - 16 * vs.length ≤ k → k + 8 ≤ o → m'.dword (slot low k) = m.dword (slot low k)) →
      PushedV m value low o vs → PushedV m' value low o vs
  | v :: rest, o, ho, hm, ⟨hv, hrest⟩ => by
    rw [List.length_cons] at ho hm
    refine ⟨(hm _ (by omega) (by omega)).trans hv, ?_⟩
    exact PushedV.congr (by omega) (fun k hlo hk => hm k (by omega) (by omega)) hrest
  | [], _, _, _, _ => trivial

theorem pushedV_congr_value {m : Mem} {value value' : Vreg → DWord} :
    ∀ {vs : List Vreg} {o : Nat}, (∀ v ∈ vs, value' v = value v) →
      PushedV m value low o vs → PushedV m value' low o vs
  | v :: rest, o, hv, ⟨hm, hrest⟩ => by
    refine ⟨hm.trans (hv v List.mem_cons_self).symm, ?_⟩
    exact pushedV_congr_value (fun w hw => hv w (List.mem_cons_of_mem _ hw)) hrest
  | [], _, _, _ => trivial

theorem exists_pushPlaceV {v : Vreg} : ∀ {vs : List Vreg}, v ∈ vs →
    ∃ k, k + 8 ≤ 16 * vs.length ∧ ∀ {m : Mem} {value : Vreg → DWord} {low : DWord} {o : Nat},
      16 * vs.length ≤ o → PushedV m value low o vs →
        m.dword (slot low (o - 16 * vs.length + k)) = value v
  | w :: rest, hv => by
    rw [List.length_cons]
    rcases List.mem_cons.mp hv with rfl | hv
    · refine ⟨16 * rest.length, by omega, fun {m value low o} ho hm => ?_⟩
      have hplace : o - 16 * (rest.length + 1) + 16 * rest.length = o - 16 := by omega
      rw [hplace]
      exact hm.1
    · obtain ⟨k, hk, hplace⟩ := exists_pushPlaceV hv
      refine ⟨k, by omega, fun {m value low o} ho hm => ?_⟩
      have hend : o - 16 * (rest.length + 1) = o - 16 - 16 * rest.length := by omega
      rw [hend]
      exact hplace (by omega) hm.2

theorem exists_pushedV (m : Mem) (low : DWord) : ∀ {vs : List Vreg} (o : Nat), vs.Nodup →
    ∃ value, PushedV m value low o vs
  | [], _, _ => ⟨fun _ => 0, trivial⟩
  | v :: rest, o, hnodup => by
    obtain ⟨hv, hrest⟩ := List.nodup_cons.mp hnodup
    obtain ⟨value, hvalue⟩ := exists_pushedV m low (o - 16) hrest
    refine ⟨fun w => if w = v then m.dword (slot low (o - 16)) else value w, (if_pos rfl).symm, ?_⟩
    refine pushedV_congr_value (fun w hw => if_neg ?_) hvalue
    rintro rfl
    exact hv hw

theorem pushVregs_run : ∀ (vs : List Vreg) {s : Host.State} {o : Nat}, s.x .sp = slot low o →
    16 * vs.length ≤ o → o ≤ dwordCount →
    ∃ s', execAll (vs.map fun v => .strVPre v .sp (-16)) s = some s' ∧
      Grows low o (o - 16 * vs.length) s s' ∧
      PushedV s'.mem (fun v => (s.v v).setWidth 64) low o vs
  | [], s, o, hs, _, _ => ⟨s, rfl, ⟨hs, fun _ _ => rfl, rfl, fun _ _ => rfl⟩, trivial⟩
  | v :: rest, s, o, hs, ho, hlt => by
    rw [List.length_cons] at ho ⊢
    obtain ⟨s₁, hs₁, hg₁, hm₁⟩ := strVPre_run hs (by omega) hlt v
    obtain ⟨s', hs', hg', hp⟩ := pushVregs_run rest hg₁.sp (by omega) (by omega)
    refine ⟨s', (execAll_cons hs₁).trans hs', ?_, ?_, ?_⟩
    · have ho' : o - 16 * (rest.length + 1) = o - 16 - 16 * rest.length := by omega
      rw [ho']
      exact hg₁.trans hg' (Nat.sub_le _ _)
    · exact (hg'.mem.dword (Nat.le_refl _) (by omega)).trans hm₁
    · rw [hg₁.v] at hp
      exact hp

/-- From `t` to `t'` vector registers have been taken back from the stack. -/
structure PoppedV (low : DWord) (o : Nat) (vs : List Vreg) (value : Vreg → DWord)
    (t t' : Host.State) : Prop where
  sp : t'.x .sp = slot low o
  x : ∀ x, x ≠ .sp → t'.x x = t.x x
  back : ∀ v ∈ vs, t'.v v = (value v).setWidth 128
  v : ∀ v, v ∉ vs → t'.v v = t.v v
  mem : t'.mem = t.mem

theorem popVregs_run {value : Vreg → DWord} : ∀ (vs : List Vreg) {t : Host.State} {o : Nat},
    t.x .sp = slot low (o - 16 * vs.length) → 16 * vs.length ≤ o → PushedV t.mem value low o vs →
    ∃ t', execAll (vs.reverse.map fun v => .ldrVPost v .sp 16) t = some t' ∧
      PoppedV low o vs value t t'
  | [], t, o, ht, _, _ =>
    ⟨t, rfl, ht, fun _ _ => rfl, fun v hv => absurd hv List.not_mem_nil, fun _ _ => rfl, rfl⟩
  | v :: rest, t, o, ht, ho, ⟨hv, hrest⟩ => by
    rw [List.length_cons] at ht ho
    have ho' : o - 16 * (rest.length + 1) = o - 16 - 16 * rest.length := by omega
    rw [ho'] at ht
    obtain ⟨t₁, ht₁, hp₁⟩ := popVregs_run rest ht (by omega) hrest
    have hslot : slot low (o - 16) + BitVec.ofInt 64 16 = slot low o := by
      rw [slot_pop, Nat.sub_add_cancel (by omega)]
    let t₂ := t₁.setBase .sp (slot low o)
    have hexec : (Host.Instr.ldrVPost v .sp 16).exec t₁ =
        some ((t₂.setV v ((value v).setWidth 128)).skip 1) := by
      show some ((State.setV (t₁.setBase .sp (t₁.x .sp + _)) v
        ((t₁.mem.dword (t₁.x .sp)).setWidth 128)).skip 1) = _
      rw [hp₁.sp, hslot, hp₁.mem, hv]
    refine ⟨(t₂.setV v ((value v).setWidth 128)).skip 1, ?_, State.x_setBase_self t₁ .sp _,
      fun x hx => ?_, fun w hw => ?_, fun w hw => ?_, hp₁.mem⟩
    · rw [List.reverse_cons, List.map_append, execAll_append ht₁]
      exact execAll_singleton hexec
    · exact (State.x_setBase_of_ne t₁ .sp x _ hx).trans (hp₁.x x hx)
    · by_cases hwv : w = v
      · rw [hwv]
        exact if_pos rfl
      · exact (if_neg hwv).trans (hp₁.back w ((List.mem_cons.mp hw).resolve_left hwv))
    · rw [List.mem_cons, not_or] at hw
      exact (if_neg hw.1).trans (hp₁.v w hw.2)

/-! ### The spill area -/

theorem setWidth_spillBytes {n : Nat} (h : n < 4096) :
    (BitVec.ofNat 12 n).setWidth 64 = BitVec.ofNat 64 n := by
  refine BitVec.eq_of_toNat_eq ?_
  rw [BitVec.toNat_setWidth, BitVec.toNat_ofNat, BitVec.toNat_ofNat]
  omega

theorem spillDown_run (f : Frame) {s : Host.State} {o : Nat} (hs : s.x .sp = slot low o)
    (hf : f.spillBytes ≤ o) (hlt : f.spillBytes < 4096) :
    ∃ s', execAll (f.spillMove (.subImm .x)) s = some s' ∧
      Grows low o (o - f.spillBytes) s s' ∧ s'.mem = s.mem := by
  unfold Frame.spillMove
  split
  · have hslot : slot low o - (BitVec.ofNat 12 f.spillBytes).setWidth 64 =
        slot low (o - f.spillBytes) := by
      have ho : BitVec.ofNat 64 o =
          BitVec.ofNat 64 (o - f.spillBytes) + BitVec.ofNat 64 f.spillBytes := by
        rw [← BitVec.ofNat_add, Nat.sub_add_cancel hf]
      unfold slot
      rw [setWidth_spillBytes hlt, ho, ← BitVec.add_assoc, BitVec.add_sub_cancel]
    have hexec : (Host.Instr.subImm .x .sp .sp (BitVec.ofNat 12 f.spillBytes)).exec s =
        some ((s.setBase .sp (slot low (o - f.spillBytes))).skip 1) := by
      show some ((s.setBase .sp (((s.x .sp).setWidth 64 - _).setWidth 64)).skip 1) = _
      rw [BitVec.setWidth_eq, BitVec.setWidth_eq, hs]
      exact congrArg (fun a => some ((s.setBase .sp a).skip 1)) hslot
    exact ⟨_, execAll_singleton hexec, grows_of_mem (fun _ _ => rfl) _, rfl⟩
  · have h0 : f.spillBytes = 0 := by omega
    rw [h0]
    exact ⟨s, rfl, ⟨hs, fun _ _ => rfl, rfl, fun _ _ => rfl⟩, rfl⟩

theorem spillUp_run (f : Frame) {s : Host.State} {o : Nat} (hs : s.x .sp = slot low (o - f.spillBytes))
    (hf : f.spillBytes ≤ o) (hlt : f.spillBytes < 4096) :
    ∃ s', execAll (f.spillMove (.addImm .x)) s = some s' ∧
      s'.x .sp = slot low o ∧ (∀ x, x ≠ .sp → s'.x x = s.x x) ∧ s'.v = s.v ∧ s'.mem = s.mem := by
  unfold Frame.spillMove
  split
  · have hslot : slot low (o - f.spillBytes) + (BitVec.ofNat 12 f.spillBytes).setWidth 64 =
        slot low o := by
      unfold slot
      rw [setWidth_spillBytes hlt, BitVec.add_assoc, ← BitVec.ofNat_add, Nat.sub_add_cancel hf]
    have hexec : (Host.Instr.addImm .x .sp .sp (BitVec.ofNat 12 f.spillBytes)).exec s =
        some ((s.setBase .sp (slot low o)).skip 1) := by
      show some ((s.setBase .sp (((s.x .sp).setWidth 64 + _).setWidth 64)).skip 1) = _
      rw [BitVec.setWidth_eq, BitVec.setWidth_eq, hs]
      exact congrArg (fun a => some ((s.setBase .sp a).skip 1)) hslot
    exact ⟨_, execAll_singleton hexec, State.x_setBase_self s .sp _,
      fun x hx => State.x_setBase_of_ne s .sp x _ hx, rfl, rfl⟩
  · have h0 : f.spillBytes = 0 := by omega
    rw [h0] at hs
    exact ⟨s, rfl, hs, fun _ _ => rfl, rfl, rfl⟩

end Dynarec.Simulation
