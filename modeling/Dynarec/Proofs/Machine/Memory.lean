import Dynarec.Word

/-! # Host memory

Bytes at 64-bit addresses that wrap around. Values go in little-endian order. -/

namespace Dynarec.Host

def Mem := DWord → Byte

namespace Mem

/-- The `n` bytes from `a` on, lowest first. -/
def read (m : Mem) (a : DWord) : (n : Nat) → BitVec (8 * n)
  | 0 => 0#0
  | n + 1 => m.read (a + 1) n ++ m a

/-- The memory with `n` bytes written from `a` on. -/
def write (m : Mem) (a : DWord) (n : Nat) (value : BitVec (8 * n)) : Mem := fun b =>
  if (b - a).toNat < n then value.extractLsb' (8 * (b - a).toNat) 8 else m b

/-- The byte `b` is none of the `n` bytes from `a` on. -/
def Outside (a : DWord) (n : Nat) (b : DWord) : Prop := n ≤ (b - a).toNat

theorem write_of_outside {m : Mem} {a b : DWord} {n : Nat} (h : Outside a n b)
    (value : BitVec (8 * n)) : m.write a n value b = m b :=
  if_neg (Nat.not_lt.mpr h)

/-- What is outside a stretch of memory is outside each part of it. -/
theorem Outside.part {base a : DWord} {size o n : Nat} (h : Outside base size a) (ho : o + n ≤ size) :
    Outside (base + BitVec.ofNat 64 o) n a := by
  unfold Outside at *
  have hsub : a - (base + BitVec.ofNat 64 o) = a - base - BitVec.ofNat 64 o := by bv_omega
  have hlt := (a - base).isLt
  rw [hsub, BitVec.toNat_sub, BitVec.toNat_ofNat]
  omega

theorem Outside.mono {base a : DWord} {n m : Nat} (h : Outside base n a) (hm : m ≤ n) :
    Outside base m a := Nat.le_trans hm h

theorem add_succ_eq (a : DWord) (k : Nat) :
    a + BitVec.ofNat 64 (k + 1) = a + 1 + BitVec.ofNat 64 k := by
  rw [Nat.add_comm k 1, BitVec.ofNat_add, ← BitVec.add_assoc]
  rfl

theorem read_congr {m m' : Mem} {a : DWord} {n : Nat}
    (h : ∀ k < n, m (a + BitVec.ofNat 64 k) = m' (a + BitVec.ofNat 64 k)) :
    m.read a n = m'.read a n := by
  induction n generalizing a with
  | zero => rfl
  | succ n ih =>
    have hfirst := h 0 (Nat.succ_pos n)
    rw [BitVec.add_zero] at hfirst
    have hrest : m.read (a + 1) n = m'.read (a + 1) n := by
      refine ih fun k hk => ?_
      rw [← add_succ_eq]
      exact h (k + 1) (Nat.succ_lt_succ hk)
    rw [read, read, hfirst, hrest]

/-- A read gives the value whose bytes are in memory. -/
theorem read_eq {m : Mem} {a : DWord} {n : Nat} {value : BitVec (8 * n)}
    (h : ∀ k < n, m (a + BitVec.ofNat 64 k) = value.extractLsb' (8 * k) 8) :
    m.read a n = value := by
  induction n generalizing a with
  | zero => exact BitVec.eq_of_getLsbD_eq fun i hi => absurd hi (Nat.not_lt_zero i)
  | succ n ih =>
    have hfirst := h 0 (Nat.succ_pos n)
    rw [BitVec.add_zero] at hfirst
    have hrest : m.read (a + 1) n = value.extractLsb' 8 (8 * n) := by
      refine ih fun k hk => ?_
      rw [← add_succ_eq, h (k + 1) (Nat.succ_lt_succ hk)]
      refine BitVec.eq_of_getLsbD_eq fun i hi => ?_
      have hlt : 8 * k + i < 8 * n := by omega
      simp only [BitVec.getLsbD_extractLsb', hi, hlt, decide_true, Bool.true_and]
      congr 1
      omega
    rw [read, hfirst, hrest]
    refine BitVec.eq_of_getLsbD_eq fun i hi => ?_
    rw [BitVec.getLsbD_append]
    split
    · rename_i hlow
      simp only [BitVec.getLsbD_extractLsb', hlow, decide_true, Bool.true_and]
      congr 1
      omega
    · have hlt : i - 8 < 8 * n := by omega
      simp only [BitVec.getLsbD_extractLsb', hlt, decide_true, Bool.true_and]
      congr 1
      omega

theorem add_sub_offset (a : DWord) {k : Nat} (h : k < dwordCount) :
    (a + BitVec.ofNat 64 k - a).toNat = k := by
  rw [BitVec.add_comm, BitVec.add_sub_cancel, BitVec.toNat_ofNat]
  exact Nat.mod_eq_of_lt h

theorem read_write_self {n : Nat} (m : Mem) (a : DWord) (value : BitVec (8 * n))
    (hn : n ≤ dwordCount) : (m.write a n value).read a n = value := by
  refine read_eq fun k hk => ?_
  have hk' := add_sub_offset a (Nat.lt_of_lt_of_le hk hn)
  unfold write
  rw [hk', if_pos hk]

theorem read_write_of_outside {m : Mem} {a b : DWord} {n k : Nat} (value : BitVec (8 * n))
    (h : ∀ j < k, Outside a n (b + BitVec.ofNat 64 j)) :
    (m.write a n value).read b k = m.read b k :=
  read_congr fun j hj => write_of_outside (h j hj) value

/-- Two stretches of memory at offsets from the same address are apart if their offsets are. -/
theorem outside_of_offsets (base : DWord) {o n o' k : Nat} (h : o + n ≤ o' ∨ o' + k ≤ o)
    (ho : o + n ≤ dwordCount) (ho' : o' + k ≤ dwordCount) :
    ∀ j < k, Outside (base + BitVec.ofNat 64 o) n
      (base + BitVec.ofNat 64 o' + BitVec.ofNat 64 j) := by
  intro j hj
  unfold Outside
  have hsum : base + BitVec.ofNat 64 o' + BitVec.ofNat 64 j - (base + BitVec.ofNat 64 o) =
      BitVec.ofNat 64 (o' + j) - BitVec.ofNat 64 o := by
    rw [BitVec.ofNat_add]
    bv_omega
  rw [hsum, BitVec.toNat_sub, BitVec.toNat_ofNat, BitVec.toNat_ofNat]
  unfold dwordCount at ho ho'
  omega

theorem read_write_of_offsets {m : Mem} {base : DWord} {o n o' k : Nat}
    (h : o + n ≤ o' ∨ o' + k ≤ o) (ho : o + n ≤ dwordCount) (ho' : o' + k ≤ dwordCount)
    (value : BitVec (8 * n)) :
    (m.write (base + BitVec.ofNat 64 o) n value).read (base + BitVec.ofNat 64 o') k =
      m.read (base + BitVec.ofNat 64 o') k :=
  read_write_of_outside value (outside_of_offsets base h ho ho')

/-- The word at an address. -/
def word (m : Mem) (a : DWord) : Word := m.read a 4

/-- The double word at an address. -/
def dword (m : Mem) (a : DWord) : DWord := m.read a 8

end Mem

end Dynarec.Host
