import Dynarec.Proofs.Run.Exit
import Dynarec.Proofs.Run.Frame

/-! # Merged exits

Exits are registered while other words are emitted, and in the end all of them are pointed at one
trailer. Control that comes to an exit leaves for the trailer exactly if the condition of the exit
holds, and else goes on behind it. -/

namespace Dynarec.Emit

open Dynarec.Host Dynarec.Compile

/-! ### Control at an exit -/

/-- Whether an exit is taken in a state. -/
def ExitCondition.holds (m : Host.State) : ExitCondition → Bool
  | always => true
  | cond c => c.holds m.flags
  | nonzero x => m.low .w x ≠ 0
  | zero x => m.low .w x = 0

/-- The words of an exit when the trailer stands at `start`. -/
def exitPath (start k : Nat) (c : ExitCondition) : List Host.Instr :=
  c.skip ++ [.b (displacement (k + c.skip.length) start)]

section Control

variable {c : ExitCondition} {m : Host.State} {fetch : Nat → Option Host.Instr} {start k : Nat}

theorem exec_skip (hc : c ≠ .cond .al) {i : Host.Instr} (hi : c.skip = [i]) (m : Host.State) :
    i.exec m = some (if c.holds m then m.skip 1 else m.goto (m.pc + 2)) := by
  cases c with
  | always => cases hi
  | cond c =>
    have hal : c ≠ .al := fun h => hc (congrArg _ h)
    cases hi
    simp only [Instr.exec, Cond.holds_invert hal, State.jump_two, ExitCondition.holds]
    by_cases hf : c.holds m.flags = true
    · simp only [hf, Bool.not_true, Bool.false_eq_true, if_false, if_true]
    · simp only [hf, Bool.not_false, Bool.false_eq_true, if_false, if_true]
  | nonzero x =>
    cases hi
    simp only [Instr.exec, State.jump_two, ExitCondition.holds, ne_eq, decide_not]
    by_cases hx : m.low .w x = 0
    · simp only [hx, if_true, decide_true, Bool.not_true, Bool.false_eq_true, if_false]
    · simp only [hx, if_false, decide_false, Bool.not_false, if_true]
  | zero x =>
    cases hi
    simp only [Instr.exec, State.jump_two, ExitCondition.holds]
    by_cases hx : m.low .w x = 0
    · simp only [hx, if_true, decide_true]
    · simp only [hx, if_false, decide_false, Bool.false_eq_true]

theorem skip_cases (c : ExitCondition) : (c = .always ∧ c.skip = []) ∨ ∃ i, c.skip = [i] := by
  cases c with
  | always => exact .inl ⟨rfl, rfl⟩
  | cond c => exact .inr ⟨_, rfl⟩
  | nonzero x => exact .inr ⟨_, rfl⟩
  | zero x => exact .inr ⟨_, rfl⟩

theorem visits_taken (hat : Found fetch k (exitPath start k c)) (hc : c ≠ .cond .al)
    (hm : m.pc = k) (h : c.holds m = true) :
    Visits fetch (List.range' k (exitPath start k c).length) m (m.goto start) := by
  obtain ⟨hskip, hb⟩ := allFrom_append.mp hat
  have hb := allFrom_singleton.mp hb
  rw [exitPath, List.length_append, List.length_singleton]
  rcases skip_cases c with ⟨-, hs⟩ | ⟨i, hs⟩
  · rw [hs] at hb ⊢
    exact .single hm hb (State.jump_displacement hm)
  · rw [hs] at hb hskip ⊢
    have hexec := exec_skip hc hs m
    rw [if_pos h] at hexec
    have hpc : (m.skip 1).pc = k + 1 := congrArg (· + 1) hm
    have hfirst : Visits fetch [k] m (m.skip 1) := .single hm (allFrom_singleton.mp hskip) hexec
    have hsecond : Visits fetch [k + 1] (m.skip 1) (m.goto start) :=
      .single hpc hb (State.jump_displacement hpc)
    exact hfirst.trans hsecond

theorem visits_passed (hat : Found fetch k (exitPath start k c)) (hc : c ≠ .cond .al)
    (hm : m.pc = k) (h : c.holds m = false) :
    Visits fetch [k] m (m.goto (k + (exitPath start k c).length)) := by
  obtain ⟨hskip, -⟩ := allFrom_append.mp hat
  rw [exitPath, List.length_append, List.length_singleton]
  rcases skip_cases c with ⟨hc, -⟩ | ⟨i, hs⟩
  · rw [hc] at h
    cases h
  · rw [hs] at hskip ⊢
    have hexec := exec_skip hc hs m
    rw [h, hm] at hexec
    exact .single hm (allFrom_singleton.mp hskip) hexec

theorem canonical_exitPath (h : fits26 (displacement (k + c.skip.length) start) = true) :
    ∀ i ∈ exitPath start k c, i.isCanonical = true := by
  refine List.forall_mem_append.mpr ⟨?_, List.forall_mem_singleton.mpr h⟩
  cases c with
  | always => exact List.forall_mem_nil _
  | cond c => exact List.forall_mem_singleton.mpr rfl
  | nonzero x => exact List.forall_mem_singleton.mpr rfl
  | zero x => exact List.forall_mem_singleton.mpr rfl

end Control

/-! ### Emitting words and exits -/

/-- What is done until exits are merged. -/
inductive TailAct where
  | emit (w : Word)
  | register (c : ExitCondition) (h : c ≠ .cond .al)

namespace TailAct

def perform : TailAct → Emit Unit
  | emit w => discard (emitWord w)
  | register c _ => discard (registerExit c)

def words : TailAct → List Word
  | emit w => [w]
  | register c _ => (c.skip ++ [Host.Instr.b 0]).map Host.Instr.encode

/-- The words when the exit at `k` is pointed at a trailer. -/
def closed (start k : Nat) : TailAct → List Word
  | emit w => [w]
  | register c _ => (exitPath start k c).map Host.Instr.encode

/-- The exit with its branch word, from index `k` on. -/
def exits (k : Nat) : TailAct → List Exit
  | emit _ => []
  | register c _ => [⟨c, k + c.skip.length⟩]

end TailAct

def performTail : List TailAct → Emit Unit
  | [] => return ()
  | a :: rest => do
    a.perform
    performTail rest

def tailWords (acts : List TailAct) : List Word := acts.flatMap TailAct.words

def closedWords (start k : Nat) : List TailAct → List Word
  | [] => []
  | a :: rest => a.closed start k ++ closedWords start (k + a.words.length) rest

def tailExits (k : Nat) : List TailAct → List Exit
  | [] => []
  | a :: rest => a.exits k ++ tailExits (k + a.words.length) rest

section Words

variable {start k : Nat} {a : TailAct} {acts : List TailAct}

@[simp] theorem TailAct.length_closed : (a.closed start k).length = a.words.length := by
  cases a with
  | emit w => rfl
  | register c h => simp only [closed, words, exitPath, List.length_map, List.length_append,
      List.length_singleton]

@[simp] theorem length_closedWords :
    (closedWords start k acts).length = (tailWords acts).length := by
  induction acts generalizing k with
  | nil => rfl
  | cons a acts ih =>
    simp only [closedWords, tailWords, List.flatMap_cons, List.length_append, TailAct.length_closed]
    rw [ih]
    rfl

theorem closedWords_append (xs ys : List TailAct) : closedWords start k (xs ++ ys) =
    closedWords start k xs ++ closedWords start (k + (tailWords xs).length) ys := by
  induction xs generalizing k with
  | nil => rfl
  | cons a xs ih =>
    simp only [List.cons_append, closedWords, ih, tailWords, List.flatMap_cons, List.length_append,
      List.append_assoc, Nat.add_assoc]

theorem tailExits_eq_nil : tailExits k acts = [] ↔ ∀ c h, .register c h ∉ acts := by
  induction acts generalizing k with
  | nil => exact iff_of_true rfl fun c h => List.not_mem_nil
  | cons a acts ih =>
    rw [tailExits, List.append_eq_nil_iff, ih]
    cases a with
    | emit w =>
      simp only [TailAct.exits, List.mem_cons, true_and, reduceCtorEq, false_or]
    | register c h =>
      refine iff_of_false (fun hnil => List.cons_ne_nil _ _ hnil.1) fun hnone => ?_
      exact hnone c h List.mem_cons_self

theorem tailExits_site_lt : ∀ x ∈ tailExits k acts, x.site < k + (tailWords acts).length := by
  induction acts generalizing k with
  | nil => exact fun x hx => absurd hx List.not_mem_nil
  | cons a acts ih =>
    intro x hx
    have hlen : (tailWords (a :: acts)).length = a.words.length + (tailWords acts).length := by
      rw [tailWords, List.flatMap_cons, List.length_append]
      rfl
    rw [hlen]
    rcases List.mem_append.mp hx with hx | hx
    · cases a with
      | emit w => exact absurd hx List.not_mem_nil
      | register c h =>
        have hwords : (TailAct.register c h).words.length = c.skip.length + 1 := by
          rw [TailAct.words, List.length_map, List.length_append, List.length_singleton]
        rw [List.mem_singleton.mp hx, hwords]
        show k + c.skip.length < _
        omega
    · have := ih x hx
      omega

/-- Only the branch words of exits are other than they were emitted. -/
theorem closedWords_kept {j : Nat} (h : ∀ x ∈ tailExits k acts, x.site ≠ k + j) :
    (closedWords start k acts)[j]? = (tailWords acts)[j]? := by
  induction acts generalizing k j with
  | nil => rfl
  | cons a acts ih =>
    obtain ⟨hfirst, hrest⟩ := List.forall_mem_append.mp h
    rw [closedWords, tailWords, List.flatMap_cons]
    -- The index is inside the first act, or counted on behind it.
    by_cases hj : j < a.words.length
    · rw [List.getElem?_append_left (by rwa [TailAct.length_closed]), List.getElem?_append_left hj]
      cases a with
      | emit w => rfl
      | register c hc =>
        have hsite : j ≠ c.skip.length := fun hj =>
          hfirst _ List.mem_cons_self (by rw [hj])
        have hlt : j < c.skip.length := by
          rw [TailAct.words, List.length_map, List.length_append, List.length_singleton] at hj
          omega
        simp only [TailAct.closed, TailAct.words, exitPath, List.getElem?_map,
          List.getElem?_append_left hlt]
    · have hle := Nat.not_lt.mp hj
      rw [List.getElem?_append_right (by rwa [TailAct.length_closed]),
        List.getElem?_append_right hle, TailAct.length_closed]
      refine ih fun x hx => ?_
      have := hrest x hx
      omega

theorem pointed_tail (start : Nat) (before after : List Word) (acts : List TailAct) :
    pointed start (tailExits before.length acts) (before ++ tailWords acts ++ after) =
      before ++ closedWords start before.length acts ++ after := by
  induction acts generalizing before with
  | nil => rfl
  | cons a acts ih =>
    -- Behind the first act, with its words as they are in the end.
    have hnext : pointed start (tailExits (before.length + a.words.length) acts)
        (before ++ (a.closed start before.length ++ (tailWords acts ++ after))) =
        before ++ (a.closed start before.length ++
          (closedWords start (before.length + a.words.length) acts ++ after)) := by
      have h := ih (before ++ a.closed start before.length)
      simpa only [List.length_append, TailAct.length_closed, List.append_assoc] using h
    simp only [closedWords, List.append_assoc]
    rw [← hnext]
    cases a with
    | emit w =>
      simp only [tailWords, List.flatMap_cons, List.append_assoc]
      rfl
    | register c hc =>
      have hpoint := pointed_cons start c
        (tailExits (before.length + (TailAct.register c hc).words.length) acts)
        (before ++ c.skip.map Host.Instr.encode) (Host.Instr.b 0).encode (tailWords acts ++ after)
      simp only [List.length_append, List.length_map, List.append_assoc] at hpoint
      simp only [tailWords, tailExits, List.flatMap_cons, TailAct.words, TailAct.exits,
        TailAct.closed, exitPath, List.map_append, List.map_cons, List.map_nil, List.append_assoc,
        List.cons_append, List.nil_append] at hpoint ⊢
      exact hpoint

end Words

section Run

variable {e : Setting} {s : Emission}

/-- The emission behind acts. -/
def Emission.tailed (s : Emission) (acts : List TailAct) : Emission :=
  { s with
    code := s.code ++ (tailWords acts).toArray
    exits := s.exits ++ (tailExits s.code.size acts).toArray }

theorem TailAct.perform_run (a : TailAct) : a.perform e s = .ok () { s with
    code := s.code ++ a.words.toArray
    exits := s.exits ++ (a.exits s.code.size).toArray } := by
  cases a with
  | emit w =>
    have hrun : emitWord w e s = .ok s.code.size { s with code := s.code.push w } := rfl
    rw [perform, run_discard, hrun]
    simp only [words, exits, Array.push_eq_append, Array.append_empty]
  | register c hc =>
    have hwords : (ops c.skip ++ [Item.exit c]).map Item.word =
        (c.skip ++ [Host.Instr.b 0]).map Host.Instr.encode := by
      rw [List.map_append, List.map_append, ops, List.map_map]
      rfl
    rw [perform, run_discard, registerExit_run hc]
    simp only [Emission.extend, fixupsFrom_append, exitsFrom_append, fixupsFrom_ops, exitsFrom_ops,
      fixupsFrom, exitsFrom, Item.fixup?, Item.exit?, length_ops, List.nil_append,
      Option.toList_none, Option.toList_some, List.append_nil, Array.append_empty, hwords, words,
      exits]

theorem performTail_run (acts : List TailAct) : performTail acts e s = .ok () (s.tailed acts) := by
  induction acts generalizing s with
  | nil =>
    simp only [performTail, run_pure, Emission.tailed, tailWords, tailExits, List.flatMap_nil,
      Array.append_empty]
  | cons a acts ih =>
    rw [performTail, bind_run_ok a.perform_run, ih]
    simp only [Emission.tailed, tailWords, tailExits, List.flatMap_cons, Array.size_append,
      List.size_toArray, Array.append_assoc, List.append_toArray]

theorem registerExit_al : registerExit (.cond .al) e s =
    .error (.error (.invalidRegionCondition .al)) s := by
  simp only [registerExit, if_true, run_bind, run_fail]

end Run

/-! ### Merging -/

/-- An action that appends words to the code and does nothing else. -/
structure Trailer (e : Setting) where
  action : Emit Unit
  words : Array Word → List Word
  run : ∀ s : Emission, action e s = .ok () { s with code := s.code ++ (words s.code).toArray }

/-- The exits of `u`, whose acts began at index `k`, lead to the trailer in `t`. -/
structure ExitsMerged (k : Nat) (acts : List TailAct) (trailer : List Word) (u t : Emission) :
    Prop where
  rest : t = { u with code := t.code, exits := #[] }
  size : t.code.size = u.code.size + trailer.length
  appended : ∀ j : Nat, t.code[u.code.size + j]? = trailer[j]?
  kept : ∀ j < u.code.size, (∀ x ∈ tailExits k acts, x.site ≠ j) → t.code[j]? = u.code[j]?
  taken : ∀ pre c h post, acts = pre ++ .register c h :: post →
    ∀ m : Host.State, m.pc = k + (tailWords pre).length → c.holds m = true →
      Visits (instrAt? t.code) (List.range' m.pc (c.skip.length + 1)) m (m.goto u.code.size)
  passed : ∀ pre c h post, acts = pre ++ .register c h :: post →
    ∀ m : Host.State, m.pc = k + (tailWords pre).length → c.holds m = false →
      Visits (instrAt? t.code) [m.pc] m (m.goto (m.pc + (c.skip.length + 1)))

section Merge

variable {acts : List TailAct} {before ws : List Word} {u t : Emission}

theorem found_exit {pre post : List TailAct} {c : ExitCondition} {hc : c ≠ .cond .al}
    (hu : u.code.toList = before ++ tailWords (pre ++ .register c hc :: post))
    (ht : t.code.toList =
      before ++ closedWords u.code.size before.length (pre ++ .register c hc :: post) ++ ws)
    (hsmall : u.code.size < 0x2000000) :
    let k := before.length + (tailWords pre).length
    Found (instrAt? t.code) k (exitPath u.code.size k c) := by
  intro k
  let start := u.code.size
  have hsize : start = k + ((c.skip.length + 1) + (tailWords post).length) := by
    simp only [start, k, ← Array.length_toList, hu, tailWords, List.flatMap_append,
      List.flatMap_cons, TailAct.words, List.length_append, List.length_map, List.length_singleton]
    omega
  have hfits : fits26 (displacement (k + c.skip.length) start) = true := by
    rw [fits26_iff]
    unfold displacement
    omega
  have hcode : t.code.toList = (before ++ closedWords start before.length pre) ++
      ((exitPath start k c).map Host.Instr.encode ++
        (closedWords start (k + (TailAct.register c hc).words.length) post ++ ws)) := by
    rw [ht, closedWords_append, closedWords]
    simp only [TailAct.closed, List.append_assoc, start, k]
  have hk : (before ++ closedWords start before.length pre).length = k := by
    rw [List.length_append, length_closedWords]
  have hat := found_of_words (before ++ closedWords start before.length pre)
    (closedWords start (k + (TailAct.register c hc).words.length) post ++ ws)
    (canonical_exitPath hfits)
  rwa [hk, ← hcode, Array.toArray_toList] at hat

theorem exitsMerged_of_code (hu : u.code.toList = before ++ tailWords acts)
    (ht : t.code.toList = before ++ closedWords u.code.size before.length acts ++ ws)
    (hrest : t = { u with code := t.code, exits := #[] }) (hsmall : u.code.size < 0x2000000) :
    ExitsMerged before.length acts ws u t := by
  have hclosed : (before ++ closedWords u.code.size before.length acts).length = u.code.size := by
    rw [List.length_append, length_closedWords, ← Array.length_toList, hu, List.length_append]
  refine ⟨hrest, ?_, fun j => ?_, fun j hj hsites => ?_, ?_, ?_⟩
  · rw [← Array.length_toList, ht, List.length_append, hclosed]
  · rw [← Array.getElem?_toList, ht, List.getElem?_append_right (by omega), hclosed,
      Nat.add_sub_cancel_left]
  · rw [← Array.getElem?_toList, ht, List.getElem?_append_left (by rwa [hclosed]),
      ← Array.getElem?_toList, hu]
    by_cases hb : j < before.length
    · rw [List.getElem?_append_left hb, List.getElem?_append_left hb]
    · have hle := Nat.not_lt.mp hb
      rw [List.getElem?_append_right hle, List.getElem?_append_right hle]
      refine closedWords_kept fun x hx => ?_
      rw [Nat.add_sub_cancel' hle]
      exact hsites x hx
  · rintro pre c hc post rfl m hm hholds
    have hrun := visits_taken (found_exit hu ht hsmall) hc hm hholds
    rwa [exitPath, List.length_append, List.length_singleton, ← hm] at hrun
  · rintro pre c hc post rfl m hm hholds
    have hrun := visits_passed (found_exit hu ht hsmall) hc hm hholds
    rwa [exitPath, List.length_append, List.length_singleton, ← hm] at hrun

end Merge

/-- Whatever words and exits were emitted, the exits are merged: the trailer is appended once if
there are any, and not at all if there are none. -/
theorem exits_merged (e : Setting) (s : Emission) (acts : List TailAct) (trailer : Trailer e)
    (hlen : (s.code ++ (tailWords acts).toArray).size +
      (trailer.words (s.code ++ (tailWords acts).toArray)).length < 0x2000000) :
    (∃ u, performTail acts e { s with exits := #[] } = .ok () u ∧
      u.code = s.code ++ (tailWords acts).toArray ∧
      u.exits.toList = tailExits s.code.size acts ∧
      ((∀ c h, .register c h ∉ acts) → mergeExits trailer.action e u = .ok none u) ∧
      ((∃ c h, .register c h ∈ acts) → ∃ t,
        mergeExits trailer.action e u = .ok (some u.code.size) t ∧
          ExitsMerged s.code.size acts (trailer.words u.code) u t)) ∧
    ∀ t, registerExit (.cond .al) e t = .error (.error (.invalidRegionCondition .al)) t := by
  let u : Emission := Emission.tailed { s with exits := #[] } acts
  have hu : u.code.toList = s.code.toList ++ tailWords acts := Array.toList_append
  have hexits : u.exits.toList = tailExits s.code.size acts := by
    simp only [u, Emission.tailed, Array.empty_append]
  have hsize : u.code.size = s.code.size + (tailWords acts).length := by
    rw [← Array.length_toList, hu, List.length_append, Array.length_toList]
  have hin : ∀ x ∈ u.exits.toList, x.site < u.code.size := by
    rw [hexits, hsize]
    exact tailExits_site_lt
  have hsmall : u.code.size < 0x2000000 := Nat.lt_of_le_of_lt (Nat.le_add_right _ _) hlen
  have hfit : ExitsFit u.code.size u.exits.toList := by
    intro x hx
    have hsite := hin x hx
    rw [fits26_iff]
    unfold displacement
    omega
  have hmerge := (mergeExits_yields hin (trailer.run { u with exits := #[] })).run hfit
  refine ⟨⟨u, performTail_run acts, rfl, hexits, fun hnone => ?_, ?_⟩, fun t => registerExit_al⟩
  · have hnil : u.exits.toList = [] := hexits.trans (tailExits_eq_nil.mpr hnone)
    have hempty : #[] = u.exits := (Array.toList_eq_nil_iff.mp hnil).symm
    rw [hmerge, hnil, if_pos rfl, if_pos rfl, List.append_nil, pointed, List.foldl_nil,
      Array.toArray_toList, hempty]
  · rintro ⟨c, h, hmem⟩
    have hne : u.exits.toList ≠ [] := fun hnil =>
      tailExits_eq_nil.mp (hexits.symm.trans hnil) c h hmem
    rw [if_neg hne, if_neg hne, hexits, hu] at hmerge
    have hcode := pointed_tail u.code.size s.code.toList (trailer.words u.code) acts
    rw [Array.length_toList] at hcode
    rw [hcode] at hmerge
    refine ⟨_, hmerge, ?_⟩
    have hk : s.code.size = s.code.toList.length := Array.length_toList.symm
    rw [hk]
    exact exitsMerged_of_code hu rfl rfl hsmall

/-- A trailer that only returns. -/
def returning (e : Setting) : Trailer e where
  action := emitWords #[Host.Instr.ret.encode]
  words _ := [Host.Instr.ret.encode]
  run _ := rfl

/-- Exits of three kinds around another word. -/
def threeExits : List TailAct :=
  [.register .always (by decide), .emit Host.Instr.nop.encode,
    .register (.nonzero .scratch) (by decide), .register (.cond .eq) (by decide)]

theorem exits_merged_three : ∃ u t, performTail threeExits {} {} = .ok () u ∧
    mergeExits (returning {}).action {} u = .ok (some 6) t ∧
      ExitsMerged 0 threeExits [Host.Instr.ret.encode] u t := by
  obtain ⟨⟨u, hrun, hcode, -, -, hsome⟩, -⟩ :=
    exits_merged {} {} threeExits (returning {}) (by decide)
  obtain ⟨t, ht, hmerged⟩ := hsome ⟨.always, by decide, List.mem_cons_self⟩
  have hsize : u.code.size = 6 := by
    rw [hcode]
    decide
  rw [hsize] at ht
  exact ⟨u, t, hrun, ht, hmerged⟩

end Dynarec.Emit
