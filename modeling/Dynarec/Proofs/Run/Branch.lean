import Dynarec.Proofs.Run.Exit

/-! # Direct branches of running code

A branch to a known guest address is resolved in one of five forms, by how far it leads and by
whether the address starts a block of the unit. All of them mean the same: a branch that is not
taken goes on behind its placeholder, one that is taken comes to the block, if the word that
branches reaches it, and else leaves the unit for the address. -/

namespace Dynarec.Emit

open Dynarec.Host

namespace Fixup

/-- The condition under which a branch is taken. -/
def cond (f : Fixup) : Cond :=
  match f.kind with
  | .condBranch c => c
  | _ => .al

/-- The branch with a displacement. -/
def jump (f : Fixup) (disp : Int) : Host.Instr :=
  match f.kind with
  | .condBranch c => .bCond c disp
  | _ => .b disp

/-- The word that branches to index `k`: the placeholder, or the third word of the long form of a
conditional branch, which stands at `n`. -/
def branchWord (f : Fixup) (n k : Nat) : Nat :=
  match f.kind with
  | .condBranch _ => if fits19 (displacement f.site k) then f.site else n + 2
  | _ => f.site

/-- The start of the target's block, if the word that branches reaches it. -/
def reached? (f : Fixup) (n : Nat) (index : Option Nat) : Option Nat :=
  index.filter fun k => fits26 (displacement (f.branchWord n k) k)

end Fixup

/-- From `s` to `t` the guest goes on at an address outside the unit: it is written to the record,
and the code address for it is loaded. Nothing else is changed but the scratch register. -/
structure Departed (e : Setting) (a : Word) (s t : Host.State) : Prop where
  next : t.mem.word (s.x .context + BitVec.ofNat 64 Record.dispatchAddress) = a
  code : t.x .dispatch = e.codeAddress (some a) t.mem
  x : ∀ q, q ≠ .scratch → q ≠ .dispatch → t.x q = s.x q
  v : t.v = s.v
  flags : t.flags = s.flags
  mem : ∀ b, Mem.Outside (s.x .context + BitVec.ofNat 64 Record.dispatchAddress) 4 b →
    t.mem b = s.mem b

theorem departed_leave (e : Setting) (a : Word) (k : Nat) (s : Host.State) :
    Departed e a s (leave e a k s) := by
  have hmem := mem_leave e a k s
  refine ⟨?_, ?_, fun q hq hq' => x_leave hq hq', v_leave e a k s, flags_leave e a k s,
    fun b hb => ?_⟩
  · rw [hmem]
    exact Mem.read_write_self (n := 4) s.mem _ a (Nat.le_of_ble_eq_true rfl)
  · have hkeep : (writeNext s a).mem = (leave e a k s).mem := (State.mem_set (writeNext s a) ..).symm
    rw [← hkeep]
    exact State.x_set_self (writeNext s a) .dispatch _ (by decide)
  · rw [hmem]
    exact Mem.write_of_outside hb a

/-- What a branch to `a` means in a state `s` with control at its placeholder. -/
structure BranchMeans (e : Setting) (fetch : Nat → Option Host.Instr) (trailer : Option Nat)
    (f : Fixup) (a : Word) (near : Option Nat) (s : Host.State) : Prop where
  passed : f.cond.holds s.flags = false → Leads fetch s (s.goto (f.site + 1))
  taken : f.cond.holds s.flags = true → ∀ k, near = some k → Advances fetch s (s.goto k)
  left : f.cond.holds s.flags = true → near = none →
    ∃ k t, trailer = some k ∧ t.pc = k ∧ Leads fetch s t ∧ Departed e a s t

/-! ### The five forms -/

end Dynarec.Emit

namespace Dynarec.Resolve

open Dynarec.Emit Dynarec.Host Dynarec.Compile

/-- How a branch to `a` is resolved when the code has `n` words: what is written over its
placeholder, and what is appended. -/
inductive DirectForm (e : Setting) (f : Fixup) (a : Word) (index : Option Nat) (n : Nat) :
    Host.Instr → List Item → Prop
  | elided {k : Nat} (hi : index = some k) (hk : displacement f.site k = 1) :
    DirectForm e f a index n .nop []
  | patched {k : Nat} (hi : f.reached? n index = some k)
    (hr : (f.jump (displacement f.site k)).isCanonical = true) :
    DirectForm e f a index n (f.jump (displacement f.site k)) []
  | trampoline (hi : f.reached? n index = none)
    (hr : (f.jump (displacement f.site n)).isCanonical = true) :
    DirectForm e f a index n (f.jump (displacement f.site n)) (exitItems e a)
  | longNear {k : Nat} (hi : f.reached? n index = some k)
    (hr : fits26 (displacement f.site n) = true)
    (hb : fits26 (displacement (n + 1) (f.site + 1)) = true)
    (hk : fits26 (displacement (n + 2) k) = true) :
    DirectForm e f a index n (.b (displacement f.site n)) (ops [.bCond f.cond 2,
      .b (displacement (n + 1) (f.site + 1)), .b (displacement (n + 2) k)])
  | longExit (hi : f.reached? n index = none)
    (hr : fits26 (displacement f.site n) = true)
    (hb : fits26 (displacement (n + 1) (f.site + 1)) = true) :
    DirectForm e f a index n (.b (displacement f.site n))
      (ops [.bCond f.cond 2, .b (displacement (n + 1) (f.site + 1))] ++ exitItems e a)

section Forms

variable {e : Setting} {u : RegisterUse} {targets : Word → Option Nat} {f : Fixup} {a : Word}
  {n : Nat}

theorem directForm_directed (hc : ∀ c, f.kind ≠ .condBranch c)
    (hf : (directed e targets f.site n a).fits) :
    DirectForm e f a (targets a) n (directed e targets f.site n a).patch
      (directed e targets f.site n a).tail := by
  have hjump : ∀ d, f.jump d = .b d := by
    intro d
    unfold Fixup.jump
    cases hk : f.kind with
    | condBranch c => exact absurd hk (hc c)
    | _ => rfl
  have hword : ∀ k, f.branchWord n k = f.site := by
    intro k
    unfold Fixup.branchWord
    cases hk : f.kind with
    | condBranch c => exact absurd hk (hc c)
    | _ => rfl
  have htrampoline : f.reached? n (targets a) = none → (trampolined e f.site n a).fits →
      DirectForm e f a (targets a) n (.b (displacement f.site n)) (exitItems e a) := by
    intro hi hr
    rw [← hjump]
    exact .trampoline hi (by rw [hjump]; exact hr.2)
  unfold directed at hf ⊢
  cases hi : targets a with
  | none =>
    rw [hi] at htrampoline
    simp only [hi] at hf ⊢
    exact htrampoline rfl hf
  | some k =>
    rw [hi] at htrampoline
    simp only [hi] at hf ⊢
    split
    · rename_i hd
      exact .elided rfl hd
    · rename_i hd
      split
      · rename_i hr
        rw [← hjump]
        refine .patched (Option.filter_eq_some_iff.mpr ⟨rfl, ?_⟩) (by rw [hjump]; exact hr)
        rw [hword]
        exact hr
      · rename_i hr
        rw [if_neg hd, if_neg hr] at hf
        refine htrampoline (Option.filter_eq_none_iff.mpr fun k' hk' => ?_) hf
        cases hk'
        rw [hword]
        exact hr

theorem directForm_long {c : Cond} {index : Option Nat} (hc : f.kind = .condBranch c)
    (hfar : ∀ k, index = some k → fits19 (displacement f.site k) = false)
    (hf : (longDirected e f.site n c a index).fits) :
    DirectForm e f a index n (longDirected e f.site n c a index).patch
      (longDirected e f.site n c a index).tail := by
  obtain ⟨hb, -, hr⟩ := hf
  have hcond : f.cond = c := by
    unfold Fixup.cond
    rw [hc]
  have hword : ∀ k, index = some k → f.branchWord n k = n + 2 := by
    intro k hk
    unfold Fixup.branchWord
    rw [hc]
    exact if_neg (by rw [hfar k hk]; exact Bool.false_ne_true)
  unfold longDirected
  dsimp only
  rw [← hcond]
  cases hnear : nearBranch n index with
  | some disp =>
    obtain ⟨k, hk, rfl, hfits⟩ := nearBranch_eq_some hnear
    refine .longNear (Option.filter_eq_some_iff.mpr ⟨hk, ?_⟩) hr hb hfits
    rw [hword k hk]
    exact hfits
  | none =>
    refine .longExit (Option.filter_eq_none_iff.mpr fun k hk => ?_) hr hb
    rw [hword k hk]
    intro hfits
    refine Option.filter_eq_none_iff.mp hnear (displacement (n + 2) k) ?_ hfits
    rw [hk]
    rfl

theorem directForm_condDirected {c : Cond} (hc : f.kind = .condBranch c)
    (hf : (condDirected e targets f.site n c a).fits) :
    DirectForm e f a (targets a) n (condDirected e targets f.site n c a).patch
      (condDirected e targets f.site n c a).tail := by
  have hjump : ∀ d, f.jump d = .bCond c d := by
    intro d
    unfold Fixup.jump
    rw [hc]
  unfold condDirected at hf ⊢
  cases hi : targets a with
  | none =>
    simp only [hi] at hf ⊢
    split
    · rename_i hr
      rw [← hjump]
      exact .trampoline rfl (by rw [hjump]; exact hr)
    · rename_i hr
      rw [if_neg hr] at hf
      exact directForm_long hc (fun k hk => nomatch hk) hf
  | some k =>
    simp only [hi] at hf ⊢
    split
    · rename_i hd
      exact .elided rfl hd
    · rename_i hd
      rw [if_neg hd] at hf
      split
      · rename_i hr
        have hword : f.branchWord n k = f.site := by
          unfold Fixup.branchWord
          rw [hc]
          exact if_pos hr
        rw [← hjump]
        refine .patched (Option.filter_eq_some_iff.mpr ⟨rfl, ?_⟩) (by rw [hjump]; exact hr)
        rw [hword]
        exact fits26_of_fits19 hr
      · rename_i hr
        rw [if_neg hr] at hf
        refine directForm_long hc (fun k' hk' => ?_) hf
        cases hk'
        exact eq_false_of_ne_true hr

/-- A branch to a known guest address has one of the five forms. -/
theorem directForm_resolved (hg : goal? f = some a) (hf : (resolved e u targets f n).fits) :
    DirectForm e f a (targets a) n (resolved e u targets f n).patch
      (resolved e u targets f n).tail := by
  cases hk : f.kind with
  | branch =>
    cases ht : f.target with
    | address t =>
      simp only [goal?, hk, ht, Option.some.injEq] at hg
      simp only [resolved, hk, ht, hg] at hf ⊢
      exact directForm_directed (fun c hc => by rw [hk] at hc; cases hc) hf
    | _ => simp only [goal?, hk, ht, reduceCtorEq] at hg
  | condBranch c =>
    cases ht : f.target with
    | address t =>
      simp only [goal?, hk, ht, Option.some.injEq] at hg
      simp only [resolved, hk, ht, hg] at hf ⊢
      exact directForm_condDirected hk hf
    | _ => simp only [goal?, hk, ht, reduceCtorEq] at hg
  | indirectBranch =>
    cases ht : f.target with
    | register r =>
      simp only [goal?, hk, ht] at hg
      cases hr : r.isPc with
      | true =>
        simp only [hr, if_true, Option.some.injEq] at hg
        simp only [resolved, hk, ht, hr, if_true, hg] at hf ⊢
        exact directForm_directed (fun c hc => by rw [hk] at hc; cases hc) hf
      | false => simp only [hr, Bool.false_eq_true, if_false, reduceCtorEq] at hg
    | _ => simp only [goal?, hk, ht, reduceCtorEq] at hg
  | _ => simp only [goal?, hk, reduceCtorEq] at hg

end Forms

/-! ### Their meaning -/

section Meaning

variable {e : Setting} {f : Fixup} {a : Word} {index : Option Nat} {n : Nat} {patch : Host.Instr}
  {tail : List Item}

theorem exitsFrom_exitItems_ne_nil (k : Nat) (e : Setting) (a : Word) :
    exitsFrom k (exitItems e a) ≠ [] := by
  rw [exitItems, exitsFrom_append, exitsFrom_ops]
  exact List.cons_ne_nil _ _

theorem DirectForm.reads (h : DirectForm e f a index n patch tail) :
    patch.isCanonical = true ∧ ∀ x ∈ tail, itemReads x = true := by
  have hexit := reads_exitItems e a
  cases h with
  | elided => exact ⟨rfl, fun x hx => nomatch hx⟩
  | patched hi hr => exact ⟨hr, fun x hx => nomatch hx⟩
  | trampoline hi hr => exact ⟨hr, hexit⟩
  | longNear hi hr hb hk =>
    refine ⟨hr, List.forall_mem_cons.mpr ⟨rfl, List.forall_mem_cons.mpr ⟨hb, ?_⟩⟩⟩
    exact List.forall_mem_cons.mpr ⟨hk, fun x hx => nomatch hx⟩
  | longExit hi hr hb =>
    refine ⟨hr, List.forall_mem_append.mpr ⟨?_, hexit⟩⟩
    exact List.forall_mem_cons.mpr ⟨rfl, List.forall_mem_cons.mpr ⟨hb, fun x hx => nomatch hx⟩⟩

theorem exec_jump_taken {s : Host.State} (hc : f.cond.holds s.flags = true) (hs : s.pc = f.site)
    (k : Nat) : (f.jump (displacement f.site k)).exec s = some (s.goto k) := by
  have hjump : s.jump (displacement f.site k) = some (s.goto k) := State.jump_displacement hs
  unfold Fixup.jump
  unfold Fixup.cond at hc
  cases hk : f.kind with
  | condBranch c =>
    rw [hk] at hc
    exact (if_pos hc).trans hjump
  | _ => exact hjump

theorem exec_jump_passed {s : Host.State} (hc : f.cond.holds s.flags = false) (disp : Int) :
    (f.jump disp).exec s = some (s.skip 1) := by
  unfold Fixup.jump
  unfold Fixup.cond at hc
  cases hk : f.kind with
  | condBranch c =>
    rw [hk] at hc
    exact if_neg (by rw [hc]; exact Bool.false_ne_true)
  | _ =>
    rw [hk] at hc
    cases hc

variable {fetch : Nat → Option Host.Instr} {trailer : Option Nat} {finish : Nat} {s : Host.State}

/-- The long form: over the conditional branch control goes back behind the placeholder, through
it to what stands behind. -/
theorem leads_long {rest : List Host.Instr} (hp : fetch f.site = some (.b (displacement f.site n)))
    (hat : Found fetch n
      ([.bCond f.cond 2, .b (displacement (n + 1) (f.site + 1))] ++ rest)) (hs : s.pc = f.site) :
    (f.cond.holds s.flags = false → Leads fetch s (s.goto (f.site + 1))) ∧
      (f.cond.holds s.flags = true → Advances fetch s (s.goto (n + 2))) ∧
      Found fetch (n + 2) rest := by
  obtain ⟨hfront, hrest⟩ := allFrom_append.mp hat
  obtain ⟨hskip, hback⟩ := allFrom_cons.mp hfront
  have hback := allFrom_singleton.mp hback
  have henter : Advances fetch s (s.goto n) := advances_b hp hs
  refine ⟨fun hc => ?_, fun hc => ?_, hrest⟩
  · have hpass : (Host.Instr.bCond f.cond 2).exec (s.goto n) = some (s.goto (n + 1)) :=
      if_neg (by rw [show (s.goto n).flags = s.flags from rfl, hc]; exact Bool.false_ne_true)
    exact (henter.trans (.single hskip hpass)).leads.trans (leads_b hback rfl)
  · have htake : (Host.Instr.bCond f.cond 2).exec (s.goto n) = some (s.goto (n + 2)) :=
      (if_pos hc).trans (State.jump_two (s.goto n))
    exact henter.trans (.single hskip htake)

/-- However a branch is resolved, it means the same. -/
theorem DirectForm.means (h : DirectForm e f a index n patch tail) (hp : fetch f.site = some patch)
    (hat : Found fetch n (closeItems finish n tail))
    (ht : exitsFrom n tail ≠ [] → trailer = some finish) (hs : s.pc = f.site) :
    BranchMeans e fetch trailer f a (f.reached? n index) s := by
  have hfirst : fetch s.pc = some patch := hs ▸ hp
  have hnext : s.skip 1 = s.goto (f.site + 1) := congrArg (fun k => s.goto (k + 1)) hs
  cases h with
  | elided hi hk =>
    rename_i k
    have hnear : f.reached? n index = some k := by
      refine Option.filter_eq_some_iff.mpr ⟨hi, ?_⟩
      have hword : f.branchWord n k = f.site := by
        unfold Fixup.branchWord
        split
        · exact if_pos (by rw [hk]; rfl)
        · rfl
      rw [hword, hk]
      rfl
    have hstep : Advances fetch s (s.goto (f.site + 1)) := hnext ▸ .single hfirst rfl
    refine ⟨fun _ => hstep.leads, fun _ k' hk' => ?_, fun _ hn => ?_⟩
    · rw [hnear] at hk'
      cases hk'
      have hk' : k = f.site + 1 := by
        unfold displacement at hk
        omega
      rw [hk']
      exact hstep
    · rw [hnear] at hn
      cases hn
  | patched hi hr =>
    refine ⟨fun hc => hnext ▸ .single hfirst (exec_jump_passed hc _), fun hc k hk => ?_,
      fun _ hn => ?_⟩
    · rw [hi] at hk
      cases hk
      exact .single hfirst (exec_jump_taken hc hs _)
    · rw [hi] at hn
      cases hn
  | trampoline hi hr =>
    refine ⟨fun hc => hnext ▸ .single hfirst (exec_jump_passed hc _), fun _ k hk => ?_,
      fun hc _ => ?_⟩
    · rw [hi] at hk
      cases hk
    · have henter : Leads fetch s (s.goto n) := .single hfirst (exec_jump_taken hc hs n)
      exact ⟨finish, _, ht (exitsFrom_exitItems_ne_nil n e a), rfl,
        henter.trans (leads_exit hat rfl), departed_leave e a finish s⟩
  | longNear hi hr hb hk =>
    rw [closeItems_ops] at hat
    obtain ⟨hpass, htake, hrest⟩ := leads_long hp hat hs
    refine ⟨hpass, fun hc k hk => ?_, fun _ hn => ?_⟩
    · rw [hi] at hk
      cases hk
      exact (htake hc).trans (leads_b (allFrom_singleton.mp hrest) rfl)
    · rw [hi] at hn
      cases hn
  | longExit hi hr hb =>
    rw [closeItems_append, closeItems_ops] at hat
    obtain ⟨hpass, htake, hrest⟩ := leads_long hp hat hs
    refine ⟨hpass, fun _ k hk => ?_, fun hc _ => ?_⟩
    · rw [hi] at hk
      cases hk
    · refine ⟨finish, _, ht ?_, rfl, (htake hc).leads.trans (leads_exit hrest rfl),
        departed_leave e a finish s⟩
      rw [exitsFrom_append, exitsFrom_ops]
      exact exitsFrom_exitItems_ne_nil _ e a

end Meaning

end Dynarec.Resolve

namespace Dynarec

open Dynarec.Emit Dynarec.Compile Dynarec.Resolve Dynarec.Host

/-- From the emission `s` of the body of a unit to its final code `c`, all ways to resolve a direct
branch mean the same. -/
structure BranchesAgree (e : Setting) (t : Guest.Trace) (c : Compiled) (s : Emission) : Prop where
  body : (do reservePrologue; Compile.body lower t.blocks.toList : Emit Unit) e {} = .ok () s
  /-- Every block starts in the body, -/
  starts : ∀ (a : Word) k, s.targets[a]? = some k → e.config.prologueWords ≤ k ∧ k < s.code.size
  /-- where each word stays at its place, whether placeholders and exits get other words or not. -/
  kept : ∀ k, e.config.prologueWords ≤ k → k < s.code.size → (∀ f ∈ s.fixups.toList, f.site ≠ k) →
    (∀ x ∈ s.exits.toList, x.site ≠ k) → c.code[k]? = s.code[k]?
  /-- When a fixup is resolved, the block starts are those of `s`, no branch to the next word is the
  last word, and the branch means what its condition and its target say. -/
  means : ∀ pre f post, s.fixups.toList = pre ++ f :: post →
    ∃ tally s', Resolve.each {} pre e { s with fixups := #[] } = .ok tally s' ∧
      s'.targets = s.targets ∧ s.code.size ≤ s'.code.size ∧
      ∀ a, goal? f = some a →
        (∀ k, s.targets[a]? = some k → displacement f.site k = 1 → f.site + 1 ≠ s'.code.size) ∧
        ∀ m : Host.State, m.pc = f.site →
          BranchMeans e (instrAt? c.code) c.stats.trailer f a
            (f.reached? s'.code.size s.targets[a]?) m

theorem branchesAgree {config : Config} {dispatch : DispatchTable} {t : Guest.Trace} {c : Compiled}
    (h : compile lower config dispatch t = .ok c) :
    ∃ s, BranchesAgree { config, dispatch, shape := .ofTrace t } t c s := by
  obtain ⟨p, s, h⟩ := compile_ok h
  have hroom : p.room = config.prologueWords := congrArg (·.config.prologueWords) h.setting
  refine ⟨s, h.setting ▸ h.body, ?_, ?_, fun pre f post hf => ?_⟩
  · rw [← hroom]
    exact fun a k => h.targets_bounds
  · rw [← hroom]
    exact fun k => h.kept
  · obtain ⟨tally, s', hrun, htargets, hsize⟩ := h.each_run hf
    refine ⟨tally, s', h.setting ▸ hrun, htargets, hsize, fun a hg => ⟨fun k hk hd => ?_,
      fun m hm => ?_⟩⟩
    · have hlt := (h.targets_bounds hk).2
      unfold displacement at hd
      omega
    · have hset := h.settled hf hrun
      have hform := directForm_resolved hg hset.fits
      obtain ⟨hpatch, htail⟩ := hform.reads
      have htarget : p.targets a = s.targets[a]? := (congrFun h.emitted.targets a).symm
      rw [htarget] at hform
      have hat := h.found hset.patch fun i hi => by rw [List.mem_singleton.mp hi]; exact hpatch
      rw [← h.setting]
      refine hform.means (allFrom_singleton.mp hat) (h.found_items hset.tail htail hset.exits) ?_ hm
      intro hne
      refine h.trailer fun hnil => hne ?_
      exact List.eq_nil_of_subset_nil (hnil ▸ hset.exits)

/-- The image of one branch to itself, at 4096. -/
def loopImage : Guest.Image := ⟨0x1000, #[0xFE, 0xFF, 0xFF, 0xEA]⟩

/-- Its trace: one block, which ends a loop. -/
def loopTrace : Guest.Trace :=
  .ofBlocks #[{ start := 0x1000, isLoopEnd := true, instrs := #[Guest.decode 0xEAFFFFFE 0x1000] }]

theorem compile_loopTrace : ∃ c, compile lower {} DispatchTable.empty loopTrace = .ok c := by
  have htrace : Guest.Trace.collect {} loopImage 0x1000 = .ok loopTrace :=
    eq_ok_of_toOption (by decide +kernel)
  exact compile_of_aligned DispatchTable.empty_ne (by decide) (by decide) (by decide) (by decide)
    htrace

theorem fixups_loopTrace {c : Compiled} {p : Plan} {s : Emission}
    (h : Built {} DispatchTable.empty loopTrace c p s) :
    s.fixups.toList = [⟨.syncPoint, .none, 68, 0x1000, 0x1004, 0x1008⟩,
      ⟨.branch, .address 0x1000, 69, 0x1000, 0x1004, 0x1008⟩] := by
  rw [h.emitted.fixups, Plan.room, Plan.body, h.setting, h.blocks]
  rfl

/-- The branch of a loop that is one instruction long agrees with its target. -/
theorem branchesAgree_loop : ∃ c s, compile lower {} DispatchTable.empty loopTrace = .ok c ∧
    BranchesAgree { shape := .ofTrace loopTrace } loopTrace c s ∧
    ∃ f ∈ s.fixups.toList, goal? f = some 0x1000 := by
  obtain ⟨c, hc⟩ := compile_loopTrace
  obtain ⟨s, hs⟩ := branchesAgree hc
  obtain ⟨p, s', hb⟩ := compile_ok hc
  have hbody := hs.body.symm.trans (hb.setting ▸ hb.body)
  cases hbody
  refine ⟨c, s, hc, hs, ⟨.branch, .address 0x1000, 69, 0x1000, 0x1004, 0x1008⟩, ?_, rfl⟩
  rw [fixups_loopTrace hb]
  exact List.mem_cons_of_mem _ List.mem_cons_self

end Dynarec
