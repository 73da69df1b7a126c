import Dynarec.Proofs.Run.Branch
import Dynarec.Proofs.Simulation.Frame

/-! # Guest instructions of running code

Where control goes on when one plain instruction of a body has been run: behind it, at a block of
the unit, or at the trailer. In each case the host state then holds the next guest state. -/

namespace Dynarec.Compile

open Dynarec.Emit Dynarec.Lower Dynarec.Resolve Dynarec.Host

/-! ### Words of the body -/

/-- Items without placeholders stay as they are. -/
theorem itemsOf_pieces_of_fixups {e : Setting} {u : RegisterUse} {targets : Word → Option Nat}
    {k n : Nat} {xs : List Item} (h : fixupsFrom k xs = []) :
    itemsOf (pieces e u targets k n xs) = xs := by
  refine List.ext_getElem? fun j => getElem?_itemsOf_pieces ?_
  rw [h]
  exact fun f hf => absurd hf List.not_mem_nil

theorem exits_body {p : Plan} {ys xs zs : List Item} (hbody : p.body = ys ++ (xs ++ zs)) :
    exitsFrom (p.room + ys.length) xs ⊆ p.exits := by
  intro y hy
  rw [Plan.exits, Plan.main, exitsFrom_append, Plan.pieces, exitsFrom_itemsOf_pieces, hbody,
    exitsFrom_append, exitsFrom_append]
  exact List.mem_append_left _ (List.mem_append_right _ (List.mem_append_left _ hy))

theorem exits_ne_nil_of_subset {p : Plan} {xs : List Exit} (hx : xs ≠ []) (hsub : xs ⊆ p.exits) :
    p.exits ≠ [] := by
  intro hnil
  exact hx (List.eq_nil_of_subset_nil (hnil ▸ hsub))

namespace Built

variable {config : Config} {dispatch : DispatchTable} {t : Guest.Trace} {c : Compiled} {p : Plan}
  {e : Emission} (h : Built config dispatch t c p e)

include h

/-- Items of the body without placeholders are found where they are counted. -/
theorem found_body {ys xs zs : List Item} (hbody : p.body = ys ++ (xs ++ zs))
    (hx : fixupsFrom (p.room + ys.length) xs = []) (hr : ∀ x ∈ xs, itemReads x = true) :
    Found (instrAt? c.code) (p.room + ys.length)
      (closeItems p.finish (p.room + ys.length) xs) := by
  have hat := Plan.stands_items h.fits hbody
  rw [Plan.piecesAt, itemsOf_pieces_of_fixups hx] at hat
  exact h.found_items hat hr (exits_body hbody)

theorem found_ops {ys zs : List Item} {is : List Host.Instr} (hbody : p.body = ys ++ (ops is ++ zs))
    (hc : ∀ i ∈ is, i.isCanonical = true) : Found (instrAt? c.code) (p.room + ys.length) is := by
  have hat := h.found_body hbody (fixupsFrom_ops ..) fun x hx => by
    obtain ⟨i, hi, rfl⟩ := List.mem_map.mp hx
    exact hc i hi
  rwa [closeItems_ops] at hat

/-- Straight code of the body is run through. -/
theorem leads_ops {ys zs : List Item} {is : List Host.Instr} (hbody : p.body = ys ++ (ops is ++ zs))
    (hst : Straight is) {s s' : Host.State} (hs : s.pc = p.room + ys.length)
    (hexec : execAll is s = some s') :
    Leads (instrAt? c.code) s s' ∧ s'.pc = p.room + (ys ++ ops is).length := by
  have hat := h.found_ops hbody (canonical_of_straight hst)
  rw [← hs] at hat
  obtain ⟨hrun, hpc⟩ := leads_of_execAll hat hst hexec
  refine ⟨hrun, ?_⟩
  rw [hpc, hs, List.length_append, length_ops, Nat.add_assoc]

/-- A settled branch to a known guest address means what its condition and its target say. -/
theorem branch_means {f : Fixup} {n : Nat} (hset : p.Settled f n) {a : Word}
    (hg : goal? f = some a) {s : Host.State} (hs : s.pc = f.site) :
    BranchMeans p.setting (instrAt? c.code) c.stats.trailer f a (f.reached? n (p.targets a)) s := by
  have hform := directForm_resolved hg hset.fits
  obtain ⟨hpatch, htail⟩ := hform.reads
  have hat := h.found hset.patch fun i hi => by rw [List.mem_singleton.mp hi]; exact hpatch
  exact hform.means (allFrom_singleton.mp hat) (h.found_items hset.tail htail hset.exits)
    (fun hne => h.trailer (exits_ne_nil_of_subset hne hset.exits)) hs

/-- A unit has a trailer only if it has an exit, and then behind all other code. -/
theorem of_trailer {k : Nat} (hk : c.stats.trailer = some k) : k = p.finish ∧ p.exits ≠ [] := by
  have htrailer : c.stats.trailer = if p.exits = [] then none else some p.finish :=
    congrArg Stats.trailer h.stats
  by_cases hx : p.exits = []
  · rw [htrailer, if_pos hx] at hk
    cases hk
  · rw [htrailer, if_neg hx] at hk
    exact ⟨(Option.some.inj hk).symm, hx⟩

/-- A placeholder that leaves the unit behind straight code comes to the trailer. -/
theorem leads_leaving {f : Fixup} {n : Nat} (hset : p.Settled f n) {is : List Host.Instr}
    (hst : Straight is)
    (hr : resolved p.setting p.use p.targets f n =
      leaving f.site n (ops is ++ leaveItems p.setting))
    {s s' : Host.State} (hs : s.pc = f.site) (hexec : execAll is (s.goto n) = some s') :
    Leads (instrAt? c.code) s
      ((s'.set .dispatch p.setting.config.helpers.fallbackDispatcher).goto p.finish) := by
  obtain ⟨hfits, hpatch, htail, hexits, -⟩ := hset
  rw [hr] at hfits hpatch htail hexits
  have hb : Found (instrAt? c.code) f.site [.b (displacement f.site n)] :=
    h.found hpatch fun i hi => by rw [List.mem_singleton.mp hi]; exact hfits
  have hat : Found (instrAt? c.code) n (closeItems p.finish n (ops is ++ leaveItems p.setting)) :=
    h.found_items htail
      (List.forall_mem_append.mpr ⟨itemReads_ops hst, reads_leaveItems p.setting⟩) hexits
  rw [closeItems_append, closeItems_ops, length_ops] at hat
  obtain ⟨his, hleave⟩ := allFrom_append.mp hat
  obtain ⟨hrun, hpc⟩ := leads_of_execAll (s := s.goto n) his hst hexec
  exact (leads_b (allFrom_singleton.mp hb) hs).trans (hrun.trans (leads_leaveItems hleave hpc))

end Built

end Dynarec.Compile

namespace Dynarec.Simulation

open Dynarec.Emit Dynarec.Host Dynarec.Lower Dynarec.Compile Dynarec.Resolve

/-! ### Leaving -/

section Leaving

variable {u : RegisterUse} {record table : DWord} {base s t : Host.State} {σ : Guest.State}
  {e : Setting} {a : Word}

/-- Reads below the address where the guest goes on are those before it was written. -/
theorem read_departed (hd : Departed e a s t) (hs : s.x .context = record) {k n : Nat}
    (hk : k + n ≤ Record.dispatchAddress) :
    t.mem.read (record + BitVec.ofNat 64 k) n = s.mem.read (record + BitVec.ofNat 64 k) n := by
  have hsize : Record.dispatchAddress + 4 ≤ dwordCount := Nat.le_of_ble_eq_true rfl
  refine Mem.read_congr fun j hj => hd.mem _ ?_
  rw [hs]
  exact Mem.outside_of_offsets record (.inr hk) hsize (by omega) j hj

/-- Leaving for an address keeps the guest state. -/
theorem sim_departed (h : Sim u record table base s σ) (hd : Departed e a s t) :
    Sim u record table base t σ ∧ Aimed record t a := by
  have hx : ∀ q : Host.Gpr, q.isSpare = false → t.x q = s.x q := fun q hq =>
    hd.x q (ne_of_isSpare rfl hq) (ne_of_isSpare rfl hq)
  have hhigh : ∀ q : Host.Gpr, 19 ≤ q.index → t.x q = s.x q := fun q hq =>
    hx q (decide_eq_false fun hs => by omega)
  have hread : ∀ {k n : Nat}, k + n ≤ Record.nzcv + 4 →
      t.mem.read (record + BitVec.ofNat 64 k) n = s.mem.read (record + BitVec.ofNat 64 k) n :=
    fun hk => read_departed hd h.context (Nat.le_trans hk (Nat.le_of_ble_eq_true rfl))
  have hdregs : Record.dregs ≤ Record.nzcv + 4 := Nat.le_of_ble_eq_true rfl
  have hnext : Record.dispatchAddress + 4 ≤ Record.size := Nat.le_of_ble_eq_true rfl
  refine ⟨⟨?_, ?_, fun r hr hu => ?_, fun r hr hu => ?_, ?_, fun d hd => ?_, ?_, fun hu => ?_,
    fun q hq => ?_, fun q hq hu => ?_, ?_, fun b hb => ?_⟩, ?_⟩
  · rw [hx _ rfl]
    exact h.context
  · rw [hx _ rfl]
    exact h.pageTable
  · rw [hx _ (isSpare_pinned hr)]
    exact h.gprs r hr hu
  · exact (hread (Nat.le_trans (Record.gpr_le r) hdregs)).trans (h.gprsLeft r hr hu)
  · rw [hd.v]
    exact h.dregs
  · exact (hread (Nat.le_trans (Record.dreg_bounds d).2 (Nat.le_add_right _ 4))).trans
      (h.dregsLeft d hd)
  · rw [hd.flags]
    exact h.flags
  · exact (congrArg Nzcv.ofWord (hread (Nat.le_refl _))).trans (h.flagsLeft hu)
  · rw [hhigh q (by omega)]
    exact h.untouched.high q hq
  · rw [hhigh q hq]
    exact h.untouched.owed q hq hu
  · rw [hd.v]
    exact h.untouched.vregs
  · refine (hd.mem b ?_).trans (h.untouched.mem b hb)
    rw [h.context]
    exact hb.part hnext
  · rw [Aimed, ← h.context]
    exact hd.next

end Leaving

/-! ### One instruction -/

/-- Where control is when an instruction has been run, of which the next stands at `k`, and which
guest state the host state then holds. -/
inductive Passed (p : Plan) (fetch : Nat → Option Host.Instr) (record table : DWord)
    (base : Host.State) (k : Nat) (i : Guest.Instr) (s : Host.State) (σ : Guest.State) : Prop
  | next {s' : Host.State} {σ' : Guest.State} (hrun : Leads fetch s s') (hpc : s'.pc = k)
    (hstep : i.step σ = some σ') (hsim : Sim p.use record table base s' σ')
    (haddress : σ'.pc = i.nextPc) (hflow : i.endsFlow = false)
  | block {s' : Host.State} {σ' : Guest.State} (hrun : Advances fetch s s')
    (hpc : p.targets σ'.pc = some s'.pc) (hstep : i.step σ = some σ')
    (hsim : Sim p.use record table base s' σ')
  | trailer {s' : Host.State} {σ' : Guest.State} (hrun : Leads fetch s s') (hpc : s'.pc = p.finish)
    (hexits : p.exits ≠ []) (hstep : i.step σ = some σ')
    (hsim : Sim p.use record table base s' σ') (haim : Aimed record s' σ'.pc)

theorem Passed.after {p : Plan} {fetch : Nat → Option Host.Instr} {record table : DWord}
    {base s s' : Host.State} {k : Nat} {i : Guest.Instr} {σ : Guest.State} (hrun : Leads fetch s s')
    (h : Passed p fetch record table base k i s' σ) : Passed p fetch record table base k i s σ := by
  cases h with
  | next hrun' hpc hstep hsim haddress hflow =>
    exact .next (hrun.trans hrun') hpc hstep hsim haddress hflow
  | block hrun' hpc hstep hsim => exact .block (hrun'.after hrun) hpc hstep hsim
  | trailer hrun' hpc hexits hstep hsim haim =>
    exact .trailer (hrun.trans hrun') hpc hexits hstep hsim haim

theorem step_of_holds {i : Guest.Instr} {σ : Guest.State} (h : i.cond.holds σ.flags = true) :
    i.step σ = i.effect σ := if_pos h

theorem step_of_not {i : Guest.Instr} {σ : Guest.State} (hi : i.Regular)
    (h : i.cond.holds σ.flags = false) : i.step σ = some (σ.goto i.nextPc) := by
  rw [hi.nextPc]
  exact if_neg (by rw [h]; exact Bool.false_ne_true)

section Instr

variable {config : Config} {dispatch : DispatchTable} {tr : Guest.Trace} {c : Compiled} {p : Plan}
  {em : Emission} {record table : DWord} {base s s' : Host.State} {σ : Guest.State}
  {i : Guest.Instr} {ys zs : List Item}

variable (h : Built config dispatch tr c p em)

include h

theorem passed_of_means {f : Fixup} {a : Word} {n : Nat} (hsim : Sim p.use record table base s σ)
    (hm : BranchMeans p.setting (instrAt? c.code) c.stats.trailer f a
      (f.reached? n (p.targets a)) s)
    (htaken : f.cond.holds s.flags = true → i.step σ = some (σ.goto a))
    (hpassed : f.cond.holds s.flags = false →
      i.step σ = some (σ.goto i.nextPc) ∧ i.endsFlow = false) :
    Passed p (instrAt? c.code) record table base (f.site + 1) i s σ := by
  cases hc : f.cond.holds s.flags with
  | false =>
    obtain ⟨hstep, hflow⟩ := hpassed hc
    exact .next (hm.passed hc) rfl hstep ((hsim.goto _).atPc _) rfl hflow
  | true =>
    cases hn : f.reached? n (p.targets a) with
    | some k =>
      have hk : p.targets a = some k := (Option.filter_eq_some_iff.mp hn).1
      exact .block (hm.taken hc k hn) hk (htaken hc) ((hsim.goto a).atPc k)
    | none =>
      obtain ⟨k, t, hk, ht, hrun, hd⟩ := hm.left hc hn
      obtain ⟨hsim, haim⟩ := sim_departed hsim hd
      obtain ⟨rfl, hexits⟩ := h.of_trailer hk
      exact .trailer hrun ht hexits (htaken hc) (hsim.goto a) haim

/-- A placeholder that leaves for the address that straight code has written. -/
theorem passed_leaving {f : Fixup} {n k : Nat} (hset : p.Settled f n) {is : List Host.Instr}
    (hst : Straight is)
    (hr : resolved p.setting p.use p.targets f n =
      leaving f.site n (ops is ++ leaveItems p.setting))
    {t : Host.State} (hs : s.pc = f.site) (hexec : execAll is (s.goto n) = some t) {a : Word}
    (hsim : Sim p.use record table base t σ) (haim : Aimed record t a)
    (hstep : i.step σ = some (σ.goto a)) :
    Passed p (instrAt? c.code) record table base k i s σ := by
  let b := p.setting.config.helpers.fallbackDispatcher
  have hexits : p.exits ≠ [] := by
    refine exits_ne_nil_of_subset ?_ hset.exits
    rw [hr, leaving, exitsFrom_append, exitsFrom_ops]
    exact exits_leaveItems p.setting _
  refine .trailer (h.leads_leaving hset hst hr hs hexec) rfl hexits hstep ?_ ?_
  · exact ((hsim.goto a).setSpare (x := .dispatch) rfl b).atPc p.finish
  · show (t.set .dispatch b).mem.word _ = a
    rw [State.mem_set]
    exact haim

section Body

variable (hbody : p.body = ys ++ (instrItems p.setting.config i ++ zs))
  (hs : s.pc = p.room + ys.length)

include hbody hs

/-- An instruction without a placeholder. -/
theorem passed_of_done {is : List Host.Instr}
    (hitems : instrItems p.setting.config i = ops is ++ holeItems (currentOf i) i)
    (hhole : hole? (currentOf i) i = none) (hexec : execAll is s = some s') {σ' : Guest.State}
    (hstep : i.step σ = some σ') (hsim : Sim p.use record table base s' σ')
    (haddress : σ'.pc = i.nextPc) (hflow : i.endsFlow = false) :
    Passed p (instrAt? c.code) record table base
      (p.room + (ys ++ instrItems p.setting.config i).length) i s σ := by
  have hst := straight_of_items hitems
  have hops : instrItems p.setting.config i = ops is := by
    rw [hitems, holeItems, hhole]
    exact List.append_nil _
  rw [hops] at hbody ⊢
  obtain ⟨hrun, hpc⟩ := h.leads_ops hbody hst hs hexec
  exact .next hrun hpc hstep hsim haddress hflow

/-- An instruction that writes the address where the guest goes on, and leaves for it. -/
theorem passed_of_departing {is : List Host.Instr}
    (hitems : instrItems p.setting.config i = ops is ++ holeItems (currentOf i) i)
    (hhole : hole? (currentOf i) i = some (.indirectBranch, .none))
    (hexec : execAll is s = some s') (hd : Departing p.use record table base i σ s')
    (hcond : i.cond.holds σ.flags = true) (k : Nat) :
    Passed p (instrAt? c.code) record table base k i s σ := by
  obtain ⟨a, heffect, hsim, haim⟩ := hd
  have hst := straight_of_items hitems
  have hbody' : p.body = ys ++ (ops is ++ (.hole .indirectBranch .none (currentOf i) :: zs)) := by
    rw [hbody, hitems, holeItems, hhole, List.append_assoc]
    rfl
  obtain ⟨hrun, hpc⟩ := h.leads_ops hbody' hst hs hexec
  rw [← List.append_assoc] at hbody'
  have hset := Plan.settled h.fits hbody' rfl
  refine Passed.after hrun ?_
  exact passed_leaving h hset straight_nil rfl hpc rfl (hsim.atPc _) haim
    ((step_of_holds hcond).trans heffect)

/-- An instruction that leaves for the address in a register. -/
theorem passed_indirect {rm : Guest.Gpr}
    (hitems : instrItems p.setting.config i =
      [.hole .indirectBranch (.register rm) (currentOf i)])
    (hi : i.Regular) (hu : rm.isPc = false → p.use.Holds rm)
    (hsim : Sim p.use record table base s σ)
    (hstep : i.step σ = some (σ.goto (i.readGpr σ rm))) :
    Passed p (instrAt? c.code) record table base
      (p.room + (ys ++ instrItems p.setting.config i).length) i s σ := by
  rw [hitems] at hbody ⊢
  have hset := Plan.settled h.fits hbody rfl
  cases hr : rm.isPc with
  | true =>
    have hread : i.readGpr σ rm = i.pcReadValue := by
      rw [Guest.Instr.readGpr, hr, hi.pcReadValue]
      rfl
    rw [hread] at hstep
    have hm := h.branch_means hset (if_pos hr) hs
    rw [List.length_append, ← Nat.add_assoc]
    exact passed_of_means h hsim hm (fun _ => hstep) fun hc => (by cases hc)
  | false =>
    have hread : i.readGpr σ rm = σ.r rm := by
      rw [Guest.Instr.readGpr, hr]
      rfl
    rw [hread] at hstep
    obtain ⟨t, ht, hsim', haim⟩ := storeAddress_run (hsim.atPc (p.tailAt ys)) (pinned rm)
    have hlow : State.low { s with pc := p.tailAt ys } .w (pinned rm) = σ.r rm :=
      hsim.low_pinned hr (hu hr)
    rw [hlow] at haim
    have hst : Straight [.str .w (pinned rm) .context Record.dispatchAddress] := rfl
    refine passed_leaving h hset hst ?_ hs (execAll_singleton ht) hsim' haim hstep
    simp only [resolved, hr]
    rfl

end Body

/-! ### All kinds -/

section Kinds

variable (hbody : p.body = ys ++ (instrItems p.setting.config i ++ zs))
  (hs : s.pc = p.room + ys.length) (hsim : Sim p.use record table base s σ) (hi : i.Regular)
  (hu : InUse p.use i)

include hbody hs hsim hi hu

/-- A data instruction that delivers what it writes. -/
theorem passed_data {w : Guest.Written} (hjump : isRegisterJump i = false)
    (hw : i.written? σ = some w)
    (hcond : i.absorbsCondition = false → i.cond.holds σ.flags = true) :
    Passed p (instrAt? c.code) record table base
      (p.room + (ys ++ instrItems p.setting.config i).length) i s σ := by
  have hhole := hole_of_written (currentOf i) hjump hw
  have hleaves := leaves_of_written hw
  cases hc : i.cond.holds σ.flags with
  | true =>
    obtain ⟨is, s', hitems, hexec, hdone, hdeparting⟩ :=
      data_run p.setting.config hsim hi hu hjump hw hc
    cases hpc : w.writesPc with
    | false =>
      rw [hpc] at hhole hleaves
      obtain ⟨σ', heffect, hsim', haddress⟩ := hdone hpc
      refine passed_of_done h hbody hs hitems hhole hexec ((step_of_holds hc).trans heffect) hsim'
        haddress ?_
      rw [Guest.Instr.endsFlow, Guest.Instr.endsFlowUnder, hleaves, Bool.and_false]
    | true =>
      rw [hpc] at hhole
      exact passed_of_departing h hbody hs hitems hhole hexec (hdeparting hpc) hc _
  | false =>
    have habs : i.absorbsCondition = true := by
      cases ha : i.absorbsCondition with
      | true => rfl
      | false => exact absurd (hcond ha) (ne_true_of_eq_false hc)
    obtain ⟨is, s', hitems, hexec, hsim'⟩ :=
      kept_run p.setting.config hsim hi hu hjump hw habs hc
    obtain ⟨rd, value, hrd, rfl⟩ := written_of_absorbs habs hw
    have hpc : Guest.Written.writesPc { gpr := some (rd, value) } = false := hrd
    rw [hpc] at hhole hleaves
    refine passed_of_done h hbody hs hitems hhole hexec (step_of_not hi hc) (hsim'.goto _) rfl ?_
    rw [Guest.Instr.endsFlow, Guest.Instr.endsFlowUnder, hleaves, Bool.and_false]

/-- A move to the program counter that leaves for a register. -/
theorem passed_jump (hjump : isRegisterJump i = true)
    (hcond : i.absorbsCondition = false → i.cond.holds σ.flags = true) :
    Passed p (instrAt? c.code) record table base
      (p.room + (ys ++ instrItems p.setting.config i).length) i s σ := by
  obtain ⟨rd, rm, hk, hrd, hset⟩ := isRegisterJump_iff.mp hjump
  have hitems : instrItems p.setting.config i =
      [.hole .indirectBranch (.register rm) (currentOf i)] := by
    simp only [instrItems, items, hk, moveItems, hrd, hset, Bool.not_false, Bool.and_self, if_true]
  have hcov := hu.covers
  rw [hk] at hcov
  have hcond := hcond (by simp only [Guest.Instr.absorbsCondition, hk, hrd, Bool.not_true,
    Bool.and_false, Bool.false_and])
  refine passed_indirect h hbody hs hitems hi
    (hcov.gprs rm (List.mem_cons_of_mem _ List.mem_cons_self)) hsim
    ((step_of_holds hcond).trans ?_)
  simp only [Guest.Instr.effect, hk, hset, Guest.State.put, hrd]
  rfl

theorem passed_written {w : Guest.Written} (hw : i.written? σ = some w)
    (hcond : i.absorbsCondition = false → i.cond.holds σ.flags = true) :
    Passed p (instrAt? c.code) record table base
      (p.room + (ys ++ instrItems p.setting.config i).length) i s σ := by
  cases hjump : isRegisterJump i with
  | false => exact passed_data h hbody hs hsim hi hu hjump hw hcond
  | true => exact passed_jump h hbody hs hsim hi hu hjump hcond

theorem passed_branch {t : Word} (hk : i.kind = .branch t) :
    Passed p (instrAt? c.code) record table base
      (p.room + (ys ++ instrItems p.setting.config i).length) i s σ := by
  let kind : FixupKind := if i.cond.isAlways then .branch else .condBranch i.cond
  have hitems : instrItems p.setting.config i = [.hole kind (.address t) (currentOf i)] := by
    rw [instrItems, items, hk]
    rfl
  rw [hitems] at hbody ⊢
  have hset := Plan.settled h.fits hbody rfl
  let f : Fixup := ⟨kind, .address t, p.room + ys.length, i.address, i.nextPc, i.pcReadValue⟩
  have hg : goal? f = some t := by
    by_cases hal : i.cond.isAlways = true
    · simp only [goal?, f, kind, hal, if_true]
    · simp only [goal?, f, kind, hal, if_false, Bool.false_eq_true]
  have hholds : f.cond.holds s.flags = i.cond.holds σ.flags := by
    simp only [Fixup.cond, f, kind]
    by_cases hal : i.cond.isAlways = true
    · rw [if_pos hal, (Cond.isAlways_iff _).mp hal]
      rfl
    · rw [if_neg hal, hsim.flags (hu.tested fun hc => hal (by rw [hc]; rfl))]
  have hm := h.branch_means hset hg hs
  rw [List.length_append, ← Nat.add_assoc]
  refine passed_of_means h hsim hm (fun hc => ?_) fun hc => ?_
  · rw [step_of_holds (hholds ▸ hc), Guest.Instr.effect, hk]
  · have hc : i.cond.holds σ.flags = false := hholds ▸ hc
    refine ⟨step_of_not hi hc, ?_⟩
    have hal : i.cond.isAlways = false := by
      refine eq_false_of_ne_true fun hal => ?_
      rw [(Cond.isAlways_iff _).mp hal] at hc
      cases hc
    rw [Guest.Instr.endsFlow, Guest.Instr.endsFlowUnder, hal, Bool.false_and]

end Kinds

/-- Control passes on from a plain instruction that takes effect, or that has its condition in
itself. -/
theorem instr_passed (hbody : p.body = ys ++ (instrItems p.setting.config i ++ zs))
    (hs : s.pc = p.room + ys.length) (hsim : Sim p.use record table base s σ) (hi : i.Regular)
    (hu : InUse p.use i) (hplain : i.kind.isPlain = true)
    (hcond : i.absorbsCondition = false → i.cond.holds σ.flags = true) :
    Passed p (instrAt? c.code) record table base
      (p.room + (ys ++ instrItems p.setting.config i).length) i s σ := by
  cases hk : i.kind with
  | alu | move | compare | vmove =>
    obtain ⟨w, hw⟩ := Guest.Instr.exists_written (by rw [hk]; rfl) σ
    exact passed_written h hbody hs hsim hi hu hw hcond
  | branch t => exact passed_branch h hbody hs hsim hi hu hk
  | branchExchange rm =>
    have hcond := hcond (by simp only [Guest.Instr.absorbsCondition, hk])
    have hitems : instrItems p.setting.config i =
        [.hole .indirectBranch (.register rm) (currentOf i)] := by
      rw [instrItems, items, hk]
    have hcov := hu.covers
    rw [hk] at hcov
    refine passed_indirect h hbody hs hitems hi (hcov.gprs rm List.mem_cons_self) hsim
      ((step_of_holds hcond).trans ?_)
    rw [Guest.Instr.effect, hk]
  | nop =>
    have hhole : hole? (currentOf i) i = none := by simp only [hole?, hk]
    have hcond := hcond (by simp only [Guest.Instr.absorbsCondition, hk])
    have hitems : instrItems p.setting.config i = ops [] ++ holeItems (currentOf i) i := by
      rw [holeItems, hhole, instrItems, items, hk]
      rfl
    have hstep : i.step σ = some (σ.goto i.nextPc) := by
      rw [step_of_holds hcond, Guest.Instr.effect, hk, hi.nextPc]
    refine passed_of_done h hbody hs hitems hhole rfl hstep (hsim.goto _) rfl ?_
    · simp only [Guest.Instr.endsFlow, Guest.Instr.endsFlowUnder, hk, Guest.Kind.leaves,
        Guest.Kind.writesPc, Bool.and_false]
  | _ =>
    rw [hk] at hplain
    cases hplain

end Instr

end Dynarec.Simulation
