/-
What the loop of `cpu_thread` tells of its own speed: the instructions that it counts, and
those that it has carried out.
-/
import CRiscV.Core.Control
import CRiscV.Refinement.Program

namespace CRiscV

open Isa (User)
open Transition (Run)

/-! ## The meter -/

/-- The end of a turn of the loop, with `lastc`: the instructions since the last report, as the
loop counts them, if it makes one.  The time between the reports, by which it divides them, is
left out. -/
def mipsReport (lastc cycle : BitVec 64) : Option (BitVec 64) × BitVec 64 :=
  if cycle % 100000000 = 0 then
    let cycles := cycle / 5
    (some (cycles - lastc), cycles)
  else (none, lastc)

/-- The loop of `cpu_thread` with its `lastc`. -/
structure Metered where
  turn : Turn
  lastc : BitVec 64

/-- A turn that ends the loop leaves it in front of the report. -/
def MeteredStep (x : Metered) (l : Host × Option (BitVec 64)) (y : Metered) : Prop :=
  ThreadStep emulatorTurn x.turn l.1 y.turn ∧
    (l.2, y.lastc) =
      if y.turn.running = true then mipsReport x.lastc y.turn.machine.core.cycle
      else (none, x.lastc)

section Count

variable {m m' : Machine} {s t t' : Turn} {host : Host} {hosts : List Host} {residue : BitVec 8}

theorem coreCycle_counts (h : coreCycle residue m = .ok m') :
    m'.core.cycle = m.core.cycle + 1 := by
  cases coreCycle_cases h with
  | fetched _ hfetched => rw [hfetched.core]
  | decoded _ hout | executed _ hout | accessed _ hout =>
      cases hout with
      | done | trapped => rfl
  | written | entered | exiting | resumed => rfl

theorem ThreadStep.counts (h : ThreadStep emulatorTurn t host t') :
    t'.machine.core.cycle = t.machine.core.cycle + 1 := by
  obtain ⟨m, hcycle, hhandler⟩ := h.surrounded
  have hcount : m.core.cycle = t.machine.core.cycle + 1 := coreCycle_counts hcycle
  rw [← hcount]
  by_cases hhandle : m.core.state = .trap ∧ m.core.trapState = .handle
  · rw [if_pos hhandle] at hhandler
    obtain ⟨csr, hsaves⟩ := hhandler
    rw [hsaves]
  · rw [if_neg hhandle] at hhandler
    rw [hhandler]

/-- The counter counts the turns. -/
theorem cycle_run (h : Run (ThreadStep emulatorTurn) s hosts t) :
    t.machine.core.cycle = s.machine.core.cycle + BitVec.ofNat 64 hosts.length := by
  induction h with
  | nil => exact (BitVec.add_zero _).symm
  | snoc _ hstep ih =>
      rw [hstep.counts, ih, BitVec.add_assoc, List.length_append, BitVec.ofNat_add]
      rfl

end Count

/-! ## The reports -/

/-- The counter and the reports behind `n` turns, the last of which has not ended the loop. -/
structure Metered.Shows (y : Metered) (n : Nat) (reports : List (BitVec 64)) : Prop where
  cycle : y.turn.machine.core.cycle = BitVec.ofNat 64 n
  lastc : y.lastc = BitVec.ofNat 64 (20000000 * (n / 100000000))
  reports : reports = List.replicate (n / 100000000) 20000000

section Reports

variable {x y z : Metered} {n : Nat} {reports : List (BitVec 64)} {l : Host × Option (BitVec 64)}
  {log : List (Host × Option (BitVec 64))}

theorem mipsReport_due {k : Nat} (hk : 100000000 * (k + 1) < 2 ^ 64) :
    mipsReport (BitVec.ofNat 64 (20000000 * k)) (BitVec.ofNat 64 (100000000 * (k + 1))) =
      (some 20000000, BitVec.ofNat 64 (20000000 * (k + 1))) := by
  have hdue : BitVec.ofNat 64 (100000000 * (k + 1)) % 100000000 = 0 := by
    apply BitVec.eq_of_toNat_eq
    rw [BitVec.toNat_umod, BitVec.toNat_ofNat, Nat.mod_eq_of_lt hk]
    exact Nat.mul_mod_right _ _
  have hcycles : BitVec.ofNat 64 (100000000 * (k + 1)) / 5 =
      BitVec.ofNat 64 (20000000 * (k + 1)) := by
    have hfive : (5 : BitVec 64).toNat = 5 := rfl
    apply BitVec.eq_of_toNat_eq
    rw [BitVec.toNat_udiv, BitVec.toNat_ofNat, Nat.mod_eq_of_lt hk, BitVec.toNat_ofNat, hfive]
    omega
  have hsince : BitVec.ofNat 64 (20000000 * (k + 1)) - BitVec.ofNat 64 (20000000 * k) =
      20000000 := by
    rw [Nat.mul_succ, BitVec.ofNat_add, BitVec.add_comm, BitVec.add_sub_cancel]
    rfl
  unfold mipsReport
  rw [if_pos hdue]
  simp only [hcycles, hsince]

theorem mipsReport_quiet {lastc : BitVec 64} (hn : n < 2 ^ 64) (hdue : ¬ n % 100000000 = 0) :
    mipsReport lastc (BitVec.ofNat 64 n) = (none, lastc) := by
  refine if_neg fun hzero => hdue ?_
  have hvalue := congrArg BitVec.toNat hzero
  rw [BitVec.toNat_umod, BitVec.toNat_ofNat, Nat.mod_eq_of_lt hn] at hvalue
  exact hvalue

/-- One turn more. -/
theorem Metered.Shows.step (h : y.Shows n reports) (hn : n + 1 < 2 ^ 64)
    (hstep : MeteredStep y l z) (hgoes : z.turn.running = true) :
    z.Shows (n + 1) (reports ++ l.2.toList) := by
  obtain ⟨hturn, hreport⟩ := hstep
  have hcycle : z.turn.machine.core.cycle = BitVec.ofNat 64 (n + 1) := by
    rw [hturn.counts, h.cycle, BitVec.ofNat_add]
    rfl
  rw [if_pos hgoes, hcycle, h.lastc] at hreport
  by_cases hdue : (n + 1) % 100000000 = 0
  · have hperiods : (n + 1) / 100000000 = n / 100000000 + 1 := by omega
    have hturns : n + 1 = 100000000 * (n / 100000000 + 1) := by omega
    rw [hturns, mipsReport_due (by omega)] at hreport
    obtain ⟨hsaid, hlastc⟩ := Prod.mk.inj hreport
    refine ⟨hcycle, ?_, ?_⟩
    · rw [hlastc, hperiods]
    · rw [hsaid, h.reports, hperiods, List.replicate_succ']
      rfl
  · have hperiods : (n + 1) / 100000000 = n / 100000000 := by omega
    rw [mipsReport_quiet hn hdue] at hreport
    obtain ⟨hsaid, hlastc⟩ := Prod.mk.inj hreport
    refine ⟨hcycle, ?_, ?_⟩
    · rw [hlastc, hperiods]
    · rw [hsaid, h.reports, hperiods]
      exact List.append_nil _

/-- Whatever the guest does, every report of the loop is of 20 million instructions, one for
each 100 million turns behind which the loop has gone on. -/
theorem reports_constant (hstarts : x.turn.running = true)
    (hcycle : x.turn.machine.core.cycle = 0) (hlastc : x.lastc = 0)
    (h : Run MeteredStep x log y) (hshort : log.length < 2 ^ 64) :
    log.flatMap (fun l => l.2.toList) = List.replicate
      ((if y.turn.running = true then log.length else log.length - 1) / 100000000) 20000000 := by
  have hall : (y.turn.running = true → y.Shows log.length (log.flatMap fun l => l.2.toList)) ∧
      (y.turn.running = false → log.flatMap (fun l => l.2.toList) =
        List.replicate ((log.length - 1) / 100000000) 20000000) := by
    induction h with
    | nil =>
        refine ⟨fun _ => ⟨hcycle, hlastc, rfl⟩, fun hended => ?_⟩
        rw [hstarts] at hended
        cases hended
    | @snoc log y z l hrun hstep ih =>
        rw [List.length_append, List.length_singleton] at hshort ⊢
        rw [List.flatMap_append, List.flatMap_singleton]
        have hshows := (ih (by omega)).1 hstep.1.1
        refine ⟨hshows.step hshort hstep, fun hended => ?_⟩
        have hreport := hstep.2
        rw [if_neg (by rw [hended]; exact Bool.false_ne_true)] at hreport
        rw [(Prod.mk.inj hreport).1, hshows.reports]
        exact List.append_nil _
  cases hgoes : y.turn.running with
  | true => exact (hall.1 hgoes).reports
  | false => exact hall.2 hgoes

end Reports

/-! ## The instructions -/

section Instructions

variable {t t' : Turn} {u v : User World} {ls : List (Option Host)} {rows : List (List Host)}

/-- Five turns for an instruction, and one more for an environment call. -/
theorem rows_length (hrows : List.Forall₂ Row ls rows) :
    rows.flatten.length = 5 * ls.length + ls.countP Option.isSome := by
  induction hrows with
  | nil => rfl
  | @cons l row ls rows hrow _ ih =>
      rw [List.flatten_cons, List.length_append, ih, List.length_cons, List.countP_cons]
      cases hrow with
      | plain =>
          show 5 + _ = _ + (_ + 0)
          omega
      | call =>
          show 6 + _ = _ + (_ + 1)
          omega

/-- Behind a program's run, a fifth of the cycles is the number of its instructions and a fifth
of that of its environment calls: the loop counts right for as long as there are fewer than
five of these. -/
theorem instructions_counted (hhosts : u.HostedBy t) (hcycle : t.machine.core.cycle = 0)
    (hrun : Run (SupportedStep emulated) u ls v) (hrows : List.Forall₂ Row ls rows)
    (hshort : rows.flatten.length < 2 ^ 64) :
    ∃ t', Run (ThreadStep emulatorTurn) t rows.flatten t' ∧ v.HostedBy t' ∧
      (t'.machine.core.cycle / 5).toNat = ls.length + ls.countP Option.isSome / 5 ∧
      ((t'.machine.core.cycle / 5).toNat = ls.length ↔ ls.countP Option.isSome < 5) := by
  obtain ⟨t', hturns, hhosts'⟩ := hhosts.follows_run hrun hrows
  have hcount : (t'.machine.core.cycle / 5).toNat = ls.length + ls.countP Option.isSome / 5 := by
    have hfive : (5 : BitVec 64).toNat = 5 := rfl
    have hlength := rows_length hrows
    rw [cycle_run hturns, hcycle, zero_add, BitVec.toNat_udiv, BitVec.toNat_ofNat,
      Nat.mod_eq_of_lt hshort, hfive, hlength]
    omega
  refine ⟨t', hturns, hhosts', hcount, ?_⟩
  rw [hcount]
  omega

end Instructions

/-! ## Two programs -/

theorem addCall_counted : ∃ t', Run (ThreadStep emulatorTurn) (addCallTurn 57)
      (List.replicate 11 quietHost) t' ∧ (t'.machine.core.cycle / 5).toNat = 2 := by
  have hrow : Row none (List.replicate 5 quietHost) := .plain _ _ _ _ _
  have hrow' : Row (some quietHost) (List.replicate 6 quietHost) := .call _ _ _ _ _ _
  obtain ⟨t', hturns, -, -, hcounted⟩ := instructions_counted (addCall_hosted 57) rfl
    ((Run.nil.snoc (addCall_adds 57)).snoc addedCall_closes) (.cons hrow (.cons hrow' .nil))
    (show 11 < 2 ^ 64 by decide)
  exact ⟨t', hturns, hcounted.mpr (by decide)⟩

/-- `jal x0, 0`, which goes to itself. -/
def spin : User World := programUser [0x0000006f] fun _ => 0

theorem spin_step : SupportedStep emulated spin none spin := by
  have hshows : emulatorPlatform.Shows spin.world spin.pc (.jal 0 0) :=
    @programWorld_shows [0x0000006f] 0 _ (by decide) (by decide)
  have hsame : emulatorPlatform.after emulated spin (.jal 0 0) = spin := by
    have hreg : Isa.setReg spin.reg 0 (spin.pc + 4) = spin.reg := Isa.setReg_zero _ _
    show User.mk (spin.pc + (0 : BitVec 21).signExtend 32) (Isa.setReg spin.reg 0 (spin.pc + 4)) _ = _
    rw [hreg]
    rfl
  have hstep : emulatorPlatform.Step emulated spin none
      (emulatorPlatform.after emulated spin (.jal 0 0)) := .plain hshows trivial trivial
  rw [hsame] at hstep
  refine ⟨hstep, ?_⟩
  intro i hi
  cases hshows.unique hi
  exact ⟨nofun, nofun⟩

theorem spin_run (k : Nat) : Run (SupportedStep emulated) spin (List.replicate k none) spin := by
  induction k with
  | zero => exact .nil
  | succ k ih =>
      rw [List.replicate_succ']
      exact ih.snoc spin_step

theorem spin_rows (k : Nat) : List.Forall₂ Row (List.replicate k none)
    (List.replicate k (List.replicate 5 quietHost)) := by
  induction k with
  | zero => exact .nil
  | succ k ih => exact .cons (.plain _ _ _ _ _) ih

/-- The meter runs with the loop. -/
theorem metered_run {t t' : Turn} {hosts : List Host} (lastc : BitVec 64)
    (h : Run (ThreadStep emulatorTurn) t hosts t') :
    ∃ log y, log.map Prod.fst = hosts ∧ y.turn = t' ∧ Run MeteredStep ⟨t, lastc⟩ log y := by
  induction h with
  | nil => exact ⟨[], _, rfl, rfl, .nil⟩
  | @snoc hosts t t' host _ hstep ih =>
      obtain ⟨log, y, hlabels, rfl, hrun⟩ := ih
      let report := if t'.running = true then mipsReport y.lastc t'.machine.core.cycle
        else (none, y.lastc)
      refine ⟨log ++ [(host, report.1)], ⟨t', report.2⟩, ?_, rfl, hrun.snoc ⟨hstep, rfl⟩⟩
      rw [List.map_append, hlabels, List.map_singleton]

/-- Behind 20 million times the jump, there has been one report. -/
theorem spin_reports : ∃ log y,
    Run MeteredStep ⟨Turn.first (programMachine [0x0000006f] fun _ => 0), 0⟩ log y ∧
      log.flatMap (fun l => l.2.toList) = [20000000] := by
  obtain ⟨k, hk⟩ : ∃ k : Nat, k = 20000000 := ⟨_, rfl⟩
  obtain ⟨t', hturns, hhosts⟩ := (programUser_hosted rfl : spin.HostedBy _).follows_run (spin_run k)
    (spin_rows k)
  obtain ⟨log, y, hlabels, rfl, hrun⟩ := metered_run 0 hturns
  have hlength : log.length = 100000000 := by
    have hcalls : (List.replicate k (none : Option Host)).countP Option.isSome = 0 := by
      rw [List.countP_replicate]
      rfl
    rw [← List.length_map Prod.fst, hlabels, rows_length (spin_rows k), hcalls,
      List.length_replicate, hk]
  have hreports := reports_constant rfl rfl rfl hrun (by omega)
  rw [if_pos hhosts.running, hlength] at hreports
  exact ⟨log, y, hrun, hreports⟩

end CRiscV
