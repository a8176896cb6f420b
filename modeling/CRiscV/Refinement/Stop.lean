/-
What stops a program without its asking: a word that the emulator has no instruction for, and
an access to an address of no device.  The loop ends on it, and nothing of it has happened.
-/
import CRiscV.Refinement.Fault
import CRiscV.Refinement.Illegal
import CRiscV.Refinement.Program

namespace CRiscV

open Isa (User)
open Transition (Run inputs inputs_add)

/-- The user is at an instruction that traps, by the cycles up to the trap and its cause. -/
inductive Isa.User.Faults (u : User World) : Nat → TrapCause → Prop
  | unknown : u.world.Reads u.pc 32 →
      decodeTypeTable ((Isa.opcode (emulatorPlatform.word u.world u.pc)).setWidth 8) = .unknown →
        Faults u 2 .illegalInstruction
  | unlabelled : u.world.Reads u.pc 32 →
      Isa.opcode (emulatorPlatform.word u.world u.pc) = 0b0110011 →
        regLabel (Isa.funct3 (emulatorPlatform.word u.world u.pc))
          (Isa.funct7 (emulatorPlatform.word u.world u.pc)) = false →
          Faults u 3 .illegalInstruction
  | load {op : Isa.LoadOp} {rd rs1 : Isa.Reg} {offset : BitVec 12} :
      emulatorPlatform.Shows u.world u.pc (.load op rd rs1 offset) →
        u.world.bus.Unmapped (wide (u.reg rs1 + offset.signExtend 32)) →
          Faults u 4 .loadAccessFault
  | store {op : Isa.StoreOp} {rs1 rs2 : Isa.Reg} {offset : BitVec 12} :
      emulatorPlatform.Shows u.world u.pc (.store op rs1 rs2 offset) →
        u.world.bus.Unmapped (wide (u.reg rs1 + offset.signExtend 32)) →
          Faults u 4 .storeAccessFault

/-- The machine has what the user had before the instruction. -/
structure Machine.Stands (m : Machine) (u : User World) : Prop where
  pc : m.core.pc = u.pc
  registers : m.core.registers = u.reg
  memory : u.world.mmu.SameMemory m.bus.mmu
  calls : m.calls = u.world.calls

/-- The machine has trapped in the user's instruction. -/
structure Machine.Strikes (m : Machine) (u : User World) (cause : TrapCause) : Prop where
  state : m.core.state = .trap
  trapState : m.core.trapState = .enter
  cause : m.core.csr mcause = wide cause.code
  stands : m.Stands u

/-- The loop has ended, with the instruction and the cause in the registers of the trap. -/
structure Turn.Reports (t : Turn) (u : User World) (cause : TrapCause) : Prop where
  ended : t.running = false
  epc : t.machine.core.csr mepc = wide u.pc
  cause : t.machine.core.csr mcause = wide cause.code
  stands : t.machine.Stands u

section Strikes

variable {t : Turn} {m m₁ : Machine} {u : User World} {cause : TrapCause} {host : Host}

/-- Every handler but that of an environment call ends the loop. -/
theorem Machine.Strikes.reports (h : m.Strikes u cause) (hcause : cause ≠ .envCallUmode)
    (host : Host) :
    ∃ t', ThreadStep emulatorTurn (Turn.first m) host t' ∧ t'.Reports u cause := by
  have hepc : m.entered.core.csr mepc = wide u.pc := by
    rw [← h.stands.pc]
    exact Csr.set_self m.core.csr mepc (wide m.core.pc)
  have hcause' : m.entered.core.csr mcause = wide cause.code := by
    rw [← h.cause]
    exact Csr.set_of_ne m.core.csr (show mcause ≠ mepc by decide) (wide m.core.pc)
  have hturn := @emulatorTurn_enter (Turn.first m) h.state h.trapState host
  rw [show (Turn.first m).machine = m from rfl, trapHandler_eq hcause' hepc, if_neg hcause] at hturn
  exact ⟨_, ⟨rfl, hturn⟩, rfl, hepc, hcause', h.stands.pc, h.stands.registers, h.stands.memory,
    h.stands.calls⟩

theorem Machine.Presents.stands (hhosts : m.Hosts u) (h : m.Presents m₁ u) : m₁.Stands u := by
  refine ⟨?_, ?_, h.backs.memory, h.calls.trans hhosts.calls⟩
  · rw [h.core]
    exact hhosts.pc
  · rw [h.core]
    exact hhosts.registers

/-- A cycle that enters a trap, as a turn of the loop. -/
theorem strikeStep (hrunning : t.running = true)
    (hcycle : coreCycle (host.residue 0) t.machine = .ok m) (h : m.Strikes u cause) :
    ThreadStep emulatorTurn t host (Turn.first m) := by
  refine (quietStep_of_cycle hrunning hcycle fun _ hhandle => ?_).1
  rw [h.trapState] at hhandle
  cases hhandle

/-- `cause_trap` in a stage that leaves the registers and the program counter alone. -/
theorem Machine.Stands.strikes (h : m.Stands u) (core : Core) (next : CoreState)
    (hregs : core.registers = m.core.registers) (hpc : core.pc = m.core.pc) :
    ((m.withCore (causeTrap core cause)).advance next).Strikes u cause :=
  ⟨rfl, rfl, causeTrap_mcause core cause, hpc.trans h.pc, hregs.trans h.registers, h.memory,
    h.calls⟩

/-- A word of no known opcode traps as it is decoded. -/
theorem Machine.Presents.strikes_unknown (hhosts : m.Hosts u) (h : m.Presents m₁ u)
    (hformat : decodeTypeTable ((Isa.opcode (emulatorPlatform.word u.world u.pc)).setWidth 8) =
      .unknown) (residue : BitVec 8) :
    ∃ m₂, coreCycle residue m₁ = .ok m₂ ∧ m₂.Strikes u .illegalInstruction := by
  have hstate : m₁.core.state = .decode := by
    rw [h.core]
  have hword : m₁.core.instruction = emulatorPlatform.word u.world u.pc := by
    rw [h.core]
  rw [← hword] at hformat
  refine ⟨_, ?_, (h.stands hhosts).strikes { m₁.core with decoded := decodeCommon m₁.core }
    .execute rfl rfl⟩
  unfold coreCycle
  rw [hstate, ← decode_unknown hformat]

/-- The switch of the R format has no label for the word. -/
theorem execute_unlabelled {core : Core} (hop : Isa.opcode core.instruction = 0b0110011)
    (hlabel : regLabel (Isa.funct3 core.instruction) (Isa.funct7 core.instruction) = false)
    (core' : Core) (hdec : core'.decoded = { decodeCommon core with
      funct7 := Isa.funct7 core.instruction }) :
    execute core' =
      .ok (causeTrap { core' with decoded := { core'.decoded with writeRd := true } }
        .illegalInstruction) := by
  have hformat : core'.decoded.optype = .r := by
    rw [hdec]
    show (decodeCommon core).optype = .r
    rw [decodeCommon_optype, hop]
    decide
  have hopcode : core'.decoded.opcode = 0b0110011 := by
    rw [hdec]
    show (decodeCommon core).opcode = 0b0110011
    rw [decodeCommon_opcode, hop]
    decide
  have hunlabelled : regLabel core'.decoded.funct3 core'.decoded.funct7 = false := by
    rw [hdec]
    show regLabel (decodeCommon core).funct3 (Isa.funct7 core.instruction) = false
    rw [decodeCommon_funct3, hlabel]
  refine execute_r_none hformat (executeR_none fun hmem => ?_)
  rw [op3_mem_labelsR hopcode, hunlabelled] at hmem
  cases hmem

/-- Such a word traps as it is executed. -/
theorem Machine.Presents.strikes_unlabelled (hhosts : m.Hosts u) (h : m.Presents m₁ u)
    (hop : Isa.opcode (emulatorPlatform.word u.world u.pc) = 0b0110011)
    (hlabel : regLabel (Isa.funct3 (emulatorPlatform.word u.world u.pc))
      (Isa.funct7 (emulatorPlatform.word u.world u.pc)) = false) (residue residue' : BitVec 8) :
    ∃ dec m₃, coreCycle residue m₁ = .ok (m₁.decodedTo dec) ∧
      coreCycle residue' (m₁.decodedTo dec) = .ok m₃ ∧ m₃.Strikes u .illegalInstruction := by
  have hstate : m₁.core.state = .decode := by
    rw [h.core]
  have hword : m₁.core.instruction = emulatorPlatform.word u.world u.pc := by
    rw [h.core]
  rw [← hword] at hop hlabel
  obtain ⟨dec, hdec⟩ : ∃ dec, dec = { decodeCommon m₁.core with
    funct7 := Isa.funct7 m₁.core.instruction } := ⟨_, rfl⟩
  have hdecode : decode m₁.core = { m₁.core with decoded := dec } := by
    rw [hdec]
    exact decode_r hop
  have hexecute := execute_unlabelled hop hlabel (m₁.decodedTo dec).core hdec
  have hbefore := h.stands hhosts
  have hstands : (m₁.decodedTo dec).Stands u :=
    ⟨hbefore.pc, hbefore.registers, hbefore.memory, hbefore.calls⟩
  refine ⟨dec, _, coreCycle_decode hstate hdecode, ?_, hstands.strikes { (m₁.decodedTo dec).core with
    decoded := { dec with writeRd := true } } .memory rfl rfl⟩
  show (execute (m₁.decodedTo dec).core >>= fun core => _) = _
  rw [hexecute]
  rfl

/-- An access to an address of no device traps as it is made. -/
theorem Machine.Stands.strikes_load (h : m.Stands u)
    (hstate : m.core.state = .memory) (hread : m.core.decoded.readMem = true)
    (hfree : m.bus.mutex = false) (hnone : m.bus.Unmapped (wide m.core.decoded.memOffset))
    (residue : BitVec 8) :
    ∃ m', coreCycle residue m = .ok m' ∧ m'.Strikes u .loadAccessFault := by
  have hstands : ({ m with bus := { m.bus with mutex := false, status := .addressNotFound } } :
      Machine).Stands u := ⟨h.pc, h.registers, h.memory, h.calls⟩
  refine ⟨_, ?_, hstands.strikes { m.core with aluOut := 0x0badc0de } .writeback rfl rfl⟩
  rw [coreCycle_memory_eq hstate, memoryAccess]
  simp only [hread, if_true, busReadSingle_unmapped hfree hnone, Transition.ok_bind]
  rfl

theorem Machine.Stands.strikes_store (h : m.Stands u) (hstate : m.core.state = .memory)
    (hread : m.core.decoded.readMem = false) (hwrite : m.core.decoded.writeMem = true)
    (hfree : m.bus.mutex = false) (hnone : m.bus.Unmapped (wide m.core.decoded.memOffset))
    (residue : BitVec 8) :
    ∃ m', coreCycle residue m = .ok m' ∧ m'.Strikes u .storeAccessFault := by
  have hstands : ({ m with bus := { m.bus with mutex := false, status := .addressNotFound } } :
      Machine).Stands u := ⟨h.pc, h.registers, h.memory, h.calls⟩
  refine ⟨_, ?_, hstands.strikes m.core .writeback rfl rfl⟩
  rw [coreCycle_memory_eq hstate, memoryAccess]
  simp only [hread, hwrite, if_true, Bool.false_eq_true, if_false,
    busWriteSingle_unmapped hfree hnone, Transition.ok_bind]
  rfl

end Strikes

section Turns

variable {t : Turn} {u v : User World} {cause : TrapCause} {n : Nat} {ls : List (Option Host)}
  {rows : List (List Host)}

/-- The turns up to the trap, whichever hosts they meet. -/
theorem Machine.Hosts.struck_turns (hrunning : t.running = true) (h : t.machine.Hosts u)
    (hfaults : u.Faults n cause) (stream : Nat → Host) :
    ∃ m, Run (ThreadStep emulatorTurn) t (inputs stream n) (Turn.first m) ∧ m.Strikes u cause := by
  have hfetches : u.world.Reads u.pc 32 := by
    cases hfaults with
    | unknown hreads | unlabelled hreads => exact hreads
    | load hshows | store hshows => exact hshows.fetches
  obtain ⟨m₁, hfetch, hpresents⟩ := h.presents hfetches ((stream 0).residue 0)
  have hstate : m₁.core.state = .decode := by
    rw [hpresents.core]
  have hfirst : ThreadStep emulatorTurn t (stream 0) (Turn.first m₁) :=
    quietStep_of_state hrunning hfetch (by rw [hstate]; decide)
  have hstands := hpresents.stands h
  cases hfaults with
  | unknown hreads hformat =>
      obtain ⟨m₂, hcycle, hstrikes⟩ :=
        hpresents.strikes_unknown h hformat ((stream 1).residue 0)
      exact ⟨m₂, (Run.nil.snoc hfirst).snoc (strikeStep rfl hcycle hstrikes), hstrikes⟩
  | unlabelled hreads hop hlabel =>
      obtain ⟨dec, m₃, hdecoded, hcycle, hstrikes⟩ :=
        hpresents.strikes_unlabelled h hop hlabel ((stream 1).residue 0) ((stream 2).residue 0)
      have hsecond : ThreadStep emulatorTurn (Turn.first m₁) (stream 1)
          (Turn.first (m₁.decodedTo dec)) := quietStep_of_state rfl hdecoded nofun
      exact ⟨m₃, ((Run.nil.snoc hfirst).snoc hsecond).snoc (strikeStep rfl hcycle hstrikes),
        hstrikes⟩
  | @load op rd rs1 offset hshows hnone =>
      have hword : Isa.decode m₁.core.instruction = some (.load op rd rs1 offset) := by
        rw [hpresents.core]
        exact hshows.decodes
      obtain ⟨htarget, -, dec, value, hissues⟩ := issues_load (hpresents.at h) hword
      have hunmapped : m₁.bus.Unmapped (wide (decodedLoad m₁.core op).memOffset) := by
        rw [htarget]
        exact World.Backs.unmapped hpresents.backs hnone
      have hissued : (m₁.issued (decodedLoad m₁.core op) value).Stands u :=
        ⟨hstands.pc, hstands.registers, hstands.memory, hstands.calls⟩
      obtain ⟨m₄, hcycle, hstrikes⟩ :=
        hissued.strikes_load rfl rfl hpresents.backs.free hunmapped ((stream 3).residue 0)
      exact ⟨m₄, (issue_turns hrunning hfetch hstate hissues).snoc (strikeStep rfl hcycle hstrikes),
        hstrikes⟩
  | @store op rs1 rs2 offset hshows hnone =>
      have hword : Isa.decode m₁.core.instruction = some (.store op rs1 rs2 offset) := by
        rw [hpresents.core]
        exact hshows.decodes
      obtain ⟨htarget, dec, hissues⟩ := issues_store (hpresents.at h) hword
      have hunmapped : m₁.bus.Unmapped (wide (decodedStore m₁.core op).memOffset) := by
        rw [htarget]
        exact World.Backs.unmapped hpresents.backs hnone
      have hissued : (m₁.issued (decodedStore m₁.core op) (storeLatch op (u.reg rs2))).Stands u :=
        ⟨hstands.pc, hstands.registers, hstands.memory, hstands.calls⟩
      obtain ⟨m₄, hcycle, hstrikes⟩ :=
        hissued.strikes_store rfl rfl rfl hpresents.backs.free hunmapped ((stream 3).residue 0)
      exact ⟨m₄, (issue_turns hrunning hfetch hstate hissues).snoc (strikeStep rfl hcycle hstrikes),
        hstrikes⟩

theorem Isa.User.Faults.cause_ne (h : u.Faults n cause) : cause ≠ .envCallUmode := by
  cases h <;> decide

/-- A program that comes to a fault ends the loop: its run is gone through, then the cycles up
to the trap and the handler, and registers, memory and calls are what they were in front of the
instruction that is named in mepc. -/
theorem program_faults (hhosts : u.HostedBy t) (hrun : Run (SupportedStep emulated) u ls v)
    (hfaults : v.Faults n cause) (hrows : List.Forall₂ Row ls rows) (stream : Nat → Host) :
    (∃ t', Run (ThreadStep emulatorTurn) t (rows.flatten ++ inputs stream (n + 1)) t') ∧
      ∀ t', Run (ThreadStep emulatorTurn) t (rows.flatten ++ inputs stream (n + 1)) t' →
        t'.Reports v cause ∧ ∀ host t'', ¬ ThreadStep emulatorTurn t' host t'' := by
  obtain ⟨t', hturns, hhosts'⟩ := hhosts.follows_run hrun hrows
  obtain ⟨m, hlast, hstrikes⟩ := hhosts'.machine.struck_turns hhosts'.running hfaults stream
  obtain ⟨t'', hstep, hreports⟩ := hstrikes.reports hfaults.cause_ne (stream n)
  have hall : Run (ThreadStep emulatorTurn) t (rows.flatten ++ inputs stream (n + 1)) t'' := by
    rw [inputs_add]
    exact hturns.append (hlast.snoc hstep)
  refine ⟨⟨t'', hall⟩, ?_⟩
  intro t₁ hturns₁
  cases hturns₁.deterministic ThreadStep.deterministic hall
  refine ⟨hreports, ?_⟩
  rintro host t₂ ⟨hgoes, -⟩
  rw [hreports.ended] at hgoes
  cases hgoes

end Turns

/-! ## A store to the null pointer -/

/-- `add x7, x5, x6` and `sw x0, 0(x0)`. -/
def nullStore : User World := programUser [0x006283b3, 0x00002023] (addCallRegs 0)

def nullStoreTurn : Turn := Turn.first (programMachine [0x006283b3, 0x00002023] (addCallRegs 0))

theorem nullStore_adds : SupportedStep emulated nullStore none
    (emulatorPlatform.after emulated nullStore (.reg .add 7 5 6)) := by
  have hshows : emulatorPlatform.Shows nullStore.world nullStore.pc (.reg .add 7 5 6) :=
    @programWorld_shows [0x006283b3, 0x00002023] 0 _ (by decide) (by decide)
  refine ⟨.plain hshows trivial trivial, ?_⟩
  intro i hi
  cases hshows.unique hi
  exact ⟨nofun, nofun⟩

theorem nullStore_strikes :
    (emulatorPlatform.after emulated nullStore (.reg .add 7 5 6)).Faults 4 .storeAccessFault := by
  have hshows : emulatorPlatform.Shows nullStore.world (nullStore.pc + 4) (.store .sw 0 0 0) :=
    @programWorld_shows [0x006283b3, 0x00002023] 1 _ (by decide) (by decide)
  exact .store hshows (emulatorBus_unmapped (by decide) (by decide))

theorem nullStore_faults :
    (∃ t', Run (ThreadStep emulatorTurn) nullStoreTurn (List.replicate 10 quietHost) t') ∧
      ∀ t', Run (ThreadStep emulatorTurn) nullStoreTurn (List.replicate 10 quietHost) t' →
        t'.Reports (emulatorPlatform.after emulated nullStore (.reg .add 7 5 6)) .storeAccessFault ∧
          ∀ host t'', ¬ ThreadStep emulatorTurn t' host t'' := by
  have hrow : Row none (List.replicate 5 quietHost) := .plain _ _ _ _ _
  exact program_faults (programUser_hosted rfl) (Run.nil.snoc nullStore_adds) nullStore_strikes
    (.cons hrow .nil) fun _ => quietHost

end CRiscV
