/-
What the guest and the host's files see of storage that the emulator has not set: the
`uint8_t` of `read_ram_single`, and the local buffers of the system calls.

Each of these is filled by an inner access and used whether that access was made or not.
-/
import CRiscV.Refinement.Strings

namespace CRiscV

/-- The calls that use such storage. -/
inductive GuestCall where
  | load (rd : BitVec 5) (addr : Word)
  | string (offs : Size)
  | fstat (fd addr : Word)
  | write (fd addr n : Word)
  | openFile (path flags mode : Word)

/-- In front of the memory stage of LB or LBU. -/
def Machine.loading (m : Machine) (rd : BitVec 5) (addr : Word) : Machine :=
  m.withCore { m.core with
    state := .memory
    decoded := { m.core.decoded with
      readMem := true, memAccessWidth := .byte, memOffset := addr
      writeRd := true, rd := rd, isJump := false } }

/-- A call, with the bytes that it leaves in a buffer of its caller.  A load is its memory
stage and the cycle behind that. -/
def guestCall (host : Host) (m : Machine) : GuestCall → Except Abort (List (BitVec 8) × Machine)
  | .load rd addr => do
      let m ← coreCycles [host.residue 0, host.residue 1] (m.loading rd addr)
      return ([], m)
  | .string offs => do
      let (dst, bus) ← busReadString host.residue m.bus offs
      return (dst, m.withBus bus)
  | .fstat fd addr => do
      let (_, m) ← sysFstat host m fd addr
      return ([], m)
  | .write fd addr n => do
      let (_, m) ← sysWrite host m fd addr n
      return ([], m)
  | .openFile path flags mode => do
      let (_, m) ← sysOpen host m path flags mode
      return ([], m)

/-- The core but for the latch behind the ALU, the memory, and what the host is given. -/
structure GuestView where
  bytes : List (BitVec 8)
  core : Core
  data : Nat → BitVec 8
  perm : Nat → Perm
  calls : List HostCall

def guestView (r : List (BitVec 8) × Machine) : GuestView :=
  { bytes := r.1
    core := { r.2.core with aluOut := 0 }
    data := r.2.bus.mmu.data
    perm := r.2.bus.mmu.perm
    calls := r.2.calls }

/-- A host that leaves other storage unset. -/
def Host.holding (host : Host) (residue buffer : Nat → BitVec 8) : Host :=
  { host with residue := residue, buffer := buffer }

/-- Any two runs of the call that differ in the unset storage only look the same. -/
def Machine.NoResidue (m : Machine) (host : Host) (call : GuestCall) : Prop :=
  ∀ residue buffer residue' buffer',
    (guestCall (host.holding residue buffer) m call).map guestView =
      (guestCall (host.holding residue' buffer') m call).map guestView

/-- The address is in RAM, which does not let it be read. -/
def Bus.Denies (bus : Bus) (a : Size) : Prop :=
  bus.AtRam a ∧ ¬ bus.mmu.Lets Perm.Readable a.toNat

/-- RAM has the address and is ready for a block. -/
def Bus.TakesBlocks (bus : Bus) (a : Size) : Prop :=
  ∃ i dev, bus.Routes a i dev ∧ dev.driver = .ram ∧ dev.state = .ready

/-- A locked bus is waited for.  Else no byte that the call goes on behind is denied by RAM;
a buffer that is written is empty, refused by an assertion, or filled from RAM; and the
buffer of an `fstat` that fails is not written. -/
def Machine.Settled (m : Machine) (host : Host) : GuestCall → Prop
  | .load rd addr => m.bus.mutex = true ∨ rd = 0 ∨ ¬ m.bus.Denies (wide addr)
  | .string offs =>
      m.bus.mutex = true ∨ ¬ ∃ n, m.bus.ShowsText offs n ∧ m.bus.Denies (byteAddr offs n)
  | .fstat fd addr =>
      m.bus.mutex = true ∨ (host.fstat fd host.buffer).2 ≠ -1 ∨
        ¬ (m.bus.TakesBlocks (wide addr) ∧ m.bus.mmu.Allows Perm.Writable addr 112)
  | .write fd addr n =>
      m.bus.mutex = true ∨ ¬ (fd ≤ 2 ∧ n < 256) ∨ n = 0 ∨ m.bus.AtCsr (wide addr) ∨
        m.bus.AtRam (wide addr) ∧ m.bus.mmu.Allows Perm.Readable addr n.toNat
  | .openFile path _ _ =>
      m.bus.mutex = true ∨
        ¬ ∃ n < 256, m.bus.ShowsText (wide path) n ∧ m.bus.Denies (byteAddr (wide path) n)

/-- What is documented of the host's `fstat`: it fills the buffer of 144 bytes, or returns
-1 and leaves the buffer alone. -/
def Host.FstatFills (host : Host) : Prop :=
  ∀ fd, ∃ stat r, ∀ buf, host.fstat fd buf = (if r = -1 then buf else Span.copy 0 144 stat buf, r)

section Cases

variable {m : Machine} {host : Host} {call : GuestCall}

/-- The same outcome for all that the storage may hold. -/
theorem noResidue_of_eq (x : Except Abort (List (BitVec 8) × Machine))
    (h : ∀ residue buffer, guestCall (host.holding residue buffer) m call = x) :
    m.NoResidue host call := by
  intro residue buffer residue' buffer'
  rw [h, h]

/-- Outcomes with the same view. -/
theorem noResidue_of_view (v : GuestView)
    (h : ∀ residue buffer, ∃ r, guestCall (host.holding residue buffer) m call = .ok r ∧
      guestView r = v) : m.NoResidue host call := by
  intro residue buffer residue' buffer'
  obtain ⟨r, hr, hv⟩ := h residue buffer
  obtain ⟨r', hr', hv'⟩ := h residue' buffer'
  rw [hr, hr']
  show Except.ok (guestView r) = Except.ok (guestView r')
  rw [hv, hv']

/-! ### A load -/

/-- The core behind the memory stage and the one after it. -/
def Machine.loaded (m : Machine) (rd : BitVec 5) (addr r : Word) (bus : Bus) : Machine :=
  let m := { (m.loading rd addr).advance .writeback with bus := bus }
  let m := m.withCore { m.core with aluOut := r }
  (m.withCore (writeback m.core)).advance .fetch

theorem load_eq (host : Host) {r : Word} {bus : Bus} (rd : BitVec 5) {addr : Word}
    (hread : busReadSingle (host.residue 0) m.bus (wide addr) .byte = .ok (r, bus))
    (hstatus : bus.status = .ok) :
    guestCall host m (.load rd addr) = .ok ([], m.loaded rd addr r bus) := by
  have haccess : memoryAccess (host.residue 0) (m.loading rd addr) =
      busReadSingle (host.residue 0) m.bus (wide addr) .byte >>= fun x =>
        if x.2.status ≠ .ok then _ else
          .ok { (m.loading rd addr) with
            core := { (m.loading rd addr).core with aluOut := x.1 }, bus := x.2 } := rfl
  rw [hread, Transition.ok_bind, if_neg (not_not_intro hstatus)] at haccess
  rw [guestCall, coreCycles, coreCycle_memory_eq rfl, haccess]
  rfl

/-- A load over the bus traps, or reaches a register. -/
theorem load_failed (host : Host) {r : Word} {bus : Bus} (rd : BitVec 5) {addr : Word}
    (hread : busReadSingle (host.residue 0) m.bus (wide addr) .byte = .ok (r, bus))
    (hstatus : bus.status ≠ .ok) :
    guestCall host m (.load rd addr) =
      coreCycle 0 (Machine.advance .writeback { (m.loading rd addr) with
        core := causeTrap { (m.loading rd addr).core with aluOut := r } (loadCause bus.status)
        bus := bus }) >>= fun m => .ok ([], m) := by
  have haccess : memoryAccess (host.residue 0) (m.loading rd addr) =
      busReadSingle (host.residue 0) m.bus (wide addr) .byte >>= fun x =>
        if x.2.status ≠ .ok then .ok { (m.loading rd addr) with
          core := causeTrap { (m.loading rd addr).core with aluOut := x.1 } (loadCause x.2.status)
          bus := x.2 } else _ := rfl
  rw [hread, Transition.ok_bind, if_pos hstatus] at haccess
  rw [guestCall, coreCycles, coreCycle_memory_eq rfl, haccess]
  rfl

theorem load_locked {rd : BitVec 5} {addr : Word} (hlock : m.bus.mutex = true) :
    guestCall host m (.load rd addr) = .error .deadlock := by
  have haccess : memoryAccess (host.residue 0) (m.loading rd addr) =
      busReadSingle (host.residue 0) m.bus (wide addr) .byte >>= fun x =>
        if x.2.status ≠ .ok then _ else _ := rfl
  rw [busReadSingle_locked hlock] at haccess
  rw [guestCall, coreCycles, coreCycle_memory_eq rfl, haccess]
  rfl

theorem loaded_registers (m : Machine) (rd : BitVec 5) (addr r : Word) (bus : Bus) :
    (m.loaded rd addr r bus).core.registers = regW m.core.registers rd r := rfl

/-- The registers are all of it that depends on the value. -/
theorem loaded_view {m : Machine} {bus : Bus} (hafter : m.bus.AfterRead bus) (rd : BitVec 5)
    (addr r : Word) : guestView ([], m.loaded rd addr r bus) =
      { bytes := []
        core := { (m.loaded rd addr 0 m.bus).core with
          aluOut := 0, registers := regW m.core.registers rd r }
        data := m.bus.mmu.data
        perm := m.bus.mmu.perm
        calls := m.calls } := by
  obtain ⟨state, hmmu⟩ := hafter.memory
  show GuestView.mk _ _ bus.mmu.data bus.mmu.perm _ = _
  rw [hmmu]
  rfl

/-- A byte that is not denied is the same for all that the stack may hold. -/
theorem busReadSingle_settled {bus : Bus} {a : Size} (hfree : bus.mutex = false)
    (hsized : bus.mmu.size.toNat < 2 ^ 63)
    (hkinds : bus.AtRam a ∨ bus.AtCsr a ∨ bus.Unmapped a) (hdenies : ¬ bus.Denies a) :
    ∃ r bus', ∀ residue, busReadSingle residue bus a .byte = .ok (r, bus') := by
  rcases hkinds with hram | hcsr | hnone
  · have hlets : bus.mmu.Lets Perm.Readable a.toNat := by
      by_contra hnot
      exact hdenies ⟨hram, hnot⟩
    obtain ⟨bus', -, -, hread⟩ := Bus.Shows.read ⟨hram, hlets⟩ hfree hsized
    exact ⟨_, bus', hread⟩
  · obtain ⟨bus', -, -, hread⟩ := hcsr.read hfree
    exact ⟨_, bus', hread⟩
  · exact ⟨_, _, fun residue => busReadSingle_unmapped hfree hnone⟩

theorem load_noResidue_iff {rd : BitVec 5} {addr : Word} (hsized : m.bus.mmu.size.toNat < 2 ^ 63)
    (hdivided : m.bus.Divided) :
    m.NoResidue host (.load rd addr) ↔ m.Settled host (.load rd addr) := by
  constructor
  · intro hsame
    by_contra hunsettled
    simp only [Machine.Settled, not_or, not_not, Bool.not_eq_true] at hunsettled
    obtain ⟨hfree, hrd, hram, hdenied⟩ := hunsettled
    obtain ⟨bus₀, -, hstatus₀, hread₀⟩ := hram.read_denied hdenied hfree hsized 0
    obtain ⟨bus₁, -, hstatus₁, hread₁⟩ := hram.read_denied hdenied hfree hsized 1
    have hviews := hsame (fun _ => 0) (fun _ => 0) (fun _ => 1) (fun _ => 0)
    rw [load_eq (host.holding (fun _ => 0) fun _ => 0) rd hread₀ hstatus₀,
      load_eq (host.holding (fun _ => 1) fun _ => 0) rd hread₁ hstatus₁] at hviews
    injection hviews with hviews
    have hregisters := congrArg (fun v => v.core.registers rd) hviews
    have hvalue : ∀ r bus, (m.loaded rd addr r bus).core.registers rd = r := by
      intro r bus
      rw [loaded_registers, regW, if_pos rfl, if_neg hrd]
    exact absurd ((hvalue _ _).symm.trans (Eq.trans hregisters (hvalue _ _))) (by decide)
  · intro hsettled
    by_cases hlock : m.bus.mutex = true
    · exact noResidue_of_eq _ fun _ _ => load_locked hlock
    have hfree := Bool.not_eq_true _ ▸ hlock
    by_cases hdenies : m.bus.Denies (wide addr)
    · obtain rfl : rd = 0 := (hsettled.resolve_left hlock).resolve_right (not_not_intro hdenies)
      obtain ⟨hram, hdenied⟩ := hdenies
      have hzero : ∀ r : Word, regW m.core.registers 0 r = regW m.core.registers 0 0 := by
        intro r
        funext x
        rw [regW, regW, if_pos rfl, if_pos rfl]
      have hview : ∀ {bus : Bus}, m.bus.AfterRead bus → ∀ r : Word,
          guestView ([], m.loaded 0 addr r bus) = guestView ([], m.loaded 0 addr 0 m.bus) := by
        intro bus hafter r
        rw [loaded_view hafter, loaded_view ⟨rfl, .refl _, hfree⟩, hzero r]
      refine noResidue_of_view (guestView ([], m.loaded 0 addr 0 m.bus)) fun residue buffer => ?_
      obtain ⟨bus, hafter, hstatus, hread⟩ := hram.read_denied hdenied hfree hsized (residue 0)
      exact ⟨_, load_eq (host.holding residue buffer) 0 hread hstatus, hview hafter _⟩
    · obtain ⟨r, bus, hread⟩ := busReadSingle_settled hfree hsized (hdivided _) hdenies
      by_cases hstatus : bus.status = .ok
      · exact noResidue_of_eq _ fun residue buffer =>
          load_eq (host.holding residue buffer) rd (hread (residue 0)) hstatus
      · exact noResidue_of_eq _ fun residue buffer =>
          load_failed (host.holding residue buffer) rd (hread (residue 0)) hstatus

/-! ### A string -/

section Text

variable {bus : Bus} {offs : Size} {n : Nat}

/-- Where the bytes that can be read end, and the next one is not denied, the string ends
for all that the stack may hold. -/
theorem busReadString_settled (hfree : bus.mutex = false) (hsized : bus.mmu.size.toNat < 2 ^ 63)
    (hdivided : bus.Divided) (htext : bus.ShowsText offs n)
    (hstop : ¬ (bus.Shows (byteAddr offs n) ∧ bus.mmu.dataAt (byteAddr offs n).toNat ≠ 0))
    (hdenies : ¬ bus.Denies (byteAddr offs n)) :
    ∃ x, ∀ residue, busReadString residue bus offs = .ok x := by
  rcases hdivided (byteAddr offs n) with hram | hcsr | hnone
  · have hshows : bus.Shows (byteAddr offs n) := by
      refine ⟨hram, ?_⟩
      by_contra hnot
      exact hdenies ⟨hram, hnot⟩
    have hzero : bus.mmu.dataAt (byteAddr offs n).toNat = 0 := by
      by_contra hne
      exact hstop ⟨hshows, hne⟩
    obtain ⟨bus', -, -, hread⟩ := busReadString_zero hfree hsized htext hshows hzero
    exact ⟨_, hread⟩
  · obtain ⟨bus', -, -, hread⟩ := busReadString_csr hfree hsized htext hcsr
    exact ⟨_, hread⟩
  · obtain ⟨bus', -, -, hread⟩ := busReadString_unmapped hfree hsized htext hnone
    exact ⟨_, hread⟩

theorem Bus.AfterRead.divided {bus' : Bus} (h : bus.AfterRead bus') (hdivided : bus.Divided) :
    bus'.Divided :=
  fun a => (hdivided a).imp h.atRam (Or.imp h.atCsr h.unmapped)

/-- No device of the emulator fails a read. -/
theorem busReadStringLoop_returns (hfree : bus.mutex = false)
    (hsized : bus.mmu.size.toNat < 2 ^ 63)
    (hdivided : bus.Divided) (residue : Nat → BitVec 8)
    (fuel i : Nat) : ∃ x, busReadStringLoop residue offs fuel i bus = .ok x := by
  induction fuel generalizing i bus with
  | zero => exact ⟨_, rfl⟩
  | succ fuel ih =>
      have hturn : ∃ r bus', busReadSingle (residue i) bus (byteAddr offs i) .byte =
          .ok (r, bus') := by
        by_cases hdenies : bus.Denies (byteAddr offs i)
        · obtain ⟨bus', -, -, hread⟩ := hdenies.1.read_denied hdenies.2 hfree hsized (residue i)
          exact ⟨_, _, hread⟩
        · obtain ⟨r, bus', hread⟩ := busReadSingle_settled hfree hsized (hdivided _) hdenies
          exact ⟨r, bus', hread _⟩
      obtain ⟨r, bus', hread⟩ := hturn
      have hafter := busReadSingle_frame hread
      by_cases hmore : r.setWidth 8 ≠ (0 : BitVec 8) ∧ bus'.status = .ok
      · obtain ⟨x, hrest⟩ := ih hafter.unlocked (hafter.sized hsized)
          (hafter.divided hdivided) (i + 1)
        rw [busReadStringLoop_next hmore hread, hrest]
        exact ⟨_, rfl⟩
      · exact ⟨_, busReadStringLoop_last hmore hread⟩

/-- At a denied byte the string is cut off if the stack held a zero, and goes on with what
the stack held if not. -/
theorem busReadString_denies (hfree : bus.mutex = false) (hsized : bus.mmu.size.toNat < 2 ^ 63)
    (hdivided : bus.Divided) (htext : bus.ShowsText offs n)
    (hdenies : bus.Denies (byteAddr offs n)) (residue : Nat → BitVec 8) :
    ∃ rest bus', busReadString residue bus offs =
        .ok (bus.text offs n ++ residue n :: rest, bus') ∧
      (residue n = 0 → rest = [] ∧ bus'.status = .ok) := by
  obtain ⟨bus', hafter, hstatus, hread⟩ :=
    busReadString_denied hfree hsized htext hdenies.1 hdenies.2 residue
  by_cases hzero : residue n = 0
  · rw [if_pos hzero] at hread
    rw [hzero]
    exact ⟨[], bus', hread, fun _ => ⟨rfl, hstatus⟩⟩
  · obtain ⟨x, hrest⟩ := busReadStringLoop_returns hafter.unlocked
      (hafter.sized hsized) (hafter.divided hdivided) residue (2 ^ 32 - n) (n + 1)
    rw [if_neg hzero, hrest] at hread
    exact ⟨x.1, x.2, hread, fun h => absurd h hzero⟩

end Text

theorem string_eq (host : Host) {offs : Size} {x : List (BitVec 8) × Bus}
    (hread : busReadString host.residue m.bus offs = .ok x) :
    guestCall host m (.string offs) = .ok (x.1, m.withBus x.2) := by
  rw [guestCall, hread]
  rfl

theorem string_noResidue_iff {offs : Size} (hsized : m.bus.mmu.size.toNat < 2 ^ 63)
    (hdivided : m.bus.Divided) :
    m.NoResidue host (.string offs) ↔ m.Settled host (.string offs) := by
  constructor
  · intro hsame
    by_contra hunsettled
    simp only [Machine.Settled, not_or, not_not, Bool.not_eq_true] at hunsettled
    obtain ⟨hfree, n, htext, hdenies⟩ := hunsettled
    obtain ⟨rest₀, bus₀, hread₀, -⟩ :=
      busReadString_denies hfree hsized hdivided htext hdenies fun _ => 0
    obtain ⟨rest₁, bus₁, hread₁, -⟩ :=
      busReadString_denies hfree hsized hdivided htext hdenies fun _ => 1
    have hviews := hsame (fun _ => 0) (fun _ => 0) (fun _ => 1) (fun _ => 0)
    rw [string_eq (host.holding (fun _ => 0) fun _ => 0) hread₀,
      string_eq (host.holding (fun _ => 1) fun _ => 0) hread₁] at hviews
    injection hviews with hviews
    have hbytes := List.append_cancel_left (congrArg GuestView.bytes hviews)
    exact absurd (List.cons.inj hbytes).1 (by decide)
  · intro hsettled
    by_cases hlock : m.bus.mutex = true
    · refine noResidue_of_eq (.error .deadlock) fun residue buffer => ?_
      rw [guestCall, busReadString_locked hlock]
      rfl
    have hfree := Bool.not_eq_true _ ▸ hlock
    obtain ⟨n, htext, hstop⟩ := m.bus.exists_stop offs
    have hdenies : ¬ m.bus.Denies (byteAddr offs n) := fun hdenies =>
      hsettled.resolve_left hlock ⟨n, htext, hdenies⟩
    obtain ⟨x, hread⟩ := busReadString_settled hfree hsized hdivided htext hstop hdenies
    exact noResidue_of_eq _ fun residue buffer =>
      string_eq (host.holding residue buffer) (hread residue)

/-! ### The path of a file -/

theorem openFile_eq (host : Host) (path flags mode : Word) {x : List (BitVec 8) × Bus}
    (hread : busReadString host.residue m.bus (wide path) = .ok x) :
    guestCall host m (.openFile path flags mode) =
      if x.1.length > 256 then .error .outOfBounds
      else if x.2.status ≠ .ok then .ok ([], m.withBus x.2)
      else .ok ([], ((m.withBus x.2).call (.openFile (x.1.takeWhile (· ≠ 0)) flags mode)).setA0
        (host.openFile (x.1.takeWhile (· ≠ 0)) flags mode)) := by
  rw [guestCall, sysOpen, hread, Transition.ok_bind]
  simp only
  split_ifs
  · rfl
  · rfl
  · rfl

/-- Bytes that are not 0 are a part of the path. -/
theorem text_takeWhile {bus : Bus} {offs : Size} {n : Nat} (htext : bus.ShowsText offs n)
    (rest : List (BitVec 8)) : (bus.text offs n ++ rest).takeWhile (· ≠ 0) =
      bus.text offs n ++ rest.takeWhile (· ≠ 0) := by
  apply List.takeWhile_append_of_pos
  intro c hc
  obtain ⟨j, hj, rfl⟩ := List.mem_map.mp hc
  exact decide_eq_true (htext j (List.mem_range.mp hj)).2

/-- A byte that is not 0 behind the text shows in what the host is given. -/
theorem openFile_calls (host : Host) {path flags mode : Word} {n : Nat} {c : BitVec 8}
    {rest : List (BitVec 8)} {bus : Bus} {r : List (BitVec 8) × Machine}
    (htext : m.bus.ShowsText (wide path) n) (hc : c ≠ 0)
    (hread : busReadString host.residue m.bus (wide path) =
      .ok (m.bus.text (wide path) n ++ c :: rest, bus))
    (h : guestCall host m (.openFile path flags mode) = .ok r) :
    r.2.calls ≠ m.calls ++ [.openFile (m.bus.text (wide path) n) flags mode] := by
  rw [openFile_eq host path flags mode hread] at h
  intro hcalls
  split_ifs at h
  · cases h
    have hlength := congrArg List.length hcalls
    rw [List.length_append, List.length_singleton] at hlength
    exact absurd hlength (Nat.ne_of_lt (Nat.lt_succ_self _))
  · cases h
    have hlast := List.append_cancel_left hcalls
    injection hlast with hlast
    injection hlast with hpath
    have htake : (c :: rest).takeWhile (· ≠ 0) = c :: rest.takeWhile (· ≠ 0) :=
      List.takeWhile_cons_of_pos (decide_eq_true hc)
    rw [text_takeWhile htext, htake] at hpath
    have hlength := congrArg List.length hpath
    rw [List.length_append, List.length_cons] at hlength
    omega

/-- A zero on the stack ends the path at the denied byte, any other byte goes on with it. -/
theorem openFile_denied {path flags mode : Word} {n : Nat} (hfree : m.bus.mutex = false)
    (hsized : m.bus.mmu.size.toNat < 2 ^ 63) (hdivided : m.bus.Divided) (hn : n < 256)
    (htext : m.bus.ShowsText (wide path) n) (hdenies : m.bus.Denies (byteAddr (wide path) n)) :
    ¬ m.NoResidue host (.openFile path flags mode) := by
  intro hsame
  obtain ⟨rest₀, bus₀, hread₀, hzero⟩ :=
    busReadString_denies hfree hsized hdivided htext hdenies fun _ => 0
  obtain ⟨rest₁, bus₁, hread₁, -⟩ :=
    busReadString_denies hfree hsized hdivided htext hdenies fun _ => 1
  obtain ⟨rfl, hstatus⟩ := hzero rfl
  have hlength : ¬ (m.bus.text (wide path) n ++ [0]).length > 256 := by
    rw [List.length_append, Bus.text_length, List.length_singleton]
    omega
  have hviews := hsame (fun _ => 0) (fun _ => 0) (fun _ => 1) (fun _ => 0)
  rw [openFile_eq (host.holding (fun _ => 0) fun _ => 0) path flags mode hread₀, if_neg hlength,
    if_neg (not_not_intro hstatus)] at hviews
  obtain ⟨r, hr, hview⟩ := Transition.exists_of_map_ok hviews.symm
  have hcalls := congrArg GuestView.calls hview
  have hpath : (m.bus.text (wide path) n ++ [0]).takeWhile (· ≠ 0) =
      m.bus.text (wide path) n := by
    rw [text_takeWhile htext]
    exact List.append_nil _
  refine openFile_calls (host.holding (fun _ => 1) fun _ => 0) htext
    (show (1 : BitVec 8) ≠ 0 by decide) hread₁ hr ?_
  refine Eq.trans hcalls ?_
  show m.calls ++ [HostCall.openFile _ flags mode] = _
  rw [hpath]

theorem openFile_locked {path flags mode : Word} (hlock : m.bus.mutex = true) :
    m.NoResidue host (.openFile path flags mode) := by
  refine noResidue_of_eq (.error .deadlock) fun residue buffer => ?_
  rw [guestCall, sysOpen_locked hlock]
  rfl

/-- A denied byte behind the buffer comes too late to show. -/
theorem openFile_overrun {path flags mode : Word} {n : Nat} (hfree : m.bus.mutex = false)
    (hsized : m.bus.mmu.size.toNat < 2 ^ 63) (hdivided : m.bus.Divided) (hn : ¬ n < 256)
    (htext : m.bus.ShowsText (wide path) n) (hdenies : m.bus.Denies (byteAddr (wide path) n)) :
    m.NoResidue host (.openFile path flags mode) := by
  refine noResidue_of_eq (.error .outOfBounds) fun residue buffer => ?_
  obtain ⟨rest, bus, hread, -⟩ := busReadString_denies hfree hsized hdivided htext hdenies residue
  have hlength : (m.bus.text (wide path) n ++ residue n :: rest).length > 256 := by
    rw [List.length_append, Bus.text_length, List.length_cons]
    omega
  rw [openFile_eq (host.holding residue buffer) path flags mode hread, if_pos hlength]

theorem openFile_noResidue_iff {path flags mode : Word} (hsized : m.bus.mmu.size.toNat < 2 ^ 63)
    (hdivided : m.bus.Divided) :
    m.NoResidue host (.openFile path flags mode) ↔ m.Settled host (.openFile path flags mode) := by
  constructor
  · intro hsame
    by_contra hunsettled
    simp only [Machine.Settled, not_or, not_not, Bool.not_eq_true] at hunsettled
    obtain ⟨hfree, n, hn, htext, hdenies⟩ := hunsettled
    exact openFile_denied hfree hsized hdivided hn htext hdenies hsame
  · intro hsettled
    by_cases hlock : m.bus.mutex = true
    · exact openFile_locked hlock
    have hfree := Bool.not_eq_true _ ▸ hlock
    obtain ⟨n, htext, hstop⟩ := m.bus.exists_stop (wide path)
    by_cases hdenies : m.bus.Denies (byteAddr (wide path) n)
    · have hn : ¬ n < 256 := fun hn => hsettled.resolve_left hlock ⟨n, hn, htext, hdenies⟩
      exact openFile_overrun hfree hsized hdivided hn htext hdenies
    · obtain ⟨x, hread⟩ := busReadString_settled hfree hsized hdivided htext hstop hdenies
      refine noResidue_of_eq (guestCall host m (.openFile path flags mode)) fun residue buffer => ?_
      rw [openFile_eq (host.holding residue buffer) path flags mode (hread residue),
        openFile_eq host path flags mode (hread host.residue)]
      rfl

end Cases

/-! ### Blocks -/

section Blocks

variable {m : Machine} {host : Host} {ram csr : DeviceState} {mutex : Bool} {status : BusStatus}
  {mmu : Mmu} {a : Size} {fd addr n : Word}

theorem emulatorBus_atRam_iff :
    (emulatorBus ram csr mutex status mmu).AtRam a ↔ (ramDevice .ready).covers a = true := by
  constructor
  · rintro ⟨i, dev, hroute, hdriver⟩
    by_contra hcovers
    rw [Bool.not_eq_true] at hcovers
    cases hcsr : (csrMmioDevice .ready).covers a with
    | true =>
        rw [← ((emulatorBus_csr hcovers hcsr).unique hroute).2] at hdriver
        cases hdriver
    | false => exact hroute.mapped (emulatorBus_unmapped hcovers hcsr)
  · intro hcovers
    exact ⟨0, ramDevice ram, emulatorBus_ram hcovers, rfl⟩

theorem emulatorBus_atCsr_iff :
    (emulatorBus ram csr mutex status mmu).AtCsr a ↔
      (ramDevice .ready).covers a = false ∧ (csrMmioDevice .ready).covers a = true := by
  constructor
  · rintro ⟨i, dev, hroute, hdriver⟩
    cases hram : (ramDevice .ready).covers a with
    | true =>
        rw [← ((emulatorBus_ram hram).unique hroute).2] at hdriver
        cases hdriver
    | false =>
        refine ⟨rfl, ?_⟩
        by_contra hcsr
        rw [Bool.not_eq_true] at hcsr
        exact hroute.mapped (emulatorBus_unmapped hram hcsr)
  · rintro ⟨hram, hcsr⟩
    exact ⟨1, csrMmioDevice csr, emulatorBus_csr hram hcsr, rfl⟩

theorem emulatorBus_takesBlocks_iff :
    (emulatorBus ram csr mutex status mmu).TakesBlocks a ↔
      (ramDevice .ready).covers a = true ∧ ram = .ready := by
  constructor
  · rintro ⟨i, dev, hroute, hdriver, hstate⟩
    have hram := emulatorBus_atRam_iff.mp ⟨i, dev, hroute, hdriver⟩
    rw [← ((emulatorBus_ram hram).unique hroute).2] at hstate
    exact ⟨hram, hstate⟩
  · rintro ⟨hram, rfl⟩
    exact ⟨0, ramDevice .ready, emulatorBus_ram hram, rfl, rfl⟩

/-! ### A write -/

/-- What the call shows when the host is given these bytes. -/
def Machine.writeView (m : Machine) (host : Host) (fd : Word) (bytes : List (BitVec 8)) :
    GuestView :=
  { bytes := []
    core := { (m.setA0 ((host.write fd bytes).setWidth 32)).core with aluOut := 0 }
    data := m.bus.mmu.data
    perm := m.bus.mmu.perm
    calls := m.calls ++ [.write fd bytes] }

theorem write_view (hfd : fd ≤ 2) (hn : n < 256) {count : Size} {out : Nat → BitVec 8}
    {bus : Bus} (hread : busReadMultiple m.bus (wide addr) host.buffer (wide n) .byte =
      .ok (count, out, bus)) :
    ∃ r, guestCall host m (.write fd addr n) = .ok r ∧
      guestView r = m.writeView host fd ((List.range n.toNat).map out) := by
  obtain ⟨state, hmmu⟩ := (busReadMultiple_frame hread).memory
  rw [guestCall, sysWrite_eq hfd hn, hread]
  refine ⟨_, rfl, ?_⟩
  show GuestView.mk _ _ bus.mmu.data bus.mmu.perm _ = _
  rw [hmmu]
  rfl

/-- Bytes that are not read are what the buffer held. -/
theorem blockRead_unfilled (hne : n ≠ 0) (hsized : mmu.size.toNat < 2 ^ 63)
    (hcsr : ¬ (emulatorBus ram csr false status mmu).AtCsr (wide addr))
    (hram : ¬ ((emulatorBus ram csr false status mmu).AtRam (wide addr) ∧
      mmu.Allows Perm.Readable addr n.toNat)) (buf : Nat → BitVec 8) :
    ∃ count bus, busReadMultiple (emulatorBus ram csr false status mmu) (wide addr) buf (wide n)
      .byte = .ok (count, buf, bus) := by
  rw [emulatorBus_atRam_iff] at hram
  rw [emulatorBus_atCsr_iff] at hcsr
  cases hcovers : (ramDevice .ready).covers (wide addr) with
  | true =>
      have hrefuses : ¬ mmu.Accepts ((wide addr).setWidth 32) (wide n * widthMult .byte)
          mpermRead := by
        rw [setWidth_wide, wide_mul_byte, ← Mmu.allows_read_iff hsized (count_lt n), wide_toNat]
        exact fun hallows => hram ⟨hcovers, hallows⟩
      obtain ⟨state, hread⟩ := blockRead_refused ram csr status buf hcovers hrefuses
      rw [if_neg (mt wide_eq_zero_iff.mp hne)] at hread
      exact ⟨_, _, hread⟩
  | false =>
      have hnone : (csrMmioDevice .ready).covers (wide addr) = false := by
        by_contra hcovers'
        rw [Bool.not_eq_false] at hcovers'
        exact hcsr ⟨hcovers, hcovers'⟩
      exact ⟨_, _, blockRead_unmapped ram csr status buf hcovers hnone⟩

/-- Bytes that are read are the same for all that the buffer may hold. -/
theorem blockRead_filled (hsized : mmu.size.toNat < 2 ^ 63)
    (hcsr : ¬ (emulatorBus ram csr false status mmu).AtCsr (wide addr))
    (hread : n = 0 ∨ (emulatorBus ram csr false status mmu).AtRam (wide addr) ∧
      mmu.Allows Perm.Readable addr n.toNat) (buf : Nat → BitVec 8) :
    ∃ count out bus, busReadMultiple (emulatorBus ram csr false status mmu) (wide addr) buf (wide n)
        .byte = .ok (count, out, bus) ∧
      (List.range n.toNat).map out = (List.range n.toNat).map (mmu.byteFrom addr) := by
  rw [emulatorBus_atCsr_iff] at hcsr
  rcases hread with rfl | ⟨hram, hallows⟩
  · have hnone : (csrMmioDevice .ready).covers (wide addr) = false := by
      by_contra hcovers
      rw [Bool.not_eq_false] at hcovers
      exact hcsr ⟨ram_not_csr hcovers, hcovers⟩
    have hlets : mmu.LetsRange Perm.Readable addr (0 : Word).toNat := letsRange_empty
    obtain ⟨count, out, bus, hread, -⟩ := blockRead_lets ram csr status buf hsized hlets hnone
    exact ⟨count, out, bus, hread, rfl⟩
  · have haccepts : mmu.Accepts ((wide addr).setWidth 32) (wide n * widthMult .byte)
        mpermRead := by
      rw [setWidth_wide, wide_mul_byte, ← Mmu.allows_read_iff hsized (count_lt n), wide_toNat]
      exact hallows
    refine ⟨_, _, _, blockRead_accepted ram csr status buf (emulatorBus_atRam_iff.mp hram)
      haccepts, ?_⟩
    apply List.map_congr_left
    intro i hi
    rw [List.mem_range] at hi
    rw [wide_mul_byte, wide_toNat, setWidth_wide, Span.copy_of_mem (Nat.zero_le i) hi, Nat.sub_zero]

/-- Bytes that are not read reach the host as what the buffer held. -/
theorem write_unfilled (hbus : m.bus = emulatorBus ram csr false status mmu)
    (hsized : mmu.size.toNat < 2 ^ 63) (hfd : fd ≤ 2) (hn : n < 256) (hne : n ≠ 0)
    (hcsr : ¬ m.bus.AtCsr (wide addr))
    (hram : ¬ (m.bus.AtRam (wide addr) ∧ mmu.Allows Perm.Readable addr n.toNat)) :
    ¬ m.NoResidue host (.write fd addr n) := by
  have hcall : ∀ c : BitVec 8, ∃ r,
      guestCall (host.holding (fun _ => 0) fun _ => c) m (.write fd addr n) = .ok r ∧
        guestView r = m.writeView host fd ((List.range n.toNat).map fun _ => c) := by
    intro c
    rw [hbus] at hcsr hram
    obtain ⟨count, bus, hread⟩ := blockRead_unfilled hne hsized hcsr hram fun _ => c
    rw [← hbus] at hread
    exact @write_view m (host.holding (fun _ => 0) fun _ => c) fd addr n hfd hn count _ bus hread
  obtain ⟨r₀, hr₀, hview₀⟩ := hcall 0
  obtain ⟨r₁, hr₁, hview₁⟩ := hcall 1
  intro hsame
  have hviews := hsame (fun _ => 0) (fun _ => 0) (fun _ => 0) (fun _ => 1)
  rw [hr₀, hr₁] at hviews
  have hwritten : m.writeView host fd ((List.range n.toNat).map fun _ => 0) =
      m.writeView host fd ((List.range n.toNat).map fun _ => 1) := by
    rw [← hview₀, ← hview₁]
    exact Except.ok.inj hviews
  have hlast := List.append_cancel_left (congrArg GuestView.calls hwritten)
  injection hlast with hlast
  injection hlast with _ hbytes
  have hfirst : (0 : BitVec 8) = 1 :=
    List.map_inj_left.mp hbytes 0 (List.mem_range.mpr (pos_of_ne_zero hne))
  exact absurd hfirst (by decide)

theorem write_filled (hbus : m.bus = emulatorBus ram csr false status mmu)
    (hsized : mmu.size.toNat < 2 ^ 63) (hfd : fd ≤ 2) (hn : n < 256)
    (hcsr : ¬ m.bus.AtCsr (wide addr))
    (hread : n = 0 ∨ m.bus.AtRam (wide addr) ∧ mmu.Allows Perm.Readable addr n.toNat) :
    m.NoResidue host (.write fd addr n) := by
  rw [hbus] at hcsr hread
  refine noResidue_of_view (m.writeView host fd ((List.range n.toNat).map (mmu.byteFrom addr)))
    fun residue buffer => ?_
  obtain ⟨count, out, bus, hread, hbytes⟩ := blockRead_filled hsized hcsr hread buffer
  rw [← hbus] at hread
  rw [← hbytes]
  exact @write_view m (host.holding residue buffer) fd addr n hfd hn count out bus hread

theorem write_asserted (hguards : ¬ (fd ≤ 2 ∧ n < 256)) :
    m.NoResidue host (.write fd addr n) := by
  refine noResidue_of_eq (.error .assertion) fun residue buffer => ?_
  rw [guestCall, sysWrite_asserts hguards]
  rfl

theorem write_locked (hfd : fd ≤ 2) (hn : n < 256) (hlock : m.bus.mutex = true) :
    m.NoResidue host (.write fd addr n) := by
  refine noResidue_of_eq (.error .deadlock) fun residue buffer => ?_
  rw [guestCall, sysWrite_eq hfd hn, busReadMultiple_locked hlock]
  rfl

theorem write_unhandled (hbus : m.bus = emulatorBus ram csr false status mmu) (hfd : fd ≤ 2)
    (hn : n < 256) (hcsr : m.bus.AtCsr (wide addr)) : m.NoResidue host (.write fd addr n) := by
  refine noResidue_of_eq (.error .nullHandler) fun residue buffer => ?_
  rw [hbus] at hcsr
  obtain ⟨hcovers, hcovers'⟩ := emulatorBus_atCsr_iff.mp hcsr
  rw [guestCall, sysWrite_eq hfd hn, hbus, blockRead_csr ram csr status _ hcovers hcovers']
  rfl

theorem write_noResidue_iff (hbus : m.bus = emulatorBus ram csr mutex status mmu)
    (hsized : mmu.size.toNat < 2 ^ 63) :
    m.NoResidue host (.write fd addr n) ↔ m.Settled host (.write fd addr n) := by
  have hlocked : m.bus.mutex = mutex := congrArg Bus.mutex hbus
  have hmmu : m.bus.mmu = mmu := congrArg Bus.mmu hbus
  simp only [Machine.Settled, hmmu]
  by_cases hguards : fd ≤ 2 ∧ n < 256
  swap
  · exact iff_of_true (write_asserted hguards) (Or.inr (Or.inl hguards))
  obtain ⟨hfd, hn⟩ := hguards
  by_cases hlock : m.bus.mutex = true
  · exact iff_of_true (write_locked hfd hn hlock) (Or.inl hlock)
  obtain rfl : mutex = false := hlocked.symm.trans (Bool.not_eq_true _ ▸ hlock)
  by_cases hcsr : m.bus.AtCsr (wide addr)
  · exact iff_of_true (write_unhandled hbus hfd hn hcsr)
      (Or.inr (Or.inr (Or.inr (Or.inl hcsr))))
  constructor
  · intro hsame
    by_contra hunsettled
    simp only [not_or] at hunsettled
    obtain ⟨-, -, hne, -, hram⟩ := hunsettled
    exact write_unfilled hbus hsized hfd hn hne hcsr hram hsame
  · intro hsettled
    have hread := (hsettled.resolve_left hlock).resolve_left (not_not_intro ⟨hfd, hn⟩)
    exact write_filled hbus hsized hfd hn hcsr (hread.imp_right fun h => h.resolve_left hcsr)

/-! ### An `fstat` -/

/-- What the memory is after a block write that returns. -/
def blockMemory (x : Size × Bus) : (Nat → BitVec 8) × (Nat → Perm) :=
  (x.2.mmu.data, x.2.mmu.perm)

/-- What the call shows behind its block write. -/
def Machine.fstatView (m : Machine) (host : Host) (fd : Word)
    (y : (Nat → BitVec 8) × (Nat → Perm)) : GuestView :=
  { bytes := []
    core := { (m.setA0 (host.fstat fd host.buffer).2).core with aluOut := 0 }
    data := y.1
    perm := y.2
    calls := m.calls ++ [.fstat fd] }

theorem fstat_view (host : Host) (fd addr : Word) :
    (guestCall host m (.fstat fd addr)).map guestView =
      ((busWriteMultiple m.bus (wide addr) (host.fstat fd host.buffer).1 112 .byte).map
        blockMemory).map (m.fstatView host fd) := by
  rw [guestCall, sysFstat]
  simp only
  have hbus : ((m.call (.fstat fd)).setA0 (host.fstat fd host.buffer).2).bus = m.bus := rfl
  rw [hbus]
  cases busWriteMultiple m.bus (wide addr) (host.fstat fd host.buffer).1 112 .byte with
  | error e => rfl
  | ok x => rfl

/-- A block that is taken. -/
theorem fstatBlock_taken (hsized : mmu.size.toNat < 2 ^ 63)
    (hram : (ramDevice .ready).covers (wide addr) = true)
    (hallows : mmu.Allows Perm.Writable addr 112) (buf : Nat → BitVec 8) :
    (busWriteMultiple (emulatorBus .ready csr false status mmu) (wide addr) buf 112 .byte).map
      blockMemory = .ok ((mmu.written buf addr 112).data, (mmu.written buf addr 112).perm) := by
  have hbytes : (112 : Size) * widthMult .byte = 112 := rfl
  have hlt : (112 : Size).toNat < 2 ^ 63 := by decide
  have haccepts : mmu.Accepts ((wide addr).setWidth 32) (112 * widthMult .byte) mpermWrite := by
    rw [setWidth_wide, hbytes]
    exact (Mmu.allows_write_iff hsized hlt).mp hallows
  rw [blockWrite_accepted csr status buf hram hlt haccepts hbytes, setWidth_wide, hbytes]
  rfl

/-- Any other block leaves the memory alone, or is not written in one way for all that it
may hold. -/
theorem fstatBlock_kept (hsized : mmu.size.toNat < 2 ^ 63)
    (hkept : mutex = true ∨ ¬ ((emulatorBus ram csr mutex status mmu).TakesBlocks (wide addr) ∧
      mmu.Allows Perm.Writable addr 112)) :
    ∃ y, ∀ buf, (busWriteMultiple (emulatorBus ram csr mutex status mmu) (wide addr) buf 112
      .byte).map blockMemory = y := by
  rw [emulatorBus_takesBlocks_iff] at hkept
  cases mutex with
  | true =>
      refine ⟨.error .deadlock, fun buf => ?_⟩
      rw [busWriteMultiple_locked rfl]
      rfl
  | false =>
      replace hkept := hkept.resolve_left Bool.false_ne_true
      cases hram : (ramDevice .ready).covers (wide addr) with
      | true =>
          by_cases hready : ram = .ready
          · subst hready
            refine ⟨.ok (mmu.data, mmu.perm), fun buf => ?_⟩
            have hlt : ((112 : Size) * widthMult .byte).toNat < 2 ^ 63 := by decide
            have hrefuses : ¬ mmu.Accepts ((wide addr).setWidth 32) (112 * widthMult .byte)
                mpermWrite := by
              rw [setWidth_wide, ← Mmu.allows_write_iff hsized hlt]
              exact fun hallows => hkept ⟨⟨hram, rfl⟩, hallows⟩
            obtain ⟨state, hwrite⟩ := blockWrite_refused csr status buf hram hlt hrefuses
            rw [hwrite, if_neg (by decide)]
            rfl
          · refine ⟨.error .assertion, fun buf => ?_⟩
            rw [blockWrite_notReady ram csr status buf hram hready]
            rfl
      | false =>
          cases hcsr : (csrMmioDevice .ready).covers (wide addr) with
          | true =>
              refine ⟨if csr = .ready then .error .nullHandler else .error .assertion,
                fun buf => ?_⟩
              rw [blockWrite_csr ram csr status buf hram hcsr]
              split_ifs
              · rfl
              · rfl
          | false =>
              refine ⟨.ok (mmu.data, mmu.perm), fun buf => ?_⟩
              rw [blockWrite_unmapped ram csr status buf hram hcsr]
              rfl

section Filled

variable {stat : Nat → BitVec 8} {r : Word}

/-- The call as a function of what the buffer holds. -/
theorem fstat_filled (addr : Word)
    (hstat : ∀ buf, host.fstat fd buf = (if r = -1 then buf else Span.copy 0 144 stat buf, r))
    (residue buffer : Nat → BitVec 8) :
    (guestCall (host.holding residue buffer) m (.fstat fd addr)).map guestView =
      ((busWriteMultiple m.bus (wide addr)
        (if r = -1 then buffer else Span.copy 0 144 stat buffer) 112 .byte).map blockMemory).map
          (m.fstatView host fd) := by
  have hbuffer : (host.holding residue buffer).fstat fd (host.holding residue buffer).buffer =
      (if r = -1 then buffer else Span.copy 0 144 stat buffer, r) := hstat buffer
  have hr : ((host.holding residue buffer).fstat fd (host.holding residue buffer).buffer).2 =
      (host.fstat fd host.buffer).2 := by
    rw [hbuffer, hstat]
  have hview : m.fstatView (host.holding residue buffer) fd = m.fstatView host fd := by
    unfold Machine.fstatView
    rw [hr]
  rw [fstat_view, hbuffer, hview]

/-- A call that fails writes what the buffer held. -/
theorem fstat_failed (hbus : m.bus = emulatorBus .ready csr false status mmu)
    (hsized : mmu.size.toNat < 2 ^ 63)
    (hstat : ∀ buf, host.fstat fd buf = (if r = -1 then buf else Span.copy 0 144 stat buf, r))
    (hr : r = -1) (hram : (ramDevice .ready).covers (wide addr) = true)
    (hallows : mmu.Allows Perm.Writable addr 112) : ¬ m.NoResidue host (.fstat fd addr) := by
  intro hsame
  have hviews := hsame (fun _ => 0) (fun _ => 0) (fun _ => 0) (fun _ => 1)
  rw [fstat_filled addr hstat, fstat_filled addr hstat, if_pos hr, if_pos hr, hbus,
    fstatBlock_taken hsized hram hallows, fstatBlock_taken hsized hram hallows] at hviews
  have hdata := congrArg GuestView.data (Except.ok.inj hviews)
  have hlt : (112 : Size).toNat < 2 ^ 63 := by decide
  have hbyte : ∀ c : BitVec 8,
      (mmu.written (fun _ => c) addr 112).dataAt (addr.toNat + 0) = c := fun c =>
    (Mmu.written_holding (fun _ => c) hlt hallows.1).data 0 (by decide)
  have hfirst : (0 : BitVec 8) = 1 :=
    (hbyte 0).symm.trans (Eq.trans (congrFun hdata _) (hbyte 1))
  exact absurd hfirst (by decide)

/-- A call that does not fail fills more of the buffer than it writes. -/
theorem fstat_succeeded (hbus : m.bus = emulatorBus .ready csr false status mmu)
    (hsized : mmu.size.toNat < 2 ^ 63)
    (hstat : ∀ buf, host.fstat fd buf = (if r = -1 then buf else Span.copy 0 144 stat buf, r))
    (hr : r ≠ -1) (hram : (ramDevice .ready).covers (wide addr) = true)
    (hallows : mmu.Allows Perm.Writable addr 112) : m.NoResidue host (.fstat fd addr) := by
  have hwritten : ∀ buf, mmu.written (Span.copy 0 144 stat buf) addr 112 =
      mmu.written stat addr 112 := by
    intro buf
    apply Mmu.written_congr
    intro i hi
    have hcount : (112 : Size).toNat = 112 := rfl
    rw [Span.copy_of_mem (Nat.zero_le i) (by omega), Nat.sub_zero]
  intro residue buffer residue' buffer'
  rw [fstat_filled addr hstat, fstat_filled addr hstat, if_neg hr, if_neg hr, hbus,
    fstatBlock_taken hsized hram hallows, fstatBlock_taken hsized hram hallows, hwritten, hwritten]

end Filled

theorem fstat_noResidue_iff (hbus : m.bus = emulatorBus ram csr mutex status mmu)
    (hsized : mmu.size.toNat < 2 ^ 63) (hfstat : host.FstatFills) :
    m.NoResidue host (.fstat fd addr) ↔ m.Settled host (.fstat fd addr) := by
  obtain ⟨stat, r, hstat⟩ := hfstat fd
  have hsettled_iff : m.Settled host (.fstat fd addr) ↔ mutex = true ∨ r ≠ -1 ∨
      ¬ ((emulatorBus ram csr mutex status mmu).TakesBlocks (wide addr) ∧
        mmu.Allows Perm.Writable addr 112) := by
    simp only [Machine.Settled]
    rw [hstat, hbus]
    exact Iff.rfl
  rw [hsettled_iff]
  by_cases htakes : mutex = false ∧ (emulatorBus ram csr mutex status mmu).TakesBlocks (wide addr) ∧
      mmu.Allows Perm.Writable addr 112
  · obtain ⟨rfl, htakes, hallows⟩ := htakes
    obtain ⟨hram, rfl⟩ := emulatorBus_takesBlocks_iff.mp htakes
    have hboth : ¬ ¬ ((emulatorBus .ready csr false status mmu).TakesBlocks (wide addr) ∧
        mmu.Allows Perm.Writable addr 112) := not_not_intro ⟨htakes, hallows⟩
    constructor
    · intro hsame
      refine Or.inr (Or.inl ?_)
      intro hr
      exact fstat_failed hbus hsized hstat hr hram hallows hsame
    · intro hsettled
      have hr := (hsettled.resolve_left Bool.false_ne_true).resolve_right hboth
      exact fstat_succeeded hbus hsized hstat hr hram hallows
  · have hkept : mutex = true ∨ ¬ ((emulatorBus ram csr mutex status mmu).TakesBlocks (wide addr) ∧
        mmu.Allows Perm.Writable addr 112) := by
      cases mutex with
      | true => exact Or.inl rfl
      | false => exact Or.inr fun hboth => htakes ⟨rfl, hboth⟩
    obtain ⟨y, hy⟩ := @fstatBlock_kept ram csr mutex status mmu addr hsized hkept
    refine iff_of_true ?_ (hkept.imp_right Or.inr)
    intro residue buffer residue' buffer'
    rw [fstat_filled addr hstat, fstat_filled addr hstat, hbus, hy, hy]

end Blocks

/-- Which calls show nothing of the unset storage, in every state of the emulator's bus. -/
theorem noResidue_iff {m : Machine} {host : Host} {ram csr : DeviceState} {mutex : Bool}
    {status : BusStatus} {mmu : Mmu} (hbus : m.bus = emulatorBus ram csr mutex status mmu)
    (hsized : mmu.size.toNat < 2 ^ 63) (hfstat : host.FstatFills) (call : GuestCall) :
    m.NoResidue host call ↔ m.Settled host call := by
  have hmmu : m.bus.mmu.size.toNat < 2 ^ 63 := by
    rw [hbus]
    exact hsized
  have hdivided : m.bus.Divided := by
    rw [hbus]
    exact emulatorBus_divided
  cases call with
  | load rd addr => exact load_noResidue_iff hmmu hdivided
  | string offs => exact string_noResidue_iff hmmu hdivided
  | fstat fd addr => exact fstat_noResidue_iff hbus hsized hfstat
  | write fd addr n => exact write_noResidue_iff hbus hsized
  | openFile path flags mode => exact openFile_noResidue_iff hmmu hdivided

/-- A host that knows the standard descriptors. -/
def statHost : Host :=
  { quietHost with
    fstat := fun fd buf => if fd ≤ 2 then (Span.copy 0 144 (fun _ => 0) buf, 0) else (buf, -1) }

theorem statHost_fills : statHost.FstatFills := by
  intro fd
  by_cases hfd : fd ≤ 2
  · refine ⟨fun _ => 0, 0, fun buf => ?_⟩
    rw [if_neg (show ¬ (0 : Word) = -1 by decide)]
    exact if_pos hfd
  · refine ⟨fun _ => 0, -1, fun buf => ?_⟩
    rw [if_pos rfl]
    exact if_neg hfd

/-- A load of a byte that the guest has stored. -/
theorem storedLoad_noResidue :
    (callingMachine textMmu).NoResidue statHost (.load 5 0x10000) := by
  have hshows := textMmu_shows (show 0 < 3 by omega)
  exact (noResidue_iff (show (callingMachine textMmu).bus = emulatorBus .ready .ready false .ok
    textMmu from rfl) (by decide) statHost_fills (.load 5 0x10000)).mpr
    (Or.inr (Or.inr fun hdenies => hdenies.2 hshows.2))

/-- Each of the five calls on bytes that the guest has never stored, the `fstat` with a
descriptor that the host does not know. -/
theorem rawMmu_residue :
    ¬ (callingMachine rawMmu).NoResidue statHost (.load 5 0x10000) ∧
    ¬ (callingMachine rawMmu).NoResidue statHost (.string 0x10000) ∧
    ¬ (callingMachine rawMmu).NoResidue statHost (.fstat 3 0x10000) ∧
    ¬ (callingMachine rawMmu).NoResidue statHost (.write 1 0x10000 2) ∧
    ¬ (callingMachine rawMmu).NoResidue statHost (.openFile 0x10000 0 0) := by
  have hbus : (callingMachine rawMmu).bus = emulatorBus .ready .ready false .ok rawMmu := rfl
  have hunlocked : ¬ (callingMachine rawMmu).bus.mutex = true := Bool.false_ne_true
  have hcovers : (ramDevice .ready).covers (wide 0x10000) = true := by decide
  have hram : (callingMachine rawMmu).bus.AtRam (wide 0x10000) :=
    ⟨0, ramDevice .ready, emulatorBus_ram hcovers, rfl⟩
  have hunreadable : ¬ Perm.Readable (mpermWrite ||| mpermRaw) := by decide
  have hdenies : (callingMachine rawMmu).bus.Denies (wide 0x10000) :=
    ⟨hram, fun hlets => hunreadable hlets.2.2⟩
  have htext : (callingMachine rawMmu).bus.ShowsText (wide 0x10000) 0 :=
    fun j hj => absurd hj (Nat.not_lt_zero j)
  have haddr : byteAddr (wide 0x10000) 0 = wide 0x10000 := rfl
  have hdivided : (callingMachine rawMmu).bus.Divided := emulatorBus_divided
  refine ⟨?_, ?_, ?_, ?_, ?_⟩
  · rw [load_noResidue_iff (by decide) hdivided]
    intro hsettled
    exact ((hsettled.resolve_left hunlocked).resolve_left (by decide)) hdenies
  · rw [string_noResidue_iff (by decide) hdivided]
    intro hsettled
    exact hsettled.resolve_left hunlocked ⟨0, htext, hdenies⟩
  · rw [fstat_noResidue_iff hbus (by decide) statHost_fills]
    intro hsettled
    refine ((hsettled.resolve_left hunlocked).resolve_left (fun hne => hne rfl)) ⟨?_, ?_⟩
    · exact ⟨0, ramDevice .ready, emulatorBus_ram hcovers, rfl, rfl⟩
    · refine ⟨⟨by decide, by decide⟩, fun i _ => ?_⟩
      exact (show Perm.Writable (mpermWrite ||| mpermRaw) by decide)
  · rw [write_noResidue_iff hbus (by decide)]
    intro hsettled
    have hread := ((hsettled.resolve_left hunlocked).resolve_left (by decide)).resolve_left
      (by decide)
    rcases hread with hcsr | ⟨-, hallows⟩
    · rw [hbus, emulatorBus_atCsr_iff, hcovers] at hcsr
      cases hcsr.1
    · exact hunreadable (hallows.2 0 (by decide))
  · rw [openFile_noResidue_iff (by decide) hdivided]
    intro hsettled
    exact hsettled.resolve_left hunlocked ⟨0, by omega, htext, hdenies⟩

end CRiscV
