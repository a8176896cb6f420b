/-
Descriptors of the host: what `sys_read` and `sys_write` move through their buffers.

`sys_read` gives the guest the whole buffer, also the part that the host has not filled.
-/
import CRiscV.Emulator.Syscall
import CRiscV.Refinement.Break
import CRiscV.Refinement.Elements
import CRiscV.Refinement.Trap

namespace CRiscV

/-- Every byte of `[v, v + n)` is in RAM, and the memory lets it. -/
structure Mmu.LetsRange (mmu : Mmu) (P : Perm → Prop) (v : Word) (n : Nat) : Prop where
  window : InWindow (wide v) n
  lets : ∀ i < n, mmu.Lets P (v.toNat + i)

section Range

variable {mmu : Mmu} {P : Perm → Prop} {v n : Word}

/-- A count of bytes is their number. -/
theorem wide_mul_byte (n : Word) : wide n * widthMult .byte = wide n := BitVec.mul_one (wide n)

theorem count_lt (n : Word) : (wide n).toNat < 2 ^ 63 := by
  have hlt := wide_lt n
  omega

theorem Mmu.LetsRange.covers (h : mmu.LetsRange P v n.toNat) (hne : n ≠ 0) :
    (ramDevice .ready).covers (wide v) = true := by
  have hpos := pos_of_ne_zero hne
  have hfirst := h.window 0 hpos
  rw [ramDevice_covers_range]
  omega

theorem Mmu.LetsRange.allows (h : mmu.LetsRange P v n.toNat) (hne : n ≠ 0) :
    mmu.Allows P v (wide n).toNat := by
  have hpos := pos_of_ne_zero hne
  have hfirst := h.lets 0 hpos
  have hlast := h.lets (n.toNat - 1) (by omega)
  unfold Mmu.Lets at hfirst hlast
  rw [wide_toNat]
  exact ⟨⟨by omega, by omega⟩, fun i hi => (h.lets i hi).2.2⟩

theorem Mmu.LetsRange.accepts_write (h : mmu.LetsRange Perm.Writable v n.toNat)
    (hsized : mmu.size.toNat < 2 ^ 63) (hne : n ≠ 0) :
    mmu.Accepts ((wide v).setWidth 32) (wide n * widthMult .byte) mpermWrite := by
  rw [setWidth_wide, wide_mul_byte, ← Mmu.allows_write_iff hsized (count_lt n)]
  exact h.allows hne

theorem Mmu.LetsRange.accepts_read (h : mmu.LetsRange Perm.Readable v n.toNat)
    (hsized : mmu.size.toNat < 2 ^ 63) (hne : n ≠ 0) :
    mmu.Accepts ((wide v).setWidth 32) (wide n * widthMult .byte) mpermRead := by
  rw [setWidth_wide, wide_mul_byte, ← Mmu.allows_read_iff hsized (count_lt n)]
  exact h.allows hne

end Range

/-! ## Reading from a descriptor -/

/-- The guest has the count `k`, and the bytes of the file that it counts, and nothing else. -/
structure Machine.Delivers (m m' : Machine) (addr : Word) (file : Nat → BitVec 8)
    (k : BitVec 64) : Prop where
  a0 : m'.a0 = k.setWidth 32
  taken : ∀ i < k.toInt.toNat, m'.bus.mmu.dataAt (addr.toNat + i) = file i
  others : ∀ x, m.bus.mmu.base.toNat ≤ x → x < addr.toNat ∨ addr.toNat + k.toInt.toNat ≤ x →
    m'.bus.mmu.dataAt x = m.bus.mmu.dataAt x
  nothing : k.toInt ≤ 0 → m'.bus.mmu.data = m.bus.mmu.data ∧ m'.bus.mmu.perm = m.bus.mmu.perm

/-- So it is whatever the block holds that `malloc` gives the call. -/
def Machine.ReadContract (m : Machine) (host : Host) (fd addr n : Word) (file : Nat → BitVec 8)
    (k : BitVec 64) : Prop :=
  ∀ buf, ∃ m', sysRead { host with buffer := buf } m fd addr n = .ok (true, m') ∧
    m.Delivers m' addr file k

/-- The host reads all that it is asked for.  The bus is free, RAM is ready if it is asked,
and the CSR device is not. -/
structure ReadWhole (ram : DeviceState) (mutex : Bool) (addr n : Word) (k : BitVec 64) :
    Prop where
  free : mutex = false
  ready : (ramDevice .ready).covers (wide addr) = true → ram = .ready
  apart : (csrMmioDevice .ready).covers (wide addr) = false
  whole : k.toInt.toNat = n.toNat

section Read

variable {host : Host} {m : Machine} {fd addr n : Word} {file : Nat → BitVec 8} {k : BitVec 64}
  {ram csr : DeviceState} {mutex : Bool} {status : BusStatus} {mmu : Mmu}

/-- The first bytes of the buffer are those that the host has read, and all of it is written. -/
theorem sysRead_eq (hread : ∀ buf, host.read fd buf n = (Span.copy 0 k.toInt.toNat file buf, k))
    (buf : Nat → BitVec 8) :
    sysRead { host with buffer := buf } m fd addr n =
      busWriteMultiple m.bus (wide addr) (Span.copy 0 k.toInt.toNat file buf) (wide n) .byte >>=
        fun x => .ok (true, ((m.call (.read fd n)).setA0 (k.setWidth 32)).withBus x.2) := by
  unfold sysRead
  simp only [hread buf]
  rfl

/-- What the call does to memory that takes the whole buffer. -/
theorem sysRead_filled (hread : ∀ buf, host.read fd buf n = (Span.copy 0 k.toInt.toNat file buf, k))
    (hbus : m.bus = emulatorBus .ready csr false status mmu) (hsized : mmu.size.toNat < 2 ^ 63)
    (hbuffer : mmu.LetsRange Perm.Writable addr n.toNat) (hne : n ≠ 0) (buf : Nat → BitVec 8) :
    ∃ m', sysRead { host with buffer := buf } m fd addr n = .ok (true, m') ∧
      m'.a0 = k.setWidth 32 ∧
      mmu.Holding m'.bus.mmu (Span.copy 0 k.toInt.toNat file buf) addr n.toNat := by
  have haccepts := hbuffer.accepts_write hsized hne
  have hbytes := wide_mul_byte n
  have hholds := (hbuffer.allows hne).1
  have hwrite := blockWrite_accepted csr status (Span.copy 0 k.toInt.toNat file buf)
    (hbuffer.covers hne) (by rw [hbytes]; exact count_lt n) haccepts hbytes
  have hholding := Mmu.written_holding (Span.copy 0 k.toInt.toNat file buf) (count_lt n) hholds
  rw [wide_toNat] at hholding
  rw [sysRead_eq hread, hbus, hwrite, Transition.ok_bind, setWidth_wide, hbytes]
  exact ⟨_, rfl, rfl, hholding⟩

/-- An empty buffer leaves the memory alone. -/
theorem sysRead_empty (hread : ∀ buf, host.read fd buf 0 = (Span.copy 0 k.toInt.toNat file buf, k))
    (hbus : m.bus = emulatorBus ram csr false status mmu)
    (hready : (ramDevice .ready).covers (wide addr) = true → ram = .ready)
    (hcsr : (csrMmioDevice .ready).covers (wide addr) = false) (buf : Nat → BitVec 8) :
    ∃ m', sysRead { host with buffer := buf } m fd addr 0 = .ok (true, m') ∧
      m'.a0 = k.setWidth 32 ∧ m'.bus.mmu.base = mmu.base ∧
      m'.bus.mmu.data = mmu.data ∧ m'.bus.mmu.perm = mmu.perm := by
  have hzero : wide (0 : Word) = 0 := rfl
  rw [sysRead_eq hread, hbus, hzero]
  cases hram : (ramDevice .ready).covers (wide addr) with
  | true =>
      obtain ⟨ram', mmu', hwrite, hdata, hperm⟩ := @blockWrite_empty (wide addr) .byte mmu csr
        status (Span.copy 0 k.toInt.toNat file buf) hram
      have hlayout : mmu.SameLayout mmu' := (busWriteMultiple_frame hwrite).2
      have hbase : mmu'.base = mmu.base := by
        obtain ⟨data, perm, dirty, state, rfl⟩ := hlayout
        rfl
      rw [hready hram, hwrite]
      exact ⟨_, rfl, rfl, hbase, hdata, hperm⟩
  | false =>
      rw [blockWrite_unmapped ram csr status _ hram hcsr]
      exact ⟨_, rfl, rfl, rfl, rfl, rfl⟩

/-- A byte that the host has not read, which differs from what the guest has there. -/
theorem sysRead_short (hread : ∀ buf, host.read fd buf n = (Span.copy 0 k.toInt.toNat file buf, k))
    (hbus : m.bus = emulatorBus .ready csr false status mmu) (hsized : mmu.size.toNat < 2 ^ 63)
    (hbuffer : mmu.LetsRange Perm.Writable addr n.toNat) (hlt : k.toInt.toNat < n.toNat) :
    ¬ m.ReadContract host fd addr n file k := by
  have hmmu : m.bus.mmu = mmu := congrArg Bus.mmu hbus
  have hne : n ≠ 0 := by
    intro hzero
    rw [hzero] at hlt
    exact Nat.not_lt_zero _ hlt
  intro hcontract
  obtain ⟨m', hcall, hdelivers⟩ := hcontract fun _ => mmu.dataAt (addr.toNat + k.toInt.toNat) + 1
  obtain ⟨m'', hcall', -, hholding⟩ := sysRead_filled hread hbus hsized hbuffer hne
    fun _ => mmu.dataAt (addr.toNat + k.toInt.toNat) + 1
  rw [hcall] at hcall'
  cases hcall'
  have hbase := (hbuffer.lets 0 (pos_of_ne_zero hne)).1
  have hkept := hdelivers.others (addr.toNat + k.toInt.toNat) (by rw [hmmu]; omega)
    (Or.inr (Nat.le_refl _))
  rw [hholding.data _ hlt, Span.copy_of_not_mem (Or.inr (Nat.le_refl _)), hmmu] at hkept
  exact absurd hkept (by bv_omega)

theorem sysRead_whole (hread : ∀ buf, host.read fd buf n = (Span.copy 0 k.toInt.toNat file buf, k))
    (hbus : m.bus = emulatorBus ram csr mutex status mmu) (hsized : mmu.size.toNat < 2 ^ 63)
    (hbuffer : mmu.LetsRange Perm.Writable addr n.toNat) (hwhole : ReadWhole ram mutex addr n k) :
    m.ReadContract host fd addr n file k := by
  have hmmu : m.bus.mmu = mmu := congrArg Bus.mmu hbus
  obtain ⟨rfl, hready, hcsr, hcount⟩ := hwhole
  intro buf
  by_cases hzero : n = 0
  · subst hzero
    have hnone : k.toInt.toNat = 0 := hcount
    obtain ⟨m', hcall, ha0, hbase, hdata, hperm⟩ := sysRead_empty hread hbus hready hcsr buf
    refine ⟨m', hcall, ha0, ?_, ?_, ?_⟩
    · intro i hi
      omega
    · intro x _ _
      unfold Mmu.dataAt
      rw [hbase, hdata, hmmu]
    · intro _
      rw [hmmu]
      exact ⟨hdata, hperm⟩
  · obtain rfl := hready (hbuffer.covers hzero)
    obtain ⟨m', hcall, ha0, hholding⟩ := sysRead_filled hread hbus hsized hbuffer hzero buf
    have hpos := pos_of_ne_zero hzero
    refine ⟨m', hcall, ha0, ?_, ?_, ?_⟩
    · intro i hi
      rw [hholding.data i (by omega), Span.copy_of_mem (Nat.zero_le i) hi]
      rfl
    · intro x hx hout
      rw [hmmu] at hx ⊢
      exact (hholding.others x hx (by omega)).1
    · intro hle
      omega

/-- Which calls meet the contract: those for which the host fills the buffer. -/
theorem readContract_iff (hbus : m.bus = emulatorBus ram csr mutex status mmu)
    (hsized : mmu.size.toNat < 2 ^ 63)
    (hread : ∀ buf, host.read fd buf n = (Span.copy 0 k.toInt.toNat file buf, k))
    (hcount : k.toInt ≤ n.toNat) (hbuffer : mmu.LetsRange Perm.Writable addr n.toNat) :
    m.ReadContract host fd addr n file k ↔ ReadWhole ram mutex addr n k := by
  constructor
  · intro hcontract
    obtain ⟨m', hcall, -⟩ := hcontract file
    rw [sysRead_eq hread, hbus] at hcall
    obtain ⟨x, hwrite, -⟩ := Transition.exists_of_bind_ok hcall
    obtain ⟨rfl, hready, hcsr⟩ := blockWrite_returns hwrite
    refine ⟨rfl, hready, hcsr, ?_⟩
    by_contra hshort
    have hlt : k.toInt.toNat < n.toNat := by omega
    have hne : n ≠ 0 := by
      intro hzero
      rw [hzero] at hlt
      exact Nat.not_lt_zero _ hlt
    obtain rfl := hready (hbuffer.covers hne)
    exact sysRead_short hread hbus hsized hbuffer hlt hcontract
  · exact sysRead_whole hread hbus hsized hbuffer

/-- A host with one file, which every read starts at the beginning of. -/
def fileHost (bytes : List (BitVec 8)) : Host :=
  { quietHost with
    read := fun _ buf n =>
      (Span.copy 0 (min n.toNat bytes.length) (fun i => bytes.getD i 0) buf,
        BitVec.ofNat 64 (min n.toNat bytes.length)) }

/-- Two bytes of a file that has more. -/
theorem wholeRead_contract :
    (callingMachine rawMmu).ReadContract (fileHost [7, 8, 9]) 3 0x10000 2
      (fun i => [7, 8, 9].getD i 0) 2 := by
  have hbuffer : rawMmu.LetsRange Perm.Writable 0x10000 (2 : Word).toNat := by
    have hstart : (wide 0x10000).toNat = 0x10000 := rfl
    have haddr : (0x10000 : Word).toNat = 0x10000 := rfl
    have hlength : (2 : Word).toNat = 2 := rfl
    have hbase : rawMmu.base.toNat = 0x10000 := rfl
    have hsize : rawMmu.size.toNat = 0x1000 := rfl
    refine ⟨fun i hi => by omega, fun i hi => ⟨by omega, by omega, ?_⟩⟩
    show Perm.Writable (mpermWrite ||| mpermRaw)
    decide
  exact (readContract_iff rfl (by decide) (fun _ => rfl) (by decide) hbuffer).mpr
    ⟨rfl, fun _ => rfl, by decide, by decide⟩

/-- Four bytes of a file that has two: what the block of `malloc` held is behind them. -/
theorem shortRead_leaks : ∃ m' : Machine,
    sysRead { fileHost [7, 8] with buffer := fun _ => 0xaa } (callingMachine rawMmu) 3 0x10000 4 =
      .ok (true, m') ∧
    m'.a0 = 2 ∧ rawMmu.dataAt 0x10002 = 0 ∧ m'.bus.mmu.dataAt 0x10002 = 0xaa ∧
    ¬ (callingMachine rawMmu).ReadContract (fileHost [7, 8]) 3 0x10000 4
      (fun i => [7, 8].getD i 0) 2 := by
  obtain ⟨m', hcall, ha0, hbyte⟩ : ∃ m' : Machine,
      sysRead { fileHost [7, 8] with buffer := fun _ => 0xaa } (callingMachine rawMmu) 3 0x10000 4 =
        .ok (true, m') ∧ m'.a0 = 2 ∧ m'.bus.mmu.dataAt 0x10002 = 0xaa :=
    ⟨_, rfl, rfl, rfl⟩
  have hzero : (callingMachine rawMmu).bus.mmu.dataAt 0x10002 = 0 := rfl
  refine ⟨m', hcall, ha0, rfl, hbyte, ?_⟩
  intro hcontract
  obtain ⟨m'', hcall', hdelivers⟩ := hcontract fun _ => 0xaa
  rw [hcall] at hcall'
  cases hcall'
  have hkept := hdelivers.others 0x10002 (by decide) (Or.inr (by decide))
  rw [hbyte, hzero] at hkept
  exact absurd hkept (by decide)

end Read

/-! ## Writing to a descriptor -/

/-- The guest's bytes of `[addr, addr + n)`. -/
def Mmu.bytesAt (mmu : Mmu) (addr n : Word) : List (BitVec 8) :=
  (List.range n.toNat).map fun i => mmu.dataAt (addr.toNat + i)

/-- The host has been given these bytes, in one call or several, and the guest its count. -/
def Machine.Emits (m m' : Machine) (host : Host) (fd : Word) (bytes : List (BitVec 8)) : Prop :=
  ∃ chunks : List (List (BitVec 8)), chunks.flatten = bytes ∧
    m'.calls = m.calls ++ chunks.map (HostCall.write fd) ∧
    m'.a0 = ((chunks.map (host.write fd)).sum).setWidth 32

/-- The host has been given no byte for the descriptor, and the guest an error. -/
def Machine.Refuses (m m' : Machine) (fd : Word) : Prop :=
  m'.a0.toInt < 0 ∧ ∃ new, m'.calls = m.calls ++ new ∧
    ∀ bytes, HostCall.write fd bytes ∈ new → bytes = []

/-- A write to a descriptor that the guest has, which is a standard one or one of `opened`,
hands out its bytes if all can be read.  No write fails an assertion. -/
structure Machine.WriteContract (m : Machine) (host : Host) (opened : Set Word)
    (fd addr n : Word) : Prop where
  emitted : fd ≤ 2 ∨ fd ∈ opened → m.bus.mmu.LetsRange Perm.Readable addr n.toNat →
    ∃ more m', handleSyscall host m 64 fd addr n = .ok (more, m') ∧
      m.Emits m' host fd (m.bus.mmu.bytesAt addr n)
  refused : ¬ m.bus.mmu.LetsRange Perm.Readable addr n.toNat →
    ∃ more m', handleSyscall host m 64 fd addr n = .ok (more, m') ∧ m.Refuses m' fd
  asserts : handleSyscall host m 64 fd addr n ≠ .error .assertion

/-- The descriptor is a standard one, the bytes fit the buffer and can be read, the bus is
free, and the CSR device is not asked. -/
structure Mmu.WriteFits (mmu : Mmu) (mutex : Bool) (fd addr n : Word) : Prop where
  standard : fd ≤ 2
  fits : n < 256
  readable : mmu.LetsRange Perm.Readable addr n.toNat
  free : mutex = false
  apart : (csrMmioDevice .ready).covers (wide addr) = false

section Write

variable {host : Host} {m m' : Machine} {fd addr n : Word} {ram csr : DeviceState} {mutex : Bool}
  {status : BusStatus} {mmu : Mmu}

theorem handleSyscall_write (host : Host) (m : Machine) (fd addr n : Word) :
    handleSyscall host m 64 fd addr n = sysWrite host m fd addr n := rfl

theorem sysWrite_eq (hfd : fd ≤ 2) (hn : n < 256) :
    sysWrite host m fd addr n =
      busReadMultiple m.bus (wide addr) host.buffer (wide n) .byte >>= fun x =>
        .ok (true, ((m.withBus x.2.2).call (.write fd ((List.range n.toNat).map x.2.1))).setA0
          ((host.write fd ((List.range n.toNat).map x.2.1)).setWidth 32)) := by
  unfold sysWrite
  rw [if_neg (not_not_intro hfd), if_neg (not_not_intro hn)]
  rfl

/-- The two assertions of the source. -/
theorem sysWrite_asserts (h : ¬ (fd ≤ 2 ∧ n < 256)) :
    sysWrite host m fd addr n = .error .assertion := by
  unfold sysWrite
  by_cases hfd : fd ≤ 2
  · rw [if_neg (not_not_intro hfd), if_pos (fun hn => h ⟨hfd, hn⟩)]
  · rw [if_pos hfd]

/-- A call that returns has handed `n` bytes to the host. -/
theorem sysWrite_calls (hfd : fd ≤ 2) (hn : n < 256) {more : Bool}
    (h : sysWrite host m fd addr n = .ok (more, m')) :
    ∃ bytes : List (BitVec 8), bytes.length = n.toNat ∧
      m'.calls = m.calls ++ [HostCall.write fd bytes] := by
  rw [sysWrite_eq hfd hn] at h
  obtain ⟨x, -, h⟩ := Transition.exists_of_bind_ok h
  cases h
  refine ⟨_, ?_, rfl⟩
  rw [List.length_map, List.length_range]

/-- One call of the host is enough. -/
theorem sysWrite_emits (hfd : fd ≤ 2) (hn : n < 256) {out : Nat → BitVec 8} {count : Size}
    {bus : Bus} {bytes : List (BitVec 8)}
    (hread : busReadMultiple m.bus (wide addr) host.buffer (wide n) .byte = .ok (count, out, bus))
    (hbytes : (List.range n.toNat).map out = bytes) :
    ∃ more m', handleSyscall host m 64 fd addr n = .ok (more, m') ∧ m.Emits m' host fd bytes := by
  rw [handleSyscall_write, sysWrite_eq hfd hn, hread, Transition.ok_bind, hbytes]
  refine ⟨_, _, rfl, [bytes], ?_, rfl, ?_⟩
  · rw [List.flatten_singleton]
  · rw [List.map_singleton, List.sum_singleton]
    rfl

theorem letsRange_empty {P : Perm → Prop} : mmu.LetsRange P addr 0 :=
  ⟨fun i hi => absurd hi (Nat.not_lt_zero i), fun i hi => absurd hi (Nat.not_lt_zero i)⟩

/-- A block of bytes that the guest may read. -/
theorem blockRead_lets (ram csr : DeviceState) (status : BusStatus) (buf : Nat → BitVec 8)
    (hsized : mmu.size.toNat < 2 ^ 63) (hlets : mmu.LetsRange Perm.Readable addr n.toNat)
    (hcsr : (csrMmioDevice .ready).covers (wide addr) = false) :
    ∃ count out bus, busReadMultiple (emulatorBus ram csr false status mmu) (wide addr) buf
        (wide n) .byte = .ok (count, out, bus) ∧
      (List.range n.toNat).map out = mmu.bytesAt addr n := by
  by_cases hzero : n = 0
  · subst hzero
    cases hram : (ramDevice .ready).covers (wide addr) with
    | true =>
        obtain ⟨out, after, hread⟩ := @blockRead_empty (wide addr) .byte mmu ram csr status buf hram
        exact ⟨_, _, _, hread, rfl⟩
    | false => exact ⟨_, _, _, blockRead_unmapped ram csr status buf hram hcsr, rfl⟩
  · have hholds := (hlets.allows hzero).1
    refine ⟨_, _, _, blockRead_accepted ram csr status buf (hlets.covers hzero)
      (hlets.accepts_read hsized hzero), ?_⟩
    apply List.map_congr_left
    intro i hi
    rw [List.mem_range] at hi
    rw [wide_mul_byte, wide_toNat, setWidth_wide, Span.copy_of_mem (Nat.zero_le i) hi,
      hholds.dataAt_eq, Nat.sub_zero]

/-- Which writes meet the contract. -/
theorem writeContract_iff (hbus : m.bus = emulatorBus ram csr mutex status mmu)
    (hsized : mmu.size.toNat < 2 ^ 63) (host : Host) (opened : Set Word) :
    m.WriteContract host opened fd addr n ↔ mmu.WriteFits mutex fd addr n := by
  have hmmu : m.bus.mmu = mmu := congrArg Bus.mmu hbus
  constructor
  · rintro ⟨hemitted, hrefused, hasserts⟩
    rw [hmmu] at hemitted hrefused
    rw [handleSyscall_write] at hemitted hrefused hasserts
    have hguards : fd ≤ 2 ∧ n < 256 := by
      by_contra hnot
      exact hasserts (sysWrite_asserts hnot)
    obtain ⟨hfd, hn⟩ := hguards
    have hreadable : mmu.LetsRange Perm.Readable addr n.toNat := by
      by_contra hnot
      obtain ⟨more, m', hcall, -, new, hnew, hnone⟩ := hrefused hnot
      obtain ⟨bytes, hlength, hcalls⟩ := sysWrite_calls hfd hn hcall
      rw [hcalls] at hnew
      obtain rfl := List.append_cancel_left hnew
      rw [hnone bytes (List.mem_singleton.mpr rfl), List.length_nil] at hlength
      rw [← hlength] at hnot
      exact hnot letsRange_empty
    obtain ⟨more, m', hcall, -⟩ := hemitted (Or.inl hfd) hreadable
    rw [sysWrite_eq hfd hn, hbus] at hcall
    obtain ⟨x, hread, -⟩ := Transition.exists_of_bind_ok hcall
    obtain ⟨hfree, hcsr⟩ := blockRead_returned hread
    exact ⟨hfd, hn, hreadable, hfree, hcsr⟩
  · rintro ⟨hfd, hn, hreadable, rfl, hcsr⟩
    obtain ⟨count, out, bus, hread, hbytes⟩ :=
      blockRead_lets ram csr status host.buffer hsized hreadable hcsr
    rw [← hbus] at hread
    obtain ⟨more, m', hcall, hemits⟩ := sysWrite_emits hfd hn hread hbytes
    rw [← hmmu] at hemits hreadable
    refine ⟨fun _ _ => ⟨more, m', hcall, hemits⟩, fun hnot => absurd hreadable hnot, ?_⟩
    rw [hcall]
    intro hasserts
    cases hasserts

/-- A host that writes all it is given, with `residue` in the local buffer. -/
def consoleHost (residue : BitVec 8) : Host :=
  { quietHost with
    buffer := fun _ => residue
    write := fun _ bytes => BitVec.ofNat 64 bytes.length }

/-- A write to a standard descriptor of fewer bytes than the buffer has hands them out, if
they can be read over a free bus.  Any other write fails an assertion. -/
theorem standardWrite_emits (hbus : m.bus = emulatorBus ram csr mutex status mmu)
    (hsized : mmu.size.toNat < 2 ^ 63) (host : Host) (fd addr n : Word) :
    (mmu.WriteFits mutex fd addr n → ∃ more m',
      handleSyscall host m 64 fd addr n = .ok (more, m') ∧
      m.Emits m' host fd (mmu.bytesAt addr n)) ∧
    (handleSyscall host m 64 fd addr n = .error .assertion ↔ ¬ (fd ≤ 2 ∧ n < 256)) := by
  have hmmu : m.bus.mmu = mmu := congrArg Bus.mmu hbus
  refine ⟨?_, ?_, fun hnot => ?_⟩
  · intro hfits
    have hcontract := (writeContract_iff hbus hsized host ∅).mpr hfits
    rw [← hmmu] at hfits ⊢
    exact hcontract.emitted (Or.inl hfits.standard) hfits.readable
  · rintro hasserts ⟨hfd, hn⟩
    rw [handleSyscall_write, sysWrite_eq hfd hn, hbus] at hasserts
    exact blockRead_not_assertion hasserts
  · rw [handleSyscall_write]
    exact sysWrite_asserts hnot

/-- What the guest has stored from the start of its memory on can be read. -/
theorem rawMmu_written_lets (src : Nat → BitVec 8) {count : Size} {i : Nat}
    (hi : i < count.toNat) (hcount : count.toNat ≤ 0x1000) :
    (rawMmu.written src 0x10000 count).Lets Perm.Readable (0x10000 + i) := by
  have haddr : (0x10000 : Word).toNat = 0x10000 := rfl
  have hbase : rawMmu.base.toNat = 0x10000 := rfl
  have hsize : rawMmu.size.toNat = 0x1000 := rfl
  have hholds : rawMmu.Holds 0x10000 count.toNat := ⟨by omega, by omega⟩
  have hraw : (mpermWrite ||| mpermRaw) &&& mpermRaw = mpermRaw := rfl
  refine ⟨?_, ?_, ?_⟩
  · show rawMmu.base.toNat ≤ _
    omega
  · show _ < rawMmu.base.toNat + rawMmu.size.toNat
    omega
  · rw [← haddr, Mmu.written_permAt (by omega) hholds hi]
    exact permWritten_readable (Or.inr hraw)

/-- Two bytes that the guest has stored. -/
theorem storedWrite_emits : ∃ more m',
    handleSyscall (consoleHost 0xaa) (callingMachine (rawMmu.written (fun _ => 7) 0x10000 2)) 64 1
      0x10000 2 = .ok (more, m') ∧
    (callingMachine (rawMmu.written (fun _ => 7) 0x10000 2)).Emits m' (consoleHost 0xaa) 1
      ((rawMmu.written (fun _ => 7) 0x10000 2).bytesAt 0x10000 2) := by
  have hreadable : (rawMmu.written (fun _ => 7) 0x10000 2).LetsRange Perm.Readable 0x10000
      (2 : Word).toNat := by
    have hstart : (wide 0x10000).toNat = 0x10000 := rfl
    have hlength : (2 : Word).toNat = 2 := rfl
    exact ⟨fun i hi => by omega, fun i hi => rawMmu_written_lets _ hi (by decide)⟩
  exact (standardWrite_emits (show (callingMachine (rawMmu.written (fun _ => 7) 0x10000 2)).bus =
    emulatorBus .ready .ready false .ok _ from rfl) (by decide) (consoleHost 0xaa) 1 0x10000 2).1
    ⟨by decide, by decide, hreadable, rfl, by decide⟩

/-- A write of 256 bytes, and one to the descriptor 3. -/
theorem otherWrites_assert :
    handleSyscall (consoleHost 0) (callingMachine rawMmu) 64 1 0x10000 256 = .error .assertion ∧
    ¬ (callingMachine rawMmu).WriteContract (consoleHost 0) {3} 1 0x10000 256 ∧
    handleSyscall (consoleHost 0) (callingMachine rawMmu) 64 3 0x10000 2 = .error .assertion ∧
    ¬ (callingMachine rawMmu).WriteContract (consoleHost 0) {3} 3 0x10000 2 :=
  ⟨rfl, fun hcontract => hcontract.asserts rfl, rfl, fun hcontract => hcontract.asserts rfl⟩

end Write

end CRiscV
