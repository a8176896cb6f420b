/-
The bus and the devices behind it: mmio.h, memory.c, the device half of csr.c,
bus.h and bus.c.

RAM reaches the MMU through its `user` pointer, and the emulator reaches the same
MMU directly; the MMU is therefore a field of the bus, and the handlers of RAM
take it and give it back.
-/
import CRiscV.Data.Bytes
import CRiscV.Mmu.Model

namespace CRiscV

/-- `memory_access_width_t`. -/
inductive Width where
  | byte | halfword | word
  deriving DecidableEq, Repr

/-- `device_state_t`. -/
inductive DeviceState where
  | ready | busy | error
  deriving DecidableEq, Repr

/-- `mmio_perm_t`. -/
def mmioRead : BitVec 32 := 1
def mmioWrite : BitVec 32 := 2

/-- The handlers of a device whose code is not in the repository.  The storage
behind its `user` pointer is coded as a number, and each handler gives the storage
and the state it leaves with its result.  A missing handler is a null pointer. -/
structure Handlers where
  readSingle : Option (Nat → Word → Width → Nat × DeviceState × Word)
  read : Option (Nat → Word → (Nat → BitVec 8) → Size → Width →
    Nat × DeviceState × Size × (Nat → BitVec 8))
  writeSingle : Option (Nat → Word → Word → Width → Nat × DeviceState)
  write : Option (Nat → Word → (Nat → BitVec 8) → Size → Width → Nat × DeviceState × Size)

/-- Which functions a device's handler pointers name. -/
inductive Driver where
  | ram
  | csr
  | other (handlers : Handlers)

/-- `mmio_device_t`, less `next`: the devices of a bus are a list. -/
structure Device where
  driver : Driver
  baseAddress : Word
  size : Word
  user : Nat
  perm : BitVec 32
  state : DeviceState

/-! ## memory.c -/

/-- The factor from elements to bytes. -/
def widthMult (aw : Width) : Size :=
  if aw = .word then 4 else if aw = .halfword then 2 else 1

def writeRam (ram : Device) (mmu : Mmu) (offs : Word) (buf : Nat → BitVec 8) (count : Size)
    (aw : Width) : Except Abort (Size × Device × Mmu) := do
  let (ret, mmu) ← mmuWriteFrom mmu buf offs (count * widthMult aw)
  if mmu.state = .ok then return (ret, { ram with state := .ready }, mmu)
  else return (0, { ram with state := .error }, mmu)

def readRam (ram : Device) (mmu : Mmu) (offs : Word) (buf : Nat → BitVec 8) (count : Size)
    (aw : Width) : Size × (Nat → BitVec 8) × Device × Mmu :=
  let (ret, buf, mmu) := mmuReadInto mmu buf offs (count * widthMult aw)
  if mmu.state = .ok ∧ ret = count * widthMult aw then
    (count, buf, { ram with state := .ready }, mmu)
  else (0, buf, { ram with state := .error }, mmu)

/-- `read_ram_single`.  The local of the wider widths is a `uint32_t` that starts
as 0; the local of a byte read is a `uint8_t` that starts as `residue`, whatever
the stack held. -/
def readRamSingle (residue : BitVec 8) (ram : Device) (mmu : Mmu) (offs : Word) (aw : Width) :
    Word × Device × Mmu :=
  match aw with
  | .word =>
      let (_, ret, ram, mmu) := readRam ram mmu offs (fun _ => 0) 1 .word
      (Bytes.ofBytes 32 4 ret, ram, mmu)
  | .halfword =>
      let (_, ret, ram, mmu) := readRam ram mmu offs (fun _ => 0) 1 .halfword
      (Bytes.ofBytes 32 4 ret, ram, mmu)
  | .byte =>
      let (_, ret, ram, mmu) := readRam ram mmu offs (fun _ => residue) 1 .byte
      ((ret 0).setWidth 32, ram, mmu)

def writeRamSingle (ram : Device) (mmu : Mmu) (offs : Word) (value : Word) (aw : Width) :
    Except Abort (Device × Mmu) := do
  match aw with
  | .word =>
      let (_, ram, mmu) ← writeRam ram mmu offs (Bytes.byteAt value) 1 .word
      return (ram, mmu)
  | .halfword =>
      let val : BitVec 16 := (value &&& 0xffff).setWidth 16
      let (_, ram, mmu) ← writeRam ram mmu offs (Bytes.byteAt val) 1 .halfword
      return (ram, mmu)
  | .byte =>
      let val : BitVec 8 := (value &&& 0xff).setWidth 8
      let (_, ram, mmu) ← writeRam ram mmu offs (Bytes.byteAt val) 1 .byte
      return (ram, mmu)

/-! ## The CSR device of csr.c, which serves nothing -/

def csrMmioReadSingle (dev : Device) : Word × Device := (0, { dev with state := .error })

def csrMmioWriteSingle (dev : Device) : Device := { dev with state := .error }

/-! ## A device's handlers -/

def Device.readSingle (residue : BitVec 8) (dev : Device) (mmu : Mmu) (offs : Word)
    (aw : Width) : Except Abort (Word × Device × Mmu) :=
  match dev.driver with
  | .ram => .ok (readRamSingle residue dev mmu offs aw)
  | .csr => .ok ((csrMmioReadSingle dev).1, (csrMmioReadSingle dev).2, mmu)
  | .other handlers =>
      match handlers.readSingle with
      | none => .error .nullHandler
      | some f =>
          let (user, state, r) := f dev.user offs aw
          .ok (r, { dev with user := user, state := state }, mmu)

/-- `csr_mmio_device` names no `read`. -/
def Device.read (dev : Device) (mmu : Mmu) (offs : Word) (dst : Nat → BitVec 8) (count : Size)
    (aw : Width) : Except Abort (Size × (Nat → BitVec 8) × Device × Mmu) :=
  match dev.driver with
  | .ram => .ok (readRam dev mmu offs dst count aw)
  | .csr => .error .nullHandler
  | .other handlers =>
      match handlers.read with
      | none => .error .nullHandler
      | some f =>
          let (user, state, ret, dst) := f dev.user offs dst count aw
          .ok (ret, dst, { dev with user := user, state := state }, mmu)

def Device.writeSingle (dev : Device) (mmu : Mmu) (offs : Word) (value : Word) (aw : Width) :
    Except Abort (Device × Mmu) :=
  match dev.driver with
  | .ram => writeRamSingle dev mmu offs value aw
  | .csr => .ok (csrMmioWriteSingle dev, mmu)
  | .other handlers =>
      match handlers.writeSingle with
      | none => .error .nullHandler
      | some f =>
          let (user, state) := f dev.user offs value aw
          .ok ({ dev with user := user, state := state }, mmu)

/-- `csr_mmio_device` names no `write`. -/
def Device.write (dev : Device) (mmu : Mmu) (offs : Word) (src : Nat → BitVec 8) (count : Size)
    (aw : Width) : Except Abort (Size × Device × Mmu) :=
  match dev.driver with
  | .ram => writeRam dev mmu offs src count aw
  | .csr => .error .nullHandler
  | .other handlers =>
      match handlers.write with
      | none => .error .nullHandler
      | some f =>
          let (user, state, ret) := f dev.user offs src count aw
          .ok (ret, { dev with user := user, state := state }, mmu)

/-! ## bus.c -/

/-- `bus_status_t`. -/
inductive BusStatus where
  | ok | readMisaligned | writeMisaligned | addressNotFound | accessDenied | deviceFailure
  deriving DecidableEq, Repr

/-- `bus_t`, with the MMU behind RAM.  The mutex is a flag: locking it while it is
held never returns. -/
structure Bus where
  mmioDevices : List Device
  mutex : Bool
  status : BusStatus
  mmu : Mmu

/-- The window test of `bus_find_device`.  The window's end is a `uint32_t` sum. -/
def Device.covers (dev : Device) (offs : Size) : Bool :=
  wide dev.baseAddress ≤ offs && wide (dev.baseAddress + dev.size) > offs

/-- The first device whose window holds the address, with its position. -/
def busFindDevice (bus : Bus) (offs : Size) : Option (Nat × Device) × Bus :=
  match bus.mmioDevices.findIdx? (·.covers offs) with
  | some i =>
      match bus.mmioDevices[i]? with
      | some dev => (some (i, dev), { bus with status := .ok })
      | none => (none, { bus with status := .addressNotFound })
  | none => (none, { bus with status := .addressNotFound })

def busLock (bus : Bus) : Except Abort Bus :=
  if bus.mutex then .error .deadlock else .ok { bus with mutex := true }

def busUnlock (bus : Bus) : Bus := { bus with mutex := false }

/-- Store a device and the MMU back after a handler has run. -/
def Bus.serve (bus : Bus) (i : Nat) (dev : Device) (mmu : Mmu) : Bus :=
  { bus with mmioDevices := bus.mmioDevices.set i dev, mmu := mmu }

def busReadSingle (residue : BitVec 8) (bus : Bus) (offs : Size) (aw : Width) :
    Except Abort (Word × Bus) := do
  let bus ← busLock bus
  match busFindDevice bus offs with
  | (none, bus) => return (0x0badc0de, busUnlock bus)
  | (some (i, dev), bus) =>
      let (r, dev, mmu) ← dev.readSingle residue bus.mmu (offs.setWidth 32) aw
      return (r, busUnlock (bus.serve i dev mmu))

def busReadMultiple (bus : Bus) (offs : Size) (dst : Nat → BitVec 8) (count : Size)
    (aw : Width) : Except Abort (Size × (Nat → BitVec 8) × Bus) := do
  let bus ← busLock bus
  match busFindDevice bus offs with
  | (none, bus) => return (0, dst, busUnlock bus)
  | (some (i, dev), bus) =>
      let (ret, dst, dev, mmu) ← dev.read bus.mmu (offs.setWidth 32) dst count aw
      let bus := bus.serve i dev mmu
      if ret ≠ count then return (0, dst, busUnlock { bus with status := .deviceFailure })
      else return (count, dst, busUnlock bus)

def busWriteSingle (bus : Bus) (offs : Size) (value : Word) (aw : Width) : Except Abort Bus := do
  let bus ← busLock bus
  match busFindDevice bus offs with
  | (none, bus) => return busUnlock bus
  | (some (i, dev), bus) =>
      if dev.perm &&& mmioWrite ≠ mmioWrite then .error .assertion
      else
        let (dev, mmu) ← dev.writeSingle bus.mmu (offs.setWidth 32) value aw
        return busUnlock (bus.serve i dev mmu)

/-- `bus_write_multiple`.  A transfer that the device cuts short returns without
releasing the mutex. -/
def busWriteMultiple (bus : Bus) (offs : Size) (src : Nat → BitVec 8) (count : Size)
    (aw : Width) : Except Abort (Size × Bus) := do
  let bus ← busLock bus
  match busFindDevice bus offs with
  | (none, bus) => return (0, busUnlock bus)
  | (some (i, dev), bus) =>
      if dev.perm &&& mmioWrite ≠ mmioWrite then .error .assertion
      else if dev.state ≠ .ready then .error .assertion
      else
        let (ret, dev, mmu) ← dev.write bus.mmu (offs.setWidth 32) src count aw
        let bus := bus.serve i dev mmu
        if ret ≠ count then return (0, { bus with status := .deviceFailure })
        else return (count, busUnlock { bus with status := .ok })

/-- The loop of `bus_read_string` from its `i`-th turn on: the bytes it stores.
Each turn reads with its own stack residue.  The window of a device ends below
`2 ^ 32`, so a turn at or above that address is the last one; `fuel` bounds the
turns. -/
def busReadStringLoop (residue : Nat → BitVec 8) (offs : Size) :
    Nat → Nat → Bus → Except Abort (List (BitVec 8) × Bus)
  | 0, _, bus => .ok ([], bus)
  | fuel + 1, i, bus => do
      let (r, bus) ← busReadSingle (residue i) bus (offs + BitVec.ofNat 64 i) .byte
      let c : BitVec 8 := r.setWidth 8
      if c ≠ 0 ∧ bus.status = .ok then
        let (rest, bus) ← busReadStringLoop residue offs fuel (i + 1) bus
        return (c :: rest, bus)
      else return ([c], bus)

/-- `bus_read_string`: what it stores at `dst`; the count it returns is the
length. -/
def busReadString (residue : Nat → BitVec 8) (bus : Bus) (offs : Size) :
    Except Abort (List (BitVec 8) × Bus) :=
  busReadStringLoop residue offs (2 ^ 32 + 1) 0 bus

/-! ## The emulator's bus: config.h, csr.c and emulator.c -/

def ramStart : Word := 0x10000
def ramEnd : Word := 0x7ffff
def ramSize : Word := ramEnd - ramStart
/-- `VIDEO_RAM_END`, behind the frame buffer of 640 by 480 words. -/
def csrMmapBaseAddr : Word := ramEnd + 640 * 480 * 4

def ramDevice (state : DeviceState) : Device :=
  { driver := .ram, baseAddress := ramStart, size := ramSize, user := 0,
    perm := mmioRead ||| mmioWrite, state := state }

def csrMmioDevice (state : DeviceState) : Device :=
  { driver := .csr, baseAddress := csrMmapBaseAddr, size := 0x1000, user := 0,
    perm := mmioRead ||| mmioWrite, state := state }

/-- `main_bus`, RAM first. -/
def mainBus (mmu : Mmu) : Bus :=
  { mmioDevices := [ramDevice .ready, csrMmioDevice .ready]
    mutex := false
    status := .ok
    mmu := mmu }

end CRiscV
