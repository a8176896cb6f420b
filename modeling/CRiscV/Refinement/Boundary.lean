/-
What the guest and the host have to do with each other: the calls that a turn of the thread
loop makes of the host, the turns that end the loop, and what of the machine no turn changes.
-/
import CRiscV.Emulator.Effects
import CRiscV.Refinement.Descriptor
import CRiscV.Refinement.Prefetch
import CRiscV.Refinement.Strings

namespace CRiscV

open Transition (Run Returns returns_any returns_bind returns_cases returns_imp returns_ok)

/-! ## The copy of a string -/

/-- What a read of one byte delivers where there is a device: the byte, what the stack held if
it cannot be read, or 0. -/
inductive Bus.Sees (bus : Bus) (residue : BitVec 8) (a : Size) : BitVec 8 → Prop
  | shown (shows : bus.Shows a) : Sees bus residue a (bus.mmu.dataAt a.toNat)
  | denied (ram : bus.AtRam a) (denied : ¬ bus.mmu.Lets Perm.Readable a.toNat) :
      Sees bus residue a residue
  | csr (csr : bus.AtCsr a) : Sees bus residue a 0

/-- The copy of a string from byte `i` on: the bytes in front of its end, and whether it ends
with a zero.  If not, it has left the devices. -/
inductive Bus.Copies (bus : Bus) (residue : Nat → BitVec 8) (offs : Size) :
    Nat → List (BitVec 8) → Bool → Prop
  | zero {i : Nat} (sees : bus.Sees (residue i) (byteAddr offs i) 0) :
      Copies bus residue offs i [] true
  | lost {i : Nat} (unmapped : bus.Unmapped (byteAddr offs i)) :
      Copies bus residue offs i [] false
  | byte {i : Nat} {c : BitVec 8} {text : List (BitVec 8)} {ended : Bool}
      (sees : bus.Sees (residue i) (byteAddr offs i) c) (more : c ≠ 0)
      (rest : Copies bus residue offs (i + 1) text ended) :
      Copies bus residue offs i (c :: text) ended

section Copy

variable {bus b : Bus} {residue : Nat → BitVec 8} {offs a : Size} {r c : BitVec 8} {i : Nat}
  {text : List (BitVec 8)} {ended : Bool}

theorem Bus.Sees.lt (h : bus.Sees r a c) : a.toNat < 2 ^ 32 := by
  cases h with
  | shown hshows =>
      obtain ⟨⟨k, dev, hroute, -⟩, -⟩ := hshows
      exact hroute.lt
  | denied hram =>
      obtain ⟨k, dev, hroute, -⟩ := hram
      exact hroute.lt
  | csr hcsr =>
      obtain ⟨k, dev, hroute, -⟩ := hcsr
      exact hroute.lt

theorem Bus.Sees.read (h : bus.Sees r a c) (hafter : bus.AfterRead b)
    (hsized : bus.mmu.size.toNat < 2 ^ 63) :
    ∃ b', bus.AfterRead b' ∧ b'.status = .ok ∧
      busReadSingle r b a .byte = .ok (c.setWidth 32, b') := by
  cases h with
  | shown hshows =>
      obtain ⟨b', hafter', hstatus, hread⟩ :=
        (hafter.shows hshows).read hafter.unlocked (hafter.sized hsized)
      rw [hafter.dataAt] at hread
      exact ⟨b', hafter.trans hafter', hstatus, hread r⟩
  | denied hram hdenied =>
      obtain ⟨b', hafter', hstatus, hread⟩ := (hafter.atRam hram).read_denied
        (mt hafter.lets_iff.mp hdenied) hafter.unlocked (hafter.sized hsized) r
      exact ⟨b', hafter.trans hafter', hstatus, hread⟩
  | csr hcsr =>
      obtain ⟨b', hafter', hstatus, hread⟩ := (hafter.atCsr hcsr).read hafter.unlocked
      exact ⟨b', hafter.trans hafter', hstatus, hread r⟩

/-- Every address is one of RAM, one of the CSR device, or no one's. -/
theorem Bus.Divided.sees (hdivided : bus.Divided) (r : BitVec 8) (a : Size) :
    (∃ c, bus.Sees r a c) ∨ bus.Unmapped a := by
  rcases hdivided a with hram | hcsr | hnone
  · left
    by_cases hlets : bus.mmu.Lets Perm.Readable a.toNat
    · exact ⟨_, .shown ⟨hram, hlets⟩⟩
    · exact ⟨_, .denied hram hlets⟩
  · exact Or.inl ⟨_, .csr hcsr⟩
  · exact Or.inr hnone

/-- Every string has a copy: a byte that does not end it is at an address of 32 bits. -/
theorem Bus.Divided.copies (hdivided : bus.Divided) (residue : Nat → BitVec 8) (offs : Size)
    (i : Nat) : ∃ text ended, bus.Copies residue offs i text ended ∧
      text.length ≤ 2 ^ 32 - (byteAddr offs i).toNat := by
  generalize hleft : 2 ^ 32 - (byteAddr offs i).toNat = left
  induction left generalizing i with
  | zero =>
      rcases hdivided.sees (residue i) (byteAddr offs i) with ⟨c, hsees⟩ | hnone
      · have hlt := hsees.lt
        omega
      · exact ⟨[], false, .lost hnone, Nat.le_refl _⟩
  | succ left ih =>
      rcases hdivided.sees (residue i) (byteAddr offs i) with ⟨c, hsees⟩ | hnone
      · by_cases hzero : c = 0
        · rw [hzero] at hsees
          exact ⟨[], true, .zero hsees, Nat.zero_le _⟩
        · have hnext := byteAddr_succ hsees.lt
          obtain ⟨text, ended, hrest, hlength⟩ := ih (i + 1) (by omega)
          exact ⟨c :: text, ended, .byte hsees hzero hrest, Nat.succ_le_succ hlength⟩
      · exact ⟨[], false, .lost hnone, Nat.zero_le _⟩

/-- The loop makes the copy. -/
theorem Bus.Copies.loop (h : bus.Copies residue offs i text ended) (hafter : bus.AfterRead b)
    (hsized : bus.mmu.size.toNat < 2 ^ 63) {fuel : Nat} (hfuel : text.length < fuel) :
    ∃ b', bus.AfterRead b' ∧ (b'.status = .ok ↔ ended = true) ∧
      busReadStringLoop residue offs fuel i b =
        .ok (text ++ [if ended = true then 0 else 0xde], b') := by
  induction h generalizing b fuel with
  | zero hsees =>
      obtain ⟨fuel, rfl⟩ := Nat.exists_eq_succ_of_ne_zero (Nat.ne_of_gt hfuel)
      obtain ⟨b', hafter', hstatus, hread⟩ := hsees.read hafter hsized
      refine ⟨b', hafter', iff_of_true hstatus rfl, ?_⟩
      exact busReadStringLoop_last (fun hmore => hmore.1 rfl) hread
  | @lost i hnone =>
      obtain ⟨fuel, rfl⟩ := Nat.exists_eq_succ_of_ne_zero (Nat.ne_of_gt hfuel)
      have hread := @busReadSingle_unmapped (residue i) b (byteAddr offs i) .byte hafter.unlocked
        (hafter.unmapped hnone)
      refine ⟨{ b with mutex := false, status := .addressNotFound },
        ⟨hafter.wiring, hafter.memory, rfl⟩, iff_of_false nofun nofun,
        busReadStringLoop_last ?_ hread⟩
      exact fun hmore => nomatch hmore.2
  | @byte i c text ended hsees hmore _ ih =>
      obtain ⟨fuel, rfl⟩ := Nat.exists_eq_succ_of_ne_zero (Nat.ne_of_gt (Nat.zero_lt_of_lt hfuel))
      obtain ⟨b', hafter', hstatus, hread⟩ := hsees.read hafter hsized
      obtain ⟨b'', hafter'', hended, hloop⟩ := ih hafter' (Nat.lt_of_succ_lt_succ hfuel)
      refine ⟨b'', hafter'', hended, ?_⟩
      rw [busReadStringLoop_next ⟨by rw [byte_of_word]; exact hmore, hstatus⟩ hread, hloop,
        byte_of_word]
      rfl

/-- `bus_read_string` makes it. -/
theorem busReadString_copies (hdivided : bus.Divided) (hfree : bus.mutex = false)
    (hsized : bus.mmu.size.toNat < 2 ^ 63) (residue : Nat → BitVec 8) (offs : Size) :
    ∃ text ended b', bus.Copies residue offs 0 text ended ∧ (b'.status = .ok ↔ ended = true) ∧
      busReadString residue bus offs =
        .ok (text ++ [if ended = true then 0 else 0xde], b') := by
  obtain ⟨text, ended, hcopies, hlength⟩ := hdivided.copies residue offs 0
  obtain ⟨b', -, hstatus, hread⟩ :=
    hcopies.loop ⟨rfl, .refl _, hfree⟩ hsized (show text.length < 2 ^ 32 + 1 by omega)
  exact ⟨text, ended, b', hcopies, hstatus, hread⟩

theorem Bus.Copies.length_le (h : bus.Copies residue offs i text ended) :
    text.length ≤ 2 ^ 32 - (byteAddr offs i).toNat := by
  induction h with
  | zero | lost => exact Nat.zero_le _
  | byte hsees _ _ ih =>
      have hlt := hsees.lt
      have hnext := byteAddr_succ hlt
      rw [List.length_cons]
      omega

/-- There is one copy. -/
theorem Bus.Copies.ended_eq {text' : List (BitVec 8)} {ended' : Bool} (hfree : bus.mutex = false)
    (hsized : bus.mmu.size.toNat < 2 ^ 63) (h : bus.Copies residue offs 0 text ended)
    (h' : bus.Copies residue offs 0 text' ended') : ended' = ended := by
  have hlength := h.length_le
  have hlength' := h'.length_le
  obtain ⟨b₁, -, hstatus, hread⟩ :=
    h.loop ⟨rfl, .refl _, hfree⟩ hsized (show text.length < 2 ^ 32 + 1 by omega)
  obtain ⟨b₂, -, hstatus', hread'⟩ :=
    h'.loop ⟨rfl, .refl _, hfree⟩ hsized (show text'.length < 2 ^ 32 + 1 by omega)
  have hsame : b₁ = b₂ := congrArg Prod.snd (Except.ok.inj (hread.symm.trans hread'))
  rw [← hsame] at hstatus'
  exact Bool.eq_iff_iff.mpr (hstatus'.symm.trans hstatus)

theorem Bus.Copies.nonzero (h : bus.Copies residue offs i text ended) : ∀ c ∈ text, c ≠ 0 := by
  induction h with
  | zero | lost => exact List.forall_mem_nil _
  | byte _ hmore _ ih => exact List.forall_mem_cons.mpr ⟨hmore, ih⟩

/-- The host reads it up to its end. -/
theorem Bus.Copies.takeWhile (h : bus.Copies residue offs i text true) :
    (text ++ [0]).takeWhile (· ≠ 0) = text := by
  rw [List.takeWhile_append_of_pos fun c hc => decide_eq_true (h.nonzero c hc)]
  exact List.append_nil text

end Copy

/-! ## What a system call asks for -/

/-- The calls of the host that a system call with these registers makes: one, or none. -/
inductive Bus.Asks (bus : Bus) (host : Host) (regs : Regs) : List HostCall → Prop
  | read (number : regs 17 = 63) : Asks bus host regs [.read (regs 10) (regs 12)]
  | write {bytes : List (BitVec 8)} (number : regs 17 = 64) (standard : regs 10 ≤ 2)
      (fits : regs 12 < 256) (length : bytes.length = (regs 12).toNat)
      (exact : bus.mmu.LetsRange Perm.Readable (regs 11) (regs 12).toNat →
        bytes = bus.mmu.bytesAt (regs 11) (regs 12)) :
      Asks bus host regs [.write (regs 10) bytes]
  | fstat (number : regs 17 = 80) : Asks bus host regs [.fstat (regs 10)]
  | close (number : regs 17 = 57) (other : ¬ regs 10 ≤ 2) :
      Asks bus host regs [.close (regs 10)]
  | lseek (number : regs 17 = 62) :
      Asks bus host regs [.lseek (regs 10) (regs 11) (regs 12)]
  | openFile {path : List (BitVec 8)} (number : regs 17 = 1024)
      (copies : bus.Copies host.residue (wide (regs 10)) 0 path true) (fits : path.length < 256) :
      Asks bus host regs [.openFile path (regs 11) (regs 12)]
  | none (silent : regs 17 ∉ [62, 63, 64, 80]) (standard : regs 17 = 57 → regs 10 ≤ 2)
      (lost : regs 17 = 1024 → ∃ text, bus.Copies host.residue (wide (regs 10)) 0 text false) :
      Asks bus host regs []

/-- The handler has no answer to a system call with these registers. -/
def Bus.Ends (bus : Bus) (host : Host) (regs : Regs) : Prop :=
  regs 17 ∉ [57, 62, 63, 64, 80, 214, 1024] ∨
    regs 17 = 1024 ∧ ∃ text, bus.Copies host.residue (wide (regs 10)) 0 text false

section Call

variable {m : Machine} {host : Host} {arg0 arg1 arg2 : Word}

theorem Bus.IsMain.divided {bus : Bus} (h : bus.IsMain) : bus.Divided := by
  obtain ⟨ram, csr, mutex, status, mmu, rfl⟩ := h
  exact emulatorBus_divided

theorem sysOpen_copies (hmain : m.bus.IsMain) (hsized : m.bus.mmu.size.toNat < 2 ^ 63) :
    Returns (fun r => ∃ text ended, m.bus.Copies host.residue (wide arg0) 0 text ended ∧
        (∀ text' ended', m.bus.Copies host.residue (wide arg0) 0 text' ended' → ended' = ended) ∧
        text.length < 256 ∧ r.1 = ended ∧
        r.2.calls = m.calls ++ if ended = true then [.openFile text arg1 arg2] else [])
      (sysOpen host m arg0 arg1 arg2) := by
  intro r hr
  cases hlock : m.bus.mutex with
  | true =>
      rw [sysOpen_locked hlock] at hr
      cases hr
  | false =>
      obtain ⟨text, ended, bus, hcopies, hstatus, hread⟩ :=
        busReadString_copies hmain.divided hlock hsized host.residue (wide arg0)
      have hlength : text.length < 256 := by
        by_contra hlong
        rw [sysOpen, hread, Transition.ok_bind] at hr
        obtain ⟨hfits, -⟩ := Transition.of_ite_error hr
        rw [List.length_append, List.length_singleton] at hfits
        omega
      have hfits : (text ++ [if ended = true then (0 : BitVec 8) else 0xde]).length ≤ 256 := by
        rw [List.length_append, List.length_singleton]
        exact hlength
      have hunique : ∀ text' ended', m.bus.Copies host.residue (wide arg0) 0 text' ended' →
          ended' = ended := fun _ _ h => hcopies.ended_eq hlock hsized h
      refine ⟨text, ended, hcopies, hunique, hlength, ?_⟩
      cases ended with
      | true =>
          rw [sysOpen_opens host arg1 arg2 hread hfits (hstatus.mpr rfl)] at hr
          rw [if_pos rfl, hcopies.takeWhile] at hr
          cases hr
          exact ⟨rfl, rfl⟩
      | false =>
          have hfailed : bus.status ≠ .ok := fun hok => Bool.false_ne_true (hstatus.mp hok)
          rw [sysOpen_fails host arg1 arg2 hread hfits hfailed] at hr
          cases hr
          exact ⟨rfl, (List.append_nil _).symm⟩

theorem sysWrite_bytes (hmain : m.bus.IsMain) (hsized : m.bus.mmu.size.toNat < 2 ^ 63) :
    Returns (fun r => ∃ bytes : List (BitVec 8), arg0 ≤ 2 ∧ arg2 < 256 ∧
        bytes.length = arg2.toNat ∧
        (m.bus.mmu.LetsRange Perm.Readable arg1 arg2.toNat → bytes = m.bus.mmu.bytesAt arg1 arg2) ∧
        r.1 = true ∧ r.2.calls = m.calls ++ [.write arg0 bytes])
      (sysWrite host m arg0 arg1 arg2) := by
  intro r hr
  have hchecked := hr
  unfold sysWrite at hchecked
  obtain ⟨hfd, hchecked⟩ := Transition.of_ite_error hchecked
  obtain ⟨hn, -⟩ := Transition.of_ite_error hchecked
  rw [not_not] at hfd hn
  rw [sysWrite_eq hfd hn] at hr
  obtain ⟨⟨count, out, bus⟩, hread, hr⟩ := Transition.exists_of_bind_ok hr
  cases hr
  refine ⟨(List.range arg2.toNat).map out, hfd, hn, ?_, ?_, rfl, rfl⟩
  · rw [List.length_map, List.length_range]
  · intro hlets
    obtain ⟨ram, csr, mutex, status, mmu, hbus⟩ := hmain
    rw [hbus] at hread hlets hsized ⊢
    obtain ⟨hfree, hcsr⟩ := blockRead_returned hread
    rw [hfree] at hread
    obtain ⟨count', out', bus', hblock, hbytes⟩ :=
      blockRead_lets ram csr status host.buffer hsized hlets hcsr
    cases hread.symm.trans hblock
    exact hbytes

/-- What an answer of the handler tells. -/
structure Machine.Answered (m : Machine) (host : Host) (r : Bool × Machine) : Prop where
  asks : ∃ asked, m.bus.Asks host m.core.registers asked ∧ r.2.calls = m.calls ++ asked
  ends : r.1 = false ↔ m.bus.Ends host m.core.registers

theorem not_ends {bus : Bus} {regs : Regs} {n : Word} (hn : regs 17 = n)
    (hanswered : n ∈ [57, 62, 63, 64, 80, 214, (1024 : Word)]) (hne : n ≠ 1024) :
    ¬ bus.Ends host regs := by
  rintro (hout | ⟨hopen, -⟩)
  · rw [hn] at hout
    exact hout hanswered
  · exact hne (hn.symm.trans hopen)

theorem Machine.Answered.goesOn {r : Bool × Machine} {n : Word} {asked : List HostCall}
    (hn : m.core.registers 17 = n) (hanswered : n ∈ [57, 62, 63, 64, 80, 214, (1024 : Word)])
    (hne : n ≠ 1024) (hgoes : r.1 = true) (hasks : m.bus.Asks host m.core.registers asked)
    (hcalls : r.2.calls = m.calls ++ asked) : m.Answered host r := by
  refine ⟨⟨asked, hasks, hcalls⟩, iff_of_false ?_ (not_ends hn hanswered hne)⟩
  rw [hgoes]
  nofun

theorem Machine.Answered.stops (hn : m.core.registers 17 ∉ [57, 62, 63, 64, 80, 214, 1024]) :
    m.Answered host (false, m) := by
  simp only [List.mem_cons, List.not_mem_nil, or_false, not_or] at hn
  obtain ⟨h57, h62, h63, h64, h80, h214, h1024⟩ := hn
  refine ⟨⟨[], .none ?_ (absurd · h57) (absurd · h1024), (List.append_nil _).symm⟩, ?_⟩
  · simp only [List.mem_cons, List.not_mem_nil, or_false, not_or]
    exact ⟨h62, h63, h64, h80⟩
  · refine iff_of_true rfl (Or.inl ?_)
    simp only [List.mem_cons, List.not_mem_nil, or_false, not_or]
    exact ⟨h57, h62, h63, h64, h80, h214, h1024⟩

theorem sysBrk_calls : Returns (fun r => r.1 = true ∧ r.2.calls = m.calls) (sysBrk m arg0) := by
  refine returns_cases (fun _ => ?_) fun _ => returns_ok ⟨rfl, rfl⟩
  exact returns_bind (returns_any _) fun _ _ => returns_ok ⟨rfl, rfl⟩

theorem sysClose_asks : Returns (fun r => r.1 = true ∧
      r.2.calls = m.calls ++ if arg0 ≤ 2 then [] else [.close arg0]) (sysClose host m arg0) := by
  refine returns_cases (fun hstandard => returns_ok ⟨rfl, ?_⟩) fun hother => returns_ok ⟨rfl, ?_⟩
  · rw [if_pos hstandard, List.append_nil]
    rfl
  · rw [if_neg hother]
    rfl

theorem handleUmodeCall_answers (hmain : m.bus.IsMain) (hsized : m.bus.mmu.size.toNat < 2 ^ 63) :
    Returns (m.Answered host) (handleUmodeCall host m) := by
  have hnone : ∀ {n : Word}, m.core.registers 17 = n →
      n ∉ [57, 62, 63, 64, 80, 214, (1024 : Word)] → m.Answered host (false, m) :=
    fun hn hout => .stops (by rwa [hn])
  unfold handleUmodeCall handleSyscall
  refine returns_cases (fun hn => returns_ok (hnone hn (by decide))) fun _ => ?_
  refine returns_cases (fun hn => returns_ok (hnone hn (by decide))) fun _ => ?_
  refine returns_cases (fun hn => ?_) fun hbrk => ?_
  · refine returns_imp sysBrk_calls ?_
    rintro r ⟨hgoes, hcalls⟩
    refine .goesOn hn (by decide) (by decide) hgoes (.none ?_ ?_ ?_) ?_
    · rw [hn]
      decide
    · rw [hn]
      nofun
    · rw [hn]
      nofun
    · rw [hcalls, List.append_nil]
  refine returns_cases (fun hn => ?_) fun hread => ?_
  · refine returns_bind (returns_any _) fun _ _ => returns_ok ?_
    exact .goesOn hn (by decide) (by decide) rfl (.read hn) rfl
  refine returns_cases (fun hn => ?_) fun hwrite => ?_
  · refine returns_imp (sysWrite_bytes hmain hsized) ?_
    rintro r ⟨bytes, hfd, hfits, hlength, hexact, hgoes, hcalls⟩
    exact .goesOn hn (by decide) (by decide) hgoes (.write hn hfd hfits hlength hexact) hcalls
  refine returns_cases (fun hn => ?_) fun hopen => ?_
  · refine returns_imp (sysOpen_copies hmain hsized) ?_
    rintro r ⟨text, ended, hcopies, hunique, hfits, hflag, hcalls⟩
    cases ended with
    | true =>
        rw [if_pos rfl] at hcalls
        refine ⟨⟨_, .openFile hn hcopies hfits, hcalls⟩, ?_⟩
        rw [hflag]
        refine iff_of_false nofun ?_
        rintro (hout | ⟨-, text', hlost⟩)
        · rw [hn] at hout
          exact hout (by decide)
        · exact Bool.false_ne_true (hunique text' false hlost)
    | false =>
        rw [if_neg Bool.false_ne_true] at hcalls
        refine ⟨⟨_, .none ?_ ?_ fun _ => ⟨text, hcopies⟩, hcalls⟩, ?_⟩
        · rw [hn]
          decide
        · rw [hn]
          nofun
        · exact iff_of_true hflag (Or.inr ⟨hn, text, hcopies⟩)
  refine returns_cases (fun hn => ?_) fun hclose => ?_
  · refine returns_imp sysClose_asks ?_
    rintro r ⟨hgoes, hcalls⟩
    by_cases hstandard : m.core.registers 10 ≤ 2
    · rw [if_pos hstandard] at hcalls
      refine .goesOn hn (by decide) (by decide) hgoes (.none ?_ (fun _ => hstandard) ?_) hcalls
      · rw [hn]
        decide
      · rw [hn]
        nofun
    · rw [if_neg hstandard] at hcalls
      exact .goesOn hn (by decide) (by decide) hgoes (.close hn hstandard) hcalls
  refine returns_cases (fun hn => returns_ok ?_) fun hlseek => ?_
  · exact .goesOn hn (by decide) (by decide) rfl (.lseek hn) rfl
  refine returns_cases (fun hn => ?_) fun hfstat => returns_ok (.stops ?_)
  · refine returns_bind (returns_any _) fun _ _ => returns_ok ?_
    exact .goesOn hn (by decide) (by decide) rfl (.fstat hn) rfl
  · simp only [List.mem_cons, List.not_mem_nil, or_false, not_or]
    exact ⟨hclose, hlseek, hread, hwrite, hfstat, hbrk, hopen⟩

end Call

/-! ## Turns -/

/-- The trap that the handler is called for is an environment call. -/
def Machine.Ecalls (m : Machine) : Prop :=
  (csrReadClear32 m.core.csr mcause 0).1 = TrapCause.envCallUmode.code

/-- The handler ends the loop on this machine. -/
def Machine.Ends (m : Machine) (host : Host) : Prop :=
  m.Ecalls → m.bus.Ends host m.core.registers

/-- The calls of the host in a turn: those of its environment call, or none. -/
inductive Turn.Asked (t' : Turn) (host : Host) : List HostCall → Prop
  | called {m : Machine} {asked : List HostCall} (handled : t'.handled = some m)
      (ecalls : m.Ecalls) (asks : m.bus.Asks host m.core.registers asked) : Asked t' host asked
  | quiet (silent : ∀ m, t'.handled = some m → ¬ m.Ecalls) : Asked t' host []

section Turns

variable {m m' : Machine} {s t t' : Turn} {host : Host} {hosts : List Host} {residue : BitVec 8}

theorem coreCycle_calls (h : coreCycle residue m = .ok m') : m'.calls = m.calls := by
  cases coreCycle_cases h with
  | fetched _ hfetched => exact hfetched.calls
  | decoded _ hout | executed _ hout | accessed _ hout =>
      cases hout with
      | done | trapped => rfl
  | written | entered | exiting | resumed => rfl

theorem ThreadStep.asks (h : ThreadStep emulatorTurn t host t') (hmain : t.machine.bus.IsMain)
    (hsized : t.machine.bus.mmu.size.toNat < 2 ^ 63) :
    (∃ asked, t'.Asked host asked ∧ t'.machine.calls = t.machine.calls ++ asked) ∧
      (t'.running = false ↔ ∃ m, t'.handled = some m ∧ m.Ends host) := by
  obtain ⟨m, hcycle, hturn⟩ := h.cycle
  by_cases hhandle : m.core.state = .trap ∧ m.core.trapState = .handle
  · obtain ⟨-, -, rfl⟩ := coreCycle_entered hcycle hhandle.1 hhandle.2
    unfold handleTrap at hturn
    rw [if_pos hhandle] at hturn
    obtain ⟨r, hr, hturn⟩ := Transition.exists_of_bind_ok hturn
    cases hturn
    obtain ⟨csr, hcall⟩ := trapHandler_call host t.machine.entered
    rw [hcall] at hr
    by_cases hecalls : (csrReadClear32 t.machine.entered.core.csr mcause 0).1 =
        TrapCause.envCallUmode.code
    · rw [if_pos hecalls] at hr
      obtain ⟨⟨asked, hasks, hcalls⟩, hends⟩ :=
        @handleUmodeCall_answers (t.machine.entered.withCsr csr) host hmain hsized r hr
      refine ⟨⟨asked, .called rfl hecalls hasks, hcalls⟩, hends.trans ⟨fun hout => ?_, ?_⟩⟩
      · exact ⟨_, rfl, fun _ => hout⟩
      · rintro ⟨m, hm, hout⟩
        cases hm
        exact hout hecalls
    · rw [if_neg hecalls] at hr
      cases hr
      refine ⟨⟨[], .quiet ?_, (List.append_nil _).symm⟩, iff_of_true rfl ?_⟩
      · intro m hm
        cases hm
        exact hecalls
      · exact ⟨_, rfl, fun hecall => absurd hecall hecalls⟩
  · rw [handleTrap_quiet fun htrap hstate => hhandle ⟨htrap, hstate⟩] at hturn
    cases hturn
    have hcalls := coreCycle_calls hcycle
    refine ⟨⟨[], .quiet ?_, hcalls.trans (List.append_nil _).symm⟩, ?_⟩
    · intro m hm
      cases hm
    · refine iff_of_false Bool.noConfusion ?_
      rintro ⟨m, hm, -⟩
      cases hm

/-- The machine is one of the emulator's. -/
def Turn.Placed (t : Turn) : Prop :=
  t.machine.bus.IsMain ∧ t.machine.bus.mmu.size.toNat < 2 ^ 63

theorem ThreadStep.placed (h : ThreadStep emulatorTurn t host t') (hplaced : t.Placed) :
    t'.Placed := by
  refine ⟨h.isMain hplaced.1, ?_⟩
  rw [h.extent.2]
  exact hplaced.2

/-- The host is called once for each call that the system calls of the run ask for, in their
order, and not in another turn. -/
theorem hostCalls_exact (hplaced : s.Placed) (h : Run (ThreadStep emulatorTurn) s hosts t) :
    ∃ log : List (Host × List HostCall), log.map Prod.fst = hosts ∧
      Run (fun t x t' => ThreadStep emulatorTurn t x.1 t' ∧ t'.Asked x.1 x.2) s log t ∧
        t.machine.calls = s.machine.calls ++ log.flatMap Prod.snd := by
  refine h.logged (f := fun t => t.machine.calls) (I := Turn.Placed)
    (P := fun _ host t' asked => t'.Asked host asked) hplaced ?_ ?_
  · exact fun hplaced hturn => hturn.placed hplaced
  · exact fun hplaced hturn => (hturn.asks hplaced.1 hplaced.2).1

/-- The loop has ended if and only if its last turn has called the handler, for a trap that is
no environment call or for one that has no answer. -/
theorem loop_ended_iff (hplaced : s.Placed) (hstarts : s.running = true)
    (h : Run (ThreadStep emulatorTurn) s hosts t) :
    t.running = false ↔ ∃ before host u m, hosts = before ++ [host] ∧
      Run (ThreadStep emulatorTurn) s before u ∧ ThreadStep emulatorTurn u host t ∧
        t.handled = some m ∧ m.Ends host := by
  cases h with
  | nil =>
      refine iff_of_false (fun hended => ?_) ?_
      · rw [hstarts] at hended
        cases hended
      · rintro ⟨before, host, u, m, hsplit, -⟩
        simp at hsplit
  | @snoc hosts u t host hrun hlast =>
      have hturned : u.Placed :=
        hrun.invariant (I := Turn.Placed) hplaced fun hplaced hturn => hturn.placed hplaced
      rw [(hlast.asks hturned.1 hturned.2).2]
      constructor
      · rintro ⟨m, hhandled, hends⟩
        exact ⟨hosts, host, u, m, rfl, hrun, hlast, hhandled, hends⟩
      · rintro ⟨before, host', u', m, hsplit, -, -, hhandled, hends⟩
        obtain ⟨-, hhost⟩ := List.append_inj' hsplit rfl
        cases hhost
        exact ⟨m, hhandled, hends⟩

end Turns

/-! ## What the guest does not reach -/

/-- The CSRs other than those of a trap, the mode and the identity of the core. -/
structure Core.Confines (core core' : Core) : Prop where
  csr : ∀ a, a ≠ mepc → a ≠ mcause → core'.csr a = core.csr a
  privMode : core'.privMode = core.privMode
  id : core'.id = core.id
  halted : core'.halted = core.halted

section Confined

variable {core core' core'' : Core} {m m' : Machine} {s t t' : Turn} {host : Host}
  {hosts : List Host} {residue : BitVec 8}

theorem Core.Confines.refl (core : Core) : core.Confines core :=
  ⟨fun _ _ _ => rfl, rfl, rfl, rfl⟩

theorem Core.Confines.trans (h : core.Confines core') (h' : core'.Confines core'') :
    core.Confines core'' where
  csr a hmepc hmcause := (h'.csr a hmepc hmcause).trans (h.csr a hmepc hmcause)
  privMode := h'.privMode.trans h.privMode
  id := h'.id.trans h.id
  halted := h'.halted.trans h.halted

theorem coreCycle_confines (h : coreCycle residue m = .ok m') : m.core.Confines m'.core := by
  cases coreCycle_cases h with
  | fetched _ hfetched =>
      rw [hfetched.core]
      exact ⟨fun _ _ _ => rfl, rfl, rfl, rfl⟩
  | decoded _ hout | executed _ hout | accessed _ hout =>
      cases hout with
      | done => exact ⟨fun _ _ _ => rfl, rfl, rfl, rfl⟩
      | trapped => exact ⟨fun _ _ hmcause => Csr.set_of_ne _ hmcause _, rfl, rfl, rfl⟩
  | written =>
      rw [writeback_eq]
      exact ⟨fun _ _ _ => rfl, rfl, rfl, rfl⟩
  | exiting => exact ⟨fun _ _ _ => rfl, rfl, rfl, rfl⟩
  | entered => exact ⟨fun _ hmepc _ => Csr.set_of_ne _ hmepc _, rfl, rfl, rfl⟩
  | resumed => exact ⟨fun _ hmepc _ => csrReadClear32_of_ne _ hmepc _, rfl, rfl, rfl⟩

/-- The handler clears nothing but in the two CSRs that it reads. -/
theorem trapHandler_confines (host : Host) (m : Machine) :
    Returns (fun r => m.core.Confines r.2.core) (trapHandler host m) := by
  have hread : ∀ a, a ≠ mepc → a ≠ mcause →
      (csrReadClear32 (csrReadClear32 m.core.csr mcause 0).2 mepc 0).2 a = m.core.csr a := by
    intro a hmepc hmcause
    rw [csrReadClear32_of_ne _ hmepc, csrReadClear32_of_ne _ hmcause]
  refine returns_cases (fun _ => ?_) fun _ => returns_ok ⟨hread, rfl, rfl, rfl⟩
  refine returns_imp (handleSyscall_saves host _ _ _ _ _) fun r hsaves => ?_
  rw [hsaves]
  exact ⟨hread, rfl, rfl, rfl⟩

theorem ThreadStep.confines (h : ThreadStep emulatorTurn t host t') :
    t.machine.core.Confines t'.machine.core := by
  obtain ⟨m, hcycle, hturn⟩ := h.cycle
  have hcore := coreCycle_confines hcycle
  by_cases hhandle : m.core.state = .trap ∧ m.core.trapState = .handle
  · unfold handleTrap at hturn
    rw [if_pos hhandle] at hturn
    obtain ⟨r, hr, hturn⟩ := Transition.exists_of_bind_ok hturn
    cases hturn
    exact hcore.trans (trapHandler_confines host m r hr)
  · rw [handleTrap_quiet fun htrap hstate => hhandle ⟨htrap, hstate⟩] at hturn
    cases hturn
    exact hcore

/-- Whatever the guest does, it changes no CSR but the two of a trap, neither the mode nor the
identity of its core, nor where the memory is and which devices there are. -/
theorem guest_confined (hmain : s.machine.bus.IsMain)
    (h : Run (ThreadStep emulatorTurn) s hosts t) :
    s.machine.core.Confines t.machine.core ∧ t.machine.bus.IsMain ∧
      t.machine.bus.mmu.base = s.machine.bus.mmu.base ∧
        t.machine.bus.mmu.size = s.machine.bus.mmu.size := by
  refine h.invariant (I := fun t => s.machine.core.Confines t.machine.core ∧
    t.machine.bus.IsMain ∧ t.machine.bus.mmu.base = s.machine.bus.mmu.base ∧
      t.machine.bus.mmu.size = s.machine.bus.mmu.size) ⟨.refl _, hmain, rfl, rfl⟩ ?_
  rintro u host v ⟨hcore, hmain, hbase, hsize⟩ hturn
  exact ⟨hcore.trans hturn.confines, hturn.isMain hmain, hturn.extent.1.trans hbase,
    hturn.extent.2.trans hsize⟩

end Confined

/-! ## An environment call -/

/-- At an environment call with this number, and with 0 in the other registers. -/
def askingMachine (n : Word) : Machine :=
  { core := { coreInit cpuInitCore 0 ramStart with
      state := .trap
      trapState := .enter
      csr := Csr.set (fun _ => 0) mcause (wide TrapCause.envCallUmode.code)
      registers := fun r => if r = 17 then n else 0 }
    bus := mainBus rawMmu
    calls := [] }

theorem askingMachine_placed (n : Word) : (Turn.first (askingMachine n)).Placed :=
  ⟨⟨_, _, _, _, _, rfl⟩, show rawMmu.size.toNat < 2 ^ 63 by decide⟩

theorem askingMachine_step {n : Word} {r : Bool × Machine}
    (hcall : handleUmodeCall quietHost (askingMachine n).entered = .ok r) :
    ThreadStep emulatorTurn (Turn.first (askingMachine n)) quietHost
      { machine := r.2, handled := some (askingMachine n).entered, running := r.1 } := by
  have hcause : (askingMachine n).entered.core.csr mcause = wide TrapCause.envCallUmode.code := rfl
  have hepc : (askingMachine n).entered.core.csr mepc = wide ramStart := rfl
  refine ⟨rfl, ?_⟩
  show emulatorTurn quietHost (askingMachine n) = _
  rw [emulatorTurn_eq, coreCycle_enter rfl rfl, Transition.ok_bind, handleTrap, if_pos ⟨rfl, rfl⟩]
  show trapHandler quietHost _ >>= _ = _
  rw [trapHandler_eq hcause hepc, if_pos rfl, hcall]
  rfl

/-- A `lseek` is asked for once. -/
theorem seek_asked : ∃ t log, Run (ThreadStep emulatorTurn) (Turn.first (askingMachine 62))
      [quietHost] t ∧
    Run (fun t (x : Host × List HostCall) t' => ThreadStep emulatorTurn t x.1 t' ∧
      t'.Asked x.1 x.2) (Turn.first (askingMachine 62)) log t ∧
    t.machine.calls = [.lseek 0 0 0] ∧ log.flatMap Prod.snd = [.lseek 0 0 0] := by
  have hrun := Run.single (@askingMachine_step 62 (true, _) rfl)
  obtain ⟨log, -, hlog, hcalls⟩ := hostCalls_exact (askingMachine_placed 62) hrun
  exact ⟨_, log, hrun, hlog, rfl, hcalls.symm⟩

/-- An `exit` ends the loop, and the `lseek` does not. -/
theorem exit_ends :
    (∃ t m, Run (ThreadStep emulatorTurn) (Turn.first (askingMachine 93)) [quietHost] t ∧
      t.handled = some m ∧ m.Ends quietHost) ∧
    ¬ (askingMachine 62).entered.Ends quietHost := by
  constructor
  · have hrun := Run.single (@askingMachine_step 93 (false, _) rfl)
    obtain ⟨before, host, u, m, hsplit, -, -, hhandled, hends⟩ :=
      (loop_ended_iff (askingMachine_placed 93) rfl hrun).mp rfl
    obtain ⟨-, hhost⟩ := List.append_inj' (show [] ++ [quietHost] = _ from hsplit) rfl
    cases hhost
    exact ⟨_, m, hrun, hhandled, hends⟩
  · intro hends
    have hturn := @askingMachine_step 62 (true, _) rfl
    have hended := (loop_ended_iff (askingMachine_placed 62) rfl (Run.single hturn)).mpr
      ⟨[], quietHost, _, _, rfl, .nil, hturn, rfl, hends⟩
    cases hended

/-- The call has been through the CSRs of the trap, and through no other. -/
theorem seek_confined : ∃ t, Run (ThreadStep emulatorTurn) (Turn.first (askingMachine 62))
      [quietHost] t ∧
    t.machine.core.csr mepc = wide ramStart ∧ (askingMachine 62).core.Confines t.machine.core := by
  have hrun := Run.single (@askingMachine_step 62 (true, _) rfl)
  exact ⟨_, hrun, rfl, (guest_confined (askingMachine_placed 62).1 hrun).1⟩

end CRiscV
