/-
A hart at user level: a program counter and registers, on a platform that keeps the memory
with the rights to it and answers the environment calls.
-/
import CRiscV.Isa.Semantics
import CRiscV.Transition.Run

namespace CRiscV
namespace Isa

open Transition (Run)

/-- How an environment call ends. -/
inductive Reply (W : Type) where
  /-- The hart goes on, with this value in a0. -/
  | resumed (a0 : Word) (world : W)
  | halted (world : W)

/-- What surrounds a hart.  An environment call is answered from the world and from what
comes in from outside, an `L`. -/
structure Platform (W L : Type) where
  byte : W → Word → BitVec 8
  fetches : W → Word → Prop
  reads : W → Word → Nat → Prop
  writes : W → Word → Nat → Prop
  store : W → Word → Nat → Word → W
  calls : L → W → (Reg → Word) → Reply W → Prop
  store_byte : ∀ {w a n} (v : Word), writes w a n →
    byte (store w a n v) = storeBytes (byte w) a n v
  calls_unique : ∀ {l w reg r r'}, calls l w reg r → calls l w reg r' → r' = r

/-- The user's part of the state, and the world. -/
structure User (W : Type) where
  pc : Word
  reg : Reg → Word
  world : W

/-- What an instruction makes of a hart. -/
abbrev Effect := Hart → Instr → Hart

def Instr.IsPlain : Instr → Prop
  | .ecall | .ebreak => False
  | _ => True

/-- Where a load or store goes. -/
def Instr.target (reg : Reg → Word) : Instr → Word
  | .load _ _ rs1 offset | .store _ rs1 _ offset => reg rs1 + offset.signExtend 32
  | _ => 0

namespace Platform

variable {W L : Type} (P : Platform W L)

def hart (u : User W) : Hart := { pc := u.pc, reg := u.reg, mem := P.byte u.world }

def word (w : W) (a : Word) : Word :=
  P.byte w (a + 3) ++ P.byte w (a + 2) ++ P.byte w (a + 1) ++ P.byte w a

/-- The instruction may be fetched there. -/
structure Shows (w : W) (a : Word) (i : Instr) : Prop where
  fetches : P.fetches w a
  decodes : decode (P.word w a) = some i

/-- The instruction goes to memory only where it may. -/
def Allows (u : User W) : Instr → Prop
  | .load op rd rs1 offset => P.reads u.world (Instr.target u.reg (.load op rd rs1 offset)) op.size
  | .store op rs1 rs2 offset =>
      P.writes u.world (Instr.target u.reg (.store op rs1 rs2 offset)) op.size
  | _ => True

def stored (u : User W) : Instr → W
  | .store op rs1 rs2 offset =>
      P.store u.world (Instr.target u.reg (.store op rs1 rs2 offset)) op.size (u.reg rs2)
  | _ => u.world

def after (eff : Effect) (u : User W) (i : Instr) : User W :=
  { pc := (eff (P.hart u) i).pc
    reg := (eff (P.hart u) i).reg
    world := P.stored u i }

/-- One instruction.  The label is what an environment call took from outside. -/
inductive Step (eff : Effect) (u : User W) : Option L → User W → Prop
  | plain {i : Instr} : P.Shows u.world u.pc i → i.IsPlain → P.Allows u i →
      Step eff u none (P.after eff u i)
  | call {l : L} {a0 : Word} {world : W} : P.Shows u.world u.pc .ecall →
      P.calls l u.world u.reg (.resumed a0 world) →
        Step eff u (some l) { pc := u.pc + 4, reg := setReg u.reg 10 a0, world := world }

/-- The environment call that ends the user's run. -/
structure Halts (u : User W) (l : L) (world : W) : Prop where
  shows : P.Shows u.world u.pc .ecall
  calls : P.calls l u.world u.reg (.halted world)

variable {P} {eff eff' : Effect} {u u' u'' : User W} {l : Option L} {i j : Instr}

theorem Shows.unique {w : W} {a : Word} (h : P.Shows w a i) (h' : P.Shows w a j) : j = i := by
  have hdecodes := h.decodes
  rw [h'.decodes] at hdecodes
  exact Option.some.inj hdecodes

/-- Two effects that agree on the instruction at hand make the same step. -/
theorem Step.congr (hagree : ∀ i, P.Shows u.world u.pc i →
    (eff' (P.hart u) i).pc = (eff (P.hart u) i).pc ∧
      (eff' (P.hart u) i).reg = (eff (P.hart u) i).reg)
    (h : P.Step eff u l u') : P.Step eff' u l u' := by
  cases h with
  | plain hshows hplain hallows =>
      obtain ⟨hpc, hreg⟩ := hagree _ hshows
      have hafter : P.Step eff' u none _ := .plain hshows hplain hallows
      unfold after at hafter
      rw [hpc, hreg] at hafter
      exact hafter
  | call hshows hcalls => exact .call hshows hcalls

theorem Step.deterministic (h : P.Step eff u l u') (h' : P.Step eff u l u'') : u' = u'' := by
  cases h with
  | plain hshows =>
      cases h' with
      | plain hshows' =>
          cases hshows.unique hshows'
          rfl
  | call hshows hcalls =>
      cases h' with
      | call hshows' hcalls' =>
          cases P.calls_unique hcalls hcalls'
          rfl

end Platform
end Isa
end CRiscV
