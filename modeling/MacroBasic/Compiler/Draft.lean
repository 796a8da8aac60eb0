/-
Programs that are being written. Instructions are written while the text is parsed. A branch forward is written
before its target is known, and is changed when the instruction that it leads to is the next one to be written.
-/
import MacroBasic.Program

namespace MacroBasic.Compiler

/-- A program that is being written. -/
structure Draft where
  program : Program
  /-- The place of the statement that began last. -/
  place : Position

/-- The number of instructions, which is the address of the next one. -/
def Draft.size (d : Draft) : Nat := d.program.size

/-- Writing that may fail. -/
abbrev Writing (α : Type) := StateT Draft (Except Fault) α

/-- Writes an instruction and gives its address. -/
def write (i : Instruction) : Writing Address := fun d =>
  let (a, p) := d.program.add i d.place
  .ok (a, { d with program := p })

/-- Writes instructions one after the other. -/
def writeAll (code : List Instruction) : Writing Unit := code.forM fun i => discard (write i)

/-- The address of the next instruction. -/
def here : Writing Address := fun d => .ok (d.size, d)

/-- Leads the branch at an address to the next instruction. -/
def land (branch : Address) : Writing Unit := fun d =>
  match d.program.retarget branch d.size with
  | (.ok _, p) => .ok ((), { d with program := p })
  | (.error f, _) => .error f

/-- A statement begins at the given place. -/
def begin (p : Position) : Writing Unit := fun d => .ok ((), { d with place := p })

end MacroBasic.Compiler
