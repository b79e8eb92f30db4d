/-
  RichText/Markup/Instruction.lean
  ================================
  **Instructions of the three kinds, and how they are written.**
-/
import RichText.CodePoint.Codec
import RichText.Markup.Setting.Writing

namespace RichText

/-- An instruction in the text. -/
inductive Instruction where
  | toggle (toggle : Toggle)
  | switch (switch : Switch)
  | setting (setting : Setting)
deriving DecidableEq, Repr

namespace Instruction

/-- The code points of an instruction. -/
def codePoints : Instruction → List Nat
  | toggle t => [t.code]
  | switch s => [Control.simpleIntroducer, s.command]
  | setting s => s.codePoints

end Instruction

end RichText
