/-
  RichText/Markup/Token.lean
  ==========================
  **Markup as a list of tokens.**

  How markup divides into text and instructions depends on its code points alone,
  never on the layout.  So the whole stream is divided first; each token keeps the
  position of its first code point, by which glyphs are known later.
-/
import RichText.Markup.Instruction
import RichText.Markup.Setting.Reading

namespace RichText

/-- What a piece of markup asks for. -/
inductive Token where
  /-- A glyph or a space to be set. -/
  | text (code : Nat)
  | newline (code : Nat)
  /-- A box of the placeholder size. -/
  | placeholder
  | row
  | cell
  | instruction (instruction : Instruction)
  /-- Code points without any effect: a carriage return before a line feed, a
      noncharacter, an unknown or incomplete instruction. -/
  | nothing
deriving DecidableEq, Repr

/-- A token and the position of its first code point. -/
structure Lexeme where
  index : Nat
  token : Token
deriving DecidableEq, Repr

namespace Token

/-- The token of a code point that belongs to no other. -/
def single (c : Nat) : Token :=
  match Toggle.ofCode? c with
  | some t => .instruction (.toggle t)
  | none => if CodePoint.isNewline c then .newline c else .text c

/-- The token that starts with `c`, and how many of the code points after `c`
    belong to it. -/
def read (c : Nat) (cs : List Nat) : Token × Nat :=
  if c = CodePoint.noncharacter then (.nothing, 0)
  else if c = Control.complexIntroducer then
    match cs with
    | [] => (.nothing, 0)
    | command :: cs =>
      let (setting, used) := Setting.read command cs
      (setting.elim .nothing (.instruction <| .setting ·), used + 1)
  else if c = Control.simpleIntroducer then
    match cs with
    | [] => (.nothing, 0)
    | command :: _ => ((Switch.ofCommand? command).elim .nothing (.instruction <| .switch ·), 1)
  else if c = CodePoint.carriageReturn ∧ cs.head? = some CodePoint.lineFeed then (.nothing, 0)
  else if c = Control.rowSeparator then (.row, 0)
  else if c = Control.cellSeparator then (.cell, 0)
  else if c = CodePoint.placeholder then (.placeholder, 0)
  else (single c, 0)

end Token

/-- The tokens of code points of which the first `skip` belong to an earlier
    token; the first code point has position `index`. -/
def lexemesFrom : Nat → Nat → List Nat → List Lexeme
  | _, _, [] => []
  | 0, index, c :: cs =>
    let (token, used) := Token.read c cs
    ⟨index, token⟩ :: lexemesFrom used (index + 1) cs
  | skip + 1, index, _ :: cs => lexemesFrom skip (index + 1) cs

/-- The tokens of a list of code points. -/
def lexemes (cs : List Nat) : List Lexeme := lexemesFrom 0 0 cs

@[simp] theorem lexemesFrom_nil (skip index : Nat) : lexemesFrom skip index [] = [] := by
  cases skip <;> rfl

/-- Code points of an earlier token are passed over. -/
theorem lexemesFrom_skip (skip index : Nat) (cs : List Nat) :
    lexemesFrom skip index cs = lexemesFrom 0 (index + skip) (cs.drop skip) := by
  induction skip generalizing index cs with
  | zero => rfl
  | succ skip ih =>
    cases cs with
    | nil => simp
    | cons c cs =>
      rw [lexemesFrom, ih, List.drop_succ_cons]
      congr 1
      omega

end RichText
