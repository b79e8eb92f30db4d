/-
  RichText/Proofs/Markup/Instructions.lean
  ========================================
  **Instructions are read back as they were written.**

  An instruction ends where its code points end, whatever follows: `lexemesFrom`
  gives it as one token and goes on at the first code point after it
  (`lexemesFrom_codePoints`).  A setting has to be delimited by its terminator
  alone for that, which only lists of letters and two colors in a row could spoil.
-/
import RichText.Markup.Token
import RichText.Proofs.Markup.Parameters

namespace RichText

/-! ### Settings -/

namespace Setting

/-- Whether the parameters of a setting end where they seem to: a terminator among
    letters would end them early, and a color without its alpha would take the one
    that follows for it. -/
def SelfDelimiting : Setting → Prop
  | selectionStyle s => s.text.BringsAlpha ∧ s.background.BringsAlpha
  | addBreakingLetters letters => ∀ c ∈ letters, c ≠ Control.terminator
  | removeBreakingLetters letters => ∀ c ∈ letters, c ≠ Control.terminator
  | _ => True

end Setting

namespace Reading

private theorem parameters_indexCommand (t : ColorTarget) :
    parameters t.indexCommand = (do return some (.color t (← indexed))) := by
  cases t <;> rfl

private theorem parameters_rgbaCommand (t : ColorTarget) :
    parameters t.rgbaCommand = (do return some (.color t (.rgba (← rgba)))) := by
  cases t <;> rfl

private theorem parameters_lengthCommand (t : LengthTarget) :
    parameters t.command = (do return some (.length t (← length))) := by
  cases t <;> rfl

/-- A color is read after the command of the color table or that of four bytes. -/
private theorem takes_color (target : ColorTarget) (c : ColorRef) (rest : List Nat) :
    Takes (parameters (Setting.color target c).command) (Writing.color c)
      (Control.terminator :: rest) (some (.color target c)) := by
  have hend := noIndex_terminator rest
  cases c with
  | default =>
    have hc : (Setting.color target .default).command = target.indexCommand := rfl
    rw [hc, parameters_indexCommand]
    exact (takes_no_color hend).bind_pure _
  | indexed i alpha =>
    have hc : (Setting.color target (.indexed i alpha)).command = target.indexCommand := rfl
    rw [hc, parameters_indexCommand]
    exact (takes_indexed i alpha fun _ => hend).bind_pure _
  | rgba c =>
    have hc : (Setting.color target (.rgba c)).command = target.rgbaCommand := rfl
    rw [hc, parameters_rgbaCommand]
    exact (takes_rgba c _).bind_pure _

private theorem takes_targetLength (target : LengthTarget) (l : Option Length) (rest : List Nat) :
    Takes (parameters target.command) (Writing.length l) rest (some (.length target l)) := by
  rw [parameters_lengthCommand]
  exact (takes_length l rest).bind_pure _

private theorem takes_lineSettings (line : Decoration) (change : LineChange) (rest : List Nat) :
    Takes (parameters (Setting.lineSettingsCommand line)) (Writing.lineChange change) rest
      (some (.lineSettings line change)) := by
  cases line <;> exact (takes_lineChange change rest).bind_pure _

private theorem takes_twoLengths (x y : Option Length) (rest : List Nat)
    (f : Option Length → Option Length → Setting) :
    Takes (do return some (f (← length) (← length))) (Writing.length x ++ Writing.length y) rest
      (some (f x y)) :=
  (takes_length x _).bind ((takes_length y rest).bind_pure _)

private theorem takes_beginTable (border : Bool) (width : Option Length)
    (columns : List ColumnSetting) (rest : List Nat) :
    Takes (parameters 0x20) (border.toNat :: (Writing.length width ++ columns.flatMap Writing.column))
      (Control.terminator :: rest) (some (.beginTable border width columns)) := by
  have hb : border.toNat < 128 := by cases border <;> decide
  have hend : (Control.terminator :: rest).head? ≠ some Control.rowSeparator := by
    rw [List.head?_cons]
    decide
  have h : Takes (parameters 0x20) ([border.toNat] ++
      (Writing.length width ++ columns.flatMap Writing.column))
      (Control.terminator :: rest) (some (.beginTable (border.toNat != 0) width columns)) :=
    (takes_indexOrZero hb _).bind ((takes_length width _).bind
      ((takes_allColumns columns hend).bind_pure _))
  have e : (border.toNat != 0) = border := by cases border <;> rfl
  rwa [e] at h

/-- The parameters of a setting are read up to its terminator. -/
theorem takes_parameters {s : Setting} (h : s.SelfDelimiting) (rest : List Nat) :
    Takes (parameters s.command) s.parameters (Control.terminator :: rest) (some s) := by
  have hend := noIndex_terminator rest
  cases s with
  | color target c => exact takes_color target c rest
  | length target l => exact takes_targetLength target l _
  | padding s => exact (takes_sides s _).bind_pure _
  | selectionPadding s => exact (takes_sides s _).bind_pure _
  | letterOffset x y => exact takes_twoLengths x y _ Setting.letterOffset
  | image i => exact (takes_image i _).bind_pure _
  | selectionStyle s => exact (takes_selectionStyle h.1 h.2 _).bind_pure _
  | font id => exact (takes_optionalIndex id hend).bind_pure _
  | lineSettings line change => exact takes_lineSettings line change _
  | beginTable border width columns => exact takes_beginTable border width columns rest
  | columnSpan columns align =>
    have ha : align.code < 128 := by cases align <;> decide
    have h : Takes (parameters 0x21) (Writing.index columns ++ [align.code])
        (Control.terminator :: rest) (some (.columnSpan columns (TextAlign.ofCode align.code))) :=
      (takes_index columns _).bind ((takes_indexOrZero ha _).bind_pure _)
    rwa [TextAlign.ofCode_code] at h
  | rowSpan rows => exact (takes_optionalIndex rows hend).bind_pure _
  | addBreakingLetters letters => exact (takes_letters h rest).bind_pure _
  | removeBreakingLetters letters => exact (takes_letters h rest).bind_pure _
  | addTabStop id position => exact (takes_index id _).bind ((takes_length position _).bind_pure _)
  | removeTabStop id => exact (takes_index id _).bind_pure _
  | startRegion id => exact (takes_index id _).bind_pure _
  | endRegion id => exact (takes_index id _).bind_pure _
  | placeholderSize width height => exact takes_twoLengths width height _ Setting.placeholderSize

end Reading

theorem Setting.read_parameters {s : Setting} (h : s.SelfDelimiting) (rest : List Nat) :
    Setting.read s.command (s.parameters ++ Control.terminator :: rest) =
      (some s, s.parameters.length + 1) := by
  have hp := Reading.takes_parameters h rest 0
  have hf := Reading.takes_finish rest (0 + s.parameters.length)
  rw [List.cons_append, List.nil_append] at hf
  rw [Setting.read, hp]
  refine Prod.ext rfl ?_
  change (Reading.finish ⟨0 + s.parameters.length, Control.terminator :: rest⟩).2.used = _
  rw [hf, List.length_singleton, Nat.zero_add]

/-! ### Tokens -/

namespace Token

/-- The code points that `read` looks at before any other, of which a carriage return
    may still be a newline. -/
def special : List Nat :=
  [CodePoint.noncharacter, Control.complexIntroducer, Control.simpleIntroducer,
    CodePoint.carriageReturn, Control.rowSeparator, Control.cellSeparator, CodePoint.placeholder]

theorem read_of_not_special {c : Nat} (h : c ∉ special) (rest : List Nat) :
    read c rest = (single c, 0) := by
  simp only [special, List.mem_cons, List.not_mem_nil, or_false, not_or] at h
  obtain ⟨hn, hc, hs, hr, hrow, hcell, hp⟩ := h
  simp only [read, if_neg hn, if_neg hc, if_neg hs, if_neg hrow, if_neg hcell, if_neg hp, hr,
    false_and, if_false]

theorem code_not_special (t : Toggle) : t.code ∉ special := by
  cases t with
  | heading level => cases level <;> decide
  | _ => decide

theorem read_toggle (t : Toggle) (rest : List Nat) :
    read t.code rest = (.instruction (.toggle t), 0) := by
  rw [read_of_not_special (code_not_special t), single, Toggle.ofCode?_code]

theorem read_switch (s : Switch) (rest : List Nat) :
    read Control.simpleIntroducer (s.command :: rest) = (.instruction (.switch s), 1) := by
  have h : read Control.simpleIntroducer (s.command :: rest)
      = ((Switch.ofCommand? s.command).elim .nothing (.instruction <| .switch ·), 1) := rfl
  rw [h, Switch.ofCommand?_command]
  rfl

theorem read_setting {s : Setting} (h : s.SelfDelimiting) (rest : List Nat) :
    read Control.complexIntroducer (s.command :: (s.parameters ++ Control.terminator :: rest)) =
      (.instruction (.setting s), s.parameters.length + 2) := by
  have e : read Control.complexIntroducer (s.command :: (s.parameters ++ Control.terminator :: rest))
      = ((Setting.read s.command (s.parameters ++ Control.terminator :: rest)).1.elim .nothing
            (.instruction <| .setting ·),
          (Setting.read s.command (s.parameters ++ Control.terminator :: rest)).2 + 1) := rfl
  rw [e, Setting.read_parameters h]
  rfl

end Token

/-! ### Lexemes -/

theorem lexemesFrom_cons (index c : Nat) (cs : List Nat) :
    lexemesFrom 0 index (c :: cs) =
      ⟨index, (Token.read c cs).1⟩ ::
        lexemesFrom 0 (index + 1 + (Token.read c cs).2) (cs.drop (Token.read c cs).2) := by
  rw [← lexemesFrom_skip]
  rfl

/-- Whether an instruction ends where its code points end. -/
def Instruction.SelfDelimiting : Instruction → Prop
  | .setting s => s.SelfDelimiting
  | _ => True

/-- An instruction is one token, and reading goes on after it. -/
theorem lexemesFrom_codePoints {i : Instruction} (h : i.SelfDelimiting) (index : Nat)
    (rest : List Nat) :
    lexemesFrom 0 index (i.codePoints ++ rest) =
      ⟨index, .instruction i⟩ :: lexemesFrom 0 (index + i.codePoints.length) rest := by
  cases i with
  | toggle t =>
    rw [Instruction.codePoints, List.cons_append, List.nil_append, lexemesFrom_cons,
      Token.read_toggle]
    rfl
  | switch s =>
    rw [Instruction.codePoints, List.cons_append, List.cons_append, List.nil_append,
      lexemesFrom_cons, Token.read_switch]
    rfl
  | setting s =>
    have hcs : (Instruction.setting s).codePoints ++ rest = Control.complexIntroducer ::
        (s.command :: (s.parameters ++ Control.terminator :: rest)) := by
      simp [Instruction.codePoints, Setting.codePoints]
    have hlen : (Instruction.setting s).codePoints.length = 1 + (s.parameters.length + 2) := by
      simp only [Instruction.codePoints, Setting.codePoints, List.length_cons, List.length_append,
        List.length_nil]
      omega
    have hdrop : (s.command :: (s.parameters ++ Control.terminator :: rest)).drop
        (s.parameters.length + 2) = rest := by
      have hl : (s.parameters ++ [Control.terminator]).length = s.parameters.length + 1 := by simp
      rw [List.drop_succ_cons, List.append_cons s.parameters, ← hl, List.drop_left]
    rw [hcs, lexemesFrom_cons, Token.read_setting h, hlen, hdrop, Nat.add_assoc]

theorem lexemesFrom_setting {s : Setting} (h : s.SelfDelimiting) (index : Nat)
    (rest : List Nat) :
    lexemesFrom 0 index (s.codePoints ++ rest) =
      ⟨index, .instruction (.setting s)⟩ :: lexemesFrom 0 (index + s.codePoints.length) rest :=
  lexemesFrom_codePoints (i := .setting s) h index rest

end RichText
