/-
  RichText/Proofs/Markup/Pieces.lean
  ==================================
  **Pieces of markup that are read on their own.**

  The tokens of text and of commands end where these do: of what follows, only a line feed
  after a carriage return has a bearing on them (`SelfContained`).  So the tokens of markup
  that is put together from such pieces are those of its parts, one after another
  (`SelfContained.lexemesFrom_append`), and a piece that asks for nothing known can stand
  between any two of them: it is one token without an effect (`Inert`).
-/
import Mathlib.Tactic.SplitIfs
import RichText.Proofs.Markup.Commands
import RichText.Proofs.Markup.Lexemes

namespace RichText

/-! ### Pieces -/

/-- The tokens of a piece end with it. What follows has no bearing on them, except that a
    carriage return is no newline before a line feed. -/
def SelfContained (cs : List Nat) : Prop :=
  ∀ index ds es, (cs.getLast? = some CodePoint.carriageReturn →
      (ds.head? = some CodePoint.lineFeed ↔ es.head? = some CodePoint.lineFeed)) →
    ∃ ls, lexemesFrom 0 index (cs ++ ds) = ls ++ lexemesFrom 0 (index + cs.length) ds ∧
      lexemesFrom 0 index (cs ++ es) = ls ++ lexemesFrom 0 (index + cs.length) es

namespace SelfContained

variable {cs ds : List Nat}

theorem nil : SelfContained [] := fun _ _ _ _ => ⟨[], rfl, rfl⟩

/-- A piece whose tokens are the same whatever follows. -/
theorem of_tokens (h : ∀ index, ∃ ls, ∀ rest,
    lexemesFrom 0 index (cs ++ rest) = ls ++ lexemesFrom 0 (index + cs.length) rest) :
    SelfContained cs := by
  intro index ds es _
  obtain ⟨ls, hls⟩ := h index
  exact ⟨ls, hls ds, hls es⟩

theorem append (hc : SelfContained cs) (hd : SelfContained ds) : SelfContained (cs ++ ds) := by
  intro index es fs hend
  have hfirst : cs.getLast? = some CodePoint.carriageReturn →
      ((ds ++ es).head? = some CodePoint.lineFeed ↔ (ds ++ fs).head? = some CodePoint.lineFeed) := by
    intro hlast
    cases ds with
    | nil =>
      rw [List.append_nil] at hend
      exact hend hlast
    | cons d ds => exact Iff.rfl
  have hsecond : ds.getLast? = some CodePoint.carriageReturn →
      (es.head? = some CodePoint.lineFeed ↔ fs.head? = some CodePoint.lineFeed) := by
    intro hlast
    refine hend ?_
    rw [List.getLast?_append, hlast]
    rfl
  obtain ⟨ls, hls, hls'⟩ := hc index (ds ++ es) (ds ++ fs) hfirst
  obtain ⟨ms, hms, hms'⟩ := hd (index + cs.length) es fs hsecond
  refine ⟨ls ++ ms, ?_, ?_⟩
  · rw [List.append_assoc, hls, hms, List.length_append, List.append_assoc, Nat.add_assoc]
  · rw [List.append_assoc, hls', hms', List.length_append, List.append_assoc, Nat.add_assoc]

theorem flatMap {α : Type} {f : α → List Nat} {xs : List α} (h : ∀ x ∈ xs, SelfContained (f x)) :
    SelfContained (xs.flatMap f) := by
  induction xs with
  | nil => exact nil
  | cons x xs ih =>
    rw [List.flatMap_cons]
    exact (h x List.mem_cons_self).append (ih fun y hy => h y (List.mem_cons_of_mem x hy))

/-- The tokens of a piece and of what follows it. -/
theorem lexemesFrom_append (h : SelfContained cs)
    (hend : cs.getLast? = some CodePoint.carriageReturn → ds.head? ≠ some CodePoint.lineFeed)
    (index : Nat) :
    lexemesFrom 0 index (cs ++ ds) =
      lexemesFrom 0 index cs ++ lexemesFrom 0 (index + cs.length) ds := by
  obtain ⟨ls, hds, hnil⟩ := h index ds [] fun hlast =>
    iff_of_false (hend hlast) nofun
  rw [List.append_nil, lexemesFrom_nil, List.append_nil] at hnil
  rw [hds, hnil]

end SelfContained

/-! ### Text -/

/-- A code point of text is a token, which depends at most on whether a line feed follows. -/
theorem Token.read_of_text {c : Nat} (hcomplex : c ≠ Control.complexIntroducer)
    (hsimple : c ≠ Control.simpleIntroducer) {cs ds : List Nat}
    (h : c = CodePoint.carriageReturn →
      (cs.head? = some CodePoint.lineFeed ↔ ds.head? = some CodePoint.lineFeed)) :
    read c cs = ((read c ds).1, 0) := by
  have hreturn : (c = CodePoint.carriageReturn ∧ cs.head? = some CodePoint.lineFeed) ↔
      (c = CodePoint.carriageReturn ∧ ds.head? = some CodePoint.lineFeed) := and_congr_right h
  simp only [read, if_neg hcomplex, if_neg hsimple, hreturn]
  split_ifs <;> rfl

/-- Text introduces no instruction but toggles. -/
theorem selfContained_text {cs : List Nat}
    (h : ∀ c ∈ cs, c ≠ Control.complexIntroducer ∧ c ≠ Control.simpleIntroducer) :
    SelfContained cs := by
  induction cs with
  | nil => exact .nil
  | cons c cs ih =>
    obtain ⟨hcomplex, hsimple⟩ := h c List.mem_cons_self
    have hfirst : SelfContained [c] := by
      intro index ds es hend
      have hread : ∀ fs, lexemesFrom 0 index ([c] ++ fs) =
          [⟨index, (Token.read c fs).1⟩] ++ lexemesFrom 0 (index + 1) fs := by
        intro fs
        have hzero : Token.read c fs = ((Token.read c fs).1, 0) :=
          Token.read_of_text hcomplex hsimple fun _ => Iff.rfl
        rw [List.singleton_append, lexemesFrom, hzero]
        rfl
      have hsame : Token.read c es = ((Token.read c ds).1, 0) :=
        Token.read_of_text hcomplex hsimple fun hc => (hend (congrArg some hc)).symm
      refine ⟨_, hread ds, ?_⟩
      rw [hread es, hsame]
      rfl
    rw [← List.singleton_append]
    exact hfirst.append (ih fun d hd => h d (List.mem_cons_of_mem c hd))

/-! ### Commands -/

namespace Command

/-- Neither the text of a command nor its letters hold what would begin an instruction or
    end it. -/
def SelfDelimiting : Command → Prop
  | text s => ∀ c ∈ s.toList,
      c.toNat ≠ Control.complexIntroducer ∧ c.toNat ≠ Control.simpleIntroducer
  | addBreakingLetters letters | removeBreakingLetters letters =>
    ∀ c ∈ letters, c.toNat ≠ Control.terminator
  | _ => True

theorem codePoints_text (s : String) : (text s).codePoints = s.toList.map Char.toNat :=
  List.append_nil _

theorem codePoints_addBreakingLetters (letters : List Char) :
    (addBreakingLetters letters).codePoints =
      (Setting.addBreakingLetters (letters.map Char.toNat)).codePoints := List.append_nil _

theorem codePoints_removeBreakingLetters (letters : List Char) :
    (removeBreakingLetters letters).codePoints =
      (Setting.removeBreakingLetters (letters.map Char.toNat)).codePoints := List.append_nil _

private theorem selfContained_setting {s : Setting} (h : s.SelfDelimiting) :
    SelfContained s.codePoints :=
  .of_tokens fun index =>
    ⟨[⟨index, .instruction (.setting s)⟩], lexemesFrom_setting h index⟩

private theorem forall_toNat {P : Nat → Prop} {cs : List Char} (h : ∀ c ∈ cs, P c.toNat) :
    ∀ n ∈ cs.map Char.toNat, P n := by
  intro n hn
  obtain ⟨c, hc, rfl⟩ := List.mem_map.1 hn
  exact h c hc

theorem selfContained {c : Command} (h : c.SelfDelimiting) : SelfContained c.codePoints := by
  have hinstruction : c.IsInstruction → SelfContained c.codePoints := by
    intro hc
    obtain ⟨ts, -, -, hread⟩ := received hc
    refine .of_tokens fun index => ?_
    obtain ⟨ls, -, -, hls⟩ := hread.lexemes index
    exact ⟨ls, hls⟩
  cases c with
  | text s =>
    rw [codePoints_text]
    exact selfContained_text (forall_toNat h)
  | addBreakingLetters letters =>
    rw [codePoints_addBreakingLetters]
    exact selfContained_setting (forall_toNat h)
  | removeBreakingLetters letters =>
    rw [codePoints_removeBreakingLetters]
    exact selfContained_setting (forall_toNat h)
  | _ => exact hinstruction trivial

private theorem le_largest_of_char {cs : List Char} {n : Nat} (h : n ∈ cs.map Char.toNat) :
    n ≤ CodePoint.largest := by
  obtain ⟨c, -, rfl⟩ := List.mem_map.1 h
  have hvalid : c.toNat < 0xD800 ∨ 0xDFFF < c.toNat ∧ c.toNat < 0x110000 := c.valid
  simp only [CodePoint.largest]
  omega

private theorem le_largest_of_letters {letters : List Char} {command n : Nat}
    (hcommand : command ≤ CodePoint.largest)
    (h : n ∈ Control.complexIntroducer :: command ::
      (letters.map Char.toNat ++ [Control.terminator])) : n ≤ CodePoint.largest := by
  rcases List.mem_cons.1 h with rfl | h
  · decide
  rcases List.mem_cons.1 h with rfl | h
  · exact hcommand
  rcases List.mem_append.1 h with h | h
  · exact le_largest_of_char h
  · rw [List.mem_singleton.1 h]
    decide

/-- The code points of a command can be encoded. -/
theorem le_largest {c : Command} {n : Nat} (h : n ∈ c.codePoints) : n ≤ CodePoint.largest := by
  have hinstruction : c.IsInstruction → n ≤ CodePoint.largest := by
    intro hc
    obtain ⟨ts, -, -, hread⟩ := received hc
    have hsmall := hread.small n h
    simp only [CodePoint.largest]
    omega
  cases c with
  | text s =>
    rw [codePoints_text] at h
    exact le_largest_of_char h
  | addBreakingLetters letters =>
    rw [codePoints_addBreakingLetters] at h
    have hcommand : 0x23 ≤ CodePoint.largest := by decide
    exact le_largest_of_letters hcommand h
  | removeBreakingLetters letters =>
    rw [codePoints_removeBreakingLetters] at h
    have hcommand : 0x24 ≤ CodePoint.largest := by decide
    exact le_largest_of_letters hcommand h
  | _ => exact hinstruction trivial

/-- The markup of commands is read back, whatever follows. -/
theorem decode_append (cs : List Command) (bytes : List UInt8) :
    Codec.decode ((Markup.ofCommands cs).bytes ++ bytes) =
      cs.flatMap codePoints ++ Codec.decode bytes := by
  have hbytes : (Markup.ofCommands cs).bytes = Codec.encodeAll (cs.flatMap codePoints) := by
    rw [Markup.bytes_ofCommands, Codec.encodeAll, List.flatMap_assoc]
    rfl
  rw [hbytes]
  refine Codec.decode_append_encodeAll (fun n hn => ?_) bytes
  obtain ⟨c, -, hn⟩ := List.mem_flatMap.1 hn
  exact le_largest hn

end Command

/-! ### Pieces without an effect -/

theorem Setting.command_le (s : Setting) : s.command ≤ 0x42 := by
  cases s with
  | color target ref => cases target <;> cases ref <;> exact Nat.le_of_ble_eq_true rfl
  | length target l => cases target <;> exact Nat.le_of_ble_eq_true rfl
  | lineSettings line change => cases line <;> exact Nat.le_of_ble_eq_true rfl
  | _ => exact Nat.le_of_ble_eq_true rfl

theorem Reading.parameters_unknown {c : Nat} (h : ∀ s : Setting, s.command ≠ c) :
    parameters c = pure none := by
  have hindex : ColorTarget.ofIndexCommand? c = none := by
    rw [Option.eq_none_iff_forall_ne_some]
    intro t ht
    have hc : t.indexCommand = c := by simpa using List.find?_some ht
    exact h (.color t .default) hc
  have hrgba : ColorTarget.ofRgbaCommand? c = none := by
    rw [Option.eq_none_iff_forall_ne_some]
    intro t ht
    have hc : t.rgbaCommand = c := by simpa using List.find?_some ht
    exact h (.color t (.rgba ⟨0, 0, 0, 0⟩)) hc
  have hlength : LengthTarget.ofCommand? c = none := by
    rw [Option.eq_none_iff_forall_ne_some]
    intro t ht
    have hc : t.command = c := by simpa using List.find?_some ht
    exact h (.length t none) hc
  unfold parameters
  rw [hindex, hrgba, hlength]
  dsimp only
  -- Every other command is that of some setting.
  split
  · exact absurd rfl (h (.padding ⟨none, none, none, none⟩))
  · exact absurd rfl (h (.image ⟨.zero, .inline, none, none, none⟩))
  · exact absurd rfl (h (.selectionStyle ⟨none, .default, .default, false⟩))
  · exact absurd rfl (h (.letterOffset none none))
  · exact absurd rfl (h (.font none))
  · exact absurd rfl (h (.selectionPadding ⟨none, none, none, none⟩))
  · exact absurd rfl (h (.lineSettings .underline .reset))
  · exact absurd rfl (h (.lineSettings .strike .reset))
  · exact absurd rfl (h (.beginTable false none []))
  · exact absurd rfl (h (.columnSpan .one .left))
  · exact absurd rfl (h (.rowSpan none))
  · exact absurd rfl (h (.addBreakingLetters []))
  · exact absurd rfl (h (.removeBreakingLetters []))
  · exact absurd rfl (h (.addTabStop .zero none))
  · exact absurd rfl (h (.removeTabStop .zero))
  · exact absurd rfl (h (.startRegion .zero))
  · exact absurd rfl (h (.endRegion .zero))
  · exact absurd rfl (h (.placeholderSize none none))
  · rfl

/-- A piece that asks for nothing known: a noncharacter, an instruction with an unknown
    command. What follows an unknown command with parameters is passed over up to the first
    terminator. -/
inductive Inert : List Nat → Prop
  | noncharacter : Inert [CodePoint.noncharacter]
  | simple {c : Nat} (h : ∀ w : Switch, w.command ≠ c) : Inert [Control.simpleIntroducer, c]
  | complex {c : Nat} {ps : List Nat} (h : ∀ s : Setting, s.command ≠ c)
      (hps : ∀ p ∈ ps, p ≠ Control.terminator) :
      Inert (Control.complexIntroducer :: c :: (ps ++ [Control.terminator]))

/-- Such a piece is one token, and reading goes on after it. -/
theorem Inert.lexemesFrom {cs : List Nat} (h : Inert cs) (index : Nat) (rest : List Nat) :
    RichText.lexemesFrom 0 index (cs ++ rest) =
      ⟨index, .nothing⟩ :: RichText.lexemesFrom 0 (index + cs.length) rest := by
  cases h with
  | noncharacter =>
    rw [List.singleton_append, lexemesFrom_cons]
    rfl
  | @simple c h =>
    have hunknown : Switch.ofCommand? c = none := by
      rw [Option.eq_none_iff_forall_ne_some]
      intro w hw
      exact h w (Switch.ofCommand?_eq_some_iff.1 hw).symm
    have hread : Token.read Control.simpleIntroducer (c :: rest) = (.nothing, 1) := by
      have hread : Token.read Control.simpleIntroducer (c :: rest) =
          ((Switch.ofCommand? c).elim .nothing (.instruction <| .switch ·), 1) := rfl
      rw [hread, hunknown]
      rfl
    rw [List.cons_append, List.cons_append, List.nil_append, lexemesFrom_cons, hread]
    rfl
  | @complex c ps h hps =>
    have hsetting : Setting.read c (ps ++ Control.terminator :: rest) = (none, ps.length + 1) := by
      have hfinish : Reading.Takes Reading.finish (ps ++ [Control.terminator]) rest () := by
        unfold Reading.finish
        exact (Reading.takes_letters hps rest).bind ((Reading.takes_next _ rest).bind_pure _)
      have hused := hfinish 0
      rw [List.append_assoc, List.singleton_append] at hused
      rw [Setting.read, Reading.parameters_unknown h]
      refine Prod.ext rfl ?_
      change (Reading.finish ⟨0, ps ++ Control.terminator :: rest⟩).2.used = _
      rw [hused, List.length_append, Nat.zero_add]
      rfl
    have hread : Token.read Control.complexIntroducer (c :: (ps ++ Control.terminator :: rest)) =
        (.nothing, ps.length + 2) := by
      have hread : Token.read Control.complexIntroducer (c :: (ps ++ Control.terminator :: rest)) =
          ((Setting.read c (ps ++ Control.terminator :: rest)).1.elim .nothing
            (.instruction <| .setting ·), (Setting.read c (ps ++ Control.terminator :: rest)).2 + 1) :=
        rfl
      rw [hread, hsetting]
      rfl
    have hcs : Control.complexIntroducer :: c :: (ps ++ [Control.terminator]) ++ rest =
        Control.complexIntroducer :: c :: (ps ++ Control.terminator :: rest) := by
      simp
    have hdrop : (c :: (ps ++ Control.terminator :: rest)).drop (ps.length + 2) = rest := by
      have hl : (ps ++ [Control.terminator]).length = ps.length + 1 := by simp
      rw [List.drop_succ_cons, List.append_cons ps, ← hl, List.drop_left]
    rw [hcs, lexemesFrom_cons, hread, hdrop]
    congr 2
    simp only [List.length_cons, List.length_append, List.length_nil]
    omega

/-- Any number of such pieces are tokens without an effect. -/
theorem lexemesFrom_inert {pieces : List (List Nat)} (h : ∀ p ∈ pieces, Inert p) (index : Nat) :
    ∃ ls : List Lexeme, (∀ l ∈ ls, l.token = .nothing) ∧ ∀ rest,
      lexemesFrom 0 index (pieces.flatten ++ rest) =
        ls ++ lexemesFrom 0 (index + pieces.flatten.length) rest := by
  induction pieces generalizing index with
  | nil => exact ⟨[], fun l hl => (nomatch hl), fun rest => rfl⟩
  | cons p pieces ih =>
    obtain ⟨ls, hls, hrest⟩ := ih (fun q hq => h q (List.mem_cons_of_mem p hq)) (index + p.length)
    refine ⟨⟨index, .nothing⟩ :: ls, ?_, ?_⟩
    · intro l hl
      rcases List.mem_cons.1 hl with rfl | hl
      · rfl
      · exact hls l hl
    · intro rest
      rw [List.flatten_cons, List.append_assoc, (h p List.mem_cons_self).lexemesFrom, hrest,
        List.length_append, Nat.add_assoc, List.cons_append]

end RichText
