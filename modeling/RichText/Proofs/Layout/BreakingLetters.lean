/-
  RichText/Proofs/Layout/BreakingLetters.lean
  ===========================================
  **Letters that lines may be broken behind.**

  Markup adds letters to a set of the layout and takes letters out of it.  A line may be broken
  right behind what is in the set (`LayoutState.breaksBehind_iff`), and that is told from the
  requests alone: it is the last one that mentions a letter that counts, whatever stands between
  the requests (`LayoutState.mem_breaking_run`).

  The letters of a request stand for themselves, up to the terminator of the instruction.  A
  letter that is the terminator ends it early: it is lost with all that follow it, and these
  and the real terminator are read as text (`lexemesFrom_changeLetters`).  Without such a letter
  the request is read back as it was written (`lexemesFrom_changeLetters_iff`).
-/
import RichText.Proofs.Layout.FontInForce
import RichText.Proofs.Layout.Steps
import RichText.Proofs.Markup.Pieces

namespace RichText

/-! ### Requests about letters -/

/-- The setting that adds letters or removes them. -/
def Setting.changeLetters : Bool → List Nat → Setting
  | true, letters => .addBreakingLetters letters
  | false, letters => .removeBreakingLetters letters

/-- The request that letters are added or removed. -/
def Command.changeLetters : Bool → List Char → Command
  | true, letters => .addBreakingLetters letters
  | false, letters => .removeBreakingLetters letters

/-- Whether a token adds a letter or removes it, if it mentions it. -/
def Token.breaks? (c : Nat) : Token → Option Bool
  | .instruction (.setting (.addBreakingLetters letters)) => if c ∈ letters then some true else none
  | .instruction (.setting (.removeBreakingLetters letters)) =>
    if c ∈ letters then some false else none
  | _ => none

/-- Whether a command adds a letter or removes it, if it mentions it. -/
def Command.breaks? (c : Nat) : Command → Option Bool
  | addBreakingLetters letters => if c ∈ letters.map Char.toNat then some true else none
  | removeBreakingLetters letters => if c ∈ letters.map Char.toNat then some false else none
  | _ => none

theorem Setting.length_changeLetters (adds : Bool) (letters : List Nat) :
    (changeLetters adds letters).codePoints.length = 3 + letters.length := by
  cases adds <;>
    simp only [changeLetters, codePoints, parameters, List.length_cons, List.length_append,
      List.length_nil] <;> omega

theorem Token.breaks?_changeLetters (c : Nat) (adds : Bool) (letters : List Nat) :
    breaks? c (.instruction (.setting (.changeLetters adds letters))) =
      if c ∈ letters then some adds else none := by
  cases adds <;> rfl

/-! ### Reading a request -/

namespace Command

/-- The letters that are read of a request: those before the first that is the terminator. -/
def heard (letters : List Char) : List Nat :=
  (letters.map Char.toNat).takeWhile (· != Control.terminator)

/-- The code points of a request that are not read as part of it: if a letter is the terminator,
    all that stand behind the first such letter, with the terminator at the end. -/
def unread (letters : List Char) : List Nat :=
  (letters.map Char.toNat ++ [Control.terminator]).drop ((heard letters).length + 1)

private theorem append_terminator (cs : List Nat) :
    cs ++ [Control.terminator] = cs.takeWhile (· != Control.terminator) ++ Control.terminator ::
      (cs ++ [Control.terminator]).drop
        ((cs.takeWhile (· != Control.terminator)).length + 1) := by
  induction cs with
  | nil => rfl
  | cons c cs ih =>
    by_cases hc : c = Control.terminator
    · subst hc
      rfl
    · have htake : (c :: cs).takeWhile (· != Control.terminator) =
          c :: cs.takeWhile (· != Control.terminator) :=
        List.takeWhile_cons_of_pos (bne_iff_ne.2 hc)
      rw [htake, List.cons_append, List.length_cons, List.drop_succ_cons, List.cons_append, ← ih]

theorem map_append_terminator (letters : List Char) :
    letters.map Char.toNat ++ [Control.terminator] =
      heard letters ++ Control.terminator :: unread letters := append_terminator _

theorem ne_terminator_of_mem_heard {letters : List Char} {c : Nat} (h : c ∈ heard letters) :
    c ≠ Control.terminator := by
  have hbefore := List.mem_takeWhile_imp (p := (· != Control.terminator)) h
  exact bne_iff_ne.1 hbefore

/-- All letters are read if none of them is the terminator, and only then. -/
theorem heard_eq_iff (letters : List Char) :
    heard letters = letters.map Char.toNat ↔ ∀ a ∈ letters, a.toNat ≠ Control.terminator := by
  rw [heard, List.takeWhile_eq_self_iff]
  simp only [List.forall_mem_map, bne_iff_ne]

theorem unread_eq_nil {letters : List Char} (h : heard letters = letters.map Char.toNat) :
    unread letters = [] := by
  have hsplit := map_append_terminator letters
  rw [h] at hsplit
  exact (List.cons_inj_right Control.terminator).1 (List.append_cancel_left hsplit).symm

theorem codePoints_changeLetters (adds : Bool) (letters : List Char) :
    (changeLetters adds letters).codePoints =
      (Setting.changeLetters adds (letters.map Char.toNat)).codePoints := by
  cases adds
  · exact codePoints_removeBreakingLetters letters
  · exact codePoints_addBreakingLetters letters

/-- The code points of a request are those of what is read of it, and the rest. -/
theorem codePoints_heard (adds : Bool) (letters : List Char) :
    (changeLetters adds letters).codePoints =
      (Setting.changeLetters adds (heard letters)).codePoints ++ unread letters := by
  rw [codePoints_changeLetters]
  cases adds <;>
    simp only [Setting.changeLetters, Setting.codePoints, Setting.command, Setting.parameters,
      map_append_terminator, List.cons_append, List.append_assoc, List.nil_append]

theorem decode_bytes_append (k : Command) (bytes : List UInt8) :
    Codec.decode (k.bytes ++ bytes) = k.codePoints ++ Codec.decode bytes := by
  have hdecode := decode_append [k] bytes
  rwa [Markup.bytes_ofCommands, List.flatMap_singleton, List.flatMap_singleton] at hdecode

end Command

/-- A request is read up to the first letter that is the terminator, and reading goes on behind
    that. -/
theorem lexemesFrom_changeLetters (adds : Bool) (letters : List Char) (index : Nat)
    (bytes : List UInt8) :
    lexemesFrom 0 index (Codec.decode ((Command.changeLetters adds letters).bytes ++ bytes)) =
      ⟨index, .instruction (.setting (.changeLetters adds (Command.heard letters)))⟩ ::
        lexemesFrom 0 (index + (3 + (Command.heard letters).length))
          (Command.unread letters ++ Codec.decode bytes) := by
  have hself : (Setting.changeLetters adds (Command.heard letters)).SelfDelimiting := by
    cases adds <;> exact fun _ hc => Command.ne_terminator_of_mem_heard hc
  rw [Command.decode_bytes_append, Command.codePoints_heard, List.append_assoc,
    ← Setting.length_changeLetters adds]
  exact lexemesFrom_setting hself index _

/-- A request is read back as it was written, and reading goes on behind it, if none of its
    letters is the terminator, and only then. -/
theorem lexemesFrom_changeLetters_iff (adds : Bool) (letters : List Char) (index : Nat)
    (bytes : List UInt8) :
    lexemesFrom 0 index (Codec.decode ((Command.changeLetters adds letters).bytes ++ bytes)) =
      ⟨index, .instruction (.setting (.changeLetters adds (letters.map Char.toNat)))⟩ ::
        lexemesFrom 0 (index + (Command.changeLetters adds letters).codePoints.length)
          (Codec.decode bytes) ↔
      ∀ a ∈ letters, a.toNat ≠ Control.terminator := by
  rw [lexemesFrom_changeLetters, ← Command.heard_eq_iff]
  constructor
  · intro h
    have hsetting := (Lexeme.mk.inj (List.cons.inj h).1).2
    cases adds
    · exact Setting.removeBreakingLetters.inj
        (Instruction.setting.inj (Token.instruction.inj hsetting))
    · exact Setting.addBreakingLetters.inj
        (Instruction.setting.inj (Token.instruction.inj hsetting))
  · intro h
    rw [Command.unread_eq_nil h, h, List.nil_append, Command.codePoints_changeLetters,
      Setting.length_changeLetters]

/-! ### What other commands say about letters -/

namespace Token

theorem read_ne_setting {c : Nat} (h : c ≠ Control.complexIntroducer) (cs : List Nat)
    (s : Setting) : (read c cs).1 ≠ .instruction (.setting s) := by
  simp only [read, if_neg h]
  split_ifs
  · exact Token.noConfusion
  · -- A switch is no setting.
    cases cs with
    | nil => exact Token.noConfusion
    | cons command cs =>
      cases hswitch : Switch.ofCommand? command <;> simp [hswitch]
  · exact Token.noConfusion
  · exact Token.noConfusion
  · exact Token.noConfusion
  · exact Token.noConfusion
  · simp only [single]
    cases Toggle.ofCode? c with
    | none =>
      simp only
      split <;> exact Token.noConfusion
    | some t => simp

end Token

namespace Command

variable {k : Command} {ks : List Command}

/-- Text says nothing about letters. -/
private theorem lastRequest_text (c index : Nat) {cs : List Nat}
    (h : ∀ d ∈ cs, d ≠ Control.complexIntroducer ∧ d ≠ Control.simpleIntroducer)
    (rest : List Nat) :
    lastRequest (Token.breaks? c) (lexemesFrom 0 index (cs ++ rest)) =
      lastRequest (Token.breaks? c) (lexemesFrom 0 (index + cs.length) rest) := by
  induction cs generalizing index with
  | nil => rfl
  | cons d cs ih =>
    obtain ⟨hcomplex, hsimple⟩ := h d List.mem_cons_self
    have hread : Token.read d (cs ++ rest) = ((Token.read d (cs ++ rest)).1, 0) :=
      Token.read_of_text hcomplex hsimple fun _ => Iff.rfl
    have hnone : (Token.read d (cs ++ rest)).1.breaks? c = none := by
      generalize htoken : (Token.read d (cs ++ rest)).1 = t
      cases t with
      | instruction i =>
        cases i with
        | setting s => exact absurd htoken (Token.read_ne_setting hcomplex _ s)
        | _ => rfl
      | _ => rfl
    have hindex : index + (d :: cs).length = index + 1 + cs.length := by
      rw [List.length_cons]
      omega
    rw [List.cons_append, lexemesFrom, hread]
    simp only
    rw [lastRequest_cons, hnone, Option.or_none, hindex]
    exact ih (index + 1) fun e he => h e (List.mem_cons_of_mem d he)

/-- What is received of other commands says nothing about letters. -/
private theorem breaks?_received {ts : List Token} (h : Received k ts) (c : Nat) :
    k.breaks? c = none ∧ ∀ t ∈ ts, t.breaks? c = none := by
  cases h <;>
    simp only [breaks?, List.forall_mem_cons, List.not_mem_nil, false_imp_iff, implies_true,
      Token.breaks?, and_self]

/-- What the tokens of a command say about a letter is what the command says. -/
theorem lastRequest_codePoints (h : k.SelfDelimiting) (c index : Nat) (rest : List Nat) :
    lastRequest (Token.breaks? c) (lexemesFrom 0 index (k.codePoints ++ rest)) =
      (lastRequest (Token.breaks? c) (lexemesFrom 0 (index + k.codePoints.length) rest)).or
        (k.breaks? c) := by
  have hinstruction : k.IsInstruction →
      lastRequest (Token.breaks? c) (lexemesFrom 0 index (k.codePoints ++ rest)) =
        (lastRequest (Token.breaks? c) (lexemesFrom 0 (index + k.codePoints.length) rest)).or
          (k.breaks? c) := by
    intro hk
    obtain ⟨ts, hts, -, hread⟩ := received hk
    obtain ⟨ls, rfl, -, hls⟩ := hread.lexemes index
    obtain ⟨hcommand, htokens⟩ := breaks?_received hts c
    have hnone := lastRequest_eq_none fun l hl => htokens l.token (List.mem_map_of_mem hl)
    rw [hls, lastRequest_append, hnone, hcommand]
  cases k with
  | text s =>
    rw [codePoints_text]
    refine (lastRequest_text c index ?_ rest).trans (Option.or_none).symm
    intro n hn
    obtain ⟨a, ha, rfl⟩ := List.mem_map.1 hn
    exact h a ha
  | addBreakingLetters letters =>
    have hself : (Setting.addBreakingLetters (letters.map Char.toNat)).SelfDelimiting :=
      List.forall_mem_map.2 h
    rw [codePoints_addBreakingLetters, lexemesFrom_setting hself, lastRequest_cons]
    rfl
  | removeBreakingLetters letters =>
    have hself : (Setting.removeBreakingLetters (letters.map Char.toNat)).SelfDelimiting :=
      List.forall_mem_map.2 h
    rw [codePoints_removeBreakingLetters, lexemesFrom_setting hself, lastRequest_cons]
    rfl
  | _ => exact hinstruction trivial

/-- What the markup of some commands says about a letter is what the last of them says that
    mentions it. -/
theorem lastRequest_ofCommands (h : ∀ k ∈ ks, k.SelfDelimiting) (c : Nat) :
    lastRequest (Token.breaks? c) (lexemes (Codec.decode (Markup.ofCommands ks).bytes)) =
      ks.reverse.findSome? (breaks? c) := by
  have hall : ∀ index, lastRequest (Token.breaks? c)
      (lexemesFrom 0 index (ks.flatMap codePoints)) = ks.reverse.findSome? (breaks? c) := by
    induction ks with
    | nil => exact fun index => rfl
    | cons k ks ih =>
      intro index
      rw [List.flatMap_cons, lastRequest_codePoints (h k List.mem_cons_self),
        ih fun j hj => h j (List.mem_cons_of_mem k hj), List.reverse_cons, List.findSome?_append,
        List.findSome?_singleton]
  have hdecode := decode_append ks []
  rw [List.append_nil, Codec.decode_nil, List.append_nil] at hdecode
  rw [hdecode]
  exact hall 0

end Command

/-! ### The set of letters -/

namespace LayoutState

variable {job : Job} {s : LayoutState} {c : Nat}

theorem mem_addLetters {set letters : List Nat} :
    c ∈ addLetters set letters ↔ c ∈ letters ∨ c ∈ set := by
  induction letters generalizing set with
  | nil => simp only [addLetters, List.foldl_nil, List.not_mem_nil, false_or]
  | cons d letters ih =>
    have hstep : addLetters set (d :: letters) =
        addLetters (if set.contains d then set else set ++ [d]) letters := rfl
    rw [hstep, ih, List.mem_cons]
    split
    · next hd =>
      have hmem : d ∈ set := List.contains_iff_mem.1 hd
      constructor
      · rintro (h | h)
        · exact Or.inl (Or.inr h)
        · exact Or.inr h
      · rintro ((rfl | h) | h)
        · exact Or.inr hmem
        · exact Or.inl h
        · exact Or.inr h
    · rw [List.mem_append, List.mem_singleton]
      tauto

theorem mem_removeLetters {set letters : List Nat} :
    c ∈ removeLetters set letters ↔ c ∉ letters ∧ c ∈ set := by
  simp only [removeLetters, List.mem_filter, Bool.not_eq_true', List.contains_eq_mem,
    decide_eq_false_iff_not, and_comm]

/-- A request about letters changes the set of letters and nothing else. -/
theorem step_changeLetters (job : Job) (s : LayoutState) (index : Nat) (adds : Bool)
    (letters : List Nat) :
    ∃ breaking, s.step job ⟨index, .instruction (.setting (.changeLetters adds letters))⟩ =
        { s with breaking := breaking } ∧
      ∀ c, c ∈ breaking ↔ c ∈ letters ∧ adds = true ∨ c ∉ letters ∧ c ∈ s.breaking := by
  cases adds with
  | true =>
    refine ⟨addLetters s.breaking letters, rfl, fun c => ?_⟩
    rw [mem_addLetters]
    tauto
  | false =>
    refine ⟨removeLetters s.breaking letters, rfl, fun c => ?_⟩
    rw [mem_removeLetters]
    simp only [Bool.false_eq_true, and_false, false_or]

theorem breaking_switchFont (job : Job) (s : LayoutState) :
    (s.switchFont job).breaking = s.breaking := by
  simp only [switchFont]
  cases job.printer.fonts.get? (s.wantedFont job) with
  | none => rfl
  | some font =>
    simp only [Option.elim_some, useFont]
    split <;> rfl

/-- No other token changes it. -/
theorem breaking_step (job : Job) (s : LayoutState) {l : Lexeme}
    (hl : ∀ adds letters, l.token ≠ .instruction (.setting (.changeLetters adds letters))) :
    (s.step job l).breaking = s.breaking := by
  by_cases hi : ∃ i, l.token = .instruction i
  · obtain ⟨i, hi⟩ := hi
    rw [hi] at hl
    simp only [LayoutState.step, hi]
    cases i with
    | toggle t =>
      cases t with
      | startSelection => rfl
      | endSelection => rfl
      | _ => exact breaking_switchFont job _
    | switch w =>
      cases w with
      | resetFormatting => exact breaking_switchFont job _
      | script kind => exact breaking_switchFont job _
      | endTable => exact (sameStyle_endTable job s).breaking
      | _ => rfl
    | setting setting =>
      cases setting with
      | addBreakingLetters letters => exact absurd rfl (hl true letters)
      | removeBreakingLetters letters => exact absurd rfl (hl false letters)
      | font id => exact breaking_switchFont job _
      | image i =>
        simp only [apply, applySetting, placeImage]
        cases job.printer.images.get? i.index.val with
        | none => rfl
        | some image => exact (sameStyle_addMark job s _ _ _ l.index).breaking
      | length target length =>
        cases target with
        | horizontalSpace =>
          cases length with
          | none => rfl
          | some length => exact (sameStyle_addMark job s _ _ _ l.index).breaking
        | verticalSpace =>
          cases length with
          | none => rfl
          | some length =>
            simp only [apply, applySetting, applyLength, Option.elim_some, addVerticalSpace]
            split <;> rfl
        | _ => rfl
      | beginTable border width columns =>
        exact (sameStyle_finishLine job s (.newline false)).breaking
      | addTabStop id position => cases position <;> rfl
      | _ => rfl
  · exact (sameStyle_step job s fun i hl => hi ⟨i, hl⟩).breaking

/-- What a token says about a letter holds after it, and if it says nothing the letter is in
    the set as before. -/
theorem mem_breaking_step (job : Job) (s : LayoutState) (l : Lexeme) (c : Nat) :
    c ∈ (s.step job l).breaking ↔
      l.token.breaks? c = some true ∨ l.token.breaks? c = none ∧ c ∈ s.breaking := by
  by_cases hchange : ∃ adds letters,
      l.token = .instruction (.setting (.changeLetters adds letters))
  · obtain ⟨adds, letters, htoken⟩ := hchange
    obtain ⟨index, token⟩ := l
    obtain rfl : token = _ := htoken
    obtain ⟨breaking, hstep, hmem⟩ := step_changeLetters job s index adds letters
    rw [hstep, Token.breaks?_changeLetters]
    refine (hmem c).trans ?_
    by_cases hc : c ∈ letters
    · simp only [hc, if_true, true_and, not_true, false_and, or_false, Option.some.injEq,
        reduceCtorEq]
    · simp only [hc, if_false, false_and, not_false_eq_true, true_and, false_or, reduceCtorEq]
  · have hother : ∀ adds letters,
        l.token ≠ .instruction (.setting (.changeLetters adds letters)) :=
      fun adds letters h => hchange ⟨adds, letters, h⟩
    have hnone : l.token.breaks? c = none := by
      obtain ⟨index, token⟩ := l
      cases token with
      | instruction i =>
        cases i with
        | setting setting =>
          cases setting with
          | addBreakingLetters letters => exact absurd rfl (hother true letters)
          | removeBreakingLetters letters => exact absurd rfl (hother false letters)
          | _ => rfl
        | _ => rfl
      | _ => rfl
    rw [breaking_step job s hother, hnone]
    simp only [reduceCtorEq, true_and, false_or]

/-- A letter is in the set if the last token that mentions it adds it, or if none does and it
    was there before. -/
theorem mem_breaking_run (job : Job) (s : LayoutState) (ls : List Lexeme) (c : Nat) :
    c ∈ (s.run job ls).breaking ↔ lastRequest (Token.breaks? c) ls = some true ∨
      lastRequest (Token.breaks? c) ls = none ∧ c ∈ s.breaking := by
  induction ls generalizing s with
  | nil =>
    have hnone : lastRequest (Token.breaks? c) [] = none := rfl
    simp only [hnone, reduceCtorEq, true_and, false_or]
    exact Iff.rfl
  | cons l ls ih =>
    have hrun : s.run job (l :: ls) = (s.step job l).run job ls := rfl
    rw [hrun, ih, mem_breaking_step, lastRequest_cons]
    cases lastRequest (Token.breaks? c) ls with
    | none => simp only [Option.none_or, reduceCtorEq, true_and, false_or]
    | some adds => simp only [Option.some_or, reduceCtorEq, false_and]

/-! ### Breaks behind letters -/

/-- The place right behind a letter that is put on the line next is noted for a break. -/
def BreaksBehind (job : Job) (s : LayoutState) (c : Nat) : Prop :=
  ∀ index, (s.place job c index).lastBreak = some (s.place job c index).marks.size

/-- The place behind a letter is noted if the letter is in the set, and only then. -/
theorem breaksBehind_iff (h : s.BreakWithin) : s.BreaksBehind job c ↔ c ∈ s.breaking := by
  have hbefore : (beforeMark job s c).BreakWithin :=
    (beforeMark_moves job s c).preserves Move.breakWithin h
  -- What has been noted before the letter stands before its mark.
  have hearlier : ∀ (kind : MarkKind) (advance : Int) (index q : Nat),
      ((beforeMark job s c).addMark job c kind advance index).lastBreak = some q →
        q < ((beforeMark job s c).addMark job c kind advance index).marks.size := by
    intro kind advance index q hq
    obtain ⟨-, hlast, -⟩ := pushMark_frame job (beforeMark job s c) c kind advance index
    have hsize := size_pushMark job (beforeMark job s c) c kind advance index
    simp only [addMark] at hq ⊢
    generalize (beforeMark job s c).pushMark job c kind advance index = u at hq hlast hsize ⊢
    by_cases hover : u.Overflows job
    · rw [checkWrap_of_overflows hover, (commit_frame job u u.breakAt .wrap).2.2.1] at hq
      cases hq
    · rw [checkWrap_of_not_overflows hover] at hq ⊢
      rw [hlast] at hq
      have hle := hbefore q hq
      omega
  have hbreaking : ∀ (kind : MarkKind) (advance : Int) (index : Nat),
      ((beforeMark job s c).addMark job c kind advance index).breaking = s.breaking :=
    fun kind advance index => ((sameStyle_beforeMark job s c).trans
      (sameStyle_addMark job _ c kind advance index)).breaking
  constructor
  · intro hbreaks
    have hnoted := hbreaks 0
    rw [place_eq] at hnoted
    simp only [hbreaking] at hnoted
    cases hc : s.breaking.contains c with
    | true => exact List.contains_iff_mem.1 hc
    | false =>
      rw [hc] at hnoted
      exact absurd (hearlier _ _ _ _ hnoted) (Nat.lt_irrefl _)
  · intro hc index
    rw [place_eq]
    simp only [hbreaking, List.contains_iff_mem.2 hc]
    rfl

end LayoutState

open LayoutState in
/-- **Breaking letters form a set under markup.**  A request about letters changes the set of a
    layout by the letters that are read of it, and nothing else.  It is read as it was written
    if none of its letters is the terminator, and only then; else it ends at the first that is.
    After commands that end where they seem to, a line may be broken right behind a letter if
    the last of them that mentions the letter adds it, or if none does and the printer has it. -/
theorem Printer.breaking_letters (p : Printer) (origin : Point) (width : Int) :
    let job : Job := ⟨p, origin, width⟩
    (∀ (adds : Bool) (letters : List Char) (index : Nat) (bytes : List UInt8),
      let call := Command.changeLetters adds letters
      lexemesFrom 0 index (Codec.decode (call.bytes ++ bytes)) =
          ⟨index, .instruction (.setting (.changeLetters adds (Command.heard letters)))⟩ ::
            lexemesFrom 0 (index + (3 + (Command.heard letters).length))
              (Command.unread letters ++ Codec.decode bytes) ∧
        (lexemesFrom 0 index (Codec.decode (call.bytes ++ bytes)) =
            ⟨index, .instruction (.setting (.changeLetters adds (letters.map Char.toNat)))⟩ ::
              lexemesFrom 0 (index + call.codePoints.length) (Codec.decode bytes) ↔
          ∀ a ∈ letters, a.toNat ≠ Control.terminator)) ∧
    (∀ (s : LayoutState) (index : Nat) (adds : Bool) (letters : List Nat),
      ∃ breaking, s.step job ⟨index, .instruction (.setting (.changeLetters adds letters))⟩ =
          { s with breaking := breaking } ∧
        ∀ c, c ∈ breaking ↔ c ∈ letters ∧ adds = true ∨ c ∉ letters ∧ c ∈ s.breaking) ∧
    ∀ (font : Font) (ks : List Command), (∀ k ∈ ks, k.SelfDelimiting) → ∀ c,
      ((initial job font).run job
          (lexemes (Codec.decode (Markup.ofCommands ks).bytes))).BreaksBehind job c ↔
        ks.reverse.findSome? (Command.breaks? c) = some true ∨
          ks.reverse.findSome? (Command.breaks? c) = none ∧ c ∈ p.breakingLetters := by
  intro job
  refine ⟨?_, fun s => step_changeLetters job s, ?_⟩
  · intro adds letters index bytes
    exact ⟨lexemesFrom_changeLetters adds letters index bytes,
      lexemesFrom_changeLetters_iff adds letters index bytes⟩
  · intro font ks hks c
    have hwithin := breakWithin_run job font (lexemes (Codec.decode (Markup.ofCommands ks).bytes))
    rw [breaksBehind_iff hwithin, mem_breaking_run, Command.lastRequest_ofCommands hks]
    exact Iff.rfl

/-- A letter that is the terminator ends the request before any letter is read, and the real
    terminator is a glyph. -/
theorem Printer.letter_ends_request :
    lexemes (Codec.decode ((Command.changeLetters true [Char.ofNat 0x9C]).bytes ++ [0x61])) =
        [⟨0, .instruction (.setting (.changeLetters true []))⟩, ⟨3, .text 0x9C⟩,
          ⟨4, .text 0x61⟩] ∧
      0x9C ∉ ((LayoutState.initial ⟨boxes, .zero, 0⟩ (Font.ofFace BoxFace.standard.face)).step
        ⟨boxes, .zero, 0⟩ ⟨0, .instruction (.setting (.changeLetters true []))⟩).breaking := by
  decide +kernel

/-- Of two letters that are removed, one is added once more. -/
theorem Printer.breaking_letters_boxes :
    let job : Job := ⟨boxes, .zero, 30⟩
    let s := (LayoutState.initial job (Font.ofFace BoxFace.standard.face)).run job
      (lexemes (Codec.decode (Markup.ofCommands [.changeLetters true ['/'], .lineBreak,
        .changeLetters false ['/', '-'], .changeLetters true ['/']]).bytes))
    s.BreaksBehind job '/'.toNat ∧ ¬ s.BreaksBehind job '-'.toNat := by
  intro job s
  obtain ⟨-, -, hbreaks⟩ := breaking_letters boxes .zero 30
  have hself : ∀ k ∈ [Command.changeLetters true ['/'], .lineBreak,
      .changeLetters false ['/', '-'], .changeLetters true ['/']], k.SelfDelimiting := by
    simp only [List.forall_mem_cons, Command.changeLetters, Command.SelfDelimiting,
      List.not_mem_nil, false_imp_iff, implies_true, and_true]
    decide
  have hletters := hbreaks (Font.ofFace BoxFace.standard.face) _ hself
  refine ⟨(hletters _).2 (Or.inl rfl), fun hbehind => ?_⟩
  rcases (hletters _).1 hbehind with hlast | ⟨hlast, -⟩
  · exact absurd hlast (by decide)
  · exact absurd hlast (by decide)

end RichText
