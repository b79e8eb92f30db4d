/-
  RichText/Proofs/Query/Insertion.lean
  ====================================
  **Markup that asks for nothing known.**

  Pieces without an effect can be put between any two commands.  The tokens before them are
  as they were, and so are those behind, but for their positions (`lexemes_insert`).  A layout
  makes nothing of positions: it hands them on to the glyphs that it reports
  (`Job.layoutWith_reindex`).  So what is not known is passed over wherever it stands
  (`Printer.layout_insert`).
-/
import RichText.Proofs.Layout.Paragraphs
import RichText.Proofs.Query.Translation

namespace RichText

/-! ### Tokens -/

/-- Where position `i` comes to stand when `k` code points are put before position `n`. -/
def shiftFrom (n k i : Nat) : Nat := if n ≤ i then i + k else i

section Tokens

variable {before : List Nat} {pieces : List (List Nat)}

/-- The tokens on both sides of pieces without an effect are the same as without these. -/
theorem lexemes_insert (hbefore : SelfContained before)
    (hend : before.getLast? ≠ some CodePoint.carriageReturn) (hpieces : ∀ p ∈ pieces, Inert p)
    (after : List Nat) :
    ∃ ls : List Lexeme, (∀ l ∈ ls, l.token = .nothing) ∧
      lexemes (before ++ pieces.flatten ++ after) = lexemes before ++ ls ++
        (lexemes after).map (Lexeme.reindex (· + (before.length + pieces.flatten.length))) ∧
      lexemes (before ++ after) =
        lexemes before ++ (lexemes after).map (Lexeme.reindex (· + before.length)) := by
  obtain ⟨ls, hls, hrest⟩ := lexemesFrom_inert hpieces before.length
  have happend : ∀ ds, lexemes (before ++ ds) = lexemes before ++ lexemesFrom 0 before.length ds := by
    intro ds
    have hfeed : before.getLast? = some CodePoint.carriageReturn →
        ds.head? ≠ some CodePoint.lineFeed := fun hlast => absurd hlast hend
    rw [lexemes, hbefore.lexemesFrom_append hfeed, Nat.zero_add, lexemes]
  refine ⟨ls, hls, ?_, ?_⟩
  · rw [List.append_assoc, happend, hrest, lexemesFrom_eq_map, List.append_assoc]
  · rw [happend, lexemesFrom_eq_map]

/-- The positions of the tokens move as those of the code points do. -/
theorem reindex_lexemes (before after : List Nat) (k : Nat) :
    (lexemes before ++ (lexemes after).map (Lexeme.reindex (· + before.length))).map
        (Lexeme.reindex (shiftFrom before.length k)) =
      lexemes before ++ (lexemes after).map (Lexeme.reindex (· + (before.length + k))) := by
  have hstill : (lexemes before).map (Lexeme.reindex (shiftFrom before.length k)) =
      lexemes before := by
    refine (List.map_congr_left fun l hl => ?_).trans (List.map_id _)
    have hlt : ¬ before.length ≤ l.index := Nat.not_le.2 (index_lt_of_mem_lexemes hl)
    rw [Lexeme.reindex, shiftFrom, if_neg hlt]
    rfl
  rw [List.map_append, hstill, List.map_map]
  congr 2
  funext l
  have hle : before.length ≤ l.index + before.length := Nat.le_add_left _ _
  simp only [Function.comp_apply, Lexeme.reindex, shiftFrom, if_pos hle, Nat.add_assoc]

end Tokens

/-! ### Layouts -/

theorem Line.transfer_still (f : Nat → Nat) :
    Line.transfer ⟨0, 0, 0⟩ f = Line.map (Item.reindex f) id := by
  have hregion : Region.displace ⟨0, 0, 0⟩ = id := funext (Region.displace_still 0)
  funext l
  rw [transfer, Item.transfer_still, hregion]
  rfl

/-- Tokens without an effect leave a layout as it is. -/
theorem LayoutState.run_nothing (job : Job) {ls : List Lexeme} (h : ∀ l ∈ ls, l.token = .nothing)
    (s : LayoutState) : s.run job ls = s := by
  induction ls with
  | nil => rfl
  | cons l ls ih =>
    have hstep : s.step job l = s := by
      rw [step, h l List.mem_cons_self]
    rw [run, List.foldl_cons, hstep]
    exact ih fun k hk => h k (List.mem_cons_of_mem l hk)

/-- A layout hands the positions of its tokens on to what it reports. -/
theorem Job.layoutWith_reindex (job : Job) (font : Font) (f : Nat → Nat) {cs ds : List Nat}
    (hlexemes : (LayoutState.initial job font).run job (lexemes ds) =
      (LayoutState.initial job font).run job ((lexemes cs).map (Lexeme.reindex f)))
    (hlength : ds.length = f cs.length) :
    job.layoutWith font ds = (job.layoutWith font cs).map (Line.map (Item.reindex f) id) := by
  have hjob : job.displace ⟨0, 0, 0⟩ job.origin.y = job := by
    simp only [displace, Int.add_zero]
  have hinitial : (LayoutState.initial job font).transfer ⟨0, 0, 0⟩ f #[] =
      LayoutState.initial job font := by
    simp only [LayoutState.transfer, LayoutState.initial, Int.add_zero, Array.map_empty,
      Array.append_empty, Option.map_none]
  have hrun := LayoutState.run_transfer ⟨0, 0, 0⟩ f job.origin.y #[] job
    (LayoutState.initial job font) (lexemes cs)
  have hfinish := LayoutState.finish_transfer ⟨0, 0, 0⟩ f job.origin.y #[] job
    ((LayoutState.initial job font).run job (lexemes cs)) cs.length
  rw [hjob, hinitial] at hrun
  rw [hjob, ← hrun, Line.transfer_still] at hfinish
  rw [layoutWith, hlexemes, hlength]
  exact hfinish

/-- Pieces without an effect leave a layout as it is, but for the positions behind them. -/
theorem Job.layoutWith_insert (job : Job) (font : Font) {before : List Nat}
    {pieces : List (List Nat)} (hbefore : SelfContained before)
    (hend : before.getLast? ≠ some CodePoint.carriageReturn) (hpieces : ∀ p ∈ pieces, Inert p)
    (after : List Nat) :
    job.layoutWith font (before ++ pieces.flatten ++ after) =
      (job.layoutWith font (before ++ after)).map
        (Line.map (Item.reindex (shiftFrom before.length pieces.flatten.length)) id) := by
  obtain ⟨ls, hls, hwith, hwithout⟩ := lexemes_insert hbefore hend hpieces after
  refine layoutWith_reindex job font _ ?_ ?_
  · rw [hwith, hwithout, reindex_lexemes]
    simp only [LayoutState.run, List.foldl_append]
    rw [← LayoutState.run, ← LayoutState.run, LayoutState.run_nothing job hls]
    rfl
  · have hle : before.length ≤ before.length + after.length := Nat.le_add_right _ _
    simp only [List.length_append, shiftFrom, if_pos hle]
    omega

/-! ### Markup -/

namespace Printer

theorem record_reindex (f : Nat → Nat) (stopAfter : Option Nat) :
    Traversal.Follows (Item.reindex f) (fun s => (s.1.map (Item.reindex f), s.2))
      (Query.record stopAfter) (Query.record stopAfter) := by
  rintro ⟨items, n⟩ item
  cases item with
  | glyph g =>
    simp only [Query.record, Item.reindex]
    split <;> rfl
  | _ => rfl

/-- **What is not known is passed over, wherever it stands.**  Between the markup of any
    commands and what follows there can be any number of noncharacters and of instructions
    with an unknown command and any parameters.  Whatever the printer, and wherever the layout is
    stopped, the items and the regions are the same as without them, but for the positions of
    the glyphs that come after. -/
theorem layout_insert (printer : Printer) {commands : List Command}
    (hcommands : ∀ c ∈ commands, c.SelfDelimiting)
    (hend : (Codec.decode (Markup.ofCommands commands).bytes).getLast? ≠
      some CodePoint.carriageReturn)
    {pieces : List (List Nat)} (hpieces : ∀ p ∈ pieces, Inert p)
    (hlargest : ∀ c ∈ pieces.flatten, c ≤ CodePoint.largest) (rest : List UInt8)
    (origin : Point) (width : Int) (stopAfter : Option Nat) :
    let n := (Codec.decode (Markup.ofCommands commands).bytes).length
    printer.layout ((Markup.ofCommands commands).bytes ++ Codec.encodeAll pieces.flatten ++ rest)
        origin width stopAfter =
      (printer.layout ((Markup.ofCommands commands).bytes ++ rest) origin width stopAfter).map
        fun (items, regions) =>
          (items.map (Item.reindex (shiftFrom n pieces.flatten.length)), regions) := by
  have hdecode := Command.decode_append commands
  have hfirst : Codec.decode (Markup.ofCommands commands).bytes =
      commands.flatMap Command.codePoints := by
    have hnil := hdecode []
    rwa [List.append_nil, Codec.decode_nil, List.append_nil] at hnil
  have hbefore : SelfContained (commands.flatMap Command.codePoints) :=
    .flatMap fun c hc => Command.selfContained (hcommands c hc)
  rw [hfirst] at hend ⊢
  intro n
  rw [List.append_assoc]
  simp only [layout, query, Job.layout, hdecode, Codec.decode_append_encodeAll hlargest]
  cases printer.fonts.get? printer.defaultFont with
  | none => rfl
  | some font =>
    have hlines := Job.layoutWith_insert ⟨printer, origin, width⟩ font hbefore hend hpieces
      (Codec.decode rest)
    rw [List.append_assoc] at hlines
    simp only [hlines]
    have hrecord := Traversal.lines_map (record_reindex (shiftFrom n pieces.flatten.length) stopAfter)
      id ([], 0) ((Job.mk printer origin width).layoutWith font
        (commands.flatMap Command.codePoints ++ Codec.decode rest))
    rw [List.map_nil, List.map_id] at hrecord
    simp only [Except.map, hrecord, List.map_reverse, n]

/-- Behind a letter stand a noncharacter and two instructions that are not known, the second
    one with a letter for a parameter. -/
theorem layout_insert_boxes :
    boxes.layout ((Markup.ofCommands [.text "a"]).bytes ++
        Codec.encodeAll [0xFFFF, 0x9A, 0x7F, 0x9B, 0x7F, 0x62, 0x9C] ++ [0x63]) .zero 10 none =
      (boxes.layout ((Markup.ofCommands [.text "a"]).bytes ++ [0x63]) .zero 10 none).map
        fun (items, regions) => (items.map (Item.reindex (shiftFrom 1 7)), regions) := by
  have hcommands : ∀ c ∈ [Command.text "a"], c.SelfDelimiting := by
    intro c hc
    obtain rfl := List.mem_singleton.1 hc
    intro letter hletter
    obtain rfl : letter = 'a' := List.mem_singleton.1 hletter
    decide
  have hswitch : ∀ w : Switch, w.command ≠ 0x7F := by
    intro w hw
    have hnone : Switch.ofCommand? 0x7F = none := by decide
    cases hnone.symm.trans (Switch.ofCommand?_eq_some_iff.2 hw.symm)
  have hsetting : ∀ s : Setting, s.command ≠ 0x7F := by
    intro s hs
    have hle := s.command_le
    omega
  have hparameters : ∀ p ∈ [0x62], p ≠ Control.terminator := by decide
  have hpieces : ∀ p ∈ [[0xFFFF], [0x9A, 0x7F], [0x9B, 0x7F, 0x62, 0x9C]], Inert p := by
    simp only [List.forall_mem_cons, List.not_mem_nil, false_implies, implies_true, and_true]
    exact ⟨.noncharacter, .simple hswitch, .complex hsetting hparameters⟩
  have hend : (Codec.decode (Markup.ofCommands [.text "a"]).bytes).getLast? ≠
      some CodePoint.carriageReturn := by decide +kernel
  exact layout_insert boxes hcommands hend hpieces (by decide) [0x63] .zero 10 none

end Printer

end RichText
