/-
  RichText/Proofs/Layout/FontInForce.lean
  =======================================
  **The font in force is the one that was asked for.**

  Instructions ask for fonts by number and turn scripts on and off; which registered font this
  leads to is kept in the state, and so is the wrap width, of which a share of the em size may
  be part.  Both follow from what was asked for, between any two tokens:

  * `Ink.Resolved`: the font in use is the registered one that the number asked for leads to,
    and `Ink.resolved_run` keeps it;
  * `Ink.run_requests`: what is asked for is what was asked for last, which is told from the
    tokens alone;
  * `LayoutState.WidthSet`: the wrap width is that of the layout or its override, in the font
    in use.

  A glyph has the font in force where its token starts, so that every glyph is in the font
  that the requests before it lead to (`Printer.font_in_force`).
-/
import Mathlib.Data.List.TakeWhile
import RichText.Proofs.Layout.Ink

namespace RichText

/-! ### Requests -/

/-- The registered font that stands for a number, in a script or elsewhere. -/
def Printer.fontFor (p : Printer) (script : Option Script) (wanted : Nat) : Nat :=
  if script.isSome then p.resolveScriptFont wanted else p.resolveFont wanted

theorem Printer.contains_fontFor {p : Printer} (h : p.fonts.contains p.defaultFont = true)
    (script : Option Script) (wanted : Nat) :
    p.fonts.contains (p.fontFor script wanted) = true := by
  simp only [fontFor]
  split
  · exact contains_resolveScriptFont h wanted
  · exact contains_resolveFont h wanted

namespace Token

/-- The number of the font that a token asks for; a reset asks for the default font. -/
def fontRequest? (p : Printer) : Token → Option Nat
  | .instruction (.toggle t) => (LayoutState.toggleFont? t).map FontRole.id
  | .instruction (.switch .resetFormatting) => some p.defaultFont
  | .instruction (.setting (.font id)) => some (id.elim p.defaultFont Fin.val)
  | _ => none

/-- The script that a token turns on, or that it turns scripts off. -/
def scriptRequest? : Token → Option (Option Script)
  | .instruction (.switch .resetFormatting) => some none
  | .instruction (.switch (.script kind)) => some kind
  | _ => none

end Token

/-- What the last token asks for of those that ask for something. -/
def lastRequest {α : Type} (request? : Token → Option α) (ls : List Lexeme) : Option α :=
  ls.reverse.findSome? fun l => request? l.token

theorem lastRequest_cons {α : Type} (request? : Token → Option α) (l : Lexeme)
    (ls : List Lexeme) :
    lastRequest request? (l :: ls) = (lastRequest request? ls).or (request? l.token) := by
  rw [lastRequest, List.reverse_cons, List.findSome?_append, List.findSome?_singleton]
  rfl

theorem lastRequest_append {α : Type} (request? : Token → Option α) (ls ms : List Lexeme) :
    lastRequest request? (ls ++ ms) =
      (lastRequest request? ms).or (lastRequest request? ls) := by
  rw [lastRequest, List.reverse_append, List.findSome?_append]
  rfl

theorem lastRequest_eq_none {α : Type} {request? : Token → Option α} {ls : List Lexeme}
    (h : ∀ l ∈ ls, request? l.token = none) : lastRequest request? ls = none :=
  List.findSome?_eq_none_iff.2 fun l hl => h l (List.mem_reverse.1 hl)

/-- The font that the requests of some tokens lead to, from the default font on. -/
def Printer.fontAfter (p : Printer) (ls : List Lexeme) : Nat :=
  p.fontFor ((lastRequest Token.scriptRequest? ls).getD none)
    ((lastRequest (Token.fontRequest? p) ls).getD p.defaultFont)

/-! ### The font in use -/

namespace Ink

variable {p : Printer} {i : Ink}

/-- The font in use is the registered one that the request leads to. -/
structure Resolved (p : Printer) (i : Ink) : Prop where
  registered : p.fonts.get? i.fontId = some i.font
  resolved : i.fontId = p.fontFor i.script i.wanted

theorem useWanted_eq (p : Printer) (i : Ink) :
    i.useWanted p = (p.fonts.get? (p.fontFor i.script i.wanted)).elim i fun font =>
      if p.fontFor i.script i.wanted = i.fontId then i
      else { i with fontId := p.fontFor i.script i.wanted, font := font } := rfl

theorem useWanted_frame (p : Printer) (i : Ink) :
    (i.useWanted p).wanted = i.wanted ∧ (i.useWanted p).script = i.script := by
  rw [useWanted_eq]
  generalize p.fontFor i.script i.wanted = id
  cases p.fonts.get? id with
  | none => exact ⟨rfl, rfl⟩
  | some font =>
    simp only [Option.elim_some]
    split <;> exact ⟨rfl, rfl⟩

/-- Whatever is asked for leads to a registered font, which comes into use. -/
theorem resolved_useWanted (h : p.fonts.contains p.defaultFont = true)
    (hi : p.fonts.get? i.fontId = some i.font) : (i.useWanted p).Resolved p := by
  obtain ⟨font, hfont⟩ := (Registry.contains_iff _ _).1 (p.contains_fontFor h i.script i.wanted)
  rw [useWanted_eq, hfont, Option.elim_some]
  split
  · next hid => exact ⟨hi, hid.symm⟩
  · exact ⟨hfont, rfl⟩

theorem Resolved.toggle (h : p.fonts.contains p.defaultFont = true) (hi : i.Resolved p)
    (t : Toggle) : (i.toggle p t).Resolved p := by
  cases t with
  | startSelection => exact ⟨hi.registered, hi.resolved⟩
  | endSelection => exact ⟨hi.registered, hi.resolved⟩
  | _ => exact resolved_useWanted h hi.registered

theorem Resolved.switch (h : p.fonts.contains p.defaultFont = true) (hi : i.Resolved p)
    (w : Switch) : (i.switch p w).Resolved p := by
  cases w with
  | resetFormatting => exact resolved_useWanted h hi.registered
  | script kind => exact resolved_useWanted h hi.registered
  | _ => exact hi

theorem Resolved.setting (h : p.fonts.contains p.defaultFont = true) (hi : i.Resolved p)
    (s : Setting) : (i.setting p s).Resolved p := by
  cases s with
  | font id => exact resolved_useWanted h hi.registered
  | color target c => cases target <;> exact ⟨hi.registered, hi.resolved⟩
  | _ => exact ⟨hi.registered, hi.resolved⟩

theorem Resolved.step (h : p.fonts.contains p.defaultFont = true) (hi : i.Resolved p)
    (l : Lexeme) : (i.step p l).Resolved p := by
  obtain ⟨index, token⟩ := l
  cases token with
  | instruction c =>
    cases c with
    | toggle t => exact hi.toggle h t
    | switch w => exact hi.switch h w
    | setting s => exact hi.setting h s
  | _ => exact hi

theorem resolved_run (h : p.fonts.contains p.defaultFont = true) (hi : i.Resolved p)
    (ls : List Lexeme) : (i.run p ls).Resolved p := by
  induction ls generalizing i with
  | nil => exact hi
  | cons l ls ih => exact ih (hi.step h l)

/-! ### What is asked for -/

theorem step_requests (p : Printer) (i : Ink) (l : Lexeme) :
    (i.step p l).wanted = (l.token.fontRequest? p).getD i.wanted ∧
      (i.step p l).script = l.token.scriptRequest?.getD i.script := by
  obtain ⟨index, token⟩ := l
  cases token with
  | instruction c =>
    cases c with
    | toggle t =>
      cases t with
      | startSelection => exact ⟨rfl, rfl⟩
      | endSelection => exact ⟨rfl, rfl⟩
      | _ => exact useWanted_frame p { i with wanted := _ }
    | switch w =>
      cases w with
      | resetFormatting => exact useWanted_frame p _
      | script kind => exact useWanted_frame p { i with script := kind }
      | _ => exact ⟨rfl, rfl⟩
    | setting s =>
      cases s with
      | font id => exact useWanted_frame p { i with wanted := _ }
      | color target c => cases target <;> exact ⟨rfl, rfl⟩
      | _ => exact ⟨rfl, rfl⟩
  | _ => exact ⟨rfl, rfl⟩

/-- What is asked for is what was asked for last. -/
theorem run_requests (p : Printer) (i : Ink) (ls : List Lexeme) :
    (i.run p ls).wanted = (lastRequest (Token.fontRequest? p) ls).getD i.wanted ∧
      (i.run p ls).script = (lastRequest Token.scriptRequest? ls).getD i.script := by
  induction ls generalizing i with
  | nil => exact ⟨rfl, rfl⟩
  | cons l ls ih =>
    obtain ⟨hwanted, hscript⟩ := ih (i.step p l)
    obtain ⟨hfont, hkind⟩ := step_requests p i l
    rw [hfont] at hwanted
    rw [hkind] at hscript
    rw [lastRequest_cons, lastRequest_cons]
    constructor
    · refine hwanted.trans ?_
      cases lastRequest (Token.fontRequest? p) ls <;> rfl
    · refine hscript.trans ?_
      cases lastRequest Token.scriptRequest? ls <;> rfl

/-- The looks of a text are those of its tokens, each with the ink before it. -/
theorem exists_of_mem_text {k : Look} {ls : List Lexeme} (h : k ∈ i.text p ls) :
    ∃ seen l rest, ls = seen ++ l :: rest ∧ k ∈ (i.run p seen).looks p l := by
  induction ls generalizing i with
  | nil => cases h
  | cons l ls ih =>
    rcases List.mem_append.1 h with h | h
    · exact ⟨[], l, ls, rfl, h⟩
    · obtain ⟨seen, m, rest, hls, hk⟩ := ih h
      exact ⟨l :: seen, m, rest, congrArg (l :: ·) hls, hk⟩

theorem of_mem_looks {k : Look} {l : Lexeme} (h : k ∈ i.looks p l) :
    k.font = i.fontId ∧ k.index = l.index := by
  obtain ⟨σ, hσ, rfl⟩ := List.mem_map.1 h
  exact ⟨rfl, (index_of_mem_signs hσ).1⟩

end Ink

/-- The tokens before the one at a position are those whose positions are smaller. -/
theorem takeWhile_lexemes {cs : List Nat} {seen rest : List Lexeme} {l : Lexeme}
    (h : lexemes cs = seen ++ l :: rest) :
    (lexemes cs).takeWhile (fun m => decide (m.index < l.index)) = seen := by
  have hpairs := pairwise_lexemes cs
  rw [h] at hpairs
  have hseen : ∀ m ∈ seen, decide (m.index < l.index) = true := by
    intro m hm
    exact decide_eq_true ((List.pairwise_append.1 hpairs).2.2 m hm l List.mem_cons_self)
  rw [h, List.takeWhile_append_of_pos hseen, List.takeWhile_cons_of_neg, List.append_nil]
  exact fun hl => absurd (of_decide_eq_true hl) (Nat.lt_irrefl _)

namespace LayoutState

variable {job : Job} {s t : LayoutState}

theorem resolved_initial {font : Font}
    (hfont : job.printer.fonts.get? job.printer.defaultFont = some font) :
    (initial job font).ink.Resolved job.printer where
  registered := hfont
  resolved := by
    have hcontains := (Registry.contains_iff _ _).2 ⟨font, hfont⟩
    exact (Cascade.resolve_of_registered hcontains job.printer.defaultFont).symm

/-! ### The wrap width -/

/-- The wrap width is that of the layout, or what overrides it in the font in use; one that is
    negative is none. -/
def WidthSet (job : Job) (s : LayoutState) : Prop :=
  s.wrapWidth = max (s.wrapOverride.elim job.width (·.resolveMultiple s.font.face.em)) 0

theorem WidthSet.congr (h : s.WidthSet job) (hwidth : t.wrapWidth = s.wrapWidth)
    (hoverride : t.wrapOverride = s.wrapOverride) (hfont : t.font = s.font) : t.WidthSet job := by
  rw [WidthSet, hwidth, hoverride, hfont]
  exact h

theorem WidthSet.sameStyle (h : s.WidthSet job) (hst : SameStyle s t) : t.WidthSet job :=
  h.congr hst.wrapWidth hst.wrapOverride hst.font

theorem widthSet_initial (job : Job) (font : Font) : (initial job font).WidthSet job := rfl

theorem widthSet_updateWrapWidth (job : Job) (s : LayoutState) :
    (s.updateWrapWidth job).WidthSet job := rfl

/-- A change of the font is followed by the wrap width. -/
theorem widthSet_switchFont (job : Job) (s : LayoutState) : (s.switchFont job).WidthSet job :=
  widthSet_updateWrapWidth job _

theorem WidthSet.applyToggle (h : s.WidthSet job) (t : Toggle) :
    (s.applyToggle job t).WidthSet job := by
  cases t with
  | startSelection => exact h.congr rfl rfl rfl
  | endSelection => exact h.congr rfl rfl rfl
  | _ => exact widthSet_switchFont job _

theorem WidthSet.applySwitch (h : s.WidthSet job) (w : Switch) :
    (s.applySwitch job w).WidthSet job := by
  cases w with
  | resetFormatting => exact widthSet_switchFont job _
  | script kind => exact widthSet_switchFont job _
  | endTable => exact h.sameStyle (sameStyle_endTable job s)
  | _ => exact h.congr rfl rfl rfl

theorem WidthSet.applyLength (h : s.WidthSet job) (index : Nat) (target : LengthTarget)
    (l : Option Length) : (s.applyLength job index target l).WidthSet job := by
  cases target with
  | wrapWidth => exact widthSet_updateWrapWidth job _
  | horizontalSpace =>
    cases l with
    | none => exact h
    | some l => exact h.sameStyle (sameStyle_addMark job s _ _ _ index)
  | verticalSpace =>
    cases l with
    | none => exact h
    | some l =>
      simp only [LayoutState.applyLength, Option.elim_some, addVerticalSpace]
      split <;> exact h.congr rfl rfl rfl
  | _ => exact h.congr rfl rfl rfl

theorem WidthSet.applySetting (h : s.WidthSet job) (index : Nat) (setting : Setting) :
    (s.applySetting job index setting).WidthSet job := by
  cases setting with
  | font id => exact widthSet_switchFont job _
  | length target l => exact h.applyLength index target l
  | image i =>
    simp only [LayoutState.applySetting, placeImage]
    cases job.printer.images.get? i.index.val with
    | none => exact h
    | some image => exact h.sameStyle (sameStyle_addMark job s _ _ _ index)
  | beginTable border width columns =>
    have hline := sameStyle_finishLine job s (.newline false)
    exact h.congr hline.wrapWidth hline.wrapOverride hline.font
  | addTabStop id position => cases position <;> exact h.congr rfl rfl rfl
  | rowSpan rows => exact h
  | _ => exact h.congr rfl rfl rfl

theorem WidthSet.step (h : s.WidthSet job) (l : Lexeme) : (s.step job l).WidthSet job := by
  by_cases hl : ∃ i, l.token = .instruction i
  · obtain ⟨i, hi⟩ := hl
    simp only [LayoutState.step, hi]
    cases i with
    | toggle t => exact h.applyToggle t
    | switch w => exact h.applySwitch w
    | setting setting => exact h.applySetting l.index setting
  · exact h.sameStyle (sameStyle_step job s fun i hi => hl ⟨i, hi⟩)

theorem widthSet_run (h : s.WidthSet job) (ls : List Lexeme) : (s.run job ls).WidthSet job := by
  induction ls generalizing s with
  | nil => exact h
  | cons l ls ih => exact ih (h.step l)

end LayoutState

/-! ### The fonts of a layout -/

open LayoutState

namespace Job

variable (job : Job) {font : Font}
  (hfont : job.printer.fonts.get? job.printer.defaultFont = some font)
include hfont

theorem resolved_run (ls : List Lexeme) :
    ((initial job font).run job ls).ink.Resolved job.printer := by
  have hcontains := (Registry.contains_iff _ _).2 ⟨font, hfont⟩
  rw [ink_run]
  exact Ink.resolved_run hcontains (resolved_initial hfont) ls

/-- The font in use follows from the requests so far. -/
theorem fontId_run (ls : List Lexeme) :
    ((initial job font).ink.run job.printer ls).fontId = job.printer.fontAfter ls := by
  have hresolved := (job.resolved_run hfont ls).resolved
  rw [ink_run] at hresolved
  obtain ⟨hwanted, hscript⟩ := Ink.run_requests job.printer (initial job font).ink ls
  rw [hresolved, hwanted, hscript]
  rfl

/-- A glyph is in the font that the tokens before its own lead to; the end of the text has all
    tokens before it. -/
theorem font_eq_fontAfter {cs : List Nat} {g : Glyph}
    (hg : g ∈ events (job.layoutWith font cs)) :
    g.font = job.printer.fontAfter
      ((lexemes cs).takeWhile fun l => decide (l.index < g.index)) := by
  obtain ⟨before, last, hevents, hinked, -, -, -, hindex, hlast⟩ :=
    job.events_inked font cs
  rw [hevents] at hg
  rcases List.mem_append.1 hg with hg | hg
  · obtain ⟨k, hk, hinks⟩ : ∃ k ∈ (initial job font).ink.text job.printer (lexemes cs),
        Inked k g := exists_of_forall₂ hinked hg
    obtain ⟨seen, l, rest, hcs, hlook⟩ := Ink.exists_of_mem_text hk
    obtain ⟨hkfont, hkindex⟩ := Ink.of_mem_looks hlook
    rw [hinks.font, hinks.index, hkfont, hkindex, takeWhile_lexemes hcs]
    exact job.fontId_run hfont seen
  · obtain rfl := List.mem_singleton.1 hg
    have hall : ∀ l ∈ lexemes cs, decide (l.index < g.index) = true := by
      intro l hl
      rw [hindex]
      exact decide_eq_true (index_lt_of_mem_lexemes hl)
    rw [hlast, List.takeWhile_eq_self_iff.2 hall]
    exact job.fontId_run hfont (lexemes cs)

end Job

/-- **The font in force is the one that was asked for.**  Between any two tokens the font in use
    is the registered one that the last request leads to, in a script or elsewhere, and the wrap
    width is that of the layout, or its override in the font in use.  So every glyph is in the
    font that the last requests before its token lead to. -/
theorem Printer.font_in_force {p : Printer} (h : p.fonts.contains p.defaultFont = true)
    (markup : List UInt8) (origin : Point) (width : Int) :
    let job : Job := ⟨p, origin, width⟩
    let cs := Codec.decode markup
    ∃ font lines, p.fonts.get? p.defaultFont = some font ∧ job.layout markup = .ok lines ∧
      (∀ seen rest, lexemes cs = seen ++ rest →
        let s := (initial job font).run job seen
        p.fonts.get? s.fontId = some s.font ∧
        s.fontId = (if s.format.script.isSome then p.resolveScriptFont s.format.font
          else p.resolveFont s.format.font) ∧
        s.format.font = (lastRequest (Token.fontRequest? p) seen).getD p.defaultFont ∧
        s.format.script = (lastRequest Token.scriptRequest? seen).getD none ∧
        s.wrapWidth = match s.wrapOverride with
          | none => max width 0
          | some l => max (l.resolveMultiple s.font.face.em) 0) ∧
      ∀ line ∈ lines, ∀ g ∈ line.events,
        g.font = p.fontAfter ((lexemes cs).takeWhile fun l => decide (l.index < g.index)) := by
  intro job cs
  obtain ⟨font, hfont⟩ := (Registry.contains_iff p.fonts p.defaultFont).1 h
  refine ⟨font, _, hfont, Job.layout_eq hfont markup, ?_, ?_⟩
  · intro seen rest _ s
    have hresolved : s.ink.Resolved p := job.resolved_run hfont seen
    obtain ⟨hwanted, hscript⟩ := Ink.run_requests p (initial job font).ink seen
    rw [← ink_run job] at hwanted hscript
    have hwidth : s.WidthSet job := widthSet_run (widthSet_initial job font) seen
    refine ⟨hresolved.registered, hresolved.resolved, hwanted, hscript, ?_⟩
    rw [hwidth]
    cases s.wrapOverride <;> rfl
  · intro line hline g hg
    exact job.font_eq_fontAfter hfont (List.mem_flatMap.2 ⟨line, hline, hg⟩)

/-- Without fonts for headings a small heading is bold, and a large one is in the default font. -/
theorem Printer.font_in_force_boxes :
    ∃ lines, (Job.mk boxes .zero 30).layout [0x13, 0x41, 0x11, 0x42] = .ok lines ∧
      ∀ line ∈ lines, ∀ g ∈ line.events, (g.index = 1 → g.font = FontRole.bold.id) ∧
        (g.index = 3 → g.font = FontRole.normal.id) := by
  have h : boxes.fonts.contains boxes.defaultFont = true := rfl
  obtain ⟨font, lines, -, hlayout, -, hfonts⟩ := font_in_force h [0x13, 0x41, 0x11, 0x42] .zero 30
  refine ⟨lines, hlayout, fun line hline g hg => ⟨fun hindex => ?_, fun hindex => ?_⟩⟩
  · rw [hfonts line hline g hg, hindex]
    decide +kernel
  · rw [hfonts line hline g hg, hindex]
    decide +kernel

end RichText
